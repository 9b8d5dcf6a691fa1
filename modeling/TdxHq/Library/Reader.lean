import Mathlib

namespace TdxHq.Reader

variable {ε σ α β γ τ : Type}

theorem pure_apply (a : α) (s : σ) : (pure a : EStateM ε σ α) s = .ok a s := rfl

theorem bind_of_ok {x : EStateM ε σ α} {f : α → EStateM ε σ β} {s s' : σ} {a : α}
    (h : x s = .ok a s') : (x >>= f) s = f a s' := by
  change EStateM.bind x f s = _
  simp only [EStateM.bind, h]

theorem bind_of_error {x : EStateM ε σ α} {f : α → EStateM ε σ β} {s s' : σ} {e : ε}
    (h : x s = .error e s') : (x >>= f) s = .error e s' := by
  change EStateM.bind x f s = _
  simp only [EStateM.bind, h]

theorem get_bind (f : σ → EStateM ε σ α) (s : σ) : (get >>= f) s = f s s := rfl

theorem bind_eq_ok {x : EStateM ε σ α} {f : α → EStateM ε σ β} {s s'' : σ} {b : β} :
    (x >>= f) s = .ok b s'' ↔ ∃ a s', x s = .ok a s' ∧ f a s' = .ok b s'' := by
  constructor
  · intro h
    cases hx : x s with
    | ok a s' => exact ⟨a, s', rfl, by rwa [bind_of_ok hx] at h⟩
    | error e s' => rw [bind_of_error hx] at h; cases h
  · rintro ⟨a, s', hx, hf⟩
    rw [bind_of_ok hx, hf]

theorem pure_eq_ok {a b : α} {s s' : σ} :
    (pure a : EStateM ε σ α) s = .ok b s' ↔ a = b ∧ s = s' := by
  rw [pure_apply, EStateM.Result.ok.injEq]

/-- Run `body` `n` times, threading an accumulator. -/
def iterate (body : γ → EStateM ε σ γ) : ℕ → γ → EStateM ε σ γ
  | 0, g => pure g
  | n + 1, g => body g >>= iterate body n

theorem length_le_flatMap (enc : α → List τ) (as : List α) (hpos : ∀ a ∈ as, 0 < (enc a).length) :
    as.length ≤ (as.flatMap enc).length := by
  have hone : ∀ n ∈ as.map fun a => (enc a).length, 1 ≤ n := by
    intro n hn
    obtain ⟨a, ha, rfl⟩ := List.mem_map.mp hn
    exact hpos a ha
  have hsum := List.length_le_sum_of_one_le _ hone
  rwa [List.length_map, ← List.length_flatMap] at hsum

section Reads

variable (inv : σ → Prop) (view : σ → List τ)

/-- From every good state whose input begins with `bs`, `rd` consumes exactly `bs`
and returns `a`. -/
def Reads (rd : EStateM ε σ α) (bs : List τ) (a : α) : Prop :=
  ∀ s rest, inv s → view s = bs ++ rest → ∃ s', rd s = .ok a s' ∧ inv s' ∧ view s' = rest

variable {inv view}

theorem Reads.pure (a : α) : Reads inv view (pure a : EStateM ε σ α) [] a := by
  intro s rest hs hv
  exact ⟨s, rfl, hs, by simpa using hv⟩

theorem Reads.bind {x : EStateM ε σ α} {f : α → EStateM ε σ β} {bs cs : List τ} {a : α} {b : β}
    (hx : Reads inv view x bs a) (hf : Reads inv view (f a) cs b) :
    Reads inv view (x >>= f) (bs ++ cs) b := by
  intro s rest hs hv
  obtain ⟨s', h₁, hs', hv'⟩ := hx s (cs ++ rest) hs (by rw [hv, List.append_assoc])
  obtain ⟨s'', h₂, hs'', hv''⟩ := hf s' rest hs' hv'
  exact ⟨s'', by rw [bind_of_ok h₁, h₂], hs'', hv''⟩

theorem Reads.map {x : EStateM ε σ α} {bs : List τ} {a : α} (f : α → β)
    (hx : Reads inv view x bs a) :
    Reads inv view (x >>= fun a => Pure.pure (f a)) bs (f a) := by
  have h := hx.bind (f := fun a => Pure.pure (f a)) (Reads.pure (f a))
  rwa [List.append_nil] at h

theorem Reads.map_eq {x : EStateM ε σ α} {bs : List τ} {a : α} {f : α → β} {b : β}
    (hx : Reads inv view x bs a) (hb : f a = b) :
    Reads inv view (x >>= fun a => Pure.pure (f a)) bs b := by
  rw [← hb]
  exact hx.map f

/-- A counted loop reads the items of a list back, one a round. -/
theorem Reads.iterate {body : γ → EStateM ε σ γ} (push : γ → α → γ) (enc : α → List τ)
    (as : List α) (hbody : ∀ a ∈ as, ∀ g, Reads inv view (body g) (enc a) (push g a)) (g : γ) :
    Reads inv view (iterate body as.length g) (as.flatMap enc) (as.foldl push g) := by
  induction as generalizing g with
  | nil => exact Reads.pure g
  | cons a as ih =>
    simp only [List.length_cons, List.flatMap_cons, List.foldl_cons]
    exact (hbody a (by simp) g).bind (ih (fun b hb => hbody b (by simp [hb])) (push g a))

end Reads

section Consumes

variable (inv : σ → Prop) (view : σ → List τ)

def result (r : Except ε α) (s : σ) : EStateM.Result ε σ α :=
  match r with
  | .ok a => .ok a s
  | .error e => .error e s

/-- From every good state whose input begins with `bs`, `rd` consumes exactly `bs` and
returns or throws `r`. -/
def Consumes (rd : EStateM ε σ α) (bs : List τ) (r : Except ε α) : Prop :=
  ∀ s rest, inv s → view s = bs ++ rest → ∃ s', rd s = result r s' ∧ inv s' ∧ view s' = rest

variable {inv view}

theorem consumes_ok_iff {rd : EStateM ε σ α} {bs : List τ} {a : α} :
    Consumes inv view rd bs (.ok a) ↔ Reads inv view rd bs a := Iff.rfl

theorem Consumes.pure (a : α) : Consumes inv view (pure a : EStateM ε σ α) [] (.ok a) := by
  intro s rest hs hv
  exact ⟨s, rfl, hs, by simpa using hv⟩

theorem Consumes.throw (e : ε) :
    Consumes inv view (throw e : EStateM ε σ α) [] (.error e) := by
  intro s rest hs hv
  exact ⟨s, rfl, hs, by simpa using hv⟩

theorem Consumes.bind {x : EStateM ε σ α} {f : α → EStateM ε σ β} {bs cs : List τ} {a : α}
    {r : Except ε β} (hx : Consumes inv view x bs (.ok a)) (hf : Consumes inv view (f a) cs r) :
    Consumes inv view (x >>= f) (bs ++ cs) r := by
  intro s rest hs hv
  obtain ⟨s', h₁, hs', hv'⟩ := hx s (cs ++ rest) hs (by rw [hv, List.append_assoc])
  obtain ⟨s'', h₂, hs'', hv''⟩ := hf s' rest hs' hv'
  refine ⟨s'', ?_, hs'', hv''⟩
  rw [bind_of_ok h₁, h₂]

theorem Consumes.bind_error {x : EStateM ε σ α} {bs : List τ} {e : ε}
    (hx : Consumes inv view x bs (.error e)) (f : α → EStateM ε σ β) :
    Consumes inv view (x >>= f) bs (.error e) := by
  intro s rest hs hv
  obtain ⟨s', h₁, hs', hv'⟩ := hx s rest hs hv
  exact ⟨s', bind_of_error h₁, hs', hv'⟩

theorem Consumes.andThen {x : EStateM ε σ α} {f : α → EStateM ε σ β} {bs : List τ} {a : α}
    {r : Except ε β} (hx : Consumes inv view x bs (.ok a)) (hf : Consumes inv view (f a) [] r) :
    Consumes inv view (x >>= f) bs r := by
  have h := hx.bind hf
  rwa [List.append_nil] at h

theorem Consumes.peek {x : EStateM ε σ α} {f : α → EStateM ε σ β} {bs : List τ} {a : α}
    {r : Except ε β} (hx : ∀ s rest, inv s → view s = bs ++ rest →
      ∃ s', x s = .ok a s' ∧ inv s' ∧ view s' = view s)
    (hf : Consumes inv view (f a) bs r) : Consumes inv view (x >>= f) bs r := by
  intro s rest hs hv
  obtain ⟨s', h₁, hs', hv'⟩ := hx s rest hs hv
  obtain ⟨s'', h₂, hs'', hv''⟩ := hf s' rest hs' (hv'.trans hv)
  refine ⟨s'', ?_, hs'', hv''⟩
  rw [bind_of_ok h₁, h₂]

theorem Consumes.check {x : EStateM ε σ α} {f : α → EStateM ε σ β} {bs : List τ}
    {r : Except ε α} (g : α → Except ε β) (hx : Consumes inv view x bs r)
    (hf : ∀ a, Consumes inv view (f a) [] (g a)) :
    Consumes inv view (x >>= f) bs (r.bind g) := by
  cases r with
  | ok a => exact hx.andThen (hf a)
  | error e => exact hx.bind_error _

theorem Consumes.map {x : EStateM ε σ α} {bs : List τ} {r : Except ε α}
    (hx : Consumes inv view x bs r) (f : α → β) :
    Consumes inv view (x >>= fun a => Pure.pure (f a)) bs (r.map f) := by
  cases r with
  | ok a => exact hx.andThen (Consumes.pure (f a))
  | error e => exact hx.bind_error _

end Consumes

section Accepts

variable (good : σ → Prop) (view : σ → List τ)

/-- `rd` ends in a good state exactly where its input begins with a word of `L`, and
has then consumed that word. -/
structure Accepts (rd : EStateM ε σ α) (L : Language τ) : Prop where
  back : ∀ {s a s'}, rd s = .ok a s' → good s' → good s
  sound : ∀ {s a s'}, rd s = .ok a s' → good s' → ∃ bs ∈ L, view s = bs ++ view s'
  complete : ∀ {s bs rest}, good s → bs ∈ L → view s = bs ++ rest →
    ∃ a s', rd s = .ok a s' ∧ good s' ∧ view s' = rest

variable {good view}

theorem Accepts.pure (a : α) : Accepts good view (pure a : EStateM ε σ α) 1 where
  back h hg := by
    obtain ⟨-, rfl⟩ := pure_eq_ok.mp h
    exact hg
  sound h _ := by
    obtain ⟨-, rfl⟩ := pure_eq_ok.mp h
    exact ⟨[], Language.nil_mem_one, rfl⟩
  complete {s bs rest} hg hbs hv := by
    rw [Language.mem_one] at hbs
    subst hbs
    exact ⟨a, s, rfl, hg, by simpa using hv⟩

theorem Accepts.bind {x : EStateM ε σ α} {f : α → EStateM ε σ β} {L M : Language τ}
    (hx : Accepts good view x L) (hf : ∀ a, Accepts good view (f a) M) :
    Accepts good view (x >>= f) (L * M) where
  back h hg := by
    obtain ⟨a, s', h₁, h₂⟩ := bind_eq_ok.mp h
    exact hx.back h₁ ((hf a).back h₂ hg)
  sound h hg := by
    obtain ⟨a, s', h₁, h₂⟩ := bind_eq_ok.mp h
    obtain ⟨bs, hbs, hv⟩ := hx.sound h₁ ((hf a).back h₂ hg)
    obtain ⟨cs, hcs, hv'⟩ := (hf a).sound h₂ hg
    exact ⟨bs ++ cs, Language.append_mem_mul hbs hcs, by rw [hv, hv', List.append_assoc]⟩
  complete {s bs rest} hg hbs hv := by
    obtain ⟨bs₁, h₁, bs₂, h₂, rfl⟩ := Language.mem_mul.mp hbs
    obtain ⟨a, s', hxs, hg', hv'⟩ := hx.complete hg h₁ (by rw [hv, List.append_assoc])
    obtain ⟨b, s'', hfs, hg'', hv''⟩ := (hf a).complete hg' h₂ hv'
    exact ⟨b, s'', by rw [bind_of_ok hxs, hfs], hg'', hv''⟩

theorem Accepts.map {x : EStateM ε σ α} {L : Language τ} (hx : Accepts good view x L)
    (f : α → β) : Accepts good view (x >>= fun a => Pure.pure (f a)) L := by
  rw [← mul_one L]
  exact hx.bind fun a => Accepts.pure (f a)

theorem Accepts.iterate {body : γ → EStateM ε σ γ} {L : Language τ}
    (hbody : ∀ g, Accepts good view (body g) L) (n : ℕ) (g : γ) :
    Accepts good view (iterate body n g) (L ^ n) := by
  induction n generalizing g with
  | zero =>
    rw [pow_zero]
    exact Accepts.pure g
  | succ n ih =>
    rw [pow_succ']
    exact (hbody g).bind ih

end Accepts

end TdxHq.Reader
