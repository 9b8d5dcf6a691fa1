import Mathlib

namespace TdxHq.Runs

variable {σ ι : Type} (step : σ → ι → σ)

def Meets (ok : σ → ι → Prop) : σ → List ι → Prop
  | _, [] => True
  | s, o :: os => ok s o ∧ Meets ok (step s o) os

def Always (P : σ → Prop) : σ → List ι → Prop
  | s, [] => P s
  | s, o :: os => P s ∧ Always P (step s o) os

variable {step} {P : σ → Prop} {ok : σ → ι → Prop}

theorem Always.head {s : σ} {os : List ι} (h : Always step P s os) : P s := by
  cases os with
  | nil => exact h
  | cons o os => exact h.1

theorem Always.mono {Q : σ → Prop} (hPQ : ∀ s, P s → Q s) {s : σ} {os : List ι}
    (h : Always step P s os) : Always step Q s os := by
  induction os generalizing s with
  | nil => exact hPQ s h
  | cons o os ih => exact ⟨hPQ s h.1, ih h.2⟩

theorem Meets.mono {I : σ → Prop} {ok' : σ → ι → Prop} (hI : ∀ s o, I s → I (step s o))
    (hok : ∀ s o, I s → ok s o → ok' s o) {s : σ} {os : List ι} (h0 : I s)
    (h : Meets step ok s os) : Meets step ok' s os := by
  induction os generalizing s with
  | nil => trivial
  | cons o os ih => exact ⟨hok s o h0 h.1, ih (hI s o h0) h.2⟩

theorem always_iff_prefix {s : σ} {os : List ι} :
    Always step P s os ↔ ∀ pre post, os = pre ++ post → P (pre.foldl step s) := by
  induction os generalizing s with
  | nil =>
    constructor
    · intro h pre post he
      obtain ⟨rfl, -⟩ := List.nil_eq_append_iff.mp he
      exact h
    · intro h
      exact h [] [] rfl
  | cons o os ih =>
    constructor
    · rintro ⟨h0, h⟩ pre post he
      rcases pre with _ | ⟨o', pre⟩
      · exact h0
      · obtain ⟨rfl, hos⟩ := List.cons.inj he
        exact ih.mp h pre post hos
    · intro h
      exact ⟨h [] _ rfl, ih.mpr fun pre post he => h (o :: pre) post (by rw [he]; rfl)⟩

/-- A property that holds first and survives every allowed move holds throughout. -/
theorem always_of_meets (hstep : ∀ s o, P s → ok s o → P (step s o)) {s : σ} {os : List ι}
    (h0 : P s) (h : Meets step ok s os) : Always step P s os := by
  induction os generalizing s with
  | nil => exact h0
  | cons o os ih => exact ⟨h0, ih (hstep s o h0 h.1) h.2⟩

/-- Where, under an invariant, a move keeps the property exactly when it is allowed, the
property holds throughout exactly when all moves are allowed. -/
theorem always_iff_meets {I : σ → Prop} (hI : ∀ s o, I s → I (step s o))
    (hstep : ∀ s o, I s → P s → (P (step s o) ↔ ok s o)) {s : σ} {os : List ι}
    (hI0 : I s) (h0 : P s) : Always step P s os ↔ Meets step ok s os := by
  induction os generalizing s with
  | nil => exact ⟨fun _ => trivial, fun _ => h0⟩
  | cons o os ih =>
    constructor
    · rintro ⟨-, h⟩
      exact ⟨(hstep s o hI0 h0).mp h.head, (ih (hI s o hI0) h.head).mp h⟩
    · rintro ⟨ho, h⟩
      have hP := (hstep s o hI0 h0).mpr ho
      exact ⟨h0, (ih (hI s o hI0) hP).mpr h⟩

theorem meets_append {s : σ} {os os' : List ι} :
    Meets step ok s (os ++ os') ↔ Meets step ok s os ∧ Meets step ok (os.foldl step s) os' := by
  induction os generalizing s with
  | nil => simp [Meets]
  | cons o os ih => rw [List.cons_append, Meets, Meets, ih, and_assoc, List.foldl_cons]

/-- Moves that are allowed wherever an invariant holds make a run that is allowed. -/
theorem meets_of_inv {I : σ → Prop} {os : List ι} (hok : ∀ s, I s → ∀ o ∈ os, ok s o)
    (hI : ∀ s o, I s → ok s o → I (step s o)) {s : σ} (h0 : I s) : Meets step ok s os := by
  induction os generalizing s with
  | nil => trivial
  | cons o os ih =>
    have ho := hok s h0 o (by simp)
    exact ⟨ho, ih (fun s' hs' o' ho' => hok s' hs' o' (by simp [ho'])) (hI s o h0 ho)⟩

theorem Always.last {s : σ} {os : List ι} (h : Always step P s os) : P (os.foldl step s) :=
  always_iff_prefix.mp h os [] (List.append_nil os).symm

/-- What is in a record at the end of a run was in it at first, or came in with a move. -/
theorem mem_record_foldl {ρ : Type} {f : σ → List ρ} {Q : ι → ρ → Prop}
    (hstep : ∀ s o, ∀ r ∈ f (step s o), r ∈ f s ∨ Q o r) {s : σ} {os : List ι}
    {r : ρ} (hr : r ∈ f (os.foldl step s)) : r ∈ f s ∨ ∃ o ∈ os, Q o r := by
  induction os generalizing s with
  | nil => exact Or.inl hr
  | cons o os ih =>
    rcases ih hr with hold | ⟨o', ho', hQ⟩
    · exact (hstep s o r hold).imp_right fun h => ⟨o, List.mem_cons_self, h⟩
    · exact Or.inr ⟨o', List.mem_cons_of_mem o ho', hQ⟩

section Part

variable {τ κ : Type} {part : τ → κ → τ} {view : σ → τ} {moves : σ → ι → List κ} {I : σ → Prop}

variable (step moves) in
/-- The moves of the part in a run of the whole. -/
def trace : σ → List ι → List κ
  | _, [] => []
  | s, o :: os => moves s o ++ trace (step s o) os

variable (view) in
/-- If each allowed move of the whole shows as moves of the part, so does each run. -/
theorem view_foldl (hI : ∀ s o, I s → ok s o → I (step s o))
    (hview : ∀ s o, I s → ok s o → view (step s o) = (moves s o).foldl part (view s))
    {s : σ} {os : List ι} (h0 : I s) (h : Meets step ok s os) :
    view (os.foldl step s) = (trace step moves s os).foldl part (view s) := by
  induction os generalizing s with
  | nil => rfl
  | cons o os ih =>
    rw [List.foldl_cons, ih (hI s o h0 h.1) h.2, trace, List.foldl_append, hview s o h0 h.1]

/-- If each allowed move of the whole shows as allowed moves of the part, so does each run. -/
theorem meets_trace {okPart : τ → κ → Prop} (hI : ∀ s o, I s → ok s o → I (step s o))
    (hview : ∀ s o, I s → ok s o → view (step s o) = (moves s o).foldl part (view s))
    (hok : ∀ s o, I s → ok s o → Meets part okPart (view s) (moves s o))
    {s : σ} {os : List ι} (h0 : I s) (h : Meets step ok s os) :
    Meets part okPart (view s) (trace step moves s os) := by
  induction os generalizing s with
  | nil => trivial
  | cons o os ih =>
    rw [trace, meets_append, ← hview s o h0 h.1]
    exact ⟨hok s o h0 h.1, ih (hI s o h0 h.1) h.2⟩

end Part

theorem concat_eq_split {es pre post : List ι} {e x : ι} (h : es ++ [e] = pre ++ x :: post) :
    (post = [] ∧ es = pre ∧ e = x) ∨ ∃ post', post = post' ++ [e] ∧ es = pre ++ x :: post' := by
  rcases List.eq_nil_or_concat post with rfl | ⟨post', e', rfl⟩
  · obtain ⟨hes, hlast⟩ := List.append_inj' h rfl
    exact Or.inl ⟨rfl, hes, List.singleton_inj.mp hlast⟩
  · rw [List.concat_eq_append, ← List.cons_append, ← List.append_assoc] at h
    obtain ⟨hes, hlast⟩ := List.append_inj' h rfl
    rw [List.singleton_inj.mp hlast]
    exact Or.inr ⟨post', List.concat_eq_append, hes⟩

end TdxHq.Runs
