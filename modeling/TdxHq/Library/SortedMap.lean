import Mathlib

namespace TdxHq

structure SortedMap (κ ν : Type) [LinearOrder κ] where
  entries : List (κ × ν)
  sorted : (entries.map Prod.fst).Pairwise (· < ·)

namespace SortedMap

variable {κ ν : Type} [LinearOrder κ]

theorem entries_injective :
    Function.Injective (SortedMap.entries : SortedMap κ ν → List (κ × ν)) := by
  rintro ⟨l, hl⟩ ⟨l', hl'⟩ rfl
  rfl

/-- Maps compare by their entry lists, entries by key and then by value. -/
instance [LinearOrder ν] : LinearOrder (SortedMap κ ν) :=
  LinearOrder.lift' (fun m => (m.entries.map toLex : List (κ ×ₗ ν)))
    (fun _ _ h => entries_injective (toLex.injective.list_map h))

def empty : SortedMap κ ν := ⟨[], List.Pairwise.nil⟩

def insertEntry (k : κ) (v : ν) : List (κ × ν) → List (κ × ν)
  | [] => [(k, v)]
  | e :: l => if k < e.1 then (k, v) :: e :: l
      else if e.1 < k then e :: insertEntry k v l else e :: l

theorem mem_insertEntry_fst {k a : κ} {v : ν} {l : List (κ × ν)}
    (h : a ∈ (insertEntry k v l).map Prod.fst) : a = k ∨ a ∈ l.map Prod.fst := by
  induction l with
  | nil => simpa [insertEntry] using h
  | cons e l ih =>
    unfold insertEntry at h
    split_ifs at h
    · simpa using h
    · simp only [List.map_cons, List.mem_cons] at h ⊢
      rcases h with h | h
      · exact Or.inr (Or.inl h)
      · exact (ih h).imp_right Or.inr
    · exact Or.inr h

theorem insertEntry_sorted (k : κ) (v : ν) {l : List (κ × ν)}
    (h : (l.map Prod.fst).Pairwise (· < ·)) :
    ((insertEntry k v l).map Prod.fst).Pairwise (· < ·) := by
  induction l with
  | nil => simp [insertEntry]
  | cons e l ih =>
    rw [List.map_cons, List.pairwise_cons] at h
    unfold insertEntry
    split_ifs with hlt hgt
    · simp only [List.map_cons, List.pairwise_cons, List.mem_cons]
      refine ⟨?_, h.1, h.2⟩
      rintro a (rfl | ha)
      · exact hlt
      · exact hlt.trans (h.1 a ha)
    · simp only [List.map_cons, List.pairwise_cons]
      refine ⟨?_, ih h.2⟩
      intro a ha
      rcases mem_insertEntry_fst ha with rfl | ha
      · exact hgt
      · exact h.1 a ha
    · simpa using h

def insert (m : SortedMap κ ν) (e : κ × ν) : SortedMap κ ν :=
  ⟨insertEntry e.1 e.2 m.entries, insertEntry_sorted e.1 e.2 m.sorted⟩

theorem insertEntry_above (k : κ) (v : ν) {l : List (κ × ν)}
    (h : ∀ a ∈ l.map Prod.fst, a < k) : insertEntry k v l = l ++ [(k, v)] := by
  induction l with
  | nil => rfl
  | cons e l ih =>
    have he : e.1 < k := h e.1 (by simp)
    unfold insertEntry
    rw [if_neg (lt_asymm he), if_pos he, ih (fun a ha => h a (by simp [ha]))]
    rfl

theorem foldl_insert_entries (l : List (κ × ν)) (m : SortedMap κ ν)
    (h : ((m.entries ++ l).map Prod.fst).Pairwise (· < ·)) :
    (l.foldl insert m).entries = m.entries ++ l := by
  induction l generalizing m with
  | nil => simp
  | cons e l ih =>
    have habove : ∀ a ∈ m.entries.map Prod.fst, a < e.1 := by
      intro a ha
      rw [List.map_append, List.pairwise_append] at h
      exact h.2.2 a ha e.1 (by simp)
    have hins : (insert m e).entries = m.entries ++ [e] := insertEntry_above e.1 e.2 habove
    rw [List.foldl_cons, ih (insert m e) (by simpa [hins] using h), hins]
    simp

theorem foldl_insert_empty (m : SortedMap κ ν) : m.entries.foldl insert empty = m := by
  apply entries_injective
  rw [foldl_insert_entries m.entries empty (by simpa [empty] using m.sorted)]
  rfl

def upsertEntry (k : κ) (f : Option ν → ν) : List (κ × ν) → List (κ × ν)
  | [] => [(k, f none)]
  | e :: l => if k < e.1 then (k, f none) :: e :: l
      else if e.1 < k then e :: upsertEntry k f l else (e.1, f (some e.2)) :: l

theorem upsertEntry_fst (k : κ) (f : Option ν → ν) (l : List (κ × ν)) :
    (upsertEntry k f l).map Prod.fst = (insertEntry k (f none) l).map Prod.fst := by
  induction l with
  | nil => rfl
  | cons e l ih =>
    rw [upsertEntry, insertEntry]
    split_ifs
    · rfl
    · rw [List.map_cons, List.map_cons, ih]
    · rfl

def upsert (m : SortedMap κ ν) (k : κ) (f : Option ν → ν) : SortedMap κ ν where
  entries := upsertEntry k f m.entries
  sorted := by
    rw [upsertEntry_fst]
    exact insertEntry_sorted k (f none) m.sorted

def lookupEntry (k : κ) : List (κ × ν) → Option ν
  | [] => none
  | e :: l => if e.1 = k then some e.2 else lookupEntry k l

def lookup (m : SortedMap κ ν) (k : κ) : Option ν := lookupEntry k m.entries

theorem lookupEntry_eq_none {k : κ} {l : List (κ × ν)} (h : k ∉ l.map Prod.fst) :
    lookupEntry k l = none := by
  induction l with
  | nil => rfl
  | cons e l ih =>
    rw [List.map_cons, List.mem_cons, not_or] at h
    rw [lookupEntry, if_neg (Ne.symm h.1)]
    exact ih h.2

theorem lookupEntry_of_mem {e : κ × ν} {l : List (κ × ν)}
    (h : (l.map Prod.fst).Pairwise (· < ·)) (he : e ∈ l) : lookupEntry e.1 l = some e.2 := by
  induction l with
  | nil => cases he
  | cons e' l ih =>
    rw [List.map_cons, List.pairwise_cons] at h
    rcases List.mem_cons.mp he with rfl | he
    · rw [lookupEntry, if_pos rfl]
    · have hlt : e'.1 < e.1 := h.1 e.1 (List.mem_map_of_mem he)
      rw [lookupEntry, if_neg hlt.ne]
      exact ih h.2 he

theorem mem_of_lookupEntry {k : κ} {v : ν} {l : List (κ × ν)} (h : lookupEntry k l = some v) :
    (k, v) ∈ l := by
  induction l with
  | nil => cases h
  | cons e l ih =>
    rw [lookupEntry] at h
    split_ifs at h with hk
    · obtain rfl := Option.some.inj h
      rw [← hk]
      exact List.mem_cons_self
    · exact List.mem_cons_of_mem _ (ih h)

theorem lookupEntry_upsertEntry (k a : κ) (f : Option ν → ν) {l : List (κ × ν)}
    (h : (l.map Prod.fst).Pairwise (· < ·)) :
    lookupEntry a (upsertEntry k f l) =
      if a = k then some (f (lookupEntry k l)) else lookupEntry a l := by
  induction l with
  | nil => simp only [upsertEntry, lookupEntry, eq_comm]
  | cons e l ih =>
    rw [List.map_cons, List.pairwise_cons] at h
    rcases lt_trichotomy k e.1 with hlt | heq | hgt
    -- `k` goes in front of all keys
    · have hnone : lookupEntry k (e :: l) = none := by
        apply lookupEntry_eq_none
        intro hmem
        rcases List.mem_cons.mp hmem with heq | hmem
        · exact hlt.ne heq
        · exact (hlt.trans (h.1 k hmem)).false
      rw [upsertEntry, if_pos hlt, hnone, lookupEntry]
      simp only [eq_comm]
    · rw [upsertEntry, if_neg (by simp [heq]), if_neg (by simp [heq]), lookupEntry, lookupEntry,
        lookupEntry, if_pos heq.symm, heq]
      by_cases ha : a = e.1
      · rw [if_pos ha.symm, if_pos ha]
      · rw [if_neg (Ne.symm ha), if_neg ha, if_neg (Ne.symm ha)]
    · rw [upsertEntry, if_neg hgt.asymm, if_pos hgt, lookupEntry, lookupEntry, lookupEntry,
        if_neg hgt.ne, ih h.2]
      by_cases hea : e.1 = a
      · rw [if_pos hea, if_pos hea, if_neg (hea ▸ hgt.ne)]
      · rw [if_neg hea, if_neg hea]

theorem lookup_upsert (m : SortedMap κ ν) (k a : κ) (f : Option ν → ν) :
    (m.upsert k f).lookup a = if a = k then some (f (m.lookup k)) else m.lookup a :=
  lookupEntry_upsertEntry k a f m.sorted

theorem lookup_of_mem (m : SortedMap κ ν) {e : κ × ν} (he : e ∈ m.entries) :
    m.lookup e.1 = some e.2 := lookupEntry_of_mem m.sorted he

theorem mem_of_lookup (m : SortedMap κ ν) {k : κ} {v : ν} (h : m.lookup k = some v) :
    (k, v) ∈ m.entries := mem_of_lookupEntry h

theorem nodup_keys (m : SortedMap κ ν) : (m.entries.map Prod.fst).Nodup :=
  m.sorted.imp fun h => h.ne

def collect {α : Type} (key : α → κ) (push : Option ν → α → ν) (as : List α) : SortedMap κ ν :=
  as.foldl (fun m a => m.upsert (key a) fun o => push o a) empty

/-- What is found under a key are the items of that key, in their order. -/
theorem lookup_collect {α : Type} (key : α → κ) (push : Option ν → α → ν) (as : List α) (k : κ) :
    (collect key push as).lookup k =
      (as.filter fun a => key a = k).foldl (fun o a => some (push o a)) none := by
  induction as using List.reverseRecOn with
  | nil => rfl
  | append_singleton as a ih =>
    rw [collect, List.foldl_append, List.foldl_cons, List.foldl_nil, lookup_upsert,
      List.filter_append, List.foldl_append]
    by_cases hk : key a = k
    · rw [if_pos hk.symm, hk, List.filter_cons_of_pos (by simpa using hk), ← ih]
      rfl
    · rw [if_neg (Ne.symm hk), List.filter_cons_of_neg (by simpa using hk), ← ih]
      rfl

theorem exists_of_mem_collect {α : Type} {key : α → κ} {push : Option ν → α → ν} {as : List α}
    {e : κ × ν} (he : e ∈ (collect key push as).entries) : ∃ a ∈ as, key a = e.1 := by
  have hlook := (collect key push as).lookup_of_mem he
  rw [lookup_collect] at hlook
  cases hfilter : as.filter fun a => key a = e.1 with
  | nil => rw [hfilter] at hlook; cases hlook
  | cons a l =>
    have ha : a ∈ as.filter fun a => key a = e.1 := by
      rw [hfilter]
      exact List.mem_cons_self
    rw [List.mem_filter, decide_eq_true_eq] at ha
    exact ⟨a, ha⟩

theorem upsertEntry_ne_nil (k : κ) (f : Option ν → ν) (l : List (κ × ν)) :
    upsertEntry k f l ≠ [] := by
  cases l with
  | nil => exact List.cons_ne_nil _ _
  | cons e l =>
    rw [upsertEntry]
    split_ifs <;> exact List.cons_ne_nil _ _

theorem collect_ne_nil {α : Type} (key : α → κ) (push : Option ν → α → ν) {as : List α}
    (h : as ≠ []) : (collect key push as).entries ≠ [] := by
  rcases List.eq_nil_or_concat as with rfl | ⟨as, a, rfl⟩
  · exact absurd rfl h
  · rw [collect, List.concat_eq_append, List.foldl_append]
    exact upsertEntry_ne_nil _ _ _

theorem filter_entries {l : List (κ × ν)} (h : (l.map Prod.fst).Pairwise (· < ·)) (k : κ) :
    l.filter (fun e => e.1 = k) = (lookupEntry k l).toList.map fun v => (k, v) := by
  induction l with
  | nil => rfl
  | cons e l ih =>
    rw [List.map_cons, List.pairwise_cons] at h
    by_cases hk : e.1 = k
    · have hnone : lookupEntry k l = none := by
        apply lookupEntry_eq_none
        intro hmem
        exact (h.1 k hmem).ne hk
      rw [List.filter_cons_of_pos (by simpa using hk), ih h.2, hnone, lookupEntry, if_pos hk, ← hk]
      rfl
    · rw [List.filter_cons_of_neg (by simpa using hk), ih h.2, lookupEntry, if_neg hk]

end SortedMap

end TdxHq
