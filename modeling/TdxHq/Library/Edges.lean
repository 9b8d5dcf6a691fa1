import Mathlib

namespace TdxHq.Edges

variable {τ κ ω : Type} [DecidableEq κ] (key : τ → κ)

/-- The readings that are reported, with the key of the last one before them. -/
def edges : κ → List τ → List τ
  | _, [] => []
  | k, t :: ts => if k ≠ key t then t :: edges (key t) ts else edges k ts

theorem edges_cons_of_eq {k : κ} {t : τ} (ts : List τ) (h : k = key t) :
    edges key k (t :: ts) = edges key (key t) ts := by
  rw [edges, if_neg (not_not.mpr h), h]

theorem edges_cons_of_ne {k : κ} {t : τ} (ts : List τ) (h : k ≠ key t) :
    edges key k (t :: ts) = t :: edges key (key t) ts := by
  rw [edges, if_pos h]

theorem edges_sublist (k : κ) (ts : List τ) : (edges key k ts).Sublist ts := by
  induction ts generalizing k with
  | nil => exact List.Sublist.slnil
  | cons t ts ih =>
    by_cases h : k = key t
    · rw [edges_cons_of_eq key ts h]
      exact (ih _).cons t
    · rw [edges_cons_of_ne key ts h]
      exact (ih _).cons_cons t

section Blocks

variable [LinearOrder ω] {block : τ → ω}

def InOrder (block : τ → ω) (ts : List τ) : Prop := ts.Pairwise fun a b => block a ≤ block b

/-- Every block but that of `a` is reported exactly once. -/
def Once (block : τ → ω) (a : τ) (ts : List τ) : Prop :=
  ∀ m, m ≠ block a → m ∈ ts.map block →
    (edges key (key a) ts).countP (fun t => block t = m) = 1

variable {key} (hkey : ∀ a b, block a = block b → key a = key b)
include hkey

theorem count_begun {a : τ} {ts : List τ} (hord : InOrder block (a :: ts)) :
    (edges key (key a) ts).countP (fun t => block t = block a) = 0 := by
  induction ts generalizing a with
  | nil => rfl
  | cons t ts ih =>
    have hts := (List.pairwise_cons.mp hord).2
    by_cases hblock : block t = block a
    · rw [edges_cons_of_eq key ts (hkey a t hblock.symm), ← hblock]
      exact ih hts
    · -- the block of `a` is over, and no later reading falls back into it
      have hle := (List.pairwise_cons.mp hord).1
      have hlt : block a < block t := lt_of_le_of_ne (hle t (by simp)) (Ne.symm hblock)
      rw [List.countP_eq_zero]
      intro u hu
      have hmem := (edges_sublist key (key a) (t :: ts)).subset hu
      have hge : block t ≤ block u := by
        rcases List.mem_cons.mp hmem with rfl | hmem
        · exact le_rfl
        · exact (List.pairwise_cons.mp hts).1 u hmem
      simpa using (hlt.trans_le hge).ne'

theorem once_cons_same {a t : τ} (ts : List τ) (hblock : block t = block a) :
    Once key block a (t :: ts) ↔ Once key block t ts := by
  have hedges : edges key (key a) (t :: ts) = edges key (key t) ts :=
    edges_cons_of_eq key ts (hkey a t hblock.symm)
  simp only [Once, hedges, hblock, List.map_cons, List.mem_cons]
  constructor
  · intro h m hm hmem
    exact h m hm (Or.inr hmem)
  · intro h m hm hmem
    exact h m hm (hmem.resolve_left hm)

theorem once_cons_next {a t : τ} {ts : List τ} (hord : InOrder block (a :: t :: ts))
    (hblock : block t ≠ block a) :
    Once key block a (t :: ts) ↔ key a ≠ key t ∧ Once key block t ts := by
  have hts := (List.pairwise_cons.mp hord).2
  have hzero := count_begun hkey hts
  by_cases hsame : key a = key t
  · -- the block of `t` is passed over
    have hmissed : ¬ Once key block a (t :: ts) := by
      intro h
      have h1 := h (block t) hblock (by simp)
      rw [edges_cons_of_eq key ts hsame, hzero] at h1
      exact zero_ne_one h1
    simp [hmissed, hsame]
  · have hlt : block a < block t :=
      lt_of_le_of_ne ((List.pairwise_cons.mp hord).1 t (by simp)) (Ne.symm hblock)
    have hpast : block a ∉ ts.map block := by
      intro hmem
      obtain ⟨u, hu, hub⟩ := List.mem_map.mp hmem
      have hge := (List.pairwise_cons.mp hts).1 u hu
      exact (hlt.trans_le hge).ne' hub
    simp only [Once, edges_cons_of_ne key ts hsame, List.map_cons, List.mem_cons, ne_eq, hsame,
      not_false_eq_true, true_and]
    constructor
    · intro h m hm hmem
      have hma : m ≠ block a := fun he => hpast (he ▸ hmem)
      have h1 := h m hma (Or.inr hmem)
      rwa [List.countP_cons_of_neg (by simpa using Ne.symm hm)] at h1
    · intro h m hma hmem
      by_cases hm : m = block t
      · rw [hm, List.countP_cons_of_pos (by simp), hzero]
      · rw [List.countP_cons_of_neg (by simpa using Ne.symm hm)]
        exact h m hm (hmem.resolve_left hm)

/-- Every block but the first is reported exactly once, if and only if no two blocks that
follow each other have one key. -/
theorem once_iff {a : τ} {ts : List τ} (hord : InOrder block (a :: ts)) :
    Once key block a ts ↔ (a :: ts).IsChain fun t u => key t = key u → block t = block u := by
  induction ts generalizing a with
  | nil => simp [Once]
  | cons t ts ih =>
    have hts := ih (List.pairwise_cons.mp hord).2
    rw [List.isChain_cons_cons, ← hts]
    by_cases hblock : block t = block a
    · rw [once_cons_same hkey ts hblock]
      simp [hblock]
    · rw [once_cons_next hkey hord hblock]
      simp [Ne.symm hblock]

end Blocks

end TdxHq.Edges
