import Mathlib.Data.List.DropRight
import Mathlib.Order.Lattice

/-!
# Insertion from the back

A list is searched from its end for the first element that may stay in front of the new one.
-/

namespace Foundations

open List
variable {α β : Type*} {x : α} {l : List α} {p : α → Bool}

/-- `x` is put behind the last element that does not satisfy `p`. -/
def backInsert (p : α → Bool) (x : α) (l : List α) : List α :=
  l.rdropWhile p ++ x :: l.rtakeWhile p

theorem backInsert_perm : (backInsert p x l).Perm (x :: l) := by
  refine perm_middle.trans (List.Perm.cons x ?_)
  rw [rdropWhile_append_rtakeWhile]

/-- A list that is sorted by a key stays so, where `p` says that the key is behind that of `x`. -/
theorem backInsert_pairwise [LinearOrder β] (key : α → β)
    (hp : ∀ y ∈ l, p y = true ↔ key x < key y) (h : l.Pairwise fun a b => key a ≤ key b) :
    (backInsert p x l).Pairwise fun a b => key a ≤ key b := by
  have hsplit := rdropWhile_append_rtakeWhile (p := p) (l := l)
  have hparts := pairwise_append.mp (hsplit.symm ▸ h)
  obtain ⟨hfront, hback, hcross⟩ := hparts
  -- what stays in front is not behind the last of it
  have hle : ∀ y ∈ l.rdropWhile p, key y ≤ key x := by
    intro y hy
    have hne : l.rdropWhile p ≠ [] := ne_nil_of_mem hy
    have hlast : ¬ key x < key ((l.rdropWhile p).getLast hne) := by
      rw [← hp _ ((List.rdropWhile_prefix p l).subset (getLast_mem hne))]
      exact rdropWhile_last_not p l hne
    refine le_trans ?_ (not_lt.mp hlast)
    rw [← dropLast_append_getLast hne] at hy hfront
    rcases mem_append.mp hy with hy | hy
    · exact (pairwise_append.mp hfront).2.2 y hy _ (mem_singleton_self _)
    · rw [mem_singleton.mp hy]
  have hgt : ∀ y ∈ l.rtakeWhile p, key x ≤ key y := by
    intro y hy
    exact le_of_lt ((hp y ((rtakeWhile_suffix p l).subset hy)).mp (mem_rtakeWhile_imp hy))
  refine pairwise_append.mpr ⟨hfront, pairwise_cons.mpr ⟨hgt, hback⟩, ?_⟩
  intro y hy z hz
  rcases mem_cons.mp hz with rfl | hz
  · exact hle y hy
  · exact (hle y hy).trans (hgt z hz)

end Foundations
