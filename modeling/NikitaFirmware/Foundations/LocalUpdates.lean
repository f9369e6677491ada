import Mathlib.Data.List.Pairwise
import Mathlib.Data.Set.BooleanAlgebra
import Mathlib.Order.CompletePartialOrder

/-!
# Local updates

An update of a memory that reads and writes some places only. Two updates of places that have none in
common commute, so that many of them can be done in any order.
-/

namespace Foundations

variable {α β ι : Type*}

/-- The update changes nothing outside of some places, and what it writes there depends on these
only. -/
structure LocalUpdate (places : Set α) (f : (α → β) → α → β) : Prop where
  outside : ∀ m x, x ∉ places → f m x = m x
  inside : ∀ m m', (∀ x ∈ places, m x = m' x) → ∀ x ∈ places, f m x = f m' x

namespace LocalUpdate
variable {S T : Set α} {f g : (α → β) → α → β}

theorem id (S : Set α) : LocalUpdate S (fun m : α → β => m) :=
  ⟨fun _ _ _ => rfl, fun _ _ h => h⟩

theorem apply_comp (hf : LocalUpdate S f) (hg : LocalUpdate T g) (h : Disjoint S T) (m : α → β)
    {x : α} (hx : x ∈ S) : f (g m) x = f m x := by
  refine hf.inside (g m) m (fun y hy => ?_) x hx
  exact hg.outside m y fun hyT => Set.disjoint_left.mp h hy hyT

theorem commute (hf : LocalUpdate S f) (hg : LocalUpdate T g) (h : Disjoint S T) (m : α → β) :
    f (g m) = g (f m) := by
  funext x
  by_cases hS : x ∈ S
  · have hT : x ∉ T := fun hT => Set.disjoint_left.mp h hS hT
    rw [hf.apply_comp hg h m hS, hg.outside (f m) x hT]
  · rw [hf.outside (g m) x hS]
    by_cases hT : x ∈ T
    · exact (hg.apply_comp hf h.symm m hT).symm
    · rw [hg.outside m x hT, hg.outside (f m) x hT, hf.outside m x hS]

theorem foldl_perm {places : ι → Set α} {update : (α → β) → ι → α → β}
    (hupdate : ∀ i, LocalUpdate (places i) fun m => update m i) {l l' : List ι} (hperm : l.Perm l')
    (hdisjoint : l.Pairwise fun i j => Disjoint (places i) (places j)) (m : α → β) :
    l.foldl update m = l'.foldl update m := by
  refine hperm.foldl_eq' (fun i hi j hj m => ?_) m
  by_cases hij : i = j
  · rw [hij]
  · have hsymm : Std.Symm fun i j => Disjoint (places i) (places j) := ⟨fun _ _ h => h.symm⟩
    have hapart := hdisjoint.forall hi hj hij
    exact (hupdate j).commute (hupdate i) hapart.symm m

end LocalUpdate
end Foundations
