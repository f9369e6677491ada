import Mathlib.Data.List.Basic

/-!
# Arrays of fixed size

An array keeps its size, so that a store into it has a result only when it stays inside.
-/

namespace Foundations

@[ext] structure FixedArray (α : Type*) (n : Nat) where
  cells : List α
  length_cells : cells.length = n
  deriving DecidableEq

namespace FixedArray

variable {α : Type*} {n offset : Nat} {src : List α}

def replicate (n : Nat) (a : α) : FixedArray α n := ⟨List.replicate n a, List.length_replicate⟩

/-- The array with a run of cells stored, which has to lie inside it. -/
def store (a : FixedArray α n) (offset : Nat) (src : List α) : Option (FixedArray α n) :=
  if h : offset + src.length ≤ n then
    some ⟨a.cells.take offset ++ src ++ a.cells.drop (offset + src.length), by
      have := a.length_cells
      simp only [List.length_append, List.length_take, List.length_drop]
      omega⟩
  else none

def modify (a : FixedArray α n) (i : Nat) (f : α → α) : Option (FixedArray α n) :=
  if i < n then some ⟨a.cells.modify i f, by rw [List.length_modify, a.length_cells]⟩ else none

theorem exists_store (a : FixedArray α n) (h : offset + src.length ≤ n) :
    ∃ a', a.store offset src = some a' := ⟨_, dif_pos h⟩

theorem exists_modify (a : FixedArray α n) {i : Nat} (h : i < n) (f : α → α) :
    ∃ a', a.modify i f = some a' := ⟨_, if_pos h⟩

end FixedArray
end Foundations
