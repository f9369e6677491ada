import Mathlib.Data.List.Basic

/-!
# The accesses of a run

A function reads runs of cells of one array and writes runs of cells of another one. A log of these
accesses says which cells it has touched, whatever stands in them and whether they belong to the
arrays or not.
-/

namespace Foundations

/-- A run of cells of the source that is read, or of the destination that is written. -/
inductive Access
  | read (offset size : Nat)
  | write (offset size : Nat)
  deriving DecidableEq

namespace Access

variable {readable writable offset size : Nat} {log log' : List Access} {access : Access}

/-- Every cell of the run is one of the first `readable` cells of the source, or one of the first
`writable` cells of the destination. -/
def Within (readable writable : Nat) : Access → Prop
  | .read offset size => ∀ i < size, offset + i < readable
  | .write offset size => ∀ i < size, offset + i < writable

theorem forall_lt_iff {bound : Nat} :
    (∀ i < size, offset + i < bound) ↔ size = 0 ∨ offset + size ≤ bound := by
  constructor
  · intro h
    by_cases hzero : size = 0
    · exact .inl hzero
    · have hlast := h (size - 1) (by omega)
      exact .inr (by omega)
  · rintro (rfl | hle) i hi
    · exact absurd hi (Nat.not_lt_zero i)
    · omega

theorem read_within_iff :
    (Access.read offset size).Within readable writable ↔ size = 0 ∨ offset + size ≤ readable :=
  forall_lt_iff

theorem write_within_iff :
    (Access.write offset size).Within readable writable ↔ size = 0 ∨ offset + size ≤ writable :=
  forall_lt_iff

theorem read_within (h : offset + size ≤ readable) :
    (Access.read offset size).Within readable writable := read_within_iff.mpr (.inr h)

theorem write_within (h : offset + size ≤ writable) :
    (Access.write offset size).Within readable writable := write_within_iff.mpr (.inr h)

def AllWithin (readable writable : Nat) (log : List Access) : Prop :=
  ∀ access ∈ log, access.Within readable writable

theorem allWithin_nil : AllWithin readable writable [] := fun _ h => absurd h List.not_mem_nil

theorem allWithin_cons : AllWithin readable writable (access :: log) ↔
      access.Within readable writable ∧ AllWithin readable writable log := List.forall_mem_cons

theorem allWithin_append : AllWithin readable writable (log ++ log') ↔
      AllWithin readable writable log ∧ AllWithin readable writable log' := List.forall_mem_append

theorem AllWithin.concat (h : AllWithin readable writable log)
    (haccess : access.Within readable writable) : AllWithin readable writable (log ++ [access]) :=
  allWithin_append.mpr ⟨h, allWithin_cons.mpr ⟨haccess, allWithin_nil⟩⟩

theorem AllWithin.of_append (h : AllWithin readable writable (log ++ log')) :
    AllWithin readable writable log := (allWithin_append.mp h).1

end Access
end Foundations
