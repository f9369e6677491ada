import NikitaFirmware.Foundations.Bytes
import Mathlib.Data.List.GetD

/-!
# Arrays with checked accesses

An array is the list of its cells. Reading, writing and moving a run of cells give `none`
where an index lies outside the array, so that a function over arrays which has a result has
used no such index.
-/

namespace Foundations
open List
namespace Cells

variable {α : Type*} {cells src : List α} {offset n : Nat}

def read (cells : List α) (offset n : Nat) : Option (List α) :=
  if offset + n ≤ cells.length then some ((cells.drop offset).take n) else none

def write (cells : List α) (offset : Nat) (src : List α) : Option (List α) :=
  if offset + src.length ≤ cells.length then
    some (cells.take offset ++ src ++ cells.drop (offset + src.length))
  else none

/-- `memmove` within one array. -/
def move (cells : List α) (dst src n : Nat) : Option (List α) :=
  (read cells src n).bind (write cells dst)

theorem read_of_le (h : offset + n ≤ cells.length) :
    read cells offset n = some ((cells.drop offset).take n) := if_pos h

theorem write_of_le (h : offset + src.length ≤ cells.length) : write cells offset src =
      some (cells.take offset ++ src ++ cells.drop (offset + src.length)) := if_pos h

theorem write_eq_some {cells' : List α} :
    write cells offset src = some cells' ↔ offset + src.length ≤ cells.length ∧
      cells.take offset ++ src ++ cells.drop (offset + src.length) = cells' := by
  unfold write
  split
  · next hle => exact ⟨fun h => ⟨hle, Option.some.inj h⟩, fun h => congrArg some h.2⟩
  · next hgt => exact ⟨fun h => (nomatch h), fun h => absurd h.1 hgt⟩

theorem length_of_write {cells' : List α} (h : write cells offset src = some cells') :
    cells'.length = cells.length := by
  obtain ⟨hle, rfl⟩ := write_eq_some.mp h
  rw [length_append, length_append, length_take, length_drop]
  omega

theorem take_of_write {cells' : List α} (h : write cells offset src = some cells') :
    cells'.take offset = cells.take offset := by
  obtain ⟨hle, rfl⟩ := write_eq_some.mp h
  rw [append_assoc]
  refine take_left' ?_
  rw [length_take]
  omega

theorem drop_of_write {cells' : List α} (h : write cells offset src = some cells') :
    cells'.drop offset = src ++ cells.drop (offset + src.length) := by
  obtain ⟨hle, rfl⟩ := write_eq_some.mp h
  rw [append_assoc]
  refine drop_left' ?_
  rw [length_take]
  omega

theorem write_append (cells : List α) (offset : Nat) (a b : List α) : write cells offset (a ++ b) =
      (write cells offset a).bind fun cells => write cells (offset + a.length) b := by
  have hlen : (a ++ b).length = a.length + b.length := length_append
  by_cases ha : offset + a.length ≤ cells.length
  · have hcells := length_of_write (write_of_le ha)
    have hfront : (cells.take offset ++ a).length = offset + a.length := by
      rw [length_append, length_take]
      omega
    rw [write_of_le ha, Option.bind_some]
    by_cases hb : offset + a.length + b.length ≤ cells.length
    · have hshort : (cells.take offset ++ a).length ≤ offset + a.length + b.length := by omega
      have htail : (cells.take offset ++ a ++ cells.drop (offset + a.length)).drop
          (offset + a.length + b.length) = cells.drop (offset + (a ++ b).length) := by
        rw [drop_append, drop_of_length_le hshort, nil_append, drop_drop, hfront, hlen]
        congr 1
        omega
      rw [write_of_le (by omega), write_of_le (by omega), take_left' hfront, htail,
        ← append_assoc]
    · rw [write, if_neg (by omega), write, if_neg (by omega)]
  · rw [write, if_neg (by omega), write, if_neg ha, Option.bind_none]

theorem write_singleton (h : offset < cells.length) (c : α) :
    write cells offset [c] = some (cells.set offset c) := by
  rw [write_of_le h, set_eq_take_append_cons_drop, if_pos h, append_assoc, singleton_append]
  rfl

theorem write_cons (cells : List α) (offset : Nat) (c : α) (src : List α) :
    write cells offset (c :: src) =
      (write cells offset [c]).bind fun cells => write cells (offset + 1) src :=
  write_append cells offset [c] src

theorem exists_write (h : offset + src.length ≤ cells.length) :
    ∃ cells', write cells offset src = some cells' ∧ cells'.length = cells.length ∧
      cells'.take (offset + src.length) = cells.take offset ++ src := by
  refine ⟨_, write_of_le h, ?_, ?_⟩
  · rw [length_append, length_append, length_take, length_drop]
    omega
  · refine take_left' ?_
    rw [length_append, length_take]
    omega

theorem exists_move_zero (h : offset + n ≤ cells.length) :
    ∃ cells', move cells 0 offset n = some cells' ∧ cells'.length = cells.length ∧
      cells'.take n = (cells.drop offset).take n := by
  have hlen : ((cells.drop offset).take n).length = n := by
    rw [length_take, length_drop]
    omega
  obtain ⟨cells', hw, hl, ht⟩ := @exists_write _ cells ((cells.drop offset).take n) 0 (by omega)
  refine ⟨cells', ?_, hl, ?_⟩
  · rw [move, read_of_le h, Option.bind_some, hw]
  · simpa [hlen] using ht

end Cells

namespace Checked

inductive Fault
  | check
  | outside

abbrev Result := Except Fault

def check (p : Prop) [Decidable p] : Result Unit := if p then .ok () else .error .check

def access {α : Type} : Option α → Result α
  | some a => .ok a
  | none => .error .outside

variable {α β : Type} {cells src : List α} {offset n : Nat}

/-- There is no access outside an array, and the value has the property unless a check has failed. -/
def Ends (r : Result α) (post : α → Prop) : Prop :=
  match r with
  | .ok a => post a
  | .error .check => True
  | .error .outside => False

theorem ends_ok {a : α} {post : α → Prop} (h : post a) : Ends (.ok a) post := h

theorem ends_pure {a : α} {post : α → Prop} (h : post a) : Ends (pure a) post := h

theorem Ends.bind {r : Result α} {f : α → Result β} {mid : α → Prop} {post : β → Prop}
    (h : Ends r mid) (hf : ∀ a, mid a → Ends (f a) post) : Ends (r >>= f) post := by
  cases r with
  | ok a => exact hf a h
  | error e =>
    cases e with
    | check => trivial
    | outside => exact h

theorem Ends.mono {r : Result α} {mid post : α → Prop} (h : Ends r mid)
    (hpost : ∀ a, mid a → post a) : Ends r post := by
  cases r with
  | ok a => exact hpost a h
  | error e =>
    cases e with
    | check => trivial
    | outside => exact h

theorem ends_check_bind {p : Prop} [Decidable p] {f : Unit → Result β} {post : β → Prop}
    (h : p → Ends (f ()) post) : Ends (check p >>= f) post := by
  by_cases hp : p
  · rw [check, if_pos hp]
    exact h hp
  · rw [check, if_neg hp]
    trivial

theorem ends_access_bind {o : Option α} {a : α} {f : α → Result β} {post : β → Prop}
    (ho : o = some a) (h : Ends (f a) post) : Ends (access o >>= f) post := by
  subst ho
  exact h

theorem ends_access {o : Option α} {a : α} {post : α → Prop} (ho : o = some a) (h : post a) :
    Ends (access o) post := by
  subst ho
  exact h

theorem getElem?_eq_getD {bytes : Bytes} (h : n < bytes.length) :
    bytes[n]? = some (bytes.getD n 0) := by
  rw [List.getElem?_eq_getElem h, getD_eq_getElem _ _ h]

theorem access_get {bytes : Bytes} (h : n < bytes.length) :
    access bytes[n]? = .ok (bytes.getD n 0) := by
  rw [getElem?_eq_getD h]
  rfl

theorem access_write (h : offset < cells.length) (c : α) :
    access (Cells.write cells offset [c]) = .ok (cells.set offset c) := by
  rw [Cells.write_singleton h]
  rfl

theorem access_write_bind (h : offset < cells.length) (c : α) (f : List α → Result β) :
    (access (Cells.write cells offset [c]) >>= f) = f (cells.set offset c) := by
  rw [access_write h]
  rfl

end Checked
end Foundations
