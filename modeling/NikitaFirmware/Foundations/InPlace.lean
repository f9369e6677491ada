import Mathlib.Data.List.Perm.Basic
import Mathlib.Data.List.Flatten

/-!
# Expanding the head of a buffer in place

Every entry of the head of a buffer is replaced by up to two others while the head is scanned. An
entry with two makes room by moving the one behind it to the end of the head, and an entry with none
is filled with the last one. What is left in the head are the new entries of all, in some order.
-/

namespace Foundations.InPlace

open List Option
variable {α : Type*}

/-- What an entry is replaced by. -/
inductive Children (α : Type*) where
  | none
  | one (x : α)
  | two (x y : α)

def Children.toList : Children α → List α
  | none => []
  | one x => [x]
  | two x y => [x, y]

/-- The scan from entry `s` on, over a head of `count` entries. An access outside the buffer has no
result. -/
def expand (children : α → Children α) (buffer : List α) (s count : Nat) : Option (List α × Nat) :=
  if _h : s < count then
    (buffer[s]?).bind fun raw =>
      match children raw with
      | .one x => expand children (buffer.set s x) (s + 1) count
      | .two x y => (buffer[s + 1]?).bind fun displaced =>
        if count < buffer.length then
          expand children (((buffer.set count displaced).set s x).set (s + 1) y) (s + 2) (count + 1)
        else Option.none
      | .none => (buffer[count - 1]?).bind fun last =>
        expand children (buffer.set s last) s (count - 1)
  else some (buffer, count)
  termination_by count - s

variable {children : α → Children α} {raw : α} {before todo rest : List α}

theorem expand_done : expand children (before ++ rest) before.length before.length =
    some (before ++ rest, before.length) := by
  rw [expand, dif_neg (Nat.lt_irrefl _)]

theorem getElem?_raw (tail : List α) : (before ++ raw :: tail)[before.length]? = some raw := by
  simp

theorem lt_head : before.length < (before ++ raw :: todo).length := by simp

theorem expand_one {x : α} (h : children raw = .one x) :
    expand children (before ++ raw :: (todo ++ rest)) before.length (before ++ raw :: todo).length =
      expand children (before ++ [x] ++ (todo ++ rest)) (before ++ [x]).length
        (before ++ [x] ++ todo).length := by
  rw [expand, dif_pos lt_head, getElem?_raw, bind_some, h]
  simp

theorem expand_none (h : children raw = .none) {last : α} :
    expand children (before ++ raw :: (todo ++ last :: rest)) before.length
        (before ++ raw :: (todo ++ [last])).length =
      expand children (before ++ last :: (todo ++ last :: rest)) before.length
        (before ++ last :: todo).length := by
  rw [expand, dif_pos lt_head, getElem?_raw, bind_some, h]
  have hlast : (before ++ raw :: (todo ++ last :: rest))[
      (before ++ raw :: (todo ++ [last])).length - 1]? = some last := by
    rw [List.getElem?_append_right (by simp)]
    simp
  simp only [hlast, bind_some]
  simp

theorem expand_none_last (h : children raw = .none) :
    expand children (before ++ raw :: rest) before.length (before ++ [raw]).length =
      some (before ++ raw :: rest, before.length) := by
  rw [expand, dif_pos (by simp), getElem?_raw, bind_some, h]
  simp [expand]

theorem expand_two {x y displaced free : α} (h : children raw = .two x y) :
    expand children (before ++ raw :: displaced :: (todo ++ free :: rest)) before.length
        (before ++ raw :: displaced :: todo).length =
      expand children (before ++ [x, y] ++ (todo ++ displaced :: rest)) (before ++ [x, y]).length
        (before ++ [x, y] ++ (todo ++ [displaced])).length := by
  have hnext : (before ++ raw :: displaced :: (todo ++ free :: rest))[before.length + 1]? =
      some displaced := by
    rw [List.getElem?_append_right (Nat.le_succ _)]
    simp
  rw [expand, dif_pos lt_head, getElem?_raw, bind_some, h]
  simp only [hnext, bind_some]
  simp [Nat.add_assoc]

theorem expand_two_last {x y free : α} (h : children raw = .two x y) :
    expand children (before ++ raw :: free :: rest) before.length (before ++ [raw]).length =
      expand children (before ++ [x, y] ++ rest) (before ++ [x, y]).length
        (before ++ [x, y]).length := by
  rw [expand, dif_pos (by simp), getElem?_raw, bind_some, h]
  simp

theorem expand_two_full {x y : α} (h : children raw = .two x y) :
    expand children (before ++ raw :: todo) before.length (before ++ raw :: todo).length =
      none := by
  rw [expand, dif_pos lt_head, getElem?_raw, bind_some, h]
  cases todo <;> simp

/-- What a scan leaves: the head holds the children of what was still to be scanned. -/
structure Expanded (children : α → Children α) (before todo rest : List α)
    (result : List α × Nat) : Prop where
  perm : (result.1.take result.2).Perm (before ++ todo.flatMap fun x => (children x).toList)
  length : result.1.length = before.length + (todo.length + rest.length)
  count : result.2 ≤ result.1.length

theorem Expanded.done : Expanded children before [] rest (before ++ rest, before.length) where
  perm := by simp
  length := by simp
  count := by simp

/-- A scan that stays in the buffer expands the head, and it does so with as many free entries as
there are to be scanned. -/
theorem expand_spec (before todo rest : List α) :
    (∀ result, expand children (before ++ (todo ++ rest)) before.length (before ++ todo).length =
      some result → Expanded children before todo rest result) ∧
    (todo.length ≤ rest.length →
      (expand children (before ++ (todo ++ rest)) before.length (before ++ todo).length).isSome) := by
  obtain ⟨n, hn⟩ : ∃ n, todo.length = n := ⟨_, rfl⟩
  induction n generalizing before todo rest with
  | zero =>
    obtain rfl := length_eq_zero_iff.mp hn
    simp only [nil_append, append_nil, expand_done]
    exact ⟨fun result h => some.inj h ▸ .done, fun _ => rfl⟩
  | succ n ih =>
    obtain ⟨raw, todo, rfl⟩ := exists_cons_of_length_eq_add_one hn
    have hlen : todo.length = n := Nat.succ.inj hn
    cases h : children raw with
    | one x =>
      obtain ⟨hspec, hroom⟩ := ih (before ++ [x]) todo rest hlen
      rw [cons_append, expand_one h]
      refine ⟨fun result hrun => ?_, fun hle => hroom (Nat.le_of_succ_le hle)⟩
      obtain ⟨hperm, hlength, hcount⟩ := hspec result hrun
      refine ⟨?_, ?_, hcount⟩
      · simpa [h, Children.toList] using hperm
      · simp at hlength ⊢
        omega
    | none =>
      obtain rfl | ⟨todo, last, rfl⟩ := eq_nil_or_concat' todo
      · rw [cons_append, nil_append, expand_none_last h]
        refine ⟨fun result hrun => ?_, fun _ => rfl⟩
        obtain rfl := some.inj hrun
        exact ⟨by simp [h, Children.toList], by simp; omega, by simp⟩
      · -- the last entry is scanned in place of the one that goes
        obtain ⟨hspec, hroom⟩ := ih before (last :: todo) (last :: rest) (by simpa using hlen)
        rw [cons_append, append_assoc, singleton_append, expand_none h]
        refine ⟨fun result hrun => ?_, fun hle => hroom ?_⟩
        · obtain ⟨hperm, hlength, hcount⟩ := hspec result hrun
          refine ⟨hperm.trans (.append_left before ?_), ?_, hcount⟩
          · simp only [flatMap_cons, flatMap_append, h, Children.toList, nil_append,
              flatMap_nil, append_nil]
            exact perm_append_comm
          · simp at hlength ⊢
            omega
        · simp at hle ⊢
          omega
    | two x y =>
      cases rest with
      | nil =>
        rw [append_nil, expand_two_full h]
        exact ⟨fun result hrun => (by cases hrun), fun hle => absurd hle (by simp)⟩
      | cons free rest =>
        cases todo with
        | nil =>
          rw [singleton_append, expand_two_last h, expand_done]
          refine ⟨fun result hrun => ?_, fun _ => rfl⟩
          obtain rfl := some.inj hrun
          refine ⟨?_, by simp; omega, by simp⟩
          rw [take_left]
          simp [h, Children.toList]
        | cons displaced todo =>
          -- the second child displaces the next entry, which moves to the end
          obtain ⟨hspec, hroom⟩ := ih (before ++ [x, y]) (todo ++ [displaced]) rest
            (by simpa using hlen)
          rw [append_assoc todo, singleton_append] at hspec hroom
          rw [cons_append, cons_append, expand_two h]
          refine ⟨fun result hrun => ?_, fun hle => hroom (by simp at hle ⊢; omega)⟩
          obtain ⟨hperm, hlength, hcount⟩ := hspec result hrun
          refine ⟨hperm.trans ?_, ?_, hcount⟩
          · rw [append_assoc]
            refine .append_left before ?_
            simp only [flatMap_cons, flatMap_append, h, Children.toList, flatMap_nil, append_nil]
            exact perm_append_comm.append_left [x, y]
          · simp at hlength ⊢
            omega

end Foundations.InPlace
