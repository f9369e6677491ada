import Mathlib.Data.List.Range

/-!
# Stores of blocks

A store has blocks under the numbers below its count, and each of them can be locked. A request is
carried out as a whole or refused, and a locked block stays as it is.
-/

namespace Foundations

structure BlockStore (β : Type*) where
  count : Nat
  block : Nat → β
  locked : Nat → Bool

namespace BlockStore

variable {β : Type*}

@[ext] theorem ext {m m' : BlockStore β} (hcount : m.count = m'.count)
    (hblock : ∀ i, m.block i = m'.block i) (hlocked : ∀ i, m.locked i = m'.locked i) : m = m' := by
  cases m
  cases m'
  obtain rfl := hcount
  obtain rfl := funext hblock
  obtain rfl := funext hlocked
  rfl

def write (m : BlockStore β) (first : Nat) (bs : List β) : BlockStore β :=
  { m with block := fun i => if first ≤ i then (bs[i - first]?).getD (m.block i) else m.block i }

def lock (m : BlockStore β) (i : Nat) : BlockStore β :=
  { m with locked := Function.update m.locked i true }

/-- What a store can be asked for; a range has a first block and a length. -/
inductive Request (β : Type*)
  | read (first n : Nat)
  | write (first : Nat) (bs : List β)
  | lock (i : Nat)
  | security (first n : Nat)
  deriving DecidableEq

inductive Answer (β : Type*)
  | blocks (bs : List β)
  | bits (locked : List Bool)
  | done

inductive Step (m : BlockStore β) : Request β → Answer β → BlockStore β → Prop
  | read {first n : Nat} (h : first + n ≤ m.count) :
      Step m (.read first n) (.blocks ((List.range' first n).map m.block)) m
  | write {first : Nat} {bs : List β} (h : first + bs.length ≤ m.count)
      (hfree : ∀ i, first ≤ i → i < first + bs.length → m.locked i = false) :
      Step m (.write first bs) .done (m.write first bs)
  | lock {i : Nat} (h : i < m.count) (hfree : m.locked i = false) : Step m (.lock i) .done (m.lock i)
  | security {first n : Nat} (h : first + n ≤ m.count) :
      Step m (.security first n) (.bits ((List.range' first n).map m.locked)) m

variable {m m' : BlockStore β} {r : Request β} {a : Answer β} {first i : Nat} {bs : List β}

theorem write_block_of_lt (h : i < first) : (m.write first bs).block i = m.block i :=
  if_neg (Nat.not_le.mpr h)

theorem write_block_of_le (h : first + bs.length ≤ i) : (m.write first bs).block i = m.block i := by
  change (if first ≤ i then _ else _) = _
  rw [if_pos (by omega), List.getElem?_eq_none (by omega)]
  rfl

theorem write_nil : m.write first [] = m := by
  apply BlockStore.ext
  · rfl
  · intro i
    rcases Nat.lt_or_ge i first with h | h
    · exact write_block_of_lt h
    · exact write_block_of_le h
  · intro i
    rfl

theorem write_cons (b : β) : m.write first (b :: bs) = (m.write first [b]).write (first + 1) bs := by
  apply BlockStore.ext
  · rfl
  · intro i
    rcases Nat.lt_trichotomy i first with h | h | h
    · rw [write_block_of_lt h, write_block_of_lt (by omega), write_block_of_lt h]
    · obtain rfl := h
      refine Eq.trans ?_ (write_block_of_lt (Nat.lt_succ_self i)).symm
      change (if i ≤ i then ((b :: bs)[i - i]?).getD (m.block i) else m.block i) =
        if i ≤ i then ([b][i - i]?).getD (m.block i) else m.block i
      rw [if_pos (Nat.le_refl i), if_pos (Nat.le_refl i), Nat.sub_self]
      rfl
    · have hsub : i - first = i - (first + 1) + 1 := by omega
      have hold : (m.write first [b]).block i = m.block i :=
        write_block_of_le (show first + 1 ≤ i from h)
      change (if first ≤ i then ((b :: bs)[i - first]?).getD _ else _) =
        if first + 1 ≤ i then (bs[i - (first + 1)]?).getD ((m.write first [b]).block i) else _
      rw [if_pos (by omega), if_pos (by omega), hsub, List.getElem?_cons_succ, hold]
  · intro i
    rfl

theorem Step.count (h : m.Step r a m') : m'.count = m.count := by
  cases h <;> rfl

theorem Step.locked (h : m.Step r a m') (hl : m.locked i = true) :
    m'.locked i = true ∧ m'.block i = m.block i := by
  cases h with
  | read => exact ⟨hl, rfl⟩
  | @write first bs hle hfree =>
    refine ⟨hl, ?_⟩
    by_cases hin : first ≤ i ∧ i < first + bs.length
    · exact absurd ((hfree i hin.1 hin.2).symm.trans hl) (by simp)
    · rcases Nat.lt_or_ge i first with hlt | hge
      · exact write_block_of_lt hlt
      · exact write_block_of_le (by omega)
  | @lock j hlt hfree =>
    refine ⟨?_, rfl⟩
    change Function.update m.locked j true i = true
    by_cases hij : i = j
    · rw [hij, Function.update_self]
    · rw [Function.update_of_ne hij, hl]
  | security => exact ⟨hl, rfl⟩

end BlockStore

end Foundations
