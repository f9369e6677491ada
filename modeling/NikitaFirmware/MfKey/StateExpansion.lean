import NikitaFirmware.Foundations.InPlace
import Mathlib.Tactic.IntervalCases

/-!
# State expansion of the MFKey attack

`state_loop_r4` takes the candidate states of one half of the cipher through the rounds 4 to 12. A
round shifts each state left, keeps the extensions whose filter output is the keystream bit, and
from round 5 on keeps the contribution of the state in its top byte.
-/

namespace NikitaFirmware.MfKey

open Foundations.InPlace List BitVec

def lookup1 : List UInt8 := [
  0, 0, 16, 16, 0, 16, 0, 0, 0, 16, 0, 0, 16, 16, 16, 16, 0, 0, 16, 16, 0, 16, 0, 0, 0, 16, 0, 0,
  16, 16, 16, 16, 0, 0, 16, 16, 0, 16, 0, 0, 0, 16, 0, 0, 16, 16, 16, 16, 8, 8, 24, 24, 8, 24, 8,
  8, 8, 24, 8, 8, 24, 24, 24, 24, 8, 8, 24, 24, 8, 24, 8, 8, 8, 24, 8, 8, 24, 24, 24, 24, 8, 8, 24,
  24, 8, 24, 8, 8, 8, 24, 8, 8, 24, 24, 24, 24, 0, 0, 16, 16, 0, 16, 0, 0, 0, 16, 0, 0, 16, 16, 16,
  16, 0, 0, 16, 16, 0, 16, 0, 0, 0, 16, 0, 0, 16, 16, 16, 16, 8, 8, 24, 24, 8, 24, 8, 8, 8, 24, 8,
  8, 24, 24, 24, 24, 0, 0, 16, 16, 0, 16, 0, 0, 0, 16, 0, 0, 16, 16, 16, 16, 0, 0, 16, 16, 0, 16,
  0, 0, 0, 16, 0, 0, 16, 16, 16, 16, 8, 8, 24, 24, 8, 24, 8, 8, 8, 24, 8, 8, 24, 24, 24, 24, 8, 8,
  24, 24, 8, 24, 8, 8, 8, 24, 8, 8, 24, 24, 24, 24, 0, 0, 16, 16, 0, 16, 0, 0, 0, 16, 0, 0, 16, 16,
  16, 16, 8, 8, 24, 24, 8, 24, 8, 8, 8, 24, 8, 8, 24, 24, 24, 24, 8, 8, 24, 24, 8, 24, 8, 8, 8, 24,
  8, 8, 24, 24, 24, 24]

def lookup2 : List UInt8 := [
  0, 0, 4, 4, 0, 4, 0, 0, 0, 4, 0, 0, 4, 4, 4, 4, 0, 0, 4, 4, 0, 4, 0, 0, 0, 4, 0, 0, 4, 4, 4, 4,
  2, 2, 6, 6, 2, 6, 2, 2, 2, 6, 2, 2, 6, 6, 6, 6, 2, 2, 6, 6, 2, 6, 2, 2, 2, 6, 2, 2, 6, 6, 6, 6,
  0, 0, 4, 4, 0, 4, 0, 0, 0, 4, 0, 0, 4, 4, 4, 4, 2, 2, 6, 6, 2, 6, 2, 2, 2, 6, 2, 2, 6, 6, 6, 6,
  0, 0, 4, 4, 0, 4, 0, 0, 0, 4, 0, 0, 4, 4, 4, 4, 0, 0, 4, 4, 0, 4, 0, 0, 0, 4, 0, 0, 4, 4, 4, 4,
  0, 0, 4, 4, 0, 4, 0, 0, 0, 4, 0, 0, 4, 4, 4, 4, 2, 2, 6, 6, 2, 6, 2, 2, 2, 6, 2, 2, 6, 6, 6, 6,
  0, 0, 4, 4, 0, 4, 0, 0, 0, 4, 0, 0, 4, 4, 4, 4, 0, 0, 4, 4, 0, 4, 0, 0, 0, 4, 0, 0, 4, 4, 4, 4,
  2, 2, 6, 6, 2, 6, 2, 2, 2, 6, 2, 2, 6, 6, 6, 6, 2, 2, 6, 6, 2, 6, 2, 2, 2, 6, 2, 2, 6, 6, 6, 6,
  2, 2, 6, 6, 2, 6, 2, 2, 2, 6, 2, 2, 6, 6, 6, 6, 2, 2, 6, 6, 2, 6, 2, 2, 2, 6, 2, 2, 6, 6, 6, 6]

def bit (x n : UInt32) : UInt32 := (x >>> n) &&& 1

def filterConst : UInt32 := 0xEC57E80A

def filterIndex (lo v : UInt32) : UInt32 :=
  (lookup1.getD lo.toNat 0).toUInt32 ||| ((lookup2.getD ((v >>> 8) &&& 0xff).toNat 0).toUInt32 |||
      (((0x0d938 : UInt32) >>> ((v >>> 16) &&& 0xf)) &&& 1))

def filter (x : UInt32) : UInt32 := bit filterConst (filterIndex (x &&& 0xff) x)

def filterPairXor (v adjFilter : UInt32) : UInt32 × UInt32 :=
  (bit adjFilter (filterIndex (v &&& 0xff) v), bit adjFilter (filterIndex ((v &&& 0xff) ||| 1) v))

def evenparity32 (x : UInt32) : UInt32 :=
  let x := x ^^^ (x >>> 16)
  let x := x ^^^ (x >>> 8)
  let x := x ^^^ (x >>> 4)
  let x := x ^^^ (x >>> 2)
  let x := x ^^^ (x >>> 1)
  x &&& 1

/-- `update_contribution`, and `update_contribution_reg` of a state in a register. -/
def updateContribution (v mask1 mask2 : UInt32) : UInt32 :=
  let p := v >>> 25
  let p := (p <<< 1) ||| evenparity32 (v &&& mask1)
  let p := (p <<< 1) ||| evenparity32 (v &&& mask2)
  (p <<< 24) ||| (v &&& 0xffffff)

def adjFilter (xks round : UInt32) : UInt32 := filterConst ^^^ (0 - bit xks round)

/-- What a round does with a state: `finish` is what becomes of an extension, and `fork` makes the
second one of that of the first. -/
def children (adj : UInt32) (finish fork : UInt32 → UInt32) (raw : UInt32) : Children UInt32 :=
  let v := raw <<< 1
  let f := filterPairXor v adj
  if f.1 ^^^ f.2 ≠ 0 then .one (finish (v ||| f.1))
  else if f.1 = 0 then .two (finish v) (fork (finish v))
  else .none

structure Params where
  xks : UInt32
  m1 : UInt32
  m2 : UInt32
  input : UInt32
  andVal : UInt32

namespace Params

def forkDelta (p : Params) : UInt32 := ((p.m1 &&& 1) <<< 25) ||| ((p.m2 &&& 1) <<< 24) ||| 1

def roundIn (p : Params) (round : UInt32) : UInt32 :=
  ((p.input >>> (2 * (round - 4))) &&& p.andVal) <<< 24

/-- The two kinds of rounds: round 4 leaves the contributions. -/
def childrenOf (p : Params) (round : UInt32) : UInt32 → Children UInt32 :=
  if round = 4 then children (adjFilter p.xks 4) id (· ||| 1)
  else children (adjFilter p.xks round)
    (fun v => updateContribution v p.m1 p.m2 ^^^ p.roundIn round) (· ^^^ p.forkDelta)

/-- The rounds from one on, up to the first that leaves no state. -/
def rounds (p : Params) : List UInt32 → List UInt32 → Nat → Option (Int × List UInt32)
  | [], buffer, count => some (count - 1, buffer)
  | round :: later, buffer, count =>
    (expand (p.childrenOf round) buffer 0 count).bind fun next =>
      if next.2 = 0 then some (-1, next.1) else p.rounds later next.1 next.2

end Params

def roundNumbers : List UInt32 := [4, 5, 6, 7, 8, 9, 10, 11, 12]

def stateLoopR4 (p : Params) (buffer : List UInt32) (count : Nat) : Option (Int × List UInt32) :=
  if count = 0 then some (-1, buffer) else p.rounds roundNumbers buffer count

/-- The extensions of a state by one bit on the left shift. -/
def extensions (raw : UInt32) : List UInt32 := [raw <<< 1, (raw <<< 1) ||| 1]

def enumerateRound (p : Params) (states : List UInt32) (round : UInt32) : List UInt32 :=
  let kept := (states.flatMap extensions).filter fun v => filter v = bit p.xks round
  if round = 4 then kept
  else kept.map fun v => updateContribution v p.m1 p.m2 ^^^ p.roundIn round

def enumerate (p : Params) (states : List UInt32) : List UInt32 :=
  roundNumbers.foldl (enumerateRound p) states

section Bits
variable {x y v : UInt32}

theorem and_one_cases (x : UInt32) : x &&& 1 = 0 ∨ x &&& 1 = 1 := by
  have hlt : (x &&& 1).toNat < 2 := by
    rw [UInt32.toNat_and]
    exact Nat.and_lt_two_pow _ (by decide : 1 < 2 ^ 1)
  rw [← UInt32.toNat_inj, ← UInt32.toNat_inj]
  simp only [UInt32.toNat_zero, UInt32.toNat_one]
  omega

theorem or_eq_xor (h : x &&& y = 0) : x ||| y = x ^^^ y := by
  apply UInt32.eq_of_toBitVec_eq
  apply eq_of_getLsbD_eq
  intro i hi
  have hbit := congrArg (fun z : UInt32 => z.toBitVec.getLsbD i) h
  simp at hbit ⊢
  cases hx : x.toBitVec[i] <;> cases hy : y.toBitVec[i] <;> simp_all

theorem xor_and (x y z : UInt32) : (x ^^^ y) &&& z = (x &&& z) ^^^ (y &&& z) := by
  apply UInt32.eq_of_toBitVec_eq
  apply eq_of_getLsbD_eq
  intro i hi
  simp [Bool.and_xor_distrib_right]

theorem shl_one_and_one (x : UInt32) : (x <<< 1) &&& 1 = 0 := by
  apply UInt32.eq_of_toBitVec_eq
  apply eq_of_getLsbD_eq
  intro i hi
  interval_cases i <;> simp

theorem shl_or_bit (x : UInt32) (h : y = 0 ∨ y = 1) : (x <<< 1) ||| y = (x <<< 1) ^^^ y := by
  obtain rfl | rfl := h
  · simp
  · exact or_eq_xor (shl_one_and_one x)

theorem evenparity32_cases (x : UInt32) : evenparity32 x = 0 ∨ evenparity32 x = 1 :=
  and_one_cases _

theorem evenparity32_xor (x y : UInt32) :
    evenparity32 (x ^^^ y) = evenparity32 x ^^^ evenparity32 y := by
  have hfold : ∀ n a b : UInt32,
      (a ^^^ b) ^^^ ((a ^^^ b) >>> n) = (a ^^^ (a >>> n)) ^^^ (b ^^^ (b >>> n)) := by
    intro n a b
    rw [UInt32.shiftRight_xor]
    ac_rfl
  simp only [evenparity32, hfold]
  rw [xor_and]

theorem evenparity32_and_one (x : UInt32) : evenparity32 (x &&& 1) = x &&& 1 := by
  obtain h | h := and_one_cases x <;> rw [h] <;> decide

theorem updateContribution_or_one (raw m1 m2 : UInt32) :
    updateContribution ((raw <<< 1) ||| 1) m1 m2 = updateContribution (raw <<< 1) m1 m2 ^^^
      (((m1 &&& 1) <<< 25) ||| ((m2 &&& 1) <<< 24) ||| 1) := by
  have hparity : ∀ m : UInt32, evenparity32 (((raw <<< 1) ^^^ 1) &&& m) =
      evenparity32 ((raw <<< 1) &&& m) ^^^ (m &&& 1) := by
    intro m
    rw [xor_and, UInt32.and_comm 1 m, evenparity32_xor, evenparity32_and_one]
  have hhigh : ((raw <<< 1) ^^^ 1) >>> 25 = (raw <<< 1) >>> 25 := by
    rw [UInt32.shiftRight_xor]
    exact UInt32.xor_zero
  have hlow : ∀ p v : UInt32, (p <<< 24) &&& (v &&& 0xffffff) = 0 := by
    intro p v
    apply UInt32.eq_of_toBitVec_eq
    apply eq_of_getLsbD_eq
    intro i hi
    interval_cases i <;> simp
  have hdelta : (((m1 &&& 1) <<< 25) ||| ((m2 &&& 1) <<< 24) ||| 1 : UInt32) =
      ((m1 &&& 1) <<< 25) ^^^ ((m2 &&& 1) <<< 24) ^^^ 1 := by
    obtain h | h := and_one_cases m1 <;> obtain h' | h' := and_one_cases m2 <;> rw [h, h'] <;> decide
  rw [hdelta, shl_or_bit raw (.inr rfl)]
  have hxor : ∀ w : UInt32, updateContribution w m1 m2 =
      ((((w >>> 25) <<< 1 ^^^ evenparity32 (w &&& m1)) <<< 1 ^^^ evenparity32 (w &&& m2)) <<< 24) ^^^
        (w &&& 0xffffff) := by
    intro w
    rw [updateContribution, or_eq_xor (hlow _ _), shl_or_bit _ (evenparity32_cases _),
      shl_or_bit _ (evenparity32_cases _)]
  have hone : (1 : UInt32) &&& 0xffffff = 1 := by decide
  have hshift : (m1 &&& 1) <<< 25 = ((m1 &&& 1) <<< 1) <<< 24 := by
    rw [show (25 : UInt32) = 1 + 24 by decide, UInt32.shiftLeft_add_of_toNat_lt (by decide)]
  rw [hxor, hxor, hhigh, hparity, hparity, xor_and, hone, hshift]
  generalize ((raw <<< 1) >>> 25) <<< 1 = hi, evenparity32 ((raw <<< 1) &&& m1) = a,
    evenparity32 ((raw <<< 1) &&& m2) = b, (raw <<< 1) &&& 0xffffff = low, m1 &&& 1 = a',
    m2 &&& 1 = b'
  rw [← UInt32.xor_assoc hi a a', @UInt32.shiftLeft_xor (hi ^^^ a) a' 1,
    show ((hi ^^^ a) <<< 1 ^^^ a' <<< 1) ^^^ (b ^^^ b') =
      ((hi ^^^ a) <<< 1 ^^^ b) ^^^ (a' <<< 1 ^^^ b') by ac_rfl,
    @UInt32.shiftLeft_xor _ (a' <<< 1 ^^^ b') 24, @UInt32.shiftLeft_xor _ b' 24]
  generalize ((hi ^^^ a) <<< 1 ^^^ b) <<< 24 = p, (a' <<< 1) <<< 24 = q, b' <<< 24 = r
  rw [UInt32.xor_assoc, UInt32.xor_assoc p low, ← UInt32.xor_assoc _ low, UInt32.xor_comm _ low,
    UInt32.xor_assoc low]

theorem bit_cases (x n : UInt32) : bit x n = 0 ∨ bit x n = 1 := and_one_cases _

theorem bit_adjFilter (xks round n : UInt32) :
    bit (adjFilter xks round) n = bit filterConst n ^^^ bit xks round := by
  have hones : (0 - 1 : UInt32).toBitVec = allOnes 32 := by decide
  have hlt : n.toNat % 32 < 32 := Nat.mod_lt _ (by decide)
  have hall : ((0 - 1 : UInt32) >>> n) &&& 1 = 1 := by
    apply UInt32.eq_of_toBitVec_eq
    apply eq_of_getLsbD_eq
    intro i hi
    rw [UInt32.toBitVec_and, UInt32.toBitVec_shiftRight, hones]
    simp only [getLsbD_and, ushiftRight_eq', getLsbD_ushiftRight, getLsbD_allOnes]
    cases i with
    | zero => simp [hlt]
    | succ i => simp
  rw [bit, adjFilter, UInt32.shiftRight_xor, xor_and, ← bit]
  obtain h | h := bit_cases xks round
  · simp [h]
  · rw [h, hall]

theorem or_one_shr (v n : UInt32) (h : (1 : UInt32) >>> n = 0) : (v ||| 1) >>> n = v >>> n := by
  rw [UInt32.shiftRight_or, h, UInt32.or_zero]

theorem or_one_and (v : UInt32) : (v ||| 1) &&& 0xff = (v &&& 0xff) ||| 1 := by
  apply UInt32.eq_of_toBitVec_eq
  apply eq_of_getLsbD_eq
  intro i hi
  interval_cases i <;> simp

theorem filterPairXor_eq (v xks round : UInt32) : filterPairXor v (adjFilter xks round) =
      (filter v ^^^ bit xks round, filter (v ||| 1) ^^^ bit xks round) := by
  have hindex : filterIndex ((v &&& 0xff) ||| 1) (v ||| 1) = filterIndex ((v &&& 0xff) ||| 1) v := by
    rw [filterIndex, or_one_shr v 8 (by decide), or_one_shr v 16 (by decide), filterIndex]
  rw [filterPairXor, bit_adjFilter, bit_adjFilter, filter, filter, or_one_and, hindex]

end Bits

variable {p : Params} {states states' buffer rest : List UInt32} {round : UInt32}

theorem children_toList {finish fork : UInt32 → UInt32} {raw : UInt32} (xks : UInt32)
    (hfork : fork (finish (raw <<< 1)) = finish ((raw <<< 1) ||| 1)) :
    (children (adjFilter xks round) finish fork raw).toList =
      ((extensions raw).filter fun v => filter v = bit xks round).map finish := by
  unfold children extensions
  simp only [filterPairXor_eq]
  obtain h₀ | h₀ := bit_cases filterConst (filterIndex ((raw <<< 1) &&& 0xff) (raw <<< 1)) <;>
  obtain h₁ | h₁ := bit_cases filterConst
    (filterIndex (((raw <<< 1) ||| 1) &&& 0xff) ((raw <<< 1) ||| 1)) <;>
  obtain h | h := bit_cases xks round <;>
  simp [filter, h₀, h₁, h, hfork, Children.toList]

theorem childrenOf_toList (p : Params) (round raw : UInt32) :
    (p.childrenOf round raw).toList = enumerateRound p [raw] round := by
  unfold Params.childrenOf enumerateRound
  rw [flatMap_singleton]
  split
  · next h =>
    rw [h, children_toList p.xks rfl]
    exact map_id _
  · refine children_toList p.xks ?_
    rw [Params.forkDelta, updateContribution_or_one, UInt32.xor_assoc, UInt32.xor_assoc,
      UInt32.xor_comm (p.roundIn round)]

theorem enumerateRound_eq (p : Params) (states : List UInt32) (round : UInt32) :
    enumerateRound p states round = states.flatMap fun raw => (p.childrenOf round raw).toList := by
  simp only [childrenOf_toList, enumerateRound, flatMap_singleton, filter_flatMap]
  split
  · rfl
  · exact map_flatMap

theorem enumerateRound_perm (h : states.Perm states') :
    (enumerateRound p states round).Perm (enumerateRound p states' round) := by
  rw [enumerateRound_eq, enumerateRound_eq]
  exact h.flatMap_right _

theorem enumerate_nil (p : Params) (rounds : List UInt32) :
    rounds.foldl (enumerateRound p) [] = [] := by
  induction rounds with
  | nil => rfl
  | cons round rounds ih =>
    rw [foldl_cons, enumerateRound_eq]
    exact ih

theorem enumerate_perm (rounds : List UInt32) (h : states.Perm states') :
    (rounds.foldl (enumerateRound p) states).Perm (rounds.foldl (enumerateRound p) states') := by
  induction rounds generalizing states states' with
  | nil => exact h
  | cons round rounds ih => exact ih (enumerateRound_perm h)

/-- The result counts the states that are left at the head of the buffer. -/
structure Leaves (result : Int × List UInt32) (states : List UInt32) : Prop where
  count : result.1 = states.length - 1
  perm : (result.2.take (result.1 + 1).toNat).Perm states

theorem Leaves.trans {result : Int × List UInt32} (h : Leaves result states)
    (hperm : states.Perm states') : Leaves result states' where
  count := by rw [h.count, hperm.length_eq]
  perm := h.perm.trans hperm

theorem leaves_nil (buffer : List UInt32) : Leaves (-1, buffer) [] where
  count := rfl
  perm := by simp

/-- The buffer holds the states of a round twice. -/
def Params.Fits (p : Params) (size : Nat) : List UInt32 → List UInt32 → Prop
  | [], _ => True
  | round :: later, states =>
    2 * states.length ≤ size ∧ p.Fits size later (enumerateRound p states round)

theorem fits_perm {size : Nat} (rounds : List UInt32) (h : states.Perm states')
    (hfits : p.Fits size rounds states) : p.Fits size rounds states' := by
  induction rounds generalizing states states' with
  | nil => trivial
  | cons round rounds ih => exact ⟨h.length_eq ▸ hfits.1, ih (enumerateRound_perm h) hfits.2⟩

theorem round_spec {count : Nat} (hcount : count ≤ buffer.length) (p : Params) (round : UInt32) :
    (∀ next, expand (p.childrenOf round) buffer 0 count = some next →
      (next.1.take next.2).Perm (enumerateRound p (buffer.take count) round) ∧
        next.1.length = buffer.length ∧ next.2 ≤ next.1.length) ∧
    (2 * (buffer.take count).length ≤ buffer.length →
      (expand (p.childrenOf round) buffer 0 count).isSome) := by
  obtain ⟨hspec, hroom⟩ :=
    @expand_spec _ (p.childrenOf round) [] (buffer.take count) (buffer.drop count)
  simp only [nil_append, take_append_drop, length_nil,
    length_take_of_le hcount, length_drop] at hspec hroom
  constructor
  · intro next hnext
    obtain ⟨hperm, hlength, hle⟩ := hspec next hnext
    rw [enumerateRound_eq]
    refine ⟨hperm, ?_, hle⟩
    simp at hlength
    omega
  · intro hle
    rw [length_take_of_le hcount] at hle
    exact hroom (by omega)

theorem rounds_leaves (rounds : List UInt32) {count : Nat} (hcount : count ≤ buffer.length)
    {result : Int × List UInt32} (hrun : p.rounds rounds buffer count = some result) :
    Leaves result (rounds.foldl (enumerateRound p) (buffer.take count)) := by
  induction rounds generalizing buffer count with
  | nil =>
    obtain rfl := Option.some.inj hrun
    exact ⟨by simp [length_take_of_le hcount], by simp⟩
  | cons round rounds ih =>
    obtain ⟨next, hnext, hrest⟩ := Option.bind_eq_some_iff.mp hrun
    obtain ⟨hperm, -, hle⟩ := (round_spec hcount p round).1 next hnext
    split at hrest
    · next hzero =>
      -- no state is left, and no later round finds one
      obtain rfl := Option.some.inj hrest
      rw [hzero, take_zero] at hperm
      rw [foldl_cons, hperm.symm.eq_nil, enumerate_nil]
      exact leaves_nil next.1
    · exact (ih hle hrest).trans (enumerate_perm rounds hperm)

theorem rounds_isSome (rounds : List UInt32) {count : Nat} (hcount : count ≤ buffer.length)
    (hfits : p.Fits buffer.length rounds (buffer.take count)) :
    (p.rounds rounds buffer count).isSome := by
  induction rounds generalizing buffer count with
  | nil => rfl
  | cons round rounds ih =>
    obtain ⟨next, hnext⟩ := Option.isSome_iff_exists.mp ((round_spec hcount p round).2 hfits.1)
    obtain ⟨hperm, hlength, hle⟩ := (round_spec hcount p round).1 next hnext
    rw [Params.rounds, hnext, Option.bind_some]
    split
    · rfl
    · exact ih hle (hlength ▸ fits_perm rounds hperm.symm hfits.2)

/-- The in-place loop leaves the states of the plain enumeration, in some order, and returns the
index of the last one. It returns whenever every round fits the buffer. -/
theorem stateLoopR4_enumerates (p : Params) {buffer : List UInt32} {count : Nat}
    (hcount : count ≤ buffer.length) :
    (∀ result, stateLoopR4 p buffer count = some result →
      (result.1 = -1 ↔ enumerate p (buffer.take count) = []) ∧
        (result.2.take (result.1 + 1).toNat).Perm (enumerate p (buffer.take count))) ∧
    (p.Fits buffer.length roundNumbers (buffer.take count) →
      (stateLoopR4 p buffer count).isSome) := by
  unfold stateLoopR4
  by_cases hzero : count = 0
  · rw [if_pos hzero, hzero, take_zero, enumerate, enumerate_nil]
    refine ⟨fun result hrun => ?_, fun _ => rfl⟩
    obtain rfl := Option.some.inj hrun
    exact ⟨by simp, (leaves_nil buffer).perm⟩
  · rw [if_neg hzero]
    refine ⟨fun result hrun => ?_, rounds_isSome roundNumbers hcount⟩
    have h := rounds_leaves roundNumbers hcount hrun
    refine ⟨?_, h.perm⟩
    have hlength : result.1 = (enumerate p (buffer.take count)).length - 1 := h.count
    rw [hlength, ← length_eq_zero_iff]
    exact ⟨fun hneg => (by omega), fun hlen => (by omega)⟩

theorem stateLoopR4_enumerates_zero :
    ∃ result, stateLoopR4 ⟨0, 1, 1, 0, 0⟩ [0, 0, 0, 0] 1 = some result ∧
      (result.2.take (result.1 + 1).toNat).Perm (enumerate ⟨0, 1, 1, 0, 0⟩ [0]) := by
  have hfits : Params.Fits ⟨0, 1, 1, 0, 0⟩ 4 roundNumbers [0] := by
    simp only [roundNumbers, Params.Fits]
    decide +kernel
  obtain ⟨hcounts, hstays⟩ := @stateLoopR4_enumerates ⟨0, 1, 1, 0, 0⟩ [0, 0, 0, 0] 1 (by decide)
  obtain ⟨result, hrun⟩ := Option.isSome_iff_exists.mp (hstays hfits)
  exact ⟨result, hrun, (hcounts result hrun).2⟩

end NikitaFirmware.MfKey
