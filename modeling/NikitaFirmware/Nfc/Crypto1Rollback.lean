import NikitaFirmware.Nfc.Keystream

/-!
# Crypto1, backwards

`lfsr_rollback_bit` and `crypto1_lfsr_rollback_word` of `nfc/helpers/crypto1.c`. The register has 48
bits, of which each word holds 24. A step forward leaves what it has shifted out of them above the
24 bits, and a step back masks it off.
-/

namespace NikitaFirmware.Nfc
open Foundations Foundations.KeystreamGenerator BitVec

namespace Crypto1

variable {c d : Crypto1} {x y : Word} {b e p : Bool}

/-- A truth value of the source. -/
def flag (b : Bool) : Word := if b then 1 else 0

abbrev low24 (w : Word) : Word := w &&& 0xFFFFFF

abbrev low23 (w : Word) : Word := w &&& 0x7FFFFF

def register (c : Crypto1) : Crypto1 := ⟨low24 c.odd, low24 c.even⟩

def rollbackBit (c : Crypto1) (input fb : Bool) : Bool × Crypto1 :=
  let t := c.odd &&& 0xFFFFFF
  let odd := c.even
  let out := t &&& (1 : Word)
  let even := t >>> 1
  let out := out ^^^ (lfPolyEven &&& even)
  let out := out ^^^ (lfPolyOdd &&& odd)
  let out := out ^^^ flag input
  let ret := filter odd
  let out := out ^^^ flag (ret && fb)
  (ret, ⟨odd, even ||| (flag (evenParity32 out) <<< 23)⟩)

theorem fold_xor (x y : Word) (k : Nat) :
    (x ^^^ y) ^^^ ((x ^^^ y) >>> k) = (x ^^^ (x >>> k)) ^^^ (y ^^^ (y >>> k)) := by
  rw [ushiftRight_xor_distrib]
  ac_rfl

theorem evenParity32_xor (x y : Word) :
    evenParity32 (x ^^^ y) = (evenParity32 x ^^ evenParity32 y) := by
  simp only [evenParity32, fold_xor, getLsbD_xor]

theorem evenParity32_flag (b : Bool) : evenParity32 (flag b) = b := by
  revert b
  decide

theorem evenParity32_polyEven (x : Word) : evenParity32 (lfPolyEven &&& x) =
    (x.getLsbD 23 ^^ evenParity32 (lfPolyEven &&& low23 x)) := by
  have hsplit : lfPolyEven &&& x = (flag (x.getLsbD 23) <<< 23) ^^^ (lfPolyEven &&& low23 x) := by
    apply eq_of_getLsbD_eq
    intro i hi
    interval_cases i <;> cases h : x.getLsbD 23 <;> simp_all [flag, lfPolyEven]
  have hhigh : ∀ b : Bool, evenParity32 (flag b <<< 23) = b := by decide
  rw [hsplit, evenParity32_xor, hhigh]

theorem mask_and (x : Word) (m : Word) (h : (0xFFFFFF : Word) &&& m = m) :
    low24 x &&& m = x &&& m := by
  rw [BitVec.and_assoc, h]

theorem and_congr (h : low24 x = low24 y) (m : Word) (hm : (0xFFFFFF : Word) &&& m = m) :
    m &&& x = m &&& y := by
  rw [BitVec.and_comm, ← mask_and x m hm, h, mask_and y m hm, BitVec.and_comm]

theorem getLsbD_mask {i : Nat} (hi : i < 32) :
    (low24 x).getLsbD i = (x.getLsbD i && decide (i < 24)) := by
  have hmask : ∀ i < 32, (0xFFFFFF : Word).getLsbD i = decide (i < 24) := by decide
  rw [getLsbD_and, hmask i hi]

theorem filter_mask (x : Word) : filter (low24 x) = filter x := by
  have hnibble : ∀ k : Nat, k ≤ 16 → (low24 x >>> k) &&& 0xF = (x >>> k) &&& 0xF := by
    intro k hk
    apply eq_of_getLsbD_eq
    intro i hi
    have hlow : ∀ i < 32, (0xF : Word).getLsbD i = decide (i < 4) := by decide
    rw [getLsbD_and, getLsbD_and, getLsbD_ushiftRight, getLsbD_ushiftRight, hlow i hi]
    by_cases h4 : i < 4
    · rw [getLsbD_mask (by omega), decide_eq_true (show k + i < 24 by omega), Bool.and_true]
    · rw [decide_eq_false h4, Bool.and_false, Bool.and_false]
  have h0 := hnibble 0 (by decide)
  rw [ushiftRight_zero, ushiftRight_zero] at h0
  simp only [filter, h0, hnibble 4 (by decide), hnibble 8 (by decide), hnibble 12 (by decide),
    hnibble 16 (by decide)]

theorem filter_congr (h : low24 x = low24 y) : filter x = filter y := by
  rw [← filter_mask x, h, filter_mask y]

theorem shift_mask_ushift (x : Word) (p : Bool) : low24 ((x <<< 1) ||| flag p) >>> 1 = low23 x := by
  apply eq_of_getLsbD_eq
  intro i hi
  interval_cases i <;> cases p <;> simp [flag]

theorem restore_high (x : Word) : low23 x ||| (flag (x.getLsbD 23) <<< 23) = low24 x := by
  apply eq_of_getLsbD_eq
  intro i hi
  interval_cases i <;> cases h : x.getLsbD 23 <;> simp_all [flag]

theorem restore_low (x : Word) (b : Bool) :
    low24 (((low24 x >>> 1 ||| (flag b <<< 23)) <<< 1) ||| flag (x.getLsbD 0)) = low24 x := by
  apply eq_of_getLsbD_eq
  intro i hi
  interval_cases i <;> cases b <;> cases h : x.getLsbD 0 <;> simp_all [flag]

theorem and_one (x : Word) : low24 x &&& (1 : Word) = flag (x.getLsbD 0) := by
  apply eq_of_getLsbD_eq
  intro i hi
  interval_cases i <;> cases h : x.getLsbD 0 <;> simp_all [flag]

theorem back_word (x : Word) (b : Bool) : (low24 x >>> 1 ||| (flag b <<< 23)).getLsbD 23 = b ∧
    low23 (low24 x >>> 1 ||| (flag b <<< 23)) = low24 x >>> 1 := by
  refine ⟨by cases b <;> simp [flag], ?_⟩
  apply eq_of_getLsbD_eq
  intro i hi
  interval_cases i <;> cases b <;> simp [flag]

theorem register_eq (h : c.register = d.register) :
    low24 c.odd = low24 d.odd ∧ low24 c.even = low24 d.even :=
  ⟨congrArg odd h, congrArg even h⟩

def feed (odd even : Word) (bit : Bool) : Bool :=
  bit ^^ (evenParity32 (lfPolyOdd &&& odd) ^^ evenParity32 (lfPolyEven &&& even))

theorem next_eq (c : Crypto1) (bit : Bool) : generator.next c bit =
    ⟨(c.even <<< 1) ||| flag (feed c.odd c.even bit), c.odd⟩ := by
  have hfeed : evenParity32 (flag bit ^^^ (lfPolyOdd &&& c.odd) ^^^ (lfPolyEven &&& c.even)) =
      feed c.odd c.even bit := by
    rw [evenParity32_xor, evenParity32_xor, evenParity32_flag, feed, Bool.xor_assoc]
  rw [← hfeed]
  rfl

/-- The bit that a step back puts on top of the register. -/
def lost (odd even : Word) (b : Bool) : Bool :=
  odd.getLsbD 0 ^^ feed even (low24 odd >>> 1) b

theorem rollbackBit_eq (c : Crypto1) (b e : Bool) : c.rollbackBit b e =
    (filter c.even, ⟨c.even, low24 c.odd >>> 1 |||
      (flag (lost c.odd c.even (b ^^ (e && filter c.even))) <<< 23)⟩) := by
  have hout : evenParity32 ((low24 c.odd &&& (1 : Word)) ^^^
      (lfPolyEven &&& (low24 c.odd >>> 1)) ^^^ (lfPolyOdd &&& c.even) ^^^
      flag b ^^^ flag (filter c.even && e)) =
      lost c.odd c.even (b ^^ (e && filter c.even)) := by
    rw [and_one, evenParity32_xor, evenParity32_xor, evenParity32_xor, evenParity32_xor,
      evenParity32_flag, evenParity32_flag, evenParity32_flag, lost, feed, Bool.and_comm e]
    simp only [Bool.xor_assoc, Bool.xor_comm, Bool.xor_left_comm]
  rw [← hout]
  rfl

theorem feed_congr {odd odd' even even' : Word} (ho : low24 odd = low24 odd')
    (he : low24 even = low24 even') (b : Bool) : feed odd even b = feed odd' even' b := by
  rw [feed, feed, and_congr ho lfPolyOdd (by decide), and_congr he lfPolyEven (by decide)]

theorem lost_next (odd even : Word) (b : Bool) :
    lost ((even <<< 1) ||| flag (feed odd even b)) odd b = even.getLsbD 23 := by
  have hlow : ((even <<< 1) ||| flag (feed odd even b)).getLsbD 0 = feed odd even b := by
    cases feed odd even b <;> simp [flag]
  rw [lost, hlow, shift_mask_ushift, feed, feed, evenParity32_polyEven even]
  cases b <;> cases even.getLsbD 23 <;> simp

theorem rollbackBit_step (c : Crypto1) (b e : Bool) :
    rollbackBit (generator.step c b e).2 b e = (filter c.odd, ⟨c.odd, low24 c.even⟩) := by
  have hnext : (generator.step c b e).2 =
      ⟨(c.even <<< 1) ||| flag (feed c.odd c.even (b ^^ (e && filter c.odd))), c.odd⟩ :=
    next_eq c _
  rw [hnext, rollbackBit_eq, lost_next, shift_mask_ushift, restore_high]

theorem feed_lost (odd even : Word) (b : Bool) :
    feed even (low24 odd >>> 1 ||| (flag (lost odd even b) <<< 23)) b = odd.getLsbD 0 := by
  obtain ⟨hhigh, hlow⟩ := back_word odd (lost odd even b)
  have hpoly : evenParity32 (lfPolyEven &&& (low24 odd >>> 1)) =
      evenParity32 (lfPolyEven &&& (low23 (low24 odd >>> 1))) := by
    have hsame : low23 (low24 odd >>> 1) = low24 odd >>> 1 := by
      apply eq_of_getLsbD_eq
      intro i hi
      interval_cases i <;> simp
    rw [hsame]
  rw [feed, evenParity32_polyEven, hhigh, hlow, lost, feed]
  cases odd.getLsbD 0 <;> cases b <;> simp

theorem step_rollbackBit (c : Crypto1) (b e : Bool) :
    (generator.step (c.rollbackBit b e).2 b e).2.register = c.register := by
  have hnext : (generator.step (c.rollbackBit b e).2 b e).2 =
      generator.next (c.rollbackBit b e).2 (b ^^ (e && filter c.even)) := by
    rw [rollbackBit_eq]
    rfl
  rw [hnext, next_eq, rollbackBit_eq, feed_lost, register, restore_low]
  rfl

/-- `lfsr_rollback_bit` is the way back of `crypto1_bit`. -/
def rollback : Rollback generator register where
  back := rollbackBit
  out_congr := fun h => filter_congr (register_eq h).1
  next_congr := by
    intro c d b h
    obtain ⟨hodd, heven⟩ := register_eq h
    rw [next_eq, next_eq, feed_congr hodd heven b, register, register]
    congr 1
    apply eq_of_getLsbD_eq
    intro i hi
    have hbit := congrArg (fun w => getLsbD w (i - 1)) heven
    rw [getLsbD_mask (by omega), getLsbD_mask (by omega)] at hbit
    rw [getLsbD_mask hi, getLsbD_mask hi, getLsbD_or, getLsbD_or,
      getLsbD_shiftLeft, getLsbD_shiftLeft]
    by_cases h24 : i < 24
    · rw [decide_eq_true (show i - 1 < 24 by omega), Bool.and_true, Bool.and_true] at hbit
      rw [hbit]
    · rw [decide_eq_false h24, Bool.and_false, Bool.and_false]
  back_congr := by
    intro c d b e h
    obtain ⟨hodd, heven⟩ := register_eq h
    have hlow : c.odd.getLsbD 0 = d.odd.getLsbD 0 := by
      have hbit := congrArg (fun w => getLsbD w 0) hodd
      rwa [getLsbD_mask (by decide), getLsbD_mask (by decide), decide_eq_true (by decide),
        Bool.and_true, Bool.and_true] at hbit
    have hlost : ∀ b, lost c.odd c.even b = lost d.odd d.even b := by
      intro b
      rw [lost, lost, hlow, hodd, feed_congr heven rfl]
    rw [rollbackBit_eq, rollbackBit_eq, filter_congr heven, hlost, hodd]
    exact ⟨rfl, congrArg₂ Crypto1.mk heven rfl⟩
  back_step := by
    intro c b e
    rw [rollbackBit_step]
    exact ⟨rfl, congrArg₂ Crypto1.mk rfl (mask_and c.even _ (by decide))⟩
  step_back := by
    intro c b e
    refine ⟨?_, step_rollbackBit c b e⟩
    rw [rollbackBit_eq]
    rfl

def lfsrRollbackWord (c : Crypto1) (input : Word) (fb : Bool) : Word × Crypto1 :=
  (wordOfBits (rollback.unrun c fb (wordBits input)).1, (rollback.unrun c fb (wordBits input)).2)

theorem low24_even_rollbackBit : low24 (c.rollbackBit b e).2.even = (c.rollbackBit b e).2.even := by
  rw [rollbackBit_eq]
  generalize lost c.odd c.even (b ^^ (e && filter c.even)) = p
  apply eq_of_getLsbD_eq
  intro i hi
  interval_cases i <;> cases p <;> simp [flag]

theorem odd_rollbackBit : (c.rollbackBit b e).2.odd = c.even := by
  rw [rollbackBit_eq]

theorem register_rollbackBit (c : Crypto1) (b₀ b₁ : Bool) :
    (rollbackBit (rollbackBit c b₁ e).2 b₀ e).2.register =
      (rollbackBit (rollbackBit c b₁ e).2 b₀ e).2 := by
  have hodd : low24 (rollbackBit (rollbackBit c b₁ e).2 b₀ e).2.odd =
      (rollbackBit (rollbackBit c b₁ e).2 b₀ e).2.odd := by
    rw [odd_rollbackBit]
    exact low24_even_rollbackBit
  exact congrArg₂ Crypto1.mk hodd low24_even_rollbackBit

theorem word_keystream (c : Crypto1) (w : Word) (e : Bool) :
    (c.word w e).1 = wordOfBits (generator.run c e (wordBits w)).1 := rfl

theorem word_state (c : Crypto1) (w : Word) (e : Bool) :
    (c.word w e).2 = (generator.run c e (wordBits w)).2 := rfl

theorem lfsrRollbackWord_keystream (c : Crypto1) (w : Word) (e : Bool) :
    (c.lfsrRollbackWord w e).1 = wordOfBits (rollback.unrun c e (wordBits w)).1 := rfl

theorem lfsrRollbackWord_state (c : Crypto1) (w : Word) (e : Bool) :
    (c.lfsrRollbackWord w e).2 = (rollback.unrun c e (wordBits w)).2 := rfl

theorem register_unrun (c : Crypto1) (w : Word) (e : Bool) :
    (rollback.unrun c e (wordBits w)).2.register = (rollback.unrun c e (wordBits w)).2 := by
  obtain ⟨b₀, b₁, bs, hbits⟩ : ∃ b₀ b₁ bs, wordBits w = b₀ :: b₁ :: bs := ⟨_, _, _, rfl⟩
  rw [hbits]
  exact register_rollbackBit _ b₀ b₁

theorem lfsrRollbackWord_word (c : Crypto1) (w : Word) (e : Bool) :
    (lfsrRollbackWord (c.word w e).2 w e).1 = (c.word w e).1 ∧
      (lfsrRollbackWord (c.word w e).2 w e).2 = c.register := by
  obtain ⟨hks, hreg⟩ := rollback.unrun_run c e (wordBits w)
  rw [lfsrRollbackWord_keystream, lfsrRollbackWord_state, word_keystream, word_state, hks,
    ← register_unrun]
  exact ⟨rfl, hreg⟩

theorem word_lfsrRollbackWord (c : Crypto1) (w : Word) (e : Bool) :
    (word (c.lfsrRollbackWord w e).2 w e).1 = (c.lfsrRollbackWord w e).1 ∧
      (word (c.lfsrRollbackWord w e).2 w e).2.register = c.register := by
  obtain ⟨hks, hreg⟩ := rollback.run_unrun c e (wordBits w)
  rw [word_keystream, word_state, lfsrRollbackWord_keystream, lfsrRollbackWord_state, hks]
  exact ⟨rfl, hreg⟩

end Crypto1

end NikitaFirmware.Nfc
