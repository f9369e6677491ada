import NikitaFirmware.Foundations.BitValue
import Mathlib.Data.Nat.Count

/-!
# H10301 frames

`lib/lfrfid/protocols/protocol_h10301.c`: a frame of 96 bits in three words, the highest bit first. A
preamble of eight bits is followed by 44 symbols of two bits, the second one the complement of the
first: company, format, and a payload of 26 bits, 24 of data between an even and an odd parity bit.
-/

namespace NikitaFirmware.LfRfid.H10301
open Foundations.BitValue List

structure CardData where
  word0 : BitVec 32
  word1 : BitVec 32
  word2 : BitVec 32

structure DecodedData where
  byte0 : BitVec 8
  byte1 : BitVec 8
  byte2 : BitVec 8

namespace CardData

def word (card : CardData) : Nat → BitVec 32
  | 0 => card.word0
  | 1 => card.word1
  | _ => card.word2

def setWord (card : CardData) (index : Nat) (value : BitVec 32) : CardData :=
  match index with
  | 0 => { card with word0 := value }
  | 1 => { card with word1 := value }
  | _ => { card with word2 := value }

def bit (card : CardData) (position : Nat) : Bool :=
  (card.word (position / 32)).getMsbD (position % 32)

end CardData

/-- The loops over the symbols in `protocol_h10301_can_be_decoded`, with the number of the symbols to
come; the next one is at `2 * i`. -/
def readSymbols (word : BitVec 32) : Nat → BitVec 32 → Option (BitVec 32)
  | 0, result => some result
  | i + 1, result =>
    if (word >>> (2 * i)) &&& 0b11 = 0b01 then readSymbols word i (result <<< 1 ||| 0)
    else if (word >>> (2 * i)) &&& 0b11 = 0b10 then readSymbols word i (result <<< 1 ||| 1)
    else none

/-- The loops in `protocol_h10301_decode`, which pass over other symbols. -/
def decodeSymbols (word : BitVec 32) : Nat → BitVec 32 → BitVec 32
  | 0, result => result
  | i + 1, result =>
    if (word >>> (2 * i)) &&& 0b11 = 0b01 then decodeSymbols word i (result <<< 1 ||| 0)
    else if (word >>> (2 * i)) &&& 0b11 = 0b10 then decodeSymbols word i (result <<< 1 ||| 1)
    else decodeSymbols word i result

/-- The loops that count the bits from `i` on which are set, with the number of rounds. -/
def paritySum (value : BitVec 32) : Nat → Nat → Nat → Nat
  | _, 0, sum => sum
  | i, rounds + 1, sum =>
    paritySum value (i + 1) rounds (if (value >>> i) &&& 1 = 1 then sum + 1 else sum)

def canBeDecoded (card : CardData) : Bool :=
  -- the fourth byte of a little-endian word
  if card.word0.extractLsb' 24 8 ≠ 0x1D then false
  else if (card.word0 >>> 10) &&& 0x3FFF ≠ 0x1556 then false
  else if (card.word0 &&& 0x3FF) <<< 12 ||| ((card.word1 >>> 20) &&& 0xFFF) ≠ 0x155556 then false
  else match (readSymbols card.word1 10 0).bind (readSymbols card.word2 16) with
    | none => false
    | some result =>
      if paritySum result 0 13 0 % 2 ≠ 1 then false
      else if paritySum result 13 13 0 % 2 = 1 then false
      else true

def dataOf (result : BitVec 32) : DecodedData :=
  ⟨(result >>> 17).setWidth 8, (result >>> 9).setWidth 8, (result >>> 1).setWidth 8⟩

def decode (card : CardData) : DecodedData :=
  dataOf (decodeSymbols card.word2 16 (decodeSymbols card.word1 10 0))

def writeRawBit (bit : Bool) (position : Nat) (card : CardData) : CardData :=
  let mask := 1#32 <<< (32 - position % 32 - 1)
  if bit then card.setWord (position / 32) (card.word (position / 32) ||| mask)
  else card.setWord (position / 32) (card.word (position / 32) &&& ~~~mask)

def writeBit (bit : Bool) (position : Nat) (card : CardData) : CardData :=
  writeRawBit (!bit) (position + 1) (writeRawBit bit (position + 0) card)

/-- The facility code and the card number in one word. -/
def fcCn (data : DecodedData) : BitVec 32 :=
  data.byte0.setWidth 32 <<< 16 ||| data.byte1.setWidth 32 <<< 8 ||| data.byte2.setWidth 32

/-- The loop of `protocol_h10301_encode` that writes the data, with the number of rounds. -/
def writeData (fcCn : BitVec 32) : Nat → Nat → CardData → CardData
  | _, 0, card => card
  | i, rounds + 1, card =>
    writeData fcCn (i + 1) rounds (writeBit ((fcCn >>> (23 - i)) &&& 1 = 1) (46 + i * 2) card)

/-- The bits and the symbols in front of the data, each with its position. -/
def rawBits : List (Bool × Nat) :=
  [(false, 0), (false, 1), (false, 2), (true, 3), (true, 4), (true, 5), (false, 6), (true, 7)]

def headerBits : List (Bool × Nat) :=
  -- company / OEM code 1
  [(false, 8), (false, 10), (false, 12), (false, 14), (false, 16), (false, 18), (true, 20),
    -- card format / length 1
    (false, 22), (false, 24), (false, 26), (false, 28), (false, 30), (false, 32), (false, 34),
    (false, 36), (false, 38), (false, 40), (true, 42)]

def encode (data : DecodedData) : CardData :=
  let fcCn := fcCn data
  let evenParitySum := paritySum fcCn 12 12 0
  let oddParitySum := paritySum fcCn 0 12 1
  let card := rawBits.foldl (fun card b => writeRawBit b.1 b.2 card) ⟨0, 0, 0⟩
  let card := headerBits.foldl (fun card b => writeBit b.1 b.2 card) card
  let card := writeBit (evenParitySum % 2 = 1) 44 card
  let card := writeData fcCn 0 24 card
  writeBit (oddParitySum % 2 = 1) 94 card

variable {card card' : CardData} {data : DecodedData} {word : BitVec 32} {i n position : Nat}
  {bit : Nat → Bool}

theorem CardData.word_setWord (card : CardData) {index other : Nat} (hindex : index < 3)
    (hother : other < 3) (v : BitVec 32) :
    (card.setWord index v).word other = if other = index then v else card.word other := by
  have hcases : ∀ j < 3, j = 0 ∨ j = 1 ∨ j = 2 := by omega
  obtain rfl | rfl | rfl := hcases index hindex <;>
    obtain rfl | rfl | rfl := hcases other hother <;> rfl

theorem CardData.bit_add (card : CardData) (index : Nat) {j : Nat} (hj : j < 32) :
    card.bit (32 * index + j) = (card.word index).getMsbD j := by
  have hdiv : (32 * index + j) / 32 = index := by omega
  have hmod : (32 * index + j) % 32 = j := by omega
  rw [CardData.bit, hdiv, hmod]

theorem CardData.bit_word0 (card : CardData) {p : Nat} (hp : p < 32) :
    card.bit p = card.word0.getMsbD p := by
  have hbit := card.bit_add 0 hp
  rwa [Nat.mul_zero, Nat.zero_add] at hbit

theorem CardData.ext_bit (h : ∀ p < 96, card.bit p = card'.bit p) : card = card' := by
  have hword : ∀ index < 3, card.word index = card'.word index := by
    intro index hindex
    refine BitVec.eq_of_getMsbD_eq fun k hk => ?_
    have hbit := h (32 * index + k) (by omega)
    rwa [card.bit_add index hk, card'.bit_add index hk] at hbit
  cases card
  cases card'
  exact CardData.mk.injEq .. ▸ ⟨hword 0 (by decide), hword 1 (by decide), hword 2 (by decide)⟩

theorem getMsbD_mask {shift k : Nat} (hshift : shift < 32) (hk : k < 32) :
    (1#32 <<< (32 - shift - 1)).getMsbD k = decide (k = shift) := by
  rw [BitVec.getMsbD_eq_getLsbD, BitVec.getLsbD_shiftLeft, BitVec.getLsbD_one]
  grind

theorem bit_writeRawBit (bit : Bool) (card : CardData) {p : Nat} (hposition : position < 96)
    (hp : p < 96) :
    (writeRawBit bit position card).bit p = if p = position then bit else card.bit p := by
  have hmod : position % 32 < 32 := Nat.mod_lt _ (by decide)
  have hp32 : p % 32 < 32 := Nat.mod_lt _ (by decide)
  have hplace : p / 32 = position / 32 →
      decide (p % 32 = position % 32) = decide (p = position) := fun h =>
    decide_eq_decide.mpr (by omega)
  cases bit with
  | true =>
    rw [writeRawBit, if_pos rfl, CardData.bit, CardData.word_setWord _ (by omega) (by omega)]
    by_cases hword : p / 32 = position / 32
    · rw [if_pos hword, BitVec.getMsbD_or, getMsbD_mask hmod hp32, hplace hword, CardData.bit,
        hword]
      by_cases hp : p = position <;> simp [hp]
    · rw [if_neg hword, if_neg fun h => hword (congrArg (· / 32) h), CardData.bit]
  | false =>
    rw [writeRawBit, if_neg Bool.false_ne_true, CardData.bit,
      CardData.word_setWord _ (by omega) (by omega)]
    by_cases hword : p / 32 = position / 32
    · rw [if_pos hword, BitVec.getMsbD_and, BitVec.getMsbD_not, decide_eq_true hp32,
        getMsbD_mask hmod hp32, hplace hword, CardData.bit, hword]
      by_cases hp : p = position <;> simp [hp]
    · rw [if_neg hword, if_neg fun h => hword (congrArg (· / 32) h), CardData.bit]

/-- The bits in front of the payload. -/
def header : List Bool :=
  rawBits.map Prod.fst ++ (headerBits.map Prod.fst).flatMap fun b => [b, !b]

def frameBit (payload : Nat → Bool) (p : Nat) : Bool :=
  if p < 44 then header.getD p false
  else if (p - 44) % 2 = 0 then payload ((p - 44) / 2)
  else !payload ((p - 44) / 2)

def Filled (bit : Nat → Bool) (n : Nat) (card : CardData) : Prop := ∀ p < n, card.bit p = bit p

theorem Filled.writeRawBit (h : Filled bit n card) {b : Bool} (hb : bit n = b) (hn : n < 96) :
    Filled bit (n + 1) (writeRawBit b n card) := by
  intro p hp
  rw [bit_writeRawBit b card hn (by omega)]
  split
  · next heq => rw [heq, hb]
  · exact h p (by omega)

theorem Filled.writeBit (h : Filled bit n card) {b : Bool} (hb : bit n = b)
    (hnot : bit (n + 1) = !b) (hn : n + 1 < 96) : Filled bit (n + 2) (writeBit b n card) :=
  Filled.writeRawBit (Filled.writeRawBit h hb (by omega)) hnot hn

/-- Bits at consecutive places that agree with the frame. -/
def Listed (bit : Nat → Bool) : Nat → List (Bool × Nat) → Prop
  | _, [] => True
  | n, b :: rest => b.2 = n ∧ bit n = b.1 ∧ Listed bit (n + 1) rest

/-- Symbols at consecutive places that agree with the frame. -/
def ListedSymbols (bit : Nat → Bool) : Nat → List (Bool × Nat) → Prop
  | _, [] => True
  | n, b :: rest => b.2 = n ∧ bit n = b.1 ∧ (bit (n + 1) = !b.1) ∧ ListedSymbols bit (n + 2) rest

theorem Filled.foldl_writeRawBit (list : List (Bool × Nat)) (h : Filled bit n card)
    (hlist : Listed bit n list) (hn : n + list.length ≤ 96) :
    Filled bit (n + list.length)
      (list.foldl (fun card b => H10301.writeRawBit b.1 b.2 card) card) := by
  induction list generalizing n card with
  | nil => exact h
  | cons b rest ih =>
    obtain ⟨hplace, hb, hrest⟩ := hlist
    rw [length_cons] at hn
    rw [foldl_cons, hplace, length_cons, ← Nat.add_assoc, Nat.add_right_comm]
    exact ih (h.writeRawBit hb (by omega)) hrest (by omega)

theorem Filled.foldl_writeBit (list : List (Bool × Nat)) (h : Filled bit n card)
    (hlist : ListedSymbols bit n list) (hn : n + 2 * list.length ≤ 96) :
    Filled bit (n + 2 * list.length)
      (list.foldl (fun card b => H10301.writeBit b.1 b.2 card) card) := by
  induction list generalizing n card with
  | nil => exact h
  | cons b rest ih =>
    obtain ⟨hplace, hb, hnot, hrest⟩ := hlist
    rw [length_cons] at hn
    have hlen : n + 2 * (b :: rest).length = n + 2 + 2 * rest.length := by
      rw [length_cons]
      omega
    rw [foldl_cons, hplace, hlen]
    exact ih (h.writeBit hb hnot (by omega)) hrest (by omega)

theorem frameBit_symbol (payload : Nat → Bool) (k : Nat) :
    frameBit payload (44 + 2 * k) = payload k := by
  have hindex : (44 + 2 * k - 44) / 2 = k := by omega
  rw [frameBit, if_neg (by omega), if_pos (by omega), hindex]

theorem frameBit_complement (payload : Nat → Bool) (k : Nat) :
    frameBit payload (44 + 2 * k + 1) = !payload k := by
  have hindex : (44 + 2 * k + 1 - 44) / 2 = k := by omega
  rw [frameBit, if_neg (by omega), if_neg (by omega), hindex]

theorem Filled.symbol {payload : Nat → Bool} {b : Bool} {k : Nat}
    (h : Filled (frameBit payload) (44 + 2 * k) card) (hb : payload k = b) (hk : k < 26) :
    Filled (frameBit payload) (44 + 2 * (k + 1)) (H10301.writeBit b (44 + 2 * k) card) :=
  h.writeBit ((frameBit_symbol payload k).trans hb)
    ((frameBit_complement payload k).trans (congrArg not hb)) (by omega)

def payloadOf (data : DecodedData) (k : Nat) : Bool :=
  if k = 0 then decide (paritySum (fcCn data) 12 12 0 % 2 = 1)
  else if k = 25 then decide (paritySum (fcCn data) 0 12 1 % 2 = 1)
  else (fcCn data).getLsbD (24 - k)

theorem and_one_eq_one (v : BitVec 32) (i : Nat) : (v >>> i) &&& 1 = 1 ↔ v.getLsbD i = true := by
  rw [← BitVec.toNat_inj, BitVec.toNat_and, BitVec.toNat_ushiftRight]
  show (v.toNat >>> i) &&& 1 = 1 ↔ _
  rw [Nat.and_one_is_mod, ← BitVec.testBit_toNat, Nat.testBit, Nat.and_comm, Nat.and_one_is_mod]
  grind

theorem Filled.writeData {data : DecodedData} (rounds i : Nat)
    (h : Filled (frameBit (payloadOf data)) (44 + 2 * (i + 1)) card) (hi : i + rounds ≤ 24) :
    Filled (frameBit (payloadOf data)) (44 + 2 * (i + rounds + 1))
      (writeData (fcCn data) i rounds card) := by
  induction rounds generalizing i card with
  | zero => exact h
  | succ rounds ih =>
    have hb : payloadOf data (i + 1) = decide ((fcCn data >>> (23 - i)) &&& 1 = 1) := by
      have hindex : 24 - (i + 1) = 23 - i := by omega
      rw [payloadOf, if_neg (by omega), if_neg (by omega), hindex]
      exact Bool.eq_iff_iff.mpr ((and_one_eq_one _ _).symm.trans decide_eq_true_iff.symm)
    have hplace : 46 + i * 2 = 44 + 2 * (i + 1) := by omega
    have hround : i + (rounds + 1) = i + 1 + rounds := by omega
    rw [H10301.writeData, hplace, hround]
    exact ih (i + 1) (h.symbol hb (by omega)) (by omega)

theorem filled_encode (data : DecodedData) :
    Filled (frameBit (payloadOf data)) 96 (encode data) := by
  have hraw : Listed (frameBit (payloadOf data)) 0 rawBits := by
    repeat' first | exact trivial | refine ⟨rfl, rfl, ?_⟩
  have hheader : ListedSymbols (frameBit (payloadOf data)) 8 headerBits := by
    repeat' first | exact trivial | refine ⟨rfl, rfl, rfl, ?_⟩
  have h₀ : Filled (frameBit (payloadOf data)) 0 ⟨0, 0, 0⟩ := fun p hp => absurd hp (Nat.not_lt_zero p)
  have h₁ := Filled.foldl_writeRawBit rawBits h₀ hraw (by decide)
  have h₂ := Filled.foldl_writeBit headerBits h₁ hheader (by decide)
  have h₃ := Filled.symbol (k := 0) h₂ rfl (by decide)
  have h₄ := Filled.writeData 24 0 h₃ (by decide)
  exact Filled.symbol (k := 25) h₄ rfl (by decide)

variable {bit : Nat → Bool}

/-- The first bits of the symbols behind the header. -/
def payload (card : CardData) (k : Nat) : Bool := card.bit (44 + 2 * k)

theorem toNat_field (word : BitVec 32) (s n : Nat) (h : s + n ≤ 32) :
    ((word >>> (32 - s - n)) &&& BitVec.ofNat 32 (2 ^ n - 1)).toNat =
      value (fun k => word.getMsbD (s + k)) n := by
  refine eq_value fun k => ?_
  rw [BitVec.testBit_toNat, BitVec.getLsbD_and, BitVec.getLsbD_ushiftRight, BitVec.getLsbD_ofNat,
    Nat.testBit_two_pow_sub_one, BitVec.getMsbD_eq_getLsbD]
  by_cases hk : k < n
  · have hplace : 32 - 1 - (s + (n - 1 - k)) = 32 - s - n + k := by omega
    rw [decide_eq_true hk, decide_eq_true (by omega : k < 32), hplace,
      decide_eq_true (by omega : s + (n - 1 - k) < 32), Bool.and_true, Bool.and_true, Bool.true_and,
      Bool.true_and]
  · rw [decide_eq_false hk, Bool.and_false, Bool.and_false, Bool.false_and]

theorem toNat_symbol (word : BitVec 32) (hi : i < 16) : ((word >>> (2 * i)) &&& 0b11).toNat =
      2 * (word.getMsbD (30 - 2 * i)).toNat + (word.getMsbD (30 - 2 * i + 1)).toNat := by
  have hplace : 32 - (30 - 2 * i) - 2 = 2 * i := by omega
  have hfield := toNat_field word (30 - 2 * i) 2 (by omega)
  rw [hplace] at hfield
  exact hfield.trans (by rw [value_succ, value_succ, value_zero, Nat.mul_zero, Nat.zero_add]; rfl)

theorem readSymbols_succ (word result : BitVec 32) (hi : i < 16) : readSymbols word (i + 1) result =
      if word.getMsbD (30 - 2 * i + 1) = !word.getMsbD (30 - 2 * i) then
        readSymbols word i (result <<< 1 ||| BitVec.ofNat 32 (word.getMsbD (30 - 2 * i)).toNat)
      else none := by
  have hsymbol := toNat_symbol word hi
  have hone : (word >>> (2 * i)) &&& 0b11 = 0b01 ↔ ((word >>> (2 * i)) &&& 0b11).toNat = 1 :=
    BitVec.toNat_inj.symm
  have htwo : (word >>> (2 * i)) &&& 0b11 = 0b10 ↔ ((word >>> (2 * i)) &&& 0b11).toNat = 2 :=
    BitVec.toNat_inj.symm
  rw [hsymbol] at hone htwo
  rw [readSymbols, if_congr hone rfl (if_congr htwo rfl rfl)]
  cases word.getMsbD (30 - 2 * i) <;> cases word.getMsbD (30 - 2 * i + 1) <;> rfl

theorem decodeSymbols_of_readSymbols {result r : BitVec 32} (h : readSymbols word n result = some r) :
    decodeSymbols word n result = r := by
  induction n generalizing result with
  | zero => exact Option.some.inj h
  | succ n ih =>
    rw [readSymbols] at h
    rw [decodeSymbols]
    split at h
    · next hone => rw [if_pos hone, ih h]
    · next hone =>
      split at h
      · next htwo => rw [if_neg hone, if_pos htwo, ih h]
      · exact absurd h (Option.some_ne_none r).symm

theorem toNat_push {result : BitVec 32} {count : Nat}
    (hresult : result.toNat = value bit count) (hcount : count < 32) :
    (result <<< 1 ||| BitVec.ofNat 32 (bit count).toNat).toNat = value bit (count + 1) := by
  have hle : (2 : Nat) ^ (count + 1) ≤ 2 ^ 32 := Nat.pow_le_pow_right (by decide) hcount
  have hlt : value bit count <<< 1 < 2 ^ 32 := by
    have hvalue := value_lt bit count
    rw [Nat.shiftLeft_eq]
    rw [Nat.pow_succ] at hle
    omega
  have hbit : (bit count).toNat < 2 ^ 32 := Nat.lt_of_le_of_lt (Bool.toNat_le _) (by decide)
  have hjoin := shiftLeft_or_value bit count 1
  rw [value_succ (fun k => bit (count + k)), value_zero, Nat.mul_zero, Nat.zero_add] at hjoin
  rw [BitVec.toNat_or, BitVec.toNat_shiftLeft, BitVec.toNat_ofNat, hresult, Nat.mod_eq_of_lt hlt,
    Nat.mod_eq_of_lt hbit]
  exact hjoin

theorem readSymbols_eq_some {result r : BitVec 32} {count : Nat} (hn : n ≤ 16)
    (hcount : count + n ≤ 32)
    (hresult : result.toNat = value bit count)
    (hbit : ∀ j < n, bit (count + j) = word.getMsbD (32 - 2 * n + 2 * j)) :
    readSymbols word n result = some r ↔
      (∀ j < n, word.getMsbD (32 - 2 * n + 2 * j + 1) = !word.getMsbD (32 - 2 * n + 2 * j)) ∧
        r.toNat = value bit (count + n) := by
  induction n generalizing result count with
  | zero =>
    rw [readSymbols, Option.some_inj, Nat.add_zero, ← hresult, BitVec.toNat_inj]
    exact ⟨fun h => ⟨fun j hj => absurd hj (Nat.not_lt_zero j), h.symm⟩, fun h => h.2.symm⟩
  | succ n ih =>
    have hfirst : 32 - 2 * (n + 1) + 2 * 0 = 30 - 2 * n := by omega
    have hrest : ∀ j < n, 32 - 2 * (n + 1) + 2 * (j + 1) = 32 - 2 * n + 2 * j := by omega
    have hbit₀ := hbit 0 (Nat.succ_pos n)
    rw [hfirst, Nat.add_zero] at hbit₀
    have hround := @ih _ (count + 1) (by omega) (by omega) (toNat_push hresult (by omega))
      fun j hj => by
        have hindex : count + 1 + j = count + (j + 1) := by omega
        rw [hindex, hbit (j + 1) (by omega), hrest j hj]
    have hindex : count + 1 + n = count + (n + 1) := by omega
    rw [hbit₀, hindex] at hround
    rw [readSymbols_succ word result (by omega)]
    split
    · next hvalid =>
      rw [hround]
      refine and_congr_left fun _ => ⟨fun h j hj => ?_, fun h j hj => ?_⟩
      · cases j with
        | zero => rw [hfirst, hvalid]
        | succ j => rw [hrest j (by omega), h j (by omega)]
      · have hnext := h (j + 1) (by omega)
        rwa [hrest j hj] at hnext
    · next hinvalid =>
      refine ⟨fun h => absurd h.symm (Option.some_ne_none r), fun h => absurd (h.1 0 (Nat.succ_pos n)) ?_⟩
      rwa [hfirst]

theorem readSymbols_bind (card : CardData) (r : BitVec 32) :
    (readSymbols card.word1 10 0).bind (readSymbols card.word2 16) = some r ↔
      (∀ k < 26, card.bit (44 + 2 * k + 1) = !payload card k) ∧
        r.toNat = value (payload card) 26 := by
  have hword1 : ∀ j < 32, card.bit (32 + j) = card.word1.getMsbD j := fun j hj => card.bit_add 1 hj
  have hword2 : ∀ j < 32, card.bit (64 + j) = card.word2.getMsbD j := fun j hj => card.bit_add 2 hj
  have hfirst (r₁ : BitVec 32) := @readSymbols_eq_some card.word1 10 (payload card) 0 r₁ 0
    (by decide) (by decide) rfl fun j hj => by
      rw [← hword1 _ (by omega), payload]
      congr 1
      omega
  have hsecond (r₁ : BitVec 32) (h : r₁.toNat = value (payload card) 10) :=
    @readSymbols_eq_some card.word2 16 (payload card) r₁ r 10 (by decide) (by decide) h
      fun j hj => by
        rw [← hword2 _ (by omega), payload]
        congr 1
        omega
  rw [Option.bind_eq_some_iff]
  constructor
  · rintro ⟨r₁, h₁, h₂⟩
    obtain ⟨hvalid₁, hvalue₁⟩ := (hfirst r₁).mp h₁
    obtain ⟨hvalid₂, hvalue₂⟩ := (hsecond r₁ hvalue₁).mp h₂
    refine ⟨fun k hk => ?_, hvalue₂⟩
    by_cases hlow : k < 10
    · have hvalid := hvalid₁ k hlow
      rw [← hword1 _ (by omega), ← hword1 _ (by omega)] at hvalid
      have hplace : 32 + (32 - 2 * 10 + 2 * k) = 44 + 2 * k := by omega
      rwa [← Nat.add_assoc, hplace] at hvalid
    · have hvalid := hvalid₂ (k - 10) (by omega)
      rw [← hword2 _ (by omega), ← hword2 _ (by omega)] at hvalid
      have hplace : 64 + (32 - 2 * 16 + 2 * (k - 10)) = 44 + 2 * k := by omega
      rwa [← Nat.add_assoc, hplace] at hvalid
  · rintro ⟨hvalid, hvalue⟩
    have hten : (BitVec.ofNat 32 (value (payload card) 10)).toNat = value (payload card) 10 := by
      rw [BitVec.toNat_ofNat]
      exact Nat.mod_eq_of_lt (Nat.lt_trans (value_lt _ _) (by decide))
    refine ⟨_, (hfirst _).mpr ⟨fun j hj => ?_, hten⟩, (hsecond _ hten).mpr ⟨fun j hj => ?_, hvalue⟩⟩
    · rw [← hword1 _ (by omega), ← hword1 _ (by omega)]
      have hplace : 32 + (32 - 2 * 10 + 2 * j) = 44 + 2 * j := by omega
      rw [← Nat.add_assoc, hplace]
      exact hvalid j (by omega)
    · rw [← hword2 _ (by omega), ← hword2 _ (by omega)]
      have hplace : 64 + (32 - 2 * 16 + 2 * j) = 44 + 2 * (j + 10) := by omega
      rw [← Nat.add_assoc, hplace]
      exact hvalid (j + 10) (by omega)

theorem field_eq_iff {f c p : Nat} (hf : f = value (fun k => card.bit (p + k)) n) (hc : c < 2 ^ n)
    (hheader : ∀ k < n, c.testBit (n - 1 - k) = header.getD (p + k) false) :
    f = c ↔ ∀ k < n, card.bit (p + k) = header.getD (p + k) false := by
  rw [hf, value_eq_iff hc]
  exact forall₂_congr fun k hk => by rw [hheader k hk]

theorem preamble_iff (card : CardData) :
    card.word0.extractLsb' 24 8 = 0x1D ↔ ∀ k < 8, card.bit (0 + k) = header.getD (0 + k) false := by
  rw [← BitVec.toNat_inj]
  refine field_eq_iff ?_ (by decide) (by decide)
  have hfield := toNat_field card.word0 0 8 (by decide)
  rw [BitVec.toNat_and, BitVec.toNat_ushiftRight] at hfield
  rw [BitVec.extractLsb'_toNat, ← Nat.and_two_pow_sub_one_eq_mod]
  exact hfield.trans (value_congr fun k hk => (card.bit_word0 (by omega)).symm)

theorem company_iff (card : CardData) : (card.word0 >>> 10) &&& 0x3FFF = 0x1556 ↔
      ∀ k < 14, card.bit (8 + k) = header.getD (8 + k) false := by
  rw [← BitVec.toNat_inj]
  refine field_eq_iff ?_ (by decide) (by decide)
  exact (toNat_field card.word0 8 14 (by decide)).trans
    (value_congr fun k hk => (card.bit_word0 (by omega)).symm)

theorem format_iff (card : CardData) :
    (card.word0 &&& 0x3FF) <<< 12 ||| ((card.word1 >>> 20) &&& 0xFFF) = 0x155556 ↔
      ∀ k < 22, card.bit (22 + k) = header.getD (22 + k) false := by
  rw [← BitVec.toNat_inj]
  refine field_eq_iff ?_ (by decide) (by decide)
  have hupper : (card.word0 &&& 0x3FF).toNat = value (fun k => card.bit (22 + k)) 10 :=
    (toNat_field card.word0 22 10 (by decide)).trans
      (value_congr fun k hk => (card.bit_word0 (by omega)).symm)
  have hlower : ((card.word1 >>> 20) &&& 0xFFF).toNat =
      value (fun k => card.bit (22 + (10 + k))) 12 := by
    refine (toNat_field card.word1 0 12 (by decide)).trans (value_congr fun k hk => ?_)
    have hplace : 22 + (10 + k) = 32 * 1 + (0 + k) := by omega
    rw [hplace, card.bit_add 1 (by omega)]
    rfl
  have hlt : value (fun k => card.bit (22 + k)) 10 <<< 12 < 2 ^ 32 := by
    have hvalue := value_lt (fun k => card.bit (22 + k)) 10
    rw [Nat.shiftLeft_eq]
    omega
  rw [BitVec.toNat_or, BitVec.toNat_shiftLeft, hupper, hlower, Nat.mod_eq_of_lt hlt]
  exact shiftLeft_or_value (fun k => card.bit (22 + k)) 10 12

theorem filled_iff (card : CardData) : Filled (frameBit (payload card)) 96 card ↔
    (∀ p < 44, card.bit p = header.getD p false) ∧
      ∀ k < 26, card.bit (44 + 2 * k + 1) = !payload card k := by
  constructor
  · intro h
    refine ⟨fun p hp => ?_, fun k hk => ?_⟩
    · rw [h p (by omega), frameBit, if_pos hp]
    · rw [h _ (by omega), frameBit_complement]
  · rintro ⟨hheader, hsymbols⟩ p hp
    by_cases hfront : p < 44
    · rw [hheader p hfront, frameBit, if_pos hfront]
    · by_cases hfirst : (p - 44) % 2 = 0
      · have hplace : p = 44 + 2 * ((p - 44) / 2) := by omega
        rw [hplace, frameBit_symbol, payload]
      · have hplace : p = 44 + 2 * ((p - 44) / 2) + 1 := by omega
        rw [hplace, frameBit_complement]
        exact hsymbols _ (by omega)

theorem unless_eq_true {p : Prop} [Decidable p] {b : Bool} :
    (if ¬p then false else b) = true ↔ p ∧ b = true := by
  by_cases hp : p
  · rw [if_neg (not_not.mpr hp), and_iff_right hp]
  · rw [if_pos hp]
    exact ⟨fun h => absurd h Bool.false_ne_true, fun h => absurd h.1 hp⟩

theorem canBeDecoded_iff (card : CardData) : canBeDecoded card = true ↔
    Filled (frameBit (payload card)) 96 card ∧ ∃ r : BitVec 32, r.toNat = value (payload card) 26 ∧
        paritySum r 0 13 0 % 2 = 1 ∧ paritySum r 13 13 0 % 2 ≠ 1 := by
  have hheader : (∀ p < 44, card.bit p = header.getD p false) ↔
      (∀ k < 8, card.bit (0 + k) = header.getD (0 + k) false) ∧
      (∀ k < 14, card.bit (8 + k) = header.getD (8 + k) false) ∧
      ∀ k < 22, card.bit (22 + k) = header.getD (22 + k) false := by
    refine ⟨fun h => ⟨fun k hk => h _ (by omega), fun k hk => h _ (by omega),
      fun k hk => h _ (by omega)⟩, ?_⟩
    rintro ⟨h₁, h₂, h₃⟩ p hp
    by_cases hp₁ : p < 8
    · exact Nat.zero_add p ▸ h₁ p hp₁
    · by_cases hp₂ : p < 22
      · have hplace : 8 + (p - 8) = p := by omega
        exact hplace ▸ h₂ (p - 8) (by omega)
      · have hplace : 22 + (p - 22) = p := by omega
        exact hplace ▸ h₃ (p - 22) (by omega)
  rw [filled_iff, hheader, ← preamble_iff, ← company_iff, ← format_iff, canBeDecoded,
    unless_eq_true, unless_eq_true, unless_eq_true]
  have hread := readSymbols_bind card
  constructor
  · rintro ⟨h₁, h₂, h₃, h⟩
    split at h
    · exact absurd h Bool.false_ne_true
    · next r hr =>
      obtain ⟨hsymbols, hvalue⟩ := (hread r).mp hr
      rw [unless_eq_true] at h
      obtain ⟨hodd, heven⟩ := h
      refine ⟨⟨⟨h₁, h₂, h₃⟩, hsymbols⟩, r, hvalue, hodd, fun heven' => ?_⟩
      rw [if_pos heven'] at heven
      exact Bool.false_ne_true heven
  · rintro ⟨⟨⟨h₁, h₂, h₃⟩, hsymbols⟩, r, hvalue, hodd, heven⟩
    refine ⟨h₁, h₂, h₃, ?_⟩
    rw [(hread r).mpr ⟨hsymbols, hvalue⟩]
    exact unless_eq_true.mpr ⟨hodd, if_neg heven⟩

theorem getLsbD_fcCn (data : DecodedData) (hi : i < 24) : (fcCn data).getLsbD i =
    if i < 8 then data.byte2.getLsbD i
    else if i < 16 then data.byte1.getLsbD (i - 8) else data.byte0.getLsbD (i - 16) := by
  rw [fcCn, BitVec.getLsbD_or, BitVec.getLsbD_or, BitVec.getLsbD_shiftLeft,
    BitVec.getLsbD_shiftLeft, BitVec.getLsbD_setWidth, BitVec.getLsbD_setWidth,
    BitVec.getLsbD_setWidth]
  split
  · next h8 => simp [h8, show i < 16 by omega, show i < 32 by omega]
  · next h8 =>
    split
    · next h16 =>
      have hhigh : data.byte2.getLsbD i = false := BitVec.getLsbD_of_ge _ _ (by omega)
      simp [h8, h16, hhigh, show i < 32 by omega, show i - 8 < 32 by omega]
    · next h16 =>
      have hhigh : data.byte2.getLsbD i = false := BitVec.getLsbD_of_ge _ _ (by omega)
      have hhigh' : data.byte1.getLsbD (i - 8) = false := BitVec.getLsbD_of_ge _ _ (by omega)
      simp [h16, hhigh, hhigh', show i < 32 by omega, show i - 16 < 32 by omega]

theorem getLsbD_byte (r : BitVec 32) {shift : Nat} (hi : i < 8) :
    ((r >>> shift).setWidth 8).getLsbD i = r.getLsbD (shift + i) := by
  rw [BitVec.getLsbD_setWidth, decide_eq_true hi, Bool.true_and, BitVec.getLsbD_ushiftRight]

theorem getLsbD_fcCn_dataOf (r : BitVec 32) (hi : i < 24) :
    (fcCn (dataOf r)).getLsbD i = r.getLsbD (i + 1) := by
  rw [getLsbD_fcCn _ hi]
  split
  · next h8 => exact (getLsbD_byte r h8).trans (by rw [Nat.add_comm])
  · next h8 =>
    split
    · next h16 =>
      refine (getLsbD_byte r (by omega)).trans ?_
      congr 1
      omega
    · next h16 =>
      refine (getLsbD_byte r (by omega)).trans ?_
      congr 1
      omega

theorem dataOf_eq {r : BitVec 32} (h : ∀ i < 24, r.getLsbD (i + 1) = (fcCn data).getLsbD i) :
    dataOf r = data := by
  have hbit : ∀ i < 24, (fcCn (dataOf r)).getLsbD i = (fcCn data).getLsbD i := fun i hi =>
    (getLsbD_fcCn_dataOf r hi).trans (h i hi)
  have hbyte0 : (dataOf r).byte0 = data.byte0 := by
    refine BitVec.eq_of_getLsbD_eq fun k hk => ?_
    have h := hbit (16 + k) (by omega)
    rwa [getLsbD_fcCn _ (by omega), getLsbD_fcCn _ (by omega), if_neg (by omega), if_neg (by omega),
      if_neg (by omega), if_neg (by omega), Nat.add_sub_cancel_left] at h
  have hbyte1 : (dataOf r).byte1 = data.byte1 := by
    refine BitVec.eq_of_getLsbD_eq fun k hk => ?_
    have h := hbit (8 + k) (by omega)
    rwa [getLsbD_fcCn _ (by omega), getLsbD_fcCn _ (by omega), if_neg (by omega), if_pos (by omega),
      if_neg (by omega), if_pos (by omega), Nat.add_sub_cancel_left] at h
  have hbyte2 : (dataOf r).byte2 = data.byte2 := by
    refine BitVec.eq_of_getLsbD_eq fun k hk => ?_
    have h := hbit k (by omega)
    rwa [getLsbD_fcCn _ (by omega), getLsbD_fcCn _ (by omega), if_pos hk, if_pos hk] at h
  calc dataOf r = ⟨(dataOf r).byte0, (dataOf r).byte1, (dataOf r).byte2⟩ := rfl
    _ = data := by rw [hbyte0, hbyte1, hbyte2]

theorem paritySum_eq (v : BitVec 32) (i rounds sum : Nat) : paritySum v i rounds sum =
      sum + Nat.count (fun k => v.getLsbD (i + k) = true) rounds := by
  induction rounds generalizing i sum with
  | zero => rfl
  | succ rounds ih =>
    have hnext : (fun k => v.getLsbD (i + (k + 1)) = true) =
        fun k => v.getLsbD (i + 1 + k) = true := by
      funext k
      rw [Nat.add_right_comm, Nat.add_assoc]
    rw [paritySum, ih, if_congr (and_one_eq_one v i) rfl rfl, Nat.count_succ']
    simp only [hnext, Nat.add_zero]
    split <;> omega

theorem count_congr {p q : Nat → Prop} [DecidablePred p] [DecidablePred q]
    (h : ∀ k < n, p k ↔ q k) : Nat.count p n = Nat.count q n := by
  rw [Nat.count_eq_card_filter_range, Nat.count_eq_card_filter_range]
  exact congrArg Finset.card (Finset.filter_congr fun k hk => h k (Finset.mem_range.mp hk))

theorem paritySum_even {r fc : BitVec 32} (h : ∀ i < 24, r.getLsbD (i + 1) = fc.getLsbD i) :
    paritySum r 13 13 0 = paritySum fc 12 12 0 + if r.getLsbD 25 = true then 1 else 0 := by
  rw [paritySum_eq, paritySum_eq, Nat.count_succ, ← Nat.add_assoc]
  congr 2
  refine count_congr fun k hk => ?_
  have hindex : 13 + k = 12 + k + 1 := by omega
  rw [hindex, h (12 + k) (by omega)]

theorem paritySum_odd {r fc : BitVec 32} (h : ∀ i < 24, r.getLsbD (i + 1) = fc.getLsbD i) :
    paritySum r 0 13 0 + 1 = paritySum fc 0 12 1 + if r.getLsbD 0 = true then 1 else 0 := by
  have hrest : Nat.count (fun k => r.getLsbD (0 + (k + 1)) = true) 12 =
      Nat.count (fun k => fc.getLsbD (0 + k) = true) 12 := by
    refine count_congr fun k hk => ?_
    rw [Nat.zero_add, Nat.zero_add, h k (by omega)]
  rw [paritySum_eq, paritySum_eq, Nat.count_succ', hrest, Nat.zero_add (0 : Nat)]
  omega

theorem eq_decide_iff {b : Bool} {p : Prop} [Decidable p] : b = decide p ↔ (b = true ↔ p) := by
  rw [Bool.eq_iff_iff, decide_eq_true_iff]

theorem parities_iff {r : BitVec 32} (h : ∀ i < 24, r.getLsbD (i + 1) = (fcCn data).getLsbD i) :
    (paritySum r 0 13 0 % 2 = 1 ∧ paritySum r 13 13 0 % 2 ≠ 1) ↔
      r.getLsbD 25 = payloadOf data 0 ∧ r.getLsbD 0 = payloadOf data 25 := by
  have heven := paritySum_even h
  have hodd := paritySum_odd h
  have hfirst : payloadOf data 0 = decide (paritySum (fcCn data) 12 12 0 % 2 = 1) := if_pos rfl
  have hlast : payloadOf data 25 = decide (paritySum (fcCn data) 0 12 1 % 2 = 1) := rfl
  rw [hfirst, hlast, eq_decide_iff, eq_decide_iff, and_comm]
  refine and_congr ?_ ?_
  · rw [heven]
    by_cases hbit : r.getLsbD 25 = true
    · rw [if_pos hbit, iff_true_left hbit]
      omega
    · rw [if_neg hbit, iff_false_left hbit]
      omega
  · by_cases hbit : r.getLsbD 0 = true
    · rw [if_pos hbit] at hodd
      rw [iff_true_left hbit]
      omega
    · rw [if_neg hbit] at hodd
      rw [iff_false_left hbit]
      omega

theorem getLsbD_result {r : BitVec 32} (hr : r.toNat = value bit 26)
    (hi : i < 26) : r.getLsbD i = bit (25 - i) := by
  rw [← BitVec.testBit_toNat, hr, testBit_value, decide_eq_true hi, Bool.true_and]

theorem payloadOf_middle (data : DecodedData) (hi : i < 24) :
    payloadOf data (25 - (i + 1)) = (fcCn data).getLsbD i := by
  have hindex : 24 - (25 - (i + 1)) = i := by omega
  rw [payloadOf, if_neg (by omega), if_neg (by omega), hindex]

theorem exists_result {card : CardData} (h : Filled (frameBit (payload card)) 96 card) :
    ∃ r : BitVec 32, r.toNat = value (payload card) 26 ∧ decode card = dataOf r := by
  have hlt : value (payload card) 26 < 2 ^ 32 :=
    Nat.lt_trans (value_lt _ _) (by decide)
  have hr : (BitVec.ofNat 32 (value (payload card) 26)).toNat = value (payload card) 26 := by
    rw [BitVec.toNat_ofNat, Nat.mod_eq_of_lt hlt]
  refine ⟨_, hr, ?_⟩
  obtain ⟨r₁, h₁, h₂⟩ := Option.bind_eq_some_iff.mp
    ((readSymbols_bind card _).mpr ⟨((filled_iff card).mp h).2, hr⟩)
  rw [decode, decodeSymbols_of_readSymbols h₁, decodeSymbols_of_readSymbols h₂]

theorem decoded_of_encode (data : DecodedData) :
    canBeDecoded (encode data) = true ∧ decode (encode data) = data := by
  have hfilled := filled_encode data
  have hpayload : ∀ k < 26, payload (encode data) k = payloadOf data k := by
    intro k hk
    rw [payload, hfilled _ (by omega), frameBit_symbol]
  have hframe : Filled (frameBit (payload (encode data))) 96 (encode data) := by
    refine (filled_iff _).mpr ⟨fun p hp => ?_, fun k hk => ?_⟩
    · rw [hfilled p (by omega), frameBit, if_pos hp]
    · rw [hfilled _ (by omega), frameBit_complement, hpayload k hk]
  obtain ⟨r, hr, hdecode⟩ := exists_result hframe
  have hdata : ∀ i < 24, r.getLsbD (i + 1) = (fcCn data).getLsbD i := by
    intro i hi
    rw [getLsbD_result hr (by omega), hpayload _ (by omega), payloadOf_middle data hi]
  have hparities := (parities_iff hdata).mpr
    ⟨(getLsbD_result hr (by decide)).trans (hpayload 0 (by decide)),
      (getLsbD_result hr (by decide)).trans (hpayload 25 (by decide))⟩
  exact ⟨(canBeDecoded_iff _).mpr ⟨hframe, r, hr, hparities⟩, hdecode.trans (dataOf_eq hdata)⟩

theorem encode_decode (card : CardData) (h : canBeDecoded card = true) :
    encode (decode card) = card := by
  obtain ⟨hframe, r, hr, hparities⟩ := (canBeDecoded_iff card).mp h
  obtain ⟨r', hr', hdecode⟩ := exists_result hframe
  obtain rfl : r = r' := BitVec.eq_of_toNat_eq (hr.trans hr'.symm)
  have hdata : ∀ i < 24, r.getLsbD (i + 1) = (fcCn (decode card)).getLsbD i := by
    intro i hi
    rw [hdecode, getLsbD_fcCn_dataOf r hi]
  obtain ⟨h25, h0⟩ := (parities_iff hdata).mp hparities
  have hpayload : ∀ k < 26, payloadOf (decode card) k = payload card k := by
    intro k hk
    by_cases hfirst : k = 0
    · rw [hfirst, ← h25, getLsbD_result hr (by decide)]
    · by_cases hlast : k = 25
      · rw [hlast, ← h0, getLsbD_result hr (by decide)]
      · have hindex : 25 - (24 - k + 1) = k := by omega
        have hmiddle := payloadOf_middle (decode card) (i := 24 - k) (by omega)
        rw [hindex] at hmiddle
        rw [hmiddle, ← hdata _ (by omega), getLsbD_result hr (by omega), hindex]
  refine CardData.ext_bit fun p hp => ?_
  rw [filled_encode _ p hp, hframe p hp, frameBit, frameBit, hpayload _ (by omega)]

/-- The frames of all data are accepted and give the data back, and no other frames are accepted. -/
theorem h10301_codec : (∀ data, canBeDecoded (encode data) = true ∧ decode (encode data) = data) ∧
      ∀ card, canBeDecoded card = true → encode (decode card) = card :=
  ⟨decoded_of_encode, encode_decode⟩

end NikitaFirmware.LfRfid.H10301
