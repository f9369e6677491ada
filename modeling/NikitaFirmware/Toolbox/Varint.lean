import Mathlib.Data.Nat.Bitwise
import NikitaFirmware.Foundations.Checked

/-!
# Numbers of variable length

`lib/toolbox/varint.c`. An unsigned number is written as groups of seven bits, the lowest first,
with bit 7 set in every byte but the last. A signed number is first folded into an unsigned one, a
negative one becoming odd. The arithmetic on signed numbers wraps around.
-/

namespace NikitaFirmware.Toolbox
open Foundations List Option

theorem le_iff_toNat {value : UInt32} : 0x80 ≤ value ↔ 128 ≤ value.toNat :=
  UInt32.le_iff_toNat_le

theorem toNat_shiftRight_seven (value : UInt32) : (value >>> 7).toNat = value.toNat / 128 := by
  rw [UInt32.toNat_shiftRight, Nat.shiftRight_eq_div_pow]
  rfl

theorem toNat_shiftRight_lt {value : UInt32} (h : 0x80 ≤ value) :
    (value >>> 7).toNat < value.toNat := by
  have hle := le_iff_toNat.mp h
  rw [toNat_shiftRight_seven]
  omega

/-- The loop of `varint_uint32_pack`: the array it writes to, and where `output` points in it. -/
def packLoop (value : UInt32) (output : Bytes) (pos : Nat) : Option (Bytes × Nat) :=
  if 0x80 ≤ value then
    (Cells.write output pos [(value ||| 0x80).toUInt8]).bind fun output =>
      packLoop (value >>> 7) output (pos + 1)
  else (Cells.write output pos [value.toUInt8]).map fun output => (output, pos + 1)
termination_by value.toNat
decreasing_by exact toNat_shiftRight_lt ‹_›

/-- `varint_uint32_pack` at an offset of an array: the array, and how many bytes were written. -/
def varintUint32Pack (value : UInt32) (output : Bytes) (start : Nat) : Option (Bytes × Nat) :=
  (packLoop value output start).map fun packed => (packed.1, packed.2 - start)

/-- The loop of `varint_uint32_unpack`. A shift by 32 or more, which C leaves open, gives zero. -/
def unpackLoop (parsed : UInt32) (i : Nat) : Bytes → UInt32 × Nat
  | [] => (parsed, i + 1)
  | byte :: input =>
    let parsed := parsed ||| UInt32.ofNat ((byte &&& 0x7F).toNat <<< (7 * i))
    if byte &&& 0x80 = 0 then (parsed, i + 1) else unpackLoop parsed (i + 1) input

def varintUint32Unpack (input : Bytes) : UInt32 × Nat := unpackLoop 0 0 input

def lengthLoop (value : UInt32) (size : Nat) : Nat :=
  if 0x80 ≤ value then lengthLoop (value >>> 7) (size + 1) else size + 1
termination_by value.toNat
decreasing_by exact toNat_shiftRight_lt ‹_›

def varintUint32Length (value : UInt32) : Nat := lengthLoop value 0

/-- The unsigned number that stands for a signed one. -/
def toUnsigned (value : Int32) : UInt32 :=
  if 0 ≤ value then (value * 2).toUInt32 else (value * (-2) - 1).toUInt32

/-- The signed number that `varint_int32_unpack` makes of an unsigned one. -/
def toSigned (v : UInt32) : Int32 :=
  if v &&& 1 ≠ 0 then (v + 1).toInt32 / (-2) else (v / 2).toInt32

def varintInt32Pack (value : Int32) (output : Bytes) (start : Nat) : Option (Bytes × Nat) :=
  varintUint32Pack (toUnsigned value) output start

def varintInt32Unpack (input : Bytes) : Int32 × Nat :=
  (toSigned (varintUint32Unpack input).1, (varintUint32Unpack input).2)

def varintInt32Length (value : Int32) : Nat := varintUint32Length (toUnsigned value)

/-- Packing values one after the other, each behind the one before it. -/
def packAll : List Int32 → Bytes → Nat → Option (Bytes × Nat)
  | [], output, start => some (output, start)
  | value :: values, output, start =>
    (varintInt32Pack value output start).bind fun packed =>
      packAll values packed.1 (start + packed.2)

/-- Unpacking a number of values one after the other. -/
def unpackAll : Nat → Bytes → List Int32
  | 0, _ => []
  | n + 1, input =>
    (varintInt32Unpack input).1 :: unpackAll n (input.drop (varintInt32Unpack input).2)

def varintBytes (value : UInt32) : Bytes :=
  if 0x80 ≤ value then (value ||| 0x80).toUInt8 :: varintBytes (value >>> 7)
  else [value.toUInt8]
termination_by value.toNat
decreasing_by exact toNat_shiftRight_lt ‹_›

theorem varintBytes_of_le {value : UInt32} (h : 0x80 ≤ value) :
    varintBytes value = (value ||| 0x80).toUInt8 :: varintBytes (value >>> 7) := by
  rw [varintBytes, if_pos h]

theorem varintBytes_of_lt {value : UInt32} (h : ¬ 0x80 ≤ value) :
    varintBytes value = [value.toUInt8] := by
  rw [varintBytes, if_neg h]

theorem group_induction {motive : UInt32 → Prop}
    (last : ∀ value : UInt32, ¬ 0x80 ≤ value → motive value)
    (more : ∀ value : UInt32, 0x80 ≤ value → motive (value >>> 7) → motive value) (value : UInt32) :
    motive value := by
  induction h : value.toNat using Nat.strongRecOn generalizing value with
  | ind n ih =>
    by_cases hle : 0x80 ≤ value
    · exact more value hle (ih _ (h ▸ toNat_shiftRight_lt hle) _ rfl)
    · exact last value hle

theorem lengthLoop_eq (value : UInt32) (size : Nat) :
    lengthLoop value size = size + (varintBytes value).length := by
  induction value using group_induction generalizing size with
  | last value h => rw [lengthLoop, if_neg h, varintBytes_of_lt h, length_singleton]
  | more value h ih =>
    rw [lengthLoop, if_pos h, ih, varintBytes_of_le h, length_cons]
    omega

theorem varintUint32Length_eq (value : UInt32) :
    varintUint32Length value = (varintBytes value).length := by
  rw [varintUint32Length, lengthLoop_eq, Nat.zero_add]

theorem packLoop_eq (value : UInt32) (output : Bytes) (pos : Nat) :
    packLoop value output pos = (Cells.write output pos (varintBytes value)).map fun output =>
      (output, pos + (varintBytes value).length) := by
  induction value using group_induction generalizing output pos with
  | last value h => rw [packLoop, if_neg h, varintBytes_of_lt h, length_singleton]
  | more value h ih =>
    rw [packLoop, if_pos h, varintBytes_of_le h]
    rw [Cells.write_cons output pos _ (varintBytes (value >>> 7)), map_bind]
    congr 1
    funext output
    rw [ih, Function.comp_apply, length_cons, Nat.add_assoc,
      Nat.add_comm (varintBytes (value >>> 7)).length]

theorem varintUint32Pack_eq (value : UInt32) (output : Bytes) (start : Nat) :
    varintUint32Pack value output start =
      (Cells.write output start (varintBytes value)).map fun output =>
        (output, (varintBytes value).length) := by
  rw [varintUint32Pack, packLoop_eq, Option.map_map]
  congr 1
  funext output
  rw [Function.comp_apply, Nat.add_sub_cancel_left]

theorem toNat_and_low {byte : UInt8} {n : Nat} (h : byte.toNat % 128 = n) :
    (byte &&& 0x7F).toNat = n := by
  rw [UInt8.toNat_and, ← h]
  exact Nat.and_two_pow_sub_one_eq_mod byte.toNat 7

theorem toNat_more (value : UInt32) : (value ||| 0x80).toUInt8.toNat = value.toNat % 128 + 128 := by
  have hbyte : ∀ n : Fin 256, n.val ||| 128 = n.val % 128 + 128 := by decide +kernel
  have hmod : (value.toNat ||| 128) % 256 = value.toNat % 256 ||| 128 :=
    Nat.or_mod_two_pow (n := 8)
  have hn := hbyte ⟨value.toNat % 256, Nat.mod_lt _ (by decide)⟩
  rw [UInt32.toNat_toUInt8, UInt32.toNat_or]
  show (value.toNat ||| 128) % 256 = _
  rw [hmod, hn]
  show value.toNat % 256 % 128 + 128 = _
  omega

theorem and_high_eq_zero (byte : UInt8) : byte &&& 0x80 = 0 ↔ byte.toNat < 128 := by
  cases byte with | ofBitVec byte =>
  cases byte with | ofFin byte =>
  revert byte
  decide +kernel

theorem or_shiftLeft (v i : Nat) :
    (v % 128) <<< (7 * i) ||| (v / 128) <<< (7 * (i + 1)) = v <<< (7 * i) := by
  have hlow : v % 128 < 2 ^ 7 := Nat.mod_lt v (by decide)
  have hjoin : (v / 128) <<< 7 ||| v % 128 = v := by
    rw [Nat.shiftLeft_eq, Nat.mul_comm, ← Nat.two_pow_add_eq_or_of_lt hlow]
    omega
  rw [Nat.mul_succ, Nat.add_comm, Nat.shiftLeft_add, ← Nat.shiftLeft_or_distrib, Nat.or_comm, hjoin]

theorem unpackLoop_eq (value parsed : UInt32) (i : Nat) (rest : Bytes) :
    unpackLoop parsed i (varintBytes value ++ rest) =
      (parsed ||| UInt32.ofNat (value.toNat <<< (7 * i)), i + (varintBytes value).length) := by
  induction value using group_induction generalizing parsed i with
  | last value h =>
    have hlt : value.toNat < 128 := Nat.lt_of_not_le fun hle => h (le_iff_toNat.mpr hle)
    have hbyte : value.toUInt8.toNat = value.toNat := by
      rw [UInt32.toNat_toUInt8]
      omega
    rw [varintBytes_of_lt h, singleton_append, unpackLoop,
      if_pos ((and_high_eq_zero _).mpr (hbyte ▸ hlt)), toNat_and_low (n := value.toNat) (by omega)]
    rfl
  | more value h ih =>
    have hmore := toNat_more value
    have hhigh : ¬ (value ||| 0x80).toUInt8 &&& 0x80 = 0 := by
      rw [and_high_eq_zero, hmore]
      omega
    rw [varintBytes_of_le h, cons_append, unpackLoop, if_neg hhigh, ih,
      toNat_and_low (n := value.toNat % 128) (by omega), UInt32.or_assoc, ← UInt32.ofNat_or,
      toNat_shiftRight_seven, or_shiftLeft, length_cons]
    congr 1
    omega

theorem varintUint32Unpack_eq (value : UInt32) (rest : Bytes) :
    varintUint32Unpack (varintBytes value ++ rest) = (value, (varintBytes value).length) := by
  rw [varintUint32Unpack, unpackLoop_eq, Nat.mul_zero, Nat.shiftLeft_zero, UInt32.ofNat_toNat,
    UInt32.zero_or, Nat.zero_add]

/-- The amounts by which the loop of `varint_uint32_unpack` shifts. -/
def unpackShifts (i : Nat) : Bytes → List Nat
  | [] => []
  | byte :: input =>
    7 * i :: if byte &&& 0x80 = 0 then [] else unpackShifts (i + 1) input

/-- The loop stays within the input and within a word. -/
def UnpackInBounds (parsed : UInt32) (i : Nat) (input : Bytes) : Prop :=
  (unpackLoop parsed i input).2 ≤ i + input.length ∧ ∀ shift ∈ unpackShifts i input, shift < 32

theorem unpackInBounds_last {byte : UInt8} (h : byte &&& 0x80 = 0) (parsed : UInt32) (i : Nat)
    (input : Bytes) : UnpackInBounds parsed i (byte :: input) ↔ 7 * i < 32 := by
  rw [UnpackInBounds, unpackLoop, unpackShifts, if_pos h, if_pos h, forall_mem_cons, length_cons]
  constructor
  · rintro ⟨-, hshift, -⟩
    exact hshift
  · intro hshift
    refine ⟨?_, hshift, fun _ hmem => absurd hmem not_mem_nil⟩
    show i + 1 ≤ i + (input.length + 1)
    omega

theorem unpackInBounds_more {byte : UInt8} (h : ¬ byte &&& 0x80 = 0) (parsed : UInt32) (i : Nat)
    (input : Bytes) :
    UnpackInBounds parsed i (byte :: input) ↔ 7 * i < 32 ∧
      UnpackInBounds (parsed ||| UInt32.ofNat ((byte &&& 0x7F).toNat <<< (7 * i))) (i + 1)
        input := by
  rw [UnpackInBounds, UnpackInBounds, unpackLoop, unpackShifts, if_neg h, if_neg h,
    forall_mem_cons, length_cons, Nat.add_right_comm i 1 input.length,
    Nat.add_assoc i input.length 1]
  exact and_left_comm

theorem unpackInBounds_iff (parsed : UInt32) (i : Nat) (input : Bytes) :
    UnpackInBounds parsed i input ↔ ∃ byte ∈ input.take (5 - i), byte &&& 0x80 = 0 := by
  induction input generalizing parsed i with
  | nil =>
    refine iff_of_false (fun hbounds => ?_) (fun ⟨_, hmem, _⟩ => ?_)
    · exact absurd hbounds.1 (Nat.not_succ_le_self i)
    · rw [take_nil] at hmem
      exact absurd hmem not_mem_nil
  | cons byte input ih =>
    by_cases hi : i < 5
    · have hshift : 7 * i < 32 := by omega
      have htake : (byte :: input).take (5 - i) = byte :: input.take (5 - (i + 1)) := by
        rw [show 5 - i = 5 - (i + 1) + 1 by omega, take_succ_cons]
      rw [htake, exists_mem_cons_iff]
      by_cases h : byte &&& 0x80 = 0
      · rw [unpackInBounds_last h]
        exact iff_of_true hshift (.inl h)
      · rw [unpackInBounds_more h, ih, or_iff_right h, and_iff_right hshift]
    · have hshift : ¬ 7 * i < 32 := by omega
      have htake : (byte :: input).take (5 - i) = [] := by
        rw [show 5 - i = 0 by omega, take_zero]
      rw [htake]
      refine iff_of_false (fun hbounds => hshift ?_) (fun ⟨_, hmem, _⟩ =>
        absurd hmem not_mem_nil)
      by_cases h : byte &&& 0x80 = 0
      · exact (unpackInBounds_last h parsed i input).mp hbounds
      · exact ((unpackInBounds_more h parsed i input).mp hbounds).1

/-- Unpacking takes no more than it is given, and shifts within a word, exactly when one of the
first five bytes ends the number. What packing wrote is read back, whatever follows it. -/
theorem varintUint32Unpack_inBounds (input : Bytes) :
    (((varintUint32Unpack input).2 ≤ input.length ∧ ∀ shift ∈ unpackShifts 0 input, shift < 32) ↔
      ∃ byte ∈ input.take 5, byte &&& 0x80 = 0) ∧
    ∀ (value : UInt32) (output packed : Bytes) (start size inputSize : Nat),
      varintUint32Pack value output start = some (packed, size) → size ≤ inputSize →
      varintUint32Unpack ((packed.drop start).take inputSize) =
        (value, varintUint32Length value) := by
  constructor
  · have hbounds := unpackInBounds_iff 0 0 input
    rwa [UnpackInBounds, Nat.zero_add] at hbounds
  · intro value output packed start size inputSize hpack hsize
    rw [varintUint32Pack_eq] at hpack
    obtain ⟨output', hwrite, heq⟩ := map_eq_some_iff.mp hpack
    obtain ⟨rfl, rfl⟩ := Prod.mk.inj heq
    rw [Cells.drop_of_write hwrite, take_append, take_of_length_le hsize,
      varintUint32Unpack_eq, varintUint32Length_eq]

theorem varintUint32Unpack_inBounds_twoBytes :
    varintUint32Pack 300 [0, 0, 0, 0] 1 = some ([0, 0xAC, 2, 0], 2) ∧
      varintUint32Unpack (([0, 0xAC, 2, 0] : Bytes).drop 1 |>.take 3) =
        (300, varintUint32Length 300) := by
  have hpack : varintUint32Pack 300 [0, 0, 0, 0] 1 = some ([0, 0xAC, 2, 0], 2) := by
    rw [varintUint32Pack_eq, varintBytes_of_le (by decide), varintBytes_of_lt (by decide)]
    rfl
  exact ⟨hpack, (varintUint32Unpack_inBounds [0xAC, 2]).2 300 [0, 0, 0, 0] [0, 0xAC, 2, 0] 1 2 3
    hpack (by decide)⟩

/-- A single byte that announces more is said to be two bytes. -/
theorem varintUint32Unpack_unterminated :
    ¬ ∀ input : Bytes, (varintUint32Unpack input).2 ≤ input.length ∧
      ∀ shift ∈ unpackShifts 0 input, shift < 32 :=
  fun h => absurd (h [0x80]).1 (by decide)

theorem toInt_eq_of_word (value : Int32) :
    value.toInt = if 2 * value.toUInt32.toNat < 4294967296 then (value.toUInt32.toNat : Int)
      else (value.toUInt32.toNat : Int) - 4294967296 := by
  rw [← Int32.toInt_toBitVec, BitVec.toInt_eq_toNat_cond]
  rfl

theorem toNat_toUnsigned (value : Int32) : ((toUnsigned value).toNat : Int) =
      if 0 ≤ value.toInt then 2 * value.toInt else -2 * value.toInt - 1 := by
  have hnonneg : 0 ≤ value ↔ 0 ≤ value.toInt := Int32.le_iff_toInt_le
  have hlow := value.le_toInt
  have hhigh := value.toInt_lt
  by_cases h : 0 ≤ value.toInt
  · have hword := toInt_eq_of_word (value * 2)
    have hmul : (value * 2).toInt = (value.toInt * 2).bmod 4294967296 := Int32.toInt_mul value 2
    rw [toUnsigned, if_pos (hnonneg.mpr h), if_pos h]
    rw [hmul, Int.bmod_def] at hword
    have hlt := (value * 2).toUInt32.toNat_lt
    split at hword <;> split at hword <;> omega
  · have hword := toInt_eq_of_word (value * (-2) - 1)
    have hmul : (value * (-2)).toInt = (value.toInt * (-2)).bmod 4294967296 :=
      Int32.toInt_mul value (-2)
    have hsub : (value * (-2) - 1).toInt = ((value * (-2)).toInt - 1).bmod 4294967296 :=
      Int32.toInt_sub _ 1
    rw [toUnsigned, if_neg (fun hle => h (hnonneg.mp hle)), if_neg h]
    rw [hsub, hmul, Int.bmod_sub_bmod, Int.bmod_def] at hword
    have hlt := (value * (-2) - 1).toUInt32.toNat_lt
    split at hword <;> split at hword <;> omega

theorem and_one_ne_zero (v : UInt32) : v &&& 1 ≠ 0 ↔ v.toNat % 2 = 1 := by
  rw [Ne, ← UInt32.toNat_inj, UInt32.toNat_and]
  show ¬ v.toNat &&& 1 = 0 ↔ _
  rw [Nat.and_one_is_mod]
  omega

theorem toInt_toSigned_of_even {v : UInt32} (h : v.toNat % 2 = 0) :
    (toSigned v).toInt = v.toNat / 2 := by
  have hodd : ¬ v &&& 1 ≠ 0 := fun hne => by
    have := (and_one_ne_zero v).mp hne
    omega
  have hdiv : (v / 2).toNat = v.toNat / 2 := UInt32.toNat_div v 2
  have hlt := v.toNat_lt
  rw [toSigned, if_neg hodd, toInt_eq_of_word, UInt32.toUInt32_toInt32, hdiv, if_pos (by omega)]
  rfl

theorem toInt_toSigned_of_odd {v : UInt32} (h : v.toNat % 2 = 1) :
    (toSigned v).toInt = (v + 1).toInt32.toInt.tdiv (-2) := by
  rw [toSigned, if_pos ((and_one_ne_zero v).mpr h)]
  exact Int32.toInt_div_of_ne_right _ _ (by decide)

theorem toSigned_toUnsigned (value : Int32) :
    toSigned (toUnsigned value) = value ↔ (-1073741824 : Int) < value.toInt := by
  have hnat := toNat_toUnsigned value
  have hlow := value.le_toInt
  have hhigh := value.toInt_lt
  rw [← Int32.toInt_inj]
  by_cases h : 0 ≤ value.toInt
  · rw [if_pos h] at hnat
    rw [toInt_toSigned_of_even (by omega)]
    omega
  · rw [if_neg h] at hnat
    rw [toInt_toSigned_of_odd (by omega)]
    have hword := toInt_eq_of_word (toUnsigned value + 1).toInt32
    have hsucc : (toUnsigned value + 1).toNat = ((toUnsigned value).toNat + 1) % 4294967296 :=
      UInt32.toNat_add _ 1
    rw [UInt32.toUInt32_toInt32, hsucc] at hword
    by_cases hfits : (-1073741824 : Int) < value.toInt
    · have heq : (toUnsigned value + 1).toInt32.toInt = -2 * value.toInt := by omega
      rw [heq, Int.mul_tdiv_cancel_left _ (by decide)]
      exact iff_of_true rfl hfits
    · refine iff_of_false (fun heq => ?_) hfits
      by_cases hmin : value.toInt = -2147483648
      · have hzero : (toUnsigned value + 1).toInt32.toInt = 0 := by omega
        rw [hzero, hmin] at heq
        cases heq
      · have hdouble : (toUnsigned value + 1).toInt32.toInt = -2 * (value.toInt + 2147483648) := by
          omega
        rw [hdouble, Int.mul_tdiv_cancel_left _ (by decide)] at heq
        omega

theorem varintInt32Length_eq (value : Int32) :
    varintInt32Length value = (varintBytes (toUnsigned value)).length := varintUint32Length_eq _

theorem varintInt32Unpack_eq (value : Int32) (rest : Bytes) :
    varintInt32Unpack (varintBytes (toUnsigned value) ++ rest) =
      (toSigned (toUnsigned value), varintInt32Length value) := by
  rw [varintInt32Unpack, varintUint32Unpack_eq, varintInt32Length_eq]

theorem packAll_eq (values : List Int32) (output : Bytes) (start : Nat)
    (h : start + (values.map varintInt32Length).sum ≤ output.length) :
    packAll values output start =
      (Cells.write output start (values.flatMap fun value => varintBytes (toUnsigned value))).map
        fun output => (output, start + (values.map varintInt32Length).sum) := by
  induction values generalizing output start with
  | nil =>
    rw [flatMap_nil, Cells.write_of_le (Nat.le_trans (Nat.le_add_right _ _) h)]
    simp only [packAll, append_nil, length_nil, Nat.add_zero, take_append_drop,
      map_some, map_nil, sum_nil]
  | cons value values ih =>
    rw [map_cons, sum_cons, varintInt32Length_eq] at h
    have hfits : start + (varintBytes (toUnsigned value)).length ≤ output.length := by omega
    obtain ⟨output', hwrite, hlen, -⟩ := Cells.exists_write hfits
    have hrest : start + (varintBytes (toUnsigned value)).length +
        (values.map varintInt32Length).sum ≤ output'.length := by omega
    rw [packAll, varintInt32Pack, varintUint32Pack_eq, hwrite, map_some, bind_some,
      ih _ _ hrest, flatMap_cons, Cells.write_append, hwrite, bind_some, map_cons,
      sum_cons, varintInt32Length_eq, Nat.add_assoc]

theorem unpackAll_eq (values : List Int32)
    (h : ∀ value ∈ values, (-1073741824 : Int) < value.toInt) (rest : Bytes) :
    unpackAll values.length
      ((values.flatMap fun value => varintBytes (toUnsigned value)) ++ rest) = values := by
  induction values with
  | nil => rfl
  | cons value values ih =>
    obtain ⟨hvalue, hvalues⟩ := forall_mem_cons.mp h
    rw [flatMap_cons, append_assoc, length_cons, unpackAll, varintInt32Unpack_eq]
    rw [(toSigned_toUnsigned value).mpr hvalue, varintInt32Length_eq, drop_left, ih hvalues]

/-- A packed value takes `varint_int32_length` bytes and no others change. Unpacking finds that
length, and the value when it is above `INT32_MIN / 2`; such values are read back in a row. -/
theorem varintInt32_roundTrip : (∀ (value : Int32) (output : Bytes) (start : Nat),
      start + varintInt32Length value ≤ output.length →
      ∃ output', varintInt32Pack value output start = some (output', varintInt32Length value) ∧
        output'.length = output.length ∧ output'.take start = output.take start ∧
        output'.drop (start + varintInt32Length value) =
          output.drop (start + varintInt32Length value) ∧
        ∀ inputSize, varintInt32Length value ≤ inputSize →
          (varintInt32Unpack ((output'.drop start).take inputSize)).2 = varintInt32Length value ∧
          ((varintInt32Unpack ((output'.drop start).take inputSize)).1 = value ↔
            (-1073741824 : Int) < value.toInt)) ∧
    ∀ values : List Int32, (∀ value ∈ values, (-1073741824 : Int) < value.toInt) →
      ∀ (output : Bytes) (start : Nat), start + (values.map varintInt32Length).sum ≤ output.length →
        ∃ output', packAll values output start =
            some (output', start + (values.map varintInt32Length).sum) ∧
          unpackAll values.length (output'.drop start) = values := by
  constructor
  · intro value output start h
    have hlength := varintInt32Length_eq value
    obtain ⟨output', hwrite, hlen, -⟩ := Cells.exists_write (hlength ▸ h)
    have hdrop := Cells.drop_of_write hwrite
    refine ⟨output', ?_, hlen, Cells.take_of_write hwrite, ?_, fun inputSize hsize => ?_⟩
    · rw [varintInt32Pack, varintUint32Pack_eq, hwrite, map_some, hlength]
    · rw [hlength, ← drop_drop, hdrop, drop_left]
    · rw [hlength] at hsize
      rw [hdrop, take_append, take_of_length_le hsize, varintInt32Unpack_eq]
      exact ⟨rfl, toSigned_toUnsigned value⟩
  · intro values hvalues output start h
    have hlength : (values.flatMap fun value => varintBytes (toUnsigned value)).length =
        (values.map varintInt32Length).sum := by
      rw [length_flatMap, map_congr_left fun value _ => varintInt32Length_eq value]
    obtain ⟨output', hwrite, -, -⟩ := Cells.exists_write (hlength ▸ h)
    refine ⟨output', ?_, ?_⟩
    · rw [packAll_eq values output start h, hwrite, map_some]
    · rw [Cells.drop_of_write hwrite]
      exact unpackAll_eq values hvalues _

example : unpackAll 3 [0x05, 0xD8, 0x04, 0xE0, 0xC5, 0x08] = [-3, 300, 70000] := by decide

theorem varintBytes_maximum : varintBytes 0xFFFFFFFF = [0xFF, 0xFF, 0xFF, 0xFF, 0x0F] := by
  rw [varintBytes_of_le (by decide), varintBytes_of_le (by decide), varintBytes_of_le (by decide),
    varintBytes_of_le (by decide), varintBytes_of_lt (by decide)]
  decide

/-- `INT32_MIN` is packed into five bytes, which are read as zero. -/
theorem varintInt32_minimum : varintInt32Length Int32.minValue = 5 ∧
      ∃ output, varintInt32Pack Int32.minValue [0, 0, 0, 0, 0] 0 = some (output, 5) ∧
        varintInt32Unpack output = (0, 5) := by
  have hbytes : varintBytes (toUnsigned Int32.minValue) = [0xFF, 0xFF, 0xFF, 0xFF, 0x0F] :=
    varintBytes_maximum
  refine ⟨?_, [0xFF, 0xFF, 0xFF, 0xFF, 0x0F], ?_, by decide⟩
  · rw [varintInt32Length_eq, hbytes]
    rfl
  · rw [varintInt32Pack, varintUint32Pack_eq, hbytes]
    rfl

end NikitaFirmware.Toolbox
