import NikitaFirmware.Toolbox.Varint

/-!
# Pairs of numbers

`lib/lfrfid/tools/varint_pair.c`. A pulse and its duration are packed one behind the other, each
with as many bytes as it needs.
-/

namespace NikitaFirmware.LfRfid
open Foundations Toolbox List

def varintPairSize : Nat := 10

structure VarintPair where
  dataLength : Nat
  data : Bytes

def VarintPair.alloc : VarintPair := ⟨0, List.replicate varintPairSize 0⟩

def VarintPair.reset (pair : VarintPair) : VarintPair := { pair with dataLength := 0 }

def VarintPair.pack (pair : VarintPair) (first : Bool) (value : UInt32) :
    Option (Bool × VarintPair) :=
  if first then
    if pair.dataLength = 0 then
      (varintUint32Pack value pair.data 0).map fun packed => (false, ⟨packed.2, packed.1⟩)
    else some (false, pair.reset)
  else if pair.dataLength ≠ 0 then
    (varintUint32Pack value pair.data pair.dataLength).map fun packed =>
      (true, ⟨pair.dataLength + packed.2, packed.1⟩)
  else some (false, pair)

def VarintPair.content (pair : VarintPair) : Bytes := pair.data.take pair.dataLength

def varintPairUnpack (data : Bytes) : Option ((UInt32 × UInt32) × Nat) :=
  let first := varintUint32Unpack data
  if data.length ≤ first.2 then none
  else
    let second := varintUint32Unpack (data.drop first.2)
    some ((first.1, second.1), first.2 + second.2)

def pairData (pulse duration : UInt32) : Option Bytes :=
  (VarintPair.alloc.pack true pulse).bind fun first =>
    (first.2.pack false duration).bind fun second =>
      if second.1 then some second.2.content else none

/-- The last byte, and no other, has bit 7 clear. -/
def IsNumber (bytes : Bytes) : Prop :=
  ∃ front last, bytes = front ++ [last] ∧ (∀ byte ∈ front, byte &&& 0x80 ≠ 0) ∧ last &&& 0x80 = 0

def IsCut (bytes : Bytes) : Prop := ∀ byte ∈ bytes, byte &&& 0x80 ≠ 0

def numberValue (bytes : Bytes) : UInt32 := (varintUint32Unpack bytes).1

theorem IsNumber.ne_nil {bytes : Bytes} (h : IsNumber bytes) : bytes ≠ [] := by
  obtain ⟨front, last, rfl, -, -⟩ := h
  exact append_ne_nil_of_right_ne_nil front (cons_ne_nil last [])

theorem isNumber_singleton {byte : UInt8} (h : byte &&& 0x80 = 0) : IsNumber [byte] :=
  ⟨[], byte, rfl, fun _ hmem => absurd hmem not_mem_nil, h⟩

theorem IsNumber.cons {byte : UInt8} {bytes : Bytes} (hbyte : byte &&& 0x80 ≠ 0)
    (h : IsNumber bytes) : IsNumber (byte :: bytes) := by
  obtain ⟨front, last, rfl, hfront, hlast⟩ := h
  exact ⟨byte :: front, last, rfl, forall_mem_cons.mpr ⟨hbyte, hfront⟩, hlast⟩

theorem cut_or_number (bytes : Bytes) :
    IsCut bytes ∨ ∃ number rest, bytes = number ++ rest ∧ IsNumber number := by
  induction bytes with
  | nil => exact .inl fun _ hmem => absurd hmem not_mem_nil
  | cons byte bytes ih =>
    by_cases hbyte : byte &&& 0x80 = 0
    · exact .inr ⟨[byte], bytes, rfl, isNumber_singleton hbyte⟩
    · rcases ih with hcut | ⟨number, rest, rfl, hnumber⟩
      · exact .inl (forall_mem_cons.mpr ⟨hbyte, hcut⟩)
      · exact .inr ⟨byte :: number, rest, rfl, hnumber.cons hbyte⟩

theorem not_isCut_append {number rest : Bytes} (h : IsNumber number) : ¬ IsCut (number ++ rest) := by
  obtain ⟨front, last, rfl, -, hlast⟩ := h
  exact fun hcut => hcut last (by simp) hlast

theorem IsNumber.append_inj {a b x y : Bytes} (ha : IsNumber a) (hb : IsNumber b)
    (h : a ++ x = b ++ y) : a = b ∧ x = y := by
  obtain ⟨front, last, rfl, hfront, hlast⟩ := ha
  induction front generalizing b with
  | nil =>
    obtain ⟨front', last', rfl, hfront', -⟩ := hb
    cases front' with
    | nil => simpa using h
    | cons byte front' =>
      have hbyte : last = byte := (List.cons.inj h).1
      exact absurd hlast (hbyte ▸ hfront' byte mem_cons_self)
  | cons byte front ih =>
    obtain ⟨front', last', rfl, hfront', hlast'⟩ := hb
    cases front' with
    | nil =>
      have hbyte : byte = last' := (List.cons.inj h).1
      exact absurd hlast' (hbyte ▸ hfront byte mem_cons_self)
    | cons byte' front' =>
      obtain ⟨rfl, htail⟩ := List.cons.inj h
      obtain ⟨heq, hrest⟩ := ih
        ⟨front', last', rfl, fun b hb => hfront' b (mem_cons_of_mem _ hb), hlast'⟩ htail
        fun b hb => hfront b (mem_cons_of_mem _ hb)
      exact ⟨congrArg (byte :: ·) heq, hrest⟩

theorem unpackLoop_number (front : Bytes) (last : UInt8) (rest : Bytes) (parsed : UInt32) (i : Nat)
    (hfront : ∀ byte ∈ front, byte &&& 0x80 ≠ 0) (hlast : last &&& 0x80 = 0) :
    unpackLoop parsed i (front ++ [last] ++ rest) =
      ((unpackLoop parsed i (front ++ [last])).1, i + (front ++ [last]).length) := by
  induction front generalizing parsed i with
  | nil =>
    rw [nil_append, singleton_append, unpackLoop, if_pos hlast, unpackLoop, if_pos hlast]
    rfl
  | cons byte front ih =>
    obtain ⟨hbyte, htail⟩ := forall_mem_cons.mp hfront
    rw [cons_append, cons_append, unpackLoop, if_neg hbyte, ih _ _ htail, unpackLoop,
      if_neg hbyte, length_cons]
    congr 1
    omega

theorem unpackLoop_cut (bytes : Bytes) (parsed : UInt32) (i : Nat) (h : IsCut bytes) :
    (unpackLoop parsed i bytes).2 = i + bytes.length + 1 := by
  induction bytes generalizing parsed i with
  | nil => rfl
  | cons byte bytes ih =>
    obtain ⟨hbyte, htail⟩ := forall_mem_cons.mp h
    rw [unpackLoop, if_neg hbyte, ih _ _ htail, length_cons]
    omega

theorem varintUint32Unpack_number {number : Bytes} (h : IsNumber number) (rest : Bytes) :
    varintUint32Unpack (number ++ rest) = (numberValue number, number.length) := by
  obtain ⟨front, last, rfl, hfront, hlast⟩ := h
  rw [varintUint32Unpack, unpackLoop_number front last rest 0 0 hfront hlast, Nat.zero_add]
  rfl

theorem varintUint32Unpack_cut {bytes : Bytes} (h : IsCut bytes) :
    (varintUint32Unpack bytes).2 = bytes.length + 1 := by
  rw [varintUint32Unpack, unpackLoop_cut bytes 0 0 h, Nat.zero_add]

theorem varintPairUnpack_pair {pulse duration : Bytes} (hpulse : IsNumber pulse)
    (hduration : IsNumber duration) (rest : Bytes) :
    varintPairUnpack (pulse ++ duration ++ rest) =
      some ((numberValue pulse, numberValue duration), (pulse ++ duration).length) := by
  have hlength : ¬ (pulse ++ (duration ++ rest)).length ≤ pulse.length := by
    have hpos := length_pos_of_ne_nil hduration.ne_nil
    simp only [length_append]
    omega
  rw [varintPairUnpack, append_assoc, varintUint32Unpack_number hpulse, if_neg hlength,
    drop_left, varintUint32Unpack_number hduration, length_append]

theorem varintPairUnpack_cut {bytes : Bytes} (h : IsCut bytes) : varintPairUnpack bytes = none := by
  rw [varintPairUnpack, varintUint32Unpack_cut h, if_pos (Nat.le_succ _)]

theorem varintPairUnpack_number {number : Bytes} (h : IsNumber number) :
    varintPairUnpack number = none := by
  have hunpack := varintUint32Unpack_number h []
  rw [append_nil] at hunpack
  rw [varintPairUnpack, hunpack, if_pos (Nat.le_refl _)]

theorem varintPairUnpack_number_cut {number cut : Bytes} (h : IsNumber number) (hne : cut ≠ [])
    (hcut : IsCut cut) :
    varintPairUnpack (number ++ cut) =
      some ((numberValue number, (varintUint32Unpack cut).1), (number ++ cut).length + 1) := by
  have hlength : ¬ (number ++ cut).length ≤ number.length := by
    have hpos := length_pos_of_ne_nil hne
    rw [length_append]
    omega
  rw [varintPairUnpack, varintUint32Unpack_number h, if_neg hlength, drop_left]
  change some (_, number.length + (varintUint32Unpack cut).2) = _
  rw [varintUint32Unpack_cut hcut, length_append, Nat.add_assoc]

inductive PairsOf : Bytes → List (UInt32 × UInt32) → Prop
  | nil : PairsOf [] []
  | cons {pulse duration data : Bytes} {pairs : List (UInt32 × UInt32)} (hpulse : IsNumber pulse)
      (hduration : IsNumber duration) (h : PairsOf data pairs) :
      PairsOf (pulse ++ duration ++ data) ((numberValue pulse, numberValue duration) :: pairs)

/-- What is left behind the pairs at the front of a buffer. -/
inductive Remainder : Bytes → Prop
  | nothing : Remainder []
  | cut {bytes : Bytes} (hne : bytes ≠ []) (h : IsCut bytes) : Remainder bytes
  | number {bytes : Bytes} (h : IsNumber bytes) : Remainder bytes
  | numberCut {number cut : Bytes} (h : IsNumber number) (hne : cut ≠ []) (hcut : IsCut cut) :
      Remainder (number ++ cut)

theorem exists_pairsOf (data : Bytes) :
    ∃ whole pairs rest, data = whole ++ rest ∧ PairsOf whole pairs ∧ Remainder rest := by
  induction hn : data.length using Nat.strongRecOn generalizing data with
  | ind n ih =>
    rcases cut_or_number data with hcut | ⟨pulse, behind, rfl, hpulse⟩
    · by_cases hne : data = []
      · exact ⟨[], [], [], by rw [hne, append_nil], .nil, .nothing⟩
      · exact ⟨[], [], data, rfl, .nil, .cut hne hcut⟩
    · rcases cut_or_number behind with hcut | ⟨duration, behind, rfl, hduration⟩
      · by_cases hne : behind = []
        · exact ⟨[], [], pulse, by rw [hne, append_nil, nil_append], .nil, .number hpulse⟩
        · exact ⟨[], [], pulse ++ behind, rfl, .nil, .numberCut hpulse hne hcut⟩
      · have hpos := length_pos_of_ne_nil hpulse.ne_nil
        have hlt : behind.length < n := by
          simp only [length_append] at hn
          omega
        obtain ⟨whole, pairs, rest, rfl, hpairs, hrest⟩ := ih _ hlt behind rfl
        exact ⟨pulse ++ duration ++ whole, _, rest, by simp only [append_assoc],
          .cons hpulse hduration hpairs, hrest⟩

theorem PairsOf.ne_nil {data : Bytes} {pairs : List (UInt32 × UInt32)} (h : PairsOf data pairs)
    (hne : data ≠ []) : pairs ≠ [] := by
  cases h with
  | nil => exact absurd rfl hne
  | cons => exact cons_ne_nil _ _

theorem PairsOf.data_ne_nil {data : Bytes} {pairs : List (UInt32 × UInt32)} (h : PairsOf data pairs)
    (hne : pairs ≠ []) : data ≠ [] := by
  cases h with
  | nil => exact absurd rfl hne
  | cons hpulse _ _ =>
    rw [append_assoc]
    exact append_ne_nil_of_left_ne_nil hpulse.ne_nil _

theorem PairsOf.not_numberCut {whole number cut : Bytes} {pairs all : List (UInt32 × UInt32)}
    (hwhole : PairsOf whole pairs) (hnumber : IsNumber number) (hne : cut ≠ []) (hcut : IsCut cut) :
    ¬ PairsOf (whole ++ (number ++ cut)) all := by
  intro h
  induction hwhole generalizing all with
  | nil =>
    rw [nil_append] at h
    generalize hdata : number ++ cut = data at h
    cases h with
    | nil => exact hnumber.ne_nil (append_eq_nil_iff.mp hdata).1
    | cons hpulse hduration _ =>
      rw [append_assoc] at hdata
      obtain ⟨-, hrest⟩ := hnumber.append_inj hpulse hdata
      exact not_isCut_append hduration (hrest ▸ hcut)
  | @cons pulse duration data pairs hpulse hduration _ ih =>
    generalize hbytes : pulse ++ duration ++ data ++ (number ++ cut) = bytes at h
    cases h with
    | nil => exact hpulse.ne_nil (by simp_all)
    | cons hpulse' hduration' hrest =>
      rw [append_assoc, append_assoc, append_assoc] at hbytes
      obtain ⟨-, hbehind⟩ := hpulse.append_inj hpulse' hbytes
      obtain ⟨-, hrest'⟩ := hduration.append_inj hduration' hbehind
      exact ih (hrest' ▸ hrest)

theorem isNumber_varintBytes (value : UInt32) : IsNumber (varintBytes value) := by
  induction value using group_induction with
  | last value h =>
    rw [varintBytes_of_lt h]
    refine isNumber_singleton ((and_high_eq_zero _).mpr ?_)
    rw [le_iff_toNat] at h
    rw [UInt32.toNat_toUInt8]
    omega
  | more value h ih =>
    rw [varintBytes_of_le h]
    refine ih.cons fun hzero => ?_
    have hlt := (and_high_eq_zero _).mp hzero
    rw [toNat_more] at hlt
    omega

theorem numberValue_varintBytes (value : UInt32) : numberValue (varintBytes value) = value := by
  have hunpack := varintUint32Unpack_eq value []
  rw [append_nil] at hunpack
  rw [numberValue, hunpack]

theorem length_varintBytes_le (value : UInt32) (groups : Nat)
    (h : value.toNat < 128 ^ (groups + 1)) : (varintBytes value).length ≤ groups + 1 := by
  induction value using group_induction generalizing groups with
  | last value hlt =>
    rw [varintBytes_of_lt hlt, length_singleton]
    omega
  | more value hle ih =>
    rw [varintBytes_of_le hle, length_cons]
    cases groups with
    | zero =>
      rw [le_iff_toNat] at hle
      omega
    | succ groups =>
      have hnext := ih groups (by
        rw [toNat_shiftRight_seven]
        rw [Nat.pow_succ] at h
        omega)
      omega

theorem length_varintBytes_le_five (value : UInt32) : (varintBytes value).length ≤ 5 :=
  length_varintBytes_le value 4 (Nat.lt_of_lt_of_le value.toNat_lt (by decide))

theorem pairData_eq (pulse duration : UInt32) :
    pairData pulse duration = some (varintBytes pulse ++ varintBytes duration) := by
  have hpulse := length_varintBytes_le_five pulse
  have hduration := length_varintBytes_le_five duration
  have hpos := length_pos_of_ne_nil (isNumber_varintBytes pulse).ne_nil
  have hcells : VarintPair.alloc.data.length = 10 := rfl
  obtain ⟨data, hfirst, hlength, -⟩ := @Cells.exists_write _
    VarintPair.alloc.data (varintBytes pulse) 0 (by omega)
  obtain ⟨data', hsecond, -, htake⟩ := @Cells.exists_write _
    data (varintBytes duration) (varintBytes pulse).length (by omega)
  have hpack : VarintPair.alloc.pack true pulse =
      some (false, ⟨(varintBytes pulse).length, data⟩) := by
    rw [VarintPair.pack, if_pos rfl, if_pos (by rfl), varintUint32Pack_eq, hfirst]
    rfl
  have hpack' : VarintPair.pack ⟨(varintBytes pulse).length, data⟩ false duration =
      some (true, ⟨(varintBytes pulse).length + (varintBytes duration).length, data'⟩) := by
    rw [VarintPair.pack, if_neg Bool.false_ne_true, if_pos (by exact Nat.ne_of_gt hpos),
      varintUint32Pack_eq, hsecond]
    rfl
  have hfront := Cells.drop_of_write hfirst
  rw [drop_zero] at hfront
  rw [pairData, hpack, Option.bind_some, hpack', Option.bind_some, if_pos rfl, VarintPair.content,
    htake, hfront, take_left]

theorem pairsOf_varintBytes (pairs : List (UInt32 × UInt32)) :
    PairsOf (pairs.flatMap fun pair => varintBytes pair.1 ++ varintBytes pair.2) pairs := by
  induction pairs with
  | nil => exact .nil
  | cons pair pairs ih =>
    have hcons := PairsOf.cons (isNumber_varintBytes pair.1) (isNumber_varintBytes pair.2) ih
    rw [numberValue_varintBytes, numberValue_varintBytes] at hcons
    exact hcons

end NikitaFirmware.LfRfid
