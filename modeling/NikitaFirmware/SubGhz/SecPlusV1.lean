import NikitaFirmware.SubGhz.Blocks

/-!
# Security+ 1.0

`lib/subghz/protocols/secplus_v1.c`: the digits that the encoder makes of a fixed code and a
counter, and the decoder as it is fed pulses. Digits are numbers below three; the arithmetic of
`uint32_t` is modulo `2 ^ 32`.
-/

namespace NikitaFirmware.SubGhz.SecPlusV1
open Foundations List

def packet2IndexBase : Nat := 21

def minCountBit : Nat := 21

def teShort : Nat := 500
def teLong : Nat := 1500
def teDelta : Nat := 100

/-- The fixed code and the counter of a key. -/
structure Key where
  fixed : UInt32
  rolling : UInt32
  deriving DecidableEq

def firstCounter : UInt32 := 0xE6000000

/-- The rule for the next counter; the counter that the user has set takes the place of the next
one. A sum of `uint32_t` is never above its greatest value. -/
def nextCounter (mult : Int32) (override : Option UInt32) (rolling : UInt32) : UInt32 :=
  if mult ≠ -0x7FFFFFFF then
    let rolling := match override with
      | some counter => counter
      | none => if rolling + mult.toUInt32 > 0xFFFFFFFF then firstCounter
        else rolling + mult.toUInt32
    if rolling < firstCounter then firstCounter else rolling
  else if rolling + 1 > 0xFFFFFFFF then firstCounter
  else if rolling ≥ firstCounter ∧ rolling ≠ 0xFFFFFFFE then 0xFFFFFFFE
  else rolling + 1

/-- The greatest fixed code of twenty digits, `0xCFD41B90`. -/
def maxFixed : Nat := 3486784400

/-- The loop over the digits of one packet: the digits of the fixed code are sent as sums. -/
def encodePacket : Nat → List (Nat × Nat) → List Nat
  | _, [] => []
  | acc, (rolling, fixed) :: rest =>
    rolling :: (acc + rolling + fixed) % 3 :: encodePacket (acc + rolling + fixed) rest

/-- `subghz_protocol_secplus_v1_encode` with the counter of the rule. -/
def encodeKey (dataArray : List Nat) (key : Key) : Option (List Nat) :=
  if maxFixed < key.fixed.toNat then none
  else
    let rollingArray := Digits.digits 3 20 (reverseKey key.rolling.toNat 32)
    let fixedArray := Digits.digits 3 20 key.fixed.toNat
    let pairs := rollingArray.zip fixedArray
    some (0 :: encodePacket 0 (pairs.take 10) ++ 2 :: encodePacket 0 (pairs.drop 10) ++
      dataArray.drop 42)

/-- `subghz_protocol_secplus_v1_encode`: the key with the next counter, and the digits. -/
def encode (mult : Int32) (override : Option UInt32) (dataArray : List Nat) (key : Key) :
    Option (Key × List Nat) :=
  let sent := { key with rolling := nextCounter mult override key.rolling }
  (encodeKey dataArray sent).map fun digits => (sent, digits)

def symbolPulses : Nat → Option (List Pulse)
  | 0 => some [⟨false, teShort * 3⟩, ⟨true, teShort⟩]
  | 1 => some [⟨false, teShort * 2⟩, ⟨true, teShort * 2⟩]
  | 2 => some [⟨false, teShort⟩, ⟨true, teShort * 3⟩]
  | _ => none

/-- `subghz_protocol_encoder_secplus_v1_get_upload`, for a buffer that is large enough -/
def getUpload (dataArray : List Nat) : Option (List Pulse) := do
  let packet1 ← ((dataArray.drop 1).take 20).mapM symbolPulses
  let packet2 ← ((dataArray.drop 22).take 20).mapM symbolPulses
  return [⟨false, teShort * 119⟩, ⟨true, teShort⟩] ++ packet1.flatten ++
    [⟨false, teShort * 116⟩, ⟨true, teShort * 3⟩] ++ packet2.flatten

def wrap (n : Nat) : Nat := n % 4294967296

/-- What the loops of the decoder accumulate. -/
structure Sums where
  rolling : Nat
  fixed : Nat
  acc : Nat

/-- The loop over the digits of one packet. -/
def decodePacket : Sums → List Nat → Sums
  | s, a :: b :: rest =>
    let acc := wrap (s.acc + a)
    let digit := wrap (60 + b + 4294967296 - acc) % 3
    decodePacket ⟨wrap (s.rolling * 3 + a), wrap (s.fixed * 3 + digit), wrap (acc + digit)⟩ rest
  | s, _ => s

def decodePackets (packet1 packet2 : List Nat) : Key :=
  let s := decodePacket ⟨0, 0, 0⟩ packet1
  let s := decodePacket { s with acc := 0 } packet2
  ⟨UInt32.ofNat s.fixed, UInt32.ofNat (reverseKey s.rolling 32)⟩

def decode (dataArray : List Nat) : Key :=
  decodePackets ((dataArray.drop 1).take 20) ((dataArray.drop 22).take 20)

/-- `SecPlus_v1DecoderStep` -/
inductive Step
  | reset
  | searchStartBit
  | saveDuration
  | decoderData
  deriving DecidableEq

/-- `SubGhzProtocolDecoderSecPlus_v1` with a flag for each packet that has been accepted. -/
structure Decoder where
  parserStep : Step
  teLast : Nat
  decodeCountBit : Nat
  packet1Accepted : Bool
  packet2Accepted : Bool
  basePacketIndex : Nat
  dataArray : List Nat

/-- The pause before and behind a packet. -/
def isGap (duration : Nat) : Bool := durationDiff duration (teShort * 120) < teDelta * 120

def startSymbol (duration : Nat) : Option Nat :=
  if durationDiff duration teShort < teDelta then some 0
  else if durationDiff duration teLong < teDelta then some 2
  else none

/-- The symbol of a pause and the pulse behind it. -/
def symbolOf (low high : Nat) : Option Nat :=
  if durationDiff low (teShort * 3) < teDelta * 3 ∧ durationDiff high teShort < teDelta then some 0
  else if durationDiff low (teShort * 2) < teDelta * 2 ∧
    durationDiff high (teShort * 2) < teDelta * 2 then some 1
  else if durationDiff low teShort < teDelta ∧ durationDiff high (teShort * 3) < teDelta * 3 then
    some 2
  else none

namespace Decoder

def alloc : Decoder where
  parserStep := .reset
  teLast := 0
  decodeCountBit := 0
  packet1Accepted := false
  packet2Accepted := false
  basePacketIndex := 0
  dataArray := List.replicate 44 0

def reset (d : Decoder) : Decoder := { d with parserStep := .reset }

/-- A header has been found. -/
def start (d : Decoder) : Decoder :=
  { d with
    parserStep := .searchStartBit
    decodeCountBit := 0
    packet1Accepted := false
    packet2Accepted := false
    dataArray := List.replicate 44 0 }

/-- The packet has the header of its start bit. -/
def setBase (d : Decoder) (base : Nat) : Decoder := { d with basePacketIndex := base }

def store (d : Decoder) (symbol : Nat) : Decoder :=
  { d with
    dataArray := d.dataArray.set (d.decodeCountBit + d.basePacketIndex) symbol
    decodeCountBit := d.decodeCountBit + 1
    parserStep := .saveDuration }

/-- A packet of the right length is accepted. -/
def accept (d : Decoder) : Decoder :=
  if d.decodeCountBit = minCountBit then
    { d with
      packet1Accepted := d.packet1Accepted || d.basePacketIndex == 0
      packet2Accepted := d.packet2Accepted || d.basePacketIndex == packet2IndexBase }
  else d

def endPacket (d : Decoder) : Decoder :=
  { d.accept with parserStep := .searchStartBit, decodeCountBit := 0 }

def report (d : Decoder) : Option Key :=
  if d.decodeCountBit = minCountBit ∧ d.accept.packet1Accepted = true ∧
    d.accept.packet2Accepted = true then some (decode d.dataArray) else none

/-- The decoder expects another packet behind a gap, and data behind a shorter pause. -/
def saveDuration (d : Decoder) (p : Pulse) : Decoder × Option Key :=
  if p.level then (d.reset, none)
  else if isGap p.duration then (d.endPacket, d.report)
  else ({ d with teLast := p.duration, parserStep := .decoderData }, none)

def searchStartBit (d : Decoder) (p : Pulse) : Decoder :=
  if p.level then
    match startSymbol p.duration with
    | some symbol => (d.setBase (if symbol = 0 then 0 else packet2IndexBase)).store symbol
    | none => d.reset
  else d.reset

def decoderData (d : Decoder) (p : Pulse) : Decoder :=
  if p.level = true ∧ d.decodeCountBit ≤ minCountBit then
    match symbolOf d.teLast p.duration with
    | some symbol => d.store symbol
    | none => d.reset
  else d.reset

/-- `subghz_protocol_decoder_secplus_v1_feed`, with the key that the callback gets. -/
def feed (d : Decoder) (p : Pulse) : Decoder × Option Key :=
  match d.parserStep with
  | .reset => (if p.level = false ∧ isGap p.duration = true then d.start else d, none)
  | .searchStartBit => (d.searchStartBit p, none)
  | .saveDuration => d.saveDuration p
  | .decoderData => (d.decoderData p, none)

end Decoder

variable {acc a b m : Nat} {ds : List Nat} {ps : List (Nat × Nat)} {s : Sums} {key : Key}

theorem wrap_of_lt (h : a < 4294967296) : wrap a = a := Nat.mod_eq_of_lt h

theorem wrap_digit (v d : Nat) : wrap (wrap v * 3 + d) = wrap (v * 3 + d) := by
  rw [wrap, wrap, wrap]
  omega

theorem digit_of_sum (ha : a < 3) (hb : b < 3) (hacc : acc ≤ 50) :
    wrap (60 + (acc + a + b) % 3 + 4294967296 - wrap (acc + a)) % 3 = b := by
  rw [wrap_of_lt (show acc + a < 4294967296 by omega), wrap]
  omega

theorem decodePacket_encodePacket (acc : Nat) (ps : List (Nat × Nat))
    (hps : ∀ p ∈ ps, p.1 < 3 ∧ p.2 < 3) (hacc : acc + ps.length * 4 ≤ 50) (x y : Nat) :
    ∃ acc', decodePacket ⟨wrap x, wrap y, acc⟩ (encodePacket acc ps) =
      ⟨wrap ((ps.map Prod.fst).foldl (fun v d => v * 3 + d) x),
        wrap ((ps.map Prod.snd).foldl (fun v d => v * 3 + d) y), acc'⟩ := by
  induction ps generalizing acc x y with
  | nil => exact ⟨acc, rfl⟩
  | cons p ps ih =>
    obtain ⟨a, b⟩ := p
    obtain ⟨⟨ha, hb⟩, hps⟩ := forall_mem_cons.mp hps
    change a < 3 at ha
    change b < 3 at hb
    rw [length_cons] at hacc
    have hdigit := digit_of_sum ha hb (show acc ≤ 50 by omega)
    have hsum : wrap (wrap (acc + a) + b) = acc + a + b := by
      rw [wrap_of_lt (show acc + a < 4294967296 by omega), wrap_of_lt (by omega)]
    obtain ⟨acc', h⟩ := ih (acc + a + b) hps (by omega) (x * 3 + a) (y * 3 + b)
    refine ⟨acc', ?_⟩
    rw [encodePacket, decodePacket]
    dsimp only
    rw [hdigit, hsum, wrap_digit, wrap_digit]
    exact h

theorem length_encodePacket (acc : Nat) (ps : List (Nat × Nat)) :
    (encodePacket acc ps).length = ps.length * 2 := by
  induction ps generalizing acc with
  | nil => rfl
  | cons p ps ih =>
    rw [encodePacket, length_cons, length_cons, length_cons, ih]
    omega

def pairs (key : Key) : List (Nat × Nat) :=
  (Digits.digits 3 20 (reverseKey key.rolling.toNat 32)).zip (Digits.digits 3 20 key.fixed.toNat)

theorem length_pairs (key : Key) : (pairs key).length = 20 := by
  rw [pairs, length_zip, Digits.length_digits, Digits.length_digits]
  rfl

theorem pairs_lt (key : Key) : ∀ p ∈ pairs key, p.1 < 3 ∧ p.2 < 3 := by
  intro p hp
  obtain ⟨h1, h2⟩ := of_mem_zip (show (p.1, p.2) ∈ pairs key from hp)
  exact ⟨Digits.digits_lt (by omega) _ _ _ h1, Digits.digits_lt (by omega) _ _ _ h2⟩

theorem map_fst_pairs (key : Key) :
    (pairs key).map Prod.fst = Digits.digits 3 20 (reverseKey key.rolling.toNat 32) :=
  map_fst_zip (by rw [Digits.length_digits, Digits.length_digits])

theorem map_snd_pairs (key : Key) : (pairs key).map Prod.snd = Digits.digits 3 20 key.fixed.toNat :=
  map_snd_zip (by rw [Digits.length_digits, Digits.length_digits])

theorem decode_encodeKey {dataArray digits : List Nat} (h : encodeKey dataArray key = some digits) :
    decode digits = ⟨key.fixed,
      UInt32.ofNat (reverseKey (reverseKey key.rolling.toNat 32 % 3486784401) 32)⟩ := by
  rw [encodeKey] at h
  split at h
  · cases h
  case isFalse hfixed =>
    obtain rfl := Option.some.inj h
    have hlen : ((pairs key).take 10).length = 10 := by rw [length_take, length_pairs]; rfl
    have hlen' : ((pairs key).drop 10).length = 10 := by rw [length_drop, length_pairs]
    have henc := length_encodePacket 0 ((pairs key).take 10)
    have henc' := length_encodePacket 0 ((pairs key).drop 10)
    rw [hlen] at henc
    rw [hlen'] at henc'
    -- the packets stand where the decoder looks for them
    have hfirst : ∀ rest : List Nat,
        ((0 :: encodePacket 0 ((pairs key).take 10) ++ rest).drop 1).take 20 =
          encodePacket 0 ((pairs key).take 10) := by
      intro rest
      rw [cons_append, drop_succ_cons, drop_zero]
      exact take_left' henc
    have hsecond : ∀ rest : List Nat, ((0 :: encodePacket 0 ((pairs key).take 10) ++
          2 :: encodePacket 0 ((pairs key).drop 10) ++ rest).drop 22).take 20 =
            encodePacket 0 ((pairs key).drop 10) := by
      intro rest
      have hdrop : (encodePacket 0 ((pairs key).take 10) ++
          (2 :: encodePacket 0 ((pairs key).drop 10) ++ rest)).drop 21 =
            encodePacket 0 ((pairs key).drop 10) ++ rest := by
        rw [show 21 = 20 + 1 from rfl, ← drop_drop, drop_left' henc]
        rfl
      rw [append_assoc, cons_append, drop_succ_cons, hdrop]
      exact take_left' henc'
    have hlt := pairs_lt key
    obtain ⟨acc₁, h₁⟩ := decodePacket_encodePacket 0 ((pairs key).take 10)
      (fun p hp => hlt p (mem_of_mem_take hp)) (by omega) 0 0
    obtain ⟨acc₂, h₂⟩ := decodePacket_encodePacket 0 ((pairs key).drop 10)
      (fun p hp => hlt p (mem_of_mem_drop hp)) (by omega)
      (((pairs key).take 10).map Prod.fst |>.foldl (fun v d => v * 3 + d) 0)
      (((pairs key).take 10).map Prod.snd |>.foldl (fun v d => v * 3 + d) 0)
    rw [← foldl_append, ← map_append, take_append_drop, map_fst_pairs,
      ← foldl_append, ← map_append, take_append_drop, map_snd_pairs] at h₂
    have hpow : 3 ^ 20 = 3486784401 := by norm_num
    have hrolling := Digits.value_digits 3 20 (reverseKey key.rolling.toNat 32)
    have hvalue := Digits.value_digits 3 20 key.fixed.toNat
    rw [Digits.value, hpow] at hrolling hvalue
    rw [hrolling, hvalue] at h₂
    have hdecode : decode (0 :: encodePacket 0 ((pairs key).take 10) ++
        2 :: encodePacket 0 ((pairs key).drop 10) ++ dataArray.drop 42) =
          decodePackets (encodePacket 0 ((pairs key).take 10))
            (encodePacket 0 ((pairs key).drop 10)) := by
      rw [decode, hsecond, append_assoc, hfirst]
    refine hdecode.trans ?_
    rw [show wrap 0 = 0 from rfl] at h₁
    rw [decodePackets, h₁]
    dsimp only
    rw [h₂, wrap_of_lt (by omega), wrap_of_lt (by omega),
      Nat.mod_eq_of_lt (a := key.fixed.toNat) (by rw [maxFixed] at hfixed; omega),
      UInt32.ofNat_toNat]

theorem decode_eq_iff {dataArray digits : List Nat} (h : encodeKey dataArray key = some digits) :
    decode digits = key ↔ reverseKey key.rolling.toNat 32 ≤ maxFixed := by
  have hr := key.rolling.toNat_lt
  have hpow : (2 : Nat) ^ 32 = 4294967296 := by norm_num
  rw [decode_encodeKey h, reverseKey_eq_mirror, reverseKey_eq_mirror, maxFixed]
  have hm := Digits.mirror_lt 32 key.rolling.toNat
  have hlt := Digits.mirror_lt 32 (Digits.mirror 32 key.rolling.toNat % 3486784401)
  constructor
  · intro heq
    have hrolling := congrArg (fun k => k.rolling.toNat) heq
    change (UInt32.ofNat _).toNat = _ at hrolling
    rw [UInt32.toNat_ofNat', Nat.mod_eq_of_lt hlt] at hrolling
    have hback := congrArg (Digits.mirror 32) hrolling
    rw [Digits.mirror_mirror (by omega)] at hback
    omega
  · intro hle
    rw [Nat.mod_eq_of_lt (by omega), Digits.mirror_mirror hr, UInt32.ofNat_toNat]

end NikitaFirmware.SubGhz.SecPlusV1
