import NikitaFirmware.BitLib.Registers
import NikitaFirmware.Foundations.Machine

/-!
# The AWID decoder

`lib/lfrfid/protocols/protocol_awid.c` and `lib/lfrfid/tools/fsk_demod.c`: pulses become bits, bits are
shifted into a register of 104 bits, and after every bit the register is looked at. A frame is a
preamble, 22 groups of three bits and an odd parity bit, and the preamble of the next frame.
-/

namespace NikitaFirmware.LfRfid
open Foundations Foundations.BitArray Foundations.BitValue Foundations.Checked BitLib List

structure FSKDemod where
  lowTime : UInt32
  lowPulses : UInt32
  hiTime : UInt32
  hiPulses : UInt32
  invert : Bool
  midTime : UInt32
  time : UInt32
  count : UInt32
  lastPulse : Bool

/-- `fsk_demod_alloc`; a low time above the high one swaps the two. -/
def fskDemodAlloc (lowTime lowPulses hiTime hiPulses : UInt32) : FSKDemod :=
  let demod (lowTime lowPulses hiTime hiPulses : UInt32) (invert : Bool) : FSKDemod :=
    ⟨lowTime, lowPulses, hiTime, hiPulses, invert, (hiTime - lowTime) / 2 + lowTime, 0, 0, false⟩
  if lowTime > hiTime then demod hiTime hiPulses lowTime lowPulses true
  else demod lowTime lowPulses hiTime hiPulses false

/-- `fsk_demod_feed`: a value and how often it is repeated. Without a count there is no value. -/
def fskDemodFeed (demod : FSKDemod) (polarity : Bool) (time : UInt32) : FSKDemod × Bool × UInt32 :=
  if polarity then ({ demod with time := time }, false, 0)
  else
    let demod : FSKDemod := { demod with time := demod.time + time }
    if demod.time ≥ demod.lowTime ∧ demod.time < demod.hiTime then
      let pulse : Bool := ¬ demod.time < demod.midTime
      let demod : FSKDemod := { demod with count := demod.count + 1 }
      if demod.lastPulse ≠ pulse then
        let dataCount := demod.count + 1
        let next : FSKDemod := { demod with count := 0, lastPulse := pulse }
        if demod.lastPulse then (next, !demod.invert, dataCount / demod.hiPulses)
        else (next, demod.invert, dataCount / demod.lowPulses)
      else (demod, false, 0)
    else ({ demod with count := 0 }, false, 0)

namespace Awid

/-- The register and the data of `ProtocolAwid`. -/
structure Decoder where
  encodedData : Bytes
  data : Bytes

def decoderStart (decoder : Decoder) : Decoder :=
  { decoder with encodedData := replicate 13 0 }

/-- `protocol_awid_can_be_decoded` behind the check of the preambles. -/
def checkGroups (data : Bytes) : Result (Bool × Bytes) := do
  let parityError ← testParity (memory data) 8 88 .odd 4
  if parityError then .ok (false, data)
  else do
    let removed ← removeBitEveryNth data 8 88 4
    let len ← getBits (memory removed.1) 8 8
    if len ≠ 26 ∧ len ≠ 50 ∧ len ≠ 37 ∧ len ≠ 34 ∧ len ≠ 36 then .ok (false, removed.1)
    else .ok (true, removed.1)

/-- `protocol_awid_can_be_decoded`: the result, and the register as it is left. -/
def canBeDecoded (data : Bytes) : Result (Bool × Bytes) := do
  let first ← access data[0]?
  let last ← access data[12]?
  if first ≠ 0b00000001 ∨ last ≠ 0b00000001 then .ok (false, data) else checkGroups data

def decode (encodedData decodedData : Bytes) : Result Bytes :=
  copyBits decodedData 0 66 (memory encodedData) 8

def feedBit (decoder : Decoder) (value : Bool) : Result (Bool × Decoder) := do
  let encodedData ← pushBit decoder.encodedData value
  let looked ← canBeDecoded encodedData
  if looked.1 then do
    let data ← decode looked.2 decoder.data
    return (true, ⟨looked.2, data⟩)
  else .ok (false, { decoder with encodedData := looked.2 })

/-- The loop in `protocol_awid_decoder_feed`, with the number of its rounds. -/
def feedBits (value : Bool) : Nat → Decoder → Result (Bool × Decoder)
  | 0, decoder => .ok (false, decoder)
  | rounds + 1, decoder => do
    let fed ← feedBit decoder value
    if fed.1 then .ok fed else feedBits value rounds fed.2

def decoderFeed (demod : FSKDemod) (decoder : Decoder) (level : Bool) (duration : UInt32) :
    Result (Bool × FSKDemod × Decoder) := do
  let demodulated := fskDemodFeed demod level duration
  let fed ← feedBits demodulated.2.1 demodulated.2.2.toNat decoder
  return (fed.1, demodulated.1, fed.2)

def Preamble (w : Nat → Bool) (p : Nat) : Prop := value (fun k => w (p + k)) 8 = 0b00000001

/-- A window that begins with a preamble and ends with the next one. -/
def Framed (w : Nat → Bool) : Prop := Preamble w 0 ∧ Preamble w 96

def OddGroup (w : Nat → Bool) (g : Nat) : Prop := oddBits (fun k => w (8 + g * 4 + k)) = true

def AllOdd (w : Nat → Bool) : Prop := ∀ g < 22, OddGroup w g

def SomeOdd (w : Nat → Bool) : Prop := ∃ g < 22, OddGroup w g

/-- The bits of a window without the parity bits. -/
def bare (w : Nat → Bool) (k : Nat) : Bool := w (8 + (k + k / 3))

/-- The format length, the first eight bits that are no parity bits, is one of those that are in use. -/
def Admitted (w : Nat → Bool) : Prop := value (bare w) 8 ∈ [26, 50, 37, 34, 36]

def Card (w : Nat → Bool) : Prop := Framed w ∧ AllOdd w ∧ Admitted w

/-- The parity bits are removed. -/
def Strips (w : Nat → Bool) : Prop := Framed w ∧ SomeOdd w

/-- The window without the parity bits. -/
def stripped (w : Nat → Bool) (k : Nat) : Bool :=
  if 8 ≤ k ∧ k < 74 then bare w (k - 8) else w k

instance (w : Nat → Bool) (p : Nat) : Decidable (Preamble w p) :=
  inferInstanceAs (Decidable (_ = _))
instance (w : Nat → Bool) : Decidable (Framed w) := inferInstanceAs (Decidable (_ ∧ _))
instance (w : Nat → Bool) (g : Nat) : Decidable (OddGroup w g) :=
  inferInstanceAs (Decidable (_ = true))
instance (w : Nat → Bool) : Decidable (AllOdd w) :=
  inferInstanceAs (Decidable (∀ g < 22, OddGroup w g))
instance (w : Nat → Bool) : Decidable (SomeOdd w) :=
  inferInstanceAs (Decidable (∃ g < 22, OddGroup w g))
instance (w : Nat → Bool) : Decidable (Admitted w) := inferInstanceAs (Decidable (_ ∈ _))
instance (w : Nat → Bool) : Decidable (Card w) := inferInstanceAs (Decidable (_ ∧ _ ∧ _))
instance (w : Nat → Bool) : Decidable (Strips w) := inferInstanceAs (Decidable (_ ∧ _))

variable {w w' : Nat → Bool} {register : Bytes}

theorem Card.strips (h : Card w) : Strips w := ⟨h.1, 0, by decide, h.2.1 0 (by decide)⟩

section Congruence
variable (h : ∀ k < 104, w k = w' k)
include h

theorem preamble_congr {p : Nat} (hp : p ≤ 96) : Preamble w p ↔ Preamble w' p := by
  rw [Preamble, Preamble, value_congr fun k hk => h (p + k) (by omega)]

theorem framed_congr : Framed w ↔ Framed w' :=
  and_congr (preamble_congr h (by decide)) (preamble_congr h (by decide))

theorem oddGroup_congr {g : Nat} (hg : g < 22) : OddGroup w g ↔ OddGroup w' g := by
  rw [OddGroup, OddGroup, oddBits, oddBits, h _ (by omega), h _ (by omega), h _ (by omega),
    h _ (by omega)]

theorem bare_congr {k : Nat} (hk : k < 66) : bare w k = bare w' k := h _ (by omega)

theorem admitted_congr : Admitted w ↔ Admitted w' := by
  rw [Admitted, Admitted, value_congr fun k hk => bare_congr h (by omega)]

theorem strips_congr : Strips w ↔ Strips w' :=
  and_congr (framed_congr h) (exists_congr fun _ => and_congr_right fun hg => oddGroup_congr h hg)

theorem stripped_congr {k : Nat} (hk : k < 104) : stripped w k = stripped w' k := by
  unfold stripped
  by_cases hin : 8 ≤ k ∧ k < 74
  · rw [if_pos hin, if_pos hin, bare_congr h (by omega)]
  · rw [if_neg hin, if_neg hin, h k hk]

end Congruence

theorem toNat_getD (register : Bytes) (i : Nat) :
    (register.getD i 0).toNat = value (fun k => high register (8 * i + k)) 8 := by
  refine eq_value fun k => ?_
  by_cases hk : k < 8
  · have hdiv : (8 * i + (8 - 1 - k)) / 8 = i := by omega
    have hplace : 7 - (8 * i + (8 - 1 - k)) % 8 = k := by omega
    rw [high, hdiv, hplace, decide_eq_true hk, Bool.true_and]
  · rw [testBit_of_le _ (Nat.le_of_not_lt hk), decide_eq_false hk, Bool.false_and]

theorem byte_eq_one_iff (register : Bytes) (i : Nat) :
    register.getD i 0 = 0b00000001 ↔ Preamble (high register) (8 * i) := by
  rw [← UInt8.toNat_inj, toNat_getD]
  exact Iff.rfl

theorem kept_groups (register : Bytes) :
    kept register 8 4 88 = (range 66).map (bare (high register)) := by
  have hplaces : (range 88).filter (fun j => (j + 1) % 4 ≠ 0) =
      (range 66).map fun k => k + k / 3 := by decide
  rw [kept, hplaces, map_map]
  rfl

theorem remove_stripped (hlen : register.length = 13) :
    ∃ register' n, removeBitEveryNth register 8 88 4 = .ok (register', n) ∧
      register'.length = 13 ∧ ∀ k, high register' k = stripped (high register) k := by
  obtain ⟨register', hremove, hput⟩ := removeBitEveryNth_eq register 8 88 4 (by rw [hlen]; decide)
  refine ⟨register', _, hremove, hput.length.trans hlen, fun k => ?_⟩
  have hcount : (kept register 8 4 88).length = 66 := by
    rw [kept_groups, length_map, length_range]
  rw [hput.bits, hcount, stripped]
  by_cases hin : 8 ≤ k ∧ k < 74
  · have hget : k - 8 < ((range 66).map (bare (high register))).length := by
      rw [length_map, length_range]
      omega
    rw [if_pos hin, if_pos hin, keptBit, kept_groups, getD_eq_getElem _ _ hget,
      getElem_map, getElem_range]
  · rw [if_neg hin, if_neg hin]

theorem getBits_length {register' : Bytes} (hlen : register'.length = 13)
    (hbits : ∀ k, high register' k = stripped w k) :
    ∃ len, getBits (memory register') 8 8 = .ok len ∧ len.toNat = value (bare w) 8 := by
  obtain ⟨len, hget, hvalue⟩ := getBits_eq (by decide) (by decide)
    (@readable_memory 8 8 register' (by rw [hlen]; decide))
  refine ⟨len, hget, hvalue.trans (value_congr fun k hk => ?_)⟩
  rw [bitOf_memory, hbits, stripped, if_pos (by omega), Nat.add_sub_cancel_left]

theorem not_admitted_iff {len : UInt8} (hlen : len.toNat = value (bare w) 8) :
    (len ≠ 26 ∧ len ≠ 50 ∧ len ≠ 37 ∧ len ≠ 34 ∧ len ≠ 36) ↔ ¬ Admitted w := by
  rw [Admitted, ← hlen]
  simp only [mem_cons, not_mem_nil, or_false, not_or, ne_eq, ← UInt8.toNat_inj]
  exact Iff.rfl

theorem canBeDecoded_eq (hlen : register.length = 13) : ∃ register', canBeDecoded register =
        .ok (decide (Strips (high register) ∧ Admitted (high register)), register') ∧
      register'.length = 13 ∧ ∀ k, high register' k =
        if Strips (high register) then stripped (high register) k else high register k := by
  have hgroups : (∀ g < 22, oddBits (fun k => bitOf (memory register) (8 + g * 4 + k)) = false) ↔
      ¬ SomeOdd (high register) := by
    rw [SomeOdd, not_exists]
    refine forall_congr' fun g => ?_
    rw [not_and]
    refine imp_congr_right fun _ => ?_
    rw [OddGroup, Bool.not_eq_true]
    exact iff_of_eq (congrArg (oddBits · = false) (funext fun k => bitOf_memory register _))
  have hparity : testParity (memory register) 8 88 .odd 4 =
      .ok (!decide (SomeOdd (high register))) := by
    refine (testParity_odd_four 22 (@readable_memory 8 88 register (by rw [hlen]; decide))).trans ?_
    rw [← decide_not]
    exact congrArg Except.ok (decide_eq_decide.mpr hgroups)
  have hframed : (register.getD 0 0 ≠ 0b00000001 ∨ register.getD 12 0 ≠ 0b00000001) ↔
      ¬ Framed (high register) := by
    rw [Framed, not_and_or]
    exact or_congr (not_congr (byte_eq_one_iff register 0)) (not_congr (byte_eq_one_iff register 12))
  have hread : canBeDecoded register =
      if register.getD 0 0 ≠ 0b00000001 ∨ register.getD 12 0 ≠ 0b00000001 then .ok (false, register)
      else checkGroups register := by
    rw [canBeDecoded, access_get (by rw [hlen]; decide), access_get (by rw [hlen]; decide)]
    rfl
  rw [hread]
  by_cases hf : Framed (high register)
  · rw [if_neg fun h => hframed.mp h hf, checkGroups, hparity]
    show ∃ register', (if (!decide (SomeOdd (high register))) = true then _ else _) = _ ∧ _
    by_cases hs : SomeOdd (high register)
    · obtain ⟨register', n, hremove, hlen', hbits⟩ := remove_stripped hlen
      obtain ⟨len, hget, hvalue⟩ := getBits_length hlen' hbits
      rw [decide_eq_true hs, if_neg (by decide), hremove]
      refine ⟨register', ?_, hlen', fun k => by rw [if_pos ⟨hf, hs⟩, hbits]⟩
      show (getBits (memory register') 8 8 >>= _) = _
      rw [hget]
      show (if len ≠ 26 ∧ len ≠ 50 ∧ len ≠ 37 ∧ len ≠ 34 ∧ len ≠ 36 then _ else _) = _
      by_cases ha : Admitted (high register)
      · rw [if_neg fun h => (not_admitted_iff hvalue).mp h ha, decide_eq_true ⟨⟨hf, hs⟩, ha⟩]
      · rw [if_pos ((not_admitted_iff hvalue).mpr ha), decide_eq_false fun h => ha h.2]
    · rw [decide_eq_false hs, Bool.not_false, if_pos rfl, decide_eq_false fun h => hs h.1.2]
      exact ⟨register, rfl, hlen, fun k => by rw [if_neg fun h => hs h.2]⟩
  · rw [if_pos (hframed.mpr hf), decide_eq_false fun h => hf h.1.1]
    exact ⟨register, rfl, hlen, fun k => by rw [if_neg fun h => hf h.1]⟩

/-- What happens to a decoder. -/
inductive Event
  | start
  | bit (value : Bool)

/-- A decoder, the bits that were pushed since it was started, and whether the last one gave a card. -/
structure Monitor where
  decoder : Decoder
  pushed : List Bool
  reported : Bool

/-- The monitor behind a pushed bit. -/
def Monitor.fed (s : Monitor) (value : Bool) : Result (Bool × Decoder) → Option Monitor
  | .ok (reported, decoder) => some ⟨decoder, s.pushed ++ [value], reported⟩
  | .error _ => none

def machine : Machine Monitor Event where
  step s
    | .start => some ⟨decoderStart s.decoder, [], false⟩
    | .bit value => s.fed value (feedBit s.decoder value)

/-- A decoder after its start. -/
def initial : Monitor := ⟨⟨replicate 13 0, replicate 9 0⟩, [], false⟩

/-- The last 104 bits that were pushed, with zeros in front of the first ones. -/
def window (pushed : List Bool) (k : Nat) : Bool :=
  (replicate 104 false ++ pushed).getD (pushed.length + k) false

variable {pushed : List Bool} {b : Bool} {s s' : Monitor} {w : Nat → Bool}

theorem window_nil {k : Nat} (hk : k < 104) : window [] k = false := by
  rw [window, append_nil, length_nil, Nat.zero_add,
    getD_eq_getElem _ _ (by rw [length_replicate]; exact hk), getElem_replicate]

theorem window_concat {k : Nat} (hk : k < 104) :
    window (pushed ++ [b]) k = if k = 103 then b else window pushed (k + 1) := by
  have hfront : (replicate 104 false ++ pushed).length = 104 + pushed.length := by
    rw [length_append, length_replicate]
  rw [window, ← append_assoc, length_append, length_singleton]
  by_cases hlast : k = 103
  · have hindex : pushed.length + 1 + k = (replicate 104 false ++ pushed).length + 0 := by
      omega
    rw [if_pos hlast, hindex, getD_append_right _ _ _ _ (Nat.le_add_right _ _),
      Nat.add_sub_cancel_left]
    rfl
  · have hindex : pushed.length + 1 + k = pushed.length + (k + 1) := by omega
    rw [if_neg hlast, hindex, getD_append _ _ _ _ (by omega), window]

/-- The detection is right, and without a card the register has the pushed bits. -/
def Exact (s : Monitor) : Prop :=
  (s.reported = true ↔ Card (window s.pushed)) ∧
    (s.reported = false → ∀ k < 104, high s.decoder.encodedData k = window s.pushed k)

/-- The decoder is started again after a card, and a window with an odd group between two preambles
is the frame of a card, or has no admitted length and is the same without its parity bits. -/
def Fine (s : Monitor) : Event → Prop
  | .start => True
  | .bit value => s.reported = false ∧
    (Strips (window (s.pushed ++ [value])) →
      (Admitted (window (s.pushed ++ [value])) ∧ AllOdd (window (s.pushed ++ [value]))) ∨
      (¬ Admitted (window (s.pushed ++ [value])) ∧
        ∀ k < 66, bare (window (s.pushed ++ [value])) k = window (s.pushed ++ [value]) (8 + k)))

/-- The lengths of the arrays. -/
structure Sized (decoder : Decoder) : Prop where
  register : decoder.encodedData.length = 13
  data : decoder.data.length = 9

theorem feedBit_eq {decoder : Decoder} (hsized : Sized decoder)
    (hbits : ∀ k < 104, high decoder.encodedData k = window pushed k) (b : Bool) :
    ∃ decoder', feedBit decoder b = .ok
        (decide (Strips (window (pushed ++ [b])) ∧ Admitted (window (pushed ++ [b]))), decoder') ∧
      Sized decoder' ∧ ∀ k < 104, high decoder'.encodedData k =
        if Strips (window (pushed ++ [b])) then stripped (window (pushed ++ [b])) k
        else window (pushed ++ [b]) k := by
  obtain ⟨register, hpush, hlen, hshift⟩ :=
    @pushBit_eq decoder.encodedData (by rw [hsized.register]; decide) b
  rw [hsized.register] at hlen hshift
  have hwindow : ∀ k < 104, high register k = window (pushed ++ [b]) k := by
    intro k hk
    rw [hshift k hk, window_concat hk]
    by_cases hlast : k = 103
    · rw [if_pos hlast, if_pos hlast]
    · rw [if_neg hlast, if_neg hlast, hbits _ (by omega)]
  obtain ⟨register', hlook, hlen', hleft⟩ := canBeDecoded_eq hlen
  have hanswer : decide (Strips (high register) ∧ Admitted (high register)) =
      decide (Strips (window (pushed ++ [b])) ∧ Admitted (window (pushed ++ [b]))) :=
    decide_eq_decide.mpr (and_congr (strips_congr hwindow) (admitted_congr hwindow))
  rw [hanswer] at hlook
  have hregister : ∀ k < 104, high register' k =
      if Strips (window (pushed ++ [b])) then stripped (window (pushed ++ [b])) k
      else window (pushed ++ [b]) k := by
    intro k hk
    rw [hleft, if_congr (strips_congr hwindow) (stripped_congr hwindow hk) (hwindow k hk)]
  rw [feedBit, hpush]
  show ∃ decoder', (canBeDecoded register >>= _) = _ ∧ _
  rw [hlook]
  by_cases hcard : Strips (window (pushed ++ [b])) ∧ Admitted (window (pushed ++ [b]))
  · obtain ⟨data, hcopy, hput⟩ := copyBits_eq decoder.data 0 66 (memory register') 8
      (by rw [hsized.data]; decide) (readable_memory (by rw [hlen']; decide))
    rw [decide_eq_true hcard]
    refine ⟨⟨register', data⟩, ?_, ⟨hlen', hput.length.trans hsized.data⟩, hregister⟩
    show (decode register' decoder.data >>= _) = _
    rw [decode, hcopy]
    rfl
  · rw [decide_eq_false hcard]
    exact ⟨{ decoder with encodedData := register' }, rfl, ⟨hlen', hsized.data⟩, hregister⟩

theorem stripped_eq_iff : (∀ k < 104, stripped w k = w k) ↔ ∀ k < 66, bare w k = w (8 + k) := by
  constructor
  · intro h k hk
    have hplace := h (8 + k) (by omega)
    rwa [stripped, if_pos (by omega), Nat.add_sub_cancel_left] at hplace
  · intro h k _
    unfold stripped
    split
    · next hin =>
      have hplace : 8 + (k - 8) = k := by omega
      rw [h (k - 8) (by omega), hplace]
    · rfl

theorem looked_iff {register : Nat → Bool}
    (hregister : ∀ k < 104, register k = if Strips w then stripped w k else w k) :
    ((Strips w ∧ Admitted w ↔ Card w) ∧ (¬ (Strips w ∧ Admitted w) → ∀ k < 104, register k = w k)) ↔
      (Strips w → (Admitted w ∧ AllOdd w) ∨ (¬ Admitted w ∧ ∀ k < 66, bare w k = w (8 + k))) := by
  by_cases hstrips : Strips w
  · rw [imp_iff_right hstrips]
    simp only [if_pos hstrips] at hregister
    by_cases hadmitted : Admitted w
    · -- a card is reported, and its groups have to be odd
      have hcard : Strips w ∧ Admitted w := ⟨hstrips, hadmitted⟩
      rw [iff_true_left hcard, and_iff_left fun h => absurd hcard h, or_iff_left fun h => h.1 hadmitted]
      exact ⟨fun h => ⟨hadmitted, h.2.1⟩, fun h => ⟨hstrips.1, h.2, hadmitted⟩⟩
    · -- nothing is reported, and the register has to be as it was
      have hcard : ¬ (Strips w ∧ Admitted w) := fun h => hadmitted h.2
      rw [iff_false_left hcard, imp_iff_right hcard, and_iff_right fun h : Card w => hadmitted h.2.2,
        or_iff_right fun h => hadmitted h.1, and_iff_right hadmitted, ← stripped_eq_iff]
      exact forall₂_congr fun k hk => by rw [hregister k hk]
  · refine iff_of_true ⟨iff_of_false (fun h => hstrips h.1) fun h => hstrips h.strips,
      fun _ k hk => ?_⟩ fun h => absurd h hstrips
    rw [hregister k hk, if_neg hstrips]

theorem step_exact_iff (hsized : Sized s.decoder) (h : Exact s) (hreported : s.reported = false)
    (b : Bool) :
    ∃ s', machine.step s (.bit b) = some s' ∧ Sized s'.decoder ∧ (Exact s' ↔ Fine s (.bit b)) := by
  obtain ⟨decoder', hfeed, hsized', hbits⟩ := feedBit_eq hsized (h.2 hreported) b
  refine ⟨⟨decoder', s.pushed ++ [b],
    decide (Strips (window (s.pushed ++ [b])) ∧ Admitted (window (s.pushed ++ [b])))⟩,
    congrArg (s.fed b) hfeed, hsized', ?_⟩
  refine (and_congr ?_ ?_).trans ((looked_iff hbits).trans (and_iff_right hreported).symm)
  · exact iff_congr decide_eq_true_iff Iff.rfl
  · exact imp_congr_left decide_eq_false_iff_not

theorem exact_start (decoder : Decoder) : Exact ⟨decoderStart decoder, [], false⟩ := by
  refine ⟨iff_of_false Bool.false_ne_true fun h => ?_, fun _ k hk => ?_⟩
  · have hframed : Framed fun _ => false :=
      (framed_congr fun k hk => window_nil hk).mp h.1
    exact absurd hframed (by decide)
  · rw [window_nil hk]
    have hzero : (replicate 13 (0 : UInt8)).getD (k / 8) 0 = 0 := by
      rw [getD_eq_getElem _ _ (by rw [length_replicate]; omega), getElem_replicate]
    show ((replicate 13 (0 : UInt8)).getD (k / 8) 0).toNat.testBit _ = _
    rw [hzero]
    exact Nat.zero_testBit _

/-- What the runs keep. -/
def Holds (s : Monitor) : Prop := Sized s.decoder ∧ Exact s

theorem holds_step (e : Event) (h : Holds s) (hfine : Fine s e) :
    ∃ s', machine.step s e = some s' ∧ Holds s' := by
  cases e with
  | start => exact ⟨_, rfl, ⟨length_replicate, h.1.data⟩, exact_start s.decoder⟩
  | bit value =>
    obtain ⟨s', hstep, hsized, hexact⟩ := step_exact_iff h.1 h.2 hfine.1 value
    exact ⟨s', hstep, hsized, hexact.mpr hfine⟩

/-- In such a run no access falls outside an array, a card is reported exactly when the last 104 bits
are the frame of one, and a window that is rejected stays in the register. -/
theorem awid_exact {events : List Event} (hmeets : machine.Meets Fine initial events) :
    ∃ s, machine.run initial events = some s ∧ Exact s := by
  have hinitial : Holds initial := ⟨⟨rfl, rfl⟩, exact_start initial.decoder⟩
  obtain ⟨s, hrun, h⟩ := machine.run_of_meets (fun s e h hfine => holds_step e h hfine) hinitial
    hmeets
  exact ⟨s, hrun, h.2⟩

theorem Framed.bit (h : Framed w) : w 7 = true := by
  have hvalue : value (fun k => w (0 + k)) 8 = 1 := h.1
  rw [value_succ] at hvalue
  cases hw : w 7 with
  | true => rfl
  | false =>
    rw [show w (0 + 7) = false from hw, Bool.toNat_false] at hvalue
    omega

/-- Bits that complete no frame are only pushed. -/
theorem run_unframed {bits : List Bool} (h : Holds s) (hreported : s.reported = false)
    (hbits : ∀ n < bits.length, window (s.pushed ++ bits.take (n + 1)) 7 = false) :
    ∃ decoder', machine.run s (bits.map .bit) = some ⟨decoder', s.pushed ++ bits, false⟩ ∧
      Holds ⟨decoder', s.pushed ++ bits, false⟩ ∧ machine.Meets Fine s (bits.map .bit) := by
  induction bits generalizing s with
  | nil =>
    obtain ⟨decoder, pushed, reported⟩ := s
    obtain rfl := hreported
    rw [append_nil]
    exact ⟨decoder, rfl, h, trivial⟩
  | cons b bits ih =>
    have hstrips : ¬ Strips (window (s.pushed ++ [b])) := fun hs =>
      Bool.false_ne_true ((hbits 0 (Nat.succ_pos _)).symm.trans hs.1.bit)
    have hfine : Fine s (.bit b) := ⟨hreported, fun hs => absurd hs hstrips⟩
    obtain ⟨decoder₁, hfeed, -⟩ := feedBit_eq h.1 (h.2.2 hreported) b
    rw [decide_eq_false fun hs => hstrips hs.1] at hfeed
    obtain ⟨s₁, hstep, h₁⟩ := holds_step (.bit b) h hfine
    obtain rfl := Option.some.inj ((congrArg (s.fed b) hfeed).symm.trans hstep)
    obtain ⟨decoder', hrun, h', hmeets⟩ := ih h₁ rfl fun n hn => by
      have hnext := hbits (n + 1) (Nat.succ_lt_succ hn)
      rwa [take_succ_cons, append_cons] at hnext
    rw [append_cons]
    exact ⟨decoder', machine.run_cons_eq_some.mpr ⟨_, hstep, hrun⟩, h',
      (machine.meets_cons_of_step hstep).mpr ⟨hfine, hmeets⟩⟩

def frame (groups : List Bool) : List Event :=
  ([false, false, false, false, false, false, false, true] ++ groups ++
    [false, false, false, false, false, false, false, true]).map .bit

def begun (groups : List Bool) : List Bool :=
  [false, false, false, false, false, false, false, true] ++ groups ++ replicate 7 false

theorem window_begun {groups : List Bool} (hlen : groups.length = 88) {n : Nat}
    (hn : n < (begun groups).length) : window ((begun groups).take (n + 1)) 7 = false := by
  have hbegun : (begun groups).length = 103 := by
    rw [begun, length_append, length_append, hlen]
    rfl
  rw [hbegun] at hn
  rw [window, length_take_of_le (by omega), getD_eq_getElem?_getD]
  rcases Nat.lt_or_ge (n + 1 + 7) 104 with hk | hk
  · rw [getElem?_append_left (by rwa [length_replicate]), getElem?_replicate_of_lt hk]
    rfl
  · have hzeros : begun groups = replicate 7 false ++ true :: (groups ++ replicate 7 false) := rfl
    rw [getElem?_append_right (by rwa [length_replicate]), length_replicate,
      getElem?_take_of_lt (by omega), hzeros, getElem?_append_left (by rw [length_replicate]; omega),
      getElem?_replicate_of_lt (by omega)]
    rfl

def whole (groups : List Bool) : Nat → Bool := window (begun groups ++ [true])

/-- The run over a frame, with what the condition asks of its last bit. -/
theorem run_frame {groups : List Bool} (hlen : groups.length = 88) :
    ∃ decoder, machine.run initial (frame groups) = some ⟨decoder, begun groups ++ [true],
        decide (Strips (whole groups) ∧ Admitted (whole groups))⟩ ∧
      (∀ k < 104, high decoder.encodedData k =
        if Strips (whole groups) then stripped (whole groups) k else whole groups k) ∧
      (Admitted (whole groups) ∧ AllOdd (whole groups) →
        machine.Meets Fine initial (frame groups)) := by
  have hframe : frame groups = (begun groups).map .bit ++ [.bit true] := by
    rw [frame, begun, map_append, map_append, map_append, map_append, append_assoc, append_assoc,
      append_assoc]
    rfl
  have hinitial : Holds initial := ⟨⟨rfl, rfl⟩, exact_start initial.decoder⟩
  obtain ⟨decoder, hrun, h, hmeets⟩ : ∃ decoder, machine.run initial ((begun groups).map .bit) =
      some ⟨decoder, begun groups, false⟩ ∧ Holds ⟨decoder, begun groups, false⟩ ∧
      machine.Meets Fine initial ((begun groups).map .bit) :=
    run_unframed hinitial rfl fun _ hn => window_begun hlen hn
  obtain ⟨decoder', hfeed, -, hbits⟩ := feedBit_eq h.1 (h.2.2 rfl) true
  have hstep : machine.step ⟨decoder, begun groups, false⟩ (.bit true) =
      some ⟨decoder', begun groups ++ [true], _⟩ := congrArg (Monitor.fed _ true) hfeed
  rw [hframe]
  exact ⟨decoder', (machine.run_append_of_run hrun _).trans
      (machine.run_cons_eq_some.mpr ⟨_, hstep, rfl⟩), hbits, fun hgood =>
    (machine.meets_append hrun).mpr ⟨hmeets,
      (machine.meets_cons_of_step hstep).mpr ⟨⟨rfl, fun _ => .inl hgood⟩, trivial⟩⟩⟩

/-- The format length 26 with its parity bits, then zeros with theirs. -/
def zeroCard : List Bool :=
  [false, false, false, true, true, true, false, true, true, false, false, false] ++
    (replicate 19 [false, false, false, true]).flatten

/-- The frame of a card is reported, and the decoder is started again. -/
theorem awid_exact_zeroCard :
    ∃ s, machine.run initial (frame zeroCard ++ [.start]) = some s ∧ Exact s := by
  obtain ⟨decoder, hrun, -, hmeets⟩ := @run_frame zeroCard rfl
  exact awid_exact ((machine.meets_append hrun).mpr ⟨hmeets (by decide +kernel), trivial, trivial⟩)

/-- A frame of which one group has the wrong parity is reported; and a frame that is rejected for its
format length leaves the register without its parity bits. -/
theorem windows_misread :
    (machine.run initial (frame (zeroCard.take 84 ++ [false, false, false, false]))).map
        (fun s => (s.reported, decide (Card (window s.pushed)))) = some (true, false) ∧
      (machine.run initial (frame (replicate 22 [false, false, false, true]).flatten)).map
        (fun s => (s.reported, high s.decoder.encodedData 11, window s.pushed 11)) =
        some (false, false, true) := by
  obtain ⟨_, hodd, -⟩ := @run_frame (zeroCard.take 84 ++ [false, false, false, false]) rfl
  obtain ⟨_, hlength, hbits, -⟩ :=
    @run_frame (replicate 22 [false, false, false, true]).flatten rfl
  obtain ⟨hreported, hno⟩ : (Strips (whole (zeroCard.take 84 ++ [false, false, false, false])) ∧
      Admitted (whole (zeroCard.take 84 ++ [false, false, false, false]))) ∧
      ¬ Card (whole (zeroCard.take 84 ++ [false, false, false, false])) := by decide +kernel
  obtain ⟨hstrips, hnone, hleft, hpushed⟩ :
      Strips (whole (replicate 22 [false, false, false, true]).flatten) ∧
      ¬ Admitted (whole (replicate 22 [false, false, false, true]).flatten) ∧
      stripped (whole (replicate 22 [false, false, false, true]).flatten) 11 = false ∧
      whole (replicate 22 [false, false, false, true]).flatten 11 = true := by decide +kernel
  constructor
  · rw [hodd, decide_eq_true hreported]
    exact congrArg (fun b => some (true, b)) (decide_eq_false hno)
  · rw [hlength, decide_eq_false fun h => hnone h.2, Option.map_some]
    dsimp only
    rw [hbits 11 (by decide), if_pos hstrips, hleft]
    exact congrArg (fun b => some (false, false, b)) hpushed

theorem bind_eq_ok {α β : Type} {r : Result α} {f : α → Result β} {b : β}
    (h : (r >>= f) = .ok b) : ∃ a, r = .ok a ∧ f a = .ok b := by
  cases r with
  | error e => exact absurd h (by simp [bind, Except.bind])
  | ok a => exact ⟨a, rfl, h⟩

theorem feedBits_run (value : Bool) (rounds : Nat) {decoder' : Decoder} {reported : Bool}
    (hreported : s.reported = false)
    (h : feedBits value rounds s.decoder = .ok (reported, decoder')) :
    ∃ n ≤ rounds, ∃ s', machine.run s (replicate n (.bit value)) = some s' ∧
      s'.decoder = decoder' ∧ s'.reported = reported := by
  induction rounds generalizing s with
  | zero =>
    obtain ⟨rfl, rfl⟩ := Prod.mk.inj (Except.ok.inj h)
    exact ⟨0, Nat.le_refl 0, s, rfl, rfl, hreported⟩
  | succ rounds ih =>
    rw [feedBits] at h
    obtain ⟨⟨first, decoder₁⟩, hfeed, hrest⟩ := bind_eq_ok h
    have hstep : machine.step s (.bit value) = some ⟨decoder₁, s.pushed ++ [value], first⟩ :=
      congrArg (s.fed value) hfeed
    cases first with
    | true =>
      -- the loop is left with a card
      obtain ⟨rfl, rfl⟩ := Prod.mk.inj (Except.ok.inj hrest)
      exact ⟨1, Nat.succ_le_succ (Nat.zero_le _), _,
        machine.run_cons_eq_some.mpr ⟨_, hstep, rfl⟩, rfl, rfl⟩
    | false =>
      obtain ⟨n, hn, s', hrun, hdecoder, hlast⟩ :=
        @ih ⟨decoder₁, s.pushed ++ [value], false⟩ rfl hrest
      exact ⟨n + 1, Nat.succ_le_succ hn, s',
        machine.run_cons_eq_some.mpr ⟨_, hstep, hrun⟩, hdecoder, hlast⟩

theorem decoderFeed_run {demod demod' : FSKDemod} {decoder' : Decoder} {level reported : Bool}
    {duration : UInt32} (hreported : s.reported = false)
    (h : decoderFeed demod s.decoder level duration = .ok (reported, demod', decoder')) :
    ∃ value n s', machine.run s (replicate n (.bit value)) = some s' ∧
      s'.decoder = decoder' ∧ s'.reported = reported := by
  obtain ⟨last, hfeed, hreturn⟩ := bind_eq_ok h
  obtain ⟨rfl, hrest⟩ := Prod.mk.inj (Except.ok.inj hreturn)
  obtain ⟨-, rfl⟩ := Prod.mk.inj hrest
  obtain ⟨n, -, hrun⟩ := feedBits_run _ _ hreported hfeed
  exact ⟨_, n, hrun⟩

/-- The calls of `protocol_awid_decoder_feed` over the pulses of a signal. -/
def feedSignal : List (Bool × UInt32) → FSKDemod → Decoder → Result (FSKDemod × Decoder)
  | [], demod, decoder => .ok (demod, decoder)
  | (level, duration) :: signal, demod, decoder => do
    let fed ← decoderFeed demod decoder level duration
    feedSignal signal fed.2.1 fed.2.2

section Signals
variable {demod : FSKDemod} {decoder : Decoder}

/-- Any register has the window of some pushed bits. -/
theorem window_register (register : Bytes) {k : Nat} (hk : k < 104) :
    window ((range 104).map (high register)) k = high register k := by
  have hlen : ((range 104).map (high register)).length = 104 := by
    rw [length_map, length_range]
  rw [window, hlen, getD_append_right _ _ _ _ (by rw [length_replicate]; omega), length_replicate,
    Nat.add_sub_cancel_left, getD_eq_getElem _ _ (by rwa [hlen]), getElem_map, getElem_range]

theorem feedBit_sized (value : Bool) (h : Sized decoder) :
    ∃ reported decoder', feedBit decoder value = .ok (reported, decoder') ∧ Sized decoder' := by
  obtain ⟨decoder', hfeed, h', -⟩ := feedBit_eq h (fun _ hk => (window_register _ hk).symm) value
  exact ⟨_, decoder', hfeed, h'⟩

theorem feedBits_sized (value : Bool) (rounds : Nat) (h : Sized decoder) :
    ∃ reported decoder', feedBits value rounds decoder = .ok (reported, decoder') ∧
      Sized decoder' := by
  induction rounds generalizing decoder with
  | zero => exact ⟨false, decoder, rfl, h⟩
  | succ rounds ih =>
    obtain ⟨reported, decoder₁, hfeed, h₁⟩ := feedBit_sized value h
    rw [feedBits, hfeed]
    cases reported with
    | true => exact ⟨true, decoder₁, rfl, h₁⟩
    | false => exact ih h₁

/-- What a pulse leaves as it is. -/
theorem fskDemodFeed_pulses (polarity : Bool) (time : UInt32) :
    (fskDemodFeed demod polarity time).1.lowPulses = demod.lowPulses ∧
      (fskDemodFeed demod polarity time).1.hiPulses = demod.hiPulses := by
  unfold fskDemodFeed
  dsimp only
  split_ifs <;> exact ⟨rfl, rfl⟩

theorem feedSignal_sized (signal : List (Bool × UInt32)) (h : Sized decoder) :
    ∃ demod' decoder', feedSignal signal demod decoder = .ok (demod', decoder') ∧
      Sized decoder' ∧ demod'.lowPulses = demod.lowPulses ∧ demod'.hiPulses = demod.hiPulses := by
  induction signal generalizing demod decoder with
  | nil => exact ⟨demod, decoder, rfl, h, rfl, rfl⟩
  | cons pulse signal ih =>
    obtain ⟨level, duration⟩ := pulse
    obtain ⟨reported, decoder₁, hfeed, h₁⟩ := feedBits_sized
      (fskDemodFeed demod level duration).2.1 (fskDemodFeed demod level duration).2.2.toNat h
    obtain ⟨hlow, hhi⟩ := @fskDemodFeed_pulses demod level duration
    rw [← hlow, ← hhi, feedSignal, decoderFeed, hfeed]
    exact ih h₁

end Signals

/-- Over no signal does the decoder leave its arrays, and it divides by 6 and by 5 only. -/
theorem signal_inBounds (signal : List (Bool × UInt32)) :
    ∃ demod decoder, feedSignal signal (fskDemodAlloc 44 6 100 5) initial.decoder =
      .ok (demod, decoder) ∧ Sized decoder ∧ demod.lowPulses = 6 ∧ demod.hiPulses = 5 :=
  feedSignal_sized signal ⟨rfl, rfl⟩

end Awid
end NikitaFirmware.LfRfid
