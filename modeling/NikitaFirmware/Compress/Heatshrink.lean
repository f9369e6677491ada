import NikitaFirmware.Compress.Bits

/-!
# The heatshrink decoder

A decoder is polled for output. The polling loop runs the function of the current state until the
state does not change any more: then the output buffer is full or the input is used up, in the
middle of a byte, of a field or of a back-reference.

`Core.outputs` says what a decoder puts out on a list of bits, without buffers. A decoder `Yields`
a run of bytes on its way to another one if what it would put out on any further bits is that run
and then what the other one would put out.
-/

namespace NikitaFirmware
namespace Compress
open Foundations UInt16

/-- The sizes with which `heatshrink_decoder_alloc` gives a decoder. -/
structure Config where
  inputBufferSz : Nat
  windowSz2 : Nat
  lookaheadSz2 : Nat
  inputBuffer_pos : 0 < inputBufferSz
  inputBuffer_lt : inputBufferSz < 65536
  window_ge : 4 ≤ windowSz2
  window_le : windowSz2 ≤ 15
  lookahead_ge : 3 ≤ lookaheadSz2
  lookahead_lt : lookaheadSz2 < windowSz2

/-- `HSD_state`. The states of the high bytes are there only for fields wider than a byte. -/
inductive State (config : Config)
  | tagBit
  | yieldLiteral
  | backrefIndexMsb (wide : 8 < config.windowSz2)
  | backrefIndexLsb
  | backrefCountMsb (wide : 8 < config.lookaheadSz2)
  | backrefCountLsb
  | yieldBackref
  deriving DecidableEq

inductive PollRes
  | empty
  | more
  deriving DecidableEq

inductive FinishRes
  | done
  | more
  deriving DecidableEq

structure Window (config : Config) where
  headIndex : UInt16
  buf : Vector UInt8 (1 <<< config.windowSz2)

open List

namespace Window
variable {config : Config}

def mask (config : Config) : UInt16 := ofNat (1 <<< config.windowSz2 - 1)

theorem mask_toNat (config : Config) : (mask config).toNat = 1 <<< config.windowSz2 - 1 := by
  have hle : 1 <<< config.windowSz2 ≤ 1 <<< 15 := by
    rw [Nat.one_shiftLeft, Nat.one_shiftLeft]
    exact Nat.pow_le_pow_right (by decide) config.window_le
  refine toNat_ofNat_of_lt' ?_
  have : 1 <<< 15 < size := by decide
  omega

def slot (i : UInt16) : Fin (1 <<< config.windowSz2) :=
  ⟨(i &&& mask config).toNat, by
    have hle : (i &&& mask config).toNat ≤ (mask config).toNat := by
      rw [UInt16.toNat_and]
      exact Nat.and_le_right
    have hpos : 0 < 1 <<< config.windowSz2 := by
      rw [Nat.one_shiftLeft]
      exact Nat.two_pow_pos _
    rw [mask_toNat] at hle
    omega⟩

/-- `buf[head_index++ & mask] = c`. -/
def put (w : Window config) (c : UInt8) : Window config where
  headIndex := w.headIndex + 1
  buf := w.buf.set (slot w.headIndex).1 c (slot w.headIndex).2

/-- The byte that is `negOffset` bytes back. -/
def back (w : Window config) (negOffset : UInt16) : UInt8 :=
  w.buf.get (slot (w.headIndex - negOffset))

/-- The bytes that are copied from `negOffset` bytes back, and the window after that. -/
def copy (negOffset : UInt16) : Nat → Window config → Bytes × Window config
  | 0, w => ([], w)
  | count + 1, w =>
    let (bytes, w') := copy negOffset count (w.put (w.back negOffset))
    (w.back negOffset :: bytes, w')

theorem copy_succ (negOffset : UInt16) (count : Nat) (w : Window config) :
    copy negOffset (count + 1) w =
      (w.back negOffset :: (copy negOffset count (w.put (w.back negOffset))).1,
        (copy negOffset count (w.put (w.back negOffset))).2) := rfl

theorem length_copy (negOffset : UInt16) (count : Nat) (w : Window config) :
    (copy negOffset count w).1.length = count := by
  induction count generalizing w with
  | zero => rfl
  | succ count ih => exact congrArg (· + 1) (ih _)

theorem copy_add (negOffset : UInt16) (m n : Nat) (w : Window config) : copy negOffset (m + n) w =
      ((copy negOffset m w).1 ++ (copy negOffset n (copy negOffset m w).2).1,
        (copy negOffset n (copy negOffset m w).2).2) := by
  induction m generalizing w with
  | zero => rw [Nat.zero_add]; rfl
  | succ m ih =>
    rw [Nat.succ_add, copy_succ, copy_succ, ih]
    rfl

end Window

/-- The fields of `heatshrink_decoder` that are not about its input. -/
structure Core (config : Config) where
  state : State config
  outputCount : UInt16
  outputIndex : UInt16
  window : Window config

namespace Core
variable {config : Config}

/-- What is not about the input, after `heatshrink_decoder_reset`. -/
def reset (config : Config) : Core config where
  state := .tagBit
  outputCount := 0
  outputIndex := 0
  window := ⟨0, Vector.replicate _ 0⟩

variable (core : Core config)

def tagBit (bits : UInt16) : Core config :=
  if bits ≠ 0 then { core with state := .yieldLiteral }
  else if wide : 8 < config.windowSz2 then { core with state := .backrefIndexMsb wide }
  else { core with outputIndex := 0, state := .backrefIndexLsb }

def literal (byte : UInt16) : Core config :=
  { core with window := core.window.put byte.toUInt8, state := .tagBit }

def backrefIndexMsb (bits : UInt16) : Core config :=
  { core with outputIndex := bits <<< 8, state := .backrefIndexLsb }

def backrefIndexLsb (bits : UInt16) : Core config :=
  { core with
    outputIndex := (core.outputIndex ||| bits) + 1
    outputCount := 0
    state := if wide : 8 < config.lookaheadSz2 then .backrefCountMsb wide else .backrefCountLsb }

def backrefCountMsb (bits : UInt16) : Core config :=
  { core with outputCount := bits <<< 8, state := .backrefCountLsb }

def backrefCountLsb (bits : UInt16) : Core config :=
  { core with outputCount := (core.outputCount ||| bits) + 1, state := .yieldBackref }

/-- The first `count` bytes that are left of the back-reference, and the decoder behind them. -/
def backref (count : Nat) : Bytes × Core config :=
  ((Window.copy core.outputIndex count core.window).1, { core with
      window := (Window.copy core.outputIndex count core.window).2
      outputCount := core.outputCount - ofNat count
      state := if core.outputCount - ofNat count = 0 then .tagBit else .yieldBackref })

end Core

structure Decoder (config : Config) where
  reader : Reader config.inputBufferSz
  core : Core config

namespace Decoder
variable {config : Config}

def reset (config : Config) : Decoder config := ⟨.reset _, .reset config⟩

variable (d : Decoder config)

/-- A state in which `count` bits are read; out of input, the decoder stays in it. -/
def withBits (count : Nat) (next : UInt16 → Core config) : Decoder config :=
  match d.reader.getBits count with
  | (none, reader) => { d with reader }
  | (some bits, reader) => { reader, core := next bits }

def stTagBit : Decoder config := d.withBits 1 d.core.tagBit

def stBackrefIndexMsb : Decoder config := d.withBits (config.windowSz2 - 8) d.core.backrefIndexMsb

def stBackrefIndexLsb : Decoder config :=
  d.withBits (if config.windowSz2 < 8 then config.windowSz2 else 8) d.core.backrefIndexLsb

def stBackrefCountMsb : Decoder config :=
  d.withBits (config.lookaheadSz2 - 8) d.core.backrefCountMsb

def stBackrefCountLsb : Decoder config :=
  d.withBits (if config.lookaheadSz2 < 8 then config.lookaheadSz2 else 8) d.core.backrefCountLsb

def stYieldLiteral (bufSize : Nat) (out : Bytes) : Decoder config × Bytes :=
  if out.length < bufSize then
    match d.reader.getBits 8 with
    | (none, reader) => ({ d with reader }, out)
    | (some byte, reader) => ({ reader, core := d.core.literal byte }, out ++ [byte.toUInt8])
  else (d, out)

def stYieldBackref (bufSize : Nat) (out : Bytes) : Decoder config × Bytes :=
  if 0 < bufSize - out.length then
    let (bytes, core) := d.core.backref (min d.core.outputCount.toNat (bufSize - out.length))
    ({ d with core }, out ++ bytes)
  else (d, out)

/-- The function of the current state. -/
def dispatch (bufSize : Nat) (out : Bytes) : Decoder config × Bytes :=
  match d.core.state with
  | .tagBit => (d.stTagBit, out)
  | .yieldLiteral => d.stYieldLiteral bufSize out
  | .backrefIndexMsb _ => (d.stBackrefIndexMsb, out)
  | .backrefIndexLsb => (d.stBackrefIndexLsb, out)
  | .backrefCountMsb _ => (d.stBackrefCountMsb, out)
  | .backrefCountLsb => (d.stBackrefCountLsb, out)
  | .yieldBackref => d.stYieldBackref bufSize out

def finish : FinishRes :=
  match d.core.state with
  | .yieldBackref => .more
  | _ => if d.reader.inputSize = 0 then .done else .more

end Decoder

namespace Core
variable {config : Config}

def bitCount : State config → Nat
  | .tagBit => 1
  | .yieldLiteral => 8
  | .backrefIndexMsb _ => config.windowSz2 - 8
  | .backrefIndexLsb => if config.windowSz2 < 8 then config.windowSz2 else 8
  | .backrefCountMsb _ => config.lookaheadSz2 - 8
  | .backrefCountLsb => if config.lookaheadSz2 < 8 then config.lookaheadSz2 else 8
  | .yieldBackref => 0

/-- The byte that is put out with the bits of a state, and the decoder with them. -/
def accept (core : Core config) (bits : UInt16) : Bytes × Core config :=
  match core.state with
  | .tagBit => ([], core.tagBit bits)
  | .yieldLiteral => ([bits.toUInt8], core.literal bits)
  | .backrefIndexMsb _ => ([], core.backrefIndexMsb bits)
  | .backrefIndexLsb => ([], core.backrefIndexLsb bits)
  | .backrefCountMsb _ => ([], core.backrefCountMsb bits)
  | .backrefCountLsb => ([], core.backrefCountLsb bits)
  | .yieldBackref => ([], core)

/-- One state on a list of bits: what it puts out, and where that leads. -/
def next (core : Core config) (bits : List Bool) : Option (Bytes × Core config × List Bool) :=
  if core.state = .yieldBackref then
    some ((core.backref core.outputCount.toNat).1, (core.backref core.outputCount.toNat).2, bits)
  else if bitCount core.state ≤ bits.length then
    let accepted := core.accept ((bits.take (bitCount core.state)).foldl pushBit 0)
    some (accepted.1, accepted.2, bits.drop (bitCount core.state))
  else none

theorem bitCount_pos {state : State config} (h : state ≠ .yieldBackref) : 0 < bitCount state := by
  have := config.window_ge
  have := config.lookahead_ge
  cases state with
  | yieldBackref => exact absurd rfl h
  | tagBit => exact Nat.one_pos
  | yieldLiteral => exact Nat.succ_pos 7
  | backrefIndexMsb wide => exact Nat.sub_pos_of_lt wide
  | backrefCountMsb wide => exact Nat.sub_pos_of_lt wide
  | backrefIndexLsb =>
    change 0 < if config.windowSz2 < 8 then config.windowSz2 else 8
    split <;> omega
  | backrefCountLsb =>
    change 0 < if config.lookaheadSz2 < 8 then config.lookaheadSz2 else 8
    split <;> omega

theorem bitCount_le (state : State config) : bitCount state ≤ 8 := by
  have := config.window_le
  have := config.lookahead_lt
  cases state with
  | yieldBackref => exact Nat.zero_le 8
  | tagBit => exact Nat.le_add_left 1 7
  | yieldLiteral => exact le_rfl
  | backrefIndexMsb wide =>
    change config.windowSz2 - 8 ≤ 8
    omega
  | backrefCountMsb wide =>
    change config.lookaheadSz2 - 8 ≤ 8
    omega
  | backrefIndexLsb =>
    change (if config.windowSz2 < 8 then config.windowSz2 else 8) ≤ 8
    split <;> omega
  | backrefCountLsb =>
    change (if config.lookaheadSz2 < 8 then config.lookaheadSz2 else 8) ≤ 8
    split <;> omega

variable {core : Core config}

theorem accept_state_ne (bits : UInt16) (h : core.state ≠ .yieldBackref) :
    (core.accept bits).2.state ≠ core.state := by
  unfold accept
  split
  · next hstate =>
    rw [hstate, tagBit]
    split
    · nofun
    · split <;> nofun
  · next hstate => rw [hstate]; nofun
  · next hstate => rw [hstate]; nofun
  · next hstate =>
    rw [hstate, backrefIndexLsb]
    dsimp only
    split <;> nofun
  · next hstate => rw [hstate]; nofun
  · next hstate => rw [hstate]; nofun
  · next hstate => exact absurd hstate h

theorem backref_state (core : Core config) :
    (core.backref core.outputCount.toNat).2.state = .tagBit := by
  unfold backref
  dsimp only
  rw [UInt16.ofNat_toNat, UInt16.sub_self, if_pos rfl]

/-- The value of the bits that a state takes. -/
def taken (core : Core config) (bits : List Bool) : UInt16 :=
  (bits.take (bitCount core.state)).foldl pushBit 0

theorem next_of_yieldBackref (h : core.state = .yieldBackref) (bits : List Bool) : core.next bits =
      some ((core.backref core.outputCount.toNat).1, (core.backref core.outputCount.toNat).2,
        bits) := if_pos h

theorem next_of_le {bits : List Bool} (h : core.state ≠ .yieldBackref)
    (hle : bitCount core.state ≤ bits.length) :
    core.next bits = some ((core.accept (core.taken bits)).1, (core.accept (core.taken bits)).2,
        bits.drop (bitCount core.state)) := by
  rw [next, if_neg h, if_pos hle, taken]

variable {core core' : Core config}

variable {bits rest : List Bool}

theorem next_cases {out : Bytes} (h : core.next bits = some (out, core', rest)) :
    (core.state = .yieldBackref ∧ core.backref core.outputCount.toNat = (out, core') ∧
        rest = bits) ∨
      (core.state ≠ .yieldBackref ∧ bitCount core.state ≤ bits.length ∧
        core.accept (core.taken bits) = (out, core') ∧ rest = bits.drop (bitCount core.state)) := by
  by_cases hstate : core.state = .yieldBackref
  · rw [next_of_yieldBackref hstate] at h
    obtain ⟨rfl, rfl, rfl⟩ := h
    exact .inl ⟨hstate, rfl, rfl⟩
  · by_cases hle : bitCount core.state ≤ bits.length
    · rw [next_of_le hstate hle] at h
      obtain ⟨rfl, rfl, rfl⟩ := h
      exact .inr ⟨hstate, hle, rfl, rfl⟩
    · rw [next, if_neg hstate, if_neg hle] at h
      exact absurd h (Option.some_ne_none _).symm

/-- Bits are used up, or a back-reference is. -/
def measure (core : Core config) (bits : List Bool) : Nat :=
  2 * bits.length + if core.state = .yieldBackref then 1 else 0

theorem measure_next {out : Bytes}
    (h : core.next bits = some (out, core', rest)) : core'.measure rest < core.measure bits := by
  obtain ⟨hstate, hout, rfl⟩ | ⟨hstate, hle, -, rfl⟩ := next_cases h
  · have htag := core.backref_state
    rw [hout] at htag
    rw [measure, measure, if_pos hstate, htag, if_neg nofun]
    omega
  · have := bitCount_pos hstate
    rw [measure, measure, if_neg hstate, length_drop]
    split <;> omega

def outputs (core : Core config) (bits : List Bool) : Bytes :=
  match _h : core.next bits with
  | none => []
  | some (out, core', rest) => out ++ outputs core' rest
termination_by core.measure bits
decreasing_by exact measure_next _h

theorem outputs_of_none {bits : List Bool} (h : core.next bits = none) :
    core.outputs bits = [] := by
  rw [outputs]
  split
  · rfl
  · next hsome => exact absurd (h.symm.trans hsome) (Option.some_ne_none _).symm

theorem outputs_of_some {out : Bytes} (h : core.next bits = some (out, core', rest)) :
    core.outputs bits = out ++ core'.outputs rest := by
  rw [outputs]
  split
  · next hnone => exact absurd (hnone.symm.trans h) (Option.some_ne_none _).symm
  · next hsome =>
    obtain ⟨rfl, rfl, rfl⟩ := hsome.symm.trans h
    rfl

theorem next_append {out : Bytes}
    (h : core.next bits = some (out, core', rest)) (future : List Bool) :
    core.next (bits ++ future) = some (out, core', rest ++ future) := by
  obtain ⟨hstate, hout, rfl⟩ | ⟨hstate, hle, hout, rfl⟩ := next_cases h
  · rw [next_of_yieldBackref hstate, hout]
  · have htaken : core.taken (bits ++ future) = core.taken bits := by
      rw [taken, taken, take_append_of_le_length hle]
    rw [next_of_le hstate (hle.trans (by rw [length_append]; omega)), htaken, hout,
      drop_append_of_le_length hle]

theorem backref_split {m : Nat} (h : m < core.outputCount.toNat) :
    (core.backref m).2.state = .yieldBackref ∧ core.backref core.outputCount.toNat =
        ((core.backref m).1 ++ ((core.backref m).2.backref (core.backref m).2.outputCount.toNat).1,
          ((core.backref m).2.backref (core.backref m).2.outputCount.toNat).2) := by
  have hlt : m < size := h.trans core.outputCount.toNat_lt
  have hm : (ofNat m).toNat = m := toNat_ofNat_of_lt' hlt
  have hleft : (core.outputCount - UInt16.ofNat m).toNat = core.outputCount.toNat - m := by
    rw [UInt16.toNat_sub_of_le _ _ (UInt16.le_iff_toNat_le.mpr (by omega)), hm]
  have hstate : core.outputCount - UInt16.ofNat m ≠ 0 := by
    intro hzero
    rw [hzero] at hleft
    have : (0 : UInt16).toNat = 0 := rfl
    omega
  have hall : ∀ c : UInt16, c - UInt16.ofNat c.toNat = 0 := fun c => by
    rw [UInt16.ofNat_toNat, UInt16.sub_self]
  refine ⟨if_neg hstate, ?_⟩
  unfold backref
  dsimp only
  rw [hall, hall, hleft]
  have hcopy := Window.copy_add core.outputIndex m (core.outputCount.toNat - m) core.window
  rw [Nat.add_sub_of_le (Nat.le_of_lt h)] at hcopy
  rw [hcopy]

theorem length_backref (core : Core config) (count : Nat) :
    (core.backref count).1.length = count := Window.length_copy ..

end Core

namespace Decoder
variable {config : Config} {d d₁ d₂ : Decoder config} {bufSize : Nat} {out a b : Bytes}

/-- What a decoder puts out on the bits that it holds and further ones. -/
def outputs (d : Decoder config) (future : List Bool) : Bytes :=
  d.core.outputs (d.reader.pending ++ future)

def Yields (d : Decoder config) (out : Bytes) (d' : Decoder config) : Prop :=
  ∀ future, d.outputs future = out ++ d'.outputs future

def Stuck (d : Decoder config) : Prop :=
  d.core.state ≠ .yieldBackref ∧ d.reader.pending.length < Core.bitCount d.core.state

theorem Yields.refl (d : Decoder config) : d.Yields [] d := fun _ => rfl

theorem Yields.trans (h₁ : d.Yields a d₁) (h₂ : d₁.Yields b d₂) : d.Yields (a ++ b) d₂ := by
  intro future
  rw [h₁, h₂, append_assoc]

theorem yields_of_next (h : d.core.next d.reader.pending = some (out, d₁.core, d₁.reader.pending)) :
    d.Yields out d₁ := fun future => Core.outputs_of_some (Core.next_append h future)

theorem Stuck.inputSize (h : d.Stuck) : d.reader.inputSize = 0 :=
  Reader.size_zero_of_pending_lt (h.2.trans_le (Core.bitCount_le _))

theorem Stuck.outputs_nil (h : d.Stuck) : d.outputs [] = [] := by
  refine Core.outputs_of_none ?_
  rw [Core.next, if_neg h.1, append_nil, if_neg (Nat.not_le.mpr h.2)]

theorem Stuck.finish (h : d.Stuck) : d.finish = .done := by
  unfold Decoder.finish
  split
  · next hstate => exact absurd hstate h.1
  · exact if_pos h.inputSize

theorem reset_stuck (config : Config) : (Decoder.reset config).Stuck := by
  refine ⟨nofun, ?_⟩
  change (Reader.reset config.inputBufferSz).pending.length < 1
  rw [Reader.pending_reset]
  exact Nat.one_pos

theorem outputs_sink (d : Decoder config) (inBuf : Bytes) (future : List Bool) :
    outputs { d with reader := (d.reader.sink inBuf).2.2 } future =
      d.outputs (bytesBits (inBuf.take (d.reader.sink inBuf).2.1) ++ future) := by
  unfold outputs
  rw [Reader.pending_sink, append_assoc]

theorem Stuck.sink (h : d.Stuck) (inBuf : Bytes) : (d.reader.sink inBuf).1 = .ok ∧
      (d.reader.sink inBuf).2.1 = min config.inputBufferSz inBuf.length :=
  Reader.sink_of_size_zero h.inputSize config.inputBuffer_pos inBuf

theorem dispatch_of_bits (hstate : d.core.state ≠ .yieldBackref)
    (hroom : d.core.state = .yieldLiteral → out.length < bufSize) :
    d.dispatch bufSize out = match d.reader.getBits (Core.bitCount d.core.state) with
      | (none, reader) => ({ d with reader }, out)
      | (some bits, reader) =>
        ({ reader, core := (d.core.accept bits).2 }, out ++ (d.core.accept bits).1) := by
  have hbits : ∀ (count : Nat) (f : UInt16 → Core config),
      (d.withBits count f, out) = match d.reader.getBits count with
        | (none, reader) => ({ d with reader }, out)
        | (some bits, reader) => ({ reader, core := f bits }, out ++ []) := by
    intro count f
    rw [withBits]
    split <;> simp only [append_nil]
  unfold dispatch Core.accept
  cases hcase : d.core.state with
  | yieldBackref => exact absurd hcase hstate
  | yieldLiteral => exact if_pos (hroom hcase)
  | tagBit => exact hbits ..
  | backrefIndexMsb wide => exact hbits ..
  | backrefIndexLsb => exact hbits ..
  | backrefCountMsb wide => exact hbits ..
  | backrefCountLsb => exact hbits ..

/-- One turn of the polling loop: the state changes, which uses up bits or a back-reference, or
the output buffer is full, or the decoder is stuck. -/
theorem dispatch_cases (d : Decoder config) (bufSize : Nat) (out : Bytes) :
    ∃ bytes d', d.dispatch bufSize out = (d', out ++ bytes) ∧
      bytes.length ≤ bufSize - out.length ∧ d.Yields bytes d' ∧
      (d'.core.state = d.core.state ∧ (bufSize ≤ out.length + bytes.length ∨ d'.Stuck) ∨
        d'.core.state ≠ d.core.state ∧
          d'.core.measure d'.reader.pending < d.core.measure d.reader.pending) := by
  by_cases hstate : d.core.state = .yieldBackref
  · have hdispatch : d.dispatch bufSize out = d.stYieldBackref bufSize out := by
      rw [dispatch, hstate]
    rw [hdispatch, stYieldBackref]
    split
    · next hroom =>
      dsimp only
      refine ⟨_, _, rfl, ?_, ?_⟩
      · rw [Core.length_backref]
        exact Nat.min_le_right ..
      · by_cases hle : d.core.outputCount.toNat ≤ bufSize - out.length
        · -- the whole of the back-reference goes out
          rw [Nat.min_eq_left hle]
          have hnext : d.core.next d.reader.pending = some (_, _, _) := if_pos hstate
          refine ⟨yields_of_next hnext, .inr ⟨?_, Core.measure_next hnext⟩⟩
          rw [Core.backref_state, hstate]
          nofun
        · -- the buffer ends within it
          have hlt : bufSize - out.length < d.core.outputCount.toNat := Nat.lt_of_not_le hle
          rw [Nat.min_eq_right (Nat.le_of_lt hlt)]
          obtain ⟨hrest, hsplit⟩ := Core.backref_split hlt
          refine ⟨fun future => ?_, .inl ⟨hrest.trans hstate.symm, .inl ?_⟩⟩
          · rw [outputs, outputs, Core.outputs_of_some (if_pos hstate),
              Core.outputs_of_some (if_pos hrest), hsplit, append_assoc]
          · rw [Core.length_backref]
            omega
    · next hroom =>
      refine ⟨[], d, by rw [append_nil], Nat.zero_le _, .refl d, .inl ⟨rfl, .inl ?_⟩⟩
      rw [length_nil]
      omega
  · by_cases hroom : d.core.state = .yieldLiteral → out.length < bufSize
    · rw [dispatch_of_bits hstate hroom]
      by_cases hle : Core.bitCount d.core.state ≤ d.reader.pending.length
      · obtain ⟨reader, hbits, hpending⟩ := Reader.getBits_of_le (Core.bitCount_pos hstate)
          (Core.bitCount_le _) hle
        rw [hbits]
        have hnext := Core.next_of_le hstate hle
        rw [← hpending] at hnext
        refine ⟨_, _, rfl, ?_, yields_of_next hnext,
          .inr ⟨Core.accept_state_ne _ hstate, Core.measure_next hnext⟩⟩
        unfold Core.accept
        split
        · exact Nat.zero_le _
        · next hliteral =>
          have := hroom hliteral
          rw [length_singleton]
          omega
        all_goals exact Nat.zero_le _
      · have hlt := Nat.lt_of_not_le hle
        rw [Reader.getBits_of_lt (Core.bitCount_le _) hlt]
        exact ⟨[], d, by rw [append_nil], Nat.zero_le _, .refl d,
          .inl ⟨rfl, .inr ⟨hstate, hlt⟩⟩⟩
    · obtain ⟨hliteral, hfull⟩ := Classical.not_imp.mp hroom
      refine ⟨[], d, ?_, Nat.zero_le _, .refl d, .inl ⟨rfl, .inl ?_⟩⟩
      · rw [append_nil, dispatch, hliteral]
        exact if_neg hfull
      · rw [length_nil]
        omega

theorem measure_dispatch (h : (d.dispatch bufSize out).1.core.state ≠ d.core.state) :
    (d.dispatch bufSize out).1.core.measure (d.dispatch bufSize out).1.reader.pending <
      d.core.measure d.reader.pending := by
  obtain ⟨bytes, d', hdispatch, -, -, ⟨hsame, -⟩ | ⟨-, hlt⟩⟩ := dispatch_cases d bufSize out
  · rw [hdispatch] at h
    exact absurd hsame h
  · rwa [hdispatch]

def pollLoop (bufSize : Nat) (d : Decoder config) (out : Bytes) :
    PollRes × Decoder config × Bytes :=
  if _h : (d.dispatch bufSize out).1.core.state = d.core.state then
    (if (d.dispatch bufSize out).2.length = bufSize then .more else .empty, d.dispatch bufSize out)
  else pollLoop bufSize (d.dispatch bufSize out).1 (d.dispatch bufSize out).2
termination_by d.core.measure d.reader.pending
decreasing_by exact measure_dispatch _h

def poll (d : Decoder config) (outBufSize : Nat) : PollRes × Decoder config × Bytes :=
  d.pollLoop outBufSize []

theorem pollLoop_spec (bufSize : Nat) (d : Decoder config) (out : Bytes)
    (hle : out.length ≤ bufSize) :
    ∃ res d' bytes, d.pollLoop bufSize out = (res, d', out ++ bytes) ∧ d.Yields bytes d' ∧
      (res = .more ∧ (out ++ bytes).length = bufSize ∨
        res = .empty ∧ (out ++ bytes).length < bufSize ∧ d'.Stuck) := by
  induction d, out using pollLoop.induct bufSize with
  | case1 d out hsame =>
    obtain ⟨bytes, d', hdispatch, hlength, hyields, hcases⟩ := dispatch_cases d bufSize out
    rw [pollLoop, dif_pos hsame, hdispatch]
    rw [hdispatch] at hsame
    refine ⟨_, d', bytes, rfl, hyields, ?_⟩
    obtain ⟨-, hfull⟩ | ⟨hne, -⟩ := hcases
    · by_cases heq : (out ++ bytes).length = bufSize
      · exact .inl ⟨if_pos heq, heq⟩
      · rw [length_append] at heq
        refine .inr ⟨if_neg (by rwa [length_append]), ?_, hfull.resolve_left ?_⟩
        · rw [length_append]
          omega
        · omega
    · exact absurd hsame hne
  | case2 d out hne ih =>
    obtain ⟨bytes, d', hdispatch, hlength, hyields, -⟩ := dispatch_cases d bufSize out
    rw [pollLoop, dif_neg hne]
    rw [hdispatch] at ih ⊢
    obtain ⟨res, d'', more, hloop, hmore, hend⟩ := ih (by rw [length_append]; omega)
    refine ⟨res, d'', bytes ++ more, ?_, hyields.trans hmore, ?_⟩
    · rw [hloop, append_assoc]
    · rwa [append_assoc] at hend

theorem poll_spec (d : Decoder config) (outBufSize : Nat) :
    ∃ res d' out, d.poll outBufSize = (res, d', out) ∧ d.Yields out d' ∧
      (res = .more ∧ out.length = outBufSize ∨ res = .empty ∧ out.length < outBufSize ∧ d'.Stuck) :=
  pollLoop_spec outBufSize d [] (Nat.zero_le _)

end Decoder
end Compress
end NikitaFirmware
