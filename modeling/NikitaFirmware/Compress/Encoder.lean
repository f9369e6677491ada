import NikitaFirmware.Compress.Stream
import Mathlib.Algebra.Ring.Nat

/-!
# Bits and the bytes behind them

A decoder that stands before a tag puts nothing out on fewer than eight bits, so that the padding
of the last byte of a stream is not taken for anything. On thirty bits it does put something out.
A stream with four more bytes behind it therefore decodes to more.
-/

namespace NikitaFirmware
open List
namespace Compress
open Foundations

namespace Core
variable {config : Config} {core core' : Core config} {bits rest : List Bool} {out : Bytes}

/-- On fewer bits nothing is put out. -/
def nearest : State config → Nat
  | .tagBit => 8
  | .yieldLiteral => 8
  | .backrefIndexMsb _ => config.windowSz2 + config.lookaheadSz2
  | .backrefIndexLsb => min config.windowSz2 8 + config.lookaheadSz2
  | .backrefCountMsb _ => config.lookaheadSz2
  | .backrefCountLsb => min config.lookaheadSz2 8
  | .yieldBackref => 0

/-- On as many bits something is put out. -/
def farthest : State config → Nat
  | .tagBit => 30
  | .yieldLiteral => 8
  | .backrefIndexMsb _ => 29
  | .backrefIndexLsb => 22
  | .backrefCountMsb _ => 14
  | .backrefCountLsb => 8
  | .yieldBackref => 0

theorem bitCount_indexLsb :
    bitCount (.backrefIndexLsb : State config) = min config.windowSz2 8 := by
  change (if config.windowSz2 < 8 then config.windowSz2 else 8) = _
  split <;> omega

theorem bitCount_countLsb :
    bitCount (.backrefCountLsb : State config) = min config.lookaheadSz2 8 := by
  change (if config.lookaheadSz2 < 8 then config.lookaheadSz2 else 8) = _
  split <;> omega

/-- A state is not nearer to an output than its bits and the next state together, and a state
without an output of its own is not farther from one. -/
theorem accept_bounds (value : UInt16) (h : core.state ≠ .yieldBackref) :
    nearest core.state ≤ bitCount core.state + nearest (core.accept value).2.state ∧
      bitCount core.state ≤ farthest core.state ∧
      (core.state ≠ .yieldLiteral →
        bitCount core.state + farthest (core.accept value).2.state ≤ farthest core.state) := by
  have hwge := config.window_ge
  have hwle := config.window_le
  have hlge := config.lookahead_ge
  have hllt := config.lookahead_lt
  unfold accept
  cases hstate : core.state with
  | yieldBackref => exact absurd hstate h
  | yieldLiteral => exact ⟨Nat.le_add_right 8 _, le_rfl, fun hne => absurd rfl hne⟩
  | tagBit =>
    have hcount : bitCount (.tagBit : State config) ≤ farthest (.tagBit : State config) :=
      Nat.le_add_left 1 29
    -- a tag leads to a literal or to one of the two lengths of an index
    dsimp only
    rw [tagBit]
    split
    · exact ⟨Nat.le_succ 8, hcount, fun _ => Nat.le_add_left 9 21⟩
    · split
      · refine ⟨?_, hcount, fun _ => le_rfl⟩
        change 8 ≤ 1 + (config.windowSz2 + config.lookaheadSz2)
        omega
      · refine ⟨?_, hcount, fun _ => Nat.le_add_left 23 7⟩
        change 8 ≤ 1 + (min config.windowSz2 8 + config.lookaheadSz2)
        omega
  | backrefIndexMsb wide =>
    refine ⟨?_, ?_, fun _ => ?_⟩
    · change config.windowSz2 + config.lookaheadSz2 ≤
        config.windowSz2 - 8 + (min config.windowSz2 8 + config.lookaheadSz2)
      omega
    · change config.windowSz2 - 8 ≤ 29
      omega
    · change config.windowSz2 - 8 + 22 ≤ 29
      omega
  | backrefIndexLsb =>
    rw [bitCount_indexLsb]
    dsimp only
    rw [backrefIndexLsb]
    dsimp only
    split
    · refine ⟨?_, ?_, fun _ => ?_⟩
      · change min config.windowSz2 8 + config.lookaheadSz2 ≤
          min config.windowSz2 8 + config.lookaheadSz2
        exact le_rfl
      · change min config.windowSz2 8 ≤ 22
        omega
      · change min config.windowSz2 8 + 14 ≤ 22
        omega
    · refine ⟨?_, ?_, fun _ => ?_⟩
      · change min config.windowSz2 8 + config.lookaheadSz2 ≤
          min config.windowSz2 8 + min config.lookaheadSz2 8
        omega
      · change min config.windowSz2 8 ≤ 22
        omega
      · change min config.windowSz2 8 + 8 ≤ 22
        omega
  | backrefCountMsb wide =>
    refine ⟨?_, ?_, fun _ => ?_⟩
    · change config.lookaheadSz2 ≤ config.lookaheadSz2 - 8 + min config.lookaheadSz2 8
      omega
    · change config.lookaheadSz2 - 8 ≤ 14
      omega
    · change config.lookaheadSz2 - 8 + 8 ≤ 14
      omega
  | backrefCountLsb =>
    rw [bitCount_countLsb]
    refine ⟨?_, ?_, fun _ => ?_⟩
    · change min config.lookaheadSz2 8 ≤ min config.lookaheadSz2 8 + 0
      omega
    · change min config.lookaheadSz2 8 ≤ 8
      omega
    · change min config.lookaheadSz2 8 + 0 ≤ 8
      omega

theorem accept_out (value : UInt16) (h : core.state ≠ .yieldLiteral) :
    (core.accept value).1 = [] := by
  unfold accept
  split
  · rfl
  · next hstate => exact absurd hstate h
  all_goals rfl

theorem farthest_le (state : State config) : farthest state ≤ 30 := by
  cases state <;> exact Nat.le_of_ble_eq_true rfl

theorem outputs_eq_nil (h : bits.length < nearest core.state) : core.outputs bits = [] := by
  induction hlen : bits.length using Nat.strong_induction_on generalizing core bits with
  | _ k ih =>
    subst hlen
    have hstate : core.state ≠ .yieldBackref := by
      intro hstate
      rw [hstate] at h
      exact absurd h (Nat.not_lt_zero _)
    by_cases hle : bitCount core.state ≤ bits.length
    · have hpos := bitCount_pos hstate
      obtain ⟨hnear, -, -⟩ := accept_bounds (core.taken bits) hstate
      have hliteral : core.state ≠ .yieldLiteral := by
        intro hliteral
        rw [hliteral] at h hle
        exact absurd h (Nat.not_lt.mpr hle)
      have hdrop := length_drop (i := bitCount core.state) (l := bits)
      rw [outputs_of_some (next_of_le hstate hle), accept_out _ hliteral, nil_append]
      exact ih _ (by omega) (by omega) rfl
    · exact outputs_of_none (by rw [next, if_neg hstate, if_neg hle])

/-- The count of a back-reference does not overflow. -/
structure Sane (core : Core config) : Prop where
  count_lt : core.state = .backrefCountLsb → core.outputCount.toNat < 32768
  count_ne : core.state = .yieldBackref → core.outputCount ≠ 0

theorem sane_of_state {core : Core config} (hcount : core.state ≠ .backrefCountLsb)
    (hyield : core.state ≠ .yieldBackref) : core.Sane :=
  ⟨fun h => absurd h hcount, fun h => absurd h hyield⟩

theorem reset_sane (config : Config) : (Core.reset config).Sane :=
  sane_of_state (fun h => by cases h) (fun h => by cases h)

theorem foldl_pushBit_lt (bits : List Bool) (acc : UInt16) {k : Nat} (h : acc.toNat < 2 ^ k) :
    (bits.foldl pushBit acc).toNat < 2 ^ (k + bits.length) := by
  induction bits generalizing acc k with
  | nil => exact h
  | cons bit bits ih =>
    have hstep : (pushBit acc bit).toNat < 2 ^ (k + 1) := by
      rw [pushBit, UInt16.toNat_or]
      refine Nat.or_lt_two_pow ?_ ?_
      · rw [UInt16.toNat_shiftLeft]
        refine (Nat.mod_le _ _).trans_lt ?_
        change acc.toNat <<< 1 < _
        rw [Nat.shiftLeft_eq, Nat.pow_succ]
        omega
      · have hbit : (if bit then 1 else 0 : UInt16).toNat < 2 := by
          cases bit <;> decide
        exact hbit.trans_le (by rw [Nat.pow_succ]; have := Nat.two_pow_pos k; omega)
    have := ih _ hstep
    rwa [length_cons, Nat.add_comm bits.length 1, ← Nat.add_assoc]

theorem taken_lt (core : Core config) (bits : List Bool) :
    (core.taken bits).toNat < 2 ^ bitCount core.state := by
  have hlt := foldl_pushBit_lt (bits.take (bitCount core.state)) 0 (k := 0) Nat.one_pos
  rw [Nat.zero_add] at hlt
  refine hlt.trans_le (Nat.pow_le_pow_right (by decide) ?_)
  rw [length_take]
  exact Nat.min_le_left ..

theorem sane_next (h : core.Sane) (hnext : core.next bits = some (out, core', rest)) :
    core'.Sane := by
  obtain ⟨-, hout, -⟩ | ⟨hstate, -, hout, -⟩ := next_cases hnext
  · have htag := core.backref_state
    rw [hout] at htag
    exact sane_of_state (fun hcount => by cases htag.symm.trans hcount)
      (fun hyield => by cases htag.symm.trans hyield)
  · have hvalue := taken_lt core bits
    generalize core.taken bits = value at hout hvalue
    obtain rfl : (core.accept value).2 = core' := by rw [hout]
    unfold accept
    cases hcase : core.state with
    | yieldBackref => exact absurd hcase hstate
    | yieldLiteral => exact sane_of_state (fun h => by cases h) (fun h => by cases h)
    | tagBit =>
      dsimp only
      rw [tagBit]
      split
      · exact sane_of_state (fun h => by cases h) (fun h => by cases h)
      · split <;> exact sane_of_state (fun h => by cases h) (fun h => by cases h)
    | backrefIndexMsb wide => exact sane_of_state (fun h => by cases h) (fun h => by cases h)
    | backrefIndexLsb =>
      refine ⟨fun _ => (by decide : (0 : UInt16).toNat < 32768), ?_⟩
      dsimp only
      rw [backrefIndexLsb]
      dsimp only
      split <;> exact fun h => by cases h
    | backrefCountMsb wide =>
      refine ⟨fun _ => ?_, fun h => by cases h⟩
      -- the high byte of the count has at most six bits
      rw [hcase] at hvalue
      have hbits : 2 ^ bitCount (.backrefCountMsb wide) ≤ 2 ^ 6 := by
        refine Nat.pow_le_pow_right (by decide) ?_
        have := config.window_le
        have := config.lookahead_lt
        change config.lookaheadSz2 - 8 ≤ 6
        omega
      change (value <<< 8).toNat < 32768
      rw [UInt16.toNat_shiftLeft]
      refine (Nat.mod_le _ _).trans_lt ?_
      change value.toNat <<< 8 < _
      rw [Nat.shiftLeft_eq]
      omega
    | backrefCountLsb =>
      refine ⟨fun h => (by cases h), fun _ => ?_⟩
      rw [hcase] at hvalue
      have hbits : 2 ^ bitCount (.backrefCountLsb : State config) ≤ 2 ^ 15 :=
        Nat.pow_le_pow_right (by decide) ((bitCount_le _).trans (by decide))
      have hor : (core.outputCount ||| value).toNat < 2 ^ 15 := by
        rw [UInt16.toNat_or]
        exact Nat.or_lt_two_pow (h.count_lt hcase) (hvalue.trans_le hbits)
      change (core.outputCount ||| value) + 1 ≠ 0
      intro hzero
      have hsum := congrArg UInt16.toNat hzero
      rw [UInt16.toNat_add] at hsum
      change ((core.outputCount ||| value).toNat + 1) % 65536 = 0 at hsum
      omega

theorem outputs_ne_nil (h : core.Sane) (hbits : farthest core.state ≤ bits.length) :
    core.outputs bits ≠ [] := by
  induction hlen : bits.length using Nat.strong_induction_on generalizing core bits with
  | _ k ih =>
    subst hlen
    by_cases hstate : core.state = .yieldBackref
    · rw [outputs_of_some (next_of_yieldBackref hstate bits)]
      refine append_ne_nil_of_left_ne_nil (length_pos_iff.mp ?_) _
      rw [length_backref]
      refine Nat.pos_of_ne_zero fun hzero => h.count_ne hstate ?_
      exact UInt16.toNat_inj.mp hzero
    · obtain ⟨-, hcount, hfar⟩ := accept_bounds (core.taken bits) hstate
      have hnext := next_of_le hstate (hcount.trans hbits)
      rw [outputs_of_some hnext]
      by_cases hliteral : core.state = .yieldLiteral
      · refine append_ne_nil_of_left_ne_nil ?_ _
        rw [accept, hliteral]
        exact cons_ne_nil _ _
      · have hpos := bitCount_pos hstate
        have hle := hfar hliteral
        have hdrop := length_drop (i := bitCount core.state) (l := bits)
        rw [accept_out _ hliteral, nil_append]
        exact ih _ (by omega) (sane_next h hnext) (by omega) rfl

theorem outputs_append (h : core.Sane) (bits : List Bool) :
    ∃ (core' : Core config) (rest : List Bool), core'.Sane ∧
      ∀ future, core.outputs (bits ++ future) = core.outputs bits ++ core'.outputs (rest ++ future) := by
  induction core, bits using outputs.induct with
  | case1 core bits hnone =>
    refine ⟨core, bits, h, fun future => ?_⟩
    rw [outputs_of_none hnone, nil_append]
  | case2 core bits out next rest hsome ih =>
    obtain ⟨core', left, hsane, hfuture⟩ := ih (sane_next h hsome)
    refine ⟨core', left, hsane, fun future => ?_⟩
    rw [outputs_of_some (next_append hsome future), outputs_of_some hsome, hfuture, append_assoc]

end Core

variable {config : Config}

theorem decoded_eq (config : Config) (stream : Bytes) :
    decoded config stream = (Core.reset config).outputs (bytesBits stream) := by
  rw [decoded, Decoder.outputs, Decoder.reset, Reader.pending_reset, nil_append]

theorem decoded_append (config : Config) (a b : Bytes) :
    ∃ more, decoded config (a ++ b) = decoded config a ++ more ∧ (4 ≤ b.length → more ≠ []) := by
  obtain ⟨core', rest, hsane, hfuture⟩ := Core.outputs_append (Core.reset_sane config) (bytesBits a)
  refine ⟨core'.outputs (rest ++ bytesBits b), ?_, fun hb => ?_⟩
  · rw [decoded_eq, decoded_eq, bytesBits_append, hfuture]
  · refine Core.outputs_ne_nil hsane ((Core.farthest_le _).trans ?_)
    rw [length_append, length_bytesBits]
    omega

/-- The functions of a `heatshrink_encoder`; no result stands for an error. -/
structure Encoder (ε : Type) where
  reset : ε
  sink : ε → Bytes → Option (Nat × ε)
  poll : ε → Nat → Option (PollRes × Bytes × ε)
  finish : ε → FinishRes × ε

/-- What may be done with an encoder: it takes input, or has to be polled first, or has been told
that the input is over. -/
inductive Phase
  | ready
  | busy
  | finishing

def Phase.polled : Phase → PollRes → Phase
  | .finishing, _ => .finishing
  | _, .empty => .ready
  | _, .more => .busy

/-- `Fed e input output phase` says that `input` has been sunk and `output` polled so far. -/
structure Encoder.Simulates {ε : Type} (encoder : Encoder ε) (encode : Bytes → Bytes)
    (Fed : ε → Bytes → Bytes → Phase → Prop) : Prop where
  reset : Fed encoder.reset [] [] .ready
  sink {e input output} (h : Fed e input output .ready) {data : Bytes} (hne : data ≠ []) :
    ∃ size e', encoder.sink e data = some (size, e') ∧ 0 < size ∧ size ≤ data.length ∧
      Fed e' (input ++ data.take size) output .busy
  poll_zero (e) : encoder.poll e 0 = none
  poll {e input output phase} (h : Fed e input output phase) {size : Nat} (hpos : 0 < size) :
    ∃ res piece e', encoder.poll e size = some (res, piece, e') ∧ piece.length ≤ size ∧
      Fed e' input (output ++ piece) (phase.polled res)
  finish {e input output phase} (h : Fed e input output phase) :
    Fed (encoder.finish e).2 input output .finishing ∧
      ((encoder.finish e).1 = .done → output = encode input)
  output_prefix {e input output phase} (h : Fed e input output phase) {more : Bytes}
    (hmore : phase = .finishing → more = []) : output <+: encode (input ++ more)

/-- Whatever the pieces, the encoder puts out the encoding of its input. -/
def Encoder.Implements {ε : Type} (encoder : Encoder ε) (encode : Bytes → Bytes) : Prop :=
  ∃ Fed, encoder.Simulates encode Fed

def byteOf (b₇ b₆ b₅ b₄ b₃ b₂ b₁ b₀ : Bool) : UInt8 :=
  (if b₇ then 0x80 else 0) ||| (if b₆ then 0x40 else 0) ||| (if b₅ then 0x20 else 0) |||
    (if b₄ then 0x10 else 0) ||| (if b₃ then 0x08 else 0) ||| (if b₂ then 0x04 else 0) |||
    (if b₁ then 0x02 else 0) ||| (if b₀ then 0x01 else 0)

def packBits : List Bool → Bytes
  | b₇ :: b₆ :: b₅ :: b₄ :: b₃ :: b₂ :: b₁ :: b₀ :: bits =>
    byteOf b₇ b₆ b₅ b₄ b₃ b₂ b₁ b₀ :: packBits bits
  | _ => []

/-- A tag bit and the byte, for each byte. -/
def literalBits (data : Bytes) : List Bool := data.flatMap fun b => true :: bitsFrom 0x80 b

/-- The literals, with zero bits up to the end of the last byte. -/
def literals (data : Bytes) : Bytes :=
  packBits (literalBits data ++ List.replicate (7 * data.length % 8) false)

theorem bitsFrom_byteOf (b₇ b₆ b₅ b₄ b₃ b₂ b₁ b₀ : Bool) :
    bitsFrom 0x80 (byteOf b₇ b₆ b₅ b₄ b₃ b₂ b₁ b₀) = [b₇, b₆, b₅, b₄, b₃, b₂, b₁, b₀] := by
  revert b₇ b₆ b₅ b₄ b₃ b₂ b₁ b₀
  decide

theorem bytesBits_packBits (bits : List Bool) (h : 8 ∣ bits.length) :
    bytesBits (packBits bits) = bits := by
  induction bits using packBits.induct with
  | case1 b₇ b₆ b₅ b₄ b₃ b₂ b₁ b₀ bits ih =>
    rw [packBits, bytesBits_cons, bitsFrom_byteOf, ih]
    · rfl
    · simp only [length_cons] at h
      omega
  | case2 bits hshort =>
    have hlt : bits.length < 8 := by
      by_contra hge
      rcases bits with _ | ⟨b₇, _ | ⟨b₆, _ | ⟨b₅, _ | ⟨b₄, _ | ⟨b₃, _ | ⟨b₂, _ | ⟨b₁, _ | ⟨b₀, bits⟩⟩⟩⟩⟩⟩⟩⟩
      iterate 8 exact hge (Nat.le_of_ble_eq_true rfl)
      exact hshort b₇ b₆ b₅ b₄ b₃ b₂ b₁ b₀ bits rfl
    obtain rfl : bits = [] := length_eq_zero_iff.mp (by omega)
    rfl

theorem length_literalBits (data : Bytes) : (literalBits data).length = 9 * data.length := by
  induction data with
  | nil => rfl
  | cons b bs ih =>
    rw [literalBits, flatMap_cons, length_append, length_cons,
      length_bitsFrom_first, ← literalBits, ih, length_cons]
    omega

theorem foldl_pushBit_bitsFrom (b : UInt8) : ((bitsFrom 0x80 b).foldl pushBit 0).toUInt8 = b := by
  cases b with
  | ofBitVec b =>
    cases b with
    | ofFin b =>
      revert b
      decide +kernel

theorem outputs_literal {config : Config} {core : Core config} (h : core.state = .tagBit)
    (b : UInt8) :
    ∃ core' : Core config, core'.state = .tagBit ∧
      ∀ bits, core.outputs ((true :: bitsFrom 0x80 b) ++ bits) = b :: core'.outputs bits := by
  obtain ⟨state, count, index, window⟩ := core
  obtain rfl : state = .tagBit := h
  refine ⟨Core.literal ⟨.yieldLiteral, count, index, window⟩ ((bitsFrom 0x80 b).foldl pushBit 0),
    rfl, fun bits => ?_⟩
  have htag : Core.next ⟨.tagBit, count, index, window⟩ ((true :: bitsFrom 0x80 b) ++ bits) =
      some ([], ⟨.yieldLiteral, count, index, window⟩, bitsFrom 0x80 b ++ bits) :=
    Core.next_of_le nofun (Nat.le_add_left 1 _)
  rw [Core.outputs_of_some htag, nil_append]
  have hbyte : Core.next ⟨.yieldLiteral, count, index, window⟩ (bitsFrom 0x80 b ++ bits) =
      some ([b], Core.literal ⟨.yieldLiteral, count, index, window⟩
        ((bitsFrom 0x80 b).foldl pushBit 0), bits) := by
    have hstate : (⟨.yieldLiteral, count, index, window⟩ : Core config).state ≠ .yieldBackref :=
      nofun
    refine (Core.next_of_le hstate (Nat.le_add_left 8 _)).trans ?_
    change some ([((bitsFrom 0x80 b).foldl pushBit 0).toUInt8], _, _) = _
    rw [foldl_pushBit_bitsFrom]
    rfl
  exact Core.outputs_of_some hbyte

theorem outputs_literalBits {config : Config} {core : Core config} (h : core.state = .tagBit)
    (data : Bytes) :
    ∃ core' : Core config, core'.state = .tagBit ∧
      ∀ bits, core.outputs (literalBits data ++ bits) = data ++ core'.outputs bits := by
  induction data generalizing core with
  | nil => exact ⟨core, h, fun _ => rfl⟩
  | cons b bs ih =>
    obtain ⟨core₁, hstate₁, hbyte⟩ := outputs_literal h b
    obtain ⟨core₂, hstate₂, hrest⟩ := ih hstate₁
    refine ⟨core₂, hstate₂, fun bits => ?_⟩
    rw [literalBits, flatMap_cons, append_assoc, hbyte, ← literalBits, hrest]
    rfl

theorem decoded_literals (config : Config) (data : Bytes) :
    decoded config (literals data) = data := by
  have hlength : 8 ∣ (literalBits data ++ List.replicate (7 * data.length % 8) false).length := by
    rw [length_append, length_literalBits, length_replicate]
    omega
  obtain ⟨core, hstate, hdata⟩ := @outputs_literalBits config (Core.reset config) rfl data
  rw [decoded_eq, literals, bytesBits_packBits _ hlength, hdata]
  -- the padding is shorter than any output takes
  have hpad : (List.replicate (7 * data.length % 8) false).length < Core.nearest core.state := by
    rw [hstate, length_replicate]
    exact Nat.mod_lt _ (by decide)
  rw [Core.outputs_eq_nil hpad, append_nil]

/-- An encoder that finds no back-references: it keeps its input, and what is left of the output
once the input is over. -/
def literalEncoder : Encoder (Bytes × Option Bytes) where
  reset := ([], none)
  sink e data :=
    match e.2 with
    | none => some (data.length, e.1 ++ data, none)
    | some _ => none
  poll e size :=
    if size = 0 then none
    else
      match e.2 with
      | none => some (.empty, [], e)
      | some left =>
        some (if size ≤ left.length then .more else .empty, left.take size,
          e.1, some (left.drop size))
  finish e :=
    (if e.2.getD (literals e.1) = [] then .done else .more, e.1, some (e.2.getD (literals e.1)))

/-- How far the encoder of literals has come. -/
inductive LiteralsFed : Bytes × Option Bytes → Bytes → Bytes → Phase → Prop
  | sinking (input : Bytes) {phase : Phase} (hphase : phase ≠ .finishing) :
      LiteralsFed (input, none) input [] phase
  | finishing {input output left : Bytes} (hleft : output ++ left = literals input) :
      LiteralsFed (input, some left) input output .finishing

theorem literalEncoder_simulates : literalEncoder.Simulates literals LiteralsFed := by
  refine ⟨.sinking [] nofun, ?_, fun _ => rfl, ?_, ?_, ?_⟩
  · intro e input output h data hne
    cases h with
    | sinking input hphase =>
      refine ⟨data.length, _, rfl, length_pos_iff.mpr hne, le_rfl, ?_⟩
      rw [take_length]
      exact .sinking (input ++ data) nofun
  · intro e input output phase h size hpos
    cases h with
    | sinking input hphase =>
      refine ⟨.empty, [], _, if_neg hpos.ne', Nat.zero_le _, .sinking input ?_⟩
      cases phase with
      | finishing => exact absurd rfl hphase
      | ready => nofun
      | busy => nofun
    | @finishing input output left hleft =>
      refine ⟨_, _, _, if_neg hpos.ne', length_take_le size left, ?_⟩
      refine @LiteralsFed.finishing _ _ (left.drop size) ?_
      rw [append_assoc, take_append_drop, hleft]
  · intro e input output phase h
    cases h with
    | sinking input hphase =>
      refine ⟨.finishing (nil_append _), fun hdone => ?_⟩
      by_contra hne
      have hmore : (literalEncoder.finish (input, none)).1 = .more := if_neg (Ne.symm hne)
      rw [hdone] at hmore
      nomatch hmore
    | @finishing input output left hleft =>
      refine ⟨.finishing hleft, fun hdone => ?_⟩
      by_cases hnil : left = []
      · rw [← hleft, hnil, append_nil]
      · have hmore : (literalEncoder.finish (input, some left)).1 = .more := if_neg hnil
        rw [hdone] at hmore
        nomatch hmore
  · intro e input output phase h more hmore
    cases h with
    | sinking input hphase => exact List.nil_prefix
    | finishing hleft =>
      rw [hmore rfl, append_nil, ← hleft]
      exact List.prefix_append _ _

theorem literalEncoder_implements : literalEncoder.Implements literals :=
  ⟨LiteralsFed, literalEncoder_simulates⟩

end Compress
end NikitaFirmware
