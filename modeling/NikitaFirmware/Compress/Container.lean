import NikitaFirmware.Compress.Encoder

/-!
# The two forms of compressed data

`compress_encode` writes a header with the size of the heatshrink stream and the stream behind it,
or, where that is not shorter than the data, a zero byte and the data. `compress_decode` tells the
forms apart by the first byte.

A size is written to sixteen bits, and the stored form is copied with the size of the whole of it,
one byte more than there is data.
-/

namespace NikitaFirmware
open List UInt16
namespace Compress
open Foundations

variable {config : Config} {ε : Type}

/-- The difference of two sizes, which wraps around. -/
def sizeSub (a b : Nat) : Nat := if b ≤ a then a - b else a + 4294967296 - b

/-- Polls the encoder into `dataOut` until there is no more; says whether that failed. -/
def encodePoll (encoder : Encoder ε) : Nat → ε → Bytes → Nat → Option (Bool × ε × Bytes × Nat)
  | 0, _, _, _ => none
  | fuel + 1, e, dataOut, resBuffSize =>
    match encoder.poll e (sizeSub dataOut.length resBuffSize) with
    | none => some (true, e, dataOut, resBuffSize)
    | some (pollRes, piece, e) =>
      match Cells.write dataOut resBuffSize piece with
      | none => none
      | some dataOut =>
        if pollRes = .more then encodePoll encoder fuel e dataOut (resBuffSize + piece.length)
        else some (false, e, dataOut, resBuffSize + piece.length)

def encodeSink (encoder : Encoder ε) :
    Nat → ε → Bytes → Bytes → Nat → Option (Bool × ε × Bytes × Nat)
  | 0, _, _, _, _ => none
  | fuel + 1, e, data, dataOut, resBuffSize =>
    if data = [] then some (false, e, dataOut, resBuffSize)
    else
      match encoder.sink e data with
      | none => some (true, e, dataOut, resBuffSize)
      | some (sinkSize, e) =>
        match encodePoll encoder fuel e dataOut resBuffSize with
        | some (false, e, dataOut, resBuffSize) =>
          encodeSink encoder fuel e (data.drop sinkSize) dataOut resBuffSize
        | failed => failed

/-- Polls the rest, once the input is over. -/
def encodeFinish (encoder : Encoder ε) : Nat → ε → Bytes → Nat → Option (Bool × Bytes × Nat)
  | 0, _, _, _ => none
  | fuel + 1, e, dataOut, resBuffSize =>
    match encoder.poll e (sizeSub dataOut.length resBuffSize) with
    | none => some (true, dataOut, resBuffSize)
    | some (_, piece, e) =>
      match Cells.write dataOut resBuffSize piece with
      | none => none
      | some dataOut =>
        if (encoder.finish e).1 = .done then some (false, dataOut, resBuffSize + piece.length)
        else encodeFinish encoder fuel (encoder.finish e).2 dataOut (resBuffSize + piece.length)

def compressHeader (size : Nat) : Bytes :=
  let compressedBuffSize := ofNat size
  [0x01, 0x00, compressedBuffSize.toUInt8, (compressedBuffSize >>> 8).toUInt8]

/-- `compress_encode_internal`: the size, if it returns `true`, and the output buffer. -/
def compressEncode (encoder : Encoder ε) (fuel : Nat) (dataIn dataOut : Bytes) :
    Option (Option Nat × Bytes) :=
  if dataIn = [] then none
  else
    match encodeSink encoder fuel encoder.reset dataIn dataOut 4 with
    | none => none
    | some (sinkFailed, e, dataOut, resBuffSize) =>
      match encodeFinish encoder fuel (encoder.finish e).2 dataOut resBuffSize with
      | none => none
      | some (finishFailed, dataOut, resBuffSize) =>
        if (sinkFailed || finishFailed) = false ∧ resBuffSize < dataIn.length + 1 then
          (Cells.write dataOut 0 (compressHeader (resBuffSize - 4))).map fun dataOut =>
            (some resBuffSize, dataOut)
        else if dataIn.length < dataOut.length then
          (Cells.write dataOut 0 (0x00 :: dataIn)).map fun dataOut =>
            (some (dataIn.length + 1), dataOut)
        else some (none, dataOut)

/-- `memory_stream_io_callback` for a destination: the bytes there, and how many are taken. -/
def memorySink : Sink (Bytes × Nat) where
  send state ptr :=
    let size := min ptr.length (state.1.length - state.2)
    (size, state.1.take state.2 ++ ptr.take size ++ state.1.drop (state.2 + size), state.2 + size)

/-- `compress_decode_internal`: the size, if it returns `true`, and the output buffer. -/
def compressDecode (config : Config) (fuel : Nat) (dataIn : Bytes) (dataInSize : Nat)
    (dataOut : Bytes) : Option (Option Nat × Bytes) :=
  match Cells.read dataIn 0 1 with
  | none => none
  | some isCompressed =>
    if isCompressed ≠ [0x00] then
      match Cells.read dataIn 2 2 with
      | some [low, high] =>
        match Cells.read dataIn 4 (low.toNat + 256 * high.toNat) with
        | none => none
        | some compressed =>
          match decodeStreamInternal Source.atOnce memorySink 256 fuel (Decoder.reset config)
              compressed (dataOut, 0) with
          | none => none
          | some (true, dataOut, size) => some (some size, dataOut)
          | some (false, dataOut, _) => some (none, dataOut)
      | _ => none
    else if sizeSub dataInSize 1 ≤ dataOut.length then
      match Cells.read dataIn 1 dataInSize with
      | none => none
      | some data =>
        (Cells.write dataOut 0 data).map fun dataOut => (some (sizeSub dataInSize 1), dataOut)
    else some (none, dataOut)

def Restores (config : Config) (fuel : Nat) (dataIn : Bytes) (dataInSize : Nat)
    (data dataOut : Bytes) : Prop :=
  ∃ dataOut', compressDecode config fuel dataIn dataInSize dataOut =
      some (some data.length, dataOut') ∧
    dataOut'.take data.length = data

section Encoding
variable {encoder : Encoder ε} {encode : Bytes → Bytes} {Fed : ε → Bytes → Bytes → Phase → Prop}
  {e e' : ε} {input output dataOut dataOut' : Bytes} {phase : Phase}
  {capacity size size' : Nat} {failed : Bool}

/-- `output` stands in the output buffer, behind the place of the header. -/
structure Polled (capacity : Nat) (output dataOut : Bytes) (size : Nat) : Prop where
  length : dataOut.length = capacity
  size_eq : size = 4 + output.length
  fits : output ≠ [] → size ≤ capacity
  content : (dataOut.drop 4).take output.length = output

theorem Polled.write {piece : Bytes} (h : Polled capacity output dataOut size)
    (hwrite : Cells.write dataOut size piece = some dataOut') :
    Polled capacity (output ++ piece) dataOut' (size + piece.length) := by
  have hlength := Cells.length_of_write hwrite
  obtain ⟨hle, rfl⟩ := Cells.write_eq_some.mp hwrite
  have hsize := h.size_eq
  refine ⟨hlength.trans h.length, ?_, fun _ => hle.trans_eq h.length, ?_⟩
  · rw [length_append]
    omega
  · have hfront : (dataOut.take size).length = size := by
      rw [length_take]
      omega
    have houtput : (dataOut.take size).drop 4 = output := by
      rw [drop_take, hsize, Nat.add_sub_cancel_left, h.content]
    rw [append_assoc, drop_append_of_le_length (by omega), houtput, ← append_assoc]
    exact take_left

theorem poll_fed (hsim : encoder.Simulates encode Fed) (h : Fed e input output phase)
    {res : PollRes} {piece : Bytes} (hpoll : encoder.poll e size = some (res, piece, e')) :
    Fed e' input (output ++ piece) (phase.polled res) := by
  have hpos : 0 < size := by
    refine Nat.pos_of_ne_zero ?_
    rintro rfl
    rw [hsim.poll_zero] at hpoll
    nomatch hpoll
  obtain ⟨_, _, _, hsome, -, hfed⟩ := hsim.poll h hpos
  obtain ⟨rfl, rfl, rfl⟩ := hpoll.symm.trans hsome
  exact hfed

theorem poll_none (hsim : encoder.Simulates encode Fed) (h : Fed e input output phase)
    (hp : Polled capacity output dataOut size)
    (hnone : encoder.poll e (sizeSub dataOut.length size) = none) : size = capacity := by
  have hlength := hp.length
  have hsize := hp.size_eq
  have hzero : sizeSub dataOut.length size = 0 := by
    by_contra hne
    obtain ⟨res, piece, e', hsome, -⟩ := hsim.poll h (Nat.pos_of_ne_zero hne)
    rw [hnone] at hsome
    nomatch hsome
  rw [sizeSub] at hzero
  by_cases hnil : output = []
  · rw [hnil, length_nil] at hsize
    split at hzero <;> omega
  · have hfits := hp.fits hnil
    rw [if_pos (by omega)] at hzero
    omega

variable {fuel : Nat}

/-- Polling moves bytes out of the encoder until it is drained or the output is full. -/
theorem encodePoll_spec (hsim : encoder.Simulates encode Fed)
    (h : Fed e input output phase) (hphase : phase ≠ .finishing)
    (hp : Polled capacity output dataOut size)
    (hrun : encodePoll encoder fuel e dataOut size = some (failed, e', dataOut', size')) :
    ∃ output' phase', Fed e' input output' phase' ∧ phase' ≠ .finishing ∧
      Polled capacity output' dataOut' size' ∧ (failed = true → size' = capacity) ∧
      (failed = false → phase' = .ready) := by
  induction fuel generalizing e output phase dataOut size with
  | zero => nomatch hrun
  | succ fuel ih =>
    rw [encodePoll] at hrun
    split at hrun
    · next hnone =>
      obtain ⟨rfl, rfl, rfl, rfl⟩ := hrun
      exact ⟨output, phase, h, hphase, hp, fun _ => poll_none hsim h hp hnone, nofun⟩
    · next res piece e₁ hpoll =>
      have hfed := poll_fed hsim h hpoll
      split at hrun
      · nomatch hrun
      · next written hwrite =>
        have hp' := hp.write hwrite
        have hpolled : phase.polled res ≠ .finishing := by
          cases phase with
          | finishing => exact absurd rfl hphase
          | ready => cases res <;> nofun
          | busy => cases res <;> nofun
        split at hrun
        · exact ih hfed hpolled hp' hrun
        · next hempty =>
          obtain ⟨rfl, rfl, rfl, rfl⟩ := hrun
          refine ⟨_, _, hfed, hpolled, hp', nofun, fun _ => ?_⟩
          cases phase with
          | finishing => exact absurd rfl hphase
          | ready => cases res with
            | empty => rfl
            | more => exact absurd rfl hempty
          | busy => cases res with
            | empty => rfl
            | more => exact absurd rfl hempty

theorem encodeSink_spec (hsim : encoder.Simulates encode Fed) {data : Bytes}
    (h : Fed e input output .ready) (hp : Polled capacity output dataOut size)
    (hrun : encodeSink encoder fuel e data dataOut size = some (failed, e', dataOut', size')) :
    ∃ input' more output' phase', input' ++ more = input ++ data ∧
      Fed e' input' output' phase' ∧ phase' ≠ .finishing ∧ Polled capacity output' dataOut' size' ∧
      (failed = true → size' = capacity) ∧ (failed = false → more = []) := by
  induction fuel generalizing e input output data dataOut size with
  | zero => nomatch hrun
  | succ fuel ih =>
    rw [encodeSink] at hrun
    split at hrun
    · next hnil =>
      obtain ⟨rfl, rfl, rfl, rfl⟩ := hrun
      subst hnil
      exact ⟨input, [], output, .ready, rfl, h, nofun, hp, nofun, fun _ => rfl⟩
    · next hne =>
      obtain ⟨sunk, e₁, hsink, -, -, hfed⟩ := hsim.sink h hne
      rw [hsink] at hrun
      dsimp only at hrun
      have hrest : input ++ data.take sunk ++ data.drop sunk = input ++ data := by
        rw [append_assoc, take_append_drop]
      split at hrun
      · next e₂ written size₂ hpoll =>
        obtain ⟨output', phase', hfed', -, hp', -, hready⟩ :=
          encodePoll_spec hsim hfed nofun hp hpoll
        rw [hready rfl] at hfed'
        rw [← hrest]
        exact ih hfed' hp' hrun
      · next hfailed =>
        obtain ⟨output', phase', hfed', hphase', hp', hfull, -⟩ :=
          encodePoll_spec hsim hfed nofun hp hrun
        refine ⟨_, _, output', phase', hrest, hfed', hphase', hp', hfull, fun hok => ?_⟩
        subst hok
        exact absurd hrun (hfailed _ _ _)

theorem encodeFinish_spec (hsim : encoder.Simulates encode Fed)
    (h : Fed e input output .finishing) (hp : Polled capacity output dataOut size)
    (hrun : encodeFinish encoder fuel e dataOut size = some (failed, dataOut', size')) :
    ∃ output', output' <+: encode input ∧ Polled capacity output' dataOut' size' ∧
      (failed = true → size' = capacity) ∧ (failed = false → output' = encode input) := by
  induction fuel generalizing e output dataOut size with
  | zero => nomatch hrun
  | succ fuel ih =>
    have hprefix : ∀ {e output}, Fed e input output .finishing → output <+: encode input := by
      intro e output hfed
      have hwhole : output <+: encode (input ++ []) := hsim.output_prefix hfed fun _ => rfl
      rwa [append_nil] at hwhole
    rw [encodeFinish] at hrun
    split at hrun
    · next hnone =>
      obtain ⟨rfl, rfl, rfl⟩ := hrun
      exact ⟨output, hprefix h, hp, fun _ => poll_none hsim h hp hnone, nofun⟩
    · next res piece e₁ hpoll =>
      have hfed := poll_fed hsim h hpoll
      obtain ⟨hfinish, hdone⟩ := hsim.finish hfed
      split at hrun
      · nomatch hrun
      · next written hwrite =>
        split at hrun
        · next hend =>
          obtain ⟨rfl, rfl, rfl⟩ := hrun
          exact ⟨_, hprefix hfinish, hp.write hwrite, nofun, fun _ => hdone hend⟩
        · exact ih hfinish (hp.write hwrite) hrun

theorem length_of_encodeFinish
    (hrun : encodeFinish encoder fuel e dataOut size = some (failed, dataOut', size')) :
    dataOut'.length = dataOut.length := by
  induction fuel generalizing e dataOut size with
  | zero => nomatch hrun
  | succ fuel ih =>
    rw [encodeFinish] at hrun
    split at hrun
    · obtain ⟨rfl, rfl, rfl⟩ := hrun
      rfl
    · split at hrun
      · nomatch hrun
      · next written hwrite =>
        split at hrun
        · obtain ⟨rfl, rfl, rfl⟩ := hrun
          exact Cells.length_of_write hwrite
        · exact (ih hrun).trans (Cells.length_of_write hwrite)

theorem compressEncode_spec (hencoder : encoder.Implements encode) {data : Bytes}
    (hrun : compressEncode encoder fuel data dataOut = some (some size, dataOut')) :
    (encode data).length + 4 ≤ data.length ∧ size = (encode data).length + 4 ∧
        dataOut'.take size = compressHeader (encode data).length ++ encode data ∨
      data.length < (encode data).length + 4 ∧ size = data.length + 1 ∧
        dataOut'.take size = 0x00 :: data := by
  obtain ⟨Fed, hsim⟩ := hencoder
  rw [compressEncode] at hrun
  split at hrun
  · nomatch hrun
  · split at hrun
    · nomatch hrun
    · next sinkFailed e dataOut₁ size₁ hsink =>
      obtain ⟨input, more, output, phase, hinput, hfed, hphase, hp, hfull, hall⟩ :=
        encodeSink_spec hsim hsim.reset ⟨rfl, rfl, nofun, rfl⟩ hsink
      rw [nil_append] at hinput
      split at hrun
      · nomatch hrun
      · next finishFailed dataOut₂ size₂ hfinish =>
        have hlength := (length_of_encodeFinish hfinish).trans hp.length
        -- a failed run has filled the buffer with a part of the encoding
        have hresult : ((sinkFailed || finishFailed) = true →
              dataOut.length ≤ (encode data).length + 4) ∧
            ((sinkFailed || finishFailed) = false →
              Polled dataOut.length (encode data) dataOut₂ size₂) := by
          cases sinkFailed with
          | true =>
            refine ⟨fun _ => ?_, nofun⟩
            have hpart : output <+: encode (input ++ more) :=
              hsim.output_prefix hfed fun hfin => absurd hfin hphase
            have hle := hpart.length_le
            rw [hinput] at hle
            have hsize := hfull rfl
            have := hp.size_eq
            omega
          | false =>
            obtain rfl : more = [] := hall rfl
            obtain rfl : input = data := by rw [← hinput, append_nil]
            obtain ⟨output', hprefix, hp', hfull', hdone⟩ :=
              encodeFinish_spec hsim (hsim.finish hfed).1 hp hfinish
            refine ⟨fun hfailed => ?_, fun hok => ?_⟩
            · have hle := hprefix.length_le
              have hsize := hfull' hfailed
              have := hp'.size_eq
              omega
            · rw [← hdone hok]
              exact hp'
        split at hrun
        · next hform =>
          have hp₂ := hresult.2 hform.1
          have hsize := hp₂.size_eq
          obtain ⟨written, hwrite, heq⟩ := Option.map_eq_some_iff.mp hrun
          obtain ⟨rfl, rfl⟩ := heq
          obtain ⟨hle, rfl⟩ := Cells.write_eq_some.mp hwrite
          have hlt := hform.2
          have hheader : (compressHeader (encode data).length).length = 4 := rfl
          refine .inl ⟨by omega, by omega, ?_⟩
          rw [hsize, Nat.add_sub_cancel_left, take_zero, nil_append, Nat.zero_add, hheader,
            take_append, hheader, take_of_length_le (by omega), Nat.add_sub_cancel_left,
            hp₂.content]
        · next hform =>
          split at hrun
          · next hroom =>
            obtain ⟨written, hwrite, heq⟩ := Option.map_eq_some_iff.mp hrun
            obtain ⟨rfl, rfl⟩ := heq
            obtain ⟨hle, rfl⟩ := Cells.write_eq_some.mp hwrite
            refine .inr ⟨?_, rfl, ?_⟩
            · cases hfailed : sinkFailed || finishFailed with
              | true =>
                have := hresult.1 hfailed
                omega
              | false =>
                have hsize := (hresult.2 hfailed).size_eq
                have hlong : ¬size₂ < data.length + 1 := fun hlt => hform ⟨hfailed, hlt⟩
                omega
            · rw [take_zero, nil_append, ← length_cons, take_left]
          · nomatch hrun

end Encoding

theorem memorySink_collects {dataOut data : Bytes} (h : data.length ≤ dataOut.length) :
    memorySink.Collects (fun taken => (taken ++ dataOut.drop taken.length, taken.length)) data := by
  intro a b hprefix
  have hle := hprefix.length_le
  rw [length_append] at hle
  have hlength : (a ++ dataOut.drop a.length).length = dataOut.length := by
    rw [length_append, length_drop]
    omega
  have hsize : min b.length ((a ++ dataOut.drop a.length).length - a.length) = b.length := by
    rw [hlength]
    omega
  unfold memorySink
  dsimp only
  rw [hsize, take_left, take_length, length_append, drop_append,
    drop_of_length_le (Nat.le_add_right _ _), nil_append, drop_drop,
    Nat.add_sub_cancel_left]

theorem compressHeader_size (size : Nat) :
    (ofNat size).toUInt8.toNat + 256 * (ofNat size >>> 8).toUInt8.toNat = size % 65536 := by
  have hvalue : (ofNat size).toNat = size % 65536 := toNat_ofNat
  have hhigh : (UInt16.ofNat size >>> 8).toNat = size % 65536 / 256 := by
    rw [UInt16.toNat_shiftRight, hvalue]
    exact Nat.shiftRight_eq_div_pow _ 8
  rw [toNat_toUInt8, toNat_toUInt8, hvalue, hhigh]
  omega

theorem compressDecode_compressed {fuel : Nat} {stream behind dataOut : Bytes} {dataInSize : Nat}
    (hroom : (decoded config (stream.take (stream.length % 65536))).length ≤ dataOut.length)
    (hfuel : 65537 + (decoded config (stream.take (stream.length % 65536))).length < fuel) :
    compressDecode config fuel (compressHeader stream.length ++ stream ++ behind) dataInSize dataOut =
      some (some (decoded config (stream.take (stream.length % 65536))).length,
        decoded config (stream.take (stream.length % 65536)) ++
          dataOut.drop (decoded config (stream.take (stream.length % 65536))).length) := by
  have hmod := Nat.mod_le stream.length 65536
  have hread : Cells.read (compressHeader stream.length ++ stream ++ behind) 4
      ((ofNat stream.length).toUInt8.toNat + 256 * (ofNat stream.length >>> 8).toUInt8.toNat) =
      some (stream.take (stream.length % 65536)) := by
    rw [compressHeader_size, Cells.read_of_le]
    · change some ((stream ++ behind).take _) = _
      rw [take_append_of_le_length hmod]
    · rw [length_append, length_append]
      change 4 + _ ≤ 4 + _ + _
      omega
  have hdecode := decodeStreamInternal_spec (memorySink_collects hroom) (by decide : 0 < 256) fuel
    (Source.atOnce_exhausts (stream.take (stream.length % 65536))) (Decoder.reset_stuck config)
    (nil_append _) (by
      change _ + (decoded config _).length + 2 < fuel
      rw [length_take]
      have := Nat.mod_lt stream.length (by decide : 65536 > 0)
      omega)
  rw [nil_append, length_nil, drop_zero] at hdecode
  have hfirst : Cells.read (compressHeader stream.length ++ stream ++ behind) 0 1 = some [0x01] :=
    Cells.read_of_le (Nat.le_add_left 1 _)
  have hsize : Cells.read (compressHeader stream.length ++ stream ++ behind) 2 2 =
      some [(ofNat stream.length).toUInt8, (ofNat stream.length >>> 8).toUInt8] :=
    Cells.read_of_le (Nat.le_add_left 4 _)
  rw [compressDecode, hfirst]
  dsimp only
  rw [if_pos (by decide), hsize]
  dsimp only
  rw [hread]
  dsimp only
  rw [hdecode]

theorem restores_stored {fuel : Nat} {data behind dataOut : Bytes}
    (hroom : data.length ≤ dataOut.length) :
    Restores config fuel ((0x00 :: data) ++ behind) (data.length + 1) data dataOut ↔
      data.length < dataOut.length ∧ behind ≠ [] := by
  have hfirst : Cells.read ((0x00 :: data) ++ behind) 0 1 = some [0x00] :=
    Cells.read_of_le (Nat.le_add_left 1 _)
  have hlength : ((0x00 :: data) ++ behind).length = data.length + 1 + behind.length := by
    rw [length_append, length_cons]
  have hsub : sizeSub (data.length + 1) 1 = data.length := if_pos (Nat.le_add_left 1 _)
  have hdecode : compressDecode config fuel ((0x00 :: data) ++ behind) (data.length + 1) dataOut =
      match Cells.read ((0x00 :: data) ++ behind) 1 (data.length + 1) with
      | none => none
      | some bytes => (Cells.write dataOut 0 bytes).map fun dataOut => (some data.length, dataOut) := by
    rw [compressDecode, hfirst]
    dsimp only
    rw [if_neg (by decide), hsub, if_pos hroom]
  unfold Restores
  rw [hdecode]
  constructor
  · rintro ⟨dataOut', hrun, -⟩
    split at hrun
    · nomatch hrun
    · next bytes hread =>
      obtain ⟨written, hwrite, -⟩ := Option.map_eq_some_iff.mp hrun
      have hfits := (Cells.write_eq_some.mp hwrite).1
      rw [Cells.read] at hread
      split at hread
      · next hle =>
        obtain rfl := Option.some.inj hread
        rw [length_take, length_drop, hlength] at hfits
        rw [hlength] at hle
        refine ⟨by omega, fun hnil => ?_⟩
        rw [hnil, length_nil] at hle
        omega
      · nomatch hread
  · rintro ⟨hlt, hbehind⟩
    have hpos := length_pos_iff.mpr hbehind
    have hread : Cells.read ((0x00 :: data) ++ behind) 1 (data.length + 1) =
        some ((data ++ behind).take (data.length + 1)) := Cells.read_of_le (by omega)
    have hcopy : ((data ++ behind).take (data.length + 1)).length = data.length + 1 := by
      rw [length_take, length_append]
      omega
    obtain ⟨written, hwrite, -, htake⟩ :=
      @Cells.exists_write _ dataOut ((data ++ behind).take (data.length + 1)) 0 (by omega)
    refine ⟨written, ?_, ?_⟩
    · rw [hread]
      dsimp only
      rw [hwrite]
      rfl
    · rw [hcopy, Nat.zero_add, take_zero, nil_append] at htake
      have hfront := congrArg (List.take data.length) htake
      rwa [take_take, Nat.min_eq_left (Nat.le_succ _), take_take,
        Nat.min_eq_left (Nat.le_succ _), take_left] at hfront

/-- Data that was encoded is restored exactly when the stream has a size of sixteen bits or,
where the data is stored, when there is a byte behind what was written and room for it. -/
theorem restores_iff {encoder : Encoder ε} {encode : Bytes → Bytes}
    (hencoder : encoder.Implements encode) (hinverse : ∀ data, decoded config (encode data) = data)
    {fuel fuel' size : Nat} {data dataOut dataOut' behind buf : Bytes}
    (hencode : compressEncode encoder fuel data dataOut = some (some size, dataOut'))
    (hroom : data.length ≤ buf.length) (hfuel : 65537 + data.length < fuel') :
    Restores config fuel' (dataOut'.take size ++ behind) size data buf ↔
      (encode data).length + 4 ≤ data.length ∧ (encode data).length < 65536 ∨
        data.length < (encode data).length + 4 ∧ data.length < buf.length ∧ behind ≠ [] := by
  obtain ⟨hshort, rfl, htake⟩ | ⟨hlong, rfl, htake⟩ := compressEncode_spec hencoder hencode
  · rw [htake]
    have hparts := decoded_append config ((encode data).take ((encode data).length % 65536))
      ((encode data).drop ((encode data).length % 65536))
    rw [take_append_drop, hinverse] at hparts
    obtain ⟨more, hdata, hmore⟩ := hparts
    have hle := congrArg List.length hdata
    rw [length_append] at hle
    have hdecode := @compressDecode_compressed config fuel' (encode data) behind buf
      ((encode data).length + 4) (by omega) (by omega)
    unfold Restores
    rw [hdecode]
    constructor
    · rintro ⟨restored, hrun, -⟩
      have hsame := congrArg Prod.fst (Option.some.inj hrun)
      dsimp only at hsame
      have hlength := Option.some.inj hsame
      refine .inl ⟨hshort, Nat.lt_of_not_le fun hbig => ?_⟩
      -- at least 65536 bytes of the stream are not read
      have hdrop : 4 ≤ ((encode data).drop ((encode data).length % 65536)).length := by
        rw [length_drop]
        have := Nat.mod_lt (encode data).length (by decide : 65536 > 0)
        omega
      have := length_pos_iff.mpr (hmore hdrop)
      omega
    · rintro (⟨-, hlt⟩ | ⟨hlong, -⟩)
      · rw [Nat.mod_eq_of_lt hlt, take_length, hinverse]
        exact ⟨_, rfl, take_left⟩
      · exact absurd hlong (Nat.not_lt.mpr hshort)
  · rw [htake, restores_stored hroom]
    constructor
    · exact fun h => .inr ⟨hlong, h⟩
    · rintro (⟨hshort, -⟩ | ⟨-, h⟩)
      · exact absurd hlong (Nat.not_lt.mpr hshort)
      · exact h

def configDefault : Config where
  inputBufferSz := 256
  windowSz2 := 8
  lookaheadSz2 := 4
  inputBuffer_pos := by decide
  inputBuffer_lt := by decide
  window_ge := by decide
  window_le := by decide
  lookahead_ge := by decide
  lookahead_lt := by decide

theorem restores_iff_bytes : Restores configDefault 70000
    [0x00, 0x41, 0x42, 0x43, 0x44, 0x45, 0x00] 6 [0x41, 0x42, 0x43, 0x44, 0x45]
    [0x00, 0x00, 0x00, 0x00, 0x00, 0x00] :=
  (@restores_iff configDefault _ literalEncoder literals literalEncoder_implements
    (decoded_literals configDefault) 12 70000 6 [0x41, 0x42, 0x43, 0x44, 0x45]
    (List.replicate 12 0) _ [0x00] [0x00, 0x00, 0x00, 0x00, 0x00, 0x00] rfl
    (by decide) (by decide)).mpr (.inr ⟨by decide, by decide, by decide⟩)

theorem compressEncode_byte : compressEncode literalEncoder 4 [0x41] (List.replicate 8 0) =
      some (some 2, [0x00, 0x41, 0x00, 0x00, 0xA0, 0x80, 0x00, 0x00]) := rfl

/-- A buffer of the size of the data does not do for stored data. -/
theorem stored_not_restored : literalEncoder.Implements literals ∧
      (∀ data, decoded configDefault (literals data) = data) ∧
      compressEncode literalEncoder 4 [0x41] (List.replicate 8 0) =
        some (some 2, [0x00, 0x41, 0x00, 0x00, 0xA0, 0x80, 0x00, 0x00]) ∧
      ∀ fuel, ¬Restores configDefault fuel [0x00, 0x41, 0x00, 0x00, 0xA0, 0x80, 0x00, 0x00] 2 [0x41]
        [0x00] := by
  refine ⟨literalEncoder_implements, decoded_literals configDefault, compressEncode_byte,
    fun fuel hrestores => ?_⟩
  obtain ⟨restored, hrun, -⟩ := hrestores
  have hnone : compressDecode configDefault fuel [0x00, 0x41, 0x00, 0x00, 0xA0, 0x80, 0x00, 0x00] 2
      [0x00] = none := rfl
  rw [hnone] at hrun
  nomatch hrun

end Compress
end NikitaFirmware
