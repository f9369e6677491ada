import NikitaFirmware.Foundations.Feed
import NikitaFirmware.Compress.Heatshrink

/-!
# Decoding a stream

`compress_decode_streamed` decodes a stream from its first byte to its last one. A stream decoder
decodes it as far as it is read, and waits at any bit of the input and any byte of the output. Both
take the input from a callback, in pieces that the callback chooses.

The loops of the source have no bound: they are given `fuel` turns and have no result after them.
-/

namespace NikitaFirmware
open List
namespace Compress
open Foundations

variable {config : Config} {σ τ : Type}

def decoderPoll (sink : Sink τ) (bufferSize : Nat) :
    Nat → Decoder config → τ → Option (Bool × Decoder config × τ)
  | 0, _, _ => none
  | fuel + 1, d, t =>
    match d.poll bufferSize with
    | (pollRes, d, chunk) =>
      if (sink.send t chunk).1 ≠ chunk.length then some (false, d, (sink.send t chunk).2)
      else if pollRes = .more then decoderPoll sink bufferSize fuel d (sink.send t chunk).2
      else some (true, d, (sink.send t chunk).2)

def sinkLoop (sink : Sink τ) (workBufferSize : Nat) :
    Nat → Decoder config → Bytes → τ → Option (Bool × Decoder config × τ)
  | 0, _, _, _ => none
  | fuel + 1, d, chunk, t =>
    if chunk = [] then some (true, d, t)
    else
      match decoderPoll sink workBufferSize fuel { d with reader := (d.reader.sink chunk).2.2 } t with
      | some (true, d', t) =>
        sinkLoop sink workBufferSize fuel d' (chunk.drop (d.reader.sink chunk).2.1) t
      | failed => failed

def finishLoop (sink : Sink τ) (workBufferSize : Nat) : Nat → Decoder config → τ → Option (Bool × τ)
  | 0, _, _ => none
  | fuel + 1, d, t =>
    match d.finish with
    | .done => some (true, t)
    | .more =>
      match decoderPoll sink workBufferSize fuel d t with
      | none => none
      | some (false, _, t) => some (false, t)
      | some (true, d, t) => finishLoop sink workBufferSize fuel d t

/-- `compress_decode_stream_internal`: the result, and where it leaves the write callback. -/
def decodeStreamInternal (source : Source σ) (sink : Sink τ) (workBufferSize : Nat) :
    Nat → Decoder config → σ → τ → Option (Bool × τ)
  | 0, _, _, _ => none
  | fuel + 1, d, s, t =>
    match source.receive s workBufferSize with
    | (chunk, s) =>
      match sinkLoop sink workBufferSize fuel d chunk t with
      | none => none
      | some (false, _, t) => some (false, t)
      | some (true, d, t) =>
        if chunk = [] then finishLoop sink workBufferSize fuel d t
        else decodeStreamInternal source sink workBufferSize fuel d s t

def decodeStreamed (config : Config) (source : Source σ) (sink : Sink τ) (fuel : Nat) (s : σ)
    (t : τ) : Option (Bool × τ) :=
  decodeStreamInternal source sink config.inputBufferSz fuel (Decoder.reset config) s t

/-- `CompressStreamDecoder`, without its callback. -/
structure StreamDecoder (config : Config) where
  decoder : Decoder config
  streamPosition : Nat
  decodeBufferPosition : Nat
  decodeBuffer : Bytes

def streamDecoderAlloc (config : Config) : StreamDecoder config where
  decoder := .reset config
  streamPosition := 0
  decodeBufferPosition := 0
  decodeBuffer := List.replicate config.inputBufferSz 0

/-- Polls until the decoder has nothing more to put out or the output buffer is full. -/
def fillOutput : Nat → Decoder config → Nat → Bytes → Option (Decoder config × Nat × Bytes)
  | 0, _, _, _ => none
  | fuel + 1, d, chunkSize, out =>
    match d.poll chunkSize with
    | (pollRes, d, piece) =>
      if pollRes = .more ∧ chunkSize - piece.length ≠ 0 then
        fillOutput fuel d (chunkSize - piece.length) (out ++ piece)
      else some (d, chunkSize - piece.length, out ++ piece)

def readInput (source : Source σ) (sd : StreamDecoder config) (canReadMore : Bool) (s : σ) :
    Option (StreamDecoder config × Bool × σ) :=
  if canReadMore = true ∧ sd.decodeBufferPosition < config.inputBufferSz then
    match source.receive s (config.inputBufferSz - sd.decodeBufferPosition) with
    | (piece, s) =>
      (Cells.write sd.decodeBuffer sd.decodeBufferPosition piece).map fun decodeBuffer =>
        ({ sd with
            decodeBuffer
            decodeBufferPosition := sd.decodeBufferPosition + piece.length },
          decide (0 < piece.length), s)
  else some (sd, canReadMore, s)

/-- Sinks the input, moving what is left of it to the beginning of the buffer. -/
def sinkInput : Nat → StreamDecoder config → Bool → Option (StreamDecoder config × Bool)
  | 0, _, _ => none
  | fuel + 1, sd, canSinkMore =>
    if sd.decodeBufferPosition ≠ 0 ∧ canSinkMore = true then
      match Cells.read sd.decodeBuffer 0 sd.decodeBufferPosition with
      | none => none
      | some bytes =>
        match sd.decoder.reader.sink bytes with
        | (sinkRes, sinkSize, reader) =>
          let moved := if sinkSize ≠ 0 ∧ sd.decodeBufferPosition - sinkSize ≠ 0 then
              Cells.move sd.decodeBuffer 0 sinkSize (sd.decodeBufferPosition - sinkSize)
            else some sd.decodeBuffer
          match moved with
          | none => none
          | some decodeBuffer =>
            sinkInput fuel { sd with
                decoder := { sd.decoder with reader }
                decodeBufferPosition := sd.decodeBufferPosition - sinkSize
                decodeBuffer }
              (decide (sinkRes = .ok))
    else some (sd, canSinkMore)

/-- `compress_decode_stream_chunk`: once the output buffer is full, it is the answer. -/
def decodeStreamChunk (source : Source σ) :
    Nat → StreamDecoder config → Bool → Bool → σ → Nat → Bytes →
      Option (Bool × Bytes × StreamDecoder config × σ)
  | 0, _, _, _, _, _, _ => none
  | fuel + 1, sd, canSinkMore, canReadMore, s, chunkSize, out =>
    match fillOutput fuel sd.decoder chunkSize out with
    | none => none
    | some (decoder, chunkSize, out) =>
      if chunkSize = 0 then some (true, out, { sd with decoder }, s)
      else
        match readInput source { sd with decoder } canReadMore s with
        | none => none
        | some (sd, canReadMore, s) =>
          match sinkInput fuel sd canSinkMore with
          | none => none
          | some (sd, canSinkMore) =>
            decodeStreamChunk source fuel sd canSinkMore canReadMore s chunkSize out

def streamDecoderRead (source : Source σ) (fuel : Nat) (sd : StreamDecoder config) (s : σ)
    (dataOutSize : Nat) : Option (Bool × Bytes × StreamDecoder config × σ) :=
  match decodeStreamChunk source fuel sd true true s dataOutSize [] with
  | none => none
  | some (true, out, sd, s) =>
    some (true, out, { sd with streamPosition := sd.streamPosition + dataOutSize }, s)
  | some (false, out, sd, s) => some (false, out, sd, s)

/-- The loop of `compress_stream_decoder_seek`, which reads and discards. -/
def seekLoop (source : Source σ) (position : Nat) :
    Nat → StreamDecoder config → σ → Option (Bool × StreamDecoder config × σ)
  | 0, _, _ => none
  | fuel + 1, sd, s =>
    if sd.streamPosition < position then
      match streamDecoderRead source fuel sd s
          (min (position - sd.streamPosition) config.inputBufferSz) with
      | none => none
      | some (true, _, sd, s) => seekLoop source position fuel sd s
      | some (false, _, sd, s) => some (false, sd, s)
    else some (true, sd, s)

/-- `compress_stream_decoder_seek`; a position behind the current one only. -/
def streamDecoderSeek (source : Source σ) (fuel : Nat) (sd : StreamDecoder config) (s : σ)
    (position : Nat) : Option (Bool × StreamDecoder config × σ) :=
  if position < sd.streamPosition then none else seekLoop source position fuel sd s

def streamDecoderTell (sd : StreamDecoder config) : Nat := sd.streamPosition

/-- A call of the user of a stream decoder. -/
inductive Call
  | read (dataOutSize : Nat)
  | seek (position : Nat)

/-- The result of a call, the bytes that it read, and what `tell` says after it. -/
structure Answer where
  result : Bool
  dataOut : Bytes
  tell : Nat

/-- A run of calls. -/
def session (source : Source σ) (fuel : Nat) :
    StreamDecoder config → σ → List Call → Option (List Answer)
  | _, _, [] => some []
  | sd, s, .read dataOutSize :: calls =>
    match streamDecoderRead source fuel sd s dataOutSize with
    | none => none
    | some (result, dataOut, sd, s) =>
      (session source fuel sd s calls).map (⟨result, dataOut, streamDecoderTell sd⟩ :: ·)
  | sd, s, .seek position :: calls =>
    match streamDecoderSeek source fuel sd s position with
    | none => none
    | some (result, sd, s) =>
      (session source fuel sd s calls).map (⟨result, [], streamDecoderTell sd⟩ :: ·)

def decoded (config : Config) (stream : Bytes) : Bytes :=
  (Decoder.reset config).outputs (bytesBits stream)

/-- The calls go forward from `position` and stay within `size` bytes. -/
def Within (size : Nat) : Nat → List Call → Prop
  | _, [] => True
  | position, .read dataOutSize :: calls =>
    position + dataOutSize ≤ size ∧ Within size (position + dataOutSize) calls
  | position, .seek target :: calls => position ≤ target ∧ target ≤ size ∧ Within size target calls

def slices (data : Bytes) : Nat → List Call → List Answer
  | _, [] => []
  | position, .read dataOutSize :: calls =>
    ⟨true, (data.drop position).take dataOutSize, position + dataOutSize⟩ ::
      slices data (position + dataOutSize) calls
  | _, .seek target :: calls => ⟨true, [], target⟩ :: slices data target calls

section Streamed
variable {source : Source σ} {sink : Sink τ} {state : Bytes → τ} {data a : Bytes}
  {d : Decoder config}

theorem decoderPoll_spec (hsink : sink.Collects state data) {bufferSize : Nat} (hpos : 0 < bufferSize)
    {future : List Bool} (fuel : Nat) (hdata : a ++ d.outputs future <+: data)
    (hfuel : (d.outputs future).length < fuel) :
    ∃ d' out, decoderPoll sink bufferSize fuel d (state a) = some (true, d', state (a ++ out)) ∧
      d.Yields out d' ∧ d'.Stuck := by
  induction fuel generalizing d a with
  | zero => exact absurd hfuel (Nat.not_lt_zero _)
  | succ fuel ih =>
    obtain ⟨res, d₁, out, hpoll, hyields, hend⟩ := d.poll_spec bufferSize
    rw [hyields, ← append_assoc] at hdata
    have hsend := hsink a out ((List.prefix_append _ _).trans hdata)
    rw [decoderPoll, hpoll]
    dsimp only
    rw [hsend, if_neg (fun hne => hne rfl)]
    obtain ⟨rfl, hfull⟩ | ⟨rfl, -, hstuck⟩ := hend
    · have hless : (d₁.outputs future).length < fuel := by
        rw [hyields, length_append] at hfuel
        omega
      obtain ⟨d', more, hloop, hmore, hstuck⟩ := ih hdata hless
      refine ⟨d', out ++ more, ?_, hyields.trans hmore, hstuck⟩
      rw [if_pos rfl, hloop, append_assoc]
    · exact ⟨d₁, out, if_neg nofun, hyields, hstuck⟩

theorem sinkLoop_spec (hsink : sink.Collects state data) {workBufferSize : Nat}
    (hpos : 0 < workBufferSize) (fuel : Nat) {chunk : Bytes} {future : List Bool} (hstuck : d.Stuck)
    (hdata : a ++ d.outputs (bytesBits chunk ++ future) <+: data)
    (hfuel : chunk.length + (d.outputs (bytesBits chunk ++ future)).length + 1 < fuel) :
    ∃ d' out, sinkLoop sink workBufferSize fuel d chunk (state a) = some (true, d', state (a ++ out)) ∧
      (∀ further, d.outputs (bytesBits chunk ++ further) = out ++ d'.outputs further) ∧
      d'.Stuck := by
  induction fuel generalizing d a chunk with
  | zero => exact absurd hfuel (Nat.not_lt_zero _)
  | succ fuel ih =>
    unfold sinkLoop
    by_cases hnil : chunk = []
    · subst hnil
      refine ⟨d, [], ?_, fun _ => rfl, hstuck⟩
      rw [if_pos rfl, append_nil]
    · obtain ⟨-, hsize⟩ := hstuck.sink chunk
      -- at least one byte is sunk
      have hchunk := length_pos_iff.mpr hnil
      have hbuf := config.inputBuffer_pos
      have hcut : chunk = chunk.take (d.reader.sink chunk).2.1 ++
          chunk.drop (d.reader.sink chunk).2.1 := (take_append_drop ..).symm
      have hsplit : ∀ further, d.outputs (bytesBits chunk ++ further) =
          Decoder.outputs { d with reader := (d.reader.sink chunk).2.2 }
            (bytesBits (chunk.drop (d.reader.sink chunk).2.1) ++ further) := by
        intro further
        rw [Decoder.outputs_sink, ← append_assoc, ← bytesBits_append, ← hcut]
      rw [hsplit] at hdata hfuel
      obtain ⟨d₁, out, hpoll, hyields, hstuck₁⟩ := decoderPoll_spec hsink hpos fuel hdata (by omega)
      rw [hyields, ← append_assoc] at hdata
      rw [hyields, length_append] at hfuel
      have hless : (chunk.drop (d.reader.sink chunk).2.1).length + 1 ≤ chunk.length := by
        rw [length_drop, hsize]
        omega
      obtain ⟨d', more, hloop, hmore, hstuck'⟩ := ih hstuck₁ hdata (by omega)
      refine ⟨d', out ++ more, ?_, fun further => ?_, hstuck'⟩
      · rw [if_neg hnil, hpoll]
        dsimp only
        rw [hloop, append_assoc]
      · rw [hsplit, hyields, hmore, append_assoc]

theorem decodeStreamInternal_spec (hsink : sink.Collects state data) {workBufferSize : Nat}
    (hpos : 0 < workBufferSize) (fuel : Nat) {s : σ} {stream : Bytes}
    (hsource : source.Exhausts s stream) (hstuck : d.Stuck)
    (hdata : a ++ d.outputs (bytesBits stream) = data)
    (hfuel : stream.length + (d.outputs (bytesBits stream)).length + 2 < fuel) :
    decodeStreamInternal source sink workBufferSize fuel d s (state a) = some (true, state data) := by
  induction fuel generalizing d a s stream with
  | zero => exact absurd hfuel (Nat.not_lt_zero _)
  | succ fuel ih =>
    rw [decodeStreamInternal]
    by_cases hnil : stream = []
    · subst hnil
      have hreceive := hsource.ended workBufferSize
      generalize source.receive s workBufferSize = received at hreceive
      obtain ⟨chunk, s'⟩ := received
      dsimp only at hreceive ⊢
      subst hreceive
      rw [bytesBits_nil] at hdata hfuel
      have hout := hstuck.outputs_nil
      rw [hout, append_nil] at hdata
      subst hdata
      obtain ⟨f, rfl⟩ : ∃ f, fuel = f + 1 := ⟨fuel - 1, by omega⟩
      rw [sinkLoop, if_pos rfl]
      dsimp only
      rw [if_pos rfl, finishLoop, hstuck.finish]
    · obtain ⟨piece, rest, s', hreceive, rfl, hpiece, -, hrest⟩ := hsource.receive hnil hpos
      rw [hreceive]
      dsimp only
      rw [bytesBits_append] at hdata hfuel
      have hlen := length_pos_iff.mpr hpiece
      rw [length_append] at hfuel
      have hprefix : a ++ d.outputs (bytesBits piece ++ bytesBits rest) <+: data :=
        ⟨[], by rw [append_nil, hdata]⟩
      obtain ⟨d₁, out, hloop, hyields, hstuck₁⟩ :=
        sinkLoop_spec hsink hpos fuel hstuck hprefix (by omega)
      rw [hyields, ← append_assoc] at hdata
      rw [hyields, length_append] at hfuel
      rw [hloop]
      dsimp only
      rw [if_neg hpiece]
      exact ih hrest hstuck₁ hdata (by omega)

theorem decodeStreamed_eq (hsink : sink.Collects state data) {fuel : Nat} {s : σ} {stream : Bytes}
    (hsource : source.Exhausts s stream) (hdata : decoded config stream = data)
    (hfuel : stream.length + data.length + 2 < fuel) :
    decodeStreamed config source sink fuel s (state []) = some (true, state data) := by
  subst hdata
  exact decodeStreamInternal_spec hsink config.inputBuffer_pos fuel hsource
    (Decoder.reset_stuck config) rfl hfuel

end Streamed

end Compress
end NikitaFirmware
