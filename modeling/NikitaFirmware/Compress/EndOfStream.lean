import NikitaFirmware.Compress.Stream

/-!
# Decoding a stream in parts

Whatever is read from a stream decoder and wherever it is moved forward to, the bytes are those
that decoding the whole stream puts out at that position. Between two calls everything read from
the callback has been sunk: a stream decoder asks for input only when its decoder is out of it, so
that the input buffer takes all of the side buffer.
-/

namespace NikitaFirmware
open List
namespace Compress
open Foundations

variable {config : Config} {σ τ : Type} {source : Source σ} {sd : StreamDecoder config} {s : σ}
  {data : Bytes}

theorem fillOutput_spec (d : Decoder config) (chunkSize : Nat) (out : Bytes) :
    ∃ d' piece, (∀ fuel, 0 < fuel → fillOutput fuel d chunkSize out =
        some (d', chunkSize - piece.length, out ++ piece)) ∧
      d.Yields piece d' ∧ (piece.length = chunkSize ∨ piece.length < chunkSize ∧ d'.Stuck) := by
  obtain ⟨res, d', piece, hpoll, hyields, hend⟩ := d.poll_spec chunkSize
  have hlast : ¬(res = .more ∧ chunkSize - piece.length ≠ 0) := by
    rintro ⟨hmore, hne⟩
    obtain ⟨-, hfull⟩ | ⟨hempty, -⟩ := hend
    · change piece.length = chunkSize at hfull
      omega
    · rw [hempty] at hmore
      exact PollRes.noConfusion hmore
  refine ⟨d', piece, fun fuel hfuel => ?_, hyields, ?_⟩
  · obtain ⟨f, rfl⟩ : ∃ f, fuel = f + 1 := ⟨fuel - 1, by omega⟩
    rw [fillOutput, hpoll]
    exact if_neg hlast
  · obtain ⟨-, hfull⟩ | ⟨-, hlt, hstuck⟩ := hend
    · exact .inl hfull
    · exact .inr ⟨hlt, hstuck⟩

theorem readInput_spec {piece : Bytes} {s' : σ} (hposition : sd.decodeBufferPosition = 0)
    (hlength : sd.decodeBuffer.length = config.inputBufferSz)
    (hreceive : source.receive s config.inputBufferSz = (piece, s')) (hne : piece ≠ [])
    (hle : piece.length ≤ config.inputBufferSz) :
    ∃ decodeBuffer, readInput source sd true s =
        some ({ sd with decodeBuffer, decodeBufferPosition := piece.length }, true, s') ∧
      decodeBuffer.length = config.inputBufferSz ∧
      Cells.read decodeBuffer 0 piece.length = some piece := by
  obtain ⟨buffer, hwrite, hsame, htake⟩ :=
    @Cells.exists_write _ sd.decodeBuffer piece 0 (by omega)
  refine ⟨buffer, ?_, hsame.trans hlength, ?_⟩
  · rw [readInput, hposition, if_pos ⟨rfl, config.inputBuffer_pos⟩, Nat.sub_zero, hreceive]
    dsimp only
    rw [hwrite, Nat.zero_add, decide_eq_true (length_pos_iff.mpr hne)]
    rfl
  · rw [Nat.zero_add, take_zero, nil_append] at htake
    rw [Cells.read_of_le (by omega), drop_zero, htake]

theorem sinkInput_spec {piece : Bytes} {fuel : Nat} (hfuel : 1 < fuel) (hstuck : sd.decoder.Stuck)
    (hposition : sd.decodeBufferPosition = piece.length) (hne : piece ≠ [])
    (hle : piece.length ≤ config.inputBufferSz)
    (hread : Cells.read sd.decodeBuffer 0 piece.length = some piece) :
    sinkInput fuel sd true = some ({ sd with
        decoder := { sd.decoder with reader := (sd.decoder.reader.sink piece).2.2 }
        decodeBufferPosition := 0 }, true) := by
  obtain ⟨f, rfl⟩ : ∃ f, fuel = f + 2 := ⟨fuel - 2, by omega⟩
  have hlen := length_pos_iff.mpr hne
  obtain ⟨hok, hsize⟩ := hstuck.sink piece
  rw [Nat.min_eq_right hle] at hsize
  rw [sinkInput, hposition, if_pos ⟨hlen.ne', rfl⟩, hread]
  dsimp only
  rw [hsize, Nat.sub_self, if_neg (fun hmoved => hmoved.2 rfl)]
  dsimp only
  rw [sinkInput, if_neg (fun hagain => hagain.1 rfl), hok]
  rfl

/-- What a read leaves of what the decoder has still to put out. -/
structure Serves (source : Source σ) (bound : Nat) (left : Bytes) (sd : StreamDecoder config)
    (s : σ) : Prop where
  position : sd.decodeBufferPosition = 0
  length_buffer : sd.decodeBuffer.length = config.inputBufferSz
  rest : ∃ rest, source.Exhausts s rest ∧ rest.length ≤ bound ∧
    sd.decoder.outputs (bytesBits rest) = left

/-- While enough bytes are left, a chunk is exactly the next ones. -/
theorem decodeStreamChunk_spec {bound fuel : Nat} (chunkSize : Nat) {left : Bytes} (out : Bytes)
    (h : Serves source bound left sd s) (hsize : chunkSize ≤ left.length)
    (hfuel : bound + 2 < fuel) :
    ∃ sd' s', decodeStreamChunk source fuel sd true true s chunkSize out =
        some (true, out ++ left.take chunkSize, sd', s') ∧
      sd'.streamPosition = sd.streamPosition ∧
      Serves source bound (left.drop chunkSize) sd' s' := by
  induction fuel generalizing sd s bound chunkSize left out with
  | zero => exact absurd hfuel (Nat.not_lt_zero _)
  | succ fuel ih =>
    obtain ⟨rest, hexhausts, hrest, rfl⟩ := h.rest
    obtain ⟨d', piece, hfill, hyields, hend⟩ := fillOutput_spec sd.decoder chunkSize out
    rw [decodeStreamChunk, hfill fuel (Nat.zero_lt_of_lt (Nat.lt_of_succ_lt_succ hfuel))]
    dsimp only
    have hleft := hyields (bytesBits rest)
    rw [hleft]
    rw [hleft, length_append] at hsize
    obtain hfull | ⟨hlt, hstuck⟩ := hend
    · subst hfull
      refine ⟨{ sd with decoder := d' }, s, ?_, rfl, h.position, h.length_buffer, rest, hexhausts,
        hrest, ?_⟩
      · rw [Nat.sub_self, if_pos rfl, take_left]
      · rw [drop_left]
    · -- the decoder is out of input, so there is more of the stream
      rw [if_neg (by omega)]
      have hne : rest ≠ [] := by
        rintro rfl
        rw [bytesBits_nil, hstuck.outputs_nil, length_nil] at hsize
        omega
      obtain ⟨bytes, more, s', hreceive, rfl, hbytes, hle, hmore⟩ :=
        hexhausts.receive hne config.inputBuffer_pos
      obtain ⟨buffer, hread, hbuffer, hcells⟩ :=
        @readInput_spec _ _ _ { sd with decoder := d' } _ _ _ h.position h.length_buffer hreceive
          hbytes hle
      rw [hread]
      dsimp only
      rw [sinkInput_spec (by omega) hstuck rfl hbytes hle hcells]
      dsimp only
      have hsunk : (d'.reader.sink bytes).2.1 = bytes.length :=
        (hstuck.sink bytes).2.trans (Nat.min_eq_right hle)
      have hout : Decoder.outputs { d' with reader := (d'.reader.sink bytes).2.2 }
          (bytesBits more) = d'.outputs (bytesBits (bytes ++ more)) := by
        rw [Decoder.outputs_sink, hsunk, take_length, bytesBits_append]
      have hlen := length_pos_iff.mpr hbytes
      rw [length_append] at hrest
      have hnext : more.length ≤ bound - 1 := by omega
      have hsize' : chunkSize - piece.length ≤ (d'.outputs (bytesBits (bytes ++ more))).length := by
        omega
      have hsunkAll : Serves source (bound - 1) (d'.outputs (bytesBits (bytes ++ more))) { sd with
            decoder := { d' with reader := (d'.reader.sink bytes).2.2 }
            decodeBuffer := buffer
            decodeBufferPosition := 0 } s' :=
        ⟨rfl, hbuffer, more, hmore, hnext, hout⟩
      obtain ⟨sd', s'', hchunk, hposition, hserves⟩ :=
        ih (chunkSize - piece.length) (out ++ piece) hsunkAll hsize' (by omega)
      refine ⟨sd', s'', ?_, hposition, hserves.position, hserves.length_buffer, ?_⟩
      · rw [hchunk, append_assoc, take_append, take_of_length_le (Nat.le_of_lt hlt)]
      · obtain ⟨rest', hexhausts', hrest', hleft'⟩ := hserves.rest
        refine ⟨rest', hexhausts', hrest'.trans (Nat.sub_le ..), ?_⟩
        rw [hleft', drop_append, drop_of_length_le (Nat.le_of_lt hlt), nil_append]

def At (source : Source σ) (bound : Nat) (data : Bytes) (sd : StreamDecoder config) (s : σ) : Prop :=
  Serves source bound (data.drop sd.streamPosition) sd s

theorem streamDecoderRead_spec {bound fuel : Nat} (dataOutSize : Nat) (h : At source bound data sd s)
    (hsize : sd.streamPosition + dataOutSize ≤ data.length) (hfuel : bound + 2 < fuel) :
    ∃ sd' s', streamDecoderRead source fuel sd s dataOutSize =
        some (true, (data.drop sd.streamPosition).take dataOutSize, sd', s') ∧
      sd'.streamPosition = sd.streamPosition + dataOutSize ∧ At source bound data sd' s' := by
  obtain ⟨sd', s', hchunk, hposition, hserves⟩ :=
    decodeStreamChunk_spec dataOutSize [] h (by rw [length_drop]; omega) hfuel
  refine ⟨{ sd' with streamPosition := sd'.streamPosition + dataOutSize }, s', ?_, ?_,
    hserves.position, hserves.length_buffer, ?_⟩
  · rw [streamDecoderRead, hchunk]
    rfl
  · exact congrArg (· + dataOutSize) hposition
  · obtain ⟨rest, hexhausts, hrest, hleft⟩ := hserves.rest
    refine ⟨rest, hexhausts, hrest, hleft.trans ?_⟩
    rw [drop_drop, hposition]

theorem seekLoop_spec {bound fuel position : Nat} (h : At source bound data sd s)
    (hle : sd.streamPosition ≤ position) (hsize : position ≤ data.length)
    (hfuel : position - sd.streamPosition + bound + 3 < fuel) :
    ∃ sd' s', seekLoop source position fuel sd s = some (true, sd', s') ∧
      sd'.streamPosition = position ∧ At source bound data sd' s' := by
  induction fuel generalizing sd s with
  | zero => exact absurd hfuel (Nat.not_lt_zero _)
  | succ fuel ih =>
    rw [seekLoop]
    by_cases hlt : sd.streamPosition < position
    · have hbuf := config.inputBuffer_pos
      have hless : bound + 2 < fuel := by omega
      obtain ⟨sd₁, s₁, hread, hposition, hat⟩ := streamDecoderRead_spec
        (min (position - sd.streamPosition) config.inputBufferSz) h (by omega) hless
      rw [if_pos hlt, hread]
      exact ih hat (by omega) (by omega)
    · exact ⟨sd, s, if_neg hlt, by omega, h⟩

theorem session_spec {bound fuel : Nat} (calls : List Call) (h : At source bound data sd s)
    (hcalls : Within data.length sd.streamPosition calls) (hfuel : data.length + bound + 3 < fuel) :
    session source fuel sd s calls = some (slices data sd.streamPosition calls) := by
  induction calls generalizing sd s with
  | nil => rfl
  | cons call calls ih =>
    cases call with
    | read dataOutSize =>
      obtain ⟨hle, hrest⟩ := hcalls
      have hless : bound + 2 < fuel := by omega
      obtain ⟨sd', s', hread, hposition, hat⟩ := streamDecoderRead_spec dataOutSize h hle hless
      rw [← hposition] at hrest
      rw [session, hread]
      dsimp only
      rw [ih hat hrest, streamDecoderTell, hposition]
      rfl
    | seek target =>
      obtain ⟨hforward, hle, hrest⟩ := hcalls
      have hless : target - sd.streamPosition + bound + 3 < fuel := by omega
      obtain ⟨sd', s', hseek, hposition, hat⟩ := seekLoop_spec h hforward hle hless
      rw [← hposition] at hrest
      rw [session, streamDecoderSeek, if_neg (Nat.not_lt.mpr hforward), hseek]
      dsimp only
      rw [ih hat hrest, streamDecoderTell, hposition]
      rfl

theorem streamDecoderAlloc_at {stream : Bytes} (h : source.Exhausts s stream) :
    At source stream.length (decoded config stream) (streamDecoderAlloc config) s where
  position := rfl
  length_buffer := length_replicate
  rest := ⟨stream, h, le_rfl, rfl⟩

def smallest : Config where
  inputBufferSz := 1
  windowSz2 := 4
  lookaheadSz2 := 3
  inputBuffer_pos := Nat.one_pos
  inputBuffer_lt := by decide
  window_ge := le_rfl
  window_le := by decide
  lookahead_ge := le_rfl
  lookahead_lt := Nat.lt_succ_self 3

theorem decoded_repeated : decoded smallest [0xA0, 0x81, 0x00] = [0x41, 0x41, 0x41, 0x41] := by
  unfold decoded Decoder.outputs
  -- the tag and the literal
  rw [Core.outputs_of_some rfl, Core.outputs_of_some rfl]
  -- the tag, the two fields and the bytes of the back-reference
  rw [Core.outputs_of_some rfl, Core.outputs_of_some rfl, Core.outputs_of_some rfl,
    Core.outputs_of_some rfl]
  -- what looks like another back-reference ends within its second field
  rw [Core.outputs_of_some rfl, Core.outputs_of_some rfl, Core.outputs_of_none rfl]
  rfl

/-- Every heatshrink stream is decoded to the same bytes at once and in parts: calls that go forward
within what `compress_decode_streamed` puts out are answered with slices of it, however the input
comes in. -/
theorem session_eq_decodeStreamed {one : Source σ} {many : Source τ} {s : σ} {t : τ}
    {stream : Bytes} (hone : one.Exhausts s stream) (hmany : many.Exhausts t stream) {fuel : Nat}
    (hfuel : (decoded config stream).length + stream.length + 3 < fuel) :
    decodeStreamed config one Sink.all fuel s [] = some (true, decoded config stream) ∧
      ∀ calls, Within (decoded config stream).length 0 calls →
        session many fuel (streamDecoderAlloc config) t calls =
          some (slices (decoded config stream) 0 calls) := by
  constructor
  · exact decodeStreamed_eq (Sink.all_collects [] (decoded config stream)) hone rfl (by omega)
  · intro calls hcalls
    exact session_spec calls (streamDecoderAlloc_at hmany) hcalls (by omega)

theorem session_eq_decodeStreamed_repeated :
    decodeStreamed smallest Source.atOnce Sink.all 16 [0xA0, 0x81, 0x00] [] =
        some (true, [0x41, 0x41, 0x41, 0x41]) ∧
      session Source.bytewise 16 (streamDecoderAlloc smallest) [0xA0, 0x81, 0x00]
          [.read 1, .seek 3, .read 1] =
        some [⟨true, [0x41], 1⟩, ⟨true, [], 3⟩, ⟨true, [0x41], 4⟩] := by
  have hrun := @session_eq_decodeStreamed smallest _ _ _ _ _ _ _
    (Source.atOnce_exhausts [0xA0, 0x81, 0x00]) (Source.bytewise_exhausts [0xA0, 0x81, 0x00]) 16
    (by rw [decoded_repeated]; decide)
  rw [decoded_repeated] at hrun
  refine ⟨hrun.1, hrun.2 [.read 1, .seek 3, .read 1] ?_⟩
  exact ⟨by decide, by decide, by decide, by decide, trivial⟩

variable {canReadMore : Bool} {waiting : Bytes}

/-- `waiting` is what is in front of the decoder: the side buffer, and what the callback is still
asked for. -/
structure Feeds (source : Source σ) (canReadMore : Bool) (waiting : Bytes)
    (sd : StreamDecoder config) (s : σ) : Prop where
  length_buffer : sd.decodeBuffer.length = config.inputBufferSz
  position_le : sd.decodeBufferPosition ≤ config.inputBufferSz
  rest : ∃ rest, waiting = sd.decodeBuffer.take sd.decodeBufferPosition ++ rest ∧
    (canReadMore = true → source.Exhausts s rest) ∧ (canReadMore = false → rest = [])

theorem Feeds.withDecoder (h : Feeds source canReadMore waiting sd s) (decoder : Decoder config) :
    Feeds source canReadMore waiting { sd with decoder } s :=
  ⟨h.length_buffer, h.position_le, h.rest⟩

theorem Feeds.readInput (h : Feeds source canReadMore waiting sd s) :
    ∃ sd' canReadMore' s', readInput source sd canReadMore s = some (sd', canReadMore', s') ∧
      sd'.decoder = sd.decoder ∧ Feeds source canReadMore' waiting sd' s' ∧
      (waiting ≠ [] → sd'.decodeBufferPosition ≠ 0) := by
  obtain ⟨hlength, hle, rest, hwaiting, hmore, hended⟩ := h
  unfold Compress.readInput
  by_cases hread : canReadMore = true ∧ sd.decodeBufferPosition < config.inputBufferSz
  · rw [if_pos hread]
    obtain ⟨rfl, hlt⟩ := hread
    have hexhausts := hmore rfl
    have hroom : 0 < config.inputBufferSz - sd.decodeBufferPosition := by omega
    by_cases hnil : rest = []
    · subst hnil
      have hnone := hexhausts.ended (config.inputBufferSz - sd.decodeBufferPosition)
      generalize source.receive s (config.inputBufferSz - sd.decodeBufferPosition) = received
        at hnone ⊢
      obtain ⟨piece, s'⟩ := received
      obtain rfl : piece = [] := hnone
      have hwrite : Cells.write sd.decodeBuffer sd.decodeBufferPosition [] = some sd.decodeBuffer := by
        rw [Cells.write_of_le (hlength.symm ▸ hle)]
        simp only [append_nil, length_nil, Nat.add_zero, take_append_drop]
      dsimp only
      rw [hwrite]
      refine ⟨_, _, _, rfl, rfl, ⟨hlength, hle, [], hwaiting, nofun, fun _ => rfl⟩,
        fun hne hzero => hne ?_⟩
      have hposition : sd.decodeBufferPosition = 0 := hzero
      rw [hwaiting, hposition, take_zero, append_nil]
    · obtain ⟨piece, more, s', hreceive, rfl, hpiece, hfits, hnext⟩ := hexhausts.receive hnil hroom
      obtain ⟨buffer, hwrite, hsame, htake⟩ :=
        @Cells.exists_write _ sd.decodeBuffer piece sd.decodeBufferPosition (by omega)
      have hpos := length_pos_iff.mpr hpiece
      rw [hreceive]
      dsimp only
      rw [hwrite]
      refine ⟨_, _, _, rfl, rfl, ⟨hsame.trans hlength, ?_, more, ?_, fun _ => hnext, fun hno => ?_⟩,
        fun _ => ?_⟩
      · change sd.decodeBufferPosition + piece.length ≤ _
        omega
      · change _ = buffer.take (sd.decodeBufferPosition + piece.length) ++ more
        rw [htake, hwaiting, append_assoc]
      · exact absurd hpos (of_decide_eq_false hno)
      · change sd.decodeBufferPosition + piece.length ≠ 0
        omega
  · rw [if_neg hread]
    refine ⟨sd, canReadMore, s, rfl, rfl, ⟨hlength, hle, rest, hwaiting, hmore, hended⟩,
      fun hne hzero => hne ?_⟩
    -- the side buffer has room, so the callback is not asked any more
    have hbuf := config.inputBuffer_pos
    have hno : canReadMore = false := by
      by_contra hyes
      exact hread ⟨eq_true_of_ne_false hyes, by omega⟩
    rw [hwaiting, hended hno, hzero, take_zero, append_nil]

theorem Feeds.sinkInput (h : Feeds source canReadMore waiting sd s) (hstuck : sd.decoder.Stuck) :
    ∃ sd', (∀ fuel, sinkInput fuel sd true = none ∨ sinkInput fuel sd true = some (sd', true)) ∧
      (∀ fuel, 2 ≤ fuel → sinkInput fuel sd true = some (sd', true)) ∧
      Feeds source canReadMore (waiting.drop sd.decodeBufferPosition) sd' s ∧
      sd'.decoder.outputs (bytesBits (waiting.drop sd.decodeBufferPosition)) =
        sd.decoder.outputs (bytesBits waiting) := by
  obtain ⟨hlength, hle, rest, hwaiting, hmore, hended⟩ := h
  by_cases hzero : sd.decodeBufferPosition = 0
  · have hstay : ∀ fuel, Compress.sinkInput (fuel + 1) sd true = some (sd, true) := fun fuel => by
      rw [Compress.sinkInput, if_neg (fun hagain => hagain.1 hzero)]
    refine ⟨sd, fun fuel => ?_, fun fuel hfuel => ?_, ?_, ?_⟩
    · cases fuel with
      | zero => exact .inl rfl
      | succ fuel => exact .inr (hstay fuel)
    · obtain ⟨f, rfl⟩ : ∃ f, fuel = f + 1 := ⟨fuel - 1, by omega⟩
      exact hstay f
    · rw [hzero, drop_zero]
      exact ⟨hlength, hle, rest, hwaiting, hmore, hended⟩
    · rw [hzero, drop_zero]
  · have hfront : (sd.decodeBuffer.take sd.decodeBufferPosition).length =
        sd.decodeBufferPosition := length_take_of_le (by omega)
    have hne : sd.decodeBuffer.take sd.decodeBufferPosition ≠ [] := by
      rw [← length_pos_iff, hfront]
      omega
    have hread : Cells.read sd.decodeBuffer 0 (sd.decodeBuffer.take sd.decodeBufferPosition).length =
        some (sd.decodeBuffer.take sd.decodeBufferPosition) := by
      rw [hfront, Cells.read_of_le (by omega), drop_zero]
    have hdrop : waiting.drop sd.decodeBufferPosition = rest := by
      rw [hwaiting, drop_left' hfront]
    have hall : ∀ fuel, 2 ≤ fuel → Compress.sinkInput fuel sd true = _ := fun fuel hfuel =>
      sinkInput_spec hfuel hstuck hfront.symm hne (by rw [hfront]; exact hle) hread
    refine ⟨_, fun fuel => ?_, hall, ?_, ?_⟩
    · by_cases hfuel : 2 ≤ fuel
      · exact .inr (hall fuel hfuel)
      · refine .inl ?_
        cases fuel with
        | zero => rfl
        | succ fuel =>
          obtain rfl : fuel = 0 := by omega
          rw [hfront] at hread
          rw [Compress.sinkInput, if_pos ⟨hzero, rfl⟩, hread]
          dsimp only
          split <;> rfl
    · rw [hdrop]
      exact ⟨hlength, Nat.zero_le _, rest, rfl, hmore, hended⟩
    · have hsunk : (sd.decoder.reader.sink (sd.decodeBuffer.take sd.decodeBufferPosition)).2.1 =
          (sd.decodeBuffer.take sd.decodeBufferPosition).length :=
        (hstuck.sink _).2.trans (Nat.min_eq_right (by rw [hfront]; exact hle))
      rw [hdrop, hwaiting, Decoder.outputs_sink, hsunk, take_length, bytesBits_append]

/-- Without room in the output buffer a turn is the last one; otherwise all that waits in the side
buffer is sunk, and the loop goes on. -/
theorem decodeStreamChunk_turn (h : Feeds source canReadMore waiting sd s) (chunkSize : Nat)
    (out : Bytes) :
    (chunkSize ≤ (sd.decoder.outputs (bytesBits waiting)).length ∧ ∃ sd', ∀ fuel,
      decodeStreamChunk source (fuel + 2) sd true canReadMore s chunkSize out =
        some (true, out ++ (sd.decoder.outputs (bytesBits waiting)).take chunkSize, sd', s)) ∨
    ∃ piece sd' canReadMore' waiting' s', piece.length < chunkSize ∧
      Feeds source canReadMore' waiting' sd' s' ∧
      sd.decoder.outputs (bytesBits waiting) = piece ++ sd'.decoder.outputs (bytesBits waiting') ∧
      (waiting'.length < waiting.length ∨ sd'.decoder.outputs (bytesBits waiting') = []) ∧
      (∀ fuel, decodeStreamChunk source (fuel + 1) sd true canReadMore s chunkSize out = none ∨
        decodeStreamChunk source (fuel + 1) sd true canReadMore s chunkSize out =
          decodeStreamChunk source fuel sd' true canReadMore' s' (chunkSize - piece.length)
            (out ++ piece)) ∧
      ∀ fuel, 2 ≤ fuel → decodeStreamChunk source (fuel + 1) sd true canReadMore s chunkSize out =
          decodeStreamChunk source fuel sd' true canReadMore' s' (chunkSize - piece.length)
            (out ++ piece) := by
  obtain ⟨d', piece, hfill, hyields, hend⟩ := fillOutput_spec sd.decoder chunkSize out
  rw [hyields (bytesBits waiting)]
  obtain hfull | ⟨hlt, hstuck⟩ := hend
  · -- the decoder had enough, and no input is read
    subst hfull
    refine .inl ⟨?_, { sd with decoder := d' }, fun fuel => ?_⟩
    · rw [length_append]
      exact Nat.le_add_right _ _
    · rw [decodeStreamChunk, hfill (fuel + 1) (Nat.succ_pos fuel), take_left]
      dsimp only
      rw [Nat.sub_self, if_pos rfl]
  · refine .inr ?_
    obtain ⟨sd₁, canReadMore', s', hread, hdecoder, hfeeds, hne⟩ := (h.withDecoder d').readInput
    have hstuck₁ : sd₁.decoder.Stuck := by
      rw [hdecoder]
      exact hstuck
    obtain ⟨sd₂, hsink, hsink₂, hfeeds₂, hout⟩ := hfeeds.sinkInput hstuck₁
    have hroom : chunkSize - piece.length ≠ 0 := by omega
    have hturn : ∀ fuel, 0 < fuel →
        decodeStreamChunk source (fuel + 1) sd true canReadMore s chunkSize out =
          (sinkInput fuel sd₁ true).bind fun next =>
            decodeStreamChunk source fuel next.1 next.2 canReadMore' s' (chunkSize - piece.length)
              (out ++ piece) := by
      intro fuel hfuel
      rw [decodeStreamChunk, hfill fuel hfuel]
      dsimp only
      rewrite [if_neg hroom, hread]
      dsimp only
      cases sinkInput fuel sd₁ true <;> rfl
    refine ⟨piece, sd₂, canReadMore', _, s', hlt, hfeeds₂, ?_, ?_, fun fuel => ?_,
      fun fuel hfuel => ?_⟩
    · rw [hout, hdecoder]
    · by_cases hnil : waiting = []
      · rw [hout, hnil, bytesBits_nil, hstuck₁.outputs_nil]
        exact .inr rfl
      · -- one byte at least was taken
        have hpos := length_pos_iff.mpr hnil
        have hposition := hne hnil
        rw [length_drop]
        exact .inl (by omega)
    · cases fuel with
      | zero => exact .inl rfl
      | succ fuel =>
        rw [hturn (fuel + 1) (Nat.succ_pos fuel)]
        obtain hnone | hsome := hsink (fuel + 1)
        · rw [hnone]
          exact .inl rfl
        · rw [hsome]
          exact .inr rfl
    · rw [hturn fuel (by omega), hsink₂ fuel hfuel]
      rfl

theorem decodeStreamChunk_of_le (h : Feeds source canReadMore waiting sd s) {chunkSize : Nat}
    {out : Bytes} (hsize : chunkSize ≤ (sd.decoder.outputs (bytesBits waiting)).length) {fuel : Nat}
    (hfuel : waiting.length + 2 < fuel) :
    ∃ sd' s', decodeStreamChunk source fuel sd true canReadMore s chunkSize out =
      some (true, out ++ (sd.decoder.outputs (bytesBits waiting)).take chunkSize, sd', s') := by
  induction fuel generalizing sd s canReadMore waiting chunkSize out with
  | zero => exact absurd hfuel (Nat.not_lt_zero _)
  | succ fuel ih =>
    obtain ⟨-, sd', hlast⟩ | ⟨piece, sd', canReadMore', waiting', s', hlt, hfeeds, hout, hless, -,
      hturn⟩ := decodeStreamChunk_turn h chunkSize out
    · obtain ⟨f, rfl⟩ : ∃ f, fuel = f + 1 := ⟨fuel - 1, by omega⟩
      exact ⟨sd', s, hlast f⟩
    · rw [hout, length_append] at hsize
      have hshorter : waiting'.length < waiting.length := by
        refine hless.resolve_right fun hnil => ?_
        rw [hnil, length_nil] at hsize
        omega
      have hrest : chunkSize - piece.length ≤ (sd'.decoder.outputs (bytesBits waiting')).length := by
        omega
      obtain ⟨sd'', s'', hrun⟩ := @ih _ _ _ _ hfeeds _ (out ++ piece) hrest (by omega)
      refine ⟨sd'', s'', ?_⟩
      rw [hturn fuel (by omega), hrun, hout, append_assoc, take_append,
        take_of_length_le (Nat.le_of_lt hlt)]

theorem decodeStreamChunk_of_lt (h : Feeds source canReadMore waiting sd s) {chunkSize : Nat}
    {out : Bytes} (hsize : (sd.decoder.outputs (bytesBits waiting)).length < chunkSize) (fuel : Nat) :
    decodeStreamChunk source fuel sd true canReadMore s chunkSize out = none := by
  induction fuel generalizing sd s canReadMore waiting chunkSize out with
  | zero => rfl
  | succ fuel ih =>
    obtain ⟨hle, -⟩ | ⟨piece, sd', canReadMore', waiting', s', hlt, hfeeds, hout, -, hturn, -⟩ :=
      decodeStreamChunk_turn h chunkSize out
    · exact absurd hle (Nat.not_le_of_lt hsize)
    · rw [hout, length_append] at hsize
      obtain hnone | hnext := hturn fuel
      · exact hnone
      · rw [hnext]
        exact ih hfeeds (by omega)

/-- A state of a stream decoder: whatever has been read and not sunk, sunk and not put out. -/
structure Holding (sd : StreamDecoder config) : Prop where
  length_buffer : sd.decodeBuffer.length = config.inputBufferSz
  position_le : sd.decodeBufferPosition ≤ config.inputBufferSz

def left (sd : StreamDecoder config) (rest : Bytes) : Bytes :=
  sd.decoder.outputs (bytesBits (sd.decodeBuffer.take sd.decodeBufferPosition ++ rest))

theorem Holding.feeds {rest : Bytes} (h : Holding sd) (hsource : source.Exhausts s rest) :
    Feeds source true (sd.decodeBuffer.take sd.decodeBufferPosition ++ rest) sd s :=
  ⟨h.length_buffer, h.position_le, rest, rfl, fun _ => hsource, nofun⟩

theorem streamDecoderRead_of_lt {rest : Bytes} (h : Holding sd) (hsource : source.Exhausts s rest)
    {dataOutSize : Nat} (hlt : (left sd rest).length < dataOutSize) (fuel : Nat) :
    streamDecoderRead source fuel sd s dataOutSize = none := by
  rw [streamDecoderRead, decodeStreamChunk_of_lt (h.feeds hsource) hlt]

/-- A read ends, with the bytes that were asked for or with `false` because there are fewer. -/
def Answers (source : Source σ) (sd : StreamDecoder config) (s : σ) (rest : Bytes)
    (dataOutSize : Nat) : Prop :=
  ∃ fuel result out sd' s', streamDecoderRead source fuel sd s dataOutSize =
      some (result, out, sd', s') ∧
    (result = true → out.length = dataOutSize ∧ out <+: left sd rest) ∧
    (result = false → (left sd rest).length < dataOutSize)

/-- A read ends exactly when the rest of the stream decodes to what is asked for. -/
theorem streamDecoderRead_answers_iff {rest : Bytes} (hsd : Holding sd)
    (hsource : source.Exhausts s rest) (dataOutSize : Nat) :
    Answers source sd s rest dataOutSize ↔ dataOutSize ≤ (left sd rest).length := by
  constructor
  · rintro ⟨fuel, result, out, sd', s', hrun, -, -⟩
    by_contra hlt
    rw [streamDecoderRead_of_lt hsd hsource (Nat.lt_of_not_le hlt)] at hrun
    cases hrun
  · intro hle
    obtain ⟨sd', s', hrun⟩ :=
      @decodeStreamChunk_of_le _ _ _ _ _ _ _ (hsd.feeds hsource) _ [] hle _ (Nat.lt_succ_self _)
    refine ⟨_, true, _, _, s', by rw [streamDecoderRead, hrun], fun _ => ?_, nofun⟩
    rw [nil_append]
    exact ⟨length_take_of_le hle, List.take_prefix _ _⟩

theorem streamDecoderAlloc_holding (config : Config) : Holding (streamDecoderAlloc config) :=
  ⟨length_replicate, Nat.zero_le _⟩

theorem left_alloc (stream : Bytes) : left (streamDecoderAlloc config) stream =
    decoded config stream := by
  rw [left]
  change (Decoder.reset config).outputs (bytesBits (List.take 0 _ ++ stream)) = _
  rw [take_zero, nil_append, decoded]

theorem streamDecoderRead_answers_repeated :
    Answers Source.atOnce (streamDecoderAlloc smallest) [0xA0, 0x81, 0x00] [0xA0, 0x81, 0x00] 3 := by
  refine (streamDecoderRead_answers_iff (streamDecoderAlloc_holding smallest)
    (Source.atOnce_exhausts _) 3).mpr ?_
  rw [left_alloc, decoded_repeated]
  decide

/-- A byte is asked for behind the end of a stream of none. -/
theorem streamDecoderRead_endless :
    ¬ ∀ (sd : StreamDecoder smallest) (s rest : Bytes) (dataOutSize : Nat), Holding sd →
      Source.atOnce.Exhausts s rest → Answers Source.atOnce sd s rest dataOutSize := by
  intro h
  have hholding := streamDecoderAlloc_holding smallest
  have hsource := Source.atOnce_exhausts []
  have hnone : (left (streamDecoderAlloc smallest) []).length < 1 := by
    rw [left_alloc, decoded, bytesBits_nil, (Decoder.reset_stuck smallest).outputs_nil]
    exact Nat.one_pos
  obtain ⟨fuel, result, out, sd', s', hrun, -⟩ :=
    h (streamDecoderAlloc smallest) [] [] 1 hholding hsource
  rw [streamDecoderRead_of_lt hholding hsource hnone] at hrun
  cases hrun

end Compress
end NikitaFirmware
