import NikitaFirmware.Compress.EncodeAccesses

/-!
# What decoding touches

The accesses of `compress_decode` to the data and to the output buffer. The stream is read in
chunks of 256 bytes, as far as the size in the header goes, and it is read on until it ends or what
it decodes to does not fit. The data is what stands in memory from `data_in` on; behind
`data_in_size` bytes there may be anything.
-/

namespace NikitaFirmware
open List
namespace Compress
open Foundations Foundations.Access

variable {config : Config} {σ τ ε : Type}

/-- The states of the source in which `compress_decode_stream_internal` calls `read_cb`. -/
def decodeStreamReads (source : Source σ) (sink : Sink τ) (workBufferSize : Nat) :
    Nat → Decoder config → σ → τ → List σ
  | 0, _, _, _ => []
  | fuel + 1, d, s, t =>
    match source.receive s workBufferSize with
    | (chunk, s') =>
      match sinkLoop sink workBufferSize fuel d chunk t with
      | some (true, d, t) =>
        if chunk = [] then [s] else s :: decodeStreamReads source sink workBufferSize fuel d s' t
      | _ => [s]

def stretch (memory : Nat → UInt8) (dataPtr size : Nat) : Bytes :=
  (List.range size).map fun i => memory (dataPtr + i)

/-- `memory_stream_io_callback` for a source: `data_ptr` and `data_size`. -/
def memorySource (memory : Nat → UInt8) : Source (Nat × Nat) where
  receive state size :=
    (stretch memory state.1 (min size state.2), state.1 + min size state.2,
      state.2 - min size state.2)

structure Destination where
  dataPtr : Nat
  dataSize : Nat
  log : List Access

def memoryRecorder : Sink Destination where
  send state ptr :=
    let size := min ptr.length state.dataSize
    (size, {
      dataPtr := state.dataPtr + size
      dataSize := state.dataSize - size
      log := state.log ++ [.write state.dataPtr size] })

def headerSize (memory : Nat → UInt8) : Nat := (memory 2).toNat + 256 * (memory 3).toNat

/-- The accesses of `compress_decode_internal`: the header, the chunks that are read, and what is
written; or the copy of the stored data. -/
def decodeAccesses (config : Config) (fuel : Nat) (memory : Nat → UInt8)
    (dataInSize dataOutSize : Nat) : Option (List Access) :=
  if memory 0 ≠ 0 then
    let source := memorySource memory
    let decoder := Decoder.reset config
    let compressed := (4, headerSize memory)
    let decompressed : Destination := ⟨0, dataOutSize, []⟩
    (decodeStreamInternal source memoryRecorder 256 fuel decoder compressed decompressed).map
      fun result =>
        [.read 0 1, .read 2 2] ++
          (decodeStreamReads source memoryRecorder 256 fuel decoder compressed decompressed).map
            (fun state => .read state.1 (min 256 state.2)) ++
          result.2.log
  else if sizeSub dataInSize 1 ≤ dataOutSize then
    some [.read 0 1, .read 1 dataInSize, .write 0 dataInSize]
  else some [.read 0 1]

section Fills
variable {sink : Sink τ} {Holds : Bytes → τ → Prop} {capacity workBufferSize : Nat} {a : Bytes}
  {t : τ} {d : Decoder config}

theorem decoderPoll_fills (hsink : sink.Fills Holds capacity) (hpos : 0 < workBufferSize)
    {future : List Bool} (fuel : Nat) (h : Holds a t)
    (hfuel : (d.outputs future).length < fuel) :
    ∃ ok d' out t', decoderPoll sink workBufferSize fuel d t = some (ok, d', t') ∧
      d.Yields out d' ∧ (ok = true → d'.Stuck ∧ Holds (a ++ out) t') ∧
      (ok = false → capacity < a.length + out.length ∧ ∃ taken, Holds taken t') := by
  induction fuel generalizing d a t with
  | zero => exact absurd hfuel (Nat.not_lt_zero _)
  | succ fuel ih =>
    obtain ⟨res, d₁, out, hpoll, hyields, hend⟩ := d.poll_spec workBufferSize
    rw [decoderPoll, hpoll]
    dsimp only
    by_cases hfits : a.length + out.length ≤ capacity
    · obtain ⟨hall, hholds⟩ := hsink.send_of_le h hfits
      rw [if_neg (fun hne => hne hall)]
      obtain ⟨rfl, hfull⟩ | ⟨rfl, -, hstuck⟩ := hend
      · have hless : (d₁.outputs future).length < fuel := by
          rw [hyields, length_append] at hfuel
          omega
        obtain ⟨ok, d', more, t', hloop, hmore, htrue, hfalse⟩ := ih hholds hless
        refine ⟨ok, d', out ++ more, t', ?_, hyields.trans hmore, fun hok => ?_, fun hok => ?_⟩
        · rw [if_pos rfl, hloop]
        · rw [← append_assoc]
          exact htrue hok
        · obtain ⟨hlt, htaken⟩ := hfalse hok
          rw [length_append] at hlt ⊢
          exact ⟨by omega, htaken⟩
      · refine ⟨true, d₁, out, _, if_neg ?_, hyields, fun _ => ⟨hstuck, hholds⟩, fun hok => ?_⟩
        · intro hfull
          contradiction
        · contradiction
    · have hroom := hsink.length_le h
      have hshort : (sink.send t out).1 ≠ out.length := by
        rw [hsink.send_fst h]
        omega
      rw [if_pos hshort]
      refine ⟨false, d₁, out, _, rfl, hyields, fun hok => ?_,
        fun _ => ⟨Nat.lt_of_not_le hfits, _, hsink.send_snd h out⟩⟩
      contradiction

theorem sinkLoop_fills (hsink : sink.Fills Holds capacity) (hpos : 0 < workBufferSize) (fuel : Nat)
    {chunk : Bytes} {future : List Bool} (hstuck : d.Stuck) (h : Holds a t)
    (hfuel : chunk.length + (d.outputs (bytesBits chunk ++ future)).length + 1 < fuel) :
    ∃ ok d' t', sinkLoop sink workBufferSize fuel d chunk t = some (ok, d', t') ∧
      (ok = true → ∃ out, d'.Stuck ∧ Holds (a ++ out) t' ∧
        ∀ further, d.outputs (bytesBits chunk ++ further) = out ++ d'.outputs further) ∧
      (ok = false → (∃ taken, Holds taken t') ∧
        ∀ further, capacity < a.length + (d.outputs (bytesBits chunk ++ further)).length) := by
  induction fuel generalizing d a t chunk with
  | zero => exact absurd hfuel (Nat.not_lt_zero _)
  | succ fuel ih =>
    unfold sinkLoop
    by_cases hnil : chunk = []
    · subst hnil
      refine ⟨true, d, t, if_pos rfl, fun _ => ⟨[], hstuck, ?_, fun _ => rfl⟩, fun hok => ?_⟩
      · rwa [append_nil]
      · contradiction
    · obtain ⟨-, hsize⟩ := hstuck.sink chunk
      have hchunk := length_pos_iff.mpr hnil
      have hbuf := config.inputBuffer_pos
      have hsplit : ∀ further, d.outputs (bytesBits chunk ++ further) =
          Decoder.outputs { d with reader := (d.reader.sink chunk).2.2 }
            (bytesBits (chunk.drop (d.reader.sink chunk).2.1) ++ further) := by
        intro further
        rw [Decoder.outputs_sink, ← append_assoc, ← bytesBits_append, take_append_drop]
      rw [hsplit] at hfuel
      have hturns : (Decoder.outputs { d with reader := (d.reader.sink chunk).2.2 }
          (bytesBits (chunk.drop (d.reader.sink chunk).2.1) ++ future)).length < fuel := by omega
      obtain ⟨ok, d₁, out, t₁, hpoll, hyields, htrue, hfalse⟩ :=
        decoderPoll_fills hsink hpos fuel h hturns
      rw [if_neg hnil, hpoll]
      rw [hyields, length_append] at hfuel
      cases ok with
      | false =>
        obtain ⟨hlt, htaken⟩ := hfalse rfl
        refine ⟨false, d₁, t₁, rfl, fun hok => ?_, fun _ => ⟨htaken, fun further => ?_⟩⟩
        · contradiction
        · rw [hsplit, hyields, length_append]
          omega
      | true =>
        obtain ⟨hstuck₁, hholds⟩ := htrue rfl
        have hless : (chunk.drop (d.reader.sink chunk).2.1).length + 1 ≤ chunk.length := by
          rw [length_drop, hsize]
          omega
        have hnext : (chunk.drop (d.reader.sink chunk).2.1).length +
            (d₁.outputs (bytesBits (chunk.drop (d.reader.sink chunk).2.1) ++ future)).length + 1 <
              fuel := by omega
        obtain ⟨ok, d', t', hloop, htrue', hfalse'⟩ := ih hstuck₁ hholds hnext
        refine ⟨ok, d', t', hloop, fun hok => ?_, fun hok => ?_⟩
        · obtain ⟨more, hstuck', hmore, hall⟩ := htrue' hok
          refine ⟨out ++ more, hstuck', ?_, fun further => ?_⟩
          · rwa [← append_assoc]
          · rw [hsplit, hyields, hall, append_assoc]
        · obtain ⟨htaken, hmore⟩ := hfalse' hok
          refine ⟨htaken, fun further => ?_⟩
          have hlt := hmore further
          rw [hsplit, hyields]
          rw [length_append] at hlt ⊢
          omega

end Fills

/-- A destination of `capacity` bytes that has been written to within its bounds. -/
def Recording (inSize capacity : Nat) (taken : Bytes) (t : Destination) : Prop :=
  t.dataPtr = taken.length ∧ t.dataPtr + t.dataSize = capacity ∧ AllWithin inSize capacity t.log

theorem recording_start (inSize capacity : Nat) : Recording inSize capacity [] ⟨0, capacity, []⟩ :=
  ⟨rfl, Nat.zero_add capacity, allWithin_nil⟩

theorem memoryRecorder_fills (inSize capacity : Nat) :
    memoryRecorder.Fills (Recording inSize capacity) capacity where
  length_le := by
    rintro taken t ⟨hptr, hsize, -⟩
    omega
  send_fst := by
    rintro taken t ⟨hptr, hsize, -⟩ piece
    change min piece.length t.dataSize = _
    congr 1
    omega
  send_snd := by
    rintro taken t ⟨hptr, hsize, hlog⟩ piece
    refine ⟨?_, ?_, hlog.concat (write_within ?_)⟩
    · change t.dataPtr + min piece.length t.dataSize = _
      rw [length_append, length_take]
      omega
    · change t.dataPtr + min piece.length t.dataSize + (t.dataSize - min piece.length t.dataSize) = _
      omega
    · omega

section Chunks
variable {memory : Nat → UInt8} {dataPtr size : Nat}

theorem length_stretch (memory : Nat → UInt8) (dataPtr size : Nat) :
    (stretch memory dataPtr size).length = size := by
  rw [stretch, length_map, length_range]

theorem stretch_add (memory : Nat → UInt8) (dataPtr a b : Nat) :
    stretch memory dataPtr (a + b) = stretch memory dataPtr a ++ stretch memory (dataPtr + a) b := by
  rw [stretch, range_add, map_append, map_map]
  congr 1
  refine map_congr_left fun i _ => ?_
  exact congrArg memory (Nat.add_assoc dataPtr a i).symm

/-- A chunk that begins where what has been decoded before it still fits ends within the data. -/
def ChunksWithin (d : Decoder config) (memory : Nat → UInt8)
    (taken capacity inSize dataPtr size : Nat) : Prop :=
  ∀ k, 256 * k < size →
    taken + (d.outputs (bytesBits (stretch memory dataPtr (256 * k)))).length ≤ capacity →
    dataPtr + min (256 * (k + 1)) size ≤ inSize

theorem chunksWithin_iff {d : Decoder config} (hstuck : d.Stuck) {taken capacity inSize : Nat}
    (htaken : taken ≤ capacity) (hsize : 0 < size) :
    ChunksWithin d memory taken capacity inSize dataPtr size ↔ dataPtr + min 256 size ≤ inSize ∧
      ∀ k, 256 * k < size - min 256 size →
        taken + (d.outputs (bytesBits (stretch memory dataPtr (min 256 size)) ++
          bytesBits (stretch memory (dataPtr + min 256 size) (256 * k)))).length ≤ capacity →
        dataPtr + min 256 size + min (256 * (k + 1)) (size - min 256 size) ≤ inSize := by
  constructor
  · intro h
    refine ⟨?_, fun k hk hfits => ?_⟩
    · have hfirst := h 0 hsize
      rw [Nat.mul_zero, stretch, range_zero, map_nil, bytesBits_nil, hstuck.outputs_nil] at hfirst
      exact hfirst htaken
    · have hmin : min 256 size = 256 := by omega
      rw [hmin] at hk hfits ⊢
      have hnext := h (k + 1) (by omega)
      rw [← bytesBits_append, ← stretch_add] at hfits
      rw [show 256 * (k + 1) = 256 + 256 * k by omega] at hnext
      have hle := hnext hfits
      omega
  · rintro ⟨hfirst, hrest⟩ k hk hfits
    cases k with
    | zero => exact hfirst
    | succ k =>
      have hmin : min 256 size = 256 := by omega
      rw [hmin] at hrest
      rw [show 256 * (k + 1) = 256 + 256 * k by omega, stretch_add, bytesBits_append] at hfits
      have hle := hrest k (by omega) hfits
      omega

/-- The run ends, and its reads lie within the data exactly when the chunks do that it comes to. -/
theorem decodeStream_fills {sink : Sink τ} {Holds : Bytes → τ → Prop} {capacity : Nat}
    (hsink : sink.Fills Holds capacity) (inSize fuel : Nat) {d : Decoder config} {a : Bytes} {t : τ}
    (hstuck : d.Stuck) (h : Holds a t)
    (hfuel : size + (d.outputs (bytesBits (stretch memory dataPtr size))).length + 2 < fuel) :
    ∃ ok t', decodeStreamInternal (memorySource memory) sink 256 fuel d (dataPtr, size) t =
        some (ok, t') ∧ (∃ taken, Holds taken t') ∧
      (AllWithin inSize capacity
          ((decodeStreamReads (memorySource memory) sink 256 fuel d (dataPtr, size) t).map
            fun state => .read state.1 (min 256 state.2)) ↔
        ChunksWithin d memory a.length capacity inSize dataPtr size) := by
  induction fuel generalizing d a t dataPtr size with
  | zero => exact absurd hfuel (Nat.not_lt_zero _)
  | succ fuel ih =>
    have hreceive : (memorySource memory).receive (dataPtr, size) 256 =
        (stretch memory dataPtr (min 256 size), dataPtr + min 256 size, size - min 256 size) := rfl
    have htaken := hsink.length_le h
    rw [decodeStreamInternal, decodeStreamReads, hreceive]
    dsimp only
    by_cases hzero : size = 0
    · subst hzero
      obtain ⟨f, rfl⟩ : ∃ f, fuel = f + 1 := ⟨fuel - 1, by omega⟩
      have hnil : stretch memory dataPtr (min 256 0) = [] := rfl
      rw [hnil, sinkLoop, if_pos rfl]
      dsimp only
      rw [if_pos rfl, if_pos rfl, finishLoop, hstuck.finish]
      refine ⟨true, t, rfl, ⟨a, h⟩, iff_of_true ?_ fun k hk => absurd hk (Nat.not_lt_zero _)⟩
      exact allWithin_cons.mpr ⟨read_within_iff.mpr (.inl rfl), allWithin_nil⟩
    · have hpos := Nat.pos_of_ne_zero hzero
      have hcut : stretch memory dataPtr size = stretch memory dataPtr (min 256 size) ++
          stretch memory (dataPtr + min 256 size) (size - min 256 size) := by
        rw [← stretch_add]
        congr 1
        omega
      rw [hcut, bytesBits_append] at hfuel
      have hchunk : (stretch memory dataPtr (min 256 size)).length +
          (d.outputs (bytesBits (stretch memory dataPtr (min 256 size)) ++
            bytesBits (stretch memory (dataPtr + min 256 size) (size - min 256 size)))).length + 1 <
              fuel := by
        rw [length_stretch]
        omega
      obtain ⟨ok, d', t', hloop, htrue, hfalse⟩ :=
        sinkLoop_fills hsink (by decide : 0 < 256) fuel hstuck h hchunk
      have hread : (Access.read dataPtr (min 256 size)).Within inSize capacity ↔
          dataPtr + min 256 size ≤ inSize := by
        rw [read_within_iff]
        exact or_iff_right (by omega)
      rw [hloop, chunksWithin_iff hstuck htaken hpos]
      cases ok with
      | false =>
        obtain ⟨hholds, hlong⟩ := hfalse rfl
        refine ⟨false, t', rfl, hholds, ?_⟩
        dsimp only
        rw [map_cons, allWithin_cons, hread]
        refine and_congr_right fun _ => iff_of_true allWithin_nil fun k _ hfits => ?_
        exact absurd hfits (Nat.not_le_of_lt (hlong _))
      | true =>
        obtain ⟨out, hstuck', hholds, hall⟩ := htrue rfl
        have hne : stretch memory dataPtr (min 256 size) ≠ [] := by
          rw [← length_pos_iff, length_stretch]
          omega
        have hnext : size - min 256 size + (d'.outputs (bytesBits
            (stretch memory (dataPtr + min 256 size) (size - min 256 size)))).length + 2 < fuel := by
          rw [hall, length_append] at hfuel
          omega
        obtain ⟨ok, t'', hrun, hholds', hreads⟩ := ih hstuck' hholds hnext
        refine ⟨ok, t'', ?_, hholds', ?_⟩
        · dsimp only
          rw [if_neg hne, hrun]
        · dsimp only
          rw [if_neg hne, map_cons, allWithin_cons, hread, hreads]
          refine and_congr_right fun _ => forall_congr' fun k => ?_
          rw [hall, length_append, length_append, Nat.add_assoc]

end Chunks

/-- What is read and written lies within both buffers: the stored form is not copied, and of the
compressed form there is the header, and what is read behind it. -/
def DecodeWithin (config : Config) (memory : Nat → UInt8) (dataInSize dataOutSize : Nat) : Prop :=
  if memory 0 ≠ 0 then
    4 ≤ dataInSize ∧ ∀ k, 256 * k < headerSize memory →
      (decoded config (stretch memory 4 (256 * k))).length ≤ dataOutSize →
      4 + min (256 * (k + 1)) (headerSize memory) ≤ dataInSize
  else 0 < dataInSize ∧ dataOutSize < dataInSize - 1

theorem decodeAccesses_within (config : Config) (memory : Nat → UInt8)
    (dataInSize dataOutSize : Nat) {fuel : Nat}
    (hfuel : headerSize memory + (decoded config (stretch memory 4 (headerSize memory))).length + 2 <
      fuel) :
    ∃ accesses, decodeAccesses config fuel memory dataInSize dataOutSize = some accesses ∧
      (AllWithin dataInSize dataOutSize accesses ↔
        DecodeWithin config memory dataInSize dataOutSize) := by
  have hfirst : (Access.read 0 1).Within dataInSize dataOutSize ↔ 0 < dataInSize := by
    rw [read_within_iff]
    omega
  unfold decodeAccesses DecodeWithin
  by_cases hform : memory 0 ≠ 0
  · rw [if_pos hform, if_pos hform]
    obtain ⟨ok, t, hrun, ⟨taken, -, -, hlog⟩, hreads⟩ :=
      decodeStream_fills (memoryRecorder_fills dataInSize dataOutSize) dataInSize fuel
        (Decoder.reset_stuck config) (recording_start dataInSize dataOutSize) hfuel
    dsimp only
    rw [hrun]
    refine ⟨_, rfl, ?_⟩
    have hsecond : (Access.read 2 2).Within dataInSize dataOutSize ↔ 4 ≤ dataInSize := by
      rw [read_within_iff]
      omega
    rw [allWithin_append, allWithin_append, hreads, allWithin_cons, allWithin_cons, hfirst, hsecond,
      ChunksWithin, length_nil]
    simp only [Nat.zero_add]
    constructor
    · rintro ⟨⟨⟨-, hheader, -⟩, hchunks⟩, -⟩
      exact ⟨hheader, hchunks⟩
    · rintro ⟨hheader, hchunks⟩
      exact ⟨⟨⟨by omega, hheader, allWithin_nil⟩, hchunks⟩, hlog⟩
  · rw [if_neg hform, if_neg hform]
    by_cases hroom : sizeSub dataInSize 1 ≤ dataOutSize
    · rw [if_pos hroom]
      refine ⟨_, rfl, iff_of_false (fun hwithin => ?_) fun hshort => ?_⟩
      · -- the copy goes one byte over the end of the data
        obtain ⟨hzero, hcopy⟩ := allWithin_cons.mp hwithin
        have hone := hfirst.mp hzero
        have hover := read_within_iff.mp (allWithin_cons.mp hcopy).1
        omega
      · rw [sizeSub, if_pos (show 1 ≤ dataInSize from hshort.1)] at hroom
        omega
    · rw [if_neg hroom]
      refine ⟨_, rfl, ?_⟩
      rw [allWithin_cons, hfirst]
      constructor
      · rintro ⟨hpos, -⟩
        rw [sizeSub, if_pos (show 1 ≤ dataInSize from hpos)] at hroom
        exact ⟨hpos, Nat.lt_of_not_le hroom⟩
      · exact fun h => ⟨h.1, allWithin_nil⟩

/-- Encoding stays within both buffers exactly when the output has room for the header, decoding
exactly when the stored form is not copied and the compressed one is there as far as it is read.
Both come to an end. -/
theorem compress_within {encoder : Encoder ε} {encode : Bytes → Bytes}
    (hencoder : encoder.Completes encode) (hencode : ∀ data, data ≠ [] → encode data ≠ []) :
    (∀ (dataIn : Bytes) (dataOutSize fuel : Nat), dataIn ≠ [] → dataIn.length + 2 < fuel →
      ∃ accesses, encodeAccesses encoder fuel dataIn dataOutSize = some accesses ∧
        (AllWithin dataIn.length dataOutSize accesses ↔ 4 ≤ dataOutSize)) ∧
    ∀ (config : Config) (memory : Nat → UInt8) (dataInSize dataOutSize fuel : Nat),
      headerSize memory + (decoded config (stretch memory 4 (headerSize memory))).length + 2 < fuel →
      ∃ accesses, decodeAccesses config fuel memory dataInSize dataOutSize = some accesses ∧
        (AllWithin dataInSize dataOutSize accesses ↔
          DecodeWithin config memory dataInSize dataOutSize) :=
  ⟨fun _ _ _ hne hfuel => encodeAccesses_within hencoder hencode hne hfuel,
    fun config memory dataInSize dataOutSize _ hfuel =>
      decodeAccesses_within config memory dataInSize dataOutSize hfuel⟩

theorem literals_ne_nil {data : Bytes} (hne : data ≠ []) : literals data ≠ [] := by
  intro hnil
  have hdata := decoded_literals configDefault data
  rw [hnil, decoded, bytesBits_nil, (Decoder.reset_stuck configDefault).outputs_nil] at hdata
  exact hne hdata.symm

def compressedBytes (address : Nat) : UInt8 :=
  [0x01, 0x00, 0x04, 0x00, 0xA0, 0xD0, 0xA8, 0x60].getD address 0x00

theorem compress_within_bytes :
    (∃ accesses, encodeAccesses literalEncoder 6 [0x41, 0x42, 0x43] 8 = some accesses ∧
      AllWithin 3 8 accesses) ∧
    ∃ accesses, decodeAccesses configDefault 10 compressedBytes 8 3 = some accesses ∧
      AllWithin 8 3 accesses := by
  have hwithin := compress_within literalEncoder_completes fun _ hne => literals_ne_nil hne
  constructor
  · obtain ⟨accesses, hrun, hiff⟩ := hwithin.1 [0x41, 0x42, 0x43] 8 6 (by decide) (by decide)
    exact ⟨accesses, hrun, hiff.mpr (by decide)⟩
  · have hbytes : decoded configDefault (stretch compressedBytes 4 (headerSize compressedBytes)) =
        [0x41, 0x42, 0x43] := decoded_literals configDefault [0x41, 0x42, 0x43]
    obtain ⟨accesses, hrun, hiff⟩ :=
      hwithin.2 configDefault compressedBytes 8 3 10 (by rw [hbytes]; decide)
    refine ⟨accesses, hrun, hiff.mpr ?_⟩
    rw [DecodeWithin, if_pos (by decide)]
    refine ⟨by decide, fun k hk _ => ?_⟩
    have hsize : headerSize compressedBytes = 4 := by decide
    rw [hsize] at hk ⊢
    omega

/-- The copy of a stored byte takes the byte behind the data with it. With three bytes of room the
compressed form is written behind the output buffer. -/
theorem compress_outside : (¬ ∀ (fuel : Nat) (memory : Nat → UInt8) (dataInSize dataOutSize : Nat)
      (accesses : List Access),
      decodeAccesses configDefault fuel memory dataInSize dataOutSize = some accesses →
      AllWithin dataInSize dataOutSize accesses) ∧
    ¬ ∀ (fuel : Nat) (dataIn : Bytes) (dataOutSize : Nat) (accesses : List Access),
      encodeAccesses literalEncoder fuel dataIn dataOutSize = some accesses →
      AllWithin dataIn.length dataOutSize accesses := by
  constructor
  · intro h
    have hwithin := h 1 (fun i => [0x00, 0x41].getD i 0x00) 2 2 [.read 0 1, .read 1 2, .write 0 2] rfl
    exact absurd (read_within_iff.mp (hwithin (.read 1 2) (by decide))) (by decide)
  · intro h
    have hwithin := h 4 [0x41] 3 [.read 0 1, .write 4 0, .write 4 2, .write 0 1, .read 0 1,
      .write 1 1] rfl
    exact absurd (write_within_iff.mp (hwithin (.write 4 2) (by decide))) (by decide)

end Compress
end NikitaFirmware
