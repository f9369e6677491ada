import NikitaFirmware.Toolbox.Stream

/-!
# The stream over a file with a cache

`lib/toolbox/stream/buffered_file_stream.c` and `lib/toolbox/stream/stream_cache.c`. One cache holds
what was read ahead of the position, with the file behind it, or what is still to be written, with
the file in front of it.
-/

namespace NikitaFirmware.Toolbox

open Foundations

def streamCacheMaxSize : Nat := 1024

/-- `StreamCache`: the bytes in it, with the position in them. -/
structure StreamCache where
  data : Cursor UInt8
  fits : data.size ≤ streamCacheMaxSize
deriving DecidableEq

namespace StreamCache

def empty : StreamCache := ⟨⟨[], []⟩, Nat.zero_le _⟩

def atEnd (cache : StreamCache) : Bool := cache.data.eof

def size (cache : StreamCache) : Nat := cache.data.size

def pos (cache : StreamCache) : Nat := cache.data.tell

def fill (file : File) : StreamCache × File :=
  (⟨⟨[], (file.read streamCacheMaxSize).1⟩, List.length_take_le _ _⟩,
    (file.read streamCacheMaxSize).2)

def flush (cache : StreamCache) (file : File) : File := file.write cache.data.content

def read (cache : StreamCache) (size : Nat) : Bytes × StreamCache :=
  ((cache.data.read size).1,
    ⟨(cache.data.read size).2, Nat.le_trans (Nat.le_of_eq (cache.data.size_advance size)) cache.fits⟩)

theorem size_write_le (cache : StreamCache) (data : Bytes) :
    (cache.data.write (data.take (streamCacheMaxSize - cache.pos))).size ≤ streamCacheMaxSize := by
  have hpos := Nat.le_trans cache.data.tell_le_size cache.fits
  have htake := List.length_take_le (streamCacheMaxSize - cache.pos) data
  rw [Cursor.size_write]
  refine Nat.max_le.mpr ⟨cache.fits, ?_⟩
  rw [pos] at *
  omega

def write (cache : StreamCache) (data : Bytes) : Nat × StreamCache :=
  (min data.length (streamCacheMaxSize - cache.pos),
    ⟨cache.data.write (data.take (streamCacheMaxSize - cache.pos)), cache.size_write_le data⟩)

def seek (cache : StreamCache) (offset : Int) : Int × StreamCache :=
  let actualOffset : Int :=
    if 0 < offset then min ((cache.size - cache.pos : Nat) : Int) offset
    else if offset < 0 then max (-(cache.pos : Int)) offset
    else 0
  (actualOffset, ⟨cache.data.moveTo (cache.pos + actualOffset).toNat,
      Nat.le_trans (Nat.le_of_eq (cache.data.size_moveTo _)) cache.fits⟩)

end StreamCache

@[ext] structure BufferedFileStream where
  fileStream : File
  cache : StreamCache
  syncPending : Bool
deriving DecidableEq

namespace BufferedFileStream

def flush (stream : BufferedFileStream) : Bool × BufferedFileStream :=
  let offset : Int := (stream.cache.size : Int) - stream.cache.pos
  let written := stream.cache.flush stream.fileStream
  let sought :=
    if 0 < offset then fileStreamSeek written (Int32.ofInt (-offset)) .fromCurrent
    else (true, written)
  (sought.1, ⟨sought.2, .empty, false⟩)

def unread (stream : BufferedFileStream) : Bool × BufferedFileStream :=
  if 0 < stream.cache.size then
    let offset : Int := (stream.cache.size : Int) - stream.cache.pos
    let sought :=
      if stream.cache.pos < stream.cache.size then
        fileStreamSeek stream.fileStream (Int32.ofInt (-offset)) .fromCurrent
      else (true, stream.fileStream)
    (sought.1, { stream with fileStream := sought.2, cache := .empty })
  else (true, stream)

/-- What `buffered_file_stream_close` and `buffered_file_stream_delete_and_insert` begin with. -/
def settle (stream : BufferedFileStream) : Bool × BufferedFileStream :=
  if stream.syncPending then stream.flush else stream.unread

def sync (stream : BufferedFileStream) : Bool × BufferedFileStream :=
  if stream.syncPending then stream.flush else (true, stream)

def close (stream : BufferedFileStream) : Bool × File := (stream.settle.1, stream.settle.2.fileStream)

def eof (stream : BufferedFileStream) : Bool :=
  let fileStreamEof := stream.fileStream.eof
  let cacheAtEnd := stream.cache.atEnd
  if !stream.syncPending then fileStreamEof && cacheAtEnd
  else
    let remainingSize := stream.fileStream.size - stream.fileStream.tell
    -- the size of the cache is compared with a truth value
    decide ((if remainingSize ≠ 0 then cacheAtEnd else fileStreamEof).toNat ≤ stream.cache.size)

def clean (stream : BufferedFileStream) : BufferedFileStream :=
  ⟨(stream.fileStream.moveTo 0).truncate, .empty, false⟩

def newOffset (stream : BufferedFileStream) (offset : Int32) (kind : StreamOffset) :
    Int × StreamCache :=
  match kind with
  | .fromCurrent =>
    let sought := stream.cache.seek offset.toInt
    let newOffset := toInt32 (offset.toInt - sought.1)
    (if newOffset < 0 then toInt32 (newOffset - sought.2.size) else newOffset, sought.2)
  | _ => (offset.toInt, stream.cache)

def seek (stream : BufferedFileStream) (offset : Int32) (kind : StreamOffset) :
    Bool × BufferedFileStream :=
  let newOffset := (stream.newOffset offset kind).1
  let moved := { stream with cache := (stream.newOffset offset kind).2 }
  if newOffset ≠ 0 ∨ kind ≠ .fromCurrent then
    let synced := if moved.syncPending then moved.sync else (true, { moved with cache := .empty })
    if synced.1 then
      let sought := fileStreamSeek synced.2.fileStream (Int32.ofInt newOffset) kind
      (sought.1, { synced.2 with fileStream := sought.2 })
    else (false, synced.2)
  else (true, moved)

def tell (stream : BufferedFileStream) : Nat :=
  let pos := stream.fileStream.tell + stream.cache.pos
  if !stream.syncPending then pos - stream.cache.size else pos

def size (stream : BufferedFileStream) : Nat :=
  let size := stream.fileStream.size
  if stream.syncPending then
    let remainingSize := size - stream.fileStream.tell
    if remainingSize < stream.cache.size then size + (stream.cache.size - remainingSize) else size
  else size

/-- The loop of `buffered_file_stream_write`: what was not written, and the stream. A full cache
takes nothing once and is emptied then. -/
def writeLoop : Nat → BufferedFileStream → Bytes → Bytes × BufferedFileStream
  | 0, stream, data => (data, stream)
  | fuel + 1, stream, data =>
    if data.length = 0 then (data, stream)
    else
      let written := stream.cache.write data
      let left := data.drop written.1
      if left.length = 0 then (left, { stream with cache := written.2, syncPending := true })
      else writeLoop fuel ⟨written.2.flush stream.fileStream, .empty, false⟩ left

def write (stream : BufferedFileStream) (data : Bytes) : Nat × BufferedFileStream :=
  let ready := if !stream.syncPending then stream.unread else (true, stream)
  if ready.1 then
    let written := writeLoop (data.length + 2) ready.2 data
    (data.length - written.1.length, written.2)
  else (0, ready.2)

def readLoop : Nat → BufferedFileStream → Nat → Bytes × BufferedFileStream
  | 0, stream, _ => ([], stream)
  | fuel + 1, stream, needToRead =>
    if needToRead = 0 then ([], stream)
    else
      let data := (stream.cache.read needToRead).1
      let stream := { stream with cache := (stream.cache.read needToRead).2 }
      if needToRead - data.length = 0 then (data, stream)
      else
        let flushed := if stream.syncPending then stream.flush else (true, stream)
        if flushed.1 then
          let filled := StreamCache.fill flushed.2.fileStream
          let stream := { flushed.2 with cache := filled.1, fileStream := filled.2 }
          if filled.1.size = 0 then (data, stream)
          else
            let rest := readLoop fuel stream (needToRead - data.length)
            (data ++ rest.1, rest.2)
        else (data, flushed.2)

def read (stream : BufferedFileStream) (size : Nat) : Bytes × BufferedFileStream :=
  readLoop (size + 2) stream size

def deleteAndInsert (stream : BufferedFileStream) (deleteSize : Nat)
    (writeCallback : Option WriteCallback) : Bool × BufferedFileStream :=
  let settled := stream.settle
  if settled.1 then
    let done := fileStreamDeleteAndInsert settled.2.fileStream deleteSize writeCallback
    (done.1, { settled.2 with fileStream := done.2 })
  else (false, settled.2)

def step (stream : BufferedFileStream) : StreamRequest → StreamAnswer × BufferedFileStream
  | .write data => (.count (stream.write data).1, (stream.write data).2)
  | .read size => (.bytes (stream.read size).1, (stream.read size).2)
  | .seek offset kind => (.flag (stream.seek offset kind).1, (stream.seek offset kind).2)
  | .tell => (.count stream.tell, stream)
  | .size => (.count stream.size, stream)
  | .eof => (.flag stream.eof, stream)
  | .clean => (.done, stream.clean)
  | .deleteAndInsert deleteSize writeCallback =>
    (.flag (stream.deleteAndInsert deleteSize writeCallback).1,
      (stream.deleteAndInsert deleteSize writeCallback).2)

/-- `buffered_file_stream_open`: a file with its first byte at the position. -/
def opened (content : Bytes) : BufferedFileStream := ⟨⟨[], content⟩, .empty, false⟩

end BufferedFileStream

/-- What a stream with a cache is asked for besides. -/
inductive BufferedRequest
  | stream (request : StreamRequest)
  | sync

def bufferedFileStream : Transducer BufferedFileStream BufferedRequest StreamAnswer where
  step stream
    | .stream request => some (stream.step request)
    | .sync => some (.flag stream.sync.1, stream.sync.2)

/-- The stream over a file for the same requests: there is nothing to be written out. -/
def unbufferedFileStream : Transducer File BufferedRequest StreamAnswer where
  step file
    | .stream request => some (fileStreamStep file request)
    | .sync => some (.flag true, file)

namespace BufferedFileStream
variable {s : BufferedFileStream}

def shown (s : BufferedFileStream) : Cursor UInt8 :=
  if s.syncPending then
    ⟨s.fileStream.before ++ s.cache.data.before,
      s.cache.data.after ++ s.fileStream.after.drop s.cache.size⟩
  else
    ⟨s.fileStream.before.take (s.fileStream.tell - s.cache.size) ++ s.cache.data.before,
      s.cache.data.after ++ s.fileStream.after⟩

/-- What is to be written is there, and what was read ahead lies in front of the position of the
file. -/
def Valid (s : BufferedFileStream) : Prop :=
  if s.syncPending then s.cache.data.content ≠ []
  else s.cache.data.content <:+ s.fileStream.before

theorem shown_of_pending (h : s.syncPending = true) :
    s.shown = ⟨s.fileStream.before ++ s.cache.data.before,
      s.cache.data.after ++ s.fileStream.after.drop s.cache.size⟩ := if_pos h

theorem shown_of_ahead {l : Bytes} (h : s.syncPending = false)
    (hl : l ++ s.cache.data.content = s.fileStream.before) :
    s.shown = ⟨l ++ s.cache.data.before, s.cache.data.after ++ s.fileStream.after⟩ := by
  have htell : s.fileStream.tell - s.cache.size = l.length := by
    rw [Cursor.tell, ← hl, List.length_append]
    exact Nat.add_sub_cancel ..
  rw [shown, if_neg (by rw [h]; exact Bool.false_ne_true), htell, ← hl, List.take_left]

theorem Valid.ahead (hvalid : s.Valid) (h : s.syncPending = false) :
    ∃ l, l ++ s.cache.data.content = s.fileStream.before := by
  rw [Valid, if_neg (by rw [h]; exact Bool.false_ne_true)] at hvalid
  exact hvalid

theorem Valid.pending (hvalid : s.Valid) (h : s.syncPending = true) : 0 < s.cache.size := by
  rw [Valid, if_pos h] at hvalid
  exact List.length_pos_iff.mpr hvalid

theorem shown_empty (file : File) : shown ⟨file, .empty, false⟩ = file :=
  shown_of_ahead (l := file.before) rfl (List.append_nil _) |>.trans
    (Cursor.ext (List.append_nil _) rfl)

theorem valid_empty (file : File) : Valid ⟨file, .empty, false⟩ := List.nil_suffix

theorem fileStreamSeek_back {l m r : Bytes} (hsize : (Cursor.mk (l ++ m) r).size < 2 ^ 31) :
    fileStreamSeek ⟨l ++ m, r⟩ (Int32.ofInt (-(m.length : Int))) .fromCurrent =
      (true, ⟨l, m ++ r⟩) := by
  have hlength : (l ++ m).length = l.length + m.length := List.length_append
  have hle : (l ++ m).length ≤ (Cursor.mk (l ++ m) r).size :=
    Cursor.tell_le_size (Cursor.mk (l ++ m) r)
  have htarget : seekTarget (Cursor.mk (l ++ m) r) (Int32.ofInt (-(m.length : Int))) .fromCurrent =
      (l.length : Int) := by
    rw [seekTarget, Int32.toInt_ofInt_of_le (by omega) (by omega), StreamOffset.base, Cursor.tell_mk,
      toInt32_of_lt (by omega) (by omega)]
    omega
  rw [fileStreamSeek_eq hsize, htarget, Cursor.seek_natCast (by omega)]
  congr 1
  rw [Cursor.moveTo, Cursor.content_mk, List.append_assoc, List.take_left, List.drop_left]

theorem StreamCache.size_sub_pos (cache : StreamCache) :
    (cache.size : Int) - cache.pos = (cache.data.after.length : Int) := by
  have := cache.data.size_eq
  rw [StreamCache.size, StreamCache.pos]
  omega

theorem StreamCache.eq_empty {cache : StreamCache} (h : cache.size = 0) : cache = .empty := by
  obtain ⟨data, fits⟩ := cache
  obtain ⟨hbefore, hafter⟩ := List.append_eq_nil_iff.mp (List.length_eq_zero_iff.mp h)
  obtain rfl : data = ⟨[], []⟩ := Cursor.ext hbefore hafter
  rfl

theorem flush_eq (h : s.syncPending = true) (hsize : s.shown.size < 2 ^ 31) :
    s.flush = (true, ⟨s.shown, .empty, false⟩) := by
  rw [shown_of_pending h] at hsize ⊢
  have hwritten : s.cache.flush s.fileStream =
      ⟨s.fileStream.before ++ s.cache.data.before ++ s.cache.data.after,
        s.fileStream.after.drop s.cache.size⟩ := by
    rw [StreamCache.flush, Cursor.write, Cursor.splice, Cursor.content, List.append_assoc,
      StreamCache.size, Cursor.size, Cursor.content]
  have hback : (Cursor.mk (s.fileStream.before ++ s.cache.data.before ++
      s.cache.data.after) (s.fileStream.after.drop s.cache.size)).size < 2 ^ 31 := by
    rwa [Cursor.size, Cursor.content_mk, List.append_assoc]
  rw [flush]
  simp only [StreamCache.size_sub_pos, hwritten]
  by_cases hrest : s.cache.data.after = []
  · rw [if_neg (by rw [hrest]; decide), hrest, List.append_nil, List.nil_append]
  · have hpos := List.length_pos_iff.mpr hrest
    rw [if_pos (by omega), fileStreamSeek_back hback]

theorem unread_eq (h : s.syncPending = false) (hvalid : s.Valid) (hsize : s.shown.size < 2 ^ 31) :
    s.unread = (true, ⟨s.shown, .empty, false⟩) := by
  obtain ⟨l, hl⟩ := hvalid.ahead h
  rw [shown_of_ahead h hl] at hsize ⊢
  have hfile : s.fileStream =
      ⟨l ++ s.cache.data.before ++ s.cache.data.after, s.fileStream.after⟩ := by
    refine Cursor.ext ?_ rfl
    rw [← hl, Cursor.content, List.append_assoc]
  rw [unread]
  by_cases hempty : 0 < s.cache.size
  · rw [if_pos hempty]
    have hlt : s.cache.pos < s.cache.size ↔ s.cache.data.after ≠ [] := by
      rw [← List.length_pos_iff, StreamCache.pos, StreamCache.size, Cursor.size_eq]
      omega
    simp only [StreamCache.size_sub_pos, h]
    by_cases hrest : s.cache.data.after = []
    · rw [if_neg (fun hpos => hlt.mp hpos hrest), hfile, hrest, List.append_nil, List.nil_append]
    · have hback : (Cursor.mk (l ++ s.cache.data.before ++ s.cache.data.after)
          s.fileStream.after).size < 2 ^ 31 := by
        rwa [Cursor.size, Cursor.content_mk, List.append_assoc]
      rw [if_pos (hlt.mpr hrest), hfile, fileStreamSeek_back hback]
  · rw [if_neg hempty]
    have hcache : s.cache = .empty := StreamCache.eq_empty (Nat.eq_zero_of_not_pos hempty)
    rw [hcache] at hl ⊢
    refine Prod.ext rfl (BufferedFileStream.ext ?_ hcache h)
    exact Cursor.ext hl.symm rfl

theorem settle_eq (hvalid : s.Valid) (hsize : s.shown.size < 2 ^ 31) :
    s.settle = (true, ⟨s.shown, .empty, false⟩) := by
  rw [settle]
  cases h : s.syncPending with
  | true => exact (if_pos rfl).trans (flush_eq h hsize)
  | false => exact (if_neg Bool.false_ne_true).trans (unread_eq h hvalid hsize)

theorem sync_eq (hvalid : s.Valid) (hsize : s.shown.size < 2 ^ 31) :
    s.sync.1 = true ∧ s.sync.2.shown = s.shown ∧ s.sync.2.Valid := by
  rw [sync]
  cases h : s.syncPending with
  | true =>
    rw [if_pos rfl, flush_eq h hsize]
    exact ⟨rfl, shown_empty _, valid_empty _⟩
  | false =>
    rw [if_neg Bool.false_ne_true]
    exact ⟨rfl, rfl, hvalid⟩

theorem tell_eq (hvalid : s.Valid) : s.tell = s.shown.tell := by
  cases h : s.syncPending with
  | true =>
    have hshown : s.shown.tell = s.fileStream.tell + s.cache.pos := by
      rw [shown_of_pending h]
      exact List.length_append
    rw [hshown, tell, h]
    rfl
  | false =>
    obtain ⟨l, hl⟩ := hvalid.ahead h
    have hshown : s.shown.tell = l.length + s.cache.pos := by
      rw [shown_of_ahead h hl]
      exact List.length_append
    have hlength : s.fileStream.tell = l.length + s.cache.size := by
      rw [Cursor.tell, ← hl]
      exact List.length_append
    rw [hshown, tell, h, hlength]
    exact Nat.sub_eq_of_eq_add (Nat.add_right_comm ..)

theorem content_of_ahead (hvalid : s.Valid) (h : s.syncPending = false) :
    s.fileStream.content = s.shown.content := by
  obtain ⟨l, hl⟩ := hvalid.ahead h
  rw [shown_of_ahead h hl, Cursor.content, ← hl, Cursor.content, Cursor.content_mk]
  simp only [List.append_assoc]

theorem size_eq (hvalid : s.Valid) : s.size = s.shown.size := by
  cases h : s.syncPending with
  | true =>
    have hcache : s.cache.size = s.cache.data.before.length +
        s.cache.data.after.length := s.cache.data.size_eq
    have hshown : s.shown.size = s.fileStream.tell + s.cache.size +
        (s.fileStream.after.length - s.cache.size) := by
      rw [shown_of_pending h, Cursor.size_eq, hcache]
      simp only [Cursor.tell, List.length_append, List.length_drop]
      omega
    have hfile := s.fileStream.size_eq
    rw [hshown, size, h]
    simp only [if_true]
    split <;> omega
  | false =>
    rw [size, h, if_neg Bool.false_ne_true, Cursor.size, Cursor.size, content_of_ahead hvalid h]

theorem eof_of_pending (hvalid : s.Valid) (h : s.syncPending = true) : s.eof = true := by
  have hpos := hvalid.pending h
  rw [eof]
  simp only [h, Bool.not_true, Bool.false_eq_true, if_false, decide_eq_true_iff]
  exact Nat.le_trans (Bool.toNat_le _) hpos

theorem eof_of_ahead (hvalid : s.Valid) (h : s.syncPending = false) : s.eof = s.shown.eof := by
  obtain ⟨l, hl⟩ := hvalid.ahead h
  rw [eof, shown_of_ahead h hl, h]
  simp only [Bool.not_false, if_true, Cursor.eof, StreamCache.atEnd]
  cases s.fileStream.after <;> cases s.cache.data.after <;> rfl

theorem shown_of_writable (h : s.syncPending = true ∨ s.cache = .empty) :
    s.shown = ⟨s.fileStream.before ++ s.cache.data.before,
      s.cache.data.after ++ s.fileStream.after.drop s.cache.size⟩ := by
  cases hpending : s.syncPending with
  | true => exact shown_of_pending hpending
  | false =>
    have hcache := h.resolve_left (by rw [hpending]; exact Bool.false_ne_true)
    rw [shown_of_ahead (l := s.fileStream.before) hpending
      (by rw [hcache]; exact List.append_nil _), hcache]
    rfl

theorem shown_write_cache (h : s.syncPending = true ∨ s.cache = .empty) (data : Bytes)
    (hfits : (s.cache.data.write data).size ≤ streamCacheMaxSize) :
    shown ⟨s.fileStream, ⟨s.cache.data.write data, hfits⟩, true⟩ = s.shown.write data := by
  have hsize : (s.cache.data.write data).size =
      s.cache.size + (data.length - s.cache.data.after.length) := by
    have := s.cache.data.size_eq
    rw [Cursor.size_write, StreamCache.size]
    omega
  have hshown : shown ⟨s.fileStream, ⟨s.cache.data.write data, hfits⟩, true⟩ =
      ⟨s.fileStream.before ++ (s.cache.data.write data).before, (s.cache.data.write data).after ++
          s.fileStream.after.drop (s.cache.data.write data).size⟩ := rfl
  rw [hshown, shown_of_writable h, hsize, Cursor.write, Cursor.splice, Cursor.write, Cursor.splice,
    List.drop_append, List.drop_drop]
  simp only [List.append_assoc]

theorem writeLoop_eq {fuel : Nat} {data : Bytes}
    (h : s.syncPending = true ∨ s.cache = .empty) (hvalid : s.Valid)
    (hfuel : data.length + 1 < fuel ∨ s.cache = .empty ∧ data.length < fuel) :
    (writeLoop fuel s data).1 = [] ∧ (writeLoop fuel s data).2.shown = s.shown.write data ∧
      (writeLoop fuel s data).2.Valid := by
  induction fuel generalizing s data with
  | zero => omega
  | succ fuel ih =>
    rw [writeLoop]
    by_cases hdata : data.length = 0
    · obtain rfl := List.length_eq_zero_iff.mp hdata
      rw [if_pos hdata, Cursor.write_nil]
      exact ⟨rfl, rfl, hvalid⟩
    · rw [if_neg hdata]
      simp only
      -- how much the cache takes
      obtain ⟨room, hroom⟩ : ∃ room, room = streamCacheMaxSize - s.cache.pos := ⟨_, rfl⟩
      have htaken : (s.cache.write data).1 = min room data.length := by
        rw [hroom]
        exact Nat.min_comm ..
      have hcache : (s.cache.write data).2.data = s.cache.data.write (data.take room) := by
        rw [hroom]
        rfl
      have hshown : shown ⟨s.fileStream, (s.cache.write data).2, true⟩ =
          s.shown.write (data.take room) := by
        rw [hroom]
        exact shown_write_cache h _ _
      rw [htaken, Cursor.drop_min_length]
      by_cases hleft : (data.drop room).length = 0
      · rw [if_pos hleft]
        have hall : data.take room = data :=
          List.take_of_length_le (by rw [List.length_drop] at hleft; omega)
        refine ⟨List.length_eq_zero_iff.mp hleft, by rw [hshown, hall], ?_⟩
        have hne : (s.cache.data.write data).content ≠ [] := by
          rw [Cursor.write, Cursor.splice, Cursor.content_mk]
          intro hnil
          obtain ⟨hnil, -⟩ := List.append_eq_nil_iff.mp hnil
          exact hdata (List.length_eq_zero_iff.mpr (List.append_eq_nil_iff.mp hnil).2)
        rw [Valid, if_pos rfl, hcache, hall]
        exact hne
      · rw [if_neg hleft]
        rw [List.length_drop] at hleft
        -- the cache is full, with its position at its end
        have hafter : (s.cache.write data).2.data.after = [] := by
          have hfits := (s.cache.write data).2.fits
          have htell : (s.cache.write data).2.data.tell = s.cache.pos + room := by
            rw [hcache, Cursor.tell_write, List.length_take_of_le (by omega)]
            rfl
          have hpos := Nat.le_trans s.cache.data.tell_le_size s.cache.fits
          rw [Cursor.size_eq, htell, hroom] at hfits
          rw [StreamCache.pos] at hfits
          exact List.length_eq_zero_iff.mp (by omega)
        have hflush : (s.cache.write data).2.flush s.fileStream =
            s.shown.write (data.take room) := by
          rw [← hshown, shown_of_pending rfl, StreamCache.flush, Cursor.write, Cursor.splice, hafter,
            Cursor.content, hafter, List.append_nil, List.nil_append, StreamCache.size, Cursor.size,
            Cursor.content, hafter, List.append_nil]
        have hrest : (data.drop room).length < fuel := by
          rw [List.length_drop]
          rcases hfuel with hfuel | ⟨hempty, hfuel⟩
          · omega
          · rw [hempty] at hroom
            have : room = 1024 := hroom
            omega
        obtain ⟨hnil, hrun, hvalid'⟩ := @ih ⟨(s.cache.write data).2.flush
          s.fileStream, .empty, false⟩ _ (Or.inr rfl) (valid_empty _) (Or.inr ⟨rfl, hrest⟩)
        refine ⟨hnil, ?_, hvalid'⟩
        rw [hrun, shown_empty, hflush, Cursor.write_write, List.take_append_drop]

theorem write_eq (hvalid : s.Valid) (hsize : s.shown.size < 2 ^ 31) (data : Bytes) :
    (s.write data).1 = data.length ∧ (s.write data).2.shown = s.shown.write data ∧
      (s.write data).2.Valid := by
  have hfuel : data.length + 1 < data.length + 2 := Nat.lt_succ_self _
  rw [write]
  cases h : s.syncPending with
  | true =>
    obtain ⟨hnil, hshown, hvalid'⟩ := writeLoop_eq (Or.inl h) hvalid (Or.inl hfuel)
    simp only [Bool.not_true, Bool.false_eq_true, if_false, if_true, hnil]
    exact ⟨rfl, hshown, hvalid'⟩
  | false =>
    obtain ⟨hnil, hshown, hvalid'⟩ := @writeLoop_eq ⟨s.shown, .empty, false⟩ _ _
      (Or.inr rfl) (valid_empty _) (Or.inl hfuel)
    simp only [Bool.not_false, if_true, unread_eq h hvalid hsize, hnil]
    exact ⟨rfl, by rw [hshown, shown_empty], hvalid'⟩

theorem shown_move (hvalid : s.Valid) {cache : StreamCache}
    (hcontent : cache.data.content = s.cache.data.content) :
    Valid { s with cache := cache } ∧
      shown { s with cache := cache } =
        s.shown.moveTo (s.shown.tell - s.cache.pos + cache.pos) := by
  have hsize : cache.size = s.cache.size := congrArg List.length hcontent
  have hpos : cache.pos ≤ cache.size := cache.data.tell_le_size
  -- whatever lies around the cache
  have hmove : ∀ l r : Bytes, (⟨l ++ cache.data.before, cache.data.after ++ r⟩ : Cursor UInt8) =
      (Cursor.mk (l ++ s.cache.data.before) (s.cache.data.after ++ r)).moveTo
        ((l ++ s.cache.data.before).length - s.cache.pos + cache.pos) := by
    intro l r
    have hwhole : (l ++ s.cache.data.before) ++ (s.cache.data.after ++ r) =
        l ++ (s.cache.data.content ++ r) := by
      rw [Cursor.content]
      simp only [List.append_assoc]
    have hcount : (l ++ s.cache.data.before).length - s.cache.pos + cache.pos =
        l.length + cache.pos := by
      rw [List.length_append]
      exact congrArg (· + cache.pos) (Nat.add_sub_cancel ..)
    have hle : l.length + cache.pos ≤
        (Cursor.mk (l ++ s.cache.data.before) (s.cache.data.after ++ r)).size := by
      rw [Cursor.size, Cursor.content_mk, hwhole, List.length_append, List.length_append]
      have : s.cache.size = s.cache.data.content.length := rfl
      omega
    rw [hcount]
    apply Cursor.ext_of_content
    · rw [Cursor.content_moveTo, Cursor.content_mk, Cursor.content_mk, hwhole, ← hcontent,
        Cursor.content]
      simp only [List.append_assoc]
    · rw [Cursor.tell_moveTo hle]
      exact List.length_append
  cases h : s.syncPending with
  | true =>
    refine ⟨?_, ?_⟩
    · rw [Valid, if_pos h] at hvalid
      exact (if_pos rfl).mpr (hcontent ▸ hvalid)
    · rw [shown_of_pending h, shown_of_pending rfl]
      simp only [hsize]
      exact hmove _ _
  | false =>
    obtain ⟨l, hl⟩ := hvalid.ahead h
    have hl' : l ++ cache.data.content = s.fileStream.before := by rw [hcontent, hl]
    refine ⟨?_, ?_⟩
    · exact (if_neg Bool.false_ne_true).mpr ⟨l, hl'⟩
    · rw [shown_of_ahead h hl, shown_of_ahead rfl hl']
      exact hmove _ _

theorem cache_within (hvalid : s.Valid) :
    s.cache.data.after <+: s.shown.after ∧ s.cache.pos ≤ s.shown.tell := by
  cases h : s.syncPending with
  | true =>
    rw [shown_of_pending h]
    refine ⟨List.prefix_append _ _, ?_⟩
    rw [Cursor.tell_mk, List.length_append]
    exact Nat.le_add_left _ _
  | false =>
    obtain ⟨l, hl⟩ := hvalid.ahead h
    rw [shown_of_ahead h hl]
    refine ⟨List.prefix_append _ _, ?_⟩
    rw [Cursor.tell_mk, List.length_append]
    exact Nat.le_add_left _ _

theorem shown_fill (file : File) :
    shown ⟨(StreamCache.fill file).2, (StreamCache.fill file).1, false⟩ = file ∧
      Valid ⟨(StreamCache.fill file).2, (StreamCache.fill file).1, false⟩ := by
  have hl : file.before ++ (StreamCache.fill file).1.data.content =
      (StreamCache.fill file).2.before := rfl
  refine ⟨?_, (if_neg Bool.false_ne_true).mpr ⟨_, hl⟩⟩
  rw [shown_of_ahead rfl hl]
  exact Cursor.ext (List.append_nil _) (List.take_append_drop _ _)

theorem flush_at_end (hvalid : s.Valid) (hsize : s.shown.size < 2 ^ 31)
    (hend : s.cache.data.after = []) :
    ∃ flushed, (if s.syncPending then s.flush else (true, s)) = (true, flushed) ∧
      flushed.fileStream = s.shown ∧ flushed.syncPending = false := by
  cases h : s.syncPending with
  | true => exact ⟨_, (if_pos rfl).trans (flush_eq h hsize), rfl, rfl⟩
  | false =>
    obtain ⟨l, hl⟩ := hvalid.ahead h
    refine ⟨s, if_neg Bool.false_ne_true, ?_, h⟩
    rw [shown_of_ahead h hl]
    refine Cursor.ext ?_ ?_
    · rw [← hl, Cursor.content, hend, List.append_nil]
    · rw [hend, List.nil_append]

theorem readLoop_eq {fuel n : Nat} (hvalid : s.Valid) (hsize : s.shown.size < 2 ^ 31)
    (hfuel : n + 1 < fuel ∨ s.cache.data.after ≠ [] ∧ n < fuel) :
    (readLoop fuel s n).1 = s.shown.after.take n ∧ (readLoop fuel s n).2.shown = s.shown.advance n ∧
      (readLoop fuel s n).2.Valid := by
  induction fuel generalizing s n with
  | zero => omega
  | succ fuel ih =>
    rw [readLoop]
    by_cases hn : n = 0
    · rw [if_pos hn, hn, List.take_zero, Cursor.advance_zero]
      exact ⟨rfl, rfl, hvalid⟩
    rw [if_neg hn]
    simp only
    -- what comes out of the cache
    obtain ⟨rest, hrest⟩ := (cache_within hvalid).1
    have hdata : (s.cache.read n).1 = s.cache.data.after.take n := rfl
    have hcontent : (s.cache.read n).2.data.content = s.cache.data.content :=
      Cursor.content_advance _ _
    obtain ⟨hvalid₁, hshown₁⟩ := shown_move hvalid hcontent
    have hlength : (s.cache.data.after.take n).length = min n s.cache.data.after.length :=
      List.length_take
    have hle : (s.cache.data.after.take n).length ≤ s.shown.after.length := by
      rw [← hrest, List.length_append]
      omega
    have hpos : (s.cache.read n).2.pos =
        s.cache.pos + (s.cache.data.after.take n).length := List.length_append
    rw [hpos, ← Nat.add_assoc, Nat.sub_add_cancel (cache_within hvalid).2,
      ← Cursor.advance_eq_moveTo hle] at hshown₁
    rw [hdata]
    by_cases henough : n - (s.cache.data.after.take n).length = 0
    · rw [if_pos henough]
      have hcount : (s.cache.data.after.take n).length = n := by omega
      rw [hcount] at hshown₁
      refine ⟨?_, hshown₁, hvalid₁⟩
      rw [← hrest, List.take_append_of_le_length (by omega)]
    · rw [if_neg henough]
      -- the cache is used up
      have hall : s.cache.data.after.take n = s.cache.data.after :=
        List.take_of_length_le (by omega)
      rw [hall] at hshown₁ henough ⊢
      have hend : (s.cache.read n).2.data.after = [] :=
        List.drop_of_length_le (by omega)
      have hsize₁ : (shown { s with cache := (s.cache.read n).2 }).size < 2 ^ 31 := by
        rw [hshown₁, Cursor.size_advance]
        exact hsize
      obtain ⟨flushed, hflushed, hfile, hahead⟩ := flush_at_end hvalid₁ hsize₁ hend
      rw [hflushed]
      obtain ⟨hfill, hvalid₂⟩ := shown_fill flushed.fileStream
      replace hfill := hfill.trans (hfile.trans hshown₁)
      simp only [if_true, hahead]
      have hnext : (s.shown.advance s.cache.data.after.length).after = rest := by
        rw [Cursor.advance, ← hrest, List.drop_left]
      by_cases hnone : (StreamCache.fill flushed.fileStream).1.size = 0
      · rw [if_pos hnone]
        -- the file is at its end
        have hrestnil : rest = [] := by
          have htake : (flushed.fileStream.after.take streamCacheMaxSize).length = 0 := hnone
          rw [hfile, hshown₁, hnext, List.length_take] at htake
          exact List.length_eq_zero_iff.mp (by unfold streamCacheMaxSize at htake; omega)
        rw [hrestnil, List.append_nil] at hrest
        refine ⟨by rw [← hrest, hall], hfill.trans ?_, hvalid₂⟩
        rw [hrest, Cursor.advance, Cursor.advance, List.take_length, List.drop_length,
          List.take_of_length_le (by rw [← hrest]; omega),
          List.drop_of_length_le (by rw [← hrest]; omega)]
      · rw [if_neg hnone]
        have hne : (StreamCache.fill flushed.fileStream).1.data.after ≠ [] := fun hnil =>
          hnone (by rw [StreamCache.size, Cursor.size_eq, hnil]; rfl)
        have hless : n - s.cache.data.after.length < fuel := by
          rcases hfuel with hfuel | ⟨hsome, hfuel⟩
          · omega
          · have := List.length_pos_iff.mpr hsome
            omega
        obtain ⟨hbytes, hshown, hvalid₃⟩ := ih hvalid₂
          (by rw [hfill, Cursor.size_advance]; exact hsize) (Or.inr ⟨hne, hless⟩)
        refine ⟨?_, ?_, hvalid₃⟩
        · rw [hbytes, hfill, hnext, ← hrest, List.take_append, hall]
        · rw [hshown, hfill, Cursor.advance_advance, Nat.add_sub_cancel' (by omega)]

theorem read_eq (hvalid : s.Valid) (hsize : s.shown.size < 2 ^ 31) (n : Nat) :
    (s.read n).1 = (s.shown.read n).1 ∧
      (s.read n).2.shown = (s.shown.read n).2 ∧ (s.read n).2.Valid :=
  readLoop_eq hvalid hsize (Or.inl (Nat.lt_succ_self _))

theorem toInt32_range (x : Int) : -2 ^ 31 ≤ toInt32 x ∧ toInt32 x < 2 ^ 31 := by
  unfold toInt32
  omega

theorem toInt32_add_toInt32 (x y : Int) : toInt32 (x + toInt32 y) = toInt32 (x + y) := by
  unfold toInt32
  omega

theorem fileStreamSeek_shown {file : File} (hcontent : file.content = s.shown.content)
    (hsize : s.shown.size < 2 ^ 31) (x : Int) :
    fileStreamSeek file (Int32.ofInt (toInt32 x)) .fromCurrent =
      s.shown.seek (toInt32 (file.tell + x)) := by
  have hfile : file.size < 2 ^ 31 := by rwa [Cursor.size, hcontent]
  obtain ⟨hle, hlt⟩ := toInt32_range x
  rw [fileStreamSeek_eq hfile, seekTarget, Int32.toInt_ofInt_of_le hle hlt, StreamOffset.base,
    toInt32_add_toInt32, Cursor.seek_congr hcontent]

theorem dropped_eq (hvalid : s.Valid) (hsize : s.shown.size < 2 ^ 31) :
    ∃ file, (if s.syncPending then s.sync else (true, { s with cache := .empty })) =
        (true, ⟨file, .empty, false⟩) ∧ file.content = s.shown.content ∧
      file.tell = if s.syncPending then s.shown.tell else s.fileStream.tell := by
  cases h : s.syncPending with
  | true =>
    refine ⟨s.shown, ?_, rfl, rfl⟩
    rw [if_pos rfl, sync, h]
    exact flush_eq h hsize
  | false =>
    exact ⟨s.fileStream, if_neg Bool.false_ne_true, content_of_ahead hvalid h, rfl⟩

theorem seek_absolute (hvalid : s.Valid) (hsize : s.shown.size < 2 ^ 31) (offset : Int32)
    {kind : StreamOffset} (hkind : kind ≠ .fromCurrent) :
    (s.seek offset kind).1 = (s.shown.seek (seekTarget s.shown offset kind)).1 ∧
      (s.seek offset kind).2.shown = (s.shown.seek (seekTarget s.shown offset kind)).2 ∧
      (s.seek offset kind).2.Valid := by
  obtain ⟨file, hdropped, hcontent, -⟩ := dropped_eq hvalid hsize
  have hnew : s.newOffset offset kind = (offset.toInt, s.cache) := by
    cases kind with
    | fromCurrent => exact absurd rfl hkind
    | fromStart => rfl
    | fromEnd => rfl
  have hfile : file.size < 2 ^ 31 := by rwa [Cursor.size, hcontent]
  have hbase : kind.base file = kind.base s.shown := by
    cases kind with
    | fromCurrent => exact absurd rfl hkind
    | fromStart => rfl
    | fromEnd => exact congrArg List.length hcontent
  have hsought : fileStreamSeek file (Int32.ofInt offset.toInt) kind =
      s.shown.seek (seekTarget s.shown offset kind) := by
    rw [Int32.ofInt_toInt, fileStreamSeek_eq hfile, Cursor.seek_congr hcontent, seekTarget, hbase,
      seekTarget]
  rw [seek]
  simp only [hnew]
  rw [if_pos (Or.inr hkind), hdropped]
  simp only [if_true, hsought]
  exact ⟨trivial, shown_empty _, valid_empty _⟩

/-- Where a search from the position leads to what the s over the file finds: with bytes to
be written it stays behind the first of them, or leaves the file at its start. -/
def Reaches (s : BufferedFileStream) (offset : Int) : Prop :=
  s.syncPending = true → -(s.cache.pos : Int) ≤ offset ∨ (s.shown.tell : Int) + offset < 0 ∧
      -2 ^ 31 ≤ (s.shown.tell : Int) + offset - s.cache.size

theorem cache_seek (cache : StreamCache) (offset : Int) :
    (cache.seek offset).2.data.content = cache.data.content ∧
      ((cache.seek offset).2.pos : Int) = cache.pos + (cache.seek offset).1 ∧
      (-(cache.pos : Int) ≤ offset ∧ offset ≤ (cache.size : Int) - cache.pos ∧
          (cache.seek offset).1 = offset ∨
        (cache.size : Int) - cache.pos < offset ∧
          (cache.seek offset).1 = (cache.size : Int) - cache.pos ∨
        offset < -(cache.pos : Int) ∧ (cache.seek offset).1 = -(cache.pos : Int)) := by
  have hle : cache.pos ≤ cache.size := cache.data.tell_le_size
  have hactual : (cache.seek offset).1 =
      if 0 < offset then min ((cache.size - cache.pos : Nat) : Int) offset
      else if offset < 0 then max (-(cache.pos : Int)) offset
      else 0 := rfl
  have hcases : -(cache.pos : Int) ≤ offset ∧ offset ≤ (cache.size : Int) - cache.pos ∧
          (cache.seek offset).1 = offset ∨
        (cache.size : Int) - cache.pos < offset ∧
          (cache.seek offset).1 = (cache.size : Int) - cache.pos ∨
        offset < -(cache.pos : Int) ∧ (cache.seek offset).1 = -(cache.pos : Int) := by
    rw [hactual]
    split
    · omega
    · split <;> omega
  refine ⟨Cursor.content_moveTo _ _, ?_, hcases⟩
  have hpos : (cache.seek offset).2.pos = (cache.pos + (cache.seek offset).1).toNat :=
    Cursor.tell_moveTo (by
      have : cache.data.size = cache.size := rfl
      omega)
  rw [hpos]
  omega

theorem tell_of_ahead (hvalid : s.Valid) (h : s.syncPending = false) :
    s.fileStream.tell + s.cache.pos = s.shown.tell + s.cache.size := by
  obtain ⟨l, hl⟩ := hvalid.ahead h
  have htell : s.fileStream.tell = l.length + s.cache.size := by
    rw [Cursor.tell, ← hl]
    exact List.length_append
  have hshown : s.shown.tell = l.length + s.cache.pos := by
    rw [shown_of_ahead h hl]
    exact List.length_append
  rw [htell, hshown]
  exact Nat.add_right_comm ..

theorem move_le (hvalid : s.Valid) {cache : StreamCache}
    (hcontent : cache.data.content = s.cache.data.content) :
    s.shown.tell - s.cache.pos + cache.pos ≤ s.shown.size := by
  have hpos : cache.pos ≤ s.cache.size :=
    Nat.le_trans (Cursor.tell_le_size _) (Nat.le_of_eq (congrArg List.length hcontent))
  have hsize : s.cache.size = s.cache.pos + s.cache.data.after.length :=
    s.cache.data.size_eq
  have hshown := s.shown.size_eq
  obtain ⟨hwithin, htell⟩ := cache_within hvalid
  have hafter := hwithin.length_le
  omega

theorem seek_leaves (hvalid : s.Valid) (hsize : s.shown.size < 2 ^ 31) {offset : Int32}
    {x : Int} (hnew : (s.newOffset offset .fromCurrent).1 = toInt32 x) (hne : toInt32 x ≠ 0) :
    ∃ tell : Nat, s.seek offset .fromCurrent = ((s.shown.seek (toInt32 (tell + x))).1,
          ⟨(s.shown.seek (toInt32 (tell + x))).2, .empty, false⟩) ∧
      (tell : Int) = if s.syncPending then
          (s.shown.tell : Int) + (s.cache.seek offset.toInt).1
        else (s.shown.tell : Int) + s.cache.size - s.cache.pos := by
  obtain ⟨hcontent, hpos, -⟩ := cache_seek s.cache offset.toInt
  obtain ⟨hvalid', hshown'⟩ := shown_move hvalid hcontent
  have hsize' : (shown { s with cache := (s.cache.seek offset.toInt).2 }).size <
      2 ^ 31 := by rwa [hshown', Cursor.size_moveTo]
  obtain ⟨file, hdropped, hfile, htell⟩ := dropped_eq hvalid' hsize'
  rw [hshown', Cursor.content_moveTo] at hfile
  have hcache : (s.newOffset offset .fromCurrent).2 = (s.cache.seek offset.toInt).2 := rfl
  refine ⟨file.tell, ?_, ?_⟩
  · rw [seek]
    simp only [hnew, hcache]
    rw [if_pos (Or.inl hne), hdropped]
    simp only [if_true, fileStreamSeek_shown hfile hsize]
  · rw [htell]
    cases h : s.syncPending with
    | true =>
      have htellpos := (cache_within hvalid).2
      simp only [if_true]
      rw [h] at hshown'
      rw [hshown', Cursor.tell_moveTo (move_le hvalid hcontent)]
      omega
    | false =>
      have := tell_of_ahead hvalid h
      simp only [Bool.false_eq_true, if_false]
      omega

theorem seek_fromCurrent (hvalid : s.Valid) (hsize : s.shown.size < 2 ^ 31)
    {offset : Int32} (hreaches : s.Reaches offset.toInt) :
    (s.seek offset .fromCurrent).1 = (s.shown.seek (seekTarget s.shown offset .fromCurrent)).1 ∧
      (s.seek offset .fromCurrent).2.shown =
        (s.shown.seek (seekTarget s.shown offset .fromCurrent)).2 ∧
      (s.seek offset .fromCurrent).2.Valid := by
  obtain ⟨hcontent, hpos, hcases⟩ := cache_seek s.cache offset.toInt
  have htellpos := (cache_within hvalid).2
  have hlow := offset.le_toInt
  have hhigh := offset.toInt_lt
  have hcachepos : s.cache.pos ≤ s.cache.size := s.cache.data.tell_le_size
  rw [seekTarget, StreamOffset.base]
  have hnew : (s.newOffset offset .fromCurrent).1 =
      if toInt32 (offset.toInt - (s.cache.seek offset.toInt).1) < 0 then
        toInt32 (toInt32 (offset.toInt - (s.cache.seek offset.toInt).1) -
          ((s.cache.seek offset.toInt).2.size : Nat))
      else toInt32 (offset.toInt - (s.cache.seek offset.toInt).1) := rfl
  have hcachesize : (s.cache.seek offset.toInt).2.size = s.cache.size :=
    congrArg List.length hcontent
  rcases hcases with ⟨hback, hforth, hactual⟩ | ⟨hforth, hactual⟩ | ⟨hback, hactual⟩
  · -- it stays in the cache
    have hzero : (s.newOffset offset .fromCurrent).1 = 0 := by
      rw [hnew, hactual, Int.sub_self, if_neg (by decide)]
      rfl
    have hcache : (s.newOffset offset .fromCurrent).2 = (s.cache.seek offset.toInt).2 :=
      rfl
    have hmove := move_le hvalid hcontent
    have htarget : toInt32 ((s.shown.tell : Int) + offset.toInt) =
        ((s.shown.tell - s.cache.pos + (s.cache.seek offset.toInt).2.pos : Nat) : Int) := by
      rw [toInt32_of_lt (by omega) (by omega)]
      omega
    obtain ⟨hvalid', hshown'⟩ := shown_move hvalid hcontent
    rw [htarget, Cursor.seek_natCast hmove, seek]
    simp only [hzero, hcache]
    rw [if_neg (by simp)]
    exact ⟨rfl, hshown', hvalid'⟩
  · -- it leaves the cache forwards
    have hx : toInt32 (offset.toInt - ((s.cache.size : Int) - s.cache.pos)) =
        offset.toInt - ((s.cache.size : Int) - s.cache.pos) :=
      toInt32_of_lt (by omega) (by omega)
    rw [hactual, if_neg (by rw [hx]; omega)] at hnew
    obtain ⟨tell, hseek, htell⟩ := seek_leaves hvalid hsize hnew (by rw [hx]; omega)
    have hsum : (tell : Int) + (offset.toInt - ((s.cache.size : Int) - s.cache.pos)) =
        s.shown.tell + offset.toInt := by
      rw [hactual] at htell
      split at htell <;> omega
    rw [hseek, hsum]
    exact ⟨rfl, shown_empty _, valid_empty _⟩
  · -- it leaves the cache backwards
    have hx : toInt32 (offset.toInt - -(s.cache.pos : Int)) =
        offset.toInt - -(s.cache.pos : Int) := toInt32_of_lt (by omega) (by omega)
    rw [hactual, hx, if_pos (by omega), hcachesize] at hnew
    have hfits : s.cache.size ≤ 1024 := s.cache.fits
    have hne : toInt32 (offset.toInt - -(s.cache.pos : Int) - s.cache.size) ≠ 0 := by
      unfold toInt32
      omega
    obtain ⟨tell, hseek, htell⟩ := seek_leaves hvalid hsize hnew hne
    rw [hactual] at htell
    cases h : s.syncPending with
    | true =>
      -- the bytes to be written are stepped over twice
      rw [h] at htell
      simp only [if_true] at htell
      obtain ⟨hneg, hrange⟩ := (hreaches h).resolve_left (by omega)
      have hfound : toInt32 (tell + (offset.toInt - -(s.cache.pos : Int) - s.cache.size)) < 0 := by
        rw [toInt32_of_lt (by omega) (by omega)]
        omega
      have hwanted : toInt32 ((s.shown.tell : Int) + offset.toInt) < 0 := by
        rw [toInt32_of_lt (by omega) (by omega)]
        exact hneg
      rw [hseek, Cursor.seek_of_neg hfound, Cursor.seek_of_neg hwanted]
      exact ⟨rfl, shown_empty _, valid_empty _⟩
    | false =>
      have hsum : (tell : Int) + (offset.toInt - -(s.cache.pos : Int) - s.cache.size) =
          s.shown.tell + offset.toInt := by
        rw [h] at htell
        simp only [Bool.false_eq_true, if_false] at htell
        omega
      rw [hseek, hsum]
      exact ⟨rfl, shown_empty _, valid_empty _⟩

theorem clean_eq (s : BufferedFileStream) :
    s.clean.shown = (s.shown.moveTo 0).truncate ∧ s.clean.Valid :=
  ⟨shown_empty _, valid_empty _⟩

theorem deleteAndInsert_eq (hvalid : s.Valid) (hsize : s.shown.size < 2 ^ 31)
    (deleteSize : Nat) (writeCallback : Option WriteCallback) :
    (s.deleteAndInsert deleteSize writeCallback).1 =
        (fileStreamDeleteAndInsert s.shown deleteSize writeCallback).1 ∧
      (s.deleteAndInsert deleteSize writeCallback).2.shown =
        (fileStreamDeleteAndInsert s.shown deleteSize writeCallback).2 ∧
      (s.deleteAndInsert deleteSize writeCallback).2.Valid := by
  rw [deleteAndInsert]
  simp only [settle_eq hvalid hsize, if_true]
  exact ⟨trivial, shown_empty _, valid_empty _⟩

theorem content_fileStreamSeek (file : File) (offset : Int32) (kind : StreamOffset) :
    (fileStreamSeek file offset kind).2.content = file.content := by
  rw [fileStreamSeek.eq_def]
  simp only
  split
  · split <;> exact Cursor.content_moveTo _ _
  · exact Cursor.content_moveTo _ _

theorem content_flush (h : s.syncPending = true) :
    s.flush.2.fileStream.content = s.shown.content := by
  have hwritten : (s.cache.flush s.fileStream).content = s.shown.content := by
    rw [shown_of_pending h, StreamCache.flush, Cursor.write, Cursor.splice, Cursor.content_mk,
      Cursor.content_mk, Cursor.content, StreamCache.size, Cursor.size, Cursor.content]
    simp only [List.append_assoc]
  rw [flush]
  simp only
  split
  · rw [content_fileStreamSeek, hwritten]
  · exact hwritten

theorem content_unread (s : BufferedFileStream) :
    s.unread.2.fileStream.content = s.fileStream.content := by
  rw [unread]
  split
  · simp only
    split
    · exact content_fileStreamSeek _ _ _
    · rfl
  · rfl

theorem content_sync (hvalid : s.Valid) : s.sync.2.fileStream.content = s.shown.content := by
  rw [sync]
  cases h : s.syncPending with
  | true => exact content_flush h
  | false => exact content_of_ahead hvalid h

theorem content_close (hvalid : s.Valid) : s.close.2.content = s.shown.content := by
  rw [close, settle]
  cases h : s.syncPending with
  | true => exact content_flush h
  | false => exact (content_unread s).trans (content_of_ahead hvalid h)

/-- What is asked for where it is answered right: a s that an `int32_t` can measure, its end
asked for with nothing to be written or at the end, and searches that reach what is seen. -/
def Sound (s : BufferedFileStream) (request : BufferedRequest) : Prop :=
  s.shown.size < 2 ^ 31 ∧ match request with
    | .stream .eof => s.syncPending = true → s.shown.tell = s.shown.size
    | .stream (.seek offset .fromCurrent) => s.Reaches offset.toInt
    | _ => True

instance decidableReaches (s : BufferedFileStream) (offset : Int) : Decidable (s.Reaches offset) :=
  inferInstanceAs (Decidable (s.syncPending = true → -(s.cache.pos : Int) ≤ offset ∨
    (s.shown.tell : Int) + offset < 0 ∧ -2 ^ 31 ≤ (s.shown.tell : Int) + offset - s.cache.size))

instance decidableSound (s : BufferedFileStream) :
    ∀ request : BufferedRequest, Decidable (s.Sound request)
  | .stream .eof => inferInstanceAs (Decidable (s.shown.size < 2 ^ 31 ∧
      (s.syncPending = true → s.shown.tell = s.shown.size)))
  | .stream (.seek offset .fromCurrent) =>
    inferInstanceAs (Decidable (s.shown.size < 2 ^ 31 ∧ s.Reaches offset.toInt))
  | .stream (.seek _ .fromStart) | .stream (.seek _ .fromEnd) | .stream (.write _)
  | .stream (.read _) | .stream .tell | .stream .size | .stream .clean
  | .stream (.deleteAndInsert _ _) | .sync =>
    inferInstanceAs (Decidable (s.shown.size < 2 ^ 31 ∧ True))

/-- One request of the cached stream answers and moves as the same request of the plain file. -/
theorem step_eq (hvalid : s.Valid) {request : StreamRequest} (hsound : s.Sound (.stream request)) :
    s.step request = ((fileStreamStep s.shown request).1, (s.step request).2) ∧
      (s.step request).2.shown = (fileStreamStep s.shown request).2 ∧
      (s.step request).2.Valid := by
  obtain ⟨hsize, hsound⟩ := hsound
  cases request with
  | write data =>
    obtain ⟨hcount, hshown, hvalid'⟩ := write_eq hvalid hsize data
    rw [step, fileStreamStep, hcount]
    exact ⟨rfl, hshown, hvalid'⟩
  | read n =>
    obtain ⟨hbytes, hshown, hvalid'⟩ := read_eq hvalid hsize n
    rw [step, fileStreamStep, hbytes]
    exact ⟨rfl, hshown, hvalid'⟩
  | seek offset kind =>
    have hseek : (s.seek offset kind).1 = (fileStreamSeek s.shown offset kind).1 ∧
        (s.seek offset kind).2.shown = (fileStreamSeek s.shown offset kind).2 ∧
        (s.seek offset kind).2.Valid := by
      rw [fileStreamSeek_eq hsize]
      cases kind with
      | fromCurrent => exact seek_fromCurrent hvalid hsize hsound
      | fromStart => exact seek_absolute hvalid hsize offset (by decide)
      | fromEnd => exact seek_absolute hvalid hsize offset (by decide)
    obtain ⟨hflag, hshown, hvalid'⟩ := hseek
    rw [step, fileStreamStep, hflag]
    exact ⟨rfl, hshown, hvalid'⟩
  | tell =>
    rw [step, fileStreamStep, tell_eq hvalid]
    exact ⟨rfl, rfl, hvalid⟩
  | size =>
    rw [step, fileStreamStep, size_eq hvalid]
    exact ⟨rfl, rfl, hvalid⟩
  | eof =>
    have heof : s.eof = s.shown.eof := by
      cases h : s.syncPending with
      | true => rw [eof_of_pending hvalid h, (Cursor.eof_iff _).mpr (hsound h)]
      | false => exact eof_of_ahead hvalid h
    rw [step, fileStreamStep, heof]
    exact ⟨rfl, rfl, hvalid⟩
  | clean => exact ⟨rfl, clean_eq s⟩
  | deleteAndInsert deleteSize writeCallback =>
    obtain ⟨hflag, hshown, hvalid'⟩ := deleteAndInsert_eq hvalid hsize deleteSize writeCallback
    rw [step, fileStreamStep, hflag]
    exact ⟨rfl, hshown, hvalid'⟩

theorem simulates {requests : List BufferedRequest} {answers : List StreamAnswer}
    {s' : BufferedFileStream} (hvalid : s.Valid)
    (hsound : bufferedFileStream.Meets Sound s requests)
    (hrun : bufferedFileStream.run s requests = some (answers, s')) :
    ∃ file, unbufferedFileStream.run s.shown requests = some (answers, file) ∧
      s'.Valid ∧ s'.shown = file := by
  refine Transducer.run_simulates bufferedFileStream unbufferedFileStream
    (R := fun s file => s.Valid ∧ s.shown = file) ?_ ⟨hvalid, rfl⟩ hsound hrun
  rintro s file request answer s' ⟨hvalid, rfl⟩ hsound hstep
  cases request with
  | stream request =>
    obtain ⟨hanswer, hshown, hvalid'⟩ := step_eq hvalid hsound
    have heq : s.step request = (answer, s') := Option.some.inj hstep
    rw [heq] at hanswer hshown hvalid'
    refine ⟨_, ?_, hvalid', hshown⟩
    rw [(Prod.mk.inj hanswer).1]
    rfl
  | sync =>
    obtain ⟨hflag, hshown, hvalid'⟩ := sync_eq hvalid hsound.1
    obtain ⟨rfl, rfl⟩ := Prod.mk.inj (Option.some.inj hstep)
    refine ⟨_, ?_, hvalid', hshown⟩
    rw [hflag]
    rfl

end BufferedFileStream

open BufferedFileStream in
/-- Whatever is asked for soundly is answered as by the stream over the file, and is in the file
after a sync or a close. -/
theorem bufferedFileStream_fileStream {content : Bytes} {requests : List BufferedRequest}
    {answers : List StreamAnswer} {stream : BufferedFileStream}
    (hsound : bufferedFileStream.Meets Sound (opened content) requests)
    (hrun : bufferedFileStream.run (opened content) requests = some (answers, stream)) :
    ∃ file, unbufferedFileStream.run ⟨[], content⟩ requests = some (answers, file) ∧
      stream.sync.2.fileStream.content = file.content ∧ stream.close.2.content = file.content := by
  obtain ⟨file, hfile, hvalid, rfl⟩ := simulates (valid_empty _) hsound hrun
  rw [shown_empty] at hfile
  exact ⟨stream.shown, hfile, content_sync hvalid, content_close hvalid⟩

open BufferedFileStream in
theorem bufferedFileStream_fileStream_abc : ∃ file, unbufferedFileStream.run ⟨[], ascii "abc"⟩
        [.stream (.read 1), .stream (.write (ascii "x")), .stream (.seek (-1) .fromCurrent),
          .stream (.read 2), .stream .eof] =
      some ([.bytes (ascii "a"), .count 1, .flag true, .bytes (ascii "xc"), .flag true], file) ∧
        file.content = ascii "axc" := by
  obtain ⟨file, hfile, hsync, -⟩ := @bufferedFileStream_fileStream (ascii "abc")
    [.stream (.read 1), .stream (.write (ascii "x")), .stream (.seek (-1) .fromCurrent),
      .stream (.read 2), .stream .eof]
    [.bytes (ascii "a"), .count 1, .flag true, .bytes (ascii "xc"), .flag true]
    ⟨⟨ascii "axc", []⟩, ⟨⟨ascii "c", []⟩, by decide⟩, false⟩
    (by decide) (by decide)
  exact ⟨file, hfile, hsync.symm⟩

open BufferedFileStream in
/-- With a byte to be written the end of the file is reported at its second byte. -/
theorem bufferedFileStream_reports_end :
    ¬ ∀ (content : Bytes) (requests : List BufferedRequest) (answers : List StreamAnswer)
      (stream : BufferedFileStream),
        bufferedFileStream.run (opened content) requests = some (answers, stream) →
        ∃ file, unbufferedFileStream.run ⟨[], content⟩ requests = some (answers, file) := by
  intro h
  obtain ⟨file, hfile⟩ := h (ascii "abc") [.stream (.write (ascii "x")), .stream .eof]
    [.count 1, .flag true] ⟨⟨[], ascii "abc"⟩, ⟨⟨ascii "x", []⟩, by decide⟩, true⟩
    (by decide)
  have hanswers : (unbufferedFileStream.run ⟨[], ascii "abc"⟩
      [.stream (.write (ascii "x")), .stream .eof]).map Prod.fst =
        some [.count 1, .flag false] := by decide
  rw [hfile] at hanswers
  have heof : ([.count 1, .flag true] : List StreamAnswer) = [.count 1, .flag false] :=
    Option.some.inj hanswers
  cases heof

end NikitaFirmware.Toolbox
