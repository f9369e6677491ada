import NikitaFirmware.Toolbox.BufferedStream
import NikitaFirmware.Toolbox.Scanners
import NikitaFirmware.Toolbox.StringStream

/-!
# Scanning the streams

The streams over a file, over a string, and over a file with a cache show their content and position
to the scanners, so that these find what they look for. A position that an `int32_t` cannot say is out
of their reach.
-/

namespace NikitaFirmware.Toolbox
open Foundations List Int32

namespace Scanners

def cachedStream : Transducer BufferedFileStream StreamRequest StreamAnswer where
  step stream request := some (stream.step request)

variable {σ : Type} {stream : Transducer σ StreamRequest StreamAnswer}

variable {c : Cursor UInt8} {n q : Nat}

theorem read_eq_drop (c : Cursor UInt8) (n : Nat) :
    (c.read n).1 = (c.content.drop c.tell).take n := by
  rw [Cursor.read, Cursor.content, Cursor.tell, drop_left]

theorem tell_read (c : Cursor UInt8) (n : Nat) :
    (c.read n).2.tell = c.tell + (c.read n).1.length := length_append

theorem seek_start (hsize : c.size < 2 ^ 31) (hq : q ≤ c.size) :
    streamStep c (.seek (ofNat q) .fromStart) = (.flag true, c.moveTo q) := by
  have htarget : seekTarget c (ofNat q) .fromStart = q := by
    rw [seekTarget, StreamOffset.base, toInt_ofNat (by omega), toInt32_of_lt (by omega) (by omega)]
    exact Int.zero_add _
  rw [streamStep, htarget, Cursor.seek_natCast hq]

theorem seek_back (hsize : c.size < 2 ^ 31) {back : Nat} (hback : back ≤ c.tell) :
    streamStep c (.seek (ofInt (-(back : Int))) .fromCurrent) =
      (.flag true, c.moveTo (c.tell - back)) := by
  have hle := c.tell_le_size
  have htarget : seekTarget c (ofInt (-(back : Int))) .fromCurrent = (c.tell - back : Nat) := by
    rw [seekTarget, StreamOffset.base, toInt_ofInt_of_le (by omega) (by omega),
      toInt32_of_lt (by omega) (by omega)]
    omega
  rw [streamStep, htarget, Cursor.seek_natCast (by omega)]

theorem seek_next (hsize : c.size < 2 ^ 31) (hlt : c.tell < c.size) :
    streamStep c (.seek 1 .fromCurrent) = (.flag true, c.moveTo (c.tell + 1)) := by
  have htarget : seekTarget c 1 .fromCurrent = (c.tell + 1 : Nat) := by
    have hone : (1 : Int32).toInt = 1 := by decide
    rw [seekTarget, StreamOffset.base, hone, toInt32_of_lt (by omega) (by omega)]
    rfl
  rw [streamStep, htarget, Cursor.seek_natCast hlt]

theorem seek_end (hsize : c.size < 2 ^ 31) (hend : c.tell = c.size) :
    ∃ d, streamStep c (.seek 1 .fromCurrent) = (.flag false, d) ∧ d.content = c.content := by
  have hone : (1 : Int32).toInt = 1 := by decide
  refine ⟨(c.seek (seekTarget c 1 .fromCurrent)).2, ?_, Cursor.content_seek ..⟩
  have hfalse : (c.seek (seekTarget c 1 .fromCurrent)).1 = false := by
    rw [seekTarget, StreamOffset.base, hone, Cursor.seek]
    split
    · rfl
    · rw [if_pos]
      unfold toInt32 at *
      omega
  rw [streamStep, hfalse]

theorem shows_of_steps {R : σ → Cursor UInt8 → Prop} (hsize : ∀ {s c}, R s c → c.size < 2 ^ 31)
    (htell : ∀ {s c}, R s c → stream.step s .tell = some (.count c.tell, s))
    (hstart : ∀ {s c} offset, R s c → ∃ s', stream.step s (.seek offset .fromStart) =
          some ((streamStep c (.seek offset .fromStart)).1, s') ∧
        R s' (streamStep c (.seek offset .fromStart)).2)
    (hnext : ∀ {s c}, R s c → ∃ s', stream.step s (.seek 1 .fromCurrent) =
          some ((streamStep c (.seek 1 .fromCurrent)).1, s') ∧
        R s' (streamStep c (.seek 1 .fromCurrent)).2)
    (hread : ∀ {s c} n, R s c →
      ∃ s', stream.step s (.read n) = some (.bytes (c.read n).1, s') ∧ R s' (c.read n).2 ∧
        ∀ back : Nat, back ≤ (c.read n).1.length →
          ∃ s'', stream.step s' (.seek (ofInt (-(back : Int))) .fromCurrent) =
              some ((streamStep (c.read n).2 (.seek (ofInt (-(back : Int))) .fromCurrent)).1, s'') ∧
            R s'' (streamStep (c.read n).2 (.seek (ofInt (-(back : Int))) .fromCurrent)).2) :
    Shows stream fun s l p => ∃ c, R s c ∧ c.content = l ∧ c.tell = p where
  le := by
    rintro s l p ⟨c, -, rfl, rfl⟩
    exact c.tell_le_size
  tell := by
    rintro s l p ⟨c, hR, -, rfl⟩
    exact htell hR
  seekStart := by
    rintro s l p q ⟨c, hR, rfl, -⟩ hq
    obtain ⟨s', hstep, hR'⟩ := hstart (ofNat q) hR
    rw [seek_start (hsize hR) hq] at hstep hR'
    exact ⟨s', hstep, _, hR', c.content_moveTo q, Cursor.tell_moveTo hq⟩
  seekNext := by
    rintro s l p ⟨c, hR, rfl, rfl⟩ hlt
    obtain ⟨s', hstep, hR'⟩ := hnext hR
    rw [seek_next (hsize hR) hlt] at hstep hR'
    exact ⟨s', hstep, _, hR', c.content_moveTo _, Cursor.tell_moveTo hlt⟩
  seekEnd := by
    rintro s l ⟨c, hR, rfl, hend⟩
    obtain ⟨s', hstep, hR'⟩ := hnext hR
    obtain ⟨d, hend', hcontent⟩ := seek_end (hsize hR) hend
    rw [hend'] at hstep hR'
    exact ⟨s', d.tell, hstep, d, hR', hcontent, rfl⟩
  read := by
    rintro s l p n ⟨c, hR, rfl, rfl⟩
    obtain ⟨s', hstep, hR', hback⟩ := hread n hR
    have hcontent : (c.read n).2.content = c.content := c.content_advance n
    have htell' := tell_read c n
    rw [← read_eq_drop]
    refine ⟨s', hstep, ⟨_, hR', hcontent, htell'⟩, fun back hle => ?_⟩
    obtain ⟨s'', hstep', hR''⟩ := hback back hle
    rw [seek_back (hsize hR') (by omega)] at hstep' hR''
    refine ⟨s'', hstep', _, hR'', ((c.read n).2.content_moveTo _).trans hcontent, ?_⟩
    have hle' := (c.read n).2.tell_le_size
    rw [Cursor.tell_moveTo (by omega), htell']

/-- A file that is shorter than an `int32_t` can say. -/
def FileView (file : File) (l : Bytes) (p : Nat) : Prop :=
  ∃ c, (file = c ∧ c.size < 2 ^ 31) ∧ c.content = l ∧ c.tell = p

theorem size_scan {c : Cursor UInt8} (offset : Int32) (kind : StreamOffset) :
    (streamStep c (.seek offset kind)).2.size = c.size :=
  congrArg length (c.content_seek _)

theorem file_shows : Shows fileStream FileView := by
  have hseek : ∀ {file c : File} (offset : Int32) (kind : StreamOffset),
      file = c ∧ c.size < 2 ^ 31 → ∃ s', fileStream.step file (.seek offset kind) =
          some ((streamStep c (.seek offset kind)).1, s') ∧
        s' = (streamStep c (.seek offset kind)).2 ∧
          (streamStep c (.seek offset kind)).2.size < 2 ^ 31 := by
    rintro file c offset kind ⟨rfl, hsize⟩
    have hfits : Fits file (.seek offset kind) := ⟨hsize, (size_scan offset kind).trans_lt hsize⟩
    exact ⟨_, congrArg some (fileStreamStep_eq hfits), rfl, hfits.2⟩
  refine shows_of_steps (fun h => h.2) ?_ (fun offset h => hseek offset _ h) (fun h => hseek 1 _ h) ?_
  · rintro file c ⟨rfl, -⟩
    rfl
  · rintro file c n ⟨rfl, hsize⟩
    have hsize' : (file.read n).2.size < 2 ^ 31 := (file.size_advance n).trans_lt hsize
    exact ⟨_, rfl, ⟨rfl, hsize'⟩, fun back _ => hseek _ _ ⟨rfl, hsize'⟩⟩

def StringView (s : StringStream) (l : Bytes) (p : Nat) : Prop :=
  ∃ c, (s = StringStream.of c ∧ c.size ≤ StringStream.ramSize) ∧ c.content = l ∧ c.tell = p

theorem string_shows : Shows stringStream StringView := by
  have hmemory : ∀ {c : Cursor UInt8}, c.size ≤ StringStream.ramSize → c.size < 2 ^ 31 :=
    fun h => Nat.lt_of_le_of_lt h (by decide)
  have hstep : ∀ {c d : Cursor UInt8} {request : StreamRequest} {answer : StreamAnswer},
      c.size ≤ StringStream.ramSize → d.size = c.size →
      (StringStream.of c).step request = (answer, StringStream.of d) →
      stringStream.step (StringStream.of c) request = some (answer, StringStream.of d) := by
    intro c d request answer hsize hd h
    have hin : (StringStream.of c).InMemory ∧ ((StringStream.of c).step request).2.InMemory := by
      rw [h]
      exact ⟨hsize, hd.trans_le hsize⟩
    exact (if_pos hin).trans (congrArg some h)
  have hseek : ∀ {s c} (offset : Int32) (kind : StreamOffset),
      s = StringStream.of c ∧ c.size ≤ StringStream.ramSize →
      ∃ s', stringStream.step s (.seek offset kind) =
          some ((streamStep c (.seek offset kind)).1, s') ∧
        s' = StringStream.of (streamStep c (.seek offset kind)).2 ∧
          (streamStep c (.seek offset kind)).2.size ≤ StringStream.ramSize := by
    rintro s c offset kind ⟨rfl, hsize⟩
    refine ⟨_, hstep hsize (size_scan offset kind) ?_, rfl, (size_scan offset kind).trans_le hsize⟩
    rw [StringStream.step, StringStream.seek_of (hmemory hsize), streamStep]
  refine shows_of_steps (fun h => hmemory h.2) ?_ (fun offset h => hseek offset _ h)
    (fun h => hseek 1 _ h) ?_
  · rintro s c ⟨rfl, hsize⟩
    exact hstep hsize rfl rfl
  · rintro s c n ⟨rfl, hsize⟩
    have hsize' : (c.read n).2.size ≤ StringStream.ramSize := (c.size_advance n).trans_le hsize
    refine ⟨_, hstep hsize (c.size_advance n) ?_, ⟨rfl, hsize'⟩, fun back _ => hseek _ _ ⟨rfl, hsize'⟩⟩
    rw [StringStream.step, StringStream.read_of (hmemory hsize)]
    rfl

open BufferedFileStream in
theorem readLoop_ahead (fuel : Nat) {s : BufferedFileStream} (h : s.syncPending = false) (n : Nat) :
    (readLoop fuel s n).2.syncPending = false := by
  induction fuel generalizing s n with
  | zero => exact h
  | succ fuel ih =>
    rw [readLoop]
    split
    · exact h
    · dsimp only
      split
      · exact h
      · simp only [h, Bool.false_eq_true, if_false, if_true]
        split
        · rfl
        · exact ih rfl _

open BufferedFileStream in
theorem read_pending {s : BufferedFileStream} {n : Nat} (h : (s.read n).2.syncPending = true) :
    (s.read n).1.length ≤ (s.read n).2.cache.pos := by
  cases hpending : s.syncPending with
  | false =>
    rw [BufferedFileStream.read, readLoop_ahead _ hpending] at h
    exact absurd h Bool.false_ne_true
  | true =>
    rw [BufferedFileStream.read, readLoop] at h ⊢
    split at h
    · next hzero =>
      rw [if_pos hzero]
      exact Nat.zero_le _
    · next hzero =>
      rw [if_neg hzero]
      dsimp only at h ⊢
      split at h
      · next hall =>
        rw [if_pos hall]
        show (s.cache.data.read n).1.length ≤ (s.cache.data.read n).2.tell
        rw [tell_read]
        exact Nat.le_add_left _ _
      · -- the cache is written out, and then nothing is to be written
        split at h
        · split at h
          · exact absurd h Bool.false_ne_true
          · rw [readLoop_ahead _ rfl] at h
            exact absurd h Bool.false_ne_true
        · exact absurd h Bool.false_ne_true

/-- A file behind a cache that is shorter than an `int32_t` can say. -/
def CachedView (s : BufferedFileStream) (l : Bytes) (p : Nat) : Prop :=
  ∃ c, ((s.Valid ∧ s.shown = c) ∧ c.size < 2 ^ 31) ∧ c.content = l ∧ c.tell = p

theorem cached_shows : Shows cachedStream CachedView := by
  have hstep : ∀ {s : BufferedFileStream} {c : Cursor UInt8} {request : StreamRequest},
      s.Valid → s.shown = c → s.Sound (.stream request) → (streamStep c request).2.size < 2 ^ 31 →
      ∃ s', cachedStream.step s request = some ((streamStep c request).1, s') ∧
        (s'.Valid ∧ s'.shown = (streamStep c request).2) ∧ (streamStep c request).2.size < 2 ^ 31 := by
    rintro s c request hvalid rfl hsound hsize
    obtain ⟨hanswer, hshown, hvalid'⟩ := BufferedFileStream.step_eq hvalid hsound
    rw [fileStreamStep_eq ⟨hsound.1, hsize⟩] at hanswer hshown
    exact ⟨_, congrArg some hanswer, ⟨hvalid', hshown⟩, hsize⟩
  refine shows_of_steps (fun h => h.2) ?_ ?_ ?_ ?_
  · rintro s c ⟨⟨hvalid, rfl⟩, hsize⟩
    exact congrArg some (congrArg (fun n => (StreamAnswer.count n, s))
      (BufferedFileStream.tell_eq hvalid))
  · rintro s c offset ⟨⟨hvalid, rfl⟩, hsize⟩
    exact hstep hvalid rfl ⟨hsize, trivial⟩ ((size_scan offset .fromStart).trans_lt hsize)
  · rintro s c ⟨⟨hvalid, rfl⟩, hsize⟩
    refine hstep hvalid rfl ⟨hsize, fun _ => .inl ?_⟩ ((size_scan 1 .fromCurrent).trans_lt hsize)
    have hone : (1 : Int32).toInt = 1 := by decide
    rw [hone]
    omega
  · rintro s c n ⟨⟨hvalid, rfl⟩, hsize⟩
    have hsize' : (s.shown.read n).2.size < 2 ^ 31 := (s.shown.size_advance n).trans_lt hsize
    obtain ⟨hanswer, hshown, hvalid'⟩ := BufferedFileStream.read_eq hvalid hsize n
    refine ⟨(s.read n).2, ?_, ⟨⟨hvalid', hshown⟩, hsize'⟩, fun back hback => ?_⟩
    · show some (StreamAnswer.bytes (s.read n).1, (s.read n).2) = _
      rw [hanswer]
    · refine hstep hvalid' hshown ⟨by rw [hshown]; exact hsize', fun hpending => .inl ?_⟩
        ((size_scan _ .fromCurrent).trans_lt hsize')
      have hle := read_pending hpending
      have htell := tell_read s.shown n
      have hbound := (s.shown.read n).2.tell_le_size
      rw [hanswer] at hle
      rw [toInt_ofInt_of_le (by omega) (by omega)]
      omega

/-- A search on a stream moves to the nearest place of the byte behind or in front of the position,
or leaves it, and the lines that are read are the content behind the position. -/
def Scans (stream : Transducer σ StreamRequest StreamAnswer) (view : σ → Bytes → Nat → Prop) : Prop :=
  ∀ (s : σ) (l : Bytes) (p : Nat), view s l p →
    (∀ c : UInt8, ∃ bound, ∀ fuel > bound, ∃ result s' q,
      streamSeekToChar stream fuel s c .forward = some (result, s') ∧ view s' l q ∧
        FoundForward l p c result q) ∧
    (∀ c : UInt8, ∃ bound, ∀ fuel > bound, ∃ result s' q,
      streamSeekToChar stream fuel s c .backward = some (result, s') ∧ view s' l q ∧
        FoundBackward l p c result q) ∧
    ∃ bound, ∀ fuel > bound, ∀ calls > bound, ∃ lines s',
      readLines stream fuel calls s = some (lines, s') ∧ LinesOf (l.drop p) lines

theorem Shows.scans {view : σ → Bytes → Nat → Prop} (hshows : Shows stream view) :
    Scans stream view := by
  intro s l p hview
  refine ⟨fun c => ⟨l.length, fun fuel h => streamSeekToChar_forward hshows hview c h⟩,
    fun c => ⟨l.length, fun fuel h => streamSeekToChar_backward hshows hview c h⟩,
    l.length, fun fuel h calls h' => readLines_eq hshows hview h (by omega)⟩

/-- The scanners are exact on the stream over a file, the one over a string and the one over a file
with a cache, for every content shorter than an `int32_t` can say and every position in it. -/
theorem scanners_exact :
    Scans fileStream FileView ∧ Scans stringStream StringView ∧ Scans cachedStream CachedView :=
  ⟨file_shows.scans, string_shows.scans, cached_shows.scans⟩

example : (readLines fileStream 7 7 ⟨[], [65, 10, 66, 13, 10, 67]⟩).map Prod.fst =
    some [[65, 10], [66, 10], [67]] := by decide

/-- From a position that an `int32_t` cannot say a search goes back to the start of the file. -/
theorem forward_beyond {file : File} (htell : file.tell = 2 ^ 31) (fuel : Nat) (c : UInt8) :
    streamSeekToChar fileStream fuel file c .forward = some (false, (file.moveTo 0).moveTo 0) := by
  have hnext : fileStreamSeek file 1 .fromCurrent = (false, file.moveTo 0) := by
    have hone : (1 : Int32).toInt = 1 := by decide
    have hneg : ¬ 0 ≤ toInt32 ((file.tell : Int) + (1 : Int32).toInt) := by
      rw [hone, htell]
      decide
    rw [fileStreamSeek]
    simp only [if_neg hneg]
  have hback : fileStreamSeek (file.moveTo 0) (ofNat (2 ^ 31)) .fromStart =
      (false, (file.moveTo 0).moveTo 0) := by
    have hneg : ¬ 0 ≤ (ofNat (2 ^ 31)).toInt := by decide
    rw [fileStreamSeek]
    simp only [if_neg hneg]
  have htellStep : streamTell fileStream file = some (2 ^ 31, file) := by
    rw [← htell]
    rfl
  have hseek : ∀ {f f' : File} {offset : Int32} {kind : StreamOffset},
      fileStreamSeek f offset kind = (false, f') →
      streamSeek fileStream f offset kind = some (false, f') := fun h =>
    streamSeek_eq (congrArg some (by rw [fileStreamStep, h]))
  rw [streamSeekToChar, htellStep, Option.bind_some]
  show ((streamSeekToCharForward fileStream fuel file c).bind _) = _
  rw [streamSeekToCharForward, hseek hnext]
  show ((streamSeek fileStream (file.moveTo 0) (ofNat (2 ^ 31)) .fromStart).bind _) = _
  rw [hseek hback]
  rfl

/-- A file of two gigabytes and two bytes. -/
theorem scanners_beyond_int32 :
    ¬ ∀ (file : File) (c : UInt8), ∃ bound, ∀ fuel > bound, ∃ result file',
      streamSeekToChar fileStream fuel file c .forward = some (result, file') ∧
        FoundForward file.content file.tell c result file'.tell := by
  intro h
  have htell : (Cursor.mk (replicate (2 ^ 31) 0) [0, 1] : File).tell = 2 ^ 31 :=
    length_replicate
  obtain ⟨bound, hbound⟩ := h ⟨replicate (2 ^ 31) 0, [0, 1]⟩ 1
  obtain ⟨result, file', hrun, hfound⟩ := hbound (bound + 1) (Nat.lt_succ_self _)
  rw [forward_beyond htell] at hrun
  obtain ⟨rfl, rfl⟩ := Prod.mk.inj (Option.some.inj hrun)
  rcases hfound with ⟨htrue, -⟩ | ⟨-, hplace, -⟩
  · exact Bool.false_ne_true htrue
  · rw [htell, Cursor.moveTo_moveTo, Cursor.tell_moveTo (Nat.zero_le _)] at hplace
    omega

end Scanners

namespace BufferedFileStream
variable {s : BufferedFileStream}

/-- There is nothing to be written, and an `int32_t` can measure the stream. -/
structure Settled (s : BufferedFileStream) : Prop where
  valid : s.Valid
  ahead : s.syncPending = false
  size : s.shown.size < 2 ^ 31

theorem settled_opened {content : Bytes} (h : content.length < 2 ^ 31) : Settled (opened content) where
  valid := valid_empty _
  ahead := rfl
  size := by
    rw [opened, shown_empty]
    exact h

theorem seek_ahead (h : s.syncPending = false) (offset : Int32) (kind : StreamOffset) :
    (s.seek offset kind).2.syncPending = false := by
  rw [seek]
  dsimp only
  split
  · simp only [h, Bool.false_eq_true, if_false, if_true]
  · exact h

theorem Settled.seek (h : Settled s) (offset : Int32) (kind : StreamOffset) :
    (s.seek offset kind).1 = (s.shown.seek (seekTarget s.shown offset kind)).1 ∧
      (s.seek offset kind).2.shown = (s.shown.seek (seekTarget s.shown offset kind)).2 ∧
      Settled (s.seek offset kind).2 := by
  have hreaches : s.Reaches offset.toInt := by
    intro hpending
    rw [h.ahead] at hpending
    exact absurd hpending Bool.false_ne_true
  have hseek : (s.seek offset kind).1 = (s.shown.seek (seekTarget s.shown offset kind)).1 ∧
      (s.seek offset kind).2.shown = (s.shown.seek (seekTarget s.shown offset kind)).2 ∧
      (s.seek offset kind).2.Valid := by
    cases kind with
    | fromCurrent => exact seek_fromCurrent h.valid h.size hreaches
    | fromStart => exact seek_absolute h.valid h.size offset (by decide)
    | fromEnd => exact seek_absolute h.valid h.size offset (by decide)
  obtain ⟨hflag, hshown, hvalid⟩ := hseek
  refine ⟨hflag, hshown, hvalid, seek_ahead h.ahead offset kind, ?_⟩
  rw [hshown, Cursor.size, Cursor.content_seek]
  exact h.size

theorem Settled.read (h : Settled s) (n : Nat) :
    (s.read n).1 = (s.shown.read n).1 ∧ (s.read n).2.shown = (s.shown.read n).2 ∧
      Settled (s.read n).2 := by
  obtain ⟨hbytes, hshown, hvalid⟩ := read_eq h.valid h.size n
  refine ⟨hbytes, hshown, hvalid, Scanners.readLoop_ahead _ h.ahead n, ?_⟩
  rw [hshown]
  exact (s.shown.size_advance n).trans_lt h.size

theorem Settled.deleteAndInsert (h : Settled s) (deleteSize : Nat)
    {writeCallback : Option WriteCallback} (hresult : writeCallback.all (·.result) = true)
    (hsize : (s.shown.splice deleteSize (inserted writeCallback)).size < 2 ^ 31) :
    s.deleteAndInsert deleteSize writeCallback =
      (true, ⟨s.shown.splice deleteSize (inserted writeCallback), .empty, false⟩) := by
  rw [BufferedFileStream.deleteAndInsert]
  simp only [settle_eq h.valid h.size, if_true]
  rw [fileStreamDeleteAndInsert_eq h.size hsize hresult]

theorem settled_empty {file : File} (h : file.size < 2 ^ 31) : Settled ⟨file, .empty, false⟩ where
  valid := valid_empty _
  ahead := rfl
  size := by rwa [shown_empty]

theorem Settled.write_rewind (h : Settled s) {data : Bytes}
    (hsize : (s.shown.write data).size < 2 ^ 31) :
    ((s.write data).2.seek 0 .fromStart).2.shown = (s.shown.write data).moveTo 0 ∧
      Settled ((s.write data).2.seek 0 .fromStart).2 := by
  obtain ⟨-, hshown, hvalid⟩ := write_eq h.valid h.size data
  have hsize' : (s.write data).2.shown.size < 2 ^ 31 := by rwa [hshown]
  obtain ⟨-, hsought, hvalid'⟩ := @seek_absolute (s.write data).2 hvalid hsize' 0 .fromStart (by decide)
  have htarget : seekTarget (s.write data).2.shown 0 .fromStart = 0 := by
    rw [seekTarget, StreamOffset.base]
    decide
  rw [htarget, hshown, Cursor.seek_of_le (Int.le_refl 0) (Nat.zero_le _)] at hsought
  refine ⟨hsought, hvalid', ?_, ?_⟩
  · rw [BufferedFileStream.seek]
    dsimp only
    rw [if_pos (Or.inr (by decide))]
    cases hpending : (s.write data).2.syncPending with
    | true =>
      simp only [newOffset, if_true, sync]
      split <;> rfl
    | false =>
      simp only [newOffset, Bool.false_eq_true, if_false, if_true]
  · rw [hsought, Cursor.size_moveTo]
    exact hsize

end BufferedFileStream

namespace Scanners
open BufferedFileStream

/-- A file behind a cache with nothing to be written. -/
def SettledView (s : BufferedFileStream) (l : Bytes) (p : Nat) : Prop :=
  ∃ c, (s.Settled ∧ s.shown = c) ∧ c.content = l ∧ c.tell = p

theorem settled_shows : Shows cachedStream SettledView := by
  have hseek : ∀ {s c} (offset : Int32) (kind : StreamOffset), s.Settled ∧ s.shown = c →
      ∃ s', cachedStream.step s (.seek offset kind) =
          some ((streamStep c (.seek offset kind)).1, s') ∧
        s'.Settled ∧ s'.shown = (streamStep c (.seek offset kind)).2 := by
    rintro s c offset kind ⟨hsettled, rfl⟩
    obtain ⟨hflag, hshown, hsettled'⟩ := hsettled.seek offset kind
    refine ⟨(s.seek offset kind).2, ?_, hsettled', hshown⟩
    show some (StreamAnswer.flag (s.seek offset kind).1, (s.seek offset kind).2) = _
    rw [hflag]
    rfl
  refine shows_of_steps ?_ ?_ (fun offset h => hseek offset _ h) (fun h => hseek 1 _ h) ?_
  · rintro s c ⟨hsettled, rfl⟩
    exact hsettled.size
  · rintro s c ⟨hsettled, rfl⟩
    show some (StreamAnswer.count s.tell, s) = _
    rw [tell_eq hsettled.valid]
  · rintro s c n ⟨hsettled, rfl⟩
    obtain ⟨hbytes, hshown, hsettled'⟩ := hsettled.read n
    refine ⟨(s.read n).2, ?_, ⟨hsettled', hshown⟩, fun back _ => hseek _ _ ⟨hsettled', hshown⟩⟩
    show some (StreamAnswer.bytes (s.read n).1, (s.read n).2) = _
    rw [hbytes]

namespace SettledView
variable {s : BufferedFileStream} {l : Bytes} {p : Nat}

theorem le (h : SettledView s l p) : p ≤ l.length := by
  obtain ⟨c, -, rfl, rfl⟩ := h
  exact c.tell_le_size

theorem lt (h : SettledView s l p) : l.length < 2 ^ 31 := by
  obtain ⟨c, ⟨hsettled, rfl⟩, rfl, -⟩ := h
  exact hsettled.size

theorem size (h : SettledView s l p) : s.size = l.length := by
  obtain ⟨c, ⟨hsettled, rfl⟩, rfl, -⟩ := h
  exact size_eq hsettled.valid

theorem tell (h : SettledView s l p) : s.tell = p := by
  obtain ⟨c, ⟨hsettled, rfl⟩, -, rfl⟩ := h
  exact tell_eq hsettled.valid

theorem settled (h : SettledView s l p) : s.Settled := by
  obtain ⟨c, ⟨hsettled, -⟩, -, -⟩ := h
  exact hsettled

theorem of_splice {file : File} (h : file.size < 2 ^ 31) :
    SettledView ⟨file, .empty, false⟩ file.content file.tell :=
  ⟨file, ⟨settled_empty h, shown_empty file⟩, rfl, rfl⟩

theorem seek (h : SettledView s l p) {offset : Int32} {kind : StreamOffset} {q : Nat}
    (htarget : ∀ c : Cursor UInt8, c.content = l → c.tell = p →
      (c.seek (seekTarget c offset kind)).2 = c.moveTo q) (hq : q ≤ l.length) :
    SettledView (s.seek offset kind).2 l q := by
  obtain ⟨c, ⟨hsettled, rfl⟩, rfl, hp⟩ := h
  obtain ⟨-, hshown, hsettled'⟩ := hsettled.seek offset kind
  rw [htarget _ rfl hp] at hshown
  exact ⟨_, ⟨hsettled', hshown⟩, Cursor.content_moveTo _ q, Cursor.tell_moveTo hq⟩

theorem seek_fromStart (h : SettledView s l p) {q : Nat} (hq : q ≤ l.length) :
    SettledView (s.seek (ofNat q) .fromStart).2 l q := by
  refine h.seek (fun c hcontent _ => ?_) hq
  have hsize : c.size = l.length := congrArg length hcontent
  have hstep := seek_start (c := c) (by rw [hsize]; exact h.lt) (hsize ▸ hq)
  exact congrArg Prod.snd hstep

theorem seek_back (h : SettledView s l p) {n : Nat} (hn : n ≤ 2 ^ 31) :
    SettledView (s.seek (ofInt (-(n : Int))) .fromCurrent).2 l (p - n) := by
  have hle := h.le
  have hlt := h.lt
  refine h.seek (fun c hcontent htell => ?_) (by omega)
  have hsize : c.size = l.length := congrArg length hcontent
  have htarget : seekTarget c (ofInt (-(n : Int))) .fromCurrent = (p : Int) - n := by
    rw [seekTarget, StreamOffset.base, htell, toInt_ofInt_of_le (by omega) (by omega),
      toInt32_of_lt (by omega) (by omega)]
    omega
  rw [htarget]
  by_cases hback : n ≤ p
  · have hnat : (p : Int) - n = (p - n : Nat) := by omega
    rw [hnat, Cursor.seek_natCast (by omega)]
  · have hzero : p - n = 0 := by omega
    rw [hzero, Cursor.seek_of_neg (by omega)]

theorem seek_fromEnd (h : SettledView s l p) {n : Nat} (hn : n ≤ l.length) :
    (s.seek (ofInt (-(n : Int))) .fromEnd).1 = true ∧
      SettledView (s.seek (ofInt (-(n : Int))) .fromEnd).2 l (l.length - n) := by
  have hlt := h.lt
  have htarget : ∀ c : Cursor UInt8, c.content = l →
      c.seek (seekTarget c (ofInt (-(n : Int))) .fromEnd) = (true, c.moveTo (l.length - n)) := by
    intro c hcontent
    have hsize : c.size = l.length := congrArg length hcontent
    have hseek : seekTarget c (ofInt (-(n : Int))) .fromEnd = (l.length - n : Nat) := by
      rw [seekTarget, StreamOffset.base, hsize, toInt_ofInt_of_le (by omega) (by omega),
        toInt32_of_lt (by omega) (by omega)]
      omega
    rw [hseek, Cursor.seek_natCast (by omega)]
  refine ⟨?_, h.seek (fun c hcontent _ => congrArg Prod.snd (htarget c hcontent)) (Nat.sub_le _ _)⟩
  obtain ⟨c, ⟨hsettled, rfl⟩, hcontent, -⟩ := h
  rw [(hsettled.seek _ .fromEnd).1, htarget _ hcontent]

theorem seek_end (h : SettledView s l p) :
    (s.seek 0 .fromEnd).1 = true ∧ SettledView (s.seek 0 .fromEnd).2 l l.length := by
  have hzero : (0 : Int32) = ofInt (-((0 : Nat) : Int)) := by decide
  rw [hzero]
  exact h.seek_fromEnd (Nat.zero_le _)

theorem read (h : SettledView s l p) (n : Nat) : (s.read n).1 = (l.drop p).take n ∧
      SettledView (s.read n).2 l (p + ((l.drop p).take n).length) := by
  obtain ⟨c, ⟨hsettled, rfl⟩, rfl, rfl⟩ := h
  obtain ⟨hbytes, hshown, hsettled'⟩ := hsettled.read n
  rw [← read_eq_drop, ← tell_read]
  exact ⟨hbytes, _, ⟨hsettled', hshown⟩, Cursor.content_advance _ n, rfl⟩

theorem write_rewind (h : SettledView s l l.length) {data : Bytes}
    (hsize : (l ++ data).length < 2 ^ 31) :
    SettledView ((s.write data).2.seek 0 .fromStart).2 (l ++ data) 0 := by
  obtain ⟨c, ⟨hsettled, rfl⟩, rfl, hend⟩ := h
  have hafter : s.shown.after = [] := isEmpty_iff.mp (s.shown.eof_iff.mpr hend)
  have hcontent : (s.shown.write data).content = s.shown.content ++ data := by
    rw [Cursor.write, Cursor.splice, Cursor.content_mk, hafter, drop_nil, append_nil,
      Cursor.content, hafter, append_nil]
  obtain ⟨hshown, hsettled'⟩ := @Settled.write_rewind s hsettled data
    (by rw [Cursor.size, hcontent]; exact hsize)
  exact ⟨_, ⟨hsettled', hshown⟩, (Cursor.content_moveTo _ 0).trans hcontent,
    Cursor.tell_moveTo (Nat.zero_le _)⟩

theorem delete (h : SettledView s l p) (n : Nat) : (s.deleteAndInsert n none).1 = true ∧
      SettledView (s.deleteAndInsert n none).2 (l.take p ++ l.drop (p + n)) p := by
  obtain ⟨c, ⟨hsettled, rfl⟩, rfl, rfl⟩ := h
  have hcontent : (s.shown.splice n (inserted none)).content =
      s.shown.content.take s.shown.tell ++ s.shown.content.drop (s.shown.tell + n) := by
    rw [Cursor.splice, inserted, Cursor.content_mk, append_nil, Cursor.content, Cursor.tell,
      take_left, drop_length_add_append]
  have hsize : (s.shown.splice n (inserted none)).size < 2 ^ 31 := by
    have hlt := hsettled.size
    rw [Cursor.size_eq] at hlt
    rw [Cursor.size_splice, inserted, length_nil]
    omega
  have hview := of_splice hsize
  rw [hcontent, Cursor.tell_splice] at hview
  rw [hsettled.deleteAndInsert n rfl hsize]
  exact ⟨rfl, hview⟩

theorem insert (h : SettledView s l l.length) {data : Bytes} (hsize : (l ++ data).length < 2 ^ 31) :
    (s.deleteAndInsert 0 (some ⟨[data], true⟩)).1 = true ∧
      SettledView (s.deleteAndInsert 0 (some ⟨[data], true⟩)).2 (l ++ data) (l ++ data).length := by
  obtain ⟨c, ⟨hsettled, rfl⟩, rfl, hend⟩ := h
  have hafter : s.shown.after = [] := isEmpty_iff.mp (s.shown.eof_iff.mpr hend)
  have hcontent : (s.shown.splice 0 (inserted (some ⟨[data], true⟩))).content =
      s.shown.content ++ data := by
    rw [Cursor.splice, inserted, flatten_singleton, Cursor.content_mk, hafter, drop_nil,
      append_nil, Cursor.content, hafter, append_nil]
  have hview := @of_splice (s.shown.splice 0 (inserted (some ⟨[data], true⟩)))
    (by rw [Cursor.size, hcontent]; exact hsize)
  have htell : (s.shown.splice 0 (inserted (some ⟨[data], true⟩))).tell =
      (s.shown.content ++ data).length := by
    rw [Cursor.tell_splice, inserted, flatten_singleton, length_append, ← Cursor.size, hend]
    rfl
  rw [hcontent, htell] at hview
  rw [hsettled.deleteAndInsert 0 rfl (by rw [Cursor.size, hcontent]; exact hsize)]
  exact ⟨rfl, hview⟩

end SettledView

end Scanners
end NikitaFirmware.Toolbox
