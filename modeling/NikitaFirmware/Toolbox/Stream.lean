import NikitaFirmware.Foundations.Bytes
import NikitaFirmware.Foundations.Cursor
import NikitaFirmware.Foundations.Transducer
import Mathlib.Algebra.Ring.Int.Defs
import Mathlib.Algebra.Ring.Nat

/-!
# Streams, and the stream over a file

`lib/toolbox/stream/stream.c` and `lib/toolbox/stream/file_stream.c`. What a stream is for is said
by `streamStep`: a sequence of bytes with a position in it. A search is asked for in an `int32_t`,
which decides where it leads: a target that does not fit wraps around.

The storage below reads and writes what it is asked to and keeps the position in the file.
-/

namespace NikitaFirmware.Toolbox

open Foundations List

inductive StreamOffset
  | fromCurrent
  | fromStart
  | fromEnd
deriving DecidableEq

/-- A number kept in an `int32_t`. -/
def toInt32 (x : Int) : Int := (x + 2 ^ 31) % 2 ^ 32 - 2 ^ 31

/-- A number kept in a `size_t`. -/
def toSize (x : Int) : Nat := (x % 2 ^ 32).toNat

/-- `StreamWriteCB`: the pieces that a callback writes one after another, and what it returns. -/
structure WriteCallback where
  pieces : List Bytes
  result : Bool

inductive StreamRequest
  | write (data : Bytes)
  | read (size : Nat)
  | seek (offset : Int32) (kind : StreamOffset)
  | tell
  | size
  | eof
  | clean
  | deleteAndInsert (deleteSize : Nat) (writeCallback : Option WriteCallback)

inductive StreamAnswer
  | count (n : Nat)
  | bytes (data : Bytes)
  | flag (value : Bool)
  | done
deriving DecidableEq

namespace StreamRequest

def insert (data : Bytes) : StreamRequest := deleteAndInsert 0 (some ⟨[data], true⟩)

def delete (size : Nat) : StreamRequest := deleteAndInsert size none

end StreamRequest

/-- Where a search starts from. -/
def StreamOffset.base {α : Type*} (c : Cursor α) : StreamOffset → Nat
  | fromCurrent => c.tell
  | fromStart => 0
  | fromEnd => c.size

/-- Where a search leads. -/
def seekTarget {α : Type*} (c : Cursor α) (offset : Int32) (kind : StreamOffset) : Int :=
  toInt32 (kind.base c + offset.toInt)

/-- What a callback puts into a stream. -/
def inserted : Option WriteCallback → Bytes
  | none => []
  | some callback => callback.pieces.flatten

def streamStep (c : Cursor UInt8) : StreamRequest → StreamAnswer × Cursor UInt8
  | .write data => (.count data.length, c.write data)
  | .read size => (.bytes (c.read size).1, (c.read size).2)
  | .seek offset kind =>
    (.flag (c.seek (seekTarget c offset kind)).1, (c.seek (seekTarget c offset kind)).2)
  | .tell => (.count c.tell, c)
  | .size => (.count c.size, c)
  | .eof => (.flag c.eof, c)
  | .clean => (.done, ⟨[], []⟩)
  | .deleteAndInsert deleteSize writeCallback =>
    if writeCallback.all (·.result) then
      (.flag true, c.splice deleteSize (inserted writeCallback))
    else (.flag false, c)

abbrev File := Cursor UInt8

def fileStreamSeek (file : File) (offset : Int32) (kind : StreamOffset) : Bool × File :=
  let currentPosition : Int := file.tell
  let size : Int := file.size
  let seekPosition : Option Nat :=
    match kind with
    | .fromCurrent =>
      if 0 ≤ toInt32 (currentPosition + offset.toInt) then
        some (toSize (currentPosition + offset.toInt))
      else none
    | .fromStart => if 0 ≤ offset.toInt then some (toSize offset.toInt) else none
    | .fromEnd =>
      if 0 ≤ toInt32 (size + offset.toInt) then some (toSize (size + offset.toInt)) else none
  match seekPosition with
  | some position =>
    if 0 < toInt32 (position - size) then (false, file.moveTo file.size)
    else (true, file.moveTo position)
  | none => (false, file.moveTo 0)

def fileStreamRewind (file : File) : Bool × File := fileStreamSeek file 0 .fromStart

def streamCacheSize : Nat := 512

/-- The loop of `stream_copy` with what is still to be copied: how much was, and the two files. -/
def streamCopyLoop : Nat → Nat → File → File → Nat × File × File
  | 0, _, source, target => (0, source, target)
  | fuel + 1, left, source, target =>
    let bytesCount := min streamCacheSize left
    if bytesCount = 0 then (0, source, target)
    else if (source.read bytesCount).1.length = bytesCount then
      let rest := streamCopyLoop fuel (left - bytesCount) (source.read bytesCount).2
        (target.write (source.read bytesCount).1)
      (bytesCount + rest.1, rest.2)
    else (0, (source.read bytesCount).2, target)

def streamCopy (source target : File) (size : Nat) : Nat × File × File :=
  streamCopyLoop (size + 1) size source target

def WriteCallback.onFile (callback : WriteCallback) (file : File) : File :=
  callback.pieces.foldl Cursor.write file

/-- `file_stream_delete_and_insert`. Where it breaks off, the file is as it is then. -/
def fileStreamDeleteAndInsert (file : File) (deleteSize : Nat)
    (writeCallback : Option WriteCallback) : Bool × File :=
  let currentPosition := file.tell
  let fileSize := file.size
  let sizeToDelete := min deleteSize (fileSize - currentPosition)
  let sizeToCopyAfter := fileSize - currentPosition - sizeToDelete
  -- from 0 to the position into the scratchpad
  let rewound := fileStreamRewind file
  if !rewound.1 then (false, rewound.2)
  else
    let head := streamCopy rewound.2 ⟨[], []⟩ currentPosition
    if head.1 ≠ currentPosition then (false, head.2.1)
    else if !writeCallback.all (·.result) then (false, head.2.1)
    else
      let scratch := (writeCallback.map fun callback => callback.onFile head.2.2).getD head.2.2
      let newPosition := scratch.tell
      let skipped := fileStreamSeek head.2.1 (Int32.ofNat sizeToDelete) .fromCurrent
      if !skipped.1 then (false, skipped.2)
      else
        let tail := streamCopy skipped.2 scratch sizeToCopyAfter
        if tail.1 ≠ sizeToCopyAfter then (false, tail.2.1)
        else
          let newFileSize := tail.2.2.size
          -- and back
          let again := fileStreamRewind tail.2.1
          if !again.1 then (false, again.2)
          else
            let scratchAgain := fileStreamRewind tail.2.2
            if !scratchAgain.1 then (false, again.2)
            else
              let back := streamCopy scratchAgain.2 again.2 newFileSize
              if back.1 ≠ newFileSize then (false, back.2.2)
              else fileStreamSeek back.2.2.truncate (Int32.ofNat newPosition) .fromStart

def fileStreamStep (file : File) : StreamRequest → StreamAnswer × File
  | .write data => (.count data.length, file.write data)
  | .read size => (.bytes (file.read size).1, (file.read size).2)
  | .seek offset kind =>
    (.flag (fileStreamSeek file offset kind).1, (fileStreamSeek file offset kind).2)
  | .tell => (.count file.tell, file)
  | .size => (.count file.size, file)
  | .eof => (.flag file.eof, file)
  | .clean => (.done, (file.moveTo 0).truncate)
  | .deleteAndInsert deleteSize writeCallback =>
    (.flag (fileStreamDeleteAndInsert file deleteSize writeCallback).1,
      (fileStreamDeleteAndInsert file deleteSize writeCallback).2)

def fileStream : Transducer File StreamRequest StreamAnswer where
  step file request := some (fileStreamStep file request)

theorem toInt32_of_lt {x : Int} (hle : -2 ^ 31 ≤ x) (hlt : x < 2 ^ 31) : toInt32 x = x := by
  unfold toInt32
  omega

theorem toSize_of_nonneg {x : Int} (h : 0 ≤ toInt32 x) : toSize x = (toInt32 x).toNat := by
  unfold toInt32 at h
  unfold toSize toInt32
  omega

theorem toInt32_lt (x : Int) : toInt32 x < 2 ^ 31 := by
  unfold toInt32
  omega

theorem toInt32_sub_pos {m n : Nat} (hm : m < 2 ^ 31) (hn : n < 2 ^ 31) :
    0 < toInt32 ((m : Int) - n) ↔ n < m := by
  rw [toInt32_of_lt (by omega) (by omega)]
  omega

theorem toInt32_toInt (offset : Int32) : toInt32 offset.toInt = offset.toInt :=
  toInt32_of_lt offset.le_toInt offset.toInt_lt

theorem seek_toInt32 {c : Cursor UInt8} {x : Int} (hsize : c.size < 2 ^ 31) : c.seek (toInt32 x) =
      if 0 ≤ toInt32 x then
        if 0 < toInt32 ((toSize x : Int) - c.size) then (false, c.moveTo c.size)
        else (true, c.moveTo (toSize x))
      else (false, c.moveTo 0) := by
  split
  next h =>
    have hlt : (toInt32 x).toNat < 2 ^ 31 := by
      have := toInt32_lt x
      omega
    rw [toSize_of_nonneg h, ite_cond_congr (propext (toInt32_sub_pos hlt hsize))]
    split
    next hbeyond => exact Cursor.seek_of_lt hbeyond
    next hin => exact Cursor.seek_of_le h (Nat.le_of_not_lt hin)
  next h => exact Cursor.seek_of_neg (by omega)

variable {file : File}

theorem fileStreamSeek_eq (hsize : file.size < 2 ^ 31) (offset : Int32) (kind : StreamOffset) :
    fileStreamSeek file offset kind = file.seek (seekTarget file offset kind) := by
  cases kind with
  | fromCurrent =>
    have htarget : seekTarget file offset .fromCurrent =
        toInt32 ((file.tell : Int) + offset.toInt) := rfl
    rw [htarget, seek_toInt32 hsize, fileStreamSeek]
    by_cases h : 0 ≤ toInt32 ((file.tell : Int) + offset.toInt)
    · rw [if_pos h, if_pos h]
    · rw [if_neg h, if_neg h]
  | fromStart =>
    have htarget : seekTarget file offset .fromStart = toInt32 offset.toInt :=
      congrArg toInt32 (Int.zero_add _)
    rw [htarget, seek_toInt32 hsize, toInt32_toInt, fileStreamSeek]
    by_cases h : 0 ≤ offset.toInt
    · rw [if_pos h, if_pos h]
    · rw [if_neg h, if_neg h]
  | fromEnd =>
    have htarget : seekTarget file offset .fromEnd =
        toInt32 ((file.size : Int) + offset.toInt) := rfl
    rw [htarget, seek_toInt32 hsize, fileStreamSeek]
    by_cases h : 0 ≤ toInt32 ((file.size : Int) + offset.toInt)
    · rw [if_pos h, if_pos h]
    · rw [if_neg h, if_neg h]

theorem toInt_ofNat {n : Nat} (h : n < 2 ^ 31) : (Int32.ofNat n).toInt = n :=
  Int32.toInt_ofNat_of_lt h

theorem fileStreamSeek_fromStart (hsize : file.size < 2 ^ 31) {n : Nat} (hn : n ≤ file.size) :
    fileStreamSeek file (Int32.ofNat n) .fromStart = (true, file.moveTo n) := by
  have htarget : seekTarget file (Int32.ofNat n) .fromStart = n := by
    rw [seekTarget, StreamOffset.base, toInt_ofNat (by omega), toInt32_of_lt (by omega) (by omega)]
    exact Int.zero_add _
  rw [fileStreamSeek_eq hsize, htarget, Cursor.seek_natCast hn]

theorem fileStreamRewind_eq (hsize : file.size < 2 ^ 31) :
    fileStreamRewind file = (true, file.moveTo 0) :=
  fileStreamSeek_fromStart hsize (Nat.zero_le _)

theorem fileStreamSeek_fromCurrent (hsize : file.size < 2 ^ 31) {n : Nat}
    (hn : n ≤ file.after.length) :
    fileStreamSeek file (Int32.ofNat n) .fromCurrent = (true, file.advance n) := by
  have hle : file.tell + n ≤ file.size := by
    rw [Cursor.size_eq]
    omega
  have htarget : seekTarget file (Int32.ofNat n) .fromCurrent = (file.tell + n : Nat) := by
    rw [seekTarget, StreamOffset.base, toInt_ofNat (by omega), toInt32_of_lt (by omega) (by omega)]
    omega
  rw [fileStreamSeek_eq hsize, htarget, Cursor.seek_natCast hle, Cursor.advance_eq_moveTo hn]

theorem streamCopyLoop_eq {fuel left : Nat} {source target : File} (hfuel : left < fuel)
    (hleft : left ≤ source.after.length) :
    streamCopyLoop fuel left source target =
      (left, source.advance left, target.write (source.after.take left)) := by
  induction fuel generalizing left source target with
  | zero => exact absurd hfuel (Nat.not_lt_zero _)
  | succ fuel ih =>
    rw [streamCopyLoop]
    by_cases hzero : min streamCacheSize left = 0
    · have hleft : left = 0 := by
        unfold streamCacheSize at hzero
        omega
      simp only [if_pos hzero]
      rw [hleft, Cursor.advance_zero, take_zero, Cursor.write_nil]
    · have hlength : (source.read (min streamCacheSize left)).1.length =
          min streamCacheSize left := length_take_of_le (by omega)
      have hrest : left - min streamCacheSize left ≤
          (source.advance (min streamCacheSize left)).after.length := by
        rw [Cursor.advance, length_drop]
        omega
      have hsum : min streamCacheSize left + (left - min streamCacheSize left) = left :=
        Nat.add_sub_cancel' (Nat.min_le_right _ _)
      have htake : source.after.take (min streamCacheSize left) ++
          (source.advance (min streamCacheSize left)).after.take
            (left - min streamCacheSize left) = source.after.take left := by
        rw [Cursor.advance, ← take_add, hsum]
      simp only [if_neg hzero]
      rw [if_pos hlength, Cursor.read, ih (by omega) hrest, Cursor.advance_advance,
        Cursor.write_write, htake]
      simp only [hsum]

theorem streamCopy_eq {source target : File} {size : Nat} (hsize : size ≤ source.after.length) :
    streamCopy source target size =
      (size, source.advance size, target.write (source.after.take size)) :=
  streamCopyLoop_eq (Nat.lt_succ_self _) hsize

theorem streamCopy_head (file : File) :
    streamCopy (file.moveTo 0) ⟨[], []⟩ file.tell = (file.tell, file, ⟨file.before, []⟩) := by
  have hafter : (file.moveTo 0).after = file.content := drop_zero
  have htell : (file.moveTo 0).tell = 0 := Cursor.tell_moveTo (Nat.zero_le _)
  have hle : file.tell ≤ (file.moveTo 0).after.length := by
    rw [hafter]
    exact file.tell_le_size
  rw [streamCopy_eq hle, Cursor.advance_eq_moveTo hle, htell, Nat.zero_add, Cursor.moveTo_moveTo,
    Cursor.moveTo_tell, hafter, Cursor.content, Cursor.tell, take_left, Cursor.write_at_end,
    nil_append]

theorem streamCopy_tail (file : File) {n : Nat} (hn : n ≤ file.after.length) (l : Bytes) :
    streamCopy (file.advance n) ⟨l, []⟩ (file.after.length - n) =
      (file.after.length - n, file.advance file.after.length, ⟨l ++ file.after.drop n, []⟩) := by
  have hlength : (file.advance n).after.length = file.after.length - n := length_drop
  rw [streamCopy_eq (Nat.le_of_eq hlength.symm), Cursor.advance_advance, Nat.add_sub_cancel' hn,
    ← hlength, take_length, Cursor.write_at_end, Cursor.advance]

theorem streamCopy_back (l : Bytes) (file : File) :
    ((streamCopy ⟨[], l⟩ (file.moveTo 0) l.length).2.2).truncate = ⟨l, []⟩ ∧
      (streamCopy ⟨[], l⟩ (file.moveTo 0) l.length).1 = l.length := by
  rw [streamCopy_eq Nat.le.refl]
  refine ⟨?_, rfl⟩
  rw [take_length, Cursor.write, Cursor.splice, Cursor.truncate]
  rfl

theorem onFile_eq (writeCallback : Option WriteCallback) (l : Bytes) :
    (writeCallback.map fun callback => callback.onFile ⟨l, []⟩).getD ⟨l, []⟩ =
      (⟨l ++ inserted writeCallback, []⟩ : File) := by
  cases writeCallback with
  | none => exact Cursor.ext (append_nil l).symm rfl
  | some callback =>
    rw [Option.map_some, Option.getD_some, WriteCallback.onFile, Cursor.foldl_write]
    exact Cursor.ext rfl drop_nil

theorem fileStreamDeleteAndInsert_eq {deleteSize : Nat}
    {writeCallback : Option WriteCallback} (hsize : file.size < 2 ^ 31)
    (hnew : (file.splice deleteSize (inserted writeCallback)).size < 2 ^ 31)
    (hresult : writeCallback.all (·.result) = true) :
    fileStreamDeleteAndInsert file deleteSize writeCallback =
      (true, file.splice deleteSize (inserted writeCallback)) := by
  have hafter : file.size - file.tell = file.after.length := by
    rw [Cursor.size_eq, Nat.add_sub_cancel_left]
  have hmin : min deleteSize file.after.length ≤ file.after.length := Nat.min_le_right _ _
  have hskip := fileStreamSeek_fromCurrent hsize hmin
  have hagain : fileStreamRewind (file.advance file.after.length) = (true, file.moveTo 0) := by
    rw [fileStreamRewind_eq (by rw [Cursor.size_advance]; exact hsize),
      Cursor.advance_eq_moveTo Nat.le.refl, Cursor.moveTo_moveTo]
  have htail := streamCopy_tail file hmin (file.before ++ inserted writeCallback)
  rw [Cursor.drop_min_length] at htail
  -- what the scratchpad holds in the end
  generalize hw : file.before ++ inserted writeCallback ++ file.after.drop deleteSize = w at htail
  have hlength : w.length < 2 ^ 31 := hw ▸ hnew
  have hscratch : fileStreamRewind ⟨w, []⟩ = (true, ⟨[], w⟩) := by
    rw [fileStreamRewind_eq (by rwa [Cursor.size_at_end])]
    exact Prod.ext rfl (Cursor.moveTo_at_end [] w)
  obtain ⟨hback, hcopied⟩ := streamCopy_back w file
  have hseek : fileStreamSeek ⟨w, []⟩
      (Int32.ofNat (file.before ++ inserted writeCallback).length) .fromStart =
        (true, file.splice deleteSize (inserted writeCallback)) := by
    have hle : (file.before ++ inserted writeCallback).length ≤ w.length := by
      rw [← hw, @List.length_append _ (file.before ++ _)]
      exact Nat.le_add_right _ _
    rw [fileStreamSeek_fromStart (by rwa [Cursor.size_at_end]) (by rwa [Cursor.size_at_end]), ← hw,
      Cursor.moveTo_at_end, Cursor.splice]
  simp only [fileStreamDeleteAndInsert, fileStreamRewind_eq hsize, streamCopy_head, hresult,
    onFile_eq, hafter, hskip, htail, hagain, hscratch, Cursor.size_at_end, hcopied, hback,
    Cursor.tell_mk, hseek, Bool.not_true, Bool.false_eq_true, if_false, ne_eq, not_true_eq_false]

theorem fileStreamDeleteAndInsert_eq_of_failure {deleteSize : Nat}
    {writeCallback : Option WriteCallback} (hsize : file.size < 2 ^ 31)
    (hresult : writeCallback.all (·.result) = false) :
    fileStreamDeleteAndInsert file deleteSize writeCallback = (false, file) := by
  simp only [fileStreamDeleteAndInsert, fileStreamRewind_eq hsize, streamCopy_head, hresult,
    Bool.not_true, Bool.not_false, Bool.false_eq_true, if_false, if_true, ne_eq,
    not_true_eq_false]

/-- A stream is shorter than an `int32_t` can say, before and after a request. -/
def Fits (c : Cursor UInt8) (request : StreamRequest) : Prop :=
  c.size < 2 ^ 31 ∧ (streamStep c request).2.size < 2 ^ 31

theorem fileStreamStep_eq {request : StreamRequest} (hfits : Fits file request) :
    fileStreamStep file request = streamStep file request := by
  obtain ⟨hsize, hnew⟩ := hfits
  cases request with
  | write data => rfl
  | read size => rfl
  | seek offset kind => rw [fileStreamStep, fileStreamSeek_eq hsize, streamStep]
  | tell => rfl
  | size => rfl
  | eof => rfl
  | clean => rfl
  | deleteAndInsert deleteSize writeCallback =>
    rw [fileStreamStep, streamStep]
    by_cases hresult : writeCallback.all (·.result) = true
    · rw [streamStep, if_pos hresult] at hnew
      rw [if_pos hresult, fileStreamDeleteAndInsert_eq hsize hnew hresult]
    · rw [if_neg hresult, fileStreamDeleteAndInsert_eq_of_failure hsize (by simpa using hresult)]

end NikitaFirmware.Toolbox
