import NikitaFirmware.Toolbox.Stream

/-!
# The stream over a string

`lib/toolbox/stream/string_stream.c`: a stream over a string in memory, which is spliced in place.
What lies behind the position is kept as a C string meanwhile, so a byte of zero ends it.
-/

namespace NikitaFirmware.Toolbox

open Foundations List

@[ext] structure StringStream where
  string : Bytes
  index : Nat
deriving DecidableEq

namespace StringStream

def size (stream : StringStream) : Nat := stream.string.length

def eof (stream : StringStream) : Bool := decide (stream.size ≤ stream.index)

def writeChar (stream : StringStream) (c : UInt8) : StringStream :=
  if stream.eof then ⟨stream.string ++ [c], stream.index + 1⟩
  else ⟨stream.string.set stream.index c, stream.index + 1⟩

def write (stream : StringStream) (data : Bytes) : StringStream := data.foldl writeChar stream

def seek (stream : StringStream) (offset : Int32) (kind : StreamOffset) : Bool × StringStream :=
  let result : Bool × Nat :=
    match kind with
    | .fromStart => if 0 ≤ offset.toInt then (true, toSize offset.toInt) else (false, 0)
    | .fromCurrent =>
      if 0 ≤ toInt32 (toInt32 stream.index + offset.toInt) then
        (true, toSize (stream.index + offset.toInt))
      else (false, 0)
    | .fromEnd =>
      if 0 ≤ toInt32 (toInt32 stream.size + offset.toInt) then
        (true, toSize (stream.size + offset.toInt))
      else (false, 0)
  let diff := toInt32 ((result.2 : Int) - stream.size)
  if 0 < diff then (false, ⟨stream.string, toSize (result.2 - diff)⟩)
  else (result.1, ⟨stream.string, result.2⟩)

def readLoop : Nat → StringStream → Bytes × StringStream
  | 0, stream => ([], stream)
  | left + 1, stream =>
    let data := stream.string.getD stream.index 0
    let next := (stream.seek 1 .fromCurrent).2
    if next.eof then ([data], next) else (data :: (readLoop left next).1, (readLoop left next).2)

def read (stream : StringStream) (size : Nat) : Bytes × StringStream :=
  if stream.eof then ([], stream) else readLoop size stream

def call (callback : WriteCallback) (stream : StringStream) : Bool × StringStream :=
  (callback.result, callback.pieces.foldl write stream)

def delete (stream : StringStream) (deleteSize : Nat) : StringStream :=
  if deleteSize ≠ 0 then
    let remainSize := min deleteSize (stream.size - stream.index)
    if remainSize ≠ 0 then
      ⟨stream.string.take stream.index ++ stream.string.drop (stream.index + remainSize),
        stream.index⟩
    else stream
  else stream

def deleteAndInsert (stream : StringStream) (deleteSize : Nat)
    (writeCallback : Option WriteCallback) : Bool × StringStream :=
  let deleted := stream.delete deleteSize
  match writeCallback with
  | none => (true, deleted)
  | some callback =>
    let right := cstr (deleted.string.drop deleted.index)
    let called := call callback ⟨deleted.string.take deleted.index, deleted.index⟩
    (called.1, ⟨called.2.string ++ right, called.2.index⟩)

def step (stream : StringStream) : StreamRequest → StreamAnswer × StringStream
  | .write data => (.count data.length, stream.write data)
  | .read size => (.bytes (stream.read size).1, (stream.read size).2)
  | .seek offset kind => (.flag (stream.seek offset kind).1, (stream.seek offset kind).2)
  | .tell => (.count stream.index, stream)
  | .size => (.count stream.size, stream)
  | .eof => (.flag stream.eof, stream)
  | .clean => (.done, ⟨[], 0⟩)
  | .deleteAndInsert deleteSize writeCallback =>
    (.flag (stream.deleteAndInsert deleteSize writeCallback).1,
      (stream.deleteAndInsert deleteSize writeCallback).2)

/-- The memory of the linker scripts. -/
def ramSize : Nat := 0x30000

def InMemory (stream : StringStream) : Prop := stream.size ≤ ramSize

instance decidableInMemory (stream : StringStream) : Decidable stream.InMemory :=
  Nat.decLe stream.size ramSize

end StringStream

/-- Where a string does not fit into the memory, the firmware stops. -/
def stringStream : Transducer StringStream StreamRequest StreamAnswer where
  step stream request :=
    if stream.InMemory ∧ (stream.step request).2.InMemory then some (stream.step request) else none

/-- The stream over a string that stands for a sequence with a position. -/
def StringStream.of (c : Cursor UInt8) : StringStream := ⟨c.content, c.tell⟩

namespace StringStream
variable {c : Cursor UInt8}

theorem of_mk (before after : Bytes) :
    StringStream.of ⟨before, after⟩ = ⟨before ++ after, before.length⟩ := rfl

theorem eof_of (c : Cursor UInt8) : (StringStream.of c).eof = c.eof := by
  have hiff : (StringStream.of c).eof = true ↔ c.eof = true := by
    rw [Cursor.eof_iff, StringStream.eof, decide_eq_true_iff]
    exact ⟨fun h => Nat.le_antisymm c.tell_le_size h, fun h => Nat.le_of_eq h.symm⟩
  exact Bool.eq_iff_iff.mpr hiff

theorem writeChar_of (c : Cursor UInt8) (x : UInt8) :
    (StringStream.of c).writeChar x = StringStream.of (c.write [x]) := by
  rw [writeChar, eof_of]
  obtain ⟨before, after⟩ := c
  cases after with
  | nil =>
    rw [Cursor.write_at_end, of_mk, of_mk, Cursor.eof, isEmpty_nil, if_pos rfl,
      append_nil, append_nil, length_append, length_singleton]
  | cons y after =>
    have hset : (before ++ y :: after).set before.length x = before ++ x :: after := by
      rw [set_append_right _ _ Nat.le.refl, Nat.sub_self, set_cons_zero]
    rw [of_mk, Cursor.eof, isEmpty_cons, if_neg Bool.false_ne_true, hset, Cursor.write,
      Cursor.splice, of_mk, append_assoc, length_append]
    rfl

theorem write_of (c : Cursor UInt8) (data : Bytes) :
    (StringStream.of c).write data = StringStream.of (c.write data) := by
  induction data generalizing c with
  | nil => rw [Cursor.write_nil, write, foldl_nil]
  | cons x data ih =>
    rw [write, foldl_cons, writeChar_of, ← write, ih, Cursor.write_write, singleton_append]

/-- The end of `string_stream_seek`: a position behind the end goes back to it. -/
theorem clamp_of (hsize : c.size < 2 ^ 31) {x y : Int} (hy : y = toInt32 x)
    {result : Bool × Nat} (hresult : result = if 0 ≤ y then (true, toSize x) else (false, 0)) :
    (if 0 < toInt32 ((result.2 : Int) - c.size) then
        (false, (⟨c.content, toSize (result.2 - toInt32 ((result.2 : Int) - c.size))⟩ : StringStream))
      else (result.1, ⟨c.content, result.2⟩)) =
        ((c.seek (toInt32 x)).1, StringStream.of (c.seek (toInt32 x)).2) := by
  have hmove : ∀ n ≤ c.size, (⟨c.content, n⟩ : StringStream) = StringStream.of (c.moveTo n) :=
    fun n hn => StringStream.ext (c.content_moveTo n).symm (Cursor.tell_moveTo hn).symm
  rw [seek_toInt32 hsize, ← hy]
  by_cases h : 0 ≤ y
  · rw [if_pos h] at hresult
    rw [if_pos h, hresult]
    have hlt : toSize x < 2 ^ 31 := by
      have := toInt32_lt x
      rw [toSize_of_nonneg (hy ▸ h)]
      omega
    by_cases hbeyond : 0 < toInt32 ((toSize x : Int) - c.size)
    · have hback : toSize ((toSize x : Int) - toInt32 ((toSize x : Int) - c.size)) = c.size := by
        rw [toInt32_of_lt (by omega) (by omega)]
        unfold toSize
        omega
      simp only [if_pos hbeyond, hback, hmove c.size Nat.le.refl]
    · have hle : toSize x ≤ c.size :=
        Nat.le_of_not_lt fun hlt' => hbeyond ((toInt32_sub_pos hlt hsize).mpr hlt')
      simp only [if_neg hbeyond, hmove _ hle]
  · rw [if_neg h] at hresult
    have hstay : ¬ 0 < toInt32 (((0 : Nat) : Int) - c.size) := by
      rw [toInt32_sub_pos (by decide) hsize]
      exact Nat.not_lt_zero _
    rw [if_neg h, hresult]
    simp only [if_neg hstay, hmove 0 (Nat.zero_le _)]

theorem seek_of (hsize : c.size < 2 ^ 31) (offset : Int32) (kind : StreamOffset) :
    (StringStream.of c).seek offset kind = ((c.seek (seekTarget c offset kind)).1,
        StringStream.of (c.seek (seekTarget c offset kind)).2) := by
  have htell := c.tell_le_size
  cases kind with
  | fromCurrent =>
    have hindex : toInt32 ((c.tell : Nat) : Int) = c.tell := toInt32_of_lt (by omega) (by omega)
    exact clamp_of hsize (congrArg (fun x => toInt32 (x + offset.toInt)) hindex) rfl
  | fromStart =>
    have htarget : seekTarget c offset .fromStart = toInt32 offset.toInt :=
      congrArg toInt32 (Int.zero_add _)
    rw [htarget]
    exact clamp_of hsize (toInt32_toInt offset).symm rfl
  | fromEnd =>
    have hindex : toInt32 ((c.size : Nat) : Int) = c.size := toInt32_of_lt (by omega) (by omega)
    exact clamp_of hsize (congrArg (fun x => toInt32 (x + offset.toInt)) hindex) rfl

theorem seek_one {x : UInt8} {after : Bytes} (hafter : c.after = x :: after)
    (hsize : c.size < 2 ^ 31) :
    ((StringStream.of c).seek 1 .fromCurrent).2 = StringStream.of (c.advance 1) := by
  have hle : 1 ≤ c.after.length := by
    rw [hafter]
    exact Nat.succ_le_succ (Nat.zero_le _)
  have hsum := c.size_eq
  have htarget : seekTarget c 1 .fromCurrent = ((c.tell + 1 : Nat) : Int) := by
    have hone : (1 : Int32).toInt = 1 := rfl
    rw [seekTarget, StreamOffset.base, hone]
    exact toInt32_of_lt (by omega) (by omega)
  rw [seek_of hsize, htarget, Cursor.seek_natCast (by omega), Cursor.advance_eq_moveTo hle]

theorem readLoop_of {left : Nat} (hsize : c.size < 2 ^ 31) (hafter : c.after ≠ []) :
    readLoop left (StringStream.of c) = (c.after.take left, StringStream.of (c.advance left)) := by
  induction left generalizing c with
  | zero => rw [readLoop, take_zero, Cursor.advance_zero]
  | succ left ih =>
    obtain ⟨x, after, hx⟩ := exists_cons_of_ne_nil hafter
    have hdata : (StringStream.of c).string.getD (StringStream.of c).index 0 = x := by
      rw [StringStream.of, Cursor.content, hx, Cursor.tell, getD_eq_getElem?_getD,
        List.getElem?_append_right Nat.le.refl, Nat.sub_self]
      rfl
    have hnext : (c.advance 1).after = after := by
      rw [Cursor.advance, hx, drop_succ_cons, drop_zero]
    rw [readLoop]
    simp only [seek_one hx hsize, hdata, eof_of, Cursor.eof, hnext]
    cases after with
    | nil =>
      rw [isEmpty_nil, if_pos rfl, hx, take_succ_cons, take_nil]
      congr 2
      rw [Cursor.advance, Cursor.advance, hx]
      simp only [take_succ_cons, take_nil, drop_succ_cons, drop_nil]
    | cons y after =>
      rw [isEmpty_cons, if_neg Bool.false_ne_true, ih (by rw [Cursor.size_advance]; exact hsize)
        (by rw [hnext]; exact cons_ne_nil _ _), hnext, Cursor.advance_advance, hx,
        take_succ_cons, Nat.add_comm 1 left]

theorem read_of (hsize : c.size < 2 ^ 31) (n : Nat) :
    (StringStream.of c).read n = ((c.read n).1, StringStream.of (c.read n).2) := by
  rw [StringStream.read, eof_of, Cursor.read]
  by_cases hafter : c.after = []
  · rw [Cursor.eof, hafter, isEmpty_nil, if_pos rfl, take_nil, Cursor.advance, hafter,
      take_nil, drop_nil, append_nil, ← hafter]
  · rw [Cursor.eof, isEmpty_eq_false_iff.mpr hafter, if_neg Bool.false_ne_true,
      readLoop_of hsize hafter]

theorem delete_of (c : Cursor UInt8) (deleteSize : Nat) :
    (StringStream.of c).delete deleteSize = StringStream.of ⟨c.before, c.after.drop deleteSize⟩ := by
  have hremain : (StringStream.of c).size - (StringStream.of c).index = c.after.length :=
    Nat.sub_eq_of_eq_add (c.size_eq.trans (Nat.add_comm _ _))
  rw [delete]
  simp only [hremain]
  by_cases hzero : deleteSize = 0
  · rw [hzero, if_neg (fun h => h rfl), drop_zero]
  · rw [if_pos hzero]
    by_cases hnone : min deleteSize c.after.length = 0
    · have hnil : c.after = [] := length_eq_zero_iff.mp (by omega)
      rw [if_neg (fun h => h hnone), hnil, drop_nil, ← hnil]
    · rw [if_pos hnone, of_mk, StringStream.of, Cursor.content, Cursor.tell, take_left,
        drop_length_add_append, Cursor.drop_min_length]

theorem call_of (callback : WriteCallback) (c : Cursor UInt8) : call callback (StringStream.of c) =
      (callback.result, StringStream.of (c.write callback.pieces.flatten)) := by
  have hpieces : ∀ (pieces : List Bytes) (c : Cursor UInt8), pieces.foldl write (StringStream.of c) =
      StringStream.of (pieces.foldl Cursor.write c) := by
    intro pieces
    induction pieces with
    | nil => exact fun c => rfl
    | cons piece pieces ih =>
      intro c
      rw [foldl_cons, write_of, ih, foldl_cons]
  rw [call, hpieces, Cursor.foldl_write]

theorem deleteAndInsert_of {deleteSize : Nat} {writeCallback : Option WriteCallback}
    (hnul : 0 ∉ c.content) (hresult : writeCallback.all (·.result) = true) :
    (StringStream.of c).deleteAndInsert deleteSize writeCallback =
      (true, StringStream.of (c.splice deleteSize (inserted writeCallback))) := by
  cases writeCallback with
  | none => rw [deleteAndInsert, delete_of, Cursor.splice, inserted, append_nil]
  | some callback =>
    have hright : cstr (c.after.drop deleteSize) = c.after.drop deleteSize := by
      apply cstr_eq_self
      exact fun h => hnul (mem_append_right _ (mem_of_mem_drop h))
    have hcall : call callback ⟨c.before, c.before.length⟩ =
        (callback.result, ⟨c.before ++ callback.pieces.flatten,
          (c.before ++ callback.pieces.flatten).length⟩) := by
      have hleft : (⟨c.before, c.before.length⟩ : StringStream) = StringStream.of ⟨c.before, []⟩ := by
        rw [of_mk, append_nil]
      rw [hleft, call_of, Cursor.write_at_end, of_mk, append_nil]
    rw [deleteAndInsert, delete_of]
    simp only [of_mk, take_left, drop_left, hcall, hright]
    exact Prod.ext hresult rfl

end StringStream

/-- What a request writes is text, and its callback does not fail. -/
def StreamRequest.IsText : StreamRequest → Prop
  | .write data => 0 ∉ data
  | .deleteAndInsert _ writeCallback =>
    0 ∉ inserted writeCallback ∧ writeCallback.all (·.result) = true
  | _ => True

instance StreamRequest.decidableIsText : ∀ request : StreamRequest, Decidable request.IsText
  | .write data => inferInstanceAs (Decidable (0 ∉ data))
  | .deleteAndInsert _ writeCallback =>
    inferInstanceAs (Decidable (0 ∉ inserted writeCallback ∧ writeCallback.all (·.result) = true))
  | .read _ | .seek _ _ | .tell | .size | .eof | .clean => isTrue trivial

theorem streamStep_nul {c : Cursor UInt8} {request : StreamRequest} (hnul : 0 ∉ c.content)
    (htext : request.IsText) : 0 ∉ (streamStep c request).2.content := by
  have hsplice : ∀ {n : Nat} {data : Bytes}, 0 ∉ data → 0 ∉ (c.splice n data).content := by
    intro n data hdata
    obtain ⟨hbefore, hafter⟩ := not_or.mp (mt mem_append.mpr hnul)
    rw [Cursor.splice, Cursor.content_mk, mem_append, mem_append]
    rintro ((h | h) | h)
    · exact hbefore h
    · exact hdata h
    · exact hafter (mem_of_mem_drop h)
  cases request with
  | write data => exact hsplice htext
  | read size =>
    rw [streamStep, Cursor.read, Cursor.content_advance]
    exact hnul
  | seek offset kind =>
    rw [streamStep, Cursor.content_seek]
    exact hnul
  | tell => exact hnul
  | size => exact hnul
  | eof => exact hnul
  | clean => exact not_mem_nil
  | deleteAndInsert deleteSize writeCallback =>
    rw [streamStep, if_pos htext.2]
    exact hsplice htext.1

namespace StringStream
variable {c : Cursor UInt8} {request : StreamRequest}

theorem step_of (hsize : c.size < 2 ^ 31) (hnul : 0 ∉ c.content) (htext : request.IsText) :
    (StringStream.of c).step request =
      ((streamStep c request).1, StringStream.of (streamStep c request).2) := by
  cases request with
  | write data => rw [step, write_of, streamStep]
  | read size => rw [step, read_of hsize, streamStep]
  | seek offset kind => rw [step, seek_of hsize, streamStep]
  | tell => rfl
  | size => rfl
  | eof => rw [step, eof_of, streamStep]
  | clean => rfl
  | deleteAndInsert deleteSize writeCallback =>
    rw [step, deleteAndInsert_of hnul htext.2, streamStep, if_pos htext.2]

theorem step_eq_some {answer : StreamAnswer} {stream : StringStream} (hnul : 0 ∉ c.content)
    (htext : request.IsText)
    (hstep : stringStream.step (StringStream.of c) request = some (answer, stream)) :
    streamStep c request = (answer, (streamStep c request).2) ∧
      stream = StringStream.of (streamStep c request).2 ∧
      fileStreamStep c request = streamStep c request := by
  obtain ⟨⟨hmemory, hmemory'⟩, heq⟩ := Option.ite_none_right_eq_some.mp hstep
  have hsize : c.size < 2 ^ 31 := Nat.lt_of_le_of_lt hmemory (by decide)
  have hof := step_of hsize hnul htext
  rw [hof] at hmemory' heq
  obtain ⟨rfl, rfl⟩ := Prod.mk.inj (Option.some.inj heq)
  exact ⟨rfl, rfl, fileStreamStep_eq ⟨hsize, Nat.lt_of_le_of_lt hmemory' (by decide)⟩⟩

end StringStream

theorem stringStream_simulates {requests : List StreamRequest} {answers : List StreamAnswer}
    {c : Cursor UInt8} {stream : StringStream} (hnul : 0 ∉ c.content)
    (htext : ∀ request ∈ requests, request.IsText)
    (hrun : stringStream.run (StringStream.of c) requests = some (answers, stream)) :
    ∃ file, fileStream.run c requests = some (answers, file) ∧ stream = StringStream.of file ∧
      0 ∉ file.content := by
  refine Transducer.run_simulates stringStream fileStream
    (R := fun stream file => stream = StringStream.of file ∧ 0 ∉ file.content) ?_ ⟨rfl, hnul⟩
    (stringStream.meets_of_forall htext _) hrun
  rintro stream file request answer stream' ⟨rfl, hnul⟩ htext hstep
  obtain ⟨hanswer, hstream, hfile⟩ := StringStream.step_eq_some hnul htext hstep
  refine ⟨(streamStep file request).2, ?_, hstream, streamStep_nul hnul htext⟩
  exact congrArg some (hfile.trans hanswer)

/-- The replacement of `min deleteSize (size - tell)` bytes at a position by others. -/
def Replaces (content : Bytes) (tell deleteSize : Nat) (data content' : Bytes) (tell' : Nat) : Prop :=
  content' = content.take tell ++ data ++
      content.drop (tell + min deleteSize (content.length - tell)) ∧
    tell' = tell + data.length

/-- On text both streams answer alike in every run, with the position in the stream, and a splice
replaces what it is asked to. -/
theorem stringStream_fileStream {content : Bytes} {requests : List StreamRequest}
    {answers : List StreamAnswer} {stream : StringStream} (hcontent : 0 ∉ content)
    (htext : ∀ request ∈ requests, request.IsText)
    (hrun : stringStream.run ⟨content, 0⟩ requests = some (answers, stream)) :
    ∃ file, fileStream.run ⟨[], content⟩ requests = some (answers, file) ∧
      stream.string = file.content ∧ stream.index = file.tell ∧
      stream.index ≤ stream.string.length ∧ file.tell ≤ file.size ∧
      ∀ deleteSize writeCallback answer stream',
        (StreamRequest.deleteAndInsert deleteSize writeCallback).IsText →
        stringStream.step stream (.deleteAndInsert deleteSize writeCallback) =
          some (answer, stream') →
        ∃ file', fileStream.step file (.deleteAndInsert deleteSize writeCallback) =
            some (answer, file') ∧ answer = .flag true ∧
          Replaces stream.string stream.index deleteSize (inserted writeCallback)
            stream'.string stream'.index ∧
          Replaces file.content file.tell deleteSize (inserted writeCallback)
            file'.content file'.tell := by
  obtain ⟨file, hfile, rfl, hnul⟩ := stringStream_simulates (c := ⟨[], content⟩) hcontent htext hrun
  refine ⟨file, hfile, rfl, rfl, file.tell_le_size, file.tell_le_size, ?_⟩
  intro deleteSize writeCallback answer stream' htext' hstep
  obtain ⟨hanswer, rfl, hstep'⟩ := StringStream.step_eq_some hnul htext' hstep
  have hsplice : streamStep file (.deleteAndInsert deleteSize writeCallback) =
      (.flag true, file.splice deleteSize (inserted writeCallback)) := by
    rw [streamStep, if_pos htext'.2]
  have hreplaces : Replaces file.content file.tell deleteSize (inserted writeCallback)
      (file.splice deleteSize (inserted writeCallback)).content
      (file.splice deleteSize (inserted writeCallback)).tell :=
    ⟨file.content_splice _ _, file.tell_splice _ _⟩
  rw [hsplice] at hanswer hstep' ⊢
  exact ⟨_, congrArg some (hstep'.trans hanswer), (Prod.mk.inj hanswer).1.symm, hreplaces,
    hreplaces⟩

theorem stringStream_fileStream_abc :
    ∃ file, fileStream.run ⟨[], ascii "abc"⟩ [.seek 1 .fromStart, .insert (ascii "xy")] =
      some ([.flag true, .flag true], file) ∧ file.content = ascii "axybc" := by
  have hrun : stringStream.run ⟨ascii "abc", 0⟩ [.seek 1 .fromStart, .insert (ascii "xy")] =
      some ([.flag true, .flag true], ⟨ascii "axybc", 3⟩) := by decide
  obtain ⟨file, hfile, hcontent, -⟩ :=
    stringStream_fileStream (by decide) (by decide) hrun
  exact ⟨file, hfile, hcontent.symm⟩

/-- A byte of zero that was written does not come back from behind an insertion. -/
theorem stringStream_loses_zero :
    ¬ ∀ (content : Bytes) (requests : List StreamRequest) (answers : List StreamAnswer)
      (stream : StringStream), 0 ∉ content →
        stringStream.run ⟨content, 0⟩ requests = some (answers, stream) →
        ∃ file, fileStream.run ⟨[], content⟩ requests = some (answers, file) := by
  intro h
  obtain ⟨file, hfile⟩ := h [] [.write [97, 0, 98], .seek 0 .fromStart, .insert [120], .size]
    [.count 3, .flag true, .flag true, .count 2] ⟨[120, 97], 1⟩ (by decide) (by decide)
  have hanswers : (fileStream.run ⟨[], []⟩
      [.write [97, 0, 98], .seek 0 .fromStart, .insert [120], .size]).map Prod.fst =
        some [.count 3, .flag true, .flag true, .count 4] := by decide
  rw [hfile] at hanswers
  have hcount : ([.count 3, .flag true, .flag true, .count 2] : List StreamAnswer) =
      [.count 3, .flag true, .flag true, .count 4] := Option.some.inj hanswers
  cases hcount

end NikitaFirmware.Toolbox
