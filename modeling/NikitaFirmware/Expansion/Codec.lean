import NikitaFirmware.Foundations.Feed
import Mathlib.Data.List.GetD
import Mathlib.Order.Nat

/-!
# Frames of the expansion protocol

The frame codec of `applications/services/expansion/expansion_protocol.h`. A frame is its packed
structure in memory; a write outside of it has no result.
-/

namespace NikitaFirmware.Expansion
open Foundations List Option

def maxDataSize : Nat := 64

/-- `sizeof(ExpansionFrameHeader)` -/
def headerSize : Nat := 1

/-- `sizeof(ExpansionFrame)`; the data frame is the largest of the contents. -/
def frameSize : Nat := headerSize + (1 + maxDataSize)

inductive FrameType where
  | heartbeat | status | baudRate | control | data
  deriving DecidableEq

def FrameType.ofByte : UInt8 → Option FrameType
  | 1 => some .heartbeat
  | 2 => some .status
  | 3 => some .baudRate
  | 4 => some .control
  | 5 => some .data
  | _ => none

/-- `ExpansionFrame`, as its bytes. -/
structure Frame where
  bytes : Bytes
  length_eq : bytes.length = frameSize

/-- The contents of a frame: `ExpansionFrameHeartbeat` and its like; the baud rate as its four bytes. -/
inductive Content where
  | heartbeat
  | status (error : UInt8)
  | baudRate (baud : Bytes)
  | control (command : UInt8)
  | data (bytes : Bytes)

inductive Status where
  | ok | errorFormat | errorChecksum | errorCommunication

namespace Frame
variable (frame : Frame)

def type : Option FrameType := FrameType.ofByte (frame.bytes.getD 0 0)

def dataSize : Nat := (frame.bytes.getD 1 0).toNat

/-- What the frame says, by its type. -/
def content : Option Content :=
  match frame.type with
  | some .heartbeat => some .heartbeat
  | some .status => some (.status (frame.bytes.getD 1 0))
  | some .baudRate => some (.baudRate ((frame.bytes.drop 1).take 4))
  | some .control => some (.control (frame.bytes.getD 1 0))
  | some .data => some (.data ((frame.bytes.drop 2).take frame.dataSize))
  | none => none

/-- The type is known, and the data of a data frame fits. -/
def WellFormed : Prop :=
  frame.type ≠ none ∧ (frame.type = some .data → frame.dataSize ≤ maxDataSize)

instance : Decidable frame.WellFormed :=
  inferInstanceAs (Decidable
    (frame.type ≠ none ∧ (frame.type = some .data → frame.dataSize ≤ maxDataSize)))

def write (offset : Nat) (data : Bytes) : Option Frame :=
  if h : offset + data.length ≤ frameSize then
    some ⟨frame.bytes.take offset ++ data ++ frame.bytes.drop (offset + data.length), by
      rw [length_append, length_append, length_take, length_drop, frame.length_eq]
      omega⟩
  else none

def encodedSize : Nat :=
  match frame.type with
  | some .heartbeat => headerSize
  | some .status => headerSize + 1
  | some .baudRate => headerSize + 4
  | some .control => headerSize + 1
  | some .data => headerSize + 1 + frame.dataSize
  | none => 0

def contentSize (receivedContentSize : Nat) : Option Nat :=
  match frame.type with
  | some .heartbeat => some 0
  | some .status => some 1
  | some .baudRate => some 4
  | some .control => some 1
  | some .data =>
    if receivedContentSize < 1 then some 1
    else if maxDataSize < frame.dataSize then none
    else some (1 + frame.dataSize)
  | none => none

def remainingSize (receivedSize : Nat) : Option Nat :=
  if receivedSize < headerSize then some headerSize
  else do
    let receivedContentSize := receivedSize - headerSize
    let contentSize ← frame.contentSize receivedContentSize
    if receivedContentSize < contentSize then some (contentSize - receivedContentSize) else some 0

end Frame

def checksum (data : Bytes) : UInt8 := data.foldl (· ^^^ ·) 0

theorem Frame.contentSize_le {frame : Frame} {receivedContentSize n : Nat}
    (h : frame.contentSize receivedContentSize = some n) : headerSize + n ≤ frameSize := by
  have hmax : frameSize = headerSize + (1 + maxDataSize) := rfl
  have hdata : maxDataSize = 64 := rfl
  unfold Frame.contentSize at h
  split at h
  · cases h; omega
  · cases h; omega
  · cases h; omega
  · cases h; omega
  · split at h
    · cases h; omega
    · split at h
      · cases h
      · cases h; omega
  · cases h

theorem Frame.remainingSize_le {frame : Frame} {receivedSize n : Nat}
    (h : frame.remainingSize receivedSize = some n) (hn : n ≠ 0) :
    receivedSize + n ≤ frameSize := by
  have hheader : headerSize = 1 := rfl
  have hmax : frameSize = 66 := rfl
  unfold Frame.remainingSize at h
  split at h
  · cases h; omega
  · obtain ⟨contentSize, hcontent, hrest⟩ := bind_eq_some_iff.mp h
    have hle := contentSize_le hcontent
    split at hrest
    · cases hrest; omega
    · cases hrest; exact absurd rfl hn

/-- `expansion_protocol_decode`, the loop: the size of the frame, once it is received. -/
def decodeLoop {σ : Type} (source : Source σ) (frame : Frame) (totalSize : Nat) (s : σ) :
    Option (Except Status Nat × Frame × σ) :=
  match _h : frame.remainingSize totalSize with
  | none => some (.error .errorFormat, frame, s)
  | some remainingSize =>
    if _hzero : remainingSize = 0 then some (.ok totalSize, frame, s)
    else
      let (data, s') := source.receive s remainingSize
      if _hdata : data.length = 0 then some (.error .errorCommunication, frame, s')
      else match frame.write totalSize data with
        | none => none
        | some frame' => decodeLoop source frame' (totalSize + data.length) s'
  termination_by frameSize - totalSize
  decreasing_by
    have hle := Frame.remainingSize_le _h _hzero
    omega

def decode {σ : Type} (source : Source σ) (frame : Frame) (s : σ) :
    Option (Status × Frame × σ) := do
  match ← decodeLoop source frame 0 s with
  | (.error status, frame, s) => return (status, frame, s)
  | (.ok totalSize, frame, s) =>
    let (received, s) := source.receive s 1
    if received.length ≠ 1 then return (.errorCommunication, frame, s)
    else if received.headD 0 ≠ checksum (frame.bytes.take totalSize) then
      return (.errorChecksum, frame, s)
    else return (.ok, frame, s)

def encode {σ : Type} (sink : Sink σ) (frame : Frame) (s : σ) : Status × σ :=
  let encodedSize := frame.encodedSize
  if encodedSize = 0 then (.errorFormat, s)
  else
    let data := frame.bytes.take encodedSize
    let (sent, s) := sink.send s data
    if sent ≠ encodedSize then (.errorCommunication, s)
    else
      let (sent, s) := sink.send s [checksum data]
      if sent ≠ 1 then (.errorCommunication, s) else (.ok, s)

def Frame.encoded (frame : Frame) : Bytes := (encode Sink.all frame []).2

/-- A call of `expansion_protocol_decode`: its result and the bytes that it took. -/
structure Decoded where
  status : Status
  content : Option Content
  consumed : Bytes

/-- Successive calls of `expansion_protocol_decode` into the same frame. -/
def decodeEach {σ : Type} (source : Source σ) : Nat → Frame → σ → Option (List Decoded)
  | 0, _, _ => some []
  | n + 1, frame, s => do
    let (status, frame, s, consumed) ← decode source.logged frame (s, [])
    let results ← decodeEach source n frame s
    return ⟨status, frame.content, consumed⟩ :: results

variable {σ : Type} {source : Source σ} {f g : Frame}

def Agrees (f g : Frame) (n : Nat) : Prop := f.bytes.take n = g.bytes.take n

theorem Agrees.mono {n m : Nat} (h : Agrees f g n) (hm : m ≤ n) : Agrees f g m := by
  have htake := congrArg (take m) h
  rwa [take_take, take_take, min_eq_left hm] at htake

theorem Agrees.getD {n : Nat} (h : Agrees f g n) (i : Nat) (hi : i < n) :
    f.bytes.getD i 0 = g.bytes.getD i 0 := by
  have hget := congrArg (fun l : Bytes => l[i]?.getD 0) h
  simp only [getElem?_take_of_lt hi] at hget
  rwa [getD_eq_getElem?_getD, getD_eq_getElem?_getD]

theorem Agrees.slice {n : Nat} (h : Agrees f g n) (offset m : Nat) (hm : offset + m ≤ n) :
    (f.bytes.drop offset).take m = (g.bytes.drop offset).take m := by
  have hdrop := congrArg (drop offset) (h.mono hm)
  rwa [drop_take, drop_take, Nat.add_sub_cancel_left] at hdrop

theorem Agrees.type {n : Nat} (h : Agrees f g n) (hn : 1 ≤ n) : f.type = g.type := by
  rw [Frame.type, Frame.type, h.getD _ hn]

theorem Agrees.dataSize {n : Nat} (h : Agrees f g n) (hn : 2 ≤ n) : f.dataSize = g.dataSize := by
  rw [Frame.dataSize, Frame.dataSize, h.getD _ hn]

theorem Frame.encodedSize_pos (hg : g.type ≠ none) : 1 ≤ g.encodedSize := by
  rw [Frame.encodedSize]
  cases htype : g.type with
  | none => exact absurd htype hg
  | some type => cases type <;> simp only [headerSize] <;> omega

theorem Agrees.content (h : Agrees f g g.encodedSize) (hg : g.type ≠ none) :
    f.content = g.content ∧ f.encodedSize = g.encodedSize := by
  have htype : f.type = g.type := h.type (Frame.encodedSize_pos hg)
  simp only [Frame.content, Frame.encodedSize, htype]
  cases hg' : g.type with
  | none => exact absurd hg' hg
  | some type =>
    cases type with
    | heartbeat => exact ⟨rfl, rfl⟩
    | status =>
      have hsize : g.encodedSize = 2 := by rw [Frame.encodedSize, hg']; rfl
      have herror := h.getD 1 (by omega)
      exact ⟨congrArg (some <| Content.status ·) herror, rfl⟩
    | baudRate =>
      have hsize : g.encodedSize = 5 := by rw [Frame.encodedSize, hg']; rfl
      have hbaud := h.slice 1 4 (by omega)
      exact ⟨congrArg (some <| Content.baudRate ·) hbaud, rfl⟩
    | control =>
      have hsize : g.encodedSize = 2 := by rw [Frame.encodedSize, hg']; rfl
      have hcommand := h.getD 1 (by omega)
      exact ⟨congrArg (some <| Content.control ·) hcommand, rfl⟩
    | data =>
      have hsize : g.encodedSize = 2 + g.dataSize := by rw [Frame.encodedSize, hg']; rfl
      have hdata : f.dataSize = g.dataSize := h.dataSize (by omega)
      have hbytes := h.slice 2 g.dataSize (by omega)
      simp only [hdata]
      exact ⟨congrArg (some <| Content.data ·) hbytes, trivial⟩

theorem WellFormed.encodedSize_le (hg : g.WellFormed) : g.encodedSize ≤ frameSize := by
  have hmax : frameSize = 66 := rfl
  have hheader : headerSize = 1 := rfl
  have hdata : maxDataSize = 64 := rfl
  have hsize := hg.2
  rw [Frame.encodedSize]
  cases htype : g.type with
  | none => exact absurd htype hg.1
  | some type =>
    cases type <;> simp only [htype, forall_const] at hsize ⊢ <;> omega

theorem contentSize_of_agrees {k : Nat} (hg : g.WellFormed) (h : Agrees f g k) (hpos : 1 ≤ k)
    (hk : k ≤ g.encodedSize) :
    ∃ c, f.contentSize (k - headerSize) = some c ∧ k ≤ headerSize + c ∧
      headerSize + c ≤ g.encodedSize ∧ (k = headerSize + c → k = g.encodedSize) := by
  have hheader : headerSize = 1 := rfl
  have htype : f.type = g.type := h.type hpos
  have hfits := hg.2
  unfold Frame.contentSize
  unfold Frame.encodedSize at hk ⊢
  rw [htype]
  cases hg' : g.type with
  | none => exact absurd hg' hg.1
  | some type =>
    simp only [hg'] at hk hfits ⊢
    cases type with
    | heartbeat => exact ⟨0, rfl, hk, le_rfl, id⟩
    | status => exact ⟨1, rfl, hk, le_rfl, id⟩
    | baudRate => exact ⟨4, rfl, hk, le_rfl, id⟩
    | control => exact ⟨1, rfl, hk, le_rfl, id⟩
    | data =>
      have hmax := hfits rfl
      simp only at hk ⊢
      by_cases hone : k - headerSize < 1
      · rw [if_pos hone]
        exact ⟨1, rfl, by omega, by omega, fun hall => absurd hall (by omega)⟩
      · have hdata : f.dataSize = g.dataSize := h.dataSize (by omega)
        rw [if_neg hone, hdata, if_neg (by omega)]
        exact ⟨1 + g.dataSize, rfl, by omega, by omega, fun hall => by omega⟩

theorem remainingSize_of_agrees {k : Nat} (hg : g.WellFormed) (h : Agrees f g k)
    (hk : k ≤ g.encodedSize) :
    ∃ r, f.remainingSize k = some r ∧ k + r ≤ g.encodedSize ∧ (r = 0 → k = g.encodedSize) := by
  have hheader : headerSize = 1 := rfl
  have hone := Frame.encodedSize_pos hg.1
  rw [Frame.remainingSize]
  by_cases hzero : k < headerSize
  · rw [if_pos hzero]
    exact ⟨headerSize, rfl, by omega, fun hr => absurd hr (by decide)⟩
  rw [if_neg hzero]
  obtain ⟨c, hcontent, hkc, hle, hall⟩ := contentSize_of_agrees hg h (by omega) hk
  simp only [hcontent, bind_eq_bind, bind_some]
  by_cases hlt : k - headerSize < c
  · rw [if_pos hlt]
    exact ⟨_, rfl, by omega, fun hr => by omega⟩
  · rw [if_neg hlt]
    exact ⟨0, rfl, hk, fun _ => hall (by omega)⟩

theorem write_agrees {k m : Nat} (h : Agrees f g k) (hm : k + m ≤ frameSize) :
    ∃ f', f.write k ((g.bytes.drop k).take m) = some f' ∧ Agrees f' g (k + m) := by
  have hlength : ((g.bytes.drop k).take m).length = m := by
    rw [length_take, length_drop, g.length_eq]
    omega
  have hfits : k + ((g.bytes.drop k).take m).length ≤ frameSize := by omega
  refine ⟨_, dif_pos hfits, ?_⟩
  have hsplit : f.bytes.take k ++ (g.bytes.drop k).take m = g.bytes.take (k + m) := by
    rw [h, take_add]
  show (f.bytes.take k ++ (g.bytes.drop k).take m ++ _).take (k + m) = _
  rw [hsplit]
  refine take_left' ?_
  rw [length_take, g.length_eq]
  omega

theorem decodeLoop_eq (source : Source σ) (f : Frame) (k : Nat) (s : σ) :
    decodeLoop source f k s = match f.remainingSize k with
      | none => some (.error .errorFormat, f, s)
      | some r =>
        if r = 0 then some (.ok k, f, s)
        else if (source.receive s r).1.length = 0 then
          some (.error .errorCommunication, f, (source.receive s r).2)
        else (f.write k (source.receive s r).1).bind fun f' =>
          decodeLoop source f' (k + (source.receive s r).1.length) (source.receive s r).2 := by
  rw [decodeLoop.eq_def]
  split
  · next hnone => rw [hnone]
  · next r hsome =>
    rw [hsome]
    simp only [dite_eq_ite]
    split
    · rfl
    · split
      · rfl
      · cases f.write k (source.receive s r).1 <;> rfl

def tail (g : Frame) (k : Nat) : Bytes := (g.bytes.drop k).take (g.encodedSize - k)

theorem length_tail {k : Nat} (hg : g.WellFormed) : (tail g k).length = g.encodedSize - k := by
  have hle := WellFormed.encodedSize_le hg
  rw [tail, length_take, length_drop, g.length_eq]
  omega

theorem decodeLoop_delivers {k : Nat} {s : σ} {rest : Bytes} (log : Bytes) (hg : g.WellFormed)
    (h : Agrees f g k) (hk : k ≤ g.encodedSize) (hs : source.Delivers s (tail g k ++ rest)) :
    ∃ f' s', decodeLoop source.logged f k (s, log) =
        some (.ok g.encodedSize, f', (s', log ++ tail g k)) ∧
      Agrees f' g g.encodedSize ∧ source.Delivers s' rest := by
  induction hleft : g.encodedSize - k using Nat.strong_induction_on generalizing f k s log with
  | _ left ih =>
    obtain ⟨r, hr, hle, hall⟩ := remainingSize_of_agrees hg h hk
    have htail := length_tail hg (k := k)
    rw [decodeLoop_eq, hr]
    by_cases hzero : r = 0
    · have hend : k = g.encodedSize := hall hzero
      have hnil : tail g k = [] := length_eq_zero_iff.mp (by omega)
      rw [hnil] at hs ⊢
      simp only [if_pos hzero, append_nil]
      exact ⟨f, s, by rw [hend], hend ▸ h, hs⟩
    · obtain ⟨m, s', hreceive, hpos, hm, hnext⟩ :=
        hs.receive_append (Nat.pos_of_ne_zero hzero) (by omega)
      have hpiece : (tail g k).take m = (g.bytes.drop k).take m := by
        rw [tail, take_take, min_eq_left (by omega)]
      have hlength : ((tail g k).take m).length = m := by
        rw [length_take]
        omega
      have hrest : (tail g k).drop m = tail g (k + m) := by
        rw [tail, tail, drop_take, drop_drop, Nat.sub_sub]
      have hframe := WellFormed.encodedSize_le hg
      obtain ⟨f', hwrite, hagrees⟩ := write_agrees h (m := m) (by omega)
      obtain ⟨f'', s'', hloop, hagrees', hdelivers⟩ :=
        ih _ (by omega) (log ++ (tail g k).take m) hagrees (by omega) (hrest ▸ hnext) rfl
      have hlogged : source.logged.receive (s, log) r =
          ((tail g k).take m, (s', log ++ (tail g k).take m)) := by
        show ((source.receive s r).1, _, log ++ (source.receive s r).1) = _
        rw [hreceive]
      refine ⟨f'', s'', ?_, hagrees', hdelivers⟩
      simp only [if_neg hzero, hlogged, hlength, if_neg hpos.ne']
      rw [hpiece, hwrite, bind_some, ← hpiece, hloop, append_assoc, ← hrest, take_append_drop]

theorem encoded_eq (hg : g.WellFormed) :
    g.encoded = tail g 0 ++ [checksum (g.bytes.take g.encodedSize)] := by
  have hpos := Frame.encodedSize_pos hg.1
  have hlength : (g.bytes.take g.encodedSize).length = g.encodedSize := by
    rw [length_take, g.length_eq, min_eq_left (WellFormed.encodedSize_le hg)]
  simp only [Frame.encoded, encode, if_neg (Nat.ne_of_gt hpos), Sink.all, hlength, ne_eq,
    not_true_eq_false, if_false, nil_append, length_singleton]
  rfl

theorem length_encoded (hg : g.WellFormed) : g.encoded.length = g.encodedSize + 1 := by
  rw [encoded_eq hg, length_append, length_tail hg]
  rfl

theorem decode_delivers {s : σ} {rest : Bytes} (f : Frame) (log : Bytes) (hg : g.WellFormed)
    (hs : source.Delivers s (g.encoded ++ rest)) :
    ∃ f' s', decode source.logged f (s, log) = some (.ok, f', (s', log ++ g.encoded)) ∧
      f'.content = g.content ∧ source.Delivers s' rest := by
  rw [encoded_eq hg, append_assoc] at hs
  obtain ⟨f', s', hloop, hagrees, hchecksum⟩ :=
    decodeLoop_delivers log hg (rfl : Agrees f g 0) (Nat.zero_le _) hs
  obtain ⟨m, s'', hreceive, hpos, hm, hnext⟩ := hchecksum.receive_append Nat.one_pos le_rfl
  obtain rfl : m = 1 := by omega
  have hlogged : source.logged.receive (s', log ++ tail g 0) 1 =
      ([checksum (g.bytes.take g.encodedSize)], (s'', log ++ g.encoded)) := by
    show ((source.receive s' 1).1, _, log ++ tail g 0 ++ (source.receive s' 1).1) = _
    rw [hreceive, encoded_eq hg, append_assoc]
    rfl
  refine ⟨f', s'', ?_, (hagrees.content hg.1).1, hnext⟩
  rw [decode, hloop]
  simp only [bind_eq_bind, bind_some, hlogged, length_singleton, ne_eq,
    not_true_eq_false, if_false, headD_cons]
  rw [show f'.bytes.take g.encodedSize = g.bytes.take g.encodedSize from hagrees, if_neg (by simp)]
  rfl

theorem decodeEach_delivers {frames : List Frame} {s : σ} (hframes : ∀ g ∈ frames, g.WellFormed)
    (hs : source.Delivers s (frames.flatMap Frame.encoded)) :
    decodeEach source frames.length f s =
      some (frames.map fun g => ⟨.ok, g.content, g.encoded⟩) := by
  induction frames generalizing f s with
  | nil => rfl
  | cons g frames ih =>
    rw [forall_mem_cons] at hframes
    rw [flatMap_cons] at hs
    obtain ⟨f', s', hdecode, hcontent, hnext⟩ :=
      decode_delivers f [] hframes.1 hs
    rw [length_cons, decodeEach, hdecode]
    simp only [bind_eq_bind, bind_some]
    rw [ih hframes.2 hnext, hcontent]
    rfl

theorem encoded_append_inj {rest rest' : Bytes} (hf : f.WellFormed) (hg : g.WellFormed)
    (h : f.encoded ++ rest = g.encoded ++ rest') : f.encoded = g.encoded ∧ rest = rest' := by
  obtain ⟨_, _, hdecode, -, -⟩ := decode_delivers f [] hf (Source.bytewise_delivers _)
  obtain ⟨_, _, hdecode', -, -⟩ := decode_delivers f [] hg (Source.bytewise_delivers _)
  rw [h, hdecode'] at hdecode
  have hencoded : g.encoded = f.encoded :=
    congrArg (fun result : Frame × Bytes × Bytes => result.2.2) (Prod.mk.inj
      (some.inj hdecode)).2
  rw [hencoded] at h
  exact ⟨hencoded.symm, append_cancel_left h⟩

theorem encoded_ne_of_checksum {rest rest' : Bytes} {b : UInt8} (hf : f.WellFormed)
    (hg : g.WellFormed) (hb : b ≠ checksum (g.bytes.take g.encodedSize)) :
    f.encoded ++ rest ≠ tail g 0 ++ ([b] ++ rest') := by
  intro h
  obtain ⟨_, _, hdecode, -, -⟩ := decode_delivers f [] hf (Source.bytewise_delivers _)
  obtain ⟨f', s', hloop, hagrees, hdelivers⟩ := decodeLoop_delivers [] hg (rfl : Agrees f g 0)
    (Nat.zero_le _) (Source.bytewise_delivers (tail g 0 ++ ([b] ++ rest')))
  obtain ⟨m, s'', hreceive, hpos, hm, -⟩ := hdelivers.receive_append Nat.one_pos le_rfl
  obtain rfl : m = 1 := by omega
  have hother : (Source.bytewise.logged.receive (s', [] ++ tail g 0) 1).1 = [b] :=
    congrArg Prod.fst hreceive
  have hbytes : f'.bytes.take g.encodedSize = g.bytes.take g.encodedSize := hagrees
  rw [h, decode, hloop] at hdecode
  simp only [bind_eq_bind, bind_some, hother, hbytes, length_singleton, ne_eq,
    not_true_eq_false, if_false, headD_cons, hb, not_false_eq_true, if_true] at hdecode
  cases hdecode

/-- No more was received than the frame has bytes, as far as it says how many these are. -/
def Within (f : Frame) (k : Nat) : Prop := k ≤ headerSize ∨ k ≤ f.encodedSize

theorem contentSize_le_encodedSize {n c : Nat} (h : f.contentSize n = some c)
    (hagrees : Agrees f g (headerSize + n)) : headerSize + c ≤ g.encodedSize := by
  have hheader : headerSize = 1 := rfl
  have htype : f.type = g.type := hagrees.type (by omega)
  unfold Frame.contentSize at h
  unfold Frame.encodedSize
  rw [← htype]
  cases hf : f.type with
  | none =>
    rw [hf] at h
    cases h
  | some type =>
    simp only [hf] at h ⊢
    cases type with
    | heartbeat => cases h; exact le_rfl
    | status => cases h; exact le_rfl
    | baudRate => cases h; exact le_rfl
    | control => cases h; exact le_rfl
    | data =>
      simp only at h ⊢
      split at h
      · cases h; omega
      · have hdata : f.dataSize = g.dataSize := hagrees.dataSize (by omega)
        split at h
        · cases h
        · cases h; omega

theorem wellFormed_of_contentSize {n c : Nat} (h : f.contentSize n = some c) (hc : c ≤ n) :
    f.WellFormed ∧ f.encodedSize = headerSize + c := by
  unfold Frame.contentSize at h
  unfold Frame.encodedSize
  cases hf : f.type with
  | none =>
    rw [hf] at h
    cases h
  | some type =>
    have hknown : f.type ≠ none := hf ▸ some_ne_none _
    simp only [hf] at h ⊢
    cases type with
    | heartbeat => cases h; exact ⟨⟨hknown, fun hdata => by simp [hf] at hdata⟩, rfl⟩
    | status => cases h; exact ⟨⟨hknown, fun hdata => by simp [hf] at hdata⟩, rfl⟩
    | baudRate => cases h; exact ⟨⟨hknown, fun hdata => by simp [hf] at hdata⟩, rfl⟩
    | control => cases h; exact ⟨⟨hknown, fun hdata => by simp [hf] at hdata⟩, rfl⟩
    | data =>
      simp only at h ⊢
      split at h
      · cases h; omega
      · split at h
        · cases h
        · cases h
          exact ⟨⟨hknown, fun _ => by omega⟩, by omega⟩

theorem Within.write {k r : Nat} {piece : Bytes} (hr : f.remainingSize k = some r) (hzero : r ≠ 0)
    (hpiece : piece.length ≤ r) :
    ∃ f', f.write k piece = some f' ∧ f'.bytes.take (k + piece.length) = f.bytes.take k ++ piece ∧
      Within f' (k + piece.length) := by
  have hfits : k + piece.length ≤ frameSize := by
    have hle := Frame.remainingSize_le hr hzero
    omega
  have htake : (f.bytes.take k ++ piece ++ f.bytes.drop (k + piece.length)).take (k + piece.length) =
      f.bytes.take k ++ piece := by
    refine take_left' ?_
    rw [length_append, length_take, f.length_eq]
    omega
  have hone : headerSize = 1 := rfl
  refine ⟨_, dif_pos hfits, htake, ?_⟩
  unfold Frame.remainingSize at hr
  split at hr
  · cases hr
    exact .inl (by omega)
  · next hheader =>
    obtain ⟨c, hcontent, hrest⟩ := bind_eq_some_iff.mp hr
    split at hrest
    · cases hrest
      refine .inr (le_trans ?_ (contentSize_le_encodedSize hcontent ?_))
      · omega
      · have hk : headerSize + (k - headerSize) = k := by omega
        rw [hk, Agrees]
        have hprefix := congrArg (take k) htake
        have hlength : (f.bytes.take k).length = k := by
          rw [length_take, f.length_eq]
          omega
        rw [take_take, min_eq_left (by omega), take_left' hlength] at hprefix
        exact hprefix.symm
    · cases hrest
      exact absurd rfl hzero

theorem decodeLoop_consumes (hbounded : source.Bounded) {k : Nat} (s : σ) (hwithin : Within f k)
    (hk : k ≤ frameSize) :
    ∃ result f' s' log, decodeLoop source.logged f k (s, f.bytes.take k) =
        some (result, f', (s', log)) ∧ result ≠ .error .ok ∧
      ∀ n, result = .ok n →
        n = f'.encodedSize ∧ f'.WellFormed ∧ log = f'.bytes.take f'.encodedSize := by
  induction hleft : frameSize - k using Nat.strong_induction_on generalizing f k s with
  | _ left ih =>
    rw [decodeLoop_eq]
    cases hr : f.remainingSize k with
    | none => exact ⟨_, f, s, _, rfl, fun hok => (by cases hok), fun n hn => by cases hn⟩
    | some r =>
      by_cases hzero : r = 0
      · subst hzero
        have hall : f.WellFormed ∧ k = f.encodedSize := by
          unfold Frame.remainingSize at hr
          split at hr
          · cases hr
          · next hheader =>
            obtain ⟨c, hcontent, hrest⟩ := bind_eq_some_iff.mp hr
            split at hrest
            · next hlt =>
              have hzero := some.inj hrest
              omega
            · obtain ⟨hwell, hsize⟩ := wellFormed_of_contentSize hcontent (by omega)
              refine ⟨hwell, ?_⟩
              rcases hwithin with hone | hle
              · omega
              · omega
        refine ⟨_, f, s, _, rfl, fun hok => (by cases hok), fun n hn => ?_⟩
        cases hn
        exact ⟨hall.2, hall.1, by rw [← hall.2]⟩
      simp only [if_neg hzero]
      by_cases hempty : (source.logged.receive (s, f.bytes.take k) r).1.length = 0
      · rw [if_pos hempty]
        exact ⟨_, f, _, _, rfl, fun hok => (by cases hok), fun n hn => by cases hn⟩
      · obtain ⟨f', hwrite, htake, hwithin'⟩ := Within.write hr hzero (hbounded s r)
        have hfits : k + (source.receive s r).1.length ≤ frameSize := by
          have hle := Frame.remainingSize_le hr hzero
          have hpiece := hbounded s r
          omega
        have hsome : 0 < (source.receive s r).1.length := Nat.pos_of_ne_zero hempty
        obtain ⟨result, f'', s'', log, hloop, hresult⟩ :=
          ih _ (by omega) (source.receive s r).2 hwithin' hfits rfl
        refine ⟨result, f'', s'', log, ?_, hresult⟩
        rw [htake] at hloop
        rw [if_neg hempty]
        show (f.write k (source.receive s r).1).bind _ = _
        rw [hwrite]
        exact hloop

theorem decode_consumes (hbounded : source.Bounded) (f : Frame) (s : σ) :
    ∃ status f' s' log, decode source.logged f (s, []) = some (status, f', (s', log)) ∧
      (status = .ok → f'.WellFormed ∧ log = f'.encoded) := by
  obtain ⟨result, f', s', log, hloop, hnot, hresult⟩ :=
    decodeLoop_consumes hbounded s (f := f) (.inl (Nat.zero_le _)) (Nat.zero_le _)
  have hloop' : decodeLoop source.logged f 0 (s, []) = some (result, f', (s', log)) := hloop
  rw [decode, hloop']
  simp only [bind_eq_bind, bind_some]
  cases result with
  | error status => exact ⟨status, f', s', log, rfl, fun hok => absurd (congrArg _ hok) hnot⟩
  | ok n =>
    obtain ⟨rfl, hwell, rfl⟩ := hresult n rfl
    simp only
    split
    · exact ⟨_, f', _, _, rfl, fun hok => by cases hok⟩
    · next hone =>
      split
      · exact ⟨_, f', _, _, rfl, fun hok => by cases hok⟩
      · next hchecksum =>
        refine ⟨_, f', _, _, rfl, fun _ => ⟨hwell, ?_⟩⟩
        obtain ⟨b, hb⟩ := length_eq_one_iff.mp (not_not.mp hone)
        have hbyte : b = checksum (f'.bytes.take f'.encodedSize) := by
          rw [hb, not_not] at hchecksum
          exact hchecksum
        rw [encoded_eq hwell, ← hbyte]
        exact congrArg (f'.bytes.take f'.encodedSize ++ ·) hb

/-- Frames in sequence are decoded as they were encoded, however they are delivered and whatever the
buffer holds; of any stream, only a frame followed by its checksum is accepted. -/
theorem decode_encode (source : Source σ) :
    (∀ (frames : List Frame) (f : Frame) (s : σ), (∀ g ∈ frames, g.WellFormed) →
      source.Delivers s (frames.flatMap Frame.encoded) →
      decodeEach source frames.length f s = some (frames.map fun g => ⟨.ok, g.content, g.encoded⟩) ∧
        ∀ g ∈ frames, g.encoded.length = g.encodedSize + 1) ∧
      (source.Bounded → ∀ (f : Frame) (s : σ), ∃ status f' s' log,
        decode source.logged f (s, []) = some (status, f', (s', log)) ∧
          (status = .ok → f'.WellFormed ∧ log = f'.encoded)) :=
  ⟨fun _ _ _ hframes hs => ⟨decodeEach_delivers hframes hs,
      fun g hg => length_encoded (hframes g hg)⟩,
    fun hbounded f s => decode_consumes hbounded f s⟩

/-- A status frame and a data frame, over what the buffer held before them. -/
def exampleFrames : List Frame :=
  [⟨[2, 1] ++ replicate 64 0, rfl⟩, ⟨[5, 3, 7, 8, 9] ++ replicate 61 0xcc, rfl⟩]

theorem exampleFrames_decoded : decodeEach Source.bytewise 2 ⟨replicate 66 0xff, rfl⟩
        [2, 1, 3, 5, 3, 7, 8, 9, 0] =
      some [⟨.ok, some (.status 1), [2, 1, 3]⟩,
        ⟨.ok, some (.data [7, 8, 9]), [5, 3, 7, 8, 9, 0]⟩] :=
  ((decode_encode Source.bytewise).1 exampleFrames ⟨replicate 66 0xff, rfl⟩ _
    (by decide) (Source.bytewise_delivers _)).1

end NikitaFirmware.Expansion
