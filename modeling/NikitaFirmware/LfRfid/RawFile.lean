import NikitaFirmware.LfRfid.VarintPair
import NikitaFirmware.Toolbox.Stream

/-!
# Raw files

`lib/lfrfid/lfrfid_raw_file.c`. Behind a header the file holds buffers of packed pairs, each with its
size in front. It is read pair by pair, and from the first pair again when it ends.

A `float` of the header is kept as the word that is stored for it.
-/

namespace NikitaFirmware.LfRfid
open Foundations Toolbox List UInt32

/-- The bytes of a `uint32_t` or a `size_t` in memory. -/
def wordBytes (n : UInt32) : Bytes :=
  [n.toUInt8, (n >>> 8).toUInt8, (n >>> 16).toUInt8, (n >>> 24).toUInt8]

def wordOfBytes (bytes : Bytes) : UInt32 :=
  ofNat (bytes.foldr (fun byte n => byte.toNat + 256 * n) 0)

theorem wordOfBytes_wordBytes (n : UInt32) : wordOfBytes (wordBytes n) = n := by
  have hlt := n.toNat_lt
  apply UInt32.toNat_inj.mp
  simp only [wordOfBytes, wordBytes, foldr_cons, foldr_nil, UInt32.toNat_ofNat',
    UInt32.toNat_toUInt8, UInt32.toNat_shiftRight, Nat.shiftRight_eq_div_pow]
  change (n.toNat % 256 + 256 * (n.toNat / 2 ^ 8 % 256 + 256 * (n.toNat / 2 ^ 16 % 256 +
    256 * (n.toNat / 2 ^ 24 % 256 + 256 * 0)))) % 2 ^ 32 = n.toNat
  omega

@[simp] theorem length_wordBytes (n : UInt32) : (wordBytes n).length = 4 := rfl

structure RawFileHeader where
  magic : UInt32
  version : UInt32
  frequency : UInt32
  dutyCycle : UInt32
  maxBufferSize : UInt32

def rawFileMagic : UInt32 := 0x4C464952

def rawFileVersion : UInt32 := 1

namespace RawFileHeader

def toBytes (header : RawFileHeader) : Bytes :=
  wordBytes header.magic ++ wordBytes header.version ++ wordBytes header.frequency ++
    wordBytes header.dutyCycle ++ wordBytes header.maxBufferSize

def ofBytes (bytes : Bytes) : RawFileHeader where
  magic := wordOfBytes (bytes.take 4)
  version := wordOfBytes ((bytes.drop 4).take 4)
  frequency := wordOfBytes ((bytes.drop 8).take 4)
  dutyCycle := wordOfBytes ((bytes.drop 12).take 4)
  maxBufferSize := wordOfBytes ((bytes.drop 16).take 4)

/-- `sizeof(LFRFIDRawFileHeader)` -/
def byteSize : Nat := 20

theorem length_toBytes (header : RawFileHeader) : header.toBytes.length = byteSize := rfl

theorem ofBytes_toBytes (header : RawFileHeader) : ofBytes header.toBytes = header := by
  change RawFileHeader.mk (wordOfBytes (wordBytes header.magic))
    (wordOfBytes (wordBytes header.version)) (wordOfBytes (wordBytes header.frequency))
    (wordOfBytes (wordBytes header.dutyCycle)) (wordOfBytes (wordBytes header.maxBufferSize)) = header
  simp only [wordOfBytes_wordBytes]

end RawFileHeader

structure RawFile where
  stream : File
  maxBufferSize : UInt32
  buffer : Bytes
  bufferSize : UInt32
  bufferCounter : Nat
  deriving DecidableEq

namespace RawFile

def opened (content : Bytes) : RawFile := ⟨⟨[], content⟩, 0, [], 0, 0⟩

def writeHeader (file : RawFile) (frequency dutyCycle maxBufferSize : UInt32) : RawFile :=
  let header : RawFileHeader := ⟨rawFileMagic, rawFileVersion, frequency, dutyCycle, maxBufferSize⟩
  { file with stream := file.stream.write header.toBytes }

def writeBuffer (file : RawFile) (bufferData : Bytes) : Option RawFile :=
  if bufferData = [] then none
  else
    let stream := file.stream.write (wordBytes (ofNat bufferData.length))
    some { file with stream := stream.write bufferData }

def readHeader (file : RawFile) : Option (UInt32 × UInt32) × RawFile :=
  let read := file.stream.read RawFileHeader.byteSize
  let file : RawFile := { file with stream := read.2 }
  if read.1.length = RawFileHeader.byteSize then
    let header := RawFileHeader.ofBytes read.1
    if header.magic = rawFileMagic ∧ header.version = rawFileVersion then
      (some (header.frequency, header.dutyCycle), { file with
          maxBufferSize := header.maxBufferSize
          buffer := replicate header.maxBufferSize.toNat 0
          bufferSize := 0
          bufferCounter := 0 })
    else (none, file)
  else (none, file)

/-- What a call of `lfrfid_raw_file_read_pair` tells: whether it sets `pass_end`, and the pulse and
the duration when it does not fail. -/
structure PairRead where
  passEnd : Bool
  pair : Option (UInt32 × UInt32)

/-- At the end of the file `lfrfid_raw_file_read_pair` passes the header again: whether it does. -/
def rewindAtEnd (file : RawFile) : Bool × RawFile :=
  if file.stream.eof then
    let sought := fileStreamSeek file.stream (Int32.ofNat RawFileHeader.byteSize) .fromStart
    (true, { file with stream := sought.2 })
  else (false, file)

/-- The part of `lfrfid_raw_file_read_pair` that reads a buffer: whether there is one. -/
def load (file : RawFile) : Bool × RawFile :=
  let size := file.stream.read 4
  -- a size that is cut off replaces the low bytes of the last one
  let bufferSize := wordOfBytes (size.1 ++ (wordBytes file.bufferSize).drop size.1.length)
  let file : RawFile := { file with stream := size.2, bufferSize := bufferSize }
  if size.1.length ≠ 4 then (false, file)
  else if file.maxBufferSize < file.bufferSize then (false, file)
  else
    let data := file.stream.read file.bufferSize.toNat
    let file : RawFile :=
      { file with stream := data.2, buffer := data.1 ++ file.buffer.drop data.1.length }
    if data.1.length ≠ file.bufferSize.toNat then (false, file)
    else (true, { file with bufferCounter := 0 })

/-- What `lfrfid_raw_file_read_pair` does when the buffer is used up: whether `pass_end` is set, and
whether there is a buffer. -/
def refill (file : RawFile) : (Bool × Bool) × RawFile :=
  if file.bufferSize.toNat ≤ file.bufferCounter then
    let rewound := file.rewindAtEnd
    ((rewound.1, rewound.2.load.1), rewound.2.load.2)
  else ((false, true), file)

/-- The part of `lfrfid_raw_file_read_pair` that takes a pair out of the buffer. -/
def takePair (file : RawFile) : Option (Option (UInt32 × UInt32) × RawFile) :=
  let left := file.bufferSize.toNat - file.bufferCounter
  (Cells.read file.buffer file.bufferCounter left).map fun data =>
    match varintPairUnpack data with
    | some (pair, size) => (some pair, { file with bufferCounter := file.bufferCounter + size })
    | none => (none, file)

def readPair (file : RawFile) : Option (PairRead × RawFile) :=
  let filled := file.refill
  if filled.1.2 then
    filled.2.takePair.map fun taken => (⟨filled.1.1, taken.1⟩, taken.2)
  else some (⟨filled.1.1, none⟩, filled.2)

def calls : Nat → RawFile → Option (List PairRead × RawFile)
  | 0, file => some ([], file)
  | n + 1, file =>
    file.readPair.bind fun read =>
      (calls n read.2).map fun rest => (read.1 :: rest.1, rest.2)

def writeBuffers : List Bytes → RawFile → Option RawFile
  | [], file => some file
  | data :: buffers, file => (file.writeBuffer data).bind (writeBuffers buffers)

/-- A buffer with its size in front. -/
def stored (data : Bytes) : Bytes := wordBytes (ofNat data.length) ++ data

/-- The bytes behind a header are buffers of pairs, none of them empty or over the maximum. -/
inductive Holds (maxBufferSize : UInt32) : Bytes → List (UInt32 × UInt32) → Prop
  | nil : Holds maxBufferSize [] []
  | cons {data after : Bytes} {pairs rest : List (UInt32 × UInt32)} (hpairs : PairsOf data pairs)
      (hne : data ≠ []) (hle : data.length ≤ maxBufferSize.toNat)
      (h : Holds maxBufferSize after rest) :
      Holds maxBufferSize (stored data ++ after) (pairs ++ rest)

/-- Behind sound buffers there is one that ends within the second number of a pair. -/
def EndsInNumber (maxBufferSize : UInt32) (body : Bytes) : Prop :=
  ∃ before pairs whole wholePairs number cut after, Holds maxBufferSize before pairs ∧
    PairsOf whole wholePairs ∧ IsNumber number ∧ cut ≠ [] ∧ IsCut cut ∧
    (whole ++ (number ++ cut)).length ≤ maxBufferSize.toNat ∧
    body = before ++ (stored (whole ++ (number ++ cut)) ++ after)

/-- The search for the first buffer comes through, as it does in every file of less than 2 GiB. -/
def Rewinds (content : Bytes) : Prop :=
  toInt32 ((RawFileHeader.byteSize : Int) - content.length) ≤ 0

inductive NoBuffer (maxBufferSize : UInt32) : Bytes → Prop
  | short {bytes : Bytes} (hne : bytes ≠ []) (h : bytes.length < 4) : NoBuffer maxBufferSize bytes
  | big {size : UInt32} (rest : Bytes) (h : maxBufferSize < size) :
      NoBuffer maxBufferSize (wordBytes size ++ rest)
  | partly {size : UInt32} {rest : Bytes} (hle : size ≤ maxBufferSize)
      (h : rest.length < size.toNat) : NoBuffer maxBufferSize (wordBytes size ++ rest)
  | empty (rest : Bytes) : NoBuffer maxBufferSize (wordBytes 0 ++ rest)

theorem toUInt8_shiftRight {n : UInt32} {byte : UInt8} {k : Nat} (hk : k < 32)
    (h : n.toNat / 2 ^ k % 256 = byte.toNat) : (n >>> UInt32.ofNat k).toUInt8 = byte := by
  apply UInt8.toNat_inj.mp
  rw [UInt32.toNat_toUInt8, UInt32.toNat_shiftRight, UInt32.toNat_ofNat',
    Nat.shiftRight_eq_div_pow, Nat.mod_eq_of_lt (by omega : k < 2 ^ 32), Nat.mod_eq_of_lt hk]
  exact h

theorem wordBytes_wordOfBytes (a b c d : UInt8) :
    wordBytes (wordOfBytes [a, b, c, d]) = [a, b, c, d] := by
  have ha := a.toNat_lt
  have hb := b.toNat_lt
  have hc := c.toNat_lt
  have hd := d.toNat_lt
  have hnat : (wordOfBytes [a, b, c, d]).toNat =
      a.toNat + 256 * (b.toNat + 256 * (c.toNat + 256 * d.toNat)) := by
    change (a.toNat + 256 * (b.toNat + 256 * (c.toNat + 256 * (d.toNat + 256 * 0)))) % 2 ^ 32 = _
    omega
  generalize wordOfBytes [a, b, c, d] = n at hnat
  have h0 : n.toUInt8 = a := by
    apply UInt8.toNat_inj.mp
    rw [toNat_toUInt8, hnat]
    omega
  have h8 : (n >>> 8).toUInt8 = b :=
    toUInt8_shiftRight (k := 8) (by decide) (by rw [hnat]; omega)
  have h16 : (n >>> 16).toUInt8 = c :=
    toUInt8_shiftRight (k := 16) (by decide) (by rw [hnat]; omega)
  have h24 : (n >>> 24).toUInt8 = d :=
    toUInt8_shiftRight (k := 24) (by decide) (by rw [hnat]; omega)
  rw [wordBytes, h0, h8, h16, h24]

theorem exists_wordBytes {bytes : Bytes} (h : 4 ≤ bytes.length) :
    ∃ n rest, bytes = wordBytes n ++ rest := by
  rcases bytes with _ | ⟨a, _ | ⟨b, _ | ⟨c, _ | ⟨d, rest⟩⟩⟩⟩
  · simp at h
  · simp at h
  · simp at h
  · simp at h
  · exact ⟨wordOfBytes [a, b, c, d], rest, by rw [wordBytes_wordOfBytes]; rfl⟩

theorem noBuffer_or_stored (maxBufferSize : UInt32) {bytes : Bytes} (hne : bytes ≠ []) :
    NoBuffer maxBufferSize bytes ∨ ∃ data after, bytes = stored data ++ after ∧ data ≠ [] ∧
      data.length ≤ maxBufferSize.toNat := by
  by_cases hshort : bytes.length < 4
  · exact .inl (.short hne hshort)
  obtain ⟨size, rest, rfl⟩ := exists_wordBytes (Nat.le_of_not_lt hshort)
  by_cases hbig : maxBufferSize < size
  · exact .inl (.big rest hbig)
  have hle : size ≤ maxBufferSize := UInt32.not_lt.mp hbig
  by_cases hpartly : rest.length < size.toNat
  · exact .inl (.partly hle hpartly)
  by_cases hzero : size = 0
  · subst hzero
    exact .inl (.empty rest)
  have hlength : (rest.take size.toNat).length = size.toNat :=
    length_take_of_le (Nat.le_of_not_lt hpartly)
  refine .inr ⟨rest.take size.toNat, rest.drop size.toNat, ?_, fun hnil => hzero ?_, ?_⟩
  · rw [stored, hlength, UInt32.ofNat_toNat, append_assoc, take_append_drop]
  · rw [hnil] at hlength
    exact UInt32.toNat_inj.mp hlength.symm
  · rw [hlength]
    exact le_iff_toNat_le.mp hle

/-- What comes first behind the sound buffers of a file. -/
inductive Fault (maxBufferSize : UInt32) : Bytes → Prop
  | nothing : Fault maxBufferSize []
  | noBuffer {bytes : Bytes} (h : NoBuffer maxBufferSize bytes) : Fault maxBufferSize bytes
  | remainder {whole rest : Bytes} {pairs : List (UInt32 × UInt32)} (after : Bytes)
      (hwhole : PairsOf whole pairs) (hne : rest ≠ []) (hrest : Remainder rest)
      (hle : (whole ++ rest).length ≤ maxBufferSize.toNat) :
      Fault maxBufferSize (stored (whole ++ rest) ++ after)

theorem exists_holds (maxBufferSize : UInt32) (body : Bytes) :
    ∃ before pairs bad, body = before ++ bad ∧ Holds maxBufferSize before pairs ∧
      Fault maxBufferSize bad := by
  induction hn : body.length using Nat.strongRecOn generalizing body with
  | ind n ih =>
    by_cases hnil : body = []
    · exact ⟨[], [], [], by rw [hnil, append_nil], .nil, .nothing⟩
    rcases noBuffer_or_stored maxBufferSize hnil with hnone | ⟨data, after, rfl, hne, hle⟩
    · exact ⟨[], [], body, rfl, .nil, .noBuffer hnone⟩
    obtain ⟨whole, pairs, rest, rfl, hwhole, hrest⟩ := exists_pairsOf data
    by_cases hend : rest = []
    · subst hend
      rw [append_nil] at hne hle hn ⊢
      have hlt : after.length < n := by
        rw [← hn, stored]
        simp only [length_append, length_wordBytes]
        omega
      obtain ⟨before, others, bad, rfl, hbefore, hbad⟩ := ih _ hlt after rfl
      exact ⟨stored whole ++ before, pairs ++ others, bad, by rw [append_assoc],
        .cons hwhole hne hle hbefore, hbad⟩
    · exact ⟨[], [], _, rfl, .nil, .remainder after hwhole hend hrest hle⟩

/-- The reader of a file: what is left in the buffer, and behind the position in the file. -/
structure Ready (content : Bytes) (maxBufferSize : UInt32) (file : RawFile) (left after : Bytes) :
    Prop where
  content : file.stream.content = content
  after : file.stream.after = after
  maximum : file.maxBufferSize = maxBufferSize
  length : file.buffer.length = maxBufferSize.toNat
  size_le : file.bufferSize ≤ maxBufferSize
  counter_le : file.bufferCounter ≤ file.bufferSize.toNat
  left : (file.buffer.drop file.bufferCounter).take
    (file.bufferSize.toNat - file.bufferCounter) = left

variable {content left after rest data : Bytes} {maxBufferSize size : UInt32} {file : RawFile}

theorem Ready.length_left (h : Ready content maxBufferSize file left after) :
    left.length = file.bufferSize.toNat - file.bufferCounter := by
  have hsize := le_iff_toNat_le.mp h.size_le
  have hcounter := h.counter_le
  have hlength := h.length
  rw [← h.left, length_take, length_drop]
  omega

theorem Ready.takePair_eq (h : Ready content maxBufferSize file left after) :
    file.takePair = some (match varintPairUnpack left with
      | some (pair, size) => (some pair, { file with bufferCounter := file.bufferCounter + size })
      | none => (none, file)) := by
  have hsize := le_iff_toNat_le.mp h.size_le
  have hcounter := h.counter_le
  have hlength := h.length
  rw [takePair, Cells.read_of_le (by omega), h.left]
  rfl

theorem Ready.empty_iff (h : Ready content maxBufferSize file left after) :
    left = [] ↔ file.bufferSize.toNat ≤ file.bufferCounter := by
  rw [← length_eq_zero_iff, h.length_left]
  omega

theorem Ready.readPair_eq (h : Ready content maxBufferSize file left after) (hne : left ≠ []) :
    file.readPair = file.takePair.map fun taken => (⟨false, taken.1⟩, taken.2) := by
  have hrefill : file.refill = ((false, true), file) := by
    rw [refill, if_neg (mt h.empty_iff.mpr hne)]
  rw [readPair, hrefill, if_pos rfl]

/-- What a call does behind the part that passes the header again. -/
def loadPair (file : RawFile) (passEnd : Bool) : Option (PairRead × RawFile) :=
  if file.load.1 then file.load.2.takePair.map fun taken => (⟨passEnd, taken.1⟩, taken.2)
  else some (⟨passEnd, none⟩, file.load.2)

theorem Ready.readPair_nil (h : Ready content maxBufferSize file [] after) :
    file.readPair = file.rewindAtEnd.2.loadPair file.rewindAtEnd.1 := by
  have hrefill : file.refill = ((file.rewindAtEnd.1, file.rewindAtEnd.2.load.1),
      file.rewindAtEnd.2.load.2) := by
    rw [refill, if_pos (h.empty_iff.mp rfl)]
  rw [readPair, hrefill]
  rfl

theorem Ready.readPair_more (h : Ready content maxBufferSize file [] after) (hne : after ≠ []) :
    file.readPair = file.loadPair false := by
  have hmore : file.rewindAtEnd = (false, file) := by
    rw [rewindAtEnd, Cursor.eof, h.after, isEmpty_eq_false_iff.mpr hne, if_neg Bool.false_ne_true]
  rw [h.readPair_nil, hmore]

theorem Ready.rewindAtEnd_eq (h : Ready content maxBufferSize file left []) :
    file.rewindAtEnd = (true, { file with
      stream := if 0 < toInt32 ((RawFileHeader.byteSize : Int) - content.length) then
        file.stream.moveTo content.length else file.stream.moveTo RawFileHeader.byteSize }) := by
  have heof : file.stream.eof = true := by
    rw [Cursor.eof, h.after]
    rfl
  have hsize : file.stream.size = content.length := by rw [Cursor.size, h.content]
  have hseek : fileStreamSeek file.stream (Int32.ofNat RawFileHeader.byteSize) .fromStart =
      if 0 < toInt32 ((RawFileHeader.byteSize : Int) - content.length) then
        (false, file.stream.moveTo content.length)
      else (true, file.stream.moveTo RawFileHeader.byteSize) := by
    rw [← hsize]
    rfl
  rw [rewindAtEnd, heof, if_pos rfl, hseek]
  split <;> rfl

theorem Ready.readPair_end {header body : Bytes} (h : Ready content maxBufferSize file [] [])
    (hcontent : content = header ++ body) (hheader : header.length = RawFileHeader.byteSize)
    (hrewinds : Rewinds content) :
    ∃ file', Ready content maxBufferSize file' [] body ∧ file.readPair = file'.loadPair true := by
  have hmove : file.stream.moveTo RawFileHeader.byteSize = ⟨header, body⟩ := by
    rw [Cursor.moveTo, h.content, hcontent, ← hheader, take_left, drop_left]
  refine ⟨{ file with stream := ⟨header, body⟩ },
    ⟨hcontent.symm, rfl, h.maximum, h.length, h.size_le, h.counter_le, h.left⟩, ?_⟩
  rw [h.readPair_nil, h.rewindAtEnd_eq, if_neg (Int.not_lt.mpr hrewinds), hmove]

theorem Ready.readPair_lost (h : Ready content maxBufferSize file [] [])
    (hrewinds : ¬ Rewinds content) :
    ∃ file', file.readPair = some (⟨true, none⟩, file') := by
  have hmove : file.stream.moveTo content.length = ⟨content, []⟩ := by
    rw [Cursor.moveTo, h.content, take_length, drop_length]
  rw [h.readPair_nil, h.rewindAtEnd_eq, if_pos (Int.not_le.mp hrewinds), hmove]
  exact ⟨_, rfl⟩

theorem Ready.read_size (h : Ready content maxBufferSize file left (wordBytes size ++ rest)) :
    file.stream.read 4 = (wordBytes size, file.stream.advance 4) ∧
      (file.stream.advance 4).after = rest := by
  have htake : (wordBytes size ++ rest).take 4 = wordBytes size := take_left' rfl
  have hdrop : (wordBytes size ++ rest).drop 4 = rest := drop_left' rfl
  rw [Cursor.read, Cursor.advance, h.after, htake, hdrop]
  exact ⟨rfl, rfl⟩

theorem wordOfBytes_whole (size old : UInt32) :
    wordOfBytes (wordBytes size ++ (wordBytes old).drop 4) = size := by
  rw [show (wordBytes old).drop 4 = [] from rfl, append_nil, wordOfBytes_wordBytes]

theorem Ready.load_eq (h : Ready content maxBufferSize file left (wordBytes size ++ (data ++ after)))
    (hsize : data.length = size.toNat) (hle : size ≤ maxBufferSize) :
    file.load.1 = true ∧ Ready content maxBufferSize file.load.2 data after := by
  obtain ⟨hread, hafter⟩ := h.read_size
  have hword := wordOfBytes_whole size file.bufferSize
  have hdata : ((file.stream.advance 4).read size.toNat).1 = data := by
    rw [Cursor.read, hafter, ← hsize, take_left]
  have hload : file.load = (true, { file with
      stream := ((file.stream.advance 4).advance size.toNat)
      buffer := data ++ file.buffer.drop data.length
      bufferSize := size
      bufferCounter := 0 }) := by
    have hnot : ¬ file.maxBufferSize < size := by
      rw [h.maximum]
      exact UInt32.not_lt.mpr hle
    rw [load, hread]
    simp only [length_wordBytes, hword, ne_eq, not_true_eq_false, if_false, hnot, hdata, hsize]
    rfl
  have hbound := le_iff_toNat_le.mp hle
  rw [hload]
  refine ⟨rfl, ?_, ?_, h.maximum, ?_, hle, Nat.zero_le _, ?_⟩
  · rw [Cursor.content_advance, Cursor.content_advance, h.content]
  · change (file.stream.advance 4).after.drop size.toNat = after
    rw [hafter, ← hsize, drop_left]
  · rw [length_append, length_drop, h.length]
    omega
  · change ((data ++ file.buffer.drop data.length).drop 0).take (size.toNat - 0) = data
    rw [drop_zero, Nat.sub_zero, ← hsize, take_left]

theorem Ready.loadPair_noBuffer (h : Ready content maxBufferSize file left after)
    (hnone : NoBuffer maxBufferSize after) (passEnd : Bool) :
    ∃ file', file.loadPair passEnd = some (⟨passEnd, none⟩, file') := by
  cases hnone with
  | short hne hshort =>
    have hread : (file.stream.read 4).1.length ≠ 4 := by
      rw [Cursor.read, h.after, length_take]
      omega
    have hload : file.load.1 = false := by rw [load, if_pos hread]
    exact ⟨_, by rw [loadPair, hload, if_neg Bool.false_ne_true]⟩
  | @big size rest hbig =>
    have hload : file.load.1 = false := by
      obtain ⟨hread, -⟩ := h.read_size
      have hword := wordOfBytes_whole size file.bufferSize
      rw [← h.maximum] at hbig
      rw [load, hread]
      simp only [length_wordBytes, hword, ne_eq, not_true_eq_false, if_false, hbig, if_true]
    exact ⟨_, by rw [loadPair, hload, if_neg Bool.false_ne_true]⟩
  | @partly size rest hle hpartly =>
    have hload : file.load.1 = false := by
      obtain ⟨hread, hafter⟩ := h.read_size
      have hword := wordOfBytes_whole size file.bufferSize
      have hnot : ¬ file.maxBufferSize < size := by
        rw [h.maximum]
        exact UInt32.not_lt.mpr hle
      have hdata : ((file.stream.advance 4).read size.toNat).1.length ≠ size.toNat := by
        rw [Cursor.read, hafter, length_take]
        omega
      rw [load, hread]
      simp only [length_wordBytes, hword, ne_eq, not_true_eq_false, if_false, hnot, hdata,
        not_false_eq_true, if_true]
    exact ⟨_, by rw [loadPair, hload, if_neg Bool.false_ne_true]⟩
  | empty rest =>
    obtain ⟨hload, hready⟩ := @Ready.load_eq content left rest [] maxBufferSize 0 file h rfl
      (UInt32.zero_le)
    have htake := hready.takePair_eq
    rw [varintPairUnpack_cut fun _ hmem => absurd hmem not_mem_nil] at htake
    exact ⟨_, by rw [loadPair, hload, if_pos rfl, htake]; rfl⟩

theorem Ready.loadPair_stored (h : Ready content maxBufferSize file left (stored data ++ after))
    (hne : data ≠ []) (hle : data.length ≤ maxBufferSize.toNat) (passEnd : Bool) :
    ∃ file', Ready content maxBufferSize file' data after ∧
      file.loadPair passEnd = file'.readPair.map fun read => (⟨passEnd, read.1.pair⟩, read.2) := by
  have hlt := maxBufferSize.toNat_lt
  have hsize : data.length = (ofNat data.length).toNat := by
    rw [toNat_ofNat', Nat.mod_eq_of_lt (by omega)]
  rw [stored, append_assoc] at h
  obtain ⟨hload, hready⟩ := h.load_eq hsize (le_iff_toNat_le.mpr (hsize ▸ hle))
  refine ⟨_, hready, ?_⟩
  rw [loadPair, hload, if_pos rfl, hready.readPair_eq hne, Option.map_map]
  rfl

theorem Ready.readPair_pair {pulse duration : Bytes}
    (h : Ready content maxBufferSize file (pulse ++ duration ++ left) after)
    (hpulse : IsNumber pulse) (hduration : IsNumber duration) :
    ∃ file', file.readPair = some (⟨false, some (numberValue pulse, numberValue duration)⟩, file') ∧
      Ready content maxBufferSize file' left after := by
  have hne : pulse ++ duration ++ left ≠ [] := by
    rw [append_assoc]
    exact append_ne_nil_of_left_ne_nil hpulse.ne_nil _
  have hlength := h.length_left
  rw [length_append] at hlength
  have htake := h.takePair_eq
  rw [varintPairUnpack_pair hpulse hduration] at htake
  have hcounter := h.counter_le
  refine ⟨{ file with bufferCounter := file.bufferCounter + (pulse ++ duration).length }, ?_,
    h.content, h.after, h.maximum, h.length, h.size_le, ?_, ?_⟩
  · rw [h.readPair_eq hne, htake]
    rfl
  · change file.bufferCounter + (pulse ++ duration).length ≤ file.bufferSize.toNat
    omega
  · change (file.buffer.drop (file.bufferCounter + (pulse ++ duration).length)).take
      (file.bufferSize.toNat - (file.bufferCounter + (pulse ++ duration).length)) = left
    rw [← drop_drop, Nat.sub_add_eq, ← drop_take, h.left, drop_left]

theorem Ready.readPair_remainder (h : Ready content maxBufferSize file left after) (hne : left ≠ [])
    (hrest : Remainder left) :
    (∃ file', file.readPair = some (⟨false, none⟩, file')) ∨
      ∃ number cut pair file', left = number ++ cut ∧ IsNumber number ∧ cut ≠ [] ∧ IsCut cut ∧
        file.readPair = some (⟨false, some pair⟩, file') ∧
        file'.bufferCounter = file'.bufferSize.toNat + 1 := by
  have htake := h.takePair_eq
  rw [h.readPair_eq hne]
  cases hrest with
  | nothing => exact absurd rfl hne
  | cut _ hcut =>
    rw [varintPairUnpack_cut hcut] at htake
    exact .inl ⟨_, by rw [htake]; rfl⟩
  | number hnumber =>
    rw [varintPairUnpack_number hnumber] at htake
    exact .inl ⟨_, by rw [htake]; rfl⟩
  | @numberCut number cut hnumber hcutne hcut =>
    have hlength := h.length_left
    have hcounter := h.counter_le
    rw [varintPairUnpack_number_cut hnumber hcutne hcut] at htake
    refine .inr ⟨number, cut, _, _, rfl, hnumber, hcutne, hcut, by rw [htake]; rfl, ?_⟩
    change file.bufferCounter + ((number ++ cut).length + 1) = file.bufferSize.toNat + 1
    omega

theorem calls_one (file : RawFile) :
    calls 1 file = file.readPair.map fun read => ([read.1], read.2) := by
  rw [calls]
  cases file.readPair with
  | none => rfl
  | some read => rfl

theorem calls_add (m n : Nat) (file : RawFile) :
    calls (m + n) file = (calls m file).bind fun first =>
      (calls n first.2).map fun rest => (first.1 ++ rest.1, rest.2) := by
  induction m generalizing file with
  | zero =>
    rw [Nat.zero_add, calls, Option.bind_some]
    exact Option.map_id'.symm
  | succ m ih =>
    rw [Nat.succ_add, calls, calls]
    cases file.readPair with
    | none => rfl
    | some read =>
      rw [Option.bind_some, Option.bind_some, ih]
      cases calls m read.2 with
      | none => rfl
      | some first =>
        rw [Option.bind_some, Option.map_map, Option.map_some, Option.bind_some]
        rfl

/-- The counter stays in the buffer before each of a number of calls and behind the last. -/
def StaysWithin (n : Nat) (file : RawFile) : Prop :=
  ∀ m ≤ n, ∀ reads file', calls m file = some (reads, file') →
    file'.bufferCounter ≤ file'.bufferSize.toNat

/-- A call that does not come to the end of the file. -/
def found (pair : UInt32 × UInt32) : PairRead := ⟨false, some pair⟩

structure Finds (file : RawFile) (pairs : List (UInt32 × UInt32)) (file' : RawFile) : Prop where
  calls : calls pairs.length file = some (pairs.map found, file')
  within : StaysWithin pairs.length file

theorem Finds.nil (h : file.bufferCounter ≤ file.bufferSize.toNat) : Finds file [] file := by
  refine ⟨rfl, fun m hm reads file' hcalls => ?_⟩
  obtain rfl : m = 0 := Nat.le_zero.mp hm
  obtain ⟨-, rfl⟩ := Prod.mk.inj (Option.some.inj hcalls)
  exact h

theorem Finds.trans {pairs more : List (UInt32 × UInt32)} {file' file'' : RawFile}
    (h : Finds file pairs file') (h' : Finds file' more file'') :
    Finds file (pairs ++ more) file'' := by
  constructor
  · rw [length_append, calls_add, h.calls, Option.bind_some, h'.calls, map_append]
    rfl
  · intro m hm reads last hcalls
    rw [length_append] at hm
    by_cases hle : m ≤ pairs.length
    · exact h.within m hle reads last hcalls
    · obtain ⟨k, rfl⟩ := Nat.exists_eq_add_of_le (Nat.le_of_not_le hle)
      rw [calls_add, h.calls, Option.bind_some] at hcalls
      obtain ⟨rest, hrest, heq⟩ := Option.map_eq_some_iff.mp hcalls
      obtain ⟨-, rfl⟩ := Prod.mk.inj heq
      exact h'.within k (by omega) rest.1 rest.2 hrest

variable {pairs : List (UInt32 × UInt32)}

theorem Finds.of_readPair {other file' : RawFile}
    (hcounter : file.bufferCounter ≤ file.bufferSize.toNat)
    (hread : file.readPair = other.readPair) (hne : pairs ≠ []) (h : Finds other pairs file') :
    Finds file pairs file' := by
  have hcalls : ∀ n, RawFile.calls (n + 1) file = RawFile.calls (n + 1) other := by
    intro n
    rw [RawFile.calls, RawFile.calls, hread]
  obtain ⟨pair, pairs, rfl⟩ := exists_cons_of_ne_nil hne
  constructor
  · rw [← h.calls]
    exact hcalls pairs.length
  · intro m hm reads last hlast
    cases m with
    | zero => exact (Finds.nil hcounter).within 0 (Nat.le_refl 0) reads last hlast
    | succ m => exact h.within (m + 1) hm reads last (hcalls m ▸ hlast)

theorem Ready.finds_pairs
    (h : Ready content maxBufferSize file (data ++ left) after) (hpairs : PairsOf data pairs) :
    ∃ file', Finds file pairs file' ∧ Ready content maxBufferSize file' left after := by
  induction hpairs generalizing file with
  | nil => exact ⟨file, .nil h.counter_le, h⟩
  | @cons pulse duration data pairs hpulse hduration _ ih =>
    rw [append_assoc] at h
    obtain ⟨file₁, hread, hready⟩ := h.readPair_pair hpulse hduration
    obtain ⟨file₂, hfinds, hready'⟩ := ih hready
    have hone : Finds file [(numberValue pulse, numberValue duration)] file₁ := by
      constructor
      · change calls 1 file = _
        rw [calls_one, hread]
        rfl
      · intro m hm reads last hlast
        rcases Nat.le_one_iff_eq_zero_or_eq_one.mp hm with rfl | rfl
        · exact (Finds.nil h.counter_le).within 0 (Nat.le_refl 0) reads last hlast
        · rw [calls_one, hread] at hlast
          obtain ⟨-, rfl⟩ := Prod.mk.inj (Option.some.inj hlast)
          exact hready.counter_le
    exact ⟨file₂, hone.trans hfinds, hready'⟩

theorem stored_ne_nil (data after : Bytes) : stored data ++ after ≠ [] := by
  rw [stored]
  exact cons_ne_nil _ _

theorem Ready.readPair_stored (h : Ready content maxBufferSize file [] (stored data ++ after))
    (hne : data ≠ []) (hle : data.length ≤ maxBufferSize.toNat) :
    ∃ other, Ready content maxBufferSize other data after ∧ file.readPair = other.readPair := by
  obtain ⟨other, hready, hload⟩ := h.loadPair_stored hne hle false
  refine ⟨other, hready, ?_⟩
  rw [h.readPair_more (stored_ne_nil data after), hload, hready.readPair_eq hne, Option.map_map]
  rfl

theorem Ready.finds_holds {body tail : Bytes}
    (h : Ready content maxBufferSize file [] (body ++ tail))
    (hholds : Holds maxBufferSize body pairs) :
    ∃ file', Finds file pairs file' ∧ Ready content maxBufferSize file' [] tail := by
  induction hholds generalizing file with
  | nil => exact ⟨file, .nil h.counter_le, h⟩
  | @cons data behind pairs rest hpairs hne hle _ ih =>
    rw [append_assoc] at h
    obtain ⟨other, hother, hread⟩ := h.readPair_stored hne hle
    rw [← append_nil data] at hother
    obtain ⟨file₁, hfinds, hready⟩ := hother.finds_pairs hpairs
    obtain ⟨file₂, hfinds', hready'⟩ := ih hready
    exact ⟨file₂, (hfinds.of_readPair h.counter_le hread (hpairs.ne_nil hne)).trans hfinds', hready'⟩

theorem calls_of_add {m n : Nat} {reads : List PairRead} {file' : RawFile}
    (h : calls (m + n) file = some (reads, file')) :
    ∃ file'', calls m file = some (reads.take m, file'') := by
  have hlength : ∀ k f r g, calls k f = some (r, g) → r.length = k := by
    intro k
    induction k with
    | zero =>
      intro f r g hcalls
      obtain ⟨rfl, -⟩ := Prod.mk.inj (Option.some.inj hcalls)
      rfl
    | succ k ih =>
      intro f r g hcalls
      rw [calls] at hcalls
      obtain ⟨read, -, hmap⟩ := Option.bind_eq_some_iff.mp hcalls
      obtain ⟨rest, hrest, heq⟩ := Option.map_eq_some_iff.mp hmap
      obtain ⟨rfl, -⟩ := Prod.mk.inj heq
      rw [length_cons, ih _ _ _ hrest]
  rw [calls_add] at h
  obtain ⟨first, hfirst, hrest⟩ := Option.bind_eq_some_iff.mp h
  obtain ⟨rest, -, heq⟩ := Option.map_eq_some_iff.mp hrest
  obtain ⟨rfl, -⟩ := Prod.mk.inj heq
  have hfront : (first.1 ++ rest.1).take m = first.1 := take_left' (hlength m file _ _ hfirst)
  exact ⟨first.2, by rw [hfront, hfirst]⟩

/-- The call with a number tells the pair in turn, and that it starts again. -/
def turn (pairs : List (UInt32 × UInt32)) (i : Nat) : PairRead :=
  ⟨decide (0 < i ∧ i % pairs.length = 0), pairs[i % pairs.length]?⟩

/-- The calls tell the pairs in order, again and again. -/
def Cycles (file : RawFile) (pairs : List (UInt32 × UInt32)) : Prop :=
  ∀ n, ∃ file', calls n file = some ((range n).map (turn pairs), file')

/-- A pass that starts again: its first call tells it. -/
def again : List (UInt32 × UInt32) → List PairRead
  | [] => []
  | pair :: pairs => ⟨true, some pair⟩ :: pairs.map found

theorem Ready.pass {header body : Bytes} (h : Ready content maxBufferSize file [] [])
    (hcontent : content = header ++ body) (hheader : header.length = RawFileHeader.byteSize)
    (hrewinds : Rewinds content) (hholds : Holds maxBufferSize body pairs) (hne : pairs ≠ []) :
    ∃ file', calls pairs.length file = some (again pairs, file') ∧
      Ready content maxBufferSize file' [] [] := by
  obtain ⟨file₁, hready, hread⟩ := h.readPair_end hcontent hheader hrewinds
  cases hholds with
  | nil => exact absurd rfl hne
  | @cons data after pairs rest hpairs hdata hle hafter =>
    obtain ⟨file₂, hready₂, hload⟩ := hready.loadPair_stored hdata hle true
    cases hpairs with
    | nil => exact absurd rfl hdata
    | @cons pulse duration data pairs hpulse hduration hpairs =>
      -- the first pair tells the start, and the others are found
      obtain ⟨file₃, hread₃, hready₃⟩ := hready₂.readPair_pair hpulse hduration
      rw [← append_nil data] at hready₃
      obtain ⟨file₄, hfinds, hready₄⟩ := hready₃.finds_pairs hpairs
      rw [← append_nil after] at hready₄
      obtain ⟨file₅, hfinds', hready₅⟩ := hready₄.finds_holds hafter
      refine ⟨file₅, ?_, hready₅⟩
      rw [cons_append, length_cons, calls, hread, hload, hread₃, Option.map_some,
        Option.bind_some, (hfinds.trans hfinds').calls]
      rfl

theorem map_turn_first (pairs : List (UInt32 × UInt32)) :
    (range pairs.length).map (turn pairs) = pairs.map found := by
  apply ext_getElem
  · simp
  · intro i hi hi'
    rw [length_map, length_range] at hi
    have hmod : i % pairs.length = i := Nat.mod_eq_of_lt hi
    simp only [getElem_map, getElem_range, turn, hmod, found, getElem?_eq_getElem hi]
    congr 1
    exact decide_eq_false (by omega)

theorem map_turn_again (pairs : List (UInt32 × UInt32)) (k : Nat) :
    (range pairs.length).map (fun i => turn pairs (pairs.length * (k + 1) + i)) =
      again pairs := by
  cases pairs with
  | nil => rfl
  | cons pair pairs =>
    have hturn : ∀ i, i < pairs.length + 1 →
        turn (pair :: pairs) ((pairs.length + 1) * (k + 1) + i) =
          ⟨decide (i = 0), (pair :: pairs)[i]?⟩ := by
      intro i hi
      have hmod : ((pairs.length + 1) * (k + 1) + i) % (pairs.length + 1) = i := by
        rw [Nat.mul_add_mod, Nat.mod_eq_of_lt hi]
      have hpos : 0 < (pairs.length + 1) * (k + 1) := Nat.mul_pos (Nat.succ_pos _) (Nat.succ_pos _)
      rw [turn, length_cons, hmod]
      congr 1
      exact decide_eq_decide.mpr ⟨fun h => h.2, fun h => ⟨by omega, h⟩⟩
    apply ext_getElem
    · simp [again]
    · intro i hi hi'
      rw [length_map, length_range, length_cons] at hi
      rw [getElem_map, getElem_range, length_cons, hturn i hi]
      cases i with
      | zero => rfl
      | succ i =>
        have hlt : i < pairs.length := by omega
        simp [again, found, getElem?_eq_getElem hlt]

theorem Ready.cycles {header body : Bytes} (h : Ready content maxBufferSize file [] body)
    (hcontent : content = header ++ body) (hheader : header.length = RawFileHeader.byteSize)
    (hrewinds : Rewinds content) (hholds : Holds maxBufferSize body pairs) (hne : pairs ≠ []) :
    Cycles file pairs := by
  have hpasses : ∀ k, ∃ file', calls (pairs.length * (k + 1)) file =
      some ((range (pairs.length * (k + 1))).map (turn pairs), file') ∧
      Ready content maxBufferSize file' [] [] := by
    intro k
    induction k with
    | zero =>
      rw [← append_nil body] at h
      obtain ⟨file', hfinds, hready⟩ := h.finds_holds hholds
      exact ⟨file', by rw [Nat.zero_add, Nat.mul_one, hfinds.calls, map_turn_first], hready⟩
    | succ k ih =>
      obtain ⟨file₁, hcalls, hready⟩ := ih
      obtain ⟨file₂, hpass, hready'⟩ := hready.pass hcontent hheader hrewinds hholds hne
      refine ⟨file₂, ?_, hready'⟩
      rw [Nat.mul_succ, calls_add, hcalls, Option.bind_some, hpass, Option.map_some,
        range_add, map_append, map_map, ← map_turn_again pairs k]
      rfl
  intro n
  have hpos := length_pos_of_ne_nil hne
  have hle : n ≤ pairs.length * (n + 1) :=
    Nat.le_trans (Nat.le_succ n) (Nat.le_mul_of_pos_left (n + 1) hpos)
  obtain ⟨file', hcalls, -⟩ := hpasses n
  rw [← Nat.add_sub_of_le hle] at hcalls
  obtain ⟨file'', hfront⟩ := calls_of_add hcalls
  refine ⟨file'', ?_⟩
  rw [hfront, ← map_take, take_range, Nat.min_eq_left (Nat.le_add_right _ _)]

end RawFile

end NikitaFirmware.LfRfid
