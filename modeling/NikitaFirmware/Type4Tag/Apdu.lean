import NikitaFirmware.Nfc.PollerBlocks

/-!
# The emulated Type 4 tag

`nfc/protocols/type_4_tag/type_4_tag_listener_i.c`: the handlers of SELECT, READ BINARY and UPDATE
BINARY, and the reading of an APDU. A step has no result where a `furi_check` fails.
-/

namespace NikitaFirmware.Type4Tag
open Nfc List Option

def numToBytesBe (n : Nat) : List Byte := [UInt8.ofNat (n >>> 8), UInt8.ofNat n]

def bytesToNumBe (bytes : List Byte) : Nat := bytes.foldl (fun res b => res * 256 + b.toNat) 0

/-- `Type4TagError`, as far as the handlers use it. -/
inductive Error
  | wrongFormat
  | notSupported
  | customCommand
  | protocol
  deriving DecidableEq

/-- `Type4TagData`, as far as the listener uses it. -/
structure Data where
  isTagSpecific : Bool
  chunkMaxRead : UInt16
  chunkMaxWrite : UInt16
  ndefFileId : UInt16
  ndefMaxLen : UInt16
  ndefReadLock : Byte
  ndefWriteLock : Byte
  ndefData : List Byte

inductive State
  | idle
  | selectedPicc
  | selectedApplication
  | selectedCapabilityContainer
  | selectedNdefMessage
  deriving DecidableEq

def State.inApplication : State → Bool
  | .idle | .selectedPicc => false
  | .selectedApplication | .selectedCapabilityContainer | .selectedNdefMessage => true

def statusSuccess : List Byte := [0x90, 0x00]
def statusOffsetErr : List Byte := [0x6B, 0x00]
def statusNotFound : List Byte := [0x6A, 0x82]
def statusNoSupport : List Byte := [0x6A, 0x81]
def statusBadParams : List Byte := [0x6A, 0x86]
def statusNoCmd : List Byte := [0x68, 0x00]

def mfName : List Byte := [0xD2, 0x76, 0x00, 0x00, 0x85, 0x01, 0x00]

def dfName : List Byte := [0xD2, 0x76, 0x00, 0x00, 0x85, 0x01, 0x01]

def bufSize : Nat := 251

def chunkLen : Nat := min (bufSize - 5) 255

def ccMinSize : Nat := 15

namespace Data

def fileId (d : Data) : Nat := if d.isTagSpecific then d.ndefFileId.toNat else 0xE104

def maxLen (d : Data) : Nat := if d.isTagSpecific then d.ndefMaxLen.toNat else 2046

def ccDump (d : Data) : List Byte :=
  numToBytesBe ccMinSize ++ [0x20] ++
    numToBytesBe (if d.isTagSpecific then min d.chunkMaxRead.toNat chunkLen else chunkLen) ++
    numToBytesBe (if d.isTagSpecific then min d.chunkMaxWrite.toNat chunkLen else chunkLen) ++
    [0x04, 0x06] ++ numToBytesBe d.fileId ++ numToBytesBe (2 + d.maxLen) ++
    [if d.isTagSpecific then d.ndefReadLock else 0x00,
      if d.isTagSpecific then d.ndefWriteLock else 0x00]

end Data

/-- `Type4TagListener`, without the buffer for the answer, which is reset for every APDU. -/
structure Listener where
  data : Data
  state : State

structure Handled where
  error : Option Error
  listener : Listener
  tx : BitBuffer

/-- The fields of an APDU: an empty data field is one that is not there. -/
structure Apdu where
  claIns : List Byte
  p1 : Byte
  p2 : Byte
  data : List Byte
  le : Nat

namespace Apdu

def lc (a : Apdu) : Nat := a.data.length

def offset (a : Apdu) : Nat := a.p1.toNat <<< 8 + a.p2.toNat

end Apdu

namespace Listener

def answer (l : Listener) (e : Option Error) (status : List Byte) (tx : BitBuffer) :
    Option Handled :=
  (tx.appendBytes status).map fun tx => ⟨e, l, tx⟩

def success (l : Listener) (tx : BitBuffer) : Option Handled := l.answer none statusSuccess tx

def select (l : Listener) (s : State) (tx : BitBuffer) : Option Handled :=
  { l with state := s }.success tx

def notFound (l : Listener) (tx : BitBuffer) : Option Handled :=
  l.answer (some .customCommand) statusNotFound tx

def offsetErr (l : Listener) (tx : BitBuffer) : Option Handled :=
  l.answer (some .wrongFormat) statusOffsetErr tx

def isoSelect (l : Listener) (a : Apdu) (tx : BitBuffer) : Option Handled :=
  if a.p1 = 0x04 ∧ a.lc = 7 then
    if mfName = a.data.take 7 then l.select .selectedPicc tx
    else if dfName = a.data.take 7 then l.select .selectedApplication tx
    else l.notFound tx
  else if (a.p1 = 0x00 ∨ a.p1 = 0x02) ∧ a.lc = 2 then
    let id := bytesToNumBe (a.data.take 2)
    if a.p1 = 0x00 ∧ id = 0x3F00 then l.select .selectedPicc tx
    else if a.p1 = 0x00 ∧ id = 0xE110 then l.select .selectedApplication tx
    else if l.state.inApplication = true ∧ id = 0xE103 then
      l.select .selectedCapabilityContainer tx
    else if l.state.inApplication = true ∧ id = l.data.fileId then
      l.select .selectedNdefMessage tx
    else l.notFound tx
  else l.notFound tx

def getData (array : List Byte) : Option (List Byte) := if array = [] then none else some array

def readCapabilityContainer (l : Listener) (offset le : Nat) (tx : BitBuffer) : Option Handled :=
  if ccMinSize ≤ offset then l.offsetErr tx
  else (tx.appendBytes ((l.data.ccDump.drop offset).take (min (ccMinSize - offset) le))).bind
    l.success

/-- The number of the length bytes that are read. -/
def readLen (offset le : Nat) : Nat := if offset < 2 then min (2 - offset) le else 0

/-- The length bytes, where the read begins in them. -/
def readHeader (l : Listener) (offset le : Nat) (tx : BitBuffer) : Option BitBuffer :=
  if offset < 2 then
    tx.appendBytes (((numToBytesBe l.data.ndefData.length).drop offset).take (readLen offset le))
  else some tx

def readNdefMessage (l : Listener) (offset le : Nat) (tx : BitBuffer) : Option Handled :=
  (l.readHeader offset le tx).bind fun tx =>
    let rest := offset - 2
    if l.data.ndefData.length ≤ rest then if offset < 2 then l.success tx else l.offsetErr tx
    else (getData l.data.ndefData).bind fun ndefData =>
      (tx.appendBytes ((ndefData.drop rest).take
        (min (l.data.ndefData.length - rest) (le - readLen offset le)))).bind l.success

def isoRead (l : Listener) (a : Apdu) (tx : BitBuffer) : Option Handled :=
  if a.p1 &&& 0x80 ≠ 0 then l.answer (some .customCommand) statusNoSupport tx
  else match l.state with
    | .selectedCapabilityContainer => l.readCapabilityContainer a.offset a.le tx
    | .selectedNdefMessage => l.readNdefMessage a.offset a.le tx
    | .idle | .selectedPicc | .selectedApplication => l.notFound tx

/-- The number of the length bytes that are written. -/
def writeLen (offset lc : Nat) : Nat := if offset < 2 then min (2 - offset) lc else 0

/-- The length with the bytes that are written of it. -/
def mergedLen (len offset : Nat) (data : List Byte) : Nat :=
  if offset < 2 then
    bytesToNumBe (memcpy (numToBytesBe len) offset (data.take (writeLen offset data.length)))
  else len

def ndefFileLenNew (len offset : Nat) (data : List Byte) : Nat :=
  max (mergedLen len offset data) (offset - 2 + (data.length - writeLen offset data.length))

/-- The payload in an array of another length. -/
def resizeNdefData (ndefData : List Byte) (newLen : Nat) : Option (List Byte) :=
  if newLen = ndefData.length then some ndefData
  else if newLen = 0 then some []
  else if ndefData.length = 0 then some (replicate newLen 0)
  else (getData ndefData).map fun old =>
    memcpy (replicate newLen 0) 0 (old.take (min newLen ndefData.length))

/-- The bytes behind the length are copied into the payload; nothing is copied past its end. -/
def storeNdefData (ndefData : List Byte) (offset : Nat) (data : List Byte) : Option (List Byte) :=
  if 0 < ndefData.length ∧ 0 < data.length then
    if ndefData.length < offset + data.length then none else some (memcpy ndefData offset data)
  else some ndefData

def writeNdefMessage (l : Listener) (offset : Nat) (data : List Byte) (tx : BitBuffer) :
    Option Handled :=
  if data.length = 0 then l.answer (some .wrongFormat) statusBadParams tx
  else if 2 + l.data.maxLen < offset + data.length then l.offsetErr tx
  else
    let newLen := ndefFileLenNew l.data.ndefData.length offset data
    if l.data.maxLen < newLen then l.offsetErr tx
    else (resizeNdefData l.data.ndefData newLen).bind fun resized =>
      (storeNdefData resized (offset - 2) (data.drop (writeLen offset data.length))).bind
        fun ndefData => { l with data := { l.data with ndefData := ndefData } }.success tx

def isoWrite (l : Listener) (a : Apdu) (tx : BitBuffer) : Option Handled :=
  if a.p1 &&& 0x80 ≠ 0 then l.answer (some .customCommand) statusNoSupport tx
  else match l.state with
    | .selectedCapabilityContainer => l.answer (some .notSupported) statusNoSupport tx
    | .selectedNdefMessage => l.writeNdefMessage a.offset a.data tx
    | .idle | .selectedPicc | .selectedApplication => l.notFound tx

def commands : List (List Byte × (Listener → Apdu → BitBuffer → Option Handled)) :=
  [([0x00, 0xA4], isoSelect), ([0x00, 0xB0], isoRead), ([0x00, 0xD6], isoWrite)]

end Listener

/-- An APDU in the receiving buffer of the layer below; what is behind it is left from before. -/
structure Received where
  data : List Byte
  size : Nat
  length_data : data.length = 256
  size_le : size ≤ 256

namespace Received

def byte (r : Received) (i : Nat) : Byte := r.data.getD i 0

/-- A length in an APDU; one of zero stands for the greatest. -/
def leOr (le most : Nat) : Nat := if le = 0 then most else le

/-- The data field and the expected length behind the header, where they are well formed. A size
that gets below zero is an underflow of `size_t`. -/
def body (r : Received) : Option (List Byte × Nat) :=
  let bodySize := r.size - 4
  if bodySize = 0 then some ([], 0)
  else if bodySize = 1 then some ([], leOr (r.byte 4).toNat 256)
  else if bodySize = 3 ∧ r.byte 4 = 0 then
    some ([], leOr (bytesToNumBe [r.byte 5, r.byte 6]) 65536)
  else
    let extendedLc := r.byte 4 = 0
    let lc := if extendedLc then bytesToNumBe [r.byte 5, r.byte 6] else (r.byte 4).toNat
    let start := if extendedLc then 7 else 5
    let rest := (r.size + 4294967296 - start) % 4294967296
    let data := (r.data.drop start).take lc
    if lc = 0 ∨ rest < lc then none
    else if rest = lc then some (data, 0)
    else if ¬ extendedLc ∧ rest - lc = 1 then
      some (data, leOr (r.byte (start + lc)).toNat 256)
    else if extendedLc ∧ rest - lc = 2 then
      some (data, leOr (bytesToNumBe [r.byte (start + lc), r.byte (start + lc + 1)]) 65536)
    else none

end Received

/-- What becomes of an APDU: the answer, and the frame that carries it. -/
structure Outcome where
  error : Option Error
  listener : Listener
  answer : Option (List Byte)
  frame : Option (List Byte)

namespace Listener

/-- `iso14443_3a_listener_send_standard_frame`, up to the transmission -/
def standardFrame (tx : BitBuffer) : Option BitBuffer :=
  ((BitBuffer.alloc 512).copy tx).bind fun frame =>
    frame.appendBytes (crcBytes (crcCalculate frame.bytes))

def sendBlock (layer : Layer) (tx : BitBuffer) : Option (Option BitBuffer) :=
  (layer.encodeResponse tx (BitBuffer.alloc 256)).bind fun (sent, _, block) =>
    if sent then (standardFrame block).map some else some none

/-- The error of sending takes the place of the handler's, unless the command was not known. A frame
that is there is transmitted without an error. -/
def sentError (error : Option Error) (frame : Option BitBuffer) : Option Error :=
  if error = some .customCommand then error else if frame.isSome then none else some .protocol

/-- What is in the buffer is sent. The layer is as the APDU has left it. -/
def send (layer : Layer) (h : Handled) : Option Outcome :=
  if h.tx.sizeBytes = 0 then some ⟨h.error, h.listener, none, none⟩
  else (sendBlock layer h.tx).map fun frame =>
    ⟨sentError h.error frame, h.listener, some h.tx.bytes, frame.map BitBuffer.bytes⟩

def handleApdu (l : Listener) (layer : Layer) (r : Received) : Option Outcome :=
  let tx := BitBuffer.alloc bufSize
  let handled :=
    if r.size < 4 then some ⟨some .wrongFormat, l, tx⟩
    else match commands.lookup [r.byte 0, r.byte 1] with
      | none => l.answer (some .customCommand) statusNoCmd tx
      | some handler => match r.body with
        | none => l.answer (some .wrongFormat) statusBadParams tx
        | some (data, le) => handler l ⟨[r.byte 0, r.byte 1], r.byte 2, r.byte 3, data, le⟩ tx
  handled.bind (send layer)

inductive Event
  | fieldOff
  | halted
  | receivedData (layer : Layer) (r : Received)

def run (l : Listener) : Event → Option Listener
  | .fieldOff | .halted => some { l with state := .idle }
  | .receivedData layer r => (l.handleApdu layer r).map Outcome.listener

end Listener

theorem bytesToNumBe_pair (a b : Byte) : bytesToNumBe [a, b] = a.toNat * 256 + b.toNat := by
  rw [bytesToNumBe, foldl_cons, foldl_cons, foldl_nil]
  omega

theorem numToBytesBe_pair (a b : Byte) : numToBytesBe (a.toNat * 256 + b.toNat) = [a, b] := by
  have hb := b.toNat_lt
  rw [numToBytesBe, Nat.shiftRight_eq_div_pow]
  congr 1
  · rw [show (a.toNat * 256 + b.toNat) / 2 ^ 8 = a.toNat by omega, UInt8.ofNat_toNat]
  · congr 1
    apply UInt8.toNat_inj.mp
    rw [UInt8.toNat_ofNat']
    omega

theorem bytesToNumBe_numToBytesBe {n : Nat} (h : n < 65536) : bytesToNumBe (numToBytesBe n) = n := by
  rw [numToBytesBe, bytesToNumBe_pair, Nat.shiftRight_eq_div_pow, UInt8.toNat_ofNat',
    UInt8.toNat_ofNat']
  omega

theorem bytesToNumBe_eq_iff {bs : List Byte} {n : Nat} (hlen : bs.length = 2) (h : n < 65536) :
    bytesToNumBe bs = n ↔ bs = numToBytesBe n := by
  obtain ⟨a, b, rfl⟩ := length_eq_two.mp hlen
  constructor
  · rintro rfl
    rw [bytesToNumBe_pair, numToBytesBe_pair]
  · intro hbs
    rw [hbs, bytesToNumBe_numToBytesBe h]

/-- The forms of a command body: its bytes, its data field and the expected length. -/
inductive Body : List Byte → List Byte → Nat → Prop
  | empty : Body [] [] 0
  | shortLe (le : Byte) : Body [le] [] (Received.leOr le.toNat 256)
  | extendedLe (hi lo : Byte) : Body [0, hi, lo] [] (Received.leOr (bytesToNumBe [hi, lo]) 65536)
  | shortLc (lc : Byte) (data : List Byte) (hlc : lc ≠ 0) (hlen : data.length = lc.toNat) :
      Body (lc :: data) data 0
  | shortLcLe (lc : Byte) (data : List Byte) (le : Byte) (hlc : lc ≠ 0)
      (hlen : data.length = lc.toNat) :
      Body (lc :: (data ++ [le])) data (Received.leOr le.toNat 256)
  | extendedLc (hi lo : Byte) (data : List Byte) (hlc : data ≠ [])
      (hlen : data.length = bytesToNumBe [hi, lo]) : Body (0 :: hi :: lo :: data) data 0
  | extendedLcLe (hi lo : Byte) (data : List Byte) (hi' lo' : Byte) (hlc : data ≠ [])
      (hlen : data.length = bytesToNumBe [hi, lo]) :
      Body (0 :: hi :: lo :: (data ++ [hi', lo'])) data
        (Received.leOr (bytesToNumBe [hi', lo']) 65536)

namespace Received

variable {r : Received} {data bs : List Byte} {le n : Nat}

def bytes (r : Received) : List Byte := r.data.take r.size

theorem length_bytes : r.bytes.length = r.size := by
  rw [bytes, length_take, r.length_data]
  exact Nat.min_eq_left r.size_le

theorem getElem?_bytes (h : n < r.size) : r.bytes[n]? = some (r.byte n) := by
  have hlt : n < r.data.length := by
    have hsize := r.size_le
    rw [r.length_data]
    omega
  rw [bytes, getElem?_take_of_lt h, byte, getD_eq_getElem?_getD, getElem?_eq_getElem hlt]
  rfl

theorem drop_bytes (h : n < r.size) : r.bytes.drop n = r.byte n :: r.bytes.drop (n + 1) := by
  have hlen : n < r.bytes.length := by rw [length_bytes]; exact h
  rw [drop_eq_getElem_cons hlen]
  congr 1
  exact some.inj ((getElem?_eq_getElem hlen).symm.trans (getElem?_bytes h))

theorem drop_size : r.bytes.drop r.size = [] := drop_eq_nil_of_le (Nat.le_of_eq length_bytes)

theorem take_drop_data (h : n + le ≤ r.size) : (r.data.drop n).take le = (r.bytes.drop n).take le := by
  rw [bytes, drop_take, take_take, Nat.min_eq_left (by omega)]

theorem length_take_drop (n le : Nat) (h : n + le ≤ r.size) : ((r.data.drop n).take le).length = le := by
  have hsize := r.size_le
  rw [length_take, length_drop, r.length_data]
  omega

theorem drop_bytes_field (n le : Nat) (h : n + le ≤ r.size) :
    r.bytes.drop n = (r.data.drop n).take le ++ r.bytes.drop (n + le) := by
  rw [take_drop_data h, ← drop_drop, take_append_drop]

theorem body_of_short (h4 : r.byte 4 ≠ 0) (hsize : 6 ≤ r.size) :
    r.body = if r.size - 5 < (r.byte 4).toNat then none
      else if r.size - 5 = (r.byte 4).toNat then
        some ((r.data.drop 5).take (r.byte 4).toNat, 0)
      else if r.size - 5 - (r.byte 4).toNat = 1 then
        some ((r.data.drop 5).take (r.byte 4).toNat, leOr (r.byte (5 + (r.byte 4).toNat)).toNat 256)
      else none := by
  have hle := r.size_le
  have hpos : (r.byte 4).toNat ≠ 0 := fun h => h4 (UInt8.toNat_inj.mp h)
  have hrest : (r.size + 4294967296 - 5) % 4294967296 = r.size - 5 := by omega
  rw [body, if_neg (by omega), if_neg (by omega), if_neg (fun h => h4 h.2)]
  simp only [h4, hrest, hpos, if_false, false_or, not_false_eq_true, true_and, false_and]

theorem body_of_extended (h4 : r.byte 4 = 0) (hsize : 6 ≤ r.size) (h7 : r.size ≠ 7) :
    r.body = if bytesToNumBe [r.byte 5, r.byte 6] = 0 ∨
        r.size < 7 + bytesToNumBe [r.byte 5, r.byte 6] then none
      else if r.size - 7 = bytesToNumBe [r.byte 5, r.byte 6] then
        some ((r.data.drop 7).take (bytesToNumBe [r.byte 5, r.byte 6]), 0)
      else if r.size - 7 - bytesToNumBe [r.byte 5, r.byte 6] = 2 then
        some ((r.data.drop 7).take (bytesToNumBe [r.byte 5, r.byte 6]),
          leOr (bytesToNumBe [r.byte (7 + bytesToNumBe [r.byte 5, r.byte 6]),
            r.byte (7 + bytesToNumBe [r.byte 5, r.byte 6] + 1)]) 65536)
      else none := by
  have hle := r.size_le
  have hlc : bytesToNumBe [r.byte 5, r.byte 6] < 65536 := by
    have h5 := (r.byte 5).toNat_lt
    have h6 := (r.byte 6).toNat_lt
    rw [bytesToNumBe_pair]
    omega
  rw [body, if_neg (by omega), if_neg (by omega), if_neg (by omega)]
  generalize bytesToNumBe [r.byte 5, r.byte 6] = lc at *
  simp only [h4, if_true, not_true_eq_false, false_and, true_and, if_false]
  rcases Nat.lt_or_ge r.size 7 with hlt | hge
  · -- the size has got below zero
    have hrest : (r.size + 4294967296 - 7) % 4294967296 = 4294967295 := by omega
    rw [hrest, if_pos (show lc = 0 ∨ r.size < 7 + lc by omega)]
    split
    · rfl
    · rw [if_neg (by omega), if_neg (by omega)]
  · have hrest : (r.size + 4294967296 - 7) % 4294967296 = r.size - 7 := by omega
    rw [hrest]
    by_cases hlc0 : lc = 0 ∨ r.size < 7 + lc
    · rw [if_pos hlc0, if_pos (by omega)]
    · rw [if_neg hlc0, if_neg (by omega)]

theorem body_sound (h4 : 4 ≤ r.size) (h : r.body = some (data, le)) :
    Body (r.bytes.drop 4) data le := by
  have hend := r.drop_size
  rcases Nat.lt_or_ge r.size 6 with hshort | hsize
  · obtain hs | hs : r.size = 4 ∨ r.size = 5 := by omega
    · rw [body, if_pos (by omega)] at h
      obtain ⟨rfl, rfl⟩ := Prod.mk.inj (some.inj h)
      rw [hs] at hend
      rw [hend]
      exact .empty
    · rw [body, if_neg (by omega), if_pos (by omega)] at h
      obtain ⟨rfl, rfl⟩ := Prod.mk.inj (some.inj h)
      rw [hs] at hend
      rw [drop_bytes (by omega), hend]
      exact .shortLe _
  by_cases hzero : r.byte 4 = 0
  · by_cases h7 : r.size = 7
    · rw [body, if_neg (by omega), if_neg (by omega), if_pos ⟨by omega, hzero⟩] at h
      obtain ⟨rfl, rfl⟩ := Prod.mk.inj (some.inj h)
      rw [h7] at hend
      rw [drop_bytes (by omega), drop_bytes (by omega), drop_bytes (by omega), hend, hzero]
      exact .extendedLe _ _
    · rw [body_of_extended hzero hsize h7] at h
      split at h
      · cases h
      case isFalse hfits =>
        have hbytes : r.bytes.drop 4 = 0 :: r.byte 5 :: r.byte 6 :: r.bytes.drop 7 := by
          rw [drop_bytes (by omega), drop_bytes (by omega), drop_bytes (by omega), hzero]
        rw [hbytes]
        have hfield := drop_bytes_field (r := r) 7 (bytesToNumBe [r.byte 5, r.byte 6]) (by omega)
        have hlen := length_take_drop (r := r) 7 (bytesToNumBe [r.byte 5, r.byte 6]) (by omega)
        have hne : (r.data.drop 7).take (bytesToNumBe [r.byte 5, r.byte 6]) ≠ [] := by
          intro hnil
          rw [hnil, length_nil] at hlen
          omega
        rw [hfield]
        split at h
        case isTrue heq =>
          obtain ⟨rfl, rfl⟩ := Prod.mk.inj (some.inj h)
          rw [show 7 + bytesToNumBe [r.byte 5, r.byte 6] = r.size by omega, hend, append_nil]
          exact .extendedLc _ _ _ hne hlen
        case isFalse hneq =>
          split at h
          case isFalse => cases h
          case isTrue htwo =>
            obtain ⟨rfl, rfl⟩ := Prod.mk.inj (some.inj h)
            rw [drop_bytes (by omega), drop_bytes (by omega),
              show 7 + bytesToNumBe [r.byte 5, r.byte 6] + 1 + 1 = r.size by omega, hend]
            exact .extendedLcLe _ _ _ _ _ hne hlen
  · rw [body_of_short hzero hsize] at h
    split at h
    · cases h
    case isFalse hfits =>
      have hfield := drop_bytes_field (r := r) 5 (r.byte 4).toNat (by omega)
      have hlen := length_take_drop (r := r) 5 (r.byte 4).toNat (by omega)
      rw [drop_bytes (by omega), hfield]
      split at h
      case isTrue heq =>
        obtain ⟨rfl, rfl⟩ := Prod.mk.inj (some.inj h)
        rw [show 5 + (r.byte 4).toNat = r.size by omega, hend, append_nil]
        exact .shortLc _ _ hzero hlen
      case isFalse hneq =>
        split at h
        case isFalse => cases h
        case isTrue hone =>
          obtain ⟨rfl, rfl⟩ := Prod.mk.inj (some.inj h)
          rw [drop_bytes (by omega), show 5 + (r.byte 4).toNat + 1 = r.size by omega, hend]
          exact .shortLcLe _ _ _ hzero hlen

theorem eq_of_drop {b : Byte} {bs : List Byte} (h : r.bytes.drop n = b :: bs) :
    n < r.size ∧ r.byte n = b ∧ r.bytes.drop (n + 1) = bs := by
  have hlt : n < r.size := by
    have hlen := congrArg length h
    rw [length_drop, length_bytes, length_cons] at hlen
    omega
  rw [drop_bytes hlt] at h
  exact ⟨hlt, cons.inj h⟩

theorem size_of_drop (h : r.bytes.drop n = bs) (hn : n ≤ r.size) : r.size = n + bs.length := by
  rw [← h, length_drop, length_bytes]
  omega

theorem body_complete (h4 : 4 ≤ r.size) (h : Body (r.bytes.drop 4) data le) :
    r.body = some (data, le) := by
  generalize hbs : r.bytes.drop 4 = bs at h
  have hs := size_of_drop hbs h4
  cases h with
  | empty =>
    rw [length_nil] at hs
    rw [body, if_pos (by omega)]
  | shortLe le =>
    obtain ⟨-, rfl, -⟩ := eq_of_drop hbs
    rw [length_singleton] at hs
    rw [body, if_neg (by omega), if_pos (by omega)]
  | extendedLe hi lo =>
    obtain ⟨-, hzero, h5⟩ := eq_of_drop hbs
    obtain ⟨-, rfl, h6⟩ := eq_of_drop h5
    obtain ⟨-, rfl, -⟩ := eq_of_drop h6
    simp only [length_cons, length_nil] at hs
    rw [body, if_neg (by omega), if_neg (by omega), if_pos ⟨by omega, hzero⟩]
  | shortLc lc data hlc hlen =>
    obtain ⟨-, rfl, h5⟩ := eq_of_drop hbs
    change r.bytes.drop 5 = _ at h5
    have hpos : (r.byte 4).toNat ≠ 0 := fun h => hlc (UInt8.toNat_inj.mp h)
    rw [length_cons] at hs
    rw [body_of_short hlc (by omega), if_neg (by omega), if_pos (by omega),
      take_drop_data (by omega), h5, take_of_length_le (Nat.le_of_eq hlen)]
  | shortLcLe lc data le hlc hlen =>
    obtain ⟨-, rfl, h5⟩ := eq_of_drop hbs
    change r.bytes.drop 5 = _ at h5
    have hpos : (r.byte 4).toNat ≠ 0 := fun h => hlc (UInt8.toNat_inj.mp h)
    rw [length_cons, length_append, length_singleton] at hs
    have hle : r.bytes.drop (5 + (r.byte 4).toNat) = [le] := by
      rw [← drop_drop, h5, ← hlen, drop_left]
    rw [body_of_short hlc (by omega), if_neg (by omega), if_neg (by omega), if_pos (by omega),
      take_drop_data (by omega), h5, ← hlen, take_left, hlen, (eq_of_drop hle).2.1]
  | extendedLc hi lo data hlc hlen =>
    obtain ⟨-, hzero, h5⟩ := eq_of_drop hbs
    obtain ⟨-, rfl, h6⟩ := eq_of_drop h5
    obtain ⟨-, rfl, h7⟩ := eq_of_drop h6
    change r.bytes.drop 7 = _ at h7
    change data.length = bytesToNumBe [r.byte 5, r.byte 6] at hlen
    have hpos := length_pos_of_ne_nil hlc
    simp only [length_cons] at hs
    rw [body_of_extended hzero (by omega) (by omega), if_neg (by omega), if_pos (by omega),
      take_drop_data (by omega), h7, take_of_length_le (Nat.le_of_eq hlen)]
  | extendedLcLe hi lo data hi' lo' hlc hlen =>
    obtain ⟨-, hzero, h5⟩ := eq_of_drop hbs
    obtain ⟨-, rfl, h6⟩ := eq_of_drop h5
    obtain ⟨-, rfl, h7⟩ := eq_of_drop h6
    change r.bytes.drop 7 = _ at h7
    change data.length = bytesToNumBe [r.byte 5, r.byte 6] at hlen
    have hpos := length_pos_of_ne_nil hlc
    simp only [length_cons, length_append, length_nil] at hs
    have hle : r.bytes.drop (7 + bytesToNumBe [r.byte 5, r.byte 6]) = [hi', lo'] := by
      rw [← drop_drop, h7, ← hlen, drop_left]
    obtain ⟨-, hhi, hlo⟩ := eq_of_drop hle
    rw [body_of_extended hzero (by omega) (by omega), if_neg (by omega), if_neg (by omega),
      if_pos (by omega), take_drop_data (by omega), h7, hhi, (eq_of_drop hlo).2.1, ← hlen,
      take_left]

structure Carries (r : Received) (a : Apdu) : Prop where
  header : ∃ body, r.bytes = a.claIns ++ a.p1 :: a.p2 :: body ∧ Body body a.data a.le
  length_claIns : a.claIns.length = 2

def apdu (r : Received) : Option Apdu :=
  if r.size < 4 then none
  else r.body.map fun (data, le) => ⟨[r.byte 0, r.byte 1], r.byte 2, r.byte 3, data, le⟩

theorem carries_iff {a : Apdu} : r.Carries a ↔ r.apdu = some a := by
  constructor
  · rintro ⟨⟨body, hbytes, hbody⟩, hlen⟩
    obtain ⟨claIns, p1, p2, data, le⟩ := a
    obtain ⟨cla, ins, rfl⟩ := length_eq_two.mp hlen
    have h0 : r.bytes.drop 0 = cla :: ins :: p1 :: p2 :: body := hbytes
    obtain ⟨-, rfl, h1⟩ := eq_of_drop h0
    obtain ⟨-, rfl, h2⟩ := eq_of_drop h1
    obtain ⟨-, rfl, h3⟩ := eq_of_drop h2
    obtain ⟨hlt, rfl, hdrop⟩ := eq_of_drop h3
    rw [apdu, if_neg (by omega), body_complete (by omega) (hdrop ▸ hbody)]
    rfl
  · intro h
    rw [apdu] at h
    split at h
    · cases h
    case isFalse hsize =>
      obtain ⟨⟨data, le⟩, hbody, rfl⟩ := map_eq_some_iff.mp h
      refine ⟨⟨r.bytes.drop 4, ?_, body_sound (by omega) hbody⟩, rfl⟩
      change r.bytes.drop 0 = _
      rw [drop_bytes (by omega), drop_bytes (by omega), drop_bytes (by omega),
        drop_bytes (by omega)]
      rfl

end Received

end NikitaFirmware.Type4Tag
