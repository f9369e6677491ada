import NikitaFirmware.Foundations.Accesses
import NikitaFirmware.Type4Tag.Apdu
import NikitaFirmware.Foundations.Chunks

/-!
# Parsing a capability container

`type_4_tag_cc_parse` in `lib/nfc/protocols/type_4_tag/type_4_tag_i.c`. The container stands at the
beginning of memory, and what is read of it is kept.
-/

namespace NikitaFirmware.Type4Tag
open Nfc Foundations List

/-- `Type4TagError`, without `None` and as far as the poller uses it. -/
inductive PollerError
  | notPresent
  | protocol
  | timeout
  | wrongFormat
  | notSupported
  | apduFailed
  | cardUnformatted
  | cardLocked

section Parse
variable (memory : Nat → Byte)

/-- Two bytes of the container, as a number. -/
def numAt (t : Nat) : Nat := bytesToNumBe [memory t, memory (t + 1)]

/-- Where the TLV behind one with another type begins, and what is read of that one. -/
def behindTlv (t : Nat) : List Access × Nat :=
  if memory (t + 1) < 0xFF then
    ([.read t 1, .read (t + 1) 1], t + 2 + (memory (t + 1)).toNat)
  else ([.read t 1, .read (t + 1) 1, .read (t + 2) 2], t + 4 + numAt memory (t + 2))

theorem lt_behindTlv (t : Nat) : t < (behindTlv memory t).2 := by
  rw [behindTlv]
  split
  · show t < t + 2 + (memory (t + 1)).toNat
    omega
  · show t < t + 4 + numAt memory (t + 2)
    omega

/-- The loop over the TLVs, up to the one that holds the control of the NDEF file. -/
def findFileCtrl (last t : Nat) : List Access × Option Nat :=
  if t < last then
    if memory t = 0x04 then ([.read t 1], some t)
    else
      let rest := findFileCtrl last (behindTlv memory t).2
      ((behindTlv memory t).1 ++ rest.1, rest.2)
  else ([], none)
termination_by last - t
decreasing_by
  have := lt_behindTlv memory t
  omega

/-- Where the TLVs end, of a container of that many bytes. Its length field is taken as it stands,
with its low byte first. -/
def tlvEnd (len : Nat) : Nat := min ((memory 0).toNat + (memory 1).toNat * 256) len

theorem tlvEnd_le (len : Nat) : tlvEnd memory len ≤ len := Nat.min_le_right _ _

def ccFields (t : Nat) (data : Data) : Data :=
  { data with
    chunkMaxRead := UInt16.ofNat (numAt memory 3)
    chunkMaxWrite := UInt16.ofNat (numAt memory 5)
    ndefFileId := UInt16.ofNat (numAt memory (t + 2))
    ndefMaxLen := UInt16.ofNat (numAt memory (t + 4)) - 2
    ndefReadLock := memory (t + 6)
    ndefWriteLock := memory (t + 7) }

def ccParse (data : Data) (len : Nat) : List Access × Except PollerError Data :=
  if len < ccMinSize then ([], .error .wrongFormat)
  else if memory 2 ≠ 0x20 then ([.read 2 1], .error .notSupported)
  else
    let found := findFileCtrl memory (tlvEnd memory len) 7
    let reads := [.read 2 1, .read 0 2] ++ found.1
    match found.2 with
    | none => (reads, .error .wrongFormat)
    | some t => (reads ++ [.read 3 2, .read 5 2, .read (t + 2) 6], .ok (ccFields memory t data))

/-- The TLVs from a place on are complete in a container of that many bytes, up to one that holds the
control of the NDEF file, if there is one that begins before the end. -/
inductive Complete (len last : Nat) : Nat → Prop
  | over {t : Nat} (h : last ≤ t) : Complete len last t
  | fileCtrl {t : Nat} (htype : memory t = 0x04) (hin : t + 8 ≤ len) : Complete len last t
  | short {t : Nat} (htype : memory t ≠ 0x04) (hlen : memory (t + 1) < 0xFF) (hin : t + 2 ≤ len)
      (rest : Complete len last (t + 2 + (memory (t + 1)).toNat)) : Complete len last t
  | long {t : Nat} (htype : memory t ≠ 0x04) (hlen : ¬ memory (t + 1) < 0xFF) (hin : t + 4 ≤ len)
      (rest : Complete len last (t + 4 + numAt memory (t + 2))) : Complete len last t

variable {memory} {len last t : Nat}

theorem complete_behindTlv (ht : t < last) (htype : memory t ≠ 0x04) :
    Complete memory len last t ↔ Access.AllWithin len 0 (behindTlv memory t).1 ∧
      Complete memory len last (behindTlv memory t).2 := by
  constructor
  · intro h
    cases h with
    | «over» h => omega
    | fileCtrl h => exact absurd h htype
    | short _ hlen hin rest =>
      rw [behindTlv, if_pos hlen]
      simp only [Access.allWithin_cons, Access.read_within_iff]
      exact ⟨⟨by omega, by omega, Access.allWithin_nil⟩, rest⟩
    | long _ hlen hin rest =>
      rw [behindTlv, if_neg hlen]
      simp only [Access.allWithin_cons, Access.read_within_iff]
      exact ⟨⟨by omega, by omega, by omega, Access.allWithin_nil⟩, rest⟩
  · rintro ⟨hreads, rest⟩
    by_cases hlen : memory (t + 1) < 0xFF
    · rw [behindTlv, if_pos hlen] at hreads rest
      simp only [Access.allWithin_cons, Access.read_within_iff] at hreads
      exact .short htype hlen (by omega) rest
    · rw [behindTlv, if_neg hlen] at hreads rest
      simp only [Access.allWithin_cons, Access.read_within_iff] at hreads
      exact .long htype hlen (by omega) rest

theorem findFileCtrl_within_iff (hlast : last ≤ len) (t : Nat) :
    (Access.AllWithin len 0 (findFileCtrl memory last t).1 ∧
      ∀ t', (findFileCtrl memory last t).2 = some t' → t' + 8 ≤ len) ↔
        Complete memory len last t := by
  fun_induction findFileCtrl memory last t with
  | case1 t ht htype =>
    simp only [Access.allWithin_cons, Access.read_within_iff, Option.some.injEq, forall_eq']
    constructor
    · exact fun h => .fileCtrl htype h.2
    · intro h
      refine ⟨⟨by omega, Access.allWithin_nil⟩, ?_⟩
      cases h with
      | «over» h => omega
      | fileCtrl _ hin => exact hin
      | short h => exact absurd htype h
      | long h => exact absurd htype h
  | case2 t ht htype rest ih =>
    rw [Access.allWithin_append, and_assoc, ih, complete_behindTlv ht htype]
  | case3 t ht =>
    exact ⟨fun _ => .over (Nat.le_of_not_lt ht), fun _ => ⟨Access.allWithin_nil,
      fun t' h => absurd h.symm (Option.some_ne_none t')⟩⟩

def TlvsComplete (memory : Nat → Byte) (len : Nat) : Prop :=
  ccMinSize ≤ len → memory 2 = 0x20 → Complete memory len (tlvEnd memory len) 7

theorem ccParse_within_iff (data : Data) (len : Nat) :
    Access.AllWithin len 0 (ccParse memory data len).1 ↔ TlvsComplete memory len := by
  rw [ccParse]
  split
  next hshort =>
    exact ⟨fun _ h => absurd hshort (Nat.not_lt.mpr h), fun _ => Access.allWithin_nil⟩
  next hlong =>
    have hmin : 15 ≤ len := Nat.le_of_not_lt hlong
    split
    next hversion =>
      refine ⟨fun _ _ h => absurd h hversion, fun _ => ?_⟩
      simp only [Access.allWithin_cons, Access.read_within_iff]
      exact ⟨by omega, Access.allWithin_nil⟩
    next hversion =>
      have hiff : TlvsComplete memory len ↔ Complete memory len (tlvEnd memory len) 7 :=
        ⟨fun h => h hmin (not_not.mp hversion), fun h _ _ => h⟩
      rw [hiff, ← findFileCtrl_within_iff (tlvEnd_le memory len)]
      dsimp only
      cases hfound : (findFileCtrl memory (tlvEnd memory len) 7).2 with
      | none =>
        simp only [Access.allWithin_append, Access.allWithin_cons, Access.read_within_iff]
        constructor
        · exact fun h => ⟨h.2, fun t' ht' => absurd ht'.symm (Option.some_ne_none t')⟩
        · exact fun h => ⟨⟨by omega, by omega, Access.allWithin_nil⟩, h.1⟩
      | some t =>
        simp only [Access.allWithin_append, Access.allWithin_cons, Access.read_within_iff,
          Option.some.injEq, forall_eq']
        constructor
        · exact fun h => ⟨h.1.2, by omega⟩
        · exact fun h => ⟨⟨⟨by omega, by omega, Access.allWithin_nil⟩, h.1⟩, by omega, by omega,
            by omega, Access.allWithin_nil⟩

end Parse

/-- A card, whose state is of any type, answers an APDU. -/
abbrev Card (σ : Type) := σ → List Byte → Except Error4a (List Byte) × σ

/-- `Type4TagPoller`, with the card and the APDUs that it has been sent. -/
structure Type4TagPoller (σ : Type) where
  data : Data
  card : σ
  sent : List (List Byte)

def Data.readChunk (d : Data) : Nat :=
  if d.isTagSpecific then min d.chunkMaxRead.toNat chunkLen else chunkLen

def Data.writeChunk (d : Data) : Nat :=
  if d.isTagSpecific then min d.chunkMaxWrite.toNat chunkLen else chunkLen

theorem readChunk_le (d : Data) : d.readChunk ≤ 246 := by
  rw [Data.readChunk]
  split
  · exact Nat.min_le_right _ _
  · exact Nat.le_refl 246

theorem writeChunk_le (d : Data) : d.writeChunk ≤ 246 := by
  rw [Data.writeChunk]
  split
  · exact Nat.min_le_right _ _
  · exact Nat.le_refl 246

/-- What is refused before anything is read or written. -/
def TooLarge (chunkMax offset length : Nat) : Prop := 32767 + chunkMax - 2 < offset + length

instance (chunkMax offset length : Nat) : Decidable (TooLarge chunkMax offset length) :=
  inferInstanceAs (Decidable (_ < _))

def readApdu (offset n : Nat) : List Byte := [0x00, 0xB0] ++ numToBytesBe offset ++ [UInt8.ofNat n]

/-- UPDATE BINARY -/
def writeApdu (offset : Nat) (bytes : List Byte) : List Byte :=
  [0x00, 0xD6] ++ numToBytesBe offset ++ [UInt8.ofNat bytes.length] ++ bytes

namespace Type4TagPoller

def processError : Error4a → PollerError
  | .notPresent => .notPresent
  | .timeout => .timeout
  | .protocol | .sendExtra => .protocol

def failedAs {α : Type} (e : PollerError) : Except PollerError α → Except PollerError α
  | .error .apduFailed => .error e
  | .error e' => .error e'
  | .ok a => .ok a

abbrev Session (σ α : Type) := Type4TagPoller σ → Option (Except PollerError α × Type4TagPoller σ)

/-- The session goes on if there has been no error. -/
def andThen {σ α β : Type} (s : Session σ α) (next : α → Session σ β) : Session σ β := fun p =>
  (s p).bind fun done =>
    match done.1 with
    | .error e => some (.error e, done.2)
    | .ok a => next a done.2

/-- A poller that reads, and what has been copied into the buffer. -/
structure Reading (σ : Type) where
  poller : Type4TagPoller σ
  buffer : List Byte

/-- A poller that writes, and what is left of the buffer. -/
structure Writing (σ : Type) where
  poller : Type4TagPoller σ
  buffer : List Byte

section Commands
variable {σ : Type} (card : Card σ)

def apduTrx (p : Type4TagPoller σ) (apdu : List Byte) :
    Except PollerError (List Byte) × Type4TagPoller σ :=
  let answer := card p.card apdu
  let p : Type4TagPoller σ := { p with card := answer.2, sent := p.sent ++ [apdu] }
  match answer.1 with
  | .error e => (.error (processError e), p)
  | .ok response =>
    if response.length < 2 then (.error .wrongFormat, p)
    else if response.drop (response.length - 2) = statusSuccess then
      (.ok (response.take (response.length - 2)), p)
    else (.error .apduFailed, p)

def isoSelectName (name : List Byte) : Session σ Unit := fun p =>
  let answer := p.apduTrx card ([0x00, 0xA4, 0x04, 0x0C, UInt8.ofNat name.length] ++ name)
  some ((failedAs .cardUnformatted answer.1).map fun _ => (), answer.2)

def isoSelectFile (fileId : Nat) : Session σ Unit := fun p =>
  let answer := p.apduTrx card ([0x00, 0xA4, 0x02, 0x0C, 0x02] ++ numToBytesBe fileId)
  some ((failedAs .cardUnformatted answer.1).map fun _ => (), answer.2)

/-- The body of the loop in `type_4_tag_poller_iso_read`. -/
def readStep (offset n : Nat) (r : Reading σ) : Option PollerError × Reading σ :=
  let answer := r.poller.apduTrx card (readApdu offset n)
  match answer.1 with
  | .error e => (some e, { r with poller := answer.2 })
  | .ok bytes =>
    if bytes.length ≠ n then (some .wrongFormat, { r with poller := answer.2 })
    else (none, ⟨answer.2, r.buffer ++ bytes⟩)

def isoRead (fuel offset length : Nat) (p : Type4TagPoller σ) :
    Option (Option PollerError × Reading σ) :=
  if TooLarge p.data.readChunk offset length then some (some .notSupported, ⟨p, []⟩)
  else chunked (readStep card) p.data.readChunk fuel offset length ⟨p, []⟩

/-- The body of the loop in `type_4_tag_poller_iso_write`. -/
def writeStep (offset n : Nat) (w : Writing σ) : Option PollerError × Writing σ :=
  let answer := w.poller.apduTrx card (writeApdu offset (w.buffer.take n))
  match failedAs .cardLocked answer.1 with
  | .error e => (some e, { w with poller := answer.2 })
  | .ok _ => (none, ⟨answer.2, w.buffer.drop n⟩)

def isoWrite (fuel offset : Nat) (buffer : List Byte) (p : Type4TagPoller σ) :
    Option (Option PollerError × Writing σ) :=
  if TooLarge p.data.writeChunk offset buffer.length then some (some .notSupported, ⟨p, buffer⟩)
  else chunked (writeStep card) p.data.writeChunk fuel offset buffer.length ⟨p, buffer⟩

/-- What is read, if there has been no error. -/
def readBytes (fuel offset length : Nat) : Session σ (List Byte) := fun p =>
  (isoRead card fuel offset length p).map fun done =>
    match done.1 with
    | some e => (.error e, done.2.poller)
    | none => (.ok done.2.buffer, done.2.poller)

def writeBytes (fuel offset : Nat) (buffer : List Byte) : Session σ Unit := fun p =>
  (isoWrite card fuel offset buffer p).map fun done =>
    match done.1 with
    | some e => (.error e, done.2.poller)
    | none => (.ok (), done.2.poller)

def selectApp : Session σ Unit := isoSelectName card dfName

/-- The container that has been read is parsed. -/
def parseCc (cc : List Byte) : Session σ Unit := fun p =>
  match (ccParse (fun k => cc.getD k 0) p.data cc.length).2 with
  | .error e => some (.error e, p)
  | .ok data => some (.ok (), { p with data := { data with isTagSpecific := true } })

def readCc (fuel : Nat) : Session σ Unit :=
  andThen (isoSelectFile card 0xE103) fun _ =>
    andThen (readBytes card fuel 0 2) fun ccLen =>
      andThen (readBytes card fuel 0 (bytesToNumBe ccLen)) parseCc

/-- What has been read of the NDEF file is put into the data, the rest of which is zero. -/
def readMessage (fuel ndefLen : Nat) : Session σ Unit := fun p =>
  if ndefLen = 0 then some (.ok (), p)
  else (isoRead card fuel 2 ndefLen p).map fun done =>
    let p : Type4TagPoller σ := done.2.poller
    let ndefData := done.2.buffer ++ List.replicate (ndefLen - done.2.buffer.length) 0
    let p : Type4TagPoller σ := { p with data := { p.data with ndefData := ndefData } }
    match done.1 with
    | some e => (.error e, p)
    | none => (.ok (), p)

def readNdef (fuel : Nat) : Session σ Unit := fun p =>
  andThen (isoSelectFile card p.data.ndefFileId.toNat) (fun _ =>
    andThen (readBytes card fuel 0 2) fun ndefLen => readMessage card fuel (bytesToNumBe ndefLen)) p

/-- `type_4_tag_poller_write_ndef`, where the count of the bytes is a `uint16_t`. -/
def writeNdef (fuel : Nat) : Session σ Unit := fun p =>
  let ndefLen := p.data.ndefData.length % 65536
  andThen (isoSelectFile card p.data.ndefFileId.toNat) (fun _ =>
    andThen (writeBytes card fuel 0 (numToBytesBe ndefLen)) fun _ =>
      if ndefLen = 0 then fun p => some (.ok (), p)
      else writeBytes card fuel 2 (p.data.ndefData.take ndefLen)) p

/-- The states of the poller in which a message is read, one after the other. -/
def readSession (fuel : Nat) : Session σ Unit :=
  andThen (selectApp card) fun _ => andThen (readCc card fuel) fun _ => readNdef card fuel

/-- The states of the poller in which a message is written. No file is created, as on a card whose
platform is not known. -/
def writeSession (fuel : Nat) : Session σ Unit :=
  andThen (selectApp card) fun _ => andThen (readCc card fuel) fun _ => writeNdef card fuel

end Commands

/-- A READ BINARY of at most so many bytes between two places. -/
def ReadWithin (chunkMax first last : Nat) (apdu : List Byte) : Prop :=
  ∃ hi lo le : Byte, apdu = [0x00, 0xB0, hi, lo, le] ∧ first ≤ bytesToNumBe [hi, lo] ∧
    bytesToNumBe [hi, lo] + Received.leOr le.toNat 256 ≤ last ∧
    Received.leOr le.toNat 256 ≤ chunkMax

/-- An UPDATE BINARY of at most so many bytes between two places. -/
def WriteWithin (chunkMax first last : Nat) (apdu : List Byte) : Prop :=
  ∃ (hi lo lc : Byte) (data : List Byte), apdu = [0x00, 0xD6, hi, lo, lc] ++ data ∧
    data.length = lc.toNat ∧ first ≤ bytesToNumBe [hi, lo] ∧
    bytesToNumBe [hi, lo] + data.length ≤ last ∧ data.length ≤ chunkMax

/-- A run has ended, and all APDUs that it has sent are such ones. -/
def Bounded {σ ρ : Type} (Within : List Byte → Prop) (poller : ρ → Type4TagPoller σ)
    (run : Nat → Option (Option PollerError × ρ)) : Prop :=
  ∃ fuel done, run fuel = some done ∧ ∀ apdu ∈ (poller done.2).sent, Within apdu

theorem numToBytesBe_eq {n : Nat} (h : n < 65536) :
    ∃ hi lo, numToBytesBe n = [hi, lo] ∧ bytesToNumBe [hi, lo] = n :=
  ⟨_, _, rfl, bytesToNumBe_numToBytesBe h⟩

theorem toNat_chunk {n : Nat} (h : n ≤ 246) : (UInt8.ofNat n).toNat = n := by
  rw [UInt8.toNat_ofNat']
  omega

theorem leOr_pos {n : Nat} (h : 0 < n) : Received.leOr n 256 = n := if_neg (by omega)

theorem readApdu_within {chunkMax first last o n : Nat} (hfirst : first ≤ o) (hlast : o + n ≤ last)
    (hpos : 0 < n) (hn : n ≤ chunkMax) (hchunk : chunkMax ≤ 246) (ho : o < 65536) :
    ReadWithin chunkMax first last (readApdu o n) := by
  obtain ⟨hi, lo, hbytes, hnum⟩ := numToBytesBe_eq ho
  refine ⟨hi, lo, UInt8.ofNat n, ?_, ?_⟩
  · rw [readApdu, hbytes]
    rfl
  · rw [hnum, toNat_chunk (by omega), leOr_pos hpos]
    exact ⟨hfirst, hlast, hn⟩

theorem writeApdu_within {chunkMax first last o : Nat} {data : List Byte} (hfirst : first ≤ o)
    (hlast : o + data.length ≤ last) (hn : data.length ≤ chunkMax) (hchunk : chunkMax ≤ 246)
    (ho : o < 65536) : WriteWithin chunkMax first last (writeApdu o data) := by
  obtain ⟨hi, lo, hbytes, hnum⟩ := numToBytesBe_eq ho
  refine ⟨hi, lo, UInt8.ofNat data.length, data, ?_, (toNat_chunk (by omega)).symm, ?_⟩
  · rw [writeApdu, hbytes]
    rfl
  · rw [hnum]
    exact ⟨hfirst, hlast, hn⟩

theorem ReadWithin.reaches {chunkMax first last o n : Nat}
    (h : ReadWithin chunkMax first last (readApdu o n)) (hpos : 0 < n) (hn : n ≤ 246)
    (ho : o < 65536) : o + n ≤ last := by
  obtain ⟨hi, lo, le, heq, -, hlast, -⟩ := h
  obtain ⟨hi', lo', hbytes, hnum⟩ := numToBytesBe_eq ho
  rw [readApdu, hbytes] at heq
  have heq' : [0x00, 0xB0, hi', lo', UInt8.ofNat n] = [0x00, 0xB0, hi, lo, le] := heq
  simp only [List.cons.injEq, and_true, true_and] at heq'
  obtain ⟨rfl, rfl, rfl⟩ := heq'
  rw [hnum, toNat_chunk hn, leOr_pos hpos] at hlast
  exact hlast

theorem WriteWithin.reaches {chunkMax first last o : Nat} {data : List Byte}
    (h : WriteWithin chunkMax first last (writeApdu o data)) (ho : o < 65536) :
    o + data.length ≤ last := by
  obtain ⟨hi, lo, lc, data', heq, -, -, hlast, -⟩ := h
  obtain ⟨hi', lo', hbytes, hnum⟩ := numToBytesBe_eq ho
  rw [writeApdu, hbytes] at heq
  have heq' : 0x00 :: 0xD6 :: hi' :: lo' :: UInt8.ofNat data.length :: data =
    0x00 :: 0xD6 :: hi :: lo :: lc :: data' := heq
  simp only [List.cons.injEq, true_and] at heq'
  obtain ⟨rfl, rfl, -, rfl⟩ := heq'
  rw [hnum] at hlast
  exact hlast

section AnyCard
variable {σ : Type} (card : Card σ) {p : Type4TagPoller σ} {apdu : List Byte}

theorem apduTrx_sent : (p.apduTrx card apdu).2.sent = p.sent ++ [apdu] := by
  rw [apduTrx]
  split
  · rfl
  · split
    · rfl
    · split <;> rfl

theorem readStep_sent {o n : Nat} {r : Reading σ} :
    (readStep card o n r).2.poller.sent = r.poller.sent ++ [readApdu o n] := by
  rw [readStep]
  split
  · exact apduTrx_sent card
  · split <;> exact apduTrx_sent card

theorem writeStep_sent {o n : Nat} {w : Writing σ} :
    (writeStep card o n w).2.poller.sent = w.poller.sent ++ [writeApdu o (w.buffer.take n)] := by
  rw [writeStep]
  split <;> exact apduTrx_sent card

theorem forall_sent_concat {Within : List Byte → Prop} {sent : List (List Byte)}
    (h : ∀ apdu ∈ sent, Within apdu) (hlast : Within apdu) :
    ∀ apdu' ∈ sent ++ [apdu], Within apdu' := by
  intro apdu' hmem
  rcases mem_append.mp hmem with hmem | hmem
  · exact h apdu' hmem
  · exact mem_singleton.mp hmem ▸ hlast

end AnyCard

/-- A card that answers every READ with as many bytes as its length field says. -/
def obligingReader : Card Unit := fun _ apdu =>
  (.ok (List.replicate (apdu.getD 4 0).toNat 0 ++ statusSuccess), ())

def obligingWriter : Card Unit := fun _ _ => (.ok statusSuccess, ())

theorem apduTrx_ok {σ : Type} (card : Card σ) {p : Type4TagPoller σ} {apdu bytes : List Byte} {s : σ}
    (h : card p.card apdu = (.ok (bytes ++ statusSuccess), s)) :
    p.apduTrx card apdu = (.ok bytes, { p with card := s, sent := p.sent ++ [apdu] }) := by
  have hlen : (bytes ++ statusSuccess).length = bytes.length + 2 := length_append ..
  rw [apduTrx, h]
  dsimp only
  rw [if_neg (by omega), if_pos (by rw [hlen, Nat.add_sub_cancel, drop_left]), hlen,
    Nat.add_sub_cancel, take_left]

theorem readStep_obliging {o n : Nat} (hn : n ≤ 246) (r : Reading Unit) :
    (readStep obligingReader o n r).1 = none := by
  have hanswer : obligingReader r.poller.card (readApdu o n) =
      (.ok (List.replicate n 0 ++ statusSuccess), ()) := by
    rw [obligingReader]
    congr 4
    exact toNat_chunk hn
  rw [readStep, apduTrx_ok obligingReader hanswer]
  dsimp only
  rw [if_neg (not_not.mpr length_replicate)]

theorem writeStep_obliging {o n : Nat} (w : Writing Unit) :
    (writeStep obligingWriter o n w).1 = none ∧
      (writeStep obligingWriter o n w).2.buffer = w.buffer.drop n := by
  have hanswer : obligingWriter w.poller.card (writeApdu o (w.buffer.take n)) =
    (.ok ([] ++ statusSuccess), ()) := rfl
  rw [writeStep, apduTrx_ok obligingWriter hanswer]
  exact ⟨rfl, rfl⟩

theorem isoRead_bounded_iff (d : Data) (offset length limit : Nat) :
    (∀ (σ : Type) (card : Card σ) (s : σ), Bounded (ReadWithin d.readChunk offset limit)
      Reading.poller fun fuel => isoRead card fuel offset length ⟨d, s, []⟩) ↔
    length = 0 ∨ TooLarge d.readChunk offset length ∨
      (d.readChunk ≠ 0 ∧ offset + length ≤ limit) := by
  have hchunk := readChunk_le d
  have hnil : ∀ apdu ∈ ([] : List (List Byte)), ReadWithin d.readChunk offset limit apdu :=
    fun _ h => absurd h not_mem_nil
  by_cases hlarge : TooLarge d.readChunk offset length
  · refine iff_of_true (fun σ card s => ?_) (.inr (.inl hlarge))
    exact ⟨0, _, if_pos hlarge, hnil⟩
  by_cases hlength : length = 0
  · refine iff_of_true (fun σ card s => ?_) (.inl hlength)
    obtain rfl := hlength
    exact ⟨1, _, (if_neg hlarge).trans chunked_zero, hnil⟩
  have hend : offset + length ≤ 33011 := by
    have := Nat.le_of_not_lt hlarge
    omega
  constructor
  · intro h
    obtain ⟨fuel, done, hdone, hwithin⟩ := h Unit obligingReader ()
    replace hdone := (if_neg hlarge).symm.trans hdone
    by_cases hzero : d.readChunk = 0
    · -- the loop goes on without an end
      have hendless := @chunked_endless (Reading Unit) PollerError (readStep obligingReader) fuel
        offset length ⟨⟨d, (), []⟩, []⟩ (fun _ => True) hlength
        (fun r _ => ⟨readStep_obliging (Nat.zero_le _) r, trivial⟩) trivial
      rw [show Data.readChunk _ = 0 from hzero, hendless] at hdone
      exact absurd hdone.symm (Option.some_ne_none _)
    · -- the last chunk ends where the stretch ends
      refine .inr (.inr ⟨hzero, ?_⟩)
      obtain ⟨done', hdone', hiff, hreached⟩ := @chunked_spec _ _ (readStep obligingReader)
        d.readChunk (length + 1) offset length ⟨⟨d, (), []⟩, []⟩
        (fun o r => o ≠ offset → ∃ o' n, readApdu o' n ∈ r.poller.sent ∧ o' + n = o ∧ 0 < n ∧
          n ≤ 246) (fun _ => True) (offset + length) hzero
        (fun o n r _ hpos hn hlast => ⟨fun _ => ⟨readStep_obliging (by omega) r, fun _ =>
          ⟨o, n, by rw [readStep_sent]; exact mem_append_right _ mem_cons_self, rfl, hpos,
            by omega⟩⟩, fun h => absurd trivial h⟩)
        (Nat.lt_succ_self _) (Nat.le_refl _) (fun h => absurd rfl h)
      obtain rfl := chunked_unique hdone hdone'
      obtain ⟨o, n, hmem, hsum, hpos, hn⟩ := hreached (hiff.mpr fun _ _ => trivial) (by omega)
      have hlast := (hwithin _ hmem).reaches hpos hn (by omega)
      omega
  · rintro (h | h | ⟨hzero, hlimit⟩) σ card s
    · exact absurd h hlength
    · exact absurd h hlarge
    · obtain ⟨done, hdone⟩ := @chunked_ends _ _ (readStep card) d.readChunk (length + 1) offset length
        ⟨⟨d, s, []⟩, []⟩ hzero (Nat.lt_succ_self _)
      refine ⟨length + 1, done, (if_neg hlarge).trans hdone, ?_⟩
      refine @chunked_keeps _ _ (readStep card) d.readChunk (length + 1) offset length
        ⟨⟨d, s, []⟩, []⟩ (fun r => ∀ apdu ∈ r.poller.sent, ReadWithin d.readChunk offset limit apdu)
        offset (offset + length) done (fun o n r hfirst hn hpos hlast hr => ?_) (Nat.le_refl _)
        (Nat.le_refl _) hnil hdone
      rw [readStep_sent]
      exact forall_sent_concat hr
        (readApdu_within hfirst (by omega) (hpos hzero) hn hchunk (by omega))

theorem isoWrite_bounded_iff (d : Data) (offset : Nat) (buffer : List Byte) (limit : Nat) :
    (∀ (σ : Type) (card : Card σ) (s : σ), Bounded (WriteWithin d.writeChunk offset limit)
      Writing.poller fun fuel => isoWrite card fuel offset buffer ⟨d, s, []⟩) ↔
    buffer = [] ∨ TooLarge d.writeChunk offset buffer.length ∨
      (d.writeChunk ≠ 0 ∧ offset + buffer.length ≤ limit) := by
  have hchunk := writeChunk_le d
  have hnil : ∀ apdu ∈ ([] : List (List Byte)), WriteWithin d.writeChunk offset limit apdu :=
    fun _ h => absurd h not_mem_nil
  by_cases hlarge : TooLarge d.writeChunk offset buffer.length
  · refine iff_of_true (fun σ card s => ?_) (.inr (.inl hlarge))
    exact ⟨0, _, if_pos hlarge, hnil⟩
  by_cases hempty : buffer = []
  · refine iff_of_true (fun σ card s => ?_) (.inl hempty)
    obtain rfl := hempty
    exact ⟨1, _, (if_neg hlarge).trans chunked_zero, hnil⟩
  have hlength : buffer.length ≠ 0 := fun h => hempty (length_eq_zero_iff.mp h)
  have hend : offset + buffer.length ≤ 33011 := by
    have := Nat.le_of_not_lt hlarge
    omega
  constructor
  · intro h
    -- a card that takes everything shows how far the writes reach
    obtain ⟨fuel, done, hdone, hwithin⟩ := h Unit obligingWriter ()
    replace hdone := (if_neg hlarge).symm.trans hdone
    by_cases hzero : d.writeChunk = 0
    · have hendless := @chunked_endless (Writing Unit) PollerError (writeStep obligingWriter) fuel
        offset buffer.length ⟨⟨d, (), []⟩, buffer⟩ (fun _ => True) hlength
        (fun w _ => ⟨(writeStep_obliging w).1, trivial⟩) trivial
      rw [show Data.writeChunk _ = 0 from hzero, hendless] at hdone
      exact absurd hdone.symm (Option.some_ne_none _)
    · refine .inr (.inr ⟨hzero, ?_⟩)
      let reached : Nat → Writing Unit → Prop := fun o w =>
        o + w.buffer.length = offset + buffer.length ∧ (o ≠ offset →
          ∃ o' data, writeApdu o' data ∈ w.poller.sent ∧ o' + data.length = o)
      have hstep : ∀ o n w, reached o w → o + n ≤ offset + buffer.length →
          (writeStep obligingWriter o n w).1 = none ∧
            reached (o + n) (writeStep obligingWriter o n w).2 := by
        intro o n w hw hlast
        obtain ⟨hnone, hdrop⟩ := @writeStep_obliging o n w
        have hlen : o + w.buffer.length = offset + buffer.length := hw.1
        have htake : (w.buffer.take n).length = n := by
          rw [length_take]
          omega
        refine ⟨hnone, ?_, fun _ => ⟨o, w.buffer.take n, ?_, congrArg (o + ·) htake⟩⟩
        · rw [hdrop, length_drop]
          omega
        · rw [writeStep_sent]
          exact mem_append_right _ mem_cons_self
      obtain ⟨done', hdone', hiff, hreached⟩ := @chunked_spec _ _ (writeStep obligingWriter)
        d.writeChunk (buffer.length + 1) offset buffer.length ⟨⟨d, (), []⟩, buffer⟩ reached
        (fun _ => True) (offset + buffer.length) hzero
        (fun o n w hw _ _ hlast => ⟨fun _ => hstep o n w hw hlast, fun h => absurd trivial h⟩)
        (Nat.lt_succ_self _) (Nat.le_refl _) ⟨rfl, fun h => absurd rfl h⟩
      obtain rfl := chunked_unique hdone hdone'
      obtain ⟨o, data, hmem, hsum⟩ := (hreached (hiff.mpr fun _ _ => trivial)).2 (by omega)
      have hlast := (hwithin _ hmem).reaches (by omega)
      omega
  · rintro (h | h | ⟨hzero, hlimit⟩) σ card s
    · exact absurd h hempty
    · exact absurd h hlarge
    · obtain ⟨done, hdone⟩ := @chunked_ends _ _ (writeStep card) d.writeChunk (buffer.length + 1)
        offset buffer.length ⟨⟨d, s, []⟩, buffer⟩ hzero (Nat.lt_succ_self _)
      refine ⟨buffer.length + 1, done, (if_neg hlarge).trans hdone, ?_⟩
      refine @chunked_keeps _ _ (writeStep card) d.writeChunk (buffer.length + 1) offset buffer.length
        ⟨⟨d, s, []⟩, buffer⟩
        (fun w => ∀ apdu ∈ w.poller.sent, WriteWithin d.writeChunk offset limit apdu)
        offset (offset + buffer.length) done (fun o n w hfirst hn hpos hlast hw => ?_) (Nat.le_refl _)
        (Nat.le_refl _) hnil hdone
      have htake : (w.buffer.take n).length ≤ n := by
        rw [length_take]
        omega
      have hpos' := hpos hzero
      rw [writeStep_sent]
      exact forall_sent_concat hw (writeApdu_within hfirst (by omega) (by omega) hchunk (by omega))

end Type4TagPoller

end NikitaFirmware.Type4Tag
