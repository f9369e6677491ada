import Mathlib.Algebra.GroupWithZero.Nat
import NikitaFirmware.Foundations.Bytes
import NikitaFirmware.Toolbox.Path

/-!
# Reading a tar archive

What the extraction of an archive uses of `lib/microtar/src/microtar.c`, over the stream functions
of `lib/toolbox/tar/tar_archive.c`. -/

namespace NikitaFirmware.Tar

open Foundations List

abbrev MTAR_ESUCCESS : Int := 0
abbrev MTAR_EFAILURE : Int := -1
abbrev MTAR_EREADFAIL : Int := -3
abbrev MTAR_EBADCHKSUM : Int := -7
abbrev MTAR_ENULLRECORD : Int := -8
abbrev MTAR_ENOTFOUND : Int := -9
abbrev MTAR_EOVERFLOW : Int := -10
abbrev MTAR_EAPI : Int := -11
abbrev MTAR_EACCESS : Int := -14

abbrev HEADER_LEN : Nat := 512

abbrev UINT_MAX : Nat := 4294967295

def field (raw : Bytes) (off len : Nat) : Bytes := (raw.drop off).take len

def parseOctalFrom : Nat → Bytes → Except Int Nat
  | n, [] => .ok n
  | n, c :: str =>
    if c = 0 then .ok n
    else if c < 48 ∨ 57 < c then .error MTAR_EOVERFLOW
    else if UINT_MAX / 8 < n then .error MTAR_EOVERFLOW
    else if UINT_MAX - (c.toNat - 48) < n * 8 then .error MTAR_EOVERFLOW
    else parseOctalFrom (n * 8 + (c.toNat - 48)) str

def parseOctal (str : Bytes) : Except Int UInt32 :=
  (parseOctalFrom 0 str).map UInt32.ofNat

/-- The sum of a header whose checksum is taken as blanks. -/
def checksum (raw : Bytes) : UInt32 :=
  UInt32.ofNat (256 + ((field raw 0 148 ++ field raw 156 (HEADER_LEN - 156)).map UInt8.toNat).sum)

inductive MtarType
  | reg
  | dir
  | other
deriving DecidableEq

structure MtarHeader where
  mode : UInt32
  owner : UInt32
  group : UInt32
  size : UInt32
  mtime : UInt32
  type : MtarType
  name : Bytes

/-- `MTAR_TREG` is '0', and a type of zero stands for it, `MTAR_TDIR` is '5'. -/
def mtarType (b : UInt8) : MtarType :=
  if b = 0 ∨ b = 48 then .reg else if b = 53 then .dir else .other

def rawToHeader (raw : Bytes) : Except Int MtarHeader :=
  if raw.getD 148 0 = 0 then .error MTAR_ENULLRECORD
  else do
    let chksum ← parseOctal (field raw 148 8)
    if chksum ≠ checksum raw then .error MTAR_EBADCHKSUM
    else do
      let mode ← parseOctal (field raw 100 8)
      let owner ← parseOctal (field raw 108 8)
      let group ← parseOctal (field raw 116 8)
      let size ← parseOctal (field raw 124 12)
      let mtime ← parseOctal (field raw 136 12)
      .ok ⟨mode, owner, group, size, mtime, mtarType (raw.getD 156 0), cstr (field raw 0 100)⟩

/-- What a stream function for reading returns, with the bytes that it has read. -/
structure ReadResult (σ : Type) where
  ret : Int
  data : Bytes
  stream : σ

/-- The stream of an archive: what it holds, and what is left of that from the position on. A read
gives the number of the bytes that were read, up to the request, or a negative `int`, and a seek
gives zero or a negative error. -/
structure ArchiveStream (σ : Type) where
  content : Bytes
  rest : σ → Bytes
  read : σ → Nat → ReadResult σ
  seek : σ → UInt32 → Int × σ
  data_fits : ∀ s n, (read s n).data.length ≤ n
  read_gives : ∀ s n, ((read s n).ret < 0 ∧ -2147483648 ≤ (read s n).ret) ∨
    ((read s n).ret = (read s n).data.length ∧ rest s = (read s n).data ++ rest (read s n).stream)
  seek_goes : ∀ s n, (seek s n).1 < 0 ∨
    ((seek s n).1 = 0 ∧ rest (seek s n).2 = content.drop n.toNat)

theorem take_append_drop_behind (content : Bytes) (pos size : Nat) :
    content.drop pos = (content.drop pos).take size ++
      content.drop (pos + ((content.drop pos).take size).length) := by
  rw [← drop_drop, length_take]
  rcases Nat.le_total size (content.drop pos).length with hle | hle
  · rw [Nat.min_eq_left hle, take_append_drop]
  · rw [Nat.min_eq_right hle, drop_length, take_of_length_le hle, append_nil]

def filesystemOps (content : Bytes) : ArchiveStream Nat where
  content := content
  rest pos := content.drop pos
  read pos size :=
    ⟨if ((content.drop pos).take size).length = size then size else MTAR_EREADFAIL,
      (content.drop pos).take size, pos + ((content.drop pos).take size).length⟩
  seek _ offset := (MTAR_ESUCCESS, min offset.toNat content.length)
  data_fits _ _ := length_take_le _ _
  read_gives pos size := by
    dsimp only
    split
    case isTrue h =>
      exact Or.inr ⟨congrArg Nat.cast h.symm, take_append_drop_behind content pos size⟩
    case isFalse h => exact Or.inl (by decide)
  seek_goes _ offset := by
    refine Or.inr ⟨rfl, ?_⟩
    rcases Nat.le_total offset.toNat content.length with hle | hle
    · rw [Nat.min_eq_left hle]
    · rw [Nat.min_eq_right hle, drop_length, drop_eq_nil_of_le hle]

inductive MtarAccess
  | read
  | write
deriving DecidableEq

structure Mtar (σ : Type) where
  headerValid : Bool
  access : MtarAccess
  pos : UInt32
  endPos : UInt32
  headerPos : UInt32
  header : MtarHeader
  stream : σ

section Archive
variable {σ : Type} (ops : ArchiveStream σ)

def roundUp512 (n : UInt32) : UInt32 := (n + 511) &&& ~~~511

def tread (tar : Mtar σ) (size : Nat) : Int × Bytes × Mtar σ :=
  let r := ops.read tar.stream size
  (r.ret, r.data, { tar with
      pos := if 0 ≤ r.ret then tar.pos + UInt32.ofNat r.ret.toNat else tar.pos
      stream := r.stream })

def tseek (tar : Mtar σ) (pos : UInt32) : Int × Mtar σ :=
  let r := ops.seek tar.stream pos
  (r.1, { tar with pos := pos, stream := r.2 })

def ensureHeader (tar : Mtar σ) : Int × Mtar σ :=
  if tar.headerValid then (MTAR_ESUCCESS, tar)
  else if UINT_MAX - HEADER_LEN < tar.pos.toNat then (MTAR_EOVERFLOW, tar)
  else
    let start : Mtar σ := { tar with headerPos := tar.pos, endPos := tar.pos + 512 }
    let r := tread ops start HEADER_LEN
    if r.1 < 0 then (r.1, r.2.2)
    else if r.1 ≠ HEADER_LEN then (MTAR_EREADFAIL, r.2.2)
    else
      match rawToHeader r.2.1 with
      | .error err => (err, r.2.2)
      | .ok header =>
        if UINT_MAX - header.size.toNat < r.2.2.endPos.toNat then
          (MTAR_EOVERFLOW, { r.2.2 with header := header })
        else
          (MTAR_ESUCCESS, { r.2.2 with
            header := header, endPos := r.2.2.endPos + header.size, headerValid := true })

def mtarRewind (tar : Mtar σ) : Int × Mtar σ :=
  if tar.access ≠ .read then (MTAR_EAPI, tar)
  else
    let r := tseek ops tar 0
    (r.1, { r.2 with headerValid := false })

def mtarNext (tar : Mtar σ) : Int × Mtar σ :=
  if tar.access ≠ .read then (MTAR_EACCESS, tar)
  else if tar.headerValid then
    let r := tseek ops { tar with headerValid := false } (roundUp512 tar.endPos)
    if r.1 ≠ 0 then r else ensureHeader ops r.2
  else ensureHeader ops tar

def mtarEofData (tar : Mtar σ) : Bool :=
  if tar.headerValid then tar.endPos ≤ tar.pos else true

def mtarReadData (tar : Mtar σ) (size : Nat) : Int × Bytes × Mtar σ :=
  if !tar.headerValid then (MTAR_EAPI, [], tar)
  else if tar.endPos ≤ tar.pos then (0, [], tar)
  else tread ops tar (min (tar.endPos - tar.pos).toNat size)

end Archive

open Toolbox.Path

/-- A file that was created: its path, where its data is in the archive, and its content, with no
byte for a byte that was in memory when it was written but was not read from the archive. -/
structure OutFile where
  path : FuriString
  dataPos : UInt32
  size : UInt32
  content : List (Option UInt8)

/-- How many times a file or a directory was asked for, and how many bytes there is room for. -/
structure Space where
  requests : Nat
  room : Nat

/-- The storage that is written to, with the files that were created. -/
structure Disk where
  space : Space
  files : List OutFile

/-- What the storage answers each time a file or a directory is asked for: no, or the room that
there is behind it. -/
abbrev Storage := Nat → Option Nat

/-- `storage_file_write`, for a number of bytes on a storage with some room. -/
def storageFileWrite (toWrite room : Nat) : Nat :=
  let chunk := min toWrite 65535
  let written := min chunk room
  if written ≠ chunk ∨ toWrite ≤ 65535 then written
  else written + storageFileWrite (toWrite - chunk) (room - chunk)
termination_by toWrite

theorem storageFileWrite_eq (toWrite room : Nat) :
    storageFileWrite toWrite room = min toWrite room := by
  fun_induction storageFileWrite toWrite room with
  | case1 toWrite room chunk written h => omega
  | case2 toWrite room chunk written h ih => omega

theorem room_after_write {toWrite room : Nat} (h : ¬ storageFileWrite toWrite room = 0) :
    room - storageFileWrite toWrite room < room := by
  rw [storageFileWrite_eq] at h ⊢
  omega

/-- The bytes of a write from `readbuf`, of which a read has filled the first ones. -/
def readbufCells (data : Bytes) (n : Nat) : List (Option UInt8) :=
  data.map some ++ List.replicate (n - data.length) none

def writeLength (readcnt : Int) : Nat := (readcnt % 4294967296).toNat

abbrev FILE_BLOCK_SIZE : Nat := 512

variable {σ : Type} (ops : ArchiveStream σ) (storage : Storage)

/-- A file while it is written: the archive, the content and the room that is left. -/
structure Extraction (σ : Type) where
  success : Bool
  tar : Mtar σ
  content : List (Option UInt8)
  room : Nat

/-- The loop of `archive_extract_current_file`. -/
def extractBlocks (tar : Mtar σ) (content : List (Option UInt8)) (room : Nat) : Extraction σ :=
  if mtarEofData tar then ⟨true, tar, content, room⟩
  else
    let r := mtarReadData ops tar FILE_BLOCK_SIZE
    if r.1 = 0 then ⟨false, r.2.2, content, room⟩
    else
      let written := storageFileWrite (writeLength r.1) room
      if _h : written = 0 then ⟨false, r.2.2, content, room⟩
      else
        extractBlocks r.2.2 (content ++ readbufCells (r.2.1.take written) written) (room - written)
termination_by room
decreasing_by exact room_after_write _h

/-- A file or a directory is asked for. -/
def request (space : Space) : Bool × Space :=
  match storage space.requests with
  | some room => (true, ⟨space.requests + 1, room⟩)
  | none => (false, ⟨space.requests + 1, space.room⟩)

def openTries : Nat → Space → Bool × Space
  | 0, space => (false, space)
  | nTries + 1, space =>
    let r := request storage space
    if r.1 then (true, r.2) else openTries nTries r.2

def FILE_OPEN_NTRIES : Nat := 10

def archiveExtractCurrentFile (tar : Mtar σ) (dstPath : FuriString) (disk : Disk) :
    Bool × Mtar σ × Disk :=
  let o := openTries storage FILE_OPEN_NTRIES disk.space
  if !o.1 then (false, tar, { disk with space := o.2 })
  else
    let e := extractBlocks ops tar [] o.2.room
    (e.success, e.tar, ⟨⟨o.2.requests, e.room⟩,
      disk.files ++ [⟨dstPath, tar.pos, tar.header.size, e.content⟩]⟩)

/-- What `tar_archive_unpack_to` is called with, and the filter of the archive. -/
structure UnpackParams where
  workDir : FuriString
  converter : Option (FuriString → FuriString)
  unpackCb : Option (Bytes → Bool → Bool)

def nameString (name : Bytes) : FuriString := name.map fun b => Char.ofNat b.toNat

def UnpackParams.skips (params : UnpackParams) (header : MtarHeader) : Bool :=
  match params.unpackCb with
  | none => false
  | some unpackCb => !unpackCb header.name (header.type = .dir)

def UnpackParams.filePath (params : UnpackParams) (header : MtarHeader) : FuriString :=
  pathConcat params.workDir (params.converter.getD id (nameString header.name))

def archiveExtractForeachCb (params : UnpackParams) (tar : Mtar σ) (disk : Disk) :
    Int × Mtar σ × Disk :=
  if params.skips tar.header then (0, tar, disk)
  else
    match tar.header.type with
    | .dir =>
      if tar.header.name = ascii "/" then (0, tar, disk)
      else
        let m := request storage disk.space
        (if m.1 then 0 else -1, tar, { disk with space := m.2 })
    | .other => (0, tar, disk)
    | .reg =>
      let e := archiveExtractCurrentFile ops storage tar (params.filePath tar.header) disk
      (if e.1 then 0 else MTAR_EFAILURE, e.2)

def foreachLoop {S : Type} (cb : Mtar σ → S → Int × Mtar σ × S) :
    Nat → Mtar σ → S → Option Int × Mtar σ × S
  | 0, tar, s => (none, tar, s)
  | fuel + 1, tar, s =>
    let next := mtarNext ops tar
    if next.1 ≠ MTAR_ESUCCESS then
      (some (if next.1 = MTAR_ENULLRECORD then MTAR_ESUCCESS else next.1), next.2, s)
    else
      let c := cb next.2 s
      if c.1 ≠ 0 then (some c.1, c.2) else foreachLoop cb fuel c.2.1 c.2.2

def mtarForeach {S : Type} (cb : Mtar σ → S → Int × Mtar σ × S) (fuel : Nat) (tar : Mtar σ)
    (s : S) : Option Int × Mtar σ × S :=
  if tar.access ≠ .read then (some MTAR_EACCESS, tar, s)
  else
    let r := mtarRewind ops tar
    if r.1 ≠ 0 then (some r.1, r.2, s) else foreachLoop ops cb fuel r.2 s

def tarArchiveUnpackTo (params : UnpackParams) (fuel : Nat) (tar : Mtar σ) (disk : Disk) :
    Option Bool × Disk :=
  let r := mtarForeach ops (archiveExtractForeachCb ops storage params) fuel tar disk
  (r.1.map (· = MTAR_ESUCCESS), r.2.2)

def findForeachCb (name : Bytes) (tar : Mtar σ) (_ : Unit) : Int × Mtar σ × Unit :=
  (if tar.header.name = name then 1 else 0, tar, ())

def mtarFind (name : Bytes) (fuel : Nat) (tar : Mtar σ) : Option Int × Mtar σ :=
  let r := mtarForeach ops (findForeachCb name) fuel tar ()
  (r.1.map fun err => if err = 1 then MTAR_ESUCCESS
    else if err = MTAR_ESUCCESS then MTAR_ENOTFOUND else err, r.2.1)

def tarArchiveUnpackFile (archiveFname : Bytes) (destination : FuriString) (fuel : Nat)
    (tar : Mtar σ) (disk : Disk) : Option Bool × Disk :=
  let f := mtarFind ops archiveFname fuel tar
  match f.1 with
  | none => (none, disk)
  | some err =>
    if err ≠ MTAR_ESUCCESS then (some false, disk)
    else
      let e := archiveExtractCurrentFile ops storage f.2 destination disk
      (some e.1, e.2.2)

end NikitaFirmware.Tar
