import NikitaFirmware.Elf.Relocation
import NikitaFirmware.Foundations.LocalUpdates
import NikitaFirmware.Foundations.Bytes

/-!
# What a relocation does to memory

A relocation reads and writes the four bytes at its place only, if the trampoline to a symbol is
always at the same place.
-/

namespace NikitaFirmware.Elf

open Foundations List Option

def RelocType.supported : RelocType → Bool
  | .other _ => false
  | _ => true

/-- The four bytes of a relocation. -/
def wordPlaces (a : Addr) : Set Addr := {b | b = a ∨ b = a + 1 ∨ b = a + 2 ∨ b = a + 2 + 1}

theorem not_mem_wordPlaces {a b : Addr} :
    b ∉ wordPlaces a ↔ b ≠ a ∧ b ≠ a + 1 ∧ b ≠ a + 2 ∧ b ≠ a + 2 + 1 := by
  refine not_or.trans (and_congr_right fun _ => ?_)
  exact not_or.trans (and_congr_right fun _ => not_or)

namespace Memory
variable {m m' : Memory} {a b : Addr}

theorem write16_outside (x : Half) (h : b ≠ a) (h' : b ≠ a + 1) : m.write16 a x b = m b := by
  rw [write16_apply, if_neg h, if_neg h']

theorem writeInsn_outside (hi lo : Half) (h : b ∉ wordPlaces a) : m.writeInsn a hi lo b = m b := by
  obtain ⟨h0, h1, h2, h3⟩ := not_mem_wordPlaces.mp h
  rw [writeInsn, write16_outside _ h2 h3, write16_outside _ h0 h1]

theorem writeInsn_inside (hi lo : Half) (h : b ∈ wordPlaces a) :
    m.writeInsn a hi lo b = m'.writeInsn a hi lo b := by
  simp only [writeInsn, write16_apply]
  split
  · rfl
  · split
    · rfl
    · split
      · rfl
      · split
        · rfl
        · rcases h with h | h | h | h <;> contradiction

theorem read16_congr (h : ∀ b ∈ wordPlaces a, m b = m' b) :
    m.read16 a = m'.read16 a ∧ m.read16 (a + 2) = m'.read16 (a + 2) := by
  rw [read16, read16, read16, read16, h a (.inl rfl), h (a + 1) (.inr (.inl rfl)),
    h (a + 2) (.inr (.inr (.inl rfl))), h (a + 2 + 1) (.inr (.inr (.inr rfl)))]
  exact ⟨rfl, rfl⟩

theorem localUpdate_writeInsn (a : Addr) (hi lo : Half → Half → Half) :
    LocalUpdate (wordPlaces a) fun m : Memory =>
      m.writeInsn a (hi (m.read16 a) (m.read16 (a + 2))) (lo (m.read16 a) (m.read16 (a + 2))) := by
  refine ⟨fun m b hb => writeInsn_outside _ _ hb, fun m m' hm b hb => ?_⟩
  obtain ⟨hlow, hhigh⟩ := read16_congr hm
  rw [hlow, hhigh]
  exact writeInsn_inside _ _ hb

end Memory

def Trampolines.none : Trampolines := ⟨[], [], fun _ h => absurd h not_mem_nil⟩

def Trampolines.Placed (place : Addr → Allocated) (t : Trampolines) : Prop :=
  ∀ entry ∈ t.cache, entry.2 = place entry.1

def relocated (place : Addr → Allocated) (m : Memory) (relAddr : Addr) (type : RelocType)
    (symAddr : Addr) : Memory :=
  (relocateSymbol (place symAddr) ⟨m, .none⟩ relAddr type symAddr).2.memory

section Placed
variable {place : Addr → Allocated} {t : Trampolines}

theorem find_placed (h : t.Placed place) (symAddr : Addr) :
    (t.find (place symAddr) symAddr).1 = place symAddr ∧
      (t.find (place symAddr) symAddr).2.Placed place := by
  rw [Trampolines.find]
  cases hfound : t.cache.lookup symAddr with
  | none => exact ⟨rfl, forall_mem_cons.mpr ⟨rfl, h⟩⟩
  | some found =>
    obtain ⟨l₁, l₂, heq, -⟩ := lookup_eq_some_iff.mp hfound
    refine ⟨h (symAddr, found) ?_, h⟩
    rw [heq]
    exact mem_append_right _ mem_cons_self

theorem none_placed : Trampolines.none.Placed place :=
  fun _ h => absurd h not_mem_nil

theorem relocateJmpCall_placed (h : t.Placed place) (relAddr : Addr) (type : RelocType)
    (symAddr : Addr) (hi lo : Half) :
    (relocateJmpCall t (place symAddr) relAddr type symAddr hi lo).hi =
        (relocateJmpCall .none (place symAddr) relAddr type symAddr hi lo).hi ∧
      (relocateJmpCall t (place symAddr) relAddr type symAddr hi lo).lo =
        (relocateJmpCall .none (place symAddr) relAddr type symAddr hi lo).lo ∧
      (relocateJmpCall t (place symAddr) relAddr type symAddr hi lo).trampolines.Placed place := by
  obtain ⟨hfound, hplaced⟩ := find_placed h symAddr
  obtain ⟨hnone, -⟩ := find_placed (@none_placed place) symAddr
  simp only [relocateJmpCall, hfound, hnone]
  -- to Arm code or to Thumb code, and with a trampoline or without
  split
  · split
    · exact ⟨rfl, rfl, hplaced⟩
    · exact ⟨rfl, rfl, h⟩
  · split
    · exact ⟨rfl, rfl, hplaced⟩
    · exact ⟨rfl, rfl, h⟩

theorem relocateSymbol_placed (m : Memory) (h : t.Placed place) (relAddr : Addr) (type : RelocType)
    (symAddr : Addr) :
    (relocateSymbol (place symAddr) ⟨m, t⟩ relAddr type symAddr).1 = type.supported ∧
      (relocateSymbol (place symAddr) ⟨m, t⟩ relAddr type symAddr).2.memory =
        relocated place m relAddr type symAddr ∧
      (relocateSymbol (place symAddr) ⟨m, t⟩ relAddr type symAddr).2.trampolines.Placed place := by
  obtain ⟨hhi, hlo, hplaced⟩ := relocateJmpCall_placed h relAddr type symAddr (m.read16 relAddr)
    (m.read16 (relAddr + 2))
  cases type
  case thmPc22 | call | thmJump24 =>
    refine ⟨rfl, ?_, hplaced⟩
    simp only [relocated, relocateSymbol, hhi, hlo]
  all_goals exact ⟨rfl, rfl, h⟩

/-- A relocation reads and writes its own word only, so relocations of disjoint words commute. -/
theorem relocated_local (place : Addr → Allocated) (relAddr : Addr) (type : RelocType)
    (symAddr : Addr) :
    LocalUpdate (wordPlaces relAddr) fun m => relocated place m relAddr type symAddr := by
  cases type
  case other n => exact LocalUpdate.id _
  case abs32 | target1 =>
    exact Memory.localUpdate_writeInsn relAddr
      (fun hi lo => ((lo ++ hi : BitVec 32) + symAddr).extractLsb' 0 16)
      fun hi lo => ((lo ++ hi : BitVec 32) + symAddr).extractLsb' 16 16
  case rel32 =>
    exact Memory.localUpdate_writeInsn relAddr
      (fun hi lo => ((lo ++ hi : BitVec 32) + (symAddr - relAddr)).extractLsb' 0 16)
      fun hi lo => ((lo ++ hi : BitVec 32) + (symAddr - relAddr)).extractLsb' 16 16
  case thmMovwAbsNc =>
    exact Memory.localUpdate_writeInsn relAddr
      (fun hi lo => (relocateMov .thmMovwAbsNc symAddr hi lo).1)
      fun hi lo => (relocateMov .thmMovwAbsNc symAddr hi lo).2
  case thmMovtAbs =>
    exact Memory.localUpdate_writeInsn relAddr
      (fun hi lo => (relocateMov .thmMovtAbs symAddr hi lo).1)
      fun hi lo => (relocateMov .thmMovtAbs symAddr hi lo).2
  case thmPc22 =>
    exact Memory.localUpdate_writeInsn relAddr
      (fun hi lo => (relocateJmpCall .none (place symAddr) relAddr .thmPc22 symAddr hi lo).hi)
      fun hi lo => (relocateJmpCall .none (place symAddr) relAddr .thmPc22 symAddr hi lo).lo
  case call =>
    exact Memory.localUpdate_writeInsn relAddr
      (fun hi lo => (relocateJmpCall .none (place symAddr) relAddr .call symAddr hi lo).hi)
      fun hi lo => (relocateJmpCall .none (place symAddr) relAddr .call symAddr hi lo).lo
  case thmJump24 =>
    exact Memory.localUpdate_writeInsn relAddr
      (fun hi lo => (relocateJmpCall .none (place symAddr) relAddr .thmJump24 symAddr hi lo).hi)
      fun hi lo => (relocateJmpCall .none (place symAddr) relAddr .thmJump24 symAddr hi lo).lo

end Placed

def byteAt (b : Bytes) (i : Nat) : BitVec 8 := (b.getD i 0).toBitVec

def half16 (b : Bytes) (i : Nat) : BitVec 16 := byteAt b (i + 1) ++ byteAt b i

def word32 (b : Bytes) (i : Nat) : BitVec 32 := half16 b (i + 2) ++ half16 b i

/-- What the loader has of an application: the file, where its tables are, and the API. -/
structure ELFFile where
  fd : Bytes
  sectionTable : Nat
  sectionTableStrings : Nat
  symbolTable : Nat
  symbolTableStrings : Nat
  resolverCallback : BitVec 32 → Option Addr

def invalidAddress : Addr := 0xFFFFFFFF

/-- `ELFSection`. `fastRel` is the memory that `fast_rel->data` points to, if there is any. -/
structure ELFSection where
  data : Addr
  relCount : Nat
  relOffset : Nat
  fastRel : Option (Nat → BitVec 8)
  secIdx : BitVec 16

/-- The sections by their names, in the order of the dictionary. -/
abbrev Sections := List (Bytes × ELFSection)

namespace ELFFile
variable (elf : ELFFile)

/-- So many bytes of the file from an offset on, unless it ends before. -/
def readAt (offset size : Nat) : Option Bytes :=
  let b := (elf.fd.drop (offset % 4294967296)).take size
  if b.length = size then some b else none

/-- `elf_read_string_from_offset`, unless the string does not end in the file. -/
def readString (offset : Nat) : Option Bytes :=
  let rest := elf.fd.drop (offset % 4294967296)
  if (0 : UInt8) ∈ rest then some (cstr rest) else none

def readSection (sectionIdx : Nat) : Option Bytes :=
  match elf.readAt (elf.sectionTable + sectionIdx * 40) 40 with
  | none => none
  | some sectionHeader =>
    let shName := word32 sectionHeader 0
    if shName = 0 then some [] else elf.readString (elf.sectionTableStrings + shName.toNat)

end ELFFile

structure Sym where
  stName : BitVec 32
  stValue : Addr
  stShndx : BitVec 16

def ELFFile.readSymbol (elf : ELFFile) (n : Nat) : Option (Sym × Bytes) :=
  match elf.readAt (elf.symbolTable + n * 16) 16 with
  | none => none
  | some b =>
    let sym : Sym := ⟨word32 b 0, word32 b 4, half16 b 14⟩
    let name := if sym.stName = 0 then elf.readSection sym.stShndx.toNat
      else elf.readString (elf.symbolTableStrings + sym.stName.toNat)
    name.map fun name => (sym, name)

structure Rel where
  rOffset : Addr
  rInfo : BitVec 32

def Rel.symEntry (rel : Rel) : Nat := (rel.rInfo >>> 8).toNat

def Rel.relType (rel : Rel) : Nat := (rel.rInfo &&& 0xff).toNat

def ELFFile.readRel (elf : ELFFile) (offset : Nat) : Option Rel :=
  (elf.readAt offset 8).map fun b => ⟨word32 b 0, word32 b 4⟩

def relocType (n : Nat) : RelocType :=
  if n = 2 then .abs32
  else if n = 3 then .rel32
  else if n = 10 then .thmPc22
  else if n = 28 then .call
  else if n = 30 then .thmJump24
  else if n = 38 then .target1
  else if n = 47 then .thmMovwAbsNc
  else if n = 48 then .thmMovtAbs
  else .other n

def elfSymbolnameHash (s : Bytes) : BitVec 32 :=
  s.foldl (fun h c => (h <<< 5) + h + c.toBitVec.setWidth 32) 0x1505

def sectionOf (sections : Sections) (index : Nat) : Option ELFSection :=
  (sections.find? fun s => s.2.secIdx.toNat = index).map Prod.snd

def ELFFile.addressOfByHash (elf : ELFFile) (hash : BitVec 32) : Addr :=
  (elf.resolverCallback hash).getD invalidAddress

def ELFFile.addressOf (elf : ELFFile) (sections : Sections) (sym : Sym) (sName : Bytes) : Addr :=
  if sym.stShndx = 0 then elf.addressOfByHash (elfSymbolnameHash sName)
  else
    match sectionOf sections sym.stShndx.toNat with
    | some symSec => symSec.data + sym.stValue
    | none => invalidAddress

/-- `relocation_cache`: the addresses of symbols that were looked up. -/
structure AddressCache (elf : ELFFile) (sections : Sections) where
  entries : List (Nat × Addr)
  valid : ∀ entry ∈ entries, ∃ symbol, elf.readSymbol entry.1 = some symbol ∧
    entry.2 = elf.addressOf sections symbol.1 symbol.2

/-- The address of a symbol and the cache with it, unless the symbol can not be read. -/
def AddressCache.get {elf : ELFFile} {sections : Sections} (cache : AddressCache elf sections)
    (symEntry : Nat) : Option (Addr × AddressCache elf sections) :=
  match cache.entries.lookup symEntry with
  | some symAddr => some (symAddr, cache)
  | none =>
    match hsymbol : elf.readSymbol symEntry with
    | none => none
    | some symbol =>
      some (elf.addressOf sections symbol.1 symbol.2,
        { entries := (symEntry, elf.addressOf sections symbol.1 symbol.2) :: cache.entries
          valid := forall_mem_cons.mpr ⟨⟨symbol, hsymbol, rfl⟩, cache.valid⟩ })

section Relocation
variable (place : Addr → Allocated) (elf : ELFFile) (sections : Sections) (s : ELFSection)

def relocateLoop : Nat → Nat → Bool → Loaded → AddressCache elf sections →
    Bool × Loaded × AddressCache elf sections
  | 0, _, relocateResult, l, cache => (relocateResult, l, cache)
  | n + 1, relCount, relocateResult, l, cache =>
    match elf.readRel (s.relOffset + relCount * 8) with
    | none => (false, l, cache)
    | some rel =>
      match cache.get rel.symEntry with
      | none => (false, l, cache)
      | some (symAddr, cache) =>
        if symAddr ≠ invalidAddress then
          let r := relocateSymbol (place symAddr) l (s.data + rel.rOffset) (relocType rel.relType)
            symAddr
          relocateLoop n (relCount + 1) (relocateResult && r.1) r.2 cache
        else relocateLoop n (relCount + 1) false l cache

def relocate (l : Loaded) (cache : AddressCache elf sections) :
    Bool × Loaded × AddressCache elf sections :=
  if s.data ≠ 0 then relocateLoop place elf sections s s.relCount 0 true l cache
  else (false, l, cache)

def memWord (rel : Nat → BitVec 8) (start : Nat) : BitVec 32 :=
  (rel (start + 3) ++ rel (start + 2)) ++ (rel (start + 1) ++ rel start)

def fastOffsets (rel : Nat → BitVec 8) (type : RelocType) (address : Addr) :
    Nat → Nat → Loaded → Loaded
  | 0, _, l => l
  | n + 1, start, l =>
    let offset := memWord rel start &&& 0x00FFFFFF
    fastOffsets rel type address n (start + 3)
      (relocateSymbol (place address) l (s.data + offset) type address).2

/-- The address of a record, with the value that follows the index of a section. -/
def fastRecordAddress (isSection : Bool) (hashOrSectionIndex sectionValue : BitVec 32) : Addr :=
  if isSection then
    match sectionOf sections hashOrSectionIndex.toNat with
    | some symSec => symSec.data + sectionValue
    | none => 0
  else elf.addressOfByHash hashOrSectionIndex

def fastRecords (rel : Nat → BitVec 8) : Nat → Nat → Bool → Loaded → Bool × Loaded
  | 0, _, noErrors, l => (noErrors, l)
  | n + 1, start, noErrors, l =>
    let isSection : Bool := rel start &&& 0x80 ≠ 0
    let type := (rel start &&& 0x7F).toNat
    let hashOrSectionIndex := memWord rel (start + 1)
    let sectionValue := memWord rel (start + 5)
    let start := if isSection then start + 9 else start + 5
    let offsetsCount := (memWord rel start).toNat
    let address := fastRecordAddress elf sections isSection hashOrSectionIndex sectionValue
    if address = invalidAddress then
      fastRecords rel n (start + 4 + 3 * offsetsCount) false l
    else
      fastRecords rel n (start + 4 + 3 * offsetsCount) noErrors
        (fastOffsets place s rel (relocType type) address offsetsCount (start + 4) l)

def relocateFast (rel : Nat → BitVec 8) (l : Loaded) : Bool × Loaded :=
  if rel 0 ≠ 1 then (false, l)
  else fastRecords place elf sections s rel (memWord rel 1).toNat 5 true l

def relocateSection (l : Loaded) (cache : AddressCache elf sections) :
    Bool × Loaded × AddressCache elf sections :=
  match s.fastRel with
  | some rel =>
    let r := relocateFast place elf sections s rel l
    (r.1, r.2, cache)
  | none => if s.relCount ≠ 0 then relocate place elf sections s l cache else (true, l, cache)

end Relocation

inductive ELFFileLoadStatus
  | success
  | unspecifiedError
  | missingImports
deriving DecidableEq

section Load
variable (place : Addr → Allocated) (elf : ELFFile) (sections : Sections)

def relocateSections : Sections → ELFFileLoadStatus → Loaded → AddressCache elf sections →
    ELFFileLoadStatus × Loaded
  | [], status, l, _ => (status, l)
  | s :: rest, status, l, cache =>
    let r := relocateSection place elf sections s.2 l cache
    relocateSections rest (if r.1 then status else .missingImports) r.2.1 r.2.2

/-- What `elf_file_load_sections` leaves: the status, the entry point, memory and trampolines. -/
structure LoadResult where
  status : ELFFileLoadStatus
  entry : Addr
  loaded : Loaded

def elfFileLoadSections (entry : Addr) (l : Loaded) : LoadResult :=
  let r := relocateSections place elf sections sections .success l
    ⟨[], fun _ h => absurd h not_mem_nil⟩
  if r.1 = .success then
    match sections.lookup (ascii ".text") with
    | none => ⟨.unspecifiedError, entry, r.2⟩
    | some text => ⟨.success, entry + text.data, r.2⟩
  else ⟨r.1, entry, r.2⟩

end Load

/-- What a relocation refers to: an imported symbol, or a place in a section. -/
inductive Target
  | imported (hash : BitVec 32)
  | section (index : Nat) (value : Addr)
deriving DecidableEq

structure Reloc where
  type : Nat
  target : Target
  offset : Addr
deriving DecidableEq

def dataOf (sections : Sections) (index : Nat) : Option Addr :=
  (sectionOf sections index).map ELFSection.data

def Target.address (elf : ELFFile) (sections : Sections) : Target → Addr
  | .imported hash => elf.addressOfByHash hash
  | .section index value => ((dataOf sections index).map (· + value)).getD invalidAddress

def Target.fastAddress (elf : ELFFile) (sections : Sections) : Target → Addr
  | .imported hash => elf.addressOfByHash hash
  | .section index value => ((dataOf sections index).map (· + value)).getD 0

def targetOf (symbol : Sym × Bytes) : Target :=
  if symbol.1.stShndx = 0 then .imported (elfSymbolnameHash symbol.2)
  else .section symbol.1.stShndx.toNat symbol.1.stValue

/-- A relocation in a `.rel` section, if it and its symbol can be read. -/
def relocAt (elf : ELFFile) (s : ELFSection) (i : Nat) : Option Reloc :=
  (elf.readRel (s.relOffset + i * 8)).bind fun rel =>
    (elf.readSymbol rel.symEntry).map fun symbol =>
      ⟨rel.relType, targetOf symbol, rel.rOffset⟩

def relocsFrom (elf : ELFFile) (s : ELFSection) : Nat → Nat → Option (List Reloc)
  | 0, _ => some []
  | n + 1, i => (relocAt elf s i).bind fun r => (relocsFrom elf s n (i + 1)).map (r :: ·)

def relocsOf (elf : ELFFile) (s : ELFSection) : Option (List Reloc) := relocsFrom elf s s.relCount 0

structure FastRecord where
  type : Nat
  target : Target
  offsets : List Addr

def FastRecord.relocs (r : FastRecord) : List Reloc := r.offsets.map (Reloc.mk r.type r.target)

def fastOffsetsAt (rel : Nat → BitVec 8) : Nat → Nat → List Addr
  | 0, _ => []
  | n + 1, start => (memWord rel start &&& 0x00FFFFFF) :: fastOffsetsAt rel n (start + 3)

/-- Where the number of offsets of a record is. -/
def countAt (rel : Nat → BitVec 8) (start : Nat) : Nat :=
  if rel start &&& 0x80 ≠ 0 then start + 9 else start + 5

def recordAt (rel : Nat → BitVec 8) (start : Nat) : FastRecord where
  type := (rel start &&& 0x7F).toNat
  target := if rel start &&& 0x80 ≠ 0 then
      .section (memWord rel (start + 1)).toNat (memWord rel (start + 5))
    else .imported (memWord rel (start + 1))
  offsets := fastOffsetsAt rel (memWord rel (countAt rel start)).toNat (countAt rel start + 4)

def recordsAt (rel : Nat → BitVec 8) : Nat → Nat → List FastRecord
  | 0, _ => []
  | n + 1, start => recordAt rel start :: recordsAt rel n
    (countAt rel start + 4 + 3 * (memWord rel (countAt rel start)).toNat)

def fastRecordsOf (rel : Nat → BitVec 8) : List FastRecord := recordsAt rel (memWord rel 1).toNat 5

def fastRelocsOf (rel : Nat → BitVec 8) : List Reloc :=
  (fastRecordsOf rel).flatMap FastRecord.relocs

section Apply
variable (place : Addr → Allocated) (elf : ELFFile) (sections : Sections) (data : Addr)

def Reloc.applyAt (address : Addr) (m : Memory) (r : Reloc) : Memory :=
  if address = invalidAddress then m
  else relocated place m (data + r.offset) (relocType r.type) address

def Reloc.apply (m : Memory) (r : Reloc) : Memory :=
  r.applyAt place data (r.target.address elf sections) m

def Reloc.applyFast (m : Memory) (r : Reloc) : Memory :=
  r.applyAt place data (r.target.fastAddress elf sections) m

/-- The relocation has an address and is of a type that is applied. -/
def Reloc.fine (r : Reloc) : Bool :=
  r.target.address elf sections ≠ invalidAddress && (relocType r.type).supported

theorem Reloc.apply_local (r : Reloc) :
    LocalUpdate (wordPlaces (data + r.offset)) fun m => r.apply place elf sections data m := by
  simp only [Reloc.apply, Reloc.applyAt]
  split
  · exact LocalUpdate.id _
  · exact relocated_local place (data + r.offset) (relocType r.type) (r.target.address elf sections)

end Apply

section Loops
variable {place : Addr → Allocated} {elf : ELFFile} {sections : Sections} {s : ELFSection}

theorem addressOf_eq (symbol : Sym × Bytes) :
    elf.addressOf sections symbol.1 symbol.2 = (targetOf symbol).address elf sections := by
  rw [ELFFile.addressOf, targetOf]
  split
  · rfl
  · rw [Target.address, dataOf]
    cases sectionOf sections symbol.1.stShndx.toNat <;> rfl

theorem AddressCache.get_eq (cache : AddressCache elf sections) {symEntry : Nat}
    {symbol : Sym × Bytes} (h : elf.readSymbol symEntry = some symbol) :
    ∃ cache', cache.get symEntry = some ((targetOf symbol).address elf sections, cache') := by
  rw [AddressCache.get]
  split
  case h_1 symAddr hlookup =>
    obtain ⟨before, after, heq, -⟩ := lookup_eq_some_iff.mp hlookup
    have hmem : (symEntry, symAddr) ∈ cache.entries := by
      rw [heq]
      exact mem_append_right before mem_cons_self
    obtain ⟨symbol', hsymbol', haddr⟩ := cache.valid _ hmem
    obtain rfl := some.inj (hsymbol'.symm.trans h)
    exact ⟨cache, congrArg some (Prod.ext (haddr.trans (addressOf_eq _)) rfl)⟩
  case h_2 =>
    split
    case h_1 hnone => exact absurd (hnone.symm.trans h).symm (some_ne_none _)
    case h_2 symbol' hsymbol' =>
      obtain rfl := some.inj (hsymbol'.symm.trans h)
      exact ⟨_, congrArg some (Prod.ext (addressOf_eq _) rfl)⟩

theorem relocsFrom_succ {n i : Nat} {rels : List Reloc}
    (h : relocsFrom elf s (n + 1) i = some rels) : ∃ rel symbol rest,
      elf.readRel (s.relOffset + i * 8) = some rel ∧ elf.readSymbol rel.symEntry = some symbol ∧
        relocsFrom elf s n (i + 1) = some rest ∧
          rels = ⟨rel.relType, targetOf symbol, rel.rOffset⟩ :: rest := by
  obtain ⟨r, hr, hrest⟩ := bind_eq_some_iff.mp h
  obtain ⟨rel, hrel, hsymbol⟩ := bind_eq_some_iff.mp hr
  obtain ⟨symbol, hread, rfl⟩ := map_eq_some_iff.mp hsymbol
  obtain ⟨rest, hlist, rfl⟩ := map_eq_some_iff.mp hrest
  exact ⟨rel, symbol, rest, hrel, hread, hlist, rfl⟩

/-- What a list of relocations leaves: the memory, trampolines at their places, and whether all of
them were fine. -/
structure Applied (place : Addr → Allocated) (m : Memory) (fine : Bool) (r : Bool × Loaded) :
    Prop where
  result : r.1 = fine
  memory : r.2.memory = m
  placed : r.2.trampolines.Placed place

theorem relocateLoop_spec {n i : Nat} {rels : List Reloc} (h : relocsFrom elf s n i = some rels)
    (ok : Bool) {l : Loaded} (hplaced : l.trampolines.Placed place)
    (cache : AddressCache elf sections) :
    Applied place (rels.foldl (Reloc.apply place elf sections s.data) l.memory)
      (ok && rels.all (Reloc.fine elf sections))
      ((relocateLoop place elf sections s n i ok l cache).1,
        (relocateLoop place elf sections s n i ok l cache).2.1) := by
  induction n generalizing i rels ok l cache with
  | zero =>
    obtain rfl := some.inj h
    exact ⟨(Bool.and_true ok).symm, rfl, hplaced⟩
  | succ n ih =>
    obtain ⟨rel, symbol, rest, hrel, hread, hrest, rfl⟩ := relocsFrom_succ h
    obtain ⟨cache', hget⟩ := cache.get_eq hread
    obtain ⟨m, t⟩ := l
    rw [relocateLoop, hrel]
    dsimp only
    rw [hget]
    dsimp only
    rw [foldl_cons, all_cons, Reloc.apply, Reloc.applyAt, Reloc.fine]
    dsimp only
    by_cases haddr : (targetOf symbol).address elf sections = invalidAddress
    · have hgo := ih hrest false hplaced cache'
      rw [if_neg (not_not_intro haddr), if_pos haddr, decide_eq_false (not_not_intro haddr),
        Bool.false_and, Bool.false_and, Bool.and_false]
      rwa [Bool.false_and] at hgo
    · obtain ⟨hsupported, hmemory, hplaced'⟩ := relocateSymbol_placed m hplaced
        (s.data + rel.rOffset) (relocType rel.relType) ((targetOf symbol).address elf sections)
      have hgo := ih hrest (ok && (relocType rel.relType).supported) hplaced' cache'
      rw [hmemory] at hgo
      rw [if_pos haddr, if_neg haddr, decide_eq_true haddr, Bool.true_and, ← Bool.and_assoc,
        hsupported]
      exact hgo

theorem relocate_spec {rels : List Reloc} (h : relocsOf elf s = some rels) (hdata : s.data ≠ 0)
    {l : Loaded} (hplaced : l.trampolines.Placed place) (cache : AddressCache elf sections) :
    Applied place (rels.foldl (Reloc.apply place elf sections s.data) l.memory)
      (rels.all (Reloc.fine elf sections))
      ((relocate place elf sections s l cache).1, (relocate place elf sections s l cache).2.1) := by
  rw [relocate, if_pos hdata]
  exact relocateLoop_spec h true hplaced cache

theorem fastOffsets_spec {rel : Nat → BitVec 8} {type : RelocType} {address : Addr} (n start : Nat)
    {l : Loaded} (hplaced : l.trampolines.Placed place) :
    (fastOffsets place s rel type address n start l).memory = (fastOffsetsAt rel n start).foldl
          (fun m offset => relocated place m (s.data + offset) type address) l.memory ∧
      (fastOffsets place s rel type address n start l).trampolines.Placed place := by
  induction n generalizing start l with
  | zero => exact ⟨rfl, hplaced⟩
  | succ n ih =>
    obtain ⟨m, t⟩ := l
    obtain ⟨-, hmemory, hplaced'⟩ := relocateSymbol_placed m hplaced
      (s.data + (memWord rel start &&& 0x00FFFFFF)) type address
    obtain ⟨hrest, hlast⟩ := ih (start + 3) hplaced'
    rw [fastOffsets, fastOffsetsAt, foldl_cons]
    dsimp only
    rw [← hmemory]
    exact ⟨hrest, hlast⟩

theorem fastRecordAddress_eq (rel : Nat → BitVec 8) (start : Nat) :
    fastRecordAddress elf sections (decide (rel start &&& 0x80 ≠ 0)) (memWord rel (start + 1))
      (memWord rel (start + 5)) = (recordAt rel start).target.fastAddress elf sections := by
  rw [recordAt, fastRecordAddress]
  dsimp only
  by_cases hsection : rel start &&& 0x80 ≠ 0
  · rw [if_pos hsection, decide_eq_true hsection, if_pos rfl, Target.fastAddress, dataOf]
    cases sectionOf sections (memWord rel (start + 1)).toNat <;> rfl
  · rw [if_neg hsection, decide_eq_false hsection, if_neg Bool.false_ne_true]
    rfl

theorem ite_decide_countAt (rel : Nat → BitVec 8) (start : Nat) :
    (if (decide (rel start &&& 0x80 ≠ 0)) = true then start + 9 else start + 5) =
      countAt rel start := by
  rw [countAt]
  by_cases hsection : rel start &&& 0x80 ≠ 0
  · rw [if_pos hsection, decide_eq_true hsection, if_pos rfl]
  · rw [if_neg hsection, decide_eq_false hsection, if_neg Bool.false_ne_true]

theorem relocs_foldl (r : FastRecord) (m : Memory) :
    r.relocs.foldl (Reloc.applyFast place elf sections s.data) m =
      if r.target.fastAddress elf sections = invalidAddress then m
      else r.offsets.foldl (fun m offset => relocated place m (s.data + offset) (relocType r.type)
        (r.target.fastAddress elf sections)) m := by
  rw [FastRecord.relocs, foldl_map]
  simp only [Reloc.applyFast, Reloc.applyAt]
  split
  · induction r.offsets generalizing m with
    | nil => rfl
    | cons o os ih => exact ih m
  · rfl

theorem fastRecords_spec {rel : Nat → BitVec 8} (n start : Nat) (ok : Bool) {l : Loaded}
    (hplaced : l.trampolines.Placed place) :
    Applied place (((recordsAt rel n start).flatMap FastRecord.relocs).foldl
        (Reloc.applyFast place elf sections s.data) l.memory)
      (ok && (recordsAt rel n start).all
        fun r => r.target.fastAddress elf sections ≠ invalidAddress)
      (fastRecords place elf sections s rel n start ok l) := by
  induction n generalizing start ok l with
  | zero => exact ⟨(Bool.and_true ok).symm, rfl, hplaced⟩
  | succ n ih =>
    rw [recordsAt, flatMap_cons, foldl_append, all_cons, relocs_foldl, fastRecords]
    rw [fastRecordAddress_eq, ite_decide_countAt]
    by_cases haddr : (recordAt rel start).target.fastAddress elf sections = invalidAddress
    · have hgo := ih (countAt rel start + 4 + 3 * (memWord rel (countAt rel start)).toNat) false
        hplaced
      rw [if_pos haddr, if_pos haddr, decide_eq_false (not_not_intro haddr), Bool.false_and,
        Bool.and_false]
      rwa [Bool.false_and] at hgo
    · obtain ⟨hmemory, hplaced'⟩ := @fastOffsets_spec place s rel
        (relocType (recordAt rel start).type) ((recordAt rel start).target.fastAddress elf sections)
        (memWord rel (countAt rel start)).toNat (countAt rel start + 4) l hplaced
      have hgo := ih (countAt rel start + 4 + 3 * (memWord rel (countAt rel start)).toNat) ok hplaced'
      rw [hmemory] at hgo
      rw [if_neg haddr, if_neg haddr, decide_eq_true haddr, Bool.true_and]
      exact hgo

end Loops
end NikitaFirmware.Elf
