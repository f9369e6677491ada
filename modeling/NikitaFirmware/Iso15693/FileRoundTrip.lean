import NikitaFirmware.Iso15693.File

/-!
# Saving and loading cards

A saved card stands somewhere in a file with other keys. What is loaded from there is the card again
if files record all of it, and the older security status yields no lock bits of blocks.
-/

namespace NikitaFirmware.Iso15693
open Nfc Foundations Toolbox.FlipperStream List Option

def bytePairs (key : List Char) : Option Byte → List (List Char × WriteData)
  | none => []
  | some value => [(key, hexData [value])]

def lockPairs : Option (Bool × Bool) → List (List Char × WriteData)
  | none => []
  | some locks => [(lockDsfidKey, boolData locks.1), (lockAfiKey, boolData locks.2)]

def geometryPairs : Option (UInt16 × Byte) → List (List Char × WriteData)
  | none => []
  | some geometry =>
    [(blockCountKey, uint32Data geometry.1.toUInt32), (blockSizeKey, hexData [geometry.2])]

def blockPairs : Option (List Byte × List Byte) → List (List Char × WriteData)
  | none => []
  | some blocks => [(dataContentKey, hexData blocks.1), (securityStatusKey, hexData blocks.2)]

/-- What a file has of a card. -/
structure Layout where
  dsfid : Option Byte
  afi : Option Byte
  icRef : Option Byte
  locks : Option (Bool × Bool)
  geometry : Option (UInt16 × Byte)
  blocks : Option (List Byte × List Byte)

namespace Layout

def pairs (l : Layout) : List (List Char × WriteData) :=
  bytePairs dsfidKey l.dsfid ++ (bytePairs afiKey l.afi ++ (bytePairs icRefKey l.icRef ++
    (lockPairs l.locks ++ (geometryPairs l.geometry ++ blockPairs l.blocks))))

end Layout

def Data.layout (d : Data) : Layout where
  dsfid := if d.hasDsfid then some d.dsfid else none
  afi := if d.hasAfi then some d.afi else none
  icRef := if d.hasIcRef then some d.icRef else none
  locks := some (d.lockDsfid, d.lockAfi)
  geometry := if d.hasMemory then some (d.blockCount, d.blockSize) else none
  blocks := if d.hasMemory ∧ 0 < d.blockCount ∧ 0 < d.blockSize then
      some (d.blockData, d.blockSecurity)
    else none

theorem pairs_saveByte (present : Bool) (text : String) (key : List Char) (value : Byte) :
    pairs (saveByte present text key value) =
      bytePairs key (if present then some value else none) := by
  cases present <;> rfl

variable {entries : List Entry}

theorem pairs_save {d : Data} (h : d.save = some entries) : pairs entries = d.layout.pairs := by
  obtain ⟨memory, hmemory, rfl⟩ := map_eq_some_iff.mp h
  have hpairs : pairs memory = geometryPairs d.layout.geometry ++ blockPairs d.layout.blocks := by
    rw [Data.saveMemory] at hmemory
    by_cases hhas : d.hasMemory = true
    · have hgeometry : d.layout.geometry = some (d.blockCount, d.blockSize) := if_pos hhas
      rw [if_pos hhas] at hmemory
      obtain ⟨blocks, hblocks, rfl⟩ := map_eq_some_iff.mp hmemory
      rw [Data.saveBlocks] at hblocks
      by_cases hpos : 0 < d.blockCount ∧ 0 < d.blockSize
      · have hlayout : d.layout.blocks = some (d.blockData, d.blockSecurity) := if_pos ⟨hhas, hpos⟩
        rw [if_pos hpos] at hblocks
        rw [hgeometry, hlayout]
        split at hblocks
        · exact absurd hblocks (some_ne_none blocks).symm
        · obtain rfl := some.inj hblocks
          rfl
      · have hlayout : d.layout.blocks = none := if_neg (fun h => hpos h.2)
        rw [if_neg hpos] at hblocks
        rw [hgeometry, hlayout]
        obtain rfl := some.inj hblocks
        rfl
    · have hgeometry : d.layout.geometry = none := if_neg hhas
      have hlayout : d.layout.blocks = none := if_neg (fun h => hhas h.1)
      rw [if_neg hhas] at hmemory
      rw [hgeometry, hlayout]
      obtain rfl := some.inj hmemory
      rfl
  simp only [pairs_append, pairs_saveByte, hpairs, append_assoc]
  rfl

def Foreign (ps : List (List Char × WriteData)) : Prop := ∀ p ∈ ps, p.1 ∉ keys

theorem foreign_nil : Foreign [] := fun _ hmem => absurd hmem not_mem_nil

theorem not_mem_of_foreign {ps : List (List Char × WriteData)} (h : Foreign ps) {key : List Char}
    (hkey : key ∈ keys) : key ∉ ps.map Prod.fst := by
  intro hmem
  obtain ⟨p, hp, rfl⟩ := mem_map.mp hmem
  exact h p hp hkey

theorem map_fst_bytePairs (key : List Char) (value : Option Byte) :
    (bytePairs key value).map Prod.fst = if value.isSome then [key] else [] := by
  cases value <;> rfl

theorem map_fst_lockPairs (locks : Option (Bool × Bool)) :
    (lockPairs locks).map Prod.fst = if locks.isSome then [lockDsfidKey, lockAfiKey] else [] := by
  cases locks <;> rfl

theorem map_fst_geometryPairs (geometry : Option (UInt16 × Byte)) :
    (geometryPairs geometry).map Prod.fst =
      if geometry.isSome then [blockCountKey, blockSizeKey] else [] := by
  cases geometry <;> rfl

theorem map_fst_blockPairs (blocks : Option (List Byte × List Byte)) :
    (blockPairs blocks).map Prod.fst =
      if blocks.isSome then [dataContentKey, securityStatusKey] else [] := by
  cases blocks <;> rfl

namespace Layout

def keyList (dsfid afi icRef locks geometry blocks : Bool) : List (List Char) :=
  (if dsfid then [dsfidKey] else []) ++ ((if afi then [afiKey] else []) ++
    ((if icRef then [icRefKey] else []) ++ ((if locks then [lockDsfidKey, lockAfiKey] else []) ++
        ((if geometry then [blockCountKey, blockSizeKey] else []) ++
          (if blocks then [dataContentKey, securityStatusKey] else [])))))

theorem keyList_spec : ∀ dsfid afi icRef locks geometry blocks : Bool,
    let list := keyList dsfid afi icRef locks geometry blocks
    decide (dsfidKey ∈ list) = dsfid ∧ decide (afiKey ∈ list) = afi ∧
      decide (icRefKey ∈ list) = icRef ∧ decide (lockDsfidKey ∈ list) = locks ∧
      decide (lockAfiKey ∈ list) = locks ∧ decide (blockCountKey ∈ list) = geometry ∧
      decide (blockSizeKey ∈ list) = geometry ∧ decide (securityStatusKey ∈ list) = blocks := by
  decide

variable {l : Layout} {before after all ps : List (List Char × WriteData)} {ff : Cursor Char}

theorem map_fst_pairs (l : Layout) : l.pairs.map Prod.fst =
    keyList l.dsfid.isSome l.afi.isSome l.icRef.isSome l.locks.isSome l.geometry.isSome
      l.blocks.isSome := by
  simp only [pairs, map_append, map_fst_bytePairs, map_fst_lockPairs, map_fst_geometryPairs,
    map_fst_blockPairs, keyList]

/-- A file in which a layout stands between other keys. -/
structure Within (l : Layout) (before after all : List (List Char × WriteData)) : Prop where
  foreign_before : Foreign before
  foreign_after : Foreign after
  all_eq : all = before ++ l.pairs ++ after

theorem Within.keyExist (h : Within l before after all) (hplaced : Placed ff all ps)
    {key : List Char} (hkey : key ∈ keys) :
    keyExist ff key = (decide (key ∈ keyList l.dsfid.isSome l.afi.isSome l.icRef.isSome
      l.locks.isSome l.geometry.isSome l.blocks.isSome), ff) := by
  rw [hplaced.keyExist, h.all_eq, map_append, map_append, map_fst_pairs]
  refine Prod.ext (decide_eq_decide.mpr ?_) rfl
  rw [mem_append, mem_append]
  constructor
  · rintro ((hmem | hmem) | hmem)
    · exact absurd hmem (not_mem_of_foreign h.foreign_before hkey)
    · exact hmem
    · exact absurd hmem (not_mem_of_foreign h.foreign_after hkey)
  · exact fun hmem => .inl (.inr hmem)

theorem Within.mem_security (h : Within l before after all) {blocks : List Byte × List Byte}
    (hblocks : l.blocks = some blocks) : securityStatusKey ∈ all.map Prod.fst := by
  obtain ⟨-, -, -, -, -, -, -, hmem⟩ := keyList_spec l.dsfid.isSome l.afi.isSome l.icRef.isSome
    l.locks.isSome l.geometry.isSome true
  rw [h.all_eq, map_append, map_append, map_fst_pairs, hblocks]
  exact mem_append_left _ (mem_append_right _ (of_decide_eq_true hmem))

/-- The data behind the bytes and the lock bits. -/
def head (l : Layout) (uid : List Byte) : Data :=
  { Data.fresh uid with
    flags := Data.presentFlags l.dsfid.isSome l.afi.isSome l.icRef.isSome
    dsfid := l.dsfid.getD 0
    afi := l.afi.getD 0
    icRef := l.icRef.getD 0
    lockDsfid := (l.locks.getD (false, false)).1
    lockAfi := (l.locks.getD (false, false)).2 }

theorem loadByte_placed {key : List Char} {value : Option Byte}
    (hplaced : Placed ff all (bytePairs key value ++ ps))
    (hexist : keyExist ff key = (value.isSome, ff)) :
    ∃ next, loadByte ff key = some (value, next) ∧ Placed next all ps := by
  rw [loadByte, hexist]
  cases value with
  | none => exact ⟨ff, rfl, hplaced⟩
  | some value =>
    obtain ⟨next, hread, hnext⟩ := readByte_placed hplaced
    refine ⟨next, ?_, hnext⟩
    dsimp only [isSome_some]
    rw [if_pos rfl, hread]
    rfl

theorem load_head (h : Within l before after all) (uid : List Byte)
    (hplaced : Placed ff all (l.pairs ++ after)) :
    ∃ next, Placed next all (geometryPairs l.geometry ++ (blockPairs l.blocks ++ after)) ∧
      (Data.fresh uid).load ff =
        if l.geometry.isSome then (l.head uid).loadMemory l.locks.isSome next
        else some (l.head uid, next) := by
  obtain ⟨hdsfid, hafi, hicRef, hlockDsfid, hlockAfi, hcount, hsize, -⟩ :=
    keyList_spec l.dsfid.isSome l.afi.isSome l.icRef.isSome l.locks.isSome l.geometry.isSome
      l.blocks.isSome
  have hexist : ∀ {key : List Char} {b : Bool} {ff : Cursor Char} {ps : _}, Placed ff all ps →
      decide (key ∈ keyList l.dsfid.isSome l.afi.isSome l.icRef.isSome l.locks.isSome
        l.geometry.isSome l.blocks.isSome) = b → key ∈ keys → keyExist ff key = (b, ff) :=
    fun hplaced hb hkey => hb ▸ h.keyExist hplaced hkey
  rw [pairs] at hplaced
  simp only [append_assoc] at hplaced
  obtain ⟨ff₁, hread₁, h₁⟩ := loadByte_placed hplaced (hexist hplaced hdsfid (by decide))
  obtain ⟨ff₂, hread₂, h₂⟩ := loadByte_placed h₁ (hexist h₁ hafi (by decide))
  obtain ⟨ff₃, hread₃, h₃⟩ := loadByte_placed h₂ (hexist h₂ hicRef (by decide))
  have hlocks : lockBitsExist ff₃ = (l.locks.isSome, ff₃) := by
    rw [lockBitsExist, hexist h₃ hlockDsfid (by decide)]
    dsimp only
    rw [hexist h₃ hlockAfi (by decide), ite_self]
  let read : Data := (((Data.fresh uid).setDsfid l.dsfid).setAfi l.afi).setIcRef l.icRef
  obtain ⟨ff₄, hread₄, h₄⟩ : ∃ ff₄, (if l.locks.isSome then read.loadLockBits ff₃
      else some (read, ff₃)) = some (l.head uid, ff₄) ∧
      Placed ff₄ all (geometryPairs l.geometry ++ (blockPairs l.blocks ++ after)) := by
    have hread : read = _ := Data.setBytes_eq ..
    rw [hread]
    cases hsome : l.locks with
    | none =>
      rw [hsome] at h₃
      refine ⟨ff₃, ?_, h₃⟩
      rw [head, hsome]
      rfl
    | some locks =>
      rw [hsome] at h₃
      obtain ⟨ff', hdsfid', h'⟩ := readBool_placed h₃
      obtain ⟨ff₄, hafi', h₄⟩ := readBool_placed h'
      refine ⟨ff₄, ?_, h₄⟩
      rw [isSome_some, if_pos rfl, Data.loadLockBits, hdsfid', bind_some, hafi', head, hsome]
      rfl
  have hmemory : memoryExists ff₄ = (l.geometry.isSome, ff₄) := by
    rw [memoryExists, hexist h₄ hcount (by decide)]
    dsimp only
    rw [hexist h₄ hsize (by decide), ite_self]
  refine ⟨ff₄, h₄, ?_⟩
  rw [Data.load, hread₁, bind_some, hread₂, bind_some, hread₃, bind_some]
  dsimp only
  rw [hlocks]
  dsimp only
  rw [hread₄, bind_some, hmemory]

end Layout

namespace Data

variable {d : Data} {ff : Cursor Char} {all ps : List (List Char × WriteData)}
  {bytes security : List Byte}

def withGeometry (d : Data) (blockCount : UInt16) (blockSize : Byte) : Data :=
  { d with flags := d.flags ||| 0x04, blockCount := blockCount, blockSize := blockSize }

/-- A card with its blocks, none of which is locked. -/
def withBlocks (d : Data) (bytes : List Byte) : Data :=
  { d with blockData := bytes, blockSecurity := List.replicate d.blockCount.toNat 0 }

theorem loadMemory_placed {blockCount : UInt16} {blockSize : Byte} (lockBits : Bool)
    (hplaced : Placed ff all (geometryPairs (some (blockCount, blockSize)) ++ ps)) :
    ∃ next, Placed next all ps ∧ d.loadMemory lockBits ff = if 0 < blockCount ∧ 0 < blockSize then
        (d.withGeometry blockCount blockSize).loadBlocks lockBits next
      else some (d.withGeometry blockCount blockSize, next) := by
  obtain ⟨ff₁, hcount, h₁⟩ := readUint32_placed hplaced
  obtain ⟨ff₂, hsize, h₂⟩ := readByte_placed h₁
  refine ⟨ff₂, h₂, ?_⟩
  rw [loadMemory, hcount, bind_some, hsize, bind_some]
  dsimp only [headD_cons]
  rw [UInt16.toUInt16_toUInt32]
  rfl

theorem loadBlocks_placed (lockBits : Bool)
    (hplaced : Placed ff all ((dataContentKey, hexData bytes) ::
      (securityStatusKey, hexData security) :: ps))
    (hlength : bytes.length = d.blockSize.toNat * d.blockCount.toNat)
    (hkey : securityStatusKey ∈ all.map Prod.fst) :
    ∃ next, Placed next all ((securityStatusKey, hexData security) :: ps) ∧
      d.loadBlocks lockBits ff = if lockBits then (d.withBlocks (stored bytes)).loadSecurity next
        else (d.withBlocks (stored bytes)).loadSecurityLegacy next := by
  obtain ⟨next, hread, hnext⟩ := readHex_placed hplaced
  refine ⟨next, hnext, ?_⟩
  rw [loadBlocks, ← hlength, hread, bind_some]
  dsimp only
  rw [hnext.keyExist, decide_eq_true hkey]
  rfl

theorem getValueCount_placed (hplaced : Placed ff all ((securityStatusKey, hexData security) :: ps))
    (hne : security ≠ []) (hshort : security.length < 2 ^ 16) :
    getValueCount ff securityStatusKey false = (some security.length, ff) := by
  have htake : security.take (security.length % 2 ^ 16) = security := by
    rw [Nat.mod_eq_of_lt hshort, take_length]
  exact hplaced.getValueCount hexFormat (congrArg (fun xs => some (List.map _ xs)) htake) hne

theorem loadSecurity_placed
    (hplaced : Placed ff all ((securityStatusKey, hexData security) :: ps)) (hne : security ≠ [])
    (hshort : security.length < 2 ^ 16) (hlength : security.length = d.blockSecurity.length) :
    ∃ next, d.loadSecurity ff = some ({ d with blockSecurity := security }, next) ∧
      Placed next all ps := by
  obtain ⟨next, hread, hnext⟩ := readHex_placed hplaced
  refine ⟨next, ?_, hnext⟩
  rw [loadSecurity, getValueCount_placed hplaced hne hshort]
  dsimp only
  rw [if_pos (congrArg some hlength), ← hlength, hread, stored_short hshort, map_some]

theorem loadSecurityLegacy_placed {lockByte : Byte}
    (hplaced : Placed ff all ((securityStatusKey, hexData (lockByte :: security)) :: ps))
    (hshort : security.length + 1 < 2 ^ 16) (hlength : security.length = d.blockSecurity.length) :
    ∃ next, d.loadSecurityLegacy ff = some ({ d with
          lockDsfid := lockByte &&& 0x01 != 0
          lockAfi := lockByte &&& 0x02 != 0 }, next) ∧
      Placed next all ps := by
  obtain ⟨next, hread, hnext⟩ := readHex_placed hplaced
  refine ⟨next, ?_, hnext⟩
  rw [loadSecurityLegacy, getValueCount_placed hplaced (cons_ne_nil _ _) hshort]
  dsimp only
  rw [length_cons, if_pos (congrArg (fun n => some (n + 1)) hlength), ← hlength,
    ← @List.length_cons _ lockByte security, hread,
    @stored_short (lockByte :: security) hshort, map_some]
  rfl

end Data

/-- Wherever a card is saved between other keys, what is loaded from there is equal to it. -/
def Data.RoundTrips (d : Data) : Prop :=
  ∃ entries, d.save = some entries ∧
    ∀ (before after : List (List Char × WriteData)) (ff : Cursor Char),
    Foreign before → Foreign after →
      Placed ff (before ++ pairs entries ++ after) (pairs entries ++ after) →
    ∃ loaded next, (Data.fresh d.uid).load ff = some (loaded, next) ∧ loaded.isEqual d = true

/-- A file with the older security status, whose first byte is for the lock bits of the card. -/
structure LegacyFile where
  dsfid : Option Byte
  afi : Option Byte
  icRef : Option Byte
  blockCount : UInt16
  blockSize : Byte
  blockData : List Byte
  lockByte : Byte
  blockSecurity : List Byte
  length_blockData : blockData.length = blockSize.toNat * blockCount.toNat
  length_blockSecurity : blockSecurity.length = blockCount.toNat
  fits : blockSecurity.length + 1 < 2 ^ 16

namespace LegacyFile

def layout (f : LegacyFile) : Layout where
  dsfid := f.dsfid
  afi := f.afi
  icRef := f.icRef
  locks := none
  geometry := some (f.blockCount, f.blockSize)
  blocks := some (f.blockData, f.lockByte :: f.blockSecurity)

/-- Wherever the file has its keys, the lock bits that it records are loaded. -/
def Yields (f : LegacyFile) : Prop :=
  ∀ (before after : List (List Char × WriteData)) (uid : List Byte) (ff : Cursor Char),
    Foreign before → Foreign after →
    Placed ff (before ++ f.layout.pairs ++ after) (f.layout.pairs ++ after) →
    ∃ loaded next, (Data.fresh uid).load ff = some (loaded, next) ∧
      loaded.lockDsfid = (f.lockByte &&& 0x01 != 0) ∧ loaded.lockAfi = (f.lockByte &&& 0x02 != 0) ∧
      loaded.blockSecurity = f.blockSecurity

/-- No block is locked, and where there are no blocks the card has no lock bits either. -/
def Kept (f : LegacyFile) : Prop :=
  if 0 < f.blockCount ∧ 0 < f.blockSize then ∀ b ∈ f.blockSecurity, b = 0
  else f.blockSecurity = [] ∧ f.lockByte &&& 0x01 = 0 ∧ f.lockByte &&& 0x02 = 0

end LegacyFile

theorem sound_saveByte {text : String} {key : List Char} (htext : '\n' ∉ text.toList)
    (hkey : ValidKey key) (present : Bool) (value : Byte) :
    ∀ entry ∈ saveByte present text key value, entry.Sound := by
  cases present with
  | false => exact fun entry hmem => absurd hmem not_mem_nil
  | true =>
    exact forall_mem_cons.mpr ⟨sound_comment htext,
      forall_mem_singleton.mpr (sound_hex hkey [value])⟩

theorem sound_saveBlocks {d : Data} (h : d.saveBlocks = some entries) :
    ∀ entry ∈ entries, entry.Sound := by
  rw [Data.saveBlocks] at h
  split at h
  · split at h
    · exact absurd h (some_ne_none entries).symm
    · obtain rfl := some.inj h
      exact forall_mem_cons.mpr ⟨sound_hex (by decide) _, forall_mem_cons.mpr
        ⟨sound_comment (by decide), forall_mem_singleton.mpr (sound_hex (by decide) _)⟩⟩
  · obtain rfl := some.inj h
    exact fun entry hmem => absurd hmem not_mem_nil

theorem sound_saveMemory {d : Data} (h : d.saveMemory = some entries) :
    ∀ entry ∈ entries, entry.Sound := by
  rw [Data.saveMemory] at h
  split at h
  · obtain ⟨blocks, hblocks, rfl⟩ := map_eq_some_iff.mp h
    refine forall_mem_append.mpr ⟨?_, sound_saveBlocks hblocks⟩
    exact forall_mem_cons.mpr ⟨sound_comment (by decide), forall_mem_cons.mpr
      ⟨sound_uint32 (by decide) _, forall_mem_cons.mpr ⟨sound_comment (by decide),
        forall_mem_singleton.mpr (sound_hex (by decide) _)⟩⟩⟩
  · obtain rfl := some.inj h
    exact fun entry hmem => absurd hmem not_mem_nil

theorem sound_save {d : Data} (h : d.save = some entries) : ∀ entry ∈ entries, entry.Sound := by
  obtain ⟨memory, hmemory, rfl⟩ := map_eq_some_iff.mp h
  simp only [forall_mem_append]
  refine ⟨⟨⟨⟨⟨?_, sound_saveByte (by decide) (by decide) _ _⟩,
    sound_saveByte (by decide) (by decide) _ _⟩, sound_saveByte (by decide) (by decide) _ _⟩,
    ?_⟩, sound_saveMemory hmemory⟩
  · exact forall_mem_singleton.mpr (sound_comment (by decide))
  · exact forall_mem_cons.mpr ⟨sound_comment (by decide), forall_mem_cons.mpr
      ⟨sound_bool (by decide) _, forall_mem_singleton.mpr (sound_bool (by decide) _)⟩⟩

theorem validKeys : ∀ key ∈ keys, ValidKey key := by decide

theorem exists_placed (l : Layout) : ∃ ff, Placed ff l.pairs l.pairs := by
  have hpairs : ∀ ps : List (List Char × WriteData),
      pairs (ps.map fun p => .pair p.1 p.2) = ps := by
    intro ps
    rw [pairs_map]
    exact map_id ps
  have hsound : ∀ p ∈ l.pairs, (Entry.pair p.1 p.2).Sound := by
    have hbyte : ∀ {key : List Char} (value : Option Byte), ValidKey key →
        ∀ p ∈ bytePairs key value, (Entry.pair p.1 p.2).Sound := by
      intro key value hkey
      cases value with
      | none => exact fun p hmem => absurd hmem not_mem_nil
      | some value => exact forall_mem_singleton.mpr (sound_hex hkey [value])
    simp only [Layout.pairs, forall_mem_append]
    refine ⟨hbyte _ (by decide), hbyte _ (by decide), hbyte _ (by decide), ?_, ?_, ?_⟩
    · cases l.locks with
      | none => exact fun p hmem => absurd hmem not_mem_nil
      | some locks =>
        exact forall_mem_cons.mpr ⟨sound_bool (validKeys lockDsfidKey (by decide)) _,
          forall_mem_singleton.mpr (sound_bool (validKeys lockAfiKey (by decide)) _)⟩
    · cases l.geometry with
      | none => exact fun p hmem => absurd hmem not_mem_nil
      | some geometry =>
        exact forall_mem_cons.mpr ⟨sound_uint32 (validKeys blockCountKey (by decide)) _,
          forall_mem_singleton.mpr (sound_hex (validKeys blockSizeKey (by decide)) _)⟩
    · cases l.blocks with
      | none => exact fun p hmem => absurd hmem not_mem_nil
      | some blocks =>
        exact forall_mem_cons.mpr ⟨sound_hex (validKeys dataContentKey (by decide)) _,
          forall_mem_singleton.mpr (sound_hex (validKeys securityStatusKey (by decide)) _)⟩
  have hplaced := placed_of_entries (forall_mem_map.mpr hsound)
  rw [hpairs] at hplaced
  exact ⟨_, hplaced⟩

namespace Data

variable {d : Data}

theorem present_of_flags (flags : Byte) : flags &&& 0xF0 = 0 →
    (if flags &&& 0x04 != 0 then presentFlags (flags &&& 0x01 != 0) (flags &&& 0x02 != 0)
        (flags &&& 0x08 != 0) ||| 0x04
      else presentFlags (flags &&& 0x01 != 0) (flags &&& 0x02 != 0) (flags &&& 0x08 != 0)) =
      flags := by
  revert flags
  exact forall_byte (by decide +kernel)

theorem Recorded.flags_eq (hd : d.Recorded) :
    (if d.hasMemory then presentFlags d.hasDsfid d.hasAfi d.hasIcRef ||| 0x04
      else presentFlags d.hasDsfid d.hasAfi d.hasIcRef) = d.flags :=
  present_of_flags d.flags hd.flags

theorem isSome_layout {α : Type} (present : Bool) (value : α) :
    (if present then some value else none).isSome = present := by
  cases present <;> rfl

theorem getD_layout {present : Bool} {value : Byte} (h : present = false → value = 0) :
    (if present then some value else none).getD 0 = value := by
  cases present with
  | false => exact (h rfl).symm
  | true => rfl

theorem Recorded.head (hd : d.Recorded) : d.layout.head d.uid = { d with
    flags := presentFlags d.hasDsfid d.hasAfi d.hasIcRef
    blockCount := 0
    blockSize := 0
    blockData := []
    blockSecurity := [] } := by
  rw [Layout.head, layout, isSome_layout, isSome_layout, isSome_layout, getD_layout hd.dsfid,
    getD_layout hd.afi, getD_layout hd.icRef]
  rfl

theorem pos_of_ne_nil {count : UInt16} {size : Byte} {xs : List Byte}
    (hpos : 0 < count ∧ 0 < size) (hlength : xs.length = size.toNat * count.toNat) : xs ≠ [] := by
  rw [UInt16.lt_iff_toNat_lt, UInt8.lt_iff_toNat_lt, UInt16.toNat_zero, UInt8.toNat_zero] at hpos
  have hprod := Nat.mul_pos hpos.2 hpos.1
  exact ne_nil_of_length_pos (hlength ▸ hprod)

theorem Recorded.security (hd : d.Recorded) (hpos : 0 < d.blockCount ∧ 0 < d.blockSize) :
    d.blockSecurity.length = d.blockCount.toNat ∧ d.blockSecurity ≠ [] := by
  have hsize : ¬ d.blockSize = 0 := fun h => absurd hpos.2 (by rw [h]; decide)
  have hlength := hd.length_blockSecurity
  rw [if_neg hsize] at hlength
  rw [UInt16.lt_iff_toNat_lt, UInt16.toNat_zero] at hpos
  exact ⟨hlength, ne_nil_of_length_pos (hlength ▸ hpos.1)⟩

theorem Recorded.empty (hd : d.Recorded) (hpos : ¬(0 < d.blockCount ∧ 0 < d.blockSize)) :
    d.blockData = [] ∧ d.blockSecurity = [] := by
  constructor
  · refine eq_nil_of_length_eq_zero (hd.length_blockData.trans ?_)
    obtain hcount | hsize := empty_of_not_pos hpos
    · rw [hcount, Nat.mul_zero]
    · rw [hsize, UInt8.toNat_zero, Nat.zero_mul]
  · refine eq_nil_of_length_eq_zero (hd.length_blockSecurity.trans ?_)
    split
    · rfl
    · next hsize => exact (empty_of_not_pos hpos).resolve_right hsize

theorem Recorded.save (hd : d.Recorded) : ∃ entries, d.save = some entries := by
  have hblocks : ∃ blocks, d.saveBlocks = some blocks := by
    rw [saveBlocks]
    split
    · next hpos =>
      rw [if_neg (not_or.mpr ⟨pos_of_ne_nil hpos hd.length_blockData, (hd.security hpos).2⟩)]
      exact ⟨_, rfl⟩
    · exact ⟨_, rfl⟩
  obtain ⟨blocks, hblocks⟩ := hblocks
  rw [Data.save, saveMemory, hblocks]
  split <;> exact ⟨_, rfl⟩

theorem Recorded.roundTrips (hd : d.Recorded) : d.RoundTrips := by
  obtain ⟨entries, hsave⟩ := hd.save
  refine ⟨entries, hsave, fun before after ff hbefore hafter hplaced => ?_⟩
  rw [pairs_save hsave] at hplaced
  have hwithin : d.layout.Within before after _ := ⟨hbefore, hafter, rfl⟩
  obtain ⟨next, hnext, hload⟩ := Layout.load_head hwithin d.uid hplaced
  suffices h : ∃ next, (fresh d.uid).load ff = some (d, next) by
    obtain ⟨next, h⟩ := h
    exact ⟨d, next, h, (isEqual_iff d d).mpr rfl⟩
  rw [hload]
  have hflags := hd.flags_eq
  have hhead := hd.head
  by_cases hmemory : d.hasMemory = true
  · have hgeometry : d.layout.geometry = some (d.blockCount, d.blockSize) := if_pos hmemory
    rw [if_pos hmemory] at hflags
    rw [hgeometry] at hnext ⊢
    obtain ⟨ff₁, h₁, hload₁⟩ := loadMemory_placed (d := d.layout.head d.uid) true hnext
    have hlocks : d.layout.locks.isSome = true := rfl
    rw [isSome_some, if_pos rfl, hlocks, hload₁]
    by_cases hpos : 0 < d.blockCount ∧ 0 < d.blockSize
    · have hblocks : d.layout.blocks = some (d.blockData, d.blockSecurity) :=
        if_pos ⟨hmemory, hpos⟩
      rw [hblocks] at h₁
      rw [if_pos hpos]
      obtain ⟨ff₂, h₂, hload₂⟩ := loadBlocks_placed
        (d := (d.layout.head d.uid).withGeometry d.blockCount d.blockSize) true h₁
        hd.length_blockData (hwithin.mem_security hblocks)
      obtain ⟨hlength, hne⟩ := hd.security hpos
      obtain ⟨ff₃, hload₃, -⟩ := loadSecurity_placed (d := ((d.layout.head d.uid).withGeometry
        d.blockCount d.blockSize).withBlocks (stored d.blockData)) h₂ hne
        (hlength ▸ d.blockCount.toNat_lt) (hlength.trans length_replicate.symm)
      refine ⟨ff₃, ?_⟩
      rw [hload₂, if_pos rfl, hload₃, hhead]
      refine congrArg (fun d => some (d, ff₃))
        (Data.ext rfl hflags rfl rfl rfl rfl rfl rfl rfl ?_ rfl)
      exact stored_eq hd.beyond
    · obtain ⟨hdata, hsecurity⟩ := hd.empty hpos
      refine ⟨ff₁, ?_⟩
      rw [if_neg hpos, hhead]
      exact congrArg (fun d => some (d, ff₁))
        (Data.ext rfl hflags rfl rfl rfl rfl rfl rfl rfl hdata.symm hsecurity.symm)
  · have hgeometry : d.layout.geometry = none := if_neg hmemory
    obtain ⟨hcount, hsize⟩ := hd.memory (Bool.eq_false_iff.mpr hmemory)
    obtain ⟨hdata, hsecurity⟩ := hd.empty (fun h => absurd h.1 (by rw [hcount]; decide))
    rw [if_neg hmemory] at hflags
    refine ⟨next, ?_⟩
    rw [hgeometry, hhead]
    exact congrArg (fun d => some (d, next))
      (Data.ext rfl hflags rfl rfl rfl hcount.symm hsize.symm rfl rfl hdata.symm hsecurity.symm)

theorem roundTrips_iff_recorded (d : Data) : d.RoundTrips ↔ d.Recorded := by
  constructor
  · rintro ⟨entries, hsave, hload⟩
    have hplaced := placed_of_entries (sound_save hsave)
    obtain ⟨loaded, next, hloaded, hequal⟩ := hload [] [] ⟨[], entriesText entries⟩
      foreign_nil foreign_nil (by rwa [nil_append, append_nil])
    exact (isEqual_iff loaded d).mp hequal ▸ (load_recorded hloaded).1
  · exact Recorded.roundTrips

end Data

namespace LegacyFile

/-- What becomes of the older security status. -/
def loaded (f : LegacyFile) (uid : List Byte) : Data :=
  let card : Data := (f.layout.head uid).withGeometry f.blockCount f.blockSize
  if 0 < f.blockCount ∧ 0 < f.blockSize then
    { card.withBlocks (stored f.blockData) with
      lockDsfid := f.lockByte &&& 0x01 != 0
      lockAfi := f.lockByte &&& 0x02 != 0 }
  else card

theorem load_eq (f : LegacyFile) {before after : List (List Char × WriteData)} {ff : Cursor Char}
    (uid : List Byte) (hbefore : Foreign before) (hafter : Foreign after)
    (hplaced : Placed ff (before ++ f.layout.pairs ++ after) (f.layout.pairs ++ after)) :
    ∃ next, (Data.fresh uid).load ff = some (f.loaded uid, next) := by
  have hwithin : f.layout.Within before after _ := ⟨hbefore, hafter, rfl⟩
  obtain ⟨ff₁, h₁, hload₁⟩ := Layout.load_head hwithin uid hplaced
  obtain ⟨ff₂, h₂, hload₂⟩ := Data.loadMemory_placed (d := f.layout.head uid) false h₁
  have hgeometry : f.layout.geometry.isSome = true := rfl
  have hlocks : f.layout.locks.isSome = false := rfl
  rw [hload₁, hgeometry, if_pos rfl, hlocks, hload₂, loaded]
  by_cases hpos : 0 < f.blockCount ∧ 0 < f.blockSize
  · obtain ⟨ff₃, h₃, hload₃⟩ := Data.loadBlocks_placed
      (d := (f.layout.head uid).withGeometry f.blockCount f.blockSize) false h₂ f.length_blockData
      (hwithin.mem_security rfl)
    obtain ⟨ff₄, hload₄, -⟩ := Data.loadSecurityLegacy_placed
      (d := ((f.layout.head uid).withGeometry f.blockCount f.blockSize).withBlocks
        (stored f.blockData)) h₃ f.fits
      (f.length_blockSecurity.trans length_replicate.symm)
    refine ⟨ff₄, ?_⟩
    rw [if_pos hpos, if_pos hpos, hload₃, if_neg Bool.false_ne_true, hload₄]
  · exact ⟨ff₂, by rw [if_neg hpos, if_neg hpos]⟩

theorem yields_iff_kept (f : LegacyFile) : f.Yields ↔ f.Kept := by
  have hiff : ∀ uid, ((f.loaded uid).lockDsfid = (f.lockByte &&& 0x01 != 0) ∧
      (f.loaded uid).lockAfi = (f.lockByte &&& 0x02 != 0) ∧
      (f.loaded uid).blockSecurity = f.blockSecurity) ↔ f.Kept := by
    intro uid
    rw [loaded, Kept]
    split
    · -- no block is locked then
      constructor
      · rintro ⟨-, -, hsecurity⟩ b hb
        rw [← hsecurity] at hb
        exact eq_of_mem_replicate hb
      · intro hzero
        exact ⟨rfl, rfl, (eq_replicate_iff.mpr ⟨f.length_blockSecurity, hzero⟩).symm⟩
    · -- the security status is not read
      constructor
      · rintro ⟨hdsfid, hafi, hsecurity⟩
        exact ⟨hsecurity.symm, bne_eq_false_iff_eq.mp hdsfid.symm, bne_eq_false_iff_eq.mp hafi.symm⟩
      · rintro ⟨hsecurity, hdsfid, hafi⟩
        exact ⟨(bne_eq_false_iff_eq.mpr hdsfid).symm, (bne_eq_false_iff_eq.mpr hafi).symm,
          hsecurity.symm⟩
  constructor
  · intro hyields
    obtain ⟨ff, hplaced⟩ := exists_placed f.layout
    obtain ⟨loaded, next, hload, hsame⟩ := hyields [] [] [] ff
      foreign_nil foreign_nil (by rwa [nil_append, append_nil])
    obtain ⟨next', hload'⟩ := @load_eq f [] [] ff [] foreign_nil foreign_nil
      (by rwa [nil_append, append_nil])
    obtain ⟨rfl, -⟩ := Prod.mk.inj (some.inj (hload.symm.trans hload'))
    exact (hiff []).mp hsame
  · intro hkept before after uid ff hbefore hafter hplaced
    obtain ⟨next, hload⟩ := f.load_eq uid hbefore hafter hplaced
    exact ⟨f.loaded uid, next, hload, (hiff uid).mpr hkept⟩

end LegacyFile

/-- Files keep exactly the cards of which everything is recorded, and the lock bits of older files
exactly where no block is locked. -/
theorem file_round_trip_iff (d : Data) (f : LegacyFile) :
    (d.RoundTrips ↔ d.Recorded) ∧ (f.Yields ↔ f.Kept) :=
  ⟨d.roundTrips_iff_recorded, f.yields_iff_kept⟩

def lockedFile : LegacyFile := ⟨none, none, none, 1, 1, [0xAA], 0, [1], rfl, rfl, by decide⟩

/-- The lock bit of a block is lost. -/
theorem locked_block_not_loaded : ¬ lockedFile.Yields := by
  intro h
  have hkept := lockedFile.yields_iff_kept.mp h
  exact absurd (hkept 1 mem_cons_self) (by decide)

end NikitaFirmware.Iso15693
