import NikitaFirmware.Nfc.BitBuffer
import NikitaFirmware.Toolbox.FlipperEntries

/-!
# Files of ISO15693 cards

`iso15693_3_save` and `iso15693_3_load` of `iso15693_3.c`, with the older form of the security
status that has the lock bits of the card in front. A card is loaded into data that has its UID
already. Where something cannot be read the data is given up, so that loading has no result.
-/

namespace NikitaFirmware.Iso15693
open Nfc Foundations Toolbox.FlipperStream Option

/-- `Iso15693_3Data` with its arrays as they are. -/
@[ext]
structure Data where
  uid : List Byte
  flags : Byte
  dsfid : Byte
  afi : Byte
  icRef : Byte
  blockCount : UInt16
  blockSize : Byte
  lockDsfid : Bool
  lockAfi : Bool
  blockData : List Byte
  blockSecurity : List Byte

/-- `iso15693_3_alloc` with the UID that `nfc_device.c` sets before it loads. -/
def Data.fresh (uid : List Byte) : Data := ⟨uid, 0, 0, 0, 0, 0, 0, false, false, [], []⟩

def Data.isEqual (data other : Data) : Bool :=
  data.uid == other.uid && (data.lockDsfid == other.lockDsfid && data.lockAfi == other.lockAfi) &&
    (data.flags == other.flags && data.dsfid == other.dsfid && data.afi == other.afi &&
      data.icRef == other.icRef && data.blockCount == other.blockCount &&
      data.blockSize == other.blockSize) &&
    data.blockData == other.blockData && data.blockSecurity == other.blockSecurity

def dsfidKey : List Char := "DSFID".toList
def afiKey : List Char := "AFI".toList
def icRefKey : List Char := "IC Reference".toList
def lockDsfidKey : List Char := "Lock DSFID".toList
def lockAfiKey : List Char := "Lock AFI".toList
def blockCountKey : List Char := "Block Count".toList
def blockSizeKey : List Char := "Block Size".toList
def dataContentKey : List Char := "Data Content".toList
def securityStatusKey : List Char := "Security Status".toList

def keys : List (List Char) :=
  [dsfidKey, afiKey, icRefKey, lockDsfidKey, lockAfiKey, blockCountKey, blockSizeKey,
    dataContentKey, securityStatusKey]

def saveByte (present : Bool) (text : String) (key : List Char) (value : Byte) : List Entry :=
  if present then [comment text, .pair key (hexData [value])] else []

def Data.hasDsfid (d : Data) : Bool := d.flags &&& 0x01 != 0
def Data.hasAfi (d : Data) : Bool := d.flags &&& 0x02 != 0
def Data.hasMemory (d : Data) : Bool := d.flags &&& 0x04 != 0
def Data.hasIcRef (d : Data) : Bool := d.flags &&& 0x08 != 0

/-- The blocks. An array that is empty fails a `furi_check`. -/
def Data.saveBlocks (d : Data) : Option (List Entry) :=
  if 0 < d.blockCount ∧ 0 < d.blockSize then
    if d.blockData = [] ∨ d.blockSecurity = [] then none
    else some [.pair dataContentKey (hexData d.blockData),
      comment "Block Security Status: 01 = locked, 00 = not locked",
      .pair securityStatusKey (hexData d.blockSecurity)]
  else some []

def Data.saveMemory (d : Data) : Option (List Entry) :=
  if d.hasMemory then
    d.saveBlocks.map ([comment "Number of memory blocks, valid range = 1..256",
      .pair blockCountKey (uint32Data d.blockCount.toUInt32),
      comment "Size of a single memory block, valid range = 01...20 (hex)",
      .pair blockSizeKey (hexData [d.blockSize])] ++ ·)
  else some []

def Data.save (d : Data) : Option (List Entry) :=
  d.saveMemory.map ([comment "ISO15693-3 specific data"] ++
    saveByte d.hasDsfid "Data Storage Format Identifier" dsfidKey d.dsfid ++
    saveByte d.hasAfi "Application Family Identifier" afiKey d.afi ++
    saveByte d.hasIcRef "IC Reference - Vendor specific meaning" icRefKey d.icRef ++
    [comment "Lock Bits", .pair lockDsfidKey (boolData d.lockDsfid),
      .pair lockAfiKey (boolData d.lockAfi)] ++ ·)

def loadByte (ff : Cursor Char) (key : List Char) : Option (Option Byte × Cursor Char) :=
  let present := keyExist ff key
  if present.1 then (readHex present.2 key 1).map fun r => (r.1.head?, r.2)
  else some (none, present.2)

def Data.setDsfid (d : Data) : Option Byte → Data
  | none => d
  | some value => { d with dsfid := value, flags := d.flags ||| 0x01 }

def Data.setAfi (d : Data) : Option Byte → Data
  | none => d
  | some value => { d with afi := value, flags := d.flags ||| 0x02 }

def Data.setIcRef (d : Data) : Option Byte → Data
  | none => d
  | some value => { d with icRef := value, flags := d.flags ||| 0x08 }

def lockBitsExist (ff : Cursor Char) : Bool × Cursor Char :=
  let dsfid := keyExist ff lockDsfidKey
  if dsfid.1 then keyExist dsfid.2 lockAfiKey else dsfid

def Data.loadLockBits (d : Data) (ff : Cursor Char) : Option (Data × Cursor Char) :=
  (readBool ff lockDsfidKey).bind fun dsfid =>
    (readBool dsfid.2 lockAfiKey).map fun afi =>
      ({ d with lockDsfid := dsfid.1, lockAfi := afi.1 }, afi.2)

def Data.loadSecurity (d : Data) (ff : Cursor Char) : Option (Data × Cursor Char) :=
  let valueCount := getValueCount ff securityStatusKey false
  if valueCount.1 = some d.blockSecurity.length then
    (readHex valueCount.2 securityStatusKey d.blockSecurity.length).map fun r =>
      ({ d with blockSecurity := r.1 }, r.2)
  else none

/-- `iso15693_3_load_security_legacy`. What follows the first byte of the temporary array is written
over with the block security, which stays as it is. -/
def Data.loadSecurityLegacy (d : Data) (ff : Cursor Char) : Option (Data × Cursor Char) :=
  let valueCount := getValueCount ff securityStatusKey false
  if valueCount.1 = some (d.blockSecurity.length + 1) then
    (readHex valueCount.2 securityStatusKey (d.blockSecurity.length + 1)).map fun r =>
      let lockBits : Byte := r.1.headD 0
      ({ d with lockDsfid := lockBits &&& 0x01 != 0, lockAfi := lockBits &&& 0x02 != 0 }, r.2)
  else none

/-- The blocks, with arrays of zeros at first. -/
def Data.loadBlocks (d : Data) (lockBits : Bool) (ff : Cursor Char) : Option (Data × Cursor Char) :=
  (readHex ff dataContentKey (d.blockSize.toNat * d.blockCount.toNat)).bind fun r =>
    let loaded : Data := { d with
      blockData := r.1
      blockSecurity := List.replicate d.blockCount.toNat 0 }
    let present := keyExist r.2 securityStatusKey
    if present.1 then
      if lockBits then loaded.loadSecurity present.2 else loaded.loadSecurityLegacy present.2
    else some (loaded, present.2)

def memoryExists (ff : Cursor Char) : Bool × Cursor Char :=
  let count := keyExist ff blockCountKey
  if count.1 then keyExist count.2 blockSizeKey else count

def Data.loadMemory (d : Data) (lockBits : Bool) (ff : Cursor Char) : Option (Data × Cursor Char) :=
  (readUint32 ff blockCountKey).bind fun count =>
    (readHex count.2 blockSizeKey 1).bind fun size =>
      let loaded : Data := { d with
        flags := d.flags ||| 0x04
        blockCount := count.1.toUInt16
        blockSize := size.1.headD 0 }
      if 0 < loaded.blockCount ∧ 0 < loaded.blockSize then loaded.loadBlocks lockBits size.2
      else some (loaded, size.2)

def Data.load (d : Data) (ff : Cursor Char) : Option (Data × Cursor Char) :=
  (loadByte ff dsfidKey).bind fun dsfid =>
    (loadByte dsfid.2 afiKey).bind fun afi =>
      (loadByte afi.2 icRefKey).bind fun icRef =>
        let read : Data := ((d.setDsfid dsfid.1).setAfi afi.1).setIcRef icRef.1
        let lockBits := lockBitsExist icRef.2
        (if lockBits.1 then read.loadLockBits lockBits.2
          else some (read, lockBits.2)).bind fun locks =>
          let memory := memoryExists locks.2
          if memory.1 then locks.1.loadMemory lockBits.1 memory.2 else some (locks.1, memory.2)

theorem Data.isEqual_iff (data other : Data) : data.isEqual other = true ↔ data = other := by
  obtain ⟨u, f, d, a, i, c, z, ld, la, b, e⟩ := data
  obtain ⟨u', f', d', a', i', c', z', ld', la', b', e'⟩ := other
  simp only [Data.isEqual, Bool.and_eq_true, beq_iff_eq, Data.mk.injEq]
  constructor
  · rintro ⟨⟨⟨⟨hu, hld, hla⟩, ⟨⟨⟨⟨hf, hd⟩, ha⟩, hi⟩, hc⟩, hz⟩, hb⟩, he⟩
    exact ⟨hu, hf, hd, ha, hi, hc, hz, hld, hla, hb, he⟩
  · rintro ⟨hu, hf, hd, ha, hi, hc, hz, hld, hla, hb, he⟩
    exact ⟨⟨⟨⟨hu, hld, hla⟩, ⟨⟨⟨⟨hf, hd⟩, ha⟩, hi⟩, hc⟩, hz⟩, hb⟩, he⟩

/-- Only what the flags say to be there has a value, the arrays are of the size that the geometry
gives them, and there is nothing in the part of them whose size a `uint16_t` does not count. -/
structure Data.Recorded (d : Data) : Prop where
  flags : d.flags &&& 0xF0 = 0
  dsfid : d.hasDsfid = false → d.dsfid = 0
  afi : d.hasAfi = false → d.afi = 0
  icRef : d.hasIcRef = false → d.icRef = 0
  memory : d.hasMemory = false → d.blockCount = 0 ∧ d.blockSize = 0
  length_blockData : d.blockData.length = d.blockSize.toNat * d.blockCount.toNat
  length_blockSecurity : d.blockSecurity.length = if d.blockSize = 0 then 0 else d.blockCount.toNat
  beyond : ∀ b ∈ d.blockData.drop (d.blockData.length % 2 ^ 16), b = 0

namespace Data

/-- A card of which no memory has been loaded yet. -/
structure Unfilled (d : Data) : Prop extends Recorded d where
  hasMemory : d.hasMemory = false
  blockData : d.blockData = []
  blockSecurity : d.blockSecurity = []

def presentFlags (dsfid afi icRef : Bool) : Byte :=
  let flags : Byte := if dsfid then 0 ||| 0x01 else 0
  let flags : Byte := if afi then flags ||| 0x02 else flags
  if icRef then flags ||| 0x08 else flags

theorem presentFlags_spec : ∀ dsfid afi icRef : Bool, presentFlags dsfid afi icRef &&& 0xF0 = 0 ∧
      (presentFlags dsfid afi icRef &&& 0x01 != 0) = dsfid ∧
      (presentFlags dsfid afi icRef &&& 0x02 != 0) = afi ∧
      (presentFlags dsfid afi icRef &&& 0x08 != 0) = icRef ∧
      (presentFlags dsfid afi icRef &&& 0x04 != 0) = false := by
  decide

theorem setBytes_eq (uid : List Byte) (dsfid afi icRef : Option Byte) :
    (((fresh uid).setDsfid dsfid).setAfi afi).setIcRef icRef = { fresh uid with
        flags := presentFlags dsfid.isSome afi.isSome icRef.isSome
        dsfid := dsfid.getD 0
        afi := afi.getD 0
        icRef := icRef.getD 0 } := by
  cases dsfid <;> cases afi <;> cases icRef <;> rfl

theorem getD_of_isSome {value : Option Byte} (h : value.isSome = false) : value.getD 0 = 0 := by
  rw [isSome_eq_false_iff.mp h |> isNone_iff_eq_none.mp]
  rfl

theorem unfilled_bytes (uid : List Byte) (dsfid afi icRef : Option Byte) :
    ((((fresh uid).setDsfid dsfid).setAfi afi).setIcRef icRef).Unfilled := by
  obtain ⟨hrest, hone, htwo, height, hfour⟩ :=
    presentFlags_spec dsfid.isSome afi.isSome icRef.isSome
  rw [setBytes_eq]
  exact ⟨⟨hrest, fun h => getD_of_isSome (hone.symm.trans h),
    fun h => getD_of_isSome (htwo.symm.trans h), fun h => getD_of_isSome (height.symm.trans h),
    fun _ => ⟨rfl, rfl⟩, rfl, rfl, fun b hb => absurd hb List.not_mem_nil⟩, hfour, rfl, rfl⟩

variable {r : Data × Cursor Char}

variable {ff : Cursor Char}

theorem Unfilled.loadLockBits {d : Data} (hd : d.Unfilled)
    (h : d.loadLockBits ff = some r) : r.1.Unfilled ∧ r.1.uid = d.uid := by
  obtain ⟨dsfid, -, h⟩ := bind_eq_some_iff.mp h
  obtain ⟨afi, -, rfl⟩ := map_eq_some_iff.mp h
  exact ⟨⟨⟨hd.flags, hd.dsfid, hd.afi, hd.icRef, hd.memory, hd.length_blockData,
    hd.length_blockSecurity, hd.beyond⟩, hd.hasMemory, hd.blockData, hd.blockSecurity⟩, rfl⟩

theorem Recorded.loadSecurity {d : Data} (hd : d.Recorded) (h : d.loadSecurity ff = some r) :
    r.1.Recorded ∧ r.1.uid = d.uid := by
  rw [Data.loadSecurity] at h
  split at h
  · obtain ⟨bytes, hbytes, rfl⟩ := map_eq_some_iff.mp h
    exact ⟨⟨hd.flags, hd.dsfid, hd.afi, hd.icRef, hd.memory, hd.length_blockData,
      (length_readHex hbytes).trans hd.length_blockSecurity, hd.beyond⟩, rfl⟩
  · exact absurd h (some_ne_none r).symm

theorem Recorded.loadSecurityLegacy {d : Data} (hd : d.Recorded)
    (h : d.loadSecurityLegacy ff = some r) :
    r.1.Recorded ∧ r.1.uid = d.uid := by
  rw [Data.loadSecurityLegacy] at h
  split at h
  · obtain ⟨bytes, -, rfl⟩ := map_eq_some_iff.mp h
    exact ⟨⟨hd.flags, hd.dsfid, hd.afi, hd.icRef, hd.memory, hd.length_blockData,
      hd.length_blockSecurity, hd.beyond⟩, rfl⟩
  · exact absurd h (some_ne_none r).symm

theorem flags_memory (flags : Byte) : (flags ||| 0x04) &&& 0x01 = flags &&& 0x01 ∧
    (flags ||| 0x04) &&& 0x02 = flags &&& 0x02 ∧ (flags ||| 0x04) &&& 0x08 = flags &&& 0x08 ∧
    (flags ||| 0x04) &&& 0xF0 = flags &&& 0xF0 ∧ (flags ||| 0x04) &&& 0x04 ≠ 0 := by
  revert flags
  exact forall_byte (by decide +kernel)

theorem empty_of_not_pos {count : UInt16} {size : Byte} (h : ¬(0 < count ∧ 0 < size)) :
    count.toNat = 0 ∨ size = 0 := by
  rw [UInt16.lt_iff_toNat_lt, UInt8.lt_iff_toNat_lt, UInt16.toNat_zero, UInt8.toNat_zero] at h
  rw [← UInt8.toNat_inj, UInt8.toNat_zero]
  omega

theorem Unfilled.loadMemory {d : Data} (hd : d.Unfilled) {lockBits : Bool}
    (h : d.loadMemory lockBits ff = some r) :
    r.1.Recorded ∧ r.1.uid = d.uid := by
  obtain ⟨count, -, h⟩ := bind_eq_some_iff.mp h
  obtain ⟨size, -, h⟩ := bind_eq_some_iff.mp h
  obtain ⟨hone, htwo, height, hrest, hfour⟩ := flags_memory d.flags
  have hdsfid : ((d.flags ||| 0x04) &&& 0x01 != 0) = false → d.dsfid = 0 := hone ▸ hd.dsfid
  have hafi : ((d.flags ||| 0x04) &&& 0x02 != 0) = false → d.afi = 0 := htwo ▸ hd.afi
  have hicRef : ((d.flags ||| 0x04) &&& 0x08 != 0) = false → d.icRef = 0 := height ▸ hd.icRef
  have hmemory : ((d.flags ||| 0x04) &&& 0x04 != 0) = true := bne_iff_ne.mpr hfour
  dsimp only at h
  split at h
  · next hpos =>
    obtain ⟨data, hdata, h⟩ := bind_eq_some_iff.mp h
    have hsize : ¬ size.1.headD 0 = 0 := fun h => by
      rw [h] at hpos
      exact absurd hpos.2 (by decide)
    have hloaded : Recorded { d with
        flags := d.flags ||| 0x04
        blockCount := count.1.toUInt16
        blockSize := size.1.headD 0
        blockData := data.1
        blockSecurity := List.replicate count.1.toUInt16.toNat 0 } :=
      ⟨hrest.trans hd.flags, hdsfid, hafi, hicRef,
        fun h => absurd (hmemory.symm.trans h) (by decide), length_readHex hdata,
        List.length_replicate.trans (if_neg hsize).symm, by
          rw [length_readHex hdata]
          exact beyond_readHex hdata⟩
    dsimp only at h
    split at h
    · split at h
      · exact hloaded.loadSecurity h
      · exact hloaded.loadSecurityLegacy h
    · obtain rfl := some.inj h
      exact ⟨hloaded, rfl⟩
  · next hzero =>
    obtain rfl := some.inj h
    refine ⟨⟨hrest.trans hd.flags, hdsfid, hafi, hicRef,
      fun h => absurd (hmemory.symm.trans h) (by decide), ?_, ?_, hd.beyond⟩, rfl⟩
    · obtain hcount | hsize := empty_of_not_pos hzero
      · rw [hd.blockData, hcount, Nat.mul_zero]
        rfl
      · rw [hd.blockData, hsize, UInt8.toNat_zero, Nat.zero_mul]
        rfl
    · rw [hd.blockSecurity]
      dsimp only
      split
      · rfl
      · next hsize => exact ((empty_of_not_pos hzero).resolve_right hsize).symm

theorem load_recorded {uid : List Byte}
    (h : (fresh uid).load ff = some r) : r.1.Recorded ∧ r.1.uid = uid := by
  obtain ⟨dsfid, -, h⟩ := bind_eq_some_iff.mp h
  obtain ⟨afi, -, h⟩ := bind_eq_some_iff.mp h
  obtain ⟨icRef, -, h⟩ := bind_eq_some_iff.mp h
  obtain ⟨locks, hlocks, h⟩ := bind_eq_some_iff.mp h
  have hread := unfilled_bytes uid dsfid.1 afi.1 icRef.1
  have huid := congrArg Data.uid (setBytes_eq uid dsfid.1 afi.1 icRef.1)
  have hunfilled : locks.1.Unfilled ∧ locks.1.uid = uid := by
    split at hlocks
    · obtain ⟨hunfilled, hsame⟩ := hread.loadLockBits hlocks
      exact ⟨hunfilled, hsame.trans huid⟩
    · obtain rfl := some.inj hlocks
      exact ⟨hread, huid⟩
  dsimp only at h
  split at h
  · obtain ⟨hrecorded, hsame⟩ := hunfilled.1.loadMemory h
    exact ⟨hrecorded, hsame.trans hunfilled.2⟩
  · obtain rfl := some.inj h
    exact ⟨hunfilled.1.toRecorded, hunfilled.2⟩

end Data

end NikitaFirmware.Iso15693
