import NikitaFirmware.MfClassic.Dump

/-!
# Saving and loading cards that are known in part

The text of a block is read back byte by byte, so that each part of a block that is known comes back
with its mask. What is not known is as in a card of which nothing has been read.
-/

namespace NikitaFirmware.MfClassic
open Nfc Foundations Toolbox.FlipperStream List Function

/-- A byte without the space behind it. -/
def cellWord : Option Byte → List Char
  | some byte => printHex 2 byte.toNat
  | none => "??".toList

theorem cellText_eq (cell : Option Byte) : cellText cell = cellWord cell ++ [' '] := by
  cases cell <;> rfl

theorem isToken_cellWord (cell : Option Byte) : IsToken (cellWord cell) := by
  cases cell with
  | some byte => exact hexFormat.token byte
  | none => exact ⟨by decide, by simp [cellWord, isSpace]⟩

theorem not_trimmed {w : List Char} (hw : IsToken w) : ∀ c ∈ w, isTrimmed c = false := by
  intro c hc
  obtain ⟨hspace, heol⟩ := hw.2 c hc
  simp only [isSpace, Bool.or_eq_false_iff, decide_eq_false_iff_not] at hspace
  simp only [isTrimmed, Bool.or_eq_false_iff, decide_eq_false_iff_not]
  exact ⟨⟨⟨hspace.1.1, heol⟩, hspace.2⟩, hspace.1.2⟩

theorem flatMap_cellText {cells : List (Option Byte)} (hne : cells ≠ []) :
    cells.flatMap cellText = valuesText (cells.map cellWord) ++ [' '] := by
  induction cells with
  | nil => exact absurd rfl hne
  | cons cell cells ih =>
    rw [flatMap_cons, cellText_eq, map_cons]
    cases cells with
    | nil => rw [flatMap_nil, append_nil, map_nil, valuesText_singleton]
    | cons other cells =>
      rw [ih (cons_ne_nil _ _), map_cons, valuesText_cons]
      simp only [append_assoc, cons_append, nil_append]

theorem valuesText_last {ws : List (List Char)} (hws : ∀ w ∈ ws, IsToken w) (hne : ws ≠ []) :
    ∃ front c, valuesText ws = front ++ [c] ∧ isTrimmed c = false := by
  induction ws with
  | nil => exact absurd rfl hne
  | cons w ws ih =>
    obtain ⟨hw, htail⟩ := forall_mem_cons.mp hws
    cases ws with
    | nil =>
      have hlast := dropLast_append_getLast hw.1
      refine ⟨w.dropLast, w.getLast hw.1, ?_, not_trimmed hw _ (getLast_mem hw.1)⟩
      rw [valuesText_singleton, hlast]
    | cons v ws =>
      obtain ⟨front, c, hfront, hc⟩ := ih htail (cons_ne_nil _ _)
      refine ⟨w ++ ' ' :: front, c, ?_, hc⟩
      rw [valuesText_cons, hfront]
      simp only [append_assoc, cons_append]

theorem trim_values {ws : List (List Char)} (hws : ∀ w ∈ ws, IsToken w) (hne : ws ≠ []) :
    trim (valuesText ws) = valuesText ws ∧ trim (valuesText ws ++ [' ']) = valuesText ws := by
  obtain ⟨front, c, hfront, hc⟩ := valuesText_last hws hne
  have hright : (valuesText ws).rdropWhile isTrimmed = valuesText ws := by
    rw [hfront]
    exact rdropWhile_concat_neg _ _ _ (by rw [hc]; decide)
  have hleft : (valuesText ws).dropWhile isTrimmed = valuesText ws := by
    obtain ⟨w, ws, rfl⟩ := exists_cons_of_ne_nil hne
    have hw := hws w mem_cons_self
    obtain ⟨d, rest, hhead⟩ := exists_cons_of_ne_nil hw.1
    obtain ⟨rest', htext⟩ : ∃ rest', valuesText (w :: ws) = d :: rest' := by
      cases ws with
      | nil => exact ⟨rest, by rw [valuesText_singleton, hhead]⟩
      | cons v ws => exact ⟨_, by rw [valuesText_cons, hhead, cons_append]⟩
    have hd := not_trimmed hw d (by rw [hhead]; exact mem_cons_self)
    rw [htext]
    exact dropWhile_cons_of_neg (by rw [hd]; decide)
  constructor
  · rw [trim, hright, hleft]
  · rw [trim, rdropWhile_concat_pos _ _ _ rfl, hright, hleft]

theorem parseCells_cons (cell : Option Byte) (n : Nat) (rest : List Char) :
    parseCells (n + 1) (cellWord cell ++ rest) = (parseCells n (rest.drop 1)).map (cell :: ·) := by
  cases cell with
  | none => rfl
  | some byte =>
    have hscan : scanHex (printHex 2 byte.toNat) = some byte := hexFormat.scan_print byte
    obtain ⟨hi, low, htext⟩ := length_eq_two.mp (length_printHex 2 byte.toNat)
    rw [htext] at hscan
    rw [cellWord, htext, ← hscan]
    rfl

theorem parseCells_values (cells : List (Option Byte)) :
    parseCells cells.length (valuesText (cells.map cellWord)) = some cells := by
  induction cells with
  | nil => rfl
  | cons cell cells ih =>
    rw [length_cons, map_cons]
    cases cells with
    | nil =>
      rw [map_nil, valuesText_singleton, ← append_nil (cellWord cell), parseCells_cons]
      rfl
    | cons other cells =>
      rw [map_cons, valuesText_cons, parseCells_cons, drop_one, tail_cons]
      rw [map_cons] at ih
      rw [ih]
      rfl

theorem Dump.length_cells (d : Dump) (num : Byte) : (d.cells num).length = 16 := by
  have hlength := fun b : Block => b.length_bytes
  rw [Dump.cells]
  split
  · simp only [cellsOf, Block.keyA, Block.accessBits, Block.keyB, Block.part, length_append,
      length_map, length_take, length_drop, hlength]
    decide
  · rw [cellsOf, length_map, hlength]

theorem Dump.parse_blockStr (d : Dump) (num : Byte) :
    d.blockStr num = valuesText ((d.cells num).map cellWord) ∧
      parseCells 16 (trim (trim (d.blockStr num))) = some (d.cells num) := by
  have hne : d.cells num ≠ [] := ne_nil_of_length_pos (by rw [d.length_cells]; decide)
  have htokens : ∀ w ∈ (d.cells num).map cellWord, IsToken w := by
    intro w hw
    obtain ⟨cell, -, rfl⟩ := mem_map.mp hw
    exact isToken_cellWord cell
  obtain ⟨hself, hspace⟩ := trim_values htokens (map_eq_nil_iff.not.mpr hne)
  have hstr : d.blockStr num = valuesText ((d.cells num).map cellWord) := by
    rw [blockStr, flatMap_cellText hne, hspace]
  refine ⟨hstr, ?_⟩
  have hparse := parseCells_values (d.cells num)
  rw [d.length_cells] at hparse
  rw [hstr, hself, hself, hparse]

section
variable {known : Bool} {bytes : List Byte}

theorem all_isSome_cellsOf (hne : bytes ≠ []) :
    (cellsOf known bytes).all Option.isSome = known := by
  obtain ⟨b, bytes, rfl⟩ := exists_cons_of_ne_nil hne
  cases known with
  | false => rfl
  | true =>
    rw [cellsOf, all_map, all_eq_true]
    exact fun b _ => rfl

theorem all_isNone_cellsOf (hne : bytes ≠ []) :
    (cellsOf known bytes).all Option.isNone = !known := by
  obtain ⟨b, bytes, rfl⟩ := exists_cons_of_ne_nil hne
  cases known with
  | true => rfl
  | false =>
    rw [cellsOf, all_map, Bool.not_false, all_eq_true]
    exact fun b _ => rfl

theorem map_getD_cellsOf (bytes : List Byte) :
    (cellsOf true bytes).map (fun cell => cell.getD 0) = bytes := by
  rw [cellsOf, map_map]
  exact map_id bytes

theorem length_cellsOf : (cellsOf known bytes).length = bytes.length := length_map _

end

namespace Block

def key (b : Block) (type : KeyType) : List Byte := b.part (keyStart type) 6

variable (b : Block)

theorem length_part {start size : Nat} (h : start + size ≤ 16) :
    (b.part start size).length = size := by
  rw [part, length_take, length_drop, b.length_bytes]
  omega

end Block

namespace Dump

variable {d l : Dump} {num : Byte}

/-- A key of the sector of a trailer is taken over, if it is known. -/
def restoreKey (l d : Dump) (num : Byte) (type : KeyType) : Dump :=
  if d.isKeyFound (getSectorByBlock num) type then
    l.setKeyFound (getSectorByBlock num) type (bytesToNumBe ((d.block num).key type))
  else l

/-- A block is taken over, if it has been read. -/
def restoreRead (l d : Dump) (num : Byte) : Dump :=
  if d.isBlockRead num then l.setBlockRead num (d.block num).bytes else l

def restore (l d : Dump) (num : Byte) : Dump :=
  if isSectorTrailer num then ((l.restoreKey d num .a).restoreRead d num).restoreKey d num .b
  else l.restoreRead d num

theorem trailer_of_block : ∀ num : Byte, isSectorTrailer num = true →
    getSectorTrailerNumBySector (getSectorByBlock num) = num :=
  forall_byte (by decide +kernel)

theorem setBlockRead_congr {data data' : List Byte} (htrailer : isSectorTrailer num = true)
    (h : (data.drop 6).take 4 = (data'.drop 6).take 4) :
    l.setBlockRead num data = l.setBlockRead num data' := by
  rw [setBlockRead, setBlockRead, if_pos htrailer, if_pos htrailer, h]

theorem setKeyFound_cells (l : Dump) (sector : Byte) (type : KeyType) (known : Bool)
    (bytes : List Byte) :
    (if known then l.setKeyFound sector type
        (bytesToNumBe ((cellsOf known bytes).map fun cell => cell.getD 0)) else l) =
      if known then l.setKeyFound sector type (bytesToNumBe bytes) else l := by
  cases known with
  | false => rw [if_neg Bool.false_ne_true, if_neg Bool.false_ne_true]
  | true => rw [map_getD_cellsOf]

theorem takeCells_cells (l d : Dump) (num : Byte) :
    l.takeCells num (d.cells num) = l.restore d num := by
  rw [takeCells, restore]
  cases htrailer : isSectorTrailer num with
  | false =>
    change _ = l.restoreRead d num
    rw [restoreRead]
    have hne : (d.block num).bytes ≠ [] :=
      ne_nil_of_length_pos (by rw [(d.block num).length_bytes]; decide)
    have hcells : d.cells num = cellsOf (d.isBlockRead num) (d.block num).bytes := by
      rw [cells, htrailer]
      rfl
    rw [hcells, all_isNone_cellsOf hne, all_isSome_cellsOf hne]
    cases d.isBlockRead num with
    | false => rfl
    | true => exact congrArg (l.setBlockRead num) (map_getD_cellsOf _)
  | true =>
    change _ = ((l.restoreKey d num .a).restoreRead d num).restoreKey d num .b
    rw [restoreKey, restoreRead, restoreKey]
    have hsame : d.getSectorTrailerBySector (getSectorByBlock num) = d.block num :=
      congrArg d.block (trailer_of_block num htrailer)
    have hlengthA : (d.block num).keyA.length = 6 := (d.block num).length_part (by decide)
    have hlengthC : (d.block num).accessBits.length = 4 := (d.block num).length_part (by decide)
    have hlengthB : (d.block num).keyB.length = 6 := (d.block num).length_part (by decide)
    have hcells : d.cells num =
        cellsOf (d.isKeyFound (getSectorByBlock num) .a) (d.block num).keyA ++
        (cellsOf (d.isBlockRead num) (d.block num).accessBits ++
          cellsOf (d.isKeyFound (getSectorByBlock num) .b) (d.block num).keyB) := by
      rw [cells, if_pos htrailer, ← hsame, ← append_assoc]
    have hneA := ne_nil_of_length_eq_add_one hlengthA
    have hneC := ne_nil_of_length_eq_add_one hlengthC
    have hneB := ne_nil_of_length_eq_add_one hlengthB
    -- the three parts of a trailer are cut out of the line where they were put together
    have hA : (d.cells num).take 6 =
        cellsOf (d.isKeyFound (getSectorByBlock num) .a) (d.block num).keyA := by
      rw [hcells]
      exact take_left' (length_cellsOf.trans hlengthA)
    have hC : ((d.cells num).drop 6).take 4 =
        cellsOf (d.isBlockRead num) (d.block num).accessBits := by
      rw [hcells, drop_left' (length_cellsOf.trans hlengthA)]
      exact take_left' (length_cellsOf.trans hlengthC)
    have hB : (d.cells num).drop 10 =
        cellsOf (d.isKeyFound (getSectorByBlock num) .b) (d.block num).keyB := by
      rw [hcells, ← append_assoc]
      refine drop_left' ?_
      rw [length_append, length_cellsOf, length_cellsOf, hlengthA, hlengthC]
    have hnone : (d.cells num).all Option.isNone = (!d.isKeyFound (getSectorByBlock num) .a &&
        (!d.isBlockRead num && !d.isKeyFound (getSectorByBlock num) .b)) := by
      rw [hcells, all_append, all_append, all_isNone_cellsOf hneA,
        all_isNone_cellsOf hneC, all_isNone_cellsOf hneB]
    have haccess : ∀ l : Dump, (if d.isBlockRead num then
        l.setBlockRead num ((d.cells num).map fun cell => cell.getD 0) else l) =
          if d.isBlockRead num then l.setBlockRead num (d.block num).bytes else l := by
      intro l
      split
      · next hread =>
        refine setBlockRead_congr htrailer ?_
        rw [← map_drop, ← map_take, hC, hread, map_getD_cellsOf]
        rfl
      · rfl
    rw [hnone]
    dsimp only
    rw [← map_take, ← map_drop, hA, hB, hC, all_isSome_cellsOf hneA,
      all_isSome_cellsOf hneC, all_isSome_cellsOf hneB, setKeyFound_cells, haccess,
      setKeyFound_cells]
    split
    · next hall =>
      simp only [Bool.and_eq_true, Bool.not_eq_true'] at hall
      rw [hall.1, hall.2.1, hall.2.2]
      rfl
    · rfl

end Dump

theorem numToBytesBe_bytesToNumBe {bytes : List Byte} {n : Nat} (h : bytes.length = n) :
    numToBytesBe (bytesToNumBe bytes) n = bytes := by
  have hdigits := Digits.digits_value (b := 256) (bytes.map UInt8.toNat) (by
    intro v hv
    obtain ⟨byte, -, rfl⟩ := mem_map.mp hv
    exact byte.toNat_lt)
  rw [length_map, h] at hdigits
  rw [numToBytesBe, bytesToNumBe, hdigits, map_map]
  exact (map_congr_left fun byte _ => UInt8.ofNat_toNat).trans (map_id bytes)

theorem getLsbD_set {w n : Nat} (m : BitVec w) (h : n < w) (i : Nat) :
    (m ||| 1#w <<< n).getLsbD i = (m.getLsbD i || decide (i = n)) := by
  rw [BitVec.getLsbD_or, BitVec.getLsbD_shiftLeft, BitVec.getLsbD_one]
  congr 1
  rw [Bool.eq_iff_iff]
  simp only [Bool.and_eq_true, Bool.not_eq_true', decide_eq_true_eq, decide_eq_false_iff_not]
  omega

namespace Dump

variable {d l l' l'' : Dump} {num : Byte}

theorem sector_lt : ∀ num : Byte, (getSectorByBlock num).toNat < 64 :=
  forall_byte (by decide +kernel)

/-- Two dumps differ in what is known, and in one block. -/
structure SameBut (num : Byte) (l l' : Dump) : Prop where
  uid : l'.uid = l.uid
  type : l'.type = l.type
  atqa : l'.atqa = l.atqa
  sak : l'.sak = l.sak
  block : ∀ b ≠ num, l'.block b = l.block b

theorem SameBut.refl (num : Byte) (l : Dump) : SameBut num l l :=
  ⟨rfl, rfl, rfl, rfl, fun _ _ => rfl⟩

theorem SameBut.trans (h : SameBut num l l') (h' : SameBut num l' l'') : SameBut num l l'' :=
  ⟨h'.uid.trans h.uid, h'.type.trans h.type, h'.atqa.trans h.atqa, h'.sak.trans h.sak,
    fun b hb => (h'.block b hb).trans (h.block b hb)⟩

structure Adds (num : Byte) (l l' : Dump) (read : Bool) (key : KeyType → Bool) : Prop
    extends SameBut num l l' where
  read : ∀ i, l'.blockReadMask.getLsbD i =
    (l.blockReadMask.getLsbD i || (decide (i = num.toNat) && read))
  key : ∀ type i, (l'.keyMask type).getLsbD i =
    ((l.keyMask type).getLsbD i || (decide (i = (getSectorByBlock num).toNat) && key type))

theorem restoreKey_adds (l d : Dump) (type : KeyType) (htrailer : isSectorTrailer num = true) :
    Adds num l (l.restoreKey d num type) false
      fun t => decide (t = type) && d.isKeyFound (getSectorByBlock num) type := by
  rw [restoreKey]
  split
  · next hfound =>
    refine ⟨⟨rfl, rfl, rfl, rfl, fun b hb => ?_⟩, fun i => ?_, fun t i => ?_⟩
    · rw [setKeyFound, trailer_of_block num htrailer]
      exact update_of_ne hb _ _
    · rw [Bool.and_false, Bool.or_false]
      rfl
    · have hlt : (getSectorByBlock num).toNat < 64 := sector_lt num
      rw [setKeyFound]
      dsimp only
      by_cases ht : t = type
      · subst ht
        rw [update_self, getLsbD_set _ hlt, hfound, decide_eq_true rfl, Bool.and_self,
          Bool.and_true]
      · rw [update_of_ne ht, decide_eq_false ht, Bool.false_and, Bool.and_false, Bool.or_false]
  · next hfound =>
    rw [Bool.not_eq_true] at hfound
    refine ⟨SameBut.refl num l, fun i => ?_, fun t i => ?_⟩
    · rw [Bool.and_false, Bool.or_false]
    · rw [hfound, Bool.and_false, Bool.and_false, Bool.or_false]

theorem restoreRead_adds (l d : Dump) (num : Byte) :
    Adds num l (l.restoreRead d num) (d.isBlockRead num) fun _ => false := by
  rw [restoreRead]
  split
  · next hread =>
    refine ⟨⟨rfl, rfl, rfl, rfl, fun b hb => update_of_ne hb _ _⟩, fun i => ?_,
      fun t i => ?_⟩
    · rw [setBlockRead]
      dsimp only
      rw [getLsbD_set _ num.toNat_lt, hread, Bool.and_true]
    · rw [Bool.and_false, Bool.or_false]
      rfl
  · next hread =>
    rw [Bool.not_eq_true] at hread
    refine ⟨SameBut.refl num l, fun i => ?_, fun t i => ?_⟩
    · rw [hread, Bool.and_false, Bool.or_false]
    · rw [Bool.and_false, Bool.or_false]

/-- What the block of a dump is when a block of another one has been taken over. -/
structure BlockRestored (d base : Dump) (num : Byte) (block : Block) : Prop where
  data : isSectorTrailer num = false →
    block = if d.isBlockRead num then d.block num else base.block num
  key : isSectorTrailer num = true → ∀ type, block.key type =
    if d.isKeyFound (getSectorByBlock num) type then (d.block num).key type
    else (base.block num).key type
  accessBits : isSectorTrailer num = true → block.accessBits =
    if d.isBlockRead num then (d.block num).accessBits else (base.block num).accessBits

theorem length_key (b : Block) (type : KeyType) : (b.key type).length = 6 := by
  cases type <;> exact b.length_part (by decide)

theorem restoreKey_block (l d : Dump) (type : KeyType) (htrailer : isSectorTrailer num = true) :
    ((l.restoreKey d num type).block num) =
      if d.isKeyFound (getSectorByBlock num) type then
        (l.block num).copyIn (keyStart type) ((d.block num).key type)
      else l.block num := by
  rw [restoreKey]
  split
  · rw [setKeyFound, trailer_of_block num htrailer, numToBytesBe_bytesToNumBe (length_key _ type)]
    dsimp only
    rw [update_self]
  · rfl

theorem keyStart_add_length_key (b : Block) (type : KeyType) :
    keyStart type + (b.key type).length ≤ 16 := by
  rw [length_key]
  cases type <;> decide

theorem restoreKey_key (l d : Dump) (type : KeyType) (htrailer : isSectorTrailer num = true) :
    ((l.restoreKey d num type).block num).key type =
      if d.isKeyFound (getSectorByBlock num) type then (d.block num).key type
      else (l.block num).key type := by
  rw [restoreKey_block l d type htrailer]
  split
  · have hpart := @Block.part_copyIn (l.block num) _ _ (keyStart_add_length_key (d.block num) type)
    rwa [length_key] at hpart
  · rfl

theorem restoreKey_part (l d : Dump) (type : KeyType) (htrailer : isSectorTrailer num = true)
    {start size : Nat} (hle : start + size ≤ keyStart type ∨ keyStart type + 6 ≤ start) :
    ((l.restoreKey d num type).block num).part start size = (l.block num).part start size := by
  rw [restoreKey_block l d type htrailer]
  split
  · exact Block.part_copyIn_apart (by rwa [length_key])
  · rfl

theorem length_accessBits (b : Block) : b.accessBits.length = 4 := b.length_part (by decide)

theorem restoreRead_accessBits (l d : Dump) (htrailer : isSectorTrailer num = true) :
    ((l.restoreRead d num).block num).accessBits =
      if d.isBlockRead num then (d.block num).accessBits else (l.block num).accessBits := by
  rw [restoreRead]
  split
  · have hlength := length_accessBits (d.block num)
    rw [setBlockRead, if_pos htrailer]
    dsimp only
    rw [update_self]
    have hpart := @Block.part_copyIn (l.block num) 6 (d.block num).accessBits
      (by rw [hlength]; decide)
    rwa [hlength] at hpart
  · rfl

theorem restoreRead_part (l d : Dump) (htrailer : isSectorTrailer num = true) {start size : Nat}
    (hle : start + size ≤ 6 ∨ 10 ≤ start) :
    ((l.restoreRead d num).block num).part start size = (l.block num).part start size := by
  rw [restoreRead]
  split
  · have hlength := length_accessBits (d.block num)
    rw [setBlockRead, if_pos htrailer]
    dsimp only
    rw [update_self]
    exact Block.part_copyIn_apart (by rwa [← Block.part, ← Block.accessBits, hlength])
  · rfl

theorem restore_block (l d : Dump) (num : Byte) :
    BlockRestored d l num ((l.restore d num).block num) := by
  rw [restore]
  cases htrailer : isSectorTrailer num with
  | false =>
    refine ⟨fun _ => ?_, fun h => absurd (htrailer.symm.trans h) Bool.false_ne_true,
      fun h => absurd (htrailer.symm.trans h) Bool.false_ne_true⟩
    rw [if_neg Bool.false_ne_true, restoreRead]
    split
    · rw [setBlockRead, htrailer, if_neg Bool.false_ne_true]
      dsimp only
      rw [update_self, Block.copyIn_bytes]
    · rfl
  | true =>
    rw [if_pos rfl]
    refine ⟨fun h => absurd (h.symm.trans htrailer) Bool.false_ne_true, fun _ type => ?_,
      fun _ => ?_⟩
    · cases type with
      | a =>
        rw [Block.key, restoreKey_part _ d .b htrailer (.inl (by decide)),
          restoreRead_part _ d htrailer (.inl (by decide))]
        exact restoreKey_key l d .a htrailer
      | b =>
        have hkey : (((l.restoreKey d num .a).restoreRead d num).block num).key .b =
            (l.block num).key .b :=
          (restoreRead_part _ d htrailer (.inr (by decide))).trans
            (restoreKey_part l d .a htrailer (.inr (by decide)))
        rw [restoreKey_key _ d .b htrailer, hkey]
    · have haccess : ((l.restoreKey d num .a).block num).accessBits = (l.block num).accessBits :=
        restoreKey_part l d .a htrailer (.inr (by decide))
      rw [Block.accessBits, restoreKey_part _ d .b htrailer (.inl (by decide))]
      exact (restoreRead_accessBits _ d htrailer).trans (by rw [haccess])

theorem Adds.trans {read read' : Bool} {key key' : KeyType → Bool} (h : Adds num l l' read key)
    (h' : Adds num l' l'' read' key') :
    Adds num l l'' (read || read') fun type => key type || key' type where
  toSameBut := h.toSameBut.trans h'.toSameBut
  read := fun i => by rw [h'.read, h.read, Bool.and_or_distrib_left, Bool.or_assoc]
  key := fun type i => by rw [h'.key, h.key, Bool.and_or_distrib_left, Bool.or_assoc]

theorem restore_adds (l d : Dump) (num : Byte) : Adds num l (l.restore d num) (d.isBlockRead num)
      fun type => isSectorTrailer num && d.isKeyFound (getSectorByBlock num) type := by
  rw [restore]
  cases htrailer : isSectorTrailer num with
  | false => exact restoreRead_adds l d num
  | true =>
    have hadds := ((restoreKey_adds l d .a htrailer).trans (restoreRead_adds _ d num)).trans
      (restoreKey_adds _ d .b htrailer)
    refine ⟨hadds.toSameBut, fun i => ?_, fun type i => ?_⟩
    · rw [if_pos rfl, hadds.read, Bool.false_or, Bool.or_false]
    · rw [if_pos rfl, hadds.key]
      cases type <;> simp

theorem parseBlock_blockStr (l d : Dump) (num : Byte) :
    l.parseBlock (d.blockStr num) num = some (l.restore d num) := by
  rw [parseBlock, (d.parse_blockStr num).2, Option.map_some, takeCells_cells]

def trailerNum (sector : Nat) : Nat :=
  if sector < 32 then sector * 4 + 3 else 128 + (sector - 32) * 16 + 15

theorem trailerNum_getSectorByBlock : ∀ num : Byte, isSectorTrailer num = true →
    trailerNum (getSectorByBlock num).toNat = num.toNat :=
  forall_byte (by decide +kernel)

theorem getSectorByBlock_trailerNum : ∀ sector < 40,
    isSectorTrailer (UInt8.ofNat (trailerNum sector)) = true ∧
      (getSectorByBlock (UInt8.ofNat (trailerNum sector))).toNat = sector := by
  decide

theorem trailerNum_eq_iff (num : Byte) (sector : Nat) : trailerNum sector = num.toNat ↔
      isSectorTrailer num = true ∧ sector = (getSectorByBlock num).toNat := by
  constructor
  · intro h
    have hlt : sector < 40 := by
      have hnum := num.toNat_lt
      rw [trailerNum] at h
      split at h <;> omega
    obtain ⟨htrailer, hsector⟩ := getSectorByBlock_trailerNum sector hlt
    rw [h, UInt8.ofNat_toNat] at htrailer hsector
    exact ⟨htrailer, hsector.symm⟩
  · rintro ⟨htrailer, rfl⟩
    exact trailerNum_getSectorByBlock num htrailer

/-- The blocks in front of a number have been taken over. -/
structure Restored (d base : Dump) (n : Nat) (l : Dump) : Prop where
  uid : l.uid = base.uid
  type : l.type = base.type
  atqa : l.atqa = base.atqa
  sak : l.sak = base.sak
  block : ∀ b : Byte, b.toNat < n → BlockRestored d base b (l.block b)
  behind : ∀ b : Byte, n ≤ b.toNat → l.block b = base.block b
  read : ∀ i, l.blockReadMask.getLsbD i = (decide (i < n) && d.blockReadMask.getLsbD i)
  key : ∀ type i, (l.keyMask type).getLsbD i =
    (decide (trailerNum i < n) && (d.keyMask type).getLsbD i)

/-- The line of block `n` adds this block and its keys and leaves the blocks before it alone. -/
theorem Restored.step {base : Dump} {n : Nat} (h : Restored d base n l) (hn : n < 256) :
    Restored d base (n + 1) (l.restore d (UInt8.ofNat n)) := by
  have hadds := restore_adds l d (UInt8.ofNat n)
  have hnum : (UInt8.ofNat n).toNat = n := UInt8.toNat_ofNat_of_lt' hn
  refine ⟨hadds.uid.trans h.uid, hadds.type.trans h.type, hadds.atqa.trans h.atqa,
    hadds.sak.trans h.sak, fun b hb => ?_, fun b hb => ?_, fun i => ?_, fun type i => ?_⟩
  · by_cases hsame : b = UInt8.ofNat n
    · subst hsame
      have hblock := restore_block l d (UInt8.ofNat n)
      have hbase := h.behind (UInt8.ofNat n) (Nat.le_of_eq hnum.symm)
      exact ⟨hbase ▸ hblock.data, hbase ▸ hblock.key, hbase ▸ hblock.accessBits⟩
    · have hlt : b.toNat < n := by
        have hne : b.toNat ≠ n := fun h => hsame (UInt8.toNat_inj.mp (h.trans hnum.symm))
        omega
      rw [hadds.block b hsame]
      exact h.block b hlt
  · have hne : b ≠ UInt8.ofNat n := fun hb' => by
      rw [hb', hnum] at hb
      omega
    rw [hadds.block b hne]
    exact h.behind b (by omega)
  · rw [hadds.read, h.read, hnum, isBlockRead, hnum]
    by_cases hi : i = n
    · subst hi
      simp
    · have hlt : i < n + 1 ↔ i < n := by omega
      simp only [hi, hlt, decide_false, Bool.false_and, Bool.or_false]
  · have hiff := trailerNum_eq_iff (UInt8.ofNat n) i
    rw [hnum] at hiff
    rw [hadds.key, h.key, isKeyFound]
    by_cases hi : trailerNum i = n
    · obtain ⟨htrailer, hsector⟩ := hiff.mp hi
      rw [← hsector, htrailer, hi]
      simp
    · have hlt : trailerNum i < n + 1 ↔ trailerNum i < n := by omega
      have hnone : (decide (i = (getSectorByBlock (UInt8.ofNat n)).toNat) &&
          isSectorTrailer (UInt8.ofNat n)) = false := by
        rw [Bool.eq_false_iff]
        intro hboth
        obtain ⟨hsector, htrailer⟩ := (Bool.and_eq_true _ _).mp hboth
        exact hi (hiff.mpr ⟨htrailer, of_decide_eq_true hsector⟩)
      rw [← Bool.and_assoc, hnone, Bool.false_and, Bool.or_false, decide_eq_decide.mpr hlt]

theorem blockStr_line (d : Dump) (num : Byte) :
    ('\n' ∉ d.blockStr num ∧ '\r' ∉ d.blockStr num) ∧ d.blockStr num ≠ [] := by
  have hne : (d.cells num).map cellWord ≠ [] :=
    map_eq_nil_iff.not.mpr (ne_nil_of_length_pos (by rw [d.length_cells]; decide))
  have htokens : ∀ w ∈ (d.cells num).map cellWord, IsToken w := by
    intro w hw
    obtain ⟨cell, -, rfl⟩ := mem_map.mp hw
    exact isToken_cellWord cell
  have hchar : ∀ c ∈ valuesText ((d.cells num).map cellWord), c = ' ' ∨
      isSpace c = false ∧ c ≠ '\n' := by
    intro c hc
    obtain hspace | ⟨w, hw, hmem⟩ := mem_valuesText hc
    · exact .inl hspace
    · exact .inr ((htokens w hw).2 c hmem)
  obtain ⟨front, c, hfront, -⟩ := valuesText_last htokens hne
  rw [(d.parse_blockStr num).1]
  refine ⟨⟨fun h => ?_, fun h => ?_⟩, fun h => ?_⟩
  · exact absurd (hchar _ h) (by decide)
  · exact absurd (hchar _ h) (by decide)
  · rw [hfront] at h
    simp at h

section
variable {ff : Cursor Char} {all ps : List (List Char × WriteData)} {base : Dump}

theorem loadBlocks_placed (d base : Dump) (m : Nat) {n : Nat} (hle : n + m ≤ 256)
    (hl : Restored d base n l)
    (hplaced : Placed ff all ((range' n m).map (fun i =>
      (blockKey i, .str (d.blockStr (UInt8.ofNat i)))) ++ ps)) :
    ∃ l' next, l.loadBlocks (range' n m) ff = some (l', next) ∧ Restored d base (n + m) l' ∧
      Placed next all ps := by
  induction m generalizing n l ff with
  | zero => exact ⟨l, ff, rfl, hl, hplaced⟩
  | succ m ih =>
    obtain ⟨hline, hne⟩ := blockStr_line d (UInt8.ofNat n)
    obtain ⟨next, hread, hnext⟩ := hplaced.readString hline hne
    obtain ⟨l', last, hload, hl', hlast⟩ := ih (by omega) (hl.step (by omega)) hnext
    refine ⟨l', last, ?_, ?_, hlast⟩
    · rw [range'_succ, loadBlocks, hread, succeeded, Option.map_some, Option.bind_some,
        parseBlock_blockStr, Option.bind_some]
      exact hload
    · rwa [Nat.add_assoc, Nat.add_comm 1 m] at hl'

/-- Only blocks and sectors of the type are known. -/
structure Restricted (d : Dump) : Prop where
  blocks : d.blockReadMask.toNat < 2 ^ getTotalBlockNum d.type
  keys : ∀ type, (d.keyMask type).toNat < 2 ^ sectorsTotal d.type

/-- A card is restored from its file: what is known of it is the same, and the rest is as it was
before loading. -/
structure Restores (d base l : Dump) : Prop where
  uid : l.uid = d.uid
  type : l.type = d.type
  atqa : l.atqa = d.atqa
  sak : l.sak = d.sak
  blockReadMask : l.blockReadMask = d.blockReadMask
  keyMask : l.keyMask = d.keyMask
  block : ∀ b, BlockRestored d base b (l.block b)

theorem pairs_save (d : Dump) : pairs d.save =
    (atqaKey, hexData [d.atqa.2, d.atqa.1]) :: (sakKey, hexData [d.sak]) ::
      (typeKey, .str (typeName d.type)) :: (formatVersionKey, uint32Data dataFormatVersion) ::
        (range' 0 (getTotalBlockNum d.type)).map fun i =>
          (blockKey i, .str (d.blockStr (UInt8.ofNat i))) := by
  rw [save, pairs_append, pairs_append, pairs_map, range_eq_range']
  rfl

theorem parseType_typeName (type : CardType) : parseType (typeName type) = some type := by
  cases type <;> decide

theorem typeName_line (type : CardType) :
    ('\n' ∉ typeName type ∧ '\r' ∉ typeName type) ∧ typeName type ≠ [] := by
  cases type <;> decide

theorem getTotalBlockNum_le (type : CardType) : getTotalBlockNum type ≤ 256 := by
  cases type <;> decide

def currentFormatVersion : Nat := 4

theorem load_placed (d : Dump) (hread : base.blockReadMask = 0#256)
    (hkey : ∀ type, base.keyMask type = 0#64) (hplaced : Placed ff all (pairs d.save ++ ps)) :
    ∃ l next, base.load ff currentFormatVersion = some (l, next) ∧
      Restored d { base with atqa := d.atqa, sak := d.sak, type := d.type }
        (getTotalBlockNum d.type) l := by
  rw [pairs_save] at hplaced
  obtain ⟨ff₁, hatqa, h₁⟩ := readHex_placed hplaced
  obtain ⟨ff₂, hsak, h₂⟩ := readByte_placed h₁
  obtain ⟨hline, hne⟩ := typeName_line d.type
  obtain ⟨ff₃, htype, h₃⟩ := h₂.readString hline hne
  obtain ⟨ff₄, hversion, h₄⟩ :=
    readElement_placed h₃ (x := dataFormatVersion) uint32Format rfl
  have hstart : Restored d { base with atqa := d.atqa, sak := d.sak, type := d.type } 0
      { base with atqa := d.atqa, sak := d.sak, type := d.type } := by
    refine ⟨rfl, rfl, rfl, rfl, fun b hb => absurd hb (Nat.not_lt_zero _), fun _ _ => rfl,
      fun i => ?_, fun type i => ?_⟩
    · exact (congrArg (BitVec.getLsbD · i) hread).trans BitVec.getLsbD_zero
    · exact (congrArg (BitVec.getLsbD · i) (hkey type)).trans BitVec.getLsbD_zero
  obtain ⟨l, next, hload, hl, -⟩ := loadBlocks_placed d _ (getTotalBlockNum d.type)
    (by have := getTotalBlockNum_le d.type; omega) hstart h₄
  refine ⟨l, next, ?_, by rwa [Nat.zero_add] at hl⟩
  have hbase : base.loadBase ff currentFormatVersion =
      some ({ base with atqa := d.atqa, sak := d.sak }, ff₂) := by
    have hread : readHex ff atqaKey 2 = some ([d.atqa.2, d.atqa.1], ff₁) := hatqa
    rw [loadBase, hread, Option.bind_some, hsak]
    rfl
  have hformat : readFormatVersion ff₃ = (false, ff₄) := by
    rw [readFormatVersion, hversion]
    rfl
  rw [load, hbase, Option.bind_some, htype, succeeded, Option.map_some, Option.bind_some,
    parseType_typeName, Option.bind_some, hformat, range_eq_range']
  dsimp only
  rw [hload]
  rfl

theorem testBit_of_lt {w n : Nat} {m : BitVec w} (h : m.toNat < 2 ^ n) {i : Nat} (hi : n ≤ i) :
    m.getLsbD i = false :=
  Nat.testBit_lt_two_pow (Nat.lt_of_lt_of_le h (Nat.pow_le_pow_right (by decide) hi))

theorem trailerNum_lt (type : CardType) {i : Nat} (h : i < sectorsTotal type) :
    trailerNum i < getTotalBlockNum type := by
  rw [trailerNum]
  cases type <;> simp only [sectorsTotal, getTotalBlockNum] at h ⊢ <;> split <;> omega

theorem Restored.restores (hd : d.Restricted) (huid : base.uid = d.uid)
    (hl : Restored d { base with atqa := d.atqa, sak := d.sak, type := d.type }
      (getTotalBlockNum d.type) l) : Restores d base l where
  uid := hl.uid.trans huid
  type := hl.type
  atqa := hl.atqa
  sak := hl.sak
  blockReadMask := by
    refine BitVec.eq_of_getLsbD_eq fun i _ => ?_
    rw [hl.read]
    by_cases hi : i < getTotalBlockNum d.type
    · rw [decide_eq_true hi, Bool.true_and]
    · rw [testBit_of_lt hd.blocks (Nat.le_of_not_lt hi), Bool.and_false]
  keyMask := by
    funext type
    refine BitVec.eq_of_getLsbD_eq fun i _ => ?_
    rw [hl.key]
    by_cases hi : i < sectorsTotal d.type
    · rw [decide_eq_true (trailerNum_lt d.type hi), Bool.true_and]
    · rw [testBit_of_lt (hd.keys type) (Nat.le_of_not_lt hi), Bool.and_false]
  block := by
    intro b
    by_cases hb : b.toNat < getTotalBlockNum d.type
    · have hblock := hl.block b hb
      exact ⟨hblock.data, hblock.key, hblock.accessBits⟩
    · have hle := Nat.le_of_not_lt hb
      have hread : d.isBlockRead b = false := testBit_of_lt hd.blocks hle
      rw [hl.behind b hle]
      refine ⟨fun _ => ?_, fun htrailer type => ?_, fun _ => ?_⟩
      · rw [hread, if_neg Bool.false_ne_true]
      · have hkey : d.isKeyFound (getSectorByBlock b) type = false := by
          refine testBit_of_lt (hd.keys type) (Nat.le_of_not_lt fun hlt => hb ?_)
          rw [← trailerNum_getSectorByBlock b htrailer]
          exact trailerNum_lt d.type hlt
        rw [hkey, if_neg Bool.false_ne_true]
      · rw [hread, if_neg Bool.false_ne_true]

theorem setUid_alloc {uid : List Byte} (h : alloc.setUid uid = some base) :
    base.uid = uid ∧ base.blockReadMask = 0#256 ∧ (∀ type, base.keyMask type = 0#64) ∧
      ∀ b ≠ 0, base.block b = ⟨replicate 16 0, rfl⟩ := by
  rw [setUid] at h
  split at h
  · obtain rfl := Option.some.inj h
    exact ⟨rfl, rfl, fun _ => rfl, fun b hb => update_of_ne hb _ _⟩
  · exact absurd h (Option.some_ne_none base).symm

/-- A card that is known in part is restored from its file, wherever its entries are in it. What is
not known is zero, besides the UID at the beginning. -/
theorem load_save (d base : Dump) (after : List (List Char × WriteData)) (hd : d.Restricted)
    (hbase : alloc.setUid d.uid = some base)
    (hplaced : Placed ff all (pairs d.save ++ after)) :
    (∃ l next, base.load ff currentFormatVersion = some (l, next) ∧ Restores d base l) ∧
      ∀ b ≠ 0, base.block b = ⟨replicate 16 0, rfl⟩ := by
  obtain ⟨huid, hread, hkey, hzero⟩ := setUid_alloc hbase
  obtain ⟨l, next, hload, hl⟩ := load_placed d hread hkey hplaced
  exact ⟨⟨l, next, hload, hl.restores hd huid⟩, hzero⟩

end

theorem validKey_blockKey (i : Nat) : ValidKey (blockKey i) where
  ne_nil := cons_ne_nil _ _
  head := by
    change some 'B' ≠ some '#'
    decide
  chars := by
    intro c hc
    have hword : ∀ c ∈ "Block ".toList, c ≠ ':' ∧ c ≠ '\n' ∧ c ≠ '\r' ∧ c ≠ '\x00' := by
      simp
    obtain hc | hdigit := mem_append.mp hc
    · exact hword c hc
    · have hc := Nat.isDigit_of_mem_toDigits (by decide) (Nat.le_refl 10) hdigit
      refine ⟨?_, ?_, ?_, ?_⟩ <;> rintro rfl <;> cases hc

theorem sound_save (d : Dump) : ∀ entry ∈ d.save, entry.Sound := by
  simp only [save, saveBase, forall_mem_append]
  refine ⟨⟨?_, ?_⟩, ?_⟩
  · exact forall_mem_cons.mpr ⟨sound_comment (by decide), forall_mem_cons.mpr
      ⟨sound_hex (by decide) _, forall_mem_singleton.mpr (sound_hex (by decide) _)⟩⟩
  · exact forall_mem_cons.mpr ⟨sound_comment (by decide), forall_mem_cons.mpr
      ⟨sound_str (by decide) (typeName_line d.type).1.1, forall_mem_cons.mpr
        ⟨sound_uint32 (by decide) _, forall_mem_singleton.mpr (sound_comment (by decide))⟩⟩⟩
  · intro entry hmem
    obtain ⟨i, -, rfl⟩ := mem_map.mp hmem
    exact sound_str (validKey_blockKey i) (blockStr_line d (UInt8.ofNat i)).1.1

/-- A card of which one block and one key are known. -/
def sample : Dump where
  uid := [1, 2, 3, 4]
  type := .k1
  block := fun b => ⟨replicate 16 b, length_replicate⟩
  atqa := (4, 0)
  sak := 8
  blockReadMask := 2#256
  keyMask := fun type =>
    match type with
    | .a => 1#64
    | .b => 0#64

/-- A card of which only the UID is known. -/
def sampleBase : Dump :=
  { alloc with
    uid := [1, 2, 3, 4]
    block := update alloc.block 0 (((alloc.block 0).copyIn 0 [1, 2, 3, 4]).copyIn 4 [4]) }

theorem load_save_sample :
    (∃ l next, sampleBase.load ⟨[], entriesText sample.save⟩ currentFormatVersion = some (l, next) ∧
      Restores sample sampleBase l) ∧ ∀ b ≠ 0, sampleBase.block b = ⟨replicate 16 0, rfl⟩ :=
  load_save sample sampleBase [] ⟨by decide, fun type => by cases type <;> decide⟩ rfl
    (by rw [append_nil]; exact placed_of_entries (sound_save sample))

end Dump

end NikitaFirmware.MfClassic
