import NikitaFirmware.Tar.Extract

/-!
# The blocks of a file

How the reads of an entry of an archive meet the room on the storage, and what becomes of the file
that it is extracted to.
-/

namespace NikitaFirmware.Tar

open Foundations List

section Blocks
variable {σ : Type} (ops : ArchiveStream σ)

/-- The next block of an entry, and the archive behind it. -/
abbrev blockOf (tar : Mtar σ) : Bytes := (mtarReadData ops tar FILE_BLOCK_SIZE).2.1

abbrev readOf (tar : Mtar σ) : Int := (mtarReadData ops tar FILE_BLOCK_SIZE).1

abbrev afterBlock (tar : Mtar σ) : Mtar σ := (mtarReadData ops tar FILE_BLOCK_SIZE).2.2

/-- Every block is read, and there is room for all of it. -/
inductive Extracts : Mtar σ → Nat → Mtar σ → Nat → Prop
  | done {tar : Mtar σ} {room : Nat} (heof : mtarEofData tar = true) : Extracts tar room tar room
  | block {tar tar' : Mtar σ} {room room' : Nat} (heof : mtarEofData tar = false)
      (hread : 0 < readOf ops tar) (hroom : (blockOf ops tar).length ≤ room)
      (hrest : Extracts (afterBlock ops tar) (room - (blockOf ops tar).length) tar' room') :
      Extracts tar room tar' room'

/-- There is room for a part of the last block only. -/
inductive CutShort : Mtar σ → Nat → Mtar σ → Prop
  | last {tar : Mtar σ} {room : Nat} (heof : mtarEofData tar = false)
      (hread : 0 < readOf ops tar) (hroom : 0 < room) (hcut : room < (blockOf ops tar).length)
      (hlast : mtarEofData (afterBlock ops tar) = true) : CutShort tar room (afterBlock ops tar)
  | block {tar tar' : Mtar σ} {room : Nat} (heof : mtarEofData tar = false)
      (hread : 0 < readOf ops tar) (hroom : (blockOf ops tar).length ≤ room)
      (hrest : CutShort (afterBlock ops tar) (room - (blockOf ops tar).length) tar') :
      CutShort tar room tar'

/-- A block can not be read, and there is room for more than what was read of it. -/
inductive ErrorWithRoom : Mtar σ → Nat → Prop
  | error {tar : Mtar σ} {room : Nat} (heof : mtarEofData tar = false)
      (hread : readOf ops tar < 0) (hroom : (blockOf ops tar).length < room) :
      ErrorWithRoom tar room
  | block {tar : Mtar σ} {room : Nat} (heof : mtarEofData tar = false)
      (hread : 0 < readOf ops tar) (hroom : (blockOf ops tar).length ≤ room)
      (hrest : ErrorWithRoom (afterBlock ops tar) (room - (blockOf ops tar).length)) :
      ErrorWithRoom tar room

end Blocks

section Read
variable {σ : Type} {ops : ArchiveStream σ} {tar : Mtar σ}

theorem mtarEofData_eq_false (h : mtarEofData tar = false) :
    tar.headerValid = true ∧ tar.pos < tar.endPos := by
  rw [mtarEofData] at h
  split at h
  case isTrue hvalid => exact ⟨hvalid, UInt32.not_le.mp (of_decide_eq_false h)⟩
  case isFalse => exact absurd h.symm Bool.false_ne_true

theorem mtarReadData_eq (h : mtarEofData tar = false) (size : Nat) :
    mtarReadData ops tar size = tread ops tar (min (tar.endPos - tar.pos).toNat size) := by
  obtain ⟨hvalid, hlt⟩ := mtarEofData_eq_false h
  rw [mtarReadData, hvalid, Bool.not_true, if_neg Bool.false_ne_true,
    if_neg (UInt32.not_le.mpr hlt)]

/-- What a read that does not fail does. -/
structure BlockRead (ops : ArchiveStream σ) (tar : Mtar σ) : Prop where
  ret : readOf ops tar = (blockOf ops tar).length
  short : (blockOf ops tar).length ≤ tar.endPos.toNat - tar.pos.toNat
  rest : ops.rest tar.stream = blockOf ops tar ++ ops.rest (afterBlock ops tar).stream
  pos : (afterBlock ops tar).pos.toNat = tar.pos.toNat + (blockOf ops tar).length
  endPos : (afterBlock ops tar).endPos = tar.endPos
  valid : (afterBlock ops tar).headerValid = true

theorem length_blockOf_le (h : mtarEofData tar = false) :
    (blockOf ops tar).length ≤ tar.endPos.toNat - tar.pos.toNat ∧
      (blockOf ops tar).length ≤ 512 := by
  obtain ⟨-, hlt⟩ := mtarEofData_eq_false h
  have hfits := ops.data_fits tar.stream (min (tar.endPos - tar.pos).toNat FILE_BLOCK_SIZE)
  rw [UInt32.toNat_sub_of_le _ _ (UInt32.le_of_lt hlt)] at hfits
  rw [blockOf, mtarReadData_eq h, UInt32.toNat_sub_of_le _ _ (UInt32.le_of_lt hlt)]
  exact Nat.le_min.mp hfits

theorem blockRead (h : mtarEofData tar = false) (hread : 0 ≤ readOf ops tar) :
    BlockRead ops tar := by
  obtain ⟨hvalid, hlt⟩ := mtarEofData_eq_false h
  have hshort := @length_blockOf_le _ ops _ h
  have hlast := tar.endPos.toNat_lt
  have hlt' := UInt32.lt_iff_toNat_lt.mp hlt
  have hgives := ops.read_gives tar.stream (min (tar.endPos - tar.pos).toNat FILE_BLOCK_SIZE)
  rw [readOf, mtarReadData_eq h] at hread
  rw [blockOf, mtarReadData_eq h] at hshort
  rcases hgives with ⟨hneg, -⟩ | ⟨hret, hrest⟩
  · exact absurd hneg (Int.not_lt.mpr hread)
  · refine ⟨?_, by rw [blockOf, mtarReadData_eq h]; omega, ?_, ?_, ?_, ?_⟩
    · rw [readOf, blockOf, mtarReadData_eq h]
      exact hret
    · rw [afterBlock, blockOf, mtarReadData_eq h]
      exact hrest
    · rw [afterBlock, blockOf, mtarReadData_eq h]
      dsimp only [tread] at hshort hread ⊢
      rw [if_pos hread, hret, Int.toNat_natCast, UInt32.toNat_add, UInt32.toNat_ofNat']
      omega
    · rw [afterBlock, mtarReadData_eq h]
      rfl
    · rw [afterBlock, mtarReadData_eq h]
      exact hvalid

theorem afterBlock_of_error (h : mtarEofData tar = false) (hread : readOf ops tar < 0) :
    mtarEofData (afterBlock ops tar) = false ∧ -2147483648 ≤ readOf ops tar := by
  have hgives := ops.read_gives tar.stream (min (tar.endPos - tar.pos).toNat FILE_BLOCK_SIZE)
  rw [readOf, mtarReadData_eq h] at hread ⊢
  rw [afterBlock, mtarReadData_eq h]
  rcases hgives with ⟨-, hmin⟩ | ⟨hret, -⟩
  · refine ⟨?_, hmin⟩
    dsimp only [tread] at hread ⊢
    rw [if_neg (Int.not_le.mpr hread)]
    exact h
  · dsimp only [tread] at hread
    rw [hret] at hread
    exact absurd hread (Int.not_lt.mpr (Int.natCast_nonneg _))

theorem writeLength_of_nonneg {n : Nat} (h : n ≤ 512) : writeLength n = n := by
  rw [writeLength]
  omega

theorem writeLength_of_neg {ret : Int} (h : ret < 0) (hmin : -2147483648 ≤ ret) :
    512 < writeLength ret := by
  rw [writeLength]
  omega

end Read

section Loop
variable {σ : Type} {ops : ArchiveStream σ} {tar tar' : Mtar σ} {room room' : Nat}
  {content : List (Option UInt8)}

theorem extractBlocks_eof (h : mtarEofData tar = true) :
    extractBlocks ops tar content room = ⟨true, tar, content, room⟩ := by
  rw [extractBlocks, if_pos h]

theorem extractBlocks_full (h : mtarEofData tar = false) :
    (extractBlocks ops tar content 0).success = false ∧
      (extractBlocks ops tar content 0).content = content := by
  rw [extractBlocks, if_neg (by rw [h]; exact Bool.false_ne_true)]
  dsimp only
  split
  · exact ⟨rfl, rfl⟩
  · rw [dif_pos (by rw [storageFileWrite_eq, Nat.min_zero])]
    exact ⟨rfl, rfl⟩

theorem readbufCells_of_le {data : Bytes} {n : Nat} (h : n ≤ data.length) :
    readbufCells (data.take n) n = (data.take n).map some := by
  rw [readbufCells, length_take_of_le h, Nat.sub_self, replicate_zero, append_nil]

theorem extractBlocks_write (h : mtarEofData tar = false) (hread : readOf ops tar ≠ 0)
    (hlength : 0 < writeLength (readOf ops tar)) (hroom : 0 < room) :
    extractBlocks ops tar content room = extractBlocks ops (afterBlock ops tar)
        (content ++ readbufCells ((blockOf ops tar).take (min (writeLength (readOf ops tar)) room))
          (min (writeLength (readOf ops tar)) room))
        (room - min (writeLength (readOf ops tar)) room) := by
  have hwritten : ¬ min (writeLength (readOf ops tar)) room = 0 := by omega
  rw [extractBlocks, if_neg (by rw [h]; exact Bool.false_ne_true)]
  dsimp only
  rw [if_neg hread, storageFileWrite_eq, dif_neg hwritten]

theorem extractBlocks_block (h : mtarEofData tar = false) (hread : 0 < readOf ops tar)
    (hroom : 0 < room) :
    extractBlocks ops tar content room = extractBlocks ops (afterBlock ops tar)
        (content ++ ((blockOf ops tar).take room).map some)
        (room - (blockOf ops tar).length) := by
  have hblock := blockRead h (Int.le_of_lt hread)
  have hshort := @length_blockOf_le _ ops _ h
  have hret := hblock.ret
  have hlength : writeLength (readOf ops tar) = (blockOf ops tar).length := by
    rw [hret, writeLength_of_nonneg (by omega)]
  rw [extractBlocks_write h (by omega) (by omega) hroom, hlength,
    readbufCells_of_le (Nat.min_le_left _ _)]
  congr 1
  · rw [← take_take, take_of_length_le (length_take_le' _ _)]
  · omega

theorem content_prefix : content <+: (extractBlocks ops tar content room).content := by
  fun_induction extractBlocks ops tar content room with
  | case1 => exact prefix_refl _
  | case2 => exact prefix_refl _
  | case3 => exact prefix_refl _
  | case4 tar content room _ r _ written _ ih => exact (List.prefix_append _ _).trans ih

theorem left_afterBlock (hblock : BlockRead ops tar) :
    (afterBlock ops tar).endPos.toNat - (afterBlock ops tar).pos.toNat =
      tar.endPos.toNat - tar.pos.toNat - (blockOf ops tar).length := by
  rw [hblock.endPos, hblock.pos]
  omega

def dataLeft (ops : ArchiveStream σ) (tar : Mtar σ) : Bytes :=
  (ops.rest tar.stream).take (tar.endPos.toNat - tar.pos.toNat)

/-- The content with all the data of an entry, none of which is missing in the archive. -/
def Whole (ops : ArchiveStream σ) (tar : Mtar σ) (before after : List (Option UInt8)) : Prop :=
  after = before ++ (dataLeft ops tar).map some ∧
    (dataLeft ops tar).length = tar.endPos.toNat - tar.pos.toNat

theorem dataLeft_block (hblock : BlockRead ops tar) :
    dataLeft ops tar = blockOf ops tar ++ dataLeft ops (afterBlock ops tar) := by
  have hshort := hblock.short
  rw [dataLeft, hblock.rest, take_append, take_of_length_le hshort, dataLeft,
    left_afterBlock hblock]

theorem Extracts.result (h : Extracts ops tar room tar' room') (hvalid : tar.headerValid = true) :
    (extractBlocks ops tar content room).success = true ∧
      (extractBlocks ops tar content room).tar = tar' ∧
      (extractBlocks ops tar content room).room = room' ∧
      Whole ops tar content (extractBlocks ops tar content room).content := by
  induction h generalizing content with
  | @done tar room heof =>
    have hle : tar.endPos ≤ tar.pos := by
      rw [mtarEofData, if_pos hvalid] at heof
      exact of_decide_eq_true heof
    have hzero : tar.endPos.toNat - tar.pos.toNat = 0 :=
      Nat.sub_eq_zero_of_le (UInt32.le_iff_toNat_le.mp hle)
    rw [extractBlocks_eof heof, Whole, dataLeft, hzero]
    exact ⟨rfl, rfl, rfl, (append_nil _).symm, rfl⟩
  | @block tar tar' room room' heof hread hroom hrest ih =>
    have hblock := blockRead heof (Int.le_of_lt hread)
    have hret := hblock.ret
    obtain ⟨hsuccess, htar, hroom', hcontent, hlength⟩ :=
      @ih (content ++ ((blockOf ops tar).take room).map some) hblock.valid
    rw [extractBlocks_block heof hread (by omega)]
    refine ⟨hsuccess, htar, hroom', ?_, ?_⟩
    · rw [hcontent, dataLeft_block hblock, take_of_length_le hroom, map_append, append_assoc]
    · have hshort := hblock.short
      rw [dataLeft_block hblock, length_append, hlength, left_afterBlock hblock]
      omega

/-- Less than the data of an entry, but nothing else. -/
def Part (tar : Mtar σ) (before after : List (Option UInt8)) : Prop :=
  ∃ data : Bytes, after = before ++ data.map some ∧ data.length < tar.endPos.toNat - tar.pos.toNat

theorem CutShort.result (h : CutShort ops tar room tar') :
    (extractBlocks ops tar content room).success = true ∧
      (extractBlocks ops tar content room).tar = tar' ∧
      (extractBlocks ops tar content room).room = 0 ∧
      Part tar content (extractBlocks ops tar content room).content := by
  induction h generalizing content with
  | @last tar room heof hread hroom hcut hlast =>
    have hblock := blockRead heof (Int.le_of_lt hread)
    have hshort := hblock.short
    rw [extractBlocks_block heof hread hroom, extractBlocks_eof hlast]
    refine ⟨rfl, rfl, Nat.sub_eq_zero_of_le (Nat.le_of_lt hcut), _, rfl, ?_⟩
    rw [length_take]
    omega
  | @block tar tar' room heof hread hroom hrest ih =>
    have hblock := blockRead heof (Int.le_of_lt hread)
    have hret := hblock.ret
    obtain ⟨hsuccess, htar, hroom', data, hcontent, hlength⟩ :=
      @ih (content ++ ((blockOf ops tar).take room).map some)
    rw [extractBlocks_block heof hread (by omega)]
    rw [left_afterBlock hblock] at hlength
    refine ⟨hsuccess, htar, hroom', blockOf ops tar ++ data, ?_, ?_⟩
    · rw [hcontent, take_of_length_le hroom, map_append, append_assoc]
    · rw [length_append]
      omega

theorem ErrorWithRoom.result (h : ErrorWithRoom ops tar room) :
    none ∈ (extractBlocks ops tar content room).content := by
  induction h generalizing content with
  | @error tar room heof hread hroom =>
    obtain ⟨-, hmin⟩ := afterBlock_of_error heof hread
    obtain ⟨-, hblock⟩ := @length_blockOf_le _ ops _ heof
    have hlength := writeLength_of_neg hread hmin
    have hmore : (blockOf ops tar).length < min (writeLength (readOf ops tar)) room := by omega
    rw [extractBlocks_write heof (by omega) (by omega) (by omega)]
    refine content_prefix.subset (mem_append_right _ (mem_append_right _ ?_))
    refine mem_replicate.mpr ⟨?_, rfl⟩
    rw [length_take]
    omega
  | @block tar room heof hread hroom hrest ih =>
    have hret := (blockRead heof (Int.le_of_lt hread)).ret
    rw [extractBlocks_block heof hread (by omega)]
    exact ih

theorem extractBlocks_else (hwhole : ∀ tar' room', ¬ Extracts ops tar room tar' room')
    (hcut : ∀ tar', ¬ CutShort ops tar room tar') (herror : ¬ ErrorWithRoom ops tar room) :
    (extractBlocks ops tar content room).success = false ∧
      ∃ data : Bytes, (extractBlocks ops tar content room).content = content ++ data.map some := by
  induction room using Nat.strong_induction_on generalizing tar content with
  | _ room ih =>
    have heof : mtarEofData tar = false :=
      Bool.eq_false_iff.mpr fun h => hwhole _ _ (Extracts.done h)
    rcases Nat.eq_zero_or_pos room with rfl | hroom
    · -- nothing can be written
      obtain ⟨hfail, hcontent⟩ := @extractBlocks_full _ ops tar content heof
      exact ⟨hfail, [], hcontent.trans (append_nil _).symm⟩
    · rcases Int.lt_trichotomy (readOf ops tar) 0 with hneg | hzero | hpos
      · -- the read fails, and what was read takes all the room
        have hfull : room ≤ (blockOf ops tar).length :=
          Nat.le_of_not_lt fun h => herror (ErrorWithRoom.error heof hneg h)
        obtain ⟨hthere, hmin⟩ := afterBlock_of_error heof hneg
        obtain ⟨-, hshort⟩ := @length_blockOf_le _ ops _ heof
        have hlength := writeLength_of_neg hneg hmin
        have hwritten : min (writeLength (readOf ops tar)) room = room := by omega
        rw [extractBlocks_write heof (by omega) (by omega) hroom, hwritten, Nat.sub_self,
          readbufCells_of_le hfull]
        obtain ⟨hfail, hcontent⟩ := @extractBlocks_full _ ops (afterBlock ops tar)
          (content ++ ((blockOf ops tar).take room).map some) hthere
        exact ⟨hfail, _, hcontent⟩
      · -- nothing is read
        rw [extractBlocks, if_neg (by rw [heof]; exact Bool.false_ne_true)]
        dsimp only
        rw [if_pos hzero]
        exact ⟨rfl, [], (append_nil _).symm⟩
      · have hblock := blockRead heof (Int.le_of_lt hpos)
        have hret := hblock.ret
        rw [extractBlocks_block heof hpos hroom]
        rcases Nat.lt_or_ge room (blockOf ops tar).length with hcutHere | hfits
        · -- there is room for a part of the block only, and it is not the last one
          have hmore : mtarEofData (afterBlock ops tar) = false :=
            Bool.eq_false_iff.mpr fun h => hcut _ (CutShort.last heof hpos hroom hcutHere h)
          rw [Nat.sub_eq_zero_of_le (Nat.le_of_lt hcutHere)]
          obtain ⟨hfail, hcontent⟩ := @extractBlocks_full _ ops (afterBlock ops tar)
            (content ++ ((blockOf ops tar).take room).map some) hmore
          exact ⟨hfail, _, hcontent⟩
        · obtain ⟨hfail, data, hcontent⟩ := @ih (room - (blockOf ops tar).length) (by omega)
            (afterBlock ops tar) (content ++ ((blockOf ops tar).take room).map some)
            (fun _ _ h => hwhole _ _ (Extracts.block heof hpos hfits h))
            (fun _ h => hcut _ (CutShort.block heof hpos hfits h))
            (fun h => herror (ErrorWithRoom.block heof hpos hfits h))
          refine ⟨hfail, (blockOf ops tar).take room ++ data, ?_⟩
          rw [hcontent, map_append, append_assoc]

end Loop

def ErrorsNegative {α : Type} (x : Except Int α) : Prop := ∀ e, x = .error e → e < 0

namespace ErrorsNegative
variable {α β : Type}

theorem ok (a : α) : ErrorsNegative (.ok a) := by
  intro e he
  cases he

theorem error {e : Int} (h : e < 0) : ErrorsNegative (.error e : Except Int α) := by
  intro e' he'
  rwa [← Except.error.inj he']

theorem bind {x : Except Int α} {f : α → Except Int β} (hx : ErrorsNegative x)
    (hf : ∀ a, ErrorsNegative (f a)) : ErrorsNegative (x >>= f) := by
  intro e he
  cases x with
  | error e' => exact hx e (congrArg Except.error (Except.error.inj he))
  | ok a => exact hf a e he

end ErrorsNegative

theorem parseOctalFrom_errors (n : Nat) (str : Bytes) : ErrorsNegative (parseOctalFrom n str) := by
  fun_induction parseOctalFrom n str with
  | case1 n => exact .ok n
  | case2 n => exact .ok n
  | case3 => exact .error (by decide)
  | case4 => exact .error (by decide)
  | case5 => exact .error (by decide)
  | case6 n c str _ _ _ _ ih => exact ih

theorem parseOctal_errors (str : Bytes) : ErrorsNegative (parseOctal str) := by
  intro e he
  have h := parseOctalFrom_errors 0 str
  rw [parseOctal] at he
  cases hx : parseOctalFrom 0 str with
  | ok n => rw [hx] at he; cases he
  | error e' => rw [hx] at he; exact h e (hx.trans (congrArg Except.error (Except.error.inj he)))

theorem rawToHeader_errors (raw : Bytes) : ErrorsNegative (rawToHeader raw) := by
  rw [rawToHeader]
  split
  · exact .error (by decide)
  · refine .bind (parseOctal_errors _) fun chksum => ?_
    split
    · exact .error (by decide)
    · exact .bind (parseOctal_errors _) fun _ => .bind (parseOctal_errors _) fun _ =>
        .bind (parseOctal_errors _) fun _ => .bind (parseOctal_errors _) fun _ =>
          .bind (parseOctal_errors _) fun _ => .ok _

section Entries
variable {σ : Type} {ops : ArchiveStream σ} {tar : Mtar σ}

def Synced (ops : ArchiveStream σ) (tar : Mtar σ) : Prop :=
  ops.rest tar.stream = ops.content.drop tar.pos.toNat

/-- The position is where the data of an entry begins. -/
structure AtData (ops : ArchiveStream σ) (tar : Mtar σ) : Prop where
  valid : tar.headerValid = true
  reading : tar.access = .read
  synced : Synced ops tar
  size : tar.endPos.toNat = tar.pos.toNat + tar.header.size.toNat

/-- What is behind an entry can be gone to. -/
structure Between (ops : ArchiveStream σ) (tar : Mtar σ) : Prop where
  reading : tar.access = .read
  synced : tar.headerValid = true ∨ Synced ops tar

/-- A call that ends at the data of an entry or with a negative error. -/
structure Arrives (ops : ArchiveStream σ) (r : Int × Mtar σ) : Prop where
  error : r.1 ≤ 0
  atData : r.1 = 0 → AtData ops r.2

theorem Arrives.of_error {r : Int × Mtar σ} (h : r.1 < 0) : Arrives ops r :=
  ⟨Int.le_of_lt h, fun hzero => absurd hzero (Int.ne_of_lt h)⟩

theorem tseek_spec (pos : UInt32) : (tseek ops tar pos).1 < 0 ∨
    ((tseek ops tar pos).1 = 0 ∧ Synced ops (tseek ops tar pos).2) := ops.seek_goes tar.stream pos

theorem ensureHeader_arrives (hreading : tar.access = .read) (hinvalid : tar.headerValid = false)
    (hsynced : Synced ops tar) : Arrives ops (ensureHeader ops tar) := by
  have hgives := ops.read_gives tar.stream HEADER_LEN
  have hlen : HEADER_LEN = 512 := rfl
  have hmax : UINT_MAX = 4294967295 := rfl
  rw [ensureHeader, hinvalid, if_neg Bool.false_ne_true]
  split
  case isTrue => exact Arrives.of_error (show MTAR_EOVERFLOW < 0 by decide)
  case isFalse hbelow =>
    dsimp only [tread]
    split
    case isTrue hneg => exact Arrives.of_error hneg
    case isFalse hnonneg =>
      split
      case isTrue => exact Arrives.of_error (show MTAR_EREADFAIL < 0 by decide)
      case isFalse hfull =>
        split
        case h_1 e he => exact Arrives.of_error (rawToHeader_errors _ e he)
        case h_2 header hheader =>
          split
          case isTrue => exact Arrives.of_error (show MTAR_EOVERFLOW < 0 by decide)
          case isFalse hsize =>
            rw [not_not] at hfull
            obtain ⟨hlength, hrest⟩ := hgives.resolve_left fun h => hnonneg h.1
            have hpos : (tar.pos + UInt32.ofNat HEADER_LEN).toNat = tar.pos.toNat + 512 := by
              rw [UInt32.toNat_add, UInt32.toNat_ofNat']
              omega
            have hend : (tar.pos + 512).toNat = tar.pos.toNat + 512 := hpos
            refine ⟨Int.le_refl 0, fun _ => ⟨rfl, hreading, ?_, ?_⟩⟩
            · rw [Synced] at hsynced ⊢
              dsimp only
              rw [if_pos (Int.not_lt.mp hnonneg), hfull, Int.toNat_natCast, hpos, ← drop_drop,
                ← hsynced, hrest, drop_left' (by omega)]
            · dsimp only at hsize ⊢
              rw [if_pos (Int.not_lt.mp hnonneg), hfull, Int.toNat_natCast, hpos, UInt32.toNat_add,
                hend]
              omega

theorem mtarNext_arrives (h : Between ops tar) : Arrives ops (mtarNext ops tar) := by
  have hreading := h.reading
  rw [mtarNext, if_neg (not_not_intro hreading)]
  split
  case isTrue hvalid =>
    dsimp only
    rcases @tseek_spec _ ops { tar with headerValid := false } (roundUp512 tar.endPos)
      with hneg | ⟨hzero, hsynced⟩
    · rw [if_pos (Int.ne_of_lt hneg)]
      exact Arrives.of_error hneg
    · rw [if_neg (not_not_intro hzero)]
      exact ensureHeader_arrives hreading rfl hsynced
  case isFalse hinvalid =>
    have hfalse := Bool.eq_false_iff.mpr hinvalid
    exact ensureHeader_arrives hreading hfalse (h.synced.resolve_left hinvalid)

theorem mtarRewind_between (hreading : tar.access = .read) :
    (mtarRewind ops tar).1 = 0 → Between ops (mtarRewind ops tar).2 := by
  rw [mtarRewind, if_neg (not_not_intro hreading)]
  intro hzero
  refine ⟨hreading, Or.inr ?_⟩
  exact ((@tseek_spec _ ops tar 0).resolve_left fun h => Int.ne_of_lt h hzero).2

end Entries
end NikitaFirmware.Tar
