import NikitaFirmware.Tar.Walk

/-!
# Whole files or an error

When the extraction of an archive succeeds only with whole files, and writes nothing that was not
read.
-/

namespace NikitaFirmware.Tar

open Foundations Toolbox.Path List Option

/-- The file holds the data of its entry, all of which is in the archive. -/
def OutFile.Exact (content : Bytes) (f : OutFile) : Prop :=
  f.content = ((content.drop f.dataPos.toNat).take f.size.toNat).map some ∧
    ((content.drop f.dataPos.toNat).take f.size.toNat).length = f.size.toNat

/-- Every byte of the file was read from the archive. -/
def OutFile.Clean (f : OutFile) : Prop := none ∉ f.content

/-- What is written behind some files has only bytes that were read, and the files are whole if
success is returned. -/
def AllOrError (content : Bytes) (files : List OutFile) (r : Option Bool × Disk) : Prop :=
  ∃ new, r.2.files = files ++ new ∧ (∀ f ∈ new, f.Clean) ∧
    (r.1 = some true → ∀ f ∈ new, f.Exact content)

section Walk
variable {σ : Type} (ops : ArchiveStream σ) (storage : Storage) (params : UnpackParams)

/-- An entry that is neither a file nor a directory that is made. -/
def Ignored (tar : Mtar σ) : Prop :=
  params.skips tar.header = true ∨ tar.header.type = .other ∨
    (tar.header.type = .dir ∧ tar.header.name = ascii "/")

/-- A directory that is made. -/
def MakesDir (tar : Mtar σ) : Prop :=
  params.skips tar.header = false ∧ tar.header.type = .dir ∧ tar.header.name ≠ ascii "/"

def IsFile (tar : Mtar σ) : Prop :=
  params.skips tar.header = false ∧ tar.header.type = .reg

/-- The file is created, and there is some space behind it. -/
def Opens (space space' : Space) : Prop :=
  openTries storage FILE_OPEN_NTRIES space = (true, space')

/-- The ways in which an entry does not end the walk. -/
inductive Passes : Mtar σ → Space → Mtar σ → Space → Prop
  | ignored {tar : Mtar σ} {space : Space} (h : Ignored params tar) : Passes tar space tar space
  | dir {tar : Mtar σ} {space space' : Space} (h : MakesDir params tar)
      (hmade : request storage space = (true, space')) : Passes tar space tar space'
  | whole {tar tar' : Mtar σ} {space space' : Space} {room : Nat} (h : IsFile params tar)
      (hopen : Opens storage space space') (hwhole : Extracts ops tar space'.room tar' room) :
      Passes tar space tar' ⟨space'.requests, room⟩
  | cut {tar tar' : Mtar σ} {space space' : Space} (h : IsFile params tar)
      (hopen : Opens storage space space') (hcut : CutShort ops tar space'.room tar') :
      Passes tar space tar' ⟨space'.requests, 0⟩

/-- The walk goes on as far as to some place between two entries. -/
inductive Reaches : Mtar σ → Space → Mtar σ → Space → Prop
  | here {tar : Mtar σ} {space : Space} : Reaches tar space tar space
  | entry {tar tar' last : Mtar σ} {space space' lastSpace : Space}
      (hnext : (mtarNext ops tar).1 = 0)
      (hpass : Passes ops storage params (mtarNext ops tar).2 space tar' space')
      (hrest : Reaches tar' space' last lastSpace) : Reaches tar space last lastSpace

/-- The walk goes on to the end of the archive. -/
inductive Completes : Mtar σ → Space → Prop
  | finish {tar : Mtar σ} {space : Space} (h : (mtarNext ops tar).1 = MTAR_ENULLRECORD) :
      Completes tar space
  | entry {tar tar' : Mtar σ} {space space' : Space} (hnext : (mtarNext ops tar).1 = 0)
      (hpass : Passes ops storage params (mtarNext ops tar).2 space tar' space')
      (hrest : Completes tar' space') : Completes tar space

/-- In no file that is created a read fails while there is room for more than what was read, and if
there is room for a part of its last block only, the walk stops before the end of the archive. -/
def WalkRight (tar : Mtar σ) (space : Space) : Prop :=
  ∀ there spaceThere space', Reaches ops storage params tar space there spaceThere →
    (mtarNext ops there).1 = 0 → IsFile params (mtarNext ops there).2 →
      Opens storage spaceThere space' →
      ¬ ErrorWithRoom ops (mtarNext ops there).2 space'.room ∧
        ∀ tar', CutShort ops (mtarNext ops there).2 space'.room tar' →
          ¬ Completes ops storage params tar' ⟨space'.requests, 0⟩

end Walk

section Entry
variable {σ : Type} {ops : ArchiveStream σ} {storage : Storage} {params : UnpackParams}
  {tar tar' : Mtar σ} {space space' : Space} {room room' : Nat}

theorem afterBlock_kept : (afterBlock ops tar).headerValid = tar.headerValid ∧
    (afterBlock ops tar).access = tar.access := by
  rw [afterBlock, mtarReadData]
  split
  · exact ⟨rfl, rfl⟩
  · split <;> exact ⟨rfl, rfl⟩

theorem Extracts.kept (h : Extracts ops tar room tar' room') :
    tar'.headerValid = tar.headerValid ∧ tar'.access = tar.access := by
  induction h with
  | done => exact ⟨rfl, rfl⟩
  | block _ _ _ _ ih => exact ⟨ih.1.trans afterBlock_kept.1, ih.2.trans afterBlock_kept.2⟩

theorem CutShort.kept (h : CutShort ops tar room tar') :
    tar'.headerValid = tar.headerValid ∧ tar'.access = tar.access := by
  induction h with
  | last => exact afterBlock_kept
  | block _ _ _ _ ih => exact ⟨ih.1.trans afterBlock_kept.1, ih.2.trans afterBlock_kept.2⟩

theorem AtData.between (h : AtData ops tar) : Between ops tar := ⟨h.reading, Or.inl h.valid⟩

theorem Passes.between (h : Passes ops storage params tar space tar' space')
    (hdata : AtData ops tar) : Between ops tar' := by
  cases h with
  | ignored => exact hdata.between
  | dir => exact hdata.between
  | whole _ _ hwhole =>
    exact ⟨hwhole.kept.2.trans hdata.reading, Or.inl (hwhole.kept.1.trans hdata.valid)⟩
  | cut _ _ hcut =>
    exact ⟨hcut.kept.2.trans hdata.reading, Or.inl (hcut.kept.1.trans hdata.valid)⟩

theorem AtData.dataLeft (h : AtData ops tar) :
    dataLeft ops tar = (ops.content.drop tar.pos.toNat).take tar.header.size.toNat ∧
      tar.endPos.toNat - tar.pos.toNat = tar.header.size.toNat := by
  have hsize := h.size
  have hleft : tar.endPos.toNat - tar.pos.toNat = tar.header.size.toNat := by omega
  rw [Tar.dataLeft, hleft, h.synced]
  exact ⟨rfl, rfl⟩

/-- What the callback does with an entry, and the file that it creates if any. -/
inductive CbOutcome (ops : ArchiveStream σ) (storage : Storage) (params : UnpackParams)
    (tar : Mtar σ) (disk : Disk) : Int × Mtar σ × Disk → Prop
  | plain {tar' : Mtar σ} {space' : Space}
      (hpass : Passes ops storage params tar disk.space tar' space') :
      CbOutcome ops storage params tar disk (0, tar', ⟨space', disk.files⟩)
  | whole {tar' : Mtar σ} {space' : Space} {f : OutFile}
      (hpass : Passes ops storage params tar disk.space tar' space') (hexact : f.Exact ops.content)
      (hclean : f.Clean) :
      CbOutcome ops storage params tar disk (0, tar', ⟨space', disk.files ++ [f]⟩)
  | cut {tar' : Mtar σ} {space' : Space} {f : OutFile} (hfile : IsFile params tar)
      (hopen : Opens storage disk.space space') (hcut : CutShort ops tar space'.room tar')
      (hclean : f.Clean) (hpart : ¬ f.Exact ops.content) :
      CbOutcome ops storage params tar disk (0, tar', ⟨⟨space'.requests, 0⟩, disk.files ++ [f]⟩)
  | error {c : Int × Mtar σ × Disk} {space' : Space} {f : OutFile} (hfile : IsFile params tar)
      (hopen : Opens storage disk.space space') (herror : ErrorWithRoom ops tar space'.room)
      (hfiles : c.2.2.files = disk.files ++ [f]) (hdirty : ¬ f.Clean) :
      CbOutcome ops storage params tar disk c
  | fails {c : Int × Mtar σ × Disk} {new : List OutFile} (hfails : c.1 ≠ 0)
      (hfiles : c.2.2.files = disk.files ++ new) (hclean : ∀ f ∈ new, f.Clean) :
      CbOutcome ops storage params tar disk c

theorem clean_map (path : FuriString) (dataPos size : UInt32) (data : Bytes) :
    (OutFile.mk path dataPos size (data.map some)).Clean := by
  intro h
  obtain ⟨b, -, hb⟩ := mem_map.mp h
  exact some_ne_none b hb

/-- How the extraction of a file ends that is created. -/
inductive FileOutcome (ops : ArchiveStream σ) (tar : Mtar σ) (room : Nat) (f : OutFile)
    (e : Extraction σ) : Prop
  | whole (hsuccess : e.success = true) (hwhole : Extracts ops tar room e.tar e.room)
      (hexact : f.Exact ops.content) (hclean : f.Clean)
  | cut (hsuccess : e.success = true) (hcut : CutShort ops tar room e.tar) (hfull : e.room = 0)
      (hclean : f.Clean) (hpart : ¬ f.Exact ops.content)
  | error (herror : ErrorWithRoom ops tar room) (hdirty : ¬ f.Clean)
  | fails (hfails : e.success = false) (hclean : f.Clean)

theorem CutShort.not_exact (h : CutShort ops tar room tar') (hdata : AtData ops tar)
    (path : FuriString) :
    ¬ (OutFile.mk path tar.pos tar.header.size (extractBlocks ops tar [] room).content).Exact
      ops.content := by
  obtain ⟨-, hsize⟩ := hdata.dataLeft
  obtain ⟨-, -, -, data, hcontent, hlength⟩ := @CutShort.result _ _ _ _ _ [] h
  rintro ⟨hexact, hall⟩
  dsimp only at hexact hall
  have heq := congrArg List.length (hcontent.symm.trans hexact)
  rw [nil_append, length_map, length_map, hall] at heq
  omega

theorem file_outcome (hdata : AtData ops tar) (path : FuriString) (room : Nat) :
    FileOutcome ops tar room
      ⟨path, tar.pos, tar.header.size, (extractBlocks ops tar [] room).content⟩
      (extractBlocks ops tar [] room) := by
  obtain ⟨hleft, hsize⟩ := hdata.dataLeft
  by_cases hwhole : ∃ tar' room', Extracts ops tar room tar' room'
  · obtain ⟨tar', room', h⟩ := hwhole
    obtain ⟨hsuccess, htar, hroom, hcontent, hlength⟩ :=
      @Extracts.result _ _ _ _ _ _ [] h hdata.valid
    rw [nil_append] at hcontent
    refine .whole hsuccess (by rw [htar, hroom]; exact h) ⟨?_, ?_⟩ ?_
    · rw [hcontent, hleft]
    · rw [← hleft, hlength, hsize]
    · rw [hcontent]
      exact clean_map _ _ _ _
  by_cases hcut : ∃ tar', CutShort ops tar room tar'
  · obtain ⟨tar', h⟩ := hcut
    obtain ⟨hsuccess, htar, hroom, data, hcontent, hlength⟩ := @CutShort.result _ _ _ _ _ [] h
    rw [nil_append] at hcontent
    exact .cut hsuccess (by rw [htar]; exact h) hroom (by rw [hcontent]; exact clean_map _ _ _ _)
      (h.not_exact hdata path)
  by_cases herror : ErrorWithRoom ops tar room
  · exact .error herror fun hclean => hclean herror.result
  obtain ⟨hfails, data, hcontent⟩ := @extractBlocks_else _ ops tar room [] 
    (fun _ _ h => hwhole ⟨_, _, h⟩) (fun _ h => hcut ⟨_, h⟩) herror
  rw [nil_append] at hcontent
  exact .fails hfails (by rw [hcontent]; exact clean_map _ _ _ _)

/-- What one entry of the archive leaves on the storage. -/
theorem archiveExtractForeachCb_outcome (hdata : AtData ops tar) (disk : Disk) :
    CbOutcome ops storage params tar disk
      (archiveExtractForeachCb ops storage params tar disk) := by
  rw [archiveExtractForeachCb]
  split
  case isTrue hskips => exact .plain (.ignored (Or.inl hskips))
  case isFalse hnot =>
    have hkept := Bool.eq_false_iff.mpr hnot
    split
    case h_1 hdir =>
      split
      case isTrue hroot => exact .plain (.ignored (Or.inr (Or.inr ⟨hdir, hroot⟩)))
      case isFalse hname =>
        dsimp only
        cases hmade : request storage disk.space with
        | mk made space' =>
          cases made with
          | true => exact .plain (.dir ⟨hkept, hdir, hname⟩ hmade)
          | false =>
            exact @CbOutcome.fails _ _ _ _ _ _ _ [] (show (-1 : Int) ≠ 0 by decide)
              (append_nil _).symm fun f hf => absurd hf not_mem_nil
    case h_2 hother => exact .plain (.ignored (Or.inr (Or.inl hother)))
    case h_3 hreg =>
      have hfile : IsFile params tar := ⟨hkept, hreg⟩
      dsimp only
      rw [archiveExtractCurrentFile]
      cases hopen : openTries storage FILE_OPEN_NTRIES disk.space with
      | mk opened space' =>
        cases opened with
        | false =>
          exact @CbOutcome.fails _ _ _ _ _ _ _ [] (show MTAR_EFAILURE ≠ 0 by decide)
            (append_nil _).symm fun f hf => absurd hf not_mem_nil
        | true =>
          dsimp only
          rw [Bool.not_true, if_neg Bool.false_ne_true]
          dsimp only
          cases file_outcome hdata (params.filePath tar.header) space'.room with
          | whole hsuccess hwhole hexact hclean =>
            rw [hsuccess]
            exact .whole (.whole hfile hopen hwhole) hexact hclean
          | cut hsuccess hcut hfull hclean hpart =>
            rw [hsuccess, hfull]
            exact .cut hfile hopen hcut hclean hpart
          | error herror hdirty => exact .error hfile hopen herror rfl hdirty
          | fails hfails hclean =>
            rw [hfails]
            refine .fails (show MTAR_EFAILURE ≠ 0 by decide) rfl ?_
            intro f hf
            rw [mem_singleton.mp hf]
            exact hclean

theorem archiveExtractForeachCb_file {files : List OutFile} (hfile : IsFile params tar)
    (hopen : Opens storage space space') :
    archiveExtractForeachCb ops storage params tar ⟨space, files⟩ =
      (if (extractBlocks ops tar [] space'.room).success then 0 else MTAR_EFAILURE,
        (extractBlocks ops tar [] space'.room).tar,
        ⟨⟨space'.requests, (extractBlocks ops tar [] space'.room).room⟩,
          files ++ [⟨params.filePath tar.header, tar.pos, tar.header.size,
            (extractBlocks ops tar [] space'.room).content⟩]⟩) := by
  have hopen' : openTries storage FILE_OPEN_NTRIES space = (true, space') := hopen
  rw [archiveExtractForeachCb, hfile.1, if_neg Bool.false_ne_true, hfile.2]
  dsimp only
  rw [archiveExtractCurrentFile, hopen']
  rfl

theorem Passes.step (h : Passes ops storage params tar space tar' space')
    (hdata : AtData ops tar) (files : List OutFile) :
    ∃ new, archiveExtractForeachCb ops storage params tar ⟨space, files⟩ =
      (0, tar', ⟨space', files ++ new⟩) := by
  cases h with
  | ignored h =>
    refine ⟨[], ?_⟩
    rw [archiveExtractForeachCb, append_nil]
    rcases h with hskips | hother | ⟨hdir, hroot⟩
    · rw [if_pos hskips]
    · rw [hother, ite_self]
    · rw [hdir]
      dsimp only
      rw [if_pos hroot, ite_self]
  | dir h hmade =>
    refine ⟨[], ?_⟩
    rw [archiveExtractForeachCb, append_nil, h.1, if_neg Bool.false_ne_true, h.2.1]
    dsimp only
    rw [if_neg h.2.2, hmade]
    rfl
  | whole hfile hopen hwhole =>
    obtain ⟨hsuccess, htar, hroom, -⟩ := @Extracts.result _ _ _ _ _ _ [] hwhole hdata.valid
    rw [archiveExtractForeachCb_file hfile hopen, hsuccess, htar, hroom]
    exact ⟨_, rfl⟩
  | cut hfile hopen hcut =>
    obtain ⟨hsuccess, htar, hroom, -⟩ := @CutShort.result _ _ _ _ _ [] hcut
    rw [archiveExtractForeachCb_file hfile hopen, hsuccess, htar, hroom]
    exact ⟨_, rfl⟩

end Entry

section Runs
variable {σ : Type} {ops : ArchiveStream σ} {storage : Storage} {params : UnpackParams}
  {tar : Mtar σ} {space : Space} {files : List OutFile}

variable {fuel : Nat}

theorem foreachLoop_stop {S : Type} {cb : Mtar σ → S → Int × Mtar σ × S} {s : S}
    (h : (mtarNext ops tar).1 ≠ 0) :
    foreachLoop ops cb (fuel + 1) tar s =
      (some (if (mtarNext ops tar).1 = MTAR_ENULLRECORD then MTAR_ESUCCESS
        else (mtarNext ops tar).1), (mtarNext ops tar).2, s) := by
  rw [foreachLoop]
  exact if_pos h

theorem foreachLoop_entry {S : Type} {cb : Mtar σ → S → Int × Mtar σ × S} {s : S}
    (h : (mtarNext ops tar).1 = 0) :
    foreachLoop ops cb (fuel + 1) tar s = if (cb (mtarNext ops tar).2 s).1 ≠ 0 then
        (some (cb (mtarNext ops tar).2 s).1, (cb (mtarNext ops tar).2 s).2)
      else foreachLoop ops cb fuel (cb (mtarNext ops tar).2 s).2.1
        (cb (mtarNext ops tar).2 s).2.2 := by
  rw [foreachLoop]
  exact if_neg (not_not_intro h)

abbrev unpackLoop (ops : ArchiveStream σ) (storage : Storage) (params : UnpackParams) (fuel : Nat)
    (tar : Mtar σ) (disk : Disk) : Option Int × Mtar σ × Disk :=
  foreachLoop ops (archiveExtractForeachCb ops storage params) fuel tar disk

theorem WalkRight.next {tar' : Mtar σ} {space' : Space} (h : WalkRight ops storage params tar space)
    (hnext : (mtarNext ops tar).1 = 0)
    (hpass : Passes ops storage params (mtarNext ops tar).2 space tar' space') :
    WalkRight ops storage params tar' space' :=
  fun _ _ _ hreach => h _ _ _ (.entry hnext hpass hreach)

theorem completes_of_success (hright : WalkRight ops storage params tar space)
    (hbetween : Between ops tar)
    (h : (unpackLoop ops storage params fuel tar ⟨space, files⟩).1 = some 0) :
    Completes ops storage params tar space := by
  induction fuel generalizing tar space files with
  | zero => exact absurd h.symm (some_ne_none 0)
  | succ fuel ih =>
    by_cases hnext : (mtarNext ops tar).1 = 0
    · have hdata := (mtarNext_arrives hbetween).atData hnext
      rw [unpackLoop, foreachLoop_entry hnext] at h
      generalize hc : archiveExtractForeachCb ops storage params (mtarNext ops tar).2
        ⟨space, files⟩ = c at h
      have houtcome := @archiveExtractForeachCb_outcome _ ops storage params _ hdata ⟨space, files⟩
      rw [hc] at houtcome
      cases houtcome with
      | plain hpass =>
        exact .entry hnext hpass (ih (hright.next hnext hpass) (hpass.between hdata) h)
      | whole hpass _ _ =>
        exact .entry hnext hpass (ih (hright.next hnext hpass) (hpass.between hdata) h)
      | cut hfile hopen hcut _ _ =>
        have hpass := Passes.cut hfile hopen hcut
        exact .entry hnext hpass (ih (hright.next hnext hpass) (hpass.between hdata) h)
      | error hfile hopen herror _ _ =>
        exact absurd herror (hright _ _ _ .here hnext hfile hopen).1
      | fails hfails _ _ =>
        rw [if_pos hfails] at h
        exact absurd (some.inj h) hfails
    · rw [unpackLoop, foreachLoop_stop hnext] at h
      refine .finish ?_
      by_contra hnull
      rw [if_neg hnull] at h
      exact hnext (some.inj h)

theorem WalkRight.allOrError (hright : WalkRight ops storage params tar space)
    (hbetween : Between ops tar) :
    AllOrError ops.content files
      ((unpackLoop ops storage params fuel tar ⟨space, files⟩).1.map (· = MTAR_ESUCCESS),
        (unpackLoop ops storage params fuel tar ⟨space, files⟩).2.2) := by
  have hnothing : ∀ f ∈ ([] : List OutFile), f.Clean := fun f hf => absurd hf not_mem_nil
  have hnone : ∀ f ∈ ([] : List OutFile), f.Exact ops.content :=
    fun f hf => absurd hf not_mem_nil
  induction fuel generalizing tar space files with
  | zero => exact ⟨[], (append_nil _).symm, hnothing, fun _ => hnone⟩
  | succ fuel ih =>
    by_cases hnext : (mtarNext ops tar).1 = 0
    · have hdata := (mtarNext_arrives hbetween).atData hnext
      rw [unpackLoop, foreachLoop_entry hnext]
      generalize hc : archiveExtractForeachCb ops storage params (mtarNext ops tar).2
        ⟨space, files⟩ = c
      have houtcome := @archiveExtractForeachCb_outcome _ ops storage params _ hdata ⟨space, files⟩
      rw [hc] at houtcome
      cases houtcome with
      | plain hpass => exact ih (hright.next hnext hpass) (hpass.between hdata)
      | @whole tar' space' f hpass hexact hclean =>
        obtain ⟨new, hfiles, hcleanNew, hexactNew⟩ :=
          @ih _ _ (files ++ [f]) (hright.next hnext hpass) (hpass.between hdata)
        refine ⟨f :: new, hfiles.trans (append_assoc _ _ _), ?_, fun hsuccess => ?_⟩
        · exact forall_mem_cons.mpr ⟨hclean, hcleanNew⟩
        · exact forall_mem_cons.mpr ⟨hexact, hexactNew hsuccess⟩
      | @cut space' tar' f hfile hopen hcut hclean _ =>
        have hpass := Passes.cut hfile hopen hcut
        have hrest := hright.next hnext hpass
        obtain ⟨new, hfiles, hcleanNew, hexactNew⟩ :=
          @ih _ _ (files ++ [f]) hrest (hpass.between hdata)
        refine ⟨f :: new, hfiles.trans (append_assoc _ _ _), ?_, fun hsuccess => ?_⟩
        · exact forall_mem_cons.mpr ⟨hclean, hcleanNew⟩
        · obtain ⟨code, hcode, hzero⟩ := map_eq_some_iff.mp hsuccess
          rw [of_decide_eq_true hzero] at hcode
          exact absurd (completes_of_success hrest (hpass.between hdata) hcode)
            ((hright _ _ _ .here hnext hfile hopen).2 _ hcut)
      | error hfile hopen herror _ _ =>
        exact absurd herror (hright _ _ _ .here hnext hfile hopen).1
      | @fails _ new hfails hfiles hclean =>
        rw [if_pos hfails]
        refine ⟨new, hfiles, hclean, fun hsuccess => ?_⟩
        have hcode : some (decide (c.1 = MTAR_ESUCCESS)) = some true := hsuccess
        exact absurd (of_decide_eq_true (some.inj hcode)) hfails
    · rw [unpackLoop, foreachLoop_stop hnext]
      exact ⟨[], (append_nil _).symm, hnothing, fun _ => hnone⟩

theorem Reaches.run {last : Mtar σ} {lastSpace : Space}
    (h : Reaches ops storage params tar space last lastSpace) (hbetween : Between ops tar)
    (files : List OutFile) : Between ops last ∧ ∃ new, ∀ fuel, ∃ more,
      unpackLoop ops storage params more tar ⟨space, files⟩ =
        unpackLoop ops storage params fuel last ⟨lastSpace, files ++ new⟩ := by
  induction h generalizing files with
  | here => exact ⟨hbetween, [], fun fuel => ⟨fuel, by rw [append_nil]⟩⟩
  | @entry tar tar' last space space' lastSpace hnext hpass hrest ih =>
    have hdata := (mtarNext_arrives hbetween).atData hnext
    obtain ⟨mine, hstep⟩ := hpass.step hdata files
    obtain ⟨hlast, new, hrun⟩ := ih (hpass.between hdata) (files ++ mine)
    refine ⟨hlast, mine ++ new, fun fuel => ?_⟩
    obtain ⟨more, hmore⟩ := hrun fuel
    refine ⟨more + 1, ?_⟩
    rw [unpackLoop, foreachLoop_entry hnext, hstep, ← append_assoc]
    exact hmore

theorem Completes.run (h : Completes ops storage params tar space) (hbetween : Between ops tar)
    (files : List OutFile) : ∃ fuel new,
      (unpackLoop ops storage params fuel tar ⟨space, files⟩).1 = some 0 ∧
        (unpackLoop ops storage params fuel tar ⟨space, files⟩).2.2.files = files ++ new := by
  induction h generalizing files with
  | @finish tar space hnull =>
    refine ⟨1, [], ?_, ?_⟩
    · rw [unpackLoop, foreachLoop_stop (by rw [hnull]; decide), if_pos hnull]
    · rw [unpackLoop, foreachLoop_stop (by rw [hnull]; decide), append_nil]
  | @entry tar tar' space space' hnext hpass hrest ih =>
    have hdata := (mtarNext_arrives hbetween).atData hnext
    obtain ⟨mine, hstep⟩ := hpass.step hdata files
    obtain ⟨fuel, new, hsuccess, hfiles⟩ := ih (hpass.between hdata) (files ++ mine)
    refine ⟨fuel + 1, mine ++ new, ?_, ?_⟩
    · rw [unpackLoop, foreachLoop_entry hnext, hstep]
      exact hsuccess
    · rw [unpackLoop, foreachLoop_entry hnext, hstep, ← append_assoc]
      exact hfiles

theorem walkRight_of_allOrError (hbetween : Between ops tar)
    (h : ∀ fuel, AllOrError ops.content files
      ((unpackLoop ops storage params fuel tar ⟨space, files⟩).1.map (· = MTAR_ESUCCESS),
        (unpackLoop ops storage params fuel tar ⟨space, files⟩).2.2)) :
    WalkRight ops storage params tar space := by
  intro there spaceThere space' hreach hnext hfile hopen
  obtain ⟨hthere, new, hrun⟩ := hreach.run hbetween files
  have hdata := (mtarNext_arrives hthere).atData hnext
  have hstep := @archiveExtractForeachCb_file _ ops storage params _ _ _ (files ++ new) hfile hopen
  constructor
  · intro herror
    obtain ⟨more, hmore⟩ := hrun 1
    have hfiles : (unpackLoop ops storage params more tar ⟨space, files⟩).2.2.files =
        files ++ (new ++ [⟨params.filePath (mtarNext ops there).2.header,
          (mtarNext ops there).2.pos, (mtarNext ops there).2.header.size,
          (extractBlocks ops (mtarNext ops there).2 [] space'.room).content⟩]) := by
      rw [hmore, unpackLoop, foreachLoop_entry hnext, hstep, ← append_assoc]
      split <;> rfl
    obtain ⟨new', hnew, hclean, -⟩ := h more
    obtain rfl := append_cancel_left (hfiles.symm.trans hnew)
    exact hclean _ (mem_append_right _ (mem_singleton_self _)) herror.result
  · intro tar' hcut hcompletes
    have hpass := Passes.cut hfile hopen hcut
    obtain ⟨hsuccess, htar, hroom, -⟩ := @CutShort.result _ _ _ _ _ [] hcut
    obtain ⟨fuel, rest, hzero, hrest⟩ := hcompletes.run (hpass.between hdata)
      (files ++ new ++ [⟨params.filePath (mtarNext ops there).2.header,
        (mtarNext ops there).2.pos, (mtarNext ops there).2.header.size,
        (extractBlocks ops (mtarNext ops there).2 [] space'.room).content⟩])
    obtain ⟨more, hmore⟩ := hrun (fuel + 1)
    rw [unpackLoop, unpackLoop, foreachLoop_entry hnext, hstep, hsuccess, htar, hroom] at hmore
    obtain ⟨new', hnew, -, hexact⟩ := h more
    rw [unpackLoop, hmore] at hnew hexact
    obtain rfl := append_cancel_left ((append_assoc _ _ _).symm.trans
      ((append_assoc _ _ _).symm.trans (hrest.symm.trans hnew)))
    refine hcut.not_exact hdata (params.filePath (mtarNext ops there).2.header) (hexact ?_ _ ?_)
    · exact congrArg (Option.map fun code => decide (code = MTAR_ESUCCESS)) hzero
    · exact mem_append_right _ (mem_append_left _ (mem_singleton_self _))

theorem findLoop_atData {name : Bytes} (hbetween : Between ops tar)
    (h : (foreachLoop ops (findForeachCb name) fuel tar ()).1 = some 1) :
    AtData ops (foreachLoop ops (findForeachCb name) fuel tar ()).2.1 := by
  induction fuel generalizing tar with
  | zero => exact absurd h.symm (some_ne_none 1)
  | succ fuel ih =>
    have harrives := mtarNext_arrives hbetween
    by_cases hnext : (mtarNext ops tar).1 = 0
    · have hdata := harrives.atData hnext
      rw [foreachLoop_entry hnext, findForeachCb] at h ⊢
      dsimp only at h ⊢
      by_cases hname : (mtarNext ops tar).2.header.name = name
      · rw [if_pos hname, if_pos (by decide)]
        exact hdata
      · rw [if_neg hname, if_neg (by decide)] at h ⊢
        exact ih hdata.between h
    · have hneg := harrives.error
      rw [foreachLoop_stop hnext] at h
      have hcode := some.inj h
      split at hcode
      · cases hcode
      · omega

theorem mtarFind_atData {name : Bytes} {found : Mtar σ}
    (h : mtarFind ops name fuel tar = (some 0, found)) : AtData ops found := by
  obtain ⟨hcode, rfl⟩ := Prod.mk.inj h
  obtain ⟨err, herr, hzero⟩ := map_eq_some_iff.mp hcode
  obtain rfl : err = 1 := by
    split at hzero
    · assumption
    · split at hzero
      · cases hzero
      · contradiction
  rw [mtarForeach] at herr ⊢
  split at herr
  case isTrue => exact absurd (some.inj herr) (by decide)
  case isFalse hreading =>
    rw [if_neg hreading]
    rw [not_not] at hreading
    dsimp only at herr ⊢
    split at herr
    case isTrue hrewind =>
      have hone := some.inj herr
      rw [mtarRewind, if_neg (not_not_intro hreading)] at hone hrewind
      rcases @tseek_spec _ ops tar 0 with hneg | ⟨hzero, -⟩
      · exact absurd hone (Int.ne_of_lt (Int.lt_trans hneg (by decide)))
      · exact absurd hzero hrewind
    case isFalse hrewind =>
      rw [if_neg hrewind]
      exact findLoop_atData (mtarRewind_between hreading (not_not.mp hrewind)) herr

end Runs

theorem allOrError_of_none {content : Bytes} {files : List OutFile} {r : Option Bool × Disk}
    (hfiles : r.2.files = files) (hresult : r.1 ≠ some true) : AllOrError content files r :=
  ⟨[], hfiles.trans (append_nil _).symm, fun _ hf => absurd hf not_mem_nil,
    fun h => absurd h hresult⟩

theorem allOrError_file {σ : Type} {ops : ArchiveStream σ} {tar : Mtar σ} (hdata : AtData ops tar)
    (path : FuriString) (room : Nat) (files : List OutFile) (space : Space) :
    AllOrError ops.content files (some (extractBlocks ops tar [] room).success,
        ⟨space, files ++ [⟨path, tar.pos, tar.header.size,
          (extractBlocks ops tar [] room).content⟩]⟩) ↔
      ¬ ErrorWithRoom ops tar room ∧ ∀ tar', ¬ CutShort ops tar room tar' := by
  constructor
  · rintro ⟨new, hnew, hclean, hexact⟩
    obtain rfl := append_cancel_left hnew
    constructor
    · exact fun herror => hclean _ (mem_singleton_self _) herror.result
    · intro tar' hcut
      obtain ⟨hsuccess, -⟩ := @CutShort.result _ _ _ _ _ [] hcut
      exact hcut.not_exact hdata path (hexact (congrArg some hsuccess) _ (mem_singleton_self _))
  · rintro ⟨herror, hcut⟩
    have hone : ∀ {p : OutFile → Prop} {f : OutFile}, p f → ∀ f' ∈ [f], p f' := by
      intro p f hf f' hf'
      rwa [mem_singleton.mp hf']
    cases file_outcome hdata path room with
    | whole _ _ hexact hclean => exact ⟨_, rfl, hone hclean, fun _ => hone hexact⟩
    | cut _ h _ _ _ => exact absurd h (hcut _)
    | error h _ => exact absurd h herror
    | fails hfails hclean =>
      refine ⟨_, rfl, hone hclean, fun hsuccess => ?_⟩
      cases hfails.symm.trans (some.inj hsuccess)

section Functions
variable {σ : Type} (ops : ArchiveStream σ) (storage : Storage)

/-- The walk through the archive goes right, if there is one. -/
def UnpackToRight (params : UnpackParams) (tar : Mtar σ) (space : Space) : Prop :=
  tar.access = .read → (mtarRewind ops tar).1 = 0 →
    WalkRight ops storage params (mtarRewind ops tar).2 space

/-- If the file is found and created, no read of it fails while there is room for more than what was
read, and there is room for all of its last block. -/
def UnpackFileRight (archiveFname : Bytes) (tar : Mtar σ) (space : Space) : Prop :=
  ∀ fuel found space', mtarFind ops archiveFname fuel tar = (some 0, found) →
    Opens storage space space' →
      ¬ ErrorWithRoom ops found space'.room ∧ ∀ tar', ¬ CutShort ops found space'.room tar'

theorem tarArchiveUnpackTo_allOrError (params : UnpackParams) (tar : Mtar σ) (disk : Disk) :
    (∀ fuel, AllOrError ops.content disk.files
      (tarArchiveUnpackTo ops storage params fuel tar disk)) ↔
    UnpackToRight ops storage params tar disk.space := by
  by_cases hreading : tar.access = .read
  · by_cases hrewind : (mtarRewind ops tar).1 = 0
    · have hbetween := mtarRewind_between hreading hrewind
      have hrun : ∀ fuel, tarArchiveUnpackTo ops storage params fuel tar disk =
          ((unpackLoop ops storage params fuel (mtarRewind ops tar).2 disk).1.map
              fun code => decide (code = MTAR_ESUCCESS),
            (unpackLoop ops storage params fuel (mtarRewind ops tar).2 disk).2.2) := by
        intro fuel
        rw [tarArchiveUnpackTo, mtarForeach, if_neg (not_not_intro hreading)]
        dsimp only
        rw [if_neg (not_not_intro hrewind)]
      constructor
      · intro h _ _
        refine @walkRight_of_allOrError _ ops storage params _ disk.space disk.files hbetween
          fun fuel => ?_
        have hfuel := h fuel
        rwa [hrun] at hfuel
      · intro h fuel
        rw [hrun]
        exact (h hreading hrewind).allOrError hbetween
    · refine iff_of_true (fun fuel => ?_) fun _ h => absurd h hrewind
      have hrun : tarArchiveUnpackTo ops storage params fuel tar disk =
          (some (decide ((mtarRewind ops tar).1 = 0)), disk) := by
        rw [tarArchiveUnpackTo, mtarForeach, if_neg (not_not_intro hreading)]
        dsimp only
        rw [if_pos hrewind]
        rfl
      rw [hrun, decide_eq_false hrewind]
      exact allOrError_of_none rfl (show some false ≠ some true by decide)
  · refine iff_of_true (fun fuel => ?_) fun h => absurd h hreading
    rw [tarArchiveUnpackTo, mtarForeach, if_pos hreading]
    exact allOrError_of_none rfl (show some false ≠ some true by decide)

theorem tarArchiveUnpackFile_allOrError (archiveFname : Bytes) (destination : FuriString)
    (tar : Mtar σ) (disk : Disk) :
    (∀ fuel, AllOrError ops.content disk.files
      (tarArchiveUnpackFile ops storage archiveFname destination fuel tar disk)) ↔
    UnpackFileRight ops storage archiveFname tar disk.space := by
  rw [UnpackFileRight]
  refine forall_congr' fun fuel => ?_
  rw [tarArchiveUnpackFile]
  generalize hfind : mtarFind ops archiveFname fuel tar = f
  obtain ⟨code, found⟩ := f
  cases code with
  | none =>
    refine iff_of_true ?_ fun _ _ h => absurd (congrArg Prod.fst h).symm (some_ne_none 0)
    exact allOrError_of_none rfl (some_ne_none true).symm
  | some err =>
    dsimp only
    by_cases hzero : err = 0
    · obtain rfl := hzero
      have hdata := mtarFind_atData hfind
      rw [if_neg (by decide), archiveExtractCurrentFile]
      generalize hopen : openTries storage FILE_OPEN_NTRIES disk.space = o
      obtain ⟨opened, space'⟩ := o
      cases opened with
      | false =>
        refine iff_of_true ?_ fun _ _ _ h => ?_
        · exact allOrError_of_none rfl (show some false ≠ some true by decide)
        · exact absurd (congrArg Prod.fst (hopen.symm.trans h)) Bool.false_ne_true
      | true =>
        refine (allOrError_file hdata destination space'.room disk.files _).trans ⟨?_, ?_⟩
        · intro h found' space'' hfound hopens
          obtain rfl := (Prod.mk.inj hfound).2
          obtain rfl := (Prod.mk.inj (hopen.symm.trans hopens)).2
          exact h
        · exact fun h => h found space' rfl hopen
    · rw [if_pos hzero]
      refine iff_of_true (allOrError_of_none rfl (show some false ≠ some true by decide)) ?_
      intro _ _ h
      exact absurd (some.inj (congrArg Prod.fst h)) hzero

/-- Both functions return success with whole files only and write only bytes that were read, exactly
if no read goes wrong with room on the storage and no last block is cut off in a whole walk. -/
theorem tarArchiveUnpack_iff (params : UnpackParams) (archiveFname : Bytes)
    (destination : FuriString) (tar : Mtar σ) (disk : Disk) :
    ((∀ fuel, AllOrError ops.content disk.files
        (tarArchiveUnpackTo ops storage params fuel tar disk)) ↔
      UnpackToRight ops storage params tar disk.space) ∧
    ((∀ fuel, AllOrError ops.content disk.files
        (tarArchiveUnpackFile ops storage archiveFname destination fuel tar disk)) ↔
      UnpackFileRight ops storage archiveFname tar disk.space) :=
  ⟨tarArchiveUnpackTo_allOrError ops storage params tar disk,
    tarArchiveUnpackFile_allOrError ops storage archiveFname destination tar disk⟩

end Functions

def octalField (digits : String) : Bytes := ascii digits ++ [0]

def oneFile : Bytes :=
  ascii "a" ++ List.replicate 99 0 ++ octalField "0000644" ++ octalField "0000000" ++
    octalField "0000000" ++ octalField "00000000005" ++ octalField "00000000000" ++
    octalField "004664" ++ ascii " 0" ++ List.replicate 355 0 ++
    ascii "hello" ++ List.replicate 507 0 ++ List.replicate 1024 0

def opened : Mtar Nat := ⟨false, .read, 0, 0, 0, ⟨0, 0, 0, 0, 0, .reg, []⟩, 0⟩

/-- With room for three bytes only the first three of the file are written, and the archive counts
as extracted. -/
theorem fullStorage_cutFile :
    ¬ ∀ (ops : ArchiveStream Nat) (storage : Storage) (params : UnpackParams) (tar : Mtar Nat)
        (disk : Disk) (fuel : Nat), AllOrError ops.content disk.files
      (tarArchiveUnpackTo ops storage params fuel tar disk) := by
  intro h
  have hright := (tarArchiveUnpackTo_allOrError (filesystemOps oneFile) (fun _ => some 3)
    ⟨"/ext".toList, none, none⟩ opened ⟨⟨0, 0⟩, []⟩).mp (h _ _ _ _ _)
  obtain ⟨-, hcut⟩ := hright rfl rfl _ _ ⟨1, 3⟩ .here (by decide +kernel)
    ⟨rfl, by decide +kernel⟩ rfl
  refine hcut _ (.last ?_ ?_ ?_ ?_ ?_) (.finish ?_) <;> decide +kernel

end NikitaFirmware.Tar
