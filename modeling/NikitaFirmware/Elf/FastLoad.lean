import NikitaFirmware.Elf.FastRelocation

/-!
# Loading with either list

An application whose sections have their relocations listed twice is loaded through `.fast.rel` or,
without that, through `.rel`.
-/

namespace NikitaFirmware.Elf

open Foundations List

def relocs (elf : ELFFile) (s : ELFSection) : List Reloc := (relocsOf elf s).getD []

/-- The `.fast.rel` section of a section lists the relocations of its `.rel` section, in records
that are not empty. -/
structure Lists (elf : ELFFile) (s : ELFSection) : Prop where
  readable : relocsOf elf s = some (relocs elf s)
  without : s.fastRel = none → s.relCount = 0
  version : ∀ rel, s.fastRel = some rel → rel 0 = 1
  records : ∀ rel, s.fastRel = some rel → ∀ r ∈ fastRecordsOf rel, r.offsets ≠ []
  same : ∀ rel, s.fastRel = some rel → (fastRelocsOf rel).Perm (relocs elf s)

def ELFSection.withoutFast (s : ELFSection) : ELFSection := { s with fastRel := none }

def withoutFast (sections : Sections) : Sections := sections.map fun s => (s.1, s.2.withoutFast)

def Target.Known (sections : Sections) : Target → Prop
  | .imported _ => True
  | .section index _ => dataOf sections index ≠ none

/-- The relocations of a section have places in memory, refer to sections that there are and are of
types that are applied. -/
structure Sound (elf : ELFFile) (sections : Sections) (s : ELFSection) : Prop where
  loaded : relocs elf s ≠ [] → s.data ≠ 0
  known : ∀ r ∈ relocs elf s, r.target.Known sections
  supported : ∀ r ∈ relocs elf s, (relocType r.type).supported = true

/-- The relocations are in the same order in both lists, or no two of them have a byte in common. -/
def OrderFree (elf : ELFFile) (s : ELFSection) : Prop :=
  ∀ rel, s.fastRel = some rel → fastRelocsOf rel = relocs elf s ∨
    (relocs elf s).Pairwise fun r r' =>
      Disjoint (wordPlaces (s.data + r.offset)) (wordPlaces (s.data + r'.offset))

section Memory
variable (place : Addr → Allocated) (elf : ELFFile) (sections : Sections)

/-- The relocations of a section, applied in their order. -/
def applySection (m : Memory) (s : ELFSection) : Memory :=
  (relocs elf s).foldl (Reloc.apply place elf sections s.data) m

structure AllApplied (before after : Memory) : Prop where
  loaded : ∀ s ∈ sections, relocs elf s.2 ≠ [] → s.2.data ≠ 0
  fine : ∀ s ∈ sections, ∀ r ∈ relocs elf s.2, r.fine elf sections = true
  memory : after = sections.foldl (fun m s => applySection place elf sections m s.2) before

/-- Both ways leave the same, and success means that every relocation was resolved and applied. -/
structure LoadedRight (before : Memory) (fast slow : LoadResult) : Prop where
  status : fast.status = slow.status
  entry : fast.entry = slow.entry
  memory : fast.loaded.memory = slow.loaded.memory
  applied : fast.status = .success → AllApplied place elf sections before fast.loaded.memory

/-- Nothing else fails: imported symbols are exported, and no address stands for none. -/
structure ElseResolved : Prop where
  imported : ∀ s ∈ sections, ∀ r ∈ relocs elf s.2, ∀ hash, r.target = .imported hash →
    elf.addressOfByHash hash ≠ invalidAddress
  placed : ∀ s ∈ sections, ∀ r ∈ relocs elf s.2, ∀ index value data,
    r.target = .section index value → dataOf sections index = some data →
      data + value ≠ invalidAddress
  text : sections.lookup (ascii ".text") ≠ none

end Memory

section WithoutFast
variable {elf : ELFFile} {sections : Sections} {s : ELFSection}

theorem dataOf_withoutFast (index : Nat) :
    dataOf (withoutFast sections) index = dataOf sections index := by
  rw [dataOf, dataOf, sectionOf, sectionOf, withoutFast, List.find?_map]
  simp only [Function.comp_def, Option.map_map]
  rfl

theorem address_withoutFast (target : Target) :
    target.address elf (withoutFast sections) = target.address elf sections := by
  cases target with
  | imported => rfl
  | «section» => rw [Target.address, dataOf_withoutFast, Target.address]

theorem fine_withoutFast (r : Reloc) : r.fine elf (withoutFast sections) = r.fine elf sections := by
  rw [Reloc.fine, Reloc.fine, address_withoutFast]

theorem lookup_withoutFast (name : Bytes) :
    (withoutFast sections).lookup name = (sections.lookup name).map ELFSection.withoutFast := by
  induction sections with
  | nil => rfl
  | cons s sections ih =>
    rw [withoutFast, map_cons, lookup_cons, lookup_cons]
    cases name == s.1
    · exact ih
    · rfl

theorem relocsFrom_withoutFast (n i : Nat) :
    relocsFrom elf s.withoutFast n i = relocsFrom elf s n i := by
  induction n generalizing i with
  | zero => rfl
  | succ n ih =>
    rw [relocsFrom, relocsFrom]
    congr 1
    funext r
    rw [ih]

theorem relocsOf_withoutFast : relocsOf elf s.withoutFast = relocsOf elf s :=
  relocsFrom_withoutFast s.relCount 0

theorem relocs_withoutFast : relocs elf s.withoutFast = relocs elf s :=
  congrArg (·.getD []) relocsOf_withoutFast

theorem applySection_withoutFast (place : Addr → Allocated) (m : Memory) :
    applySection place elf sections m s.withoutFast = applySection place elf sections m s := by
  rw [applySection, relocs_withoutFast]
  rfl

theorem apply_withoutFast (place : Addr → Allocated) (data : Addr) (m : Memory) (r : Reloc) :
    r.apply place elf (withoutFast sections) data m = r.apply place elf sections data m := by
  rw [Reloc.apply, Reloc.apply, address_withoutFast]

end WithoutFast

section OneSection
variable {place : Addr → Allocated} {elf : ELFFile} {sections : Sections} {s : ELFSection}

theorem relocateSection_ordinary {rels : List Reloc} (hnone : s.fastRel = none)
    (hread : relocsOf elf s = some rels) (hdata : rels ≠ [] → s.data ≠ 0) {l : Loaded}
    (hplaced : l.trampolines.Placed place) (cache : AddressCache elf sections) :
    Applied place (rels.foldl (Reloc.apply place elf sections s.data) l.memory)
      (rels.all (Reloc.fine elf sections))
      ((relocateSection place elf sections s l cache).1,
        (relocateSection place elf sections s l cache).2.1) := by
  rw [relocateSection, hnone]
  dsimp only
  split
  case isTrue hcount =>
    refine relocate_spec hread (hdata ?_) hplaced cache
    rintro rfl
    -- a list of relocations that is not empty
    obtain ⟨n, hn⟩ := Nat.exists_eq_succ_of_ne_zero hcount
    rw [relocsOf, hn] at hread
    obtain ⟨_, _, _, -, -, -, hcons⟩ := relocsFrom_succ hread
    exact cons_ne_nil _ _ hcons.symm
  case isFalse hcount =>
    rw [relocsOf, not_not.mp hcount] at hread
    obtain rfl := Option.some.inj hread
    exact ⟨rfl, rfl, hplaced⟩

theorem relocateSection_withoutFast (hlists : Lists elf s) (hsound : Sound elf sections s)
    {l : Loaded} (hplaced : l.trampolines.Placed place)
    (cache : AddressCache elf (withoutFast sections)) :
    Applied place (applySection place elf sections l.memory s)
      ((relocs elf s).all (Reloc.fine elf sections))
      ((relocateSection place elf (withoutFast sections) s.withoutFast l cache).1,
        (relocateSection place elf (withoutFast sections) s.withoutFast l cache).2.1) := by
  have hread : relocsOf elf s.withoutFast = some (relocs elf s) :=
    relocsOf_withoutFast.trans hlists.readable
  obtain ⟨hresult, hmemory, hlast⟩ :=
    relocateSection_ordinary rfl hread hsound.loaded hplaced cache
  refine ⟨hresult.trans ?_, hmemory.trans ?_, hlast⟩
  · exact all_congr rfl fun r => fine_withoutFast r
  · exact foldl_ext _ _ _ fun m r _ => apply_withoutFast place s.data m r

theorem relocateSection_records {rel : Nat → BitVec 8} (hrel : s.fastRel = some rel)
    (hversion : rel 0 = 1) {l : Loaded} (hplaced : l.trampolines.Placed place)
    (cache : AddressCache elf sections) :
    Applied place ((fastRelocsOf rel).foldl (Reloc.applyFast place elf sections s.data) l.memory)
      ((fastRecordsOf rel).all fun r => r.target.fastAddress elf sections ≠ invalidAddress)
      ((relocateSection place elf sections s l cache).1,
        (relocateSection place elf sections s l cache).2.1) := by
  rw [relocateSection, hrel]
  dsimp only
  rw [relocateFast, if_neg (not_not_intro hversion)]
  exact fastRecords_spec _ _ true hplaced

theorem Target.fastAddress_known {target : Target} (h : target.Known sections) :
    target.fastAddress elf sections = target.address elf sections := by
  cases target with
  | imported => rfl
  | «section» index value =>
    obtain ⟨data, hdata⟩ := Option.ne_none_iff_exists'.mp h
    rw [Target.fastAddress, Target.address, hdata]
    rfl

theorem all_records {rel : Nat → BitVec 8} (hlists : Lists elf s) (hrel : s.fastRel = some rel)
    (p : Target → Bool) :
    (fastRecordsOf rel).all (fun r => p r.target) = (relocs elf s).all fun r => p r.target := by
  rw [Bool.eq_iff_iff, all_eq_true, all_eq_true]
  constructor
  · intro h r hr
    have hfast := (hlists.same rel hrel).symm.subset hr
    obtain ⟨record, hrecord, hmem⟩ := mem_flatMap.mp hfast
    obtain ⟨offset, -, rfl⟩ := mem_map.mp hmem
    exact h record hrecord
  · intro h record hrecord
    obtain ⟨offset, hoffset⟩ := exists_mem_of_ne_nil _ (hlists.records rel hrel record hrecord)
    have hmem : ⟨record.type, record.target, offset⟩ ∈ fastRelocsOf rel :=
      mem_flatMap_of_mem hrecord (mem_map_of_mem hoffset)
    exact h _ ((hlists.same rel hrel).subset hmem)

theorem fine_eq (hsound : Sound elf sections s) {r : Reloc} (hr : r ∈ relocs elf s) :
    r.fine elf sections = decide (r.target.fastAddress elf sections ≠ invalidAddress) := by
  rw [Reloc.fine, hsound.supported r hr, Bool.and_true,
    Target.fastAddress_known (hsound.known r hr)]

theorem foldl_fastRelocs {rel : Nat → BitVec 8} (hlists : Lists elf s)
    (hrel : s.fastRel = some rel) (hsound : Sound elf sections s) (horder : OrderFree elf s)
    (m : Memory) :
    (fastRelocsOf rel).foldl (Reloc.applyFast place elf sections s.data) m =
      applySection place elf sections m s := by
  have hsame := hlists.same rel hrel
  have hfast : (fastRelocsOf rel).foldl (Reloc.applyFast place elf sections s.data) m =
      (fastRelocsOf rel).foldl (Reloc.apply place elf sections s.data) m := by
    refine foldl_ext _ _ _ fun m r hr => ?_
    rw [Reloc.applyFast, Target.fastAddress_known (hsound.known r (hsame.subset hr)), Reloc.apply]
  rw [hfast, applySection]
  obtain heq | hapart := horder rel hrel
  · rw [heq]
  · refine (LocalUpdate.foldl_perm (fun r : Reloc => ?_) hsame.symm hapart m).symm
    exact Reloc.apply_local place elf sections s.data r

theorem relocateSection_fast (hlists : Lists elf s) (hsound : Sound elf sections s)
    (horder : OrderFree elf s) {l : Loaded} (hplaced : l.trampolines.Placed place)
    (cache : AddressCache elf sections) :
    Applied place (applySection place elf sections l.memory s)
      ((relocs elf s).all (Reloc.fine elf sections))
      ((relocateSection place elf sections s l cache).1,
        (relocateSection place elf sections s l cache).2.1) := by
  cases hrel : s.fastRel with
  | none => exact relocateSection_ordinary hrel hlists.readable hsound.loaded hplaced cache
  | some rel =>
    obtain ⟨hresult, hmemory, hlast⟩ :=
      relocateSection_records hrel (hlists.version rel hrel) hplaced cache
    refine ⟨hresult.trans ?_, hmemory.trans ?_, hlast⟩
    · refine (all_records hlists hrel fun target =>
        target.fastAddress elf sections ≠ invalidAddress).trans (Bool.eq_iff_iff.mpr ?_)
      rw [all_eq_true, all_eq_true]
      exact forall₂_congr fun r hr => by rw [fine_eq hsound hr]
    · exact foldl_fastRelocs hlists hrel hsound horder l.memory

end OneSection

section AllSections
variable {place : Addr → Allocated} {elf : ELFFile} {sections : Sections}

theorem relocateSections_spec {f : Memory → ELFSection → Memory} {ok : ELFSection → Bool}
    {rest : Sections} (hrest : ∀ s ∈ rest, ∀ (l : Loaded) (cache : AddressCache elf sections),
      l.trampolines.Placed place → Applied place (f l.memory s.2) (ok s.2)
        ((relocateSection place elf sections s.2 l cache).1,
          (relocateSection place elf sections s.2 l cache).2.1))
    (status : ELFFileLoadStatus) (l : Loaded) (cache : AddressCache elf sections)
    (hplaced : l.trampolines.Placed place) :
    (relocateSections place elf sections rest status l cache).1 =
        (if rest.all (fun s => ok s.2) then status else .missingImports) ∧
      (relocateSections place elf sections rest status l cache).2.memory =
        rest.foldl (fun m s => f m s.2) l.memory := by
  induction rest generalizing status l cache with
  | nil => exact ⟨rfl, rfl⟩
  | cons s rest ih =>
    obtain ⟨hresult, hmemory, hplaced'⟩ := hrest s mem_cons_self l cache hplaced
    dsimp only at hresult hmemory
    have hgo := ih (fun s hs => hrest s (mem_cons_of_mem _ hs))
      (if ok s.2 then status else .missingImports)
      (relocateSection place elf sections s.2 l cache).2.1
      (relocateSection place elf sections s.2 l cache).2.2 hplaced'
    rw [relocateSections, all_cons, foldl_cons, ← hmemory, hresult]
    refine ⟨hgo.1.trans ?_, hgo.2⟩
    cases ok s.2
    · exact ite_self _
    · rfl

/-- Where the code is. -/
def textData (sections : Sections) : Option Addr :=
  (sections.lookup (ascii ".text")).map ELFSection.data

theorem textData_withoutFast : textData (withoutFast sections) = textData sections := by
  rw [textData, lookup_withoutFast, Option.map_map]
  rfl

def loadStatus (ok : Bool) (text : Option Addr) : ELFFileLoadStatus :=
  if ok then if text.isSome then .success else .unspecifiedError else .missingImports

theorem loadStatus_success {ok : Bool} {text : Option Addr} (h : loadStatus ok text = .success) :
    ok = true := by
  cases ok
  · contradiction
  · rfl

theorem elfFileLoadSections_spec {f : Memory → ELFSection → Memory} {ok : ELFSection → Bool}
    (hall : ∀ s ∈ sections, ∀ (l : Loaded) (cache : AddressCache elf sections),
      l.trampolines.Placed place → Applied place (f l.memory s.2) (ok s.2)
        ((relocateSection place elf sections s.2 l cache).1,
          (relocateSection place elf sections s.2 l cache).2.1))
    (entry : Addr) (m : Memory) :
    (elfFileLoadSections place elf sections entry ⟨m, .none⟩).status =
        loadStatus (sections.all fun s => ok s.2) (textData sections) ∧
      (elfFileLoadSections place elf sections entry ⟨m, .none⟩).entry =
        (if sections.all fun s => ok s.2 then entry + (textData sections).getD 0 else entry) ∧
      (elfFileLoadSections place elf sections entry ⟨m, .none⟩).loaded.memory =
        sections.foldl (fun m s => f m s.2) m := by
  obtain ⟨hstatus, hmemory⟩ := relocateSections_spec hall .success ⟨m, .none⟩
    ⟨[], fun _ h => absurd h not_mem_nil⟩ none_placed
  rw [elfFileLoadSections, hstatus, loadStatus, textData]
  cases sections.all fun s => ok s.2
  · exact ⟨rfl, rfl, hmemory⟩
  · cases sections.lookup (ascii ".text") with
    | none => exact ⟨rfl, (BitVec.add_zero _).symm, hmemory⟩
    | some text => exact ⟨rfl, rfl, hmemory⟩

theorem loadedRight_of_sound (entry : Addr) (m : Memory) (hlists : ∀ s ∈ sections, Lists elf s.2)
    (hsound : ∀ s ∈ sections, Sound elf sections s.2 ∧ OrderFree elf s.2) :
    LoadedRight place elf sections m (elfFileLoadSections place elf sections entry ⟨m, .none⟩)
      (elfFileLoadSections place elf (withoutFast sections) entry ⟨m, .none⟩) := by
  obtain ⟨hfastStatus, hfastEntry, hfastMemory⟩ :=
    @elfFileLoadSections_spec place elf sections (applySection place elf sections)
      (fun s => (relocs elf s).all (Reloc.fine elf sections))
      (fun s hs l cache hplaced => relocateSection_fast (hlists s hs) (hsound s hs).1
        (hsound s hs).2 hplaced cache) entry m
  have hslow : ∀ s ∈ withoutFast sections,
      ∀ (l : Loaded) (cache : AddressCache elf (withoutFast sections)),
      l.trampolines.Placed place → Applied place (applySection place elf sections l.memory s.2)
        ((relocs elf s.2).all (Reloc.fine elf sections))
        ((relocateSection place elf (withoutFast sections) s.2 l cache).1,
          (relocateSection place elf (withoutFast sections) s.2 l cache).2.1) := by
    intro s' hs' l cache hplaced
    obtain ⟨s, hs, rfl⟩ := mem_map.mp hs'
    dsimp only
    rw [relocs_withoutFast, applySection_withoutFast]
    exact relocateSection_withoutFast (hlists s hs) (hsound s hs).1 hplaced cache
  obtain ⟨hslowStatus, hslowEntry, hslowMemory⟩ :=
    @elfFileLoadSections_spec place elf (withoutFast sections) (applySection place elf sections)
      (fun s => (relocs elf s).all (Reloc.fine elf sections)) hslow entry m
  have hall : (withoutFast sections).all (fun s =>
        (relocs elf s.2).all (Reloc.fine elf sections)) =
      sections.all fun s => (relocs elf s.2).all (Reloc.fine elf sections) := by
    rw [withoutFast, all_map]
    simp only [Function.comp_def, relocs_withoutFast]
  rw [hall, textData_withoutFast] at hslowStatus hslowEntry
  rw [withoutFast, foldl_map] at hslowMemory
  simp only [applySection_withoutFast] at hslowMemory
  refine ⟨hfastStatus.trans hslowStatus.symm, hfastEntry.trans hslowEntry.symm,
    hfastMemory.trans hslowMemory.symm, fun hsuccess => ?_⟩
  refine ⟨fun s hs => (hsound s hs).1.loaded, fun s hs r hr => ?_, hfastMemory⟩
  have hfine := loadStatus_success (hfastStatus.symm.trans hsuccess)
  exact all_eq_true.mp (all_eq_true.mp hfine s hs) r hr

def recordSection (place : Addr → Allocated) (elf : ELFFile) (sections : Sections) (m : Memory)
    (s : ELFSection) : Memory :=
  ((s.fastRel.map fastRelocsOf).getD []).foldl (Reloc.applyFast place elf sections s.data) m

theorem relocateSection_recordSection {s : ELFSection} (hlists : Lists elf s) {l : Loaded}
    (hplaced : l.trampolines.Placed place) (cache : AddressCache elf sections) :
    Applied place (recordSection place elf sections l.memory s)
      ((relocs elf s).all fun r => r.target.fastAddress elf sections ≠ invalidAddress)
      ((relocateSection place elf sections s l cache).1,
        (relocateSection place elf sections s l cache).2.1) := by
  rw [recordSection]
  cases hrel : s.fastRel with
  | none =>
    have hcount := hlists.without hrel
    have hempty : relocs elf s = [] := by
      rw [relocs, relocsOf, hcount, relocsFrom, Option.getD_some]
    rw [relocateSection, hrel, hempty]
    dsimp only
    rw [if_neg (not_not_intro hcount)]
    exact ⟨rfl, rfl, hplaced⟩
  | some rel =>
    obtain ⟨hresult, hmemory, hlast⟩ :=
      relocateSection_records hrel (hlists.version rel hrel) hplaced cache
    exact ⟨hresult.trans (all_records hlists hrel fun target =>
      target.fastAddress elf sections ≠ invalidAddress), hmemory, hlast⟩

theorem status_of_elseResolved (entry : Addr) (m : Memory)
    (hlists : ∀ s ∈ sections, Lists elf s.2) (helse : ElseResolved elf sections) :
    (elfFileLoadSections place elf sections entry ⟨m, .none⟩).status = .success := by
  obtain ⟨hstatus, -, -⟩ :=
    @elfFileLoadSections_spec place elf sections (recordSection place elf sections)
      (fun s => (relocs elf s).all fun r => r.target.fastAddress elf sections ≠ invalidAddress)
      (fun s hs l cache hplaced => relocateSection_recordSection (hlists s hs) hplaced cache)
      entry m
  have hall : (sections.all fun s => (relocs elf s.2).all
      fun r => r.target.fastAddress elf sections ≠ invalidAddress) = true := by
    refine all_eq_true.mpr fun s hs => all_eq_true.mpr fun r hr => decide_eq_true ?_
    cases htarget : r.target with
    | imported hash => exact helse.imported s hs r hr hash htarget
    | «section» index value =>
      rw [Target.fastAddress]
      cases hdata : dataOf sections index with
      | none => exact show (0 : Addr) ≠ invalidAddress by decide
      | some data => exact helse.placed s hs r hr index value data htarget hdata
  obtain ⟨text, htext⟩ := Option.ne_none_iff_exists'.mp helse.text
  rw [hstatus, hall, textData, htext]
  rfl

theorem sound_of_loadedRight {entry : Addr} {m : Memory} {slow : LoadResult}
    (hlists : ∀ s ∈ sections, Lists elf s.2) (helse : ElseResolved elf sections)
    (hright : LoadedRight place elf sections m
      (elfFileLoadSections place elf sections entry ⟨m, .none⟩) slow) :
    ∀ s ∈ sections, Sound elf sections s.2 := by
  obtain ⟨hloaded, hfine, -⟩ := hright.applied (status_of_elseResolved entry m hlists helse)
  refine fun s hs => ⟨hloaded s hs, fun r hr => ?_, fun r hr => ?_⟩
  · obtain ⟨haddr, -⟩ := Bool.and_eq_true_iff.mp (hfine s hs r hr)
    cases htarget : r.target with
    | imported => trivial
    | «section» index value =>
      -- without such a section there is no address
      intro hnone
      rw [htarget, Target.address, hnone] at haddr
      exact of_decide_eq_true haddr rfl
  · exact (Bool.and_eq_true_iff.mp (hfine s hs r hr)).2

end AllSections

theorem Lists.of_fastRel {elf : ELFFile} {s : ELFSection} {rel : Nat → BitVec 8} {rs : List Reloc}
    {rss : List (List Reloc)} (hrel : s.fastRel = some rel) (hversion : rel 0 = 1)
    (hrelocs : relocsOf elf s = some rs) (hfast : (fastRecordsOf rel).map FastRecord.relocs = rss)
    (hrecords : [] ∉ rss) (hsame : rss.flatten.Perm rs) : Lists elf s := by
  have hrs : relocs elf s = rs := by
    rw [relocs, hrelocs]
    rfl
  refine ⟨hrs ▸ hrelocs, fun hnone => absurd (hrel.symm.trans hnone) (Option.some_ne_none _),
    fun rel' hrel' => ?_, fun rel' hrel' => ?_, fun rel' hrel' => ?_⟩
  all_goals obtain rfl := Option.some.inj (hrel.symm.trans hrel')
  · exact hversion
  · intro r hr hempty
    refine hrecords (hfast ▸ mem_map.mpr ⟨r, hr, ?_⟩)
    rw [FastRecord.relocs, hempty]
    rfl
  · rw [fastRelocsOf, flatMap_def, hfast, hrs]
    exact hsame

/-- Loading through the records is loading through the ordinary list, and fails when a relocation can
not be resolved, if every relocation is sound; and only then, if nothing else fails. -/
theorem elfFileLoadSections_fast (place : Addr → Allocated) (elf : ELFFile) (sections : Sections)
    (entry : Addr) (m : Memory) (hlists : ∀ s ∈ sections, Lists elf s.2) :
    ((∀ s ∈ sections, Sound elf sections s.2 ∧ OrderFree elf s.2) →
      LoadedRight place elf sections m (elfFileLoadSections place elf sections entry ⟨m, .none⟩)
        (elfFileLoadSections place elf (withoutFast sections) entry ⟨m, .none⟩)) ∧
    (ElseResolved elf sections →
      LoadedRight place elf sections m (elfFileLoadSections place elf sections entry ⟨m, .none⟩)
        (elfFileLoadSections place elf (withoutFast sections) entry ⟨m, .none⟩) →
      ∀ s ∈ sections, Sound elf sections s.2) :=
  ⟨loadedRight_of_sound entry m hlists, sound_of_loadedRight hlists⟩

/-- Two relocations, a symbol in the first section and the name of it. -/
def twoElf : ELFFile where
  fd := [4, 0, 0, 0, 2, 0, 0, 0, 8, 0, 0, 0, 3, 0, 0, 0] ++
    [1, 0, 0, 0, 8, 0, 0, 0, 0, 0, 0, 0, 0, 0, 1, 0] ++ [0, 0x73, 0]
  sectionTable := 0
  sectionTableStrings := 0
  symbolTable := 16
  symbolTableStrings := 32
  resolverCallback _ := none

/-- The same two, in the other order. -/
def twoFastRel (i : Nat) : BitVec 8 :=
  [1, 2, 0, 0, 0, 0x83, 1, 0, 0, 0, 8, 0, 0, 0, 1, 0, 0, 0, 8, 0, 0,
    0x82, 1, 0, 0, 0, 8, 0, 0, 0, 1, 0, 0, 0, 4, 0, 0].getD i 0

def twoSections : Sections := [(ascii ".text", ⟨0x20000000, 2, 0, some twoFastRel, 1⟩)]

theorem elfFileLoadSections_fast_reordered : (∀ s ∈ twoSections, Lists twoElf s.2) ∧
      LoadedRight (fun _ => ⟨0, rfl⟩) twoElf twoSections (fun _ => 0)
        (elfFileLoadSections (fun _ => ⟨0, rfl⟩) twoElf twoSections 0 ⟨fun _ => 0, .none⟩)
        (elfFileLoadSections (fun _ => ⟨0, rfl⟩) twoElf (withoutFast twoSections) 0
          ⟨fun _ => 0, .none⟩) := by
  have hrelocs : relocsOf twoElf ⟨0x20000000, 2, 0, some twoFastRel, 1⟩ =
      some [⟨2, .section 1 8, 4⟩, ⟨3, .section 1 8, 8⟩] := by decide
  have hlists : ∀ s ∈ twoSections, Lists twoElf s.2 := by
    intro s hs
    obtain rfl := mem_singleton.mp hs
    have hfast : (fastRecordsOf twoFastRel).map FastRecord.relocs =
        [[⟨3, .section 1 8, 8⟩], [⟨2, .section 1 8, 4⟩]] := by decide
    exact .of_fastRel rfl rfl hrelocs hfast (by decide) (.swap _ _ _)
  refine ⟨hlists, (elfFileLoadSections_fast (fun _ => ⟨0, rfl⟩) twoElf twoSections 0
    (fun _ => 0) hlists).1 fun s hs => ?_⟩
  obtain rfl := mem_singleton.mp hs
  have hrelocs' : relocs twoElf ⟨0x20000000, 2, 0, some twoFastRel, 1⟩ =
      [⟨2, .section 1 8, 4⟩, ⟨3, .section 1 8, 8⟩] := congrArg (·.getD []) hrelocs
  refine ⟨⟨fun _ => by decide, ?_, ?_⟩, fun rel hrel => .inr ?_⟩
  · rw [hrelocs']
    intro r hr
    have hknown : dataOf twoSections 1 ≠ none := by decide
    obtain rfl | hr := mem_cons.mp hr
    · exact hknown
    · obtain rfl := mem_singleton.mp hr
      exact hknown
  · rw [hrelocs']
    decide
  · rw [hrelocs', pairwise_pair, Set.disjoint_left]
    rintro b (rfl | rfl | rfl | rfl) (h | h | h | h) <;> exact absurd h (by decide)

/-- A relocation of a type, a symbol in the first section and the name of it. -/
def smallFd (type : UInt8) : Bytes :=
  [4, 0, 0, 0, type, 0, 0, 0] ++ [1, 0, 0, 0, 8, 0, 0, 0, 0, 0, 0, 0, 0, 0, 1, 0] ++ [0, 0x73, 0]

def smallElf (type : UInt8) : ELFFile := ⟨smallFd type, 0, 0, 8, 24, fun _ => none⟩

def smallFastRel (type : BitVec 8) (i : Nat) : BitVec 8 :=
  [1, 1, 0, 0, 0, 0x80 ||| type, 1, 0, 0, 0, 8, 0, 0, 0, 1, 0, 0, 0, 4, 0, 0].getD i 0

def smallSections (type : BitVec 8) : Sections :=
  [(ascii ".text", ⟨0x20000000, 1, 0, some (smallFastRel type), 1⟩)]

/-- A relocation of a type that is not applied is an error in the ordinary list only. -/
theorem smallSections_pc24 : (∀ s ∈ smallSections 1, Lists (smallElf 1) s.2) ∧
      (elfFileLoadSections (fun _ => ⟨0, rfl⟩) (smallElf 1) (smallSections 1) 0
        ⟨fun _ => 0, .none⟩).status = .success ∧
      (elfFileLoadSections (fun _ => ⟨0, rfl⟩) (smallElf 1) (withoutFast (smallSections 1)) 0
        ⟨fun _ => 0, .none⟩).status = .missingImports := by
  have hfast : (fastRecordsOf (smallFastRel 1)).map FastRecord.relocs =
      [[⟨1, .section 1 8, 4⟩]] := by decide
  have hrelocs : relocsOf (smallElf 1) ⟨0x20000000, 1, 0, some (smallFastRel 1), 1⟩ =
      some [⟨1, .section 1 8, 4⟩] := by decide
  refine ⟨fun s hs => ?_, by decide, by decide⟩
  obtain rfl := mem_singleton.mp hs
  exact .of_fastRel rfl rfl hrelocs hfast (by decide) (.refl _)

end NikitaFirmware.Elf
