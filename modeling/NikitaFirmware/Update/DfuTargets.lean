import NikitaFirmware.Update.DfuElements

/-!
# The elements of an image

The targets of a firmware image and their elements, as the file holds them, and what
`dfu_file_process_targets` does with them.
-/

namespace NikitaFirmware.Update

open Foundations List

/-- An element, with what the file holds of its data. -/
structure Element where
  header : ImageElementHeader
  data : Bytes

namespace Element

section Definitions
variable (task : DfuUpdateTask) (e : Element) (made : List PageCall)

def start : Nat := e.header.dwElementAddress.toNat

def size : Nat := e.header.dwElementSize.toNat

/-- Both ends of the element pass the address check. -/
def Taken : Prop :=
  task.accepts e.header.dwElementAddress = true ∧
    task.accepts (e.header.dwElementAddress + e.header.dwElementSize) = true

instance : Decidable (e.Taken task) := inferInstanceAs (Decidable (_ ∧ _))

def pages : List PageCall := pagesFrom ((e.start - flashBase) / flashPageSize) e.data

def calls : List PageCall := if e.Taken task then e.pages else []

/-- The element is not refused, when it comes after the calls that were made. -/
structure Passes : Prop where
  aligned : e.start % 4096 = 0
  complete : e.Taken task → e.data.length = e.size
  inside : e.Taken task → 0 < e.size →
    flashBase ≤ e.start ∧ e.start + e.size ≤ flashEnd + flashPageSize
  agrees : e.Taken task → task.Agrees made e.pages

/-- No address of the element passes the check. -/
def Outside : Prop :=
  ∀ i < e.size, task.accepts (e.header.dwElementAddress + UInt32.ofNat i) = false

/-- The element is passed on completely, each byte once and in order, a page at most in each call
and each call with the page that its bytes begin. -/
structure Delivered (calls : List PageCall) : Prop where
  bytes : callBytes calls = e.data
  complete : e.data.length = e.size
  starts : ∀ pre call post, calls = pre ++ call :: post →
    flashPageAddress call.iPage = e.start + (callBytes pre).length
  short : ∀ call ∈ calls, call.updateBlock.length ≤ flashPageSize

end Definitions

variable {task : DfuUpdateTask} {e : Element} {made : List PageCall}

theorem calls_of_taken (h : e.Taken task) : e.calls task = e.pages := if_pos h

theorem calls_of_not_taken (h : ¬ e.Taken task) : e.calls task = [] := if_neg h

theorem Passes.agrees_calls (h : e.Passes task made) : task.Agrees made (e.calls task) := by
  by_cases htaken : e.Taken task
  · rw [calls_of_taken htaken]
    exact h.agrees htaken
  · rw [calls_of_not_taken htaken]
    trivial

theorem canGoOn_iff : CanGoOn task e.header 0 e.data made ↔ e.data.length = e.size ∧
      (0 < e.size → flashBase ≤ e.start ∧ e.start + e.size ≤ flashEnd + flashPageSize) ∧
      task.Agrees made e.pages :=
  ⟨fun h => ⟨h.complete, h.inside, h.agrees⟩, fun h => ⟨h.1, h.2.1, h.2.2⟩⟩

theorem delivered_pages (haligned : e.start % 4096 = 0) (hcomplete : e.data.length = e.size)
    (hinside : 0 < e.size → flashBase ≤ e.start ∧ e.start + e.size ≤ flashEnd) :
    e.Delivered e.pages where
  bytes := callBytes_pagesFrom _ _
  complete := hcomplete
  starts pre call post h := by
    have hconstants := flash_constants
    have hne : e.data ≠ [] := by
      intro hnil
      rw [pages, hnil, pagesFrom_nil] at h
      exact append_ne_nil_of_right_ne_nil _ (cons_ne_nil _ _) h.symm
    have hpos := length_pos_iff.mpr hne
    obtain ⟨hstart, hend⟩ := hinside (by omega)
    have hpage : 4096 * ((e.start - flashBase) / flashPageSize) = e.start - flashBase := by
      rw [hconstants.1]
      omega
    have hcall := pagesFrom_starts h (by omega)
    rw [flashPageAddress, hconstants.1, hcall, hpage]
    omega
  short _ h := length_pagesFrom_le h

theorem Delivered.inside {calls : List PageCall} (h : e.Delivered calls) (hpos : 0 < e.size) :
    flashBase ≤ e.start ∧ e.start + e.size ≤ flashEnd := by
  have hconstants := flash_constants
  have hlength := congrArg List.length h.bytes
  rw [h.complete] at hlength
  cases calls using List.reverseRecOn with
  | nil => exact absurd hlength (Nat.ne_of_lt hpos)
  | append_singleton pre last _ =>
    have hlast := h.starts pre last [] rfl
    have hshort := h.short last (mem_append_right _ (mem_singleton_self last))
    have hbyte := last.iPage.toNat_lt
    rw [callBytes_append, length_append, callBytes_cons, callBytes_nil, append_nil] at hlength
    rw [flashPageAddress, hconstants.1] at hlast
    refine ⟨?_, by omega⟩
    cases pre with
    | nil =>
      rw [callBytes_nil, length_nil] at hlast
      omega
    | cons first pre =>
      have hfirst := h.starts [] first (pre ++ [last]) rfl
      rw [callBytes_nil, length_nil, flashPageAddress] at hfirst
      omega

end Element

def elementAt (header : ImageElementHeader) (rest : Bytes) : Element :=
  ⟨header, rest.take header.dwElementSize.toNat⟩

theorem unaligned_iff (address : UInt32) : address &&& 4095 ≠ 0 ↔ ¬ address.toNat % 4096 = 0 := by
  have hmod : (address &&& 4095).toNat = address.toNat % 4096 := by
    rw [UInt32.toNat_and]
    exact Nat.and_two_pow_sub_one_eq_mod address.toNat 12
  rw [Ne, ← UInt32.toNat_inj, hmod]
  rfl

theorem performTaskForUpdatePages_spec (task : DfuUpdateTask) (header : ImageElementHeader)
    (w : Work) :
    ((performTaskForUpdatePages task header w).1 = .failed ↔
      ¬ (elementAt header w.file.after).Passes task w.calls) ∧
    ((elementAt header w.file.after).Passes task w.calls →
      (performTaskForUpdatePages task header w).2.file.after =
          w.file.after.drop header.dwElementSize.toNat ∧
        (performTaskForUpdatePages task header w).2.calls =
          w.calls ++ (elementAt header w.file.after).calls task) := by
  rw [performTaskForUpdatePages]
  split
  case isTrue hunaligned =>
    have hrefused : ¬ (elementAt header w.file.after).Passes task w.calls :=
      fun h => (unaligned_iff _).mp hunaligned h.aligned
    exact ⟨iff_of_true rfl hrefused, fun h => absurd h hrefused⟩
  case isFalse haligned =>
    rw [unaligned_iff, not_not] at haligned
    split
    case isTrue hends =>
      have hnot : ¬ (elementAt header w.file.after).Taken task := by
        rintro ⟨hstart, hend⟩
        change task.accepts header.dwElementAddress = true at hstart
        change task.accepts (header.dwElementAddress + header.dwElementSize) = true at hend
        rw [hstart, hend] at hends
        exact Bool.false_ne_true hends
      have hpasses : (elementAt header w.file.after).Passes task w.calls :=
        ⟨haligned, fun h => absurd h hnot, fun h => absurd h hnot, fun h => absurd h hnot⟩
      refine ⟨iff_of_false (fun h => DfuUpdateBlockResult.noConfusion h) (not_not_intro hpasses),
        fun _ => ⟨rfl, ?_⟩⟩
      rw [Element.calls_of_not_taken hnot, append_nil]
    case isFalse hends =>
      have htaken : (elementAt header w.file.after).Taken task := by
        rwa [← Bool.not_and, Bool.not_eq_true', Bool.not_eq_false, Bool.and_eq_true] at hends
      have hpage : AtPage header 0 := ⟨Nat.zero_le _, fun _ => haligned, Or.inl rfl⟩
      obtain ⟨hiff, hdone⟩ := @updatePages_spec task header 0 w hpage
      have hgo : CanGoOn task header 0 (restOf header 0 w) w.calls ↔
          (elementAt header w.file.after).Passes task w.calls := by
        refine (@Element.canGoOn_iff task (elementAt header w.file.after) w.calls).trans ⟨?_, ?_⟩
        · exact fun h => ⟨haligned, fun _ => h.1, fun _ => h.2.1, fun _ => h.2.2⟩
        · exact fun h => ⟨h.complete htaken, h.inside htaken, h.agrees htaken⟩
      rw [hgo] at hiff
      rw [Element.calls_of_taken htaken]
      refine ⟨?_, fun h => hdone (hiff.mpr h)⟩
      rw [← hiff]
      dsimp only
      split
      case isTrue h =>
        exact iff_of_false (fun h => DfuUpdateBlockResult.noConfusion h) (not_not_intro h)
      case isFalse h => exact iff_of_true rfl h

/-- The elements of a target that are there with their headers, and what is left behind them unless
a header is cut off. -/
def elementsIn : Nat → Bytes → List Element × Option Bytes
  | 0, rest => ([], some rest)
  | n + 1, rest =>
    if rest.length < imageElementHeaderSize then ([], none)
    else
      let header := imageElementHeader (rest.take imageElementHeaderSize)
      let e := elementAt header (rest.drop imageElementHeaderSize)
      let r := elementsIn n ((rest.drop imageElementHeaderSize).drop header.dwElementSize.toNat)
      (e :: r.1, r.2)

/-- The elements of all targets that are there with their headers, and whether every header is
there. -/
def targetsIn : Nat → Bytes → List Element × Bool
  | 0, _ => ([], true)
  | n + 1, rest =>
    if rest.length < targetPrefixSize then ([], false)
    else
      let e := elementsIn (dwNbElements (rest.take targetPrefixSize)).toNat
        (rest.drop targetPrefixSize)
      match e.2 with
      | none => (e.1, false)
      | some rest => (e.1 ++ (targetsIn n rest).1, (targetsIn n rest).2)

def elementsOf (content : Bytes) (nTargets : UInt8) : List Element :=
  (targetsIn nTargets.toNat (content.drop dfuPrefixSize)).1

/-- Every target and element header is in the file in full. -/
def Whole (content : Bytes) (nTargets : UInt8) : Prop :=
  (targetsIn nTargets.toNat (content.drop dfuPrefixSize)).2 = true

def AllPass (task : DfuUpdateTask) : List PageCall → List Element → Prop
  | _, [] => True
  | made, e :: es => e.Passes task made ∧ AllPass task (made ++ e.calls task) es

def callsOf (task : DfuUpdateTask) (es : List Element) : List PageCall := es.flatMap (·.calls task)

section Runs
variable {task : DfuUpdateTask}

theorem AllPass.append_iff {made : List PageCall} {es es' : List Element} :
    AllPass task made (es ++ es') ↔
      AllPass task made es ∧ AllPass task (made ++ callsOf task es) es' := by
  induction es generalizing made with
  | nil => simp [AllPass, callsOf]
  | cons e es ih => simp [AllPass, callsOf, ih, and_assoc]

theorem elementsIn_cut {n : Nat} {rest : Bytes} (h : rest.length < imageElementHeaderSize) :
    elementsIn (n + 1) rest = ([], none) := if_pos h

theorem elementsIn_cons {n : Nat} {rest : Bytes} (h : ¬ rest.length < imageElementHeaderSize) :
    elementsIn (n + 1) rest = (elementAt (imageElementHeader (rest.take imageElementHeaderSize))
          (rest.drop imageElementHeaderSize) ::
        (elementsIn n ((rest.drop imageElementHeaderSize).drop
          (imageElementHeader (rest.take imageElementHeaderSize)).dwElementSize.toNat)).1,
        (elementsIn n ((rest.drop imageElementHeaderSize).drop
          (imageElementHeader (rest.take imageElementHeaderSize)).dwElementSize.toNat)).2) :=
  if_neg h

theorem length_header_ne_iff {size : Nat} {file : File} :
    (storageFileRead size file).1.length ≠ size ↔ file.after.length < size := by
  rw [storageFileRead_fst, length_take]
  omega

/-- What is done with the elements of a target: the first one that is refused ends it, and otherwise
the first header that is cut off. -/
structure ElementsDone (task : DfuUpdateTask) (w : Work) (es : List Element × Option Bytes)
    (r : Option Bool × Work) : Prop where
  refused : ¬ AllPass task w.calls es.1 → r.1 = some false
  cut : AllPass task w.calls es.1 → es.2 = none → r.1 = some true
  done : ∀ rest, AllPass task w.calls es.1 → es.2 = some rest →
    r.1 = none ∧ r.2.file.after = rest ∧ r.2.calls = w.calls ++ callsOf task es.1

theorem processElements_spec (n : Nat) (w : Work) :
    ElementsDone task w (elementsIn n w.file.after) (processElements task n w) := by
  induction n generalizing w with
  | zero =>
    refine ⟨fun h => absurd trivial h, fun _ h => absurd h (Option.some_ne_none _), ?_⟩
    intro rest _ h
    exact ⟨rfl, Option.some.inj h, (append_nil _).symm⟩
  | succ n ih =>
    rw [processElements]
    dsimp only
    split
    case isTrue hcut =>
      rw [length_header_ne_iff] at hcut
      rw [elementsIn_cut hcut]
      exact ⟨fun h => absurd trivial h, fun _ _ => rfl,
        fun _ _ h => absurd h.symm (Option.some_ne_none _)⟩
    case isFalse hread =>
      rw [length_header_ne_iff] at hread
      rw [elementsIn_cons hread, storageFileRead_fst, ← storageFileRead_after]
      obtain ⟨hfail, hpass⟩ := performTaskForUpdatePages_spec task
        (imageElementHeader (w.file.after.take imageElementHeaderSize))
        ⟨(storageFileRead imageElementHeaderSize w.file).2, w.calls⟩
      generalize hu : performTaskForUpdatePages task
        (imageElementHeader (w.file.after.take imageElementHeaderSize))
        ⟨(storageFileRead imageElementHeaderSize w.file).2, w.calls⟩ = u at hfail hpass ⊢
      split
      case isTrue hfailed =>
        have hrefused := hfail.mp hfailed
        exact ⟨fun _ => rfl, fun h => absurd h.1 hrefused, fun _ h => absurd h.1 hrefused⟩
      case isFalse hok =>
        have hpasses := not_not.mp (mt hfail.mpr hok)
        obtain ⟨hfile, hcalls⟩ := hpass hpasses
        have hrest := ih u.2
        rw [hfile] at hrest
        refine ⟨fun h => hrest.refused ?_, fun h => hrest.cut ?_, fun rest h => ?_⟩
        · rw [hcalls]
          exact fun hall => h ⟨hpasses, hall⟩
        · rw [hcalls]
          exact h.2
        · intro hes
          have hdone := hrest.done rest (by rw [hcalls]; exact h.2) hes
          rw [hcalls, append_assoc] at hdone
          exact hdone

structure TargetsDone (task : DfuUpdateTask) (w : Work) (es : List Element × Bool)
    (r : Option Bool × Work) : Prop where
  refused : ¬ AllPass task w.calls es.1 → r.1 = some false
  cut : AllPass task w.calls es.1 → es.2 = false → r.1 = some true
  done : AllPass task w.calls es.1 → es.2 = true →
    r.1 = none ∧ r.2.calls = w.calls ++ callsOf task es.1

theorem targetsIn_cut {n : Nat} {rest : Bytes} (h : rest.length < targetPrefixSize) :
    targetsIn (n + 1) rest = ([], false) := if_pos h

theorem processTargetList_spec (n : Nat) (w : Work) :
    TargetsDone task w (targetsIn n w.file.after) (processTargetList task n w) := by
  induction n generalizing w with
  | zero =>
    exact ⟨fun h => absurd trivial h, fun _ h => absurd h.symm Bool.false_ne_true,
      fun _ _ => ⟨rfl, (append_nil _).symm⟩⟩
  | succ n ih =>
    rw [processTargetList]
    dsimp only
    split
    case isTrue hcut =>
      rw [length_header_ne_iff] at hcut
      rw [targetsIn_cut hcut]
      exact ⟨fun h => absurd trivial h, fun _ _ => rfl, fun _ h => absurd h Bool.false_ne_true⟩
    case isFalse hread =>
      rw [length_header_ne_iff] at hread
      have hes := @processElements_spec task
        (dwNbElements (w.file.after.take targetPrefixSize)).toNat
        ⟨(storageFileRead targetPrefixSize w.file).2, w.calls⟩
      rw [targetsIn, if_neg hread, storageFileRead_fst, ← storageFileRead_after]
      dsimp only at hes ⊢
      generalize elementsIn (dwNbElements (w.file.after.take targetPrefixSize)).toNat
        (storageFileRead targetPrefixSize w.file).2.after = es at hes ⊢
      generalize processElements task (dwNbElements (w.file.after.take targetPrefixSize)).toNat
        ⟨(storageFileRead targetPrefixSize w.file).2, w.calls⟩ = r at hes ⊢
      obtain ⟨es, behind⟩ := es
      by_cases hall : AllPass task w.calls es
      · cases behind with
        | none =>
          rw [hes.cut hall rfl]
          exact ⟨fun h => absurd hall h, fun _ _ => rfl, fun _ h => absurd h Bool.false_ne_true⟩
        | some rest =>
          obtain ⟨hnone, hfile, hcalls⟩ := hes.done rest hall rfl
          have hrest := ih r.2
          rw [hfile] at hrest
          rw [hnone]
          refine ⟨fun h => hrest.refused ?_, fun h => hrest.cut ?_, fun h hwhole => ?_⟩
          · rw [hcalls]
            exact fun hthen => h (AllPass.append_iff.mpr ⟨hall, hthen⟩)
          · rw [hcalls]
            exact (AllPass.append_iff.mp h).2
          · obtain ⟨hreturn, hmade⟩ :=
              hrest.done (by rw [hcalls]; exact (AllPass.append_iff.mp h).2) hwhole
            refine ⟨hreturn, ?_⟩
            rw [hmade, hcalls, append_assoc]
            exact congrArg _ flatMap_append.symm
      · rw [hes.refused hall]
        have hrefused : ∀ es', ¬ AllPass task w.calls (es ++ es') :=
          fun _ h => hall (AllPass.append_iff.mp h).1
        cases behind with
        | none => exact ⟨fun _ => rfl, fun h => absurd h hall, fun h => absurd h hall⟩
        | some rest =>
          exact ⟨fun _ => rfl, fun h => absurd h (hrefused _), fun h => absurd h (hrefused _)⟩

end Runs

/-- An element is treated as it has to be by some calls: it is outside, or passed on completely. -/
def Element.Treated (task : DfuUpdateTask) (e : Element) (calls : List PageCall) : Prop :=
  (e.Outside task ∧ calls = []) ∨ e.Delivered calls

/-- The whole file is processed by the calls, none of which fails. -/
structure Processed (task : DfuUpdateTask) (content : Bytes) (nTargets : UInt8)
    (calls : List PageCall) : Prop where
  whole : Whole content nTargets
  treated : ∃ parts : List (List PageCall), parts.flatten = calls ∧
    List.Forall₂ (Element.Treated task) (elementsOf content nTargets) parts
  agrees : task.Agrees [] calls

/-- An element is outside altogether if it is not taken, and does not go on behind the last page if
it is. -/
def Element.Sound (task : DfuUpdateTask) (e : Element) : Prop :=
  if e.Taken task then 0 < e.size → e.start + e.size ≤ flashEnd else e.Outside task

/-- The image is as it has to be, or an element of it is refused in its turn. -/
def ProcessedRight (task : DfuUpdateTask) (content : Bytes) (nTargets : UInt8) : Prop :=
  AllPass task [] (elementsOf content nTargets) →
    Whole content nTargets ∧ ∀ e ∈ elementsOf content nTargets, e.Sound task

section Success
variable {task : DfuUpdateTask}

variable {made : List PageCall}

theorem AllPass.agrees {es : List Element} (h : AllPass task made es) :
    task.Agrees made (callsOf task es) := by
  induction es generalizing made with
  | nil => trivial
  | cons e es ih => exact h.1.agrees_calls.append (ih h.2)

theorem AllPass.treated {es : List Element} (h : AllPass task made es)
    (hsound : ∀ e ∈ es, e.Sound task) :
    List.Forall₂ (Element.Treated task) es (es.map (Element.calls task)) := by
  induction es generalizing made with
  | nil => exact List.Forall₂.nil
  | cons e es ih =>
    refine List.Forall₂.cons ?_ (ih h.2 fun e' he' => hsound e' (mem_cons_of_mem _ he'))
    have hone := hsound e mem_cons_self
    rw [Element.Sound] at hone
    split at hone
    case isTrue htaken =>
      rw [Element.calls_of_taken htaken]
      exact Or.inr (Element.delivered_pages h.1.aligned (h.1.complete htaken)
        fun hpos => ⟨(h.1.inside htaken hpos).1, hone hpos⟩)
    case isFalse hnot => exact Or.inl ⟨hone, Element.calls_of_not_taken hnot⟩

theorem Element.Treated.sound {e : Element} {made calls : List PageCall} (h : e.Treated task calls)
    (hpasses : e.Passes task made) :
    (callBytes (e.calls task)).length ≤ (callBytes calls).length ∧
      ((callBytes (e.calls task)).length = (callBytes calls).length → e.Sound task) := by
  rw [Element.Sound]
  by_cases htaken : e.Taken task
  · rw [Element.calls_of_taken htaken, if_pos htaken, Element.pages, callBytes_pagesFrom,
      hpasses.complete htaken]
    rcases Nat.eq_zero_or_pos e.size with hzero | hpos
    · exact ⟨hzero ▸ Nat.zero_le _, fun _ h => absurd h (hzero ▸ Nat.lt_irrefl 0)⟩
    · rcases h with ⟨houtside, -⟩ | hdelivered
      · have hstart := houtside 0 hpos
        rw [show UInt32.ofNat 0 = 0 from rfl, UInt32.add_zero, htaken.1] at hstart
        exact absurd hstart.symm Bool.false_ne_true
      · rw [hdelivered.bytes, hdelivered.complete]
        exact ⟨Nat.le_refl _, fun _ _ => (hdelivered.inside hpos).2⟩
  · rw [Element.calls_of_not_taken htaken, if_neg htaken]
    refine ⟨Nat.zero_le _, fun hnothing => ?_⟩
    rcases h with ⟨houtside, -⟩ | hdelivered
    · exact houtside
    · rw [hdelivered.bytes, hdelivered.complete] at hnothing
      intro i hi
      exact absurd hi (hnothing ▸ Nat.not_lt_zero i)

theorem AllPass.sound {es : List Element} {parts : List (List PageCall)}
    (h : AllPass task made es) (htreated : List.Forall₂ (Element.Treated task) es parts) :
    (callBytes (callsOf task es)).length ≤ (callBytes parts.flatten).length ∧
      ((callBytes (callsOf task es)).length = (callBytes parts.flatten).length →
        ∀ e ∈ es, e.Sound task) := by
  induction htreated generalizing made with
  | nil => exact ⟨Nat.le_refl _, fun _ _ he => absurd he not_mem_nil⟩
  | @cons e part es parts hone _ ih =>
    obtain ⟨hle, hsound⟩ := hone.sound h.1
    obtain ⟨hleRest, hsoundRest⟩ := ih h.2
    rw [callsOf, flatMap_cons, ← callsOf, flatten_cons, callBytes_append,
      callBytes_append, length_append, length_append]
    refine ⟨Nat.add_le_add hle hleRest, fun heq => ?_⟩
    intro e' he'
    rcases mem_cons.mp he' with rfl | he'
    · exact hsound (by omega)
    · exact hsoundRest (by omega) e' he'

/-- Success means that the whole file is processed exactly if, unless an element is refused, every
header is there, no skipped element has an address that passes the check, and no element that is
taken goes on behind the last page. -/
theorem dfuFileProcessTargets_iff (task : DfuUpdateTask) (file : File) (nTargets : UInt8) :
    ((dfuFileProcessTargets task file nTargets).1 = true →
      Processed task file.content nTargets (dfuFileProcessTargets task file nTargets).2) ↔
    ProcessedRight task file.content nTargets := by
  have hdone := @processTargetList_spec task nTargets.toNat ⟨file.moveTo dfuPrefixSize, []⟩
  have hafter : (file.moveTo dfuPrefixSize).after = file.content.drop dfuPrefixSize := rfl
  have hresult : dfuFileProcessTargets task file nTargets =
      ((processTargetList task nTargets.toNat ⟨file.moveTo dfuPrefixSize, []⟩).1.getD true,
        (processTargetList task nTargets.toNat ⟨file.moveTo dfuPrefixSize, []⟩).2.calls) := rfl
  rw [hresult]
  generalize processTargetList task nTargets.toNat ⟨file.moveTo dfuPrefixSize, []⟩ = r at hdone ⊢
  dsimp only at hdone ⊢
  rw [hafter] at hdone
  constructor
  · intro hprocessed hall
    cases hwhole : (targetsIn nTargets.toNat (file.content.drop dfuPrefixSize)).2 with
    | false =>
      rw [hdone.cut hall hwhole] at hprocessed
      exact absurd (hwhole.symm.trans (hprocessed rfl).whole) Bool.false_ne_true
    | true =>
      obtain ⟨hreturn, hcalls⟩ := hdone.done hall hwhole
      rw [hreturn, hcalls, nil_append] at hprocessed
      obtain ⟨parts, hparts, htreated⟩ := (hprocessed rfl).treated
      have hsound := (hall.sound htreated).2
      rw [hparts] at hsound
      exact ⟨hwhole, hsound rfl⟩
  · intro hright htrue
    by_cases hall : AllPass task [] (elementsOf file.content nTargets)
    · obtain ⟨hwhole, hsound⟩ := hright hall
      obtain ⟨-, hcalls⟩ := hdone.done hall hwhole
      rw [hcalls, nil_append]
      exact ⟨hwhole, ⟨_, flatMap_def.symm, hall.treated hsound⟩, hall.agrees⟩
    · rw [hdone.refused hall] at htrue
      exact absurd htrue Bool.false_ne_true

/-- A file with a prefix and a suffix only: the header of its target is not there, and yet it counts
as processed. -/
theorem cutTarget_processed : ¬ ∀ (task : DfuUpdateTask) (file : File) (nTargets : UInt8),
      (dfuFileProcessTargets task file nTargets).1 = true →
        Processed task file.content nTargets (dfuFileProcessTargets task file nTargets).2 := by
  intro h
  have hprocessed := h ⟨fun _ => true, none⟩
    ⟨[], ascii "DfuSe" ++ [1, 11, 0, 0, 0, 1] ++ [0xff, 0xff, 0x11, 0xdf, 0x83, 0x04, 0x1a, 0x01] ++
      ascii "UFD" ++ [0x10, 0x6c, 0xe3, 0x98, 0x2d]⟩ 1 (by decide)
  exact absurd hprocessed.whole (by rw [Whole]; decide)

end Success
end NikitaFirmware.Update
