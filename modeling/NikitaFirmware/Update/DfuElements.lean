import NikitaFirmware.Foundations.Bytes
import NikitaFirmware.Foundations.Cursor

/-!
# Firmware images

`lib/update_util/dfu_file.c`, as the updater flashes and compares a firmware image with it. The file
is open for reading: a read gives what is left of it, and a seek stops at its end.
-/

namespace NikitaFirmware.Update

open Foundations List

def flashPageSize : Nat := 4096

def flashTotalPages : Nat := 256

def flashBase : Nat := 0x08000000

def flashGetPageNumber (address : UInt32) : Int :=
  if address.toNat < flashBase ∨ flashBase + flashTotalPages * flashPageSize < address.toNat then -1
  else ((address.toNat - flashBase) / flashPageSize : Nat)

/-- The address behind the last page. -/
def flashEnd : Nat := 0x08100000

theorem flash_constants : flashPageSize = 4096 ∧ flashTotalPages = 256 ∧
    flashBase = 0x08000000 ∧ flashEnd = 0x08100000 := ⟨rfl, rfl, rfl, rfl⟩

theorem flashGetPageNumber_of_inside {address : UInt32} (hbase : flashBase ≤ address.toNat)
    (hend : address.toNat ≤ flashEnd) :
    flashGetPageNumber address = ((address.toNat - flashBase) / flashPageSize : Nat) := by
  have hpages : flashBase + flashTotalPages * flashPageSize = flashEnd := rfl
  exact if_neg (by omega)

theorem flashGetPageNumber_neg_iff {address : UInt32} : flashGetPageNumber address < 0 ↔
    ¬ (flashBase ≤ address.toNat ∧ address.toNat ≤ flashEnd) := by
  have hpages : flashBase + flashTotalPages * flashPageSize = flashEnd := rfl
  rw [flashGetPageNumber, hpages]
  split
  · simp only [Int.reduceNeg, Int.reduceLT, true_iff]
    omega
  · simp only [Int.natCast_nonneg, Int.not_lt.mpr, false_iff, not_not]
    omega

abbrev File := Cursor UInt8

def storageFileRead (n : Nat) (file : File) : Bytes × File := file.read n

theorem storageFileRead_fst (n : Nat) (file : File) :
    (storageFileRead n file).1 = file.after.take n := rfl

theorem storageFileRead_after (n : Nat) (file : File) :
    (storageFileRead n file).2.after = file.after.drop n := rfl

theorem length_after_read {n : Nat} {file : File} (h : (storageFileRead n file).1 ≠ []) :
    (storageFileRead n file).2.after.length < file.after.length := by
  have hpos := length_pos_iff.mpr h
  rw [storageFileRead_fst, length_take] at hpos
  rw [storageFileRead_after, length_drop]
  omega

def storageFileSeek (offset : Nat) (fromStart : Bool) (file : File) : Bool × File :=
  (true, if fromStart then file.moveTo offset else file.advance offset)

def word32 (b : Bytes) (i : Nat) : UInt32 :=
  UInt32.ofNat ((b.getD i 0).toNat + 256 * (b.getD (i + 1) 0).toNat +
    65536 * (b.getD (i + 2) 0).toNat + 16777216 * (b.getD (i + 3) 0).toNat)

def dfuPrefixSize : Nat := 11

def targetPrefixSize : Nat := 274

def imageElementHeaderSize : Nat := 8

def dwNbElements (targetPrefix : Bytes) : UInt32 := word32 targetPrefix 270

structure ImageElementHeader where
  dwElementAddress : UInt32
  dwElementSize : UInt32

def imageElementHeader (b : Bytes) : ImageElementHeader := ⟨word32 b 0, word32 b 4⟩

structure PageCall where
  iPage : UInt8
  updateBlock : Bytes

structure DfuUpdateTask where
  /-- Whether the last one of the calls made so far succeeds. -/
  taskCb : List PageCall → Bool
  addressCb : Option (UInt32 → Bool)

/-- The check of an address, which every address passes without `address_cb`. -/
def DfuUpdateTask.accepts (task : DfuUpdateTask) (address : UInt32) : Bool :=
  match task.addressCb with
  | none => true
  | some addressCb => addressCb address

inductive DfuUpdateBlockResult
  | unknown
  | ok
  | skipped
  | failed
deriving DecidableEq

def DfuUpdateBlockResult.toBool : DfuUpdateBlockResult → Bool
  | unknown => false
  | ok => true
  | skipped => true
  | failed => true

/-- The file, and the calls of `task_cb` that were made. -/
structure Work where
  file : File
  calls : List PageCall

section Process
variable (task : DfuUpdateTask)

def nBytesToRead (header : ImageElementHeader) (elementOffs : UInt32) : UInt32 :=
  if header.dwElementSize < elementOffs + 4096 then header.dwElementSize - elementOffs else 4096

/-- The loop of `dfu_file_perform_task_for_update_pages`, with the value of `element_offs` behind
it. -/
def updatePages (header : ImageElementHeader) (elementOffs : UInt32) (w : Work) : UInt32 × Work :=
  if elementOffs < header.dwElementSize then
    let r := storageFileRead (nBytesToRead header elementOffs).toNat w.file
    if _hread : r.1 = [] then (elementOffs, ⟨r.2, w.calls⟩)
    else
      let iPage := flashGetPageNumber (header.dwElementAddress + elementOffs)
      if iPage < 0 then (elementOffs, ⟨r.2, w.calls⟩)
      else
        let calls := w.calls ++ [⟨UInt8.ofNat iPage.toNat, r.1⟩]
        if task.taskCb calls then
          updatePages header (elementOffs + UInt32.ofNat r.1.length) ⟨r.2, calls⟩
        else (elementOffs, ⟨r.2, calls⟩)
  else (elementOffs, w)
termination_by w.file.after.length
decreasing_by exact length_after_read _hread

def performTaskForUpdatePages (header : ImageElementHeader) (w : Work) :
    DfuUpdateBlockResult × Work :=
  if header.dwElementAddress &&& 4095 ≠ 0 then (.failed, w)
  else if !task.accepts header.dwElementAddress ||
      !task.accepts (header.dwElementAddress + header.dwElementSize) then
    (.skipped, ⟨(storageFileSeek header.dwElementSize.toNat false w.file).2, w.calls⟩)
  else
    let r := updatePages task header 0 w
    (if r.1 = header.dwElementSize then .ok else .failed, r.2)

/-- The elements of a target: what is returned from within the loop, if anything is. -/
def processElements : Nat → Work → Option Bool × Work
  | 0, w => (none, w)
  | n + 1, w =>
    let r := storageFileRead imageElementHeaderSize w.file
    if r.1.length ≠ imageElementHeaderSize then
      (some DfuUpdateBlockResult.failed.toBool, ⟨r.2, w.calls⟩)
    else
      let u := performTaskForUpdatePages task (imageElementHeader r.1) ⟨r.2, w.calls⟩
      if u.1 = .failed then (some false, u.2) else processElements n u.2

def processTargetList : Nat → Work → Option Bool × Work
  | 0, w => (none, w)
  | n + 1, w =>
    let r := storageFileRead targetPrefixSize w.file
    if r.1.length ≠ targetPrefixSize then
      (some DfuUpdateBlockResult.failed.toBool, ⟨r.2, w.calls⟩)
    else
      let e := processElements task (dwNbElements r.1).toNat ⟨r.2, w.calls⟩
      match e.1 with
      | some result => (some result, e.2)
      | none => processTargetList n e.2

/-- `dfu_file_process_targets`, with the calls of `task_cb` that were made. -/
def dfuFileProcessTargets (file : File) (nTargets : UInt8) : Bool × List PageCall :=
  let r := storageFileSeek dfuPrefixSize true file
  if !r.1 then (DfuUpdateBlockResult.failed.toBool, [])
  else
    let t := processTargetList task nTargets.toNat ⟨r.2, []⟩
    (t.1.getD true, t.2.calls)

end Process

def flashPageAddress (iPage : UInt8) : Nat := flashBase + flashPageSize * iPage.toNat

theorem toNat_4096 : (4096 : UInt32).toNat = 4096 := rfl

def pagesFrom (page : Nat) (data : Bytes) : List PageCall :=
  if _h : data = [] then []
  else ⟨UInt8.ofNat page, data.take flashPageSize⟩ :: pagesFrom (page + 1) (data.drop flashPageSize)
termination_by data.length
decreasing_by
  have := length_pos_iff.mpr _h
  have := flash_constants
  rw [length_drop]
  omega

def callBytes (calls : List PageCall) : Bytes := calls.flatMap PageCall.updateBlock

@[simp] theorem callBytes_nil : callBytes [] = [] := rfl

@[simp] theorem callBytes_cons (call : PageCall) (calls : List PageCall) :
    callBytes (call :: calls) = call.updateBlock ++ callBytes calls := rfl

@[simp] theorem callBytes_append (calls calls' : List PageCall) :
    callBytes (calls ++ calls') = callBytes calls ++ callBytes calls' := flatMap_append

section Pages
variable {page : Nat} {data : Bytes}

@[simp] theorem pagesFrom_nil : pagesFrom page [] = [] := by
  rw [pagesFrom, dif_pos rfl]

theorem pagesFrom_cons (h : data ≠ []) : pagesFrom page data =
    ⟨UInt8.ofNat page, data.take flashPageSize⟩ ::
      pagesFrom (page + 1) (data.drop flashPageSize) := by
  rw [pagesFrom, dif_neg h]

theorem callBytes_pagesFrom (page : Nat) (data : Bytes) :
    callBytes (pagesFrom page data) = data := by
  fun_induction pagesFrom page data with
  | case1 page => rfl
  | case2 page data h ih => rw [callBytes_cons, ih, take_append_drop]

theorem length_pagesFrom_le {call : PageCall} (h : call ∈ pagesFrom page data) :
    call.updateBlock.length ≤ flashPageSize := by
  fun_induction pagesFrom page data with
  | case1 page => exact absurd h not_mem_nil
  | case2 page data hdata ih =>
    rcases mem_cons.mp h with rfl | h
    · exact length_take_le _ _
    · exact ih h

theorem pagesFrom_starts {pre post : List PageCall} {call : PageCall}
    (h : pagesFrom page data = pre ++ call :: post)
    (hend : 4096 * page + data.length ≤ 0x100000) :
    4096 * call.iPage.toNat = 4096 * page + (callBytes pre).length := by
  have hconstants := flash_constants
  fun_induction pagesFrom page data generalizing pre with
  | case1 page => exact absurd h.symm (append_ne_nil_of_right_ne_nil _ (cons_ne_nil _ _))
  | case2 page data hdata ih =>
    have hpos := length_pos_iff.mpr hdata
    cases pre with
    | nil =>
      obtain ⟨rfl, -⟩ := List.cons.inj h
      rw [UInt8.toNat_ofNat', callBytes_nil, length_nil, Nat.add_zero]
      omega
    | cons c pre =>
      obtain ⟨rfl, htail⟩ := List.cons.inj h
      have hmore : flashPageSize < data.length := by
        by_contra hle
        rw [drop_eq_nil_of_le (by omega), pagesFrom_nil] at htail
        exact append_ne_nil_of_right_ne_nil _ (cons_ne_nil _ _) htail.symm
      have hdrop : (data.drop flashPageSize).length = data.length - flashPageSize :=
        length_drop
      have hnext := ih htail (by omega)
      rw [hnext, callBytes_cons, length_append, length_take]
      omega

end Pages

/-- Every one of the calls succeeds after those that were made before it. -/
def DfuUpdateTask.Agrees (task : DfuUpdateTask) : List PageCall → List PageCall → Prop
  | _, [] => True
  | made, call :: calls => task.taskCb (made ++ [call]) = true ∧ task.Agrees (made ++ [call]) calls

theorem DfuUpdateTask.Agrees.append {task : DfuUpdateTask} {made calls calls' : List PageCall}
    (h : task.Agrees made calls) (h' : task.Agrees (made ++ calls) calls') :
    task.Agrees made (calls ++ calls') := by
  induction calls generalizing made with
  | nil => rwa [append_nil] at h'
  | cons call calls ih =>
    refine ⟨h.1, ih h.2 ?_⟩
    rwa [append_assoc, singleton_append]

section Loop
variable {task : DfuUpdateTask} {header : ImageElementHeader} {elementOffs : UInt32} {w : Work}

theorem updatePages_empty (h : w.file.after = []) :
    (updatePages task header elementOffs w).1 = elementOffs := by
  have hread : ∀ n, (storageFileRead n w.file).1 = [] := by
    intro n
    rw [storageFileRead_fst, h, take_nil]
  rw [updatePages]
  split
  · rw [dif_pos (hread _)]
  · rfl

/-- The offset is that of a page of the element that is reached from the start of it. -/
structure AtPage (header : ImageElementHeader) (elementOffs : UInt32) : Prop where
  le : elementOffs.toNat ≤ header.dwElementSize.toNat
  aligned : elementOffs.toNat < header.dwElementSize.toNat →
    (header.dwElementAddress.toNat + elementOffs.toNat) % 4096 = 0
  inside : elementOffs = 0 ∨ (flashBase ≤ header.dwElementAddress.toNat ∧
    header.dwElementAddress.toNat + elementOffs.toNat ≤ flashEnd + flashPageSize)

theorem AtPage.no_wrap (h : AtPage header elementOffs) :
    elementOffs.toNat ≤ flashEnd + flashPageSize - flashBase ∧
      (header.dwElementAddress + elementOffs).toNat =
        header.dwElementAddress.toNat + elementOffs.toNat := by
  rw [UInt32.toNat_add]
  have hconstants := flash_constants
  have haddress := header.dwElementAddress.toNat_lt
  rcases h.inside with rfl | hinside
  · simp only [UInt32.toNat_zero]
    omega
  · omega

theorem AtPage.nBytesToRead (h : AtPage header elementOffs) :
    (Update.nBytesToRead header elementOffs).toNat =
      min flashPageSize (header.dwElementSize.toNat - elementOffs.toNat) := by
  obtain ⟨hle, -⟩ := h.no_wrap
  have hconstants := flash_constants
  have hsum : (elementOffs + 4096).toNat = elementOffs.toNat + 4096 := by
    rw [UInt32.toNat_add, toNat_4096]
    omega
  have hsize := h.le
  rw [Update.nBytesToRead]
  split
  case isTrue hlt =>
    rw [UInt32.lt_iff_toNat_lt, hsum] at hlt
    rw [UInt32.toNat_sub_of_le _ _ (UInt32.le_iff_toNat_le.mpr hsize)]
    omega
  case isFalse hlt =>
    rw [UInt32.lt_iff_toNat_lt, hsum] at hlt
    rw [toNat_4096]
    omega

structure CanGoOn (task : DfuUpdateTask) (header : ImageElementHeader) (elementOffs : UInt32)
    (data : Bytes) (made : List PageCall) : Prop where
  complete : data.length = header.dwElementSize.toNat - elementOffs.toNat
  inside : elementOffs.toNat < header.dwElementSize.toNat →
    flashBase ≤ header.dwElementAddress.toNat ∧
      header.dwElementAddress.toNat + header.dwElementSize.toNat ≤ flashEnd + flashPageSize
  agrees : task.Agrees made (pagesFrom
    ((header.dwElementAddress.toNat + elementOffs.toNat - flashBase) / flashPageSize) data)

def restOf (header : ImageElementHeader) (elementOffs : UInt32) (w : Work) : Bytes :=
  w.file.after.take (header.dwElementSize.toNat - elementOffs.toNat)

theorem stopped {P Q : Prop} (hlt : elementOffs < header.dwElementSize) (hP : ¬ P) :
    (elementOffs = header.dwElementSize ↔ P) ∧ (elementOffs = header.dwElementSize → Q) := by
  have hne : elementOffs ≠ header.dwElementSize := UInt32.ne_of_lt hlt
  exact ⟨⟨fun h => absurd h hne, fun h => absurd h hP⟩, fun h => absurd h hne⟩

theorem CanGoOn.page {made : List PageCall} {data : Bytes} (hpage : AtPage header elementOffs)
    (hlt : elementOffs < header.dwElementSize) (h : CanGoOn task header elementOffs data made) :
    ¬ flashGetPageNumber (header.dwElementAddress + elementOffs) < 0 := by
  have hconstants := flash_constants
  obtain ⟨-, hsum⟩ := hpage.no_wrap
  have hlt' := UInt32.lt_iff_toNat_lt.mp hlt
  have hinside := h.inside hlt'
  have haligned := hpage.aligned hlt'
  rw [flashGetPageNumber_neg_iff, hsum, not_not]
  omega

structure ReadPage (header : ImageElementHeader) (elementOffs : UInt32) (w : Work) (n : Nat) :
    Prop where
  atPage : AtPage header elementOffs
  lt : elementOffs.toNat < header.dwElementSize.toNat
  length : n = min flashPageSize (header.dwElementSize.toNat - elementOffs.toNat)
  available : n ≤ w.file.after.length
  page : flashBase ≤ header.dwElementAddress.toNat + elementOffs.toNat ∧
    header.dwElementAddress.toNat + elementOffs.toNat ≤ flashEnd

namespace ReadPage
variable {n : Nat} (h : ReadPage header elementOffs w n)
include h

theorem toNat_next : (elementOffs + UInt32.ofNat n).toNat = elementOffs.toNat + n := by
  have hsize := header.dwElementSize.toNat_lt
  have hn := h.length
  have hlt := h.lt
  rw [UInt32.toNat_add, UInt32.toNat_ofNat']
  omega

theorem atPage_next : AtPage header (elementOffs + UInt32.ofNat n) := by
  have hconstants := flash_constants
  have hn := h.length
  have hlt := h.lt
  have hinside := h.page
  have haligned := h.atPage.aligned hlt
  refine ⟨?_, ?_, Or.inr ⟨?_, ?_⟩⟩
  · rw [h.toNat_next]
    omega
  · rw [h.toNat_next]
    omega
  · rcases h.atPage.inside with rfl | hbase
    · exact hinside.1
    · exact hbase.1
  · rw [h.toNat_next]
    omega

theorem restOf_eq {w' : Work} (hw : w'.file.after = w.file.after.drop n) :
    restOf header elementOffs w =
      w.file.after.take n ++ restOf header (elementOffs + UInt32.ofNat n) w' := by
  have hn := h.length
  have hsplit : header.dwElementSize.toNat - elementOffs.toNat =
      n + (header.dwElementSize.toNat - (elementOffs.toNat + n)) := by omega
  rw [restOf, restOf, h.toNat_next, hw, hsplit, take_add]

theorem pagesFrom_restOf {w' : Work} (hw : w'.file.after = w.file.after.drop n) :
    pagesFrom ((header.dwElementAddress.toNat + elementOffs.toNat - flashBase) / flashPageSize)
        (restOf header elementOffs w) =
      ⟨UInt8.ofNat (flashGetPageNumber (header.dwElementAddress + elementOffs)).toNat,
          w.file.after.take n⟩ ::
        pagesFrom ((header.dwElementAddress.toNat +
            (elementOffs + UInt32.ofNat n).toNat - flashBase) / flashPageSize)
          (restOf header (elementOffs + UInt32.ofNat n) w') := by
  have hconstants := flash_constants
  have hn := h.length
  have hlt := h.lt
  have hinside := h.page
  have havailable := h.available
  obtain ⟨-, hsum⟩ := h.atPage.no_wrap
  have hlength : (w.file.after.take n).length = n := length_take_of_le havailable
  have hpage : flashGetPageNumber (header.dwElementAddress + elementOffs) =
      ((header.dwElementAddress.toNat + elementOffs.toNat - flashBase) / flashPageSize : Nat) := by
    rw [flashGetPageNumber_of_inside (by omega) (by rw [hsum]; exact hinside.2), hsum]
  have hne : restOf header elementOffs w ≠ [] := by
    rw [h.restOf_eq hw]
    refine append_ne_nil_of_left_ne_nil (ne_nil_of_length_pos ?_) _
    omega
  rw [pagesFrom_cons hne, hpage, Int.toNat_natCast, h.toNat_next, h.restOf_eq hw]
  rcases Nat.lt_or_ge (header.dwElementSize.toNat - elementOffs.toNat) flashPageSize
    with hlast | hmore
  · have hnil : restOf header (elementOffs + UInt32.ofNat n) w' = [] := by
      rw [restOf, h.toNat_next, take_eq_nil_iff]
      omega
    rw [hnil, append_nil, take_of_length_le (by omega),
      drop_eq_nil_of_le (by omega), pagesFrom_nil, pagesFrom_nil]
  · obtain rfl : n = flashPageSize := by omega
    have hnext : (header.dwElementAddress.toNat + elementOffs.toNat - flashBase) / flashPageSize + 1
        = (header.dwElementAddress.toNat + (elementOffs.toNat + flashPageSize) - flashBase) /
          flashPageSize := by
      rw [hconstants.1]
      omega
    rw [take_left' hlength, drop_left' hlength, hnext]

theorem canGoOn_iff {w' : Work} (hw : w'.file.after = w.file.after.drop n) (made : List PageCall) :
    CanGoOn task header elementOffs (restOf header elementOffs w) made ↔
      task.taskCb (made ++ [⟨UInt8.ofNat
          (flashGetPageNumber (header.dwElementAddress + elementOffs)).toNat,
            w.file.after.take n⟩]) = true ∧
        CanGoOn task header (elementOffs + UInt32.ofNat n)
          (restOf header (elementOffs + UInt32.ofNat n) w')
          (made ++ [⟨UInt8.ofNat (flashGetPageNumber (header.dwElementAddress + elementOffs)).toNat,
              w.file.after.take n⟩]) := by
  have hconstants := flash_constants
  have hn := h.length
  have hlt := h.lt
  have hinside := h.page
  have hbase := h.atPage_next.inside
  have hlength : (w.file.after.take n).length = n := length_take_of_le h.available
  have hrest := congrArg List.length (h.restOf_eq hw)
  rw [length_append, hlength] at hrest
  constructor
  · intro hgo
    have hcomplete := hgo.complete
    have hagrees := hgo.agrees
    rw [h.pagesFrom_restOf hw] at hagrees
    refine ⟨hagrees.1, ?_, fun _ => hgo.inside hlt, hagrees.2⟩
    rw [h.toNat_next]
    omega
  · rintro ⟨hcall, hgo⟩
    have hcomplete := hgo.complete
    rw [h.toNat_next] at hcomplete
    refine ⟨by omega, fun _ => ?_, ?_⟩
    · have hgoInside := hgo.inside
      rw [h.toNat_next] at hgoInside
      have hstart : flashBase ≤ header.dwElementAddress.toNat := by
        rcases h.atPage.inside with rfl | hbase
        · exact hinside.1
        · exact hbase.1
      omega
    · rw [h.pagesFrom_restOf hw]
      exact ⟨hcall, hgo.agrees⟩

end ReadPage

theorem readPage (hpage : AtPage header elementOffs) (hlt : elementOffs < header.dwElementSize)
    (havailable : (nBytesToRead header elementOffs).toNat ≤ w.file.after.length)
    (hnumber : ¬ flashGetPageNumber (header.dwElementAddress + elementOffs) < 0) :
    ReadPage header elementOffs w (nBytesToRead header elementOffs).toNat := by
  obtain ⟨-, hsum⟩ := hpage.no_wrap
  rw [flashGetPageNumber_neg_iff, hsum, not_not] at hnumber
  exact ⟨hpage, UInt32.lt_iff_toNat_lt.mp hlt, hpage.nBytesToRead, havailable, hnumber⟩

/-- An element is written page by page from the file, and the result is its size exactly if every
page can be written. -/
theorem updatePages_spec (hpage : AtPage header elementOffs) :
    ((updatePages task header elementOffs w).1 = header.dwElementSize ↔
      CanGoOn task header elementOffs (restOf header elementOffs w) w.calls) ∧
    ((updatePages task header elementOffs w).1 = header.dwElementSize →
      (updatePages task header elementOffs w).2.file.after =
          w.file.after.drop (header.dwElementSize.toNat - elementOffs.toNat) ∧
        (updatePages task header elementOffs w).2.calls = w.calls ++ pagesFrom
          ((header.dwElementAddress.toNat + elementOffs.toNat - flashBase) / flashPageSize)
          (restOf header elementOffs w)) := by
  fun_induction updatePages task header elementOffs w with
  | case1 offs w hlt r hread =>
    refine stopped hlt ?_
    intro hgo
    have hcomplete := hgo.complete
    have hlength := congrArg List.length hread
    have hlt' := UInt32.lt_iff_toNat_lt.mp hlt
    rw [storageFileRead_fst, hpage.nBytesToRead, length_take, length_nil] at hlength
    rw [restOf, length_take] at hcomplete
    have hconstants := flash_constants
    omega
  | case2 offs w hlt r hread iPage hneg => exact stopped hlt fun hgo => hgo.page hpage hlt hneg
  | case3 offs w hlt r hread iPage hneg calls hagrees ih =>
    have hbytes : r.1 = w.file.after.take (nBytesToRead header offs).toNat :=
      storageFileRead_fst _ _
    have hafter : r.2.after = w.file.after.drop (nBytesToRead header offs).toNat :=
      storageFileRead_after _ _
    rcases Nat.lt_or_ge w.file.after.length (nBytesToRead header offs).toNat with hcut | havailable
    · -- the file ends in the piece: the next read gives nothing
      have hlength : r.1.length = w.file.after.length := by
        rw [hbytes, length_take, Nat.min_eq_right (Nat.le_of_lt hcut)]
      have hempty : r.2.after = [] := by
        rw [hafter, drop_eq_nil_of_le (Nat.le_of_lt hcut)]
      have hless := hpage.nBytesToRead
      have hsize := header.dwElementSize.toNat_lt
      have hnext : offs + UInt32.ofNat r.1.length < header.dwElementSize := by
        rw [UInt32.lt_iff_toNat_lt, UInt32.toNat_add, UInt32.toNat_ofNat', hlength]
        omega
      rw [@updatePages_empty task header _ ⟨r.2, calls⟩ hempty]
      refine stopped hnext ?_
      intro hgo
      have hcomplete := hgo.complete
      rw [restOf, length_take] at hcomplete
      omega
    · -- a whole piece: the loop goes on behind it
      have hpiece := readPage hpage hlt havailable hneg
      have hlength : r.1.length = (nBytesToRead header offs).toNat := by
        rw [hbytes, length_take_of_le havailable]
      have hcalls : calls = w.calls ++ [⟨UInt8.ofNat iPage.toNat,
          w.file.after.take (nBytesToRead header offs).toNat⟩] := by
        rw [← hbytes]
      obtain ⟨hiff, hdone⟩ := ih (by rw [hlength]; exact hpiece.atPage_next)
      rw [hlength] at hiff hdone ⊢
      have hgo := @ReadPage.canGoOn_iff task _ _ _ _ hpiece ⟨r.2, calls⟩ hafter w.calls
      rw [← hcalls] at hgo
      refine ⟨hiff.trans ((and_iff_right hagrees).symm.trans hgo.symm), fun heq => ?_⟩
      obtain ⟨hfile, hmade⟩ := hdone heq
      constructor
      · have hle := hpiece.length
        have hsum : (nBytesToRead header offs).toNat + (header.dwElementSize.toNat -
            (offs.toNat + (nBytesToRead header offs).toNat)) =
              header.dwElementSize.toNat - offs.toNat := by
          omega
        rw [hfile, hafter, drop_drop, hpiece.toNat_next, hsum]
      · rw [hmade, @ReadPage.pagesFrom_restOf _ _ _ _ hpiece ⟨r.2, calls⟩ hafter,
          ← append_cons, ← hbytes]
  | case4 offs w hlt r hread iPage hneg calls hrefuses =>
    refine stopped hlt ?_
    intro hgo
    have hbytes : r.1 = w.file.after.take (nBytesToRead header offs).toNat :=
      storageFileRead_fst _ _
    have hcalls : calls = w.calls ++ [⟨UInt8.ofNat iPage.toNat,
        w.file.after.take (nBytesToRead header offs).toNat⟩] := by
      rw [← hbytes]
    have havailable : (nBytesToRead header offs).toNat ≤ w.file.after.length := by
      have hcomplete := hgo.complete
      rw [restOf, length_take] at hcomplete
      rw [hpage.nBytesToRead]
      omega
    have hpiece := readPage hpage hlt havailable hneg
    have hcall := ((@ReadPage.canGoOn_iff task _ _ _ _ hpiece ⟨r.2, calls⟩
      (storageFileRead_after _ _) w.calls).mp hgo).1
    rw [← hcalls] at hcall
    exact hrefuses hcall
  | case5 offs w hdone =>
    have heq : offs.toNat = header.dwElementSize.toNat :=
      Nat.le_antisymm hpage.le (Nat.le_of_not_lt fun h => hdone (UInt32.lt_iff_toNat_lt.mpr h))
    obtain rfl := UInt32.toNat_inj.mp heq
    have hrest : restOf header header.dwElementSize w = [] := by
      rw [restOf, Nat.sub_self, take_zero]
    rw [hrest, Nat.sub_self, pagesFrom_nil, append_nil, drop_zero]
    refine ⟨⟨fun _ => ⟨?_, fun h => absurd h (Nat.lt_irrefl _), ?_⟩, fun _ => rfl⟩,
      fun _ => ⟨rfl, rfl⟩⟩
    · rw [Nat.sub_self, length_nil]
    · rw [pagesFrom_nil]
      trivial

end Loop
end NikitaFirmware.Update
