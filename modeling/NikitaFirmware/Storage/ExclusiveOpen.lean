import NikitaFirmware.Foundations.Machine
import NikitaFirmware.Storage.Paths
import Mathlib.Data.List.Nodup
import Mathlib.Data.List.Pairwise

/-!
# The open files of the storage service

`storage_glue.c`, the file and directory commands of `storage_processing.c` and the calls of
`storage_external_api.c` that make them. A `File` belongs to one client at a time, and its record is
what the client and the service share; the service handles one message after the other.
-/

namespace NikitaFirmware.Storage
open Foundations List

inductive FResult
  | ok | diskErr | intErr | notReady | noFile | noPath | invalidName | denied | exist
  | invalidObject | writeProtected | invalidDrive | notEnabled | noFilesystem | mkfsAborted
  | timeout | locked | notEnoughCore | tooManyOpenFiles | invalidParameter
  deriving DecidableEq

def parseError : FResult → FsError
  | .ok => .ok
  | .notReady => .notReady
  | .noFile | .noPath | .noFilesystem => .notExist
  | .exist => .exist
  | .invalidName => .invalidName
  | .invalidObject | .invalidParameter => .invalidParameter
  | .denied => .denied
  | _ => .internal

theorem parseError_ne_alreadyOpen (r : FResult) : parseError r ≠ .alreadyOpen := by
  cases r <;> decide

inductive FileType
  | closed
  | openDir
  | openFile

/-- What a client asks to be opened. -/
structure Want where
  isDir : Bool
  appid : Path
  path : Path
  deriving DecidableEq

/-- Where the client of a file is. The flag is that of its subscription to the closing of files. -/
inductive Call
  /-- The file is not in use. -/
  | idle
  /-- The message to open it is on its way. -/
  | opening (want : Want) (flag : Bool)
  /-- The path was open already; the client waits for its flag. -/
  | blocked (want : Want) (flag : Bool)
  /-- The client has been answered, and uses the file until it closes it. -/
  | inUse
  /-- The message to close it is on its way. -/
  | closing
  deriving DecidableEq

/-- `storage_file_close_callback`: every client that opens a file has a subscription. -/
def Call.signal : Call → Call
  | .opening want _ => .opening want true
  | .blocked want _ => .blocked want true
  | call => call

/-- `File`, and whether its client has it open: it has been opened, and not been closed since. -/
structure File where
  fileId : Nat
  type : FileType
  errorId : FsError
  call : Call
  isOpen : Bool

def File.alloc : File := ⟨0, .closed, .ok, .idle, false⟩

structure StorageFile (F : Type*) where
  node : Nat
  file : F
  path : Path
  deriving DecidableEq

structure StorageData (F : Type*) where
  files : List (StorageFile F)
  ready : Bool
  file : F → File

section Operations
variable {F : Type*} [DecidableEq F]

namespace StorageData

def alloc : StorageData F := ⟨[], true, fun _ => .alloc⟩

/-- A record is changed. -/
def update (s : StorageData F) (f : F) (g : File → File) : StorageData F :=
  { s with file := Function.update s.file f (g (s.file f)) }

/-- `storage_get_file`; the identifier is that of the record the entry points to. -/
def getFile (s : StorageData F) (f : F) : Option (StorageFile F) :=
  s.files.find? fun e => (s.file e.file).fileId = (s.file f).fileId

def pathAlreadyOpen (s : StorageData F) (path : Path) : Bool := s.files.any fun e => e.path = path

def pushStorageFile (s : StorageData F) (f : F) (path : Path) (node : Nat) : StorageData F :=
  { s.update f fun r => { r with fileId := node } with files := ⟨node, f, path⟩ :: s.files }

def popStorageFile (s : StorageData F) (f : F) : StorageData F :=
  { s with files := s.files.eraseP fun e => (s.file e.file).fileId = (s.file f).fileId }

/-- `furi_pubsub_publish` for a closed file -/
def publish (s : StorageData F) : StorageData F :=
  { s with file := fun f => { s.file f with call := (s.file f).call.signal } }

/-- `storage_process_file_open`, and `storage_process_dir_open`, with what it returns; `node` is
where the entry is allocated and `result` what the file system says. -/
def processOpen (s : StorageData F) (f : F) (path : Path) (node : Nat) (result : FResult) :
    StorageData F × Bool :=
  match getData s.ready path with
  | .error e => (s.update f fun r => { r with errorId := e }, false)
  | .ok path =>
    if s.pathAlreadyOpen path then (s.update f fun r => { r with errorId := .alreadyOpen }, false)
    else ((s.pushStorageFile f path node).update f fun r =>
      { r with errorId := parseError result, isOpen := result = .ok }, result = .ok)

def processClose (s : StorageData F) (f : F) (result : FResult) : StorageData F :=
  match s.getFile f with
  | none => s.update f fun r => { r with errorId := .invalidParameter }
  | some _ =>
    ((s.update f fun r => { r with errorId := parseError result }).popStorageFile f).publish

def processFile (s : StorageData F) (f : F) (result : FResult) : StorageData F :=
  s.update f fun r => { r with
    errorId := if (s.getFile f).isNone then .invalidParameter else parseError result }

/-- The path on which `storage_process_common_remove` calls the file system. -/
def removes (s : StorageData F) (appid path : Path) : Option Path :=
  match getData s.ready (processAlias appid path) with
  | .error _ => none
  | .ok path => if s.pathAlreadyOpen path then none else some path

def processSdUnmount (s : StorageData F) : StorageData F :=
  if s.ready = false then s
  else if s.files.length ≠ 0 then s
  else { s with ready := false }

end StorageData

inductive Event (F : Type*)
  /-- `storage_file_open` or `storage_dir_open` is called. -/
  | request (f : F) (want : Want)
  /-- The service handles its message. -/
  | processOpen (f : F) (node : Nat) (result : FResult)
  /-- `furi_event_flag_wait` returns, and the message is sent again. -/
  | wake (f : F)
  | processFile (f : F) (result : FResult)
  /-- `storage_file_close` or `storage_dir_close` is called. -/
  | close (f : F)
  | processClose (f : F) (result : FResult)
  | commonRemove (appid path : Path)
  | sdUnmount
  /-- The card is mounted, or it is pulled out. -/
  | card (ready : Bool)

/-- The answer to the client that opens a file. -/
def StorageData.answer (s : StorageData F) (f : F) (want : Want) (flag ret : Bool) :
    StorageData F :=
  s.update f fun r => { r with
    call := if ret = false ∧ r.errorId = .alreadyOpen then .blocked want flag else .inUse }

/-- The allocator gives a node that is not in use. -/
def machine : Machine (StorageData F) (Event F) where
  step s
    | .request f want => if (s.file f).call = .idle then
        some (s.update f fun r => { r with
          type := if want.isDir then .openDir else .openFile
          call := .opening want false })
      else none
    | .processOpen f node result =>
      match (s.file f).call with
      | .opening want flag =>
        if node ≠ 0 ∧ node ∉ s.files.map (·.node) then
          let (s', ret) := s.processOpen f (processAlias want.appid want.path) node result
          some (s'.answer f want flag ret)
        else none
      | _ => none
    | .wake f =>
      match (s.file f).call with
      | .blocked want true => some (s.update f fun r => { r with call := .opening want false })
      | _ => none
    | .processFile f result =>
      if (s.file f).call = .inUse then some (s.processFile f result) else none
    | .close f => if (s.file f).call = .inUse then
        some (s.update f fun r => { r with call := .closing })
      else none
    | .processClose f result => if (s.file f).call = .closing then
        some ((s.processClose f result).update f fun r =>
          { r with type := .closed, call := .idle, isOpen := false })
      else none
    | .commonRemove _ _ => some s
    | .sdUnmount => some s.processSdUnmount
    | .card ready => some { s with ready }

end Operations

variable {F : Type*} {s s' : StorageData F} {ev : Event F} {f g : F}

def Want.lookedUp (want : Want) : Path := redirectAny (processAlias want.appid want.path)

structure Exclusive [DecidableEq F] (s : StorageData F) : Prop where
  once : ∀ f, (s.file f).isOpen = true → (s.files.map (·.file)).count f = 1
  apart : ∀ e ∈ s.files, ∀ e' ∈ s.files, e.file ≠ e'.file →
    ∀ appid, equivalentPath true appid e.path e'.path = false
  awake : ∀ f want, (s.file f).call = .blocked want false → ∃ e ∈ s.files, e.path = want.lookedUp

def NotRemoved (s : StorageData F) : Event F → Prop
  | .commonRemove appid path => ∀ p, s.removes appid path = some p → ∀ e ∈ s.files,
    ∀ appid', equivalentPath true appid' e.path p = false
  | _ => True

/-- What the message on its way is to open. -/
def Call.wants : Call → List Want
  | .opening want _ => [want]
  | _ => []

/-- No file is opened, and nothing is removed, under another spelling of an open path; and no file
is closed with the identifier of the entry of another one. -/
def Proper (s : StorageData F) : Event F → Prop
  | .processOpen f _ _ => ∀ want ∈ (s.file f).call.wants,
    ∀ e ∈ s.files, SamePath e.path want.lookedUp → e.path = want.lookedUp
  | .processClose f _ => ∀ e ∈ s.files, e.node = (s.file f).fileId → e.file = f
  | .commonRemove appid path => ∀ e ∈ s.files,
    SamePath e.path (redirectAny (processAlias appid path)) →
      e.path = redirectAny (processAlias appid path)
  | _ => True

instance decidableProper [DecidableEq F] (s : StorageData F) : (ev : Event F) → Decidable (Proper s ev)
  | .processOpen f _ _ => inferInstanceAs (Decidable (∀ want ∈ (s.file f).call.wants,
      ∀ e ∈ s.files, SamePath e.path want.lookedUp → e.path = want.lookedUp))
  | .processClose f _ =>
    inferInstanceAs (Decidable (∀ e ∈ s.files, e.node = (s.file f).fileId → e.file = f))
  | .commonRemove appid path => inferInstanceAs (Decidable (∀ e ∈ s.files,
      SamePath e.path (redirectAny (processAlias appid path)) →
        e.path = redirectAny (processAlias appid path)))
  | .request _ _ => isTrue trivial
  | .wake _ => isTrue trivial
  | .processFile _ _ => isTrue trivial
  | .close _ => isTrue trivial
  | .sdUnmount => isTrue trivial
  | .card _ => isTrue trivial

/-- The client has the file, or has asked for it to be closed. -/
def Call.Holds : Call → Prop
  | .inUse => True
  | .closing => True
  | _ => False

/-- The list and the records agree. -/
structure Inv (s : StorageData F) : Prop where
  nodes : (s.files.map (·.node)).Nodup
  ids : ∀ e ∈ s.files, (s.file e.file).fileId = e.node
  held : ∀ e ∈ s.files, (s.file e.file).call.Holds
  ext : ∀ e ∈ s.files, IsExt e.path
  apart : s.files.Pairwise fun e e' => ¬ SamePath e.path e'.path
  listed : ∀ f, (s.file f).isOpen = true → ∃ e ∈ s.files, e.file = f
  awake : ∀ f want, (s.file f).call = .blocked want false → ∃ e ∈ s.files, e.path = want.lookedUp

theorem inv_alloc : Inv (.alloc : StorageData F) where
  nodes := nodup_nil
  ids := fun _ h => absurd h not_mem_nil
  held := fun _ h => absurd h not_mem_nil
  ext := fun _ h => absurd h not_mem_nil
  apart := List.Pairwise.nil
  listed := fun _ h => absurd h (by simp [StorageData.alloc, File.alloc])
  awake := fun _ _ h => absurd h (by simp [StorageData.alloc, File.alloc])

theorem Inv.nodup (h : Inv s) : (s.files.map (·.file)).Nodup := by
  have hmap : s.files.map (·.node) = (s.files.map (·.file)).map fun f => (s.file f).fileId := by
    rw [map_map]
    exact map_congr_left fun e he => (h.ids e he).symm
  have hnodes := h.nodes
  rw [hmap] at hnodes
  exact hnodes.of_map

theorem Inv.not_samePath (h : Inv s) {e e' : StorageFile F} (he : e ∈ s.files) (he' : e' ∈ s.files)
    (hne : e.file ≠ e'.file) : ¬ SamePath e.path e'.path := by
  have hsymm : Std.Symm fun e e' : StorageFile F => ¬ SamePath e.path e'.path :=
    ⟨fun _ _ h heq => h (Eq.symm heq)⟩
  exact h.apart.forall he he' fun heq => hne (heq ▸ rfl)

theorem Inv.notListed (h : Inv s) (hcall : ¬ (s.file f).call.Holds) : ∀ e ∈ s.files, e.file ≠ f :=
  fun e he hf => hcall (hf ▸ h.held e he)

theorem pathAlreadyOpen_iff {path : Path} :
    s.pathAlreadyOpen path = true ↔ ∃ e ∈ s.files, e.path = path := by
  simp [StorageData.pathAlreadyOpen]

variable [DecidableEq F]

theorem Inv.exclusive (h : Inv s) : Exclusive s where
  once := by
    intro f hf
    obtain ⟨e, he, rfl⟩ := h.listed f hf
    exact count_eq_one_of_mem h.nodup (mem_map_of_mem he)
  apart := by
    intro e he e' he' hne appid
    rw [Bool.eq_false_iff]
    exact fun heq => h.not_samePath he he' hne
      ((equivalentPath_iff (h.ext e he) (h.ext e' he')).mp heq)
  awake := h.awake

theorem update_self (s : StorageData F) (f : F) (r : File → File) :
    (s.update f r).file f = r (s.file f) := Function.update_self f _ _

theorem update_of_ne (s : StorageData F) (r : File → File) (h : g ≠ f) :
    (s.update f r).file g = s.file g := Function.update_of_ne h _ _

theorem update_update (s : StorageData F) (f : F) (r r' : File → File) :
    (s.update f r).update f r' = s.update f (r' ∘ r) := by
  simp [StorageData.update]

theorem Inv.update (h : Inv s) {r : File → File} (hid : (r (s.file f)).fileId = (s.file f).fileId)
    (hheld : ∀ e ∈ s.files, e.file = f → (r (s.file f)).call.Holds)
    (hopen : (r (s.file f)).isOpen = true → (s.file f).isOpen = true)
    (hawake : ∀ want, (r (s.file f)).call = .blocked want false →
      ∃ e ∈ s.files, e.path = want.lookedUp) : Inv (s.update f r) where
  nodes := h.nodes
  ids := by
    intro e he
    by_cases hf : e.file = f
    · rw [hf, update_self, hid, ← hf]
      exact h.ids e he
    · rw [update_of_ne s r hf]
      exact h.ids e he
  held := by
    intro e he
    by_cases hf : e.file = f
    · rw [hf, update_self]
      exact hheld e he hf
    · rw [update_of_ne s r hf]
      exact h.held e he
  ext := h.ext
  apart := h.apart
  listed := by
    intro g hg
    by_cases hf : g = f
    · rw [hf, update_self] at hg
      exact hf ▸ h.listed f (hopen hg)
    · rw [update_of_ne s r hf] at hg
      exact h.listed g hg
  awake := by
    intro g want hg
    by_cases hf : g = f
    · rw [hf, update_self] at hg
      exact hawake want hg
    · rw [update_of_ne s r hf] at hg
      exact h.awake g want hg

theorem getData_error {ready : Bool} {path : Path} {e : FsError}
    (h : getData ready path = .error e) : e ≠ .alreadyOpen := by
  rw [getData] at h
  split at h
  · exact fun heq => absurd (heq ▸ Except.error.inj h) (by simp)
  · exact fun heq => absurd (heq ▸ Except.error.inj h) (by simp)
  · split at h
    · cases h
    · exact fun heq => absurd (heq ▸ Except.error.inj h) (by simp)

theorem Inv.push (h : Inv s) {r : File → File} {path : Path} {node : Nat}
    (hcall : ¬ (s.file f).call.Holds) (hnode : node ∉ s.files.map (·.node))
    (hid : (r (s.file f)).fileId = node) (hheld : (r (s.file f)).call.Holds) (hext : IsExt path)
    (hpath : ∀ e ∈ s.files, ¬ SamePath e.path path) :
    Inv { s.update f r with files := ⟨node, f, path⟩ :: s.files } where
  nodes := nodup_cons.mpr ⟨hnode, h.nodes⟩
  ids := by
    intro e he
    rcases mem_cons.mp he with rfl | he
    · exact (congrArg File.fileId (update_self s f r)).trans hid
    · exact (congrArg File.fileId (update_of_ne s r (h.notListed hcall e he))).trans (h.ids e he)
  held := by
    intro e he
    rcases mem_cons.mp he with rfl | he
    · rwa [update_self]
    · rw [update_of_ne s r (h.notListed hcall e he)]
      exact h.held e he
  ext := forall_mem_cons.mpr ⟨hext, h.ext⟩
  apart := pairwise_cons.mpr ⟨fun e he heq => hpath e he (Eq.symm heq), h.apart⟩
  listed := by
    intro g hg
    by_cases hf : g = f
    · exact ⟨_, mem_cons_self, hf.symm⟩
    · rw [update_of_ne s r hf] at hg
      obtain ⟨e, he, heq⟩ := h.listed g hg
      exact ⟨e, mem_cons_of_mem _ he, heq⟩
  awake := by
    intro g want hg
    by_cases hf : g = f
    · rw [hf, update_self] at hg
      rw [hg] at hheld
      exact absurd hheld id
    · rw [update_of_ne s r hf] at hg
      obtain ⟨e, he, heq⟩ := h.awake g want hg
      exact ⟨e, mem_cons_of_mem _ he, heq⟩

theorem processOpen_cases (s : StorageData F) (f : F) (want : Want) (flag : Bool) (node : Nat)
    (result : FResult) :
    let s' := (s.processOpen f (processAlias want.appid want.path) node result).1.answer f want flag
      (s.processOpen f (processAlias want.appid want.path) node result).2
    (∃ e, s' = s.update f fun r => { r with errorId := e, call := .inUse }) ∨
    (s.pathAlreadyOpen want.lookedUp = true ∧
      s' = s.update f fun r => { r with errorId := .alreadyOpen, call := .blocked want flag }) ∨
    (IsExt want.lookedUp ∧ s.pathAlreadyOpen want.lookedUp = false ∧
      s' = { s.update f fun r => ⟨node, r.type, parseError result, .inUse, result = .ok⟩ with
        files := ⟨node, f, want.lookedUp⟩ :: s.files }) := by
  rw [StorageData.processOpen]
  cases hdata : getData s.ready (processAlias want.appid want.path) with
  | error e =>
    refine .inl ⟨e, ?_⟩
    simp only [StorageData.answer, update_update]
    refine congrArg (s.update f) (funext fun r => ?_)
    simp [getData_error hdata]
  | ok path =>
    obtain ⟨hext, rfl⟩ := isExt_of_getData hdata
    cases hopen : s.pathAlreadyOpen want.lookedUp with
    | true =>
      refine .inr (.inl ⟨rfl, ?_⟩)
      rw [Want.lookedUp] at hopen
      simp only [hopen, if_true, StorageData.answer, update_update]
      refine congrArg (s.update f) (funext fun r => ?_)
      simp
    | false =>
      refine .inr (.inr ⟨hext, rfl, ?_⟩)
      rw [Want.lookedUp] at hopen
      simp only [hopen, Bool.false_eq_true, if_false, StorageData.answer,
        StorageData.pushStorageFile, StorageData.update, Function.update_self,
        Function.update_idem]
      simp [parseError_ne_alreadyOpen, Want.lookedUp]

theorem Inv.processOpen (h : Inv s) {want : Want} {flag : Bool} {node : Nat} {result : FResult}
    (hcall : (s.file f).call = .opening want flag) (hnode : node ∉ s.files.map (·.node))
    (hproper : ∀ e ∈ s.files, SamePath e.path want.lookedUp → e.path = want.lookedUp) :
    Inv ((s.processOpen f (processAlias want.appid want.path) node result).1.answer f want flag
      (s.processOpen f (processAlias want.appid want.path) node result).2) := by
  have hnot : ¬ (s.file f).call.Holds := by
    rw [hcall]
    exact id
  have hlisted := h.notListed hnot
  rcases processOpen_cases s f want flag node result with ⟨e, heq⟩ | ⟨hopen, heq⟩ |
    ⟨hext, hopen, heq⟩
  · rw [heq]
    exact h.update rfl (fun _ _ _ => trivial) id fun _ hw => absurd hw (by simp)
  · rw [heq]
    refine h.update rfl (fun e he hf => absurd hf (hlisted e he)) id fun want' hw => ?_
    obtain ⟨rfl, -⟩ := Call.blocked.inj hw
    exact pathAlreadyOpen_iff.mp hopen
  · rw [heq]
    refine h.push hnot hnode rfl trivial hext fun e he hsame => ?_
    have hfound := pathAlreadyOpen_iff.mpr ⟨e, he, hproper e he hsame⟩
    cases hopen.symm.trans hfound

theorem processClose_file (result : FResult) {e : StorageFile F} (hget : s.getFile f = some e)
    (r : File → File) (hne : g ≠ f) :
    ((s.processClose f result).update f r).file g =
      { s.file g with call := (s.file g).call.signal } := by
  rw [update_of_ne _ r hne, StorageData.processClose, hget]
  simp only [StorageData.publish, StorageData.popStorageFile, update_of_ne s _ hne]

theorem processClose_files (result : FResult) {e : StorageFile F} (hget : s.getFile f = some e)
    (r : File → File) : ((s.processClose f result).update f r).files =
      s.files.eraseP fun e => (s.file e.file).fileId = (s.file f).fileId := by
  have hid (g : F) : ((s.update f fun r => { r with errorId := parseError result }).file g).fileId =
      (s.file g).fileId := by
    by_cases hf : g = f
    · rw [hf, update_self]
    · rw [update_of_ne s _ hf]
  rw [StorageData.processClose, hget]
  simp only [StorageData.publish, StorageData.popStorageFile, StorageData.update] at hid ⊢
  simp only [hid]

theorem Inv.processClose (h : Inv s) {result : FResult} {r : File → File}
    (hproper : ∀ e ∈ s.files, e.node = (s.file f).fileId → e.file = f)
    (hr : ∀ x, (r x).call = .idle ∧ (r x).isOpen = false ∧ (r x).fileId = x.fileId) :
    Inv ((s.processClose f result).update f r) := by
  cases hget : s.getFile f with
  | none =>
    have hlisted : ∀ e ∈ s.files, e.file ≠ f := by
      intro e he hf
      refine List.find?_eq_none.mp hget e he ?_
      rw [hf]
      exact decide_eq_true rfl
    have hclose : (s.processClose f result).update f r = s.update f
        (r ∘ fun r => { r with errorId := .invalidParameter }) := by
      rw [StorageData.processClose, hget]
      exact update_update s f _ r
    rw [hclose]
    refine h.update (hr _).2.2 (fun e he hf => absurd hf (hlisted e he)) ?_ ?_
    · intro hopen
      exact absurd (hopen.symm.trans (hr _).2.1) (by simp)
    · intro want hw
      exact absurd (hw.symm.trans (hr _).1) (by simp)
  | some found =>
    -- the entries that match are those of the file itself
    have hmatch : ∀ e ∈ s.files, (s.file e.file).fileId = (s.file f).fileId → e.file = f :=
      fun e he hid => hproper e he ((h.ids e he).symm.trans hid)
    have hfiles := processClose_files result hget r
    have hfile (g : F) (hne : g ≠ f) := processClose_file result hget r hne
    have hsub : List.Sublist ((s.processClose f result).update f r).files s.files := by
      rw [hfiles]
      exact eraseP_sublist
    have hrest : ∀ e ∈ ((s.processClose f result).update f r).files, e ∈ s.files ∧ e.file ≠ f := by
      intro e he
      refine ⟨hsub.subset he, fun hf => ?_⟩
      obtain ⟨a, l₁, l₂, -, ha, hsplit, herase⟩ := exists_of_eraseP
        (mem_of_find?_eq_some hget) (List.find?_some hget)
      have haf : a.file = f := hmatch a (hsplit ▸ by simp) (of_decide_eq_true ha)
      have hnodup := h.nodup
      rw [hsplit, map_append, map_cons] at hnodup
      rw [hfiles, herase] at he
      -- another entry of the same file would stand in the list
      have hmem : a.file ∈ (l₁ ++ l₂).map (·.file) := by
        rw [haf, ← hf]
        exact mem_map_of_mem he
      rw [map_append] at hmem
      exact (nodup_middle.mp hnodup).notMem hmem
    refine ⟨?_, ?_, ?_, ?_, ?_, ?_, ?_⟩
    · exact h.nodes.sublist (hsub.map _)
    · intro e he
      obtain ⟨he, hne⟩ := hrest e he
      rw [hfile e.file hne]
      exact h.ids e he
    · intro e he
      obtain ⟨he, hne⟩ := hrest e he
      rw [hfile e.file hne]
      have hheld := h.held e he
      cases hc : (s.file e.file).call <;> simp_all [Call.signal, Call.Holds]
    · exact fun e he => h.ext e (hsub.subset he)
    · exact h.apart.sublist hsub
    · intro g hg
      by_cases hf : g = f
      · rw [hf, update_self, (hr _).2.1] at hg
        cases hg
      · rw [hfile g hf] at hg
        obtain ⟨e, he, heq⟩ := h.listed g hg
        refine ⟨e, ?_, heq⟩
        rw [hfiles]
        refine (mem_eraseP_of_neg ?_).mpr he
        rw [decide_eq_true_eq]
        exact fun hid => hf (heq.symm.trans (hmatch e he hid))
    · intro g want hg
      by_cases hf : g = f
      · rw [hf, update_self, (hr _).1] at hg
        cases hg
      · rw [hfile g hf] at hg
        cases hc : (s.file g).call <;> simp [hc, Call.signal] at hg

/-- Every step keeps the list of open files and the records of the callers in agreement. -/
theorem Inv.step (h : Inv s) (hproper : Proper s ev) (hs : machine.step s ev = some s') :
    Inv s' := by
  cases ev with
  | request f want =>
    obtain ⟨hcall, hs⟩ := Option.ite_none_right_eq_some.mp hs
    obtain rfl := Option.some.inj hs
    have hnot : ¬ (s.file f).call.Holds := by
      rw [hcall]
      exact id
    exact h.update rfl (fun e he hf => absurd hf (h.notListed hnot e he)) id
      fun _ hw => absurd hw (by simp)
  | processOpen f node result =>
    cases hcall : (s.file f).call with
    | opening want flag =>
      simp only [machine, hcall] at hs
      obtain ⟨hnode, hs⟩ := Option.ite_none_right_eq_some.mp hs
      obtain rfl := Option.some.inj hs
      exact h.processOpen hcall hnode.2 (hproper want (hcall ▸ mem_singleton_self want))
    | idle => simp [machine, hcall] at hs
    | blocked => simp [machine, hcall] at hs
    | inUse => simp [machine, hcall] at hs
    | closing => simp [machine, hcall] at hs
  | wake f =>
    cases hcall : (s.file f).call with
    | blocked want flag =>
      cases flag with
      | false => simp [machine, hcall] at hs
      | true =>
        simp only [machine, hcall] at hs
        obtain rfl := Option.some.inj hs
        have hnot : ¬ (s.file f).call.Holds := by
          rw [hcall]
          exact id
        exact h.update rfl (fun e he hf => absurd hf (h.notListed hnot e he)) id
          fun _ hw => absurd hw (by simp)
    | idle => simp [machine, hcall] at hs
    | opening => simp [machine, hcall] at hs
    | inUse => simp [machine, hcall] at hs
    | closing => simp [machine, hcall] at hs
  | processFile f result =>
    obtain ⟨hcall, hs⟩ := Option.ite_none_right_eq_some.mp hs
    obtain rfl := Option.some.inj hs
    exact h.update rfl (fun e he hf => hf ▸ h.held e he) id fun want hw => h.awake f want hw
  | close f =>
    obtain ⟨hcall, hs⟩ := Option.ite_none_right_eq_some.mp hs
    obtain rfl := Option.some.inj hs
    exact h.update rfl (fun _ _ _ => trivial) id fun _ hw => absurd hw (by simp)
  | processClose f result =>
    obtain ⟨hcall, hs⟩ := Option.ite_none_right_eq_some.mp hs
    obtain rfl := Option.some.inj hs
    exact h.processClose hproper fun x => ⟨rfl, rfl, rfl⟩
  | commonRemove appid path => exact Option.some.inj hs ▸ h
  | sdUnmount =>
    obtain rfl := Option.some.inj hs
    rw [StorageData.processSdUnmount]
    split <;> [exact h; split]
    · exact h
    · exact ⟨h.nodes, h.ids, h.held, h.ext, h.apart, h.listed, h.awake⟩
  | card ready =>
    obtain rfl := Option.some.inj hs
    exact ⟨h.nodes, h.ids, h.held, h.ext, h.apart, h.listed, h.awake⟩

omit [DecidableEq F] in
theorem Inv.notRemoved (h : Inv s) (hproper : Proper s ev) : NotRemoved s ev := by
  cases ev with
  | commonRemove appid path =>
    intro p hp e he appid'
    rw [StorageData.removes] at hp
    cases hdata : getData s.ready (processAlias appid path) with
    | error => simp [hdata] at hp
    | ok p' =>
      simp only [hdata] at hp
      split at hp
      case isTrue => cases hp
      case isFalse hopen =>
        obtain rfl := Option.some.inj hp
        obtain ⟨hext, rfl⟩ := isExt_of_getData hdata
        rw [Bool.eq_false_iff]
        intro heq
        have hsame := (equivalentPath_iff (h.ext e he) hext).mp heq
        exact hopen (pathAlreadyOpen_iff.mpr ⟨e, he, hproper e he hsame⟩)
  | _ => trivial

/-- In every interleaving of proper steps each open file is in the list once, no two are open on
equivalent paths, none is removed, and a client whose flag is clear waits for a path still there. -/
theorem exclusive_open {evs : List (Event F)} (hproper : machine.Meets Proper .alloc evs)
    (hrun : machine.run .alloc evs = some s) :
    Exclusive s ∧ machine.Meets NotRemoved .alloc evs := by
  have hinv : Inv s := machine.run_invariant_of_meets (fun _ _ _ h hok hs => h.step hok hs)
    inv_alloc hproper hrun
  exact ⟨hinv.exclusive, machine.meets_of_invariant (fun _ _ _ h hok hs => h.step hok hs)
    (fun _ _ h hok => h.notRemoved hok) inv_alloc hproper⟩

/-- A path, as a file of some application. -/
def sampleWant (path : String) : Want := ⟨false, "app".toList, path.toList⟩

/-- A file is opened, and another one waits for it. -/
def sampleEvents : List (Event Bool) :=
  [.request false (sampleWant "/ext/a"), .processOpen false 1 .ok,
    .request true (sampleWant "/any/a"), .processOpen true 2 .ok,
    .commonRemove [] "/ext/a".toList, .close false, .processClose false .ok,
    .wake true, .processOpen true 1 .ok]

theorem exclusive_open_sample :
    (∃ s : StorageData Bool, machine.run .alloc sampleEvents = some s ∧ Exclusive s) ∧
      machine.Meets NotRemoved .alloc sampleEvents := by
  have hproper : machine.Meets Proper .alloc sampleEvents := by decide
  have hsome : (machine.run .alloc sampleEvents).isSome = true := by decide
  obtain ⟨s, hrun⟩ := Option.isSome_iff_exists.mp hsome
  exact ⟨⟨s, hrun, (exclusive_open hproper hrun).1⟩, (exclusive_open hproper hrun).2⟩

/-- The path of a file is open in capitals, too. -/
def twiceEvents : List (Event Bool) :=
  [.request false (sampleWant "/ext/a"), .processOpen false 1 .ok,
    .request true (sampleWant "/ext/A"), .processOpen true 2 .ok]

/-- A file that was closed is not opened again, as its path is bad; the second time it is closed it
has the identifier of another file. -/
def staleEvents : List (Event Bool) :=
  [.request false (sampleWant "/ext/a"), .processOpen false 1 .ok, .close false,
    .processClose false .ok, .request true (sampleWant "/ext/b"), .processOpen true 1 .ok,
    .request false (sampleWant "bad"), .processOpen false 2 .ok, .close false,
    .processClose false .ok]

/-- An open file is removed under its name in capitals. -/
def removedEvents : List (Event Bool) :=
  [.request false (sampleWant "/ext/a"), .processOpen false 1 .ok, .commonRemove [] "/ext/A".toList]

theorem not_exclusive_open :
    (∃ s : StorageData Bool, machine.run .alloc twiceEvents = some s ∧ ¬ Exclusive s) ∧
    (∃ s : StorageData Bool, machine.run .alloc staleEvents = some s ∧ ¬ Exclusive s) ∧
    ¬ machine.Meets NotRemoved (.alloc : StorageData Bool) removedEvents := by
  refine ⟨?_, ?_, ?_⟩
  · have hfiles : (machine.run .alloc twiceEvents).map (fun s : StorageData Bool => s.files) =
        some [⟨2, true, "/ext/A".toList⟩, ⟨1, false, "/ext/a".toList⟩] := by decide
    obtain ⟨s, hrun, hs⟩ := Option.map_eq_some_iff.mp hfiles
    refine ⟨s, hrun, fun h => ?_⟩
    have hapart := h.apart ⟨2, true, "/ext/A".toList⟩ (by simp [hs])
      ⟨1, false, "/ext/a".toList⟩ (by simp [hs]) (by decide) []
    cases hapart
  · have hfiles : (machine.run .alloc staleEvents).map
        (fun s : StorageData Bool => ((s.file true).isOpen, s.files)) = some (true, []) := by
      decide
    obtain ⟨s, hrun, hs⟩ := Option.map_eq_some_iff.mp hfiles
    obtain ⟨hopen, hnil⟩ := Prod.mk.inj hs
    refine ⟨s, hrun, fun h => ?_⟩
    have honce := h.once true hopen
    rw [hnil] at honce
    cases honce
  · intro hmeets
    have hfiles : (machine.run .alloc (removedEvents.take 2)).map
        (fun s : StorageData Bool => (s.files, s.removes [] "/ext/A".toList)) =
        some ([⟨1, false, "/ext/a".toList⟩], some "/ext/A".toList) := by decide
    obtain ⟨s, hrun, hs⟩ := Option.map_eq_some_iff.mp hfiles
    obtain ⟨hs, hremoves⟩ := Prod.mk.inj hs
    have hremove := (machine.meets_append hrun).mp hmeets
    have happart := hremove.2.1 "/ext/A".toList hremoves ⟨1, false, "/ext/a".toList⟩ (by simp [hs]) []
    cases happart

end NikitaFirmware.Storage
