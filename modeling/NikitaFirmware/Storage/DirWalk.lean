import NikitaFirmware.Foundations.Loops
import NikitaFirmware.Storage.Tree
import NikitaFirmware.Toolbox.Path

/-!
# Walking a directory tree

`lib/toolbox/dir_walk.c`. The walk has one handle. On the way up it opens the directory above again
and reads as many entries as it had read there before.
-/

namespace NikitaFirmware.Storage

open Foundations Toolbox.Path List

/-- A handle: closed, with what is still to be read, or open without a directory. -/
inductive DirHandle
  | closed
  | reading (entries : List Entry)
  | failed

/-- What `storage_dir_read` leaves in its arguments and in the error of the handle. -/
inductive DirRead
  | entry (name : Path) (info : FileInfo)
  | notExist
  | error

/-- The directories that can be opened, each with its entries. -/
abbrev Dirs := Path → Option (List Entry)

def cardDirs (ready : Bool) (appid : Path) (root : Contents) : Dirs := fun path =>
  (cardNames ready appid path).bind fun names =>
    (Contents.follow names (false, root)).map fun d => d.2.entries

def storageDirOpen (dirs : Dirs) (path : Path) : DirHandle :=
  match dirs path with
  | some entries => .reading entries
  | none => .failed

def storageDirRead (nameLength : Nat) : DirHandle → DirRead × DirHandle
  | .reading (e :: entries) => (.entry (e.name.take (nameLength - 1)) e.info, .reading entries)
  | .reading [] => (.notExist, .reading [])
  | file => (.error, file)

/-- `DirWalk`. The last of the indices stands first. -/
structure DirWalk where
  file : DirHandle
  path : Path
  indexList : List Nat
  currentIndex : Nat
  recursive : Bool
  filterCb : Option (Path → FileInfo → Bool)

inductive DirWalkResult
  | ok (returnPath : Path) (fileinfo : FileInfo)
  | error
  | last

def dirWalkAlloc : DirWalk := ⟨.closed, [], [], 0, true, none⟩

namespace DirWalk
variable (w : DirWalk)

def filter (name : Path) (info : FileInfo) : Bool :=
  match w.filterCb with
  | some filterCb => filterCb name info
  | none => true

end DirWalk

def dirWalkSet (w : DirWalk) (recursive : Bool) (filterCb : Option (Path → FileInfo → Bool)) :
    DirWalk := { w with recursive, filterCb }

def dirWalkClose (w : DirWalk) : DirWalk :=
  { w with file := .closed, indexList := [], path := [], currentIndex := 0 }

/-- The path without its last slash and what follows it. -/
def upOne (path : Path) : Path :=
  match searchRchar path '/' with
  | some lastChar => left path lastChar
  | none => path

/-- Reads so many entries again: whether they were there, how many were, and the handle. -/
def rewind : Nat → Nat → DirHandle → Bool × Nat × DirHandle
  | 0, currentIndex, file => (true, currentIndex, file)
  | n + 1, currentIndex, file =>
    match storageDirRead 255 file with
    | (.entry _ _, file) => rewind n (currentIndex + 1) file
    | (_, file) => (false, currentIndex, file)

section Walk
variable (dirs : Dirs)

def dirWalkOpen (w : DirWalk) (path : Path) : DirWalk :=
  { w with path, currentIndex := 0, file := storageDirOpen dirs path }

def stepInto (w : DirWalk) (name : Path) : DirWalk :=
  { w with
    indexList := w.currentIndex :: w.indexList
    currentIndex := 0
    path := w.path ++ '/' :: name
    file := storageDirOpen dirs (w.path ++ '/' :: name) }

def stepOut (w : DirWalk) (index : Nat) (indexList : List Nat) : Bool × DirWalk :=
  let r := rewind index 0 (storageDirOpen dirs (upOne w.path))
  (r.1, { w with indexList, path := upOne w.path, currentIndex := r.2.1, file := r.2.2 })

def dirWalkRound (w : DirWalk) : DirWalk ⊕ (DirWalkResult × DirWalk) :=
  match storageDirRead 255 w.file with
  | (.entry name info, file) =>
    let read : DirWalk := { w with file, currentIndex := w.currentIndex + 1 }
    let next : DirWalk := if info.isDir && w.recursive then stepInto dirs read name else read
    if w.filter name info then .inr (.ok (w.path ++ '/' :: name) info, next) else .inl next
  | (.notExist, file) =>
    match w.indexList with
    | [] => .inr (.last, { w with file })
    | index :: indexList =>
      let r := stepOut dirs w index indexList
      if r.1 then .inl r.2 else .inr (.error, r.2)
  | (.error, file) => .inr (.error, { w with file })

def dirWalkRead (fuel : Nat) (w : DirWalk) : Option (DirWalkResult × DirWalk) :=
  loop (dirWalkRound dirs) fuel w

def dirWalkReads (fuel : Nat) : Nat → DirWalk → Option (List DirWalkResult)
  | 0, _ => some []
  | k + 1, w =>
    (dirWalkRead dirs fuel w).bind fun r => (dirWalkReads fuel k r.2).map (r.1 :: ·)

end Walk

/-- The entries of a directory and of those below it, each with the path of its directory. -/
def visits (recursive : Bool) (path : Path) : Contents → List (Path × Entry)
  | .nil => []
  | .file name size _ rest => (path, ⟨name, false, size⟩) :: visits recursive path rest
  | .dir name _ below rest =>
    (path, ⟨name, true, 0⟩) ::
      ((if recursive then visits recursive (path ++ '/' :: name) below else []) ++
        visits recursive path rest)

def resultOf (v : Path × Entry) : DirWalkResult := .ok (v.1 ++ '/' :: v.2.name) v.2.info

/-- The names can be read whole, and the directories that are stepped into can be opened. -/
def Readable (dirs : Dirs) (recursive : Bool) (path : Path) : Contents → Prop
  | .nil => True
  | .file name _ _ rest => name.length ≤ 254 ∧ Readable dirs recursive path rest
  | .dir name _ below rest =>
    name.length ≤ 254 ∧ '/' ∉ name ∧
      (recursive = true → dirs (path ++ '/' :: name) = some below.entries ∧
        Readable dirs recursive (path ++ '/' :: name) below) ∧
      Readable dirs recursive path rest

/-- A directory in which a walk is: its path, how many entries have been read, and what is left. -/
structure Level where
  path : Path
  index : Nat
  rest : Contents

/-- The level is what reading so many entries of its directory leaves. -/
structure Level.Here (dirs : Dirs) (recursive : Bool) (level : Level) : Prop where
  opens : ∃ done, done.length = level.index ∧ dirs level.path = some (done ++ level.rest.entries)
  readable : Readable dirs recursive level.path level.rest

def Inside (level parent : Level) : Prop :=
  ∃ name, '/' ∉ name ∧ level.path = parent.path ++ '/' :: name

/-- The walk stands in a level, with others behind it. -/
structure At (dirs : Dirs) (recursive : Bool) (filterCb : Option (Path → FileInfo → Bool))
    (levels : Level × List Level) (w : DirWalk) : Prop where
  file : w.file = .reading levels.1.rest.entries
  path : w.path = levels.1.path
  currentIndex : w.currentIndex = levels.1.index
  indexList : w.indexList = levels.2.map Level.index
  here : ∀ level ∈ levels.1 :: levels.2, level.Here dirs recursive
  chain : (levels.1 :: levels.2).IsChain Inside
  recursive : w.recursive = recursive
  filterCb : w.filterCb = filterCb

/-- What is still to be visited. -/
def todo (recursive : Bool) (levels : Level × List Level) : List (Path × Entry) :=
  (levels.1 :: levels.2).flatMap fun level => visits recursive level.path level.rest

/-- What is to be visited counts twice, since each visit can add a level. -/
def left2 (recursive : Bool) (levels : Level × List Level) : Nat :=
  2 * (todo recursive levels).length + levels.2.length

def accepts (filterCb : Option (Path → FileInfo → Bool)) (v : Path × Entry) : Bool :=
  match filterCb with
  | some filterCb => filterCb v.2.name v.2.info
  | none => true

section Round
variable {dirs : Dirs} {recursive : Bool} {filterCb : Option (Path → FileInfo → Bool)} {w : DirWalk}
  {level parent : Level} {up : List Level}

variable {levels : Level × List Level}

theorem At.filter_eq (h : At dirs recursive filterCb levels w)
    (path : Path) (e : Entry) : w.filter e.name e.info = accepts filterCb (path, e) := by
  rw [DirWalk.filter, h.filterCb]
  rfl

theorem rewind_done (done rest : List Entry) (currentIndex : Nat) :
    rewind done.length currentIndex (.reading (done ++ rest)) =
      (true, currentIndex + done.length, .reading rest) := by
  induction done generalizing currentIndex with
  | nil => rfl
  | cons e done ih =>
    rw [length_cons, cons_append, rewind, storageDirRead]
    dsimp only
    rw [ih, Nat.add_right_comm, Nat.add_assoc]

theorem upOne_child (path name : Path) (h : '/' ∉ name) : upOne (path ++ '/' :: name) = path := by
  rw [upOne, searchRchar, SplitLast.lastIndex?_split h]
  exact take_left

theorem round_last (h : At dirs recursive filterCb (level, []) w) (hnil : level.rest = .nil) :
    dirWalkRound dirs w = .inr (.last, w) := by
  have hfile := h.file
  have hindices := h.indexList
  rw [hnil] at hfile
  obtain ⟨file, path, indexList, currentIndex, recursive, filterCb⟩ := w
  obtain rfl : file = .reading [] := hfile
  obtain rfl : indexList = [] := hindices
  rfl

theorem round_out (h : At dirs recursive filterCb (level, parent :: up) w)
    (hnil : level.rest = .nil) :
    ∃ w', dirWalkRound dirs w = .inl w' ∧ At dirs recursive filterCb (parent, up) w' := by
  obtain ⟨⟨name, hslash, hpath⟩, hchain⟩ := isChain_cons_cons.mp h.chain
  obtain ⟨done, hlen, hopens⟩ := (h.here parent (mem_cons_of_mem _ mem_cons_self)).opens
  have hup : upOne w.path = parent.path := by
    rw [h.path, hpath]
    exact upOne_child parent.path name hslash
  have hrewind : rewind parent.index 0 (storageDirOpen dirs (upOne w.path)) =
      (true, parent.index, .reading parent.rest.entries) := by
    rw [hup, storageDirOpen, hopens, ← hlen]
    dsimp only
    rw [rewind_done, Nat.zero_add]
  refine ⟨(stepOut dirs w parent.index (up.map Level.index)).2, ?_, ?_⟩
  · have hread : storageDirRead 255 w.file = (.notExist, .reading []) := by
      rw [h.file, hnil]
      rfl
    rw [dirWalkRound, hread]
    dsimp only
    rw [h.indexList, map_cons]
    dsimp only
    rw [stepOut, hrewind]
    rfl
  · rw [stepOut, hrewind]
    exact ⟨rfl, hup, rfl, rfl, fun l hl => h.here l (mem_cons_of_mem _ hl), hchain,
      h.recursive, h.filterCb⟩

def readOne (w : DirWalk) (entries : List Entry) : DirWalk :=
  { w with file := .reading entries, currentIndex := w.currentIndex + 1 }

theorem round_read {e : Entry} {entries : List Entry} (hfile : w.file = .reading (e :: entries))
    (hshort : e.name.length ≤ 254) {next : DirWalk}
    (hnext : (if e.info.isDir && w.recursive then stepInto dirs (readOne w entries) e.name
      else readOne w entries) = next) :
    dirWalkRound dirs w =
      if w.filter e.name e.info then .inr (resultOf (w.path, e), next) else .inl next := by
  have hname : e.name.take (255 - 1) = e.name := take_of_length_le hshort
  rw [dirWalkRound, hfile, storageDirRead, hname, ← hnext]
  rfl

theorem isChain_replace {level' : Level} (h : (level :: up).IsChain Inside)
    (hpath : level'.path = level.path) : (level' :: up).IsChain Inside := by
  cases up with
  | nil => exact List.IsChain.singleton _
  | cons parent up =>
    obtain ⟨⟨name, hslash, hname⟩, hrest⟩ := isChain_cons_cons.mp h
    exact isChain_cons_cons.mpr ⟨⟨name, hslash, hpath.trans hname⟩, hrest⟩

theorem At.readOne {e : Entry} {rest : Contents} (h : At dirs recursive filterCb (level, up) w)
    (hentries : level.rest.entries = e :: rest.entries)
    (hrest : Readable dirs recursive level.path rest) :
    At dirs recursive filterCb (⟨level.path, level.index + 1, rest⟩, up)
      (readOne w rest.entries) := by
  obtain ⟨done, hlen, hopens⟩ := (h.here level mem_cons_self).opens
  have hhere : Level.Here dirs recursive ⟨level.path, level.index + 1, rest⟩ := by
    refine ⟨⟨done ++ [e], ?_, ?_⟩, hrest⟩
    · rw [length_append, hlen]
      rfl
    · rw [hopens, hentries, append_assoc]
      rfl
  exact ⟨rfl, h.path, congrArg (· + 1) h.currentIndex, h.indexList,
    forall_mem_cons.mpr ⟨hhere, fun l hl => h.here l (mem_cons_of_mem _ hl)⟩,
    isChain_replace h.chain rfl, h.recursive, h.filterCb⟩

theorem At.stepInto {name : Path} {below : Contents}
    (h : At dirs recursive filterCb (level, up) w) (hslash : '/' ∉ name)
    (hopens : dirs (level.path ++ '/' :: name) = some below.entries)
    (hbelow : Readable dirs recursive (level.path ++ '/' :: name) below) :
    At dirs recursive filterCb (⟨level.path ++ '/' :: name, 0, below⟩, level :: up)
      (stepInto dirs w name) := by
  have hpath : w.path ++ '/' :: name = level.path ++ '/' :: name := by rw [h.path]
  have hfile : storageDirOpen dirs (w.path ++ '/' :: name) = .reading below.entries := by
    rw [hpath, storageDirOpen, hopens]
  refine ⟨hfile, hpath, rfl, ?_, ?_, ?_, h.recursive, h.filterCb⟩
  · exact congrArg₂ _ h.currentIndex h.indexList
  · exact forall_mem_cons.mpr ⟨⟨⟨[], rfl, hopens⟩, hbelow⟩, h.here⟩
  · exact isChain_cons_cons.mpr ⟨⟨name, hslash, rfl⟩, h.chain⟩

theorem round_entry (h : At dirs recursive filterCb (level, up) w) (hrest : level.rest ≠ .nil) :
    ∃ e next levels', todo recursive (level, up) = (level.path, e) :: todo recursive levels' ∧
      levels'.2.length ≤ up.length + 1 ∧ At dirs recursive filterCb levels' next ∧
      dirWalkRound dirs w = if accepts filterCb (level.path, e)
        then .inr (resultOf (level.path, e), next) else .inl next := by
  obtain ⟨path, index, rest⟩ := level
  have hreadable := (h.here _ mem_cons_self).readable
  cases rest with
  | nil => exact absurd rfl hrest
  | file name size readOnly rest =>
    obtain ⟨hshort, hreadable⟩ := hreadable
    have hround := @round_read dirs _ _ _ h.file hshort _ rfl
    rw [h.path, h.filter_eq path] at hround
    exact ⟨_, _, (⟨path, index + 1, rest⟩, up), rfl, Nat.le_succ _, h.readOne rfl hreadable, hround⟩
  | dir name readOnly below rest =>
    obtain ⟨hshort, hslash, hbelow, hreadable⟩ := hreadable
    have hround := @round_read dirs _ _ _ h.file hshort _ rfl
    rw [h.path, h.filter_eq path] at hround
    have hread := h.readOne rfl hreadable
    cases recursive with
    | false =>
      refine ⟨_, _, (⟨path, index + 1, rest⟩, up), rfl, Nat.le_succ _, hread, ?_⟩
      rw [hround, h.recursive]
      rfl
    | true =>
      obtain ⟨hopens, hbelow⟩ := hbelow rfl
      refine ⟨⟨name, true, 0⟩, _,
        (⟨path ++ '/' :: name, 0, below⟩, ⟨path, index + 1, rest⟩ :: up), ?_,
        Nat.le_refl _, hread.stepInto hslash hopens hbelow, ?_⟩
      · simp only [todo, visits, flatMap_cons, if_true, cons_append, append_assoc]
      · rw [hround, h.recursive]
        rfl

theorem todo_of_nil (hnil : level.rest = .nil) : todo recursive (level, up) =
      up.flatMap fun level => visits recursive level.path level.rest := by
  rw [todo, flatMap_cons, hnil, visits, nil_append]

/-- What a call of `dir_walk_read` gives when so much is still to be visited, and where it leaves
the walk. -/
def ReadRight (dirs : Dirs) (recursive : Bool) (filterCb : Option (Path → FileInfo → Bool))
    (accepted : List (Path × Entry)) (r : DirWalkResult × DirWalk) : Prop :=
  ∃ levels, At dirs recursive filterCb levels r.2 ∧
    (todo recursive levels).filter (accepts filterCb) = accepted.tail ∧
    r.1 = (accepted.head?.map resultOf).getD .last

theorem dirWalkRead_right (h : At dirs recursive filterCb levels w) :
    ∃ r, Leaves (dirWalkRound dirs) w r ∧ ReadRight dirs recursive filterCb
      ((todo recursive levels).filter (accepts filterCb)) r := by
  generalize haccepted : (todo recursive levels).filter (accepts filterCb) = accepted
  refine Leaves.of_measure (I := fun levels w => At dirs recursive filterCb levels w ∧
    (todo recursive levels).filter (accepts filterCb) = accepted) (left2 recursive) ?_
    ⟨h, haccepted⟩
  rintro ⟨level, up⟩ w ⟨h, haccepted⟩
  by_cases hnil : level.rest = .nil
  · cases up with
    | nil =>
      rw [todo_of_nil hnil] at haccepted
      subst haccepted
      exact .inr ⟨_, round_last h hnil, (level, []), h, by rw [todo_of_nil hnil]; rfl, rfl⟩
    | cons parent up =>
      obtain ⟨w', hround, hat⟩ := round_out h hnil
      have htodo : todo recursive (level, parent :: up) = todo recursive (parent, up) :=
        todo_of_nil hnil
      refine .inl ⟨w', (parent, up), hround, ⟨hat, htodo ▸ haccepted⟩, ?_⟩
      rw [left2, left2, htodo]
      exact Nat.lt_succ_self _
  · obtain ⟨e, next, levels', htodo, hlen, hat, hround⟩ := round_entry h hnil
    rw [htodo, filter_cons] at haccepted
    cases haccept : accepts filterCb (level.path, e) with
    | true =>
      rw [if_pos haccept] at haccepted
      subst haccepted
      exact .inr ⟨_, hround.trans (if_pos haccept), levels', hat, rfl, rfl⟩
    | false =>
      have hno : ¬ accepts filterCb (level.path, e) = true := by
        rw [haccept]
        exact Bool.false_ne_true
      rw [if_neg hno] at haccepted
      refine .inl ⟨next, levels', hround.trans (if_neg hno), ⟨hat, haccepted⟩, ?_⟩
      rw [left2, left2, htodo, length_cons]
      dsimp only
      omega

/-- The results of so many calls: an entry each while there are any, and then the last one always.
-/
def resultsOf : List (Path × Entry) → Nat → List DirWalkResult
  | _, 0 => []
  | [], k + 1 => .last :: resultsOf [] k
  | v :: accepted, k + 1 => resultOf v :: resultsOf accepted k

theorem resultsOf_succ (accepted : List (Path × Entry)) (k : Nat) : resultsOf accepted (k + 1) =
      (accepted.head?.map resultOf).getD .last :: resultsOf accepted.tail k := by
  cases accepted <;> rfl

theorem dirWalkReads_right (h : At dirs recursive filterCb levels w)
    (k : Nat) : ∃ n, ∀ fuel, n ≤ fuel → dirWalkReads dirs fuel k w =
      some (resultsOf ((todo recursive levels).filter (accepts filterCb)) k) := by
  induction k generalizing w levels with
  | zero =>
    refine ⟨0, fun fuel _ => ?_⟩
    rw [resultsOf, dirWalkReads]
  | succ k ih =>
    obtain ⟨⟨result, next⟩, hleaves, levels', hat, htail, hresult⟩ := dirWalkRead_right h
    obtain ⟨n, hn⟩ := hleaves.fuel
    obtain ⟨n', hn'⟩ := ih hat
    refine ⟨max n n', fun fuel hfuel => ?_⟩
    have hread := hn fuel (Nat.le_trans (Nat.le_max_left _ _) hfuel)
    have hrest := hn' fuel (Nat.le_trans (Nat.le_max_right _ _) hfuel)
    rw [dirWalkReads, dirWalkRead, hread, Option.bind_some, hrest, htail, resultsOf_succ, ← hresult]
    rfl

end Round

section Tree
variable {ready : Bool} {appid : Path} {root : Contents} {recursive : Bool}

variable {d : Bool × Contents}

theorem exists_entry_of_subdir {c : Contents} {name : Path}
    (h : c.subdir name = some d) : ∃ e ∈ c.entries, caseEqual e.name name := by
  induction c with
  | nil => contradiction
  | file n size ro rest ih =>
    rw [Contents.subdir] at h
    split at h
    case isTrue => contradiction
    case isFalse =>
      obtain ⟨e, he, hsame⟩ := ih h
      exact ⟨e, mem_cons_of_mem _ he, hsame⟩
  | dir n ro below rest _ ih =>
    rw [Contents.subdir] at h
    split at h
    case isTrue hsame => exact ⟨_, mem_cons_self, hsame⟩
    case isFalse =>
      obtain ⟨e, he, hsame⟩ := ih h
      exact ⟨e, mem_cons_of_mem _ he, hsame⟩

theorem not_caseEqual_of_subdir {c : Contents} {name n : Path}
    (h : c.subdir name = some d) (hdistinct : ∀ e ∈ c.entries, ¬ caseEqual n e.name) :
    ¬ caseEqual n name := by
  obtain ⟨e, he, hsame⟩ := exists_entry_of_subdir h
  exact fun hn => hdistinct e he (Eq.trans hn (Eq.symm hsame))

theorem cardDirs_eq {path : Path} {names : List Path}
    (hnames : cardNames ready appid path = some names)
    (hd : Contents.follow names (false, root) = some d) :
    cardDirs ready appid root path = some d.2.entries := by
  rw [cardDirs, hnames, Option.bind_some, hd]
  rfl

theorem child_of_subdir {path name : Path} {names : List Path} {d b : Bool × Contents}
    (hnames : cardNames ready appid path = some names)
    (hd : Contents.follow names (false, root) = some d) (hsub : d.2.subdir name = some b)
    (hne : name ≠ []) (hslash : '/' ∉ name) :
    cardNames ready appid (path ++ '/' :: name) = some (names ++ [name]) ∧
      Contents.follow (names ++ [name]) (false, root) = some b := by
  refine ⟨cardNames_child hnames hne hslash, ?_⟩
  rw [Contents.follow_snoc, hd]
  exact hsub

theorem readable_of_tree (rest : Contents) {path : Path} {names : List Path}
    (hnames : cardNames ready appid path = some names)
    (hd : Contents.follow names (false, root) = some d)
    (hrest : ∀ name b, rest.subdir name = some b → d.2.subdir name = some b) (hvalid : rest.Valid)
    (hshort : ∀ v ∈ visits recursive path rest, v.2.name.length ≤ 254) :
    Readable (cardDirs ready appid root) recursive path rest := by
  induction rest generalizing path names d with
  | nil => trivial
  | file n size ro rest ih =>
    obtain ⟨-, hdistinct, hvalid⟩ := hvalid
    refine ⟨hshort _ mem_cons_self, ih hnames hd (fun name b hb => hrest name b ?_) hvalid
      fun v hv => hshort v (mem_cons_of_mem _ hv)⟩
    rw [Contents.subdir, if_neg (not_caseEqual_of_subdir hb hdistinct)]
    exact hb
  | dir n ro below rest ihBelow ih =>
    obtain ⟨⟨hne, hslash, -⟩, hdistinct, hbelow, hvalid⟩ := hvalid
    refine ⟨hshort _ mem_cons_self, hslash, fun hrec => ?_,
      ih hnames hd (fun name b hb => hrest name b ?_) hvalid fun v hv => hshort v ?_⟩
    · have hsub := hrest n (ro, below) (if_pos rfl)
      obtain ⟨hchildNames, hchild⟩ := child_of_subdir hnames hd hsub hne hslash
      refine ⟨cardDirs_eq hchildNames hchild, ihBelow hchildNames hchild (fun _ _ h => h) hbelow
        fun v hv => hshort v ?_⟩
      refine mem_cons_of_mem _ (mem_append_left _ ?_)
      rw [if_pos hrec]
      exact hv
    · rw [Contents.subdir, if_neg (not_caseEqual_of_subdir hb hdistinct)]
      exact hb
    · exact mem_cons_of_mem _ (mem_append_right _ hv)

end Tree

def fullPath (v : Path × Entry) : Path := v.1 ++ '/' :: v.2.name

/-- The directories that can be reached from one through their entries. -/
inductive Reached (dirs : Dirs) (path : Path) : Path → Prop
  | start : Reached dirs path path
  | step {q : Path} {entries : List Entry} {e : Entry} (h : Reached dirs path q)
      (hopens : dirs q = some entries) (he : e ∈ entries) (hdir : e.info.isDir = true) :
      Reached dirs path (q ++ '/' :: e.name)

section Visits
variable {dirs : Dirs} {path : Path} {c : Contents}

theorem visits_entries (recursive : Bool) {e : Entry} (h : e ∈ c.entries) :
    (path, e) ∈ visits recursive path c := by
  induction c with
  | nil => contradiction
  | file n size ro rest ih =>
    obtain rfl | h := mem_cons.mp h
    · exact mem_cons_self
    · exact mem_cons_of_mem _ (ih h)
  | dir n ro below rest _ ih =>
    obtain rfl | h := mem_cons.mp h
    · exact mem_cons_self
    · exact mem_cons_of_mem _ (mem_append_right _ (ih h))

theorem visits_top (path : Path) (c : Contents) :
    visits false path c = c.entries.map fun e => (path, e) := by
  induction c with
  | nil => rfl
  | file n size ro rest ih => exact congrArg _ ih
  | dir n ro below rest _ ih => exact congrArg _ ih

theorem visits_step (h : Readable dirs true path c) {v : Path × Entry}
    (hv : v ∈ visits true path c) (hdir : v.2.info.isDir = true) {entries : List Entry}
    (hopens : dirs (fullPath v) = some entries) {e : Entry} (he : e ∈ entries) :
    (fullPath v, e) ∈ visits true path c := by
  induction c generalizing path with
  | nil => contradiction
  | file n size ro rest ih =>
    obtain rfl | hv := mem_cons.mp hv
    · contradiction
    · exact mem_cons_of_mem _ (ih h.2 hv)
  | dir n ro below rest ihBelow ih =>
    obtain ⟨-, -, hbelow, hrest⟩ := h
    obtain ⟨hbelowOpens, hbelow⟩ := hbelow rfl
    obtain rfl | hv := mem_cons.mp hv
    · obtain rfl := Option.some.inj (hopens.symm.trans hbelowOpens)
      exact mem_cons_of_mem _ (mem_append_left _ (visits_entries true he))
    · obtain hv | hv := mem_append.mp hv
      · exact mem_cons_of_mem _ (mem_append_left _ (ihBelow hbelow hv))
      · exact mem_cons_of_mem _ (mem_append_right _ (ih hrest hv))

theorem reached_of_visits (h : Readable dirs true path c) {start : Path} {done : List Entry}
    (hopens : dirs path = some (done ++ c.entries)) (hstart : Reached dirs start path)
    {v : Path × Entry} (hv : v ∈ visits true path c) :
    Reached dirs start v.1 ∧ ∃ entries, dirs v.1 = some entries ∧ v.2 ∈ entries := by
  induction c generalizing path done with
  | nil => contradiction
  | file n size ro rest ih =>
    obtain rfl | hv := mem_cons.mp hv
    · exact ⟨hstart, _, hopens, mem_append_right _ mem_cons_self⟩
    · rw [Contents.entries, append_cons] at hopens
      exact ih h.2 hopens hstart hv
  | dir n ro below rest ihBelow ih =>
    obtain ⟨-, -, hbelow, hrest⟩ := h
    obtain ⟨hbelowOpens, hbelow⟩ := hbelow rfl
    have hmem : (⟨n, true, 0⟩ : Entry) ∈ done ++ (Contents.dir n ro below rest).entries :=
      mem_append_right _ mem_cons_self
    obtain rfl | hv := mem_cons.mp hv
    · exact ⟨hstart, _, hopens, hmem⟩
    · obtain hv | hv := mem_append.mp hv
      · exact @ihBelow _ hbelow [] hbelowOpens (hstart.step hopens hmem rfl) hv
      · rw [Contents.entries, append_cons] at hopens
        exact ih hrest hopens hstart hv

theorem mem_visits_iff (h : Readable dirs true path c) (hopens : dirs path = some c.entries)
    (v : Path × Entry) : v ∈ visits true path c ↔
      Reached dirs path v.1 ∧ ∃ entries, dirs v.1 = some entries ∧ v.2 ∈ entries := by
  obtain ⟨q, e⟩ := v
  constructor
  · exact @reached_of_visits dirs path c h path [] hopens .start (q, e)
  · rintro ⟨hreached, entries, hentries, hmem⟩
    dsimp only at hreached hentries hmem
    induction hreached generalizing entries e with
    | start =>
      obtain rfl := Option.some.inj (hentries.symm.trans hopens)
      exact visits_entries true hmem
    | @step q entries' e' _ hopens' he' hdir ih =>
      exact visits_step h (ih e' entries' hopens' he') hdir hentries hmem

theorem front_of_visits {recursive : Bool} {v : Path × Entry} (hv : v ∈ visits recursive path c) :
    ∃ e ∈ c.entries, ∃ t, fullPath v = path ++ '/' :: (e.name ++ t) ∧ ∀ x ∈ t.head?, x = '/' := by
  induction c generalizing path with
  | nil => contradiction
  | file n size ro rest ih =>
    obtain rfl | hv := mem_cons.mp hv
    · refine ⟨_, mem_cons_self, [], ?_, fun x hx => by contradiction⟩
      rw [append_nil]
      rfl
    · obtain ⟨e, he, hpath⟩ := ih hv
      exact ⟨e, mem_cons_of_mem _ he, hpath⟩
  | dir n ro below rest ihBelow ih =>
    obtain rfl | hv := mem_cons.mp hv
    · refine ⟨_, mem_cons_self, [], ?_, fun x hx => by contradiction⟩
      rw [append_nil]
      rfl
    · obtain hv | hv := mem_append.mp hv
      · cases recursive with
        | false => contradiction
        | true =>
          obtain ⟨e, he, t, hpath, -⟩ := ihBelow hv
          refine ⟨_, mem_cons_self, '/' :: (e.name ++ t), ?_, fun x hx => ?_⟩
          · rw [hpath, append_assoc]
            rfl
          · exact (Option.some.inj hx).symm
      · obtain ⟨e, he, hpath⟩ := ih hv
        exact ⟨e, mem_cons_of_mem _ he, hpath⟩

theorem no_slash_of_valid (h : c.Valid) : ∀ e ∈ c.entries, '/' ∉ e.name := by
  induction c with
  | nil => exact fun e he => by contradiction
  | file n size ro rest ih => exact forall_mem_cons.mpr ⟨h.1.2.1, ih h.2.2⟩
  | dir n ro below rest _ ih => exact forall_mem_cons.mpr ⟨h.1.2.1, ih h.2.2.2⟩

theorem first_name_eq {a b s t : Path} (ha : '/' ∉ a) (hb : '/' ∉ b)
    (hs : ∀ x ∈ s.head?, x = '/') (ht : ∀ x ∈ t.head?, x = '/') (h : a ++ s = b ++ t) : a = b := by
  have htake : ∀ {a s : Path}, '/' ∉ a → (∀ x ∈ s.head?, x = '/') →
      (a ++ s).takeWhile (· ≠ '/') = a := by
    intro a s ha hs
    rw [takeWhile_append_of_pos fun x hx => decide_eq_true (ne_of_mem_of_not_mem hx ha)]
    cases s with
    | nil => rw [takeWhile_nil, append_nil]
    | cons x s =>
      rw [hs x rfl]
      exact append_nil a
  rw [← htake ha hs, h, htake hb ht]

theorem nodup_visits (recursive : Bool) (h : c.Valid) :
    ((visits recursive path c).map fullPath).Nodup := by
  -- what begins with one name is not what is visited behind it
  have hbehind : ∀ {n s : Path} {rest : Contents} {path : Path}, '/' ∉ n → rest.Valid →
      (∀ e ∈ rest.entries, ¬ caseEqual n e.name) → (∀ x ∈ s.head?, x = '/') →
      path ++ '/' :: (n ++ s) ∉ (visits recursive path rest).map fullPath := by
    intro n s rest path hslash hvalid hdistinct hs hmem
    obtain ⟨v, hv, heq⟩ := mem_map.mp hmem
    obtain ⟨e, he, t, hpath, ht⟩ := front_of_visits hv
    have hnames := (List.cons.inj (append_cancel_left (heq.symm.trans hpath))).2
    have hname := first_name_eq hslash (no_slash_of_valid hvalid e he) hs ht hnames
    exact hdistinct e he (congrArg _ hname)
  induction c generalizing path with
  | nil => exact nodup_nil
  | file n size ro rest ih =>
    obtain ⟨⟨-, hslash, -⟩, hdistinct, hrest⟩ := h
    refine nodup_cons.mpr ⟨?_, ih hrest⟩
    have hhead := @hbehind n [] rest path hslash hrest hdistinct fun x hx => by contradiction
    rwa [append_nil] at hhead
  | dir n ro below rest ihBelow ih =>
    obtain ⟨⟨-, hslash, -⟩, hdistinct, hbelow, hrest⟩ := h
    rw [visits, map_cons, map_append, nodup_cons, nodup_append, mem_append]
    cases recursive with
    | false =>
      refine ⟨?_, nodup_nil, ih hrest, fun x hx => by contradiction⟩
      rintro (hmem | hmem)
      · contradiction
      · have hhead := @hbehind n [] rest path hslash hrest hdistinct fun x hx => by contradiction
        rw [append_nil] at hhead
        exact hhead hmem
    | true =>
      refine ⟨?_, ihBelow hbelow, ih hrest, ?_⟩
      · rintro (hmem | hmem)
        · obtain ⟨v, hv, heq⟩ := mem_map.mp hmem
          obtain ⟨e, -, t, hpath, -⟩ := front_of_visits hv
          have hlen := congrArg List.length (heq.symm.trans hpath)
          rw [fullPath, length_append, length_cons, length_append] at hlen
          simp only [length_append, length_cons] at hlen
          omega
        · have hhead := @hbehind n [] rest path hslash hrest hdistinct fun x hx => by contradiction
          rw [append_nil] at hhead
          exact hhead hmem
      · rintro x hx y hy rfl
        obtain ⟨v, hv, rfl⟩ := mem_map.mp hx
        obtain ⟨e, -, t, hpath, -⟩ := front_of_visits hv
        refine @hbehind n ('/' :: (e.name ++ t)) rest path hslash hrest hdistinct
          (fun x hx => (Option.some.inj hx).symm) ?_
        rw [hpath, append_assoc] at hy
        exact hy

end Visits
end NikitaFirmware.Storage
