import NikitaFirmware.Storage.DirWalk

/-!
# Removing a directory tree

`storage_simply_remove_recursive` in `storage_external_api.c`: the files of a directory go first,
the search for a directory begins anew each time, and a directory goes when nothing is left in it.
-/

namespace NikitaFirmware.Storage

open Foundations Toolbox.Path List Contents

section Remove
variable (ready : Bool) (appid : Path)

/-- The path under which a directory stands in the list of open files. -/
def openedAs (path : Path) : Option Path := (getData ready (processAlias appid path)).toOption

def storageCommonRemove (opened : Option Path) (root : Contents) (path : Path) :
    Except FsError Contents :=
  match getData ready (processAlias appid path) with
  | .error error => .error error
  | .ok path =>
    if opened = some path then .error .alreadyOpen
    else match followPath (path.drop 4) with
      | none => .error .invalidName
      | some names => unlink names root

/-- What the entries of a directory lead to. -/
inductive FilesRemoved
  | done (root : Contents)
  | deeper (root : Contents) (name : Path)
  | checkFailed

/-- Removes the files of a directory up to the first directory in it. -/
def removeFiles (curDir : Path) : List Entry → Contents → FilesRemoved
  | [], root => .done root
  | e :: entries, root =>
    let name := e.name.take 255
    if e.info.isDir then .deeper root name
    else match storageCommonRemove ready appid (openedAs ready appid curDir) root
        (curDir ++ '/' :: name) with
      | .error _ => .checkFailed
      | .ok root => removeFiles curDir entries root

/-- What the function returns, and what is left on the card; or a check in it fails. -/
inductive RemoveResult
  | returned (result : Bool) (root : Contents)
  | checkFailed

/-- One round of the loop, on the card and the current directory. -/
def removeRound (path : Path) (s : Contents × Path) : (Contents × Path) ⊕ RemoveResult :=
  match cardDirs ready appid s.1 s.2 with
  | none => .inr (.returned false s.1)
  | some entries =>
    match removeFiles ready appid s.2 entries s.1 with
    | .checkFailed => .inr .checkFailed
    | .deeper root name => .inl (root, s.2 ++ '/' :: name)
    | .done root =>
      match storageCommonRemove ready appid none root s.2 with
      | .error _ => .inr .checkFailed
      | .ok root =>
        if s.2 = path then .inr (.returned true root)
        else match searchRchar s.2 '/' with
          | none => .inr .checkFailed
          | some lastChar => .inl (root, left s.2 lastChar)

def storageSimplyRemoveRecursive (fuel : Nat) (root : Contents) (path : Path) :
    Option RemoveResult :=
  match storageCommonRemove ready appid none root path with
  | .ok root => some (.returned true root)
  | .error .notExist => some (.returned true root)
  | .error _ => loop (removeRound ready appid path) fuel (root, path)

end Remove

section Tree
variable {ready : Bool} {appid path q : Path} {root c : Contents} {names : List Path}
  {readOnly : Bool}

theorem storageCommonRemove_eq (h : cardNames ready appid path = some names) :
    storageCommonRemove ready appid none root path = unlink names root := by
  rw [cardNames] at h
  rw [storageCommonRemove]
  cases hr : getData ready (processAlias appid path) with
  | error error =>
    rw [hr] at h
    contradiction
  | ok r =>
    rw [hr] at h
    change followPath (r.drop 4) = some names at h
    refine (if_neg (Option.some_ne_none r).symm).trans ?_
    rw [h]

theorem storageCommonRemove_file {name : Path} (h : cardNames ready appid path = some names)
    (hne : name ≠ []) (hslash : '/' ∉ name) :
    storageCommonRemove ready appid (openedAs ready appid path) root (path ++ '/' :: name) =
      unlink (names ++ [name]) root := by
  have hchild := cardNames_child h hne hslash
  rw [cardNames] at h hchild
  rw [storageCommonRemove, openedAs]
  split at h
  case h_1 => contradiction
  case h_2 r hr =>
    obtain ⟨happend, -⟩ :=
      getData_processAlias_append hr (show ('/' :: name).head? = some '/' from rfl)
    rw [happend] at hchild ⊢
    rw [hr]
    dsimp only at hchild ⊢
    have hlonger : (Except.ok r : Except FsError Path).toOption ≠ some (r ++ '/' :: name) := by
      intro heq
      have hlen := congrArg length (Option.some.inj heq)
      rw [length_append, length_cons] at hlen
      omega
    rw [if_neg hlonger, hchild]

theorem removeRound_file {name : Path} {size : Nat} {rest : Contents}
    (hnames : cardNames ready appid q = some names)
    (hdir : follow names (false, root) = some (readOnly, .file name size false rest))
    (hvalid : (file name size false rest).Valid) :
    removeRound ready appid path (root, q) =
      removeRound ready appid path (update names (fun _ => rest) root, q) := by
  obtain ⟨⟨hne, hslash, hlen⟩, -, -⟩ := hvalid
  have hremove : storageCommonRemove ready appid (openedAs ready appid q) root (q ++ '/' :: name) =
      .ok (update names (fun _ => rest) root) := by
    rw [storageCommonRemove_file hnames hne hslash]
    exact unlink_snoc hdir (if_pos rfl)
  have hafter := cardDirs_eq hnames (follow_update hdir fun _ => rest)
  have hname : name.take 255 = name := take_of_length_le hlen
  rw [removeRound, removeRound, hafter, cardDirs_eq hnames hdir]
  dsimp only
  rw [entries, removeFiles]
  dsimp only
  rw [hname, hremove]
  rfl

theorem removeRound_dir {name : Path} {below rest : Contents} {ro : Bool}
    (hnames : cardNames ready appid q = some names)
    (hdir : follow names (false, root) = some (readOnly, .dir name ro below rest))
    (hvalid : (dir name ro below rest).Valid) :
    removeRound ready appid path (root, q) = .inl (root, q ++ '/' :: name) := by
  have hname : name.take 255 = name := take_of_length_le hvalid.1.2.2
  rw [removeRound, cardDirs_eq hnames hdir]
  dsimp only
  rw [entries, removeFiles]
  dsimp only
  rw [hname]
  rfl

/-- Where the loop is when a directory has been removed. -/
def Behind (ready : Bool) (appid path q : Path) (root : Contents) (r : RemoveResult) : Prop :=
  (q = path ∧ r = .returned true root) ∨ (q ≠ path ∧ ∃ parent name, q = parent ++ '/' :: name ∧
    '/' ∉ name ∧ Leaves (removeRound ready appid path) (root, parent) r)

theorem leaves_empty {r : RemoveResult} (hnames : cardNames ready appid q = some names)
    (hne : names ≠ []) (hdir : follow names (false, root) = some (false, .nil))
    (hbehind : Behind ready appid path q (erase names root) r) :
    Leaves (removeRound ready appid path) (root, q) r := by
  have hremove : storageCommonRemove ready appid none root q = .ok (erase names root) :=
    (storageCommonRemove_eq hnames).trans (unlink_empty hne hdir)
  have hround : removeRound ready appid path (root, q) =
      if q = path then .inr (.returned true (erase names root))
      else match searchRchar q '/' with
        | none => .inr .checkFailed
        | some lastChar => .inl (erase names root, left q lastChar) := by
    rw [removeRound, cardDirs_eq hnames hdir]
    dsimp only
    rw [entries, removeFiles]
    dsimp only
    rw [hremove]
  obtain ⟨hq, rfl⟩ | ⟨hq, parent, name, rfl, hslash, hleaves⟩ := hbehind
  · exact .leave (hround.trans (if_pos hq))
  · refine .again (hround.trans ((if_neg hq).trans ?_)) hleaves
    rw [searchRchar, SplitLast.lastIndex?_split hslash]
    exact congrArg (fun parent => Sum.inl (_, parent)) take_left

/-- Induction of the removal: a writable directory goes with all its entries, and the rest of the
card is as before. -/
theorem leaves_of_behind (c : Contents) {q : Path} {root : Contents} {names : List Path}
    {r : RemoveResult} (hnames : cardNames ready appid q = some names) (hne : names ≠ [])
    (hdir : follow names (false, root) = some (false, c)) (hvalid : c.Valid)
    (hwritable : c.Writable) (hlen : path.length ≤ q.length)
    (hbehind : Behind ready appid path q (erase names root) r) :
    Leaves (removeRound ready appid path) (root, q) r := by
  induction c generalizing q root names r with
  | nil => exact leaves_empty hnames hne hdir hbehind
  | file name size ro rest ih =>
    obtain ⟨rfl, hwritable⟩ := hwritable
    refine .congr (removeRound_file hnames hdir hvalid) ?_
    refine ih hnames hne (follow_update hdir fun _ => rest) hvalid.2.2 hwritable hlen ?_
    rw [erase_update hne]
    exact hbehind
  | dir name ro below rest ihBelow ih =>
    obtain ⟨rfl, hbelowWritable, hwritable⟩ := hwritable
    obtain ⟨⟨hname, hslash, -⟩, -, hbelowValid, hrestValid⟩ := id hvalid
    obtain ⟨hchildNames, hchild⟩ := child_of_subdir hnames hdir (if_pos rfl) hname hslash
    have hlonger : path.length < (q ++ '/' :: name).length := by
      rw [length_append, length_cons]
      omega
    refine .again (removeRound_dir hnames hdir hvalid) ?_
    refine ihBelow hchildNames (append_ne_nil_of_right_ne_nil _ (cons_ne_nil _ _)) hchild
      hbelowValid hbelowWritable (Nat.le_of_lt hlonger)
      (.inr ⟨fun heq => ?_, q, name, rfl, hslash, ?_⟩)
    · rw [heq] at hlonger
      exact Nat.lt_irrefl _ hlonger
    · -- the directory is there without the one that was removed
      have hrest := follow_update hdir (eraseEntry name)
      have herase : eraseEntry name (.dir name false below rest) = rest := if_pos rfl
      rw [herase] at hrest
      rw [erase_snoc]
      refine ih hnames hne hrest hrestValid hwritable hlen ?_
      rw [erase_update hne]
      exact hbehind

/-- A directory that is read only, or the root, is not removed once it is empty. -/
theorem unlink_refuses (hdir : follow names (false, root) = some (readOnly, c))
    (hbad : ¬ (names ≠ [] ∧ readOnly = false)) :
    ∃ error, unlink names root = .error error ∧ error ≠ .notExist := by
  by_cases hnil : names = []
  · subst hnil
    exact ⟨.invalidName, rfl, nofun⟩
  · have hro : readOnly = true := Bool.of_not_eq_false fun hro => hbad ⟨hnil, hro⟩
    exact ⟨.denied, unlink_denied hnil hdir (.inl hro), nofun⟩

theorem leaves_checkFailed (c : Contents) {q : Path} {root : Contents} {names : List Path}
    {readOnly : Bool} (hnames : cardNames ready appid q = some names)
    (hdir : follow names (false, root) = some (readOnly, c)) (hvalid : c.Valid)
    (hbad : ¬ (names ≠ [] ∧ readOnly = false ∧ c.Writable)) (hlen : path.length ≤ q.length) :
    Leaves (removeRound ready appid path) (root, q) .checkFailed := by
  induction c generalizing q root names readOnly with
  | nil =>
    obtain ⟨error, herror, -⟩ := unlink_refuses hdir fun h => hbad ⟨h.1, h.2, trivial⟩
    refine .leave ?_
    rw [removeRound, cardDirs_eq hnames hdir]
    dsimp only
    rw [entries, removeFiles]
    dsimp only
    rw [storageCommonRemove_eq hnames, herror]
  | file name size ro rest ih =>
    cases ro with
    | true =>
      obtain ⟨⟨hne, hslash, hshort⟩, -, -⟩ := hvalid
      have hname : name.take 255 = name := take_of_length_le hshort
      refine .leave ?_
      rw [removeRound, cardDirs_eq hnames hdir]
      dsimp only
      rw [entries, removeFiles]
      dsimp only
      rw [hname, storageCommonRemove_file hnames hne hslash, unlink_snoc_error hdir (if_pos rfl)]
      rfl
    | false =>
      refine .congr (removeRound_file hnames hdir hvalid) ?_
      refine ih hnames (follow_update hdir fun _ => rest) hvalid.2.2 (fun h => hbad ?_) hlen
      exact ⟨h.1, h.2.1, rfl, h.2.2⟩
  | dir name ro below rest ihBelow ih =>
    obtain ⟨⟨hname, hslash, -⟩, -, hbelowValid, hrestValid⟩ := id hvalid
    obtain ⟨hchildNames, hchild⟩ := child_of_subdir hnames hdir (if_pos rfl) hname hslash
    have hlonger : path.length < (q ++ '/' :: name).length := by
      rw [length_append, length_cons]
      omega
    refine .again (removeRound_dir hnames hdir hvalid) ?_
    have hnonempty : names ++ [name] ≠ [] := append_ne_nil_of_right_ne_nil _ (cons_ne_nil _ _)
    by_cases hbelow : ro = false ∧ below.Writable
    · -- this directory goes, and what is refused is behind it
      obtain ⟨rfl, hwritable⟩ := hbelow
      refine leaves_of_behind below hchildNames hnonempty hchild hbelowValid hwritable
        (Nat.le_of_lt hlonger) (.inr ⟨?_, q, name, rfl, hslash, ?_⟩)
      · rintro rfl
        exact Nat.lt_irrefl _ hlonger
      · have hrest := follow_update hdir (eraseEntry name)
        have herase : eraseEntry name (.dir name false below rest) = rest := if_pos rfl
        rw [herase] at hrest
        rw [erase_snoc]
        exact ih hnames hrest hrestValid (fun h => hbad ⟨h.1, h.2.1, rfl, hwritable, h.2.2⟩) hlen
    · exact ihBelow hchildNames hchild hbelowValid (fun h => hbelow h.2) (Nat.le_of_lt hlonger)

theorem storageSimplyRemoveRecursive_refuses (hnames : cardNames ready appid path = some names)
    (hdir : follow names (false, root) = some (readOnly, c)) (hvalid : c.Valid)
    (hbad : ¬ (names ≠ [] ∧ readOnly = false ∧ c.Writable)) : ∃ n, ∀ fuel, n ≤ fuel →
      storageSimplyRemoveRecursive ready appid fuel root path = some .checkFailed := by
  obtain ⟨n, hn⟩ := (leaves_checkFailed c hnames hdir hvalid hbad (Nat.le_refl _)).fuel
  obtain ⟨error, herror, hexists⟩ : ∃ error, unlink names root = .error error ∧
      error ≠ .notExist := by
    by_cases hgood : names ≠ [] ∧ readOnly = false
    · refine ⟨.denied, unlink_denied hgood.1 hdir (.inr ?_), nofun⟩
      rintro rfl
      exact hbad ⟨hgood.1, hgood.2, trivial⟩
    · exact unlink_refuses hdir hgood
  refine ⟨n, fun fuel hfuel => ?_⟩
  rw [storageSimplyRemoveRecursive, storageCommonRemove_eq hnames, herror]
  cases error with
  | notExist => exact absurd rfl hexists
  | _ => exact hn fuel hfuel

theorem storageSimplyRemoveRecursive_removes (hnames : cardNames ready appid path = some names)
    (hne : names ≠ []) (hdir : follow names (false, root) = some (false, c))
    (hvalid : c.Valid) (hwritable : c.Writable) : ∃ n, ∀ fuel, n ≤ fuel →
      storageSimplyRemoveRecursive ready appid fuel root path =
        some (.returned true (erase names root)) := by
  by_cases hnil : c = .nil
  · refine ⟨0, fun fuel _ => ?_⟩
    subst hnil
    rw [storageSimplyRemoveRecursive, storageCommonRemove_eq hnames, unlink_empty hne hdir]
  · obtain ⟨n, hn⟩ := (leaves_of_behind c hnames hne hdir hvalid hwritable (Nat.le_refl _)
      (.inl ⟨rfl, rfl⟩)).fuel
    refine ⟨n, fun fuel hfuel => ?_⟩
    rw [storageSimplyRemoveRecursive, storageCommonRemove_eq hnames,
      unlink_denied hne hdir (.inr hnil)]
    exact hn fuel hfuel

end Tree

/-- What is visited with all levels or with the top one only. -/
def Listed (dirs : Dirs) (recursive : Bool) (path : Path) (c : Contents) (v : Path × Entry) :
    Prop :=
  if recursive then Reached dirs path v.1 ∧ ∃ entries, dirs v.1 = some entries ∧ v.2 ∈ entries
  else v.1 = path ∧ v.2 ∈ c.entries

/-- What a walk of a directory is to give: every entry below it once, and after a walk was closed
wherever it was, the entries that the filter accepts and then that there is none. -/
structure WalksRight (dirs : Dirs) (recursive : Bool) (path : Path) (c : Contents) : Prop where
  below : ∀ v, v ∈ visits recursive path c ↔ Listed dirs recursive path c v
  once : ((visits recursive path c).map fullPath).Nodup
  reads : ∀ (filterCb : Option (Path → FileInfo → Bool)) (w : DirWalk) (k : Nat), ∃ n, ∀ fuel,
    n ≤ fuel → dirWalkReads dirs fuel k
        (dirWalkOpen dirs (dirWalkSet (dirWalkClose w) recursive filterCb) path) =
      some (resultsOf ((visits recursive path c).filter (accepts filterCb)) k)

section Tree
variable {ready : Bool} {appid path : Path} {root c : Contents} {names : List Path}
  {readOnly : Bool}

theorem walksRight_of_short (hnames : cardNames ready appid path = some names)
    (hdir : follow names (false, root) = some (readOnly, c)) (hvalid : c.Valid)
    {recursive : Bool} (hshort : ∀ v ∈ visits recursive path c, v.2.name.length ≤ 254) :
    WalksRight (cardDirs ready appid root) recursive path c := by
  have hreadable := readable_of_tree c hnames hdir (fun _ _ h => h) hvalid hshort
  have hopens := cardDirs_eq hnames hdir
  refine ⟨fun v => ?_, nodup_visits recursive hvalid, fun filterCb w k => ?_⟩
  · cases recursive with
    | true => exact mem_visits_iff hreadable hopens v
    | false =>
      rw [visits_top, mem_map, Listed, if_neg Bool.false_ne_true]
      constructor
      · rintro ⟨e, he, rfl⟩
        exact ⟨rfl, he⟩
      · rintro ⟨hpath, he⟩
        exact ⟨v.2, he, Prod.ext hpath.symm rfl⟩
  · have hat : At (cardDirs ready appid root) recursive filterCb (⟨path, 0, c⟩, [])
        (dirWalkOpen (cardDirs ready appid root)
          (dirWalkSet (dirWalkClose w) recursive filterCb) path) := by
      refine ⟨?_, rfl, rfl, rfl, ?_, List.IsChain.singleton _, rfl, rfl⟩
      · rw [dirWalkOpen, storageDirOpen, hopens]
      · intro level hlevel
        obtain rfl := mem_singleton.mp hlevel
        exact ⟨⟨[], rfl, hopens⟩, hreadable⟩
    obtain ⟨n, hn⟩ := dirWalkReads_right hat k
    refine ⟨n, fun fuel hfuel => ?_⟩
    rw [hn fuel hfuel, todo, flatMap_singleton]

/-- A directory tree on the card is walked right if no name in it that is visited fills the buffer,
and is removed, and nothing else, exactly if it is not the root and nothing of it is read only. -/
theorem directoryTree (ready : Bool) (appid path : Path) (root c : Contents) (names : List Path)
    (readOnly : Bool) (hnames : cardNames ready appid path = some names)
    (hdir : follow names (false, root) = some (readOnly, c)) (hvalid : c.Valid) :
    (∀ recursive, (∀ v ∈ visits recursive path c, v.2.name.length ≤ 254) →
      WalksRight (cardDirs ready appid root) recursive path c) ∧
    ((∃ n, ∀ fuel, n ≤ fuel → storageSimplyRemoveRecursive ready appid fuel root path =
        some (.returned true (erase names root))) ↔
      names ≠ [] ∧ readOnly = false ∧ c.Writable) := by
  refine ⟨fun recursive hshort => walksRight_of_short hnames hdir hvalid hshort, ?_, ?_⟩
  · rintro ⟨n, hn⟩
    by_contra hbad
    obtain ⟨m, hm⟩ := storageSimplyRemoveRecursive_refuses hnames hdir hvalid hbad
    have hboth := (hn _ (Nat.le_max_left n m)).symm.trans (hm _ (Nat.le_max_right n m))
    cases hboth
  · rintro ⟨hne, rfl, hwritable⟩
    exact storageSimplyRemoveRecursive_removes hnames hne hdir hvalid hwritable

end Tree

/-- A directory of two levels beside a file. -/
def twoLevels : Contents :=
  .file "b".toList 1 false
    (.dir "c".toList false (.file "b".toList 2 false (.dir "d".toList false .nil .nil))
      (.file "e".toList 0 false .nil))

theorem directoryTree_twoLevels :
    WalksRight (cardDirs true "app".toList (.dir "a".toList false twoLevels
        (.file "k".toList 3 true .nil))) true "/ext/a".toList twoLevels ∧
      ∃ n, ∀ fuel, n ≤ fuel → storageSimplyRemoveRecursive true "app".toList fuel
          (.dir "a".toList false twoLevels (.file "k".toList 3 true .nil)) "/ext/a".toList =
        some (.returned true (.file "k".toList 3 true .nil)) := by
  have hvalid : twoLevels.Valid := ⟨by decide, by decide, by decide, by decide,
    ⟨by decide, by decide, by decide, by decide, trivial, trivial⟩, by decide, by decide, trivial⟩
  have htree := directoryTree true "app".toList "/ext/a".toList
    (.dir "a".toList false twoLevels (.file "k".toList 3 true .nil)) twoLevels ["a".toList] false
    (by decide) rfl hvalid
  exact ⟨htree.1 true (by decide), htree.2.mpr ⟨cons_ne_nil _ _, rfl, rfl, rfl, ⟨rfl, rfl, trivial,
    trivial⟩, rfl, trivial⟩⟩

/-- A card with one directory, which holds one file. -/
def oneFile (name : Path) : Contents := .dir "a".toList false (.file name 1 false .nil) .nil

/-- A name of 255 letters loses its last one. -/
theorem not_walksRight_long : ¬ WalksRight
    (cardDirs true "app".toList (oneFile (replicate 255 'b'))) true "/ext/a".toList
      (.file (replicate 255 'b') 1 false .nil) := by
  intro h
  obtain ⟨n, hn⟩ := h.reads none dirWalkAlloc 1
  have hopens : cardDirs true "app".toList (oneFile (replicate 255 'b')) "/ext/a".toList =
      some [⟨replicate 255 'b', false, 1⟩] :=
    cardDirs_eq (d := (false, .file (replicate 255 'b') 1 false .nil))
      (show cardNames true "app".toList "/ext/a".toList = some ["a".toList] by decide) rfl
  have hread := hn (n + 1) (Nat.le_succ n)
  rw [dirWalkReads, dirWalkRead, loop, dirWalkRound, dirWalkOpen, storageDirOpen, hopens] at hread
  have hname := cons.inj (Option.some.inj hread)
  have hpath := congrArg length (DirWalkResult.ok.inj hname.1).1
  simp only [length_append, length_cons, length_take, length_replicate] at hpath
  omega

end NikitaFirmware.Storage
