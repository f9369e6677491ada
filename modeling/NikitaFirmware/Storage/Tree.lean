import NikitaFirmware.Storage.Equivalence

/-!
# The directory tree of the card

What is in a directory, how a path is followed through it, and what removing an entry leaves.
-/

namespace NikitaFirmware.Storage

open Foundations List Option

/-- The entries of a directory in their order, each directory with what is in it. -/
inductive Contents
  | nil
  | file (name : Path) (size : Nat) (readOnly : Bool) (rest : Contents)
  | dir (name : Path) (readOnly : Bool) (below rest : Contents)
  deriving DecidableEq

structure FileInfo where
  isDir : Bool
  size : Nat

structure Entry where
  name : Path
  info : FileInfo

namespace Contents

def entries : Contents → List Entry
  | nil => []
  | file name size _ rest => ⟨name, false, size⟩ :: rest.entries
  | dir name _ _ rest => ⟨name, true, 0⟩ :: rest.entries

def subdir (name : Path) : Contents → Option (Bool × Contents)
  | nil => none
  | file n _ _ rest => if caseEqual n name then none else rest.subdir name
  | dir n readOnly below rest =>
    if caseEqual n name then some (readOnly, below) else rest.subdir name

/-- The directory that is reached from one by following names. -/
def follow : List Path → Bool × Contents → Option (Bool × Contents)
  | [], d => some d
  | name :: names, d => (d.2.subdir name).bind (follow names)

/-- The removal of the entry of a name, `f_unlink` in the last directory of the path. -/
def unlinkEntry (name : Path) : Contents → Except FsError Contents
  | nil => .error .notExist
  | file n size readOnly rest =>
    if caseEqual n name then if readOnly then .error .denied else .ok rest
    else (rest.unlinkEntry name).map (file n size readOnly)
  | dir n readOnly below rest =>
    if caseEqual n name then
      if readOnly then .error .denied
      else if below = nil then .ok rest
      else .error .denied
    else (rest.unlinkEntry name).map (dir n readOnly below)

def changeDir (name : Path) (change : Contents → Except FsError Contents) :
    Contents → Except FsError Contents
  | nil => .error .notExist
  | file n size readOnly rest =>
    if caseEqual n name then .error .notExist
    else (rest.changeDir name change).map (file n size readOnly)
  | dir n readOnly below rest =>
    if caseEqual n name then (change below).map fun below => dir n readOnly below rest
    else (rest.changeDir name change).map (dir n readOnly below)

def unlink : List Path → Contents → Except FsError Contents
  | [], _ => .error .invalidName
  | [name], c => c.unlinkEntry name
  | name :: next :: names, c => c.changeDir name (unlink (next :: names))

/-- Names of entries are of one to 255 letters without a slash, and those in one directory differ in
more than case. -/
def Valid : Contents → Prop
  | nil => True
  | file name _ _ rest =>
    (name ≠ [] ∧ '/' ∉ name ∧ name.length ≤ 255) ∧
      (∀ e ∈ rest.entries, ¬ caseEqual name e.name) ∧ rest.Valid
  | dir name _ below rest =>
    (name ≠ [] ∧ '/' ∉ name ∧ name.length ≤ 255) ∧
      (∀ e ∈ rest.entries, ¬ caseEqual name e.name) ∧ below.Valid ∧ rest.Valid

/-- Nothing in the directory is read only. -/
def Writable : Contents → Prop
  | nil => True
  | file _ _ readOnly rest => readOnly = false ∧ rest.Writable
  | dir _ readOnly below rest => readOnly = false ∧ below.Writable ∧ rest.Writable

def eraseEntry (name : Path) : Contents → Contents
  | nil => nil
  | file n size readOnly rest =>
    if caseEqual n name then rest else file n size readOnly (rest.eraseEntry name)
  | dir n readOnly below rest =>
    if caseEqual n name then rest else dir n readOnly below (rest.eraseEntry name)

def updateDir (name : Path) (f : Contents → Contents) : Contents → Contents
  | nil => nil
  | file n size readOnly rest =>
    if caseEqual n name then file n size readOnly rest
    else file n size readOnly (rest.updateDir name f)
  | dir n readOnly below rest =>
    if caseEqual n name then dir n readOnly (f below) rest
    else dir n readOnly below (rest.updateDir name f)

/-- The tree with a change of what is in the directory that the names lead to. -/
def update : List Path → (Contents → Contents) → Contents → Contents
  | [], f => f
  | name :: names, f => updateDir name (update names f)

/-- The tree without the entry that the names lead to. -/
def erase : List Path → Contents → Contents
  | [] => id
  | [name] => eraseEntry name
  | name :: next :: names => updateDir name (erase (next :: names))

section Changes
variable {c b : Contents} {name : Path} {names : List Path} {readOnly : Bool}

theorem subdir_updateDir (h : c.subdir name = some (readOnly, b)) (f : Contents → Contents) :
    (c.updateDir name f).subdir name = some (readOnly, f b) := by
  induction c with
  | nil => contradiction
  | file n size ro rest ih =>
    rw [subdir] at h
    split at h
    case isTrue => contradiction
    case isFalse hne => rw [updateDir, if_neg hne, subdir, if_neg hne, ih h]
  | dir n ro below rest _ ih =>
    rw [subdir] at h
    split at h
    case isTrue hsame =>
      obtain ⟨rfl, rfl⟩ := Prod.mk.inj (some.inj h)
      rw [updateDir, if_pos hsame, subdir, if_pos hsame]
    case isFalse hne => rw [updateDir, if_neg hne, subdir, if_neg hne, ih h]

theorem updateDir_congr {f g : Contents → Contents} (h : c.subdir name = some (readOnly, b))
    (heq : f b = g b) : c.updateDir name f = c.updateDir name g := by
  induction c with
  | nil => rfl
  | file n size ro rest ih =>
    rw [subdir] at h
    split at h
    case isTrue => contradiction
    case isFalse hne => rw [updateDir, updateDir, if_neg hne, if_neg hne, ih h]
  | dir n ro below rest _ ih =>
    rw [subdir] at h
    split at h
    case isTrue hsame =>
      obtain ⟨rfl, rfl⟩ := Prod.mk.inj (some.inj h)
      rw [updateDir, updateDir, if_pos hsame, if_pos hsame, heq]
    case isFalse hne => rw [updateDir, updateDir, if_neg hne, if_neg hne, ih h]

theorem updateDir_updateDir (c : Contents) (name : Path) (f g : Contents → Contents) :
    (c.updateDir name f).updateDir name g = c.updateDir name (g ∘ f) := by
  induction c with
  | nil => rfl
  | file n size ro rest ih =>
    by_cases hsame : caseEqual n name
    · simp only [updateDir, if_pos hsame]
    · simp only [updateDir, if_neg hsame, ih]
  | dir n ro below rest _ ih =>
    by_cases hsame : caseEqual n name
    · simp only [updateDir, if_pos hsame, Function.comp_apply]
    · simp only [updateDir, if_neg hsame, ih]

theorem eraseEntry_updateDir (c : Contents) (name : Path) (f : Contents → Contents) :
    (c.updateDir name f).eraseEntry name = c.eraseEntry name := by
  induction c with
  | nil => rfl
  | file n size ro rest ih =>
    by_cases hsame : caseEqual n name
    · simp only [updateDir, eraseEntry, if_pos hsame]
    · simp only [updateDir, eraseEntry, if_neg hsame, ih]
  | dir n ro below rest _ ih =>
    by_cases hsame : caseEqual n name
    · simp only [updateDir, eraseEntry, if_pos hsame]
    · simp only [updateDir, eraseEntry, if_neg hsame, ih]

theorem changeDir_ok {change : Contents → Except FsError Contents} {b' : Contents}
    (h : c.subdir name = some (readOnly, b)) (hchange : change b = .ok b') :
    c.changeDir name change = .ok (c.updateDir name fun _ => b') := by
  induction c with
  | nil => contradiction
  | file n size ro rest ih =>
    rw [subdir] at h
    split at h
    case isTrue => contradiction
    case isFalse hne =>
      rw [changeDir, updateDir, if_neg hne, if_neg hne, ih h]
      rfl
  | dir n ro below rest _ ih =>
    rw [subdir] at h
    split at h
    case isTrue hsame =>
      obtain ⟨rfl, rfl⟩ := Prod.mk.inj (some.inj h)
      rw [changeDir, updateDir, if_pos hsame, if_pos hsame, hchange]
      rfl
    case isFalse hne =>
      rw [changeDir, updateDir, if_neg hne, if_neg hne, ih h]
      rfl

theorem unlinkEntry_empty (h : c.subdir name = some (false, nil)) :
    c.unlinkEntry name = .ok (c.eraseEntry name) := by
  induction c with
  | nil => contradiction
  | file n size ro rest ih =>
    rw [subdir] at h
    split at h
    case isTrue => contradiction
    case isFalse hne =>
      rw [unlinkEntry, eraseEntry, if_neg hne, if_neg hne, ih h]
      rfl
  | dir n ro below rest _ ih =>
    rw [subdir] at h
    split at h
    case isTrue hsame =>
      obtain ⟨rfl, rfl⟩ := Prod.mk.inj (some.inj h)
      rw [unlinkEntry, eraseEntry, if_pos hsame, if_pos hsame]
      rfl
    case isFalse hne =>
      rw [unlinkEntry, eraseEntry, if_neg hne, if_neg hne, ih h]
      rfl

variable {d : Bool × Contents}

theorem follow_snoc (names : List Path) (name : Path) (d : Bool × Contents) :
    follow (names ++ [name]) d = (follow names d).bind fun d => d.2.subdir name := by
  induction names generalizing d with
  | nil =>
    rw [nil_append, follow, follow, bind_some]
    cases d.2.subdir name <;> rfl
  | cons next names ih =>
    rw [cons_append, follow, follow, bind_assoc]
    exact congrArg _ (funext ih)

theorem follow_update (h : follow names d = some (readOnly, c)) (f : Contents → Contents) :
    follow names (d.1, update names f d.2) = some (readOnly, f c) := by
  induction names generalizing d with
  | nil =>
    obtain rfl := some.inj h
    rfl
  | cons name names ih =>
    obtain ⟨⟨ro, b⟩, hsub, hrest⟩ := bind_eq_some_iff.mp h
    have hb := subdir_updateDir hsub (update names f)
    exact bind_eq_some_iff.mpr ⟨_, hb, ih hrest⟩

theorem erase_update (hne : names ≠ []) (c : Contents) (f : Contents → Contents) :
    erase names (update names f c) = erase names c := by
  induction names generalizing c with
  | nil => contradiction
  | cons name names ih =>
    cases names with
    | nil => exact eraseEntry_updateDir c name f
    | cons next names =>
      rw [erase, update, updateDir_updateDir]
      congr 1
      funext b
      exact ih (cons_ne_nil _ _) b

theorem erase_cons (name : Path) (hne : names ≠ []) :
    erase (name :: names) = updateDir name (erase names) := by
  cases names with
  | nil => contradiction
  | cons => rfl

theorem unlink_cons (name : Path) (hne : names ≠ []) :
    unlink (name :: names) c = c.changeDir name (unlink names) := by
  cases names with
  | nil => contradiction
  | cons => rfl

theorem erase_snoc (names : List Path) (name : Path) :
    erase (names ++ [name]) = update names (eraseEntry name) := by
  induction names with
  | nil => rfl
  | cons next names ih =>
    rw [cons_append, erase_cons next (append_ne_nil_of_right_ne_nil names
      (cons_ne_nil name [])), ih, update]

theorem unlink_snoc {c' : Contents} (h : follow names d = some (readOnly, c))
    (hentry : c.unlinkEntry name = .ok c') :
    unlink (names ++ [name]) d.2 = .ok (update names (fun _ => c') d.2) := by
  induction names generalizing d with
  | nil =>
    obtain rfl := some.inj h
    exact hentry
  | cons next names ih =>
    obtain ⟨⟨ro, b⟩, hsub, hrest⟩ := bind_eq_some_iff.mp h
    rw [cons_append, unlink_cons next (append_ne_nil_of_right_ne_nil names
      (cons_ne_nil name [])), changeDir_ok hsub (ih hrest), update]
    exact congrArg _ (updateDir_congr hsub rfl)

theorem changeDir_error {change : Contents → Except FsError Contents} {error : FsError}
    (h : c.subdir name = some (readOnly, b)) (hchange : change b = .error error) :
    c.changeDir name change = .error error := by
  induction c with
  | nil => contradiction
  | file n size ro rest ih =>
    rw [subdir] at h
    split at h
    case isTrue => contradiction
    case isFalse hne =>
      rw [changeDir, if_neg hne, ih h]
      rfl
  | dir n ro below rest _ ih =>
    rw [subdir] at h
    split at h
    case isTrue hsame =>
      obtain ⟨rfl, rfl⟩ := Prod.mk.inj (some.inj h)
      rw [changeDir, if_pos hsame, hchange]
      rfl
    case isFalse hne =>
      rw [changeDir, if_neg hne, ih h]
      rfl

theorem unlinkEntry_denied (h : c.subdir name = some (readOnly, b)) (hb : readOnly = true ∨ b ≠ nil) :
    c.unlinkEntry name = .error .denied := by
  induction c with
  | nil => contradiction
  | file n size ro rest ih =>
    rw [subdir] at h
    split at h
    case isTrue => contradiction
    case isFalse hne =>
      rw [unlinkEntry, if_neg hne, ih h]
      rfl
  | dir n ro below rest _ ih =>
    rw [subdir] at h
    split at h
    case isTrue hsame =>
      obtain ⟨rfl, rfl⟩ := Prod.mk.inj (some.inj h)
      rw [unlinkEntry, if_pos hsame]
      obtain rfl | hb := hb
      · exact if_pos rfl
      · rw [if_neg hb]
        exact ite_self _
    case isFalse hne =>
      rw [unlinkEntry, if_neg hne, ih h]
      rfl

theorem unlink_snoc_error {error : FsError} (h : follow names d = some (readOnly, c))
    (hentry : c.unlinkEntry name = .error error) : unlink (names ++ [name]) d.2 = .error error := by
  induction names generalizing d with
  | nil =>
    obtain rfl := some.inj h
    exact hentry
  | cons next names ih =>
    obtain ⟨⟨ro, b⟩, hsub, hrest⟩ := bind_eq_some_iff.mp h
    rw [cons_append, unlink_cons next (append_ne_nil_of_right_ne_nil names (cons_ne_nil name []))]
    exact changeDir_error hsub (ih hrest)

theorem unlink_denied (hne : names ≠ []) (h : follow names d = some (readOnly, c))
    (hc : readOnly = true ∨ c ≠ nil) : unlink names d.2 = .error .denied := by
  induction names generalizing d with
  | nil => contradiction
  | cons name names ih =>
    obtain ⟨⟨ro, b⟩, hsub, hrest⟩ := bind_eq_some_iff.mp h
    by_cases hnil : names = []
    · subst hnil
      obtain ⟨rfl, rfl⟩ := Prod.mk.inj (some.inj hrest)
      exact unlinkEntry_denied hsub hc
    · rw [unlink_cons name hnil]
      exact changeDir_error hsub (ih hnil hrest)

theorem unlink_empty (hne : names ≠ []) (h : follow names d = some (false, nil)) :
    unlink names d.2 = .ok (erase names d.2) := by
  induction names generalizing d with
  | nil => contradiction
  | cons name names ih =>
    obtain ⟨⟨ro, b⟩, hsub, hrest⟩ := bind_eq_some_iff.mp h
    by_cases hnil : names = []
    · subst hnil
      obtain ⟨rfl, rfl⟩ := Prod.mk.inj (some.inj hrest)
      exact unlinkEntry_empty hsub
    · rw [unlink_cons name hnil, erase_cons name hnil, changeDir_ok hsub (ih hnil hrest)]
      exact congrArg _ (updateDir_congr hsub rfl)

end Changes
end Contents

/-- The names that `follow_path` takes from a path; a slash at the end is one name too many. -/
def followPath (path : Path) : Option (List Path) :=
  let names := (components path).filter (· ≠ [])
  if names ≠ [] ∧ path.getLast? = some '/' then none else some names

def cardNames (ready : Bool) (appid path : Path) : Option (List Path) :=
  match getData ready (processAlias appid path) with
  | .error _ => none
  | .ok path => followPath (path.drop 4)

section Names
variable {ready : Bool} {appid path name : Path} {names : List Path}

theorem followPath_child (h : followPath path = some names) (hne : name ≠ [])
    (hslash : '/' ∉ name) : followPath (path ++ '/' :: name) = some (names ++ [name]) := by
  have hcomponents : components (path ++ '/' :: name) = components path ++ [name] := by
    rw [components, splitOn_append_cons_self, splitOn_eq_singleton hslash]
    rfl
  have hlast : (path ++ '/' :: name).getLast? ≠ some '/' := by
    rw [getLast?_append_of_ne_nil _ (cons_ne_nil _ _)]
    obtain ⟨c, hc⟩ := ne_none_iff_exists'.mp (mt getLast?_eq_none_iff.mp hne)
    rw [getLast?_cons, hc]
    intro heq
    obtain rfl := some.inj heq
    exact hslash (mem_of_getLast? hc)
  rw [followPath] at h ⊢
  split at h
  · contradiction
  · obtain rfl := some.inj h
    rw [hcomponents, filter_append, filter_singleton, decide_eq_true hne, cond_true,
      if_neg fun hand => hlast hand.2]

def storageRoots : List Path := ["/ext".toList, "/int".toList, "/any".toList]

theorem front_of_type (h : getTypeByPath path ≠ .error) :
    path.take 4 ∈ storageRoots ∧ (4 < path.length → path[4]? = some '/') := by
  rw [getTypeByPath] at h
  split at h
  case isTrue => contradiction
  case isFalse hslash =>
    refine ⟨?_, fun hlen => by_contra fun hne => hslash ⟨hlen, hne⟩⟩
    by_cases hext : path.take 4 = "/ext".toList
    · exact hext ▸ by decide
    · by_cases hint : path.take 4 = "/int".toList
      · exact hint ▸ by decide
      · by_cases hany : path.take 4 = "/any".toList
        · exact hany ▸ by decide
        · rw [if_neg hext, if_neg hint, if_neg hany] at h
          contradiction

theorem length_of_type (h : getTypeByPath path ≠ .error) : 4 ≤ path.length := by
  have hroots : ∀ root ∈ storageRoots, root.length = 4 := by decide
  have hlen := hroots _ (front_of_type h).1
  rw [← hlen]
  exact length_take_le' 4 path

theorem getTypeByPath_append {s : Path} (h : getTypeByPath path ≠ .error)
    (hs : s.head? = some '/') : getTypeByPath (path ++ s) = getTypeByPath path := by
  obtain ⟨-, hslash⟩ := front_of_type h
  have hlen := length_of_type h
  have htake : (path ++ s).take 4 = path.take 4 := take_append_of_le_length hlen
  have hno : ¬ (4 < (path ++ s).length ∧ (path ++ s)[4]? ≠ some '/') := by
    rintro ⟨-, hne⟩
    by_cases hlonger : 4 < path.length
    · exact hne ((getElem?_append_left hlonger).trans (hslash hlonger))
    · rw [getElem?_append_right (Nat.le_of_not_lt hlonger),
        Nat.sub_eq_zero_of_le hlen, ← head?_eq_getElem?] at hne
      exact hne hs
  have hno' : ¬ (4 < path.length ∧ path[4]? ≠ some '/') := fun hand => hand.2 (hslash hand.1)
  rw [getTypeByPath, getTypeByPath, if_neg hno, if_neg hno', htake]

theorem getData_append {r s : Path} (h : getData ready path = .ok r) (hs : s.head? = some '/') :
    getData ready (path ++ s) = .ok (r ++ s) ∧ 4 ≤ r.length := by
  have htype : getTypeByPath path ≠ .error := by
    intro herror
    rw [getData, herror] at h
    contradiction
  have hsame := getTypeByPath_append htype hs
  obtain ⟨hext, hr⟩ := isExt_of_getData h
  refine ⟨?_, length_of_type (hext.trans_ne (by decide))⟩
  have hredirect : redirectAny (path ++ s) = r ++ s := by
    rw [hr, redirectAny, redirectAny, hsame]
    split
    · rw [drop_append_of_le_length (length_of_type htype), append_assoc]
    · rfl
  rw [getData] at h ⊢
  rw [hsame, hredirect]
  cases hkind : getTypeByPath path with
  | error => exact absurd hkind htype
  | int =>
    rw [hkind] at h
    contradiction
  | ext | any =>
    rw [hkind] at h
    cases ready
    · contradiction
    · rfl

theorem isPrefixOf_append {root : Path} (s : Path) (hroot : root ∈ aliases)
    (hpath : (∃ root ∈ aliases, root.isPrefixOf path) ∨ getTypeByPath path ≠ .error) :
    root.isPrefixOf (path ++ s) = root.isPrefixOf path := by
  have hletters : ∀ root ∈ aliases, 3 ≤ root.length ∧
      (∀ root' ∈ aliases, root'.take 3 = root.take 3 → root' = root) ∧
      ∀ front ∈ storageRoots, front.take 3 = root.take 3 → front = root := by decide
  obtain ⟨hlen, halias, hstorage⟩ := hletters root hroot
  rw [Bool.eq_iff_iff, isPrefixOf_iff_prefix, isPrefixOf_iff_prefix]
  refine ⟨fun h => ?_, fun h => h.trans (prefix_append path s)⟩
  have hfront : 3 ≤ path.length → path.take 3 = root.take 3 := by
    intro hpathLen
    obtain ⟨t, ht⟩ := h
    rw [← (take_append_of_le_length hpathLen : (path ++ s).take 3 = _), ← ht,
      take_append_of_le_length hlen]
  obtain ⟨root', hroot', hpre⟩ | htype := hpath
  · -- the path begins with an alias, which is this one
    obtain ⟨t, rfl⟩ := isPrefixOf_iff_prefix.mp hpre
    have hlen' := (hletters root' hroot').1
    have hsame := hfront (by rw [length_append]; omega)
    rw [take_append_of_le_length hlen'] at hsame
    rw [← halias root' hroot' hsame]
    exact prefix_append _ _
  · have hsame := hfront (by have := length_of_type htype; omega)
    have htake : (path.take 4).take 3 = root.take 3 := by
      rw [take_take]
      exact hsame
    rw [← hstorage _ (front_of_type htype).1 htake]
    exact take_prefix 4 path

theorem processAlias_append (s : Path)
    (hpath : (∃ root ∈ aliases, root.isPrefixOf path) ∨ getTypeByPath path ≠ .error) :
    processAlias appid (path ++ s) = processAlias appid path ++ s := by
  have hprefix := fun {root : Path} (hroot : root ∈ aliases) => isPrefixOf_append s hroot hpath
  have hdrop {root : Path} (hpre : root.isPrefixOf path) :
      (path ++ s).drop root.length = path.drop root.length ++ s :=
    drop_append_of_le_length (List.isPrefixOf_iff_prefix.mp hpre).length_le
  rw [processAlias, processAlias, hprefix (by decide), hprefix (by decide), hprefix (by decide)]
  split
  case isTrue hdata =>
    rw [show 5 = "/data".toList.length from rfl, hdrop hdata, append_assoc, cons_append,
      append_assoc]
  case isFalse =>
    split
    case isTrue hassets =>
      rw [show 7 = "/assets".toList.length from rfl, hdrop hassets, append_assoc,
        cons_append, append_assoc]
    case isFalse =>
      split
      case isTrue hint =>
        rw [show 4 = "/int".toList.length from rfl, hdrop hint, append_assoc]
      case isFalse => rfl

theorem getData_processAlias_append {r s : Path}
    (h : getData ready (processAlias appid path) = .ok r) (hs : s.head? = some '/') :
    getData ready (processAlias appid (path ++ s)) = .ok (r ++ s) ∧ 4 ≤ r.length := by
  have hpath : (∃ root ∈ aliases, root.isPrefixOf path) ∨ getTypeByPath path ≠ .error := by
    by_cases halias : ∃ root ∈ aliases, root.isPrefixOf path
    · exact .inl halias
    · refine .inr fun herror => ?_
      rw [processAlias_eq_self fun root hroot hpre => halias ⟨root, hroot, hpre⟩, getData,
        herror] at h
      contradiction
  rw [processAlias_append s hpath]
  exact getData_append h hs

theorem cardNames_child (h : cardNames ready appid path = some names) (hne : name ≠ [])
    (hslash : '/' ∉ name) :
    cardNames ready appid (path ++ '/' :: name) = some (names ++ [name]) := by
  rw [cardNames] at h ⊢
  split at h
  case h_1 => contradiction
  case h_2 r hr =>
    obtain ⟨hchild, hlen⟩ := getData_processAlias_append hr (s := '/' :: name) rfl
    rw [hchild]
    dsimp only
    rw [drop_append_of_le_length hlen]
    exact followPath_child h hne hslash

end Names

end NikitaFirmware.Storage
