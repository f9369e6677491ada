import NikitaFirmware.Foundations.Splitting
import NikitaFirmware.Storage.Paths

/-!
# Equivalent paths

`storage_common_equivalent_path` and `storage_common_is_subdir` compare paths by what is left of
them after the trimming and the aliases; what they should compare is the components of the places
that the paths stand for. -/

namespace NikitaFirmware.Storage

open Foundations List Option

def processCommonEquivalentPath (ready : Bool) (path1 path2 : Path) : Bool :=
  if getTypeByPath path1 ≠ getTypeByPath path2 then false
  else match getData ready path1 with
    | .error _ => false
    | .ok path1 => decide (caseEqual path1 path2)

def isSubdir (ready : Bool) (appid parent child : Path) : Bool :=
  let path1 := processAlias appid (trimTrailingSlashes parent) ++ ['/']
  let path2 := (processAlias appid (trimTrailingSlashes child) ++ ['/']).take path1.length
  processCommonEquivalentPath ready path1 path2

theorem equivalentPath_eq (ready : Bool) (appid p q : Path) : equivalentPath ready appid p q =
      processCommonEquivalentPath ready (processAlias appid (trimTrailingSlashes p))
        (processAlias appid (trimTrailingSlashes q)) := rfl

def components (path : Path) : List Path := path.splitOn '/'

/-- The components of the place on the external storage that a path stands for, if it is one. -/
def place (appid : Path) : List Path → Option (List Path)
  | [] :: root :: rest =>
    if root = "ext".toList ∨ root = "any".toList then some ([] :: "ext".toList :: rest)
    else if root = "int".toList then some ([] :: "ext".toList :: ".int".toList :: rest)
    else if root = "data".toList then
      some ([] :: "ext".toList :: "apps_data".toList :: (components appid ++ rest))
    else if root = "assets".toList then
      some ([] :: "ext".toList :: "apps_assets".toList :: (components appid ++ rest))
    else none
  | _ => none

def resolve (appid path : Path) : Option (List Path) :=
  place appid (components (trimTrailingSlashes path))

def lower (l : List Path) : List Path := l.map (map Char.toLower)

def SamePlace (appid p q : Path) : Prop :=
  ∃ r s, resolve appid p = some r ∧ resolve appid q = some s ∧ lower r = lower s

/-- The components of one place are the first ones of the other, up to case. -/
def Below (appid parent child : Path) : Prop :=
  ∃ r s, resolve appid parent = some r ∧ resolve appid child = some s ∧ lower r <+: lower s

def InRoot (root path : Path) : Prop := ∃ rest, path = root ++ rest ∧ ∀ c ∈ rest.head?, c = '/'

def aliases : List Path := ["/data".toList, "/assets".toList, "/int".toList]

def WholeAlias (path : Path) : Prop := ∃ root ∈ aliases, InRoot root path

/-- An alias that is the beginning of a longer leading component. -/
def PartialAlias (path : Path) : Prop :=
  ∃ root ∈ aliases, ∃ rest, path = root ++ rest ∧ ∃ c ∈ rest.head?, c ≠ '/'

section Compare
variable {ready : Bool} {a b p q path : Path}

theorem isExt_iff_inRoot : IsExt path ↔ InRoot extRoot path := isExt_iff

theorem not_caseEqual_any (ha : getTypeByPath a = .any) (hb : getTypeByPath b = .any) :
    ¬ caseEqual (redirectAny a) b := by
  have hfront : b.take 4 = "/any".toList := by
    rw [getTypeByPath] at hb
    split at hb
    · contradiction
    · split at hb
      · contradiction
      · split at hb
        · contradiction
        · split at hb
          · assumption
          · contradiction
  intro heq
  rw [redirectAny, if_pos ha] at heq
  have htake := congrArg (take 4) heq
  rw [← map_take, ← map_take, hfront] at htake
  exact absurd htake (show "/ext".toList ≠ "/any".toList by decide)

theorem processCommonEquivalentPath_iff : processCommonEquivalentPath ready a b = true ↔
      ready = true ∧ IsExt a ∧ IsExt b ∧ caseEqual a b := by
  rw [processCommonEquivalentPath, IsExt, IsExt]
  by_cases htype : getTypeByPath a = getTypeByPath b
  · rw [if_neg (not_not_intro htype), getData, ← htype]
    cases hext : getTypeByPath a with
    | error | int =>
      constructor
      · intro h
        contradiction
      · rintro ⟨-, h, -⟩
        contradiction
    | any =>
      constructor
      · intro h
        cases ready
        · contradiction
        · exact absurd (of_decide_eq_true h) (not_caseEqual_any hext (htype.symm.trans hext))
      · rintro ⟨-, h, -⟩
        contradiction
    | ext =>
      cases ready
      · constructor
        · intro h
          contradiction
        · rintro ⟨h, -⟩
          contradiction
      · have hsame : redirectAny a = a := redirectAny_of_isExt hext
        refine decide_eq_true_iff.trans ?_
        rw [hsame]
        constructor
        · intro h
          exact ⟨rfl, rfl, rfl, h⟩
        · rintro ⟨-, -, -, h⟩
          exact h
  · rw [if_pos htype]
    constructor
    · intro h
      contradiction
    · rintro ⟨-, ha, hb, -⟩
      exact absurd (ha.trans hb.symm) htype

theorem toLower_eq_slash (c : Char) : c.toLower = '/' ↔ c = '/' := by
  delta Char.toLower
  split
  case isTrue h =>
    constructor
    · intro heq
      -- a letter does not become a slash
      have hval : c.val + ('a'.val - 'A'.val) = '/'.val := congrArg Char.val heq
      have hc : c.val = '/'.val - ('a'.val - 'A'.val) := by
        rw [← hval, UInt32.add_sub_cancel]
      exact absurd h.1 (by rw [hc]; decide)
    · rintro rfl
      simp at h
  case isFalse => rfl

theorem lower_components (p : Path) : lower (components p) = components (p.map Char.toLower) :=
  (splitOn_map toLower_eq_slash p).symm

theorem caseEqual_iff : caseEqual a b ↔ lower (components a) = lower (components b) := by
  rw [lower_components, lower_components, caseEqual]
  exact ⟨congrArg components, splitOn_injective⟩

theorem caseEqual_take_iff : caseEqual (a ++ ['/']) ((b ++ ['/']).take (a ++ ['/']).length) ↔
      lower (components a) <+: lower (components b) := by
  rw [lower_components, lower_components, components, components, splitOn_prefix_iff,
    prefix_iff_eq_take, caseEqual, map_take, map_append, map_append,
    length_append, length_append, length_map]
  rfl

theorem isExt_take (n : Nat) (h : 5 ≤ n) : IsExt (path.take n) ↔ IsExt path := by
  have hlen : 4 < (path.take n).length ↔ 4 < path.length := by
    rw [length_take]
    omega
  have hslash : (path.take n)[4]? = path[4]? := getElem?_take_of_lt (by omega)
  have htake : (path.take n).take 4 = path.take 4 := by
    rw [take_take, Nat.min_eq_left (by omega)]
  simp only [IsExt, getTypeByPath, hlen, hslash, htake]

theorem isExt_slash : IsExt (path ++ ['/']) ↔ IsExt path := by
  rw [isExt_iff_inRoot, isExt_iff_inRoot]
  constructor
  · rintro ⟨rest, heq, hrest⟩
    obtain rfl | ⟨rest, c, rfl⟩ := rest.eq_nil_or_concat
    · -- the root does not end in a slash
      have hlast := congrArg getLast? heq
      rw [getLast?_append_of_ne_nil _ (cons_ne_nil _ _)] at hlast
      exact absurd hlast (show some '/' ≠ some 't' by decide)
    · rw [concat_eq_append, ← append_assoc] at heq
      obtain ⟨rfl, -⟩ := append_inj' heq rfl
      refine ⟨rest, rfl, fun c hc => hrest c ?_⟩
      rw [concat_eq_append]
      exact mem_head?_append_of_mem_head? hc
  · rintro ⟨rest, rfl, hrest⟩
    refine ⟨rest ++ ['/'], append_assoc _ _ _, fun c hc => ?_⟩
    cases rest with
    | nil => exact (some.inj hc).symm
    | cons d rest => exact hrest c hc

theorem isSubdir_iff_isExt {appid : Path} : isSubdir ready appid p q = true ↔ ready = true ∧
      IsExt (processAlias appid (trimTrailingSlashes p)) ∧
      IsExt (processAlias appid (trimTrailingSlashes q)) ∧
      lower (components (processAlias appid (trimTrailingSlashes p))) <+:
        lower (components (processAlias appid (trimTrailingSlashes q))) := by
  rw [isSubdir, processCommonEquivalentPath_iff, isExt_slash, caseEqual_take_iff]
  refine and_congr_right fun _ => and_congr_right fun hext => and_congr_left fun _ => ?_
  -- the root and a slash are left of the second path
  have hlen : 5 ≤ (processAlias appid (trimTrailingSlashes p) ++ ['/']).length := by
    obtain ⟨rest, heq, -⟩ := isExt_iff.mp hext
    rw [heq, length_append, length_append, show extRoot.length = 4 from rfl, length_singleton]
    omega
  rw [isExt_take _ hlen, isExt_slash]

end Compare

section Aliases
variable {appid path : Path}

def restComponents : Path → List Path
  | [] => []
  | _ :: rest => components rest

theorem components_append {rest : Path} (root : Path) (h : ∀ c ∈ rest.head?, c = '/') :
    components (root ++ rest) = components root ++ restComponents rest := by
  cases rest with
  | nil => rw [append_nil, restComponents, append_nil]
  | cons c rest =>
    rw [h c rfl]
    exact splitOn_append_cons_self root rest

theorem components_app {rest : Path} (root : Path) (h : ∀ c ∈ rest.head?, c = '/') :
    components (root ++ '/' :: (appid ++ rest)) =
      components root ++ (components appid ++ restComponents rest) := by
  rw [← components_append appid h]
  exact splitOn_append_cons_self root (appid ++ rest)

theorem inRoot_of_components {root : Path} {rest : List Path}
    (h : components path = [] :: root :: rest) : InRoot ('/' :: root) path := by
  have heq : path = [] ++ ['/'] ++ ['/'].intercalate (root :: rest) := by
    rw [← intercalate_cons_of_ne_nil (cons_ne_nil _ _), ← h, components, intercalate_splitOn]
  by_cases hnil : rest = []
  · rw [hnil, intercalate_singleton] at heq
    refine ⟨[], ?_, fun c hc => by contradiction⟩
    rw [heq, append_nil]
    rfl
  · rw [intercalate_cons_of_ne_nil hnil] at heq
    refine ⟨'/' :: ['/'].intercalate rest, ?_, fun c hc => (some.inj hc).symm⟩
    rw [heq, append_assoc root]
    rfl

theorem inRoot_of_place {r : List Path} (h : place appid (components path) = some r) :
    InRoot extRoot path ∨ InRoot "/any".toList path ∨ InRoot "/int".toList path ∨
      InRoot "/data".toList path ∨ InRoot "/assets".toList path := by
  cases hpath : components path with
  | nil => exact absurd hpath (splitOn_ne_nil _ _)
  | cons first l =>
    rw [hpath] at h
    cases first with
    | cons => contradiction
    | nil =>
      cases l with
      | nil => contradiction
      | cons root rest =>
        have hroot := inRoot_of_components hpath
        rw [place] at h
        split at h
        case isTrue hstorage =>
          obtain rfl | rfl := hstorage
          · exact .inl hroot
          · exact .inr (.inl hroot)
        case isFalse =>
          split at h
          case isTrue hint =>
            subst hint
            exact .inr (.inr (.inl hroot))
          case isFalse =>
            split at h
            case isTrue hdata =>
              subst hdata
              exact .inr (.inr (.inr (.inl hroot)))
            case isFalse =>
              split at h
              case isTrue hassets =>
                subst hassets
                exact .inr (.inr (.inr (.inr hroot)))
              case isFalse => contradiction

theorem inRoot_of_isPrefixOf {root : Path} (hroot : root ∈ aliases) (hpre : root.isPrefixOf path)
    (h : ¬ PartialAlias path) : InRoot root path := by
  obtain ⟨rest, rfl⟩ := isPrefixOf_iff_prefix.mp hpre
  refine ⟨rest, rfl, fun c hc => ?_⟩
  by_contra hne
  exact h ⟨root, hroot, rest, rfl, c, hc, hne⟩

theorem isPrefixOf_of_inRoot {root : Path} (h : InRoot root path) : root.isPrefixOf path := by
  obtain ⟨rest, rfl, -⟩ := h
  exact isPrefixOf_iff_prefix.mpr (prefix_append root rest)

theorem processAlias_eq_self (h : ∀ root ∈ aliases, ¬ root.isPrefixOf path) :
    processAlias appid path = path := by
  have hdata := h "/data".toList (by decide)
  have hassets := h "/assets".toList (by decide)
  have hint := h "/int".toList (by decide)
  rw [processAlias, if_neg hdata, if_neg hassets, if_neg hint]

/-- What the aliases leave of a path is the place that it stands for, unless the path has a part of
an alias or is in `/any`. -/
theorem place_eq_some_iff (hfragment : ¬ PartialAlias path) (hany : ¬ InRoot "/any".toList path)
    (r : List Path) : place appid (components path) = some r ↔
      IsExt (processAlias appid path) ∧ components (processAlias appid path) = r := by
  by_cases halias : ∃ root ∈ aliases, root.isPrefixOf path
  · obtain ⟨root, hroot, hpre⟩ := halias
    obtain ⟨rest, rfl, hrest⟩ := inRoot_of_isPrefixOf hroot hpre hfragment
    have happ (dir : Path) : IsExt (extRoot ++ '/' :: (dir ++ '/' :: (appid ++ rest))) :=
      isExt_iff.mpr ⟨_, rfl, fun c hc => (some.inj hc).symm⟩
    rw [components_append root hrest]
    simp only [aliases, mem_cons, not_mem_nil, or_false] at hroot
    obtain rfl | rfl | rfl := hroot
    · have heq := @components_app appid rest "/ext/apps_data".toList hrest
      exact some_inj.trans ⟨fun h => ⟨happ "apps_data".toList, heq.trans h⟩,
        fun h => heq.symm.trans h.2⟩
    · have heq := @components_app appid rest "/ext/apps_assets".toList hrest
      exact some_inj.trans ⟨fun h => ⟨happ "apps_assets".toList, heq.trans h⟩,
        fun h => heq.symm.trans h.2⟩
    · have heq := components_append "/ext/.int".toList hrest
      have hext : IsExt ("/ext/.int".toList ++ rest) :=
        isExt_iff.mpr ⟨"/.int".toList ++ rest, rfl, fun c hc => (some.inj hc).symm⟩
      exact some_inj.trans ⟨fun h => ⟨hext, heq.trans h⟩, fun h => heq.symm.trans h.2⟩
  · have hno : ∀ root ∈ aliases, ¬ root.isPrefixOf path :=
      fun root hroot hpre => halias ⟨root, hroot, hpre⟩
    have hnot : ∀ root ∈ aliases, ¬ InRoot root path :=
      fun root hroot hin => hno root hroot (isPrefixOf_of_inRoot hin)
    rw [processAlias_eq_self hno]
    constructor
    · intro h
      obtain hext | hin | hin | hin | hin := inRoot_of_place h
      · refine ⟨isExt_iff.mpr hext, ?_⟩
        obtain ⟨rest, rfl, hrest⟩ := hext
        rw [components_append extRoot hrest] at h ⊢
        exact some.inj h
      · exact absurd hin hany
      · exact absurd hin (hnot "/int".toList (by decide))
      · exact absurd hin (hnot "/data".toList (by decide))
      · exact absurd hin (hnot "/assets".toList (by decide))
    · rintro ⟨hext, rfl⟩
      obtain ⟨rest, rfl, hrest⟩ := isExt_iff.mp hext
      rw [components_append extRoot hrest]
      rfl

theorem processAlias_of_fragment (h : PartialAlias path) :
    processAlias appid path ≠ path ∧ ¬ WholeAlias path := by
  obtain ⟨root, hroot, rest, rfl, c, hc, hslash⟩ := h
  have hne : root ++ rest ≠ processAlias appid (root ++ rest) := by
    -- the second letter is another one than that of `/ext`
    intro heq
    have hletter := congrArg (·[1]?) heq
    simp only [aliases, mem_cons, not_mem_nil, or_false] at hroot
    obtain rfl | rfl | rfl := hroot
    · exact absurd hletter (show some 'd' ≠ some 'e' by decide)
    · exact absurd hletter (show some 'a' ≠ some 'e' by decide)
    · exact absurd hletter (show some 'i' ≠ some 'e' by decide)
  refine ⟨hne.symm, ?_⟩
  rintro ⟨root', hroot', rest', heq, hrest'⟩
  have hsame : root = root' := by
    have hletter := congrArg (·[1]?) heq
    simp only [aliases, mem_cons, not_mem_nil, or_false] at hroot hroot'
    obtain rfl | rfl | rfl := hroot <;> obtain rfl | rfl | rfl := hroot' <;>
      first | rfl | exact absurd (some.inj hletter) (by decide)
  subst hsame
  obtain rfl := append_cancel_left heq
  exact hslash (hrest' c hc)

theorem wholeAlias_of_processAlias (h : processAlias appid path ≠ path)
    (hfragment : ¬ PartialAlias path) : WholeAlias path := by
  by_contra hwhole
  refine h (processAlias_eq_self fun root hroot hpre => hwhole ⟨root, hroot, ?_⟩)
  exact inRoot_of_isPrefixOf hroot hpre hfragment

theorem trim_append_slashes (p : Path) :
    ∃ slashes : Path, p = trimTrailingSlashes p ++ slashes ∧ ∀ c ∈ slashes, c = '/' := by
  refine ⟨(p.reverse.takeWhile (· = '/')).reverse, ?_, fun c hc => ?_⟩
  · rw [trimTrailingSlashes, ← reverse_append, takeWhile_append_dropWhile, reverse_reverse]
  · have hslash := mem_takeWhile_imp (mem_reverse.mp hc)
    exact of_decide_eq_true hslash

theorem head?_append_slashes {rest slashes : Path} (h : ∀ c ∈ rest.head?, c = '/')
    (hslashes : ∀ c ∈ slashes, c = '/') : ∀ c ∈ (rest ++ slashes).head?, c = '/' := by
  intro c hc
  cases rest with
  | nil => exact hslashes c (mem_of_mem_head? hc)
  | cons d rest => exact h c hc

theorem partialAlias_of_trim (h : PartialAlias (trimTrailingSlashes path)) : PartialAlias path := by
  obtain ⟨root, hroot, rest, heq, c, hc, hslash⟩ := h
  obtain ⟨slashes, hpath, -⟩ := trim_append_slashes path
  refine ⟨root, hroot, rest ++ slashes, ?_, c, mem_head?_append_of_mem_head? hc, hslash⟩
  rw [← append_assoc, ← heq]
  exact hpath

theorem inRoot_of_trim {root : Path} (h : InRoot root (trimTrailingSlashes path)) :
    InRoot root path := by
  obtain ⟨rest, heq, hrest⟩ := h
  obtain ⟨slashes, hpath, hslashes⟩ := trim_append_slashes path
  refine ⟨rest ++ slashes, ?_, head?_append_slashes hrest hslashes⟩
  rw [← append_assoc, ← heq]
  exact hpath

end Aliases

section Decide
variable {ready : Bool} {appid p q : Path}

def anyRoot : Path := "/any".toList

theorem resolve_eq_some_iff (h : ¬ PartialAlias p) (hany : ¬ InRoot anyRoot p) (r : List Path) :
    resolve appid p = some r ↔ IsExt (processAlias appid (trimTrailingSlashes p)) ∧
      components (processAlias appid (trimTrailingSlashes p)) = r :=
  place_eq_some_iff (fun htrim => h (partialAlias_of_trim htrim))
    (fun htrim => hany (inRoot_of_trim htrim)) r

theorem prefix_of_isExt {t : Path} (h : IsExt (processAlias appid t)) :
    ∃ root ∈ extRoot :: aliases, root <+: t := by
  by_cases halias : ∃ root ∈ aliases, root.isPrefixOf t
  · obtain ⟨root, hroot, hpre⟩ := halias
    exact ⟨root, mem_cons_of_mem _ hroot, isPrefixOf_iff_prefix.mp hpre⟩
  · rw [processAlias_eq_self fun root hroot hpre => halias ⟨root, hroot, hpre⟩] at h
    obtain ⟨rest, rfl, -⟩ := isExt_iff.mp h
    exact ⟨extRoot, mem_cons_self, prefix_append _ _⟩

theorem not_isExt_any (hany : InRoot anyRoot p) :
    ¬ IsExt (processAlias appid (trimTrailingSlashes p)) := by
  intro h
  obtain ⟨root, hroot, hpre⟩ := prefix_of_isExt h
  obtain ⟨slashes, hpath, -⟩ := trim_append_slashes p
  have hfront : root <+: p := by
    rw [hpath]
    exact hpre.trans (prefix_append _ _)
  obtain ⟨rest, rfl, -⟩ := hany
  have hletters : ∀ root ∈ extRoot :: aliases, 3 ≤ root.length ∧ root.take 3 ≠ "/an".toList := by
    decide
  obtain ⟨hlen, hne⟩ := hletters root hroot
  obtain ⟨t, ht⟩ := hfront
  have htake := congrArg (take 3) ht
  rw [take_append_of_le_length hlen] at htake
  exact hne htake

theorem below_of_samePlace (h : SamePlace appid p q) : Below appid p q := by
  obtain ⟨r, s, hr, hs, heq⟩ := h
  exact ⟨r, s, hr, hs, heq ▸ prefix_rfl⟩

structure Compared (ready : Bool) (appid p q : Path) : Prop where
  equivalent : equivalentPath ready appid p q = true ↔ SamePlace appid p q
  subdir : isSubdir ready appid p q = true ↔ Below appid p q
  aliasLeft : processAlias appid p ≠ p → WholeAlias p
  aliasRight : processAlias appid q ≠ q → WholeAlias q

theorem equivalentPath_iff_isExt : equivalentPath ready appid p q = true ↔ ready = true ∧
    IsExt (processAlias appid (trimTrailingSlashes p)) ∧
    IsExt (processAlias appid (trimTrailingSlashes q)) ∧
    lower (components (processAlias appid (trimTrailingSlashes p))) =
      lower (components (processAlias appid (trimTrailingSlashes q))) := by
  rw [equivalentPath_eq, processCommonEquivalentPath_iff, caseEqual_iff]

/-- The comparisons are right exactly when neither path has a part of an alias and, if the second one
is at or below the first, the storage is there and neither of them is in `/any`. -/
theorem compared_iff (ready : Bool) (appid p q : Path) : Compared ready appid p q ↔
    ¬ PartialAlias p ∧ ¬ PartialAlias q ∧
      (Below appid p q → ready = true ∧ ¬ InRoot anyRoot p ∧ ¬ InRoot anyRoot q) := by
  constructor
  · rintro ⟨-, hsubdir, hp, hq⟩
    refine ⟨fun h => ?_, fun h => ?_, fun hbelow => ?_⟩
    · obtain ⟨hne, hwhole⟩ := @processAlias_of_fragment appid p h
      exact hwhole (hp hne)
    · obtain ⟨hne, hwhole⟩ := @processAlias_of_fragment appid q h
      exact hwhole (hq hne)
    · obtain ⟨hready, hextp, hextq, -⟩ := isSubdir_iff_isExt.mp (hsubdir.mpr hbelow)
      exact ⟨hready, fun hany => not_isExt_any hany hextp, fun hany => not_isExt_any hany hextq⟩
  · rintro ⟨hp, hq, hbelow⟩
    refine ⟨⟨fun h => ?_, fun h => ?_⟩, ⟨fun h => ?_, fun h => ?_⟩, fun h =>
      wholeAlias_of_processAlias h hp, fun h => wholeAlias_of_processAlias h hq⟩
    · obtain ⟨-, hextp, hextq, heq⟩ := equivalentPath_iff_isExt.mp h
      have hanyp : ¬ InRoot anyRoot p := fun hany => not_isExt_any hany hextp
      have hanyq : ¬ InRoot anyRoot q := fun hany => not_isExt_any hany hextq
      exact ⟨_, _, (resolve_eq_some_iff hp hanyp _).mpr ⟨hextp, rfl⟩,
        (resolve_eq_some_iff hq hanyq _).mpr ⟨hextq, rfl⟩, heq⟩
    · obtain ⟨hready, hanyp, hanyq⟩ := hbelow (below_of_samePlace h)
      obtain ⟨r, s, hr, hs, heq⟩ := h
      obtain ⟨hextp, rfl⟩ := (resolve_eq_some_iff hp hanyp r).mp hr
      obtain ⟨hextq, rfl⟩ := (resolve_eq_some_iff hq hanyq s).mp hs
      exact equivalentPath_iff_isExt.mpr ⟨hready, hextp, hextq, heq⟩
    · obtain ⟨-, hextp, hextq, hpre⟩ := isSubdir_iff_isExt.mp h
      have hanyp : ¬ InRoot anyRoot p := fun hany => not_isExt_any hany hextp
      have hanyq : ¬ InRoot anyRoot q := fun hany => not_isExt_any hany hextq
      exact ⟨_, _, (resolve_eq_some_iff hp hanyp _).mpr ⟨hextp, rfl⟩,
        (resolve_eq_some_iff hq hanyq _).mpr ⟨hextq, rfl⟩, hpre⟩
    · obtain ⟨hready, hanyp, hanyq⟩ := hbelow h
      obtain ⟨r, s, hr, hs, hpre⟩ := h
      obtain ⟨hextp, rfl⟩ := (resolve_eq_some_iff hp hanyp r).mp hr
      obtain ⟨hextq, rfl⟩ := (resolve_eq_some_iff hq hanyq s).mp hs
      exact isSubdir_iff_isExt.mpr ⟨hready, hextp, hextq, hpre⟩

/-- A path in `/any` is not the same as itself. -/
theorem not_compared_any :
    ¬ Compared true "nfc".toList "/any/nfc/a".toList "/any/nfc/a".toList := by
  intro h
  have hsame : SamePlace "nfc".toList "/any/nfc/a".toList "/any/nfc/a".toList :=
    ⟨["".toList, "ext".toList, "nfc".toList, "a".toList], _, by decide, by decide, rfl⟩
  exact absurd (h.equivalent.mpr hsame) (by decide)

end Decide
end NikitaFirmware.Storage
