import Mathlib.Data.List.Infix

/-!
# Paths of the storage service

The names under which `storage_processing.c` finds a path: aliases of an application, the prefix of
a storage, and when two paths are taken for the same.
-/

namespace NikitaFirmware.Storage

open List
abbrev Path := List Char

inductive FsError
  | ok
  | notReady
  | exist
  | notExist
  | invalidParameter
  | denied
  | invalidName
  | internal
  | notImplemented
  | alreadyOpen
  deriving DecidableEq

inductive StorageType
  | ext
  | int
  | any
  | error
  deriving DecidableEq

def extRoot : Path := "/ext".toList

/-- `storage_process_alias`; the folders that it makes are none of the open files. -/
def processAlias (appid path : Path) : Path :=
  if "/data".toList.isPrefixOf path then
    "/ext/apps_data".toList ++ '/' :: (appid ++ path.drop 5)
  else if "/assets".toList.isPrefixOf path then
    "/ext/apps_assets".toList ++ '/' :: (appid ++ path.drop 7)
  else if "/int".toList.isPrefixOf path then "/ext/.int".toList ++ path.drop 4
  else path

def getTypeByPath (path : Path) : StorageType :=
  if 4 < path.length ∧ path[4]? ≠ some '/' then .error
  else if path.take 4 = "/ext".toList then .ext
  else if path.take 4 = "/int".toList then .int
  else if path.take 4 = "/any".toList then .any
  else .error

def redirectAny (path : Path) : Path :=
  if getTypeByPath path = .any then extRoot ++ path.drop 4 else path

def getData (ready : Bool) (path : Path) : Except FsError Path :=
  match getTypeByPath path with
  | .error => .error .invalidName
  | .int => .error .notReady
  | _ => if ready then .ok (redirectAny path) else .error .notReady

def trimTrailingSlashes (path : Path) : Path := (path.reverse.dropWhile (· = '/')).reverse

/-- `strcasecmp` finds no difference. -/
def caseEqual (p q : Path) : Prop := p.map Char.toLower = q.map Char.toLower

instance decidableCaseEqual (p q : Path) : Decidable (caseEqual p q) :=
  inferInstanceAs (Decidable (p.map Char.toLower = q.map Char.toLower))

/-- `storage_common_equivalent_path`, with `storage_process_common_equivalent_path` -/
def equivalentPath (ready : Bool) (appid path1 path2 : Path) : Bool :=
  let path1 := processAlias appid (trimTrailingSlashes path1)
  let path2 := processAlias appid (trimTrailingSlashes path2)
  if getTypeByPath path1 ≠ getTypeByPath path2 then false
  else match getData ready path1 with
    | .error _ => false
    | .ok path1 => decide (caseEqual path1 path2)

variable {ready : Bool} {appid p q path : Path}

def IsExt (p : Path) : Prop := getTypeByPath p = .ext

theorem isExt_iff : IsExt p ↔ ∃ r, p = extRoot ++ r ∧ ∀ c ∈ r.head?, c = '/' := by
  rw [IsExt, getTypeByPath]
  constructor
  · intro h
    split at h
    case isTrue => cases h
    case isFalse hslash =>
      split at h
      case isTrue hext =>
        refine ⟨p.drop 4, ?_, ?_⟩
        · rw [extRoot, ← hext, take_append_drop]
        · intro c hc
          rw [List.head?_drop] at hc
          by_contra hne
          obtain ⟨hlen, -⟩ := List.getElem?_eq_some_iff.mp hc
          exact hslash ⟨hlen, fun heq => hne (Option.some.inj (hc.symm.trans heq))⟩
      case isFalse => split at h <;> [exact absurd h (by simp); split at h <;> exact absurd h (by simp)]
  · rintro ⟨r, rfl, hr⟩
    have hslash : ¬ (4 < (extRoot ++ r).length ∧ (extRoot ++ r)[4]? ≠ some '/') := by
      rintro ⟨hlen, hne⟩
      cases r with
      | nil => exact absurd hlen (by decide)
      | cons c r =>
        obtain rfl := hr c rfl
        exact hne rfl
    rw [if_neg hslash]
    exact if_pos rfl

theorem redirectAny_of_isExt (h : IsExt p) : redirectAny p = p := by
  rw [redirectAny, h]
  rfl

theorem isExt_of_getData (h : getData ready path = .ok p) : IsExt p ∧ p = redirectAny path := by
  rw [getData] at h
  cases htype : getTypeByPath path with
  | error => simp [htype] at h
  | int => simp [htype] at h
  | ext =>
    simp only [htype] at h
    split at h
    · obtain rfl := Except.ok.inj h
      rw [redirectAny_of_isExt htype]
      exact ⟨htype, rfl⟩
    · cases h
  | any =>
    simp only [htype] at h
    split at h
    · obtain rfl := Except.ok.inj h
      refine ⟨isExt_iff.mpr ⟨path.drop 4, ?_, fun c hc => ?_⟩, rfl⟩
      · rw [redirectAny, if_pos htype]
      · rw [List.head?_drop] at hc
        by_contra hne
        obtain ⟨hlen, -⟩ := List.getElem?_eq_some_iff.mp hc
        rw [getTypeByPath, if_pos ⟨hlen, fun heq => hne (Option.some.inj (hc.symm.trans heq))⟩]
          at htype
        cases htype
    · cases h

theorem processAlias_of_isExt (h : IsExt p) : processAlias appid p = p := by
  obtain ⟨r, rfl, -⟩ := isExt_iff.mp h
  rfl

theorem isExt_trim (h : IsExt p) : IsExt (trimTrailingSlashes p) := by
  obtain ⟨r, rfl, hr⟩ := isExt_iff.mp h
  have htrim : trimTrailingSlashes (extRoot ++ r) = extRoot ++ trimTrailingSlashes r := by
    have hroot : extRoot.reverse.dropWhile (· = '/') = extRoot.reverse := by decide
    rw [trimTrailingSlashes, reverse_append, dropWhile_append, hroot]
    split
    case isTrue hnil =>
      rw [trimTrailingSlashes, isEmpty_iff.mp hnil, reverse_nil, append_nil, reverse_reverse]
    case isFalse =>
      rw [reverse_append, reverse_reverse]
      rfl
  rw [htrim, isExt_iff]
  refine ⟨trimTrailingSlashes r, rfl, fun c hc => hr c ?_⟩
  -- what is left after the trimming stands at the front of the path
  have hpre : trimTrailingSlashes r <+: r := by
    have h := (dropWhile_suffix (· = '/') (l := r.reverse))
    rw [← reverse_prefix, reverse_reverse] at h
    exact h
  obtain ⟨t, ht⟩ := hpre
  rw [← ht]
  exact mem_head?_append_of_mem_head? hc

/-- Two paths of the list are taken for the same when they differ in case and in slashes at their
ends only. -/
def SamePath (p q : Path) : Prop := caseEqual (trimTrailingSlashes p) (trimTrailingSlashes q)

instance decidableSamePath (p q : Path) : Decidable (SamePath p q) :=
  inferInstanceAs (Decidable (caseEqual _ _))

theorem equivalentPath_iff (hp : IsExt p) (hq : IsExt q) :
    equivalentPath true appid p q = true ↔ SamePath p q := by
  have hp' := isExt_trim hp
  have hq' := isExt_trim hq
  have hdata : getData true (trimTrailingSlashes p) = .ok (trimTrailingSlashes p) := by
    rw [getData, hp']
    simp [redirectAny_of_isExt hp']
  have htype : getTypeByPath (trimTrailingSlashes p) = getTypeByPath (trimTrailingSlashes q) :=
    hp'.trans hq'.symm
  rw [equivalentPath, processAlias_of_isExt hp', processAlias_of_isExt hq']
  simp only [ne_eq, htype, not_true_eq_false, if_false, hdata, decide_eq_true_eq]
  rfl

end NikitaFirmware.Storage
