import NikitaFirmware.Foundations.Splitting

/-!
# Paths

`lib/toolbox/path.c`. A path is taken apart at its last slash and put together again. Both parts are
cleaned when they are put together: blanks at either end go, and so do slashes between the parts.

A string is the list of the characters in front of its terminating zero.
-/

namespace NikitaFirmware.Toolbox.Path
open Foundations.SplitLast List

abbrev FuriString := List Char

/-- `furi_string_search_rchar`; no position stands for `FURI_STRING_FAILURE`, the greatest
`size_t`. -/
def searchRchar (string : FuriString) (c : Char) : Option Nat := lastIndex? c string

/-- A position that was searched for, plus one: behind `FURI_STRING_FAILURE` comes zero. -/
def next : Option Nat → Nat
  | none => 0
  | some pos => pos + 1

def left (string : FuriString) (index : Nat) : FuriString := string.take index

def right (string : FuriString) (index : Nat) : FuriString := string.drop index

def setN (ref : FuriString) (offset length : Nat) : FuriString := (ref.drop offset).take length

/-- The characters that `furi_string_trim` removes. -/
def isBlank (c : Char) : Bool := c == ' ' || c == '\n' || c == '\r' || c == '\t'

def isSlash (c : Char) : Bool := c == '/'

/-- `path_cleanup`; the loop takes one slash after the other from the end. -/
def pathCleanup (path : FuriString) : FuriString := (trimBoth isBlank path).rdropWhile isSlash

def pathExtractFilename (path name : FuriString) (trimExt : Bool) : FuriString :=
  let filenameStart := searchRchar path '/'
  let name :=
    -- not finding a slash is a position above zero
    if filenameStart ≠ some 0 then
      setN path (next filenameStart) (path.length - next filenameStart)
    else name
  if trimExt then
    match searchRchar name '.' with
    | some 0 => name
    | some dot => left name dot
    | none => name
  else name

def pathExtractBasename (path : FuriString) : FuriString :=
  match searchRchar (pathCleanup path) '/' with
  | some pos => right (pathCleanup path) (pos + 1)
  | none => pathCleanup path

def pathExtractDirname (path : FuriString) : FuriString :=
  match searchRchar (pathCleanup path) '/' with
  | some pos => left (pathCleanup path) pos
  | none => pathCleanup path

def pathAppend (path suffix : FuriString) : FuriString :=
  pathCleanup path ++ '/' :: trimBoth isSlash (trimBoth isBlank suffix)

def pathConcat (path suffix : FuriString) : FuriString := pathAppend path suffix

def withoutTrailing (path : FuriString) : FuriString := path.rdropWhile isSlash

def lastText (path : FuriString) : FuriString := path.rtakeWhile fun c => !isSlash c

/-- No blank stands at either end. -/
def Trimmed (string : FuriString) : Prop :=
  (∀ c ∈ string.head?, isBlank c = false) ∧ ∀ c ∈ string.getLast?, isBlank c = false

/-- The last component begins and ends with no blank, and neither a blank nor another slash stands
in front of its slash. -/
def PlainlyJoined (path : FuriString) : Prop :=
  ∃ dirname basename, withoutTrailing path = dirname ++ '/' :: basename ∧ '/' ∉ basename ∧
    Trimmed basename ∧ ∀ c ∈ dirname.getLast?, isBlank c = false ∧ isSlash c = false

variable {path string dirname basename : FuriString}

theorem isSlash_eq_true {c : Char} : isSlash c = true ↔ c = '/' := beq_iff_eq

theorem pathCleanup_of_trimmed (h : Trimmed path) : pathCleanup path = withoutTrailing path := by
  rw [pathCleanup, trimBoth_eq_self.mpr h, withoutTrailing]

theorem pathCleanup_eq_self : pathCleanup string = string ↔
      Trimmed string ∧ ∀ c ∈ string.getLast?, isSlash c = false := by
  rw [Trimmed, ← trimBoth_eq_self, ← rdropWhile_eq_self, pathCleanup]
  constructor
  · intro h
    have hle := (List.rdropWhile_prefix isSlash (trimBoth isBlank string)).length_le
    rw [h] at hle
    have hsame := trimBoth_of_length_le hle
    rw [hsame] at h
    exact ⟨hsame, h⟩
  · rintro ⟨htrim, hstrip⟩
    rw [htrim, hstrip]

theorem extract_of_split (hpath : pathCleanup path = dirname ++ '/' :: basename)
    (hbasename : '/' ∉ basename) :
    pathExtractDirname path = dirname ∧ pathExtractBasename path = basename := by
  have hfound : searchRchar (pathCleanup path) '/' = some dirname.length := by
    rw [hpath]
    exact lastIndex?_split hbasename
  constructor
  · rw [pathExtractDirname, hfound, hpath]
    exact take_left
  · rw [pathExtractBasename, hfound, hpath]
    change (dirname ++ '/' :: basename).drop (dirname.length + 1) = basename
    rw [← drop_drop, drop_left]
    rfl

theorem isSlash_of_not_mem (h : '/' ∉ string) : ∀ c ∈ string, isSlash c = false := fun _ hc =>
  eq_false_of_ne_true fun hslash => h (isSlash_eq_true.mp hslash ▸ hc)

theorem trimBoth_isSlash (h : '/' ∉ string) : trimBoth isSlash string = string :=
  trimBoth_eq_self.mpr ⟨fun c hc => isSlash_of_not_mem h c (mem_of_mem_head? hc),
    fun c hc => isSlash_of_not_mem h c (mem_of_mem_getLast? hc)⟩

theorem pathConcat_eq_iff (hbasename : '/' ∉ basename) :
    pathConcat dirname basename = dirname ++ '/' :: basename ↔
      pathCleanup dirname = dirname ∧ Trimmed basename := by
  have htrimmed : '/' ∉ trimBoth isBlank basename := fun hmem =>
    hbasename (mem_of_mem_trimBoth hmem)
  rw [pathConcat, pathAppend, trimBoth_isSlash htrimmed, split_inj htrimmed hbasename,
    trimBoth_eq_self]
  rfl

theorem not_isSlash_of_not_mem (h : '/' ∉ string) : ∀ c ∈ string, (!isSlash c) = true := by
  intro c hc
  rw [isSlash_of_not_mem h c hc]
  rfl

theorem lastText_of_not_mem (h : '/' ∉ string) : lastText string = string :=
  rtakeWhile_eq_self_iff.mpr (not_isSlash_of_not_mem h)

theorem lastText_split (h : '/' ∉ basename) : lastText (dirname ++ '/' :: basename) = basename := by
  have hall : ∀ c ∈ basename.reverse, (!isSlash c) = true := fun c hc =>
    not_isSlash_of_not_mem h c (mem_reverse.mp hc)
  rw [lastText, List.rtakeWhile, reverse_append, reverse_cons, append_assoc,
    takeWhile_append_of_pos hall]
  change (basename.reverse ++ []).reverse = basename
  rw [append_nil, reverse_reverse]

theorem setN_drop (string : FuriString) (offset : Nat) :
    setN string offset (string.length - offset) = string.drop offset :=
  take_of_length_le length_drop.le

theorem head?_dirname (hsplit : withoutTrailing path = dirname ++ '/' :: basename) {c : Char}
    (hc : c ∈ dirname.head?) : c ∈ path.head? := by
  obtain ⟨rest, hrest⟩ := List.rdropWhile_prefix isSlash path
  rw [withoutTrailing] at hsplit
  rw [← hrest, hsplit]
  cases dirname with
  | nil => cases hc
  | cons d dirname => exact hc

/-- A path taken apart and put together is the path without trailing slashes, exactly when it is
plainly joined; and the name of a file is the text behind the last slash, unless that comes first. -/
theorem path_algebra : (∀ path : FuriString, path ≠ [] → Trimmed path → '/' ∈ withoutTrailing path →
      (pathConcat (pathExtractDirname path) (pathExtractBasename path) = withoutTrailing path ↔
        PlainlyJoined path)) ∧
    ∀ path name : FuriString, searchRchar path '/' ≠ some 0 →
      pathExtractFilename path name false = lastText path := by
  constructor
  · intro path _ htrimmed hslash
    obtain ⟨dirname, basename, hsplit, hbasename⟩ := exists_split hslash
    have hclean := (pathCleanup_of_trimmed htrimmed).trans hsplit
    obtain ⟨hdirname, hname⟩ := extract_of_split hclean hbasename
    rw [hdirname, hname, hsplit, pathConcat_eq_iff hbasename, pathCleanup_eq_self]
    constructor
    · rintro ⟨⟨hdir, hend⟩, hbase⟩
      exact ⟨dirname, basename, hsplit, hbasename, hbase, fun c hc => ⟨hdir.2 c hc, hend c hc⟩⟩
    · rintro ⟨dirname', basename', hsplit', hbasename', hbase, hend⟩
      obtain ⟨rfl, rfl⟩ := (split_inj hbasename' hbasename).mp (hsplit'.symm.trans hsplit)
      refine ⟨⟨⟨fun c hc => ?_, fun c hc => (hend c hc).1⟩, fun c hc => (hend c hc).2⟩, hbase⟩
      exact htrimmed.1 c (head?_dirname hsplit hc)
  · intro path name hfirst
    rw [pathExtractFilename, if_pos hfirst, if_neg Bool.false_ne_true, setN_drop]
    by_cases hslash : '/' ∈ path
    · obtain ⟨dirname, basename, rfl, hbasename⟩ := exists_split hslash
      have hfound : searchRchar (dirname ++ '/' :: basename) '/' = some dirname.length :=
        lastIndex?_split hbasename
      rw [hfound, lastText_split hbasename, next, ← drop_drop, drop_left]
      rfl
    · have hnone : searchRchar path '/' = none := lastIndex?_of_not_mem hslash
      rw [hnone, lastText_of_not_mem hslash]
      rfl

theorem path_algebra_ext :
    pathConcat (pathExtractDirname "/ext/a.b//".toList) (pathExtractBasename "/ext/a.b//".toList) =
        "/ext/a.b".toList ∧
      pathExtractFilename "a.b".toList "old".toList false = "a.b".toList := by
  have halgebra := path_algebra
  refine ⟨(halgebra.1 "/ext/a.b//".toList (by decide) ?_ (by decide)).mpr ?_,
    halgebra.2 "a.b".toList "old".toList (by decide)⟩
  · exact ⟨fun c hc => (by cases hc; rfl), fun c hc => (by cases hc; rfl)⟩
  · refine ⟨"/ext".toList, "a.b".toList, by decide, by decide, ?_, fun c hc => ?_⟩
    · exact ⟨fun c hc => (by cases hc; rfl), fun c hc => (by cases hc; rfl)⟩
    · cases hc
      exact ⟨rfl, rfl⟩

/-- A second slash between the components is dropped, and so is a blank in front of a name. -/
theorem pathConcat_normalises :
    ¬ ∀ path : FuriString, path ≠ [] → Trimmed path → '/' ∈ withoutTrailing path →
      pathConcat (pathExtractDirname path) (pathExtractBasename path) = withoutTrailing path := by
  intro h
  have htrimmed : Trimmed "a//b".toList :=
    ⟨fun c hc => (by cases hc; rfl), fun c hc => (by cases hc; rfl)⟩
  exact absurd (h "a//b".toList (by decide) htrimmed (by decide)) (by decide)

end NikitaFirmware.Toolbox.Path
