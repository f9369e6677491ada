import Mathlib.Algebra.Ring.Nat
import Mathlib.Data.List.MinMax
import NikitaFirmware.Bridge.CommandOutput
import NikitaFirmware.Foundations.Splitting

/-!
# Walking the Flipper's directories

`storage_cli_list` prints a line for each entry of a directory, the size of a file behind its
name; `_flip_walk` reads the lines and walks into the directories. It takes the last word of a
file's line for the size if it ends with a digit, but the size ends with a `b`, so the paths it
returns still carry the sizes.

Names are what FAT stores: without a slash, an end of line or white space at their end.
-/

namespace NikitaFirmware.Bridge
open Foundations List

def slash : Char := '/'
def space : Char := ' '

structure Name where
  text : Text
  noSlash : slash ∉ text
  oneLine : OneLine text
  ends : ∃ front c, text = front ++ [c] ∧ isSpace c = false

/-- A directory in the order in which it is read, with its subdirectories. -/
inductive Listing
  | nil
  | file (name : Name) (size : Nat) (rest : Listing)
  | dir (name : Name) (entries : Listing) (rest : Listing)

namespace Listing

def sizeText (size : Nat) : Text := (Nat.repr (size % 2 ^ 32)).toList ++ ['b']

def lines : Listing → List Text
  | nil => []
  | file name size rest => (text "\t[F] " ++ name.text ++ space :: sizeText size) :: rest.lines
  | dir name _ rest => (text "\t[D] " ++ name.text) :: rest.lines

def storageCliList (t : Listing) : List Text := if t.lines = [] then [text "\tEmpty"] else t.lines

def names : Listing → List Text
  | nil => []
  | file name _ rest => name.text :: rest.names
  | dir name _ rest => name.text :: rest.names

/-- No directory has two entries of one name. -/
def Distinct : Listing → Prop
  | nil => True
  | file name _ rest => name.text ∉ rest.names ∧ rest.Distinct
  | dir name entries rest => name.text ∉ rest.names ∧ entries.Distinct ∧ rest.Distinct

def files (path : Text) : Listing → List Text
  | nil => []
  | file name _ rest => (path ++ slash :: name.text) :: rest.files path
  | dir name entries rest =>
    entries.files (path ++ slash :: name.text) ++ rest.files path

/-- The directories below a directory, with their full paths. -/
def subdirs (path : Text) : Listing → List (Text × Listing)
  | nil => []
  | file _ _ rest => rest.subdirs path
  | dir name entries rest =>
    (path ++ slash :: name.text, entries) ::
      (entries.subdirs (path ++ slash :: name.text) ++ rest.subdirs path)

end Listing

def rstripSlash (path : Text) : Text := path.rdropWhile (· = slash)

def lookup (root : Text) (tree : Listing) (path : Text) : Option Listing :=
  if path = root then some tree
  else ((tree.subdirs (rstripSlash root)).find? fun d => d.1 = path).map (·.2)

def listCommand (path : Text) : Text := text "storage list " ++ path

def runList (root : Text) (tree : Listing) (path : Text) : Text :=
  clean (shellText (listCommand path) (match lookup root tree path with
    | some t => t.storageCliList
    | none => [text "Storage error: file/dir not exist"])) (listCommand path)

def rsplitSpace (rest : Text) : Text :=
  match rest.rdropWhile (· ≠ space) with
  | [] => rest
  | front => front.dropLast

def fileName (rest : Text) : Text :=
  if rest.getLast?.any Char.isDigit then strip (rsplitSpace rest) else rest

/-- The loop of `_flip_walk`, over lines without the white space around them. -/
def walkLines (walk : Text → Option (List Text)) (path : Text) : List Text → Option (List Text)
  | [] => some []
  | line :: lines =>
    if (text "[F]").isPrefixOf line then do
      let name := fileName (strip (line.drop 3))
      let files ← walkLines walk path lines
      some ((rstripSlash path ++ slash :: name) :: files)
    else if (text "[D]").isPrefixOf line then do
      let inner ← walk (rstripSlash path ++ slash :: strip (line.drop 3))
      let files ← walkLines walk path lines
      some (inner ++ files)
    else walkLines walk path lines

def flipWalk (root : Text) (tree : Listing) : Nat → Text → Option (List Text)
  | 0, _ => none
  | fuel + 1, path =>
    walkLines (flipWalk root tree fuel) path ((splitlines (runList root tree path)).map strip)

section Lines

/-- What `str.strip` leaves of a name. -/
def Name.shown (name : Name) : Text := name.text.dropWhile isSpace

theorem Name.shown_ends (name : Name) :
    ∃ front c, name.shown = front ++ [c] ∧ isSpace c = false := by
  obtain ⟨front, c, htext, hc⟩ := name.ends
  refine ⟨front.dropWhile isSpace, c, ?_, hc⟩
  rw [Name.shown, htext, dropWhile_append]
  cases h : front.dropWhile isSpace with
  | nil => simp [hc]
  | cons d ds => simp

theorem Name.shown_ne_nil (name : Name) : name.shown ≠ [] := by
  obtain ⟨front, c, h, -⟩ := name.shown_ends
  simp [h]

theorem Name.strip_text (name : Name) : strip name.text = name.shown := by
  obtain ⟨front, c, htext, hc⟩ := name.ends
  rw [Name.shown, htext, strip_concat front hc]

theorem Name.shown_sub (name : Name) {c : Char} (hc : c ∈ name.shown) : c ∈ name.text :=
  (dropWhile_suffix isSpace).subset hc

theorem strip_space_append (name : Name) (tail : Text) (htail : tail = [] ∨
    ∃ front c, tail = front ++ [c] ∧ isSpace c = false) :
    strip (space :: (name.text ++ tail)) = name.shown ++ tail := by
  have hdrop : (name.text ++ tail).dropWhile isSpace = name.shown ++ tail := by
    have hne : ¬ (name.text.dropWhile isSpace).isEmpty := by
      rw [List.isEmpty_iff]
      exact name.shown_ne_nil
    rw [dropWhile_append, if_neg hne]
    rfl
  obtain rfl | ⟨front, c, rfl, hc⟩ := htail
  · rw [append_nil, append_nil, strip_cons_of_space (by decide), name.strip_text]
  · rw [strip_cons_of_space (by decide), ← append_assoc, strip_concat _ hc, append_assoc,
      hdrop]

theorem sizeText_ends (size : Nat) :
    ∃ front c, space :: Listing.sizeText size = front ++ [c] ∧ isSpace c = false :=
  ⟨space :: (Nat.repr (size % 2 ^ 32)).toList, 'b', rfl, by decide⟩

/-- What the walk takes for the name of a file: its size stays behind it. -/
def reported (name : Name) (size : Nat) : Text := name.shown ++ space :: Listing.sizeText size

theorem fileName_reported (name : Name) (size : Nat) :
    fileName (reported name size) = reported name size := by
  have hlast : (reported name size).getLast? = some 'b' := by
    rw [reported, Listing.sizeText, ← cons_append, ← append_assoc, getLast?_concat]
  rw [fileName, hlast, if_neg (by decide)]

def strippedLines : Listing → List Text
  | .nil => []
  | .file name size rest =>
    (text "[F] " ++ (name.text ++ space :: Listing.sizeText size)) :: strippedLines rest
  | .dir name _ rest => (text "[D] " ++ name.text) :: strippedLines rest

theorem strip_tag (tag : Text) (htag : tag.head?.any fun c => !isSpace c) (line : Text)
    (hline : ∃ front c, line = front ++ [c] ∧ isSpace c = false) :
    strip (Char.ofNat 9 :: (tag ++ line)) = tag ++ line := by
  obtain ⟨front, c, rfl, hc⟩ := hline
  rw [strip_cons_of_space (by decide), ← append_assoc, strip_concat _ hc]
  cases tag with
  | nil => cases htag
  | cons d tag =>
    rw [cons_append, cons_append, dropWhile_cons_of_neg (by simpa using htag)]

theorem map_strip_lines (t : Listing) : t.lines.map strip = strippedLines t := by
  induction t with
  | nil => rfl
  | file name size rest ih =>
    obtain ⟨front, c, hsize, hc⟩ := sizeText_ends size
    rw [Listing.lines, map_cons, ih, strippedLines, append_assoc]
    congr 1
    exact strip_tag (text "[F] ") (by decide) _ ⟨name.text ++ front, c, by rw [hsize]; simp, hc⟩
  | dir name entries rest ihe ih =>
    rw [Listing.lines, map_cons, ih, strippedLines]
    congr 1
    exact strip_tag (text "[D] ") (by decide) _ name.ends

variable {t : Listing}

theorem ne_nil_of_mem_strippedLines {line : Text} (h : line ∈ strippedLines t) : line ≠ [] := by
  induction t with
  | nil => exact absurd h not_mem_nil
  | file name size rest ih =>
    rcases mem_cons.mp h with rfl | h
    · exact cons_ne_nil _ _
    · exact ih h
  | dir name entries rest ihe ih =>
    rcases mem_cons.mp h with rfl | h
    · exact cons_ne_nil _ _
    · exact ih h

/-- The loop reads the entries off the stripped lines. -/
def walkListing (walk : Text → Option (List Text)) (path : Text) : Listing → Option (List Text)
  | .nil => some []
  | .file name size rest => do
    let files ← walkListing walk path rest
    some ((path ++ slash :: reported name size) :: files)
  | .dir name _ rest => do
    let inner ← walk (path ++ slash :: name.shown)
    let files ← walkListing walk path rest
    some (inner ++ files)

theorem walkLines_strippedLines (walk : Text → Option (List Text)) (path : Text) (t : Listing) :
    walkLines walk path (strippedLines t) = walkListing walk (rstripSlash path) t := by
  induction t with
  | nil => rfl
  | file name size rest ih =>
    have hdrop : (text "[F] " ++ (name.text ++ space :: Listing.sizeText size)).drop 3 =
        space :: (name.text ++ space :: Listing.sizeText size) := rfl
    have htag : (text "[F]").isPrefixOf
        (text "[F] " ++ (name.text ++ space :: Listing.sizeText size)) = true := rfl
    rw [strippedLines, walkLines, if_pos htag, hdrop,
      strip_space_append name _ (.inr (sizeText_ends size)), ← reported, ih]
    simp only [fileName_reported]
    rfl
  | dir name entries rest ihe ih =>
    have hdrop : (text "[D] " ++ name.text).drop 3 = space :: (name.text ++ []) := by
      rw [append_nil]
      rfl
    have hnot : (text "[F]").isPrefixOf (text "[D] " ++ name.text) = false := rfl
    have htag : (text "[D]").isPrefixOf (text "[D] " ++ name.text) = true := rfl
    rw [strippedLines, walkLines, if_neg (by rw [hnot]; exact Bool.false_ne_true), if_pos htag,
      hdrop, strip_space_append name [] (.inl rfl), append_nil, ih]
    rfl

theorem walkLines_filter (walk : Text → Option (List Text)) (path : Text) (lines : List Text) :
    walkLines walk path (lines.filter (· ≠ [])) = walkLines walk path lines := by
  induction lines with
  | nil => rfl
  | cons line lines ih =>
    by_cases hline : line = []
    · subst hline
      rw [filter_cons_of_neg (by simp), ih]
      rfl
    · rw [filter_cons_of_pos (by simpa using hline), walkLines, walkLines, ih]

theorem oneLine_append {a b : Text} (ha : OneLine a) (hb : OneLine b) : OneLine (a ++ b) :=
  fun c hc => (mem_append.mp hc).elim (ha c) (hb c)

theorem oneLine_lines {line : Text} (h : line ∈ t.lines) : OneLine line := by
  have hsize (size : Nat) : OneLine (space :: Listing.sizeText size) := by
    intro c hc
    rcases mem_cons.mp hc with rfl | hc
    · decide
    · rcases mem_append.mp hc with hc | hc
      · rw [Nat.toList_repr] at hc
        have hdigit : c.isDigit := Nat.isDigit_of_mem_toDigits (by omega) (by omega) hc
        have hrange : 48 ≤ c.toNat ∧ c.toNat ≤ 57 := by
          simpa [Char.isDigit, UInt32.le_iff_toNat_le] using hdigit
        simp [isLineBreak]
        omega
      · rw [mem_singleton.mp hc]
        decide
  induction t with
  | nil => exact absurd h not_mem_nil
  | file name size rest ih =>
    rcases mem_cons.mp h with rfl | h
    · exact oneLine_append (oneLine_append (oneLine_of_all (by decide)) name.oneLine) (hsize size)
    · exact ih h
  | dir name entries rest ihe ih =>
    rcases mem_cons.mp h with rfl | h
    · exact oneLine_append (oneLine_of_all (by decide)) name.oneLine
    · exact ih h

theorem endsText_lines {line : Text} (h : line ∈ t.lines) : EndsText line := by
  have hstrip : strip line ∈ strippedLines t := map_strip_lines t ▸ mem_map_of_mem h
  have hhead : ∀ l ∈ strippedLines t, l.head? = some '[' := by
    intro l hl
    clear h hstrip
    induction t with
    | nil => exact absurd hl not_mem_nil
    | file name size rest ih =>
      rcases mem_cons.mp hl with rfl | hl
      · rfl
      · exact ih hl
    | dir name entries rest ihe ih =>
      rcases mem_cons.mp hl with rfl | hl
      · rfl
      · exact ih hl
  refine ⟨⟨fun hnil => ?_, fun hprompt => ?_⟩, ?_⟩
  · exact ne_nil_of_mem_strippedLines hstrip hnil
  · exact absurd (hprompt ▸ hhead _ hstrip) (by decide)
  · clear hstrip hhead
    induction t with
    | nil => exact absurd h not_mem_nil
    | file name size rest ih =>
      rcases mem_cons.mp h with rfl | h
      · obtain ⟨front, c, hsize, hc⟩ := sizeText_ends size
        exact ⟨text "\t[F] " ++ name.text ++ front, c, by rw [hsize]; simp only [append_assoc], hc⟩
      · exact ih h
    | dir name entries rest ihe ih =>
      rcases mem_cons.mp h with rfl | h
      · obtain ⟨front, c, hname, hc⟩ := name.ends
        exact ⟨text "\t[D] " ++ front, c, by rw [hname, append_assoc], hc⟩
      · exact ih h

theorem nonblank_clean_of_lines {command : Text} {lines : List Text} (hcommand : OneLine command)
    (hc : command ≠ []) (hne : lines ≠ []) (hlines : ∀ line ∈ lines, OneLine line ∧ EndsText line) :
    nonblank (splitlines (clean (shellText command lines) command)) = nonblank lines := by
  obtain ⟨front, last, rfl⟩ := (eq_nil_or_concat lines).resolve_left hne
  rw [concat_eq_append] at hlines ⊢
  exact nonblank_clean hcommand hc (fun line hl => (hlines line hl).1) (hlines last (by simp)).2

theorem oneLine_listCommand {path : Text} (h : OneLine path) : OneLine (listCommand path) :=
  oneLine_append (oneLine_of_all (by decide)) h

theorem emptyLine_ends : OneLine (text "\tEmpty") ∧ EndsText (text "\tEmpty") :=
  ⟨oneLine_of_all rfl, ⟨by decide, by decide⟩, text "\tEmpt", 'y', rfl, rfl⟩

theorem errorLine_ends : OneLine (text "Storage error: file/dir not exist") ∧
    EndsText (text "Storage error: file/dir not exist") :=
  ⟨oneLine_of_all rfl, ⟨by decide, by decide⟩, text "Storage error: file/dir not exis", 't', rfl,
    rfl⟩

theorem flipWalk_succ (root : Text) (tree : Listing) (fuel : Nat) {path : Text}
    (hpath : OneLine path) : flipWalk root tree (fuel + 1) path = match lookup root tree path with
      | some t => walkListing (flipWalk root tree fuel) (rstripSlash path) t
      | none => some [] := by
  have hread (lines : List Text) (hne : lines ≠ [])
      (hlines : ∀ line ∈ lines, OneLine line ∧ EndsText line) :
      walkLines (flipWalk root tree fuel) path ((splitlines (clean (shellText (listCommand path)
        lines) (listCommand path))).map strip) =
      walkLines (flipWalk root tree fuel) path (lines.map strip) := by
    have hclean := nonblank_clean_of_lines (oneLine_listCommand hpath)
      (append_ne_nil_of_left_ne_nil (by decide) path) hne hlines
    unfold nonblank at hclean
    rw [← walkLines_filter, hclean, walkLines_filter]
  rw [flipWalk, runList]
  cases hlookup : lookup root tree path with
  | none =>
    dsimp only
    rw [hread [text "Storage error: file/dir not exist"] (cons_ne_nil _ _) ?_]
    · rfl
    · intro line hline
      rw [mem_singleton.mp hline]
      exact errorLine_ends
  | some t =>
    dsimp only
    rw [← walkLines_strippedLines, ← map_strip_lines, Listing.storageCliList]
    split
    · next hempty =>
      rw [hread [text "\tEmpty"] (cons_ne_nil _ _) ?_, hempty]
      · rfl
      · intro line hline
        rw [mem_singleton.mp hline]
        exact emptyLine_ends
    · next hne => exact hread _ hne fun line hl => ⟨oneLine_lines hl, endsText_lines hl⟩

end Lines

section Paths

theorem path_inj {a b x y : Text} (hx : slash ∉ x) (hy : slash ∉ y)
    (h : a ++ slash :: x = b ++ slash :: y) : a = b ∧ x = y :=
  (Foundations.SplitLast.split_inj hx hy).mp h

theorem slash_not_mem_reported (name : Name) (size : Nat) : slash ∉ reported name size := by
  intro h
  rcases mem_append.mp h with h | h
  · exact name.noSlash (name.shown_sub h)
  · rcases mem_cons.mp h with h | h
    · cases h
    · rcases mem_append.mp h with h | h
      · rw [Nat.toList_repr] at h
        exact absurd (Nat.isDigit_of_mem_toDigits (by omega) (by omega) h) (by decide)
      · exact absurd (mem_singleton.mp h) (by decide)

theorem rstripSlash_of_name (path : Text) (name : Name) :
    rstripSlash (path ++ slash :: name.text) = path ++ slash :: name.text := by
  obtain ⟨front, c, htext, -⟩ := name.ends
  have hc : c ≠ slash := by
    rintro rfl
    exact name.noSlash (by rw [htext]; simp)
  rw [htext, rstripSlash, ← cons_append, ← append_assoc]
  exact rdropWhile_concat_neg _ _ _ (by simpa using hc)

namespace Listing

/-- The files of a directory itself, with their sizes. -/
def fileEntries : Listing → List (Name × Nat)
  | nil => []
  | file name size rest => (name, size) :: rest.fileEntries
  | dir _ _ rest => rest.fileEntries

/-- A directory and the directories below it. -/
def dirs (path : Text) (t : Listing) : List (Text × Listing) := (path, t) :: t.subdirs path

/-- The path is the one of a file in the directory. -/
def InDir (p : Text) (d : Text × Listing) : Prop :=
  ∃ e ∈ d.2.fileEntries, p = d.1 ++ slash :: e.1.text

theorem inDir_file {path p : Text} {name : Name} {size : Nat} {rest : Listing} :
    InDir p (path, file name size rest) ↔ p = path ++ slash :: name.text ∨ InDir p (path, rest) := by
  constructor
  · rintro ⟨e, he, hp⟩
    rcases mem_cons.mp he with rfl | he
    · exact .inl hp
    · exact .inr ⟨e, he, hp⟩
  · rintro (hp | ⟨e, he, hp⟩)
    · exact ⟨(name, size), mem_cons_self, hp⟩
    · exact ⟨e, mem_cons_of_mem _ he, hp⟩

variable {t : Listing}

theorem mem_files {path p : Text} : p ∈ t.files path ↔ ∃ d ∈ t.dirs path, InDir p d := by
  induction t generalizing path with
  | nil => simp [files, dirs, subdirs, InDir, fileEntries]
  | file name size rest ih =>
    rw [files, mem_cons, ih]
    simp only [dirs, subdirs, mem_cons, exists_eq_or_imp, inDir_file, or_assoc]
  | dir name entries rest ihe ih =>
    rw [files, mem_append, ihe, ih]
    have hskip : InDir p (path, dir name entries rest) ↔ InDir p (path, rest) := Iff.rfl
    simp only [dirs, subdirs, mem_cons, mem_append, or_and_right, exists_or, exists_eq_left, hskip]
    constructor
    · rintro ((h | h) | (h | h))
      · exact .inr (.inl h)
      · exact .inr (.inr (.inl h))
      · exact .inl h
      · exact .inr (.inr (.inr h))
    · rintro (h | h | h | h)
      · exact .inr (.inl h)
      · exact .inl (.inl h)
      · exact .inl (.inr h)
      · exact .inr (.inr h)

theorem exists_name_of_mem_subdirs {path : Text} {d : Text × Listing}
    (h : d ∈ t.subdirs path) : rstripSlash d.1 = d.1 ∧ ∃ name ∈ t.names, ∃ tail,
      slash ∉ name ∧ (tail = [] ∨ ∃ x, tail = slash :: x) ∧ d.1 = path ++ slash :: (name ++ tail) := by
  induction t generalizing path with
  | nil => exact absurd h not_mem_nil
  | file name size rest ih =>
    obtain ⟨hstrip, n, hn, tail, hrest⟩ := ih h
    exact ⟨hstrip, n, mem_cons_of_mem _ hn, tail, hrest⟩
  | dir name entries rest ihe ih =>
    rcases mem_cons.mp h with rfl | h
    · exact ⟨rstripSlash_of_name path name, name.text, mem_cons_self, [], name.noSlash, .inl rfl,
        by rw [append_nil]⟩
    · rcases mem_append.mp h with h | h
      · obtain ⟨hstrip, n, -, tail, -, -, hd⟩ := ihe h
        refine ⟨hstrip, name.text, mem_cons_self, slash :: (n ++ tail), name.noSlash,
          .inr ⟨_, rfl⟩, ?_⟩
        rw [hd, append_assoc, cons_append]
      · obtain ⟨hstrip, n, hn, tail, hrest⟩ := ih h
        exact ⟨hstrip, n, mem_cons_of_mem _ hn, tail, hrest⟩

theorem first_name_eq {path n n' tail tail' : Text} (hn : slash ∉ n) (hn' : slash ∉ n')
    (htail : tail = [] ∨ ∃ x, tail = slash :: x) (htail' : tail' = [] ∨ ∃ x, tail' = slash :: x)
    (h : path ++ slash :: (n ++ tail) = path ++ slash :: (n' ++ tail')) : n = n' := by
  have htake {m tail : Text} (hm : slash ∉ m) (ht : tail = [] ∨ ∃ x, tail = slash :: x) :
      (m ++ tail).takeWhile (· ≠ slash) = m := by
    have hall : ∀ c ∈ m, decide (c ≠ slash) = true :=
      fun c hc => decide_eq_true fun he => hm (he ▸ hc)
    rw [takeWhile_append_of_pos hall]
    obtain rfl | ⟨x, rfl⟩ := ht
    · simp
    · simp
  have hrest : n ++ tail = n' ++ tail' := (cons.inj (append_cancel_left h)).2
  rw [← htake hn htail, hrest, htake hn' htail']

theorem subdirs_unique {path q : Text} {Q Q' : Listing} (ht : t.Distinct)
    (h : (q, Q) ∈ t.subdirs path) (h' : (q, Q') ∈ t.subdirs path) : Q = Q' := by
  induction t generalizing path with
  | nil => exact absurd h not_mem_nil
  | file name size rest ih => exact ih ht.2 h h'
  | dir name entries rest ihe ih =>
    obtain ⟨hname, hentries, hrest⟩ := ht
    -- the directory itself, those within it, and those behind it have different paths
    have hself {P : Listing} (hP : (q, P) ∈ entries.subdirs (path ++ slash :: name.text)) :
        q ≠ path ++ slash :: name.text := by
      obtain ⟨-, n, -, tail, -, -, hq⟩ := exists_name_of_mem_subdirs hP
      intro heq
      have hlen := congrArg length (hq.symm.trans heq)
      simp at hlen
    have hbehind {P : Listing} (hP : (q, P) ∈ rest.subdirs path) (tail : Text)
        (htail : tail = [] ∨ ∃ x, tail = slash :: x) :
        q ≠ path ++ slash :: (name.text ++ tail) := by
      obtain ⟨-, n, hn, tail', hslash, htail', hq⟩ := exists_name_of_mem_subdirs hP
      intro heq
      exact hname (first_name_eq name.noSlash hslash htail htail' (heq.symm.trans hq) ▸ hn)
    have hwithin {P : Listing} (hP : (q, P) ∈ entries.subdirs (path ++ slash :: name.text)) :
        ∃ x, q = path ++ slash :: (name.text ++ slash :: x) := by
      obtain ⟨-, n, -, tail, -, -, hq⟩ := exists_name_of_mem_subdirs hP
      exact ⟨n ++ tail, hq.trans (by rw [append_assoc, cons_append])⟩
    rcases mem_cons.mp h with h | h <;> rcases mem_cons.mp h' with h' | h'
    · rw [(Prod.mk.inj h).2, (Prod.mk.inj h').2]
    · obtain ⟨hq, -⟩ := Prod.mk.inj h
      rcases mem_append.mp h' with h' | h'
      · exact absurd hq (hself h')
      · exact absurd (hq.trans (by rw [append_nil])) (hbehind h' [] (.inl rfl))
    · obtain ⟨hq, -⟩ := Prod.mk.inj h'
      rcases mem_append.mp h with h | h
      · exact absurd hq (hself h)
      · exact absurd (hq.trans (by rw [append_nil])) (hbehind h [] (.inl rfl))
    · rcases mem_append.mp h with h | h <;> rcases mem_append.mp h' with h' | h'
      · exact ihe hentries h h'
      · obtain ⟨x, hx⟩ := hwithin h
        exact absurd hx (hbehind h' _ (.inr ⟨x, rfl⟩))
      · obtain ⟨x, hx⟩ := hwithin h'
        exact absurd hx (hbehind h _ (.inr ⟨x, rfl⟩))
      · exact ih hrest h h'

theorem dirs_unique {path q : Text} {Q Q' : Listing} (ht : t.Distinct)
    (h : (q, Q) ∈ t.dirs path) (h' : (q, Q') ∈ t.dirs path) : Q = Q' := by
  have hself {P : Listing} (hP : (path, P) ∈ t.subdirs path) : False := by
    obtain ⟨-, n, -, tail, -, -, hq⟩ := exists_name_of_mem_subdirs hP
    have hlen := congrArg length hq
    simp at hlen
  rcases mem_cons.mp h with h | h <;> rcases mem_cons.mp h' with h' | h'
  · rw [(Prod.mk.inj h).2, (Prod.mk.inj h').2]
  · exact (hself ((Prod.mk.inj h).1 ▸ h')).elim
  · exact (hself ((Prod.mk.inj h').1 ▸ h)).elim
  · exact subdirs_unique ht h h'

end Listing

theorem mem_dirs_of_lookup {root q : Text} {tree Q : Listing} (h : lookup root tree q = some Q) :
    (rstripSlash q, Q) ∈ tree.dirs (rstripSlash root) := by
  unfold lookup at h
  split at h
  · next hq =>
    rw [hq, ← Option.some.inj h]
    exact mem_cons_self
  · obtain ⟨d, hfind, rfl⟩ := Option.map_eq_some_iff.mp h
    have hd := mem_of_find?_eq_some hfind
    have hpath : d.1 = q := by simpa using find?_some hfind
    rw [← hpath, (Listing.exists_name_of_mem_subdirs hd).1]
    exact mem_cons_of_mem _ hd

theorem oneLine_child {path : Text} (h : OneLine path) (name : Name) :
    OneLine (rstripSlash path ++ slash :: name.shown) := by
  refine oneLine_append (fun c hc => h c ((List.rdropWhile_prefix _ _).subset hc)) ?_
  intro c hc
  rcases mem_cons.mp hc with rfl | hc
  · decide
  · exact name.oneLine c (name.shown_sub hc)

end Paths

section Walk

variable {walk : Text → Option (List Text)} {path root : Text} {t tree : Listing}
  {result : List Text}

theorem walkListing_spec (h : walkListing walk path t = some result) :
    (∀ e ∈ t.fileEntries, path ++ slash :: reported e.1 e.2 ∈ result) ∧
      ∀ r ∈ result, (∃ e ∈ t.fileEntries, r = path ++ slash :: reported e.1 e.2) ∨
        ∃ (name : Name) (inner : List Text), walk (path ++ slash :: name.shown) = some inner ∧
          r ∈ inner ∧ inner ⊆ result := by
  induction t generalizing result with
  | nil =>
    cases h
    exact ⟨fun e he => absurd he not_mem_nil, fun r hr => absurd hr not_mem_nil⟩
  | file name size rest ih =>
    obtain ⟨files, hfiles, heq⟩ := Option.bind_eq_some_iff.mp h
    cases heq
    obtain ⟨hreports, hrest⟩ := ih hfiles
    refine ⟨fun e he => ?_, fun r hr => ?_⟩
    · rcases mem_cons.mp he with rfl | he
      · exact mem_cons_self
      · exact mem_cons_of_mem _ (hreports e he)
    · rcases mem_cons.mp hr with rfl | hr
      · exact .inl ⟨(name, size), mem_cons_self, rfl⟩
      · rcases hrest r hr with ⟨e, he, hreq⟩ | ⟨n, inner, hwalk, hmem, hsub⟩
        · exact .inl ⟨e, mem_cons_of_mem _ he, hreq⟩
        · exact .inr ⟨n, inner, hwalk, hmem, fun x hx => mem_cons_of_mem _ (hsub hx)⟩
  | dir name entries rest ihe ih =>
    obtain ⟨inner, hinner, h⟩ := Option.bind_eq_some_iff.mp h
    obtain ⟨files, hfiles, heq⟩ := Option.bind_eq_some_iff.mp h
    cases heq
    obtain ⟨hreports, hrest⟩ := ih hfiles
    refine ⟨fun e he => mem_append_right _ (hreports e he), fun r hr => ?_⟩
    rcases mem_append.mp hr with hr | hr
    · exact .inr ⟨name, inner, hinner, hr, subset_append_left _ _⟩
    · rcases hrest r hr with ⟨e, he, hreq⟩ | ⟨n, inner', hwalk, hmem, hsub⟩
      · exact .inl ⟨e, he, hreq⟩
      · exact .inr ⟨n, inner', hwalk, hmem, fun x hx => mem_append_right _ (hsub hx)⟩

theorem flipWalk_spec (fuel : Nat) (hpath : OneLine path)
    (h : flipWalk root tree fuel path = some result) (r : Text) (hr : r ∈ result) :
    ∃ q Q, lookup root tree q = some Q ∧
      (∃ e ∈ Q.fileEntries, r = rstripSlash q ++ slash :: reported e.1 e.2) ∧
      ∀ e ∈ Q.fileEntries, rstripSlash q ++ slash :: reported e.1 e.2 ∈ result := by
  induction fuel generalizing path result r with
  | zero => cases h
  | succ fuel ih =>
    rw [flipWalk_succ root tree fuel hpath] at h
    cases hlookup : lookup root tree path with
    | none =>
      rw [hlookup] at h
      cases h
      exact absurd hr not_mem_nil
    | some Q =>
      rw [hlookup] at h
      obtain ⟨hreports, hrest⟩ := walkListing_spec h
      rcases hrest r hr with hown | ⟨name, inner, hwalk, hmem, hsub⟩
      · exact ⟨path, Q, hlookup, hown, hreports⟩
      · obtain ⟨q, P, hq, hown, hall⟩ := ih (oneLine_child hpath name) hwalk r hmem
        exact ⟨q, P, hq, hown, fun e he => hsub (hall e he)⟩

theorem exists_walkListing (h : ∀ name : Name, ∃ inner, walk (path ++ slash :: name.shown) = some inner) :
    ∃ result, walkListing walk path t = some result := by
  induction t with
  | nil => exact ⟨[], rfl⟩
  | file name size rest ih =>
    obtain ⟨files, hfiles⟩ := ih
    exact ⟨_, by rw [walkListing, hfiles]; rfl⟩
  | dir name entries rest ihe ih =>
    obtain ⟨files, hfiles⟩ := ih
    obtain ⟨inner, hinner⟩ := h name
    exact ⟨_, by rw [walkListing, hinner, hfiles]; rfl⟩

theorem rstripSlash_child (path : Text) (name : Name) :
    rstripSlash (rstripSlash path ++ slash :: name.shown) =
      rstripSlash path ++ slash :: name.shown := by
  obtain ⟨front, c, hshown, -⟩ := name.shown_ends
  have hc : c ≠ slash := by
    rintro rfl
    exact name.noSlash (name.shown_sub (by rw [hshown]; simp))
  rw [hshown, rstripSlash, ← cons_append, ← append_assoc]
  exact rdropWhile_concat_neg _ _ _ (by simpa using hc)

theorem exists_flipWalk {bound : Nat}
    (hbound : ∀ d ∈ tree.dirs (rstripSlash root), d.1.length ≤ bound) (fuel : Nat)
    (hpath : OneLine path) (hfuel : bound + 2 ≤ fuel + 1 + (rstripSlash path).length) :
    ∃ result, flipWalk root tree (fuel + 1) path = some result := by
  induction fuel generalizing path with
  | zero =>
    rw [flipWalk_succ root tree 0 hpath]
    cases hlookup : lookup root tree path with
    | none => exact ⟨[], rfl⟩
    | some Q =>
      have := hbound _ (mem_dirs_of_lookup hlookup)
      dsimp only at this
      omega
  | succ fuel ih =>
    rw [flipWalk_succ root tree (fuel + 1) hpath]
    cases hlookup : lookup root tree path with
    | none => exact ⟨[], rfl⟩
    | some Q =>
      refine exists_walkListing fun name => ih (oneLine_child hpath name) ?_
      rw [rstripSlash_child, length_append, length_cons]
      omega

theorem not_all_reported (hne : t.fileEntries ≠ []) :
    ∃ e ∈ t.fileEntries, ∀ e' ∈ t.fileEntries, e'.1.text ≠ reported e.1 e.2 := by
  obtain ⟨e, he⟩ := Option.ne_none_iff_exists'.mp
    (mt (argmax_eq_none (f := fun e : Name × Nat => e.1.shown.length)).mp hne)
  refine ⟨e, argmax_mem he, fun e' he' heq => ?_⟩
  have hmax := le_of_mem_argmax (f := fun e : Name × Nat => e.1.shown.length) he' he
  -- a report starts with no white space, so all of it would be shown again
  have hshown : e'.1.shown = reported e.1 e.2 := by
    obtain ⟨c, cs, hcs⟩ := exists_cons_of_ne_nil e.1.shown_ne_nil
    have hc : isSpace c = false := by
      have hdrop := head_dropWhile_not isSpace (l := e.1.text) e.1.shown_ne_nil
      have hhead : e.1.shown.head e.1.shown_ne_nil = c := by simp [hcs]
      exact hhead ▸ hdrop
    rw [Name.shown, heq, reported, hcs, cons_append,
      dropWhile_cons_of_neg (by rw [hc]; exact Bool.false_ne_true)]
  have hlen := congrArg length hshown
  rw [reported, length_append, length_cons] at hlen
  omega

end Walk

/-- Every walk comes to an end, and it returns exactly the paths of the files below its root,
each once, if and only if there is none. -/
theorem flipWalk_files_iff (root : Text) (tree : Listing) (hroot : OneLine root)
    (htree : tree.Distinct) :
    (∃ fuel result, flipWalk root tree fuel root = some result) ∧
      ∀ fuel result, flipWalk root tree fuel root = some result →
        (result.Perm (tree.files (rstripSlash root)) ↔ tree.files (rstripSlash root) = []) := by
  refine ⟨?_, fun fuel result h => ⟨fun hperm => ?_, fun hnil => ?_⟩⟩
  · obtain ⟨longest, hlongest⟩ := Option.ne_none_iff_exists'.mp
      (mt (argmax_eq_none (f := fun d : Text × Listing => d.1.length)).mp
        (cons_ne_nil (rstripSlash root, tree) (tree.subdirs (rstripSlash root))))
    have hbound : ∀ d ∈ tree.dirs (rstripSlash root), d.1.length ≤ longest.1.length :=
      fun d hd => le_of_mem_argmax (f := fun d : Text × Listing => d.1.length) hd hlongest
    exact ⟨_, exists_flipWalk hbound (longest.1.length + 1) hroot (by omega)⟩
  · by_contra hne
    obtain ⟨p, hp⟩ := exists_mem_of_ne_nil _ hne
    obtain ⟨q, Q, hlookup, ⟨e, he, -⟩, hall⟩ :=
      flipWalk_spec fuel hroot h p (hperm.mem_iff.mpr hp)
    obtain ⟨m, hm, hlongest⟩ := not_all_reported (ne_nil_of_mem he)
    -- the report of the longest name would be the path of a file of the same directory
    obtain ⟨d, hd, e', he', hpath⟩ := Listing.mem_files.mp (hperm.mem_iff.mp (hall m hm))
    obtain ⟨hdir, hname⟩ := path_inj (slash_not_mem_reported m.1 m.2) e'.1.noSlash hpath
    have hsame : d.2 = Q := by
      refine Listing.dirs_unique htree (q := d.1) hd ?_
      rw [← hdir]
      exact mem_dirs_of_lookup hlookup
    exact hlongest e' (hsame ▸ he') hname.symm
  · have hempty : result = [] := by
      by_contra hne
      obtain ⟨r, hr⟩ := exists_mem_of_ne_nil _ hne
      obtain ⟨q, Q, hlookup, ⟨e, he, -⟩, -⟩ := flipWalk_spec fuel hroot h r hr
      have hfile := Listing.mem_files.mpr ⟨_, mem_dirs_of_lookup hlookup, e, he, rfl⟩
      rw [hnil] at hfile
      exact absurd hfile not_mem_nil
    rw [hempty, hnil]

def Name.ofText (t : Text) (h : slash ∉ t ∧ (t.all fun c => !isLineBreak c) = true ∧
    t.getLast?.all (fun c => !isSpace c) = true ∧ t ≠ []) : Name where
  text := t
  noSlash := h.1
  oneLine := oneLine_of_all h.2.1
  ends := by
    refine ⟨t.dropLast, t.getLast h.2.2.2, (dropLast_append_getLast h.2.2.2).symm, ?_⟩
    have hlast := h.2.2.1
    rw [getLast?_eq_some_getLast h.2.2.2] at hlast
    simpa using hlast

def fontsName : Name := .ofText (text "my fonts [2]") (by decide)
def logName : Name := .ofText (text "log.txt") (by decide)

/-- A tree of directories without a file. -/
def bareTree : Listing := .dir fontsName .nil .nil

theorem bareTree_walked :
    (∃ fuel result, flipWalk (text "/ext") bareTree fuel (text "/ext") = some result) ∧
      ∀ fuel result, flipWalk (text "/ext") bareTree fuel (text "/ext") = some result →
        (result.Perm (bareTree.files (rstripSlash (text "/ext"))) ↔
          bareTree.files (rstripSlash (text "/ext")) = []) :=
  flipWalk_files_iff (text "/ext") bareTree (oneLine_of_all rfl) ⟨not_mem_nil, trivial, trivial⟩

/-- One file is enough to walk wrongly. -/
theorem flipWalk_keeps_size : ¬ ∀ (root : Text) (tree : Listing), OneLine root → tree.Distinct →
    ∃ fuel result, flipWalk root tree fuel root = some result ∧
      result.Perm (tree.files (rstripSlash root)) := by
  intro hall
  have hroot : OneLine (text "/ext") := oneLine_of_all rfl
  obtain ⟨fuel, result, h, hperm⟩ := hall (text "/ext") (.file logName 12 .nil) hroot
    ⟨not_mem_nil, trivial⟩
  cases fuel with
  | zero => cases h
  | succ fuel =>
    have hlookup : lookup (text "/ext") (.file logName 12 .nil) (text "/ext") =
        some (.file logName 12 .nil) := if_pos rfl
    rw [flipWalk_succ _ _ _ hroot, hlookup] at h
    have hresult : [text "/ext/log.txt 12b"] = result := Option.some.inj h
    exact absurd (hresult ▸ hperm) (by decide)

end NikitaFirmware.Bridge
