import Mathlib.Order.Nat
import NikitaFirmware.Bridge.Text

/-!
# The output of a command as the bridge's helpers read it

The shell echoes a command line, prints the command's lines and then its prompt. `_clean` takes
echo and prompt off and `str.splitlines` gives the lines back, up to white space at both ends of
a line and up to blank lines.
-/

namespace NikitaFirmware.Bridge
open Foundations List

def cr : Char := Char.ofNat 13
def lf : Char := Char.ofNat 10

/-- The characters at which `str.splitlines` ends a line. -/
def isLineBreak (c : Char) : Bool :=
  let n := c.toNat
  (10 ≤ n && n ≤ 13) || (28 ≤ n && n ≤ 30) || n == 0x85 || n == 0x2028 || n == 0x2029

def splitlines : Text → List Text
  | [] => []
  | [c] => if isLineBreak c then [[]] else [[c]]
  | c :: d :: t =>
    if c = cr ∧ d = lf then [] :: splitlines t
    else if isLineBreak c then [] :: splitlines (d :: t)
    else match splitlines (d :: t) with
      | [] => [[c]]
      | line :: lines => (c :: line) :: lines

def replaceCrLf : Text → Text
  | [] => []
  | [c] => [c]
  | c :: d :: t => if c = cr ∧ d = lf then lf :: replaceCrLf t else c :: replaceCrLf (d :: t)

def replaceNewlines (t : Text) : Text := (replaceCrLf t).map fun c => if c = cr then lf else c

def dropEcho (command : Text) : List Text → List Text
  | [] => []
  | line :: lines => if command ≠ [] ∧ strip line = strip command then lines else line :: lines

/-- The last lines go if they are blank or the prompt. -/
def dropPrompt (lines : List Text) : List Text :=
  lines.rdropWhile fun line => strip line = [] || strip line = text ">:"

/-- `Flipper._clean`, of a decoded output. -/
def clean (raw command : Text) : Text :=
  strip ([lf].intercalate (dropPrompt (dropEcho command ((replaceNewlines raw).splitOn lf))))

def shellText (command : Text) (lines : List Text) : Text :=
  command ++ cr :: lf :: (lines.flatMap (· ++ [cr, lf]) ++ cr :: lf :: text ">: ")

/-- The lines that are not blank, without the white space around them. -/
def nonblank (lines : List Text) : List Text := (lines.map strip).filter (· ≠ [])

section Strip

theorem strip_cons_of_space {c : Char} (h : isSpace c) (t : Text) : strip (c :: t) = strip t := by
  rw [strip, dropWhile_cons_of_pos h, strip]

theorem strip_concat (front : Text) {c : Char} (h : isSpace c = false) :
    strip (front ++ [c]) = (front ++ [c]).dropWhile isSpace := by
  have hne : (front ++ [c]).dropWhile isSpace ≠ [] := by
    intro hnil
    have := dropWhile_eq_nil_iff.mp hnil c (by simp)
    rw [h] at this
    exact Bool.false_ne_true this
  refine rdropWhile_eq_self_iff.mpr fun hl => ?_
  rw [(dropWhile_suffix isSpace).getLast hl, getLast_append_singleton, h]
  exact Bool.false_ne_true

end Strip

section Splitlines

theorem splitlines_cons_of_not_break {c : Char} (h : isLineBreak c = false) (t : Text) :
    splitlines (c :: t) = match splitlines t with
      | [] => [[c]]
      | line :: lines => (c :: line) :: lines := by
  have hcr : c ≠ cr := by
    rintro rfl
    cases h
  cases t with
  | nil => simp [splitlines, h]
  | cons d t => rw [splitlines, if_neg (fun hc => hcr hc.1), if_neg (by simp [h])]

theorem splitlines_append_lf (line : Text) (h : ∀ c ∈ line, isLineBreak c = false) (t : Text) :
    splitlines (line ++ lf :: t) = line :: splitlines t := by
  induction line with
  | nil =>
    cases t with
    | nil => rfl
    | cons d t => rfl
  | cons c line ih =>
    rw [cons_append, splitlines_cons_of_not_break (h c mem_cons_self),
      ih fun d hd => h d (mem_cons_of_mem c hd)]

theorem splitlines_of_no_break (line : Text) (hne : line ≠ [])
    (h : ∀ c ∈ line, isLineBreak c = false) : splitlines line = [line] := by
  induction line with
  | nil => exact absurd rfl hne
  | cons c line ih =>
    rw [splitlines_cons_of_not_break (h c mem_cons_self)]
    cases line with
    | nil => rfl
    | cons d line =>
      rw [ih (cons_ne_nil d line) fun e he => h e (mem_cons_of_mem c he)]

theorem splitlines_intercalate (lines : List Text)
    (h : ∀ line ∈ lines, ∀ c ∈ line, isLineBreak c = false)
    (hlast : ∀ hl : lines ≠ [], lines.getLast hl ≠ []) :
    splitlines ([lf].intercalate lines) = lines := by
  induction lines with
  | nil => rfl
  | cons line lines ih =>
    cases lines with
    | nil =>
      rw [intercalate_singleton]
      exact splitlines_of_no_break line (hlast (by simp)) (h line mem_cons_self)
    | cons line' lines =>
      rw [intercalate_cons_cons, append_assoc, singleton_append,
        splitlines_append_lf line (h line mem_cons_self),
        ih (fun l hl => h l (mem_cons_of_mem line hl)) fun hl => ?_]
      have := hlast (by simp)
      rwa [getLast_cons (by simp)] at this

theorem nonblank_nil_cons (lines : List Text) : nonblank ([] :: lines) = nonblank lines := rfl

theorem nonblank_splitlines_cons {c : Char} (h : isSpace c) (t : Text) :
    nonblank (splitlines (c :: t)) = nonblank (splitlines t) := by
  cases hbreak : isLineBreak c with
  | true =>
    cases t with
    | nil => simp [splitlines, hbreak, nonblank, strip]
    | cons d t =>
      rw [splitlines]
      split
      · next hcrlf =>
        obtain ⟨-, rfl⟩ := hcrlf
        -- the line feed alone would end the same line
        rw [← nil_append (lf :: t), splitlines_append_lf [] (by simp), nonblank_nil_cons]
      · rw [nonblank_nil_cons]
  | false =>
    rw [splitlines_cons_of_not_break hbreak]
    cases splitlines t with
    | nil =>
      have hstrip : strip [c] = [] := by rw [strip_cons_of_space h]; rfl
      simp [nonblank, hstrip]
    | cons line lines => simp [nonblank, strip_cons_of_space h]

theorem nonblank_splitlines_dropWhile (t : Text) :
    nonblank (splitlines (t.dropWhile isSpace)) = nonblank (splitlines t) := by
  induction t with
  | nil => rfl
  | cons c t ih =>
    cases h : isSpace c with
    | true => rw [dropWhile_cons_of_pos h, ih, nonblank_splitlines_cons h]
    | false => rw [dropWhile_cons_of_neg (by simp [h])]

end Splitlines

section Clean

/-- Text without the ends of lines. -/
def OneLine (t : Text) : Prop := ∀ c ∈ t, isLineBreak c = false

theorem oneLine_of_all {t : Text} (h : (t.all fun c => !isLineBreak c) = true) : OneLine t := by
  intro c hc
  simpa using all_eq_true.mp h c hc

variable {c : Char}

theorem OneLine.ne_cr {t : Text} (h : OneLine t) (hc : c ∈ t) : c ≠ cr := by
  rintro rfl
  exact absurd (h cr hc) (by decide)

theorem OneLine.ne_lf {t : Text} (h : OneLine t) (hc : c ∈ t) : c ≠ lf := by
  rintro rfl
  exact absurd (h lf hc) (by decide)

theorem replaceNewlines_cons (h : c ≠ cr) (t : Text) :
    replaceNewlines (c :: t) = c :: replaceNewlines t := by
  cases t with
  | nil => simp [replaceNewlines, replaceCrLf, h]
  | cons d t =>
    rw [replaceNewlines, replaceCrLf, if_neg (fun hc => h hc.1), map_cons, if_neg h,
      replaceNewlines]

theorem replaceNewlines_append {line : Text} (h : OneLine line) (t : Text) :
    replaceNewlines (line ++ cr :: lf :: t) = line ++ lf :: replaceNewlines t := by
  induction line with
  | nil => rfl
  | cons c line ih =>
    rw [cons_append, replaceNewlines_cons (h.ne_cr mem_cons_self),
      ih fun d hd => h d (mem_cons_of_mem c hd), cons_append]

theorem intercalate_append_lf (line : Text) (lines : List Text) (h : lines ≠ []) :
    [lf].intercalate (line :: lines) = line ++ lf :: [lf].intercalate lines := by
  rw [intercalate_cons_of_ne_nil h, append_assoc, singleton_append]

theorem replaceNewlines_shellText {command : Text} {lines : List Text} (hcommand : OneLine command)
    (hlines : ∀ line ∈ lines, OneLine line) :
    replaceNewlines (shellText command lines) =
      [lf].intercalate (command :: (lines ++ [[], text ">: "])) := by
  have hrest : replaceNewlines (lines.flatMap (· ++ [cr, lf]) ++ cr :: lf :: text ">: ") =
      [lf].intercalate (lines ++ [[], text ">: "]) := by
    induction lines with
    | nil => rfl
    | cons line lines ih =>
      rw [flatMap_cons, append_assoc, append_assoc, cons_append,
        cons_append, nil_append, cons_append,
        replaceNewlines_append (hlines line mem_cons_self),
        ih fun l hl => hlines l (mem_cons_of_mem line hl),
        intercalate_append_lf _ _ (by simp)]
  rw [shellText, replaceNewlines_append hcommand, hrest, intercalate_append_lf _ _ (by simp)]

/-- What a line needs so that `dropPrompt` and `strip` leave the end of the text alone. -/
structure EndsText (line : Text) : Prop where
  notPrompt : strip line ≠ [] ∧ strip line ≠ text ">:"
  last : ∃ front c, line = front ++ [c] ∧ isSpace c = false

theorem nonblank_clean {command last : Text} {lines : List Text} (hcommand : OneLine command)
    (hne : command ≠ []) (hlines : ∀ line ∈ lines ++ [last], OneLine line)
    (hlast : EndsText last) :
    nonblank (splitlines (clean (shellText command (lines ++ [last])) command)) =
      nonblank (lines ++ [last]) := by
  have hsplit : (replaceNewlines (shellText command (lines ++ [last]))).splitOn lf =
      command :: (lines ++ [last] ++ [[], text ">: "]) := by
    rw [replaceNewlines_shellText hcommand hlines]
    refine splitOn_intercalate lf (fun l hl hlf => ?_) (by simp)
    have hone : OneLine l := by
      rcases mem_cons.mp hl with rfl | hl
      · exact hcommand
      · rcases mem_append.mp hl with hl | hl
        · exact hlines l hl
        · rcases mem_cons.mp hl with rfl | hl
          · exact fun c hc => absurd hc not_mem_nil
          · rw [mem_singleton.mp hl]
            exact oneLine_of_all (by decide)
    exact hone.ne_lf hlf rfl
  have hecho : dropEcho command (command :: (lines ++ [last] ++ [[], text ">: "])) =
      lines ++ [last] ++ [[], text ">: "] := by
    rw [dropEcho, if_pos ⟨hne, rfl⟩]
  have hprompt : dropPrompt (lines ++ [last] ++ [[], text ">: "]) = lines ++ [last] := by
    have hblank : strip ([] : Text) = [] := rfl
    have hpromptLine : strip (text ">: ") = text ">:" := by decide
    rw [dropPrompt, show lines ++ [last] ++ [[], text ">: "] =
        lines ++ [last] ++ [[]] ++ [text ">: "] by simp,
      rdropWhile_concat_pos _ _ _ (by simp [hpromptLine]),
      rdropWhile_concat_pos _ _ _ (by simp [hblank]),
      rdropWhile_concat_neg _ _ _ (by simp [hlast.notPrompt])]
  obtain ⟨front, c, hfront, hc⟩ := hlast.last
  -- the text ends with the last character of the last line
  have hend : ∃ t, [lf].intercalate (lines ++ [last]) = t ++ [c] := by
    clear hsplit hecho hprompt hlines
    induction lines with
    | nil => exact ⟨front, by rw [nil_append, intercalate_singleton, hfront]⟩
    | cons line lines ih =>
      obtain ⟨t, ht⟩ := ih
      refine ⟨line ++ lf :: t, ?_⟩
      rw [cons_append, intercalate_append_lf _ _ (by simp), ht, append_assoc,
        cons_append]
  obtain ⟨t, ht⟩ := hend
  have hlastne : last ≠ [] := by simp [hfront]
  rw [clean, hsplit, hecho, hprompt, ht, strip_concat t hc, nonblank_splitlines_dropWhile, ← ht,
    splitlines_intercalate _ hlines (by simpa using hlastne)]

end Clean

end NikitaFirmware.Bridge
