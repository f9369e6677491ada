import Mathlib.Data.List.GetD
import Mathlib.Order.Nat
import NikitaFirmware.Cli.Line

/-!
# The bounds of the command line

The cursor stays in the line that is shown, and the handlers of the line editor access nothing
outside; only the line in front is written to before a command is entered.
-/

namespace NikitaFirmware.Cli

open List Option
variable {string : FuriString} {line : Line}

/-- The text on the screen. -/
def Line.shown (line : Line) : FuriString := line.history.getD line.historyPosition []

/-- The positions lie in the line, and in the history. -/
structure Line.Bounded (line : Line) : Prop where
  position : line.historyPosition < line.history.length
  entries : line.history.length ≤ historyDepth
  cursor : line.linePosition ≤ line.shown.length

def OneClass (string : FuriString) : Prop := ∀ c ∈ string, ∀ d ∈ string, charClass c = charClass d

instance decidableOneClass (string : FuriString) : Decidable (OneClass string) :=
  @decidableBAll _ (fun c => ∀ d ∈ string, charClass c = charClass d)
    (fun c => decidableBAll (fun d => charClass c = charClass d) string) string

theorem getChar_of_lt {n : Nat} (h : n < string.length) : string.getChar n = some string[n] := by
  rw [FuriString.getChar, if_pos (Int.natCast_nonneg n), Int.toNat_natCast, getElem?_eq_getElem h]

theorem replaceAt_of_le {pos len : Nat} (str : FuriString) (h : pos + len ≤ string.length) :
    ∃ replaced, string.replaceAt pos len str = some replaced ∧
      replaced.length + len = string.length + str.length := by
  refine ⟨_, if_pos h, ?_⟩
  rw [length_append, length_append, length_take, length_drop]
  omega

/-- To the left the loop looks at the characters before `n`, the last of which is of the class, and
there is one in front of them that is not. -/
theorem skipLoop_left {cls : CharClass} {i n : Nat} (fuel : Nat) (hn : n ≤ string.length)
    (hi : i + 1 < n) (hother : ∃ h : i < string.length, charClass string[i] ≠ cls)
    (hfuel : n ≤ fuel) :
    ∃ q : Nat, q < n ∧ skipLoop string .left cls fuel n = some (q : Int) := by
  induction n generalizing fuel with
  | zero => exact absurd hi (Nat.not_lt_zero _)
  | succ m ih =>
    obtain ⟨fuel, rfl⟩ : ∃ k, fuel = k + 1 := ⟨fuel - 1, by omega⟩
    obtain ⟨k, rfl⟩ : ∃ k, m = k + 1 := ⟨m - 1, by omega⟩
    have hk : k < string.length := by omega
    have hposition : ((k + 1 + 1 : Nat) : Int) + SkipDirection.left.increment = (k + 1 : Nat) := by
      simp only [SkipDirection.increment]
      omega
    have hlook : ((k + 1 : Nat) : Int) + SkipDirection.left.lookOffset = (k : Nat) := by
      simp only [SkipDirection.lookOffset]
      omega
    have hlow : ¬ ((k + 1 : Nat) : Int) < 0 := by omega
    have hhigh : ¬ (string.length : Int) ≤ (k + 1 : Nat) := by omega
    simp only [skipLoop, hposition, hlook, if_neg hlow, if_neg hhigh, getChar_of_lt hk,
      bind_eq_bind, bind_some]
    split
    case isTrue => exact ⟨k + 1, Nat.lt_succ_self _, rfl⟩
    case isFalse hsame =>
      have hik : i ≠ k := by
        rintro rfl
        exact hother.2 (not_not.mp hsame)
      obtain ⟨q, hq, hloop⟩ := ih fuel (by omega) (by omega) (by omega)
      exact ⟨q, by omega, hloop⟩

theorem skipLoop_right (cls : CharClass) {n : Nat} (fuel : Nat) (hn : n < string.length)
    (hfuel : string.length ≤ n + fuel) :
    ∃ q : Nat, q ≤ string.length ∧ skipLoop string .right cls fuel n = some (q : Int) := by
  induction fuel generalizing n with
  | zero => exact absurd hfuel (by omega)
  | succ fuel ih =>
    have hposition : (n : Int) + SkipDirection.right.increment = (n + 1 : Nat) := by
      simp only [SkipDirection.increment]
      omega
    have hlook : ((n + 1 : Nat) : Int) + SkipDirection.right.lookOffset = (n + 1 : Nat) := by
      simp only [SkipDirection.lookOffset]
      omega
    have hlow : ¬ ((n + 1 : Nat) : Int) < 0 := by omega
    by_cases hend : n + 1 = string.length
    · have hhigh : (string.length : Int) ≤ (n + 1 : Nat) := by omega
      refine ⟨n + 1, hend.le, ?_⟩
      simp only [skipLoop, hposition, if_neg hlow, if_pos hhigh]
    · have hnext : n + 1 < string.length := by omega
      have hhigh : ¬ (string.length : Int) ≤ (n + 1 : Nat) := by omega
      simp only [skipLoop, hposition, hlook, if_neg hlow, if_neg hhigh, getChar_of_lt hnext,
        bind_eq_bind, bind_some]
      split
      case isTrue => exact ⟨n + 1, hnext.le, rfl⟩
      case isFalse => exact ih hnext (by omega)

theorem exists_other_of_not_oneClass {p : Nat} (hp : p < string.length)
    (h : ¬ OneClass (string.take (p + 1))) :
    ∃ i, i < p ∧ ∃ hi : i < string.length, charClass string[i] ≠ charClass string[p] := by
  by_contra hall
  refine h ?_
  have hsame : ∀ c ∈ string.take (p + 1), charClass c = charClass string[p] := by
    intro c hc
    obtain ⟨i, hi, rfl⟩ := mem_take_iff_getElem.mp hc
    by_contra hne
    have hip : i ≠ p := by
      rintro rfl
      exact hne rfl
    exact hall ⟨i, by omega, by omega, hne⟩
  intro c hc d hd
  rw [hsame c hc, hsame d hd]

theorem skipRun_left {p : Nat} (hp : p ≤ string.length) (h : p = 0 ∨ ¬ OneClass (string.take p)) :
    ∃ q, q ≤ p ∧ skipRun string p .left = some q := by
  rw [skipRun]
  split
  case isTrue => exact ⟨p, le_rfl, rfl⟩
  case isFalse hempty =>
    split
    case isTrue => exact ⟨p, le_rfl, rfl⟩
    case isFalse hzero =>
      have hpos : p ≠ 0 := fun h => hzero ⟨rfl, h⟩
      obtain ⟨k, rfl⟩ : ∃ k, p = k + 1 := ⟨p - 1, by omega⟩
      have hk : k < string.length := by omega
      obtain ⟨i, hik, hother⟩ := exists_other_of_not_oneClass hk (h.resolve_left hpos)
      have hlook : ((k + 1 : Nat) : Int) + SkipDirection.left.lookOffset = (k : Nat) := by
        simp only [SkipDirection.lookOffset]
        omega
      obtain ⟨q, hq, hloop⟩ := skipLoop_left (string.length + 1) hp
        (Nat.succ_lt_succ hik) hother (by omega)
      refine ⟨q, hq.le, ?_⟩
      rw [if_neg (fun h => absurd h.1 (by decide)), hlook, getChar_of_lt hk]
      simp only [bind_eq_bind, bind_some, hloop]
      exact congrArg some (by omega)

theorem skipRun_right {p : Nat} (hp : p ≤ string.length) :
    ∃ q, q ≤ string.length ∧ skipRun string p .right = some q := by
  rw [skipRun]
  split
  case isTrue => exact ⟨p, hp, rfl⟩
  case isFalse hempty =>
    rw [if_neg (fun h => absurd h.1 (by decide))]
    split
    case isTrue => exact ⟨p, hp, rfl⟩
    case isFalse hend =>
      have hlt : p < string.length := lt_of_le_of_ne hp fun h => hend ⟨rfl, h⟩
      have hlook : (p : Int) + SkipDirection.right.lookOffset = p := by
        simp only [SkipDirection.lookOffset]
        omega
      rw [hlook, getChar_of_lt hlt]
      obtain ⟨q, hq, hloop⟩ := skipLoop_right (charClass string[p])
        (string.length + 1) hlt (by omega)
      refine ⟨q, hq, ?_⟩
      simp only [bind_eq_bind, bind_some, hloop]
      exact congrArg some (by omega)

namespace Line

/-- The line is as before but for the text in front. -/
structure Keeps (line line' : Line) : Prop where
  bounded : line'.Bounded
  tail : line'.history.tail = line.history.tail

theorem Bounded.getSelected (h : line.Bounded) : line.getSelected = some line.shown := by
  rw [Line.getSelected, shown, getElem?_eq_getElem h.position, getD_eq_getElem _ _ h.position]

theorem Bounded.keeps (h : line.Bounded) : Keeps line line := ⟨h, rfl⟩

theorem Bounded.history_eq (h : line.Bounded) : ∃ editing tail, line.history = editing :: tail :=
  exists_cons_of_length_pos (Nat.zero_lt_of_lt h.position)

theorem Bounded.getEditing (h : line.Bounded) : ∃ editing, line.getEditing = some editing := by
  obtain ⟨editing, tail, heq⟩ := h.history_eq
  exact ⟨editing, by rw [Line.getEditing, heq]; rfl⟩

theorem Bounded.length_tail (h : line.Bounded) : line.history.tail.length < historyDepth := by
  have hlt := h.position
  have hle := h.entries
  rw [List.length_tail]
  omega

theorem Bounded.keeps_editing (h : line.Bounded) {p : Nat} (hp : p ≤ string.length) :
    Keeps line ⟨0, p, string :: line.history.tail⟩ where
  bounded := ⟨Nat.succ_pos _, h.length_tail, hp⟩
  tail := rfl

theorem Bounded.ensureNotOverwritingHistory (h : line.Bounded) : line.ensureNotOverwritingHistory =
      some ⟨0, line.linePosition, line.shown :: line.history.tail⟩ := by
  obtain ⟨editing, tail, heq⟩ := h.history_eq
  have hselected := h.getSelected
  obtain ⟨historyPosition, linePosition, history⟩ := line
  obtain rfl : history = editing :: tail := heq
  rw [Line.ensureNotOverwritingHistory]
  cases historyPosition with
  | zero => rfl
  | succ n =>
    rw [if_pos (Nat.succ_pos n), hselected]
    rfl

theorem Bounded.inputCtrlC (h : line.Bounded) :
    ∃ line', line.inputCtrlC = some line' ∧ Keeps line line' := by
  obtain ⟨editing, tail, heq⟩ := h.history_eq
  refine ⟨⟨0, 0, [] :: line.history.tail⟩, ?_, h.keeps_editing (Nat.zero_le _)⟩
  obtain ⟨historyPosition, linePosition, history⟩ := line
  obtain rfl : history = editing :: tail := heq
  rfl

theorem Bounded.keeps_cursor (h : line.Bounded) {p : Nat} (hp : p ≤ line.shown.length) :
    Keeps line { line with linePosition := p } :=
  ⟨⟨h.position, h.entries, hp⟩, rfl⟩

theorem clamp_le (x upper : Int) : clamp x upper ≤ upper.toNat := by
  rw [clamp]
  omega

theorem Bounded.inputUpDown (h : line.Bounded) (increment : Int) :
    ∃ line', line.inputUpDown increment = some line' ∧ Keeps line line' := by
  have hposition := h.position
  have hclamp : clamp (line.historyPosition + increment) (line.history.length - 1) <
      line.history.length := by
    have hle := clamp_le (line.historyPosition + increment) (line.history.length - 1)
    omega
  rw [Line.inputUpDown]
  dsimp only
  split
  case isFalse => exact ⟨line, rfl, h.keeps⟩
  case isTrue =>
    rw [Line.getSelected, getElem?_eq_getElem hclamp]
    refine ⟨_, rfl, ⟨hclamp, h.entries, ?_⟩, rfl⟩
    rw [shown, getD_eq_getElem _ _ hclamp]

theorem Bounded.inputLeftRight (h : line.Bounded) (increment : Int) :
    ∃ line', line.inputLeftRight increment = some line' ∧ Keeps line line' := by
  rw [Line.inputLeftRight, h.getSelected]
  refine ⟨_, rfl, h.keeps_cursor ?_⟩
  exact (clamp_le _ _).trans_eq (Int.toNat_natCast _)

theorem Bounded.inputHome (h : line.Bounded) :
    ∃ line', line.inputHome = some line' ∧ Keeps line line' :=
  ⟨_, rfl, h.keeps_cursor (Nat.zero_le _)⟩

theorem Bounded.inputEnd (h : line.Bounded) :
    ∃ line', line.inputEnd = some line' ∧ Keeps line line' := by
  rw [Line.inputEnd, h.getSelected]
  exact ⟨_, rfl, h.keeps_cursor le_rfl⟩

theorem Bounded.inputCtrlL (h : line.Bounded) :
    ∃ line', line.inputCtrlL = some line' ∧ Keeps line line' := by
  rw [Line.inputCtrlL, h.getSelected]
  exact ⟨line, rfl, h.keeps⟩

theorem Bounded.inputCtrlLeftRight (h : line.Bounded) {direction : SkipDirection}
    (hleft : direction = .left →
      line.linePosition = 0 ∨ ¬ OneClass (line.shown.take line.linePosition)) :
    ∃ line', line.inputCtrlLeftRight direction = some line' ∧ Keeps line line' := by
  rw [Line.inputCtrlLeftRight, h.getSelected]
  cases direction with
  | left =>
    obtain ⟨q, hq, hskip⟩ := skipRun_left h.cursor (hleft rfl)
    refine ⟨{ line with linePosition := q }, ?_, h.keeps_cursor (hq.trans h.cursor)⟩
    simp only [bind_eq_bind, bind_some, hskip]
    rfl
  | right =>
    obtain ⟨q, hq, hskip⟩ := skipRun_right h.cursor
    refine ⟨{ line with linePosition := q }, ?_, h.keeps_cursor hq⟩
    simp only [bind_eq_bind, bind_some, hskip]
    rfl

theorem Bounded.inputBksp (h : line.Bounded) :
    ∃ line', line.inputBksp = some line' ∧ Keeps line line' := by
  have hcursor := h.cursor
  rw [Line.inputBksp, h.ensureNotOverwritingHistory]
  by_cases hzero : line.linePosition = 0
  · refine ⟨⟨0, line.linePosition, line.shown :: line.history.tail⟩, ?_, h.keeps_editing hcursor⟩
    simp only [bind_eq_bind, bind_some, Line.getEditing, getElem?_cons_zero, if_pos hzero]
    rfl
  · have hlt : line.linePosition - 1 + 1 ≤ line.shown.length := by omega
    obtain ⟨replaced, hreplace, hlength⟩ := replaceAt_of_le [] hlt
    rw [length_nil] at hlength
    refine ⟨⟨0, line.linePosition - 1, replaced :: line.history.tail⟩, ?_,
      h.keeps_editing (by omega)⟩
    simp only [bind_eq_bind, bind_some, Line.getEditing, getElem?_cons_zero, if_neg hzero, hreplace]
    rfl

theorem Bounded.inputCtrlBksp (h : line.Bounded)
    (hleft : line.linePosition = 0 ∨ ¬ OneClass (line.shown.take line.linePosition)) :
    ∃ line', line.inputCtrlBksp = some line' ∧ Keeps line line' := by
  have hcursor := h.cursor
  obtain ⟨q, hq, hskip⟩ := skipRun_left h.cursor hleft
  have hle : q + (line.linePosition - q) ≤ line.shown.length := by omega
  obtain ⟨replaced, hreplace, hlength⟩ := replaceAt_of_le [] hle
  rw [length_nil] at hlength
  rw [Line.inputCtrlBksp, h.ensureNotOverwritingHistory]
  refine ⟨⟨0, q, replaced :: line.history.tail⟩, ?_, h.keeps_editing (by omega)⟩
  simp only [bind_eq_bind, bind_some, Line.getSelected, getElem?_cons_zero, hskip, hreplace]
  rfl

theorem Bounded.inputNormal (h : line.Bounded) (c : Char) :
    ∃ line', line.inputNormal c = some line' ∧ Keeps line line' := by
  have hcursor := h.cursor
  rw [Line.inputNormal, h.ensureNotOverwritingHistory]
  by_cases hend : line.linePosition = line.shown.length
  · have hlength : (line.shown ++ [c]).length = line.shown.length + 1 := length_append
    refine ⟨⟨0, line.linePosition + 1, (line.shown ++ [c]) :: line.history.tail⟩, ?_,
      h.keeps_editing (by omega)⟩
    simp only [bind_eq_bind, bind_some, Line.getEditing, getElem?_cons_zero, if_pos hend]
    rfl
  · have hle : line.linePosition + 0 ≤ line.shown.length := hcursor
    obtain ⟨replaced, hreplace, hlength⟩ := replaceAt_of_le [c] hle
    rw [length_singleton] at hlength
    refine ⟨⟨0, line.linePosition + 1, replaced :: line.history.tail⟩, ?_,
      h.keeps_editing (by omega)⟩
    simp only [bind_eq_bind, bind_some, Line.getEditing, getElem?_cons_zero, if_neg hend, hreplace]
    rfl

theorem length_selectDuplicate (line : Line) (command : FuriString) :
    (line.selectDuplicate command).history.length = line.history.length := by
  rw [selectDuplicate]
  split
  case isFalse => rfl
  case isTrue =>
    split
    · exact length_modify _ _ _
    · rfl

theorem position_selectDuplicate {command : FuriString}
    (h : line.historyPosition < line.history.length) :
    (line.selectDuplicate command).historyPosition < line.history.length := by
  rw [selectDuplicate]
  split
  case isFalse => exact h
  case isTrue =>
    split
    case h_2 => exact h
    case h_1 i hfind =>
      obtain ⟨hi, -⟩ := findIdx?_eq_some_iff_getElem.mp hfind
      rw [length_drop] at hi
      change i + 1 < line.history.length
      omega

theorem moveToFront_of_lt (h : line.historyPosition < line.history.length) :
    ∃ line', line.moveToFront = some line' ∧ line'.history.length ≤ line.history.length := by
  rw [moveToFront]
  split
  case isFalse => exact ⟨line, rfl, le_rfl⟩
  case isTrue =>
    rw [Line.getSelected, getElem?_eq_getElem h]
    refine ⟨_, rfl, ?_⟩
    rw [length_set]
    exact (eraseIdx_sublist _ _).length_le

theorem insertEmpty_bounded (h : line.history.length ≤ historyDepth) : line.insertEmpty.Bounded where
  position := Nat.succ_pos _
  entries := by
    rw [insertEmpty, length_cons]
    split
    case isTrue hfull =>
      rw [length_dropLast, hfull]
      exact le_rfl
    case isFalse hnot => exact Nat.succ_le_of_lt (lt_of_le_of_ne h hnot)
  cursor := Nat.zero_le _

theorem Bounded.inputCr (h : line.Bounded) (hblank : line.shown.trim = [] → line.linePosition = 0) :
    ∃ line', line'.Bounded ∧ line.inputCr =
      some (line', if line.shown.trim = [] then none else some line.shown.trim) := by
  rw [Line.inputCr, h.getSelected]
  by_cases htrim : line.shown.trim = []
  · refine ⟨line.setSelected line.shown.trim, ⟨?_, ?_, ?_⟩, ?_⟩
    · rw [setSelected, length_set]
      exact h.position
    · rw [setSelected, length_set]
      exact h.entries
    · exact (hblank htrim).trans_le (Nat.zero_le _)
    · rw [if_pos htrim]
      exact if_pos htrim
  · have hlength : (line.setSelected line.shown.trim).history.length = line.history.length :=
      length_set
    have hposition : ((line.setSelected line.shown.trim).selectDuplicate
        line.shown.trim).historyPosition < ((line.setSelected line.shown.trim).selectDuplicate
          line.shown.trim).history.length := by
      rw [length_selectDuplicate]
      exact position_selectDuplicate (h.position.trans_eq hlength.symm)
    obtain ⟨line', hmove, hle⟩ := moveToFront_of_lt hposition
    rw [length_selectDuplicate, hlength] at hle
    refine ⟨line'.insertEmpty, insertEmpty_bounded (hle.trans h.entries), ?_⟩
    simp only [bind_eq_bind, bind_some, if_neg htrim, hmove]
    rfl

end Line

end NikitaFirmware.Cli
