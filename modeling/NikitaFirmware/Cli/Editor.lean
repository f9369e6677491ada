import NikitaFirmware.Cli.LineBounds

/-!
# Editing a command line

What holds for every sequence of keys: the positions stay in the line and in the history, nothing
outside is accessed, a command is kept as it was entered, and a carriage return executes what is on
the screen.
-/

namespace NikitaFirmware.Cli
open Foundations List Option

variable {line : Line} {shell : Shell} {combo : KeyCombo} {input : FuriString}

theorem searchChar_of_le (c : Char) {start : Nat} (h : start ≤ input.length) :
    ∃ found, input.searchChar c start = some found ∧
      ∀ ret, found = some ret → start ≤ ret ∧ ret < input.length := by
  refine ⟨_, if_pos h, fun ret hret => ?_⟩
  obtain ⟨i, hi, rfl⟩ := map_eq_some_iff.mp hret
  have hlt := (List.idxOf?_eq_some_iff.mp hi).1
  rw [length_drop] at hlt
  omega

theorem firstNonSpace_of_le (fuel : Nat) {start : Nat} (h : start ≤ input.length)
    (hfuel : input.length < start + fuel) :
    ∃ ret, ret ≤ input.length ∧ firstNonSpace input fuel start = some ret := by
  induction fuel generalizing start with
  | zero => exact absurd hfuel (by omega)
  | succ fuel ih =>
    obtain ⟨found, hsearch, hfound⟩ := searchChar_of_le ' ' h
    cases found with
    | none => exact ⟨start, h, by simp [firstNonSpace, hsearch]⟩
    | some ret =>
      obtain ⟨hle, hlt⟩ := hfound ret rfl
      by_cases hfar : 1 < ret - start
      · exact ⟨start, h, by simp [firstNonSpace, hsearch, hfar]⟩
      · obtain ⟨r, hr, hloop⟩ := ih (Nat.succ_le_of_lt (Nat.lt_of_le_of_lt hle hlt)) (by omega)
        exact ⟨r, hr, by simp [firstNonSpace, hsearch, hfar, hloop]⟩

theorem Line.Bounded.segment (h : line.Bounded) :
    ∃ segment editing, line.segment = some segment ∧ line.getEditing = some editing ∧
      segment.start + segment.length ≤ min line.linePosition editing.length := by
  obtain ⟨editing, hediting⟩ := h.getEditing
  have hlength : (editing.take line.linePosition).length = min line.linePosition editing.length :=
    length_take
  obtain ⟨start, hstart, hloop⟩ := firstNonSpace_of_le ((editing.take line.linePosition).length + 1)
    (Nat.zero_le (editing.take line.linePosition).length) (by omega)
  obtain ⟨found, hsearch, -⟩ := searchChar_of_le ' ' hstart
  cases found with
  | none =>
    refine ⟨⟨.command, start, (editing.take line.linePosition).length - start⟩, editing, ?_,
      hediting, by simp only; omega⟩
    simp only [Line.segment, hediting, bind_eq_bind, bind_some, hloop, hsearch]
    rfl
  | some ret =>
    refine ⟨⟨.arguments, 0, 0⟩, editing, ?_, hediting, Nat.zero_le _⟩
    simp only [Line.segment, hediting, bind_eq_bind, bind_some, hloop, hsearch]
    rfl

theorem clampWraparound_lt {x : Int} {n : Nat} (h : 0 < n) : clampWraparound x (n - 1) < n := by
  rw [clampWraparound]
  split <;> [skip; split] <;> omega

theorem Line.Bounded.setSelected_front (h : line.Bounded) (hzero : line.historyPosition = 0)
    (string : FuriString) (p : Nat) :
    { line.setSelected string with linePosition := p } =
      (⟨0, p, string :: line.history.tail⟩ : Line) := by
  obtain ⟨editing, tail, heq⟩ := h.history_eq
  rw [setSelected, hzero, heq]
  rfl

namespace Shell

/-- What the shell keeps between its events. -/
structure Inv (shell : Shell) : Prop where
  bounded : shell.line.Bounded
  selected : shell.completions.variants = [] ∨
    shell.completions.selected < shell.completions.variants.length

/-- No command is entered. -/
structure Keeps (shell shell' : Shell) : Prop where
  inv : shell'.Inv
  tail : shell'.line.history.tail = shell.line.history.tail
  executed : shell'.executed = shell.executed

theorem inv_alloc : Inv .alloc where
  bounded := ⟨Nat.one_pos, by decide, Nat.le_refl 0⟩
  selected := Or.inl rfl

theorem Inv.keeps (h : shell.Inv) : Keeps shell shell := ⟨h, rfl, rfl⟩

theorem Inv.renderClose (h : shell.Inv) (hdisplaying : shell.completions.isDisplaying = true) :
    ∃ shell', shell.renderClose = some shell' ∧ Keeps shell shell' ∧ shell'.line = shell.line := by
  rw [Shell.renderClose, if_pos hdisplaying, h.bounded.getSelected]
  exact ⟨_, rfl, ⟨⟨h.bounded, h.selected⟩, rfl, rfl⟩, rfl⟩

theorem Inv.renderMove (h : shell.Inv) (move : Move) :
    ∃ shell', shell.renderMove move = some shell' ∧ Keeps shell shell' := by
  rw [Shell.renderMove]
  split
  case isTrue => exact ⟨shell, rfl, h.keeps⟩
  case isFalse hne =>
    have hold := h.selected.resolve_left hne
    have hnew : clampWraparound (shell.completions.selectionUnclamped move)
        (shell.completions.variants.length - 1) < shell.completions.variants.length :=
      clampWraparound_lt (Nat.zero_lt_of_lt hold)
    dsimp only
    generalize clampWraparound (shell.completions.selectionUnclamped move)
      (shell.completions.variants.length - 1) = selected at hnew ⊢
    refine ⟨{ shell with completions := { shell.completions with selected } }, ?_,
      ⟨h.bounded, Or.inr hnew⟩, rfl, rfl⟩
    simp only [List.getElem?_eq_getElem hold, List.getElem?_eq_getElem hnew,
      h.bounded.getSelected, bind_eq_bind, bind_some]
    split <;> rfl

theorem Inv.renderSelectNoClose (h : shell.Inv)
    (hfront : shell.completions.variants ≠ [] → shell.line.historyPosition = 0) :
    ∃ shell', shell.renderSelectNoClose = some shell' ∧ Keeps shell shell' ∧
      shell'.completions = shell.completions := by
  rw [Shell.renderSelectNoClose]
  split
  case isTrue => exact ⟨shell, rfl, h.keeps, rfl⟩
  case isFalse hne =>
    have hzero := hfront hne
    have hcursor := h.bounded.cursor
    obtain ⟨segment, editing, hsegment, hediting, hle⟩ := h.bounded.segment
    have hshown : shell.line.shown = editing := by
      have hselected := h.bounded.getSelected
      rw [Line.getSelected, hzero] at hselected
      exact some.inj (hselected.symm.trans hediting)
    rw [← hshown] at hle
    have hlt := h.selected.resolve_left hne
    obtain ⟨replaced, hreplace, hlength⟩ := replaceAt_of_le
      shell.completions.variants[shell.completions.selected] (hle.trans (min_le_right _ _))
    rw [hsegment, h.bounded.getSelected, List.getElem?_eq_getElem hlt]
    simp only [bind_eq_bind, bind_some, hreplace, h.bounded.setSelected_front hzero]
    refine ⟨_, rfl, ⟨⟨?_, h.selected⟩, rfl, rfl⟩, rfl⟩
    exact (h.bounded.keeps_editing (by omega)).bounded

theorem fillVariants_of_bounded (h : line.Bounded) (registry : List FuriString) :
    ∃ variants, line.fillVariants registry = some variants := by
  obtain ⟨segment, editing, hsegment, hediting, -⟩ := h.segment
  rw [Line.fillVariants, hsegment, hediting]
  simp only [bind_eq_bind, bind_some]
  cases segment.type with
  | command => exact ⟨_, rfl⟩
  | arguments => exact ⟨_, rfl⟩

theorem Inv.renderOpen (h : shell.Inv) (hdisplaying : shell.completions.isDisplaying = false)
    (hfront : (shell.line.fillVariants shell.registry).any (·.length == 1) = true →
      shell.line.historyPosition = 0) :
    ∃ shell', shell.renderOpen = some shell' ∧ Keeps shell shell' := by
  obtain ⟨variants, hfill⟩ := fillVariants_of_bounded h.bounded shell.registry
  have hinv : ∀ isDisplaying, Inv { shell with completions := ⟨variants, 0, isDisplaying⟩ } :=
    fun isDisplaying => ⟨h.bounded, (Nat.eq_zero_or_pos _).imp_left eq_nil_of_length_eq_zero⟩
  rw [Shell.renderOpen, hdisplaying, hfill]
  simp only [Bool.false_eq_true, if_false, bind_eq_bind, bind_some]
  split
  case isFalse => exact ⟨_, rfl, hinv true, rfl, rfl⟩
  case isTrue hone =>
    obtain ⟨shell', hselect, hkeeps, -⟩ := (hinv shell.completions.isDisplaying).renderSelectNoClose
      fun _ => hfront (by simp [hfill, hone])
    exact ⟨shell', hselect, hkeeps.inv, hkeeps.tail, hkeeps.executed⟩

theorem Inv.renderSelect (h : shell.Inv) (hdisplaying : shell.completions.isDisplaying = true)
    (hfront : shell.completions.variants ≠ [] → shell.line.historyPosition = 0) :
    ∃ shell', shell.renderSelect = some shell' ∧ Keeps shell shell' := by
  obtain ⟨selected, hselect, hkeeps, hcompletions⟩ := h.renderSelectNoClose hfront
  obtain ⟨closed, hclose, hkeeps', -⟩ :=
    hkeeps.inv.renderClose (hcompletions.symm ▸ hdisplaying)
  rw [Shell.renderSelect, hselect]
  exact ⟨closed, hclose, hkeeps'.inv, hkeeps'.tail.trans hkeeps.tail,
    hkeeps'.executed.trans hkeeps.executed⟩

def inserts (shell : Shell) (combo : KeyCombo) : Bool :=
  if combo = ⟨modKeyNo, keyCR⟩ then
    shell.completions.isDisplaying && !shell.completions.variants.isEmpty
  else if combo = ⟨modKeyNo, keyTab⟩ then
    !shell.completions.isDisplaying && (shell.line.fillVariants shell.registry).any (·.length == 1)
  else false

theorem handleRecords_rule {records : List (KeyCombo × Action)} {next : Action}
    {Post : Bool × Shell → Prop}
    (hrecord : ∀ action, (combo, action) ∈ records →
      ∃ r, action combo shell = some r ∧ Post r ∧ (r.1 = false → r.2 = shell))
    (hnext : ∃ r, next combo shell = some r ∧ Post r) :
    ∃ r, handleRecords records next combo shell = some r ∧ Post r := by
  induction records with
  | nil => exact hnext
  | cons record records ih =>
    obtain ⟨recordCombo, action⟩ := record
    have hrest := ih fun action hmem => hrecord action (mem_cons_of_mem _ hmem)
    simp only [handleRecords]
    split
    case isFalse => exact hrest
    case isTrue heq =>
      obtain rfl := heq
      obtain ⟨⟨handled, shell'⟩, haction, hpost, hsame⟩ := hrecord action mem_cons_self
      rw [haction]
      cases handled with
      | true => exact ⟨_, rfl, hpost⟩
      | false =>
        obtain rfl := hsame rfl
        exact hrest

theorem onMenu_spec {f : KeyCombo → Shell → Option Shell} {Post : Bool × Shell → Prop}
    (hshown : shell.completions.isDisplaying = true →
      ∃ shell', f combo shell = some shell' ∧ Post (true, shell'))
    (hhidden : Post (false, shell)) :
    ∃ r, onMenu f combo shell = some r ∧ Post r ∧ (r.1 = false → r.2 = shell) := by
  rw [onMenu]
  split
  case isFalse => exact ⟨_, rfl, hhidden, fun _ => rfl⟩
  case isTrue hdisplaying =>
    obtain ⟨shell', hf, hpost⟩ := hshown hdisplaying
    rw [hf]
    exact ⟨_, rfl, hpost, fun h => Bool.noConfusion h⟩

theorem Inv.menu (h : shell.Inv)
    (hfront : shell.inserts combo = true → shell.line.historyPosition = 0) :
    ∃ r, completionsKeyComboSet.handle combo shell = some r ∧ Keeps shell r.2 ∧
      (r.1 = false → r.2.line = shell.line) := by
  have hleft : Keeps shell shell ∧ (false = false → shell.line = shell.line) :=
    ⟨h.keeps, fun _ => rfl⟩
  refine handleRecords_rule (fun action hmem => ?_) ?_
  · simp only [completionsKeyComboSet, mem_cons, Prod.mk.injEq, not_mem_nil, or_false] at hmem
    have hmove : ∀ move, ∃ shell', shell.renderMove move = some shell' ∧ Keeps shell shell' ∧
        (true = false → shell'.line = shell.line) := by
      intro move
      obtain ⟨shell', hrender, hkeeps⟩ := h.renderMove move
      exact ⟨shell', hrender, hkeeps, fun h => Bool.noConfusion h⟩
    rcases hmem with ⟨rfl, rfl⟩ | ⟨rfl, rfl⟩ | ⟨rfl, rfl⟩ | ⟨rfl, rfl⟩ | ⟨rfl, rfl⟩ | ⟨rfl, rfl⟩ |
      ⟨rfl, rfl⟩
    · -- the carriage return
      refine onMenu_spec (fun hdisplaying => ?_) hleft
      obtain ⟨shell', hrender, hkeeps⟩ := h.renderSelect hdisplaying fun hne =>
        hfront (by simp [inserts, hdisplaying, hne])
      exact ⟨shell', hrender, hkeeps, fun h => Bool.noConfusion h⟩
    · exact onMenu_spec (fun _ => hmove _) hleft
    · exact onMenu_spec (fun _ => hmove _) hleft
    · exact onMenu_spec (fun _ => hmove _) hleft
    · exact onMenu_spec (fun _ => hmove _) hleft
    · -- the tabulator
      cases hdisplaying : shell.completions.isDisplaying with
      | true =>
        obtain ⟨shell', hrender, hkeeps, hline⟩ := hmove .right
        refine ⟨(true, shell'), ?_, ⟨hkeeps, hline⟩, fun h => Bool.noConfusion h⟩
        rw [keyComboTab, hdisplaying, if_pos rfl, hrender]
        rfl
      | false =>
        obtain ⟨shell', hrender, hkeeps⟩ := h.renderOpen hdisplaying fun hone =>
          hfront (by simp [inserts, hdisplaying, hone, keyTab, keyCR])
        refine ⟨(true, shell'), ?_, ⟨hkeeps, fun h => Bool.noConfusion h⟩,
          fun h => Bool.noConfusion h⟩
        rw [keyComboTab, hdisplaying, if_neg Bool.false_ne_true, hrender]
        rfl
    · -- the escape key
      refine onMenu_spec (fun hdisplaying => ?_) hleft
      obtain ⟨shell', hclose, hkeeps, -⟩ := h.renderClose hdisplaying
      exact ⟨shell', hclose, hkeeps, fun h => Bool.noConfusion h⟩
  · change ∃ r, hideIfOpenAndContinueHandling combo shell = some r ∧ _
    rw [hideIfOpenAndContinueHandling]
    split
    case isFalse => exact ⟨_, rfl, hleft⟩
    case isTrue hdisplaying =>
      obtain ⟨shell', hclose, hkeeps, hline⟩ := h.renderClose hdisplaying
      rw [hclose]
      exact ⟨_, rfl, hkeeps, fun _ => hline⟩

theorem onLine_spec {f : KeyCombo → Line → Option Line} (combo : KeyCombo) (h : shell.Inv)
    (hf : ∃ line', f combo shell.line = some line' ∧ shell.line.Keeps line') :
    ∃ r, onLine f combo shell = some r ∧ Keeps shell r.2 ∧ (r.1 = false → r.2 = shell) := by
  obtain ⟨line', hline, hkeeps⟩ := hf
  rw [onLine, hline]
  exact ⟨_, rfl, ⟨⟨hkeeps.bounded, h.selected⟩, hkeeps.tail, rfl⟩, fun h => Bool.noConfusion h⟩

theorem Inv.lineHandle (h : shell.Inv) (hcombo : combo ≠ ⟨modKeyNo, keyCR⟩)
    (hword : combo = ⟨modKeyCtrl, keyLeft⟩ ∨ combo = ⟨modKeyNo, keyETB⟩ →
      shell.line.linePosition = 0 ∨ ¬ OneClass (shell.line.shown.take shell.line.linePosition)) :
    ∃ r, lineKeyComboSet.handle combo shell = some r ∧ Keeps shell r.2 := by
  refine handleRecords_rule (fun action hmem => ?_) ?_
  · simp only [lineKeyComboSet, mem_cons, Prod.mk.injEq, not_mem_nil, or_false] at hmem
    rcases hmem with ⟨rfl, rfl⟩ | ⟨rfl, rfl⟩ | ⟨rfl, rfl⟩ | ⟨rfl, rfl⟩ | ⟨rfl, rfl⟩ | ⟨rfl, rfl⟩ |
      ⟨rfl, rfl⟩ | ⟨rfl, rfl⟩ | ⟨rfl, rfl⟩ | ⟨rfl, rfl⟩ | ⟨rfl, rfl⟩ | ⟨rfl, rfl⟩ | ⟨rfl, rfl⟩ |
      ⟨rfl, rfl⟩
    · exact onLine_spec _ h h.bounded.inputCtrlC
    · exact absurd rfl hcombo
    · exact onLine_spec _ h (h.bounded.inputUpDown _)
    · exact onLine_spec _ h (h.bounded.inputUpDown _)
    · exact onLine_spec _ h (h.bounded.inputLeftRight _)
    · exact onLine_spec _ h (h.bounded.inputLeftRight _)
    · exact onLine_spec _ h h.bounded.inputHome
    · exact onLine_spec _ h h.bounded.inputEnd
    · exact onLine_spec _ h h.bounded.inputBksp
    · exact onLine_spec _ h h.bounded.inputBksp
    · exact onLine_spec _ h h.bounded.inputCtrlL
    · exact onLine_spec _ h (h.bounded.inputCtrlLeftRight fun _ => hword (Or.inl rfl))
    · exact onLine_spec _ h (h.bounded.inputCtrlLeftRight fun hleft => absurd hleft (by decide))
    · exact onLine_spec _ h (h.bounded.inputCtrlBksp (hword (Or.inr rfl)))
  · change ∃ r, lineInputNormal combo shell = some r ∧ _
    rw [lineInputNormal]
    split
    case isTrue => exact ⟨_, rfl, h.keeps⟩
    case isFalse =>
      split
      case isTrue => exact ⟨_, rfl, h.keeps⟩
      case isFalse =>
        obtain ⟨r, hr, hkeeps, -⟩ := onLine_spec
          (f := fun combo line => line.inputNormal (Char.ofNat combo.key)) combo h
          (h.bounded.inputNormal _)
        exact ⟨r, hr, hkeeps⟩

theorem menu_cr (h : shell.completions.isDisplaying = false) :
    completionsKeyComboSet.handle ⟨modKeyNo, keyCR⟩ shell = some (false, shell) := by
  simp [KeyComboSet.handle, completionsKeyComboSet, handleRecords, onMenu,
    hideIfOpenAndContinueHandling, h, modKeyNo, keyCR, keyUp, keyDown, keyLeft, keyRight, keyTab,
    keyEsc]

theorem menu_cr_displaying {shell' : Shell} (h : shell.completions.isDisplaying = true)
    (hselect : shell.renderSelect = some shell') :
    completionsKeyComboSet.handle ⟨modKeyNo, keyCR⟩ shell = some (true, shell') := by
  simp only [KeyComboSet.handle, completionsKeyComboSet, handleRecords, if_true]
  rw [onMenu, if_pos h, hselect]
  rfl

theorem line_cr {line' : Line} {command : Option FuriString}
    (h : shell.line.inputCr = some (line', command)) :
    lineKeyComboSet.handle ⟨modKeyNo, keyCR⟩ shell =
      some (true, ⟨line', shell.completions, shell.registry,
        shell.executed ++ command.toList⟩) := by
  have hother : (⟨modKeyNo, keyETX⟩ : KeyCombo) ≠ ⟨modKeyNo, keyCR⟩ := by decide
  simp only [KeyComboSet.handle, lineKeyComboSet, handleRecords, if_neg hother, if_true]
  rw [lineInputCr, h]
  rfl

/-- The key is the carriage return that enters the line. -/
def enters (shell : Shell) : Event → Bool
  | .key combo => combo == ⟨modKeyNo, keyCR⟩ && !shell.completions.isDisplaying
  | .registry _ => false

structure Sound (shell : Shell) (ev : Event) (shell' : Shell) : Prop where
  bounded : shell'.line.Bounded
  tail : shell.enters ev = false → shell'.line.history.tail = shell.line.history.tail
  executed : shell'.executed = shell.executed ++
    if shell.enters ev ∧ shell.line.shown.trim ≠ [] then [shell.line.shown.trim] else []

/-- No line of blanks is entered with the cursor behind its start; no word is jumped over or erased
to the left with but one class of characters before the cursor; and no completion is inserted while a
line of the history is shown. -/
structure ProperKey (shell : Shell) (combo : KeyCombo) : Prop where
  blank : shell.enters (.key combo) = true → shell.line.shown.trim = [] →
    shell.line.linePosition = 0
  word : combo = ⟨modKeyCtrl, keyLeft⟩ ∨ combo = ⟨modKeyNo, keyETB⟩ →
    shell.line.linePosition = 0 ∨ ¬ OneClass (shell.line.shown.take shell.line.linePosition)
  front : shell.inserts combo = true → shell.line.historyPosition = 0

instance decidableProperKey (shell : Shell) (combo : KeyCombo) :
    Decidable (shell.ProperKey combo) :=
  decidable_of_iff ((shell.enters (.key combo) = true → shell.line.shown.trim = [] →
      shell.line.linePosition = 0) ∧
    (combo = ⟨modKeyCtrl, keyLeft⟩ ∨ combo = ⟨modKeyNo, keyETB⟩ →
      shell.line.linePosition = 0 ∨ ¬ OneClass (shell.line.shown.take shell.line.linePosition)) ∧
    (shell.inserts combo = true → shell.line.historyPosition = 0))
    ⟨fun h => ⟨h.1, h.2.1, h.2.2⟩, fun h => ⟨h.blank, h.word, h.front⟩⟩

def Proper (shell : Shell) : Event → Prop
  | .key combo => shell.ProperKey combo
  | .registry _ => True

instance decidableProper (shell : Shell) : (ev : Event) → Decidable (shell.Proper ev)
  | .key combo => decidableProperKey shell combo
  | .registry _ => isTrue trivial

theorem Keeps.sound {ev : Event} {shell' : Shell} (h : Keeps shell shell')
    (henters : shell.enters ev = false) : Sound shell ev shell' where
  bounded := h.inv.bounded
  tail := fun _ => h.tail
  executed := by
    rw [if_neg (fun hcon => Bool.false_ne_true (henters.symm.trans hcon.1)), append_nil]
    exact h.executed

theorem Inv.process_cr (h : shell.Inv) (hproper : shell.ProperKey ⟨modKeyNo, keyCR⟩) :
    ∃ shell', shell.process ⟨modKeyNo, keyCR⟩ = some shell' ∧ shell'.Inv ∧
      Sound shell (.key ⟨modKeyNo, keyCR⟩) shell' := by
  rw [Shell.process, if_neg (by decide)]
  cases hdisplaying : shell.completions.isDisplaying with
  | true =>
    obtain ⟨shell', hselect, hkeeps⟩ := h.renderSelect hdisplaying fun hne =>
      hproper.front (by simp [inserts, hdisplaying, hne])
    rw [menu_cr_displaying hdisplaying hselect]
    exact ⟨shell', rfl, hkeeps.inv, hkeeps.sound (by simp [enters, hdisplaying])⟩
  | false =>
    have henters : shell.enters (.key ⟨modKeyNo, keyCR⟩) = true := by simp [enters, hdisplaying]
    obtain ⟨line', hbounded, hline⟩ := h.bounded.inputCr (hproper.blank henters)
    rw [menu_cr hdisplaying]
    simp only [bind_eq_bind, bind_some, Bool.false_eq_true, if_false, line_cr hline]
    refine ⟨_, rfl, ⟨hbounded, h.selected⟩, hbounded, fun hno => ?_, ?_⟩
    · rw [henters] at hno
      exact Bool.noConfusion hno
    · by_cases htrim : shell.line.shown.trim = []
      · simp [htrim]
      · simp [htrim, henters]

theorem Inv.process (h : shell.Inv) (hproper : shell.ProperKey combo) :
    ∃ shell', shell.process combo = some shell' ∧ shell'.Inv ∧ Sound shell (.key combo) shell' := by
  by_cases hcr : combo = ⟨modKeyNo, keyCR⟩
  · obtain rfl := hcr
    exact h.process_cr hproper
  · have henters : shell.enters (.key combo) = false := by simp [enters, hcr]
    rw [Shell.process]
    split
    case isTrue => exact ⟨shell, rfl, h, h.keeps.sound henters⟩
    case isFalse =>
      obtain ⟨⟨handled, shell'⟩, hmenu, hkeeps, hline⟩ := h.menu hproper.front
      rw [hmenu]
      cases handled with
      | true => exact ⟨shell', rfl, hkeeps.inv, hkeeps.sound henters⟩
      | false =>
        have hsame : shell'.line = shell.line := hline rfl
        obtain ⟨⟨handled', shell''⟩, hhandle, hkeeps'⟩ := hkeeps.inv.lineHandle hcr
          (hsame ▸ hproper.word)
        simp only [bind_eq_bind, bind_some, Bool.false_eq_true, if_false, hhandle]
        exact ⟨shell'', rfl, hkeeps'.inv, Keeps.sound ⟨hkeeps'.inv, hkeeps'.tail.trans hkeeps.tail,
          hkeeps'.executed.trans hkeeps.executed⟩ henters⟩

theorem Inv.step (h : shell.Inv) {ev : Event} (hproper : shell.Proper ev) :
    ∃ shell', machine.step shell ev = some shell' ∧ shell'.Inv ∧ Sound shell ev shell' := by
  cases ev with
  | key combo => exact h.process hproper
  | registry commands =>
    have hinv : Inv { shell with registry := commands } := ⟨h.bounded, h.selected⟩
    exact ⟨_, rfl, hinv, Keeps.sound ⟨hinv, rfl, rfl⟩ rfl⟩

end Shell

/-- With proper keys nothing outside a string is accessed, and after each of them the positions lie
in the line and in the history, and the history is as before, unless the key entered a line: then
the text on the screen, trimmed, was executed. -/
theorem editor_sound {evs : List Event} (hproper : machine.Meets Shell.Proper .alloc evs) :
    (∃ shell, machine.run .alloc evs = some shell ∧ shell.line.Bounded) ∧
      machine.Meets (fun shell ev => ∃ shell', machine.step shell ev = some shell' ∧
        shell.Sound ev shell') .alloc evs := by
  have hstep : ∀ shell ev, shell.Inv → shell.Proper ev →
      ∃ shell', machine.step shell ev = some shell' ∧ shell'.Inv := by
    intro shell ev h hok
    obtain ⟨shell', hs, hinv, -⟩ := h.step hok
    exact ⟨shell', hs, hinv⟩
  constructor
  · obtain ⟨shell, hrun, hinv⟩ := machine.run_of_meets hstep Shell.inv_alloc hproper
    exact ⟨shell, hrun, hinv.bounded⟩
  · refine machine.meets_of_invariant (fun shell ev shell' h hok hs => ?_) (fun shell ev h hok => ?_)
      Shell.inv_alloc hproper
    · obtain ⟨shell₁, hs₁, hinv⟩ := hstep shell ev h hok
      exact some.inj (hs₁.symm.trans hs) ▸ hinv
    · obtain ⟨shell', hs, -, hsound⟩ := h.step hok
      exact ⟨shell', hs, hsound⟩

def typed (c : Char) : Event := .key ⟨modKeyNo, c.toNat⟩

/-- A command is completed and entered; it is then changed, and entered again. -/
def sampleEvents : List Event :=
  [.registry ["help".toList, "exit".toList], typed 'h', typed 'e', .key ⟨modKeyNo, keyTab⟩,
    .key ⟨modKeyNo, keyCR⟩, .key ⟨modKeyNo, keyUp⟩, typed ' ', typed 'x',
    .key ⟨modKeyCtrl, keyLeft⟩, .key ⟨modKeyNo, keyETB⟩, .key ⟨modKeyNo, keyCR⟩]

theorem editor_sound_sample : (machine.run .alloc sampleEvents).map Shell.executed =
        some ["help".toList, "helpx".toList] ∧
      machine.Meets (fun shell ev => ∃ shell', machine.step shell ev = some shell' ∧
        shell.Sound ev shell') .alloc sampleEvents := by
  have hproper : machine.Meets Shell.Proper .alloc sampleEvents := by decide +kernel
  exact ⟨by decide +kernel, (editor_sound hproper).2⟩

def blankEvents : List Event := [typed ' ', .key ⟨modKeyNo, keyCR⟩]

def wordEvents : List Event := [typed 'a', .key ⟨modKeyCtrl, keyLeft⟩]

/-- A command is completed while a line of the history is shown. -/
def historyEvents : List Event :=
  [.registry ["help".toList], typed 'q', .key ⟨modKeyNo, keyCR⟩, typed 'h', .key ⟨modKeyNo, keyUp⟩]

theorem not_editor_sound :
    (∃ shell, machine.run .alloc blankEvents = some shell ∧ ¬ shell.line.Bounded) ∧
    machine.run .alloc wordEvents = none ∧
    ∃ shell shell', machine.run .alloc historyEvents = some shell ∧
      machine.step shell (.key ⟨modKeyNo, keyTab⟩) = some shell' ∧
      ¬ shell.Sound (.key ⟨modKeyNo, keyTab⟩) shell' := by
  refine ⟨?_, by decide, ?_⟩
  · have hline : (machine.run .alloc blankEvents).map
        (fun shell => (shell.line.linePosition, shell.line.shown.length)) = some (1, 0) := by
      decide
    obtain ⟨shell, hrun, hpositions⟩ := map_eq_some_iff.mp hline
    obtain ⟨hposition, hlength⟩ := Prod.mk.inj hpositions
    refine ⟨shell, hrun, fun h => ?_⟩
    have hcursor := h.cursor
    omega
  · have hline : (machine.run .alloc historyEvents).map (fun shell =>
        (shell.line.history.tail, (machine.step shell (.key ⟨modKeyNo, keyTab⟩)).map
          fun shell' => shell'.line.history.tail)) =
        some (["q".toList], some ["help".toList]) := by decide
    obtain ⟨shell, hrun, htails⟩ := map_eq_some_iff.mp hline
    obtain ⟨htail, hstep⟩ := Prod.mk.inj htails
    obtain ⟨shell', hs, htail'⟩ := map_eq_some_iff.mp hstep
    refine ⟨shell, shell', hrun, hs, fun h => ?_⟩
    have hsame := h.tail rfl
    rw [htail, htail'] at hsame
    cases hsame

end NikitaFirmware.Cli
