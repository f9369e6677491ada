import NikitaFirmware.Foundations.Machine

/-!
# The command line of the shell

The line editor of the command-line shell (`lib/toolbox/cli/shell/cli_shell_line.c`): a cursor in one
of up to ten lines, the first of which is being written and the others are the history. An access
outside a string or outside the array of lines has no result.
-/

namespace NikitaFirmware.Cli

/-- The characters of a `FuriString`. -/
abbrev FuriString := List Char

namespace FuriString

/-- `furi_string_get_char`; the index of the source is unsigned, and a negative one lies outside. -/
def getChar (string : FuriString) (index : Int) : Option Char :=
  if 0 ≤ index then string[index.toNat]? else none

def replaceAt (string : FuriString) (pos len : Nat) (str : FuriString) : Option FuriString :=
  if pos + len ≤ string.length then some (string.take pos ++ str ++ string.drop (pos + len))
  else none

/-- The characters that `furi_string_trim` removes. -/
def isBlank (c : Char) : Bool := c == ' ' || c == '\n' || c == '\r' || c == '\t'

def trim (string : FuriString) : FuriString :=
  (string.reverse.dropWhile isBlank).reverse.dropWhile isBlank

end FuriString

def historyDepth : Nat := 10

/-- `struct CliShellLine`; `history_entries` is the length of `history`. -/
structure Line where
  historyPosition : Nat
  linePosition : Nat
  history : List FuriString

/-- The classes of characters that a jump of the cursor tells apart. -/
inductive CharClass where
  | word
  | space
  | other
  deriving DecidableEq

def charClass (c : Char) : CharClass :=
  if ('A' ≤ c ∧ c ≤ 'Z') ∨ ('a' ≤ c ∧ c ≤ 'z') ∨ ('0' ≤ c ∧ c ≤ '9') ∨ c = '_' then .word
  else if c = ' ' then .space
  else .other

inductive SkipDirection where
  | left
  | right
  deriving DecidableEq

def SkipDirection.lookOffset : SkipDirection → Int
  | .left => -1
  | .right => 0

def SkipDirection.increment : SkipDirection → Int
  | .left => -1
  | .right => 1

def skipLoop (string : FuriString) (direction : SkipDirection) (startClass : CharClass) :
    Nat → Int → Option Int
  | 0, _ => none
  | fuel + 1, position =>
    let position := position + direction.increment
    if position < 0 then some position
    else if string.length ≤ position then some position
    else do
      let c ← string.getChar (position + direction.lookOffset)
      if charClass c ≠ startClass then some position
      else skipLoop string direction startClass fuel position

def skipRun (string : FuriString) (originalPos : Nat) (direction : SkipDirection) : Option Nat :=
  if string.length = 0 then some originalPos
  else if direction = .left ∧ originalPos = 0 then some originalPos
  else if direction = .right ∧ originalPos = string.length then some originalPos
  else do
    let c ← string.getChar (originalPos + direction.lookOffset)
    let position ← skipLoop string direction (charClass c) (string.length + 1) originalPos
    return (max 0 position).toNat

namespace Line

def alloc : Line := ⟨0, 0, [[]]⟩

def getSelected (line : Line) : Option FuriString := line.history[line.historyPosition]?

def getEditing (line : Line) : Option FuriString := line.history[0]?

def setSelected (line : Line) (string : FuriString) : Line :=
  { line with history := line.history.set line.historyPosition string }

def setEditing (line : Line) (string : FuriString) : Line :=
  { line with history := line.history.set 0 string }

def ensureNotOverwritingHistory (line : Line) : Option Line :=
  if 0 < line.historyPosition then do
    let source ← line.getSelected
    let _ ← line.getEditing
    return { line.setEditing source with historyPosition := 0 }
  else some line

def inputCtrlC (line : Line) : Option Line := do
  let _ ← line.getEditing
  return { line.setEditing [] with linePosition := 0, historyPosition := 0 }

/-- The search of `cli_shell_line_input_cr` for a command that is in the history already. -/
def selectDuplicate (line : Line) (command : FuriString) : Line :=
  if line.historyPosition = 0 then
    match (line.history.drop 1).findIdx? (· == command) with
    | some i => { line with historyPosition := i + 1, history := line.history.modify (i + 1) .trim }
    | none => line
  else line

/-- `cli_shell_line_input_cr`, where the selected command is moved to the front. -/
def moveToFront (line : Line) : Option Line :=
  if 0 < line.historyPosition then do
    let command ← line.getSelected
    return { line with history := (line.history.eraseIdx line.historyPosition).set 0 command }
  else some line

/-- `cli_shell_line_input_cr`, where an empty command is inserted. -/
def insertEmpty (line : Line) : Line where
  historyPosition := 0
  linePosition := 0
  history := [] ::
    if line.history.length = historyDepth then line.history.dropLast else line.history

def inputCr (line : Line) : Option (Line × Option FuriString) := do
  let command ← line.getSelected
  let line := line.setSelected command.trim
  if command.trim = [] then
    return (line, none)
  let line ← (line.selectDuplicate command.trim).moveToFront
  return (line.insertEmpty, some command.trim)

/-- `CLAMP` of an index that was moved by `increment`. -/
def clamp (x upper : Int) : Nat := (min upper (max x 0)).toNat

def inputUpDown (line : Line) (increment : Int) : Option Line :=
  let newPos := clamp (line.historyPosition + increment) (line.history.length - 1)
  if newPos ≠ line.historyPosition then do
    let line := { line with historyPosition := newPos }
    let command ← line.getSelected
    return { line with linePosition := command.length }
  else some line

def inputLeftRight (line : Line) (increment : Int) : Option Line := do
  let command ← line.getSelected
  return { line with linePosition := clamp (line.linePosition + increment) command.length }

def inputHome (line : Line) : Option Line := some { line with linePosition := 0 }

def inputEnd (line : Line) : Option Line := do
  let command ← line.getSelected
  return { line with linePosition := command.length }

def inputBksp (line : Line) : Option Line := do
  let line ← line.ensureNotOverwritingHistory
  let editingLine ← line.getEditing
  if line.linePosition = 0 then
    return line
  let editingLine ← editingLine.replaceAt (line.linePosition - 1) 1 []
  return { line.setEditing editingLine with linePosition := line.linePosition - 1 }

def inputCtrlL (line : Line) : Option Line := do
  let _ ← line.getSelected
  return line

def inputCtrlLeftRight (line : Line) (direction : SkipDirection) : Option Line := do
  let selectedLine ← line.getSelected
  let position ← skipRun selectedLine line.linePosition direction
  return { line with linePosition := position }

def inputCtrlBksp (line : Line) : Option Line := do
  let line ← line.ensureNotOverwritingHistory
  let selectedLine ← line.getSelected
  let runStart ← skipRun selectedLine line.linePosition .left
  let selectedLine ← selectedLine.replaceAt runStart (line.linePosition - runStart) []
  return { line.setSelected selectedLine with linePosition := runStart }

def inputNormal (line : Line) (c : Char) : Option Line := do
  let line ← line.ensureNotOverwritingHistory
  let editingLine ← line.getEditing
  let editingLine ← if line.linePosition = editingLine.length then some (editingLine ++ [c])
    else editingLine.replaceAt line.linePosition 0 [c]
  return { line.setEditing editingLine with linePosition := line.linePosition + 1 }

end Line

/-- `struct CliShellCompletions`, less the registry and the line. -/
structure Completions where
  variants : List FuriString
  selected : Nat
  isDisplaying : Bool

def completionColumns : Nat := 3

inductive SegmentType where
  | command
  | arguments

structure Segment where
  type : SegmentType
  start : Nat
  length : Nat

def FuriString.searchChar (string : FuriString) (c : Char) (start : Nat) : Option (Option Nat) :=
  if start ≤ string.length then some (((string.drop start).idxOf? c).map (· + start)) else none

/-- The loop of `cli_shell_completions_segment` that is to skip the spaces in front. -/
def firstNonSpace (input : FuriString) : Nat → Nat → Option Nat
  | 0, _ => none
  | fuel + 1, start => do
    match ← input.searchChar ' ' start with
    | none => some start
    | some ret => if 1 < ret - start then some start else firstNonSpace input fuel (start + 1)

def Line.segment (line : Line) : Option Segment := do
  let editing ← line.getEditing
  let input := editing.take line.linePosition
  let start ← firstNonSpace input (input.length + 1) 0
  match ← FuriString.searchChar input ' ' start with
  | none => return ⟨.command, start, input.length - start⟩
  | some _ => return ⟨.arguments, 0, 0⟩

def Line.fillVariants (line : Line) (registry : List FuriString) : Option (List FuriString) := do
  let segment ← line.segment
  let editing ← line.getEditing
  let input := (editing.drop segment.start).take segment.length
  match segment.type with
  | .command => return registry.filter fun commandName => input.isPrefixOf commandName
  | .arguments => return []

def Completions.rowsAtColumn (completions : Completions) (x : Nat) : Nat :=
  completions.variants.length / completionColumns +
    if completions.variants.length % completionColumns ≤ x then 0 else 1

def clampWraparound (x upper : Int) : Nat :=
  (if upper < x then 0 else if x < 0 then upper else x).toNat

/-- `CliShellCompletionsActionUp` and its like. -/
inductive Move where
  | up
  | down
  | left
  | right

def Completions.nColumns (completions : Completions) : Int :=
  if completionColumns ≤ completions.variants.length then completionColumns
  else completions.variants.length

/-- The selection in the row `y` of the menu, or past either end of its column; a column of the menu
has at least one row. -/
def Completions.selectionAtRow (completions : Completions) (y : Int) : Int :=
  let x := completions.selected % completionColumns
  if y < 0 then
    let x := clampWraparound (x - 1) (completions.nColumns - 1)
    (completions.rowsAtColumn x - 1) * completionColumns + x
  else if completions.rowsAtColumn x - 1 < y then
    clampWraparound (x + 1) (completions.nColumns - 1)
  else y * completionColumns + x

def Completions.selectionUnclamped (completions : Completions) : Move → Int
  | .left => completions.selected - 1
  | .right => completions.selected + 1
  | .up => completions.selectionAtRow (completions.selected / completionColumns - 1)
  | .down => completions.selectionAtRow (completions.selected / completionColumns + 1)

/-- The components of the shell that handle keys, the commands that are registered, and those that
were given to `cli_shell_execute_command`. -/
structure Shell where
  line : Line
  completions : Completions
  registry : List FuriString
  executed : List FuriString

namespace Shell

def alloc : Shell := ⟨.alloc, ⟨[], 0, false⟩, [], []⟩

/-- `CliShellCompletionsActionSelectNoClose` -/
def renderSelectNoClose (shell : Shell) : Option Shell :=
  if shell.completions.variants = [] then some shell
  else do
    let segment ← shell.line.segment
    let input ← shell.line.getSelected
    let completion ← shell.completions.variants[shell.completions.selected]?
    let input ← input.replaceAt segment.start segment.length completion
    let positionChange : Int := completion.length - segment.length
    let position := (max 0 (shell.line.linePosition + positionChange)).toNat
    return { shell with line := { shell.line.setSelected input with linePosition := position } }

/-- `CliShellCompletionsActionOpen` -/
def renderOpen (shell : Shell) : Option Shell :=
  if shell.completions.isDisplaying then none
  else do
    let variants ← shell.line.fillVariants shell.registry
    let shell := { shell with completions := { shell.completions with variants, selected := 0 } }
    if variants.length = 1 then shell.renderSelectNoClose
    else some { shell with completions := { shell.completions with isDisplaying := true } }

/-- `CliShellCompletionsActionClose` -/
def renderClose (shell : Shell) : Option Shell :=
  if shell.completions.isDisplaying then do
    let _ ← shell.line.getSelected
    return { shell with completions := { shell.completions with isDisplaying := false } }
  else none

/-- `CliShellCompletionsActionUp`, `Down`, `Left` and `Right` -/
def renderMove (shell : Shell) (move : Move) : Option Shell :=
  if shell.completions.variants = [] then some shell
  else do
    let selected := clampWraparound (shell.completions.selectionUnclamped move)
      (shell.completions.variants.length - 1)
    if selected ≠ shell.completions.selected then
      let _ ← shell.completions.variants[shell.completions.selected]?
      let _ ← shell.completions.variants[selected]?
      let _ ← shell.line.getSelected
    return { shell with completions := { shell.completions with selected } }

/-- `CliShellCompletionsActionSelect` -/
def renderSelect (shell : Shell) : Option Shell := do
  let shell ← shell.renderSelectNoClose
  shell.renderClose

end Shell

open Foundations

/-- `CliKeyCombo`; a `CliKey` is a character or a number from 0x80 on. -/
structure KeyCombo where
  modifiers : Nat
  key : Nat
  deriving DecidableEq

def modKeyNo : Nat := 0

def modKeyCtrl : Nat := 4

/-! The members of `CliKey`. -/

def keyUnrecognized : Nat := 0
def keyETX : Nat := 0x03
def keyBackspace : Nat := 0x08
def keyTab : Nat := 0x09
def keyFF : Nat := 0x0C
def keyCR : Nat := 0x0D
def keyETB : Nat := 0x17
def keyEsc : Nat := 0x1B
def keySpace : Nat := 0x20
def keyDEL : Nat := 0x7F
def keyLeft : Nat := 0x81
def keyRight : Nat := 0x82
def keyUp : Nat := 0x83
def keyDown : Nat := 0x84
def keyHome : Nat := 0x85
def keyEnd : Nat := 0x86

/-- A handler says whether it has taken the key. -/
abbrev Action := KeyCombo → Shell → Option (Bool × Shell)

structure KeyComboSet where
  fallback : Action
  records : List (KeyCombo × Action)

/-- The records of a set in turn, and what follows them. -/
def handleRecords : List (KeyCombo × Action) → Action → Action
  | [], next => next
  | (recordCombo, action) :: records, next => fun combo shell =>
    if recordCombo = combo then do
      let (handled, shell) ← action combo shell
      if handled then some (true, shell) else handleRecords records next combo shell
    else handleRecords records next combo shell

def KeyComboSet.handle (set : KeyComboSet) : Action := handleRecords set.records set.fallback

namespace Shell

def onLine (f : KeyCombo → Line → Option Line) : Action := fun combo shell => do
  let line ← f combo shell.line
  return (true, { shell with line })

def lineInputCr : Action := fun _ shell => do
  let (line, command) ← shell.line.inputCr
  return (true, { shell with line, executed := shell.executed ++ command.toList })

def lineInputNormal : Action := fun combo shell =>
  if combo.modifiers ≠ modKeyNo then some (false, shell)
  else if combo.key < keySpace ∨ keyDEL ≤ combo.key then some (false, shell)
  else onLine (fun combo line => line.inputNormal (Char.ofNat combo.key)) combo shell

def upDownIncrement (combo : KeyCombo) : Int := if combo.key = keyUp then 1 else -1

def leftRightIncrement (combo : KeyCombo) : Int := if combo.key = keyRight then 1 else -1

/-- The direction of `cli_shell_line_input_ctrl_left_right`. -/
def skipDirection (combo : KeyCombo) : SkipDirection :=
  if combo.key = keyLeft then .left else .right

def lineKeyComboSet : KeyComboSet where
  fallback := lineInputNormal
  records :=
    [(⟨modKeyNo, keyETX⟩, onLine fun _ line => line.inputCtrlC),
      (⟨modKeyNo, keyCR⟩, lineInputCr),
      (⟨modKeyNo, keyUp⟩, onLine fun combo line => line.inputUpDown (upDownIncrement combo)),
      (⟨modKeyNo, keyDown⟩, onLine fun combo line => line.inputUpDown (upDownIncrement combo)),
      (⟨modKeyNo, keyLeft⟩, onLine fun combo line => line.inputLeftRight (leftRightIncrement combo)),
      (⟨modKeyNo, keyRight⟩, onLine fun combo line => line.inputLeftRight (leftRightIncrement combo)),
      (⟨modKeyNo, keyHome⟩, onLine fun _ line => line.inputHome),
      (⟨modKeyNo, keyEnd⟩, onLine fun _ line => line.inputEnd),
      (⟨modKeyNo, keyBackspace⟩, onLine fun _ line => line.inputBksp),
      (⟨modKeyNo, keyDEL⟩, onLine fun _ line => line.inputBksp),
      (⟨modKeyNo, keyFF⟩, onLine fun _ line => line.inputCtrlL),
      (⟨modKeyCtrl, keyLeft⟩, onLine fun combo line => line.inputCtrlLeftRight (skipDirection combo)),
      (⟨modKeyCtrl, keyRight⟩, onLine fun combo line => line.inputCtrlLeftRight (skipDirection combo)),
      (⟨modKeyNo, keyETB⟩, onLine fun _ line => line.inputCtrlBksp)]

def hideIfOpenAndContinueHandling : Action := fun _ shell =>
  if shell.completions.isDisplaying then do
    let shell ← shell.renderClose
    return (false, shell)
  else some (false, shell)

/-- What the menu takes while it is displayed. -/
def onMenu (f : KeyCombo → Shell → Option Shell) : Action := fun combo shell =>
  if shell.completions.isDisplaying then do
    let shell ← f combo shell
    return (true, shell)
  else some (false, shell)

def keyComboTab : Action := fun _ shell => do
  let shell ← if shell.completions.isDisplaying then shell.renderMove .right else shell.renderOpen
  return (true, shell)

def completionsKeyComboSet : KeyComboSet where
  fallback := hideIfOpenAndContinueHandling
  records :=
    [(⟨modKeyNo, keyCR⟩, onMenu fun _ shell => shell.renderSelect),
      (⟨modKeyNo, keyUp⟩,
        onMenu fun combo shell => shell.renderMove (if combo.key = keyUp then .up else .down)),
      (⟨modKeyNo, keyDown⟩,
        onMenu fun combo shell => shell.renderMove (if combo.key = keyUp then .up else .down)),
      (⟨modKeyNo, keyLeft⟩,
        onMenu fun combo shell => shell.renderMove (if combo.key = keyLeft then .left else .right)),
      (⟨modKeyNo, keyRight⟩,
        onMenu fun combo shell => shell.renderMove (if combo.key = keyLeft then .left else .right)),
      (⟨modKeyNo, keyTab⟩, keyComboTab),
      (⟨modKeyNo, keyEsc⟩, onMenu fun _ shell => shell.renderClose)]

def process (combo : KeyCombo) (shell : Shell) : Option Shell :=
  if combo.key = keyUnrecognized then some shell
  else do
    let (handled, shell) ← completionsKeyComboSet.handle combo shell
    if handled then some shell
    else do
      let (_, shell) ← lineKeyComboSet.handle combo shell
      return shell

end Shell

/-- The shell gets a key, or its registry changes. -/
inductive Event where
  | key (combo : KeyCombo)
  | registry (commands : List FuriString)

def machine : Machine Shell Event where
  step
    | shell, .key combo => shell.process combo
    | shell, .registry commands => some { shell with registry := commands }

end NikitaFirmware.Cli
