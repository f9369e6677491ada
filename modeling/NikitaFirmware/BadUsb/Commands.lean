import NikitaFirmware.Toolbox.StrintWords

/-!
# The commands of a BadUSB script

`ducky_execute_cmd` looks the first word of a line up and hands the line to its command, and
`ducky_script_execute_next` adds the default delay to what the command returns. The tables of key
names are parameters.
-/

namespace NikitaFirmware.BadUsb

open Toolbox

abbrev Text := List Char

abbrev SCRIPT_STATE_ERROR : Int32 := -1
abbrev SCRIPT_STATE_NEXT_LINE : Int32 := -3
abbrev SCRIPT_STATE_CMD_UNKNOWN : Int32 := -4
abbrev SCRIPT_STATE_STRING_START : Int32 := -5
abbrev SCRIPT_STATE_WAIT_FOR_BTN : Int32 := -6

abbrev KEY_MOD_LEFT_ALT : UInt16 := 0x400
abbrev HID_KEYBOARD_RETURN : UInt16 := 0x28
abbrev HID_KEYBOARD_PRINT_SCREEN : UInt16 := 0x46
abbrev HID_KEYBOARD_LOCK_NUM_LOCK : UInt16 := 0x83
abbrev HID_CONSUMER_FN_GLOBE : UInt16 := 0x029D

def numpadKeys : List UInt16 := [0x62, 0x59, 0x5A, 0x5B, 0x5C, 0x5D, 0x5E, 0x5F, 0x60, 0x61]

inductive HidCall where
  | kbPress (key : UInt16)
  | kbRelease (key : UInt16)
  | releaseAll
  | mousePress (button : UInt8)
  | mouseRelease (button : UInt8)
  | consumerPress (key : UInt16)
  | consumerRelease (key : UInt16)
  | mouseScroll (delta : Int8)
  | mouseMove (dx dy : Int8)

def tap (key : UInt16) : List HidCall := [.kbPress key, .kbRelease key]

/-- The tables of `ducky_script_keycodes.c`. -/
structure Names where
  keys : List (Text × UInt16)
  media : List (Text × UInt16)
  mouse : List (Text × UInt8)

def modifierKeys : List (Text × UInt16) :=
  [("CTRL".toList, 0x100), ("CONTROL".toList, 0x100), ("SHIFT".toList, 0x200),
    ("ALT".toList, 0x400), ("GUI".toList, 0x800), ("WINDOWS".toList, 0x800)]

structure BadUsbScript where
  defdelay : UInt32
  stringdelay : UInt32
  defstringdelay : UInt32
  repeatCnt : UInt32
  keyHoldNb : UInt8
  stringPrint : Text
  layout : UInt8 → UInt16
  /-- the state of the lock, as the host reports it -/
  numLock : Bool
  line : Text
  linePrev : Text
  error : Text
  hid : List HidCall

/-- What a command does: it returns, reads behind the end of its line, or never ends. -/
inductive Result where
  | returns (value : Int32) (s : BadUsbScript)
  | outside
  | hangs

def isLineEnd (c : Char) : Bool := c == ' ' || c == '\r' || c == '\n'

/-- The comparison of the `_by_name` functions, with what follows the name. -/
def afterName (name param : Text) : Option Text :=
  if name.isPrefixOf param then some (param.drop name.length) else none

def keycodeByName {κ : Type} [OfNat κ 0] (table : List (Text × κ)) (param : Text) : κ :=
  ((table.find? fun key => (afterName key.1 param).any fun rest =>
    rest.head?.all isLineEnd).map Prod.snd).getD 0

def getCommandLen (line : Text) : Nat :=
  if ' ' ∈ line then (line.takeWhile (· ≠ ' ')).length else 0

def pointer (line : Text) (i : Nat) : Option Text :=
  if i ≤ line.length then some (line.drop i) else none

def getNumber (param : Text) : Option UInt32 :=
  match Strint.toUint32 param none (some 0) 10 with
  | (.ok _, _, value) => value
  | _ => none

def getInt32 (param : Text) : Option Int32 :=
  match Strint.toInt32 param none (some 0) 10 with
  | (.ok _, _, value) => value
  | _ => none

namespace BadUsbScript
variable (names : Names) (s : BadUsbScript)

def asciiToKey (c : Char) : UInt16 := if c.toNat < 128 then s.layout (UInt8.ofNat c.toNat) else 0

def getKeycode (param : Text) (acceptModifiers : Bool) : UInt16 :=
  if keycodeByName names.keys param ≠ 0 then keycodeByName names.keys param
  else if acceptModifiers ∧ keycodeByName modifierKeys param ≠ 0 then
    keycodeByName modifierKeys param
  else match param with
    | [] => 0
    | c :: _ => s.asciiToKey c &&& 0xFF

def put (calls : List HidCall) : BadUsbScript := { s with hid := s.hid ++ calls }

def fail (text : Text) : Result := .returns SCRIPT_STATE_ERROR { s with error := text.take 63 }

def numlockOn : BadUsbScript := if s.numLock then s else s.put (tap HID_KEYBOARD_LOCK_NUM_LOCK)

def isDigit (c : Char) : Bool := '0' ≤ c && c ≤ '9'

/-- `ducky_altchar`: the digits that are tapped, and whether all of the code is. The index of its
loop has eight bits, and begins again behind 256 digits. -/
def altchar (charcode : Text) : Option (BadUsbScript × Bool) :=
  let digits := charcode.takeWhile isDigit
  if 256 ≤ digits.length then none
  else
    let taps := digits.flatMap fun c => tap (numpadKeys.getD (c.toNat - 48) 0)
    some (s.put ([.kbPress KEY_MOD_LEFT_ALT] ++ taps ++ [.kbRelease KEY_MOD_LEFT_ALT]),
      !digits.isEmpty && (charcode.drop digits.length).head?.all isLineEnd)

/-- The loop of `ducky_altstring`; what is not printable is skipped. -/
def altstring (s : BadUsbScript) (state : Bool) : Text → Option (BadUsbScript × Bool)
  | [] => some (s, state)
  | c :: param =>
    if c < ' ' ∨ '~' < c then altstring s state param
    else (s.altchar (Nat.repr c.toNat).toList).bind fun r =>
      if r.2 then altstring r.1 true param else some (r.1, false)

def stringTaps (param : Text) : List HidCall := param.flatMap fun c =>
  if c = '\n' then tap HID_KEYBOARD_RETURN
  else if s.asciiToKey c ≠ 0 then tap (s.asciiToKey c) else []

end BadUsbScript

inductive Command where
  | ignored
  | delay
  | string (newline : Bool)
  | defdelay
  | strdelay
  | defstrdelay
  | repeat
  | sysrq
  | altchar
  | altstring
  | hold
  | release
  | waitforbutton
  | media
  | globe
  | mouseMove
  | mouseScroll
  deriving DecidableEq

def duckyCommands : List (String × Command) := [
  ("REM", .ignored), ("ID", .ignored), ("BT_ID", .ignored), ("BLE_ID", .ignored),
  ("DELAY", .delay), ("STRING", .string false), ("STRINGLN", .string true),
  ("DEFAULT_DELAY", .defdelay), ("DEFAULTDELAY", .defdelay), ("STRINGDELAY", .strdelay),
  ("STRING_DELAY", .strdelay), ("DEFAULT_STRING_DELAY", .defstrdelay),
  ("DEFAULTSTRINGDELAY", .defstrdelay), ("REPEAT", .repeat), ("SYSRQ", .sysrq),
  ("ALTCHAR", .altchar), ("ALTSTRING", .altstring), ("ALTCODE", .altstring), ("HOLD", .hold),
  ("RELEASE", .release), ("WAIT_FOR_BUTTON_PRESS", .waitforbutton), ("MEDIA", .media),
  ("GLOBE", .globe), ("MOUSEMOVE", .mouseMove), ("MOUSE_MOVE", .mouseMove),
  ("MOUSESCROLL", .mouseScroll), ("MOUSE_SCROLL", .mouseScroll)]

def lookup (line : Text) : Option Command :=
  (duckyCommands.find? fun cmd => cmd.1.toList == line.takeWhile (· ≠ ' ')).map Prod.snd

namespace BadUsbScript
variable (names : Names) (s : BadUsbScript)

def invalidNumber (line : Text) : Result := s.fail ("Invalid number ".toList ++ line)

def setNumber (set : UInt32 → BadUsbScript) (line : Text) : Result :=
  match getNumber line with
  | none => s.invalidNumber line
  | some value => .returns 0 (set value)

/-- `ducky_fnc_hold` and `ducky_fnc_release` behind their check of the held keys. -/
def holdKey (line : Text) (count : UInt8) (mouse : UInt8 → HidCall)
    (keyboard : UInt16 → HidCall) (text : String) : Result :=
  if keycodeByName names.mouse line ≠ 0 then
    .returns 0 { s.put [mouse (keycodeByName names.mouse line)] with keyHoldNb := count }
  else if s.getKeycode names line true ≠ 0 then
    .returns 0 { s.put [keyboard (s.getKeycode names line true)] with keyHoldNb := count }
  else s.fail (text.toList ++ line)

/-- The commands whose argument stands at `ducky_get_command_len(line) + 1`. -/
def callback (line : Text) : Command → Result
  | .delay => match getNumber line with
    | some value => if 0 < value then .returns value.toInt32 s else s.invalidNumber line
    | none => s.invalidNumber line
  | .string newline =>
    let s : BadUsbScript := { s with stringPrint := line ++ if newline then ['\n'] else [] }
    if s.stringdelay = 0 ∧ s.defstringdelay = 0 then
      .returns 0 { s.put (s.stringTaps s.stringPrint) with stringdelay := 0 }
    else .returns SCRIPT_STATE_STRING_START s
  | .defdelay => s.setNumber (fun n => { s with defdelay := n }) line
  | .strdelay => s.setNumber (fun n => { s with stringdelay := n }) line
  | .defstrdelay => s.setNumber (fun n => { s with defstringdelay := n }) line
  | .repeat => match getNumber line with
    | some value =>
      let s : BadUsbScript := { s with repeatCnt := value }
      if value = 0 then s.invalidNumber line else .returns 0 s
    | none => s.invalidNumber line
  | .sysrq => .returns 0 (s.put [.kbPress (KEY_MOD_LEFT_ALT ||| HID_KEYBOARD_PRINT_SCREEN),
      .kbPress (s.getKeycode names line false), .releaseAll])
  | .altchar => match s.numlockOn.altchar line with
    | none => .hangs
    | some (s, state) => if state then .returns 0 s else s.fail ("Invalid altchar ".toList ++ line)
  | .altstring => match s.numlockOn.altstring false line with
    | none => .hangs
    | some (s, state) => if state then .returns 0 s else s.fail ("Invalid altstring ".toList ++ line)
  | .hold =>
    if 6 - 1 < s.keyHoldNb then s.fail "Too many keys are held".toList
    else s.holdKey names line (s.keyHoldNb + 1) .mousePress .kbPress "Unknown keycode for "
  | .release =>
    if s.keyHoldNb = 0 then s.fail "No keys are held".toList
    else s.holdKey names line (s.keyHoldNb - 1) .mouseRelease .kbRelease "No keycode defined for "
  | .media =>
    let key := keycodeByName names.media line
    if key = 0 then s.fail ("No keycode defined for ".toList ++ line)
    else .returns 0 (s.put [.consumerPress key, .consumerRelease key])
  | .globe =>
    let key := s.getKeycode names line false
    if key = 0 then s.fail ("No keycode defined for ".toList ++ line)
    else .returns 0 (s.put ([.consumerPress HID_CONSUMER_FN_GLOBE] ++ tap key ++
      [.consumerRelease HID_CONSUMER_FN_GLOBE]))
  | _ => .returns 0 s

/-- The argument of the mouse commands stands behind `strcspn(line, " ")`. -/
def behindBlank (line : Text) : Option Text :=
  pointer line ((line.takeWhile (· ≠ ' ')).length + 1)

def invalidMouseNumber (line : Text) : Result := s.fail ("Invalid Number ".toList ++ line)

def mouseScroll (line : Text) : Result :=
  match behindBlank line with
  | none => .outside
  | some line => match getInt32 line with
    | none => s.invalidMouseNumber line
    | some dist => .returns 0 (s.put [.mouseScroll dist.toInt8])

def mouseMove (line : Text) : Result :=
  match behindBlank line with
  | none => .outside
  | some line => match getInt32 line with
    | none => s.invalidMouseNumber line
    | some x => match behindBlank line with
      | none => .outside
      | some line => match getInt32 line with
        | none => s.invalidMouseNumber line
        | some y => .returns 0 (s.put [.mouseMove x.toInt8 y.toInt8])

def executeCmd (line : Text) : Result :=
  match lookup line with
  | none => .returns SCRIPT_STATE_CMD_UNKNOWN s
  | some .ignored => .returns 0 s
  | some .waitforbutton => .returns SCRIPT_STATE_WAIT_FOR_BTN s
  | some .mouseMove => s.mouseMove line
  | some .mouseScroll => s.mouseScroll line
  | some cmd => match pointer line (getCommandLen line + 1) with
    | none => .outside
    | some arg => s.callback names arg cmd

def skipJoint (rest : Text) : Text :=
  if rest.head? = some ' ' ∨ rest.head? = some '-' then rest.tail else rest

def modifierChain (modifiers : UInt16) (line : Text) : UInt16 × Text :=
  match modifierKeys.find? fun key => (afterName key.1 line).any fun rest =>
      rest.head?.all fun c => isLineEnd c || c == '-' with
  | none => (modifiers, line)
  | some key =>
    if _h : (skipJoint (line.drop key.1.length)).length < line.length then
      modifierChain (modifiers ||| key.2) (skipJoint (line.drop key.1.length))
    else (modifiers ||| key.2, skipJoint (line.drop key.1.length))
  termination_by line.length

def pressKeys (line : Text) : BadUsbScript :=
  if keycodeByName names.mouse line ≠ 0 then
    s.put [.mousePress (keycodeByName names.mouse line),
      .mouseRelease (keycodeByName names.mouse line)]
  else
    let chain := modifierChain 0 line
    let key := chain.1 ||| s.getKeycode names chain.2 false
    let s : BadUsbScript := if key = 0 ∧ chain.2 ≠ [] then
      { s with error := ("No keycode defined for ".toList ++ chain.2).take 63 } else s
    s.put (tap key)

def parseLine (line : Text) : Result :=
  if line = [] then .returns SCRIPT_STATE_NEXT_LINE s
  else match s.executeCmd names line with
    | .returns value s =>
      if value = SCRIPT_STATE_CMD_UNKNOWN then .returns 0 (s.pressKeys names line)
      else .returns value s
    | r => r

/-- What both branches of `ducky_script_execute_next` make of the result of a line. -/
def executeLine (line : Text) : Result :=
  match s.parseLine names line with
  | .returns value s =>
    if value = SCRIPT_STATE_NEXT_LINE then .returns 0 s
    else if value = SCRIPT_STATE_STRING_START ∨ value = SCRIPT_STATE_WAIT_FOR_BTN then
      .returns value s
    else if value < 0 then .returns SCRIPT_STATE_ERROR s
    else .returns (value.toUInt32 + s.defdelay).toInt32 s
  | r => r

end BadUsbScript
end NikitaFirmware.BadUsb
