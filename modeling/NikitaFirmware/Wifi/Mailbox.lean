import NikitaFirmware.Foundations.Machine
import NikitaFirmware.Wifi.Lines

/-!
# The command mailbox of the WIFI program

A client writes command files at `WIFI_CMD_PATH`, and the pump timer has the program read, close
and remove the file and send its lines to the board. The two meet in the storage service only, which
keeps a file from being opened or removed while the other has it open.
-/

namespace NikitaFirmware.Wifi

open Foundations List Option

abbrev WIFI_OUT_MAX : Nat := 4096

structure NikitaWifi where
  /-- the text of the console -/
  out : Bytes
  /-- `last.log` -/
  log : Bytes
  cmdTick : UInt8
  /-- the calls of `furi_hal_serial_tx` for the mailbox -/
  tx : List Bytes

def wifiSend (app : NikitaWifi) (cmd : Bytes) : NikitaWifi :=
  { app with tx := app.tx ++ [cmd, [LF]] }

def wifiSnapshot (app : NikitaWifi) : NikitaWifi := { app with log := app.out }

/-- The note of a command in the console, of which `furi_string_right` keeps the end. -/
def wifiNote (app : NikitaWifi) (line : Bytes) : NikitaWifi :=
  let out := app.out ++ ascii "\n=== mailbox: " ++ line ++ ascii " ===\n"
  { app with out := if WIFI_OUT_MAX < out.length then out.drop (out.length - WIFI_OUT_MAX) else out }

/-- The loop of `wifi_check_cmd` over the lines of the buffer. -/
def sendLines (app : NikitaWifi) (data : Bytes) : NikitaWifi :=
  (wifiLines data).foldl (fun app line => wifiSend (wifiNote app line) line) app

/-- How far the program is in `wifi_check_cmd`. -/
inductive Check where
  | idle
  | called
  | read (data : Bytes)
  | closed (data : Bytes)
  deriving DecidableEq

structure System where
  app : NikitaWifi
  check : Check
  /-- the file at `WIFI_CMD_PATH` -/
  cmdFile : Option Bytes
  /-- a client has the file open -/
  held : Bool
  /-- the files that clients have written -/
  written : List (List Line)

inductive Action where
  /-- `WifiEventPump` reaches `wifi_custom_event` -/
  | pump
  | openRead
  | close
  | remove
  /-- a client opens the file anew -/
  | create
  /-- a client has written the file and closes it -/
  | finish (file : List Line)

/-- A client's steps are the last two of `Action`. -/
def Action.OfProgram : Action → Prop
  | create => False
  | finish _ => False
  | _ => True

namespace System

/-- The mailbox part of `wifi_custom_event`: every fifth event checks it. -/
def pump (s : System) : Option System :=
  if s.check = .idle then
    if 5 ≤ s.app.cmdTick + 1 then
      some { s with app := { s.app with cmdTick := 0 }, check := .called }
    else some { s with app := { s.app with cmdTick := s.app.cmdTick + 1 } }
  else none

/-- `storage_file_open` waits for a file that is open, and fails without one. -/
def openRead (s : System) : Option System :=
  if s.check = .called ∧ s.held = false then
    some { s with check := match s.cmdFile with
      | none => .idle
      | some content => .read (content.take DATA_MAX) }
  else none

/-- An empty file is left alone. -/
def close (s : System) : Option System :=
  match s.check with
  | .read data => some { s with check := if data = [] then .idle else .closed data }
  | _ => none

/-- `storage_common_remove` refuses a file that is open. -/
def remove (s : System) : Option System :=
  match s.check with
  | .closed data => some { s with
      cmdFile := if s.held then s.cmdFile else none
      app := wifiSnapshot (sendLines s.app data)
      check := .idle }
  | _ => none

def isOpen (s : System) : Bool :=
  match s.check with
  | .read _ => true
  | _ => false

def create (s : System) : Option System :=
  if s.held ∨ s.isOpen then none else some { s with cmdFile := some [], held := true }

def finish (s : System) (file : List Line) : Option System :=
  if s.held then
    some { s with cmdFile := some (fileBytes file), held := false, written := s.written ++ [file] }
  else none

end System

/-- The program and its clients. -/
def machine : Machine System Action where
  step s
    | .pump => s.pump
    | .openRead => s.openRead
    | .close => s.close
    | .remove => s.remove
    | .create => s.create
    | .finish file => s.finish file

/-- After the removal at the program's start. -/
def start : System where
  app := { out := [], log := [], cmdTick := 0, tx := [] }
  check := .idle
  cmdFile := none
  held := false
  written := []

def Blank (file : List Line) : Prop := ∀ l ∈ file, l.text = []

/-- A client opens the mailbox when no command waits in it, and does not close its file between the
program's closing and removing the one before. What it writes fits the buffer. -/
def Safe (s : System) : Action → Prop
  | .create => (∃ data, s.check = .closed data) ∨
      ∀ content ∈ s.cmdFile, ∃ file, content = fileBytes file ∧ Blank file
  | .finish file => Fits DATA_MAX file ∧ ((∃ data, s.check = .closed data) → Blank file)
  | _ => True

/-- The calls of `furi_hal_serial_tx` for lines. -/
def sends (lines : List Bytes) : List Bytes := lines.flatMap fun line => [line, [LF]]

theorem sends_append (lines lines' : List Bytes) :
    sends (lines ++ lines') = sends lines ++ sends lines' := flatMap_append

theorem length_sends (lines : List Bytes) : (sends lines).length = 2 * lines.length := by
  induction lines with
  | nil => rfl
  | cons line lines ih =>
    rw [sends, flatMap_cons, length_append, ← sends, ih, length_cons]
    exact Nat.add_comm 2 _

theorem prefix_of_sends {tx : List Bytes} {lines rest : List Bytes}
    (h : tx ++ sends rest = sends lines) : ∃ n, tx = sends (lines.take n) := by
  have hlen := congrArg length h
  rw [length_append, length_sends, length_sends] at hlen
  refine ⟨lines.length - rest.length, ?_⟩
  have hsplit : sends lines = sends (lines.take (lines.length - rest.length)) ++
      sends (lines.drop (lines.length - rest.length)) := by
    rw [← sends_append, take_append_drop]
  refine (append_inj (h.trans hsplit) ?_).1
  rw [length_sends, length_take]
  omega

theorem sendLines_tx (app : NikitaWifi) (data : Bytes) :
    (sendLines app data).tx = app.tx ++ sends (wifiLines data) := by
  rw [sendLines]
  induction wifiLines data generalizing app with
  | nil => simp [sends]
  | cons line lines ih =>
    rw [foldl_cons, ih]
    simp [sends, wifiSend, wifiNote]

theorem sendLines_cmdTick (app : NikitaWifi) (data : Bytes) :
    (sendLines app data).cmdTick = app.cmdTick := by
  rw [sendLines]
  induction wifiLines data generalizing app with
  | nil => rfl
  | cons line lines ih => rw [foldl_cons, ih, wifiSend, wifiNote]

theorem wifiLines_of_blank {file : List Line} (h : Blank file) (n : Nat) :
    wifiLines ((fileBytes file).take n) = [] ∧ texts file = [] := by
  have hfits : ∀ n, Fits n file := by
    induction file with
    | nil => exact fun _ => trivial
    | cons l file ih =>
      intro n
      refine ⟨fun hne => absurd (h l mem_cons_self) hne, ?_⟩
      exact ih (fun l' hl' => h l' (mem_cons_of_mem l hl')) _
  have htexts : texts file = [] := by
    rw [texts, filter_eq_nil_iff]
    intro text htext
    obtain ⟨l, hl, rfl⟩ := mem_map.mp htext
    simp [h l hl]
  exact ⟨((wifiLines_take_iff n file).mpr (hfits n)).trans htexts, htexts⟩

namespace System

/-- What the next check sends, or the one that is under way. -/
def pending (s : System) : List Bytes :=
  match s.check with
  | .read data | .closed data => wifiLines data
  | _ => match s.cmdFile with
    | none => []
    | some content => wifiLines (content.take DATA_MAX)

/-- Every line is sent or on its way. -/
structure Delivering (s : System) : Prop where
  order : s.app.tx ++ sends s.pending = sends (s.written.flatMap texts)
  held : s.held = true → s.cmdFile = some [] ∧ s.isOpen = false
  reading : ∀ data, s.check = .read data → ∃ content, s.cmdFile = some content ∧
    content.take DATA_MAX = data
  tick : s.app.cmdTick.toNat < 5

variable {s s' : System}

theorem delivering_start : Delivering start where
  order := rfl
  held := fun h => absurd h Bool.false_ne_true
  reading := fun data h => by cases h
  tick := by decide

theorem Delivering.pump (h : Delivering s) (hstep : s.pump = some s') :
    Delivering s' ∧ s'.held = s.held ∧ s'.written = s.written := by
  unfold System.pump at hstep
  split at hstep
  · next hidle =>
    split at hstep
    · obtain rfl := some.inj hstep
      refine ⟨⟨?_, fun hheld => ⟨(h.held hheld).1, rfl⟩, ?_, Nat.zero_lt_succ 4⟩, rfl, rfl⟩
      · simpa only [pending, hidle] using h.order
      · intro data hread
        cases hread
    · next htick =>
      obtain rfl := some.inj hstep
      refine ⟨⟨h.order, h.held, h.reading, ?_⟩, rfl, rfl⟩
      exact UInt8.lt_iff_toNat_lt.mp (UInt8.not_le.mp htick)
  · cases hstep

theorem Delivering.openRead (h : Delivering s) (hstep : s.openRead = some s') :
    Delivering s' ∧ s'.held = s.held ∧ s'.written = s.written := by
  unfold System.openRead at hstep
  split at hstep
  · next hcalled =>
    obtain ⟨hcheck, hheld⟩ := hcalled
    obtain rfl := some.inj hstep
    refine ⟨⟨?_, fun hheld' => absurd (hheld.symm.trans hheld') Bool.false_ne_true, ?_, h.tick⟩,
      rfl, rfl⟩
    · have horder := h.order
      simp only [pending, hcheck] at horder ⊢
      cases hfile : s.cmdFile <;> simpa [hfile] using horder
    · intro data hread
      cases hfile : s.cmdFile with
      | none => simp [hfile] at hread
      | some content => exact ⟨content, rfl, by simpa [hfile] using hread⟩
  · cases hstep

theorem Delivering.close (h : Delivering s) (hstep : s.close = some s') :
    Delivering s' ∧ s'.held = s.held ∧ s'.written = s.written := by
  unfold System.close at hstep
  split at hstep
  · next data hcheck =>
    obtain rfl := some.inj hstep
    obtain ⟨content, hfile, hdata⟩ := h.reading data hcheck
    have horder := h.order
    refine ⟨⟨?_, fun hheld => ?_, ?_, h.tick⟩, rfl, rfl⟩
    · simp only [pending, hcheck] at horder ⊢
      by_cases hnil : data = [] <;> simpa [hnil, hfile, hdata] using horder
    · refine ⟨(h.held hheld).1, ?_⟩
      by_cases hnil : data = [] <;> simp [isOpen, hnil]
    · intro data' hread
      by_cases hnil : data = [] <;> simp [hnil] at hread
  · cases hstep

theorem Delivering.remove (h : Delivering s) (hstep : s.remove = some s') :
    Delivering s' ∧ s'.held = s.held ∧ s'.written = s.written ∧
      s'.app.tx = sends (s'.written.flatMap texts) := by
  unfold System.remove at hstep
  split at hstep
  · next data hcheck =>
    obtain rfl := some.inj hstep
    have htx : (sendLines s.app data).tx = sends (s.written.flatMap texts) := by
      rw [sendLines_tx, ← h.order]
      simp only [pending, hcheck]
    refine ⟨⟨?_, fun hheld => ?_, ?_, ?_⟩, rfl, rfl, htx⟩
    · -- nothing waits: the file is gone, or a client has only begun to write it
      have hrest : wifiLines [] = [] := rfl
      cases hheld : s.held with
      | false => simpa [pending, wifiSnapshot, hheld, sends] using htx
      | true => simpa [pending, wifiSnapshot, hheld, (h.held hheld).1, hrest, sends] using htx
    · exact ⟨(if_pos hheld).trans (h.held hheld).1, rfl⟩
    · intro data' hread
      cases hread
    · exact (congrArg UInt8.toNat (sendLines_cmdTick s.app data)).trans_lt h.tick
  · cases hstep

/-- Creating the mailbox loses no line: no command waits in the file that is cut to nothing. -/
theorem Delivering.create (h : Delivering s) (hsafe : Safe s .create)
    (hstep : s.create = some s') : Delivering s' := by
  unfold System.create at hstep
  split at hstep
  · cases hstep
  · next hfree =>
    obtain ⟨-, hopen⟩ := not_or.mp hfree
    obtain rfl := some.inj hstep
    refine ⟨?_, fun _ => ⟨rfl, eq_false_of_ne_true hopen⟩, fun data hread => ?_, h.tick⟩
    · have horder := h.order
      have hnone : wifiLines [] = [] := rfl
      obtain ⟨data, hcheck⟩ | hblank := hsafe
      · simpa only [pending, hcheck] using horder
      · -- no command waits in the file that is overwritten
        have hempty : ∀ content ∈ s.cmdFile, wifiLines (content.take DATA_MAX) = [] := by
          intro content hcontent
          obtain ⟨file, rfl, hfile⟩ := hblank content hcontent
          exact (wifiLines_of_blank hfile DATA_MAX).1
        cases hcheck : s.check with
        | read data => simp [isOpen, hcheck] at hopen
        | closed data => simpa only [pending, hcheck] using horder
        | idle | called =>
          simp only [pending, hcheck] at horder ⊢
          cases hfile : s.cmdFile with
          | none => simpa [hfile, hnone] using horder
          | some content => simpa [hfile, hnone, hempty content hfile] using horder
    · have hopen' : s.isOpen = true := by simp only [isOpen, show s.check = .read data from hread]
      exact absurd hopen' hopen

theorem Delivering.finish {file : List Line} (h : Delivering s) (hsafe : Safe s (.finish file))
    (hstep : s.finish file = some s') : Delivering s' := by
  unfold System.finish at hstep
  split at hstep
  · next hheld =>
    obtain rfl := some.inj hstep
    obtain ⟨hfits, hblank⟩ := hsafe
    obtain ⟨hfile, hopen⟩ := h.held hheld
    have hlines := (wifiLines_take_iff DATA_MAX file).mpr hfits
    have hnone : wifiLines [] = [] := rfl
    have horder := h.order
    refine ⟨?_, fun hheld' => absurd hheld' Bool.false_ne_true, fun data hread => ?_, h.tick⟩
    · cases hcheck : s.check with
      | read data => simp [isOpen, hcheck] at hopen
      | closed data =>
        -- what is written now is removed unread
        have htexts := (wifiLines_of_blank (hblank ⟨data, hcheck⟩) 0).2
        simp only [pending, hcheck] at horder ⊢
        simpa [htexts] using horder
      | idle | called =>
        simp only [pending, hcheck, hfile, take_nil, hnone] at horder ⊢
        simp only [sends, flatMap_nil, append_nil] at horder
        simp [hlines, horder, sends]
    · have hopen' : s.isOpen = true := by simp only [isOpen, show s.check = .read data from hread]
      rw [hopen] at hopen'
      cases hopen'
  · cases hstep

theorem Delivering.step {a : Action} (h : Delivering s) (hsafe : Safe s a)
    (hstep : machine.step s a = some s') : Delivering s' := by
  cases a with
  | pump => exact (h.pump hstep).1
  | openRead => exact (h.openRead hstep).1
  | close => exact (h.close hstep).1
  | remove => exact (h.remove hstep).1
  | create => exact h.create hsafe hstep
  | finish file => exact h.finish hsafe hstep

/-- The program alone gets from `s` to a state where all is sent. -/
def Drains (s : System) : Prop :=
  ∃ as s', (∀ a ∈ as, a.OfProgram) ∧ machine.run s as = some s' ∧ s'.written = s.written ∧
    s'.app.tx = sends (s'.written.flatMap texts)

theorem Drains.of_step {a : Action} (ha : a.OfProgram) (hstep : machine.step s a = some s')
    (hwritten : s'.written = s.written) (h : Drains s') : Drains s := by
  obtain ⟨as, t, has, hrun, htw, htx⟩ := h
  refine ⟨a :: as, t, forall_mem_cons.mpr ⟨ha, has⟩, ?_, htw.trans hwritten, htx⟩
  exact machine.run_cons_eq_some.mpr ⟨s', hstep, hrun⟩

theorem Delivering.drains_closed {data : Bytes} (h : Delivering s) (hcheck : s.check = .closed data) :
    Drains s := by
  cases hstep : s.remove with
  | none => simp [System.remove, hcheck] at hstep
  | some s' =>
    obtain ⟨-, -, hwritten, htx⟩ := h.remove hstep
    exact ⟨[.remove], s', by simp [Action.OfProgram],
      machine.run_cons_eq_some.mpr ⟨s', hstep, rfl⟩, hwritten, htx⟩

theorem Delivering.drains_of_pending (h : Delivering s) (hnone : s.pending = []) : Drains s := by
  have horder := h.order
  rw [hnone] at horder
  exact ⟨[], s, by simp, rfl, rfl, by simpa [sends] using horder⟩

theorem Delivering.drains_read {data : Bytes} (h : Delivering s) (hcheck : s.check = .read data) :
    Drains s := by
  by_cases hnil : data = []
  · apply h.drains_of_pending
    simp only [pending, hcheck, hnil]
    rfl
  · cases hstep : s.close with
    | none => simp [System.close, hcheck] at hstep
    | some s' =>
      obtain ⟨h', -, hwritten⟩ := h.close hstep
      have hclosed : s'.check = .closed data := by
        simp only [System.close, hcheck, hnil, if_false] at hstep
        rw [← some.inj hstep]
      exact .of_step (a := .close) trivial hstep hwritten (h'.drains_closed hclosed)

theorem Delivering.drains_called (h : Delivering s) (hheld : s.held = false)
    (hcheck : s.check = .called) : Drains s := by
  cases hfile : s.cmdFile with
  | none =>
    apply h.drains_of_pending
    simp only [pending, hcheck, hfile]
  | some content =>
    cases hstep : s.openRead with
    | none => simp [System.openRead, hcheck, hheld] at hstep
    | some s' =>
      obtain ⟨h', -, hwritten⟩ := h.openRead hstep
      have hread : s'.check = .read (content.take DATA_MAX) := by
        simp only [System.openRead, hcheck, hheld, hfile, and_self, if_true] at hstep
        rw [← some.inj hstep]
      exact .of_step (a := .openRead) trivial hstep hwritten (h'.drains_read hread)

theorem Delivering.drains_idle (h : Delivering s) (hheld : s.held = false)
    (hcheck : s.check = .idle) : Drains s := by
  -- each event that does not call the check brings it nearer
  obtain ⟨n, hn⟩ : ∃ n, n = 4 - s.app.cmdTick.toNat := ⟨_, rfl⟩
  induction n generalizing s with
  | zero =>
    cases hstep : s.pump with
    | none =>
      rw [System.pump, if_pos hcheck] at hstep
      split at hstep <;> cases hstep
    | some s' =>
      obtain ⟨h', hheld', hwritten⟩ := h.pump hstep
      have hcalled : s'.check = .called := by
        have htick : 5 ≤ s.app.cmdTick + 1 := by
          have hlt := h.tick
          have heq : s.app.cmdTick = 4 := UInt8.toNat_inj.mp (by simp; omega)
          rw [heq]
          decide
        simp only [System.pump, hcheck, if_true, htick] at hstep
        rw [← some.inj hstep]
      exact .of_step (a := .pump) trivial hstep hwritten
        (h'.drains_called (hheld'.trans hheld) hcalled)
  | succ n ih =>
    cases hstep : s.pump with
    | none =>
      rw [System.pump, if_pos hcheck] at hstep
      split at hstep <;> cases hstep
    | some s' =>
      obtain ⟨h', hheld', hwritten⟩ := h.pump hstep
      have hnext : s'.check = .idle ∧ s'.app.cmdTick = s.app.cmdTick + 1 := by
        have htick : ¬ 5 ≤ s.app.cmdTick + 1 := by
          rw [UInt8.le_iff_toNat_le, UInt8.toNat_add]
          simp
          omega
        simp only [System.pump, hcheck, if_true, htick, if_false] at hstep
        rw [← some.inj hstep]
        exact ⟨rfl, rfl⟩
      refine .of_step (a := .pump) trivial hstep hwritten (ih h' (hheld'.trans hheld) hnext.1 ?_)
      rw [hnext.2, UInt8.toNat_add]
      simp
      omega

theorem Delivering.drains (h : Delivering s) (hheld : s.held = false) : Drains s := by
  cases hcheck : s.check with
  | idle => exact h.drains_idle hheld hcheck
  | called => exact h.drains_called hheld hcheck
  | read data => exact h.drains_read hcheck
  | closed data => exact h.drains_closed hcheck

end System

/-- What is sent to the board is a first part of the non-empty lines of the files that were written,
and the program sends the rest as soon as no client is writing. -/
def Delivers (s : System) : Prop :=
  (∃ n, s.app.tx = sends ((s.written.flatMap texts).take n)) ∧ (s.held = false → s.Drains)

/-- The mailbox delivers every file in every run in which no client overwrites a command that waits
or writes between the close and the removal, and every file fits the buffer. -/
theorem mailbox_delivers {as : List Action} {s : System} (hrun : machine.run start as = some s)
    (hsafe : machine.Meets Safe start as) : Delivers s := by
  have h := machine.run_invariant_of_meets (fun _ _ _ hs ha hstep => System.Delivering.step hs ha hstep)
    System.delivering_start hsafe hrun
  exact ⟨prefix_of_sends h.order, h.drains⟩

/-- A command of one letter, ended by LF. -/
def stop : Line := ⟨[115], false, by decide, by decide, by decide⟩

/-- A command that is longer than the buffer. -/
def long : Line :=
  ⟨replicate 512 97, false, by decide +kernel, by decide +kernel, by decide +kernel⟩

/-- A client writes a file, and the program checks the mailbox. -/
def delivery (l : Line) : List Action :=
  [.create, .finish [l]] ++ replicate 5 .pump ++ [.openRead, .close, .remove]

/-- Another file is written between the close and the removal. -/
def overlap (l : Line) : List Action :=
  (delivery l).take 9 ++ [.create, .finish [l], .remove]

theorem mailbox_delivers_stop : ∃ s, machine.run start (delivery stop) = some s ∧ Delivers s := by
  have hsome : (machine.run start (delivery stop)).isSome := by decide
  obtain ⟨s, hs⟩ := isSome_iff_exists.mp hsome
  refine ⟨s, hs, mailbox_delivers hs ⟨.inr ?_, ⟨⟨?_, trivial⟩, ?_⟩, ?_⟩⟩
  · simp [start]
  · exact fun _ => by decide
  · rintro ⟨data, h⟩
    cases h
  · exact ⟨trivial, trivial, trivial, trivial, trivial, trivial, trivial, trivial, trivial⟩

/-- A command that is written between the close and the removal is gone with the one before it, and
of a command that is longer than the buffer a part is sent. -/
theorem mailbox_loses : ((machine.run start (overlap stop)).map fun s =>
      (s.app.tx, s.cmdFile, s.check, s.held, s.written.flatMap texts)) =
        some ([[115], [LF]], none, .idle, false, [[115], [115]]) ∧
    ∃ s, machine.run start (delivery long) = some s ∧ ¬ Delivers s := by
  refine ⟨by decide, ?_⟩
  have hrun : ((machine.run start (delivery long)).map fun s =>
      (s.app.tx, s.written.flatMap texts)) =
        some ([replicate 511 97, [LF]], [replicate 512 97]) := by decide +kernel
  obtain ⟨s, hs, hsent⟩ := map_eq_some_iff.mp hrun
  obtain ⟨htx, htexts⟩ := Prod.mk.inj hsent
  refine ⟨s, hs, fun h => ?_⟩
  obtain ⟨⟨n, hn⟩, -⟩ := h
  rw [htx, htexts] at hn
  cases n with
  | zero => cases hn
  | succ n =>
    -- the piece is not the line
    have hline := congrArg length (cons.inj hn).1
    rw [length_replicate, length_replicate] at hline
    omega

end NikitaFirmware.Wifi
