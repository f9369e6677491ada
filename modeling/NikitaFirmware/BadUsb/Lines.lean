import Mathlib.Data.List.TakeWhile
import NikitaFirmware.Foundations.Machine
import NikitaFirmware.BadUsb.Commands

/-!
# What the lines of a script can do

A command keeps to its line and returns a delay or one of its own codes, as long as its argument is
there and the delays stay below `2 ^ 31`.
-/

namespace NikitaFirmware.BadUsb

open Foundations BadUsbScript Option List

def Command.TakesArgument (cmd : Command) : Prop := cmd ≠ .ignored ∧ cmd ≠ .waitforbutton

variable {names : Names} {s s' : BadUsbScript} {line arg : Text} {value : Int32} {cmd : Command}

theorem length_word_lt (h : ' ' ∈ line) : (line.takeWhile (· ≠ ' ')).length < line.length := by
  have hle := (List.takeWhile_prefix (· ≠ ' ') (l := line)).length_le
  refine lt_of_le_of_ne hle fun heq => ?_
  have hall := takeWhile_eq_self_iff.mp ((List.takeWhile_prefix _).eq_of_length heq)
  simpa using hall ' ' h

theorem pointer_arg (h : line ≠ []) : ∃ arg, pointer line (getCommandLen line + 1) = some arg := by
  have hle : getCommandLen line + 1 ≤ line.length := by
    unfold getCommandLen
    split
    · next hblank => exact length_word_lt hblank
    · exact length_pos_iff.mpr h
  exact ⟨_, if_pos hle⟩

theorem behindBlank_of_mem (h : ' ' ∈ line) : ∃ arg, behindBlank line = some arg :=
  ⟨_, if_pos (length_word_lt h)⟩

theorem altchar_defdelay {r : BadUsbScript × Bool} (h : s.altchar arg = some r) :
    r.1.defdelay = s.defdelay := by
  unfold altchar at h
  dsimp only at h
  split at h
  · cases h
  · obtain rfl := some.inj h
    rfl

theorem altstring_defdelay {state : Bool} {r : BadUsbScript × Bool}
    (h : s.altstring state arg = some r) : r.1.defdelay = s.defdelay := by
  induction arg generalizing s state with
  | nil =>
    obtain rfl := some.inj h
    rfl
  | cons c arg ih =>
    rw [altstring] at h
    split at h
    · exact ih h
    · obtain ⟨t, ht, hrest⟩ := bind_eq_some_iff.mp h
      split at hrest
      · exact (ih hrest).trans (altchar_defdelay ht)
      · have hsame := altchar_defdelay ht
        obtain rfl := some.inj hrest
        exact hsame

def Returned (s s' : BadUsbScript) (arg : Text) (cmd : Command) (value : Int32) : Prop :=
  (s'.defdelay = s.defdelay ∧ (value = SCRIPT_STATE_ERROR ∨ value = SCRIPT_STATE_STRING_START ∨
    value = 0 ∨ cmd = .delay ∧ ∃ n, getNumber arg = some n ∧ value = n.toInt32)) ∨
  (cmd = .defdelay ∧ value = 0 ∧ getNumber arg = some s'.defdelay)

theorem returned_fail {text : Text} {t : BadUsbScript} (h : t.fail text = .returns value s')
    (ht : t.defdelay = s.defdelay) : Returned s s' arg cmd value := by
  obtain ⟨rfl, rfl⟩ := Result.returns.inj h
  exact .inl ⟨ht, .inl rfl⟩

theorem returned_zero {t : BadUsbScript} (h : Result.returns 0 t = .returns value s')
    (ht : t.defdelay = s.defdelay) : Returned s s' arg cmd value := by
  obtain ⟨rfl, rfl⟩ := Result.returns.inj h
  exact .inl ⟨ht, .inr (.inr (.inl rfl))⟩

theorem callback_returned (h : s.callback names arg cmd = .returns value s') :
    Returned s s' arg cmd value := by
  cases cmd with
  | delay =>
    rw [callback] at h
    split at h
    · next n hn =>
      split at h
      · obtain ⟨rfl, rfl⟩ := Result.returns.inj h
        exact .inl ⟨rfl, .inr (.inr (.inr ⟨rfl, n, hn, rfl⟩))⟩
      · exact returned_fail h rfl
    · exact returned_fail h rfl
  | defdelay =>
    rw [callback, setNumber] at h
    split at h
    · exact returned_fail h rfl
    · next n hn =>
      obtain ⟨rfl, rfl⟩ := Result.returns.inj h
      exact .inr ⟨rfl, rfl, hn⟩
  | altchar | altstring =>
    rw [callback] at h
    split at h
    · cases h
    · next t state ht =>
      have hlock : s.numlockOn.defdelay = s.defdelay := by
        unfold numlockOn
        split <;> rfl
      have hsame : t.defdelay = s.defdelay := by
        first
        | exact (altchar_defdelay ht).trans hlock
        | exact (altstring_defdelay ht).trans hlock
      split at h
      · exact returned_zero h hsame
      · exact returned_fail h hsame
  | _ =>
    simp only [callback, setNumber, holdKey] at h
    repeat' split at h
    all_goals first
      | exact returned_fail h rfl
      | exact returned_zero h rfl
      | (obtain ⟨rfl, rfl⟩ := Result.returns.inj h
         exact .inl ⟨rfl, .inr (.inl rfl)⟩)

/-- A command that is given without its argument rejects what it takes for it, the name of the
command behind its first letter. -/
def RejectsBare (names : Names) (s : BadUsbScript) (arg : Text) : Command → Prop
  | .string _ | .sysrq | .altstring | .mouseMove | .mouseScroll => False
  | .hold => 5 < s.keyHoldNb ∨ keycodeByName names.mouse arg = 0 ∧ s.getKeycode names arg true = 0
  | .release => s.keyHoldNb = 0 ∨ keycodeByName names.mouse arg = 0 ∧ s.getKeycode names arg true = 0
  | .media => keycodeByName names.media arg = 0
  | .globe => s.getKeycode names arg false = 0
  | _ => True

/-- The line has its arguments, and its delays are below `2 ^ 31`. -/
structure Heeds (names : Names) (s : BadUsbScript) (line : Text) : Prop where
  argument : ∀ cmd, lookup line = some cmd → ' ' ∉ line → RejectsBare names s (line.drop 1) cmd
  second : lookup line = some .mouseMove → ∀ arg, behindBlank line = some arg →
    getInt32 arg ≠ none → ' ' ∈ arg
  delay : lookup line = some .delay → ∀ arg n, pointer line (getCommandLen line + 1) = some arg →
    getNumber arg = some n → n.toNat + s.defdelay.toNat < 2 ^ 31
  defdelay : lookup line = some .defdelay → ∀ arg n,
    pointer line (getCommandLen line + 1) = some arg → getNumber arg = some n → n.toNat < 2 ^ 31

structure Behaves (names : Names) (s : BadUsbScript) (line : Text) : Prop where
  inside : s.executeLine names line ≠ .outside
  missing : ∀ cmd, lookup line = some cmd → cmd.TakesArgument → ' ' ∉ line →
    ∃ s', s.executeCmd names line = .returns SCRIPT_STATE_ERROR s'
  delay : lookup line = some .delay → ∀ arg n, pointer line (getCommandLen line + 1) = some arg →
    getNumber arg = some n → 0 < n →
    ∃ v s', s.executeLine names line = .returns v s' ∧ v.toInt = n.toNat + s.defdelay.toNat
  completed : ∀ v s', s.parseLine names line = .returns v s' → 0 ≤ v →
    ∃ v', s.executeLine names line = .returns v' s' ∧ 0 ≤ v'

theorem bare_arg (h : ' ' ∉ line) : getCommandLen line = 0 := if_neg h

theorem mem_of_lookup (h : lookup line = some cmd) (hbare : ' ' ∉ line) :
    ∃ name, (name, cmd) ∈ duckyCommands ∧ name.toList = line := by
  have hword : line.takeWhile (· ≠ ' ') = line :=
    takeWhile_eq_self_iff.mpr fun c hc => decide_eq_true fun heq => hbare (heq ▸ hc)
  obtain ⟨⟨name, cmd'⟩, hfind, rfl⟩ := map_eq_some_iff.mp h
  have hname := find?_some hfind
  rw [hword] at hname
  exact ⟨name, mem_of_find?_eq_some hfind, beq_iff_eq.mp hname⟩

theorem getNumber_bare : ∀ e ∈ duckyCommands,
    e.2 ∈ [Command.delay, .defdelay, .strdelay, .defstrdelay, .repeat] →
      getNumber (e.1.toList.drop 1) = none := by decide

theorem holdKey_rejects {count : UInt8} {mouse : UInt8 → HidCall} {keyboard : UInt16 → HidCall}
    {text : String} (h : keycodeByName names.mouse arg = 0 ∧ s.getKeycode names arg true = 0) :
    ∃ s', s.holdKey names arg count mouse keyboard text = .returns SCRIPT_STATE_ERROR s' := by
  rw [holdKey, if_neg (not_not.mpr h.1), if_neg (not_not.mpr h.2)]
  exact ⟨_, rfl⟩

theorem executeCmd_bare (h : lookup line = some cmd) (harg : cmd.TakesArgument) (hbare : ' ' ∉ line)
    (hrejects : RejectsBare names s (line.drop 1) cmd) :
    ∃ s', s.executeCmd names line = .returns SCRIPT_STATE_ERROR s' := by
  obtain ⟨name, hmem, rfl⟩ := mem_of_lookup h hbare
  have hnames : ∀ e ∈ duckyCommands, pointer e.1.toList (0 + 1) = some (e.1.toList.drop 1) ∧
      (e.2 = .altchar → e.1 = "ALTCHAR") := by decide
  obtain ⟨hpointer, haltchar⟩ := hnames _ hmem
  rw [← bare_arg hbare] at hpointer
  rw [executeCmd, h]
  cases cmd with
  | ignored => exact absurd rfl harg.1
  | waitforbutton => exact absurd rfl harg.2
  | string | sysrq | altstring | mouseMove | mouseScroll => exact hrejects.elim
  | delay | defdelay | strdelay | defstrdelay | «repeat» =>
    simp only [hpointer, callback, setNumber, getNumber_bare _ hmem (by simp)]
    exact ⟨_, rfl⟩
  | altchar =>
    obtain rfl := haltchar rfl
    simp only [hpointer, callback]
    exact ⟨_, rfl⟩
  | hold | release =>
    simp only [hpointer, callback]
    split
    · exact ⟨_, rfl⟩
    · next hcount => exact holdKey_rejects (hrejects.resolve_left hcount)
  | media | globe =>
    simp only [hpointer, callback]
    exact ⟨_, if_pos hrejects⟩

theorem executeCmd_inside (h : Heeds names s line) (hne : line ≠ []) :
    s.executeCmd names line ≠ .outside := by
  have hblank : ∀ cmd, lookup line = some cmd → RejectsBare names s (line.drop 1) cmd = False →
      ' ' ∈ line := by
    intro cmd hcmd hfalse
    by_contra hbare
    exact hfalse ▸ h.argument cmd hcmd hbare
  obtain ⟨arg, harg⟩ := pointer_arg hne
  intro hout
  rw [executeCmd] at hout
  split at hout
  · cases hout
  · cases hout
  · cases hout
  · next hcmd =>
    obtain ⟨first, hfirst⟩ := behindBlank_of_mem (hblank _ hcmd rfl)
    simp only [mouseMove, hfirst] at hout
    split at hout
    · cases hout
    · next x hx =>
      obtain ⟨second, hsecond⟩ := behindBlank_of_mem (h.second hcmd first hfirst (by simp [hx]))
      simp only [hsecond] at hout
      split at hout <;> cases hout
  · next hcmd =>
    obtain ⟨first, hfirst⟩ := behindBlank_of_mem (hblank _ hcmd rfl)
    simp only [mouseScroll, hfirst] at hout
    split at hout <;> cases hout
  · next cmd _ _ _ _ _ =>
    simp only [harg] at hout
    cases cmd <;> simp only [callback, setNumber, holdKey] at hout <;>
      (repeat' split at hout) <;> cases hout

theorem executeCmd_returned (hne : line ≠ []) (h : s.executeCmd names line = .returns value s') :
    value = SCRIPT_STATE_CMD_UNKNOWN ∧ s' = s ∨ value = SCRIPT_STATE_WAIT_FOR_BTN ∧ s' = s ∨
      ∃ arg cmd, pointer line (getCommandLen line + 1) = some arg ∧ lookup line = some cmd ∧
        Returned s s' arg cmd value := by
  obtain ⟨arg, harg⟩ := pointer_arg hne
  rw [executeCmd] at h
  split at h
  · obtain ⟨rfl, rfl⟩ := Result.returns.inj h
    exact .inl ⟨rfl, rfl⟩
  · next hcmd =>
    exact .inr (.inr ⟨arg, _, harg, hcmd, returned_zero h rfl⟩)
  · obtain ⟨rfl, rfl⟩ := Result.returns.inj h
    exact .inr (.inl ⟨rfl, rfl⟩)
  · next hcmd =>
    refine .inr (.inr ⟨arg, _, harg, hcmd, ?_⟩)
    simp only [mouseMove, invalidMouseNumber] at h
    repeat' split at h
    all_goals first
      | exact returned_fail h rfl
      | exact returned_zero h rfl
      | cases h
  · next hcmd =>
    refine .inr (.inr ⟨arg, _, harg, hcmd, ?_⟩)
    simp only [mouseScroll, invalidMouseNumber] at h
    repeat' split at h
    all_goals first
      | exact returned_fail h rfl
      | exact returned_zero h rfl
      | cases h
  · next cmd _ _ _ _ hcmd =>
    simp only [harg] at h
    exact .inr (.inr ⟨arg, cmd, harg, hcmd, callback_returned h⟩)

theorem toInt_toInt32 {n : UInt32} (h : n.toNat < 2 ^ 31) : n.toInt32.toInt = n.toNat := by
  rw [← Int32.toInt_toBitVec]
  exact BitVec.toInt_eq_toNat_of_lt (by simpa using (by omega : 2 * n.toNat < 2 ^ 32))

theorem nonneg_toInt32 {n : UInt32} (h : n.toNat < 2 ^ 31) : 0 ≤ n.toInt32 := by
  rw [Int32.le_iff_toInt_le, toInt_toInt32 h]
  exact Int.natCast_nonneg _

theorem executeLine_of_nonneg (h : s.parseLine names line = .returns value s') (hvalue : 0 ≤ value) :
    s.executeLine names line = .returns (value.toUInt32 + s'.defdelay).toInt32 s' := by
  have hcodes : ∀ code : Int32, code < 0 → value ≠ code := by
    rintro code hcode rfl
    exact Int32.not_lt.mpr hvalue hcode
  simp only [executeLine, h]
  rw [if_neg (hcodes _ (by decide)), if_neg, if_neg (Int32.not_lt.mpr hvalue)]
  exact not_or.mpr ⟨hcodes _ (by decide), hcodes _ (by decide)⟩

theorem pressKeys_defdelay : (s.pressKeys names line).defdelay = s.defdelay := by
  unfold pressKeys
  dsimp only
  split_ifs <;> rfl

/-- Every line keeps the default delay below `2 ^ 31`, and what it returns with it. -/
theorem parseLine_returned (hheeds : Heeds names s line) (hbelow : s.defdelay.toNat < 2 ^ 31)
    (h : s.parseLine names line = .returns value s') :
    s'.defdelay.toNat < 2 ^ 31 ∧ (0 ≤ value → (value.toUInt32 + s'.defdelay).toNat < 2 ^ 31) := by
  have hzero : ∀ d : UInt32, d.toNat < 2 ^ 31 → ((0 : Int32).toUInt32 + d).toNat < 2 ^ 31 := by
    intro d hd
    rw [show (0 : Int32).toUInt32 = 0 from rfl, UInt32.zero_add]
    exact hd
  have hcode : ∀ code : Int32, code < 0 → value = code → ¬ 0 ≤ value := by
    rintro code hcode rfl
    exact Int32.not_le.mpr hcode
  unfold parseLine at h
  split at h
  · obtain ⟨rfl, rfl⟩ := Result.returns.inj h
    exact ⟨hbelow, fun hle => absurd hle (by decide)⟩
  · next hne =>
    split at h
    · next v t hcmd =>
      have hcases := executeCmd_returned hne hcmd
      split at h
      · next hunknown =>
        -- a number is not taken for the code of an unknown command
        obtain ⟨rfl, rfl⟩ := Result.returns.inj h
        have hsame : t.defdelay = s.defdelay := by
          obtain ⟨-, rfl⟩ | ⟨-, rfl⟩ | ⟨arg, cmd, harg, hlookup, hret⟩ := hcases
          · rfl
          · rfl
          obtain ⟨hsame, -⟩ | ⟨-, rfl, -⟩ := hret
          · exact hsame
          · cases hunknown
        rw [pressKeys_defdelay, hsame]
        exact ⟨hbelow, fun _ => hzero _ hbelow⟩
      · next hknown =>
        obtain ⟨rfl, rfl⟩ := Result.returns.inj h
        obtain ⟨hunknown, -⟩ | ⟨hwait, rfl⟩ | ⟨arg, cmd, harg, hlookup, hret⟩ := hcases
        · exact absurd hunknown hknown
        · exact ⟨hbelow, fun hle => absurd hle (hcode _ (by decide) hwait)⟩
        obtain ⟨hsame, hvalue⟩ | ⟨rfl, rfl, hnumber⟩ := hret
        · rw [hsame]
          refine ⟨hbelow, fun hle => ?_⟩
          obtain herr | hstart | rfl | ⟨rfl, n, hn, rfl⟩ := hvalue
          · exact absurd hle (hcode _ (by decide) herr)
          · exact absurd hle (hcode _ (by decide) hstart)
          · exact hzero _ hbelow
          · have hsum := hheeds.delay hlookup arg n harg hn
            have hback : n.toInt32.toUInt32 = n := rfl
            rw [hback, UInt32.toNat_add]
            omega
        · have hset := hheeds.defdelay hlookup arg _ harg hnumber
          exact ⟨hset, fun _ => hzero _ hset⟩
    · next hother => exact absurd h (hother value s')

theorem behaves_of_heeds (h : Heeds names s line) (hbelow : s.defdelay.toNat < 2 ^ 31) :
    Behaves names s line where
  inside := by
    intro hout
    have hparse : s.parseLine names line = .outside := by
      unfold executeLine at hout
      split at hout
      · split_ifs at hout
      · exact hout
    unfold parseLine at hparse
    split at hparse
    · cases hparse
    · next hne =>
      split at hparse
      · split at hparse <;> cases hparse
      · exact executeCmd_inside h hne hparse
  missing cmd hlookup harg hbare := executeCmd_bare hlookup harg hbare (h.argument cmd hlookup hbare)
  delay hlookup arg n harg hn hpos := by
    have hsum := h.delay hlookup arg n harg hn
    have hlt : n.toNat < 2 ^ 31 := by omega
    have hne : line ≠ [] := by
      rintro rfl
      revert hlookup
      decide
    have hcmd : s.executeCmd names line = .returns n.toInt32 s := by
      simp only [executeCmd, hlookup, harg, callback, hn]
      exact if_pos hpos
    have hparse : s.parseLine names line = .returns n.toInt32 s := by
      have hknown : n.toInt32 ≠ SCRIPT_STATE_CMD_UNKNOWN := by
        intro heq
        have hle := nonneg_toInt32 hlt
        rw [heq] at hle
        cases hle
      simp only [parseLine, hcmd]
      rw [if_neg hne, if_neg hknown]
    refine ⟨_, _, executeLine_of_nonneg hparse (nonneg_toInt32 hlt), ?_⟩
    rw [show n.toInt32.toUInt32 = n from rfl]
    have hadd : (n + s.defdelay).toNat = n.toNat + s.defdelay.toNat := by
      rw [UInt32.toNat_add]
      omega
    rw [toInt_toInt32 (by omega), hadd]
    exact Int.natCast_add _ _
  completed v s' hparse hvalue :=
    ⟨_, executeLine_of_nonneg hparse hvalue,
      nonneg_toInt32 ((parseLine_returned h hbelow hparse).2 hvalue)⟩

theorem executeLine_defdelay (h : Heeds names s line) (hbelow : s.defdelay.toNat < 2 ^ 31)
    (hline : s.executeLine names line = .returns value s') : s'.defdelay.toNat < 2 ^ 31 := by
  unfold executeLine at hline
  split at hline
  · next v t hparse =>
    have ht := (parseLine_returned h hbelow hparse).1
    split_ifs at hline <;> exact (Result.returns.inj hline).2 ▸ ht
  · next hother => exact absurd hline (hother value s')

/-- The line that `ducky_script_execute_next` takes: one from the file, or the last one again. -/
def next (s : BadUsbScript) : Option Text → Option (BadUsbScript × Text)
  | some line =>
    if s.repeatCnt = 0 then some ({ s with linePrev := s.line, line := line }, line) else none
  | none =>
    if 0 < s.repeatCnt then some ({ s with repeatCnt := s.repeatCnt - 1 }, s.linePrev) else none

/-- A script that runs on as long as its lines return. -/
def machine (names : Names) : Machine BadUsbScript (Option Text) where
  step s l := (next s l).bind fun taken =>
    match taken.1.executeLine names taken.2 with
    | .returns _ s' => some s'
    | _ => none

/-- The script before its first line. -/
def start (layout : UInt8 → UInt16) (numLock : Bool) : BadUsbScript :=
  ⟨0, 0, 0, 0, 0, [], layout, numLock, [], [], [], []⟩

def NextHeeds (names : Names) (s : BadUsbScript) (l : Option Text) : Prop :=
  ∀ taken, next s l = some taken → Heeds names taken.1 taken.2

theorem next_defdelay {l : Option Text} {taken : BadUsbScript × Text} (h : next s l = some taken) :
    taken.1.defdelay = s.defdelay := by
  cases l <;> obtain ⟨-, h⟩ := ite_none_right_eq_some.mp h <;>
    obtain rfl := some.inj h <;> rfl

theorem step_below {l : Option Text} (hbelow : s.defdelay.toNat < 2 ^ 31)
    (hheeds : NextHeeds names s l) (hstep : (machine names).step s l = some s') :
    s'.defdelay.toNat < 2 ^ 31 := by
  obtain ⟨taken, htaken, hline⟩ := bind_eq_some_iff.mp hstep
  have hbelow' := next_defdelay htaken ▸ hbelow
  split at hline
  · next value t ht =>
    obtain rfl := some.inj hline
    exact executeLine_defdelay (hheeds taken htaken) hbelow' ht
  · cases hline

/-- Every line of a script does what its command says, in a run whose lines heed the bounds that the
parser does not check. -/
theorem script_behaves {layout : UInt8 → UInt16} {numLock : Bool} {ls : List (Option Text)}
    (hrun : (machine names).run (start layout numLock) ls = some s)
    (hheeds : (machine names).Meets (NextHeeds names) (start layout numLock) ls)
    {l : Option Text} (hnext : NextHeeds names s l) {taken : BadUsbScript × Text}
    (htaken : next s l = some taken) : Behaves names taken.1 taken.2 := by
  have hbelow := (machine names).run_invariant_of_meets
    (fun _ _ _ h ha hstep => step_below h ha hstep)
    (show (0 : UInt32).toNat < 2 ^ 31 by decide) hheeds hrun
  exact behaves_of_heeds (hnext taken htaken) (next_defdelay htaken ▸ hbelow)

def noNames : Names := ⟨[], [], []⟩

def fresh : BadUsbScript := start (fun _ => 0) true

theorem heeds_of_number {n : UInt32} {arg : Text} (hlookup : lookup line = some cmd)
    (hcmd : cmd ≠ .mouseMove) (hblank : ' ' ∈ line)
    (harg : pointer line (getCommandLen line + 1) = some arg) (hnumber : getNumber arg = some n)
    (hn : n.toNat + s.defdelay.toNat < 2 ^ 31) : Heeds names s line := by
  constructor
  · intro _ _ hbare
    exact absurd hblank hbare
  · intro h
    exact absurd (some.inj (hlookup.symm.trans h)) hcmd
  · intro _ arg' m harg' hm
    obtain rfl := some.inj (harg.symm.trans harg')
    obtain rfl := some.inj (hnumber.symm.trans hm)
    exact hn
  · intro _ arg' m harg' hm
    obtain rfl := some.inj (harg.symm.trans harg')
    obtain rfl := some.inj (hnumber.symm.trans hm)
    omega

/-- A delay after a line that has set the delay of every line. -/
theorem script_behaves_delay : Behaves noNames { fresh with
    defdelay := 20, line := "DELAY 5".toList, linePrev := "DEFAULT_DELAY 20".toList }
    "DELAY 5".toList := by
  have hstep : (machine noNames).step fresh (some "DEFAULT_DELAY 20".toList) =
      some { fresh with defdelay := 20, line := "DEFAULT_DELAY 20".toList } := rfl
  have hdelay : lookup "DELAY 5".toList = some .delay := by decide
  have hdefdelay : lookup "DEFAULT_DELAY 20".toList = some .defdelay := by decide
  have hfive : getNumber "5".toList = some 5 := by decide
  have htwenty : getNumber "20".toList = some 20 := by decide
  refine script_behaves ((Machine.run_cons_eq_some _).mpr ⟨_, hstep, Machine.run_nil _ _⟩)
    ((Machine.meets_cons_of_step _ hstep).mpr ⟨?_, Machine.meets_nil _ _ _⟩)
    (l := some "DELAY 5".toList) ?_ rfl
  · intro taken htaken
    obtain rfl := some.inj htaken
    exact heeds_of_number hdefdelay nofun (by decide) rfl htwenty (by decide)
  · intro taken htaken
    obtain rfl := some.inj htaken
    exact heeds_of_number hdelay nofun (by decide) rfl hfive (by decide)

/-- A line may read behind its end, may type the name of its own command, and may end its script. -/
theorem lines_misbehave : ¬ Behaves noNames fresh "MOUSEMOVE".toList ∧
    ¬ Behaves noNames fresh "STRING".toList ∧ ¬ Behaves noNames fresh "DELAY 4294967295".toList := by
  refine ⟨fun h => h.inside rfl, fun h => ?_, fun h => ?_⟩
  · obtain ⟨s', hs'⟩ := h.missing (.string false) (by decide) ⟨nofun, nofun⟩ (by decide)
    exact absurd (Result.returns.inj hs').1 (by decide)
  · have hnumber : getNumber "4294967295".toList = some 0xFFFFFFFF := by decide
    obtain ⟨v, s', hline, hv⟩ := h.delay (by decide) _ _ rfl hnumber (by decide)
    have hcmd : fresh.executeCmd noNames "DELAY 4294967295".toList = .returns (-1) fresh := by
      show fresh.callback noNames "4294967295".toList .delay = _
      simp only [callback, hnumber]
      rfl
    have hreturns : fresh.executeLine noNames "DELAY 4294967295".toList = .returns (-1) fresh := by
      simp only [executeLine, parseLine, hcmd]
      rfl
    obtain rfl := (Result.returns.inj (hreturns.symm.trans hline)).1
    cases hv

end NikitaFirmware.BadUsb
