import NikitaFirmware.Foundations.Machine
import NikitaFirmware.U2f.Message

/-!
# The counter of authentications

The counter is kept in memory and written to a file after each authentication; a start of the
application reads it back (`u2f_init`, `u2f_data_cnt_read` and `u2f_data_cnt_write`). Writes of the
file may fail, and leave what was written before.
-/

namespace NikitaFirmware.U2f
open Foundations List

def rev (a : UInt32) : UInt32 :=
  let second : UInt32 := 0xff00
  a <<< 24 ||| (a &&& second) <<< 8 ||| (a >>> 8 &&& second) ||| a >>> 24

/-- What the counter file holds: the version, which may be the old one, and the counter. -/
structure CounterFile where
  old : Bool
  counter : UInt32

/-- What happens to `u2f_init`: the certificate is found, the device key can be loaded or is
generated and written, and the counter can be written in the new version or as zero. -/
structure Init where
  cert : Bool
  keyLoad : Bool
  keyGenerate : Option Bytes
  cntRewrite : Bool
  cntReset : Bool

/-- The device with its files; `answered` are the successful authentications, by the device key and
with their counter. -/
structure Device where
  keyFile : Option Bytes
  cntFile : Option CounterFile
  u2f : Option U2fData
  answered : List (Bytes × UInt32)

inductive CounterEvent where
  | init (init : Init)
  | message (buf : Bytes) (len : Nat) (dataCheck cntWrite : Bool)
  | confirm
  | setState
  | exit

namespace Device
variable (s : Device)

def cntWrite (counter : UInt32) (written : Bool) : Device :=
  if written then { s with cntFile := some ⟨false, counter⟩ } else s

def cntRead (rewritten : Bool) : Option UInt32 × Device :=
  match s.cntFile with
  | none => (none, s)
  | some file =>
    if file.old then
      if rewritten then (some (rev file.counter), s.cntWrite (rev file.counter) true) else (none, s)
    else (some file.counter, s)

def loadKey (init : Init) : Option (Bytes × Device) :=
  match if init.keyLoad then s.keyFile else none with
  | some key => some (key, s)
  | none =>
    match init.keyGenerate with
    | some key => some (key, { s with keyFile := some key })
    | none => none

/-- `u2f_init`; a start that fails leaves no application. -/
def init (init : Init) : Device :=
  if init.cert = false then s
  else match s.loadKey init with
    | none => s
    | some (key, s) =>
      match s.cntRead init.cntRewrite with
      | (some counter, s) => { s with u2f := some ⟨key, counter, true, false⟩ }
      | (none, s) =>
        if init.cntReset then { s.cntWrite 0 true with u2f := some ⟨key, 0, true, false⟩ } else s

/-- `u2f_msg_parse`, and the authentication that it may answer. -/
def message (hmac : Bytes → Bytes → Bytes) (u : U2fData) (buf : Bytes) (len : Nat)
    (dataCheck written : Bool) : Device :=
  let parsed := u.msgParse hmac buf len dataCheck
  let s := match parsed.cntWrite with
    | some counter => s.cntWrite counter written
    | none => s
  { s with
    u2f := some parsed.u2f
    answered := match parsed.response with
      | .authenticate _ counter => s.answered ++ [(u.deviceKey, counter)]
      | _ => s.answered }

end Device

/-- The device, as it is started, used and stopped. -/
def counterMachine (hmac : Bytes → Bytes → Bytes) : Machine Device CounterEvent where
  step s
    | .init init => if s.u2f.isNone then some (s.init init) else none
    | .message buf len dataCheck cntWrite =>
      s.u2f.map fun u => s.message hmac u buf len dataCheck cntWrite
    | .confirm => s.u2f.map fun u => { s with u2f := some u.confirmUserPresent }
    | .setState => s.u2f.map fun u => { s with u2f := some u.setState }
    | .exit => s.u2f.map fun _ => { s with u2f := none }

/-- An authentication that asks for more than a check, with a handle of this device. -/
def Counting (hmac : Bytes → Bytes → Bytes) (u : U2fData) (buf : Bytes) : Prop :=
  buf.getD 1 0 = cmdAuthenticate ∧ keyHandleHash buf = u.macControl hmac buf ∧ p1 buf ≠ checkOnly

/-- A start reads a counter that is not behind what was answered, and the counter does not wrap. -/
def Ahead (hmac : Bytes → Bytes → Bytes) (s : Device) : CounterEvent → Prop
  | .init _ => ∀ a ∈ s.answered, ∀ file ∈ s.cntFile, a.2 ≤ file.counter
  | .message buf _ _ _ => ∀ u ∈ s.u2f, Counting hmac u buf → u.counter ≠ 0xffffffff
  | _ => True

instance decidableCounting (hmac : Bytes → Bytes → Bytes) (u : U2fData) (buf : Bytes) :
    Decidable (Counting hmac u buf) :=
  inferInstanceAs (Decidable (_ ∧ _))

instance decidableAhead (hmac : Bytes → Bytes → Bytes) (s : Device) :
    (ev : CounterEvent) → Decidable (Ahead hmac s ev)
  | .init _ => inferInstanceAs
      (Decidable (∀ a ∈ s.answered, ∀ file ∈ s.cntFile, a.2 ≤ file.counter))
  | .message buf _ _ _ => inferInstanceAs
      (Decidable (∀ u ∈ s.u2f, Counting hmac u buf → u.counter ≠ 0xffffffff))
  | .confirm => isTrue trivial
  | .setState => isTrue trivial
  | .exit => isTrue trivial

variable {s s' : Device} {hmac : Bytes → Bytes → Bytes}

/-- A message is answered with the next counter, which is kept and handed to be written, or leaves the
counter as it was. -/
inductive Counts (hmac : Bytes → Bytes → Bytes) (u : U2fData) (buf : Bytes) : Parsed → Prop
  | next (flags : UInt8) (notified : List NotifyEvent) (u' : U2fData) (hcounting : Counting hmac u buf)
    (h : u'.counter = u.counter + 1) :
    Counts hmac u buf ⟨u', .authenticate flags (u.counter + 1), notified, some (u.counter + 1)⟩
  | same (response : Response) (notified : List NotifyEvent) (u' : U2fData)
    (h : u'.counter = u.counter)
    (hresponse : ∀ flags counter, response ≠ .authenticate flags counter) :
    Counts hmac u buf ⟨u', response, notified, none⟩

theorem msgParse_counts (u : U2fData) (buf : Bytes) (len : Nat) (dataCheck : Bool) :
    Counts hmac u buf (u.msgParse hmac buf len dataCheck) := by
  unfold U2fData.msgParse
  split
  · exact .same _ _ _ rfl nofun
  split
  · exact .same _ _ _ rfl nofun
  split
  · unfold U2fData.register
    split
    · exact .same _ _ _ rfl nofun
    split <;> exact .same _ _ _ rfl nofun
  split
  · next hcmd =>
    unfold U2fData.authenticate
    split
    · exact .same _ _ _ rfl nofun
    split
    · exact .same _ _ _ rfl nofun
    simp only
    split
    · exact .same _ _ _ rfl nofun
    next hhandle =>
    split
    · exact .same _ _ _ rfl nofun
    · next hcheck => exact .next _ _ _ ⟨hcmd, not_not.mp hhandle, hcheck⟩ rfl
  split <;> exact .same _ _ _ rfl nofun
/-- The counters that were answered increase, the one in memory is not behind them, and where there is
something to be behind of, the file is of the new version. -/
structure Issued (s : Device) : Prop where
  increasing : s.answered.Pairwise fun a b => a.2 < b.2
  running : ∀ u ∈ s.u2f, ∀ a ∈ s.answered, a.2 ≤ u.counter
  file : s.answered ≠ [] ∨ s.u2f.isSome → ∃ counter, s.cntFile = some ⟨false, counter⟩

theorem loadKey_eq {init : Init} {key : Bytes} (h : s.loadKey init = some (key, s')) :
    ∃ keyFile, s' = { s with keyFile := keyFile } := by
  unfold Device.loadKey at h
  split at h
  · cases h
    exact ⟨s.keyFile, rfl⟩
  · split at h
    · cases h
      exact ⟨_, rfl⟩
    · cases h

theorem Issued.started (h : Issued s) {d : Device} {u : U2fData} {counter : UInt32}
    (hanswered : d.answered = s.answered) (hu2f : d.u2f = some u)
    (hfile : d.cntFile = some ⟨false, counter⟩) (hle : ∀ a ∈ s.answered, a.2 ≤ u.counter) :
    Issued d := by
  refine ⟨hanswered ▸ h.increasing, fun u' hu' a ha => ?_, fun _ => ⟨counter, hfile⟩⟩
  rw [hu2f] at hu'
  cases hu'
  exact hle a (hanswered ▸ ha)

theorem cntRead_cases (s : Device) (rewritten : Bool) :
    (∃ counter d, s.cntRead rewritten = (some counter, d) ∧ d.answered = s.answered ∧
      d.cntFile = some ⟨false, counter⟩ ∧
      ∀ stored, s.cntFile = some ⟨false, stored⟩ → stored = counter) ∨
    (s.cntRead rewritten = (none, s) ∧ ∀ stored, s.cntFile ≠ some ⟨false, stored⟩) := by
  unfold Device.cntRead
  cases hfile : s.cntFile with
  | none => exact .inr ⟨rfl, nofun⟩
  | some file =>
    obtain ⟨old, stored⟩ := file
    cases old with
    | true =>
      cases rewritten with
      | true => exact .inl ⟨_, _, rfl, rfl, rfl, nofun⟩
      | false => exact .inr ⟨rfl, nofun⟩
    | false =>
      refine .inl ⟨stored, s, rfl, rfl, hfile, fun stored' hstored => ?_⟩
      cases hstored
      rfl

theorem Issued.init {init : Init} (h : Issued s)
    (hahead : ∀ a ∈ s.answered, ∀ file ∈ s.cntFile, a.2 ≤ file.counter) : Issued (s.init init) := by
  unfold Device.init
  split
  · exact h
  split
  · exact h
  · next key s₁ hkey =>
    obtain ⟨keyFile, rfl⟩ := loadKey_eq hkey
    have hkept : Issued { s with keyFile := keyFile } := ⟨h.increasing, h.running, h.file⟩
    rcases cntRead_cases { s with keyFile := keyFile } init.cntRewrite with
      ⟨counter, d, hread, hanswered, hfile, hstored⟩ | ⟨hread, hnone⟩
    · rw [hread]
      refine h.started hanswered rfl hfile fun a ha => ?_
      obtain ⟨stored, hcnt⟩ := h.file (.inl (ne_nil_of_mem ha))
      have hle := hahead a ha _ hcnt
      rwa [hstored stored hcnt] at hle
    · rw [hread]
      simp only
      split
      · refine h.started rfl rfl rfl fun a ha => ?_
        obtain ⟨stored, hcnt⟩ := h.file (.inl (ne_nil_of_mem ha))
        exact absurd hcnt (hnone stored)
      · exact hkept

theorem lt_counter_add_one {counter : UInt32} (h : counter ≠ 0xffffffff) : counter < counter + 1 := by
  have hne : counter.toNat ≠ 4294967295 := fun heq => h (UInt32.toNat_inj.mp heq)
  have hlt := counter.toNat_lt
  rw [UInt32.lt_iff_toNat_lt, UInt32.toNat_add, Nat.mod_eq_of_lt]
  · exact Nat.lt_succ_self _
  · have hone : (1 : UInt32).toNat = 1 := rfl
    omega

/-- The counters given out stay distinct: an authentication stores its counter before it answers. -/
theorem Issued.message {u : U2fData} {buf : Bytes} {len : Nat} {dataCheck written : Bool}
    (h : Issued s) (hu : s.u2f = some u) (hwrap : Counting hmac u buf → u.counter ≠ 0xffffffff) :
    Issued (s.message hmac u buf len dataCheck written) := by
  have hrunning := h.running u hu
  obtain ⟨counter, hfile⟩ := h.file (.inr (by rw [hu]; rfl))
  unfold Device.message
  generalize hparsed : u.msgParse hmac buf len dataCheck = parsed
  have hcounts : Counts hmac u buf parsed := hparsed ▸ msgParse_counts u buf len dataCheck
  cases hcounts with
  | next flags notified u' hcounting hcounter =>
    have hlt : u.counter < u.counter + 1 := lt_counter_add_one (hwrap hcounting)
    have hle : ∀ a ∈ s.answered ++ [(u.deviceKey, u.counter + 1)], a.2 ≤ u.counter + 1 := by
      intro a ha
      rcases mem_append.mp ha with ha | ha
      · exact UInt32.le_trans (hrunning a ha) (UInt32.le_of_lt hlt)
      · rw [mem_singleton.mp ha]
        exact UInt32.le_refl _
    have hincreasing : (s.answered ++ [(u.deviceKey, u.counter + 1)]).Pairwise
        fun a b => a.2 < b.2 := by
      refine pairwise_append.mpr ⟨h.increasing, pairwise_singleton _ _, ?_⟩
      intro a ha b hb
      rw [mem_singleton.mp hb]
      exact UInt32.lt_of_le_of_lt (hrunning a ha) hlt
    have hcnt : ∃ stored, (s.cntWrite (u.counter + 1) written).cntFile = some ⟨false, stored⟩ := by
      cases written with
      | true => exact ⟨_, rfl⟩
      | false => exact ⟨counter, hfile⟩
    have hanswered : (s.cntWrite (u.counter + 1) written).answered = s.answered := by
      cases written <;> rfl
    simp only [hanswered]
    refine ⟨hincreasing, fun v hv a ha => ?_, fun _ => hcnt⟩
    cases hv
    exact hcounter ▸ hle a ha
  | same response notified u' hcounter hresponse =>
    have hsame : Issued { s with u2f := some u' } := by
      refine ⟨h.increasing, fun v hv a ha => ?_, fun _ => ⟨counter, hfile⟩⟩
      cases hv
      exact hcounter ▸ hrunning a ha
    cases response with
    | authenticate flags c => exact absurd rfl (hresponse flags c)
    | _ => exact hsame

theorem Issued.withUser {u u' : U2fData} (h : Issued s) (hu : s.u2f = some u)
    (hcounter : u'.counter = u.counter) : Issued { s with u2f := some u' } := by
  refine ⟨h.increasing, fun v hv a ha => ?_, fun _ => h.file (.inr (by rw [hu]; rfl))⟩
  cases hv
  exact hcounter ▸ h.running u hu a ha

theorem Issued.step {ev : CounterEvent} (h : Issued s) (hahead : Ahead hmac s ev)
    (hstep : (counterMachine hmac).step s ev = some s') : Issued s' := by
  cases ev with
  | init init =>
    obtain ⟨-, hs'⟩ := Option.ite_none_right_eq_some.mp hstep
    cases hs'
    exact h.init hahead
  | message buf len dataCheck written =>
    obtain ⟨u, hu, hs'⟩ := Option.map_eq_some_iff.mp hstep
    cases hs'
    exact h.message hu (hahead u hu)
  | confirm =>
    obtain ⟨u, hu, hs'⟩ := Option.map_eq_some_iff.mp hstep
    cases hs'
    exact h.withUser hu rfl
  | setState =>
    obtain ⟨u, hu, hs'⟩ := Option.map_eq_some_iff.mp hstep
    cases hs'
    exact h.withUser hu rfl
  | exit =>
    obtain ⟨u, hu, hs'⟩ := Option.map_eq_some_iff.mp hstep
    cases hs'
    exact ⟨h.increasing, nofun, fun _ => h.file (.inr (by rw [hu]; rfl))⟩

/-- Where every start reads a counter that is not behind and no counter wraps, the counters that a
device key was answered with increase. -/
theorem answered_increasing (hmac : Bytes → Bytes → Bytes) (keyFile : Option Bytes)
    (cntFile : Option CounterFile) (evs : List CounterEvent) (t : Device)
    (hahead : (counterMachine hmac).Meets (Ahead hmac) ⟨keyFile, cntFile, none, []⟩ evs)
    (hrun : (counterMachine hmac).run ⟨keyFile, cntFile, none, []⟩ evs = some t) :
    t.answered.Pairwise fun a b => a.1 = b.1 → a.2 < b.2 := by
  have hstart : Issued ⟨keyFile, cntFile, none, []⟩ :=
    ⟨List.Pairwise.nil, nofun, fun hor => by
      rcases hor with hne | hsome
      · exact absurd rfl hne
      · cases hsome⟩
  have hissued := (counterMachine hmac).run_invariant_of_meets
    (fun _ _ _ hs hok hstep => Issued.step hs hok hstep) hstart hahead hrun
  refine List.Pairwise.imp ?_ hissued.increasing
  intro a b hlt _
  exact hlt

def started : CounterEvent := .init ⟨true, true, some [1], true, true⟩

/-- An authentication with a handle of zeros, and whether the counter can be written. -/
def authenticated (written : Bool) : CounterEvent :=
  .message ([0, cmdAuthenticate, dontEnforce] ++ replicate 133 0) 136 true written

def zeroHash (_ _ : Bytes) : Bytes := replicate 32 0

theorem restarted_increasing : ((counterMachine zeroHash).run ⟨none, none, none, []⟩
      [started, authenticated false, authenticated true, .exit, started, authenticated true]).map
        Device.answered = some [([1], 1), ([1], 2), ([1], 3)] ∧
      [(([1] : Bytes), (1 : UInt32)), ([1], 2), ([1], 3)].Pairwise
        fun a b => a.1 = b.1 → a.2 < b.2 :=
  ⟨by decide, answered_increasing zeroHash none none
    [started, authenticated false, authenticated true, .exit, started, authenticated true] _
    (by decide) rfl⟩

/-- A counter that could not be written is answered again after a restart. -/
theorem unwritten_repeated : ∃ t, (counterMachine zeroHash).run ⟨none, none, none, []⟩
        [started, authenticated false, .exit, started, authenticated true] = some t ∧
      ¬ t.answered.Pairwise fun a b => a.1 = b.1 → a.2 < b.2 :=
  ⟨_, rfl, by decide⟩

end NikitaFirmware.U2f
