import NikitaFirmware.Foundations.Machine
import NikitaFirmware.SubGhz.Blocks
import NikitaFirmware.Toolbox.FlipperFormat
import NikitaFirmware.Toolbox.Strint

/-!
# Recording raw signals

`lib/subghz/protocols/raw.c`. The decoder collects samples in `upload_raw` and writes them to a
text file, a line whenever the buffer is full and the last one when the recording stops.
-/

namespace NikitaFirmware.SubGhz.Raw
open Foundations Toolbox List Option

def downloadMaxSize : Nat := 512

def teShort : Nat := 50

/-- What is a second or longer is not recorded. -/
def durationLimit : Nat := 1000000

inductive RawFileIsOpen
  | close
  | write
  | read
  deriving DecidableEq

structure Decoder where
  uploadRaw : Option (List Int)
  indWrite : Nat
  fileIsOpen : RawFileIsOpen
  sampleWrite : Nat
  lastLevel : Bool
  pause : Bool

structure Recorder where
  decoder : Decoder
  file : List Char

structure Preset where
  name : List Char
  frequency : Nat
  data : List UInt8

def presetName (name : List Char) : List Char :=
  if name = "AM270".toList then "FuriHalSubGhzPresetOok270Async".toList
  else if name = "AM650".toList then "FuriHalSubGhzPresetOok650Async".toList
  else if name = "FM238".toList then "FuriHalSubGhzPreset2FSKDev238Async".toList
  else if name = "FM12K".toList then "FuriHalSubGhzPreset2FSKDev12KAsync".toList
  else if name = "FM476".toList then "FuriHalSubGhzPreset2FSKDev476Async".toList
  else "FuriHalSubGhzPresetCustom".toList

def upperHexDigit (n : Nat) : Char := (Nat.digitChar n).toUpper

def printHex (b : UInt8) : List Char := [upperHexDigit (b.toNat / 16), upperHexDigit (b.toNat % 16)]

/-- The lines in front of the key `Protocol`. -/
def presetLines (preset : Preset) : List (List Char × List (List Char)) :=
  [("Filetype".toList, ["Flipper SubGhz RAW File".toList]), ("Version".toList, [printUint32 1]),
    ("Frequency".toList, [printUint32 preset.frequency]),
    ("Preset".toList, [presetName preset.name])] ++
  if presetName preset.name = "FuriHalSubGhzPresetCustom".toList then
    [("Custom_preset_module".toList, ["CC1101".toList]),
      ("Custom_preset_data".toList, preset.data.map printHex)]
  else []

/-- What `subghz_protocol_raw_save_to_file_init` writes. -/
def header (preset : Preset) : List Char :=
  (presetLines preset).flatMap (fun l => writeValueLine l.1 l.2) ++
    writeValueLine "Protocol".toList ["RAW".toList]

def alloc : Recorder := ⟨⟨none, 0, .close, 0, false, false⟩, []⟩

/-- The text that `flipper_format_write_int32` makes of samples. -/
def dataLine (samples : List Int) : List Char :=
  writeValueLine "RAW_Data".toList (samples.map printInt32)

namespace Recorder

/-- `subghz_protocol_raw_save_to_file_init`. A write that fails leaves the first characters of what
was to be written in the file, and the decoder as it was. -/
def saveToFileInit (r : Recorder) (preset : Preset) : Option Nat → Recorder
  | none => ⟨{ r.decoder with
      uploadRaw := some (List.replicate downloadMaxSize 0)
      fileIsOpen := .write, sampleWrite := 0, lastLevel := false, pause := false }, header preset⟩
  | some k => { r with file := (header preset).take k }

def saveToFileWrite (r : Recorder) (failed : Option Nat) : Recorder :=
  if r.decoder.fileIsOpen = .write then
    let line := dataLine ((r.decoder.uploadRaw.getD []).take r.decoder.indWrite)
    match failed with
    | none => ⟨{ r.decoder with
        sampleWrite := r.decoder.sampleWrite + r.decoder.indWrite, indWrite := 0 }, r.file ++ line⟩
    | some k => { r with file := r.file ++ line.take k }
  else r

def saveToFileStop (r : Recorder) (failed : Option Nat) : Recorder :=
  let r := if r.decoder.fileIsOpen = .write ∧ r.decoder.indWrite ≠ 0 then r.saveToFileWrite failed
    else r
  { r with decoder := { r.decoder with
    uploadRaw := if r.decoder.fileIsOpen ≠ .close then none else r.decoder.uploadRaw
    fileIsOpen := .close } }

end Recorder

namespace Decoder

def saveToFilePause (d : Decoder) (pause : Bool) : Decoder := { d with pause }

def reset (d : Decoder) : Decoder := { d with indWrite := 0, lastLevel := false }

def sample (level : Bool) (duration : Nat) : Int := if level then duration else -duration

/-- The sample that is stored; a store behind the end of `upload_raw` does not show in the list. -/
def store (d : Decoder) (level : Bool) (duration : Nat) : Decoder :=
  if teShort < duration ∧ d.lastLevel ≠ level then
    { d with
      lastLevel := level
      uploadRaw := d.uploadRaw.map fun buf => buf.set d.indWrite (sample level duration)
      indWrite := d.indWrite + 1 }
  else d

def Listens (d : Decoder) (duration : Nat) : Prop :=
  (d.pause = false ∧ d.uploadRaw ≠ none) ∧ duration < durationLimit

instance (d : Decoder) (duration : Nat) : Decidable (d.Listens duration) :=
  inferInstanceAs (Decidable ((_ ∧ _) ∧ _))

end Decoder

/-- `subghz_protocol_decoder_raw_feed` -/
def Recorder.feed (r : Recorder) (level : Bool) (duration : Nat) (failed : Option Nat) : Recorder :=
  if r.decoder.Listens duration then
    let r := { r with decoder := r.decoder.store level duration }
    if r.decoder.indWrite = downloadMaxSize then r.saveToFileWrite failed else r
  else r

/-- `failed` says of a write to the file whether it fails, and how much of it is made then. -/
inductive Event
  | saveToFileInit (preset : Preset) (failed : Option Nat)
  | feed (level : Bool) (duration : Nat) (failed : Option Nat)
  | pause (pause : Bool)
  | reset
  | saveToFileStop (failed : Option Nat)

/-- A recording is begun when none is open. -/
def machine : Machine Recorder Event where
  step r
    | .saveToFileInit preset failed =>
      if r.decoder.fileIsOpen = .close then some (r.saveToFileInit preset failed) else none
    | .feed level duration failed => some (r.feed level duration failed)
    | .pause pause => some { r with decoder := r.decoder.saveToFilePause pause }
    | .reset => some { r with decoder := r.decoder.reset }
    | .saveToFileStop failed => some (r.saveToFileStop failed)

/-- No sample is accepted while the buffer is full, which it stays when it could not be written. -/
def Roomy (r : Recorder) : Event → Prop
  | .feed level duration _ =>
    r.decoder.Listens duration → teShort < duration ∧ r.decoder.lastLevel ≠ level →
      r.decoder.indWrite < downloadMaxSize
  | _ => True

instance decidableRoomy (r : Recorder) : (ev : Event) → Decidable (Roomy r ev)
  | .saveToFileInit _ _ => isTrue trivial
  | .feed level duration _ => inferInstanceAs (Decidable (r.decoder.Listens duration →
      teShort < duration ∧ r.decoder.lastLevel ≠ level → r.decoder.indWrite < downloadMaxSize))
  | .pause _ => isTrue trivial
  | .reset => isTrue trivial
  | .saveToFileStop _ => isTrue trivial

/-- The samples are in the buffer. -/
def Bounded (r : Recorder) : Prop := r.decoder.indWrite ≤ downloadMaxSize

variable {r r' : Recorder} {ev : Event}

theorem saveToFileWrite_indWrite_le (r : Recorder) (failed : Option Nat) :
    (r.saveToFileWrite failed).decoder.indWrite ≤ r.decoder.indWrite := by
  unfold Recorder.saveToFileWrite
  split
  · cases failed with
    | none => exact Nat.zero_le _
    | some k => exact Nat.le_refl _
  · exact Nat.le_refl _

theorem store_indWrite (d : Decoder) (level : Bool) (duration : Nat) :
    (d.store level duration).indWrite =
      if teShort < duration ∧ d.lastLevel ≠ level then d.indWrite + 1 else d.indWrite := by
  rw [Decoder.store]
  split <;> rfl

theorem Bounded.step (h : Bounded r) (hroom : Roomy r ev) (hs : machine.step r ev = some r') :
    Bounded r' := by
  cases ev with
  | saveToFileInit preset failed =>
    obtain ⟨-, rfl⟩ := ite_none_right_eq_some.mp hs |>.imp_right some.inj
    cases failed <;> exact h
  | feed level duration failed =>
    obtain rfl := some.inj hs
    rw [Recorder.feed]
    split
    case isFalse => exact h
    case isTrue hlistens =>
      have hstore : (r.decoder.store level duration).indWrite ≤ downloadMaxSize := by
        rw [store_indWrite]
        split
        case isTrue haccept => exact hroom hlistens haccept
        case isFalse => exact h
      dsimp only
      split
      · exact Nat.le_trans (saveToFileWrite_indWrite_le _ failed) hstore
      · exact hstore
  | pause pause => exact some.inj hs ▸ h
  | reset => exact some.inj hs ▸ Nat.zero_le _
  | saveToFileStop failed =>
    obtain rfl := some.inj hs
    rw [Bounded, Recorder.saveToFileStop]
    dsimp only
    split
    · exact Nat.le_trans (saveToFileWrite_indWrite_le r failed) h
    · exact h

theorem not_bounded_step (h : Bounded r) (hroom : ¬ Roomy r ev)
    (hs : machine.step r ev = some r') : ¬ Bounded r' := by
  cases ev with
  | feed level duration failed =>
    obtain ⟨hlistens, haccept, hfull⟩ : r.decoder.Listens duration ∧
        (teShort < duration ∧ r.decoder.lastLevel ≠ level) ∧
          ¬ r.decoder.indWrite < downloadMaxSize := by
      simpa only [Roomy, Classical.not_imp] using hroom
    obtain rfl := some.inj hs
    have hstore : (r.decoder.store level duration).indWrite = downloadMaxSize + 1 := by
      rw [store_indWrite, if_pos haccept, Nat.le_antisymm h (Nat.le_of_not_lt hfull)]
    have hne : ¬ (r.decoder.store level duration).indWrite = downloadMaxSize := by omega
    rw [Bounded, Recorder.feed, if_pos hlistens, if_neg hne, hstore]
    exact Nat.not_succ_le_self _
  | saveToFileInit => exact absurd trivial hroom
  | pause => exact absurd trivial hroom
  | reset => exact absurd trivial hroom
  | saveToFileStop => exact absurd trivial hroom

theorem bounded_iff {evs : List Event} (h : machine.run alloc evs = some r) :
    machine.Meets Roomy alloc evs ↔
      ∀ pre u, pre <+: evs → machine.run alloc pre = some u → Bounded u :=
  machine.meets_iff_always (I := Bounded) (fun _ _ _ hI hok hs => hI.step hok hs) (fun _ hI => hI)
    (fun _ _ _ hI hok hs => not_bounded_step hI hok hs) (Nat.zero_le _) h

/-- The pulses of a recording that are accepted: those longer than 50 us and shorter than a second
whose level is not that of the last one. -/
def accepted : Bool → Bool → List Event → List Pulse
  | _, _, [] => []
  | last, paused, .feed level duration _ :: evs =>
    if (paused = false ∧ duration < durationLimit) ∧ teShort < duration ∧ last ≠ level then
      ⟨level, duration⟩ :: accepted level paused evs
    else accepted last paused evs
  | last, _, .pause paused :: evs => accepted last paused evs
  | last, paused, _ :: evs => accepted last paused evs

/-- What happens while a recording is open. -/
def Event.OfRecording : Event → Prop
  | .feed _ _ _ => True
  | .pause _ => True
  | .reset => True
  | _ => False

instance decidableOfRecording : (ev : Event) → Decidable ev.OfRecording
  | .saveToFileInit _ _ => isFalse id
  | .feed _ _ _ => isTrue trivial
  | .pause _ => isTrue trivial
  | .reset => isTrue trivial
  | .saveToFileStop _ => isFalse id

/-- No write fails, and the decoder is not reset while samples are in its buffer. -/
def Clean (r : Recorder) : Event → Prop
  | .feed level duration failed =>
    r.decoder.Listens duration → (r.decoder.store level duration).indWrite = downloadMaxSize →
      failed = none
  | .reset => r.decoder.indWrite = 0
  | .saveToFileStop failed => r.decoder.indWrite ≠ 0 → failed = none
  | _ => True

instance decidableClean (r : Recorder) : (ev : Event) → Decidable (Clean r ev)
  | .saveToFileInit _ _ => isTrue trivial
  | .feed level duration failed => inferInstanceAs (Decidable (r.decoder.Listens duration →
      (r.decoder.store level duration).indWrite = downloadMaxSize → failed = none))
  | .pause _ => isTrue trivial
  | .reset => inferInstanceAs (Decidable (r.decoder.indWrite = 0))
  | .saveToFileStop failed =>
    inferInstanceAs (Decidable (r.decoder.indWrite ≠ 0 → failed = none))

def sampleOf (p : Pulse) : Int := Decoder.sample p.level p.duration

def recordedLine (line : List Pulse) : List Char := dataLine (line.map sampleOf)

structure Recording (preset : Preset) (lines : List (List Pulse)) (rest : List Pulse)
    (r : Recorder) : Prop where
  isOpen : r.decoder.fileIsOpen = .write
  file : r.file = header preset ++ lines.flatMap recordedLine
  full : ∀ line ∈ lines, line.length = downloadMaxSize
  buffer : ∃ buf, r.decoder.uploadRaw = some buf ∧ buf.length = downloadMaxSize ∧
    buf.take rest.length = rest.map sampleOf
  indWrite : r.decoder.indWrite = rest.length
  room : rest.length ≤ downloadMaxSize
  lastLevel : r.decoder.lastLevel = decide (rest.length % 2 = 1)
  ranges : ∀ p ∈ lines.flatten ++ rest, teShort < p.duration ∧ p.duration < durationLimit

variable {preset : Preset} {lines : List (List Pulse)} {rest : List Pulse}

theorem Recording.init (preset : Preset) (h : r.decoder.indWrite = 0) :
    Recording preset [] [] (r.saveToFileInit preset none) where
  isOpen := rfl
  file := (append_nil _).symm
  full := fun _ h => absurd h not_mem_nil
  buffer := ⟨_, rfl, length_replicate, rfl⟩
  indWrite := h
  room := by decide
  lastLevel := rfl
  ranges := fun _ h => absurd h not_mem_nil

theorem take_set_concat {buf : List Int} {n : Nat} (hn : n < buf.length) (v : Int) :
    (buf.set n v).take (n + 1) = buf.take n ++ [v] := by
  rw [take_add_one, take_set_of_le (Nat.le_refl n), List.getElem?_set_self hn]
  rfl

theorem Recording.store {level : Bool} {duration : Nat} (h : Recording preset lines rest r)
    (hrange : teShort < duration ∧ duration < durationLimit) (hlevel : r.decoder.lastLevel ≠ level)
    (hroom : rest.length < downloadMaxSize) :
    Recording preset lines (rest ++ [⟨level, duration⟩])
      { r with decoder := r.decoder.store level duration } := by
  obtain ⟨buf, hbuf, hlen, htake⟩ := h.buffer
  rw [Decoder.store, if_pos ⟨hrange.1, hlevel⟩]
  refine ⟨h.isOpen, h.file, h.full, ?_, ?_, ?_, ?_, ?_⟩
  · refine ⟨buf.set rest.length (sampleOf ⟨level, duration⟩), ?_, ?_, ?_⟩
    · simp only [hbuf, h.indWrite, map_some]
      rfl
    · rw [length_set, hlen]
    · rw [length_append, length_singleton, take_set_concat (by omega), htake,
        map_append]
      rfl
  · simp only [h.indWrite, length_append, length_singleton]
  · rw [length_append, length_singleton]
    exact hroom
  · -- the level is the other one than that of the last sample
    have hlast := h.lastLevel
    rw [length_append, length_singleton]
    cases level <;> cases hl : r.decoder.lastLevel <;> simp_all <;> omega
  · rw [← append_assoc]
    intro p hp
    rcases mem_append.mp hp with hp | hp
    · exact h.ranges p hp
    · exact mem_singleton.mp hp ▸ hrange

theorem Recording.write (h : Recording preset lines rest r) :
    (r.saveToFileWrite none).file = header preset ++ (lines ++ [rest]).flatMap recordedLine ∧
      (r.saveToFileWrite none).decoder =
        { r.decoder with sampleWrite := r.decoder.sampleWrite + rest.length, indWrite := 0 } := by
  obtain ⟨buf, hbuf, -, htake⟩ := h.buffer
  rw [Recorder.saveToFileWrite, if_pos h.isOpen]
  refine ⟨?_, ?_⟩
  · simp only [h.file, hbuf, getD_some, h.indWrite, htake, flatMap_append,
      append_assoc, flatMap_singleton, recordedLine]
  · simp only [h.indWrite]

theorem Recording.flush (h : Recording preset lines rest r)
    (hfull : rest.length = downloadMaxSize) :
    Recording preset (lines ++ [rest]) [] (r.saveToFileWrite none) := by
  obtain ⟨hfile, hdecoder⟩ := h.write
  obtain ⟨buf, hbuf, hlen, -⟩ := h.buffer
  refine ⟨?_, hfile, ?_, ⟨buf, ?_, hlen, rfl⟩, ?_, Nat.zero_le _, ?_, ?_⟩
  · rw [hdecoder]
    exact h.isOpen
  · exact forall_mem_append.mpr ⟨h.full, fun l hl => mem_singleton.mp hl ▸ hfull⟩
  · rw [hdecoder]
    exact hbuf
  · rw [hdecoder]
    rfl
  · rw [hdecoder]
    simp only [h.lastLevel, hfull]
    decide
  · rw [flatten_append, flatten_singleton, append_nil]
    exact h.ranges

variable {failed : Option Nat}

theorem Recording.feed {level : Bool} {duration : Nat}
    (h : Recording preset lines rest r) (hroom : rest.length < downloadMaxSize)
    (hclean : Clean r (.feed level duration failed)) (evs : List Event) :
    ∃ lines' rest', Recording preset lines' rest' (r.feed level duration failed) ∧
      rest'.length < downloadMaxSize ∧
      lines'.flatten ++ rest' ++ accepted (r.feed level duration failed).decoder.lastLevel
        (r.feed level duration failed).decoder.pause evs =
      lines.flatten ++ rest ++
        accepted r.decoder.lastLevel r.decoder.pause (.feed level duration failed :: evs) := by
  obtain ⟨buf, hbuf, -, -⟩ := h.buffer
  by_cases hlistens : r.decoder.Listens duration
  case neg =>
    have hnot : ¬ ((r.decoder.pause = false ∧ duration < durationLimit) ∧
        teShort < duration ∧ r.decoder.lastLevel ≠ level) :=
      fun hacc => hlistens ⟨⟨hacc.1.1, by simp [hbuf]⟩, hacc.1.2⟩
    rw [Recorder.feed, if_neg hlistens, accepted, if_neg hnot]
    exact ⟨lines, rest, h, hroom, rfl⟩
  case pos =>
    by_cases haccept : teShort < duration ∧ r.decoder.lastLevel ≠ level
    case neg =>
      have hstore : r.decoder.store level duration = r.decoder := if_neg haccept
      have hne : r.decoder.indWrite ≠ downloadMaxSize := h.indWrite ▸ Nat.ne_of_lt hroom
      rw [Recorder.feed, if_pos hlistens, hstore, if_neg hne, accepted,
        if_neg (fun hacc => haccept hacc.2)]
      exact ⟨lines, rest, h, hroom, rfl⟩
    case pos =>
      have hstored := h.store ⟨haccept.1, hlistens.2⟩ haccept.2 hroom
      have hind := hstored.indWrite
      have hfields : (r.decoder.store level duration).lastLevel = level ∧
          (r.decoder.store level duration).pause = r.decoder.pause := by
        rw [Decoder.store, if_pos haccept]
        exact ⟨rfl, rfl⟩
      have hacc : (r.decoder.pause = false ∧ duration < durationLimit) ∧
          teShort < duration ∧ r.decoder.lastLevel ≠ level :=
        ⟨⟨hlistens.1.1, hlistens.2⟩, haccept⟩
      rw [length_append, length_singleton] at hind
      rw [accepted, if_pos hacc]
      by_cases hfull : rest.length + 1 = downloadMaxSize
      case pos =>
        obtain rfl := hclean hlistens (hind.trans hfull)
        have hflush := hstored.flush (by rw [length_append]; exact hfull)
        have hfeed : r.feed level duration none =
            Recorder.saveToFileWrite { r with decoder := r.decoder.store level duration } none := by
          rw [Recorder.feed, if_pos hlistens]
          exact if_pos (hind.trans hfull)
        rw [hfeed]
        refine ⟨lines ++ [rest ++ [⟨level, duration⟩]], [], hflush, by decide, ?_⟩
        rw [hstored.write.2]
        simp [hfields]
      case neg =>
        have hfeed : r.feed level duration failed =
            { r with decoder := r.decoder.store level duration } := by
          rw [Recorder.feed, if_pos hlistens]
          exact if_neg fun heq => hfull (hind.symm.trans heq)
        rw [hfeed]
        refine ⟨lines, rest ++ [⟨level, duration⟩], hstored, ?_, ?_⟩
        · rw [length_append, length_singleton]
          omega
        · simp [hfields]

theorem Recording.step (h : Recording preset lines rest r) (hroom : rest.length < downloadMaxSize)
    (hev : ev.OfRecording) (hclean : Clean r ev) (hs : machine.step r ev = some r')
    (evs : List Event) :
    ∃ lines' rest', Recording preset lines' rest' r' ∧ rest'.length < downloadMaxSize ∧
      lines'.flatten ++ rest' ++ accepted r'.decoder.lastLevel r'.decoder.pause evs =
      lines.flatten ++ rest ++ accepted r.decoder.lastLevel r.decoder.pause (ev :: evs) := by
  cases ev with
  | feed level duration failed =>
    obtain rfl := some.inj hs
    exact h.feed hroom hclean evs
  | pause pause =>
    obtain rfl := some.inj hs
    exact ⟨lines, rest, ⟨h.isOpen, h.file, h.full, h.buffer, h.indWrite, h.room, h.lastLevel,
      h.ranges⟩, hroom, rfl⟩
  | reset =>
    obtain rfl := some.inj hs
    -- the buffer is empty, so an even number of samples has been accepted
    obtain rfl : rest = [] := eq_nil_of_length_eq_zero (h.indWrite.symm.trans hclean)
    have hlast : r.decoder.lastLevel = false := h.lastLevel
    have hreset : r.decoder.reset = r.decoder := by
      have hind : r.decoder.indWrite = 0 := hclean
      rw [Decoder.reset, ← hind, ← hlast]
    rw [hreset]
    exact ⟨lines, [], h, hroom, rfl⟩
  | saveToFileInit => exact absurd hev id
  | saveToFileStop => exact absurd hev id

theorem Recording.run {evs : List Event} (h : Recording preset lines rest r)
    (hroom : rest.length < downloadMaxSize) (hevs : ∀ ev ∈ evs, ev.OfRecording)
    (hclean : machine.Meets Clean r evs) (hrun : machine.run r evs = some r') :
    ∃ lines' rest', Recording preset lines' rest' r' ∧ rest'.length < downloadMaxSize ∧
      lines'.flatten ++ rest' =
        lines.flatten ++ rest ++ accepted r.decoder.lastLevel r.decoder.pause evs := by
  induction evs generalizing r lines rest with
  | nil =>
    obtain rfl := some.inj hrun
    exact ⟨lines, rest, h, hroom, (append_nil _).symm⟩
  | cons ev evs ih =>
    obtain ⟨hev, hevs⟩ := forall_mem_cons.mp hevs
    obtain ⟨s, hs, hrun⟩ := machine.run_cons_eq_some.mp hrun
    obtain ⟨hclean, hmeets⟩ := (machine.meets_cons_of_step hs).mp hclean
    obtain ⟨lines₁, rest₁, h₁, hroom₁, heq₁⟩ := h.step hroom hev hclean hs evs
    obtain ⟨lines₂, rest₂, h₂, hroom₂, heq₂⟩ := ih h₁ hroom₁ hevs hmeets hrun
    exact ⟨lines₂, rest₂, h₂, hroom₂, heq₂.trans heq₁⟩

theorem Recording.stop (h : Recording preset lines rest r)
    (hclean : Clean r (.saveToFileStop failed)) :
    ∃ lines' : List (List Pulse),
      (r.saveToFileStop failed).file = header preset ++ lines'.flatMap recordedLine ∧
      lines'.flatten = lines.flatten ++ rest ∧
      ∀ line ∈ lines', line ≠ [] ∧ line.length ≤ downloadMaxSize := by
  have hfull : ∀ line ∈ lines, line ≠ [] ∧ line.length ≤ downloadMaxSize := by
    intro line hline
    have hlen := h.full line hline
    refine ⟨?_, Nat.le_of_eq hlen⟩
    rintro rfl
    cases hlen
  rw [Recorder.saveToFileStop]
  by_cases hrest : rest = []
  case pos =>
    subst hrest
    have hind : ¬ (r.decoder.fileIsOpen = .write ∧ r.decoder.indWrite ≠ 0) :=
      fun hne => hne.2 h.indWrite
    refine ⟨lines, ?_, (append_nil _).symm, hfull⟩
    rw [if_neg hind]
    exact h.file
  case neg =>
    have hpos : r.decoder.indWrite ≠ 0 := by
      rw [h.indWrite]
      exact fun hz => hrest (eq_nil_of_length_eq_zero hz)
    obtain rfl := hclean hpos
    refine ⟨lines ++ [rest], ?_, ?_, ?_⟩
    · rw [if_pos ⟨h.isOpen, hpos⟩]
      exact h.write.1
    · rw [flatten_append, flatten_singleton]
    · exact forall_mem_append.mpr ⟨hfull, fun l hl => mem_singleton.mp hl ▸ ⟨hrest, h.room⟩⟩

/-- The decoder between recordings, and while one is open. -/
structure Ready (r : Recorder) : Prop where
  closed : r.decoder.fileIsOpen = .close → r.decoder.uploadRaw = none ∧ r.decoder.indWrite = 0
  opened : r.decoder.fileIsOpen ≠ .close → r.decoder.fileIsOpen = .write
  room : r.decoder.indWrite < downloadMaxSize

theorem ready_alloc : Ready alloc := ⟨fun _ => ⟨rfl, rfl⟩, fun h => absurd rfl h, by decide⟩

theorem Ready.feed {level : Bool} {duration : Nat} (h : Ready r)
    (hclean : Clean r (.feed level duration failed)) : Ready (r.feed level duration failed) := by
  by_cases hlistens : r.decoder.Listens duration
  case neg =>
    rw [Recorder.feed, if_neg hlistens]
    exact h
  case pos =>
    have hopen : r.decoder.fileIsOpen = .write :=
      h.opened fun hclose => hlistens.1.2 (h.closed hclose).1
    have hstored : (r.decoder.store level duration).fileIsOpen = .write := by
      rw [Decoder.store]
      split <;> exact hopen
    have hne : (r.decoder.store level duration).fileIsOpen ≠ .close := by
      rw [hstored]
      decide
    have hind : (r.decoder.store level duration).indWrite ≤ downloadMaxSize := by
      rw [store_indWrite]
      have hroom := h.room
      split <;> omega
    rw [Recorder.feed, if_pos hlistens]
    by_cases hfull : (r.decoder.store level duration).indWrite = downloadMaxSize
    case pos =>
      obtain rfl := hclean hlistens hfull
      simp only [if_pos hfull, Recorder.saveToFileWrite, if_pos hstored]
      exact ⟨fun hclose => absurd hclose hne, fun _ => hstored, (by decide : 0 < downloadMaxSize)⟩
    case neg =>
      simp only [if_neg hfull]
      exact ⟨fun hclose => absurd hclose hne, fun _ => hstored, by dsimp only; omega⟩

theorem Ready.step (h : Ready r) (hclean : Clean r ev) (hs : machine.step r ev = some r') :
    Ready r' := by
  cases ev with
  | saveToFileInit preset failed =>
    obtain ⟨hclose, hs⟩ := ite_none_right_eq_some.mp hs
    obtain rfl := some.inj hs
    cases failed with
    | none => exact ⟨fun hc => absurd hc (by simp [Recorder.saveToFileInit]), fun _ => rfl, h.room⟩
    | some k => exact ⟨h.closed, h.opened, h.room⟩
  | feed level duration failed =>
    obtain rfl := some.inj hs
    exact h.feed hclean
  | pause pause =>
    obtain rfl := some.inj hs
    exact ⟨h.closed, h.opened, h.room⟩
  | reset =>
    obtain rfl := some.inj hs
    exact ⟨fun hc => ⟨(h.closed hc).1, rfl⟩, h.opened, (by decide : 0 < downloadMaxSize)⟩
  | saveToFileStop failed =>
    obtain rfl := some.inj hs
    rw [Recorder.saveToFileStop]
    by_cases hopen : r.decoder.fileIsOpen = .write ∧ r.decoder.indWrite ≠ 0
    case pos =>
      obtain rfl := hclean hopen.2
      simp only [if_pos hopen, Recorder.saveToFileWrite, if_pos hopen.1]
      exact ⟨fun _ => ⟨by simp [hopen.1], rfl⟩, fun hc => absurd rfl hc,
        (by decide : 0 < downloadMaxSize)⟩
    case neg =>
      simp only [if_neg hopen]
      have hzero : r.decoder.indWrite = 0 := by
        by_cases hclose : r.decoder.fileIsOpen = .close
        · exact (h.closed hclose).2
        · exact not_not.mp fun hne => hopen ⟨h.opened hclose, hne⟩
      refine ⟨fun _ => ⟨?_, hzero⟩, fun hc => absurd rfl hc, h.room⟩
      by_cases hclose : r.decoder.fileIsOpen = .close
      · simp [hclose, (h.closed hclose).1]
      · simp [hclose]

theorem recorded {before body : List Event} {preset : Preset} (hbody : ∀ ev ∈ body, ev.OfRecording)
    (hclean : machine.Meets Clean alloc
      (before ++ .saveToFileInit preset none :: (body ++ [.saveToFileStop failed])))
    (hrun : machine.run alloc
      (before ++ .saveToFileInit preset none :: (body ++ [.saveToFileStop failed])) = some r) :
    ∃ lines : List (List Pulse), r.file = header preset ++ lines.flatMap recordedLine ∧
      lines.flatten = accepted false false body ∧
      (∀ line ∈ lines, line ≠ [] ∧ line.length ≤ downloadMaxSize) ∧
      ∀ p ∈ lines.flatten, teShort < p.duration ∧ p.duration < durationLimit := by
  rw [machine.run_append] at hrun
  obtain ⟨r₀, hrun₀, hrun⟩ := bind_eq_some_iff.mp hrun
  obtain ⟨hmeets₀, hclean⟩ := (machine.meets_append hrun₀).mp hclean
  have hready : Ready r₀ := machine.run_invariant_of_meets (fun _ _ _ h hok hs => h.step hok hs)
    ready_alloc hmeets₀ hrun₀
  obtain ⟨r₁, hs₁, hrun⟩ := machine.run_cons_eq_some.mp hrun
  obtain ⟨-, hclean⟩ := (machine.meets_cons_of_step hs₁).mp hclean
  obtain ⟨hclose, hs₁⟩ := ite_none_right_eq_some.mp hs₁
  obtain rfl := some.inj hs₁
  rw [machine.run_append] at hrun
  obtain ⟨r₂, hrun₂, hrun⟩ := bind_eq_some_iff.mp hrun
  obtain ⟨hmeets₂, hclean⟩ := (machine.meets_append hrun₂).mp hclean
  obtain ⟨lines, rest, hrec, -, heq⟩ :=
    (Recording.init preset (hready.closed hclose).2).run (by decide) hbody hmeets₂ hrun₂
  obtain ⟨r₃, hs₃, hrun₃⟩ := machine.run_cons_eq_some.mp hrun
  obtain ⟨hclean, -⟩ := (machine.meets_cons_of_step hs₃).mp hclean
  obtain rfl := some.inj hs₃
  obtain rfl := some.inj hrun₃
  obtain ⟨lines', hfile, hflat, hlen⟩ := hrec.stop hclean
  refine ⟨lines', hfile, hflat.trans heq, hlen, ?_⟩
  rw [hflat]
  exact hrec.ranges

end NikitaFirmware.SubGhz.Raw
