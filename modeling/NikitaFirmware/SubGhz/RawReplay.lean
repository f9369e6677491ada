import Mathlib.Data.List.TakeWhile
import NikitaFirmware.SubGhz.Raw

/-!
# Replaying raw signals

`lib/subghz/subghz_file_encoder_worker.c`. A thread reads the lines of a file and sends their
samples through a stream buffer to the encoder, which takes them one by one.
-/

namespace NikitaFirmware.SubGhz.FileEncoderWorker
open Foundations Toolbox List

def encoderLoad : Nat := 512

def durationMax : Int := 1000000

/-- The samples that the stream buffer has space for. -/
def capacity : Nat := 2048

inductive LevelDuration
  | reset
  | make (level : Bool) (duration : Nat)

/-- Where the thread is. -/
inductive Phase
  | line
  | parse (str : List Char)
  | stop
  | ended
  deriving DecidableEq

/-- The thread, its buffer and what the encoder has taken from it. -/
structure Worker where
  stream : List Char
  phase : Phase
  queue : List Int
  yielded : List LevelDuration
  isStorageSlow : Bool
  workerStopping : Bool
  isDecoding : Bool

/-- The characters that `furi_string_trim` takes away. -/
def isBlank (c : Char) : Bool := c = ' ' || c = '\n' || c = '\r' || c = '\t'

def trim (s : List Char) : List Char :=
  ((s.dropWhile isBlank).reverse.dropWhile isBlank).reverse

/-- `furi_string_get_cstr` -/
def cstr (s : List Char) : List Char := s.takeWhile (· ≠ '\x00')

def strstr (needle : List Char) : List Char → Option (List Char)
  | [] => if needle = [] then some [] else none
  | c :: s => if needle.isPrefixOf (c :: s) then some (c :: s) else strstr needle s

/-- The beginning of `subghz_file_encoder_worker_data_parse`: the numbers of a line -/
def findData (line : List Char) : Option (List Char) :=
  (strstr "RAW_Data: ".toList line).map fun str => str.dropWhile (· ≠ ' ')

/-- A sample that the radio cannot hold is replaced. -/
def clamp (isDecoding : Bool) (duration : Int) : Int :=
  if duration < -durationMax ∨ durationMax < duration then
    let clamped : Int := if isDecoding then durationMax else 100
    if 0 < duration then clamped else -clamped
  else duration

def skipComma : List Char → List Char
  | ',' :: s => s
  | s => s

def levelDuration (duration : Int) : LevelDuration :=
  if duration < 0 then .make false (duration.natAbs % 0x40000000)
  else if 0 < duration then .make true (duration.natAbs % 0x40000000)
  else .reset

inductive Event
  /-- The thread goes on. -/
  | worker
  /-- The buffer has stayed full while the thread was sending. -/
  | giveUp
  /-- The thread has slept, as there is no space for a line. -/
  | delay
  /-- The encoder takes a sample. -/
  | getLevelDuration
  /-- The encoder finds none. -/
  | wait

namespace Worker

/-- `subghz_file_encoder_worker_thread` up to its loop -/
def start (file : List Char) (isDecoding : Bool) : Worker :=
  match readString "Protocol".toList file with
  | none => ⟨file, .ended, [], [], false, true, isDecoding⟩
  | some (_, rest) => ⟨rest.drop 1, .line, [], [], false, false, isDecoding⟩

def spacesAvailable (w : Worker) : Nat := capacity - w.queue.length

/-- A line is read, and its numbers are looked for. -/
def loadLine (w : Worker) : Worker :=
  let w' := { w with stream := (readLine w.stream).2 }
  if (readLine w.stream).1 = [] then { w' with phase := .stop }
  else match findData (cstr (trim (readLine w.stream).1)) with
    | none => { w' with phase := .stop }
    | some str => { w' with phase := .parse str }

def addLevelDuration (w : Worker) (duration : Int) : Worker :=
  { w with queue := w.queue ++ [duration] }

/-- What the thread sends next, and where it goes on. -/
def next (w : Worker) : Option (Int × Phase) :=
  match w.phase with
  | .parse str =>
    match strintToInt32 str 10 with
    | .ok (duration, rest) => some (clamp w.isDecoding duration, .parse (skipComma rest))
    | .error _ => none
  | .stop => some (0, .ended)
  | _ => none

end Worker

def machine : Machine Worker Event where
  step w
    | .worker =>
      match w.next with
      | some (duration, phase) =>
        if w.queue.length < capacity then some { w.addLevelDuration duration with phase } else none
      | none =>
        match w.phase with
        | .line => if encoderLoad ≤ w.spacesAvailable then some w.loadLine else none
        | .parse _ => some { w with phase := .line }
        | _ => none
    | .giveUp =>
      match w.next with
      | some (_, phase) => if w.queue.length < capacity then none else some { w with phase }
      | none => none
    | .delay => if w.phase = .line ∧ ¬ encoderLoad ≤ w.spacesAvailable then some w else none
    | .getLevelDuration =>
      match w.queue with
      | duration :: queue => some { w with
          queue
          yielded := w.yielded ++ [levelDuration duration]
          workerStopping := w.workerStopping || duration == 0 }
      | [] => none
    | .wait => if w.queue = [] then some { w with isStorageSlow := true } else none

/-- The steps that are not a wait. -/
def Event.Progress : Event → Prop
  | .delay => False
  | .wait => False
  | _ => True

open Raw (Recording accepted header dataLine recordedLine sampleOf presetLines downloadMaxSize)

variable {c : Char} {v : Int} {samples : List Int} {rest s : List Char}

/-- The numbers of a line, each behind a space. -/
def numbers (samples : List Int) : List Char := samples.flatMap fun v => ' ' :: printInt32 v

theorem mem_printInt32 (h : c ∈ printInt32 v) : c.isDigit = true ∨ c = '-' := by
  rw [printInt32] at h
  split at h
  · rcases mem_cons.mp h with rfl | h
    · exact .inr rfl
    · exact .inl (Nat.isDigit_of_mem_toDigits (by omega) (by omega) h)
  · exact .inl (Nat.isDigit_of_mem_toDigits (by omega) (by omega) h)

theorem intercalate_eq (values : List (List Char)) (v : List Char) :
    ' ' :: intercalate [' '] (v :: values) = (v :: values).flatMap (' ' :: ·) := by
  induction values generalizing v with
  | nil => simp
  | cons w values ih =>
    rw [flatMap_cons, ← ih w, intercalate_cons_cons, append_assoc, singleton_append, cons_append]

theorem dataLine_eq (hne : samples ≠ []) :
    dataLine samples = "RAW_Data:".toList ++ numbers samples ++ ['\n'] := by
  obtain ⟨v, samples, rfl⟩ := exists_cons_of_ne_nil hne
  have h := intercalate_eq (samples.map printInt32) (printInt32 v)
  rw [dataLine, writeValueLine, map_cons, numbers]
  rw [show (v :: samples).flatMap (fun v => ' ' :: printInt32 v) =
    (printInt32 v :: samples.map printInt32).flatMap (' ' :: ·) by simp [flatMap_map]]
  rw [← h]
  rfl


theorem mem_numbers (h : c ∈ numbers samples) : c.isDigit = true ∨ c = '-' ∨ c = ' ' := by
  obtain ⟨v, -, hc⟩ := mem_flatMap.mp h
  rcases mem_cons.mp hc with rfl | hc
  · exact .inr (.inr rfl)
  · rcases mem_printInt32 hc with hc | hc
    · exact .inl hc
    · exact .inr (.inl hc)

theorem notMem_numbers (hdigit : c.isDigit = false) (hminus : c ≠ '-') (hspace : c ≠ ' ') :
    c ∉ numbers samples := by
  intro hc
  rcases mem_numbers hc with h | h | h
  · exact absurd h (by simp [hdigit])
  · exact hminus h
  · exact hspace h

theorem dropWhile_of_head {p : Char → Bool} (h : ∀ c ∈ s.head?, p c = false) :
    s.dropWhile p = s := by
  cases s with
  | nil => rfl
  | cons c s => exact dropWhile_cons_of_neg (by simp [h c rfl])

theorem isBlank_of_isDigit (h : c.isDigit = true) : isBlank c = false := by
  by_contra hblank
  simp only [isBlank, Bool.not_eq_false, Bool.or_eq_true, decide_eq_true_eq] at hblank
  rcases hblank with ((rfl | rfl) | rfl) | rfl <;> cases h

theorem trim_append (hhead : ∀ c ∈ s.head?, isBlank c = false)
    (hlast : ∀ c ∈ s.getLast?, isBlank c = false) (hne : s ≠ []) : trim (s ++ ['\n']) = s := by
  have hstart : (s ++ ['\n']).dropWhile isBlank = s ++ ['\n'] := by
    refine dropWhile_of_head fun c hc => hhead c ?_
    rwa [head?_append_of_ne_nil _ hne] at hc
  have hend : s.reverse.dropWhile isBlank = s.reverse := by
    refine dropWhile_of_head fun c hc => hlast c ?_
    rwa [head?_reverse] at hc
  rw [trim, hstart, reverse_append, reverse_singleton, singleton_append,
    dropWhile_cons_of_pos (by decide), hend, reverse_reverse]

theorem getLast_numbers (samples : List Int) :
    ∀ c ∈ (numbers samples).getLast?, c.isDigit = true := by
  intro c hc
  induction samples using reverseRecOn with
  | nil => exact absurd hc (by simp [numbers])
  | append_singleton samples v =>
    obtain ⟨last, hlast, hmem⟩ : ∃ last, (printInt32 v).getLast? = some last ∧
        last ∈ Nat.toDigits 10 v.natAbs := by
      have hdigits : Nat.toDigits 10 v.natAbs ≠ [] := Nat.toDigits_ne_nil
      refine ⟨(Nat.toDigits 10 v.natAbs).getLast hdigits, ?_, getLast_mem hdigits⟩
      rw [printInt32]
      split
      · rw [getLast?_cons, getLast?_eq_some_getLast hdigits]
        rfl
      · exact getLast?_eq_some_getLast hdigits
    have hnum : numbers (samples ++ [v]) = numbers samples ++ [' '] ++ printInt32 v := by
      simp [numbers]
    rw [hnum, getLast?_append, hlast, Option.some_or] at hc
    obtain rfl := Option.some.inj hc
    exact Nat.isDigit_of_mem_toDigits (by omega) (by omega) hmem

theorem findData_line (hne : samples ≠ []) :
    findData (cstr (trim (("RAW_Data:".toList ++ numbers samples) ++ ['\n']))) =
      some (numbers samples) := by
  obtain ⟨v, samples, rfl⟩ := exists_cons_of_ne_nil hne
  have htrim := trim_append (s := "RAW_Data:".toList ++ numbers (v :: samples))
    (by
      intro c hc
      obtain rfl : 'R' = c := Option.some.inj hc
      decide)
    (by
      intro c hc
      have hnum : numbers (v :: samples) ≠ [] := by simp [numbers]
      rw [getLast?_append_of_ne_nil _ hnum] at hc
      exact isBlank_of_isDigit (getLast_numbers _ c hc))
    (by simp)
  have hcstr : cstr ("RAW_Data:".toList ++ numbers (v :: samples)) =
      "RAW_Data:".toList ++ numbers (v :: samples) := by
    refine takeWhile_eq_self_iff.mpr fun c hc => decide_eq_true ?_
    rintro rfl
    rcases mem_append.mp hc with hc | hc
    · simp at hc
    · exact notMem_numbers (by decide) (by decide) (by decide) hc
  rw [htrim, hcstr]
  have hkey : "RAW_Data: ".toList.isPrefixOf ("RAW_Data:".toList ++ numbers (v :: samples)) =
      true := by
    rw [List.isPrefixOf_iff_prefix]
    exact ⟨printInt32 v ++ numbers samples, by simp [numbers]⟩
  have hstr : strstr "RAW_Data: ".toList ("RAW_Data:".toList ++ numbers (v :: samples)) =
      some ("RAW_Data:".toList ++ numbers (v :: samples)) := if_pos hkey
  rw [findData, hstr]
  rfl

theorem loadLine_recorded {w : Worker} (hne : samples ≠ [])
    (hstream : w.stream = dataLine samples ++ rest) :
    w.loadLine = { w with stream := rest, phase := .parse (numbers samples) } := by
  have hread : readLine w.stream = (("RAW_Data:".toList ++ numbers samples) ++ ['\n'], rest) := by
    rw [hstream, dataLine_eq hne, append_assoc _ ['\n'], singleton_append]
    refine readLine_append ⟨?_, ?_⟩ <;> rw [mem_append, not_or] <;>
      exact ⟨by decide, notMem_numbers (by decide) (by decide) (by decide)⟩
  rw [Worker.loadLine, hread]
  simp only [append_ne_nil_of_right_ne_nil _ (cons_ne_nil '\n' []), if_false, findData_line hne]

theorem stops_numbers (samples : List Int) : Stops (numbers samples) := by
  intro c hc
  cases samples with
  | nil => exact absurd hc (by simp [numbers])
  | cons v samples =>
    obtain rfl : ' ' = c := by simpa [numbers] using hc
    decide

theorem next_parse {w : Worker} (hphase : w.phase = .parse (numbers (v :: samples)))
    (hv : v ≠ 0) (hmax : v.natAbs ≤ 1000000) :
    w.next = some (v, .parse (numbers samples)) := by
  have hread : strintToInt32 (numbers (v :: samples)) 10 = .ok (v, numbers samples) := by
    have hcons : numbers (v :: samples) = ' ' :: (printInt32 v ++ numbers samples) := by
      simp [numbers]
    rw [hcons]
    exact strintToInt32_printInt32 hv (Nat.le_trans hmax (by decide)) (stops_numbers samples)
  have hclamp : clamp w.isDecoding v = v := by
    have hmax' : durationMax = 1000000 := rfl
    exact if_neg (by omega)
  have hcomma : skipComma (numbers samples) = numbers samples := by
    cases samples with
    | nil => rfl
    | cons v samples => rfl
  rw [Worker.next, hphase]
  simp only [hread, hclamp, hcomma]

theorem next_parse_nil {w : Worker} (hphase : w.phase = .parse (numbers [])) : w.next = none := by
  rw [Worker.next, hphase]
  rfl

theorem notMem_intercalate {values : List (List Char)} (h : ∀ v ∈ values, '\n' ∉ v) :
    '\n' ∉ intercalate [' '] values := by
  cases values with
  | nil => exact not_mem_nil
  | cons v values =>
    intro hmem
    have hcons := mem_cons_of_mem ' ' hmem
    rw [intercalate_eq] at hcons
    obtain ⟨w, hw, hc⟩ := mem_flatMap.mp hcons
    rcases mem_cons.mp hc with hc | hc
    · cases hc
    · exact h w hw hc

theorem notMem_printUint32 (n : Nat) : '\n' ∉ printUint32 n := fun h =>
  absurd (Nat.isDigit_of_mem_toDigits (by omega) (by omega) h) (by decide)

theorem upperHexDigit_ne : ∀ n < 16, '\n' ≠ Raw.upperHexDigit n := by decide

theorem notMem_printHex (b : UInt8) : '\n' ∉ Raw.printHex b := by
  have hb := b.toNat_lt
  rw [Raw.printHex, mem_cons, mem_singleton, not_or]
  exact ⟨upperHexDigit_ne _ (by omega), upperHexDigit_ne _ (by omega)⟩

theorem notMem_presetName (name : List Char) : '\n' ∉ Raw.presetName name := by
  unfold Raw.presetName
  repeat' split
  all_goals decide

theorem plainLine {k : List Char} (values : List (List Char))
    (hk : IsKey k ∧ k ≠ "Protocol".toList) (hvalues : ∀ v ∈ values, '\n' ∉ v) :
    IsKey k ∧ k ≠ "Protocol".toList ∧ '\n' ∉ intercalate [' '] values :=
  ⟨hk.1, hk.2, notMem_intercalate hvalues⟩

theorem presetLines_keys (preset : Raw.Preset) :
    ∀ l ∈ presetLines preset, IsKey l.1 ∧ l.1 ≠ "Protocol".toList ∧
      '\n' ∉ intercalate [' '] l.2 := by
  have hone {v : List Char} (h : '\n' ∉ v) : ∀ w ∈ [v], '\n' ∉ w := by simpa using h
  have hpreset : IsKey "Preset".toList ∧ "Preset".toList ≠ "Protocol".toList := by decide
  have hfrequency : IsKey "Frequency".toList ∧ "Frequency".toList ≠ "Protocol".toList := by decide
  have hdata : IsKey "Custom_preset_data".toList ∧
      "Custom_preset_data".toList ≠ "Protocol".toList := by decide
  intro l hl
  rw [presetLines, mem_append] at hl
  rcases hl with hl | hl
  · simp only [mem_cons, not_mem_nil, or_false] at hl
    rcases hl with rfl | rfl | rfl | rfl
    · exact plainLine _ (by decide) (hone (by decide))
    · exact plainLine _ (by decide) (hone (notMem_printUint32 _))
    · exact plainLine _ hfrequency (hone (notMem_printUint32 _))
    · exact plainLine _ hpreset (hone (notMem_presetName _))
  · split at hl
    · simp only [mem_cons, not_mem_nil, or_false] at hl
      rcases hl with rfl | rfl
      · exact plainLine _ (by decide) (hone (by decide))
      · refine plainLine _ hdata fun v hv => ?_
        obtain ⟨b, -, rfl⟩ := mem_map.mp hv
        exact notMem_printHex b
    · exact absurd hl not_mem_nil

theorem start_header (preset : Raw.Preset) (text : List Char) (isDecoding : Bool) :
    Worker.start (header preset ++ text) isDecoding =
      ⟨text, .line, [], [], false, false, isDecoding⟩ := by
  have hread := readString_lines (presetLines preset) (presetLines_keys preset)
    (by decide : IsKey "Protocol".toList)
    (by decide : '\n' ∉ "RAW".toList ∧ '\r' ∉ "RAW".toList) (by decide) text
  rw [Worker.start, header, append_assoc, hread]
  rfl

structure Lines (lines : List (List Pulse)) : Prop where
  lengths : ∀ line ∈ lines, line ≠ [] ∧ line.length ≤ downloadMaxSize
  ranges : ∀ p ∈ lines.flatten, Raw.teShort < p.duration ∧ p.duration < Raw.durationLimit

/-- What the thread is still going to send, and that there is space for what it sends before it
looks for space again. -/
inductive Pending : Worker → List Int → Prop
  | line {w : Worker} {lines : List (List Pulse)} (hlines : Lines lines) (hphase : w.phase = .line)
      (hstream : w.stream = lines.flatMap recordedLine) :
      Pending w (lines.flatten.map sampleOf ++ [0])
  | parse {w : Worker} {line : List Pulse} {lines : List (List Pulse)} (hlines : Lines lines)
      (hline : ∀ p ∈ line, Raw.teShort < p.duration ∧ p.duration < Raw.durationLimit)
      (hphase : w.phase = .parse (numbers (line.map sampleOf)))
      (hstream : w.stream = lines.flatMap recordedLine)
      (hspace : w.queue.length + line.length ≤ capacity) :
      Pending w (line.map sampleOf ++ (lines.flatten.map sampleOf ++ [0]))
  | stop {w : Worker} (hphase : w.phase = .stop) (hspace : w.queue.length < capacity) :
      Pending w [0]
  | ended {w : Worker} (hphase : w.phase = .ended) : Pending w []

/-- What has been taken, what is in the buffer and what is still to be sent make up the whole. -/
def Replaying (expected : List LevelDuration) (w : Worker) : Prop :=
  ∃ unsent, Pending w unsent ∧ w.yielded ++ (w.queue ++ unsent).map levelDuration = expected

/-- Everything has been sent and taken. -/
def Replayed (expected : List LevelDuration) (w : Worker) : Prop :=
  w.phase = .ended ∧ w.queue = [] ∧ w.yielded = expected

/-- How much there is still to do. -/
def weight : Phase → Nat
  | .line => 3
  | .parse str => 2 * str.length + 4
  | .stop => 2
  | .ended => 0

def remaining (w : Worker) : Nat := 2 * w.stream.length + weight w.phase + w.queue.length

variable {w w' : Worker} {ev : Event} {expected : List LevelDuration} {unsent : List Int}

theorem sampleOf_bounds {p : Pulse}
    (h : Raw.teShort < p.duration ∧ p.duration < Raw.durationLimit) :
    sampleOf p ≠ 0 ∧ (sampleOf p).natAbs ≤ 1000000 := by
  have hshort : Raw.teShort = 50 := rfl
  have hlimit : Raw.durationLimit = 1000000 := rfl
  rw [sampleOf, Raw.Decoder.sample]
  split <;> omega

theorem levelDuration_sampleOf {p : Pulse}
    (h : Raw.teShort < p.duration ∧ p.duration < Raw.durationLimit) :
    levelDuration (sampleOf p) = .make p.level p.duration := by
  have hshort : Raw.teShort = 50 := rfl
  have hlimit : Raw.durationLimit = 1000000 := rfl
  obtain ⟨level, duration⟩ := p
  dsimp only at h
  cases level with
  | true =>
    have hpos : (0 : Int) < duration := by omega
    have hneg : ¬ (duration : Int) < 0 := by omega
    simp only [sampleOf, Raw.Decoder.sample, if_true, levelDuration, if_neg hneg, if_pos hpos]
    congr 1
    omega
  | false =>
    have hneg : (-(duration : Int)) < 0 := by omega
    simp only [sampleOf, Raw.Decoder.sample, Bool.false_eq_true, if_false, levelDuration,
      if_pos hneg]
    congr 1
    omega

theorem Pending.of_fields (h : Pending w unsent) (hphase : w'.phase = w.phase)
    (hstream : w'.stream = w.stream) (hqueue : w'.queue.length ≤ w.queue.length) :
    Pending w' unsent := by
  cases h with
  | line hlines hp hs => exact .line hlines (hphase.trans hp) (hstream.trans hs)
  | parse hlines hline hp hs hspace =>
    exact .parse hlines hline (hphase.trans hp) (hstream.trans hs) (by omega)
  | stop hp hspace => exact .stop (hphase.trans hp) (by omega)
  | ended hp => exact .ended (hphase.trans hp)

theorem Pending.next (h : Pending w unsent) :
    (∃ duration phase unsent', w.next = some (duration, phase) ∧ w.queue.length < capacity ∧
      unsent = duration :: unsent' ∧ weight phase + 1 < weight w.phase ∧
      Pending { w.addLevelDuration duration with phase } unsent') ∨
    w.next = none := by
  cases h with
  | line hlines hphase hstream =>
    refine .inr ?_
    rw [Worker.next, hphase]
  | @parse line lines hlines hline hphase hstream hspace =>
    cases line with
    | nil => exact .inr (next_parse_nil hphase)
    | cons p line =>
      obtain ⟨hp, hline⟩ := forall_mem_cons.mp hline
      obtain ⟨hne, hmax⟩ := sampleOf_bounds hp
      rw [length_cons] at hspace
      refine .inl ⟨_, _, _, next_parse hphase hne hmax, by omega, rfl, ?_,
        .parse hlines hline rfl hstream ?_⟩
      · rw [hphase]
        simp [weight, numbers]
        omega
      · rw [Worker.addLevelDuration, length_append, length_singleton]
        omega
  | stop hphase hspace =>
    refine .inl ⟨0, .ended, [], ?_, hspace, rfl, ?_, .ended rfl⟩
    · rw [Worker.next, hphase]
    · rw [hphase]
      decide
  | ended hphase =>
    refine .inr ?_
    rw [Worker.next, hphase]

/-- Loading a line moves its durations from the file to the buffer, and none are lost. -/
theorem Pending.load (h : Pending w unsent) (hphase : w.phase = .line)
    (hspace : encoderLoad ≤ w.spacesAvailable) :
    Pending w.loadLine unsent ∧ w.loadLine.yielded = w.yielded ∧ w.loadLine.queue = w.queue ∧
      remaining w.loadLine < remaining w := by
  have hload : encoderLoad = 512 := rfl
  have hcap : capacity = 2048 := rfl
  rw [Worker.spacesAvailable] at hspace
  cases h with
  | @line lines hlines _ hstream =>
    cases lines with
    | nil =>
      have hstop : w.loadLine = { w with stream := [], phase := .stop } := by
        rw [Worker.loadLine, hstream]
        rfl
      rw [hstop]
      refine ⟨.stop rfl (by dsimp only; omega), rfl, rfl, ?_⟩
      rw [remaining, remaining, hphase]
      simp only [weight, length_nil]
      omega
    | cons line lines =>
      obtain ⟨⟨hne, hlen⟩, hlengths⟩ := forall_mem_cons.mp hlines.lengths
      have hranges := hlines.ranges
      rw [flatten_cons] at hranges
      obtain ⟨hline, hranges⟩ := forall_mem_append.mp hranges
      have hmap : line.map sampleOf ≠ [] := fun h => hne (map_eq_nil_iff.mp h)
      rw [flatMap_cons] at hstream
      have hsize : downloadMaxSize = 512 := rfl
      have hlength : w.stream.length =
          (numbers (line.map sampleOf)).length + 10 + (lines.flatMap recordedLine).length := by
        rw [hstream, recordedLine, dataLine_eq hmap]
        simp only [length_append, length_singleton, String.length_toList]
        have hkey : "RAW_Data:".length = 9 := by decide
        omega
      rw [loadLine_recorded hmap hstream, flatten_cons, map_append, append_assoc]
      refine ⟨.parse ⟨hlengths, hranges⟩ hline rfl rfl (by dsimp only; omega), rfl, rfl, ?_⟩
      rw [remaining, remaining, hphase, hlength]
      simp only [weight]
      omega
  | parse _ _ hp => cases hp.symm.trans hphase
  | stop hp => cases hp.symm.trans hphase
  | ended hp => cases hp.symm.trans hphase

theorem Pending.endLine {str : List Char} (h : Pending w unsent) (hphase : w.phase = .parse str)
    (hnext : w.next = none) : Pending { w with phase := .line } unsent := by
  cases h with
  | line _ hp => cases hp.symm.trans hphase
  | @parse line lines hlines hline hp hstream =>
    cases line with
    | nil => exact .line hlines rfl hstream
    | cons p line =>
      obtain ⟨hp', -⟩ := forall_mem_cons.mp hline
      obtain ⟨hne, hmax⟩ := sampleOf_bounds hp'
      exact absurd ((next_parse hp hne hmax).symm.trans hnext) (by simp)
  | stop hp => cases hp.symm.trans hphase
  | ended hp => cases hp.symm.trans hphase

theorem Replaying.worker (h : Replaying expected w) (hs : machine.step w .worker = some w') :
    Replaying expected w' ∧ remaining w' < remaining w := by
  obtain ⟨unsent, hpending, heq⟩ := h
  rcases hpending.next with ⟨duration, phase, unsent', hnext, hspace, rfl, hweight, hpending'⟩ |
    hnext
  · simp only [machine, hnext, if_pos hspace] at hs
    obtain rfl := Option.some.inj hs
    refine ⟨⟨unsent', hpending', ?_⟩, ?_⟩
    · rw [← heq]
      simp [Worker.addLevelDuration]
    · simp only [remaining, Worker.addLevelDuration, length_append, length_singleton]
      omega
  · simp only [machine, hnext] at hs
    cases hphase : w.phase with
    | line =>
      simp only [hphase] at hs
      obtain ⟨hspace, hs⟩ := Option.ite_none_right_eq_some.mp hs
      obtain rfl := Option.some.inj hs
      obtain ⟨hload, hyielded, hqueue, hlt⟩ := hpending.load hphase hspace
      exact ⟨⟨unsent, hload, by rw [hyielded, hqueue, heq]⟩, hlt⟩
    | parse str =>
      simp only [hphase] at hs
      obtain rfl := Option.some.inj hs
      refine ⟨⟨unsent, hpending.endLine hphase hnext, heq⟩, ?_⟩
      rw [remaining, remaining, hphase]
      simp only [weight]
      omega
    | stop => simp [hphase] at hs
    | ended => simp [hphase] at hs

theorem Replaying.step (h : Replaying expected w) (hs : machine.step w ev = some w') :
    Replaying expected w' ∧ (ev.Progress → remaining w' < remaining w) := by
  cases ev with
  | worker =>
    obtain ⟨hstep, hlt⟩ := h.worker hs
    exact ⟨hstep, fun _ => hlt⟩
  | giveUp =>
    -- there is space for what is sent
    obtain ⟨unsent, hpending, -⟩ := h
    rcases hpending.next with ⟨duration, phase, unsent', hnext, hspace, -⟩ | hnext
    · simp [machine, hnext, hspace] at hs
    · simp [machine, hnext] at hs
  | delay =>
    obtain ⟨-, hs⟩ := Option.ite_none_right_eq_some.mp hs
    obtain rfl := Option.some.inj hs
    exact ⟨h, fun hp => absurd hp id⟩
  | getLevelDuration =>
    obtain ⟨unsent, hpending, heq⟩ := h
    cases hqueue : w.queue with
    | nil => simp [machine, hqueue] at hs
    | cons duration queue =>
      simp only [machine, hqueue] at hs
      obtain rfl := Option.some.inj hs
      refine ⟨⟨unsent, hpending.of_fields rfl rfl (by simp [hqueue]), ?_⟩, fun _ => ?_⟩
      · rw [← heq, hqueue]
        simp
      · simp only [remaining, hqueue, length_cons]
        omega
  | wait =>
    obtain ⟨unsent, hpending, heq⟩ := h
    obtain ⟨-, hs⟩ := Option.ite_none_right_eq_some.mp hs
    obtain rfl := Option.some.inj hs
    exact ⟨⟨unsent, hpending.of_fields rfl rfl (Nat.le_refl _), heq⟩, fun hp => absurd hp id⟩

theorem Replaying.enabled (h : Replaying expected w) :
    Replayed expected w ∨ ∃ ev w', ev.Progress ∧ machine.step w ev = some w' := by
  obtain ⟨unsent, hpending, heq⟩ := h
  cases hqueue : w.queue with
  | cons duration queue =>
    exact .inr ⟨.getLevelDuration, _, trivial, by simp only [machine, hqueue]; rfl⟩
  | nil =>
    rcases hpending.next with ⟨duration, phase, unsent', hnext, hspace, -⟩ | hnext
    · exact .inr ⟨.worker, _, trivial, by simp only [machine, hnext, if_pos hspace]; rfl⟩
    · cases hphase : w.phase with
      | line =>
        have hspace : encoderLoad ≤ w.spacesAvailable := by
          rw [Worker.spacesAvailable, hqueue]
          decide
        exact .inr ⟨.worker, _, trivial, by
          simp only [machine, hnext, hphase, if_pos hspace]; rfl⟩
      | parse str => exact .inr ⟨.worker, _, trivial, by
          simp only [machine, hnext, hphase]; rfl⟩
      | stop =>
        rw [Worker.next, hphase] at hnext
        exact absurd hnext (by simp)
      | ended =>
        refine .inl ⟨hphase, hqueue, ?_⟩
        cases hpending with
        | line _ hp => cases hp.symm.trans hphase
        | parse _ _ hp => cases hp.symm.trans hphase
        | stop hp => cases hp.symm.trans hphase
        | ended =>
          rw [← heq, hqueue]
          simp

theorem replaying_start {lines : List (List Pulse)} (hlines : Lines lines) (preset : Raw.Preset)
    (isDecoding : Bool) :
    Replaying (lines.flatten.map (fun p => .make p.level p.duration) ++ [.reset])
      (Worker.start (header preset ++ lines.flatMap recordedLine) isDecoding) := by
  rw [start_header]
  refine ⟨_, .line hlines rfl rfl, ?_⟩
  rw [nil_append, nil_append, map_append, map_map]
  refine congrArg₂ _ (map_congr_left fun p hp => ?_) rfl
  exact levelDuration_sampleOf (hlines.ranges p hp)

theorem replays {evs : List Event} (h : Replaying expected w) (hrun : machine.run w evs = some w') :
    w'.yielded <+: expected ∧ machine.Inevitable Event.Progress (Replayed expected) w' := by
  have hend : Replaying expected w' := machine.run_invariant
    (fun _ _ _ hI hs => (Replaying.step hI hs).1) h hrun
  obtain ⟨unsent, -, heq⟩ := id hend
  refine ⟨⟨_, heq⟩, ?_⟩
  exact Machine.inevitable_of_measure (I := Replaying expected) Nat.lt_wfRel.wf remaining
    (fun _ hI => hI.enabled) (fun _ _ _ hI hp hs => ⟨(hI.step hs).1, (hI.step hs).2 hp⟩) hend

/-- What the encoder is to yield for pulses: a level for each, then a reset. -/
def levels (pulses : List Pulse) : List LevelDuration :=
  pulses.map (fun p => .make p.level p.duration) ++ [.reset]

theorem recorded_replaying {before body : List Raw.Event} {preset : Raw.Preset}
    {failed : Option Nat} {r : Raw.Recorder} (hbody : ∀ ev ∈ body, ev.OfRecording)
    (hclean : Raw.machine.Meets Raw.Clean Raw.alloc
      (before ++ .saveToFileInit preset none :: (body ++ [.saveToFileStop failed])))
    (hrun : Raw.machine.run Raw.alloc
      (before ++ .saveToFileInit preset none :: (body ++ [.saveToFileStop failed])) = some r)
    (isDecoding : Bool) :
    Replaying (levels (accepted false false body)) (Worker.start r.file isDecoding) := by
  obtain ⟨lines, hfile, hflat, hlengths, hranges⟩ := Raw.recorded hbody hclean hrun
  rw [hfile, levels, ← hflat]
  exact replaying_start ⟨hlengths, hranges⟩ preset isDecoding

/-- The samples stay in the buffer exactly if none is accepted while it is full. A recording without
failed writes, and without samples in the buffer at a reset, is replayed as the accepted pulses and a
reset, however the steps of thread and encoder interleave. -/
theorem recording_replays {evs : List Raw.Event} {r : Raw.Recorder}
    (hrun : Raw.machine.run Raw.alloc evs = some r) :
    (Raw.machine.Meets Raw.Roomy Raw.alloc evs ↔
      ∀ pre u, pre <+: evs → Raw.machine.run Raw.alloc pre = some u → Raw.Bounded u) ∧
    ∀ before preset body failed,
      evs = before ++ .saveToFileInit preset none :: (body ++ [.saveToFileStop failed]) →
      (∀ ev ∈ body, ev.OfRecording) → Raw.machine.Meets Raw.Clean Raw.alloc evs →
      ∀ isDecoding steps w, machine.run (Worker.start r.file isDecoding) steps = some w →
        w.yielded <+: levels (accepted false false body) ∧
        machine.Inevitable Event.Progress (Replayed (levels (accepted false false body))) w := by
  refine ⟨Raw.bounded_iff hrun, ?_⟩
  rintro before preset body failed rfl hbody hclean isDecoding steps w hw
  exact replays (recorded_replaying hbody hclean hrun isDecoding) hw

def samplePreset : Raw.Preset := ⟨"AM650".toList, 433920000, []⟩

/-- Two pulses, a pulse that is too short and one while the recording is paused. -/
def sampleBody : List Raw.Event :=
  [.feed true 100 none, .feed false 50 none, .feed false 200 none, .pause true, .feed true 300 none]

def sampleEvents : List Raw.Event :=
  [] ++ .saveToFileInit samplePreset none :: (sampleBody ++ [.saveToFileStop none])

def sampleRecorder : Raw.Recorder := ((Raw.machine.run Raw.alloc sampleEvents).getD Raw.alloc)

theorem recording_replays_sample :
    (∀ pre u, pre <+: sampleEvents → Raw.machine.run Raw.alloc pre = some u → Raw.Bounded u) ∧
    machine.Inevitable Event.Progress
      (Replayed [.make true 100, .make false 200, .reset]) (Worker.start sampleRecorder.file false) :=
  have hrun : Raw.machine.run Raw.alloc sampleEvents = some sampleRecorder := rfl
  have hroomy : Raw.machine.Meets Raw.Roomy Raw.alloc sampleEvents := by decide
  have hclean : Raw.machine.Meets Raw.Clean Raw.alloc sampleEvents := by decide
  ⟨(recording_replays hrun).1.mp hroomy,
    ((recording_replays hrun).2 [] samplePreset sampleBody none rfl (by decide) hclean
      false [] _ rfl).2⟩

/-- Samples that fill the buffer, the last of which finds that the file cannot be written. -/
def fillingEvents : List Raw.Event :=
  .saveToFileInit samplePreset none :: (range 512).map fun i => .feed (i % 2 == 0) 100 (some 0)

/-- Another sample. -/
def overflowEvents : List Raw.Event := fillingEvents ++ [.feed true 100 none]

/-- A sample that is still in the buffer when the decoder is reset. -/
def resetBody : List Raw.Event := [.feed true 100 none, .reset]

def resetEvents : List Raw.Event :=
  .saveToFileInit samplePreset none :: (resetBody ++ [.saveToFileStop none])

def resetRecorder : Raw.Recorder := ((Raw.machine.run Raw.alloc resetEvents).getD Raw.alloc)

/-- A failed write is followed by a store behind the end of the buffer; and a reset loses the samples
of the buffer. -/
theorem recording_loses :
    (∃ u, Raw.machine.run Raw.alloc overflowEvents = some u ∧ ¬ Raw.Bounded u) ∧
    Raw.machine.run Raw.alloc resetEvents = some resetRecorder ∧
      machine.Inevitable Event.Progress (Replayed [.reset])
        (Worker.start resetRecorder.file false) ∧
      levels (accepted false false resetBody) = [.make true 100, .reset] := by
  refine ⟨?_, rfl, ?_, rfl⟩
  · have hrun : (Raw.machine.run Raw.alloc overflowEvents).map (·.decoder.indWrite) = some 513 := by
      decide +kernel
    obtain ⟨u, hu, hind⟩ := Option.map_eq_some_iff.mp hrun
    refine ⟨u, hu, ?_⟩
    rw [Raw.Bounded, hind]
    decide
  · have hlines : Lines [] := ⟨by decide, by decide⟩
    have hstart : Replaying [.reset] (Worker.start resetRecorder.file false) :=
      replaying_start hlines samplePreset false
    exact (replays hstart (machine.run_nil _)).2

end NikitaFirmware.SubGhz.FileEncoderWorker
