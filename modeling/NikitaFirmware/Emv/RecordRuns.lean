import NikitaFirmware.Emv.LogRecord
import NikitaFirmware.Nfc.PollerBlocks

/-!
# Reading records

`emv_poller_read_afl` and `emv_poller_read_log_entry` in `lib/nfc/protocols/emv/emv_poller_i.c`. What
the card answers may depend on everything that it has been sent. The counter of the records has eight
bits; a loop that has not come to its end after all its values is not followed any further.
-/

namespace NikitaFirmware.Emv
open Foundations List

inductive EmvError
  | none
  | notPresent
  | protocol
  | timeout
  deriving DecidableEq

def processError : Option Nfc.Error4a → EmvError
  | none => .none
  | some .notPresent => .notPresent
  | some .timeout => .timeout
  | some .protocol | some .sendExtra => .protocol

/-- What a card answers to the last of the commands that it has been sent. -/
abbrev Card := List Bytes → Option Nfc.Error4a × Bytes

/-- `EmvPoller`, with the commands that have been sent. -/
structure EmvPoller where
  app : EmvApplication
  rx : Bytes
  rxSize : Nat
  recordsMask : UInt16
  sent : List Bytes

/-- A record that is asked for, and by how much a one is shifted to mark it. -/
structure RecordRead where
  sfi : UInt8
  record : UInt8
  shift : Option Int

/-- Why no more records of a file are asked for. -/
inductive Stop
  | last
  | error
  | pan
  | full
  deriving DecidableEq

/-- What the body of a loop does with a record, and why the loop ends there, if it does. -/
structure Visit where
  read : RecordRead
  stop : Option Stop
  error : EmvError
  poller : EmvPoller

structure FileRun where
  reads : List RecordRead
  stop : Stop
  error : EmvError
  poller : EmvPoller

/-- An entry of the file locator: where it stands, and the locator that it has been read from. -/
structure AflEntry where
  afl : Apdu
  index : Nat

namespace AflEntry
variable (e : AflEntry)

def byte (k : Nat) : UInt8 := e.afl.data.cells.getD (e.index + k) 0

def sfi : UInt8 := e.byte 0 >>> 3
def recordStart : UInt8 := e.byte 1
def recordEnd : UInt8 := e.byte 2

end AflEntry

/-- An entry, and how its file has been gone through, if that has come to an end. -/
structure EntryRun where
  entry : AflEntry
  run : Option FileRun

/-- How all entries have been gone through. -/
structure AflRun where
  entries : List EntryRun
  error : EmvError
  panFetched : Bool
  poller : EmvPoller

section Run
variable (card : Card)

/-- The bytes that stand behind the received data. -/
def EmvPoller.memory (p : EmvPoller) (k : Nat) : UInt8 := p.rx.getD k 0

/-- A command goes out, and the answer is received. -/
def EmvPoller.send (p : EmvPoller) (command : Bytes) : EmvError × EmvPoller :=
  let answer := card (p.sent ++ [command])
  (processError answer.1, { p with
    rx := answer.2 ++ p.rx.drop answer.2.length
    rxSize := answer.2.length
    sent := p.sent ++ [command] })

def EmvPoller.readSfiRecord (p : EmvPoller) (sfi record : UInt8) : EmvError × EmvPoller :=
  p.send card [0x00, 0xB2, record, sfi <<< 3 ||| (1 : UInt8) <<< 2, 0x00]

/-- The answer is decoded; a failure leaves an error that the next record replaces. -/
def EmvPoller.decodeAnswer (p : EmvPoller) : EmvError × EmvPoller :=
  let walk := decodeResponseTlv p.memory (UInt8.ofNat p.rxSize) p.app
  (if walk.success then .none else .protocol, { p with app := walk.app.getD p.app })

def maskShift (sfi record : UInt8) : Int := record.toNat + ((sfi.toNat : Int) - 2) * 8

/-- The record is marked as read, which is done for some files only. What a shift by a negative
amount gives C leaves open; here it marks nothing. -/
def EmvPoller.mark (p : EmvPoller) (sfi record : UInt8) : Option Int × EmvPoller :=
  if sfi ≤ 3 ∧ record ≤ 5 then
    let shift := maskShift sfi record
    (some shift, { p with
      recordsMask := p.recordsMask ||| if 0 ≤ shift then UInt16.ofNat (1 <<< shift.toNat) else 0 })
  else (none, p)

/-- The body of the loop of `emv_poller_read_afl` over the records of a file. -/
def visitAfl (sfi : UInt8) (p : EmvPoller) (record : UInt8) : Visit :=
  let marked := p.mark sfi record
  let answer := marked.2.readSfiRecord card sfi record
  if answer.1 ≠ .none then ⟨⟨sfi, record, marked.1⟩, some .error, answer.1, answer.2⟩
  else
    let decoded := answer.2.decodeAnswer
    ⟨⟨sfi, record, marked.1⟩, if decoded.2.app.panLen ≠ 0 then some .pan else none, decoded.1,
      decoded.2⟩

/-- The body of the loop with brute force, for a record that is not skipped. -/
def visitBrute (sfi : UInt8) (p : EmvPoller) (record : UInt8) : Visit :=
  let answer := p.readSfiRecord card sfi record
  let read : RecordRead := ⟨sfi, record, some (maskShift sfi record)⟩
  if answer.1 ≠ .none then ⟨read, some .error, answer.1, answer.2⟩
  else ⟨read, none, answer.2.decodeAnswer.1, answer.2.decodeAnswer.2⟩

def EmvPoller.decodeRecord (p : EmvPoller) : Bool × EmvPoller :=
  let walk := decodeTl p.memory p.rxSize p.app
  (walk.success, { p with app := walk.app.getD p.app })

def EmvPoller.nextTransaction (p : EmvPoller) : EmvPoller :=
  { p with app := { p.app with activeTr := p.app.activeTr + 1 } }

/-- The body of the loop of `emv_poller_read_log_entry`. There is room for 16 transactions. -/
def visitLog (sfi : UInt8) (p : EmvPoller) (record : UInt8) : Visit :=
  let answer := p.readSfiRecord card sfi record
  let read : RecordRead := ⟨sfi, record, none⟩
  if answer.1 ≠ .none then ⟨read, some .error, answer.1, answer.2⟩
  else
    let decoded := answer.2.decodeRecord
    if !decoded.1 then ⟨read, some .error, .protocol, decoded.2⟩
    else
      let p := decoded.2.nextTransaction
      ⟨read, if 16 ≤ p.app.activeTr then some .full else none, .none, p⟩

def FileRun.behind (read : RecordRead) (run : FileRun) : FileRun :=
  { run with reads := read :: run.reads }

/-- A loop over the records up to the last one, with a counter of eight bits. -/
def recordLoop (body : EmvPoller → UInt8 → Visit) (last : UInt8) :
    Nat → UInt8 → EmvError → EmvPoller → Option FileRun
  | 0, _, _, _ => none
  | fuel + 1, record, error, p =>
    if record ≤ last then
      let visit := body p record
      match visit.stop with
      | some stop => some ⟨[visit.read], stop, visit.error, visit.poller⟩
      | none =>
        (recordLoop body last fuel (record + 1) visit.error visit.poller).map (.behind visit.read)
    else some ⟨[], .last, error, p⟩

/-- The values of the counter. -/
def recordFuel : Nat := 256

def entryLoop (entry : AflEntry) (error : EmvError) (p : EmvPoller) : Option FileRun :=
  recordLoop (visitAfl card entry.sfi) entry.recordEnd recordFuel entry.recordStart error p

/-- The loop of `emv_poller_read_afl` over the entries. It is followed up to an entry
that does not end. -/
def aflLoop : Nat → Nat → EmvError → Bool → EmvPoller → AflRun
  | 0, _, error, panFetched, p => ⟨[], error, panFetched, p⟩
  | fuel + 1, i, error, panFetched, p =>
    if i < p.app.afl.size.toNat then
      match entryLoop card ⟨p.app.afl, i⟩ error p with
      | none => ⟨[⟨⟨p.app.afl, i⟩, none⟩], error, panFetched, p⟩
      | some run =>
        if panFetched || run.stop == .pan then
          ⟨[⟨⟨p.app.afl, i⟩, some run⟩], run.error, true, run.poller⟩
        else
          let rest := aflLoop fuel (i + 4) run.error panFetched run.poller
          { rest with entries := ⟨⟨p.app.afl, i⟩, some run⟩ :: rest.entries }
    else ⟨[], error, panFetched, p⟩

/-- `emv_poller_read_afl` without brute force. There are at most 64 entries. -/
def readAfl (p : EmvPoller) : AflRun :=
  aflLoop card 64 0 .none (decide (p.app.panLen ≠ 0)) p

/-- The records of a file that `emv_poller_read_afl` tries with brute force. -/
def bruteLoop (sfi : UInt8) : List UInt8 → EmvError → EmvPoller → FileRun
  | [], error, p => ⟨[], .last, error, p⟩
  | record :: records, error, p =>
    let shift := maskShift sfi record
    if (p.recordsMask.toNat >>> shift.toNat) % 2 = 1 then bruteLoop sfi records error p
    else
      let visit := visitBrute card sfi p record
      match visit.stop with
      | some stop => ⟨[visit.read], stop, visit.error, visit.poller⟩
      | none => (bruteLoop sfi records visit.error visit.poller).behind visit.read

/-- The files 2 and 3 are tried. -/
def readBrute (p : EmvPoller) : FileRun × FileRun :=
  let second := bruteLoop card 2 [1, 2, 3, 4, 5] .none p
  (second, bruteLoop card 3 [1, 2, 3, 4, 5] second.error second.poller)

def EmvPoller.saving (p : EmvPoller) (on : Bool) : EmvPoller :=
  { p with app := { p.app with savingTransList := on } }

/-- `emv_poller_get_log_format`. -/
def EmvPoller.getLogFormat (p : EmvPoller) : EmvError × EmvPoller :=
  let answer := p.send card [0x80, 0xCA, 0x9F, 0x4F, 0x00]
  if answer.1 ≠ .none then answer else answer.2.decodeAnswer

def logLoop (p : EmvPoller) (records : UInt8) : Option FileRun :=
  recordLoop (visitLog card p.app.logSfi) records recordFuel 1 .none p

/-- `emv_poller_read_log_entry`. -/
def readLogEntry (p : EmvPoller) : Option FileRun :=
  if p.app.logSfi = 0 ∨ p.app.logRecords = 0 then some ⟨[], .error, .protocol, p⟩
  else
    let format := (p.saving true).getLogFormat card
    if format.1 ≠ .none then some ⟨[], .error, format.1, format.2⟩
    else
      (logLoop card format.2 p.app.logRecords).map fun run =>
        { run with poller := run.poller.saving false }

/-- The records that are asked for are a number of them from the first one on, each once. -/
def Asked (sfi : UInt8) (first count : Nat) (reads : List RecordRead) : Prop :=
  (reads.map fun read => (read.sfi, read.record.toNat)) =
    (List.range count).map fun j => (sfi, first + j)

instance (sfi : UInt8) (first count : Nat) (reads : List RecordRead) :
    Decidable (Asked sfi first count reads) :=
  inferInstanceAs (Decidable (_ = _))

theorem Asked.nil (sfi : UInt8) (first : Nat) : Asked sfi first 0 [] := rfl

theorem Asked.cons {sfi : UInt8} {first count : Nat} {reads : List RecordRead} {read : RecordRead}
    (hsfi : read.sfi = sfi) (hfirst : read.record.toNat = first)
    (h : Asked sfi (first + 1) count reads) : Asked sfi first (count + 1) (read :: reads) := by
  rw [Asked, map_cons, h, range_succ_eq_map, map_cons, map_map, hsfi, hfirst]
  refine congrArg (_ :: ·) (map_congr_left fun j _ => ?_)
  rw [Function.comp_apply, Nat.succ_eq_add_one]
  congr 1
  omega

def ShiftsWithin (reads : List RecordRead) : Prop :=
  ∀ read ∈ reads, ∀ shift, read.shift = some shift → 0 ≤ shift ∧ shift ≤ 31

/-- The records of a file are asked for from the first to the last one, or up to the one at which
the loop ends before. -/
def GoneThrough (sfi first last : UInt8) (run : FileRun) : Prop :=
  ∃ count, Asked sfi first.toNat count run.reads ∧
    (run.stop = .last → count = last.toNat + 1 - first.toNat) ∧
    (run.stop ≠ .last → 0 < count ∧ first.toNat + count ≤ last.toNat + 1)

/-- Records are visited in turn: each is asked for from the poller that the one before it has left,
and the first one whose body ends the loop is the last. -/
inductive Visited (body : EmvPoller → UInt8 → Visit) : EmvError → EmvPoller → FileRun → Prop
  | all (error : EmvError) (p : EmvPoller) : Visited body error p ⟨[], .last, error, p⟩
  | ends {error : EmvError} {p : EmvPoller} {record : UInt8} {stop : Stop}
      (h : (body p record).stop = some stop) : Visited body error p
        ⟨[(body p record).read], stop, (body p record).error, (body p record).poller⟩
  | next {error : EmvError} {p : EmvPoller} {record : UInt8} {run : FileRun}
      (h : (body p record).stop = none)
      (rest : Visited body (body p record).error (body p record).poller run) :
      Visited body error p (run.behind (body p record).read)

/-- A body asks for the record it is given, and does not say that this was the last one. -/
structure Asks (sfi : UInt8) (body : EmvPoller → UInt8 → Visit) : Prop where
  sfi (p : EmvPoller) (record : UInt8) : (body p record).read.sfi = sfi
  record (p : EmvPoller) (record : UInt8) : (body p record).read.record = record
  stop (p : EmvPoller) (record : UInt8) : (body p record).stop ≠ some .last

theorem mark_shift (p : EmvPoller) {sfi : UInt8} (record : UInt8) (h : 2 ≤ sfi) (shift : Int)
    (hshift : (p.mark sfi record).1 = some shift) : 0 ≤ shift ∧ shift ≤ 31 := by
  rw [EmvPoller.mark] at hshift
  split at hshift
  next hin =>
    have hsfi := UInt8.le_iff_toNat_le.mp hin.1
    have hrecord := UInt8.le_iff_toNat_le.mp hin.2
    have hlow := UInt8.le_iff_toNat_le.mp h
    change sfi.toNat ≤ 3 at hsfi
    change record.toNat ≤ 5 at hrecord
    change 2 ≤ sfi.toNat at hlow
    have heq := Option.some.inj hshift
    rw [maskShift] at heq
    omega
  next => exact absurd hshift.symm (Option.some_ne_none _)

theorem toNat_add_one {record last : UInt8} (hle : record ≤ last) (hlast : last ≠ 255) :
    (record + 1).toNat = record.toNat + 1 := by
  have hlt := last.toNat_lt
  have hne : last.toNat ≠ 255 := fun h => hlast (UInt8.toNat_inj.mp h)
  have hle' := UInt8.le_iff_toNat_le.mp hle
  rw [UInt8.toNat_add, Nat.mod_eq_of_lt (show record.toNat + (1 : UInt8).toNat < 2 ^ 8 by
    change record.toNat + 1 < 256
    omega)]
  rfl

section Loop
variable {body : EmvPoller → UInt8 → Visit} {sfi last record : UInt8} {fuel : Nat} {error : EmvError}
  {p : EmvPoller}

theorem recordLoop_ends {stop : Stop} (hle : record ≤ last) (h : (body p record).stop = some stop) :
    recordLoop body last (fuel + 1) record error p =
      some ⟨[(body p record).read], stop, (body p record).error, (body p record).poller⟩ := by
  rw [recordLoop, if_pos hle]
  dsimp only
  rw [h]

theorem recordLoop_next (hle : record ≤ last) (h : (body p record).stop = none) :
    recordLoop body last (fuel + 1) record error p =
      (recordLoop body last fuel (record + 1) (body p record).error (body p record).poller).map
        (FileRun.behind (body p record).read) := by
  rw [recordLoop, if_pos hle]
  dsimp only
  rw [h]

theorem recordLoop_over (hgt : ¬ record ≤ last) :
    recordLoop body last (fuel + 1) record error p = some ⟨[], .last, error, p⟩ := by
  rw [recordLoop, if_neg hgt]

theorem recordLoop_visited {run : FileRun}
    (h : recordLoop body last fuel record error p = some run) : Visited body error p run := by
  induction fuel generalizing record error p run with
  | zero => exact absurd h.symm (Option.some_ne_none _)
  | succ fuel ih =>
    by_cases hle : record ≤ last
    · cases hstop : (body p record).stop with
      | some stop =>
        rw [recordLoop_ends hle hstop] at h
        obtain rfl := Option.some.inj h
        exact .ends hstop
      | none =>
        rw [recordLoop_next hle hstop] at h
        obtain ⟨rest, hrest, rfl⟩ := Option.map_eq_some_iff.mp h
        exact .next hstop (ih hrest)
    · rw [recordLoop_over hle] at h
      obtain rfl := Option.some.inj h
      exact .all error p

/-- A loop that keeps an invariant, under which the counter does not wrap and the end is near, ends
and goes through its records. -/
theorem recordLoop_rule (inv : Nat → UInt8 → EmvPoller → Prop) (hbody : Asks sfi body)
    (hzero : ∀ record p, ¬ inv 0 record p)
    (hstep : ∀ fuel record p, inv (fuel + 1) record p → record ≤ last → (body p record).stop = none →
      (record + 1).toNat = record.toNat + 1 ∧ inv fuel (record + 1) (body p record).poller)
    (hinv : inv fuel record p) : ∃ run, recordLoop body last fuel record error p = some run ∧
      GoneThrough sfi record last run := by
  induction fuel generalizing record error p with
  | zero => exact absurd hinv (hzero record p)
  | succ fuel ih =>
    have hrecord := congrArg UInt8.toNat (hbody.record p record)
    by_cases hle : record ≤ last
    · have hle' := UInt8.le_iff_toNat_le.mp hle
      cases hstop : (body p record).stop with
      | some stop =>
        have hlast : stop ≠ .last := fun h => hbody.stop p record (h ▸ hstop)
        exact ⟨_, recordLoop_ends hle hstop, 1, (Asked.nil sfi _).cons (hbody.sfi p record) hrecord,
          fun h => absurd h hlast, fun _ => ⟨Nat.one_pos, by omega⟩⟩
      | none =>
        obtain ⟨hnext, hinv'⟩ := hstep fuel record p hinv hle hstop
        obtain ⟨run, hrun, count, hasked, hall, hsome⟩ :=
          @ih (record + 1) (body p record).error _ hinv'
        rw [hnext] at hasked hall hsome
        refine ⟨run.behind (body p record).read, ?_, count + 1,
          hasked.cons (hbody.sfi p record) hrecord, fun h => ?_, fun h => ?_⟩
        · rw [recordLoop_next hle hstop, hrun, Option.map_some]
        · have := hall h
          omega
        · have := hsome h
          omega
    · have hgt := UInt8.lt_iff_toNat_lt.mp (UInt8.not_le.mp hle)
      exact ⟨_, recordLoop_over hle, 0, Asked.nil sfi _, fun _ => by omega, fun h => absurd rfl h⟩

theorem Visited.shiftsWithin {run : FileRun} (h : Visited body error p run)
    (hshift : ∀ p record, ∀ shift, (body p record).read.shift = some shift → 0 ≤ shift ∧ shift ≤ 31) :
    ShiftsWithin run.reads := by
  induction h with
  | all => exact fun _ h => absurd h not_mem_nil
  | ends => exact forall_mem_singleton.mpr (hshift _ _)
  | next _ _ ih => exact forall_mem_cons.mpr ⟨hshift _ _, ih⟩

end Loop

theorem visitAfl_read (sfi : UInt8) (p : EmvPoller) (record : UInt8) :
    (visitAfl card sfi p record).read = ⟨sfi, record, (p.mark sfi record).1⟩ := by
  rw [visitAfl]
  dsimp only
  split <;> rfl

theorem asks_visitAfl (sfi : UInt8) : Asks sfi (visitAfl card sfi) where
  sfi p record := congrArg RecordRead.sfi (visitAfl_read card sfi p record)
  record p record := congrArg RecordRead.record (visitAfl_read card sfi p record)
  stop p record := by
    rw [visitAfl]
    dsimp only
    split
    · simp
    · split <;> simp

/-- The file of an entry has been gone through. Which records of a file with the last record 255 are
asked for is left open, and what marks the records of the files 0 and 1. -/
structure EntryVisited (entry : AflEntry) (error : EmvError) (p : EmvPoller) (run : FileRun) :
    Prop where
  visited : Visited (visitAfl card entry.sfi) error p run
  gone : entry.recordEnd ≠ 255 → GoneThrough entry.sfi entry.recordStart entry.recordEnd run
  shifts : 2 ≤ entry.sfi → ShiftsWithin run.reads

/-- The entries of the locator that is held are gone through one after the other, each from the
poller that the one before it has left: up to one that does not end, which has the last record 255,
up to a card number, or all of them. -/
inductive AflVisited (known : Bool) : Nat → EmvError → EmvPoller → AflRun → Prop
  | all {i : Nat} {error : EmvError} {p : EmvPoller} (h : p.app.afl.size.toNat ≤ i) :
      AflVisited known i error p ⟨[], error, known, p⟩
  | endless {i : Nat} {error : EmvError} {p : EmvPoller} (h : i < p.app.afl.size.toNat)
      (hinside : i + 2 < 255) (hlast : AflEntry.recordEnd ⟨p.app.afl, i⟩ = 255) :
      AflVisited known i error p ⟨[⟨⟨p.app.afl, i⟩, none⟩], error, known, p⟩
  | found {i : Nat} {error : EmvError} {p : EmvPoller} {run : FileRun}
      (h : i < p.app.afl.size.toNat) (hinside : i + 2 < 255)
      (hrun : EntryVisited card ⟨p.app.afl, i⟩ error p run)
      (hpan : known = true ∨ run.stop = .pan) :
      AflVisited known i error p ⟨[⟨⟨p.app.afl, i⟩, some run⟩], run.error, true, run.poller⟩
  | next {i : Nat} {error : EmvError} {p : EmvPoller} {run : FileRun} {rest : AflRun}
      (h : i < p.app.afl.size.toNat) (hinside : i + 2 < 255)
      (hrun : EntryVisited card ⟨p.app.afl, i⟩ error p run)
      (hpan : known = false ∧ run.stop ≠ .pan)
      (hrest : AflVisited known (i + 4) run.error run.poller rest) :
      AflVisited known i error p { rest with entries := ⟨⟨p.app.afl, i⟩, some run⟩ :: rest.entries }

section Entries
variable {card} {entry : AflEntry} {error : EmvError} {p : EmvPoller}

theorem entryLoop_gone (hlast : entry.recordEnd ≠ 255) :
    ∃ run, entryLoop card entry error p = some run ∧
      GoneThrough entry.sfi entry.recordStart entry.recordEnd run := by
  have hend := entry.recordEnd.toNat_lt
  have hne : entry.recordEnd.toNat ≠ 255 := fun h => hlast (UInt8.toNat_inj.mp h)
  refine recordLoop_rule (fun fuel record _ => entry.recordEnd.toNat + 1 - record.toNat < fuel)
    (asks_visitAfl card entry.sfi) (fun _ _ => Nat.not_lt_zero _) (fun fuel record p hinv hle _ => ?_)
    (show entry.recordEnd.toNat + 1 - entry.recordStart.toNat < 256 by omega)
  have hle' := UInt8.le_iff_toNat_le.mp hle
  have hnext := toNat_add_one hle hlast
  exact ⟨hnext, by omega⟩

theorem entryLoop_visited {run : FileRun} (hrun : entryLoop card entry error p = some run) :
    EntryVisited card entry error p run where
  visited := recordLoop_visited hrun
  gone hlast := by
    obtain ⟨run', hrun', hgone⟩ := @entryLoop_gone card entry error p hlast
    obtain rfl := Option.some.inj (hrun.symm.trans hrun')
    exact hgone
  shifts hlow := (recordLoop_visited hrun).shiftsWithin fun p record shift hshift => by
    rw [visitAfl_read] at hshift
    exact mark_shift p record hlow shift hshift

theorem entryLoop_endless (hrun : entryLoop card entry error p = none) : entry.recordEnd = 255 := by
  by_contra hlast
  obtain ⟨run, hrun', -⟩ := @entryLoop_gone card entry error p hlast
  exact absurd (hrun'.symm.trans hrun) (Option.some_ne_none _)

end Entries

theorem aflLoop_visited (fuel i : Nat) (error : EmvError) (known : Bool) (p : EmvPoller)
    (hi : i % 4 = 0) (hfuel : 255 < i + 4 * fuel) :
    AflVisited card known i error p (aflLoop card fuel i error known p) := by
  have hlt := p.app.afl.size.toNat_lt
  induction fuel generalizing i error p with
  | zero => exact .all (by omega)
  | succ fuel ih =>
    by_cases hmore : i < p.app.afl.size.toNat
    · rw [aflLoop, if_pos hmore]
      cases hrun : entryLoop card ⟨p.app.afl, i⟩ error p with
      | none => exact .endless hmore (by omega) (entryLoop_endless hrun)
      | some run =>
        have hvisited := entryLoop_visited hrun
        cases hstop : known || run.stop == .pan with
        | true =>
          refine (congrArg (AflVisited card known i error p) (if_pos hstop)).mpr ?_
          exact .found hmore (by omega) hvisited (by simpa using hstop)
        | false =>
          refine (congrArg (AflVisited card known i error p)
            (if_neg (Bool.eq_false_iff.mp hstop))).mpr ?_
          exact .next hmore (by omega) hvisited (by simpa using hstop)
            (ih (i + 4) run.error run.poller (by omega) (by omega) run.poller.app.afl.size.toNat_lt)
    · rw [aflLoop, if_neg hmore]
      exact .all (Nat.le_of_not_lt hmore)

/-- The record has not been marked as read. -/
def EmvPoller.unmarked (p : EmvPoller) (sfi record : UInt8) : Bool :=
  decide ((p.recordsMask.toNat >>> (maskShift sfi record).toNat) % 2 ≠ 1)

/-- A file is tried: its records that are not marked are visited in turn, up to the first error. -/
structure BruteRun (sfi : UInt8) (records : List UInt8) (error : EmvError) (p : EmvPoller)
    (run : FileRun) : Prop where
  tried : ∃ rest, records.filter (p.unmarked sfi) = run.reads.map RecordRead.record ++ rest ∧
    (run.stop = .last → rest = []) ∧ (run.stop ≠ .last → run.stop = .error)
  file : ∀ read ∈ run.reads, read.sfi = sfi
  shifts : ShiftsWithin run.reads
  visited : Visited (visitBrute card sfi) error p run
  mask : run.poller.recordsMask = p.recordsMask

theorem visitBrute_spec (sfi : UInt8) (p : EmvPoller) (record : UInt8) :
    (visitBrute card sfi p record).read = ⟨sfi, record, some (maskShift sfi record)⟩ ∧
      (visitBrute card sfi p record).poller.recordsMask = p.recordsMask ∧
      ((visitBrute card sfi p record).stop = none ∨
        (visitBrute card sfi p record).stop = some .error) := by
  rw [visitBrute]
  split
  · exact ⟨rfl, rfl, .inr rfl⟩
  · exact ⟨rfl, rfl, .inl rfl⟩

/-- The brute force asks for each record in turn, whatever the card answers. -/
theorem bruteLoop_run {sfi : UInt8} (hlow : 2 ≤ sfi) (hhigh : sfi ≤ 3) (records : List UInt8)
    (hrecords : ∀ record ∈ records, record ≤ 5) (error : EmvError) (p : EmvPoller) :
    BruteRun card sfi records error p (bruteLoop card sfi records error p) := by
  induction records generalizing error p with
  | nil =>
    exact ⟨⟨[], rfl, fun _ => rfl, fun h => absurd rfl h⟩, fun _ h => absurd h not_mem_nil,
      fun _ h => absurd h not_mem_nil, .all error p, rfl⟩
  | cons record records ih =>
    obtain ⟨hrecord, hrest⟩ := forall_mem_cons.mp hrecords
    have hlow' := UInt8.le_iff_toNat_le.mp hlow
    have hhigh' := UInt8.le_iff_toNat_le.mp hhigh
    have hrecord' := UInt8.le_iff_toNat_le.mp hrecord
    change 2 ≤ sfi.toNat at hlow'
    change sfi.toNat ≤ 3 at hhigh'
    change record.toNat ≤ 5 at hrecord'
    have hshift : ∀ shift, some (maskShift sfi record) = some shift → 0 ≤ shift ∧ shift ≤ 31 := by
      intro shift h
      obtain rfl := Option.some.inj h
      rw [maskShift]
      omega
    by_cases hmarked : (p.recordsMask.toNat >>> (maskShift sfi record).toNat) % 2 = 1
    · have hfilter : p.unmarked sfi record = false := decide_eq_false (not_not.mpr hmarked)
      obtain ⟨htried, hfile, hshifts, hvisited, hmask⟩ := ih hrest error p
      rw [bruteLoop, if_pos hmarked]
      refine ⟨?_, hfile, hshifts, hvisited, hmask⟩
      rw [filter_cons_of_neg (Bool.eq_false_iff.mp hfilter)]
      exact htried
    · have hfilter : p.unmarked sfi record = true := decide_eq_true hmarked
      rw [bruteLoop, if_neg hmarked]
      dsimp only
      obtain ⟨hread, hmask, hstop⟩ := visitBrute_spec card sfi p record
      have hsfi : (visitBrute card sfi p record).read.sfi = sfi := by rw [hread]
      have hwithin : ∀ shift, (visitBrute card sfi p record).read.shift = some shift →
          0 ≤ shift ∧ shift ≤ 31 := by
        rw [hread]
        exact hshift
      cases hvisit : (visitBrute card sfi p record).stop with
      | some stop =>
        have hends : Visited (visitBrute card sfi) error p
            ⟨[(visitBrute card sfi p record).read], stop,
          _, _⟩ := .ends hvisit
        replace hstop : stop = .error := by simpa [hvisit] using hstop
        refine ⟨⟨records.filter (p.unmarked sfi), ?_, fun h => ?_, fun _ => hstop⟩,
          forall_mem_singleton.mpr hsfi, forall_mem_singleton.mpr hwithin, hends, hmask⟩
        · rw [filter_cons_of_pos hfilter, map_singleton, hread]
          rfl
        · cases hstop.symm.trans h
      | none =>
        have hunmarked : (visitBrute card sfi p record).poller.unmarked sfi = p.unmarked sfi := by
          funext record
          rw [EmvPoller.unmarked, hmask, EmvPoller.unmarked]
        obtain ⟨⟨rest, hreads, hends⟩, hfile, hshifts, hvisited, hmask'⟩ := ih hrest
          (visitBrute card sfi p record).error (visitBrute card sfi p record).poller
        rw [hunmarked] at hreads
        refine ⟨⟨rest, ?_, hends⟩, forall_mem_cons.mpr ⟨hsfi, hfile⟩,
          forall_mem_cons.mpr ⟨hwithin, hshifts⟩, .next hvisit hvisited, hmask'.trans hmask⟩
        rw [filter_cons_of_pos hfilter, hreads, FileRun.behind, map_cons, hread, cons_append]

section Log
variable {sfi record : UInt8} {p : EmvPoller}

theorem decodeRecord_activeTr (p : EmvPoller) : p.decodeRecord.2.app.activeTr = p.app.activeTr := by
  obtain ⟨app, happ, hkeeps⟩ := (decodeTl_good p.memory p.rxSize p.app).done
  change ((decodeTl p.memory p.rxSize p.app).app.getD p.app).activeTr = _
  rw [happ, Option.getD_some, hkeeps.active]

theorem visitLog_read (sfi : UInt8) (p : EmvPoller) (record : UInt8) :
    (visitLog card sfi p record).read = ⟨sfi, record, none⟩ := by
  rw [visitLog]
  dsimp only
  split
  · rfl
  · split <;> rfl

theorem asks_visitLog (sfi : UInt8) : Asks sfi (visitLog card sfi) where
  sfi p record := congrArg RecordRead.sfi (visitLog_read card sfi p record)
  record p record := congrArg RecordRead.record (visitLog_read card sfi p record)
  stop p record := by
    rw [visitLog]
    dsimp only
    split
    · simp
    · split
      · simp
      · split <;> simp

theorem visitLog_next (h : (visitLog card sfi p record).stop = none) :
    (visitLog card sfi p record).poller.app.activeTr = p.app.activeTr + 1 ∧
      (visitLog card sfi p record).poller.app.activeTr < 16 := by
  have hactive : (p.readSfiRecord card sfi record).2.decodeRecord.2.nextTransaction.app.activeTr =
      p.app.activeTr + 1 := congrArg (· + 1) (decodeRecord_activeTr _)
  rw [visitLog] at h ⊢
  dsimp only at h ⊢
  split at h
  next => exact absurd h (Option.some_ne_none _)
  next hread =>
    rw [if_neg hread]
    split at h
    next => exact absurd h (Option.some_ne_none _)
    next hdecoded =>
      rw [if_neg hdecoded]
      dsimp only at h
      split at h
      next => exact absurd h (Option.some_ne_none _)
      next hroom => exact ⟨hactive, UInt8.not_le.mp hroom⟩

/-- The log is read to its end, since a transaction is stored for every record after the first. -/
theorem logLoop_gone (p : EmvPoller) (records : UInt8) : ∃ run, logLoop card p records = some run ∧
    GoneThrough p.app.logSfi 1 records run := by
  refine recordLoop_rule (fun fuel record q => fuel + record.toNat = 257 ∧ (record.toNat = 1 ∨
    q.app.activeTr.toNat < 16 ∧ record.toNat ≤ q.app.activeTr.toNat + 2)) (asks_visitLog card _)
    (fun record q hinv => ?_) (fun fuel record q hinv _ hnone => ?_) ⟨rfl, .inl rfl⟩
  · have := record.toNat_lt
    omega
  · obtain ⟨hnext, hroom⟩ := visitLog_next card hnone
    have hroom' := UInt8.lt_iff_toNat_lt.mp hroom
    rw [hnext] at hroom'
    change (q.app.activeTr + 1).toNat < 16 at hroom'
    have hactive : (q.app.activeTr + 1).toNat = (q.app.activeTr.toNat + 1) % 256 := UInt8.toNat_add _ _
    have hrecord : (record + 1).toNat = (record.toNat + 1) % 256 := UInt8.toNat_add _ _
    rw [hnext]
    omega

end Log

/-- The log is read: nothing is sent without one, and only its format is asked for when that fails;
else its records are visited with what the format has left, and the list is closed. -/
def LogRead (p : EmvPoller) (run : FileRun) : Prop :=
  if p.app.logSfi = 0 ∨ p.app.logRecords = 0 then run = ⟨[], .error, .protocol, p⟩
  else
    let format := (p.saving true).getLogFormat card
    if format.1 ≠ .none then run = ⟨[], .error, format.1, format.2⟩
    else ∃ records, GoneThrough format.2.app.logSfi 1 p.app.logRecords records ∧
      Visited (visitLog card format.2.app.logSfi) .none format.2 records ∧
      run = { records with poller := records.poller.saving false }

theorem readLogEntry_read (p : EmvPoller) :
    ∃ run, readLogEntry card p = some run ∧ LogRead card p run := by
  rw [readLogEntry]
  simp only [LogRead]
  split
  next => exact ⟨_, rfl, rfl⟩
  next =>
    split
    next => exact ⟨_, rfl, rfl⟩
    next =>
      obtain ⟨run, hrun, hgone⟩ :=
        logLoop_gone card ((p.saving true).getLogFormat card).2 p.app.logRecords
      exact ⟨_, congrArg (Option.map _) hrun, run, hgone, recordLoop_visited hrun, rfl⟩

end Run

/-- The records of every entry of the locator are visited once each, up to an error, the last one or
the card number; so are the unmarked ones with brute force, and those of the log as far as there is
room. What is decoded is stored inside the tables of the application. -/
theorem records_visited : (∀ (card : Card) (p : EmvPoller),
      AflVisited card (decide (p.app.panLen ≠ 0)) 0 .none p (readAfl card p) ∧
      BruteRun card 2 [1, 2, 3, 4, 5] .none p (readBrute card p).1 ∧
      BruteRun card 3 [1, 2, 3, 4, 5] (readBrute card p).1.error (readBrute card p).1.poller
        (readBrute card p).2 ∧
      ∃ run, readLogEntry card p = some run ∧ LogRead card p run) ∧
    (∀ (memory : Nat → UInt8) (len : UInt8) (app : EmvApplication),
      ∃ app', (decodeResponseTlv memory len app).app = some app') ∧
    ∀ (memory : Nat → UInt8) (len : Nat) (app : EmvApplication),
      ∃ app', (decodeTl memory len app).app = some app' := by
  have hrecords : ∀ record ∈ ([1, 2, 3, 4, 5] : List UInt8), record ≤ 5 := by simp
  refine ⟨fun card p => ⟨?_, ?_, ?_, readLogEntry_read card p⟩, fun memory len app => ?_,
    fun memory len app => ?_⟩
  · exact aflLoop_visited card 64 0 .none _ p rfl (by decide)
  · exact bruteLoop_run card (by decide) (by decide) _ hrecords .none p
  · exact bruteLoop_run card (by decide) (by decide) _ hrecords _ _
  · obtain ⟨app', happ, -⟩ := (decodeLoop_good memory 0 len 0 false app).done
    exact ⟨app', happ⟩
  · obtain ⟨app', happ, -⟩ := (decodeTl_good memory len app).done
    exact ⟨app', happ⟩

/-- The locator `10 01 02 01`, of a card that does not answer: record 2 is never asked for. -/
theorem silent_card_not_all_visited :
    ¬ ∀ (card : Card) (p : EmvPoller), ∀ e ∈ (readAfl card p).entries, ∀ run, e.run = some run →
      Asked e.entry.sfi e.entry.recordStart.toNat
        (e.entry.recordEnd.toNat + 1 - e.entry.recordStart.toNat) run.reads := by
  intro h
  let afl : Apdu := { size := 4, data := ⟨[0x10, 1, 2, 1] ++ List.replicate 251 0, by
    rw [length_append, length_replicate]; rfl⟩ }
  let p : EmvPoller := ⟨{ EmvApplication.reset with afl := afl }, [], 0, 0, []⟩
  have hmem := h (fun _ => (some .timeout, [])) p _ mem_cons_self _ rfl
  cases hmem

end NikitaFirmware.Emv
