import NikitaFirmware.Foundations.Accesses
import NikitaFirmware.Foundations.Bytes
import NikitaFirmware.Foundations.FixedArray

/-!
# The record of an EMV application

`lib/nfc/protocols/emv/emv.h`, and the decoding of one tag in `emv_poller_i.c`. A tag's value is
what stands in memory from a place on; behind its length there may be anything.
-/

namespace NikitaFirmware.Emv
open Foundations List

structure Apdu where
  size : UInt8
  data : FixedArray UInt8 255

/-- `Transaction`. What is copied into as bytes is kept as bytes. -/
structure Transaction where
  atc : UInt16
  amount : FixedArray UInt8 8
  country : UInt16
  currency : UInt16
  date : FixedArray UInt8 4
  time : FixedArray UInt8 4

structure EmvApplication where
  logSfi : UInt8
  logRecords : UInt8
  logFmt : FixedArray UInt8 50
  logFmtLen : UInt8
  activeTr : UInt8
  savingTransList : Bool
  trans : FixedArray Transaction 16
  priority : FixedArray UInt8 1
  aid : FixedArray UInt8 16
  aidLen : UInt8
  applicationInterchangeProfile : FixedArray UInt8 2
  applicationName : FixedArray UInt8 17
  applicationLabel : FixedArray UInt8 17
  cardholderName : FixedArray UInt8 27
  pan : FixedArray UInt8 10
  panLen : UInt8
  expDay : UInt8
  expMonth : UInt8
  expYear : UInt8
  effectiveDay : UInt8
  effectiveMonth : UInt8
  effectiveYear : UInt8
  countryCode : UInt16
  currencyCode : UInt16
  pinTryCounter : UInt8
  transactionCounter : UInt16
  lastOnlineAtc : UInt16
  pdol : Apdu
  afl : Apdu

def EmvApplication.reset : EmvApplication where
  logSfi := 0
  logRecords := 0
  logFmt := .replicate 50 0
  logFmtLen := 0
  activeTr := 0
  savingTransList := false
  trans := .replicate 16 ⟨0, .replicate 8 0, 0, 0, .replicate 4 0, .replicate 4 0⟩
  priority := .replicate 1 0
  aid := .replicate 16 0
  aidLen := 0
  applicationInterchangeProfile := .replicate 2 0
  applicationName := .replicate 17 0
  applicationLabel := .replicate 17 0
  cardholderName := .replicate 27 0
  pan := .replicate 10 0
  panLen := 0
  expDay := 0
  expMonth := 0
  expYear := 0
  effectiveDay := 0
  effectiveMonth := 0
  effectiveYear := 0
  countryCode := 0
  currencyCode := 0
  pinTryCounter := 0
  transactionCounter := 0
  lastOnlineAtc := 0
  pdol := ⟨0, .replicate 255 0⟩
  afl := ⟨0, .replicate 255 0⟩

inductive EmvTag
  | logFmt
  | gpoFmt1
  | aid
  | priority
  | applInterchangeProfile
  | applLabel
  | applName
  | applEffective
  | pdol
  | afl
  | track1Equiv
  | track2Data
  | track2Equiv
  | cardholderName
  | pan
  | expDate
  | currencyCode
  | countryCode
  | logEntry
  | lastOnlineAtc
  | atc
  | logAmount
  | logCountry
  | logCurrency
  | logDate
  | logTime
  | pinTryCounter

namespace EmvTag

def code : EmvTag → Nat
  | logFmt => 0x9F4F
  | gpoFmt1 => 0x80
  | aid => 0x4F
  | priority => 0x87
  | applInterchangeProfile => 0x82
  | applLabel => 0x50
  | applName => 0x9F12
  | applEffective => 0x5F25
  | pdol => 0x9F38
  | afl => 0x94
  | track1Equiv => 0x56
  | track2Data => 0x9F6B
  | track2Equiv => 0x57
  | cardholderName => 0x5F20
  | pan => 0x5A
  | expDate => 0x5F24
  | currencyCode => 0x9F42
  | countryCode => 0x5F28
  | logEntry => 0x9F4D
  | lastOnlineAtc => 0x9F13
  | atc => 0x9F36
  | logAmount => 0x9F02
  | logCountry => 0x9F1A
  | logCurrency => 0x5F2A
  | logDate => 0x9A
  | logTime => 0x9F21
  | pinTryCounter => 0x9F17

def all : List EmvTag :=
  [logFmt, gpoFmt1, aid, priority, applInterchangeProfile, applLabel, applName, applEffective, pdol,
    afl, track1Equiv, track2Data, track2Equiv, cardholderName, pan, expDate, currencyCode,
    countryCode, logEntry, lastOnlineAtc, atc, logAmount, logCountry, logCurrency, logDate, logTime,
    pinTryCounter]

/-- The case of the `switch` that a tag leads to. -/
def ofCode (tag : Nat) : Option EmvTag := all.find? fun known => known.code == tag

end EmvTag

/-- What decoding a tag reads of its value, and what it makes of the record, unless it writes outside
a field: whether it has succeeded, and the record. -/
structure TagResult where
  reads : List Access
  done : Option (Bool × EmvApplication)

namespace TagResult

def rejected (app : EmvApplication) : TagResult := ⟨[], some (false, app)⟩

end TagResult

section Values
variable (value : Nat → UInt8)

def bytesFrom (offset size : Nat) : Bytes := (range size).map fun i => value (offset + i)

def word : UInt16 := (value 0).toUInt16 <<< 8 ||| (value 1).toUInt16

def copied {n : Nat} (field : FixedArray UInt8 n) (offset size : Nat)
    (put : FixedArray UInt8 n → EmvApplication) : TagResult :=
  ⟨[.read offset size], (field.store 0 (bytesFrom value offset size)).map fun field =>
    (true, put field)⟩

/-- A value copied with a terminator behind it. -/
def copiedText {n : Nat} (field : FixedArray UInt8 n) (size : Nat)
    (put : FixedArray UInt8 n → EmvApplication) : TagResult :=
  ⟨[.read 0 size], ((field.store 0 (bytesFrom value 0 size)).bind fun field =>
    field.store size [0]).map fun field => (true, put field)⟩

/-- Bytes of the value assigned to a field, whatever the length. -/
def assigned (width : Nat) (app : EmvApplication) : TagResult :=
  ⟨[.read 0 width], some (true, app)⟩

/-- The loop over a track: the offset behind which the delimiter is found. -/
def trackLoop (tlen : Nat) : Nat → Nat → List Access × Option Nat
  | 0, _ => ([], none)
  | fuel + 1, x =>
    if x + 3 < tlen ∧ x < 10 then
      if 0xD0 < value (x + 1) then ([.read (x + 1) 1], some x)
      else (.read (x + 1) 1 :: (trackLoop tlen fuel (x + 1)).1, (trackLoop tlen fuel (x + 1)).2)
    else ([], none)

/-- The case of `EMV_TAG_TRACK_2_DATA` and `EMV_TAG_TRACK_2_EQUIV`. The offset stays below the size
of `pan`. -/
def decodeTrack2 (tlen : Nat) (app : EmvApplication) : TagResult :=
  let found := trackLoop value tlen 10 1
  match found.2 with
  | none => ⟨found.1, some (true, app)⟩
  | some x =>
    ⟨found.1 ++ [.read 0 (x + 1), .read (x + 1) 3],
      (app.pan.store 0 (bytesFrom value 0 (x + 1))).map fun pan =>
        (true, { app with
          pan := pan
          panLen := UInt8.ofNat (x + 1)
          expYear := value (x + 1) <<< 4 ||| value (x + 2) >>> 4
          expMonth := value (x + 2) <<< 4 ||| value (x + 3) >>> 4 })⟩

/-- The first space becomes the terminator. -/
def endAtSpace : Bytes → Bytes
  | [] => []
  | byte :: bytes => if byte = 0x20 then 0 :: bytes else byte :: endAtSpace bytes

def decodeCardholderName (tlen : Nat) (app : EmvApplication) : TagResult :=
  if 27 ≤ tlen then .rejected app
  else if tlen < (cstr app.cardholderName.cells).length then ⟨[], some (false, app)⟩
  else
    ⟨[.read 0 tlen],
      ((app.cardholderName.store 0 (endAtSpace (bytesFrom value 0 tlen))).bind fun name =>
        name.store tlen [0]).map fun name => (true, { app with cardholderName := name })⟩

def EmvApplication.transWritable (app : EmvApplication) : Bool :=
  app.savingTransList && decide (app.activeTr.toNat < 16)

def EmvApplication.modifyTrans (app : EmvApplication) (f : Transaction → Transaction) :
    Option EmvApplication :=
  (app.trans.modify app.activeTr.toNat f).map fun trans => { app with trans := trans }

/-- A part of the transaction that the value is copied into. -/
def decodeLogBytes {n : Nat} (tlen : Nat) (app : EmvApplication)
    (get : Transaction → FixedArray UInt8 n)
    (put : Transaction → FixedArray UInt8 n → Transaction) : TagResult :=
  if !app.transWritable || decide (n < tlen) then .rejected app
  else
    ⟨[.read 0 tlen], (app.trans.cells[app.activeTr.toNat]?).bind fun transaction =>
        ((get transaction).store 0 (bytesFrom value 0 tlen)).bind fun field =>
          (app.modifyTrans fun transaction => put transaction field).map fun app => (true, app)⟩

/-- A part of the transaction that two bytes of the value are assigned to. -/
def decodeLogWord (app : EmvApplication) (put : Transaction → UInt16 → Transaction) : TagResult :=
  if !app.transWritable then .rejected app
  else
    ⟨[.read 0 2],
      (app.modifyTrans fun transaction => put transaction (word value)).map fun app => (true, app)⟩

def decodeKnownTag (tlen : UInt8) (app : EmvApplication) : EmvTag → TagResult
  | .logFmt =>
    if 50 < tlen.toNat then .rejected app
    else copied value app.logFmt 0 tlen.toNat fun field =>
      { app with logFmt := field, logFmtLen := tlen }
  | .gpoFmt1 =>
    if tlen < 2 then .rejected app
    else copied value app.afl.data 2 (tlen - 2).toNat fun field =>
      { app with afl := ⟨tlen - 2, field⟩ }
  | .aid =>
    if 16 < tlen.toNat then .rejected app
    else copied value app.aid 0 tlen.toNat fun field => { app with aid := field, aidLen := tlen }
  | .priority =>
    if tlen.toNat ≠ 1 then .rejected app
    else copied value app.priority 0 tlen.toNat fun field => { app with priority := field }
  | .applInterchangeProfile =>
    if tlen.toNat ≠ 2 then .rejected app
    else copied value app.applicationInterchangeProfile 0 tlen.toNat fun field =>
      { app with applicationInterchangeProfile := field }
  | .applLabel =>
    if 17 ≤ tlen.toNat then .rejected app
    else copiedText value app.applicationLabel tlen.toNat fun field =>
      { app with applicationLabel := field }
  | .applName =>
    if 17 ≤ tlen.toNat then .rejected app
    else copiedText value app.applicationName tlen.toNat fun field =>
      { app with applicationName := field }
  | .applEffective =>
    assigned 3 { app with
      effectiveYear := value 0, effectiveMonth := value 1, effectiveDay := value 2 }
  | .pdol => copied value app.pdol.data 0 tlen.toNat fun field => { app with pdol := ⟨tlen, field⟩ }
  | .afl => copied value app.afl.data 0 tlen.toNat fun field => { app with afl := ⟨tlen, field⟩ }
  | .track1Equiv =>
    -- the text is only logged
    if 80 ≤ tlen.toNat then .rejected app else ⟨[.read 0 tlen.toNat], some (true, app)⟩
  | .track2Data => decodeTrack2 value tlen.toNat app
  | .track2Equiv => decodeTrack2 value tlen.toNat app
  | .cardholderName => decodeCardholderName value tlen.toNat app
  | .pan =>
    if 10 < tlen.toNat then .rejected app
    else copied value app.pan 0 tlen.toNat fun field => { app with pan := field, panLen := tlen }
  | .expDate =>
    assigned 3 { app with expYear := value 0, expMonth := value 1, expDay := value 2 }
  | .currencyCode => assigned 2 { app with currencyCode := word value }
  | .countryCode => assigned 2 { app with countryCode := word value }
  | .logEntry => assigned 2 { app with logSfi := value 0, logRecords := value 1 }
  | .lastOnlineAtc => assigned 2 { app with lastOnlineAtc := word value }
  | .atc =>
    if app.transWritable then decodeLogWord value app fun transaction atc =>
      { transaction with atc := atc }
    else assigned 2 { app with transactionCounter := word value }
  | .logAmount =>
    decodeLogBytes value tlen.toNat app Transaction.amount fun transaction amount =>
      { transaction with amount := amount }
  | .logCountry =>
    decodeLogWord value app fun transaction country => { transaction with country := country }
  | .logCurrency =>
    decodeLogWord value app fun transaction currency => { transaction with currency := currency }
  | .logDate =>
    decodeLogBytes value tlen.toNat app Transaction.date fun transaction date =>
      { transaction with date := date }
  | .logTime =>
    decodeLogBytes value tlen.toNat app Transaction.time fun transaction time =>
      { transaction with time := time }
  | .pinTryCounter => assigned 1 { app with pinTryCounter := value 0 }

/-- `emv_decode_tlv_tag` on what stands in memory from `buff` on. A tag that is not known has no
effect. -/
def decodeTlvTag (tag : Nat) (tlen : UInt8) (app : EmvApplication) : TagResult :=
  match EmvTag.ofCode tag with
  | none => ⟨[], some (false, app)⟩
  | some known => decodeKnownTag value tlen app known

/-- How many bytes the record takes from a value of the tag, whatever its length. -/
def EmvTag.width (app : EmvApplication) : EmvTag → Nat
  | applEffective => 3
  | expDate => 3
  | currencyCode => 2
  | countryCode => 2
  | logEntry => 2
  | lastOnlineAtc => 2
  | atc => 2
  | logCountry => if app.transWritable then 2 else 0
  | logCurrency => if app.transWritable then 2 else 0
  | pinTryCounter => 1
  | _ => 0

/-- How many bytes are taken from a value of any tag. -/
def tagWidth (app : EmvApplication) (tag : Nat) : Nat :=
  ((EmvTag.ofCode tag).map (·.width app)).getD 0

/-- What no tag changes: whether a transaction can be filled in, and that the format of the log fits
into its field. -/
structure Keeps (app app' : EmvApplication) : Prop where
  saving : app'.savingTransList = app.savingTransList
  active : app'.activeTr = app.activeTr
  format : app'.logFmtLen = app.logFmtLen ∨ app'.logFmtLen.toNat ≤ 50

/-- A tag is decoded as it should be: no write leaves its field, and the reads stay in the value
exactly when it has the width. -/
structure TagResult.Good (r : TagResult) (tlen width : Nat) (app : EmvApplication) : Prop where
  done : ∃ success app', r.done = some (success, app') ∧ Keeps app app'
  reads : Access.AllWithin tlen 0 r.reads ↔ width ≤ tlen

theorem Keeps.refl (app : EmvApplication) : Keeps app app := ⟨rfl, rfl, .inl rfl⟩

theorem Keeps.trans {a b c : EmvApplication} (h : Keeps a b) (h' : Keeps b c) : Keeps a c where
  saving := h'.saving.trans h.saving
  active := h'.active.trans h.active
  format := h'.format.elim (fun heq => heq ▸ h.format) .inr

theorem Keeps.tagWidth_eq {app app' : EmvApplication} (h : Keeps app app') (tag : Nat) :
    tagWidth app' tag = tagWidth app tag := by
  have hwritable : app'.transWritable = app.transWritable := by
    rw [EmvApplication.transWritable, h.saving, h.active, EmvApplication.transWritable]
  have hwidth : ∀ known : EmvTag, known.width app' = known.width app := by
    intro known
    cases known <;> first | rfl | rw [EmvTag.width, EmvTag.width, hwritable]
  rw [tagWidth, tagWidth]
  cases EmvTag.ofCode tag with
  | none => rfl
  | some known => exact hwidth known

theorem allWithin_singleton {offset size tlen : Nat} (h : offset + size ≤ tlen) :
    Access.AllWithin tlen 0 [.read offset size] :=
  Access.allWithin_cons.mpr ⟨Access.read_within h, Access.allWithin_nil⟩

theorem length_bytesFrom (offset size : Nat) : (bytesFrom value offset size).length = size := by
  rw [bytesFrom, length_map, length_range]

theorem length_endAtSpace (bytes : Bytes) : (endAtSpace bytes).length = bytes.length := by
  induction bytes with
  | nil => rfl
  | cons byte bytes ih =>
    rw [endAtSpace]
    split
    · rfl
    · rw [length_cons, ih, length_cons]

variable {value} {tlen : Nat} {app : EmvApplication}

theorem rejected_good : (TagResult.rejected app).Good tlen 0 app where
  done := ⟨false, app, rfl, .refl app⟩
  reads := iff_of_true Access.allWithin_nil (Nat.zero_le _)

theorem exists_done {β : Type} {stored : Option β} {field : β} {put : β → EmvApplication}
    (h : stored = some field)
    (hput : Keeps app (put field)) :
    ∃ success app', (stored.map fun field => (true, put field)) = some (success, app') ∧
      Keeps app app' :=
  ⟨true, put field, by rw [h, Option.map_some], hput⟩

theorem copied_good {n offset size : Nat} (field : FixedArray UInt8 n)
    {put : FixedArray UInt8 n → EmvApplication} (hfits : size ≤ n) (hvalue : offset + size ≤ tlen)
    (hput : ∀ f, Keeps app (put f)) :
    (copied value field offset size put).Good tlen 0 app where
  done := by
    have hlength := length_bytesFrom value offset size
    obtain ⟨field', hstore⟩ := field.exists_store
      (show 0 + (bytesFrom value offset size).length ≤ n by omega)
    exact exists_done hstore (hput field')
  reads := iff_of_true (allWithin_singleton hvalue) (Nat.zero_le _)

theorem exists_storeText {n size : Nat} (field : FixedArray UInt8 n) {src : Bytes}
    (hsrc : src.length = size) (hfits : size < n) :
    ∃ field', ((field.store 0 src).bind fun field => field.store size [0]) = some field' := by
  obtain ⟨first, hfirst⟩ := field.exists_store (show 0 + src.length ≤ n by omega)
  obtain ⟨second, hsecond⟩ := first.exists_store
    (show size + ([0] : Bytes).length ≤ n by rw [length_singleton]; omega)
  exact ⟨second, by rw [hfirst, Option.bind_some, hsecond]⟩

theorem copiedText_good {n : Nat} (field : FixedArray UInt8 n)
    {put : FixedArray UInt8 n → EmvApplication} (hfits : tlen < n)
    (hput : ∀ f, Keeps app (put f)) :
    (copiedText value field tlen put).Good tlen 0 app where
  done := by
    obtain ⟨field', hstore⟩ := exists_storeText field (length_bytesFrom value 0 tlen) hfits
    exact exists_done hstore (hput field')
  reads := iff_of_true (allWithin_singleton (Nat.le_of_eq (Nat.zero_add tlen))) (Nat.zero_le _)

theorem assigned_good {width : Nat} {app' : EmvApplication}
    (h : Keeps app app') : (assigned width app').Good tlen width app where
  done := ⟨true, app', rfl, h⟩
  reads := by
    rw [assigned, Access.allWithin_cons, and_iff_left Access.allWithin_nil, Access.read_within_iff,
      Nat.zero_add]
    exact or_iff_right_of_imp fun h => h ▸ Nat.zero_le tlen

theorem transWritable_lt (h : app.transWritable = true) : app.activeTr.toNat < 16 :=
  of_decide_eq_true (Bool.and_eq_true_iff.mp h).2

theorem exists_modifyTrans (h : app.transWritable = true) (f : Transaction → Transaction) :
    ∃ app', app.modifyTrans f = some app' ∧ Keeps app app' := by
  obtain ⟨trans', htrans⟩ := app.trans.exists_modify (transWritable_lt h) f
  exact ⟨{ app with trans := trans' }, by rw [EmvApplication.modifyTrans, htrans]; rfl,
    rfl, rfl, .inl rfl⟩

theorem decodeLogWord_good {put : Transaction → UInt16 → Transaction} :
    (decodeLogWord value app put).Good tlen (if app.transWritable then 2 else 0) app := by
  cases h : app.transWritable with
  | false =>
    rw [decodeLogWord, h, if_pos (by rfl), if_neg Bool.false_ne_true]
    exact rejected_good
  | true =>
    obtain ⟨app', hmodify, hkeep⟩ := exists_modifyTrans h fun transaction =>
      put transaction (word value)
    rw [decodeLogWord, h, if_neg (by decide), if_pos rfl, hmodify]
    exact ⟨⟨true, app', rfl, hkeep⟩, (assigned_good (Keeps.refl app)).reads⟩

theorem decodeLogBytes_good {n : Nat} {get : Transaction → FixedArray UInt8 n}
    {put : Transaction → FixedArray UInt8 n → Transaction} :
    (decodeLogBytes value tlen app get put).Good tlen 0 app := by
  rw [decodeLogBytes]
  split
  · exact rejected_good
  next hnot =>
    obtain ⟨hnotWritable, hnotBig⟩ := Bool.or_eq_false_iff.mp (Bool.not_eq_true _ ▸ hnot)
    have hwritable : app.transWritable = true := by
      cases h : app.transWritable with
      | false => rw [h] at hnotWritable; exact absurd hnotWritable (by decide)
      | true => rfl
    have hle : tlen ≤ n := Nat.not_lt.mp (of_decide_eq_false hnotBig)
    have hindex : app.activeTr.toNat < app.trans.cells.length := by
      rw [app.trans.length_cells]
      exact transWritable_lt hwritable
    have hlength := length_bytesFrom value 0 tlen
    obtain ⟨field, hstore⟩ := (get app.trans.cells[app.activeTr.toNat]).exists_store
      (show 0 + (bytesFrom value 0 tlen).length ≤ n by omega)
    obtain ⟨app', hmodify, hkeep⟩ := exists_modifyTrans hwritable fun transaction =>
      put transaction field
    constructor
    · refine ⟨true, app', ?_, hkeep⟩
      change ((app.trans.cells[app.activeTr.toNat]?).bind fun transaction => _) = _
      rw [getElem?_eq_getElem hindex, Option.bind_some, hstore, Option.bind_some, hmodify]
      rfl
    · exact iff_of_true (allWithin_singleton (Nat.le_of_eq (Nat.zero_add tlen))) (Nat.zero_le _)

theorem trackLoop_spec (fuel x : Nat) : Access.AllWithin tlen 0 (trackLoop value tlen fuel x).1 ∧
      ∀ found, (trackLoop value tlen fuel x).2 = some found → found + 3 < tlen ∧ found < 10 := by
  induction fuel generalizing x with
  | zero => exact ⟨Access.allWithin_nil, fun _ h => absurd h.symm (Option.some_ne_none _)⟩
  | succ fuel ih =>
    rw [trackLoop]
    split
    next hx =>
      have hread : (Access.read (x + 1) 1).Within tlen 0 := Access.read_within (by omega)
      split
      · refine ⟨Access.allWithin_cons.mpr ⟨hread, Access.allWithin_nil⟩, fun found h => ?_⟩
        exact Option.some.inj h ▸ hx
      · exact ⟨Access.allWithin_cons.mpr ⟨hread, (ih (x + 1)).1⟩, (ih (x + 1)).2⟩
    next => exact ⟨Access.allWithin_nil, fun _ h => absurd h.symm (Option.some_ne_none _)⟩

theorem decodeTrack2_good : (decodeTrack2 value tlen app).Good tlen 0 app := by
  obtain ⟨hreads, hfound⟩ := @trackLoop_spec value tlen 10 1
  rw [decodeTrack2]
  cases h : (trackLoop value tlen 10 1).2 with
  | none =>
    exact ⟨⟨true, app, rfl, .refl app⟩, iff_of_true hreads (Nat.zero_le _)⟩
  | some x =>
    obtain ⟨hvalue, hpan⟩ := hfound x h
    have hlength := length_bytesFrom value 0 (x + 1)
    obtain ⟨pan, hstore⟩ := app.pan.exists_store
      (show 0 + (bytesFrom value 0 (x + 1)).length ≤ 10 by omega)
    constructor
    · exact exists_done hstore ⟨rfl, rfl, .inl rfl⟩
    · refine iff_of_true (Access.allWithin_append.mpr ⟨hreads, ?_⟩) (Nat.zero_le _)
      exact Access.allWithin_cons.mpr ⟨Access.read_within (by omega),
        allWithin_singleton (by omega)⟩

theorem decodeCardholderName_good : (decodeCardholderName value tlen app).Good tlen 0 app := by
  rw [decodeCardholderName]
  split
  · exact rejected_good
  next hshort =>
    split
    · exact ⟨⟨false, app, rfl, .refl app⟩, iff_of_true Access.allWithin_nil (Nat.zero_le _)⟩
    · have hlength : (endAtSpace (bytesFrom value 0 tlen)).length = tlen := by
        rw [length_endAtSpace, length_bytesFrom]
      obtain ⟨name, hstore⟩ := exists_storeText app.cardholderName hlength (by omega)
      exact ⟨exists_done hstore ⟨rfl, rfl, .inl rfl⟩, iff_of_true
        (allWithin_singleton (Nat.le_of_eq (Nat.zero_add tlen))) (Nat.zero_le _)⟩

theorem decodeKnownTag_good (tlen : UInt8) (known : EmvTag) :
    (decodeKnownTag value tlen app known).Good tlen.toNat (known.width app) app := by
  have hlt := tlen.toNat_lt
  cases known with
  | logFmt =>
    rw [decodeKnownTag]
    split
    · exact rejected_good
    next h =>
      have hfits := Nat.le_of_not_lt h
      exact copied_good _ hfits (by omega) fun _ => ⟨rfl, rfl, .inr hfits⟩
  | gpoFmt1 =>
    rw [decodeKnownTag]
    split
    · exact rejected_good
    next h =>
      have hle := UInt8.le_iff_toNat_le.mp (UInt8.not_lt.mp h)
      have hsub : (tlen - 2).toNat = tlen.toNat - 2 := UInt8.toNat_sub_of_le _ _ (UInt8.not_lt.mp h)
      change 2 ≤ tlen.toNat at hle
      exact copied_good _ (by omega) (by omega) fun _ => ⟨rfl, rfl, .inl rfl⟩
  | aid =>
    rw [decodeKnownTag]
    split
    · exact rejected_good
    next h => exact copied_good _ (Nat.le_of_not_lt h) (by omega) fun _ => ⟨rfl, rfl, .inl rfl⟩
  | priority =>
    rw [decodeKnownTag]
    split
    · exact rejected_good
    next h => exact copied_good _ (by omega) (by omega) fun _ => ⟨rfl, rfl, .inl rfl⟩
  | applInterchangeProfile =>
    rw [decodeKnownTag]
    split
    · exact rejected_good
    next h => exact copied_good _ (by omega) (by omega) fun _ => ⟨rfl, rfl, .inl rfl⟩
  | applLabel =>
    rw [decodeKnownTag]
    split
    · exact rejected_good
    next h => exact copiedText_good _ (Nat.lt_of_not_le h) fun _ => ⟨rfl, rfl, .inl rfl⟩
  | applName =>
    rw [decodeKnownTag]
    split
    · exact rejected_good
    next h => exact copiedText_good _ (Nat.lt_of_not_le h) fun _ => ⟨rfl, rfl, .inl rfl⟩
  | applEffective => exact assigned_good ⟨rfl, rfl, .inl rfl⟩
  | pdol => exact copied_good _ (by omega) (by omega) fun _ => ⟨rfl, rfl, .inl rfl⟩
  | afl => exact copied_good _ (by omega) (by omega) fun _ => ⟨rfl, rfl, .inl rfl⟩
  | track1Equiv =>
    rw [decodeKnownTag]
    split
    · exact rejected_good
    · exact ⟨⟨true, app, rfl, .refl app⟩, iff_of_true
        (allWithin_singleton (Nat.le_of_eq (Nat.zero_add _))) (Nat.zero_le _)⟩
  | track2Data => exact decodeTrack2_good
  | track2Equiv => exact decodeTrack2_good
  | cardholderName => exact decodeCardholderName_good
  | pan =>
    rw [decodeKnownTag]
    split
    · exact rejected_good
    next h => exact copied_good _ (Nat.le_of_not_lt h) (by omega) fun _ => ⟨rfl, rfl, .inl rfl⟩
  | expDate => exact assigned_good ⟨rfl, rfl, .inl rfl⟩
  | currencyCode => exact assigned_good ⟨rfl, rfl, .inl rfl⟩
  | countryCode => exact assigned_good ⟨rfl, rfl, .inl rfl⟩
  | logEntry => exact assigned_good ⟨rfl, rfl, .inl rfl⟩
  | lastOnlineAtc => exact assigned_good ⟨rfl, rfl, .inl rfl⟩
  | atc =>
    rw [decodeKnownTag]
    split
    next h =>
      have hword := @decodeLogWord_good value tlen.toNat app
        fun transaction atc => { transaction with atc := atc }
      rw [if_pos h] at hword
      exact hword
    · exact assigned_good ⟨rfl, rfl, .inl rfl⟩
  | logAmount => exact decodeLogBytes_good
  | logCountry =>
    rw [decodeKnownTag, EmvTag.width]
    exact decodeLogWord_good
  | logCurrency =>
    rw [decodeKnownTag, EmvTag.width]
    exact decodeLogWord_good
  | logDate => exact decodeLogBytes_good
  | logTime => exact decodeLogBytes_good
  | pinTryCounter => exact assigned_good ⟨rfl, rfl, .inl rfl⟩

theorem decodeTlvTag_good (tag : Nat) (tlen : UInt8) :
    (decodeTlvTag value tag tlen app).Good tlen.toNat (tagWidth app tag) app := by
  rw [decodeTlvTag, tagWidth]
  cases EmvTag.ofCode tag with
  | none => exact rejected_good
  | some known => exact decodeKnownTag_good tlen known

end Values

end NikitaFirmware.Emv
