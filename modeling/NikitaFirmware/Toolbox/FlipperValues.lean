import NikitaFirmware.Toolbox.FlipperStream
import NikitaFirmware.Toolbox.Strint

/-!
# Reading values back

`flipper_format_stream_read_value_line` and `flipper_format_stream_get_value_count`: the values of a
key are read one after another, and each type has a printer and a reader of its own.
-/

namespace NikitaFirmware.Toolbox.FlipperStream

open Foundations List Option

/-- The states of `flipper_format_stream_read_value`. -/
inductive ValuePhase
  | leadingSpace
  | readValue
  | trailingSpace
deriving DecidableEq

structure ValueState where
  phase : ValuePhase
  value : List Char

/-- The loop of `flipper_format_stream_read_value`. It ends with the value and whether it is the last
one of the line, or with an error. -/
def valueStep (state : ValueState) (data : Char) : ValueState ⊕ Option (List Char × Bool) :=
  match state.phase with
  | .leadingSpace =>
    if isSpace data then .inl state
    else if data = '\n' then .inr none
    else .inl ⟨.readValue, state.value ++ [data]⟩
  | .readValue =>
    if isSpace data then .inl ⟨.trailingSpace, state.value⟩
    else if data = '\n' then .inr (some (state.value, true))
    else .inl ⟨.readValue, state.value ++ [data]⟩
  | .trailingSpace =>
    if isSpace data then .inl state else .inr (some (state.value, decide (data = '\n')))

def readValue (stream : Cursor Char) : Option (List Char × Bool) × Cursor Char :=
  match Cursor.scanBlocks bufferSize valueStep ⟨.leadingSpace, []⟩ stream with
  | (.inr result, stream) => (result, stream)
  | (.inl state, stream) =>
    (if state.phase ≠ .leadingSpace ∧ stream.eof = true then some (state.value, true) else none,
      stream)

/-- The loop of `flipper_format_stream_read_line`. -/
def lineStep (str : List Char) (data : Char) : List Char ⊕ List Char :=
  if data = '\n' then .inr str
  else if data = '\r' then .inl str
  else .inl (str ++ [data])

def readLine (stream : Cursor Char) : Option (List Char) × Cursor Char :=
  match Cursor.scanBlocks bufferSize lineStep [] stream with
  | (.inr str, stream) | (.inl str, stream) => (if str = [] then none else some str, stream)

/-- The loop of `flipper_format_stream_get_value_count`. Each value has a character at least. -/
def countLoop : Nat → Nat → Cursor Char → Option Nat × Cursor Char
  | 0, _, stream => (none, stream)
  | fuel + 1, count, stream =>
    match readValue stream with
    | (none, stream) => (none, stream)
    | (some (_, last), stream) =>
      if last then (some (count + 1), stream) else countLoop fuel (count + 1) stream

def getValueCount (stream : Cursor Char) (key : List Char) (strictMode : Bool) :
    Option Nat × Cursor Char :=
  let position := stream.tell
  let found := seekToKey key strictMode stream
  let counted :=
    if found.1 then countLoop (found.2.after.length + 1) 0 found.2 else (none, found.2)
  let back := counted.2.seek position
  (if back.1 then counted.1 else none, back.2)

/-- The loop of `flipper_format_stream_read_value_line` with what is still to be read. -/
def readElementsLoop {α : Type} (scan : List Char → Option α) :
    Nat → Cursor Char → Option (List α) × Cursor Char
  | 0, stream => (some [], stream)
  | left + 1, stream =>
    match readValue stream with
    | (none, stream) => (none, stream)
    | (some (value, last), stream) =>
      match scan value with
      | none => (none, stream)
      | some x =>
        if last = true ∧ left ≠ 0 then (none, stream)
        else
          let rest := readElementsLoop scan left stream
          (rest.1.map (x :: ·), rest.2)

/-- `flipper_format_stream_read_value_line` for an array. -/
def readElements {α : Type} (scan : List Char → Option α) (stream : Cursor Char) (key : List Char)
    (dataSize : Nat) (strictMode : Bool) : Option (List α) × Cursor Char :=
  let found := seekToKey key strictMode stream
  if found.1 then readElementsLoop scan dataSize found.2 else (none, found.2)

def readString (stream : Cursor Char) (key : List Char) (strictMode : Bool) :
    Option (List Char) × Cursor Char :=
  let found := seekToKey key strictMode stream
  if found.1 then readLine found.2 else (none, found.2)

def hexCharToHexNibble (c : Char) : Option Nat :=
  if '0' ≤ c ∧ c ≤ '9' then some (c.toNat - '0'.toNat)
  else if 'A' ≤ c ∧ c ≤ 'F' then some (c.toNat - 'A'.toNat + 10)
  else if 'a' ≤ c ∧ c ≤ 'f' then some (c.toNat - 'a'.toNat + 10)
  else none

def hexCharToUint8 (hi low : Char) : Option Nat :=
  (hexCharToHexNibble hi).bind fun h => (hexCharToHexNibble low).bind fun l => some (h * 16 + l)

/-- The loop of `hex_chars_to_uint64`, the most significant byte first; a string that ends has no
digit there. -/
def hexCharsLoop : Nat → Nat → List Char → Option Nat
  | 0, value, _ => some value
  | n + 1, value, hi :: low :: s =>
    (hexCharToUint8 hi low).bind fun byte => hexCharsLoop n (value * 256 + byte) s
  | _ + 1, _, _ => none

/-- The case `FlipperStreamValueHex` -/
def scanHex : List Char → Option UInt8
  | hi :: low :: _ => (hexCharToUint8 hi low).map UInt8.ofNat
  | _ => none

/-- The case `FlipperStreamValueInt32` -/
def scanInt32 (value : List Char) : Option Int32 :=
  match strintToInt32 value 10 with
  | .ok (n, _) => some (Int32.ofInt n)
  | .error _ => none

/-- The case `FlipperStreamValueUint32`, with `strint_to_uint32` -/
def scanUint32 (value : List Char) : Option UInt32 :=
  match strintToUint64Internal value 10 0 0xFFFFFFFF with
  | .ok (n, _, _) => some (UInt32.ofNat n)
  | .error _ => none

/-- The case `FlipperStreamValueHexUint64`, with `hex_chars_to_uint64` -/
def scanUint64 (value : List Char) : Option UInt64 :=
  if 16 ≤ value.length then (hexCharsLoop 8 0 value).map UInt64.ofNat else none

/-- The case `FlipperStreamValueBool`: upper and lower case make no difference. -/
def scanBool (value : List Char) : Option Bool :=
  some (decide ((value.takeWhile (· ≠ '\x00')).map Char.toLower = "true".toList))

/-- What is read. -/
inductive Values
  | str (data : List Char)
  | hex (data : List UInt8)
  | int32 (data : List Int32)
  | uint32 (data : List UInt32)
  | hexUint64 (data : List UInt64)
  | bool (data : List Bool)

inductive ValueType
  | str
  | hex
  | int32
  | uint32
  | hexUint64
  | bool
deriving DecidableEq

def readValueLine (stream : Cursor Char) (key : List Char) (type : ValueType) (dataSize : Nat)
    (strictMode : Bool) : Option Values × Cursor Char :=
  match type with
  | .str => (readString stream key strictMode).map (Option.map .str) id
  | .hex => (readElements scanHex stream key dataSize strictMode).map (Option.map .hex) id
  | .int32 => (readElements scanInt32 stream key dataSize strictMode).map (Option.map .int32) id
  | .uint32 => (readElements scanUint32 stream key dataSize strictMode).map (Option.map .uint32) id
  | .hexUint64 =>
    (readElements scanUint64 stream key dataSize strictMode).map (Option.map .hexUint64) id
  | .bool => (readElements scanBool stream key dataSize strictMode).map (Option.map .bool) id

/-- A text that is read as one value. -/
def IsToken (w : List Char) : Prop := w ≠ [] ∧ ∀ c ∈ w, isSpace c = false ∧ c ≠ '\n'

/-- A printer whose texts are values, and a reader that takes them back. -/
structure ElementFormat {α : Type} (print : α → List Char) (scan : List Char → Option α) : Prop where
  token : ∀ x, IsToken (print x)
  scan_print : ∀ x, scan (print x) = some x

theorem hexDigit_lt : ∀ d < 16, hexCharToHexNibble (hexDigit d) = some d ∧
    isSpace (hexDigit d) = false ∧ hexDigit d ≠ '\n' := by decide

theorem hexCharToUint8_hexDigit {h l : Nat} (hh : h < 16) (hl : l < 16) :
    hexCharToUint8 (hexDigit h) (hexDigit l) = some (h * 16 + l) := by
  rw [hexCharToUint8, (hexDigit_lt h hh).1, (hexDigit_lt l hl).1]
  rfl

theorem mem_printHex {width n : Nat} {c : Char} (hc : c ∈ printHex width n) :
    isSpace c = false ∧ c ≠ '\n' := by
  obtain ⟨d, hd, rfl⟩ := mem_map.mp hc
  exact (hexDigit_lt d (Digits.digits_lt (by decide) width n d hd)).2

theorem length_printHex (width n : Nat) : (printHex width n).length = width := by
  rw [printHex, length_map, Digits.length_digits]

theorem hexFormat : ElementFormat (fun byte : UInt8 => printHex 2 byte.toNat) scanHex where
  token byte := by
    refine ⟨fun h => ?_, fun c hc => mem_printHex hc⟩
    have hlength := length_printHex 2 byte.toNat
    rw [h] at hlength
    cases hlength
  scan_print byte := by
    have hlt := byte.toNat_lt
    have hprint : printHex 2 byte.toNat =
        [hexDigit (byte.toNat / 16 % 16), hexDigit (byte.toNat % 16)] := rfl
    have hsum : byte.toNat / 16 % 16 * 16 + byte.toNat % 16 = byte.toNat := by omega
    rw [hprint, scanHex, hexCharToUint8_hexDigit (Nat.mod_lt _ (by decide)) (Nat.mod_lt _ (by decide)),
      hsum, map_some, UInt8.ofNat_toNat]

theorem hexCharsLoop_digits {n : Nat} {ds : List Nat} (hlength : ds.length = 2 * n)
    (hds : ∀ d ∈ ds, d < 16) (value : Nat) :
    hexCharsLoop n value (ds.map hexDigit) = some (ds.foldl (fun v d => v * 16 + d) value) := by
  induction n generalizing ds value with
  | zero => rw [length_eq_zero_iff.mp hlength]; rfl
  | succ n ih =>
    obtain ⟨h, ds, rfl⟩ := exists_cons_of_length_pos (show 0 < ds.length by omega)
    rw [length_cons] at hlength
    obtain ⟨l, ds, rfl⟩ := exists_cons_of_length_pos (show 0 < ds.length by omega)
    rw [length_cons] at hlength
    obtain ⟨hh, hds⟩ := forall_mem_cons.mp hds
    obtain ⟨hl, hds⟩ := forall_mem_cons.mp hds
    rw [map_cons, map_cons, hexCharsLoop, hexCharToUint8_hexDigit hh hl, bind_some,
      ih (by omega) hds, foldl_cons, foldl_cons]
    congr 2
    omega

theorem uint64Format : ElementFormat printUint64 scanUint64 where
  token n := by
    refine ⟨fun h => ?_, fun c hc => ?_⟩
    · have hlength := congrArg List.length h
      rw [printUint64, length_append, length_printHex, length_printHex] at hlength
      cases hlength
    · rcases mem_append.mp hc with hc | hc <;> exact mem_printHex hc
  scan_print n := by
    have hlt := n.toNat_lt
    have hlength : (printUint64 n).length = 16 := by
      rw [printUint64, length_append, length_printHex, length_printHex]
    have hprint : printUint64 n = (Digits.digits 16 8 (n.toNat / 2 ^ 32) ++
        Digits.digits 16 8 (n.toNat % 2 ^ 32)).map hexDigit := (map_append ..).symm
    have hds : ∀ d ∈ Digits.digits 16 8 (n.toNat / 2 ^ 32) ++
        Digits.digits 16 8 (n.toNat % 2 ^ 32), d < 16 :=
      forall_mem_append.mpr ⟨Digits.digits_lt (by decide) _ _, Digits.digits_lt (by decide) _ _⟩
    have hvalue : (Digits.digits 16 8 (n.toNat / 2 ^ 32) ++
        Digits.digits 16 8 (n.toNat % 2 ^ 32)).foldl (fun v d => v * 16 + d) 0 = n.toNat := by
      rw [foldl_append, Digits.foldl_digits, Digits.foldl_digits]
      omega
    rw [scanUint64, if_pos (Nat.le_of_eq hlength.symm), hprint,
      hexCharsLoop_digits (by rw [length_append, Digits.length_digits, Digits.length_digits]) hds,
      hvalue, map_some, UInt64.ofNat_toNat]

theorem boolFormat : ElementFormat printBool scanBool where
  token b := by
    cases b with
    | false => exact ⟨by decide, by simp [printBool, FlipperStream.isSpace]⟩
    | true => exact ⟨by decide, by simp [printBool, FlipperStream.isSpace]⟩
  scan_print b := by cases b <;> rfl

theorem isToken_digit {c : Char} (h : c.isDigit = true) :
    Toolbox.FlipperStream.isSpace c = false ∧ c ≠ '\n' := by
  refine ⟨?_, fun heq => absurd h (heq ▸ by decide)⟩
  rw [isSpace]
  by_contra hspace
  simp only [Bool.not_eq_false, Bool.or_eq_true, decide_eq_true_eq] at hspace
  rcases hspace with (rfl | rfl) | rfl <;> cases h

theorem mem_toDigits {n : Nat} {c : Char} (hc : c ∈ Nat.toDigits 10 n) :
    isSpace c = false ∧ c ≠ '\n' :=
  isToken_digit (Nat.isDigit_of_mem_toDigits (by decide) (by decide) hc)

theorem toDigits_ne_nil (n : Nat) : Nat.toDigits 10 n ≠ [] := by
  intro h
  have hvalue := Nat.ofDigitChars_ten_toDigits (n := n)
  cases Nat.eq_zero_or_pos n with
  | inl hzero => rw [hzero] at h; cases h
  | inr hpos =>
    obtain ⟨c, s, heq, -⟩ := toDigits_head hpos
    rw [h] at heq
    exact absurd heq.symm (cons_ne_nil c s)

theorem strintToUint64Internal_space (s : List Char) (base maxNegative maxPositive : Nat) :
    strintToUint64Internal (' ' :: s) base maxNegative maxPositive =
      strintToUint64Internal s base maxNegative maxPositive := by
  rw [strintToUint64Internal, dropWhile_cons_of_pos (by decide), ← strintToUint64Internal]

theorem stops_nil : Stops [] := fun c hc => absurd hc (by simp)

theorem uint32Format : ElementFormat printUint32 scanUint32 where
  token n := ⟨toDigits_ne_nil _, fun c hc => mem_toDigits hc⟩
  scan_print n := by
    have hlt := n.toNat_lt
    rcases Nat.eq_zero_or_pos n.toNat with hzero | hpos
    · obtain rfl : n = 0 := UInt32.toNat_inj.mp hzero
      rfl
    · have hread := strintToUint64Internal_of_digits 0 0xFFFFFFFF false hpos
        (fun h => absurd h Bool.false_ne_true) (by simp only [Bool.false_eq_true, if_false]; omega)
        stops_nil
      rw [strintToUint64Internal_space] at hread
      simp only [Bool.false_eq_true, if_false, nil_append, append_nil] at hread
      rw [scanUint32, printUint32, hread]
      simp only [UInt32.ofNat_toNat]

theorem int32Format : ElementFormat printInt32 scanInt32 where
  token n := by
    rw [printInt32]
    split
    · refine ⟨cons_ne_nil _ _, fun c hc => ?_⟩
      rcases mem_cons.mp hc with rfl | hc
      · exact ⟨rfl, by decide⟩
      · exact mem_toDigits hc
    · exact ⟨toDigits_ne_nil _, fun c hc => mem_toDigits hc⟩
  scan_print n := by
    have hle := n.le_toInt
    have hlt := n.toInt_lt
    have hmax : int32Max = 2 ^ 31 - 1 := rfl
    rcases Nat.eq_zero_or_pos n.toInt.natAbs with hzero | hpos
    · obtain rfl : n = 0 := Int32.toInt_inj.mp (Int.natAbs_eq_zero.mp hzero)
      rfl
    · have hread := strintToUint64Internal_of_digits (int32Max + 1) int32Max
        (decide (n.toInt < 0)) hpos (by omega) (by split <;> simp_all <;> omega) stops_nil
      rw [strintToUint64Internal_space] at hread
      have hprint : printInt32 n =
          (if decide (n.toInt < 0) then ['-'] else []) ++ (Nat.toDigits 10 n.toInt.natAbs ++ []) := by
        by_cases hneg : n.toInt < 0 <;> simp [printInt32, hneg]
      have habs : (if decide (n.toInt < 0) = true then -(n.toInt.natAbs : Int)
          else (n.toInt.natAbs : Int)) = n.toInt := by
        by_cases hneg : n.toInt < 0
        · rw [if_pos (decide_eq_true hneg)]
          omega
        · rw [if_neg (by simpa using hneg)]
          omega
      have hint : strintToInt32 (printInt32 n) 10 = .ok (n.toInt, []) := by
        rw [strintToInt32, hprint, hread]
        exact congrArg Except.ok (Prod.ext habs rfl)
      rw [scanInt32, hint]
      simp only [Int32.ofInt_toInt]

theorem scan_value {w : List Char} (hw : ∀ c ∈ w, isSpace c = false ∧ c ≠ '\n') (front : List Char) :
    (Cursor.scan valueStep ⟨.readValue, front⟩ w).1 = .inl ⟨.readValue, front ++ w⟩ := by
  induction w generalizing front with
  | nil => rw [append_nil]; rfl
  | cons c w ih =>
    obtain ⟨⟨hspace, heol⟩, hw⟩ := forall_mem_cons.mp hw
    have hstep : valueStep ⟨.readValue, front⟩ c = .inl ⟨.readValue, front ++ [c]⟩ := by
      simp only [valueStep, hspace, Bool.false_eq_true, if_false, if_neg heol]
    rw [Cursor.scan_cons_inl hstep, ih hw, append_assoc]
    rfl

theorem scan_token {w : List Char} (hw : IsToken w) (text : List Char) :
    Cursor.scan valueStep ⟨.leadingSpace, []⟩ (w ++ text) =
      ((Cursor.scan valueStep ⟨.readValue, w⟩ text).1,
        w.length + (Cursor.scan valueStep ⟨.readValue, w⟩ text).2) := by
  obtain ⟨hne, hchars⟩ := hw
  obtain ⟨c, w, rfl⟩ := exists_cons_of_ne_nil hne
  obtain ⟨⟨hspace, heol⟩, hw⟩ := forall_mem_cons.mp hchars
  have hstep : valueStep ⟨.leadingSpace, []⟩ c = .inl ⟨.readValue, [c]⟩ := by
    simp only [valueStep, hspace, Bool.false_eq_true, if_false, if_neg heol, nil_append]
  have hscan : Cursor.scan valueStep ⟨.leadingSpace, []⟩ (c :: w) =
      (.inl ⟨.readValue, c :: w⟩, (Cursor.scan valueStep ⟨.readValue, [c]⟩ w).2 + 1) := by
    rw [Cursor.scan_cons_inl hstep, scan_value hw]
    rfl
  exact Cursor.scan_append_of_inl hscan text

theorem readValue_last {w rest : List Char} (hw : IsToken w) {stream : Cursor Char}
    (hafter : stream.after = w ++ '\n' :: rest) :
    readValue stream = (some (w, true), stream.advance w.length) := by
  have hstop : Cursor.scan valueStep ⟨.readValue, w⟩ ('\n' :: rest) = (.inr (some (w, true)), 0) :=
    Cursor.scan_cons_inr rfl
  rw [readValue, Cursor.scanBlocks_eq (by decide), hafter, scan_token hw, hstop]
  rfl

theorem readValue_more {w rest : List Char} {c : Char} (hw : IsToken w) (hspace : isSpace c = false)
    (heol : c ≠ '\n') {stream : Cursor Char} (hafter : stream.after = w ++ ' ' :: c :: rest) :
    readValue stream = (some (w, false), stream.advance (w.length + 1)) := by
  have hstep : valueStep ⟨.readValue, w⟩ ' ' = .inl ⟨.trailingSpace, w⟩ := rfl
  have hend : valueStep ⟨.trailingSpace, w⟩ c = .inr (some (w, false)) := by
    simp only [valueStep, hspace, Bool.false_eq_true, if_false, heol, decide_false]
  have hstop : Cursor.scan valueStep ⟨.readValue, w⟩ (' ' :: c :: rest) =
      (.inr (some (w, false)), 1) := by
    rw [Cursor.scan_cons_inl hstep, Cursor.scan_cons_inr hend]
  rw [readValue, Cursor.scanBlocks_eq (by decide), hafter, scan_token hw, hstop]

def valuesText (values : List (List Char)) : List Char := (valuePieces values).flatten

theorem valuesText_singleton (w : List Char) : valuesText [w] = w := flatten_singleton

theorem valuesText_cons (w v : List Char) (values : List (List Char)) :
    valuesText (w :: v :: values) = w ++ ' ' :: valuesText (v :: values) := by
  rw [valuesText, valuePieces, flatten_cons, append_assoc]
  · rfl
  · exact fun h => cons_ne_nil _ _ h

theorem valuesText_head {w : List Char} (hw : IsToken w) (values : List (List Char)) :
    ∃ c text, valuesText (w :: values) = c :: text ∧ isSpace c = false ∧ c ≠ '\n' := by
  obtain ⟨c, w, rfl⟩ := exists_cons_of_ne_nil hw.1
  obtain ⟨hspace, heol⟩ := hw.2 c mem_cons_self
  cases values with
  | nil => exact ⟨c, w, valuesText_singleton _, hspace, heol⟩
  | cons v values => exact ⟨c, _, valuesText_cons _ v values, hspace, heol⟩

theorem readValue_cons {w v rest : List Char} {values : List (List Char)} (hw : IsToken w)
    (hv : IsToken v) {stream : Cursor Char}
    (hafter : stream.after = valuesText (w :: v :: values) ++ '\n' :: rest) :
    readValue stream = (some (w, false), stream.advance (w.length + 1)) ∧
      (stream.advance (w.length + 1)).after = valuesText (v :: values) ++ '\n' :: rest := by
  obtain ⟨c, text, hhead, hspace, heol⟩ := valuesText_head hv values
  rw [valuesText_cons, append_assoc, cons_append] at hafter
  refine ⟨?_, ?_⟩
  · rw [hhead, cons_append] at hafter
    exact readValue_more hw hspace heol hafter
  · rw [Cursor.advance, hafter, drop_length_add_append]
    rfl

theorem countLoop_values {w rest : List Char} {values : List (List Char)}
    (hvalues : ∀ v ∈ w :: values, IsToken v) {stream : Cursor Char}
    (hafter : stream.after = valuesText (w :: values) ++ '\n' :: rest) {fuel count : Nat}
    (hfuel : values.length < fuel) :
    countLoop fuel count stream = (some (count + (values.length + 1)),
      stream.advance (valuesText (w :: values)).length) := by
  induction values generalizing w stream fuel count with
  | nil =>
    obtain ⟨fuel, rfl⟩ := Nat.exists_eq_succ_of_ne_zero (Nat.ne_of_gt hfuel)
    rw [valuesText_singleton] at hafter ⊢
    rw [countLoop, readValue_last (hvalues w mem_cons_self) hafter]
    rfl
  | cons v values ih =>
    obtain ⟨fuel, rfl⟩ := Nat.exists_eq_succ_of_ne_zero (Nat.ne_of_gt (Nat.zero_lt_of_lt hfuel))
    obtain ⟨hw, hrest⟩ := forall_mem_cons.mp hvalues
    obtain ⟨hread, hnext⟩ := readValue_cons hw (hrest v mem_cons_self) hafter
    rw [length_cons] at hfuel
    rw [countLoop, hread]
    simp only [Bool.false_eq_true, if_false]
    rw [ih hrest hnext (by omega), Cursor.advance_advance, valuesText_cons, length_append,
      length_cons, length_cons]
    refine Prod.ext (congrArg some (by omega)) (congrArg stream.advance (by omega))

theorem readElementsLoop_values {α : Type} {print : α → List Char} {scan : List Char → Option α}
    (hformat : ElementFormat print scan) {x : α} {xs : List α} {rest : List Char}
    {stream : Cursor Char}
    (hafter : stream.after = valuesText ((x :: xs).map print) ++ '\n' :: rest) :
    readElementsLoop scan (xs.length + 1) stream =
      (some (x :: xs), stream.advance (valuesText ((x :: xs).map print)).length) := by
  induction xs generalizing x stream with
  | nil =>
    rw [map_cons, map_nil, valuesText_singleton] at hafter ⊢
    rw [length_nil, readElementsLoop, readValue_last (hformat.token x) hafter]
    simp only [hformat.scan_print]
    rw [if_neg (fun h => h.2 rfl)]
    rfl
  | cons y xs ih =>
    obtain ⟨hread, hnext⟩ := readValue_cons (hformat.token x) (hformat.token y) hafter
    rw [readElementsLoop, hread]
    simp only [hformat.scan_print]
    rw [if_neg (fun h => Bool.false_ne_true h.1), length_cons, ih hnext, Cursor.advance_advance]
    simp only [map_cons]
    rw [valuesText_cons, length_append, length_cons]
    exact Prod.ext rfl (congrArg stream.advance (by omega))

theorem readLine_eq {str rest : List Char} (hstr : '\n' ∉ str ∧ '\r' ∉ str) (hne : str ≠ [])
    {stream : Cursor Char} (hafter : stream.after = str ++ '\n' :: rest) :
    readLine stream = (some str, stream.advance str.length) := by
  have hscan : ∀ (str front : List Char), '\n' ∉ str ∧ '\r' ∉ str →
      Cursor.scan lineStep front (str ++ '\n' :: rest) = (.inr (front ++ str), str.length) := by
    intro str
    induction str with
    | nil =>
      intro front _
      rw [append_nil]
      exact Cursor.scan_cons_inr rfl
    | cons c str ih =>
      intro front hstr
      obtain ⟨hc, heol⟩ := not_or.mp (mt mem_cons.mpr hstr.1)
      obtain ⟨hc', hcr⟩ := not_or.mp (mt mem_cons.mpr hstr.2)
      have hstep : lineStep front c = .inl (front ++ [c]) := by
        rw [lineStep, if_neg (Ne.symm hc), if_neg (Ne.symm hc')]
      rw [cons_append, Cursor.scan_cons_inl hstep, ih _ ⟨heol, hcr⟩, append_assoc]
      rfl
  rw [readLine, Cursor.scanBlocks_eq (by decide), hafter, hscan str [] hstr]
  simp only [nil_append, if_neg hne]

theorem seekToKey_key {p key text : List Char} (hp : Passes p) (hkey : ValidKey key)
    {stream : Cursor Char} (hafter : stream.after = p ++ (key ++ ':' :: ' ' :: text))
    (strictMode : Bool) :
    ∃ found, seekToKey key strictMode stream = (true, found) ∧ found.after = text ∧
      found.content = stream.content := by
  have hlength : (stream.advance (p.length + key.length)).after = ':' :: ' ' :: text := by
    rw [Cursor.advance, hafter, ← append_assoc, ← length_append, drop_left]
  refine ⟨(stream.advance (p.length + key.length)).advance 2, ?_, ?_, ?_⟩
  · rw [seekToKey, seekToKeyLoop_key hp hkey hafter]
    exact Cursor.seek_advance (by rw [hlength]; simp only [length_cons]; omega)
  · rw [Cursor.advance, hlength]
    rfl
  · rw [Cursor.content_advance, Cursor.content_advance]

theorem getValueCount_eq {p key w rest : List Char} {values : List (List Char)} (hp : Passes p)
    (hkey : ValidKey key) (hvalues : ∀ v ∈ w :: values, IsToken v) {stream : Cursor Char}
    (hafter : stream.after = p ++ (key ++ ':' :: ' ' :: (valuesText (w :: values) ++ '\n' :: rest)))
    (strictMode : Bool) :
    getValueCount stream key strictMode = (some (values.length + 1), stream) := by
  obtain ⟨found, hfound, htext, hcontent⟩ := seekToKey_key hp hkey hafter strictMode
  have hfuel : ∀ (w : List Char) (values : List (List Char)), values.length ≤
      (valuesText (w :: values)).length := by
    intro w values
    induction values generalizing w with
    | nil => exact Nat.zero_le _
    | cons v values ih =>
      have := ih v
      rw [valuesText_cons, length_append, length_cons, length_cons]
      omega
  have hcount := @countLoop_values _ _ _ hvalues found htext (found.after.length + 1) 0 (by
    have := hfuel w values
    rw [htext, length_append]
    omega)
  have hback : (found.advance (valuesText (w :: values)).length).seek (stream.tell : Nat) =
      (true, stream) :=
    Cursor.seek_length (by rw [Cursor.content_advance, hcontent, Cursor.content]) rfl
  rw [getValueCount, hfound]
  simp only [if_true, hcount, hback, Nat.zero_add]

theorem readElements_eq {α : Type} {print : α → List Char} {scan : List Char → Option α}
    (hformat : ElementFormat print scan) {p key rest : List Char} {x : α} {xs : List α}
    (hp : Passes p) (hkey : ValidKey key) {stream : Cursor Char}
    (hafter : stream.after =
      p ++ (key ++ ':' :: ' ' :: (valuesText ((x :: xs).map print) ++ '\n' :: rest)))
    (strictMode : Bool) :
    getValueCount stream key strictMode = (some (xs.length + 1), stream) ∧
      ∃ next, readElements scan stream key (xs.length + 1) strictMode = (some (x :: xs), next) ∧
        next.after = '\n' :: rest := by
  have htokens : ∀ v ∈ print x :: xs.map print, IsToken v := by
    intro v hv
    obtain ⟨y, -, rfl⟩ := mem_map.mp (map_cons ▸ hv : v ∈ (x :: xs).map print)
    exact hformat.token y
  refine ⟨?_, ?_⟩
  · have hcount := getValueCount_eq hp hkey htokens hafter strictMode
    rwa [length_map] at hcount
  · obtain ⟨found, hfound, htext, -⟩ := seekToKey_key hp hkey hafter strictMode
    refine ⟨found.advance (valuesText ((x :: xs).map print)).length, ?_, ?_⟩
    · rw [readElements, hfound]
      simp only [if_true]
      exact readElementsLoop_values hformat htext
    · rw [Cursor.advance, htext, drop_left]

theorem readString_eq {p key str rest : List Char} (hp : Passes p) (hkey : ValidKey key)
    (hstr : '\n' ∉ str ∧ '\r' ∉ str) (hne : str ≠ []) {stream : Cursor Char}
    (hafter : stream.after = p ++ (key ++ ':' :: ' ' :: (str ++ '\n' :: rest)))
    (strictMode : Bool) :
    ∃ next, readString stream key strictMode = (some str, next) ∧ next.after = '\n' :: rest := by
  obtain ⟨found, hfound, htext, -⟩ := seekToKey_key hp hkey hafter strictMode
  refine ⟨found.advance str.length, ?_, ?_⟩
  · rw [readString, hfound]
    simp only [if_true]
    exact readLine_eq hstr hne htext
  · rw [Cursor.advance, htext, drop_left]

/-- What is written into a file. -/
inductive Entry
  | comment (text : List Char)
  | pair (key : List Char) (data : WriteData)

/-- What is read where it was written. -/
def WriteData.values : WriteData → Option Values
  | ignore | float _ => none
  | str data => some (.str data)
  | hex data => some (.hex data.data)
  | int32 data => some (.int32 data.data)
  | uint32 data => some (.uint32 data.data)
  | hexUint64 data => some (.hexUint64 data.data)
  | bool data => some (.bool data.data)

namespace Values

def type : Values → ValueType
  | str _ => .str
  | hex _ => .hex
  | int32 _ => .int32
  | uint32 _ => .uint32
  | hexUint64 _ => .hexUint64
  | bool _ => .bool

/-- How many elements an array has; a string is not counted. -/
def count : Values → Option Nat
  | str _ => none
  | hex data => some data.length
  | int32 data => some data.length
  | uint32 data => some data.length
  | hexUint64 data => some data.length
  | bool data => some data.length

def WellFormed : Values → Prop
  | str data => data ≠ [] ∧ '\n' ∉ data ∧ '\r' ∉ data
  | values => values.count ≠ some 0

end Values

namespace Entry

def WellFormed : Entry → Prop
  | comment text => '\n' ∉ text
  | pair key data => ValidKey key ∧ ∃ values, data.values = some values ∧ values.WellFormed

def pieces : Entry → List (List Char)
  | comment text => writeComment text
  | pair key data => writeValueLine key data

def read? : Entry → Option (List Char × Values)
  | comment _ => none
  | pair key data => data.values.map fun values => (key, values)

end Entry

/-- Entries are written one after another. -/
def writeEntries (entries : List Entry) (stream : Cursor Char) : Cursor Char :=
  entries.foldl (fun stream entry => entry.pieces.foldl Cursor.write stream) stream

/-- A key is read back: an array with the number of elements that `flipper_format_stream_get_value_count`
gives. -/
def readBack (stream : Cursor Char) (key : List Char) (type : ValueType) (strictMode : Bool) :
    Option (Option Nat × Values) × Cursor Char :=
  if type = .str then
    (readValueLine stream key type 1 strictMode).map (Option.map (none, ·)) id
  else
    match getValueCount stream key strictMode with
    | (none, stream) => (none, stream)
    | (some count, stream) =>
      (readValueLine stream key type count strictMode).map (Option.map (some count, ·)) id

def readAllBack (strictMode : Bool) :
    List (List Char × ValueType) → Cursor Char → Option (List (Option Nat × Values))
  | [], _ => some []
  | (key, type) :: keys, stream =>
    match readBack stream key type strictMode with
    | (none, _) => none
    | (some values, stream) => (readAllBack strictMode keys stream).map (values :: ·)

theorem flatten_writeValueLine {data : WriteData} {texts : List (List Char)}
    (h : data.texts = some texts) (key : List Char) :
    (writeValueLine key data).flatten = key ++ ':' :: ' ' :: (valuesText texts ++ ['\n']) := by
  rw [writeValueLine, h]
  simp only [flatten_append, flatten_cons, flatten_nil, append_nil, append_assoc, valuesText]
  rfl

theorem readBack_array {α : Type} {print : α → List Char} {scan : List Char → Option α}
    (hformat : ElementFormat print scan) (make : List α → Values) (type : ValueType)
    (hread : ∀ stream key dataSize strictMode, readValueLine stream key type dataSize strictMode =
      (readElements scan stream key dataSize strictMode).map (Option.map make) id)
    (htype : type ≠ .str) {p key text : List Char} {xs : List α} (hne : some xs.length ≠ some 0)
    (hp : Passes p) (hkey : ValidKey key) {stream : Cursor Char}
    (hafter : stream.after =
      p ++ (key ++ ':' :: ' ' :: (valuesText (xs.map print) ++ '\n' :: text)))
    (strictMode : Bool) :
    ∃ next, readBack stream key type strictMode = (some (some xs.length, make xs), next) ∧
      next.after = '\n' :: text := by
  cases xs with
  | nil => exact absurd rfl hne
  | cons x xs =>
    obtain ⟨hcount, next, hvalues, hnext⟩ := readElements_eq hformat hp hkey hafter strictMode
    refine ⟨next, ?_, hnext⟩
    rw [readBack, if_neg htype, hcount]
    simp only
    rw [hread, hvalues]
    rfl

theorem readBack_pair {p key text : List Char} {data : WriteData} {values : Values} (hp : Passes p)
    (hkey : ValidKey key) (hdata : data.values = some values) (hvalues : values.WellFormed)
    {stream : Cursor Char}
    (hafter : stream.after = p ++ ((writeValueLine key data).flatten ++ text)) (strictMode : Bool) :
    ∃ next, readBack stream key values.type strictMode = (some (values.count, values), next) ∧
      next.after = '\n' :: text := by
  have harray : ∀ texts, data.texts = some texts →
      stream.after = p ++ (key ++ ':' :: ' ' :: (valuesText texts ++ '\n' :: text)) := by
    intro texts htexts
    rw [hafter, flatten_writeValueLine htexts]
    simp only [append_assoc, cons_append, nil_append]
  cases data with
  | ignore => exact absurd hdata (some_ne_none values).symm
  | float printed => exact absurd hdata (some_ne_none values).symm
  | str data =>
    obtain rfl := some.inj hdata
    have htext := harray [data] rfl
    rw [valuesText_singleton] at htext
    obtain ⟨next, hread, hnext⟩ := readString_eq hp hkey hvalues.2 hvalues.1 htext strictMode
    refine ⟨next, ?_, hnext⟩
    rw [readBack, Values.type, if_pos rfl, readValueLine, hread]
    rfl
  | hex data =>
    obtain rfl := some.inj hdata
    exact readBack_array hexFormat .hex .hex (fun _ _ _ _ => rfl) nofun hvalues hp hkey
      (harray _ rfl) strictMode
  | int32 data =>
    obtain rfl := some.inj hdata
    exact readBack_array int32Format .int32 .int32 (fun _ _ _ _ => rfl) nofun hvalues hp hkey
      (harray _ rfl) strictMode
  | uint32 data =>
    obtain rfl := some.inj hdata
    exact readBack_array uint32Format .uint32 .uint32 (fun _ _ _ _ => rfl) nofun hvalues hp hkey
      (harray _ rfl) strictMode
  | hexUint64 data =>
    obtain rfl := some.inj hdata
    exact readBack_array uint64Format .hexUint64 .hexUint64 (fun _ _ _ _ => rfl) nofun hvalues hp hkey
      (harray _ rfl) strictMode
  | bool data =>
    obtain rfl := some.inj hdata
    exact readBack_array boolFormat .bool .bool (fun _ _ _ _ => rfl) nofun hvalues hp hkey
      (harray _ rfl) strictMode

def entriesText (entries : List Entry) : List Char := entries.flatMap fun entry => entry.pieces.flatten

theorem entriesText_cons (entry : Entry) (entries : List Entry) :
    entriesText (entry :: entries) = entry.pieces.flatten ++ entriesText entries := flatMap_cons

theorem writeEntries_eq (entries : List Entry) (l : List Char) :
    writeEntries entries ⟨l, []⟩ = ⟨l ++ entriesText entries, []⟩ := by
  induction entries generalizing l with
  | nil => exact Cursor.ext (append_nil l).symm rfl
  | cons entry entries ih =>
    have hentry : entry.pieces.foldl Cursor.write ⟨l, []⟩ = ⟨l ++ entry.pieces.flatten, []⟩ := by
      rw [Cursor.foldl_write, Cursor.write_at_end]
    rw [writeEntries, foldl_cons, hentry, ← writeEntries, ih, entriesText_cons, append_assoc]

theorem readAllBack_eq {entries : List Entry} (hentries : ∀ entry ∈ entries, entry.WellFormed)
    {p : List Char} (hp : Passes p) {stream : Cursor Char}
    (hafter : stream.after = p ++ entriesText entries) (strictMode : Bool) :
    readAllBack strictMode ((entries.filterMap Entry.read?).map fun r => (r.1, r.2.type)) stream =
      some ((entries.filterMap Entry.read?).map fun r => (r.2.count, r.2)) := by
  induction entries generalizing p stream with
  | nil => rfl
  | cons entry entries ih =>
    obtain ⟨hentry, htail⟩ := forall_mem_cons.mp hentries
    rw [entriesText_cons] at hafter
    cases entry with
    | comment text =>
      have hline : Passes (writeComment text).flatten := by
        have htext : (Line.comment (' ' :: text)).WellFormed :=
          fun h => hentry ((mem_cons.mp h).resolve_left (by decide))
        exact passes_line htext rfl
      rw [filterMap_cons_none rfl]
      exact ih htail (hp.append hline) (by rw [hafter, append_assoc]; rfl)
    | pair key data =>
      obtain ⟨hkey, values, hdata, hvalues⟩ := hentry
      have hread : Entry.read? (.pair key data) = some (key, values) := by
        rw [Entry.read?, hdata]
        rfl
      obtain ⟨next, hback, hnext⟩ := readBack_pair hp hkey hdata hvalues hafter strictMode
      rw [filterMap_cons_some hread, map_cons, map_cons, readAllBack, hback]
      simp only
      rw [@ih htail ['\n'] rfl next hnext]
      rfl

/-- Whatever was written is read back in order, in strict mode or not, and arrays with their counts. -/
theorem readAllBack_writeEntries (entries : List Entry) (strictMode : Bool)
    (hentries : ∀ entry ∈ entries, entry.WellFormed) :
    ((writeEntries entries ⟨[], []⟩).seek 0).1 = true ∧
      readAllBack strictMode ((entries.filterMap Entry.read?).map fun r => (r.1, r.2.type))
          ((writeEntries entries ⟨[], []⟩).seek 0).2 =
        some ((entries.filterMap Entry.read?).map fun r => (r.2.count, r.2)) := by
  have hrewound : (writeEntries entries ⟨[], []⟩).seek 0 = (true, ⟨[], entriesText entries⟩) := by
    rw [writeEntries_eq]
    exact @Cursor.seek_length _ _ [] _ (append_nil _) 0 rfl
  rw [hrewound]
  exact ⟨rfl, readAllBack_eq hentries passes_nil rfl strictMode⟩

theorem readAllBack_writeEntries_ab : readAllBack true [("a".toList, .int32), ("b".toList, .str)]
        ((writeEntries [.pair "a".toList (.int32 ⟨[-7, 0], by decide⟩), .comment "c: d".toList,
          .pair "b".toList (.str " e:f ".toList)] ⟨[], []⟩).seek 0).2 =
      some [(some 2, .int32 [-7, 0]), (none, .str " e:f ".toList)] := by
  refine (readAllBack_writeEntries [.pair "a".toList (.int32 ⟨[-7, 0], by decide⟩),
    .comment "c: d".toList, .pair "b".toList (.str " e:f ".toList)] true ?_).2
  rintro entry (_ | ⟨_, _ | ⟨_, _ | ⟨_, h⟩⟩⟩)
  · exact ⟨by decide, _, rfl, nofun⟩
  · show '\n' ∉ "c: d".toList
    decide
  · exact ⟨by decide, _, rfl, by decide, by decide, by decide⟩
  · exact absurd h not_mem_nil

/-- A string is one value, and its words are counted. -/
theorem getValueCount_counts_words :
    ¬ ∀ (key str : List Char) (strictMode : Bool), (Entry.pair key (.str str)).WellFormed →
      (getValueCount ((writeEntries [.pair key (.str str)] ⟨[], []⟩).seek 0).2 key strictMode).1 =
        some 1 := by
  intro h
  have hone := h "a".toList "b c".toList false ⟨by decide, _, rfl, by decide, by decide, by decide⟩
  have htwo : (getValueCount ((writeEntries [.pair "a".toList (.str "b c".toList)] ⟨[], []⟩).seek 0).2
      "a".toList false).1 = some 2 := by decide
  rw [htwo] at hone
  cases hone

end NikitaFirmware.Toolbox.FlipperStream
