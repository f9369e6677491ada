import Mathlib.Data.List.TakeWhile
import NikitaFirmware.Foundations.Cursor
import NikitaFirmware.Foundations.Digits

/-!
# Reading and writing keys and values in a stream

`lib/flipper_format/flipper_format_stream.c` over any stream, which is a sequence of characters with
a position. Its readers take blocks of 32 characters and seek back to where they stopped.
-/

namespace NikitaFirmware.Toolbox.FlipperStream

open Foundations List

def bufferSize : Nat := 32

def isSpace (c : Char) : Bool := c = ' ' || c = '\t' || c = '\r'

/-- The variables of `flipper_format_stream_read_valid_key`. -/
structure KeyState where
  key : List Char
  accumulate : Bool
  newLine : Bool

/-- The loop of `flipper_format_stream_read_valid_key`, which ends at a delimiter. -/
def keyStep (state : KeyState) (data : Char) : KeyState ⊕ List Char :=
  if data = '\n' then .inl ⟨[], true, true⟩
  else if data = '\r' then .inl state
  else if data = '#' ∧ state.newLine = true then .inl ⟨state.key, false, false⟩
  else if data = ':' then
    if state.newLine then .inl ⟨[], false, false⟩
    else if state.accumulate then .inr state.key
    else .inl state
  else .inl ⟨if state.accumulate then state.key ++ [data] else state.key, state.accumulate, false⟩

def readValidKey (stream : Cursor Char) : Option (List Char) × Cursor Char :=
  match Cursor.scanBlocks bufferSize keyStep ⟨[], true, true⟩ stream with
  | (.inr key, stream) => (some key, stream)
  | (.inl _, stream) => (none, stream)

/-- `furi_string_cmp_str` finds no difference: a string that was read ends at a NUL. -/
def sameKey (readKey key : List Char) : Prop := readKey.takeWhile (· ≠ '\x00') = key

instance decidableSameKey (readKey key : List Char) : Decidable (sameKey readKey key) :=
  inferInstanceAs (Decidable (readKey.takeWhile (· ≠ '\x00') = key))

def seekToKeyLoop (key : List Char) (strictMode : Bool) : Nat → Cursor Char → Bool × Cursor Char
  | 0, stream => (false, stream)
  | fuel + 1, stream =>
    if stream.eof then (false, stream)
    else
      match readValidKey stream with
      | (none, stream) => seekToKeyLoop key strictMode fuel stream
      | (some readKey, stream) =>
        if sameKey readKey key then stream.seek (stream.tell + 2)
        else if strictMode then (false, stream)
        else seekToKeyLoop key strictMode fuel stream

/-- `flipper_format_stream_seek_to_key`. Each key that is read lies behind the one before. -/
def seekToKey (key : List Char) (strictMode : Bool) (stream : Cursor Char) : Bool × Cursor Char :=
  seekToKeyLoop key strictMode (stream.after.length + 1) stream

/-- The loop of `flipper_format_stream_seek_to_next_line`. -/
def eolStep (_ : Unit) (data : Char) : Unit ⊕ Unit := if data = '\n' then .inr () else .inl ()

def seekToNextLine (stream : Cursor Char) : Bool × Cursor Char :=
  match Cursor.scanBlocks bufferSize eolStep () stream with
  | (.inr _, stream) => (true, stream)
  | (.inl _, stream) => (stream.eof, stream)

/-- An array of values: its size is a `uint16_t` of `flipper_format.c`. -/
structure Elements (α : Type) where
  data : List α
  fits : data.length < 2 ^ 16

/-- `FlipperStreamValue` with the data. A number with a fraction is what `printf` makes of it. -/
inductive WriteData
  | ignore
  | str (data : List Char)
  | hex (data : Elements UInt8)
  | float (printed : Elements (List Char))
  | int32 (data : Elements Int32)
  | uint32 (data : Elements UInt32)
  | hexUint64 (data : Elements UInt64)
  | bool (data : Elements Bool)

def hexDigit (n : Nat) : Char := "0123456789ABCDEF".toList.getD n '0'

/-- `printf` with `%02X` or `%08lX`, of a number that has no more digits. -/
def printHex (width n : Nat) : List Char := (Digits.digits 16 width n).map hexDigit

def printUint32 (n : UInt32) : List Char := Nat.toDigits 10 n.toNat

def printInt32 (n : Int32) : List Char :=
  if n.toInt < 0 then '-' :: Nat.toDigits 10 n.toInt.natAbs else Nat.toDigits 10 n.toInt.natAbs

/-- `printf` with `%08lX%08lX` and the halves. -/
def printUint64 (n : UInt64) : List Char :=
  printHex 8 (n.toNat / 2 ^ 32) ++ printHex 8 (n.toNat % 2 ^ 32)

def printBool (b : Bool) : List Char := if b then "true".toList else "false".toList

/-- The texts that `flipper_format_stream_write_value_line` prints, or none for
`FlipperStreamValueIgnore`. -/
def WriteData.texts : WriteData → Option (List (List Char))
  | ignore => none
  | str data => some [data]
  | hex data => some (data.data.map fun byte => printHex 2 byte.toNat)
  | float printed => some printed.data
  | int32 data => some (data.data.map printInt32)
  | uint32 data => some (data.data.map printUint32)
  | hexUint64 data => some (data.data.map printUint64)
  | bool data => some (data.data.map printBool)

/-- The values as they are written one after another, each but the last with a space. -/
def valuePieces : List (List Char) → List (List Char)
  | [] => []
  | [value] => [value]
  | value :: values => (value ++ [' ']) :: valuePieces values

/-- `flipper_format_stream_write_value_line`: the pieces that it writes. -/
def writeValueLine (key : List Char) (data : WriteData) : List (List Char) :=
  match data.texts with
  | none => []
  | some values => [key, [':'], [' ']] ++ valuePieces values ++ [['\n']]

/-- `flipper_format_stream_write_comment_cstr`: the pieces that it writes. -/
def writeComment (data : List Char) : List (List Char) := [['#', ' '], data, ['\n']]

def deleteKeyAndWrite (stream : Cursor Char) (key : List Char) (data : WriteData)
    (strictMode : Bool) : Bool × Cursor Char :=
  let size := stream.size
  if size = 0 then (false, stream)
  else
    let rewound := stream.seek 0
    if !rewound.1 then (false, rewound.2)
    else
      let found := seekToKey key strictMode rewound.2
      if !found.1 then (false, found.2)
      else
        let startPosition := found.2.tell - key.length
        if startPosition < 2 then (false, found.2)
        else
          let startPosition := startPosition - 2
          let next := seekToNextLine found.2
          if !next.1 then (false, next.2)
          else
            let endPosition := if next.2.tell < size then next.2.tell + 1 else next.2.tell
            let back := next.2.seek startPosition
            if !back.1 then (false, back.2)
            else (true, back.2.splice (endPosition - startPosition) (writeValueLine key data).flatten)

structure ValidKey (key : List Char) : Prop where
  ne_nil : key ≠ []
  head : key.head? ≠ some '#'
  chars : ∀ c ∈ key, c ≠ ':' ∧ c ≠ '\n' ∧ c ≠ '\r' ∧ c ≠ '\x00'

instance decidableValidKey (key : List Char) : Decidable (ValidKey key) :=
  let _ : Decidable (∀ c ∈ key, c ≠ ':' ∧ c ≠ '\n' ∧ c ≠ '\r' ∧ c ≠ '\x00') :=
    List.decidableBAll (fun c => c ≠ ':' ∧ c ≠ '\n' ∧ c ≠ '\r' ∧ c ≠ '\x00') key
  decidable_of_iff (key ≠ [] ∧ key.head? ≠ some '#' ∧
      ∀ c ∈ key, c ≠ ':' ∧ c ≠ '\n' ∧ c ≠ '\r' ∧ c ≠ '\x00')
    ⟨fun h => ⟨h.1, h.2.1, h.2.2⟩, fun h => ⟨h.ne_nil, h.head, h.chars⟩⟩

/-- A line of a file, without its end; a carriage return before it is part of the line. -/
inductive Line
  | blank (cr : Bool)
  | comment (text : List Char)
  | keyed (key value : List Char)

namespace Line

def chars : Line → List Char
  | blank cr => if cr then ['\r'] else []
  | comment text => '#' :: text
  | keyed key value => key ++ ':' :: value

def key? : Line → Option (List Char)
  | keyed key _ => some key
  | _ => none

def WellFormed : Line → Prop
  | blank _ => True
  | comment text => '\n' ∉ text
  | keyed key value => ValidKey key ∧ '\n' ∉ value

instance decidableWellFormed : ∀ line : Line, Decidable line.WellFormed
  | blank _ => isTrue trivial
  | comment text => inferInstanceAs (Decidable ('\n' ∉ text))
  | keyed key value => inferInstanceAs (Decidable (ValidKey key ∧ '\n' ∉ value))

end Line

def render (lines : List Line) : List Char := lines.flatMap fun line => line.chars ++ ['\n']

theorem render_cons (line : Line) (lines : List Line) :
    render (line :: lines) = line.chars ++ '\n' :: render lines := by
  rw [render, flatMap_cons, append_assoc]
  rfl

theorem length_le_render (lines : List Line) : lines.length ≤ (render lines).length := by
  induction lines with
  | nil => exact Nat.zero_le _
  | cons line lines ih =>
    rw [render_cons, length_append, length_cons, length_cons]
    omega

/-- A reader of keys at the beginning of a line. -/
def start : KeyState := ⟨[], true, true⟩

/-- A reader of keys goes through without finding one, and is at the beginning of a line then. -/
def Passes (text : List Char) : Prop := (Cursor.scan keyStep start text).1 = .inl start

theorem passes_nil : Passes [] := rfl

theorem Passes.scan_append {p : List Char} (h : Passes p) (text : List Char) :
    Cursor.scan keyStep start (p ++ text) =
      ((Cursor.scan keyStep start text).1, p.length + (Cursor.scan keyStep start text).2) :=
  Cursor.scan_append_of_inl (Prod.ext h rfl) text

theorem Passes.append {p q : List Char} (hp : Passes p) (hq : Passes q) : Passes (p ++ q) := by
  rw [Passes, hp.scan_append, hq]

theorem scan_rest {text : List Char} (htext : '\n' ∉ text) (key : List Char) :
    (Cursor.scan keyStep ⟨key, false, false⟩ (text ++ ['\n'])).1 = .inl start := by
  induction text with
  | nil => rfl
  | cons c text ih =>
    obtain ⟨hc, htext⟩ := not_or.mp (mt mem_cons.mpr htext)
    have hstep : keyStep ⟨key, false, false⟩ c = .inl ⟨key, false, false⟩ := by
      rw [keyStep, if_neg (Ne.symm hc)]
      split <;> [rfl; skip]
      rw [if_neg (fun h => Bool.false_ne_true h.2)]
      split <;> rfl
    rw [cons_append, Cursor.scan_cons_inl hstep]
    exact ih htext

theorem passes_delimiter {value : List Char} (h : '\n' ∉ value) :
    Passes (':' :: (value ++ ['\n'])) := by
  have hstep : keyStep start ':' = .inl ⟨[], false, false⟩ := rfl
  rw [Passes, Cursor.scan_cons_inl hstep]
  exact scan_rest h []

theorem Line.keyed_of_key? {line : Line} {key : List Char} (h : line.key? = some key) :
    ∃ value, line = .keyed key value := by
  cases line with
  | keyed key' value => exact ⟨value, by rw [Option.some.inj h]⟩
  | blank cr => cases h
  | comment text => cases h

theorem passes_line {line : Line} (hline : line.WellFormed) (hkey : line.key? = none) :
    Passes (line.chars ++ ['\n']) := by
  cases line with
  | blank cr => cases cr <;> rfl
  | comment text =>
    have hstep : keyStep start '#' = .inl ⟨[], false, false⟩ := rfl
    rw [Passes, Line.chars, cons_append, Cursor.scan_cons_inl hstep]
    exact scan_rest hline []
  | keyed key value => exact absurd hkey (Option.some_ne_none key)

theorem scan_key_rest {key : List Char} (hkey : ∀ c ∈ key, c ≠ ':' ∧ c ≠ '\n' ∧ c ≠ '\r' ∧ c ≠ '\x00')
    (front text : List Char) :
    Cursor.scan keyStep ⟨front, true, false⟩ (key ++ ':' :: text) = (.inr (front ++ key), key.length) := by
  induction key generalizing front with
  | nil =>
    have hstep : keyStep ⟨front, true, false⟩ ':' = .inr front := rfl
    rw [nil_append, Cursor.scan_cons_inr hstep, append_nil]
    rfl
  | cons c key ih =>
    obtain ⟨⟨hcolon, heol, hcr, -⟩, hkey⟩ := forall_mem_cons.mp hkey
    have hstep : keyStep ⟨front, true, false⟩ c = .inl ⟨front ++ [c], true, false⟩ := by
      rw [keyStep, if_neg heol, if_neg hcr, if_neg (fun h => Bool.false_ne_true h.2), if_neg hcolon]
      rfl
    rw [cons_append, Cursor.scan_cons_inl hstep, ih hkey, append_assoc]
    rfl

theorem scan_key {key : List Char} (hkey : ValidKey key) (text : List Char) :
    Cursor.scan keyStep start (key ++ ':' :: text) = (.inr key, key.length) := by
  obtain ⟨hne, hhead, hchars⟩ := hkey
  obtain ⟨c, key, rfl⟩ := exists_cons_of_ne_nil hne
  obtain ⟨⟨hcolon, heol, hcr, -⟩, hkey⟩ := forall_mem_cons.mp hchars
  have hhash : c ≠ '#' := fun h => hhead (congrArg some h)
  have hstep : keyStep start c = .inl ⟨[c], true, false⟩ := by
    rw [keyStep, if_neg heol, if_neg hcr, if_neg (fun h => hhash h.1), if_neg hcolon]
    rfl
  rw [cons_append, Cursor.scan_cons_inl hstep, scan_key_rest hkey]
  rfl

theorem readValidKey_eq {p key text : List Char} (hp : Passes p) (hkey : ValidKey key)
    {stream : Cursor Char} (hafter : stream.after = p ++ (key ++ ':' :: text)) :
    readValidKey stream = (some key, stream.advance (p.length + key.length)) := by
  rw [readValidKey, Cursor.scanBlocks_eq (by decide), hafter]
  have hscan := hp.scan_append (key ++ ':' :: text)
  rw [scan_key hkey] at hscan
  rw [← start, hscan]

theorem sameKey_iff {readKey key : List Char} (h : ValidKey readKey) :
    sameKey readKey key ↔ readKey = key := by
  have hself : readKey.takeWhile (· ≠ '\x00') = readKey :=
    takeWhile_eq_self_iff.mpr fun c hc => decide_eq_true (h.chars c hc).2.2.2
  rw [sameKey, hself]

theorem eof_of_after {stream : Cursor Char} {text : List Char} (hafter : stream.after = text)
    (hne : text ≠ []) : stream.eof = false := by
  rw [Cursor.eof, hafter]
  exact isEmpty_eq_false_iff.mpr hne

theorem seekToKeyLoop_key {p key rest : List Char} (hp : Passes p) (hkey : ValidKey key)
    {stream : Cursor Char} (hafter : stream.after = p ++ (key ++ ':' :: rest)) (strictMode : Bool)
    (fuel : Nat) :
    seekToKeyLoop key strictMode (fuel + 1) stream = (stream.advance (p.length + key.length)).seek
        ((stream.advance (p.length + key.length)).tell + 2) := by
  rw [seekToKeyLoop, eof_of_after hafter (by simp), if_neg Bool.false_ne_true,
    readValidKey_eq hp hkey hafter]
  simp only
  rw [if_pos ((sameKey_iff hkey).mpr rfl)]

theorem seekToKeyLoop_other {p other key rest : List Char} (hp : Passes p) (hother : ValidKey other)
    (hne : other ≠ key) {stream : Cursor Char} (hafter : stream.after = p ++ (other ++ ':' :: rest))
    (strictMode : Bool) (fuel : Nat) :
    seekToKeyLoop key strictMode (fuel + 1) stream =
      if strictMode then (false, stream.advance (p.length + other.length))
      else seekToKeyLoop key strictMode fuel (stream.advance (p.length + other.length)) := by
  rw [seekToKeyLoop, eof_of_after hafter (by simp), if_neg Bool.false_ne_true,
    readValidKey_eq hp hother hafter]
  simp only
  rw [if_neg (mt (sameKey_iff hother).mp hne)]

/-- Lines with other keys are passed over, in strict mode lines without any. -/
theorem seekToKeyLoop_lines {lines : List Line} {p key rest : List Char} {strictMode : Bool}
    (hlines : ∀ line ∈ lines, line.WellFormed) (hkeys : ∀ line ∈ lines, line.key? ≠ some key)
    (hstrict : strictMode = true → ∀ line ∈ lines, line.key? = none) (hp : Passes p)
    (hkey : ValidKey key) {stream : Cursor Char}
    (hafter : stream.after = p ++ (render lines ++ (key ++ ':' :: rest))) {fuel : Nat}
    (hfuel : lines.length < fuel) :
    seekToKeyLoop key strictMode fuel stream =
      (stream.advance (p.length + (render lines).length + key.length)).seek
        ((stream.advance (p.length + (render lines).length + key.length)).tell + 2) := by
  induction lines generalizing p stream fuel with
  | nil =>
    obtain ⟨fuel, rfl⟩ := Nat.exists_eq_succ_of_ne_zero (Nat.ne_of_gt hfuel)
    exact seekToKeyLoop_key hp hkey hafter strictMode fuel
  | cons line lines ih =>
    obtain ⟨hline, htail⟩ := forall_mem_cons.mp hlines
    obtain ⟨hother, hkeys'⟩ := forall_mem_cons.mp hkeys
    have hstrict' : strictMode = true → ∀ line ∈ lines, line.key? = none :=
      fun h line hmem => hstrict h line (mem_cons_of_mem _ hmem)
    rw [length_cons] at hfuel
    cases hfound : line.key? with
    | none =>
      have hp' : Passes (p ++ (line.chars ++ ['\n'])) := hp.append (passes_line hline hfound)
      have hafter' : stream.after =
          (p ++ (line.chars ++ ['\n'])) ++ (render lines ++ (key ++ ':' :: rest)) := by
        rw [hafter, render_cons]
        simp only [append_assoc, cons_append, nil_append]
      rw [ih htail hkeys' hstrict' hp' hafter' (by omega), render_cons]
      have hlength : (p ++ (line.chars ++ ['\n'])).length + (render lines).length =
          p.length + (line.chars ++ '\n' :: render lines).length := by
        simp only [length_append, length_cons, length_nil]
        omega
      rw [hlength]
    | some other =>
      obtain ⟨value, rfl⟩ := Line.keyed_of_key? hfound
      have hmode : strictMode = false := by
        cases strictMode with
        | false => rfl
        | true => exact absurd (hstrict rfl _ mem_cons_self) (Option.some_ne_none other)
      have hne : other ≠ key := fun h => hother (congrArg some h)
      obtain ⟨fuel, rfl⟩ := Nat.exists_eq_succ_of_ne_zero (Nat.ne_of_gt (Nat.zero_lt_of_lt hfuel))
      -- the next search begins at the delimiter
      have hdelimiter := passes_delimiter hline.2
      have hafter₁ : stream.after = p ++ (other ++ ':' ::
          (value ++ '\n' :: (render lines ++ (key ++ ':' :: rest)))) := by
        rw [hafter, render_cons, Line.chars]
        simp only [append_assoc, cons_append]
      have hafter₂ : (stream.advance (p.length + other.length)).after =
          (':' :: (value ++ ['\n'])) ++ (render lines ++ (key ++ ':' :: rest)) := by
        rw [Cursor.advance, hafter₁, ← append_assoc p, ← length_append, drop_left]
        simp only [append_assoc, cons_append, nil_append]
      rw [seekToKeyLoop_other hp hline.1 hne hafter₁, hmode, if_neg Bool.false_ne_true, ← hmode,
        ih htail hkeys' hstrict' hdelimiter hafter₂ (by omega), Cursor.advance_advance, render_cons,
        Line.chars]
      have hlength : p.length + other.length + ((':' :: (value ++ ['\n'])).length +
          (render lines).length + key.length) = p.length +
            (other ++ ':' :: value ++ '\n' :: render lines).length + key.length := by
        simp only [length_append, length_cons, length_nil]
        omega
      rw [hlength]

end NikitaFirmware.Toolbox.FlipperStream
