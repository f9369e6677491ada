import Mathlib.Data.List.Basic

/-!
# Text files of keys and values

`lib/flipper_format/flipper_format_stream.c` and the lines of `lib/toolbox/stream/stream.c`. The
position of a stream is what is left to be read; the functions read in buffers and seek back to
where they stopped.
-/

namespace NikitaFirmware.Toolbox

open List
/-- `flipper_format_stream_write_value_line`, with the values as they are printed. -/
def writeValueLine (key : List Char) (values : List (List Char)) : List Char :=
  key ++ (':' :: ' ' :: (intercalate [' '] values ++ ['\n']))

/-- `flipper_format_stream_read_valid_key`: the key, and the stream at its delimiter -/
def readValidKey (key : List Char) (accumulate newLine : Bool) :
    List Char → Option (List Char × List Char)
  | [] => none
  | data :: s =>
    if data = '\n' then readValidKey [] true true s
    else if data = '\r' then readValidKey key accumulate newLine s
    else if data = '#' ∧ newLine then readValidKey key false false s
    else if data = ':' then
      if newLine then readValidKey [] false false s
      else if accumulate then some (key, data :: s)
      else readValidKey key accumulate newLine s
    else readValidKey (if accumulate then key ++ [data] else key) accumulate false s

/-- The loop of `flipper_format_stream_seek_to_key` where it is not strict. -/
def seekLoop (key : List Char) : Nat → List Char → Option (List Char)
  | 0, _ => none
  | _ + 1, [] => none
  | fuel + 1, data :: s =>
    match readValidKey [] true true (data :: s) with
    | none => none
    | some (readKey, rest) =>
      if readKey = key then if 2 ≤ rest.length then some (rest.drop 2) else none
      else seekLoop key fuel rest

/-- `flipper_format_stream_seek_to_key`: the stream at the value. The key that is found next ends
behind the last one, so there are at most as many of them as there are characters. -/
def seekToKey (key s : List Char) : Option (List Char) := seekLoop key (s.length + 1) s

/-- `flipper_format_stream_read_line`: the stream stops before the end of the line. -/
def readRestOfLine : List Char → List Char × List Char
  | [] => ([], [])
  | data :: s =>
    if data = '\n' then ([], data :: s)
    else if data = '\r' then readRestOfLine s
    else ((data :: (readRestOfLine s).1), (readRestOfLine s).2)

def readString (key s : List Char) : Option (List Char × List Char) :=
  (seekToKey key s).bind fun value =>
    if (readRestOfLine value).1 = [] then none else some (readRestOfLine value)

def readLine : List Char → List Char × List Char
  | [] => ([], [])
  | data :: s =>
    if data = '\n' then ([data], s)
    else if data = '\r' then readLine s
    else ((data :: (readLine s).1), (readLine s).2)

variable {key value text pre : List Char} {values : List (List Char)}

def IsKey (key : List Char) : Prop :=
  (∀ c ∈ key, c ≠ ':' ∧ c ≠ '\n' ∧ c ≠ '\r' ∧ c ≠ '#') ∧ key ≠ []

instance decidableIsKey (key : List Char) : Decidable (IsKey key) :=
  let _ : Decidable (∀ c ∈ key, c ≠ ':' ∧ c ≠ '\n' ∧ c ≠ '\r' ∧ c ≠ '#') :=
    decidableBAll (fun c => c ≠ ':' ∧ c ≠ '\n' ∧ c ≠ '\r' ∧ c ≠ '#') key
  inferInstanceAs (Decidable ((∀ c ∈ key, c ≠ ':' ∧ c ≠ '\n' ∧ c ≠ '\r' ∧ c ≠ '#') ∧ key ≠ []))

theorem readValidKey_append (hkey : ∀ c ∈ key, c ≠ ':' ∧ c ≠ '\n' ∧ c ≠ '\r' ∧ c ≠ '#')
    (newLine : Bool) (hne : newLine = true → key ≠ []) :
    readValidKey pre true newLine (key ++ ':' :: text) = some (pre ++ key, ':' :: text) := by
  induction key generalizing pre newLine with
  | nil =>
    cases newLine with
    | true => exact absurd rfl (hne rfl)
    | false => simp [readValidKey]
  | cons c key ih =>
    obtain ⟨⟨hcolon, heol, hcr, hhash⟩, hkey⟩ := forall_mem_cons.mp hkey
    rw [cons_append, readValidKey, if_neg heol, if_neg hcr, if_neg (fun h => hhash h.1),
      if_neg hcolon, if_pos rfl, ih hkey false (fun h => absurd h (by decide)), append_assoc,
      singleton_append]

theorem readValidKey_key (h : IsKey key) (text : List Char) :
    readValidKey [] true true (key ++ ':' :: text) = some (key, ':' :: text) :=
  readValidKey_append h.1 true fun _ => h.2

theorem readValidKey_value (hvalue : '\n' ∉ value) :
    readValidKey pre false false (value ++ '\n' :: text) = readValidKey [] true true text := by
  induction value generalizing pre with
  | nil => rw [nil_append, readValidKey, if_pos rfl]
  | cons c value ih =>
    obtain ⟨hc, hvalue⟩ := not_or.mp (mt mem_cons.mpr hvalue)
    rw [cons_append, readValidKey, if_neg (Ne.symm hc)]
    have hnl : ¬ (c = '#' ∧ false = true) := fun h => absurd h.2 (by decide)
    rw [if_neg hnl]
    split <;> [exact ih hvalue; skip]
    split <;> [exact ih hvalue; exact ih hvalue]

theorem seekLoop_value (hvalue : '\n' ∉ value) (htext : text ≠ []) (fuel : Nat) :
    seekLoop key (fuel + 1) (':' :: (value ++ '\n' :: text)) = seekLoop key (fuel + 1) text := by
  obtain ⟨c, text', rfl⟩ := exists_cons_of_ne_nil htext
  have hskip : readValidKey [] true true (':' :: (value ++ '\n' :: (c :: text'))) =
      readValidKey [] true true (c :: text') := by
    rw [readValidKey]
    exact readValidKey_value hvalue
  rw [seekLoop, hskip, seekLoop]

theorem seekLoop_line {key' : List Char} (hkey' : IsKey key') (hne : key' ≠ key)
    (hvalues : '\n' ∉ intercalate [' '] values) (htext : text ≠ []) (fuel : Nat) :
    seekLoop key (fuel + 2) (writeValueLine key' values ++ text) =
      seekLoop key (fuel + 1) text := by
  have hread := readValidKey_key hkey' (' ' :: (intercalate [' '] values ++ '\n' :: text))
  obtain ⟨c, key'', rfl⟩ := exists_cons_of_ne_nil hkey'.2
  have happ : writeValueLine (c :: key'') values ++ text =
      c :: (key'' ++ ':' :: (' ' :: intercalate [' '] values ++ '\n' :: text)) := by
    simp [writeValueLine]
  rw [cons_append] at hread
  rw [happ, seekLoop, cons_append, hread]
  simp only [if_neg hne]
  have hvalue : '\n' ∉ ' ' :: intercalate [' '] values := by simpa using hvalues
  exact seekLoop_value hvalue htext fuel

theorem seekLoop_key (hkey : IsKey key) (fuel : Nat) :
    seekLoop key (fuel + 1) (key ++ (':' :: ' ' :: text)) = some text := by
  have hread := readValidKey_key hkey (' ' :: text)
  obtain ⟨c, key', rfl⟩ := exists_cons_of_ne_nil hkey.2
  rw [cons_append] at hread ⊢
  rw [seekLoop, hread]
  simp

theorem seekLoop_lines (lines : List (List Char × List (List Char)))
    (hlines : ∀ l ∈ lines, IsKey l.1 ∧ l.1 ≠ key ∧ '\n' ∉ intercalate [' '] l.2)
    (hkey : IsKey key) {fuel : Nat} (hfuel : lines.length < fuel) :
    seekLoop key fuel (lines.flatMap (fun l => writeValueLine l.1 l.2) ++
      (key ++ (':' :: ' ' :: text))) = some text := by
  induction lines generalizing fuel with
  | nil =>
    obtain ⟨fuel, rfl⟩ := Nat.exists_eq_succ_of_ne_zero (Nat.ne_of_gt hfuel)
    exact seekLoop_key hkey fuel
  | cons l lines ih =>
    obtain ⟨⟨hl, hne, hvalues⟩, hlines⟩ := forall_mem_cons.mp hlines
    rw [length_cons] at hfuel
    obtain ⟨fuel, rfl⟩ := Nat.exists_eq_add_of_le (show 2 ≤ fuel by omega)
    rw [Nat.add_comm, flatMap_cons, append_assoc, seekLoop_line hl hne hvalues (by simp) fuel]
    exact ih hlines (by omega)

theorem length_le_flatMap_writeValueLine (lines : List (List Char × List (List Char))) :
    lines.length ≤ (lines.flatMap fun l => writeValueLine l.1 l.2).length := by
  induction lines with
  | nil => exact Nat.le_refl 0
  | cons l lines ih =>
    rw [flatMap_cons, length_append, length_cons, writeValueLine]
    simp only [length_append, length_cons]
    omega

theorem readRestOfLine_append (hvalue : '\n' ∉ value ∧ '\r' ∉ value) :
    readRestOfLine (value ++ '\n' :: text) = (value, '\n' :: text) := by
  obtain ⟨heol, hcr⟩ := hvalue
  induction value with
  | nil => rfl
  | cons c value ih =>
    obtain ⟨hc, heol⟩ := not_or.mp (mt mem_cons.mpr heol)
    obtain ⟨hc', hcr⟩ := not_or.mp (mt mem_cons.mpr hcr)
    rw [cons_append, readRestOfLine, if_neg (Ne.symm hc), if_neg (Ne.symm hc'), ih heol hcr]

theorem readLine_append (hvalue : '\n' ∉ value ∧ '\r' ∉ value) :
    readLine (value ++ '\n' :: text) = (value ++ ['\n'], text) := by
  obtain ⟨heol, hcr⟩ := hvalue
  induction value with
  | nil => rfl
  | cons c value ih =>
    obtain ⟨hc, heol⟩ := not_or.mp (mt mem_cons.mpr heol)
    obtain ⟨hc', hcr⟩ := not_or.mp (mt mem_cons.mpr hcr)
    rw [cons_append, readLine, if_neg (Ne.symm hc), if_neg (Ne.symm hc'), ih heol hcr, cons_append]

theorem readString_lines (lines : List (List Char × List (List Char)))
    (hlines : ∀ l ∈ lines, IsKey l.1 ∧ l.1 ≠ key ∧ '\n' ∉ intercalate [' '] l.2)
    (hkey : IsKey key) (hvalue : '\n' ∉ value ∧ '\r' ∉ value) (hne : value ≠ [])
    (text : List Char) :
    readString key (lines.flatMap (fun l => writeValueLine l.1 l.2) ++
      (writeValueLine key [value] ++ text)) = some (value, '\n' :: text) := by
  have hline : writeValueLine key [value] ++ text =
      key ++ (':' :: ' ' :: (value ++ '\n' :: text)) := by
    simp [writeValueLine]
  have hlen := length_le_flatMap_writeValueLine lines
  rw [readString, hline, seekToKey, seekLoop_lines lines hlines hkey
    (by rw [length_append]; omega), Option.bind_some, readRestOfLine_append hvalue]
  exact if_neg hne

end NikitaFirmware.Toolbox
