import NikitaFirmware.Foundations.Splitting
import NikitaFirmware.Toolbox.FlipperValues
import NikitaFirmware.Toolbox.SettledStream

/-!
# The dictionary of keys

`lib/toolbox/keys_dict.c`: a file with a key in a line, which is read line by line. What is counted,
compared and parsed is the front of a line that the reader cuts off.
-/

namespace NikitaFirmware.Toolbox
open Foundations List Option

/-- `KeysDict`. A line with a key has two symbols for each byte and its end. -/
structure KeysDict where
  stream : BufferedFileStream
  keySize : Nat
  keySizeSymbols : Nat
  totalKeys : UInt32
  keySize_pos : 0 < keySize
  keySizeSymbols_eq : keySizeSymbols = keySize * 2 + 1

namespace KeysDict
open Scanners

structure KeyLine where
  isKey : Bool
  line : Bytes
  isEndfile : Bool

def addEndingNewLine (stream : BufferedFileStream) : BufferedFileStream :=
  let sought := stream.seek (-1) .fromEnd
  if sought.1 then
    let read := sought.2.read 1
    let ended :=
      if read.1.length = 1 ∧ read.1.getD 0 0 ≠ 10 then (read.2.write [10]).2 else read.2
    (ended.seek 0 .fromStart).2
  else sought.2

/-- `keys_dict_read_key_line`. A line that is no comment is cut to the length of a key. -/
def readKeyLine (fuel : Nat) (dict : KeysDict) : Option (KeyLine × KeysDict) :=
  (streamReadLine cachedStream fuel dict.stream).bind fun read =>
    if read.1.1 = false then some (⟨false, read.1.2, true⟩, { dict with stream := read.2 })
    else
      let isComment := read.1.2.getD 0 0 == 35
      let line := if !isComment then read.1.2.take (dict.keySizeSymbols - 1) else read.1.2
      let isCorrectSize := line.length == dict.keySizeSymbols - 1
      some (⟨!isComment && isCorrectSize, line, false⟩, { dict with stream := read.2 })

def countLoop (fuel : Nat) : Nat → KeysDict → Option KeysDict
  | 0, _ => none
  | calls + 1, dict =>
    (readKeyLine fuel dict).bind fun read =>
      let dict := if read.1.isKey then { read.2 with totalKeys := read.2.totalKeys + 1 } else read.2
      if read.1.isEndfile then some dict else countLoop fuel calls dict

def rewind (dict : KeysDict) : Bool × KeysDict :=
  ((dict.stream.seek 0 .fromStart).1, { dict with stream := (dict.stream.seek 0 .fromStart).2 })

/-- How many blocks, and how many lines, reading a file can take. -/
def fuel (dict : KeysDict) : Nat := dict.stream.size + 1

def alloc (file : Bytes) (keySize : Nat) : Option KeysDict :=
  if h : 0 < keySize then
    let dict : KeysDict :=
      ⟨addEndingNewLine (.opened file), keySize, keySize * 2 + 1, 0, h, rfl⟩
    (countLoop dict.fuel dict.fuel dict).bind fun dict => some dict.rewind.2
  else none

def argsCharToHex (hiNibble lowNibble : UInt8) : Option UInt8 :=
  (FlipperStream.hexCharToUint8 (Char.ofUInt8 hiNibble) (Char.ofUInt8 lowNibble)).map UInt8.ofNat

def intToStr (keyInt : Bytes) : Bytes :=
  keyInt.flatMap fun byte => (FlipperStream.printHex 2 byte.toNat).map Char.toUInt8

/-- `keys_dict_str_to_int`. Where two symbols are no byte `key_byte_tmp` keeps what it holds, at
first whatever was there. -/
def strToInt : UInt8 → Bytes → Bytes
  | keyByteTmp, h :: l :: keyStr =>
    (argsCharToHex h l).getD keyByteTmp :: strToInt ((argsCharToHex h l).getD keyByteTmp) keyStr
  | _, _ => []

def getNextKeyStr (fuel : Nat) : Nat → KeysDict → Option ((Bool × Bytes) × KeysDict)
  | 0, _ => none
  | calls + 1, dict =>
    (readKeyLine fuel dict).bind fun read =>
      if !read.1.isKey && !read.1.isEndfile then getNextKeyStr fuel calls read.2
      else some ((read.1.isKey, read.1.line), read.2)

/-- `keys_dict_get_next_key`: the key, if one was read, with what `key_byte_tmp` holds at first. -/
def getNextKey (dict : KeysDict) (keyByteTmp : UInt8) : Option (Option Bytes × KeysDict) :=
  (getNextKeyStr dict.fuel dict.fuel dict).bind fun next =>
    some (if next.1.1 then some (strToInt keyByteTmp next.1.2) else none, next.2)

def presentLoop (fuel : Nat) (key : Bytes) : Nat → KeysDict → Option (Bool × KeysDict)
  | 0, _ => none
  | calls + 1, dict =>
    (readKeyLine fuel dict).bind fun read =>
      let lineFound := read.1.isKey && key == read.1.line
      if !lineFound && !read.1.isEndfile then presentLoop fuel key calls read.2
      else some (lineFound, read.2)

def isKeyPresentStr (dict : KeysDict) (key : Bytes) : Option (Bool × KeysDict) :=
  let actualPos := dict.stream.tell
  (presentLoop dict.fuel key dict.fuel dict.rewind.2).bind fun found =>
    some (found.1,
      { found.2 with stream := (found.2.stream.seek (Int32.ofNat actualPos) .fromStart).2 })

def isKeyPresent (dict : KeysDict) (key : Bytes) : Option (Bool × KeysDict) :=
  if key.length = dict.keySize then isKeyPresentStr dict (intToStr key) else none

def addKeyStr (dict : KeysDict) (key : Bytes) : Bool × KeysDict :=
  let actualPos := dict.stream.tell
  let sought := dict.stream.seek 0 .fromEnd
  let added :=
    if sought.1 then sought.2.deleteAndInsert 0 (some ⟨[key ++ [10]], true⟩) else sought
  (added.1, { dict with
      stream := (added.2.seek (Int32.ofNat actualPos) .fromStart).2
      totalKeys := if added.1 then dict.totalKeys + 1 else dict.totalKeys })

def addKey (dict : KeysDict) (key : Bytes) : Option (Bool × KeysDict) :=
  if key.length = dict.keySize then some (dict.addKeyStr (intToStr key)) else none

/-- The loop of `keys_dict_delete_key`, with what `key_byte_tmp` holds at first in each call. -/
def deleteLoop (key : Bytes) : Nat → (Nat → UInt8) → KeysDict → Option (Bool × KeysDict)
  | 0, _, _ => none
  | calls + 1, keyByteTmp, dict =>
    (dict.getNextKey (keyByteTmp 0)).bind fun next =>
      match next.1 with
      | none => some (false, next.2)
      | some tempKey =>
        if tempKey = key then
          -- the line is taken to be as long as one with nothing but a key
          let sought := next.2.stream.seek (Int32.ofInt (-(dict.keySizeSymbols : Int))) .fromCurrent
          let deleted := sought.2.deleteAndInsert dict.keySizeSymbols none
          if deleted.1 = false then some (false, { next.2 with stream := deleted.2 })
          else
            some (true, { next.2 with stream := deleted.2, totalKeys := next.2.totalKeys - 1 })
        else deleteLoop key calls (fun i => keyByteTmp (i + 1)) next.2

def deleteKey (dict : KeysDict) (keyByteTmp : Nat → UInt8) (key : Bytes) :
    Option (Bool × KeysDict) :=
  if key.length = dict.keySize then
    (deleteLoop key dict.fuel keyByteTmp dict.rewind.2).bind fun deleted =>
      some (deleted.1, deleted.2.rewind.2)
  else none

/-- The lines of a file, with their line feeds. -/
def lines (l : Bytes) : List Bytes := splitAfter (· == 10) l

def keyOf (n : Nat) (text : Bytes) : Option Bytes :=
  if text.getD 0 0 ≠ 35 ∧ n ≤ text.length then some (text.take n) else none

/-- The text of a key in a line. A carriage return is no symbol of it, and the line feed is one. -/
def keyText (n : Nat) (line : Bytes) : Option Bytes := keyOf n (line.filter (· ≠ 13))

theorem keyOf_cut (n : Nat) (text : Bytes) : (!(text.getD 0 0 == 35) &&
        (if !(text.getD 0 0 == 35) then text.take n else text).length == n) = (keyOf n text).isSome ∧
      ∀ t, keyOf n text = some t → (if !(text.getD 0 0 == 35) then text.take n else text) = t := by
  by_cases hcomment : text.getD 0 0 = 35
  · have hnone : keyOf n text = none := if_neg fun h => h.1 hcomment
    rw [hnone, beq_iff_eq.mpr hcomment]
    exact ⟨rfl, fun t ht => absurd ht (by simp)⟩
  · rw [beq_eq_false_iff_ne.mpr hcomment, if_pos Bool.not_false, length_take]
    by_cases hle : n ≤ text.length
    · have hsome : keyOf n text = some (text.take n) := if_pos ⟨hcomment, hle⟩
      rw [hsome, Nat.min_eq_left hle, beq_self_eq_true]
      exact ⟨rfl, fun t ht => some.inj ht⟩
    · have hnone : keyOf n text = none := if_neg fun h => hle h.2
      rw [hnone, beq_eq_false_iff_ne.mpr (by omega)]
      exact ⟨rfl, fun t ht => absurd ht (by simp)⟩

theorem lines_splitLine {rest : Bytes} (h : rest ≠ []) :
    ∃ line, lines rest = line :: lines (splitLine rest).2 ∧
      (splitLine rest).1 = line.filter (· ≠ 13) ∧ rest = line ++ (splitLine rest).2 := by
  induction rest with
  | nil => exact absurd rfl h
  | cons b rest ih =>
    cases hb : b == 10 with
    | true =>
      obtain rfl := eq_of_beq hb
      exact ⟨[10], splitAfter_cons_of_end hb, rfl, rfl⟩
    | false =>
      have hline : b ≠ 10 := ne_of_beq_false hb
      have hlines := splitAfter_cons (p := (· == 10)) (l := rest) hb
      have hkeep : b ≠ 13 → ∀ line : Bytes,
          (b :: line).filter (· ≠ 13) = b :: line.filter (· ≠ 13) :=
        fun hreturn line => filter_cons_of_pos (decide_eq_true hreturn)
      rw [splitLine, if_neg hline]
      by_cases hrest : rest = []
      · subst hrest
        refine ⟨[b], ?_, ?_, ?_⟩
        · split <;> exact hlines
        · split
          · next hreturn => rw [hreturn]; rfl
          · next hreturn => exact (hkeep hreturn []).symm
        · split <;> rfl
      · obtain ⟨line, hsplit, htext, hcontent⟩ := ih hrest
        rw [lines] at hsplit
        rw [hsplit] at hlines
        refine ⟨b :: line, ?_, ?_, ?_⟩
        · split <;> exact hlines
        · split
          · next hreturn => rw [hreturn, htext]; rfl
          · next hreturn => rw [hkeep hreturn, htext]
        · nth_rewrite 1 [hcontent]
          split <;> rfl

variable {dict : KeysDict} {l : Bytes} {ls : List Bytes} {line : Bytes} {n : Nat}

theorem lines_flatten (l : Bytes) : (lines l).flatten = l := flatten_splitAfter l

theorem keyText_of_nil (h : 0 < n) (hline : line.filter (· ≠ 13) = []) : keyText n line = none := by
  rw [keyText, keyOf, hline]
  exact if_neg fun hkey => absurd hkey.2 (by rw [length_nil]; omega)

/-- The stream shows a content and lines of it behind the position. -/
def Ahead (s : BufferedFileStream) (l : Bytes) (ls : List Bytes) : Prop :=
  ∃ p, SettledView s l p ∧ lines (l.drop p) = ls

def symbols (dict : KeysDict) : Nat := dict.keySize * 2

theorem symbols_pos (dict : KeysDict) : 0 < dict.symbols :=
  Nat.mul_pos dict.keySize_pos (by decide)

theorem symbols_eq (dict : KeysDict) : dict.keySizeSymbols - 1 = dict.symbols := by
  rw [dict.keySizeSymbols_eq]
  rfl

theorem readKeyLine_nil (hahead : Ahead dict.stream l []) {fuel : Nat} (hfuel : l.length < fuel) :
    ∃ s, readKeyLine fuel dict = some (⟨false, [], true⟩, { dict with stream := s }) ∧
      Ahead s l [] := by
  obtain ⟨p, hview, hlines⟩ := hahead
  have hrest : l.drop p = [] := splitAfter_eq_nil.mp hlines
  obtain ⟨s, hread, hview'⟩ := streamReadLine_eq settled_shows hview hfuel
  rw [hrest] at hread hview'
  refine ⟨s, ?_, _, hview', ?_⟩
  · rw [readKeyLine, hread]
    rfl
  · have hend : l.drop (l.length - 0) = [] := drop_length
    exact congrArg lines hend

theorem readKeyLine_cons (hahead : Ahead dict.stream l (line :: ls)) {fuel : Nat}
    (hfuel : l.length < fuel) :
    ∃ s text isEndfile, readKeyLine fuel dict =
        some (⟨(keyText dict.symbols line).isSome, text, isEndfile⟩, { dict with stream := s }) ∧
      Ahead s l ls ∧
      (∀ t, keyText dict.symbols line = some t → text = t) ∧
      (isEndfile = true → ls = [] ∧ keyText dict.symbols line = none) := by
  obtain ⟨p, hview, hlines⟩ := hahead
  have hrest : l.drop p ≠ [] := by
    intro hnil
    rw [hnil] at hlines
    exact absurd hlines (by simp [lines, splitAfter])
  obtain ⟨line', hlines', htext, -⟩ := lines_splitLine hrest
  obtain ⟨rfl, rfl⟩ := cons.inj (hlines.symm.trans hlines')
  obtain ⟨s, hread, hview'⟩ := streamReadLine_eq settled_shows hview hfuel
  have hahead' : Ahead s l (lines (splitLine (l.drop p)).2) :=
    ⟨_, hview', congrArg lines (drop_splitLine l p)⟩
  rw [htext] at hread
  by_cases hnil : line.filter (· ≠ 13) = []
  · have hnone := keyText_of_nil dict.symbols_pos hnil
    have hlast : (splitLine (l.drop p)).2 = [] := by
      by_contra hne
      have hend := getLast?_splitLine hne
      rw [htext, hnil] at hend
      cases hend
    refine ⟨s, [], true, ?_, hahead', fun t ht => ?_, fun _ => ⟨by rw [hlast]; rfl, hnone⟩⟩
    · rw [readKeyLine, hread, hnone, hnil]
      rfl
    · rw [hnone] at ht
      cases ht
  · have hlength : (line.filter (· ≠ 13)).length ≠ 0 := fun h => hnil (length_eq_zero_iff.mp h)
    rw [readKeyLine, hread, bind_some, decide_eq_true hlength]
    dsimp only
    obtain ⟨hkey, hcut⟩ := keyOf_cut dict.symbols (line.filter (· ≠ 13))
    rw [if_neg (by simp), symbols_eq, hkey]
    exact ⟨s, _, false, rfl, hahead', hcut, fun h => absurd h (by simp)⟩

theorem Ahead.fuel (h : Ahead dict.stream l ls) : l.length < dict.fuel ∧ ls.length < dict.fuel := by
  obtain ⟨p, hview, rfl⟩ := h
  have hle := length_splitAfter_le (p := (· == 10)) (l.drop p)
  rw [length_drop] at hle
  rw [KeysDict.fuel, hview.size, lines]
  omega

theorem Ahead.length_le {s : BufferedFileStream} (h : Ahead s l ls) :
    ls.flatten.length ≤ l.length := by
  obtain ⟨p, -, rfl⟩ := h
  rw [lines_flatten, length_drop]
  exact Nat.sub_le _ _

def keyTexts (n : Nat) (ls : List Bytes) : List Bytes := ls.filterMap (keyText n)

theorem countLoop_eq {fuel calls : Nat} (hahead : Ahead dict.stream l ls) (hfuel : l.length < fuel)
    (hcalls : ls.length < calls) :
    ∃ s, countLoop fuel calls dict = some { dict with
        stream := s
        totalKeys := dict.totalKeys + UInt32.ofNat (keyTexts dict.symbols ls).length } ∧
      Ahead s l [] := by
  induction ls generalizing calls dict with
  | nil =>
    obtain ⟨calls, rfl⟩ := Nat.exists_eq_succ_of_ne_zero (Nat.ne_of_gt hcalls)
    obtain ⟨s, hread, hahead'⟩ := readKeyLine_nil hahead hfuel
    refine ⟨s, ?_, hahead'⟩
    have hzero : dict.totalKeys + UInt32.ofNat 0 = dict.totalKeys := UInt32.add_zero _
    rw [countLoop, hread, keyTexts, filterMap_nil, length_nil, hzero]
    rfl
  | cons line ls ih =>
    obtain ⟨calls, rfl⟩ := Nat.exists_eq_succ_of_ne_zero (Nat.ne_of_gt (Nat.zero_lt_of_lt hcalls))
    obtain ⟨s, text, isEndfile, hread, hahead', -, hend⟩ := readKeyLine_cons hahead hfuel
    rw [length_cons] at hcalls
    rw [countLoop, hread, bind_some]
    dsimp only
    cases isEndfile with
    | true =>
      obtain ⟨rfl, hnone⟩ := hend rfl
      have hzero : dict.totalKeys + UInt32.ofNat 0 = dict.totalKeys := UInt32.add_zero _
      rw [keyTexts, filterMap_cons_none hnone, filterMap_nil, length_nil, hzero, hnone]
      exact ⟨s, rfl, hahead'⟩
    | false =>
      rw [if_neg Bool.false_ne_true]
      cases hkey : keyText dict.symbols line with
      | none =>
        obtain ⟨s', hloop, hlast⟩ := @ih { dict with stream := s } calls hahead' (by omega)
        rw [keyTexts, filterMap_cons_none hkey]
        exact ⟨s', hloop, hlast⟩
      | some t =>
        obtain ⟨s', hloop, hlast⟩ := @ih { dict with stream := s, totalKeys := dict.totalKeys + 1 }
          calls hahead' (by omega)
        have hsum : dict.totalKeys + UInt32.ofNat ((keyTexts dict.symbols ls).length + 1) =
            dict.totalKeys + 1 + UInt32.ofNat (keyTexts dict.symbols ls).length := by
          rw [UInt32.ofNat_add, UInt32.add_assoc, UInt32.add_comm (1 : UInt32)]
          rfl
        rw [keyTexts, filterMap_cons_some hkey, length_cons, ← keyTexts, hsum]
        exact ⟨s', hloop, hlast⟩

theorem getNextKeyStr_eq {fuel calls : Nat} (hahead : Ahead dict.stream l ls)
    (hfuel : l.length < fuel) (hcalls : ls.length < calls) :
    (∃ s text, getNextKeyStr fuel calls dict = some ((false, text), { dict with stream := s }) ∧
        Ahead s l [] ∧ keyTexts dict.symbols ls = []) ∨
      ∃ s skipped line more t, getNextKeyStr fuel calls dict =
          some ((true, t), { dict with stream := s }) ∧
        Ahead s l more ∧ ls = skipped ++ line :: more ∧ keyTexts dict.symbols skipped = [] ∧
        keyText dict.symbols line = some t := by
  induction ls generalizing calls dict with
  | nil =>
    obtain ⟨calls, rfl⟩ := Nat.exists_eq_succ_of_ne_zero (Nat.ne_of_gt hcalls)
    obtain ⟨s, hread, hahead'⟩ := readKeyLine_nil hahead hfuel
    refine .inl ⟨s, [], ?_, hahead', rfl⟩
    rw [getNextKeyStr, hread]
    rfl
  | cons line ls ih =>
    obtain ⟨calls, rfl⟩ := Nat.exists_eq_succ_of_ne_zero (Nat.ne_of_gt (Nat.zero_lt_of_lt hcalls))
    obtain ⟨s, text, isEndfile, hread, hahead', htext, hend⟩ := readKeyLine_cons hahead hfuel
    rw [length_cons] at hcalls
    rw [getNextKeyStr, hread, bind_some]
    dsimp only
    cases hkey : keyText dict.symbols line with
    | some t =>
      obtain rfl := htext t hkey
      exact .inr ⟨s, [], line, ls, text, rfl, hahead', rfl, rfl, hkey⟩
    | none =>
      cases isEndfile with
      | true =>
        obtain ⟨rfl, -⟩ := hend rfl
        exact .inl ⟨s, text, rfl, hahead', filterMap_cons_none hkey⟩
      | false =>
        have hskip : ∀ more, keyTexts dict.symbols (line :: more) = keyTexts dict.symbols more :=
          fun more => filterMap_cons_none hkey
        refine (@ih { dict with stream := s } calls hahead' (by omega)).imp ?_ ?_
        · rintro ⟨s', text', hloop, hlast, hnil⟩
          exact ⟨s', text', hloop, hlast, (hskip ls).trans hnil⟩
        · rintro ⟨s', skipped, line', more, t, hloop, hlast, hsplit, hnil, hline⟩
          exact ⟨s', line :: skipped, line', more, t, hloop, hlast, congrArg (cons line) hsplit,
            (hskip skipped).trans hnil, hline⟩

theorem presentLoop_eq {fuel calls : Nat} (key : Bytes) (hahead : Ahead dict.stream l ls)
    (hfuel : l.length < fuel) (hcalls : ls.length < calls) :
    ∃ s more, presentLoop fuel key calls dict =
        some (decide (key ∈ keyTexts dict.symbols ls), { dict with stream := s }) ∧
      Ahead s l more := by
  induction ls generalizing calls dict with
  | nil =>
    obtain ⟨calls, rfl⟩ := Nat.exists_eq_succ_of_ne_zero (Nat.ne_of_gt hcalls)
    obtain ⟨s, hread, hahead'⟩ := readKeyLine_nil hahead hfuel
    refine ⟨s, [], ?_, hahead'⟩
    rw [presentLoop, hread]
    rfl
  | cons line ls ih =>
    obtain ⟨calls, rfl⟩ := Nat.exists_eq_succ_of_ne_zero (Nat.ne_of_gt (Nat.zero_lt_of_lt hcalls))
    obtain ⟨s, text, isEndfile, hread, hahead', htext, hend⟩ := readKeyLine_cons hahead hfuel
    rw [length_cons] at hcalls
    rw [presentLoop, hread, bind_some]
    dsimp only
    cases hkey : keyText dict.symbols line with
    | none =>
      have hskip : keyTexts dict.symbols (line :: ls) = keyTexts dict.symbols ls :=
        filterMap_cons_none hkey
      rw [hskip]
      cases isEndfile with
      | true =>
        obtain ⟨rfl, -⟩ := hend rfl
        exact ⟨s, [], rfl, hahead'⟩
      | false => exact @ih { dict with stream := s } calls hahead' (by omega)
    | some t =>
      obtain rfl := htext t hkey
      have htake : keyTexts dict.symbols (line :: ls) = text :: keyTexts dict.symbols ls :=
        filterMap_cons_some hkey
      rw [htake]
      by_cases hfound : key = text
      · rw [beq_iff_eq.mpr hfound, decide_eq_true (mem_cons.mpr (.inl hfound))]
        exact ⟨s, ls, rfl, hahead'⟩
      · have hmem : decide (key ∈ text :: keyTexts dict.symbols ls) =
            decide (key ∈ keyTexts dict.symbols ls) :=
          decide_eq_decide.mpr (mem_cons.trans (or_iff_right hfound))
        rw [beq_eq_false_iff_ne.mpr hfound, hmem]
        cases isEndfile with
        | true => exact absurd (hend rfl).2 (by rw [hkey]; exact some_ne_none _)
        | false => exact @ih { dict with stream := s } calls hahead' (by omega)

variable {p : Nat} {keyByteTmp : Nat → UInt8} {key : Bytes}

/-- What lines parse to. In the call for the first key `key_byte_tmp` holds `keyByteTmp 0` at first, in
the next one `keyByteTmp 1`. -/
def parsedKeys (n : Nat) : (Nat → UInt8) → List Bytes → List (Option Bytes)
  | _, [] => []
  | keyByteTmp, line :: ls =>
    match keyText n line with
    | none => none :: parsedKeys n keyByteTmp ls
    | some text =>
      some (strToInt (keyByteTmp 0) text) :: parsedKeys n (fun i => keyByteTmp (i + 1)) ls

def firstLine (n : Nat) (keyByteTmp : Nat → UInt8) (key : Bytes) (ls : List Bytes) : Option Nat :=
  (parsedKeys n keyByteTmp ls).findIdx? (· == some key)

theorem firstLine_none (line : Bytes) (h : keyText n line = none) :
    firstLine n keyByteTmp key (line :: ls) = (firstLine n keyByteTmp key ls).map (· + 1) := by
  simp only [firstLine, parsedKeys, h]
  rw [findIdx?_cons, if_neg (by simp)]

theorem firstLine_some (line : Bytes) {t : Bytes} (h : keyText n line = some t) :
    firstLine n keyByteTmp key (line :: ls) = if strToInt (keyByteTmp 0) t = key then some 0
      else (firstLine n (fun i => keyByteTmp (i + 1)) key ls).map (· + 1) := by
  simp only [firstLine, parsedKeys, h]
  rw [findIdx?_cons]
  by_cases hkey : strToInt (keyByteTmp 0) t = key
  · rw [if_pos hkey, if_pos (by rw [hkey, beq_self_eq_true])]
  · rw [if_neg hkey, if_neg (by simpa using hkey)]

theorem firstLine_skipped {skipped : List Bytes} (h : keyTexts n skipped = []) :
    firstLine n keyByteTmp key (skipped ++ ls) =
      (firstLine n keyByteTmp key ls).map (· + skipped.length) := by
  induction skipped with
  | nil =>
    cases hfirst : firstLine n keyByteTmp key ls with
    | none => rw [nil_append, hfirst]; rfl
    | some i => rw [nil_append, hfirst]; rfl
  | cons line skipped ih =>
    have hnone : ∀ line' ∈ line :: skipped, keyText n line' = none := filterMap_eq_nil_iff.mp h
    have hskipped : keyTexts n skipped = [] :=
      filterMap_eq_nil_iff.mpr fun line' hmem => hnone line' (mem_cons_of_mem line hmem)
    rw [cons_append, firstLine_none line (hnone line mem_cons_self), ih hskipped,
      Option.map_map, length_cons]
    rfl

theorem le_length_of_keyText {line t : Bytes} (h : keyText n line = some t) : n ≤ line.length := by
  rw [keyText, keyOf] at h
  split at h
  · next hkey => exact hkey.2.trans (length_filter_le _ line)
  · cases h

theorem firstLine_line {i : Nat} (h : firstLine n keyByteTmp key ls = some i) :
    ∃ line t, ls[i]? = some line ∧ keyText n line = some t := by
  induction ls generalizing i keyByteTmp with
  | nil => exact absurd h (by simp [firstLine, parsedKeys])
  | cons line ls ih =>
    cases hkey : keyText n line with
    | none =>
      rw [firstLine_none line hkey] at h
      obtain ⟨j, hj, rfl⟩ := map_eq_some_iff.mp h
      exact ih hj
    | some t =>
      rw [firstLine_some line hkey] at h
      split at h
      · obtain rfl := some.inj h
        exact ⟨line, t, rfl, hkey⟩
      · obtain ⟨j, hj, rfl⟩ := map_eq_some_iff.mp h
        exact ih hj

/-- The bytes that are taken out: as many as a line with nothing but a key has, in front of `e`. -/
def cut (n : Nat) (l : Bytes) (e : Nat) : Bytes := l.take (e - n) ++ l.drop (e - n + n)

theorem deleteLoop_eq {calls : Nat} (hahead : Ahead dict.stream l ls) (hcalls : ls.length < calls) :
    (∃ s, deleteLoop key calls keyByteTmp dict = some (false, { dict with stream := s }) ∧
        (∃ p, SettledView s l p) ∧ firstLine dict.symbols keyByteTmp key ls = none) ∨
      ∃ s i, deleteLoop key calls keyByteTmp dict =
          some (true, { dict with stream := s, totalKeys := dict.totalKeys - 1 }) ∧
        firstLine dict.symbols keyByteTmp key ls = some i ∧
        ∃ p, SettledView s (cut dict.keySizeSymbols l (l.length - (ls.drop (i + 1)).flatten.length)) p := by
  induction calls generalizing ls dict keyByteTmp with
  | zero => exact absurd hcalls (Nat.not_lt_zero _)
  | succ calls ih =>
    obtain ⟨hfuel, hfuel'⟩ := hahead.fuel
    rw [deleteLoop, getNextKey]
    rcases getNextKeyStr_eq hahead hfuel hfuel' with ⟨s, text, hnext, hlast, hnone⟩ |
      ⟨s, skipped, line, more, t, hnext, hmore, rfl, hskipped, hkey⟩
    · obtain ⟨p, hview, -⟩ := hlast
      refine .inl ⟨s, by rw [hnext]; rfl, ⟨p, hview⟩, ?_⟩
      have hfirst := @firstLine_skipped [] dict.symbols keyByteTmp key ls hnone
      rwa [append_nil] at hfirst
    · rw [hnext, bind_some, bind_some]
      dsimp only
      rw [if_pos rfl, firstLine_skipped hskipped, firstLine_some line hkey]
      dsimp only
      have hdrop : ∀ j, (skipped ++ line :: more).drop (j + skipped.length + 1) = more.drop j := by
        intro j
        have hindex : j + skipped.length + 1 = skipped.length + (j + 1) := by omega
        rw [hindex, drop_length_add_append, drop_succ_cons]
      by_cases hfound : strToInt (keyByteTmp 0) t = key
      · rw [if_pos hfound, if_pos hfound]
        obtain ⟨p, hview, hrest⟩ := hmore
        have hlt := hview.lt
        have hlength : more.flatten.length = l.length - p := by
          rw [← hrest, lines_flatten, length_drop]
        have hsymbols : dict.keySizeSymbols ≤ 2 ^ 31 := by
          have hline := le_length_of_keyText hkey
          have hle := hahead.length_le
          rw [flatten_append, flatten_cons, length_append, length_append] at hle
          rw [symbols] at hline
          rw [dict.keySizeSymbols_eq]
          omega
        have hplace : l.length - more.flatten.length = p := by
          have hle := hview.le
          omega
        obtain ⟨hdone, hdeleted⟩ := (hview.seek_back hsymbols).delete dict.keySizeSymbols
        have hmore := hdrop 0
        rw [Nat.zero_add, drop_zero] at hmore
        refine .inr ⟨_, skipped.length, if_neg fun h => Bool.false_ne_true (h.symm.trans hdone),
          congrArg some (Nat.zero_add _), p - dict.keySizeSymbols, ?_⟩
        rw [hmore, hplace]
        exact hdeleted
      · rw [if_neg hfound, if_neg hfound]
        rw [length_append, length_cons] at hcalls
        rcases @ih { dict with stream := s } more (fun i => keyByteTmp (i + 1)) hmore (by omega) with
          ⟨s', hloop, hview, hnone⟩ | ⟨s', i, hloop, hfirst, hview⟩
        · exact .inl ⟨s', hloop, hview, congrArg (fun first => (first.map (· + 1)).map
            (· + skipped.length)) hnone⟩
        · refine .inr ⟨s', i + 1 + skipped.length, hloop, congrArg (fun first =>
            (first.map (· + 1)).map (· + skipped.length)) hfirst, ?_⟩
          rw [hdrop]
          exact hview

theorem lines_at {i : Nat} {line : Bytes} (h : (lines l)[i]? = some line) :
    l = ((lines l).take i).flatten ++ line ++ ((lines l).drop (i + 1)).flatten ∧
      ((lines l).eraseIdx i).flatten =
        ((lines l).take i).flatten ++ ((lines l).drop (i + 1)).flatten := by
  obtain ⟨hi, hline⟩ := List.getElem?_eq_some_iff.mp h
  constructor
  · have hsplit : (lines l).take i ++ line :: (lines l).drop (i + 1) = lines l := by
      rw [← hline, ← drop_eq_getElem_cons hi, take_append_drop]
    have hflatten := congrArg flatten hsplit
    rw [flatten_append, flatten_cons, lines_flatten, ← append_assoc] at hflatten
    exact hflatten.symm
  · rw [eraseIdx_eq_take_drop_succ, flatten_append]

theorem cut_eq_iff (a line b : Bytes) (hline : n ≤ line.length) (hpos : 0 < n) :
    cut (n + 1) (a ++ line ++ b) (a ++ line).length = a ++ b ↔
      line.length = n + 1 ∨ (a ++ line ++ b).length = n := by
  have hlength : (a ++ line).length = a.length + line.length := length_append
  have hall : (a ++ line ++ b).length = a.length + line.length + b.length := by
    rw [length_append, hlength]
  rw [cut, hlength, hall]
  constructor
  · intro heq
    have hlengths := congrArg length heq
    rw [length_append, length_take, length_drop, hall, length_append] at hlengths
    omega
  · rintro (hfull | hshort)
    · have hplace : a.length + line.length - (n + 1) = a.length := by omega
      have hbehind : a.length + (n + 1) = (a ++ line).length := by omega
      rw [hplace, hbehind, drop_left, append_assoc, take_left]
    · have hplace : a.length + line.length - (n + 1) = 0 := by omega
      have ha : a = [] := length_eq_zero_iff.mp (by omega)
      have hb : b = [] := length_eq_zero_iff.mp (by omega)
      rw [hplace, take_zero, Nat.zero_add, drop_of_length_le (by rw [hall]; omega), ha, hb]

theorem cut_line_iff {i : Nat} (h : firstLine n keyByteTmp key (lines l) = some i) (hpos : 0 < n) :
    cut (n + 1) l (l.length - ((lines l).drop (i + 1)).flatten.length) =
        ((lines l).eraseIdx i).flatten ↔
      ((lines l).getD i []).length = n + 1 ∨ l.length + 1 = n + 1 := by
  obtain ⟨line, t, hline, hkey⟩ := firstLine_line h
  have hle := le_length_of_keyText hkey
  obtain ⟨hsplit, herase⟩ := lines_at hline
  have hlineD : (lines l).getD i [] = line := by
    rw [getD_eq_getElem?_getD, hline]
    rfl
  rw [herase, hlineD, Nat.add_right_cancel_iff]
  generalize ((lines l).take i).flatten = a at hsplit ⊢
  generalize ((lines l).drop (i + 1)).flatten = b at hsplit ⊢
  have hplace : l.length - b.length = (a ++ line).length := by
    rw [hsplit, @length_append _ (a ++ line), Nat.add_sub_cancel]
  rw [hplace, hsplit]
  exact cut_eq_iff a line b hle hpos

/-- What is in the file of a dictionary. -/
def content (dict : KeysDict) : Bytes := dict.stream.shown.content

theorem content_eq (h : SettledView dict.stream l p) : dict.content = l := by
  obtain ⟨c, ⟨-, rfl⟩, rfl, -⟩ := h
  exact (rfl : dict.stream.shown.content = dict.stream.shown.content)

theorem ahead_rewind (h : SettledView dict.stream l p) :
    Ahead dict.rewind.2.stream l (lines l) ∧ SettledView dict.rewind.2.stream l 0 :=
  have hview := h.seek_fromStart (Nat.zero_le l.length)
  ⟨⟨0, hview, rfl⟩, hview⟩

theorem deleteKey_eq (hview : SettledView dict.stream l p) (hkey : key.length = dict.keySize)
    (keyByteTmp : Nat → UInt8) :
    (∃ s, dict.deleteKey keyByteTmp key = some (false, { dict with stream := s }) ∧
        SettledView s l 0 ∧ firstLine dict.symbols keyByteTmp key (lines l) = none) ∨
      ∃ s i, dict.deleteKey keyByteTmp key =
          some (true, { dict with stream := s, totalKeys := dict.totalKeys - 1 }) ∧
        firstLine dict.symbols keyByteTmp key (lines l) = some i ∧
        SettledView s (cut dict.keySizeSymbols l
          (l.length - ((lines l).drop (i + 1)).flatten.length)) 0 := by
  have hcalls : (lines l).length < dict.fuel := by
    have hle := length_splitAfter_le (p := (· == 10)) l
    rw [KeysDict.fuel, hview.size, lines]
    omega
  rw [deleteKey, if_pos hkey]
  rcases deleteLoop_eq (ahead_rewind hview).1 hcalls with ⟨s, hloop, ⟨p', hview'⟩, hnone⟩ |
    ⟨s, i, hloop, hfirst, p', hview'⟩
  · rw [hloop, bind_some]
    exact .inl ⟨_, rfl, hview'.seek_fromStart (Nat.zero_le _), hnone⟩
  · rw [hloop, bind_some]
    exact .inr ⟨_, i, rfl, hfirst, hview'.seek_fromStart (Nat.zero_le _)⟩

/-- What deleting a key is meant to do: the first line that parses to it goes, with nothing else, or
nothing happens. -/
def Deletes (dict : KeysDict) (keyByteTmp : Nat → UInt8) (key : Bytes) (removed : Bool)
    (dict' : KeysDict) : Prop :=
  (∀ i, firstLine dict.symbols keyByteTmp key (lines dict.content) = some i →
      removed = true ∧ dict'.content = ((lines dict.content).eraseIdx i).flatten ∧
        dict'.totalKeys = dict.totalKeys - 1) ∧
    (firstLine dict.symbols keyByteTmp key (lines dict.content) = none →
      removed = false ∧ dict'.content = dict.content ∧ dict'.totalKeys = dict.totalKeys)

/-- The first line that parses to a key has as many bytes as a line with nothing but a key and its
line feed, or it is the whole file and lacks just one. -/
def Regular (dict : KeysDict) (keyByteTmp : Nat → UInt8) (key : Bytes) : Prop :=
  ∀ i, firstLine dict.symbols keyByteTmp key (lines dict.content) = some i →
    ((lines dict.content).getD i []).length = dict.keySizeSymbols ∨
      dict.content.length + 1 = dict.keySizeSymbols

theorem view_content (h : dict.stream.Settled) :
    SettledView dict.stream dict.content dict.stream.shown.tell :=
  ⟨_, ⟨h, rfl⟩, rfl, rfl⟩

/-- A key is deleted as it is meant just if its line is regular. -/
theorem deleteKey_exact (hsettled : dict.stream.Settled) (hkey : key.length = dict.keySize)
    (keyByteTmp : Nat → UInt8) :
    ∃ removed dict', dict.deleteKey keyByteTmp key = some (removed, dict') ∧ dict'.stream.Settled ∧
      (dict.Deletes keyByteTmp key removed dict' ↔ dict.Regular keyByteTmp key) := by
  rcases deleteKey_eq (view_content hsettled) hkey keyByteTmp with ⟨s, hdelete, hview, hnone⟩ |
    ⟨s, i, hdelete, hfirst, hview⟩
  · refine ⟨false, _, hdelete, hview.settled, iff_of_true ⟨fun i hi => ?_, fun _ => ?_⟩ fun i hi => ?_⟩
    · exact absurd (hi.symm.trans hnone) (some_ne_none i)
    · exact ⟨rfl, content_eq hview, rfl⟩
    · exact absurd (hi.symm.trans hnone) (some_ne_none i)
  · have hcut := cut_line_iff hfirst dict.symbols_pos
    have hsymbols : dict.keySizeSymbols = dict.symbols + 1 := dict.keySizeSymbols_eq
    have hcontent : content { dict with stream := s, totalKeys := dict.totalKeys - 1 } = _ :=
      content_eq hview
    rw [← hsymbols, ← hcontent] at hcut
    refine ⟨true, _, hdelete, hview.settled, ?_, fun hregular => ⟨fun j hj => ?_, fun hnone => ?_⟩⟩
    · rintro ⟨hdeletes, -⟩ j hj
      obtain rfl := some.inj (hfirst.symm.trans hj)
      exact hcut.mp (hdeletes i hfirst).2.1
    · obtain rfl := some.inj (hfirst.symm.trans hj)
      exact ⟨rfl, hcut.mpr (hregular i hfirst), rfl⟩
    · exact absurd (hfirst.symm.trans hnone) (some_ne_none i)

/-- From a dictionary with a comment and two keys the second key is deleted. -/
theorem deleteKey_exact_second :
    ∃ removed dict', deleteKey ⟨.opened (ascii "#\naa\nBB\n"), 1, 3, 2, by decide, rfl⟩ (fun _ => 0)
        [187] = some (removed, dict') ∧ dict'.stream.Settled ∧
      (Deletes ⟨.opened (ascii "#\naa\nBB\n"), 1, 3, 2, by decide, rfl⟩ (fun _ => 0) [187] removed
          dict' ↔
        Regular ⟨.opened (ascii "#\naa\nBB\n"), 1, 3, 2, by decide, rfl⟩ (fun _ => 0) [187]) :=
  @deleteKey_exact ⟨.opened (ascii "#\naa\nBB\n"), 1, 3, 2, by decide, rfl⟩ [187]
    (BufferedFileStream.settled_opened (by decide)) rfl _

/-- Of a line that goes on behind its key only the end is taken out. -/
theorem deleteKey_overlong :
    ¬ ∀ (file key : Bytes) (keySize : Nat) (keyByteTmp : Nat → UInt8) (dict dict' : KeysDict)
      (removed : Bool), alloc file keySize = some dict →
        dict.deleteKey keyByteTmp key = some (removed, dict') →
        dict.Deletes keyByteTmp key removed dict' := by
  intro h
  have hrun : ((alloc (ascii "AABB\n") 1).bind fun dict =>
      (dict.deleteKey (fun _ => 0) [170]).map fun deleted =>
        (firstLine dict.symbols (fun _ => 0) [170] (lines dict.content),
          ((lines dict.content).eraseIdx 0).flatten, deleted.2.content)) =
      some (some 0, [], ascii "AA") := by decide
  obtain ⟨dict, halloc, hrest⟩ := bind_eq_some_iff.mp hrun
  obtain ⟨⟨removed, dict'⟩, hdelete, hvalues⟩ := map_eq_some_iff.mp hrest
  obtain ⟨hfirst, hvalues⟩ := Prod.mk.inj hvalues
  obtain ⟨herase, hcontent⟩ := Prod.mk.inj hvalues
  obtain ⟨-, hmeant, -⟩ := (h _ _ _ _ _ _ _ halloc hdelete).1 0 hfirst
  cases hcontent.symm.trans (hmeant.trans herase)

end KeysDict
end NikitaFirmware.Toolbox
