import NikitaFirmware.Foundations.Machine
import NikitaFirmware.Toolbox.KeysDict

/-!
# What a dictionary does over whole runs

A key is counted by the length of its line, compared by its symbols and read by its digits. The three
agree as long as every line of a key has hexadecimal digits for its symbols and stands there in capital
letters too.
-/

namespace NikitaFirmware.Toolbox
open Foundations List

namespace KeysDict
open Scanners

variable {dict : KeysDict} {l : Bytes} {ls : List Bytes} {n p : Nat} {key : Bytes}

/-- The bytes that hexadecimal digits stand for, of a text with nothing else. -/
def hexBytes : Bytes → Option Bytes
  | [] => some []
  | [_] => none
  | h :: l :: text =>
    (argsCharToHex h l).bind fun byte => (hexBytes text).map fun bytes => byte :: bytes

/-- Digits are read as what they stand for, whatever was in `key_byte_tmp`. -/
theorem strToInt_of_hexBytes {text : Bytes} (h : hexBytes text = some key) (keyByteTmp : UInt8) :
    strToInt keyByteTmp text = key := by
  induction text using hexBytes.induct generalizing key keyByteTmp with
  | case1 => exact Option.some.inj h
  | case2 x => exact absurd h (by simp [hexBytes])
  | case3 hi low text ih =>
    obtain ⟨byte, hbyte, hrest⟩ := Option.bind_eq_some_iff.mp h
    obtain ⟨bytes, hbytes, rfl⟩ := Option.map_eq_some_iff.mp hrest
    rw [strToInt, hbyte, Option.getD_some, ih hbytes]

theorem length_of_hexBytes {text : Bytes} (h : hexBytes text = some key) :
    text.length = key.length * 2 := by
  induction text using hexBytes.induct generalizing key with
  | case1 =>
    obtain rfl := Option.some.inj h
    rfl
  | case2 x => exact absurd h (by simp [hexBytes])
  | case3 hi low text ih =>
    obtain ⟨byte, hbyte, hrest⟩ := Option.bind_eq_some_iff.mp h
    obtain ⟨bytes, hbytes, rfl⟩ := Option.map_eq_some_iff.mp hrest
    rw [length_cons, length_cons, length_cons, ih hbytes, Nat.succ_mul]

theorem hexDigit_symbol : ∀ d < 16,
    Char.ofUInt8 (FlipperStream.hexDigit d).toUInt8 = FlipperStream.hexDigit d ∧
      (FlipperStream.hexDigit d).toUInt8 ≠ 10 ∧ (FlipperStream.hexDigit d).toUInt8 ≠ 13 ∧
      (FlipperStream.hexDigit d).toUInt8 ≠ 35 := by decide

theorem intToStr_cons (byte : UInt8) (key : Bytes) :
    intToStr (byte :: key) = (FlipperStream.hexDigit (byte.toNat / 16 % 16)).toUInt8 ::
      (FlipperStream.hexDigit (byte.toNat % 16)).toUInt8 :: intToStr key := rfl

theorem hexBytes_intToStr (key : Bytes) : hexBytes (intToStr key) = some key := by
  induction key with
  | nil => rfl
  | cons byte key ih =>
    have hlt := byte.toNat_lt
    have hhi : byte.toNat / 16 % 16 < 16 := Nat.mod_lt _ (by decide)
    have hlow : byte.toNat % 16 < 16 := Nat.mod_lt _ (by decide)
    have hsum : byte.toNat / 16 % 16 * 16 + byte.toNat % 16 = byte.toNat := by omega
    rw [intToStr_cons, hexBytes, ih, argsCharToHex, (hexDigit_symbol _ hhi).1,
      (hexDigit_symbol _ hlow).1, FlipperStream.hexCharToUint8_hexDigit hhi hlow, hsum,
      Option.map_some, UInt8.ofNat_toNat]
    rfl

theorem length_intToStr (key : Bytes) : (intToStr key).length = key.length * 2 :=
  length_of_hexBytes (hexBytes_intToStr key)

theorem mem_intToStr {b : UInt8} (h : b ∈ intToStr key) : b ≠ 10 ∧ b ≠ 13 ∧ b ≠ 35 := by
  induction key with
  | nil => exact absurd h not_mem_nil
  | cons byte key ih =>
    rw [intToStr_cons] at h
    rcases mem_cons.mp h with rfl | h
    · exact (hexDigit_symbol _ (Nat.mod_lt _ (by decide))).2
    · rcases mem_cons.mp h with rfl | h
      · exact (hexDigit_symbol _ (Nat.mod_lt _ (by decide))).2
      · exact ih h

theorem getNextKey_view (hview : SettledView dict.stream l p) (keyByteTmp : UInt8) :
    ∃ next s q, dict.getNextKey keyByteTmp = some (next, { dict with stream := s }) ∧
      SettledView s l q := by
  have hahead : Ahead dict.stream l (lines (l.drop p)) := ⟨p, hview, rfl⟩
  obtain ⟨hfuel, hfuel'⟩ := hahead.fuel
  rw [getNextKey]
  rcases getNextKeyStr_eq hahead hfuel hfuel' with ⟨s, text, hnext, ⟨q, hview', -⟩, -⟩ |
    ⟨s, -, -, -, t, hnext, ⟨q, hview', -⟩, -⟩
  · exact ⟨none, s, q, by rw [hnext]; rfl, hview'⟩
  · exact ⟨_, s, q, by rw [hnext]; rfl, hview'⟩

theorem isKeyPresent_eq (hview : SettledView dict.stream l p) (hkey : key.length = dict.keySize) :
    ∃ s, dict.isKeyPresent key =
        some (decide (intToStr key ∈ keyTexts dict.symbols (lines l)), { dict with stream := s }) ∧
      SettledView s l p := by
  obtain ⟨hahead, -⟩ := ahead_rewind hview
  obtain ⟨hfuel, hfuel'⟩ := hahead.fuel
  have hsame : dict.rewind.2.fuel = dict.fuel := by
    obtain ⟨q, hview', -⟩ := hahead
    rw [KeysDict.fuel, KeysDict.fuel, hview'.size, hview.size]
  rw [hsame] at hfuel hfuel'
  obtain ⟨s, more, hloop, q, hview', -⟩ := presentLoop_eq (intToStr key) hahead hfuel hfuel'
  rw [isKeyPresent, if_pos hkey, isKeyPresentStr, hloop, hview.tell]
  exact ⟨_, rfl, hview'.seek_fromStart hview.le⟩

theorem addKey_eq (hview : SettledView dict.stream l p) (hkey : key.length = dict.keySize)
    (hsize : (l ++ (intToStr key ++ [10])).length < 2 ^ 31) :
    ∃ s, dict.addKey key = some (true, { dict with stream := s, totalKeys := dict.totalKeys + 1 }) ∧
      SettledView s (l ++ (intToStr key ++ [10])) p := by
  obtain ⟨hend, hview₁⟩ := hview.seek_end
  obtain ⟨hdone, hview₂⟩ := hview₁.insert hsize
  have hp : p ≤ (l ++ (intToStr key ++ [10])).length :=
    hview.le.trans (by rw [length_append]; exact Nat.le_add_right _ _)
  refine ⟨_, ?_, hview₂.seek_fromStart hp⟩
  rw [addKey, if_pos hkey, addKeyStr, hview.tell]
  simp only [hend, if_true, hdone]

/-- The loop of an enumeration: the keys that are read until there is none. -/
def enumerateLoop : Nat → (Nat → UInt8) → KeysDict → Option (List Bytes × KeysDict)
  | 0, _, _ => none
  | calls + 1, keyByteTmp, dict =>
    (dict.getNextKey (keyByteTmp 0)).bind fun next =>
      match next.1 with
      | none => some ([], next.2)
      | some key =>
        (enumerateLoop calls (fun i => keyByteTmp (i + 1)) next.2).map fun rest =>
          (key :: rest.1, rest.2)

/-- All keys that are read one after another from the start. -/
def enumerate (dict : KeysDict) (keyByteTmp : Nat → UInt8) : Option (List Bytes × KeysDict) :=
  enumerateLoop dict.fuel keyByteTmp dict.rewind.2

def readAs : (Nat → UInt8) → List Bytes → List Bytes
  | _, [] => []
  | keyByteTmp, text :: texts =>
    strToInt (keyByteTmp 0) text :: readAs (fun i => keyByteTmp (i + 1)) texts

theorem length_readAs (keyByteTmp : Nat → UInt8) (texts : List Bytes) :
    (readAs keyByteTmp texts).length = texts.length := by
  induction texts generalizing keyByteTmp with
  | nil => rfl
  | cons text texts ih => rw [readAs, length_cons, length_cons, ih]

theorem enumerateLoop_eq {calls : Nat} (keyByteTmp : Nat → UInt8) (hahead : Ahead dict.stream l ls)
    (hcalls : ls.length < calls) :
    ∃ s, enumerateLoop calls keyByteTmp dict =
      some (readAs keyByteTmp (keyTexts dict.symbols ls), { dict with stream := s }) := by
  induction calls generalizing ls dict keyByteTmp with
  | zero => exact absurd hcalls (Nat.not_lt_zero _)
  | succ calls ih =>
    obtain ⟨hfuel, hfuel'⟩ := hahead.fuel
    rw [enumerateLoop, getNextKey]
    rcases getNextKeyStr_eq hahead hfuel hfuel' with ⟨s, text, hnext, -, hnone⟩ |
      ⟨s, skipped, line, more, t, hnext, hmore, rfl, hskipped, hkey⟩
    · rw [hnext, hnone]
      exact ⟨s, rfl⟩
    · rw [length_append, length_cons] at hcalls
      obtain ⟨s', hloop⟩ := @ih { dict with stream := s } more (fun i => keyByteTmp (i + 1)) hmore
        (by omega)
      have htexts : keyTexts dict.symbols (skipped ++ line :: more) =
          t :: keyTexts dict.symbols more := by
        have hline : keyTexts dict.symbols (line :: more) = t :: keyTexts dict.symbols more :=
          filterMap_cons_some hkey
        rw [keyTexts, filterMap_append, ← keyTexts, ← keyTexts, hskipped, hline, nil_append]
      refine ⟨s', ?_⟩
      rw [hnext, Option.bind_some, Option.bind_some, if_pos rfl]
      dsimp only
      rw [hloop, Option.map_some, htexts, readAs]
      rfl

theorem enumerate_eq (hview : SettledView dict.stream l p) (keyByteTmp : Nat → UInt8) :
    ∃ s, dict.enumerate keyByteTmp =
      some (readAs keyByteTmp (keyTexts dict.symbols (lines l)), { dict with stream := s }) := by
  have hle := length_splitAfter_le (p := (· == 10)) l
  have hcalls : (lines l).length < dict.fuel := by
    rw [KeysDict.fuel, hview.size, lines]
    omega
  exact enumerateLoop_eq keyByteTmp (ahead_rewind hview).1 hcalls

/-- The number of keys is that of the keys read one after another, a key is present just if it is one
of these, and each of these is what the digits of its line stand for. -/
def Coherent (dict : KeysDict) : Prop :=
  ∀ keyByteTmp : Nat → UInt8, ∃ keys dict', dict.enumerate keyByteTmp = some (keys, dict') ∧
    dict.totalKeys.toNat = keys.length ∧
    (∀ key : Bytes, key.length = dict.keySize →
      ∃ present dict', dict.isKeyPresent key = some (present, dict') ∧
        (present = true ↔ key ∈ keys)) ∧
    keys.map some = (keyTexts dict.symbols (lines dict.content)).map hexBytes

/-- Every key stands in a line in digits, and in capital letters in some line. -/
def Readable (n : Nat) (ls : List Bytes) : Prop :=
  ∀ text ∈ keyTexts n ls, ∃ key, hexBytes text = some key ∧ intToStr key ∈ keyTexts n ls

theorem readAs_of_hexBytes {texts : List Bytes} (h : ∀ text ∈ texts, ∃ key, hexBytes text = some key)
    (keyByteTmp : Nat → UInt8) : (readAs keyByteTmp texts).map some = texts.map hexBytes := by
  induction texts generalizing keyByteTmp with
  | nil => rfl
  | cons text texts ih =>
    obtain ⟨key, hkey⟩ := h text mem_cons_self
    rw [readAs, map_cons, map_cons, strToInt_of_hexBytes hkey, hkey,
      ih fun t ht => h t (mem_cons_of_mem text ht)]

theorem length_of_keyText {line text : Bytes} (h : keyText n line = some text) : text.length = n := by
  rw [keyText, keyOf] at h
  split at h
  · next hkey =>
    rw [← Option.some.inj h, length_take_of_le hkey.2]
  · cases h

theorem coherent_iff (hsettled : dict.stream.Settled)
    (hcounted : dict.totalKeys.toNat = (keyTexts dict.symbols (lines dict.content)).length) :
    dict.Coherent ↔ Readable dict.symbols (lines dict.content) := by
  have hview := view_content hsettled
  constructor
  · intro h text htext
    obtain ⟨keys, -, -, -, hpresent, hkeys⟩ := h fun _ => 0
    have hmem : hexBytes text ∈ keys.map some := hkeys ▸ mem_map_of_mem htext
    obtain ⟨key, hkey, hhex⟩ := mem_map.mp hmem
    obtain ⟨line, -, hline⟩ := mem_filterMap.mp htext
    have hlength : key.length = dict.keySize := by
      have hsymbols := (length_of_hexBytes hhex.symm).symm.trans (length_of_keyText hline)
      rw [symbols] at hsymbols
      omega
    obtain ⟨present, dict', hrun, hiff⟩ := hpresent key hlength
    obtain ⟨s, hrun', -⟩ := isKeyPresent_eq hview hlength
    obtain ⟨rfl, -⟩ := Prod.mk.inj (Option.some.inj (hrun.symm.trans hrun'))
    exact ⟨key, hhex.symm, of_decide_eq_true (hiff.mpr hkey)⟩
  · intro h keyByteTmp
    obtain ⟨s, hrun⟩ := enumerate_eq hview keyByteTmp
    have hkeys := readAs_of_hexBytes (fun text htext => (h text htext).imp fun _ hkey => hkey.1)
      keyByteTmp
    refine ⟨_, _, hrun, by rw [hcounted, length_readAs], fun key hlength => ?_, hkeys⟩
    obtain ⟨s', hpresent, -⟩ := isKeyPresent_eq hview hlength
    refine ⟨_, _, hpresent, ?_⟩
    have hmem : key ∈ readAs keyByteTmp (keyTexts dict.symbols (lines dict.content)) ↔
        some key ∈ (keyTexts dict.symbols (lines dict.content)).map hexBytes := by
      rw [← hkeys]
      exact (mem_map_of_injective (Option.some_injective _)).symm
    rw [decide_eq_true_iff, hmem, mem_map]
    constructor
    · exact fun htext => ⟨intToStr key, htext, hexBytes_intToStr key⟩
    · rintro ⟨text, htext, hhex⟩
      obtain ⟨key', hkey', htext'⟩ := h text htext
      obtain rfl := Option.some.inj (hhex.symm.trans hkey')
      exact htext'

def withNewLine (file : Bytes) : Bytes :=
  if file.getLast?.getD 10 = 10 then file else file ++ [10]

theorem ended_withNewLine (file : Bytes) :
    ∀ line ∈ lines (withNewLine file), Ended (· == 10) line := by
  refine ended_of_getLast? fun x hx => ?_
  rw [withNewLine] at hx
  split at hx
  · next hlast =>
    rw [hx] at hlast
    exact beq_iff_eq.mpr hlast
  · rw [List.getLast?_concat] at hx
    exact beq_iff_eq.mpr (Option.some.inj hx).symm

theorem view_opened {file : Bytes} (h : file.length < 2 ^ 31) : SettledView (.opened file) file 0 :=
  ⟨⟨[], file⟩, ⟨BufferedFileStream.settled_opened h, BufferedFileStream.shown_empty _⟩, rfl, rfl⟩

theorem addEndingNewLine_view {file : Bytes} (h : file.length + 1 < 2 ^ 31) :
    SettledView (addEndingNewLine (.opened file)) (withNewLine file) 0 := by
  have hview := view_opened (Nat.lt_of_succ_lt h)
  rw [addEndingNewLine]
  dsimp only
  rcases eq_nil_or_concat file with rfl | ⟨init, b, rfl⟩
  · have hseek : BufferedFileStream.seek (.opened []) (-1) .fromEnd = (false, .opened []) := by
      decide
    rw [hseek]
    exact hview
  · rw [concat_eq_append] at *
    have hone : (-1 : Int32) = Int32.ofInt (-((1 : Nat) : Int)) := by decide
    have hlength : (init ++ [b]).length = init.length + 1 := length_append
    obtain ⟨hfound, hlast⟩ := hview.seek_fromEnd (show 1 ≤ (init ++ [b]).length by omega)
    rw [← hone] at hfound hlast
    rw [hlength, Nat.add_sub_cancel] at hlast
    obtain ⟨hbytes, hread⟩ := hlast.read 1
    rw [drop_left] at hbytes hread
    have hbyte : [b].take 1 = [b] := rfl
    rw [hbyte, length_singleton, ← hlength] at hread
    rw [if_pos hfound, hbytes, hbyte, withNewLine, List.getLast?_concat, Option.getD_some]
    by_cases hb : b = 10
    · rw [if_neg fun hadd => hadd.2 hb, if_pos hb]
      exact hread.seek_fromStart (Nat.zero_le _)
    · rw [if_pos ⟨rfl, hb⟩, if_neg hb]
      refine hread.write_rewind ?_
      rw [length_append]
      exact h

theorem alloc_eq {file : Bytes} {keySize : Nat} (hpos : 0 < keySize) (h : file.length + 1 < 2 ^ 31) :
    ∃ dict, alloc file keySize = some dict ∧ dict.keySize = keySize ∧
      SettledView dict.stream (withNewLine file) 0 ∧
      dict.totalKeys = UInt32.ofNat (keyTexts (keySize * 2) (lines (withNewLine file))).length := by
  have hview := addEndingNewLine_view h
  rw [alloc, dif_pos hpos]
  dsimp only
  have hahead : Ahead (addEndingNewLine (.opened file)) (withNewLine file)
      (lines (withNewLine file)) := ⟨0, hview, rfl⟩
  obtain ⟨hfuel, hfuel'⟩ := @Ahead.fuel ⟨addEndingNewLine (.opened file), keySize, keySize * 2 + 1, 0,
    hpos, rfl⟩ _ _ hahead
  obtain ⟨s, hcount, q, hview', -⟩ := @countLoop_eq ⟨addEndingNewLine (.opened file), keySize,
    keySize * 2 + 1, 0, hpos, rfl⟩ _ _ _ _ hahead hfuel hfuel'
  rw [hcount, Option.bind_some]
  exact ⟨_, rfl, rfl, hview'.seek_fromStart (Nat.zero_le _), UInt32.zero_add _⟩

/-- What a dictionary is asked for. -/
inductive Event
  | add (key : Bytes)
  | delete (keyByteTmp : Nat → UInt8) (key : Bytes)
  | rewind
  | nextKey (keyByteTmp : UInt8)

def step (dict : KeysDict) : Event → Option KeysDict
  | .add key => (dict.addKey key).map Prod.snd
  | .delete keyByteTmp key => (dict.deleteKey keyByteTmp key).map Prod.snd
  | .rewind => some dict.rewind.2
  | .nextKey keyByteTmp => (dict.getNextKey keyByteTmp).map Prod.snd

def machine : Machine KeysDict Event := ⟨step⟩

theorem length_added (hkey : key.length = dict.keySize)
    (hsize : dict.content.length + dict.keySizeSymbols < 2 ^ 31) :
    (dict.content ++ (intToStr key ++ [10])).length < 2 ^ 31 := by
  rw [length_append, length_append, length_intToStr, length_singleton, hkey,
    ← dict.keySizeSymbols_eq]
  exact hsize

/-- Keys of the size of the dictionary, as long as an `int32_t` can measure the file, and to delete
keys whose first line has nothing else, where the other keys stay readable. -/
def Allowed (dict : KeysDict) : Event → Prop
  | .add key =>
    key.length = dict.keySize ∧ dict.content.length + dict.keySizeSymbols < 2 ^ 31
  | .delete keyByteTmp key =>
    key.length = dict.keySize ∧
      ∀ i, firstLine dict.symbols keyByteTmp key (lines dict.content) = some i →
        ((lines dict.content).getD i []).length = dict.keySizeSymbols ∧
          Readable dict.symbols ((lines dict.content).eraseIdx i)
  | .rewind | .nextKey _ => True

/-- What holds of a dictionary all the time. -/
structure Kept (dict : KeysDict) : Prop where
  settled : dict.stream.Settled
  ended : ∀ line ∈ lines dict.content, Ended (· == 10) line
  readable : Readable dict.symbols (lines dict.content)
  counted : dict.totalKeys.toNat = (keyTexts dict.symbols (lines dict.content)).length

theorem Kept.coherent (h : dict.Kept) : dict.Coherent := (coherent_iff h.settled h.counted).mpr h.readable

theorem Kept.moved (h : dict.Kept) {s : BufferedFileStream}
    (hview : SettledView s dict.content p) : Kept { dict with stream := s } := by
  have hcontent : content { dict with stream := s } = dict.content := content_eq hview
  refine ⟨hview.settled, ?_, ?_, ?_⟩
  · rw [hcontent]
    exact h.ended
  · rw [hcontent]
    exact h.readable
  · rw [hcontent]
    exact h.counted

theorem length_keyTexts_lt (h : l.length < 2 ^ 31) : (keyTexts n (lines l)).length < 2 ^ 31 := by
  have hkeys : (keyTexts n (lines l)).length ≤ (lines l).length := length_filterMap_le _ _
  have hlines := length_splitAfter_le (p := (· == 10)) l
  rw [lines] at hkeys ⊢
  omega

theorem keyText_added (key : Bytes) :
    keyText (key.length * 2) (intToStr key ++ [10]) = some (intToStr key) ∧
      Ended (· == 10) (intToStr key ++ [10]) := by
  have hsymbols : ∀ b ∈ intToStr key ++ [10], b ≠ 13 ∧ b ≠ 35 := by
    intro b hb
    rcases mem_append.mp hb with hb | hb
    · exact (mem_intToStr hb).2
    · rw [mem_singleton.mp hb]
      decide
  constructor
  · have hfilter : (intToStr key ++ [10]).filter (· ≠ 13) = intToStr key ++ [10] :=
      filter_eq_self.mpr fun b hb => decide_eq_true (hsymbols b hb).1
    have hfirst : (intToStr key ++ [10]).getD 0 0 ≠ 35 := by
      cases htext : intToStr key with
      | nil => decide
      | cons b text =>
        rw [htext] at hsymbols
        exact (hsymbols b mem_cons_self).2
    have hle : key.length * 2 ≤ (intToStr key ++ [10]).length := by
      rw [length_append, length_intToStr]
      exact Nat.le_add_right _ _
    rw [keyText, hfilter, keyOf, if_pos ⟨hfirst, hle⟩, ← length_intToStr, take_left]
  · exact ⟨intToStr key, 10, rfl, rfl, fun b hb => beq_false_of_ne (mem_intToStr hb).1⟩

theorem length_keyTexts_eraseIdx {i : Nat} {line text : Bytes} (hline : ls[i]? = some line)
    (hkey : keyText n line = some text) :
    (keyTexts n ls).length = (keyTexts n (ls.eraseIdx i)).length + 1 := by
  obtain ⟨hi, rfl⟩ := List.getElem?_eq_some_iff.mp hline
  have hsplit : ls.take i ++ ls[i] :: ls.drop (i + 1) = ls := by
    rw [← drop_eq_getElem_cons hi, take_append_drop]
  rw [eraseIdx_eq_take_drop_succ]
  nth_rewrite 1 [← hsplit]
  rw [keyTexts, keyTexts, filterMap_append, filterMap_append, length_append,
    length_append, filterMap_cons_some hkey, length_cons, Nat.add_assoc]

theorem Kept.added (h : dict.Kept) (hkey : key.length = dict.keySize) {s : BufferedFileStream}
    (hview : SettledView s (dict.content ++ (intToStr key ++ [10])) p) :
    Kept { dict with stream := s, totalKeys := dict.totalKeys + 1 } := by
  obtain ⟨htext, hended⟩ := keyText_added key
  have hsymbols : dict.symbols = key.length * 2 := by rw [symbols, hkey]
  have hlines : lines (dict.content ++ (intToStr key ++ [10])) =
      lines dict.content ++ [intToStr key ++ [10]] := by
    have hsplit := splitAfter_flatten_append h.ended (intToStr key ++ [10])
    have hlast := hended.splitAfter_append []
    rw [append_nil] at hlast
    rw [lines_flatten, hlast] at hsplit
    exact hsplit
  have htexts : keyTexts dict.symbols (lines dict.content ++ [intToStr key ++ [10]]) =
      keyTexts dict.symbols (lines dict.content) ++ [intToStr key] := by
    rw [hsymbols, keyTexts, filterMap_append, filterMap_cons_some htext]
    rfl
  have hcontent : content { dict with stream := s, totalKeys := dict.totalKeys + 1 } =
      dict.content ++ (intToStr key ++ [10]) := content_eq hview
  refine ⟨hview.settled, ?_, ?_, ?_⟩
  · rw [hcontent, hlines]
    intro line hline
    rcases mem_append.mp hline with hline | hline
    · exact h.ended line hline
    · rw [mem_singleton.mp hline]
      exact hended
  · show Readable dict.symbols _
    rw [hcontent, hlines]
    intro text hmem
    rw [htexts] at hmem ⊢
    rcases mem_append.mp hmem with hmem | hmem
    · obtain ⟨key', hhex, hcapital⟩ := h.readable text hmem
      exact ⟨key', hhex, mem_append_left _ hcapital⟩
    · rw [mem_singleton.mp hmem]
      exact ⟨key, hexBytes_intToStr key, mem_append_right _ (mem_singleton_self _)⟩
  · show (dict.totalKeys + 1).toNat = (keyTexts dict.symbols _).length
    have hlt := @length_keyTexts_lt dict.content dict.symbols h.settled.size
    rw [hcontent, hlines, htexts, length_append, length_singleton, UInt32.toNat_add,
      h.counted]
    exact Nat.mod_eq_of_lt (by
      have hone : (1 : UInt32).toNat = 1 := rfl
      omega)

theorem Kept.deleted (h : dict.Kept) {keyByteTmp : Nat → UInt8} {i : Nat}
    (hfirst : firstLine dict.symbols keyByteTmp key (lines dict.content) = some i)
    (hreadable : Readable dict.symbols ((lines dict.content).eraseIdx i)) {s : BufferedFileStream}
    (hview : SettledView s ((lines dict.content).eraseIdx i).flatten p) :
    Kept { dict with stream := s, totalKeys := dict.totalKeys - 1 } := by
  obtain ⟨line, text, hline, hkey⟩ := firstLine_line hfirst
  have hended : ∀ line ∈ (lines dict.content).eraseIdx i, Ended (· == 10) line :=
    fun line hmem => h.ended line (mem_of_mem_eraseIdx hmem)
  have hlines : lines ((lines dict.content).eraseIdx i).flatten = (lines dict.content).eraseIdx i :=
    splitAfter_flatten hended
  have hcontent : content { dict with stream := s, totalKeys := dict.totalKeys - 1 } =
      ((lines dict.content).eraseIdx i).flatten := content_eq hview
  refine ⟨hview.settled, ?_, ?_, ?_⟩
  · rw [hcontent, hlines]
    exact hended
  · show Readable dict.symbols _
    rw [hcontent, hlines]
    exact hreadable
  · show (dict.totalKeys - 1).toNat = (keyTexts dict.symbols _).length
    have hlength := length_keyTexts_eraseIdx hline hkey
    have hle : (1 : UInt32) ≤ dict.totalKeys := by
      rw [UInt32.le_iff_toNat_le, h.counted, hlength]
      exact Nat.le_add_left _ _
    rw [hcontent, hlines, UInt32.toNat_sub_of_le _ _ hle, h.counted, hlength]
    rfl

theorem Kept.step (h : dict.Kept) {event : Event} (hallowed : dict.Allowed event) :
    ∃ dict', dict.step event = some dict' ∧ dict'.Kept := by
  have hview := view_content h.settled
  cases event with
  | add key =>
    obtain ⟨hkey, hsize⟩ := hallowed
    obtain ⟨s, hadd, hview'⟩ := addKey_eq hview hkey (length_added hkey hsize)
    exact ⟨_, congrArg (Option.map Prod.snd) hadd, h.added hkey hview'⟩
  | delete keyByteTmp key =>
    obtain ⟨hkey, hregular⟩ := hallowed
    rcases deleteKey_eq hview hkey keyByteTmp with ⟨s, hdelete, hview', -⟩ |
      ⟨s, i, hdelete, hfirst, hview'⟩
    · exact ⟨_, congrArg (Option.map Prod.snd) hdelete, h.moved hview'⟩
    · obtain ⟨hline, hreadable⟩ := hregular i hfirst
      have hsymbols : dict.keySizeSymbols = dict.symbols + 1 := dict.keySizeSymbols_eq
      rw [hsymbols] at hline hview'
      rw [(cut_line_iff hfirst dict.symbols_pos).mpr (.inl hline)] at hview'
      exact ⟨_, congrArg (Option.map Prod.snd) hdelete, h.deleted hfirst hreadable hview'⟩
  | rewind => exact ⟨_, rfl, h.moved (ahead_rewind hview).2⟩
  | nextKey keyByteTmp =>
    obtain ⟨next, s, q, hnext, hview'⟩ := getNextKey_view hview keyByteTmp
    exact ⟨_, congrArg (Option.map Prod.snd) hnext, h.moved hview'⟩

/-- A dictionary that is opened from a readable file is coherent, and stays so in every run of what is
allowed. -/
theorem keysDict_coherent {file : Bytes} {keySize : Nat} (hpos : 0 < keySize)
    (hsize : file.length + 1 < 2 ^ 31)
    (hreadable : Readable (keySize * 2) (lines (withNewLine file))) :
    ∃ dict, alloc file keySize = some dict ∧ dict.Coherent ∧
      ∀ events, machine.Meets Allowed dict events →
        ∃ dict', machine.run dict events = some dict' ∧ dict'.Coherent := by
  obtain ⟨dict, halloc, rfl, hview, hcount⟩ := alloc_eq hpos hsize
  have hcontent : dict.content = withNewLine file := content_eq hview
  have hkept : dict.Kept := by
    refine ⟨hview.settled, ?_, ?_, ?_⟩
    · rw [hcontent]
      exact ended_withNewLine file
    · rw [hcontent]
      exact hreadable
    · have hlt := @length_keyTexts_lt (withNewLine file) dict.symbols hview.lt
      rw [hcontent, hcount]
      exact UInt32.toNat_ofNat_of_lt' (Nat.lt_of_lt_of_le hlt (by decide))
  refine ⟨dict, halloc, hkept.coherent, fun events hmeets => ?_⟩
  obtain ⟨dict', hrun, hkept'⟩ := machine.run_of_meets (fun _ _ hI hok => hI.step hok) hkept hmeets
  exact ⟨dict', hrun, hkept'.coherent⟩

/-- Of two keys the first one is deleted. -/
theorem keysDict_coherent_two : ∃ dict dict', alloc (ascii "AA\nBB\n") 1 = some dict ∧
      machine.run dict [.delete (fun _ => 0) [170], .rewind] = some dict' ∧ dict'.Coherent := by
  have hreadable : ∀ {ls : List Bytes}, keyTexts 2 ls = [ascii "AA", ascii "BB"] ∨
      keyTexts 2 ls = [ascii "BB"] → Readable 2 ls := by
    rintro ls (htexts | htexts) text hmem
    · rw [htexts] at hmem ⊢
      rcases mem_cons.mp hmem with rfl | hmem
      · exact ⟨[170], by decide, by decide⟩
      · exact ⟨[187], by rw [mem_singleton.mp hmem]; decide, by decide⟩
    · rw [htexts] at hmem ⊢
      exact ⟨[187], by rw [mem_singleton.mp hmem]; decide, by decide⟩
  obtain ⟨dict, halloc, -, hruns⟩ := @keysDict_coherent (ascii "AA\nBB\n") 1 (by decide) (by decide)
    (hreadable (.inl (by decide)))
  have hvalues : (alloc (ascii "AA\nBB\n") 1).map (fun dict =>
      (dict.keySize, dict.keySizeSymbols, dict.content)) = some (1, 3, ascii "AA\nBB\n") := by
    decide
  rw [halloc] at hvalues
  obtain ⟨hsize, hvalues⟩ := Prod.mk.inj (Option.some.inj hvalues)
  obtain ⟨hsymbols, hcontent⟩ := Prod.mk.inj hvalues
  have hsymbols' : dict.symbols = 2 := by rw [symbols, hsize]
  have hallowed : dict.Allowed (.delete (fun _ => 0) [170]) := by
    refine ⟨hsize.symm, fun i hi => ?_⟩
    rw [hsymbols', hcontent] at hi
    have hfirst : firstLine 2 (fun _ => 0) [170] (lines (ascii "AA\nBB\n")) = some 0 := by
      decide
    obtain rfl := Option.some.inj (hfirst.symm.trans hi)
    rw [hsymbols, hsymbols', hcontent]
    exact ⟨by decide, hreadable (.inr (by decide))⟩
  obtain ⟨dict', hrun, hcoherent⟩ := hruns [.delete (fun _ => 0) [170], .rewind] (by
    refine ⟨hallowed, ?_⟩
    cases machine.step dict (.delete (fun _ => 0) [170]) with
    | none => exact trivial
    | some next => exact ⟨trivial, trivial⟩)
  exact ⟨dict, dict', halloc, hrun, hcoherent⟩

/-- A key in small letters is read, and is not present. -/
theorem keysDict_small_letters :
    ¬ ∀ (file : Bytes) (keySize : Nat) (events : List Event) (dict dict' : KeysDict),
      alloc file keySize = some dict → machine.run dict events = some dict' → dict'.Coherent := by
  intro h
  have hvalues : (alloc (ascii "aa\n") 1).map (fun dict => (dict.keySize,
      (dict.enumerate fun _ => 0).map Prod.fst, (dict.isKeyPresent [170]).map Prod.fst)) =
      some (1, some [[170]], some false) := by decide
  obtain ⟨dict, halloc, hvalues⟩ := Option.map_eq_some_iff.mp hvalues
  obtain ⟨hsize, hvalues⟩ := Prod.mk.inj hvalues
  obtain ⟨hkeys, habsent⟩ := Prod.mk.inj hvalues
  obtain ⟨keys, _, hrun, -, hpresent, -⟩ := h _ _ [] dict dict halloc rfl fun _ => 0
  obtain ⟨present, _, hrun', hiff⟩ := hpresent [170] hsize.symm
  rw [hrun] at hkeys
  rw [hrun'] at habsent
  obtain rfl := Option.some.inj hkeys
  obtain rfl := Option.some.inj habsent
  exact absurd (hiff.mpr (mem_singleton_self _)) Bool.false_ne_true

end KeysDict
end NikitaFirmware.Toolbox
