import NikitaFirmware.Toolbox.FlipperStream

/-!
# Replacing the line of a key

`flipper_format_stream_delete_key_and_write`. The line that is replaced is found from the position
behind its delimiter and the next character: the search for its end begins there.
-/

namespace NikitaFirmware.Toolbox.FlipperStream

open Foundations

variable {lines : List Line} {key value rest : List Char} {stream : Cursor Char}
  {data : WriteData} {strictMode : Bool}

theorem seekToKeyLoop_strict {p : List Char} (hlines : ∀ line ∈ lines, line.WellFormed)
    (hkeys : ∀ line ∈ lines, line.key? ≠ some key) (hkeyed : ¬ ∀ line ∈ lines, line.key? = none)
    (hp : Passes p) (hafter : stream.after = p ++ (render lines ++ rest)) (fuel : Nat) :
    (seekToKeyLoop key true (fuel + 1) stream).1 = false := by
  induction lines generalizing p with
  | nil => exact absurd (List.forall_mem_nil _) hkeyed
  | cons line lines ih =>
    obtain ⟨hline, htail⟩ := List.forall_mem_cons.mp hlines
    obtain ⟨hother, hkeys'⟩ := List.forall_mem_cons.mp hkeys
    cases line with
    | keyed other value =>
      have hafter' : stream.after = p ++ (other ++ ':' :: (value ++ '\n' :: (render lines ++ rest))) := by
        rw [hafter, render_cons, Line.chars]
        simp only [List.append_assoc, List.cons_append]
      rw [seekToKeyLoop_other hp hline.1 (fun h => hother (congrArg some h)) hafter', if_pos rfl]
    | blank cr =>
      refine ih htail hkeys' (fun h => hkeyed (List.forall_mem_cons.mpr ⟨rfl, h⟩))
        (hp.append (passes_line hline rfl)) ?_
      rw [hafter, render_cons]
      simp only [List.append_assoc, List.cons_append, List.nil_append]
    | comment text =>
      refine ih htail hkeys' (fun h => hkeyed (List.forall_mem_cons.mpr ⟨rfl, h⟩))
        (hp.append (passes_line hline rfl)) ?_
      rw [hafter, render_cons]
      simp only [List.append_assoc, List.cons_append, List.nil_append]

theorem scan_eol (l : List Char) : Cursor.scan eolStep () l =
      (if '\n' ∈ l then .inr () else .inl (), (l.takeWhile (· ≠ '\n')).length) := by
  induction l with
  | nil => rfl
  | cons c l ih =>
    by_cases hc : c = '\n'
    · have hstep : eolStep () c = .inr () := if_pos hc
      rw [Cursor.scan_cons_inr hstep, if_pos (hc ▸ List.mem_cons_self),
        List.takeWhile_cons_of_neg (by simp [hc])]
      rfl
    · have hstep : eolStep () c = .inl () := if_neg hc
      have hmem : '\n' ∈ c :: l ↔ '\n' ∈ l :=
        ⟨fun h => (List.mem_cons.mp h).resolve_left (Ne.symm hc), List.mem_cons_of_mem c⟩
      rw [Cursor.scan_cons_inl hstep, ih, List.takeWhile_cons_of_pos (by simp [hc])]
      simp only [hmem, List.length_cons]

theorem seekToNextLine_eq (stream : Cursor Char) : seekToNextLine stream =
      (true, stream.advance (stream.after.takeWhile (· ≠ '\n')).length) := by
  rw [seekToNextLine, Cursor.scanBlocks_eq (by decide), scan_eol]
  by_cases heol : '\n' ∈ stream.after
  · rw [if_pos heol]
  · rw [if_neg heol]
    have hall : stream.after.takeWhile (· ≠ '\n') = stream.after :=
      List.takeWhile_eq_self_iff.mpr fun c hc => decide_eq_true fun h => heol (h ▸ hc)
    simp only [hall]
    rw [Cursor.eof, Cursor.advance, List.drop_length]
    rfl

theorem seekToKey_lines {c : Char} (hlines : ∀ line ∈ lines, line.WellFormed)
    (hkeys : ∀ line ∈ lines, line.key? ≠ some key)
    (hstrict : strictMode = true → ∀ line ∈ lines, line.key? = none) (hkey : ValidKey key) :
    seekToKey key strictMode ⟨[], render lines ++ (key ++ ':' :: c :: rest)⟩ =
      (true, ⟨render lines ++ (key ++ [':', c]), rest⟩) := by
  have hfuel : lines.length < (render lines ++ (key ++ ':' :: c :: rest)).length + 1 := by
    have := length_le_render lines
    rw [List.length_append]
    omega
  rw [seekToKey, seekToKeyLoop_lines hlines hkeys hstrict passes_nil hkey rfl hfuel]
  apply Cursor.seek_length
  · rw [Cursor.content_advance]
    simp only [Cursor.content_mk, List.nil_append, List.append_assoc, List.cons_append]
  · rw [Cursor.tell_advance]
    · simp only [Cursor.tell_mk, List.length_append, List.length_cons, List.length_nil]
      omega
    · simp only [List.length_append, List.length_cons, List.length_nil]
      omega

theorem seekToKey_at_end (hlines : ∀ line ∈ lines, line.WellFormed)
    (hkeys : ∀ line ∈ lines, line.key? ≠ some key)
    (hstrict : strictMode = true → ∀ line ∈ lines, line.key? = none) (hkey : ValidKey key) :
    (seekToKey key strictMode ⟨[], render lines ++ (key ++ [':'])⟩).1 = false := by
  have hfuel : lines.length < (render lines ++ (key ++ [':'])).length + 1 := by
    have := length_le_render lines
    rw [List.length_append]
    omega
  rw [seekToKey, seekToKeyLoop_lines hlines hkeys hstrict passes_nil hkey rfl hfuel]
  rw [Cursor.tell_advance (by simp), Cursor.seek_of_lt]
  rw [Cursor.size_advance, Cursor.size]
  simp only [Cursor.content_mk, Cursor.tell_mk, List.length_append, List.length_cons,
    List.length_nil]
  omega

/-- What is replaced ends with the first line feed behind the delimiter and one more character. -/
theorem deleteKeyAndWrite_lines {c : Char} (hlines : ∀ line ∈ lines, line.WellFormed)
    (hkeys : ∀ line ∈ lines, line.key? ≠ some key)
    (hstrict : strictMode = true → ∀ line ∈ lines, line.key? = none) (hkey : ValidKey key)
    (hcontent : stream.content = render lines ++ (key ++ ':' :: c :: rest)) :
    deleteKeyAndWrite stream key data strictMode =
      (true, ⟨render lines ++ (writeValueLine key data).flatten,
        (rest.dropWhile (· ≠ '\n')).drop 1⟩) := by
  have hlength : stream.content.length = (render lines).length + key.length + 2 + rest.length := by
    rw [hcontent]
    simp only [List.length_append, List.length_cons]
    omega
  have hsize : stream.size ≠ 0 := by
    rw [Cursor.size, hlength]
    omega
  have hrewound : stream.seek 0 = (true, ⟨[], render lines ++ (key ++ ':' :: c :: rest)⟩) :=
    @Cursor.seek_length _ _ [] _ hcontent 0 rfl
  have hfound : seekToKey key strictMode ⟨[], render lines ++ (key ++ ':' :: c :: rest)⟩ =
      (true, ⟨render lines ++ (key ++ [':', c]), rest⟩) :=
    seekToKey_lines hlines hkeys hstrict hkey
  have hstart : (render lines ++ (key ++ [':', c])).length - key.length - 2 =
      (render lines).length := by
    simp only [List.length_append, List.length_cons, List.length_nil]
    omega
  have hlt : ¬ (render lines ++ (key ++ [':', c])).length - key.length < 2 := by
    simp only [List.length_append, List.length_cons, List.length_nil]
    omega
  obtain ⟨n, hn⟩ : ∃ n, n = (rest.takeWhile (· ≠ '\n')).length := ⟨_, rfl⟩
  have hle : n ≤ rest.length := hn ▸ (List.takeWhile_prefix _).length_le
  have htell : ((Cursor.mk (render lines ++ (key ++ [':', c])) rest).advance n).tell =
      (render lines).length + key.length + 2 + n := by
    rw [Cursor.tell_advance hle, Cursor.tell_mk]
    simp only [List.length_append, List.length_cons, List.length_nil]
    omega
  have hback : ((Cursor.mk (render lines ++ (key ++ [':', c])) rest).advance n).seek
      ((render lines).length : Nat) = (true, ⟨render lines, key ++ ':' :: c :: rest⟩) := by
    refine Cursor.seek_length ?_ rfl
    rw [Cursor.content_advance, Cursor.content_mk]
    simp only [List.append_assoc, List.cons_append, List.nil_append]
  -- with or without the line feed itself
  have hdrop : ∀ m, m = n ∨ m = n + 1 → (m = n → n = rest.length) →
      (key ++ ':' :: c :: rest).drop (key.length + 2 + m) = (rest.dropWhile (· ≠ '\n')).drop 1 := by
    intro m hm hend
    have hwhile : rest.dropWhile (· ≠ '\n') = rest.drop n := by
      have := List.takeWhile_append_dropWhile (p := (· ≠ '\n')) (l := rest)
      conv_rhs => rw [← this]
      rw [hn, List.drop_left]
    rw [Nat.add_assoc, List.drop_length_add_append, Nat.add_comm 2, List.drop_succ_cons,
      List.drop_succ_cons, hwhile, List.drop_drop]
    rcases hm with rfl | rfl
    · rw [List.drop_of_length_le (Nat.le_of_eq (hend rfl).symm),
        List.drop_of_length_le (by rw [hend rfl]; omega)]
    · rfl
  have hend : stream.size = (render lines).length + key.length + 2 + rest.length := hlength
  simp only [deleteKeyAndWrite, if_neg hsize, hrewound, hfound, Cursor.tell_mk, if_neg hlt, hstart,
    seekToNextLine_eq, ← hn, htell, hback, Bool.not_true, Bool.false_eq_true, if_false]
  rw [Cursor.splice]
  refine Prod.ext rfl (Cursor.ext rfl ?_)
  by_cases hlast : (render lines).length + key.length + 2 + n < stream.size
  · rw [if_pos hlast]
    have hcount : (render lines).length + key.length + 2 + n + 1 - (render lines).length =
        key.length + 2 + (n + 1) := by omega
    rw [hcount]
    exact hdrop _ (Or.inr rfl) (fun h => by omega)
  · rw [if_neg hlast]
    have hcount : (render lines).length + key.length + 2 + n - (render lines).length =
        key.length + 2 + n := by omega
    rw [hcount]
    exact hdrop _ (Or.inl rfl) (fun _ => by omega)

/-- What follows the line of a key, from the line feed on. -/
def tailChars : Option (List Char) → List Char
  | none => []
  | some following => '\n' :: following

/-- The lines behind the line of a key. -/
def following : Option (List Char) → List Char
  | none => []
  | some following => following

def Replaced (lines : List Line) (key : List Char) (data : WriteData) (tail : Option (List Char))
    (result : Bool × Cursor Char) : Prop :=
  result.1 = true ∧
    result.2.content = render lines ++ (writeValueLine key data).flatten ++ following tail

theorem deleteKeyAndWrite_of_not_found
    (h : (seekToKey key strictMode ⟨[], stream.content⟩).1 = false) :
    (deleteKeyAndWrite stream key data strictMode).1 = false := by
  have hrewound : stream.seek 0 = (true, ⟨[], stream.content⟩) :=
    @Cursor.seek_length _ _ [] _ rfl 0 rfl
  rw [deleteKeyAndWrite]
  simp only [hrewound, h, Bool.not_true, Bool.not_false, Bool.false_eq_true, if_false, if_true]
  split <;> rfl

theorem drop_line_eq_self_iff (text : List Char) :
    (text.dropWhile (· ≠ '\n')).drop 1 = text ↔ text = [] := by
  constructor
  · intro h
    have hlength := congrArg List.length h
    have hle := (List.dropWhile_suffix (p := (· ≠ '\n')) (l := text)).length_le
    rw [List.length_drop] at hlength
    exact List.length_eq_zero_iff.mp (by omega)
  · rintro rfl
    rfl

theorem dropWhile_value {value : List Char} (hvalue : '\n' ∉ value) (tail : Option (List Char)) :
    ((value ++ tailChars tail).dropWhile (· ≠ '\n')).drop 1 = following tail := by
  have hpass : ∀ c ∈ value, decide (c ≠ '\n') = true :=
    fun c hc => decide_eq_true fun h => hvalue (h ▸ hc)
  rw [List.dropWhile_append_of_pos hpass]
  cases tail with
  | none => rfl
  | some text => rw [tailChars, List.dropWhile_cons_of_neg (by decide)]; rfl

/-- The first line of a key is replaced, and nothing else, if it has a value or is the last one and
has a line feed; in strict mode it has to be the first line with a key. -/
theorem deleteKeyAndWrite_replaced_iff {lines : List Line} {key value : List Char}
    {tail : Option (List Char)} {stream : Cursor Char} (data : WriteData) (strictMode : Bool)
    (hlines : ∀ line ∈ lines, line.WellFormed) (hkeys : ∀ line ∈ lines, line.key? ≠ some key)
    (hline : (Line.keyed key value).WellFormed)
    (hcontent : stream.content = render lines ++ ((Line.keyed key value).chars ++ tailChars tail)) :
    Replaced lines key data tail (deleteKeyAndWrite stream key data strictMode) ↔
      (value ≠ [] ∨ tail = some []) ∧ (strictMode = true → ∀ line ∈ lines, line.key? = none) := by
  obtain ⟨hkey, hvalue⟩ := hline
  rw [Line.chars, List.append_assoc, List.cons_append] at hcontent
  have hlost : (seekToKey key strictMode ⟨[], stream.content⟩).1 = false →
      ¬ Replaced lines key data tail (deleteKeyAndWrite stream key data strictMode) :=
    fun h hreplaced => Bool.false_ne_true ((deleteKeyAndWrite_of_not_found h).symm.trans hreplaced.1)
  by_cases hstrict : strictMode = true → ∀ line ∈ lines, line.key? = none
  · rw [and_iff_left hstrict]
    -- what the replacement leaves behind the line
    have hrest : ∀ {c : Char} {rest : List Char}, value ++ tailChars tail = c :: rest →
        (Replaced lines key data tail (deleteKeyAndWrite stream key data strictMode) ↔
          (rest.dropWhile (· ≠ '\n')).drop 1 = following tail) := by
      intro c rest h
      rw [h] at hcontent
      rw [deleteKeyAndWrite_lines hlines hkeys hstrict hkey hcontent, Replaced, Cursor.content_mk]
      simp only [true_and, List.append_cancel_left_eq]
    cases value with
    | cons c value =>
      obtain ⟨-, hvalue'⟩ := not_or.mp (mt List.mem_cons.mpr hvalue)
      rw [hrest (List.cons_append ..), dropWhile_value hvalue' tail]
      exact iff_of_true rfl (Or.inl (List.cons_ne_nil _ _))
    | nil =>
      cases tail with
      | none =>
        refine iff_of_false (hlost ?_) (by simp)
        rw [hcontent]
        exact seekToKey_at_end hlines hkeys hstrict hkey
      | some text =>
        have htail : ([] : List Char) ++ tailChars (some text) = '\n' :: text := rfl
        rw [hrest htail, following, drop_line_eq_self_iff]
        simp
  · refine iff_of_false (hlost ?_) (fun h => hstrict h.2)
    obtain ⟨hmode, hkeyed⟩ := Classical.not_imp.mp hstrict
    rw [hmode, hcontent, seekToKey]
    exact seekToKeyLoop_strict hlines hkeys hkeyed passes_nil rfl _

theorem deleteKeyAndWrite_replaced_ab :
    Replaced [.keyed "a".toList " 1".toList] "b".toList (.hex ⟨[0x2A], by decide⟩) none
      (deleteKeyAndWrite ⟨[], "a: 1\nb: 2".toList⟩ "b".toList (.hex ⟨[0x2A], by decide⟩) false) :=
  (@deleteKeyAndWrite_replaced_iff _ _ " 2".toList _ _ (.hex ⟨[0x2A], by decide⟩) false
    (by decide) (by decide) (by decide) (by decide)).mpr (by decide)

/-- The line behind a key with an empty value goes too. -/
theorem deleteKeyAndWrite_deletes_two :
    ¬ ∀ (lines : List Line) (key value : List Char) (tail : Option (List Char))
      (stream : Cursor Char) (data : WriteData), (∀ line ∈ lines, line.WellFormed) →
      (∀ line ∈ lines, line.key? ≠ some key) → (Line.keyed key value).WellFormed →
      stream.content = render lines ++ ((Line.keyed key value).chars ++ tailChars tail) →
      Replaced lines key data tail (deleteKeyAndWrite stream key data false) := by
  intro h
  have hlost := h [] "a".toList [] (some "b: 1\n".toList) ⟨[], "a:\nb: 1\n".toList⟩ .ignore
    (by decide) (by decide) (by decide) (by decide)
  have hempty : (deleteKeyAndWrite ⟨[], "a:\nb: 1\n".toList⟩ "a".toList .ignore false).2.content =
      [] := by decide
  rw [Replaced, hempty] at hlost
  exact absurd hlost.2 (by decide)

end NikitaFirmware.Toolbox.FlipperStream
