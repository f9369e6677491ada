import NikitaFirmware.Foundations.Bytes
import NikitaFirmware.Foundations.Splitting

/-!
# The lines of a command file

`wifi_check_cmd` reads the head of the command file into a buffer and sends its lines. They are
the lines of the file exactly when its non-empty lines lie in the part that is read.
-/

namespace NikitaFirmware.Wifi

open Foundations List

abbrev CR : UInt8 := 13
abbrev LF : UInt8 := 10

/-- The room of `char data[512]` before its NUL. -/
abbrev DATA_MAX : Nat := 511

/-- A trailing CR becomes the NUL. -/
def trimCr (line : Bytes) : Bytes := if line.getLast? = some CR then line.dropLast else line

/-- What one round of the loop makes of the text up to the next `strchr(line, '\n')`. -/
def lineOf (piece : Bytes) : Bytes := trimCr (piece.takeWhile (· ≠ LF))

/-- The lines that the loop of `wifi_check_cmd` hands to `wifi_send`. The loop goes from a line feed
to the character behind it, and ends where nothing is left. -/
def wifiLines (data : Bytes) : List Bytes :=
  ((splitAfter (· == LF) (cstr data)).map lineOf).filter (· ≠ [])

/-- A line of a command file, without its end. A CR before a line feed belongs to the end. -/
structure Line where
  text : Bytes
  crlf : Bool
  noNul : (0 : UInt8) ∉ text
  oneLine : LF ∉ text
  whole : crlf = false → text.getLast? ≠ some CR

namespace Line

def body (l : Line) : Bytes := if l.crlf then l.text ++ [CR] else l.text

def bytes (l : Line) : Bytes := l.body ++ [LF]

/-- How much of a line has to be read: one byte more than the text where that ends with a CR. -/
def needed (l : Line) : Nat := l.text.length + if l.text.getLast? = some CR then 1 else 0

end Line

def fileBytes (file : List Line) : Bytes := file.flatMap Line.bytes

/-- The non-empty lines of a file. -/
def texts (file : List Line) : List Bytes := (file.map Line.text).filter (· ≠ [])

/-- The non-empty lines lie within the first `n` bytes. -/
def Fits : Nat → List Line → Prop
  | _, [] => True
  | n, l :: file => (l.text ≠ [] → l.needed ≤ n) ∧ Fits (n - l.bytes.length) file

variable {l : Line} {file : List Line} {data : Bytes} {n : Nat}

@[simp] theorem trimCr_nil : trimCr [] = [] := by simp [trimCr]

@[simp] theorem trimCr_concat (text : Bytes) : trimCr (text ++ [CR]) = text := by simp [trimCr]

theorem trimCr_eq_self (h : data.getLast? ≠ some CR) : trimCr data = data := if_neg h

theorem length_trimCr_le : (trimCr data).length ≤ data.length := by
  unfold trimCr
  split <;> simp

theorem trimCr_ne_self (h : data.getLast? = some CR) : (trimCr data).length < data.length := by
  have hne : data ≠ [] := by
    intro hnil
    simp [hnil] at h
  have hpos := length_pos_iff.mpr hne
  rw [trimCr, if_pos h, length_dropLast]
  omega

namespace Line

theorem trimCr_body : trimCr l.body = l.text := by
  rw [body]
  split
  · exact trimCr_concat l.text
  · next h => exact trimCr_eq_self (l.whole (eq_false_of_ne_true h))

theorem lf_not_mem_body : LF ∉ l.body := by
  have hne : LF ≠ CR := by decide
  rw [body]
  split <;> simp [l.oneLine, hne]

theorem ended : Ended (· == LF) l.bytes := by
  refine ⟨l.body, LF, rfl, rfl, fun y hy => ?_⟩
  exact beq_eq_false_iff_ne.mpr fun h => lf_not_mem_body (h ▸ hy)

theorem lineOf_bytes : lineOf l.bytes = l.text := by
  have htake : l.bytes.takeWhile (· ≠ LF) = l.body := by
    rw [bytes, takeWhile_append_of_pos]
    · simp
    · intro y hy
      exact decide_eq_true fun h => lf_not_mem_body (h ▸ hy)
  rw [lineOf, htake, trimCr_body]

theorem trimCr_take_body (hcut : n ≤ l.body.length) :
    trimCr (l.body.take n) = l.text ↔ l.needed ≤ n := by
  have hbody : l.text <+: l.body := by
    rw [body]
    split
    · exact List.prefix_append _ _
    · exact prefix_rfl
  constructor
  · -- what is left of a shorter piece is shorter than the text
    intro h
    have hlen := congrArg List.length h
    have hle := @length_trimCr_le (l.body.take n)
    rw [length_take_of_le hcut] at hle
    rw [needed]
    split
    · next hlast =>
      by_contra hshort
      have heq : n = l.text.length := by omega
      have htake : l.body.take n = l.text := by rw [heq, ← prefix_iff_eq_take.mp hbody]
      have hlt := trimCr_ne_self hlast
      rw [← htake, h, htake] at hlt
      exact Nat.lt_irrefl _ hlt
    · omega
  · intro h
    have hle : l.text.length ≤ n := (Nat.le_add_right _ _).trans h
    by_cases hall : n = l.body.length
    · rw [hall, take_length, trimCr_body]
    · -- only the CR of the end is cut off
      have hlen : l.body.length ≤ l.text.length + 1 := by
        rw [body]
        split <;> simp
      have heq : n = l.text.length := by omega
      have htake : l.body.take n = l.text := by rw [heq, ← prefix_iff_eq_take.mp hbody]
      rw [htake]
      refine trimCr_eq_self fun hlast => ?_
      rw [needed, if_pos hlast] at h
      omega

theorem trimCr_take_body_nil (h : l.text = []) (n : Nat) : trimCr (l.body.take n) = [] := by
  rw [body, h]
  split
  · cases n <;> simp [trimCr]
  · simp

end Line

theorem cstr_take_fileBytes : cstr ((fileBytes file).take n) = (fileBytes file).take n := by
  refine cstr_eq_self fun hmem => ?_
  obtain ⟨l, -, hl⟩ := mem_flatMap.mp (mem_of_mem_take hmem)
  have hcr : (0 : UInt8) ≠ CR := by decide
  have hlf : (0 : UInt8) ≠ LF := by decide
  unfold Line.bytes Line.body at hl
  split at hl <;> simp [l.noNul, hcr, hlf] at hl

theorem splitAfter_of_no_lf (h : LF ∉ data) (hne : data ≠ []) :
    splitAfter (· == LF) data = [data] := by
  induction data with
  | nil => contradiction
  | cons c data ih =>
    obtain ⟨hc, hdata⟩ := not_or.mp (mt mem_cons.mpr h)
    have hend : (c == LF) = false := beq_eq_false_iff_ne.mpr (Ne.symm hc)
    rw [@splitAfter_cons _ (· == LF) _ _ hend]
    by_cases hnil : data = []
    · rw [hnil]
      rfl
    · rw [ih hdata hnil]
      rfl

theorem lines_of_no_lf (h : LF ∉ data) : ((splitAfter (· == LF) data).map lineOf).filter (· ≠ []) =
      [trimCr data].filter (· ≠ []) := by
  by_cases hnil : data = []
  · simp [hnil, splitAfter]
  · have htake : data.takeWhile (· ≠ LF) = data :=
      takeWhile_eq_self_iff.mpr fun y hy => decide_eq_true fun heq => h (heq ▸ hy)
    rw [splitAfter_of_no_lf h hnil, map_singleton, lineOf, htake]

theorem texts_cons : texts (l :: file) = [l.text].filter (· ≠ []) ++ texts file := by
  rw [texts, texts, ← filter_append]
  rfl

/-- The lines sent of the first `n` bytes are the non-empty lines of the file exactly when these
lie within the `n` bytes. -/
theorem wifiLines_take_iff (n : Nat) (file : List Line) :
    wifiLines ((fileBytes file).take n) = texts file ↔ Fits n file := by
  rw [wifiLines, cstr_take_fileBytes]
  induction file generalizing n with
  | nil => simp [fileBytes, texts, Fits, splitAfter]
  | cons l file ih =>
    have hbytes : fileBytes (l :: file) = l.bytes ++ fileBytes file := rfl
    by_cases hcut : l.bytes.length ≤ n
    · -- the whole line is read
      have hneeded : l.text ≠ [] → l.needed ≤ n := by
        intro hne
        have hle : l.needed ≤ l.body.length :=
          (Line.trimCr_take_body le_rfl).mp (by rw [take_length, Line.trimCr_body])
        have hlen : l.bytes.length = l.body.length + 1 := length_append
        omega
      rw [hbytes, take_append, take_of_length_le hcut, l.ended.splitAfter_append,
        map_cons, Line.lineOf_bytes, texts_cons, ← singleton_append, filter_append,
        append_cancel_left_eq, ih, Fits]
      exact (and_iff_right hneeded).symm
    · -- the line is cut, and nothing behind it is read
      have hlen : l.bytes.length = l.body.length + 1 := length_append
      have hbody : n ≤ l.body.length := by omega
      have hrest : n - l.bytes.length = 0 := by omega
      have hpiece : (fileBytes (l :: file)).take n = l.body.take n := by
        rw [hbytes, Line.bytes, append_assoc, take_append_of_le_length hbody]
      have hnone := ih 0
      rw [take_zero] at hnone
      rw [hpiece, lines_of_no_lf fun h => Line.lf_not_mem_body (mem_of_mem_take h), Fits, hrest,
        ← hnone, texts_cons]
      simp only [splitAfter, map_nil, filter_nil]
      by_cases hne : l.text = []
      · simp [hne, Line.trimCr_take_body_nil hne]
      · rw [← Line.trimCr_take_body hbody]
        by_cases hsent : trimCr (l.body.take n) = l.text
        · simp [hsent, hne]
        · refine iff_of_false (fun heq => hsent ?_) fun h => hsent (h.1 hne)
          by_cases hnil : trimCr (l.body.take n) = []
          · simp [hnil, hne] at heq
          · simp only [filter_cons, filter_nil, hnil, hne, ne_eq, not_false_eq_true,
              decide_true, if_true, singleton_append, List.cons.injEq] at heq
            exact heq.1

end NikitaFirmware.Wifi
