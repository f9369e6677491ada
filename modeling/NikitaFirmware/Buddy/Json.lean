import NikitaFirmware.Foundations.Bytes

/-!
# The Buddy's JSON helpers

Purpose-built scanners over NUL-terminated text: `nbJsonUint` and `nbJsonText` read one
value after its key, `nbJsonEscapeInto` writes a string body. The request the Buddy
publishes reads back with its own id and its own text, whatever the text is.
-/

namespace NikitaFirmware.Buddy
open Foundations List

def quote : UInt8 := 34
def backslash : UInt8 := 92
def closingBrace : UInt8 := 125

def endsNumberSearch (b : UInt8) : Bool := isDigit b || b == closingBrace || b == quote

/-- `nb_json_uint`: the number that follows `key`, in a 32-bit accumulator. -/
def nbJsonUint (json key : Bytes) : Option UInt32 := do
  let hit ← strstr key json
  let ds := ((hit.drop key.length).dropWhile fun b => !endsNumberSearch b).takeWhile isDigit
  if ds = [] then none else some (digitsValue 0 ds)

/-- The byte that an escape sequence stands for. -/
def unescape (b : UInt8) : UInt8 := if b = 110 then 10 else if b = 116 then 9 else b

/-- The copying loop of `nb_json_text`, with room for `n` more bytes. -/
def copyText : Nat → Bytes → Bytes
  | 0, _ => []
  | _ + 1, [] => []
  | n + 1, b :: bs =>
    if b = quote then []
    else if b = backslash then
      match bs with
      | [] => []
      | c :: cs => unescape c :: copyText n cs
    else b :: copyText n bs

/-- `nb_json_text`: the unescaped value of `text`, cut to a buffer of `cap` bytes. -/
def nbJsonText (json : Bytes) (cap : Nat) : Option Bytes := do
  let hit ← strstr (ascii "\"text\"") json
  match hit.dropWhile (· ≠ 58) with
  | [] => none
  | _ :: rest =>
    match rest.dropWhile (· = 32) with
    | b :: body => if b = quote then some (copyText (cap - 1) body) else none
    | [] => none

/-- `nb_json_value`: the string behind `key` as it stands there, cut to a buffer of `cap` bytes. -/
def nbJsonValue (json key : Bytes) (cap : Nat) : Option Bytes := do
  let hit ← strstr key json
  match hit.dropWhile (· ≠ 58) with
  | [] => none
  | _ :: rest =>
    match rest.dropWhile fun b => b = 32 || b = 9 with
    | b :: body => if b = quote then some ((body.takeWhile (· ≠ quote)).take (cap - 1)) else none
    | [] => none

/-- The bytes that `nb_json_escape_into` appends for one byte of its input. -/
def escapeByte (b : UInt8) : Bytes :=
  if b = quote then [backslash, quote]
  else if b = backslash then [backslash, backslash]
  else if b = 10 then [backslash, 110]
  else if b = 13 then []
  else if b = 9 then [backslash, 116]
  else [b]

def nbJsonEscapeInto (text : Bytes) : Bytes := text.flatMap escapeByte

def idKey : Bytes := ascii "\"id\""

/-- The contents of `req.json` that `nb_send_prompt` builds. -/
def requestJson (id : UInt32) (text : Bytes) (timestamp : UInt32) : Bytes :=
  ascii "\x7b\"id\":" ++ decimal id.toNat ++ ascii ",\"text\":\"" ++ nbJsonEscapeInto text ++
    ascii "\",\"ts\":" ++ decimal timestamp.toNat ++ ascii "\x7d"

theorem nbJsonUint_of_key (json key rest : Bytes) (n : Nat)
    (hkey : strstr key json = some (key ++ 58 :: (decimal n ++ rest)))
    (hrest : ∀ b, rest.head? = some b → isDigit b = false) :
    nbJsonUint json key = some (UInt32.ofNat n) := by
  obtain ⟨d, ds, hd⟩ := exists_cons_of_ne_nil (decimal_ne_nil n)
  have hdigit : isDigit d := isDigit_of_mem_decimal (n := n) (by rw [hd]; exact mem_cons_self)
  have hskip : (58 :: (decimal n ++ rest)).dropWhile (fun b => !endsNumberSearch b) =
      decimal n ++ rest := by
    rw [dropWhile_cons_of_pos (by decide), hd]
    exact dropWhile_cons_of_neg (by simp [endsNumberSearch, hdigit])
  simp only [nbJsonUint, hkey, Option.bind_eq_bind, Option.bind_some, drop_left, hskip]
  rw [takeWhile_append_of_all (fun b => isDigit_of_mem_decimal) hrest,
    if_neg (decimal_ne_nil n), digitsValue_decimal]

theorem nbJsonUint_requestJson (id : UInt32) (text : Bytes) (timestamp : UInt32) :
    nbJsonUint (requestJson id text timestamp) idKey = some id := by
  have h := nbJsonUint_of_key (requestJson id text timestamp) idKey
    (ascii ",\"text\":\"" ++ nbJsonEscapeInto text ++ ascii "\",\"ts\":" ++
      decimal timestamp.toNat ++ ascii "\x7d") id.toNat
    (by simp only [requestJson, append_assoc]; rfl)
    (by intro b hb; cases hb; rfl)
  rw [h, UInt32.ofNat_toNat]

section RequestText

theorem copyText_escapeByte (n : Nat) (b : UInt8) (rest : Bytes) (hb : b ≠ 13) :
    copyText (n + 1) (escapeByte b ++ rest) = b :: copyText n rest := by
  unfold escapeByte
  split
  · next h => subst h; rfl
  · next hquote =>
    split
    · next h => subst h; rfl
    · next hbackslash =>
      split
      · next h => subst h; rfl
      · split
        · next h => subst h; rfl
        · rw [singleton_append, copyText.eq_def]
          simp only [if_neg hquote, if_neg hbackslash]

theorem copyText_nbJsonEscapeInto (n : Nat) (text rest : Bytes) (hcr : (13 : UInt8) ∉ text) :
    copyText n (nbJsonEscapeInto text ++ quote :: rest) = text.take n := by
  induction text generalizing n with
  | nil => cases n <;> simp [nbJsonEscapeInto, copyText]
  | cons b bs ih =>
    have hb : b ≠ 13 := fun h => hcr (h ▸ mem_cons_self)
    have hbs : (13 : UInt8) ∉ bs := fun h => hcr (mem_cons_of_mem b h)
    cases n with
    | zero => simp [copyText]
    | succ n =>
      have hcons : nbJsonEscapeInto (b :: bs) ++ quote :: rest =
          escapeByte b ++ (nbJsonEscapeInto bs ++ quote :: rest) := by
        simp [nbJsonEscapeInto]
      rw [hcons, copyText_escapeByte n b _ hb, ih n hbs, take_succ_cons]

theorem zero_not_mem_escapeByte {b : UInt8} (hb : b ≠ 0) : (0 : UInt8) ∉ escapeByte b := by
  unfold escapeByte
  split_ifs <;> simp [quote, backslash, Ne.symm hb]

theorem zero_not_mem_decimal (n : Nat) : (0 : UInt8) ∉ decimal n :=
  fun h => absurd (isDigit_of_mem_decimal h) (by decide)

theorem zero_not_mem_requestJson (id : UInt32) (text : Bytes) (timestamp : UInt32)
    (h0 : (0 : UInt8) ∉ text) : (0 : UInt8) ∉ requestJson id text timestamp := by
  have hbody : (0 : UInt8) ∉ nbJsonEscapeInto text := by
    intro h
    obtain ⟨b, hb, hmem⟩ := mem_flatMap.mp h
    exact zero_not_mem_escapeByte (fun h => h0 (h ▸ hb)) hmem
  have hopen : (0 : UInt8) ∉ ascii "\x7b\"id\":" := by decide
  have htext : (0 : UInt8) ∉ ascii ",\"text\":\"" := by decide
  have hts : (0 : UInt8) ∉ ascii "\",\"ts\":" := by decide
  have hclose : (0 : UInt8) ∉ ascii "\x7d" := by decide
  simp [requestJson, mem_append, hopen, htext, hts, hclose, hbody, zero_not_mem_decimal]

/-- The first `"text"` of a request is its key: before it stand only the id and its key. -/
theorem strstr_text_requestJson (id : UInt32) (text : Bytes) (timestamp : UInt32) :
    strstr (ascii "\"text\"") (requestJson id text timestamp) =
      some (ascii "\"text\"" ++ (ascii ":\"" ++ (nbJsonEscapeInto text ++
        quote :: (ascii ",\"ts\":" ++ decimal timestamp.toNat ++ ascii "\x7d")))) := by
  have hsplit : requestJson id text timestamp =
      (ascii "\x7b\"id\":" ++ decimal id.toNat) ++ 44 :: (ascii "\"text\"" ++ (ascii ":\"" ++
        (nbJsonEscapeInto text ++ quote ::
          (ascii ",\"ts\":" ++ decimal timestamp.toNat ++ ascii "\x7d")))) := by
    simp only [requestJson, append_assoc]
    rfl
  -- no letter of the key occurs before the comma
  have hhead : (116 : UInt8) ∉ ascii "\x7b\"id\":" ++ decimal id.toNat := by
    rw [mem_append, not_or]
    exact ⟨by decide, fun h => absurd (isDigit_of_mem_decimal h) (by decide)⟩
  rw [hsplit, strstr_append_cons (by decide) (not_infix_of_mem (by decide) hhead) (by decide),
    strstr_append_self _ _ (by decide)]

theorem nbJsonText_requestJson (id : UInt32) (text : Bytes) (timestamp : UInt32) (cap : Nat)
    (hcr : (13 : UInt8) ∉ text) :
    nbJsonText (requestJson id text timestamp) cap = some (text.take (cap - 1)) := by
  rw [nbJsonText, strstr_text_requestJson]
  exact congrArg some (copyText_nbJsonEscapeInto (cap - 1) text _ hcr)

/-- A request reads back as it was sent: the text, cut to the capacity of the buffer, and the
id. -/
theorem request_reads_back (id : UInt32) (text : Bytes) (timestamp : UInt32) (cap : Nat)
    (h0 : (0 : UInt8) ∉ text) (hcr : (13 : UInt8) ∉ text) (hcap : 1 ≤ cap) :
    nbJsonText (cstr (requestJson id (cstr text) timestamp)) cap = some (text.take (cap - 1)) ∧
      (text.take (cap - 1)).length < cap ∧
      nbJsonUint (cstr (requestJson id (cstr text) timestamp)) idKey = some id := by
  rw [cstr_eq_self h0, cstr_eq_self (zero_not_mem_requestJson id text timestamp h0)]
  refine ⟨nbJsonText_requestJson id text timestamp cap hcr, ?_,
    nbJsonUint_requestJson id text timestamp⟩
  rw [length_take]
  omega

/-- A text with quotes, a backslash and a key of its own, cut to seven bytes. -/
theorem quoted_request_reads_back :
    nbJsonText (cstr (requestJson 7 (cstr (ascii "\"text\":\\")) 9)) 8 = some (ascii "\"text\":") ∧
      (ascii "\"text\":").length < 8 ∧
      nbJsonUint (cstr (requestJson 7 (cstr (ascii "\"text\":\\")) 9)) idKey = some 7 :=
  request_reads_back 7 (ascii "\"text\":\\") 9 8 (by decide) (by decide) (by decide)

end RequestText

end NikitaFirmware.Buddy
