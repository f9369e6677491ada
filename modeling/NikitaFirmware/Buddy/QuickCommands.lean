import NikitaFirmware.Buddy.Json

/-!
# The Buddy's quick commands

`nb_load_quick` looks through `extras.json` for a label, then for a prompt behind it, then for
the next label. `nb_json_next_string` finds a key as a quoted word, so the text is taken here as
a sequence of strings and of what JSON has between them.

An object is nothing to the scanner: a label that has no prompt of its own goes with the next
prompt in the text.
-/

namespace NikitaFirmware.Buddy
open Foundations List

def maxQuick : Nat := 8

def qlabelCap : Nat := 48

def qpromptCap : Nat := 256

/-- The size of the buffer for `extras.json`. -/
def extrasCap : Nat := 8192

def labelKey : Bytes := ascii "label"
def promptKey : Bytes := ascii "prompt"

/-- What lies behind the first `"key"`. -/
def findKey (key : Bytes) : Bytes → Option Bytes
  | [] => none
  | b :: bs =>
    if b = quote ∧ (key ++ [quote]).isPrefixOf bs then some (bs.drop (key.length + 1))
    else findKey key bs

/-- The copying loop of `nb_json_next_string`: the value, cut to `n` bytes, and what lies behind
its closing quote. -/
def copyValue : Nat → Bytes → Bytes × Bytes
  | _, [] => ([], [])
  | n, b :: bs =>
    if b = quote then ([], bs)
    else if b = backslash then
      match bs with
      | [] => ([backslash].take n, [])
      | c :: cs =>
        let (out, rest) := copyValue (n - 1) cs
        ((unescape c :: out).take n, rest)
    else
      let (out, rest) := copyValue (n - 1) bs
      ((b :: out).take n, rest)

/-- `nb_json_next_string`: the value behind the next `key`, and the new cursor. -/
def nbJsonNextString (cursor key : Bytes) (cap : Nat) : Option (Bytes × Bytes) := do
  let hit ← findKey key cursor
  match hit.dropWhile (· ≠ 58) with
  | [] => none
  | _ :: rest =>
    match rest.dropWhile fun b => b = 32 || b = 9 with
    | b :: body => if b = quote then some (copyValue (cap - 1) body) else none
    | [] => none

/-- The loop of `nb_load_quick`, with room for `room` more commands. It takes no more rounds than
the text has bytes. -/
def loadLoop : Nat → Nat → Bytes → List (Bytes × Bytes)
  | 0, _, _ => []
  | _, 0, _ => []
  | fuel + 1, room + 1, cur =>
    match nbJsonNextString cur labelKey qlabelCap with
    | none => []
    | some (label, cur) =>
      match nbJsonNextString cur promptKey qpromptCap with
      | none => []
      | some (prompt, cur) =>
        if label = [] ∨ prompt = [] then loadLoop fuel (room + 1) cur
        else (label, prompt) :: loadLoop fuel room cur

def builtins : List (Bytes × Bytes) :=
  [(ascii "Summarize our chat", ascii "Summarize in a few lines what we talked about recently."),
    (ascii "What do you know about me?",
      ascii "What do you remember about me? List it in short bullet points."),
    (ascii "My Flipper status",
      ascii "Give me a short status of my Flipper: firmware, SD space, and installed apps.")]

def nbLoadQuick (extras : Option Bytes) : List (Bytes × Bytes) :=
  let quick := match extras with
    | none => []
    | some content =>
      let buf := cstr (content.take (extrasCap - 1))
      loadLoop (buf.length + 1) maxQuick buf
  if quick = [] then builtins else quick

/-- A piece of JSON text. -/
inductive Token
  /-- brackets, commas, colons, blanks, numbers and literals -/
  | punctuation (bytes : Bytes)
  /-- a key or a value that is no one's label or prompt -/
  | string (value : Bytes)
  /-- `"label": "value"`, with blanks around the colon -/
  | label (before after value : Bytes)
  /-- `"prompt": "value"` -/
  | prompt (before after value : Bytes)

def quoted (value : Bytes) : Bytes := quote :: (nbJsonEscapeInto value ++ [quote])

namespace Token

def render : Token → Bytes
  | punctuation bytes => bytes
  | string value => quoted value
  | label before after value => quoted labelKey ++ (before ++ 58 :: after) ++ quoted value
  | prompt before after value => quoted promptKey ++ (before ++ 58 :: after) ++ quoted value

/-- The bytes that JSON has outside of strings. -/
def isOutside (b : UInt8) : Bool := (ascii " \t\r\n\x7b\x7d[],:-+.0123456789eEtrufalsn").contains b

/-- A value that `nb_json_escape_into` writes in full. -/
def Value (v : Bytes) : Prop := (0 : UInt8) ∉ v ∧ (13 : UInt8) ∉ v

instance (v : Bytes) : Decidable (Value v) := inferInstanceAs (Decidable (_ ∧ _))

/-- Blanks around a colon, behind it only the ones that the scanner skips. -/
def Blanks (before after : Bytes) : Prop :=
  before.all (ascii " \t\r\n").contains ∧ after.all fun b => b = 32 || b = 9

instance (before after : Bytes) : Decidable (Blanks before after) :=
  inferInstanceAs (Decidable (_ ∧ _))

def Good : Token → Prop
  | punctuation bytes => bytes.all isOutside
  | string value => Value value
  | label before after value | prompt before after value => Blanks before after ∧ Value value

instance : ∀ t : Token, Decidable t.Good
  | punctuation bytes => inferInstanceAs (Decidable (bytes.all isOutside = true))
  | string value => inferInstanceAs (Decidable (Value value))
  | label before after value | prompt before after value =>
    inferInstanceAs (Decidable (Blanks before after ∧ Value value))

end Token

def render (ts : List Token) : Bytes := ts.flatMap Token.render

/-- A string in which a search for the key finds nothing: it is not the key, and does not end in
a quote and the key. -/
def Plain (key v : Bytes) : Prop := v ≠ key ∧ ¬ (quote :: key) <:+ v

instance (key v : Bytes) : Decidable (Plain key v) := inferInstanceAs (Decidable (_ ∧ _))

/-- The pairs of a label with the first prompt behind it; `pending` is a label that waits for
its prompt. -/
def pairs : Option Bytes → List Token → List (Bytes × Bytes)
  | _, [] => []
  | none, .label _ _ v :: ts => pairs (some v) ts
  | some l, .prompt _ _ v :: ts => (l, v) :: pairs none ts
  | pending, _ :: ts => pairs pending ts

/-- The label that waits at the end. -/
def leftOver : Option Bytes → List Token → Option Bytes
  | pending, [] => pending
  | none, .label _ _ v :: ts => leftOver (some v) ts
  | some _, .prompt _ _ _ :: ts => leftOver none ts
  | pending, _ :: ts => leftOver pending ts

/-- No search finds its key within a string that it passes over. -/
def Readable : Option Bytes → List Token → Prop
  | _, [] => True
  | none, .label _ _ v :: ts => Readable (some v) ts
  | some _, .prompt _ _ _ :: ts => Readable none ts
  | none, .prompt _ _ v :: ts => Plain labelKey v ∧ Readable none ts
  | some l, .label _ _ v :: ts => Plain promptKey v ∧ Readable (some l) ts
  | none, .string v :: ts => Plain labelKey v ∧ Readable none ts
  | some l, .string v :: ts => Plain promptKey v ∧ Readable (some l) ts
  | pending, .punctuation _ :: ts => Readable pending ts

/-- What `nb_load_quick` keeps of the pairs: the ones without an empty part, cut to its
buffers. -/
def kept (ps : List (Bytes × Bytes)) : List (Bytes × Bytes) :=
  (ps.filter fun p => p.1 ≠ [] ∧ p.2 ≠ []).map fun p =>
    (p.1.take (qlabelCap - 1), p.2.take (qpromptCap - 1))

/-- The quick commands for the pairs: as many as there is room for, or the built-in ones. -/
def quickCommands (ps : List (Bytes × Bytes)) : List (Bytes × Bytes) :=
  let quick := (kept ps).take maxQuick
  if quick = [] then builtins else quick

section Scanner

/-- A word that can be a key for the scanner. -/
structure Key (key : Bytes) : Prop where
  noEscape : ∀ b ∈ key, escapeByte b = [b]
  /-- It has a letter that does not occur outside of strings. -/
  letter : ∃ b ∈ key, Token.isOutside b = false

variable {key : Bytes}

theorem key_of_all (h : (key.all fun b => decide (escapeByte b = [b])) = true)
    {b : UInt8} (hb : b ∈ key) (hout : Token.isOutside b = false) : Key key :=
  ⟨fun b hb => of_decide_eq_true (all_eq_true.mp h b hb), b, hb, hout⟩

theorem key_label : Key labelKey := key_of_all (by decide) (b := 98) (by decide) (by decide)

theorem key_prompt : Key promptKey := key_of_all (by decide) (b := 109) (by decide) (by decide)

theorem escapeByte_cases {b : UInt8} (h : b ≠ 13) : (escapeByte b = [b] ∧ b ≠ quote) ∨
    ∃ c, escapeByte b = [backslash, c] ∧ (c = quote ↔ b = quote) := by
  unfold escapeByte
  split
  · next hb => exact .inr ⟨quote, rfl, by simp [hb]⟩
  · next hb =>
    split
    · next hs => exact .inr ⟨backslash, rfl, by subst hs; decide⟩
    · split
      · next hn => exact .inr ⟨110, rfl, by subst hn; decide⟩
      · split
        · next ht => exact .inr ⟨116, rfl, by subst ht; decide⟩
        · exact .inl ⟨rfl, hb⟩

theorem findKey_cons {b : UInt8} {bs : Bytes}
    (h : b = quote → ¬ key ++ [quote] <+: bs) : findKey key (b :: bs) = findKey key bs := by
  rw [findKey, if_neg]
  rintro ⟨hb, hpre⟩
  exact h hb (List.isPrefixOf_iff_prefix.mp hpre)

theorem findKey_append {key bytes rest : Bytes} (h : quote ∉ bytes) :
    findKey key (bytes ++ rest) = findKey key rest := by
  induction bytes with
  | nil => rfl
  | cons b bytes ih =>
    rw [cons_append, findKey_cons fun hb => absurd (hb ▸ mem_cons_self) h,
      ih fun hmem => h (mem_cons_of_mem b hmem)]

theorem nbJsonEscapeInto_cons (b : UInt8) (v : Bytes) :
    nbJsonEscapeInto (b :: v) = escapeByte b ++ nbJsonEscapeInto v := rfl

theorem Token.Value.tail {b : UInt8} {v : Bytes} (h : Token.Value (b :: v)) : Token.Value v :=
  ⟨fun h0 => h.1 (mem_cons_of_mem b h0), fun hcr => h.2 (mem_cons_of_mem b hcr)⟩

theorem Token.Value.head_ne {b : UInt8} {v : Bytes} (h : Token.Value (b :: v)) : b ≠ 13 :=
  fun hb => h.2 (hb ▸ mem_cons_self)

theorem key_prefix_string {key v rest : Bytes} (hkey : ∀ b ∈ key, escapeByte b = [b])
    (hv : Token.Value v) : key ++ [quote] <+: nbJsonEscapeInto v ++ quote :: rest ↔ v = key := by
  induction v generalizing key with
  | nil =>
    cases key with
    | nil => simp [nbJsonEscapeInto]
    | cons k key =>
      have hk : k ≠ quote := fun h => absurd (h ▸ hkey k mem_cons_self) (by decide)
      simp [nbJsonEscapeInto, hk]
  | cons b v ih =>
    rw [nbJsonEscapeInto_cons, append_assoc]
    cases key with
    | nil =>
      rcases escapeByte_cases hv.head_ne with ⟨hb, hne⟩ | ⟨c, hb, -⟩
      · simp [hb, hne.symm]
      · simp [hb, quote, backslash]
    | cons k key =>
      have hks : ∀ b ∈ key, escapeByte b = [b] := fun b hb => hkey b (mem_cons_of_mem k hb)
      rcases escapeByte_cases hv.head_ne with ⟨hb, -⟩ | ⟨c, hb, -⟩
      · rw [hb, cons_append, singleton_append, cons_prefix_cons, ih hks hv.tail,
          List.cons.injEq, eq_comm (a := k)]
      · -- no byte of a key is written behind a backslash
        have hk : k ≠ backslash := fun h => absurd (h ▸ hkey k mem_cons_self) (by decide)
        have hne : b ≠ k := by
          rintro rfl
          rw [hkey b mem_cons_self] at hb
          exact absurd (congrArg List.length hb) (by simp)
        simp [hb, hk, hne]

theorem not_key_prefix_quote (hne : key ≠ []) (hquote : quote ∉ key) (rest : Bytes) :
    ¬ key ++ [quote] <+: quote :: rest := by
  obtain ⟨k, key, rfl⟩ := exists_cons_of_ne_nil hne
  rw [cons_append, cons_prefix_cons]
  exact fun h => hquote (h.1 ▸ mem_cons_self)

variable {ts : List Token}

theorem not_key_prefix_render (hletter : ∃ b ∈ key, Token.isOutside b = false)
    (hquote : quote ∉ key) (hts : ∀ t ∈ ts, t.Good) :
    ¬ key ++ [quote] <+: render ts := by
  induction ts generalizing key with
  | nil =>
    rw [render, flatMap_nil, prefix_nil]
    simp
  | cons t ts ih =>
    have hne : key ≠ [] := by
      rintro rfl
      obtain ⟨b, hb, -⟩ := hletter
      exact absurd hb not_mem_nil
    cases t with
    | punctuation bytes =>
      have hbytes : ∀ b ∈ bytes, Token.isOutside b := all_eq_true.mp (hts _ mem_cons_self)
      have hrest {key : Bytes} (hletter : ∃ b ∈ key, Token.isOutside b = false)
          (hquote : quote ∉ key) : ¬ key ++ [quote] <+: render ts :=
        ih hletter hquote fun t ht => hts t (mem_cons_of_mem _ ht)
      show ¬ key ++ [quote] <+: bytes ++ render ts
      clear ih hts hne
      induction bytes generalizing key with
      | nil => exact hrest hletter hquote
      | cons b bytes ihb =>
        obtain ⟨l, hl, hout⟩ := hletter
        cases key with
        | nil => exact absurd hl not_mem_nil
        | cons k key =>
          rw [cons_append, cons_append, cons_prefix_cons]
          rintro ⟨rfl, hpre⟩
          refine ihb ⟨l, ?_, hout⟩ (fun h => hquote (mem_cons_of_mem k h))
            (fun b hb => hbytes b (mem_cons_of_mem k hb)) hpre
          refine (mem_cons.mp hl).resolve_left fun hk => ?_
          rw [hk, hbytes k mem_cons_self] at hout
          exact Bool.false_ne_true hout.symm
    | string value => exact not_key_prefix_quote hne hquote _
    | label before after value => exact not_key_prefix_quote hne hquote _
    | prompt before after value => exact not_key_prefix_quote hne hquote _

theorem Key.noQuote (h : Key key) : quote ∉ key :=
  fun hq => absurd (h.noEscape quote hq) (by decide)

theorem findKey_escaped {key v rest : Bytes} (hkey : Key key) (hv : Token.Value v)
    (hsuffix : ¬ (quote :: key) <:+ v) (hrest : ¬ key ++ [quote] <+: rest) :
    findKey key (nbJsonEscapeInto v ++ quote :: rest) = findKey key rest := by
  induction v with
  | nil => exact findKey_cons fun _ => hrest
  | cons b v ih =>
    have htail := ih hv.tail fun h => hsuffix (h.trans (suffix_cons b v))
    rw [nbJsonEscapeInto_cons, append_assoc]
    rcases escapeByte_cases hv.head_ne with ⟨hb, hne⟩ | ⟨c, hb, hc⟩
    · rw [hb, singleton_append, findKey_cons fun h => absurd h hne, htail]
    · rw [hb, cons_append, singleton_append, findKey_cons (fun h => absurd h (by decide)),
        findKey_cons ?_, htail]
      -- an escaped quote could be taken for the one in front of a key
      intro hquote hpre
      have hv' := (key_prefix_string hkey.noEscape hv.tail).mp hpre
      rw [hc.mp hquote, hv'] at hsuffix
      exact hsuffix suffix_rfl

theorem findKey_quoted {key v rest : Bytes} (hkey : Key key) (hv : Token.Value v)
    (hplain : Plain key v) (hrest : ¬ key ++ [quote] <+: rest) :
    findKey key (quoted v ++ rest) = findKey key rest := by
  have hsplit : quoted v ++ rest = quote :: (nbJsonEscapeInto v ++ quote :: rest) := by
    simp [quoted]
  rw [hsplit, findKey_cons fun _ => mt (key_prefix_string hkey.noEscape hv).mp hplain.1,
    findKey_escaped hkey hv hplain.2 hrest]

theorem findKey_quoted_self {key rest : Bytes} (hkey : Key key) :
    findKey key (quoted key ++ rest) = some rest := by
  have hescape : nbJsonEscapeInto key = key := by
    unfold nbJsonEscapeInto
    have hk := hkey.noEscape
    clear hkey
    induction key with
    | nil => rfl
    | cons k key ih =>
      rw [flatMap_cons, hk k mem_cons_self, ih fun b hb => hk b (mem_cons_of_mem k hb),
        singleton_append]
  have hsplit : quoted key ++ rest = quote :: (key ++ [quote] ++ rest) := by
    rw [quoted, hescape, cons_append]
  rw [hsplit, findKey, if_pos ⟨rfl, List.isPrefixOf_iff_prefix.mpr (List.prefix_append _ _)⟩]
  congr 1
  rw [drop_append_of_le_length (by simp), drop_of_length_le (by simp), nil_append]

theorem copyValue_escapeByte (n : Nat) (b : UInt8) (rest : Bytes) (hb : b ≠ 13) :
    copyValue n (escapeByte b ++ rest) =
      ((b :: (copyValue (n - 1) rest).1).take n, (copyValue (n - 1) rest).2) := by
  unfold escapeByte
  split
  · next h => subst h; rfl
  · next hquote =>
    split
    · next h => subst h; rfl
    · next hbackslash =>
      split
      · next h => subst h; rfl
      · split
        · next h => subst h; rfl
        · rw [singleton_append, copyValue.eq_def]
          simp only [if_neg hquote, if_neg hbackslash]

theorem copyValue_nbJsonEscapeInto (n : Nat) {v : Bytes} (rest : Bytes) (hv : Token.Value v) :
    copyValue n (nbJsonEscapeInto v ++ quote :: rest) = (v.take n, rest) := by
  induction v generalizing n with
  | nil =>
    show copyValue n (quote :: rest) = _
    rw [copyValue.eq_def, take_nil]
    rfl
  | cons b v ih =>
    rw [nbJsonEscapeInto_cons, append_assoc, copyValue_escapeByte n b _ hv.head_ne,
      ih (n - 1) hv.tail]
    cases n with
    | zero => rfl
    | succ n => simp [take_take]

theorem nextString_member {key before after v rest : Bytes} (cap : Nat) (hkey : Key key)
    (hblanks : Token.Blanks before after) (hv : Token.Value v) :
    nbJsonNextString (quoted key ++ (before ++ 58 :: after) ++ quoted v ++ rest) key cap =
      some (v.take (cap - 1), rest) := by
  have hbefore : ∀ b ∈ before, decide (b ≠ (58 : UInt8)) := by
    intro b hb
    refine decide_eq_true ?_
    rintro rfl
    exact absurd (all_eq_true.mp hblanks.1 58 hb) (by decide)
  have hafter : ∀ b ∈ after, (b = 32 || b = 9 : Bool) := all_eq_true.mp hblanks.2
  have hcolon : (before ++ 58 :: (after ++ (quoted v ++ rest))).dropWhile (· ≠ 58) =
      58 :: (after ++ (quoted v ++ rest)) := by
    rw [dropWhile_append_of_pos hbefore, dropWhile_cons_of_neg (by decide)]
  have hblank : (after ++ (quoted v ++ rest)).dropWhile (fun b => b = 32 || b = 9) =
      quote :: (nbJsonEscapeInto v ++ quote :: rest) := by
    rw [dropWhile_append_of_pos hafter, quoted, cons_append,
      dropWhile_cons_of_neg (by decide), append_assoc, singleton_append]
  rw [append_assoc, append_assoc, append_assoc, cons_append,
    nbJsonNextString, findKey_quoted_self hkey, Option.bind_eq_bind, Option.bind_some, hcolon]
  simp only [hblank, if_true, copyValue_nbJsonEscapeInto _ rest hv]

/-- What a search for the key passes over. -/
def Skips (key : Bytes) : Token → Prop
  | .punctuation _ => True
  | .string v => Plain key v
  | .label _ _ v => Plain key labelKey ∧ Plain key v
  | .prompt _ _ v => Plain key promptKey ∧ Plain key v

theorem isOutside_member {before after : Bytes} (h : Token.Blanks before after) :
    ∀ b ∈ before ++ 58 :: after, Token.isOutside b := by
  intro b hb
  rcases mem_append.mp hb with hb | hb
  · have hblank : b ∈ ascii " \t\r\n" := by simpa using all_eq_true.mp h.1 b hb
    have hall : (ascii " \t\r\n").all Token.isOutside = true := by decide
    exact all_eq_true.mp hall b hblank
  · rcases mem_cons.mp hb with rfl | hb
    · decide
    · have hblank : b = 32 ∨ b = 9 := by simpa using all_eq_true.mp h.2 b hb
      obtain rfl | rfl := hblank <;> decide

theorem value_labelKey : Token.Value labelKey := by decide

theorem value_promptKey : Token.Value promptKey := by decide

theorem findKey_skip (hkey : Key key) {t : Token}
    (hgood : ∀ u ∈ t :: ts, u.Good) (hskip : Skips key t) :
    findKey key (render (t :: ts)) = findKey key (render ts) := by
  have hts : ∀ u ∈ ts, u.Good := fun u hu => hgood u (mem_cons_of_mem t hu)
  have hrest : ¬ key ++ [quote] <+: render ts := not_key_prefix_render hkey.letter hkey.noQuote hts
  have hout {bytes rest : Bytes} (h : ∀ b ∈ bytes, Token.isOutside b) :
      findKey key (bytes ++ rest) = findKey key rest :=
    findKey_append fun hq => absurd (h quote hq) (by decide)
  -- a member is its key, what stands between, and its value
  have hmember {k before after v : Bytes} (hk : Token.Value k) (hkp : Plain key k)
      (hb : Token.Blanks before after) (hv : Token.Value v) (hvp : Plain key v) :
      findKey key (quoted k ++ (before ++ 58 :: after) ++ quoted v ++ render ts) =
        findKey key (render ts) := by
    have hbetween : ¬ key ++ [quote] <+: (before ++ 58 :: after) ++ (quoted v ++ render ts) := by
      have hgood : ∀ u ∈ Token.punctuation (before ++ 58 :: after) :: .string v :: ts, u.Good := by
        intro u hu
        rcases mem_cons.mp hu with rfl | hu
        · exact all_eq_true.mpr (isOutside_member hb)
        · rcases mem_cons.mp hu with rfl | hu
          · exact hv
          · exact hts u hu
      exact not_key_prefix_render hkey.letter hkey.noQuote hgood
    rw [append_assoc, append_assoc, findKey_quoted hkey hk hkp hbetween,
      hout (isOutside_member hb), findKey_quoted hkey hv hvp hrest]
  have ht := hgood t mem_cons_self
  rw [render, flatMap_cons, ← render]
  cases t with
  | punctuation bytes => exact hout (all_eq_true.mp ht)
  | string v => exact findKey_quoted hkey ht hskip hrest
  | label before after v => exact hmember value_labelKey hskip.1 ht.1 ht.2 hskip.2
  | prompt before after v => exact hmember value_promptKey hskip.1 ht.1 ht.2 hskip.2

theorem nextString_skip (hkey : Key key) {t : Token} (cap : Nat)
    (hgood : ∀ u ∈ t :: ts, u.Good) (hskip : Skips key t) :
    nbJsonNextString (render (t :: ts)) key cap = nbJsonNextString (render ts) key cap := by
  rw [nbJsonNextString, findKey_skip hkey hgood hskip, ← nbJsonNextString]

def Token.member? (key : Bytes) : Token → Option Bytes
  | .label _ _ v => if key = labelKey then some v else none
  | .prompt _ _ v => if key = promptKey then some v else none
  | _ => none

def next (key : Bytes) : List Token → Option (Bytes × List Token)
  | [] => none
  | t :: ts => match t.member? key with
    | some v => some (v, ts)
    | none => next key ts

/-- The search for the key passes over what lies in front of its next member. -/
def Passes (key : Bytes) : List Token → Prop
  | [] => True
  | t :: ts => t.member? key = none → Skips key t ∧ Passes key ts

theorem nextString_of_member {key v : Bytes} (hkey : Key key) {t : Token}
    (cap : Nat) (ht : t.Good) (hv : t.member? key = some v) :
    nbJsonNextString (render (t :: ts)) key cap = some (v.take (cap - 1), render ts) := by
  cases t with
  | punctuation bytes => cases hv
  | string w => cases hv
  | label before after w =>
    obtain ⟨rfl, hw⟩ := Option.ite_none_right_eq_some.mp hv
    cases hw
    exact nextString_member cap hkey ht.1 ht.2
  | prompt before after w =>
    obtain ⟨rfl, hw⟩ := Option.ite_none_right_eq_some.mp hv
    cases hw
    exact nextString_member cap hkey ht.1 ht.2

theorem nextString_render (hkey : Key key) (cap : Nat) (ts : List Token)
    (hgood : ∀ t ∈ ts, t.Good) (hpasses : Passes key ts) :
    nbJsonNextString (render ts) key cap =
      (next key ts).map fun r => (r.1.take (cap - 1), render r.2) := by
  induction ts with
  | nil => rfl
  | cons t ts ih =>
    rw [next]
    cases hmember : t.member? key with
    | some v =>
      exact nextString_of_member hkey cap (hgood t mem_cons_self) hmember
    | none =>
      obtain ⟨hskip, hrest⟩ := hpasses hmember
      rw [nextString_skip hkey cap hgood hskip]
      exact ih (fun u hu => hgood u (mem_cons_of_mem t hu)) hrest

theorem render_cons (t : Token) (ts : List Token) : render (t :: ts) = t.render ++ render ts :=
  flatMap_cons

theorem next_rest {key v : Bytes} {ts ts' : List Token} (h : next key ts = some (v, ts')) :
    (render ts').length < (render ts).length ∧ ∀ t ∈ ts', t ∈ ts := by
  induction ts with
  | nil => cases h
  | cons t ts ih =>
    rw [next] at h
    rw [render_cons, length_append]
    split at h
    · next hmember =>
      cases h
      have hpos : 0 < t.render.length := by
        cases t with
        | punctuation bytes => cases hmember
        | string w => cases hmember
        | label before after w => exact Nat.succ_pos _
        | prompt before after w => exact Nat.succ_pos _
      exact ⟨by omega, fun u hu => mem_cons_of_mem t hu⟩
    · obtain ⟨hlen, hmem⟩ := ih h
      exact ⟨by omega, fun u hu => mem_cons_of_mem t (hmem u hu)⟩

end Scanner

section Loop

theorem pairs_none (ts : List Token) : pairs none ts = match next labelKey ts with
    | none => []
    | some (v, ts') => pairs (some v) ts' := by
  induction ts with
  | nil => rfl
  | cons t ts ih =>
    cases t with
    | label before after v => rfl
    | punctuation bytes => exact ih
    | string v => exact ih
    | prompt before after v => exact ih

theorem pairs_some (l : Bytes) (ts : List Token) : pairs (some l) ts = match next promptKey ts with
    | none => []
    | some (v, ts') => (l, v) :: pairs none ts' := by
  induction ts with
  | nil => rfl
  | cons t ts ih =>
    cases t with
    | prompt before after v => rfl
    | punctuation bytes => exact ih
    | string v => exact ih
    | label before after v => exact ih

variable {ts : List Token}

theorem readable_none (h : Readable none ts) : Passes labelKey ts ∧
    ∀ v ts', next labelKey ts = some (v, ts') → Readable (some v) ts' := by
  induction ts with
  | nil => exact ⟨trivial, fun v ts' h => nomatch h⟩
  | cons t ts ih =>
    cases t with
    | label before after v =>
      refine ⟨fun hnone => absurd hnone (by simp [Token.member?]), fun w ts' hnext => ?_⟩
      cases hnext
      exact h
    | punctuation bytes =>
      obtain ⟨hpasses, hnext⟩ := ih h
      exact ⟨fun _ => ⟨trivial, hpasses⟩, hnext⟩
    | string v =>
      obtain ⟨hpasses, hnext⟩ := ih h.2
      exact ⟨fun _ => ⟨h.1, hpasses⟩, hnext⟩
    | prompt before after v =>
      obtain ⟨hpasses, hnext⟩ := ih h.2
      exact ⟨fun _ => ⟨⟨by decide, h.1⟩, hpasses⟩, hnext⟩

theorem readable_some {l : Bytes} (h : Readable (some l) ts) :
    Passes promptKey ts ∧ ∀ v ts', next promptKey ts = some (v, ts') → Readable none ts' := by
  induction ts with
  | nil => exact ⟨trivial, fun v ts' h => nomatch h⟩
  | cons t ts ih =>
    cases t with
    | prompt before after v =>
      refine ⟨fun hnone => absurd hnone (by simp [Token.member?]), fun w ts' hnext => ?_⟩
      cases hnext
      exact h
    | punctuation bytes =>
      obtain ⟨hpasses, hnext⟩ := ih h
      exact ⟨fun _ => ⟨trivial, hpasses⟩, hnext⟩
    | string v =>
      obtain ⟨hpasses, hnext⟩ := ih h.2
      exact ⟨fun _ => ⟨h.1, hpasses⟩, hnext⟩
    | label before after v =>
      obtain ⟨hpasses, hnext⟩ := ih h.2
      exact ⟨fun _ => ⟨⟨by decide, h.1⟩, hpasses⟩, hnext⟩

theorem take_eq_nil_of_cap {v : Bytes} {cap : Nat} (hcap : 2 ≤ cap) :
    v.take (cap - 1) = [] ↔ v = [] := by
  rw [take_eq_nil_iff]
  exact or_iff_right (by omega)

theorem loadLoop_render (fuel room : Nat) (ts : List Token) (hgood : ∀ t ∈ ts, t.Good)
    (hread : Readable none ts) (hfuel : (render ts).length < fuel) :
    loadLoop fuel room (render ts) = (kept (pairs none ts)).take room := by
  induction fuel generalizing room ts with
  | zero => omega
  | succ fuel ih =>
    cases room with
    | zero => simp [loadLoop]
    | succ room =>
      obtain ⟨hlabel, hbehind⟩ := readable_none hread
      rw [loadLoop, nextString_render key_label _ _ hgood hlabel, pairs_none]
      cases hnext : next labelKey ts with
      | none => rfl
      | some r =>
        obtain ⟨v, ts₁⟩ := r
        obtain ⟨hlen₁, hmem₁⟩ := next_rest hnext
        have hgood₁ : ∀ t ∈ ts₁, t.Good := fun t ht => hgood t (hmem₁ t ht)
        obtain ⟨hprompt, hbehind₁⟩ := readable_some (hbehind v ts₁ hnext)
        simp only [Option.map_some]
        rw [nextString_render key_prompt _ _ hgood₁ hprompt, pairs_some]
        cases hnext₁ : next promptKey ts₁ with
        | none => rfl
        | some r =>
          obtain ⟨w, ts₂⟩ := r
          obtain ⟨hlen₂, hmem₂⟩ := next_rest hnext₁
          have hrest (room : Nat) := ih room ts₂ (fun t ht => hgood₁ t (hmem₂ t ht))
            (hbehind₁ w ts₂ hnext₁) (by omega)
          simp only [Option.map_some]
          have hv : v.take (qlabelCap - 1) = [] ↔ v = [] := take_eq_nil_of_cap (by decide)
          have hw : w.take (qpromptCap - 1) = [] ↔ w = [] := take_eq_nil_of_cap (by decide)
          simp only [hv, hw]
          split
          · next hempty =>
            have hdrop : ¬ (v ≠ [] ∧ w ≠ []) := fun h => hempty.elim h.1 h.2
            rw [hrest, kept, kept, filter_cons_of_neg (by simpa using hdrop)]
          · next hfull =>
            rw [hrest, kept, kept, filter_cons_of_pos (by simpa [not_or] using hfull),
              map_cons, take_succ_cons]

theorem zero_not_mem_quoted {v : Bytes} (hv : Token.Value v) : (0 : UInt8) ∉ quoted v := by
  intro h
  rcases mem_cons.mp h with h | h
  · cases h
  · rcases mem_append.mp h with h | h
    · obtain ⟨b, hb, hmem⟩ := mem_flatMap.mp h
      exact zero_not_mem_escapeByte (fun h => hv.1 (h ▸ hb)) hmem
    · exact absurd (mem_singleton.mp h) (by decide)

theorem zero_not_mem_render (hgood : ∀ t ∈ ts, t.Good) : (0 : UInt8) ∉ render ts := by
  have hout {bytes : Bytes} (h : ∀ b ∈ bytes, Token.isOutside b) : (0 : UInt8) ∉ bytes :=
    fun h0 => absurd (h 0 h0) (by decide)
  have hmember {k before after v : Bytes} (hk : Token.Value k) (hb : Token.Blanks before after)
      (hv : Token.Value v) : (0 : UInt8) ∉ quoted k ++ (before ++ 58 :: after) ++ quoted v := by
    intro h
    rcases mem_append.mp h with h | h
    · rcases mem_append.mp h with h | h
      · exact zero_not_mem_quoted hk h
      · exact hout (isOutside_member hb) h
    · exact zero_not_mem_quoted hv h
  intro h
  obtain ⟨t, ht, h⟩ := mem_flatMap.mp h
  have hgood := hgood t ht
  cases t with
  | punctuation bytes => exact hout (all_eq_true.mp hgood) h
  | string v => exact zero_not_mem_quoted hgood h
  | label before after v => exact hmember value_labelKey hgood.1 hgood.2 h
  | prompt before after v => exact hmember value_promptKey hgood.1 hgood.2 h

theorem nbLoadQuick_render (ts : List Token) (hgood : ∀ t ∈ ts, t.Good) (hread : Readable none ts)
    (hlen : (render ts).length < extrasCap) :
    nbLoadQuick (some (render ts)) = quickCommands (pairs none ts) := by
  have hbuf : cstr ((render ts).take (extrasCap - 1)) = render ts := by
    rw [take_of_length_le (by omega), cstr_eq_self (zero_not_mem_render hgood)]
  rw [nbLoadQuick, quickCommands]
  simp only [hbuf, loadLoop_render _ _ ts hgood hread (Nat.lt_succ_self _)]

theorem pairs_append (pending : Option Bytes) (ts us : List Token) :
    pairs pending (ts ++ us) = pairs pending ts ++ pairs (leftOver pending ts) us := by
  induction ts generalizing pending with
  | nil => simp [pairs, leftOver]
  | cons t ts ih =>
    cases pending <;> cases t <;> simp only [cons_append, pairs, leftOver, ih]

theorem pairs_flatten {objects : List (List Token)} (h : ∀ o ∈ objects, leftOver none o = none) :
    pairs none objects.flatten = objects.flatMap (pairs none) := by
  induction objects with
  | nil => rfl
  | cons o objects ih =>
    rw [flatten_cons, pairs_append, h o mem_cons_self,
      ih fun o ho => h o (mem_cons_of_mem _ ho), flatMap_cons]

/-- `nb_load_quick` stores each label with the first prompt behind it, and so the pairs of the objects
in which every label has a prompt behind it. -/
theorem nbLoadQuick_objects (objects : List (List Token)) (hgood : ∀ t ∈ objects.flatten, t.Good)
    (hread : Readable none objects.flatten)
    (hlen : (render objects.flatten).length < extrasCap) :
    nbLoadQuick (some (render objects.flatten)) = quickCommands (pairs none objects.flatten) ∧
      ((∀ o ∈ objects, leftOver none o = none) → nbLoadQuick (some (render objects.flatten)) =
          quickCommands (objects.flatMap (pairs none))) := by
  have h := nbLoadQuick_render objects.flatten hgood hread hlen
  exact ⟨h, fun hcomplete => by rw [h, pairs_flatten hcomplete]⟩

instance decidableReadable :
    ∀ (pending : Option Bytes) (ts : List Token), Decidable (Readable pending ts)
  | none, [] | some _, [] => isTrue trivial
  | none, .label _ _ v :: ts => decidableReadable (some v) ts
  | some _, .prompt _ _ _ :: ts => decidableReadable none ts
  | none, .prompt _ _ v :: ts =>
    let _ : Decidable (Readable none ts) := decidableReadable none ts
    inferInstanceAs (Decidable (Plain labelKey v ∧ Readable none ts))
  | some l, .label _ _ v :: ts =>
    let _ : Decidable (Readable (some l) ts) := decidableReadable (some l) ts
    inferInstanceAs (Decidable (Plain promptKey v ∧ Readable (some l) ts))
  | none, .string v :: ts =>
    let _ : Decidable (Readable none ts) := decidableReadable none ts
    inferInstanceAs (Decidable (Plain labelKey v ∧ Readable none ts))
  | some l, .string v :: ts =>
    let _ : Decidable (Readable (some l) ts) := decidableReadable (some l) ts
    inferInstanceAs (Decidable (Plain promptKey v ∧ Readable (some l) ts))
  | none, .punctuation _ :: ts => decidableReadable none ts
  | some l, .punctuation _ :: ts => decidableReadable (some l) ts

/-- Two commands, the first with a member in front, a quote in its label and a blank. -/
def twoCommands : List (List Token) :=
  [[.punctuation (ascii "\x7b"), .string (ascii "id"), .punctuation (ascii ":7,"),
      .label [] (ascii " ") (ascii "a \"label"), .punctuation (ascii ","), .prompt [] [] (ascii "x"),
      .punctuation (ascii "\x7d,")],
    [.punctuation (ascii "\x7b"), .label [] [] (ascii "b"), .punctuation (ascii ","),
      .prompt [] [] (ascii "y"), .punctuation (ascii "\x7d")]]

theorem twoCommands_loaded : nbLoadQuick (some (render twoCommands.flatten)) =
        quickCommands (pairs none twoCommands.flatten) ∧
      ((∀ o ∈ twoCommands, leftOver none o = none) →
        nbLoadQuick (some (render twoCommands.flatten)) =
          quickCommands (twoCommands.flatMap (pairs none))) :=
  nbLoadQuick_objects twoCommands (by decide) (by decide) (by decide)

/-- The second command has a prompt, the first one takes it. -/
def promptMissing : List (List Token) :=
  [[.punctuation (ascii "\x7b"), .label [] [] (ascii "a"), .punctuation (ascii "\x7d,")],
    [.punctuation (ascii "\x7b"), .label [] [] (ascii "b"), .punctuation (ascii ","),
      .prompt [] [] (ascii "y"), .punctuation (ascii "\x7d")]]

theorem pairs_sometimes_mixed : ¬ ∀ objects : List (List Token),
    (∀ t ∈ objects.flatten, t.Good) → Readable none objects.flatten →
      (render objects.flatten).length < extrasCap → nbLoadQuick (some (render objects.flatten)) =
          quickCommands (objects.flatMap (pairs none)) := by
  intro hall
  have h := hall promptMissing (by decide) (by decide) (by decide)
  cases h

end Loop

end NikitaFirmware.Buddy
