import Mathlib.Algebra.Ring.Nat
import Mathlib.Order.Interval.Multiset
import NikitaFirmware.Bridge.Handle

/-!
# Reading a file over the Flipper's shell

`storage_cli_read` prints the size of a file and its bytes; the shell puts the echoed command
before them and its prompt behind. `Flipper.read_file` takes the output for complete as soon
as what has arrived ends with a prompt, and for an error as soon as it contains the text of
one, wherever in the output these stand.
-/

namespace NikitaFirmware.Bridge
open Foundations List

def crlf : Bytes := [13, 10]

/-- What `storage_cli_read` prints for a file. The size is printed as a 32-bit number. -/
def storageCliRead (content : Bytes) : Bytes :=
  ascii "Size: " ++ decimal (content.length % 2 ^ 32) ++ crlf ++ content ++ crlf

def shellPrompt : Bytes := crlf ++ ascii ">: "

/-- The output of the shell for one command line, from the echo of the line on. -/
def shellOutput (echo printed : Bytes) : Bytes := echo ++ crlf ++ printed ++ shellPrompt

def endsWith (ending buf : Bytes) : Bool := ending.isSuffixOf (buf.rdropWhile isByteSpace)

/-- `Flipper._read_until`, given the chunks that arrive before the timeout. -/
def readUntil (ending : Bytes) : Bytes → List Bytes → Bytes
  | buf, [] => buf
  | buf, [] :: chunks => readUntil ending buf chunks
  | buf, chunk :: chunks =>
    if endsWith ending (buf ++ chunk) then buf ++ chunk
    else readUntil ending (buf ++ chunk) chunks

/-- The digits of `int`, in which single underscores may separate digits. -/
def pyDigits (v : Nat) (afterDigit : Bool) : Bytes → Option Nat
  | [] => if afterDigit then some v else none
  | b :: bs =>
    if isDigit b then pyDigits (v * 10 + (b.toNat - 48)) true bs
    else if b = 95 ∧ afterDigit then pyDigits v false bs
    else none

/-- `int` of a byte string without white space. -/
def pyInt : Bytes → Option Int
  | 43 :: ds => (pyDigits 0 false ds).map Int.ofNat
  | 45 :: ds => (pyDigits 0 false ds).map fun n => -Int.ofNat n
  | ds => (pyDigits 0 false ds).map Int.ofNat

def firstWord (buf : Bytes) : Bytes :=
  (buf.dropWhile isByteSpace).takeWhile fun b => !isByteSpace b

def sizeMarker : Bytes := ascii "Size: "

/-- The part of `read_file` that works on the buffer. -/
def parseFile (buf : Bytes) : Option Bytes :=
  if (strstr (ascii "Storage error") buf).isSome || (strstr (ascii "does not exist") buf).isSome then
    none
  else
    match strstr sizeMarker buf with
    | none => none
    | some found =>
      match pyInt (firstWord (found.drop 6)) with
      | none => none
      | some size =>
        if size ≤ 0 then some []
        else
          match found.dropWhile (· ≠ 10) with
          | [] => none
          | _ :: data => some (data.take size.toNat)

/-- `Flipper.read_file`, given the chunks that arrive before the timeout. -/
def readFile (chunks : List Bytes) : Option Bytes := parseFile (readUntil (ascii ">:") [] chunks)

example : readFile [ascii "storage read /ext/a\r\nSize: 2\r\n", ascii "hi\r\n\r\n>: "] =
    some (ascii "hi") := by decide

section Buffer

variable (ending : Bytes)

/-- `_read_until` returns what has arrived after some chunks: after all of them, or where the
test first succeeds. -/
theorem readUntil_spec (buf : Bytes) (chunks : List Bytes) : ∃ received rest,
    chunks = received ++ rest ∧ readUntil ending buf chunks = buf ++ received.flatten ∧
    (endsWith ending (buf ++ received.flatten) = true ∨ rest = []) ∧
    ∀ before after, received = before ++ after → before.flatten ≠ [] → after.flatten ≠ [] →
      endsWith ending (buf ++ before.flatten) = false := by
  induction chunks generalizing buf with
  | nil =>
    refine ⟨[], [], rfl, by simp [readUntil], .inr rfl, fun before after h hne => ?_⟩
    obtain ⟨rfl, -⟩ := nil_eq_append_iff.mp h
    exact absurd rfl hne
  | cons chunk chunks ih =>
    cases chunk with
    | nil =>
      obtain ⟨received, rest, rfl, hread, hend, hfirst⟩ := ih buf
      refine ⟨[] :: received, rest, rfl, by simpa [readUntil] using hread, by simpa using hend, ?_⟩
      intro before after h hne hafter
      cases before with
      | nil => exact absurd rfl hne
      | cons b before =>
        obtain ⟨hb, htail⟩ := cons.inj h
        subst hb
        exact hfirst before after htail (by simpa using hne) hafter
    | cons b bs =>
      by_cases hnow : endsWith ending (buf ++ b :: bs)
      · refine ⟨[b :: bs], chunks, rfl, by simp [readUntil, hnow], .inl (by simpa using hnow), ?_⟩
        intro before after h hne hafter
        cases before with
        | nil => exact absurd rfl hne
        | cons c before =>
          obtain ⟨-, h⟩ := cons.inj h
          obtain ⟨-, rfl⟩ := nil_eq_append_iff.mp h
          exact absurd rfl hafter
      · obtain ⟨received, rest, rfl, hread, hend, hfirst⟩ := ih (buf ++ b :: bs)
        refine ⟨(b :: bs) :: received, rest, rfl, ?_, ?_, ?_⟩
        · simpa [readUntil, hnow] using hread
        · simpa using hend
        · intro before after h hne hafter
          cases before with
          | nil => exact absurd rfl hne
          | cons c before =>
            obtain ⟨hc, htail⟩ := cons.inj h
            subst hc
            rw [flatten_cons, ← append_assoc]
            by_cases hempty : before.flatten = []
            · rw [hempty, append_nil]
              exact Bool.eq_false_iff.mpr hnow
            · exact hfirst before after htail hempty hafter

end Buffer

/-- The echo of a command line that none of the texts `read_file` looks for occurs in. -/
structure PlainEcho (echo : Bytes) : Prop where
  size : ¬ sizeMarker <:+: echo
  error : ¬ ascii "Storage error" <:+: echo
  missing : ¬ ascii "does not exist" <:+: echo
  prompt : ¬ ascii ">:" <:+: echo

/-- The output up to the first byte of the content. -/
def outputHead (echo : Bytes) (size : Nat) : Bytes :=
  echo ++ crlf ++ sizeMarker ++ decimal size ++ crlf

theorem shellOutput_eq (echo content : Bytes) : shellOutput echo (storageCliRead content) =
    outputHead echo (content.length % 2 ^ 32) ++ content ++ (crlf ++ shellPrompt) := by
  simp [shellOutput, storageCliRead, outputHead, sizeMarker]

theorem not_mem_decimal {n : Nat} {b : UInt8} (hb : isDigit b = false) : b ∉ decimal n := by
  intro hmem
  rw [isDigit_of_mem_decimal hmem] at hb
  cases hb

theorem infix_outputHead_append_iff {needle echo d : Bytes} {n : Nat} {x : UInt8}
    (hecho : ¬ needle <:+: echo) (hcr : (13 : UInt8) ∉ needle) (hlf : (10 : UInt8) ∉ needle)
    (hx : x ∈ needle) (hmarker : x ∉ sizeMarker) (hdigit : isDigit x = false) :
    needle <:+: outputHead echo n ++ d ↔ needle <:+: d := by
  have hsplit : outputHead echo n ++ d =
      echo ++ 13 :: ([] ++ 10 :: ((sizeMarker ++ decimal n) ++ 13 :: ([] ++ 10 :: d))) := by
    simp [outputHead, crlf]
  have hnil : ¬ needle <:+: [] := not_infix_of_mem hx not_mem_nil
  have hline : ¬ needle <:+: sizeMarker ++ decimal n := by
    refine not_infix_of_mem hx fun hmem => ?_
    rcases mem_append.mp hmem with hmem | hmem
    · exact hmarker hmem
    · exact not_mem_decimal hdigit hmem
  rw [hsplit, infix_append_cons_iff hcr, infix_append_cons_iff hlf, infix_append_cons_iff hcr,
    infix_append_cons_iff hlf]
  simp [hecho, hnil, hline]

theorem pyDigits_of_digits (ds : Bytes) (h : ∀ b ∈ ds, isDigit b) (v : Nat) :
    pyDigits v true ds = some (digitsNat v ds) := by
  induction ds generalizing v with
  | nil => rfl
  | cons b ds ih =>
    rw [pyDigits, if_pos (h b mem_cons_self)]
    exact ih (fun c hc => h c (mem_cons_of_mem b hc)) _

theorem pyInt_decimal (n : Nat) : pyInt (decimal n) = some (n : Int) := by
  obtain ⟨b, bs, hcons⟩ := exists_cons_of_ne_nil (decimal_ne_nil n)
  have hall : ∀ c ∈ b :: bs, isDigit c := fun c hc => isDigit_of_mem_decimal (n := n) (hcons ▸ hc)
  have hb := hall b mem_cons_self
  have hvalue : pyDigits 0 false (b :: bs) = some n := by
    rw [pyDigits, if_pos hb, pyDigits_of_digits bs fun c hc => hall c (mem_cons_of_mem b hc),
      ← digitsNat_decimal n, hcons]
    rfl
  rw [hcons]
  unfold pyInt
  split
  · next heq =>
    cases heq
    exact absurd hb (by decide)
  · next heq =>
    cases heq
    exact absurd hb (by decide)
  · rw [hvalue]
    rfl

theorem isByteSpace_of_isDigit {b : UInt8} (h : isDigit b) : isByteSpace b = false := by
  have hb : 48 ≤ b.toNat ∧ b.toNat ≤ 57 := by
    simpa [isDigit, UInt8.le_iff_toNat_le] using h
  apply Bool.eq_false_iff.mpr
  intro hspace
  simp [isByteSpace, UInt8.le_iff_toNat_le, ← UInt8.toNat_inj] at hspace
  omega

theorem firstWord_decimal (n : Nat) (d : Bytes) : firstWord (decimal n ++ crlf ++ d) = decimal n := by
  have hword (b : UInt8) (hb : b ∈ decimal n) : isByteSpace b = false :=
    isByteSpace_of_isDigit (isDigit_of_mem_decimal hb)
  have hskip : (decimal n ++ crlf ++ d).dropWhile isByteSpace = decimal n ++ crlf ++ d := by
    refine dropWhile_append_of_all (l := []) (fun b hb => absurd hb not_mem_nil) ?_
    intro b hb
    apply hword
    obtain ⟨c, cs, hcons⟩ := exists_cons_of_ne_nil (decimal_ne_nil n)
    rw [hcons] at hb ⊢
    cases hb
    exact mem_cons_self
  rw [firstWord, hskip, append_assoc]
  refine takeWhile_append_of_all (fun b hb => by rw [hword b hb]; rfl) ?_
  intro b hb
  cases hb
  rfl

/-- What `read_file` makes of a buffer that ends `d` bytes into the content. -/
theorem parseFile_outputHead {echo d : Bytes} {n : Nat} (hecho : PlainEcho echo) :
    parseFile (outputHead echo n ++ d) =
      if ascii "Storage error" <:+: d ∨ ascii "does not exist" <:+: d then none
      else if n = 0 then some [] else some (d.take n) := by
  have herror : ascii "Storage error" <:+: outputHead echo n ++ d ↔ ascii "Storage error" <:+: d :=
    infix_outputHead_append_iff (x := 116) hecho.error (by decide) (by decide) (by decide)
      (by decide) rfl
  have hmissing : ascii "does not exist" <:+: outputHead echo n ++ d ↔
      ascii "does not exist" <:+: d :=
    infix_outputHead_append_iff (x := 100) hecho.missing (by decide) (by decide) (by decide)
      (by decide) rfl
  have hfound : strstr sizeMarker (outputHead echo n ++ d) =
      some (sizeMarker ++ (decimal n ++ crlf ++ d)) := by
    have hsplit : outputHead echo n ++ d =
        echo ++ 13 :: ([] ++ 10 :: (sizeMarker ++ (decimal n ++ crlf ++ d))) := by
      simp [outputHead, crlf]
    rw [hsplit, strstr_append_cons (by decide) hecho.size (by decide),
      strstr_append_cons (by decide) (by decide) (by decide),
      strstr_append_self _ _ (by decide)]
  have hline : (sizeMarker ++ (decimal n ++ crlf ++ d)).dropWhile (fun b => decide (b ≠ 10)) =
      10 :: d := by
    have hsplit : sizeMarker ++ (decimal n ++ crlf ++ d) =
        (sizeMarker ++ decimal n ++ [13]) ++ 10 :: d := by
      simp [crlf]
    rw [hsplit]
    refine dropWhile_append_of_all (fun b hb => ?_) (by intro b hb; cases hb; rfl)
    apply decide_eq_true
    rintro rfl
    rcases mem_append.mp hb with hb | hb
    · rcases mem_append.mp hb with hb | hb
      · exact absurd hb (by decide)
      · exact not_mem_decimal rfl hb
    · exact absurd hb (by decide)
  unfold parseFile
  simp only [Bool.or_eq_true, strstr_isSome_iff, herror, hmissing, hfound]
  split
  · rfl
  · have hdrop : (sizeMarker ++ (decimal n ++ crlf ++ d)).drop 6 = decimal n ++ crlf ++ d := rfl
    simp only [hdrop, firstWord_decimal, pyInt_decimal, hline]
    by_cases hzero : n = 0 <;> simp [hzero]

theorem endsWith_shellOutput (echo printed : Bytes) :
    endsWith (ascii ">:") (shellOutput echo printed) = true := by
  have hsplit : shellOutput echo printed =
      (echo ++ crlf ++ printed ++ crlf ++ [62] ++ [58]) ++ [32] := by
    simp only [shellOutput, shellPrompt, append_assoc]
    rfl
  rw [endsWith, hsplit, rdropWhile_concat_pos _ _ _ (by decide),
    rdropWhile_concat_neg _ _ _ (by decide), isSuffixOf_iff_suffix]
  exact ⟨echo ++ crlf ++ printed ++ crlf, by simp [ascii]⟩

theorem infix_of_endsWith {ending buf : Bytes} (h : endsWith ending buf = true) : ending <:+: buf :=
  (isSuffixOf_iff_suffix.mp h).isInfix.trans (List.rdropWhile_prefix _ _).isInfix

theorem infix_append_tail_iff {needle content tail : Bytes} {x : UInt8}
    (htail : tail <+: crlf ++ shellPrompt) (hcr : (13 : UInt8) ∉ needle) (hx : x ∈ needle)
    (hnot : x ∉ crlf ++ shellPrompt) : needle <:+: content ++ tail ↔ needle <:+: content := by
  cases tail with
  | nil => rw [append_nil]
  | cons b bs =>
    obtain ⟨rfl, -⟩ := cons_prefix_cons.mp htail
    rw [infix_append_cons_iff hcr]
    refine or_iff_left (not_infix_of_mem hx fun hmem => hnot ?_)
    exact htail.subset (mem_cons_of_mem _ hmem)

/-- No chunk ends before the last byte of the content with what has arrived looking like the
end of the output. -/
def NoEarlyPrompt (echo content : Bytes) (chunks : List Bytes) : Prop :=
  ∀ received rest, chunks = received ++ rest → received.flatten.length <
      (outputHead echo (content.length % 2 ^ 32)).length + content.length →
    endsWith (ascii ">:") received.flatten = false

instance (echo content : Bytes) (chunks : List Bytes) :
    Decidable (NoEarlyPrompt echo content chunks) :=
  decidable_of_iff (∀ received ∈ chunks.inits, received.flatten.length <
      (outputHead echo (content.length % 2 ^ 32)).length + content.length →
      endsWith (ascii ">:") received.flatten = false) (by
    simp only [mem_inits]
    exact ⟨fun h received rest hsplit => h received ⟨rest, hsplit.symm⟩,
      fun h received ⟨rest, hsplit⟩ => h received rest hsplit.symm⟩)

section Result

variable {echo content : Bytes} {received rest : List Bytes}

theorem parseFile_of_cover (hecho : PlainEcho echo)
    (hout : (received ++ rest).flatten = shellOutput echo (storageCliRead content))
    (hcover : (outputHead echo (content.length % 2 ^ 32)).length + content.length ≤
      received.flatten.length) :
    parseFile received.flatten = some content ↔ content.length < 2 ^ 32 ∧
      ¬ ascii "Storage error" <:+: content ∧ ¬ ascii "does not exist" <:+: content := by
  have hbuf : received.flatten <+: outputHead echo (content.length % 2 ^ 32) ++ content ++
      (crlf ++ shellPrompt) := by
    rw [← shellOutput_eq, ← hout, flatten_append]
    exact prefix_append _ _
  obtain ⟨tail, hsplit⟩ := prefix_of_prefix_length_le (prefix_append _ _) hbuf
    (by rw [length_append]; exact hcover)
  have htail : tail <+: crlf ++ shellPrompt := by
    rw [← hsplit] at hbuf
    exact (prefix_append_right_inj _).mp hbuf
  have hstorage : ascii "Storage error" <:+: content ++ tail ↔ ascii "Storage error" <:+: content :=
    infix_append_tail_iff (x := 116) htail (by decide) (by decide) (by decide)
  have hmissing : ascii "does not exist" <:+: content ++ tail ↔
      ascii "does not exist" <:+: content :=
    infix_append_tail_iff (x := 100) htail (by decide) (by decide) (by decide)
  rw [← hsplit, append_assoc, parseFile_outputHead hecho]
  simp only [hstorage, hmissing]
  by_cases herror : ascii "Storage error" <:+: content ∨ ascii "does not exist" <:+: content
  · rw [if_pos herror]
    refine iff_of_false (by simp) ?_
    rintro ⟨-, h₁, h₂⟩
    exact herror.elim h₁ h₂
  · rw [if_neg herror]
    push Not at herror
    by_cases hsize : content.length < 2 ^ 32
    · rw [Nat.mod_eq_of_lt hsize]
      refine iff_of_true ?_ ⟨hsize, herror⟩
      split
      · next hzero => rw [length_eq_zero_iff.mp hzero]
      · rw [take_left]
    · refine iff_of_false ?_ fun h => hsize h.1
      have hlt : content.length % 2 ^ 32 < content.length := by
        have := Nat.mod_lt content.length (Nat.two_pow_pos 32)
        omega
      intro heq
      split at heq
      · rw [← Option.some.inj heq, length_nil] at hlt
        omega
      · have hlen := congrArg length (Option.some.inj heq)
        rw [length_take] at hlen
        omega

theorem parseFile_of_short (hecho : PlainEcho echo)
    (hout : (received ++ rest).flatten = shellOutput echo (storageCliRead content))
    (hend : endsWith (ascii ">:") received.flatten = true)
    (hshort : received.flatten.length <
      (outputHead echo (content.length % 2 ^ 32)).length + content.length) :
    parseFile received.flatten ≠ some content := by
  have hbuf : received.flatten <+: outputHead echo (content.length % 2 ^ 32) ++
      (content ++ (crlf ++ shellPrompt)) := by
    rw [← append_assoc, ← shellOutput_eq, ← hout, flatten_append]
    exact prefix_append _ _
  rcases le_total (outputHead echo (content.length % 2 ^ 32)).length received.flatten.length with
    hle | hle
  · obtain ⟨d, hsplit⟩ := prefix_of_prefix_length_le (prefix_append _ _) hbuf hle
    rw [← hsplit, length_append] at hshort
    rw [← hsplit, parseFile_outputHead hecho]
    intro heq
    split at heq
    · cases heq
    · split at heq
      · rw [← Option.some.inj heq, length_nil] at hshort
        omega
      · have hlen := congrArg length (Option.some.inj heq)
        rw [length_take] at hlen
        omega
  · -- the prompt would have to stand in the head
    have hhead := prefix_of_prefix_length_le hbuf (prefix_append _ _) hle
    have hin := (infix_of_endsWith hend).trans hhead.isInfix
    rw [← append_nil (outputHead echo _),
      infix_outputHead_append_iff (x := 62) hecho.prompt (by decide) (by decide) (by decide)
        (by decide) rfl] at hin
    exact absurd hin (by decide)

end Result

/-- However the output arrives in chunks, `read_file` returns the content exactly if it is shorter
than 4 GiB, has neither error text, and no chunk ends behind what looks like a prompt in it. -/
theorem readFile_eq_iff (echo content : Bytes) (chunks : List Bytes) (hecho : PlainEcho echo)
    (hout : chunks.flatten = shellOutput echo (storageCliRead content)) :
    readFile chunks = some content ↔ content.length < 2 ^ 32 ∧
      ¬ ascii "Storage error" <:+: content ∧ ¬ ascii "does not exist" <:+: content ∧
      NoEarlyPrompt echo content chunks := by
  obtain ⟨received, rest, rfl, hread, hend, hfirst⟩ := readUntil_spec (ascii ">:") [] chunks
  rw [nil_append] at hread hend
  have hend : endsWith (ascii ">:") received.flatten = true := by
    rcases hend with hend | rfl
    · exact hend
    · rw [append_nil] at hout
      rw [hout]
      exact endsWith_shellOutput echo _
  rw [readFile, hread]
  by_cases hcover : (outputHead echo (content.length % 2 ^ 32)).length + content.length ≤
      received.flatten.length
  · rw [parseFile_of_cover hecho hout hcover]
    have hquiet : NoEarlyPrompt echo content (received ++ rest) := by
      intro before after heq hlt
      rcases append_eq_append_iff.mp heq with ⟨more, rfl, -⟩ | ⟨more, rfl, -⟩
      · rw [flatten_append, length_append] at hlt
        omega
      · by_cases hempty : before.flatten = []
        · rw [hempty]
          decide
        · refine hfirst before more rfl hempty fun hmore => ?_
          rw [flatten_append, hmore, append_nil] at hcover
          omega
    exact ⟨fun ⟨h₁, h₂, h₃⟩ => ⟨h₁, h₂, h₃, hquiet⟩, fun ⟨h₁, h₂, h₃, _⟩ => ⟨h₁, h₂, h₃⟩⟩
  · refine iff_of_false (parseFile_of_short hecho hout hend (by omega)) ?_
    rintro ⟨-, -, -, hquiet⟩
    rw [hquiet received rest rfl (by omega)] at hend
    cases hend

/-- The echo of the command that polls the bridge's own mailbox. -/
def requestEcho : Bytes := ascii "storage read /ext/nikita/bridge/req"

theorem plainEcho_requestEcho : PlainEcho requestEcho :=
  ⟨by decide, by decide, by decide, by decide⟩

/-- A request that arrives in three chunks, the second of which ends inside it. -/
def requestChunks : List Bytes :=
  [requestEcho, ascii "\r\nSize: 6\r\n7.bH", ascii "M=\r\n\r\n>: "]

theorem readFile_requestChunks : readFile requestChunks = some (ascii "7.bHM=") := by
  exact (readFile_eq_iff requestEcho (ascii "7.bHM=") requestChunks plainEcho_requestEcho
    (by decide)).mpr ⟨by decide, by decide, by decide, by decide⟩

def quotedError : Bytes := ascii "storage: file does not exist\n"

/-- The CLI reports no error, all of the output arrives at once, and the file reads as missing. -/
theorem readFile_not_always_content : ¬ ∀ (echo content : Bytes) (chunks : List Bytes),
    PlainEcho echo → chunks.flatten = shellOutput echo (storageCliRead content) →
      readFile chunks = some content := by
  intro hall
  have hread := hall requestEcho quotedError [shellOutput requestEcho (storageCliRead quotedError)]
    plainEcho_requestEcho (by simp)
  exact absurd hread (by decide)

end NikitaFirmware.Bridge
