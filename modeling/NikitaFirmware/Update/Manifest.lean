import NikitaFirmware.Toolbox.KeysDict
import NikitaFirmware.Toolbox.StrintWords

/-!
# The reader of the resource manifest

`resource_manifest_reader_next` goes forwards from entry to entry and skips the lines in between;
`resource_manifest_reader_previous` goes back by two lines and takes the next entry from there, which
is the one before only where no line is skipped.
-/

namespace NikitaFirmware.Update
open Foundations Toolbox Scanners KeysDict SplitLast List Option

inductive ResourceManifestEntryType
  | version
  | timestamp
  | directory
  | file
  deriving DecidableEq

structure ResourceManifestEntry where
  type : ResourceManifestEntryType
  name : Bytes
  size : UInt32
  hash : Bytes
  deriving DecidableEq

/-- What the reader makes of a line: it goes on to the next one, it gives up, or it has an entry. -/
inductive ManifestLine
  | skipped
  | failed
  | entry (entry : ResourceManifestEntry)
  deriving DecidableEq

def hexCharsToUint8 : Bytes → Bytes
  | hi :: low :: valueStr =>
    match argsCharToHex hi low with
    | some value => value :: hexCharsToUint8 valueStr
    | none => []
  | _ => []

/-- `F:<hash>:<size>:<name>`, behind the entry type code. -/
def parseFile (linebuf : Bytes) : ManifestLine :=
  if linebuf.findIdx? (· == 58) ≠ some 32 then .skipped
  else
    let hash := (hexCharsToUint8 linebuf ++ replicate 16 0).take 16
    let linebuf := linebuf.drop 33
    match Strint.toUint32 (linebuf.map Char.ofUInt8) none (some 0) 10 with
    | (.ok _, _, some size) =>
      .entry ⟨.file, linebuf.drop ((linebuf.findIdx? (· == 58)).elim 0 (· + 1)), size, hash⟩
    | _ => .failed

def parseLine (linebuf : Bytes) : ManifestLine :=
  let linebuf := trimBoth (· ∈ ascii " \n\r\t") linebuf
  let value : ResourceManifestEntryType → ManifestLine := fun type =>
    .entry ⟨type, linebuf.drop 2, 0, replicate 16 0⟩
  match linebuf.head?.map Char.ofUInt8 with
  | some 'V' => value .version
  | some 'T' => value .timestamp
  | some 'F' => parseFile (linebuf.drop 2)
  | some 'D' => value .directory
  | _ => .skipped

def nextLoop (fuel : Nat) :
    Nat → BufferedFileStream → Option (Option ResourceManifestEntry × BufferedFileStream)
  | 0, _ => none
  | calls + 1, stream =>
    (streamReadLine cachedStream fuel stream).bind fun read =>
      if !read.1.1 then some (none, read.2)
      else match parseLine read.1.2 with
        | .skipped => nextLoop fuel calls read.2
        | .failed => some (none, read.2)
        | .entry entry => some (some entry, read.2)

/-- `resource_manifest_reader_next` -/
def next (stream : BufferedFileStream) :
    Option (Option ResourceManifestEntry × BufferedFileStream) :=
  nextLoop (stream.size + 1) (stream.size + 1) stream

/-- The loop over `jumps`. In front of position 0 no line is found. -/
def jumpBack (fuel previousPosition : Nat) :
    Nat → Nat → BufferedFileStream → Option (Nat × BufferedFileStream)
  | 0, _, _ => none
  | calls + 1, jumps, stream =>
    if jumps = 0 then some (0, stream)
    else
      (streamSeekToChar cachedStream fuel stream 10 .backward).bind fun found =>
        if !found.1 then some (jumps, found.2)
        else
          jumpBack fuel previousPosition calls
            (if found.2.tell < previousPosition - 1 then jumps - 1 else jumps) found.2

def previous (stream : BufferedFileStream) :
    Option (Option ResourceManifestEntry × BufferedFileStream) :=
  let fuel := stream.size + 1
  let previousPosition := stream.tell
  let wasEof := stream.eof
  (jumpBack fuel previousPosition fuel (if wasEof then 1 else 2) stream).bind fun jumped =>
    if jumped.1 ≤ 1 then
      let stream := if jumped.1 = 1 then (jumped.2.seek 0 .fromStart).2 else jumped.2
      (next stream).bind fun read =>
        some (read.1, if wasEof then (read.2.seek (-1) .fromCurrent).2 else read.2)
    else some (none, (jumped.2.seek (Int32.ofNat previousPosition) .fromStart).2)

def rowOf (line : Bytes) : ManifestLine := parseLine (line.filter (· ≠ 13))

/-- What `next` finds in lines, and the lines that it leaves. -/
def nextOf : List Bytes → Option ResourceManifestEntry × List Bytes
  | [] => (none, [])
  | line :: ls =>
    match rowOf line with
    | .skipped => nextOf ls
    | .failed => (none, ls)
    | .entry entry => (some entry, ls)

variable {stream : BufferedFileStream} {l line line' : Bytes} {ls before after : List Bytes}
  {p q start fuel calls : Nat}

theorem nextLoop_eq (hview : SettledView stream l p) (hls : lines (l.drop p) = ls)
    (hfuel : l.length < fuel) (hcalls : ls.length < calls) :
    ∃ stream', nextLoop fuel calls stream = some ((nextOf ls).1, stream') ∧
      SettledView stream' l (l.length - (nextOf ls).2.flatten.length) := by
  obtain ⟨calls, rfl⟩ := Nat.exists_eq_succ_of_ne_zero (Nat.ne_of_gt (Nat.zero_lt_of_lt hcalls))
  obtain ⟨stream₁, hread, hview₁⟩ := streamReadLine_eq settled_shows hview hfuel
  rw [nextLoop, hread, bind_some]
  induction ls generalizing stream stream₁ p calls with
  | nil =>
    rw [splitAfter_eq_nil.mp hls] at hview₁ ⊢
    exact ⟨stream₁, rfl, hview₁⟩
  | cons line ls ih =>
    have hrest : l.drop p ≠ [] := by
      intro hnil
      rw [hnil] at hls
      exact absurd hls (by simp [lines, splitAfter])
    obtain ⟨line', hlines', htext, -⟩ := lines_splitLine hrest
    obtain ⟨rfl, hbehind⟩ := cons.inj (hls.symm.trans hlines')
    have hdrop : lines (l.drop (l.length - (splitLine (l.drop p)).2.length)) = ls :=
      (congrArg lines (drop_splitLine l p)).trans hbehind.symm
    have hflat : (splitLine (l.drop p)).2 = ls.flatten := by rw [hbehind, lines_flatten]
    rw [htext]
    by_cases hnil : line.filter (· ≠ 13) = []
    · have hlast : (splitLine (l.drop p)).2 = [] := by
        by_contra hne
        have hend := getLast?_splitLine hne
        rw [htext, hnil] at hend
        cases hend
      obtain rfl : ls = [] := by rw [hbehind, hlast]; rfl
      have hnext : nextOf [line] = (none, []) := by
        rw [nextOf, rowOf, hnil]
        rfl
      rw [hnil, hnext]
      rw [hlast] at hview₁
      exact ⟨stream₁, rfl, hview₁⟩
    · rw [decide_eq_true (mt length_eq_zero_iff.mp hnil), nextOf, rowOf]
      rw [Bool.not_true, if_neg Bool.false_ne_true]
      cases parseLine (line.filter (· ≠ 13)) with
      | skipped =>
        rw [length_cons] at hcalls
        obtain ⟨calls, rfl⟩ := Nat.exists_eq_succ_of_ne_zero (by omega : calls ≠ 0)
        obtain ⟨stream₂, hread₂, hview₂⟩ := streamReadLine_eq settled_shows hview₁ hfuel
        dsimp only
        rw [nextLoop, hread₂, bind_some]
        exact ih hview₁ hdrop calls (by omega) stream₂ hread₂ hview₂
      | failed | entry =>
        rw [hflat] at hview₁
        exact ⟨stream₁, rfl, hview₁⟩

theorem next_eq (hview : SettledView stream l p) :
    ∃ stream', next stream = some ((nextOf (lines (l.drop p))).1, stream') ∧
      SettledView stream' l (l.length - (nextOf (lines (l.drop p))).2.flatten.length) := by
  have hle := length_splitAfter_le (p := (· == 10)) (l.drop p)
  rw [length_drop] at hle
  rw [next, hview.size]
  exact nextLoop_eq hview rfl (Nat.lt_succ_self _) (by rw [lines]; omega)

theorem sought_feed (hview : SettledView stream l q) (hfuel : l.length < fuel) (hlt : p < q)
    (hfeed : l[p]? = some 10) (hfree : ∀ j, p < j → j < q → l[j]? ≠ some 10) :
    ∃ stream', streamSeekToChar cachedStream fuel stream 10 .backward = some (true, stream') ∧
      SettledView stream' l p := by
  obtain ⟨result, stream', q', hsought, hview', hfound⟩ :=
    streamSeekToChar_backward settled_shows hview 10 hfuel
  obtain ⟨rfl, hlt', hfeed', hbetween⟩ | ⟨-, -, hnone⟩ := hfound
  · obtain rfl : q' = p := by
      by_contra hne
      rcases Nat.lt_or_gt_of_ne hne with hbefore | hbehind
      · exact hbetween p hbefore hlt hfeed
      · exact hfree q' hbehind hlt' hfeed'
    exact ⟨stream', hsought, hview'⟩
  · exact absurd hfeed (hnone p hlt)

/-- One round of the loop finds the line feed in front of a line. -/
theorem jumpBack_line (hview : SettledView stream l q) (hfuel : l.length < fuel) (hcalls : q < calls)
    (hstart : start ≤ q) (hfree : ∀ j, start ≤ j → j < q → l[j]? ≠ some 10)
    (jumps previousPosition : Nat) :
    (start = 0 → ∃ stream', jumpBack fuel previousPosition calls (jumps + 1) stream =
      some (jumps + 1, stream') ∧ SettledView stream' l q) ∧
    (l[start - 1]? = some 10 → 0 < start → start < previousPosition → ∃ calls' stream',
      jumpBack fuel previousPosition calls (jumps + 1) stream =
        jumpBack fuel previousPosition calls' jumps stream' ∧
      SettledView stream' l (start - 1) ∧ start - 1 < calls') := by
  obtain ⟨calls, rfl⟩ := Nat.exists_eq_succ_of_ne_zero (Nat.ne_of_gt (Nat.zero_lt_of_lt hcalls))
  rw [jumpBack, if_neg (Nat.succ_ne_zero jumps)]
  constructor
  · rintro rfl
    obtain ⟨result, stream', q', hsought, hview', ⟨-, hlt, hfeed, -⟩ | ⟨rfl, rfl, -⟩⟩ :=
      streamSeekToChar_backward settled_shows hview 10 hfuel
    · exact absurd hfeed (hfree q' (Nat.zero_le q') hlt)
    · exact ⟨stream', by rw [hsought]; rfl, hview'⟩
  · intro hfeed hpos hprev
    obtain ⟨stream', hsought, hview'⟩ := sought_feed hview hfuel (by omega) hfeed
      fun j hj hlt => hfree j (by omega) hlt
    refine ⟨calls, stream', ?_, hview', by omega⟩
    rw [hsought, bind_some]
    simp only [hview'.tell]
    rw [if_neg (by simp), if_pos (by omega), Nat.add_sub_cancel]

/-- The line feed at the end of a line that was just read does not count. -/
theorem jumpBack_feed {stop : Nat} (hview : SettledView stream l p) (hfuel : l.length < fuel)
    (hcalls : p < calls) (hstart : start < p) (hstop : p ≤ stop)
    (hfree : ∀ j, start ≤ j → j < stop - 1 → l[j]? ≠ some 10) (jumps : Nat) :
    ∃ calls' stream' q, jumpBack fuel p calls (jumps + 1) stream =
        jumpBack fuel p calls' (jumps + 1) stream' ∧ SettledView stream' l q ∧ start ≤ q ∧
      q < calls' ∧ ∀ j, start ≤ j → j < q → l[j]? ≠ some 10 := by
  by_cases hfeed : l[p - 1]? = some 10
  · obtain ⟨calls, rfl⟩ := Nat.exists_eq_succ_of_ne_zero (Nat.ne_of_gt (Nat.zero_lt_of_lt hcalls))
    obtain ⟨stream', hsought, hview'⟩ := sought_feed hview hfuel (by omega) hfeed
      fun j hj hlt => absurd hj (by omega)
    rw [jumpBack, if_neg (Nat.succ_ne_zero jumps), hsought, bind_some]
    simp only [hview'.tell]
    rw [if_neg (by simp), if_neg (by omega)]
    exact ⟨calls, stream', _, rfl, hview', by omega, by omega, fun j hj hlt =>
      hfree j hj (by omega)⟩
  · refine ⟨calls, stream, p, rfl, hview, by omega, hcalls, fun j hj hlt => ?_⟩
    rcases Nat.lt_or_ge j (p - 1) with hin | hlast
    · exact hfree j hj (by omega)
    · obtain rfl : j = p - 1 := by omega
      exact hfeed

/-- The lines before a line, and the place where it begins. -/
structure Row (l : Bytes) (before : List Bytes) (line : Bytes) (after : List Bytes)
    (start : Nat) : Prop where
  pos : 0 < line.length
  length : start + line.length + after.flatten.length = l.length
  free : ∀ j, start ≤ j → j < start + line.length - 1 → l[j]? ≠ some 10
  here : lines (l.drop start) = line :: after
  first : before = [] → start = 0
  feed : before ≠ [] → 0 < start ∧ l[start - 1]? = some 10 ∧
    lines (l.drop (start - 1)) = [10] :: line :: after

theorem row_of_lines (h : lines l = before ++ line :: after) :
    Row l before line after before.flatten.length := by
  obtain ⟨hl, hsplit⟩ := splitAfter_split h
  obtain ⟨hended, hhere⟩ := hsplit (by simp)
  obtain ⟨hnonempty, hfree⟩ := piece_of_mem_splitAfter (l := l) line (by rw [← lines, h]; simp)
  have hdrop : l.drop before.flatten.length = (line :: after).flatten := by rw [hl, drop_left]
  refine ⟨length_pos_iff.mpr hnonempty, ?_, fun j hj hlt hfeed => ?_,
    (congrArg lines hdrop).trans hhere, ?_, fun hne => ?_⟩
  · rw [hl, length_append, flatten_cons, length_append, Nat.add_assoc]
  · have hin : j - before.flatten.length < line.length - 1 := by omega
    have hbyte : line.dropLast[j - before.flatten.length]? = some 10 := by
      rw [getElem?_dropLast, if_pos hin, ← hfeed, hl, getElem?_append_right hj,
        flatten_cons, getElem?_append_left (by omega)]
    exact absurd (hfree _ (mem_of_getElem? hbyte)) (by decide)
  · rintro rfl
    rfl
  · obtain rfl | ⟨front, piece, rfl⟩ := eq_nil_or_concat' before
    · exact absurd rfl hne
    obtain ⟨text, x, rfl, hx, -⟩ := hended piece (by simp)
    obtain rfl := eq_of_beq hx
    have hcut : l = (front.flatten ++ text) ++ 10 :: (line :: after).flatten := by simp [hl]
    have hplace : (front ++ [text ++ [10]]).flatten.length - 1 = (front.flatten ++ text).length := by
      simp
    refine ⟨by simp, ?_, ?_⟩
    · rw [hplace, hcut, getElem?_append_right (Nat.le_refl _), Nat.sub_self]
      rfl
    · rw [hplace, hcut, drop_left, lines, splitAfter_cons_of_end (p := (· == 10)) hx, hhere]

theorem length_of_last (h : lines l = before ++ [line]) :
    0 < line.length ∧ before.flatten.length + line.length = l.length :=
  ⟨(row_of_lines h).pos, (row_of_lines h).length⟩

/-- The last jump, to a line: from there `next` reads the line and goes on behind it. -/
theorem jumpBack_last (hrow : Row l before line after start) (hview : SettledView stream l q)
    (hfuel : l.length < fuel) (hcalls : q < calls) (hstart : start ≤ q)
    (hfree : ∀ j, start ≤ j → j < q → l[j]? ≠ some 10) {previousPosition : Nat}
    (hprev : start < previousPosition) :
    ∃ jumps stream' q', jumpBack fuel previousPosition calls 1 stream = some (jumps, stream') ∧
      jumps ≤ 1 ∧
      SettledView (if jumps = 1 then (stream'.seek 0 .fromStart).2 else stream') l q' ∧
      nextOf (lines (l.drop q')) = nextOf (line :: after) := by
  obtain ⟨hnone, hfound⟩ := jumpBack_line hview hfuel hcalls hstart hfree 0 previousPosition
  by_cases hfirst : before = []
  · obtain ⟨stream', hjump, hview'⟩ := hnone (hrow.first hfirst)
    refine ⟨1, stream', 0, hjump, Nat.le_refl 1, ?_, ?_⟩
    · exact hview'.seek_fromStart (Nat.zero_le _)
    · rw [← hrow.first hfirst, hrow.here]
  · obtain ⟨hpos, hfeed, hhere⟩ := hrow.feed hfirst
    obtain ⟨calls', stream', hjump, hview', hlt⟩ := hfound hfeed hpos hprev
    obtain ⟨calls', rfl⟩ := Nat.exists_eq_succ_of_ne_zero (Nat.ne_of_gt (Nat.zero_lt_of_lt hlt))
    refine ⟨0, stream', start - 1, hjump, Nat.zero_le 1, hview', ?_⟩
    rw [hhere]
    rfl

theorem eof_eq (hview : SettledView stream l p) : stream.eof = decide (p = l.length) := by
  obtain ⟨c, ⟨hsettled, rfl⟩, rfl, rfl⟩ := hview
  rw [BufferedFileStream.eof_of_ahead hsettled.valid hsettled.ahead]
  exact Bool.eq_iff_iff.mpr (stream.shown.eof_iff.trans decide_eq_true_iff.symm)

/-- The reader stands in a line, or at its end. -/
def Within (stream : BufferedFileStream) (l : Bytes) (before : List Bytes) (line : Bytes)
    (after : List Bytes) : Prop :=
  lines l = before ++ line :: after ∧ ∃ p, SettledView stream l p ∧ before.flatten.length < p ∧
    p ≤ before.flatten.length + line.length

theorem previous_first (h : Within stream l [] line after) (heof : stream.eof = false) :
    ∃ stream', previous stream = some (none, stream') := by
  obtain ⟨hlines, p, hview, hlt, hle⟩ := h
  have hrow := row_of_lines hlines
  obtain ⟨calls', stream₁, q, hfeed, hview₁, hq, hcalls, hfree⟩ := jumpBack_feed hview
    (Nat.lt_succ_self _) (Nat.lt_succ_of_le hview.le) hlt hle hrow.free 1
  obtain ⟨stream₂, hjump, hview₂⟩ := (jumpBack_line hview₁ (Nat.lt_succ_self _) hcalls hq
    hfree 1 p).1 rfl
  rw [previous]
  simp only [heof, hview.tell, hview.size]
  rw [if_neg Bool.false_ne_true, hfeed, hjump]
  exact ⟨_, rfl⟩

theorem previous_middle (h : Within stream l (before ++ [line']) line after)
    (heof : stream.eof = false) :
    ∃ stream', previous stream = some ((nextOf (line' :: line :: after)).1, stream') ∧
      SettledView stream' l (l.length - (nextOf (line' :: line :: after)).2.flatten.length) := by
  obtain ⟨hlines, p, hview, hlt, hle⟩ := h
  have hrow := row_of_lines hlines
  have hrow' := row_of_lines (hlines.trans (append_assoc before [line'] _))
  have hstart : (before ++ [line']).flatten.length = before.flatten.length + line'.length := by simp
  have hprev : before.flatten.length < p := by omega
  obtain ⟨hpos, hend, -⟩ := hrow.feed (by simp)
  have hline := hrow'.pos
  obtain ⟨calls₁, stream₁, q, hfeed, hview₁, hq, hcalls₁, hfree⟩ := jumpBack_feed hview
    (Nat.lt_succ_self _) (Nat.lt_succ_of_le hview.le) hlt hle hrow.free 1
  obtain ⟨calls₂, stream₂, hjump, hview₂, hcalls₂⟩ := (jumpBack_line hview₁
    (Nat.lt_succ_self _) hcalls₁ hq hfree 1 p).2 hend hpos hlt
  obtain ⟨jumps, stream₃, q', hlast, hjumps, hview₃, hnext⟩ := jumpBack_last hrow' hview₂
    (Nat.lt_succ_self _) hcalls₂ (by omega) (fun j hj hj' => hrow'.free j hj (by omega)) hprev
  obtain ⟨stream₄, hread, hview₄⟩ := next_eq hview₃
  rw [previous]
  simp only [heof, hview.tell, hview.size]
  rw [if_neg Bool.false_ne_true, hfeed, hjump, hlast, bind_some, if_pos hjumps]
  dsimp only
  rw [hread, hnext]
  rw [hnext] at hview₄
  exact ⟨stream₄, rfl, hview₄⟩

theorem previous_last (h : lines l = before ++ [line]) (hview : SettledView stream l l.length) :
    ∃ stream', previous stream = some ((nextOf [line]).1, stream') ∧
      SettledView stream' l (l.length - 1) := by
  have hrow := row_of_lines h
  obtain ⟨hpos, hlength⟩ := length_of_last h
  have heof : stream.eof = true := (eof_eq hview).trans (decide_eq_true rfl)
  obtain ⟨calls₁, stream₁, q, hfeed, hview₁, hq, hcalls₁, hfree⟩ := jumpBack_feed hview
    (Nat.lt_succ_self _) (Nat.lt_succ_self _) (by omega) (by omega) hrow.free 0
  obtain ⟨jumps, stream₂, q', hlast, hjumps, hview₂, hnext⟩ := jumpBack_last hrow hview₁
    (Nat.lt_succ_self _) hcalls₁ hq hfree (by omega : _ < l.length)
  obtain ⟨stream₃, hread, hview₃⟩ := next_eq hview₂
  rw [hnext] at hread hview₃
  have hend : (nextOf [line]).2 = [] := by
    rw [nextOf]
    split <;> rfl
  rw [hend] at hview₃
  rw [previous]
  simp only [heof, hview.tell, hview.size, if_true]
  rw [hfeed, hlast, bind_some, if_pos hjumps]
  dsimp only
  rw [hread]
  exact ⟨_, rfl, hview₃.seek_back (n := 1) (by decide)⟩

def iterate (f : BufferedFileStream → Option (Option ResourceManifestEntry × BufferedFileStream)) :
    Nat → BufferedFileStream → Option (List (Option ResourceManifestEntry) × BufferedFileStream)
  | 0, stream => some ([], stream)
  | n + 1, stream => (f stream).bind fun read =>
    (iterate f n read.2).map fun rest => (read.1 :: rest.1, rest.2)

/-- The entries that are read until there is none. -/
def readAll : Nat → BufferedFileStream → Option (List ResourceManifestEntry × BufferedFileStream)
  | 0, _ => none
  | calls + 1, stream => (next stream).bind fun read =>
    match read.1 with
    | none => some ([], read.2)
    | some entry => (readAll calls read.2).map fun rest => (entry :: rest.1, rest.2)

/-- What goes forwards comes back: from the end of the file, and one step in between. -/
def Reversible (stream : BufferedFileStream) : Prop :=
  ∃ entries stream', readAll (stream.size + 1) stream = some (entries, stream') ∧
    (∃ stream'', iterate previous (entries.length + 1) stream' =
      some (entries.reverse.map some ++ [none], stream'')) ∧
    ∀ k, 1 < k → k < entries.length → ∃ read streamₖ streamₖ', iterate next k stream =
      some (read, streamₖ) ∧ previous streamₖ = some (entries[k - 2]?, streamₖ')

def entryOf (line : Bytes) : Option ResourceManifestEntry :=
  match rowOf line with
  | .entry entry => some entry
  | _ => none

/-- A manifest has no file entry without a size, and no entry without a value. -/
def Manifest (l : Bytes) : Prop :=
  ∀ line ∈ lines l, rowOf line ≠ .failed ∧ ∀ entry ∈ entryOf line, entry.name ≠ []

def entries (ls : List Bytes) : List ResourceManifestEntry := ls.filterMap entryOf

theorem entryOf_eq {entry : ResourceManifestEntry} :
    entryOf line = some entry ↔ rowOf line = .entry entry := by
  rw [entryOf]
  split <;> simp_all

theorem nextOf_entry {entry : ResourceManifestEntry} (h : entryOf line = some entry) :
    nextOf (line :: ls) = (some entry, ls) := by
  rw [nextOf, entryOf_eq.mp h]

theorem nextOf_skipped (h : rowOf line = .skipped) : nextOf (line :: ls) = nextOf ls := by
  rw [nextOf, h]

theorem lines_drop (h : lines (l.drop p) = before ++ after) :
    lines (l.drop (l.length - after.flatten.length)) = after := by
  obtain ⟨hrest, hsplit⟩ := splitAfter_split h
  have hdrop : l.drop (l.length - after.flatten.length) = after.flatten := by
    have hl : l = (l.take p ++ before.flatten) ++ after.flatten := by
      rw [append_assoc, ← hrest, take_append_drop]
    have hplace : l.length - after.flatten.length = (l.take p ++ before.flatten).length := by
      nth_rewrite 1 [hl]
      rw [length_append, Nat.add_sub_cancel]
    rw [hplace]
    nth_rewrite 2 [hl]
    exact drop_left
  rw [hdrop]
  by_cases hne : after = []
  · rw [hne]
    rfl
  · exact (hsplit hne).2

theorem nextOf_cases (hparses : ∀ line ∈ ls, rowOf line ≠ .failed) :
    (nextOf ls = (none, []) ∧ entries ls = []) ∨
      ∃ entry front more, ls = front ++ more ∧ nextOf ls = (some entry, more) ∧
        entries ls = entry :: entries more ∧ more.length < ls.length := by
  induction ls with
  | nil => exact .inl ⟨rfl, rfl⟩
  | cons line ls ih =>
    obtain ⟨hline, hls⟩ := forall_mem_cons.mp hparses
    cases hrow : rowOf line with
    | failed => exact absurd hrow hline
    | entry entry =>
      have hentry := entryOf_eq.mpr hrow
      exact .inr ⟨entry, [line], ls, rfl, nextOf_entry hentry, filterMap_cons_some hentry,
        Nat.lt_succ_self _⟩
    | skipped =>
      have hnone : entries (line :: ls) = entries ls :=
        filterMap_cons_none (by rw [entryOf, hrow])
      rw [nextOf_skipped hrow, hnone]
      refine (ih hls).imp id ?_
      rintro ⟨entry, front, more, rfl, hnext, hentries, hlt⟩
      exact ⟨entry, line :: front, more, rfl, hnext, hentries, Nat.lt_succ_of_lt hlt⟩

theorem readAll_eq (hview : SettledView stream l p) (hls : lines (l.drop p) = ls)
    (hparses : ∀ line ∈ ls, rowOf line ≠ .failed) (hcalls : ls.length < calls) :
    ∃ stream', readAll calls stream = some (entries ls, stream') ∧
      SettledView stream' l l.length := by
  induction calls generalizing stream p ls with
  | zero => exact absurd hcalls (Nat.not_lt_zero _)
  | succ calls ih =>
    obtain ⟨stream₁, hread, hview₁⟩ := next_eq hview
    rw [hls] at hread hview₁
    rw [readAll, hread, bind_some]
    obtain ⟨hnext, hnone⟩ | ⟨entry, front, more, rfl, hnext, hentries, hlt⟩ := nextOf_cases hparses
    · rw [hnext] at hview₁ ⊢
      exact ⟨stream₁, by rw [hnone], hview₁⟩
    · rw [hnext] at hview₁ ⊢
      obtain ⟨stream₂, hrest, hview₂⟩ := ih hview₁ (lines_drop hls)
        (fun line hline => hparses line (mem_append_right _ hline)) (by dsimp only; omega)
      exact ⟨stream₂, by simp only [hrest, hentries, map_some], hview₂⟩

/-- Every line has an entry. -/
def Full (ls : List Bytes) : Prop := ∀ line ∈ ls, (entryOf line).isSome

theorem next_run (hview : SettledView stream l p) (hls : lines (l.drop p) = before ++ after)
    (hfull : Full before) :
    ∃ read stream', iterate next before.length stream = some (read, stream') ∧
      SettledView stream' l (l.length - after.flatten.length) := by
  induction before generalizing stream p with
  | nil => 
    have hflat : after.flatten = l.drop p := (congrArg flatten hls).symm.trans (lines_flatten _)
    have hle := hview.le
    rw [hflat, length_drop, Nat.sub_sub_self hle]
    exact ⟨[], stream, rfl, hview⟩
  | cons line before ih =>
    obtain ⟨hline, hfull⟩ := forall_mem_cons.mp hfull
    obtain ⟨entry, hentry⟩ := isSome_iff_exists.mp hline
    obtain ⟨stream₁, hread, hview₁⟩ := next_eq hview
    rw [hls, cons_append, nextOf_entry hentry] at hread hview₁
    obtain ⟨read, stream', hrest, hview'⟩ := ih hview₁ (@lines_drop l [line] _ p hls) hfull
    exact ⟨_, stream', by rw [length_cons, iterate, hread, bind_some, hrest]; rfl, hview'⟩

theorem within_end (hlines : lines l = before ++ line :: after) (hafter : after ≠ [])
    (hview : SettledView stream l (l.length - after.flatten.length)) :
    Within stream l before line after ∧ stream.eof = false := by
  have hrow := row_of_lines hlines
  have hpos := hrow.pos
  have hlength := hrow.length
  obtain ⟨next, after, rfl⟩ := exists_cons_of_ne_nil hafter
  have hnext := (row_of_lines (hlines.trans (append_cons before line _))).pos
  have hflat : (next :: after).flatten.length = next.length + after.flatten.length := by simp
  refine ⟨⟨hlines, _, hview, by omega, by omega⟩, ?_⟩
  exact (eof_eq hview).trans (decide_eq_false (by omega))

theorem previous_run (h : Within stream l before line after) (heof : stream.eof = false)
    (hfull : Full before) :
    ∃ stream', iterate previous (before.length + 1) stream =
      some ((entries before).reverse.map some ++ [none], stream') := by
  induction before using reverseRecOn generalizing stream line after with
  | nil =>
    obtain ⟨stream', hread⟩ := previous_first h heof
    exact ⟨stream', by rw [iterate, hread]; rfl⟩
  | append_singleton before line' ih =>
    obtain ⟨entry, hentry⟩ := isSome_iff_exists.mp (hfull line' (by simp))
    obtain ⟨stream₁, hread, hview₁⟩ := previous_middle h heof
    rw [nextOf_entry hentry] at hread hview₁
    have hlines := h.1.trans (append_assoc before [line'] (line :: after))
    obtain ⟨hwithin, heof'⟩ := within_end hlines (by simp) hview₁
    obtain ⟨stream', hrest⟩ := ih hwithin heof' fun q hq => hfull q (by simp [hq])
    refine ⟨stream', ?_⟩
    rw [length_append, length_singleton, iterate, hread, bind_some, hrest]
    simp [entries, hentry]

/-- The reader is in a line with an entry, and has skipped a line before. -/
def Behind (stream : BufferedFileStream) (l : Bytes) : Prop :=
  ∃ before line after entry, Within stream l before line after ∧ entryOf line = some entry ∧
    ∃ line' ∈ before, rowOf line' = .skipped

theorem two_le_of_entry (hm : Manifest l) (hline : line ∈ lines l) {entry : ResourceManifestEntry}
    (hentry : entryOf line = some entry) : 2 ≤ line.length := by
  have hrow := entryOf_eq.mp hentry
  have hname := (hm line hline).2 entry hentry
  by_contra hshort
  rw [rowOf, parseLine] at hrow
  have hdrop : (trimBoth (· ∈ ascii " \n\r\t") (line.filter (· ≠ 13))).drop 2 = [] := by
    have hle := length_filter_le (· ≠ 13) line
    exact drop_eq_nil_of_le ((length_trimBoth_le _ _).trans (by omega))
  dsimp only at hrow
  rw [hdrop] at hrow
  split at hrow <;> first
  | exact hname (by rw [← ManifestLine.entry.inj hrow])
  | exact absurd hrow (by simp [parseFile])

theorem mem_of_skipped (h : line' ∈ before ++ [line]) (hskip : rowOf line' = .skipped)
    {entry : ResourceManifestEntry} (hentry : entryOf line = some entry) : line' ∈ before := by
  obtain h | h := mem_append.mp h
  · exact h
  · obtain rfl := mem_singleton.mp h
    cases hskip.symm.trans (entryOf_eq.mp hentry)

theorem behind_step (hm : Manifest l) (h : Behind stream l) :
    ∃ entry stream', previous stream = some (some entry, stream') ∧ Behind stream' l := by
  obtain ⟨before, line, after, entry, ⟨hlines, p, hview, hlt, hle⟩, hentry, line', hmem, hskip⟩ := h
  have hrow := row_of_lines hlines
  have hpos := hrow.pos
  have hlength := hrow.length
  have htwo := two_le_of_entry hm (by rw [hlines]; simp) hentry
  by_cases hend : p = l.length
  · obtain rfl : after = [] := by
      by_contra hne
      obtain ⟨a, after, rfl⟩ := exists_cons_of_ne_nil hne
      have ha := (row_of_lines (hlines.trans (append_cons before line _))).pos
      rw [flatten_cons, length_append] at hlength
      omega
    rw [hend] at hview
    obtain ⟨stream', hread, hview'⟩ := previous_last hlines hview
    rw [nextOf_entry hentry] at hread
    exact ⟨entry, stream', hread, before, line, [], entry,
      ⟨hlines, _, hview', by omega, by omega⟩, hentry, line', hmem, hskip⟩
  · have heof : stream.eof = false := (eof_eq hview).trans (decide_eq_false hend)
    obtain rfl | ⟨front, line₁, rfl⟩ := eq_nil_or_concat' before
    · exact absurd hmem not_mem_nil
    obtain ⟨stream', hread, hview'⟩ := previous_middle ⟨hlines, p, hview, hlt, hle⟩ heof
    have hlines' := hlines.trans (append_assoc front [line₁] (line :: after))
    cases hcase : rowOf line₁ with
    | failed => exact absurd hcase (hm line₁ (by rw [hlines]; simp)).1
    | skipped =>
      rw [nextOf_skipped hcase, nextOf_entry hentry] at hread hview'
      exact ⟨entry, stream', hread, _, line, after, entry,
        ⟨hlines, _, hview', by dsimp only; omega, by dsimp only; omega⟩, hentry, line', hmem, hskip⟩
    | entry entry' =>
      have hentry' := entryOf_eq.mpr hcase
      rw [nextOf_entry hentry'] at hread hview'
      exact ⟨entry', stream', hread, front, line₁, line :: after, entry',
        (within_end hlines' (by simp) hview').1, hentry', line',
        mem_of_skipped hmem hskip hentry', hskip⟩

theorem behind_run (hm : Manifest l) (h : Behind stream l) {n : Nat}
    {read : List (Option ResourceManifestEntry)} {stream' : BufferedFileStream}
    (hrun : iterate previous n stream = some (read, stream')) : none ∉ read := by
  induction n generalizing stream read with
  | zero =>
    obtain ⟨rfl, -⟩ := Prod.mk.inj (some.inj hrun)
    exact not_mem_nil
  | succ n ih =>
    obtain ⟨entry, stream₁, hread, hbehind⟩ := behind_step hm h
    rw [iterate, hread, bind_some] at hrun
    obtain ⟨⟨rest, stream₂⟩, hrest, heq⟩ := map_eq_some_iff.mp hrun
    obtain ⟨rfl, rfl⟩ := Prod.mk.inj heq
    simpa using ih hbehind hrest

theorem previous_none (hview : SettledView stream l l.length) (h : entries (lines l) = []) :
    ∃ stream', previous stream = some (none, stream') := by
  obtain hnil | ⟨before, line, hlines⟩ := eq_nil_or_concat' (lines l)
  · obtain rfl := splitAfter_eq_nil.mp hnil
    obtain ⟨stream₁, hjump, hview₁⟩ := (@jumpBack_line stream [] 0 0 1 1 hview Nat.zero_lt_one
      Nat.zero_lt_one (Nat.le_refl 0) (fun j _ hlt => absurd hlt (Nat.not_lt_zero j)) 0 0).1 rfl
    obtain ⟨stream₂, hread, -⟩ := next_eq (hview₁.seek_fromStart (Nat.le_refl 0))
    have heof : stream.eof = true := (eof_eq hview).trans (decide_eq_true rfl)
    refine ⟨(stream₂.seek (-1) .fromCurrent).2, ?_⟩
    rw [previous]
    simp only [heof, hview.tell, hview.size, if_true, length_nil, Nat.zero_add]
    rw [hjump]
    show (next (stream₁.seek (Int32.ofNat 0) .fromStart).2).bind _ = _
    rw [hread]
    rfl
  · obtain ⟨stream', hread, -⟩ := previous_last hlines hview
    refine ⟨stream', ?_⟩
    have hline : entryOf line = none := by
      rw [hlines] at h
      exact filterMap_eq_nil_iff.mp h line (by simp)
    rw [hread, nextOf]
    cases hrow : rowOf line with
    | skipped | failed => rfl
    | entry entry => cases hline.symm.trans (entryOf_eq.mpr hrow)

theorem length_entries (hfull : Full ls) : (entries ls).length = ls.length := by
  induction ls with
  | nil => rfl
  | cons line ls ih =>
    obtain ⟨hline, hfull⟩ := forall_mem_cons.mp hfull
    obtain ⟨entry, hentry⟩ := isSome_iff_exists.mp hline
    rw [entries, filterMap_cons_some hentry, length_cons, ← entries, ih hfull, length_cons]

theorem previous_all (hm : Manifest l) (hlines : lines l = before ++ [line])
    (hview : SettledView stream l l.length) (hfull : Full (lines l)) :
    ∃ stream', iterate previous ((entries (lines l)).length + 1) stream =
      some ((entries (lines l)).reverse.map some ++ [none], stream') := by
  obtain ⟨hpos, hlength⟩ := length_of_last hlines
  obtain ⟨entry, hentry⟩ := isSome_iff_exists.mp (hfull line (by rw [hlines]; simp))
  obtain ⟨stream₁, hread, hview₁⟩ := previous_last hlines hview
  rw [nextOf_entry hentry] at hread
  have htwo := two_le_of_entry hm (by rw [hlines]; simp) hentry
  have heof : stream₁.eof = false := (eof_eq hview₁).trans (decide_eq_false (by omega))
  obtain ⟨stream', hrest⟩ := previous_run ⟨hlines, _, hview₁, by omega, by omega⟩ heof
    fun q hq => hfull q (by rw [hlines]; simp [hq])
  have hentries : entries (lines l) = entries before ++ [entry] := by
    rw [hlines, entries, filterMap_append, filterMap_cons_some hentry]
    rfl
  refine ⟨stream', ?_⟩
  rw [length_entries hfull, hlines, length_append, length_singleton, iterate, hread,
    bind_some, hrest, ← hlines, hentries]
  simp

theorem previous_between (hview : SettledView stream l 0) (hfull : Full (lines l)) {k : Nat}
    (hk : 1 < k) (hlt : k < (lines l).length) :
    ∃ read streamₖ streamₖ', iterate next k stream = some (read, streamₖ) ∧
      previous streamₖ = some ((entries (lines l))[k - 2]?, streamₖ') := by
  obtain ⟨m, rfl⟩ := Nat.exists_eq_add_of_le' hk
  have hsplit : lines l = ((lines l).take m ++ [(lines l)[m]]) ++
      (lines l)[m + 1] :: (lines l).drop (m + 2) := by
    rw [append_assoc, singleton_append, ← drop_eq_getElem_cons,
      ← drop_eq_getElem_cons, take_append_drop]
  obtain ⟨read, streamₖ, hrun, hviewₖ⟩ := next_run hview
    (take_append_drop (m + 2) (lines l)).symm fun q hq => hfull q (mem_of_mem_take hq)
  obtain ⟨hwithin, heof⟩ := within_end hsplit
    (ne_nil_of_length_pos (by rw [length_drop]; omega)) hviewₖ
  obtain ⟨streamₖ', hback, -⟩ := previous_middle hwithin heof
  obtain ⟨entry, hentry⟩ := isSome_iff_exists.mp (hfull (lines l)[m] (getElem_mem _))
  have hcount := length_entries fun q hq => hfull q (mem_of_mem_take (i := m) hq)
  have hentries : (entries (lines l))[m]? = some entry := by
    rw [hsplit, entries, append_assoc, singleton_append, filterMap_append,
      filterMap_cons_some hentry, ← entries]
    rw [length_take_of_le (by omega)] at hcount
    rw [getElem?_append_right (Nat.le_of_eq hcount), hcount, Nat.sub_self]
    rfl
  rw [nextOf_entry hentry] at hback
  rw [length_take_of_le (by omega)] at hrun
  exact ⟨read, streamₖ, streamₖ', hrun, hback.trans (by rw [Nat.add_sub_cancel, hentries])⟩

theorem reversible_iff (hview : SettledView stream l 0) (hm : Manifest l) :
    Reversible stream ↔ entries (lines l) = [] ∨ Full (lines l) := by
  have hparses : ∀ line ∈ lines l, rowOf line ≠ .failed := fun line hline => (hm line hline).1
  have hcount := length_splitAfter_le (p := (· == 10)) l
  obtain ⟨streamₑ, hforwards, hviewₑ⟩ := readAll_eq hview rfl hparses (Nat.lt_succ_of_le hcount)
  rw [drop_zero, ← hview.size] at hforwards
  constructor
  · rintro ⟨es, stream', hread, ⟨stream'', hback⟩, -⟩
    obtain ⟨rfl, rfl⟩ := Prod.mk.inj (some.inj (hread.symm.trans hforwards))
    by_contra hno
    obtain ⟨hsome, hfull⟩ := not_or.mp hno
    obtain ⟨line', hline'⟩ := not_forall.mp hfull
    obtain ⟨hmem, hnone⟩ := Classical.not_imp.mp hline'
    have hskip : rowOf line' = .skipped := by
      cases hrow : rowOf line' with
      | skipped => rfl
      | failed => exact absurd hrow (hparses line' hmem)
      | entry entry => exact absurd (by rw [entryOf_eq.mpr hrow]; rfl) hnone
    obtain hnil | ⟨before, line, hlines⟩ := eq_nil_or_concat' (lines l)
    · rw [hnil] at hmem
      exact absurd hmem not_mem_nil
    cases hrow : rowOf line with
    | failed => exact absurd hrow (hparses line (by rw [hlines]; simp))
    | skipped =>
      obtain ⟨stream₁, hread, -⟩ := previous_last hlines hviewₑ
      rw [nextOf_skipped hrow] at hread
      rw [iterate, hread, bind_some] at hback
      obtain ⟨rest, -, heq⟩ := map_eq_some_iff.mp hback
      obtain ⟨entry, more, hentries⟩ := exists_cons_of_ne_nil (mt reverse_eq_nil_iff.mp hsome)
      rw [hentries] at heq
      exact absurd (cons.inj (Prod.mk.inj heq).1).1 nofun
    | entry entry =>
      obtain ⟨hpos, hlength⟩ := length_of_last hlines
      have hentry := entryOf_eq.mpr hrow
      refine behind_run hm ⟨before, line, [], entry, ⟨hlines, _, hviewₑ, by omega, by omega⟩,
        hentry, line', mem_of_skipped (hlines ▸ hmem) hskip hentry, hskip⟩ hback (by simp)
  · intro h
    by_cases hnil : entries (lines l) = []
    · obtain ⟨stream', hread⟩ := previous_none hviewₑ hnil
      refine ⟨_, streamₑ, hforwards, ⟨stream', ?_⟩, fun k hk hlt => ?_⟩
      · rw [hnil, length_nil, iterate, hread]
        rfl
      · rw [hnil] at hlt
        exact absurd hlt (Nat.not_lt_zero k)
    · have hfull := h.resolve_left hnil
      obtain hnone | ⟨before, line, hlines⟩ := eq_nil_or_concat' (lines l)
      · exact absurd (by rw [hnone]; rfl) hnil
      refine ⟨_, streamₑ, hforwards, previous_all hm hlines hviewₑ hfull, fun k hk hlt => ?_⟩
      exact previous_between hview hfull hk (length_entries hfull ▸ hlt)

/-- The entries come back exactly if no line of the file is skipped, or all are. -/
theorem previous_reverses (hsize : l.length < 2 ^ 31) (hm : Manifest l) :
    Reversible (.opened l) ↔ entries (lines l) = [] ∨ Full (lines l) :=
  reversible_iff (.of_splice hsize) hm

theorem previous_reverses_two : Reversible (.opened (ascii "D:a\nD:b\n")) := by
  refine (previous_reverses (by decide) ?_).mpr (.inr ?_)
  · unfold Manifest
    decide
  · unfold Full
    decide

/-- Behind an empty line the reader does not get back to the entry before it. -/
theorem previous_stuck : ¬ Reversible (.opened (ascii "D:a\n\nD:b\n")) := by
  have hm : Manifest (ascii "D:a\n\nD:b\n") := by
    unfold Manifest
    decide
  rw [reversible_iff (.of_splice (by decide)) hm]
  unfold Full
  decide

end NikitaFirmware.Update
