import NikitaFirmware.Toolbox.Stream

/-!
# Searching in streams

`stream_seek_to_char` and `stream_read_line` of `lib/toolbox/stream/stream.c`, over the operations of
any stream. They read blocks of 32 bytes and go back into the last one.
-/

namespace NikitaFirmware.Toolbox
open Foundations List Option

namespace Scanners

def streamBufferSize : Nat := 32

inductive StreamDirection
  | forward
  | backward

section
variable {σ : Type} (stream : Transducer σ StreamRequest StreamAnswer)

def streamSeek (s : σ) (offset : Int32) (offsetType : StreamOffset) : Option (Bool × σ) :=
  match stream.step s (.seek offset offsetType) with
  | some (.flag result, s) => some (result, s)
  | _ => none

def streamTell (s : σ) : Option (Nat × σ) :=
  match stream.step s .tell with
  | some (.count position, s) => some (position, s)
  | _ => none

def streamRead (s : σ) (size : Nat) : Option (Bytes × σ) :=
  match stream.step s (.read size) with
  | some (.bytes data, s) => some (data, s)
  | _ => none

def forwardLoop (c : UInt8) : Nat → σ → Option (Bool × σ)
  | 0, _ => none
  | fuel + 1, s =>
    (streamRead stream s streamBufferSize).bind fun block =>
      match block.1.findIdx? (· == c) with
      | some i =>
        (streamSeek stream block.2 (Int32.ofInt ((i : Int) - block.1.length)) .fromCurrent).bind
          fun sought => some (true, sought.2)
      | none =>
        if block.1.length ≠ streamBufferSize then some (false, block.2)
        else forwardLoop c fuel block.2

def streamSeekToCharForward (fuel : Nat) (s : σ) (c : UInt8) : Option (Bool × σ) :=
  (streamSeek stream s 1 .fromCurrent).bind fun next =>
    if !next.1 then some (false, next.2) else forwardLoop stream c fuel next.2

/-- The last place of a byte in a block, as the loop over `cursor` finds it. -/
def lastIdx? (block : Bytes) (c : UInt8) : Option Nat :=
  (block.reverse.findIdx? (· == c)).map fun i => block.length - i - 1

/-- The loop of `stream_seek_to_char_backward`. A check that fails stops the firmware. -/
def backwardLoop (c : UInt8) : Nat → Nat → σ → Option (Bool × σ)
  | 0, _, _ => none
  | fuel + 1, anchor, s =>
    let toRead := if streamBufferSize > anchor then anchor else streamBufferSize
    let anchor := anchor - toRead
    (streamSeek stream s (Int32.ofNat anchor) .fromStart).bind fun sought =>
      if !sought.1 then none
      else
        (streamRead stream sought.2 toRead).bind fun block =>
          match lastIdx? block.1 c with
          | some cursor =>
            (streamSeek stream block.2 (Int32.ofNat (anchor + cursor)) .fromStart).bind fun found =>
              if !found.1 then none else some (true, found.2)
          | none =>
            if block.1.length ≠ streamBufferSize then some (false, block.2)
            else backwardLoop c fuel anchor block.2

def streamSeekToCharBackward (fuel : Nat) (s : σ) (c : UInt8) : Option (Bool × σ) :=
  (streamTell stream s).bind fun anchor =>
    if anchor.1 = 0 then some (false, anchor.2) else backwardLoop stream c fuel anchor.1 anchor.2

def streamSeekToChar (fuel : Nat) (s : σ) (c : UInt8) (direction : StreamDirection) :
    Option (Bool × σ) :=
  (streamTell stream s).bind fun oldPosition =>
    (match direction with
      | .forward => streamSeekToCharForward stream fuel oldPosition.2 c
      | .backward => streamSeekToCharBackward stream fuel oldPosition.2 c).bind fun found =>
        if found.1 then some (true, found.2)
        else
          (streamSeek stream found.2 (Int32.ofNat oldPosition.1) .fromStart).bind fun back =>
            some (false, back.2)

/-- The loop over a block in `stream_read_line`: what goes into the line, and where it ends. -/
def lineScan : Nat → Bytes → Bytes × Option Nat
  | _, [] => ([], none)
  | i, b :: rest =>
    -- the line feed, and the carriage return, which is ignored
    if b = 10 then ([], some i)
    else if b = 13 then lineScan (i + 1) rest
    else (b :: (lineScan (i + 1) rest).1, (lineScan (i + 1) rest).2)

def readLineLoop : Nat → σ → Bytes → Option (Bytes × σ)
  | 0, _, _ => none
  | fuel + 1, s, str =>
    (streamRead stream s streamBufferSize).bind fun block =>
      if block.1.length = 0 then some (str, block.2)
      else
        match lineScan 0 block.1 with
        | (text, some i) =>
          (streamSeek stream block.2 (Int32.ofInt ((i : Int) - block.1.length + 1))
              .fromCurrent).bind fun sought =>
            if !sought.1 then some (str ++ text, sought.2) else some (str ++ text ++ [10], sought.2)
        | (text, none) => readLineLoop fuel block.2 (str ++ text)

def streamReadLine (fuel : Nat) (s : σ) : Option ((Bool × Bytes) × σ) :=
  (readLineLoop stream fuel s []).bind fun read => some ((decide (read.1.length ≠ 0), read.1), read.2)

def readLines (fuel : Nat) : Nat → σ → Option (List Bytes × σ)
  | 0, _ => none
  | calls + 1, s =>
    (streamReadLine stream fuel s).bind fun line =>
      if line.1.1 then
        (readLines fuel calls line.2).bind fun rest => some (line.1.2 :: rest.1, rest.2)
      else some ([], line.2)

/-- The operations of a stream that shows a content and a position in it. -/
structure Shows (view : σ → Bytes → Nat → Prop) : Prop where
  le : ∀ {s l p}, view s l p → p ≤ l.length
  tell : ∀ {s l p}, view s l p → stream.step s .tell = some (.count p, s)
  seekStart : ∀ {s l p} (q : Nat), view s l p → q ≤ l.length →
    ∃ s', stream.step s (.seek (Int32.ofNat q) .fromStart) = some (.flag true, s') ∧ view s' l q
  seekNext : ∀ {s l p}, view s l p → p < l.length →
    ∃ s', stream.step s (.seek 1 .fromCurrent) = some (.flag true, s') ∧ view s' l (p + 1)
  seekEnd : ∀ {s l}, view s l l.length →
    ∃ s' p', stream.step s (.seek 1 .fromCurrent) = some (.flag false, s') ∧ view s' l p'
  read : ∀ {s l p} (n : Nat), view s l p →
    ∃ s', stream.step s (.read n) = some (.bytes ((l.drop p).take n), s') ∧
      view s' l (p + ((l.drop p).take n).length) ∧
      -- from behind what was read every place in it can be reached
      ∀ back : Nat, back ≤ ((l.drop p).take n).length →
        ∃ s'', stream.step s' (.seek (Int32.ofInt (-(back : Int))) .fromCurrent) =
            some (.flag true, s'') ∧ view s'' l (p + ((l.drop p).take n).length - back)

end

variable {σ : Type} {stream : Transducer σ StreamRequest StreamAnswer}
  {view : σ → Bytes → Nat → Prop} {s : σ} {l : Bytes} {p fuel : Nat} {c : UInt8}

theorem streamSeek_eq {s' : σ} {offset : Int32} {kind : StreamOffset} {result : Bool}
    (h : stream.step s (.seek offset kind) = some (.flag result, s')) :
    streamSeek stream s offset kind = some (result, s') := by
  rw [streamSeek, h]

theorem streamRead_eq {s' : σ} {n : Nat} {data : Bytes}
    (h : stream.step s (.read n) = some (.bytes data, s')) :
    streamRead stream s n = some (data, s') := by
  rw [streamRead, h]

theorem streamTell_eq (h : stream.step s .tell = some (.count p, s)) :
    streamTell stream s = some (p, s) := by
  rw [streamTell, h]

theorem getElem?_block {n j : Nat} (hj : j < n) : ((l.drop p).take n)[j]? = l[p + j]? := by
  rw [getElem?_take_of_lt hj, getElem?_drop]

theorem length_block (n : Nat) : ((l.drop p).take n).length = min n (l.length - p) := by
  rw [length_take, length_drop]

theorem findIdx?_eq_some {block : Bytes} {i : Nat} (h : block.findIdx? (· == c) = some i) :
    block[i]? = some c ∧ ∀ j < i, block[j]? ≠ some c := by
  obtain ⟨hi, hc, hbefore⟩ := findIdx?_eq_some_iff_getElem.mp h
  refine ⟨?_, fun j hj hbyte => ?_⟩
  · rw [List.getElem?_eq_getElem hi, eq_of_beq hc]
  · obtain ⟨hlt, hget⟩ := List.getElem?_eq_some_iff.mp hbyte
    have hne := hbefore j hj
    rw [hget, beq_self_eq_true] at hne
    exact hne rfl

theorem findIdx?_eq_none {block : Bytes} (h : block.findIdx? (· == c) = none) (j : Nat) :
    block[j]? ≠ some c := by
  intro hbyte
  have hmem := mem_of_getElem? hbyte
  have hne := List.findIdx?_eq_none_iff.mp h c hmem
  rw [beq_self_eq_true] at hne
  exact Bool.false_ne_true hne.symm

theorem lastIdx?_eq_some {block : Bytes} {i : Nat} (h : lastIdx? block c = some i) :
    block[i]? = some c ∧ ∀ j, i < j → block[j]? ≠ some c := by
  obtain ⟨k, hk, rfl⟩ := map_eq_some_iff.mp h
  obtain ⟨hc, hbefore⟩ := findIdx?_eq_some hk
  have hlt : k < block.length := by
    have hlt := (List.getElem?_eq_some_iff.mp hc).1
    rwa [length_reverse] at hlt
  rw [List.getElem?_reverse hlt] at hc
  have hindex : block.length - k - 1 = block.length - 1 - k := by omega
  refine ⟨hindex ▸ hc, fun j hj hbyte => ?_⟩
  have hjlt := (List.getElem?_eq_some_iff.mp hbyte).1
  refine hbefore (block.length - 1 - j) (by omega) ?_
  have hback : block.length - 1 - (block.length - 1 - j) = j := by omega
  rw [List.getElem?_reverse (by omega), hback, hbyte]

theorem lastIdx?_eq_none {block : Bytes} (h : lastIdx? block c = none) (j : Nat) :
    block[j]? ≠ some c := by
  intro hbyte
  have hlt := (List.getElem?_eq_some_iff.mp hbyte).1
  refine findIdx?_eq_none (map_eq_none_iff.mp h) (block.length - 1 - j) ?_
  have hback : block.length - 1 - (block.length - 1 - j) = j := by omega
  rw [List.getElem?_reverse (by omega), hback, hbyte]

theorem forwardLoop_eq (hshows : Shows stream view) (hview : view s l p)
    (hfuel : l.length - p < fuel) :
    (∃ s' q, forwardLoop stream c fuel s = some (true, s') ∧ view s' l q ∧ p ≤ q ∧
        l[q]? = some c ∧ ∀ j, p ≤ j → j < q → l[j]? ≠ some c) ∨
      ∃ s' q, forwardLoop stream c fuel s = some (false, s') ∧ view s' l q ∧
        ∀ j, p ≤ j → l[j]? ≠ some c := by
  induction fuel generalizing s p with
  | zero => exact absurd hfuel (Nat.not_lt_zero _)
  | succ fuel ih =>
    obtain ⟨s₁, hread, hview₁, hback⟩ := hshows.read streamBufferSize hview
    have hlength := @length_block l p streamBufferSize
    have hbyte : ∀ j, p ≤ j → j < p + streamBufferSize →
        ((l.drop p).take streamBufferSize)[j - p]? = l[j]? := by
      intro j hle hlt
      have hindex : p + (j - p) = j := by omega
      rw [getElem?_block (by omega), hindex]
    rw [forwardLoop, streamRead_eq hread, bind_some]
    generalize (l.drop p).take streamBufferSize = block at hlength hbyte hview₁ hback ⊢
    unfold streamBufferSize at hlength hbyte ⊢
    cases hfind : block.findIdx? (· == c) with
    | some i =>
      obtain ⟨hfound, hbefore⟩ := findIdx?_eq_some hfind
      have hi : i < block.length := (List.getElem?_eq_some_iff.mp hfound).1
      obtain ⟨s₂, hseek, hview₂⟩ := hback (block.length - i) (by omega)
      have hoffset : -((block.length - i : Nat) : Int) = (i : Int) - block.length := by omega
      have hplace : p + block.length - (block.length - i) = p + i := by omega
      rw [hoffset] at hseek
      rw [hplace] at hview₂
      refine .inl ⟨s₂, p + i, ?_, hview₂, Nat.le_add_right p i, ?_, fun j hle hlt => ?_⟩
      · show (streamSeek stream s₁ _ _).bind _ = _
        rw [streamSeek_eq hseek, bind_some]
      · rw [← hbyte (p + i) (Nat.le_add_right p i) (by omega), Nat.add_sub_cancel_left, hfound]
      · rw [← hbyte j hle (by omega)]
        exact hbefore (j - p) (by omega)
    | none =>
      have hnone := findIdx?_eq_none hfind
      by_cases hshort : block.length ≠ 32
      · -- a short block is the last one
        refine .inr ⟨s₁, _, if_pos hshort, hview₁, fun j hle hc => ?_⟩
        have hlt := (List.getElem?_eq_some_iff.mp hc).1
        rw [← hbyte j hle (by omega)] at hc
        exact hnone _ hc
      · have hfull : block.length = 32 := Decidable.not_not.mp hshort
        have hclear : ∀ j, p ≤ j → j < p + 32 → l[j]? ≠ some c := by
          intro j hle hlt hc
          rw [← hbyte j hle hlt] at hc
          exact hnone _ hc
        have hgo : (if block.length ≠ 32 then some (false, s₁) else forwardLoop stream c fuel s₁) =
            forwardLoop stream c fuel s₁ := if_neg hshort
        rw [hfull] at hview₁
        show (∃ s' q, (if block.length ≠ 32 then some (false, s₁)
          else forwardLoop stream c fuel s₁) = _ ∧ _) ∨ ∃ s' q, (if block.length ≠ 32 then
            some (false, s₁) else forwardLoop stream c fuel s₁) = _ ∧ _
        rw [hgo]
        refine (ih hview₁ (by omega)).imp ?_ ?_
        · rintro ⟨s', q, hloop, hview', hle, hfound, hbefore⟩
          refine ⟨s', q, hloop, hview', by omega, hfound, fun j hj hlt => ?_⟩
          by_cases hblock : j < p + 32
          · exact hclear j hj hblock
          · exact hbefore j (by omega) hlt
        · rintro ⟨s', q, hloop, hview', hbefore⟩
          refine ⟨s', q, hloop, hview', fun j hj => ?_⟩
          by_cases hblock : j < p + 32
          · exact hclear j hj hblock
          · exact hbefore j (by omega)

theorem backwardLoop_eq {anchor : Nat} (hshows : Shows stream view) (hview : view s l p)
    (hanchor : anchor ≤ l.length) (hfuel : anchor < fuel) :
    (∃ s' q, backwardLoop stream c fuel anchor s = some (true, s') ∧ view s' l q ∧ q < anchor ∧
        l[q]? = some c ∧ ∀ j, q < j → j < anchor → l[j]? ≠ some c) ∨
      ∃ s' q, backwardLoop stream c fuel anchor s = some (false, s') ∧ view s' l q ∧
        ∀ j < anchor, l[j]? ≠ some c := by
  induction fuel generalizing s p anchor with
  | zero => exact absurd hfuel (Nat.not_lt_zero _)
  | succ fuel ih =>
    rw [backwardLoop]
    unfold streamBufferSize
    generalize htoRead : (if 32 > anchor then anchor else 32) = toRead
    have hcases : toRead = min 32 anchor := by
      rw [← htoRead]
      split <;> omega
    obtain ⟨s₁, hseek, hview₁⟩ := hshows.seekStart (anchor - toRead) hview (by omega)
    obtain ⟨s₂, hread, hview₂, -⟩ := hshows.read toRead hview₁
    have hlength := @length_block l (anchor - toRead) toRead
    have hbyte : ∀ j, anchor - toRead ≤ j → j < anchor →
        ((l.drop (anchor - toRead)).take toRead)[j - (anchor - toRead)]? = l[j]? := by
      intro j hle hlt
      have hindex : anchor - toRead + (j - (anchor - toRead)) = j := by omega
      rw [getElem?_block (by omega), hindex]
    rw [streamSeek_eq hseek, bind_some, if_neg (by simp), streamRead_eq hread,
      bind_some]
    generalize (l.drop (anchor - toRead)).take toRead = block at hlength hbyte hview₂ ⊢
    cases hfind : lastIdx? block c with
    | some i =>
      obtain ⟨hfound, hbehind⟩ := lastIdx?_eq_some hfind
      have hi : i < block.length := (List.getElem?_eq_some_iff.mp hfound).1
      obtain ⟨s₃, hseek', hview₃⟩ := hshows.seekStart (anchor - toRead + i) hview₂ (by omega)
      refine .inl ⟨s₃, anchor - toRead + i, ?_, hview₃, by omega, ?_, fun j hle hlt => ?_⟩
      · show (streamSeek stream s₂ _ _).bind _ = _
        rw [streamSeek_eq hseek', bind_some, if_neg (by simp)]
      · rw [← hbyte _ (Nat.le_add_right _ i) (by omega), Nat.add_sub_cancel_left, hfound]
      · rw [← hbyte j (by omega) hlt]
        exact hbehind _ (by omega)
    | none =>
      have hnone := lastIdx?_eq_none hfind
      -- nothing in this block: the next one ends where it begins
      have hclear : ∀ j, anchor - toRead ≤ j → j < anchor → l[j]? ≠ some c := by
        intro j hle hlt hc
        rw [← hbyte j hle hlt] at hc
        exact hnone _ hc
      dsimp only
      by_cases hshort : block.length ≠ 32
      · -- a short block begins at the start
        rw [if_pos hshort]
        exact .inr ⟨s₂, _, rfl, hview₂, fun j hlt => hclear j (by omega) hlt⟩
      · rw [if_neg hshort]
        refine (@ih s₂ _ (anchor - toRead) hview₂ (by omega) (by omega)).imp ?_ ?_
        · rintro ⟨s', q, hloop, hview', hlt, hfound, hbehind⟩
          refine ⟨s', q, hloop, hview', by omega, hfound, fun j hj hj' => ?_⟩
          by_cases hblock : j < anchor - toRead
          · exact hbehind j hj hblock
          · exact hclear j (by omega) hj'
        · rintro ⟨s', q, hloop, hview', hbehind⟩
          refine ⟨s', q, hloop, hview', fun j hj => ?_⟩
          by_cases hblock : j < anchor - toRead
          · exact hbehind j hblock
          · exact hclear j (by omega) hj

/-- What a search forwards answers and where it leaves the position: the nearest place of the byte
behind the old one, or the old one if there is none. -/
def FoundForward (l : Bytes) (p : Nat) (c : UInt8) (result : Bool) (q : Nat) : Prop :=
  (result = true ∧ p < q ∧ l[q]? = some c ∧ ∀ j, p < j → j < q → l[j]? ≠ some c) ∨
    (result = false ∧ q = p ∧ ∀ j, p < j → l[j]? ≠ some c)

def FoundBackward (l : Bytes) (p : Nat) (c : UInt8) (result : Bool) (q : Nat) : Prop :=
  (result = true ∧ q < p ∧ l[q]? = some c ∧ ∀ j, q < j → j < p → l[j]? ≠ some c) ∨
    (result = false ∧ q = p ∧ ∀ j < p, l[j]? ≠ some c)

theorem rollback (hshows : Shows stream view) {q : Nat} {s₁ : σ} (hview₁ : view s₁ l q)
    (hp : p ≤ l.length) :
    ∃ s', ((streamSeek stream s₁ (Int32.ofNat p) .fromStart).bind fun back =>
      some (false, back.2)) = some (false, s') ∧ view s' l p := by
  obtain ⟨s', hseek, hview'⟩ := hshows.seekStart p hview₁ hp
  exact ⟨s', by rw [streamSeek_eq hseek, bind_some], hview'⟩

theorem streamSeekToChar_forward (hshows : Shows stream view) (hview : view s l p) (c : UInt8)
    (hfuel : l.length < fuel) :
    ∃ result s' q, streamSeekToChar stream fuel s c .forward = some (result, s') ∧ view s' l q ∧
      FoundForward l p c result q := by
  have hp := hshows.le hview
  rw [streamSeekToChar, streamTell_eq (hshows.tell hview), bind_some]
  show ∃ result s' q, ((streamSeekToCharForward stream fuel s c).bind _) = _ ∧ _
  rw [streamSeekToCharForward]
  rcases Nat.lt_or_ge p l.length with hlt | hge
  · obtain ⟨s₁, hseek, hview₁⟩ := hshows.seekNext hview hlt
    rw [streamSeek_eq hseek, bind_some]
    show ∃ result s' q, ((forwardLoop stream c fuel s₁).bind _) = _ ∧ _
    rcases @forwardLoop_eq _ _ _ s₁ l (p + 1) fuel c hshows hview₁ (by omega) with
      ⟨s', q, hloop, hview', hle, hfound, hbefore⟩ | ⟨s₂, q, hloop, hview₂, hnone⟩
    · rw [hloop, bind_some]
      exact ⟨true, s', q, rfl, hview', .inl ⟨rfl, hle, hfound, hbefore⟩⟩
    · obtain ⟨s', hback, hview'⟩ := rollback hshows hview₂ hp
      rw [hloop, bind_some]
      exact ⟨false, s', p, hback, hview', .inr ⟨rfl, rfl, hnone⟩⟩
  · obtain rfl : p = l.length := by omega
    obtain ⟨s₁, q, hseek, hview₁⟩ := hshows.seekEnd hview
    obtain ⟨s', hback, hview'⟩ := rollback hshows hview₁ (Nat.le_refl l.length)
    rw [streamSeek_eq hseek, bind_some]
    refine ⟨false, s', l.length, hback, hview', .inr ⟨rfl, rfl, fun j hj hc => ?_⟩⟩
    have hlt := (List.getElem?_eq_some_iff.mp hc).1
    omega

theorem streamSeekToChar_backward (hshows : Shows stream view) (hview : view s l p) (c : UInt8)
    (hfuel : l.length < fuel) :
    ∃ result s' q, streamSeekToChar stream fuel s c .backward = some (result, s') ∧ view s' l q ∧
      FoundBackward l p c result q := by
  have hp := hshows.le hview
  rw [streamSeekToChar, streamTell_eq (hshows.tell hview), bind_some]
  show ∃ result s' q, ((streamSeekToCharBackward stream fuel s c).bind _) = _ ∧ _
  rw [streamSeekToCharBackward, streamTell_eq (hshows.tell hview), bind_some]
  by_cases hzero : p = 0
  · obtain ⟨s', hback, hview'⟩ := rollback hshows hview hp
    rw [if_pos hzero]
    exact ⟨false, s', p, hback, hview', .inr ⟨rfl, rfl, fun j hj => absurd hj (by omega)⟩⟩
  · rw [if_neg hzero]
    rcases @backwardLoop_eq _ _ _ s l p fuel c p hshows hview hp (by omega) with
      ⟨s', q, hloop, hview', hlt, hfound, hbehind⟩ | ⟨s₂, q, hloop, hview₂, hnone⟩
    · rw [hloop, bind_some]
      exact ⟨true, s', q, rfl, hview', .inl ⟨rfl, hlt, hfound, hbehind⟩⟩
    · obtain ⟨s', hback, hview'⟩ := rollback hshows hview₂ hp
      rw [hloop, bind_some]
      exact ⟨false, s', p, hback, hview', .inr ⟨rfl, rfl, hnone⟩⟩

/-- A line without carriage returns, and what lies behind its line feed. -/
def splitLine : Bytes → Bytes × Bytes
  | [] => ([], [])
  | b :: rest =>
    if b = 10 then ([10], rest)
    else if b = 13 then splitLine rest
    else (b :: (splitLine rest).1, (splitLine rest).2)

theorem lineScan_some (block more : Bytes) {i k : Nat} {text : Bytes}
    (h : lineScan k block = (text, some i)) :
    k ≤ i ∧ i < k + block.length ∧
      splitLine (block ++ more) = (text ++ [10], block.drop (i + 1 - k) ++ more) := by
  induction block generalizing k text with
  | nil => exact absurd (Prod.mk.inj h).2 (by simp)
  | cons b rest ih =>
    rw [lineScan] at h
    rw [cons_append, splitLine, length_cons]
    split at h
    · next hline =>
      obtain ⟨rfl, hi⟩ := Prod.mk.inj h
      obtain rfl := some.inj hi
      have hindex : k + 1 - k = 1 := by omega
      rw [if_pos hline, hindex, drop_one, tail_cons]
      exact ⟨Nat.le_refl k, by omega, rfl⟩
    · next hline =>
      split at h
      · next hreturn =>
        obtain ⟨hle, hlt, hsplit⟩ := ih h
        have hindex : i + 1 - k = i + 1 - (k + 1) + 1 := by omega
        rw [if_neg hline, if_pos hreturn, hsplit, hindex, drop_succ_cons]
        exact ⟨by omega, by omega, rfl⟩
      · next hreturn =>
        obtain ⟨rfl, hsome⟩ := Prod.mk.inj h
        obtain ⟨hle, hlt, hsplit⟩ := ih (Prod.ext rfl hsome)
        have hindex : i + 1 - k = i + 1 - (k + 1) + 1 := by omega
        rw [if_neg hline, if_neg hreturn, hsplit, hindex, drop_succ_cons]
        exact ⟨by omega, by omega, rfl⟩

theorem lineScan_none (block more : Bytes) {k : Nat} {text : Bytes}
    (h : lineScan k block = (text, none)) :
    splitLine (block ++ more) = (text ++ (splitLine more).1, (splitLine more).2) := by
  induction block generalizing k text with
  | nil =>
    obtain ⟨rfl, -⟩ := Prod.mk.inj h
    rfl
  | cons b rest ih =>
    rw [lineScan] at h
    rw [cons_append, splitLine]
    split at h
    · exact absurd (Prod.mk.inj h).2 (by simp)
    · next hline =>
      split at h
      · next hreturn => rw [if_neg hline, if_pos hreturn, ih h]
      · next hreturn =>
        obtain ⟨rfl, hnone⟩ := Prod.mk.inj h
        rw [if_neg hline, if_neg hreturn, ih (Prod.ext rfl hnone)]
        rfl

theorem splitLine_suffix (rest : Bytes) : (splitLine rest).2 <:+ rest := by
  induction rest with
  | nil => exact suffix_refl []
  | cons b rest ih =>
    rw [splitLine]
    split
    · exact suffix_cons b rest
    · split <;> exact ih.trans (suffix_cons b rest)

theorem drop_splitLine (l : Bytes) (p : Nat) :
    l.drop (l.length - (splitLine (l.drop p)).2.length) = (splitLine (l.drop p)).2 := by
  obtain ⟨front, hfront⟩ := (splitLine_suffix (l.drop p)).trans (drop_suffix p l)
  have hlen : l.length - (splitLine (l.drop p)).2.length = front.length := by
    rw [← hfront, length_append]
    rw [hfront]
    omega
  rw [hlen]
  nth_rewrite 1 [← hfront]
  exact drop_left

theorem readLineLoop_eq (hshows : Shows stream view) (hview : view s l p) (str : Bytes)
    (hfuel : l.length - p < fuel) :
    ∃ s', readLineLoop stream fuel s str = some (str ++ (splitLine (l.drop p)).1, s') ∧
      view s' l (l.length - (splitLine (l.drop p)).2.length) := by
  induction fuel generalizing s p str with
  | zero => exact absurd hfuel (Nat.not_lt_zero _)
  | succ fuel ih =>
    obtain ⟨s₁, hread, hview₁, hback⟩ := hshows.read streamBufferSize hview
    have hp := hshows.le hview
    have hlength := @length_block l p streamBufferSize
    have hrest : l.drop p = (l.drop p).take streamBufferSize ++
        l.drop (p + ((l.drop p).take streamBufferSize).length) := by
      rw [← drop_drop, hlength, ← length_drop, Cursor.drop_min_length, take_append_drop]
    rw [readLineLoop, streamRead_eq hread, bind_some]
    dsimp only
    generalize (l.drop p).take streamBufferSize = block at hlength hrest hview₁ hback ⊢
    unfold streamBufferSize at hlength
    by_cases hend : block.length = 0
    · have hnil : l.drop p = [] := by
        rw [hrest, length_eq_zero_iff.mp hend]
        exact drop_of_length_le (by rw [length_nil]; omega)
      rw [if_pos hend, hnil]
      refine ⟨s₁, by rw [splitLine, append_nil], ?_⟩
      have hplace : p + block.length = l.length - 0 := by
        have hlen := congrArg length hnil
        rw [length_drop, length_nil] at hlen
        omega
      exact hplace ▸ hview₁
    · rw [if_neg hend]
      cases hscan : lineScan 0 block with
      | mk text line =>
        cases line with
        | some i =>
          obtain ⟨-, hi, hsplit⟩ := lineScan_some block (l.drop (p + block.length)) hscan
          rw [Nat.zero_add] at hi
          rw [← hrest, Nat.sub_zero] at hsplit
          obtain ⟨s₂, hseek, hview₂⟩ := hback (block.length - (i + 1)) (by omega)
          have hoffset : -((block.length - (i + 1) : Nat) : Int) = (i : Int) - block.length + 1 := by
            omega
          rw [hoffset] at hseek
          have hplace : p + block.length - (block.length - (i + 1)) =
              l.length - (block.drop (i + 1) ++ l.drop (p + block.length)).length := by
            rw [length_append, length_drop, length_drop]
            omega
          rw [hplace] at hview₂
          dsimp only
          rw [streamSeek_eq hseek, bind_some, if_neg (by simp), hsplit, ← append_assoc]
          exact ⟨s₂, rfl, hview₂⟩
        | none =>
          have hsplit := lineScan_none block (l.drop (p + block.length)) hscan
          rw [← hrest] at hsplit
          obtain ⟨s', hloop, hview'⟩ := ih hview₁ (str ++ text) (by omega)
          dsimp only
          rw [hloop, hsplit, append_assoc]
          exact ⟨s', rfl, hview'⟩

theorem streamReadLine_eq (hshows : Shows stream view) (hview : view s l p)
    (hfuel : l.length < fuel) :
    ∃ s', streamReadLine stream fuel s =
        some ((decide ((splitLine (l.drop p)).1.length ≠ 0), (splitLine (l.drop p)).1), s') ∧
      view s' l (l.length - (splitLine (l.drop p)).2.length) := by
  obtain ⟨s', hloop, hview'⟩ := @readLineLoop_eq _ _ _ s l p fuel hshows hview [] (by omega)
  exact ⟨s', by rw [streamReadLine, hloop]; rfl, hview'⟩

theorem not_mem_dropLast (rest : Bytes) : 10 ∉ (splitLine rest).1.dropLast := by
  induction rest with
  | nil => exact not_mem_nil
  | cons b rest ih =>
    rw [splitLine]
    split
    · exact not_mem_nil
    · next hline =>
      split
      · exact ih
      · dsimp only
        cases hrest : (splitLine rest).1 with
        | nil => exact not_mem_nil
        | cons x line =>
          rw [hrest] at ih
          rw [dropLast_cons_cons, mem_cons, not_or]
          exact ⟨fun h => hline h.symm, ih⟩

theorem getLast?_splitLine {rest : Bytes} (h : (splitLine rest).2 ≠ []) :
    (splitLine rest).1.getLast? = some 10 := by
  induction rest with
  | nil => exact absurd rfl h
  | cons b rest ih =>
    rw [splitLine] at h ⊢
    split at h
    · next hline =>
      rw [if_pos hline]
      rfl
    · next hline =>
      rw [if_neg hline]
      split at h
      · next hreturn =>
        rw [if_pos hreturn]
        exact ih h
      · next hreturn =>
        rw [if_neg hreturn]
        dsimp only at h ⊢
        rw [getLast?_cons, ih h]
        rfl

theorem filter_splitLine (rest : Bytes) :
    rest.filter (· ≠ 13) = (splitLine rest).1 ++ (splitLine rest).2.filter (· ≠ 13) := by
  induction rest with
  | nil => rfl
  | cons b rest ih =>
    rw [splitLine]
    split
    · next hline =>
      rw [hline]
      rfl
    · split
      · next hreturn =>
        rw [← ih, hreturn]
        rfl
      · next hreturn =>
        have hfilter : (b :: rest).filter (· ≠ 13) = b :: rest.filter (· ≠ 13) :=
          filter_cons_of_pos (decide_eq_true hreturn)
        rw [hfilter, ih]
        rfl

theorem length_splitLine_lt {rest : Bytes} (h : rest ≠ []) :
    (splitLine rest).2.length < rest.length := by
  cases rest with
  | nil => exact absurd rfl h
  | cons b rest =>
    have hle : (splitLine (b :: rest)).2.length ≤ rest.length := by
      rw [splitLine]
      split
      · exact Nat.le_refl _
      · split <;> exact (splitLine_suffix rest).length_le
    exact Nat.lt_succ_of_le hle

/-- The lines of a content: together they are the content without carriage returns, and each one ends
at its line feed, where only the last one may have none. -/
structure LinesOf (rest : Bytes) (lines : List Bytes) : Prop where
  flatten : lines.flatten = rest.filter (· ≠ 13)
  line : ∀ line ∈ lines, line ≠ [] ∧ 10 ∉ line.dropLast
  ends : ∀ line ∈ lines.dropLast, line.getLast? = some 10

theorem LinesOf.cons {rest : Bytes} {lines : List Bytes} (hne : (splitLine rest).1 ≠ [])
    (h : LinesOf (splitLine rest).2 lines) : LinesOf rest ((splitLine rest).1 :: lines) := by
  refine ⟨?_, ?_, ?_⟩
  · rw [flatten_cons, h.flatten, ← filter_splitLine]
  · intro line hline
    rcases mem_cons.mp hline with rfl | hmem
    · exact ⟨hne, not_mem_dropLast rest⟩
    · exact h.line line hmem
  · intro line hline
    cases hlines : lines with
    | nil =>
      rw [hlines] at hline
      exact absurd hline not_mem_nil
    | cons next lines' =>
      rw [hlines, dropLast_cons_cons, ← hlines] at hline
      rcases mem_cons.mp hline with rfl | hmem
      · refine getLast?_splitLine fun hnil => ?_
        have hflatten := h.flatten
        rw [hnil, hlines, flatten_cons] at hflatten
        have hnext := (h.line next (by rw [hlines]; exact mem_cons_self)).1
        exact hnext (append_eq_nil_iff.mp hflatten).1
      · exact h.ends line hmem

theorem readLines_eq (hshows : Shows stream view) (hview : view s l p) (hfuel : l.length < fuel)
    {calls : Nat} (hcalls : l.length - p < calls) :
    ∃ lines s', readLines stream fuel calls s = some (lines, s') ∧ LinesOf (l.drop p) lines := by
  induction calls generalizing s p with
  | zero => exact absurd hcalls (Nat.not_lt_zero _)
  | succ calls ih =>
    obtain ⟨s₁, hline, hview₁⟩ := streamReadLine_eq hshows hview hfuel
    rw [readLines, hline, bind_some]
    dsimp only
    by_cases hempty : (splitLine (l.drop p)).1 = []
    · have hnil : (splitLine (l.drop p)).2 = [] := by
        by_contra hne
        have hlast := getLast?_splitLine hne
        rw [hempty] at hlast
        cases hlast
      have hflatten := filter_splitLine (l.drop p)
      rw [hempty, hnil] at hflatten
      rw [hempty]
      refine ⟨[], s₁, rfl, hflatten.symm, fun line h => absurd h not_mem_nil,
        fun line h => absurd h not_mem_nil⟩
    · have hlength : (splitLine (l.drop p)).1.length ≠ 0 := fun h =>
        hempty (length_eq_zero_iff.mp h)
      have hrest : l.drop p ≠ [] := by
        intro hnil
        rw [hnil] at hempty
        exact hempty rfl
      have hshorter := length_splitLine_lt hrest
      rw [length_drop] at hshorter
      obtain ⟨lines, s', hlines, hof⟩ := ih hview₁ (by omega)
      rw [drop_splitLine] at hof
      rw [decide_eq_true hlength, if_pos rfl, hlines]
      exact ⟨_, s', rfl, hof.cons hempty⟩

end Scanners
end NikitaFirmware.Toolbox
