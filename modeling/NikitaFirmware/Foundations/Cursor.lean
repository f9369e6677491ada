import Mathlib.Data.List.Basic
import Mathlib.Order.Nat

/-!
# Sequences with a position

A stream that is read, overwritten and searched is a sequence with a position in it. It is kept as
what lies before the position and what lies behind it, so that the position is one of the
sequence by construction.
-/

namespace Foundations

open List
/-- A sequence with a position in it. -/
@[ext] structure Cursor (α : Type*) where
  /-- What lies before the position. -/
  before : List α
  /-- What lies behind the position. -/
  after : List α
deriving DecidableEq

namespace Cursor
variable {α σ ρ : Type*} (c : Cursor α)

/-- The whole sequence. -/
def content : List α := c.before ++ c.after

def tell : Nat := c.before.length

def size : Nat := c.content.length

def eof : Bool := c.after.isEmpty

/-- The position goes to `n`, or to the end of a sequence that is shorter. -/
def moveTo (n : Nat) : Cursor α := ⟨c.content.take n, c.content.drop n⟩

/-- The position goes to a target if there is one there, and to the nearest end otherwise. -/
def seek (target : Int) : Bool × Cursor α :=
  if target < 0 then (false, c.moveTo 0)
  else if c.size < target.toNat then (false, c.moveTo c.size)
  else (true, c.moveTo target.toNat)

/-- The position passes over `n` elements. -/
def advance (n : Nat) : Cursor α := ⟨c.before ++ c.after.take n, c.after.drop n⟩

def read (n : Nat) : List α × Cursor α := (c.after.take n, c.advance n)

/-- The position goes back over elements that were read. -/
def seekBack (offset : Int) : Cursor α := (c.seek (c.tell + offset)).2

/-- The elements at the position are taken out and others put in, with the position behind them. -/
def splice (n : Nat) (data : List α) : Cursor α := ⟨c.before ++ data, c.after.drop n⟩

/-- The elements at the position are overwritten, and the sequence grows at its end. -/
def write (data : List α) : Cursor α := c.splice data.length data

/-- The sequence ends at the position. -/
def truncate : Cursor α := ⟨c.before, []⟩

@[simp] theorem content_mk (l m : List α) : (Cursor.mk l m).content = l ++ m := rfl

@[simp] theorem tell_mk (l m : List α) : (Cursor.mk l m).tell = l.length := rfl

theorem size_eq : c.size = c.tell + c.after.length := length_append

theorem tell_le_size : c.tell ≤ c.size := by
  rw [size_eq]
  exact Nat.le_add_right _ _

theorem eof_iff : c.eof = true ↔ c.tell = c.size := by
  rw [size_eq, eof, List.isEmpty_iff, ← List.length_eq_zero_iff]
  omega

@[simp] theorem content_moveTo (n : Nat) : (c.moveTo n).content = c.content :=
  take_append_drop n c.content

@[simp] theorem size_moveTo (n : Nat) : (c.moveTo n).size = c.size :=
  congrArg length (c.content_moveTo n)

variable {c}

theorem tell_moveTo {n : Nat} (h : n ≤ c.size) : (c.moveTo n).tell = n := length_take_of_le h

variable (c) in
@[simp] theorem moveTo_moveTo (m n : Nat) : (c.moveTo m).moveTo n = c.moveTo n := by
  rw [moveTo, content_moveTo, ← moveTo]

variable (c) in
@[simp] theorem moveTo_tell : c.moveTo c.tell = c :=
  Cursor.ext take_left drop_left

variable (c) in
theorem ext_of_content {d : Cursor α} (hcontent : c.content = d.content) (htell : c.tell = d.tell) :
    c = d := by
  obtain ⟨hbefore, hafter⟩ := append_inj hcontent htell
  exact Cursor.ext hbefore hafter

theorem seek_of_neg {target : Int} (h : target < 0) : c.seek target = (false, c.moveTo 0) := if_pos h

theorem seek_of_le {target : Int} (h : 0 ≤ target) (hle : target.toNat ≤ c.size) :
    c.seek target = (true, c.moveTo target.toNat) := by
  rw [seek, if_neg (by omega), if_neg (by omega)]

theorem seek_natCast {n : Nat} (h : n ≤ c.size) : c.seek n = (true, c.moveTo n) :=
  seek_of_le (Int.natCast_nonneg n) h

theorem seek_of_lt {target : Int} (h : c.size < target.toNat) :
    c.seek target = (false, c.moveTo c.size) := by
  rw [seek, if_neg (by omega), if_pos h]

variable (c) in
@[simp] theorem content_seek (target : Int) : (c.seek target).2.content = c.content := by
  rw [seek]
  split <;> [skip; split] <;> exact c.content_moveTo _

theorem seek_congr {d : Cursor α} (h : c.content = d.content) (target : Int) :
    c.seek target = d.seek target := by
  have hsize : c.size = d.size := congrArg length h
  have hmove : ∀ n, c.moveTo n = d.moveTo n := fun n => by rw [moveTo, h, ← moveTo]
  rw [seek, hsize, hmove, hmove, hmove, ← seek]

theorem seek_length {l m : List α} (h : c.content = l ++ m) {target : Int}
    (htarget : target = l.length) : c.seek target = (true, ⟨l, m⟩) := by
  have hle : l.length ≤ c.size := by
    rw [size, h, length_append]
    exact Nat.le_add_right _ _
  rw [htarget, seek_natCast hle, moveTo, h, take_left, drop_left]

variable (c) in
@[simp] theorem content_advance (n : Nat) : (c.advance n).content = c.content := by
  rw [content, advance, append_assoc, take_append_drop, content]

variable (c) in
@[simp] theorem size_advance (n : Nat) : (c.advance n).size = c.size :=
  congrArg length (c.content_advance n)

theorem tell_advance {n : Nat} (h : n ≤ c.after.length) : (c.advance n).tell = c.tell + n := by
  rw [advance, tell_mk, length_append, length_take_of_le h, tell]

@[simp] theorem advance_zero : c.advance 0 = c := by
  rw [advance, take_zero, append_nil, drop_zero]

theorem advance_eq_moveTo {n : Nat} (h : n ≤ c.after.length) :
    c.advance n = c.moveTo (c.tell + n) := by
  apply ext_of_content
  · rw [content_advance, content_moveTo]
  · rw [tell_advance h, tell_moveTo (by rw [size_eq]; omega)]

theorem seek_advance {n : Nat} (h : n ≤ c.after.length) :
    c.seek ((c.tell : Int) + n) = (true, c.advance n) := by
  rw [← Int.natCast_add, seek_natCast (by rw [size_eq]; omega), advance_eq_moveTo h]

variable (c) in
theorem advance_advance (m n : Nat) : (c.advance m).advance n = c.advance (m + n) := by
  rw [advance, advance, advance, drop_drop, append_assoc, ← take_add]

theorem advance_seek_back {i n : Nat} (hi : i ≤ n) (hn : n ≤ c.after.length) :
    (c.advance n).seek ((c.advance n).tell + ((i : Int) - n)) = (true, c.advance i) := by
  have htarget : ((c.advance n).tell + ((i : Int) - n)) = ((c.tell + i : Nat) : Int) := by
    rw [tell_advance hn]
    omega
  rw [htarget, seek_natCast (by rw [size_advance, size_eq]; omega), advance_eq_moveTo hn,
    moveTo_moveTo, advance_eq_moveTo (Nat.le_trans hi hn)]

variable (c) in
@[simp] theorem write_nil : c.write [] = c := by
  rw [write, splice, append_nil, length_nil, drop_zero]

variable (c) in
theorem write_write (a b : List α) : (c.write a).write b = c.write (a ++ b) := by
  simp only [write, splice, append_assoc, drop_drop, length_append]

variable (c) in
theorem foldl_write (pieces : List (List α)) : pieces.foldl write c = c.write pieces.flatten := by
  induction pieces generalizing c with
  | nil => exact (c.write_nil).symm
  | cons piece pieces ih => rw [foldl_cons, ih, write_write, flatten_cons]

theorem write_at_end (l data : List α) : (Cursor.mk l []).write data = ⟨l ++ data, []⟩ :=
  Cursor.ext rfl drop_nil

@[simp] theorem size_at_end (l : List α) : (Cursor.mk l []).size = l.length := by
  rw [size, content_mk, append_nil]

theorem moveTo_at_end (l m : List α) : (Cursor.mk (l ++ m) []).moveTo l.length = ⟨l, m⟩ := by
  rw [moveTo, content_mk, append_nil, take_left, drop_left]

theorem drop_min_length (n : Nat) (l : List α) : l.drop (min n l.length) = l.drop n := by
  rcases Nat.le_total n l.length with hle | hle
  · rw [Nat.min_eq_left hle]
  · rw [Nat.min_eq_right hle, drop_length, drop_of_length_le hle]

variable (c) in
theorem tell_splice (n : Nat) (data : List α) : (c.splice n data).tell = c.tell + data.length :=
  length_append

variable (c) in
theorem content_splice (n : Nat) (data : List α) :
    (c.splice n data).content = c.content.take c.tell ++ data ++
      c.content.drop (c.tell + min n (c.size - c.tell)) := by
  have hafter : c.size - c.tell = c.after.length := by rw [size_eq, Nat.add_sub_cancel_left]
  rw [hafter, splice, content_mk, content, tell, take_left, drop_length_add_append, drop_min_length]

variable (c) in
theorem tell_write (data : List α) : (c.write data).tell = c.tell + data.length :=
  c.tell_splice _ _

variable (c) in
theorem size_splice (n : Nat) (data : List α) :
    (c.splice n data).size = c.tell + data.length + (c.after.length - n) := by
  rw [size_eq, tell_splice, splice, length_drop]

variable (c) in
theorem size_write (data : List α) : (c.write data).size = max c.size (c.tell + data.length) := by
  rw [write, size_splice, size_eq]
  omega

/-- A reader of one element at a time goes on in a new state, or stops in front of the element. What
comes back is how it ended and how many elements it passed. -/
def scan (step : σ → α → σ ⊕ ρ) : σ → List α → (σ ⊕ ρ) × Nat
  | s, [] => (.inl s, 0)
  | s, x :: l =>
    match step s x with
    | .inl s' => ((scan step s' l).1, (scan step s' l).2 + 1)
    | .inr r => (.inr r, 0)

/-- The loop of a reader that takes blocks of `size` elements: where it stops, the position goes
back to the element in front of which it stopped. -/
def scanLoop (size : Nat) (step : σ → α → σ ⊕ ρ) : Nat → σ → Cursor α → (σ ⊕ ρ) × Cursor α
  | 0, s, c => (.inl s, c)
  | fuel + 1, s, c =>
    if (c.read size).1.length = 0 then (.inl s, (c.read size).2)
    else
      match scan step s (c.read size).1 with
      | (.inl s', _) => scanLoop size step fuel s' (c.read size).2
      | (.inr r, i) => (.inr r, (c.read size).2.seekBack (i - (c.read size).1.length))

/-- No block is empty, so there are at most as many of them as there are elements. -/
def scanBlocks (size : Nat) (step : σ → α → σ ⊕ ρ) (s : σ) (c : Cursor α) : (σ ⊕ ρ) × Cursor α :=
  scanLoop size step (c.after.length + 1) s c

section
variable {step : σ → α → σ ⊕ ρ} {s s' : σ} {r : ρ} {l : List α} {n : Nat}

theorem scan_cons_inl {x : α} (h : step s x = .inl s') :
    scan step s (x :: l) = ((scan step s' l).1, (scan step s' l).2 + 1) := by
  simp only [scan, h]

theorem scan_cons_inr {x : α} (h : step s x = .inr r) : scan step s (x :: l) = (.inr r, 0) := by
  simp only [scan, h]

variable (step) in
theorem scan_snd_le (s : σ) (l : List α) : (scan step s l).2 ≤ l.length := by
  induction l generalizing s with
  | nil => exact Nat.le.refl
  | cons x l ih =>
    cases hx : step s x with
    | inl s' =>
      rw [scan_cons_inl hx]
      exact Nat.succ_le_succ (ih s')
    | inr r =>
      rw [scan_cons_inr hx]
      exact Nat.zero_le _

theorem scan_append_of_inl (h : scan step s l = (.inl s', n)) (m : List α) :
    scan step s (l ++ m) = ((scan step s' m).1, l.length + (scan step s' m).2) := by
  induction l generalizing s n with
  | nil =>
    obtain ⟨hs, -⟩ := Prod.mk.inj h
    cases hs
    rw [nil_append, length_nil, Nat.zero_add]
  | cons x l ih =>
    cases hx : step s x with
    | inl t =>
      rw [scan_cons_inl hx] at h
      obtain ⟨ht, -⟩ := Prod.mk.inj h
      rw [cons_append, scan_cons_inl hx, ih (Prod.ext ht rfl), length_cons]
      exact Prod.ext rfl (by omega)
    | inr r =>
      rw [scan_cons_inr hx] at h
      exact absurd (Prod.mk.inj h).1 (by simp)

theorem scan_append_of_inr (h : scan step s l = (.inr r, n)) (m : List α) :
    scan step s (l ++ m) = (.inr r, n) := by
  induction l generalizing s n with
  | nil => exact absurd (Prod.mk.inj h).1 (by simp)
  | cons x l ih =>
    cases hx : step s x with
    | inl t =>
      rw [scan_cons_inl hx] at h
      obtain ⟨ht, hn⟩ := Prod.mk.inj h
      rw [cons_append, scan_cons_inl hx, ih (Prod.ext ht rfl), hn]
    | inr r =>
      rw [scan_cons_inr hx] at h
      rw [cons_append, scan_cons_inr hx, h]

theorem advance_scan_after {m k : Nat} (hm : m = min c.after.length k) (n : Nat) :
    (c.advance k).advance n = c.advance (m + n) := by
  rcases Nat.le_total k c.after.length with hle | hle
  · rw [hm, Nat.min_eq_right hle, advance_advance]
  · rw [hm, Nat.min_eq_left hle, advance_advance, advance, advance,
      take_of_length_le (by omega), take_of_length_le (by omega),
      drop_of_length_le (by omega), drop_of_length_le (by omega)]

theorem scanLoop_eq {size fuel : Nat} (hsize : 0 < size) (hfuel : c.after.length < fuel) :
    scanLoop size step fuel s c = ((scan step s c.after).1, c.advance (scan step s c.after).2) := by
  induction fuel generalizing s c with
  | zero => exact absurd hfuel (Nat.not_lt_zero _)
  | succ fuel ih =>
    have hafter : c.after.take size ++ (c.advance size).after = c.after :=
      take_append_drop size c.after
    have hlength : (c.after.take size).length = min c.after.length size :=
      (length_take ..).trans (Nat.min_comm ..)
    rw [scanLoop]
    by_cases hempty : (c.after.take size).length = 0
    · have hnil : c.after = [] := length_eq_zero_iff.mp (by omega)
      have hadvance : c.advance size = c := by
        rw [advance, hnil, take_nil, append_nil, drop_nil, ← hnil]
      rw [if_pos (show (c.read size).1.length = 0 from hempty), read, hadvance, hnil]
      simp only [scan, advance_zero]
    · rw [if_neg (show (c.read size).1.length ≠ 0 from hempty), read]
      -- what is left is shorter by a block
      have hrest : (c.advance size).after.length < fuel := by
        rw [advance, length_drop]
        omega
      cases hscan : scan step s (c.after.take size) with
      | mk outcome i =>
        cases outcome with
        | inl s' =>
          have hall := scan_append_of_inl hscan (c.advance size).after
          rw [hafter] at hall
          rw [hall]
          simp only
          rw [ih hrest, advance_scan_after hlength]
        | inr r =>
          have hall := scan_append_of_inr hscan (c.advance size).after
          rw [hafter] at hall
          rw [hall]
          simp only
          have hi : i ≤ (c.after.take size).length := by
            have hle := scan_snd_le step s (c.after.take size)
            rwa [hscan] at hle
          have hback := advance_scan_after hlength 0
          rw [advance_zero, Nat.add_zero] at hback
          rw [hback, seekBack, advance_seek_back hi (by omega)]

theorem scanBlocks_eq {size : Nat} (hsize : 0 < size) (s : σ) (c : Cursor α) :
    scanBlocks size step s c = ((scan step s c.after).1, c.advance (scan step s c.after).2) :=
  scanLoop_eq hsize (Nat.lt_succ_self _)

end

end Cursor

end Foundations
