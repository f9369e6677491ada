import Mathlib.Data.List.DropRight
import Mathlib.Data.List.Infix

/-!
# Cutting a sequence at its last separator

A sequence with a separator in it is cut at the last one in exactly one way. Taking elements of a
class away from both ends leaves a sequence as it is exactly when neither end is of the class.
-/

namespace Foundations
open List
namespace SplitLast

variable {α : Type*} {front back front' back' l : List α} {c : α}

theorem exists_split (h : c ∈ l) : ∃ front back, l = front ++ c :: back ∧ c ∉ back := by
  induction l with
  | nil => exact absurd h not_mem_nil
  | cons d l ih =>
    by_cases hl : c ∈ l
    · obtain ⟨front, back, rfl, hback⟩ := ih hl
      exact ⟨d :: front, back, rfl, hback⟩
    · obtain rfl : c = d := (mem_cons.mp h).resolve_right hl
      exact ⟨[], l, rfl, hl⟩

theorem split_inj (h : c ∉ back) (h' : c ∉ back') :
    front ++ c :: back = front' ++ c :: back' ↔ front = front' ∧ back = back' := by
  constructor
  · intro heq
    obtain ⟨mid, hfront, hback⟩ | ⟨mid, hfront, hback⟩ := append_eq_append_iff.mp heq
    · cases mid with
      | nil => exact ⟨by rw [hfront, append_nil], (cons.inj hback).2⟩
      | cons d mid =>
        rw [(cons.inj hback).2] at h
        exact absurd (mem_append_right mid mem_cons_self) h
    · cases mid with
      | nil => exact ⟨by rw [hfront, append_nil], (cons.inj hback).2.symm⟩
      | cons d mid =>
        rw [(cons.inj hback).2] at h'
        exact absurd (mem_append_right mid mem_cons_self) h'
  · rintro ⟨rfl, rfl⟩
    rfl

section LastIndex
variable [DecidableEq α]

def lastIndex? (c : α) : List α → Option Nat
  | [] => none
  | d :: l =>
    match lastIndex? c l with
    | some i => some (i + 1)
    | none => if d = c then some 0 else none

theorem lastIndex?_of_not_mem (h : c ∉ l) : lastIndex? c l = none := by
  induction l with
  | nil => rfl
  | cons d l ih =>
    have hne : d ≠ c := fun heq => h (heq ▸ mem_cons_self)
    rw [lastIndex?, ih fun hl => h (mem_cons_of_mem d hl), if_neg hne]

theorem lastIndex?_split (h : c ∉ back) :
    lastIndex? c (front ++ c :: back) = some front.length := by
  induction front with
  | nil => rw [nil_append, lastIndex?, lastIndex?_of_not_mem h, if_pos rfl, length_nil]
  | cons d front ih => rw [cons_append, lastIndex?, ih, length_cons]

end LastIndex

variable {p : α → Bool}

/-- Takes the elements of a class away from the end, and then from the front. -/
def trimBoth (p : α → Bool) (l : List α) : List α := (l.rdropWhile p).dropWhile p

theorem rdropWhile_eq_self : l.rdropWhile p = l ↔ ∀ x ∈ l.getLast?, p x = false := by
  rw [rdropWhile_eq_self_iff]
  constructor
  · intro h x hx
    have hne : l ≠ [] := fun hnil => by
      rw [hnil] at hx
      cases hx
    rw [getLast?_eq_some_getLast hne] at hx
    cases hx
    exact eq_false_of_ne_true (h hne)
  · intro h hne
    rw [h _ (getLast?_eq_some_getLast hne)]
    exact Bool.false_ne_true

theorem dropWhile_eq_self : l.dropWhile p = l ↔ ∀ x ∈ l.head?, p x = false := by
  cases l with
  | nil => exact iff_of_true rfl nofun
  | cons d l =>
    cases hd : p d with
    | true =>
      refine iff_of_false (fun heq => ?_) fun h => ?_
      · rw [dropWhile_cons_of_pos hd] at heq
        have hle := (dropWhile_suffix (l := l) p).length_le
        rw [heq, length_cons] at hle
        omega
      · rw [h d rfl] at hd
        exact Bool.false_ne_true hd
    | false =>
      refine iff_of_true (dropWhile_cons_of_neg (by rw [hd]; exact Bool.false_ne_true)) ?_
      rintro x ⟨⟩
      exact hd

theorem trimBoth_eq_self :
    trimBoth p l = l ↔ (∀ x ∈ l.head?, p x = false) ∧ ∀ x ∈ l.getLast?, p x = false := by
  rw [← dropWhile_eq_self, ← rdropWhile_eq_self, trimBoth]
  constructor
  · intro h
    have hend := (dropWhile_suffix (l := l.rdropWhile p) p).length_le
    rw [h] at hend
    have hsame := (List.rdropWhile_prefix p l).eq_of_length_le hend
    rw [hsame] at h
    exact ⟨h, hsame⟩
  · rintro ⟨hfront, hend⟩
    rw [hend, hfront]

theorem trimBoth_of_length_le (h : l.length ≤ (trimBoth p l).length) : trimBoth p l = l := by
  have hend := (List.rdropWhile_prefix p l).length_le
  have hfront := (dropWhile_suffix (l := l.rdropWhile p) p).length_le
  have hsame := (List.rdropWhile_prefix p l).eq_of_length_le (h.trans hfront)
  exact ((dropWhile_suffix p).eq_of_length_le (hend.trans h)).trans hsame

theorem mem_of_mem_trimBoth {x : α} (h : x ∈ trimBoth p l) : x ∈ l :=
  (List.rdropWhile_prefix p l).subset ((dropWhile_suffix p).subset h)

theorem length_trimBoth_le (p : α → Bool) (l : List α) : (trimBoth p l).length ≤ l.length :=
  (dropWhile_suffix p).length_le.trans (List.rdropWhile_prefix p l).length_le

end SplitLast

variable {α : Type*} (p : α → Bool)

/-- The pieces of a sequence. Only the last one may lack its end. -/
def splitAfter : List α → List (List α)
  | [] => []
  | x :: l =>
    if p x then [x] :: splitAfter l
    else (x :: (splitAfter l).headD []) :: (splitAfter l).tail

def Ended (piece : List α) : Prop :=
  ∃ l x, piece = l ++ [x] ∧ p x = true ∧ ∀ y ∈ l, p y = false

variable {p} {piece l : List α} {pieces : List (List α)}

theorem splitAfter_cons_of_end {x : α} (h : p x = true) :
    splitAfter p (x :: l) = [x] :: splitAfter p l := by
  rw [splitAfter, if_pos h]

theorem splitAfter_cons {x : α} (h : p x = false) :
    splitAfter p (x :: l) = (x :: (splitAfter p l).headD []) :: (splitAfter p l).tail := by
  rw [splitAfter, if_neg (by rw [h]; exact Bool.false_ne_true)]

theorem flatten_splitAfter (l : List α) : (splitAfter p l).flatten = l := by
  induction l with
  | nil => rfl
  | cons x l ih =>
    cases hx : p x with
    | true => rw [splitAfter_cons_of_end hx, flatten_cons, ih, singleton_append]
    | false =>
      have hsplit : (splitAfter p l).headD [] ++ (splitAfter p l).tail.flatten = l := by
        cases hpieces : splitAfter p l with
        | nil => rw [← ih, hpieces]; rfl
        | cons piece pieces => rw [← ih, hpieces]; rfl
      rw [splitAfter_cons hx, flatten_cons, cons_append, hsplit]

theorem splitAfter_eq_nil : splitAfter p l = [] ↔ l = [] := by
  refine ⟨fun h => ?_, fun h => by rw [h, splitAfter]⟩
  rw [← flatten_splitAfter (p := p) l, h, flatten_nil]

theorem Ended.splitAfter_append (h : Ended p piece) (rest : List α) :
    splitAfter p (piece ++ rest) = piece :: splitAfter p rest := by
  obtain ⟨l, x, rfl, hx, hl⟩ := h
  induction l with
  | nil => exact splitAfter_cons_of_end hx
  | cons y l ih =>
    rw [cons_append, cons_append, splitAfter_cons (hl y mem_cons_self),
      ih fun z hz => hl z (mem_cons_of_mem y hz)]
    rfl

theorem splitAfter_flatten_append (h : ∀ piece ∈ pieces, Ended p piece) (rest : List α) :
    splitAfter p (pieces.flatten ++ rest) = pieces ++ splitAfter p rest := by
  induction pieces with
  | nil => rfl
  | cons piece pieces ih =>
    rw [flatten_cons, append_assoc, (h piece mem_cons_self).splitAfter_append,
      ih fun q hq => h q (mem_cons_of_mem piece hq), cons_append]

theorem splitAfter_flatten (h : ∀ piece ∈ pieces, Ended p piece) :
    splitAfter p pieces.flatten = pieces := by
  have hsplit := splitAfter_flatten_append h []
  rwa [append_nil, splitAfter, append_nil] at hsplit

theorem length_splitAfter_le (l : List α) : (splitAfter p l).length ≤ l.length := by
  induction l with
  | nil => exact Nat.le_refl 0
  | cons x l ih =>
    cases hx : p x with
    | true =>
      rw [splitAfter_cons_of_end hx]
      exact Nat.succ_le_succ ih
    | false =>
      rw [splitAfter_cons hx, length_cons, length_tail, length_cons]
      omega

theorem piece_of_mem_splitAfter :
    ∀ piece ∈ splitAfter p l, piece ≠ [] ∧ ∀ x ∈ piece.dropLast, p x = false := by
  induction l with
  | nil => simp [splitAfter]
  | cons x l ih =>
    rw [splitAfter]
    split
    · next hx => simpa using ih
    · next hx =>
      cases hl : splitAfter p l with
      | nil => simp
      | cons q qs =>
        rw [hl] at ih
        obtain ⟨⟨hne, hfree⟩, ih⟩ := forall_mem_cons.mp ih
        refine forall_mem_cons.mpr ⟨⟨cons_ne_nil x q, ?_⟩, ih⟩
        simpa [dropLast_cons_of_ne_nil hne, hx] using hfree

theorem ended_of_mem_dropLast : ∀ piece ∈ (splitAfter p l).dropLast, Ended p piece := by
  induction l with
  | nil => simp [splitAfter]
  | cons x l ih =>
    rw [splitAfter]
    split
    · next hx =>
      cases hl : splitAfter p l with
      | nil => simp
      | cons q qs =>
        rw [hl] at ih
        exact forall_mem_cons.mpr ⟨⟨[], x, rfl, hx, by simp⟩, ih⟩
    · next hx =>
      rcases hl : splitAfter p l with - | ⟨q, - | ⟨q', qs⟩⟩
      · simp
      · simp
      · rw [hl] at ih
        obtain ⟨⟨front, y, rfl, hy, hfront⟩, hqs⟩ := forall_mem_cons.mp ih
        refine forall_mem_cons.mpr ⟨⟨x :: front, y, rfl, hy, ?_⟩, hqs⟩
        simpa [hx] using hfront

theorem splitAfter_split {rest : List (List α)} (h : splitAfter p l = pieces ++ rest) :
    l = pieces.flatten ++ rest.flatten ∧
      (rest ≠ [] → (∀ q ∈ pieces, Ended p q) ∧ splitAfter p rest.flatten = rest) := by
  have hl := (flatten_splitAfter (p := p) l).symm
  rw [h, flatten_append] at hl
  refine ⟨hl, fun hne => ?_⟩
  have hended : ∀ q ∈ pieces, Ended p q := by
    intro q hq
    refine ended_of_mem_dropLast (l := l) q ?_
    rw [h, dropLast_append_of_ne_nil hne]
    exact mem_append_left _ hq
  refine ⟨hended, ?_⟩
  rw [hl, splitAfter_flatten_append hended] at h
  exact append_cancel_left h

theorem ended_of_getLast? (h : ∀ x, l.getLast? = some x → p x = true) :
    ∀ piece ∈ splitAfter p l, Ended p piece := by
  induction l with
  | nil => exact fun piece hpiece => absurd hpiece not_mem_nil
  | cons x l ih =>
    intro piece hpiece
    have hl : ∀ y, l.getLast? = some y → p y = true := by
      intro y hy
      refine h y ?_
      rw [getLast?_cons, hy]
      rfl
    cases hx : p x with
    | true =>
      rw [splitAfter_cons_of_end hx] at hpiece
      rcases mem_cons.mp hpiece with rfl | hmem
      · exact ⟨[], x, rfl, hx, fun y hy => absurd hy not_mem_nil⟩
      · exact ih hl piece hmem
    | false =>
      rw [splitAfter_cons hx] at hpiece
      cases hpieces : splitAfter p l with
      | nil =>
        have hnil := splitAfter_eq_nil.mp hpieces
        subst hnil
        have htrue := h x rfl
        rw [hx] at htrue
        exact absurd htrue Bool.false_ne_true
      | cons next pieces =>
        rw [hpieces] at hpiece ih
        rcases mem_cons.mp hpiece with rfl | hmem
        · obtain ⟨m, y, hnext, hy, hm⟩ := ih hl next mem_cons_self
          refine ⟨x :: m, y, congrArg (cons x) hnext, hy, fun z hz => ?_⟩
          rcases mem_cons.mp hz with rfl | hz
          · exact hx
          · exact hm z hz
        · exact ih hl piece (mem_cons_of_mem next hmem)

variable {sep : α}

theorem intercalate_append_of_ne_nil {l rest : List (List α)} (hl : l ≠ []) (h : rest ≠ []) :
    [sep].intercalate (l ++ rest) = [sep].intercalate l ++ sep :: [sep].intercalate rest := by
  induction l with
  | nil => contradiction
  | cons a l ih =>
    by_cases hnil : l = []
    · rw [hnil, singleton_append, intercalate_cons_of_ne_nil h,
        intercalate_singleton, append_assoc, singleton_append]
    · have happend : l ++ rest ≠ [] := append_ne_nil_of_left_ne_nil hnil rest
      rw [cons_append, intercalate_cons_of_ne_nil happend,
        intercalate_cons_of_ne_nil hnil, ih hnil, append_assoc (a ++ [sep])]

variable [DecidableEq α]

theorem splitOn_injective {p q : List α} (h : p.splitOn sep = q.splitOn sep) : p = q := by
  have hp := congrArg [sep].intercalate h
  rwa [intercalate_splitOn, intercalate_splitOn] at hp

theorem intercalate_splitOn_append (p : List α) {rest : List (List α)} (h : rest ≠ []) :
    [sep].intercalate (p.splitOn sep ++ rest) = p ++ sep :: [sep].intercalate rest := by
  rw [intercalate_append_of_ne_nil (splitOn_ne_nil sep p) h, intercalate_splitOn]

theorem splitOn_prefix_iff (p q : List α) :
    p.splitOn sep <+: q.splitOn sep ↔ p ++ [sep] <+: q ++ [sep] := by
  constructor
  · rintro ⟨rest, hrest⟩
    by_cases hnil : rest = []
    · rw [hnil, append_nil] at hrest
      rw [splitOn_injective hrest]
    · -- what follows the components of the first path follows it and a separator
      have hq : q = p ++ sep :: [sep].intercalate rest := by
        rw [← intercalate_splitOn_append p hnil, hrest, intercalate_splitOn]
      refine ⟨[sep].intercalate rest ++ [sep], ?_⟩
      rw [hq, append_assoc, append_assoc]
      rfl
  · rintro ⟨t, ht⟩
    obtain rfl | ⟨t, c, rfl⟩ := t.eq_nil_or_concat
    · rw [append_nil] at ht
      rw [append_cancel_right ht]
    · rw [concat_eq_append, ← append_assoc] at ht
      obtain ⟨hq, -⟩ := append_inj' ht rfl
      rw [← hq, append_assoc, singleton_append, splitOn_append_cons_self]
      exact prefix_append _ _

theorem splitOn_map {f : α → α} (hf : ∀ c, f c = sep ↔ c = sep) (p : List α) :
    (p.map f).splitOn sep = (p.splitOn sep).map (map f) := by
  induction p with
  | nil => rfl
  | cons c p ih =>
    rw [map_cons, splitOn_cons_eq_if_modifyHead, splitOn_cons_eq_if_modifyHead, ih]
    by_cases hc : c = sep
    · rw [if_pos (beq_iff_eq.mpr hc), if_pos (beq_iff_eq.mpr ((hf c).mpr hc))]
      rfl
    · rw [if_neg fun h => hc (beq_iff_eq.mp h), if_neg fun h => hc ((hf c).mp (beq_iff_eq.mp h))]
      cases p.splitOn sep <;> rfl

end Foundations
