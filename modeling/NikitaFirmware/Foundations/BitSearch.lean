import Mathlib.Data.List.Nodup
import Mathlib.Data.List.Perm.Subperm
import Mathlib.Order.Nat

/-!
# The search for items by their bits

Items answer with a bit of theirs and its complement at every position, all of them at once, so that a
searcher sees whether all have a one, all have a zero, or both occur. At such a conflict it takes a
direction, and the items that disagree drop out.
-/

namespace Foundations.BitSearch

open List
variable {α : Type*} (bit : α → Nat → Bool)

def kept (S : List α) (i : Nat) (b : Bool) : List α := S.filter fun p => bit p i == b

/-- Both values occur, or no item is there. -/
def conflict (S : List α) (i : Nat) : Bool := S.all (bit · i) == S.all (!bit · i)

def direction (saved : Nat → Bool) (d : Nat) (S : List α) (i : Nat) : Bool :=
  if conflict bit S i then if i < d then saved i else decide (i = d) else S.all (bit · i)

/-- The search over `n` positions from `i` on: the items that are left, and the last conflict at which
zero was taken. -/
def descend (saved : Nat → Bool) (d : Nat) : Nat → Nat → List α → Nat → List α × Nat
  | 0, _, S, lastZero => (S, lastZero)
  | n + 1, i, S, lastZero =>
    let b := direction bit saved d S i
    descend saved d n (i + 1) (kept bit S i b) (if conflict bit S i ∧ b = false then i else lastZero)

/-- The items in the order of their bits. -/
def order : Nat → Nat → List α → List α
  | 0, _, S => S
  | n + 1, i, S => order n (i + 1) (kept bit S i false) ++ order n (i + 1) (kept bit S i true)

def lastZero : Nat → Nat → List α → α → Nat → Nat
  | 0, _, _, _, z => z
  | n + 1, i, S, p, z =>
    lastZero n (i + 1) (kept bit S i (bit p i)) p
      (if conflict bit S i ∧ bit p i = false then i else z)

/-- No two items agree on all of the positions. -/
def Distinct (n i : Nat) (S : List α) : Prop :=
  S.Nodup ∧ ∀ p ∈ S, ∀ q ∈ S, (∀ j, i ≤ j → j < i + n → bit p j = bit q j) → p = q

variable {bit} {S : List α} {n i : Nat}

variable {p : α}

theorem mem_kept {b : Bool} : p ∈ kept bit S i b ↔ p ∈ S ∧ bit p i = b := by
  rw [kept, mem_filter, beq_iff_eq]

theorem Distinct.kept (h : Distinct bit (n + 1) i S) (b : Bool) :
    Distinct bit n (i + 1) (kept bit S i b) := by
  refine ⟨h.1.filter _, fun p hp q hq hagree => ?_⟩
  obtain ⟨hpS, hpb⟩ := mem_kept.mp hp
  obtain ⟨hqS, hqb⟩ := mem_kept.mp hq
  refine h.2 p hpS q hqS fun j hij hj => ?_
  rcases Nat.eq_or_lt_of_le hij with rfl | hlt
  · rw [hpb, hqb]
  · exact hagree j hlt (by omega)

theorem kept_ne_nil_of_conflict (hne : S ≠ []) (h : conflict bit S i = true) (b : Bool) :
    kept bit S i b ≠ [] := by
  obtain ⟨p, hp⟩ := exists_mem_of_ne_nil S hne
  have hboth : S.all (bit · i) = S.all (!bit · i) := beq_iff_eq.mp h
  have hones : S.all (bit · i) = false := by
    by_contra hall
    have hall' := eq_true_of_ne_false hall
    have hone := all_eq_true.mp hall' p hp
    have hzero := all_eq_true.mp (hboth ▸ hall') p hp
    rw [hone] at hzero
    cases hzero
  have hsome : ∃ q ∈ S, bit q i = b := by
    cases b with
    | false =>
      obtain ⟨q, hq, hbit⟩ := all_eq_false.mp hones
      exact ⟨q, hq, eq_false_of_ne_true hbit⟩
    | true =>
      obtain ⟨q, hq, hbit⟩ := all_eq_false.mp (hboth ▸ hones)
      exact ⟨q, hq, by simpa using hbit⟩
  obtain ⟨q, hq, hbit⟩ := hsome
  exact ne_nil_of_mem (mem_kept.mpr ⟨hq, hbit⟩)

theorem kept_of_not_conflict (h : conflict bit S i = false) (b : Bool) :
    kept bit S i b = if b = S.all (bit · i) then S else [] := by
  have hdiffer : S.all (bit · i) ≠ S.all (!bit · i) := fun heq => by
    rw [conflict, heq, beq_self_eq_true] at h
    cases h
  have hall : ∀ p ∈ S, bit p i = S.all (bit · i) := by
    intro p hp
    cases hones : S.all (bit · i) with
    | true => exact all_eq_true.mp hones p hp
    | false =>
      rw [hones] at hdiffer
      have hzeros := eq_true_of_ne_false hdiffer.symm
      simpa using all_eq_true.mp hzeros p hp
  rw [BitSearch.kept]
  split
  · next hb =>
    exact filter_eq_self.mpr fun p hp => by rw [hall p hp, hb, beq_self_eq_true]
  · next hb =>
    refine filter_eq_nil_iff.mpr fun p hp hbit => hb ?_
    rw [← hall p hp, beq_iff_eq.mp hbit]

theorem bit_of_not_conflict (h : conflict bit S i = false) (hp : p ∈ S) :
    bit p i = S.all (bit · i) := by
  by_contra hne
  have hkept := kept_of_not_conflict h (bit p i)
  rw [if_neg hne] at hkept
  exact ne_nil_of_mem (mem_kept.mpr ⟨hp, rfl⟩) hkept

theorem kept_bit_of_not_conflict (h : conflict bit S i = false) (hp : p ∈ S) :
    kept bit S i (bit p i) = S := by
  rw [kept_of_not_conflict h, if_pos (bit_of_not_conflict h hp)]

theorem order_perm (n i : Nat) (S : List α) : (order bit n i S).Perm S := by
  induction n generalizing i S with
  | zero => exact .refl _
  | succ n ih =>
    have hfilter : (kept bit S i true ++ kept bit S i false).Perm S := by
      have hnot : kept bit S i false = S.filter fun p => !(bit p i == true) := by
        refine filter_congr fun p _ => ?_
        cases bit p i <;> rfl
      rw [hnot]
      exact filter_append_perm _ S
    exact ((ih _ _).append (ih _ _)).trans (perm_append_comm.trans hfilter)

theorem order_nil (n i : Nat) : order bit n i [] = [] := perm_nil.mp (order_perm n i [])

theorem order_of_not_conflict (h : conflict bit S i = false) :
    order bit (n + 1) i S = order bit n (i + 1) S := by
  rw [order, kept_of_not_conflict h, kept_of_not_conflict h]
  cases S.all (bit · i) with
  | true => rw [if_neg Bool.false_ne_true, if_pos rfl, order_nil, nil_append]
  | false => rw [if_pos rfl, if_neg Bool.false_ne_true.symm, order_nil, append_nil]

theorem bit_of_mem_order {b : Bool} {m j : Nat} (h : p ∈ order bit m j (kept bit S i b)) :
    bit p i = b := (mem_kept.mp ((order_perm m j _).mem_iff.mp h)).2

theorem split_append {E E' pre post : List α} (h : E ++ E' = pre ++ p :: post) :
    (∃ post', E = pre ++ p :: post' ∧ post = post' ++ E') ∨
      ∃ pre', E' = pre' ++ p :: post ∧ pre = E ++ pre' := by
  rcases append_eq_append_iff.mp h with ⟨pre', hpre, hE'⟩ | ⟨c, hE, hpost⟩
  · exact .inr ⟨pre', hE', hpre⟩
  · cases c with
    | nil => exact .inr ⟨[], hpost.symm, by rw [hE]; simp⟩
    | cons q post' =>
      obtain ⟨rfl, rfl⟩ := List.cons.inj hpost
      exact .inl ⟨post', hE, rfl⟩

theorem Distinct.eq_singleton (h : Distinct bit 0 i S) (hp : p ∈ S) : S = [p] := by
  have hall : ∀ q ∈ S, q = p := fun q hq =>
    h.2 q hq p hp fun j hij hj => absurd hj (by omega)
  exact perm_singleton.mp ((perm_ext_iff_of_nodup h.1 (nodup_singleton p)).mpr
    fun q => ⟨fun hq => mem_singleton.mpr (hall q hq), fun hq => mem_singleton.mp hq ▸ hp⟩)

theorem lastZero_of_not_conflict {z : Nat} (h : conflict bit S i = false) (hp : p ∈ S) :
    lastZero bit (n + 1) i S p z = lastZero bit n (i + 1) S p z := by
  rw [lastZero, kept_bit_of_not_conflict h hp, if_neg fun hc => by rw [h] at hc; cases hc.1]

theorem lastZero_spec {pre post : List α} {z : Nat} (hdistinct : Distinct bit n i S)
    (horder : order bit n i S = pre ++ p :: post) (hz : z < i) :
    (post = [] → lastZero bit n i S p z = z) ∧ (post ≠ [] → i ≤ lastZero bit n i S p z) := by
  induction n generalizing i S pre post z with
  | zero =>
    have hsplit : S = pre ++ p :: post := horder
    have hp : p ∈ S := hsplit ▸ mem_append_right _ mem_cons_self
    have hlength : [p].length = (pre ++ p :: post).length := by
      rw [← hsplit, hdistinct.eq_singleton hp]
    rw [length_singleton, length_append, length_cons] at hlength
    refine ⟨fun _ => rfl, fun hpost => absurd (length_eq_zero_iff.mp ?_) hpost⟩
    omega
  | succ n ih =>
    have hp : p ∈ S := (order_perm (n + 1) i S).mem_iff.mp
      (horder ▸ mem_append_right _ mem_cons_self)
    cases hconflict : conflict bit S i with
    | false =>
      have hkept := hdistinct.kept (bit p i)
      rw [kept_bit_of_not_conflict hconflict hp] at hkept
      rw [order_of_not_conflict hconflict] at horder
      rw [lastZero_of_not_conflict hconflict hp]
      obtain ⟨hlast, hmore⟩ := ih hkept horder (Nat.lt_succ_of_lt hz)
      exact ⟨hlast, fun hpost => Nat.le_of_succ_le (hmore hpost)⟩
    | true =>
      have hne : S ≠ [] := ne_nil_of_mem hp
      rw [lastZero]
      rcases split_append horder with ⟨post', hzero, rfl⟩ | ⟨pre', hone, -⟩
      · have hbit : bit p i = false := bit_of_mem_order (hzero ▸ mem_append_right _ mem_cons_self)
        rw [hbit, if_pos ⟨hconflict, rfl⟩]
        have hothers : order bit n (i + 1) (kept bit S i true) ≠ [] := fun hnil =>
          kept_ne_nil_of_conflict hne hconflict true (nil_perm.mp (hnil ▸ order_perm _ _ _))
        obtain ⟨hlast, hmore⟩ := ih (hdistinct.kept false) hzero (Nat.lt_succ_self i)
        refine ⟨fun hpost => absurd (append_eq_nil_iff.mp hpost).2 hothers, fun _ => ?_⟩
        by_cases hpost' : post' = []
        · rw [hlast hpost']
        · exact Nat.le_of_succ_le (hmore hpost')
      · have hbit : bit p i = true := bit_of_mem_order (hone ▸ mem_append_right _ mem_cons_self)
        rw [hbit, if_neg fun hc => by cases hc.2]
        obtain ⟨hlast, hmore⟩ := ih (hdistinct.kept true) hone (Nat.lt_succ_of_lt hz)
        exact ⟨hlast, fun hpost => Nat.le_of_succ_le (hmore hpost)⟩

variable {saved : Nat → Bool} {d : Nat}

theorem descend_of_not_conflict {z : Nat} (h : conflict bit S i = false) :
    descend bit saved d (n + 1) i S z = descend bit saved d n (i + 1) S z := by
  have hdirection : direction bit saved d S i = S.all (bit · i) :=
    if_neg (h ▸ Bool.false_ne_true)
  rw [descend, hdirection, kept_of_not_conflict h, if_pos rfl,
    if_neg fun hc => by rw [h] at hc; cases hc.1]

theorem descend_first {z : Nat} (hne : S ≠ []) (hdistinct : Distinct bit n i S) (hd : d < i) :
    ∃ p rest, order bit n i S = p :: rest ∧
      descend bit saved d n i S z = ([p], lastZero bit n i S p z) := by
  induction n generalizing i S z with
  | zero =>
    obtain ⟨p, hp⟩ := exists_mem_of_ne_nil S hne
    have hsingle := hdistinct.eq_singleton hp
    exact ⟨p, [], hsingle, by rw [descend, lastZero, hsingle]⟩
  | succ n ih =>
    cases hconflict : conflict bit S i with
    | false =>
      obtain ⟨q, hq⟩ := exists_mem_of_ne_nil S hne
      have hkept := hdistinct.kept (bit q i)
      rw [kept_bit_of_not_conflict hconflict hq] at hkept
      obtain ⟨p, rest, horder, hdescend⟩ := ih (z := z) hne hkept (Nat.lt_succ_of_lt hd)
      have hp : p ∈ S := (order_perm n (i + 1) S).mem_iff.mp (horder ▸ mem_cons_self)
      refine ⟨p, rest, (order_of_not_conflict hconflict).trans horder, ?_⟩
      rw [descend_of_not_conflict hconflict, lastZero_of_not_conflict hconflict hp, hdescend]
    | true =>
      have hdirection : direction bit saved d S i = false := by
        rw [direction, if_pos hconflict, if_neg (by omega), decide_eq_false (by omega)]
      obtain ⟨p, rest, horder, hdescend⟩ := ih (z := i)
        (kept_ne_nil_of_conflict hne hconflict false) (hdistinct.kept false) (Nat.lt_succ_of_lt hd)
      have hbit : bit p i = false := bit_of_mem_order (horder ▸ mem_cons_self)
      refine ⟨p, rest ++ order bit n (i + 1) (kept bit S i true), ?_, ?_⟩
      · rw [order, horder, cons_append]
      · rw [descend, lastZero, hdirection, hbit, if_pos ⟨hconflict, rfl⟩, hdescend]

/-- After an item, and up to the last conflict at which it has a zero, the search takes the next of
the items. -/
theorem descend_next {pre post : List α} {p q : α} {z z' : Nat} (hdistinct : Distinct bit n i S)
    (horder : order bit n i S = pre ++ p :: q :: post) (hsaved : ∀ j, saved j = bit p j)
    (hz : z < i) (hd : d = lastZero bit n i S p z) :
    descend bit saved d n i S z' = ([q], lastZero bit n i S q z') := by
  induction n generalizing i S pre post z z' with
  | zero =>
    have hspec := (lastZero_spec hdistinct horder hz).2 (cons_ne_nil _ _)
    rw [lastZero] at hspec
    omega
  | succ n ih =>
    have hp : p ∈ S := (order_perm (n + 1) i S).mem_iff.mp
      (horder ▸ mem_append_right _ mem_cons_self)
    have hq : q ∈ S := (order_perm (n + 1) i S).mem_iff.mp
      (horder ▸ mem_append_right _ (mem_cons_of_mem _ mem_cons_self))
    cases hconflict : conflict bit S i with
    | false =>
      have hkept := hdistinct.kept (bit p i)
      rw [kept_bit_of_not_conflict hconflict hp] at hkept
      rw [order_of_not_conflict hconflict] at horder
      rw [lastZero_of_not_conflict hconflict hp] at hd
      rw [descend_of_not_conflict hconflict, lastZero_of_not_conflict hconflict hq]
      exact ih hkept horder (Nat.lt_succ_of_lt hz) hd
    | true =>
      rw [lastZero] at hd
      rcases split_append horder with ⟨post', hzero, hpost⟩ | ⟨pre', hone, -⟩
      · have hbit : bit p i = false := bit_of_mem_order (hzero ▸ mem_append_right _ mem_cons_self)
        have hspec := lastZero_spec (hdistinct.kept false) hzero (Nat.lt_succ_self i)
        rw [hbit, if_pos ⟨hconflict, rfl⟩] at hd
        cases post' with
        | nil =>
          -- the last item with a zero here: the search turns to those with a one
          have hhere : d = i := hd.trans (hspec.1 rfl)
          have hdirection : direction bit saved d S i = true := by
            rw [direction, if_pos hconflict, if_neg (by omega), decide_eq_true hhere.symm]
          obtain ⟨q', rest, horder', hdescend⟩ := @descend_first _ bit _ n (i + 1) saved d z'
            (kept_ne_nil_of_conflict (ne_nil_of_mem hp) hconflict true) (hdistinct.kept true)
            (by omega)
          rw [horder', nil_append] at hpost
          obtain ⟨rfl, -⟩ := List.cons.inj hpost
          have hbit' : bit q i = true := bit_of_mem_order (horder' ▸ mem_cons_self)
          rw [descend, lastZero, hdirection, hbit', if_neg fun hc => (by cases hc.2), hdescend]
        | cons q' post' =>
          obtain ⟨rfl, -⟩ := List.cons.inj hpost
          have hbehind : i + 1 ≤ d := hd ▸ hspec.2 (cons_ne_nil _ _)
          have hdirection : direction bit saved d S i = false := by
            rw [direction, if_pos hconflict, if_pos (by omega), hsaved, hbit]
          have hbit' : bit q i = false := bit_of_mem_order
            (hzero ▸ mem_append_right _ (mem_cons_of_mem _ mem_cons_self))
          rw [descend, lastZero, hdirection, hbit', if_pos ⟨hconflict, rfl⟩]
          exact ih (hdistinct.kept false) hzero (Nat.lt_succ_self i) hd
      · have hbit : bit p i = true := bit_of_mem_order (hone ▸ mem_append_right _ mem_cons_self)
        have hbit' : bit q i = true := bit_of_mem_order
          (hone ▸ mem_append_right _ (mem_cons_of_mem _ mem_cons_self))
        rw [hbit, if_neg fun hc => by cases hc.2] at hd
        have hbehind : i + 1 ≤ d := hd ▸
          (lastZero_spec (hdistinct.kept true) hone (Nat.lt_succ_of_lt hz)).2 (cons_ne_nil _ _)
        have hdirection : direction bit saved d S i = true := by
          rw [direction, if_pos hconflict, if_pos (by omega), hsaved, hbit]
        rw [descend, lastZero, hdirection, hbit', if_neg fun hc => by cases hc.2]
        exact ih (hdistinct.kept true) hone (Nat.lt_succ_of_lt hz) hd

theorem kept_direction_ne_nil (hne : S ≠ []) : kept bit S i (direction bit saved d S i) ≠ [] := by
  cases hconflict : conflict bit S i with
  | false =>
    rw [direction, if_neg (hconflict ▸ Bool.false_ne_true), kept_of_not_conflict hconflict,
      if_pos rfl]
    exact hne
  | true => exact kept_ne_nil_of_conflict hne hconflict _

theorem descend_singleton {z : Nat} (hne : S ≠ []) (hdistinct : Distinct bit n i S) :
    ∃ p ∈ S, (descend bit saved d n i S z).1 = [p] := by
  induction n generalizing i S z with
  | zero =>
    obtain ⟨p, hp⟩ := exists_mem_of_ne_nil S hne
    exact ⟨p, hp, hdistinct.eq_singleton hp⟩
  | succ n ih =>
    obtain ⟨p, hp, hdescend⟩ := ih (kept_direction_ne_nil hne) (hdistinct.kept _)
    exact ⟨p, (mem_kept.mp hp).1, hdescend⟩

theorem mem_of_mem_descend {z : Nat} (h : p ∈ (descend bit saved d n i S z).1) : p ∈ S := by
  induction n generalizing i S z with
  | zero => exact h
  | succ n ih => exact (mem_kept.mp (ih h)).1

theorem descend_saved {m z : Nat} {p q : α} (hm : m ≤ n) (hd : i + m ≤ d) (hp : p ∈ S)
    (hsaved : ∀ j, i ≤ j → j < i + m → bit p j = saved j)
    (hq : q ∈ (descend bit saved d n i S z).1) (j : Nat) (hij : i ≤ j) (hj : j < i + m) :
    bit q j = saved j := by
  induction m generalizing n i S z with
  | zero => omega
  | succ m ih =>
    obtain ⟨n, rfl⟩ := Nat.exists_eq_add_one_of_ne_zero (by omega : n ≠ 0)
    have hdirection : direction bit saved d S i = saved i := by
      have hhere := hsaved i le_rfl (by omega)
      cases hconflict : conflict bit S i with
      | false =>
        rw [direction, if_neg (hconflict ▸ Bool.false_ne_true),
          ← bit_of_not_conflict hconflict hp, hhere]
      | true => rw [direction, if_pos hconflict, if_pos (by omega)]
    rw [descend, hdirection] at hq
    rcases Nat.eq_or_lt_of_le hij with rfl | hlt
    · exact (mem_kept.mp (mem_of_mem_descend hq)).2
    · exact ih (by omega) (by omega) (mem_kept.mpr ⟨hp, hsaved i le_rfl (by omega)⟩)
        (fun k hk hk' => hsaved k (by omega) (by omega)) hq hlt (by omega)

end Foundations.BitSearch
