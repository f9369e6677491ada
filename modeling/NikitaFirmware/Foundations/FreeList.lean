import Mathlib.Data.List.Chain

/-!
# Rows of blocks and the list of the free ones

A range of addresses is divided into blocks that follow each other without a gap; each is free or
has a use. The free blocks form a list in the order of their addresses, in which every block
leads to the next one and the last to a given end. What a store holds about a row of blocks is a
predicate on each block, its address and the next free one; such a description can be cut
between any two blocks.
-/

namespace Foundations

open List
structure Block (υ : Type*) where
  size : Nat
  /-- `none` for a free block. -/
  use : Option υ

namespace Block

variable {υ : Type*} {a p tail : Nat} {b : Block υ} {bs cs : List (Block υ)}

def extent : List (Block υ) → Nat
  | [] => 0
  | b :: bs => b.size + extent bs

@[simp] theorem extent_nil : extent ([] : List (Block υ)) = 0 := rfl

@[simp] theorem extent_cons (b : Block υ) (bs : List (Block υ)) :
    extent (b :: bs) = b.size + extent bs := rfl

@[simp] theorem extent_append (bs cs : List (Block υ)) :
    extent (bs ++ cs) = extent bs + extent cs := by
  induction bs with
  | nil => rw [nil_append, extent_nil, Nat.zero_add]
  | cons b bs ih => rw [cons_append, extent_cons, extent_cons, ih, Nat.add_assoc]

/-- The first free block of a row that begins at `a`, or `tail` if there is none. -/
def firstFree : Nat → List (Block υ) → Nat → Nat
  | _, [], tail => tail
  | a, b :: bs, tail =>
    match b.use with
    | none => a
    | some _ => firstFree (a + b.size) bs tail

/-- The last free block of a row that begins at `a`, or `p` if there is none. -/
def lastFree : Nat → Nat → List (Block υ) → Nat
  | p, _, [] => p
  | p, a, b :: bs =>
    match b.use with
    | none => lastFree a (a + b.size) bs
    | some _ => lastFree p (a + b.size) bs

def freeList : Nat → List (Block υ) → List Nat
  | _, [] => []
  | a, b :: bs =>
    match b.use with
    | none => a :: freeList (a + b.size) bs
    | some _ => freeList (a + b.size) bs

/-- The addresses of the other blocks, with their uses. -/
def taken : Nat → List (Block υ) → List (Nat × υ)
  | _, [] => []
  | a, b :: bs =>
    match b.use with
    | none => taken (a + b.size) bs
    | some u => (a, u) :: taken (a + b.size) bs

theorem firstFree_free (h : b.use = none) : firstFree a (b :: bs) tail = a := by
  rw [firstFree, h]

theorem firstFree_used {u : υ} (h : b.use = some u) :
    firstFree a (b :: bs) tail = firstFree (a + b.size) bs tail := by
  rw [firstFree, h]

theorem lastFree_free (h : b.use = none) : lastFree p a (b :: bs) = lastFree a (a + b.size) bs := by
  rw [lastFree, h]

theorem lastFree_used {u : υ} (h : b.use = some u) :
    lastFree p a (b :: bs) = lastFree p (a + b.size) bs := by
  rw [lastFree, h]

theorem freeList_free (h : b.use = none) :
    freeList a (b :: bs) = a :: freeList (a + b.size) bs := by
  rw [freeList, h]

theorem freeList_used {u : υ} (h : b.use = some u) :
    freeList a (b :: bs) = freeList (a + b.size) bs := by
  rw [freeList, h]

theorem taken_free (h : b.use = none) : taken a (b :: bs) = taken (a + b.size) bs := by
  rw [taken, h]

theorem taken_used {u : υ} (h : b.use = some u) :
    taken a (b :: bs) = (a, u) :: taken (a + b.size) bs := by
  rw [taken, h]

theorem firstFree_append (a : Nat) (bs cs : List (Block υ)) (tail : Nat) :
    firstFree a (bs ++ cs) tail = firstFree a bs (firstFree (a + extent bs) cs tail) := by
  induction bs generalizing a with
  | nil => rfl
  | cons b bs ih =>
    rw [cons_append, firstFree, firstFree, ih, extent_cons, Nat.add_assoc]

theorem taken_append (a : Nat) (bs cs : List (Block υ)) :
    taken a (bs ++ cs) = taken a bs ++ taken (a + extent bs) cs := by
  induction bs generalizing a with
  | nil => rfl
  | cons b bs ih =>
    rw [cons_append, extent_cons, ← Nat.add_assoc]
    cases hu : b.use with
    | none => rw [taken_free hu, taken_free hu, ih]
    | some u => rw [taken_used hu, taken_used hu, ih, cons_append]

theorem lastFree_cases (p a : Nat) (bs : List (Block υ)) (hpos : ∀ b ∈ bs, 0 < b.size) :
    lastFree p a bs = p ∨ a ≤ lastFree p a bs ∧ lastFree p a bs < a + extent bs := by
  induction bs generalizing p a with
  | nil => exact .inl rfl
  | cons b bs ih =>
    have hb := hpos b mem_cons_self
    have ih := fun p a => ih p a fun c hc => hpos c (mem_cons_of_mem b hc)
    rw [extent_cons]
    cases hu : b.use with
    | none =>
      rw [lastFree_free hu]
      right
      rcases ih a (a + b.size) with h | h
      · rw [h]
        omega
      · omega
    | some u =>
      rw [lastFree_used hu]
      rcases ih p (a + b.size) with h | h
      · exact .inl h
      · exact .inr (by omega)

theorem le_firstFree (a : Nat) (bs : List (Block υ)) (tail : Nat) (ht : a + extent bs ≤ tail) :
    a ≤ firstFree a bs tail := by
  induction bs generalizing a with
  | nil =>
    rw [extent_nil] at ht
    exact ht
  | cons b bs ih =>
    rw [extent_cons] at ht
    cases hu : b.use with
    | none => exact Nat.le_of_eq (firstFree_free hu).symm
    | some u =>
      rw [firstFree_used hu]
      exact Nat.le_trans (Nat.le_add_right a b.size) (ih (a + b.size) (by omega))

theorem firstFree_pos (bs : List (Block υ)) (ha : 0 < a) (ht : 0 < tail) :
    0 < firstFree a bs tail := by
  induction bs generalizing a with
  | nil => exact ht
  | cons b bs ih =>
    cases hu : b.use with
    | none => rwa [firstFree_free hu]
    | some u =>
      rw [firstFree_used hu]
      exact ih (by omega)

theorem freeList_length {k : Nat} (a : Nat) (bs : List (Block υ)) (hk : ∀ b ∈ bs, k ≤ b.size) :
    k * (freeList a bs).length ≤ extent bs := by
  induction bs generalizing a with
  | nil => exact Nat.le_refl _
  | cons b bs ih =>
    have hb := hk b mem_cons_self
    have ih := ih (a + b.size) fun c hc => hk c (mem_cons_of_mem b hc)
    rw [extent_cons]
    cases hu : b.use with
    | none =>
      rw [freeList_free hu, length_cons, Nat.mul_succ]
      omega
    | some u =>
      rw [freeList_used hu]
      omega

theorem freeList_bounds (a : Nat) (bs : List (Block υ)) (hpos : ∀ b ∈ bs, 0 < b.size) :
    ∀ x ∈ freeList a bs, a ≤ x ∧ x < a + extent bs := by
  induction bs generalizing a with
  | nil => exact fun x hx => absurd hx not_mem_nil
  | cons b bs ih =>
    have hb := hpos b mem_cons_self
    have ih := ih (a + b.size) fun c hc => hpos c (mem_cons_of_mem b hc)
    intro x hx
    rw [extent_cons]
    cases hu : b.use with
    | none =>
      rw [freeList_free hu] at hx
      rcases mem_cons.mp hx with rfl | hx
      · omega
      · have h := ih x hx
        omega
    | some u =>
      rw [freeList_used hu] at hx
      have h := ih x hx
      omega

theorem freeList_ascending (a : Nat) (bs : List (Block υ)) (hpos : ∀ b ∈ bs, 0 < b.size) :
    (freeList a bs).Pairwise (· < ·) := by
  induction bs generalizing a with
  | nil => exact List.Pairwise.nil
  | cons b bs ih =>
    have hb := hpos b mem_cons_self
    have hrest := fun c hc => hpos c (mem_cons_of_mem b hc)
    cases hu : b.use with
    | none =>
      rw [freeList_free hu]
      refine pairwise_cons.mpr ⟨fun x hx => ?_, ih _ hrest⟩
      have h := freeList_bounds (a + b.size) bs hrest x hx
      omega
    | some u =>
      rw [freeList_used hu]
      exact ih _ hrest

/-- No two blocks that follow each other are free. -/
def Separated (bs : List (Block υ)) : Prop := bs.IsChain fun b c => b.use = none → c.use ≠ none

theorem separated_cons_iff :
    Separated (b :: bs) ↔ (b.use = none → ∀ c ∈ bs.head?, c.use ≠ none) ∧ Separated bs := by
  rw [Separated, isChain_cons]
  exact and_congr_left' ⟨fun h hb c hc => h c hc hb, fun h c hc hb => h hb c hc⟩

theorem separated_append_iff : Separated (bs ++ cs) ↔ Separated bs ∧ Separated cs ∧
    ∀ b ∈ bs.getLast?, b.use = none → ∀ c ∈ cs.head?, c.use ≠ none := by
  rw [Separated, isChain_append]
  exact and_congr_right' (and_congr_right'
    ⟨fun h b hb hu c hc => h b hb c hc hu, fun h b hb c hc hu => h b hb hu c hc⟩)

theorem Separated.used (hbs : Separated bs) (hcs : Separated cs) (hb : b.use ≠ none) :
    Separated (bs ++ b :: cs) := by
  refine separated_append_iff.mpr ⟨hbs, separated_cons_iff.mpr ⟨fun h => absurd h hb, hcs⟩, ?_⟩
  intro c _ _ d hd
  rw [← Option.some.inj hd]
  exact hb

theorem Separated.left (h : Separated (bs ++ cs)) : Separated bs := (separated_append_iff.mp h).1

theorem Separated.right (h : Separated (bs ++ cs)) : Separated cs :=
  (separated_append_iff.mp h).2.1

/-- Every block, with its address and the next free one, is as `head` says. -/
def Linked (head : Nat → Block υ → Nat → Prop) : Nat → List (Block υ) → Nat → Prop
  | _, [], _ => True
  | a, b :: bs, tail => head a b (firstFree (a + b.size) bs tail) ∧ Linked head (a + b.size) bs tail

variable {head head' : Nat → Block υ → Nat → Prop}

theorem linked_cons : Linked head a (b :: bs) tail ↔
      head a b (firstFree (a + b.size) bs tail) ∧ Linked head (a + b.size) bs tail := Iff.rfl

theorem linked_append : Linked head a (bs ++ cs) tail ↔
      Linked head a bs (firstFree (a + extent bs) cs tail) ∧
        Linked head (a + extent bs) cs tail := by
  induction bs generalizing a with
  | nil => exact ⟨fun h => ⟨trivial, h⟩, fun h => h.2⟩
  | cons b bs ih =>
    rw [cons_append, linked_cons, linked_cons, ih, firstFree_append, extent_cons,
      Nat.add_assoc, and_assoc]

theorem Linked.congr
    (hcongr : ∀ x c n, a ≤ x → x + c.size ≤ a + extent bs → c ∈ bs → head x c n → head' x c n)
    (h : Linked head a bs tail) : Linked head' a bs tail := by
  induction bs generalizing a with
  | nil => trivial
  | cons b bs ih =>
    rw [extent_cons] at hcongr
    refine ⟨hcongr a b _ (Nat.le_refl a) (by omega) mem_cons_self h.1, ih (fun x c n hx hc hm => ?_) h.2⟩
    exact hcongr x c n (by omega) (by omega) (mem_cons_of_mem b hm)

end Block

end Foundations
