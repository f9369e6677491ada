import NikitaFirmware.Foundations.Machine
import Mathlib.Data.List.Range

/-!
# One-slot mailboxes that are read and cleared in two steps

A writer overwrites the slot with a new item. A reader takes the item in one step and clears
the slot in a later one; what it takes is its own reading of the item. Items are numbered in
the order of the writes.

`Slot.accounted_iff` says which runs take every item exactly once and in order: those whose writes
find the slot empty and whose readings are allowed.
-/

namespace Foundations

open List
structure Slot (α β : Type*) where
  /-- The item in the slot, with its number. -/
  item : Option (ℕ × α)
  written : List α
  taken : List (ℕ × β)
  /-- The item that has been taken while the slot is not cleared yet. -/
  clearing : Option ℕ

namespace Slot

variable {α β : Type*}

inductive Label (α β : Type*)
  | write (a : α)
  | take (b : β)
  | clear

def empty : Slot α β := ⟨none, [], [], none⟩

def step (s : Slot α β) : Label α β → Option (Slot α β)
  | .write a => some { s with item := some (s.written.length, a), written := s.written ++ [a] }
  | .take b => match s.item, s.clearing with
    | some (i, _), none => some { s with taken := s.taken ++ [(i, b)], clearing := some i }
    | _, _ => none
  | .clear => if s.clearing.isSome then some { s with item := none, clearing := none } else none

def machine : Machine (Slot α β) (Label α β) := ⟨step⟩

/-- The number of the item that nobody has taken yet. -/
def waiting (s : Slot α β) : List ℕ :=
  match s.item with
  | some (i, _) => if s.clearing = some i then [] else [i]
  | none => []

/-- Every written item has been taken exactly once, in order and with a reading that `reads`
allows, except one that waits in the slot. -/
def Accounted (reads : α → β → Prop) (s : Slot α β) : Prop :=
  s.taken.map Prod.fst ++ s.waiting = range s.written.length ∧
  ∀ p ∈ s.taken, ∃ a, s.written[p.1]? = some a ∧ reads a p.2

/-- A write finds the slot empty, and a reading is one that `reads` allows. -/
def Clear (reads : α → β → Prop) (s : Slot α β) : Label α β → Prop
  | .write _ => s.item = none
  | .take b => ∀ i a, s.item = some (i, a) → reads a b
  | .clear => True

/-- What holds in every run: numbers point at the written items, and only an item that is
being cleared is both taken and in the slot. -/
structure Numbered (s : Slot α β) : Prop where
  item : ∀ i a, s.item = some (i, a) → s.written[i]? = some a
  taken : ∀ p ∈ s.taken, p.1 < s.written.length
  clearing : ∀ i, s.clearing = some i → i < s.written.length
  fresh : ∀ i a, s.item = some (i, a) → s.clearing ≠ some i → i ∉ s.taken.map Prod.fst

theorem numbered_empty : (empty : Slot α β).Numbered :=
  ⟨by simp [empty], by simp [empty], by simp [empty], by simp [empty]⟩

theorem numbered_step (s : Slot α β) (l : Label α β) (s' : Slot α β) (h : s.Numbered)
    (hs : machine.step s l = some s') : s'.Numbered := by
  cases l with
  | write a =>
    cases hs
    refine ⟨fun i b hi => ?_, fun p hp => ?_, fun i hi => ?_, fun i b hi _ hmem => ?_⟩
    · cases hi
      simp
    · have := h.taken p hp
      simp only [length_append, length_singleton]
      omega
    · have := h.clearing i hi
      simp only [length_append, length_singleton]
      omega
    · cases hi
      obtain ⟨p, hp, hpi⟩ := mem_map.mp hmem
      exact absurd (h.taken p hp) (by omega)
  | take b =>
    obtain ⟨item, written, taken, clearing⟩ := s
    simp only [machine, step] at hs
    split at hs
    · next i a =>
      cases hs
      have hi : i < written.length := (List.getElem?_eq_some_iff.mp (h.item i a rfl)).1
      refine ⟨h.item, fun p hp => ?_, fun j hj => ?_, fun j c hj hne => ?_⟩
      · rcases mem_append.mp hp with hp | hp
        · exact h.taken p hp
        · rw [mem_singleton.mp hp]
          exact hi
      · cases hj
        exact hi
      · cases hj
        exact absurd rfl hne
    · cases hs
  | clear =>
    simp only [machine, step] at hs
    split at hs
    · cases hs
      exact ⟨by simp, h.taken, by simp, by simp⟩
    · cases hs

/-- An item is lost for good, is doomed to be cleared unread, or was misread. -/
def Lost (reads : α → β → Prop) (s : Slot α β) : Prop :=
  (∃ i < s.written.length, i ∉ s.taken.map Prod.fst ∧ ∀ a, s.item ≠ some (i, a)) ∨
  (∃ i a j, s.item = some (i, a) ∧ s.clearing = some j ∧ i ≠ j) ∨
  ∃ p ∈ s.taken, ∀ a, s.written[p.1]? = some a → ¬ reads a p.2

variable {s : Slot α β}

theorem waiting_of_clearing_ne {i : ℕ} {a : α} (hi : s.item = some (i, a))
    (hne : s.clearing ≠ some i) : s.waiting = [i] := by
  simp [waiting, hi, hne]

theorem waiting_of_clearing {i : ℕ} {a : α} (hi : s.item = some (i, a))
    (hc : s.clearing = some i) : s.waiting = [] := by
  simp [waiting, hi, hc]

theorem waiting_of_none (hi : s.item = none) : s.waiting = [] := by
  simp [waiting, hi]

/-- While the item in the slot is the one being cleared, nothing can be lost. -/
def Tidy (s : Slot α β) : Prop := ∀ j, s.clearing = some j → ∃ a, s.item = some (j, a)

variable {reads : α → β → Prop}

theorem accounted_step (s : Slot α β) (l : Label α β) (s' : Slot α β)
    (h : s.Numbered ∧ s.Accounted reads ∧ s.Tidy) (hok : s.Clear reads l)
    (hs : machine.step s l = some s') : s'.Numbered ∧ s'.Accounted reads ∧ s'.Tidy := by
  obtain ⟨hnum, ⟨hids, htexts⟩, htidy⟩ := h
  refine ⟨numbered_step s l s' hnum hs, ?_⟩
  cases l with
  | write a =>
    have hnone : s.item = none := hok
    have hclear : s.clearing = none := by
      cases hc : s.clearing with
      | none => rfl
      | some j =>
        obtain ⟨b, hb⟩ := htidy j hc
        rw [hnone] at hb
        cases hb
    cases hs
    rw [waiting_of_none hnone, append_nil] at hids
    refine ⟨⟨?_, fun p hp => ?_⟩, fun j hj => ?_⟩
    · rw [waiting_of_clearing_ne (i := s.written.length) (a := a) rfl (by simp [hclear]), hids]
      simp [range_succ]
    · have hlt := hnum.taken p hp
      rw [getElem?_append_left hlt]
      exact htexts p hp
    · rw [show s.clearing = some j from hj] at hclear
      cases hclear
  | take b =>
    obtain ⟨item, written, taken, clearing⟩ := s
    simp only [machine, step] at hs
    split at hs
    · next i a =>
      cases hs
      rw [waiting_of_clearing_ne (i := i) (a := a) rfl (by simp)] at hids
      refine ⟨⟨?_, fun p hp => ?_⟩, fun j hj => ?_⟩
      · rw [waiting_of_clearing (i := i) (a := a) rfl rfl, append_nil, map_append]
        exact hids
      · rcases mem_append.mp hp with hp | hp
        · exact htexts p hp
        · rw [mem_singleton.mp hp]
          exact ⟨a, hnum.item i a rfl, hok i a rfl⟩
      · cases hj
        exact ⟨a, rfl⟩
    · cases hs
  | clear =>
    simp only [machine, step] at hs
    split at hs
    · next hsome =>
      obtain ⟨j, hj⟩ := Option.isSome_iff_exists.mp hsome
      obtain ⟨a, ha⟩ := htidy j hj
      cases hs
      rw [waiting_of_clearing ha hj] at hids
      exact ⟨⟨hids, htexts⟩, fun k hk => by cases hk⟩
    · cases hs

theorem lost_of_not_clear (s : Slot α β) (l : Label α β) (s' : Slot α β)
    (hnum : s.Numbered) (hok : ¬ s.Clear reads l) (hs : machine.step s l = some s') :
    s'.Lost reads := by
  cases l with
  | write a =>
    cases hs
    obtain ⟨⟨i, b⟩, hi⟩ := Option.ne_none_iff_exists'.mp hok
    have hlt : i < s.written.length := (List.getElem?_eq_some_iff.mp (hnum.item i b hi)).1
    by_cases hc : s.clearing = some i
    · exact .inr (.inl ⟨s.written.length, a, i, rfl, hc, by omega⟩)
    · refine .inl ⟨i, by simp; omega, hnum.fresh i b hi hc, fun c hc' => ?_⟩
      cases hc'
      omega
  | take b =>
    obtain ⟨item, written, taken, clearing⟩ := s
    simp only [machine, step] at hs
    split at hs
    · next i a =>
      cases hs
      refine .inr (.inr ⟨(i, b), by simp, fun c hc hread => hok fun j d hj => ?_⟩)
      cases hj
      rw [hnum.item i a rfl] at hc
      exact Option.some.inj hc ▸ hread
    · cases hs
  | clear => exact absurd trivial hok

theorem lost_step (s : Slot α β) (l : Label α β) (s' : Slot α β)
    (hnum : s.Numbered) (hlost : s.Lost reads) (hs : machine.step s l = some s') :
    s'.Lost reads := by
  cases l with
  | write a =>
    cases hs
    rcases hlost with ⟨i, hi, hmem, hitem⟩ | ⟨i, c, j, hi, hj, hne⟩ | ⟨p, hp, hne⟩
    · refine .inl ⟨i, by simp; omega, hmem, fun c hc => ?_⟩
      cases hc
      omega
    · have hlt := hnum.clearing j hj
      exact .inr (.inl ⟨s.written.length, a, j, rfl, hj, by omega⟩)
    · refine .inr (.inr ⟨p, hp, ?_⟩)
      rwa [getElem?_append_left (hnum.taken p hp)]
  | take b =>
    obtain ⟨item, written, taken, clearing⟩ := s
    simp only [machine, step] at hs
    split at hs
    · next k a =>
      cases hs
      rcases hlost with ⟨i, hi, hmem, hitem⟩ | ⟨i, c, j, hi, hj, hne⟩ | ⟨p, hp, hne⟩
      · have hik : i ≠ k := fun h => hitem a (by rw [h])
        exact .inl ⟨i, hi, by simpa [hik] using hmem, hitem⟩
      · cases hj
      · exact .inr (.inr ⟨p, mem_append_left _ hp, hne⟩)
    · cases hs
  | clear =>
    simp only [machine, step] at hs
    split at hs
    · cases hs
      rcases hlost with ⟨i, hi, hmem, hitem⟩ | ⟨i, c, j, hi, hj, hne⟩ | ⟨p, hp, hne⟩
      · exact .inl ⟨i, hi, hmem, by simp⟩
      · have hlt := (List.getElem?_eq_some_iff.mp (hnum.item i c hi)).1
        have hmem : i ∉ s.taken.map Prod.fst := by
          refine hnum.fresh i c hi fun h => hne ?_
          rw [h] at hj
          exact Option.some.inj hj
        exact .inl ⟨i, hlt, hmem, by simp⟩
      · exact .inr (.inr ⟨p, hp, hne⟩)
    · cases hs

theorem not_accounted_of_lost (hlost : s.Lost reads)
    (hclear : s.clearing = none) : ¬ s.Accounted reads := by
  rintro ⟨hids, htexts⟩
  rcases hlost with ⟨i, hi, hmem, hitem⟩ | ⟨i, c, j, hi, hj, hne⟩ | ⟨p, hp, hne⟩
  · have hin : i ∈ s.taken.map Prod.fst ++ s.waiting := hids ▸ mem_range.mpr hi
    rcases mem_append.mp hin with h | h
    · exact hmem h
    · unfold waiting at h
      split at h
      · next k a hk =>
        rw [hclear] at h
        simp only [reduceCtorEq, if_false, mem_singleton] at h
        exact hitem a (by rw [hk, h])
      · cases h
  · rw [hclear] at hj
    cases hj
  · obtain ⟨a, ha, hread⟩ := htexts p hp
    exact hne a ha hread

theorem accounted_empty (reads : α → β → Prop) :
    (empty : Slot α β).Numbered ∧ (empty : Slot α β).Accounted reads ∧ (empty : Slot α β).Tidy :=
  ⟨numbered_empty, ⟨by simp [empty, waiting], by simp [empty]⟩, by simp [Tidy, empty]⟩

theorem accounted_of_meets {ls : List (Label α β)}
    (hm : machine.Meets (Clear reads) empty ls) (h : machine.run empty ls = some s) :
    s.Accounted reads :=
  (machine.run_invariant_of_meets accounted_step (accounted_empty reads) hm h).2.1

theorem accounted_iff {ls : List (Label α β)}
    (h : machine.run empty ls = some s) (hclear : s.clearing = none) :
    s.Accounted reads ↔ machine.Meets (Clear reads) empty ls := by
  refine ⟨fun hacc => ?_, fun hm => accounted_of_meets hm h⟩
  by_contra hm
  exact not_accounted_of_lost
    (machine.run_of_not_meets numbered_step lost_of_not_clear lost_step numbered_empty hm h)
    hclear hacc

end Slot

end Foundations
