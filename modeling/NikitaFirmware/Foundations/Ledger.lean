import Mathlib.Data.List.Nodup

/-!
# Allocation ledgers

A store of blocks at reusable addresses, where every allocation gets the next serial number. The
ledger accounts for each serial: it is that of exactly one block of the store, or it is among
the freed ones, and there only once.
-/

namespace Foundations

open List Option Function
variable {α β : Type*}

structure Ledger (serial : β → Nat) (store : α → Option β) (allocated : Nat) (freed : List Nat) :
    Prop where
  lt : ∀ a b, store a = some b → serial b < allocated
  notFreed : ∀ a b, store a = some b → serial b ∉ freed
  inj : ∀ a b a' b', store a = some b → store a' = some b' → serial b = serial b' → a = a'
  nodup : freed.Nodup
  complete : ∀ n, n < allocated → n ∈ freed ∨ ∃ a b, store a = some b ∧ serial b = n
  freed_lt : ∀ n, n ∈ freed → n < allocated

namespace Ledger

variable {serial : β → Nat} {store : α → Option β} {n : Nat} {freed : List Nat} {a : α} {b b' : β}

theorem empty : Ledger serial (fun _ : α => none) 0 [] where
  lt := fun _ _ h => absurd h (by simp)
  notFreed := fun _ _ h => absurd h (by simp)
  inj := fun _ _ _ _ h => absurd h (by simp)
  nodup := nodup_nil
  complete := fun _ h => absurd h (Nat.not_lt_zero _)
  freed_lt := fun _ h => absurd h not_mem_nil

section Update

variable [DecidableEq α]

theorem update_cases {v : Option β} {a' : α} {c : β} (h : update store a v a' = some c) :
    a' = a ∧ v = some c ∨ a' ≠ a ∧ store a' = some c := by
  by_cases ha : a' = a
  · rw [ha, update_self] at h
    exact .inl ⟨ha, h⟩
  · rw [update_of_ne ha] at h
    exact .inr ⟨ha, h⟩

theorem allocate (h : Ledger serial store n freed) (ha : store a = none) (hb : serial b = n) :
    Ledger serial (update store a (some b)) (n + 1) freed where
  lt := by
    intro a' c hc
    obtain ⟨-, hv⟩ | ⟨-, hc⟩ := update_cases hc
    · rw [← some.inj hv, hb]
      exact Nat.lt_succ_self n
    · exact Nat.lt_succ_of_lt (h.lt a' c hc)
  notFreed := by
    intro a' c hc hmem
    obtain ⟨-, hv⟩ | ⟨-, hc⟩ := update_cases hc
    · rw [← some.inj hv, hb] at hmem
      exact Nat.lt_irrefl n (h.freed_lt n hmem)
    · exact h.notFreed a' c hc hmem
  inj := by
    intro x c x' c' hc hc' heq
    obtain ⟨hx, hv⟩ | ⟨hx, hc⟩ := update_cases hc <;>
      obtain ⟨hx', hv'⟩ | ⟨hx', hc'⟩ := update_cases hc'
    · rw [hx, hx']
    · have hlt := h.lt x' c' hc'
      rw [← some.inj hv, hb] at heq
      omega
    · have hlt := h.lt x c hc
      rw [← some.inj hv', hb] at heq
      omega
    · exact h.inj x c x' c' hc hc' heq
  nodup := h.nodup
  complete := by
    intro m hm
    by_cases hmn : m = n
    · exact .inr ⟨a, b, update_self .., hb.trans hmn.symm⟩
    · refine (h.complete m (by omega)).imp_right ?_
      rintro ⟨x, c, hc, hm⟩
      refine ⟨x, c, ?_, hm⟩
      rw [update_of_ne, hc]
      rintro rfl
      cases ha.symm.trans hc
  freed_lt := fun m hm => Nat.lt_succ_of_lt (h.freed_lt m hm)

theorem rewrite (h : Ledger serial store n freed) (ha : store a = some b)
    (hb : serial b' = serial b) : Ledger serial (update store a (some b')) n freed where
  lt := by
    intro x c hc
    obtain ⟨-, hv⟩ | ⟨-, hc⟩ := update_cases hc
    · rw [← some.inj hv, hb]
      exact h.lt a b ha
    · exact h.lt x c hc
  notFreed := by
    intro x c hc
    obtain ⟨-, hv⟩ | ⟨-, hc⟩ := update_cases hc
    · rw [← some.inj hv, hb]
      exact h.notFreed a b ha
    · exact h.notFreed x c hc
  inj := by
    intro x c x' c' hc hc' heq
    obtain ⟨hx, hv⟩ | ⟨hx, hc⟩ := update_cases hc <;>
      obtain ⟨hx', hv'⟩ | ⟨hx', hc'⟩ := update_cases hc'
    · rw [hx, hx']
    · rw [← some.inj hv, hb] at heq
      exact absurd (h.inj a b x' c' ha hc' heq).symm hx'
    · rw [← some.inj hv', hb] at heq
      exact absurd (h.inj x c a b hc ha heq) hx
    · exact h.inj x c x' c' hc hc' heq
  nodup := h.nodup
  complete := by
    intro m hm
    refine (h.complete m hm).imp_right ?_
    rintro ⟨x, c, hc, hm⟩
    by_cases hx : x = a
    · refine ⟨a, b', update_self .., ?_⟩
      rw [hx, ha] at hc
      rw [hb, some.inj hc, hm]
    · exact ⟨x, c, by rw [update_of_ne hx, hc], hm⟩
  freed_lt := h.freed_lt

theorem release (h : Ledger serial store n freed) (ha : store a = some b) :
    Ledger serial (update store a none) n (serial b :: freed) where
  lt := by
    intro x c hc
    obtain ⟨-, hv⟩ | ⟨-, hc⟩ := update_cases hc
    · cases hv
    · exact h.lt x c hc
  notFreed := by
    intro x c hc hmem
    obtain ⟨-, hv⟩ | ⟨hx, hc⟩ := update_cases hc
    · cases hv
    · cases mem_cons.mp hmem with
      | inl heq => exact hx (h.inj x c a b hc ha heq)
      | inr hmem => exact h.notFreed x c hc hmem
  inj := by
    intro x c x' c' hc hc' heq
    obtain ⟨-, hv⟩ | ⟨-, hc⟩ := update_cases hc
    · cases hv
    obtain ⟨-, hv⟩ | ⟨-, hc'⟩ := update_cases hc'
    · cases hv
    exact h.inj x c x' c' hc hc' heq
  nodup := nodup_cons.mpr ⟨h.notFreed a b ha, h.nodup⟩
  complete := by
    intro m hm
    cases h.complete m hm with
    | inl hmem => exact .inl (mem_cons_of_mem _ hmem)
    | inr hlive =>
      obtain ⟨x, c, hc, hm⟩ := hlive
      by_cases hx : x = a
      · rw [hx, ha] at hc
        rw [← hm, ← some.inj hc]
        exact .inl mem_cons_self
      · exact .inr ⟨x, c, by rw [update_of_ne hx, hc], hm⟩
  freed_lt := by
    intro m hm
    cases mem_cons.mp hm with
    | inl heq => exact heq ▸ h.lt a b ha
    | inr hmem => exact h.freed_lt m hmem

end Update

theorem count_freed (h : Ledger serial store n freed) {m : Nat} (hm : m < n) :
    freed.count m = 1 ∨ freed.count m = 0 ∧ ∃ a b, store a = some b ∧ serial b = m := by
  cases h.complete m hm with
  | inl hmem => exact .inl (count_eq_one_of_mem h.nodup hmem)
  | inr hlive =>
    obtain ⟨a, b, hab, hb⟩ := hlive
    exact .inr ⟨count_eq_zero_of_not_mem (hb ▸ h.notFreed a b hab), a, b, hab, hb⟩

end Ledger

end Foundations
