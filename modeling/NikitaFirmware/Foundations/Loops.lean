import Mathlib.Algebra.Group.End
import Mathlib.Data.List.Basic

/-!
# Ciphers that work in rounds

A round is a permutation of the states for each round key. A sequence of rounds is a permutation,
and is undone by the inverse rounds in the opposite order of their keys.
-/

namespace Foundations

namespace Rounds

variable {κ σ : Type*} (round : κ → Equiv.Perm σ)

/-- The rounds of a sequence of keys, the first key first. -/
def perm : List κ → Equiv.Perm σ
  | [] => 1
  | k :: ks => perm ks * round k

theorem perm_apply (ks : List κ) (s : σ) : perm round ks s = ks.foldl (fun s k => round k s) s := by
  induction ks generalizing s with
  | nil => rfl
  | cons k ks ih => exact ih (round k s)

theorem perm_symm_apply (ks : List κ) (s : σ) :
    (perm round ks).symm s = ks.reverse.foldl (fun s k => (round k).symm s) s := by
  induction ks generalizing s with
  | nil => rfl
  | cons k ks ih =>
    rw [List.reverse_cons, List.foldl_append, ← ih]
    rfl

theorem foldl_symm_reverse (ks : List κ) (s : σ) :
    ks.reverse.foldl (fun s k => (round k).symm s) (ks.foldl (fun s k => round k s) s) = s := by
  rw [← perm_symm_apply, ← perm_apply, Equiv.symm_apply_apply]

theorem foldl_reverse_symm (ks : List κ) (s : σ) :
    ks.foldl (fun s k => round k s) (ks.reverse.foldl (fun s k => (round k).symm s) s) = s := by
  rw [← perm_symm_apply, ← perm_apply, Equiv.apply_symm_apply]

theorem bijective_foldl (ks : List κ) :
    Function.Bijective fun s => ks.foldl (fun s k => round k s) s := by
  have h : (fun s => ks.foldl (fun s k => round k s) s) = perm round ks :=
    funext fun s => (perm_apply round ks s).symm
  rw [h]
  exact (perm round ks).bijective

end Rounds

variable {σ ρ : Type*}

/-- The loop for so many rounds at most. -/
def loop (body : σ → σ ⊕ ρ) : Nat → σ → Option ρ
  | 0, _ => none
  | n + 1, s =>
    match body s with
    | .inl s' => loop body n s'
    | .inr r => some r

inductive Leaves (body : σ → σ ⊕ ρ) : σ → ρ → Prop
  | leave {s : σ} {r : ρ} (h : body s = .inr r) : Leaves body s r
  | again {s s' : σ} {r : ρ} (h : body s = .inl s') (hrest : Leaves body s' r) : Leaves body s r

namespace Leaves
variable {body : σ → σ ⊕ ρ} {s s' : σ} {r r' : ρ}

theorem fuel (h : Leaves body s r) : ∃ n, ∀ m, n ≤ m → loop body m s = some r := by
  induction h with
  | leave h =>
    refine ⟨1, fun m hm => ?_⟩
    obtain ⟨m, rfl⟩ := Nat.exists_eq_succ_of_ne_zero (Nat.ne_of_gt hm)
    rw [loop, h]
  | again h _ ih =>
    obtain ⟨n, hn⟩ := ih
    refine ⟨n + 1, fun m hm => ?_⟩
    obtain ⟨m, rfl⟩ := Nat.exists_eq_succ_of_ne_zero (Nat.ne_of_gt (Nat.zero_lt_of_lt hm))
    rw [loop, h]
    exact hn m (Nat.le_of_succ_le_succ hm)

theorem congr (heq : body s = body s') (h : Leaves body s' r) : Leaves body s r := by
  cases h with
  | leave h => exact .leave (heq.trans h)
  | again h hrest => exact .again (heq.trans h) hrest

theorem of_measure {ι : Type*} {I : ι → σ → Prop} {post : ρ → Prop} (measure : ι → Nat)
    (hround : ∀ i s, I i s → (∃ s' i', body s = .inl s' ∧ I i' s' ∧ measure i' < measure i) ∨
      ∃ r, body s = .inr r ∧ post r) {i : ι} (hs : I i s) : ∃ r, Leaves body s r ∧ post r := by
  induction hn : measure i using Nat.strong_induction_on generalizing s i with
  | _ n ih =>
    obtain ⟨s', i', hbody, hs', hless⟩ | ⟨r, hbody, hr⟩ := hround i s hs
    · obtain ⟨r, hleaves, hr⟩ := ih (measure i') (hn ▸ hless) hs' rfl
      exact ⟨r, .again hbody hleaves, hr⟩
    · exact ⟨r, .leave hbody, hr⟩

end Leaves
end Foundations
