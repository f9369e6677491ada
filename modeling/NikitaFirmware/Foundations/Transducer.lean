import Mathlib.Tactic.Common

/-!
# Machines that answer

A transducer answers each request and may refuse one. Two transducers are compared by the answers
that a sequence of requests is given.
-/

namespace Foundations

/-- A machine that answers a request and goes on, or does not go on. -/
structure Transducer (σ ι ο : Type*) where
  step : σ → ι → Option (ο × σ)

namespace Transducer
variable {σ τ ι ο : Type*} (M : Transducer σ ι ο) (N : Transducer τ ι ο)

/-- The answers to a sequence of requests, and the state behind the last one. -/
def run : σ → List ι → Option (List ο × σ)
  | s, [] => some ([], s)
  | s, i :: is =>
    (M.step s i).bind fun r => (run r.2 is).bind fun q => some (r.1 :: q.1, q.2)

/-- Every request of a sequence is made where `ok` holds. -/
def Meets (ok : σ → ι → Prop) : σ → List ι → Prop
  | _, [] => True
  | s, i :: is => ok s i ∧ ∀ r, M.step s i = some r → Meets ok r.2 is

instance decidableMeets {ok : σ → ι → Prop} [∀ s i, Decidable (ok s i)] :
    ∀ (s : σ) (is : List ι), Decidable (M.Meets ok s is)
  | _, [] => isTrue trivial
  | s, i :: is =>
    match h : M.step s i with
    | some r =>
      let _ : Decidable (M.Meets ok r.2 is) := decidableMeets r.2 is
      decidable_of_iff (ok s i ∧ M.Meets ok r.2 is) (by simp only [Meets, h, Option.some.injEq,
        forall_eq'])
    | none => decidable_of_iff (ok s i) (by simp only [Meets, h, reduceCtorEq, false_implies,
        implies_true, and_true])

theorem run_cons_eq_some {s t : σ} {i : ι} {is : List ι} {os : List ο} :
    M.run s (i :: is) = some (os, t) ↔ ∃ o s' os', M.step s i = some (o, s') ∧
      M.run s' is = some (os', t) ∧ os = o :: os' := by
  simp only [run, Option.bind_eq_some_iff, Option.some.injEq, Prod.mk.injEq]
  constructor
  · rintro ⟨⟨o, s'⟩, hstep, ⟨os', t'⟩, hrun, rfl, rfl⟩
    exact ⟨o, s', os', hstep, hrun, rfl⟩
  · rintro ⟨o, s', os', hstep, hrun, rfl⟩
    exact ⟨(o, s'), hstep, (os', t), hrun, rfl, rfl⟩

theorem run_simulates {ok : σ → ι → Prop} {R : σ → τ → Prop}
    (hstep : ∀ s t i o s', R s t → ok s i → M.step s i = some (o, s') →
      ∃ t', N.step t i = some (o, t') ∧ R s' t') {s s' : σ} {t : τ} {is : List ι} {os : List ο}
    (h₀ : R s t) (hok : M.Meets ok s is) (hrun : M.run s is = some (os, s')) :
    ∃ t', N.run t is = some (os, t') ∧ R s' t' := by
  induction is generalizing s t os with
  | nil =>
    obtain ⟨rfl, rfl⟩ := Prod.mk.inj (Option.some.inj hrun)
    exact ⟨t, rfl, h₀⟩
  | cons i is ih =>
    obtain ⟨o, s₁, os', hs, hrest, rfl⟩ := M.run_cons_eq_some.mp hrun
    obtain ⟨t₁, ht, hrel⟩ := hstep s t i o s₁ h₀ hok.1 hs
    obtain ⟨t', hrun', hrel'⟩ := ih hrel (hok.2 _ hs) hrest
    exact ⟨t', N.run_cons_eq_some.mpr ⟨o, t₁, os', ht, hrun', rfl⟩, hrel'⟩

theorem meets_of_forall {ok : ι → Prop} {is : List ι} (h : ∀ i ∈ is, ok i) (s : σ) :
    M.Meets (fun _ => ok) s is := by
  induction is generalizing s with
  | nil => trivial
  | cons i is ih =>
    obtain ⟨hi, his⟩ := List.forall_mem_cons.mp h
    exact ⟨hi, fun r _ => ih his r.2⟩

end Transducer

end Foundations
