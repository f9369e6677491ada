import Mathlib.Data.List.Basic

/-!
# Labelled machines and their runs

A machine steps on a label, and a label that is not enabled has no successor. All
nondeterminism (schedules, faults, values chosen by the environment) is carried by the
labels, so a list of labels determines a run and a concrete run can be evaluated.

`Machine.Meets` says that every step of a run is taken in a state where a side condition
holds; the invariant rules are stated once for plain runs and once for such runs.
-/

namespace Foundations

open List Option
/-- A partial deterministic transition function over labels. -/
structure Machine (σ : Type*) (α : Type*) where
  /-- The successor state, or `none` where the label is not enabled. -/
  step : σ → α → Option σ

namespace Machine

variable {σ α τ β : Type*} (M : Machine σ α)

/-- The state after a list of labels, when each of them is enabled in turn. -/
def run : σ → List α → Option σ
  | s, [] => some s
  | s, a :: as => (M.step s a).bind fun s' => run s' as

/-- Every step of the run from `s` is taken where `ok` holds. Labels past the first one
that is not enabled are not part of the run and carry no obligation. -/
def Meets (ok : σ → α → Prop) : σ → List α → Prop
  | _, [] => True
  | s, a :: as => ok s a ∧ match M.step s a with
    | some s' => Meets ok s' as
    | none => True

instance decidableMeets {ok : σ → α → Prop} [∀ s a, Decidable (ok s a)] :
    ∀ (s : σ) (as : List α), Decidable (M.Meets ok s as)
  | _, [] => isTrue trivial
  | s, a :: as =>
    match h : M.step s a with
    | some s' =>
      let _ : Decidable (M.Meets ok s' as) := decidableMeets s' as
      decidable_of_iff (ok s a ∧ M.Meets ok s' as) (by simp only [Meets, h])
    | none => decidable_of_iff (ok s a) (by simp only [Meets, h, and_true])

@[simp] theorem run_nil (s : σ) : M.run s [] = some s := rfl

@[simp] theorem meets_nil (ok : σ → α → Prop) (s : σ) : M.Meets ok s [] := trivial

theorem run_cons (s : σ) (a : α) (as : List α) :
    M.run s (a :: as) = (M.step s a).bind fun s' => M.run s' as := rfl

variable {as : List α}

variable {s t : σ}

theorem run_cons_eq_some {a : α} :
    M.run s (a :: as) = some t ↔ ∃ s', M.step s a = some s' ∧ M.run s' as = some t := by
  rw [run_cons, bind_eq_some_iff]

theorem run_append (s : σ) (as bs : List α) :
    M.run s (as ++ bs) = (M.run s as).bind fun t => M.run t bs := by
  induction as generalizing s with
  | nil => rfl
  | cons a as ih =>
    rw [cons_append, run_cons, run_cons, bind_assoc]
    exact congrArg _ (funext ih)

theorem run_append_of_run (h : M.run s as = some t) (bs : List α) :
    M.run s (as ++ bs) = M.run t bs := by
  rw [run_append, h, bind_some]

variable {ok : σ → α → Prop}

theorem meets_cons_of_step {s s' : σ} {a : α}
    (hs : M.step s a = some s') : M.Meets ok s (a :: as) ↔ ok s a ∧ M.Meets ok s' as := by
  simp only [Meets, hs]

variable {I : σ → Prop}

theorem run_invariant (hstep : ∀ s a s', I s → M.step s a = some s' → I s')
    (h₀ : I s) (h : M.run s as = some t) : I t := by
  induction as generalizing s with
  | nil =>
    rw [run_nil] at h
    exact some.inj h ▸ h₀
  | cons a as ih =>
    obtain ⟨s', hs, ht⟩ := M.run_cons_eq_some.mp h
    exact ih (hstep s a s' h₀ hs) ht

theorem run_accumulates {γ : Type*} {f : σ → List γ} {g : α → Option γ}
    (hstep : ∀ s a s', M.step s a = some s' → f s' = f s ++ (g a).toList)
    (h : M.run s as = some t) : f t = f s ++ as.filterMap g := by
  induction as generalizing s with
  | nil =>
    rw [run_nil] at h
    rw [some.inj h, filterMap_nil, append_nil]
  | cons a as ih =>
    obtain ⟨s', hs, ht⟩ := M.run_cons_eq_some.mp h
    rw [ih ht, hstep s a s' hs, append_assoc]
    congr 1
    cases hg : g a with
    | none => rw [filterMap_cons_none hg]; rfl
    | some c => rw [filterMap_cons_some hg]; rfl

/-- A property that is preserved by the steps taken where `ok` holds is an invariant of
the runs all of whose steps meet `ok`. -/
theorem run_invariant_of_meets (hstep : ∀ s a s', I s → ok s a → M.step s a = some s' → I s')
    (h₀ : I s) (hm : M.Meets ok s as) (h : M.run s as = some t) : I t := by
  induction as generalizing s with
  | nil =>
    rw [run_nil] at h
    exact some.inj h ▸ h₀
  | cons a as ih =>
    obtain ⟨s', hs, ht⟩ := M.run_cons_eq_some.mp h
    obtain ⟨hok, hm⟩ := (M.meets_cons_of_step hs).mp hm
    exact ih (hstep s a s' h₀ hok hs) hm ht

/-- Where the steps that meet `ok` keep an invariant that gives `P`, and every other step
destroys `P`, a run meets `ok` exactly when `P` holds all along it. -/
theorem meets_iff_always {I P : σ → Prop}
    (hstep : ∀ s a s', I s → ok s a → M.step s a = some s' → I s')
    (hP : ∀ s, I s → P s)
    (hbad : ∀ s a s', I s → ¬ ok s a → M.step s a = some s' → ¬ P s')
    (h₀ : I s) (h : M.run s as = some t) :
    M.Meets ok s as ↔ ∀ pre u, pre <+: as → M.run s pre = some u → P u := by
  induction as generalizing s with
  | nil =>
    refine iff_of_true (M.meets_nil ok s) fun pre u hpre hu => ?_
    rw [prefix_nil.mp hpre, run_nil] at hu
    exact some.inj hu ▸ hP s h₀
  | cons a as ih =>
    obtain ⟨s', hs, ht⟩ := M.run_cons_eq_some.mp h
    rw [M.meets_cons_of_step hs]
    constructor
    · rintro ⟨hok, hm⟩ pre u hpre hu
      cases pre with
      | nil =>
        rw [run_nil] at hu
        exact some.inj hu ▸ hP s h₀
      | cons b pre =>
        obtain ⟨rfl, htail⟩ := cons_prefix_cons.mp hpre
        obtain ⟨s₁, hs₁, hu'⟩ := M.run_cons_eq_some.mp hu
        obtain rfl := some.inj (hs.symm.trans hs₁)
        exact (ih (hstep s b s' h₀ hok hs) ht).mp hm pre u htail hu'
    · intro hall
      have hok : ok s a := by
        by_contra hok
        refine hbad s a s' h₀ hok hs (hall [a] s' (List.prefix_append [a] as) ?_)
        rw [run_cons, hs, bind_some, run_nil]
      refine ⟨hok, (ih (hstep s a s' h₀ hok hs) ht).mpr fun pre u hpre hu => ?_⟩
      refine hall (a :: pre) u (cons_prefix_cons.mpr ⟨rfl, hpre⟩) ?_
      rw [run_cons, hs, bind_some, hu]

/-- Once a run takes a step outside `ok`, a property that such a step establishes and that
every step preserves holds at the end. -/
theorem run_of_not_meets {I D : σ → Prop} (hI : ∀ s a s', I s → M.step s a = some s' → I s')
    (hbad : ∀ s a s', I s → ¬ ok s a → M.step s a = some s' → D s')
    (hD : ∀ s a s', I s → D s → M.step s a = some s' → D s')
    (h₀ : I s) (hm : ¬ M.Meets ok s as) (h : M.run s as = some t) : D t := by
  induction as generalizing s with
  | nil => exact absurd (M.meets_nil ok s) hm
  | cons a as ih =>
    obtain ⟨s', hs, ht⟩ := M.run_cons_eq_some.mp h
    by_cases hok : ok s a
    · exact ih (hI s a s' h₀ hs) (fun hm' => hm ((M.meets_cons_of_step hs).mpr ⟨hok, hm'⟩)) ht
    · have hJ : I s' ∧ D s' := ⟨hI s a s' h₀ hs, hbad s a s' h₀ hok hs⟩
      exact (M.run_invariant (I := fun s => I s ∧ D s)
        (fun s a s' h hs => ⟨hI s a s' h.1 hs, hD s a s' h.1 h.2 hs⟩) hJ ht).2

/-- `R` relates the states of `M` to those of `N`, and every step of `M` is matched by the
run of `N` whose labels are given by `labels`. -/
structure Simulates (N : Machine τ β) (R : σ → τ → Prop) (labels : σ → α → List β) : Prop where
  step : ∀ s a s' t, R s t → M.step s a = some s' → ∃ t', N.run t (labels s a) = some t' ∧ R s' t'

/-- The labels a run of `M` shows to the machine that simulates it. -/
def trace (labels : σ → α → List β) : σ → List α → List β
  | _, [] => []
  | s, a :: as => labels s a ++ match M.step s a with
    | some s' => trace labels s' as
    | none => []

theorem trace_cons_of_step {labels : σ → α → List β} {s s' : σ} {a : α}
    (hs : M.step s a = some s') :
    M.trace labels s (a :: as) = labels s a ++ M.trace labels s' as := by
  simp only [trace, hs]

theorem meets_append {as bs : List α} (h : M.run s as = some t) :
    M.Meets ok s (as ++ bs) ↔ M.Meets ok s as ∧ M.Meets ok t bs := by
  induction as generalizing s with
  | nil =>
    rw [run_nil] at h
    simp [some.inj h]
  | cons a as ih =>
    obtain ⟨s', hs, ht⟩ := M.run_cons_eq_some.mp h
    rw [cons_append, M.meets_cons_of_step hs, M.meets_cons_of_step hs, ih ht, and_assoc]

variable {ok ok' : σ → α → Prop}

theorem meets_and {s : σ} :
    M.Meets (fun s a => ok s a ∧ ok' s a) s as ↔ M.Meets ok s as ∧ M.Meets ok' s as := by
  induction as generalizing s with
  | nil => simp
  | cons a as ih =>
    cases hs : M.step s a with
    | none => simp only [Meets, hs, and_true]
    | some s' =>
      rw [M.meets_cons_of_step hs, M.meets_cons_of_step hs, M.meets_cons_of_step hs, ih]
      exact and_and_and_comm

theorem meets_of_invariant (hstep : ∀ s a s', I s → ok s a → M.step s a = some s' → I s')
    (hok : ∀ s a, I s → ok s a → ok' s a) {s : σ} (h₀ : I s)
    (hm : M.Meets ok s as) : M.Meets ok' s as := by
  induction as generalizing s with
  | nil => exact M.meets_nil ok' s
  | cons a as ih =>
    cases hs : M.step s a with
    | none =>
      simp only [Meets, hs, and_true] at hm ⊢
      exact hok s a h₀ hm
    | some s' =>
      rw [M.meets_cons_of_step hs] at hm ⊢
      exact ⟨hok s a h₀ hm.1, ih (hstep s a s' h₀ hm.1 hs) hm.2⟩

theorem run_of_meets (hstep : ∀ s a, I s → ok s a → ∃ s', M.step s a = some s' ∧ I s') {s : σ}
    (h₀ : I s) (hm : M.Meets ok s as) : ∃ t, M.run s as = some t ∧ I t := by
  induction as generalizing s with
  | nil => exact ⟨s, rfl, h₀⟩
  | cons a as ih =>
    have hok : ok s a := hm.1
    obtain ⟨s', hs, hI⟩ := hstep s a h₀ hok
    obtain ⟨t, ht, hIt⟩ := ih hI ((M.meets_cons_of_step hs).mp hm).2
    exact ⟨t, M.run_cons_eq_some.mpr ⟨s', hs, ht⟩, hIt⟩

theorem meets_of_meets (hstep : ∀ s a s', I s → M.step s a = some s' → I s')
    (hok : ∀ s a, I s → ok s a → ok' s a) {s : σ} (h₀ : I s)
    (hm : M.Meets ok s as) : M.Meets ok' s as :=
  M.meets_of_invariant (fun s a s' h _ => hstep s a s' h) hok h₀ hm

theorem meets_enabled_of_run (h : M.run s as = some t) :
    M.Meets (fun s a => ∃ s', M.step s a = some s') s as := by
  induction as generalizing s with
  | nil => exact M.meets_nil _ s
  | cons a as ih =>
    obtain ⟨s', hs, ht⟩ := M.run_cons_eq_some.mp h
    exact (M.meets_cons_of_step hs).mpr ⟨⟨s', hs⟩, ih ht⟩

section Simulation

variable {M} {N : Machine τ β} {R : σ → τ → Prop} {labels : σ → α → List β}

theorem Simulates.run (hsim : M.Simulates N R labels) {s s' : σ} {t : τ} {as : List α}
    (hR : R s t) (h : M.run s as = some s') :
    ∃ t', N.run t (M.trace labels s as) = some t' ∧ R s' t' := by
  induction as generalizing s t with
  | nil =>
    rw [run_nil] at h
    exact ⟨t, rfl, some.inj h ▸ hR⟩
  | cons a as ih =>
    obtain ⟨u, hs, ht⟩ := M.run_cons_eq_some.mp h
    obtain ⟨v, hv, hRv⟩ := hsim.step s a u t hR hs
    obtain ⟨w, hw, hRw⟩ := ih hRv ht
    refine ⟨w, ?_, hRw⟩
    rw [M.trace_cons_of_step hs, N.run_append_of_run hv, hw]

theorem Simulates.meets_iff (hsim : M.Simulates N R labels) {ok : σ → α → Prop} {ok' : τ → β → Prop}
    (hok : ∀ s a s' t, R s t → M.step s a = some s' → (ok s a ↔ N.Meets ok' t (labels s a)))
    {s s' : σ} {t : τ} {as : List α} (hR : R s t) (h : M.run s as = some s') :
    M.Meets ok s as ↔ N.Meets ok' t (M.trace labels s as) := by
  induction as generalizing s t with
  | nil => exact Iff.rfl
  | cons a as ih =>
    obtain ⟨u, hs, ht⟩ := M.run_cons_eq_some.mp h
    obtain ⟨v, hv, hRv⟩ := hsim.step s a u t hR hs
    rw [M.meets_cons_of_step hs, M.trace_cons_of_step hs, N.meets_append hv, hok s a u t hR hs,
      ih hRv ht]

end Simulation

section Inevitability

variable {M}

/-- Along every sequence of progress steps the goal is reached: there is always a next one until
then, and no sequence of them goes on for ever. -/
inductive Inevitable (M : Machine σ α) (progress : α → Prop) (goal : σ → Prop) : σ → Prop
  | intro {s : σ} (enabled : goal s ∨ ∃ a s', progress a ∧ M.step s a = some s')
      (next : ∀ a s', progress a → M.step s a = some s' → Inevitable M progress goal s') :
      Inevitable M progress goal s

theorem inevitable_of_measure {γ : Type*} {r : γ → γ → Prop} (hwf : WellFounded r) (μ : σ → γ)
    {progress : α → Prop} {goal I : σ → Prop}
    (hen : ∀ s, I s → goal s ∨ ∃ a s', progress a ∧ M.step s a = some s')
    (hstep : ∀ s a s', I s → progress a → M.step s a = some s' → I s' ∧ r (μ s') (μ s)) {s : σ}
    (h : I s) : M.Inevitable progress goal s := by
  have hmain : ∀ n, ∀ s, μ s = n → I s → M.Inevitable progress goal s := by
    intro n
    induction n using hwf.induction with
    | h n ih =>
      rintro s rfl hs
      refine .intro (hen s hs) fun a s' ha hs' => ?_
      obtain ⟨hI, hr⟩ := hstep s a s' hs ha hs'
      exact ih (μ s') hr s' rfl hI
  exact hmain (μ s) s rfl h

end Inevitability

end Machine

section Traces

variable {ε : Type*} {mark e : ε} {bad : ε → Prop} {log : List ε}

def NoneAfter (mark : ε) (bad : ε → Prop) (log : List ε) : Prop :=
  ∀ before after, log = before ++ mark :: after → ∀ e ∈ after, ¬ bad e

theorem NoneAfter.nil : NoneAfter mark bad [] := by
  intro before after h
  simp at h

theorem NoneAfter.concat (h : NoneAfter mark bad log) (he : mark ∉ log ∨ ¬ bad e) :
    NoneAfter mark bad (log ++ [e]) := by
  intro before after heq x hx
  rcases append_eq_append_iff.mp heq with ⟨y, -, htail⟩ | ⟨y, hlog, htail⟩
  · -- the mark is the last event
    have hlen := congrArg List.length htail
    rw [length_append, length_singleton, length_cons] at hlen
    have hnil : after = [] := eq_nil_of_length_eq_zero (by omega)
    rw [hnil] at hx
    exact absurd hx not_mem_nil
  · cases y with
    | nil =>
      obtain ⟨-, rfl⟩ := List.cons.inj htail
      exact absurd hx not_mem_nil
    | cons z y =>
      obtain ⟨rfl, rfl⟩ := List.cons.inj htail
      rcases mem_append.mp hx with hx | hx
      · exact h before y hlog x hx
      · rw [mem_singleton.mp hx]
        exact he.resolve_left (not_not_intro (hlog ▸ mem_append_right _ mem_cons_self))

end Traces

end Foundations
