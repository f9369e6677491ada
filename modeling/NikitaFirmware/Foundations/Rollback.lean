import Mathlib.Data.List.Basic

/-!
# Keystream generators

A generator has a state from which it puts out a bit, and into which a bit is shifted. What is
shifted in may be plain or encrypted with the bit that is put out; two generators stay in the same
state where one of them gets the plain bits and the other one the encrypted bits.
-/

namespace Foundations

open List
structure KeystreamGenerator (σ : Type) where
  out : σ → Bool
  next : σ → Bool → σ

namespace KeystreamGenerator

variable {σ : Type} (g : KeystreamGenerator σ)

/-- One bit goes in, and the keystream bit comes out. -/
def step (s : σ) (input isEncrypted : Bool) : Bool × σ :=
  (g.out s, g.next s (input ^^ (isEncrypted && g.out s)))

/-- The keystream of a sequence of bits, and the state behind it. -/
def run (s : σ) (isEncrypted : Bool) : List Bool → List Bool × σ
  | [] => ([], s)
  | b :: bs =>
    let rest := run (g.step s b isEncrypted).2 isEncrypted bs
    (g.out s :: rest.1, rest.2)

variable {g} {s : σ} {e : Bool} {bs cs : List Bool}

theorem run_cons (b : Bool) : g.run s e (b :: bs) =
    (g.out s :: (g.run (g.step s b e).2 e bs).1, (g.run (g.step s b e).2 e bs).2) := rfl

@[simp] theorem length_run : (g.run s e bs).1.length = bs.length := by
  induction bs generalizing s with
  | nil => rfl
  | cons b bs ih => rw [run_cons, length_cons, length_cons, ih]

theorem run_append : g.run s e (bs ++ cs) =
    ((g.run s e bs).1 ++ (g.run (g.run s e bs).2 e cs).1, (g.run (g.run s e bs).2 e cs).2) := by
  induction bs generalizing s with
  | nil => rfl
  | cons b bs ih => rw [cons_append, run_cons, ih, run_cons, cons_append]

/-- Bits under their keystream. -/
def cover (bs ks : List Bool) : List Bool := List.zipWith (· ^^ ·) bs ks

theorem length_cover (h : bs.length = cs.length) : (cover bs cs).length = bs.length := by
  rw [cover, length_zipWith, h, Nat.min_self]

theorem cover_cover (h : bs.length = cs.length) : cover (cover bs cs) cs = bs := by
  induction bs generalizing cs with
  | nil => rfl
  | cons b bs ih =>
    cases cs with
    | nil => cases h
    | cons c cs =>
      rw [length_cons, length_cons, Nat.add_right_cancel_iff] at h
      change ((b ^^ c) ^^ c) :: cover (cover bs cs) cs = b :: bs
      rw [ih h, Bool.xor_assoc, Bool.xor_self, Bool.xor_false]

theorem cover_append {bs' cs' : List Bool} (h : bs.length = cs.length) :
    cover (bs ++ bs') (cs ++ cs') = cover bs cs ++ cover bs' cs' :=
  zipWith_append h

theorem run_encrypted (s : σ) (bs : List Bool) :
    g.run s true (cover bs (g.run s false bs).1) = g.run s false bs := by
  induction bs generalizing s with
  | nil => rfl
  | cons b bs ih =>
    have hstep : (g.step s (b ^^ g.out s) true).2 = (g.step s b false).2 := by
      change g.next s ((b ^^ g.out s) ^^ (true && g.out s)) = g.next s (b ^^ (false && g.out s))
      cases b <;> cases g.out s <;> rfl
    change g.run s true ((b ^^ g.out s) :: cover bs (g.run (g.step s b false).2 false bs).1) = _
    rw [run_cons, run_cons, hstep, ih]

variable {τ : Type}

/-- A way back, up to what `used` shows of a state. -/
structure Rollback (g : KeystreamGenerator σ) (used : σ → τ) where
  back : σ → Bool → Bool → Bool × σ
  out_congr : ∀ {s t}, used s = used t → g.out s = g.out t
  next_congr : ∀ {s t} b, used s = used t → used (g.next s b) = used (g.next t b)
  back_congr : ∀ {s t} b e, used s = used t →
    (back s b e).1 = (back t b e).1 ∧ used (back s b e).2 = used (back t b e).2
  back_step : ∀ s b e, (back (g.step s b e).2 b e).1 = g.out s ∧
    used (back (g.step s b e).2 b e).2 = used s
  step_back : ∀ s b e, g.out (back s b e).2 = (back s b e).1 ∧
    used (g.step (back s b e).2 b e).2 = used s

namespace Rollback

variable {g : KeystreamGenerator σ} {used : σ → τ} (r : Rollback g used) {s t : σ} {e : Bool}
  {bs : List Bool}

/-- A sequence is taken back; the keystream is in the order of the sequence. -/
def unrun (s : σ) (e : Bool) : List Bool → List Bool × σ
  | [] => ([], s)
  | b :: bs =>
    let rest := unrun s e bs
    ((r.back rest.2 b e).1 :: rest.1, (r.back rest.2 b e).2)

theorem unrun_cons (b : Bool) : r.unrun s e (b :: bs) =
    ((r.back (r.unrun s e bs).2 b e).1 :: (r.unrun s e bs).1,
      (r.back (r.unrun s e bs).2 b e).2) := rfl

include r in
theorem step_congr (b : Bool) (h : used s = used t) :
    used (g.step s b e).2 = used (g.step t b e).2 := by
  change used (g.next s (b ^^ (e && g.out s))) = used (g.next t (b ^^ (e && g.out t)))
  rw [r.out_congr h]
  exact r.next_congr _ h

include r in
theorem run_congr (e : Bool) (bs : List Bool) (h : used s = used t) :
    (g.run s e bs).1 = (g.run t e bs).1 ∧ used (g.run s e bs).2 = used (g.run t e bs).2 := by
  induction bs generalizing s t with
  | nil => exact ⟨rfl, h⟩
  | cons b bs ih =>
    obtain ⟨hks, hused⟩ := ih (r.step_congr b h)
    rw [run_cons, run_cons]
    exact ⟨congrArg₂ List.cons (r.out_congr h) hks, hused⟩

theorem unrun_run (s : σ) (e : Bool) (bs : List Bool) :
    (r.unrun (g.run s e bs).2 e bs).1 = (g.run s e bs).1 ∧
    used (r.unrun (g.run s e bs).2 e bs).2 = used s := by
  induction bs generalizing s with
  | nil => exact ⟨rfl, rfl⟩
  | cons b bs ih =>
    obtain ⟨hks, hused⟩ := ih (s := (g.step s b e).2)
    obtain ⟨hbit, hback⟩ := r.back_congr b e hused
    obtain ⟨hout, hstep⟩ := r.back_step s b e
    rw [unrun_cons, run_cons]
    exact ⟨congrArg₂ List.cons (hbit.trans hout) hks, hback.trans hstep⟩

theorem run_unrun (s : σ) (e : Bool) (bs : List Bool) :
    (g.run (r.unrun s e bs).2 e bs).1 = (r.unrun s e bs).1 ∧
    used (g.run (r.unrun s e bs).2 e bs).2 = used s := by
  induction bs with
  | nil => exact ⟨rfl, rfl⟩
  | cons b bs ih =>
    obtain ⟨hout, hstep⟩ := r.step_back (r.unrun s e bs).2 b e
    obtain ⟨hks, hused⟩ := r.run_congr e bs hstep
    rw [unrun_cons, run_cons]
    exact ⟨congrArg₂ List.cons hout (hks.trans ih.1), hused.trans ih.2⟩

end Rollback

end KeystreamGenerator

end Foundations
