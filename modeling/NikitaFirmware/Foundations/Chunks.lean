import Mathlib.Algebra.Ring.Nat
import Mathlib.Data.Option.Basic
import Mathlib.Tactic.Common

/-!
# Work done in chunks

Work of some length is done in chunks of at most so many units: each step is given where its chunk
begins and how long it is, and the first one that fails ends it. With chunks of no unit there is no
progress.
-/

namespace Foundations

open Option
section Chunked
variable {S E : Type} (step : Nat → Nat → S → Option E × S) (chunkMax : Nat)

def chunked : Nat → Nat → Nat → S → Option (Option E × S)
  | 0, _, _, _ => none
  | fuel + 1, offset, length, s =>
    if length = 0 then some (none, s)
    else
      let n := min length chunkMax
      match (step offset n s).1 with
      | some e => some (some e, (step offset n s).2)
      | none => chunked fuel (offset + n) (length - n) (step offset n s).2

variable {step chunkMax} {fuel offset length : Nat} {s : S}

theorem chunked_zero : chunked step chunkMax (fuel + 1) offset 0 s = some (none, s) :=
  if_pos rfl

theorem chunked_error {e : E} (hlength : length ≠ 0)
    (h : (step offset (min length chunkMax) s).1 = some e) :
    chunked step chunkMax (fuel + 1) offset length s =
      some (some e, (step offset (min length chunkMax) s).2) := by
  rw [chunked, if_neg hlength]
  dsimp only
  rw [h]

theorem chunked_next (hlength : length ≠ 0) (h : (step offset (min length chunkMax) s).1 = none) :
    chunked step chunkMax (fuel + 1) offset length s =
      chunked step chunkMax fuel (offset + min length chunkMax) (length - min length chunkMax)
        (step offset (min length chunkMax) s).2 := by
  rw [chunked, if_neg hlength]
  dsimp only
  rw [h]

theorem chunked_unique {fuel' : Nat} {done done' : Option E × S}
    (h : chunked step chunkMax fuel offset length s = some done)
    (h' : chunked step chunkMax fuel' offset length s = some done') : done = done' := by
  induction fuel generalizing fuel' offset length s with
  | zero => exact absurd h.symm (some_ne_none _)
  | succ fuel ih =>
    cases fuel' with
    | zero => exact absurd h'.symm (some_ne_none _)
    | succ fuel' =>
      by_cases hlength : length = 0
      · obtain rfl := hlength
        rw [chunked_zero] at h h'
        exact some.inj (h.symm.trans h')
      · cases hstep : (step offset (min length chunkMax) s).1 with
        | some e =>
          rw [chunked_error hlength hstep] at h h'
          exact some.inj (h.symm.trans h')
        | none =>
          rw [chunked_next hlength hstep] at h h'
          exact ih h h'

theorem chunked_ends (hchunk : chunkMax ≠ 0) (hfuel : length < fuel) :
    ∃ done, chunked step chunkMax fuel offset length s = some done := by
  induction fuel generalizing offset length s with
  | zero => exact absurd hfuel (Nat.not_lt_zero _)
  | succ fuel ih =>
    by_cases hlength : length = 0
    · exact ⟨_, hlength ▸ chunked_zero⟩
    · cases hstep : (step offset (min length chunkMax) s).1 with
      | some e => exact ⟨_, chunked_error hlength hstep⟩
      | none =>
        rw [chunked_next hlength hstep]
        exact ih (by omega)

theorem chunked_endless {I : S → Prop} (hlength : length ≠ 0)
    (hstep : ∀ s, I s → (step offset 0 s).1 = none ∧ I (step offset 0 s).2) (hs : I s) :
    chunked step 0 fuel offset length s = none := by
  induction fuel generalizing s with
  | zero => rfl
  | succ fuel ih =>
    obtain ⟨hnone, hnext⟩ := hstep s hs
    have hmin : min length 0 = 0 := Nat.min_zero length
    rw [chunked_next hlength (by rw [hmin]; exact hnone), hmin]
    exact ih hnext

theorem chunked_keeps {P : S → Prop} {first last : Nat} {done : Option E × S}
    (hstep : ∀ o n s, first ≤ o → n ≤ chunkMax → (chunkMax ≠ 0 → 0 < n) → o + n ≤ last → P s →
      P (step o n s).2)
    (hfirst : first ≤ offset) (hlast : offset + length ≤ last) (hs : P s)
    (hdone : chunked step chunkMax fuel offset length s = some done) : P done.2 := by
  induction fuel generalizing offset length s with
  | zero => exact absurd hdone.symm (some_ne_none _)
  | succ fuel ih =>
    by_cases hlength : length = 0
    · obtain rfl := hlength
      obtain rfl := some.inj (chunked_zero.symm.trans hdone)
      exact hs
    · have hnext := hstep offset (min length chunkMax) s hfirst (by omega) (by omega) (by omega) hs
      cases hresult : (step offset (min length chunkMax) s).1 with
      | some e =>
        obtain rfl := some.inj ((chunked_error hlength hresult).symm.trans hdone)
        exact hnext
      | none =>
        rw [chunked_next hlength hresult] at hdone
        exact ih (by omega) (by omega) hnext hdone

theorem chunked_spec {I : Nat → S → Prop} {Fits : Nat → Prop} {last : Nat} (hchunk : chunkMax ≠ 0)
    (hstep : ∀ o n s, I o s → 0 < n → n ≤ chunkMax → o + n ≤ last →
      (Fits o → (step o n s).1 = none ∧ I (o + n) (step o n s).2) ∧
        (¬ Fits o → (step o n s).1 ≠ none))
    (hfuel : length < fuel) (hlast : offset + length ≤ last) (hs : I offset s) :
    ∃ done, chunked step chunkMax fuel offset length s = some done ∧
      (done.1 = none ↔ ∀ k, k * chunkMax < length → Fits (offset + k * chunkMax)) ∧
      (done.1 = none → I (offset + length) done.2) := by
  induction fuel generalizing offset length s with
  | zero => exact absurd hfuel (Nat.not_lt_zero _)
  | succ fuel ih =>
    by_cases hlength : length = 0
    · obtain rfl := hlength
      exact ⟨_, chunked_zero, ⟨fun _ k hk => absurd hk (Nat.not_lt_zero _), fun _ => rfl⟩,
        fun _ => hs⟩
    · have hmin : 0 < min length chunkMax := by omega
      obtain ⟨hfits, hfails⟩ := hstep offset (min length chunkMax) s hs hmin (by omega) (by omega)
      by_cases hfit : Fits offset
      · obtain ⟨hnone, hnext⟩ := hfits hfit
        obtain ⟨done, hdone, hiff, hI⟩ := @ih (offset + min length chunkMax)
          (length - min length chunkMax) _ (by omega) (by omega) hnext
        refine ⟨done, (chunked_next hlength hnone).trans hdone, hiff.trans ⟨?_, ?_⟩, ?_⟩
        · intro h k hk
          cases k with
          | zero => rwa [Nat.zero_mul]
          | succ k =>
            rw [Nat.succ_mul] at hk ⊢
            have hmin' : min length chunkMax = chunkMax := by omega
            have := h k (by omega)
            rwa [hmin', Nat.add_assoc, Nat.add_comm chunkMax] at this
        · intro h k hk
          have hmin' : min length chunkMax = chunkMax := by omega
          have := h (k + 1) (by rw [Nat.succ_mul]; omega)
          rwa [hmin', Nat.add_assoc, Nat.add_comm chunkMax, ← Nat.succ_mul]
        · intro h
          have := hI h
          rwa [Nat.add_assoc, Nat.add_sub_cancel' (by omega)] at this
      · obtain ⟨e, he⟩ := ne_none_iff_exists'.mp (hfails hfit)
        refine ⟨_, chunked_error hlength he, ⟨fun h => absurd h (some_ne_none _),
          fun h => absurd (h 0 (by omega)) (by rwa [Nat.zero_mul])⟩,
          fun h => absurd h (some_ne_none _)⟩

end Chunked
end Foundations
