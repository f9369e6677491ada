import NikitaFirmware.Foundations.Bytes

/-!
# Decoders that read from a stream

A decoder either ends, with a message or without one, or asks its stream for a positive number
of bytes and goes on with the answer. The answer is the bytes, the end of the stream, or a
refusal. What a decoder makes of a stream that never ends it is described by the bytes it
follows; a stream is cut into messages by running the same decoder again after each of them.
-/

namespace Foundations

open List
/-- A decoder; `read n` asks for `n + 1` bytes. -/
inductive Decode (M : Type)
  | ret (m : M)
  | fail
  | read (n : Nat) (next : Bytes → Decode M) (eof refused : Decode M)

/-- A request for `n + 1` bytes, with what the decoder makes of each answer. -/
structure Request (M : Type) where
  n : Nat
  next : Bytes → Decode M
  eof : Decode M
  refused : Decode M

namespace Decode

variable {M : Type} {d d₁ d₂ : Decode M} {a b e bs rest : Bytes} {m : M} {ms : List M}

def Stopped : Decode M → Prop
  | ret _ | fail => True
  | read .. => False

/-- The message the decoder ends with when every further read is refused. -/
def refuse : Decode M → Option M
  | ret m => some m
  | fail => none
  | read _ _ _ refused => refused.refuse

def refusals : Decode M → Nat
  | ret _ | fail => 0
  | read _ _ _ refused => refused.refusals + 1

/-- `Follows d bs d'`: reading exactly the bytes `bs`, the decoder `d` comes to `d'`. -/
inductive Follows : Decode M → Bytes → Decode M → Prop
  | refl (d : Decode M) : Follows d [] d
  | read {n : Nat} {next : Bytes → Decode M} {eof refused d' : Decode M} {chunk bs : Bytes}
      (hlen : chunk.length = n + 1) (h : Follows (next chunk) bs d') :
      Follows (.read n next eof refused) (chunk ++ bs) d'

theorem Follows.trans (h₁ : Follows d a d₁) (h₂ : Follows d₁ b d₂) : Follows d (a ++ b) d₂ := by
  induction h₁ with
  | refl d => exact h₂
  | read hlen _ ih =>
    rw [append_assoc]
    exact .read hlen (ih h₂)

theorem Follows.answer {n : Nat} {next : Bytes → Decode M} {eof refused : Decode M}
    (h : Follows d a (.read n next eof refused)) (hb : b.length = n + 1) :
    Follows d (a ++ b) (next b) := by
  have hf : Follows (.read n next eof refused) (b ++ []) (next b) := .read hb (.refl _)
  rw [append_nil] at hf
  exact h.trans hf

def Incomplete (d : Decode M) (bs : Bytes) : Prop :=
  ∀ e d', e <+: bs → Follows d e d' → ¬ d'.Stopped

theorem Follows.incomplete {n : Nat} {next : Bytes → Decode M} {eof refused : Decode M}
    (h : Follows d a (.read n next eof refused)) (hb : b.length ≤ n) :
    Incomplete d (a ++ b) := by
  generalize hw : Decode.read n next eof refused = w at h
  induction h with
  | refl d =>
    subst hw
    intro e d' hpre hf
    cases hf with
    | refl => exact not_false
    | read hlen _ =>
      -- the first chunk alone is longer than what there is
      have hle := hpre.length_le
      rw [length_append, nil_append] at hle
      omega
  | @read n₀ next₀ eof₀ refused₀ d' chunk a' hlen _ ih =>
    intro e d₂ hpre hf
    cases hf with
    | refl => exact not_false
    | @read _ _ _ _ _ chunk' e' hlen' hf' =>
      rw [append_assoc] at hpre
      have hchunk : chunk' = chunk := by
        have hp₁ : chunk' <+: chunk ++ (a' ++ b) := (List.prefix_append _ _).trans hpre
        have hp₂ : chunk <+: chunk ++ (a' ++ b) := List.prefix_append _ _
        exact (prefix_of_prefix_length_le hp₁ hp₂ (by omega)).eq_of_length (by omega)
      subst hchunk
      exact ih hw e' d₂ ((prefix_append_right_inj _).mp hpre) hf'

/-- `Messages d bs ms rest`: the bytes are the encodings of the messages `ms`, one after the
other, and then `rest`. -/
inductive Messages (d : Decode M) : Bytes → List M → Bytes → Prop
  | nil (rest : Bytes) : Messages d rest [] rest
  | cons {e bs rest : Bytes} {m : M} {ms : List M} (he : Follows d e (.ret m))
      (h : Messages d bs ms rest) : Messages d (e ++ bs) (m :: ms) rest

theorem Messages.append (h : Messages d bs ms rest) (x : Bytes) :
    Messages d (bs ++ x) ms (rest ++ x) := by
  induction h with
  | nil rest => exact .nil _
  | cons he _ ih =>
    rw [append_assoc]
    exact .cons he ih

theorem Messages.snoc (h : Messages d bs ms (e ++ rest)) (he : Follows d e (.ret m)) :
    Messages d bs (ms ++ [m]) rest := by
  generalize hr : e ++ rest = r at h
  induction h with
  | nil r =>
    rw [← hr]
    exact .cons he (.nil rest)
  | cons he' _ ih => exact .cons he' (ih hr)

end Decode

namespace Request

variable {M : Type}

/-- A decoder that asks before it answers. -/
def start (r : Request M) : Decode M := .read r.n r.next r.eof r.refused

end Request

namespace Decode

variable {M : Type} {d : Decode M} {q : Request M}

def request? : Decode M → Option (Request M)
  | read n next eof refused => some ⟨n, next, eof, refused⟩
  | ret _ | fail => none

theorem start_of_request? (h : d.request? = some q) : q.start = d := by
  cases d with
  | read n next eof refused =>
    obtain rfl := Option.some.inj h
    rfl
  | ret m | fail => cases h

def answered : Decode M → List Bytes → Option (Decode M)
  | d, [] => some d
  | read n next _ _, chunk :: chunks =>
    if chunk.length = n + 1 then (next chunk).answered chunks else none
  | ret _, _ :: _ | fail, _ :: _ => none

theorem follows_of_answered {chunks : List Bytes} {d' : Decode M}
    (h : d.answered chunks = some d') : d.Follows chunks.flatten d' := by
  induction chunks generalizing d with
  | nil =>
    rw [answered] at h
    exact Option.some.inj h ▸ .refl d
  | cons chunk chunks ih =>
    cases d with
    | read n next eof refused =>
      rw [answered] at h
      split at h
      next hlen => exact .read hlen (ih h)
      next => simp at h
    | ret m | fail => simp [answered] at h

theorem incomplete_of_answered (chunks : List Bytes)
    (h : ((d.answered chunks).bind request?).isSome) : d.Incomplete chunks.flatten := by
  obtain ⟨q, hq⟩ := Option.isSome_iff_exists.mp h
  obtain ⟨d', hd, hq⟩ := Option.bind_eq_some_iff.mp hq
  have hfollows := follows_of_answered hd
  rw [← start_of_request? hq] at hfollows
  have hincomplete := hfollows.incomplete (b := []) (Nat.zero_le _)
  rwa [append_nil] at hincomplete

end Decode

end Foundations
