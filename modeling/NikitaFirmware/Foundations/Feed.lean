import NikitaFirmware.Foundations.Bytes

/-!
# Receive and send callbacks

A reader of a byte stream asks a callback for a number of bytes and is handed over some of them. A
callback delivers a stream if the pieces it hands over, whatever was asked for, are the stream in
order.
-/

namespace Foundations

open List
/-- A receive callback: the state and the number of bytes asked for give the piece handed over. -/
structure Source (σ : Type) where
  receive : σ → Nat → Bytes × σ

/-- A send callback: it answers how many bytes it took. -/
structure Sink (σ : Type) where
  send : σ → Bytes → Nat × σ

/-- The send callback that takes everything. -/
def Sink.all : Sink Bytes where
  send sent data := (data.length, sent ++ data)

/-- Any piece of `data` is taken whole; `state` is where the bytes taken so far lead. -/
def Sink.Collects {τ : Type} (sink : Sink τ) (state : Bytes → τ) (data : Bytes) : Prop :=
  ∀ a b, a ++ b <+: data → sink.send (state a) b = (b.length, state (a ++ b))

theorem Sink.all_collects (sent data : Bytes) : Sink.all.Collects (sent ++ ·) data := by
  intro a b _
  exact Prod.ext rfl (append_assoc sent a b)

/-- There is room for `capacity` bytes; `Holds taken state` says that `taken` has been taken so far.
A piece that is longer than the room is taken as far as that goes. -/
structure Sink.Fills {τ : Type} (sink : Sink τ) (Holds : Bytes → τ → Prop) (capacity : Nat) :
    Prop where
  length_le {taken : Bytes} {t : τ} (h : Holds taken t) : taken.length ≤ capacity
  send_fst {taken : Bytes} {t : τ} (h : Holds taken t) (piece : Bytes) :
    (sink.send t piece).1 = min piece.length (capacity - taken.length)
  send_snd {taken : Bytes} {t : τ} (h : Holds taken t) (piece : Bytes) :
    Holds (taken ++ piece.take (capacity - taken.length)) (sink.send t piece).2

theorem Sink.Fills.send_of_le {τ : Type} {sink : Sink τ} {Holds : Bytes → τ → Prop}
    {capacity : Nat} (hsink : sink.Fills Holds capacity) {taken piece : Bytes} {t : τ}
    (h : Holds taken t) (hle : taken.length + piece.length ≤ capacity) :
    (sink.send t piece).1 = piece.length ∧ Holds (taken ++ piece) (sink.send t piece).2 := by
  have hfst := hsink.send_fst h piece
  have hsnd := hsink.send_snd h piece
  rw [take_of_length_le (by omega)] at hsnd
  exact ⟨hfst.trans (by omega), hsnd⟩

namespace Source
variable {σ : Type} (source : Source σ)

/-- No piece is longer than what was asked for. -/
def Bounded : Prop := ∀ s n, (source.receive s n).1.length ≤ n

def logged : Source (σ × Bytes) where
  receive s n := ((source.receive s.1 n).1, (source.receive s.1 n).2, s.2 ++ (source.receive s.1 n).1)

/-- The pieces handed over from here on are `stream`, each of them of at least one byte and of no more
than what was asked for. -/
inductive Delivers : σ → Bytes → Prop
  | done (s : σ) : Delivers s []
  | more {s : σ} {stream : Bytes}
      (piece : ∀ n, 0 < n → (source.receive s n).1 ≠ [] ∧ (source.receive s n).1.length ≤ n ∧
        (source.receive s n).1 <+: stream)
      (next : ∀ n, 0 < n →
        Delivers (source.receive s n).2 (stream.drop (source.receive s n).1.length)) :
      Delivers s stream

/-- `stream` is delivered, and then nothing more is handed over. -/
inductive Exhausts : σ → Bytes → Prop
  | done {s : σ} (ended : ∀ n, (source.receive s n).1 = []) : Exhausts s []
  | more {s : σ} {stream : Bytes} (ne : stream ≠ [])
      (piece : ∀ n, 0 < n → (source.receive s n).1 ≠ [] ∧ (source.receive s n).1.length ≤ n ∧
        (source.receive s n).1 <+: stream)
      (next : ∀ n, 0 < n →
        Exhausts (source.receive s n).2 (stream.drop (source.receive s n).1.length)) :
      Exhausts s stream

variable {source}

theorem Exhausts.ended {s : σ} (h : source.Exhausts s []) (n : Nat) :
    (source.receive s n).1 = [] := by
  cases h with
  | done ended => exact ended n
  | more ne => exact absurd rfl ne

theorem Exhausts.delivers {s : σ} {stream : Bytes} (h : source.Exhausts s stream) :
    source.Delivers s stream := by
  induction h with
  | done => exact .done _
  | more _ piece _ ih => exact .more piece ih

theorem Exhausts.receive {s : σ} {stream : Bytes} (h : source.Exhausts s stream)
    (hne : stream ≠ []) {n : Nat} (hn : 0 < n) :
    ∃ piece rest s', source.receive s n = (piece, s') ∧ stream = piece ++ rest ∧ piece ≠ [] ∧
      piece.length ≤ n ∧ source.Exhausts s' rest := by
  cases h with
  | done => exact absurd rfl hne
  | more _ piece next =>
    obtain ⟨hpiece, hlength, rest, hrest⟩ := piece n hn
    refine ⟨_, rest, _, rfl, hrest.symm, hpiece, hlength, ?_⟩
    have hnext := next n hn
    rwa [← hrest, drop_left] at hnext

theorem Delivers.receive {s : σ} {stream : Bytes} (h : source.Delivers s stream)
    (hne : stream ≠ []) {n : Nat} (hn : 0 < n) :
    ∃ piece rest s', source.receive s n = (piece, s') ∧ stream = piece ++ rest ∧ piece ≠ [] ∧
      piece.length ≤ n ∧ source.Delivers s' rest := by
  cases h with
  | done => exact absurd rfl hne
  | more piece next =>
    obtain ⟨hpiece, hlength, rest, hrest⟩ := piece n hn
    refine ⟨_, rest, _, rfl, hrest.symm, hpiece, hlength, ?_⟩
    have hnext := next n hn
    rwa [← hrest, drop_left] at hnext

/-- The next piece, where no more is asked for than `a`. -/
theorem Delivers.receive_append {s : σ} {a rest : Bytes} (h : source.Delivers s (a ++ rest)) {n : Nat}
    (hn : 0 < n) (hle : n ≤ a.length) :
    ∃ m s', source.receive s n = (a.take m, s') ∧ 0 < m ∧ m ≤ n ∧
      source.Delivers s' (a.drop m ++ rest) := by
  have hne : a ++ rest ≠ [] := fun hnil => by
    rw [(append_eq_nil_iff.mp hnil).1] at hle
    exact absurd hle (by simp only [length_nil]; omega)
  obtain ⟨piece, rest', s', hreceive, hstream, hpiece, hlength, hnext⟩ := h.receive hne hn
  have htake : a.take piece.length = piece := by
    have := congrArg (List.take piece.length) hstream
    rwa [take_append_of_le_length (by omega), take_left] at this
  have hdrop : a.drop piece.length ++ rest = rest' := by
    have := congrArg (List.drop piece.length) hstream
    rwa [drop_append_of_le_length (by omega), drop_left] at this
  refine ⟨piece.length, s', ?_, length_pos_iff.mpr hpiece, hlength, ?_⟩
  · rw [hreceive, htake]
  · rwa [hdrop]

/-- The source that hands over a list byte by byte. -/
def bytewise : Source Bytes where
  receive stream n := (stream.take (min n 1), stream.drop (min n 1))

theorem bytewise_exhausts (stream : Bytes) : bytewise.Exhausts stream stream := by
  induction stream with
  | nil => exact .done fun n => take_nil
  | cons b bs ih =>
    have hreceive : ∀ n, 0 < n → bytewise.receive (b :: bs) n = ([b], bs) := by
      intro n hn
      have hmin : min n 1 = 1 := by omega
      show ((b :: bs).take (min n 1), (b :: bs).drop (min n 1)) = _
      rw [hmin]
      rfl
    refine .more (cons_ne_nil _ _) (fun n hn => ?_) fun n hn => ?_
    · rw [hreceive n hn]
      exact ⟨cons_ne_nil _ _, hn, bs, rfl⟩
    · rw [hreceive n hn]
      exact ih

theorem bytewise_delivers (stream : Bytes) : bytewise.Delivers stream stream :=
  (bytewise_exhausts stream).delivers

/-- The source that hands over as much of a list as is asked for. -/
def atOnce : Source Bytes where
  receive stream n := (stream.take n, stream.drop n)

theorem atOnce_exhausts (stream : Bytes) : atOnce.Exhausts stream stream := by
  induction hlen : stream.length using Nat.strong_induction_on generalizing stream with
  | _ k ih =>
    by_cases hne : stream = []
    · subst hne
      exact .done fun n => take_nil
    · have hpos := length_pos_iff.mpr hne
      refine .more hne (fun n hn => ⟨?_, ?_, stream.take_prefix n⟩) fun n hn => ?_
      · refine length_pos_iff.mp ?_
        change 0 < (stream.take n).length
        rw [length_take]
        omega
      · change (stream.take n).length ≤ n
        exact length_take_le n stream
      · change atOnce.Exhausts (stream.drop n) (stream.drop (stream.take n).length)
        have hdrop : stream.drop (stream.take n).length = stream.drop n := by
          rw [length_take]
          rcases Nat.le_total n stream.length with hle | hle
          · rw [Nat.min_eq_left hle]
          · rw [Nat.min_eq_right hle, drop_length, drop_eq_nil_of_le hle]
        rw [hdrop]
        refine ih _ ?_ _ rfl
        rw [length_drop]
        omega

end Source

end Foundations
