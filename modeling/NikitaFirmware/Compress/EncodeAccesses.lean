import NikitaFirmware.Compress.Container
import NikitaFirmware.Foundations.Accesses

/-!
# What encoding touches

The accesses of `compress_encode` to the data and to the output buffer, in their order. The output
is polled behind the place of the header, and the room that is left for it is an unsigned
difference: in a buffer that is shorter than the header it wraps around.
-/

namespace NikitaFirmware
open List
namespace Compress
open Foundations Foundations.Access

variable {ε : Type}

/-- `encodePoll` with a log; `dataOutSize` is the size of the output buffer. -/
def encodePollAccesses (encoder : Encoder ε) (dataOutSize : Nat) :
    Nat → ε → Nat → List Access → Option (Bool × ε × Nat × List Access)
  | 0, _, _, _ => none
  | fuel + 1, e, resBuffSize, log =>
    match encoder.poll e (sizeSub dataOutSize resBuffSize) with
    | none => some (true, e, resBuffSize, log)
    | some (pollRes, piece, e) =>
      let log := log ++ [.write resBuffSize piece.length]
      if pollRes = .more then
        encodePollAccesses encoder dataOutSize fuel e (resBuffSize + piece.length) log
      else some (false, e, resBuffSize + piece.length, log)

def encodeSinkAccesses (encoder : Encoder ε) (dataIn : Bytes) (dataOutSize : Nat) :
    Nat → ε → Nat → Nat → List Access → Option (Bool × ε × Nat × List Access)
  | 0, _, _, _, _ => none
  | fuel + 1, e, sunk, resBuffSize, log =>
    if sunk < dataIn.length then
      match encoder.sink e (dataIn.drop sunk) with
      | none => some (true, e, resBuffSize, log)
      | some (sinkSize, e) =>
        match encodePollAccesses encoder dataOutSize fuel e resBuffSize
            (log ++ [.read sunk sinkSize]) with
        | some (false, e, resBuffSize, log) =>
          encodeSinkAccesses encoder dataIn dataOutSize fuel e (sunk + sinkSize) resBuffSize log
        | failed => failed
    else some (false, e, resBuffSize, log)

def encodeFinishAccesses (encoder : Encoder ε) (dataOutSize : Nat) :
    Nat → ε → Nat → List Access → Option (Bool × Nat × List Access)
  | 0, _, _, _ => none
  | fuel + 1, e, resBuffSize, log =>
    match encoder.poll e (sizeSub dataOutSize resBuffSize) with
    | none => some (true, resBuffSize, log)
    | some (_, piece, e) =>
      let log := log ++ [.write resBuffSize piece.length]
      if (encoder.finish e).1 = .done then some (false, resBuffSize + piece.length, log)
      else
        encodeFinishAccesses encoder dataOutSize fuel (encoder.finish e).2
          (resBuffSize + piece.length) log

/-- The accesses of `compress_encode_internal`: the polled pieces, and then the header, or the zero
byte and the data. -/
def encodeAccesses (encoder : Encoder ε) (fuel : Nat) (dataIn : Bytes) (dataOutSize : Nat) :
    Option (List Access) :=
  match encodeSinkAccesses encoder dataIn dataOutSize fuel encoder.reset 0 4 [] with
  | none => none
  | some (sinkFailed, e, resBuffSize, log) =>
    match encodeFinishAccesses encoder dataOutSize fuel (encoder.finish e).2 resBuffSize log with
    | none => none
    | some (finishFailed, resBuffSize, log) =>
      if (sinkFailed || finishFailed) = false ∧ resBuffSize < dataIn.length + 1 then
        some (log ++ [.write 0 4])
      else if dataIn.length < dataOutSize then
        some (log ++ [.write 0 1, .read 0 dataIn.length, .write 1 dataIn.length])
      else some log

/-- A poll that announces more has filled its buffer, and one after `finish` that has not filled it
was the last one. -/
structure Encoder.Drains (encoder : Encoder ε) (Fed : ε → Bytes → Bytes → Phase → Prop) :
    Prop where
  more {e e' : ε} {input output piece : Bytes} {phase : Phase} {size : Nat}
    (h : Fed e input output phase) (hpoll : encoder.poll e size = some (.more, piece, e')) :
    piece.length = size
  done {e e' : ε} {input output piece : Bytes} {res : PollRes} {size : Nat}
    (h : Fed e input output .finishing) (hpoll : encoder.poll e size = some (res, piece, e'))
    (hlt : piece.length < size) : (encoder.finish e').1 = .done

def Encoder.Completes (encoder : Encoder ε) (encode : Bytes → Bytes) : Prop :=
  ∃ Fed, encoder.Simulates encode Fed ∧ encoder.Drains Fed

theorem literalEncoder_poll {kept left : Bytes} {size : Nat} (hne : size ≠ 0) :
    literalEncoder.poll (kept, some left) size =
      some (if size ≤ left.length then .more else .empty, left.take size, kept,
        some (left.drop size)) := if_neg hne

theorem literalEncoder_completes : literalEncoder.Completes literals := by
  refine ⟨LiteralsFed, literalEncoder_simulates, ?_, ?_⟩
  · intro e e' input output piece phase size h hpoll
    have hne : size ≠ 0 := by
      rintro rfl
      cases hpoll
    cases h with
    | sinking input hphase =>
      have hempty : literalEncoder.poll (input, none) size = some (.empty, [], input, none) :=
        if_neg hne
      cases hempty.symm.trans hpoll
    | @finishing input output left hleft =>
      rw [literalEncoder_poll hne] at hpoll
      by_cases hle : size ≤ left.length
      · rw [if_pos hle] at hpoll
        cases hpoll
        rw [length_take, Nat.min_eq_left hle]
      · rw [if_neg hle] at hpoll
        cases hpoll
  · intro e e' input output piece res size h hpoll hlt
    have hne : size ≠ 0 := (Nat.zero_lt_of_lt hlt).ne'
    cases h with
    | sinking input hphase => exact absurd rfl hphase
    | @finishing input output left hleft =>
      rw [literalEncoder_poll hne] at hpoll
      cases hpoll
      rw [length_take] at hlt
      have hnil : left.drop size = [] := drop_eq_nil_of_le (by omega)
      exact if_pos hnil

section Run
variable {encoder : Encoder ε} {encode : Bytes → Bytes} {Fed : ε → Bytes → Bytes → Phase → Prop}
  {e : ε} {input output piece dataIn : Bytes} {phase : Phase} {inSize outSize size : Nat}
  {log : List Access}

theorem sizeSub_full (h : 0 < sizeSub outSize size) :
    sizeSub outSize (size + sizeSub outSize size) = 0 := by
  unfold sizeSub at h ⊢
  by_cases hle : size ≤ outSize
  · rw [if_pos hle] at h ⊢
    rw [if_pos (by omega)]
    omega
  · rw [if_neg hle] at h ⊢
    rw [if_neg (by omega)]
    omega

/-- What the log says about a run that has put out `output`: with room for the header everything is
in its place, and without it the first byte is not. -/
structure Recorded (inSize outSize : Nat) (output : Bytes) (size : Nat) (log : List Access) :
    Prop where
  size_eq : size = 4 + output.length
  within : 4 ≤ outSize → size ≤ outSize ∧ AllWithin inSize outSize log
  outside : outSize < 4 → output ≠ [] → ¬ AllWithin inSize outSize log

theorem recorded_start (inSize outSize : Nat) : Recorded inSize outSize [] 4 [] where
  size_eq := rfl
  within := fun h => ⟨h, allWithin_nil⟩
  outside := fun _ hne => absurd rfl hne

theorem Recorded.read (h : Recorded inSize outSize output size log) {sunk sinkSize : Nat}
    (hle : sunk + sinkSize ≤ inSize) :
    Recorded inSize outSize output size (log ++ [.read sunk sinkSize]) where
  size_eq := h.size_eq
  within := fun hroom => ⟨(h.within hroom).1, (h.within hroom).2.concat (read_within hle)⟩
  outside := fun hshort hne hwithin => h.outside hshort hne hwithin.of_append

theorem Recorded.write (h : Recorded inSize outSize output size log)
    (hle : piece.length ≤ sizeSub outSize size) :
    Recorded inSize outSize (output ++ piece) (size + piece.length)
      (log ++ [.write size piece.length]) where
  size_eq := by
    rw [length_append, h.size_eq, Nat.add_assoc]
  within := by
    intro hroom
    obtain ⟨hsize, hlog⟩ := h.within hroom
    rw [sizeSub, if_pos hsize] at hle
    have hfits : size + piece.length ≤ outSize := by omega
    exact ⟨hfits, hlog.concat (write_within hfits)⟩
  outside := by
    intro hshort hne hwithin
    obtain ⟨hlog, hlast⟩ := allWithin_append.mp hwithin
    by_cases hnil : output = []
    · have hpiece : piece ≠ [] := by
        rwa [hnil, nil_append] at hne
      have hpos := length_pos_iff.mpr hpiece
      have hsize := h.size_eq
      have hlast := write_within_iff.mp (allWithin_cons.mp hlast).1
      omega
    · exact h.outside hshort hnil hlog

theorem Recorded.ne_nil (h : Recorded inSize outSize output size log) (hshort : outSize < 4)
    (hfull : sizeSub outSize size = 0) : output ≠ [] := by
  rintro rfl
  have hsize := h.size_eq
  rw [length_nil] at hsize
  rw [sizeSub, if_neg (by omega)] at hfull
  omega

theorem poll_eq_none (hsim : encoder.Simulates encode Fed) (h : Fed e input output phase) :
    encoder.poll e size = none ↔ size = 0 := by
  constructor
  · intro hnone
    by_contra hne
    obtain ⟨res, piece, e', hsome, -⟩ := hsim.poll h (Nat.pos_of_ne_zero hne)
    rw [hnone] at hsome
    cases hsome
  · rintro rfl
    exact hsim.poll_zero e

theorem encodePollAccesses_spec (hsim : encoder.Simulates encode Fed) (hdrains : encoder.Drains Fed)
    (h : Fed e input output phase) (hphase : phase ≠ .finishing)
    (hrecorded : Recorded inSize outSize output size log) {fuel : Nat} (hfuel : 2 ≤ fuel) :
    ∃ failed e' size' log' output' phase',
      encodePollAccesses encoder outSize fuel e size log = some (failed, e', size', log') ∧
      Fed e' input output' phase' ∧ phase' ≠ .finishing ∧
      Recorded inSize outSize output' size' log' ∧ (failed = true → sizeSub outSize size' = 0) ∧
      (failed = false → phase' = .ready) := by
  obtain ⟨f, rfl⟩ : ∃ f, fuel = f + 2 := ⟨fuel - 2, by omega⟩
  rw [encodePollAccesses]
  by_cases hzero : sizeSub outSize size = 0
  · rw [(poll_eq_none hsim h).mpr hzero]
    exact ⟨true, e, size, log, output, phase, rfl, h, hphase, hrecorded, fun _ => hzero, nofun⟩
  · have hpos := Nat.pos_of_ne_zero hzero
    obtain ⟨res, piece, e₁, hpoll, hle, hfed⟩ := hsim.poll h hpos
    have hwritten := hrecorded.write hle
    rw [hpoll]
    cases res with
    | empty =>
      refine ⟨false, e₁, _, _, _, _, if_neg nofun, hfed, ?_, hwritten, nofun, fun _ => ?_⟩
      · cases phase with
        | finishing => exact absurd rfl hphase
        | ready => nofun
        | busy => nofun
      · cases phase with
        | finishing => exact absurd rfl hphase
        | ready => rfl
        | busy => rfl
    | more =>
      have hfull := hdrains.more h hpoll
      have hnone : sizeSub outSize (size + piece.length) = 0 := by
        rw [hfull]
        exact sizeSub_full hpos
      dsimp only
      rw [if_pos rfl, encodePollAccesses, (poll_eq_none hsim hfed).mpr hnone]
      refine ⟨true, e₁, _, _, _, _, rfl, hfed, ?_, hwritten, fun _ => hnone, nofun⟩
      cases phase with
      | finishing => exact absurd rfl hphase
      | ready => nofun
      | busy => nofun

theorem encodeSinkAccesses_spec (hsim : encoder.Simulates encode Fed)
    (hdrains : encoder.Drains Fed) {fuel sunk : Nat} (h : Fed e (dataIn.take sunk) output .ready)
    (hrecorded : Recorded dataIn.length outSize output size log)
    (hfuel : dataIn.length - sunk + 2 < fuel) :
    ∃ failed e' size' log' input' output' phase',
      encodeSinkAccesses encoder dataIn outSize fuel e sunk size log =
        some (failed, e', size', log') ∧
      Fed e' input' output' phase' ∧ phase' ≠ .finishing ∧
      Recorded dataIn.length outSize output' size' log' ∧
      (failed = true → sizeSub outSize size' = 0) ∧ (failed = false → input' = dataIn) := by
  induction fuel generalizing e sunk output size log with
  | zero => exact absurd hfuel (Nat.not_lt_zero _)
  | succ fuel ih =>
    rw [encodeSinkAccesses]
    by_cases hlt : sunk < dataIn.length
    · have hne : dataIn.drop sunk ≠ [] := fun hnil =>
        Nat.not_le_of_lt hlt (drop_eq_nil_iff.mp hnil)
      obtain ⟨sinkSize, e₁, hsink, hpos, hle, hfed⟩ := hsim.sink h hne
      rw [length_drop] at hle
      rw [← take_add] at hfed
      obtain ⟨failed, e₂, size₂, log₂, output₂, phase₂, hpoll, hfed₂, hphase₂, hrecorded₂, hfull,
        hready⟩ := encodePollAccesses_spec hsim hdrains hfed nofun
          (hrecorded.read (by omega : sunk + sinkSize ≤ dataIn.length)) (by omega : 2 ≤ fuel)
      rw [if_pos hlt, hsink]
      dsimp only
      rw [hpoll]
      cases failed with
      | true =>
        exact ⟨true, e₂, size₂, log₂, _, output₂, phase₂, rfl, hfed₂, hphase₂, hrecorded₂, hfull,
          nofun⟩
      | false =>
        rw [hready rfl] at hfed₂
        exact ih hfed₂ hrecorded₂ (by omega)
    · rw [if_neg hlt]
      refine ⟨false, e, size, log, _, output, .ready, rfl, h, nofun, hrecorded, nofun, fun _ => ?_⟩
      exact take_of_length_le (Nat.le_of_not_lt hlt)

theorem encodeFinishAccesses_spec (hsim : encoder.Simulates encode Fed)
    (hdrains : encoder.Drains Fed) (h : Fed e input output .finishing)
    (hrecorded : Recorded inSize outSize output size log) {fuel : Nat} (hfuel : 2 ≤ fuel) :
    ∃ failed size' log' output',
      encodeFinishAccesses encoder outSize fuel e size log = some (failed, size', log') ∧
      Recorded inSize outSize output' size' log' ∧ output <+: output' ∧
      (failed = true → sizeSub outSize size' = 0) ∧
      (failed = false → output' = encode input) := by
  obtain ⟨f, rfl⟩ : ∃ f, fuel = f + 2 := ⟨fuel - 2, by omega⟩
  rw [encodeFinishAccesses]
  by_cases hzero : sizeSub outSize size = 0
  · rw [(poll_eq_none hsim h).mpr hzero]
    exact ⟨true, size, log, output, rfl, hrecorded, prefix_rfl, fun _ => hzero, nofun⟩
  · have hpos := Nat.pos_of_ne_zero hzero
    obtain ⟨res, piece, e₁, hpoll, hle, hfed⟩ := hsim.poll h hpos
    obtain ⟨hfinish, hdone⟩ := hsim.finish hfed
    have hwritten := hrecorded.write hle
    rw [hpoll]
    dsimp only
    by_cases hend : (encoder.finish e₁).1 = .done
    · rw [if_pos hend]
      exact ⟨false, _, _, _, rfl, hwritten, List.prefix_append _ _, nofun, fun _ => hdone hend⟩
    · have hfull : piece.length = sizeSub outSize size :=
        Nat.le_antisymm hle (Nat.le_of_not_lt fun hlt => hend (hdrains.done h hpoll hlt))
      have hnone : sizeSub outSize (size + piece.length) = 0 := by
        rw [hfull]
        exact sizeSub_full hpos
      rw [if_neg hend, encodeFinishAccesses, (poll_eq_none hsim hfinish).mpr hnone]
      exact ⟨true, _, _, _, rfl, hwritten, List.prefix_append _ _, fun _ => hnone, nofun⟩

theorem encodeAccesses_within (hencoder : encoder.Completes encode)
    (hencode : ∀ data, data ≠ [] → encode data ≠ []) (hne : dataIn ≠ []) {fuel : Nat}
    (hfuel : dataIn.length + 2 < fuel) :
    ∃ accesses, encodeAccesses encoder fuel dataIn outSize = some accesses ∧
      (AllWithin dataIn.length outSize accesses ↔ 4 ≤ outSize) := by
  obtain ⟨Fed, hsim, hdrains⟩ := hencoder
  have hstart : Fed encoder.reset (dataIn.take 0) [] .ready := hsim.reset
  obtain ⟨sinkFailed, e₁, size₁, log₁, input₁, output₁, phase₁, hsink, hfed₁, -, hrecorded₁, hfull₁,
    hall⟩ := encodeSinkAccesses_spec hsim hdrains hstart
      (recorded_start dataIn.length outSize) hfuel
  obtain ⟨finishFailed, size₂, log₂, output₂, hfinish, hrecorded₂, hprefix, hfull₂, hdone⟩ :=
    encodeFinishAccesses_spec hsim hdrains (hsim.finish hfed₁).1 hrecorded₁ (by omega : 2 ≤ fuel)
  have hoctets : outSize < 4 → output₂ ≠ [] := by
    intro hshort
    cases finishFailed with
    | true => exact hrecorded₂.ne_nil hshort (hfull₂ rfl)
    | false =>
      cases sinkFailed with
      | true =>
        intro hnil
        rw [hnil] at hprefix
        exact hrecorded₁.ne_nil hshort (hfull₁ rfl) (prefix_nil.mp hprefix)
      | false =>
        rw [hdone rfl, hall rfl]
        exact hencode dataIn hne
  -- the accesses behind the polled pieces
  have hlast : ∀ last : List Access, (4 ≤ outSize → AllWithin dataIn.length outSize last) →
      (AllWithin dataIn.length outSize (log₂ ++ last) ↔ 4 ≤ outSize) := by
    intro last hlast
    constructor
    · intro hwithin
      by_contra hshort
      have hlt := Nat.lt_of_not_le hshort
      exact hrecorded₂.outside hlt (hoctets hlt) hwithin.of_append
    · intro hroom
      exact allWithin_append.mpr ⟨(hrecorded₂.within hroom).2, hlast hroom⟩
  rw [encodeAccesses, hsink]
  dsimp only
  rw [hfinish]
  dsimp only
  split
  · exact ⟨_, rfl, hlast _ fun hroom => allWithin_cons.mpr ⟨write_within hroom, allWithin_nil⟩⟩
  · split
    · next hstored =>
      refine ⟨_, rfl, hlast _ fun hroom => ?_⟩
      refine allWithin_cons.mpr ⟨write_within (by omega), allWithin_cons.mpr ⟨?_, ?_⟩⟩
      · exact read_within (Nat.zero_add _).le
      · exact allWithin_cons.mpr ⟨write_within (by omega), allWithin_nil⟩
    · refine ⟨log₂, rfl, ?_⟩
      have hnone := hlast [] fun _ => allWithin_nil
      rwa [append_nil] at hnone

end Run

end Compress
end NikitaFirmware
