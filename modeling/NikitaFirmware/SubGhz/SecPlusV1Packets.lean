import NikitaFirmware.Foundations.Machine
import NikitaFirmware.SubGhz.SecPlusV1

/-!
# The packets of Security+ 1.0

A packet is a gap, a start bit, twenty symbols and a gap. As long as no packet that breaks off
overwrites one that has been accepted, a key is reported only from two packets with different
headers that have been received in full since the last header.
-/

namespace NikitaFirmware.SubGhz.SecPlusV1
open Foundations List Option

/-- Pulses and the symbols that they carry. -/
inductive Symbols : List Pulse → List Nat → Prop
  | nil : Symbols [] []
  | concat {ps : List Pulse} {ds : List Nat} {low high symbol : Nat} (h : Symbols ps ds)
      (hs : symbolOf low high = some symbol) :
      Symbols (ps ++ [⟨false, low⟩, ⟨true, high⟩]) (ds ++ [symbol])

/-- The pulses of the packet so far that follows a gap. -/
structure Started (header : Nat) (ds : List Nat) (ps : List Pulse) : Prop where
  pulses : ∃ gap start body, ps = ⟨false, gap⟩ :: ⟨true, start⟩ :: body ∧ isGap gap = true ∧
    startSymbol start = some header ∧ Symbols body ds

/-- A packet of the right length and the gap behind it. -/
structure Packet (header : Nat) (ds : List Nat) (ps : List Pulse) : Prop where
  pulses : ∃ body gap, ps = body ++ [⟨false, gap⟩] ∧ isGap gap = true ∧ Started header ds body
  length : ds.length + 1 = minCountBit

theorem Started.concat {header low high symbol : Nat} {ds : List Nat} {ps : List Pulse}
    (h : Started header ds ps) (hs : symbolOf low high = some symbol) :
    Started header (ds ++ [symbol]) (ps ++ [⟨false, low⟩, ⟨true, high⟩]) := by
  obtain ⟨gap, start, body, rfl, hgap, hstart, hbody⟩ := h.pulses
  exact ⟨gap, start, _, rfl, hgap, hstart, hbody.concat hs⟩

/-- A decoder, and what it has received from the last header on. -/
structure Receiver where
  decoder : Decoder
  received : List Pulse

namespace Receiver

def alloc : Receiver := ⟨.alloc, []⟩

/-- The last header is the last one that the decoder has started at. -/
def feed (r : Receiver) (p : Pulse) : Receiver where
  decoder := (r.decoder.feed p).1
  received := if r.decoder.parserStep = .reset then [p] else r.received ++ [p]

def machine : Machine Receiver Pulse where
  step r p := some (r.feed p)

/-- A key that is reported is that of two packets with different headers. -/
def Genuine (r : Receiver) (p : Pulse) : Prop :=
  ∀ key, (r.decoder.feed p).2 = some key → ∃ ps₁ ds₁ ps₂ ds₂, Packet 0 ds₁ ps₁ ∧ Packet 2 ds₂ ps₂ ∧
    ps₁ <:+: (r.feed p).received ∧ ps₂ <:+: (r.feed p).received ∧ key = decodePackets ds₁ ds₂

/-- The packet that the decoder is in has been accepted before. -/
def overwrites (d : Decoder) : Bool :=
  if d.basePacketIndex = 0 then d.packet1Accepted else d.packet2Accepted

/-- The condition: when a packet of the wrong length ends at a gap, it has no symbols behind its
start bit, or there is no accepted one that it overwrites. -/
def Regular (r : Receiver) (p : Pulse) : Prop :=
  r.decoder.parserStep = .saveDuration → p.level = false → isGap p.duration = true →
    r.decoder.decodeCountBit ≠ minCountBit →
      r.decoder.decodeCountBit = 1 ∨ overwrites r.decoder = false

instance (r : Receiver) (p : Pulse) : Decidable (r.Regular p) :=
  inferInstanceAs (Decidable (_ → _ → _ → _ → _ ∨ _))

def Accepted (received : List Pulse) (dataArray : List Nat) (base header first : Nat) : Prop :=
  ∃ ps ds, Packet header ds ps ∧ ps <:+: received ∧
    ∀ j, first ≤ j → j < 20 → dataArray[base + 1 + j]? = ds[j]?

def headerOf (base : Nat) : Nat := if base = 0 then 0 else 2

/-- The symbols of the packet that the decoder is in are in the array. -/
def Receiving (d : Decoder) (received : List Pulse) : Prop :=
  ∃ before ps ds, received = before ++ ps ∧ Started (headerOf d.basePacketIndex) ds ps ∧
    (d.basePacketIndex = 0 ∨ d.basePacketIndex = packet2IndexBase) ∧
    d.decodeCountBit = ds.length + 1 ∧ d.decodeCountBit ≤ 22 ∧
    ∀ j, j < ds.length → d.dataArray[d.basePacketIndex + 1 + j]? = ds[j]?

/-- The symbols of the packet with the given base that have been overwritten. -/
def overwritten (d : Decoder) (base : Nat) : Nat :=
  match d.parserStep with
  | .reset | .searchStartBit => 0
  | .saveDuration | .decoderData =>
    if d.basePacketIndex = base then d.decodeCountBit - 1 else 0

def AtStep (d : Decoder) (received : List Pulse) : Prop :=
  match d.parserStep with
  | .reset => True
  | .searchStartBit => d.decodeCountBit = 0 ∧
    ∃ before gap, received = before ++ [⟨false, gap⟩] ∧ isGap gap = true
  | .saveDuration => Receiving d received
  | .decoderData => ∃ before, received = before ++ [⟨false, d.teLast⟩] ∧ Receiving d before

/-- What the decoder knows between two headers. -/
structure Active (d : Decoder) (received : List Pulse) : Prop where
  packet1 : d.packet1Accepted = true → Accepted received d.dataArray 0 0 (overwritten d 0)
  packet2 : d.packet2Accepted = true →
    Accepted received d.dataArray packet2IndexBase 2 (overwritten d packet2IndexBase)
  atStep : AtStep d received

structure Inv (r : Receiver) : Prop where
  length : r.decoder.dataArray.length = 44
  active : r.decoder.parserStep ≠ .reset → Active r.decoder r.received

variable {r : Receiver} {p : Pulse} {d : Decoder} {received more : List Pulse} {arr : List Nat}
  {base header first first' : Nat}

theorem Accepted.mono (h : Accepted received arr base header first) (hle : first ≤ first')
    (hsub : received <:+: more) : Accepted more arr base header first' := by
  obtain ⟨ps, ds, hp, hin, harr⟩ := h
  exact ⟨ps, ds, hp, hin.trans hsub, fun j hj => harr j (Nat.le_trans hle hj)⟩

theorem part_concat (received : List Pulse) (p : Pulse) : received <:+: received ++ [p] :=
  (prefix_append received [p]).isInfix

theorem Accepted.set {i symbol : Nat} (h : Accepted received arr base header first)
    (hi : i < base + 1 + first ∨ base + 20 < i) :
    Accepted received (arr.set i symbol) base header first := by
  obtain ⟨ps, ds, hp, hin, harr⟩ := h
  refine ⟨ps, ds, hp, hin, fun j hj hlt => ?_⟩
  rw [getElem?_set_ne (by omega)]
  exact harr j hj hlt

theorem Inv.reset (h : Inv r) : Inv ⟨r.decoder.reset, more⟩ where
  length := h.length
  active hne := absurd rfl hne

theorem Inv.start {gap : Nat} (hgap : isGap gap = true) :
    Inv ⟨r.decoder.start, [⟨false, gap⟩]⟩ where
  length := length_replicate ..
  active _ :=
    { packet1 := fun h => absurd h (by simp [Decoder.start])
      packet2 := fun h => absurd h (by simp [Decoder.start])
      atStep := ⟨rfl, [], gap, rfl, hgap⟩ }

theorem Inv.searchStartBit (h : Inv r) (hstep : r.decoder.parserStep = .searchStartBit) :
    Inv ⟨r.decoder.searchStartBit p, r.received ++ [p]⟩ := by
  obtain ⟨level, duration⟩ := p
  have hact := h.active (by rw [hstep]; decide)
  obtain ⟨hcount, before, gap, hreceived, hgap⟩ : r.decoder.decodeCountBit = 0 ∧
      ∃ before gap, r.received = before ++ [⟨false, gap⟩] ∧ isGap gap = true := by
    have := hact.atStep
    rwa [AtStep, hstep] at this
  have hover : ∀ base, overwritten r.decoder base = 0 := by
    intro base
    rw [overwritten, hstep]
  rw [Decoder.searchStartBit]
  cases level with
  | false => exact h.reset
  | true =>
    rw [if_pos rfl]
    cases hstart : startSymbol duration with
    | none => exact h.reset
    | some symbol =>
      have hsymbol : symbol = 0 ∨ symbol = 2 := by
        rw [startSymbol] at hstart
        split at hstart
        · exact .inl (some.inj hstart).symm
        split at hstart
        · exact .inr (some.inj hstart).symm
        · cases hstart
      have hbase : (if symbol = 0 then 0 else packet2IndexBase) = 0 ∨
          (if symbol = 0 then 0 else packet2IndexBase) = packet2IndexBase := by
        split
        · exact .inl rfl
        · exact .inr rfl
      have hheader : headerOf (if symbol = 0 then 0 else packet2IndexBase) = symbol := by
        rcases hsymbol with rfl | rfl <;> rfl
      dsimp only
      generalize (if symbol = 0 then 0 else packet2IndexBase) = base at hbase hheader ⊢
      have hin := part_concat r.received ⟨true, duration⟩
      -- the place of the start bit is not one of a symbol
      have hplace : ∀ b, b = 0 ∨ b = packet2IndexBase →
          r.decoder.decodeCountBit + base < b + 1 + 0 ∨
            b + 20 < r.decoder.decodeCountBit + base := by
        rw [hcount, packet2IndexBase] at *
        omega
      have hlater : ∀ b, overwritten ((r.decoder.setBase base).store symbol) b = 0 := by
        intro b
        change (if base = b then r.decoder.decodeCountBit + 1 - 1 else 0) = 0
        rw [hcount]
        exact ite_self 0
      refine ⟨(length_set ..).trans h.length, fun _ => ⟨fun hacc => ?_, fun hacc => ?_, ?_⟩⟩
      · rw [hlater]
        have hold := hact.packet1 hacc
        rw [hover] at hold
        exact (hold.set (hplace 0 (.inl rfl))).mono (Nat.le_refl 0) hin
      · rw [hlater]
        have hold := hact.packet2 hacc
        rw [hover] at hold
        exact (hold.set (hplace packet2IndexBase (.inr rfl))).mono (Nat.le_refl 0) hin
      · refine ⟨before, [⟨false, gap⟩, ⟨true, duration⟩], [], ?_, ⟨gap, duration, [], rfl, hgap, ?_,
          .nil⟩, hbase, ?_, ?_, ?_⟩
        · rw [hreceived, append_assoc]
          rfl
        · change startSymbol duration = some (headerOf base)
          rw [hheader, hstart]
        · change r.decoder.decodeCountBit + 1 = 1
          rw [hcount]
        · change r.decoder.decodeCountBit + 1 ≤ 22
          omega
        · exact fun j hj => absurd hj (Nat.not_lt_zero j)

theorem Inv.decoderData (h : Inv r) (hstep : r.decoder.parserStep = .decoderData) :
    Inv ⟨r.decoder.decoderData p, r.received ++ [p]⟩ := by
  obtain ⟨level, duration⟩ := p
  have hact := h.active (by rw [hstep]; decide)
  obtain ⟨before', hreceived, before, ps, ds, hbefore, hstarted, hbase, hcount, hle, harr⟩ :
      ∃ before, r.received = before ++ [⟨false, r.decoder.teLast⟩] ∧ Receiving r.decoder before := by
    have := hact.atStep
    rwa [AtStep, hstep] at this
  have hover : ∀ base, overwritten r.decoder base =
      if r.decoder.basePacketIndex = base then r.decoder.decodeCountBit - 1 else 0 := by
    intro base
    rw [overwritten, hstep]
  rw [Decoder.decoderData]
  split
  swap
  · exact h.reset
  case isTrue hdata =>
    obtain ⟨rfl, hmin⟩ := hdata
    cases hsym : symbolOf r.decoder.teLast duration with
    | none => exact h.reset
    | some symbol =>
      rw [minCountBit] at hmin
      have hin := part_concat r.received ⟨true, duration⟩
      have hlater : ∀ b, overwritten (r.decoder.store symbol) b =
          if r.decoder.basePacketIndex = b then r.decoder.decodeCountBit else 0 := fun _ => rfl
      -- what is stored is behind what has been overwritten so far, or in the other packet
      have hplace : ∀ b, b = 0 ∨ b = packet2IndexBase →
          r.decoder.decodeCountBit + r.decoder.basePacketIndex < b + 1 +
            (if r.decoder.basePacketIndex = b then r.decoder.decodeCountBit else 0) ∨
              b + 20 < r.decoder.decodeCountBit + r.decoder.basePacketIndex := by
        intro b hb
        rw [packet2IndexBase] at *
        split <;> omega
      have hgrow : ∀ b, overwritten r.decoder b ≤
          if r.decoder.basePacketIndex = b then r.decoder.decodeCountBit else 0 := by
        intro b
        rw [hover]
        split <;> omega
      refine ⟨(length_set ..).trans h.length, fun _ => ⟨fun hacc => ?_, fun hacc => ?_, ?_⟩⟩
      · rw [hlater]
        exact ((hact.packet1 hacc).mono (hgrow 0) hin).set (hplace 0 (.inl rfl))
      · rw [hlater]
        exact ((hact.packet2 hacc).mono (hgrow packet2IndexBase) hin).set
          (hplace packet2IndexBase (.inr rfl))
      · refine ⟨before, _, ds ++ [symbol], ?_, hstarted.concat hsym, hbase, ?_, ?_, ?_⟩
        · rw [hreceived, hbefore]
          simp
        · change r.decoder.decodeCountBit + 1 = _
          rw [length_append, hcount]
          rfl
        · change r.decoder.decodeCountBit + 1 ≤ 22
          omega
        · intro j hj
          change (r.decoder.dataArray.set (r.decoder.decodeCountBit + r.decoder.basePacketIndex)
            symbol)[r.decoder.basePacketIndex + 1 + j]? = _
          rw [length_append, length_singleton] at hj
          rcases Nat.lt_or_ge j ds.length with hlt | hge
          · rw [getElem?_set_ne (by omega), harr j hlt, getElem?_append_left hlt]
          · obtain rfl : j = ds.length := by omega
            have hlen := h.length
            rw [packet2IndexBase] at hbase
            rw [show r.decoder.basePacketIndex + 1 + ds.length =
                r.decoder.decodeCountBit + r.decoder.basePacketIndex by omega,
              getElem?_set_self (by omega), getElem?_append_right (Nat.le_refl _),
              Nat.sub_self]
            rfl

theorem accept_dataArray (d : Decoder) : d.accept.dataArray = d.dataArray := by
  rw [Decoder.accept]
  split <;> rfl

theorem accepted_of_receiving {gap : Nat} (h : Receiving d received)
    (hcount : d.decodeCountBit = minCountBit) (hgap : isGap gap = true) :
    Accepted (received ++ [⟨false, gap⟩]) d.dataArray d.basePacketIndex
      (headerOf d.basePacketIndex) 0 := by
  obtain ⟨before, ps, ds, rfl, hstarted, hbase, hlen, -, harr⟩ := h
  have hds : ds.length + 1 = minCountBit := hlen.symm.trans hcount
  refine ⟨ps ++ [⟨false, gap⟩], ds, ⟨⟨ps, gap, rfl, hgap, hstarted⟩, hds⟩, ?_, fun j _ hj => ?_⟩
  · rw [append_assoc]
    exact (suffix_append before _).isInfix
  · rw [minCountBit] at hds
    exact harr j (by omega)

/-- At the gap, the packet with one of the bases is accepted: the new one, or the one before, over
which nothing has been stored. -/
theorem Receiving.accepted_behind {gap : Nat} {flag : Bool} (h : Receiving d received)
    (hgap : isGap gap = true)
    (hacc : (flag || d.decodeCountBit == minCountBit && d.basePacketIndex == base) = true)
    (hold : flag = true → Accepted received d.dataArray base (headerOf base)
      (if d.basePacketIndex = base then d.decodeCountBit - 1 else 0))
    (hover : d.basePacketIndex = base → d.decodeCountBit ≠ minCountBit → flag = true →
      d.decodeCountBit = 1) :
    Accepted (received ++ [⟨false, gap⟩]) d.dataArray base (headerOf base) 0 := by
  have hin := part_concat received ⟨false, gap⟩
  by_cases hnew : d.decodeCountBit = minCountBit ∧ d.basePacketIndex = base
  · obtain ⟨hcount, rfl⟩ := hnew
    exact accepted_of_receiving h hcount hgap
  · have hflag : flag = true := by
      simp only [Bool.or_eq_true, Bool.and_eq_true, beq_iff_eq] at hacc
      exact hacc.resolve_right hnew
    refine (hold hflag).mono ?_ hin
    split
    · next hb => rw [hover hb (fun hcount => hnew ⟨hcount, hb⟩) hflag]
    · exact Nat.le_refl 0

theorem accept_flags (d : Decoder) :
    d.accept.packet1Accepted =
        (d.packet1Accepted || d.decodeCountBit == minCountBit && d.basePacketIndex == 0) ∧
      d.accept.packet2Accepted = (d.packet2Accepted ||
        d.decodeCountBit == minCountBit && d.basePacketIndex == packet2IndexBase) := by
  rw [Decoder.accept]
  split <;> simp [*]

theorem Inv.endPacket {gap : Nat} (h : Inv r) (hstep : r.decoder.parserStep = .saveDuration)
    (hgap : isGap gap = true) (hreg : r.decoder.decodeCountBit ≠ minCountBit →
      r.decoder.decodeCountBit = 1 ∨ overwrites r.decoder = false) :
    Inv ⟨r.decoder.endPacket, r.received ++ [⟨false, gap⟩]⟩ := by
  have hact := h.active (by rw [hstep]; decide)
  have hrec : Receiving r.decoder r.received := by
    have := hact.atStep
    rwa [AtStep, hstep] at this
  have hover : ∀ base, overwritten r.decoder base =
      if r.decoder.basePacketIndex = base then r.decoder.decodeCountBit - 1 else 0 := by
    intro base
    rw [overwritten, hstep]
  have harr : r.decoder.endPacket.dataArray = r.decoder.dataArray := accept_dataArray r.decoder
  have hsearch : AtStep r.decoder.endPacket (r.received ++ [⟨false, gap⟩]) :=
    ⟨rfl, r.received, gap, rfl, hgap⟩
  refine ⟨(congrArg List.length harr).trans h.length, fun _ => ⟨fun hacc => ?_, fun hacc => ?_,
    hsearch⟩⟩
  · change Accepted _ r.decoder.endPacket.dataArray 0 (headerOf 0) 0
    change r.decoder.accept.packet1Accepted = true at hacc
    rw [(accept_flags _).1] at hacc
    rw [harr]
    refine hrec.accepted_behind hgap hacc (fun hflag => hover 0 ▸ hact.packet1 hflag) ?_
    intro hb hcount hflag
    refine (hreg hcount).resolve_right ?_
    rw [overwrites, if_pos hb, hflag]
    decide
  · change Accepted _ r.decoder.endPacket.dataArray packet2IndexBase (headerOf packet2IndexBase) 0
    change r.decoder.accept.packet2Accepted = true at hacc
    rw [(accept_flags _).2] at hacc
    rw [harr]
    refine hrec.accepted_behind hgap hacc (fun hflag => hover _ ▸ hact.packet2 hflag) ?_
    intro hb hcount hflag
    refine (hreg hcount).resolve_right ?_
    rw [overwrites, if_neg (by rw [hb]; decide), hflag]
    decide

theorem Inv.saveDuration (h : Inv r) (hstep : r.decoder.parserStep = .saveDuration)
    (hreg : r.Regular p) : Inv ⟨(r.decoder.saveDuration p).1, r.received ++ [p]⟩ := by
  obtain ⟨level, duration⟩ := p
  rw [Decoder.saveDuration]
  cases level with
  | true => exact h.reset
  | false =>
    rw [if_neg Bool.false_ne_true]
    cases hgap : isGap duration with
    | true => exact h.endPacket hstep hgap (hreg hstep rfl hgap)
    | false =>
      have hact := h.active (by rw [hstep]; decide)
      have hin := part_concat r.received ⟨false, duration⟩
      have hrec : Receiving r.decoder r.received := by
        have := hact.atStep
        rwa [AtStep, hstep] at this
      have hover : ∀ base, overwritten r.decoder base =
          if r.decoder.basePacketIndex = base then r.decoder.decodeCountBit - 1 else 0 := by
        intro base
        rw [overwritten, hstep]
      refine ⟨h.length, fun _ => ⟨fun hacc => ?_, fun hacc => ?_, r.received, rfl, hrec⟩⟩
      · have hold := hact.packet1 hacc
        rw [hover] at hold
        exact hold.mono (Nat.le_refl _) hin
      · have hold := hact.packet2 hacc
        rw [hover] at hold
        exact hold.mono (Nat.le_refl _) hin

theorem Inv.feed (h : Inv r) (hreg : r.Regular p) : Inv (r.feed p) := by
  rw [Receiver.feed, Decoder.feed]
  cases hstep : r.decoder.parserStep with
  | reset =>
    obtain ⟨level, duration⟩ := p
    dsimp only
    split
    case isTrue hstart =>
      obtain ⟨rfl, hgap⟩ := hstart
      exact Inv.start hgap
    case isFalse => exact ⟨h.length, fun hne => absurd hstep hne⟩
  | searchStartBit => exact h.searchStartBit hstep
  | saveDuration => exact h.saveDuration hstep hreg
  | decoderData => exact h.decoderData hstep

theorem inv_alloc : Inv alloc := ⟨length_replicate .., fun hne => absurd rfl hne⟩

theorem Accepted.take (h : Accepted received arr base header 0) : ∃ ps ds, Packet header ds ps ∧
    ps <:+: received ∧ (arr.drop (base + 1)).take 20 = ds := by
  obtain ⟨ps, ds, hp, hin, harr⟩ := h
  refine ⟨ps, ds, hp, hin, ?_⟩
  have hlen := hp.length
  rw [minCountBit] at hlen
  apply ext_getElem?
  intro i
  rcases Nat.lt_or_ge i 20 with hi | hi
  · rw [getElem?_take_of_lt hi, getElem?_drop]
    exact harr i (Nat.zero_le i) hi
  · rw [getElem?_take, if_neg (by omega), getElem?_eq_none (by omega)]

theorem Inv.genuine (h : Inv r) (hreg : r.Regular p) : r.Genuine p := by
  intro key hkey
  have hnext := h.feed hreg
  obtain ⟨level, duration⟩ := p
  rw [Decoder.feed] at hkey
  cases hstep : r.decoder.parserStep with
  | reset => simp [hstep] at hkey
  | searchStartBit => simp [hstep] at hkey
  | decoderData => simp [hstep] at hkey
  | saveDuration =>
    simp only [hstep, Decoder.saveDuration] at hkey
    cases level with
    | true => simp at hkey
    | false =>
      cases hgap : isGap duration with
      | false => simp [hgap] at hkey
      | true =>
        simp only [Bool.false_eq_true, if_false, hgap, if_true, Decoder.report] at hkey
        split at hkey
        case isFalse => cases hkey
        case isTrue hflags =>
          obtain rfl := some.inj hkey
          have hfeed : r.feed ⟨false, duration⟩ =
              ⟨r.decoder.endPacket, r.received ++ [⟨false, duration⟩]⟩ := by
            simp [Receiver.feed, Decoder.feed, hstep, Decoder.saveDuration, hgap]
          rw [hfeed] at hnext ⊢
          have hact := hnext.active (by simp [Decoder.endPacket])
          obtain ⟨ps₁, ds₁, hp₁, hin₁, hds₁⟩ := (hact.packet1 hflags.2.1).take
          obtain ⟨ps₂, ds₂, hp₂, hin₂, hds₂⟩ := (hact.packet2 hflags.2.2).take
          refine ⟨ps₁, ds₁, ps₂, ds₂, hp₁, hp₂, hin₁, hin₂, ?_⟩
          rw [decode, ← hds₁, ← hds₂, Decoder.endPacket, accept_dataArray]
          rfl

variable {ps : List Pulse}

theorem packets_genuine (h : machine.Meets Regular alloc ps) : machine.Meets Genuine alloc ps := by
  refine machine.meets_of_invariant (I := Inv) ?_ ?_ inv_alloc h
  · intro r p r' hinv hreg hs
    obtain rfl := some.inj hs
    exact hinv.feed hreg
  · exact fun r p hinv hreg => hinv.genuine hreg

/-- A key that is encoded comes back exactly if its reversed counter has at most twenty ternary
digits. In a run in which no broken packet overwrites an accepted one, the keys that are reported are
those of two whole packets. -/
theorem keys_genuine {mult : Int32} {override : Option UInt32} {dataArray digits : List Nat}
    {key sent : Key} (henc : encode mult override dataArray key = some (sent, digits))
    (hreg : machine.Meets Regular alloc ps) :
    (decode digits = sent ↔ reverseKey sent.rolling.toNat 32 ≤ maxFixed) ∧
    machine.Meets Genuine alloc ps := by
  obtain ⟨digits', hdigits, heq⟩ := map_eq_some_iff.mp henc
  obtain ⟨rfl, rfl⟩ := Prod.mk.inj heq
  exact ⟨decode_eq_iff hdigits, packets_genuine hreg⟩

/-- A key whose next counter is even. -/
def sampleKey : Key := ⟨123456789, 0xE6000123⟩

def sampleSent : Key := ⟨123456789, 0xE6000124⟩

def sampleDigits : List Nat := ((encodeKey (replicate 44 0) sampleSent).getD [])

def samplePulses : List Pulse := (getUpload sampleDigits).getD []

/-- The key is sent twice, so that the second packet ends. -/
theorem keys_genuine_sample :
    (decode sampleDigits = sampleSent ↔ reverseKey sampleSent.rolling.toNat 32 ≤ maxFixed) ∧
    machine.Meets Genuine alloc (samplePulses ++ samplePulses) :=
  have henc : encode 1 none (replicate 44 0) sampleKey = some (sampleSent, sampleDigits) := by
    decide
  keys_genuine henc (by decide +kernel)

def readSymbols : List Pulse → Option (List Nat)
  | [] => some []
  | ⟨false, low⟩ :: ⟨true, high⟩ :: rest =>
    (symbolOf low high).bind fun symbol => (readSymbols rest).map (symbol :: ·)
  | _ => none

def readPacket (header : Nat) : List Pulse → Option (List Nat)
  | ⟨false, gap⟩ :: ⟨true, start⟩ :: rest =>
    if isGap gap = true ∧ startSymbol start = some header then readSymbols rest.dropLast else none
  | _ => none

theorem readSymbols_append {ps qs : List Pulse} {ds es : List Nat}
    (hps : readSymbols ps = some ds) (hqs : readSymbols qs = some es) :
    readSymbols (ps ++ qs) = some (ds ++ es) := by
  induction ps using readSymbols.induct generalizing ds with
  | case1 =>
    obtain rfl := some.inj hps
    exact hqs
  | case2 low high rest ih =>
    rw [readSymbols, bind_eq_some_iff] at hps
    obtain ⟨symbol, hsymbol, hrest⟩ := hps
    obtain ⟨ds', hds', rfl⟩ := map_eq_some_iff.mp hrest
    change readSymbols (⟨false, low⟩ :: ⟨true, high⟩ :: (rest ++ qs)) = _
    rw [readSymbols, hsymbol, bind_some, ih hds']
    rfl
  | case3 ps hnil hcons =>
    rw [readSymbols] at hps
    · cases hps
    · exact hnil
    · exact hcons

theorem readSymbols_of_symbols {ds : List Nat} (h : Symbols ps ds) :
    readSymbols ps = some ds ∧ ps.length = 2 * ds.length := by
  induction h with
  | nil => exact ⟨rfl, rfl⟩
  | @concat ps ds low high symbol h hs ih =>
    refine ⟨readSymbols_append ih.1 ?_, ?_⟩
    · rw [readSymbols, hs]
      rfl
    · rw [length_append, length_append, ih.2]
      simp only [length_cons, length_nil]
      omega

theorem readPacket_of_packet {ds : List Nat} (h : Packet header ds ps) :
    readPacket header ps = some ds ∧ ps.length = 43 := by
  obtain ⟨body, gap', rfl, -, hstarted⟩ := h.pulses
  obtain ⟨gap, start, rest, rfl, hgap, hstart, hsymbols⟩ := hstarted.pulses
  obtain ⟨hread, hlen⟩ := readSymbols_of_symbols hsymbols
  have hds := h.length
  rw [minCountBit] at hds
  constructor
  · change readPacket header (⟨false, gap⟩ :: ⟨true, start⟩ :: (rest ++ [⟨false, gap'⟩])) = _
    rw [readPacket, if_pos ⟨hgap, hstart⟩, dropLast_concat, hread]
  · simp only [length_append, length_cons, length_nil, hlen]
    omega

theorem readPacket_of_part {ds : List Nat} (h : Packet header ds ps) (hin : ps <:+: received) :
    ∃ k < received.length, readPacket header ((received.drop k).take 43) = some ds := by
  obtain ⟨hread, hlen⟩ := readPacket_of_packet h
  obtain ⟨before, behind, rfl⟩ := hin
  refine ⟨before.length, ?_, ?_⟩
  · rw [length_append, length_append, hlen]
    omega
  · rw [append_assoc, drop_left, ← hlen, take_left, hread]

/-- The first packet, a packet with its header that breaks off after four symbols of two, the
second packet. -/
def brokenPulses : List Pulse :=
  samplePulses.take 42 ++ [⟨false, teShort * 119⟩, ⟨true, teShort⟩] ++
    (replicate 4 [⟨false, teShort⟩, ⟨true, teShort * 3⟩]).flatten ++ samplePulses.drop 42

def lastGap : Pulse := ⟨false, teShort * 119⟩

def brokenReceiver : Receiver := brokenPulses.foldl feed alloc

theorem run_eq_foldl (r : Receiver) (ps : List Pulse) : machine.run r ps = some (ps.foldl feed r) := by
  induction ps generalizing r with
  | nil => rfl
  | cons p ps ih => exact ih (r.feed p)

/-- A counter of which the reversed one has more digits does not come back, and a key is reported
with symbols of a packet that has broken off. -/
theorem keys_not_genuine : (∃ digits, encode 1 none (replicate 44 0) ⟨123456789, 0xE600000E⟩ =
      some (⟨123456789, 0xE600000F⟩, digits) ∧ decode digits ≠ ⟨123456789, 0xE600000F⟩) ∧
    ¬ machine.Meets Genuine alloc (brokenPulses ++ [lastGap]) := by
  constructor
  · refine ⟨((encodeKey (replicate 44 0) ⟨123456789, 0xE600000F⟩).getD []), ?_, ?_⟩ <;> decide
  · intro hmeets
    rw [machine.meets_append (run_eq_foldl alloc brokenPulses)] at hmeets
    have hgenuine : brokenReceiver.Genuine lastGap := hmeets.2.1
    have hreceived : (brokenReceiver.feed lastGap).received = brokenPulses ++ [lastGap] := by
      decide +kernel
    have hreport : (brokenReceiver.decoder.feed lastGap).2.isSome = true := by decide +kernel
    obtain ⟨key, hkey⟩ := isSome_iff_exists.mp hreport
    obtain ⟨ps₁, ds₁, ps₂, ds₂, h₁, h₂, hin₁, hin₂, heq⟩ := hgenuine key hkey
    rw [hreceived] at hin₁ hin₂
    -- the packets that are in there are those of the key that was sent
    have honly₁ : ∀ k < (brokenPulses ++ [lastGap]).length,
        readPacket 0 (((brokenPulses ++ [lastGap]).drop k).take 43) = none ∨
        readPacket 0 (((brokenPulses ++ [lastGap]).drop k).take 43) =
          some ((sampleDigits.drop 1).take 20) := by decide +kernel
    have honly₂ : ∀ k < (brokenPulses ++ [lastGap]).length,
        readPacket 2 (((brokenPulses ++ [lastGap]).drop k).take 43) = none ∨
        readPacket 2 (((brokenPulses ++ [lastGap]).drop k).take 43) =
          some ((sampleDigits.drop 22).take 20) := by decide +kernel
    obtain ⟨k₁, hk₁, hread₁⟩ := readPacket_of_part h₁ hin₁
    obtain ⟨k₂, hk₂, hread₂⟩ := readPacket_of_part h₂ hin₂
    have hds₁ : ds₁ = (sampleDigits.drop 1).take 20 := by
      rcases honly₁ k₁ hk₁ with h | h <;> rw [hread₁] at h
      · cases h
      · exact some.inj h
    have hds₂ : ds₂ = (sampleDigits.drop 22).take 20 := by
      rcases honly₂ k₂ hk₂ with h | h <;> rw [hread₂] at h
      · cases h
      · exact some.inj h
    rw [hds₁, hds₂] at heq
    rw [heq] at hkey
    exact absurd hkey (by decide +kernel)

end Receiver

end NikitaFirmware.SubGhz.SecPlusV1
