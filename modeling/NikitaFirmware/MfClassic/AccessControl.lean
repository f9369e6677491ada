import NikitaFirmware.Foundations.Machine
import NikitaFirmware.MfClassic.Handlers

/-!
# Access to the blocks of an emulated card

A frame has the outcome of its handler, and a run keeps the authentication that the listener goes
by: blocks are sent, loaded and written with the access that the last completed authentication
gives, except by a transfer to another sector.
-/

namespace NikitaFirmware.MfClassic
open Nfc Foundations Option

namespace Listener

variable {l l' : Listener} {buff : BitBuffer} {nt : Nonce} {r : Handled} {h : Handler} {b : Byte}

/-- The block that the frame transfers a value to. -/
def target (l : Listener) (buff : BitBuffer) : Option Byte :=
  if l.cmdInProgress = true ∧
      handlerAt l.currentCmdIdx l.currentCmdHandlerIdx = some .valueTransfer then
    l.transferTarget buff
  else none

theorem firstHandler_run (htotal : l.totalBlockNum = getTotalBlockNum l.data.type)
    (hauth : l.Authenticated) (hp : l.cmdInProgress = false)
    (hidx : l.currentCmdHandlerIdx = 0)
    (hh : handlerAt l.currentCmdIdx l.currentCmdHandlerIdx = some h)
    (hr : h.run l buff nt = some r) : Outcome l r ∧ Justified l r := by
  have hfirst : ∀ i < 9, ∀ h ∈ handlerAt i 0, h = .halt ∨ h = .authKeyA ∨ h = .authKeyB ∨
      h = .readBlock ∨ h = .writeBlockFirstPart ∨ h = .valueCmd := by decide
  have hcase := hfirst _ (handlerAt_bound hh).1 h (by rw [← hidx]; exact hh)
  rcases hcase with rfl | rfl | rfl | rfl | rfl | rfl
  · exact halt_outcome hauth (inProgress_of_not hp) hr
  · exact authFirstPart_outcome hh rfl hp hr
  · exact authFirstPart_outcome hh rfl hp hr
  · exact readBlock_outcome htotal hauth hp hr
  · exact writeBlockFirstPart_outcome hh hauth hp hr
  · exact valueCmd_outcome hh hauth hp hr

theorem dispatch_outcome (htotal : l.totalBlockNum = getTotalBlockNum l.data.type)
    (hauth : l.Authenticated) (hp : l.InProgress) (hr : l.dispatch buff nt = some r) :
    Outcome l r ∧ (l.target buff = none → Justified l r) ∧
      ∀ b, l.target buff = some b → r.written = some (b, .dataDec) ∧ l.state = .authComplete := by
  rw [dispatch] at hr
  by_cases hc : l.cmdInProgress = true
  · rw [if_pos hc] at hr
    obtain ⟨h, hh, haw⟩ := hp hc
    rw [hh, bind_some] at hr
    have hnone : h ≠ .valueTransfer → l.target buff = none := by
      intro hne
      exact if_neg fun heq => hne (some.inj (hh.symm.trans heq.2))
    cases h with
    | authSecondPart =>
      obtain ⟨ho, hj⟩ := authSecondPart_outcome haw hr
      exact ⟨ho, fun _ => hj, fun b hb => absurd (hb.symm.trans (hnone (by simp))) (by simp)⟩
    | writeBlockSecondPart =>
      obtain ⟨ho, hj⟩ := writeBlockSecondPart_outcome haw hauth hr
      exact ⟨ho, fun _ => hj, fun b hb => absurd (hb.symm.trans (hnone (by simp))) (by simp)⟩
    | valueDataReceive =>
      obtain ⟨ho, hj⟩ := valueDataReceive_outcome hh haw hauth hp hr
      exact ⟨ho, fun _ => hj, fun b hb => absurd (hb.symm.trans (hnone (by simp))) (by simp)⟩
    | valueTransfer =>
      obtain ⟨ho, hw⟩ := valueTransfer_outcome hauth hr
      have htarget : l.target buff = l.transferTarget buff := if_pos ⟨hc, hh⟩
      rw [htarget]
      refine ⟨ho, fun hn => justified_of_none (by rw [hw, hn]; rfl), fun b hb => ⟨?_, haw⟩⟩
      rw [hw, hb]
      rfl
    | halt | authKeyA | authKeyB | readBlock | writeBlockFirstPart | valueCmd => exact haw.elim
  · rw [if_neg hc] at hr
    have hnone : l.target buff = none := if_neg fun heq => hc heq.1
    have hfalse := Bool.eq_false_iff.mpr hc
    refine and_assoc.mp ⟨?_, fun b hb => absurd (hb.symm.trans hnone) (by simp)⟩
    split at hr
    case h_1 i _ =>
      rw [bind_eq_some_iff] at hr
      obtain ⟨h, hh, hr⟩ := hr
      have hlike : Like { l with currentCmdIdx := i, currentCmdHandlerIdx := 0 } l :=
        ⟨rfl, rfl, rfl, rfl, rfl⟩
      obtain ⟨ho, hj⟩ := firstHandler_run
        (l := { l with currentCmdIdx := i, currentCmdHandlerIdx := 0 }) htotal hauth hfalse rfl hh hr
      exact ⟨ho.of_like hlike, fun _ => hj.of_like hlike⟩
    · obtain rfl := some.inj hr
      exact ⟨outcome_of_data rfl rfl (by simp) (fun hs => ⟨rfl, rfl, hauth hs⟩) hp,
        fun _ => justified_of_none rfl⟩

theorem sendShortFrame_same {data : Byte} {t : Sent}
    (hs : l.sendShortFrame data = some (l', t)) : Same l l' ∧ t.source = none := by
  rw [sendShortFrame, bind_eq_bind, bind_eq_some_iff] at hs
  obtain ⟨tx, -, hs⟩ := hs
  rw [bind_eq_some_iff] at hs
  obtain ⟨tx', -, hs⟩ := hs
  cases hc : l.commState with
  | plain =>
    rw [hc] at hs
    obtain ⟨rfl, rfl⟩ := Prod.mk.inj (some.inj hs)
    exact ⟨⟨rfl, rfl, rfl, rfl, rfl, rfl, rfl, rfl⟩, rfl⟩
  | encrypted =>
    rw [hc] at hs
    obtain ⟨h, -, hsource⟩ := sendEncrypted_same hs
    exact ⟨⟨h.state, h.data, h.context, h.writeBlock, h.progress, h.cmdIdx, h.handlerIdx, h.total⟩,
      hsource⟩

theorem Same.inProgress (hs : Same l l') (hp : l.InProgress) : l'.InProgress := by
  intro hc
  obtain ⟨h, hh, haw⟩ := hp (hs.progress ▸ hc)
  refine ⟨h, by rw [hs.cmdIdx, hs.handlerIdx, hh], ?_⟩
  have hwithin : ∀ b, l.Within b → l'.Within b := fun b hb =>
    ⟨hs.state ▸ hb.state, by rw [inSector, hs.context]; exact hb.sector, hs.total ▸ hb.card⟩
  cases h with
  | authSecondPart => exact ⟨hs.state ▸ haw.1, by rw [hs.context, hs.total]; exact haw.2⟩
  | writeBlockSecondPart =>
    have hblock := hs.writeBlock
    exact ⟨hblock ▸ hwithin _ haw.1, hblock ▸ haw.2⟩
  | valueDataReceive | valueTransfer => exact hs.state.trans haw
  | halt | authKeyA | authKeyB | readBlock | writeBlockFirstPart | valueCmd => exact haw

theorem respond_outcome {r₀ : Handled} (ho : Outcome l r₀) (hr : respond r₀ = some r) :
    Outcome l r ∧ r.written = r₀.written ∧ r.listener.data = r₀.listener.data := by
  have hreset : ∀ {k : Listener} {sent : List Sent}, k.data = r₀.listener.data →
      k.totalBlockNum = r₀.listener.totalBlockNum →
      (∀ t ∈ sent, ∀ b, t.source = some b → l.Transmits b t.plain.bytes) →
      Outcome l { r₀ with listener := k.resetState, sent := sent } := by
    intro k sent hdata htotal hsent
    refine ⟨?_, htotal.trans ho.total, hsent, ho.loaded, fun b hb => ?_,
      fun hs => State.noConfusion hs, inProgress_of_not rfl⟩
    · exact (congrArg Data.identity hdata).trans ho.identity
    · exact (congrArg (fun d => d.block b) hdata).trans (ho.frame b hb)
  have hsent : ∀ {t : Sent}, t.source = none → ∀ t' ∈ r₀.sent ++ [t], ∀ b, t'.source = some b →
      l.Transmits b t'.plain.bytes := by
    intro t hnone t' ht' b hb
    rcases List.mem_append.mp ht' with hmem | hmem
    · exact ho.sent t' hmem b hb
    · rw [List.mem_singleton.mp hmem, hnone] at hb
      cases hb
  rw [respond] at hr
  split at hr
  · rw [map_eq_some_iff] at hr
    obtain ⟨⟨l₁, t⟩, hsend, rfl⟩ := hr
    obtain ⟨hsame, hsource⟩ := sendShortFrame_same hsend
    refine ⟨⟨by rw [hsame.data, ho.identity], hsame.total.trans ho.total, hsent hsource, ho.loaded,
      fun b hb => ?_, fun hs => ?_, hsame.inProgress ho.progress⟩, rfl, hsame.data⟩
    · exact (congrArg (fun d => d.block b) hsame.data).trans (ho.frame b hb)
    · obtain ⟨hblock, hkey, hlt⟩ := ho.context (hsame.state ▸ hs)
      exact ⟨(congrArg AuthContext.blockNum hsame.context).trans hblock,
        (congrArg AuthContext.keyType hsame.context).trans hkey, hlt⟩
  · rw [map_eq_some_iff] at hr
    obtain ⟨⟨l₁, t⟩, hsend, rfl⟩ := hr
    obtain ⟨hsame, hsource⟩ := sendShortFrame_same hsend
    exact ⟨hreset hsame.data hsame.total (hsent hsource), rfl, hsame.data⟩
  · obtain rfl := some.inj hr
    exact ⟨hreset rfl rfl ho.sent, rfl, rfl⟩
  all_goals
    obtain rfl := some.inj hr
    exact ⟨ho, rfl, rfl⟩

theorem receive_like {rx : BitBuffer} (hr : l.receive buff = some (l', rx)) :
    Like l' l ∧ Same l l' := by
  rw [receive] at hr
  split at hr
  · rw [bind_eq_some_iff] at hr
    obtain ⟨⟨c, rx₁⟩, -, hr⟩ := hr
    obtain ⟨rx₂, -, hr⟩ := map_eq_some_iff.mp hr
    obtain ⟨rfl, -⟩ := Prod.mk.inj hr
    exact ⟨⟨rfl, rfl, rfl, rfl, rfl⟩, ⟨rfl, rfl, rfl, rfl, rfl, rfl, rfl, rfl⟩⟩
  · obtain ⟨rfl, -⟩ := Prod.mk.inj (some.inj hr)
    exact ⟨⟨rfl, rfl, rfl, rfl, rfl⟩, ⟨rfl, rfl, rfl, rfl, rfl, rfl, rfl, rfl⟩⟩

theorem allows_of_target (ht : l.target buff = some b) :
    l.allows b .dataDec = true ∧ isSectorTrailer b = false := by
  rw [target] at ht
  split at ht
  case isFalse => cases ht
  case isTrue =>
    rw [transferTarget] at ht
    split at ht
    case isFalse => cases ht
    case isTrue =>
      have hallows := (filter_eq_some_iff.mp ht).2
      refine ⟨hallows, Bool.eq_false_iff.mpr fun htrailer => ?_⟩
      rw [allows, isAllowedAccess, if_pos htrailer] at hallows
      exact absurd hallows (by simp [isAllowedAccessSectorTrailer])

/-- The block that an event transfers a value to. -/
def eventTarget (l : Listener) : Event → Option Byte
  | .received buff _ => (l.receive buff).bind fun r => r.1.target r.2
  | _ => none

theorem run_outcome {e : Event} (htotal : l.totalBlockNum = getTotalBlockNum l.data.type)
    (hauth : l.Authenticated) (hp : l.InProgress) (hr : l.run e = some r) :
    Outcome l r ∧ (l.eventTarget e = none → Justified l r) ∧
      ∀ b, l.eventTarget e = some b → r.written = some (b, .dataDec) ∧ l.state = .authComplete ∧
        l.allows b .dataDec = true ∧ isSectorTrailer b = false := by
  have hreset : Outcome l { command := .sleep, listener := l.resetState } :=
    outcome_of_data rfl rfl (by simp) (fun hs => State.noConfusion hs) (inProgress_of_not rfl)
  cases e with
  | fieldOff | halted =>
    obtain rfl := some.inj hr
    exact ⟨hreset, fun _ => justified_of_none rfl, fun b hb => absurd hb (by simp [eventTarget])⟩
  | received buff nt =>
    rw [run, bind_eq_bind, bind_eq_some_iff] at hr
    obtain ⟨⟨l₁, rx⟩, hreceive, hr⟩ := hr
    rw [bind_eq_bind, bind_eq_some_iff] at hr
    obtain ⟨r₀, hdispatch, hrespond⟩ := hr
    obtain ⟨hlike, hsame⟩ := receive_like hreceive
    have htotal₁ : l₁.totalBlockNum = getTotalBlockNum l₁.data.type := by
      rw [hsame.total, hsame.data, htotal]
    have hauth₁ : l₁.Authenticated := fun hs => by
      rw [hsame.context, hsame.total]
      exact hauth (hlike.state ▸ hs)
    obtain ⟨ho, hj, ht⟩ := dispatch_outcome htotal₁ hauth₁ (hsame.inProgress hp) hdispatch
    obtain ⟨ho', hwritten, hdata⟩ := respond_outcome ho hrespond
    have htarget : l.eventTarget (.received buff nt) = l₁.target rx := by
      rw [eventTarget, hreceive]
      rfl
    rw [htarget]
    refine ⟨ho'.of_like hlike, fun hn b a hw => ?_, fun b hb => ?_⟩
    · rw [hdata]
      exact hlike.writes (hj hn b a (hwritten ▸ hw))
    · obtain ⟨hw, hs⟩ := ht b hb
      obtain ⟨hallows, htrailer⟩ := allows_of_target hb
      exact ⟨hwritten.trans hw, hlike.state ▸ hs, hlike.allows ▸ hallows, htrailer⟩

end Listener

/-- An emulated card, with the last authentication that has been completed. -/
structure Emulation where
  listener : Listener
  lastAuth : Option (KeyType × Byte)

namespace Emulation
open Listener

/-- An authentication is completed where the listener becomes an authenticated one. -/
def after (s : Emulation) (l : Listener) : Emulation where
  listener := l
  lastAuth :=
    if s.listener.state = .idle ∧ l.state = .authComplete then
      some (l.authContext.keyType, l.authContext.blockNum)
    else s.lastAuth

def machine : Machine Emulation Event where
  step s e := (s.listener.run e).map fun r => s.after r.listener

/-- The sector and the key that the listener goes by are those of the last completed
authentication, and it knows the size of its card. -/
structure InSession (s : Emulation) : Prop where
  state : s.listener.state = .authComplete
  auth : s.lastAuth = some (s.listener.authContext.keyType, s.listener.authContext.blockNum)
  total : s.listener.totalBlockNum = getTotalBlockNum s.listener.data.type

/-- Blocks are sent, loaded and written by right, and all others stay as they are. -/
structure Respects (s : Emulation) (r : Handled) : Prop where
  sent : ∀ t ∈ r.sent, ∀ b, t.source = some b → s.InSession ∧ s.listener.Transmits b t.plain.bytes
  loaded : ∀ b cmd, r.loaded = some (b, cmd) → s.InSession ∧ s.listener.Grants b (valueAccess cmd)
  written : ∀ b a, r.written = some (b, a) →
    s.InSession ∧ s.listener.Writes b a (r.listener.data.block b)
  frame : ∀ b, (∀ a, r.written ≠ some (b, a)) → r.listener.data.block b = s.listener.data.block b

def Controlled (s : Emulation) (e : Event) : Prop :=
  ∀ r, s.listener.run e = some r → s.Respects r

/-- A value is transferred to a block of the sector, and not to the first block. -/
def TransfersInSector (s : Emulation) (e : Event) : Prop :=
  ∀ b ∈ s.listener.eventTarget e, b ≠ 0 ∧ s.listener.inSector b = true

structure Inv (s : Emulation) : Prop where
  total : s.listener.totalBlockNum = getTotalBlockNum s.listener.data.type
  auth : s.listener.state = .authComplete →
    s.lastAuth = some (s.listener.authContext.keyType, s.listener.authContext.blockNum) ∧
      s.listener.authContext.blockNum.toNat < s.listener.totalBlockNum
  progress : s.listener.InProgress

variable {s s' : Emulation} {e : Event}

theorem Inv.step (h : s.Inv) (hs : machine.step s e = some s') : s'.Inv := by
  obtain ⟨r, hr, rfl⟩ := map_eq_some_iff.mp hs
  obtain ⟨ho, -, -⟩ := run_outcome h.total (fun hs => (h.auth hs).2) h.progress hr
  refine ⟨?_, fun hstate => ?_, ho.progress⟩
  · exact ho.total.trans (h.total.trans (congrArg getTotalBlockNum ho.type.symm))
  · obtain ⟨hblock, hkey, hlt⟩ := ho.context hstate
    refine ⟨?_, ?_⟩
    · change (if _ then _ else s.lastAuth) =
        some (r.listener.authContext.keyType, r.listener.authContext.blockNum)
      cases hidle : s.listener.state with
      | idle => exact if_pos ⟨rfl, hstate⟩
      | authComplete =>
        rw [if_neg (by simp), (h.auth hidle).1, hblock, hkey]
    · change r.listener.authContext.blockNum.toNat < r.listener.totalBlockNum
      rw [hblock, ho.total]
      exact hlt

theorem Inv.inSession (h : s.Inv) (hs : s.listener.state = .authComplete) : s.InSession :=
  ⟨hs, (h.auth hs).1, h.total⟩

theorem Inv.controlled (h : s.Inv) (ht : s.TransfersInSector e) : s.Controlled e := by
  intro r hr
  obtain ⟨ho, hj, htarget⟩ := run_outcome h.total (fun hs => (h.auth hs).2) h.progress hr
  refine ⟨fun t hmem b hb => ?_, fun b cmd hl => ?_, fun b a hw => ?_, ho.frame⟩
  · have htrans := ho.sent t hmem b hb
    exact ⟨h.inSession htrans.within.state, htrans⟩
  · have hgrants := ho.loaded b cmd hl
    exact ⟨h.inSession hgrants.within.state, hgrants⟩
  · have hwrites : s.listener.Writes b a (r.listener.data.block b) := by
      cases hblock : s.listener.eventTarget e with
      | none => exact hj hblock b a hw
      | some c =>
        obtain ⟨hwritten, hs, hallows, htrailer⟩ := htarget c hblock
        obtain ⟨rfl, rfl⟩ := Prod.mk.inj (some.inj (hwritten.symm.trans hw))
        obtain ⟨hpos, hsector⟩ := ht c hblock
        exact ⟨within_of_sector h.total (fun hs => (h.auth hs).2) hs hsector, hpos,
          fun _ => hallows, fun h => absurd (htrailer.symm.trans h) (by simp),
          fun h => absurd (htrailer.symm.trans h) (by simp),
          fun h => absurd (htrailer.symm.trans h) (by simp)⟩
    exact ⟨h.inSession hwrites.within.state, hwrites⟩

theorem Inv.transfersInSector (h : s.Inv) (hs : machine.step s e = some s')
    (hc : s.Controlled e) : s.TransfersInSector e := by
  intro b hb
  obtain ⟨r, hr, -⟩ := map_eq_some_iff.mp hs
  obtain ⟨-, -, htarget⟩ := run_outcome h.total (fun hs => (h.auth hs).2) h.progress hr
  obtain ⟨-, hwrites⟩ := (hc r hr).written b .dataDec (htarget b hb).1
  exact ⟨hwrites.pos, hwrites.within.sector⟩

/-- The card before the first event. -/
def start (data : Data) : Emulation := ⟨Listener.alloc data, none⟩

theorem inv_start (data : Data) : (start data).Inv where
  total := rfl
  auth := fun hs => State.noConfusion hs
  progress := inProgress_of_not rfl

theorem transfersInSector_of_controlled (data : Data) {events : List Event} {t : Emulation}
    (ht : machine.run (start data) events = some t)
    (hm : machine.Meets Controlled (start data) events) :
    machine.Meets TransfersInSector (start data) events := by
  have hboth := (machine.meets_and).mpr ⟨machine.meets_enabled_of_run ht, hm⟩
  exact machine.meets_of_meets (fun s e s' h hs => Inv.step h hs)
    (fun s e h hok => h.transfersInSector hok.1.choose_spec hok.2) (inv_start data) hboth

/-- In every run whose transfers stay in their sector access is under control; and where no check
of a buffer fails, it is under control in no other run. -/
theorem access_controlled_iff (data : Data) (events : List Event) :
    (machine.Meets TransfersInSector (start data) events →
      machine.Meets Controlled (start data) events) ∧
    ∀ t, machine.run (start data) events = some t → machine.Meets Controlled (start data) events →
        machine.Meets TransfersInSector (start data) events :=
  ⟨machine.meets_of_meets (fun _ _ _ h hs => Inv.step h hs) (fun _ _ h ht => h.controlled ht)
    (inv_start data), fun _ ht hm => transfersInSector_of_controlled data ht hm⟩

instance decidableTransfersInSector : ∀ s e, Decidable (TransfersInSector s e) := fun s e =>
  match h : s.listener.eventTarget e with
  | none => isTrue fun b hb => absurd (hb.symm.trans h) (by simp)
  | some c => decidable_of_iff (c ≠ 0 ∧ s.listener.inSector c = true) <| by
      constructor
      · intro hc b hb
        exact some.inj (h.symm.trans hb) ▸ hc
      · intro ht
        exact ht c h

/-- A card in the transport configuration, with a value in the block 1. -/
def valueCard : Data where
  uid := [0x01, 0x02, 0x03, 0x04]
  type := .k1
  block b :=
    if isSectorTrailer b then ⟨[0xFF, 0xFF, 0xFF, 0xFF, 0xFF, 0xFF, 0xFF, 0x07, 0x80, 0x69,
      0xFF, 0xFF, 0xFF, 0xFF, 0xFF, 0xFF], rfl⟩
    else if b = 1 then valueToBlock 5 1 else ⟨List.replicate 16 0, Block.length_zeros⟩

/-- The frames of a reader that authenticates for the block 1 and decrements its value, up to the
transfer. -/
def decrement (last : List (List Byte)) : List Event :=
  ([[0x60, 0x01], [0x2D, 0x8B, 0xED, 0x05, 0xC3, 0x70, 0xC9, 0xD8], [0x0C, 0x91, 0x71, 0x8E],
    [0x9B, 0x8A, 0x3F, 0xC1, 0x43, 0x80]] ++ last).map fun bytes =>
      .received (BitBuffer.ofBytes bytes) ⟨[0x11, 0x22, 0x33, 0x44], rfl⟩

/-- The value is transferred to the block 2, which is then read. -/
theorem access_controlled_iff_transfer :
    (machine.run (start valueCard) (decrement [[0xAB, 0x5C, 0x1E, 0x29],
      [0xD3, 0xF3, 0x13, 0x7A]])).isSome = true ∧
    machine.Meets Controlled (start valueCard) (decrement [[0xAB, 0x5C, 0x1E, 0x29],
      [0xD3, 0xF3, 0x13, 0x7A]]) :=
  ⟨by decide +kernel, (access_controlled_iff valueCard _).1 (by decide +kernel)⟩

/-- The value is transferred to the block 0. -/
theorem transfer_not_controlled :
    ¬ ∀ (data : Data) (events : List Event), machine.Meets Controlled (start data) events := by
  intro h
  have hm := h valueCard (decrement [[0xAB, 0x5E, 0x0C, 0x0A]])
  have hsome : (machine.run (start valueCard) (decrement [[0xAB, 0x5E, 0x0C, 0x0A]])).isSome =
      true := by decide +kernel
  obtain ⟨t, ht⟩ := isSome_iff_exists.mp hsome
  have htransfers := transfersInSector_of_controlled valueCard ht hm
  revert htransfers
  decide +kernel

end Emulation

end NikitaFirmware.MfClassic
