import NikitaFirmware.MfClassic.AccessControl
import NikitaFirmware.MfClassic.AuthHandlers

/-!
# The handlers of a session

What the listener does with a command of a session, as far as its generator and its buffers are
concerned. It sends nothing, or one frame that is encrypted in the state behind the command. A
command that is refused ends the session, and so does a halt.
-/

namespace NikitaFirmware.MfClassic
open Nfc List Option

namespace Listener

variable {l : Listener} {rx tx frame : BitBuffer} {c c' : Crypto1} {r : Handled} {o : Option Handled}
  {nt : Nonce}

theorem Listens.like {l' : Listener} (hl : l.Listens c) (hstate : l'.state = l.state)
    (hcomm : l'.commState = l.commState) (hcrypto : l'.crypto = l.crypto)
    (hplain : l'.txPlain = l.txPlain) (hencrypted : l'.txEncrypted = l.txEncrypted)
    (hrx : l'.rxPlain = l.rxPlain) : l'.Listens c :=
  ⟨hstate.trans hl.state, hcomm.trans hl.commState, hcrypto.trans hl.crypto,
    ⟨hplain ▸ hl.buffers.txPlain, hencrypted ▸ hl.buffers.txEncrypted,
      hencrypted ▸ hl.buffers.parity, hrx ▸ hl.buffers.rxPlain⟩⟩

def sends (l : Listener) (tx : BitBuffer) (c : Crypto1) (frame : BitBuffer) : Listener :=
  { l with txPlain := tx, crypto := c, txEncrypted := frame }

theorem Listens.sends (hl : l.Listens c) (htx : tx.capacityBytes = 64)
    (hframe : frame.capacityBytes = 64) (hpar : frame.capacityBytes ≤ 8 * frame.parity.length) :
    (l.sends tx c' frame).Listens c' :=
  ⟨hl.state, hl.commState, rfl, ⟨htx, hframe, hpar, hl.buffers.rxPlain⟩⟩

structure Closed (l : Listener) : Prop where
  state : l.state = .idle
  commState : l.commState = .plain
  progress : l.cmdInProgress = false

theorem closed_resetState (l : Listener) : l.resetState.Closed := ⟨rfl, rfl, rfl⟩

/-- A frame that has been encrypted in the state `c`. -/
structure Encrypts (c : Crypto1) (t : Sent) : Prop where
  opens : c.Opens t.behind t.plain t.frame
  frame : t.frame.IsFrame
  size : t.frame.sizeBytes ≤ 64

/-- A handler has a result, and has either sent its frame or left the answer to `respond`. -/
def Handles (c : Crypto1) (o : Option Handled) : Prop := ∃ r, o = some r ∧
  ((r.command = .processed ∧ ∃ t, r.sent = [t] ∧ Encrypts c t ∧ r.listener.Listens t.behind) ∨
    r.command ≠ .processed ∧ r.sent = [] ∧ r.listener.Listens c)

theorem Listens.handles (hl : r.listener.Listens c) (hcommand : r.command ≠ .processed)
    (hsent : r.sent = []) : Handles c (some r) := ⟨r, rfl, .inr ⟨hcommand, hsent, hl⟩⟩

theorem sendEncrypted_encrypts (hl : l.Listens c) (htx : l.txPlain.IsFrame) (source : Option Byte) :
    ∃ l' t, l.sendEncrypted [] source = some (l', t) ∧ Encrypts c t ∧ l'.Listens t.behind := by
  have hle : l.txPlain.sizeBytes ≤ 64 := hl.buffers.txPlain ▸ htx.1
  obtain ⟨c', frame, henc, hopens, hframe, hcap, hpar⟩ := Crypto1.exists_encrypt c l.txEncrypted htx
    (by rw [hl.buffers.txEncrypted]; exact hle) hl.buffers.parity
  have hsize : frame.sizeBytes = l.txPlain.sizeBytes := by
    rw [BitBuffer.sizeBytes, BitBuffer.sizeBytes, hopens.size]
  refine ⟨l.sends l.txPlain c' frame, ⟨l.txPlain, frame, source, c'⟩, ?_,
    ⟨hopens, hframe, hsize ▸ hle⟩, hl.sends hl.buffers.txPlain (hcap.trans hl.buffers.txEncrypted) hpar⟩
  rw [sendEncrypted, hl.crypto, henc]
  rfl

theorem Listens.withPlain (hl : l.Listens c) (htx : tx.capacityBytes = 64) :
    ({ l with txPlain := tx } : Listener).Listens c :=
  ⟨hl.state, hl.commState, hl.crypto,
    ⟨htx, hl.buffers.txEncrypted, hl.buffers.parity, hl.buffers.rxPlain⟩⟩

theorem sendShortFrame_encrypts (hl : l.Listens c) (x : Byte) :
    ∃ l' t, l.sendShortFrame x = some (l', t) ∧ Encrypts c t ∧ l'.Listens t.behind := by
  have hcap : 1 ≤ l.txPlain.capacityBytes := by
    rw [hl.buffers.txPlain]
    decide
  obtain ⟨b, hsize, hbyte⟩ := bind_eq_some_iff.mp
    (BitBuffer.setSize_setByte_short (n := 4) rfl hcap x)
  have hplain : (l.txPlain.short x).capacityBytes = 64 := (length_set).trans hl.buffers.txPlain
  rw [sendShortFrame, hsize, bind_eq_bind, bind_some, hbyte, bind_some]
  split
  case h_1 => exact sendEncrypted_encrypts (hl.withPlain hplain) (BitBuffer.isFrame_short hcap x) none
  case h_2 h => cases h.symm.trans hl.commState

theorem sendBlock_handles (hl : l.Listens c) (block : Byte) (content : Block) :
    Handles c (l.sendBlock block content) := by
  obtain ⟨tx, htx, hholds, -⟩ := exists_copyBytes l.txPlain content.bytes
    (by rw [content.length_bytes, hl.buffers.txPlain]; decide)
  rw [hl.buffers.txPlain] at hholds
  obtain ⟨tx', htx', hholds'⟩ := exists_crcAppend hholds (by rw [content.length_bytes]; decide)
  have hbits : tx'.sizeBits = 144 := by
    rw [hholds'.sizeBits, length_append, content.length_bytes]
    rfl
  obtain ⟨l', t, hsend, hencrypts, hlistens⟩ := sendEncrypted_encrypts
    (hl.withPlain hholds'.capacity) ⟨hholds'.whole.le, by rw [hbits]; decide⟩ (some block)
  rw [sendBlock, htx, bind_eq_bind, bind_some, htx', bind_eq_bind, bind_some, hsend]
  exact ⟨_, rfl, .inl ⟨rfl, t, rfl, hencrypts, hlistens⟩⟩

section Handlers

variable (hl : l.Listens c) (hrx : rx.capacityBytes = 64)

include hrx in
theorem exists_getByte {i : Nat} (hi : i < 64) : ∃ b, rx.getByte i = some b :=
  ⟨_, List.getElem?_eq_getElem (Nat.lt_of_lt_of_eq hi hrx.symm)⟩

theorem exists_writeBytesMid {start size : Nat} (h : start + size ≤ rx.sizeBytes) :
    ∃ bytes, rx.writeBytesMid start size = some bytes :=
  ⟨_, if_neg (Nat.not_lt.mpr h)⟩

theorem exists_writeField {start size : Nat} {block : Byte} {action : Action} {content : Block}
    (h : start + size ≤ rx.sizeBytes) :
    ∃ content', l.writeField block action rx start size content = some content' := by
  obtain ⟨bytes, hbytes⟩ := exists_writeBytesMid h
  rw [writeField, hbytes]
  split <;> exact ⟨_, rfl⟩

include hl hrx in
theorem haltHandler_handles : Handles c (l.haltHandler rx) := by
  obtain ⟨lsb, hlsb⟩ := exists_getByte hrx (show 1 < 64 by decide)
  rw [haltHandler, hlsb, map_some]
  refine hl.handles ?_ rfl
  dsimp only
  split <;> simp

include hl hrx in
theorem readBlock_handles : Handles c (l.readBlockHandler rx) := by
  obtain ⟨block, hblock⟩ := exists_getByte hrx (show 1 < 64 by decide)
  rw [readBlockHandler, hblock, bind_eq_bind, bind_some]
  split
  · exact hl.handles (by simp) rfl
  · split
    · exact sendBlock_handles hl _ _
    · split
      · exact sendBlock_handles hl _ _
      · exact hl.handles (by simp) rfl

include hl hrx in
theorem writeBlockFirstPart_handles : Handles c (l.writeBlockFirstPartHandler rx) := by
  obtain ⟨block, hblock⟩ := exists_getByte hrx (show 1 < 64 by decide)
  rw [writeBlockFirstPartHandler, hblock, bind_eq_bind, bind_some]
  split
  · exact hl.handles (by simp) rfl
  · exact Listens.handles (hl.like rfl rfl rfl rfl rfl rfl) (by simp) rfl

include hl in
theorem writeBlockSecondPart_handles : Handles c (l.writeBlockSecondPartHandler rx) := by
  have hstored : ∀ content block action, Handles c
      (some (storeBlock { l with cmdInProgress := false } block content action)) :=
    fun _ _ _ => Listens.handles (hl.like rfl rfl rfl rfl rfl rfl) (by simp [storeBlock]) rfl
  have hrefused : Handles c (some ⟨.nack, { l with cmdInProgress := false }, [], none, none⟩) :=
    Listens.handles (hl.like rfl rfl rfl rfl rfl rfl) (by simp) rfl
  rw [writeBlockSecondPartHandler]
  dsimp only
  split
  · exact hrefused
  case isFalse hsize =>
    rw [not_not] at hsize
    split
    · split
      · exact hrefused
      · obtain ⟨c₁, h₁⟩ := @exists_writeField { l with cmdInProgress := false } rx 0 6 l.writeBlock
          .keyAWrite (l.data.block l.writeBlock) (by omega)
        obtain ⟨c₂, h₂⟩ := @exists_writeField { l with cmdInProgress := false } rx 10 6 l.writeBlock
          .keyBWrite c₁ (by omega)
        obtain ⟨c₃, h₃⟩ := @exists_writeField { l with cmdInProgress := false } rx 6 4 l.writeBlock
          .acWrite c₂ (by omega)
        rw [h₁, bind_eq_bind, bind_some, h₂, bind_some, h₃, bind_some]
        exact hstored _ _ _
    · split
      · obtain ⟨bytes, hbytes⟩ := @exists_writeBytesMid rx 0 16 (by omega)
        rw [hbytes, bind_eq_bind, bind_some]
        exact hstored _ _ _
      · exact hrefused

include hl hrx in
theorem valueCmd_handles : Handles c (l.valueCmdHandler rx) := by
  obtain ⟨block, hblock⟩ := exists_getByte hrx (show 1 < 64 by decide)
  obtain ⟨cmdByte, hcmd⟩ := exists_getByte hrx (show 0 < 64 by decide)
  rw [valueCmdHandler, hblock, bind_eq_bind, bind_some]
  split
  · exact hl.handles (by simp) rfl
  · rw [hcmd, bind_some]
    split
    · exact hl.handles (by simp) rfl
    · rw [loadValue]
      split
      · split <;> exact Listens.handles (hl.like rfl rfl rfl rfl rfl rfl) (by simp) rfl
      · exact Listens.handles (hl.like rfl rfl rfl rfl rfl rfl) (by simp) rfl

include hl in
theorem valueDataReceive_handles : Handles c (l.valueDataReceiveHandler rx) := by
  rw [valueDataReceiveHandler]
  split
  · exact hl.handles (by simp) rfl
  case isFalse hsize =>
    obtain ⟨data, hdata⟩ := @exists_writeBytesMid rx 0 4 (by omega)
    rw [hdata, bind_eq_bind, bind_some]
    exact Listens.handles (hl.like rfl rfl rfl rfl rfl rfl) (by simp) rfl

include hl hrx in
theorem valueTransfer_handles : Handles c (l.valueTransferHandler rx) := by
  obtain ⟨block, hblock⟩ := exists_getByte hrx (show 1 < 64 by decide)
  obtain ⟨cmd, hcmd⟩ := exists_getByte hrx (show 0 < 64 by decide)
  rw [valueTransferHandler]
  dsimp only
  split
  · exact Listens.handles (hl.like rfl rfl rfl rfl rfl rfl) (by simp) rfl
  · rw [hcmd, bind_eq_bind, bind_some, hblock, bind_some]
    split
    · exact Listens.handles (hl.like rfl rfl rfl rfl rfl rfl) (by simp [storeBlock]) rfl
    · exact Listens.handles (hl.like rfl rfl rfl rfl rfl rfl) (by simp) rfl

include hl hrx in
/-- Every frame that does not begin an authentication has a handler that ends. -/
theorem dispatch_handles (nt : Nonce) (hp : l.InProgress)
    (hauth : findCmd rx ≠ some 2 ∧ findCmd rx ≠ some 3) : Handles c (l.dispatch rx nt) := by
  rw [dispatch]
  split
  case isTrue hc =>
    obtain ⟨h, hh, haw⟩ := hp hc
    rw [hh, bind_some]
    cases h with
    | writeBlockSecondPart => exact writeBlockSecondPart_handles hl
    | valueDataReceive => exact valueDataReceive_handles hl
    | valueTransfer => exact valueTransfer_handles hl hrx
    | authSecondPart => cases haw.1.symm.trans hl.state
    | halt | authKeyA | authKeyB | readBlock | writeBlockFirstPart | valueCmd => exact haw.elim
  case isFalse =>
    cases hfind : findCmd rx with
    | none => exact hl.handles (by simp) rfl
    | some i =>
      have hfirst : ∀ i < 9, i ≠ 2 → i ≠ 3 → handlerAt i 0 = some .halt ∨
          handlerAt i 0 = some .readBlock ∨ handlerAt i 0 = some .writeBlockFirstPart ∨
          handlerAt i 0 = some .valueCmd := by decide
      have hlt : i < 9 := (List.findIdx?_eq_some_iff_getElem.mp hfind).1
      have hl' : ({ l with currentCmdIdx := i, currentCmdHandlerIdx := 0 } : Listener).Listens c :=
        hl.like rfl rfl rfl rfl rfl rfl
      dsimp only
      rcases hfirst i hlt (fun heq => hauth.1 (heq ▸ hfind)) (fun heq => hauth.2 (heq ▸ hfind)) with
        hh | hh | hh | hh
      · rw [hh, bind_some]
        exact haltHandler_handles hl' hrx
      · rw [hh, bind_some]
        exact readBlock_handles hl' hrx
      · rw [hh, bind_some]
        exact writeBlockFirstPart_handles hl' hrx
      · rw [hh, bind_some]
        exact valueCmd_handles hl' hrx

end Handlers

/-- What has been sent back in a session is one frame at most, encrypted in the state `c`, and the
listener is in the state behind it, unless it has ended the session. -/
structure Answers (c : Crypto1) (r : Handled) (c' : Crypto1) : Prop where
  sent : r.sent = [] ∧ c' = c ∨ ∃ t, r.sent = [t] ∧ Encrypts c t ∧ c' = t.behind
  buffers : r.listener.Buffers
  ends : r.command = .nack ∨ r.command = .sleep → r.listener.Closed
  goesOn : ¬ (r.command = .nack ∨ r.command = .sleep) → r.listener.Listens c'

theorem Handles.respond (h : Handles c o) :
    ∃ r c', o.bind Listener.respond = some r ∧ Answers c r c' := by
  obtain ⟨r, rfl, ⟨hcommand, t, hsent, hencrypts, hl⟩ | ⟨hcommand, hsent, hl⟩⟩ := h
  · refine ⟨r, t.behind, ?_, .inr ⟨t, hsent, hencrypts, rfl⟩, hl.buffers, ?_, fun _ => hl⟩
    · rw [bind_some, Listener.respond, hcommand]
    · rw [hcommand]
      simp
  · cases hcmd : r.command with
    | processed => exact absurd hcmd hcommand
    | silent =>
      refine ⟨r, c, ?_, .inl ⟨hsent, rfl⟩, hl.buffers, ?_, fun _ => hl⟩
      · rw [bind_some, Listener.respond, hcmd]
      · rw [hcmd]
        simp
    | sleep =>
      refine ⟨{ r with listener := r.listener.resetState }, c, ?_, .inl ⟨hsent, rfl⟩,
        ⟨hl.buffers.txPlain, hl.buffers.txEncrypted, hl.buffers.parity, hl.buffers.rxPlain⟩,
        fun _ => closed_resetState _, fun hgoes => absurd (.inr hcmd) hgoes⟩
      rw [bind_some, Listener.respond, hcmd]
    | ack =>
      obtain ⟨l', t, hsend, hencrypts, hl'⟩ := sendShortFrame_encrypts hl 0x0A
      refine ⟨{ r with listener := l', sent := r.sent ++ [t] }, t.behind, ?_,
        .inr ⟨t, by rw [hsent, nil_append], hencrypts, rfl⟩, hl'.buffers, ?_, fun _ => hl'⟩
      · rw [bind_some, Listener.respond, hcmd]
        dsimp only
        rw [hsend, map_some]
      · dsimp only
        rw [hcmd]
        simp
    | nack =>
      obtain ⟨l', t, hsend, hencrypts, hl'⟩ := sendShortFrame_encrypts hl
        (if r.listener.transferValid then 0x00 else 0x04)
      refine ⟨{ r with listener := l'.resetState, sent := r.sent ++ [t] }, t.behind, ?_,
        .inr ⟨t, by rw [hsent, nil_append], hencrypts, rfl⟩, ⟨hl'.buffers.txPlain,
        hl'.buffers.txEncrypted, hl'.buffers.parity, hl'.buffers.rxPlain⟩,
        fun _ => closed_resetState _, fun hgoes => absurd (.inl hcmd) hgoes⟩
      rw [bind_some, Listener.respond, hcmd]
      dsimp only
      rw [hsend, map_some]

end Listener

end NikitaFirmware.MfClassic
