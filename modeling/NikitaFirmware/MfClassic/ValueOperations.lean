import NikitaFirmware.MfClassic.LockStep
import NikitaFirmware.MfClassic.ValueHandlers

/-!
# Value operations end to end

A reader that changes a value against an emulated card: it authenticates, sends the three frames of
the operation, reads the block back and halts the card. The value in the block changes by the
operand modulo 2³², with success, as the listener adds without looking for an overflow. So the
operation does what is asked of it exactly where the new value fits into an `int32_t`.
-/

namespace NikitaFirmware.MfClassic
open Nfc Foundations List Option

theorem shortByte_ack (c : Crypto1) : (c.shortByte (c.shortByte 0x0A 4).1 4).1 = 0x0A := by
  rw [← Crypto1.byteOfBits_take_shortByte, (Crypto1.shortByte_shortByte c 0x0A).2]
  decide

namespace Poller

variable {p : Poller} {c : Crypto1} {frame : BitBuffer} {bs : List Byte}

theorem receiveAnswer_eq (hbuf : p.Buffers) (hfit : frame.sizeBytes ≤ frame.capacityBytes)
    (hle : frame.sizeBytes ≤ 64) :
    ∃ q, p.receiveAnswer (some frame) = some (none, q) ∧ q.Buffers ∧ q.crypto = p.crypto ∧
      q.rxEncrypted.sizeBits = frame.sizeBits ∧ q.rxEncrypted.bytes = frame.bytes := by
  obtain ⟨rx, hrx, hbits, hbytes, hcap⟩ := exists_copy p.rxEncrypted hfit
    (by rw [hbuf.rxEncrypted]; exact hle)
  refine ⟨{ p with rxEncrypted := rx }, ?_, ⟨hbuf.txPlain, hbuf.txEncrypted, hbuf.parity,
    hbuf.rxPlain, hcap.trans hbuf.rxEncrypted⟩, rfl, hbits, hbytes⟩
  rw [receiveAnswer, hrx, map_some]

theorem readAck_eq (hbuf : p.Buffers) (hcrypto : p.crypto = c)
    (h4 : p.rxEncrypted.sizeBits = 4) (hbytes : p.rxEncrypted.bytes = [(c.shortByte 0x0A 4).1]) :
    ∃ q, p.readAck = some (none, q) ∧ q.Buffers ∧ q.crypto = (c.shortByte 0x0A 4).2 := by
  have hcap : 1 ≤ p.rxPlain.capacityBytes := by
    rw [hbuf.rxPlain]
    decide
  have hdecrypt := Crypto1.decrypt_short p.crypto h4 hcap
  rw [hcrypto, BitBuffer.headD_data h4 hbytes, shortByte_ack,
    (Crypto1.shortByte_shortByte c 0x0A).1] at hdecrypt
  have hbyte : (p.rxPlain.short 0x0A).getByte 0 = some 0x0A := by
    have hdata : (p.rxPlain.data.set 0 0x0A)[0]? = some 0x0A := by
      rw [List.getElem?_set_self (show 0 < p.rxPlain.data.length from hcap)]
    exact hdata
  refine ⟨{ p with crypto := (c.shortByte 0x0A 4).2, rxPlain := p.rxPlain.short 0x0A }, ?_,
    ⟨hbuf.txPlain, hbuf.txEncrypted, hbuf.parity, ?_, hbuf.rxEncrypted⟩, rfl⟩
  · rw [readAck, if_neg (not_not_intro h4), hcrypto, hdecrypt, bind_eq_bind, bind_some, hbyte]
    rfl
  · exact (length_set).trans hbuf.rxPlain

theorem readBlockAnswer_eq (hbuf : p.Buffers) (hcrypto : p.crypto = c) (content : Block)
    (hbits : p.rxEncrypted.sizeBits = 144)
    (hbytes : p.rxEncrypted.bytes = (c.cipher [] (withCrc content.bytes)).map Prod.fst) :
    ∃ q, p.readBlockAnswer = some (.ok content, q) ∧ q.Buffers ∧
      q.crypto = c.cipherEnd [] (withCrc content.bytes) := by
  have hlen : (withCrc content.bytes).length = 18 := by
    rw [withCrc, length_append, content.length_bytes]
    rfl
  have hair : p.rxEncrypted.Holds 64 ((c.cipher [] (withCrc content.bytes)).map Prod.fst) := by
    refine ⟨BitBuffer.wholeBytes_of_sizeBits (n := 18) hbits ?_, hbuf.rxEncrypted, hbytes⟩
    rw [hbuf.rxEncrypted]
    decide
  obtain ⟨rx, hdecrypt, hholds⟩ := Crypto1.decrypt_cipher c p.rxPlain hair
    (by rw [hlen]; decide) (by rw [hlen, hbuf.rxPlain]; decide)
  have hcrc : crcCheck rx.bytes = true := by
    rw [hholds.bytes]
    refine crcCheck_append (ne_nil_of_length_pos ?_)
    rw [content.length_bytes]
    decide
  obtain ⟨rx', htrim, hholds', -⟩ := Holds.crcTrim hholds (by rw [hlen]; decide)
  have htake : (withCrc content.bytes).take ((withCrc content.bytes).length - 2) = content.bytes := by
    rw [hlen]
    exact take_left' content.length_bytes
  rw [htake] at hholds'
  have hcopy : zeroBlock.copyIn 0 rx'.bytes = content := by
    rw [hholds'.bytes, Block.copyIn_bytes]
  refine ⟨{ p with crypto := c.cipherEnd [] (withCrc content.bytes), rxPlain := rx' }, ?_,
    ⟨hbuf.txPlain, hbuf.txEncrypted, hbuf.parity, hholds'.capacity.trans hbuf.rxPlain,
      hbuf.rxEncrypted⟩, rfl⟩
  have hsize : p.rxEncrypted.sizeBytes = 18 := BitBuffer.sizeBytes_of_sizeBits hbits
  rw [readBlockAnswer, if_neg (not_not_intro hsize), hcrypto, hdecrypt, bind_eq_bind,
    bind_some, if_pos hcrc, htrim, bind_eq_bind, bind_some, hcopy]
  rfl

end Poller

namespace Link

variable {d : Data} {s : Link} {c : Crypto1} {bs : List Byte} {nt : Nonce} {kt : KeyType}
  {block : Byte} {cmd : ValueCommand} {v w : Word}

/-- Both sides are in a session, in the state `c` of their generators. -/
structure Tuned (s : Link) (c : Crypto1) : Prop where
  poller : s.poller.Buffers
  crypto : s.poller.crypto = c
  listener : s.listener.Listens c

/-- A command as it goes over the air. -/
def airOf (c : Crypto1) (bs : List Byte) : List Byte := (c.cipher [] (withCrc bs)).map Prod.fst

def behind (c : Crypto1) (bs : List Byte) : Crypto1 := c.cipherEnd [] (withCrc bs)

def behindAck (c : Crypto1) : Crypto1 := (c.shortByte 0x0A 4).2

theorem exchange_eq (bs : List Byte) (nt : Nonce) (hbuf : s.poller.Buffers)
    (hcrypto : s.poller.crypto = c) (hpos : bs ≠ []) (hle : bs.length ≤ 62) :
    ∃ (q : Poller) (frame : BitBuffer), frame.Holds 64 (airOf c bs) ∧ q.Buffers ∧ q.crypto = behind c bs ∧
      s.exchange bs nt = (s.listener.deliver frame nt).bind fun h =>
        (q.receiveAnswer h.answer).map fun r => (r.1, ⟨r.2, h.listener⟩) := by
  have hlen : (withCrc bs).length = bs.length + 2 := length_append
  have hbs : 0 < bs.length := length_pos_iff.mpr hpos
  obtain ⟨tx, htx, hholds, -⟩ := exists_copyBytes s.poller.txPlain bs (by rw [hbuf.txPlain]; omega)
  rw [hbuf.txPlain] at hholds
  obtain ⟨tx', htx', hholds'⟩ := exists_crcAppend hholds (by omega)
  rw [← withCrc] at hholds'
  obtain ⟨frame, hencrypt, hair, -, hpar⟩ := Crypto1.encrypt_holds c [] hholds'
    (by omega) (by rw [hbuf.txEncrypted]; omega) hbuf.parity
  rw [hbuf.txEncrypted] at hair
  refine ⟨{ s.poller with txPlain := tx', crypto := behind c bs, txEncrypted := frame }, frame,
    hair, ⟨hholds'.capacity, hair.capacity, hpar, hbuf.rxPlain, hbuf.rxEncrypted⟩, rfl, ?_⟩
  rw [exchange, htx, bind_eq_bind, bind_some, htx', bind_eq_bind,
    bind_some, Poller.sendEncryptedFrame, hcrypto, hencrypt, map_some,
    bind_eq_bind, bind_some]
  dsimp only
  rw [bind_eq_bind]
  congr 1
  funext h
  rw [map_eq_bind]
  rfl

theorem exchange_undisturbed (bs : List Byte) (nt : Nonce) (ht : s.Tuned c) (hpos : bs ≠ [])
    (hle : bs.length ≤ 62) (hu : crcCheck (airOf c bs) = false) :
    ∃ (q : Poller) (rx : BitBuffer), rx.Holds 64 bs ∧ q.Buffers ∧ q.crypto = behind c bs ∧
      (s.listener.hears (behind c bs) rx).Listens (behind c bs) ∧
      s.exchange bs nt =
        (((s.listener.hears (behind c bs) rx).dispatch rx nt).bind Listener.respond).bind fun h =>
          (q.receiveAnswer h.answer).map fun r => (r.1, ⟨r.2, h.listener⟩) := by
  obtain ⟨q, frame, hair, hbuf, hcrypto, hexchange⟩ := exchange_eq bs nt ht.poller ht.crypto
    hpos hle
  obtain ⟨rx, hrx, hdeliver⟩ := Listener.deliver_session nt ht.listener hair hu hpos hle
  exact ⟨q, rx, hrx, hbuf, hcrypto, ht.listener.hears _ hrx.capacity,
    hexchange.trans (by rw [hdeliver]; rfl)⟩

theorem acknowledged_eq {P : Listener → Prop} (bs : List Byte) (nt : Nonce) (ht : s.Tuned c)
    (hpos : bs ≠ []) (hle : bs.length ≤ 62) (hu : crcCheck (airOf c bs) = false)
    (hP : ∀ l tx c' frame, P l → P (Listener.sends l tx c' frame))
    (hack : ∀ rx : BitBuffer, rx.Holds 64 bs →
      (s.listener.hears (behind c bs) rx).Listens (behind c bs) →
      ∃ h, (s.listener.hears (behind c bs) rx).dispatch rx nt = some h ∧ h.command = .ack ∧
        h.sent = [] ∧ h.listener.Listens (behind c bs) ∧ P h.listener) :
    ∃ t, s.acknowledged bs nt = some (none, t) ∧ t.Tuned (behindAck (behind c bs)) ∧
      P t.listener := by
  obtain ⟨q, rx, hrx, hbuf, hcrypto, hlistens, hexchange⟩ := exchange_undisturbed bs nt ht
    hpos hle hu
  obtain ⟨h, hdispatch, hcmd, hsent, hl, hp⟩ := hack rx hrx hlistens
  obtain ⟨tx, frame, hshort, h4, hbytes, hfit, hl'⟩ := Listener.sendShortFrame_eq hl 0x0A
  have hrespond : Listener.respond h = some { h with
      listener := h.listener.sends tx (behindAck (behind c bs)) frame
      sent := [⟨tx, frame, none, behindAck (behind c bs)⟩] } := by
    rw [Listener.respond, hcmd]
    dsimp only
    rw [hshort, hsent]
    rfl
  have hsize : frame.sizeBytes = 1 := BitBuffer.sizeBytes_short h4
  obtain ⟨p, hreceive, hbufp, hcryptop, hbits, hrxbytes⟩ := Poller.receiveAnswer_eq hbuf hfit
    (by omega)
  obtain ⟨r, hread, hbufr, hcryptor⟩ := Poller.readAck_eq hbufp (hcryptop.trans hcrypto)
    (hbits.trans h4) (hrxbytes.trans hbytes)
  refine ⟨⟨r, h.listener.sends tx (behindAck (behind c bs)) frame⟩, ?_, ⟨hbufr, hcryptor, hl'⟩,
    hP _ _ _ _ hp⟩
  have hanswer : s.exchange bs nt =
      some (none, ⟨p, h.listener.sends tx (behindAck (behind c bs)) frame⟩) := by
    rw [hexchange, hdispatch, bind_some, hrespond, bind_some]
    change (q.receiveAnswer (some frame)).map _ = _
    rw [hreceive]
    rfl
  rw [acknowledged, hanswer, bind_eq_bind, bind_some]
  dsimp only
  rw [hread]
  rfl

theorem valueCmd_eq (ht : s.Tuned c) (hs : s.listener.Serves d kt block)
    (hprog : s.listener.cmdInProgress = false)
    (hcmd : Listener.valueAction cmd.byte = some (cmd, Listener.valueAccess cmd))
    (hlt : block.toNat < getTotalBlockNum d.type)
    (hallowed : isAllowedAccess d block kt (Listener.valueAccess cmd) = true)
    (hv : blockToValue (d.block block) = (true, v))
    (hu : crcCheck (airOf c [cmd.byte, block]) = false)
    (hu' : crcCheck (airOf (behindAck (behind c [cmd.byte, block])) (littleEndian w)) = false)
    (nt : Nonce) :
    ∃ t, s.valueCmd block cmd w nt = some (none, t) ∧
      t.Tuned (behind (behindAck (behind c [cmd.byte, block])) (littleEndian w)) ∧
      t.listener.Serves d kt block ∧ t.listener.Changed (v + Listener.operand cmd w) := by
  obtain ⟨t, hack, htuned, hserves, hloaded⟩ := acknowledged_eq
    (P := fun l => l.Serves d kt block ∧ l.Loaded cmd v) [cmd.byte, block] nt ht (cons_ne_nil _ _)
    (show 2 ≤ 62 by decide) hu (fun _ _ _ _ h => ⟨h.1.sends, h.2.sends⟩)
    fun rx hrx hl => Listener.dispatch_valueCmd nt hcmd hl
      ⟨hs.data, hs.total, hs.selects.keyType, hs.selects.block⟩ hprog hrx hlt hallowed hv
  obtain ⟨q, rx, hrx, hbuf, hcrypto, hl, hexchange⟩ := exchange_undisturbed
    (littleEndian w) nt htuned (cons_ne_nil _ _) (show 4 ≤ 62 by decide) hu'
  obtain ⟨h, hdispatch, hsilent, hsent, hl', hserves', hchanged⟩ := Listener.dispatch_valueData
    nt hl
    ⟨hserves.data, hserves.total, hserves.selects.keyType, hserves.selects.block⟩
    ⟨hloaded.progress, hloaded.handler, hloaded.next, hloaded.cmd, hloaded.value⟩ hrx
  refine ⟨⟨q, h.listener⟩, ?_, ⟨hbuf, hcrypto, hl'⟩, hserves', hchanged⟩
  have hrespond : Listener.respond h = some h := by
    rw [Listener.respond, hsilent]
  have hnone : h.answer = none := by
    rw [Handled.answer, hsent]
    rfl
  rw [hdispatch, bind_some, hrespond, bind_some, hnone] at hexchange
  rw [valueCmd, hack, bind_eq_bind, bind_some]
  dsimp only
  rw [hexchange]
  rfl

theorem valueTransfer_eq (ht : s.Tuned c) (hs : s.listener.Serves d kt block)
    (hv : s.listener.Changed v) (hdec : isAllowedAccess d block kt .dataDec = true)
    (hu : crcCheck (airOf c [0xB0, block]) = false) (nt : Nonce) :
    ∃ t, s.valueTransfer block nt = some (none, t) ∧ t.Tuned (behindAck (behind c [0xB0, block])) ∧
      t.listener.Serves (d.setBlock block (valueToBlock v block)) kt block ∧
      t.listener.cmdInProgress = false :=
  acknowledged_eq (P := fun l => l.Serves (d.setBlock block (valueToBlock v block)) kt block ∧
      l.cmdInProgress = false) [0xB0, block] nt ht (cons_ne_nil _ _) (show 2 ≤ 62 by decide) hu
    (fun _ _ _ _ h => ⟨h.1.sends, h.2⟩) fun _ hrx hl => Listener.dispatch_valueTransfer nt hl
      ⟨hs.data, hs.total, hs.selects.keyType, hs.selects.block⟩
      ⟨hv.progress, hv.handler, hv.value⟩ hrx hdec

theorem readBlock_eq (ht : s.Tuned c) (hs : s.listener.Serves d kt block)
    (hprog : s.listener.cmdInProgress = false) (htrailer : isSectorTrailer block = false)
    (hread : isAllowedAccess d block kt .dataRead = true)
    (hu : crcCheck (airOf c [0x30, block]) = false) (nt : Nonce) :
    ∃ t, s.readBlock block nt = some (.ok (d.block block), t) ∧
      t.Tuned (behind (behind c [0x30, block]) (d.block block).bytes) ∧
      t.listener.Serves d kt block ∧ t.listener.cmdInProgress = false := by
  obtain ⟨q, rx, hrx, hbuf, hcrypto, hl, hexchange⟩ := exchange_undisturbed
    [0x30, block] nt ht (cons_ne_nil _ _) (show 2 ≤ 62 by decide) hu
  obtain ⟨l, t, hdispatch, hair, hl', hserves, hprog'⟩ := Listener.dispatch_readBlock nt hl
    ⟨hs.data, hs.total, hs.selects.keyType, hs.selects.block⟩ hprog hrx htrailer hread
  have hlen : ((behind c [0x30, block]).cipher [] (withCrc (d.block block).bytes)).length = 18 := by
    rw [Crypto1.length_cipher, withCrc, length_append, (d.block block).length_bytes]
    rfl
  have hsize : t.frame.sizeBytes = 18 := by
    rw [hair.sizeBytes, length_map, hlen]
  obtain ⟨p, hreceive, hbufp, hcryptop, hbits, hbytes⟩ := Poller.receiveAnswer_eq hbuf
    hair.whole.le (by omega)
  have hframe : t.frame.sizeBits = 144 := by
    rw [hair.sizeBits, length_map, hlen]
  obtain ⟨r, hanswer, hbufr, hcryptor⟩ := Poller.readBlockAnswer_eq hbufp
    (hcryptop.trans hcrypto) (d.block block) (hbits.trans hframe) (hbytes.trans hair.bytes)
  refine ⟨⟨r, l⟩, ?_, ⟨hbufr, hcryptor, hl'⟩, hserves, hprog'⟩
  rw [hdispatch, bind_some] at hexchange
  change _ = ((q.receiveAnswer (some t.frame)).map _) at hexchange
  rw [hreceive] at hexchange
  rw [readBlock, hexchange, bind_eq_bind]
  change (p.readBlockAnswer >>= _) = _
  rw [hanswer]
  rfl

theorem halt_eq (ht : s.Tuned c) (hprog : s.listener.cmdInProgress = false) (nt : Nonce) :
    ∃ t, s.halt nt = some (none, t) ∧ t.listener.data = s.listener.data := by
  obtain ⟨q, frame, hair, hbuf, hcrypto, hexchange⟩ := exchange_eq [0x50, 0x00] nt ht.poller
    ht.crypto (cons_ne_nil _ _) (show 2 ≤ 62 by decide)
  have hdeliver : ∃ h, s.listener.deliver frame nt = some h ∧ h.answer = none ∧
      h.listener.data = s.listener.data := by
    cases hhalt : Listener.haltReceived (airOf c [0x50, 0x00]) with
    | true =>
      refine ⟨{ command := .sleep, listener := s.listener.resetState }, ?_, rfl, rfl⟩
      rw [Listener.deliver, hair.bytes, hhalt, if_pos rfl]
      rfl
    | false =>
      obtain ⟨c', rx, hrx, hdeliver⟩ := Listener.deliver_encrypted nt ht.listener hair hhalt
      obtain ⟨h, hdispatch, hsleep, hsent, hdata⟩ := Listener.dispatch_halt
        (l := s.listener.hears c' rx) nt hprog hrx
      refine ⟨{ h with listener := h.listener.resetState }, ?_, ?_, hdata⟩
      · rw [hdeliver, hdispatch, bind_some, Listener.respond, hsleep]
      · rw [Handled.answer, hsent]
        rfl
  obtain ⟨h, hdeliver, hnone, hdata⟩ := hdeliver
  refine ⟨⟨q, h.listener⟩, ?_, hdata⟩
  rw [hdeliver, bind_some, hnone] at hexchange
  rw [halt, hexchange]
  rfl

variable {nr : Nonce} {data : Word}

/-- No command of a session ends, as it goes over the air, in a checksum. A command comes with
whether the card acknowledges it. -/
def Undisturbed : Crypto1 → List (List Byte × Bool) → Prop
  | _, [] => True
  | c, (bs, ack) :: rest => crcCheck (airOf c bs) = false ∧
      Undisturbed (if ack then behindAck (behind c bs) else behind c bs) rest

instance decidableUndisturbed : ∀ c cmds, Decidable (Undisturbed c cmds)
  | _, [] => isTrue trivial
  | c, (bs, ack) :: rest =>
    let _ := decidableUndisturbed (if ack then behindAck (behind c bs) else behind c bs) rest
    inferInstanceAs (Decidable (_ ∧ _))

def changeCommands (block : Byte) (data : Word) : List (List Byte × Bool) :=
  [([(changeCommand data).1.byte, block], true), (littleEndian (changeCommand data).2, false),
    ([0xB0, block], true), ([0x30, block], false)]

/-- Neither the authentication nor a command is taken for a standard frame. -/
structure Undisrupted (s : Link) (block : Byte) (kt : KeyType) (nt nr : Nonce) (data : Word) :
    Prop where
  authentication : s.Unchecked (.authenticate ⟨false, kt, block, nt, nr⟩)
  commands : Undisturbed (s.opened ⟨false, kt, block, nt, nr⟩) (changeCommands block data)

theorem valueAction_changeCommand (data : Word) : Listener.valueAction (changeCommand data).1.byte =
      some ((changeCommand data).1, Listener.valueAccess (changeCommand data).1) := by
  rw [changeCommand]
  split
  · rfl
  · split <;> rfl

theorem syncChangeValue_eq (hr : s.Ready d) (hlt : block.toNat < getTotalBlockNum d.type)
    (hallowed : isAllowedAccess d block kt (Listener.valueAccess (changeCommand data).1) = true)
    (hv : blockToValue (d.block block) = (true, v)) (hu : s.Undisrupted block kt nt nr data) :
    ∃ t, s.syncChangeValue block kt nt nr data = some (.ok (v + data), t) ∧
      t.listener.data = d.setBlock block (valueToBlock (v + data) block) := by
  have htrailer := isSectorTrailer_of_allowed _ hallowed
  have hdec := dec_of_allowed _ hallowed
  have hread : isAllowedAccess (d.setBlock block (valueToBlock (v + data) block)) block kt
      .dataRead = true := by
    rw [isAllowedAccess_setBlock _ _ htrailer]
    exact read_of_dec htrailer hdec
  obtain ⟨hcmd, hoperand, htransfer, hreadback, -⟩ := hu.commands
  obtain ⟨t₀, hauth, hsession, -, hcrypto, hselects⟩ := authenticate_eq
    (a := ⟨false, kt, block, nt, nr⟩) hr (fun h => absurd h (by simp)) hlt hu.authentication
  have htuned : t₀.Tuned (s.opened ⟨false, kt, block, nt, nr⟩) :=
    ⟨hsession.poller, hcrypto, hcrypto ▸ hsession.listener.listens⟩
  have hserves : t₀.listener.Serves d kt block :=
    ⟨hsession.listener.data, hsession.listener.total, hselects⟩
  obtain ⟨t₁, hvalue, htuned₁, hserves₁, hchanged⟩ := valueCmd_eq htuned hserves
    hsession.listener.progress (valueAction_changeCommand data) hlt hallowed hv hcmd hoperand nt
  rw [operand_changeCommand] at hchanged
  obtain ⟨t₂, hwrite, htuned₂, hserves₂, hprog₂⟩ := valueTransfer_eq htuned₁ hserves₁ hchanged hdec
    htransfer nt
  obtain ⟨t₃, hblock, htuned₃, hserves₃, hprog₃⟩ := readBlock_eq htuned₂ hserves₂ hprog₂ htrailer
    hread hreadback nt
  obtain ⟨t, hhalt, hdata⟩ := halt_eq htuned₃ hprog₃ nt
  have hcontent : (d.setBlock block (valueToBlock (v + data) block)).block block =
      valueToBlock (v + data) block := Listener.block_setBlock ..
  rw [hcontent] at hblock
  refine ⟨t, ?_, hdata.trans hserves₃.data⟩
  have hnew : t₂.readNewValue block nt = some (.ok (v + data), t) := by
    rw [readNewValue, hblock, bind_eq_bind, bind_some]
    dsimp only
    rw [hhalt, bind_eq_bind, bind_some, proceed]
    dsimp only
    rw [blockToValue_valueToBlock, if_pos rfl]
  rw [syncChangeValue, changeValueHandler, hauth, bind_eq_bind, bind_some, proceed]
  dsimp only
  rw [hvalue, bind_some, proceed]
  dsimp only
  rw [hwrite, bind_some, proceed]
  exact hnew

/-- The new value is an `int32_t`. -/
def Fits (v data : Word) : Prop :=
  -2147483648 ≤ v.toInt + data.toInt ∧ v.toInt + data.toInt ≤ 2147483647

instance decidableFits (v data : Word) : Decidable (Fits v data) :=
  inferInstanceAs (Decidable (_ ∧ _))

theorem toInt_add_iff (v data : Word) : (v + data).toInt = v.toInt + data.toInt ↔ Fits v data := by
  have hlt := (v + data).toInt_lt
  have hle := (v + data).le_toInt
  rw [Fits]
  constructor
  · intro h
    omega
  · intro h
    rw [BitVec.toInt_add, Int.bmod_def]
    omega

/-- What the change of a value is to do with the block: the new value is in it and is reported, or
where it does not fit the block stays and an error is reported. -/
structure ChangesValue (data : Word) (before after : Block) (r : Except Error Word) : Prop where
  accepted : (blockToValue after).1 = true
  fits : Fits (blockToValue before).2 data → r = .ok (blockToValue after).2 ∧
    (blockToValue after).2.toInt = (blockToValue before).2.toInt + data.toInt
  unchanged : ¬ Fits (blockToValue before).2 data → after = before ∧ ∃ e, r = .error e

/-- The change of a value does what it is to do exactly where the new value fits. -/
theorem changesValue_iff_fits (hr : s.Ready d) (hlt : block.toNat < getTotalBlockNum d.type)
    (hallowed : isAllowedAccess d block kt (Listener.valueAccess (changeCommand data).1) = true)
    (hv : (blockToValue (d.block block)).1 = true) (hu : s.Undisrupted block kt nt nr data) :
    (∃ r t, s.syncChangeValue block kt nt nr data = some (r, t) ∧
      ChangesValue data (d.block block) (t.listener.data.block block) r) ↔
      Fits (blockToValue (d.block block)).2 data := by
  obtain ⟨t, hrun, hdata⟩ := syncChangeValue_eq hr hlt hallowed
    (v := (blockToValue (d.block block)).2) (Prod.ext hv rfl) hu
  have hafter : blockToValue (t.listener.data.block block) =
      (true, (blockToValue (d.block block)).2 + data) := by
    rw [hdata, Listener.block_setBlock, blockToValue_valueToBlock]
  constructor
  · rintro ⟨r, t', hrun', hchanges⟩
    by_contra hfits
    obtain ⟨-, e, he⟩ := hchanges.unchanged hfits
    rw [hrun, some.injEq, Prod.mk.injEq] at hrun'
    exact absurd (hrun'.1.trans he) (by simp)
  · intro hfits
    refine ⟨_, t, hrun, ⟨by rw [hafter], fun _ => ?_, fun h => absurd hfits h⟩⟩
    rw [hafter]
    exact ⟨rfl, (toInt_add_iff _ _).mpr hfits⟩

/-- A purse from which something is taken. -/
theorem changesValue_iff_fits_purse :
    (∃ r t, (start purse).syncChangeValue 4 .a ⟨[0x11, 0x22, 0x33, 0x44], rfl⟩
        ⟨[0x0A, 0x0B, 0x0C, 0x0D], rfl⟩ (-5) = some (r, t) ∧
      ChangesValue (-5) (purse.block 4) (t.listener.data.block 4) r) ↔
      Fits (blockToValue (purse.block 4)).2 (-5) :=
  changesValue_iff_fits (ready_start purse) (by decide) (by decide) (by decide)
    ⟨by decide +kernel, by decide +kernel⟩

def fullPurse : Data := purse.setBlock 4 (valueToBlock 0x7FFFFFFF 4)

/-- One more goes into the full purse, and the value in it is the smallest. -/
theorem fullPurse_not_changesValue :
    ¬ ∀ (d : Data) (block : Byte) (kt : KeyType) (nt nr : Nonce) (data : Word),
      block.toNat < getTotalBlockNum d.type →
      isAllowedAccess d block kt (Listener.valueAccess (changeCommand data).1) = true →
      (blockToValue (d.block block)).1 = true →
      ∃ r t, (start d).syncChangeValue block kt nt nr data = some (r, t) ∧
        ChangesValue data (d.block block) (t.listener.data.block block) r := by
  intro h
  obtain ⟨r, t, hrun, hchanges⟩ := h fullPurse 4 .a ⟨[0x11, 0x22, 0x33, 0x44], rfl⟩
    ⟨[0x0A, 0x0B, 0x0C, 0x0D], rfl⟩ 1 (by decide) (by decide) (by decide)
  obtain ⟨-, e, he⟩ := hchanges.unchanged (by decide)
  have hok : (((start fullPurse).syncChangeValue 4 .a ⟨[0x11, 0x22, 0x33, 0x44], rfl⟩
      ⟨[0x0A, 0x0B, 0x0C, 0x0D], rfl⟩ 1).map fun r => r.1.isOk) = some true := by
    decide +kernel
  rw [hrun, he] at hok
  exact absurd hok (by simp [Except.isOk, Except.toBool])

end Link

end NikitaFirmware.MfClassic
