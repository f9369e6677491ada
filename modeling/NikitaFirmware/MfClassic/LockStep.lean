import NikitaFirmware.Foundations.Machine
import NikitaFirmware.MfClassic.SessionHandlers

/-!
# A reader and an emulated card in lock step

In a session that begins with an authentication both generators are in the same state behind each
authentication and each frame, and what one side encrypts the other side decrypts, until the card
ends the session: with a command that it refuses, or a halt. This holds as long as no frame without
a checksum happens to end in one: the lower layers take such a frame for a standard frame, and cut
the checksum off.
-/

namespace NikitaFirmware.MfClassic
open Nfc Foundations Option List

/-- What happens on a link. A command comes with a nonce for the listener to draw. -/
inductive Exchange
  | authenticate (a : Authentication)
  | command (plain : BitBuffer) (nt : Nonce)

/-- The listener takes the frame for the command of an authentication. -/
def startsAuth (plain : BitBuffer) : Bool :=
  (plain.bytes.head? == some 0x60 || plain.bytes.head? == some 0x61) &&
    (plain.sizeBits == 16 || plain.sizeBits == 32 && crcCheck plain.bytes)

/-- An authentication is for a block of the card. A command has a size that the buffers have room
for, and is not one that only an authentication sends. -/
def Exchange.For (d : Data) : Exchange → Prop
  | .authenticate a => a.block.toNat < getTotalBlockNum d.type
  | .command plain _ => plain.IsFrame ∧ plain.sizeBytes ≤ 64 ∧ startsAuth plain = false

/-- The plain bits of a frame have arrived, its parity bits are correct under the keystream of the
state `c`, and both sides are in the same state behind it. -/
structure Transfer.Arrives (t : Transfer) (c : Crypto1) : Prop where
  size : t.received.sizeBits = t.plain.sizeBits
  bits : t.received.bits = t.plain.bits
  parity : t.frame.sizeBits % 8 = 0 → c.parityValid t.frame.air = true
  state : t.receiver = t.sender

instance Exchange.decidableFor (d : Data) : ∀ e : Exchange, Decidable (e.For d)
  | .authenticate _ => inferInstanceAs (Decidable (_ < _))
  | .command _ _ => inferInstanceAs (Decidable (_ ∧ _))

namespace Link

def start (d : Data) : Link := ⟨Poller.alloc d.uid, Listener.alloc d⟩

def step (s : Link) : Exchange → Option Link
  | .authenticate a => (s.authenticate a).map Prod.snd
  | .command plain nt => (s.command plain nt).map Turn.link

def machine : Machine Link Exchange := ⟨step⟩

/-- Both sides are in a session, in the same state of the generator. -/
structure Synced (s : Link) : Prop where
  state : s.listener.state = .authComplete
  commState : s.listener.commState = .encrypted
  crypto : s.poller.crypto = s.listener.crypto

/-- What one side sends the other side gets, and both are in the same state behind it. Behind an
authentication the poller has got the answer of the card. A card that refuses a command, or is
halted, has closed the session when its answer has arrived. -/
def InStep (s : Link) : Exchange → Prop
  | .authenticate a => ∃ t : Link, s.authenticate a = some (none, t) ∧ t.Synced ∧
      t.poller.rxEncrypted.bytes = t.listener.txEncrypted.bytes
  | .command plain nt => ∃ (t : Turn) (x : Transfer), s.command plain nt = some t ∧
      t.heard = some x ∧ x.plain = plain ∧ x.Arrives s.listener.crypto ∧
      (∀ y, t.answer = some y → y.Arrives x.sender) ∧
      if t.command = .nack ∨ t.command = .sleep then t.link.listener.Closed else t.link.Synced

/-- The card has not closed the session, and a nested authentication does not come in the middle of
another command. -/
def Proceeds (s : Link) : Exchange → Prop
  | .authenticate a => a.isNested = true →
      s.listener.state = .authComplete ∧ s.listener.cmdInProgress = false
  | .command _ _ => s.listener.state = .authComplete

/-- What goes over the air without a checksum does not end in one: a plain nonce, the answer to a
nonce and the encrypted commands. That of a nested authentication may, unless it looks like a
halt. -/
def Unchecked (s : Link) : Exchange → Prop
  | .authenticate a =>
    (if a.isNested then
      Listener.haltReceived
        ((s.poller.crypto.cipher [] (Poller.authFrame a.keyType a.block)).map Prod.fst)
      else crcCheck a.nt.bytes) = false ∧
      crcCheck (Handshake.readerFrame (s.key a) s.poller.getCuid a.nt.bytes a.nr.bytes) = false
  | .command plain _ => crcCheck ((s.poller.crypto.cipher [] plain.bytes).map Prod.fst) = false

variable {d : Data} {s : Link} {a : Authentication} {frame plain : BitBuffer} {n : Nat}

/-- A link that an authentication can begin on. -/
structure Ready (d : Data) (s : Link) : Prop where
  uid : s.poller.uid = d.uid
  poller : s.poller.Buffers
  data : s.listener.data = d
  total : s.listener.totalBlockNum = getTotalBlockNum d.type
  listener : s.listener.Buffers

structure Session (d : Data) (s : Link) : Prop where
  uid : s.poller.uid = d.uid
  poller : s.poller.Buffers
  listener : Listener.Open (Listener.alloc d) s.listener s.poller.crypto

theorem Session.synced (h : s.Session d) : s.Synced :=
  ⟨h.listener.state, h.listener.commState, h.listener.crypto.symm⟩

theorem deliver_request (hr : s.Ready d) (hn : a.isNested = true → s.Session d)
    (hlt : a.block.toNat < getTotalBlockNum d.type)
    (hf : frame.Holds n (s.poller.requestBytes a.keyType a.block a.isNested))
    (hu : s.Unchecked (.authenticate a)) :
    ∃ l h t, (s.activated a.isNested).deliver frame a.nt = some h ∧ h.sent = [t] ∧
      t.frame.Holds 64 (if a.isNested then Handshake.encryptedNonce (s.key a) d.getCuid a.nt.bytes
        else a.nt.bytes) ∧
      Listener.Waiting l h.listener (s.key a) a.nt ∧ l.data = d ∧
      l.totalBlockNum = getTotalBlockNum d.type ∧ h.listener.Selects a.keyType a.block := by
  have hu := hu.1
  cases hnested : a.isNested with
  | false =>
    rw [hnested] at hf
    obtain ⟨buff, m, hb, hdeliver⟩ := Listener.deliver_auth_plain a.nt hf
      (show s.listener.resetState.state = .idle from rfl)
    obtain ⟨h, t, hrun, hsent, hframe, hw, hselects⟩ := Listener.dispatch_auth a.nt
      (l := s.listener.resetState) hb rfl (hr.total ▸ hlt)
      ⟨hr.listener.txPlain, hr.listener.txEncrypted, hr.listener.parity, hr.listener.rxPlain⟩
    exact ⟨_, h, t, hdeliver.trans hrun, hsent, hframe, hw, hr.data, hr.total, hselects⟩
  | true =>
    have hs := hn hnested
    rw [hnested] at hf
    rw [hnested, if_pos rfl] at hu
    obtain ⟨l, rx, hrx, hdeliver, hopen⟩ := Listener.deliver_auth_encrypted a.nt hs.listener hf hu
    obtain ⟨h, t, hrun, hsent, hframe, hw, hselects⟩ := Listener.dispatch_auth a.nt hrx
      hopen.progress (by rw [hopen.total]; exact hlt) hopen.buffers
    have hkey : Listener.key l.data a.keyType a.block = s.key a := by
      rw [key, hopen.data, hs.listener.data]
    have hair : l.nonceOnAir (s.key a) a.nt =
        Handshake.encryptedNonce (s.key a) d.getCuid a.nt.bytes := by
      rw [Listener.nonceOnAir, hopen.commState, hopen.data]
      rfl
    rw [hkey, hair] at hframe
    rw [hkey] at hw
    exact ⟨l, h, t, hdeliver.trans hrun, hsent, hframe, hw, hopen.data, hopen.total, hselects⟩

/-- The state of both generators behind an authentication. -/
def opened (s : Link) (a : Authentication) : Crypto1 :=
  (Handshake.behindAnswer (s.key a) s.listener.data.getCuid a.nt.bytes a.nr.bytes).cipherEnd []
    (Listener.cardPlain a.nt)

/-- An authentication runs through on both sides and leaves their ciphers in step. -/
theorem authenticate_eq (hr : s.Ready d) (hn : a.isNested = true → s.Session d)
    (hlt : a.block.toNat < getTotalBlockNum d.type) (hu : s.Unchecked (.authenticate a)) :
    ∃ t : Link, s.authenticate a = some (none, t) ∧ t.Session d ∧
      t.poller.rxEncrypted.bytes = t.listener.txEncrypted.bytes ∧
      t.poller.crypto = s.opened a ∧ t.listener.Selects a.keyType a.block := by
  have hcuid : ∀ p : Poller, p.uid = s.poller.uid → p.getCuid = d.getCuid := by
    intro p hp
    rw [Poller.getCuid, Data.getCuid, hp, hr.uid]
  obtain ⟨p₁, frame₁, n, hrequest, hair₁, hbuf₁, huid₁, htx⟩ := Poller.requestNt_eq a.keyType
    a.block hr.poller a.isNested
  obtain ⟨l, h₁, t₁, hdeliver₁, hsent₁, hframe₁, hw, hdata, htotal, hselects⟩ :=
    deliver_request hr hn hlt hair₁ hu
  have hlen : (if a.isNested then Handshake.encryptedNonce (s.key a) d.getCuid a.nt.bytes
      else a.nt.bytes).length = 4 := by
    split
    · rw [Handshake.encryptedNonce, length_map, Crypto1.length_cipher, a.nt.length_bytes]
    · exact a.nt.length_bytes
  obtain ⟨p₂, hnonce, hbuf₂, huid₂⟩ := Poller.receiveNt_eq hbuf₁ htx hframe₁ hlen a.isNested
    (by
      intro hfirst
      have hnt := hu.1
      rw [hfirst] at hnt ⊢
      exact hnt)
  obtain ⟨p₃, frame₃, hanswer, hair₃, hbuf₃, huid₃, hcrypto₃⟩ := Poller.answerNt_eq (s.key a)
    a.nt a.nr hbuf₂ a.isNested
  rw [hcuid p₂ (huid₂.trans huid₁)] at hanswer hair₃ hcrypto₃
  have hcrc : crcCheck frame₃.bytes = false := by
    rw [hair₃.bytes, ← hcuid s.poller rfl]
    exact hu.2
  obtain ⟨h₄, t₄, hrun, hsent₄, hframe₄, hair₄, hopen, hkept⟩ := Listener.dispatch_answer a.nt hw
    (hdata ▸ Listener.onAir_holds hair₃)
  rw [hdata] at hair₄ hopen
  have hcard : (((Handshake.behindAnswer (s.key a) d.getCuid a.nt.bytes a.nr.bytes).cipher []
      (Listener.cardPlain a.nt)).map Prod.fst).length = (Listener.cardPlain a.nt).length := by
    rw [length_map, Crypto1.length_cipher]
  obtain ⟨p₅, hat, hbuf₅, huid₅, hcrypto₅, hbytes₅⟩ := Poller.receiveAt_eq hbuf₃ hair₄ hcard
  rw [hcrypto₃, Crypto1.cipherEnd_congr hcard] at hcrypto₅
  refine ⟨⟨p₅, h₄.listener⟩, ?_, ⟨?_, hbuf₅, ?_⟩, ?_, by rw [opened, hr.data]; exact hcrypto₅,
    hkept _ _ hselects⟩
  · have hanswer₁ : h₁.answer = some t₁.frame := by
      rw [Handled.answer, hsent₁]
      rfl
    have hanswer₄ : h₄.answer = some t₄.frame := by
      rw [Handled.answer, hsent₄]
      rfl
    have hdeliver₄ : h₁.listener.deliver frame₃ a.nt = some h₄ := by
      rw [Listener.deliver_unchecked _ _ hcrc,
        Listener.run_received (Listener.receive_idle hw.state), hrun]
    simp only [authenticate, hrequest, hdeliver₁, hanswer₁, hnonce, hanswer, hdeliver₄, hanswer₄,
      hat, bind_eq_bind, bind_some]
    rfl
  · exact huid₅.trans (huid₃.trans (huid₂.trans (huid₁.trans hr.uid)))
  · change Listener.Open _ h₄.listener p₅.crypto
    rw [hcrypto₅]
    exact ⟨hopen.data.trans hdata, hopen.total.trans htotal, hopen.state, hopen.commState,
      hopen.crypto, hopen.progress, hopen.buffers⟩
  · change p₅.rxEncrypted.bytes = h₄.listener.txEncrypted.bytes
    rw [hbytes₅, ← hframe₄, hair₄.bytes]

theorem crcCheck_short (h4 : frame.sizeBits = 4) : crcCheck frame.bytes = false := by
  by_contra hcrc
  have hlen := length_of_crcCheck (Bool.eq_true_of_not_eq_false hcrc)
  rw [BitBuffer.bytes, BitBuffer.sizeBytes_short h4, length_take] at hlen
  omega

/-- A link behind any number of exchanges: in lock step, unless the card has closed the session. -/
structure Linked (d : Data) (s : Link) : Prop where
  uid : s.poller.uid = d.uid
  poller : s.poller.Buffers
  listener : s.listener.Buffers
  identity : s.listener.data.identity = d.identity
  total : s.listener.totalBlockNum = getTotalBlockNum s.listener.data.type
  authenticated : s.listener.Authenticated
  progress : s.listener.InProgress
  synced : s.listener.state = .authComplete → s.Synced

theorem Linked.ready (h : s.Linked d) : s.Ready s.listener.data :=
  ⟨h.uid.trans (congrArg Prod.fst h.identity).symm, h.poller, rfl, h.total, h.listener⟩

theorem Linked.session (h : s.Linked d) (hstate : s.listener.state = .authComplete)
    (hprogress : s.listener.cmdInProgress = false) : s.Session s.listener.data where
  uid := h.ready.uid
  poller := h.poller
  listener := ⟨rfl, h.total, hstate, (h.synced hstate).commState, (h.synced hstate).crypto.symm,
    hprogress, h.listener⟩

theorem Linked.authenticate (h : s.Linked d) (hlt : a.block.toNat < getTotalBlockNum d.type)
    (hp : s.Proceeds (.authenticate a)) (hu : s.Unchecked (.authenticate a)) :
    s.InStep (.authenticate a) ∧ ∀ t, machine.step s (.authenticate a) = some t → t.Linked d := by
  have htype : s.listener.data.type = d.type := congrArg Prod.snd h.identity
  obtain ⟨t, ht, hsession, hat, -, hselects⟩ := authenticate_eq h.ready
    (fun hn => h.session (hp hn).1 (hp hn).2) (htype ▸ hlt) hu
  refine ⟨⟨t, ht, hsession.synced, hat⟩, fun t' ht' => ?_⟩
  obtain rfl := some.inj ((congrArg (Option.map Prod.snd) ht).symm.trans ht')
  have hdata : t.listener.data = s.listener.data := hsession.listener.data
  refine ⟨hsession.uid.trans (congrArg Prod.fst h.identity), hsession.poller,
    hsession.listener.buffers, by rw [hdata, h.identity], hsession.listener.total.trans ?_,
    fun _ => ?_, Listener.inProgress_of_not hsession.listener.progress, fun _ => hsession.synced⟩
  · rw [hdata]
    rfl
  · rw [hselects.block, hsession.listener.total]
    exact hlt.trans_eq (congrArg getTotalBlockNum htype.symm)

theorem startsAuth_of_findCmd {e rx : BitBuffer} (he : e.IsFrame)
    (hrx : Listener.trimChecked e = some rx)
    (hfind : Listener.findCmd rx = some 2 ∨ Listener.findCmd rx = some 3) :
    startsAuth e = true ∧ e.sizeBits ≠ 4 := by
  have hcmd : rx.sizeBits = 16 ∧ (rx.data.head? = some 0x60 ∨ rx.data.head? = some 0x61) := by
    rcases hfind with h | h
    · obtain ⟨_, hcmd, -⟩ := findIdx?_eq_some_iff_getElem.mp h
      simp only [Bool.and_eq_true, beq_iff_eq] at hcmd
      exact ⟨hcmd.1, .inl hcmd.2⟩
    · obtain ⟨_, hcmd, -⟩ := findIdx?_eq_some_iff_getElem.mp h
      simp only [Bool.and_eq_true, beq_iff_eq] at hcmd
      exact ⟨hcmd.1, .inr hcmd.2⟩
  have hsize := he.2
  have hbytes : e.sizeBytes ≠ 0 → e.bytes.head? = e.data.head? := by
    intro hne
    rw [BitBuffer.bytes, head?_take, if_neg hne]
  rw [Listener.trimChecked] at hrx
  split at hrx
  case isTrue hcrc =>
    rw [crcTrim] at hrx
    split at hrx
    · cases hrx
    rw [BitBuffer.setSizeBytes] at hrx
    split at hrx
    · cases hrx
    obtain rfl := some.inj hrx
    change (e.sizeBytes - 2) * 8 = 16 ∧ _ at hcmd
    have hfour : e.sizeBytes = 4 := by omega
    have hbits : e.sizeBits = 32 := by
      rw [BitBuffer.sizeBytes] at hfour
      split at hfour <;> omega
    rw [startsAuth, hbytes (by omega), hbits, hcrc]
    exact ⟨by rcases hcmd.2 with h | h <;> simp [h], by decide⟩
  case isFalse =>
    obtain rfl := some.inj hrx
    have hne : e.sizeBytes ≠ 0 := by
      rw [BitBuffer.sizeBytes]
      split <;> omega
    rw [startsAuth, hbytes hne, hcmd.1]
    exact ⟨by rcases hcmd.2 with h | h <;> simp [h], by decide⟩

theorem receiveEncryptedFrame_eq {p : Poller} {t : Sent} {c : Crypto1} (hbuf : p.Buffers)
    (hp : p.crypto = c) (ht : Listener.Encrypts c t) : ∃ q rx,
      p.receiveEncryptedFrame t.frame = some (q, rx) ∧ q.Buffers ∧ q.uid = p.uid ∧
      Transfer.Arrives ⟨t.plain, t.behind, t.frame, rx, q.crypto⟩ c ∧ q.crypto = t.behind := by
  obtain ⟨rx, hrx, hrxbits, hrxbytes, hrxcap⟩ := exists_copy p.rxEncrypted ht.frame.1
    (by rw [hbuf.rxEncrypted]; exact ht.size)
  obtain ⟨e, hdec, hsize, hbits, -, -, hecap⟩ := ht.opens.decrypt rx p.rxPlain hrxbits hrxbytes
    (by rw [hbuf.rxPlain]; exact ht.size)
  refine ⟨{ p with crypto := t.behind, rxEncrypted := rx, rxPlain := e }, e, ?_,
    ⟨hbuf.txPlain, hbuf.txEncrypted, hbuf.parity, hecap.trans hbuf.rxPlain,
      hrxcap.trans hbuf.rxEncrypted⟩, rfl, ⟨hsize, hbits, ht.opens.parity, rfl⟩, rfl⟩
  rw [Poller.receiveEncryptedFrame, hrx, bind_eq_bind, bind_some, hp, hdec]
  rfl

/-- The listener gets what the poller has encrypted, and handles it. -/
theorem command_heard (h : s.Linked d) (hstate : s.listener.state = .authComplete)
    (hf : plain.IsFrame) (hle : plain.sizeBytes ≤ 64) (hauth : startsAuth plain = false)
    (nt : Nonce) (hu : s.Unchecked (.command plain nt)) : ∃ (p : Poller) (frame e : BitBuffer)
      (r : Handled) (c' : Crypto1), s.poller.sendEncryptedFrame plain = some (p, frame) ∧
      p.Buffers ∧ p.uid = s.poller.uid ∧ s.listener.hear frame = some (p.crypto, e) ∧
      Transfer.Arrives ⟨plain, p.crypto, frame, e, p.crypto⟩ s.listener.crypto ∧
      s.listener.deliver frame nt = some r ∧ Listener.Answers p.crypto r c' ∧
      Listener.Outcome s.listener r := by
  obtain ⟨-, hcomm, hcrypto⟩ := h.synced hstate
  obtain ⟨c, frame, henc, hopens, hframe, hcap, hpar⟩ := Crypto1.exists_encrypt s.poller.crypto
    s.poller.txEncrypted hf (by rw [h.poller.txEncrypted]; exact hle) h.poller.parity
  have hcrc : crcCheck frame.bytes = false := by
    by_cases h4 : frame.sizeBits = 4
    · exact crcCheck_short h4
    · rw [hopens.bytes h4]
      exact hu
  have hsize : frame.sizeBytes = plain.sizeBytes := by
    rw [BitBuffer.sizeBytes, BitBuffer.sizeBytes, hopens.size]
  obtain ⟨e, hdec, hbits, hplain, hbytes, heframe, hecap⟩ := hopens.decrypt (Listener.onAir frame)
    s.listener.rxPlain rfl (Listener.onAir_bytes frame)
    (by rw [hsize, h.listener.rxPlain]; exact hle)
  obtain ⟨rx, hrx, hrxcap⟩ := Listener.exists_trimChecked heframe
  have hrxcap : rx.capacityBytes = 64 := hrxcap.trans (hecap.trans h.listener.rxPlain)
  rw [hcrypto] at hdec hopens
  have hlistens : (s.listener.hears c rx).Listens c :=
    Listener.Listens.hears ⟨hstate, hcomm, rfl, h.listener⟩ c hrxcap
  have hother : ¬ (Listener.findCmd rx = some 2 ∨ Listener.findCmd rx = some 3) := by
    intro hfind
    obtain ⟨hstarts, hne⟩ := startsAuth_of_findCmd heframe hrx hfind
    rw [startsAuth, hbytes hne, hbits, ← startsAuth, hauth] at hstarts
    cases hstarts
  have hsame : Listener.Same s.listener (s.listener.hears c rx) :=
    ⟨rfl, rfl, rfl, rfl, rfl, rfl, rfl, rfl⟩
  obtain ⟨r, c', hrespond, hanswers⟩ := (Listener.dispatch_handles hlistens hrxcap nt
    (hsame.inProgress h.progress) (not_or.mp hother)).respond
  have hrun : s.listener.run (.received (Listener.onAir frame) nt) = some r := by
    rw [Listener.run_received (Listener.receive_session hstate hcomm hdec hrx)]
    exact hrespond
  refine ⟨{ s.poller with crypto := c, txEncrypted := frame }, frame, e, r, c', ?_, ⟨h.poller.txPlain,
    hcap.trans h.poller.txEncrypted, hpar, h.poller.rxPlain, h.poller.rxEncrypted⟩, rfl, ?_,
    ⟨hbits, hplain, hopens.parity, rfl⟩, (Listener.deliver_unchecked _ nt hcrc).trans hrun, hanswers,
    (Listener.run_outcome h.total h.authenticated h.progress hrun).1⟩
  · rw [Poller.sendEncryptedFrame, henc, map_some]
  · rw [Listener.hear, Listener.haltReceived_of_not hcrc, if_neg (by simp),
      Listener.trimChecked_of_not (by rw [Listener.onAir_bytes, hcrc]), bind_some, hdec]

/-- Behind a command that the card has handled, and an answer that has come back to the poller. -/
theorem Linked.behind {q : Poller} {r : Handled} {c c' : Crypto1} (h : s.Linked d)
    (ha : Listener.Answers c r c') (ho : Listener.Outcome s.listener r)
    (huid : q.uid = s.poller.uid) (hbuf : q.Buffers) (hcrypto : q.crypto = c') :
    Linked d ⟨q, r.listener⟩ ∧ if r.command = .nack ∨ r.command = .sleep then r.listener.Closed
      else Synced ⟨q, r.listener⟩ := by
  have hsynced : ¬ (r.command = .nack ∨ r.command = .sleep) → Synced ⟨q, r.listener⟩ := fun hgoes =>
    ⟨(ha.goesOn hgoes).state, (ha.goesOn hgoes).commState, hcrypto.trans (ha.goesOn hgoes).crypto.symm⟩
  refine ⟨⟨huid.trans h.uid, hbuf, ha.buffers, ho.identity.trans h.identity, ?_, fun hs => ?_,
    ho.progress, fun hs => hsynced fun hends => ?_⟩, ?_⟩
  · rw [ho.total, h.total, ho.type]
  · obtain ⟨hblock, -, hlt⟩ := ho.context hs
    rw [hblock, ho.total]
    exact hlt
  · exact absurd ((ha.ends hends).state.symm.trans hs) (by decide)
  · split
    case isTrue hends => exact ha.ends hends
    case isFalse hgoes => exact hsynced hgoes

theorem Linked.command (h : s.Linked d) (hfor : (Exchange.command plain nt).For d)
    (hp : s.Proceeds (.command plain nt)) (hu : s.Unchecked (.command plain nt)) :
    s.InStep (.command plain nt) ∧
      ∀ t, machine.step s (.command plain nt) = some t → t.Linked d := by
  obtain ⟨hf, hle, hauth⟩ := hfor
  obtain ⟨p, frame, e, r, c', hsend, hbuf, huid, hhear, harrives, hdeliver, hanswers, houtcome⟩ :=
    command_heard h hp hf hle hauth nt hu
  suffices hturn : ∃ t : Turn, s.command plain nt = some t ∧
      t.heard = some ⟨plain, p.crypto, frame, e, p.crypto⟩ ∧
      (∀ y, t.answer = some y → y.Arrives p.crypto) ∧ t.link.Linked d ∧
      if t.command = .nack ∨ t.command = .sleep then t.link.listener.Closed else t.link.Synced by
    obtain ⟨t, ht, hheard, hanswer, hlinked, hends⟩ := hturn
    refine ⟨⟨t, _, ht, hheard, rfl, harrives, hanswer, hends⟩, fun t' ht' => ?_⟩
    obtain rfl := some.inj ((congrArg (Option.map Turn.link) ht).symm.trans ht')
    exact hlinked
  rcases hanswers.sent with ⟨hsent, rfl⟩ | ⟨t, hsent, hencrypts, rfl⟩
  · obtain ⟨hlinked, hends⟩ := h.behind hanswers houtcome huid hbuf rfl
    refine ⟨⟨⟨p, r.listener⟩, some ⟨plain, p.crypto, frame, e, p.crypto⟩, r.command, none⟩, ?_, rfl,
      fun y hy => absurd hy.symm (some_ne_none y), hlinked, hends⟩
    simp only [Link.command, hsend, hhear, hdeliver, hsent, bind_eq_bind, bind_some, map_some]
    rfl
  · obtain ⟨q, rx, hreceive, hbufq, huidq, hback, hcrypto⟩ := receiveEncryptedFrame_eq hbuf rfl hencrypts
    obtain ⟨hlinked, hends⟩ := h.behind hanswers houtcome (huidq.trans huid) hbufq hcrypto
    refine ⟨⟨⟨q, r.listener⟩, some ⟨plain, p.crypto, frame, e, p.crypto⟩, r.command,
      some ⟨t.plain, t.behind, t.frame, rx, q.crypto⟩⟩, ?_, rfl, fun y hy => some.inj hy ▸ hback,
      hlinked, hends⟩
    simp only [Link.command, hsend, hhear, hdeliver, hsent, bind_eq_bind, bind_some, map_some,
      head?_cons, hreceive]
    rfl

theorem ready_start (d : Data) : (start d).Ready d where
  uid := rfl
  poller := ⟨rfl, rfl, Nat.le_refl 64, rfl, rfl⟩
  data := rfl
  total := rfl
  listener := ⟨rfl, rfl, Nat.le_refl 64, rfl⟩

theorem linked_start (d : Data) : (start d).Linked d where
  uid := rfl
  poller := (ready_start d).poller
  listener := (ready_start d).listener
  identity := rfl
  total := rfl
  authenticated := fun hs => State.noConfusion hs
  progress := Listener.inProgress_of_not rfl
  synced := fun hs => State.noConfusion hs

/-- What may happen next in a session of a card. -/
structure Permitted (d : Data) (s : Link) (e : Exchange) : Prop where
  valid : e.For d
  proceeds : s.Proceeds e
  unchecked : s.Unchecked e

theorem Linked.exchange {e : Exchange} (h : s.Linked d) (hok : Permitted d s e) :
    s.InStep e ∧ ∀ t, machine.step s e = some t → t.Linked d := by
  cases e with
  | authenticate a => exact h.authenticate hok.valid hok.proceeds hok.unchecked
  | command plain nt => exact h.command hok.valid hok.proceeds hok.unchecked

/-- Both sides stay in lock step over every run of authentications and commands, with the answers of
the card, as long as nothing without a checksum is taken for a standard frame. -/
theorem lockStep (d : Data) (es : List Exchange)
    (hok : machine.Meets (Permitted d) (start d) es) : machine.Meets InStep (start d) es :=
  machine.meets_of_invariant (I := Linked d) (fun _ _ t h hok ht => (h.exchange hok).2 t ht)
    (fun _ _ h hok => (h.exchange hok).1) (linked_start d) hok

instance decidableUnchecked (s : Link) : ∀ e, Decidable (s.Unchecked e)
  | .authenticate _ => inferInstanceAs (Decidable (_ ∧ _))
  | .command _ _ => inferInstanceAs (Decidable (_ = _))

instance decidableProceeds (s : Link) : ∀ e, Decidable (s.Proceeds e)
  | .authenticate _ => inferInstanceAs (Decidable (_ → _))
  | .command _ _ => inferInstanceAs (Decidable (_ = _))

instance decidablePermitted (d : Data) (s : Link) (e : Exchange) : Decidable (Permitted d s e) :=
  decidable_of_iff (e.For d ∧ s.Proceeds e ∧ s.Unchecked e)
    ⟨fun h => ⟨h.1, h.2.1, h.2.2⟩, fun h => ⟨h.valid, h.proceeds, h.unchecked⟩⟩

/-- A card with a value in each of its data blocks. -/
def purse : Data where
  uid := [0x01, 0x02, 0x03, 0x04]
  type := .k1
  block b :=
    if isSectorTrailer b then ⟨[0xA0, 0xA1, 0xA2, 0xA3, 0xA4, 0xA5, 0xFF, 0x07, 0x80, 0x69,
      0xB0, 0xB1, 0xB2, 0xB3, 0xB4, 0xB5], rfl⟩
    else valueToBlock 0 b

def authentication (isNested : Bool) (nt : Nonce) : Authentication :=
  ⟨isNested, .a, 4, nt, ⟨[0x0A, 0x0B, 0x0C, 0x0D], rfl⟩⟩

/-- A block is written, a nested authentication follows, and the card refuses the last command. -/
def writing : List Exchange :=
  let nt : Nonce := ⟨[0x21, 0x43, 0x65, 0x87], rfl⟩
  let frame (bytes : List Byte) : BitBuffer := BitBuffer.ofBytes (withCrc bytes)
  [.authenticate (authentication false ⟨[0x12, 0x34, 0x56, 0x78], rfl⟩),
    .command (frame [0xA0, 0x04]) nt, .command (frame (replicate 16 0)) nt,
    .authenticate (authentication true nt),
    .command (frame [0x30, 0x04]) nt, .command (frame [0x30, 0x40]) nt]

theorem lockStep_writing : machine.Meets InStep (start purse) writing :=
  lockStep purse writing (by decide +kernel)

/-- The nonce ends in the checksum of its first half. -/
theorem checkedNonce_not_inStep : ¬ ∀ (d : Data) (es : List Exchange),
    machine.Meets (fun s e => e.For d ∧ s.Proceeds e) (start d) es →
      machine.Meets InStep (start d) es := by
  intro h
  have hmeets := h purse [.authenticate (authentication false ⟨[0x11, 0x22, 0xF9, 0x90], rfl⟩)]
    (by decide +kernel)
  obtain ⟨t, ht, -⟩ := hmeets.1
  have hfail : ((start purse).authenticate
      (authentication false ⟨[0x11, 0x22, 0xF9, 0x90], rfl⟩)).map Prod.fst ≠ some none := by
    decide +kernel
  exact hfail (congrArg (Option.map Prod.fst) ht)

end Link

end NikitaFirmware.MfClassic
