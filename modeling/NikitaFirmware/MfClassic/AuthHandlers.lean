import NikitaFirmware.MfClassic.Handlers
import NikitaFirmware.MfClassic.Poller

/-!
# The handlers of an authentication

What the listener does with the frames of an authentication, as far as its generator and its
buffers are concerned. The listener that has sent its nonce waits in the state behind the nonce,
and accepts the answer that the reader computes.
-/

namespace NikitaFirmware.MfClassic
open Nfc List Option

namespace Poller

structure Buffers (p : Poller) : Prop where
  txPlain : p.txPlain.capacityBytes = 64
  txEncrypted : p.txEncrypted.capacityBytes = 64
  parity : p.txEncrypted.capacityBytes ≤ 8 * p.txEncrypted.parity.length
  rxPlain : p.rxPlain.capacityBytes = 64
  rxEncrypted : p.rxEncrypted.capacityBytes = 64

/-- The command of an authentication, with its checksum. -/
def authFrame (keyType : KeyType) (block : Byte) : List Byte :=
  [authCommand keyType, block] ++ crcBytes (crcCalculate [authCommand keyType, block])

end Poller

namespace Listener

structure Buffers (l : Listener) : Prop where
  txPlain : l.txPlain.capacityBytes = 64
  txEncrypted : l.txEncrypted.capacityBytes = 64
  parity : l.txEncrypted.capacityBytes ≤ 8 * l.txEncrypted.parity.length
  rxPlain : l.rxPlain.capacityBytes = 64

end Listener

def withCrc (bs : List Byte) : List Byte := bs ++ crcBytes (crcCalculate bs)

section Buffers

variable {b rx frame : BitBuffer} {bs : List Byte} {n : Nat}

theorem exists_copyBytes (b : BitBuffer) (bs : List Byte) (hle : bs.length ≤ b.capacityBytes) :
    ∃ c, b.copyBytes bs = some c ∧ c.Holds b.capacityBytes bs ∧ c.parity = b.parity := by
  have hc : b.copyBytes bs = some { b with
      data := memcpy b.data 0 bs, sizeBits := bs.length * 8 } := if_neg (by omega)
  exact ⟨_, hc, BitBuffer.holds_of_copyBytes hc, rfl⟩

theorem exists_crcAppend (hb : b.Holds n bs) (hle : bs.length + 2 ≤ n) :
    ∃ c, Listener.crcAppend b = some c ∧ c.Holds n (bs ++ crcBytes (crcCalculate bs)) := by
  have hlen : (crcBytes (crcCalculate bs)).length = 2 := rfl
  have hc : b.appendBytes (crcBytes (crcCalculate bs)) = some { b with
      data := memcpy b.data b.sizeBytes (crcBytes (crcCalculate bs))
      sizeBits := b.sizeBits + (crcBytes (crcCalculate bs)).length * 8 } := by
    refine if_neg ?_
    rw [hb.capacity, hb.sizeBytes, hlen]
    omega
  refine ⟨_, ?_, hb.of_appendBytes hc⟩
  rw [Listener.crcAppend, hb.bytes]
  exact hc

theorem crcCheck_append (hpos : bs ≠ []) : crcCheck (bs ++ crcBytes (crcCalculate bs)) = true := by
  have hlen : (bs ++ crcBytes (crcCalculate bs)).length - 2 = bs.length := by
    rw [length_append]
    exact Nat.add_sub_cancel _ _
  have hlt : 0 < bs.length := length_pos_iff.mpr hpos
  rw [crcCheck, hlen, drop_left, take_left, beq_self_eq_true, Bool.and_true]
  refine decide_eq_true ?_
  rw [length_append]
  change 2 < bs.length + 2
  omega

theorem sizeBits_le (b : BitBuffer) : b.sizeBits ≤ b.sizeBytes * 8 := by
  rw [BitBuffer.sizeBytes]
  split <;> omega

theorem exists_copy (rx : BitBuffer) (hfit : frame.sizeBytes ≤ frame.capacityBytes)
    (hle : frame.sizeBytes ≤ rx.capacityBytes) :
    ∃ c, rx.copy frame = some c ∧ c.sizeBits = frame.sizeBits ∧ c.bytes = frame.bytes ∧
      c.capacityBytes = rx.capacityBytes := by
  have hbits := sizeBits_le frame
  have hlen : (frame.data.take frame.sizeBytes).length = frame.sizeBytes := by
    rw [length_take]
    exact Nat.min_eq_left hfit
  refine ⟨_, if_neg (by omega), rfl, ?_, BitBuffer.length_memcpy ?_⟩
  · have htake : (memcpy rx.data 0 (frame.data.take frame.sizeBytes)).take
        (0 + (frame.data.take frame.sizeBytes).length) =
        rx.data.take 0 ++ frame.data.take frame.sizeBytes := BitBuffer.take_memcpy (Nat.zero_le _)
    rw [hlen, Nat.zero_add] at htake
    exact htake
  · rw [hlen, Nat.zero_add]
    exact hle

end Buffers

namespace Listener

variable {l : Listener} {frame buff : BitBuffer} {bs : List Byte} {n m : Nat} {nt : Nonce}

theorem onAir_holds (hf : frame.Holds n bs) : (onAir frame).Holds bs.length bs := by
  have hlen : frame.bytes.length = bs.length := by
    rw [hf.bytes]
  refine BitBuffer.holds_of_take hf.sizeBits hlen (Nat.le_refl _) ?_
  change frame.bytes.take bs.length = bs
  rw [hf.bytes, take_length]

theorem trimChecked_of_not (hcrc : crcCheck frame.bytes = false) :
    trimChecked frame = some frame := by
  rw [trimChecked, hcrc, if_neg (by simp)]

theorem trimChecked_holds (hf : frame.Holds n bs) (hcrc : crcCheck bs = true) :
    ∃ c, trimChecked frame = some c ∧ c.Holds n (bs.take (bs.length - 2)) := by
  obtain ⟨c, hc, hholds, -⟩ := Holds.crcTrim hf (length_of_crcCheck hcrc)
  refine ⟨c, ?_, hholds⟩
  rw [trimChecked, hf.bytes, hcrc, if_pos rfl, hc]

theorem onAir_bytes (frame : BitBuffer) : (onAir frame).bytes = frame.bytes := by
  change frame.bytes.take frame.sizeBytes = frame.bytes
  rw [BitBuffer.bytes, take_take, Nat.min_self]

theorem haltReceived_of_not (hcrc : crcCheck bs = false) : haltReceived bs = false := by
  rw [haltReceived, hcrc, Bool.and_false, Bool.false_and]

theorem exists_trimChecked (hf : frame.IsFrame) :
    ∃ rx, trimChecked frame = some rx ∧ rx.capacityBytes = frame.capacityBytes := by
  cases hcrc : crcCheck frame.bytes with
  | false => exact ⟨frame, trimChecked_of_not hcrc, rfl⟩
  | true =>
    have hlen := length_of_crcCheck hcrc
    have hle : frame.bytes.length ≤ frame.sizeBytes := by
      rw [BitBuffer.bytes, length_take]
      exact Nat.min_le_left _ _
    have hfit := hf.1
    refine ⟨{ frame with sizeBits := (frame.sizeBytes - 2) * 8 }, ?_, rfl⟩
    rw [trimChecked, hcrc, if_pos rfl, crcTrim, if_neg (by omega), BitBuffer.setSizeBytes,
      if_neg (by omega)]

theorem deliver_unchecked (l : Listener) (nt : Nonce) (hcrc : crcCheck frame.bytes = false) :
    l.deliver frame nt = l.run (.received (onAir frame) nt) := by
  rw [deliver, haltReceived_of_not hcrc, if_neg (by simp),
    trimChecked_of_not (by rw [onAir_bytes, hcrc]), bind_some]

theorem deliver_checked (l : Listener) (nt : Nonce) (hf : frame.Holds n bs)
    (hcrc : crcCheck bs = true) (hhalt : haltReceived bs = false) :
    ∃ buff, buff.Holds bs.length (bs.take (bs.length - 2)) ∧
      l.deliver frame nt = l.run (.received buff nt) := by
  obtain ⟨c, hc, hholds⟩ := trimChecked_holds (onAir_holds hf) hcrc
  refine ⟨c, hholds, ?_⟩
  rw [deliver, hf.bytes, hhalt, if_neg (by simp), hc, bind_some]

theorem findCmd_auth {kt : KeyType} {block : Byte}
    (hb : buff.Holds m [Poller.authCommand kt, block]) :
    ∃ i, findCmd buff = some i ∧ handlerAt i 1 = some .authSecondPart ∧
      handlerAt i 0 = some (match kt with | .a => .authKeyA | .b => .authKeyB) := by
  have hhead : buff.data.head? = some (Poller.authCommand kt) := by
    have htake := hb.take
    cases hd : buff.data with
    | nil =>
      rw [hd] at htake
      cases htake
    | cons x xs =>
      rw [hd] at htake
      exact congrArg some (List.cons.inj htake).1
  have hsize : buff.sizeBits = 16 := hb.sizeBits
  cases kt with
  | a =>
    refine ⟨2, ?_, rfl, rfl⟩
    rw [findCmd, hhead, hsize]
    rfl
  | b =>
    refine ⟨3, ?_, rfl, rfl⟩
    rw [findCmd, hhead, hsize]
    rfl

structure Selects (l : Listener) (kt : KeyType) (block : Byte) : Prop where
  keyType : l.authContext.keyType = kt
  block : l.authContext.blockNum = block

/-- The listener has sent the nonce, and waits for the answer of the reader. -/
structure Waiting (l₀ l : Listener) (key : BitVec 48) (nt : Nonce) : Prop where
  data : l.data = l₀.data
  total : l.totalBlockNum = l₀.totalBlockNum
  state : l.state = .idle
  commState : l.commState = l₀.commState
  crypto : l.crypto = Handshake.behindNonce key l₀.data.getCuid nt.bytes
  nonce : l.authContext.nt = nt.bytes
  progress : l.cmdInProgress = true
  handler : handlerAt l.currentCmdIdx l.currentCmdHandlerIdx = some .authSecondPart
  buffers : l.Buffers

def nonceOnAir (l : Listener) (key : BitVec 48) (nt : Nonce) : List Byte :=
  match l.commState with
  | .plain => nt.bytes
  | .encrypted => Handshake.encryptedNonce key l.data.getCuid nt.bytes

theorem sendNonce_eq (key : BitVec 48) (hbuf : l.Buffers) (hkey : l.crypto = Crypto1.init key)
    (nt : Nonce) : ∃ l' t, l.sendNonce nt = some (l', t) ∧ t.frame.Holds 64 (l.nonceOnAir key nt) ∧
      l'.crypto = Handshake.behindNonce key l.data.getCuid nt.bytes ∧ l'.commState = l.commState ∧
      l'.Buffers := by
  have hlen := nt.length_bytes
  rw [sendNonce, nonceOnAir]
  cases hc : l.commState with
  | plain =>
    obtain ⟨tx, htx, hholds, hpar⟩ := exists_copyBytes l.txEncrypted nt.bytes
      (by rw [hlen, hbuf.txEncrypted]; decide)
    rw [hbuf.txEncrypted] at hholds
    refine ⟨{ l with
      crypto := (l.crypto.word (Crypto1.bytesToNum nt.bytes ^^^ l.data.getCuid) false).2
      txEncrypted := tx }, ⟨tx, tx, none,
      (l.crypto.word (Crypto1.bytesToNum nt.bytes ^^^ l.data.getCuid) false).2⟩, ?_, hholds, ?_, hc,
      ?_⟩
    · simp only [htx, hc, map_some]
    · rw [Handshake.behindNonce, hkey]
    · refine ⟨hbuf.txPlain, hholds.capacity, ?_, hbuf.rxPlain⟩
      change tx.capacityBytes ≤ 8 * tx.parity.length
      rw [hpar, hholds.capacity, ← hbuf.txEncrypted]
      exact hbuf.parity
  | encrypted =>
    obtain ⟨tx, htx, hholds, -⟩ := exists_copyBytes l.txPlain nt.bytes
      (by rw [hlen, hbuf.txPlain]; decide)
    rw [hbuf.txPlain] at hholds
    obtain ⟨d, hd, hair, -, hpar⟩ := Crypto1.encrypt_holds l.crypto
      (Crypto1.numToBytes (Crypto1.bytesToNum nt.bytes ^^^ l.data.getCuid)) hholds
      (by rw [hlen]; decide) (by rw [hlen, hbuf.txEncrypted]; decide) hbuf.parity
    rw [hbuf.txEncrypted] at hair
    have hstate : l.crypto.cipherEnd
        (Crypto1.numToBytes (Crypto1.bytesToNum nt.bytes ^^^ l.data.getCuid)) nt.bytes =
        Handshake.behindNonce key l.data.getCuid nt.bytes := by
      rw [hkey, Crypto1.cipherEnd_eq_after (by rw [hlen]; rfl), Handshake.behindNonce,
        Crypto1.word_snd]
    rw [hkey, ← Handshake.encryptedNonce] at hair
    refine ⟨{ l with
      txPlain := tx
      crypto := l.crypto.cipherEnd
        (Crypto1.numToBytes (Crypto1.bytesToNum nt.bytes ^^^ l.data.getCuid)) nt.bytes
      txEncrypted := d }, ⟨tx, d, none, l.crypto.cipherEnd
        (Crypto1.numToBytes (Crypto1.bytesToNum nt.bytes ^^^ l.data.getCuid)) nt.bytes⟩, ?_, hair,
      hstate, hc, ?_⟩
    · simp only [htx, hc, bind_some, sendEncrypted, hd, map_some]
    · exact ⟨hholds.capacity, hair.capacity, hpar, hbuf.rxPlain⟩

theorem dispatch_auth {kt : KeyType} {block : Byte} (nt : Nonce)
    (hb : buff.Holds m [Poller.authCommand kt, block]) (hprog : l.cmdInProgress = false)
    (hlt : block.toNat < l.totalBlockNum) (hbuf : l.Buffers) :
    ∃ h t, (l.dispatch buff nt).bind respond = some h ∧ h.sent = [t] ∧
      t.frame.Holds 64 (l.nonceOnAir (key l.data kt block) nt) ∧
      Waiting l h.listener (key l.data kt block) nt ∧ h.listener.Selects kt block := by
  obtain ⟨i, hfind, hnext, hfirst⟩ := findCmd_auth hb
  have hblock : buff.getByte 1 = some block := by
    rw [hb.getByte (show 1 < 2 by decide)]
    rfl
  obtain ⟨l', t, hsend, hframe, hcrypto, hcomm, hbuf'⟩ := sendNonce_eq (key l.data kt block)
    (l := { l with
      currentCmdIdx := i
      currentCmdHandlerIdx := 0
      state := .idle
      authContext := { l.authContext with keyType := kt, blockNum := block, nt := nt.bytes }
      crypto := Crypto1.init (key l.data kt block) })
    ⟨hbuf.txPlain, hbuf.txEncrypted, hbuf.parity, hbuf.rxPlain⟩ rfl nt
  have hhandler : (l.dispatch buff nt).bind respond =
      some { command := .processed, listener := l'.nextHandler, sent := [t] } := by
    have hpart : ({ l with currentCmdIdx := i, currentCmdHandlerIdx := 0 } :
        Listener).authFirstPartHandler kt buff nt =
        some { command := .processed, listener := l'.nextHandler, sent := [t] } := by
      rw [authFirstPartHandler, hblock, bind_eq_bind, bind_some, if_neg (Nat.not_le.mpr hlt)]
      exact congrArg (fun o : Option (Listener × Sent) => o.bind fun r =>
        some (Handled.mk .processed r.1.nextHandler [r.2] none none)) hsend
    have hrun : l.dispatch buff nt =
        some { command := .processed, listener := l'.nextHandler, sent := [t] } := by
      rw [dispatch, if_neg (by rw [hprog]; simp), hfind]
      change (handlerAt i 0).bind _ = _
      rw [hfirst, bind_some, ← hpart]
      cases kt <;> rfl
    rw [hrun, bind_some]
    rfl
  have hsame := (sendNonce_same hsend).1
  refine ⟨_, t, hhandler, rfl, hframe, ?_, ⟨congrArg AuthContext.keyType hsame.context,
    congrArg AuthContext.blockNum hsame.context⟩⟩
  constructor
  case data => exact hsame.data
  case total => exact hsame.total
  case state => exact hsame.state
  case commState => exact hcomm
  case crypto => exact hcrypto
  case nonce => exact congrArg AuthContext.nt hsame.context
  case progress => rfl
  case handler =>
    change handlerAt l'.currentCmdIdx (l'.currentCmdHandlerIdx + 1) = _
    rw [hsame.cmdIdx, hsame.handlerIdx]
    exact hnext
  case buffers => exact ⟨hbuf'.txPlain, hbuf'.txEncrypted, hbuf'.parity, hbuf'.rxPlain⟩

structure Open (l₀ l : Listener) (c : Crypto1) : Prop where
  data : l.data = l₀.data
  total : l.totalBlockNum = l₀.totalBlockNum
  state : l.state = .authComplete
  commState : l.commState = .encrypted
  crypto : l.crypto = c
  progress : l.cmdInProgress = false
  buffers : l.Buffers

def cardPlain (nt : Nonce) : List Byte :=
  Crypto1.numToBytes (Crypto1.prngSuccessor (Crypto1.bytesToNum nt.bytes) 96)

theorem completeAuth_eq (hbuf : l.Buffers) (hprog : l.cmdInProgress = false)
    (hnt : l.authContext.nt = nt.bytes) :
    ∃ h t, l.completeAuth = some h ∧ h.command = .processed ∧ h.sent = [t] ∧
      t.frame = h.listener.txEncrypted ∧
      t.frame.Holds 64 ((l.crypto.cipher [] (cardPlain nt)).map Prod.fst) ∧
      Open l h.listener (l.crypto.cipherEnd [] (cardPlain nt)) ∧
      h.listener.authContext = l.authContext := by
  have hlen : (cardPlain nt).length = 4 := rfl
  obtain ⟨tx, htx, hholds, -⟩ := exists_copyBytes l.txPlain (cardPlain nt)
    (by rw [hlen, hbuf.txPlain]; decide)
  rw [hbuf.txPlain] at hholds
  obtain ⟨d, hd, hair, -, hpar⟩ := Crypto1.encrypt_holds l.crypto [] hholds
    (by rw [hlen]; decide) (by rw [hlen, hbuf.txEncrypted]; decide) hbuf.parity
  rw [hbuf.txEncrypted] at hair
  refine ⟨⟨.processed, { l with
      txPlain := tx
      crypto := l.crypto.cipherEnd [] (cardPlain nt)
      txEncrypted := d
      state := .authComplete
      commState := .encrypted }, [⟨tx, d, none, l.crypto.cipherEnd [] (cardPlain nt)⟩], none, none⟩,
    ⟨tx, d, none, l.crypto.cipherEnd [] (cardPlain nt)⟩, ?_, rfl, rfl, rfl, hair,
    ⟨rfl, rfl, rfl, rfl, rfl, hprog,
      ⟨hholds.capacity, hair.capacity, hpar, hbuf.rxPlain⟩⟩, rfl⟩
  rw [completeAuth, hnt, ← cardPlain, htx, bind_eq_bind, bind_some, sendEncrypted, hd,
    map_some, bind_eq_bind, bind_some]
  rfl

theorem dispatch_answer {l₀ : Listener} {key : BitVec 48} {nt nr : Nonce} (nt' : Nonce)
    (hw : Waiting l₀ l key nt)
    (hb : buff.Holds m (Handshake.readerFrame key l₀.data.getCuid nt.bytes nr.bytes)) :
    ∃ h t, (l.dispatch buff nt').bind respond = some h ∧ h.sent = [t] ∧
      t.frame = h.listener.txEncrypted ∧ t.frame.Holds 64
        (((Handshake.behindAnswer key l₀.data.getCuid nt.bytes nr.bytes).cipher []
          (cardPlain nt)).map Prod.fst) ∧
      Open l₀ h.listener
        ((Handshake.behindAnswer key l₀.data.getCuid nt.bytes nr.bytes).cipherEnd []
          (cardPlain nt)) ∧
      ∀ kt block, l.Selects kt block → h.listener.Selects kt block := by
  have hlen := Handshake.length_readerFrame key l₀.data.getCuid nt.bytes nr.length_bytes
  have hsize : buff.sizeBytes = 8 := hb.sizeBytes.trans hlen
  have hpart : ∀ start, start + 4 ≤ 8 → buff.writeBytesMid start 4 =
      some (((Handshake.readerFrame key l₀.data.getCuid nt.bytes nr.bytes).drop start).take 4) := by
    intro start hstart
    have htake := hb.take
    rw [hlen] at htake
    rw [BitBuffer.writeBytesMid, hsize, if_neg (by omega), ← htake, drop_take, take_take,
      Nat.min_eq_left (by omega)]
  have hlast : ((Handshake.readerFrame key l₀.data.getCuid nt.bytes nr.bytes).drop 4).take 4 =
      (Handshake.readerFrame key l₀.data.getCuid nt.bytes nr.bytes).drop 4 :=
    take_of_length_le (by rw [length_drop, hlen])
  have haccept : acceptsAnswer l.crypto l.authContext.nt
      ((Handshake.readerFrame key l₀.data.getCuid nt.bytes nr.bytes).take 4)
      ((Handshake.readerFrame key l₀.data.getCuid nt.bytes nr.bytes).drop 4) =
      (true, Handshake.behindAnswer key l₀.data.getCuid nt.bytes nr.bytes) := by
    rw [hw.crypto, hw.nonce]
    exact Handshake.acceptsAnswer_readerFrame nr.length_bytes
  obtain ⟨h, t, hcomplete, hcmd, hsent, hframe, hair, hopen, hcontext⟩ := completeAuth_eq
    (l := { l with
      cmdInProgress := false
      authContext := { l.authContext with
        nr := (Handshake.readerFrame key l₀.data.getCuid nt.bytes nr.bytes).take 4
        ar := (Handshake.readerFrame key l₀.data.getCuid nt.bytes nr.bytes).drop 4 }
      crypto := Handshake.behindAnswer key l₀.data.getCuid nt.bytes nr.bytes })
    ⟨hw.buffers.txPlain, hw.buffers.txEncrypted, hw.buffers.parity, hw.buffers.rxPlain⟩ rfl hw.nonce
  have hrun : l.dispatch buff nt' = some h := by
    rw [dispatch, if_pos hw.progress, hw.handler, bind_some]
    change authSecondPartHandler l buff = some h
    rw [authSecondPartHandler, if_neg (not_not_intro hsize), hpart 0 (by decide),
      hpart 4 (by decide), hlast, drop_zero]
    simp only [bind_eq_bind, bind_some, haccept, if_true]
    exact hcomplete
  refine ⟨h, t, ?_, hsent, hframe, hair, ⟨hopen.data.trans hw.data, hopen.total.trans hw.total,
    hopen.state, hopen.commState, hopen.crypto, hopen.progress, hopen.buffers⟩,
    fun kt block hs => ⟨(congrArg AuthContext.keyType hcontext).trans hs.keyType,
      (congrArg AuthContext.blockNum hcontext).trans hs.block⟩⟩
  rw [hrun, bind_some, respond, hcmd]

theorem run_received {l' : Listener} {rx : BitBuffer} (h : l.receive buff = some (l', rx)) :
    l.run (.received buff nt) = (l'.dispatch rx nt).bind respond := by
  rw [run, h]
  rfl

theorem receive_idle (h : l.state = .idle) : l.receive buff = some (l, buff) := by
  simp only [receive, h]
  cases l.commState <;> rfl

variable {c : Crypto1}

theorem receive_session {d rx : BitBuffer} (hstate : l.state = .authComplete)
    (hcomm : l.commState = .encrypted) (hd : l.crypto.decrypt buff l.rxPlain = some (c, d))
    (ht : trimChecked d = some rx) :
    l.receive buff = some ({ l with crypto := c, rxPlain := rx }, rx) := by
  simp only [receive, hstate, hcomm, hd, ht, bind_some, map_some]

theorem crcCheck_authFrame (kt : KeyType) (block : Byte) :
    crcCheck (Poller.authFrame kt block) = true :=
  crcCheck_append (cons_ne_nil _ _)

theorem deliver_auth_plain {kt : KeyType} {block : Byte} (nt : Nonce)
    (hf : frame.Holds n (Poller.authFrame kt block))
    (hstate : l.state = .idle) : ∃ buff m, buff.Holds m [Poller.authCommand kt, block] ∧
      l.deliver frame nt = (l.dispatch buff nt).bind respond := by
  have hhalt : haltReceived (Poller.authFrame kt block) = false := by
    cases kt <;> exact Bool.and_false _
  obtain ⟨buff, hb, hdeliver⟩ := deliver_checked l nt hf (crcCheck_authFrame kt block) hhalt
  exact ⟨buff, _, hb, hdeliver.trans (run_received (receive_idle hstate))⟩

structure Listens (l : Listener) (c : Crypto1) : Prop where
  state : l.state = .authComplete
  commState : l.commState = .encrypted
  crypto : l.crypto = c
  buffers : l.Buffers

/-- The listener behind a frame that it has decrypted. -/
def hears (l : Listener) (c : Crypto1) (rx : BitBuffer) : Listener :=
  { l with crypto := c, rxPlain := rx }

theorem Open.listens {l₀ : Listener} (ho : Open l₀ l c) : l.Listens c :=
  ⟨ho.state, ho.commState, ho.crypto, ho.buffers⟩

theorem Buffers.hears (hbuf : l.Buffers) {rx : BitBuffer} (c : Crypto1)
    (hrx : rx.capacityBytes = 64) : (l.hears c rx).Buffers :=
  ⟨hbuf.txPlain, hbuf.txEncrypted, hbuf.parity, hrx⟩

theorem Listens.hears {rx : BitBuffer} (hl : l.Listens c) (c' : Crypto1)
    (hrx : rx.capacityBytes = 64) : (l.hears c' rx).Listens c' :=
  ⟨hl.state, hl.commState, rfl, hl.buffers.hears c' hrx⟩

theorem Open.hears {l₀ : Listener} {rx : BitBuffer} (ho : Open l₀ l c) (c' : Crypto1)
    (hrx : rx.capacityBytes = 64) : Open l₀ (l.hears c' rx) c' :=
  ⟨ho.data, ho.total, ho.state, ho.commState, rfl, ho.progress, ho.buffers.hears c' hrx⟩

theorem run_session {bs : List Byte} (nt : Nonce) (cs : List Byte) (hl : l.Listens c)
    (hb : buff.Holds m ((c.cipher [] bs).map Prod.fst)) (hpos : 0 < bs.length)
    (hle : bs.length ≤ 64)
    (htrim : ∀ d : BitBuffer, d.Holds 64 bs → ∃ rx, trimChecked d = some rx ∧ rx.Holds 64 cs) :
    ∃ rx, rx.Holds 64 cs ∧ l.run (.received buff nt) =
      ((l.hears (c.cipherEnd [] bs) rx).dispatch rx nt).bind respond := by
  obtain ⟨d, hd, hholds⟩ := Crypto1.decrypt_cipher c l.rxPlain hb hpos
    (by rw [hl.buffers.rxPlain]; exact hle)
  rw [hl.buffers.rxPlain] at hholds
  obtain ⟨rx, hrx, hcs⟩ := htrim d hholds
  rw [← hl.crypto] at hd
  refine ⟨rx, hcs, ?_⟩
  rw [run_received (receive_session hl.state hl.commState hd hrx), hl.crypto]
  rfl

theorem deliver_session {bs : List Byte} (nt : Nonce) (hl : l.Listens c)
    (hf : frame.Holds n ((c.cipher [] (withCrc bs)).map Prod.fst))
    (hcrc : crcCheck ((c.cipher [] (withCrc bs)).map Prod.fst) = false) (hpos : bs ≠ [])
    (hle : bs.length ≤ 62) :
    ∃ rx, rx.Holds 64 bs ∧ l.deliver frame nt =
      ((l.hears (c.cipherEnd [] (withCrc bs)) rx).dispatch rx nt).bind respond := by
  have hlen : (withCrc bs).length = bs.length + 2 := length_append
  have htake : (withCrc bs).take ((withCrc bs).length - 2) = bs := by
    rw [hlen, Nat.add_sub_cancel]
    exact take_left
  obtain ⟨rx, hrx, hrun⟩ := run_session nt bs hl (onAir_holds hf)
    (by omega) (by omega) (fun d hd => by
      obtain ⟨rx, hrx, hholds⟩ := trimChecked_holds hd (crcCheck_append hpos)
      exact ⟨rx, hrx, htake ▸ hholds⟩)
  exact ⟨rx, hrx, (deliver_unchecked l nt (hf.bytes ▸ hcrc)).trans hrun⟩

theorem deliver_encrypted {x y : Byte} (nt : Nonce) (hl : l.Listens c)
    (hf : frame.Holds n ((c.cipher [] (withCrc [x, y])).map Prod.fst))
    (hhalt : haltReceived ((c.cipher [] (withCrc [x, y])).map Prod.fst) = false) :
    ∃ c' rx, rx.Holds 64 [x, y] ∧
      l.deliver frame nt = ((l.hears c' rx).dispatch rx nt).bind respond := by
  have hlen : ((c.cipher [] (withCrc [x, y])).map Prod.fst).length = 4 := by
    rw [length_map, Crypto1.length_cipher]
    rfl
  cases hcrc : crcCheck ((c.cipher [] (withCrc [x, y])).map Prod.fst) with
  | true =>
    obtain ⟨buff, hb, hdeliver⟩ := deliver_checked l nt hf hcrc hhalt
    have htake : ((c.cipher [] (withCrc [x, y])).map Prod.fst).take 2 =
        (c.cipher [] [x, y]).map Prod.fst := by
      rw [withCrc, Crypto1.cipher_append, map_append]
      rfl
    rw [hlen, htake] at hb
    obtain ⟨rx, hrx, hrun⟩ := run_session nt [x, y] hl hb (Nat.succ_pos 1)
      (show 2 ≤ 64 by decide) (fun d hd => by
        refine ⟨d, trimChecked_of_not ?_, hd⟩
        rw [hd.bytes]
        rfl)
    exact ⟨_, rx, hrx, hdeliver.trans hrun⟩
  | false =>
    obtain ⟨rx, hrx, hdeliver⟩ := deliver_session nt hl hf hcrc (cons_ne_nil _ _)
      (show 2 ≤ 62 by decide)
    exact ⟨_, rx, hrx, hdeliver⟩

theorem deliver_auth_encrypted {kt : KeyType} {block : Byte} {l₀ : Listener}
    (nt : Nonce) (ho : Open l₀ l c)
    (hf : frame.Holds n ((c.cipher [] (Poller.authFrame kt block)).map Prod.fst))
    (hhalt : haltReceived ((c.cipher [] (Poller.authFrame kt block)).map Prod.fst) = false) :
    ∃ l' rx, rx.Holds 64 [Poller.authCommand kt, block] ∧
      l.deliver frame nt = (l'.dispatch rx nt).bind respond ∧ Open l₀ l' l'.crypto := by
  obtain ⟨c', rx, hrx, hdeliver⟩ := deliver_encrypted nt ho.listens hf hhalt
  exact ⟨_, rx, hrx, hdeliver, ho.hears c' hrx.capacity⟩

end Listener

namespace Poller

variable {p : Poller} {frame : BitBuffer} {bs : List Byte} {n : Nat} {kt : KeyType} {block : Byte}
  {nt nr : Nonce}

/-- What the poller transmits to ask for a nonce. -/
def requestBytes (p : Poller) (kt : KeyType) (block : Byte) (isNested : Bool) : List Byte :=
  if isNested then (p.crypto.cipher [] (authFrame kt block)).map Prod.fst else authFrame kt block

theorem requestNt_eq (kt : KeyType) (block : Byte) (hbuf : p.Buffers) (isNested : Bool) :
    ∃ q frame n, p.requestNt block kt isNested = some (q, frame) ∧
      frame.Holds n (p.requestBytes kt block isNested) ∧ q.Buffers ∧ q.uid = p.uid ∧
      q.txPlain.sizeBytes ≤ 4 := by
  obtain ⟨tx, htx, hholds, -⟩ := exists_copyBytes p.txPlain [authCommand kt, block]
    (by rw [hbuf.txPlain]; exact show 2 ≤ 64 by decide)
  rw [hbuf.txPlain] at hholds
  cases isNested with
  | false =>
    refine ⟨{ p with txPlain := tx }, BitBuffer.ofBytes (authFrame kt block), _, ?_,
      BitBuffer.holds_ofBytes _, ⟨hholds.capacity, hbuf.txEncrypted, hbuf.parity, hbuf.rxPlain,
        hbuf.rxEncrypted⟩, rfl, ?_⟩
    · rw [requestNt, htx, authFrame, ← hholds.bytes]
      rfl
    · change tx.sizeBytes ≤ 4
      rw [hholds.sizeBytes]
      exact show 2 ≤ 4 by decide
  | true =>
    obtain ⟨t, ht, hframe⟩ := exists_crcAppend hholds (show 4 ≤ 64 by decide)
    obtain ⟨d, hd, hair, -, hpar⟩ := Crypto1.encrypt_holds p.crypto [] hframe (Nat.succ_pos 3)
      (by rw [hbuf.txEncrypted]; exact show 4 ≤ 64 by decide) hbuf.parity
    rw [hbuf.txEncrypted] at hair
    refine ⟨{ p with
      crypto := p.crypto.cipherEnd [] (authFrame kt block), txPlain := t, txEncrypted := d }, d, 64,
      ?_, hair, ⟨hframe.capacity, hair.capacity, hpar, hbuf.rxPlain, hbuf.rxEncrypted⟩, rfl, ?_⟩
    · rw [requestNt, htx, bind_eq_bind, bind_some, if_pos rfl, ht, bind_some, hd]
      rfl
    · change t.sizeBytes ≤ 4
      rw [hframe.sizeBytes]
      exact Nat.le_refl 4

theorem receiveNt_eq (hbuf : p.Buffers) (htx : p.txPlain.sizeBytes ≤ 4)
    (hf : frame.Holds 64 bs) (hlen : bs.length = 4) (isNested : Bool)
    (hcrc : isNested = false → crcCheck bs = false) :
    ∃ q, p.receiveNt isNested (some frame) = some (none, q, bs) ∧ q.Buffers ∧ q.uid = p.uid := by
  have hread : ∀ rx : BitBuffer, rx.Holds 64 bs →
      readNt { p with rxPlain := rx } = (none, { p with rxPlain := rx }, bs) := by
    intro rx hrx
    rw [readNt, if_neg (not_not_intro (hrx.sizeBytes.trans hlen)), hrx.bytes]
  cases isNested with
  | false =>
    obtain ⟨rx, hrx, hholds⟩ := BitBuffer.Holds.copy hbuf.rxPlain (BitBuffer.holds_ofBytes bs)
      (by rw [hlen]; decide)
    have hexchange : standardFrameExchange p.txPlain p.rxPlain (.frame bs) =
        some (some .wrongCrc, rx) := by
      rw [standardFrameExchange, if_neg (by rw [pollerMaxBufferSize]; omega)]
      rw [if_neg (by rw [hlen, hbuf.rxPlain]; decide), hrx, bind_eq_bind,
        bind_some, hcrc rfl]
      rfl
    refine ⟨{ p with rxPlain := rx }, ?_, ⟨hbuf.txPlain, hbuf.txEncrypted, hbuf.parity,
      hholds.capacity, hbuf.rxEncrypted⟩, rfl⟩
    rw [receiveNt, if_neg (by simp), reception, hf.bytes, hexchange, map_some]
    exact congrArg some (hread rx hholds)
  | true =>
    obtain ⟨rx, hrx, hholds⟩ := BitBuffer.Holds.copy hbuf.rxPlain hf (by rw [hlen]; decide)
    refine ⟨{ p with rxPlain := rx }, ?_, ⟨hbuf.txPlain, hbuf.txEncrypted, hbuf.parity,
      hholds.capacity, hbuf.rxEncrypted⟩, rfl⟩
    rw [receiveNt, if_pos rfl, hrx, map_some, hread rx hholds]

theorem answerNt_eq (key : BitVec 48) (nt nr : Nonce) (hbuf : p.Buffers) (isNested : Bool) :
    ∃ q frame, p.answerNt key (if isNested then Handshake.encryptedNonce key p.getCuid nt.bytes
        else nt.bytes) nr.bytes isNested = some (q, frame) ∧
      frame.Holds 64 (Handshake.readerFrame key p.getCuid nt.bytes nr.bytes) ∧ q.Buffers ∧
      q.uid = p.uid ∧ q.crypto = Handshake.behindAnswer key p.getCuid nt.bytes nr.bytes := by
  obtain ⟨d, hd, hair, hpar⟩ := Handshake.encryptReaderNonce_holds key p.getCuid isNested
    nt.length_bytes nr.length_bytes
    (by rw [hbuf.txEncrypted]; decide) hbuf.parity
  rw [hbuf.txEncrypted] at hair
  refine ⟨{ p with
    crypto := Handshake.behindAnswer key p.getCuid nt.bytes nr.bytes, txEncrypted := d }, d, ?_,
    hair, ⟨hbuf.txPlain, hair.capacity, hpar, hbuf.rxPlain, hbuf.rxEncrypted⟩, rfl, rfl⟩
  rw [answerNt, hd, map_some]

theorem receiveAt_eq (hbuf : p.Buffers) (hf : frame.Holds 64 bs) (hlen : bs.length = 4) :
    ∃ q, p.receiveAt (some frame) = some (none, q) ∧ q.Buffers ∧ q.uid = p.uid ∧
      q.crypto = p.crypto.cipherEnd [] bs ∧ q.rxEncrypted.bytes = bs := by
  obtain ⟨rx, hrx, hholds⟩ := BitBuffer.Holds.copy hbuf.rxEncrypted hf (by rw [hlen]; decide)
  have hcrypto : (p.crypto.word 0 false).2 = p.crypto.cipherEnd [] bs := by
    have hzero : Crypto1.numToBytes 0 = List.replicate 4 0 := rfl
    rw [Crypto1.word_snd, hzero, ← Crypto1.cipherEnd_zeros 4,
      Crypto1.cipherEnd_eq_after (by rw [length_replicate, hlen])]
  refine ⟨{ p with
    rxEncrypted := rx, crypto := (p.crypto.word 0 false).2, authPassed := true }, ?_,
    ⟨hbuf.txPlain, hbuf.txEncrypted, hbuf.parity, hbuf.rxPlain, hholds.capacity⟩, rfl, hcrypto,
    hholds.bytes⟩
  rw [receiveAt, hrx, map_some, if_neg (not_not_intro (hholds.sizeBytes.trans hlen))]

end Poller

end NikitaFirmware.MfClassic
