import NikitaFirmware.MfClassic.Listener
import NikitaFirmware.Nfc.Crypto1Frames
import NikitaFirmware.Nfc.Responses

/-!
# The reader, and its link to an emulated card

`nfc/protocols/mf_classic/mf_classic_poller_i.c`, as far as authentications and encrypted frames
go. A frame that the poller transmits passes `iso14443_3a_listener_run` before the listener gets it.
The handlers of the listener run on every frame, and what they send goes back to the poller; what
the commands of a session say is up to whoever sends them.
-/

namespace NikitaFirmware.MfClassic
open Nfc List

inductive Error
  | notPresent
  | protocol
  | auth
  | timeout
  deriving DecidableEq

def processError : Error3a → Error
  | .timeout => .timeout
  | .notPresent => .notPresent
  | _ => .protocol

/-- `MfClassicPoller`, with the UID that the lower layer has read. -/
structure Poller where
  uid : List Byte
  crypto : Crypto1
  authPassed : Bool
  txPlain : BitBuffer
  txEncrypted : BitBuffer
  rxPlain : BitBuffer
  rxEncrypted : BitBuffer

namespace Poller

/-- `mf_classic_poller_alloc`; the card has been activated. -/
def alloc (uid : List Byte) : Poller where
  uid := uid
  crypto := Crypto1.reset
  authPassed := false
  txPlain := BitBuffer.alloc 64
  txEncrypted := BitBuffer.alloc 64
  rxPlain := BitBuffer.alloc 64
  rxEncrypted := BitBuffer.alloc 64

def getCuid (p : Poller) : Word :=
  Crypto1.bytesToNum ((if p.uid.length = 7 then p.uid.drop 3 else p.uid).take 4)

def authCommand : KeyType → Byte
  | .a => 0x60
  | .b => 0x61

/-- The first half of `mf_classic_poller_get_nt_common`, with the frame that it transmits. The
lower layer appends the checksum of a frame that is not encrypted. -/
def requestNt (p : Poller) (block : Byte) (keyType : KeyType) (isNested : Bool) :
    Option (Poller × BitBuffer) := do
  let tx ← p.txPlain.copyBytes [authCommand keyType, block]
  if isNested then
    let tx ← Listener.crcAppend tx
    let r ← p.crypto.encrypt [] tx p.txEncrypted
    return ({ p with crypto := r.1, txPlain := tx, txEncrypted := r.2 }, r.2)
  else
    let frame := BitBuffer.ofBytes (tx.bytes ++ crcBytes (crcCalculate tx.bytes))
    return ({ p with txPlain := tx }, frame)

/-- The nonce is read where there are four bytes. -/
def readNt (p : Poller) : Option Error × Poller × List Byte :=
  if p.rxPlain.sizeBytes ≠ 4 then (some .protocol, p, [0, 0, 0, 0])
  else (none, p, p.rxPlain.bytes)

/-- An answer as the lower layer reports it. -/
def reception : Option BitBuffer → Reception
  | none => .error .timeout
  | some frame => .frame frame.bytes

/-- The second half of `mf_classic_poller_get_nt_common`. The nonce is zero until one is read. -/
def receiveNt (p : Poller) (isNested : Bool) (answer : Option BitBuffer) :
    Option (Option Error × Poller × List Byte) :=
  if isNested then
    match answer with
    | none => some (some .timeout, p, [0, 0, 0, 0])
    | some frame => (p.rxPlain.copy frame).map fun rx => readNt { p with rxPlain := rx }
  else
    (standardFrameExchange p.txPlain p.rxPlain (reception answer)).map fun r =>
      match r.1 with
      | some .wrongCrc => readNt { p with rxPlain := r.2 }
      | error => (error.map processError, { p with rxPlain := r.2 }, [0, 0, 0, 0])

/-- The answer to a nonce, with the frame that is transmitted. -/
def answerNt (p : Poller) (key : BitVec 48) (nt nr : List Byte) (isNested : Bool) :
    Option (Poller × BitBuffer) :=
  (Crypto1.encryptReaderNonce key p.getCuid nt nr p.txEncrypted isNested).map fun r =>
    ({ p with crypto := r.1, txEncrypted := r.2 }, r.2)

/-- The end of `mf_classic_poller_auth_common`. -/
def receiveAt (p : Poller) : Option BitBuffer → Option (Option Error × Poller)
  | none => some (some .timeout, p)
  | some frame => (p.rxEncrypted.copy frame).map fun rx =>
    (if rx.sizeBytes ≠ 4 then some .auth else none,
      { p with rxEncrypted := rx, crypto := (p.crypto.word 0 false).2, authPassed := true })

def sendEncryptedFrame (p : Poller) (tx : BitBuffer) : Option (Poller × BitBuffer) :=
  (p.crypto.encrypt [] tx p.txEncrypted).map fun r =>
    ({ p with crypto := r.1, txEncrypted := r.2 }, r.2)

/-- The second half of `mf_classic_poller_send_encrypted_frame`, with the decrypted frame. -/
def receiveEncryptedFrame (p : Poller) (frame : BitBuffer) : Option (Poller × BitBuffer) := do
  let rx ← p.rxEncrypted.copy frame
  let r ← p.crypto.decrypt rx p.rxPlain
  return ({ p with crypto := r.1, rxEncrypted := rx, rxPlain := r.2 }, r.2)

end Poller

namespace Listener

def onAir (frame : BitBuffer) : BitBuffer := { frame with data := frame.bytes }

def haltReceived (bytes : List Byte) : Bool :=
  bytes.length == 4 && crcCheck bytes && bytes.take 2 == [0x50, 0x00]

/-- `iso14443_3a_listener_run` on a frame of the poller, and what the listener does with it. -/
def deliver (l : Listener) (frame : BitBuffer) (nt : Nonce) : Option Handled :=
  if haltReceived frame.bytes then l.run .halted
  else (trimChecked (onAir frame)).bind fun buff => l.run (.received buff nt)

end Listener

/-- What `mf_classic_listener_run` decrypts of a frame in a session. -/
def Listener.hear (l : Listener) (frame : BitBuffer) : Option (Crypto1 × BitBuffer) :=
  if haltReceived frame.bytes then none
  else (trimChecked (onAir frame)).bind fun buff => l.crypto.decrypt buff l.rxPlain

/-- What the poller gets back. -/
def Handled.answer (h : Handled) : Option BitBuffer := h.sent.head?.map Sent.frame

/-- A poller and the card in its field. -/
structure Link where
  poller : Poller
  listener : Listener

structure Authentication where
  isNested : Bool
  keyType : KeyType
  block : Byte
  nt : Nonce
  nr : Nonce

/-- An encrypted frame on its way, from what one side encrypts to what the other one decrypts, with
the generators of both behind it. -/
structure Transfer where
  plain : BitBuffer
  sender : Crypto1
  frame : BitBuffer
  received : BitBuffer
  receiver : Crypto1

/-- A command of a session: how it has arrived, what the handler makes of it, and what goes back. -/
structure Turn where
  link : Link
  heard : Option Transfer
  command : Command
  answer : Option Transfer

namespace Link

/-- The poller gives up, and halts the card. -/
def fail (s : Link) (e : Error) : Option (Option Error × Link) :=
  (s.listener.run .halted).map fun h => (some e, { s with listener := h.listener })

/-- Before a first authentication the card is activated anew. -/
def activated (s : Link) (isNested : Bool) : Listener :=
  if isNested then s.listener else s.listener.resetState

def key (s : Link) (a : Authentication) : BitVec 48 :=
  Listener.key s.listener.data a.keyType a.block

/-- `mf_classic_poller_auth_common` -/
def authenticate (s : Link) (a : Authentication) : Option (Option Error × Link) := do
  let key := s.key a
  let (p, frame) ← s.poller.requestNt a.block a.keyType a.isNested
  let h ← (s.activated a.isNested).deliver frame a.nt
  let (e, p, nt) ← p.receiveNt a.isNested h.answer
  match e with
  | some e => fail ⟨p, h.listener⟩ e
  | none =>
    let (p, frame) ← p.answerNt key nt a.nr.bytes a.isNested
    let h ← h.listener.deliver frame a.nt
    let (e, p) ← p.receiveAt h.answer
    match e with
    | some e => fail ⟨p, h.listener⟩ e
    | none => return (none, ⟨p, h.listener⟩)

/-- `mf_classic_poller_send_encrypted_frame`, with what the listener does in between. -/
def command (s : Link) (plain : BitBuffer) (nt : Nonce) : Option Turn := do
  let (p, frame) ← s.poller.sendEncryptedFrame plain
  let heard := (s.listener.hear frame).map fun r => Transfer.mk plain p.crypto frame r.2 r.1
  let h ← s.listener.deliver frame nt
  match h.sent.head? with
  | none => return ⟨⟨p, h.listener⟩, heard, h.command, none⟩
  | some sent =>
    let (p, rx) ← p.receiveEncryptedFrame sent.frame
    return ⟨⟨p, h.listener⟩, heard, h.command,
      some ⟨sent.plain, sent.behind, sent.frame, rx, p.crypto⟩⟩

end Link

open Foundations Foundations.KeystreamGenerator

namespace Handshake

open Crypto1

variable {key : BitVec 48} {cuid : Word} {nt nr : List Byte} {out : BitBuffer}

def behindNonce (key : BitVec 48) (cuid : Word) (nt : List Byte) : Crypto1 :=
  ((init key).word (bytesToNum nt ^^^ cuid) false).2

def encryptedNonce (key : BitVec 48) (cuid : Word) (nt : List Byte) : List Byte :=
  ((init key).cipher (numToBytes (bytesToNum nt ^^^ cuid)) nt).map Prod.fst

def readerPlain (nt nr : List Byte) : List Byte :=
  nr ++ answerBytes 4 (prngSuccessor (bytesToNum nt) 32)

def behindAnswer (key : BitVec 48) (cuid : Word) (nt nr : List Byte) : Crypto1 :=
  (behindNonce key cuid nt).cipherEnd nr (readerPlain nt nr)

def readerFrame (key : BitVec 48) (cuid : Word) (nt nr : List Byte) : List Byte :=
  ((behindNonce key cuid nt).cipher nr (readerPlain nt nr)).map Prod.fst

theorem word_encryptedNonce (hnt : nt.length = 4) :
    (init key).word (bytesToNum (encryptedNonce key cuid nt) ^^^ cuid) true =
      (init key).word (bytesToNum nt ^^^ cuid) false := by
  have hcover : bytesToNum (encryptedNonce key cuid nt) ^^^ cuid =
      (bytesToNum nt ^^^ cuid) ^^^ ((init key).word (bytesToNum nt ^^^ cuid) false).1 := by
    rw [encryptedNonce, bytesToNum_cipher _ hnt, BitVec.xor_assoc, BitVec.xor_comm]
  have hword : ∀ w e, (init key).word w e = (wordOfBits (generator.run (init key) e (wordBits w)).1,
      (generator.run (init key) e (wordBits w)).2) := fun _ _ => rfl
  have hks : wordBits ((init key).word (bytesToNum nt ^^^ cuid) false).1 =
      (generator.run (init key) false (wordBits (bytesToNum nt ^^^ cuid))).1 :=
    wordBits_wordOfBits length_run
  rw [hcover, hword _ true, wordBits_xor, hks, run_encrypted]
  rfl

theorem decrypted_encryptedNonce (hnt : nt.length = 4) :
    ((init key).word (bytesToNum (encryptedNonce key cuid nt) ^^^ cuid) true).1 ^^^
      bytesToNum (encryptedNonce key cuid nt) = bytesToNum nt := by
  rw [word_encryptedNonce hnt, encryptedNonce, bytesToNum_cipher _ hnt, ← BitVec.xor_assoc,
    BitVec.xor_self, BitVec.zero_xor]

theorem bytesToNum_numToBytes (w : Word) : bytesToNum (numToBytes w) = w := by
  apply wordBits_injective
  rw [← flatMap_byteBits_of_length rfl, wordBits_numToBytes]

theorem length_answerBytes (n : Nat) (x : Word) : (answerBytes n x).length = n := by
  induction n generalizing x with
  | zero => rfl
  | succ n ih => rw [answerBytes, length_cons, ih]

theorem length_readerPlain (hnr : nr.length = 4) : (readerPlain nt nr).length = 8 := by
  rw [readerPlain, length_append, hnr, length_answerBytes]

theorem length_readerFrame (key : BitVec 48) (cuid : Word) (nt : List Byte)
    (hnr : nr.length = 4) : (readerFrame key cuid nt nr).length = 8 := by
  rw [readerFrame, length_map, length_cipher, length_readerPlain hnr]

theorem encryptReaderNonce_holds (key : BitVec 48) (cuid : Word) (isNested : Bool)
    (hnt : nt.length = 4) (hnr : nr.length = 4)
    (hcap : 8 ≤ out.capacityBytes) (hpar : out.capacityBytes ≤ 8 * out.parity.length) :
    ∃ d, encryptReaderNonce key cuid (if isNested then encryptedNonce key cuid nt else nt) nr out
        isNested = some (behindAnswer key cuid nt nr, d) ∧
      d.Holds out.capacityBytes (readerFrame key cuid nt nr) ∧
      d.capacityBytes ≤ 8 * d.parity.length := by
  obtain ⟨e, he, hfill, hecap⟩ := BitBuffer.filling_nil hcap hpar
  obtain ⟨d, hd, hfill', hdcap⟩ := encryptBytes_filling (behindNonce key cuid nt) nr nr
    hfill (by rw [length_nil, hnr]; decide)
  obtain ⟨f, hf, hfill'', hfcap⟩ := encryptBytes_filling
    ((behindNonce key cuid nt).cipherEnd nr nr) []
    (answerBytes 4 (prngSuccessor (bytesToNum nt) 32)) hfill'
    (by rw [nil_append, length_cipher, hnr, length_answerBytes])
  have hdrop : nr.drop nr.length = [] := drop_length
  have hframe : [] ++ (behindNonce key cuid nt).cipher nr nr ++
      ((behindNonce key cuid nt).cipherEnd nr nr).cipher [] (answerBytes 4
        (prngSuccessor (bytesToNum nt) 32)) =
      (behindNonce key cuid nt).cipher nr (readerPlain nt nr) := by
    rw [readerPlain, cipher_append, hdrop, nil_append]
  have hend : ((behindNonce key cuid nt).cipherEnd nr nr).cipherEnd [] (answerBytes 4
      (prngSuccessor (bytesToNum nt) 32)) = behindAnswer key cuid nt nr := by
    rw [behindAnswer, readerPlain, cipherEnd_append, hdrop]
  rw [hframe] at hfill''
  have hlen : ((behindNonce key cuid nt).cipher nr (readerPlain nt nr)).length = 8 := by
    rw [length_cipher, length_readerPlain hnr]
  refine ⟨f, ?_, ?_, hfill''.parity⟩
  · rw [nil_append, length_cipher, hnr, ← encryptAnswer_eq, hend] at hf
    rw [length_nil, ← encryptNonce_eq] at hd
    have hsize : out.setSizeBytes 8 = some e := by
      rw [BitBuffer.setSize, if_neg (by omega)] at he
      rw [BitBuffer.setSizeBytes, if_neg (by omega), ← he]
    have hboth : (encryptNonce (behindNonce key cuid nt) 0 nr e).bind (fun r =>
        encryptAnswer 4 r.1 4 (prngSuccessor (bytesToNum nt) 32) r.2) =
        some (behindAnswer key cuid nt nr, f) := by
      rw [hd, Option.bind_some]
      exact hf
    cases isNested with
    | false =>
      rw [encryptReaderNonce, hsize]
      exact hboth
    | true =>
      rw [← hboth, encryptReaderNonce, hsize, behindNonce, ← word_encryptedNonce hnt,
        ← decrypted_encryptedNonce hnt]
      rfl
  · have hholds := hfill''.holds hlen
    rw [hfcap, hdcap, hecap] at hholds
    exact hholds

theorem acceptsAnswer_readerFrame (hnr : nr.length = 4) :
    Listener.acceptsAnswer (behindNonce key cuid nt) nt ((readerFrame key cuid nt nr).take 4)
      ((readerFrame key cuid nt nr).drop 4) = (true, behindAnswer key cuid nt nr) := by
  have hdrop : nr.drop nr.length = [] := drop_length
  have hframe : readerFrame key cuid nt nr = (behindNonce key cuid nt).coverFed nr ++
      (((behindNonce key cuid nt).cipherEnd nr nr).cipher []
        (answerBytes 4 (prngSuccessor (bytesToNum nt) 32))).map Prod.fst := by
    rw [readerFrame, readerPlain, cipher_append, hdrop, map_append, cipher_self]
  have hlen : ((behindNonce key cuid nt).coverFed nr).length = 4 := by
    rw [length_coverFed, hnr]
  have hzero : numToBytes 0 = List.replicate 4 0 := rfl
  have hstate : ((behindNonce key cuid nt).word
      (bytesToNum ((behindNonce key cuid nt).coverFed nr)) true).2 =
      (behindNonce key cuid nt).cipherEnd nr nr := by
    rw [word_bytesToNum_snd hlen, after_coverFed, cipherEnd_eq_after rfl]
  have hanswer : bytesToNum (answerBytes 4 (prngSuccessor (bytesToNum nt) 32)) =
      prngSuccessor (bytesToNum nt) 64 := by
    rw [← numToBytes_prngSuccessor, bytesToNum_numToBytes, ← prngSuccessor_add]
  have hword : bytesToNum ((((behindNonce key cuid nt).cipherEnd nr nr).cipher []
      (answerBytes 4 (prngSuccessor (bytesToNum nt) 32))).map Prod.fst) =
      (((behindNonce key cuid nt).cipherEnd nr nr).word 0 false).1 ^^^
        prngSuccessor (bytesToNum nt) 64 := by
    rw [← cipher_zeros 4, ← hzero, bytesToNum_cipher 0 (length_answerBytes ..), hanswer]
  have hend : (((behindNonce key cuid nt).cipherEnd nr nr).word 0 false).2 =
      behindAnswer key cuid nt nr := by
    have hlen4 : (List.replicate 4 (0 : Byte)).length =
        (answerBytes 4 (prngSuccessor (bytesToNum nt) 32)).length := (length_answerBytes ..).symm
    rw [word_snd, hzero, behindAnswer, readerPlain, cipherEnd_append, hdrop,
      ← cipherEnd_zeros 4, cipherEnd_eq_after hlen4]
  rw [hframe, take_left' hlen, drop_left' hlen, Listener.acceptsAnswer, hstate, hword,
    hend, BitVec.xor_comm, ← BitVec.xor_assoc, BitVec.xor_self, BitVec.zero_xor, beq_self_eq_true]

end Handshake

end NikitaFirmware.MfClassic
