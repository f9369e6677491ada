import NikitaFirmware.MfClassic.Poller
import NikitaFirmware.Nfc.Crypto1Rollback

/-!
# Nonces of nested authentications

`crypto1_decrypt_nt_enc`. A card sends the nonce of a nested authentication under the keystream of
the nonce itself. With the key known, the generator runs forward over the encrypted nonce, and the
way back gives its keystream.
-/

namespace NikitaFirmware.MfClassic
open Nfc Foundations Foundations.KeystreamGenerator

namespace Handshake

open Crypto1

def decryptNtEnc (cuid ntEnc : Word) (knownKey : List Byte) : Word :=
  let crypto := init (Listener.keyToNum knownKey)
  let crypto := (crypto.word (ntEnc ^^^ cuid) true).2
  ntEnc ^^^ (crypto.lfsrRollbackWord (ntEnc ^^^ cuid) true).1

theorem decryptNtEnc_eq (cuid ntEnc : Word) (knownKey : List Byte) :
    decryptNtEnc cuid ntEnc knownKey =
      ntEnc ^^^ ((init (Listener.keyToNum knownKey)).word (ntEnc ^^^ cuid) true).1 := by
  rw [decryptNtEnc, (lfsrRollbackWord_word _ _ true).1]

/-- A word forward and a word back are inverse on the register, under the same keystream; the
encrypted nonce of a card decrypts to the nonce. -/
theorem crypto1_rollback : (∀ (c : Crypto1) (input : Word) (fb : Bool),
      (word (c.lfsrRollbackWord input fb).2 input fb).2.register = c.register ∧
      (word (c.lfsrRollbackWord input fb).2 input fb).1 = (c.lfsrRollbackWord input fb).1 ∧
      (lfsrRollbackWord (c.word input fb).2 input fb).2 = c.register ∧
      (lfsrRollbackWord (c.word input fb).2 input fb).1 = (c.word input fb).1) ∧
    ∀ (cuid nt : Word) (key : List Byte),
      decryptNtEnc cuid (bytesToNum (encryptedNonce (Listener.keyToNum key) cuid (numToBytes nt)))
        key = nt := by
  constructor
  · intro c input fb
    obtain ⟨hback, hreg⟩ := lfsrRollbackWord_word c input fb
    obtain ⟨hforth, hreg'⟩ := word_lfsrRollbackWord c input fb
    exact ⟨hreg', hforth, hreg, hback⟩
  · intro cuid nt key
    rw [decryptNtEnc_eq, BitVec.xor_comm, decrypted_encryptedNonce rfl, bytesToNum_numToBytes]

end Handshake

end NikitaFirmware.MfClassic
