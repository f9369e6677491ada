import NikitaFirmware.Nfc.Keystream

/-!
# Encrypted frames

A frame goes over the air as bytes with a parity bit each. What one side has encrypted the other
side decrypts to the same bytes, the parity bits are those of the plain bytes under the keystream,
and both generators are in the same state behind the frame.
-/

namespace NikitaFirmware.Nfc
open Foundations Foundations.KeystreamGenerator BitBuffer List Option

variable {b out tx rx plain : BitBuffer} {n i j : Nat} {byte : Byte} {p : Bool}
  {bs : List Byte} {done : List (Byte × Bool)}

namespace BitBuffer

def air (b : BitBuffer) : List (Byte × Bool) := b.bytes.mapIdx fun i x => (x, b.parityBit i)

theorem testBit_mask : ∀ k < 8, ∀ j < 8, ∀ bit : Bool,
    ((if bit then 1 else 0 : Byte) <<< UInt8.ofNat k).toNat.testBit j = (bit && j == k) := by
  decide

theorem length_setParity (parity : List Byte) : (setParity parity i p).length = parity.length := by
  rw [setParity]
  split <;> exact length_set

theorem testBit_setParity {parity : List Byte} (hlen : i / 8 < parity.length)
    (hclear : i % 8 ≠ 0 → ∀ k, i % 8 ≤ k → k < 8 →
      (parity.getD (i / 8) 0).toNat.testBit k = false) {k : Nat} (hk : k < 8) :
    ((setParity parity i p).getD (i / 8) 0).toNat.testBit k = if k = i % 8 then p else
        decide (i % 8 ≠ 0) && (parity.getD (i / 8) 0).toNat.testBit k := by
  have hmask := testBit_mask (i % 8) (Nat.mod_lt _ (by decide)) k hk p
  rw [setParity]
  split
  case isTrue hz =>
    rw [getD_eq_getElem?_getD, getElem?_set_self hlen, getD_some, hmask]
    by_cases hki : k = i % 8
    · rw [if_pos hki, beq_iff_eq.mpr hki, Bool.and_true]
    · rw [if_neg hki, beq_eq_false_iff_ne.mpr hki, decide_eq_false (not_not_intro hz)]
      simp
  case isFalse hz =>
    rw [getD_eq_getElem?_getD, getElem?_set_self hlen, getD_some, UInt8.toNat_or,
      Nat.testBit_or, hmask]
    by_cases hki : k = i % 8
    · rw [if_pos hki, beq_iff_eq.mpr hki, Bool.and_true,
        hclear hz k (Nat.le_of_eq hki.symm) hk, Bool.false_or]
    · rw [if_neg hki, beq_eq_false_iff_ne.mpr hki, Bool.and_false, Bool.or_false,
        decide_eq_true hz, Bool.true_and]

theorem getD_setParity_of_ne (parity : List Byte) (h : j ≠ i / 8) :
    (setParity parity i p).getD j 0 = parity.getD j 0 := by
  rw [setParity]
  split <;> rw [getD_eq_getElem?_getD, getElem?_set_ne (Ne.symm h), ← getD_eq_getElem?_getD]

/-- A buffer of `n` bytes that is being filled with bytes and their parity bits. -/
structure Filling (b : BitBuffer) (n : Nat) (done : List (Byte × Bool)) : Prop where
  size : b.sizeBits = n * 8
  capacity : n ≤ b.capacityBytes
  parity : b.capacityBytes ≤ 8 * b.parity.length
  bytes : b.data.take done.length = done.map Prod.fst
  bits : ∀ i p, (done[i]?).map Prod.snd = some p → b.parityBit i = p
  clear : done.length % 8 ≠ 0 → ∀ k, done.length % 8 ≤ k → k < 8 →
    (b.parity.getD (done.length / 8) 0).toNat.testBit k = false

theorem filling_nil (hn : n ≤ b.capacityBytes) (hp : b.capacityBytes ≤ 8 * b.parity.length) :
    ∃ c, b.setSize (n * 8) = some c ∧ c.Filling n [] ∧ c.capacityBytes = b.capacityBytes := by
  refine ⟨{ b with sizeBits := n * 8 }, if_neg (by omega), ⟨rfl, hn, hp, rfl, ?_, ?_⟩, rfl⟩
  · intro i p h
    cases h
  · intro h
    exact absurd rfl h

theorem Filling.setByteWithParity (h : b.Filling n done) (hlt : done.length < n) (byte : Byte)
    (p : Bool) : ∃ c, b.setByteWithParity done.length byte p = some c ∧
      c.Filling n (done ++ [(byte, p)]) ∧ c.capacityBytes = b.capacityBytes := by
  have hcap := h.capacity
  have hpar := h.parity
  have hidx : done.length / 8 < b.parity.length := by omega
  have hlen : done.length < b.data.length := Nat.lt_of_lt_of_le hlt hcap
  refine ⟨_, if_neg ?_, ⟨h.size, ?_, ?_, ?_, ?_, ?_⟩, length_set⟩
  · rw [h.size]
    omega
  · change n ≤ (b.data.set done.length byte).length
    rw [length_set]
    exact hcap
  · change (b.data.set done.length byte).length ≤ 8 * (setParity b.parity done.length p).length
    rw [length_set, length_setParity]
    exact hpar
  · rw [length_append, length_singleton, map_append]
    change (b.data.set done.length byte).take (done.length + 1) = _
    rw [take_succ_eq_append_getElem (by rw [length_set]; exact hlen),
      take_set_of_le (Nat.le_refl _), h.bytes, getElem_set_self]
    rfl
  · intro i q hq
    rcases Nat.lt_trichotomy i done.length with hi | hi | hi
    · rw [getElem?_append_left hi] at hq
      have hold := h.bits i q hq
      rw [parityBit] at hold ⊢
      by_cases hrow : i / 8 = done.length / 8
      · change ((setParity b.parity done.length p).getD (i / 8) 0).toNat.testBit (i % 8) = q
        rw [hrow] at hold ⊢
        rw [testBit_setParity hidx h.clear (Nat.mod_lt _ (by decide)), if_neg (by omega),
          decide_eq_true (by omega), Bool.true_and, hold]
      · change ((setParity b.parity done.length p).getD (i / 8) 0).toNat.testBit (i % 8) = q
        rw [getD_setParity_of_ne _ hrow, hold]
    · rw [hi, getElem?_concat_length] at hq
      obtain rfl := some.inj hq
      change ((setParity b.parity done.length p).getD (i / 8) 0).toNat.testBit (i % 8) = p
      rw [hi, testBit_setParity hidx h.clear (Nat.mod_lt _ (by decide)), if_pos rfl]
    · rw [getElem?_eq_none (by rw [length_append, length_singleton]; omega)] at hq
      cases hq
  · rw [length_append, length_singleton]
    intro hz k hle hk
    have hrow : (done.length + 1) / 8 = done.length / 8 := by omega
    change ((setParity b.parity done.length p).getD _ 0).toNat.testBit k = false
    rw [hrow, testBit_setParity hidx h.clear hk, if_neg (by omega)]
    by_cases hz' : done.length % 8 = 0
    · rw [decide_eq_false (not_not_intro hz'), Bool.false_and]
    · rw [h.clear hz' k (by omega) hk, Bool.and_false]

theorem Filling.holds (h : b.Filling n done) (hlen : done.length = n) :
    b.Holds b.capacityBytes (done.map Prod.fst) := by
  refine holds_of_take ?_ rfl ?_ ?_
  · rw [h.size, length_map, hlen]
  · rw [length_map, hlen]
    exact h.capacity
  · rw [length_map, h.bytes]

theorem Filling.air (h : b.Filling n done) (hlen : done.length = n) : b.air = done := by
  rw [BitBuffer.air, (h.holds hlen).bytes]
  apply ext_getElem?
  intro i
  rw [getElem?_mapIdx, getElem?_map]
  cases hi : done[i]? with
  | none => rfl
  | some x =>
    have hbit := h.bits i x.2 (by rw [hi]; rfl)
    simp only [map_some, hbit]

end BitBuffer

namespace Crypto1

variable {c : Crypto1} {keystream : List Byte} {cap : Nat}

/-- Bytes under the keystream with their parity bits, while `keystream` is fed in. -/
def cipher : Crypto1 → List Byte → List Byte → List (Byte × Bool)
  | _, _, [] => []
  | c, ks, b :: bs =>
    ((c.byte (ks.headD 0) false).1 ^^^ b,
      filter (c.byte (ks.headD 0) false).2.odd ^^ oddParity8 b) ::
      cipher (c.byte (ks.headD 0) false).2 ks.tail bs

/-- The state behind as many bytes as there are plain ones. -/
def cipherEnd : Crypto1 → List Byte → List Byte → Crypto1
  | c, _, [] => c
  | c, ks, _ :: bs => cipherEnd (c.byte (ks.headD 0) false).2 ks.tail bs

@[simp] theorem length_cipher : (c.cipher keystream bs).length = bs.length := by
  induction bs generalizing c keystream with
  | nil => rfl
  | cons b bs ih => rw [cipher, length_cons, length_cons, ih]

/-- The parity bits of a frame are those of the bytes that it decrypts to. -/
def parityValid : Crypto1 → List (Byte × Bool) → Bool
  | _, [] => true
  | c, x :: xs =>
    (x.2 == (filter (c.byte 0 false).2.odd ^^ oddParity8 ((c.byte 0 false).1 ^^^ x.1))) &&
      parityValid (c.byte 0 false).2 xs

theorem xor_xor_cancel (a b : Byte) : a ^^^ (a ^^^ b) = b := by
  rw [← UInt8.xor_assoc, UInt8.xor_self, UInt8.zero_xor]

theorem cipher_cipher : (c.cipher [] ((c.cipher [] bs).map Prod.fst)).map Prod.fst = bs := by
  induction bs generalizing c with
  | nil => rfl
  | cons b bs ih =>
    have htail := ih (c := (c.byte 0 false).2)
    rw [cipher, map_cons, cipher, map_cons]
    exact congrArg₂ cons (xor_xor_cancel _ b) htail

theorem cipherEnd_congr {cs : List Byte} (h : bs.length = cs.length) :
    c.cipherEnd keystream bs = c.cipherEnd keystream cs := by
  induction bs generalizing c keystream cs with
  | nil =>
    rw [length_nil] at h
    rw [length_eq_zero_iff.mp h.symm]
  | cons b bs ih =>
    cases cs with
    | nil => cases h
    | cons d cs => exact ih (Nat.succ.inj h)

theorem parityValid_cipher : c.parityValid (c.cipher [] bs) = true := by
  induction bs generalizing c with
  | nil => rfl
  | cons b bs ih =>
    change (((filter (c.byte 0 false).2.odd ^^ oddParity8 b) == (filter (c.byte 0 false).2.odd ^^
        oddParity8 ((c.byte 0 false).1 ^^^ ((c.byte 0 false).1 ^^^ b)))) && _) = true
    rw [xor_xor_cancel, beq_self_eq_true, Bool.true_and]
    exact ih

theorem cipher_append {ds : List Byte} : c.cipher keystream (bs ++ ds) =
    c.cipher keystream bs ++ (c.cipherEnd keystream bs).cipher (keystream.drop bs.length) ds := by
  induction bs generalizing c keystream with
  | nil => rfl
  | cons b bs ih =>
    rw [cons_append, cipher, cipher, cipherEnd, cons_append, length_cons, ih,
      drop_tail, Nat.add_comm]

theorem cipherEnd_append {ds : List Byte} : c.cipherEnd keystream (bs ++ ds) =
    (c.cipherEnd keystream bs).cipherEnd (keystream.drop bs.length) ds := by
  induction bs generalizing c keystream with
  | nil => rfl
  | cons b bs ih =>
    rw [cons_append, cipherEnd, cipherEnd, length_cons, ih, drop_tail, Nat.add_comm]

theorem cipher_zeros (n : Nat) : c.cipher (replicate n 0) bs = c.cipher [] bs := by
  induction bs generalizing c n with
  | nil => rfl
  | cons b bs ih =>
    cases n with
    | zero => rfl
    | succ n =>
      rw [cipher, cipher, replicate_succ, tail_cons, ih]
      rfl

theorem cipherEnd_zeros (n : Nat) : c.cipherEnd (replicate n 0) bs = c.cipherEnd [] bs := by
  induction bs generalizing c n with
  | nil => rfl
  | cons b bs ih =>
    cases n with
    | zero => rfl
    | succ n =>
      rw [cipherEnd, cipherEnd, replicate_succ, tail_cons, ih]
      rfl

theorem cipherEnd_eq_after (h : keystream.length = bs.length) :
    c.cipherEnd keystream bs = c.after false keystream := by
  induction bs generalizing c keystream with
  | nil =>
    rw [length_eq_zero_iff.mp h]
    rfl
  | cons b bs ih =>
    cases keystream with
    | nil => cases h
    | cons k ks =>
      rw [after_cons]
      exact ih (Nat.succ.inj h)

theorem cipher_self : (c.cipher bs bs).map Prod.fst = c.coverFed bs := by
  induction bs generalizing c with
  | nil => rfl
  | cons b bs ih =>
    have htail := ih (c := (c.byte b false).2)
    rw [cipher, map_cons, coverFed]
    exact congrArg _ htail

theorem flatMap_cipher (h : keystream.length = bs.length) :
    ((c.cipher keystream bs).map Prod.fst).flatMap byteBits =
      cover (generator.run c false (keystream.flatMap byteBits)).1 (bs.flatMap byteBits) := by
  induction bs generalizing c keystream with
  | nil =>
    rw [length_eq_zero_iff.mp h]
    rfl
  | cons b bs ih =>
    cases keystream with
    | nil => cases h
    | cons k ks =>
      have hhead : byteBits ((c.byte k false).1 ^^^ b) =
          cover (generator.run c false (byteBits k)).1 (byteBits b) := by
        rw [byteBits_xor, byteBits_byte]
      have htail := ih (c := (c.byte k false).2) (Nat.succ.inj h)
      have hlen : (generator.run c false (byteBits k)).1.length = (byteBits b).length := length_run
      rw [cipher, map_cons, flatMap_cons, flatMap_cons, flatMap_cons, run_append, cover_append hlen]
      exact congrArg₂ (· ++ ·) hhead htail

theorem flatMap_byteBits_of_length (h : bs.length = 4) :
    bs.flatMap byteBits = wordBits (bytesToNum bs) := by
  match bs, h with
  | [b₀, b₁, b₂, b₃], _ =>
    rw [wordBits_bytesToNum]
    simp only [flatMap_cons, flatMap_nil, append_nil, append_assoc]

theorem bytesToNum_cipher (w : Word) (h : bs.length = 4) :
    bytesToNum ((c.cipher (numToBytes w) bs).map Prod.fst) =
      (c.word w false).1 ^^^ bytesToNum bs := by
  apply wordBits_injective
  have hlen : ((c.cipher (numToBytes w) bs).map Prod.fst).length = 4 := by
    rw [length_map, length_cipher, h]
  have hword : wordBits (c.word w false).1 = (generator.run c false (wordBits w)).1 :=
    wordBits_wordOfBits length_run
  rw [wordBits_xor, hword, ← flatMap_byteBits_of_length hlen, ← flatMap_byteBits_of_length h,
    flatMap_cipher (by rw [h]; rfl), wordBits_numToBytes]

theorem encryptBytes_filling (c : Crypto1) (keystream bs : List Byte) (h : out.Filling n done)
    (hle : done.length + bs.length ≤ n) :
    ∃ d, c.encryptBytes done.length keystream bs out = some (c.cipherEnd keystream bs, d) ∧
      d.Filling n (done ++ c.cipher keystream bs) ∧ d.capacityBytes = out.capacityBytes := by
  induction bs generalizing c keystream out done with
  | nil =>
    refine ⟨out, rfl, ?_, rfl⟩
    rw [cipher, append_nil]
    exact h
  | cons b bs ih =>
    rw [length_cons] at hle
    obtain ⟨d, hd, hfill, hcap⟩ := h.setByteWithParity (by omega)
      ((c.byte (keystream.headD 0) false).1 ^^^ b)
      (filter (c.byte (keystream.headD 0) false).2.odd ^^ oddParity8 b)
    obtain ⟨e, he, hfill', hcap'⟩ := ih (c.byte (keystream.headD 0) false).2
      keystream.tail hfill (by rw [length_append, length_singleton]; omega)
    rw [length_append, length_singleton] at he
    refine ⟨e, ?_, ?_, hcap'.trans hcap⟩
    · rw [encryptBytes, hd, bind_some, he]
      rfl
    · rw [cipher, ← append_cons] at *
      exact hfill'

theorem encryptNonce_eq (c : Crypto1) (i : Nat) (nr : List Byte) (out : BitBuffer) :
    c.encryptNonce i nr out = c.encryptBytes i nr nr out := by
  induction nr generalizing c i out with
  | nil => rfl
  | cons b bs ih =>
    rw [encryptNonce, encryptBytes]
    exact congrArg _ (funext fun d => ih ..)

theorem encryptAnswer_eq (k : Nat) (c : Crypto1) (i : Nat) (nt : Word) (out : BitBuffer) :
    encryptAnswer k c i nt out = c.encryptBytes i [] (answerBytes k nt) out := by
  induction k generalizing c i nt out with
  | zero => rfl
  | succ k ih =>
    rw [encryptAnswer, answerBytes, encryptBytes]
    exact congrArg _ (funext fun d => ih ..)

theorem decryptBytes_holds (c : Crypto1) (bs ds : List Byte) (out : BitBuffer)
    (hsize : out.sizeBits = n * 8) (hcap : n ≤ out.capacityBytes)
    (hdone : out.data.take ds.length = ds) (hn : ds.length + bs.length = n) :
    ∃ d, c.decryptBytes ds.length bs out = some (c.cipherEnd [] bs, d) ∧
      d.Holds out.capacityBytes (ds ++ (c.cipher [] bs).map Prod.fst) := by
  induction bs generalizing c out ds with
  | nil =>
    rw [length_nil, Nat.add_zero] at hn
    refine ⟨out, rfl, ?_⟩
    rw [cipher, map_nil, append_nil]
    exact holds_of_take (by rw [hsize, hn]) rfl (by omega) hdone
  | cons b bs ih =>
    rw [length_cons] at hn
    have hlt : ds.length < out.data.length := by
      change ds.length < out.capacityBytes
      omega
    have hset : out.setByte ds.length ((c.byte 0 false).1 ^^^ b) =
        some { out with data := out.data.set ds.length ((c.byte 0 false).1 ^^^ b) } := by
      refine if_neg ?_
      rw [sizeBytes_of_sizeBits hsize]
      omega
    obtain ⟨e, he, hholds⟩ := ih (c.byte 0 false).2 (ds ++ [(c.byte 0 false).1 ^^^ b])
      { out with data := out.data.set ds.length ((c.byte 0 false).1 ^^^ b) } hsize
      (by
        change n ≤ (out.data.set _ _).length
        rw [length_set]
        exact hcap)
      (by
        rw [length_append, length_singleton]
        change (out.data.set ds.length _).take (ds.length + 1) = _
        rw [take_succ_eq_append_getElem (by rw [length_set]; exact hlt),
          take_set_of_le (Nat.le_refl _), hdone, getElem_set_self])
      (by rw [length_append, length_singleton]; omega)
    rw [length_append, length_singleton] at he
    refine ⟨e, ?_, ?_⟩
    · rw [decryptBytes, hset, bind_some, he]
      rfl
    · have hcapacity : ({ out with data := out.data.set ds.length ((c.byte 0 false).1 ^^^ b) } :
          BitBuffer).capacityBytes = out.capacityBytes := length_set
      rw [hcapacity, append_assoc] at hholds
      exact hholds

theorem encrypt_holds {m : Nat} (c : Crypto1) (keystream : List Byte) (hb : plain.Holds m bs)
    (hpos : 0 < bs.length) (hle : bs.length ≤ out.capacityBytes)
    (hpar : out.capacityBytes ≤ 8 * out.parity.length) :
    ∃ d, c.encrypt keystream plain out = some (c.cipherEnd keystream bs, d) ∧
      d.Holds out.capacityBytes ((c.cipher keystream bs).map Prod.fst) ∧
      d.air = c.cipher keystream bs ∧ d.capacityBytes ≤ 8 * d.parity.length := by
  obtain ⟨e, he, hfill, hcap⟩ := filling_nil hle hpar
  obtain ⟨d, hd, hfilled, hcap'⟩ := encryptBytes_filling c keystream bs hfill
    (by rw [length_nil, Nat.zero_add])
  have hlen : ([] ++ c.cipher keystream bs).length = bs.length := length_cipher
  have hbits := hb.sizeBits
  refine ⟨d, ?_, ?_, hfilled.air hlen, hfilled.parity⟩
  · have hdata : plain.data.take (plain.sizeBits / 8) = bs := by
      rw [hbits, Nat.mul_div_cancel _ (by decide)]
      exact hb.take
    rw [encrypt, hbits, he, bind_some, if_neg (by omega), ← hbits, hdata]
    exact hd
  · have hholds := hfilled.holds hlen
    rw [hcap'.trans hcap] at hholds
    exact hholds

theorem decrypt_holds (c : Crypto1) (out : BitBuffer) (hsize : tx.sizeBits = bs.length * 8)
    (hbytes : tx.bytes = bs) (hpos : 0 < bs.length) (hle : bs.length ≤ out.capacityBytes) :
    ∃ d, c.decrypt tx out = some (c.cipherEnd [] bs, d) ∧
      d.Holds out.capacityBytes ((c.cipher [] bs).map Prod.fst) := by
  obtain ⟨d, hd, hholds⟩ := decryptBytes_holds c bs []
    { out with sizeBits := tx.sizeBits } hsize hle rfl (Nat.zero_add _)
  have hdata : tx.data.take (tx.sizeBits / 8) = bs := by
    rw [BitBuffer.bytes, sizeBytes_of_sizeBits hsize] at hbytes
    rw [hsize, Nat.mul_div_cancel _ (by decide), hbytes]
  refine ⟨d, ?_, hholds⟩
  rw [decrypt, setSize, if_neg (by omega), bind_some, if_neg (by omega), hdata]
  exact hd

theorem decrypt_cipher {m : Nat} (c : Crypto1) (out : BitBuffer)
    (ht : tx.Holds m ((c.cipher [] bs).map Prod.fst))
    (hpos : 0 < bs.length) (hle : bs.length ≤ out.capacityBytes) :
    ∃ d, c.decrypt tx out = some (c.cipherEnd [] bs, d) ∧ d.Holds out.capacityBytes bs := by
  have hlen : ((c.cipher [] bs).map Prod.fst).length = bs.length := by
    rw [length_map, length_cipher]
  obtain ⟨d, hd, hholds⟩ := decrypt_holds c out ht.sizeBits ht.bytes
    (by rw [hlen]; exact hpos) (by rw [hlen]; exact hle)
  rw [cipher_cipher] at hholds
  rw [cipherEnd_congr hlen] at hd
  exact ⟨d, hd, hholds⟩

theorem take_byteBits_byteOfBits {bits : List Bool} (h : bits.length = 4) :
    (byteBits (byteOfBits bits)).take 4 = bits := by
  have hall : ∀ b₀ b₁ b₂ b₃ : Bool,
      (byteBits (byteOfBits [b₀, b₁, b₂, b₃])).take 4 = [b₀, b₁, b₂, b₃] := by decide
  match bits, h with
  | [b₀, b₁, b₂, b₃], _ => exact hall b₀ b₁ b₂ b₃

theorem length_short (c : Crypto1) (x : Byte) : ((byteBits x).take 4).length =
    (generator.run c false (replicate 4 false)).1.length := by
  have hks : (generator.run c false (replicate 4 false)).1.length = 4 := length_run
  exact hks.symm

theorem length_shortCover (c : Crypto1) (x : Byte) : (cover ((byteBits x).take 4)
    (generator.run c false (replicate 4 false)).1).length = 4 := length_cover (c.length_short x)

theorem byteOfBits_take_shortByte (c : Crypto1) (x : Byte) :
    byteOfBits ((byteBits (c.shortByte x 4).1).take 4) = (c.shortByte x 4).1 := by
  have hfst : (c.shortByte x 4).1 = byteOfBits (cover ((byteBits x).take 4)
      (generator.run c false (replicate 4 false)).1) := rfl
  rw [hfst, take_byteBits_byteOfBits (c.length_shortCover x)]

theorem shortByte_shortByte (c : Crypto1) (x : Byte) :
    (c.shortByte (c.shortByte x 4).1 4).2 = (c.shortByte x 4).2 ∧
      (byteBits (c.shortByte (c.shortByte x 4).1 4).1).take 4 = (byteBits x).take 4 := by
  have hsnd : ∀ y, (c.shortByte y 4).2 =
      (generator.run c false (replicate 4 false)).2 := fun _ => rfl
  refine ⟨(hsnd _).trans (hsnd x).symm, ?_⟩
  have hfst : ∀ y, (c.shortByte y 4).1 = byteOfBits (cover ((byteBits y).take 4)
      (generator.run c false (replicate 4 false)).1) := fun _ => rfl
  rw [hfst, hfst, take_byteBits_byteOfBits (c.length_shortCover x), cover_cover (c.length_short x)]
  exact take_byteBits_byteOfBits rfl

end Crypto1

namespace BitBuffer

/-- The bits of a buffer, in the order in which they go over the air. -/
def bits (b : BitBuffer) : List Bool := (b.bytes.flatMap Crypto1.byteBits).take b.sizeBits

/-- Four bits, or whole bytes. -/
def IsFrame (b : BitBuffer) : Prop :=
  b.sizeBytes ≤ b.capacityBytes ∧ (b.sizeBits = 4 ∨ b.sizeBits % 8 = 0 ∧ b.sizeBits ≠ 0)

instance decidableIsFrame (b : BitBuffer) : Decidable b.IsFrame :=
  inferInstanceAs (Decidable (_ ∧ _))

theorem Holds.bits {m : Nat} (h : b.Holds m bs) : b.bits = bs.flatMap Crypto1.byteBits := by
  have hlen : ∀ l : List Byte, (l.flatMap Crypto1.byteBits).length = l.length * 8 := by
    intro l
    induction l with
    | nil => rfl
    | cons x l ih =>
      rw [flatMap_cons, length_append, ih, Crypto1.length_byteBits, length_cons,
        Nat.succ_mul, Nat.add_comm]
  rw [BitBuffer.bits, h.bytes, h.sizeBits, ← hlen, take_length]

theorem IsFrame.whole (h : b.IsFrame) (hw : b.sizeBits ≠ 4) :
    b.Holds b.capacityBytes b.bytes ∧ 0 < b.bytes.length := by
  obtain ⟨hmod, hne⟩ := h.2.resolve_left hw
  have hwhole : b.WholeBytes := ⟨hmod, h.1⟩
  refine ⟨⟨hwhole, rfl, rfl⟩, ?_⟩
  have hbits := hwhole.sizeBits_eq
  rw [hwhole.length_bytes]
  omega

theorem sizeBytes_short (h4 : b.sizeBits = 4) : b.sizeBytes = 1 := by
  rw [sizeBytes, h4]
  rfl

theorem bytes_short (h4 : b.sizeBits = 4) (hcap : 1 ≤ b.capacityBytes) :
    b.bytes = [b.data.headD 0] := by
  rw [BitBuffer.bytes, sizeBytes_short h4]
  cases hd : b.data with
  | nil =>
    rw [capacityBytes, hd] at hcap
    cases hcap
  | cons x xs => rfl

theorem headD_data (h4 : b.sizeBits = 4) {x : Byte} (hb : b.bytes = [x]) : b.data.headD 0 = x := by
  rw [BitBuffer.bytes, sizeBytes_short h4] at hb
  cases hd : b.data with
  | nil =>
    rw [hd] at hb
    cases hb
  | cons y ys =>
    rw [hd] at hb
    exact (cons.inj hb).1

def short (b : BitBuffer) (x : Byte) : BitBuffer := { b with data := b.data.set 0 x, sizeBits := 4 }

theorem setSize_setByte_short (h4 : n = 4) (hcap : 1 ≤ b.capacityBytes) (x : Byte) :
    (b.setSize n).bind (fun b => b.setByte 0 x) = some (b.short x) := by
  rw [h4, setSize, if_neg (by omega), bind_some, setByte, sizeBytes_short rfl,
    if_neg (by decide)]
  rfl

theorem bytes_short_eq (hcap : 1 ≤ b.capacityBytes) (x : Byte) : (b.short x).bytes = [x] := by
  have hlen : (b.short x).capacityBytes = b.capacityBytes := length_set
  rw [bytes_short rfl (by rw [hlen]; exact hcap)]
  change [(b.data.set 0 x).headD 0] = [x]
  cases hd : b.data with
  | nil =>
    rw [capacityBytes, hd] at hcap
    cases hcap
  | cons y ys => rfl

theorem bits_short (h4 : b.sizeBits = 4) {x : Byte} (hb : b.bytes = [x]) :
    b.bits = (Crypto1.byteBits x).take 4 := by
  rw [BitBuffer.bits, hb, h4, flatMap_cons, flatMap_nil, append_nil]

theorem isFrame_short (hcap : 1 ≤ b.capacityBytes) (x : Byte) : (b.short x).IsFrame := by
  have hlen : (b.short x).capacityBytes = b.capacityBytes := length_set
  refine ⟨?_, .inl rfl⟩
  rw [sizeBytes_short rfl, hlen]
  exact hcap

end BitBuffer

namespace Crypto1

variable {c c' : Crypto1} {frame rx : BitBuffer}

/-- What a frame is to the side that decrypts it in the state `c`: the plain bits with correct
parity bits, after which the generator is in the state `c'`. -/
structure Opens (c c' : Crypto1) (plain frame : BitBuffer) : Prop where
  size : frame.sizeBits = plain.sizeBits
  bytes : frame.sizeBits ≠ 4 → frame.bytes = (c.cipher [] plain.bytes).map Prod.fst
  parity : frame.sizeBits % 8 = 0 → c.parityValid frame.air = true
  decrypt : ∀ received rx : BitBuffer, received.sizeBits = frame.sizeBits →
    received.bytes = frame.bytes → frame.sizeBytes ≤ rx.capacityBytes →
    ∃ d, c.decrypt received rx = some (c', d) ∧ d.sizeBits = plain.sizeBits ∧
      d.bits = plain.bits ∧ (d.sizeBits ≠ 4 → d.bytes = plain.bytes) ∧ d.IsFrame ∧
      d.capacityBytes = rx.capacityBytes

theorem encrypt_short (c : Crypto1) (h4 : plain.sizeBits = 4) (hcap : 1 ≤ out.capacityBytes) :
    c.encrypt [] plain out = some ((c.shortByte (plain.data.headD 0) 4).2,
      out.short (c.shortByte (plain.data.headD 0) 4).1) := by
  have hset := setSize_setByte_short h4 hcap (c.shortByte (plain.data.headD 0) 4).1
  rw [bind_eq_some_iff] at hset
  obtain ⟨d, hd, hbyte⟩ := hset
  rw [encrypt, hd, bind_some, if_pos (by omega), h4, hbyte]
  rfl

theorem decrypt_short (c : Crypto1) (h4 : tx.sizeBits = 4) (hcap : 1 ≤ out.capacityBytes) :
    c.decrypt tx out = some ((c.shortByte (tx.data.headD 0) 4).2,
      out.short (c.shortByte (tx.data.headD 0) 4).1) := by
  have hset := setSize_setByte_short h4 hcap (c.shortByte (tx.data.headD 0) 4).1
  rw [bind_eq_some_iff] at hset
  obtain ⟨d, hd, hbyte⟩ := hset
  rw [decrypt, hd, bind_some, if_pos (by omega), hbyte]
  rfl

theorem exists_encrypt (c : Crypto1) (out : BitBuffer) (hf : plain.IsFrame)
    (hle : plain.sizeBytes ≤ out.capacityBytes)
    (hpar : out.capacityBytes ≤ 8 * out.parity.length) :
    ∃ c' d, c.encrypt [] plain out = some (c', d) ∧ c.Opens c' plain d ∧ d.IsFrame ∧
      d.capacityBytes = out.capacityBytes ∧ d.capacityBytes ≤ 8 * d.parity.length := by
  by_cases h4 : plain.sizeBits = 4
  case neg =>
    obtain ⟨hb, hpos⟩ := hf.whole h4
    rw [hb.sizeBytes] at hle
    obtain ⟨d, hd, hholds, hair, hpar'⟩ := encrypt_holds c [] hb hpos hle hpar
    have hlen : ((c.cipher [] plain.bytes).map Prod.fst).length = plain.bytes.length := by
      rw [length_map, length_cipher]
    have hsize : d.sizeBits = plain.sizeBits := by
      rw [hholds.sizeBits, hlen, hb.sizeBits]
    refine ⟨_, d, hd, ⟨hsize, fun _ => hholds.bytes, fun _ => ?_, ?_⟩, ⟨hholds.whole.le, ?_⟩,
      hholds.capacity, hpar'⟩
    · rw [hair]
      exact parityValid_cipher
    · intro received rx hbits hbytes hcap
      rw [hholds.bytes] at hbytes
      rw [hholds.sizeBytes] at hcap
      obtain ⟨e, he, hopen⟩ := decrypt_holds c rx (hbits.trans hholds.sizeBits) hbytes
        (by rw [hlen]; exact hpos) hcap
      rw [cipher_cipher] at hopen
      refine ⟨e, ?_, ?_, ?_, fun _ => hopen.bytes, ⟨hopen.whole.le, ?_⟩, hopen.capacity⟩
      · rw [he, cipherEnd_congr hlen]
      · rw [hopen.sizeBits, hb.sizeBits]
      · rw [hopen.bits, hb.bits]
      · rw [hopen.sizeBits, ← hb.sizeBits]
        exact hf.2
    · rw [hsize]
      exact hf.2
  case pos =>
    rw [sizeBytes_short h4] at hle
    have hplain := bytes_short h4 (sizeBytes_short h4 ▸ hf.1)
    have hcap : (out.short (c.shortByte (plain.data.headD 0) 4).1).capacityBytes =
        out.capacityBytes := length_set
    refine ⟨_, _, encrypt_short c h4 hle, ⟨h4.symm, fun h => absurd rfl h,
      fun h => absurd h (show ¬ 4 % 8 = 0 by decide), ?_⟩,
      isFrame_short hle _, hcap, hcap.symm ▸ hpar⟩
    intro received rx hbits hbytes hrx
    rw [bytes_short_eq hle] at hbytes
    rw [sizeBytes_short rfl] at hrx
    obtain ⟨hstate, hopen⟩ := shortByte_shortByte c (plain.data.headD 0)
    have hdecrypt := decrypt_short c hbits hrx
    rw [headD_data hbits hbytes, hstate] at hdecrypt
    refine ⟨_, hdecrypt, h4.symm, ?_, fun h => absurd rfl h, isFrame_short hrx _, length_set⟩
    rw [bits_short rfl (bytes_short_eq hrx _), bits_short h4 hplain, hopen]

end Crypto1

end NikitaFirmware.Nfc
