import Mathlib.Data.Nat.Notation

/-!
# Nice Flor-S

`lib/subghz/protocols/nice_flor_s.c`, the cipher of the code word and what a received one is taken
for. Both directions work on the bytes of a 64 bit number, with a table of 32 bytes from a file.
-/

namespace NikitaFirmware.SubGhz
open BitVec

namespace NiceFlorS

/-- The bytes of `uint64_t data` in memory. -/
structure Bytes where
  p0 : BitVec 8
  p1 : BitVec 8
  p2 : BitVec 8
  p3 : BitVec 8
  p4 : BitVec 8
  p5 : BitVec 8
  p6 : BitVec 8
  p7 : BitVec 8
  deriving DecidableEq

/-- The bytes of a number, in the byte order of the processor. -/
def ofData (d : BitVec 64) : Bytes where
  p0 := d.extractLsb' 0 8
  p1 := d.extractLsb' 8 8
  p2 := d.extractLsb' 16 8
  p3 := d.extractLsb' 24 8
  p4 := d.extractLsb' 32 8
  p5 := d.extractLsb' 40 8
  p6 := d.extractLsb' 48 8
  p7 := d.extractLsb' 56 8

def toData (p : Bytes) : BitVec 64 :=
  p.p7 ++ p.p6 ++ p.p5 ++ p.p4 ++ p.p3 ++ p.p2 ++ p.p1 ++ p.p0

/-- The content of the file with the rainbow table. -/
def Table : Type := BitVec 5 → BitVec 8

/-- `subghz_protocol_nice_flor_s_get_byte_from_buffer`; the address is below 32. -/
def getByte (table : Table) (address : BitVec 8) : BitVec 8 := table (address.setWidth 5)

def magicXor (p : Bytes) (k : BitVec 8) : Bytes :=
  { p with
    p1 := p.p1 ^^^ k
    p2 := p.p2 ^^^ k
    p3 := p.p3 ^^^ k
    p4 := p.p4 ^^^ k
    p5 := p.p5 ^^^ k }

/-- A key is mixed into the bytes; the byte that it comes from takes the bits of a mask. -/
def mix (p : Bytes) (k mask : BitVec 8) : Bytes :=
  { magicXor p k with p5 := (magicXor p k).p5 &&& 0x0F, p0 := p.p0 ^^^ (k &&& mask) }

def lowKey (table : Table) (p : Bytes) : BitVec 8 := getByte table (p.p0 &&& 0x1F)

def highKey (table : Table) (p : Bytes) : BitVec 8 := getByte table (p.p0 >>> 3) + 0x25

/-- The first half of a round of the encryption. -/
def mixLow (table : Table) (p : Bytes) : Bytes := mix p (lowKey table p) 0xE0

/-- The second half of it. -/
def mixHigh (table : Table) (p : Bytes) : Bytes := mix p (highKey table p) 0x07

def swap (p : Bytes) : Bytes := { p with p0 := p.p1, p1 := p.p0 }

/-- The body of the loop of `subghz_protocol_nice_flor_s_encrypt`. -/
def encryptRound (table : Table) (p : Bytes) (y : Nat) : Bytes :=
  let p := mixHigh table (mixLow table p)
  if y = 0 then swap p else p

/-- What the encryption ends with. -/
def scramble (p : Bytes) : Bytes :=
  { p with
    p0 := ~~~ p.p2
    p1 := ~~~ p.p3
    p2 := ~~~ p.p4
    p3 := ~~~ p.p1
    p4 := ~~~ p.p0
    p5 := ~~~ p.p5 &&& 0x0F }

/-- `subghz_protocol_nice_flor_s_encrypt`; without a table from the file the result is
`SUBGHZ_NO_NICE_FLOR_S_RAINBOW_TABLE`. -/
def encrypt (data : BitVec 64) : Option Table → BitVec 64
  | none => 0
  | some table => toData (scramble ((List.range 2).foldl (encryptRound table) (ofData data)))

/-- What the decryption begins with. -/
def unscramble (p : Bytes) : Bytes :=
  { p with
    p0 := ~~~ p.p4
    p1 := ~~~ p.p3
    p2 := ~~~ p.p0
    p3 := ~~~ p.p1
    p4 := ~~~ p.p2
    p5 := ~~~ p.p5 }

/-- The body of the loop of `subghz_protocol_nice_flor_s_decrypt`. -/
def decryptRound (table : Table) (p : Bytes) (y : Nat) : Bytes :=
  let p := mixLow table (mixHigh table p)
  if y = 0 then swap p else p

def decrypt (data : BitVec 64) : Option Table → BitVec 64
  | none => 0
  | some table => toData ((List.range 2).foldl (decryptRound table) (unscramble (ofData data)))

/-- What `subghz_protocol_nice_flor_s_remote_controller` finds in a code word. -/
structure Remote where
  serial : BitVec 32
  cnt : BitVec 32
  btn : BitVec 8

/-- `subghz_protocol_nice_flor_s_remote_controller`, where there is a file name. -/
def remoteController (data : BitVec 64) (file : Option Table) : Remote :=
  let decrypted := decrypt data file
  { serial := ((decrypted >>> 16) &&& 0xFFFFFFF).setWidth 32
    cnt := (decrypted &&& 0xFFFF).setWidth 32
    btn := ((decrypted >>> 48) &&& 0xF).setWidth 8 }

/-- The code word of `subghz_protocol_encoder_nice_flor_s_get_upload` in its repetition `n`. -/
def codeWord (serial : BitVec 32) (cnt : BitVec 32) (btn : BitVec 8) (n : BitVec 8)
    (file : Option Table) : BitVec 64 :=
  let plain := (serial.setWidth 64 <<< 16) ||| cnt.setWidth 64
  let byte := (btn <<< 4) ||| (0xF ^^^ btn ^^^ n)
  (byte.setWidth 64 <<< 44) ||| encrypt plain file

variable {table : Table} {p q : Bytes} {a k m m' : BitVec 8}

theorem xor_and_xor_and : ((a ^^^ k) &&& m ^^^ k) &&& m = a &&& m := by
  ext i
  simp only [getElem_and, getElem_xor]
  cases a[i] <;> cases k[i] <;> cases m[i] <;> rfl

theorem and_xor_and : ((a &&& m) ^^^ k) &&& m = (a ^^^ k) &&& m := by
  ext i
  simp only [getElem_and, getElem_xor]
  cases a[i] <;> cases k[i] <;> cases m[i] <;> rfl

theorem xor_and_of_disjoint (h : m &&& m' = 0#8) : (a ^^^ (k &&& m)) &&& m' = a &&& m' := by
  have hand : (a ^^^ (k &&& m)) &&& m' = (a &&& m') ^^^ (k &&& (m &&& m')) := by
    ext i
    simp only [getElem_and, getElem_xor]
    cases a[i] <;> cases k[i] <;> cases m[i] <;> cases m'[i] <;> rfl
  rw [hand, h, and_zero, xor_zero]

/-- The lower half of the sixth byte is all that the cipher keeps of it. -/
def nibble (p : Bytes) : Bytes := { p with p5 := p.p5 &&& 0x0F }

/-- The button above the code. -/
def withTop (p : Bytes) (b : BitVec 8) : Bytes := { p with p6 := b }

theorem mix_mix (p : Bytes) (k mask : BitVec 8) : mix (mix p k mask) k mask = nibble p := by
  have hcancel : ∀ x : BitVec 8, x ^^^ k ^^^ k = x := by
    intro x
    rw [BitVec.xor_assoc, BitVec.xor_self, xor_zero]
  simp only [mix, magicXor, nibble, Bytes.mk.injEq, hcancel, xor_and_xor_and, and_true]
  rw [BitVec.xor_assoc, BitVec.xor_self, xor_zero]

theorem mix_nibble (p : Bytes) (k mask : BitVec 8) : mix (nibble p) k mask = mix p k mask := by
  simp only [mix, magicXor, nibble, and_xor_and]

theorem nibble_mix (p : Bytes) (k mask : BitVec 8) : nibble (mix p k mask) = mix p k mask := by
  simp only [mix, magicXor, nibble, BitVec.and_assoc, BitVec.and_self]

theorem lowKey_mixLow (table : Table) (p : Bytes) : lowKey table (mixLow table p) = lowKey table p :=
  congrArg (getByte table) (xor_and_of_disjoint (by decide))

theorem highKey_mixHigh (table : Table) (p : Bytes) :
    highKey table (mixHigh table p) = highKey table p := by
  have hshift : (p.p0 ^^^ (highKey table p &&& 0x07)) >>> 3 = p.p0 >>> 3 := by
    have hzero : (0x07 : BitVec 8) >>> 3 = 0#8 := by decide
    rw [ushiftRight_xor_distrib, ushiftRight_and_distrib, hzero, and_zero, xor_zero]
  exact congrArg (fun x => getByte table x + 0x25) hshift

theorem mixLow_mixLow (table : Table) (p : Bytes) : mixLow table (mixLow table p) = nibble p := by
  rw [mixLow, lowKey_mixLow]
  exact mix_mix _ _ _

theorem mixHigh_mixHigh (table : Table) (p : Bytes) : mixHigh table (mixHigh table p) = nibble p := by
  rw [mixHigh, highKey_mixHigh]
  exact mix_mix _ _ _

theorem mix_inverse (table : Table) (p : Bytes) :
    mixLow table (mixHigh table (mixHigh table (mixLow table p))) = nibble p := by
  rw [mixHigh_mixHigh, mixLow, mixLow, nibble_mix]
  exact mixLow_mixLow table p

theorem mixHigh_nibble (table : Table) (p : Bytes) : mixHigh table (nibble p) = mixHigh table p :=
  mix_nibble p _ _

theorem getLsbD_toData (p : Bytes) (i : Nat) : (toData p).getLsbD i =
    if i < 8 then p.p0.getLsbD i else if i < 16 then p.p1.getLsbD (i - 8)
    else if i < 24 then p.p2.getLsbD (i - 16) else if i < 32 then p.p3.getLsbD (i - 24)
    else if i < 40 then p.p4.getLsbD (i - 32) else if i < 48 then p.p5.getLsbD (i - 40)
    else if i < 56 then p.p6.getLsbD (i - 48) else p.p7.getLsbD (i - 56) := by
  simp only [toData, getLsbD_append, Nat.sub_sub]
  grind

theorem toData_ofData (d : BitVec 64) : toData (ofData d) = d := by
  refine eq_of_getLsbD_eq fun i hi => ?_
  simp only [getLsbD_toData, ofData, getLsbD_extractLsb']
  grind

theorem ofData_toData (p : Bytes) : ofData (toData p) = p := by
  have hbyte : ∀ (k : Nat) (b : BitVec 8),
      (∀ j < 8, (toData p).getLsbD (k + j) = b.getLsbD j) → (toData p).extractLsb' k 8 = b := by
    intro k b h
    refine eq_of_getLsbD_eq fun j hj => ?_
    rw [getLsbD_extractLsb', decide_eq_true hj, Bool.true_and, h j hj]
  rw [ofData, hbyte 0 p.p0, hbyte 8 p.p1, hbyte 16 p.p2, hbyte 24 p.p3, hbyte 32 p.p4, hbyte 40 p.p5,
    hbyte 48 p.p6, hbyte 56 p.p7]
  all_goals
    intro j hj
    rw [getLsbD_toData]
    grind

theorem ofData_or (x y : BitVec 64) : ofData (x ||| y) =
    ⟨(ofData x).p0 ||| (ofData y).p0, (ofData x).p1 ||| (ofData y).p1,
      (ofData x).p2 ||| (ofData y).p2, (ofData x).p3 ||| (ofData y).p3,
      (ofData x).p4 ||| (ofData y).p4, (ofData x).p5 ||| (ofData y).p5,
      (ofData x).p6 ||| (ofData y).p6, (ofData x).p7 ||| (ofData y).p7⟩ := by
  simp only [ofData, extractLsb'_or]

theorem ofData_button : ∀ byte : BitVec 8, ofData (byte.setWidth 64 <<< 44) =
    ⟨0#8, 0#8, 0#8, 0#8, 0#8, byte <<< 4, byte >>> 4, 0#8⟩ := by
  decide +kernel

theorem ofData_top : ∀ b : BitVec 8, ofData (b.setWidth 64 <<< 48) =
    ⟨0#8, 0#8, 0#8, 0#8, 0#8, 0#8, b, 0#8⟩ := by
  decide

theorem not_or_and (x b : BitVec 8) :
    ~~~ ((b <<< 4) ||| (~~~ x &&& 0x0F#8)) &&& 0x0F#8 = x &&& 0x0F#8 := by
  have hdisjoint : ∀ b : BitVec 8, (b <<< 4) &&& 0x0F#8 = 0#8 := by decide
  have hsplit : ∀ y m : BitVec 8, ~~~ (y ||| (~~~ x &&& m)) &&& m = (x &&& m) &&& ~~~ (y &&& m) := by
    intro y m
    refine eq_of_getElem_eq fun i hi => ?_
    simp only [getElem_and, getElem_not, getElem_or]
    cases x[i] <;> cases y[i] <;> cases m[i] <;> rfl
  rw [hsplit, hdisjoint, not_zero, and_allOnes]

theorem unscramble_code (p : Bytes) (h5 : nibble p = p) (h6 : p.p6 = 0#8) (h7 : p.p7 = 0#8)
    (byte : BitVec 8) :
    nibble (unscramble (ofData ((byte.setWidth 64 <<< 44) ||| toData (scramble p)))) =
      withTop p (byte >>> 4) := by
  have hnibble : p.p5 &&& 0x0F#8 = p.p5 := congrArg Bytes.p5 h5
  have hcode : (unscramble (ofData ((byte.setWidth 64 <<< 44) ||| toData (scramble p)))) =
      { withTop p (byte >>> 4) with p5 := ~~~ ((byte <<< 4) ||| (~~~ p.p5 &&& 0x0F#8)) } := by
    rw [ofData_or, ofData_toData, ofData_button]
    simp only [unscramble, scramble, withTop, zero_or, BitVec.not_not, h6, h7, or_zero]
    rfl
  rw [hcode, nibble]
  change { withTop p (byte >>> 4) with
    p5 := ~~~ ((byte <<< 4) ||| (~~~ p.p5 &&& 0x0F#8)) &&& 0x0F#8 } = _
  rw [not_or_and, hnibble]
  rfl

def encryptRounds (table : Table) (p : Bytes) : Bytes :=
  mixHigh table (mixLow table (swap (mixHigh table (mixLow table p))))

theorem encrypt_eq (plain : BitVec 64) (table : Table) :
    encrypt plain (some table) = toData (scramble (encryptRounds table (ofData plain))) := rfl

theorem decryptRounds (table : Table) (p : Bytes) (b : BitVec 8)
    (h : nibble q = withTop (encryptRounds table p) b) :
    (List.range 2).foldl (decryptRound table) q = withTop (nibble p) b := by
  have hfirst : mixLow table (mixHigh table q) =
      withTop (swap (mixHigh table (mixLow table p))) b := by
    rw [← mixHigh_nibble, h]
    change withTop (mixLow table (mixHigh table (mixHigh table (mixLow table
      (swap (mixHigh table (mixLow table p))))))) b = _
    rw [mix_inverse]
    exact congrArg (withTop · b) (congrArg swap (nibble_mix _ _ _))
  change mixLow table (mixHigh table (swap (mixLow table (mixHigh table q)))) = _
  rw [hfirst]
  exact congrArg (withTop · b) (mix_inverse table p)

theorem decrypt_code (table : Table) (plain : BitVec 64) (byte : BitVec 8)
    (h5 : nibble (ofData plain) = ofData plain) (h6 : (ofData plain).p6 = 0#8)
    (h7 : (ofData plain).p7 = 0#8) :
    decrypt ((byte.setWidth 64 <<< 44) ||| encrypt plain (some table)) (some table) =
      ((byte >>> 4).setWidth 64 <<< 48) ||| plain := by
  have hcode := unscramble_code (encryptRounds table (ofData plain)) (nibble_mix _ _ _) h6 h7 byte
  have hrounds := decryptRounds table (ofData plain) (byte >>> 4) hcode
  have htop : withTop (ofData plain) (byte >>> 4) =
      ofData (((byte >>> 4).setWidth 64 <<< 48) ||| plain) := by
    rw [ofData_or, ofData_top]
    simp only [withTop, zero_or, h6, h7, or_zero]
  rw [encrypt_eq, decrypt, hrounds, h5, htop, toData_ofData]

theorem ofData_plain (serial : BitVec 28) (cnt : BitVec 16) :
    nibble (ofData ((serial.setWidth 64 <<< 16) ||| cnt.setWidth 64)) =
        ofData ((serial.setWidth 64 <<< 16) ||| cnt.setWidth 64) ∧
      (ofData ((serial.setWidth 64 <<< 16) ||| cnt.setWidth 64)).p6 = 0#8 ∧
      (ofData ((serial.setWidth 64 <<< 16) ||| cnt.setWidth 64)).p7 = 0#8 := by
  have hzero : ∀ i, 44 ≤ i →
      ((serial.setWidth 64 <<< 16) ||| cnt.setWidth 64 : BitVec 64).getLsbD i = false := by
    intro i hi
    rw [getLsbD_or, getLsbD_shiftLeft, getLsbD_setWidth,
      getLsbD_setWidth, getLsbD_of_ge serial (i - 16) (by omega),
      getLsbD_of_ge cnt i (by omega)]
    simp
  refine ⟨?_, ?_, ?_⟩
  · refine congrArg (fun b => { ofData ((serial.setWidth 64 <<< 16) ||| cnt.setWidth 64) with
      p5 := b }) (eq_of_getLsbD_eq fun i hi => ?_)
    rw [getLsbD_and]
    by_cases h : i < 4
    · have hmask : ∀ i < 4, (0x0F : BitVec 8).getLsbD i = true := by decide
      rw [hmask i h, Bool.and_true]
      rfl
    · have hbit : (ofData ((serial.setWidth 64 <<< 16) ||| cnt.setWidth 64)).p5.getLsbD i =
          false := by
        rw [ofData, getLsbD_extractLsb', hzero (40 + i) (by omega), Bool.and_false]
      rw [hbit, Bool.false_and]
      exact hbit.symm
  · refine eq_of_getLsbD_eq fun i _ => ?_
    rw [ofData, getLsbD_extractLsb', hzero (48 + i) (by omega), Bool.and_false,
      getLsbD_zero]
  · refine eq_of_getLsbD_eq fun i _ => ?_
    rw [ofData, getLsbD_extractLsb', hzero (56 + i) (by omega), Bool.and_false,
      getLsbD_zero]

theorem setWidth_word {w : Nat} (x : BitVec w) (h : w ≤ 32) :
    (x.setWidth 32).setWidth 64 = x.setWidth 64 := by
  refine eq_of_getLsbD_eq fun i hi => ?_
  rw [getLsbD_setWidth, getLsbD_setWidth, getLsbD_setWidth]
  by_cases hlt : i < 32
  · simp [hlt]
  · simp [getLsbD_of_ge x i (by omega)]

theorem field_eq {w : Nat} (x : BitVec 64) (shift : Nat) (mask : BitVec 64) (f : BitVec w)
    (m : Nat) (hmask : ∀ i < 64, mask.getLsbD i = decide (i < w)) (hm : m ≤ 64)
    (h : ∀ i < w, x.getLsbD (shift + i) = f.getLsbD i) :
    ((x >>> shift) &&& mask).setWidth m = f.setWidth m := by
  refine eq_of_getLsbD_eq fun i hi => ?_
  rw [getLsbD_setWidth, getLsbD_setWidth, getLsbD_and, getLsbD_ushiftRight, hmask i (by omega)]
  by_cases hlt : i < w
  · rw [h i hlt, decide_eq_true hlt, Bool.and_true]
  · rw [decide_eq_false hlt, getLsbD_of_ge f i (by omega), Bool.and_false]

theorem getLsbD_fields (serial : BitVec 28) (cnt : BitVec 16) (btn : BitVec 8) {i : Nat}
    (hi : i < 64) : ((btn.setWidth 64 <<< 48) |||
      ((serial.setWidth 64 <<< 16) ||| cnt.setWidth 64) : BitVec 64).getLsbD i =
      if i < 16 then cnt.getLsbD i else if i < 48 then serial.getLsbD (i - 16)
      else btn.getLsbD (i - 48) := by
  rw [getLsbD_or, getLsbD_or, getLsbD_shiftLeft, getLsbD_shiftLeft,
    getLsbD_setWidth, getLsbD_setWidth, getLsbD_setWidth]
  by_cases h16 : i < 16
  · have h48 : i < 48 := by omega
    simp [h16, h48, hi]
  · rw [getLsbD_of_ge cnt i (by omega), if_neg h16]
    by_cases h48 : i < 48
    · have hlt : i - 16 < 64 := by omega
      simp [h16, h48, hi, hlt]
    · rw [getLsbD_of_ge serial (i - 16) (by omega), if_neg h48]
      have hlt : i - 48 < 64 := by omega
      simp [h48, hi, hlt]

/-- A received code word is taken for the serial number, the counter and the button that it was
made of, whatever is in the table. -/
theorem remoteController_codeWord (table : Table) (serial : BitVec 28) (cnt : BitVec 16)
    (btn n : BitVec 4) :
    remoteController (codeWord (serial.setWidth 32) (cnt.setWidth 32) (btn.setWidth 8)
      (n.setWidth 8) (some table)) (some table) =
      ⟨serial.setWidth 32, cnt.setWidth 32, btn.setWidth 8⟩ := by
  have hbyte : ∀ btn n : BitVec 4,
      ((btn.setWidth 8 <<< 4) ||| (0xF ^^^ btn.setWidth 8 ^^^ n.setWidth 8)) >>> 4 =
        btn.setWidth 8 := by
    decide
  obtain ⟨h5, h6, h7⟩ := ofData_plain serial cnt
  have hdecrypt := decrypt_code table _ ((btn.setWidth 8 <<< 4) |||
    (0xF ^^^ btn.setWidth 8 ^^^ n.setWidth 8)) h5 h6 h7
  rw [hbyte] at hdecrypt
  rw [remoteController, codeWord, setWidth_word serial (by decide), setWidth_word cnt (by decide),
    hdecrypt]
  have hserial := field_eq (((btn.setWidth 8).setWidth 64 <<< 48) |||
    ((serial.setWidth 64 <<< 16) ||| cnt.setWidth 64)) 16 0xFFFFFFF serial 32 (by decide)
    (by decide) fun i hi => by
      rw [getLsbD_fields _ _ _ (by omega), if_neg (by omega), if_pos (by omega)]
      congr 1
      omega
  have hcnt := field_eq (((btn.setWidth 8).setWidth 64 <<< 48) |||
    ((serial.setWidth 64 <<< 16) ||| cnt.setWidth 64)) 0 0xFFFF cnt 32 (by decide)
    (by decide) fun i hi => by
      rw [getLsbD_fields _ _ _ (by omega), if_pos (by omega), Nat.zero_add]
  have hbtn := field_eq (((btn.setWidth 8).setWidth 64 <<< 48) |||
    ((serial.setWidth 64 <<< 16) ||| cnt.setWidth 64)) 48 0xF btn 8 (by decide)
    (by decide) fun i hi => by
      rw [getLsbD_fields _ _ _ (by omega), if_neg (by omega), if_neg (by omega),
        Nat.add_sub_cancel_left, getLsbD_setWidth, decide_eq_true (by omega), Bool.true_and]
  rw [ushiftRight_zero] at hcnt
  rw [hserial, hcnt, hbtn]

end NiceFlorS

end NikitaFirmware.SubGhz
