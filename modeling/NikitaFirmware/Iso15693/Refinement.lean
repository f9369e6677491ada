import NikitaFirmware.Foundations.BlockStore
import NikitaFirmware.Foundations.Machine
import NikitaFirmware.Iso15693.Listener

/-!
# Emulated cards as stores of blocks

A card is a store of as many blocks as its system information declares. A request that meets
`Regular` is carried out on the store, or it is refused for a reason and the card stays as it is.
The other requests are those for several blocks that the handlers of single blocks would refuse or
take from elsewhere, and those for the blocks of a card whose blocks are empty.
-/

namespace NikitaFirmware.Iso15693
open Nfc Foundations List

namespace Card

def blockAt (c : Card) (i : Nat) : List Byte := (c.blockData.drop (i * c.blockSize)).take c.blockSize

def lockedAt (c : Card) (i : Nat) : Bool := c.blockSecurity.getD i 0 != 0

def view (c : Card) : BlockStore (List Byte) where
  count := c.blockCount
  block := c.blockAt
  locked := c.lockedAt

variable {c c' : Card} {i j n : Nat} {tx : BitBuffer} {cs bytes : List Byte}

theorem offset_lt (hi : i < c.blockCount) (hsize : c.blockSize ≠ 0) :
    i * c.blockSize + c.blockSize ≤ c.blockData.length ∧ i * c.blockSize < c.blockData.length := by
  have hmul : (i + 1) * c.blockSize ≤ c.blockCount * c.blockSize := Nat.mul_le_mul_right _ hi
  rw [Nat.succ_mul] at hmul
  rw [c.length_blockData]
  omega

theorem length_security (hsize : c.blockSize ≠ 0) : c.blockSecurity.length = c.blockCount := by
  rw [c.length_blockSecurity, if_neg hsize]

theorem length_blockAt (hi : i < c.blockCount) : (c.blockAt i).length = c.blockSize := by
  by_cases hsize : c.blockSize = 0
  · rw [blockAt, hsize, take_zero]
    rfl
  · have h := offset_lt hi hsize
    rw [blockAt, length_take, length_drop]
    omega

theorem isBlockLocked_eq (hi : i < c.blockCount) (hbyte : i < 256) :
    c.isBlockLocked i = some (c.lockedAt i) := by
  rw [isBlockLocked, Nat.mod_eq_of_lt hbyte, if_neg (by omega)]
  by_cases hsize : c.blockSize = 0
  · have hlen : c.blockSecurity.length = 0 := by rw [c.length_blockSecurity, if_pos hsize]
    rw [if_pos hlen, lockedAt, eq_nil_of_length_eq_zero hlen]
    rfl
  · have hlen := length_security hsize
    rw [if_neg (by omega), getElem?_eq_getElem (by omega), lockedAt, getD_eq_getElem?_getD,
      getElem?_eq_getElem (by omega)]
    rfl

theorem appendBlock_holds (hi : i < c.blockCount) (hbyte : i < 256) (hsize : c.blockSize ≠ 0)
    (h : tx.Holds n cs) (hle : cs.length + c.blockSize ≤ n) :
    ∃ tx', c.appendBlock i tx = some tx' ∧ tx'.Holds n (cs ++ c.blockAt i) := by
  have hlt := (offset_lt hi hsize).2
  obtain ⟨tx', htx, hholds⟩ := h.appendBytes (c.blockAt i) (by rw [length_blockAt hi]; exact hle)
  refine ⟨tx', ?_, hholds⟩
  rw [appendBlock, Nat.mod_eq_of_lt hbyte, if_neg (by omega)]
  exact htx

theorem appendBlockSecurity_holds (hi : i < c.blockCount) (hbyte : i < 256) (hsize : c.blockSize ≠ 0)
    (h : tx.Holds n cs) (hlt : cs.length < n) :
    ∃ tx', c.appendBlockSecurity i tx = some tx' ∧
      tx'.Holds n (cs ++ [c.blockSecurity.getD i 0]) := by
  have hlen := length_security hsize
  obtain ⟨tx', htx, hholds⟩ := h.appendByte hlt (c.blockSecurity.getD i 0)
  refine ⟨tx', ?_, hholds⟩
  rw [appendBlockSecurity, Nat.mod_eq_of_lt hbyte, getElem?_eq_getElem (by omega),
    Option.bind_some, ← htx, getD_eq_getElem?_getD, getElem?_eq_getElem (by omega)]
  rfl

theorem mul_add_le (h : i < j) (size : Nat) : i * size + size ≤ j * size := by
  have hmul : (i + 1) * size ≤ j * size := Nat.mul_le_mul_right _ h
  rwa [Nat.succ_mul] at hmul

theorem view_setBlockData (h : c.setBlockData i bytes = some c') (hbyte : i < 256)
    (hlen : bytes.length = c.blockSize) : c'.view = c.view.write i [bytes] := by
  simp only [setBlockData, Nat.mod_eq_of_lt hbyte] at h
  split at h
  case isFalse => cases h
  case isTrue hfits =>
    have hi : i * c.blockSize ≤ c.blockData.length := hfits.1.le
    obtain rfl := Option.some.inj h
    apply BlockStore.ext
    · rfl
    · intro j
      change ((memcpy c.blockData (i * c.blockSize) bytes).drop (j * c.blockSize)).take c.blockSize = _
      rcases Nat.lt_trichotomy j i with hji | rfl | hji
      · have hle := mul_add_le hji c.blockSize
        refine Eq.trans ?_ (BlockStore.write_block_of_lt hji).symm
        apply ext_getElem?
        intro k
        change _ = ((c.blockData.drop (j * c.blockSize)).take c.blockSize)[k]?
        rw [getElem?_take, getElem?_take]
        split
        · rw [getElem?_drop, getElem?_drop, BitBuffer.getElem?_memcpy_of_lt hi (by omega)]
        · rfl
      · have hblock : (c.view.write j [bytes]).block j = bytes := by
          change (if j ≤ j then ([bytes][j - j]?).getD _ else _) = bytes
          rw [if_pos (Nat.le_refl j), Nat.sub_self]
          rfl
        rw [hblock, ← hlen]
        rw [← hlen] at hi
        exact BitBuffer.drop_take_memcpy hi
      · have hle := mul_add_le hji c.blockSize
        refine Eq.trans ?_ (BlockStore.write_block_of_le hji).symm
        apply ext_getElem?
        intro k
        change _ = ((c.blockData.drop (j * c.blockSize)).take c.blockSize)[k]?
        rw [getElem?_take, getElem?_take]
        split
        · rw [getElem?_drop, getElem?_drop, BitBuffer.getElem?_memcpy_of_le hi (by omega)]
        · rfl
    · intro j
      rfl

theorem setBlockData_isSome (hi : i < c.blockCount) (hbyte : i < 256) (hsize : c.blockSize ≠ 0)
    (hlen : bytes.length = c.blockSize) :
    ∃ c', c.setBlockData i bytes = some c' ∧ c'.blockCount = c.blockCount ∧
      c'.blockSize = c.blockSize := by
  have h := offset_lt hi hsize
  refine ⟨{ c with blockData := memcpy c.blockData (i * c.blockSize) bytes, length_blockData := ?_ },
    ?_, rfl, rfl⟩
  · rw [BitBuffer.length_memcpy (by omega), c.length_blockData]
  · simp only [setBlockData, Nat.mod_eq_of_lt hbyte]
    exact dif_pos ⟨h.2, by omega⟩

theorem setBlockLocked_isSome (hi : i < c.blockCount) (hbyte : i < 256) (hsize : c.blockSize ≠ 0) :
    ∃ c', c.setBlockLocked i = some c' ∧ c'.view = c.view.lock i ∧ c'.blockSize = c.blockSize := by
  have hlen := length_security hsize
  refine ⟨{ c with blockSecurity := c.blockSecurity.set i 1, length_blockSecurity := ?_ },
    ?_, ?_, rfl⟩
  · rw [length_set, c.length_blockSecurity]
  · simp only [setBlockLocked, Nat.mod_eq_of_lt hbyte]
    exact if_neg (by omega)
  · apply BlockStore.ext
    · rfl
    · intro j
      rfl
    · intro j
      change ((c.blockSecurity.set i 1).getD j 0 != 0) = Function.update c.lockedAt i true j
      by_cases hij : j = i
      · rw [hij, Function.update_self, getD_eq_getElem?_getD, getElem?_set_self (by omega)]
        rfl
      · rw [Function.update_of_ne hij, getD_eq_getElem?_getD,
          getElem?_set_ne (Ne.symm hij), ← getD_eq_getElem?_getD]
        rfl

/-- A block of an answer, after its security byte if that is asked for. -/
def encodeBlock (c : Card) (option : Bool) (i : Nat) (block : List Byte) : List Byte :=
  (if option then [c.blockSecurity.getD i 0] else []) ++ block

end Card

namespace Request

def chunk (r : Request) (offset size : Nat) : List Byte := (r.data.drop offset).take size

/-- The payloads of a request for several blocks stand one after the other. -/
def payloads (r : Request) (blockSize : Nat) : List (List Byte) :=
  (range (r.byte 1 + 1)).map fun j => r.chunk (2 + blockSize * j) blockSize

def meaning (r : Request) (blockSize : Nat) : BlockStore.Request (List Byte) :=
  match r.command with
  | .readBlock => .read (r.byte 0) 1
  | .writeBlock => .write (r.byte 0) [r.chunk 1 (r.size - 1)]
  | .lockBlock => .lock (r.byte 0)
  | .readMultiBlocks => .read (r.byte 0) (r.byte 1 + 1)
  | .writeMultiBlocks => .write (r.byte 0) (r.payloads blockSize)
  | .getBlocksSecurity => .security (r.byte 0) (r.byte 1 + 1)

/-- The size of the request is the one of its command, and its answer fits into the buffer. -/
def Fits (r : Request) (c : Card) : Prop :=
  match r.command with
  | .readBlock => r.size = 1
  | .writeBlock => 1 < r.size ∧ r.size - 1 = c.blockSize
  | .lockBlock => r.size = 1
  | .readMultiBlocks =>
    r.size = 2 ∧ (r.byte 1 + 1) * ((if r.option then 1 else 0) + c.blockSize) ≤ Listener.bufferSize - 3
  | .writeMultiBlocks => 2 < r.size ∧ (r.size - 2) / (r.byte 1 + 1) = c.blockSize
  | .getBlocksSecurity => 2 ≤ r.size

def encode (r : Request) (c : Card) : BlockStore.Answer (List Byte) → List Byte
  | .blocks bs => 0 :: (bs.zipIdx (r.byte 0)).flatMap fun p => c.encodeBlock r.option p.2 p.1
  | .bits locked => 0 :: locked.map fun b => if b then 1 else 0
  | .done => [0]

theorem byte_lt (r : Request) (i : Nat) : r.byte i < 256 := (r.data.getD i 0).toNat_lt

end Request

namespace Listener

variable {l : Listener} {r : Request} {o : Outcome} {h : Handled} {c c' : Card} {tx : BitBuffer}
  {cs : List Byte} {first n : Nat}

/-- The store carries the request out, and its answer is the one that is given. -/
def Carried (c : Card) (r : Request) (o : Outcome) : Prop :=
  ∃ a, c.view.Step (r.meaning c.blockSize) a o.listener.card.view ∧ o.answer = some (r.encode c a)

def Unfit (c : Card) (r : Request) : Prop :=
  ¬ r.Fits c ∨ ∀ a m, ¬ c.view.Step (r.meaning c.blockSize) a m

/-- There is no answer or that of an error, and the card stays as it is. -/
structure Refused (c : Card) (r : Request) (o : Outcome) : Prop where
  reason : Unfit c r
  answer : o.answer = none ∨ o.answer = some [0x01, 0x0F]
  card : o.listener.card = c

def Refined (l : Listener) (r : Request) : Prop :=
  ∃ o, l.handleRequest r = some o ∧ o.listener.card.blockSize = l.card.blockSize ∧
    (Carried l.card r o ∨ Refused l.card r o)

theorem forall_range' {P : Nat → Prop} : (∀ i ∈ range' first n, P i) ↔
    ∀ i, first ≤ i → i < first + n → P i := by
  refine forall_congr' fun i => ?_
  rw [mem_range'_1]
  exact and_imp

theorem blockRange_eq (first n : Nat) : blockRange first (first + n) = range' first (n + 1) := by
  rw [blockRange]
  congr 1
  omega

theorem appendSecurityIf_holds (option : Bool) {i : Nat} (hi : i < c.blockCount) (hbyte : i < 256)
    (hsize : c.blockSize ≠ 0) (htx : tx.Holds n cs) (hlt : cs.length < n) :
    ∃ tx', appendSecurityIf c option i tx = some tx' ∧
      tx'.Holds n (cs ++ if option then [c.blockSecurity.getD i 0] else []) := by
  cases option with
  | false => exact ⟨tx, rfl, by simpa using htx⟩
  | true => exact Card.appendBlockSecurity_holds hi hbyte hsize htx hlt

theorem appendBlocks_holds (option : Bool) (hsize : c.blockSize ≠ 0) (is : List Nat)
    (his : ∀ i ∈ is, i < c.blockCount ∧ i < 256) (htx : tx.Holds n cs)
    (hle : cs.length + is.length * ((if option then 1 else 0) + c.blockSize) ≤ n) :
    ∃ tx', appendBlocks c option is tx = some tx' ∧
      tx'.Holds n (cs ++ is.flatMap fun i => c.encodeBlock option i (c.blockAt i)) := by
  induction is generalizing tx cs with
  | nil => exact ⟨tx, rfl, by simpa using htx⟩
  | cons i is ih =>
    obtain ⟨⟨hi, hbyte⟩, his⟩ := forall_mem_cons.mp his
    rw [length_cons, Nat.succ_mul] at hle
    obtain ⟨tx₁, h₁, hholds₁⟩ :=
      appendSecurityIf_holds option hi hbyte hsize htx (by omega)
    have hlen : (cs ++ if option then [c.blockSecurity.getD i 0] else []).length =
        cs.length + if option then 1 else 0 := by
      cases option <;> simp
    obtain ⟨tx₂, h₂, hholds₂⟩ := Card.appendBlock_holds hi hbyte hsize hholds₁ (by omega)
    have hlen₂ := hholds₂.length_le
    obtain ⟨tx₃, h₃, hholds₃⟩ := ih his hholds₂ (by
      rw [length_append, hlen, Card.length_blockAt hi]
      omega)
    refine ⟨tx₃, ?_, ?_⟩
    · rw [appendBlocks, h₁, Option.bind_some, h₂, Option.bind_some, h₃]
    · rw [flatMap_cons, Card.encodeBlock]
      simpa using hholds₃

theorem anyLocked_eq (is : List Nat) (his : ∀ i ∈ is, i < c.blockCount ∧ i < 256) :
    anyLocked c is = some (is.any c.lockedAt) := by
  induction is with
  | nil => rfl
  | cons i is ih =>
    obtain ⟨⟨hi, hbyte⟩, his⟩ := forall_mem_cons.mp his
    rw [anyLocked, Card.isBlockLocked_eq hi hbyte, Option.bind_some, ih his, any_cons]
    cases c.lockedAt i <;> rfl

theorem appendLocks_holds (is : List Nat) (his : ∀ i ∈ is, i < c.blockCount ∧ i < 256)
    (htx : tx.Holds n cs) (hle : cs.length + is.length ≤ n) :
    ∃ tx', appendLocks c is tx = some tx' ∧
      tx'.Holds n (cs ++ is.map fun i => if c.lockedAt i then 1 else 0) := by
  induction is generalizing tx cs with
  | nil => exact ⟨tx, rfl, by simpa using htx⟩
  | cons i is ih =>
    obtain ⟨⟨hi, hbyte⟩, his⟩ := forall_mem_cons.mp his
    rw [length_cons] at hle
    obtain ⟨tx₁, h₁, hholds₁⟩ := htx.appendByte (by omega) (if c.lockedAt i then 1 else 0)
    obtain ⟨tx₂, h₂, hholds₂⟩ := ih his hholds₁ (by
      rw [length_append, length_singleton]
      omega)
    refine ⟨tx₂, ?_, ?_⟩
    · rw [appendLocks, Card.isBlockLocked_eq hi hbyte, Option.bind_some, h₁, Option.bind_some, h₂]
    · rw [map_cons]
      simpa using hholds₂

theorem setBlocks_view (k m : Nat) (hsize : c.blockSize ≠ 0) (hcount : k + m ≤ c.blockCount)
    (hbyte : k + m ≤ 256) (hdata : 2 + c.blockSize * (k + m) ≤ r.data.length) :
    ∃ c', setBlocks r (range' k m) c = some c' ∧ c'.blockSize = c.blockSize ∧
      c'.view = c.view.write k
        ((range' k m).map fun i => r.chunk (2 + c.blockSize * i) c.blockSize) := by
  induction m generalizing k c with
  | zero => exact ⟨c, rfl, rfl, BlockStore.write_nil.symm⟩
  | succ m ih =>
    have hmul : c.blockSize * k + c.blockSize ≤ c.blockSize * (k + (m + 1)) := by
      rw [← Nat.mul_succ]
      exact Nat.mul_le_mul_left _ (by omega)
    have hlen : (r.chunk (2 + c.blockSize * k) c.blockSize).length = c.blockSize := by
      rw [Request.chunk, length_take, length_drop]
      omega
    have hpay : payload r (2 + c.blockSize * k) c.blockSize =
        some (r.chunk (2 + c.blockSize * k) c.blockSize) :=
      if_neg (by omega)
    obtain ⟨c₁, h₁, hcount₁, hsize₁⟩ :=
      Card.setBlockData_isSome (show k < c.blockCount by omega) (by omega) hsize hlen
    have hview₁ := Card.view_setBlockData h₁ (by omega) hlen
    have hsum : k + 1 + m = k + (m + 1) := by omega
    obtain ⟨c₂, h₂, hsize₂, hview₂⟩ := ih (c := c₁) (k + 1) (by rw [hsize₁]; exact hsize)
      (by omega) (by omega) (by rw [hsize₁, hsum]; exact hdata)
    refine ⟨c₂, ?_, hsize₂.trans hsize₁, ?_⟩
    · rw [range'_succ, setBlocks, hpay, Option.bind_some, h₁, Option.bind_some, h₂]
    · rw [hview₂, hview₁, hsize₁, range'_succ, map_cons, ← BlockStore.write_cons]

theorem encode_blocks (r : Request) (c : Card) (m : Nat) :
    r.encode c (.blocks ((range' (r.byte 0) m).map c.blockAt)) =
      0 :: (range' (r.byte 0) m).flatMap fun i => c.encodeBlock r.option i (c.blockAt i) := by
  have hzip : ∀ k, ((range' k m).map c.blockAt).zipIdx k =
      (range' k m).map fun i => (c.blockAt i, i) := by
    induction m with
    | zero => exact fun _ => rfl
    | succ m ih =>
      intro k
      rw [range'_succ, map_cons, zipIdx_cons, ih, map_cons]
  rw [Request.encode, hzip, flatMap_map]

/-- The state of the card lets the handler of a command do what the others do. -/
def RegularFor (c : Card) (r : Request) : Command → Prop
  | .readBlock | .lockBlock => r.size = 1 → r.byte 0 < c.blockCount → c.blockSize ≠ 0
  | .writeBlock => True
  | .readMultiBlocks => r.size = 2 → bytesPerBlock c r ≠ 0 ∧
    (readCount c r ≤ (bufferSize - 3) / bytesPerBlock c r →
      r.byte 0 + r.byte 1 < c.blockCount ∧ r.byte 0 + r.byte 1 < 256 ∧ c.blockSize ≠ 0)
  | .writeMultiBlocks => 2 < r.size → r.byte 1 + 1 ≤ sub32 c.blockCount (r.byte 0) →
    (r.size - 2) / (r.byte 1 + 1) = c.blockSize →
      r.byte 0 ≤ c.blockCount ∧ r.byte 0 + r.byte 1 < 256 ∧ c.blockSize ≠ 0 ∧
        (r.byte 0 = 0 ∨ (range' (r.byte 0) (r.byte 1 + 1)).any c.lockedAt = true)
  | .getBlocksSecurity =>
    2 ≤ r.size → r.byte 0 + r.byte 1 < c.blockCount → r.byte 0 + r.byte 1 < 256

instance (c : Card) (r : Request) : ∀ command, Decidable (RegularFor c r command)
  | .readBlock => inferInstanceAs (Decidable (_ → _ → _))
  | .writeBlock => inferInstanceAs (Decidable True)
  | .lockBlock => inferInstanceAs (Decidable (_ → _ → _))
  | .readMultiBlocks => inferInstanceAs (Decidable (_ → _ ∧ (_ → _ ∧ _ ∧ _)))
  | .writeMultiBlocks => inferInstanceAs (Decidable (_ → _ → _ → _ ∧ _ ∧ _ ∧ (_ ∨ _)))
  | .getBlocksSecurity => inferInstanceAs (Decidable (_ → _ → _))

/-- A range of blocks is read only if the memory has all of it, it is written only from the first
block on, and neither goes past the numbers of a byte. A block that is read or locked has bytes. -/
def Regular (l : Listener) (r : Request) : Prop := RegularFor l.card r r.command

instance (l : Listener) (r : Request) : Decidable (l.Regular r) :=
  inferInstanceAs (Decidable (RegularFor l.card r r.command))

/-- What a handler leaves behind is the store's answer, or an error and its reason. -/
inductive Served (c : Card) (r : Request) : Handled → Prop
  | carried {l : Listener} {tx : BitBuffer} (a : BlockStore.Answer (List Byte))
      (step : c.view.Step (r.meaning c.blockSize) a l.card.view)
      (size : l.card.blockSize = c.blockSize) (holds : tx.Holds bufferSize (r.encode c a))
      (room : (r.encode c a).length + 2 ≤ bufferSize) : Served c r ⟨none, l, tx⟩
  | refused {e : Error} {l : Listener} {tx : BitBuffer} (reason : Unfit c r) (card : l.card = c)
      (capacity : tx.capacityBytes = bufferSize) : Served c r ⟨some e, l, tx⟩

theorem unfit_of_step {q : BlockStore.Request (List Byte)} (hq : r.meaning c.blockSize = q)
    (hno : ∀ a m, ¬ c.view.Step q a m) : Unfit c r :=
  Or.inr fun a m hstep => hno a m (hq ▸ hstep)

theorem readBlockHandler_served (hcmd : r.command = .readBlock)
    (hreg : RegularFor l.card r .readBlock) (htx : tx.Holds bufferSize [0]) :
    ∃ h, l.readBlockHandler r tx = some h ∧ Served l.card r h := by
  have hmeaning : r.meaning l.card.blockSize = .read (r.byte 0) 1 := by rw [Request.meaning, hcmd]
  by_cases hsize : r.size = 1
  · by_cases hi : r.byte 0 < l.card.blockCount
    · have hbyte := r.byte_lt 0
      have hblock := hreg hsize hi
      have hlt := l.card.blockSize_lt
      obtain ⟨tx₁, h₁, hholds₁⟩ :=
        appendSecurityIf_holds r.option hi hbyte hblock htx (show 1 < 1027 by omega)
      have hle : ([0] ++ if r.option then [l.card.blockSecurity.getD (r.byte 0) 0] else []).length ≤
          2 := by
        cases r.option <;> simp
      obtain ⟨tx₂, h₂, hholds₂⟩ := Card.appendBlock_holds hi hbyte hblock hholds₁
        (show _ ≤ 1027 by omega)
      have hencode : r.encode l.card (.blocks [l.card.blockAt (r.byte 0)]) =
          [0] ++ (if r.option then [l.card.blockSecurity.getD (r.byte 0) 0] else []) ++
            l.card.blockAt (r.byte 0) := by
        rw [Request.encode]
        simp [Card.encodeBlock]
      refine ⟨⟨none, l, tx₂⟩, ?_, .carried (.blocks [l.card.blockAt (r.byte 0)]) ?_ rfl ?_ ?_⟩
      · rw [readBlockHandler, if_neg (not_not_intro hsize), if_neg (Nat.not_le.mpr hi)]
        change (appendSecurityIf _ _ _ _).bind _ = _
        rw [h₁, Option.bind_some]
        change (l.card.appendBlock _ _).bind _ = _
        rw [h₂, Option.bind_some]
        rfl
      · rw [hmeaning]
        exact .read hi
      · rw [hencode]
        exact hholds₂
      · rw [hencode, length_append, Card.length_blockAt hi]
        change _ ≤ 1027
        omega
    · refine ⟨l.fail .internal tx, ?_, .refused ?_ rfl htx.capacity⟩
      · rw [readBlockHandler, if_neg (not_not_intro hsize), if_pos (Nat.not_lt.mp hi)]
      · refine unfit_of_step hmeaning fun a m hstep => ?_
        cases hstep with
        | read hle => exact hi hle
  · refine ⟨l.fail .format tx, if_pos hsize, .refused (.inl ?_) rfl htx.capacity⟩
    rw [Request.Fits, hcmd]
    exact hsize

theorem writeBlockHandler_served (hcmd : r.command = .writeBlock) (htx : tx.Holds bufferSize [0]) :
    ∃ h, l.writeBlockHandler r tx = some h ∧ Served l.card r h := by
  have hmeaning : r.meaning l.card.blockSize = .write (r.byte 0) [r.chunk 1 (r.size - 1)] := by
    rw [Request.meaning, hcmd]
  have hfits : r.Fits l.card ↔ 1 < r.size ∧ r.size - 1 = l.card.blockSize := by
    rw [Request.Fits, hcmd]
  by_cases hsize : r.size ≤ 1
  · refine ⟨_, if_pos hsize, .refused (.inl ?_) rfl htx.capacity⟩
    rw [hfits]
    omega
  by_cases hi : r.byte 0 < l.card.blockCount
  swap
  · refine ⟨_, (if_neg hsize).trans (if_pos (Nat.not_lt.mp hi)), .refused ?_ rfl htx.capacity⟩
    refine unfit_of_step hmeaning fun a m hstep => ?_
    cases hstep with
    | write hle hfree => exact hi hle
  by_cases hblock : r.size - 1 = l.card.blockSize
  swap
  · refine ⟨_, (if_neg hsize).trans ((if_neg (Nat.not_le.mpr hi)).trans (if_pos hblock)),
      .refused (.inl ?_) rfl htx.capacity⟩
    rw [hfits]
    exact fun h => hblock h.2
  have hbyte := r.byte_lt 0
  have hlocked := Card.isBlockLocked_eq hi hbyte
  have hpre : l.writeBlockHandler r tx = (l.card.isBlockLocked (r.byte 0)).bind fun locked =>
      if locked then some ({ l with waitForEof := r.option }.fail .internal tx)
      else (l.card.setBlockData (r.byte 0) (r.chunk 1 (r.size - 1))).bind fun c =>
        some ⟨none, ⟨c, r.option⟩, tx⟩ :=
    (if_neg hsize).trans ((if_neg (Nat.not_le.mpr hi)).trans (if_neg (not_not_intro hblock)))
  rw [hpre, hlocked, Option.bind_some]
  cases hfree : l.card.lockedAt (r.byte 0) with
  | true =>
    refine ⟨_, rfl, .refused ?_ rfl htx.capacity⟩
    refine unfit_of_step hmeaning fun a m hstep => ?_
    cases hstep with
    | write hle hf =>
      exact absurd ((hf (r.byte 0) (Nat.le_refl _) (Nat.lt_succ_self _)).symm.trans hfree) (by simp)
  | false =>
    have hsz := r.size_le
    have hlen : (r.chunk 1 (r.size - 1)).length = l.card.blockSize := by
      rw [Request.chunk, length_take, length_drop]
      omega
    obtain ⟨c', h', -, hsize'⟩ := Card.setBlockData_isSome hi hbyte (by omega) hlen
    have hview := Card.view_setBlockData h' hbyte hlen
    refine ⟨⟨none, ⟨c', r.option⟩, tx⟩, ?_, .carried .done ?_ hsize' htx (show 3 ≤ 1027 by omega)⟩
    · change (l.card.setBlockData _ _).bind _ = _
      rw [h', Option.bind_some]
    · rw [hmeaning]
      change BlockStore.Step _ _ _ c'.view
      rw [hview]
      refine .write hi fun i hle hlt => ?_
      have hieq : i = r.byte 0 := Nat.le_antisymm (Nat.lt_succ_iff.mp hlt) hle
      rw [hieq]
      exact hfree

theorem lockBlockHandler_served (hcmd : r.command = .lockBlock)
    (hreg : RegularFor l.card r .lockBlock) (htx : tx.Holds bufferSize [0]) :
    ∃ h, l.lockBlockHandler r tx = some h ∧ Served l.card r h := by
  have hmeaning : r.meaning l.card.blockSize = .lock (r.byte 0) := by rw [Request.meaning, hcmd]
  by_cases hsize : r.size = 1
  swap
  · refine ⟨_, if_pos hsize, .refused (.inl ?_) rfl htx.capacity⟩
    rw [Request.Fits, hcmd]
    exact hsize
  by_cases hi : r.byte 0 < l.card.blockCount
  swap
  · refine ⟨_, (if_neg (not_not_intro hsize)).trans (if_pos (Nat.not_lt.mp hi)),
      .refused ?_ rfl htx.capacity⟩
    refine unfit_of_step hmeaning fun a m hstep => ?_
    cases hstep with
    | lock hlt hfree => exact hi hlt
  have hbyte := r.byte_lt 0
  have hpre : l.lockBlockHandler r tx = (l.card.isBlockLocked (r.byte 0)).bind fun locked =>
      if locked then some ({ l with waitForEof := r.option }.fail .internal tx)
      else (l.card.setBlockLocked (r.byte 0)).bind fun c => some ⟨none, ⟨c, r.option⟩, tx⟩ :=
    (if_neg (not_not_intro hsize)).trans (if_neg (Nat.not_le.mpr hi))
  rw [hpre, Card.isBlockLocked_eq hi hbyte, Option.bind_some]
  cases hfree : l.card.lockedAt (r.byte 0) with
  | true =>
    refine ⟨_, rfl, .refused ?_ rfl htx.capacity⟩
    refine unfit_of_step hmeaning fun a m hstep => ?_
    cases hstep with
    | lock hlt hf => cases hf.symm.trans hfree
  | false =>
    obtain ⟨c', h', hview, hsize'⟩ := Card.setBlockLocked_isSome hi hbyte (hreg hsize hi)
    refine ⟨⟨none, ⟨c', r.option⟩, tx⟩, ?_, .carried .done ?_ hsize' htx (show 3 ≤ 1027 by omega)⟩
    · change (l.card.setBlockLocked _).bind _ = _
      rw [h', Option.bind_some]
    · rw [hmeaning]
      change BlockStore.Step _ _ _ c'.view
      rw [hview]
      exact .lock hi hfree

theorem sub32_of_le {a b : Nat} (h : b ≤ a) (ha : a < 4294967296) : sub32 a b = a - b := by
  rw [sub32]
  omega

theorem readCount_eq (hlt : r.byte 0 + r.byte 1 < c.blockCount) :
    readEnd c r = r.byte 0 + r.byte 1 ∧ readCount c r = r.byte 1 + 1 := by
  have hcount := c.blockCount_lt
  have hend : readEnd c r = r.byte 0 + r.byte 1 := by
    rw [readEnd, sub32_of_le (by omega) (by omega)]
    exact Nat.min_eq_left (by omega)
  refine ⟨hend, ?_⟩
  rw [readCount, hend, sub32_of_le (by omega) (by omega)]
  omega

theorem readMultiBlocksHandler_served (hcmd : r.command = .readMultiBlocks)
    (hreg : RegularFor l.card r .readMultiBlocks) (htx : tx.Holds bufferSize [0]) :
    ∃ h, l.readMultiBlocksHandler r tx = some h ∧ Served l.card r h := by
  have hmeaning : r.meaning l.card.blockSize = .read (r.byte 0) (r.byte 1 + 1) := by
    rw [Request.meaning, hcmd]
  have hfits : r.Fits l.card ↔ r.size = 2 ∧
      (r.byte 1 + 1) * ((if r.option then 1 else 0) + l.card.blockSize) ≤ 1024 := by
    rw [Request.Fits, hcmd]
    rfl
  by_cases hsize : r.size = 2
  swap
  · refine ⟨_, if_pos hsize, .refused (.inl ?_) rfl htx.capacity⟩
    rw [hfits]
    exact fun h => hsize h.1
  obtain ⟨hbpb, hrange⟩ := hreg hsize
  -- the byte does not overflow: it would be zero
  have hnowrap : bytesPerBlock l.card r = (if r.option then 1 else 0) + l.card.blockSize := by
    have hlt := l.card.blockSize_lt
    rw [bytesPerBlock] at hbpb ⊢
    cases hopt : r.option <;> simp only [hopt, Bool.false_eq_true, if_true, if_false] at hbpb ⊢ <;>
      omega
  have hpre : l.readMultiBlocksHandler r tx =
      if (bufferSize - 3) / bytesPerBlock l.card r < readCount l.card r then
        some (l.fail .ignore tx)
      else (appendBlocks l.card r.option (blockRange (r.byte 0) (readEnd l.card r)) tx).map
        fun tx => ⟨none, l, tx⟩ := by
    rw [readMultiBlocksHandler, if_neg (not_not_intro hsize), if_neg hbpb, htx.capacity]
    rfl
  rw [hpre]
  by_cases hroom : (bufferSize - 3) / bytesPerBlock l.card r < readCount l.card r
  · refine ⟨_, if_pos hroom, .refused ?_ rfl htx.capacity⟩
    by_cases hlt : r.byte 0 + r.byte 1 < l.card.blockCount
    · refine .inl fun hfit => ?_
      have hle := (hfits.mp hfit).2
      rw [(readCount_eq hlt).2] at hroom
      rw [← hnowrap, ← Nat.le_div_iff_mul_le (Nat.pos_of_ne_zero hbpb)] at hle
      exact absurd hle (Nat.not_le.mpr hroom)
    · refine unfit_of_step hmeaning fun a m hstep => ?_
      cases hstep with
      | read hle => exact hlt hle
  · obtain ⟨hlt, hbyte, hblock⟩ := hrange (Nat.not_lt.mp hroom)
    obtain ⟨hend, hcount⟩ := readCount_eq hlt
    have hle : (r.byte 1 + 1) * ((if r.option then 1 else 0) + l.card.blockSize) ≤ 1024 := by
      rw [hcount] at hroom
      rw [← hnowrap, ← Nat.le_div_iff_mul_le (Nat.pos_of_ne_zero hbpb)]
      exact Nat.not_lt.mp hroom
    have hlen : (range' (r.byte 0) (r.byte 1 + 1)).length = r.byte 1 + 1 := length_range'
    obtain ⟨tx', happ, hholds⟩ := appendBlocks_holds r.option hblock
      (range' (r.byte 0) (r.byte 1 + 1))
      (forall_range'.mpr fun i _ hi => ⟨by omega, by omega⟩) htx (by
        rw [hlen]
        change 1 + _ ≤ 1027
        omega)
    have hencode := encode_blocks r l.card (r.byte 1 + 1)
    refine ⟨⟨none, l, tx'⟩, ?_, .carried
      (.blocks ((range' (r.byte 0) (r.byte 1 + 1)).map l.card.blockAt)) ?_ rfl ?_ ?_⟩
    · rw [if_neg hroom, hend, blockRange_eq, happ]
      rfl
    · rw [hmeaning]
      exact .read hlt
    · rw [hencode]
      exact hholds
    · rw [hencode, length_cons, length_flatMap]
      have hmap : (range' (r.byte 0) (r.byte 1 + 1)).map
            (fun i => (l.card.encodeBlock r.option i (l.card.blockAt i)).length) =
          (range' (r.byte 0) (r.byte 1 + 1)).map
            fun _ => (if r.option then 1 else 0) + l.card.blockSize := by
        refine map_congr_left (forall_range'.mpr fun i _ hi => ?_)
        rw [Card.encodeBlock, length_append, Card.length_blockAt (by omega)]
        cases r.option <;> rfl
      rw [hmap, map_const', sum_replicate_nat, hlen]
      change _ ≤ 1027
      omega

theorem writeMultiBlocksHandler_served (hcmd : r.command = .writeMultiBlocks)
    (hreg : RegularFor l.card r .writeMultiBlocks) (htx : tx.Holds bufferSize [0]) :
    ∃ h, l.writeMultiBlocksHandler r tx = some h ∧ Served l.card r h := by
  have hmeaning : r.meaning l.card.blockSize = .write (r.byte 0) (r.payloads l.card.blockSize) := by
    rw [Request.meaning, hcmd]
  have hlen : (r.payloads l.card.blockSize).length = r.byte 1 + 1 := by
    rw [Request.payloads, length_map, length_range]
  have hfits : r.Fits l.card ↔ 2 < r.size ∧ (r.size - 2) / (r.byte 1 + 1) = l.card.blockSize := by
    rw [Request.Fits, hcmd]
  have hbc := l.card.blockCount_lt
  by_cases hsize : r.size ≤ 2
  · refine ⟨_, if_pos hsize, .refused (.inl ?_) rfl htx.capacity⟩
    rw [hfits]
    exact fun h => Nat.not_lt.mpr hsize h.1
  by_cases havail : sub32 l.card.blockCount (r.byte 0) < r.byte 1 + 1
  · refine ⟨_, (if_neg hsize).trans (if_pos havail), .refused ?_ rfl htx.capacity⟩
    refine unfit_of_step hmeaning fun a m hstep => ?_
    cases hstep with
    | write hle hfree =>
      rw [hlen] at hle
      change _ ≤ l.card.blockCount at hle
      rw [sub32_of_le (by omega) (by omega)] at havail
      omega
  by_cases hblock : (r.size - 2) / (r.byte 1 + 1) = l.card.blockSize
  swap
  · refine ⟨_, (if_neg hsize).trans ((if_neg havail).trans (if_pos hblock)),
      .refused (.inl ?_) rfl htx.capacity⟩
    rw [hfits]
    exact fun h => hblock h.2
  obtain ⟨hfirst, hbyte, hzero, hrange⟩ :=
    hreg (Nat.not_le.mp hsize) (Nat.not_lt.mp havail) hblock
  rw [sub32_of_le hfirst (by omega)] at havail
  have hin : ∀ i ∈ range' (r.byte 0) (r.byte 1 + 1), i < l.card.blockCount ∧ i < 256 :=
    forall_range'.mpr fun i _ hi => ⟨by omega, by omega⟩
  have hpre : l.writeMultiBlocksHandler r tx =
      (anyLocked l.card (blockRange (r.byte 0) (r.byte 0 + r.byte 1))).bind fun locked =>
        if locked then some ({ l with waitForEof := r.option }.fail .internal tx)
        else (setBlocks r (blockRange (r.byte 0) (r.byte 0 + r.byte 1)) l.card).bind fun c =>
          some ⟨none, ⟨c, r.option⟩, tx⟩ := by
    refine (if_neg hsize).trans ((if_neg ?_).trans (if_neg (not_not_intro hblock)))
    change ¬ sub32 l.card.blockCount (r.byte 0) < _
    rw [sub32_of_le hfirst (by omega)]
    exact havail
  rw [hpre, blockRange_eq, anyLocked_eq _ hin, Option.bind_some]
  cases hany : (range' (r.byte 0) (r.byte 1 + 1)).any l.card.lockedAt with
  | true =>
    refine ⟨_, rfl, .refused ?_ rfl htx.capacity⟩
    refine unfit_of_step hmeaning fun a m hstep => ?_
    obtain ⟨i, hi, hlocked⟩ := any_eq_true.mp hany
    rw [mem_range'_1] at hi
    cases hstep with
    | write hle hfree =>
      rw [hlen] at hfree
      exact absurd ((hfree i hi.1 hi.2).symm.trans hlocked) (by simp)
  | false =>
    -- the source takes block `i` from place `i` of the request, so the range has to begin at 0
    have hs : r.byte 0 = 0 := hrange.resolve_right (by rw [hany]; simp)
    rw [hs] at hmeaning hany ⊢
    have hsz := r.size_le
    have hdata : 2 + l.card.blockSize * (0 + (r.byte 1 + 1)) ≤ r.data.length := by
      have hdiv := Nat.div_mul_le_self (r.size - 2) (r.byte 1 + 1)
      rw [hblock] at hdiv
      rw [Nat.zero_add]
      omega
    obtain ⟨c', h', hsize', hview⟩ := setBlocks_view (r := r) 0 (r.byte 1 + 1) hzero
      (by omega) (by omega) hdata
    refine ⟨⟨none, ⟨c', r.option⟩, tx⟩, ?_, .carried .done ?_ hsize' htx (show 3 ≤ 1027 by omega)⟩
    · change (setBlocks _ _ _).bind _ = _
      rw [h', Option.bind_some]
    · rw [hmeaning]
      change BlockStore.Step _ _ _ c'.view
      have hpay : r.payloads l.card.blockSize = (range' 0 (r.byte 1 + 1)).map fun i =>
          r.chunk (2 + l.card.blockSize * i) l.card.blockSize := by
        rw [Request.payloads, range_eq_range']
      rw [hview, ← hpay]
      refine .write ?_ fun i hi hlt => ?_
      · rw [hlen]
        change _ ≤ l.card.blockCount
        omega
      · rw [hlen] at hlt
        have hnot := any_eq_false.mp hany i (mem_range'_1.mpr ⟨hi, hlt⟩)
        exact Bool.not_eq_true _ ▸ hnot

theorem getMultiBlocksSecurityHandler_served (hcmd : r.command = .getBlocksSecurity)
    (hreg : RegularFor l.card r .getBlocksSecurity) (htx : tx.Holds bufferSize [0]) :
    ∃ h, l.getMultiBlocksSecurityHandler r tx = some h ∧ Served l.card r h := by
  have hmeaning : r.meaning l.card.blockSize = .security (r.byte 0) (r.byte 1 + 1) := by
    rw [Request.meaning, hcmd]
  by_cases hsize : r.size < 2
  · refine ⟨_, if_pos hsize, .refused (.inl ?_) rfl htx.capacity⟩
    rw [Request.Fits, hcmd]
    exact Nat.not_le.mpr hsize
  by_cases hi : r.byte 0 + r.byte 1 < l.card.blockCount
  swap
  · refine ⟨_, (if_neg hsize).trans (if_pos (Nat.not_lt.mp hi)), .refused ?_ rfl htx.capacity⟩
    refine unfit_of_step hmeaning fun a m hstep => ?_
    cases hstep with
    | security hle => exact hi hle
  have hbyte := hreg (Nat.not_lt.mp hsize) hi
  have hlen : (range' (r.byte 0) (r.byte 1 + 1)).length = r.byte 1 + 1 := length_range'
  have hin : ∀ i ∈ range' (r.byte 0) (r.byte 1 + 1), i < l.card.blockCount ∧ i < 256 :=
    forall_range'.mpr fun i _ hlt => ⟨by omega, by omega⟩
  obtain ⟨tx', happ, hholds⟩ := appendLocks_holds (range' (r.byte 0) (r.byte 1 + 1)) hin htx (by
      rw [hlen]
      change 1 + _ ≤ 1027
      omega)
  have hencode : r.encode l.card (.bits ((range' (r.byte 0) (r.byte 1 + 1)).map l.card.lockedAt)) =
        0 :: (range' (r.byte 0) (r.byte 1 + 1)).map fun i => if l.card.lockedAt i then 1 else 0 := by
    rw [Request.encode, map_map]
    rfl
  refine ⟨⟨none, l, tx'⟩, ?_, .carried
    (.bits ((range' (r.byte 0) (r.byte 1 + 1)).map l.card.lockedAt)) ?_ rfl ?_ ?_⟩
  · rw [getMultiBlocksSecurityHandler, if_neg hsize, if_neg (Nat.not_le.mpr hi), blockRange_eq, happ]
    rfl
  · rw [hmeaning]
    exact .security hi
  · rw [hencode]
    exact hholds
  · rw [hencode, length_cons, length_map, hlen]
    change _ ≤ 1027
    omega

theorem handler_served (hreg : l.Regular r) (htx : tx.Holds bufferSize [0]) :
    ∃ h, l.handler r tx = some h ∧ Served l.card r h := by
  rw [Regular] at hreg
  rw [handler]
  cases hcmd : r.command <;> rw [hcmd] at hreg
  case readBlock => exact readBlockHandler_served hcmd hreg htx
  case writeBlock => exact writeBlockHandler_served hcmd htx
  case lockBlock => exact lockBlockHandler_served hcmd hreg htx
  case readMultiBlocks => exact readMultiBlocksHandler_served hcmd hreg htx
  case writeMultiBlocks => exact writeMultiBlocksHandler_served hcmd hreg htx
  case getBlocksSecurity => exact getMultiBlocksSecurityHandler_served hcmd hreg htx

theorem reply_holds (htx : tx.Holds bufferSize cs) (hroom : cs.length + 2 ≤ bufferSize) :
    ∃ o, l.reply tx = some o ∧ o.listener = l ∧ o.answer = some cs := by
  by_cases heof : l.waitForEof = true
  · exact ⟨⟨l, some tx.bytes, none⟩, if_pos heof, rfl, congrArg some htx.bytes⟩
  · obtain ⟨frame, hcrc, -⟩ := htx.appendBytes [(crcCalculate tx.bytes).toUInt8,
      (crcCalculate tx.bytes >>> 8).toUInt8] hroom
    refine ⟨⟨l, some tx.bytes, some frame⟩, ?_, rfl, congrArg some htx.bytes⟩
    rw [reply, if_neg heof, crcAppend, hcrc]
    rfl

/-- Every request does to the card what the block store says, and answers accordingly. -/
theorem handleRequest_refined (hreg : l.Regular r) : l.Refined r := by
  obtain ⟨tx, htx, hholds⟩ := (BitBuffer.holds_alloc bufferSize).appendByte (show 0 < 1027 by omega)
    0x00
  obtain ⟨h, hh, hserved⟩ := handler_served hreg hholds
  have hpre : l.handleRequest r = finish h := by
    rw [handleRequest, htx, Option.bind_some, hh, Option.bind_some]
  rw [Refined, hpre]
  cases hserved with
  | @carried l' tx' a step size holds room =>
    obtain ⟨o, ho, hl, ha⟩ := reply_holds (l := l') holds room
    refine ⟨o, ho, ?_, .inl ⟨a, ?_, ha⟩⟩
    · rw [hl, size]
    · rw [hl]
      exact step
  | @refused e l' tx' reason card capacity =>
    cases e with
    | format => exact ⟨_, rfl, congrArg _ card, .inr ⟨reason, .inl rfl, card⟩⟩
    | ignore => exact ⟨_, rfl, congrArg _ card, .inr ⟨reason, .inl rfl, card⟩⟩
    | internal =>
      have hreset := BitBuffer.holds_reset tx'
      rw [capacity] at hreset
      obtain ⟨tx₁, h₁, hholds₁⟩ := hreset.appendByte (show 0 < 1027 by omega) 0x01
      obtain ⟨tx₂, h₂, hholds₂⟩ := hholds₁.appendByte (show 1 < 1027 by omega) 0x0F
      obtain ⟨o, ho, hl, ha⟩ := reply_holds (l := l') hholds₂ (show 4 ≤ 1027 by omega)
      refine ⟨o, ?_, ?_, .inr ⟨reason, .inr ha, ?_⟩⟩
      · change (tx'.reset.appendByte 0x01).bind _ = _
        rw [h₁, Option.bind_some, h₂, Option.bind_some, ho]
      · rw [hl, card]
      · rw [hl, card]

def machine : Machine Listener Request where
  step l r := (l.handleRequest r).map Outcome.listener

theorem machine_step (l : Listener) (r : Request) :
    machine.step l r = (l.handleRequest r).map Outcome.listener := by
  simp only [machine]

theorem Refined.step (href : l.Refined r) :
    ∃ l', machine.step l r = some l' ∧ l'.card.blockCount = l.card.blockCount ∧
      l'.card.blockSize = l.card.blockSize ∧ ∀ i, l.card.lockedAt i = true →
        l'.card.lockedAt i = true ∧ l'.card.blockAt i = l.card.blockAt i := by
  obtain ⟨o, ho, hsize, hcases⟩ := href
  refine ⟨o.listener, ?_, ?_, hsize, ?_⟩
  · rw [machine_step, ho]
    rfl
  · rcases hcases with ⟨a, hstep, -⟩ | hrefused
    · exact hstep.count
    · rw [hrefused.card]
  · intro i hi
    rcases hcases with ⟨a, hstep, -⟩ | hrefused
    · exact hstep.locked hi
    · rw [hrefused.card]
      exact ⟨hi, rfl⟩

/-- In a run whose requests meet the condition, every request is served as by a store of the
blocks of the card; there is no failure, and a locked block stays as it is to the end. -/
theorem memory_refines_blockStore {rs : List Request} (h : machine.Meets Regular l rs) :
    machine.Meets Refined l rs ∧ ∃ l', machine.run l rs = some l' ∧
      l'.card.blockCount = l.card.blockCount ∧ l'.card.blockSize = l.card.blockSize ∧
        ∀ i, l.card.lockedAt i = true →
          l'.card.lockedAt i = true ∧ l'.card.blockAt i = l.card.blockAt i := by
  induction rs generalizing l with
  | nil => exact ⟨trivial, l, rfl, rfl, rfl, fun _ hi => ⟨hi, rfl⟩⟩
  | cons r rs ih =>
    have href := handleRequest_refined h.1
    obtain ⟨l₁, hs, hcount₁, hsize₁, hlocked₁⟩ := href.step
    rw [machine.meets_cons_of_step hs] at h ⊢
    obtain ⟨hmeets, l₂, hrun, hcount₂, hsize₂, hlocked₂⟩ := ih h.2
    refine ⟨⟨href, hmeets⟩, l₂, machine.run_cons_eq_some.mpr ⟨l₁, hs, hrun⟩,
      hcount₂.trans hcount₁, hsize₂.trans hsize₁, fun i hi => ?_⟩
    obtain ⟨hi₁, hblock₁⟩ := hlocked₁ i hi
    obtain ⟨hi₂, hblock₂⟩ := hlocked₂ i hi₁
    exact ⟨hi₂, hblock₂.trans hblock₁⟩

/-- A card of five blocks of four bytes of zero. -/
def sampleListener : Listener where
  card :=
    { blockCount := 5
      blockSize := 4
      blockData := replicate 20 0
      blockSecurity := replicate 5 0
      blockCount_lt := by decide
      blockSize_lt := by decide
      length_blockData := rfl
      length_blockSecurity := rfl }
  waitForEof := false

def sampleRequest (command : Command) (flags : Byte) (bytes : List Byte) : Request where
  command := command
  flags := flags
  data := bytes ++ replicate 8 0
  size := bytes.length
  size_le := Request.length_le_padded bytes

/-- Two blocks are written, the second of them is locked, it is not written again, and they are
read. -/
def sampleRequests : List Request :=
  [sampleRequest .writeMultiBlocks 0x02 [0, 1, 0x11, 0x12, 0x13, 0x14, 0x21, 0x22, 0x23, 0x24],
    sampleRequest .lockBlock 0x02 [1],
    sampleRequest .writeBlock 0x02 [1, 0x31, 0x32, 0x33, 0x34],
    sampleRequest .readMultiBlocks 0x42 [0, 1],
    sampleRequest .getBlocksSecurity 0x02 [0, 3]]

theorem memory_refines_sample : machine.Meets Refined sampleListener sampleRequests ∧
    ∃ l', machine.run sampleListener sampleRequests = some l' ∧
      l'.card.blockCount = 5 ∧ l'.card.blockSize = 4 ∧ ∀ i, sampleListener.card.lockedAt i = true →
          l'.card.lockedAt i = true ∧ l'.card.blockAt i = sampleListener.card.blockAt i :=
  memory_refines_blockStore (by decide +kernel)

def secondBlock : Request := sampleRequest .writeMultiBlocks 0x02 [1, 0, 0xAA, 0xBB, 0xCC, 0xDD]

/-- The second block is taken from behind the payload. -/
theorem secondBlock_not_refined : ¬ machine.Meets Refined sampleListener [secondBlock] := by
  have hrun : (sampleListener.handleRequest secondBlock).map
      (fun o => (o.answer, o.listener.card.blockAt 1)) = some (some [0], [0, 0, 0, 0]) := by
    decide +kernel
  rintro ⟨⟨o, ho, -, hcases⟩, -⟩
  rw [ho] at hrun
  obtain ⟨hanswer, hblock⟩ := Prod.mk.inj (Option.some.inj hrun)
  rcases hcases with ⟨a, hstep, -⟩ | ⟨-, hans, -⟩
  · have hmeaning : secondBlock.meaning sampleListener.card.blockSize =
        .write 1 [[0xAA, 0xBB, 0xCC, 0xDD]] := by decide
    rw [hmeaning] at hstep
    generalize hview : o.listener.card.view = m at hstep
    cases hstep with
    | write hle hfree =>
      have hnew := congrFun (congrArg BlockStore.block hview) 1
      cases hblock.symm.trans hnew
  · rw [hanswer] at hans
    simp at hans

end Listener

end NikitaFirmware.Iso15693
