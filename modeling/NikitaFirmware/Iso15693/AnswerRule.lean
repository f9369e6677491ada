import NikitaFirmware.Iso15693.Refinement
import NikitaFirmware.Iso15693.Session

/-!
# Which requests an emulated card answers

The rule of the standard for the answers of a card, as the comments of `iso15693_3_listener_i.c`
give it, over runs of requests and ends of frames in any order. A quiet card takes what it should
ignore and ignores what it should take, and a reply that waits for an end of frame is given up by no
other request.
-/

namespace NikitaFirmware.Iso15693
open Nfc Foundations List Option

namespace Listener

variable {l : Listener} {r : Request} {h : Handled} {c : Card} {tx tx' : BitBuffer} {cs : List Byte}
  {is : List Nat} {i : Nat} {o : Bool}

def Room (tx : BitBuffer) : Prop := ∃ cs, tx.Holds bufferSize cs ∧ cs.length + 2 ≤ bufferSize

def Grown (cs : List Byte) (n : Nat) (tx : BitBuffer) : Prop :=
  ∃ ds, tx.Holds bufferSize (cs ++ ds) ∧ ds.length ≤ n

theorem Grown.room {n : Nat} (h : Grown cs n tx) (hle : cs.length + n + 2 ≤ bufferSize) :
    Room tx := by
  obtain ⟨ds, hholds, hlen⟩ := h
  refine ⟨cs ++ ds, hholds, ?_⟩
  rw [length_append]
  omega

theorem room_zero (htx : tx.Holds bufferSize [0]) : Room tx := ⟨[0], htx, by decide⟩

theorem grown_appendByte {b : Byte} (htx : tx.Holds bufferSize cs)
    (h : tx.appendByte b = some tx') : tx'.Holds bufferSize (cs ++ [b]) := by
  by_cases hlt : cs.length < bufferSize
  · obtain ⟨d, hd, hholds⟩ := htx.appendByte hlt b
    rw [hd] at h
    exact some.inj h ▸ hholds
  · have hnone : tx.appendByte b = none := if_pos (by rw [htx.capacity, htx.sizeBytes]; omega)
    cases hnone.symm.trans h

theorem grown_appendSecurityIf (htx : tx.Holds bufferSize cs)
    (h : appendSecurityIf c o i tx = some tx') : Grown cs (if o then 1 else 0) tx' := by
  rw [appendSecurityIf] at h
  cases o with
  | false =>
    obtain rfl := some.inj h
    exact ⟨[], by rwa [append_nil], Nat.le_refl _⟩
  | true =>
    obtain ⟨b, -, hb⟩ := bind_eq_some_iff.mp h
    exact ⟨[b], grown_appendByte htx hb, Nat.le_refl _⟩

theorem grown_appendBlock (htx : tx.Holds bufferSize cs) (h : c.appendBlock i tx = some tx') :
    Grown cs c.blockSize tx' := by
  rw [Card.appendBlock] at h
  split at h
  · cases h
  · exact ⟨_, htx.of_appendBytes h, (length_take_le ..)⟩

theorem grown_appendBlocks (htx : tx.Holds bufferSize cs) (h : appendBlocks c o is tx = some tx') :
    Grown cs (is.length * ((if o then 1 else 0) + c.blockSize)) tx' := by
  induction is generalizing tx cs with
  | nil =>
    obtain rfl := some.inj h
    exact ⟨[], by rwa [append_nil], Nat.zero_le _⟩
  | cons i is ih =>
    obtain ⟨tx₁, h₁, h⟩ := bind_eq_some_iff.mp h
    obtain ⟨tx₂, h₂, h⟩ := bind_eq_some_iff.mp h
    obtain ⟨ds₁, hholds₁, hlen₁⟩ := grown_appendSecurityIf htx h₁
    obtain ⟨ds₂, hholds₂, hlen₂⟩ := grown_appendBlock hholds₁ h₂
    obtain ⟨ds₃, hholds₃, hlen₃⟩ := ih hholds₂ h
    refine ⟨ds₁ ++ ds₂ ++ ds₃, ?_, ?_⟩
    · rwa [← append_assoc, ← append_assoc]
    · rw [length_append, length_append, length_cons, Nat.add_one_mul]
      omega

theorem grown_appendLocks (htx : tx.Holds bufferSize cs) (h : appendLocks c is tx = some tx') :
    Grown cs is.length tx' := by
  induction is generalizing tx cs with
  | nil =>
    obtain rfl := some.inj h
    exact ⟨[], by rwa [append_nil], Nat.zero_le _⟩
  | cons i is ih =>
    obtain ⟨b, -, h⟩ := bind_eq_some_iff.mp h
    obtain ⟨tx₁, h₁, h⟩ := bind_eq_some_iff.mp h
    obtain ⟨ds, hholds, hlen⟩ := ih (grown_appendByte htx h₁) h
    exact ⟨_ :: ds, by rwa [append_assoc] at hholds, Nat.succ_le_succ hlen⟩

theorem length_blockRange (first last : Nat) : (blockRange first last).length = last + 1 - first :=
  length_range'

/-- The commands that change the card, whose answers may wait for an end of frame. -/
def delays : Command → Bool
  | .writeBlock | .lockBlock | .writeMultiBlocks => true
  | .readBlock | .readMultiBlocks | .getBlocksSecurity => false

/-- What every handler keeps: there is room for the checksum, and the flag for the end of frame is
the one of the request where the command sets it. -/
structure Kept (l : Listener) (r : Request) (h : Handled) : Prop where
  room : Room h.tx
  wait : h.listener.waitForEof = if delays r.command then r.option else l.waitForEof

theorem readBlockHandler_kept (hcmd : r.command = .readBlock) (htx : tx.Holds bufferSize [0])
    (h' : l.readBlockHandler r tx = some h) : Kept l r h := by
  rw [readBlockHandler] at h'
  split at h'
  · obtain rfl := some.inj h'
    exact ⟨room_zero htx, by rw [hcmd]; rfl⟩
  split at h'
  · obtain rfl := some.inj h'
    exact ⟨room_zero htx, by rw [hcmd]; rfl⟩
  obtain ⟨tx₁, h₁, h'⟩ := bind_eq_some_iff.mp h'
  obtain ⟨tx₂, h₂, h'⟩ := bind_eq_some_iff.mp h'
  obtain rfl := some.inj h'
  obtain ⟨ds₁, hholds₁, hlen₁⟩ := grown_appendSecurityIf htx h₁
  have hsize := l.card.blockSize_lt
  refine ⟨(grown_appendBlock hholds₁ h₂).room ?_, by rw [hcmd]; rfl⟩
  rw [length_append, length_singleton]
  change 1 + ds₁.length + l.card.blockSize + 2 ≤ 1027
  split at hlen₁ <;> omega

theorem kept_fail {e : Error} (hdelays : delays r.command = true) (htx : tx.Holds bufferSize [0]) :
    Kept l r ({ l with waitForEof := r.option }.fail e tx) :=
  ⟨room_zero htx, by rw [hdelays]; rfl⟩

/-- The end of a handler that changes the card. -/
theorem kept_unless_locked {locked : Option Bool} {changed : Option Card}
    (hdelays : delays r.command = true) (htx : tx.Holds bufferSize [0])
    (h' : locked.bind (fun locked =>
      if locked then some ({ l with waitForEof := r.option }.fail .internal tx)
      else changed.bind fun c => some ⟨none, { l with waitForEof := r.option, card := c }, tx⟩) =
        some h) : Kept l r h := by
  obtain ⟨locked, -, h'⟩ := bind_eq_some_iff.mp h'
  cases locked with
  | true => exact some.inj h' ▸ kept_fail hdelays htx
  | false =>
    obtain ⟨c, -, h'⟩ := bind_eq_some_iff.mp h'
    obtain rfl := some.inj h'
    exact ⟨room_zero htx, by rw [hdelays]; rfl⟩

theorem writeBlockHandler_kept (hcmd : r.command = .writeBlock) (htx : tx.Holds bufferSize [0])
    (h' : l.writeBlockHandler r tx = some h) : Kept l r h := by
  have hfail := fun e => kept_fail (l := l) (e := e) (congrArg delays hcmd) htx
  rw [writeBlockHandler] at h'
  split at h'
  · exact some.inj h' ▸ hfail _
  split at h'
  · exact some.inj h' ▸ hfail _
  split at h'
  · exact some.inj h' ▸ hfail _
  exact kept_unless_locked (congrArg delays hcmd) htx h'

theorem lockBlockHandler_kept (hcmd : r.command = .lockBlock) (htx : tx.Holds bufferSize [0])
    (h' : l.lockBlockHandler r tx = some h) : Kept l r h := by
  have hfail := fun e => kept_fail (l := l) (e := e) (congrArg delays hcmd) htx
  rw [lockBlockHandler] at h'
  split at h'
  · exact some.inj h' ▸ hfail _
  split at h'
  · exact some.inj h' ▸ hfail _
  exact kept_unless_locked (congrArg delays hcmd) htx h'

theorem writeMultiBlocksHandler_kept (hcmd : r.command = .writeMultiBlocks)
    (htx : tx.Holds bufferSize [0]) (h' : l.writeMultiBlocksHandler r tx = some h) :
    Kept l r h := by
  have hfail := fun e => kept_fail (l := l) (e := e) (congrArg delays hcmd) htx
  rw [writeMultiBlocksHandler] at h'
  split at h'
  · exact some.inj h' ▸ hfail _
  split at h'
  · exact some.inj h' ▸ hfail _
  split at h'
  · exact some.inj h' ▸ hfail _
  exact kept_unless_locked (congrArg delays hcmd) htx h'

theorem length_blockRange_mul (hbpb : bytesPerBlock c r ≠ 0)
    (hcount : readCount c r ≤ (bufferSize - 1 - 2) / bytesPerBlock c r) :
    (blockRange (r.byte 0) (readEnd c r)).length * ((if r.option then 1 else 0) + c.blockSize) ≤
      1024 := by
  have hend : readEnd c r ≤ r.byte 0 + r.byte 1 := Nat.min_le_left _ _
  have h₀ := r.byte_lt 0
  have h₁ := r.byte_lt 1
  have hsize := c.blockSize_lt
  have hbytes : bytesPerBlock c r = (if r.option then 1 else 0) + c.blockSize := by
    rw [bytesPerBlock] at hbpb ⊢
    by_cases hfull : (if r.option then 1 else 0) + c.blockSize = 256
    · exact absurd (by rw [hfull]) hbpb
    · have hle : (if r.option then 1 else 0) + c.blockSize < 256 := by
        cases hopt : r.option <;>
          simp only [hopt, if_true, Bool.false_eq_true, if_false] at hfull ⊢ <;> omega
      exact Nat.mod_eq_of_lt hle
  have hlen : (blockRange (r.byte 0) (readEnd c r)).length ≤ readCount c r := by
    rw [length_blockRange, readCount]
    by_cases hle : r.byte 0 ≤ readEnd c r + 1
    · rw [sub32_of_le hle (by omega)]
    · omega
  rw [← hbytes]
  exact (Nat.mul_le_mul_right _ (hlen.trans hcount)).trans (Nat.div_mul_le_self _ _)

theorem readMultiBlocksHandler_kept (hcmd : r.command = .readMultiBlocks)
    (htx : tx.Holds bufferSize [0]) (h' : l.readMultiBlocksHandler r tx = some h) : Kept l r h := by
  have hfail : ∀ e, Kept l r (l.fail e tx) := fun e => ⟨room_zero htx, by rw [hcmd]; rfl⟩
  rw [readMultiBlocksHandler] at h'
  split at h'
  · exact some.inj h' ▸ hfail _
  split at h'
  · cases h'
  case isFalse hbpb =>
    split at h'
    · exact some.inj h' ▸ hfail _
    case isFalse hcount =>
      obtain ⟨tx', htx', rfl⟩ := map_eq_some_iff.mp h'
      rw [htx.capacity, Nat.not_lt] at hcount
      refine ⟨(grown_appendBlocks htx htx').room ?_, by rw [hcmd]; rfl⟩
      have hlen := length_blockRange_mul hbpb hcount
      rw [length_singleton]
      change 1 + _ + 2 ≤ 1027
      omega

theorem getMultiBlocksSecurityHandler_kept (hcmd : r.command = .getBlocksSecurity)
    (htx : tx.Holds bufferSize [0]) (h' : l.getMultiBlocksSecurityHandler r tx = some h) :
    Kept l r h := by
  have hfail : ∀ e, Kept l r (l.fail e tx) := fun e => ⟨room_zero htx, by rw [hcmd]; rfl⟩
  rw [getMultiBlocksSecurityHandler] at h'
  split at h'
  · exact some.inj h' ▸ hfail _
  split at h'
  · exact some.inj h' ▸ hfail _
  obtain ⟨tx', htx', rfl⟩ := map_eq_some_iff.mp h'
  refine ⟨(grown_appendLocks htx htx').room ?_, by rw [hcmd]; rfl⟩
  have h₁ := r.byte_lt 1
  rw [length_blockRange, length_singleton]
  change 1 + _ + 2 ≤ 1027
  omega

theorem handler_kept (htx : tx.Holds bufferSize [0]) (h' : l.handler r tx = some h) :
    Kept l r h := by
  rw [handler] at h'
  cases hcmd : r.command <;> rw [hcmd] at h'
  case readBlock => exact readBlockHandler_kept hcmd htx h'
  case writeBlock => exact writeBlockHandler_kept hcmd htx h'
  case lockBlock => exact lockBlockHandler_kept hcmd htx h'
  case readMultiBlocks => exact readMultiBlocksHandler_kept hcmd htx h'
  case writeMultiBlocks => exact writeMultiBlocksHandler_kept hcmd htx h'
  case getBlocksSecurity => exact getMultiBlocksSecurityHandler_kept hcmd htx h'

end Listener

namespace Handler

/-- The commands that change the card, whose answers may wait for an end of frame. -/
def delays : Handler → Bool
  | .memory command => Listener.delays command
  | .writeAfi | .lockAfi | .writeDsfid | .lockDsfid => true
  | .inventory | .stayQuiet | .select | .resetToReady | .getSystemInfo => false

end Handler

namespace Frame

/-- Where the bytes for a handler begin. -/
def offset (f : Frame) : Nat := if !f.inventory && f.addressed then 10 else 2

/-- The command changes the card, and sets the flag for the end of frame itself. -/
def delays (f : Frame) : Bool :=
  match Handler.find f.command with
  | some (some h) => h.delays
  | _ => false

/-- The UID of an addressed request is that of the card. -/
def Names (f : Frame) (s : Session) : Prop := 10 ≤ f.size ∧ s.uid = f.uid

/-- The request selects a card of another UID. -/
def SelectsOther (f : Frame) (s : Session) : Prop :=
  f.inventory = false ∧ f.addressed = true ∧ f.selected = false ∧ 10 ≤ f.size ∧ s.uid ≠ f.uid ∧
    f.command = 0x25

end Frame

namespace Session

open Listener

variable {s : Session} {f : Frame} {offset : Nat} {tx : BitBuffer} {cs : List Byte} {h : Handler}
  {r : Handled}

theorem foldlM_appendByte (bytes : List Byte) (htx : tx.Holds bufferSize cs)
    (hle : cs.length + bytes.length ≤ bufferSize) :
    ∃ tx', bytes.foldlM BitBuffer.appendByte tx = some tx' ∧
      tx'.Holds bufferSize (cs ++ bytes) := by
  induction bytes generalizing tx cs with
  | nil => exact ⟨tx, rfl, by rwa [append_nil]⟩
  | cons b bytes ih =>
    rw [length_cons] at hle
    obtain ⟨tx₁, h₁, hholds₁⟩ := htx.appendByte (by omega) b
    obtain ⟨tx₂, h₂, hholds₂⟩ := ih hholds₁ (by
      rw [length_append, length_singleton]
      omega)
    refine ⟨tx₂, ?_, by rwa [append_assoc] at hholds₂⟩
    rw [foldlM_cons, h₁]
    exact h₂

theorem appendUid_holds (s : Session) (htx : tx.Holds bufferSize cs)
    (hle : cs.length + 8 ≤ bufferSize) :
    ∃ tx', s.appendUid tx = some tx' ∧ tx'.Holds bufferSize (cs ++ s.uid.reverse) :=
  foldlM_appendByte _ htx (by rw [length_reverse, s.length_uid]; exact hle)

theorem length_systemInfo (s : Session) : s.systemInfo.length ≤ 5 := by
  rw [systemInfo, length_append, length_append, length_append]
  have hif : ∀ (p : Prop) [Decidable p] (bs : List Byte),
      (if p then bs else []).length ≤ bs.length := by
    intro p _ bs
    split
    · exact Nat.le_refl _
    · exact Nat.zero_le _
  exact Nat.add_le_add (Nat.add_le_add (Nat.add_le_add (hif _ [_]) (hif _ [_])) (hif _ [_, _]))
    (hif _ [_])

structure Kept (s : Session) (f : Frame) (h : Handler) (r : Handled) : Prop where
  room : Room r.tx
  wait : r.session.waitForEof = if h.delays then f.option else s.waitForEof

theorem inventoryHandler_kept (htx : tx.Holds bufferSize [0]) :
    ∃ r, s.inventoryHandler f offset tx = some r ∧ Kept s f .inventory r := by
  rw [inventoryHandler]
  generalize (if (f.flags &&& 0x10 != 0) = true then 2 else 1) = min
  split
  · exact ⟨_, rfl, room_zero htx, rfl⟩
  split
  · exact ⟨_, rfl, room_zero htx, rfl⟩
  split
  · exact ⟨_, rfl, room_zero htx, rfl⟩
  obtain ⟨tx₁, h₁, hholds₁⟩ := htx.appendByte (show 1 < 1027 by decide) s.dsfid
  obtain ⟨tx₂, h₂, hholds₂⟩ := appendUid_holds s hholds₁ (show 2 + 8 ≤ 1027 by decide)
  refine ⟨⟨none, s, tx₂⟩, ?_, ⟨_, hholds₂, ?_⟩, rfl⟩
  · rw [h₁]
    change (s.appendUid tx₁).bind _ = _
    rw [h₂]
    rfl
  · rw [length_append, length_reverse, s.length_uid]
    change 2 + 8 + 2 ≤ 1027
    decide

theorem getSystemInfoHandler_kept (htx : tx.Holds bufferSize [0]) :
    ∃ r, s.getSystemInfoHandler tx = some r ∧ Kept s f .getSystemInfo r := by
  have hinfo := s.length_systemInfo
  obtain ⟨tx₁, h₁, hholds₁⟩ := htx.appendByte (show 1 < 1027 by decide) s.flags
  obtain ⟨tx₂, h₂, hholds₂⟩ := appendUid_holds s hholds₁ (show 2 + 8 ≤ 1027 by decide)
  have hlen : ([0] ++ [s.flags] ++ s.uid.reverse).length = 10 := by
    rw [length_append, length_reverse, s.length_uid]
    rfl
  obtain ⟨tx₃, h₃, hholds₃⟩ := hholds₂.appendBytes s.systemInfo (by
    rw [hlen]
    change 10 + _ ≤ 1027
    omega)
  refine ⟨⟨none, s, tx₃⟩, ?_, ⟨_, hholds₃, ?_⟩, rfl⟩
  · rw [getSystemInfoHandler, h₁]
    change (s.appendUid tx₁).bind _ = _
    rw [h₂]
    change (tx₂.appendBytes s.systemInfo).bind _ = _
    rw [h₃]
    rfl
  · rw [length_append, hlen]
    change 10 + _ + 2 ≤ 1027
    omega

theorem kept_of_tx {r : Handled} (htx : tx.Holds bufferSize [0]) (hr : r.tx = tx)
    (hwait : r.session.waitForEof = if h.delays then f.option else s.waitForEof) : Kept s f h r :=
  ⟨hr ▸ room_zero htx, hwait⟩

theorem exists_handle (s : Session) (f : Frame) (offset : Nat) (htx : tx.Holds bufferSize [0])
    (hmem : ∀ c, h ≠ .memory c) :
    ∃ r, s.handle f offset tx h = some r ∧ Kept s f h r := by
  cases h with
  | inventory => exact inventoryHandler_kept htx
  | stayQuiet => exact ⟨_, rfl, kept_of_tx htx rfl rfl⟩
  | memory c => exact absurd rfl (hmem c)
  | select =>
    rw [handle, selectHandler]
    split <;> exact ⟨_, rfl, kept_of_tx htx rfl rfl⟩
  | resetToReady => exact ⟨_, rfl, kept_of_tx htx rfl rfl⟩
  | writeAfi =>
    rw [handle, writeAfiHandler]
    split
    · exact ⟨_, rfl, kept_of_tx htx rfl rfl⟩
    split <;> exact ⟨_, rfl, kept_of_tx htx rfl rfl⟩
  | lockAfi =>
    rw [handle, lockAfiHandler]
    split <;> exact ⟨_, rfl, kept_of_tx htx rfl rfl⟩
  | writeDsfid =>
    rw [handle, writeDsfidHandler]
    split
    · exact ⟨_, rfl, kept_of_tx htx rfl rfl⟩
    split <;> exact ⟨_, rfl, kept_of_tx htx rfl rfl⟩
  | lockDsfid =>
    rw [handle, lockDsfidHandler]
    split <;> exact ⟨_, rfl, kept_of_tx htx rfl rfl⟩
  | getSystemInfo => exact getSystemInfoHandler_kept htx

theorem handle_kept (htx : tx.Holds bufferSize [0]) (h' : s.handle f offset tx h = some r) :
    Kept s f h r := by
  by_cases hmem : ∃ c, h = .memory c
  · obtain ⟨c, rfl⟩ := hmem
    obtain ⟨g, hg, rfl⟩ := map_eq_some_iff.mp h'
    obtain ⟨hroom, hwait⟩ := handler_kept htx hg
    exact ⟨hroom, hwait⟩
  · obtain ⟨r', hr', hkept⟩ := exists_handle s f offset htx (fun c hc => hmem ⟨c, hc⟩)
    rw [hr'] at h'
    exact some.inj h' ▸ hkept

theorem reply_of_room (s : Session) (error : Option RequestError) (hroom : Room tx) :
    ∃ o, s.reply tx error = some o ∧ o.session = s ∧
      (o.sent.isSome = true ↔ s.waitForEof = false) := by
  rw [reply]
  by_cases hwait : s.waitForEof = true
  · exact ⟨_, if_pos hwait, rfl, by rw [hwait]; simp⟩
  · obtain ⟨cs, hholds, hle⟩ := hroom
    obtain ⟨frame, hcrc, -⟩ := hholds.appendBytes [(crcCalculate tx.bytes).toUInt8,
      (crcCalculate tx.bytes >>> 8).toUInt8] hle
    refine ⟨⟨none, s, some frame⟩, ?_, rfl, by simpa using hwait⟩
    rw [if_neg hwait, crcAppend, hcrc]
    rfl

def Handled.replies (r : Handled) : Bool := r.error != some .format && r.error != some .ignore

theorem finish_of_kept (hkept : Kept s f h r) : ∃ o, finish r = some o ∧ o.session = r.session ∧
      (o.sent.isSome = true ↔ r.replies = true ∧ r.session.waitForEof = false) := by
  rw [finish, Handled.replies]
  cases he : r.error with
  | none =>
    obtain ⟨o, ho, hsession, hsent⟩ := reply_of_room r.session none hkept.room
    exact ⟨o, ho, hsession, hsent.trans (by simp)⟩
  | some e =>
    cases e with
    | format => exact ⟨_, rfl, rfl, by simp⟩
    | ignore => exact ⟨_, rfl, rfl, by simp⟩
    | internal =>
      obtain ⟨cs, hholds, -⟩ := hkept.room
      have hreset := BitBuffer.holds_reset r.tx
      rw [hholds.capacity] at hreset
      obtain ⟨tx₁, h₁, hholds₁⟩ := hreset.appendByte (show 0 < 1027 by decide) 0x01
      obtain ⟨tx₂, h₂, hholds₂⟩ := hholds₁.appendByte (show 1 < 1027 by decide) 0x0F
      obtain ⟨o, ho, hsession, hsent⟩ := reply_of_room r.session (some .internal)
        ⟨_, hholds₂, show 2 + 2 ≤ 1027 by decide⟩
      refine ⟨o, ?_, hsession, hsent.trans (by simp)⟩
      change (r.tx.reset.appendByte 0x01).bind _ = _
      rw [h₁, bind_some, h₂, bind_some, ho]

def handled (s : Session) (f : Frame) (h : Handler) : Option Handled :=
  ((BitBuffer.alloc bufferSize).appendByte 0x00).bind fun tx =>
    (s.note f).handle f f.offset tx h

/-- An inventory that asks for cards of another family. -/
def otherAfi (s : Session) (f : Frame) : Bool :=
  f.command == 0x01 && f.flags &&& 0x10 != 0 && byteAt f f.offset 0 != 0 &&
    byteAt f f.offset 0 != s.afi

/-- A card takes requests that are not addressed, those with its UID, and those for the selected card
if it is selected; a quiet one only those with its UID and the one to reset it. -/
def Admits (s : Session) (f : Frame) : Prop :=
  2 ≤ f.size ∧ if f.inventory then s.state ≠ .quiet
    else ¬ (f.selected = true ∧ f.addressed = true) ∧ (f.selected = true → s.state = .selected) ∧
      (f.addressed = true → f.Names s) ∧
      (s.state = .quiet → f.addressed = true ∨ f.command = 0x26)

/-- The command has an answer, and it does not wait for an end of frame. -/
def callsForReply (s : Session) (f : Frame) : Bool :=
  match Handler.find f.command with
  | some (some h) => !(h.delays && f.option) && !s.otherAfi f && (s.handled f h).any Handled.replies
  | _ => false

/-- A request is answered if it is admitted and has an answer, whatever came before it, and the
selection of another card deselects this one. -/
structure Lawful (s : Session) (f : Frame) (o : Outcome) : Prop where
  answered : o.sent.isSome = true ↔ s.Admits f ∧ s.callsForReply f = true
  deselected : f.SelectsOther s → o.session.state ≠ .selected

/-- The requests that get as far as to a handler. -/
def Takes (s : Session) (f : Frame) : Prop :=
  2 ≤ f.size ∧ s.refusal f = none ∧ f.command.toNat < 0xA0 ∧
    (f.inventory = false → f.addressed = true → f.Names s)

/-- There is no command zero, and no check of a handler fails. -/
def Sound (s : Session) (f : Frame) : Prop :=
  match Handler.find f.command with
  | none => False
  | some none => True
  | some (some h) => (s.handled f h).isSome = true

/-- The requests that the listener serves by the rule. -/
structure Regular (s : Session) (f : Frame) : Prop where
  sound : s.Takes f → s.Sound f
  family : s.Takes f → s.otherAfi f = false
  quiet : s.callsForReply f = true → s.state = .quiet → f.inventory = false →
    ¬ (f.selected = true ∧ f.addressed = true) → (f.addressed = true → ¬ f.Names s) ∧
      (f.addressed = false → f.selected = false ∧ f.command = 0x26)
  pending : s.callsForReply f = true → s.Admits f → s.waitForEof = true → f.delays = true

theorem note_fields (s : Session) (f : Frame) :
    (s.note f).uid = s.uid ∧ (s.note f).waitForEof = s.waitForEof ∧
      (s.note f).addressed = (!f.inventory && f.addressed) := by
  rw [note]
  cases f.inventory <;> exact ⟨rfl, rfl, rfl⟩

theorem dispatch_of_takes (h : s.Takes f) :
    (s.note f).dispatch f = (s.note f).handleStandardRequest f f.offset := by
  obtain ⟨-, -, hcmd, hown⟩ := h
  obtain ⟨huid, -, haddr⟩ := s.note_fields f
  rw [dispatch, if_neg (by omega), haddr, huid, Frame.offset]
  by_cases hmode : (!f.inventory && f.addressed) = true
  · obtain ⟨hinv, hadd⟩ := (Bool.and_eq_true _ _).mp hmode
    obtain ⟨hsize, hsame⟩ := hown (by simpa using hinv) hadd
    rw [if_pos hmode, if_pos hmode, if_neg (by omega), if_neg (not_not_intro hsame)]
  · rw [if_neg hmode, if_neg hmode]

theorem processRequest_of_takes (h : s.Takes f) :
    s.processRequest f = (s.note f).handleStandardRequest f f.offset := by
  rw [← dispatch_of_takes h, processRequest, if_neg (by have := h.1; omega), h.2.1]

theorem processRequest_of_not_takes (h : ¬ s.Takes f) :
    ∃ o, s.processRequest f = some o ∧ o.sent = none := by
  rw [processRequest]
  split
  · exact ⟨_, rfl, rfl⟩
  case isFalse hsize =>
    cases hrefusal : s.refusal f with
    | some e => exact ⟨_, rfl, rfl⟩
    | none =>
      obtain ⟨huid, -, haddr⟩ := s.note_fields f
      change ∃ o, (s.note f).dispatch f = some o ∧ o.sent = none
      rw [dispatch, haddr, huid]
      split
      · rw [handleCustomRequest]
        split
        · exact ⟨_, rfl, rfl⟩
        split <;> exact ⟨_, rfl, rfl⟩
      case isFalse hcmd =>
        have hnot : ¬ (f.inventory = false → f.addressed = true → f.Names s) :=
          fun hown => h ⟨by omega, hrefusal, by omega, hown⟩
        obtain ⟨hinv, hnot⟩ := Classical.not_imp.mp hnot
        obtain ⟨hadd, hnot⟩ := Classical.not_imp.mp hnot
        rw [hinv, hadd, if_pos (show (!false && true) = true from rfl)]
        split
        · exact ⟨_, rfl, rfl⟩
        case isFalse hlen =>
          rw [if_pos fun hsame => hnot ⟨by omega, hsame⟩]
          exact ⟨_, rfl, rfl⟩

theorem callsForReply_eq_true : s.callsForReply f = true ↔
    ∃ h r, Handler.find f.command = some (some h) ∧ s.handled f h = some r ∧
      (h.delays && f.option) = false ∧ s.otherAfi f = false ∧ r.replies = true := by
  rw [callsForReply]
  constructor
  · intro hcalls
    cases hfind : Handler.find f.command with
    | none => rw [hfind] at hcalls; cases hcalls
    | some o =>
      cases o with
      | none => rw [hfind] at hcalls; cases hcalls
      | some h =>
        rw [hfind] at hcalls
        obtain ⟨hcalls, hany⟩ := (Bool.and_eq_true _ _).mp hcalls
        obtain ⟨hdelay, hafi⟩ := (Bool.and_eq_true _ _).mp hcalls
        cases hr : s.handled f h with
        | none => rw [hr] at hany; cases hany
        | some r =>
          rw [hr] at hany
          rw [Bool.not_eq_true'] at hdelay hafi
          exact ⟨h, r, rfl, hr, hdelay, hafi, hany⟩
  · rintro ⟨h, r, hfind, hr, hdelay, hafi, hreplies⟩
    rw [hfind]
    dsimp only
    rw [hdelay, hafi, hr, any_some, hreplies]
    rfl

theorem find_lt (hfind : Handler.find f.command = some (some h)) : f.command.toNat < 0xA0 := by
  rw [Handler.find] at hfind
  split at hfind
  · omega
  split at hfind
  · omega
  · cases hfind

theorem refusal_of_admits (hadm : s.Admits f)
    (hquiet : s.state = .quiet → f.inventory = false → f.addressed = false) :
    s.refusal f = none := by
  obtain ⟨-, hadm⟩ := hadm
  rw [refusal]
  by_cases hinv : f.inventory = true
  · rw [if_pos hinv] at hadm ⊢
    exact if_neg hadm
  · rw [if_neg hinv] at hadm ⊢
    obtain ⟨hboth, hsel, -, -⟩ := hadm
    rw [← Bool.and_eq_true] at hboth
    rw [if_neg hboth]
    by_cases hq : s.state = .quiet
    · rw [if_pos hq, if_neg (by rw [hquiet hq (by simpa using hinv)]; decide)]
    · rw [if_neg hq]
      by_cases hs : s.state = .selected
      · exact if_neg (not_not_intro hs)
      · rw [if_pos hs, if_neg fun hsel' => hs (hsel hsel')]

theorem takes_of_admits (hreg : s.Regular f) (hadm : s.Admits f)
    (hcalls : s.callsForReply f = true) : s.Takes f := by
  obtain ⟨h, r, hfind, -⟩ := callsForReply_eq_true.mp hcalls
  have hrule := hadm.2
  have hown : f.inventory = false → f.addressed = true → f.Names s := by
    intro hinv
    rw [hinv, if_neg (by decide)] at hrule
    exact hrule.2.2.1
  refine ⟨hadm.1, refusal_of_admits hadm ?_, find_lt hfind, hown⟩
  intro hq hinv
  by_contra hadd
  rw [hinv, if_neg (by decide)] at hrule
  rw [Bool.not_eq_false] at hadd
  exact (hreg.quiet hcalls hq hinv hrule.1).1 hadd (hown hinv hadd)

theorem admits_of_takes (hreg : s.Regular f) (htakes : s.Takes f)
    (hcalls : s.callsForReply f = true) : s.Admits f := by
  obtain ⟨hsize, hrefusal, -, hown⟩ := htakes
  refine ⟨hsize, ?_⟩
  rw [refusal] at hrefusal
  by_cases hinv : f.inventory = true
  · rw [if_pos hinv] at hrefusal ⊢
    intro hq
    rw [if_pos hq] at hrefusal
    cases hrefusal
  · rw [if_neg hinv] at hrefusal ⊢
    rw [Bool.not_eq_true] at hinv
    by_cases hboth : (f.selected && f.addressed) = true
    · rw [if_pos hboth] at hrefusal
      cases hrefusal
    rw [if_neg hboth] at hrefusal
    rw [Bool.and_eq_true] at hboth
    by_cases hq : s.state = .quiet
    · rw [if_pos hq] at hrefusal
      have hadd : f.addressed = false := by
        by_contra hadd
        rw [if_pos (by simpa using hadd)] at hrefusal
        cases hrefusal
      obtain ⟨hsel, hcmd⟩ := (hreg.quiet hcalls hq hinv hboth).2 hadd
      refine ⟨hboth, fun hsel' => ?_, fun hadd' => ?_, fun _ => .inr hcmd⟩
      · cases hsel.symm.trans hsel'
      · cases hadd.symm.trans hadd'
    · rw [if_neg hq] at hrefusal
      refine ⟨hboth, fun hsel => ?_, hown hinv, fun hq' => absurd hq' hq⟩
      by_contra hs
      rw [if_pos hs, if_pos hsel] at hrefusal
      cases hrefusal

/-- A request is answered exactly if the state admits it and its flags call for a reply. -/
theorem processRequest_answered (hreg : s.Regular f) : ∃ o, s.processRequest f = some o ∧
    (o.sent.isSome = true ↔ s.Admits f ∧ s.callsForReply f = true) := by
  by_cases htakes : s.Takes f
  · rw [processRequest_of_takes htakes, handleStandardRequest]
    have hsound := hreg.sound htakes
    have hafi := hreg.family htakes
    rw [Sound] at hsound
    cases hfind : Handler.find f.command with
    | none => rw [hfind] at hsound; exact absurd hsound id
    | some found =>
      rw [bind_some]
      cases found with
      | none =>
        refine ⟨_, rfl, ?_⟩
        rw [callsForReply, hfind]
        simp
      | some h =>
        rw [hfind] at hsound
        obtain ⟨r, hr⟩ := isSome_iff_exists.mp hsound
        obtain ⟨tx, htx, hr'⟩ := bind_eq_some_iff.mp hr
        obtain ⟨tx', htx', hholds⟩ := (BitBuffer.holds_alloc bufferSize).appendByte
          (show 0 < 1027 by decide) 0x00
        obtain rfl := some.inj (htx.symm.trans htx')
        have hkept := handle_kept hholds hr'
        obtain ⟨o, ho, -, hsent⟩ := finish_of_kept hkept
        have hwait := hkept.wait
        rw [(s.note_fields f).2.1] at hwait
        refine ⟨o, ?_, hsent.trans ⟨?_, ?_⟩⟩
        · dsimp only
          rw [htx, bind_some, hr', bind_some, ho]
        · rintro ⟨hreplies, hnow⟩
          have hdelay : (h.delays && f.option) = false := by
            rw [hwait] at hnow
            cases hd : h.delays with
            | false => rfl
            | true => rwa [hd, if_pos rfl] at hnow
          have hcalls := callsForReply_eq_true.mpr ⟨h, r, hfind, hr, hdelay, hafi, hreplies⟩
          exact ⟨admits_of_takes hreg htakes hcalls, hcalls⟩
        · rintro ⟨hadm, hcalls⟩
          obtain ⟨h', r', hfind', hr'', hdelay, -, hreplies⟩ := callsForReply_eq_true.mp hcalls
          obtain rfl := some.inj (some.inj (hfind.symm.trans hfind'))
          obtain rfl := some.inj (hr.symm.trans hr'')
          refine ⟨hreplies, ?_⟩
          rw [hwait]
          cases hd : h.delays with
          | true =>
            rw [hd, Bool.true_and] at hdelay
            rw [if_pos rfl, hdelay]
          | false =>
            rw [if_neg Bool.false_ne_true]
            by_contra hpending
            have hown := hreg.pending hcalls hadm (by simpa using hpending)
            rw [Frame.delays, hfind] at hown
            cases hd.symm.trans hown
  · obtain ⟨o, ho, hnone⟩ := processRequest_of_not_takes htakes
    refine ⟨o, ho, ?_⟩
    rw [hnone]
    refine iff_of_false (by decide) ?_
    rintro ⟨hadm, hcalls⟩
    exact htakes (takes_of_admits hreg hadm hcalls)

theorem processRequest_of_selectsOther (h : f.SelectsOther s) :
    s.processRequest f = some ⟨some (if s.state = .quiet then .ignore else .uidMismatch), s.note f,
      none⟩ := by
  obtain ⟨hinv, hadd, hsel, hsize, hother, hcmd⟩ := h
  have hrefusal : s.refusal f = if s.state = .quiet then some .ignore else none := by
    rw [refusal, hinv, hadd, hsel]
    cases s.state <;> rfl
  rw [processRequest, if_neg (by omega), hrefusal, hinv]
  by_cases hq : s.state = .quiet
  · rw [if_pos hq, if_pos hq]
    rfl
  · obtain ⟨huid, -, haddr⟩ := s.note_fields f
    have hdispatch : (s.note f).dispatch f = some ⟨some .uidMismatch, s.note f, none⟩ := by
      rw [dispatch, if_neg (by rw [hcmd]; decide), haddr, hinv, hadd, huid,
        if_pos (show (!false && true) = true from rfl), if_neg (by omega), if_pos hother]
    rw [if_neg hq, if_neg hq]
    exact hdispatch

theorem note_state (s : Session) (f : Frame) : (s.note f).state = s.state := by
  rw [note]
  cases f.inventory <;> rfl

theorem receive_lawful (hreg : s.Regular f) :
    ∃ o, s.receive (.request f) = some o ∧ s.Lawful f o := by
  obtain ⟨o, ho, hanswered⟩ := processRequest_answered hreg
  refine ⟨if o.error = some .uidMismatch then
    { o with session := o.session.processUidMismatch f } else o, ?_, ?_, ?_⟩
  · rw [receive, ho]
    rfl
  · split <;> exact hanswered
  · intro hother
    rw [processRequest_of_selectsOther hother] at ho
    obtain rfl := some.inj ho
    have hstate := s.note_state f
    by_cases hq : s.state = .quiet
    · rw [if_pos hq, if_neg (show ¬ some RequestError.ignore = some .uidMismatch by decide)]
      change (s.note f).state ≠ .selected
      rw [hstate, hq]
      decide
    · rw [if_neg hq, if_pos rfl]
      change ((s.note f).processUidMismatch f).state ≠ .selected
      rw [processUidMismatch, hother.2.2.2.2.2]
      by_cases hsel : (s.note f).state = .selected
      · rw [if_pos ⟨rfl, hsel⟩]
        exact State.noConfusion
      · rw [if_neg fun hboth => hsel hboth.2]
        exact hsel

/-- The listener receives one thing after the other. -/
def machine : Machine Session Received where
  step s e := (s.receive e).map Outcome.session

theorem machine_step (s : Session) (e : Received) :
    machine.step s e = (s.receive e).map Outcome.session := by
  simp only [machine]

def Allowed (s : Session) : Received → Prop
  | .request f => s.Regular f
  | .eof => True
  | .broken => True

/-- What has been received is dealt with, a request by the rule. -/
def Obeys (s : Session) (e : Received) : Prop :=
  ∃ o, s.receive e = some o ∧ ∀ f, e = .request f → s.Lawful f o

theorem obeys_of_allowed {e : Received} (h : s.Allowed e) : s.Obeys e := by
  cases e with
  | request f =>
    obtain ⟨o, ho, hlawful⟩ := receive_lawful h
    refine ⟨o, ho, fun g hg => ?_⟩
    obtain rfl := Received.request.inj hg
    exact hlawful
  | eof =>
    have hroom : ([] : List Byte).length + 2 ≤ bufferSize := by decide
    obtain ⟨frame, hcrc, -⟩ := (BitBuffer.holds_alloc bufferSize).appendBytes
      [(crcCalculate (BitBuffer.alloc bufferSize).bytes).toUInt8,
        (crcCalculate (BitBuffer.alloc bufferSize).bytes >>> 8).toUInt8] hroom
    by_cases hwait : s.waitForEof = true
    · refine ⟨⟨none, s.waitIf false, some frame⟩, ?_, fun f hf => Received.noConfusion hf⟩
      rw [receive, processSingleEof, if_pos hwait, crcAppend, hcrc]
      rfl
    · exact ⟨_, if_neg hwait, fun f hf => Received.noConfusion hf⟩
  | broken => exact ⟨_, rfl, fun f hf => Received.noConfusion hf⟩

/-- In a run whose requests meet the condition, every one is served as the rule says. -/
theorem session_obeys {es : List Received} (h : machine.Meets Allowed s es) :
    machine.Meets Obeys s es ∧ ∃ s', machine.run s es = some s' := by
  have hstep : ∀ s e, True → s.Allowed e → ∃ s', machine.step s e = some s' ∧ True := by
    intro s e _ hallowed
    obtain ⟨o, ho, -⟩ := obeys_of_allowed hallowed
    exact ⟨o.session, by rw [machine_step, ho]; rfl, trivial⟩
  obtain ⟨s', hrun, -⟩ := machine.run_of_meets hstep trivial h
  exact ⟨machine.meets_of_invariant (fun _ _ _ _ _ _ => trivial)
    (fun _ _ _ hallowed => obeys_of_allowed hallowed) trivial h, s', hrun⟩

instance (f : Frame) (s : Session) : Decidable (f.Names s) := inferInstanceAs (Decidable (_ ∧ _))

instance (s : Session) (f : Frame) : Decidable (s.Admits f) :=
  inferInstanceAs (Decidable (_ ∧ if f.inventory then s.state ≠ .quiet else _))

instance (s : Session) (f : Frame) : Decidable (s.Takes f) :=
  inferInstanceAs (Decidable (_ ∧ _ ∧ _ ∧ _))

instance (s : Session) (f : Frame) : Decidable (s.Sound f) :=
  match h : Handler.find f.command with
  | none => .isFalse (by rw [Sound, h]; exact id)
  | some none => .isTrue (by rw [Sound, h]; trivial)
  | some (some k) => decidable_of_iff ((s.handled f k).isSome = true) (by rw [Sound, h])

instance (s : Session) (f : Frame) : Decidable (s.Regular f) :=
  decidable_of_iff ((s.Takes f → s.Sound f) ∧ (s.Takes f → s.otherAfi f = false) ∧
    (s.callsForReply f = true → s.state = .quiet → f.inventory = false →
      ¬ (f.selected = true ∧ f.addressed = true) → (f.addressed = true → ¬ f.Names s) ∧
        (f.addressed = false → f.selected = false ∧ f.command = 0x26)) ∧
    (s.callsForReply f = true → s.Admits f → s.waitForEof = true → f.delays = true))
    ⟨fun h => ⟨h.1, h.2.1, h.2.2.1, h.2.2.2⟩, fun h => ⟨h.sound, h.family, h.quiet, h.pending⟩⟩

instance (s : Session) : ∀ e, Decidable (s.Allowed e)
  | .request f => inferInstanceAs (Decidable (s.Regular f))
  | .eof => .isTrue trivial
  | .broken => .isTrue trivial

def sampleSession : Session where
  toListener := sampleListener
  uid := [0xE0, 0x04, 1, 2, 3, 4, 5, 6]
  length_uid := rfl
  flags := 0x0F
  dsfid := 0
  afi := 0
  icRef := 1
  lockDsfid := false
  lockAfi := false
  state := .ready
  selected := false
  addressed := false

def sampleFrame (bytes : List Byte) : Received := .request
  { data := bytes ++ List.replicate 8 0
    size := bytes.length
    size_le := Request.length_le_padded bytes }

/-- A request to the sample card. -/
def addressedFrame (flags command : Byte) (bytes : List Byte) : Received :=
  sampleFrame ([flags, command, 6, 5, 4, 3, 2, 1, 0x04, 0xE0] ++ bytes)

/-- The card is found and read, written to with the reply put off, put to rest, woken up, selected
and read, and loses the selection to another card. -/
def sampleReceived : List Received :=
  [sampleFrame [0x26, 0x01, 0], addressedFrame 0x22 0x20 [1],
    addressedFrame 0x62 0x21 [1, 0x11, 0x12, 0x13, 0x14], .eof, addressedFrame 0x22 0x02 [],
    sampleFrame [0x22, 0x20, 9, 9, 9, 9, 9, 9, 9, 9, 1], sampleFrame [0x02, 0x26],
    addressedFrame 0x22 0x25 [], sampleFrame [0x12, 0x20, 1], .broken,
    sampleFrame [0x22, 0x25, 9, 9, 9, 9, 9, 9, 9, 9], sampleFrame [0x12, 0x20, 1]]

theorem session_obeys_sample : machine.Meets Obeys sampleSession sampleReceived ∧
    ∃ s', machine.run sampleSession sampleReceived = some s' :=
  session_obeys (by decide +kernel)

/-- A request should be answered, and is not. -/
def silent (s : Session) (f : Frame) : Bool :=
  (s.receive (.request f)).all (fun o => o.sent.isNone) && decide (s.Admits f) && s.callsForReply f

theorem not_obeys_of_silent {es : List Received} (f : Frame)
    (h : (machine.run s es).any (fun s' => s'.silent f) = true) :
    ¬ machine.Meets Obeys s (es ++ [.request f]) := by
  cases hrun : machine.run s es with
  | none =>
    rw [hrun] at h
    exact absurd h Bool.false_ne_true
  | some s' =>
    rw [hrun, any_some, silent, Bool.and_eq_true, Bool.and_eq_true, decide_eq_true_iff] at h
    obtain ⟨⟨hnone, hadm⟩, hcalls⟩ := h
    rw [machine.meets_append hrun]
    rintro ⟨-, ⟨o, ho, hlawful⟩, -⟩
    have hsent := (hlawful f rfl).answered.mpr ⟨hadm, hcalls⟩
    rw [ho, all_some, isNone_iff_eq_none] at hnone
    rw [hnone] at hsent
    cases hsent

/-- The request to read the second block of the sample card. -/
def readFrame : Frame where
  data := [0x22, 0x20, 6, 5, 4, 3, 2, 1, 0x04, 0xE0, 1]
  size := 11
  size_le := by decide

/-- The quiet card ignores a request with its UID, and after a rejected write that asked for an end
of frame the card is silent. -/
theorem session_not_obeys : ¬ machine.Meets Obeys sampleSession
      ([addressedFrame 0x22 0x02 []] ++ [.request readFrame]) ∧
    ¬ machine.Meets Obeys sampleSession ([addressedFrame 0x62 0x21 [1]] ++ [.request readFrame]) :=
  ⟨not_obeys_of_silent readFrame (by decide +kernel),
    not_obeys_of_silent readFrame (by decide +kernel)⟩

end Session

end NikitaFirmware.Iso15693
