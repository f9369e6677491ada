import NikitaFirmware.MfClassic.SessionHandlers

/-!
# Changing a value

The commands of `mf_classic_poller_i.c` for a value block, and
`mf_classic_poller_sync_change_value`, which runs them against a card. Every command goes out
encrypted and with its checksum. The operand of a value operation is the one frame that the card
does not answer: the poller takes the timeout for success.
-/

namespace NikitaFirmware.MfClassic
open Nfc List Option

namespace Poller

/-- What comes back is received; without an answer the lower layer reports a timeout. -/
def receiveAnswer (p : Poller) : Option BitBuffer → Option (Option Error3a × Poller)
  | none => some (some .timeout, p)
  | some frame => (p.rxEncrypted.copy frame).map fun rx => (none, { p with rxEncrypted := rx })

/-- The answer is the four bits of an acknowledgement. -/
def readAck (p : Poller) : Option (Option Error × Poller) :=
  if p.rxEncrypted.sizeBits ≠ 4 then some (some .protocol, p)
  else do
    let r ← p.crypto.decrypt p.rxEncrypted p.rxPlain
    let byte ← r.2.getByte 0
    return (if byte = 0x0A then none else some .protocol, { p with crypto := r.1, rxPlain := r.2 })

def zeroBlock : Block := ⟨List.replicate 16 0, Block.length_zeros⟩

def readBlockAnswer (p : Poller) : Option (Except Error Block × Poller) :=
  if p.rxEncrypted.sizeBytes ≠ 18 then some (.error .protocol, p)
  else do
    let r ← p.crypto.decrypt p.rxEncrypted p.rxPlain
    let p := { p with crypto := r.1, rxPlain := r.2 }
    if crcCheck r.2.bytes then
      let rx ← crcTrim r.2
      return (.ok (zeroBlock.copyIn 0 rx.bytes), { p with rxPlain := rx })
    else return (.error .protocol, p)

end Poller

def ValueCommand.byte : ValueCommand → Byte
  | .decrement => 0xC0
  | .increment => 0xC1
  | _ => 0xC2

namespace Link

/-- A command and what comes back, through `iso14443_3a_poller_txrx_custom_parity`. The nonce is
the one that the listener would draw. -/
def exchange (s : Link) (command : List Byte) (nt : Nonce) : Option (Option Error3a × Link) := do
  let tx ← s.poller.txPlain.copyBytes command
  let tx ← Listener.crcAppend tx
  let (p, frame) ← { s.poller with txPlain := tx }.sendEncryptedFrame tx
  let h ← s.listener.deliver frame nt
  let (e, p) ← p.receiveAnswer h.answer
  return (e, ⟨p, h.listener⟩)

def acknowledged (s : Link) (command : List Byte) (nt : Nonce) : Option (Option Error × Link) := do
  let (e, s) ← s.exchange command nt
  match e with
  | some e => return (some (processError e), s)
  | none =>
    let (e, p) ← s.poller.readAck
    return (e, { s with poller := p })

def valueCmd (s : Link) (block : Byte) (cmd : ValueCommand) (data : Word) (nt : Nonce) :
    Option (Option Error × Link) := do
  let (e, s) ← s.acknowledged [cmd.byte, block] nt
  match e with
  | some e => return (some e, s)
  | none =>
    let (e, s) ← s.exchange (littleEndian data) nt
    -- the command is carried out if the card does not respond
    return (if e = some .timeout then none else some .protocol, s)

def valueTransfer (s : Link) (block : Byte) (nt : Nonce) : Option (Option Error × Link) :=
  s.acknowledged [0xB0, block] nt

def readBlock (s : Link) (block : Byte) (nt : Nonce) : Option (Except Error Block × Link) := do
  let (e, s) ← s.exchange [0x30, block] nt
  match e with
  | some e => return (.error (processError e), s)
  | none =>
    let (r, p) ← s.poller.readBlockAnswer
    return (r, { s with poller := p })

/-- `mf_classic_poller_halt` -/
def halt (s : Link) (nt : Nonce) : Option (Option Error × Link) := do
  let (e, s) ← s.exchange [0x50, 0x00] nt
  return (if e = some .timeout then none else e.map processError, s)

/-- The next command follows one that has succeeded. -/
def proceed {α : Type} (r : Option Error × Link) (next : Link → Option (Except Error α × Link)) :
    Option (Except Error α × Link) :=
  match r.1 with
  | some e => some (.error e, r.2)
  | none => next r.2

def readNewValue (s : Link) (block : Byte) (nt : Nonce) : Option (Except Error Word × Link) := do
  let (r, s) ← s.readBlock block nt
  match r with
  | .error e => return (.error e, s)
  | .ok content =>
    let r ← s.halt nt
    proceed r fun s =>
      if (blockToValue content).1 then some (.ok (blockToValue content).2, s)
      else some (.error .protocol, s)

def changeValueHandler (s : Link) (a : Authentication) (cmd : ValueCommand) (data : Word) :
    Option (Except Error Word × Link) := do
  let r ← s.authenticate a
  proceed r fun s => do
    let r ← s.valueCmd a.block cmd data a.nt
    proceed r fun s => do
      let r ← s.valueTransfer a.block a.nt
      proceed r fun s => s.readNewValue a.block a.nt

def changeCommand (data : Word) : ValueCommand × Word :=
  if 0 < data.toInt then (.increment, data)
  else if data.toInt < 0 then (.decrement, -data)
  else (.restore, 0)

/-- `mf_classic_poller_sync_change_value`, with the key of the card; an error leaves the value of
the caller alone. -/
def syncChangeValue (s : Link) (block : Byte) (keyType : KeyType) (nt nr : Nonce) (data : Word) :
    Option (Except Error Word × Link) :=
  s.changeValueHandler ⟨false, keyType, block, nt, nr⟩ (changeCommand data).1 (changeCommand data).2

end Link

variable {v w data : Word} {block : Byte} {d : Data} {kt : KeyType}

theorem word_append (xs ys zs : List Byte) (b : Block) (h : b.bytes = xs ++ ys ++ zs)
    (hlen : ys.length = 4) : b.word xs.length = Crypto1.bytesToNum ys.reverse := by
  have hpart : b.part xs.length 4 = ys := by
    rw [Block.part, h, append_assoc, drop_left, ← hlen, take_left]
  rw [Block.word, hpart]

theorem bytesToNum_littleEndian (w : Word) : Crypto1.bytesToNum (littleEndian w).reverse = w := by
  rw [littleEndian, reverse_reverse, Handshake.bytesToNum_numToBytes]

theorem blockToValue_valueToBlock (v : Word) (addr : Byte) :
    blockToValue (valueToBlock v addr) = (true, v) := by
  have h0 : (valueToBlock v addr).word 0 = v :=
    (word_append [] (littleEndian v) (littleEndian (~~~ v) ++ littleEndian v ++
      [addr, ~~~ addr, addr, ~~~ addr]) _ rfl rfl).trans (bytesToNum_littleEndian v)
  have h4 : (valueToBlock v addr).word 4 = ~~~ v :=
    (word_append (littleEndian v) (littleEndian (~~~ v)) (littleEndian v ++
      [addr, ~~~ addr, addr, ~~~ addr]) _ rfl rfl).trans (bytesToNum_littleEndian _)
  have h8 : (valueToBlock v addr).word 8 = v :=
    (word_append (littleEndian v ++ littleEndian (~~~ v)) (littleEndian v)
      [addr, ~~~ addr, addr, ~~~ addr] _ rfl rfl).trans (bytesToNum_littleEndian v)
  have hbytes : ∀ i x, (valueToBlock v addr).bytes[i]? = some x →
      (valueToBlock v addr).byte i = x := by
    intro i x hx
    rw [Block.byte, getD_eq_getElem?_getD, hx, getD_some]
  rw [blockToValue, h0, h4, h8, hbytes 12 addr rfl, hbytes 13 (~~~ addr) rfl, hbytes 14 addr rfl,
    hbytes 15 (~~~ addr) rfl, BitVec.not_not]
  have hnot : ∀ x : Byte, (x == ~~~ ~~~ x) = true := forall_byte (by decide +kernel)
  rw [hnot, beq_self_eq_true, beq_self_eq_true]
  rfl

theorem operand_changeCommand (data : Word) :
    Listener.operand (Link.changeCommand data).1 (Link.changeCommand data).2 = data := by
  rw [Link.changeCommand]
  by_cases hpos : 0 < data.toInt
  · rw [if_pos hpos]
    have hmsb : data.msb = false := by
      rw [BitVec.msb_eq_toInt]
      exact decide_eq_false (by omega)
    change (if data.msb then -data else data) = data
    rw [hmsb, if_neg (by simp)]
  · rw [if_neg hpos]
    by_cases hneg : data.toInt < 0
    · rw [if_pos hneg]
      change -(if (-data).msb then - -data else -data) = data
      cases hmsb : (-data).msb with
      | false => rw [if_neg (by simp), BitVec.neg_neg]
      | true =>
        -- the smallest number is its own negation
        rw [if_pos rfl, BitVec.neg_neg]
        rw [BitVec.msb_eq_toInt, decide_eq_true_iff, BitVec.toInt_neg] at hmsb
        refine BitVec.eq_of_toInt_eq ?_
        rw [BitVec.toInt_neg]
        have hlt := data.toInt_lt
        have hle := data.le_toInt
        rw [Int.bmod_def] at hmsb ⊢
        omega
    · rw [if_neg hneg]
      have hzero : data.toInt = (0#32).toInt := by
        rw [BitVec.toInt_zero]
        omega
      exact (BitVec.eq_of_toInt_eq hzero).symm

theorem isSectorTrailer_of_allowed (cmd : ValueCommand)
    (h : isAllowedAccess d block kt (Listener.valueAccess cmd) = true) :
    isSectorTrailer block = false := by
  by_contra ht
  rw [isAllowedAccess, if_pos (Bool.eq_true_of_not_eq_false ht)] at h
  cases cmd <;> exact Bool.false_ne_true h

theorem isAllowedAccess_mono {act act' : Action}
    (hmono : ∀ ac, dataAccess ac kt act = true → dataAccess ac kt act' = true)
    (hwrite : act' ≠ .dataWrite) (ht : isSectorTrailer block = false)
    (h : isAllowedAccess d block kt act = true) : isAllowedAccess d block kt act' = true := by
  rw [isAllowedAccess, if_neg (by rw [ht]; simp), isAllowedAccessDataBlock] at h ⊢
  rw [if_neg fun hw => hwrite hw.2]
  split at h
  · cases h
  · dsimp only at h ⊢
    split at h
    case h_1 ac hac => exact hmono ac h
    case h_2 => cases h

theorem dec_of_allowed (cmd : ValueCommand)
    (h : isAllowedAccess d block kt (Listener.valueAccess cmd) = true) :
    isAllowedAccess d block kt .dataDec = true := by
  refine isAllowedAccess_mono ?_ (by decide) (isSectorTrailer_of_allowed cmd h) h
  cases cmd with
  | increment => cases kt <;> exact forall_byte (by decide +kernel)
  | decrement | restore | invalid => exact fun _ hac => hac

theorem read_of_dec (ht : isSectorTrailer block = false)
    (h : isAllowedAccess d block kt .dataDec = true) :
    isAllowedAccess d block kt .dataRead = true := by
  refine isAllowedAccess_mono ?_ (by decide) ht h
  cases kt <;> exact forall_byte (by decide +kernel)

theorem trailer_ne : ∀ block : Byte, isSectorTrailer block = false →
    getSectorTrailerNumBySector (getSectorByBlock block) ≠ block :=
  forall_byte (by decide +kernel)

theorem isAllowedAccess_setBlock (content : Block) (action : Action)
    (ht : isSectorTrailer block = false) :
    isAllowedAccess (d.setBlock block content) block kt action =
      isAllowedAccess d block kt action := by
  have htrailer : (d.setBlock block content).getSectorTrailerBySector (getSectorByBlock block) =
      d.getSectorTrailerBySector (getSectorByBlock block) :=
    Function.update_of_ne (trailer_ne block ht) ..
  rw [isAllowedAccess, isAllowedAccess, htrailer, if_neg (by rw [ht]; simp),
    if_neg (by rw [ht]; simp)]

namespace Listener

variable {l : Listener} {rx : BitBuffer} {nt : Nonce} {cmd : ValueCommand} {c : Crypto1} {x y : Byte}

structure Serves (l : Listener) (d : Data) (kt : KeyType) (block : Byte) : Prop where
  data : l.data = d
  total : l.totalBlockNum = getTotalBlockNum d.type
  selects : l.Selects kt block

structure Loaded (l : Listener) (cmd : ValueCommand) (v : Word) : Prop where
  progress : l.cmdInProgress = true
  handler : handlerAt l.currentCmdIdx l.currentCmdHandlerIdx = some .valueDataReceive
  next : handlerAt l.currentCmdIdx (l.currentCmdHandlerIdx + 1) = some .valueTransfer
  cmd : l.valueCmd = cmd
  value : l.transferValue = v

/-- The value has been changed, and the listener waits for the transfer. -/
structure Changed (l : Listener) (v : Word) : Prop where
  progress : l.cmdInProgress = true
  handler : handlerAt l.currentCmdIdx l.currentCmdHandlerIdx = some .valueTransfer
  value : l.transferValue = v

theorem Serves.allows (hs : l.Serves d kt block) (action : Action) :
    l.allows block action = isAllowedAccess d block kt action := by
  rw [Listener.allows, hs.data, hs.selects.keyType]

theorem Serves.inSector (hs : l.Serves d kt block) : l.inSector block = true := by
  rw [Listener.inSector, hs.selects.block, beq_self_eq_true]

theorem getByte_pair {n : Nat} (hb : rx.Holds n [x, y]) :
    rx.getByte 0 = some x ∧ rx.getByte 1 = some y :=
  ⟨hb.getByte (show 0 < 2 by decide), hb.getByte (show 1 < 2 by decide)⟩

theorem findCmd_pair {n : Nat} (hb : rx.Holds n [x, y]) :
    findCmd rx = cmdHandlers.findIdx? fun cmd =>
      16 == cmd.cmdLenBits && some x == some cmd.cmdStartByte := by
  have hhead : rx.data.head? = some x := by
    rw [← (getByte_pair hb).1, BitBuffer.getByte, List.head?_eq_getElem?]
  have hsize : rx.sizeBits = 16 := hb.sizeBits
  rw [findCmd, hhead, hsize]

theorem findCmd_value (hcmd : valueAction cmd.byte = some (cmd, valueAccess cmd))
    (hb : rx.Holds 64 [cmd.byte, block]) :
    ∃ i, findCmd rx = some i ∧ handlerAt i 0 = some .valueCmd ∧
      handlerAt i 1 = some .valueDataReceive ∧ handlerAt i 2 = some .valueTransfer := by
  rw [findCmd_pair hb]
  cases cmd with
  | decrement => exact ⟨6, rfl, rfl, rfl, rfl⟩
  | increment => exact ⟨7, rfl, rfl, rfl, rfl⟩
  | restore => exact ⟨8, rfl, rfl, rfl, rfl⟩
  | invalid => cases hcmd

theorem dispatch_valueCmd (nt : Nonce) (hcmd : valueAction cmd.byte = some (cmd, valueAccess cmd))
    (hl : l.Listens c) (hs : l.Serves d kt block) (hprog : l.cmdInProgress = false)
    (hb : rx.Holds 64 [cmd.byte, block]) (hlt : block.toNat < getTotalBlockNum d.type)
    (hallowed : isAllowedAccess d block kt (valueAccess cmd) = true)
    (hv : blockToValue (d.block block) = (true, v)) :
    ∃ h, l.dispatch rx nt = some h ∧ h.command = .ack ∧ h.sent = [] ∧ h.listener.Listens c ∧
      h.listener.Serves d kt block ∧ h.listener.Loaded cmd v := by
  obtain ⟨i, hfind, hfirst, hreceive, htransfer⟩ := findCmd_value hcmd hb
  obtain ⟨hbyte, hblock⟩ := getByte_pair hb
  let k : Listener := { l with currentCmdIdx := i, currentCmdHandlerIdx := 0 }
  have hk : k.Serves d kt block := ⟨hs.data, hs.total, hs.selects.keyType, hs.selects.block⟩
  have hrun : l.dispatch rx nt = some (k.loadValue block cmd (valueAccess cmd)) := by
    rw [dispatch, if_neg (by rw [hprog]; simp), hfind]
    change (handlerAt i 0).bind _ = _
    rw [hfirst, bind_some]
    change k.valueCmdHandler rx = _
    have hstate : k.state = .authComplete := hl.state
    have htotal : ¬ k.totalBlockNum ≤ block.toNat := by
      rw [hk.total]
      omega
    rw [valueCmdHandler, hblock, hbyte, bind_eq_bind, bind_some, if_neg, bind_some, hcmd]
    · rfl
    · rw [hstate, hk.inSector]
      simp [htotal]
  have hload : k.loadValue block cmd (valueAccess cmd) = {
      command := .ack
      listener := nextHandler { k with
        valueCmd := cmd, transferValue := v, transferValid := true }
      loaded := some (block, cmd) } := by
    rw [loadValue, hk.allows, if_pos hallowed, hk.data, hv, if_pos rfl]
  refine ⟨_, hrun, ?_⟩
  rw [hload]
  exact ⟨rfl, rfl, hl.like rfl rfl rfl rfl rfl rfl,
    ⟨hs.data, hs.total, hs.selects.keyType, hs.selects.block⟩,
    ⟨rfl, hreceive, htransfer, rfl, rfl⟩⟩

theorem dispatch_valueData (nt : Nonce) (hl : l.Listens c) (hs : l.Serves d kt block)
    (hv : l.Loaded cmd v) (hb : rx.Holds 64 (littleEndian w)) :
    ∃ h, l.dispatch rx nt = some h ∧ h.command = .silent ∧ h.sent = [] ∧ h.listener.Listens c ∧
      h.listener.Serves d kt block ∧ h.listener.Changed (v + operand cmd w) := by
  have hsize : rx.sizeBytes = 4 := hb.sizeBytes
  have hbytes : rx.writeBytesMid 0 4 = some (littleEndian w) := by
    have htake : rx.data.take 4 = littleEndian w := hb.take
    rw [BitBuffer.writeBytesMid, hsize, if_neg (by decide), drop_zero, htake]
  have hrun : l.dispatch rx nt = some {
      command := .silent
      listener := nextHandler { l with
        transferValue := l.transferValue + operand l.valueCmd w, transferValid := true } } := by
    rw [dispatch, if_pos hv.progress, hv.handler, bind_some]
    change l.valueDataReceiveHandler rx = _
    rw [valueDataReceiveHandler, if_neg (not_not_intro hsize), hbytes, bind_eq_bind,
      bind_some, bytesToNum_littleEndian]
    rfl
  refine ⟨_, hrun, rfl, rfl, hl.like rfl rfl rfl rfl rfl rfl,
    ⟨hs.data, hs.total, hs.selects.keyType, hs.selects.block⟩, ⟨rfl, hv.next, ?_⟩⟩
  rw [← hv.value, ← hv.cmd]
  rfl

theorem dispatch_valueTransfer (nt : Nonce) (hl : l.Listens c) (hs : l.Serves d kt block)
    (hv : l.Changed v) (hb : rx.Holds 64 [0xB0, block])
    (hdec : isAllowedAccess d block kt .dataDec = true) :
    ∃ h, l.dispatch rx nt = some h ∧ h.command = .ack ∧ h.sent = [] ∧ h.listener.Listens c ∧
      h.listener.Serves (d.setBlock block (valueToBlock v block)) kt block ∧
      h.listener.cmdInProgress = false := by
  obtain ⟨hbyte, hblock⟩ := getByte_pair hb
  have hallows : l.allows block .dataDec = true := (hs.allows .dataDec).trans hdec
  have hrun : l.dispatch rx nt = some {
      command := .ack
      listener := { l with
        cmdInProgress := false
        data := l.data.setBlock block (valueToBlock l.transferValue block)
        transferValue := 0
        transferValid := false }
      written := some (block, .dataDec) } := by
    rw [dispatch, if_pos hv.progress, hv.handler, bind_some]
    change l.valueTransferHandler rx = _
    have hsize : rx.sizeBytes = 2 := hb.sizeBytes
    rw [valueTransferHandler, if_neg (not_not_intro hsize), hbyte, hblock,
      bind_eq_bind, bind_some, bind_some]
    exact if_pos ⟨rfl, hallows⟩
  refine ⟨_, hrun, rfl, rfl, hl.like rfl rfl rfl rfl rfl rfl,
    ⟨?_, hs.total, hs.selects.keyType, hs.selects.block⟩, rfl⟩
  change l.data.setBlock block (valueToBlock l.transferValue block) = _
  rw [hs.data, hv.value]

variable {tx frame : BitBuffer} {c' : Crypto1}

theorem Serves.sends (hs : l.Serves d kt block) : (l.sends tx c' frame).Serves d kt block :=
  ⟨hs.data, hs.total, hs.selects.keyType, hs.selects.block⟩

theorem Loaded.sends (hv : l.Loaded cmd v) : (l.sends tx c' frame).Loaded cmd v :=
  ⟨hv.progress, hv.handler, hv.next, hv.cmd, hv.value⟩

theorem sendShortFrame_eq (hl : l.Listens c) (x : Byte) :
    ∃ tx frame, l.sendShortFrame x = some (l.sends tx (c.shortByte x 4).2 frame,
        ⟨tx, frame, none, (c.shortByte x 4).2⟩) ∧
      frame.sizeBits = 4 ∧ frame.bytes = [(c.shortByte x 4).1] ∧
      frame.sizeBytes ≤ frame.capacityBytes ∧
      (l.sends tx (c.shortByte x 4).2 frame).Listens (c.shortByte x 4).2 := by
  have htxcap : 1 ≤ l.txPlain.capacityBytes := by
    rw [hl.buffers.txPlain]
    decide
  have hcap : 1 ≤ l.txEncrypted.capacityBytes := by
    rw [hl.buffers.txEncrypted]
    decide
  have hset := BitBuffer.setSize_setByte_short (n := 4) rfl htxcap x
  have hhead : (l.txPlain.short x).data.headD 0 = x :=
    BitBuffer.headD_data rfl (BitBuffer.bytes_short_eq htxcap x)
  have hencrypt := Crypto1.encrypt_short c (show (l.txPlain.short x).sizeBits = 4 from rfl) hcap
  rw [hhead] at hencrypt
  have hlen : (l.txEncrypted.short (c.shortByte x 4).1).capacityBytes =
      l.txEncrypted.capacityBytes := length_set
  refine ⟨l.txPlain.short x, l.txEncrypted.short (c.shortByte x 4).1, ?_, rfl,
    BitBuffer.bytes_short_eq hcap _, ?_, hl.sends ?_ ?_ ?_⟩
  · rw [sendShortFrame, bind_eq_bind]
    rw [bind_eq_some_iff] at hset
    obtain ⟨b, hsize, hbyte⟩ := hset
    have hsend : sendEncrypted { l with txPlain := l.txPlain.short x } [] none =
        some (l.sends (l.txPlain.short x) (c.shortByte x 4).2
          (l.txEncrypted.short (c.shortByte x 4).1), ⟨l.txPlain.short x,
            l.txEncrypted.short (c.shortByte x 4).1, none, (c.shortByte x 4).2⟩) := by
      rw [sendEncrypted, hl.crypto, hencrypt]
      rfl
    rw [hsize, bind_some, hbyte, bind_some, ← hsend]
    split
    case h_1 => rfl
    case h_2 hplain => cases hplain.symm.trans hl.commState
  · exact (BitBuffer.isFrame_short hcap _).1
  · exact (length_set).trans hl.buffers.txPlain
  · exact hlen.trans hl.buffers.txEncrypted
  · rw [hlen]
    exact hl.buffers.parity

theorem sendBlock_eq (hl : l.Listens c) (block : Byte) (content : Block) :
    ∃ tx frame, l.sendBlock block content = some {
        command := .processed
        listener := l.sends tx (c.cipherEnd [] (withCrc content.bytes)) frame
        sent := [⟨tx, frame, some block, c.cipherEnd [] (withCrc content.bytes)⟩] } ∧
      frame.Holds 64 ((c.cipher [] (withCrc content.bytes)).map Prod.fst) ∧
      (l.sends tx (c.cipherEnd [] (withCrc content.bytes)) frame).Listens
        (c.cipherEnd [] (withCrc content.bytes)) := by
  have hlen : (withCrc content.bytes).length = 18 := by
    rw [withCrc, length_append, content.length_bytes]
    rfl
  obtain ⟨tx, htx, hholds, -⟩ := exists_copyBytes l.txPlain content.bytes
    (by rw [content.length_bytes, hl.buffers.txPlain]; decide)
  rw [hl.buffers.txPlain] at hholds
  obtain ⟨tx', htx', hholds'⟩ := exists_crcAppend hholds (by rw [content.length_bytes]; decide)
  obtain ⟨frame, hencrypt, hair, -, hpar⟩ := Crypto1.encrypt_holds c [] hholds'
    (by rw [← withCrc, hlen]; decide) (by rw [← withCrc, hlen, hl.buffers.txEncrypted]; decide)
    hl.buffers.parity
  rw [hl.buffers.txEncrypted] at hair
  refine ⟨tx', frame, ?_, hair, hl.sends hholds'.capacity hair.capacity hpar⟩
  rw [sendBlock, htx, bind_eq_bind, bind_some, htx', bind_eq_bind,
    bind_some, sendEncrypted, hl.crypto, hencrypt]
  rfl

theorem dispatch_readBlock (nt : Nonce) (hl : l.Listens c) (hs : l.Serves d kt block)
    (hprog : l.cmdInProgress = false) (hb : rx.Holds 64 [0x30, block])
    (ht : isSectorTrailer block = false) (hread : isAllowedAccess d block kt .dataRead = true) :
    ∃ l' t, l.dispatch rx nt = some { command := .processed, listener := l', sent := [t] } ∧
      t.frame.Holds 64 ((c.cipher [] (withCrc (d.block block).bytes)).map Prod.fst) ∧
      l'.Listens (c.cipherEnd [] (withCrc (d.block block).bytes)) ∧ l'.Serves d kt block ∧
      l'.cmdInProgress = false := by
  obtain ⟨-, hblock⟩ := getByte_pair hb
  let k : Listener := { l with currentCmdIdx := 4, currentCmdHandlerIdx := 0 }
  have hk : k.Serves d kt block := ⟨hs.data, hs.total, hs.selects.keyType, hs.selects.block⟩
  have hlk : k.Listens c := hl.like rfl rfl rfl rfl rfl rfl
  obtain ⟨tx, frame, hsend, hair, hlistens⟩ := sendBlock_eq hlk block (d.block block)
  refine ⟨_, ⟨tx, frame, some block, c.cipherEnd [] (withCrc (d.block block).bytes)⟩, ?_, hair, hlistens,
    hk.sends, hprog⟩
  rw [dispatch, if_neg (by rw [hprog]; simp), findCmd_pair hb]
  change k.readBlockHandler rx = _
  rw [readBlockHandler, hblock, bind_eq_bind, bind_some, if_neg, if_neg, if_pos, hk.data, hsend]
  · exact (hk.allows .dataRead).trans hread
  · rw [ht]
    simp
  · rw [hlk.state, hk.inSector]
    simp

theorem dispatch_halt (nt : Nonce) (hprog : l.cmdInProgress = false) (hb : rx.Holds 64 [0x50, 0x00]) :
    ∃ h, l.dispatch rx nt = some h ∧ h.command = .sleep ∧ h.sent = [] ∧
      h.listener.data = l.data := by
  obtain ⟨-, hlsb⟩ := getByte_pair hb
  refine ⟨{ command := .sleep, listener := { l with
    currentCmdIdx := 0, currentCmdHandlerIdx := 0 } }, ?_, rfl, rfl, rfl⟩
  rw [dispatch, if_neg (by rw [hprog]; simp), findCmd_pair hb]
  change haltHandler { l with currentCmdIdx := 0, currentCmdHandlerIdx := 0 } rx = _
  rw [haltHandler, hlsb]
  rfl

end Listener

end NikitaFirmware.MfClassic
