import NikitaFirmware.Nfc.PollerBlocks

/-!
# What a block of the poller is answered with

The receptions after a block decide by themselves what comes of it: an error, or the information
field of the first block that is not a request for more time. The functions of the poller arrive
at this answer, and have no result only where the information field does not fit the buffer it is
copied to.
-/

namespace NikitaFirmware.Nfc
open BitBuffer List Option

variable {b tx rx : BitBuffer} {p : Poller} {l : Layer} {bytes bs : List Byte} {n cap : Nat}
  {pcb : Byte}

def pollerBufSize : Nat := 256

theorem length_of_crcCheck (h : crcCheck bytes = true) : 2 < bytes.length := by
  rw [crcCheck, Bool.and_eq_true] at h
  exact of_decide_eq_true h.1

theorem Holds.crcTrim (h : b.Holds n bytes) (hlen : 2 < bytes.length) :
    ∃ c, crcTrim b = some c ∧ c.Holds n (bytes.take (bytes.length - 2)) ∧ c.data = b.data := by
  obtain ⟨c, hc, hcb⟩ := h.setSizeBytes (i := bytes.length - 2) (by omega)
  refine ⟨c, ?_, hcb⟩
  rw [Nfc.crcTrim, h.sizeBytes, if_neg (by omega), hc]

/-- The buffers of a poller that is about to transmit. -/
structure Poller.Ready (p : Poller) : Prop where
  tx : p.tx.capacityBytes = pollerBufSize
  rx : p.rx.capacityBytes = pollerBufSize
  size : p.tx.sizeBytes ≤ pollerBufSize

/-- What the exchange of a frame returns, with the bytes that were received. -/
def Reception.received : Reception → Except Error3a (List Byte)
  | .error e => .error e
  | .frame bytes =>
    if pollerBufSize < bytes.length then .error .bufferOverflow
    else if crcCheck bytes then .ok bytes
    else .error .wrongCrc

theorem standardFrameExchange_error (htx : tx.sizeBytes ≤ pollerBufSize)
    (hrx : rx.capacityBytes = pollerBufSize) {r : Reception} {e : Error3a}
    (hr : r.received = .error e) :
    ∃ rx', standardFrameExchange tx rx r = some (some e, rx') ∧
      rx'.capacityBytes = pollerBufSize := by
  have hfit : ¬ pollerMaxBufferSize < tx.sizeBytes + 2 := by
    rw [pollerMaxBufferSize]
    rw [pollerBufSize] at htx
    omega
  cases r with
  | error e' =>
    obtain rfl := Except.error.inj hr
    exact ⟨rx, if_neg hfit, hrx⟩
  | frame bytes =>
    rw [Reception.received] at hr
    rw [standardFrameExchange, if_neg hfit]
    change ∃ rx', (if rx.capacityBytes < bytes.length then _ else _) = _ ∧ _
    rw [hrx]
    split at hr
    case isTrue hlt =>
      obtain rfl := Except.error.inj hr
      exact ⟨rx, if_pos hlt, hrx⟩
    case isFalse hle =>
      split at hr
      · cases hr
      case isFalse hcrc =>
        obtain rfl := Except.error.inj hr
        obtain ⟨c, hc, hcb⟩ := Holds.copy hrx (holds_ofBytes bytes) (Nat.le_of_not_lt hle)
        refine ⟨c, ?_, hcb.capacity⟩
        rw [if_neg hle, hc, bind_eq_bind, bind_some, if_neg hcrc]
        rfl

theorem standardFrameExchange_ok (htx : tx.sizeBytes ≤ pollerBufSize)
    (hrx : rx.capacityBytes = pollerBufSize) {r : Reception} (hr : r.received = .ok bytes) :
    2 < bytes.length ∧ ∃ rx', standardFrameExchange tx rx r = some (none, rx') ∧
      rx'.Holds pollerBufSize (bytes.take (bytes.length - 2)) ∧
      rx'.data.take bytes.length = bytes := by
  have hfit : ¬ pollerMaxBufferSize < tx.sizeBytes + 2 := by
    rw [pollerMaxBufferSize]
    rw [pollerBufSize] at htx
    omega
  cases r with
  | error e => exact absurd hr (by simp [Reception.received])
  | frame bytes' =>
    rw [Reception.received] at hr
    split at hr
    · cases hr
    case isFalse hle =>
      split at hr
      case isFalse => cases hr
      case isTrue hcrc =>
        obtain rfl := Except.ok.inj hr
        have hlen := length_of_crcCheck hcrc
        obtain ⟨c, hc, hcb⟩ := Holds.copy hrx (holds_ofBytes bytes') (Nat.le_of_not_lt hle)
        obtain ⟨d, hd, hdb, hdata⟩ := Holds.crcTrim hcb hlen
        refine ⟨hlen, d, ?_, hdb, ?_⟩
        · rw [standardFrameExchange, if_neg hfit]
          rw [hrx, if_neg hle, hc, bind_eq_bind, bind_some, if_pos hcrc, hd]
          rfl
        · rw [hdata]
          exact hcb.take

def isPlainIBlock (pcb : Byte) : Bool := isIBlock pcb && !isChainActive pcb

theorem isPlainIBlock_toggle : ∀ pcb, isPlainIBlock pcb = true → isPlainIBlock (pcb ^^^ 0x01) = true :=
  forall_byte (by decide +kernel)

theorem isPlainIBlock_cases : ∀ pcb, isPlainIBlock pcb = true →
    isRBlock pcb = false ∧ isChainActive pcb = false ∧ isSBlock pcb = false :=
  forall_byte (by decide +kernel)

/-- What a sequence of receptions answers to a block with this PCB. -/
inductive Answer
  | failed (e : Error4a)
  | content (c : List Byte)
  deriving DecidableEq

/-- The information field of a block in a frame with its checksum. -/
def information (bytes : List Byte) : List Byte := (bytes.take (bytes.length - 2)).drop 1

/-- The answer of the card to an I-block, behind its requests for more time. -/
def respond (pcb : Byte) : List Reception → Answer
  | [] => .failed .timeout
  | r :: answers =>
    match r.received with
    | .error e => .failed (processError e)
    | .ok bytes =>
      if bytes.headD 0 = swtx then
        if 0x3B < bytes.getD 1 0 &&& 0x3F then .failed .protocol else respond pcb answers
      else if bytes.headD 0 = pcb then .content (information bytes)
      else .failed .protocol

theorem received_bytes {rx : BitBuffer} (hlen : 2 < bytes.length)
    (hb : rx.Holds pollerBufSize (bytes.take (bytes.length - 2)))
    (hdata : rx.data.take bytes.length = bytes) :
    (∀ c, rx.startsWithByte c = decide (bytes.headD 0 = c)) ∧ rx.getByte 1 = some (bytes.getD 1 0) ∧
      rx.Holds pollerBufSize (bytes.headD 0 :: information bytes) := by
  cases bytes with
  | nil => cases hlen
  | cons x xs =>
    rw [length_cons] at hlen
    have htake : (x :: xs).take ((x :: xs).length - 2) = x :: information (x :: xs) := by
      obtain ⟨k, hk⟩ : ∃ k, (x :: xs).length - 2 = k + 1 := ⟨xs.length - 2, by
        rw [length_cons]
        omega⟩
      rw [information, hk, take_succ_cons, drop_succ_cons, drop_zero]
    rw [htake] at hb
    refine ⟨hb.startsWithByte, ?_, hb⟩
    have hget := congrArg (fun ys => ys[1]?) hdata
    change ((rx.data.take (x :: xs).length)[1]?) = (x :: xs)[1]? at hget
    rw [List.getElem?_take, if_pos (by rw [length_cons]; omega)] at hget
    rw [BitBuffer.getByte, hget, getD_eq_getElem?_getD]
    cases xs with
    | nil => simp at hlen
    | cons y ys => rfl

theorem decodeResponse_plain {output block : BitBuffer} (hpcb : isPlainIBlock l.pcbPrev = true)
    {x : Byte} (hout : output.Holds cap []) (hin : block.Holds n (x :: bs)) :
    if x = l.pcbPrev then
      if bs.length ≤ cap then ∃ c, l.decodeResponse output block = some (true, l, c) ∧ c.Holds cap bs
      else l.decodeResponse output block = none
    else l.decodeResponse output block = some (false, l, output) := by
  obtain ⟨hr, hc, hs⟩ := isPlainIBlock_cases l.pcbPrev hpcb
  have hdecode : l.decodeResponse output block = if x = l.pcbPrev then
      (Layer.copyResponse output block).map fun output => (true, l, output)
      else some (false, l, output) := by
    rw [Layer.decodeResponse, hr, hc, hs, hin.startsWithByte]
    simp
  rw [hdecode]
  split
  case isFalse => rfl
  case isTrue =>
    rw [Layer.copyResponse, hin.sizeBytes, length_cons]
    split
    case isTrue hle =>
      by_cases hlt : 1 < bs.length + 1
      · obtain ⟨c, hc, hcb⟩ := Holds.copyRight hout.capacity hin (i := 1)
          (by rw [length_cons]; omega) (by rw [length_cons]; omega)
        refine ⟨c, ?_, hcb⟩
        rw [if_pos hlt, hc]
        rfl
      · have hnil : bs = [] := length_eq_zero_iff.mp (by omega)
        refine ⟨output, ?_, hnil ▸ hout⟩
        rw [if_neg hlt]
        rfl
    case isFalse hgt =>
      rw [if_pos (by omega), BitBuffer.copyRight, hin.sizeBytes, length_cons,
        if_neg (by omega), hout.capacity, if_pos (by omega)]
      rfl

def Answered (l : Layer) (cap : Nat) (sent : Option Sent) : Answer → Prop
  | .failed e => ∃ p rx, sent = some ⟨some e, p, rx⟩ ∧ p.Ready ∧ p.layer = l
  | .content c =>
    if c.length ≤ cap then
      ∃ p rx, sent = some ⟨none, p, rx⟩ ∧ p.Ready ∧ p.layer = l ∧ rx.Holds cap c
    else sent = none

theorem Poller.Ready.extend (hp : p.Ready) {received : BitBuffer} {x : Byte}
    (hr : received.Holds pollerBufSize (x :: bs)) (wtxm : Byte) :
    ∃ tx tx', p.tx.reset.copyLeft received 1 = some tx ∧ tx.appendByte wtxm = some tx' ∧
      Poller.Ready { p with tx := tx', rx := received } := by
  have hcap : p.tx.reset.capacityBytes = pollerBufSize :=
    (holds_reset p.tx).capacity.trans hp.tx
  obtain ⟨c, hc, hcb⟩ := Holds.copyLeft hcap hr (i := 1) (by simp) (by decide)
  obtain ⟨d, hd, hdb⟩ := hcb.appendByte (by simp [pollerBufSize]) wtxm
  refine ⟨c, d, hc, hd, hdb.capacity, hr.capacity, ?_⟩
  rw [hdb.sizeBytes]
  exact hdb.length_le

theorem receiveBlock_answered (hpcb : isPlainIBlock l.pcbPrev = true) (hrx : rx.Holds cap [])
    (answers : List Reception) : ∀ p : Poller, p.Ready → p.layer = l →
      Answered l cap (receiveBlock p rx answers) (respond l.pcbPrev answers) := by
  induction answers with
  | nil =>
    intro p hp hl
    obtain ⟨rx', hx, -⟩ := standardFrameExchange_error (r := .error .timeout) hp.size hp.rx rfl
    refine ⟨p, rx, ?_, hp, hl⟩
    rw [receiveBlock, hx]
    rfl
  | cons r answers ih =>
    intro p hp hl
    rw [receiveBlock, respond]
    cases hr : r.received with
    | error e =>
      obtain ⟨rx', hx, hcap⟩ := standardFrameExchange_error hp.size hp.rx hr
      refine ⟨{ p with rx := rx' }, rx, ?_, ⟨hp.tx, hcap, hp.size⟩, hl⟩
      rw [hx]
      rfl
    | ok bytes =>
      obtain ⟨hlen, rx', hx, hb, hdata⟩ := standardFrameExchange_ok hp.size hp.rx hr
      obtain ⟨hstart, hget, hholds⟩ := received_bytes hlen hb hdata
      have hready : Poller.Ready { p with rx := rx' } := ⟨hp.tx, hb.capacity, hp.size⟩
      simp only [hx, bind_eq_bind, bind_some, hstart, decide_eq_true_eq]
      by_cases hs : bytes.headD 0 = swtx
      · simp only [if_pos hs, hget, bind_some]
        by_cases hw : 0x3B < bytes.getD 1 0 &&& 0x3F
        · rw [if_pos hw, if_pos hw]
          exact ⟨_, _, rfl, hready, hl⟩
        · rw [if_neg hw, if_neg hw]
          obtain ⟨tx, tx', hc, ha, hready'⟩ := hp.extend hholds (bytes.getD 1 0 &&& 0x3F)
          simp only [hc, ha, bind_some]
          exact ih _ hready' hl
      · simp only [if_neg hs]
        have hdec := decodeResponse_plain (l := l) hpcb hrx hholds
        simp only [hl]
        by_cases hi : bytes.headD 0 = l.pcbPrev
        · rw [if_pos hi] at hdec ⊢
          rw [Answered]
          split at hdec
          case isTrue hle =>
            obtain ⟨c, hc, hcb⟩ := hdec
            rw [if_pos hle, hc]
            exact ⟨_, _, rfl, ⟨hp.tx, hb.capacity, hp.size⟩, rfl, hcb⟩
          case isFalse hgt =>
            rw [if_neg hgt, hdec]
            rfl
        · rw [if_neg hi] at hdec ⊢
          rw [hdec]
          exact ⟨_, _, rfl, ⟨hp.tx, hb.capacity, hp.size⟩, rfl⟩

/-- The answer of the card where blocks of another number and requests for more time share a
number of attempts. -/
def respondPwtExt (pcb : Byte) : Nat → List Reception → Answer
  | _, [] => .failed .timeout
  | attemptsLeft, r :: answers =>
    match r.received with
    | .error e => .failed (processError e)
    | .ok bytes =>
      if bytes.headD 0 = pcb ∧ pcb &&& 0xC0 = 0x00 then .content (information bytes)
      else if bytes.headD 0 &&& 0xC0 = 0x00 ∨ bytes.headD 0 &&& 0xF0 = 0xF0 then
        match attemptsLeft with
        | 0 | 1 => .failed .sendExtra
        | attemptsLeft + 2 => respondPwtExt pcb (attemptsLeft + 1) answers
      else .failed .protocol

theorem isSwtx_iff : ∀ pcb : Byte, pcb &&& 0xC0 ≠ 0x00 →
    ((pcb &&& 0xC0 = 0xC0 ∧ pcb &&& 0x30 = 0x30) ↔ pcb &&& 0xF0 = 0xF0) :=
  forall_byte (by decide +kernel)

/-- What the layer makes of a block that was received. -/
inductive DecodedPwtExt (pcb x : Byte) (bs : List Byte) (cap : Nat) :
    Option (Option Error4a × BitBuffer) → Prop
  | content {c : BitBuffer} : x = pcb → pcb &&& 0xC0 = 0x00 → bs ≠ [] → bs.length ≤ cap →
      c.Holds cap bs → DecodedPwtExt pcb x bs cap (some (none, c))
  | fault : x = pcb → pcb &&& 0xC0 = 0x00 → (bs = [] ∨ cap < bs.length) →
      DecodedPwtExt pcb x bs cap none
  | again {c : BitBuffer} {cs : List Byte} : ¬ (x = pcb ∧ pcb &&& 0xC0 = 0x00) →
      (x &&& 0xC0 = 0x00 ∨ x &&& 0xF0 = 0xF0) → c.Holds cap cs → cs.length ≤ 2 →
      DecodedPwtExt pcb x bs cap (some (some .sendExtra, c))
  | other {c : BitBuffer} : ¬ (x = pcb ∧ pcb &&& 0xC0 = 0x00) →
      ¬ (x &&& 0xC0 = 0x00 ∨ x &&& 0xF0 = 0xF0) → c.capacityBytes = cap →
      DecodedPwtExt pcb x bs cap (some (some .protocol, c))

theorem decodeResponsePwtExt_decoded {output block : BitBuffer} {x y : Byte} (hcap : 2 ≤ cap)
    (hout : output.capacityBytes = cap) (hin : block.Holds n (x :: bs))
    (hget : block.getByte 1 = some y) :
    DecodedPwtExt l.pcbPrev x bs cap (decodeResponsePwtExt l output block) := by
  have hreset : output.reset.Holds cap [] := hout ▸ holds_reset output
  have hx : block.getByte 0 = some x := by
    rw [hin.getByte (by simp)]
    rfl
  simp only [decodeResponsePwtExt, hx, hget, bind_eq_bind, bind_some]
  by_cases htype : x &&& 0xC0 = 0x00
  · rw [if_pos htype]
    by_cases hpcb : x = l.pcbPrev
    · rw [if_pos hpcb]
      rw [hpcb] at htype
      by_cases hfit : bs ≠ [] ∧ bs.length ≤ cap
      · have hpos := length_pos_iff.mpr hfit.1
        obtain ⟨c, hc, hcb⟩ := Holds.copyRight hreset.capacity hin (i := 1)
          (by rw [length_cons]; omega) (by rw [length_cons]; omega)
        rw [hc]
        exact .content hpcb htype hfit.1 hfit.2 hcb
      · have hnone : output.reset.copyRight block 1 = none := by
          rw [copyRight, hin.sizeBytes, hreset.capacity, length_cons]
          by_cases hnil : bs = []
          · rw [if_pos (by simp [hnil])]
          · have hpos := length_pos_iff.mpr hnil
            have hlt : cap < bs.length := Nat.lt_of_not_le fun hle => hfit ⟨hnil, hle⟩
            rw [if_neg (by omega), if_pos (by omega)]
        rw [hnone]
        refine .fault hpcb htype ?_
        by_cases hnil : bs = []
        · exact .inl hnil
        · exact .inr (Nat.lt_of_not_le fun hle => hfit ⟨hnil, hle⟩)
    · rw [if_neg hpcb]
      exact .again (fun h => hpcb h.1) (.inl htype) hreset (by simp)
  · have hne : ¬ (x = l.pcbPrev ∧ l.pcbPrev &&& 0xC0 = 0x00) := fun h => htype (h.1 ▸ h.2)
    rw [if_neg htype]
    by_cases hs : x &&& 0xC0 = 0xC0 ∧ x &&& 0x30 = 0x30
    · rw [if_pos hs]
      obtain ⟨c, hc, hcb⟩ := hreset.appendByte (by rw [length_nil]; omega) swtx
      obtain ⟨d, hd, hdb⟩ := hcb.appendByte (by simp; omega) (y &&& 0x3F)
      rw [hc, bind_some, hd, bind_some]
      exact .again hne (.inr ((isSwtx_iff x htype).mp hs)) hdb (by simp)
    · rw [if_neg hs]
      refine .other hne ?_ hreset.capacity
      rintro (h | h)
      · exact htype h
      · exact hs ((isSwtx_iff x htype).mpr h)

/-- The poller has arrived at an answer that it can take over. -/
def AnsweredPwtExt (cap : Nat) (sent : Option Sent) : Answer → Prop
  | .failed e => ∃ p rx, sent = some ⟨some e, p, rx⟩
  | .content c =>
    if c ≠ [] ∧ c.length ≤ cap then ∃ p rx, sent = some ⟨none, p, rx⟩ ∧ rx.Holds cap c
    else sent = none

theorem pwtExtLoop_answered (hcap : 2 ≤ cap) (answers : List Reception) :
    ∀ (p : Poller) (rx : BitBuffer) (attemptsLeft : Nat), p.Ready → p.layer = l →
      rx.capacityBytes = cap → AnsweredPwtExt cap (pwtExtLoop p rx attemptsLeft answers)
        (respondPwtExt l.pcbPrev attemptsLeft answers) := by
  induction answers with
  | nil =>
    intro p rx attemptsLeft hp _ _
    have hreset : p.rx.reset.capacityBytes = pollerBufSize :=
      (holds_reset p.rx).capacity.trans hp.rx
    obtain ⟨rx', hx, -⟩ := standardFrameExchange_error (r := .error .timeout) hp.size hreset rfl
    rw [respondPwtExt, pwtExtLoop, hx]
    exact ⟨_, _, rfl⟩
  | cons r answers ih =>
    intro p rx attemptsLeft hp hl hrx
    have hreset : p.rx.reset.capacityBytes = pollerBufSize :=
      (holds_reset p.rx).capacity.trans hp.rx
    rw [pwtExtLoop.eq_def, respondPwtExt.eq_def]
    cases hr : r.received with
    | error e =>
      obtain ⟨rx', hx, -⟩ := standardFrameExchange_error hp.size hreset hr
      simp only [hx, hr, bind_eq_bind, bind_some]
      exact ⟨_, _, rfl⟩
    | ok bytes =>
      obtain ⟨hlen, received, hx, hb, hdata⟩ := standardFrameExchange_ok hp.size hreset hr
      obtain ⟨-, hget, hholds⟩ := received_bytes hlen hb hdata
      have hdec := decodeResponsePwtExt_decoded (l := l) hcap hrx hholds hget
      simp only [hx, hr, hl, bind_eq_bind, bind_some]
      generalize decodeResponsePwtExt l rx received = decoded at hdec ⊢
      cases hdec with
      | content hpcb htype hne hle hc =>
        rw [if_pos ⟨hpcb, htype⟩, AnsweredPwtExt, if_pos ⟨hne, hle⟩]
        exact ⟨_, _, rfl, hc⟩
      | fault hpcb htype hor =>
        rw [if_pos ⟨hpcb, htype⟩, AnsweredPwtExt, if_neg]
        · rfl
        · rintro ⟨hne, hle⟩
          exact hor.elim hne (Nat.not_lt_of_le hle)
      | @again c cs hne hkind hc hlen =>
        rw [if_neg hne, if_pos hkind]
        simp only [bind_some, if_true]
        match attemptsLeft with
        | 0 | 1 => exact ⟨_, _, rfl⟩
        | attemptsLeft + 2 =>
          obtain ⟨d, hd, hdb⟩ := Holds.copy hp.tx hc (Nat.le_trans hlen (by decide))
          by_cases hsize : c.sizeBytes ≠ 0
          · simp only [if_pos hsize, hd, bind_some]
            refine ih _ _ _ ⟨hdb.capacity, hb.capacity, ?_⟩ rfl hc.capacity
            rw [hdb.sizeBytes]
            exact hdb.length_le
          · simp only [if_neg hsize]
            exact ih _ _ _ ⟨hp.tx, hb.capacity, hp.size⟩ rfl hc.capacity
      | other hne hkind hc =>
        rw [if_neg hne, if_neg hkind]
        exact ⟨_, _, rfl⟩

inductive CommandMode
  | plain
  | isoWrapped

namespace NativeCommand

def isoCla : Byte := 0x90
def isoP1 : Byte := 0x00
def isoP2 : Byte := 0x00
def isoLe : Byte := 0x00
def isoSw1 : Byte := 0x91
def statusOperationOk : Byte := 0x00
def statusLengthError : Byte := 0x7E
def statusAdditionalFrame : Byte := 0xAF

/-- The data of a wrapped command, behind their length. -/
def isoData (input tx : BitBuffer) : Option BitBuffer :=
  if 1 < input.sizeBytes then do
    let tx ← tx.appendByte (UInt8.ofNat (input.sizeBytes - 1))
    tx.appendRight input 1
  else some tx

def commandFrame (mode : CommandMode) (input tx : BitBuffer) : Option BitBuffer :=
  match mode with
  | .plain => tx.append input
  | .isoWrapped => do
    let tx ← tx.appendByte isoCla
    let tx ← tx.appendByte (← input.getByte 0)
    let tx ← tx.appendByte isoP1
    let tx ← tx.appendByte isoP2
    let tx ← isoData input tx
    tx.appendByte isoLe

def additionalFrame (mode : CommandMode) (tx : BitBuffer) : Option BitBuffer :=
  match mode with
  | .plain => tx.appendByte statusAdditionalFrame
  | .isoWrapped => do
    let tx ← tx.appendByte isoCla
    let tx ← tx.appendByte statusAdditionalFrame
    let tx ← tx.appendByte isoP1
    let tx ← tx.appendByte isoP2
    tx.appendByte isoLe

/-- A response that is long enough for a status and, where it is wrapped, says that it has one. -/
def hasStatus (mode : CommandMode) (rx : BitBuffer) : Option Bool :=
  match mode with
  | .plain => some (decide (1 ≤ rx.sizeBytes))
  | .isoWrapped =>
    if 2 ≤ rx.sizeBytes then (rx.getByte (rx.sizeBytes - 2)).map (· == isoSw1) else some false

def statusIndex (mode : CommandMode) (size : Nat) : Nat :=
  match mode with
  | .plain => 0
  | .isoWrapped => size - 1

def statusCode (mode : CommandMode) (rx : BitBuffer) : Option Byte :=
  (hasStatus mode rx).bind fun present =>
    if present then rx.getByte (statusIndex mode rx.sizeBytes) else some statusLengthError

def copyPayload (mode : CommandMode) (result rx : BitBuffer) : Option BitBuffer :=
  match mode with
  | .plain => if 1 < rx.sizeBytes then result.copyRight rx 1 else some result
  | .isoWrapped =>
    if 2 < rx.sizeBytes then result.copyLeft rx (rx.sizeBytes - 2) else some result

def firstResponse (mode : CommandMode) (result rx : BitBuffer) : Option (Byte × BitBuffer) := do
  let status ← statusCode mode rx
  let present ← hasStatus mode rx
  let result ← if present then copyPayload mode result.reset rx else some result.reset
  return (status, result)

/-- The payload of a response behind the first one; without a result where the size of the
payload is negative. A payload that does not fit is left out. -/
def appendPayload (mode : CommandMode) (result rx : BitBuffer) : Option BitBuffer :=
  match mode with
  | .plain =>
    if rx.sizeBytes ≤ result.capacityBytes - result.sizeBytes + 1 then result.appendRight rx 1
    else some result
  | .isoWrapped =>
    if rx.sizeBytes ≤ result.capacityBytes - result.sizeBytes + 2 then
      if rx.sizeBytes < 2 then none
      else (rx.setSizeBytes (rx.sizeBytes - 2)).bind fun rx => result.append rx
    else some result

def additionalResponse (mode : CommandMode) (result rx : BitBuffer) :
    Option (Byte × BitBuffer) := do
  let status ← statusCode mode rx
  let result ← appendPayload mode result rx
  return (status, result)

/-- Where a command has got to: the error and the status, the poller, the working buffer and the
result. -/
structure Exchange where
  error : Option Error4a
  status : Byte
  poller : Poller
  rx : BitBuffer
  result : BitBuffer

/-- One round of the loop. -/
def additionalBlock (mode : CommandMode) (tx : BitBuffer) (e : Exchange)
    (answers : List Reception) : Option Exchange := do
  let sent ← sendBlock e.poller tx e.rx.reset answers
  match sent.error with
  | some error => return { e with error := some error, poller := sent.poller, rx := sent.rx }
  | none =>
    let (status, result) ← additionalResponse mode e.result sent.rx
    return { e with status := status, poller := sent.poller, rx := sent.rx, result := result }

/-- The loop of `nxp_native_command_iso14443_4a_poller`. -/
def additionalLoop (mode : CommandMode) (tx : BitBuffer) :
    Exchange → List (List Reception) → Option Exchange
  | e, [] =>
    if e.status = statusAdditionalFrame then additionalBlock mode tx e [] else some e
  | e, a :: answers =>
    if e.status = statusAdditionalFrame then
      (additionalBlock mode tx e a).bind fun e =>
        if e.error = none then additionalLoop mode tx e answers else some e
    else some e

def run (p : Poller) (mode : CommandMode) (input result tx rx : BitBuffer)
    (answers : List (List Reception)) : Option Exchange := do
  let tx ← commandFrame mode input tx.reset
  let sent ← sendBlock p tx rx.reset (answers.headD [])
  match sent.error with
  | some error => return ⟨some error, statusOperationOk, sent.poller, sent.rx, result⟩
  | none =>
    let tx ← additionalFrame mode tx.reset
    let (status, result) ← firstResponse mode result sent.rx
    additionalLoop mode tx ⟨none, status, sent.poller, sent.rx, result⟩ answers.tail

/-- The number of bytes of a response that are not payload. -/
def overhead : CommandMode → Nat
  | .plain => 1
  | .isoWrapped => 2

def payload (mode : CommandMode) (c : List Byte) : List Byte :=
  match mode with
  | .plain => c.drop 1
  | .isoWrapped => c.take (c.length - 2)

def responseHasStatus (mode : CommandMode) (c : List Byte) : Bool :=
  match mode with
  | .plain => decide (1 ≤ c.length)
  | .isoWrapped => decide (2 ≤ c.length) && c.getD (c.length - 2) 0 == isoSw1

def responseStatus (mode : CommandMode) (c : List Byte) : Byte :=
  if responseHasStatus mode c then c.getD (statusIndex mode c.length) 0 else statusLengthError

/-- The responses of an exchange, up to the first one that is not followed by another. -/
def responses (mode : CommandMode) (pcb : Byte) : List (List Reception) → List (List Byte)
  | [] => []
  | a :: answers =>
    match respond pcb a with
    | .failed _ => []
    | .content c =>
      c :: if responseStatus mode c = statusAdditionalFrame then
        responses mode (pcb ^^^ 0x01) answers else []

/-- The last response of the exchange says that the operation was successful. -/
def Succeeds (mode : CommandMode) (cs : List (List Byte)) : Prop :=
  ∃ c, cs.getLast? = some c ∧ responseStatus mode c = statusOperationOk

/-- The responses that the working buffer and the result have room for, and that have at least
the bytes which are taken off each of them. -/
structure Handled (mode : CommandMode) (rxCapacity resultCapacity : Nat) (cs : List (List Byte)) :
    Prop where
  received : ∀ c ∈ cs, c.length ≤ rxCapacity
  first : ∀ c ∈ cs.head?, responseHasStatus mode c = true → (payload mode c).length ≤ resultCapacity
  additional : ∀ c ∈ cs.tail, overhead mode ≤ c.length
  result : Succeeds mode cs → (cs.flatMap (payload mode)).length ≤ resultCapacity

end NativeCommand

end NikitaFirmware.Nfc
