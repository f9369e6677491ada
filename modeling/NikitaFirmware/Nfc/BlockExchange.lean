import NikitaFirmware.Nfc.PollerBlocks

/-!
# Exchanges of blocks

A poller and a listener that use the block layer with the same header options, over a channel
that loses nothing. Each command that the poller's upper layer sends arrives at the listener's,
each response the other way, and the block numbers alternate together.
-/

namespace NikitaFirmware.Nfc
open BitBuffer List Option

def iBlockPcb (cidPresent number : Bool) : Byte :=
  (if cidPresent then 0x08 else 0) ||| (if number then 0x03 else 0x02)

section Pcb

theorem isPpsStart_iBlockPcb : ∀ p n, isPpsStart (iBlockPcb p n) = false := by decide

theorem isIBlock_iBlockPcb : ∀ p n, isIBlock (iBlockPcb p n) = true := by decide

theorem isRBlock_iBlockPcb : ∀ p n, isRBlock (iBlockPcb p n) = false := by decide

theorem isSBlock_iBlockPcb : ∀ p n, isSBlock (iBlockPcb p n) = false := by decide

theorem isChainActive_iBlockPcb : ∀ p n, isChainActive (iBlockPcb p n) = false := by decide

theorem cidBit_iBlockPcb : ∀ p n, (iBlockPcb p n &&& 0x08 != 0) = p := by decide

theorem nadBit_iBlockPcb : ∀ p n, (iBlockPcb p n &&& 0x04 != 0) = false := by decide

theorem iBlockPcb_toggle : ∀ p n, iBlockPcb p n ^^^ 0x01 = iBlockPcb p !n := by decide

theorem iBlockPcb_withoutNad : ∀ p n, iBlockPcb p n &&& 0xFB = iBlockPcb p n := by decide

theorem iBlockPcb_withoutChain : ∀ p n, iBlockPcb p n &&& 0xEF = iBlockPcb p n := by decide

theorem setIBlock_reset : ∀ p, (Layer.reset.setIBlock false p).pcb = iBlockPcb p false := by decide

end Pcb

/-- The header options: whether the poller sends a CID, the CID that the listener was given, and
whether the listener supports a NAD. -/
structure HeaderOptions where
  cidPresent : Bool
  cid : Byte
  nad : Bool

namespace HeaderOptions

/-- The options are equal on both sides. A poller that sends no CID talks to a listener with the
CID 0, or without any. -/
def Agree (o : HeaderOptions) : Prop :=
  if o.cidPresent then o.cid < 16 else o.cid = 0 ∨ o.cid = cidNotSupported

instance (o : HeaderOptions) : Decidable o.Agree := by
  unfold Agree
  infer_instance

/-- The CID as the poller's upper layer sees it. -/
def prologue (o : HeaderOptions) : List Byte := if o.cidPresent then [o.cid] else []

theorem Agree.cid_mask {o : HeaderOptions} (h : o.Agree) (hp : o.cidPresent = true) :
    o.cid &&& 0x0F = o.cid ∧ o.cid ≠ cidNotSupported := by
  rw [Agree, if_pos hp] at h
  have hn : o.cid.toNat < 16 := h
  constructor
  · apply UInt8.toNat.inj
    rw [UInt8.toNat_and]
    change o.cid.toNat &&& 2 ^ 4 - 1 = o.cid.toNat
    rw [Nat.and_two_pow_sub_one_eq_mod, Nat.mod_eq_of_lt hn]
  · intro heq
    rw [heq] at hn
    exact absurd hn (by decide)

end HeaderOptions

namespace Layer

variable {l : Layer} {o : HeaderOptions} {n : Bool} {input block output : BitBuffer}
  {cap m : Nat} {bs cs : List Byte}

theorem withPcb_self {pcb : Byte} (h : pcb = l.pcb) : { l with pcb := pcb } = l := by
  rw [h]

theorem encodeCommand_spec (hb : block.Holds cap []) (hi : input.Holds m bs)
    (hfit : bs.length + 1 ≤ cap) :
    ∃ c, l.encodeCommand input block = some (l.updatePcb true, c) ∧ c.Holds cap (l.pcb :: bs) := by
  obtain ⟨b₁, h₁, hb₁⟩ := hb.appendByte (by rw [length_nil]; omega) l.pcb
  obtain ⟨b₂, h₂, hb₂⟩ := hb₁.append hi (by rw [nil_append, length_singleton]; omega)
  refine ⟨b₂, ?_, hb₂⟩
  rw [encodeCommand, h₁, bind_eq_bind, bind_some, h₂]
  rfl

theorem decodeCommand_spec (ho : o.Agree) (hcid : l.cid = o.cid)
    (hin : input.Holds m (iBlockPcb o.cidPresent n :: (o.prologue ++ bs))) (hne : bs ≠ [])
    (hcap : block.capacityBytes = cap) (hfit : bs.length ≤ cap) :
    ∃ c, l.decodeCommand input block =
        some (.data, { l with canPps := false, pcb := iBlockPcb o.cidPresent n }.updatePcb false, c) ∧
      c.Holds cap bs := by
  have hpos : 0 < bs.length := length_pos_iff.mpr hne
  have hpcb : input.getByte 0 = some (iBlockPcb o.cidPresent n) := by
    rw [hin.getByte (Nat.succ_pos _)]
    rfl
  -- the information field starts behind the PCB and the prologue
  have hdrop : (iBlockPcb o.cidPresent n :: (o.prologue ++ bs)).drop (1 + o.prologue.length) = bs := by
    rw [Nat.add_comm, drop_succ_cons, drop_left]
  have hlen : (iBlockPcb o.cidPresent n :: (o.prologue ++ bs)).length =
      1 + o.prologue.length + bs.length := by
    rw [length_cons, length_append]
    omega
  obtain ⟨c, hc, hcb⟩ := Holds.copyRight hcap hin (i := 1 + o.prologue.length) (by omega) (by omega)
  rw [hdrop] at hcb
  refine ⟨c, ?_, hcb⟩
  have hinf : { l with canPps := false, pcb := iBlockPcb o.cidPresent n }.decodeInf input block
      (1 + o.prologue.length) =
        some (.data, { l with canPps := false, pcb := iBlockPcb o.cidPresent n }.updatePcb false, c) := by
    rw [decodeInf, if_neg (by rw [hin.sizeBytes]; omega), hc]
    rfl
  have hdecode : { l with canPps := false, pcb := iBlockPcb o.cidPresent n }.decodeCid input o.cidPresent =
      some (some (1 + o.prologue.length)) := by
    rw [decodeCid, HeaderOptions.prologue]
    change (if o.cidPresent = true then _ else if l.cid ≠ _ ∧ l.cid ≠ 0 then _ else _) = _
    rw [hcid]
    split
    case isTrue hp =>
      have hmask := ho.cid_mask hp
      have hbyte : input.getByte 1 = some o.cid := by
        rw [hin.getByte (by rw [hlen]; omega), HeaderOptions.prologue, if_pos hp]
        rfl
      rw [hbyte]
      change some (if o.cid = cidNotSupported ∨ o.cid &&& 0x0F ≠ o.cid then none else some 2) = _
      rw [if_neg (by rw [hmask.1]; simpa using hmask.2)]
      rfl
    case isFalse hp =>
      rw [HeaderOptions.Agree, if_neg hp] at ho
      rw [if_neg]
      · rfl
      · rintro ⟨hns, hz⟩
        exact ho.elim hz hns
  rw [decodeCommand, hpcb, bind_eq_bind, bind_some, isPpsStart_iBlockPcb _ n,
    isIBlock_iBlockPcb _ n]
  change decodeIBlock _ input block = _
  rw [decodeIBlock]
  change (Option.bind (decodeCid _ input (iBlockPcb o.cidPresent n &&& 0x08 != 0)) _) = _
  rw [cidBit_iBlockPcb _ n, hdecode, bind_some]
  change (if (iBlockPcb o.cidPresent n &&& 0x04 != 0) = true then _ else _) = _
  rw [nadBit_iBlockPcb _ n, if_neg Bool.false_ne_true]
  exact hinf

theorem encodeResponse_spec (hprev : l.pcbPrev = iBlockPcb o.cidPresent n)
    (hpcb : l.pcb = iBlockPcb o.cidPresent n)
    (hcid : l.cid = o.cid) (hb : block.Holds cap []) (hi : input.Holds m cs)
    (hfit : 1 + o.prologue.length + cs.length ≤ cap) :
    ∃ c, l.encodeResponse input block = some (true, l.updatePcb false, c) ∧
      c.Holds cap (iBlockPcb o.cidPresent n :: (o.prologue ++ cs)) := by
  obtain ⟨b₁, h₁, hb₁⟩ := hb.appendByte (by rw [length_nil]; omega) 0x00
  have hcidByte : ∃ b₂, l.encodeCid b₁ = some b₂ ∧ b₂.Holds cap (0x00 :: o.prologue) := by
    rw [encodeCid, hprev, cidBit_iBlockPcb _ n, hcid]
    cases hp : o.cidPresent with
    | true =>
      have hlen : o.prologue.length = 1 := by rw [HeaderOptions.prologue, hp]; rfl
      obtain ⟨b₂, h₂, hb₂⟩ := hb₁.appendByte (by rw [nil_append, length_singleton]; omega) o.cid
      refine ⟨b₂, h₂, ?_⟩
      rw [HeaderOptions.prologue, hp]
      exact hb₂
    | false =>
      refine ⟨b₁, rfl, ?_⟩
      rw [HeaderOptions.prologue, hp]
      exact hb₁
  obtain ⟨b₂, h₂, hb₂⟩ := hcidByte
  have hnad : l.encodeNad b₂ = some (l, b₂) := by
    have hbit : (l.pcbPrev &&& 0x04 != 0 && l.nad != nadNotSet) = false := by
      rw [hprev, nadBit_iBlockPcb _ n, Bool.false_and]
    rw [encodeNad, hbit, if_neg Bool.false_ne_true, withPcb_self]
    rw [hpcb, iBlockPcb_withoutNad _ n]
  obtain ⟨b₃, h₃, hb₃⟩ := hb₂.setByte (i := 0) (Nat.succ_pos _) (iBlockPcb o.cidPresent n)
  obtain ⟨b₄, h₄, hb₄⟩ := hb₃.append hi (by rw [length_set, length_cons]; omega)
  refine ⟨b₄, ?_, hb₄⟩
  have hl : { l with pcb := l.pcb &&& 0xEF } = l := by
    rw [withPcb_self]
    rw [hpcb, iBlockPcb_withoutChain _ n]
  rw [encodeResponse, hprev, isIBlock_iBlockPcb _ n, if_pos rfl]
  simp only [bind_eq_bind, bind_some, h₁, h₂, hnad, hl]
  rw [hpcb, iBlockPcb_withoutChain _ n, h₃, bind_some, h₄]
  rfl

theorem decodeResponse_spec (hprev : l.pcbPrev = iBlockPcb o.cidPresent n) (hout : output.Holds cap [])
    (hin : block.Holds m (iBlockPcb o.cidPresent n :: bs)) (hfit : bs.length ≤ cap) :
    ∃ c, l.decodeResponse output block = some (true, l, c) ∧ c.Holds cap bs := by
  have hcopy : ∃ c, copyResponse output block = some c ∧ c.Holds cap bs := by
    rw [copyResponse, hin.sizeBytes, length_cons]
    split
    case isTrue hlt =>
      obtain ⟨c, hc, hcb⟩ := Holds.copyRight hout.capacity hin (i := 1)
        (by rw [length_cons]; omega) (by rw [length_cons]; omega)
      exact ⟨c, hc, hcb⟩
    case isFalse hge =>
      have hnil : bs = [] := length_eq_zero_iff.mp (by omega)
      exact ⟨output, rfl, hnil ▸ hout⟩
  obtain ⟨c, hc, hcb⟩ := hcopy
  refine ⟨c, ?_, hcb⟩
  rw [decodeResponse, hprev, isRBlock_iBlockPcb _ n, isChainActive_iBlockPcb _ n,
    isSBlock_iBlockPcb _ n, hin.startsWithByte, decide_eq_true rfl, hc]
  rfl

end Layer

/-- Both layers with the buffers of their sides. -/
structure Ends where
  poller : Layer
  listener : Layer
  pollerTx : BitBuffer
  listenerRx : BitBuffer
  listenerTx : BitBuffer
  output : BitBuffer

/-- A command goes over, and its response comes back. The upper layer of each side gets what is
in its buffer then. -/
def exchange (e : Ends) (command response : BitBuffer) : Option (Ends × List Byte × List Byte) := do
  let (poller, tx) ← e.poller.encodeCommand command e.pollerTx.reset
  let (result, listener, rx) ← e.listener.decodeCommand tx e.listenerRx
  guard (result = .data)
  let (encoded, listener, listenerTx) ← listener.encodeResponse response e.listenerTx.reset
  guard encoded
  let (decoded, poller, output) ← poller.decodeResponse e.output.reset listenerTx
  guard decoded
  return (⟨poller, listener, tx, rx, listenerTx, output⟩, rx.bytes, output.bytes)

/-- What the upper layers of the listener and of the poller get in a sequence of exchanges. -/
def exchanges (e : Ends) :
    List (BitBuffer × BitBuffer) → Option (Ends × List (List Byte) × List (List Byte))
  | [] => some (e, [], [])
  | (command, response) :: xs => do
    let (e, received, answered) ← exchange e command response
    let (e, receiveds, answereds) ← exchanges e xs
    return (e, received :: receiveds, answered :: answereds)

/-- The layers with these options before the first exchange. -/
def Ends.start (o : HeaderOptions) (capacity : Nat) : Ends where
  poller := Layer.reset.setIBlock false o.cidPresent
  listener := (Layer.reset.setCid o.cid).setNadSupported o.nad
  pollerTx := BitBuffer.alloc capacity
  listenerRx := BitBuffer.alloc capacity
  listenerTx := BitBuffer.alloc capacity
  output := BitBuffer.alloc capacity

/-- The poller is going to send the block with the number `n`. -/
structure Ends.Ready (e : Ends) (o : HeaderOptions) (capacity : Nat) (n : Bool) : Prop where
  pcb : e.poller.pcb = iBlockPcb o.cidPresent n
  cid : e.listener.cid = o.cid
  pollerTx : e.pollerTx.capacityBytes = capacity
  listenerRx : e.listenerRx.capacityBytes = capacity
  listenerTx : e.listenerTx.capacityBytes = capacity
  output : e.output.capacityBytes = capacity

/-- Both sides have seen the block with the number `n`, and the poller has the other one next. -/
structure Ends.InStep (e : Ends) (o : HeaderOptions) (n : Bool) : Prop where
  pollerPrev : e.poller.pcbPrev = iBlockPcb o.cidPresent n
  listener : e.listener.pcb = iBlockPcb o.cidPresent n
  listenerPrev : e.listener.pcbPrev = iBlockPcb o.cidPresent n
  poller : e.poller.pcb = iBlockPcb o.cidPresent !n

theorem Ends.ready_start (o : HeaderOptions) (capacity : Nat) :
    (Ends.start o capacity).Ready o capacity false where
  pcb := setIBlock_reset o.cidPresent
  cid := rfl
  pollerTx := length_replicate ..
  listenerRx := length_replicate ..
  listenerTx := length_replicate ..
  output := length_replicate ..

theorem exchange_spec {e : Ends} {o : HeaderOptions} {capacity : Nat} {n : Bool}
    (ho : o.Agree) (h : e.Ready o capacity n) {command response : List Byte} (hne : command ≠ [])
    (hcommand : 1 + o.prologue.length + command.length ≤ capacity)
    (hresponse : 1 + o.prologue.length + response.length ≤ capacity) :
    ∃ e', exchange e (ofBytes (o.prologue ++ command)) (ofBytes response) =
        some (e', command, o.prologue ++ response) ∧
      e'.Ready o capacity (!n) ∧ e'.InStep o n := by
  have hreset : ∀ {b : BitBuffer}, b.capacityBytes = capacity → b.reset.Holds capacity [] :=
    fun hb => hb ▸ holds_reset _
  obtain ⟨tx, htx, htxb⟩ := Layer.encodeCommand_spec (l := e.poller) (hreset h.pollerTx)
    (holds_ofBytes (o.prologue ++ command)) (by rw [length_append]; omega)
  rw [h.pcb] at htxb
  obtain ⟨rx, hrx, hrxb⟩ := Layer.decodeCommand_spec (l := e.listener) ho h.cid htxb hne
    h.listenerRx (by omega)
  obtain ⟨ltx, hltx, hltxb⟩ := Layer.encodeResponse_spec (o := o) (n := n)
    (l := { e.listener with canPps := false, pcb := iBlockPcb o.cidPresent n }.updatePcb false) rfl rfl h.cid
    (hreset h.listenerTx) (holds_ofBytes response) hresponse
  obtain ⟨out, hout, houtb⟩ := Layer.decodeResponse_spec (l := e.poller.updatePcb true) (o := o)
    (n := n) h.pcb (hreset h.output) hltxb (by rw [length_append]; omega)
  refine ⟨⟨e.poller.updatePcb true,
    ({ e.listener with canPps := false, pcb := iBlockPcb o.cidPresent n }.updatePcb false).updatePcb
      false, tx, rx, ltx, out⟩, ?_, ⟨?_, h.cid, htxb.capacity, hrxb.capacity, hltxb.capacity,
    houtb.capacity⟩, h.pcb, rfl, rfl, ?_⟩
  · rw [exchange, htx]
    change (Layer.decodeCommand e.listener tx e.listenerRx).bind _ = _
    rw [hrx]
    change (Layer.encodeResponse _ (ofBytes response) e.listenerTx.reset).bind _ = _
    rw [hltx]
    change (Layer.decodeResponse _ e.output.reset ltx).bind _ = _
    rw [hout]
    change some (_, rx.bytes, out.bytes) = _
    rw [hrxb.bytes, houtb.bytes]
  · change e.poller.pcb ^^^ 0x01 = _
    rw [h.pcb, iBlockPcb_toggle _ n]
  · change e.poller.pcb ^^^ 0x01 = _
    rw [h.pcb, iBlockPcb_toggle _ n]

theorem exchanges_spec {e : Ends} {o : HeaderOptions} {capacity : Nat} {n : Bool} (ho : o.Agree)
    (h : e.Ready o capacity n) {xs : List (List Byte × List Byte)}
    (hne : ∀ x ∈ xs, x.1 ≠ [])
    (hcommand : ∀ x ∈ xs, 1 + o.prologue.length + x.1.length ≤ capacity)
    (hresponse : ∀ x ∈ xs, 1 + o.prologue.length + x.2.length ≤ capacity) :
    ∃ e', exchanges e (xs.map fun x => (ofBytes (o.prologue ++ x.1), ofBytes x.2)) =
        some (e', xs.map Prod.fst, xs.map fun x => o.prologue ++ x.2) ∧
      ∀ k, xs.length = k + 1 → e'.InStep o (n ^^ (k % 2 == 1)) := by
  induction xs generalizing e n with
  | nil => exact ⟨e, rfl, fun k hk => absurd hk (by simp)⟩
  | cons x xs ih =>
    obtain ⟨e₁, h₁, hready, hstep⟩ := exchange_spec ho h (hne x mem_cons_self)
      (hcommand x mem_cons_self) (hresponse x mem_cons_self)
    obtain ⟨e', hrest, hin⟩ := ih hready (fun y hy => hne y (mem_cons_of_mem x hy))
      (fun y hy => hcommand y (mem_cons_of_mem x hy))
      (fun y hy => hresponse y (mem_cons_of_mem x hy))
    refine ⟨e', ?_, fun k hk => ?_⟩
    · rw [map_cons, exchanges, h₁]
      simp only [bind_eq_bind, bind_some, hrest]
      rfl
    · cases xs with
      | nil =>
        obtain rfl := (Prod.mk.inj (some.inj hrest)).1
        have hk0 : k = 0 := by simpa using hk.symm
        rw [hk0]
        simpa using hstep
      | cons y ys =>
        have hlen : (y :: ys).length = (k - 1) + 1 := by
          rw [length_cons] at hk ⊢
          rw [length_cons] at hk
          omega
        have hpar : (n ^^ (k % 2 == 1)) = (!n ^^ ((k - 1) % 2 == 1)) := by
          rw [length_cons, length_cons] at hk
          rcases Nat.mod_two_eq_zero_or_one k with hmod | hmod
          · have hmod' : (k - 1) % 2 = 1 := by omega
            rw [hmod, hmod']
            cases n <;> rfl
          · have hmod' : (k - 1) % 2 = 0 := by omega
            rw [hmod, hmod']
            cases n <;> rfl
        rw [hpar]
        exact hin (k - 1) hlen

/-- Over any sequence of exchanges the upper layers get what was sent, in order, and after each of
them the two block numbers are in step. With a CID it is the upper layer of the poller that puts
it before a command and finds it before a response; without one both get just what was sent. -/
theorem blocks_exchanged (o : HeaderOptions) (ho : o.Agree) (capacity : Nat)
    (xs : List (List Byte × List Byte)) (hne : ∀ x ∈ xs, x.1 ≠ [])
    (hcommand : ∀ x ∈ xs, 1 + o.prologue.length + x.1.length ≤ capacity)
    (hresponse : ∀ x ∈ xs, 1 + o.prologue.length + x.2.length ≤ capacity) :
    ∃ e', exchanges (Ends.start o capacity)
        (xs.map fun x => (ofBytes (o.prologue ++ x.1), ofBytes x.2)) =
          some (e', xs.map Prod.fst, xs.map fun x => o.prologue ++ x.2) ∧
      ∀ k, xs.length = k + 1 → e'.InStep o (k % 2 == 1) := by
  obtain ⟨e', h, hstep⟩ := exchanges_spec ho (Ends.ready_start o capacity) hne hcommand hresponse
  refine ⟨e', h, fun k hk => ?_⟩
  have hin := hstep k hk
  rwa [Bool.false_xor] at hin

/-- Two commands with the CID 5, the second of which has an empty response. -/
theorem blocks_exchanged_withCid : ∃ e', exchanges (Ends.start ⟨true, 5, true⟩ 16)
        ([([0x60], [0xAF, 0x01]), ([0xAF, 0x02], [])].map fun x =>
          (ofBytes ([5] ++ x.1), ofBytes x.2)) =
          some (e', [[0x60], [0xAF, 0x02]], [[5, 0xAF, 0x01], [5]]) ∧
      ∀ k, 2 = k + 1 → e'.InStep ⟨true, 5, true⟩ (k % 2 == 1) :=
  blocks_exchanged ⟨true, 5, true⟩ (by decide) 16 [([0x60], [0xAF, 0x01]), ([0xAF, 0x02], [])]
    (by decide) (by decide) (by decide)

/-- The first byte of a command is its CID for the listener, and the response comes with one. -/
theorem cid_not_exchanged : ¬ ∀ (o : HeaderOptions) (capacity : Nat)
    (xs : List (List Byte × List Byte)), o.Agree → (∀ x ∈ xs, x.1 ≠ []) →
    (∀ x ∈ xs, 2 + x.1.length ≤ capacity ∧ 2 + x.2.length ≤ capacity) →
    (exchanges (Ends.start o capacity) (xs.map fun x => (ofBytes x.1, ofBytes x.2))).map Prod.snd =
      some (xs.map Prod.fst, xs.map Prod.snd) := by
  intro h
  have hsent := h ⟨true, 5, true⟩ 16 [([0x05, 0x60], [0xAF])] (by decide) (by decide) (by decide)
  have hgot : (exchanges (Ends.start ⟨true, 5, true⟩ 16)
      [(ofBytes [0x05, 0x60], ofBytes [0xAF])]).map Prod.snd = some ([[0x60]], [[0x05, 0xAF]]) := by
    decide
  cases hgot.symm.trans hsent

end NikitaFirmware.Nfc
