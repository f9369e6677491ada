import NikitaFirmware.Nfc.Responses

/-!
# Pollers and the frames of a card

Which answers of a card the poller's functions get through: the information field of the answering
block, respectively the responses of a native command, have to be of a length that the buffers can
take.
-/

namespace NikitaFirmware.Nfc
open BitBuffer List Option

variable {b tx rx input result : BitBuffer} {p : Poller} {l : Layer} {bs c ts : List Byte}
  {n m cap : Nat} {mode : CommandMode}

theorem Layer.encodeCommand_holds {block : BitBuffer} (hb : block.Holds n [])
    (ht : tx.Holds m ts) (hlt : ts.length < n) :
    ∃ c, l.encodeCommand tx block = some (l.updatePcb true, c) ∧ c.Holds n (l.pcb :: ts) := by
  obtain ⟨c, hc, hcb⟩ := hb.appendByte (by rw [length_nil]; omega) l.pcb
  obtain ⟨d, hd, hdb⟩ := hcb.append ht (by simp; omega)
  refine ⟨d, ?_, hdb⟩
  rw [Layer.encodeCommand, hc, bind_eq_bind, bind_some, hd]
  rfl

theorem Poller.Ready.encode (hp : p.Ready) (ht : tx.Holds m ts) (hlt : ts.length < pollerBufSize) :
    ∃ c, p.layer.encodeCommand tx p.tx.reset = some (p.layer.updatePcb true, c) ∧
      Poller.Ready { p with layer := p.layer.updatePcb true, tx := c } := by
  have hreset : p.tx.reset.Holds pollerBufSize [] := hp.tx ▸ holds_reset p.tx
  obtain ⟨c, hc, hcb⟩ := Layer.encodeCommand_holds (l := p.layer) hreset ht hlt
  refine ⟨c, hc, hcb.capacity, hp.rx, ?_⟩
  rw [hcb.sizeBytes]
  exact hcb.length_le

theorem sendBlock_answered (hp : p.Ready) (hpcb : isPlainIBlock p.layer.pcb = true)
    (ht : tx.Holds m ts) (hlt : ts.length < pollerBufSize) (hrx : rx.Holds cap [])
    (answers : List Reception) : Answered (p.layer.updatePcb true) cap (sendBlock p tx rx answers)
      (respond p.layer.pcb answers) := by
  obtain ⟨c, hc, hready⟩ := hp.encode ht hlt
  rw [sendBlock, hc, bind_eq_bind, bind_some]
  exact receiveBlock_answered (l := p.layer.updatePcb true) hpcb hrx answers _ hready rfl

theorem sendBlockPwtExt_answered (hp : p.Ready) (ht : tx.Holds m ts)
    (hlt : ts.length < pollerBufSize) (hcap : 2 ≤ cap) (hrx : rx.capacityBytes = cap)
    (answers : List Reception) : AnsweredPwtExt cap (sendBlockPwtExt p tx rx answers)
      (respondPwtExt p.layer.pcb sendBlockMaxAttempts answers) := by
  obtain ⟨c, hc, hready⟩ := hp.encode ht hlt
  rw [sendBlockPwtExt, hc, bind_eq_bind, bind_some]
  exact pwtExtLoop_answered (l := p.layer.updatePcb true) hcap answers _ rx _ hready rfl hrx

namespace NativeCommand

theorem hasStatus_holds (mode : CommandMode) (h : rx.Holds n c) :
    hasStatus mode rx = some (responseHasStatus mode c) := by
  cases mode with
  | plain => rw [hasStatus, h.sizeBytes, responseHasStatus]
  | isoWrapped =>
    rw [hasStatus, h.sizeBytes, responseHasStatus]
    by_cases hlen : 2 ≤ c.length
    · have hlt : c.length - 2 < c.length := by omega
      rw [if_pos hlen, h.getByte hlt, getD_eq_getElem?_getD, List.getElem?_eq_getElem hlt,
        decide_eq_true hlen]
      rfl
    · rw [if_neg hlen, decide_eq_false hlen]
      rfl

theorem statusIndex_lt (h : responseHasStatus mode c = true) :
    statusIndex mode c.length < c.length := by
  cases mode with
  | plain => exact of_decide_eq_true h
  | isoWrapped =>
    rw [responseHasStatus, Bool.and_eq_true] at h
    have hlen := of_decide_eq_true h.1
    rw [statusIndex]
    omega

theorem statusCode_holds (mode : CommandMode) (h : rx.Holds n c) :
    statusCode mode rx = some (responseStatus mode c) := by
  rw [statusCode, hasStatus_holds mode h, bind_some, responseStatus, h.sizeBytes]
  split
  case isTrue hs =>
    have hlt := statusIndex_lt hs
    rw [h.getByte hlt, getD_eq_getElem?_getD, List.getElem?_eq_getElem hlt, getD_some]
  case isFalse => rfl

theorem length_payload (mode : CommandMode) (c : List Byte) :
    (payload mode c).length = c.length - overhead mode := by
  cases mode with
  | plain => exact length_drop
  | isoWrapped =>
    rw [payload, length_take, overhead]
    omega

theorem copyPayload_holds (mode : CommandMode) (hr : result.Holds cap []) (h : rx.Holds n c) :
    if (payload mode c).length ≤ cap then
      ∃ d, copyPayload mode result rx = some d ∧ d.Holds cap (payload mode c)
    else copyPayload mode result rx = none := by
  rw [length_payload]
  cases mode with
  | plain =>
    rw [copyPayload, h.sizeBytes, overhead, payload]
    by_cases hlen : 1 < c.length
    · rw [if_pos hlen]
      split
      · exact Holds.copyRight hr.capacity h hlen (by omega)
      · rw [copyRight, h.sizeBytes, hr.capacity, if_neg (by omega), if_pos (by omega)]
    · have hnil : c.drop 1 = [] := drop_eq_nil_iff.mpr (by omega)
      rw [if_neg hlen, if_pos (by omega), hnil]
      exact ⟨_, rfl, hr⟩
  | isoWrapped =>
    rw [copyPayload, h.sizeBytes, overhead, payload]
    by_cases hlen : 2 < c.length
    · rw [if_pos hlen]
      split
      · exact Holds.copyLeft hr.capacity h (by omega) (by omega)
      · rw [copyLeft, hr.capacity, if_pos (by omega)]
    · have hzero : c.length - 2 = 0 := by omega
      rw [if_neg hlen, if_pos (by omega), hzero]
      exact ⟨_, rfl, hr⟩

theorem appendPayload_holds (mode : CommandMode) {ps : List Byte} (hr : result.Holds cap ps)
    (h : rx.Holds n c) :
    if overhead mode ≤ c.length then
      ∃ d qs, appendPayload mode result rx = some d ∧ d.Holds cap qs ∧
        (ps.length + (payload mode c).length ≤ cap → qs = ps ++ payload mode c)
    else appendPayload mode result rx = none := by
  have hle := hr.length_le
  rw [length_payload]
  cases mode with
  | plain =>
    rw [appendPayload, h.sizeBytes, hr.sizeBytes, hr.capacity, overhead]
    split
    case isTrue hlen =>
      by_cases hfit : c.length ≤ cap - ps.length + 1
      · obtain ⟨d, hd, hdb⟩ := hr.appendRight h (i := 1) hlen (by omega)
        exact ⟨d, _, by rw [if_pos hfit, hd], hdb, fun _ => rfl⟩
      · exact ⟨result, ps, if_neg hfit, hr, fun hle' => absurd hle' (by omega)⟩
    case isFalse hlen =>
      rw [if_pos (by omega), appendRight, h.sizeBits, if_pos (by omega)]
  | isoWrapped =>
    rw [appendPayload, h.sizeBytes, hr.sizeBytes, hr.capacity, overhead]
    split
    case isTrue hlen =>
      by_cases hfit : c.length ≤ cap - ps.length + 2
      · obtain ⟨e, he, heb, -⟩ := h.setSizeBytes (i := c.length - 2) (by omega)
        obtain ⟨d, hd, hdb⟩ := hr.append heb (by rw [length_take]; omega)
        refine ⟨d, _, ?_, hdb, fun _ => rfl⟩
        rw [if_pos hfit, if_neg (by omega), he, bind_some, hd]
      · exact ⟨result, ps, if_neg hfit, hr, fun hle' => absurd hle' (by omega)⟩
    case isFalse hlen =>
      rw [if_pos (by omega), if_pos (by omega)]

/-- The status that the responses leave behind. -/
def finalStatus (mode : CommandMode) (status : Byte) (cs : List (List Byte)) : Byte :=
  cs.foldl (fun _ c => responseStatus mode c) status

theorem succeeds_cons (mode : CommandMode) (c : List Byte) (cs : List (List Byte)) :
    Succeeds mode (c :: cs) ↔ finalStatus mode (responseStatus mode c) cs = statusOperationOk := by
  induction cs generalizing c with
  | nil => simp [Succeeds, finalStatus]
  | cons d ds ih =>
    rw [Succeeds, List.getLast?_cons_cons]
    exact ih d

def following (mode : CommandMode) (status pcb : Byte) (answers : List (List Reception)) :
    List (List Byte) :=
  if status = statusAdditionalFrame then responses mode pcb answers else []

/-- What the loop leaves behind, from a result with `ps` on. -/
structure Collected (mode : CommandMode) (cap : Nat) (ps : List Byte) (status : Byte)
    (cs : List (List Byte)) (e : Exchange) : Prop where
  succeeds : (e.error = none ∧ e.status = statusOperationOk) ↔
    finalStatus mode status cs = statusOperationOk
  result : ∃ qs, e.result.Holds cap qs ∧
    (ps.length + (cs.flatMap (payload mode)).length ≤ cap → qs = ps ++ cs.flatMap (payload mode))

/-- The responses that one round after the other can take. -/
def Accepted (mode : CommandMode) (rxCapacity : Nat) (cs : List (List Byte)) : Prop :=
  ∀ c ∈ cs, c.length ≤ rxCapacity ∧ overhead mode ≤ c.length

/-- A state in which the loop asks for another frame. -/
structure Waiting (rxCapacity cap : Nat) (pcb : Byte) (ps : List Byte) (e : Exchange) : Prop where
  error : e.error = none
  poller : e.poller.Ready
  plain : isPlainIBlock e.poller.layer.pcb = true
  pcb : e.poller.layer.pcb = pcb
  rx : e.rx.capacityBytes = rxCapacity
  result : e.result.Holds cap ps

theorem additionalBlock_answered (mode : CommandMode) {rxCapacity : Nat} {pcb : Byte}
    {ps : List Byte} {e : Exchange}
    (hw : Waiting rxCapacity cap pcb ps e) (ht : tx.Holds m ts) (hlt : ts.length < pollerBufSize)
    (answers : List Reception) :
    match respond pcb answers with
    | .failed error => ∃ e', additionalBlock mode tx e answers = some e' ∧
        e'.error = some error ∧ e'.result = e.result
    | .content c =>
      if c.length ≤ rxCapacity ∧ overhead mode ≤ c.length then
        ∃ e' qs, additionalBlock mode tx e answers = some e' ∧
          Waiting rxCapacity cap (pcb ^^^ 0x01) qs e' ∧ e'.status = responseStatus mode c ∧
          (ps.length + (payload mode c).length ≤ cap → qs = ps ++ payload mode c)
      else additionalBlock mode tx e answers = none := by
  have hreset : e.rx.reset.Holds rxCapacity [] := hw.rx ▸ holds_reset e.rx
  have hans := sendBlock_answered hw.poller hw.plain ht hlt hreset answers
  rw [hw.pcb] at hans
  cases hresp : respond pcb answers with
  | failed error =>
    rw [hresp] at hans
    obtain ⟨q, rx', hsent, -, -⟩ := hans
    have hrun : additionalBlock mode tx e answers =
        some { e with error := some error, poller := q, rx := rx' } := by
      rw [additionalBlock, hsent]
      rfl
    exact ⟨_, hrun, rfl, rfl⟩
  | content c =>
    rw [hresp, Answered] at hans
    by_cases hle : c.length ≤ rxCapacity
    · rw [if_pos hle] at hans
      obtain ⟨q, rx', hsent, hready, hlayer, hholds⟩ := hans
      have hstatus := statusCode_holds mode hholds
      have happend := appendPayload_holds mode hw.result hholds
      have hrun : additionalBlock mode tx e answers =
          (appendPayload mode e.result rx').map fun d => { e with
            status := responseStatus mode c, poller := q, rx := rx', result := d } := by
        rw [additionalBlock, hsent, bind_eq_bind, bind_some, additionalResponse, hstatus]
        cases appendPayload mode e.result rx' <;> rfl
      by_cases hover : overhead mode ≤ c.length
      · simp only [if_pos (And.intro hle hover)]
        rw [if_pos hover] at happend
        obtain ⟨d, qs, hd, hdb, hqs⟩ := happend
        have hpcb' : q.layer.pcb = pcb ^^^ 0x01 := by
          rw [hlayer, ← hw.pcb]
          rfl
        have hplain : isPlainIBlock q.layer.pcb = true := by
          rw [hpcb', ← hw.pcb]
          exact isPlainIBlock_toggle _ hw.plain
        rw [hd] at hrun
        exact ⟨_, qs, hrun, ⟨hw.error, hready, hplain, hpcb', hholds.capacity, hdb⟩, rfl, hqs⟩
      · simp only [if_neg (fun h : _ ∧ _ => hover h.2)]
        rw [if_neg hover] at happend
        rw [hrun, happend]
        rfl
    · rw [if_neg hle] at hans
      simp only [if_neg (fun h : _ ∧ _ => hle h.1)]
      rw [additionalBlock, hans]
      rfl

theorem collected_failed {ps : List Byte} {status : Byte} {e : Exchange} {error : Error4a}
    (hs : status = statusAdditionalFrame) (he : e.error = some error)
    (hr : e.result.Holds cap ps) : Collected mode cap ps status [] e where
  succeeds := by
    rw [he, finalStatus, foldl_nil, hs]
    exact ⟨fun h => absurd h.1 (by simp), fun h => absurd h (by decide)⟩
  result := ⟨ps, hr, fun _ => (append_nil ps).symm⟩

theorem collected_done {rxCapacity : Nat} {pcb : Byte} {ps : List Byte} {e : Exchange}
    (hw : Waiting rxCapacity cap pcb ps e) : Collected mode cap ps e.status [] e where
  succeeds := and_iff_right hw.error
  result := ⟨ps, hw.result, fun _ => (append_nil ps).symm⟩

theorem Collected.cons {ps qs : List Byte} {status : Byte} {cs : List (List Byte)} {e : Exchange}
    (h : Collected mode cap qs (responseStatus mode c) cs e)
    (hqs : ps.length + (payload mode c).length ≤ cap → qs = ps ++ payload mode c) :
    Collected mode cap ps status (c :: cs) e where
  succeeds := h.succeeds
  result := by
    obtain ⟨rs, hr, hrs⟩ := h.result
    refine ⟨rs, hr, fun hle => ?_⟩
    rw [flatMap_cons, length_append] at hle
    have hqs' := hqs (by omega)
    rw [hrs (by rw [hqs', length_append]; omega), hqs', flatMap_cons, append_assoc]

theorem additionalLoop_collected (mode : CommandMode) {rxCapacity : Nat} (ht : tx.Holds m ts)
    (hlt : ts.length < pollerBufSize) (answers : List (List Reception)) :
    ∀ (pcb : Byte) (ps : List Byte) (e : Exchange), Waiting rxCapacity cap pcb ps e →
      (Accepted mode rxCapacity (following mode e.status pcb answers) →
        ∃ e', additionalLoop mode tx e answers = some e' ∧
          Collected mode cap ps e.status (following mode e.status pcb answers) e') ∧
      (¬ Accepted mode rxCapacity (following mode e.status pcb answers) →
        additionalLoop mode tx e answers = none) := by
  have hnil : Accepted mode rxCapacity [] := fun _ hc => absurd hc not_mem_nil
  induction answers with
  | nil =>
    intro pcb ps e hw
    rw [additionalLoop]
    by_cases hs : e.status = statusAdditionalFrame
    · obtain ⟨e', hrun, herr, hres⟩ := additionalBlock_answered mode hw ht hlt []
      rw [following, if_pos hs, if_pos hs]
      exact ⟨fun _ => ⟨e', hrun, collected_failed hs herr (hres ▸ hw.result)⟩,
        fun h => absurd hnil h⟩
    · rw [following, if_neg hs, if_neg hs]
      exact ⟨fun _ => ⟨e, rfl, collected_done hw⟩, fun h => absurd hnil h⟩
  | cons a answers ih =>
    intro pcb ps e hw
    rw [additionalLoop]
    by_cases hs : e.status = statusAdditionalFrame
    · have hblock := additionalBlock_answered mode hw ht hlt a
      rw [following, if_pos hs, if_pos hs, responses]
      cases hresp : respond pcb a with
      | failed error =>
        rw [hresp] at hblock
        obtain ⟨e', hrun, herr, hres⟩ := hblock
        refine ⟨fun _ => ⟨e', ?_, collected_failed hs herr (hres ▸ hw.result)⟩,
          fun h => absurd hnil h⟩
        rw [hrun, bind_some, herr]
        exact if_neg (by simp)
      | content c =>
        rw [hresp] at hblock
        simp only at hblock ⊢
        change (Accepted mode rxCapacity (c :: following mode (responseStatus mode c) _ answers) →
          _) ∧ (¬ Accepted mode rxCapacity (c :: following mode (responseStatus mode c) _ answers) →
          _)
        by_cases hok : c.length ≤ rxCapacity ∧ overhead mode ≤ c.length
        · rw [if_pos hok] at hblock
          obtain ⟨e', qs, hrun, hw', hstatus, hqs⟩ := hblock
          have hrest := ih (pcb ^^^ 0x01) qs e' hw'
          rw [hstatus] at hrest
          rw [hrun, bind_some, if_pos hw'.error]
          refine ⟨fun hacc => ?_, fun hacc => hrest.2 fun hacc' => hacc ?_⟩
          · obtain ⟨e'', hloop, hcol⟩ := hrest.1 fun d hd => hacc d (mem_cons_of_mem c hd)
            exact ⟨e'', hloop, hcol.cons hqs⟩
          · intro d hd
            rcases mem_cons.mp hd with rfl | hd
            · exact hok
            · exact hacc' d hd
        · rw [if_neg hok] at hblock
          rw [hblock]
          exact ⟨fun hacc => absurd (hacc c mem_cons_self) hok, fun _ => rfl⟩
    · rw [following, if_neg hs, if_neg hs]
      exact ⟨fun _ => ⟨e, rfl, collected_done hw⟩, fun h => absurd hnil h⟩

def commandLength : CommandMode → Nat → Nat
  | .plain, n => n
  | .isoWrapped, n => if 1 < n then n + 5 else 5

structure CommandFits (mode : CommandMode) (input tx : BitBuffer) : Prop where
  whole : input.WholeBytes
  pos : 0 < input.sizeBytes
  command : commandLength mode input.sizeBytes ≤ tx.capacityBytes
  work : tx.capacityBytes < pollerBufSize

theorem holds_bytes (h : input.WholeBytes) : input.Holds input.capacityBytes input.bytes :=
  ⟨h, rfl, rfl⟩

theorem isoData_holds (hi : input.Holds n bs) (ht : tx.Holds m ts)
    (hle : ts.length + (if 1 < bs.length then bs.length else 0) ≤ m) :
    ∃ d ds, isoData input tx = some d ∧ d.Holds m ds ∧
      ds.length = ts.length + if 1 < bs.length then bs.length else 0 := by
  rw [isoData, hi.sizeBytes]
  by_cases hlen : 1 < bs.length
  · rw [if_pos hlen] at hle ⊢
    obtain ⟨d, hd, hdb⟩ := ht.appendByte (by omega) (UInt8.ofNat (bs.length - 1))
    have hroom : (ts ++ [UInt8.ofNat (bs.length - 1)]).length + (bs.length - 1) ≤ m := by
      rw [length_append, length_singleton]
      omega
    obtain ⟨e, he, heb⟩ := hdb.appendRight hi (i := 1) (by omega) hroom
    refine ⟨e, _, by rw [hd, bind_eq_bind, bind_some, he], heb, ?_⟩
    simp only [length_append, length_singleton, length_drop, if_pos hlen]
    omega
  · rw [if_neg hlen]
    exact ⟨tx, ts, rfl, ht, by rw [if_neg hlen]; rfl⟩

theorem commandFrame_holds (h : CommandFits mode input tx) :
    ∃ d ds, commandFrame mode input tx.reset = some d ∧ d.Holds tx.capacityBytes ds := by
  have hin := holds_bytes h.whole
  have hreset := holds_reset tx
  have hlen : commandLength mode input.bytes.length ≤ tx.capacityBytes := by
    rw [h.whole.length_bytes]
    exact h.command
  have hpos : 0 < input.bytes.length := by
    rw [h.whole.length_bytes]
    exact h.pos
  cases mode with
  | plain =>
    rw [commandLength] at hlen
    obtain ⟨d, hd, hdb⟩ := hreset.append hin (by rw [length_nil]; omega)
    exact ⟨d, _, hd, hdb⟩
  | isoWrapped =>
    rw [commandLength] at hlen
    have hfive : 5 ≤ tx.capacityBytes := by
      split at hlen
      · omega
      · exact hlen
    have hget : input.getByte 0 = some input.bytes[0] := by
      rw [hin.getByte hpos, List.getElem?_eq_getElem hpos]
    obtain ⟨b₁, h₁, hb₁⟩ := hreset.appendByte (by simp; omega) isoCla
    obtain ⟨b₂, h₂, hb₂⟩ := hb₁.appendByte (by simp; omega) input.bytes[0]
    obtain ⟨b₃, h₃, hb₃⟩ := hb₂.appendByte (by simp; omega) isoP1
    obtain ⟨b₄, h₄, hb₄⟩ := hb₃.appendByte (by simp; omega) isoP2
    have hroom : (([] ++ [isoCla] ++ [input.bytes[0]] ++ [isoP1]) ++ [isoP2]).length +
        (if 1 < input.bytes.length then input.bytes.length else 0) + 1 ≤ tx.capacityBytes := by
      simp only [length_append, length_singleton, length_nil]
      split at hlen
      case isTrue hlong =>
        rw [if_pos hlong]
        omega
      case isFalse hshort =>
        rw [if_neg hshort]
        omega
    obtain ⟨b₅, ds, h₅, hb₅, hds⟩ := isoData_holds hin hb₄ (by omega)
    obtain ⟨b₆, h₆, hb₆⟩ := hb₅.appendByte (by omega) isoLe
    refine ⟨b₆, _, ?_, hb₆⟩
    simp only [commandFrame, hget, h₁, h₂, h₃, h₄, h₅, h₆, bind_eq_bind, bind_some]

theorem additionalFrame_holds {work : BitBuffer} (h : CommandFits mode input tx)
    (hwork : work.capacityBytes = tx.capacityBytes) :
    ∃ d ds, additionalFrame mode work.reset = some d ∧ d.Holds tx.capacityBytes ds := by
  have hreset : work.reset.Holds tx.capacityBytes [] := hwork ▸ holds_reset work
  have hlen := h.command
  have hpos := h.pos
  cases mode with
  | plain =>
    rw [commandLength] at hlen
    obtain ⟨d, hd, hdb⟩ := hreset.appendByte (by rw [length_nil]; omega) statusAdditionalFrame
    exact ⟨d, _, hd, hdb⟩
  | isoWrapped =>
    have hfive : 5 ≤ tx.capacityBytes := by
      rw [commandLength] at hlen
      split at hlen
      · omega
      · exact hlen
    obtain ⟨b₁, h₁, hb₁⟩ := hreset.appendByte (by simp; omega) isoCla
    obtain ⟨b₂, h₂, hb₂⟩ := hb₁.appendByte (by simp; omega) statusAdditionalFrame
    obtain ⟨b₃, h₃, hb₃⟩ := hb₂.appendByte (by simp; omega) isoP1
    obtain ⟨b₄, h₄, hb₄⟩ := hb₃.appendByte (by simp; omega) isoP2
    obtain ⟨b₅, h₅, hb₅⟩ := hb₄.appendByte (by simp; omega) isoLe
    refine ⟨b₅, _, ?_, hb₅⟩
    simp only [additionalFrame, h₁, h₂, h₃, h₄, h₅, bind_eq_bind, bind_some]

theorem firstResponse_holds (mode : CommandMode) (result : BitBuffer) (h : rx.Holds n c) :
    if responseHasStatus mode c = true → (payload mode c).length ≤ result.capacityBytes then
      ∃ d, firstResponse mode result rx = some (responseStatus mode c, d) ∧
        d.Holds result.capacityBytes (if responseHasStatus mode c then payload mode c else [])
    else firstResponse mode result rx = none := by
  have hreset := holds_reset result
  have hcopy := copyPayload_holds mode hreset h
  simp only [firstResponse, statusCode_holds mode h, hasStatus_holds mode h, bind_eq_bind,
    bind_some]
  cases responseHasStatus mode c with
  | false =>
    rw [if_pos (by simp)]
    exact ⟨_, rfl, hreset⟩
  | true =>
    by_cases hle : (payload mode c).length ≤ result.capacityBytes
    · rw [if_pos hle] at hcopy
      obtain ⟨d, hd, hdb⟩ := hcopy
      rw [if_pos fun _ => hle]
      refine ⟨d, ?_, hdb⟩
      rw [if_pos rfl, hd]
      rfl
    · rw [if_neg hle] at hcopy
      rw [if_neg (fun h => hle (h rfl)), if_pos rfl, hcopy]
      rfl

theorem run_first (result rx : BitBuffer) (hp : p.Ready) (hpcb : isPlainIBlock p.layer.pcb = true)
    (hcmd : CommandFits mode input tx) (answers : List (List Reception)) :
    match respond p.layer.pcb (answers.headD []) with
    | .failed error => ∃ e, run p mode input result tx rx answers = some e ∧ e.error = some error
    | .content c =>
      if c.length ≤ rx.capacityBytes ∧
          (responseHasStatus mode c = true → (payload mode c).length ≤ result.capacityBytes) then
        ∃ e work ts, run p mode input result tx rx answers =
            additionalLoop mode work e answers.tail ∧ work.Holds tx.capacityBytes ts ∧
          e.status = responseStatus mode c ∧
          Waiting rx.capacityBytes result.capacityBytes (p.layer.pcb ^^^ 0x01)
            (if responseHasStatus mode c then payload mode c else []) e
      else run p mode input result tx rx answers = none := by
  obtain ⟨d, ds, hd, hdb⟩ := commandFrame_holds hcmd
  obtain ⟨f, fs, hf, hfb⟩ := additionalFrame_holds hcmd hdb.capacity
  have hdlt : ds.length < pollerBufSize := Nat.lt_of_le_of_lt hdb.length_le hcmd.work
  have hans := sendBlock_answered hp hpcb hdb hdlt (holds_reset rx) (answers.headD [])
  cases hresp : respond p.layer.pcb (answers.headD []) with
  | failed error =>
    rw [hresp] at hans
    obtain ⟨q, rx', hsent, -, -⟩ := hans
    have hrun : run p mode input result tx rx answers =
        some ⟨some error, statusOperationOk, q, rx', result⟩ := by
      rw [run, hd, bind_eq_bind, bind_some, hsent]
      rfl
    exact ⟨_, hrun, rfl⟩
  | content c =>
    rw [hresp, Answered] at hans
    by_cases hle : c.length ≤ rx.capacityBytes
    · rw [if_pos hle] at hans
      obtain ⟨q, rx', hsent, hready, hlayer, hholds⟩ := hans
      have hfirst := firstResponse_holds mode result hholds
      have hrun : run p mode input result tx rx answers =
          (firstResponse mode result rx').bind fun first =>
            additionalLoop mode f ⟨none, first.1, q, rx', first.2⟩ answers.tail := by
        simp only [run, hd, hsent, hf, bind_eq_bind, bind_some]
      by_cases hfit : responseHasStatus mode c = true →
          (payload mode c).length ≤ result.capacityBytes
      · rw [if_pos hfit] at hfirst
        simp only [if_pos (And.intro hle hfit)]
        obtain ⟨r, hr, hrb⟩ := hfirst
        rw [hr, bind_some] at hrun
        have hpcb' : q.layer.pcb = p.layer.pcb ^^^ 0x01 := by
          rw [hlayer]
          rfl
        have hplain : isPlainIBlock q.layer.pcb = true := by
          rw [hpcb']
          exact isPlainIBlock_toggle _ hpcb
        exact ⟨_, f, fs, hrun, hfb, rfl, rfl, hready, hplain, hpcb', hholds.capacity, hrb⟩
      · rw [if_neg hfit] at hfirst
        simp only [if_neg (fun h : _ ∧ _ => hfit h.2)]
        rw [hrun, hfirst]
        rfl
    · rw [if_neg hle] at hans
      simp only [if_neg (fun h : _ ∧ _ => hle h.1)]
      rw [run, hd, bind_eq_bind, bind_some, hans]
      rfl

theorem responseHasStatus_of_final {pcb : Byte} {answers : List (List Reception)}
    (h : finalStatus mode (responseStatus mode c)
      (following mode (responseStatus mode c) pcb answers) = statusOperationOk) :
    responseHasStatus mode c = true := by
  by_contra hs
  have hstatus : responseStatus mode c = statusLengthError := if_neg hs
  rw [hstatus] at h
  exact absurd h (by decide : statusLengthError ≠ statusOperationOk)

theorem handled_cons {rxCapacity resultCapacity : Nat} {cs : List (List Byte)} :
    Handled mode rxCapacity resultCapacity (c :: cs) ↔ (c.length ≤ rxCapacity ∧
        (responseHasStatus mode c = true → (payload mode c).length ≤ resultCapacity)) ∧
      Accepted mode rxCapacity cs ∧
      (Succeeds mode (c :: cs) → ((c :: cs).flatMap (payload mode)).length ≤ resultCapacity) := by
  constructor
  · intro h
    refine ⟨⟨h.received c mem_cons_self, h.first c rfl⟩, fun d hd => ?_, h.result⟩
    exact ⟨h.received d (mem_cons_of_mem c hd), h.additional d hd⟩
  · rintro ⟨⟨hlen, hfirst⟩, hacc, hres⟩
    refine ⟨fun d hd => ?_, fun d hd => ?_, fun d hd => (hacc d hd).2, hres⟩
    · rcases mem_cons.mp hd with rfl | hd
      · exact hlen
      · exact (hacc d hd).1
    · obtain rfl : c = d := some.inj hd
      exact hfirst

/-- The command comes to an end, and where it is successful the result is what the payloads of the
exchange make up. -/
def Robust (p : Poller) (mode : CommandMode) (input result tx rx : BitBuffer)
    (answers : List (List Reception)) : Prop :=
  ∃ e, run p mode input result tx rx answers = some e ∧
    (e.error = none ∧ e.status = statusOperationOk → e.result.bytes =
      (responses mode p.layer.pcb answers).flatMap (payload mode))

theorem robust_iff_handled (hp : p.Ready) (hpcb : isPlainIBlock p.layer.pcb = true)
    (hcmd : CommandFits mode input tx) (answers : List (List Reception)) :
    Robust p mode input result tx rx answers ↔
    Handled mode rx.capacityBytes result.capacityBytes (responses mode p.layer.pcb answers) := by
  have hfirst := run_first result rx hp hpcb hcmd answers
  have hresponses : responses mode p.layer.pcb answers =
      match respond p.layer.pcb (answers.headD []) with
      | .failed _ => []
      | .content c => c :: following mode (responseStatus mode c) (p.layer.pcb ^^^ 0x01)
          answers.tail := by
    cases answers <;> rfl
  cases hresp : respond p.layer.pcb (answers.headD []) with
  | failed error =>
    rw [hresp] at hfirst hresponses
    obtain ⟨e, hrun, herr⟩ := hfirst
    rw [Robust, hresponses]
    refine ⟨fun _ => ?_, fun _ => ⟨e, hrun, fun h => absurd h.1 (by rw [herr]; simp)⟩⟩
    exact ⟨by simp, by simp, by simp, by simp⟩
  | content c =>
    rw [hresp] at hfirst hresponses
    simp only at hfirst hresponses
    rw [Robust, hresponses, handled_cons]
    by_cases hok : c.length ≤ rx.capacityBytes ∧
        (responseHasStatus mode c = true → (payload mode c).length ≤ result.capacityBytes)
    · rw [if_pos hok] at hfirst
      obtain ⟨e, work, ts, hrun, hwork, hstatus, hw⟩ := hfirst
      have hlt : ts.length < pollerBufSize := Nat.lt_of_le_of_lt hwork.length_le hcmd.work
      obtain ⟨hloop, hfault⟩ := additionalLoop_collected mode hwork hlt answers.tail _ _ e hw
      rw [hstatus] at hloop hfault
      rw [hrun]
      constructor
      · rintro ⟨e', he', hbytes⟩
        by_cases hacc : Accepted mode rx.capacityBytes
            (following mode (responseStatus mode c) (p.layer.pcb ^^^ 0x01) answers.tail)
        · refine ⟨hok, hacc, fun hsucc => ?_⟩
          obtain ⟨e'', he'', hcol⟩ := hloop hacc
          obtain rfl := some.inj (he'.symm.trans he'')
          have hfinal := (succeeds_cons mode c _).mp hsucc
          obtain ⟨qs, hqs, -⟩ := hcol.result
          rw [← hbytes (hcol.succeeds.mpr hfinal), hqs.bytes]
          exact hqs.length_le
        · rw [hfault hacc] at he'
          cases he'
      · rintro ⟨-, hacc, hres⟩
        obtain ⟨e', he', hcol⟩ := hloop hacc
        refine ⟨e', he', fun hsucc => ?_⟩
        have hfinal := hcol.succeeds.mp hsucc
        have hlen := hres ((succeeds_cons mode c _).mpr hfinal)
        obtain ⟨qs, hqs, hcat⟩ := hcol.result
        rw [if_pos (responseHasStatus_of_final hfinal)] at hcat
        rw [flatMap_cons, length_append] at hlen
        rw [hqs.bytes, hcat hlen, flatMap_cons]
    · rw [if_neg hok] at hfirst
      rw [hfirst]
      constructor
      · rintro ⟨e, he, -⟩
        cases he
      · rintro ⟨hok', -⟩
        exact absurd hok' hok

end NativeCommand

/-- What the answering block has to be like where blocks are sent with requests for more time in
the layer: its information field is not empty and fits the output. -/
def HandledPwtExt (capacity : Nat) : Answer → Prop
  | .failed _ => True
  | .content c => c ≠ [] ∧ c.length ≤ capacity

/-- The block is sent, and where a response has been received it is the information field of the
answering block. -/
def RobustPwtExt (p : Poller) (tx rx : BitBuffer) (answers : List Reception) : Prop :=
  ∃ s, sendBlockPwtExt p tx rx answers = some s ∧ (s.error = none →
    respondPwtExt p.layer.pcb sendBlockMaxAttempts answers = .content s.rx.bytes)

theorem robustPwtExt_iff_handled (hp : p.Ready) (ht : tx.Holds m ts) (hlt : ts.length < pollerBufSize)
    (hcap : 2 ≤ rx.capacityBytes) (answers : List Reception) :
    RobustPwtExt p tx rx answers ↔
    HandledPwtExt rx.capacityBytes (respondPwtExt p.layer.pcb sendBlockMaxAttempts answers) := by
  have hans := sendBlockPwtExt_answered hp ht hlt hcap rfl answers
  rw [RobustPwtExt]
  cases hresp : respondPwtExt p.layer.pcb sendBlockMaxAttempts answers with
  | failed error =>
    rw [hresp] at hans
    obtain ⟨q, rx', hsent⟩ := hans
    exact ⟨fun _ => trivial, fun _ => ⟨_, hsent, fun h => absurd h (by simp)⟩⟩
  | content c =>
    rw [hresp, AnsweredPwtExt] at hans
    rw [HandledPwtExt]
    split at hans
    case isTrue hok =>
      obtain ⟨q, rx', hsent, hholds⟩ := hans
      exact ⟨fun _ => hok, fun _ => ⟨_, hsent, fun _ => congrArg Answer.content hholds.bytes.symm⟩⟩
    case isFalse hbad =>
      rw [hans]
      refine ⟨?_, fun hok => absurd hok hbad⟩
      rintro ⟨s, hs, -⟩
      cases hs

/-- What the frames of a card have to be like for the poller. -/
theorem frames_robust_iff {block out : BitBuffer} (hp : p.Ready)
    (hpcb : isPlainIBlock p.layer.pcb = true) (hb : block.WholeBytes)
    (hlt : block.sizeBytes < pollerBufSize) (hcap : 2 ≤ out.capacityBytes)
    (hcmd : NativeCommand.CommandFits mode input tx) (answers : List Reception)
    (blocks : List (List Reception)) :
    (RobustPwtExt p block out answers ↔
      HandledPwtExt out.capacityBytes (respondPwtExt p.layer.pcb sendBlockMaxAttempts answers)) ∧
    (NativeCommand.Robust p mode input result tx rx blocks ↔
      NativeCommand.Handled mode rx.capacityBytes result.capacityBytes
        (NativeCommand.responses mode p.layer.pcb blocks)) := by
  have hlen : block.bytes.length < pollerBufSize := by
    rw [hb.length_bytes]
    exact hlt
  exact ⟨robustPwtExt_iff_handled hp (NativeCommand.holds_bytes hb) hlen hcap answers,
    NativeCommand.robust_iff_handled hp hpcb hcmd blocks⟩

theorem capacityBytes_alloc (n : Nat) : (alloc n).capacityBytes = n := length_replicate

/-- The poller before its first block. -/
def poller : Poller := ⟨Layer.reset, alloc pollerBufSize, alloc pollerBufSize⟩

theorem ready_poller : poller.Ready := ⟨length_replicate, length_replicate, by decide⟩

theorem commandFits_version : NativeCommand.CommandFits .plain (ofBytes [0x60]) (alloc 64) where
  whole := wholeBytes_ofBytes _
  pos := by decide
  command := by decide
  work := by decide

theorem frames_robust_iff_additionalFrame :
    RobustPwtExt poller (ofBytes [0x60]) (alloc 64) [.frame [0x02, 0xAF, 0x01, 0x12, 0x2D]] ∧
    NativeCommand.Robust poller .plain (ofBytes [0x60]) (alloc 512) (alloc 64) (alloc 64)
      [[.frame [0x02, 0xAF, 0x01, 0x12, 0x2D]], [.frame [0x03, 0x00, 0x02, 0x62, 0x69]]] := by
  have h : ∀ answers blocks, (RobustPwtExt poller (ofBytes [0x60]) (alloc 64) answers ↔ _) ∧
      (NativeCommand.Robust poller .plain (ofBytes [0x60]) (alloc 512) (alloc 64) (alloc 64)
        blocks ↔ _) :=
    frames_robust_iff ready_poller (by decide) (wholeBytes_ofBytes _) (by decide) (by decide)
      commandFits_version
  refine ⟨(h _ []).1.mpr ?_, (h [] _).2.mpr ?_⟩
  · have hr : respondPwtExt 0x02 sendBlockMaxAttempts
        [.frame [0x02, 0xAF, 0x01, 0x12, 0x2D]] = .content [0xAF, 0x01] := by decide
    rw [show poller.layer.pcb = 0x02 from rfl, hr]
    exact ⟨by decide, by decide⟩
  · have hr : NativeCommand.responses .plain 0x02
        [[.frame [0x02, 0xAF, 0x01, 0x12, 0x2D]], [.frame [0x03, 0x00, 0x02, 0x62, 0x69]]] =
        [[0xAF, 0x01], [0x00, 0x02]] := by decide
    rw [show poller.layer.pcb = 0x02 from rfl, hr, capacityBytes_alloc, capacityBytes_alloc]
    exact ⟨by decide, by decide, by decide, fun _ => by decide⟩

/-- A card that answers with an empty block, at once or behind an additional frame. -/
theorem emptyBlock_not_robust :
    (¬ ∀ (p : Poller) (block out : BitBuffer) (answers : List Reception), p.Ready →
      isPlainIBlock p.layer.pcb = true → block.WholeBytes → block.sizeBytes < pollerBufSize →
      2 ≤ out.capacityBytes → RobustPwtExt p block out answers) ∧
    (¬ ∀ (p : Poller) (mode : CommandMode) (input result tx rx : BitBuffer)
      (answers : List (List Reception)), p.Ready → isPlainIBlock p.layer.pcb = true →
      NativeCommand.CommandFits mode input tx →
      NativeCommand.Robust p mode input result tx rx answers) := by
  constructor
  · intro h
    have hrobust := h poller (ofBytes [0x60]) (alloc 64) [.frame [0x02, 0xEC, 0x72]] ready_poller
      (by decide) (wholeBytes_ofBytes _) (by decide) (by decide)
    have hhandled := (robustPwtExt_iff_handled ready_poller (holds_ofBytes [0x60]) (by decide)
      (by decide) _).mp hrobust
    have hr : respondPwtExt 0x02 sendBlockMaxAttempts [.frame [0x02, 0xEC, 0x72]] = .content [] := by
      decide
    rw [show poller.layer.pcb = 0x02 from rfl, hr] at hhandled
    exact hhandled.1 rfl
  · intro h
    have hrobust := h poller .plain (ofBytes [0x60]) (alloc 512) (alloc 64) (alloc 64)
      [[.frame [0x02, 0xAF, 0x01, 0x12, 0x2D]], [.frame [0x03, 0x65, 0x63]]] ready_poller
      (by decide) commandFits_version
    have hhandled := (NativeCommand.robust_iff_handled ready_poller (by decide)
      commandFits_version _).mp hrobust
    have hr : NativeCommand.responses .plain 0x02
        [[.frame [0x02, 0xAF, 0x01, 0x12, 0x2D]], [.frame [0x03, 0x65, 0x63]]] =
        [[0xAF, 0x01], []] := by decide
    rw [show poller.layer.pcb = 0x02 from rfl, hr] at hhandled
    exact absurd (hhandled.additional [] (by simp)) (by decide)

end NikitaFirmware.Nfc
