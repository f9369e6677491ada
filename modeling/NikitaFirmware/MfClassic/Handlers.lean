import NikitaFirmware.MfClassic.Listener

/-!
# What the handlers of an emulated card do

What the handlers of the listener may send, load and write is stated for each of them against the
listener that it runs in. A transfer is the one operation that does not look at the sector of the
authentication.
-/

namespace NikitaFirmware.MfClassic
open Nfc List Option

namespace Listener

variable {l l' : Listener} {buff : BitBuffer} {nt : Nonce} {r : Handled} {h : Handler}
  {block b : Byte} {action : Action}

/-- A block that commands can get at: in the card, and in the sector of the authentication. -/
structure Within (l : Listener) (block : Byte) : Prop where
  state : l.state = .authComplete
  sector : l.inSector block = true
  card : block.toNat < l.totalBlockNum

structure Grants (l : Listener) (block : Byte) (action : Action) : Prop where
  within : l.Within block
  allowed : l.allows block action = true

def valueAccess : ValueCommand → Action
  | .increment => .dataInc
  | _ => .dataDec

/-- The bytes of a field may be sent if its access is granted; otherwise they are zero. -/
def Hides (l : Listener) (block : Byte) (action : Action) (bytes : List Byte) (start size : Nat) :
    Prop :=
  l.allows block action = true ∨ (bytes.drop start).take size = replicate size 0

structure Transmits (l : Listener) (block : Byte) (bytes : List Byte) : Prop where
  within : l.Within block
  data : isSectorTrailer block = false → l.allows block .dataRead = true
  keyA : isSectorTrailer block = true → l.Hides block .keyARead bytes 0 6
  keyB : isSectorTrailer block = true → l.Hides block .keyBRead bytes 10 6
  accessBits : isSectorTrailer block = true → l.Hides block .acRead bytes 6 4

/-- The access to a field is granted, or the field stays as it is. -/
def Keeps (l : Listener) (block : Byte) (action : Action) (new : Block) (start size : Nat) : Prop :=
  l.allows block action = true ∨ new.part start size = (l.data.block block).part start size

/-- A block is written, with the access that this needs. -/
structure Writes (l : Listener) (block : Byte) (action : Action) (new : Block) : Prop where
  within : l.Within block
  pos : block ≠ 0
  data : isSectorTrailer block = false → l.allows block action = true
  keyA : isSectorTrailer block = true → l.Keeps block .keyAWrite new 0 6
  keyB : isSectorTrailer block = true → l.Keeps block .keyBWrite new 10 6
  accessBits : isSectorTrailer block = true → l.Keeps block .acWrite new 6 4

def followingHandler : Handler → Option Handler
  | .authKeyA | .authKeyB => some .authSecondPart
  | .writeBlockFirstPart => some .writeBlockSecondPart
  | .valueCmd => some .valueDataReceive
  | .valueDataReceive => some .valueTransfer
  | _ => none

theorem handlerAt_bound {i j : Nat} (hh : handlerAt i j = some h) : i < 9 ∧ j < 3 := by
  rw [handlerAt, bind_eq_some_iff] at hh
  obtain ⟨cmd, hcmd, hj⟩ := hh
  have hi := (List.getElem?_eq_some_iff.mp hcmd).1
  have hj' := (List.getElem?_eq_some_iff.mp hj).1
  have hlen : ∀ cmd ∈ cmdHandlers, cmd.handler.length ≤ 3 := by decide
  exact ⟨hi, Nat.lt_of_lt_of_le hj' (hlen cmd (mem_of_getElem? hcmd))⟩

theorem handlerAt_succ {i j : Nat} (hh : handlerAt i j = some h) :
    handlerAt i (j + 1) = followingHandler h := by
  have htable : ∀ i < 9, ∀ j < 3, ∀ h ∈ handlerAt i j, handlerAt i (j + 1) = followingHandler h := by
    decide
  obtain ⟨hi, hj⟩ := handlerAt_bound hh
  exact htable i hi j hj h hh

/-- What a handler of a command in progress relies on. -/
def Awaits (l : Listener) : Handler → Prop
  | .authSecondPart => l.state = .idle ∧ l.authContext.blockNum.toNat < l.totalBlockNum
  | .writeBlockSecondPart => l.Within l.writeBlock ∧ l.writeBlock ≠ 0
  | .valueDataReceive | .valueTransfer => l.state = .authComplete
  | _ => False

/-- A command in progress has a handler, and what this one relies on. -/
def InProgress (l : Listener) : Prop :=
  l.cmdInProgress = true →
    ∃ h, handlerAt l.currentCmdIdx l.currentCmdHandlerIdx = some h ∧ l.Awaits h

def Authenticated (l : Listener) : Prop :=
  l.state = .authComplete → l.authContext.blockNum.toNat < l.totalBlockNum

/-- What a handler does not change, and what it leaves in progress. -/
structure Outcome (l : Listener) (r : Handled) : Prop where
  identity : r.listener.data.identity = l.data.identity
  total : r.listener.totalBlockNum = l.totalBlockNum
  sent : ∀ t ∈ r.sent, ∀ b, t.source = some b → l.Transmits b t.plain.bytes
  loaded : ∀ b cmd, r.loaded = some (b, cmd) → l.Grants b (valueAccess cmd)
  frame : ∀ b, (∀ a, r.written ≠ some (b, a)) → r.listener.data.block b = l.data.block b
  context : r.listener.state = .authComplete →
    r.listener.authContext.blockNum = l.authContext.blockNum ∧
      r.listener.authContext.keyType = l.authContext.keyType ∧
      l.authContext.blockNum.toNat < l.totalBlockNum
  progress : r.listener.InProgress

theorem Outcome.type (h : Outcome l r) : r.listener.data.type = l.data.type :=
  congrArg Prod.snd h.identity

/-- The blocks that are written are written by right. -/
def Justified (l : Listener) (r : Handled) : Prop :=
  ∀ b a, r.written = some (b, a) → l.Writes b a (r.listener.data.block b)

/-- Two listeners that differ in their generators and buffers. -/
structure Same (l l' : Listener) : Prop where
  state : l'.state = l.state
  data : l'.data = l.data
  context : l'.authContext = l.authContext
  writeBlock : l'.writeBlock = l.writeBlock
  progress : l'.cmdInProgress = l.cmdInProgress
  cmdIdx : l'.currentCmdIdx = l.currentCmdIdx
  handlerIdx : l'.currentCmdHandlerIdx = l.currentCmdHandlerIdx
  total : l'.totalBlockNum = l.totalBlockNum

theorem sendEncrypted_same {keystream : List Byte} {source : Option Byte} {t : Sent}
    (hs : l.sendEncrypted keystream source = some (l', t)) :
    Same l l' ∧ t.plain = l.txPlain ∧ t.source = source := by
  rw [sendEncrypted, map_eq_some_iff] at hs
  obtain ⟨e, -, he⟩ := hs
  obtain ⟨rfl, rfl⟩ := Prod.mk.inj he
  exact ⟨⟨rfl, rfl, rfl, rfl, rfl, rfl, rfl, rfl⟩, rfl, rfl⟩

theorem sendNonce_same {t : Sent} (hs : l.sendNonce nt = some (l', t)) :
    Same l l' ∧ t.source = none := by
  rw [sendNonce] at hs
  cases hc : l.commState with
  | plain =>
    rw [hc, map_eq_some_iff] at hs
    obtain ⟨tx, -, htx⟩ := hs
    obtain ⟨rfl, rfl⟩ := Prod.mk.inj htx
    exact ⟨⟨rfl, rfl, rfl, rfl, rfl, rfl, rfl, rfl⟩, rfl⟩
  | encrypted =>
    rw [hc, bind_eq_some_iff] at hs
    obtain ⟨tx, -, htx⟩ := hs
    obtain ⟨h, -, hsource⟩ := sendEncrypted_same htx
    exact ⟨⟨h.state, h.data, h.context, h.writeBlock, h.progress, h.cmdIdx, h.handlerIdx, h.total⟩,
      hsource⟩

theorem inProgress_of_not (hp : l.cmdInProgress = false) : l.InProgress := by
  intro h
  rw [hp] at h
  cases h

theorem inProgress_nextHandler {next : Handler} {k : Listener}
    (hh : handlerAt l.currentCmdIdx l.currentCmdHandlerIdx = some h)
    (hnext : followingHandler h = some next) (hcmd : k.currentCmdIdx = l.currentCmdIdx)
    (hidx : k.currentCmdHandlerIdx = l.currentCmdHandlerIdx) (haw : k.nextHandler.Awaits next) :
    k.nextHandler.InProgress := by
  intro _
  refine ⟨next, ?_, haw⟩
  change handlerAt k.currentCmdIdx (k.currentCmdHandlerIdx + 1) = some next
  rw [hcmd, hidx, handlerAt_succ hh, hnext]

theorem outcome_of_data {command : Command} {sent : List Sent} (hdata : l'.data = l.data)
    (htotal : l'.totalBlockNum = l.totalBlockNum) (hsent : ∀ t ∈ sent, t.source = none)
    (hcontext : l'.state = .authComplete → l'.authContext.blockNum = l.authContext.blockNum ∧
      l'.authContext.keyType = l.authContext.keyType ∧
      l.authContext.blockNum.toNat < l.totalBlockNum) (hprogress : l'.InProgress) :
    Outcome l { command := command, listener := l', sent := sent } where
  identity := by rw [hdata]
  total := htotal
  sent := fun t ht b hb => absurd ((hsent t ht).symm.trans hb) (by simp)
  loaded := fun b cmd hl => absurd hl (by simp)
  frame := fun b _ => by rw [hdata]
  context := hcontext
  progress := hprogress

theorem justified_of_none (hw : r.written = none) : Justified l r := by
  intro b a h
  rw [hw] at h
  cases h

theorem outcome_unchanged {command : Command} (hauth : l.Authenticated) (hp : l.InProgress) :
    Outcome l { command := command, listener := l } ∧
      Justified l { command := command, listener := l } :=
  ⟨outcome_of_data rfl rfl (by simp) (fun hs => ⟨rfl, rfl, hauth hs⟩) hp, justified_of_none rfl⟩

theorem halt_outcome (hauth : l.Authenticated) (hp : l.InProgress)
    (hr : l.haltHandler buff = some r) : Outcome l r ∧ Justified l r := by
  rw [haltHandler, map_eq_some_iff] at hr
  obtain ⟨lsb, -, rfl⟩ := hr
  exact outcome_unchanged hauth hp

theorem authFirstPart_outcome {keyType : KeyType}
    (hh : handlerAt l.currentCmdIdx l.currentCmdHandlerIdx = some h)
    (hnext : followingHandler h = some .authSecondPart) (hp : l.cmdInProgress = false)
    (hr : l.authFirstPartHandler keyType buff nt = some r) : Outcome l r ∧ Justified l r := by
  simp only [authFirstPartHandler, bind_eq_bind, bind_eq_some_iff] at hr
  obtain ⟨block, -, hr⟩ := hr
  split at hr
  · obtain rfl := some.inj hr
    exact ⟨outcome_of_data rfl rfl (by simp) (fun hs => absurd hs (by simp))
      (inProgress_of_not hp), justified_of_none rfl⟩
  case isFalse hlt =>
    rw [bind_eq_some_iff] at hr
    obtain ⟨⟨l₁, t⟩, hsend, hr⟩ := hr
    obtain ⟨hsame, hsource⟩ := sendNonce_same hsend
    obtain rfl := some.inj hr
    refine ⟨outcome_of_data hsame.data hsame.total ?_ ?_ ?_, justified_of_none rfl⟩
    · intro t' ht'
      rw [mem_singleton.mp ht', hsource]
    · intro hs
      cases hsame.state.symm.trans hs
    · refine inProgress_nextHandler hh hnext hsame.cmdIdx hsame.handlerIdx ⟨hsame.state, ?_⟩
      change l₁.authContext.blockNum.toNat < l₁.totalBlockNum
      rw [hsame.context, hsame.total]
      exact Nat.lt_of_not_le hlt

theorem completeAuth_outcome (hr : l.completeAuth = some r)
    (hlt : l.authContext.blockNum.toNat < l.totalBlockNum) (hp : l.cmdInProgress = false) :
    Outcome l r ∧ Justified l r := by
  rw [completeAuth, bind_eq_bind, bind_eq_some_iff] at hr
  obtain ⟨tx, -, hr⟩ := hr
  rw [bind_eq_bind, bind_eq_some_iff] at hr
  obtain ⟨⟨l₁, t⟩, hsend, hr⟩ := hr
  obtain ⟨hsame, -, hsource⟩ := sendEncrypted_same hsend
  obtain rfl := some.inj hr
  refine ⟨outcome_of_data hsame.data hsame.total ?_ ?_ (inProgress_of_not ?_),
    justified_of_none rfl⟩
  · intro t' ht'
    rw [mem_singleton.mp ht', hsource]
  · intro _
    have hcontext : l₁.authContext = l.authContext := hsame.context
    exact ⟨congrArg AuthContext.blockNum hcontext, congrArg AuthContext.keyType hcontext, hlt⟩
  · exact hsame.progress.trans hp

/-- Two listeners that grant the same accesses. -/
structure Like (l₀ l : Listener) : Prop where
  state : l₀.state = l.state
  data : l₀.data = l.data
  blockNum : l₀.authContext.blockNum = l.authContext.blockNum
  keyType : l₀.authContext.keyType = l.authContext.keyType
  total : l₀.totalBlockNum = l.totalBlockNum

section Like

variable {l₀ : Listener} (hl : Like l₀ l)

include hl

theorem Like.allows : l₀.allows block action = l.allows block action := by
  rw [Listener.allows, Listener.allows, hl.data, hl.keyType]

theorem Like.within (h : l₀.Within block) : l.Within block where
  state := hl.state ▸ h.state
  sector := by
    have hs := h.sector
    rwa [inSector, hl.blockNum] at hs
  card := hl.total ▸ h.card

theorem Like.transmits {bytes : List Byte} (h : l₀.Transmits block bytes) :
    l.Transmits block bytes where
  within := hl.within h.within
  data := fun ht => hl.allows ▸ h.data ht
  keyA := fun ht => (h.keyA ht).imp (fun ha => hl.allows ▸ ha) id
  keyB := fun ht => (h.keyB ht).imp (fun ha => hl.allows ▸ ha) id
  accessBits := fun ht => (h.accessBits ht).imp (fun ha => hl.allows ▸ ha) id

theorem Like.writes {new : Block} (h : l₀.Writes block action new) : l.Writes block action new where
  within := hl.within h.within
  pos := h.pos
  data := fun ht => hl.allows ▸ h.data ht
  keyA := fun ht => (h.keyA ht).imp (fun ha => hl.allows ▸ ha) (fun hk => hl.data ▸ hk)
  keyB := fun ht => (h.keyB ht).imp (fun ha => hl.allows ▸ ha) (fun hk => hl.data ▸ hk)
  accessBits := fun ht =>
    (h.accessBits ht).imp (fun ha => hl.allows ▸ ha) (fun hk => hl.data ▸ hk)

theorem Outcome.of_like (h : Outcome l₀ r) : Outcome l r where
  identity := by rw [h.identity, hl.data]
  total := h.total.trans hl.total
  sent := fun t ht b hb => hl.transmits (h.sent t ht b hb)
  loaded := fun b cmd hb =>
    ⟨hl.within (h.loaded b cmd hb).within, hl.allows ▸ (h.loaded b cmd hb).allowed⟩
  frame := fun b hb => by rw [h.frame b hb, hl.data]
  context := fun hs => by
    obtain ⟨hblock, hkey, hlt⟩ := h.context hs
    rw [hl.blockNum, hl.total] at hlt
    exact ⟨hblock.trans hl.blockNum, hkey.trans hl.keyType, hlt⟩
  progress := h.progress

theorem Justified.of_like (h : Justified l₀ r) : Justified l r :=
  fun b a hw => hl.writes (h b a hw)

end Like

theorem authSecondPart_outcome (haw : l.Awaits .authSecondPart)
    (hr : l.authSecondPartHandler buff = some r) : Outcome l r ∧ Justified l r := by
  simp only [authSecondPartHandler, bind_eq_bind] at hr
  split at hr
  · obtain rfl := some.inj hr
    exact ⟨outcome_of_data rfl rfl (by simp) (fun _ => ⟨rfl, rfl, haw.2⟩) (inProgress_of_not rfl),
      justified_of_none rfl⟩
  · simp only [bind_eq_some_iff] at hr
    obtain ⟨nr, -, ar, -, hr⟩ := hr
    generalize acceptsAnswer l.crypto l.authContext.nt nr ar = accepted at hr
    split at hr
    · obtain ⟨ho, hj⟩ := completeAuth_outcome hr haw.2 rfl
      have hlike : Like { l with
          cmdInProgress := false
          authContext := { l.authContext with nr := nr, ar := ar }
          crypto := accepted.2 } l := ⟨rfl, rfl, rfl, rfl, rfl⟩
      exact ⟨ho.of_like hlike, hj.of_like hlike⟩
    · obtain rfl := some.inj hr
      exact ⟨outcome_of_data rfl rfl (by simp) (fun _ => ⟨rfl, rfl, haw.2⟩)
        (inProgress_of_not rfl), justified_of_none rfl⟩

theorem part_mask_apart {start size start' size' : Nat} {c : Block}
    (h : start' + size' ≤ start ∨ start + size ≤ start') :
    (l.mask block action start size c).part start' size' = c.part start' size' := by
  rw [mask]
  split
  · rfl
  · exact Block.part_copyIn_apart (by rwa [length_replicate])

theorem part_mask {start size : Nat} {c : Block} (h : start + size ≤ 16)
    (ha : ¬ l.allows block action = true) :
    (l.mask block action start size c).part start size = replicate size 0 := by
  have hpart := @Block.part_copyIn c start (replicate size 0) (by rwa [length_replicate])
  rw [length_replicate] at hpart
  rw [mask, if_neg ha, hpart]

theorem hides_of_part {c : Block} {crc : List Byte} {start size : Nat} (hle : start + size ≤ 16)
    (h : ¬ l.allows block action = true → c.part start size = replicate size 0) :
    l.Hides block action (c.bytes ++ crc) start size := by
  refine or_iff_not_imp_left.mpr fun ha => ?_
  rw [drop_append_of_le_length (by rw [c.length_bytes]; omega),
    take_append_of_le_length (by rw [length_drop, c.length_bytes]; omega)]
  exact h ha

theorem sendBlock_outcome {content : Block} (hr : l.sendBlock block content = some r)
    (hauth : l.Authenticated) (hp : l.cmdInProgress = false)
    (ht : ∀ crc, l.Transmits block (content.bytes ++ crc)) : Outcome l r ∧ Justified l r := by
  rw [sendBlock, bind_eq_bind, bind_eq_some_iff] at hr
  obtain ⟨tx, htx, hr⟩ := hr
  rw [bind_eq_bind, bind_eq_some_iff] at hr
  obtain ⟨tx', htx', hr⟩ := hr
  rw [bind_eq_some_iff] at hr
  obtain ⟨⟨l₁, t⟩, hsend, hr⟩ := hr
  obtain ⟨hsame, hplain, hsource⟩ := sendEncrypted_same hsend
  obtain rfl := some.inj hr
  have hbytes := ((BitBuffer.holds_of_copyBytes htx).of_appendBytes htx').bytes
  refine ⟨⟨by rw [hsame.data], hsame.total, ?_, fun b cmd hl => absurd hl (by simp),
    fun b _ => by rw [hsame.data], ?_, inProgress_of_not (hsame.progress.trans hp)⟩,
    justified_of_none rfl⟩
  · intro t' ht' b hb
    obtain rfl := mem_singleton.mp ht'
    obtain rfl := some.inj (hsource.symm.trans hb)
    rw [hplain]
    exact hbytes ▸ ht _
  · intro hs
    have hcontext : l₁.authContext = l.authContext := hsame.context
    exact ⟨congrArg AuthContext.blockNum hcontext, congrArg AuthContext.keyType hcontext,
      hauth (hsame.state ▸ hs)⟩

def sectorsTotal : CardType → Byte
  | .mini => 5
  | .k1 => 16
  | .k4 => 40
  | .k2 => 32

theorem lt_total_iff (type : CardType) (b : Byte) :
    b.toNat < getTotalBlockNum type ↔ getSectorByBlock b < sectorsTotal type := by
  revert b
  cases type <;> exact forall_byte (by decide +kernel)

theorem within_of_sector (htotal : l.totalBlockNum = getTotalBlockNum l.data.type)
    (hauth : l.Authenticated) (hs : l.state = .authComplete) (hsector : l.inSector block = true) :
    l.Within block where
  state := hs
  sector := hsector
  card := by
    have hlt := hauth hs
    rw [htotal, lt_total_iff] at hlt ⊢
    rwa [beq_iff_eq.mp hsector]

theorem readBlock_outcome (htotal : l.totalBlockNum = getTotalBlockNum l.data.type)
    (hauth : l.Authenticated) (hp : l.cmdInProgress = false)
    (hr : l.readBlockHandler buff = some r) : Outcome l r ∧ Justified l r := by
  rw [readBlockHandler, bind_eq_bind, bind_eq_some_iff] at hr
  obtain ⟨block, -, hr⟩ := hr
  split at hr
  · obtain rfl := some.inj hr
    exact outcome_unchanged hauth (inProgress_of_not hp)
  case isFalse hgo =>
    rw [not_or, not_not, Bool.not_eq_false] at hgo
    have hwithin := within_of_sector htotal hauth hgo.1 hgo.2
    split at hr
    case isTrue htrailer =>
      refine sendBlock_outcome hr hauth hp fun crc => ?_
      -- the later masks leave the fields of the earlier ones alone
      refine ⟨hwithin, fun h => absurd h (by rw [htrailer]; simp), fun _ => ?_, fun _ => ?_,
        fun _ => ?_⟩
      · refine hides_of_part (by decide) fun ha => ?_
        rw [readable, part_mask_apart (.inl (by decide)), part_mask_apart (.inl (by decide)),
          part_mask (by decide) ha]
      · refine hides_of_part (by decide) fun ha => ?_
        rw [readable, part_mask_apart (.inr (by decide)), part_mask (by decide) ha]
      · exact hides_of_part (by decide) fun ha => part_mask (by decide) ha
    case isFalse htrailer =>
      split at hr
      case isTrue hread =>
        refine sendBlock_outcome hr hauth hp fun crc => ?_
        exact ⟨hwithin, fun _ => hread, fun h => absurd h htrailer, fun h => absurd h htrailer,
          fun h => absurd h htrailer⟩
      · obtain rfl := some.inj hr
        exact outcome_unchanged hauth (inProgress_of_not hp)

theorem writeBlockFirstPart_outcome
    (hh : handlerAt l.currentCmdIdx l.currentCmdHandlerIdx = some .writeBlockFirstPart)
    (hauth : l.Authenticated) (hp : l.cmdInProgress = false)
    (hr : l.writeBlockFirstPartHandler buff = some r) : Outcome l r ∧ Justified l r := by
  rw [writeBlockFirstPartHandler, bind_eq_bind, bind_eq_some_iff] at hr
  obtain ⟨block, -, hr⟩ := hr
  split at hr
  · obtain rfl := some.inj hr
    exact outcome_unchanged hauth (inProgress_of_not hp)
  case isFalse hgo =>
    rw [not_or, not_or, not_or, not_not, Bool.not_eq_false] at hgo
    obtain ⟨hs, hlt, hpos, hsector⟩ := hgo
    obtain rfl := some.inj hr
    refine ⟨outcome_of_data rfl rfl (by simp) (fun hs => ⟨rfl, rfl, hauth hs⟩) ?_,
      justified_of_none rfl⟩
    refine inProgress_nextHandler (k := { l with writeBlock := block }) hh rfl rfl rfl ?_
    exact ⟨⟨hs, hsector, Nat.lt_of_not_le hlt⟩, hpos⟩

theorem length_writeBytesMid {start size : Nat} {bytes : List Byte}
    (h : buff.writeBytesMid start size = some bytes) : bytes.length ≤ size := by
  rw [BitBuffer.writeBytesMid] at h
  split at h
  · cases h
  · obtain rfl := some.inj h
    exact length_take_le ..

theorem part_writeField {start size start' size' : Nat} {c c' : Block}
    (h : l.writeField block action buff start size c = some c')
    (hapart : start' + size' ≤ start ∨ start + size ≤ start') :
    c'.part start' size' = c.part start' size' := by
  rw [writeField] at h
  split at h
  · obtain ⟨bytes, hbytes, rfl⟩ := map_eq_some_iff.mp h
    have hlen := length_writeBytesMid hbytes
    exact Block.part_copyIn_apart (by omega)
  · rw [some.inj h]

theorem writeField_refused {start size : Nat} {c c' : Block}
    (h : l.writeField block action buff start size c = some c')
    (ha : ¬ l.allows block action = true) : c' = c := by
  rw [writeField, if_neg ha] at h
  exact (some.inj h).symm

theorem outcome_of_store {command : Command} {content : Block} (hauth : l.Authenticated)
    (hdata : l'.data = l.data.setBlock block content) (htotal : l'.totalBlockNum = l.totalBlockNum)
    (hcontext : l'.authContext = l.authContext) (hstate : l'.state = l.state)
    (hp : l'.cmdInProgress = false) :
    Outcome l { command := command, listener := l', written := some (block, action) } where
  identity := by rw [hdata]; rfl
  total := htotal
  sent := fun t ht => absurd ht not_mem_nil
  loaded := fun b cmd hl => absurd hl (by simp)
  frame := fun b hb => by
    have hne : b ≠ block := fun heq => hb action (by rw [heq])
    rw [hdata]
    exact Function.update_of_ne hne ..
  context := fun hs => by
    rw [hcontext]
    exact ⟨rfl, rfl, hauth (hstate ▸ hs)⟩
  progress := inProgress_of_not hp

theorem block_setBlock (d : Data) (num : Byte) (content : Block) :
    (d.setBlock num content).block num = content :=
  Function.update_self ..

theorem writeBlockSecondPart_outcome (haw : l.Awaits .writeBlockSecondPart)
    (hauth : l.Authenticated) (hr : l.writeBlockSecondPartHandler buff = some r) :
    Outcome l r ∧ Justified l r := by
  obtain ⟨hwithin, hpos⟩ := haw
  have hrefused : Outcome l { command := .nack, listener := { l with cmdInProgress := false } } :=
    outcome_of_data rfl rfl (by simp) (fun hs => ⟨rfl, rfl, hauth hs⟩) (inProgress_of_not rfl)
  have hstore : ∀ content, Outcome l
      (storeBlock { l with cmdInProgress := false } l.writeBlock content .dataWrite) :=
    fun content => outcome_of_store hauth rfl rfl rfl rfl rfl
  simp only [writeBlockSecondPartHandler, bind_eq_bind] at hr
  split at hr
  · obtain rfl := some.inj hr
    exact ⟨hrefused, justified_of_none rfl⟩
  · split at hr
    case isTrue htrailer =>
      split at hr
      · obtain rfl := some.inj hr
        exact ⟨hrefused, justified_of_none rfl⟩
      · simp only [bind_eq_some_iff] at hr
        obtain ⟨c₁, h₁, c₂, h₂, c₃, h₃, hr⟩ := hr
        obtain rfl := some.inj hr
        refine ⟨hstore c₃, fun b a hw => ?_⟩
        obtain ⟨rfl, rfl⟩ := Prod.mk.inj (some.inj hw)
        change l.Writes l.writeBlock .dataWrite ((l.data.setBlock l.writeBlock c₃).block _)
        rw [block_setBlock]
        refine ⟨hwithin, hpos, fun h => absurd h (by rw [htrailer]; simp), fun _ => ?_,
          fun _ => ?_, fun _ => ?_⟩
        · refine or_iff_not_imp_left.mpr fun ha => ?_
          rw [part_writeField h₃ (.inl (by decide)), part_writeField h₂ (.inl (by decide)),
            writeField_refused h₁ ha]
        · refine or_iff_not_imp_left.mpr fun ha => ?_
          rw [part_writeField h₃ (.inr (by decide)), writeField_refused h₂ ha,
            part_writeField h₁ (.inr (by decide))]
        · refine or_iff_not_imp_left.mpr fun ha => ?_
          rw [writeField_refused h₃ ha, part_writeField h₂ (.inl (by decide)),
            part_writeField h₁ (.inr (by decide))]
    case isFalse htrailer =>
      split at hr
      case isTrue hwrite =>
        rw [bind_eq_some_iff] at hr
        obtain ⟨bytes, -, hr⟩ := hr
        obtain rfl := some.inj hr
        refine ⟨hstore _, fun b a hw => ?_⟩
        obtain ⟨rfl, rfl⟩ := Prod.mk.inj (some.inj hw)
        exact ⟨hwithin, hpos, fun _ => hwrite, fun h => absurd h htrailer,
          fun h => absurd h htrailer, fun h => absurd h htrailer⟩
      · obtain rfl := some.inj hr
        exact ⟨hrefused, justified_of_none rfl⟩

theorem valueAccess_of_valueAction : ∀ cmdByte, ∀ x ∈ valueAction cmdByte, x.2 = valueAccess x.1 :=
  forall_byte (by decide +kernel)

theorem valueCmd_outcome (hh : handlerAt l.currentCmdIdx l.currentCmdHandlerIdx = some .valueCmd)
    (hauth : l.Authenticated) (hp : l.cmdInProgress = false)
    (hr : l.valueCmdHandler buff = some r) : Outcome l r ∧ Justified l r := by
  rw [valueCmdHandler, bind_eq_bind, bind_eq_some_iff] at hr
  obtain ⟨block, -, hr⟩ := hr
  split at hr
  · obtain rfl := some.inj hr
    exact outcome_unchanged hauth (inProgress_of_not hp)
  case isFalse hgo =>
    rw [not_or, not_or, not_not, Bool.not_eq_false] at hgo
    obtain ⟨hs, hlt, hsector⟩ := hgo
    rw [bind_eq_some_iff] at hr
    obtain ⟨cmdByte, -, hr⟩ := hr
    split at hr
    · obtain rfl := some.inj hr
      exact outcome_unchanged hauth (inProgress_of_not hp)
    case h_2 cmd action haction =>
      obtain rfl := some.inj hr
      rw [loadValue]
      split
      case isTrue hallowed =>
        split
        · refine ⟨⟨rfl, rfl, fun t ht => absurd ht not_mem_nil, ?_, fun _ _ => rfl,
            fun hs => ⟨rfl, rfl, hauth hs⟩, ?_⟩, justified_of_none rfl⟩
          · intro b cmd' hl
            obtain ⟨rfl, rfl⟩ := Prod.mk.inj (some.inj hl)
            refine ⟨⟨hs, hsector, Nat.lt_of_not_le hlt⟩, ?_⟩
            rw [← valueAccess_of_valueAction cmdByte (cmd, action) haction]
            exact hallowed
          · exact inProgress_nextHandler (k := { l with
              valueCmd := cmd
              transferValue := (blockToValue (l.data.block block)).2
              transferValid := true }) hh rfl rfl rfl hs
        · exact ⟨outcome_of_data rfl rfl (by simp) (fun hs => ⟨rfl, rfl, hauth hs⟩)
            (inProgress_of_not hp), justified_of_none rfl⟩
      · exact ⟨outcome_of_data rfl rfl (by simp) (fun hs => ⟨rfl, rfl, hauth hs⟩)
          (inProgress_of_not hp), justified_of_none rfl⟩

theorem valueDataReceive_outcome
    (hh : handlerAt l.currentCmdIdx l.currentCmdHandlerIdx = some .valueDataReceive)
    (hs : l.state = .authComplete) (hauth : l.Authenticated) (hp : l.InProgress)
    (hr : l.valueDataReceiveHandler buff = some r) : Outcome l r ∧ Justified l r := by
  rw [valueDataReceiveHandler] at hr
  split at hr
  · obtain rfl := some.inj hr
    exact outcome_unchanged hauth hp
  · rw [bind_eq_bind, bind_eq_some_iff] at hr
    obtain ⟨data, -, hr⟩ := hr
    obtain rfl := some.inj hr
    refine ⟨outcome_of_data rfl rfl (by simp) (fun hs => ⟨rfl, rfl, hauth hs⟩) ?_,
      justified_of_none rfl⟩
    exact inProgress_nextHandler (k := { l with
      transferValue := l.transferValue + operand l.valueCmd (Crypto1.bytesToNum data.reverse)
      transferValid := true }) hh rfl rfl rfl hs

/-- The block that a frame transfers the value to, where the frame is a transfer and the access
condition of the block permits it. -/
def transferTarget (l : Listener) (buff : BitBuffer) : Option Byte :=
  if buff.sizeBytes = 2 ∧ buff.getByte 0 = some 0xB0 then
    (buff.getByte 1).filter fun block => l.allows block .dataDec
  else none

theorem valueTransfer_outcome (hauth : l.Authenticated)
    (hr : l.valueTransferHandler buff = some r) :
    Outcome l r ∧ r.written = (l.transferTarget buff).map fun b => (b, .dataDec) := by
  have hrefused : Outcome l { command := .nack, listener := { l with cmdInProgress := false } } :=
    outcome_of_data rfl rfl (by simp) (fun hs => ⟨rfl, rfl, hauth hs⟩) (inProgress_of_not rfl)
  simp only [valueTransferHandler, bind_eq_bind] at hr
  rw [transferTarget]
  split at hr
  case isTrue hsize =>
    obtain rfl := some.inj hr
    rw [if_neg fun h => hsize h.1]
    exact ⟨hrefused, rfl⟩
  case isFalse hsize =>
    simp only [bind_eq_some_iff] at hr
    obtain ⟨cmd, hcmd, block, hblock, hr⟩ := hr
    rw [not_not] at hsize
    split at hr
    case isTrue htransfer =>
      obtain rfl := some.inj hr
      refine ⟨outcome_of_store hauth rfl rfl rfl rfl rfl, ?_⟩
      rw [if_pos ⟨hsize, by rw [hcmd, htransfer.1]⟩, hblock, filter_some,
        if_pos (show l.allows block .dataDec = true from htransfer.2)]
      rfl
    case isFalse htransfer =>
      obtain rfl := some.inj hr
      refine ⟨hrefused, ?_⟩
      by_cases hbyte : cmd = 0xB0
      · rw [if_pos ⟨hsize, by rw [hcmd, hbyte]⟩, hblock, filter_some,
          if_neg (show ¬ l.allows block .dataDec = true from fun ha => htransfer ⟨hbyte, ha⟩)]
        rfl
      · rw [if_neg fun h => hbyte (some.inj (hcmd.symm.trans h.2))]
        rfl

end Listener

end NikitaFirmware.MfClassic
