import NikitaFirmware.Type4Tag.Poller
import NikitaFirmware.Type4Tag.Refinement

/-!
# The emulated tag as a card

The listener answers what the poller sends: every command of the poller selects, reads or updates a
file of the tag, or it is refused.
-/

namespace NikitaFirmware.Type4Tag
open Nfc Foundations Listener List Type4TagPoller PrefixedFile

/-- What carries APDUs to the listener: the layer below, and the buffer into which it receives them. -/
structure Channel where
  layer : Layer
  receive : List Byte → Received
  bytes_receive : ∀ apdu, apdu.length ≤ 256 → (receive apdu).bytes = apdu

namespace Channel

variable (c : Channel)

/-- The listener answers an APDU. One whose check has failed does not. -/
def card : Card Listener := fun l apdu =>
  match l.handleApdu c.layer (c.receive apdu) with
  | none => (.error .timeout, l)
  | some o => (match o.answer with | some bytes => .ok bytes | none => .error .timeout, o.listener)

variable {c} {l l' : Listener} {a : Apdu} {apdu bs cs f : List Byte} {o n : Nat}
  {p : Type4TagPoller Listener}

def Turned (l : Listener) (answer : Except Error4a (List Byte) × Listener) : Prop :=
  answer.2 = l ∧ (answer.1 = .error .timeout ∨ ∃ status ∈ errorAnswers, answer.1 = .ok status)

theorem card_cases (hcarries : (c.receive apdu).Carries a) (hreg : RegularApdu l a) :
    (∃ l' bs, Effect l a l' bs ∧ c.card l apdu = (.ok bs, l')) ∨
      ((∀ l' bs, ¬ Effect l a l' bs) ∧ Turned l (c.card l apdu)) := by
  have hapdu := Received.carries_iff.mp hcarries
  have hregular : ∀ b, (c.receive apdu).apdu = some b → RegularApdu l b := by
    intro b hb
    obtain rfl := Option.some.inj (hapdu.symm.trans hb)
    exact hreg
  obtain ⟨o, ho, hdone⟩ := handleApdu_refined c.layer hregular
  rcases hdone with ⟨b, bs, hb, heff, hanswer⟩ | hrefused
  · obtain rfl := Option.some.inj (hapdu.symm.trans (Received.carries_iff.mp hb))
    refine .inl ⟨o.listener, bs, heff, ?_⟩
    rw [card, ho]
    dsimp only
    rw [hanswer]
  · refine .inr ⟨hrefused.reason a hcarries, ?_⟩
    rw [card, ho]
    refine ⟨hrefused.listener, ?_⟩
    rcases hrefused.answer with hanswer | ⟨status, hmem, hanswer⟩
    · dsimp only
      rw [hanswer]
      exact .inl rfl
    · dsimp only
      rw [hanswer]
      exact .inr ⟨status, hmem, rfl⟩

theorem errorAnswers_not_success :
    ∀ status ∈ errorAnswers, status.drop (status.length - 2) ≠ statusSuccess := by decide

theorem apduTrx_turned (h : Turned p.card (c.card p.card apdu)) :
    ∃ e p', p.apduTrx c.card apdu = (.error e, p') ∧ p'.data = p.data ∧ p'.card = p.card := by
  obtain ⟨hl, hanswer⟩ := h
  rw [apduTrx]
  rcases hanswer with hanswer | ⟨status, hmem, hanswer⟩
  · rw [hanswer]
    exact ⟨.timeout, _, rfl, rfl, hl⟩
  · have hlen := length_errorAnswers status hmem
    rw [hanswer]
    dsimp only
    rw [if_neg (by omega), if_neg (errorAnswers_not_success status hmem)]
    exact ⟨.apduFailed, _, rfl, rfl, hl⟩

theorem apduTrx_effect (hcarries : (c.receive apdu).Carries a) (hreg : RegularApdu p.card a)
    (heff : Effect p.card a l' (cs ++ statusSuccess)) :
    p.apduTrx c.card apdu = (.ok cs, { p with card := l', sent := p.sent ++ [apdu] }) := by
  rcases card_cases hcarries hreg with ⟨l'', bs, heff', hcard⟩ | ⟨hno, -⟩
  · obtain ⟨rfl, rfl⟩ := heff.unique heff'
    exact apduTrx_ok c.card hcard
  · exact absurd heff (hno _ _)

theorem apduTrx_refused (hcarries : (c.receive apdu).Carries a) (hreg : RegularApdu p.card a)
    (hno : ∀ l' bs, ¬ Effect p.card a l' bs) :
    ∃ e p', p.apduTrx c.card apdu = (.error e, p') ∧ p'.data = p.data ∧ p'.card = p.card := by
  rcases card_cases hcarries hreg with ⟨l', bs, heff, -⟩ | ⟨-, hturned⟩
  · exact absurd heff (hno _ _)
  · exact apduTrx_turned hturned

theorem select_carries (p1 : Byte) (name : List Byte) (hne : name ≠ []) (hlen : name.length ≤ 250) :
    (c.receive ([0x00, 0xA4, p1, 0x0C, UInt8.ofNat name.length] ++ name)).Carries
      ⟨[0x00, 0xA4], p1, 0x0C, name, 0⟩ where
  header := by
    have hpos := length_pos_of_ne_nil hne
    have hlc : (UInt8.ofNat name.length).toNat = name.length := by
      rw [UInt8.toNat_ofNat']
      omega
    refine ⟨UInt8.ofNat name.length :: name, ?_, .shortLc _ _ (fun h => ?_) hlc.symm⟩
    · rw [c.bytes_receive _ (by rw [length_append]; change 5 + name.length ≤ 256; omega)]
      rfl
    · rw [h] at hlc
      change 0 = name.length at hlc
      omega
  length_claIns := rfl

theorem select_regular (p1 : Byte) (name : List Byte) :
    RegularApdu l ⟨[0x00, 0xA4], p1, 0x0C, name, 0⟩ where
  read := fun h => absurd h (show ([0x00, 0xA4] : List Byte) ≠ [0x00, 0xB0] by decide)
  update := fun h => absurd h (show ([0x00, 0xA4] : List Byte) ≠ [0x00, 0xD6] by decide)

theorem apduTrx_select (p1 : Byte) {name : List Byte} {s : State} (hne : name ≠ [])
    (hlen : name.length ≤ 250) (hs : Selects p.card ⟨[0x00, 0xA4], p1, 0x0C, name, 0⟩ s) :
    ∃ p', p.apduTrx c.card ([0x00, 0xA4, p1, 0x0C, UInt8.ofNat name.length] ++ name) = (.ok [], p') ∧
      p'.data = p.data ∧ p'.card = { p.card with state := s } :=
  ⟨_, apduTrx_effect (select_carries p1 name hne hlen) (select_regular p1 name)
    (.select rfl hs), rfl, rfl⟩

/-- The session has succeeded, with this result, and has left this data and this listener. -/
def Done {α : Type} (session : Type4TagPoller.Session Listener α) (p : Type4TagPoller Listener)
    (result : α) (d : Data) (l : Listener) : Prop :=
  ∃ p', session p = some (.ok result, p') ∧ p'.data = d ∧ p'.card = l

def Fails {α : Type} (session : Type4TagPoller.Session Listener α) (p : Type4TagPoller Listener) :
    Prop :=
  ∃ e p', session p = some (.error e, p')

theorem selectApp_done :
    Done (selectApp c.card) p () p.data { p.card with state := .selectedApplication } := by
  obtain ⟨p', htrx, hdata, hcard⟩ := @apduTrx_select c p 0x04 dfName .selectedApplication
    (by decide) (by decide) (.dfName rfl rfl)
  refine ⟨p', ?_, hdata, hcard⟩
  rw [selectApp, isoSelectName, htrx]
  rfl

theorem selectFile_done {fileId : Nat} {s : State}
    (hs : Selects p.card ⟨[0x00, 0xA4], 0x02, 0x0C, numToBytesBe fileId, 0⟩ s) :
    Done (isoSelectFile c.card fileId) p () p.data { p.card with state := s } := by
  obtain ⟨p', htrx, hdata, hcard⟩ := @apduTrx_select c p 0x02 (numToBytesBe fileId) s
    (cons_ne_nil _ _) (show 2 ≤ 250 by decide) hs
  refine ⟨p', ?_, hdata, hcard⟩
  rw [isoSelectFile]
  change some (Except.map _ (failedAs _
    (p.apduTrx c.card ([0x00, 0xA4, 0x02, 0x0C, UInt8.ofNat (numToBytesBe fileId).length] ++
      numToBytesBe fileId)).1), _) = _
  rw [htrx]
  exact congrArg (fun q => some (Except.ok (), q)) (congrArg Prod.snd htrx)

theorem selectCc_done (happ : p.card.state.inApplication = true) :
    Done (isoSelectFile c.card 0xE103) p () p.data
      { p.card with state := .selectedCapabilityContainer } :=
  selectFile_done (.capabilityContainer (.inr rfl) happ (by decide))

theorem selectNdef_done (happ : p.card.state.inApplication = true)
    (hfile : p.card.data.fileId < 65536) (hne : p.card.data.fileId ≠ 0xE103) :
    Done (isoSelectFile c.card p.card.data.fileId) p () p.data
      { p.card with state := .selectedNdefMessage } := by
  have hcc : numToBytesBe p.card.data.fileId ≠ [0xE1, 0x03] := by
    intro h
    have heq : numToBytesBe p.card.data.fileId = numToBytesBe 0xE103 := h
    have hnum := congrArg bytesToNumBe heq
    rw [bytesToNumBe_numToBytesBe hfile, bytesToNumBe_numToBytesBe (by decide)] at hnum
    exact hne hnum
  exact selectFile_done (.ndefMessage (.inr rfl) happ rfl hcc fun h =>
    absurd h (show (0x02 : Byte) ≠ 0x00 by decide))

theorem offset_of_bytes {hi lo : Byte} {claIns data : List Byte} {le : Nat} :
    (⟨claIns, hi, lo, data, le⟩ : Apdu).offset = bytesToNumBe [hi, lo] := by
  rw [bytesToNumBe_pair, Apdu.offset, Nat.shiftLeft_eq]

theorem and_high_eq_zero (b : Byte) : b &&& 0x80 = 0 ↔ b.toNat < 128 := by
  revert b
  exact forall_byte (by decide +kernel)

theorem address {o : Nat} (ho : o < 65536) :
    ∃ hi lo, numToBytesBe o = [hi, lo] ∧ bytesToNumBe [hi, lo] = o ∧
      (hi &&& 0x80 = 0 ↔ o < 32768) := by
  obtain ⟨hi, lo, hbytes, hnum⟩ := numToBytesBe_eq ho
  refine ⟨hi, lo, hbytes, hnum, ?_⟩
  have hlo := lo.toNat_lt
  rw [bytesToNumBe_pair] at hnum
  rw [and_high_eq_zero]
  omega

theorem read_carries {hi lo : Byte} (hbytes : numToBytesBe o = [hi, lo]) (hn : n ≤ 246) :
    (c.receive (readApdu o n)).Carries ⟨[0x00, 0xB0], hi, lo, [], Received.leOr n 256⟩ where
  header := by
    refine ⟨[UInt8.ofNat n], ?_, ?_⟩
    · have hlen : (readApdu o n).length ≤ 256 := show 5 ≤ 256 by decide
      rw [c.bytes_receive _ hlen, readApdu, hbytes]
      rfl
    · have hle := Body.shortLe (UInt8.ofNat n)
      rwa [toNat_chunk hn] at hle
  length_claIns := rfl

theorem apduTrx_read (hfile : p.card.file = some f) (hpos : 0 < n) (hn : n ≤ 246) (ho : o < 32768)
    (hlt : o < f.length) :
    ∃ p', p.apduTrx c.card (readApdu o n) = (.ok ((f.drop o).take n), p') ∧ p'.data = p.data ∧
      p'.card = p.card := by
  obtain ⟨hi, lo, hbytes, hnum, hhigh⟩ := address (show o < 65536 by omega)
  have hle : Received.leOr n 256 = n := leOr_pos hpos
  have hoffset : (⟨[0x00, 0xB0], hi, lo, [], n⟩ : Apdu).offset = o := offset_of_bytes.trans hnum
  have hcarries := @read_carries c o n hi lo hbytes hn
  rw [hle] at hcarries
  have hreg : RegularApdu p.card ⟨[0x00, 0xB0], hi, lo, [], n⟩ :=
    ⟨fun _ _ _ _ => (show min n _ + 2 ≤ 251 by omega),
      fun h => absurd h (show ([0x00, 0xB0] : List Byte) ≠ [0x00, 0xD6] by decide)⟩
  have heff := Effect.read (l := p.card) (a := ⟨[0x00, 0xB0], hi, lo, [], n⟩) rfl (hhigh.mpr ho) hfile
    (hoffset ▸ hlt)
  rw [hoffset] at heff
  exact ⟨_, apduTrx_effect hcarries hreg heff, rfl, rfl⟩

theorem apduTrx_read_refused (hn : n ≤ 246) (ho : 32768 ≤ o) (ho' : o < 65536) :
    ∃ e p', p.apduTrx c.card (readApdu o n) = (.error e, p') ∧ p'.data = p.data ∧
      p'.card = p.card := by
  obtain ⟨hi, lo, hbytes, hnum, hhigh⟩ := address ho'
  have hne : ¬ hi &&& 0x80 = 0 := fun h => absurd (hhigh.mp h) (by omega)
  refine apduTrx_refused (read_carries hbytes hn) ⟨fun _ h => absurd h hne, fun _ h => absurd h hne⟩
    fun l' bs heff => ?_
  exact hne (heff.of_read rfl).1

theorem apduTrx_read_none (hfile : p.card.file = some f) (hne : f ≠ []) :
    ∀ p', p.apduTrx c.card (readApdu 0 0) ≠ (.ok [], p') := by
  intro p' htrx
  have hcarries := @read_carries c 0 0 0 0 rfl (by decide)
  have hlt : 0 < f.length := length_pos_of_ne_nil hne
  have hoffset : (⟨[0x00, 0xB0], 0, 0, [], 256⟩ : Apdu).offset = 0 := rfl
  by_cases hreg : RegularApdu p.card ⟨[0x00, 0xB0], 0, 0, [], 256⟩
  · -- what is read begins with the first byte
    have heff := Effect.read (l := p.card) (a := ⟨[0x00, 0xB0], 0, 0, [], 256⟩) rfl rfl hfile hlt
    rw [apduTrx_effect hcarries hreg heff] at htrx
    have hnil := congrArg List.length (Except.ok.inj (congrArg Prod.fst htrx))
    rw [hoffset, drop_zero, length_take, length_nil] at hnil
    change min 256 f.length = 0 at hnil
    omega
  · -- the answer does not fit, and there is none
    have hlong : p.card.state = .selectedNdefMessage ∧
        bufSize < min 256 (2 + p.card.data.ndefData.length - 0) + 2 := by
      by_contra hnot
      refine hreg ⟨fun _ _ hstate _ => ?_,
        fun h => absurd h (show ([0x00, 0xB0] : List Byte) ≠ [0x00, 0xD6] by decide)⟩
      exact Nat.le_of_not_lt fun h => hnot ⟨hstate, h⟩
    have hnone : p.card.handleApdu c.layer (c.receive (readApdu 0 0)) = none :=
      handleApdu_eq_none (Received.carries_iff.mp hcarries) rfl rfl hlong.1
        (show 0 < 2 + _ by omega) hlong.2
    have hcard : c.card p.card (readApdu 0 0) = (.error .timeout, p.card) := by
      rw [card, hnone]
    rw [apduTrx, hcard] at htrx
    exact absurd (congrArg Prod.fst htrx) (by rintro ⟨⟩)

section Update
variable {d : List Byte}

theorem write_carries {hi lo : Byte} (hbytes : numToBytesBe o = [hi, lo]) (hlen : d.length ≤ 246) :
    (c.receive (writeApdu o d)).Carries ⟨[0x00, 0xD6], hi, lo, d, if d = [] then 256 else 0⟩ where
  header := by
    have hlc := toNat_chunk hlen
    have hlength : (writeApdu o d).length ≤ 256 := by
      rw [writeApdu, length_append]
      change 5 + d.length ≤ 256
      omega
    refine ⟨UInt8.ofNat d.length :: d, ?_, ?_⟩
    · rw [c.bytes_receive _ hlength, writeApdu, hbytes]
      rfl
    · by_cases hd : d = []
      · subst hd
        exact .shortLe 0
      · have hpos := length_pos_of_ne_nil hd
        dsimp only
        rw [if_neg hd]
        refine .shortLc _ _ (fun h => ?_) hlc.symm
        rw [h] at hlc
        change 0 = d.length at hlc
        omega
  length_claIns := rfl

theorem write_regular {hi lo : Byte} {le : Nat} (hnum : bytesToNumBe [hi, lo] = o)
    (hheader : o < 2 → o + d.length ≤ 2) : RegularApdu l ⟨[0x00, 0xD6], hi, lo, d, le⟩ where
  read := fun h => absurd h (show ([0x00, 0xD6] : List Byte) ≠ [0x00, 0xB0] by decide)
  update := by
    intro _ _ _ ho _
    have hoffset : (⟨[0x00, 0xD6], hi, lo, d, le⟩ : Apdu).offset = o := offset_of_bytes.trans hnum
    have hend := hheader (hoffset ▸ ho)
    rw [hoffset]
    change o + d.length - 2 ≤ _
    omega

theorem apduTrx_write (hstate : p.card.state = .selectedNdefMessage) (hd : d ≠ [])
    (hlen : d.length ≤ 246) (ho : o < 32768) (hheader : o < 2 → o + d.length ≤ 2)
    (hmax : newLength p.card.data.ndefData o d ≤ p.card.data.maxLen) :
    ∃ p', p.apduTrx c.card (writeApdu o d) = (.ok [], p') ∧ p'.data = p.data ∧
      p'.card = { p.card with data := { p.card.data with
        ndefData := write p.card.data.ndefData o d } } := by
  obtain ⟨hi, lo, hbytes, hnum, hhigh⟩ := address (show o < 65536 by omega)
  have hcarries := @write_carries c o d hi lo hbytes hlen
  have hoffset : (⟨[0x00, 0xD6], hi, lo, d, if d = [] then 256 else 0⟩ : Apdu).offset = o :=
    offset_of_bytes.trans hnum
  have hupdates : PrefixedFile.Updates p.card.data.ndefData o d (write p.card.data.ndefData o d) :=
    updates_write hd fun ho2 => by
      have := hheader ho2
      omega
  have heff := @Effect.update p.card ⟨[0x00, 0xD6], hi, lo, d, if d = [] then 256 else 0⟩
    (write p.card.data.ndefData o d) rfl (hhigh.mpr ho) hstate hd
    (by rw [hoffset]; exact hupdates) (by rw [length_write]; exact hmax)
  exact ⟨_, apduTrx_effect hcarries (write_regular hnum hheader) heff, rfl, rfl⟩

theorem apduTrx_write_refused (hlen : d.length ≤ 246) (ho : o < 65536)
    (hheader : o < 2 → o + d.length ≤ 2)
    (h : d = [] ∨ 32768 ≤ o ∨ p.card.state ≠ .selectedNdefMessage ∨
      p.card.data.maxLen < newLength p.card.data.ndefData o d) :
    ∃ e p', p.apduTrx c.card (writeApdu o d) = (.error e, p') ∧ p'.data = p.data ∧
      p'.card = p.card := by
  obtain ⟨hi, lo, hbytes, hnum, hhigh⟩ := address ho
  have hoffset : (⟨[0x00, 0xD6], hi, lo, d, if d = [] then 256 else 0⟩ : Apdu).offset = o :=
    offset_of_bytes.trans hnum
  refine apduTrx_refused (write_carries hbytes hlen) (write_regular hnum hheader) fun l' bs heff => ?_
  obtain ⟨hp1, hstate, hd, hmax, -⟩ := heff.of_update rfl
  have hlow := hhigh.mp hp1
  rw [hoffset] at hmax
  rcases h with h | h | h | h
  · exact hd h
  · omega
  · exact h hstate
  · exact absurd hmax (Nat.not_le.mpr h)

end Update

end Channel

end NikitaFirmware.Type4Tag
