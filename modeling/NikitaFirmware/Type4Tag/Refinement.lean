import NikitaFirmware.Foundations.Machine
import NikitaFirmware.Foundations.PrefixedFile
import NikitaFirmware.Type4Tag.Apdu

/-!
# The emulated tag as files

The NDEF file of a tag is its payload behind a length of two bytes. An APDU that meets `Regular`
selects, reads or updates a file as a whole, or it is refused for a reason and leaves the tag as it
is; an APDU that does not meet it breaks this.
-/

namespace NikitaFirmware.Type4Tag
open Nfc Foundations List Option PrefixedFile

namespace Listener

def file (l : Listener) : Option (List Byte) :=
  match l.state with
  | .selectedCapabilityContainer => some l.data.ccDump
  | .selectedNdefMessage => some (image l.data.ndefData)
  | .idle | .selectedPicc | .selectedApplication => none

/-- What a SELECT names. The files of the application are there once it is selected, and where two
names are the same the first one counts. -/
inductive Selects (l : Listener) (a : Apdu) : State → Prop
  | mfName (hp1 : a.p1 = 0x04) (h : a.data = mfName) : Selects l a .selectedPicc
  | dfName (hp1 : a.p1 = 0x04) (h : a.data = dfName) : Selects l a .selectedApplication
  | mf (hp1 : a.p1 = 0x00) (h : a.data = [0x3F, 0x00]) : Selects l a .selectedPicc
  | df (hp1 : a.p1 = 0x00) (h : a.data = [0xE1, 0x10]) : Selects l a .selectedApplication
  | capabilityContainer (hp1 : a.p1 = 0x00 ∨ a.p1 = 0x02) (happ : l.state.inApplication = true)
      (h : a.data = [0xE1, 0x03]) : Selects l a .selectedCapabilityContainer
  | ndefMessage (hp1 : a.p1 = 0x00 ∨ a.p1 = 0x02) (happ : l.state.inApplication = true)
      (h : a.data = numToBytesBe l.data.fileId) (hcc : a.data ≠ [0xE1, 0x03])
      (hnames : a.p1 = 0x00 → a.data ≠ [0x3F, 0x00] ∧ a.data ≠ [0xE1, 0x10]) :
      Selects l a .selectedNdefMessage

/-- What an APDU does to the tag, and its answer. -/
inductive Effect (l : Listener) (a : Apdu) : Listener → List Byte → Prop
  | select {s : State} (hins : a.claIns = [0x00, 0xA4]) (h : Selects l a s) :
      Effect l a { l with state := s } statusSuccess
  | read {file : List Byte} (hins : a.claIns = [0x00, 0xB0]) (hp1 : a.p1 &&& 0x80 = 0)
      (hfile : l.file = some file) (hlt : a.offset < file.length) :
      Effect l a l ((file.drop a.offset).take a.le ++ statusSuccess)
  | update {payload : List Byte} (hins : a.claIns = [0x00, 0xD6]) (hp1 : a.p1 &&& 0x80 = 0)
      (hstate : l.state = .selectedNdefMessage) (hdata : a.data ≠ [])
      (h : PrefixedFile.Updates l.data.ndefData a.offset a.data payload)
      (hmax : payload.length ≤ l.data.maxLen) :
      Effect l a { l with data := { l.data with ndefData := payload } } statusSuccess

def errorAnswers : List (List Byte) :=
  [statusOffsetErr, statusNotFound, statusNoSupport, statusBadParams, statusNoCmd]

/-- The APDU that has been received has its effect. -/
def Carried (l : Listener) (r : Received) (o : Outcome) : Prop :=
  ∃ a bs, r.Carries a ∧ Effect l a o.listener bs ∧ o.answer = some bs

/-- There is no such effect: there is no answer or that of an error, and the tag stays as it
is. -/
structure Refused (l : Listener) (r : Received) (o : Outcome) : Prop where
  reason : ∀ a, r.Carries a → ∀ l' bs, ¬ Effect l a l' bs
  answer : o.answer = none ∨ ∃ status ∈ errorAnswers, o.answer = some status
  listener : o.listener = l

/-- The listener does to an APDU what the files of the tag do. -/
def Refined (l : Listener) : Event → Prop
  | .fieldOff | .halted => True
  | .receivedData layer r =>
    ∃ o, l.handleApdu layer r = some o ∧ (Carried l r o ∨ Refused l r o)

/-- The condition: an answer to a READ fits into the buffer with its status, and an UPDATE that
begins in the length writes one that reaches to the end of what it writes behind it. -/
structure RegularApdu (l : Listener) (a : Apdu) : Prop where
  read : a.claIns = [0x00, 0xB0] → a.p1 &&& 0x80 = 0 → l.state = .selectedNdefMessage →
    a.offset < 2 + l.data.ndefData.length →
      min a.le (2 + l.data.ndefData.length - a.offset) + 2 ≤ bufSize
  update : a.claIns = [0x00, 0xD6] → a.p1 &&& 0x80 = 0 → l.state = .selectedNdefMessage →
    a.offset < 2 → ndefFileLenNew l.data.ndefData.length a.offset a.data ≤ l.data.maxLen →
      a.offset + a.lc - 2 ≤ mergedLen l.data.ndefData.length a.offset a.data

/-- The APDU, if it is one, meets the condition. -/
def Regular (l : Listener) : Event → Prop
  | .fieldOff | .halted => True
  | .receivedData _ r => ∀ a, r.apdu = some a → RegularApdu l a

variable {l l' : Listener} {a : Apdu} {h : Handled} {tx : BitBuffer} {bs cs p d : List Byte}
  {o n : Nat} {r : Received} {layer : Layer}

theorem numToBytesBe_eq (n : Nat) : numToBytesBe n = beBytes n := by
  rw [numToBytesBe, beBytes, Nat.shiftRight_eq_div_pow]

theorem take_writeLen (o : Nat) (d : List Byte) (ho : o < 2) :
    d.take (writeLen o d.length) = d.take (2 - o) := by
  rw [writeLen, if_pos ho]
  exact take_eq_take_min.symm

theorem drop_writeLen (o : Nat) (d : List Byte) : d.drop (writeLen o d.length) = d.drop (2 - o) := by
  rw [writeLen]
  split
  · rcases Nat.le_total (2 - o) d.length with h | h
    · rw [Nat.min_eq_left h]
    · rw [Nat.min_eq_right h, drop_length, drop_eq_nil_of_le h]
  · rw [show 2 - o = 0 by omega]

theorem mergedLen_eq : mergedLen p.length o d = writtenLength p o d := by
  rw [mergedLen, writtenLength]
  split
  case isFalse => rfl
  case isTrue ho =>
    have hdrop : (beBytes p.length).drop (o + (d.take (2 - o)).length) =
        (beBytes p.length).drop (o + d.length) := by
      rw [length_take]
      rcases Nat.le_total (2 - o) d.length with h | h
      · rw [Nat.min_eq_left h, drop_eq_nil_of_le (by change 2 ≤ _; omega),
          drop_eq_nil_of_le (by change 2 ≤ _; omega)]
      · rw [Nat.min_eq_right h]
    rw [take_writeLen o d ho, memcpy, numToBytesBe_eq, hdrop]
    rfl

theorem ndefFileLenNew_eq : ndefFileLenNew p.length o d = newLength p o d := by
  rw [ndefFileLenNew, mergedLen_eq, newLength]
  congr 1
  rw [writeLen]
  split <;> omega

theorem resizeNdefData_eq : resizeNdefData p n = some (resize n p) := by
  rw [resizeNdefData, resize]
  split
  case isTrue heq => rw [heq, Nat.sub_self, take_length, replicate_zero, append_nil]
  split
  case isTrue hzero => rw [hzero, take_zero, Nat.zero_sub]; rfl
  split
  case isTrue hnil => rw [eq_nil_of_length_eq_zero hnil, take_nil]; rfl
  case isFalse hne hpos hlen =>
    have hp : p ≠ [] := fun h => hlen (h ▸ rfl)
    rw [getData, if_neg hp, map_some, memcpy, take_zero, nil_append,
      Nat.zero_add, length_take, drop_replicate, ← take_eq_take_min]
    congr 3
    omega

theorem storeNdefData_eq : storeNdefData (resize (newLength p o d) p)
    (o - 2) (d.drop (writeLen o d.length)) = some (write p o d) := by
  have hend := end_le_newLength p o d
  rw [drop_writeLen, storeNdefData, length_resize, write]
  split
  · rw [if_neg (by omega)]
    rfl
  case isFalse hnot =>
    have hnil : d.drop (2 - o) = [] := eq_nil_of_length_eq_zero (by omega)
    rw [hnil]
    simp

/-- What a handler leaves behind: the effect of the APDU, or an error and its reason. -/
inductive Done (l : Listener) (a : Apdu) : Handled → Prop
  | effect {l' : Listener} {tx : BitBuffer} {bs : List Byte} (heff : Effect l a l' bs)
      (holds : tx.Holds bufSize bs) (hne : bs ≠ []) : Done l a ⟨none, l', tx⟩
  | refused {e : Error} {tx : BitBuffer} {status : List Byte} (hno : ∀ l' bs, ¬ Effect l a l' bs)
      (hstatus : status ∈ errorAnswers) (holds : tx.Holds bufSize status) : Done l a ⟨some e, l, tx⟩

theorem length_errorAnswers : ∀ status ∈ errorAnswers, status.length = 2 := by decide

theorem answer_refused {e : Error} {status : List Byte} (htx : tx.Holds bufSize [])
    (hno : ∀ l' bs, ¬ Effect l a l' bs) (hstatus : status ∈ errorAnswers) :
    ∃ h, l.answer (some e) status tx = some h ∧ Done l a h := by
  have hlen := length_errorAnswers status hstatus
  obtain ⟨tx', happ, hholds⟩ := htx.appendBytes status (by
    rw [hlen]
    show 2 ≤ 251
    decide)
  refine ⟨⟨some e, l, tx'⟩, ?_, .refused hno hstatus hholds⟩
  rw [answer, happ]
  rfl

theorem success_effect (htx : tx.Holds bufSize cs) (hroom : cs.length + 2 ≤ bufSize)
    (heff : Effect l a l' (cs ++ statusSuccess)) :
    ∃ h, l'.success tx = some h ∧ Done l a h := by
  obtain ⟨tx', happ, hholds⟩ := htx.appendBytes statusSuccess hroom
  refine ⟨⟨none, l', tx'⟩, ?_, .effect heff hholds ?_⟩
  · rw [success, answer, happ]
    rfl
  · exact append_ne_nil_of_right_ne_nil _ (by decide)

theorem Selects.unique {s s' : State} (h : Selects l a s) (h' : Selects l a s') : s' = s := by
  have hne : Type4Tag.mfName ≠ Type4Tag.dfName := by decide
  have hne' := hne.symm
  cases h <;> cases h' <;> simp_all

/-- An APDU has one effect at most. -/
theorem Effect.unique {l' l'' : Listener} {bs bs' : List Byte} (h : Effect l a l' bs)
    (h' : Effect l a l'' bs') : l'' = l' ∧ bs' = bs := by
  cases h with
  | select hins hs =>
    cases h' with
    | select _ hs' => exact ⟨by rw [hs.unique hs'], rfl⟩
    | read hins' => cases hins.symm.trans hins'
    | update hins' => cases hins.symm.trans hins'
  | read hins _ hfile =>
    cases h' with
    | select hins' => cases hins.symm.trans hins'
    | read _ _ hfile' =>
      cases hfile.symm.trans hfile'
      exact ⟨rfl, rfl⟩
    | update hins' => cases hins.symm.trans hins'
  | update hins _ _ _ hp =>
    cases h' with
    | select hins' => cases hins.symm.trans hins'
    | read hins' => cases hins.symm.trans hins'
    | update _ _ _ _ hp' => exact ⟨by rw [hp.eq_write, hp'.eq_write], rfl⟩

theorem Effect.of_select (h : Effect l a l' bs) (hins : a.claIns = [0x00, 0xA4]) :
    ∃ s, Selects l a s := by
  cases h with
  | @select s _ h => exact ⟨s, h⟩
  | read hins' => cases hins.symm.trans hins'
  | update hins' => cases hins.symm.trans hins'

theorem Effect.of_read (h : Effect l a l' bs) (hins : a.claIns = [0x00, 0xB0]) :
    a.p1 &&& 0x80 = 0 ∧ ∃ file, l.file = some file ∧ a.offset < file.length := by
  cases h with
  | select hins' => cases hins.symm.trans hins'
  | @read file _ hp1 hfile hlt => exact ⟨hp1, file, hfile, hlt⟩
  | update hins' => cases hins.symm.trans hins'

theorem Effect.of_update (h : Effect l a l' bs) (hins : a.claIns = [0x00, 0xD6]) :
    a.p1 &&& 0x80 = 0 ∧ l.state = .selectedNdefMessage ∧ a.data ≠ [] ∧
      newLength l.data.ndefData a.offset a.data ≤ l.data.maxLen ∧
      ∃ payload, PrefixedFile.Updates l.data.ndefData a.offset a.data payload := by
  cases h with
  | select hins' => cases hins.symm.trans hins'
  | read hins' => cases hins.symm.trans hins'
  | @update payload _ hp1 hstate hdata h hmax =>
    exact ⟨hp1, hstate, hdata, h.length ▸ hmax, payload, h⟩

theorem select_done {s : State} (hins : a.claIns = [0x00, 0xA4]) (htx : tx.Holds bufSize [])
    (h : Selects l a s) : ∃ h, l.select s tx = some h ∧ Done l a h :=
  success_effect htx (show 2 ≤ 251 by decide) (.select hins h)

theorem notFound_done (hins : a.claIns = [0x00, 0xA4]) (htx : tx.Holds bufSize [])
    (h : ∀ s, ¬ Selects l a s) : ∃ h, l.notFound tx = some h ∧ Done l a h := by
  refine answer_refused htx (fun l' bs heff => ?_) (by decide)
  obtain ⟨s, hs⟩ := heff.of_select hins
  exact h s hs

theorem isoSelect_done (hins : a.claIns = [0x00, 0xA4]) (htx : tx.Holds bufSize []) :
    ∃ h, l.isoSelect a tx = some h ∧ Done l a h := by
  rw [isoSelect]
  split
  case isTrue hname =>
    obtain ⟨hp1, hlc⟩ := hname
    rw [take_of_length_le (Nat.le_of_eq hlc)]
    split
    case isTrue hmf => exact select_done hins htx (.mfName hp1 hmf.symm)
    split
    case isTrue hdf => exact select_done hins htx (.dfName hp1 hdf.symm)
    case isFalse hmf hdf =>
      refine notFound_done hins htx fun s hs => ?_
      cases hs with
      | mfName _ h => exact hmf h.symm
      | dfName _ h => exact hdf h.symm
      | mf h0 _ => cases hp1.symm.trans h0
      | df h0 _ => cases hp1.symm.trans h0
      | capabilityContainer h0 => exact absurd (hp1 ▸ h0) (by decide)
      | ndefMessage h0 => exact absurd (hp1 ▸ h0) (by decide)
  case isFalse hname =>
  split
  case isTrue hid =>
    obtain ⟨hp1, hlc⟩ := hid
    have hfileId : l.data.fileId < 65536 := by
      rw [Data.fileId]
      split
      · exact l.data.ndefFileId.toNat_lt
      · decide
    have hiff : ∀ n, n < 65536 → (bytesToNumBe a.data = n ↔ a.data = numToBytesBe n) :=
      fun n hn => bytesToNumBe_eq_iff hlc hn
    simp only [take_of_length_le (Nat.le_of_eq hlc), hiff _ hfileId, hiff 0x3F00 (by decide),
      hiff 0xE110 (by decide), hiff 0xE103 (by decide)]
    split
    case isTrue h => exact select_done hins htx (.mf h.1 h.2)
    split
    case isTrue h => exact select_done hins htx (.df h.1 h.2)
    split
    case isTrue h => exact select_done hins htx (.capabilityContainer hp1 h.1 h.2)
    split
    case isTrue hmf hdf hcc h =>
      exact select_done hins htx (.ndefMessage hp1 h.1 h.2 (fun hd => hcc ⟨h.1, hd⟩)
        fun h0 => ⟨fun hd => hmf ⟨h0, hd⟩, fun hd => hdf ⟨h0, hd⟩⟩)
    case isFalse hmf hdf hcc hndef =>
      refine notFound_done hins htx fun s hs => ?_
      cases hs with
      | mfName h4 h => exact hname ⟨h4, congrArg length h⟩
      | dfName h4 h => exact hname ⟨h4, congrArg length h⟩
      | mf h0 h => exact hmf ⟨h0, h⟩
      | df h0 h => exact hdf ⟨h0, h⟩
      | capabilityContainer _ happ h => exact hcc ⟨happ, h⟩
      | ndefMessage _ happ h => exact hndef ⟨happ, h⟩
  case isFalse hid =>
    refine notFound_done hins htx fun s hs => ?_
    cases hs with
    | mfName h4 h => exact hname ⟨h4, congrArg length h⟩
    | dfName h4 h => exact hname ⟨h4, congrArg length h⟩
    | mf h0 h => exact hid ⟨.inl h0, congrArg length h⟩
    | df h0 h => exact hid ⟨.inl h0, congrArg length h⟩
    | capabilityContainer h0 _ h => exact hid ⟨h0, congrArg length h⟩
    | ndefMessage h0 _ h => exact hid ⟨h0, congrArg length h⟩

theorem length_ccDump (d : Data) : d.ccDump.length = 15 := rfl

theorem readCapabilityContainer_done (hins : a.claIns = [0x00, 0xB0]) (hp1 : a.p1 &&& 0x80 = 0)
    (hstate : l.state = .selectedCapabilityContainer) (htx : tx.Holds bufSize []) :
    ∃ h, l.readCapabilityContainer a.offset a.le tx = some h ∧ Done l a h := by
  have hfile : l.file = some l.data.ccDump := by rw [file, hstate]
  have hlen := length_ccDump l.data
  rw [readCapabilityContainer]
  split
  case isTrue hle =>
    refine answer_refused htx (fun l' bs heff => ?_) (by decide)
    obtain ⟨-, f, hf, hlt⟩ := heff.of_read hins
    obtain rfl := some.inj (hfile.symm.trans hf)
    rw [hlen] at hlt
    exact absurd hlt (Nat.not_lt.mpr hle)
  case isFalse hlt =>
    have htake : (l.data.ccDump.drop a.offset).take (min (ccMinSize - a.offset) a.le) =
        (l.data.ccDump.drop a.offset).take a.le := by
      rw [take_eq_take_min (i := a.le), length_drop, hlen, Nat.min_comm]
      rfl
    have hle : ((l.data.ccDump.drop a.offset).take a.le).length ≤ 15 := by
      rw [length_take, length_drop, hlen]
      omega
    obtain ⟨tx', happ, hholds⟩ := htx.appendBytes
      ((l.data.ccDump.drop a.offset).take a.le) (by
        rw [length_nil, bufSize]
        omega)
    rw [htake, happ, bind_some]
    refine success_effect hholds ?_ (.read hins hp1 hfile ?_)
    · rw [nil_append, bufSize]
      omega
    · rw [hlen]
      exact Nat.not_le.mp hlt

theorem read_parts (p : List Byte) (o le : Nat) : ((image p).drop o).take le =
      (if o < 2 then ((numToBytesBe p.length).drop o).take (readLen o le) else []) ++
        (p.drop (o - 2)).take (min (p.length - (o - 2)) (le - readLen o le)) := by
  have hpay : (p.drop (o - 2)).take (min (p.length - (o - 2)) (le - readLen o le)) =
      (p.drop (o - 2)).take (le - readLen o le) := by
    rw [take_eq_take_min (i := le - readLen o le), length_drop, Nat.min_comm]
  rw [hpay, image, drop_append, numToBytesBe_eq]
  change (drop o (beBytes _) ++ drop (o - 2) _).take _ = _
  split
  case isTrue ho =>
    have hlen : ((beBytes p.length).drop o).length = 2 - o := by
      rw [length_drop]
      rfl
    rw [take_append, hlen, readLen, if_pos ho, take_eq_take_min (i := le), hlen, Nat.min_comm]
    congr 2
    omega
  case isFalse ho =>
    rw [drop_eq_nil_of_le (by change 2 ≤ o; omega), readLen, if_neg ho]
    rfl

theorem readHeader_holds (o le : Nat) (htx : tx.Holds bufSize []) :
    ∃ tx', l.readHeader o le tx = some tx' ∧ tx'.Holds bufSize
      (if o < 2 then ((numToBytesBe l.data.ndefData.length).drop o).take (readLen o le) else []) := by
  rw [readHeader]
  split
  case isTrue ho =>
    obtain ⟨tx', happ, hholds⟩ := htx.appendBytes
      (((numToBytesBe l.data.ndefData.length).drop o).take (readLen o le)) (by
        rw [length_nil, length_take, length_drop, bufSize]
        change 0 + min _ (2 - o) ≤ 251
        omega)
    exact ⟨tx', happ, hholds⟩
  case isFalse ho => exact ⟨tx, rfl, htx⟩

theorem length_read (p : List Byte) (o le : Nat) :
    (((image p).drop o).take le).length = min le (2 + p.length - o) := by
  rw [length_take, length_drop, length_image, Nat.add_comm 2]

theorem readNdefMessage_of_lt {o : Nat} (le : Nat) (hlt : o < 2 + l.data.ndefData.length)
    (htx : tx.Holds bufSize []) :
    ∃ tx' hdr pay, hdr ++ pay = ((image l.data.ndefData).drop o).take le ∧ tx'.Holds bufSize hdr ∧
      (l.readNdefMessage o le tx = (tx'.appendBytes pay).bind l.success ∨
        pay = [] ∧ l.readNdefMessage o le tx = l.success tx') := by
  obtain ⟨tx', hhdr, hholds⟩ := readHeader_holds (l := l) o le htx
  refine ⟨tx', _, _, (read_parts l.data.ndefData o le).symm, hholds, ?_⟩
  rw [readNdefMessage, hhdr, bind_some]
  by_cases hlen : l.data.ndefData.length ≤ o - 2
  · have hnil : l.data.ndefData = [] := eq_nil_of_length_eq_zero (by omega)
    refine .inr ⟨?_, ?_⟩
    · rw [hnil, drop_nil, take_nil]
    · rw [if_pos hlen, if_pos (by omega)]
  · have hne : l.data.ndefData ≠ [] := fun h => hlen (h ▸ Nat.zero_le _)
    left
    rw [if_neg hlen, getData, if_neg hne, bind_some]

theorem readNdefMessage_done (hins : a.claIns = [0x00, 0xB0]) (hp1 : a.p1 &&& 0x80 = 0)
    (hstate : l.state = .selectedNdefMessage) (htx : tx.Holds bufSize [])
    (hroom : a.offset < 2 + l.data.ndefData.length →
      min a.le (2 + l.data.ndefData.length - a.offset) + 2 ≤ bufSize) :
    ∃ h, l.readNdefMessage a.offset a.le tx = some h ∧ Done l a h := by
  have hfile : l.file = some (image l.data.ndefData) := by rw [file, hstate]
  by_cases hlt : a.offset < 2 + l.data.ndefData.length
  · obtain ⟨tx', hdr, pay, hparts, hholds, hcases⟩ := readNdefMessage_of_lt a.le hlt htx
    have hlen := length_read l.data.ndefData a.offset a.le
    rw [← hparts, length_append] at hlen
    have heff : Effect l a l (hdr ++ pay ++ statusSuccess) := by
      rw [hparts]
      refine .read hins hp1 hfile ?_
      rw [length_image, Nat.add_comm]
      exact hlt
    have hfits := hroom hlt
    rcases hcases with hread | ⟨hnil, hread⟩
    · obtain ⟨tx'', happ, hholds'⟩ := hholds.appendBytes pay (by omega)
      rw [hread, happ, bind_some]
      refine success_effect hholds' ?_ heff
      rw [length_append]
      omega
    · rw [hread]
      rw [hnil, append_nil] at heff
      exact success_effect hholds (by omega) heff
  · have hread : l.readNdefMessage a.offset a.le tx = l.offsetErr tx := by
      rw [readNdefMessage, readHeader, if_neg (by omega), bind_some, if_pos (by omega),
        if_neg (by omega)]
    rw [hread]
    refine answer_refused htx (fun l' bs heff => ?_) (by decide)
    obtain ⟨-, f, hf, hflt⟩ := heff.of_read hins
    obtain rfl := some.inj (hfile.symm.trans hf)
    rw [length_image] at hflt
    omega

theorem readNdefMessage_eq_none {o : Nat} (le : Nat) (hlt : o < 2 + l.data.ndefData.length)
    (htx : tx.Holds bufSize []) (hroom : bufSize < min le (2 + l.data.ndefData.length - o) + 2) :
    l.readNdefMessage o le tx = none := by
  obtain ⟨tx', hdr, pay, hparts, hholds, hcases⟩ := readNdefMessage_of_lt le hlt htx
  have hlen := length_read l.data.ndefData o le
  rw [← hparts, length_append] at hlen
  have hsuccess : ∀ (tx : BitBuffer) (bs : List Byte), tx.Holds bufSize bs →
      bs.length = hdr.length + pay.length → l.success tx = none := by
    intro tx bs hbs hbslen
    rw [success, answer, hbs.appendBytes_eq_none (by change bufSize < bs.length + 2; omega)]
    rfl
  rcases hcases with hread | ⟨rfl, hread⟩
  · rw [hread]
    by_cases hfits : hdr.length + pay.length ≤ bufSize
    · obtain ⟨tx'', happ, hholds'⟩ := hholds.appendBytes pay hfits
      rw [happ, bind_some]
      exact hsuccess tx'' _ hholds' length_append
    · rw [hholds.appendBytes_eq_none (by omega)]
      rfl
  · rw [hread]
    exact hsuccess tx' hdr hholds rfl

theorem isoRead_done (hins : a.claIns = [0x00, 0xB0]) (hreg : RegularApdu l a)
    (htx : tx.Holds bufSize []) : ∃ h, l.isoRead a tx = some h ∧ Done l a h := by
  rw [isoRead]
  by_cases hp1 : a.p1 &&& 0x80 = 0
  · rw [if_neg (not_not_intro hp1)]
    have hnone : l.file = none → ∃ h, l.notFound tx = some h ∧ Done l a h := by
      intro hfile
      refine answer_refused htx (fun l' bs heff => ?_) (by decide)
      obtain ⟨-, f, hf, -⟩ := heff.of_read hins
      cases hfile.symm.trans hf
    cases hstate : l.state with
    | idle => exact hnone (by rw [file, hstate])
    | selectedPicc => exact hnone (by rw [file, hstate])
    | selectedApplication => exact hnone (by rw [file, hstate])
    | selectedCapabilityContainer => exact readCapabilityContainer_done hins hp1 hstate htx
    | selectedNdefMessage =>
      exact readNdefMessage_done hins hp1 hstate htx (hreg.read hins hp1 hstate)
  · rw [if_pos hp1]
    refine answer_refused htx (fun l' bs heff => ?_) (by decide)
    exact hp1 (heff.of_read hins).1

theorem writeNdefMessage_of_le (hd : d ≠ [])
    (hmax : ndefFileLenNew l.data.ndefData.length o d ≤ l.data.maxLen) :
    l.writeNdefMessage o d tx = { l with data := { l.data with
      ndefData := write l.data.ndefData o d } }.success tx := by
  have hpos := length_pos_of_ne_nil hd
  have hend : o + d.length - 2 ≤ ndefFileLenNew l.data.ndefData.length o d := by
    rw [ndefFileLenNew_eq, newLength]
    exact Nat.le_max_right _ _
  rw [writeNdefMessage, if_neg (by omega), if_neg (by omega), if_neg (Nat.not_lt.mpr hmax),
    ndefFileLenNew_eq, resizeNdefData_eq, bind_some, storeNdefData_eq, bind_some]

theorem writeNdefMessage_done (hins : a.claIns = [0x00, 0xD6]) (hp1 : a.p1 &&& 0x80 = 0)
    (hstate : l.state = .selectedNdefMessage) (htx : tx.Holds bufSize [])
    (hreg : a.offset < 2 → ndefFileLenNew l.data.ndefData.length a.offset a.data ≤ l.data.maxLen →
        a.offset + a.lc - 2 ≤ mergedLen l.data.ndefData.length a.offset a.data) :
    ∃ h, l.writeNdefMessage a.offset a.data tx = some h ∧ Done l a h := by
  by_cases hd : a.data = []
  · rw [writeNdefMessage, if_pos (by rw [hd]; rfl)]
    exact answer_refused htx (fun l' bs heff => (heff.of_update hins).2.2.1 hd) (by decide)
  by_cases hmax : ndefFileLenNew l.data.ndefData.length a.offset a.data ≤ l.data.maxLen
  · rw [writeNdefMessage_of_le hd hmax]
    refine success_effect htx (show 2 ≤ 251 by decide) (.update hins hp1 hstate hd ?_ ?_)
    · refine updates_write hd fun ho => ?_
      rw [← mergedLen_eq]
      exact hreg ho hmax
    · rw [length_write, ← ndefFileLenNew_eq]
      exact hmax
  · have hwrite : l.writeNdefMessage a.offset a.data tx = l.offsetErr tx := by
      have hpos := length_pos_of_ne_nil hd
      rw [writeNdefMessage, if_neg (by omega)]
      split
      · rfl
      · rw [if_pos (Nat.not_le.mp hmax)]
    rw [hwrite]
    refine answer_refused htx (fun l' bs heff => hmax ?_) (by decide)
    rw [ndefFileLenNew_eq]
    exact (heff.of_update hins).2.2.2.1

theorem isoWrite_done (hins : a.claIns = [0x00, 0xD6]) (hreg : RegularApdu l a)
    (htx : tx.Holds bufSize []) : ∃ h, l.isoWrite a tx = some h ∧ Done l a h := by
  rw [isoWrite]
  by_cases hp1 : a.p1 &&& 0x80 = 0
  · rw [if_neg (not_not_intro hp1)]
    have hother : l.state ≠ .selectedNdefMessage → ∀ l' bs, ¬ Effect l a l' bs :=
      fun hne l' bs heff => hne (heff.of_update hins).2.1
    cases hstate : l.state with
    | idle => exact answer_refused htx (hother (by rw [hstate]; decide)) (by decide)
    | selectedPicc => exact answer_refused htx (hother (by rw [hstate]; decide)) (by decide)
    | selectedApplication => exact answer_refused htx (hother (by rw [hstate]; decide)) (by decide)
    | selectedCapabilityContainer =>
      exact answer_refused htx (hother (by rw [hstate]; decide)) (by decide)
    | selectedNdefMessage =>
      exact writeNdefMessage_done hins hp1 hstate htx (hreg.update hins hp1 hstate)
  · rw [if_pos hp1]
    refine answer_refused htx (fun l' bs heff => ?_) (by decide)
    exact hp1 (heff.of_update hins).1

theorem encodeResponse_isSome (layer : Layer) (htx : tx.Holds bufSize bs) :
    ∃ sent layer' block bs', layer.encodeResponse tx (BitBuffer.alloc 256) =
      some (sent, layer', block) ∧ block.Holds 256 bs' ∧ bs'.length ≤ 254 := by
  have hle := htx.length_le
  rw [bufSize] at hle
  rw [Layer.encodeResponse]
  split
  swap
  · exact ⟨false, layer, BitBuffer.alloc 256, [], rfl, BitBuffer.holds_alloc 256, Nat.zero_le _⟩
  obtain ⟨b₁, h₁, hb₁⟩ := (BitBuffer.holds_alloc 256).appendByte (show 0 < 256 by decide) 0x00
  have hcid : ∃ b₂ cs, layer.encodeCid b₁ = some b₂ ∧ b₂.Holds 256 (0x00 :: cs) ∧
      cs.length ≤ 1 := by
    rw [Layer.encodeCid]
    split
    · obtain ⟨b₂, h₂, hb₂⟩ := hb₁.appendByte (show 1 < 256 by decide) layer.cid
      exact ⟨b₂, [layer.cid], h₂, hb₂, Nat.le_refl _⟩
    · exact ⟨b₁, [], rfl, hb₁, Nat.zero_le _⟩
  obtain ⟨b₂, cs, h₂, hb₂, hcs⟩ := hcid
  have hnad : ∃ layer' b₃ ds, layer.encodeNad b₂ = some (layer', b₃) ∧
      b₃.Holds 256 (0x00 :: ds) ∧ ds.length ≤ 2 := by
    rw [Layer.encodeNad]
    split
    · obtain ⟨b₃, h₃, hb₃⟩ := hb₂.appendByte (by rw [length_cons]; omega) layer.nad
      refine ⟨{ layer with nad := nadNotSet }, b₃, cs ++ [layer.nad], ?_, hb₃, ?_⟩
      · rw [h₃]
        rfl
      · rw [length_append, length_singleton]
        omega
    · exact ⟨{ layer with pcb := layer.pcb &&& 0xFB }, b₂, cs, rfl, hb₂, by omega⟩
  obtain ⟨layer', b₃, ds, h₃, hb₃, hds⟩ := hnad
  obtain ⟨b₄, h₄, hb₄⟩ := hb₃.setByte (i := 0) (by rw [length_cons]; omega)
    (layer'.pcb &&& 0xEF)
  obtain ⟨b₅, h₅, hb₅⟩ := hb₄.append htx (by
    rw [length_set, length_cons]
    omega)
  refine ⟨true, Layer.updatePcb { layer' with pcb := layer'.pcb &&& 0xEF } false, b₅, _, ?_, hb₅, ?_⟩
  · change (BitBuffer.appendByte _ _).bind _ = _
    rw [h₁, bind_some]
    change (layer.encodeCid _).bind _ = _
    rw [h₂, bind_some]
    change (layer.encodeNad _).bind _ = _
    rw [h₃, bind_some]
    change (b₃.setByte 0 (layer'.pcb &&& 0xEF)).bind _ = _
    rw [h₄, bind_some]
    change (b₄.append tx).bind _ = _
    rw [h₅]
    rfl
  · rw [length_append, length_set, length_cons]
    omega

theorem sendBlock_isSome (layer : Layer) (htx : tx.Holds bufSize bs) :
    ∃ frame, sendBlock layer tx = some frame := by
  obtain ⟨sent, layer', block, bs', henc, hblock, hle⟩ := encodeResponse_isSome layer htx
  rw [sendBlock, henc, bind_some]
  dsimp only
  split
  case isFalse => exact ⟨none, rfl⟩
  case isTrue =>
    obtain ⟨b, hcopy, hb⟩ := BitBuffer.Holds.copy (BitBuffer.holds_alloc 512).capacity hblock
      (by omega)
    obtain ⟨frame, happ, -⟩ := hb.appendBytes (crcBytes (crcCalculate b.bytes)) (by
      change bs'.length + 2 ≤ 512
      omega)
    refine ⟨some frame, ?_⟩
    rw [standardFrame, hcopy, bind_some, happ]
    rfl

theorem send_holds (layer : Layer) {e : Option Error} (htx : tx.Holds bufSize bs) (hne : bs ≠ []) :
    ∃ o, send layer ⟨e, l, tx⟩ = some o ∧ o.listener = l ∧ o.answer = some bs := by
  obtain ⟨frame, hframe⟩ := sendBlock_isSome layer htx
  have hsize : tx.sizeBytes ≠ 0 := by
    rw [htx.sizeBytes]
    exact Nat.ne_of_gt (length_pos_of_ne_nil hne)
  refine ⟨⟨sentError e frame, l, some tx.bytes, frame.map BitBuffer.bytes⟩, ?_, rfl,
    congrArg some htx.bytes⟩
  · rw [send, if_neg hsize, hframe]
    rfl

def dispatch (l : Listener) (a : Apdu) (tx : BitBuffer) : Option Handled :=
  match commands.lookup a.claIns with
  | none => l.answer (some .customCommand) statusNoCmd tx
  | some handler => handler l a tx

theorem handleApdu_of_apdu (layer : Layer) (h : r.apdu = some a) :
    l.handleApdu layer r = (l.dispatch a (BitBuffer.alloc bufSize)).bind (send layer) := by
  rw [Received.apdu] at h
  split at h
  · cases h
  case isFalse hsize =>
    obtain ⟨⟨data, le⟩, hbody, rfl⟩ := map_eq_some_iff.mp h
    cases hlookup : commands.lookup [r.byte 0, r.byte 1] <;>
      simp only [handleApdu, dispatch, if_neg hsize, hbody, hlookup]

theorem lookup_cons_eq {β : Type} (k c : List Byte) (b : β) (table : List (List Byte × β)) :
    ((k, b) :: table).lookup c = if c = k then some b else table.lookup c := by
  rw [lookup_cons]
  by_cases h : c = k
  · rw [if_pos h, beq_iff_eq.mpr h]
  · rw [if_neg h, beq_eq_false_iff_ne.mpr h]

theorem lookup_commands (claIns : List Byte) : commands.lookup claIns =
    if claIns = [0x00, 0xA4] then some isoSelect
    else if claIns = [0x00, 0xB0] then some isoRead
    else if claIns = [0x00, 0xD6] then some isoWrite
    else none := by
  rw [commands, lookup_cons_eq, lookup_cons_eq, lookup_cons_eq, lookup_nil]

theorem dispatch_done (hreg : RegularApdu l a) (htx : tx.Holds bufSize []) :
    ∃ h, l.dispatch a tx = some h ∧ Done l a h := by
  rw [dispatch, lookup_commands]
  by_cases hsel : a.claIns = [0x00, 0xA4]
  · rw [if_pos hsel]
    exact isoSelect_done hsel htx
  rw [if_neg hsel]
  by_cases hread : a.claIns = [0x00, 0xB0]
  · rw [if_pos hread]
    exact isoRead_done hread hreg htx
  rw [if_neg hread]
  by_cases hwrite : a.claIns = [0x00, 0xD6]
  · rw [if_pos hwrite]
    exact isoWrite_done hwrite hreg htx
  rw [if_neg hwrite]
  refine answer_refused htx (fun l' bs heff => ?_) (by decide)
  cases heff with
  | select hins => exact hsel hins
  | read hins => exact hread hins
  | update hins => exact hwrite hins

theorem ne_nil_of_mem_errorAnswers : ∀ status ∈ errorAnswers, status ≠ [] := by decide

/-- A command is carried out on the files of the tag or refused, and nothing else happens to them.
-/
theorem handleApdu_refined (layer : Layer) (hreg : ∀ a, r.apdu = some a → RegularApdu l a) :
    ∃ o, l.handleApdu layer r = some o ∧ (Carried l r o ∨ Refused l r o) := by
  have halloc := BitBuffer.holds_alloc bufSize
  cases hapdu : r.apdu with
  | some a =>
    obtain ⟨h, hh, hdone⟩ := dispatch_done (hreg a hapdu) halloc
    rw [handleApdu_of_apdu layer hapdu, hh, bind_some]
    cases hdone with
    | @effect l' tx bs heff holds hne =>
      obtain ⟨o, ho, hl, hans⟩ := send_holds (e := none) (l := l') layer holds hne
      refine ⟨o, ho, .inl ⟨a, bs, Received.carries_iff.mpr hapdu, ?_, hans⟩⟩
      rw [hl]
      exact heff
    | @refused e tx status hno hstatus holds =>
      obtain ⟨o, ho, hl, hans⟩ := send_holds (e := some e) (l := l) layer holds
        (ne_nil_of_mem_errorAnswers status hstatus)
      refine ⟨o, ho, .inr ⟨fun b hb => ?_, .inr ⟨status, hstatus, hans⟩, hl⟩⟩
      obtain rfl := some.inj (hapdu.symm.trans (Received.carries_iff.mp hb))
      exact hno
  | none =>
    have hreason : ∀ a, r.Carries a → ∀ l' bs, ¬ Effect l a l' bs := fun a ha =>
      absurd (hapdu.symm.trans (Received.carries_iff.mp ha)) (by simp)
    rw [Received.apdu] at hapdu
    by_cases hsize : r.size < 4
    · have hempty : (BitBuffer.alloc bufSize).sizeBytes = 0 := halloc.sizeBytes
      refine ⟨⟨some .wrongFormat, l, none, none⟩, ?_, .inr ⟨hreason, .inl rfl, rfl⟩⟩
      simp only [handleApdu, if_pos hsize, bind_some, send, if_pos hempty]
    · rw [if_neg hsize, map_eq_none_iff] at hapdu
      have hanswer : ∃ e status h, status ∈ errorAnswers ∧
          l.answer (some e) status (BitBuffer.alloc bufSize) = some h ∧
          l.handleApdu layer r = send layer h := by
        cases hlookup : commands.lookup [r.byte 0, r.byte 1] with
        | none =>
          obtain ⟨tx, happ, -⟩ := halloc.appendBytes statusNoCmd (show 2 ≤ 251 by decide)
          refine ⟨.customCommand, statusNoCmd, ⟨some .customCommand, l, tx⟩, by decide, ?_, ?_⟩
          · rw [answer, happ]
            rfl
          · simp only [handleApdu, if_neg hsize, hlookup, answer, happ, map_some, bind_some]
        | some handler =>
          obtain ⟨tx, happ, -⟩ := halloc.appendBytes statusBadParams (show 2 ≤ 251 by decide)
          refine ⟨.wrongFormat, statusBadParams, ⟨some .wrongFormat, l, tx⟩, by decide, ?_, ?_⟩
          · rw [answer, happ]
            rfl
          · simp only [handleApdu, if_neg hsize, hlookup, hapdu, answer, happ, map_some, bind_some]
      obtain ⟨e, status, h, hstatus, hans, hhandle⟩ := hanswer
      have hlen := length_errorAnswers status hstatus
      obtain ⟨tx, happ, hholds⟩ := halloc.appendBytes status (by
        rw [hlen]
        show 2 ≤ 251
        decide)
      rw [answer, happ] at hans
      obtain rfl := some.inj hans
      obtain ⟨o, ho, hl, hans⟩ := send_holds (e := some e) (l := l) layer hholds
        (ne_nil_of_mem_errorAnswers status hstatus)
      exact ⟨o, hhandle.trans ho, .inr ⟨hreason, .inr ⟨status, hstatus, hans⟩, hl⟩⟩

theorem length_data_le (h : r.apdu = some a) : a.lc ≤ 252 := by
  obtain ⟨⟨body, hbytes, hbody⟩, hclaIns⟩ := Received.carries_iff.mpr h
  have hlen := congrArg length hbytes
  have hsize := r.size_le
  rw [Received.length_bytes, length_append, hclaIns, length_cons, length_cons] at hlen
  have hle : a.data.length ≤ body.length := by
    generalize a.data = data, a.le = le at hbody ⊢
    cases hbody <;> simp only [length_cons, length_append, length_nil] <;> omega
  change a.data.length ≤ 252
  omega

theorem handleApdu_eq_none (hapdu : r.apdu = some a) (hins : a.claIns = [0x00, 0xB0])
    (hp1 : a.p1 &&& 0x80 = 0) (hstate : l.state = .selectedNdefMessage)
    (hlt : a.offset < 2 + l.data.ndefData.length)
    (hroom : bufSize < min a.le (2 + l.data.ndefData.length - a.offset) + 2) :
    l.handleApdu layer r = none := by
  have hnone := readNdefMessage_eq_none a.le hlt (BitBuffer.holds_alloc bufSize) hroom
  rw [handleApdu_of_apdu layer hapdu, dispatch, lookup_commands, if_neg (by rw [hins]; decide),
    if_pos hins]
  simp only [isoRead, hp1, ne_eq, not_true_eq_false, if_false, hstate, hnone, bind_none]

theorem regular_read_of_refined (hapdu : r.apdu = some a)
    (href : ∃ o, l.handleApdu layer r = some o ∧ (Carried l r o ∨ Refused l r o))
    (hins : a.claIns = [0x00, 0xB0]) (hp1 : a.p1 &&& 0x80 = 0)
    (hstate : l.state = .selectedNdefMessage) (hlt : a.offset < 2 + l.data.ndefData.length) :
    min a.le (2 + l.data.ndefData.length - a.offset) + 2 ≤ bufSize := by
  by_contra hroom
  obtain ⟨o, ho, -⟩ := href
  rw [handleApdu_eq_none hapdu hins hp1 hstate hlt (Nat.not_le.mp hroom)] at ho
  exact absurd ho.symm (some_ne_none o)

theorem regular_update_of_refined (hapdu : r.apdu = some a)
    (href : ∃ o, l.handleApdu layer r = some o ∧ (Carried l r o ∨ Refused l r o))
    (hins : a.claIns = [0x00, 0xD6]) (hp1 : a.p1 &&& 0x80 = 0)
    (hstate : l.state = .selectedNdefMessage) (hoffset : a.offset < 2)
    (hmax : ndefFileLenNew l.data.ndefData.length a.offset a.data ≤ l.data.maxLen) :
    a.offset + a.lc - 2 ≤ mergedLen l.data.ndefData.length a.offset a.data := by
  by_cases hd : a.data = []
  · rw [Apdu.lc, hd, length_nil]
    omega
  have hlc := length_data_le hapdu
  obtain ⟨o, ho, hcases⟩ := href
  rw [mergedLen_eq]
  rcases hcases with ⟨b, bs, hb, heff, -⟩ | hrefused
  · obtain rfl := some.inj (hapdu.symm.trans (Received.carries_iff.mp hb))
    obtain ⟨-, -, -, -, payload, hupd⟩ := heff.of_update hins
    exact hupd.le_writtenLength hd hoffset (by change a.lc ≤ 255; omega)
  · -- the update has been accepted
    have halloc := BitBuffer.holds_alloc bufSize
    obtain ⟨tx, happ, hholds⟩ := halloc.appendBytes statusSuccess (show 2 ≤ 251 by decide)
    rw [handleApdu_of_apdu layer hapdu, dispatch, lookup_commands, if_neg (by rw [hins]; decide),
      if_neg (by rw [hins]; decide), if_pos hins] at ho
    simp only [isoWrite, hp1, ne_eq, not_true_eq_false, if_false, hstate,
      writeNdefMessage_of_le hd hmax, success, answer, happ, map_some,
      bind_some] at ho
    obtain ⟨o', ho', -, hans⟩ := send_holds (e := none) (l := { l with data := { l.data with
      ndefData := write l.data.ndefData a.offset a.data } }) layer hholds (by decide)
    rw [hstate] at ho'
    obtain rfl := some.inj (ho.symm.trans ho')
    rcases hrefused.answer with hnone | ⟨status, hstatus, hsome⟩
    · cases hans.symm.trans hnone
    · obtain rfl := some.inj (hans.symm.trans hsome)
      exact absurd hstatus (by decide)

theorem regular_iff_refined (e : Event) : l.Regular e ↔ l.Refined e := by
  cases e with
  | fieldOff => exact Iff.rfl
  | halted => exact Iff.rfl
  | receivedData layer r =>
    constructor
    · exact handleApdu_refined layer
    · intro href a hapdu
      exact ⟨regular_read_of_refined hapdu href, regular_update_of_refined hapdu href⟩

def machine : Machine Listener Event where
  step := run

theorem run_isSome_of_meets {es : List Event} (h : machine.Meets Refined l es) :
    ∃ l', machine.run l es = some l' := by
  induction es generalizing l with
  | nil => exact ⟨l, rfl⟩
  | cons e es ih =>
    have hstep : ∃ l', machine.step l e = some l' := by
      cases e with
      | fieldOff => exact ⟨_, rfl⟩
      | halted => exact ⟨_, rfl⟩
      | receivedData layer r =>
        obtain ⟨o, ho, -⟩ := h.1
        exact ⟨o.listener, congrArg (Option.map Outcome.listener) ho⟩
    obtain ⟨l', hs⟩ := hstep
    rw [machine.meets_cons_of_step hs] at h
    obtain ⟨l'', hrun⟩ := ih h.2
    exact ⟨l'', machine.run_cons_eq_some.mpr ⟨l', hs, hrun⟩⟩

/-- In a run, every APDU has its effect on the files of the tag or is refused for a reason exactly
if the APDUs of the run meet the condition. -/
theorem files_refined_iff (l : Listener) (es : List Event) :
    machine.Meets Regular l es ↔ machine.Meets Refined l es := by
  have hiff : Regular = Refined := funext fun l => funext fun e => propext (regular_iff_refined e)
  rw [hiff]

/-- An APDU in a buffer that has been empty. -/
def receive (bytes : List Byte) (h : bytes.length ≤ 256) : Event :=
  .receivedData { Layer.reset with pcbPrev := 0x02 }
    { data := bytes ++ replicate (256 - bytes.length) 0
      size := bytes.length
      length_data := by
        rw [length_append, length_replicate]
        exact Nat.add_sub_cancel' h
      size_le := h }

/-- A tag with a message of 254 bytes. -/
def fullTag : Listener where
  data := ⟨false, 0, 0, 0, 0, 0, 0, replicate 254 0xAA⟩
  state := .idle

/-- The application and the NDEF file are selected, and 256 bytes are read. -/
def readAll : List Event :=
  [receive [0x00, 0xA4, 0x04, 0x00, 0x07, 0xD2, 0x76, 0x00, 0x00, 0x85, 0x01, 0x01] (by decide),
    receive [0x00, 0xA4, 0x00, 0x0C, 0x02, 0xE1, 0x04] (by decide),
    receive [0x00, 0xB0, 0x00, 0x00, 0x00] (by decide)]

/-- The answer to the read does not fit into the buffer. -/
theorem readAll_not_refined : ¬ machine.Meets Refined fullTag readAll := by
  intro h
  obtain ⟨l, hrun⟩ := run_isSome_of_meets h
  have hnone : (machine.run fullTag readAll).isNone = true := by decide +kernel
  rw [hrun] at hnone
  exact absurd hnone (by simp)

end Listener

end NikitaFirmware.Type4Tag
