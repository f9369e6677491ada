import NikitaFirmware.Type4Tag.ListenerCard

/-!
# A message written to the emulated tag and read back

What the poller reads of a file of the tag and writes to it, chunk after chunk, and the sessions that
are made of this.
-/

namespace NikitaFirmware.Type4Tag
open Nfc Foundations Listener Type4TagPoller List Option PrefixedFile

/-- All chunks of a stretch begin inside of the addresses, and it is not refused. -/
def Reachable (chunkMax offset length : Nat) : Prop :=
  ¬ TooLarge chunkMax offset length ∧ ∀ k, k * chunkMax < length → offset + k * chunkMax < 32768

theorem reachable_front {chunkMax length : Nat} (hchunk : chunkMax ≠ 0) (hlength : length ≤ 32766) :
    Reachable chunkMax 0 length :=
  ⟨Nat.not_lt.mpr (show 0 + length ≤ 32767 + chunkMax - 2 by omega), fun k hk => by omega⟩

namespace Channel

variable {c : Channel} {l l' : Listener} {f : List Byte} {p : Type4TagPoller Listener} {d d' : Data}
  {fuel : Nat}

section Sessions
variable {α β : Type} {session : Session Listener α} {next : α → Session Listener β} {a : α} {b : β}

theorem Done.andThen (h : Done session p a d l)
    (hnext : ∀ p' : Type4TagPoller Listener, p'.data = d → p'.card = l → Done (next a) p' b d' l') :
    Done (Type4TagPoller.andThen session next) p b d' l' := by
  obtain ⟨p', hrun, hd, hl⟩ := h
  obtain ⟨p'', hrun', hd', hl'⟩ := hnext p' hd hl
  refine ⟨p'', ?_, hd', hl'⟩
  rw [Type4TagPoller.andThen, hrun]
  exact hrun'

theorem Done.andThen_fails (h : Done session p a d l)
    (hnext : ∀ p' : Type4TagPoller Listener, p'.data = d → p'.card = l → Fails (next a) p') :
    Fails (Type4TagPoller.andThen session next) p := by
  obtain ⟨p', hrun, hd, hl⟩ := h
  obtain ⟨e, p'', hrun'⟩ := hnext p' hd hl
  refine ⟨e, p'', ?_⟩
  rw [Type4TagPoller.andThen, hrun]
  exact hrun'

theorem Fails.andThen (h : Fails session p) : Fails (Type4TagPoller.andThen session next) p := by
  obtain ⟨e, p', hrun⟩ := h
  refine ⟨e, p', ?_⟩
  rw [Type4TagPoller.andThen, hrun]
  rfl

theorem Fails.not_done (h : Fails session p) {p' : Type4TagPoller Listener} :
    session p ≠ some (.ok a, p') := by
  obtain ⟨e, p'', hrun⟩ := h
  rw [hrun]
  rintro ⟨⟩

end Sessions

theorem readStep_file {o n : Nat} {r : Reading Listener} (hfile : r.poller.card.file = some f)
    (hpos : 0 < n) (hn : n ≤ 246) (hend : o + n ≤ f.length) (ho : o < 65536) :
    (o < 32768 → (readStep c.card o n r).1 = none ∧
      (readStep c.card o n r).2.buffer = r.buffer ++ (f.drop o).take n ∧
      (readStep c.card o n r).2.poller.data = r.poller.data ∧
      (readStep c.card o n r).2.poller.card = r.poller.card) ∧
    (¬ o < 32768 → (readStep c.card o n r).1 ≠ none) := by
  constructor
  · intro hlow
    obtain ⟨p', htrx, hdata, hcard⟩ := @apduTrx_read c f o n r.poller hfile hpos hn hlow (by omega)
    have hlen : ((f.drop o).take n).length = n := by
      rw [length_take, length_drop]
      omega
    rw [readStep, htrx]
    dsimp only
    rw [if_neg (not_not.mpr hlen)]
    exact ⟨rfl, rfl, hdata, hcard⟩
  · intro hhigh
    obtain ⟨e, p', htrx, -⟩ := @apduTrx_read_refused c o n r.poller hn (Nat.le_of_not_lt hhigh) ho
    rw [readStep, htrx]
    exact some_ne_none e

theorem isoRead_file {offset length : Nat} (hfile : p.card.file = some f)
    (hchunk : p.data.readChunk ≠ 0) (hend : offset + length ≤ f.length) (hfuel : length < fuel) :
    ∃ done, isoRead c.card fuel offset length p = some done ∧
      (done.1 = none ↔ Reachable p.data.readChunk offset length) ∧
      (done.1 = none → done.2.buffer = (f.drop offset).take length ∧
        done.2.poller.data = p.data ∧ done.2.poller.card = p.card) := by
  rw [Type4TagPoller.isoRead]
  by_cases hlarge : TooLarge p.data.readChunk offset length
  · rw [if_pos hlarge]
    exact ⟨_, rfl, iff_of_false (some_ne_none _) fun h => h.1 hlarge,
      fun h => absurd h (some_ne_none _)⟩
  · have hle := Nat.le_of_not_lt hlarge
    have hmax := readChunk_le p.data
    let reached : Nat → Reading Listener → Prop := fun o r => offset ≤ o ∧
      r.buffer = (f.drop offset).take (o - offset) ∧ r.poller.data = p.data ∧ r.poller.card = p.card
    have hstep : ∀ o n r, reached o r → 0 < n → n ≤ p.data.readChunk → o + n ≤ offset + length →
        (o < 32768 → (readStep c.card o n r).1 = none ∧ reached (o + n) (readStep c.card o n r).2) ∧
          (¬ o < 32768 → (readStep c.card o n r).1 ≠ none) := by
      rintro o n r ⟨hfirst, hbuffer, hdata, hcard⟩ hpos hn hlast
      obtain ⟨hread, hrefused⟩ := @readStep_file c f o n r (hcard ▸ hfile) hpos (by omega) (by omega)
        (by omega)
      refine ⟨fun hlow => ?_, hrefused⟩
      obtain ⟨hnone, hbuffer', hdata', hcard'⟩ := hread hlow
      refine ⟨hnone, by omega, ?_, hdata'.trans hdata, hcard'.trans hcard⟩
      rw [hbuffer', hbuffer, show o + n - offset = (o - offset) + n by omega, take_add,
        drop_drop, Nat.add_sub_cancel' hfirst]
    obtain ⟨done, hdone, hiff, hreached⟩ := @chunked_spec _ _ (readStep c.card) p.data.readChunk fuel
      offset length ⟨p, []⟩ reached (· < 32768) (offset + length) hchunk hstep hfuel (Nat.le_refl _)
      ⟨Nat.le_refl _, by rw [Nat.sub_self, take_zero], rfl, rfl⟩
    rw [if_neg hlarge]
    refine ⟨done, hdone, hiff.trans ⟨fun h => ⟨hlarge, h⟩, fun h => h.2⟩, fun hnone => ?_⟩
    obtain ⟨-, hbuffer, hdata, hcard⟩ := hreached hnone
    rw [Nat.add_sub_cancel_left] at hbuffer
    exact ⟨hbuffer, hdata, hcard⟩

theorem readBytes_done {offset length : Nat} (hfile : p.card.file = some f)
    (hchunk : p.data.readChunk ≠ 0) (hend : offset + length ≤ f.length) (hfuel : length < fuel)
    (h : Reachable p.data.readChunk offset length) :
    Done (readBytes c.card fuel offset length) p ((f.drop offset).take length) p.data p.card := by
  obtain ⟨done, hdone, hiff, hread⟩ := @isoRead_file c f p fuel offset length hfile hchunk hend hfuel
  obtain ⟨hbuffer, hdata, hcard⟩ := hread (hiff.mpr h)
  refine ⟨done.2.poller, ?_, hdata, hcard⟩
  rw [readBytes, hdone, map_some, hiff.mpr h, hbuffer]

theorem readBytes_fails {offset length : Nat} {done : Option PollerError × Reading Listener}
    (hdone : Type4TagPoller.isoRead c.card fuel offset length p = some done) (h : done.1 ≠ none) :
    Fails (readBytes c.card fuel offset length) p := by
  obtain ⟨e, he⟩ := ne_none_iff_exists'.mp h
  refine ⟨e, done.2.poller, ?_⟩
  rw [readBytes, hdone, map_some, he]

theorem readBytes_zero {length : Nat} (hfile : p.card.file = some f) (hne : f ≠ [])
    (hchunk : p.data.readChunk = 0) (hlength : length ≠ 0) (hsmall : length ≤ 32765) :
    Fails (readBytes c.card (fuel + 1) 0 length) p := by
  have hlarge : ¬ TooLarge p.data.readChunk 0 length := by
    rw [hchunk]
    exact Nat.not_lt.mpr (show 0 + length ≤ 32767 + 0 - 2 by omega)
  have hstep : (readStep c.card 0 0 ⟨p, []⟩).1 ≠ none := by
    rw [readStep]
    cases htrx : p.apduTrx c.card (readApdu 0 0) with
    | mk answer p' =>
      cases answer with
      | error e => exact some_ne_none e
      | ok bytes =>
        by_cases hnil : bytes = []
        · subst hnil
          exact absurd htrx (apduTrx_read_none hfile hne p')
        · dsimp only
          rw [if_pos (fun h => hnil (length_eq_zero_iff.mp h))]
          exact some_ne_none _
  obtain ⟨e, he⟩ := ne_none_iff_exists'.mp hstep
  have hchunked := @chunked_error _ _ (readStep c.card) p.data.readChunk fuel 0 length ⟨p, []⟩ e
    hlength (by rw [hchunk, Nat.min_zero]; exact he)
  exact readBytes_fails ((if_neg hlarge).trans hchunked) (some_ne_none e)

structure Learnt (tag d d' : Data) : Prop where
  readChunk : d'.readChunk = tag.readChunk
  writeChunk : d'.writeChunk = tag.writeChunk
  fileId : d'.ndefFileId.toNat = tag.fileId
  ndefData : d'.ndefData = d.ndefData

theorem fileId_lt (tag : Data) : tag.fileId < 65536 := by
  rw [Data.fileId]
  split
  · exact tag.ndefFileId.toNat_lt
  · decide

theorem toNat_word {n : Nat} (h : n < 65536) :
    (UInt16.ofNat (bytesToNumBe (numToBytesBe n))).toNat = n := by
  rw [bytesToNumBe_numToBytesBe h, UInt16.toNat_ofNat']
  exact Nat.mod_eq_of_lt h

/-- The bytes of the container, as they are parsed. -/
def ccMemory (tag : Data) (k : Nat) : Byte := tag.ccDump.getD k 0

def learn (tag d : Data) : Data := { ccFields (ccMemory tag) 7 d with isTagSpecific := true }

theorem learnt_learn (tag d : Data) : Learnt tag d (learn tag d) := by
  have hread := readChunk_le tag
  have hwrite := writeChunk_le tag
  have hfile := fileId_lt tag
  refine ⟨?_, ?_, ?_, rfl⟩
  · have hnum : numAt (ccMemory tag) 3 = bytesToNumBe (numToBytesBe tag.readChunk) := rfl
    change min (UInt16.ofNat (numAt (ccMemory tag) 3)).toNat 246 = _
    rw [hnum, toNat_word (by omega)]
    exact Nat.min_eq_left hread
  · have hnum : numAt (ccMemory tag) 5 = bytesToNumBe (numToBytesBe tag.writeChunk) := rfl
    change min (UInt16.ofNat (numAt (ccMemory tag) 5)).toNat 246 = _
    rw [hnum, toNat_word (by omega)]
    exact Nat.min_eq_left hwrite
  · have hnum : numAt (ccMemory tag) 9 = bytesToNumBe (numToBytesBe tag.fileId) := rfl
    change (UInt16.ofNat (numAt (ccMemory tag) 9)).toNat = _
    rw [hnum, toNat_word hfile]

theorem ccParse_ccDump (tag d : Data) :
    (ccParse (ccMemory tag) d 15).2 = .ok (ccFields (ccMemory tag) 7 d) := by
  have hfound : (findFileCtrl (ccMemory tag) 15 7).2 = some 7 := by
    rw [findFileCtrl, if_pos (by decide), if_pos (show ccMemory tag 7 = 0x04 by rfl)]
  have hend : tlvEnd (ccMemory tag) 15 = 15 := rfl
  rw [ccParse, if_neg (by decide), if_neg (not_not.mpr (show ccMemory tag 2 = 0x20 by rfl))]
  dsimp only
  rw [hend, hfound]

theorem parseCc_eq {cc : List Byte} {data : Data}
    (h : (ccParse (fun k => cc.getD k 0) p.data cc.length).2 = .ok data) :
    parseCc cc p = some (.ok (), { p with data := { data with isTagSpecific := true } }) := by
  rw [parseCc, h]

theorem readCc_done {fuel : Nat} (happ : p.card.state.inApplication = true)
    (hchunk : p.data.readChunk ≠ 0) (hfuel : 15 < fuel) :
    Done (readCc c.card fuel) p () (learn p.card.data p.data)
      { p.card with state := .selectedCapabilityContainer } := by
  refine (selectCc_done happ).andThen fun p₁ hd₁ hl₁ => ?_
  have hfile₁ : p₁.card.file = some p.card.data.ccDump := by rw [hl₁]; rfl
  rw [← hd₁] at hchunk
  refine (readBytes_done hfile₁ hchunk (show 0 + 2 ≤ 15 by decide) (by omega)
    (reachable_front hchunk (by decide))).andThen fun p₂ hd₂ hl₂ => ?_
  have hfile₂ : p₂.card.file = some p.card.data.ccDump := by rw [hl₂]; exact hfile₁
  have hlen : bytesToNumBe ((p.card.data.ccDump.drop 0).take 2) = 15 := rfl
  rw [← hd₂] at hchunk
  rw [hlen]
  refine (readBytes_done hfile₂ hchunk (show 0 + 15 ≤ 15 by decide) hfuel
    (reachable_front hchunk (by decide))).andThen fun p₃ hd₃ hl₃ => ?_
  have hall : (p.card.data.ccDump.drop 0).take 15 = p.card.data.ccDump := rfl
  have hdata : p₃.data = p.data := hd₃.trans (hd₂.trans hd₁)
  refine ⟨{ p₃ with data := learn p.card.data p.data }, ?_, rfl, hl₃.trans (hl₂.trans hl₁)⟩
  rw [hall]
  exact parseCc_eq (hdata ▸ ccParse_ccDump p.card.data p.data)

theorem readCc_fails {fuel : Nat} (happ : p.card.state.inApplication = true)
    (hchunk : p.data.readChunk = 0) : Fails (readCc c.card (fuel + 1)) p := by
  refine (selectCc_done happ).andThen_fails fun p₁ hd₁ hl₁ => ?_
  have hfile : p₁.card.file = some p.card.data.ccDump := by rw [hl₁]; rfl
  exact (readBytes_zero hfile (cons_ne_nil _ _) (hd₁ ▸ hchunk) (by decide) (by decide)).andThen

theorem selectNamed_done (happ : p.card.state.inApplication = true)
    (hfile : p.data.ndefFileId.toNat = p.card.data.fileId) :
    Done (isoSelectFile c.card p.data.ndefFileId.toNat) p () p.data { p.card with
      state := if p.card.data.fileId = 0xE103 then .selectedCapabilityContainer
        else .selectedNdefMessage } := by
  rw [hfile]
  by_cases hcc : p.card.data.fileId = 0xE103
  · rw [if_pos hcc, hcc]
    exact selectCc_done happ
  · rw [if_neg hcc]
    exact selectNdef_done happ (fileId_lt _) hcc

theorem length_image (payload : List Byte) : (PrefixedFile.image payload).length = 2 + payload.length := by
  rw [PrefixedFile.length_image, Nat.add_comm]

theorem bytesToNumBe_image {payload : List Byte} (h : payload.length < 65536) :
    bytesToNumBe (((image payload).drop 0).take 2) = payload.length := by
  have hbytes : ((image payload).drop 0).take 2 = numToBytesBe payload.length := by
    rw [Listener.numToBytesBe_eq]
    rfl
  rw [hbytes, bytesToNumBe_numToBytesBe h]

structure Readable (tag : Data) : Prop where
  named : tag.fileId ≠ 0xE103
  chunk : tag.readChunk ≠ 0
  reachable : tag.ndefData ≠ [] → Reachable tag.readChunk 2 tag.ndefData.length

theorem readMessage_done {fuel : Nat} (hstate : p.card.state = .selectedNdefMessage)
    (hchunk : p.data.readChunk ≠ 0) (hfuel : p.card.data.ndefData.length < fuel)
    (h : p.card.data.ndefData ≠ [] → Reachable p.data.readChunk 2 p.card.data.ndefData.length) :
    Done (readMessage c.card fuel p.card.data.ndefData.length) p () { p.data with
      ndefData := if p.card.data.ndefData = [] then p.data.ndefData else p.card.data.ndefData }
      p.card := by
  have hfile : p.card.file = some (image p.card.data.ndefData) := by
    rw [file, hstate]
  by_cases hempty : p.card.data.ndefData = []
  · refine ⟨p, ?_, ?_, rfl⟩
    · rw [readMessage, if_pos (length_eq_zero_iff.mpr hempty)]
    · rw [if_pos hempty]
  · have hlength : p.card.data.ndefData.length ≠ 0 := fun h => hempty (length_eq_zero_iff.mp h)
    obtain ⟨done, hdone, hiff, hread⟩ := @isoRead_file c _ p fuel 2 p.card.data.ndefData.length hfile
      hchunk (Nat.le_of_eq (length_image _).symm) hfuel
    have hnone := hiff.mpr (h hempty)
    obtain ⟨hbuffer, hdata, hcard⟩ := hread hnone
    have hall : ((image p.card.data.ndefData).drop 2).take p.card.data.ndefData.length =
        p.card.data.ndefData := take_length
    rw [hall] at hbuffer
    refine ⟨{ done.2.poller with data := { p.data with ndefData := p.card.data.ndefData } }, ?_, ?_,
      hcard⟩
    · rw [readMessage, if_neg hlength, hdone, map_some, hnone]
      dsimp only
      rw [hbuffer, Nat.sub_self, replicate_zero, append_nil, hdata]
    · rw [if_neg hempty]

theorem readMessage_fails {fuel : Nat} (hstate : p.card.state = .selectedNdefMessage)
    (hchunk : p.data.readChunk ≠ 0) (hfuel : p.card.data.ndefData.length < fuel)
    (hne : p.card.data.ndefData ≠ [])
    (h : ¬ Reachable p.data.readChunk 2 p.card.data.ndefData.length) :
    Fails (readMessage c.card fuel p.card.data.ndefData.length) p := by
  have hfile : p.card.file = some (image p.card.data.ndefData) := by
    rw [file, hstate]
  have hlength : p.card.data.ndefData.length ≠ 0 := fun h => hne (length_eq_zero_iff.mp h)
  obtain ⟨done, hdone, hiff, -⟩ := @isoRead_file c _ p fuel 2 p.card.data.ndefData.length hfile
    hchunk (Nat.le_of_eq (length_image _).symm) hfuel
  obtain ⟨e, he⟩ := ne_none_iff_exists'.mp fun hnone => h (hiff.mp hnone)
  refine ⟨e, { done.2.poller with data := { done.2.poller.data with
    ndefData := done.2.buffer ++
      List.replicate (p.card.data.ndefData.length - done.2.buffer.length) 0 } }, ?_⟩
  rw [readMessage, if_neg hlength, hdone, map_some, he]

def withMessage (l : Listener) (ndefData : List Byte) : Listener :=
  { l with data := { l.data with ndefData := ndefData } }

theorem writeStep_done {o n : Nat} {w : Writing Listener}
    (hstate : w.poller.card.state = .selectedNdefMessage) (hne : w.buffer.take n ≠ []) (hn : n ≤ 246)
    (ho : o < 32768) (hheader : o < 2 → o + n ≤ 2)
    (hmax : newLength w.poller.card.data.ndefData o (w.buffer.take n) ≤ w.poller.card.data.maxLen) :
    (writeStep c.card o n w).1 = none ∧ (writeStep c.card o n w).2.buffer = w.buffer.drop n ∧
      (writeStep c.card o n w).2.poller.data = w.poller.data ∧
      (writeStep c.card o n w).2.poller.card = withMessage w.poller.card
        (write w.poller.card.data.ndefData o (w.buffer.take n)) := by
  have hlen : (w.buffer.take n).length ≤ n := by
    rw [length_take]
    omega
  obtain ⟨p', htrx, hdata, hcard⟩ := @apduTrx_write c o w.poller (w.buffer.take n) hstate hne
    (by omega) ho (fun h => by have := hheader h; omega) hmax
  rw [writeStep, htrx]
  exact ⟨rfl, rfl, hdata, hcard⟩

theorem writeStep_refused {o n : Nat} {w : Writing Listener} (hn : n ≤ 246) (ho : o < 65536)
    (hheader : o < 2 → o + n ≤ 2)
    (h : w.buffer.take n = [] ∨ 32768 ≤ o ∨ w.poller.card.state ≠ .selectedNdefMessage ∨
      w.poller.card.data.maxLen < newLength w.poller.card.data.ndefData o (w.buffer.take n)) :
    ∃ e, (writeStep c.card o n w).1 = some e := by
  have hlen : (w.buffer.take n).length ≤ n := by
    rw [length_take]
    omega
  obtain ⟨e, p', htrx, -⟩ := @apduTrx_write_refused c o w.poller (w.buffer.take n) (by omega) ho
    (fun h => by have := hheader h; omega) h
  rw [writeStep, htrx]
  cases e <;> exact ⟨_, rfl⟩

theorem writeBytes_done_of {offset : Nat} {buffer : List Byte} {w : Writing Listener}
    (hlarge : ¬ TooLarge p.data.writeChunk offset buffer.length)
    (hrun : chunked (writeStep c.card) p.data.writeChunk fuel offset buffer.length ⟨p, buffer⟩ =
      some (none, w)) (hd : w.poller.data = d) (hl : w.poller.card = l) :
    Done (writeBytes c.card fuel offset buffer) p () d l := by
  refine ⟨w.poller, ?_, hd, hl⟩
  rw [writeBytes, Type4TagPoller.isoWrite, if_neg hlarge, hrun]
  rfl

theorem writeBytes_fails_of {offset : Nat} {buffer : List Byte} {e : PollerError}
    {w : Writing Listener}
    (hrun : Type4TagPoller.isoWrite c.card fuel offset buffer p = some (some e, w)) :
    Fails (writeBytes c.card fuel offset buffer) p := by
  refine ⟨e, w.poller, ?_⟩
  rw [writeBytes, hrun]
  rfl

theorem writeBytes_first_fails {offset : Nat} {buffer : List Byte} {e : PollerError}
    (hne : buffer ≠ [])
    (h : (writeStep c.card offset (min buffer.length p.data.writeChunk) ⟨p, buffer⟩).1 = some e) :
    Fails (writeBytes c.card (fuel + 1) offset buffer) p := by
  by_cases hlarge : TooLarge p.data.writeChunk offset buffer.length
  · exact writeBytes_fails_of (if_pos hlarge)
  · have hlength : buffer.length ≠ 0 := fun h => hne (length_eq_zero_iff.mp h)
    exact writeBytes_fails_of ((if_neg hlarge).trans (chunked_error hlength h))

theorem beNat_eq {hi lo : Byte} : beNat [hi, lo] = bytesToNumBe [hi, lo] := by
  rw [beNat_pair, bytesToNumBe_pair]

/-- The length that a file has while only the high byte of a length is written. -/
def lengthBetween (len newLen : Nat) : Nat := newLen / 256 * 256 + len % 256

theorem newLength_between {payload : List Byte} {n : Nat} {hi lo : Byte}
    (hnum : bytesToNumBe [hi, lo] = n) :
    newLength payload 0 [hi] = lengthBetween payload.length n := by
  have hlo := lo.toNat_lt
  rw [bytesToNumBe_pair] at hnum
  rw [newLength_high, beNat_pair, UInt8.toNat_ofNat', lengthBetween]
  omega

theorem writeLen_done {n : Nat} (hstate : p.card.state = .selectedNdefMessage)
    (hchunk : p.data.writeChunk ≠ 0) (hn : n < 65536) (hmax : n ≤ p.card.data.maxLen)
    (hbetween : p.data.writeChunk = 1 →
      lengthBetween p.card.data.ndefData.length n ≤ p.card.data.maxLen) :
    ∃ payload, payload.length = n ∧
      Done (writeBytes c.card (fuel + 3) 0 (numToBytesBe n)) p () p.data
        (withMessage p.card payload) := by
  obtain ⟨hi, lo, hbytes, hnum⟩ := Type4TagPoller.numToBytesBe_eq hn
  have hlarge : ¬ TooLarge p.data.writeChunk 0 [hi, lo].length :=
    Nat.not_lt.mpr (show 0 + 2 ≤ 32767 + p.data.writeChunk - 2 by omega)
  rw [hbytes]
  by_cases hone : p.data.writeChunk = 1
  · -- the high byte first, then the low one
    obtain ⟨hnone, hbuffer, hdata, hcard⟩ := @writeStep_done c 0 1 ⟨p, [hi, lo]⟩ hstate
      (cons_ne_nil _ _) (by decide) (by decide) (by decide)
      (Nat.le_trans (Nat.le_of_eq (newLength_between hnum)) (hbetween hone))
    have hhigh := (length_write (p := p.card.data.ndefData) (o := 0)
      (d := [hi])).trans (newLength_between hnum)
    let w := (writeStep c.card 0 1 ⟨p, [hi, lo]⟩).2
    have hlow : newLength w.poller.card.data.ndefData 1 [lo] = n := by
      have hlo := lo.toNat_lt
      have hhi := hi.toNat_lt
      have hdiv : lengthBetween p.card.data.ndefData.length n / 256 = hi.toNat := by
        rw [bytesToNumBe_pair] at hnum
        rw [lengthBetween]
        omega
      rw [show w.poller.card.data.ndefData = _ from congrArg (fun l => l.data.ndefData) hcard,
        newLength_low]
      change beNat [UInt8.ofNat ((write _ 0 [hi]).length / 256), lo] = n
      rw [hhigh, hdiv, UInt8.ofNat_toNat, beNat_eq, hnum]
    have hdrop : w.buffer = [lo] := hbuffer
    have hstate' : w.poller.card.state = .selectedNdefMessage :=
      (congrArg Listener.state hcard).trans hstate
    have hmax' : w.poller.card.data.maxLen = p.card.data.maxLen :=
      congrArg (fun l => l.data.maxLen) hcard
    obtain ⟨hnone', -, hdata', hcard'⟩ := @writeStep_done c 1 1 w hstate'
      (by rw [hdrop]; exact cons_ne_nil _ _) (by decide) (by decide) (by decide)
      (by rw [hdrop, hmax']; exact Nat.le_trans (Nat.le_of_eq hlow) hmax)
    rw [hdrop] at hcard'
    change _ = withMessage w.poller.card (write w.poller.card.data.ndefData 1 [lo]) at hcard'
    refine ⟨write w.poller.card.data.ndefData 1 [lo], ?_, writeBytes_done_of hlarge
      (w := (writeStep c.card 1 1 w).2) ?_ (hdata'.trans hdata) ?_⟩
    · rw [length_write, hlow]
    · have hfirst := @chunked_next _ _ (writeStep c.card) p.data.writeChunk (fuel + 2) 0 2
        ⟨p, [hi, lo]⟩ (by decide) (by rw [hone]; exact hnone)
      have hsecond := @chunked_next _ _ (writeStep c.card) 1 (fuel + 1) 1 1 w (by decide) hnone'
      rw [hone] at hfirst ⊢
      exact hfirst.trans (hsecond.trans chunked_zero)
    · rw [hcard', show w.poller.card = withMessage p.card _ from hcard]
      rfl
  · have hmin : min [hi, lo].length p.data.writeChunk = 2 := by
      change min 2 p.data.writeChunk = 2
      omega
    obtain ⟨hnone, hbuffer, hdata, hcard⟩ := @writeStep_done c 0 2 ⟨p, [hi, lo]⟩ hstate
      (cons_ne_nil _ _) (by decide) (by decide) (by decide)
      (Nat.le_trans (Nat.le_of_eq ((newLength_both hi lo).trans (beNat_eq.trans hnum))) hmax)
    refine ⟨write p.card.data.ndefData 0 [hi, lo], ?_, writeBytes_done_of hlarge
      (w := (writeStep c.card 0 2 ⟨p, [hi, lo]⟩).2) ?_ hdata hcard⟩
    · rw [length_write, newLength_both, beNat_eq, hnum]
    · rw [chunked_next (cons_ne_nil _ _ ∘ length_eq_zero_iff.mp) (by rw [hmin]; exact hnone),
        hmin]
      exact chunked_zero

theorem writeLen_fails {n : Nat} (hn : n < 65536)
    (h : p.data.writeChunk = 0 ∨ p.card.state ≠ .selectedNdefMessage ∨ (p.data.writeChunk = 1 ∧
      p.card.data.maxLen < lengthBetween p.card.data.ndefData.length n)) :
    Fails (writeBytes c.card (fuel + 1) 0 (numToBytesBe n)) p := by
  obtain ⟨hi, lo, hbytes, hnum⟩ := Type4TagPoller.numToBytesBe_eq hn
  rw [hbytes]
  have hmin : min [hi, lo].length p.data.writeChunk ≤ 2 := Nat.min_le_left 2 _
  obtain ⟨e, he⟩ := @writeStep_refused c 0 (min [hi, lo].length p.data.writeChunk) ⟨p, [hi, lo]⟩
    (by omega) (by decide) (fun _ => by omega) (by
      rcases h with h | h | ⟨hone, h⟩
      · rw [h]
        exact .inl rfl
      · exact .inr (.inr (.inl h))
      · rw [hone]
        refine .inr (.inr (.inr ?_))
        exact Nat.lt_of_lt_of_eq h (newLength_between hnum).symm)
  exact writeBytes_first_fails (cons_ne_nil _ _) he

/-- A message is written over another one of its length exactly if its chunks are reachable. -/
theorem writeMessage_spec {message : List Byte} (hstate : p.card.state = .selectedNdefMessage)
    (hchunk : p.data.writeChunk ≠ 0) (hlength : p.card.data.ndefData.length = message.length)
    (hmax : message.length ≤ p.card.data.maxLen) (hfuel : message.length < fuel) :
    (Reachable p.data.writeChunk 2 message.length →
      Done (writeBytes c.card fuel 2 message) p () p.data (withMessage p.card message)) ∧
    (¬ Reachable p.data.writeChunk 2 message.length →
      Fails (writeBytes c.card fuel 2 message) p) := by
  by_cases hlarge : TooLarge p.data.writeChunk 2 message.length
  · refine ⟨fun h => absurd hlarge h.1, fun _ => writeBytes_fails_of (if_pos hlarge)⟩
  have hle := Nat.le_of_not_lt hlarge
  have hchunkMax := writeChunk_le p.data
  let reached : Nat → Writing Listener → Prop := fun o w => 2 ≤ o ∧ w.poller.data = p.data ∧
    w.buffer = message.drop (o - 2) ∧ w.poller.card = withMessage p.card
      (message.take (o - 2) ++ p.card.data.ndefData.drop (o - 2))
  have hstep : ∀ o n w, reached o w → 0 < n → n ≤ p.data.writeChunk → o + n ≤ 2 + message.length →
      (o < 32768 → (writeStep c.card o n w).1 = none ∧ reached (o + n) (writeStep c.card o n w).2) ∧
        (¬ o < 32768 → (writeStep c.card o n w).1 ≠ none) := by
    rintro o n w ⟨hfirst, hdata, hbuffer, hcard⟩ hpos hn hlast
    constructor
    · intro hlow
      have hpayload : w.poller.card.data.ndefData =
          message.take (o - 2) ++ p.card.data.ndefData.drop (o - 2) :=
        congrArg (fun l => l.data.ndefData) hcard
      have htake : (message.take (o - 2)).length = o - 2 := by
        rw [length_take]
        omega
      have hlen : (w.poller.card.data.ndefData).length = message.length := by
        rw [hpayload, length_append, htake, length_drop]
        omega
      have hbytes : (w.buffer.take n).length = n := by
        rw [hbuffer, length_take, length_drop]
        omega
      have hinside : o + (w.buffer.take n).length ≤ 2 + w.poller.card.data.ndefData.length := by
        omega
      obtain ⟨hnone, hbuffer', hdata', hcard'⟩ := @writeStep_done c o n w
        ((congrArg Listener.state hcard).trans hstate)
        (ne_nil_of_length_pos (by omega)) (by omega) hlow (fun h => by omega) (by
          rw [newLength_inside hfirst hinside, hlen,
            show w.poller.card.data.maxLen = p.card.data.maxLen from
              congrArg (fun l => l.data.maxLen) hcard]
          exact hmax)
      refine ⟨hnone, by omega, hdata'.trans hdata, ?_, ?_⟩
      · rw [hbuffer', hbuffer, drop_drop]
        congr 1
        omega
      · have hnext := @write_next message p.card.data.ndefData (o - 2) n hlength (by omega)
        rw [Nat.sub_add_cancel hfirst] at hnext
        rw [hcard', hpayload, hbuffer, hnext, hcard, show o + n - 2 = (o - 2) + n by omega]
        rfl
    · intro hhigh
      obtain ⟨e, he⟩ := @writeStep_refused c o n w (by omega) (by omega) (fun h => by omega)
        (.inr (.inl (Nat.le_of_not_lt hhigh)))
      rw [he]
      exact some_ne_none e
  obtain ⟨done, hdone, hiff, hreached⟩ := @chunked_spec _ _ (writeStep c.card) p.data.writeChunk fuel
    2 message.length ⟨p, message⟩ reached (· < 32768) (2 + message.length) hchunk hstep hfuel
    (Nat.le_refl _) ⟨Nat.le_refl _, rfl, rfl, rfl⟩
  constructor
  · intro h
    have hnone := hiff.mpr h.2
    obtain ⟨-, hdata, -, hcard⟩ := hreached hnone
    refine writeBytes_done_of hlarge (w := done.2) (hdone.trans (congrArg some (Prod.ext hnone rfl)))
      hdata (hcard.trans ?_)
    rw [Nat.add_sub_cancel_left, take_length, ← hlength, drop_length, append_nil]
  · intro h
    obtain ⟨e, he⟩ := ne_none_iff_exists'.mp fun hnone => h ⟨hlarge, hiff.mp hnone⟩
    exact writeBytes_fails_of (w := done.2)
      ((if_neg hlarge).trans (hdone.trans (congrArg some (Prod.ext he rfl))))

structure Writable (tag : Data) (message : List Byte) : Prop where
  named : tag.fileId ≠ 0xE103
  chunk : tag.writeChunk ≠ 0
  between : tag.writeChunk = 1 → lengthBetween tag.ndefData.length message.length ≤ tag.maxLen
  reachable : message ≠ [] → Reachable tag.writeChunk 2 message.length

theorem maxLen_lt (tag : Data) : tag.maxLen < 65536 := by
  rw [Data.maxLen]
  split
  · exact tag.ndefMaxLen.toNat_lt
  · decide

section Message
variable {message : List Byte}

theorem writeNdef_done (happ : p.card.state.inApplication = true)
    (hlearnt : Learnt p.card.data d p.data) (hmessage : d.ndefData = message)
    (hmax : message.length ≤ p.card.data.maxLen) (hfuel : 65536 ≤ fuel)
    (h : Writable p.card.data message) :
    Done (writeNdef c.card fuel) p () p.data
      { withMessage p.card message with state := .selectedNdefMessage } := by
  have hlt := maxLen_lt p.card.data
  have hcount : p.data.ndefData.length % 65536 = message.length := by
    rw [hlearnt.ndefData, hmessage]
    exact Nat.mod_eq_of_lt (by omega)
  have hchunk : p.data.writeChunk ≠ 0 := hlearnt.writeChunk ▸ h.chunk
  obtain ⟨extra, rfl⟩ := Nat.exists_eq_add_of_le (show 3 ≤ fuel by omega)
  rw [Done, writeNdef, hcount]
  refine (selectNamed_done happ hlearnt.fileId).andThen fun p₁ hd₁ hl₁ => ?_
  rw [if_neg h.named] at hl₁
  have hstate₁ : p₁.card.state = .selectedNdefMessage := by rw [hl₁]
  have htag₁ : p₁.card.data = p.card.data := by rw [hl₁]
  obtain ⟨payload, hlength, hdone⟩ := @writeLen_done c p₁ extra message.length hstate₁
    (hd₁ ▸ hchunk) (by omega) (htag₁ ▸ hmax) (fun hone => by
      rw [hd₁, hlearnt.writeChunk] at hone
      rw [htag₁]
      exact h.between hone)
  rw [Nat.add_comm 3 extra]
  refine hdone.andThen fun p₂ hd₂ hl₂ => ?_
  have hdata : p₂.data = p.data := hd₂.trans hd₁
  have hcard : p₂.card = { withMessage p.card payload with state := .selectedNdefMessage } := by
    rw [hl₂, hl₁]
    rfl
  by_cases hempty : message = []
  · subst hempty
    obtain rfl := length_eq_zero_iff.mp hlength
    rw [if_pos length_nil]
    exact ⟨p₂, rfl, hdata, hcard⟩
  · rw [if_neg fun h => hempty (length_eq_zero_iff.mp h)]
    have hbytes : p.data.ndefData.take message.length = message := by
      rw [hlearnt.ndefData, hmessage, take_length]
    have hspec := (@writeMessage_spec c p₂ (extra + 3) message (by rw [hcard]) (hdata ▸ hchunk)
      (by rw [hcard]; exact hlength) (by rw [hcard]; exact hmax) (by omega)).1
    rw [hdata, hlearnt.writeChunk, hcard] at hspec
    rw [hbytes]
    exact hspec (h.reachable hempty)

theorem writeNdef_fails (happ : p.card.state.inApplication = true)
    (hlearnt : Learnt p.card.data d p.data) (hmessage : d.ndefData = message)
    (hmax : message.length ≤ p.card.data.maxLen) (hfuel : 65536 ≤ fuel)
    (h : ¬ Writable p.card.data message) : Fails (writeNdef c.card fuel) p := by
  have hlt := maxLen_lt p.card.data
  have hcount : p.data.ndefData.length % 65536 = message.length := by
    rw [hlearnt.ndefData, hmessage]
    exact Nat.mod_eq_of_lt (by omega)
  obtain ⟨extra, rfl⟩ := Nat.exists_eq_add_of_le (show 3 ≤ fuel by omega)
  rw [Fails, writeNdef, hcount]
  refine (selectNamed_done happ hlearnt.fileId).andThen_fails fun p₁ hd₁ hl₁ => ?_
  have htag₁ : p₁.card.data = p.card.data := by rw [hl₁]
  by_cases hlen : p₁.data.writeChunk = 0 ∨ p₁.card.state ≠ .selectedNdefMessage ∨
      (p₁.data.writeChunk = 1 ∧
        p₁.card.data.maxLen < lengthBetween p₁.card.data.ndefData.length message.length)
  · have hfails := @writeLen_fails c p₁ (extra + 2) message.length (by omega) hlen
    rw [Nat.add_comm 3 extra]
    exact hfails.andThen
  · -- what is left is that a chunk of the message is not reachable
    rw [not_or, not_or, not_not, not_and] at hlen
    obtain ⟨hchunk, hstate, hbetween⟩ := hlen
    have hnamed : p.card.data.fileId ≠ 0xE103 := by
      intro hcc
      rw [if_pos hcc] at hl₁
      rw [hl₁] at hstate
      exact absurd (show State.selectedCapabilityContainer = .selectedNdefMessage from hstate)
        (by decide)
    obtain ⟨payload, hlength, hdone⟩ := @writeLen_done c p₁ extra message.length hstate hchunk
      (by omega) (htag₁ ▸ hmax) fun hone => Nat.le_of_not_lt (hbetween hone)
    rw [Nat.add_comm 3 extra]
    refine hdone.andThen_fails fun p₂ hd₂ hl₂ => ?_
    have hdata : p₂.data = p.data := hd₂.trans hd₁
    rw [hd₁] at hchunk
    have hunreachable : message ≠ [] ∧ ¬ Reachable p.card.data.writeChunk 2 message.length := by
      by_contra hnot
      rw [not_and, not_not] at hnot
      refine h ⟨hnamed, hlearnt.writeChunk ▸ hchunk, fun hone => ?_, hnot⟩
      have hone' : p₁.data.writeChunk = 1 := by rw [hd₁, hlearnt.writeChunk, hone]
      have := Nat.le_of_not_lt (hbetween hone')
      rwa [htag₁] at this
    obtain ⟨hne, hunreachable⟩ := hunreachable
    rw [if_neg fun h => hne (length_eq_zero_iff.mp h)]
    have hbytes : p.data.ndefData.take message.length = message := by
      rw [hlearnt.ndefData, hmessage, take_length]
    have htag₂ : p₂.card.data.maxLen = p.card.data.maxLen := by
      rw [hl₂, ← htag₁]
      rfl
    have hspec := (@writeMessage_spec c p₂ (extra + 3) message (by rw [hl₂]; exact hstate)
      (hdata ▸ hchunk) (by rw [hl₂]; exact hlength) (htag₂ ▸ hmax) (by omega)).2
    rw [hdata, hlearnt.writeChunk] at hspec
    rw [hbytes]
    exact hspec hunreachable

end Message

theorem readNdef_done (happ : p.card.state.inApplication = true)
    (hlearnt : Learnt p.card.data d p.data) (hlt : p.card.data.ndefData.length < 65536)
    (hfuel : 65536 ≤ fuel) (h : Readable p.card.data) :
    Done (readNdef c.card fuel) p () { p.data with
      ndefData := if p.card.data.ndefData = [] then d.ndefData else p.card.data.ndefData }
      { p.card with state := .selectedNdefMessage } := by
  have hchunk : p.data.readChunk ≠ 0 := hlearnt.readChunk ▸ h.chunk
  rw [Done, readNdef]
  refine (selectNamed_done happ hlearnt.fileId).andThen fun p₁ hd₁ hl₁ => ?_
  rw [if_neg h.named] at hl₁
  have hfile₁ : p₁.card.file = some (image p.card.data.ndefData) := by rw [hl₁]; rfl
  rw [← hd₁] at hchunk
  refine (readBytes_done hfile₁ hchunk (by rw [length_image]; omega) (by omega)
    (reachable_front hchunk (by decide))).andThen fun p₂ hd₂ hl₂ => ?_
  have hdata : p₂.data = p.data := hd₂.trans hd₁
  have hcard := hl₂.trans hl₁
  have htag : p₂.card.data = p.card.data := by rw [hcard]
  rw [bytesToNumBe_image hlt]
  have hread := @readMessage_done c p₂ fuel (by rw [hcard]) (hd₂ ▸ hchunk) (by rw [htag]; omega)
  rw [htag, hdata, hlearnt.readChunk, hlearnt.ndefData, hcard] at hread
  exact hread h.reachable

theorem readNdef_fails (happ : p.card.state.inApplication = true)
    (hlearnt : Learnt p.card.data d p.data) (hlt : p.card.data.ndefData.length < 65536)
    (hfuel : 65536 ≤ fuel) (hnamed : p.card.data.fileId ≠ 0xE103) (h : ¬ Readable p.card.data) :
    Fails (readNdef c.card fuel) p := by
  rw [Fails, readNdef]
  refine (selectNamed_done happ hlearnt.fileId).andThen_fails fun p₁ hd₁ hl₁ => ?_
  rw [if_neg hnamed] at hl₁
  have hfile₁ : p₁.card.file = some (image p.card.data.ndefData) := by rw [hl₁]; rfl
  have hchunk₁ : p₁.data.readChunk = p.card.data.readChunk := by rw [hd₁, hlearnt.readChunk]
  by_cases hchunk : p.card.data.readChunk = 0
  · obtain ⟨extra, rfl⟩ := Nat.exists_eq_add_of_le' (show 1 ≤ fuel by omega)
    exact (readBytes_zero hfile₁ (cons_ne_nil _ _) (hchunk₁.trans hchunk) (by decide)
      (by decide)).andThen
  · rw [← hchunk₁] at hchunk
    refine (readBytes_done hfile₁ hchunk (by rw [length_image]; omega) (by omega)
      (reachable_front hchunk (by decide))).andThen_fails fun p₂ hd₂ hl₂ => ?_
    have hcard := hl₂.trans hl₁
    have htag : p₂.card.data = p.card.data := by rw [hcard]
    have hunreachable : p.card.data.ndefData ≠ [] ∧
        ¬ Reachable p.card.data.readChunk 2 p.card.data.ndefData.length := by
      by_contra hnot
      rw [not_and, not_not] at hnot
      exact h ⟨hnamed, hchunk₁ ▸ hchunk, hnot⟩
    rw [bytesToNumBe_image hlt]
    have hread := @readMessage_fails c p₂ fuel (by rw [hcard]) (hd₂ ▸ hchunk) (by rw [htag]; omega)
    rw [htag, hd₂, hchunk₁] at hread
    exact hread hunreachable.1 hunreachable.2

theorem session_done {next : Unit → Session Listener Unit} (hchunk : p.data.readChunk ≠ 0)
    (hfuel : 65536 ≤ fuel)
    (hnext : ∀ p' : Type4TagPoller Listener, p'.data = learn p.card.data p.data →
      p'.card = { p.card with state := .selectedCapabilityContainer } → Done (next ()) p' () d l) :
    Done (Type4TagPoller.andThen (selectApp c.card) fun _ =>
      Type4TagPoller.andThen (readCc c.card fuel) next) p () d l := by
  refine selectApp_done.andThen fun p₁ hd₁ hl₁ => ?_
  refine (readCc_done (by rw [hl₁]; rfl) (hd₁ ▸ hchunk) (by omega)).andThen fun p₂ hd₂ hl₂ => ?_
  rw [hl₁] at hd₂ hl₂
  exact hnext p₂ (hd₁ ▸ hd₂) hl₂

theorem session_fails {next : Unit → Session Listener Unit} (hfuel : 65536 ≤ fuel)
    (hnext : p.data.readChunk ≠ 0 → ∀ p' : Type4TagPoller Listener,
      p'.data = learn p.card.data p.data →
      p'.card = { p.card with state := .selectedCapabilityContainer } → Fails (next ()) p') :
    Fails (Type4TagPoller.andThen (selectApp c.card) fun _ =>
      Type4TagPoller.andThen (readCc c.card fuel) next) p := by
  refine selectApp_done.andThen_fails fun p₁ hd₁ hl₁ => ?_
  have happ : p₁.card.state.inApplication = true := by rw [hl₁]; rfl
  by_cases hchunk : p.data.readChunk = 0
  · obtain ⟨extra, rfl⟩ := Nat.exists_eq_add_of_le' (show 1 ≤ fuel by omega)
    exact (readCc_fails happ (hd₁ ▸ hchunk)).andThen
  · refine (readCc_done happ (hd₁ ▸ hchunk) (by omega)).andThen_fails fun p₂ hd₂ hl₂ => ?_
    rw [hl₁] at hd₂ hl₂
    exact hnext hchunk p₂ (hd₁ ▸ hd₂) hl₂

/-- As many chunks as there are bytes are followed. -/
def sessionFuel : Nat := 65536

/-- The message that one poller writes is the one that another poller then reads, the tag having been
halted in between. -/
def RoundTrip (c : Channel) (writer reader : Data) (l : Listener) : Prop :=
  ∃ written : Type4TagPoller Listener,
    writeSession c.card sessionFuel ⟨writer, l, []⟩ = some (.ok (), written) ∧
    ∃ read : Type4TagPoller Listener,
      readSession c.card sessionFuel ⟨reader, { written.card with state := .idle }, []⟩ =
        some (.ok (), read) ∧ read.data.ndefData = writer.ndefData

/-- The condition for this. -/
structure Exchangeable (writer reader : Data) (l : Listener) : Prop where
  writerChunk : writer.readChunk ≠ 0
  readerChunk : reader.readChunk ≠ 0
  writable : Writable l.data writer.ndefData
  chunk : l.data.readChunk ≠ 0
  reachable : writer.ndefData ≠ [] → Reachable l.data.readChunk 2 writer.ndefData.length
  fresh : writer.ndefData = [] → reader.ndefData = []

theorem roundTrip_iff (c : Channel) (writer reader : Data) (l : Listener)
    (hmax : writer.ndefData.length ≤ l.data.maxLen) :
    RoundTrip c writer reader l ↔ Exchangeable writer reader l := by
  have hlt := maxLen_lt l.data
  by_cases hwrite : writer.readChunk ≠ 0 ∧ Writable l.data writer.ndefData
  swap
  · -- nothing is written
    have hfails : Fails (writeSession c.card sessionFuel) ⟨writer, l, []⟩ := by
      refine session_fails (Nat.le_refl _) fun hchunk p' hd hl => ?_
      rw [not_and] at hwrite
      have htag : p'.card.data = l.data := by rw [hl]
      exact writeNdef_fails (by rw [hl]; rfl) (by rw [hd, htag]; exact learnt_learn _ _) rfl
        (htag ▸ hmax) (Nat.le_refl _) (htag ▸ hwrite hchunk)
    refine iff_of_false ?_ fun h => hwrite ⟨h.writerChunk, h.writable⟩
    rintro ⟨written, hrun, -⟩
    exact hfails.not_done hrun
  obtain ⟨hchunk, hwritable⟩ := hwrite
  obtain ⟨written, hwritten, -, hcard⟩ : Done (writeSession c.card sessionFuel) ⟨writer, l, []⟩ ()
      (learn l.data writer)
      { withMessage l writer.ndefData with state := .selectedNdefMessage } := by
    refine session_done hchunk (Nat.le_refl _) fun p' hd hl => ?_
    have htag : p'.card.data = l.data := by rw [hl]
    have hdone := @writeNdef_done c p' writer sessionFuel writer.ndefData (by rw [hl]; rfl)
      (by rw [hd, htag]; exact learnt_learn _ _) rfl (htag ▸ hmax) (Nat.le_refl _)
      (htag ▸ hwritable)
    rw [hd, hl] at hdone
    exact hdone
  let tag : Listener := { withMessage l writer.ndefData with state := .idle }
  have htag : { written.card with state := .idle } = tag := by rw [hcard]
  have hnamed : tag.data.fileId ≠ 0xE103 := hwritable.named
  -- the message is on the tag, and the reader may or may not get at it
  by_cases hread : reader.readChunk ≠ 0 ∧ Readable tag.data
  · obtain ⟨hchunk', hreadable⟩ := hread
    obtain ⟨read, hread, hdata, -⟩ : Done (readSession c.card sessionFuel) ⟨reader, tag, []⟩ ()
        { learn tag.data reader with
          ndefData := if tag.data.ndefData = [] then reader.ndefData else tag.data.ndefData }
        { tag with state := .selectedNdefMessage } := by
      refine session_done hchunk' (Nat.le_refl _) fun p' hd hl => ?_
      have htag' : p'.card.data = tag.data := by rw [hl]
      have hdone := @readNdef_done c p' reader sessionFuel (by rw [hl]; rfl)
        (by rw [hd, htag']; exact learnt_learn _ _)
        (by rw [htag']; exact Nat.lt_of_le_of_lt hmax hlt) (Nat.le_refl _) (htag' ▸ hreadable)
      rw [hd, hl] at hdone
      exact hdone
    have hresult : read.data.ndefData = if writer.ndefData = [] then reader.ndefData
      else writer.ndefData := by rw [hdata]; rfl
    constructor
    · rintro ⟨written', hwritten', read', hread', heq⟩
      obtain ⟨-, rfl⟩ := Prod.mk.inj (some.inj (hwritten.symm.trans hwritten'))
      rw [htag] at hread'
      obtain ⟨-, rfl⟩ := Prod.mk.inj (some.inj (hread.symm.trans hread'))
      refine ⟨hchunk, hchunk', hwritable, hreadable.chunk, hreadable.reachable, fun hempty => ?_⟩
      rw [hresult, if_pos hempty, hempty] at heq
      exact heq
    · intro h
      refine ⟨written, hwritten, read, by rw [htag]; exact hread, ?_⟩
      rw [hresult]
      split
      next hempty => rw [h.fresh hempty, hempty]
      next => rfl
  · have hfails : Fails (readSession c.card sessionFuel) ⟨reader, tag, []⟩ := by
      refine session_fails (Nat.le_refl _) fun hchunk' p' hd hl => ?_
      rw [not_and] at hread
      have htag' : p'.card.data = tag.data := by rw [hl]
      exact readNdef_fails (by rw [hl]; rfl) (by rw [hd, htag']; exact learnt_learn _ _)
        (by rw [htag']; exact Nat.lt_of_le_of_lt hmax hlt) (Nat.le_refl _) (htag' ▸ hnamed)
        (htag' ▸ hread hchunk')
    refine iff_of_false ?_ fun h => hread ⟨h.readerChunk, hnamed, h.chunk, h.reachable⟩
    rintro ⟨written', hwritten', read', hread', -⟩
    obtain ⟨-, rfl⟩ := Prod.mk.inj (some.inj (hwritten.symm.trans hwritten'))
    rw [htag] at hread'
    exact hfails.not_done hread'

/-- A container is parsed inside of its bytes if and only if its TLVs are complete. Reading and
writing end in allowed chunks if and only if there is nothing, it is refused, or the chunks have a
byte and it ends before the limit. A message that fits is read back if and only if it is
exchangeable. -/
theorem type4TagPoller_iff (d : Data) : (∀ (memory : Nat → Byte) (len : Nat),
      Access.AllWithin len 0 (ccParse memory d len).1 ↔ TlvsComplete memory len) ∧
    (∀ offset length limit : Nat,
      (∀ (σ : Type) (card : Card σ) (s : σ), Bounded (ReadWithin d.readChunk offset limit)
        Reading.poller fun fuel => Type4TagPoller.isoRead card fuel offset length ⟨d, s, []⟩) ↔
      length = 0 ∨ TooLarge d.readChunk offset length ∨
        (d.readChunk ≠ 0 ∧ offset + length ≤ limit)) ∧
    (∀ (offset : Nat) (buffer : List Byte) (limit : Nat),
      (∀ (σ : Type) (card : Card σ) (s : σ), Bounded (WriteWithin d.writeChunk offset limit)
        Writing.poller fun fuel => Type4TagPoller.isoWrite card fuel offset buffer ⟨d, s, []⟩) ↔
      buffer = [] ∨ TooLarge d.writeChunk offset buffer.length ∨
        (d.writeChunk ≠ 0 ∧ offset + buffer.length ≤ limit)) ∧
    ∀ (c : Channel) (writer reader : Data) (l : Listener), writer.ndefData.length ≤ l.data.maxLen →
        (RoundTrip c writer reader l ↔ Exchangeable writer reader l) :=
  ⟨fun _ len => ccParse_within_iff d len, isoRead_bounded_iff d, isoWrite_bounded_iff d,
    roundTrip_iff⟩

/-- A channel whose buffer has been empty. -/
def plain : Channel where
  layer := { Layer.reset with pcbPrev := 0x02 }
  receive apdu :=
    { data := apdu.take 256 ++ List.replicate (256 - (apdu.take 256).length) 0
      size := (apdu.take 256).length
      length_data := by
        rw [length_append, length_replicate]
        exact Nat.add_sub_cancel' (length_take_le 256 apdu)
      size_le := length_take_le 256 apdu }
  bytes_receive := by
    intro apdu h
    change (apdu.take 256 ++ _).take (apdu.take 256).length = apdu
    rw [take_left, take_of_length_le h]

def freshData (message : List Byte) : Data := ⟨false, 0, 0, 0, 0, 0, 0, message⟩

/-- A message of three chunks, on a tag that holds another one. -/
theorem type4TagPoller_threeChunks : RoundTrip plain (freshData (replicate 600 0xAA)) (freshData [])
      ⟨freshData [1, 2, 3], .idle⟩ := by
  have hlength : (freshData (replicate 600 0xAA)).ndefData.length = 600 := length_replicate
  have hne : (freshData (replicate 600 0xAA)).ndefData ≠ [] := by
    intro hnil
    rw [hnil] at hlength
    cases hlength
  have hreach : Reachable 246 2 (freshData (replicate 600 0xAA)).ndefData.length := by
    rw [hlength]
    exact ⟨by decide, fun k hk => by omega⟩
  refine ((type4TagPoller_iff (freshData [])).2.2.2 plain _ (freshData [])
    ⟨freshData [1, 2, 3], .idle⟩ (Nat.le_trans (Nat.le_of_eq hlength) (by decide))).mpr ⟨by decide, by decide,
      ⟨by decide, by decide, fun h => ?_, fun _ => hreach⟩, by decide, fun _ => hreach, fun h => ?_⟩
  · exact absurd (show 246 = 1 from h) (by decide)
  · exact absurd h hne

/-- A container of 15 bytes whose last one begins the control of the NDEF file. -/
def cutContainer : List Byte :=
  [0x00, 0x0F, 0x20, 0x00, 0xF6, 0x00, 0xF6, 0x05, 0x05, 0x00, 0x00, 0x00, 0x00, 0x00, 0x04]

/-- The bytes behind it are read. -/
theorem cutContainer_read_outside : ¬ ∀ (memory : Nat → Byte) (data : Data) (len : Nat),
    Access.AllWithin len 0 (ccParse memory data len).1 := by
  intro h
  let memory : Nat → Byte := fun k => cutContainer.getD k 0
  have hcomplete := (ccParse_within_iff (freshData []) 15).mp (h memory (freshData []) 15)
    (by decide) rfl
  have htype : memory 7 ≠ 0x04 := by decide
  have hnext := ((complete_behindTlv (by decide) htype).mp hcomplete).2
  have hbehind : (behindTlv memory 7).2 = 14 := by decide
  rw [hbehind] at hnext
  cases hnext with
  | «over» h => exact absurd h (by decide)
  | fileCtrl _ hin => simp at hin
  | short htype => exact htype rfl
  | long htype => exact htype rfl

end Channel

end NikitaFirmware.Type4Tag
