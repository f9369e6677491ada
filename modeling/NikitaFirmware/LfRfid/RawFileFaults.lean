import NikitaFirmware.LfRfid.RawFile

/-!
# Faults of raw files

A file that is no sequence of buffers of pairs is given up at its first fault, unless the fault is
that a buffer ends within the second number of a pair.
-/

namespace NikitaFirmware.LfRfid
open Foundations Toolbox Option RawFileHeader

namespace RawFile

variable {content left after rest data : Bytes} {cap size : UInt32} {file : RawFile}

/-- Some call fails. The calls before it find pairs, none of them at the end of the file, and never
take more out of a buffer than there is. -/
def Fails (file : RawFile) : Prop :=
  ∃ pairs file' last, Finds file pairs file' ∧ file'.readPair = some (⟨false, none⟩, last)

theorem Ready.fails_or_endsInNumber {bad : Bytes}
    (h : Ready content cap file [] bad) (hne : bad ≠ [])
    (hfault : Fault cap bad) :
    Fails file ∨ EndsInNumber cap bad := by
  cases hfault with
  | nothing => exact absurd rfl hne
  | noBuffer hnone =>
    obtain ⟨last, hload⟩ := h.loadPair_noBuffer hnone false
    exact .inl ⟨[], file, last, .nil h.counter_le, by rw [h.readPair_more hne, hload]⟩
  | @remainder whole rest pairs after hwhole hrest hremainder hle =>
    have hdata : whole ++ rest ≠ [] := List.append_ne_nil_of_right_ne_nil whole hrest
    obtain ⟨other, hother, hread⟩ := h.readPair_stored hdata hle
    obtain ⟨behind, hfinds, hready⟩ := hother.finds_pairs hwhole
    rcases hready.readPair_remainder hrest hremainder with ⟨last, hlast⟩ |
      ⟨number, cut, -, -, rfl, hnumber, hcutne, hcut, -, -⟩
    · left
      by_cases hpairs : pairs = []
      · subst hpairs
        obtain rfl : other = behind := (Prod.mk.inj (some.inj hfinds.calls)).2
        exact ⟨[], file, last, .nil h.counter_le, by rw [hread, hlast]⟩
      · exact ⟨pairs, behind, last, hfinds.of_readPair h.counter_le hread hpairs, hlast⟩
    · exact .inr ⟨[], [], whole, pairs, number, cut, after, .nil, hwhole, hnumber, hcutne, hcut, hle,
        rfl⟩

theorem Ready.over_of_endsInNumber {body : Bytes} (h : Ready content cap file [] body)
    (hends : EndsInNumber cap body) :
    ∃ pairs pair file' last, Finds file pairs file' ∧
      file'.readPair = some (⟨false, some pair⟩, last) ∧
      last.bufferCounter = last.bufferSize.toNat + 1 := by
  obtain ⟨before, pairs, whole, wholePairs, number, cut, after, hbefore, hwhole, hnumber, hne, hcut,
    hle, rfl⟩ := hends
  obtain ⟨file₁, hfinds, hready⟩ := h.finds_holds hbefore
  have hrest : number ++ cut ≠ [] := List.append_ne_nil_of_left_ne_nil hnumber.ne_nil cut
  have hdata : whole ++ (number ++ cut) ≠ [] := List.append_ne_nil_of_right_ne_nil whole hrest
  obtain ⟨other, hother, hread⟩ := hready.readPair_stored hdata hle
  obtain ⟨file₂, hfinds', hready'⟩ := hother.finds_pairs hwhole
  have hover := varintPairUnpack_number_cut hnumber hne hcut
  have htake := hready'.takePair_eq
  rw [hover] at htake
  have hlast : file₂.readPair = some (⟨false, some (numberValue number, (varintUint32Unpack cut).1)⟩,
      { file₂ with bufferCounter := file₂.bufferCounter + ((number ++ cut).length + 1) }) := by
    rw [hready'.readPair_eq hrest, htake]
    rfl
  have hcounter : file₂.bufferCounter + ((number ++ cut).length + 1) =
      file₂.bufferSize.toNat + 1 := by
    have hlength := hready'.length_left
    have hle := hready'.counter_le
    have hpos := List.length_pos_of_ne_nil hrest
    omega
  by_cases hpairs : wholePairs = []
  · subst hpairs
    obtain rfl : other = file₂ := (Prod.mk.inj (some.inj hfinds'.calls)).2
    exact ⟨pairs, _, file₁, _, hfinds, hread.trans hlast, hcounter⟩
  · exact ⟨pairs ++ wholePairs, _, file₂, _,
      hfinds.trans (hfinds'.of_readPair hready.counter_le hread hpairs), hlast, hcounter⟩

variable {pairs : List (UInt32 × UInt32)}

theorem calls_snoc {read : PairRead} {file' last : RawFile}
    (h : Finds file pairs file') (hread : file'.readPair = some (read, last)) :
    calls (pairs.length + 1) file = some (pairs.map found ++ [read], last) := by
  rw [calls_add, h.calls, bind_some, calls_one, hread]
  rfl

theorem not_fails_of_over {pair : UInt32 × UInt32}
    {file' last : RawFile} (h : Finds file pairs file')
    (hread : file'.readPair = some (⟨false, some pair⟩, last))
    (hover : last.bufferCounter = last.bufferSize.toNat + 1) : ¬ Fails file := by
  rintro ⟨others, behind, end_, hothers, hfail⟩
  have hgood := calls_snoc h hread
  have hbad := calls_snoc hothers hfail
  by_cases hle : others.length ≤ pairs.length
  · -- the call that fails is one of those that do not
    obtain ⟨k, hk⟩ := Nat.exists_eq_add_of_le hle
    rw [hk, Nat.add_right_comm] at hgood
    obtain ⟨_, hfront⟩ := calls_of_add hgood
    have heq := (Prod.mk.inj (some.inj (hfront.symm.trans hbad))).1
    have hmem : (⟨false, none⟩ : PairRead) ∈ (pairs.map found ++ [⟨false, some pair⟩]) := by
      refine List.mem_of_mem_take (i := others.length + 1) ?_
      rw [heq]
      simp
    simp [found] at hmem
  · have hwithin := hothers.within (pairs.length + 1) (by omega) _ _ hgood
    omega

theorem stored_inj {a b x y : Bytes} (ha : a.length < 2 ^ 32) (hb : b.length < 2 ^ 32)
    (h : stored a ++ x = stored b ++ y) : a = b ∧ x = y := by
  rw [stored, stored, List.append_assoc, List.append_assoc] at h
  obtain ⟨hsize, hrest⟩ := List.append_inj h rfl
  have hword := congrArg wordOfBytes hsize
  rw [wordOfBytes_wordBytes, wordOfBytes_wordBytes] at hword
  have hlength := congrArg UInt32.toNat hword
  rw [UInt32.toNat_ofNat', UInt32.toNat_ofNat', Nat.mod_eq_of_lt ha, Nat.mod_eq_of_lt hb] at hlength
  exact List.append_inj hrest hlength

theorem Holds.of_append {before behind : Bytes} {pairs all : List (UInt32 × UInt32)}
    (h : Holds cap before pairs) (hall : Holds cap (before ++ behind) all) :
    ∃ rest, Holds cap behind rest := by
  have hlt := cap.toNat_lt
  induction h generalizing all with
  | nil => exact ⟨all, hall⟩
  | @cons data after pairs rest _ _ hle _ ih =>
    generalize hbytes : stored data ++ after ++ behind = bytes at hall
    rw [List.append_assoc] at hbytes
    cases hall with
    | nil => exact absurd hbytes (stored_ne_nil _ _)
    | cons _ _ hle' hall' =>
      obtain ⟨-, hrest⟩ := stored_inj (by omega) (by omega) hbytes
      exact ih (hrest ▸ hall')

theorem Holds.append {before behind : Bytes} {pairs more : List (UInt32 × UInt32)}
    (h : Holds cap before pairs) (hmore : Holds cap behind more) :
    Holds cap (before ++ behind) (pairs ++ more) := by
  induction h with
  | nil => exact hmore
  | cons hpairs hne hle _ ih =>
    rw [List.append_assoc, List.append_assoc]
    exact .cons hpairs hne hle ih

theorem EndsInNumber.behind {before bad : Bytes}
    (hbefore : Holds cap before pairs) (h : EndsInNumber cap bad) :
    EndsInNumber cap (before ++ bad) := by
  obtain ⟨front, others, whole, wholePairs, number, cut, after, hfront, hwhole, hnumber, hne, hcut,
    hle, rfl⟩ := h
  exact ⟨before ++ front, pairs ++ others, whole, wholePairs, number, cut, after,
    hbefore.append hfront, hwhole, hnumber, hne, hcut, hle, (List.append_assoc _ _ _).symm⟩

theorem not_holds_of_endsInNumber {body : Bytes} (h : EndsInNumber cap body)
    (pairs : List (UInt32 × UInt32)) : ¬ Holds cap body pairs := by
  obtain ⟨before, others, whole, wholePairs, number, cut, after, hbefore, hwhole, hnumber, hne, hcut,
    hle, rfl⟩ := h
  intro hall
  have hlt := cap.toNat_lt
  obtain ⟨rest, hrest⟩ := hbefore.of_append hall
  generalize hbytes : stored (whole ++ (number ++ cut)) ++ after = bytes at hrest
  cases hrest with
  | nil => exact absurd hbytes (stored_ne_nil _ _)
  | cons hpairs _ hle' _ =>
    obtain ⟨hdata, -⟩ := stored_inj (by omega) (by omega) hbytes
    exact hwhole.not_numberCut hnumber hne hcut (hdata ▸ hpairs)

/-- The reader tells the pairs of a file again and again, and gives up a file without that form. -/
def ReadsRight (file : RawFile) (maxBufferSize : UInt32) (body : Bytes) : Prop :=
  (∀ pairs, Holds maxBufferSize body pairs → pairs ≠ [] → Cycles file pairs) ∧
    ((∀ pairs, ¬ Holds maxBufferSize body pairs) → Fails file)

theorem Ready.readsRight_iff {header body : Bytes} (h : Ready content cap file [] body)
    (hcontent : content = header ++ body) (hheader : header.length = byteSize) :
    ReadsRight file cap body ↔
      (∀ pairs, Holds cap body pairs → pairs ≠ [] → Rewinds content) ∧
        ¬ EndsInNumber cap body := by
  constructor
  · rintro ⟨hcycles, hfails⟩
    constructor
    · intro pairs hholds hne
      by_contra hrewinds
      rw [← List.append_nil body] at h
      obtain ⟨file₁, hfinds, hready⟩ := h.finds_holds hholds
      obtain ⟨last, hlost⟩ := hready.readPair_lost hrewinds
      obtain ⟨file₂, hturn⟩ := hcycles pairs hholds hne (pairs.length + 1)
      rw [calls_snoc hfinds hlost] at hturn
      have hreads := (Prod.mk.inj (some.inj hturn)).1
      rw [List.range_succ, List.map_append, List.map_singleton] at hreads
      have hlast := (List.append_inj' hreads rfl).2
      have hpos := List.length_pos_of_ne_nil hne
      have hpair := congrArg PairRead.pair (List.singleton_inj.mp hlast)
      rw [turn, Nat.mod_self, List.getElem?_eq_getElem hpos] at hpair
      exact some_ne_none _ hpair.symm
    · intro hends
      obtain ⟨pairs, pair, file', last, hfinds, hread, hover⟩ := h.over_of_endsInNumber hends
      exact not_fails_of_over hfinds hread hover (hfails (not_holds_of_endsInNumber hends))
  · rintro ⟨hrewinds, hends⟩
    constructor
    · intro pairs hholds hne
      exact h.cycles hcontent hheader (hrewinds pairs hholds hne) hholds hne
    · intro hnot
      obtain ⟨before, pairs, bad, rfl, hbefore, hbad⟩ := exists_holds cap body
      have hne : bad ≠ [] := by
        rintro rfl
        rw [List.append_nil] at hnot
        exact hnot pairs hbefore
      obtain ⟨file₁, hfinds, hready⟩ := h.finds_holds hbefore
      rcases hready.fails_or_endsInNumber hne hbad with hfails | hlate
      · obtain ⟨others, behind, last, hothers, hfail⟩ := hfails
        exact ⟨pairs ++ others, behind, last, hfinds.trans hothers, hfail⟩
      · exact absurd (hlate.behind hbefore) hends

def bodyOf (content : Bytes) : Bytes := content.drop byteSize

/-- The reader behind a header. -/
def started (content : Bytes) (maxBufferSize : UInt32) : RawFile where
  stream := (Cursor.mk [] content).advance byteSize
  maxBufferSize := maxBufferSize
  buffer := List.replicate maxBufferSize.toNat 0
  bufferSize := 0
  bufferCounter := 0

theorem readHeader_eq (content : Bytes) : (opened content).readHeader =
      if (content.take byteSize).length = byteSize then
        let header := ofBytes (content.take byteSize)
        if header.magic = rawFileMagic ∧ header.version = rawFileVersion then
          (some (header.frequency, header.dutyCycle), started content header.maxBufferSize)
        else (none, { opened content with
          stream := (Cursor.mk [] content).advance byteSize })
      else (none, { opened content with
        stream := (Cursor.mk [] content).advance byteSize }) := rfl

theorem ready_started (content : Bytes) (cap : UInt32) :
    Ready content cap (started content cap) [] (bodyOf content) where
  content := Cursor.content_advance _ _
  after := rfl
  maximum := rfl
  length := List.length_replicate
  size_le := UInt32.zero_le
  counter_le := Nat.le_refl 0
  left := rfl

theorem started_of_readHeader {values : UInt32 × UInt32}
    (h : (opened content).readHeader = (some values, file)) :
    byteSize ≤ content.length ∧ file = started content file.maxBufferSize := by
  rw [readHeader_eq] at h
  by_cases hlength : (content.take byteSize).length = byteSize
  · rw [if_pos hlength] at h
    rw [List.length_take] at hlength
    by_cases hmagic : (ofBytes (content.take byteSize)).magic = rawFileMagic ∧
      (ofBytes (content.take byteSize)).version = rawFileVersion
    · have hfile := (Prod.mk.inj ((if_pos hmagic).symm.trans h)).2
      exact ⟨by omega, hfile ▸ rfl⟩
    · have hvalues := (Prod.mk.inj ((if_neg hmagic).symm.trans h)).1
      exact absurd hvalues (some_ne_none _).symm
  · rw [if_neg hlength] at h
    exact absurd (Prod.mk.inj h).1 (some_ne_none _).symm

def bufferData : List (UInt32 × UInt32) → Option Bytes
  | [] => some []
  | pair :: pairs =>
    (pairData pair.1 pair.2).bind fun data => (bufferData pairs).map fun rest => data ++ rest

def recorded (frequency dutyCycle maxBufferSize : UInt32) (buffers : List Bytes) : Option Bytes :=
  (writeBuffers buffers ((opened []).writeHeader frequency dutyCycle maxBufferSize)).map
    fun file => file.stream.content

theorem bufferData_eq (pairs : List (UInt32 × UInt32)) : bufferData pairs =
      some (pairs.flatMap fun pair => varintBytes pair.1 ++ varintBytes pair.2) := by
  induction pairs with
  | nil => rfl
  | cons pair pairs ih =>
    rw [bufferData, pairData_eq, bind_some, ih, map_some, List.flatMap_cons]

theorem writeBuffers_eq (buffers : List Bytes) (written : Bytes) (hfile : file.stream = ⟨written, []⟩)
    (hne : ∀ data ∈ buffers, data ≠ []) :
    ∃ file', writeBuffers buffers file = some file' ∧
      file'.stream.content = written ++ buffers.flatMap stored := by
  induction buffers generalizing file written with
  | nil => exact ⟨file, rfl, by rw [hfile]; rfl⟩
  | cons data buffers ih =>
    obtain ⟨hdata, hbuffers⟩ := List.forall_mem_cons.mp hne
    let next : RawFile := { file with
      stream := (file.stream.write (wordBytes (UInt32.ofNat data.length))).write data }
    have hstream : next.stream = ⟨written ++ stored data, []⟩ := by
      change (file.stream.write (wordBytes (UInt32.ofNat data.length))).write data = _
      rw [hfile, Cursor.write_write, Cursor.write_at_end]
      rfl
    have hwrite : file.writeBuffer data = some next := by
      rw [writeBuffer, if_neg hdata]
    obtain ⟨file', hrest, hcontent⟩ := ih (written ++ stored data) hstream hbuffers
    refine ⟨file', ?_, ?_⟩
    · rw [writeBuffers, hwrite, bind_some, hrest]
    · rw [hcontent, List.flatMap_cons, List.append_assoc]

def Packed (maxBufferSize : UInt32) (buffers : List (List (UInt32 × UInt32) × Bytes)) : Prop :=
  ∀ buffer ∈ buffers, buffer.1 ≠ [] ∧ bufferData buffer.1 = some buffer.2 ∧
    buffer.2.length ≤ maxBufferSize.toNat

theorem Packed.holds {buffers : List (List (UInt32 × UInt32) × Bytes)}
    (h : Packed cap buffers) :
    Holds cap ((buffers.map Prod.snd).flatMap stored) (buffers.flatMap Prod.fst) ∧
      ∀ data ∈ buffers.map Prod.snd, data ≠ [] := by
  induction buffers with
  | nil => exact ⟨.nil, fun _ hmem => absurd hmem List.not_mem_nil⟩
  | cons buffer buffers ih =>
    obtain ⟨⟨hpairs, hdata, hle⟩, hrest⟩ := List.forall_mem_cons.mp h
    have hof := pairsOf_varintBytes buffer.1
    rw [bufferData_eq] at hdata
    rw [some.inj hdata] at hof
    have hne := hof.data_ne_nil hpairs
    obtain ⟨hall, hall'⟩ := ih hrest
    exact ⟨.cons hof hne hle hall, List.forall_mem_cons.mpr ⟨hne, hall'⟩⟩

theorem readHeader_append (header : RawFileHeader) (body : Bytes)
    (hmagic : header.magic = rawFileMagic) (hversion : header.version = rawFileVersion) :
    (opened (header.toBytes ++ body)).readHeader = (some (header.frequency, header.dutyCycle),
        started (header.toBytes ++ body) header.maxBufferSize) := by
  have htake : (header.toBytes ++ body).take byteSize = header.toBytes :=
    List.take_left' header.length_toBytes
  rw [readHeader_eq, htake, if_pos header.length_toBytes, ofBytes_toBytes]
  exact if_pos ⟨hmagic, hversion⟩

theorem bodyOf_append (header : RawFileHeader) (body : Bytes) :
    bodyOf (header.toBytes ++ body) = body :=
  List.drop_left' header.length_toBytes

def recordedHeader (frequency dutyCycle maxBufferSize : UInt32) : RawFileHeader :=
  ⟨rawFileMagic, rawFileVersion, frequency, dutyCycle, maxBufferSize⟩

theorem recorded_holds (frequency dutyCycle cap : UInt32)
    {buffers : List (List (UInt32 × UInt32) × Bytes)} (h : Packed cap buffers) :
    ∃ content, recorded frequency dutyCycle cap (buffers.map Prod.snd) = some content ∧
      (opened content).readHeader = (some (frequency, dutyCycle), started content cap) ∧
      Holds cap (bodyOf content) (buffers.flatMap Prod.fst) := by
  have hstream : ((opened []).writeHeader frequency dutyCycle cap).stream =
      ⟨(recordedHeader frequency dutyCycle cap).toBytes, []⟩ := by
    have hwrite : ((opened []).writeHeader frequency dutyCycle cap).stream =
        (Cursor.mk [] []).write (recordedHeader frequency dutyCycle cap).toBytes := rfl
    rw [hwrite, Cursor.write_at_end, List.nil_append]
  obtain ⟨file, hwrite, hcontent⟩ := writeBuffers_eq _ _ hstream h.holds.2
  refine ⟨(recordedHeader frequency dutyCycle cap).toBytes ++
    (buffers.map Prod.snd).flatMap stored, ?_, ?_, ?_⟩
  · rw [recorded, hwrite, map_some, hcontent]
  · exact readHeader_append (recordedHeader frequency dutyCycle cap) _ rfl rfl
  · rw [bodyOf_append]
    exact h.holds.1

/-- No buffer ends within the second number of a pair, and the search for the first one comes
through when there is one. -/
def Sound (maxBufferSize : UInt32) (content : Bytes) : Prop :=
  (∀ pairs, Holds maxBufferSize (bodyOf content) pairs → pairs ≠ [] → Rewinds content) ∧
    ¬ EndsInNumber maxBufferSize (bodyOf content)

theorem readsRight_started {values : UInt32 × UInt32}
    (h : (opened content).readHeader = (some values, file)) :
    ReadsRight file file.maxBufferSize (bodyOf content) ↔ Sound file.maxBufferSize content := by
  obtain ⟨hlength, hfile⟩ := started_of_readHeader h
  have hready := ready_started content file.maxBufferSize
  rw [← hfile] at hready
  exact hready.readsRight_iff (List.take_append_drop byteSize content).symm
    (List.length_take_of_le hlength)

/-- The file holds the buffers of pairs that are recorded. The pairs of a file with a header are told
again and again, and another file is given up within its buffers, if and only if no buffer ends
within a second number and the search for the first one comes through. -/
theorem rawFile_readsRight_iff (content : Bytes) (values : UInt32 × UInt32) (file : RawFile) :
    (∀ (frequency dutyCycle cap : UInt32)
        (buffers : List (List (UInt32 × UInt32) × Bytes)), Packed cap buffers →
      ∃ content, recorded frequency dutyCycle cap (buffers.map Prod.snd) = some content ∧
        (opened content).readHeader = (some (frequency, dutyCycle), started content cap) ∧
        Holds cap (bodyOf content) (buffers.flatMap Prod.fst)) ∧
    ((opened content).readHeader = (some values, file) →
      (ReadsRight file file.maxBufferSize (bodyOf content) ↔ Sound file.maxBufferSize content)) :=
  ⟨fun frequency dutyCycle cap _ h => recorded_holds frequency dutyCycle cap h,
    readsRight_started⟩

/-- A file with a header for buffers of 16 bytes, and a buffer that holds the bytes `01 80`. -/
def cutFile : Bytes :=
  [0x52, 0x49, 0x46, 0x4C, 1, 0, 0, 0, 0, 0, 0, 0, 0, 0, 0, 0, 16, 0, 0, 0, 2, 0, 0, 0, 0x01, 0x80]

theorem readHeader_cutFile : (opened cutFile).readHeader = (some (0, 0), started cutFile 16) := by
  decide

theorem rawFile_readsRight_iff_cutFile : (∃ content, recorded 0 0 16 [[3, 5]] = some content ∧
      (opened content).readHeader = (some (0, 0), started content 16) ∧
      Holds 16 (bodyOf content) [(3, 5)]) ∧
    (ReadsRight (started cutFile 16) 16 (bodyOf cutFile) ↔ Sound 16 cutFile) := by
  have hpacked : Packed 16 [([(3, 5)], [3, 5])] := by
    intro buffer hmem
    obtain rfl := List.mem_singleton.mp hmem
    refine ⟨by decide, ?_, by decide⟩
    rw [bufferData_eq]
    change some (varintBytes 3 ++ varintBytes 5 ++ []) = _
    rw [varintBytes_of_lt (by decide), varintBytes_of_lt (by decide)]
    rfl
  have hcut := rawFile_readsRight_iff cutFile (0, 0) (started cutFile 16)
  exact ⟨hcut.1 0 0 16 [([(3, 5)], [3, 5])] hpacked, hcut.2 readHeader_cutFile⟩

/-- The second number of the pair is cut off, and yet the file is not given up. -/
theorem cutFile_not_given_up : (opened cutFile).readHeader = (some (0, 0), started cutFile 16) ∧
      (∀ pairs, ¬ Holds 16 (bodyOf cutFile) pairs) ∧ ¬ Fails (started cutFile 16) := by
  have hends : EndsInNumber 16 (bodyOf cutFile) :=
    ⟨[], [], [], [], [0x01], [0x80], [], .nil, .nil, isNumber_singleton (by decide), by decide,
      List.forall_mem_singleton.mpr (by decide), by decide, by decide⟩
  obtain ⟨pairs, pair, file', last, hfinds, hread, hover⟩ :=
    (ready_started cutFile 16).over_of_endsInNumber hends
  exact ⟨readHeader_cutFile, not_holds_of_endsInNumber hends, not_fails_of_over hfinds hread hover⟩

end RawFile

end NikitaFirmware.LfRfid
