import NikitaFirmware.Emv.Application

/-!
# Tags, lengths and values

`lib/nfc/protocols/emv/emv_poller_i.c`: the header of a TLV, the walk over a response with the TLVs
inside of constructed ones, the walk over a record of the log along its format, and the values that
the terminal is asked for.

What is read is logged with the region it is read from: the bytes that are parsed for a header, the
bytes of its value for a value.
-/

namespace NikitaFirmware.Emv
open Foundations List Option

/-- Accesses relative to the start of a region. -/
structure RegionReads where
  start : Nat
  size : Nat
  reads : List Access

def RegionReads.Inside (r : RegionReads) : Prop := Access.AllWithin r.size 0 r.reads

/-- What `emv_parse_tag` stores. -/
structure Header where
  tag : Nat
  tlen : UInt8
  off : Nat
  deriving DecidableEq

section Parse
variable (buff : Nat → UInt8) (len : Nat)

def responseError : Bool := len == 2 && buff 0 >>> 4 == 6

/-- The second byte of an error is logged. -/
def responseErrorReads : List Access :=
  .read 0 1 :: if responseError buff len then [.read 1 1] else []

/-- The next value of a counter of eight bits. -/
def next (i : Nat) : Nat := (i + 1) % 256

/-- The end of `emv_parse_tag`: the length, and the offset behind it. -/
def parseLength (i : Nat) : List Access × Option (UInt8 × Nat) :=
  if len ≤ i then ([], none)
  else if buff i &&& 128 = 128 then
    if len ≤ next i then ([.read i 1], none)
    else ([.read i 1, .read (next i) 1], some (buff (next i), next (next i)))
  else ([.read i 1], some (buff i, next i))

/-- `emv_parse_tag`: what is read, and the header unless parsing fails. -/
def parseTag (off : Nat) : List Access × Option Header :=
  if len ≤ off then ([], none)
  else
    let reads := .read off 1 :: responseErrorReads buff len
    if responseError buff len then (reads, none)
    else if buff off &&& 31 = 31 then
      if len ≤ off + 1 then (reads, none)
      else
        let rest := parseLength buff len (next (next off))
        (reads ++ .read (off + 1) 1 :: rest.1, rest.2.map fun length =>
          ⟨(buff off).toNat * 256 + (buff (off + 1)).toNat, length.1, length.2⟩)
    else
      let rest := parseLength buff len (next off)
      (reads ++ rest.1, rest.2.map fun length => ⟨(buff off).toNat, length.1, length.2⟩)

end Parse

section Header
variable {buff : Nat → UInt8} {len : Nat}

theorem next_of_lt {i : Nat} (hlen : len ≤ 255) (h : i < len) : next i = i + 1 :=
  Nat.mod_eq_of_lt (by omega)

theorem read_one_within {i : Nat} (h : i < len) : (Access.read i 1).Within len 0 :=
  Access.read_within (by omega)

theorem responseErrorReads_within (h : 0 < len) :
    Access.AllWithin len 0 (responseErrorReads buff len) := by
  refine Access.allWithin_cons.mpr ⟨read_one_within h, ?_⟩
  split
  next herror =>
    have hlen : len = 2 := of_decide_eq_true (Bool.and_eq_true_iff.mp herror).1
    exact Access.allWithin_cons.mpr ⟨read_one_within (by omega), Access.allWithin_nil⟩
  next => exact Access.allWithin_nil

theorem parseLength_spec (hlen : len ≤ 255) (i : Nat) :
    Access.AllWithin len 0 (parseLength buff len i).1 ∧
      ∀ length, (parseLength buff len i).2 = some length → i < length.2 ∧ length.2 ≤ len := by
  rw [parseLength]
  split
  · exact ⟨Access.allWithin_nil, fun _ h => absurd h.symm (some_ne_none _)⟩
  next hi =>
    have hlt : i < len := Nat.lt_of_not_le hi
    have hnext := next_of_lt hlen hlt
    split
    · split
      · exact ⟨Access.allWithin_cons.mpr ⟨read_one_within hlt, Access.allWithin_nil⟩,
          fun _ h => absurd h.symm (some_ne_none _)⟩
      next hlong =>
        have hlt' : next i < len := Nat.lt_of_not_le hlong
        have hnext' := next_of_lt hlen hlt'
        refine ⟨Access.allWithin_cons.mpr ⟨read_one_within hlt,
          Access.allWithin_cons.mpr ⟨read_one_within hlt', Access.allWithin_nil⟩⟩, fun _ h => ?_⟩
        obtain rfl := some.inj h
        change i < next (next i) ∧ next (next i) ≤ len
        omega
    · refine ⟨Access.allWithin_cons.mpr ⟨read_one_within hlt, Access.allWithin_nil⟩, fun _ h => ?_⟩
      obtain rfl := some.inj h
      change i < next i ∧ next i ≤ len
      omega

theorem parseTag_spec (hlen : len ≤ 255) (off : Nat) :
    Access.AllWithin len 0 (parseTag buff len off).1 ∧
      ∀ header, (parseTag buff len off).2 = some header → off < header.off ∧ header.off ≤ len := by
  rw [parseTag]
  split
  · exact ⟨Access.allWithin_nil, fun _ h => absurd h.symm (some_ne_none _)⟩
  next hoff =>
    have hlt : off < len := Nat.lt_of_not_le hoff
    have hreads : Access.AllWithin len 0 (.read off 1 :: responseErrorReads buff len) :=
      Access.allWithin_cons.mpr ⟨read_one_within hlt, responseErrorReads_within (by omega)⟩
    have hnext := next_of_lt hlen hlt
    split
    · exact ⟨hreads, fun _ h => absurd h.symm (some_ne_none _)⟩
    · split
      · split
        · exact ⟨hreads, fun _ h => absurd h.symm (some_ne_none _)⟩
        next hlong =>
          obtain ⟨hlength, hbehind⟩ := @parseLength_spec buff len hlen (next (next off))
          have hnext' : next (next off) = off + 2 := by
            rw [hnext]
            exact next_of_lt hlen (by omega)
          refine ⟨Access.allWithin_append.mpr ⟨hreads,
            Access.allWithin_cons.mpr ⟨read_one_within (by omega), hlength⟩⟩, fun header h => ?_⟩
          obtain ⟨length, heq, rfl⟩ := map_eq_some_iff.mp h
          have := hbehind length heq
          change off < length.2 ∧ length.2 ≤ len
          omega
      · obtain ⟨hlength, hbehind⟩ := @parseLength_spec buff len hlen (next off)
        refine ⟨Access.allWithin_append.mpr ⟨hreads, hlength⟩, fun header h => ?_⟩
        obtain ⟨length, heq, rfl⟩ := map_eq_some_iff.mp h
        have := hbehind length heq
        change off < length.2 ∧ length.2 ≤ len
        omega

end Header

structure Tlv where
  start : Nat
  value : Nat
  tag : Nat
  tlen : UInt8
  constructed : Bool

/-- What a walk does: whether it succeeds, the record unless a write has left a field, what is read
for headers, and the TLVs that it comes to, each with what is read of its value. -/
structure Walk where
  success : Bool
  app : Option EmvApplication
  headers : List RegionReads
  items : List (Tlv × List Access)

section Response
variable (memory : Nat → UInt8)

def tlvAt (base i : Nat) (header : Header) : Tlv where
  start := base + i
  value := base + header.off
  tag := header.tag
  tlen := header.tlen
  constructed := memory (base + i) &&& 32 == 32

/-- The loop of `emv_decode_response_tlv` on the `len` bytes from `base` on. The counter has eight
bits, and stays below `len`. -/
def decodeLoop (base : Nat) (len : UInt8) (i : Nat) (success : Bool) (app : EmvApplication) : Walk :=
  if i < len.toNat then
    let reads : RegionReads :=
      ⟨base, len.toNat, (parseTag (fun k => memory (base + k)) len.toNat i).1⟩
    match _hparse : (parseTag (fun k => memory (base + k)) len.toNat i).2 with
    | none => ⟨false, some app, [reads], []⟩
    | some header =>
      if len.toNat < header.off + header.tlen.toNat then ⟨false, some app, [reads], []⟩
      else
        let tlv := tlvAt memory base i header
        if tlv.constructed then
          let inner := decodeLoop tlv.value header.tlen 0 false app
          match inner.app with
          | none => ⟨false, none, reads :: inner.headers, (tlv, []) :: inner.items⟩
          | some app =>
            let rest := decodeLoop base len (header.off + header.tlen.toNat) true app
            ⟨rest.success, rest.app, reads :: (inner.headers ++ rest.headers),
              (tlv, []) :: (inner.items ++ rest.items)⟩
        else
          let result := decodeTlvTag (fun k => memory (tlv.value + k)) header.tag header.tlen app
          match result.done with
          | none => ⟨false, none, [reads], [(tlv, result.reads)]⟩
          | some done =>
            let rest := decodeLoop base len (header.off + header.tlen.toNat) true done.2
            ⟨rest.success, rest.app, reads :: rest.headers, (tlv, result.reads) :: rest.items⟩
  else ⟨success, some app, [], []⟩
termination_by (len.toNat, len.toNat - i)
decreasing_by
  all_goals
    have hlen := len.toNat_lt
    have hbehind := (parseTag_spec (by omega) i).2 header _hparse
  · exact Prod.Lex.left _ _ (by omega)
  · exact Prod.Lex.right _ (by omega)
  · exact Prod.Lex.right _ (by omega)

def decodeResponseTlv (len : UInt8) (app : EmvApplication) : Walk :=
  decodeLoop memory 0 len 0 false app

/-- The TLVs of a response that a walk comes to. -/
def tlvsFrom (base : Nat) (len : UInt8) (i : Nat) : List Tlv :=
  if i < len.toNat then
    match _hparse : (parseTag (fun k => memory (base + k)) len.toNat i).2 with
    | none => []
    | some header =>
      if len.toNat < header.off + header.tlen.toNat then []
      else
        let tlv := tlvAt memory base i header
        let rest := tlvsFrom base len (header.off + header.tlen.toNat)
        if tlv.constructed then tlv :: (tlvsFrom tlv.value header.tlen 0 ++ rest) else tlv :: rest
  else []
termination_by (len.toNat, len.toNat - i)
decreasing_by
  all_goals
    have hlen := len.toNat_lt
    have hbehind := (parseTag_spec (by omega) i).2 header _hparse
  · exact Prod.Lex.right _ (by omega)
  · exact Prod.Lex.left _ _ (by omega)

/-- The TLVs cover a stretch of memory from its start on, each behind the one before it; those inside
of a constructed one cover its value. -/
inductive Tiles : Nat → Nat → List Tlv → Prop
  | nil (lo hi : Nat) : Tiles lo hi []
  | primitive {tlv : Tlv} {rest : List Tlv} {hi : Nat} (hvalue : tlv.start < tlv.value)
      (hend : tlv.value + tlv.tlen.toNat ≤ hi) (hkind : tlv.constructed = false)
      (hrest : Tiles (tlv.value + tlv.tlen.toNat) hi rest) : Tiles tlv.start hi (tlv :: rest)
  | constructed {tlv : Tlv} {inner rest : List Tlv} {hi : Nat} (hvalue : tlv.start < tlv.value)
      (hend : tlv.value + tlv.tlen.toNat ≤ hi) (hkind : tlv.constructed = true)
      (hinner : Tiles tlv.value (tlv.value + tlv.tlen.toNat) inner)
      (hrest : Tiles (tlv.value + tlv.tlen.toNat) hi rest) :
      Tiles tlv.start hi (tlv :: (inner ++ rest))

/-- The value is as long as what the record takes of it. -/
def Tlv.WideEnough (app : EmvApplication) (tlv : Tlv) : Prop :=
  tlv.constructed = false → tagWidth app tlv.tag ≤ tlv.tlen.toNat

/-- A walk over the bytes from `lo` to `hi`, of which those from `at` on are left. -/
structure Walk.Good (w : Walk) (lo at_ hi : Nat) (tlvs : List Tlv) (app : EmvApplication) : Prop where
  done : ∃ app', w.app = some app' ∧ Keeps app app'
  headers : ∀ r ∈ w.headers, r.Inside ∧ lo ≤ r.start ∧ r.start + r.size ≤ hi
  items : w.items.map Prod.fst = tlvs
  tiles : Tiles at_ hi tlvs
  reads : ∀ item ∈ w.items, Access.AllWithin item.1.tlen.toNat 0 item.2 ↔ item.1.WideEnough app

theorem parseTag_at (base : Nat) (len : UInt8) (i : Nat) :
    Access.AllWithin len.toNat 0 (parseTag (fun k => memory (base + k)) len.toNat i).1 ∧
      ∀ header, (parseTag (fun k => memory (base + k)) len.toNat i).2 = some header →
        i < header.off ∧ header.off ≤ len.toNat :=
  parseTag_spec (Nat.le_of_lt_succ len.toNat_lt) i

theorem tlvsFrom_of_none {base i : Nat} {len : UInt8}
    (hparse : (parseTag (fun k => memory (base + k)) len.toNat i).2 = none) :
    tlvsFrom memory base len i = [] := by
  rw [tlvsFrom]
  split
  · split
    · rfl
    next h => exact absurd (hparse.symm.trans h).symm (some_ne_none _)
  · rfl

theorem tlvsFrom_of_some {base i : Nat} {len : UInt8} {header : Header} (hi : i < len.toNat)
    (hparse : (parseTag (fun k => memory (base + k)) len.toNat i).2 = some header) :
    tlvsFrom memory base len i = if len.toNat < header.off + header.tlen.toNat then []
      else
        if (tlvAt memory base i header).constructed then
          tlvAt memory base i header ::
            (tlvsFrom memory (tlvAt memory base i header).value header.tlen 0 ++
              tlvsFrom memory base len (header.off + header.tlen.toNat))
        else
          tlvAt memory base i header ::
            tlvsFrom memory base len (header.off + header.tlen.toNat) := by
  rw [tlvsFrom, if_pos hi]
  split
  next h => exact absurd (hparse.symm.trans h) (some_ne_none _)
  next header' h =>
    obtain rfl := some.inj (h.symm.trans hparse)
    rfl

theorem good_of_stop {base i : Nat} {len : UInt8} {app : EmvApplication}
    (htlvs : tlvsFrom memory base len i = []) :
    Walk.Good ⟨false, some app, [⟨base, len.toNat,
      (parseTag (fun k => memory (base + k)) len.toNat i).1⟩], []⟩ base (base + i)
      (base + len.toNat) (tlvsFrom memory base len i) app where
  done := ⟨app, rfl, .refl app⟩
  headers := by
    intro r hr
    obtain rfl := mem_singleton.mp hr
    exact ⟨(parseTag_at memory base len i).1, Nat.le_refl _, Nat.le_refl _⟩
  items := htlvs.symm
  tiles := htlvs ▸ .nil _ _
  reads := fun _ h => absurd h not_mem_nil

theorem Walk.Good.cons {w rest : Walk} {base at_ i : Nat} {len : UInt8} {tlv : Tlv}
    {reads : RegionReads} {item : List Access} {restTlvs : List Tlv} {app app' : EmvApplication}
    (inner : Walk) (innerTlvs : List Tlv) (hreads : reads.Inside) (hstart : reads.start = base)
    (hsize : reads.size = len.toNat) (hheaders : w.headers = reads :: (inner.headers ++ rest.headers))
    (happ : w.app = rest.app) (hkeeps : Keeps app app')
    (hitems : w.items = (tlv, item) :: (inner.items ++ rest.items))
    (hinner : ∀ r ∈ inner.headers, r.Inside ∧ base ≤ r.start ∧ r.start + r.size ≤ base + len.toNat)
    (hinnerItems : inner.items.map Prod.fst = innerTlvs)
    (hinnerReads : ∀ item ∈ inner.items,
      Access.AllWithin item.1.tlen.toNat 0 item.2 ↔ item.1.WideEnough app)
    (hitem : Access.AllWithin tlv.tlen.toNat 0 item ↔ tlv.WideEnough app)
    (htiles : Tiles (base + i) (base + len.toNat) (tlv :: (innerTlvs ++ restTlvs)))
    (hrest : rest.Good base at_ (base + len.toNat) restTlvs app') :
    w.Good base (base + i) (base + len.toNat) (tlv :: (innerTlvs ++ restTlvs)) app where
  done := by
    obtain ⟨last, hlast, hkeep⟩ := hrest.done
    exact ⟨last, happ.trans hlast, hkeeps.trans hkeep⟩
  headers := by
    intro r hr
    rw [hheaders] at hr
    rcases mem_cons.mp hr with rfl | hr
    · rw [hstart, hsize]
      exact ⟨hreads, Nat.le_refl _, Nat.le_refl _⟩
    · exact (mem_append.mp hr).elim (hinner r) (hrest.headers r)
  items := by
    rw [hitems, map_cons, map_append, hinnerItems, hrest.items]
  tiles := htiles
  reads := by
    intro it hit
    rw [hitems] at hit
    rcases mem_cons.mp hit with rfl | hit
    · exact hitem
    · refine (mem_append.mp hit).elim (hinnerReads it) fun hmem => ?_
      rw [hrest.reads it hmem, Tlv.WideEnough, Tlv.WideEnough, hkeeps.tagWidth_eq]

/-- The walk writes inside the fields, reads headers inside of what it parses, and reads inside the
value of a TLV exactly when that is wide enough. -/
theorem decodeLoop_good (base : Nat) (len : UInt8) (i : Nat) (success : Bool) (app : EmvApplication) :
    (decodeLoop memory base len i success app).Good base (base + i) (base + len.toNat)
      (tlvsFrom memory base len i) app := by
  fun_induction decodeLoop memory base len i success app with
  | case1 base len i success app hi reads hparse =>
    exact good_of_stop memory (tlvsFrom_of_none memory hparse)
  | case2 base len i success app hi reads header hparse hlong =>
    refine good_of_stop memory ?_
    rw [tlvsFrom_of_some memory hi hparse, if_pos hlong]
  | case3 base len i success app hi reads header hparse hfits tlv hkind inner hnone ih =>
    obtain ⟨app', happ, -⟩ := ih.done
    exact absurd (happ.symm.trans hnone) (some_ne_none _)
  | case4 base len i success app hi reads header hparse hfits tlv hkind inner app' hsome rest ihInner
      ihRest =>
    obtain ⟨hinside, hbehind⟩ := parseTag_at memory base len i
    have hoff := hbehind header hparse
    rw [tlvsFrom_of_some memory hi hparse, if_neg hfits, if_pos hkind]
    obtain ⟨app'', happ, hkeeps⟩ := ihInner.done
    obtain rfl := some.inj (happ.symm.trans hsome)
    refine Walk.Good.cons inner _ (show reads.Inside from hinside) rfl rfl rfl rfl hkeeps rfl
      (fun r hr => ?_) ihInner.items ihInner.reads ?_ ?_ ihRest
    · obtain ⟨hr, hlow, hhigh⟩ := ihInner.headers r hr
      change base + header.off ≤ r.start at hlow
      change r.start + r.size ≤ base + header.off + header.tlen.toNat at hhigh
      exact ⟨hr, by omega, by omega⟩
    · exact iff_of_true Access.allWithin_nil fun h => absurd (hkind.symm.trans h) (by decide)
    · change Tiles tlv.start _ _
      refine Tiles.constructed ?_ ?_ hkind ihInner.tiles ?_
      · change base + i < base + header.off
        omega
      · change base + header.off + header.tlen.toNat ≤ base + len.toNat
        omega
      · change Tiles (base + header.off + header.tlen.toNat) _ _
        rw [Nat.add_assoc]
        exact ihRest.tiles
  | case5 base len i success app hi reads header hparse hfits tlv hkind result hnone =>
    have hgood : result.Good header.tlen.toNat (tagWidth app header.tag) app :=
      decodeTlvTag_good header.tag header.tlen
    obtain ⟨success', app', happ, -⟩ := hgood.done
    exact absurd (happ.symm.trans hnone) (some_ne_none _)
  | case6 base len i success app hi reads header hparse hfits tlv hkind result done hsome rest ih =>
    obtain ⟨hinside, hbehind⟩ := parseTag_at memory base len i
    have hoff := hbehind header hparse
    rw [tlvsFrom_of_some memory hi hparse, if_neg hfits, if_neg hkind]
    have hgood : result.Good header.tlen.toNat (tagWidth app header.tag) app :=
      decodeTlvTag_good header.tag header.tlen
    obtain ⟨success', app', happ, hkeeps⟩ := hgood.done
    obtain rfl := some.inj (happ.symm.trans hsome)
    have hkind' : tlv.constructed = false := Bool.eq_false_iff.mpr hkind
    -- a primitive TLV has no walk inside
    refine Walk.Good.cons ⟨true, none, [], []⟩ [] (show reads.Inside from hinside) rfl rfl rfl rfl
      hkeeps rfl (fun r hr => absurd hr not_mem_nil) rfl
      (fun it hit => absurd hit not_mem_nil) ?_ ?_ ih
    · rw [Tlv.WideEnough, imp_iff_right hkind']
      exact hgood.reads
    · change Tiles tlv.start _ _
      refine Tiles.primitive ?_ ?_ hkind' ?_
      · change base + i < base + header.off
        omega
      · change base + header.off + header.tlen.toNat ≤ base + len.toNat
        omega
      · change Tiles (base + header.off + header.tlen.toNat) _ _
        rw [Nat.add_assoc]
        exact ih.tiles
  | case7 base len i success app hi =>
    have htlvs : tlvsFrom memory base len i = [] := by rw [tlvsFrom, if_neg hi]
    rw [htlvs]
    exact ⟨⟨app, rfl, .refl app⟩, fun _ h => absurd h not_mem_nil, rfl, .nil _ _,
      fun _ h => absurd h not_mem_nil⟩

end Response

end NikitaFirmware.Emv
