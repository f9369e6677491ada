import NikitaFirmware.Emv.Tlv

/-!
# Records of the log

`emv_decode_tl` in `lib/nfc/protocols/emv/emv_poller_i.c`. The format of the log names tags and
lengths, the record holds the values one behind the other. The format that is walked along is the
one in the record of the application, which a value may replace.
-/

namespace NikitaFirmware.Emv
open Foundations List

/-- A value in a record of the log, and whether the format names another one behind it. -/
structure LogValue where
  value : Nat
  tag : Nat
  tlen : UInt8
  followed : Bool

/-- What the walk over a record does. -/
structure LogWalk where
  success : Bool
  app : Option EmvApplication
  headers : List (List Access)
  items : List (LogValue × List Access)

def EmvApplication.formatByte (app : EmvApplication) (k : Nat) : UInt8 := app.logFmt.cells.getD k 0

/-- The format names a value at an offset. -/
def EmvApplication.names (app : EmvApplication) (fmtLen : UInt8) (f : Nat) : Bool :=
  (parseTag app.formatByte fmtLen.toNat f).2.isSome

section Loop
variable (wrap : Nat → Nat) (memory : Nat → UInt8) (len : Nat) (fmtLen : UInt8)

/-- The loop of `emv_decode_tl`, with what the counter of the record does when it moves on. -/
def decodeTlLoop (f i : Nat) (success : Bool) (app : EmvApplication) : LogWalk :=
  if f < fmtLen.toNat ∧ i < len then
    let reads := (parseTag app.formatByte fmtLen.toNat f).1
    match _hparse : (parseTag app.formatByte fmtLen.toNat f).2 with
    | none => ⟨false, some app, [reads], []⟩
    | some header =>
      if len < i + header.tlen.toNat then ⟨false, some app, [reads], []⟩
      else
        let result := decodeTlvTag (fun k => memory (i + k)) header.tag header.tlen app
        match result.done with
        | none => ⟨false, none, [reads], [(⟨i, header.tag, header.tlen, false⟩, result.reads)]⟩
        | some done =>
          let value : LogValue := ⟨i, header.tag, header.tlen, done.2.names fmtLen header.off⟩
          let rest := decodeTlLoop header.off (wrap (i + header.tlen.toNat)) true done.2
          ⟨rest.success, rest.app, reads :: rest.headers, (value, result.reads) :: rest.items⟩
  else ⟨success, some app, [], []⟩
termination_by fmtLen.toNat - f
decreasing_by
  have hbehind := (parseTag_spec (Nat.le_of_lt_succ fmtLen.toNat_lt) f).2 header _hparse
  omega

end Loop

def decodeTl (memory : Nat → UInt8) (len : Nat) (app : EmvApplication) : LogWalk :=
  if responseError memory len then ⟨false, some app, [], []⟩
  else decodeTlLoop (· % 256) memory len app.logFmtLen 0 0 false app

/-- The values that the format announces for a record, each behind the one before it. -/
def announced (memory : Nat → UInt8) (len : Nat) (app : EmvApplication) : List LogValue :=
  if responseError memory len then []
  else (decodeTlLoop id memory len app.logFmtLen 0 0 false app).items.map Prod.fst

section Steps
variable {wrap : Nat → Nat} {memory : Nat → UInt8} {len : Nat} {fmtLen : UInt8} {f i : Nat}
  {success : Bool} {app : EmvApplication} {header : Header}

theorem decodeTlLoop_end (h : ¬ (f < fmtLen.toNat ∧ i < len)) :
    decodeTlLoop wrap memory len fmtLen f i success app = ⟨success, some app, [], []⟩ := by
  rw [decodeTlLoop, if_neg h]

theorem decodeTlLoop_none (h : f < fmtLen.toNat ∧ i < len)
    (hparse : (parseTag app.formatByte fmtLen.toNat f).2 = none) :
    decodeTlLoop wrap memory len fmtLen f i success app =
      ⟨false, some app, [(parseTag app.formatByte fmtLen.toNat f).1], []⟩ := by
  rw [decodeTlLoop, if_pos h]
  split
  · rfl
  next h' => exact absurd (hparse.symm.trans h').symm (Option.some_ne_none _)

theorem decodeTlLoop_long (h : f < fmtLen.toNat ∧ i < len)
    (hparse : (parseTag app.formatByte fmtLen.toNat f).2 = some header)
    (hlong : len < i + header.tlen.toNat) :
    decodeTlLoop wrap memory len fmtLen f i success app =
      ⟨false, some app, [(parseTag app.formatByte fmtLen.toNat f).1], []⟩ := by
  rw [decodeTlLoop, if_pos h]
  split
  · rfl
  next header' h' =>
    obtain rfl := Option.some.inj (h'.symm.trans hparse)
    rw [if_pos hlong]

theorem exists_decodeTlLoop_some (h : f < fmtLen.toNat ∧ i < len)
    (hparse : (parseTag app.formatByte fmtLen.toNat f).2 = some header)
    (hfits : i + header.tlen.toNat ≤ len) :
    ∃ reads app', Keeps app app' ∧
      (Access.AllWithin header.tlen.toNat 0 reads ↔ tagWidth app header.tag ≤ header.tlen.toNat) ∧
      ∀ wrap success, decodeTlLoop wrap memory len fmtLen f i success app =
        let rest := decodeTlLoop wrap memory len fmtLen header.off (wrap (i + header.tlen.toNat)) true
          app'
        ⟨rest.success, rest.app, (parseTag app.formatByte fmtLen.toNat f).1 :: rest.headers,
          (⟨i, header.tag, header.tlen, app'.names fmtLen header.off⟩, reads) :: rest.items⟩ := by
  have hgood : (decodeTlvTag (fun k => memory (i + k)) header.tag header.tlen app).Good
      header.tlen.toNat (tagWidth app header.tag) app := decodeTlvTag_good header.tag header.tlen
  obtain ⟨found, app', hdone, hkeeps⟩ := hgood.done
  refine ⟨_, app', hkeeps, hgood.reads, fun wrap success => ?_⟩
  rw [decodeTlLoop, if_pos h]
  split
  next h' => exact absurd (hparse.symm.trans h') (Option.some_ne_none _)
  next header' h' =>
    obtain rfl := Option.some.inj (h'.symm.trans hparse)
    rw [if_neg (Nat.not_lt.mpr hfits)]
    simp only [hdone]

theorem format_induction (fmtLen : UInt8) {motive : Nat → Prop}
    (step : ∀ f, (∀ f', f < f' → f < fmtLen.toNat → motive f') → motive f) (f : Nat) : motive f := by
  induction hn : fmtLen.toNat - f using Nat.strongRecOn generalizing f with
  | ind n ih => exact step f fun f' hlt hf => ih _ (by omega) f' rfl

/-- The values are one behind the other from a place on. -/
def Adjacent : Nat → List LogValue → Prop
  | _, [] => True
  | i, value :: values => value.value = i ∧ Adjacent (i + value.tlen.toNat) values

/-- The walk writes inside the fields, reads the format inside of its length, and reads inside of a
value exactly when that is wide enough. -/
structure LogWalk.Good (w : LogWalk) (fmtLen len : Nat) (app : EmvApplication) : Prop where
  done : ∃ app', w.app = some app' ∧ Keeps app app'
  headers : ∀ reads ∈ w.headers, Access.AllWithin fmtLen 0 reads
  values : ∀ item ∈ w.items, item.1.value + item.1.tlen.toNat ≤ len ∧
    (Access.AllWithin item.1.tlen.toNat 0 item.2 ↔ tagWidth app item.1.tag ≤ item.1.tlen.toNat)

theorem LogWalk.good_of_stop {reads : List (List Access)}
    (h : ∀ r ∈ reads, Access.AllWithin fmtLen.toNat 0 r) :
    LogWalk.Good ⟨success, some app, reads, []⟩ fmtLen.toNat len app where
  done := ⟨app, rfl, .refl app⟩
  headers := h
  values := fun _ hmem => absurd hmem not_mem_nil

theorem decodeTlLoop_good (f i : Nat) (success : Bool) (app : EmvApplication) :
    (decodeTlLoop wrap memory len fmtLen f i success app).Good fmtLen.toNat len app := by
  induction f using format_induction fmtLen generalizing i success app with
  | step f ih =>
    obtain ⟨hreads, hbehind⟩ :=
      @parseTag_spec app.formatByte fmtLen.toNat (Nat.le_of_lt_succ fmtLen.toNat_lt) f
    have hone : ∀ r ∈ [(parseTag app.formatByte fmtLen.toNat f).1],
        Access.AllWithin fmtLen.toNat 0 r := forall_mem_singleton.mpr hreads
    by_cases h : f < fmtLen.toNat ∧ i < len
    · cases hparse : (parseTag app.formatByte fmtLen.toNat f).2 with
      | none =>
        rw [decodeTlLoop_none h hparse]
        exact LogWalk.good_of_stop hone
      | some header =>
        by_cases hlong : len < i + header.tlen.toNat
        · rw [decodeTlLoop_long h hparse hlong]
          exact LogWalk.good_of_stop hone
        · have hfits := Nat.le_of_not_lt hlong
          obtain ⟨reads, app', hkeeps, hitem, hloop⟩ :=
            @exists_decodeTlLoop_some memory len fmtLen f i app header h hparse hfits
          have hrest := ih header.off (hbehind header hparse).1 h.1
            (wrap (i + header.tlen.toNat)) true app'
          rw [hloop]
          refine ⟨?_, forall_mem_cons.mpr ⟨hreads, hrest.headers⟩,
            forall_mem_cons.mpr ⟨⟨hfits, hitem⟩, fun item hmem => ?_⟩⟩
          · obtain ⟨last, hlast, hkeep⟩ := hrest.done
            exact ⟨last, hlast, hkeeps.trans hkeep⟩
          · rw [← hkeeps.tagWidth_eq]
            exact hrest.values item hmem
    · rw [decodeTlLoop_end h]
      exact LogWalk.good_of_stop fun _ hmem => absurd hmem not_mem_nil

theorem decodeTlLoop_id_adjacent (f i : Nat) (success : Bool) (app : EmvApplication) :
    Adjacent i ((decodeTlLoop id memory len fmtLen f i success app).items.map Prod.fst) := by
  induction f using format_induction fmtLen generalizing i success app with
  | step f ih =>
    obtain ⟨-, hbehind⟩ :=
      @parseTag_spec app.formatByte fmtLen.toNat (Nat.le_of_lt_succ fmtLen.toNat_lt) f
    by_cases h : f < fmtLen.toNat ∧ i < len
    · cases hparse : (parseTag app.formatByte fmtLen.toNat f).2 with
      | none => rw [decodeTlLoop_none h hparse]; trivial
      | some header =>
        by_cases hlong : len < i + header.tlen.toNat
        · rw [decodeTlLoop_long h hparse hlong]; trivial
        · obtain ⟨reads, app', -, -, hloop⟩ :=
            @exists_decodeTlLoop_some memory len fmtLen f i app header h hparse
              (Nat.le_of_not_lt hlong)
          rw [hloop]
          exact ⟨rfl, ih header.off (hbehind header hparse).1 h.1 _ true app'⟩
    · rw [decodeTlLoop_end h]; trivial

theorem items_of_not_names (h : app.names fmtLen f = false) :
    (decodeTlLoop wrap memory len fmtLen f i success app).items = [] := by
  by_cases hmore : f < fmtLen.toNat ∧ i < len
  · have hparse : (parseTag app.formatByte fmtLen.toNat f).2 = none :=
      Option.isNone_iff_eq_none.mp (Option.isSome_eq_false_iff.mp h)
    rw [decodeTlLoop_none hmore hparse]
  · rw [decodeTlLoop_end hmore]

/-- No value behind which the format names another one ends behind the first 255 bytes. -/
def Counted (values : List LogValue) : Prop :=
  ∀ value ∈ values, value.followed = true → value.value + value.tlen.toNat ≤ 255

theorem items_eq_of_counted (f i : Nat) (success : Bool) (app : EmvApplication)
    (h : Counted ((decodeTlLoop id memory len fmtLen f i success app).items.map Prod.fst)) :
    (decodeTlLoop (· % 256) memory len fmtLen f i success app).items =
      (decodeTlLoop id memory len fmtLen f i success app).items := by
  induction f using format_induction fmtLen generalizing i success app with
  | step f ih =>
    obtain ⟨-, hbehind⟩ :=
      @parseTag_spec app.formatByte fmtLen.toNat (Nat.le_of_lt_succ fmtLen.toNat_lt) f
    by_cases hmore : f < fmtLen.toNat ∧ i < len
    · cases hparse : (parseTag app.formatByte fmtLen.toNat f).2 with
      | none => rw [decodeTlLoop_none hmore hparse, decodeTlLoop_none hmore hparse]
      | some header =>
        by_cases hlong : len < i + header.tlen.toNat
        · rw [decodeTlLoop_long hmore hparse hlong, decodeTlLoop_long hmore hparse hlong]
        · obtain ⟨reads, app', -, -, hloop⟩ :=
            @exists_decodeTlLoop_some memory len fmtLen f i app header hmore hparse
              (Nat.le_of_not_lt hlong)
          rw [hloop] at h ⊢
          rw [hloop]
          obtain ⟨hvalue, hrest⟩ := forall_mem_cons.mp h
          refine congrArg (_ :: ·) ?_
          cases hnames : app'.names fmtLen header.off with
          | false => rw [items_of_not_names hnames, items_of_not_names hnames]
          | true =>
            have hend : i + header.tlen.toNat ≤ 255 := hvalue hnames
            have hwrap : (i + header.tlen.toNat) % 256 = i + header.tlen.toNat :=
              Nat.mod_eq_of_lt (by omega)
            change (decodeTlLoop _ _ _ _ _ ((i + header.tlen.toNat) % 256) _ _).items = _
            rw [hwrap]
            exact ih header.off (hbehind header hparse).1 hmore.1 _ true app' hrest
    · rw [decodeTlLoop_end hmore, decodeTlLoop_end hmore]

theorem not_adjacent_of_wrap {place : Nat} (hplace : 255 < place) (hlen : place ≤ len)
    (hnames : app.names fmtLen f = true) :
    ¬ Adjacent place
      ((decodeTlLoop (· % 256) memory len fmtLen f (place % 256) success app).items.map
        Prod.fst) := by
  obtain ⟨header, hparse⟩ := Option.isSome_iff_exists.mp hnames
  have hlt := header.tlen.toNat_lt
  have hback : place % 256 + 256 ≤ place := by omega
  obtain ⟨-, hbehind⟩ :=
    @parseTag_spec app.formatByte fmtLen.toNat (Nat.le_of_lt_succ fmtLen.toNat_lt) f
  have hmore : f < fmtLen.toNat ∧ place % 256 < len := by
    have := hbehind header hparse
    omega
  obtain ⟨reads, app', -, -, hloop⟩ :=
    @exists_decodeTlLoop_some memory len fmtLen f (place % 256) app header hmore hparse (by omega)
  rw [hloop]
  rintro ⟨hvalue, -⟩
  change place % 256 = place at hvalue
  omega

theorem counted_of_adjacent (f i : Nat) (success : Bool) (app : EmvApplication) (h : Adjacent i
      ((decodeTlLoop (· % 256) memory len fmtLen f i success app).items.map Prod.fst)) :
    Counted ((decodeTlLoop id memory len fmtLen f i success app).items.map Prod.fst) := by
  induction f using format_induction fmtLen generalizing i success app with
  | step f ih =>
    obtain ⟨-, hbehind⟩ :=
      @parseTag_spec app.formatByte fmtLen.toNat (Nat.le_of_lt_succ fmtLen.toNat_lt) f
    have hnil : Counted [] := fun _ hmem => absurd hmem not_mem_nil
    by_cases hmore : f < fmtLen.toNat ∧ i < len
    · cases hparse : (parseTag app.formatByte fmtLen.toNat f).2 with
      | none =>
        rw [decodeTlLoop_none hmore hparse]
        exact hnil
      | some header =>
        by_cases hlong : len < i + header.tlen.toNat
        · rw [decodeTlLoop_long hmore hparse hlong]
          exact hnil
        · have hfits := Nat.le_of_not_lt hlong
          obtain ⟨reads, app', -, -, hloop⟩ :=
            @exists_decodeTlLoop_some memory len fmtLen f i app header hmore hparse hfits
          rw [hloop] at h ⊢
          obtain ⟨-, hrest⟩ := h
          cases hnames : app'.names fmtLen header.off with
          | false =>
            refine forall_mem_cons.mpr ⟨fun hfollowed => absurd hfollowed ?_, ?_⟩
            · exact Bool.false_ne_true
            · rw [items_of_not_names hnames]
              exact hnil
          | true =>
            have hend : i + header.tlen.toNat ≤ 255 := by
              by_contra hbig
              exact not_adjacent_of_wrap (Nat.lt_of_not_le hbig) hfits hnames hrest
            have hwrap : (i + header.tlen.toNat) % 256 = i + header.tlen.toNat :=
              Nat.mod_eq_of_lt (by omega)
            refine forall_mem_cons.mpr ⟨fun _ => hend, ?_⟩
            change Adjacent _ ((decodeTlLoop _ _ _ _ _ ((i + header.tlen.toNat) % 256) _
              _).items.map Prod.fst) at hrest
            rw [hwrap] at hrest
            exact ih header.off (hbehind header hparse).1 hmore.1 _ true app' hrest
    · rw [decodeTlLoop_end hmore]
      exact hnil

end Steps

/-- Decoding a record reads inside of it and inside of the values that it takes, one behind the
other. -/
def RecordInBounds (memory : Nat → UInt8) (len : Nat) (app : EmvApplication) : Prop :=
  Access.AllWithin len 0 (responseErrorReads memory len) ∧
    Adjacent 0 ((decodeTl memory len app).items.map Prod.fst) ∧
    ∀ item ∈ (decodeTl memory len app).items, Access.AllWithin item.1.tlen.toNat 0 item.2

theorem responseErrorReads_within_iff (memory : Nat → UInt8) (len : Nat) :
    Access.AllWithin len 0 (responseErrorReads memory len) ↔ len ≠ 0 := by
  constructor
  · intro h hzero
    have hread := (Access.allWithin_cons.mp h).1
    rw [Access.read_within_iff, hzero] at hread
    omega
  · exact fun h => responseErrorReads_within (Nat.pos_of_ne_zero h)

theorem decodeTl_good (memory : Nat → UInt8) (len : Nat) (app : EmvApplication) :
    (decodeTl memory len app).Good app.logFmtLen.toNat len app := by
  rw [decodeTl]
  split
  · exact LogWalk.good_of_stop fun _ hmem => absurd hmem not_mem_nil
  · exact decodeTlLoop_good 0 0 false app

theorem recordInBounds_iff (memory : Nat → UInt8) (len : Nat) (app : EmvApplication) :
    RecordInBounds memory len app ↔ len ≠ 0 ∧ Counted (announced memory len app) ∧
      ∀ value ∈ announced memory len app, tagWidth app value.tag ≤ value.tlen.toNat := by
  rw [RecordInBounds, responseErrorReads_within_iff]
  refine and_congr_right fun _ => ?_
  have hgood := decodeTl_good memory len app
  cases herror : responseError memory len with
  | true =>
    rw [decodeTl, announced, herror, if_pos rfl, if_pos rfl]
    exact iff_of_true ⟨trivial, fun _ hmem => absurd hmem not_mem_nil⟩
      ⟨fun _ hmem => absurd hmem not_mem_nil, fun _ hmem => absurd hmem not_mem_nil⟩
  | false =>
    have hdecode : decodeTl memory len app =
        decodeTlLoop (· % 256) memory len app.logFmtLen 0 0 false app := by
      rw [decodeTl, herror, if_neg Bool.false_ne_true]
    have hannounced : announced memory len app =
        (decodeTlLoop id memory len app.logFmtLen 0 0 false app).items.map Prod.fst := by
      rw [announced, herror, if_neg Bool.false_ne_true]
    have hreads : Counted (announced memory len app) →
        ((∀ item ∈ (decodeTl memory len app).items, Access.AllWithin item.1.tlen.toNat 0 item.2) ↔
          ∀ value ∈ announced memory len app, tagWidth app value.tag ≤ value.tlen.toNat) := by
      intro hcounted
      rw [hannounced] at hcounted
      have hitems : announced memory len app = (decodeTl memory len app).items.map Prod.fst := by
        rw [hannounced, hdecode, items_eq_of_counted 0 0 false app hcounted]
      rw [hitems, forall_mem_map]
      exact forall₂_congr fun item hmem => (hgood.values item hmem).2
    constructor
    · rintro ⟨hadjacent, hvalues⟩
      have hcounted : Counted (announced memory len app) := by
        rw [hannounced]
        exact counted_of_adjacent 0 0 false app (hdecode ▸ hadjacent)
      exact ⟨hcounted, (hreads hcounted).mp hvalues⟩
    · rintro ⟨hcounted, hwidths⟩
      refine ⟨?_, (hreads hcounted).mpr hwidths⟩
      rw [hannounced] at hcounted
      rw [hdecode, items_eq_of_counted 0 0 false app hcounted]
      exact decodeTlLoop_id_adjacent 0 0 false app

end NikitaFirmware.Emv
