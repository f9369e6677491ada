import NikitaFirmware.Emv.LogRecord

/-!
# The values that the terminal is asked for

`emv_prepare_pdol` in `lib/nfc/protocols/emv/emv_poller_i.c`. The card names tags with lengths of its
own choice; the terminal gives what it has of a value, and zeros for the rest.
-/

namespace NikitaFirmware.Emv
open Foundations List

/-- `PDOLValue`. There are at least as many bytes as the size says. -/
structure PdolValue where
  tag : Nat
  size : Nat
  data : Bytes
  size_le : size ≤ data.length

def pdolValues : List PdolValue :=
  [⟨0x9F59, 3, [0xC8, 0x80, 0x00], by decide⟩,
    ⟨0x9F5A, 1, [0x00], by decide⟩,
    ⟨0x9F58, 1, [0x01], by decide⟩,
    ⟨0x9F66, 4, [0x79, 0x00, 0x40, 0x80], by decide⟩,
    ⟨0x9F40, 4, [0x79, 0x00, 0x40, 0x80], by decide⟩,
    ⟨0x9F02, 6, [0x00, 0x00, 0x00, 0x10, 0x00, 0x00], by decide⟩,
    ⟨0x9F03, 6, [0x00, 0x00, 0x00, 0x00, 0x00, 0x00], by decide⟩,
    ⟨0x9F1A, 2, [0x01, 0x24], by decide⟩,
    ⟨0x5F2A, 2, [0x01, 0x24], by decide⟩,
    ⟨0x95, 5, [0x00, 0x00, 0x00, 0x00, 0x00], by decide⟩,
    ⟨0x9A, 3, [0x19, 0x01, 0x01], by decide⟩,
    ⟨0x9C, 1, [0x00], by decide⟩,
    ⟨0x98, 20, List.replicate 21 0, by decide⟩,
    ⟨0x9F37, 4, [0x82, 0x3D, 0xDE, 0x7A], by decide⟩]

def pdolMaxSize : Nat := 247

/-- The bytes that are given for a tag: what there is of the value, and zeros. -/
def pdolBytes (tag tlen : Nat) : Bytes :=
  match pdolValues.find? fun value => tag == value.tag with
  | some value =>
    let copyLen := min tlen value.size
    value.data.take copyLen ++ List.replicate (tlen - copyLen) 0
  | none => List.replicate tlen 0

/-- The loop of `emv_prepare_pdol`: what is read of the source for each tag, and the destination
unless a write has left it. -/
def preparePdolLoop (src : Apdu) (i : Nat) (dest : Apdu) : List (List Access) × Option Apdu :=
  if i < src.size.toNat then
    let reads := (parseTag (fun k => src.data.cells.getD k 0) src.size.toNat i).1
    match _hparse : (parseTag (fun k => src.data.cells.getD k 0) src.size.toNat i).2 with
    | none => ([reads], some { dest with size := 0 })
    | some header =>
      if pdolMaxSize < dest.size.toNat + header.tlen.toNat then
        ([reads], some { dest with size := 0 })
      else
        match dest.data.store dest.size.toNat (pdolBytes header.tag header.tlen.toNat) with
        | none => ([reads], none)
        | some data =>
          let rest := preparePdolLoop src header.off ⟨dest.size + header.tlen, data⟩
          (reads :: rest.1, rest.2)
  else ([], some dest)
termination_by src.size.toNat - i
decreasing_by
  have hbehind := (parseTag_spec (Nat.le_of_lt_succ src.size.toNat_lt) i).2 header _hparse
  omega

def preparePdol (src : Apdu) : List (List Access) × Option Apdu :=
  preparePdolLoop src 0 ⟨0, FixedArray.replicate 255 0⟩

theorem length_pdolBytes (tag tlen : Nat) : (pdolBytes tag tlen).length = tlen := by
  rw [pdolBytes]
  cases pdolValues.find? fun value => tag == value.tag with
  | none => exact length_replicate
  | some value =>
    have hsize := value.size_le
    simp only [length_append, length_take, length_replicate]
    omega

theorem preparePdolLoop_inBounds (src : Apdu) (i : Nat) (dest : Apdu)
    (h : dest.size.toNat ≤ pdolMaxSize) :
    (∀ reads ∈ (preparePdolLoop src i dest).1, Access.AllWithin src.size.toNat 0 reads) ∧
      ∃ filled, (preparePdolLoop src i dest).2 = some filled ∧ filled.size.toNat ≤ pdolMaxSize := by
  fun_induction preparePdolLoop src i dest with
  | case1 i dest hi reads hparse =>
    have hreads := (@parseTag_spec (fun k => src.data.cells.getD k 0) src.size.toNat
      (Nat.le_of_lt_succ src.size.toNat_lt) i).1
    exact ⟨forall_mem_singleton.mpr hreads, _, rfl, Nat.zero_le _⟩
  | case2 i dest hi reads header hparse hbig =>
    have hreads := (@parseTag_spec (fun k => src.data.cells.getD k 0) src.size.toNat
      (Nat.le_of_lt_succ src.size.toNat_lt) i).1
    exact ⟨forall_mem_singleton.mpr hreads, _, rfl, Nat.zero_le _⟩
  | case3 i dest hi reads header hparse hfits hnone =>
    have hlength := length_pdolBytes header.tag header.tlen.toNat
    have hroom : pdolMaxSize = 247 := rfl
    obtain ⟨data, hstore⟩ := dest.data.exists_store
      (show dest.size.toNat + (pdolBytes header.tag header.tlen.toNat).length ≤ 255 by omega)
    exact absurd (hstore.symm.trans hnone) (Option.some_ne_none _)
  | case4 i dest hi reads header hparse hfits data hsome rest ih =>
    have hreads := (@parseTag_spec (fun k => src.data.cells.getD k 0) src.size.toNat
      (Nat.le_of_lt_succ src.size.toNat_lt) i).1
    have hroom : pdolMaxSize = 247 := rfl
    have hsum : (dest.size + header.tlen).toNat = dest.size.toNat + header.tlen.toNat := by
      rw [UInt8.toNat_add, Nat.mod_eq_of_lt (by omega)]
    obtain ⟨hrest, filled, hfilled, hsize⟩ := ih (by
      change (dest.size + header.tlen).toNat ≤ pdolMaxSize
      omega)
    exact ⟨forall_mem_cons.mpr ⟨hreads, hrest⟩, filled, hfilled, hsize⟩
  | case5 i dest hi => exact ⟨fun _ hmem => absurd hmem not_mem_nil, dest, rfl, h⟩

/-- Decoding a response ends with a record, has read headers inside of the response and of the values
that hold them, has come to each TLV behind the one before it, and has read inside of their values. -/
structure ResponseInBounds (memory : Nat → UInt8) (len : UInt8) (app : EmvApplication) : Prop where
  done : ∃ app', (decodeResponseTlv memory len app).app = some app' ∧ Keeps app app'
  headers : ∀ r ∈ (decodeResponseTlv memory len app).headers, r.Inside ∧ r.start + r.size ≤ len.toNat
  tiles : Tiles 0 len.toNat ((decodeResponseTlv memory len app).items.map Prod.fst)
  values : ∀ item ∈ (decodeResponseTlv memory len app).items,
    Access.AllWithin item.1.tlen.toNat 0 item.2

theorem responseInBounds_iff (memory : Nat → UInt8) (len : UInt8) (app : EmvApplication) :
    ResponseInBounds memory len app ↔ ∀ tlv ∈ tlvsFrom memory 0 len 0, tlv.WideEnough app := by
  have hgood := decodeLoop_good memory 0 len 0 false app
  rw [Nat.zero_add, Nat.zero_add] at hgood
  rw [← hgood.items, forall_mem_map]
  constructor
  · exact fun h item hmem => (hgood.reads item hmem).mp (h.values item hmem)
  · intro h
    exact ⟨hgood.done, fun r hr => ⟨(hgood.headers r hr).1, (hgood.headers r hr).2.2⟩,
      hgood.items.symm ▸ hgood.tiles, fun item hmem => (hgood.reads item hmem).mpr (h item hmem)⟩

/-- A response is decoded in its bounds if and only if the values that are assigned without a check
are long enough; a record of the log if and only if moreover it is not empty, and no value but the
last one ends behind its first 255 bytes. The PDOL is always answered in bounds. -/
theorem emvDecoding_inBounds_iff (memory : Nat → UInt8) (app : EmvApplication) : (∀ len : UInt8,
      ResponseInBounds memory len app ↔ ∀ tlv ∈ tlvsFrom memory 0 len 0, tlv.WideEnough app) ∧
    (∀ len : Nat, (decodeTl memory len app).Good app.logFmtLen.toNat len app ∧
        (RecordInBounds memory len app ↔ len ≠ 0 ∧ Counted (announced memory len app) ∧
          ∀ value ∈ announced memory len app, tagWidth app value.tag ≤ value.tlen.toNat)) ∧
    ∀ src : Apdu, (∀ reads ∈ (preparePdol src).1, Access.AllWithin src.size.toNat 0 reads) ∧
        ∃ filled, (preparePdol src).2 = some filled ∧ filled.size.toNat ≤ pdolMaxSize :=
  ⟨fun len => responseInBounds_iff memory len app, fun len => ⟨decodeTl_good memory len app,
    recordInBounds_iff memory len app⟩, fun src => preparePdolLoop_inBounds src 0 _ (Nat.zero_le _)⟩

/-- The response `5F 24 00`: an expiry date without a byte, of which three are read. -/
theorem emptyDate_not_inBounds :
    ¬ ResponseInBounds (fun k => [0x5F, 0x24, 0x00].getD k 0) 3 .reset := by
  intro h
  have hparse : (parseTag (fun k => [0x5F, 0x24, 0x00].getD (0 + k) 0) (3 : UInt8).toNat 0).2 =
      some ⟨0x5F24, 0, 3⟩ := by decide
  have htlvs := tlvsFrom_of_some (fun k => [0x5F, 0x24, 0x00].getD k 0) (by decide) hparse
  rw [if_neg (by decide), if_neg (by decide)] at htlvs
  have hwide := (responseInBounds_iff _ _ _).mp h _ (htlvs ▸ mem_cons_self)
  exact absurd (hwide rfl) (by decide)

end NikitaFirmware.Emv
