import Mathlib.Data.Nat.Bitwise
import Mathlib.Tactic.IntervalCases
import NikitaFirmware.Foundations.BitSearch

/-!
# The search for devices on the 1-Wire bus

The search of `lib/one_wire/one_wire_host.c`. The bus is a wired AND: the host reads a one if no
device that takes part pulls it low, and a device whose bit differs from the one written drops out.
-/

namespace NikitaFirmware.OneWire

open List
/-- The ROM of a device, its family first. -/
abbrev Rom := Fin 8 → UInt8

/-- What a search keeps in `OneWireHost`. -/
structure Host where
  savedRom : Rom
  lastDiscrepancy : Nat
  lastFamilyDiscrepancy : Nat
  lastDeviceFlag : Bool

def romBit (rom : Rom) (romByteNumber : Nat) (romByteMask : UInt8) : Bool :=
  decide (0 < rom (Fin.ofNat 8 romByteNumber) &&& romByteMask)

/-- `onewire_host_search` in its loop, with the devices that still take part. -/
structure Search where
  host : Host
  idBitNumber : Nat
  lastZero : Nat
  romByteNumber : Nat
  romByteMask : UInt8
  devices : List Rom

namespace Search
variable (s : Search)

def idBit : Bool := s.devices.all fun rom => romBit rom s.romByteNumber s.romByteMask
def cmpIdBit : Bool := s.devices.all fun rom => !romBit rom s.romByteNumber s.romByteMask

def searchDirection : Bool :=
  if s.idBit ≠ s.cmpIdBit then s.idBit
  else if s.idBitNumber < s.host.lastDiscrepancy then
    romBit s.host.savedRom s.romByteNumber s.romByteMask
  else decide (s.idBitNumber = s.host.lastDiscrepancy)

def pickedZero : Bool := s.idBit == s.cmpIdBit && !s.searchDirection

def savedRom : Rom :=
  let rom := s.host.savedRom
  let n := Fin.ofNat 8 s.romByteNumber
  Function.update rom n
    (if s.searchDirection then rom n ||| s.romByteMask else rom n &&& ~~~s.romByteMask)

/-- A pass of the loop in which some device answers. -/
def next : Search where
  host := { s.host with
    savedRom := s.savedRom
    lastFamilyDiscrepancy :=
      if s.pickedZero ∧ s.idBitNumber < 9 then s.idBitNumber else s.host.lastFamilyDiscrepancy }
  idBitNumber := s.idBitNumber + 1
  lastZero := if s.pickedZero then s.idBitNumber else s.lastZero
  romByteNumber := if s.romByteMask <<< 1 = 0 then s.romByteNumber + 1 else s.romByteNumber
  romByteMask := if s.romByteMask <<< 1 = 0 then 1 else s.romByteMask <<< 1
  devices := s.devices.filter fun rom =>
    romBit rom s.romByteNumber s.romByteMask == s.searchDirection

/-- The loop, for at most `n` passes. -/
def loop : Nat → Search → Search
  | 0, s => s
  | n + 1, s =>
    if s.idBit && s.cmpIdBit then s
    else if s.next.romByteNumber < 8 then loop n s.next else s.next

end Search

namespace Host
variable (host : Host)

def resetSearch : Host where
  savedRom := fun _ => 0
  lastDiscrepancy := 0
  lastFamilyDiscrepancy := 0
  lastDeviceFlag := false

def targetSearch (familyCode : UInt8) : Host where
  savedRom := Function.update (fun _ => 0) 0 familyCode
  lastDiscrepancy := 64
  lastFamilyDiscrepancy := 0
  lastDeviceFlag := false

/-- The counters are reset, so that the next search is like a first one. -/
def clear : Host :=
  { host with lastDiscrepancy := 0, lastDeviceFlag := false, lastFamilyDiscrepancy := 0 }

/-- `onewire_host_search`, from its loop on; the loop takes the 64 bits of a ROM. -/
def searchLoop (devices : List Rom) : Bool × Host :=
  let s := Search.loop 64 ⟨host, 1, 0, 0, 1, devices⟩
  if s.idBitNumber < 65 then (false, s.host)
  else (true, { s.host with
    lastDiscrepancy := s.lastZero
    lastDeviceFlag := s.host.lastDeviceFlag || s.lastZero == 0 })

/-- `onewire_host_search`; a bus without devices gives no presence pulse. -/
def search (devices : List Rom) : Option Rom × Host :=
  if !host.lastDeviceFlag && devices.isEmpty then (none, host.clear)
  else
    let (searchResult, host) :=
      if host.lastDeviceFlag then (false, host) else host.searchLoop devices
    if !searchResult || host.savedRom 0 == 0 then (none, host.clear)
    else (some host.savedRom, host)

def searches (devices : List Rom) : Nat → Host → List (Option Rom) × Host
  | 0, host => ([], host)
  | n + 1, host =>
    let (rom, host) := host.search devices
    let (roms, host) := searches devices n host
    (rom :: roms, host)

end Host

open Foundations

variable {s : Search} {host : Host} {devices : List Rom}

def mask (k : Nat) : UInt8 := 1 <<< UInt8.ofNat k

def bit (rom : Rom) (i : Nat) : Bool := romBit rom ((i - 1) / 8) (mask ((i - 1) % 8))

theorem toNat_mask {k : Nat} (hk : k < 8) : (mask k).toNat = 2 ^ k := by
  interval_cases k <;> rfl

theorem and_mask_pos (b : UInt8) {k : Nat} (hk : k < 8) :
    decide (0 < b &&& mask k) = b.toNat.testBit k := by
  have hand : (b &&& mask k).toNat = (b.toNat.testBit k).toNat * 2 ^ k := by
    rw [UInt8.toNat_and, toNat_mask hk, Nat.and_two_pow]
  rw [Bool.eq_iff_iff, decide_eq_true_iff, UInt8.lt_iff_toNat_lt, hand]
  cases b.toNat.testBit k with
  | true => simp
  | false => simp

theorem bit_eq_testBit (rom : Rom) (i : Nat) :
    bit rom i = (rom (Fin.ofNat 8 ((i - 1) / 8))).toNat.testBit ((i - 1) % 8) :=
  and_mask_pos _ (Nat.mod_lt _ (by omega))

theorem byte_ext {b c : UInt8} (h : ∀ k < 8, b.toNat.testBit k = c.toNat.testBit k) : b = c := by
  apply UInt8.toNat_inj.mp
  apply Nat.eq_of_testBit_eq
  intro k
  by_cases hk : k < 8
  · exact h k hk
  · have hsmall : ∀ b : UInt8, b.toNat < 2 ^ k := fun b =>
      b.toNat_lt.trans_le (Nat.pow_le_pow_right (by omega) (by omega : 8 ≤ k))
    rw [Nat.testBit_lt_two_pow (hsmall b), Nat.testBit_lt_two_pow (hsmall c)]

theorem rom_ext {p q : Rom} (h : ∀ i, 1 ≤ i → i < 1 + 64 → bit p i = bit q i) : p = q := by
  funext n
  apply byte_ext
  intro k hk
  have hbit := h (1 + 8 * n + k) (by omega) (by omega)
  have hbyte : (1 + 8 * n.val + k - 1) / 8 = n := by omega
  have hmask : (1 + 8 * n.val + k - 1) % 8 = k := by omega
  have hn : Fin.ofNat 8 n.val = n := Fin.ext (Nat.mod_eq_of_lt n.isLt)
  rwa [bit_eq_testBit, bit_eq_testBit, hbyte, hmask, hn] at hbit

theorem testBit_write (b : UInt8) (dir : Bool) {k l : Nat} (hk : k < 8) (hl : l < 8) :
    (if dir then b ||| mask k else b &&& ~~~mask k).toNat.testBit l =
      if l = k then dir else b.toNat.testBit l := by
  cases dir with
  | true =>
    rw [if_pos rfl, UInt8.toNat_or, Nat.testBit_or, toNat_mask hk, Nat.testBit_two_pow]
    by_cases hlk : l = k
    · rw [if_pos hlk, decide_eq_true hlk.symm, Bool.or_true]
    · rw [if_neg hlk, decide_eq_false (Ne.symm hlk), Bool.or_false]
  | false =>
    have hlt : 2 ^ k < 2 ^ 8 := Nat.pow_lt_pow_right (by omega) hk
    have hnot : (~~~mask k).toNat = 2 ^ 8 - (2 ^ k + 1) := by
      rw [UInt8.toNat_not, toNat_mask hk, Nat.add_comm, ← Nat.sub_sub]
      rfl
    rw [if_neg Bool.false_ne_true, UInt8.toNat_and, Nat.testBit_and, hnot,
      Nat.testBit_two_pow_sub_succ hlt, Nat.testBit_two_pow, decide_eq_true hl, Bool.true_and]
    by_cases hlk : l = k
    · rw [if_pos hlk, decide_eq_true hlk.symm, Bool.not_true, Bool.and_false]
    · rw [if_neg hlk, decide_eq_false (Ne.symm hlk), Bool.not_false, Bool.and_true]

theorem bit_update (rom : Rom) (dir : Bool) {i j : Nat} (hi : 1 ≤ i) (hi' : i < 1 + 64) (hj : 1 ≤ j)
    (hj' : j < 1 + 64) :
    bit (Function.update rom (Fin.ofNat 8 ((i - 1) / 8))
        (if dir then rom (Fin.ofNat 8 ((i - 1) / 8)) ||| mask ((i - 1) % 8)
          else rom (Fin.ofNat 8 ((i - 1) / 8)) &&& ~~~mask ((i - 1) % 8))) j =
      if j = i then dir else bit rom j := by
  have hmod : ∀ n, n % 8 < 8 := fun n => Nat.mod_lt n (by omega)
  rw [bit_eq_testBit, bit_eq_testBit]
  by_cases hbyte : (j - 1) / 8 = (i - 1) / 8
  · rw [hbyte, Function.update_self, testBit_write _ _ (hmod _) (hmod _)]
    by_cases hji : j = i
    · rw [if_pos hji, if_pos (by rw [hji])]
    · rw [if_neg hji, if_neg (by omega)]
  · have hdiffer : Fin.ofNat 8 ((j - 1) / 8) ≠ Fin.ofNat 8 ((i - 1) / 8) := fun heq => by
      have hval := congrArg Fin.val heq
      simp only [Fin.ofNat] at hval
      omega
    rw [Function.update_of_ne hdiffer, if_neg fun hji => hbyte (by rw [hji])]

theorem mask_shift {k : Nat} (hk : k < 8) : mask k <<< 1 = if k = 7 then 0 else mask (k + 1) := by
  interval_cases k <;> rfl

theorem mask_ne_zero {k : Nat} (hk : k < 8) : mask k ≠ 0 := by
  interval_cases k <;> decide

/-- The pass stands at the bit number `i`; the bits of the saved ROM from there on are those of the
search before, and the devices that take part agree on the bits up to there. -/
structure Stands (saved : Nat → Bool) (s : Search) (i : Nat) : Prop where
  idBitNumber : s.idBitNumber = i
  pos : 1 ≤ i
  romByteNumber : s.romByteNumber = (i - 1) / 8
  romByteMask : s.romByteMask = mask ((i - 1) % 8)
  ahead : ∀ j, i ≤ j → j < 1 + 64 → bit s.host.savedRom j = saved j
  behind : ∀ j, 1 ≤ j → j < i → ∀ rom ∈ s.devices, bit rom j = bit s.host.savedRom j

variable {saved : Nat → Bool} {i : Nat}

theorem Stands.conflict (h : Stands saved s i) :
    BitSearch.conflict bit s.devices i = (s.idBit == s.cmpIdBit) := by
  rw [BitSearch.conflict, Search.idBit, Search.cmpIdBit, h.romByteNumber, h.romByteMask]
  rfl

theorem Stands.direction (h : Stands saved s i) (hi : i < 1 + 64) :
    s.searchDirection = BitSearch.direction bit saved s.host.lastDiscrepancy s.devices i := by
  have hahead := h.ahead i le_rfl hi
  have hall : s.idBit = s.devices.all (bit · i) := by
    rw [Search.idBit, h.romByteNumber, h.romByteMask]
    rfl
  rw [Search.searchDirection, BitSearch.direction, h.conflict, h.idBitNumber, ← hahead, ← hall]
  by_cases heq : s.idBit = s.cmpIdBit
  · rw [if_neg (not_not.mpr heq), if_pos (beq_iff_eq.mpr heq), h.romByteNumber, h.romByteMask]
    rfl
  · rw [if_pos heq, if_neg (fun hc => heq (beq_iff_eq.mp hc))]

theorem Stands.position (h : Stands saved s i) :
    s.next.romByteNumber = (i + 1 - 1) / 8 ∧ s.next.romByteMask = mask ((i + 1 - 1) % 8) := by
  have hpos := h.pos
  have hmod : (i - 1) % 8 < 8 := Nat.mod_lt _ (by omega)
  simp only [Search.next, h.romByteNumber, h.romByteMask, mask_shift hmod]
  by_cases hseven : (i - 1) % 8 = 7
  · have hmask : (i + 1 - 1) % 8 = 0 := by omega
    rw [if_pos hseven, hmask]
    exact ⟨(by omega : (i - 1) / 8 + 1 = (i + 1 - 1) / 8), rfl⟩
  · have hmask : (i + 1 - 1) % 8 = (i - 1) % 8 + 1 := by omega
    have hne := mask_ne_zero (by omega : (i - 1) % 8 + 1 < 8)
    rw [if_neg hseven, if_neg hne, if_neg hne, hmask]
    exact ⟨(by omega : (i - 1) / 8 = (i + 1 - 1) / 8), rfl⟩

theorem Stands.next_devices (h : Stands saved s i) :
    s.next.devices = BitSearch.kept bit s.devices i s.searchDirection := by
  rw [Search.next, BitSearch.kept, h.romByteNumber, h.romByteMask]
  rfl

theorem Stands.next (h : Stands saved s i) (hi : i < 1 + 64) : Stands saved s.next (i + 1) := by
  have hpos := h.pos
  obtain ⟨hbyte, hmask⟩ := h.position
  have hsaved : ∀ j, 1 ≤ j → j < 1 + 64 → bit s.next.host.savedRom j =
      if j = i then s.searchDirection else bit s.host.savedRom j := by
    intro j hj hj'
    have hwrite := bit_update s.host.savedRom s.searchDirection hpos hi hj hj'
    rwa [← h.romByteNumber, ← h.romByteMask] at hwrite
  refine ⟨congrArg (· + 1) h.idBitNumber, by omega, hbyte, hmask, fun j hj hj' => ?_,
    fun j hj hj' rom hrom => ?_⟩
  · rw [hsaved j (by omega) hj', if_neg (by omega)]
    exact h.ahead j (by omega) hj'
  · rw [h.next_devices] at hrom
    obtain ⟨hrom, hbit⟩ := BitSearch.mem_kept.mp hrom
    rw [hsaved j hj (by omega)]
    by_cases hji : j = i
    · rw [if_pos hji, hji, hbit]
    · rw [if_neg hji]
      exact h.behind j hj (by omega) rom hrom

theorem idBit_and_cmpIdBit (hne : s.devices ≠ []) : (s.idBit && s.cmpIdBit) = false := by
  obtain ⟨rom, hrom⟩ := exists_mem_of_ne_nil _ hne
  by_contra hboth
  obtain ⟨hones, hzeros⟩ := Bool.and_eq_true_iff.mp (eq_true_of_ne_false hboth)
  have hone := all_eq_true.mp hones rom hrom
  have hzero := all_eq_true.mp hzeros rom hrom
  rw [hone] at hzero
  cases hzero

theorem loop_descend {n : Nat} (h : Stands saved s i) (hn : n + i = 1 + 64) (hi : i < 1 + 64)
    (hne : s.devices ≠ []) :
    (s.loop n).devices =
        (BitSearch.descend bit saved s.host.lastDiscrepancy n i s.devices s.lastZero).1 ∧
      (s.loop n).lastZero =
        (BitSearch.descend bit saved s.host.lastDiscrepancy n i s.devices s.lastZero).2 ∧
      (s.loop n).host.lastDeviceFlag = s.host.lastDeviceFlag ∧ Stands saved (s.loop n) (1 + 64) := by
  induction n generalizing s i with
  | zero => omega
  | succ n ih =>
    have hanswer : (s.idBit && s.cmpIdBit) = false := idBit_and_cmpIdBit hne
    have hdirection := h.direction hi
    have hzero : s.next.lastZero = if BitSearch.conflict bit s.devices i ∧
        BitSearch.direction bit saved s.host.lastDiscrepancy s.devices i = false then i
        else s.lastZero := by
      rw [Search.next, h.idBitNumber, h.conflict, ← hdirection, Search.pickedZero]
      simp only [Bool.and_eq_true, Bool.not_eq_true']
    have hnext := h.next hi
    have hdevices := h.next_devices
    rw [hdirection] at hdevices
    rw [Search.loop, hanswer, if_neg Bool.false_ne_true, BitSearch.descend, ← hzero, ← hdevices]
    have hbyte := h.position.1
    by_cases hlast : s.next.romByteNumber < 8
    · rw [if_pos hlast]
      have hsome : s.next.devices ≠ [] := hdevices ▸ BitSearch.kept_direction_ne_nil hne
      exact ih hnext (by omega) (by omega) hsome
    · have hend : n = 0 := by omega
      subst hend
      rw [if_neg hlast]
      have hi64 : i = 64 := by omega
      subst hi64
      exact ⟨rfl, rfl, rfl, hnext⟩

theorem distinct_of_nodup (hnodup : devices.Nodup) : BitSearch.Distinct bit 64 1 devices :=
  ⟨hnodup, fun _ _ _ _ hagree => rom_ext hagree⟩

def found (devices : List Rom) : List Rom := BitSearch.order bit 64 1 devices

def lastZero (devices : List Rom) (rom : Rom) : Nat := BitSearch.lastZero bit 64 1 devices rom 0

structure At (devices : List Rom) (host : Host) (rom : Rom) : Prop where
  savedRom : host.savedRom = rom
  lastDiscrepancy : host.lastDiscrepancy = lastZero devices rom
  lastDeviceFlag : host.lastDeviceFlag = (lastZero devices rom == 0)

/-- The next search is like a first one. -/
structure Fresh (host : Host) : Prop where
  lastDiscrepancy : host.lastDiscrepancy = 0
  lastDeviceFlag : host.lastDeviceFlag = false

theorem search_eq {z : Nat} {rom : Rom} (hne : devices ≠ []) (hflag : host.lastDeviceFlag = false)
    (hdescend : BitSearch.descend bit (bit host.savedRom) host.lastDiscrepancy 64 1 devices 0 =
      ([rom], z)) (hfamily : rom 0 ≠ 0) :
    ∃ host', host.search devices = (some rom, host') ∧ host'.savedRom = rom ∧
      host'.lastDiscrepancy = z ∧ host'.lastDeviceFlag = (z == 0) := by
  have hstands : Stands (bit host.savedRom) ⟨host, 1, 0, 0, 1, devices⟩ 1 :=
    ⟨rfl, le_rfl, rfl, rfl, fun _ _ _ => rfl, fun j hj hj' => absurd hj' (by omega)⟩
  obtain ⟨hdevices, hzero, hflag', hend⟩ :=
    loop_descend (n := 64) hstands rfl (by omega) hne
  set s := Search.loop 64 ⟨host, 1, 0, 0, 1, devices⟩ with hs
  have hdevices' : s.devices = [rom] := by rw [hdevices, hdescend]
  have hzero' : s.lastZero = z := by rw [hzero, hdescend]
  have hsaved : s.host.savedRom = rom := rom_ext fun j hj hj' =>
    (hend.behind j hj hj' rom (hdevices' ▸ mem_cons_self)).symm
  obtain ⟨host', hhost'⟩ : ∃ host', host' = { s.host with
      lastDiscrepancy := s.lastZero
      lastDeviceFlag := s.host.lastDeviceFlag || s.lastZero == 0 } := ⟨_, rfl⟩
  have hloop : host.searchLoop devices = (true, host') := by
    rw [Host.searchLoop, ← hs, hhost']
    exact if_neg (by rw [hend.idBitNumber]; omega)
  have hsome : devices.isEmpty = false := isEmpty_eq_false_iff.mpr hne
  have hrom : host'.savedRom = rom := hhost' ▸ hsaved
  have hfound : (rom 0 == 0) = false := beq_false_of_ne hfamily
  refine ⟨host', ?_, hrom, hhost' ▸ hzero', ?_⟩
  · rw [Host.search, hflag, hsome, hloop]
    simp only [Bool.not_false, Bool.and_false, Bool.false_eq_true, if_false, Bool.not_true, hrom,
      hfound, Bool.or_false]
  · rw [hhost']
    show (s.host.lastDeviceFlag || s.lastZero == 0) = (z == 0)
    rw [hflag', hflag, hzero', Bool.false_or]

theorem search_first (hne : devices ≠ []) (hnodup : devices.Nodup)
    (hfamily : ∀ rom ∈ devices, rom 0 ≠ 0) (hfresh : Fresh host) :
    ∃ rom rest host', found devices = rom :: rest ∧ host.search devices = (some rom, host') ∧
      At devices host' rom := by
  have hbefore : host.lastDiscrepancy < 1 := by
    rw [hfresh.lastDiscrepancy]
    omega
  obtain ⟨rom, rest, horder, hdescend⟩ := @BitSearch.descend_first _ bit devices 64 1
    (bit host.savedRom) host.lastDiscrepancy 0 hne (distinct_of_nodup hnodup) hbefore
  have hrom : rom ∈ devices := (BitSearch.order_perm 64 1 devices).mem_iff.mp
    (horder ▸ mem_cons_self)
  obtain ⟨host', hsearch, hsaved, hzero, hflag⟩ :=
    search_eq hne hfresh.lastDeviceFlag hdescend (hfamily rom hrom)
  exact ⟨rom, rest, host', horder, hsearch, hsaved, hzero, hflag⟩

theorem search_next {pre post : List Rom} {rom rom' : Rom} (hnodup : devices.Nodup)
    (hfamily : ∀ rom ∈ devices, rom 0 ≠ 0) (hfound : found devices = pre ++ rom :: rom' :: post)
    (hat : At devices host rom) :
    ∃ host', host.search devices = (some rom', host') ∧ At devices host' rom' := by
  have hdistinct := distinct_of_nodup hnodup
  have hrom : rom' ∈ devices := (BitSearch.order_perm 64 1 devices).mem_iff.mp
    (hfound ▸ mem_append_right _ (mem_cons_of_mem _ mem_cons_self))
  have hmore : 1 ≤ lastZero devices rom :=
    (BitSearch.lastZero_spec hdistinct hfound Nat.one_pos).2 (cons_ne_nil _ _)
  have hpath : ∀ j, bit host.savedRom j = bit rom j := fun j => by rw [hat.savedRom]
  have hdescend : BitSearch.descend bit (bit host.savedRom) host.lastDiscrepancy 64 1 devices 0 =
      ([rom'], BitSearch.lastZero bit 64 1 devices rom' 0) :=
    BitSearch.descend_next hdistinct hfound hpath Nat.one_pos hat.lastDiscrepancy
  have hnot : host.lastDeviceFlag = false := by
    rw [hat.lastDeviceFlag]
    exact beq_false_of_ne (by omega)
  obtain ⟨host', hsearch, hsaved, hzero, hflag⟩ :=
    search_eq (ne_nil_of_mem hrom) hnot hdescend (hfamily rom' hrom)
  exact ⟨host', hsearch, hsaved, hzero, hflag⟩

theorem search_last {pre : List Rom} {rom : Rom} (hnodup : devices.Nodup)
    (hfound : found devices = pre ++ [rom]) (hat : At devices host rom) :
    host.search devices = (none, host.clear) := by
  have hzero : lastZero devices rom = 0 :=
    (BitSearch.lastZero_spec (distinct_of_nodup hnodup) hfound Nat.one_pos).1 rfl
  have hflag : host.lastDeviceFlag = true := by
    rw [hat.lastDeviceFlag, hzero]
    rfl
  rw [Host.search, hflag]
  rfl

theorem searches_of_at {pre post : List Rom} {rom : Rom} (hnodup : devices.Nodup)
    (hfamily : ∀ rom ∈ devices, rom 0 ≠ 0) (hfound : found devices = pre ++ rom :: post)
    (hat : At devices host rom) :
    ∃ host', Host.searches devices (post.length + 1) host = (post.map some ++ [none], host') ∧
      Fresh host' ∧ host'.lastFamilyDiscrepancy = 0 := by
  induction post generalizing host pre rom with
  | nil =>
    refine ⟨host.clear, ?_, ⟨rfl, rfl⟩, rfl⟩
    rw [length_nil, Host.searches, search_last hnodup hfound hat]
    rfl
  | cons rom' post ih =>
    obtain ⟨host₁, hsearch, hat₁⟩ := search_next hnodup hfamily hfound hat
    have hfound₁ : found devices = (pre ++ [rom]) ++ rom' :: post := by
      rw [hfound, append_cons]
    obtain ⟨host', hsearches, hfresh, hzero⟩ := ih hfound₁ hat₁
    refine ⟨host', ?_, hfresh, hzero⟩
    rw [length_cons, Host.searches, hsearch]
    simp only [hsearches]
    rfl

/-- Two hosts of which the next search finds the same device. -/
def Alike (devices : List Rom) (host host' : Host) : Prop :=
  (Fresh host ∧ Fresh host') ∨
    ∃ pre rom post, found devices = pre ++ rom :: post ∧ At devices host rom ∧ At devices host' rom

theorem search_alike {host' : Host} (hne : devices ≠ []) (hnodup : devices.Nodup)
    (hfamily : ∀ rom ∈ devices, rom 0 ≠ 0) (halike : Alike devices host host') :
    ∃ rom host₁ host₁', host.search devices = (rom, host₁) ∧
      host'.search devices = (rom, host₁') ∧ Alike devices host₁ host₁' := by
  rcases halike with ⟨hfresh, hfresh'⟩ | ⟨pre, rom, post, hfound, hat, hat'⟩
  · obtain ⟨rom, rest, host₁, hfound, hsearch, hat⟩ := search_first hne hnodup hfamily hfresh
    obtain ⟨rom', rest', host₁', hfound', hsearch', hat'⟩ :=
      search_first hne hnodup hfamily hfresh'
    obtain ⟨rfl, -⟩ := List.cons.inj (hfound.symm.trans hfound')
    exact ⟨_, _, _, hsearch, hsearch', .inr ⟨[], rom, rest, hfound, hat, hat'⟩⟩
  · cases post with
    | nil =>
      exact ⟨_, _, _, search_last hnodup hfound hat, search_last hnodup hfound hat',
        .inl ⟨⟨rfl, rfl⟩, ⟨rfl, rfl⟩⟩⟩
    | cons rom' post =>
      obtain ⟨host₁, hsearch, hat₁⟩ := search_next hnodup hfamily hfound hat
      obtain ⟨host₁', hsearch', hat₁'⟩ := search_next hnodup hfamily hfound hat'
      exact ⟨_, _, _, hsearch, hsearch',
        .inr ⟨pre ++ [rom], rom', post, by rw [hfound, append_cons], hat₁, hat₁'⟩⟩

theorem searches_alike {host' : Host} (hne : devices ≠ []) (hnodup : devices.Nodup)
    (hfamily : ∀ rom ∈ devices, rom 0 ≠ 0) (halike : Alike devices host host') (n : Nat) :
    (Host.searches devices n host).1 = (Host.searches devices n host').1 := by
  induction n generalizing host host' with
  | zero => rfl
  | succ n ih =>
    obtain ⟨rom, host₁, host₁', hsearch, hsearch', hnext⟩ :=
      search_alike hne hnodup hfamily halike
    rw [Host.searches, Host.searches, hsearch, hsearch']
    exact congrArg (rom :: ·) (ih hnext)

theorem family_eq_of_bit {p q : Rom} (h : ∀ i, 1 ≤ i → i < 1 + 8 → bit p i = bit q i) :
    p 0 = q 0 := by
  apply byte_ext
  intro k hk
  have hbit := h (1 + k) (by omega) (by omega)
  have hbyte : (1 + k - 1) / 8 = 0 := by omega
  have hmask : (1 + k - 1) % 8 = k := by omega
  rwa [bit_eq_testBit, bit_eq_testBit, hbyte, hmask] at hbit

theorem bit_eq_of_family {p q : Rom} (h : p 0 = q 0) {i : Nat} (hi : 1 ≤ i) (hi' : i < 1 + 8) :
    bit p i = bit q i := by
  have hbyte : (i - 1) / 8 = 0 := by omega
  rw [bit_eq_testBit, bit_eq_testBit, hbyte]
  exact congrArg (fun b : UInt8 => b.toNat.testBit _) h

theorem search_target {family : UInt8} (hnodup : devices.Nodup)
    (hfamily : ∀ rom ∈ devices, rom 0 ≠ 0) (htarget : ∃ rom ∈ devices, rom 0 = family) :
    ∃ rom ∈ devices, rom 0 = family ∧ ((Host.targetSearch family).search devices).1 = some rom := by
  obtain ⟨wanted, hwanted, hwantedFamily⟩ := htarget
  have hsaved : (Host.targetSearch family).savedRom 0 = family := by
    show Function.update (fun _ => (0 : UInt8)) (0 : Fin 8) family 0 = family
    rw [Function.update_self]
  have hne : devices ≠ [] := ne_nil_of_mem hwanted
  obtain ⟨⟨left, z⟩, hdescend⟩ : ∃ result, BitSearch.descend bit
      (bit (Host.targetSearch family).savedRom) 64 64 1 devices 0 = result := ⟨_, rfl⟩
  obtain ⟨rom, hrom, hsingle⟩ := @BitSearch.descend_singleton _ bit devices 64 1
    (bit (Host.targetSearch family).savedRom) 64 0 hne (distinct_of_nodup hnodup)
  have hleft : left = [rom] := by rw [← hsingle, hdescend]
  subst hleft
  have hmem : rom ∈ (BitSearch.descend bit (bit (Host.targetSearch family).savedRom) 64 64 1
      devices 0).1 := by
    rw [hsingle]
    exact mem_singleton_self rom
  have hagree : ∀ i, 1 ≤ i → i < 1 + 8 →
      bit rom i = bit (Host.targetSearch family).savedRom i := fun i hi hi' =>
    BitSearch.descend_saved (by omega : 8 ≤ 64) (by omega) hwanted
      (fun j hj hj' => bit_eq_of_family (hwantedFamily.trans hsaved.symm) hj hj') hmem i hi hi'
  have hromFamily : rom 0 = family := (family_eq_of_bit hagree).trans hsaved
  obtain ⟨host', hsearch, -⟩ := @search_eq (Host.targetSearch family) devices z rom hne rfl hdescend
    (hfamily rom hrom)
  refine ⟨rom, hrom, hromFamily, ?_⟩
  rw [hsearch]

/-- From a reset on, the searches find every device once and then none; the next search is like a first
one. A search for a family finds a device of it. -/
theorem search_enumerates (devices : List Rom) (hne : devices ≠ []) (hnodup : devices.Nodup)
    (hfamily : ∀ rom ∈ devices, rom 0 ≠ 0) :
    (∃ (roms : List Rom) (host' : Host), roms.Perm devices ∧
      Host.searches devices (devices.length + 1) Host.resetSearch =
        (roms.map some ++ [none], host') ∧
      host'.lastDiscrepancy = 0 ∧ host'.lastFamilyDiscrepancy = 0 ∧ host'.lastDeviceFlag = false ∧
      ∀ n, (Host.searches devices n host').1 = (Host.searches devices n Host.resetSearch).1) ∧
      ∀ family, (∃ rom ∈ devices, rom 0 = family) → ∃ rom ∈ devices, rom 0 = family ∧
        ((Host.targetSearch family).search devices).1 = some rom := by
  refine ⟨?_, fun family htarget => search_target hnodup hfamily htarget⟩
  have hreset : Fresh Host.resetSearch := ⟨rfl, rfl⟩
  obtain ⟨rom, rest, host₁, hfound, hsearch, hat⟩ := search_first hne hnodup hfamily hreset
  have hfound' : found devices = [] ++ rom :: rest := hfound
  obtain ⟨host', hsearches, hfresh, hzero⟩ := searches_of_at hnodup hfamily hfound' hat
  have hperm : (rom :: rest).Perm devices := hfound ▸ BitSearch.order_perm 64 1 devices
  refine ⟨rom :: rest, host', hperm, ?_, hfresh.lastDiscrepancy, hzero, hfresh.lastDeviceFlag,
    searches_alike hne hnodup hfamily (.inl ⟨hfresh, hreset⟩)⟩
  rw [← hperm.length_eq, length_cons, Host.searches, hsearch]
  simp only [hsearches]
  rfl

/-- A device of the family 0x28. -/
def thermometer (n : UInt8) : Rom := fun i => [0x28, n, n, n, n, n, n, n].getD i.val n

theorem thermometer_ne : thermometer 1 ≠ thermometer 2 := fun h =>
  absurd (congrFun h 1) (by decide)

theorem thermometers_enumerated :
    (∃ (roms : List Rom) (host' : Host), roms.Perm [thermometer 1, thermometer 2] ∧
      Host.searches [thermometer 1, thermometer 2] 3 Host.resetSearch =
        (roms.map some ++ [none], host')) ∧
      ∃ rom ∈ [thermometer 1, thermometer 2], rom 0 = 0x28 ∧
        ((Host.targetSearch 0x28).search [thermometer 1, thermometer 2]).1 = some rom := by
  have hnodup : [thermometer 1, thermometer 2].Nodup := by
    simpa using thermometer_ne
  have hfamily : ∀ rom ∈ [thermometer 1, thermometer 2], rom 0 ≠ 0 := by
    intro rom hrom
    rcases mem_pair.mp hrom with rfl | rfl <;> decide
  obtain ⟨⟨roms, host', hperm, hsearches, -⟩, htarget⟩ :=
    search_enumerates [thermometer 1, thermometer 2] (cons_ne_nil _ _) hnodup hfamily
  exact ⟨⟨roms, host', hperm, hsearches⟩, htarget 0x28 ⟨thermometer 1, mem_cons_self, by decide⟩⟩

/-- The ROM that was found last stays in the host. -/
theorem thermometer_stays :
    (Host.searches [thermometer 1] 2 Host.resetSearch).2 ≠ Host.resetSearch := by
  have hne : [thermometer 1] ≠ [] := cons_ne_nil _ _
  have hnodup : [thermometer 1].Nodup := nodup_singleton _
  obtain ⟨rom, rest, host₁, hfound, hsearch, hat⟩ := search_first hne hnodup
    (by simp only [mem_singleton, forall_eq]; decide) (⟨rfl, rfl⟩ : Fresh Host.resetSearch)
  have hperm : (rom :: rest).Perm [thermometer 1] := hfound ▸ BitSearch.order_perm 64 1 _
  obtain ⟨rfl, rfl⟩ := List.cons.inj (perm_singleton.mp hperm)
  have hfound' : found [thermometer 1] = [] ++ [thermometer 1] := hfound
  have hlast := search_last hnodup hfound' hat
  have hend : (Host.searches [thermometer 1] 2 Host.resetSearch).2 = host₁.clear := by
    simp only [Host.searches, hsearch, hlast]
  intro heq
  have hkept : host₁.clear.savedRom = thermometer 1 := hat.savedRom
  rw [← hend, heq] at hkept
  exact absurd (congrFun hkept 0) (by decide)

end NikitaFirmware.OneWire
