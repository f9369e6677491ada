import Mathlib.Tactic.IntervalCases

/-!
# Branches with a relocated offset

`elf_relocate_jmp_call` in `lib/flipper_application/elf/elf_file.c`. An offset of 25 bits is scattered
over the two halves of a BL or B.W, and where the symbol is too far away the branch goes to a
trampoline.
-/

namespace NikitaFirmware.Elf

open List BitVec
abbrev Addr := BitVec 32

abbrev Half := BitVec 16

/-- The types of relocation that the loader knows, and the other ones by their number. -/
inductive RelocType
  | abs32
  | rel32
  | thmPc22
  | call
  | thmJump24
  | target1
  | thmMovwAbsNc
  | thmMovtAbs
  | other (n : Nat)
  deriving DecidableEq

structure JMPTrampoline where
  code : List (BitVec 8)
  addr : Addr

def trampolineCode : List (BitVec 8) := [0xdf, 0xf8, 0x02, 0xc0, 0x60, 0x47]

def createTrampoline (addr : Addr) : JMPTrampoline := ⟨trampolineCode, addr⟩

/-- The offset in a branch, before its sign is extended. -/
def branchBits (hi lo : Half) : BitVec 32 :=
  let hi := hi.setWidth 32
  let lo := lo.setWidth 32
  let s := (hi >>> 10) &&& 1
  let j1 := (lo >>> 13) &&& 1
  let j2 := (lo >>> 11) &&& 1
  let i1 := (j1 ^^^ s) ^^^ 1
  let i2 := (j2 ^^^ s) ^^^ 1
  let imm10 := hi &&& 0x3ff
  let imm11 := lo &&& 0x7ff
  (s <<< 24) ||| (i1 <<< 23) ||| (i2 <<< 22) ||| (imm10 <<< 12) ||| (imm11 <<< 1)

def branchOffset (hi lo : Half) : BitVec 32 :=
  let offset := branchBits hi lo
  if offset &&& 0x01000000#32 ≠ 0#32 then offset - 0x02000000#32 else offset

def storeHi (hi : Half) (offset : BitVec 32) : Half :=
  let s := (offset.sshiftRight 24) &&& 1
  let imm10 := (offset.sshiftRight 12) &&& 0x3ff
  ((hi.setWidth 32 &&& 0xf800) ||| (s <<< 10) ||| imm10).setWidth 16

def storeLo (lo : Half) (blxBit offset : BitVec 32) : Half :=
  let s := (offset.sshiftRight 24) &&& 1
  let i1 := (offset.sshiftRight 23) &&& 1
  let i2 := (offset.sshiftRight 22) &&& 1
  let j1 := s ^^^ (i1 ^^^ 1)
  let j2 := s ^^^ (i2 ^^^ 1)
  let imm11 := (offset.sshiftRight 1) &&& 0x7ff
  ((lo.setWidth 32 &&& 0xc000) ||| (j1 <<< 13) ||| blxBit ||| (j2 <<< 11) ||| imm11).setWidth 16

/-- An address of memory that has been allocated. -/
structure Allocated where
  addr : Addr
  aligned : addr &&& 3#32 = 0#32

/-- The trampolines that have been created, and the cache of their addresses by symbol. -/
structure Trampolines where
  cache : List (Addr × Allocated)
  created : List (Addr × JMPTrampoline)
  valid : ∀ entry ∈ cache, (entry.2.addr, createTrampoline entry.1) ∈ created

/-- A trampoline to a symbol: the one in the cache, or one that is created in memory that has been
allocated. -/
def Trampolines.find (t : Trampolines) (malloc : Allocated) (symAddr : Addr) :
    Allocated × Trampolines :=
  match t.cache.lookup symAddr with
  | some found => (found, t)
  | none => (malloc, { cache := (symAddr, malloc) :: t.cache
                       created := (malloc.addr, createTrampoline symAddr) :: t.created
                       valid := forall_mem_cons.mpr ⟨mem_cons_self,
                         fun entry hmem => mem_cons_of_mem _ (t.valid entry hmem)⟩ })

def outOfRange (offset : BitVec 32) : Bool :=
  decide (0x1000000 ≤ offset.toInt) || decide (offset.toInt < -0x1000000)

/-- What has become of a branch: its halves, the trampoline that it goes to, and the trampolines. -/
structure Branched where
  hi : Half
  lo : Half
  trampoline : Option Addr
  trampolines : Trampolines

/-- `elf_relocate_jmp_call`, of the two halves of the instruction that stands at `relAddr`. -/
def relocateJmpCall (t : Trampolines) (malloc : Allocated) (relAddr : Addr) (type : RelocType)
    (symAddr : Addr) (hi lo : Half) : Branched :=
  let initial := branchOffset hi lo
  let toThumb : Bool := symAddr &&& 1#32 ≠ 0#32
  let isCall : Bool := type = .thmPc22
  let toArm : Bool := !toThumb && isCall
  let blxBit : BitVec 32 := if toArm then 0 else 1 <<< 12
  let aligned (offset : BitVec 32) : BitVec 32 := if toArm then (offset + 3) &&& (-4) else offset
  let offset := aligned (initial + (symAddr - relAddr))
  if (!toThumb || outOfRange offset) && (toThumb || symAddr &&& 2#32 ≠ 0#32 || !isCall) then
    let found := t.find malloc symAddr
    let offset := aligned (initial + (found.1.addr - relAddr))
    ⟨storeHi hi offset, storeLo lo blxBit offset, some found.1.addr, found.2⟩
  else ⟨storeHi hi offset, storeLo lo blxBit offset, none, t⟩

/-- Where a branch jumps to: the offset counts from the instruction after the next one. -/
def branchTarget (relAddr : Addr) (hi lo : Half) : Addr := relAddr + 4 + branchOffset hi lo

namespace JMPTrampoline

def bytes (t : JMPTrampoline) : List (BitVec 8) :=
  t.code ++ [t.addr.extractLsb' 0 8, t.addr.extractLsb' 8 8, t.addr.extractLsb' 16 8,
    t.addr.extractLsb' 24 8]

def half (t : JMPTrampoline) (k : Nat) : Half := t.bytes.getD (k + 1) 0 ++ t.bytes.getD k 0

/-- Where the two instructions of a trampoline jump to that is entered at this address: the first one
loads a register with a literal relative to an aligned address, the second one jumps to it. -/
def jump (t : JMPTrampoline) (entry : Addr) : Option Addr :=
  let literal := ((entry + 4 &&& ~~~3#32) + (t.half 2 &&& 0xfff).setWidth 32 - entry).toNat
  if t.half 0 = 0xF8DF ∧ t.half 4 = 0x4700 ||| (t.half 2 >>> 12) <<< 3 ∧
      literal + 4 ≤ t.bytes.length then
    some (t.half (literal + 2) ++ t.half literal)
  else none

end JMPTrampoline

theorem and_three_eq_zero_iff (x : Addr) : x &&& 3#32 = 0#32 ↔ x.toNat % 4 = 0 := by
  rw [← toNat_inj, toNat_and]
  change x.toNat &&& (2 ^ 2 - 1) = 0 ↔ _
  rw [Nat.and_two_pow_sub_one_eq_mod]

theorem and_not_three {x : Addr} (h : x &&& 3#32 = 0#32) : x &&& ~~~3#32 = x := by
  apply eq_of_getLsbD_eq
  intro i hi
  have hbit := congrArg (·.getLsbD i) h
  simp only [getLsbD_and, getLsbD_zero, Bool.and_eq_false_iff] at hbit
  rw [getLsbD_and, getLsbD_not, decide_eq_true hi, Bool.true_and]
  rcases hbit with h | h <;> simp [h]

theorem append_bytes (x : BitVec 32) : (x.extractLsb' 24 8 ++ x.extractLsb' 16 8) ++
    (x.extractLsb' 8 8 ++ x.extractLsb' 0 8) = x := by
  apply eq_of_getLsbD_eq
  intro i hi
  simp only [getLsbD_append, getLsbD_extractLsb']
  change i < 32 at hi
  interval_cases i <;> rfl

theorem jump_createTrampoline (entry : Allocated) (symAddr : Addr) :
    (createTrampoline symAddr).jump entry.addr = some symAddr := by
  have haligned : entry.addr + 4 &&& ~~~3#32 = entry.addr + 4 := by
    have hmod := (and_three_eq_zero_iff _).mp entry.aligned
    refine and_not_three ((and_three_eq_zero_iff _).mpr ?_)
    rw [toNat_add]
    change (entry.addr.toNat + 4) % 4294967296 % 4 = 0
    omega
  have hhalf : (createTrampoline symAddr).half 2 = 0xC002#16 := by
    show 0xc0#8 ++ 0x02#8 = 0xC002#16
    decide
  have hliteral : (entry.addr + 4 + (0xC002#16 &&& 0xfff).setWidth 32 - entry.addr).toNat = 6 := by
    rw [show (0xC002#16 &&& 0xfff).setWidth 32 = 2#32 by decide]
    bv_omega
  have hload : (createTrampoline symAddr).half 0 = 0xF8DF#16 := by
    show 0xf8#8 ++ 0xdf#8 = 0xF8DF#16
    decide
  have hjump : (createTrampoline symAddr).half 4 = 0x4700#16 ||| (0xC002#16 >>> 12) <<< 3 := by
    show 0x47#8 ++ 0x60#8 = 0x4700#16 ||| (0xC002#16 >>> 12) <<< 3
    decide
  rw [JMPTrampoline.jump, haligned, hhalf, hliteral, if_pos ⟨hload, hjump, show 10 ≤ 10 by decide⟩]
  exact congrArg some (append_bytes symAddr)

theorem mem_created_find {t : Trampolines} {malloc : Allocated} {symAddr : Addr} :
    ((t.find malloc symAddr).1.addr, createTrampoline symAddr) ∈ (t.find malloc symAddr).2.created := by
  rw [Trampolines.find]
  split
  next found h =>
    obtain ⟨before, after, hcache, -⟩ := lookup_eq_some_iff.mp h
    refine t.valid (symAddr, found) ?_
    rw [hcache]
    exact mem_append_right before mem_cons_self
  next => exact mem_cons_self

theorem branchBits_store (hi lo : Half) (offset : BitVec 32) :
    branchBits (storeHi hi offset) (storeLo lo 0x1000#32 offset) = offset &&& 0x01fffffe#32 := by
  have hxor : ∀ a b : Bool, (a != (b != a)) = b := by decide
  apply eq_of_getLsbD_eq
  intro i hi
  interval_cases i <;> simp [branchBits, storeHi, storeLo, getElem_sshiftRight, hxor]

theorem getLsbD_of_lt {x : BitVec 32} (h : x.toNat < 2 ^ 24) {i : Nat} (hi : 24 ≤ i) :
    x.getLsbD i = false := by
  rw [getLsbD]
  exact Nat.testBit_lt_two_pow (Nat.lt_of_lt_of_le h (Nat.pow_le_pow_right (by decide) hi))

theorem getLsbD_of_inRange {offset : BitVec 32} (h : outOfRange offset = false) {i : Nat}
    (hlow : 24 ≤ i) (hhigh : i < 32) : offset.getLsbD i = offset.getLsbD 24 := by
  rw [outOfRange, Bool.or_eq_false_iff, decide_eq_false_iff_not, decide_eq_false_iff_not] at h
  have hcases : offset.toNat < 2 ^ 24 ∨ (~~~offset).toNat < 2 ^ 24 := by
    rw [toNat_not]
    rw [toInt_eq_toNat_cond] at h
    split at h <;> omega
  rcases hcases with hlt | hlt
  · rw [getLsbD_of_lt hlt hlow, getLsbD_of_lt hlt (Nat.le_refl 24)]
  · have hi := getLsbD_of_lt hlt hlow
    have h24 := getLsbD_of_lt hlt (Nat.le_refl 24)
    rw [getLsbD_not, decide_eq_true hhigh, Bool.true_and, Bool.not_eq_false'] at hi
    rw [getLsbD_not, decide_eq_true (show 24 < 32 by decide), Bool.true_and,
      Bool.not_eq_false'] at h24
    rw [hi, h24]

theorem and_sign_eq_zero_iff (x : BitVec 32) :
    x &&& 0x01000000#32 = 0#32 ↔ x.getLsbD 24 = false := by
  constructor
  · intro h
    simpa using congrArg (·.getLsbD 24) h
  · intro h
    apply eq_of_getLsbD_eq
    intro i hi
    interval_cases i <;> simp
    simpa using h

theorem branchOffset_store {offset : BitVec 32} (hi lo : Half) (h : outOfRange offset = false) :
    branchOffset (storeHi hi offset) (storeLo lo 0x1000#32 offset) = offset &&& ~~~1#32 := by
  have hsign : ∀ i, 24 ≤ i → i < 32 → offset.getLsbD i = offset.getLsbD 24 :=
    fun i => getLsbD_of_inRange h
  have hbit : (offset &&& 0x01fffffe#32).getLsbD 24 = offset.getLsbD 24 := by simp
  rw [branchOffset, branchBits_store]
  by_cases hneg : offset.getLsbD 24 = true
  · -- the bits above the sign are set
    have hdisjoint : (offset &&& 0x01fffffe#32) &&& 0xfe000000#32 = 0#32 := by
      rw [BitVec.and_assoc, show 0x01fffffe#32 &&& 0xfe000000#32 = 0#32 by decide, BitVec.and_zero]
    have hsub : (offset &&& 0x01fffffe#32) - 0x02000000#32 =
        (offset &&& 0x01fffffe#32) ||| 0xfe000000#32 := by
      rw [← BitVec.add_eq_or_of_and_eq_zero _ _ hdisjoint, BitVec.sub_eq_add_neg]
      rfl
    rw [if_pos (fun hzero => by
      rw [and_sign_eq_zero_iff, hbit, hneg] at hzero
      exact Bool.noConfusion hzero), hsub]
    apply eq_of_getLsbD_eq
    intro i hi
    by_cases hlow : i < 24
    · interval_cases i <;> simp
    · have hi' := hsign i (Nat.le_of_not_lt hlow) hi
      rw [hneg] at hi'
      interval_cases i <;> simp at hi' ⊢ <;> exact hi'
  · have hpos : offset.getLsbD 24 = false := Bool.eq_false_iff.mpr hneg
    rw [if_neg (fun hzero => hzero ((and_sign_eq_zero_iff _).mpr (hbit.trans hpos)))]
    apply eq_of_getLsbD_eq
    intro i hi
    by_cases hlow : i < 24
    · interval_cases i <;> simp
    · have hi' := hsign i (Nat.le_of_not_lt hlow) hi
      rw [hpos] at hi'
      interval_cases i <;> simp at hi' ⊢ <;> exact hi'

theorem storeHi_kept (hi : Half) (offset : BitVec 32) :
    storeHi hi offset &&& 0xf800#16 = hi &&& 0xf800#16 := by
  apply eq_of_getLsbD_eq
  intro i hi
  interval_cases i <;> simp [storeHi]

theorem storeLo_kept {lo : Half} (offset : BitVec 32) (hlo : lo.getLsbD 12 = true) :
    storeLo lo 0x1000#32 offset &&& 0xd000#16 = lo &&& 0xd000#16 := by
  have hbit : lo[12] = true := hlo
  apply eq_of_getLsbD_eq
  intro i hi
  interval_cases i <;> simp [storeLo, hbit]

theorem even_iff (x : BitVec 32) : x.toNat % 2 = 0 ↔ x.getLsbD 0 = false := by
  rw [getLsbD, Nat.testBit_zero, decide_eq_false_iff_not]
  omega

theorem branchOffset_even (hi lo : Half) : (branchOffset hi lo).toNat % 2 = 0 := by
  have hbits : (branchBits hi lo).toNat % 2 = 0 := by
    rw [even_iff]
    simp [branchBits]
  rw [branchOffset]
  split
  · rw [toNat_sub]
    change (4294967296 - 33554432 + (branchBits hi lo).toNat) % 4294967296 % 2 = 0
    omega
  · exact hbits

theorem toNat_and_not_one (x : BitVec 32) : (x &&& ~~~1#32).toNat = x.toNat / 2 * 2 := by
  have hshift : x &&& ~~~1#32 = (x >>> 1) <<< 1 := by
    apply eq_of_getLsbD_eq
    intro i hi
    interval_cases i <;> simp
  have hlt := x.isLt
  rw [hshift, toNat_shiftLeft, toNat_ushiftRight, Nat.shiftLeft_eq, Nat.shiftRight_eq_div_pow]
  omega

theorem and_not_one_add {x y : BitVec 32} (hy : y.toNat % 2 = 0) :
    (x &&& ~~~1#32) + y = (x + y) &&& ~~~1#32 := by
  rw [← toNat_inj, toNat_add, toNat_and_not_one, toNat_and_not_one, toNat_add]
  omega

theorem and_not_one_of_even {x : BitVec 32} (hx : x.toNat % 2 = 0) : x &&& ~~~1#32 = x := by
  rw [← toNat_inj, toNat_and_not_one]
  omega

/-- The branch jumps to the symbol and its addend, or to a trampoline that does; its other bits are
kept. The processor counts from four bytes behind the branch, and addresses are even. -/
structure Branched.Right (b : Branched) (relAddr symAddr : Addr) (hi lo : Half) : Prop where
  keptHi : b.hi &&& 0xf800#16 = hi &&& 0xf800#16
  keptLo : b.lo &&& 0xd000#16 = lo &&& 0xd000#16
  direct : b.trampoline = none →
    branchTarget relAddr b.hi b.lo = (symAddr + branchOffset hi lo + 4) &&& ~~~1#32
  far : ∀ entry, b.trampoline = some entry → branchTarget relAddr b.hi b.lo = entry ∧
    ∃ t, (entry, t) ∈ b.trampolines.created ∧ t.jump entry = some (symAddr + branchOffset hi lo + 4)

section Thumb
variable {relAddr symAddr : Addr} {lo : Half} (t : Trampolines) (malloc : Allocated)
  (type : RelocType) (hi : Half)

theorem relocateJmpCall_near (hthumb : symAddr &&& 1#32 ≠ 0#32)
    (h : outOfRange (branchOffset hi lo + (symAddr - relAddr)) = false) :
    relocateJmpCall t malloc relAddr type symAddr hi lo =
      ⟨storeHi hi (branchOffset hi lo + (symAddr - relAddr)),
        storeLo lo 0x1000#32 (branchOffset hi lo + (symAddr - relAddr)), none, t⟩ := by
  rw [relocateJmpCall]
  simp only [hthumb, ne_eq, not_false_eq_true, decide_true, Bool.not_true, Bool.false_and,
    Bool.false_eq_true, if_false, h, Bool.false_or]
  rfl

theorem relocateJmpCall_far (hthumb : symAddr &&& 1#32 ≠ 0#32)
    (h : outOfRange (branchOffset hi lo + (symAddr - relAddr)) = true) :
    relocateJmpCall t malloc relAddr type symAddr hi lo =
      ⟨storeHi hi (branchOffset hi lo + ((t.find malloc symAddr).1.addr - relAddr)),
        storeLo lo 0x1000#32 (branchOffset hi lo + ((t.find malloc symAddr).1.addr - relAddr)),
        some (t.find malloc symAddr).1.addr, (t.find malloc symAddr).2⟩ := by
  rw [relocateJmpCall]
  simp only [hthumb, ne_eq, not_false_eq_true, decide_true, Bool.not_true, Bool.false_and,
    Bool.false_eq_true, if_false, h, Bool.false_or, Bool.true_or, Bool.and_true, if_true]
  rfl

theorem relocateJmpCall_right_iff (hrel : relAddr.toNat % 2 = 0) (hthumb : symAddr &&& 1#32 ≠ 0#32)
    (hlo : lo.getLsbD 12 = true)
    (htrampoline : outOfRange
      (branchOffset hi lo + ((t.find malloc symAddr).1.addr - relAddr)) = false) :
    (relocateJmpCall t malloc relAddr type symAddr hi lo).Right relAddr symAddr hi lo ↔
      outOfRange (branchOffset hi lo + (symAddr - relAddr)) = false ∨
        branchOffset hi lo = BitVec.ofInt 32 (-4) := by
  have hbase : (relAddr + 4).toNat % 2 = 0 := by
    rw [toNat_add]
    change (relAddr.toNat + 4) % 4294967296 % 2 = 0
    omega
  have hoffset := branchOffset_even hi lo
  cases hrange : outOfRange (branchOffset hi lo + (symAddr - relAddr)) with
  | false =>
    rw [relocateJmpCall_near t malloc type hi hthumb hrange]
    refine iff_of_true ⟨storeHi_kept hi _, storeLo_kept _ hlo, fun _ => ?_,
      fun entry h => absurd h.symm (Option.some_ne_none entry)⟩ (.inl rfl)
    rw [branchTarget, branchOffset_store hi lo hrange, BitVec.add_comm, and_not_one_add hbase]
    congr 1
    generalize branchOffset hi lo = offset
    bv_omega
  | true =>
    rw [relocateJmpCall_far t malloc type hi hthumb hrange]
    generalize hfound : (t.find malloc symAddr).1 = found at htrampoline ⊢
    have heven : (branchOffset hi lo + (found.addr - relAddr)).toNat % 2 = 0 := by
      have haligned := (and_three_eq_zero_iff _).mp found.aligned
      rw [toNat_add, toNat_sub]
      omega
    have htarget : branchTarget relAddr (storeHi hi (branchOffset hi lo + (found.addr - relAddr)))
        (storeLo lo 0x1000#32 (branchOffset hi lo + (found.addr - relAddr))) =
          found.addr + (branchOffset hi lo + 4) := by
      rw [branchTarget, branchOffset_store hi lo htrampoline, and_not_one_of_even heven]
      generalize branchOffset hi lo = offset
      bv_omega
    constructor
    · intro h
      obtain ⟨hentry, -⟩ := h.far _ rfl
      refine .inr ?_
      rw [htarget] at hentry
      generalize branchOffset hi lo = offset at hentry ⊢
      bv_omega
    · rintro (h | h)
      · exact Bool.noConfusion h
      · refine ⟨storeHi_kept hi _, storeLo_kept _ hlo,
          fun hnone => absurd hnone (Option.some_ne_none _), fun entry hentry => ?_⟩
        obtain rfl := Option.some.inj hentry
        refine ⟨htarget.trans ?_, createTrampoline symAddr, ?_, ?_⟩
        · rw [h]
          bv_omega
        · have hmem := @mem_created_find t malloc symAddr
          rw [hfound] at hmem
          exact hmem
        · have hsum : symAddr + BitVec.ofInt 32 (-4) + 4 = symAddr := by bv_omega
          rw [h, jump_createTrampoline, hsum]

end Thumb

abbrev Memory := Addr → BitVec 8

namespace Memory

variable (m : Memory) (a : Addr)

def read16 : Half := m (a + 1) ++ m a

def write16 (x : Half) : Memory := fun b =>
  if b = a then x.extractLsb' 0 8 else if b = a + 1 then x.extractLsb' 8 8 else m b

def read32 : BitVec 32 := m.read16 (a + 2) ++ m.read16 a

def write32 (x : BitVec 32) : Memory :=
  (m.write16 a (x.extractLsb' 0 16)).write16 (a + 2) (x.extractLsb' 16 16)

variable {m a} {b : Addr} {x : Half}

theorem append_halves (x : Half) : x.extractLsb' 8 8 ++ x.extractLsb' 0 8 = x := by
  apply eq_of_getLsbD_eq
  intro i hi
  simp only [getLsbD_append, getLsbD_extractLsb']
  change i < 16 at hi
  interval_cases i <;> rfl

theorem append_words (x : BitVec 32) : x.extractLsb' 16 16 ++ x.extractLsb' 0 16 = x := by
  apply eq_of_getLsbD_eq
  intro i hi
  simp only [getLsbD_append, getLsbD_extractLsb']
  change i < 32 at hi
  interval_cases i <;> rfl

theorem add_one_ne (a : Addr) : a + 1 ≠ a := by
  intro h
  bv_omega

theorem write16_apply : m.write16 a x b =
    if b = a then x.extractLsb' 0 8 else if b = a + 1 then x.extractLsb' 8 8 else m b := rfl

theorem read16_write16 : (m.write16 a x).read16 a = x := by
  rw [read16, write16_apply, write16_apply, if_neg (add_one_ne a), if_pos rfl, if_pos rfl]
  exact append_halves x

theorem read16_write16_of_ne (h : b ≠ a) (h' : b ≠ a + 1) (h'' : b + 1 ≠ a) :
    (m.write16 a x).read16 b = m.read16 b := by
  have hsucc : b + 1 ≠ a + 1 := fun heq => h (by bv_omega)
  rw [read16, write16_apply, write16_apply, if_neg h, if_neg h', if_neg h'', if_neg hsucc, read16]

theorem read32_write32 (x : BitVec 32) : (m.write32 a x).read32 a = x := by
  have h : a ≠ a + 2 := by intro h; bv_omega
  have h' : a ≠ a + 2 + 1 := by intro h; bv_omega
  have h'' : a + 1 ≠ a + 2 := by intro h; bv_omega
  rw [read32, write32, read16_write16, read16_write16_of_ne h h' h'', read16_write16]
  exact append_words x

/-- Both halves of an instruction that is written. -/
def writeInsn (m : Memory) (a : Addr) (hi lo : Half) : Memory := (m.write16 a hi).write16 (a + 2) lo

theorem read16_writeInsn (hi lo : Half) :
    (m.writeInsn a hi lo).read16 a = hi ∧ (m.writeInsn a hi lo).read16 (a + 2) = lo := by
  have h : a ≠ a + 2 := by intro h; bv_omega
  have h' : a ≠ a + 2 + 1 := by intro h; bv_omega
  have h'' : a + 1 ≠ a + 2 := by intro h; bv_omega
  refine ⟨?_, read16_write16⟩
  rw [writeInsn, read16_write16_of_ne h h' h'', read16_write16]

end Memory

/-- The immediate operand of a MOVW or MOVT. -/
def movImm (upper lower : Half) : BitVec 32 :=
  let i := (upper.setWidth 32 >>> 10) &&& 1
  let imm4 := upper.setWidth 32 &&& 0x000F
  let imm3 := (lower.setWidth 32 >>> 12) &&& 0x7
  let imm8 := lower.setWidth 32 &&& 0x00FF
  (imm4 <<< 12) ||| (i <<< 11) ||| (imm3 <<< 8) ||| imm8

/-- The first half of a MOVW or MOVT with another operand. -/
def movUpper (upper : Half) (addr : BitVec 32) : Half :=
  ((upper.setWidth 32 &&& 0xFBF0) ||| (((addr >>> 11) &&& 1) <<< 10) |||
    ((addr >>> 12) &&& 0x000F)).setWidth 16

/-- The second half of a MOVW or MOVT with another operand. -/
def movLower (lower : Half) (addr : BitVec 32) : Half :=
  ((lower.setWidth 32 &&& 0x8F00) ||| (((addr >>> 8) &&& 0x7) <<< 12) |||
    (addr &&& 0x00FF)).setWidth 16

def relocateMov (type : RelocType) (symAddr : Addr) (upper lower : Half) : Half × Half :=
  let addr := symAddr + movImm upper lower
  let addr := if type = .thmMovtAbs then addr >>> 16 else addr &&& 0x0000FFFF
  (movUpper upper addr, movLower lower addr)

theorem movImm_store (upper lower : Half) (addr : BitVec 32) :
    movImm (movUpper upper addr) (movLower lower addr) = addr &&& 0xffff#32 := by
  apply eq_of_getLsbD_eq
  intro i hi
  interval_cases i <;> simp [movImm, movUpper, movLower]

theorem movImm_high (upper lower : Half) : movImm upper lower &&& 0xffff#32 = movImm upper lower := by
  apply eq_of_getLsbD_eq
  intro i hi
  interval_cases i <;> simp [movImm]

/-- The addend that an operand stands for, which is signed. -/
def movAddend (upper lower : Half) : BitVec 32 :=
  ((movImm upper lower).setWidth 16).signExtend 32

/-- What a MOVW and a MOVT load, the operand of the latter into the high half. -/
def loaded (movw movt : Half × Half) : BitVec 32 :=
  (movImm movt.1 movt.2).setWidth 16 ++ (movImm movw.1 movw.2).setWidth 16

theorem loaded_eq {symAddr imm : BitVec 32} {movw movt : Half × Half}
    (hw : movImm movw.1 movw.2 = imm) (ht : movImm movt.1 movt.2 = imm) :
    loaded (relocateMov .thmMovwAbsNc symAddr movw.1 movw.2)
      (relocateMov .thmMovtAbs symAddr movt.1 movt.2) = symAddr + imm := by
  have hmovw : relocateMov .thmMovwAbsNc symAddr movw.1 movw.2 =
    (movUpper movw.1 (symAddr + imm &&& 0x0000FFFF), movLower movw.2 (symAddr + imm &&& 0x0000FFFF)) :=
    by rw [← hw]; rfl
  have hmovt : relocateMov .thmMovtAbs symAddr movt.1 movt.2 =
    (movUpper movt.1 ((symAddr + imm) >>> 16), movLower movt.2 ((symAddr + imm) >>> 16)) := by
    rw [← ht]; rfl
  rw [loaded, hmovw, hmovt, movImm_store, movImm_store]
  generalize symAddr + imm = addr
  apply eq_of_getLsbD_eq
  intro i hi
  change i < 32 at hi
  simp only [getLsbD_append, getLsbD_setWidth, getLsbD_and, getLsbD_ushiftRight]
  interval_cases i <;> simp

theorem loaded_eq_iff {symAddr imm : BitVec 32} {movw movt : Half × Half}
    (hw : movImm movw.1 movw.2 = imm) (ht : movImm movt.1 movt.2 = imm) :
    loaded (relocateMov .thmMovwAbsNc symAddr movw.1 movw.2)
        (relocateMov .thmMovtAbs symAddr movt.1 movt.2) =
      symAddr + movAddend movw.1 movw.2 ↔ imm.getLsbD 15 = false := by
  have himm : imm &&& 0xffff#32 = imm := hw ▸ movImm_high movw.1 movw.2
  rw [loaded_eq hw ht, movAddend, hw, BitVec.add_right_inj]
  constructor
  · intro h
    have hbit := congrArg (·.getLsbD 16) h
    rw [← himm] at hbit
    simpa [BitVec.getElem_signExtend, BitVec.msb_eq_getLsbD_last] using hbit
  · intro hbit
    have hmsb : (imm.setWidth 16).msb = false := by
      rw [BitVec.msb_eq_getLsbD_last]
      simpa using hbit
    apply BitVec.eq_of_getLsbD_eq
    intro i hi
    rw [← himm]
    interval_cases i <;> simp [getElem_signExtend, hmsb]

/-- What relocations change: memory and the trampolines. -/
structure Loaded where
  memory : Memory
  trampolines : Trampolines

def relocateSymbol (malloc : Allocated) (l : Loaded) (relAddr : Addr) (type : RelocType)
    (symAddr : Addr) : Bool × Loaded :=
  match type with
  | .target1 | .abs32 =>
    (true, { l with memory := l.memory.write32 relAddr (l.memory.read32 relAddr + symAddr) })
  | .rel32 =>
    (true, { l with memory :=
      l.memory.write32 relAddr (l.memory.read32 relAddr + (symAddr - relAddr)) })
  | .thmPc22 | .call | .thmJump24 =>
    let b := relocateJmpCall l.trampolines malloc relAddr type symAddr (l.memory.read16 relAddr)
      (l.memory.read16 (relAddr + 2))
    (true, ⟨l.memory.writeInsn relAddr b.hi b.lo, b.trampolines⟩)
  | .thmMovwAbsNc | .thmMovtAbs =>
    let halves := relocateMov type symAddr (l.memory.read16 relAddr) (l.memory.read16 (relAddr + 2))
    (true, { l with memory := l.memory.writeInsn relAddr halves.1 halves.2 })
  | .other _ => (false, l)

theorem relocateSymbol_branch (malloc : Allocated) (l : Loaded) (relAddr symAddr : Addr)
    {type : RelocType} (htype : type = .thmPc22 ∨ type = .thmJump24) :
    ∃ b, b = relocateJmpCall l.trampolines malloc relAddr type symAddr (l.memory.read16 relAddr)
        (l.memory.read16 (relAddr + 2)) ∧
      (relocateSymbol malloc l relAddr type symAddr).1 = true ∧
      (relocateSymbol malloc l relAddr type symAddr).2.memory.read16 relAddr = b.hi ∧
      (relocateSymbol malloc l relAddr type symAddr).2.memory.read16 (relAddr + 2) = b.lo ∧
      (relocateSymbol malloc l relAddr type symAddr).2.trampolines = b.trampolines := by
  refine ⟨_, rfl, ?_⟩
  rcases htype with rfl | rfl
  · exact ⟨rfl, (Memory.read16_writeInsn _ _).1, (Memory.read16_writeInsn _ _).2, rfl⟩
  · exact ⟨rfl, (Memory.read16_writeInsn _ _).1, (Memory.read16_writeInsn _ _).2, rfl⟩

/-- An absolute or relative word is that of the symbol and its addend. A branch to Thumb code is right
if and only if the symbol is in range or the addend is that of the symbol itself, a pair of moves if
and only if the addend is not negative. -/
theorem relocations_iff (malloc : Allocated) (l : Loaded) (relAddr symAddr : Addr) :
    ((relocateSymbol malloc l relAddr .abs32 symAddr).2.memory.read32 relAddr =
        symAddr + l.memory.read32 relAddr ∧
      (relocateSymbol malloc l relAddr .target1 symAddr).2.memory.read32 relAddr =
        symAddr + l.memory.read32 relAddr ∧
      (relocateSymbol malloc l relAddr .rel32 symAddr).2.memory.read32 relAddr =
        symAddr + l.memory.read32 relAddr - relAddr) ∧
    (∀ type : RelocType,
      type = .thmPc22 ∨ type = .thmJump24 → relAddr.toNat % 2 = 0 → symAddr &&& 1#32 ≠ 0#32 →
      (l.memory.read16 (relAddr + 2)).getLsbD 12 = true →
      outOfRange (branchOffset (l.memory.read16 relAddr) (l.memory.read16 (relAddr + 2)) +
        ((l.trampolines.find malloc symAddr).1.addr - relAddr)) = false →
      ∃ b, b = relocateJmpCall l.trampolines malloc relAddr type symAddr (l.memory.read16 relAddr)
          (l.memory.read16 (relAddr + 2)) ∧
        (relocateSymbol malloc l relAddr type symAddr).2.memory.read16 relAddr = b.hi ∧
        (relocateSymbol malloc l relAddr type symAddr).2.memory.read16 (relAddr + 2) = b.lo ∧
        (relocateSymbol malloc l relAddr type symAddr).2.trampolines = b.trampolines ∧
        (b.Right relAddr symAddr (l.memory.read16 relAddr) (l.memory.read16 (relAddr + 2)) ↔
          outOfRange (branchOffset (l.memory.read16 relAddr) (l.memory.read16 (relAddr + 2)) +
            (symAddr - relAddr)) = false ∨
          branchOffset (l.memory.read16 relAddr) (l.memory.read16 (relAddr + 2)) =
            BitVec.ofInt 32 (-4))) ∧
    ∀ (imm : BitVec 32) (movw movt : Half × Half), movImm movw.1 movw.2 = imm →
      movImm movt.1 movt.2 = imm →
      (loaded (relocateMov .thmMovwAbsNc symAddr movw.1 movw.2)
          (relocateMov .thmMovtAbs symAddr movt.1 movt.2) = symAddr + movAddend movw.1 movw.2 ↔
        imm.getLsbD 15 = false) := by
  refine ⟨⟨?_, ?_, ?_⟩, ?_, fun imm movw movt => loaded_eq_iff⟩
  · exact Memory.read32_write32 _ |>.trans (BitVec.add_comm _ _)
  · exact Memory.read32_write32 _ |>.trans (BitVec.add_comm _ _)
  · refine (Memory.read32_write32 _).trans ?_
    generalize l.memory.read32 relAddr = word
    bv_omega
  · intro type htype hrel hthumb hlo htrampoline
    obtain ⟨b, hb, -, hhi, hlo', htrampolines⟩ :=
      relocateSymbol_branch malloc l relAddr symAddr htype
    refine ⟨b, hb, hhi, hlo', htrampolines, ?_⟩
    rw [hb]
    exact relocateJmpCall_right_iff l.trampolines malloc type _ hrel hthumb hlo htrampoline

/-- The branch `F7FF FFFE`, which goes to its symbol, at 0x2000, and a symbol at 0x1001. -/
theorem relocations_near :
    (relocateJmpCall ⟨[], [], fun _ h => absurd h not_mem_nil⟩ ⟨0x8000, by decide⟩ 0x2000 .thmPc22 0x1001
      0xF7FF 0xFFFE).Right 0x2000 0x1001 0xF7FF 0xFFFE := by
  let memory : Memory := Memory.writeInsn (fun _ => 0) 0x2000 0xF7FF 0xFFFE
  have hhi : memory.read16 0x2000 = 0xF7FF := (Memory.read16_writeInsn _ _).1
  have hlo : memory.read16 (0x2000 + 2) = 0xFFFE := (Memory.read16_writeInsn _ _).2
  have hbranch := (relocations_iff ⟨0x8000, by decide⟩ ⟨memory, ⟨[], [],
    fun _ h => absurd h not_mem_nil⟩⟩ 0x2000 0x1001).2.1 .thmPc22 (.inl rfl) (by decide) (by decide)
  dsimp only at hbranch
  rw [hhi, hlo] at hbranch
  obtain ⟨b, hb, -, -, -, hright⟩ := hbranch (by decide) (by decide)
  exact hb ▸ hright.mpr (.inl (by decide))

/-- The operand 0x8000 stands for a negative addend, which is not subtracted. -/
theorem negative_addend_not_loaded : ¬ ∀ (symAddr : Addr) (movw movt : Half × Half),
    movImm movw.1 movw.2 = movImm movt.1 movt.2 →
    loaded (relocateMov .thmMovwAbsNc symAddr movw.1 movw.2)
      (relocateMov .thmMovtAbs symAddr movt.1 movt.2) = symAddr + movAddend movw.1 movw.2 := by
  intro h
  have hloaded := h 0x20000 (0xF248, 0x0000) (0xF2C8, 0x0000) (by decide)
  cases hloaded

end NikitaFirmware.Elf
