import NikitaFirmware.Foundations.Machine
import NikitaFirmware.Foundations.FreeList

/-!
# The allocator of the firmware

`pvPortMalloc` and `vPortFree` with the list of free blocks that they keep in the heap itself.
Memory is a function from addresses to the words that lie there; a block link takes two words.

A call is cut where other calls can come in between: while the scheduler is suspended these are
the calls of the tracing dictionaries, and otherwise those of other threads. The heap is written
by the allocator, by the two `memset` and by the owner of a live block.
-/

namespace NikitaFirmware.Heap
open Foundations List

def portBYTE_ALIGNMENT : Nat := 8

def xHeapStructSize : Nat := 8

def heapMINIMUM_BLOCK_SIZE : Nat := xHeapStructSize * 2

def heapSIZE_MAX : Nat := 0xFFFFFFFF

def heapBLOCK_ALLOCATED_BITMASK : Nat := 0x80000000

def heapADD_WILL_OVERFLOW (a b : Nat) : Bool := heapSIZE_MAX - b < a

/-- What the linker and the start of the firmware fix: where the heap lies, where the variable
`xStart` lies, and the canary. -/
structure Layout where
  ucHeap : Nat
  configTOTAL_HEAP_SIZE : Nat
  xStart : Nat
  xHeapCanary : Nat
  positive : 0 < ucHeap
  room : 32 ≤ configTOTAL_HEAP_SIZE
  small : configTOTAL_HEAP_SIZE < heapBLOCK_ALLOCATED_BITMASK
  fits : ucHeap + configTOTAL_HEAP_SIZE ≤ heapSIZE_MAX
  apart : xStart + xHeapStructSize ≤ ucHeap ∨ ucHeap + configTOTAL_HEAP_SIZE ≤ xStart

/-- `heapPROTECT_BLOCK_POINTER` -/
def Layout.protect (L : Layout) (p : Nat) : Nat := p ^^^ L.xHeapCanary

@[simp] theorem Layout.protect_protect (L : Layout) (p : Nat) : L.protect (L.protect p) = p := by
  rw [protect, protect, Nat.xor_assoc, Nat.xor_self, Nat.xor_zero]

abbrev Memory := Nat → Nat

namespace Memory

def pxNextFreeBlock (mem : Memory) (block : Nat) : Nat := mem block

def xBlockSize (mem : Memory) (block : Nat) : Nat := mem (block + 4)

def setNext (mem : Memory) (block value : Nat) : Memory := Function.update mem block value

def setSize (mem : Memory) (block value : Nat) : Memory := Function.update mem (block + 4) value

/-- `memset` to 0, word by word. -/
def wipe (mem : Memory) (start size : Nat) : Memory := fun x =>
  if start ≤ x ∧ x < start + size then 0 else mem x

end Memory

open Memory

inductive Call
  /-- `pvPortMalloc` with its adjusted size, before the search. -/
  | searching (xWantedSize xToWipe : Nat)
  /-- `traceMALLOC` runs. -/
  | tracingMalloc (pvReturn xToWipe : Nat)
  /-- The scheduler has been resumed, the block has not been cleared yet. -/
  | returning (pvReturn xToWipe : Nat)
  /-- `vPortFree` has unmarked the block, the scheduler still runs. -/
  | freeing (pv : Nat)
  /-- `traceFREE` runs. -/
  | tracingFree (pv : Nat)
  deriving DecidableEq

def Call.suspends : Call → Bool
  | searching .. | tracingMalloc .. | tracingFree _ => true
  | returning .. | freeing _ => false

structure State where
  mem : Memory
  /-- 0 before the first call. -/
  pxEnd : Nat
  xFreeBytesRemaining : Nat
  xMinimumEverFreeBytesRemaining : Nat
  xNumberOfSuccessfulAllocations : Nat
  xNumberOfSuccessfulFrees : Nat
  uxSchedulerSuspended : Nat
  calls : List Call
  /-- The blocks that have been returned and not been freed, with the size asked for. -/
  live : List (Nat × Nat)

section Functions

variable (L : Layout)

/-- The size of the block for a request, 0 where there is none. -/
def adjustedSize (xWantedSize : Nat) : Nat :=
  if 0 < xWantedSize then
    if heapADD_WILL_OVERFLOW xWantedSize xHeapStructSize then 0
    else if (xWantedSize + xHeapStructSize) % portBYTE_ALIGNMENT = 0 then
      xWantedSize + xHeapStructSize
    else if heapADD_WILL_OVERFLOW (xWantedSize + xHeapStructSize)
        (portBYTE_ALIGNMENT - (xWantedSize + xHeapStructSize) % portBYTE_ALIGNMENT) then 0
    else xWantedSize + xHeapStructSize +
      (portBYTE_ALIGNMENT - (xWantedSize + xHeapStructSize) % portBYTE_ALIGNMENT)
  else 0

/-- The first aligned address of the heap. -/
def Layout.uxStartAddress : Nat :=
  if L.ucHeap % portBYTE_ALIGNMENT = 0 then L.ucHeap
  else L.ucHeap + (portBYTE_ALIGNMENT - 1) -
    (L.ucHeap + (portBYTE_ALIGNMENT - 1)) % portBYTE_ALIGNMENT

def Layout.xTotalHeapSize : Nat := L.configTOTAL_HEAP_SIZE - (L.uxStartAddress - L.ucHeap)

def Layout.uxEndAddress : Nat :=
  L.uxStartAddress + L.xTotalHeapSize - xHeapStructSize -
    (L.uxStartAddress + L.xTotalHeapSize - xHeapStructSize) % portBYTE_ALIGNMENT

def prvHeapInit (s : State) : State :=
  { s with
    mem := (((((s.mem.setNext L.xStart (L.protect L.uxStartAddress)).setSize L.xStart 0).setSize
      L.uxEndAddress 0).setNext L.uxEndAddress (L.protect 0)).setSize
      L.uxStartAddress (L.uxEndAddress - L.uxStartAddress)).setNext
      L.uxStartAddress (L.protect L.uxEndAddress)
    pxEnd := L.uxEndAddress
    xFreeBytesRemaining := L.uxEndAddress - L.uxStartAddress
    xMinimumEverFreeBytesRemaining := L.uxEndAddress - L.uxStartAddress }

/-- The search for a block that is large enough, with the block before it in the list. -/
def traverse (mem : Memory) (xWantedSize : Nat) : Nat → Nat → Nat → Option (Nat × Nat)
  | 0, _, _ => none
  | fuel + 1, pxPreviousBlock, pxBlock =>
    if mem.xBlockSize pxBlock < xWantedSize ∧ mem.pxNextFreeBlock pxBlock ≠ L.protect 0 then
      traverse mem xWantedSize fuel pxBlock (L.protect (mem.pxNextFreeBlock pxBlock))
    else some (pxPreviousBlock, pxBlock)

/-- What is left of a block becomes a free block of its own, if it is large enough. -/
def split (xWantedSize pxPreviousBlock pxBlock : Nat) (mem : Memory) : Memory :=
  if heapMINIMUM_BLOCK_SIZE < mem.xBlockSize pxBlock - xWantedSize then
    (((mem.setSize (pxBlock + xWantedSize) (mem.xBlockSize pxBlock - xWantedSize)).setSize
      pxBlock xWantedSize).setNext (pxBlock + xWantedSize)
      (mem.pxNextFreeBlock pxPreviousBlock)).setNext pxPreviousBlock
      (L.protect (pxBlock + xWantedSize))
  else mem

/-- The block that has been found is taken out of the list and split. -/
def unlink (xWantedSize pxPreviousBlock pxBlock : Nat) (mem : Memory) : Memory :=
  split L xWantedSize pxPreviousBlock pxBlock
    (mem.setNext pxPreviousBlock (mem.pxNextFreeBlock pxBlock))

def allocate (xWantedSize pxPreviousBlock pxBlock : Nat) (s : State) : State :=
  let mem := unlink L xWantedSize pxPreviousBlock pxBlock s.mem
  { s with
    mem := (mem.setSize pxBlock (mem.xBlockSize pxBlock ||| heapBLOCK_ALLOCATED_BITMASK)).setNext
      pxBlock (L.protect 0)
    xFreeBytesRemaining := s.xFreeBytesRemaining - mem.xBlockSize pxBlock
    xMinimumEverFreeBytesRemaining :=
      min s.xMinimumEverFreeBytesRemaining (s.xFreeBytesRemaining - mem.xBlockSize pxBlock)
    xNumberOfSuccessfulAllocations := s.xNumberOfSuccessfulAllocations + 1 }

/-- The part of `pvPortMalloc` between `prvHeapInit` and `traceMALLOC`: `pvReturn` and the state. -/
def search (xWantedSize : Nat) (s : State) : Option (Nat × State) :=
  if xWantedSize < heapBLOCK_ALLOCATED_BITMASK ∧ 0 < xWantedSize ∧
      xWantedSize ≤ s.xFreeBytesRemaining then
    (traverse L s.mem xWantedSize L.configTOTAL_HEAP_SIZE L.xStart
      (L.protect (s.mem.pxNextFreeBlock L.xStart))).map fun (pxPreviousBlock, pxBlock) =>
        if pxBlock = s.pxEnd then (0, s)
        else (L.protect (s.mem.pxNextFreeBlock pxPreviousBlock) + xHeapStructSize,
          allocate L xWantedSize pxPreviousBlock pxBlock s)
  else some (0, s)

/-- The place of a block in the list: the last link before it. -/
def findIterator (mem : Memory) (pxBlockToInsert : Nat) : Nat → Nat → Option Nat
  | 0, _ => none
  | fuel + 1, pxIterator =>
    if L.protect (mem.pxNextFreeBlock pxIterator) < pxBlockToInsert then
      findIterator mem pxBlockToInsert fuel (L.protect (mem.pxNextFreeBlock pxIterator))
    else some pxIterator

def mergeBefore (pxIterator pxBlockToInsert : Nat) (mem : Memory) : Nat × Memory :=
  if pxIterator + mem.xBlockSize pxIterator = pxBlockToInsert then
    (pxIterator, mem.setSize pxIterator
      (mem.xBlockSize pxIterator + mem.xBlockSize pxBlockToInsert))
  else (pxBlockToInsert, mem)

def mergeAfter (pxEnd pxIterator pxBlockToInsert : Nat) (mem : Memory) : Memory :=
  let next := L.protect (mem.pxNextFreeBlock pxIterator)
  if pxBlockToInsert + mem.xBlockSize pxBlockToInsert = next then
    if next ≠ pxEnd then
      (mem.setSize pxBlockToInsert
        (mem.xBlockSize pxBlockToInsert + mem.xBlockSize next)).setNext pxBlockToInsert
        (mem.pxNextFreeBlock next)
    else mem.setNext pxBlockToInsert (L.protect pxEnd)
  else mem.setNext pxBlockToInsert (mem.pxNextFreeBlock pxIterator)

def insertAt (pxEnd pxIterator pxBlockToInsert : Nat) (mem : Memory) : Memory :=
  let merged := mergeBefore pxIterator pxBlockToInsert mem
  let mem := mergeAfter L pxEnd pxIterator merged.1 merged.2
  if pxIterator ≠ merged.1 then mem.setNext pxIterator (L.protect merged.1) else mem

def prvInsertBlockIntoFreeList (pxEnd pxBlockToInsert : Nat) (mem : Memory) : Option Memory :=
  (findIterator L mem pxBlockToInsert L.configTOTAL_HEAP_SIZE L.xStart).map fun pxIterator =>
    insertAt L pxEnd pxIterator pxBlockToInsert mem

end Functions

section Steps

variable (L : Layout)

/-- `pvPortMalloc` up to `prvHeapInit`. -/
def mallocEnter (xWantedSize : Nat) (s : State) : State :=
  let s := if s.pxEnd = 0 then prvHeapInit L s else s
  { s with
    uxSchedulerSuspended := s.uxSchedulerSuspended + 1
    calls := .searching (adjustedSize xWantedSize) xWantedSize :: s.calls }

def mallocSearch (xWantedSize xToWipe : Nat) (s : State) : Option State :=
  if .searching xWantedSize xToWipe ∈ s.calls then
    (search L xWantedSize s).map fun (pvReturn, t) =>
      { t with calls :=
          .tracingMalloc pvReturn xToWipe :: s.calls.erase (.searching xWantedSize xToWipe) }
  else none

def mallocResume (pvReturn xToWipe : Nat) (s : State) : Option State :=
  if .tracingMalloc pvReturn xToWipe ∈ s.calls then
    some { s with
      uxSchedulerSuspended := s.uxSchedulerSuspended - 1
      calls := .returning pvReturn xToWipe :: s.calls.erase (.tracingMalloc pvReturn xToWipe) }
  else none

/-- A failed allocation ends the run in `furi_check`; a new block is cleared and returned. -/
def mallocReturn (pvReturn xToWipe : Nat) (s : State) : Option State :=
  if .returning pvReturn xToWipe ∈ s.calls ∧ pvReturn ≠ 0 then
    some { s with
      mem := s.mem.wipe pvReturn xToWipe
      calls := s.calls.erase (.returning pvReturn xToWipe)
      live := (pvReturn, xToWipe) :: s.live }
  else none

/-- The header of a block says that it is in use. -/
def inUse (mem : Memory) (pxLink : Nat) : Bool :=
  mem.xBlockSize pxLink &&& heapBLOCK_ALLOCATED_BITMASK ≠ 0 ∧
    mem.pxNextFreeBlock pxLink = L.protect 0

/-- `heapFREE_BLOCK`, and the content is cleared. -/
def unmark (pxLink : Nat) (mem : Memory) : Memory :=
  let mem := mem.setSize pxLink
    (mem.xBlockSize pxLink &&& (heapSIZE_MAX - heapBLOCK_ALLOCATED_BITMASK))
  if xHeapStructSize ≤ mem.xBlockSize pxLink then
    mem.wipe (pxLink + xHeapStructSize) (mem.xBlockSize pxLink - xHeapStructSize)
  else mem

/-- `vPortFree` of a live block, up to `vTaskSuspendAll`. -/
def freeEnter (pv xToWipe : Nat) (s : State) : Option State :=
  if (pv, xToWipe) ∈ s.live then
    if inUse L s.mem (pv - xHeapStructSize) then
      some { s with
        mem := unmark (pv - xHeapStructSize) s.mem
        calls := .freeing pv :: s.calls
        live := s.live.erase (pv, xToWipe) }
    else some { s with live := s.live.erase (pv, xToWipe) }
  else none

def freeSuspend (pv : Nat) (s : State) : Option State :=
  if .freeing pv ∈ s.calls then
    some { s with
      uxSchedulerSuspended := s.uxSchedulerSuspended + 1
      xFreeBytesRemaining := s.xFreeBytesRemaining + s.mem.xBlockSize (pv - xHeapStructSize)
      calls := .tracingFree pv :: s.calls.erase (.freeing pv) }
  else none

def freeInsert (pv : Nat) (s : State) : Option State :=
  if .tracingFree pv ∈ s.calls then
    (prvInsertBlockIntoFreeList L s.pxEnd (pv - xHeapStructSize) s.mem).map fun mem =>
      { s with
        mem := mem
        xNumberOfSuccessfulFrees := s.xNumberOfSuccessfulFrees + 1
        uxSchedulerSuspended := s.uxSchedulerSuspended - 1
        calls := s.calls.erase (.tracingFree pv) }
  else none

/-- The owner of a live block writes a word that belongs to it. -/
def store (pv xToWipe address value : Nat) (s : State) : Option State :=
  if (pv, xToWipe) ∈ s.live ∧ pv ≤ address ∧ address < pv + xToWipe ∧ address % 4 = 0 then
    some { s with mem := Function.update s.mem address value }
  else none

end Steps

inductive Label
  | mallocEnter (xWantedSize : Nat)
  | mallocSearch (xWantedSize xToWipe : Nat)
  | mallocResume (pvReturn xToWipe : Nat)
  | mallocReturn (pvReturn xToWipe : Nat)
  | freeNull
  | freeEnter (pv xToWipe : Nat)
  | freeSuspend (pv : Nat)
  | freeInsert (pv : Nat)
  | store (pv xToWipe address value : Nat)

def step (L : Layout) (s : State) : Label → Option State
  | .mallocEnter n => if n ≤ heapSIZE_MAX then some (mallocEnter L n s) else none
  | .mallocSearch w n => mallocSearch L w n s
  | .mallocResume pv n => mallocResume pv n s
  | .mallocReturn pv n => mallocReturn pv n s
  | .freeNull => some s
  | .freeEnter pv n => freeEnter L pv n s
  | .freeSuspend pv => freeSuspend pv s
  | .freeInsert pv => freeInsert L pv s
  | .store pv n x v => store pv n x v s

def machine (L : Layout) : Machine State Label := ⟨step L⟩

/-- Before the first call, with anything in memory. -/
def boot (mem : Memory) : State where
  mem := mem
  pxEnd := 0
  xFreeBytesRemaining := 0
  xMinimumEverFreeBytesRemaining := 0
  xNumberOfSuccessfulAllocations := 0
  xNumberOfSuccessfulFrees := 0
  uxSchedulerSuspended := 0
  calls := []
  live := []

open Block

/-- What a block that is not free is used for; of a block that is being freed, whether
`xFreeBytesRemaining` has it already. -/
inductive Use
  | allocated (xWantedSize : Nat)
  | released (counted : Bool)

def Use.mark : Use → Nat → Nat
  | allocated _, size => size ||| heapBLOCK_ALLOCATED_BITMASK
  | released _, size => size

/-- The block is aligned and has space for its header and for what was asked for. -/
structure Fits (b : Block Use) : Prop where
  aligned : b.size % portBYTE_ALIGNMENT = 0
  header : xHeapStructSize ≤ b.size
  content : ∀ n, b.use = some (.allocated n) → n + xHeapStructSize ≤ b.size

theorem Fits.eight (h : Fits b) : 8 ≤ b.size := h.header

def Header (L : Layout) (mem : Memory) (a : Nat) (b : Block Use) (next : Nat) : Prop :=
  match b.use with
  | none => mem.pxNextFreeBlock a = L.protect next ∧ mem.xBlockSize a = b.size
  | some u => mem.pxNextFreeBlock a = L.protect 0 ∧ mem.xBlockSize a = u.mark b.size

abbrev Row (L : Layout) (mem : Memory) : Nat → List (Block Use) → Nat → Prop :=
  Linked (Header L mem)

variable {L : Layout} {mem mem' : Memory} {a p x e tail : Nat} {b : Block Use}
  {bs pre post : List (Block Use)}

section Access

@[simp] theorem pxNextFreeBlock_setNext (mem : Memory) (x v : Nat) :
    (mem.setNext x v).pxNextFreeBlock x = v := Function.update_self ..

@[simp] theorem xBlockSize_setSize (mem : Memory) (x v : Nat) :
    (mem.setSize x v).xBlockSize x = v := Function.update_self ..

theorem setNext_of_ne {y v : Nat} (h : y ≠ x) : mem.setNext x v y = mem y :=
  Function.update_of_ne h _ _

theorem setSize_of_ne {y v : Nat} (h : y ≠ x + 4) : mem.setSize x v y = mem y :=
  Function.update_of_ne h _ _

theorem wipe_of_not_mem {y n : Nat} (h : y < x ∨ x + n ≤ y) : mem.wipe x n y = mem y :=
  if_neg (by omega)

theorem protect_inj {q : Nat} : L.protect p = L.protect q ↔ p = q := by
  constructor
  · intro h
    rw [← L.protect_protect p, h, L.protect_protect]
  · exact congrArg L.protect

end Access

section Frames

theorem Header.congr {next : Nat} (hnext : mem' a = mem a) (hsize : mem' (a + 4) = mem (a + 4))
    (h : Header L mem a b next) : Header L mem' a b next := by
  rw [Header] at h ⊢
  rw [pxNextFreeBlock, xBlockSize, hnext, hsize]
  exact h

theorem Row.congr (hfits : ∀ b ∈ bs, Fits b)
    (hmem : ∀ y, a ≤ y → y < a + extent bs → mem' y = mem y) (h : Row L mem a bs tail) :
    Row L mem' a bs tail := by
  refine Linked.congr (fun y c n hlo hhi hc hh => ?_) h
  have h8 := (hfits c hc).eight
  exact hh.congr (hmem y hlo (by omega)) (hmem (y + 4) (by omega) (by omega))

theorem Row.retarget (tail' : Nat) (hfits : ∀ b ∈ bs, Fits b) (hp : p < a ∨ a + extent bs ≤ p)
    (hlink : mem.pxNextFreeBlock p = L.protect (firstFree a bs tail)) (h : Row L mem a bs tail) :
    (mem.setNext (lastFree p a bs) (L.protect tail')).pxNextFreeBlock p =
        L.protect (firstFree a bs tail') ∧
      Row L (mem.setNext (lastFree p a bs) (L.protect tail')) a bs tail' := by
  induction bs generalizing p a with
  | nil => exact ⟨pxNextFreeBlock_setNext .., trivial⟩
  | cons b bs ih =>
    have h8 := (hfits b mem_cons_self).eight
    have hrest : ∀ c ∈ bs, Fits c := fun c hc => hfits c (mem_cons_of_mem b hc)
    have hpos : ∀ c ∈ bs, 0 < c.size := fun c hc => by
      have := (hrest c hc).eight
      omega
    rw [extent_cons] at hp
    obtain ⟨hhead, htail⟩ := h
    cases hu : b.use with
    | none =>
      rw [Header, hu] at hhead
      obtain ⟨hnext, hrow⟩ := ih (p := a) hrest (.inl (by omega)) hhead.1 htail
      have hlast := lastFree_cases a (a + b.size) bs hpos
      rw [firstFree_free hu] at hlink
      rw [lastFree_free hu, firstFree_free hu]
      refine ⟨?_, ?_, hrow⟩
      · rw [pxNextFreeBlock, setNext_of_ne (by omega)]
        exact hlink
      · rw [Header, hu]
        refine ⟨hnext, ?_⟩
        rw [xBlockSize, setNext_of_ne (by omega)]
        exact hhead.2
    | some u =>
      rw [firstFree_used hu] at hlink
      obtain ⟨hnext, hrow⟩ := ih (p := p) hrest (by omega) hlink htail
      have hlast := lastFree_cases p (a + b.size) bs hpos
      rw [lastFree_used hu, firstFree_used hu]
      refine ⟨hnext, ?_, hrow⟩
      rw [Header, hu] at hhead ⊢
      refine ⟨?_, ?_⟩
      · rw [pxNextFreeBlock, setNext_of_ne (by omega)]
        exact hhead.1
      · rw [xBlockSize, setNext_of_ne (by omega)]
        exact hhead.2

end Frames

section Loops

/-- The loop of `pvPortMalloc`: the first free block that is large enough, or the end. -/
theorem traverse_spec (xWantedSize : Nat) (hfits : ∀ b ∈ bs, Fits b) (hpos : 0 < a)
    (hend : mem.pxNextFreeBlock e = L.protect 0) (he : 0 < e) (h : Row L mem a bs e) {fuel : Nat}
    (hfuel : (freeList a bs).length < fuel) :
    (∃ q, traverse L mem xWantedSize fuel p (firstFree a bs e) = some (q, e) ∧
        ∀ b ∈ bs, b.use = none → b.size < xWantedSize) ∨
      ∃ pre b post, bs = pre ++ b :: post ∧ b.use = none ∧ xWantedSize ≤ b.size ∧
        (∀ c ∈ pre, c.use = none → c.size < xWantedSize) ∧
        traverse L mem xWantedSize fuel p (firstFree a bs e) =
          some (lastFree p a pre, a + extent pre) := by
  induction bs generalizing p a fuel with
  | nil =>
    left
    obtain ⟨fuel, rfl⟩ := Nat.exists_eq_add_one_of_ne_zero (Nat.ne_zero_of_lt hfuel)
    refine ⟨p, ?_, fun b hb => absurd hb not_mem_nil⟩
    rw [firstFree, traverse, if_neg]
    rintro ⟨-, hne⟩
    exact hne hend
  | cons b bs ih =>
    have h8 := (hfits b mem_cons_self).eight
    have hrest : ∀ c ∈ bs, Fits c := fun c hc => hfits c (mem_cons_of_mem b hc)
    obtain ⟨hhead, htail⟩ := h
    cases hu : b.use with
    | none =>
      rw [Header, hu] at hhead
      rw [freeList_free hu, length_cons] at hfuel
      obtain ⟨fuel, rfl⟩ := Nat.exists_eq_add_one_of_ne_zero (Nat.ne_zero_of_lt hfuel)
      rw [firstFree_free hu, traverse]
      by_cases hlt : b.size < xWantedSize
      · -- too small: the search goes on from this block
        have hnext : firstFree (a + b.size) bs e ≠ 0 :=
          Nat.ne_of_gt (firstFree_pos bs (by omega) he)
        rw [if_pos ⟨by rw [hhead.2]; exact hlt, by rw [hhead.1, Ne, protect_inj]; exact hnext⟩,
          hhead.1, L.protect_protect]
        have hfuel' : (freeList (a + b.size) bs).length < fuel := by omega
        rcases ih (p := a) hrest (by omega) htail hfuel' with
          ⟨q, hq, hall⟩ | ⟨pre, c, post, rfl, hc, hle, hall, hq⟩
        · refine .inl ⟨q, hq, fun c hc hfree => ?_⟩
          rcases mem_cons.mp hc with rfl | hc
          · exact hlt
          · exact hall c hc hfree
        · refine .inr ⟨b :: pre, c, post, rfl, hc, hle, fun d hd hfree => ?_, ?_⟩
          · rcases mem_cons.mp hd with rfl | hd
            · exact hlt
            · exact hall d hd hfree
          · rw [hq, lastFree_free hu, extent_cons, Nat.add_assoc]
      · rw [if_neg (by rw [hhead.2]; exact fun hc => hlt hc.1)]
        exact .inr ⟨[], b, bs, rfl, hu, Nat.le_of_not_lt hlt,
          fun c hc => absurd hc not_mem_nil, rfl⟩
    | some u =>
      rw [freeList_used hu] at hfuel
      rw [firstFree_used hu]
      rcases ih (p := p) hrest (by omega) htail hfuel with
        ⟨q, hq, hall⟩ | ⟨pre, c, post, rfl, hc, hle, hall, hq⟩
      · refine .inl ⟨q, hq, fun c hc hfree => ?_⟩
        rcases mem_cons.mp hc with rfl | hc
        · rw [hu] at hfree
          cases hfree
        · exact hall c hc hfree
      · refine .inr ⟨b :: pre, c, post, rfl, hc, hle, fun d hd hfree => ?_, ?_⟩
        · rcases mem_cons.mp hd with rfl | hd
          · rw [hu] at hfree
            cases hfree
          · exact hall d hd hfree
        · rw [hq, lastFree_used hu, extent_cons, Nat.add_assoc]

/-- The loop of `prvInsertBlockIntoFreeList` stops at the last free block before the given one. -/
theorem findIterator_spec (hfits : ∀ b ∈ pre, Fits b) (hx : a + extent pre = x) (ht : x ≤ tail)
    (hlink : mem.pxNextFreeBlock p = L.protect (firstFree a pre tail)) (h : Row L mem a pre tail)
    {fuel : Nat} (hfuel : (freeList a pre).length < fuel) :
    findIterator L mem x fuel p = some (lastFree p a pre) := by
  induction pre generalizing p a fuel with
  | nil =>
    obtain ⟨fuel, rfl⟩ := Nat.exists_eq_add_one_of_ne_zero (Nat.ne_zero_of_lt hfuel)
    rw [findIterator, hlink, L.protect_protect, firstFree, if_neg (by omega)]
    rfl
  | cons b pre ih =>
    have h8 := (hfits b mem_cons_self).eight
    have hrest : ∀ c ∈ pre, Fits c := fun c hc => hfits c (mem_cons_of_mem b hc)
    rw [extent_cons] at hx
    obtain ⟨hhead, htail⟩ := h
    cases hu : b.use with
    | none =>
      rw [Header, hu] at hhead
      rw [freeList_free hu, length_cons] at hfuel
      obtain ⟨fuel, rfl⟩ := Nat.exists_eq_add_one_of_ne_zero (Nat.ne_zero_of_lt hfuel)
      rw [firstFree_free hu] at hlink
      rw [findIterator, hlink, L.protect_protect, if_pos (by omega), lastFree_free hu]
      exact ih hrest (by omega) hhead.1 htail (by omega)
    | some u =>
      rw [freeList_used hu] at hfuel
      rw [firstFree_used hu] at hlink
      rw [lastFree_used hu]
      exact ih hrest (by omega) hlink htail hfuel

end Loops

end NikitaFirmware.Heap
