import NikitaFirmware.Heap.Rows

/-!
# The operations on the heap

What taking a block out of the list, putting one back and writing to one do to the row of
blocks: in each case a few neighbouring blocks are replaced by others of the same extent.
-/

namespace NikitaFirmware.Heap
open Foundations Memory Block List

variable {L : Layout} {mem mem' : Memory} {a p x tail : Nat} {b c : Block Use}
  {bs pre mid mid' post : List (Block Use)}

section Layout

theorem Layout.uxStartAddress_spec (L : Layout) :
    L.ucHeap ≤ L.uxStartAddress ∧ L.uxStartAddress ≤ L.ucHeap + 7 ∧ L.uxStartAddress % 8 = 0 := by
  rw [uxStartAddress, portBYTE_ALIGNMENT]
  split <;> omega

theorem Layout.uxEndAddress_spec (L : Layout) : L.uxStartAddress + 8 ≤ L.uxEndAddress ∧
      L.uxEndAddress + 8 ≤ L.ucHeap + L.configTOTAL_HEAP_SIZE ∧ L.uxEndAddress % 8 = 0 := by
  have hs := L.uxStartAddress_spec
  have hroom := L.room
  rw [uxEndAddress, xTotalHeapSize, portBYTE_ALIGNMENT, xHeapStructSize]
  omega

theorem Layout.uxStartAddress_pos (L : Layout) : 0 < L.uxStartAddress :=
  Nat.lt_of_lt_of_le L.positive L.uxStartAddress_spec.1

theorem Layout.xStart_apart (L : Layout) :
    L.xStart + 8 ≤ L.uxStartAddress ∨ L.uxEndAddress + 8 ≤ L.xStart := by
  have hs := L.uxStartAddress_spec
  have he := L.uxEndAddress_spec
  have ha := L.apart
  rw [xHeapStructSize] at ha
  omega

end Layout

structure Laid (L : Layout) (mem : Memory) (bs : List (Block Use)) : Prop where
  tiled : L.uxStartAddress + extent bs = L.uxEndAddress
  fits : ∀ b ∈ bs, Fits b
  separated : Separated bs
  row : Row L mem L.uxStartAddress bs L.uxEndAddress
  first : mem.pxNextFreeBlock L.xStart = L.protect (firstFree L.uxStartAddress bs L.uxEndAddress)
  startSize : mem.xBlockSize L.xStart = 0
  endNext : mem.pxNextFreeBlock L.uxEndAddress = L.protect 0
  endSize : mem.xBlockSize L.uxEndAddress = 0

section Replace

theorem fits_pos (hfits : ∀ b ∈ bs, Fits b) : ∀ b ∈ bs, 0 < b.size := fun b hb => by
  have := (hfits b hb).eight
  omega

theorem Laid.lastFree_cases (h : Laid L mem (pre ++ mid)) :
    lastFree L.xStart L.uxStartAddress pre = L.xStart ∨
      L.uxStartAddress ≤ lastFree L.xStart L.uxStartAddress pre ∧
        lastFree L.xStart L.uxStartAddress pre < L.uxStartAddress + extent pre :=
  Block.lastFree_cases _ _ _ (fits_pos fun b hb => h.fits b (mem_append_left mid hb))

theorem Laid.replace (h : Laid L mem (pre ++ (mid ++ post))) (hext : extent mid' = extent mid)
    (hfits : ∀ b ∈ mid', Fits b) (hsep : Separated (pre ++ (mid' ++ post)))
    (hx : L.uxStartAddress + extent pre = x)
    (hmem : ∀ y, y < x ∨ x + extent mid ≤ y →
      mem' y = (mem.setNext (lastFree L.xStart L.uxStartAddress pre)
        (L.protect (firstFree x (mid' ++ post) L.uxEndAddress))) y)
    (hmid : Row L mem' x mid' (firstFree (x + extent mid) post L.uxEndAddress)) :
    Laid L mem' (pre ++ (mid' ++ post)) := by
  subst hx
  have htiled := h.tiled
  have hlast := h.lastFree_cases
  have hstart := L.xStart_apart
  have hpre : ∀ b ∈ pre, Fits b := fun b hb => h.fits b (mem_append_left _ hb)
  have hpost : ∀ b ∈ post, Fits b := fun b hb =>
    h.fits b (mem_append_right _ (mem_append_right _ hb))
  rw [extent_append, extent_append] at htiled
  have hrow := h.row
  rw [Row, linked_append] at hrow
  obtain ⟨hrowPre, hrowRest⟩ := hrow
  rw [linked_append] at hrowRest
  obtain ⟨-, hrowPost⟩ := hrowRest
  have hfirst := h.first
  rw [firstFree_append] at hfirst
  obtain ⟨hfirst', hrowPre'⟩ := Row.retarget
    (firstFree (L.uxStartAddress + extent pre) (mid' ++ post) L.uxEndAddress) hpre (p := L.xStart)
    (by omega) hfirst hrowPre
  have hkeep : ∀ y, y < L.uxStartAddress + extent pre ∨
      L.uxStartAddress + extent pre + extent mid ≤ y →
      y ≠ lastFree L.xStart L.uxStartAddress pre → mem' y = mem y := fun y hy hne => by
    rw [hmem y hy, setNext_of_ne hne]
  exact {
    tiled := by
      rw [extent_append, extent_append, hext]
      omega
    fits := by
      intro b hb
      rcases mem_append.mp hb with hb | hb
      · exact hpre b hb
      rcases mem_append.mp hb with hb | hb
      · exact hfits b hb
      · exact hpost b hb
    separated := hsep
    row := by
      rw [Row, linked_append, linked_append, hext]
      refine ⟨?_, hmid, ?_⟩
      · exact hrowPre'.congr hpre fun y _ hy => hmem y (.inl hy)
      · refine Row.congr hpost (fun y hlo hhi => ?_) hrowPost
        exact hkeep y (.inr hlo) (by omega)
    first := by
      rw [firstFree_append, ← hfirst']
      exact hmem _ (by omega)
    startSize := by
      rw [← h.startSize]
      exact hkeep _ (by omega) (by omega)
    endNext := by
      rw [← h.endNext]
      exact hkeep _ (by omega) (by omega)
    endSize := by
      rw [← h.endSize]
      exact hkeep _ (by omega) (by omega) }

theorem Row.lastFree_next (hlink : mem.pxNextFreeBlock p = L.protect (firstFree a bs tail))
    (h : Row L mem a bs tail) : mem.pxNextFreeBlock (lastFree p a bs) = L.protect tail := by
  induction bs generalizing p a with
  | nil => exact hlink
  | cons b bs ih =>
    obtain ⟨hhead, htail⟩ := h
    cases hu : b.use with
    | none =>
      rw [Header, hu] at hhead
      rw [lastFree_free hu]
      exact ih hhead.1 htail
    | some u =>
      rw [firstFree_used hu] at hlink
      rw [lastFree_used hu]
      exact ih hlink htail

theorem Laid.lastFree_next (h : Laid L mem (pre ++ mid)) :
    mem.pxNextFreeBlock (lastFree L.xStart L.uxStartAddress pre) =
      L.protect (firstFree (L.uxStartAddress + extent pre) mid L.uxEndAddress) := by
  have hrow := h.row
  have hfirst := h.first
  rw [Row, linked_append] at hrow
  rw [firstFree_append] at hfirst
  exact Row.lastFree_next hfirst hrow.1

theorem Laid.exchange (h : Laid L mem (pre ++ (mid ++ post))) (hext : extent mid' = extent mid)
    (hfits : ∀ b ∈ mid', Fits b) (hsep : Separated (pre ++ (mid' ++ post)))
    (hx : L.uxStartAddress + extent pre = x)
    (hfirst : firstFree x (mid' ++ post) L.uxEndAddress = firstFree x (mid ++ post) L.uxEndAddress)
    (hmem : ∀ y, y < x ∨ x + extent mid ≤ y → mem' y = mem y)
    (hmid : Row L mem' x mid' (firstFree (x + extent mid) post L.uxEndAddress)) :
    Laid L mem' (pre ++ (mid' ++ post)) := by
  refine h.replace hext hfits hsep hx (fun y hy => ?_) hmid
  have hnext := h.lastFree_next
  rw [hx] at hnext
  rw [hmem y hy, hfirst, ← hnext, setNext, pxNextFreeBlock, Function.update_eq_self]

end Replace

section Allocate

variable {xWantedSize n : Nat} {s : State}

def carve (xWantedSize n : Nat) (b : Block Use) : List (Block Use) :=
  if heapMINIMUM_BLOCK_SIZE < b.size - xWantedSize then
    [⟨xWantedSize, some (.allocated n)⟩, ⟨b.size - xWantedSize, none⟩]
  else [⟨b.size, some (.allocated n)⟩]

theorem carve_extent (hle : xWantedSize ≤ b.size) : extent (carve xWantedSize n b) = b.size := by
  rw [carve]
  split
  · simp only [extent_cons, extent_nil]
    omega
  · simp only [extent_cons, extent_nil]
    omega

theorem carve_fits (hb : Fits b) (hal : xWantedSize % 8 = 0) (hn : n + 8 ≤ xWantedSize)
    (hle : xWantedSize ≤ b.size) : ∀ c ∈ carve xWantedSize n b, Fits c := by
  have h8 := hb.aligned
  rw [portBYTE_ALIGNMENT] at h8
  intro c hc
  rw [carve] at hc
  split at hc
  next hmin =>
    rw [heapMINIMUM_BLOCK_SIZE, xHeapStructSize] at hmin
    rcases mem_cons.mp hc with rfl | hc
    · exact {
        aligned := hal
        header := by show 8 ≤ xWantedSize; omega
        content := by
          intro m hm
          obtain rfl := Use.allocated.inj (Option.some.inj hm)
          exact hn }
    · obtain rfl := mem_singleton.mp hc
      exact {
        aligned := by show (b.size - xWantedSize) % 8 = 0; omega
        header := by show 8 ≤ b.size - xWantedSize; omega
        content := fun m hm => by cases hm }
  next =>
    obtain rfl := mem_singleton.mp hc
    exact {
      aligned := hb.aligned
      header := hb.header
      content := by
        intro m hm
        obtain rfl := Use.allocated.inj (Option.some.inj hm)
        exact Nat.le_trans hn hle }

/-- The front of a free block is taken, and what is left of it stays in the list. -/
theorem Laid.allocate (h : Laid L s.mem (pre ++ b :: post)) (hb : b.use = none)
    (hal : xWantedSize % 8 = 0) (hn : n + 8 ≤ xWantedSize) (hle : xWantedSize ≤ b.size)
    (hx : L.uxStartAddress + extent pre = x) :
    Laid L (allocate L xWantedSize (lastFree L.xStart L.uxStartAddress pre) x s).mem
        (pre ++ (carve xWantedSize n b ++ post)) ∧
      (allocate L xWantedSize (lastFree L.xStart L.uxStartAddress pre) x s).xFreeBytesRemaining =
        s.xFreeBytesRemaining - ((carve xWantedSize n b).headD b).size := by
  have htiled := h.tiled
  have hlast := h.lastFree_cases
  have hstart := L.xStart_apart
  have hfit := h.fits b (mem_append_right pre mem_cons_self)
  have h8 := hfit.eight
  rw [extent_append, extent_cons] at htiled
  rw [hx] at hlast
  have hrow := h.row
  rw [Row, linked_append] at hrow
  obtain ⟨-, hhead, -⟩ := hrow
  rw [Header, hb, hx] at hhead
  obtain ⟨hnext, hsize⟩ := hhead
  have hsep := h.separated
  have hafter : ∀ c ∈ post.head?, c.use ≠ none :=
    (separated_cons_iff.mp hsep.right).1 hb
  have hpost : Separated post := (separated_cons_iff.mp hsep.right).2
  generalize hprev : lastFree L.xStart L.uxStartAddress pre = prev at hlast
  have hne : prev < x ∨ x + b.size ≤ prev := by omega
  have hsize₁ : (s.mem.setNext prev (s.mem.pxNextFreeBlock x)).xBlockSize x = b.size := by
    rw [xBlockSize, setNext_of_ne (by omega)]
    exact hsize
  by_cases hmin : heapMINIMUM_BLOCK_SIZE < b.size - xWantedSize
  · -- what is left over is a free block of its own
    have hsome : 16 < b.size - xWantedSize := hmin
    have hcarve : carve xWantedSize n b =
        [⟨xWantedSize, some (.allocated n)⟩, ⟨b.size - xWantedSize, none⟩] := if_pos hmin
    have hunlink : unlink L xWantedSize prev x s.mem =
        ((((s.mem.setNext prev (s.mem.pxNextFreeBlock x)).setSize (x + xWantedSize)
          (b.size - xWantedSize)).setSize x xWantedSize).setNext (x + xWantedSize)
          (s.mem.pxNextFreeBlock x)).setNext prev (L.protect (x + xWantedSize)) := by
      rw [unlink, split, hsize₁, if_pos hmin, pxNextFreeBlock_setNext]
    have hsize₂ : (unlink L xWantedSize prev x s.mem).xBlockSize x = xWantedSize := by
      rw [hunlink, xBlockSize, setNext_of_ne (by omega), setNext_of_ne (by omega)]
      exact xBlockSize_setSize ..
    refine ⟨?_, by rw [Heap.allocate]; dsimp only; rw [hsize₂, hcarve]; rfl⟩
    rw [Heap.allocate]
    dsimp only
    rw [hsize₂, hunlink]
    have hone : Laid L s.mem (pre ++ ([b] ++ post)) := h
    refine hone.replace (by rw [carve_extent hle]; rfl) (carve_fits hfit hal hn hle) ?_ hx
      (fun y hy => ?_) ?_
    · rw [hcarve]
      refine Separated.used hsep.left ?_ (by simp)
      exact separated_cons_iff.mpr ⟨fun _ => hafter, hpost⟩
    · rw [extent_cons, extent_nil] at hy
      rw [hprev, hcarve, setNext_of_ne (by omega), setSize_of_ne (by omega)]
      by_cases hyp : y = prev
      · rw [hyp]
        exact (pxNextFreeBlock_setNext ..).trans (pxNextFreeBlock_setNext ..).symm
      · rw [setNext_of_ne hyp, setNext_of_ne (by omega), setSize_of_ne (by omega),
          setSize_of_ne (by omega), setNext_of_ne hyp, setNext_of_ne hyp]
    · rw [hcarve]
      refine ⟨⟨pxNextFreeBlock_setNext .., ?_⟩, ⟨?_, ?_⟩, trivial⟩
      · rw [xBlockSize, setNext_of_ne (by omega)]
        exact xBlockSize_setSize ..
      · rw [pxNextFreeBlock, setNext_of_ne (by dsimp only; omega), setSize_of_ne (by dsimp only; omega),
          setNext_of_ne (by dsimp only; omega)]
        exact (pxNextFreeBlock_setNext ..).trans hnext
      · rw [xBlockSize, setNext_of_ne (by dsimp only; omega), setSize_of_ne (by dsimp only; omega),
          setNext_of_ne (by dsimp only; omega), setNext_of_ne (by dsimp only; omega),
          setSize_of_ne (by dsimp only; omega)]
        exact xBlockSize_setSize ..
  · -- the block is given away as a whole
    have hcarve : carve xWantedSize n b = [⟨b.size, some (.allocated n)⟩] := if_neg hmin
    have hunlink : unlink L xWantedSize prev x s.mem =
        s.mem.setNext prev (s.mem.pxNextFreeBlock x) := by
      rw [unlink, split, hsize₁, if_neg hmin]
    refine ⟨?_, by rw [Heap.allocate]; dsimp only; rw [hunlink, hsize₁, hcarve]; rfl⟩
    rw [Heap.allocate]
    dsimp only
    rw [hunlink, hsize₁]
    have hone : Laid L s.mem (pre ++ ([b] ++ post)) := h
    refine hone.replace (by rw [carve_extent hle]; rfl) (carve_fits hfit hal hn hle) ?_ hx
      (fun y hy => ?_) ?_
    · rw [hcarve]
      exact Separated.used hsep.left hpost (by simp)
    · rw [extent_cons, extent_nil] at hy
      rw [hprev, hcarve, setNext_of_ne (by omega), setSize_of_ne (by omega), hnext]
      rfl
    · rw [hcarve]
      refine ⟨⟨pxNextFreeBlock_setNext .., ?_⟩, trivial⟩
      rw [xBlockSize, setNext_of_ne (by omega)]
      exact xBlockSize_setSize ..

end Allocate

section Insert

theorem lastFree_split (p a : Nat) (bs : List (Block Use)) :
    (lastFree p a bs = p ∧ ∀ b ∈ bs, b.use ≠ none) ∨
      ∃ pre b post, bs = pre ++ b :: post ∧ b.use = none ∧ (∀ c ∈ post, c.use ≠ none) ∧
        lastFree p a bs = a + extent pre := by
  induction bs generalizing p a with
  | nil => exact .inl ⟨rfl, fun b hb => absurd hb not_mem_nil⟩
  | cons b bs ih =>
    cases hu : b.use with
    | none =>
      right
      rw [lastFree_free hu]
      rcases ih a (a + b.size) with ⟨hlast, hall⟩ | ⟨pre, c, post, rfl, hc, hall, hlast⟩
      · exact ⟨[], b, bs, rfl, hu, hall, hlast⟩
      · refine ⟨b :: pre, c, post, rfl, hc, hall, ?_⟩
        rw [hlast, extent_cons, Nat.add_assoc]
    | some u =>
      rw [lastFree_used hu]
      rcases ih p (a + b.size) with ⟨hlast, hall⟩ | ⟨pre, c, post, rfl, hc, hall, hlast⟩
      · refine .inl ⟨hlast, fun c hc => ?_⟩
        rcases mem_cons.mp hc with rfl | hc
        · rw [hu]
          exact Option.some_ne_none u
        · exact hall c hc
      · refine .inr ⟨b :: pre, c, post, rfl, hc, hall, ?_⟩
        rw [hlast, extent_cons, Nat.add_assoc]

theorem mergeAfter_spec (it blk size : Nat) (hfits : ∀ b ∈ post, Fits b) (hsep : Separated post)
    (hrow : Row L mem x post L.uxEndAddress) (htiled : x + extent post = L.uxEndAddress)
    (hnext : mem.pxNextFreeBlock it = L.protect (firstFree x post L.uxEndAddress))
    (hsize : mem.xBlockSize blk = size) (hx : blk + size = x) :
    ∃ absorbed post', post = absorbed ++ post' ∧ (∀ c ∈ post'.head?, c.use ≠ none) ∧
      (∀ c ∈ absorbed, c.use = none) ∧
      (mergeAfter L L.uxEndAddress it blk mem).pxNextFreeBlock blk =
        L.protect (firstFree (x + extent absorbed) post' L.uxEndAddress) ∧
      (mergeAfter L L.uxEndAddress it blk mem).xBlockSize blk = size + extent absorbed ∧
      ∀ y, y ≠ blk → y ≠ blk + 4 → mergeAfter L L.uxEndAddress it blk mem y = mem y := by
  have hno : ∀ c ∈ ([] : List (Block Use)), c.use = none := fun c hc => absurd hc not_mem_nil
  rw [mergeAfter, hsize, hx, hnext, L.protect_protect]
  cases post with
  | nil =>
    rw [extent_nil, Nat.add_zero] at htiled
    rw [firstFree, if_pos htiled, if_neg (not_not_intro rfl)]
    refine ⟨[], [], rfl, fun c hc => by simp at hc, hno, pxNextFreeBlock_setNext .., ?_, ?_⟩
    · rw [xBlockSize, setNext_of_ne (by omega)]
      exact hsize
    · exact fun y hy _ => setNext_of_ne hy
  | cons d post =>
    have hd := (hfits d mem_cons_self).eight
    rw [extent_cons] at htiled
    obtain ⟨hhead, hrest⟩ := hrow
    cases hu : d.use with
    | none =>
      rw [Header, hu] at hhead
      rw [firstFree_free hu, if_pos rfl, if_pos (by omega), hhead.1, hhead.2]
      refine ⟨[d], post, rfl, (separated_cons_iff.mp hsep).1 hu, ?_, ?_, ?_, ?_⟩
      · intro c hc
        rw [mem_singleton.mp hc]
        exact hu
      · exact pxNextFreeBlock_setNext ..
      · rw [xBlockSize, setNext_of_ne (by omega)]
        exact xBlockSize_setSize ..
      · intro y hy hy'
        rw [setNext_of_ne hy, setSize_of_ne hy']
    | some u =>
      have hle := le_firstFree (x + d.size) post L.uxEndAddress (by omega)
      rw [firstFree_used hu, if_neg (by omega)]
      refine ⟨[], d :: post, rfl, ?_, hno, ?_, ?_, ?_⟩
      · intro c hc
        rw [← Option.some.inj hc, hu]
        exact Option.some_ne_none u
      · rw [extent_nil, Nat.add_zero, firstFree_used hu]
        exact pxNextFreeBlock_setNext ..
      · rw [xBlockSize, setNext_of_ne (by omega)]
        exact hsize
      · exact fun y hy _ => setNext_of_ne hy

theorem extent_aligned (hfits : ∀ b ∈ bs, Fits b) : extent bs % 8 = 0 := by
  induction bs with
  | nil => rfl
  | cons b bs ih =>
    have hb := (hfits b mem_cons_self).aligned
    have hrest := ih fun c hc => hfits c (mem_cons_of_mem b hc)
    rw [portBYTE_ALIGNMENT] at hb
    rw [extent_cons]
    omega

theorem fits_joined (hne : mid ≠ []) (hfits : ∀ b ∈ mid, Fits b) :
    ∀ d ∈ [(⟨extent mid, none⟩ : Block Use)], Fits d := by
  intro d hd
  obtain rfl := mem_singleton.mp hd
  obtain ⟨b, bs, rfl⟩ := exists_cons_of_ne_nil hne
  have hb := (hfits b mem_cons_self).eight
  exact {
    aligned := extent_aligned hfits
    header := by
      show 8 ≤ extent (b :: bs)
      rw [extent_cons]
      omega
    content := fun n hn => by cases hn }

theorem separated_joined {n : Nat} (hpre : Separated pre) (hlast : ∀ d ∈ pre.getLast?, d.use ≠ none)
    (hpost : Separated post) (hhead : ∀ d ∈ post.head?, d.use ≠ none) :
    Separated (pre ++ ([⟨n, none⟩] ++ post)) :=
  separated_append_iff.mpr ⟨hpre, separated_cons_iff.mpr ⟨fun _ => hhead, hpost⟩,
    fun d hd hu => absurd hu (hlast d hd)⟩

theorem Laid.header (h : Laid L mem (pre ++ b :: post)) (hx : L.uxStartAddress + extent pre = x) :
    Header L mem x b (firstFree (x + b.size) post L.uxEndAddress) := by
  have hrow := h.row
  rw [Row, linked_append, hx] at hrow
  exact hrow.2.1

theorem Laid.rowAfter (h : Laid L mem (pre ++ b :: post)) (hx : L.uxStartAddress + extent pre = x) :
    Row L mem (x + b.size) post L.uxEndAddress := by
  have hrow := h.row
  rw [Row, linked_append, hx] at hrow
  exact hrow.2.2

theorem Laid.insert_merge (h : Laid L mem (pre ++ c :: b :: post)) (hc : c.use = none)
    {counted : Bool} (hb : b.use = some (.released counted))
    (hx : L.uxStartAddress + extent pre = x) :
    ∃ absorbed post', post = absorbed ++ post' ∧ (∀ d ∈ absorbed, d.use = none) ∧
      Laid L (insertAt L L.uxEndAddress x (x + c.size) mem)
        (pre ++ ([⟨extent (c :: b :: absorbed), none⟩] ++ post')) := by
  have hpre : pre ++ c :: b :: post = (pre ++ [c]) ++ b :: post := by simp
  have hx' : L.uxStartAddress + extent (pre ++ [c]) = x + c.size := by
    rw [extent_append, extent_cons, extent_nil, ← hx]
    omega
  have htiled := h.tiled
  rw [extent_append, extent_cons, extent_cons] at htiled
  have hfc := h.fits c (by simp)
  have hfb := h.fits b (by simp)
  have hc8 := hfc.eight
  have hb8 := hfb.eight
  have hheadc := h.header hx
  have hheadb := (hpre ▸ h).header hx'
  rw [Header, hc, firstFree_used hb] at hheadc
  rw [Header, hb] at hheadb
  have hrow := (hpre ▸ h).rowAfter hx'
  have hfits : ∀ d ∈ post, Fits d := fun d hd => h.fits d (by simp [hd])
  have hsep := h.separated
  have hsepb := (separated_cons_iff.mp hsep.right).2
  have hseppost : Separated post := (separated_cons_iff.mp hsepb).2
  have hmerge : mergeBefore x (x + c.size) mem = (x, mem.setSize x (c.size + b.size)) := by
    rw [mergeBefore, hheadc.2, if_pos rfl, hheadb.2, Use.mark]
  obtain ⟨absorbed, post', rfl, hhead, hfree, hnext, hsize, hother⟩ :=
    mergeAfter_spec x x (c.size + b.size) hfits hseppost
      (hrow.congr hfits fun y hy _ => setSize_of_ne (by omega)) (by omega)
      (by rw [pxNextFreeBlock, setSize_of_ne (by omega)]; exact hheadc.1)
      (xBlockSize_setSize ..) (by omega)
  refine ⟨absorbed, post', rfl, hfree, ?_⟩
  rw [insertAt, hmerge]
  dsimp only
  rw [if_neg (not_not_intro rfl)]
  have hlaid : Laid L mem (pre ++ ((c :: b :: absorbed) ++ post')) := h
  refine hlaid.exchange rfl ?_ ?_ hx ?_ (fun y hy => ?_) ⟨⟨?_, ?_⟩, trivial⟩
  · exact fits_joined (by simp) fun d hd => hlaid.fits d (by simp at hd ⊢; tauto)
  · refine separated_joined hsep.left ?_ hseppost.right hhead
    exact fun d hd hu => (separated_append_iff.mp hsep).2.2 d hd hu c rfl hc
  · rw [cons_append, cons_append, firstFree_free rfl, firstFree_free hc]
  · rw [extent_cons, extent_cons] at hy
    rw [hother y (by omega) (by omega), setSize_of_ne (by omega)]
  · rw [hnext, extent_cons, extent_cons, ← Nat.add_assoc, ← Nat.add_assoc]
    rfl
  · rw [hsize, extent_cons, extent_cons, ← Nat.add_assoc]

theorem Laid.insert_alone (h : Laid L mem (pre ++ b :: post)) {counted : Bool}
    (hb : b.use = some (.released counted)) (hx : L.uxStartAddress + extent pre = x)
    (hlast : ∀ c ∈ pre.getLast?, c.use ≠ none)
    (happart : lastFree L.xStart L.uxStartAddress pre +
      mem.xBlockSize (lastFree L.xStart L.uxStartAddress pre) ≠ x) :
    ∃ absorbed post', post = absorbed ++ post' ∧ (∀ d ∈ absorbed, d.use = none) ∧
      Laid L (insertAt L L.uxEndAddress (lastFree L.xStart L.uxStartAddress pre) x mem)
        (pre ++ ([⟨extent (b :: absorbed), none⟩] ++ post')) := by
  have htiled := h.tiled
  have hbefore := h.lastFree_cases
  have hstart := L.xStart_apart
  rw [extent_append, extent_cons] at htiled
  rw [hx] at hbefore
  have hb8 := (h.fits b (by simp)).eight
  have hheadb := h.header hx
  rw [Header, hb] at hheadb
  have hnextIt := h.lastFree_next
  rw [hx, firstFree_used hb] at hnextIt
  generalize hit : lastFree L.xStart L.uxStartAddress pre = it at hbefore happart hnextIt ⊢
  have hsep := h.separated
  have hseppost : Separated post := (separated_cons_iff.mp hsep.right).2
  have hmerge : mergeBefore it x mem = (x, mem) := by
    rw [mergeBefore, if_neg happart]
  obtain ⟨absorbed, post', rfl, hhead, hfree, hnext, hsize, hother⟩ :=
    mergeAfter_spec it x b.size (fun d hd => h.fits d (by simp [hd])) hseppost (h.rowAfter hx)
      (by omega) hnextIt hheadb.2 rfl
  refine ⟨absorbed, post', rfl, hfree, ?_⟩
  rw [insertAt, hmerge]
  dsimp only
  rw [if_pos (by omega)]
  have hlaid : Laid L mem (pre ++ ((b :: absorbed) ++ post')) := h
  refine hlaid.replace rfl ?_ ?_ hx (fun y hy => ?_) ⟨⟨?_, ?_⟩, trivial⟩
  · exact fits_joined (by simp) fun d hd => hlaid.fits d (by simp at hd ⊢; tauto)
  · exact separated_joined hsep.left hlast hseppost.right hhead
  · rw [extent_cons] at hy
    rw [hit, cons_append, firstFree_free rfl]
    by_cases hyit : y = it
    · rw [hyit]
      exact (pxNextFreeBlock_setNext ..).trans (pxNextFreeBlock_setNext ..).symm
    · rw [setNext_of_ne hyit, setNext_of_ne hyit, hother y (by omega) (by omega)]
  · rw [pxNextFreeBlock, setNext_of_ne (by omega)]
    refine hnext.trans ?_
    rw [extent_cons, ← Nat.add_assoc]
    rfl
  · rw [xBlockSize, setNext_of_ne (by omega)]
    exact hsize

theorem Laid.insertAt (h : Laid L mem (pre ++ b :: post)) {counted : Bool}
    (hb : b.use = some (.released counted)) (hx : L.uxStartAddress + extent pre = x) :
    ∃ pre' before absorbed post', pre = pre' ++ before ∧ post = absorbed ++ post' ∧
      (∀ d ∈ before ++ absorbed, d.use = none) ∧
      Laid L (insertAt L L.uxEndAddress (lastFree L.xStart L.uxStartAddress pre) x mem)
        (pre' ++ ([⟨extent (before ++ b :: absorbed), none⟩] ++ post')) := by
  have hstart := L.xStart_apart
  have htiled := h.tiled
  have hb8 := (h.fits b (by simp)).eight
  rw [extent_append, extent_cons] at htiled
  rcases lastFree_split L.xStart L.uxStartAddress pre with
    ⟨hlast, hall⟩ | ⟨pre₁, c, pre₂, rfl, hc, hall, hlast⟩
  · have happart : lastFree L.xStart L.uxStartAddress pre +
        mem.xBlockSize (lastFree L.xStart L.uxStartAddress pre) ≠ x := by
      rw [hlast, h.startSize]
      omega
    obtain ⟨absorbed, post', hpost, hfree, hlaid⟩ := h.insert_alone hb hx
      (fun d hd => hall d (mem_of_getLast? hd)) happart
    exact ⟨pre, [], absorbed, post', by simp, hpost, hfree, hlaid⟩
  · have hassoc : (pre₁ ++ c :: pre₂) ++ b :: post = pre₁ ++ c :: (pre₂ ++ b :: post) := by simp
    have hheadc := (hassoc ▸ h).header rfl
    rw [Header, hc] at hheadc
    rw [extent_append, extent_cons] at hx
    cases pre₂ with
    | nil =>
      rw [extent_nil] at hx
      have hmerge : Laid L mem (pre₁ ++ c :: b :: post) := by simpa using h
      obtain ⟨absorbed, post', hpost, hfree, hlaid⟩ := hmerge.insert_merge hc hb rfl
      refine ⟨pre₁, [c], absorbed, post', rfl, hpost, ?_, ?_⟩
      · intro d hd
        rcases mem_cons.mp hd with rfl | hd
        · exact hc
        · exact hfree d hd
      · rw [hlast, ← hx]
        simpa [Nat.add_assoc] using hlaid
    | cons d pre₂ =>
      have hd8 := (h.fits d (by simp)).eight
      rw [extent_cons] at hx
      have happart : lastFree L.xStart L.uxStartAddress (pre₁ ++ c :: d :: pre₂) +
          mem.xBlockSize (lastFree L.xStart L.uxStartAddress (pre₁ ++ c :: d :: pre₂)) ≠ x := by
        rw [hlast, hheadc.2]
        omega
      have hused : ∀ f ∈ (pre₁ ++ c :: d :: pre₂).getLast?, f.use ≠ none := by
        intro f hf
        rw [List.getLast?_append_of_ne_nil _ (cons_ne_nil _ _), List.getLast?_cons_cons] at hf
        exact hall f (mem_of_getLast? hf)
      obtain ⟨absorbed, post', hpost, hfree, hlaid⟩ := h.insert_alone hb
        (by rw [extent_append, extent_cons, extent_cons]; exact hx) hused happart
      exact ⟨pre₁ ++ c :: d :: pre₂, [], absorbed, post', by simp, hpost, hfree, hlaid⟩

end Insert

end NikitaFirmware.Heap
