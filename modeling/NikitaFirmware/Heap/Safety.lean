import Mathlib.Algebra.GroupWithZero.Nat
import NikitaFirmware.Heap.Invariant

/-!
# Every call keeps the heap in order

The steps of the allocator keep the row of blocks, whatever other calls come in between.
-/

namespace NikitaFirmware.Heap
open Foundations Memory Block List Option

variable {L : Layout} {s s' : State} {x n w pv : Nat} {b : Block Use}
  {bs pre post : List (Block Use)}

section Malloc

theorem prvHeapInit_laid (L : Layout) (s : State) :
    Laid L (prvHeapInit L s).mem [⟨L.uxEndAddress - L.uxStartAddress, none⟩] := by
  have hend := L.uxEndAddress_spec
  have hstart := L.uxStartAddress_spec
  have hx := L.xStart_apart
  have hmem : (prvHeapInit L s).mem =
      (((((s.mem.setNext L.xStart (L.protect L.uxStartAddress)).setSize L.xStart 0).setSize
        L.uxEndAddress 0).setNext L.uxEndAddress (L.protect 0)).setSize
        L.uxStartAddress (L.uxEndAddress - L.uxStartAddress)).setNext
        L.uxStartAddress (L.protect L.uxEndAddress) := rfl
  rw [hmem]
  exact {
    tiled := by
      rw [extent_cons, extent_nil]
      dsimp only
      omega
    fits := by
      intro b hb
      obtain rfl := mem_singleton.mp hb
      exact {
        aligned := by show (L.uxEndAddress - L.uxStartAddress) % 8 = 0; omega
        header := by show 8 ≤ L.uxEndAddress - L.uxStartAddress; omega
        content := fun n hn => by cases hn }
    separated := separated_cons_iff.mpr ⟨fun _ c hc => by simp at hc, isChain_nil⟩
    row := by
      refine ⟨⟨pxNextFreeBlock_setNext .., ?_⟩, trivial⟩
      rw [xBlockSize, setNext_of_ne (by omega)]
      exact xBlockSize_setSize ..
    first := by
      rw [firstFree_free rfl, pxNextFreeBlock, setNext_of_ne (by omega),
        setSize_of_ne (by omega), setNext_of_ne (by omega), setSize_of_ne (by omega),
        setSize_of_ne (by omega)]
      exact pxNextFreeBlock_setNext ..
    startSize := by
      rw [xBlockSize, setNext_of_ne (by omega), setSize_of_ne (by omega),
        setNext_of_ne (by omega), setSize_of_ne (by omega)]
      exact xBlockSize_setSize ..
    endNext := by
      rw [pxNextFreeBlock, setNext_of_ne (by omega), setSize_of_ne (by omega)]
      exact pxNextFreeBlock_setNext ..
    endSize := by
      rw [xBlockSize, setNext_of_ne (by omega), setSize_of_ne (by omega),
        setNext_of_ne (by omega)]
      exact xBlockSize_setSize .. }

theorem adjusted_cons {calls : List Call} (h : ∀ w n, .searching w n ∈ calls → w = adjustedSize n) :
    ∀ w m, .searching w m ∈ (.searching (adjustedSize n) n :: calls) → w = adjustedSize m := by
  intro w m hmem
  rcases mem_cons.mp hmem with heq | hmem
  · obtain ⟨rfl, rfl⟩ := Call.searching.inj heq
    rfl
  · exact h w m hmem

theorem Fresh.mallocEnter (h : Fresh s) :
    Represents L (mallocEnter L n s) [⟨L.uxEndAddress - L.uxStartAddress, none⟩] := by
  rw [Heap.mallocEnter, if_pos h.pxEnd]
  exact {
    ready := rfl
    laid := prvHeapInit_laid L s
    owned := by
      show List.Perm (taken _ _) (owners s.live (_ :: s.calls))
      rw [h.live, h.calls]
      exact List.Perm.refl _
    balance := rfl
    suspended := by
      show s.uxSchedulerSuspended + 1 = _
      rw [h.suspended]
      show 0 + 1 = List.countP Call.suspends (_ :: s.calls)
      rw [h.calls]
      rfl
    adjusted := by
      have hnone : ∀ w m, .searching w m ∈ s.calls → w = adjustedSize m := by
        rw [h.calls]
        exact fun _ _ hm => absurd hm not_mem_nil
      exact adjusted_cons hnone }

theorem Represents.mallocEnter (h : Represents L s bs) : Represents L (mallocEnter L n s) bs := by
  have hend := L.uxEndAddress_spec
  rw [Heap.mallocEnter, if_neg (by rw [h.ready]; omega)]
  exact {
    ready := h.ready
    laid := h.laid
    owned := h.owned.trans (owners_cons (c := .searching (adjustedSize n) n)).symm
    balance := h.balance
    suspended := by
      rw [countP_cons, h.suspended]
      rfl
    adjusted := adjusted_cons h.adjusted }

theorem adjusted_erase {calls : List Call} {c c' : Call}
    (h : ∀ w n, .searching w n ∈ calls → w = adjustedSize n) (hc : ∀ w n, c' ≠ .searching w n) :
    ∀ w n, .searching w n ∈ (c' :: calls.erase c) → w = adjustedSize n := by
  intro w m hmem
  rcases mem_cons.mp hmem with heq | hmem
  · exact absurd heq.symm (hc w m)
  · exact h w m (mem_of_mem_erase hmem)

theorem owners_replace {live : List (Nat × Nat)} {calls : List Call} {c : Call}
    (c' : Call) (hc : c ∈ calls) :
    (c.owner.toList ++ owners live (c' :: calls.erase c)).Perm
      (c'.owner.toList ++ owners live calls) :=
  ((owners_cons.append_left _).trans (perm_append_comm_assoc ..)).trans
    ((owners_erase hc).symm.append_left _)

theorem taken_carve : taken x (carve w n b) = [(x, .allocated n)] := by
  rw [carve]
  split
  · rw [taken_used rfl, taken_free rfl]
    rfl
  · rw [taken_used rfl]
    rfl

theorem remaining_carve (hle : w ≤ b.size) :
    remaining (carve w n b) + ((carve w n b).headD b).size = b.size := by
  rw [carve]
  split
  · show b.size - w + 0 + w = b.size
    omega
  · exact Nat.zero_add _

theorem Represents.mallocSearch (h : Represents L s bs) (hs : mallocSearch L w n s = some s') :
    ∃ bs, Represents L s' bs := by
  rw [Heap.mallocSearch] at hs
  split at hs
  next hc =>
    have hw := h.adjusted w n hc
    obtain ⟨⟨pvReturn, t⟩, ht, rfl⟩ := map_eq_some_iff.mp hs
    rcases h.search (w := w) with ⟨hfail, -⟩ | ⟨pre, b, post, rfl, hb, h0, hle, hfound⟩
    · rw [hfail] at ht
      obtain ⟨rfl, rfl⟩ := Prod.mk.inj (some.inj ht)
      exact ⟨bs, {
        ready := h.ready
        laid := h.laid
        owned := h.owned.trans (owners_replace (.tracingMalloc 0 n) hc).symm
        balance := h.balance
        suspended := h.suspended.trans (countP_same _ hc rfl).symm
        adjusted := adjusted_erase h.adjusted fun _ _ => Call.noConfusion }⟩
    · rw [hfound] at ht
      obtain ⟨rfl, rfl⟩ := Prod.mk.inj (some.inj ht)
      obtain ⟨hal, hn, -⟩ := adjustedSize_spec (hw ▸ h0)
      rw [← hw] at hal hn
      obtain ⟨hlaid, hbal⟩ := h.laid.allocate hb hal hn hle rfl
      have hx : L.uxStartAddress + extent pre + xHeapStructSize ≠ 0 := by
        rw [xHeapStructSize]
        omega
      refine ⟨pre ++ (carve w n b ++ post), {
        ready := h.ready
        laid := hlaid
        owned := ?_
        balance := ?_
        suspended := h.suspended.trans (countP_same _ hc rfl).symm
        adjusted := adjusted_erase h.adjusted fun _ _ => Call.noConfusion }⟩
      · have howned := h.owned
        rw [taken_append, taken_free hb] at howned
        rw [taken_append, taken_append, taken_carve, carve_extent hle]
        refine (perm_append_comm_assoc ..).trans ?_
        refine (howned.append_left _).trans ?_
        refine List.Perm.trans ?_ (owners_replace
          (.tracingMalloc (L.uxStartAddress + extent pre + xHeapStructSize) n) hc).symm
        rw [Call.owner, if_neg hx, Nat.add_sub_cancel]
        exact List.Perm.refl _
      · have hrem := remaining_carve (n := n) hle
        have hbalance := h.balance
        rw [hbal, remaining_append, remaining_append]
        rw [remaining_append, remaining, hb] at hbalance
        dsimp only at hbalance
        omega
  next => simp at hs

theorem Represents.mallocResume (h : Represents L s bs) (hs : mallocResume pv n s = some s') :
    Represents L s' bs := by
  rw [Heap.mallocResume] at hs
  split at hs
  next hc =>
    obtain rfl := some.inj hs
    exact {
      ready := h.ready
      laid := h.laid
      owned := by
        have hperm := @owners_replace s.live s.calls _ (.returning pv n) hc
        exact h.owned.trans ((perm_append_left_iff _).mp hperm).symm
      balance := h.balance
      suspended := by
        show s.uxSchedulerSuspended - 1 = _
        rw [h.suspended, ← countP_resume (.returning pv n) hc rfl rfl, Nat.add_sub_cancel]
      adjusted := adjusted_erase h.adjusted fun _ _ => Call.noConfusion }
  next => simp at hs

end Malloc

section Blocks

theorem Represents.block {u : Use} (h : Represents L s bs)
    (ho : (pv - xHeapStructSize, u) ∈ owners s.live s.calls) :
    ∃ pre b post, bs = pre ++ b :: post ∧ b.use = some u ∧
      L.uxStartAddress + extent pre = pv - xHeapStructSize ∧
      pv = pv - xHeapStructSize + xHeapStructSize := by
  obtain ⟨pre, b, post, rfl, hb, hx⟩ := mem_taken (h.owned.mem_iff.mpr ho)
  have hpos := L.uxStartAddress_pos
  exact ⟨pre, b, post, rfl, hb, hx, by omega⟩

theorem Laid.write {mem mem' : Memory} (h : Laid L mem (pre ++ b :: post))
    (hx : L.uxStartAddress + extent pre = x)
    (hmem : ∀ y, y < x + 8 ∨ x + b.size ≤ y → mem' y = mem y) :
    Laid L mem' (pre ++ b :: post) := by
  have hone : Laid L mem (pre ++ ([b] ++ post)) := h
  have h8 := (h.fits b (by simp)).eight
  refine hone.exchange rfl (fun c hc => h.fits c (by simp at hc ⊢; tauto)) h.separated hx rfl
    (fun y hy => hmem y ?_) ⟨?_, trivial⟩
  · rw [extent_cons, extent_nil] at hy
    omega
  · exact (h.header hx).congr (hmem x (by omega)) (hmem (x + 4) (by omega))

theorem taken_exchange {u v : Use} {rest : List (Nat × Use)} {a : Nat} (b' : Block Use)
    (hb : b.use = some u) (hb' : b'.use = some v) (hsize : b'.size = b.size)
    (hx : a + extent pre = x) (h : (taken a (pre ++ b :: post)).Perm ((x, u) :: rest)) :
    (taken a (pre ++ b' :: post)).Perm ((x, v) :: rest) := by
  rw [taken_split hb, hx] at h
  rw [taken_split hb', hx, hsize]
  exact perm_middle.trans (((perm_cons _).mp (perm_middle.symm.trans h)).cons _)

end Blocks

section Owner

theorem Represents.mallocReturn (h : Represents L s bs) (hs : mallocReturn pv n s = some s') :
    Represents L s' bs := by
  rw [Heap.mallocReturn] at hs
  split at hs
  next hc =>
    obtain ⟨hc, hne⟩ := hc
    obtain rfl := some.inj hs
    have hperm := @owners_erase s.live s.calls _ hc
    rw [Call.owner, if_neg hne] at hperm
    obtain ⟨pre, b, post, rfl, hb, hx, hpv⟩ := h.block (hperm.mem_iff.mpr mem_cons_self)
    have hn := (h.laid.fits b (by simp)).content n hb
    rw [xHeapStructSize] at hn hpv hx
    exact {
      ready := h.ready
      laid := h.laid.write hx fun y hy => wipe_of_not_mem (by omega)
      owned := by
        refine h.owned.trans (hperm.trans ?_)
        exact List.Perm.refl _
      balance := h.balance
      suspended := by
        rw [h.suspended, countP_erase hc]
        rfl
      adjusted := fun w m hm => h.adjusted w m (mem_of_mem_erase hm) }
  next => simp at hs

theorem Represents.store {address value : Nat} (h : Represents L s bs)
    (hs : store pv n address value s = some s') : Represents L s' bs := by
  rw [Heap.store] at hs
  split at hs
  next hc =>
    obtain ⟨hlive, hlo, hhi, -⟩ := hc
    obtain rfl := some.inj hs
    have hperm := @owners_live_erase s.live s.calls _ _ hlive
    obtain ⟨pre, b, post, rfl, hb, hx, hpv⟩ := h.block (hperm.mem_iff.mpr mem_cons_self)
    have hn := (h.laid.fits b (by simp)).content n hb
    rw [xHeapStructSize] at hn hpv hx
    exact { h with laid := h.laid.write hx fun y hy => Function.update_of_ne (by omega) _ _ }
  next => simp at hs

end Owner

section Free

theorem Laid.findIterator {mem : Memory} (h : Laid L mem (pre ++ b :: post))
    (hx : L.uxStartAddress + extent pre = x) :
    findIterator L mem x L.configTOTAL_HEAP_SIZE L.xStart =
      some (lastFree L.xStart L.uxStartAddress pre) := by
  have htiled := h.tiled
  have hrow := h.row
  have hfirst := h.first
  rw [extent_append] at htiled
  rw [Row, linked_append] at hrow
  rw [firstFree_append] at hfirst
  have hle := le_firstFree (L.uxStartAddress + extent pre) (b :: post) L.uxEndAddress (by omega)
  exact findIterator_spec (fun c hc => h.fits c (mem_append_left _ hc)) hx
    (by omega) hfirst hrow.1 h.freeList_length_lt

theorem Represents.inUse (h : Represents L s (pre ++ b :: post)) (hb : b.use = some (.allocated n))
    (hx : L.uxStartAddress + extent pre = x) :
    inUse L s.mem x = true ∧ s.mem.xBlockSize x = b.size ||| heapBLOCK_ALLOCATED_BITMASK := by
  have hhead := h.laid.header hx
  rw [Header, hb] at hhead
  refine ⟨?_, hhead.2⟩
  rw [Heap.inUse, decide_eq_true_iff, hhead.1, hhead.2]
  exact ⟨mark_and_bit _, rfl⟩

theorem Represents.freeEnter (h : Represents L s bs) (hs : freeEnter L pv n s = some s') :
    ∃ bs, Represents L s' bs := by
  rw [Heap.freeEnter] at hs
  split at hs
  next hlive =>
    have hperm := @owners_live_erase s.live s.calls _ _ hlive
    obtain ⟨pre, b, post, rfl, hb, hx, hpv⟩ := h.block (hperm.mem_iff.mpr mem_cons_self)
    obtain ⟨huse, hsize⟩ := h.inUse hb hx
    rw [if_pos huse] at hs
    obtain rfl := some.inj hs
    have hlt := h.laid.size_lt (b := b) (by simp)
    have hfit := h.laid.fits b (by simp)
    have h8 := hfit.eight
    have hunmark : unmark (pv - xHeapStructSize) s.mem =
        (s.mem.setSize (pv - xHeapStructSize) b.size).wipe
          (pv - xHeapStructSize + xHeapStructSize) (b.size - xHeapStructSize) := by
      rw [unmark, hsize, mark_and_mask hlt, xBlockSize_setSize]
      exact if_pos hfit.header
    have hone : Laid L s.mem (pre ++ ([b] ++ post)) := h.laid
    have hsep := h.laid.separated
    have hpost : Separated post := (separated_cons_iff.mp hsep.right).2
    refine ⟨pre ++ ([⟨b.size, some (.released false)⟩] ++ post), {
      ready := h.ready
      laid := ?_
      owned := ?_
      balance := ?_
      suspended := ?_
      adjusted := ?_ }⟩
    · show Laid L (unmark (pv - xHeapStructSize) s.mem) _
      rw [hunmark]
      refine hone.exchange rfl ?_ (hsep.left.used hpost (by simp)) hx ?_ (fun y hy => ?_)
        ⟨⟨?_, ?_⟩, trivial⟩
      · intro c hc
        obtain rfl := mem_singleton.mp hc
        exact { hfit with content := fun m hm => by cases hm }
      · rw [singleton_append, singleton_append, firstFree_used rfl, firstFree_used hb]
      · rw [extent_cons, extent_nil] at hy
        rw [wipe_of_not_mem (by rw [xHeapStructSize] at hy ⊢; omega), setSize_of_ne (by omega)]
      · have hhead := h.laid.header hx
        rw [Header, hb] at hhead
        rw [pxNextFreeBlock, wipe_of_not_mem (by rw [xHeapStructSize]; omega),
          setSize_of_ne (by omega)]
        exact hhead.1
      · rw [xBlockSize, wipe_of_not_mem (by rw [xHeapStructSize]; omega)]
        exact xBlockSize_setSize ..
    · refine (taken_exchange ⟨b.size, _⟩ hb rfl rfl hx (h.owned.trans hperm)).trans ?_
      exact (owners_cons (c := .freeing pv)).symm
    · have hbal := h.balance
      rw [remaining_append, remaining, hb] at hbal
      show s.xFreeBytesRemaining = _
      rw [remaining_append, hbal]
      rfl
    · rw [countP_cons]
      exact h.suspended
    · intro w m hm
      rcases mem_cons.mp hm with hm | hm
      · cases hm
      · exact h.adjusted w m hm
  next => simp at hs

theorem Represents.freeSuspend (h : Represents L s bs) (hs : freeSuspend pv s = some s') :
    ∃ bs, Represents L s' bs := by
  rw [Heap.freeSuspend] at hs
  split at hs
  next hc =>
    obtain rfl := some.inj hs
    have hperm := @owners_erase s.live s.calls _ hc
    obtain ⟨pre, b, post, rfl, hb, hx, -⟩ := h.block (hperm.mem_iff.mpr mem_cons_self)
    have hhead := h.laid.header hx
    rw [Header, hb] at hhead
    have hone : Laid L s.mem (pre ++ ([b] ++ post)) := h.laid
    have hfit := h.laid.fits b (by simp)
    have hsep := h.laid.separated
    have hpost : Separated post := (separated_cons_iff.mp hsep.right).2
    refine ⟨pre ++ ([⟨b.size, some (.released true)⟩] ++ post), {
      ready := h.ready
      laid := ?_
      owned := ?_
      balance := ?_
      suspended := ?_
      adjusted := adjusted_erase h.adjusted fun _ _ => Call.noConfusion }⟩
    · refine hone.exchange rfl ?_ (hsep.left.used hpost (by simp)) hx ?_ (fun _ _ => rfl)
        ⟨hhead, trivial⟩
      · intro c hc
        obtain rfl := mem_singleton.mp hc
        exact { hfit with content := fun m hm => by cases hm }
      · rw [singleton_append, singleton_append, firstFree_used rfl, firstFree_used hb]
    · refine (taken_exchange ⟨b.size, _⟩ hb rfl rfl hx (h.owned.trans hperm)).trans ?_
      exact (owners_cons (c := .tracingFree pv)).symm
    · have hbal := h.balance
      rw [remaining_append, remaining, hb] at hbal
      show s.xFreeBytesRemaining + s.mem.xBlockSize (pv - xHeapStructSize) = _
      rw [remaining_append, hbal, hhead.2]
      show remaining pre + remaining post + b.size = remaining pre + (b.size + remaining post)
      omega
    · rw [countP_suspend _ hc rfl rfl, ← h.suspended]
  next => simp at hs

theorem Represents.freeInsert (h : Represents L s bs) (hs : freeInsert L pv s = some s') :
    ∃ bs, Represents L s' bs := by
  rw [Heap.freeInsert] at hs
  split at hs
  next hc =>
    have hperm := @owners_erase s.live s.calls _ hc
    obtain ⟨pre, b, post, rfl, hb, hx, -⟩ := h.block (hperm.mem_iff.mpr mem_cons_self)
    have hfind := h.laid.findIterator hx
    rw [prvInsertBlockIntoFreeList, hfind, h.ready] at hs
    obtain rfl := some.inj hs
    obtain ⟨pre', before, absorbed, post', rfl, rfl, hfree, hlaid⟩ := h.laid.insertAt hb hx
    have hbefore : ∀ c ∈ before, c.use = none := fun c hc => hfree c (mem_append_left _ hc)
    have habsorbed : ∀ c ∈ absorbed, c.use = none := fun c hc =>
      hfree c (mem_append_right _ hc)
    refine ⟨_, {
      ready := rfl
      laid := hlaid
      owned := ?_
      balance := ?_
      suspended := ?_
      adjusted := fun w m hm => h.adjusted w m (mem_of_mem_erase hm) }⟩
    · have howned := h.owned.trans hperm
      rw [taken_split hb, hx] at howned
      have hrest := (perm_cons _).mp (perm_middle.symm.trans howned)
      have hplace : L.uxStartAddress + extent pre' + extent (before ++ b :: absorbed) =
          pv - xHeapStructSize + b.size + extent absorbed := by
        rw [← hx, extent_append, extent_append, extent_cons]
        omega
      rw [taken_append, taken_of_free hbefore, append_nil, taken_append,
        taken_of_free habsorbed, nil_append, ← hplace] at hrest
      rw [taken_append, singleton_append, taken_free rfl]
      exact hrest
    · have hbal := h.balance
      rw [remaining_append, remaining_append, remaining, hb, remaining_append,
        remaining_of_free hbefore, remaining_of_free habsorbed] at hbal
      show s.xFreeBytesRemaining = _
      rw [hbal, remaining_append]
      show _ = remaining pre' + (extent (before ++ b :: absorbed) + remaining post')
      rw [extent_append, extent_cons]
      dsimp only
      omega
    · show s.uxSchedulerSuspended - 1 = _
      rw [h.suspended, countP_erase hc]
      rfl
  next => simp at hs

end Free

theorem Inv.step (h : Inv L s) {l : Label} (hl : (machine L).step s l = some s') : Inv L s' := by
  rcases h with h | ⟨bs, h⟩
  · have hcall : ∀ c, c ∉ s.calls := fun c hc => by
      rw [h.calls] at hc
      exact absurd hc not_mem_nil
    have hlive : ∀ p, p ∉ s.live := fun p hp => by
      rw [h.live] at hp
      exact absurd hp not_mem_nil
    cases l with
    | mallocEnter n =>
      change (if n ≤ heapSIZE_MAX then some (mallocEnter L n s) else none) = some s' at hl
      split at hl
      · obtain rfl := some.inj hl
        exact .inr ⟨_, h.mallocEnter⟩
      · simp at hl
    | freeNull =>
      obtain rfl := some.inj hl
      exact .inl h
    | mallocSearch w n =>
      change mallocSearch L w n s = some s' at hl
      rw [mallocSearch, if_neg (hcall _)] at hl
      simp at hl
    | mallocResume pv n =>
      change mallocResume pv n s = some s' at hl
      rw [mallocResume, if_neg (hcall _)] at hl
      simp at hl
    | mallocReturn pv n =>
      change mallocReturn pv n s = some s' at hl
      rw [mallocReturn, if_neg fun hc => hcall _ hc.1] at hl
      simp at hl
    | freeEnter pv n =>
      change freeEnter L pv n s = some s' at hl
      rw [freeEnter, if_neg (hlive _)] at hl
      simp at hl
    | freeSuspend pv =>
      change freeSuspend pv s = some s' at hl
      rw [freeSuspend, if_neg (hcall _)] at hl
      simp at hl
    | freeInsert pv =>
      change freeInsert L pv s = some s' at hl
      rw [freeInsert, if_neg (hcall _)] at hl
      simp at hl
    | store pv n x v =>
      change store pv n x v s = some s' at hl
      rw [store, if_neg fun hc => hlive _ hc.1] at hl
      simp at hl
  · right
    cases l with
    | mallocEnter n =>
      change (if n ≤ heapSIZE_MAX then some (mallocEnter L n s) else none) = some s' at hl
      split at hl
      · obtain rfl := some.inj hl
        exact ⟨bs, h.mallocEnter⟩
      · simp at hl
    | freeNull =>
      obtain rfl := some.inj hl
      exact ⟨bs, h⟩
    | mallocSearch w n => exact h.mallocSearch hl
    | mallocResume pv n => exact ⟨bs, h.mallocResume hl⟩
    | mallocReturn pv n => exact ⟨bs, h.mallocReturn hl⟩
    | freeEnter pv n => exact h.freeEnter hl
    | freeSuspend pv => exact h.freeSuspend hl
    | freeInsert pv => exact h.freeInsert hl
    | store pv n x v => exact ⟨bs, h.store hl⟩

section Claims

/-- Following the links from `p`, one comes to these blocks and then to the end. -/
inductive Chain (L : Layout) (mem : Memory) (e : Nat) : Nat → List Nat → Prop
  | nil {p : Nat} (h : mem.pxNextFreeBlock p = L.protect e) : Chain L mem e p []
  | cons {p a : Nat} {as : List Nat} (h : mem.pxNextFreeBlock p = L.protect a)
      (hs : Chain L mem e a as) : Chain L mem e p (a :: as)

theorem Row.chain {mem : Memory} {p a e : Nat}
    (hlink : mem.pxNextFreeBlock p = L.protect (firstFree a bs e)) (h : Row L mem a bs e) :
    Chain L mem e p (freeList a bs) := by
  induction bs generalizing p a with
  | nil => exact .nil hlink
  | cons b bs ih =>
    obtain ⟨hhead, htail⟩ := h
    cases hu : b.use with
    | none =>
      rw [Header, hu] at hhead
      rw [firstFree_free hu] at hlink
      rw [freeList_free hu]
      exact .cons hlink (ih hhead.1 htail)
    | some u =>
      rw [firstFree_used hu] at hlink
      rw [freeList_used hu]
      exact ih hlink htail

/-- Without a suspended call of `vPortFree` only the free blocks are counted. -/
theorem Row.remaining {mem : Memory} {a e : Nat} (h : Row L mem a bs e)
    (hno : ∀ y, (y, .released true) ∉ taken a bs) :
    remaining bs = ((freeList a bs).map mem.xBlockSize).sum := by
  induction bs generalizing a with
  | nil => rfl
  | cons b bs ih =>
    obtain ⟨hhead, htail⟩ := h
    cases hu : b.use with
    | none =>
      rw [Header, hu] at hhead
      rw [taken_free hu] at hno
      rw [Heap.remaining, hu, freeList_free hu, map_cons, sum_cons, hhead.2, ih htail hno]
    | some u =>
      rw [taken_used hu] at hno
      have ih := ih htail fun y hy => hno y (mem_cons_of_mem _ hy)
      rw [freeList_used hu, ← ih, Heap.remaining, hu]
      cases u with
      | allocated n => rfl
      | released counted =>
        cases counted with
        | false => rfl
        | true => exact absurd mem_cons_self (hno a)

/-- Two allocations do not overlap. -/
def Disjoint (p q : Nat × Nat) : Prop := p.1 + p.2 ≤ q.1 ∨ q.1 + q.2 ≤ p.1

def Use.asked : Use → Nat
  | allocated n => n
  | released _ => 0

/-- The contents of two blocks do not overlap. -/
def Apart (p q : Nat × Use) : Prop :=
  p.1 + xHeapStructSize + p.2.asked ≤ q.1 ∨ q.1 + xHeapStructSize + q.2.asked ≤ p.1

theorem Apart.symm {p q : Nat × Use} (h : Apart p q) : Apart q p := h.elim .inr .inl

theorem asked_le (hb : Fits b) {u : Use} (hu : b.use = some u) :
    xHeapStructSize + u.asked ≤ b.size := by
  cases u with
  | allocated n =>
    have h := hb.content n hu
    rw [Use.asked]
    omega
  | released c => exact hb.header

theorem taken_bounds {a : Nat} (hfits : ∀ b ∈ bs, Fits b) : ∀ p ∈ taken a bs,
    a ≤ p.1 ∧ p.1 + xHeapStructSize + p.2.asked ≤ a + extent bs := by
  rintro ⟨y, u⟩ hp
  obtain ⟨pre, b, post, rfl, hb, hy⟩ := mem_taken hp
  have hasked := asked_le (hfits b (by simp)) hb
  rw [extent_append, extent_cons]
  dsimp only
  omega

theorem taken_apart {a : Nat} (hfits : ∀ b ∈ bs, Fits b) : (taken a bs).Pairwise Apart := by
  induction bs generalizing a with
  | nil => exact List.Pairwise.nil
  | cons b bs ih =>
    have hrest : ∀ c ∈ bs, Fits c := fun c hc => hfits c (mem_cons_of_mem b hc)
    cases hu : b.use with
    | none =>
      rw [taken_free hu]
      exact ih hrest
    | some u =>
      rw [taken_used hu]
      refine pairwise_cons.mpr ⟨fun p hp => .inl ?_, ih hrest⟩
      have hasked := asked_le (hfits b mem_cons_self) hu
      have hbounds := taken_bounds hrest p hp
      dsimp only
      omega

structure InOrder (L : Layout) (s : State) (bs : List (Block Use)) : Prop where
  /-- The list in memory is that of the free blocks, ascending, and ends at `pxEnd`. -/
  list : Chain L s.mem s.pxEnd L.xStart (freeList L.uxStartAddress bs)
  listEnd : s.mem.pxNextFreeBlock s.pxEnd = L.protect 0
  ascending : (freeList L.uxStartAddress bs ++ [s.pxEnd]).Pairwise (· < ·)
  /-- The blocks follow each other without a gap. -/
  headers : Row L s.mem L.uxStartAddress bs s.pxEnd
  tiled : L.uxStartAddress + extent bs = s.pxEnd ∧
    s.pxEnd + xHeapStructSize ≤ L.ucHeap + L.configTOTAL_HEAP_SIZE
  separated : Separated bs
  aligned : ∀ b ∈ bs, b.size % portBYTE_ALIGNMENT = 0
  balance : s.uxSchedulerSuspended = 0 →
    s.xFreeBytesRemaining = ((freeList L.uxStartAddress bs).map s.mem.xBlockSize).sum
  /-- What has been returned lies in the heap, in a block of its own. -/
  disjoint : s.live.Pairwise Disjoint
  inside : ∀ p ∈ s.live, (p.1 - xHeapStructSize, .allocated p.2) ∈ taken L.uxStartAddress bs ∧
    L.uxStartAddress + xHeapStructSize ≤ p.1 ∧ p.1 + p.2 ≤ s.pxEnd
  /-- A search that fails finds no free block that is large enough. -/
  searches : ∀ n, 0 < n → n ≤ heapSIZE_MAX → ∃ pv t, search L (adjustedSize n) s = some (pv, t) ∧
    (pv = 0 → ∀ b ∈ bs, b.use = none → b.size < n + xHeapStructSize)
  /-- A live block passes the tests of `vPortFree`, which finds its place in the list. -/
  frees : (∀ p ∈ s.live, inUse L s.mem (p.1 - xHeapStructSize) = true) ∧
    ∀ pv, .tracingFree pv ∈ s.calls → (freeInsert L pv s).isSome = true

theorem Represents.live_mem (h : Represents L s bs) {p : Nat × Nat} (hp : p ∈ s.live) :
    (p.1 - xHeapStructSize, .allocated p.2) ∈ taken L.uxStartAddress bs :=
  h.owned.mem_iff.mpr (mem_append_left _ (mem_map_of_mem hp))

theorem Represents.live_bounds (h : Represents L s bs) {p : Nat × Nat} (hp : p ∈ s.live) :
    L.uxStartAddress + xHeapStructSize ≤ p.1 ∧ p.1 + p.2 ≤ L.uxEndAddress := by
  have hbounds := taken_bounds h.laid.fits _ (h.live_mem hp)
  have htiled := h.laid.tiled
  have hpos := L.uxStartAddress_pos
  rw [Use.asked] at hbounds
  dsimp only at hbounds
  omega

theorem Represents.inOrder (h : Represents L s bs) : InOrder L s bs where
  list := by
    rw [h.ready]
    exact Row.chain h.laid.first h.laid.row
  listEnd := by
    rw [h.ready]
    exact h.laid.endNext
  ascending := by
    have hpos := fits_pos h.laid.fits
    have htiled := h.laid.tiled
    refine pairwise_append.mpr ⟨freeList_ascending _ _ hpos, pairwise_singleton _ _, ?_⟩
    intro x hx y hy
    rw [mem_singleton.mp hy, h.ready, ← htiled]
    exact (freeList_bounds _ _ hpos x hx).2
  headers := by
    rw [h.ready]
    exact h.laid.row
  tiled := by
    rw [h.ready]
    exact ⟨h.laid.tiled, L.uxEndAddress_spec.2.1⟩
  separated := h.laid.separated
  aligned := fun b hb => (h.laid.fits b hb).aligned
  balance := by
    intro hsus
    rw [h.balance]
    refine Row.remaining h.laid.row fun y hy => ?_
    -- such a block would belong to a call that suspends the scheduler
    rcases mem_append.mp (h.owned.mem_iff.mp hy) with hmem | hmem
    · obtain ⟨p, -, hp⟩ := mem_map.mp hmem
      cases hp
    · obtain ⟨c, hc, ho⟩ := mem_filterMap.mp hmem
      have hcount := h.suspended
      rw [hsus] at hcount
      have hnone := countP_eq_zero.mp hcount.symm c hc
      cases c with
      | tracingFree pv => exact hnone rfl
      | searching w n => cases ho
      | freeing pv => cases ho
      | tracingMalloc pv n =>
        rw [Call.owner] at ho
        split at ho <;> cases ho
      | returning pv n =>
        rw [Call.owner] at ho
        split at ho <;> cases ho
  disjoint := by
    have hapart := (h.owned.pairwise_iff Apart.symm).mp (taken_apart h.laid.fits)
    have hlive := pairwise_map.mp (pairwise_append.mp hapart).1
    refine hlive.imp_of_mem fun {p q} hp hq hpq => ?_
    have hp := h.live_bounds hp
    have hq := h.live_bounds hq
    rw [Apart, Use.asked, Use.asked] at hpq
    rw [Disjoint]
    dsimp only at hpq
    omega
  inside := by
    intro p hp
    rw [h.ready]
    exact ⟨h.live_mem hp, h.live_bounds hp⟩
  searches := by
    intro n hn hmax
    rcases h.search (w := adjustedSize n) with ⟨hfail, hall⟩ | ⟨pre, b, post, -, -, -, -, hfound⟩
    · refine ⟨0, s, hfail, fun _ b hb hfree => ?_⟩
      have hlt := h.laid.size_lt hb
      rcases adjustedSize_cases hn with ⟨-, hbig⟩ | ⟨hal, hlo, hhi⟩
      · have hmask : heapBLOCK_ALLOCATED_BITMASK = 2147483648 := rfl
        rw [heapSIZE_MAX] at hbig
        omega
      · have hb8 := (h.laid.fits b hb).aligned
        have hsmall := hall (by omega) b hb hfree
        rw [portBYTE_ALIGNMENT] at hb8
        rw [xHeapStructSize]
        omega
    · refine ⟨_, _, hfound, fun h0 => ?_⟩
      rw [xHeapStructSize] at h0
      omega
  frees := by
    constructor
    · intro p hp
      obtain ⟨pre, b, post, rfl, hb, hx, -⟩ := h.block (h.owned.mem_iff.mp (h.live_mem hp))
      exact (h.inUse hb hx).1
    · intro pv hc
      have hperm := @owners_erase s.live s.calls _ hc
      obtain ⟨pre, b, post, rfl, hb, hx, -⟩ := h.block (hperm.mem_iff.mpr mem_cons_self)
      rw [Heap.freeInsert, if_pos hc, prvInsertBlockIntoFreeList, h.laid.findIterator hx]
      rfl

/-- After any interleaving of the calls the blocks tile the heap, those in use are disjoint, and the
free list holds the others in address order, no two of them next to each other. -/
theorem heap_in_order (L : Layout) (mem : Memory) (ls : List Label) (s : State)
    (hrun : (machine L).run (boot mem) ls = some s) :
    (s.pxEnd = 0 ∧ s.calls = [] ∧ s.live = []) ∨ ∃ bs, InOrder L s bs := by
  have hinv : Inv L s := (machine L).run_invariant (fun _ _ _ h hl => h.step hl)
    (.inl ⟨rfl, rfl, rfl, rfl⟩) hrun
  rcases hinv with h | ⟨bs, h⟩
  · exact .inl ⟨h.pxEnd, h.calls, h.live⟩
  · exact .inr ⟨bs, h.inOrder⟩

def smallHeap : Layout where
  ucHeap := 0x104
  configTOTAL_HEAP_SIZE := 0x100
  xStart := 0x20
  xHeapCanary := 0x5A5A5A5A
  positive := by decide
  room := by decide
  small := by decide
  fits := by decide
  apart := by decide

/-- Two blocks are allocated and the first is freed, while the tracing dictionary frees a block
of its own and allocates a new one. -/
def tracedRun : List Label :=
  [.mallocEnter 20, .mallocSearch 32 20, .mallocResume 0x110 20, .mallocReturn 0x110 20,
    .mallocEnter 5, .mallocSearch 16 5, .mallocResume 0x130 5, .mallocReturn 0x130 5,
    .store 0x110 20 0x114 0xFFFFFFFF, .freeEnter 0x110 20, .freeSuspend 0x110,
    .freeEnter 0x130 5, .freeSuspend 0x130, .freeInsert 0x130,
    .mallocEnter 8, .mallocSearch 16 8, .mallocResume 0x130 8, .mallocReturn 0x130 8,
    .freeInsert 0x110]

theorem heap_in_order_tracedRun : ∃ s, (machine smallHeap).run (boot fun x => x) tracedRun = some s ∧
    s.live = [(0x130, 8)] ∧
    ((s.pxEnd = 0 ∧ s.calls = [] ∧ s.live = []) ∨ ∃ bs, InOrder smallHeap s bs) := by
  have hrun : ((machine smallHeap).run (boot fun x => x) tracedRun).map State.live =
      some [(0x130, 8)] := by
    decide
  obtain ⟨s, hs, hlive⟩ := map_eq_some_iff.mp hrun
  exact ⟨s, hs, hlive, heap_in_order smallHeap _ tracedRun s hs⟩

end Claims

end NikitaFirmware.Heap
