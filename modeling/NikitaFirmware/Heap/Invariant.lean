import NikitaFirmware.Heap.Operations

/-!
# The invariant of the heap

In every state the heap is a row of blocks, each of which is free or belongs to exactly one call
in progress or live allocation. `xFreeBytesRemaining` counts the free blocks, and those that a
suspended call of `vPortFree` has added already.
-/

namespace NikitaFirmware.Heap
open Foundations Memory Block List

variable {L : Layout} {s s' : State} {x : Nat} {b : Block Use} {bs pre post : List (Block Use)}

/-- What `xFreeBytesRemaining` has of a row. -/
def remaining : List (Block Use) → Nat
  | [] => 0
  | b :: bs =>
    match b.use with
    | none | some (.released true) => b.size + remaining bs
    | some (.allocated _) | some (.released false) => remaining bs

def Call.owner : Call → Option (Nat × Use)
  | searching .. => none
  | tracingMalloc pv n | returning pv n =>
    if pv = 0 then none else some (pv - xHeapStructSize, .allocated n)
  | freeing pv => some (pv - xHeapStructSize, .released false)
  | tracingFree pv => some (pv - xHeapStructSize, .released true)

def owners (live : List (Nat × Nat)) (calls : List Call) : List (Nat × Use) :=
  live.map (fun p => (p.1 - xHeapStructSize, .allocated p.2)) ++ calls.filterMap Call.owner

/-- The state of the allocator and the row of blocks that its memory holds. -/
structure Represents (L : Layout) (s : State) (bs : List (Block Use)) : Prop where
  ready : s.pxEnd = L.uxEndAddress
  laid : Laid L s.mem bs
  owned : (taken L.uxStartAddress bs).Perm (owners s.live s.calls)
  balance : s.xFreeBytesRemaining = remaining bs
  suspended : s.uxSchedulerSuspended = s.calls.countP Call.suspends
  adjusted : ∀ w n, .searching w n ∈ s.calls → w = adjustedSize n

/-- Nothing has been called yet. -/
structure Fresh (s : State) : Prop where
  pxEnd : s.pxEnd = 0
  calls : s.calls = []
  live : s.live = []
  suspended : s.uxSchedulerSuspended = 0

/-- The invariant. -/
def Inv (L : Layout) (s : State) : Prop := Fresh s ∨ ∃ bs, Represents L s bs

section Bits

theorem mark_and_mask {n : Nat} (h : n < heapBLOCK_ALLOCATED_BITMASK) :
    (n ||| heapBLOCK_ALLOCATED_BITMASK) &&& (heapSIZE_MAX - heapBLOCK_ALLOCATED_BITMASK) = n := by
  have hmask : heapSIZE_MAX - heapBLOCK_ALLOCATED_BITMASK = 2 ^ 31 - 1 := rfl
  rw [hmask, Nat.and_two_pow_sub_one_eq_mod]
  have hor : n ||| heapBLOCK_ALLOCATED_BITMASK = 2 ^ 31 * 1 + n := by
    rw [Nat.or_comm, Nat.two_pow_add_eq_or_of_lt h]
    rfl
  rw [hor, Nat.mul_add_mod]
  exact Nat.mod_eq_of_lt h

theorem mark_and_bit (n : Nat) :
    (n ||| heapBLOCK_ALLOCATED_BITMASK) &&& heapBLOCK_ALLOCATED_BITMASK ≠ 0 := by
  have habsorb : (n ||| heapBLOCK_ALLOCATED_BITMASK) &&& heapBLOCK_ALLOCATED_BITMASK =
      heapBLOCK_ALLOCATED_BITMASK := by
    apply Nat.eq_of_testBit_eq
    intro i
    rw [Nat.testBit_and, Nat.testBit_or]
    cases heapBLOCK_ALLOCATED_BITMASK.testBit i
    · rw [Bool.and_false]
    · rw [Bool.and_true, Bool.or_true]
  rw [habsorb]
  decide

end Bits

section Counting

theorem remaining_append (bs cs : List (Block Use)) :
    remaining (bs ++ cs) = remaining bs + remaining cs := by
  induction bs with
  | nil => exact (Nat.zero_add _).symm
  | cons b bs ih =>
    rw [cons_append, remaining, remaining, ih]
    split
    · exact (Nat.add_assoc ..).symm
    · exact (Nat.add_assoc ..).symm
    · rfl
    · rfl

theorem remaining_of_free (h : ∀ b ∈ bs, b.use = none) : remaining bs = extent bs := by
  induction bs with
  | nil => rfl
  | cons b bs ih =>
    rw [remaining, h b mem_cons_self, extent_cons, ih fun c hc => h c (mem_cons_of_mem b hc)]

theorem taken_of_free {a : Nat} (h : ∀ b ∈ bs, b.use = none) : taken a bs = [] := by
  induction bs generalizing a with
  | nil => rfl
  | cons b bs ih =>
    rw [taken_free (h b mem_cons_self), ih fun c hc => h c (mem_cons_of_mem b hc)]

theorem mem_taken {a y : Nat} {u : Use} (h : (y, u) ∈ taken a bs) :
    ∃ pre b post, bs = pre ++ b :: post ∧ b.use = some u ∧ a + extent pre = y := by
  induction bs generalizing a with
  | nil => exact absurd h not_mem_nil
  | cons b bs ih =>
    cases hu : b.use with
    | none =>
      rw [taken_free hu] at h
      obtain ⟨pre, c, post, rfl, hc, hy⟩ := ih h
      exact ⟨b :: pre, c, post, rfl, hc, by rw [extent_cons, ← Nat.add_assoc]; exact hy⟩
    | some v =>
      rw [taken_used hu] at h
      rcases mem_cons.mp h with h | h
      · obtain ⟨rfl, rfl⟩ := Prod.mk.inj h
        exact ⟨[], b, bs, rfl, hu, rfl⟩
      · obtain ⟨pre, c, post, rfl, hc, hy⟩ := ih h
        exact ⟨b :: pre, c, post, rfl, hc, by rw [extent_cons, ← Nat.add_assoc]; exact hy⟩

theorem taken_split {a : Nat} {u : Use} (hb : b.use = some u) : taken a (pre ++ b :: post) =
      taken a pre ++ (a + extent pre, u) :: taken (a + extent pre + b.size) post := by
  rw [taken_append, taken_used hb]

end Counting

section Owners

variable {live : List (Nat × Nat)} {calls : List Call} {c : Call}

theorem owners_erase (hc : c ∈ calls) :
    (owners live calls).Perm (c.owner.toList ++ owners live (calls.erase c)) := by
  have hperm := (perm_cons_erase hc).filterMap Call.owner
  have hcons : (c :: calls.erase c).filterMap Call.owner =
      c.owner.toList ++ (calls.erase c).filterMap Call.owner := by
    cases ho : c.owner with
    | none => rw [filterMap_cons_none ho, Option.toList_none, nil_append]
    | some o => rw [filterMap_cons_some ho, Option.toList_some, singleton_append]
  rw [hcons] at hperm
  rw [owners, owners]
  exact (hperm.append_left _).trans (perm_append_comm_assoc ..)

theorem owners_cons : (owners live (c :: calls)).Perm (c.owner.toList ++ owners live calls) := by
  have hmem : c ∈ c :: calls := mem_cons_self
  have h := @owners_erase live (c :: calls) c hmem
  rwa [erase_cons_head] at h

theorem owners_live_erase {pv n : Nat} (h : (pv, n) ∈ live) : (owners live calls).Perm
      ((pv - xHeapStructSize, .allocated n) :: owners (live.erase (pv, n)) calls) := by
  have hperm := (perm_cons_erase h).map fun p : Nat × Nat =>
    (p.1 - xHeapStructSize, Use.allocated p.2)
  rw [owners, owners]
  exact hperm.append_right _

theorem countP_erase (hc : c ∈ calls) : calls.countP Call.suspends =
      (calls.erase c).countP Call.suspends + if c.suspends then 1 else 0 := by
  rw [(perm_cons_erase hc).countP_eq Call.suspends, countP_cons]

theorem countP_same (c' : Call) (hc : c ∈ calls) (h : c'.suspends = c.suspends) :
    (c' :: calls.erase c).countP Call.suspends = calls.countP Call.suspends := by
  rw [countP_erase hc, countP_cons, h]

theorem countP_resume (c' : Call) (hc : c ∈ calls) (h : c.suspends = true) (h' : c'.suspends = false) :
    (c' :: calls.erase c).countP Call.suspends + 1 = calls.countP Call.suspends := by
  rw [countP_erase hc, countP_cons, h, h']
  rfl

theorem countP_suspend (c' : Call) (hc : c ∈ calls) (h : c.suspends = false) (h' : c'.suspends = true) :
    (c' :: calls.erase c).countP Call.suspends = calls.countP Call.suspends + 1 := by
  rw [countP_erase hc, countP_cons, h, h']
  rfl

end Owners

section Sizes

theorem overflow_iff (a b : Nat) : heapADD_WILL_OVERFLOW a b = true ↔ heapSIZE_MAX - b < a :=
  decide_eq_true_iff

theorem adjustedSize_cases {n : Nat} (hn : 0 < n) : (adjustedSize n = 0 ∧ heapSIZE_MAX < n + 15) ∨
      (adjustedSize n % 8 = 0 ∧ n + 8 ≤ adjustedSize n ∧ adjustedSize n < n + 16) := by
  rw [adjustedSize, if_pos hn, portBYTE_ALIGNMENT, xHeapStructSize]
  by_cases ho : heapADD_WILL_OVERFLOW n 8 = true
  · rw [if_pos ho]
    rw [overflow_iff] at ho
    omega
  · rw [if_neg ho]
    by_cases hal : (n + 8) % 8 = 0
    · rw [if_pos hal]
      omega
    · rw [if_neg hal]
      by_cases ho' : heapADD_WILL_OVERFLOW (n + 8) (8 - (n + 8) % 8) = true
      · rw [if_pos ho']
        rw [overflow_iff] at ho'
        omega
      · rw [if_neg ho']
        omega

theorem adjustedSize_spec {n : Nat} (h : 0 < adjustedSize n) :
    adjustedSize n % 8 = 0 ∧ n + 8 ≤ adjustedSize n ∧ adjustedSize n < n + 16 := by
  have hn : 0 < n := by
    by_contra hn
    rw [adjustedSize, if_neg hn] at h
    exact absurd h (Nat.lt_irrefl 0)
  exact (adjustedSize_cases hn).resolve_left fun h0 => absurd h0.1 (Nat.ne_of_gt h)

theorem Laid.size_lt (h : Laid L s.mem bs) (hb : b ∈ bs) : b.size < heapBLOCK_ALLOCATED_BITMASK := by
  obtain ⟨pre, post, rfl⟩ := append_of_mem hb
  have htiled := h.tiled
  have hend := L.uxEndAddress_spec
  have hstart := L.uxStartAddress_spec
  have hsmall := L.small
  rw [extent_append, extent_cons] at htiled
  omega

theorem size_le_remaining (hb : b ∈ bs) (hfree : b.use = none) : b.size ≤ remaining bs := by
  obtain ⟨pre, post, rfl⟩ := append_of_mem hb
  rw [remaining_append, remaining, hfree]
  dsimp only
  omega

theorem Laid.freeList_length_lt {mem : Memory} (h : Laid L mem (pre ++ post)) :
    (freeList L.uxStartAddress pre).length < L.configTOTAL_HEAP_SIZE := by
  have hlen := freeList_length (k := 8) L.uxStartAddress pre fun b hb =>
    (h.fits b (mem_append_left post hb)).eight
  have htiled := h.tiled
  have hend := L.uxEndAddress_spec
  have hstart := L.uxStartAddress_spec
  have hroom := L.room
  rw [extent_append] at htiled
  omega

end Sizes

section Search

variable {w n : Nat}

theorem Represents.search (h : Represents L s bs) :
    (Heap.search L w s = some (0, s) ∧ (0 < w → ∀ b ∈ bs, b.use = none → b.size < w)) ∨
      ∃ pre b post, bs = pre ++ b :: post ∧ b.use = none ∧ 0 < w ∧ w ≤ b.size ∧
        Heap.search L w s = some (L.uxStartAddress + extent pre + xHeapStructSize,
          allocate L w (lastFree L.xStart L.uxStartAddress pre)
            (L.uxStartAddress + extent pre) s) := by
  have hend := L.uxEndAddress_spec
  have hpos := L.uxStartAddress_pos
  rw [Heap.search]
  split
  next hw =>
    have hfuel := (show Laid L s.mem (bs ++ []) by simpa using h.laid).freeList_length_lt
    rw [h.laid.first, L.protect_protect]
    rcases traverse_spec w (p := L.xStart) h.laid.fits hpos h.laid.endNext
      (by omega) h.laid.row hfuel with ⟨q, hq, hall⟩ | ⟨pre, b, post, rfl, hb, hle, -, hq⟩
    · left
      rw [hq]
      refine ⟨?_, fun _ => hall⟩
      rw [Option.map_some, h.ready]
      exact congrArg some (if_pos rfl)
    · right
      refine ⟨pre, b, post, rfl, hb, hw.2.1, hle, ?_⟩
      have htiled := h.laid.tiled
      have h8 := (h.laid.fits b (by simp)).eight
      rw [extent_append, extent_cons] at htiled
      rw [hq, Option.map_some, h.ready]
      dsimp only
      rw [if_neg (by omega), h.laid.lastFree_next, firstFree_free hb, L.protect_protect]
  next hw =>
    refine .inl ⟨rfl, fun h0 b hb hfree => ?_⟩
    have hlt := h.laid.size_lt hb
    have hle := size_le_remaining hb hfree
    have hbal := h.balance
    omega

end Search

end NikitaFirmware.Heap
