import NikitaFirmware.Foundations.Ledger
import NikitaFirmware.EventLoop.Timers

/-!
# The list of the active timers

The remaining time of every timer in the list shrinks by the same ticks until it is zero, so that
a list which is sorted by it stays sorted while the clock goes on. The start of a timer lies a
whole number of its intervals behind the one that its elapsed time counts from.
-/

namespace NikitaFirmware.EventLoop
open Foundations List Option Function UInt32

namespace Timer

variable {timer : Timer} {now n : Nat}

theorem getRemainingTime_toNat (tickCount : UInt32) : (timer.getRemainingTime tickCount).toNat =
    timer.interval.toNat - (timer.getElapsedTime tickCount).toNat := by
  unfold getRemainingTime
  split
  · next hlt => exact UInt32.toNat_sub_of_le _ _ (UInt32.le_of_lt hlt)
  · next hle =>
    rw [lt_iff_toNat_lt] at hle
    rw [Nat.sub_eq_zero_of_le (by omega)]
    rfl

theorem isExpired_iff (tickCount : UInt32) : timer.isExpired tickCount = true ↔
    timer.interval.toNat ≤ (timer.getElapsedTime tickCount).toNat := by
  rw [isExpired, decide_eq_true_eq, le_iff_toNat_le]

theorem getElapsedTime_add (h : (timer.getElapsedTime (ofNat now)).toNat + n < size) :
    (timer.getElapsedTime (ofNat (now + n))).toNat =
      (timer.getElapsedTime (ofNat now)).toNat + n := by
  have hstart := timer.startTime.toNat_lt
  simp only [getElapsedTime, UInt32.toNat_sub, UInt32.toNat_ofNat', UInt32.size] at h ⊢
  omega

theorem getElapsedTime_period (tickCount : UInt32) : ({ timer with startTime := timer.startTime +
        timer.interval * (timer.getElapsedTime tickCount / timer.interval) } : Timer).getElapsedTime
      tickCount = timer.getElapsedTime tickCount % timer.interval := by
  have hdiv : timer.interval.toNat *
      ((timer.getElapsedTime tickCount).toNat / timer.interval.toNat) +
        (timer.getElapsedTime tickCount).toNat % timer.interval.toNat =
      (timer.getElapsedTime tickCount).toNat := Nat.div_add_mod _ _
  have helapsed := (timer.getElapsedTime tickCount).toNat_lt
  have htick := tickCount.toNat_lt
  have hstart := timer.startTime.toNat_lt
  apply UInt32.toNat_inj.mp
  simp only [getElapsedTime, UInt32.toNat_sub, UInt32.toNat_add, UInt32.toNat_mul,
    UInt32.toNat_div, UInt32.toNat_mod] at hdiv helapsed ⊢
  generalize timer.interval.toNat * _ = whole at hdiv ⊢
  omega

end Timer

namespace TimedLoop

/-- Whether the timer belongs into the list. -/
def isListed (w : TimedLoop) (t : Nat) : Bool :=
  (w.timers t).any (fun timer => timer.active) && decide (w.hand.unlinked? ≠ some t)

/-- Some whole number of intervals, and not fewer than the callbacks since, lies between the start
of the timer and what its elapsed time counts from. -/
def Periods (now : Nat) (timer : Timer) (fired : Nat) : Prop :=
  ∃ k, fired ≤ k ∧ timer.startedAt + k * timer.interval.toNat +
    (timer.getElapsedTime (ofNat now)).toNat = now

/-- Where the code of the timers stands, the loop and the timer at hand are as it needs them. -/
def Stands (w : TimedLoop) : Prop :=
  match w.hand with
  | .none => True
  | .schedule t => w.loop.pc.drainsTimers = true ∧ (w.timers t).any (fun timer => timer.active)
  | .expired t => w.loop.pc = .callback .timerOrTick ∧ w.loop.timerQueue = [] ∧
      ∃ timer, w.timers t = some timer ∧ timer.active = true ∧ timer.isExpired w.tickCount = true
  | .reschedule t => w.loop.pc = .callback .timerOrTick ∧ w.loop.timerQueue = [] ∧
      ∃ timer, w.timers t = some timer ∧ timer.active = true ∧ Periods w.now timer (timer.fired + 1)
  | .callback t => w.loop.pc = .callback .timerOrTick ∧
      ∃ timer, w.timers t = some timer ∧ 0 < timer.fired

structure Good (w : TimedLoop) : Prop where
  crashed : w.crashed = false
  flagged : Flagged w.loop
  stands : w.Stands
  listed : ∀ t, w.timerList.count t = if w.isListed t then 1 else 0
  sorted : w.timerList.Pairwise fun t u => (w.remaining t).toNat ≤ (w.remaining u).toNat
  periods : ∀ t timer, w.timers t = some timer → timer.active = true →
    Periods w.now timer timer.fired
  clock : ∀ t timer, w.timers t = some timer →
    timer.startedAt + timer.fired * timer.interval.toNat ≤ w.now
  interval : ∀ t timer, w.timers t = some timer → timer.periodic = true →
    (timer.active = true → timer.interval ≠ 0) ∧
      ((t, .start) ∈ w.loop.timerQueue → timer.nextInterval ≠ 0)
  queued : ∀ t r, (t, r) ∈ w.loop.timerQueue → w.timers t ≠ none ∧ lastRequest t w.log = some r
  nodup : (w.loop.timerQueue.map Prod.fst).Nodup
  asked : ∀ t timer, w.timers t = some timer → timer.active = true →
    (∀ r, (t, r) ∉ w.loop.timerQueue) → lastRequest t w.log = some .start
  fires : ∀ t before, .callback t :: before <:+ w.log → lastRequest t before = some .start

variable {w w' : TimedLoop} {t u : Nat} {timer : Timer} {s : State} {r : TimerRequest}

theorem stands_none (h : w.hand = .none) : w.Stands := by
  rw [Stands, h]
  trivial

theorem stands_callback (h : w.hand = .callback t) (hpc : w.loop.pc = .callback .timerOrTick)
    (ht : w.timers t = some timer) (hfired : 0 < timer.fired) : w.Stands := by
  rw [Stands, h]
  exact ⟨hpc, timer, ht, hfired⟩

theorem good_alloc : alloc.Good where
  crashed := rfl
  flagged := fun h => absurd rfl h
  stands := trivial
  listed := fun _ => rfl
  sorted := List.Pairwise.nil
  periods := fun _ _ h => absurd h (by simp [alloc])
  clock := fun _ _ h => absurd h (by simp [alloc])
  interval := fun _ _ h => absurd h (by simp [alloc])
  queued := fun _ _ h => absurd h not_mem_nil
  nodup := nodup_nil
  asked := fun _ _ h => absurd h (by simp [alloc])
  fires := by
    intro t before h
    exact absurd (suffix_nil.mp h) (cons_ne_nil _ _)

theorem isListed_eq_true : w.isListed t = true ↔
    (∃ timer, w.timers t = some timer ∧ timer.active = true) ∧ w.hand.unlinked? ≠ some t := by
  rw [isListed, Bool.and_eq_true, decide_eq_true_eq, Option.any_eq_true]

theorem Good.mem_timerList (h : w.Good) : t ∈ w.timerList ↔ w.isListed t = true := by
  rw [← count_pos_iff, h.listed t]
  cases w.isListed t <;> simp

theorem Good.nodup_timerList (h : w.Good) : w.timerList.Nodup := by
  refine nodup_iff_count_le_one.mpr fun t => ?_
  rw [h.listed t]
  split <;> omega

theorem remaining_of_some (h : w.timers t = some timer) :
    w.remaining t = timer.getRemainingTime w.tickCount := by
  rw [remaining, h]

theorem remaining_congr {v w : TimedLoop} (htime : v.now = w.now)
    (htimer : v.timers t = w.timers t) : v.remaining t = w.remaining t := by
  unfold remaining tickCount
  rw [htime, htimer]

theorem Good.of_quiet (h : w.Good) (hq : Quiet w.loop s) {hand : Hand}
    (hhand : hand.unlinked? = w.hand.unlinked?)
    (hstands : Stands { w with loop := s, hand := hand }) :
    Good { w with loop := s, hand := hand } where
  crashed := h.crashed
  flagged := hq.flagged h.flagged
  stands := hstands
  listed := by
    intro t
    have hl : ({ w with loop := s, hand := hand } : TimedLoop).isListed t = w.isListed t := by
      rw [isListed, isListed]
      dsimp only
      rw [hhand]
    rw [hl]
    exact h.listed t
  sorted := h.sorted
  periods := h.periods
  clock := h.clock
  interval := fun t timer ht hp => by
    dsimp only
    rw [hq.timerQueue]
    exact h.interval t timer ht hp
  queued := fun t r ht => h.queued t r (hq.timerQueue ▸ ht)
  nodup := by
    dsimp only
    rw [hq.timerQueue]
    exact h.nodup
  asked := fun t timer ht ha hnot => h.asked t timer ht ha (hq.timerQueue ▸ hnot)
  fires := h.fires

theorem Good.tick (h : w.Good) {n : Nat} (hok : InTime w (.tick n)) :
    Good { w with now := w.now + n } := by
  have helapsed : ∀ t timer, w.timers t = some timer → timer.active = true →
      (timer.getElapsedTime (ofNat (w.now + n))).toNat =
        (timer.getElapsedTime w.tickCount).toNat + n := by
    intro t timer ht ha
    refine Timer.getElapsedTime_add (hok t ?_ timer ht)
    by_cases hu : w.hand.unlinked? = some t
    · exact mem_append_right _ (by rw [hu]; exact mem_singleton_self t)
    · exact mem_append_left _ (h.mem_timerList.mpr (isListed_eq_true.mpr ⟨⟨timer, ht, ha⟩, hu⟩))
  have hperiods : ∀ t timer k, w.timers t = some timer → timer.active = true →
      Periods w.now timer k → Periods (w.now + n) timer k := by
    rintro t timer k ht ha ⟨m, hm, heq⟩
    refine ⟨m, hm, ?_⟩
    rw [helapsed t timer ht ha]
    exact (Nat.add_assoc ..).symm.trans (congrArg (· + n) heq)
  refine ⟨h.crashed, h.flagged, ?_, h.listed, ?_, ?_, ?_, h.interval, h.queued, h.nodup, h.asked,
    h.fires⟩
  · have hstands := h.stands
    unfold Stands at hstands ⊢
    dsimp only
    cases hhand : w.hand with
    | none => trivial
    | schedule t =>
      rw [hhand] at hstands
      exact hstands
    | callback t =>
      rw [hhand] at hstands
      exact hstands
    | expired t =>
      rw [hhand] at hstands
      obtain ⟨hpc, hq, timer, ht, ha, he⟩ := hstands
      refine ⟨hpc, hq, timer, ht, ha, (Timer.isExpired_iff _).mpr ?_⟩
      have := (Timer.isExpired_iff _).mp he
      change timer.interval.toNat ≤ (timer.getElapsedTime (ofNat (w.now + n))).toNat
      rw [helapsed t timer ht ha]
      omega
    | reschedule t =>
      rw [hhand] at hstands
      obtain ⟨hpc, hq, timer, ht, ha, hp⟩ := hstands
      exact ⟨hpc, hq, timer, ht, ha, hperiods t timer _ ht ha hp⟩
  · refine h.sorted.imp_of_mem fun {t u} htm hum hle => ?_
    obtain ⟨⟨timer, ht, ha⟩, -⟩ := isListed_eq_true.mp (h.mem_timerList.mp htm)
    obtain ⟨⟨timer', hu, ha'⟩, -⟩ := isListed_eq_true.mp (h.mem_timerList.mp hum)
    rw [remaining_of_some ht, remaining_of_some hu, Timer.getRemainingTime_toNat,
      Timer.getRemainingTime_toNat] at hle
    rw [remaining, remaining]
    dsimp only
    rw [ht, hu]
    change (timer.getRemainingTime (ofNat (w.now + n))).toNat ≤
      (timer'.getRemainingTime (ofNat (w.now + n))).toNat
    rw [Timer.getRemainingTime_toNat, Timer.getRemainingTime_toNat, helapsed t timer ht ha,
      helapsed u timer' hu ha']
    omega
  · exact fun t timer ht ha => hperiods t timer _ ht ha (h.periods t timer ht ha)
  · exact fun t timer ht => (h.clock t timer ht).trans (Nat.le_add_right ..)

theorem lastRequest_request_self (log : List TimerEvent) :
    lastRequest t (.request t r :: log) = some r := by
  rw [lastRequest, List.findSome?_cons]
  simp

theorem lastRequest_request_of_ne (log : List TimerEvent) (h : t ≠ u) :
    lastRequest u (.request t r :: log) = lastRequest u log := by
  rw [lastRequest, List.findSome?_cons]
  simp [h, lastRequest]

theorem lastRequest_callback (log : List TimerEvent) :
    lastRequest u (.callback t :: log) = lastRequest u log := by
  rw [lastRequest, List.findSome?_cons]
  rfl

theorem Good.hand_of_not_unlinked (h : w.Good) (hguard : w.hand.unlinked? = none) :
    w.hand = .none ∨ ∃ t, w.hand = .callback t ∧ w.loop.pc = .callback .timerOrTick ∧
      ∃ timer, w.timers t = some timer ∧ 0 < timer.fired := by
  have hstands := h.stands
  unfold Stands at hstands
  cases hhand : w.hand with
  | none => exact .inl rfl
  | callback t =>
    rw [hhand] at hstands
    exact .inr ⟨t, rfl, hstands⟩
  | schedule t =>
    rw [hhand] at hguard
    exact absurd hguard (by simp [Hand.unlinked?])
  | expired t =>
    rw [hhand] at hguard
    exact absurd hguard (by simp [Hand.unlinked?])
  | reschedule t =>
    rw [hhand] at hguard
    exact absurd hguard (by simp [Hand.unlinked?])

theorem enqueueRequest_cases {f : Timer → Timer} (hs : w.enqueueRequest t r f = some w') :
    ∃ timer s, w.timers t = some timer ∧ s.pc = w.loop.pc ∧ s.notification .timer = true ∧
      s.timerQueue = w.loop.timerQueue.filter (fun p => p.1 ≠ t) ++ [(t, r)] ∧
      w' = { w.setTimer t (f timer) with loop := s, log := .request t r :: w.log } := by
  unfold enqueueRequest at hs
  split at hs
  · cases hs
  next timer ht =>
  obtain ⟨s, hstep, rfl⟩ := map_eq_some_iff.mp hs
  unfold EventLoop.step at hstep
  split at hstep
  · cases hstep
  change (if w.loop.pc.user = true then _ else none) = some s at hstep
  obtain ⟨-, hcall⟩ := ite_none_right_eq_some.mp hstep
  change timerEnqueueRequest w.loop t r = some s at hcall
  unfold timerEnqueueRequest at hcall
  split at hcall
  · cases hcall
  obtain rfl := some.inj hcall
  refine ⟨timer, notify { w.loop with
    timerQueue := w.loop.timerQueue.filter (fun p => p.1 ≠ t) ++ [(t, r)] } .timer, ht, rfl, ?_,
    rfl, rfl⟩
  exact Flags.set_self w.loop.notification .timer

variable {q : List (Nat × TimerRequest)}

theorem mem_filter_append {r' : TimerRequest} : (u, r') ∈ q.filter (fun p => p.1 ≠ t) ++ [(t, r)] ↔
      u ≠ t ∧ (u, r') ∈ q ∨ u = t ∧ r' = r := by
  rw [mem_append, mem_filter, mem_singleton, decide_eq_true_eq, Prod.mk.injEq,
    and_comm (a := (u, r') ∈ q)]

theorem Good.enqueueRequest {f : Timer → Timer} (h : w.Good) (hguard : w.hand.unlinked? = none)
    (hf : ∀ timer, f timer = { timer with nextInterval := (f timer).nextInterval })
    (hnext : ∀ timer, w.timers t = some timer → timer.periodic = true → r = .start →
      (f timer).nextInterval ≠ 0)
    (hs : w.enqueueRequest t r f = some w') : w'.Good := by
  obtain ⟨timer, s, ht, hpc, hflag, hq, rfl⟩ := enqueueRequest_cases hs
  -- the request touches one field of one timer
  have hnew : ∀ {u timer'}, update w.timers t (some (f timer)) u = some timer' →
      ∃ old, w.timers u = some old ∧ timer' = { old with nextInterval := timer'.nextInterval } ∧
        (u = t → timer' = f old) ∧ (u ≠ t → timer' = old) := by
    intro u timer' hu
    obtain ⟨rfl, hv⟩ | ⟨hne, hu⟩ := Ledger.update_cases hu
    · obtain rfl := some.inj hv
      exact ⟨timer, ht, hf timer, fun _ => rfl, fun hne => absurd rfl hne⟩
    · exact ⟨timer', hu, rfl, fun heq => absurd heq hne, fun _ => rfl⟩
  have hremaining : ∀ u, ({ w.setTimer t (f timer) with
      loop := s, log := .request t r :: w.log } : TimedLoop).remaining u = w.remaining u := by
    intro u
    by_cases hu : u = t
    · subst hu
      have hself : ({ w.setTimer u (f timer) with
          loop := s, log := .request u r :: w.log } : TimedLoop).timers u = some (f timer) :=
        update_self ..
      rw [remaining_of_some hself, remaining_of_some ht, hf timer]
      rfl
    · exact remaining_congr rfl (update_of_ne hu ..)
  have hactive : ∀ u, (update w.timers t (some (f timer)) u).any
      (fun timer => timer.active) = (w.timers u).any fun timer => timer.active := by
    intro u
    by_cases hu : u = t
    · subst hu
      rw [update_self, ht, any_some, any_some, hf timer]
    · rw [update_of_ne hu]
  refine ⟨h.crashed, fun _ => .inr (.inl hflag), ?_, fun u => ?_, ?_, fun u timer' hu ha => ?_,
    fun u timer' hu => ?_, fun u timer' hu hp => ?_, fun u r' hu => ?_, ?_,
    fun u timer' hu ha hnot => ?_, fun u before hsuf => ?_⟩
  · -- no timer is between two places
    rcases h.hand_of_not_unlinked hguard with hnone | ⟨u, hcall, hpc', timer', hu, hfired⟩
    · exact stands_none hnone
    · by_cases hut : u = t
      · subst hut
        obtain rfl := some.inj (ht.symm.trans hu)
        refine stands_callback hcall (hpc.trans hpc') (update_self ..) ?_
        rw [hf timer]
        exact hfired
      · exact stands_callback hcall (hpc.trans hpc') ((update_of_ne hut ..).trans hu) hfired
  · change w.timerList.count u = if (update w.timers t (some (f timer)) u).any _ &&
      decide (w.hand.unlinked? ≠ some u) then 1 else 0
    rw [hactive u]
    exact h.listed u
  · refine h.sorted.imp fun {a b} hle => ?_
    rw [hremaining a, hremaining b]
    exact hle
  · obtain ⟨old, hold, heq, -⟩ := hnew hu
    have hp := h.periods u old hold (by rw [heq] at ha; exact ha)
    rw [heq]
    exact hp
  · obtain ⟨old, hold, heq, -⟩ := hnew hu
    rw [heq]
    exact h.clock u old hold
  · obtain ⟨old, hold, heq, hself, hother⟩ := hnew hu
    have hper : old.periodic = true := by
      rw [heq] at hp
      exact hp
    obtain ⟨hact, hstart⟩ := h.interval u old hold hper
    refine ⟨fun ha => ?_, fun hmem => ?_⟩
    · rw [heq] at ha ⊢
      exact hact ha
    · change (u, TimerRequest.start) ∈ s.timerQueue at hmem
      rw [hq] at hmem
      rcases mem_filter_append.mp hmem with ⟨hne, hmem⟩ | ⟨rfl, hr⟩
      · rw [hother hne]
        exact hstart hmem
      · rw [hself rfl]
        exact hnext old hold hper hr.symm
  · change (u, r') ∈ s.timerQueue at hu
    rw [hq] at hu
    rcases mem_filter_append.mp hu with ⟨hne, hmem⟩ | ⟨rfl, rfl⟩
    · obtain ⟨hsome, hlast⟩ := h.queued u r' hmem
      refine ⟨?_, (lastRequest_request_of_ne _ (Ne.symm hne)).trans hlast⟩
      change update w.timers t _ u ≠ none
      rw [update_of_ne hne]
      exact hsome
    · refine ⟨?_, lastRequest_request_self _⟩
      change update w.timers u _ u ≠ none
      rw [update_self]
      exact some_ne_none _
  · change (s.timerQueue.map Prod.fst).Nodup
    -- an older request of the same timer is taken out of the queue first
    rw [hq, map_append, map_singleton]
    refine nodup_append.mpr ⟨(h.nodup.sublist (filter_sublist.map _)),
      nodup_singleton t, fun a ha b hb hab => ?_⟩
    obtain ⟨p, hp, rfl⟩ := mem_map.mp ha
    exact of_decide_eq_true (mem_filter.mp hp).2 (hab.trans (mem_singleton.mp hb))
  · obtain ⟨old, hold, heq, -⟩ := hnew hu
    have hnot' : ∀ r', (u, r') ∉ w.loop.timerQueue ∧ u ≠ t := by
      intro r'
      have hne : u ≠ t := by
        rintro rfl
        refine hnot r ?_
        change (u, r) ∈ s.timerQueue
        rw [hq]
        exact mem_filter_append.mpr (.inr ⟨rfl, rfl⟩)
      refine ⟨fun hmem => hnot r' ?_, hne⟩
      change (u, r') ∈ s.timerQueue
      rw [hq]
      exact mem_filter_append.mpr (.inl ⟨hne, hmem⟩)
    refine (lastRequest_request_of_ne _ (Ne.symm (hnot' r).2)).trans
      (h.asked u old hold (by rw [heq] at ha; exact ha) fun r' => (hnot' r').1)
  · rcases suffix_cons_iff.mp hsuf with heq | hsuf
    · exact absurd (List.cons.inj heq).1 (by simp)
    · exact h.fires u before hsuf

theorem Good.taken {v : Option Timer} (h : w.Good) (hand : Hand)
    (hnone : w.hand = .none) (hq : w.loop.timerQueue = (t, r) :: q) (ht : w.timers t = some timer)
    (hs : s.timerQueue = q) (hdrains : s.pc.drainsTimers = true)
    (hhand : hand = .none ∨ hand = .schedule t ∧ v.any (fun timer => timer.active) = true)
    (hv : ∀ new, v = some new → new.startedAt + new.fired * new.interval.toNat ≤ w.now ∧
      (new.active = true → hand = .schedule t ∧ Periods w.now new new.fired ∧
        (new.periodic = true → new.interval ≠ 0) ∧ r = .start)) :
    Good { w with
      loop := s
      timers := update w.timers t v
      timerList := if timer.active then w.timerList.erase t else w.timerList
      hand := hand } := by
  have hnodup := h.nodup
  rw [hq, map_cons, nodup_cons] at hnodup
  have hother : ∀ {u r'}, (u, r') ∈ q → u ≠ t := by
    rintro u r' hmem rfl
    exact hnodup.1 (mem_map.mpr ⟨(u, r'), hmem, rfl⟩)
  have hlast : lastRequest t w.log = some r :=
    (h.queued t r (hq ▸ mem_cons_self)).2
  -- the timer is not in the list any more, and the others still are
  have hcount : ∀ u, (if timer.active then w.timerList.erase t else w.timerList).count u =
      if u = t then 0 else w.timerList.count u := by
    intro u
    have hself : w.timerList.count t = if timer.active then 1 else 0 := by
      rw [h.listed t, isListed, ht, hnone, any_some]
      simp [Hand.unlinked?]
    by_cases hu : u = t
    · subst hu
      rw [if_pos rfl]
      split
      · next ha =>
        rw [count_erase_self, hself, if_pos ha]
      · next ha =>
        rw [hself, if_neg ha]
    · rw [if_neg hu]
      split
      · exact count_erase_of_ne hu
      · rfl
  have hsub : (if timer.active then w.timerList.erase t else w.timerList).Sublist w.timerList := by
    split
    · exact erase_sublist
    · exact List.Sublist.refl _
  have hunlinked : ∀ u, u ≠ t → hand.unlinked? ≠ some u := by
    intro u hu
    rcases hhand with rfl | ⟨rfl, -⟩
    · simp [Hand.unlinked?]
    · simpa [Hand.unlinked?] using Ne.symm hu
  refine ⟨h.crashed, fun _ => .inr (.inr (.inr hdrains)), ?_, fun u => ?_, ?_,
    fun u new hu ha => ?_, fun u new hu => ?_, fun u new hu hp => ?_, fun u r' hu => ?_, ?_,
    fun u new hu ha hnot => ?_, h.fires⟩
  · rcases hhand with rfl | ⟨rfl, hactive⟩
    · exact stands_none rfl
    · refine ⟨hdrains, ?_⟩
      change (update w.timers t v t).any _ = true
      rw [update_self]
      exact hactive
  · refine (hcount u).trans ?_
    by_cases hu : u = t
    · subst hu
      rw [if_pos rfl, if_neg]
      rw [isListed_eq_true]
      rintro ⟨⟨new, hnew, ha⟩, hne⟩
      change update w.timers u v u = some new at hnew
      rw [update_self] at hnew
      refine hne ?_
      change hand.unlinked? = some u
      rw [((hv new hnew).2 ha).1]
      rfl
    · rw [if_neg hu, h.listed u]
      have hl : ({ w with
          loop := s
          timers := update w.timers t v
          timerList := if timer.active then w.timerList.erase t else w.timerList
          hand := hand } : TimedLoop).isListed u = w.isListed u := by
        rw [isListed, isListed]
        dsimp only
        rw [update_of_ne hu, hnone, decide_eq_true (hunlinked u hu)]
        rfl
      rw [hl]
  · refine (h.sorted.sublist hsub).imp_of_mem fun {a b} ha hb hle => ?_
    have hne : ∀ {a}, a ∈ (if timer.active then w.timerList.erase t else w.timerList) → a ≠ t := by
      rintro a ha rfl
      rw [← count_pos_iff, hcount, if_pos rfl] at ha
      exact Nat.lt_irrefl 0 ha
    refine (Nat.le_of_eq (congrArg toNat (remaining_congr ?_ ?_))).trans
      (hle.trans (Nat.le_of_eq (congrArg toNat (remaining_congr ?_ ?_).symm)))
    · rfl
    · exact update_of_ne (hne ha) ..
    · rfl
    · exact update_of_ne (hne hb) ..
  · obtain ⟨rfl, hnew⟩ | ⟨-, hu⟩ := Ledger.update_cases hu
    · exact ((hv new hnew).2 ha).2.1
    · exact h.periods u new hu ha
  · obtain ⟨rfl, hnew⟩ | ⟨-, hu⟩ := Ledger.update_cases hu
    · exact (hv new hnew).1
    · exact h.clock u new hu
  · obtain ⟨rfl, hnew⟩ | ⟨hne, hu⟩ := Ledger.update_cases hu
    · refine ⟨fun ha => ((hv new hnew).2 ha).2.2.1 hp, fun hmem => ?_⟩
      change (u, TimerRequest.start) ∈ s.timerQueue at hmem
      exact absurd rfl (hother (hs ▸ hmem))
    · obtain ⟨hact, hstart⟩ := h.interval u new hu hp
      refine ⟨hact, fun hmem => hstart ?_⟩
      change (u, TimerRequest.start) ∈ s.timerQueue at hmem
      rw [hq]
      exact mem_cons_of_mem _ (hs ▸ hmem)
  · change (u, r') ∈ s.timerQueue at hu
    rw [hs] at hu
    obtain ⟨hsome, hlast'⟩ := h.queued u r' (hq ▸ mem_cons_of_mem _ hu)
    refine ⟨?_, hlast'⟩
    change update w.timers t v u ≠ none
    rw [update_of_ne (hother hu)]
    exact hsome
  · change (s.timerQueue.map Prod.fst).Nodup
    rw [hs]
    exact hnodup.2
  · obtain ⟨rfl, hnew⟩ | ⟨hne, hu⟩ := Ledger.update_cases hu
    · rw [((hv new hnew).2 ha).2.2.2] at hlast
      exact hlast
    · refine h.asked u new hu ha fun r' hmem => ?_
      rw [hq] at hmem
      rcases mem_cons.mp hmem with heq | hmem
      · exact hne (Prod.mk.inj heq).1
      · exact hnot r' (hs.symm ▸ hmem)

theorem Good.processRequest (h : w.Good) (hnone : w.hand = .none)
    (hq : w.loop.timerQueue = (t, r) :: q) (hsq : s.timerQueue = q)
    (hdrains : s.pc.drainsTimers = true)
    (hs : { w with loop := s }.processRequest t r = some w') : w'.Good := by
  obtain ⟨hsome, -⟩ := h.queued t r (hq ▸ mem_cons_self)
  obtain ⟨timer, ht⟩ := ne_none_iff_exists'.mp hsome
  unfold TimedLoop.processRequest deref at hs
  simp only [ht] at hs
  obtain rfl := some.inj hs
  cases r with
  | start =>
    refine h.taken (.schedule t) hnone hq ht hsq hdrains (.inr ⟨rfl, rfl⟩) ?_
    intro new hnew
    obtain rfl := some.inj hnew
    refine ⟨?_, fun _ => ⟨rfl, ⟨0, Nat.le_refl 0, ?_⟩, fun hp => ?_, rfl⟩⟩
    · dsimp only
      rw [Nat.zero_mul]
      exact Nat.le_refl _
    · dsimp only [Timer.getElapsedTime, tickCount]
      rw [UInt32.sub_self, Nat.zero_mul]
      rfl
    · exact (h.interval t timer ht hp).2 (hq ▸ mem_cons_self)
  | stop =>
    refine h.taken w.hand hnone hq ht hsq hdrains (.inl hnone) ?_
    intro new hnew
    obtain rfl := some.inj hnew
    exact ⟨h.clock t timer ht, fun ha => absurd ha Bool.false_ne_true⟩
  | free =>
    exact h.taken w.hand hnone hq ht hsq hdrains (.inl hnone) fun new hnew => absurd hnew (by simp)

/-- One timer is given new values, and what is said of all others stays. -/
theorem Good.set {new : Timer} {hand : Hand} {log : List TimerEvent} (h : w.Good)
    (hstands : Stands { w.setTimer t new with hand := hand, log := log })
    (hhand : ∀ u, u ≠ t → (hand.unlinked? ≠ some u ↔ w.hand.unlinked? ≠ some u))
    (hlisted : isListed { w.setTimer t new with hand := hand, log := log } t = w.isListed t)
    (hremaining : t ∈ w.timerList → (w.setTimer t new).remaining t = w.remaining t)
    (hperiods : new.active = true → Periods w.now new new.fired)
    (hclock : new.startedAt + new.fired * new.interval.toNat ≤ w.now)
    (hinterval : new.periodic = true → (new.active = true → new.interval ≠ 0) ∧
      ((t, .start) ∈ w.loop.timerQueue → new.nextInterval ≠ 0))
    (hlast : ∀ u, lastRequest u log = lastRequest u w.log)
    (hasked : new.active = true → (∀ r, (t, r) ∉ w.loop.timerQueue) →
      lastRequest t w.log = some .start)
    (hfires : ∀ u before, .callback u :: before <:+ log → lastRequest u before = some .start) :
    Good { w.setTimer t new with hand := hand, log := log } := by
  refine ⟨h.crashed, h.flagged, hstands, fun u => ?_, ?_, fun u timer hu ha => ?_,
    fun u timer hu => ?_, fun u timer hu hp => ?_, fun u r hu => ?_, h.nodup,
    fun u timer hu ha hnot => ?_, hfires⟩
  · refine (h.listed u).trans (congrArg (if · = true then 1 else 0) ?_)
    by_cases hu : u = t
    · rw [hu, hlisted]
    · rw [isListed, isListed, decide_eq_decide.mpr (hhand u hu)]
      change _ = ((update w.timers t _ u).any _ && _)
      rw [update_of_ne hu]
  · have hrem : ∀ {u}, u ∈ w.timerList → (w.setTimer t new).remaining u = w.remaining u := by
      intro u hmem
      by_cases hu : u = t
      · exact hu ▸ hremaining (hu ▸ hmem)
      · exact remaining_congr rfl (update_of_ne hu ..)
    refine h.sorted.imp_of_mem fun {a b} ha hb hle => ?_
    change ((w.setTimer t new).remaining a).toNat ≤ ((w.setTimer t new).remaining b).toNat
    rw [hrem ha, hrem hb]
    exact hle
  · obtain ⟨rfl, hv⟩ | ⟨-, hu⟩ := Ledger.update_cases hu
    · obtain rfl := some.inj hv
      exact hperiods ha
    · exact h.periods u timer hu ha
  · obtain ⟨rfl, hv⟩ | ⟨-, hu⟩ := Ledger.update_cases hu
    · obtain rfl := some.inj hv
      exact hclock
    · exact h.clock u timer hu
  · obtain ⟨rfl, hv⟩ | ⟨-, hu⟩ := Ledger.update_cases hu
    · obtain rfl := some.inj hv
      exact hinterval hp
    · exact h.interval u timer hu hp
  · obtain ⟨hsome, hr⟩ := h.queued u r hu
    refine ⟨?_, (hlast u).trans hr⟩
    change update w.timers t _ u ≠ none
    by_cases hut : u = t
    · rw [hut, update_self]
      exact some_ne_none _
    · rw [update_of_ne hut]
      exact hsome
  · refine (hlast u).trans ?_
    obtain ⟨rfl, hv⟩ | ⟨-, hu⟩ := Ledger.update_cases hu
    · obtain rfl := some.inj hv
      exact hasked ha hnot
    · exact h.asked u timer hu ha hnot

theorem Good.timerAlloc {periodic : Bool} (h : w.Good) (hguard : w.hand.unlinked? = none)
    (hs : w.timerAlloc t periodic = some w') : w'.Good := by
  obtain ⟨hnew, hs⟩ := ite_none_right_eq_some.mp hs
  obtain rfl := some.inj hs
  rw [Bool.and_eq_true, isNone_iff_eq_none] at hnew
  have hfree := hnew.2
  have hunlisted : w.isListed t = false := by
    rw [isListed, hfree]
    rfl
  refine @Good.set _ _ _ w.hand w.log h ?_ (fun _ _ => Iff.rfl) ?_ (fun hmem => ?_)
    (fun ha => absurd ha Bool.false_ne_true) ?_ (fun _ => ⟨fun ha => absurd ha Bool.false_ne_true,
      fun hmem => absurd hfree (h.queued t _ hmem).1⟩) (fun _ => rfl)
    (fun ha => absurd ha Bool.false_ne_true) h.fires
  · rcases h.hand_of_not_unlinked hguard with hnone | ⟨u, hcall, hpc, timer, hu, hfired⟩
    · exact stands_none hnone
    · refine stands_callback hcall hpc ((update_of_ne ?_ ..).trans hu) hfired
      rintro rfl
      cases hfree.symm.trans hu
  · rw [hunlisted, isListed]
    change ((update w.timers t _ t).any _ && _) = _
    rw [update_self]
    rfl
  · cases hunlisted.symm.trans (h.mem_timerList.mp hmem)
  · dsimp only
    rw [Nat.zero_mul]
    exact Nat.le_refl _

theorem Good.timeout {tick : Bool} (h : w.Good) (hguard : w.hand.unlinked? = none)
    (hs : w.timeout tick = some w') : w'.Good := by
  have hbase : ∀ {b s}, EventLoop.step w.loop (.timeout b) = some s → w.hand = .none ∧
      w.loop.timerQueue = [] ∧
      s = { w.loop with pc := if b then .callback .timerOrTick else .waiting } := by
    intro b s hstep
    unfold EventLoop.step at hstep
    split at hstep
    · cases hstep
    rw [EventLoop.transition] at hstep
    split at hstep
    · next hpc =>
      obtain ⟨hq, hs⟩ := timeout_cases h.flagged hpc hstep
      refine ⟨?_, hq, hs⟩
      rcases h.hand_of_not_unlinked hguard with hnone | ⟨u, -, hpc', -⟩
      · exact hnone
      · exact absurd (hpc.symm.trans hpc') Pc.noConfusion
    · cases hstep
  -- no timer is called back
  have htick : ∀ {b s}, EventLoop.step w.loop (.timeout b) = some s →
      Good { w with loop := s } := by
    intro b s hstep
    obtain ⟨hnone, hq, rfl⟩ := hbase hstep
    have hquiet : Quiet w.loop
        { w.loop with pc := if b then .callback .timerOrTick else .waiting } :=
      ⟨rfl, fun _ hne => absurd hq hne⟩
    exact h.of_quiet hquiet rfl (stands_none hnone)
  unfold TimedLoop.timeout at hs
  split at hs
  · obtain ⟨s, hstep, rfl⟩ := map_eq_some_iff.mp hs
    exact htick hstep
  next t timers hlist =>
  have hmem : t ∈ w.timerList := by rw [hlist]; exact mem_cons_self
  obtain ⟨⟨timer, ht, ha⟩, -⟩ := isListed_eq_true.mp (h.mem_timerList.mp hmem)
  rw [deref, ht] at hs
  dsimp only at hs
  split at hs
  · next hexpired =>
    obtain ⟨s, hstep, rfl⟩ := map_eq_some_iff.mp hs
    obtain ⟨hnone, hq, rfl⟩ := hbase hstep
    have hnodup := h.nodup_timerList
    have hsorted := h.sorted
    rw [hlist] at hnodup hsorted
    refine ⟨h.crashed, fun hne => absurd hq hne, ⟨rfl, hq, timer, ht, ha, hexpired⟩, fun u => ?_,
      (pairwise_cons.mp hsorted).2, h.periods, h.clock, h.interval, h.queued, h.nodup, h.asked,
      h.fires⟩
    change timers.count u = _
    by_cases hu : u = t
    · subst hu
      rw [count_eq_zero_of_not_mem (nodup_cons.mp hnodup).1, if_neg]
      rw [isListed_eq_true]
      exact fun hl => hl.2 rfl
    · have hl : ({ w with
          loop := { w.loop with pc := .callback .timerOrTick }
          timerList := timers
          hand := .expired t } : TimedLoop).isListed u = w.isListed u := by
        rw [isListed, isListed, hnone]
        simp [Hand.unlinked?, Ne.symm hu]
      have hcount := h.listed u
      rw [hlist, count_cons_of_ne (Ne.symm hu)] at hcount
      exact hcount.trans (by rw [← hl]; rfl)
  · obtain ⟨s, hstep, rfl⟩ := map_eq_some_iff.mp hs
    exact htick hstep

theorem Good.scheduleTimer (h : w.Good) (hun : w.hand.unlinked? = some t)
    (ht : w.timers t = some timer) (ha : timer.active = true) :
    Good { w.scheduleTimer t with hand := .none } := by
  have hcount : ∀ u, (w.scheduleTimer t).timerList.count u = (t :: w.timerList).count u :=
    fun u => List.Perm.count_eq backInsert_perm u
  refine ⟨h.crashed, h.flagged, stands_none rfl, fun u => ?_, ?_, h.periods, h.clock, h.interval,
    h.queued, h.nodup, h.asked, h.fires⟩
  · refine (hcount u).trans ?_
    by_cases hu : u = t
    · subst hu
      rw [count_cons_self, h.listed u, if_neg, if_pos]
      · exact isListed_eq_true.mpr ⟨⟨timer, ht, ha⟩, by simp [Hand.unlinked?]⟩
      · rw [isListed_eq_true]
        exact fun hl => hl.2 hun
    · have hl : ({ w.scheduleTimer t with hand := .none } : TimedLoop).isListed u = w.isListed u := by
        rw [isListed, isListed, hun]
        change ((w.timers u).any _ && _) = _
        simp [Hand.unlinked?, Ne.symm hu]
      rw [count_cons_of_ne (Ne.symm hu), h.listed u, hl]
  · refine backInsert_pairwise (fun u => (w.remaining u).toNat) (fun u _ => ?_) h.sorted
    rw [decide_eq_true_eq, lt_iff_toNat_lt]

/-- The timer at hand, which no request is queued for, is given new values. -/
theorem Good.retimed {new : Timer} {hand : Hand} (h : w.Good) (hun : w.hand.unlinked? = some t)
    (ht : w.timers t = some timer) (hq : w.loop.timerQueue = [])
    (hinterval : new.interval = timer.interval) (hperiodic : new.periodic = timer.periodic)
    (hstart : new.startedAt = timer.startedAt) (hfired : new.fired = timer.fired)
    (hhand : hand.unlinked? = some t ∨ hand.unlinked? = none ∧ new.active = false)
    (ha : new.active = true → timer.active = true ∧ Periods w.now new new.fired)
    (hstands : Stands { w.setTimer t new with hand := hand }) :
    Good { w.setTimer t new with hand := hand } := by
  have hunlisted : w.isListed t = false := by
    rw [isListed, hun]
    simp
  refine @Good.set _ _ _ hand w.log h hstands (fun u hu => ?_) ?_ (fun hmem => ?_)
    (fun hact => (ha hact).2) ?_ (fun hp => ⟨fun hact => ?_, fun hmem => ?_⟩) (fun _ => rfl)
    (fun hact hnot => h.asked t timer ht (ha hact).1 hnot) h.fires
  · rw [hun]
    rcases hhand with hhand | ⟨hhand, -⟩ <;> simp [hhand, Ne.symm hu]
  · rw [hunlisted, isListed]
    change ((update w.timers t (some new) t).any _ && decide (hand.unlinked? ≠ some t)) = false
    rw [update_self, any_some]
    rcases hhand with hhand | ⟨-, hno⟩
    · simp [hhand]
    · rw [hno, Bool.false_and]
  · cases hunlisted.symm.trans (h.mem_timerList.mp hmem)
  · rw [hstart, hfired, hinterval]
    exact h.clock t timer ht
  · rw [hinterval]
    exact (h.interval t timer ht (hperiodic ▸ hp)).1 (ha hact).1
  · rw [hq] at hmem
    exact absurd hmem not_mem_nil

theorem Good.callBack (h : w.Good) (hnone : w.hand = .none)
    (hpc : w.loop.pc = .callback .timerOrTick) (ht : w.timers t = some timer)
    (hlast : lastRequest t w.log = some .start)
    (hclock : timer.startedAt + (timer.fired + 1) * timer.interval.toNat ≤ w.now)
    (hperiods : timer.active = true → Periods w.now timer (timer.fired + 1)) :
    (w.callBack t timer).Good := by
  have hself : (w.callBack t timer).timers t = some { timer with fired := timer.fired + 1 } :=
    update_self ..
  refine @Good.set _ _ _ (.callback t) (.callback t :: w.log) h
    (stands_callback rfl hpc hself (Nat.succ_pos _)) (fun u _ => ?_) ?_ (fun _ => ?_) hperiods
    hclock (h.interval t timer ht) (fun _ => lastRequest_callback _)
    (fun ha hnot => h.asked t timer ht ha hnot) (fun u before hsuf => ?_)
  · rw [hnone]
    rfl
  · rw [isListed, isListed, hnone, ht]
    change ((update w.timers t _ t).any _ && _) = _
    rw [update_self]
    rfl
  · rw [remaining_of_some ht]
    exact (remaining_of_some hself).trans rfl
  · rcases suffix_cons_iff.mp hsuf with heq | hsuf
    · obtain ⟨hevent, rfl⟩ := List.cons.inj heq
      obtain rfl := TimerEvent.callback.inj hevent
      exact hlast
    · exact h.fires u before hsuf

theorem Good.timerStep (h : w.Good) (hs : w.timerStep = some w') : w'.Good := by
  have hstands := h.stands
  unfold Stands at hstands
  unfold TimedLoop.timerStep at hs
  split at hs
  · cases hs
  · cases hs
  · next t hhand =>
    rw [hhand] at hstands
    obtain ⟨timer, ht, ha⟩ := (Option.any_eq_true ..).mp hstands.2
    exact Option.some.inj hs ▸ h.scheduleTimer (by rw [hhand]; rfl) ht ha
  · next t hhand =>
    rw [hhand] at hstands
    obtain ⟨hpc, hq, timer, ht, ha, hexpired⟩ := hstands
    have hun : w.hand.unlinked? = some t := by rw [hhand]; rfl
    have hlast : lastRequest t w.log = some .start := by
      refine h.asked t timer ht ha fun r hmem => ?_
      rw [hq] at hmem
      exact absurd hmem not_mem_nil
    obtain ⟨k, hk, heq⟩ := h.periods t timer ht ha
    have hle := (Timer.isExpired_iff _).mp hexpired
    rw [deref, ht] at hs
    dsimp only at hs
    split at hs
    · next hp =>
      have hne : timer.interval ≠ 0 := (h.interval t timer ht hp).1 ha
      rw [if_neg hne] at hs
      obtain rfl := some.inj hs
      have hpos : 0 < timer.interval.toNat := by
        refine Nat.pos_of_ne_zero fun hzero => hne ?_
        exact UInt32.toNat_inj.mp hzero
      -- the intervals that have elapsed are counted as periods
      have hperiods : Periods w.now { timer with startTime := timer.startTime + timer.interval *
          (timer.getElapsedTime w.tickCount / timer.interval) } (timer.fired + 1) := by
        have hone : 1 ≤ (timer.getElapsedTime w.tickCount).toNat / timer.interval.toNat :=
          (Nat.one_le_div_iff hpos).mpr hle
        refine ⟨k + (timer.getElapsedTime w.tickCount).toNat / timer.interval.toNat, by omega, ?_⟩
        have hrest := @Timer.getElapsedTime_period timer w.tickCount
        change timer.startedAt + _ * timer.interval.toNat +
          (Timer.getElapsedTime _ w.tickCount).toNat = w.now
        rw [hrest, UInt32.toNat_mod, Nat.add_mul]
        have hdiv := Nat.div_add_mod (timer.getElapsedTime w.tickCount).toNat timer.interval.toNat
        rw [Nat.mul_comm] at hdiv
        change timer.startedAt + k * timer.interval.toNat +
          (timer.getElapsedTime w.tickCount).toNat = w.now at heq
        omega
      refine h.retimed hun ht hq rfl rfl rfl rfl (.inl rfl) (fun _ => ⟨ha, ?_⟩) ?_
      · obtain ⟨m, hm, hmeq⟩ := hperiods
        exact ⟨m, Nat.le_of_succ_le hm, hmeq⟩
      · exact ⟨hpc, hq, _, update_self .., ha, hperiods⟩
    · obtain rfl := some.inj hs
      have hgood : Good { w.setTimer t { timer with active := false } with hand := .none } :=
        h.retimed hun ht hq rfl rfl rfl rfl (.inr ⟨rfl, rfl⟩)
          (fun hact => absurd hact Bool.false_ne_true) (stands_none rfl)
      have hself : (w.setTimer t { timer with active := false }).timers t =
          some { timer with active := false } := update_self ..
      have hcall := hgood.callBack rfl hpc hself hlast ?_ fun hact => absurd hact Bool.false_ne_true
      · unfold TimedLoop.callBack setTimer at hcall ⊢
        dsimp only at hcall ⊢
        rw [update_idem] at hcall
        exact hcall
      · change timer.startedAt + (timer.fired + 1) * timer.interval.toNat ≤ w.now
        have hmul : timer.fired * timer.interval.toNat ≤ k * timer.interval.toNat :=
          Nat.mul_le_mul_right _ hk
        change timer.startedAt + k * timer.interval.toNat +
          (timer.getElapsedTime w.tickCount).toNat = w.now at heq
        rw [Nat.add_mul, Nat.one_mul]
        omega
  · next t hhand =>
    rw [hhand] at hstands
    obtain ⟨hpc, hq, timer, ht, ha, hperiods⟩ := hstands
    have hlast : lastRequest t w.log = some .start := by
      refine h.asked t timer ht ha fun r hmem => ?_
      rw [hq] at hmem
      exact absurd hmem not_mem_nil
    rw [deref, ht] at hs
    obtain rfl := some.inj hs
    have hgood := h.scheduleTimer (by rw [hhand]; rfl) ht ha
    refine hgood.callBack rfl hpc ht hlast ?_ fun _ => hperiods
    obtain ⟨k, hk, heq⟩ := hperiods
    have hmul : (timer.fired + 1) * timer.interval.toNat ≤ k * timer.interval.toNat :=
      Nat.mul_le_mul_right _ hk
    change timer.startedAt + (timer.fired + 1) * timer.interval.toNat ≤ w.now
    omega

theorem Stands.of_loop (h : w.Stands) (hpc : s.pc = w.loop.pc)
    (hq : s.timerQueue = w.loop.timerQueue) : Stands { w with loop := s } := by
  unfold Stands at h ⊢
  dsimp only
  rw [hpc, hq]
  exact h

theorem Good.hand_none (h : w.Good) (hguard : w.hand.unlinked? = none)
    (hpc : w.loop.pc ≠ .callback .timerOrTick) : w.hand = .none := by
  rcases h.hand_of_not_unlinked hguard with hnone | ⟨u, -, hcall, -⟩
  · exact hnone
  · exact absurd hcall hpc

theorem not_callback_of_loopStep (hs : EventLoop.loopStep w.loop = some s) :
    w.loop.pc ≠ .callback .timerOrTick := by
  intro hpc
  unfold EventLoop.loopStep at hs
  rw [hpc] at hs
  cases hs

theorem transition_of_step {l : EventLoop.Label} (hs : EventLoop.step w.loop l = some s) :
    EventLoop.transition w.loop l = some s := by
  unfold EventLoop.step at hs
  split at hs
  · cases hs
  · exact hs

theorem Good.loopStep {l : EventLoop.Label} (h : w.Good)
    (hguard : (Label.loop l).waits = true → w.hand.unlinked? = none)
    (hok : WellUsed w (.loop l)) (hs : w.loopStep l = some w') : w'.Good := by
  cases l with
  | timeout callback => exact absurd hs (by simp [TimedLoop.loopStep])
  | call c =>
    by_cases hc : ∀ timer request, c ≠ .timerEnqueueRequest timer request
    · have hs : (EventLoop.step w.loop (.call c)).map (fun s => { w with loop := s }) = some w' := by
        cases c with
        | timerEnqueueRequest timer request => exact absurd rfl (hc timer request)
        | _ => exact hs
      obtain ⟨s, hstep, rfl⟩ := map_eq_some_iff.mp hs
      have hstep := transition_of_step hstep
      change (if w.loop.pc.user = true then _ else none) = some s at hstep
      obtain ⟨-, hcall⟩ := ite_none_right_eq_some.mp hstep
      have hquiet := call_quiet hc hcall
      exact h.of_quiet hquiet rfl (h.stands.of_loop (posts_call hcall).pc hquiet.timerQueue)
    · push Not at hc
      obtain ⟨timer, request, rfl⟩ := hc
      exact absurd hs (by simp [TimedLoop.loopStep])
  | outside o =>
    obtain ⟨s, hstep, rfl⟩ := map_eq_some_iff.mp hs
    have hstep := transition_of_step hstep
    have hquiet := outside_quiet hstep
    exact h.of_quiet hquiet rfl (h.stands.of_loop (posts_outside hstep).pc hquiet.timerQueue)
  | run =>
    obtain ⟨s, hstep, rfl⟩ := map_eq_some_iff.mp hs
    have hstep := transition_of_step hstep
    rw [EventLoop.transition] at hstep
    split at hstep
    · next hpc =>
      obtain rfl := some.inj hstep
      have hquiet : Quiet w.loop { w.loop with pc := .waiting } := by
        refine ⟨rfl, fun _ hne => ?_⟩
        exact .inr (.inl (hok.resolve_left hne))
      exact h.of_quiet hquiet rfl (stands_none (h.hand_none (hguard rfl) (by simp [hpc])))
    · cases hstep
  | wake =>
    obtain ⟨s, hstep, rfl⟩ := map_eq_some_iff.mp hs
    have hstep := transition_of_step hstep
    rw [EventLoop.transition] at hstep
    split at hstep
    · next hpc =>
      exact h.of_quiet (wake_quiet hpc hstep) rfl
        (stands_none (h.hand_none (hguard rfl) (by simp [hpc])))
    · cases hstep
  | level level =>
    obtain ⟨s, hstep, rfl⟩ := map_eq_some_iff.mp hs
    have hstep := transition_of_step hstep
    change levelStep w.loop level = some s at hstep
    refine h.of_quiet (levelStep_quiet hstep) rfl (stands_none (h.hand_none (hguard rfl) ?_))
    intro hpc
    unfold levelStep at hstep
    rw [hpc] at hstep
    cases hstep
  | ret =>
    obtain ⟨s, hstep, rfl⟩ := map_eq_some_iff.mp hs
    have hstep := transition_of_step hstep
    rw [EventLoop.transition] at hstep
    split at hstep
    · next frame hpc =>
      obtain rfl := some.inj hstep
      exact h.of_quiet (callbackReturn_quiet hpc) (hguard rfl).symm (stands_none rfl)
    · cases hstep
  | loop =>
    unfold TimedLoop.loopStep at hs
    dsimp only at hs
    by_cases hdrains : w.loop.pc.drainsTimers = true
    · have hpc : w.loop.pc ≠ .callback .timerOrTick := by
        intro hpc
        rw [hpc] at hdrains
        exact Bool.false_ne_true hdrains
      have hnone := h.hand_none (hguard rfl) hpc
      rw [if_pos hdrains] at hs
      obtain ⟨rest, hpc⟩ : ∃ rest, w.loop.pc = .processTimerQueue rest := by
        cases hpc : w.loop.pc with
        | processTimerQueue rest => exact ⟨rest, rfl⟩
        | _ =>
          rw [hpc] at hdrains
          exact absurd hdrains Bool.false_ne_true
      cases hq : w.loop.timerQueue with
      | nil =>
        simp only [hq] at hs
        obtain ⟨s, hstep, rfl⟩ := map_eq_some_iff.mp hs
        have hstep := transition_of_step hstep
        change EventLoop.loopStep w.loop = some s at hstep
        rw [EventLoop.loopStep, hpc] at hstep
        obtain rfl := some.inj hstep
        have hsq : (processTimerQueue w.loop rest).timerQueue = w.loop.timerQueue := by
          rw [processTimerQueue, hq]
        refine h.of_quiet ⟨hsq, fun _ hne => ?_⟩ rfl (stands_none hnone)
        rw [hsq, hq] at hne
        exact absurd rfl hne
      | cons p q =>
        obtain ⟨t, request⟩ := p
        simp only [hq] at hs
        obtain ⟨s, hstep, hreq⟩ := bind_eq_some_iff.mp hs
        have hstep := transition_of_step hstep
        change EventLoop.loopStep w.loop = some s at hstep
        rw [EventLoop.loopStep, hpc] at hstep
        obtain rfl := some.inj hstep
        have hpop : processTimerQueue w.loop rest = { w.loop with timerQueue := q } := by
          rw [processTimerQueue, hq]
        rw [hpop] at hreq
        exact h.processRequest hnone hq (s := { w.loop with timerQueue := q }) rfl hdrains hreq
    · rw [if_neg hdrains] at hs
      obtain ⟨s, hstep, rfl⟩ := map_eq_some_iff.mp hs
      have hstep := transition_of_step hstep
      change EventLoop.loopStep w.loop = some s at hstep
      exact h.of_quiet (loopStep_quiet (Bool.eq_false_iff.mpr hdrains) hstep) rfl
        (stands_none (h.hand_none (hguard rfl) (not_callback_of_loopStep hstep)))

theorem Good.step {l : Label} (h : w.Good) (hok : InTime w l ∧ WellUsed w l)
    (hs : machine.step w l = some w') : w'.Good := by
  change TimedLoop.step w l = some w' at hs
  unfold TimedLoop.step at hs
  split at hs
  · cases hs
  obtain ⟨hwaits, hs⟩ := ite_none_left_eq_some.mp hs
  have hguard : l.waits = true → w.hand.unlinked? = none := by
    intro hw
    rw [hw, Bool.true_and] at hwaits
    exact not_isSome_iff_eq_none.mp hwaits
  cases l with
  | loop l => exact h.loopStep hguard hok.2 hs
  | timerAlloc t periodic => exact h.timerAlloc (hguard rfl) hs
  | timerStart t interval =>
    exact h.enqueueRequest (hguard rfl) (fun _ => rfl) (fun timer ht hp _ => hok.2 timer ht hp) hs
  | timerRestart t =>
    exact h.enqueueRequest (hguard rfl) (fun _ => rfl) (fun timer ht hp _ => hok.2 timer ht hp) hs
  | timerStop t =>
    exact h.enqueueRequest (hguard rfl) (fun _ => rfl)
      (fun _ _ _ hr => absurd hr TimerRequest.noConfusion) hs
  | timerFree t =>
    exact h.enqueueRequest (hguard rfl) (fun _ => rfl)
      (fun _ _ _ hr => absurd hr TimerRequest.noConfusion) hs
  | timeout tick => exact h.timeout (hguard rfl) hs
  | timer => exact h.timerStep hs
  | tick n => exact some.inj hs ▸ h.tick hok.1

/-- No interval of zero is divided by and no freed timer is used; an active timer is in the list
once, and no other one is, but for the one on its way to its next place; the list is sorted by the
remaining time; a timer calls back at most once for each interval since it was started, and only if
the last request was to start it. -/
structure Reliable (w : TimedLoop) : Prop where
  crashed : w.crashed = false
  listed : ∀ t, w.hand.unlinked? ≠ some t →
    w.timerList.count t = if (w.timers t).any (fun timer => timer.active) then 1 else 0
  sorted : w.timerList.Pairwise fun t u => (w.remaining t).toNat ≤ (w.remaining u).toNat
  front : ∀ t timers, w.timerList = t :: timers →
    ∀ u ∈ w.timerList, (w.remaining t).toNat ≤ (w.remaining u).toNat
  elapsed : ∀ t, w.hand = .callback t → ∃ timer, w.timers t = some timer ∧ 0 < timer.fired ∧
    timer.startedAt + timer.fired * timer.interval.toNat ≤ w.now
  started : ∀ t before, .callback t :: before <:+ w.log → lastRequest t before = some .start

theorem Good.reliable (h : w.Good) : w.Reliable where
  crashed := h.crashed
  listed := by
    intro t ht
    rw [h.listed t, isListed, decide_eq_true ht, Bool.and_true]
  sorted := h.sorted
  front := by
    intro t timers hlist u hu
    have hsorted := h.sorted
    rw [hlist] at hsorted hu
    rcases mem_cons.mp hu with rfl | hu
    · exact Nat.le_refl _
    · exact (pairwise_cons.mp hsorted).1 u hu
  elapsed := by
    intro t hhand
    have hstands := h.stands
    rw [Stands, hhand] at hstands
    obtain ⟨-, timer, ht, hfired⟩ := hstands
    exact ⟨timer, ht, hfired, h.clock t timer ht⟩
  started := h.fires

/-- The timers are reliable all along every run in which they are well used. -/
theorem reliable_of_run {ls : List Label} (htime : machine.Meets InTime alloc ls)
    (hused : machine.Meets WellUsed alloc ls) (h : machine.run alloc ls = some w) :
    w.Reliable := by
  have hgood : w.Good := machine.run_invariant_of_meets (I := Good)
    (fun _ _ _ hI hok hs => hI.step hok hs) good_alloc (machine.meets_and.mpr ⟨htime, hused⟩) h
  exact hgood.reliable

/-- A periodic timer and a single one. The first has been due for more than two of its intervals
when it is processed; its callback stops it and starts the other one anew. -/
def twoTimers : List Label :=
  [.timerAlloc 0 true, .timerStart 0 5, .timerAlloc 1 false, .timerStart 1 100, .loop .run,
    .loop .wake, .loop .loop, .timer, .loop .loop, .timer, .loop .loop, .loop .loop, .tick 12,
    .timeout false, .timer, .timer, .timerStop 0, .timerRestart 1, .loop .ret, .loop .wake,
    .loop .loop, .loop .loop, .timer, .loop .loop, .loop .loop, .tick 100, .timeout false, .timer]

theorem reliable_twoTimers : ∃ w, machine.run alloc twoTimers = some w ∧ w.hand = .callback 1 ∧
    w.now = 112 ∧ w.Reliable :=
  ⟨_, rfl, rfl, rfl, @reliable_of_run _ twoTimers (by decide) (by decide) rfl⟩

/-- A periodic timer is started with an interval of zero. -/
def noInterval : List Label :=
  [.timerAlloc 0 true, .timerStart 0 0, .loop .run, .loop .wake, .loop .loop, .timer, .loop .loop,
    .loop .loop, .timeout false, .timer]

/-- A callback stops the timer and the loop, and the loop is run again. -/
def stoppedTogether : List Label :=
  [.timerAlloc 0 true, .timerStart 0 5, .loop .run, .loop .wake, .loop .loop, .timer, .loop .loop,
    .loop .loop, .tick 5, .timeout false, .timer, .timer, .timerStop 0, .loop (.outside .stop),
    .loop .ret, .loop .wake, .loop .run, .tick 5, .timeout false, .timer, .timer]

theorem timers_not_always_reliable :
    (¬ ∀ ls w, machine.Meets InTime alloc ls → machine.run alloc ls = some w → w.crashed = false) ∧
      ¬ ∀ ls w, machine.Meets InTime alloc ls → machine.run alloc ls = some w →
        ∀ t before, .callback t :: before <:+ w.log → lastRequest t before = some .start := by
  constructor
  · intro hall
    exact Bool.false_ne_true (hall noInterval _ (by decide) rfl).symm
  · intro hall
    have hlast := hall stoppedTogether _ (by decide) rfl 0 _ (suffix_refl _)
    cases hlast

end TimedLoop

end NikitaFirmware.EventLoop
