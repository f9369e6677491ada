import NikitaFirmware.Foundations.Checked

/-!
# The agent's watch for the GPIO board

`agent_gpio_watch` collects what the UART delivers in a window of 512 bytes and a NUL, and
searches the window for the mark of the board after each chunk. The search is one over C
strings: it ends at the first NUL of the window, which a UART may deliver as well. So a mark
is seen where it stands in the window with no NUL in front of it.
-/

namespace NikitaFirmware.Agent
open Foundations List

def gpioMark : Bytes := ascii "[NIKITA-AIO:UP"

def winSize : Nat := 513

def bufSize : Nat := 128

/-- The local variables of the scan loop; `win` has cells that nothing was written to yet. -/
structure Watch where
  win : Bytes
  wlen : Nat
  seen : Bool

namespace Watch

def start (win : Bytes) : Watch := ⟨win, 0, false⟩

/-- The oldest bytes make room for `n` new ones. -/
def slide (s : Watch) (n : Nat) : Option Watch :=
  if s.wlen + n > winSize - 1 then
    let drop := s.wlen + n - (winSize - 1)
    if drop ≤ s.wlen then
      (Cells.move s.win 0 drop (s.wlen - drop)).map fun win =>
        { s with win := win, wlen := s.wlen - drop }
    else none
  else some s

/-- The received bytes go behind the ones in the window, and a NUL behind them. -/
def append (s : Watch) (buf : Bytes) : Option Watch := do
  let win ← Cells.write s.win s.wlen buf
  let win ← Cells.write win (s.wlen + buf.length) [0]
  some { s with win := win, wlen := s.wlen + buf.length }

/-- `strstr(win, GPIO_MARK)`, which reads the cells up to the first NUL. -/
def search (s : Watch) : Option Watch :=
  if 0 ∈ s.win then
    some { s with seen := s.seen || (strstr gpioMark (cstr s.win)).isSome }
  else none

/-- The body of the loop, for the bytes in `buf`; `none` where an index is not one of `win`. -/
def receive (s : Watch) (buf : Bytes) : Option Watch :=
  if buf = [] then some s
  else do
    let s ← s.slide buf.length
    let s ← s.append buf
    s.search

/-- The scan loop over the results of `furi_stream_buffer_receive`, empty where it timed out. -/
def scan : Watch → List Bytes → Option Watch
  | s, [] => some s
  | s, buf :: bufs => if s.seen then some s else (s.receive buf).bind fun s => scan s bufs

end Watch

/-- The mark is among the last 512 bytes received, with no NUL in front of it. -/
def Visible (received : Bytes) : Prop :=
  ∃ before after, received.rtake (winSize - 1) = before ++ gpioMark ++ after ∧ (0 : UInt8) ∉ before

theorem length_rtake {α : Type*} (l : List α) (n : Nat) : (l.rtake n).length = min l.length n := by
  rw [rtake, length_drop]
  omega

theorem rtake_append {α : Type*} (l r : List α) (n : Nat) (hr : r.length ≤ n) :
    (l ++ r).rtake n = (l.rtake n).drop (min l.length n + r.length - n) ++ r := by
  simp only [rtake, length_append]
  rw [drop_append_of_le_length (by omega), drop_drop]
  congr 2
  omega

theorem strstr_cstr_isSome_iff (window tail : Bytes) :
    (strstr gpioMark (cstr (window ++ 0 :: tail))).isSome ↔
      ∃ before after, window = before ++ gpioMark ++ after ∧ (0 : UInt8) ∉ before := by
  have hcut : cstr (window ++ 0 :: tail) = cstr window := by
    induction window with
    | nil => rfl
    | cons b window ih =>
      simp only [cstr, cons_append, takeWhile_cons] at ih ⊢
      rw [ih]
  rw [hcut, strstr_isSome_iff]
  constructor
  · rintro ⟨before, after, h⟩
    have hsplit := takeWhile_append_dropWhile (p := (· ≠ (0 : UInt8))) (l := window)
    refine ⟨before, after ++ window.dropWhile (· ≠ 0), ?_, fun h0 => ?_⟩
    · rw [← append_assoc, h]
      exact hsplit.symm
    · have hmem : (0 : UInt8) ∈ cstr window := by
        rw [← h, append_assoc]
        exact mem_append_left _ h0
      simpa using mem_takeWhile_imp hmem
  · rintro ⟨before, after, rfl, h0⟩
    refine ⟨before, cstr after, ?_⟩
    have hfront : ∀ b ∈ before ++ gpioMark, decide (b ≠ (0 : UInt8)) := by
      intro b hb
      rcases mem_append.mp hb with hb | hb
      · exact decide_eq_true fun h => h0 (h ▸ hb)
      · have hmark : gpioMark.all (fun b => decide (b ≠ 0)) = true := by decide
        exact all_eq_true.mp hmark b hb
    exact (takeWhile_append_of_pos hfront).symm

namespace Watch

/-- The window holds the last 512 bytes received, and what was visible at its end was seen. -/
structure Tracks (s : Watch) (received : Bytes) : Prop where
  length : s.win.length = winSize
  wlen : s.wlen = min received.length (winSize - 1)
  content : s.win.take s.wlen = received.rtake (winSize - 1)
  seen : Visible received → s.seen

theorem tracks_start {win : Bytes} (h : win.length = winSize) : (start win).Tracks [] := by
  refine ⟨h, rfl, rfl, ?_⟩
  rintro ⟨before, after, hnil, -⟩
  exact absurd hnil (by simp [rtake, gpioMark, ascii])

/-- After `slide` there is room, and the window has lost its oldest bytes only. -/
theorem exists_slide {s : Watch} {received : Bytes} (h : s.Tracks received) {n : Nat}
    (hn : n ≤ bufSize) : ∃ s', s.slide n = some s' ∧ s'.win.length = winSize ∧ s'.seen = s.seen ∧
      s'.wlen = s.wlen - (s.wlen + n - (winSize - 1)) ∧
      s'.win.take s'.wlen = (s.win.take s.wlen).drop (s.wlen + n - (winSize - 1)) := by
  have hn : n ≤ 128 := hn
  have hwlen : s.wlen = min received.length 512 := h.wlen
  have hlength : s.win.length = 513 := h.length
  have hlast : winSize - 1 = 512 := rfl
  unfold slide
  rw [hlast]
  split
  · next hfull =>
    dsimp only
    rw [if_pos (by omega)]
    obtain ⟨win, hmove, hwin, htake⟩ := @Cells.exists_move_zero _ s.win
      (s.wlen + n - 512) (s.wlen - (s.wlen + n - 512)) (by omega)
    refine ⟨_, congrArg (Option.map _) hmove, hwin.trans hlength, rfl, rfl, ?_⟩
    rw [htake, drop_take]
  · next hroom =>
    have hdrop : s.wlen + n - 512 = 0 := by omega
    exact ⟨s, rfl, hlength, rfl, by omega, by rw [hdrop, drop_zero]⟩

/-- The body of the loop uses indices of `win` only, and sees what the window then shows. -/
theorem exists_receive {s : Watch} {received buf : Bytes} (h : s.Tracks received)
    (hbuf : buf.length ≤ bufSize) : ∃ s', s.receive buf = some s' ∧ s'.Tracks (received ++ buf) ∧
      (s'.seen ↔ s.seen ∨ Visible (received ++ buf)) := by
  unfold receive
  split
  · next hnil =>
    subst hnil
    rw [append_nil]
    exact ⟨s, rfl, h, by simpa using h.seen⟩
  · obtain ⟨s₁, hslide, hlen₁, hseen₁, hwlen₁, hcontent₁⟩ := exists_slide h hbuf
    have hn : buf.length ≤ 128 := hbuf
    have hwlen : s.wlen = min received.length 512 := h.wlen
    have hlast : winSize - 1 = 512 := rfl
    have hsize : winSize = 513 := rfl
    rw [hlast] at hwlen₁ hcontent₁
    obtain ⟨win₂, hwrite₂, hlen₂, htake₂⟩ := @Cells.exists_write _ s₁.win buf s₁.wlen (by omega)
    obtain ⟨win₃, hwrite₃, hlen₃, htake₃⟩ := @Cells.exists_write _ win₂
      [0] (s₁.wlen + buf.length) (by simp only [length_singleton]; omega)
    -- the window, the NUL behind it, and whatever was behind that
    have hwindow : win₂.take (s₁.wlen + buf.length) = (received ++ buf).rtake 512 := by
      rw [htake₂, hcontent₁, h.content, hlast, rtake_append received buf 512 (by omega), hwlen]
    have hsplit : win₃ = (received ++ buf).rtake 512 ++
        0 :: win₃.drop (s₁.wlen + buf.length + 1) := by
      have hcells := take_append_drop (s₁.wlen + buf.length + 1) win₃
      rw [length_singleton] at htake₃
      rw [htake₃, hwindow, append_assoc] at hcells
      exact hcells.symm
    have hfound : (strstr gpioMark (cstr win₃)).isSome ↔ Visible (received ++ buf) := by
      rw [hsplit]
      exact strstr_cstr_isSome_iff _ _
    have hzero : (0 : UInt8) ∈ win₃ := by
      rw [hsplit]
      exact mem_append_right _ mem_cons_self
    refine ⟨⟨win₃, s₁.wlen + buf.length, s.seen || (strstr gpioMark (cstr win₃)).isSome⟩,
      ?_, ⟨hlen₃.trans (hlen₂.trans hlen₁), ?_, ?_, ?_⟩, ?_⟩
    · simp only [hslide, append, hwrite₂, hwrite₃, search, if_pos hzero, hseen₁,
        Option.bind_eq_bind, Option.bind_some]
    · rw [length_append, hlast]
      simp only
      omega
    · have hprefix := congrArg (take (s₁.wlen + buf.length)) hsplit
      rw [hlast]
      refine hprefix.trans (take_left' ?_)
      rw [length_rtake, length_append]
      omega
    · intro hvisible
      exact Bool.or_eq_true_iff.mpr (.inr (hfound.mpr hvisible))
    · rw [Bool.or_eq_true, hfound]

/-- The loop uses indices of `win` only, and has seen the mark where it was visible at the end
of some chunk. -/
theorem exists_scan {s : Watch} {received : Bytes} (h : s.Tracks received) (bufs : List Bytes)
    (hbufs : ∀ buf ∈ bufs, buf.length ≤ bufSize) : ∃ s', scan s bufs = some s' ∧
      (s'.seen ↔ s.seen ∨ ∃ j ≤ bufs.length, Visible (received ++ (bufs.take j).flatten)) := by
  induction bufs generalizing s received with
  | nil =>
    refine ⟨s, rfl, ?_⟩
    simpa using h.seen
  | cons buf bufs ih =>
    by_cases hseen : s.seen
    · exact ⟨s, by rw [scan, if_pos hseen], iff_of_true hseen (.inl hseen)⟩
    obtain ⟨s₁, hreceive, htracks, hseen₁⟩ := exists_receive h (hbufs buf mem_cons_self)
    obtain ⟨s', hscan, hseen'⟩ := ih htracks fun b hb => hbufs b (mem_cons_of_mem buf hb)
    refine ⟨s', by rw [scan, if_neg hseen, hreceive, Option.bind_some, hscan], ?_⟩
    rw [hseen', hseen₁]
    constructor
    · rintro ((hs | hvisible) | ⟨j, hj, hvisible⟩)
      · exact .inl hs
      · exact .inr ⟨1, by simp, by simpa using hvisible⟩
      · refine .inr ⟨j + 1, by simpa using hj, ?_⟩
        rwa [take_succ_cons, flatten_cons, ← append_assoc]
    · rintro (hs | ⟨j, hj, hvisible⟩)
      · exact .inl (.inl hs)
      · cases j with
        | zero => exact .inl (.inl (h.seen (by simpa using hvisible)))
        | succ j =>
          refine .inr ⟨j, by simpa using hj, ?_⟩
          rwa [take_succ_cons, flatten_cons, ← append_assoc] at hvisible

end Watch

theorem Visible.infix {received : Bytes} (h : Visible received) : gpioMark <:+: received := by
  obtain ⟨before, after, hwindow, -⟩ := h
  have hsuffix : received.rtake (winSize - 1) <:+ received := drop_suffix _ _
  exact (hwindow ▸ infix_append before gpioMark after).trans hsuffix.isInfix

/-- Until some chunk shows the mark, the scan has not received it. -/
def ArrivesVisibly (bufs : List Bytes) : Prop :=
  ∀ k, gpioMark <:+: (bufs.take k).flatten → ∃ j ≤ k, Visible (bufs.take j).flatten

theorem exists_window_of_arrival {received buf : Bytes} (hbuf : buf.length ≤ bufSize)
    (hnot : ¬ gpioMark <:+: received) (hmark : gpioMark <:+: received ++ buf) :
    ∃ before after, (received ++ buf).rtake (winSize - 1) = before ++ gpioMark ++ after := by
  obtain ⟨a, b, h⟩ := hmark
  have hb : b.length < buf.length := by
    by_contra hle
    -- otherwise the mark ends within what had been received before
    have hlen := congrArg length h
    simp only [length_append] at hlen
    have hfront : a ++ gpioMark <+: received := by
      refine prefix_of_prefix_length_le ?_ (prefix_append received buf) ?_
      · exact h ▸ prefix_append _ b
      · rw [length_append]
        omega
    exact hnot ((suffix_append a gpioMark).isInfix.trans hfront.isInfix)
  have hsize : buf.length ≤ 128 := hbuf
  have hmark : gpioMark.length = 14 := rfl
  have hlen := congrArg length h
  simp only [length_append] at hlen
  refine ⟨a.drop (a.length + 14 + b.length - 512), b, ?_⟩
  rw [rtake, ← h, append_assoc, append_assoc]
  have hdrop : (a ++ (gpioMark ++ b)).length - (winSize - 1) = a.length + 14 + b.length - 512 := by
    rw [length_append, length_append, hmark]
    have hlast : winSize - 1 = 512 := rfl
    omega
  rw [hdrop, drop_append_of_le_length (by omega)]

theorem arrivesVisibly_of_no_nul {bufs : List Bytes} (hbufs : ∀ buf ∈ bufs, buf.length ≤ bufSize)
    (h0 : (0 : UInt8) ∉ bufs.flatten) : ArrivesVisibly bufs := by
  intro k
  induction k with
  | zero => exact fun h => absurd h (by simp [gpioMark, ascii])
  | succ k ih =>
    intro hmark
    by_cases hbefore : gpioMark <:+: (bufs.take k).flatten
    · obtain ⟨j, hj, hvisible⟩ := ih hbefore
      exact ⟨j, by omega, hvisible⟩
    · rcases Nat.lt_or_ge k bufs.length with hk | hk
      · have hstep : (bufs.take (k + 1)).flatten = (bufs.take k).flatten ++ bufs[k] := by
          rw [take_succ_eq_append_getElem hk, flatten_append, flatten_singleton]
        rw [hstep] at hmark
        obtain ⟨before, after, hwindow⟩ :=
          exists_window_of_arrival (hbufs _ (getElem_mem hk)) hbefore hmark
        refine ⟨k + 1, le_rfl, before, after, hstep ▸ hwindow, fun hmem => h0 ?_⟩
        have hsub : (0 : UInt8) ∈ (bufs.take (k + 1)).flatten := by
          rw [hstep]
          have hin : (0 : UInt8) ∈ ((bufs.take k).flatten ++ bufs[k]).rtake (winSize - 1) := by
            rw [hwindow, append_assoc]
            exact mem_append_left _ hmem
          exact (drop_suffix _ _).subset hin
        obtain ⟨c, hc, hzero⟩ := mem_flatten.mp hsub
        exact mem_flatten.mpr ⟨c, mem_of_mem_take hc, hzero⟩
      · rw [take_of_length_le (by omega)] at hmark
        rw [take_of_length_le hk] at hbefore
        exact absurd hmark hbefore

/-- The scan never uses an index outside the window, and at any time it has seen the mark exactly
when it has received it, if and only if the mark arrives visibly. -/
theorem scan_seen_iff (win : Bytes) (bufs : List Bytes) (hwin : win.length = winSize)
    (hbufs : ∀ buf ∈ bufs, buf.length ≤ bufSize) :
    (∀ k, ∃ s, Watch.scan (.start win) (bufs.take k) = some s) ∧
      ((∀ k s, Watch.scan (.start win) (bufs.take k) = some s →
          (s.seen ↔ gpioMark <:+: (bufs.take k).flatten)) ↔ ArrivesVisibly bufs) := by
  have hscan (k : Nat) : ∃ s, Watch.scan (.start win) (bufs.take k) = some s ∧
      (s.seen ↔ ∃ j ≤ k, Visible (bufs.take j).flatten) := by
    obtain ⟨s, hs, hseen⟩ := Watch.exists_scan (Watch.tracks_start hwin) (bufs.take k)
      fun buf hbuf => hbufs buf (mem_of_mem_take hbuf)
    refine ⟨s, hs, hseen.trans ?_⟩
    simp only [Watch.start, Bool.false_eq_true, false_or, nil_append, take_take, length_take]
    constructor
    · rintro ⟨j, hj, hvisible⟩
      exact ⟨min j k, by omega, hvisible⟩
    · rintro ⟨j, hj, hvisible⟩
      refine ⟨min j bufs.length, by omega, ?_⟩
      have htake : bufs.take (min (min j bufs.length) k) = bufs.take j := by
        rw [show min (min j bufs.length) k = min j bufs.length by omega, ← take_eq_take_min]
      rwa [htake]
  refine ⟨fun k => (hscan k).imp fun s h => h.1, ?_⟩
  constructor
  · intro hiff k hmark
    obtain ⟨s, hs, hseen⟩ := hscan k
    exact hseen.mp ((hiff k s hs).mpr hmark)
  · intro harrives k s hs
    obtain ⟨s', hs', hseen⟩ := hscan k
    obtain rfl := Option.some.inj (hs.symm.trans hs')
    rw [hseen]
    constructor
    · rintro ⟨j, hj, hvisible⟩
      refine hvisible.infix.trans ?_
      rw [show bufs.take j = (bufs.take k).take j by rw [take_take, min_eq_left hj]]
      conv_rhs => rw [← take_append_drop j (bufs.take k), flatten_append]
      exact (prefix_append _ _).isInfix
    · exact harrives k

/-- A heartbeat in two chunks is seen when it is complete. -/
theorem heartbeat_seen : (∀ k, ∃ s, Watch.scan (.start (replicate winSize 7))
      ([ascii "boot [NIKITA", ascii "-AIO:UP v1]"].take k) = some s) ∧
    ∀ k s, Watch.scan (.start (replicate winSize 7))
        ([ascii "boot [NIKITA", ascii "-AIO:UP v1]"].take k) = some s →
      (s.seen ↔ gpioMark <:+: ([ascii "boot [NIKITA", ascii "-AIO:UP v1]"].take k).flatten) := by
  have h := scan_seen_iff (replicate winSize 7) [ascii "boot [NIKITA", ascii "-AIO:UP v1]"]
    length_replicate (by decide)
  exact ⟨h.1, h.2.mpr (arrivesVisibly_of_no_nul (by decide) (by decide))⟩

/-- A NUL in front of the mark hides it. -/
theorem mark_behind_nul_missed : ¬ ∀ (win : Bytes) (bufs : List Bytes), win.length = winSize →
    (∀ buf ∈ bufs, buf ≠ [] ∧ buf.length ≤ bufSize) → ∀ s,
      Watch.scan (.start win) bufs = some s → (s.seen ↔ gpioMark <:+: bufs.flatten) := by
  intro hall
  have hscan : (Watch.scan (.start (replicate winSize 7)) [0 :: gpioMark]).map (·.seen) =
      some false := by decide +kernel
  obtain ⟨s, hs, hseen⟩ := Option.map_eq_some_iff.mp hscan
  have hmark := hall _ [0 :: gpioMark] length_replicate (by decide) s hs
  exact Bool.false_ne_true (hseen.symm.trans (hmark.mpr ⟨[0], [], rfl⟩))

end NikitaFirmware.Agent
