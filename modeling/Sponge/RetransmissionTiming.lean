import Sponge.SenderTimer

/-!
# When segments are retransmitted

A stretch begins when the timer (re)starts and lasts as long as no acknowledgment retires a
segment.  `retransmission_timing`: the retransmissions of a stretch happen when the milliseconds
ticked since the previous one reach a timeout that doubles each time, or stays the same while the
window is closed; each sends the oldest outstanding segment; and nothing but `tick` moves the timer.
-/

namespace Sponge

open Transition

/-- A stretch of a run: the sender with its history, the retransmissions in the stretch, the
milliseconds ticked since the last of them (or the start), and all milliseconds ticked. -/
structure Stretch where
  traced : Traced
  retransmissions : Nat
  elapsed : Nat
  total : Nat
  deriving DecidableEq

namespace Stretch

open TCPSender

def sender (x : Stretch) : TCPSender := x.traced.sender

/-- The stretch at its start. -/
def begin (t : Traced) : Stretch := ⟨t, 0, 0, 0⟩

/-- A `tick` that pushes something is a retransmission. -/
def step (x : Stretch) (e : SenderEvent) : Option Stretch :=
  (x.traced.step e).map fun t =>
    match e with
    | .tick ms =>
      if t.sender.segmentsOut = x.sender.segmentsOut then
        { x with traced := t, elapsed := x.elapsed + ms, total := x.total + ms }
      else
        { x with
          traced := t
          retransmissions := x.retransmissions + 1
          elapsed := 0
          total := x.total + ms }
    | _ => { x with traced := t }

theorem step_traced {x x' : Stretch} {e : SenderEvent} (hs : x.step e = some x') :
    x.traced.step e = some x'.traced := by
  obtain ⟨t, ht, rfl⟩ := Option.map_eq_some_iff.mp hs
  rw [ht]
  cases e with
  | tick ms =>
    dsimp only
    split <;> rfl
  | _ => rfl

theorem step_tick_total {x x' : Stretch} {ms : Nat} (hs : x.step (.tick ms) = some x') :
    x'.total = x.total + ms := by
  obtain ⟨t, -, rfl⟩ := Option.map_eq_some_iff.mp hs
  dsimp only
  split <;> rfl

/-- The timer (re)starts: `fill_window` sends a segment while nothing is outstanding, or an
acknowledgment retires a segment and some remain. -/
def Starts (t : Traced) (e : SenderEvent) (t' : Traced) : Prop :=
  t'.sender.outstandingSegments ≠ [] ∧
    match e with
    | .fillWindow => t.sender.outstandingSegments = []
    | .ackReceived _ _ =>
      t'.sender.outstandingSegments.length < t.sender.outstandingSegments.length
    | _ => False

/-- The event is not an acknowledgment that retires a segment. -/
def RetiresNone (x : Stretch) (e : SenderEvent) (x' : Stretch) : Prop :=
  match e with
  | .ackReceived _ _ => x'.sender.outstandingSegments = x.sender.outstandingSegments
  | _ => True

instance (x x' : Stretch) : (e : SenderEvent) → Decidable (RetiresNone x e x')
  | .ackReceived _ _ => inferInstanceAs (Decidable (_ = _))
  | .write _ => isTrue trivial
  | .endInput => isTrue trivial
  | .fillWindow => isTrue trivial
  | .tick _ => isTrue trivial
  | .sendEmptySegment => isTrue trivial

/-- The stretch goes on: nothing is retired, there are fewer than 40 retransmissions, less than
`2 ^ 63` milliseconds are ticked, and the window is closed throughout or open throughout. -/
def Within (closed : Bool) (x : Stretch) (e : SenderEvent) (x' : Stretch) : Prop :=
  RetiresNone x e x' ∧ x'.retransmissions < 40 ∧ x'.total < 2 ^ 63 ∧
    (x'.traced.window = 0 ↔ closed = true)

instance (closed : Bool) (x : Stretch) (e : SenderEvent) (x' : Stretch) :
    Decidable (Within closed x e x') :=
  inferInstanceAs (Decidable (_ ∧ _ ∧ _ ∧ (_ ↔ _)))

/-- The milliseconds from retransmission `j` (or the start, for `j = 0`) to the next one. -/
def delay (closed : Bool) (timeout j : Nat) : Nat := if closed then timeout else timeout * 2 ^ j

/-- What every run brings about. -/
structure TimedRun (timeout : Nat) (t : Traced) : Prop where
  windowed : t.Windowed
  timed : Timed t.sender
  initialRetransmissionTimeout : t.sender.initialRetransmissionTimeout = timeout

/-- The timer is where the history says it is. -/
structure OnSchedule (closed : Bool) (timeout : Nat) (x : Stretch) : Prop where
  timedRun : TimedRun timeout x.traced
  outstanding : x.sender.outstandingSegments ≠ []
  accumulateTime : x.sender.retransmissionTimer.accumulateTime = x.elapsed
  rto : x.sender.retransmissionTimer.rto = delay closed timeout x.retransmissions
  count : x.sender.consecutiveRetransmissions = x.retransmissions
  elapsed_lt : x.elapsed < delay closed timeout x.retransmissions
  elapsed_le : x.elapsed ≤ x.total
  few : x.retransmissions < 40
  window : x.traced.window = 0 ↔ closed = true

theorem delay_lt {closed : Bool} {timeout j : Nat} (ht : timeout < 2 ^ 16) (hj : j ≤ 40) :
    delay closed timeout j < 2 ^ 56 := by
  unfold delay
  split
  · omega
  · calc timeout * 2 ^ j ≤ timeout * 2 ^ 40 :=
        Nat.mul_le_mul_left _ (Nat.pow_le_pow_right (by decide) hj)
      _ < 2 ^ 56 := by omega

/-- After the timer expired it has the delay to the next retransmission. -/
theorem OnSchedule.nextRto_eq {closed : Bool} {timeout : Nat} {x : Stretch}
    (h : OnSchedule closed timeout x) (ht : timeout < 2 ^ 16) :
    x.sender.nextRto = delay closed timeout (x.retransmissions + 1) := by
  have hwin : x.sender.receiverWindowSize = x.traced.window := h.timedRun.windowed.window
  have hfew := h.few
  unfold nextRto
  rw [hwin, h.rto, show x.sender.initialRetransmissionTimeout = timeout from
    h.timedRun.initialRetransmissionTimeout]
  cases closed with
  | true =>
    rw [if_neg (by rw [h.window.mpr rfl]; exact Nat.lt_irrefl 0)]
    rfl
  | false =>
    have hopen : x.traced.window ≠ 0 := fun h0 => by simpa using h.window.mp h0
    rw [if_pos (Nat.pos_of_ne_zero hopen)]
    have hlt : delay false timeout (x.retransmissions + 1) < 2 ^ 56 := delay_lt ht (by omega)
    have heq : delay false timeout x.retransmissions * 2 =
        delay false timeout (x.retransmissions + 1) := by
      simp only [delay, Bool.false_eq_true, if_false, Nat.pow_succ, Nat.mul_assoc]
    rw [heq, Nat.mod_eq_of_lt (by rw [Word.size_eq]; omega)]

/-- The `tick` does not reach the timeout. -/
structure Waits (x : Stretch) (ms : Nat) (x' : Stretch) : Prop where
  history : x' = { x with traced := x'.traced, elapsed := x.elapsed + ms, total := x.total + ms }
  segmentsOut : x'.sender.segmentsOut = x.sender.segmentsOut
  outstandingSegments : x'.sender.outstandingSegments = x.sender.outstandingSegments
  accumulateTime : x'.sender.retransmissionTimer.accumulateTime = x.elapsed + ms
  rto : x'.sender.retransmissionTimer.rto = x.sender.retransmissionTimer.rto
  count : x'.sender.consecutiveRetransmissions = x.sender.consecutiveRetransmissions

/-- The `tick` reaches the timeout: the next one is `rto`. -/
structure Fires (x : Stretch) (ms : Nat) (rto : Nat) (x' : Stretch) : Prop where
  history : x' = { x with
    traced := x'.traced
    retransmissions := x.retransmissions + 1
    elapsed := 0
    total := x.total + ms }
  segmentsOut : ∃ oldest rest, x.sender.outstandingSegments = oldest :: rest ∧
    x'.sender.segmentsOut = x.sender.segmentsOut ++ [oldest]
  outstandingSegments : x'.sender.outstandingSegments = x.sender.outstandingSegments
  accumulateTime : x'.sender.retransmissionTimer.accumulateTime = 0
  rto : x'.sender.retransmissionTimer.rto = rto
  count : x'.sender.consecutiveRetransmissions = x.retransmissions + 1

/-- What a `tick` in the stretch does. -/
theorem OnSchedule.tick_cases {closed : Bool} {timeout : Nat} {x x' : Stretch}
    (h : OnSchedule closed timeout x) (ht : timeout < 2 ^ 16) {ms : Nat}
    (hms : x.total + ms < 2 ^ 63) (hs : x.step (.tick ms) = some x') :
    (x.elapsed + ms < delay closed timeout x.retransmissions → Waits x ms x') ∧
      (delay closed timeout x.retransmissions ≤ x.elapsed + ms →
        Fires x ms (delay closed timeout (x.retransmissions + 1)) x') := by
  obtain ⟨oldest, rest, hout⟩ := List.exists_cons_of_ne_nil h.outstanding
  have hle := h.elapsed_le
  have hfew := h.few
  have htimed : Timed x.sender := h.timedRun.timed
  have hadd : Word.add x.sender.retransmissionTimer.accumulateTime ms = x.elapsed + ms := by
    rw [h.accumulateTime]
    exact Word.add_of_lt (by rw [Word.size_eq]; omega)
  obtain ⟨t', ht', hx'⟩ := Option.map_eq_some_iff.mp hs
  obtain ⟨s', hs', rfl⟩ := Option.map_eq_some_iff.mp ht'
  refine ⟨fun hlt => ?_, fun hge => ?_⟩
  · have hw := tick_waits htimed h.outstanding (by rw [hadd, h.rto]; exact hlt)
    obtain rfl := Option.some.inj (hw.symm.trans hs')
    obtain rfl := hx'.symm.trans (if_pos rfl)
    exact ⟨rfl, rfl, rfl, hadd, rfl, rfl⟩
  · have hf := tick_expires htimed hout (by rw [hadd, h.rto]; exact hge)
    obtain rfl := Option.some.inj (hf.symm.trans hs')
    obtain rfl := hx'.symm.trans (if_neg (by simp [Traced.record, Stretch.sender]))
    refine ⟨rfl, ⟨oldest, rest, hout, rfl⟩, rfl, rfl, h.nextRto_eq ht, ?_⟩
    change (x.sender.consecutiveRetransmissions + 1) % 2 ^ 32 = _
    rw [h.count, Nat.mod_eq_of_lt (by omega)]

/-- Events other than `tick` leave the timer and the count alone. -/
theorem OnSchedule.timer_kept {closed : Bool} {timeout : Nat} {x x' : Stretch}
    (h : OnSchedule closed timeout x) {e : SenderEvent} (hs : x.step e = some x')
    (hnone : RetiresNone x e x') (htick : ∀ ms, e ≠ .tick ms) :
    x' = { x with traced := x'.traced } ∧
      x'.sender.outstandingSegments ≠ [] ∧
      x'.sender.retransmissionTimer = x.sender.retransmissionTimer ∧
      x'.sender.consecutiveRetransmissions = x.sender.consecutiveRetransmissions := by
  have hout := h.outstanding
  have htimed : Timed x.sender := h.timedRun.timed
  obtain ⟨t', ht', rfl⟩ := Option.map_eq_some_iff.mp hs
  obtain ⟨s', hs', rfl⟩ := Option.map_eq_some_iff.mp ht'
  cases e with
  | write data =>
    obtain rfl := Option.some.inj hs'
    exact ⟨rfl, hout, rfl, rfl⟩
  | endInput =>
    obtain rfl := Option.some.inj hs'
    exact ⟨rfl, hout, rfl, rfl⟩
  | fillWindow =>
    have ha := fillLoop_armed _ _ hs'
    refine ⟨rfl, ?_, ?_, ha.consecutiveRetransmissions⟩
    · rcases ha.timer with ⟨heq, -⟩ | ⟨hne, -⟩
      · exact heq ▸ hout
      · exact hne
    · -- a running timer is not started again
      have hrun := RetransmissionTimer.startTimer_of_running (htimed.running.mpr hout)
      rcases ha.timer with ⟨-, heq⟩ | ⟨-, heq⟩
      · exact heq
      · exact heq.trans hrun
  | ackReceived ackno w =>
    obtain rfl := Option.some.inj hs'
    have hsame : (x.sender.ackReceived ackno w).outstandingSegments =
        x.sender.outstandingSegments := hnone
    refine ⟨rfl, hsame ▸ hout, ?_⟩
    rcases ackReceived_cases htimed ackno w with heq | hr
    · change (x.sender.ackReceived ackno w).retransmissionTimer = _ ∧
        (x.sender.ackReceived ackno w).consecutiveRetransmissions = _
      rw [heq]
      exact ⟨rfl, rfl⟩
    · have := hr.shorter
      rw [hsame] at this
      exact absurd this (Nat.lt_irrefl _)
  | tick ms => exact absurd rfl (htick ms)
  | sendEmptySegment =>
    obtain rfl := Option.some.inj hs'
    exact ⟨rfl, hout, rfl, rfl⟩

/-! ## Where a stretch begins, and how it goes on -/

theorem timedRun_step {timeout : Nat} {t t' : Traced} (h : TimedRun timeout t) {e : SenderEvent}
    (hs : t.step e = some t') : TimedRun timeout t' := by
  have hwin := Traced.windowed_step h.windowed hs
  obtain ⟨s', hs', rfl⟩ := Option.map_eq_some_iff.mp hs
  refine ⟨hwin, ?_, ?_⟩ <;> rw [Traced.record_sender]
  · exact timed_step h.timed hs'
  · exact (step_keeps h.timed hs').1.trans h.initialRetransmissionTimeout

theorem timedRun_run (capacity : Nat) (retxTimeout : UInt16) (isn : WrappingInt32)
    (es : List SenderEvent) :
    ∃ t, run Traced.step (Traced.init capacity retxTimeout isn) es = some t ∧
      TimedRun retxTimeout.toNat t := by
  obtain ⟨t, ht, -, hc⟩ := Traced.run_init capacity retxTimeout isn
    ⟨⟨wellFormed_new capacity retxTimeout isn, rfl⟩, timed_new capacity retxTimeout isn, rfl⟩
    (fun _ _ _ h hs => timedRun_step h hs) es
  exact ⟨t, ht, hc⟩

/-- A timer that (re)starts has the initial timeout and no time accumulated. -/
theorem timer_of_starts {timeout : Nat} {t t' : Traced} (h : TimedRun timeout t) {e : SenderEvent}
    (hs : t.step e = some t') (hst : Starts t e t') :
    t'.sender.retransmissionTimer.accumulateTime = 0 ∧
      t'.sender.retransmissionTimer.rto = timeout ∧
      t'.sender.consecutiveRetransmissions = 0 := by
  obtain ⟨s', hs', rfl⟩ := Option.map_eq_some_iff.mp hs
  obtain ⟨hout, hst⟩ := hst
  rw [Traced.record_sender] at hout ⊢
  have hinit := h.initialRetransmissionTimeout
  cases e with
  | fillWindow =>
    have hnil : t.sender.outstandingSegments = [] := hst
    have ha := fillLoop_armed _ _ hs'
    rcases ha.timer with ⟨heq, -⟩ | ⟨-, heq⟩
    · exact absurd (heq.trans hnil) hout
    · rw [RetransmissionTimer.startTimer_of_stopped (h.timed.stopped hnil), h.timed.initRto,
        hinit] at heq
      rw [heq, ha.consecutiveRetransmissions]
      exact ⟨rfl, rfl, h.timed.idle hnil⟩
  | ackReceived ackno w =>
    obtain rfl := Option.some.inj hs'
    rcases ackReceived_cases h.timed ackno w with heq | hr
    · have hshort : (t.sender.ackReceived ackno w).outstandingSegments.length <
          t.sender.outstandingSegments.length := hst
      rw [heq] at hshort
      exact absurd hshort (Nat.lt_irrefl _)
    · rw [hr.timer, hinit]
      exact ⟨rfl, rfl, hr.consecutiveRetransmissions⟩
  | write data => exact hst.elim
  | endInput => exact hst.elim
  | tick ms => exact hst.elim
  | sendEmptySegment => exact hst.elim

theorem onSchedule_begin {closed : Bool} {timeout : Nat} {t t' : Traced}
    (h : TimedRun timeout t) (hpos : 1 ≤ timeout) {e : SenderEvent} (hs : t.step e = some t')
    (hst : Starts t e t') (hwin : t'.window = 0 ↔ closed = true) :
    OnSchedule closed timeout (begin t') := by
  have h' := timedRun_step h hs
  obtain ⟨hacc, hrto, hcount⟩ := timer_of_starts h hs hst
  have hdelay : delay closed timeout 0 = timeout := by cases closed <;> simp [delay]
  exact
    { timedRun := h'
      outstanding := hst.1
      accumulateTime := hacc
      rto := hrto.trans hdelay.symm
      count := hcount
      elapsed_lt := by rw [begin, hdelay]; exact hpos
      elapsed_le := Nat.le_refl 0
      few := by simp [begin]
      window := hwin }

/-- The delays of a stretch are positive: the next retransmission is always ahead. -/
theorem delay_pos {closed : Bool} {timeout : Nat} (hpos : 1 ≤ timeout) (j : Nat) :
    0 < delay closed timeout j := by
  unfold delay
  split
  · exact hpos
  · exact Nat.mul_pos hpos (Nat.two_pow_pos j)

theorem OnSchedule.waits {closed : Bool} {timeout ms : Nat} {x x' : Stretch}
    (h : OnSchedule closed timeout x) (hc : TimedRun timeout x'.traced)
    (hwin : x'.traced.window = 0 ↔ closed = true) (hx : Waits x ms x')
    (hlt : x.elapsed + ms < delay closed timeout x.retransmissions) :
    OnSchedule closed timeout x' := by
  have hout : x'.sender.outstandingSegments ≠ [] := hx.outstandingSegments ▸ h.outstanding
  rw [hx.history]
  exact
    { timedRun := hc
      outstanding := hout
      accumulateTime := hx.accumulateTime
      rto := hx.rto.trans h.rto
      count := hx.count.trans h.count
      elapsed_lt := hlt
      elapsed_le := Nat.add_le_add_right h.elapsed_le ms
      few := h.few
      window := hwin }

theorem OnSchedule.fires {closed : Bool} {timeout ms : Nat} {x x' : Stretch}
    (h : OnSchedule closed timeout x) (hpos : 1 ≤ timeout) (hc : TimedRun timeout x'.traced)
    (hwin : x'.traced.window = 0 ↔ closed = true) (hfew : x'.retransmissions < 40)
    (hx : Fires x ms (delay closed timeout (x.retransmissions + 1)) x') :
    OnSchedule closed timeout x' := by
  have hout : x'.sender.outstandingSegments ≠ [] := hx.outstandingSegments ▸ h.outstanding
  rw [hx.history] at hfew ⊢
  exact
    { timedRun := hc
      outstanding := hout
      accumulateTime := hx.accumulateTime
      rto := hx.rto
      count := hx.count
      elapsed_lt := delay_pos hpos _
      elapsed_le := Nat.zero_le _
      few := hfew
      window := hwin }

theorem OnSchedule.kept {closed : Bool} {timeout : Nat} {x x' : Stretch}
    (h : OnSchedule closed timeout x) (hc : TimedRun timeout x'.traced)
    (hwin : x'.traced.window = 0 ↔ closed = true) {e : SenderEvent} (hs : x.step e = some x')
    (hnone : RetiresNone x e x') (htick : ∀ ms, e ≠ .tick ms) : OnSchedule closed timeout x' := by
  obtain ⟨heq, hout, htimer, hcount⟩ := h.timer_kept hs hnone htick
  rw [heq]
  exact
    { timedRun := hc
      outstanding := hout
      accumulateTime := (congrArg RetransmissionTimer.accumulateTime htimer).trans
        h.accumulateTime
      rto := (congrArg RetransmissionTimer.rto htimer).trans h.rto
      count := hcount.trans h.count
      elapsed_lt := h.elapsed_lt
      elapsed_le := h.elapsed_le
      few := h.few
      window := hwin }

/-- One step of the stretch. -/
theorem onSchedule_step {closed : Bool} {timeout : Nat} {x x' : Stretch}
    (h : OnSchedule closed timeout x) (hpos : 1 ≤ timeout) (ht : timeout < 2 ^ 16)
    {e : SenderEvent} (hs : x.step e = some x') (hw : Within closed x e x') :
    OnSchedule closed timeout x' := by
  obtain ⟨hnone, hfew, htotal, hwin⟩ := hw
  have hc := timedRun_step h.timedRun (step_traced hs)
  cases e with
  | tick ms =>
    rw [step_tick_total hs] at htotal
    obtain ⟨hwait, hfire⟩ := h.tick_cases ht htotal hs
    rcases Nat.lt_or_ge (x.elapsed + ms) (delay closed timeout x.retransmissions) with hlt | hge
    · exact h.waits hc hwin (hwait hlt) hlt
    · exact h.fires hpos hc hwin hfew (hfire hge)
  | write data => exact h.kept hc hwin hs hnone (by simp)
  | endInput => exact h.kept hc hwin hs hnone (by simp)
  | fillWindow => exact h.kept hc hwin hs hnone (by simp)
  | ackReceived ackno w => exact h.kept hc hwin hs hnone (by simp)
  | sendEmptySegment => exact h.kept hc hwin hs hnone (by simp)

end Stretch

open Stretch in
/-- **Retransmission timing and back-off.**  In any stretch of any run, the next retransmission is
still ahead, and a `tick` makes it exactly if the milliseconds since the previous one reach
`delay`: the initial timeout doubled once per retransmission, or the initial timeout itself while
the window is closed.  It pushes one segment, the oldest outstanding one as it is, and the count is
the number of retransmissions in the stretch; every other `tick` pushes nothing.  Writes, further
calls of `fill_window` and acknowledgments that retire nothing touch neither timer nor count. -/
theorem retransmission_timing (capacity : Nat) (retxTimeout : UInt16) (isn : WrappingInt32)
    (hpos : 1 ≤ retxTimeout.toNat) (pre : List SenderEvent) (t t₁ : Traced) (e : SenderEvent)
    (hpre : run Traced.step (Traced.init capacity retxTimeout isn) pre = some t)
    (he : t.step e = some t₁) (hstart : Starts t e t₁) (closed : Bool)
    (hwin : t₁.window = 0 ↔ closed = true) (es : List SenderEvent) (x : Stretch)
    (hes : Path Stretch.step (Within closed) (Stretch.begin t₁) es x) :
    x.sender.consecutiveRetransmissions = x.retransmissions ∧
    x.elapsed < delay closed retxTimeout.toNat x.retransmissions ∧
    (∀ ms, x.total + ms < 2 ^ 63 → ∃ oldest rest t',
      x.sender.outstandingSegments = oldest :: rest ∧ x.traced.step (.tick ms) = some t' ∧
      if delay closed retxTimeout.toNat x.retransmissions ≤ x.elapsed + ms then
        t'.sender.segmentsOut = x.sender.segmentsOut ++ [oldest] ∧
        t'.sender.consecutiveRetransmissions = x.retransmissions + 1
      else t'.sender.segmentsOut = x.sender.segmentsOut) ∧
    ∀ f x', x.step f = some x' → RetiresNone x f x' → (∀ ms, f ≠ .tick ms) →
      x'.sender.retransmissionTimer = x.sender.retransmissionTimer ∧
      x'.sender.consecutiveRetransmissions = x.sender.consecutiveRetransmissions := by
  have hlt : retxTimeout.toNat < 2 ^ 16 := retxTimeout.toNat_lt
  obtain ⟨u, hu, hc⟩ := timedRun_run capacity retxTimeout isn pre
  obtain rfl : u = t := Option.some.inj (hu.symm.trans hpre)
  have hx : OnSchedule closed retxTimeout.toNat x :=
    hes.invariant (onSchedule_begin hc hpos he hstart hwin)
      (fun _ _ _ h hs hw => onSchedule_step h hpos hlt hs hw)
  refine ⟨hx.count, hx.elapsed_lt, fun ms hms => ?_, fun f x' hs hnone htick => ?_⟩
  · obtain ⟨oldest, rest, hout⟩ := List.exists_cons_of_ne_nil hx.outstanding
    obtain ⟨t', ht'⟩ := Option.isSome_iff_exists.mp
      (Traced.step_isSome hx.timedRun.windowed.wellFormed (.tick ms))
    obtain ⟨x', hx'⟩ : ∃ x', x.step (.tick ms) = some x' := ⟨_, by rw [Stretch.step, ht']; rfl⟩
    obtain rfl : x'.traced = t' := Option.some.inj ((step_traced hx').symm.trans ht')
    obtain ⟨hwait, hfire⟩ := hx.tick_cases hlt hms hx'
    refine ⟨oldest, rest, x'.traced, hout, ht', ?_⟩
    split
    · rename_i hge
      obtain ⟨oldest', rest', hout', hsent⟩ := (hfire hge).segmentsOut
      obtain ⟨rfl, -⟩ := List.cons.inj (hout.symm.trans hout')
      exact ⟨hsent, (hfire hge).count⟩
    · rename_i hlt'
      exact (hwait (Nat.lt_of_not_ge hlt')).segmentsOut
  · obtain ⟨-, -, htimer, hcount⟩ := hx.timer_kept hs hnone htick
    exact ⟨htimer, hcount⟩

/-- The SYN is sent again after 1000 milliseconds, and once more 2000 milliseconds later. -/
theorem retransmission_timing_syn :
    ∃ t₁ x t', (Traced.init 8 1000 ⟨7⟩).step .fillWindow = some t₁ ∧
      Path Stretch.step (Stretch.Within false) (Stretch.begin t₁)
        [.tick 999, .write [1], .tick 1, .fillWindow, .tick 1999] x ∧
      x.retransmissions = 1 ∧ x.elapsed = 1999 ∧ x.traced.step (.tick 1) = some t' ∧
      t'.sender.consecutiveRetransmissions = 2 := by
  obtain ⟨t₁, ht₁⟩ := Option.isSome_iff_exists.mp
    (show ((Traced.init 8 1000 ⟨7⟩).step .fillWindow).isSome = true by decide)
  have ht₁' := Option.some.inj ht₁
  obtain ⟨x, hx⟩ := Option.isSome_iff_exists.mp
    (show (check Stretch.step (Stretch.Within false) (Stretch.begin t₁)
      [.tick 999, .write [1], .tick 1, .fillWindow, .tick 1999]).isSome = true by
        rw [← ht₁']
        decide)
  have hfacts : x.retransmissions = 1 ∧ x.elapsed = 1999 ∧ x.total = 2999 := by
    subst ht₁'
    obtain rfl : _ = x := Option.some.inj hx
    decide
  have hp := Path.of_check hx
  obtain ⟨-, -, htick, -⟩ := retransmission_timing 8 1000 ⟨7⟩ (by decide) [] _ t₁ .fillWindow rfl
    ht₁ (by rw [← ht₁']; exact ⟨by decide, rfl⟩) false (by rw [← ht₁']; decide) _ x hp
  obtain ⟨oldest, rest, t', -, ht', hfire⟩ := htick 1 (by rw [hfacts.2.2]; decide)
  rw [hfacts.1, hfacts.2.1, if_pos (by decide)] at hfire
  exact ⟨t₁, x, t', ht₁, hp, hfacts.1, hfacts.2.1, ht', hfire.2⟩

end Sponge
