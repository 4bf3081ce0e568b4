import Sponge.SenderRuns

/-!
# The retransmission timer of the sender

`timer_running_iff`: the timer runs exactly while a segment is outstanding, so `tick` never takes
the front of an empty queue, and no outstanding segment is left without a timer.  Nothing here
depends on sequence numbers: the results hold for arbitrary acknowledgments.
-/

namespace Sponge

open Transition

theorem ByteStream.read_error (s : ByteStream) {len : Nat} (h : len ≤ s.buffer.length) :
    (s.read len).2.error = s.error := by
  rw [ByteStream.read, dif_pos h]
  rfl

namespace RetransmissionTimer

theorem startTimer_of_running {r : RetransmissionTimer} (h : r.isRunning = true) :
    r.startTimer = r := if_pos h

theorem startTimer_of_stopped {r : RetransmissionTimer} (h : r.isRunning = false) :
    r.startTimer = ⟨true, 0, r.initRto, r.initRto⟩ := by
  rw [startTimer, if_neg (by simp [h])]

theorem stopTimer_of_stopped {r : RetransmissionTimer} (h : r.isRunning = false) :
    r.stopTimer = r := if_neg (by simp [h])

@[simp] theorem startTimer_initRto (r : RetransmissionTimer) :
    r.startTimer.initRto = r.initRto := by
  unfold startTimer
  split <;> rfl

@[simp] theorem stopTimer_initRto (r : RetransmissionTimer) : r.stopTimer.initRto = r.initRto := by
  unfold stopTimer
  split <;> rfl

end RetransmissionTimer

namespace TCPSender

variable {s s' s'' : TCPSender}

/-! ## fill_window -/

/-- What `fill_window` does to the timer, and what it leaves alone: it emits nothing, or it starts
the timer. -/
structure Armed (s s' : TCPSender) : Prop where
  initialRetransmissionTimeout :
    s'.initialRetransmissionTimeout = s.initialRetransmissionTimeout
  consecutiveRetransmissions : s'.consecutiveRetransmissions = s.consecutiveRetransmissions
  error : s'.stream.error = s.stream.error
  timer : s'.outstandingSegments = s.outstandingSegments ∧
      s'.retransmissionTimer = s.retransmissionTimer ∨
    s'.outstandingSegments ≠ [] ∧
      s'.retransmissionTimer = s.retransmissionTimer.startTimer

theorem Armed.refl (s : TCPSender) : Armed s s := ⟨rfl, rfl, rfl, Or.inl ⟨rfl, rfl⟩⟩

theorem Armed.trans (h : Armed s s') (h' : Armed s' s'') : Armed s s'' := by
  refine ⟨h'.1.trans h.1, h'.2.trans h.2, h'.3.trans h.3, ?_⟩
  rcases h'.timer with ⟨hout', ht'⟩ | ⟨hout', ht'⟩
  · rw [hout', ht']
    exact h.timer
  · refine Or.inr ⟨hout', ?_⟩
    rcases h.timer with ⟨-, ht⟩ | ⟨-, ht⟩
    · rw [ht', ht]
    · rw [ht', ht]
      exact RetransmissionTimer.startTimer_of_running
        (RetransmissionTimer.startTimer_isRunning _)

theorem fillOnce_armed (s : TCPSender) : Armed s s.fillOnce.1 := by
  have hle : s.payloadSize ≤ s.stream.buffer.length := by
    simp only [payloadSize, ByteStream.bufferSize]
    omega
  have herror := s.stream.read_error hle
  unfold fillOnce
  split
  · exact Armed.refl s
  · split
    · exact ⟨rfl, rfl, rfl, Or.inr ⟨by simp [send], rfl⟩⟩
    · dsimp only
      split
      · exact ⟨rfl, rfl, herror, Or.inr ⟨by simp [send], rfl⟩⟩
      · split
        · exact ⟨rfl, rfl, herror, Or.inl ⟨rfl, rfl⟩⟩
        · exact ⟨rfl, rfl, herror, Or.inr ⟨by simp [send], rfl⟩⟩

theorem fillLoop_armed (fuel : Nat) : ∀ s : TCPSender, fillLoop fuel s = some s' → Armed s s' := by
  induction fuel with
  | zero =>
    intro s h
    cases h
  | succ fuel ih =>
    intro s h
    have harmed := fillOnce_armed s
    unfold fillLoop at h
    split at h
    · rename_i heq
      obtain rfl := Option.some.inj h
      rwa [heq] at harmed
    · rename_i heq
      rw [heq] at harmed
      exact harmed.trans (ih _ h)

/-! ## ack_received -/

/-- Once the flag is set it stays set. -/
theorem retire_updated (isn : WrappingInt32) (next absAckno : Nat) (segs : List TCPSegment) :
    ∀ ack, (retire isn next absAckno ack true segs).2.1 = true := by
  induction segs with
  | nil => exact fun _ => rfl
  | cons seg segs ih =>
    intro ack
    unfold retire
    dsimp only
    split
    · exact ih _
    · rfl

/-- An acknowledgment retires nothing, or it sets the flag and the queue gets shorter. -/
theorem retire_cases (isn : WrappingInt32) (next absAckno ack : Nat) (segs : List TCPSegment) :
    retire isn next absAckno ack false segs = (ack, false, segs) ∨
      (retire isn next absAckno ack false segs).2.1 = true ∧
        (retire isn next absAckno ack false segs).2.2.length < segs.length := by
  cases segs with
  | nil => exact Or.inl rfl
  | cons seg segs =>
    unfold retire
    dsimp only
    split
    · have hlen := (retire_suffix isn next absAckno segs
        (Word.add (unwrap seg.header.seqno isn next) seg.lengthInSequenceSpace) true).length_le
      exact Or.inr ⟨retire_updated _ _ _ _ _, by simp only [List.length_cons]; omega⟩
    · exact Or.inl rfl

/-- `s'` is `s` after an acknowledgment that retired a segment: the timer begins anew, and stops if
nothing is left. -/
structure Restarted (s s' : TCPSender) : Prop where
  initialRetransmissionTimeout :
    s'.initialRetransmissionTimeout = s.initialRetransmissionTimeout
  consecutiveRetransmissions : s'.consecutiveRetransmissions = 0
  error : s'.stream.error = s.stream.error
  shorter : s'.outstandingSegments.length < s.outstandingSegments.length
  timer : s'.retransmissionTimer =
    ((if s'.outstandingSegments.isEmpty then s.retransmissionTimer.stopTimer
      else s.retransmissionTimer).setTimeout s.initialRetransmissionTimeout).setAccumulateTime 0

/-! ## The invariant -/

/-- The timer runs exactly while a segment is outstanding. -/
structure Timed (s : TCPSender) : Prop where
  running : s.retransmissionTimer.isRunning = true ↔ s.outstandingSegments ≠ []
  initRto : s.retransmissionTimer.initRto = s.initialRetransmissionTimeout
  idle : s.outstandingSegments = [] → s.consecutiveRetransmissions = 0

theorem timed_new (capacity : Nat) (retxTimeout : UInt16) (isn : WrappingInt32) :
    Timed (new capacity retxTimeout isn) :=
  ⟨by simp [new], rfl, fun _ => rfl⟩

theorem Timed.stopped (h : Timed s) (hout : s.outstandingSegments = []) :
    s.retransmissionTimer.isRunning = false := by
  rw [← Bool.not_eq_true, h.running]
  exact not_not.mpr hout

/-- An acknowledgment only notes the window, or it retires a segment. -/
theorem ackReceived_cases (h : Timed s) (ackno : WrappingInt32) (w : UInt16) :
    s.ackReceived ackno w =
        { s with receiverWindowSize := (s.ackReceived ackno w).receiverWindowSize } ∨
      Restarted s (s.ackReceived ackno w) := by
  by_cases hacc : s.Accepts (unwrap ackno s.isn s.nextSeqnoAbsolute)
  swap
  · rw [ackReceived_of_not_accepts w hacc]
    exact Or.inl rfl
  unfold ackReceived
  dsimp only
  rw [if_pos hacc]
  rcases retire_cases s.isn s.nextSeqnoAbsolute (unwrap ackno s.isn s.nextSeqnoAbsolute)
    s.receiverAck s.outstandingSegments with hnone | ⟨hflag, hlen⟩
  · left
    rw [hnone]
    -- if the queue is empty, the timer is stopped already
    cases hout : s.outstandingSegments with
    | nil => simp [RetransmissionTimer.stopTimer_of_stopped (h.stopped hout)]
    | cons seg rest => simp
  · right
    rw [hflag, if_pos rfl]
    generalize hl : retire s.isn s.nextSeqnoAbsolute (unwrap ackno s.isn s.nextSeqnoAbsolute)
      s.receiverAck false s.outstandingSegments = left at *
    obtain ⟨ack, updated, rest⟩ := left
    cases rest with
    | nil => exact ⟨rfl, rfl, rfl, hlen, rfl⟩
    | cons seg rest => exact ⟨rfl, rfl, rfl, hlen, rfl⟩

/-! ## tick -/

/-- `tick` changes the timer, the count of retransmissions and the segments pushed, no more. -/
theorem tick_frame {ms : Nat} (hs : s.tick ms = some s') :
    s' = { s with
      retransmissionTimer := s'.retransmissionTimer
      consecutiveRetransmissions := s'.consecutiveRetransmissions
      segmentsOut := s'.segmentsOut } := by
  unfold tick at hs
  dsimp only at hs
  split at hs
  · split at hs
    · cases hs
    · obtain rfl := Option.some.inj hs
      rfl
  · obtain rfl := Option.some.inj hs
    rfl

/-- With nothing outstanding, `tick` does nothing. -/
theorem tick_idle (h : Timed s) (hout : s.outstandingSegments = []) (ms : Nat) :
    s.tick ms = some s := by
  have hcheck : s.retransmissionTimer.checkTimeout ms = (false, s.retransmissionTimer) := by
    rw [RetransmissionTimer.checkTimeout, if_neg (by simp [h.stopped hout])]
  unfold tick
  rw [hcheck]
  rfl

/-- The timer before it expires. -/
theorem tick_waits (h : Timed s) (hout : s.outstandingSegments ≠ []) {ms : Nat}
    (hms : Word.add s.retransmissionTimer.accumulateTime ms < s.retransmissionTimer.rto) :
    s.tick ms = some { s with
      retransmissionTimer := s.retransmissionTimer.setAccumulateTime
        (Word.add s.retransmissionTimer.accumulateTime ms) } := by
  have hcheck : s.retransmissionTimer.checkTimeout ms =
      (false, s.retransmissionTimer.setAccumulateTime
        (Word.add s.retransmissionTimer.accumulateTime ms)) := by
    rw [RetransmissionTimer.checkTimeout, if_pos (h.running.mpr hout)]
    simp only [RetransmissionTimer.setAccumulateTime, Prod.mk.injEq, decide_eq_false_iff_not,
      and_true]
    omega
  unfold tick
  rw [hcheck]
  rfl

/-- The timeout that the timer has after it expired. -/
def nextRto (s : TCPSender) : Nat :=
  if 0 < s.receiverWindowSize then s.retransmissionTimer.rto * 2 % Word.size
  else s.initialRetransmissionTimeout

/-- The timer expires: the oldest outstanding segment is sent again. -/
theorem tick_expires (h : Timed s) {oldest : TCPSegment} {rest : List TCPSegment}
    (hout : s.outstandingSegments = oldest :: rest) {ms : Nat}
    (hms : s.retransmissionTimer.rto ≤ Word.add s.retransmissionTimer.accumulateTime ms) :
    s.tick ms = some { s with
      retransmissionTimer :=
        (s.retransmissionTimer.setTimeout s.nextRto).setAccumulateTime 0
      consecutiveRetransmissions := (s.consecutiveRetransmissions + 1) % 2 ^ 32
      segmentsOut := s.segmentsOut ++ [oldest] } := by
  have hcheck : s.retransmissionTimer.checkTimeout ms =
      (true, s.retransmissionTimer.setAccumulateTime
        (Word.add s.retransmissionTimer.accumulateTime ms)) := by
    rw [RetransmissionTimer.checkTimeout, if_pos (h.running.mpr (by simp [hout]))]
    simp only [RetransmissionTimer.setAccumulateTime, hms, decide_true]
  unfold tick
  rw [hcheck]
  simp only [hout, if_true, nextRto]
  split <;> rfl

/-! ## One step -/

theorem Timed.armed (h : Timed s) (ha : Armed s s') : Timed s' := by
  rcases ha.timer with ⟨hout, ht⟩ | ⟨hout, ht⟩
  · refine ⟨?_, ?_, ?_⟩
    · rw [hout, ht]
      exact h.running
    · rw [ht, ha.initialRetransmissionTimeout]
      exact h.initRto
    · rw [hout, ha.consecutiveRetransmissions]
      exact h.idle
  · refine ⟨?_, ?_, fun hnil => absurd hnil hout⟩
    · rw [ht]
      exact iff_of_true (RetransmissionTimer.startTimer_isRunning _) hout
    · rw [ht, RetransmissionTimer.startTimer_initRto, ha.initialRetransmissionTimeout]
      exact h.initRto

theorem Timed.restarted (h : Timed s) (hr : Restarted s s') : Timed s' := by
  have hout : s.outstandingSegments ≠ [] := by
    intro hnil
    have := hr.shorter
    simp [hnil] at this
  have htimer := hr.timer
  cases hout' : s'.outstandingSegments with
  | nil =>
    simp only [hout', List.isEmpty_nil, if_true] at htimer
    refine ⟨?_, ?_, fun _ => hr.consecutiveRetransmissions⟩
    · rw [htimer, hout']
      simp
    · rw [htimer, hr.initialRetransmissionTimeout]
      exact (RetransmissionTimer.stopTimer_initRto _).trans h.initRto
  | cons seg rest =>
    simp only [hout', List.isEmpty_cons, Bool.false_eq_true, if_false] at htimer
    refine ⟨?_, ?_, fun _ => hr.consecutiveRetransmissions⟩
    · rw [htimer, hout']
      exact iff_of_true (h.running.mpr hout) (by simp)
    · rw [htimer, hr.initialRetransmissionTimeout]
      exact h.initRto

/-- Every event keeps the timer and the queue together. -/
theorem timed_step (h : Timed s) {e : SenderEvent} (hs : s.step e = some s') : Timed s' := by
  cases e with
  | write data =>
    obtain rfl := Option.some.inj hs
    exact ⟨h.running, h.initRto, h.idle⟩
  | endInput =>
    obtain rfl := Option.some.inj hs
    exact ⟨h.running, h.initRto, h.idle⟩
  | fillWindow => exact h.armed (fillLoop_armed _ s hs)
  | ackReceived ackno w =>
    obtain rfl := Option.some.inj hs
    rcases ackReceived_cases h ackno w with heq | hr
    · rw [heq]
      exact ⟨h.running, h.initRto, h.idle⟩
    · exact h.restarted hr
  | tick ms =>
    cases hout : s.outstandingSegments with
    | nil =>
      obtain rfl : s = s' := Option.some.inj ((tick_idle h hout ms).symm.trans hs)
      exact h
    | cons oldest rest =>
      rcases Nat.lt_or_ge (Word.add s.retransmissionTimer.accumulateTime ms)
        s.retransmissionTimer.rto with hlt | hge
      · obtain rfl := Option.some.inj ((tick_waits h (by simp [hout]) hlt).symm.trans hs)
        exact ⟨h.running, h.initRto, h.idle⟩
      · obtain rfl := Option.some.inj ((tick_expires h hout hge).symm.trans hs)
        exact ⟨h.running, h.initRto, fun hnil => absurd hnil (by simp [hout])⟩
  | sendEmptySegment =>
    obtain rfl := Option.some.inj hs
    exact ⟨h.running, h.initRto, h.idle⟩

/-- No event changes the initial timeout or the error flag of the stream. -/
theorem step_keeps (h : Timed s) {e : SenderEvent} (hs : s.step e = some s') :
    s'.initialRetransmissionTimeout = s.initialRetransmissionTimeout ∧
      s'.stream.error = s.stream.error := by
  cases e with
  | write data =>
    obtain rfl := Option.some.inj hs
    exact ⟨rfl, rfl⟩
  | endInput =>
    obtain rfl := Option.some.inj hs
    exact ⟨rfl, rfl⟩
  | fillWindow =>
    have ha := fillLoop_armed _ s hs
    exact ⟨ha.initialRetransmissionTimeout, ha.error⟩
  | ackReceived ackno w =>
    obtain rfl := Option.some.inj hs
    rcases ackReceived_cases h ackno w with heq | hr
    · rw [heq]
      exact ⟨rfl, rfl⟩
    · exact ⟨hr.initialRetransmissionTimeout, hr.error⟩
  | tick ms =>
    have hframe := tick_frame hs
    rw [hframe]
    exact ⟨rfl, rfl⟩
  | sendEmptySegment =>
    obtain rfl := Option.some.inj hs
    exact ⟨rfl, rfl⟩

end TCPSender

open TCPSender in
/-- **No missing and no spurious timer.**  Every run is defined, whatever the acknowledgments and
the durations are.  In the state it ends in, the timer runs exactly if a segment is outstanding.  A
`tick` is defined; it pushes nothing if nothing is outstanding, and the oldest outstanding segment
if the time it adds, without a 64-bit overflow, brings the accumulated time to the timeout. -/
theorem timer_running_iff (capacity : Nat) (retxTimeout : UInt16) (isn : WrappingInt32)
    (es : List SenderEvent) :
    ∃ s, run TCPSender.step (TCPSender.new capacity retxTimeout isn) es = some s ∧
      (s.retransmissionTimer.isRunning = true ↔ s.outstandingSegments ≠ []) ∧
      ∀ ms, ∃ s', s.tick ms = some s' ∧
        (s.outstandingSegments = [] → s'.segmentsOut = s.segmentsOut) ∧
        ∀ oldest rest, s.outstandingSegments = oldest :: rest →
          s.retransmissionTimer.accumulateTime + ms < 2 ^ 64 →
          s.retransmissionTimer.rto ≤ s.retransmissionTimer.accumulateTime + ms →
          s'.segmentsOut = s.segmentsOut ++ [oldest] := by
  obtain ⟨s, hrun, hw, ht⟩ := run_new capacity retxTimeout isn
    (timed_new capacity retxTimeout isn) (fun _ _ _ h hs _ => timed_step h hs) es
  refine ⟨s, hrun, ht.running, fun ms => ?_⟩
  obtain ⟨s', hs', -⟩ := tick_moved hw ms
  refine ⟨s', hs', fun hout => ?_, fun oldest rest hout hlt hms => ?_⟩
  · obtain rfl := Option.some.inj ((tick_idle ht hout ms).symm.trans hs')
    rfl
  · rw [← Word.add_of_lt (show _ < Word.size from hlt)] at hms
    obtain rfl := Option.some.inj ((tick_expires ht hout hms).symm.trans hs')
    rfl

end Sponge
