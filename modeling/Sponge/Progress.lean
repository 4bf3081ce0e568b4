import Sponge.AdvertisedWindow
import Sponge.EndToEnd
import Sponge.FillWindow

/-!
# What moves a transfer on

Four kinds of events bring the bytes that were written closer to the reader: a timeout, the arrival
of the oldest outstanding segment at a receiver with room for a byte, the arrival of an
acknowledgment for it, and a call of `fill_window` with nothing outstanding.  `Live` is what every
run of the composed system keeps; `Advances` is what no event undoes.
-/

namespace Sponge

open PartialStream Tiling Transition

/-! ## The clock of the timer -/

namespace RetransmissionTimer

/-- The timeout is the initial one doubled some number of times, as a 64-bit word, and the
accumulated time has not reached it. -/
structure OnTime (initial : Nat) (r : RetransmissionTimer) : Prop where
  rto : ∃ k, r.rto = initial * 2 ^ k % Word.size
  waits : r.accumulateTime = 0 ∨ r.accumulateTime < r.rto

variable {initial : Nat} {r : RetransmissionTimer}

/-- A timer that begins anew. -/
theorem onTime_anew (h : initial < 2 ^ 16) (hrto : r.rto = initial)
    (hacc : r.accumulateTime = 0) : OnTime initial r := by
  refine ⟨⟨0, ?_⟩, Or.inl hacc⟩
  rw [hrto, Word.size_eq]
  omega

theorem OnTime.startTimer (h : OnTime initial r) (hlt : initial < 2 ^ 16)
    (hinit : r.initRto = initial) : OnTime initial r.startTimer := by
  cases hrun : r.isRunning with
  | true => rwa [startTimer_of_running hrun]
  | false =>
    rw [startTimer_of_stopped hrun]
    exact onTime_anew hlt hinit rfl

/-- The timeout stays far below the end of the 64-bit range. -/
theorem OnTime.rto_le (h : OnTime initial r) (hlt : initial < 2 ^ 16) :
    r.rto ≤ 2 ^ 64 - 2 ^ 48 := by
  obtain ⟨k, hk⟩ := h.rto
  rw [hk]
  rcases Nat.lt_or_ge k 48 with hsmall | hge
  · have hpow : 2 ^ k ≤ 2 ^ 47 := Nat.pow_le_pow_right (by decide) (by omega)
    calc _ ≤ initial * 2 ^ k := Nat.mod_le _ _
      _ ≤ (2 ^ 16 - 1) * 2 ^ 47 := Nat.mul_le_mul (by omega) hpow
      _ ≤ 2 ^ 64 - 2 ^ 48 := by decide
  · -- a multiple of `2 ^ 48`
    have hpow : initial * 2 ^ k = initial * 2 ^ (k - 48) * 2 ^ 48 := by
      rw [Nat.mul_assoc, ← Nat.pow_add, Nat.sub_add_cancel hge]
    have hmod := Nat.mod_lt (initial * 2 ^ (k - 48)) (show 0 < 2 ^ 16 by decide)
    rw [hpow, Word.size, show 2 ^ 64 = 2 ^ 16 * 2 ^ 48 from rfl, Nat.mul_mod_mul_right]
    omega

end RetransmissionTimer

namespace TCPSender

variable {isn : WrappingInt32} {s s' : TCPSender}

/-- The timer of the sender is on time. -/
structure Clocked (s : TCPSender) : Prop where
  initial : s.initialRetransmissionTimeout < 2 ^ 16
  onTime : s.retransmissionTimer.OnTime s.initialRetransmissionTimeout

theorem clocked_new (capacity : Nat) (retxTimeout : UInt16) (isn : WrappingInt32) :
    Clocked (new capacity retxTimeout isn) :=
  ⟨retxTimeout.toNat_lt, RetransmissionTimer.onTime_anew retxTimeout.toNat_lt rfl rfl⟩

theorem Clocked.armed (h : Clocked s) (ht : Timed s) (ha : Armed s s') : Clocked s' := by
  refine ⟨by rw [ha.initialRetransmissionTimeout]; exact h.initial, ?_⟩
  rw [ha.initialRetransmissionTimeout]
  rcases ha.timer with ⟨-, heq⟩ | ⟨-, heq⟩
  · rw [heq]
    exact h.onTime
  · rw [heq]
    exact h.onTime.startTimer h.initial ht.initRto

theorem Clocked.restarted (h : Clocked s) (hr : Restarted s s') : Clocked s' := by
  refine ⟨by rw [hr.initialRetransmissionTimeout]; exact h.initial, ?_⟩
  rw [hr.initialRetransmissionTimeout, hr.timer]
  exact RetransmissionTimer.onTime_anew h.initial rfl rfl

/-- The timeout after the timer expired. -/
theorem Clocked.expired (h : Clocked s) :
    ((s.retransmissionTimer.setTimeout s.nextRto).setAccumulateTime 0).OnTime
      s.initialRetransmissionTimeout := by
  unfold nextRto
  split
  · obtain ⟨k, hk⟩ := h.onTime.rto
    refine ⟨⟨k + 1, ?_⟩, Or.inl rfl⟩
    change s.retransmissionTimer.rto * 2 % Word.size = _
    rw [hk, Nat.mod_mul_mod, Nat.pow_succ, Nat.mul_assoc]
  · exact RetransmissionTimer.onTime_anew h.initial rfl rfl

/-- Every event keeps the timer on time. -/
theorem clocked_step (h : Clocked s) (ht : Timed s) {e : SenderEvent}
    (hs : s.step e = some s') : Clocked s' := by
  cases e with
  | write data =>
    obtain rfl := Option.some.inj hs
    exact ⟨h.initial, h.onTime⟩
  | endInput =>
    obtain rfl := Option.some.inj hs
    exact ⟨h.initial, h.onTime⟩
  | fillWindow => exact h.armed ht (fillLoop_armed _ s hs)
  | ackReceived ackno w =>
    obtain rfl := Option.some.inj hs
    rcases ackReceived_cases ht ackno w with heq | hr
    · rw [heq]
      exact ⟨h.initial, h.onTime⟩
    · exact h.restarted hr
  | tick ms =>
    cases hout : s.outstandingSegments with
    | nil =>
      obtain rfl : s = s' := Option.some.inj ((tick_idle ht hout ms).symm.trans hs)
      exact h
    | cons oldest rest =>
      rcases Nat.lt_or_ge (Word.add s.retransmissionTimer.accumulateTime ms)
        s.retransmissionTimer.rto with hlt | hge
      · obtain rfl := Option.some.inj ((tick_waits ht (by simp [hout]) hlt).symm.trans hs)
        exact ⟨h.initial, h.onTime.rto, Or.inr hlt⟩
      · obtain rfl := Option.some.inj ((tick_expires ht hout hge).symm.trans hs)
        exact ⟨h.initial, h.expired⟩
  | sendEmptySegment =>
    obtain rfl := Option.some.inj hs
    exact ⟨h.initial, h.onTime⟩

/-- The window of an acknowledgment has 16 bits. -/
theorem Moved.window_lt {e : SenderEvent} (h : Moved s e s') (hw : s.receiverWindowSize < 2 ^ 16) :
    s'.receiverWindowSize < 2 ^ 16 := by
  cases h with
  | write data => exact hw
  | endInput => exact hw
  | filled hem _ => rwa [hem.unchanged Emitted.receiverWindowSize]
  | rejected _ => exact hw
  | acked _ hack =>
    rw [hack.receiverWindowSize]
    exact UInt16.toNat_lt _
  | waited hun _ => rwa [hun.receiverWindowSize]
  | resent hun _ _ => rwa [hun.receiverWindowSize]
  | empty hun _ => rwa [hun.receiverWindowSize]

/-! ## The sender moves on -/

/-- With nothing outstanding, everything that was sent is acknowledged. -/
theorem Queue.ack_eq_next (h : Queue isn s) (hout : s.outstandingSegments = []) :
    s.receiverAck = s.nextSeqnoAbsolute := by
  have htiles := h.tiles
  rwa [hout, tiles_nil] at htiles

/-- Between two states with the same counters nothing was emitted and nothing was retired. -/
theorem Queue.outstanding_eq {e : SenderEvent} (h : Queue isn s) (h' : Queue isn s')
    (hs : Moved s e s') (hack : s'.receiverAck = s.receiverAck)
    (hnext : s'.nextSeqnoAbsolute = s.nextSeqnoAbsolute) :
    s'.outstandingSegments = s.outstandingSegments := by
  have hsum := tiles_sum h.tiles
  have htiles' := h'.tiles
  have hsum' := tiles_sum htiles'
  rw [hack, hnext] at htiles' hsum'
  cases hs with
  | write data => rfl
  | endInput => rfl
  | filled hem _ =>
    rw [hem.pushed Emitted.outstandingSegments] at htiles' ⊢
    obtain ⟨m, hold, hnews⟩ := tiles_append.mp htiles'
    have := tiles_sum hold
    rw [(tiles_eq_nil_iff hnews).mpr (by omega), List.append_nil]
  | rejected _ => rfl
  | acked _ hacked =>
    obtain ⟨gone, hgone⟩ := retire_suffix s.isn s.nextSeqnoAbsolute _ s.outstandingSegments
      s.receiverAck false
    rw [← hacked.outstandingSegments] at hgone
    have htiles := h.tiles
    rw [← hgone] at htiles
    obtain ⟨m, hretired, hkept⟩ := tiles_append.mp htiles
    have := tiles_sum hkept
    rw [← hgone, (tiles_eq_nil_iff hretired).mpr (by omega), List.nil_append]
  | waited hun _ => exact hun.outstandingSegments
  | resent hun _ _ => exact hun.outstandingSegments
  | empty hun _ => exact hun.outstandingSegments

/-- **An acknowledgment for the oldest outstanding segment retires it.** -/
theorem Queue.ackReceived_lt (h : Queue isn s)
    (hnear : s.nextSeqnoAbsolute ≤ s.receiverAck + 2 ^ 31) (hlt : s.nextSeqnoAbsolute < 2 ^ 63)
    {seg : TCPSegment} {rest : List TCPSegment} (hq : s.outstandingSegments = seg :: rest) {a : Nat}
    (ha : s.receiverAck + seg.lengthInSequenceSpace ≤ a) (hnext : a ≤ s.nextSeqnoAbsolute)
    (w : UInt16) : s.receiverAck < (s.ackReceived (wrap a isn) w).receiverAck := by
  obtain rfl := h.isn_eq
  have hun : unwrap (wrap a s.isn) s.isn s.nextSeqnoAbsolute = a :=
    unwrap_wrap a _ s.isn (by omega) (by omega) (by omega)
  have haccepts : s.Accepts (unwrap (wrap a s.isn) s.isn s.nextSeqnoAbsolute) := by
    rw [hun]
    exact ⟨hnext, by omega⟩
  have hacked := ackReceived_of_accepts w haccepts
  have htiles := h.tiles
  rw [hun] at hacked
  rw [hq] at htiles
  have hend := htiles.1.end_eq hlt hnear (by omega) (by rw [Word.size_eq]; omega)
  have hpos := htiles.2.1
  rw [hacked.receiverAck, hq, retire]
  simp only [hend, if_pos ha]
  refine Nat.lt_of_lt_of_le ?_ (retire_tiles hlt rest _ true (by omega) htiles.2.2).1
  omega

theorem Emits.next_le {news : List TCPSegment} (h : Emits s news s') :
    s.nextSeqnoAbsolute ≤ s'.nextSeqnoAbsolute := by
  refine h.invariant (I := fun _ u => s.nextSeqnoAbsolute ≤ u.nextSeqnoAbsolute) ?_ []
    (Nat.le_refl _)
  intro _ u seg u' hu he
  rw [he.next]
  omega

/-- **A call of `fill_window`** sends something new, or there is nothing to send. -/
theorem fillWindow_moves (hs : s.fillWindow = some s') :
    s.nextSeqnoAbsolute < s'.nextSeqnoAbsolute ∨ s' = s ∧ s.Filled := by
  obtain ⟨u, news, hfill, hem, -⟩ := fillWindow_spec s
  obtain rfl : u = s' := Option.some.inj (hfill.symm.trans hs)
  cases hem with
  | nil => exact Or.inr ⟨rfl, fillLoop_filled _ _ hs⟩
  | cons he hrest =>
    have hpos := he.pos
    have hfirst := he.next
    have hle := hrest.next_le
    exact Or.inl (by omega)

/-- From inside the window a call stays inside. -/
theorem fillWindow_inside (h : WellFormed s) (hs : s.fillWindow = some s')
    (hin : s.nextSeqnoAbsolute ≤ s.receiverAck + s.windowSize) :
    s'.nextSeqnoAbsolute ≤ s.receiverAck + s.windowSize := by
  obtain ⟨u, news, hfill, hem, -⟩ := fillWindow_spec s
  obtain rfl : u = s' := Option.some.inj (hfill.symm.trans hs)
  exact tiles_end_le (Traced.emits_inside h hem hin) hin (fun _ _ hat => hat.2)

end TCPSender

/-! ## The receiver moves on -/

namespace TCPReceiver

theorem currentAck_of_some {t : TCPReceiver} {isn : WrappingInt32} (h : t.isn = some isn) :
    t.currentAck = t.absAckno := by
  rw [currentAck, h]
  rfl

theorem currentAck_of_none {t : TCPReceiver} (h : t.isn = none) : t.currentAck = 0 := by
  rw [currentAck, h]
  rfl

/-- Only segments move the count of bytes written, and only up. -/
theorem step_written {t t' : TCPReceiver} (h : Sound t) {e : ReceiverEvent}
    (he : MachineSegment e) (hs : t.step e = some t') :
    t.streamOut.bytesWritten ≤ t'.streamOut.bytesWritten := by
  obtain ⟨f, hf⟩ := h.assembled
  cases e with
  | segment seg =>
    cases hisn : t.isnAfter seg with
    | none =>
      obtain rfl : t = t' := by simpa [step, segmentReceived, hisn] using hs
      exact Nat.le_refl _
    | some isn =>
      obtain ⟨r, hrec, hspec⟩ := segmentReceived_pushed hf he hisn
      obtain rfl := Option.some.inj (hrec.symm.trans hs)
      obtain ⟨bytes, -, hw, -⟩ := hspec.written
      simp only [streamOut, hw]
      omega
  | read len =>
    rw [step_read] at hs
    obtain rfl := Option.some.inj hs
    exact (t.streamOut.popOutput_bytesWritten len).ge
  | pop len =>
    obtain rfl := Option.some.inj hs
    exact (t.streamOut.popOutput_bytesWritten len).ge

/-- The initial sequence number stays. -/
theorem step_isn {t t' : TCPReceiver} {isn : WrappingInt32} (h : t.isn = some isn)
    {e : ReceiverEvent} (hs : t.step e = some t') : t'.isn = some isn := by
  cases e with
  | segment seg =>
    rw [step, segmentReceived_eq (isnAfter_of_some h), Option.map_eq_some_iff] at hs
    obtain ⟨r, -, rfl⟩ := hs
    rfl
  | read len =>
    rw [step_read] at hs
    obtain rfl := Option.some.inj hs
    exact h
  | pop len =>
    obtain rfl := Option.some.inj hs
    exact h

/-- **The receiver never takes an acknowledgment back.** -/
theorem step_currentAck {t t' : TCPReceiver} (h : Sound t) {e : ReceiverEvent}
    (he : MachineSegment e) (hs : t.step e = some t') : t.currentAck ≤ t'.currentAck := by
  cases hisn : t.isn with
  | none =>
    rw [currentAck_of_none hisn]
    exact Nat.zero_le _
  | some isn =>
    rw [currentAck_of_some hisn, currentAck_of_some (step_isn hisn hs)]
    exact absAckno_mono (step_written h he hs) (step_reader h he hs).2.2

/-- What a receiver shows is its current acknowledgment. -/
theorem absAckno_of_shows {t : TCPReceiver} {a : Shown} (h : a ∈ t.shows) :
    a.absAckno = t.currentAck := by
  cases hisn : t.isn with
  | none => simp [shows, ackno, hisn] at h
  | some isn =>
    simp only [shows, ackno, hisn, Option.map_some, List.mem_singleton] at h
    rw [h, currentAck_of_some hisn]

theorem isn_of_pos {t : TCPReceiver} (h : 0 < t.currentAck) : ∃ isn, t.isn = some isn := by
  cases hisn : t.isn with
  | none =>
    rw [currentAck_of_none hisn] at h
    omega
  | some isn => exact ⟨isn, rfl⟩

theorem currentAck_of_pos {t : TCPReceiver} (h : 0 < t.currentAck) :
    t.currentAck = t.absAckno := by
  obtain ⟨isn, hisn⟩ := isn_of_pos h
  exact currentAck_of_some hisn

/-- After the SYN the receiver shows a pair. -/
theorem exists_shows {t : TCPReceiver} (h : 0 < t.currentAck) :
    ∃ a ∈ t.shows, a.absAckno = t.currentAck := by
  obtain ⟨isn, hisn⟩ := isn_of_pos h
  refine ⟨⟨t.absAckno, wrap t.absAckno isn, t.windowSize⟩, ?_, (currentAck_of_some hisn).symm⟩
  simp [shows, ackno, hisn]

end TCPReceiver

namespace StreamReassembler

variable {S : List UInt8} {r r' : StreamReassembler} {f : Nat → Option UInt8} {data : List UInt8}
  {index : Nat} {eof : Bool}

/-- A push that covers the next byte, with room for it, writes it. -/
theorem Pushed.writes_next (h : Pushed r f data index eof r') (hr : Window r f)
    (hend : index + data.length < Word.size) (hwin : r.output.bytesRead + r.capacity < Word.size)
    (hroom : r.output.bytesWritten < r.output.bytesRead + r.capacity)
    (hle : index ≤ r.output.bytesWritten) (hlt : r.output.bytesWritten < index + data.length) :
    r.output.bytesWritten < r'.output.bytesWritten := by
  obtain ⟨bytes, -, hw, -⟩ := h.written
  have hsome := (accept_isSome_iff hr hend hwin r.output.bytesWritten).mpr
    (Or.inr ⟨⟨hle, hlt⟩, hroom⟩)
  have hhole := h.assembled.hole
  rcases Nat.eq_zero_or_pos bytes.length with h0 | hpos
  · rw [hw, h0, Nat.add_zero] at hhole
    rw [hhole] at hsome
    cases hsome
  · omega

end StreamReassembler

/-- **A segment that covers the next number moves the receiver on** if there is room for a byte. -/
theorem TakenFrom.absAckno_lt {S : List UInt8} {isn : WrappingInt32} {p : Nat} {seg : TCPSegment}
    (h : TakenFrom S isn p seg) {t t' : TCPReceiver} {f : Nat → Option UInt8}
    (hf : StreamReassembler.Follows S t.reassembler f) (hisn : t.isn = some isn) (hn : Near t p)
    (hS : S.length + 2 ^ 31 ≤ 2 ^ 63) (hopen : ¬ t.streamOut.inputEnded = true)
    (hroom : t.streamOut.buffer.length < t.reassembler.capacity)
    (hle : p ≤ t.absAckno) (hlt : t.absAckno < p + seg.lengthInSequenceSpace)
    (hs : t.segmentReceived seg = some t') : t.absAckno < t'.absAckno := by
  obtain ⟨r, -, hrec, hpush, hf'⟩ :=
    h.segmentReceived_spec hf (TCPReceiver.isnAfter_of_some hisn) hn hS
  obtain rfl := Option.some.inj (hrec.symm.trans hs)
  have hW := hf.assembled.bytesWritten_le_of_agrees hf.agrees
  have hW' := hf'.assembled.bytesWritten_le_of_agrees hf'.agrees
  have hbal := t.reassembler.output.bytesWritten_eq
  obtain ⟨bytes, -, hwritten, -⟩ := hpush.written
  have habs : t.absAckno = t.reassembler.output.bytesWritten + 1 := by
    rw [TCPReceiver.absAckno, if_neg hopen]
    rfl
  -- the segment reaches past the bytes written, with its payload or with the FIN
  have hcover : payloadIndex p seg ≤ t.reassembler.output.bytesWritten ∧
      t.reassembler.output.bytesWritten <
        payloadIndex p seg + seg.payload.length + (if seg.header.fin then 1 else 0) := by
    rw [h.payloadIndex_eq]
    rw [TCPSegment.lengthInSequenceSpace] at hlt
    by_cases hsyn : seg.header.syn = true
    · have := h.syn hsyn
      rw [if_pos hsyn] at hlt
      omega
    · have := h.data (by simpa using hsyn)
      rw [if_neg hsyn] at hlt
      omega
  rw [habs]
  change _ < r.output.bytesWritten + 1 + (if r.output.inputEnded then 1 else 0)
  rcases Nat.lt_or_ge t.reassembler.output.bytesWritten (payloadIndex p seg + seg.payload.length)
    with hbyte | hno
  · have hcap := hf.assembled.capacity_le
    have hend := h.end_lt (by omega) (show p < 2 ^ 63 by omega)
    simp only [TCPReceiver.streamOut] at hroom
    have := hpush.writes_next hf.assembled.toWindow hend
      (by simp only [maxSize] at hcap; rw [Word.size_eq]; omega) (by omega) hcover.1 hbyte
    omega
  · have hfin : seg.header.fin = true := by
      by_contra hfin
      rw [if_neg hfin] at hcover
      omega
    have hlast := h.fin hfin
    have hended : r.output.inputEnded = true :=
      hf'.inputEnded.mpr ⟨by rw [hpush.eofFlag, hfin, Bool.true_or], by omega⟩
    rw [if_pos hended]
    omega

namespace System

open TCPSender StreamReassembler

variable {isn : WrappingInt32} {cap : Nat} {c c' : System} {e : SystemEvent}

/-- The oldest number in flight is near the receiver's window. -/
theorem Joint.near_oldest (h : Joint isn c) : Near c.rx c.tx.sender.receiverAck := by
  have hnear := small_near h.small h.sending.queue
  have hnext := h.sending.cuts.next
  have hw := h.receiving.bytesWritten_le
  have hack := h.ack
  have hcur := c.rx.currentAck_le_absAckno
  have habs : c.rx.absAckno ≤ c.rx.streamOut.bytesWritten + 2 := by
    unfold TCPReceiver.absAckno
    split <;> omega
  exact ⟨by omega, by omega⟩

/-- A receiver that has signalled the end has acknowledged everything. -/
theorem Joint.currentAck_of_ended (h : Joint isn c) (hended : c.rx.streamOut.inputEnded = true)
    (hisn : c.rx.isn = some isn) : c.tx.sender.nextSeqnoAbsolute ≤ c.rx.currentAck := by
  have hw := (h.whole hended).1
  have hnext := next_le_of_cuts h.sending.cuts
  rw [TCPReceiver.currentAck_of_some hisn, TCPReceiver.absAckno, if_pos hended]
  omega

/-- **The oldest outstanding segment moves the receiver on** if it is not known already and, after
the SYN, there is room for a byte. -/
theorem Joint.deliver_oldest (h : Joint isn c) {seg : TCPSegment} {rest : List TCPSegment}
    (hq : c.tx.sender.outstandingSegments = seg :: rest)
    (hroom : 0 < c.rx.currentAck → c.rx.streamOut.buffer.length < c.rx.reassembler.capacity)
    (hlt : c.rx.currentAck < c.tx.sender.receiverAck + seg.lengthInSequenceSpace) {rx : TCPReceiver}
    (hs : c.rx.segmentReceived seg = some rx) : c.rx.currentAck < rx.currentAck := by
  obtain ⟨hpart, hend⟩ := h.sending.oldest hq
  have ht := hpart.takenFrom
  have hack := h.ack
  have hS : c.tx.accepted.length + 2 ^ 31 ≤ 2 ^ 63 := by
    have := h.small.written
    rw [h.sending.cuts.accepted]
    omega
  obtain ⟨f, hf, -⟩ := h.receiving.follows
  rcases h.receiving.isn_eq with hnone | hsome
  · -- only the SYN starts at 0
    rw [TCPReceiver.currentAck_of_none hnone] at hack ⊢
    have hsyn : seg.header.syn = true := by
      rcases hpart.body with ⟨-, hsyn, -⟩ | ⟨hp, -⟩
      · exact hsyn
      · omega
    obtain ⟨r, -, hrec, -⟩ := ht.segmentReceived_spec hf
      (ht.isnAfter_eq (Or.inl hnone) (fun _ => hsyn)) h.near_oldest hS
    obtain rfl := Option.some.inj (hrec.symm.trans hs)
    exact Nat.lt_of_lt_of_le (Nat.succ_pos _) (Nat.le_add_right _ _)
  · have hopen : ¬ c.rx.streamOut.inputEnded = true := fun hended => by
      have := h.currentAck_of_ended hended hsome
      omega
    rw [TCPReceiver.currentAck_of_some hsome] at hack hroom hlt ⊢
    have hstep := ht.absAckno_lt hf hsome h.near_oldest hS hopen
      (hroom (Nat.lt_of_lt_of_le (Nat.succ_pos _) (Nat.le_add_right _ _))) hack hlt hs
    have hisn : rx.isn = some isn := by
      obtain ⟨r, -, hrec, -⟩ := ht.segmentReceived_spec hf
        (TCPReceiver.isnAfter_of_some hsome) h.near_oldest hS
      rw [← Option.some.inj (hrec.symm.trans hs)]
    rwa [TCPReceiver.currentAck_of_some hisn]

/-! ## What every run keeps -/

/-- The invariant of the composed system, with the clock of the timer, the 16 bits of the window,
the sender's stream without error and the capacity of the receiver. -/
structure Live (isn : WrappingInt32) (cap : Nat) (c : System) : Prop where
  joint : Joint isn c
  timed : Timed c.tx.sender
  clocked : Clocked c.tx.sender
  window : c.tx.sender.receiverWindowSize < 2 ^ 16
  error : c.tx.sender.stream.error = false
  capacity : c.rx.reassembler.capacity = cap

theorem live_new {sendCapacity : Nat} {retxTimeout : UInt16}
    (h : new sendCapacity retxTimeout isn cap = some c) : Live isn cap c := by
  have hjoint := joint_new h
  obtain ⟨rx, hrx, rfl⟩ := Option.map_eq_some_iff.mp h
  obtain ⟨-, rfl⟩ := TCPReceiver.new_eq_some hrx
  exact ⟨hjoint, timed_new _ _ _, clocked_new _ _ _, show 1 < 2 ^ 16 by decide, rfl, rfl⟩

end System

/-- The application neither writes nor ends its input. -/
def SenderEvent.Quiet : SenderEvent → Prop
  | .write _ => False
  | .endInput => False
  | _ => True

def SystemEvent.Quiet : SystemEvent → Prop
  | .sender e => e.Quiet
  | _ => True

namespace System

open TCPSender StreamReassembler

variable {isn : WrappingInt32} {cap : Nat} {c c' : System} {e : SystemEvent}

/-- Everything pushed is short enough for a string. -/
theorem Joint.payload_le (h : Joint isn c) {x : Nat × TCPSegment} (hx : x ∈ c.tx.sent) :
    x.2.payload.length ≤ maxSize := by
  have hwithin := (h.sending.wire x hx).within
  have hlt := h.small.next
  rw [TCPSegment.lengthInSequenceSpace] at hwithin
  simp only [maxSize]
  omega

/-- An event is a step of the sender or a step of the receiver. -/
theorem step_cases (h : Joint isn c) (hp : c.Permitted e) (hs : c.step e = some c') :
    (∃ e' tx, c.tx.step e' = some tx ∧ c' = { c with tx := tx } ∧ (e.Quiet → e'.Quiet) ∧
      ∀ ms, e = .sender (.tick ms) ↔ e' = .tick ms) ∨
    (∃ e' rx bytes, c.rx.step e' = some rx ∧ c' = c.receive rx bytes ∧
      TCPReceiver.MachineSegment e' ∧ ∀ e', e ≠ .sender e') := by
  cases e with
  | sender e =>
    rw [step, Option.map_eq_some_iff] at hs
    obtain ⟨tx, htx, rfl⟩ := hs
    exact Or.inl ⟨e, tx, htx, rfl, id, by simp⟩
  | ack a =>
    rw [step, Option.map_eq_some_iff] at hs
    obtain ⟨tx, htx, rfl⟩ := hs
    exact Or.inl ⟨_, tx, htx, rfl, fun _ => trivial, by simp⟩
  | deliver p seg =>
    rw [step, Option.map_eq_some_iff] at hs
    obtain ⟨rx, hrx, rfl⟩ := hs
    exact Or.inr ⟨_, rx, [], hrx, rfl, h.payload_le hp, by simp⟩
  | read len =>
    rw [step, Option.map_eq_some_iff] at hs
    obtain ⟨rx, hrx, rfl⟩ := hs
    exact Or.inr ⟨_, rx, _, hrx, rfl, trivial, by simp⟩
  | pop len =>
    rw [step, Option.map_eq_some_iff] at hs
    obtain ⟨rx, hrx, rfl⟩ := hs
    exact Or.inr ⟨_, rx, _, hrx, rfl, trivial, by simp⟩

theorem live_step (h : Live isn cap c) (hs : c.step e = some c') (ha : c.Assumed e c') :
    Live isn cap c' := by
  have hjoint := joint_of_path h.joint (Path.single hs ha)
  rcases step_cases h.joint ha.1 hs with ⟨e', tx, htx, rfl, -⟩ | ⟨e', rx, bytes, hrx, rfl, he, -⟩
  · obtain ⟨s', hs', rfl⟩ := Option.map_eq_some_iff.mp htx
    have hmv := moved_of_step h.joint.sending.queue.toWellFormed hs'
    refine ⟨hjoint, ?_, ?_, ?_, ?_, h.capacity⟩
    · rw [Traced.record_sender]
      exact timed_step h.timed hs'
    · rw [Traced.record_sender]
      exact clocked_step h.clocked h.timed hs'
    · rw [Traced.record_sender]
      exact hmv.window_lt h.window
    · rw [Traced.record_sender]
      exact (step_keeps h.timed hs').2.trans h.error
  · have hreader := TCPReceiver.step_reader h.joint.receiving.sound he hrx
    exact ⟨hjoint, h.timed, h.clocked, h.window, h.error, hreader.1.trans h.capacity⟩

theorem live_of_path {c₀ : System} {es : List SystemEvent} (h0 : Live isn cap c₀)
    (hp : Path step Assumed c₀ es c) : Live isn cap c :=
  hp.invariant h0 (fun _ _ _ h hs ha => live_step h hs ha)

/-! ## What no event undoes -/

/-- `c'` comes after `c`, and the application wrote nothing in between. -/
structure Advances (c c' : System) : Prop where
  accepted : c'.tx.accepted = c.tx.accepted
  inputEnded : c'.tx.sender.stream.inputEnded = c.tx.sender.stream.inputEnded
  next : c.tx.sender.nextSeqnoAbsolute ≤ c'.tx.sender.nextSeqnoAbsolute
  receiverAck : c.tx.sender.receiverAck ≤ c'.tx.sender.receiverAck
  currentAck : c.rx.currentAck ≤ c'.rx.currentAck
  bytesWritten : c.rx.streamOut.bytesWritten ≤ c'.rx.streamOut.bytesWritten
  bytesRead : c.rx.streamOut.bytesRead ≤ c'.rx.streamOut.bytesRead
  ended : c.rx.streamOut.inputEnded = true → c'.rx.streamOut.inputEnded = true
  sent : c.tx.sent <+: c'.tx.sent
  shown : ∃ news, c'.shown = c.shown ++ news ∧ ∀ a ∈ news, c.rx.currentAck ≤ a.absAckno

theorem Advances.refl (c : System) : Advances c c :=
  ⟨rfl, rfl, Nat.le_refl _, Nat.le_refl _, Nat.le_refl _, Nat.le_refl _, Nat.le_refl _, id,
    List.prefix_refl _, [], (List.append_nil _).symm, by simp⟩

theorem Advances.trans {c'' : System} (h : Advances c c') (h' : Advances c' c'') :
    Advances c c'' := by
  obtain ⟨news, hnews, hge⟩ := h.shown
  obtain ⟨news', hnews', hge'⟩ := h'.shown
  refine ⟨h'.accepted.trans h.accepted, h'.inputEnded.trans h.inputEnded, h.next.trans h'.next,
    h.receiverAck.trans h'.receiverAck, h.currentAck.trans h'.currentAck,
    h.bytesWritten.trans h'.bytesWritten, h.bytesRead.trans h'.bytesRead,
    fun hend => h'.ended (h.ended hend), h.sent.trans h'.sent, news ++ news', ?_, ?_⟩
  · rw [hnews', hnews, List.append_assoc]
  · intro a ha
    rcases List.mem_append.mp ha with ha | ha
    · exact hge a ha
    · exact h.currentAck.trans (hge' a ha)

/-- The sender makes a step in which nothing is written. -/
theorem Joint.advances_sender (h : Joint isn c) {e : SenderEvent} {tx : Traced}
    (hs : c.tx.step e = some tx) (hq : e.Quiet) : Advances c { c with tx := tx } := by
  have hlt := h.small.next
  obtain ⟨s', hmv, rfl⟩ := Traced.step_eq h.sending.queue.toWellFormed hs
  obtain ⟨-, hack, hnext⟩ := h.sending.queue.moved (small_near h.small h.sending.queue)
    (by omega) hmv
  refine ⟨?_, ?_, by simpa using hnext, by simpa using hack, Nat.le_refl _, Nat.le_refl _,
    Nat.le_refl _, id, ?_, [], (List.append_nil _).symm, by simp⟩
  · cases e with
    | write data => exact hq.elim
    | _ => rfl
  · rw [Traced.record_sender]
    cases hmv with
    | write data => exact hq.elim
    | endInput => exact hq.elim
    | filled hem _ => exact hem.unchanged (f := fun u => u.stream.inputEnded) Emitted.inputEnded
    | rejected _ => rfl
    | acked _ hacked => rw [hacked.stream]
    | waited hun _ => rw [hun.stream]
    | resent hun _ _ => rw [hun.stream]
    | empty hun _ => rw [hun.stream]
  · cases e with
    | write data => exact hq.elim
    | endInput => exact hq.elim
    | ackReceived ackno w => exact List.prefix_refl _
    | _ => exact List.prefix_append _ _

/-- **What no event undoes**, while nothing is written. -/
theorem Live.advances (h : Live isn cap c) (hs : c.step e = some c') (ha : c.Assumed e c')
    (hq : e.Quiet) : Advances c c' := by
  rcases step_cases h.joint ha.1 hs with ⟨e', tx, htx, rfl, hq', -⟩ |
    ⟨e', rx, bytes, hrx, rfl, he, -⟩
  · exact h.joint.advances_sender htx (hq' hq)
  · have hsound := h.joint.receiving.sound
    obtain ⟨-, hread, hended⟩ := TCPReceiver.step_reader hsound he hrx
    have hcur := TCPReceiver.step_currentAck hsound he hrx
    refine ⟨rfl, rfl, Nat.le_refl _, Nat.le_refl _, hcur, TCPReceiver.step_written hsound he hrx,
      ?_, hended, List.prefix_refl _, rx.shows, rfl, fun a ha => ?_⟩
    · change _ ≤ rx.streamOut.bytesRead
      omega
    · rw [TCPReceiver.absAckno_of_shows ha]
      exact hcur

/-! ## The end of a transfer -/

/-- Everything that was accepted has been read at the other end, and nothing is left to do. -/
structure Delivered (c : System) : Prop where
  taken : c.taken = c.tx.accepted
  unsent : c.tx.sender.stream.buffer = []
  inFlight : c.tx.sender.bytesInFlight = 0
  eof : c.rx.streamOut.eof = c.tx.sender.stream.inputEnded
  finAcked : c.tx.sender.stream.inputEnded = true → c.tx.sender.stateSummary = .finAcked

/-- A receiver that has acknowledged all that can be sent has written all of it. -/
theorem Joint.all_written (h : Joint isn c)
    (hall : c.rx.currentAck = 1 + c.tx.accepted.length +
      (if c.tx.sender.stream.inputEnded then 1 else 0)) :
    c.rx.streamOut.bytesWritten = c.tx.accepted.length ∧
      c.rx.streamOut.inputEnded = c.tx.sender.stream.inputEnded := by
  obtain ⟨f, hf, -⟩ := h.receiving.follows
  have hle : c.rx.streamOut.bytesWritten ≤ c.tx.accepted.length :=
    hf.assembled.bytesWritten_le_of_agrees hf.agrees
  have hcur := c.rx.currentAck_le_absAckno
  unfold TCPReceiver.absAckno at hcur
  cases hended : c.rx.streamOut.inputEnded with
  | true =>
    have hfin := h.receiving.fin (hf.inputEnded.mp hended).1
    exact ⟨(hf.inputEnded.mp hended).2, (h.sending.cuts.sent_all hfin).1.symm⟩
  | false =>
    simp only [hended, Bool.false_eq_true, if_false] at hcur
    cases hin : c.tx.sender.stream.inputEnded with
    | true =>
      rw [hin, if_pos rfl] at hall
      omega
    | false =>
      rw [hin, if_neg Bool.false_ne_true] at hall
      exact ⟨by omega, rfl⟩

/-- With nothing outstanding and nothing to send, everything has been sent and acknowledged. -/
theorem Live.acked_all (h : Live isn cap c) (hout : c.tx.sender.outstandingSegments = [])
    (hfilled : c.tx.sender.Filled) : c.tx.sender.receiverAck =
      1 + c.tx.accepted.length + (if c.tx.sender.stream.inputEnded then 1 else 0) := by
  have hack := h.joint.sending.queue.ack_eq_next hout
  rw [hack]
  refine (h.joint.sending.cuts.sent_all_of_filled hfilled ?_).1
  rw [bytesInFlight_eq h.joint.sending.queue.toWellFormed, hack, Nat.sub_self]

/-- **Everything sent and acknowledged, nothing to read: everything has been delivered.** -/
theorem Live.delivered (h : Live isn cap c) (hack : c.tx.sender.receiverAck =
      1 + c.tx.accepted.length + (if c.tx.sender.stream.inputEnded then 1 else 0))
    (hread : c.rx.streamOut.buffer = []) : Delivered c := by
  have hcuts := h.joint.sending.cuts
  have haccepted := hcuts.accepted
  have hbal := c.tx.sender.stream.bytesWritten_eq
  have hge := h.joint.ack
  have hle := h.joint.receiving.currentAck_le hcuts
  have hcount := hcuts.next
  have hbound : c.tx.sender.nextSeqnoAbsolute ≤
      1 + c.tx.accepted.length + (if c.tx.sender.stream.inputEnded then 1 else 0) := by
    cases hin : c.tx.sender.stream.inputEnded with
    | true =>
      have := next_le_of_cuts hcuts
      simp only [if_true]
      omega
    | false =>
      rw [hcuts.fin_unsent hin, if_neg Bool.false_ne_true] at hcount
      rw [if_neg Bool.false_ne_true]
      split at hcount <;> omega
  have hnext : c.tx.sender.nextSeqnoAbsolute = c.tx.sender.receiverAck := by omega
  have hflight : c.tx.sender.bytesInFlight = 0 := by
    rw [bytesInFlight_eq h.joint.sending.queue.toWellFormed, hnext, Nat.sub_self]
  obtain ⟨hwritten, hended⟩ := h.joint.all_written (by omega)
  have hunsent : c.tx.sender.stream.buffer = [] := by
    rw [← List.length_eq_zero_iff]
    cases hin : c.tx.sender.stream.inputEnded with
    | true =>
      rw [hin, if_pos rfl] at hack
      split at hcount <;> split at hcount <;> omega
    | false =>
      rw [hin, if_neg Bool.false_ne_true] at hack
      rw [hcuts.fin_unsent hin, if_neg Bool.false_ne_true] at hcount
      split at hcount <;> omega
  refine ⟨?_, hunsent, hflight, ?_, fun hin => ?_⟩
  · have htaken := h.joint.receiving.taken
    rwa [hread, List.append_nil, hwritten, List.take_length] at htaken
  · rw [ByteStream.eof, hread, List.isEmpty_nil, Bool.true_and]
    exact hended
  · have heof := (ByteStream.eof_iff _).mpr ⟨hunsent, hin⟩
    rw [hin, if_pos rfl] at hack
    rw [stateSummary, h.error, if_neg Bool.false_ne_true, if_neg (by omega),
      if_neg (by omega), heof, if_neg (by simp), if_neg (by omega), if_neg (by simp [hflight])]

end System

end Sponge
