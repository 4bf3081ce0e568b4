import Sponge.Lib.Endless
import Sponge.Progress

/-!
# Delivery over a fair network

`fair_delivery`: when the application writes nothing more, time passes, `fill_window` is called
again and again, the reader keeps reading and the network delivers again and again what is sent
again and again, then from some point on everything that was accepted has been read at the other
end.  The network may still lose, duplicate, delay and reorder.

The four counters of a transfer only grow and are bounded, so from some point on they stand still.
With a segment outstanding the timer would go on expiring (`expires_again`), and the segment or its
acknowledgment would move one of them.
-/

namespace Sponge

open Tiling Transition

namespace TCPSender

variable {s s' : TCPSender}

/-- What an event does to a timer that runs, if it retires nothing and sends nothing new. -/
theorem timer_step (h : Timed s) {e : SenderEvent} (hs : s.step e = some s') {seg : TCPSegment}
    {rest : List TCPSegment} (hq : s.outstandingSegments = seg :: rest)
    (hsame : s'.outstandingSegments = s.outstandingSegments) :
    (∀ ms, e ≠ .tick ms) ∧ s'.retransmissionTimer = s.retransmissionTimer ∨
    ∃ ms, e = .tick ms ∧
      (Word.add s.retransmissionTimer.accumulateTime ms < s.retransmissionTimer.rto ∧
          s'.retransmissionTimer = s.retransmissionTimer.setAccumulateTime
            (Word.add s.retransmissionTimer.accumulateTime ms) ∨
        s'.segmentsOut = s.segmentsOut ++ [seg]) := by
  cases e with
  | write data =>
    obtain rfl := Option.some.inj hs
    exact Or.inl ⟨by simp, rfl⟩
  | endInput =>
    obtain rfl := Option.some.inj hs
    exact Or.inl ⟨by simp, rfl⟩
  | fillWindow =>
    refine Or.inl ⟨by simp, ?_⟩
    rcases (fillLoop_armed _ s hs).timer with ⟨-, htimer⟩ | ⟨-, htimer⟩
    · exact htimer
    · rw [htimer, RetransmissionTimer.startTimer_of_running (h.running.mpr (by simp [hq]))]
  | ackReceived ackno w =>
    obtain rfl := Option.some.inj hs
    refine Or.inl ⟨by simp, ?_⟩
    rcases ackReceived_cases h ackno w with heq | hr
    · rw [heq]
    · have := hr.shorter
      rw [hsame] at this
      omega
  | tick ms =>
    refine Or.inr ⟨ms, rfl, ?_⟩
    rcases Nat.lt_or_ge (Word.add s.retransmissionTimer.accumulateTime ms)
      s.retransmissionTimer.rto with hlt | hge
    · obtain rfl := Option.some.inj ((tick_waits h (by simp [hq]) hlt).symm.trans hs)
      exact Or.inl ⟨hlt, rfl⟩
    · obtain rfl := Option.some.inj ((tick_expires h hq hge).symm.trans hs)
      exact Or.inr rfl
  | sendEmptySegment =>
    obtain rfl := Option.some.inj hs
    exact Or.inl ⟨by simp, rfl⟩

end TCPSender

/-! ## What the environment owes -/

/-- The application writes nothing more.  Time passes in ticks of at least a millisecond, none of
which is longer than `2 ^ 48` milliseconds; `fill_window` is called again and again.  A segment
that is pushed again and again arrives again and again; if pairs are shown again and again, then
after any point in time a pair arrives that was shown after it.  The reader takes something as long
as there is something to read. -/
structure Fair {c : System} (r : Endless System.step System.Assumed c) : Prop where
  quiet : ∀ i, (r.event i).Quiet
  ticks : Often fun i => ∃ ms, 1 ≤ ms ∧ r.event i = .sender (.tick ms)
  tick_lt : ∀ i ms, r.event i = .sender (.tick ms) → ms < 2 ^ 48
  fills : Often fun i => r.event i = .sender .fillWindow
  segments : ∀ p seg,
    (Often fun i => (p, seg) ∈ (r.state (i + 1)).tx.sent.drop (r.state i).tx.sent.length) →
      Often fun i => r.event i = .deliver p seg
  acks : (Often fun i => (r.state i).shown.length < (r.state (i + 1)).shown.length) →
    ∀ i, ∃ j, i ≤ j ∧ ∃ a ∈ (r.state j).shown.drop (r.state i).shown.length, r.event j = .ack a
  reader : ∀ i, ∃ j, i ≤ j ∧ ((r.state j).rx.streamOut.buffer = [] ∨
    (r.state i).rx.streamOut.bytesRead < (r.state j).rx.streamOut.bytesRead)

namespace System

open TCPSender

variable {isn : WrappingInt32} {cap : Nat} {c : System}

/-- The counters of a transfer stand where they stood. -/
structure Same (c c' : System) : Prop where
  next : c'.tx.sender.nextSeqnoAbsolute = c.tx.sender.nextSeqnoAbsolute
  receiverAck : c'.tx.sender.receiverAck = c.tx.sender.receiverAck
  currentAck : c'.rx.currentAck = c.rx.currentAck
  bytesRead : c'.rx.streamOut.bytesRead = c.rx.streamOut.bytesRead

/-- What is left to do: numbers to send, to retire and to acknowledge, and bytes to read. -/
def left (c : System) : Nat :=
  4 * (c.tx.accepted.length + 2) - c.tx.sender.nextSeqnoAbsolute - c.tx.sender.receiverAck -
    c.rx.currentAck - c.rx.streamOut.bytesRead

theorem Joint.left_add (h : Joint isn c) :
    c.left + c.tx.sender.nextSeqnoAbsolute + c.tx.sender.receiverAck + c.rx.currentAck +
      c.rx.streamOut.bytesRead = 4 * (c.tx.accepted.length + 2) := by
  have hnext := next_le_of_cuts h.sending.cuts
  have hcur := h.receiving.currentAck_le h.sending.cuts
  have hack := h.ack
  have hread := h.receiving.bytesWritten_le
  have hcount := h.sending.cuts.next
  have hbal := c.rx.streamOut.bytesWritten_eq
  unfold left
  omega

section

variable {r : Endless step Assumed c} (hl : ∀ i, Live isn cap (r.state i)) (hf : Fair r)
include hl hf

theorem advances_between {i j : Nat} (hij : i ≤ j) : Advances (r.state i) (r.state j) :=
  r.between Advances.refl (fun _ _ _ h h' => h.trans h')
    (fun i => (hl i).advances (r.next i) (r.admitted i) (hf.quiet i)) hij

/-- **From some point on the counters stand still.** -/
theorem exists_same : ∃ T, ∀ i, T ≤ i → Same (r.state T) (r.state i) := by
  obtain ⟨T, -, hT⟩ := settles (f := fun i => (r.state i).left) (k := 0) fun i _ => by
    have hadv := advances_between hl hf (show i ≤ i + 1 by omega)
    have h := (hl i).joint.left_add
    have h' := (hl (i + 1)).joint.left_add
    rw [hadv.accepted] at h'
    have := hadv.next
    have := hadv.receiverAck
    have := hadv.currentAck
    have := hadv.bytesRead
    omega
  refine ⟨T, fun i hi => ?_⟩
  have hadv := advances_between hl hf hi
  have h := (hl T).joint.left_add
  have h' := (hl i).joint.left_add
  rw [hT i hi, hadv.accepted] at h'
  have := hadv.next
  have := hadv.receiverAck
  have := hadv.currentAck
  have := hadv.bytesRead
  constructor <;> omega

variable {T : Nat} (hT : ∀ i, T ≤ i → Same (r.state T) (r.state i))
include hT

omit hf in
/-- Then nothing is emitted and nothing is retired. -/
theorem outstanding_same {i : Nat} (hi : T ≤ i) :
    (r.state i).tx.sender.outstandingSegments = (r.state T).tx.sender.outstandingSegments := by
  induction hi with
  | refl => rfl
  | @step i hi ih =>
    rw [← ih]
    have hsame := hT i hi
    have hsame' := hT (i + 1) (Nat.le_succ_of_le hi)
    rcases step_cases (hl i).joint (r.admitted i).1 (r.next i) with ⟨e, tx, htx, heq, -⟩ |
      ⟨e, rx, bytes, -, heq, -⟩
    · obtain ⟨s', hmv, rfl⟩ := Traced.step_eq (hl i).joint.sending.queue.toWellFormed htx
      have hqueue := (hl (i + 1)).joint.sending.queue
      have hnext := hsame'.next.trans hsame.next.symm
      have hack := hsame'.receiverAck.trans hsame.receiverAck.symm
      rw [heq] at hqueue hnext hack ⊢
      simp only [Traced.record_sender] at hqueue hnext hack ⊢
      exact (hl i).joint.sending.queue.outstanding_eq hqueue hmv hack hnext
    · rw [heq]
      rfl

/-- An event that does not push the oldest outstanding segment again leaves the timer alone, or it
is a tick that the timer counts. -/
theorem counts_or_keeps {seg : TCPSegment} {rest : List TCPSegment}
    (hq : (r.state T).tx.sender.outstandingSegments = seg :: rest) {i : Nat} (hi : T ≤ i)
    (hno : ((r.state T).tx.sender.receiverAck, seg) ∉
      (r.state (i + 1)).tx.sent.drop (r.state i).tx.sent.length) :
    (∀ ms, r.event i ≠ .sender (.tick ms)) ∧ (r.state (i + 1)).tx.sender.retransmissionTimer =
      (r.state i).tx.sender.retransmissionTimer ∨
    ∃ ms, r.event i = .sender (.tick ms) ∧
      (r.state (i + 1)).tx.sender.retransmissionTimer.rto =
        (r.state i).tx.sender.retransmissionTimer.rto ∧
      (r.state (i + 1)).tx.sender.retransmissionTimer.accumulateTime =
        (r.state i).tx.sender.retransmissionTimer.accumulateTime + ms ∧
      (r.state (i + 1)).tx.sender.retransmissionTimer.accumulateTime <
        (r.state i).tx.sender.retransmissionTimer.rto := by
  have hq' := (outstanding_same hl hT hi).trans hq
  have hsame := outstanding_same hl hT (Nat.le_succ_of_le hi)
  rw [← outstanding_same hl hT hi] at hsame
  rcases step_cases (hl i).joint (r.admitted i).1 (r.next i) with ⟨e, tx, htx, heq, -, htick⟩ |
    ⟨e, rx, bytes, -, heq, -, hno'⟩
  swap
  · rw [heq]
    exact Or.inl ⟨fun ms => hno' _, rfl⟩
  obtain ⟨s', hs', rfl⟩ := Option.map_eq_some_iff.mp htx
  rw [heq] at hsame hno ⊢
  simp only [Traced.record_sender] at hsame hno ⊢
  rcases timer_step (hl i).timed hs' hq' hsame with ⟨hnot, hkeep⟩ | ⟨ms, rfl, hcase⟩
  · exact Or.inl ⟨fun ms hev => hnot ms ((htick ms).mp hev), hkeep⟩
  have hev := (htick ms).mpr rfl
  rcases hcase with ⟨hlt, hset⟩ | hpush
  · -- the sum does not wrap, because the timeout is far from the end of the range
    have hms := hf.tick_lt i ms hev
    have hrto := (hl i).clocked.onTime.rto_le (hl i).clocked.initial
    have hacc : (r.state i).tx.sender.retransmissionTimer.accumulateTime ≤
        (r.state i).tx.sender.retransmissionTimer.rto :=
      (hl i).clocked.onTime.waits.elim (fun h0 => by omega) Nat.le_of_lt
    have hadd := Word.add_of_lt (a := (r.state i).tx.sender.retransmissionTimer.accumulateTime)
      (b := ms) (by rw [Word.size_eq]; omega)
    rw [hadd] at hlt hset
    rw [hset]
    exact Or.inr ⟨ms, hev, rfl, rfl, hlt⟩
  · refine absurd ?_ hno
    simp only [Traced.record, hpush, List.drop_left, positions, (hT i hi).receiverAck,
      List.mem_singleton]

/-- **The timer goes on expiring** while a segment is outstanding. -/
theorem expires_again {seg : TCPSegment} {rest : List TCPSegment}
    (hq : (r.state T).tx.sender.outstandingSegments = seg :: rest) :
    Often fun i => ((r.state T).tx.sender.receiverAck, seg) ∈
      (r.state (i + 1)).tx.sent.drop (r.state i).tx.sent.length := by
  intro k
  by_contra hnone
  have hno : ∀ i, max k T ≤ i → ((r.state T).tx.sender.receiverAck, seg) ∉
      (r.state (i + 1)).tx.sent.drop (r.state i).tx.sent.length :=
    fun i hi hmem => hnone ⟨i, by omega, hmem⟩
  -- the time that is left before the timer expires never grows
  obtain ⟨i, hi, hconst⟩ := settles (k := max k T) (f := fun i =>
      (r.state i).tx.sender.retransmissionTimer.rto -
        (r.state i).tx.sender.retransmissionTimer.accumulateTime) fun i hi => by
    rcases counts_or_keeps hl hf hT hq (by omega) (hno i hi) with ⟨-, hkeep⟩ |
      ⟨ms, -, hrto, hacc, -⟩
    · rw [hkeep]
    · omega
  -- but a tick makes it smaller
  obtain ⟨j, hj, ms, hms, hev⟩ := hf.ticks i
  have hnow := hconst j hj
  have hthen := hconst (j + 1) (by omega)
  rcases counts_or_keeps hl hf hT hq (by omega) (hno j (by omega)) with ⟨hnot, -⟩ |
    ⟨ms', hev', hrto, hacc, hlt⟩
  · exact hnot ms hev
  · obtain rfl : ms = ms' := by simpa [hev] using hev'
    omega

/-- The oldest outstanding segment goes on arriving. -/
theorem arrives_again {seg : TCPSegment} {rest : List TCPSegment}
    (hq : (r.state T).tx.sender.outstandingSegments = seg :: rest) :
    Often fun i => r.event i = .deliver (r.state T).tx.sender.receiverAck seg :=
  hf.segments _ _ (expires_again hl hf hT hq)

/-- After the SYN no more bytes are written, and the reader has read all of them. -/
theorem buffer_empty (hpos : 0 < (r.state T).rx.currentAck) {i : Nat} (hi : T ≤ i) :
    (r.state i).rx.streamOut.buffer = [] := by
  have hwritten : ∀ j, T ≤ j →
      (r.state j).rx.streamOut.bytesWritten = (r.state T).rx.streamOut.bytesWritten := by
    intro j hj
    have hadv := advances_between hl hf hj
    have hcur := (hT j hj).currentAck
    have hended := hadv.ended
    have hmono := hadv.bytesWritten
    have hpos' : 0 < (r.state j).rx.currentAck := hcur ▸ hpos
    rw [TCPReceiver.currentAck_of_pos hpos, TCPReceiver.currentAck_of_pos hpos'] at hcur
    unfold TCPReceiver.absAckno at hcur
    split at hcur <;> split at hcur
    · omega
    · omega
    · rename_i hopen hend
      exact absurd (hended hend) hopen
    · omega
  obtain ⟨j, hj, hempty | hmore⟩ := hf.reader T
  · have hbal := (r.state i).rx.streamOut.bytesWritten_eq
    have hbal' := (r.state j).rx.streamOut.bytesWritten_eq
    rw [hempty, List.length_nil, hwritten j hj, (hT j hj).bytesRead] at hbal'
    rw [hwritten i hi, (hT i hi).bytesRead] at hbal
    exact List.length_eq_zero_iff.mp (by omega)
  · rw [(hT j hj).bytesRead] at hmore
    omega

/-- A segment that is outstanding has been acknowledged: otherwise its arrival would move the
receiver on. -/
theorem oldest_acknowledged (hcap : 0 < cap) {seg : TCPSegment} {rest : List TCPSegment}
    (hq : (r.state T).tx.sender.outstandingSegments = seg :: rest) :
    (r.state T).tx.sender.receiverAck + seg.lengthInSequenceSpace ≤ (r.state T).rx.currentAck := by
  by_contra hlt
  obtain ⟨i, hi, hev⟩ := arrives_again hl hf hT hq T
  have hs := r.next i
  rw [hev, step, Option.map_eq_some_iff] at hs
  obtain ⟨rx, hrecv, heq⟩ := hs
  have hsame := hT i hi
  have hmoved := (hl i).joint.deliver_oldest ((outstanding_same hl hT hi).trans hq)
    (fun hpos => by
      rw [buffer_empty hl hf hT (by rw [← hsame.currentAck]; exact hpos) hi, (hl i).capacity]
      exact hcap)
    (by rw [hsame.currentAck, hsame.receiverAck]; omega) hrecv
  have hsame' := (hT (i + 1) (by omega)).currentAck
  rw [← heq] at hsame'
  have hsame' : rx.currentAck = (r.state T).rx.currentAck := hsame'
  have := hsame.currentAck
  omega

/-- **No segment stays outstanding**: its acknowledgment would arrive and retire it. -/
theorem nothing_outstanding (hcap : 0 < cap) :
    (r.state T).tx.sender.outstandingSegments = [] := by
  cases hq : (r.state T).tx.sender.outstandingSegments with
  | nil => rfl
  | cons seg rest =>
    exfalso
    have hack := oldest_acknowledged hl hf hT hcap hq
    have htiles := (hl T).joint.sending.queue.tiles
    rw [hq] at htiles
    have hpos := htiles.2.1
    -- every arrival of the segment makes the receiver show a pair
    have hshows : Often fun i => (r.state i).shown.length < (r.state (i + 1)).shown.length := by
      intro k
      obtain ⟨i, hi, hev⟩ := arrives_again hl hf hT hq (max k T)
      refine ⟨i, by omega, ?_⟩
      have hs := r.next i
      rw [hev, step, Option.map_eq_some_iff] at hs
      obtain ⟨rx, -, heq⟩ := hs
      have hcur := (hT (i + 1) (by omega)).currentAck
      dsimp only
      rw [← heq] at hcur ⊢
      change rx.currentAck = _ at hcur
      obtain ⟨a, ha, -⟩ := TCPReceiver.exists_shows (t := rx) (by omega)
      have := List.length_pos_of_mem ha
      simp only [System.receive, List.length_append]
      omega
    -- a pair that was shown since the counters stand still acknowledges the segment
    obtain ⟨j, hj, a, ha, hev⟩ := hf.acks hshows T
    have hmem := List.mem_of_mem_drop ha
    have hsame := hT j hj
    obtain ⟨hwrap, hle⟩ := (hl j).joint.shown a hmem
    have hge : (r.state T).rx.currentAck ≤ a.absAckno := by
      obtain ⟨news, hnews, hge⟩ := (advances_between hl hf hj).shown
      rw [hnews, List.drop_left] at ha
      exact hge a ha
    have hcur : a.absAckno = (r.state j).rx.currentAck := by
      have := hsame.currentAck
      omega
    have hsmall := (hl j).joint.small
    have hlt := hsmall.next
    have hretires := (hl j).joint.sending.queue.ackReceived_lt
      (small_near hsmall (hl j).joint.sending.queue) (by omega)
      ((outstanding_same hl hT hj).trans hq) (a := a.absAckno)
      (by rw [hsame.receiverAck]; omega)
      (by rw [hcur]; exact (hl j).joint.receiving.currentAck_le (hl j).joint.sending.cuts)
      (UInt16.ofNat a.windowSize)
    rw [← hwrap] at hretires
    have hs := r.next j
    rw [hev, step, Traced.step, TCPSender.step, Option.map_some, Option.map_some] at hs
    have hack' := (hT (j + 1) (by omega)).receiverAck
    rw [← Option.some.inj hs] at hack'
    simp only [Traced.record_sender] at hack'
    have := hsame.receiverAck
    omega

/-- **Everything has been delivered** once the counters stand still and `fill_window` was called. -/
theorem delivered_after (hcap : 0 < cap) : ∃ k, ∀ i, k ≤ i → (r.state i).Delivered := by
  have hout := nothing_outstanding hl hf hT hcap
  obtain ⟨k, hk, hev⟩ := hf.fills T
  have hs := r.next k
  rw [hev, step, Traced.step, TCPSender.step, Option.map_map, Option.map_eq_some_iff] at hs
  obtain ⟨s', hfill, heq⟩ := hs
  have hfilled : (r.state k).tx.sender.Filled := by
    rcases fillWindow_moves hfill with hgrow | ⟨-, hfilled⟩
    · have hnext := (hT (k + 1) (by omega)).next
      rw [← heq] at hnext
      have := (hT k hk).next
      simp only [Function.comp_apply, Traced.record_sender] at hnext
      omega
    · exact hfilled
  have hall := (hl k).acked_all ((outstanding_same hl hT hk).trans hout) hfilled
  refine ⟨T, fun i hi => ?_⟩
  have hadv := advances_between hl hf hk
  have hadv' := advances_between hl hf hi
  rw [(hT k hk).receiverAck, hadv.accepted, hadv.inputEnded] at hall
  have hpos : 0 < (r.state T).rx.currentAck := by
    have := (hl T).joint.ack
    omega
  refine (hl i).delivered ?_ (buffer_empty hl hf hT hpos hi)
  rw [(hT i hi).receiverAck, hadv'.accepted, hadv'.inputEnded]
  exact hall

end

end System

/-- **Delivery over a fair network.**  Let the composed system be in any state of any run, with a
receiver that has room for a byte at all.  In every infinite continuation that is fair, from some
point on the reader has read exactly what `stream_in()` had accepted, nothing is unsent or in
flight, the receiver is at the end of its stream iff the input had ended, and then the sender is in
the state FIN_ACKED. -/
theorem fair_delivery (sendCapacity : Nat) (retxTimeout : UInt16) (isn : WrappingInt32)
    (recvCapacity : Nat) (hcap : 0 < recvCapacity) (c₀ : System)
    (hnew : System.new sendCapacity retxTimeout isn recvCapacity = some c₀)
    (es : List SystemEvent) (c : System) (hp : Path System.step System.Assumed c₀ es c)
    (r : Endless System.step System.Assumed c) (hf : Fair r) :
    ∃ k, ∀ i, k ≤ i → (r.state i).Delivered ∧ (r.state i).tx.accepted = c.tx.accepted ∧
      (r.state i).tx.sender.stream.inputEnded = c.tx.sender.stream.inputEnded := by
  have hl : ∀ i, System.Live isn recvCapacity (r.state i) :=
    r.invariant (System.live_of_path (System.live_new hnew) hp)
      (fun _ _ _ h hs ha => System.live_step h hs ha)
  obtain ⟨T, hT⟩ := System.exists_same hl hf
  obtain ⟨k, hk⟩ := System.delivered_after hl hf hT hcap
  refine ⟨k, fun i hi => ⟨hk i hi, ?_⟩⟩
  have hadv := System.advances_between hl hf (Nat.zero_le i)
  rw [r.start] at hadv
  exact ⟨hadv.accepted, hadv.inputEnded⟩

/-- A run that comes to rest with nothing to read is fair if the sender is still called. -/
theorem Fair.of_rest {c d : System} {r : Endless System.step System.Assumed c} {n : Nat}
    (hrest : ∀ i, r.state (n + i) = d) (hread : d.rx.streamOut.buffer = [])
    (hquiet : ∀ i, (r.event i).Quiet)
    (hticks : Often fun i => ∃ ms, 1 ≤ ms ∧ r.event i = .sender (.tick ms))
    (htick : ∀ i ms, r.event i = .sender (.tick ms) → ms < 2 ^ 48)
    (hfills : Often fun i => r.event i = .sender .fillWindow) : Fair r := by
  have hat : ∀ i, n ≤ i → r.state i = d := fun i hi => by
    rw [← Nat.add_sub_of_le hi]
    exact hrest _
  refine ⟨hquiet, hticks, htick, hfills, fun p seg hpush => ?_, fun hshow => ?_, fun i => ?_⟩
  · obtain ⟨j, hj, hmem⟩ := hpush n
    rw [hat j hj, hat (j + 1) (by omega), List.drop_length] at hmem
    cases hmem
  · obtain ⟨j, hj, hlt⟩ := hshow n
    rw [hat j hj, hat (j + 1) (by omega)] at hlt
    omega
  · exact ⟨max i n, by omega, Or.inl (by rw [hat _ (by omega)]; exact hread)⟩

/-- Three bytes go across the wrap of the sequence numbers; the second segment is lost once. -/
def carried : List SystemEvent :=
  let isn : WrappingInt32 := ⟨4294967294⟩
  [.sender .fillWindow, .deliver 0 { header := { seqno := isn, syn := true } },
    .ack ⟨1, wrap 1 isn, 4⟩, .sender .fillWindow, .sender (.tick 1000),
    .deliver 1 { header := { seqno := wrap 1 isn, fin := true }, payload := [1, 2, 3] },
    .read 3, .ack ⟨5, wrap 5 isn, 4⟩]

theorem fair_delivery_carried :
    ∃ c₀ c, System.new 8 1000 ⟨4294967294⟩ 4 = some c₀ ∧
      Path System.step System.Assumed c₀ [.sender (.write [1, 2, 3]), .sender .endInput] c ∧
      ∃ r : Endless System.step System.Assumed c, Fair r ∧
        ∃ k, ∀ i, k ≤ i → (r.state i).taken = [1, 2, 3] := by
  obtain ⟨c, hc⟩ := Option.isSome_iff_exists.mp
    (show ((System.new 8 1000 ⟨4294967294⟩ 4).bind (check System.step System.Assumed ·
      [.sender (.write [1, 2, 3]), .sender .endInput])).isSome = true by decide)
  obtain ⟨c₀, hnew, hcheck⟩ := Option.bind_eq_some_iff.mp hc
  have hp := Path.of_check hcheck
  obtain ⟨d, hd⟩ := Option.isSome_iff_exists.mp
    (show (check System.step System.Assumed c carried).isSome = true by
      obtain rfl : _ = c := Option.some.inj hc
      decide)
  have hfacts : c.tx.accepted = [1, 2, 3] ∧ d.rx.streamOut.buffer = [] ∧
      ∀ e ∈ [SystemEvent.sender .fillWindow, .sender (.tick 1)],
        d.step e = some d ∧ d.Assumed e d := by
    obtain rfl : _ = c := Option.some.inj hc
    obtain rfl : _ = d := Option.some.inj hd
    decide
  obtain ⟨haccepted, hread, hstay⟩ := hfacts
  obtain ⟨r, hfirst, hrest⟩ := Endless.exists_of_path (Path.of_check hd) (Endless.idle
    (fun i => if i % 2 = 0 then .sender .fillWindow else .sender (.tick 1))
    (fun i => hstay _ (by split <;> simp)))
  have hevent : ∀ i, r.event i ∈ carried ∨ r.event i = .sender .fillWindow ∨
      r.event i = .sender (.tick 1) := by
    intro i
    rcases Nat.lt_or_ge i carried.length with hlt | hge
    · exact Or.inl (hfirst i _ (List.getElem?_eq_getElem hlt) ▸ List.getElem_mem hlt)
    · have := (hrest (i - carried.length)).2
      rw [Nat.add_sub_of_le hge] at this
      rw [this]
      simp only [Endless.idle]
      split <;> simp
  have hf : Fair r := by
    refine Fair.of_rest (fun i => (hrest i).1) hread (fun i => ?_) ?_ (fun i ms hms => ?_) ?_
    · rcases hevent i with h | h | h
      · exact (show ∀ e ∈ carried, e.Quiet by
          simp [carried, SystemEvent.Quiet, SenderEvent.Quiet]) _ h
      · rw [h]
        trivial
      · rw [h]
        trivial
    · refine often_of_shift carried.length fun i => ⟨2 * i + 1, by omega, 1, by decide, ?_⟩
      exact (hrest _).2.trans (if_neg (by omega))
    · rcases hevent i with h | h | h
      · exact (show ∀ e ∈ carried, ∀ ms, e = .sender (.tick ms) → ms < 2 ^ 48 by simp [carried])
          _ h ms hms
      · rw [h] at hms
        cases hms
      · rw [h] at hms
        obtain rfl : 1 = ms := by simpa using hms
        decide
    · refine often_of_shift carried.length fun i => ⟨2 * i, by omega, ?_⟩
      exact (hrest _).2.trans (if_pos (by omega))
  obtain ⟨k, hk⟩ := fair_delivery 8 1000 ⟨4294967294⟩ 4 (by decide) c₀ hnew _ c hp r hf
  refine ⟨c₀, c, hnew, hp, r, hf, k, fun i hi => ?_⟩
  obtain ⟨hdone, hsame, -⟩ := hk i hi
  rw [hdone.taken, hsame, haccepted]

end Sponge
