import Sponge.Lib.Path
import Sponge.TCPSender

/-!
# Runs of the sender

* `outstanding_tiles`: the outstanding queue is exactly the unacknowledged sequence interval;
* `window_respected`: when `fill_window` stays inside the receiver's window.  It does not after the
  window shrank below the bytes in flight while bytes are waiting to be sent: the difference
  `window_size - bytes_in_flight()` then wraps (`shrunk_window_is_exceeded`).
-/

namespace Sponge

open Tiling Transition

namespace TCPSender

/-- Every run of a new sender is defined, and what every event keeps holds after it. -/
theorem run_new {I : TCPSender → Prop} (capacity : Nat) (retxTimeout : UInt16)
    (isn : WrappingInt32) (h0 : I (new capacity retxTimeout isn))
    (hstep : ∀ s e s', I s → s.step e = some s' → Moved s e s' → I s') (es : List SenderEvent) :
    ∃ s, run TCPSender.step (new capacity retxTimeout isn) es = some s ∧ WellFormed s ∧ I s := by
  have htotal : ∀ s e, WellFormed s ∧ I s → True →
      ∃ s', TCPSender.step s e = some s' ∧ WellFormed s' ∧ I s' := by
    rintro s e ⟨hw, hI⟩ _
    obtain ⟨s', hs', hmv⟩ := step_moved hw e
    exact ⟨s', hs', hw.moved hmv, hstep s e s' hI hs' hmv⟩
  exact run_total htotal es (fun _ _ => trivial) _ ⟨wellFormed_new capacity retxTimeout isn, h0⟩

/-! ## The outstanding queue -/

/-- No byte in flight is further back than half the sequence space, and the counters are far from
the end of their range. -/
def Bounded (s : TCPSender) : Prop :=
  s.bytesInFlight < 2 ^ 31 ∧ s.nextSeqnoAbsolute < 2 ^ 63 - 2 ^ 31

instance (s : TCPSender) : Decidable s.Bounded := inferInstanceAs (Decidable (_ ∧ _))

/-- The outstanding segments tile the interval from `_receiver_ack` to `_next_seqno`. -/
structure Queue (isn : WrappingInt32) (s : TCPSender) : Prop extends WellFormed s where
  isn_eq : s.isn = isn
  tiles : Tiles (Placed isn) TCPSegment.lengthInSequenceSpace s.receiverAck s.outstandingSegments
    s.nextSeqnoAbsolute

theorem queue_new (capacity : Nat) (retxTimeout : UInt16) (isn : WrappingInt32) :
    Queue isn (new capacity retxTimeout isn) :=
  { wellFormed_new capacity retxTimeout isn with isn_eq := rfl, tiles := rfl }

theorem Queue.unmoved {isn : WrappingInt32} {s s' : TCPSender} (h : Queue isn s)
    (hs : Unmoved s s') : Queue isn s' := by
  refine { h.toWellFormed.unmoved hs with isn_eq := hs.isn.trans h.isn_eq, tiles := ?_ }
  rw [hs.receiverAck, hs.outstandingSegments, hs.next]
  exact h.tiles

theorem Queue.emitted {isn : WrappingInt32} {s s' : TCPSender} {seg : TCPSegment}
    (h : Queue isn s) (hs : Emitted s seg s') : Queue isn s' := by
  refine { h.toWellFormed.emitted hs with isn_eq := hs.isn.trans h.isn_eq, tiles := ?_ }
  rw [hs.receiverAck, hs.outstandingSegments, hs.next]
  refine tiles_concat h.tiles ?_ hs.pos
  rw [Placed, hs.seqno, h.isn_eq]

/-- One event, from a state in which the segments in flight can be told apart. -/
theorem Queue.moved {isn : WrappingInt32} {s s' : TCPSender} {e : SenderEvent} (h : Queue isn s)
    (hnear : s.nextSeqnoAbsolute ≤ s.receiverAck + 2 ^ 31) (hlt : s.nextSeqnoAbsolute < 2 ^ 63)
    (hs : Moved s e s') :
    Queue isn s' ∧ s.receiverAck ≤ s'.receiverAck ∧
      s.nextSeqnoAbsolute ≤ s'.nextSeqnoAbsolute := by
  cases hs with
  | write data => exact ⟨{ h with }, Nat.le_refl _, Nat.le_refl _⟩
  | endInput => exact ⟨{ h with }, Nat.le_refl _, Nat.le_refl _⟩
  | filled hem _ =>
    refine hem.invariant (I := fun _ u => Queue isn u ∧ s.receiverAck ≤ u.receiverAck ∧
      s.nextSeqnoAbsolute ≤ u.nextSeqnoAbsolute) ?_ [] ⟨h, Nat.le_refl _, Nat.le_refl _⟩
    rintro _ u seg u' ⟨hu, hack, hnext⟩ he
    refine ⟨hu.emitted he, ?_, ?_⟩
    · rwa [he.receiverAck]
    · rw [he.next]
      omega
  | rejected _ => exact ⟨h, Nat.le_refl _, Nat.le_refl _⟩
  | acked hacc hack =>
    obtain rfl := h.isn_eq
    have hwf := h.toWellFormed.moved (Moved.acked hacc hack)
    obtain ⟨hge, htiles⟩ := retire_tiles hlt s.outstandingSegments s.receiverAck false hnear h.tiles
    rw [← hack.receiverAck] at hge htiles
    rw [← hack.outstandingSegments, ← hack.next] at htiles
    exact ⟨{ hwf with isn_eq := hack.isn, tiles := htiles }, hge, hack.next.ge⟩
  | waited hun _ => exact ⟨h.unmoved hun, hun.receiverAck.ge, hun.next.ge⟩
  | resent hun _ _ => exact ⟨h.unmoved hun, hun.receiverAck.ge, hun.next.ge⟩
  | empty hun _ => exact ⟨h.unmoved hun, hun.receiverAck.ge, hun.next.ge⟩

theorem bounded_new (capacity : Nat) (retxTimeout : UInt16) (isn : WrappingInt32) :
    Bounded (new capacity retxTimeout isn) :=
  ⟨show Word.sub 0 0 < 2 ^ 31 by decide, show 0 < 2 ^ 63 - 2 ^ 31 by decide⟩

/-- A bounded state in terms of the two counters. -/
theorem Bounded.near {s : TCPSender} (hb : s.Bounded) (h : WellFormed s) :
    s.nextSeqnoAbsolute ≤ s.receiverAck + 2 ^ 31 ∧ s.nextSeqnoAbsolute < 2 ^ 63 := by
  obtain ⟨hfl, hlt⟩ := hb
  rw [bytesInFlight_eq h] at hfl
  omega

/-- One step between bounded states. -/
theorem queue_step {isn : WrappingInt32} {s s' : TCPSender} {e : SenderEvent}
    (h : Queue isn s ∧ s.Bounded) (hs : s.step e = some s') (hb : s'.Bounded) :
    (Queue isn s' ∧ s'.Bounded) ∧ s.receiverAck ≤ s'.receiverAck ∧
      s.nextSeqnoAbsolute ≤ s'.nextSeqnoAbsolute := by
  obtain ⟨hnear, hlt⟩ := h.2.near h.1.toWellFormed
  obtain ⟨hq, hack, hnext⟩ := h.1.moved hnear hlt (moved_of_step h.1.toWellFormed hs)
  exact ⟨⟨hq, hb⟩, hack, hnext⟩

end TCPSender

open TCPSender in
/-- **The outstanding queue is exactly the unacknowledged interval.**  In every run with fewer than
`2 ^ 31` bytes in flight, the outstanding segments tile `[_receiver_ack, _next_seqno)`; the bytes in
flight are the sum of their lengths and their subtraction does not wrap; from any state of the run
on, the two counters never decrease; and no event fails. -/
theorem outstanding_tiles (capacity : Nat) (retxTimeout : UInt16) (isn : WrappingInt32)
    (es fs : List SenderEvent) (s t : TCPSender)
    (hs : Path TCPSender.step (fun _ _ u => u.Bounded) (TCPSender.new capacity retxTimeout isn)
      es s)
    (ht : Path TCPSender.step (fun _ _ u => u.Bounded) s fs t) :
    Tiles (fun p seg => seg.header.seqno = wrap p isn) TCPSegment.lengthInSequenceSpace
      s.receiverAck s.outstandingSegments s.nextSeqnoAbsolute ∧
    s.bytesInFlight = (s.outstandingSegments.map TCPSegment.lengthInSequenceSpace).sum ∧
    s.receiverAck + s.bytesInFlight = s.nextSeqnoAbsolute ∧
    s.receiverAck ≤ t.receiverAck ∧ s.nextSeqnoAbsolute ≤ t.nextSeqnoAbsolute ∧
    ∀ e, (s.step e).isSome := by
  have hq : Queue isn s ∧ s.Bounded :=
    hs.invariant (I := fun u => Queue isn u ∧ u.Bounded) ⟨queue_new _ _ _, bounded_new _ _ _⟩
      (fun _ _ _ h hstep hb => (queue_step h hstep hb).1)
  have hmono := ht.monotone (I := fun u => Queue isn u ∧ u.Bounded)
    (fun u => (u.receiverAck, u.nextSeqnoAbsolute)) hq
    (fun _ _ _ h hstep hb => ⟨(queue_step h hstep hb).1, (queue_step h hstep hb).2⟩)
  have hsum := tiles_sum hq.1.tiles
  have hle := hq.1.ack_le
  have hfl := bytesInFlight_eq hq.1.toWellFormed
  refine ⟨hq.1.tiles, by omega, by omega, hmono.1, hmono.2, fun e => ?_⟩
  obtain ⟨u, hu, -⟩ := step_moved hq.1.toWellFormed e
  rw [hu]
  rfl

/-- The sequence numbers of this run wrap; the acknowledgment in the middle of a segment retires
only the SYN. -/
theorem outstanding_tiles_wrapping :
    ∃ s, Path TCPSender.step (fun _ _ u => u.Bounded) (TCPSender.new 8 1000 ⟨4294967294⟩)
        [.fillWindow, .write [1, 2, 3, 4], .ackReceived ⟨4294967295⟩ 3, .fillWindow,
          .ackReceived ⟨0⟩ 3, .tick 1000] s ∧
      s.receiverAck = 1 ∧ s.nextSeqnoAbsolute = 4 ∧ s.outstandingSegments.length = 1 ∧
      s.bytesInFlight = (s.outstandingSegments.map TCPSegment.lengthInSequenceSpace).sum := by
  obtain ⟨s, hc⟩ := Option.isSome_iff_exists.mp
    (show (check TCPSender.step (fun _ _ u => u.Bounded) (TCPSender.new 8 1000 ⟨4294967294⟩)
      [.fillWindow, .write [1, 2, 3, 4], .ackReceived ⟨4294967295⟩ 3, .fillWindow,
        .ackReceived ⟨0⟩ 3, .tick 1000]).isSome = true by decide)
  have hp := Path.of_check hc
  have hfacts : s.receiverAck = 1 ∧ s.nextSeqnoAbsolute = 4 ∧ s.outstandingSegments.length = 1 := by
    obtain rfl : _ = s := Option.some.inj hc
    decide
  exact ⟨s, hp, hfacts.1, hfacts.2.1, hfacts.2.2,
    (outstanding_tiles 8 1000 ⟨4294967294⟩ _ [] s s hp Path.nil).2.1⟩

/-! ## Sender runs with their history -/

/-- A sender together with what happened so far: the bytes that `stream_in()` accepted, the window
of the last accepted acknowledgment (1 if there was none), the segments that `fill_window` and
`tick` pushed, and every pushed segment with its absolute sequence number. -/
structure Traced where
  sender : TCPSender
  accepted : List UInt8
  window : Nat
  filled : List TCPSegment
  resent : List TCPSegment
  sent : List (Nat × TCPSegment)
  deriving DecidableEq

namespace Traced

open TCPSender

def init (capacity : Nat) (retxTimeout : UInt16) (isn : WrappingInt32) : Traced :=
  ⟨TCPSender.new capacity retxTimeout isn, [], 1, [], [], []⟩

/-- The history after an event that takes the sender to `s'`.  New segments start at
`next_seqno_absolute()`, a segment that `tick` sends again at `_receiver_ack`. -/
def record (t : Traced) (s' : TCPSender) : SenderEvent → Traced
  | .write data =>
    { t with sender := s', accepted := t.accepted ++ data.take (t.sender.stream.write data).1 }
  | .endInput => { t with sender := s' }
  | .fillWindow =>
    let news := s'.segmentsOut.drop t.sender.segmentsOut.length
    { t with
      sender := s'
      filled := t.filled ++ news
      sent := t.sent ++
        positions TCPSegment.lengthInSequenceSpace t.sender.nextSeqnoAbsolute news }
  | .ackReceived ackno w =>
    { t with
      sender := s'
      window := if t.sender.Accepts (unwrap ackno t.sender.isn t.sender.nextSeqnoAbsolute)
        then w.toNat else t.window }
  | .tick _ =>
    let news := s'.segmentsOut.drop t.sender.segmentsOut.length
    { t with
      sender := s'
      resent := t.resent ++ news
      sent := t.sent ++ positions TCPSegment.lengthInSequenceSpace t.sender.receiverAck news }
  | .sendEmptySegment =>
    let news := s'.segmentsOut.drop t.sender.segmentsOut.length
    { t with
      sender := s'
      sent := t.sent ++
        positions TCPSegment.lengthInSequenceSpace t.sender.nextSeqnoAbsolute news }

def step (t : Traced) (e : SenderEvent) : Option Traced :=
  (t.sender.step e).map fun s' => t.record s' e

@[simp] theorem record_sender (t : Traced) (s' : TCPSender) (e : SenderEvent) :
    (t.record s' e).sender = s' := by
  cases e <;> rfl

/-- A step of the history is a move of the sender. -/
theorem step_eq {t t' : Traced} {e : SenderEvent} (h : WellFormed t.sender)
    (hs : t.step e = some t') : ∃ s', Moved t.sender e s' ∧ t' = t.record s' e := by
  obtain ⟨s', hs', hmv⟩ := step_moved h e
  rw [step, hs', Option.map_some] at hs
  exact ⟨s', hmv, (Option.some.inj hs).symm⟩

theorem step_isSome {t : Traced} (h : WellFormed t.sender) (e : SenderEvent) :
    (t.step e).isSome := by
  obtain ⟨s', hs', -⟩ := step_moved h e
  rw [step, hs']
  rfl

/-- Every run with history is defined, and what every event keeps holds after it. -/
theorem run_init {I : Traced → Prop} (capacity : Nat) (retxTimeout : UInt16) (isn : WrappingInt32)
    (h0 : I (init capacity retxTimeout isn))
    (hstep : ∀ t e t', I t → t.step e = some t' → I t') (es : List SenderEvent) :
    ∃ t, run step (init capacity retxTimeout isn) es = some t ∧ WellFormed t.sender ∧ I t := by
  have htotal : ∀ t e, WellFormed t.sender ∧ I t → True →
      ∃ t', t.step e = some t' ∧ WellFormed t'.sender ∧ I t' := by
    rintro t e ⟨hw, hI⟩ _
    obtain ⟨s', hs', hmv⟩ := step_moved hw e
    have ht' : t.step e = some (t.record s' e) := by rw [step, hs', Option.map_some]
    refine ⟨t.record s' e, ht', ?_, hstep t e _ hI ht'⟩
    rw [record_sender]
    exact hw.moved hmv
  exact run_total htotal es (fun _ _ => trivial) _ ⟨wellFormed_new capacity retxTimeout isn, h0⟩

end Traced

theorem TCPSender.Emits.segmentsOut {s s' : TCPSender} {news : List TCPSegment}
    (h : TCPSender.Emits s news s') : s'.segmentsOut = s.segmentsOut ++ news :=
  h.pushed TCPSender.Emitted.segmentsOut

/-! ## The receiver's window -/

namespace TCPSender

theorem windowSize_eq (s : TCPSender) : s.windowSize = max s.receiverWindowSize 1 := by
  unfold windowSize
  split <;> omega

/-- The sender is inside the window: a new segment does not leave it. -/
theorem Emitted.stays_inside {s s' : TCPSender} {seg : TCPSegment} (h : WellFormed s)
    (hs : Emitted s seg s') (hin : s.nextSeqnoAbsolute ≤ s.receiverAck + s.windowSize) :
    s'.nextSeqnoAbsolute ≤ s.receiverAck + s.windowSize := by
  have hack := h.ack_le
  have hfits := hs.payload_fits
  have hone : 1 ≤ s.windowSize := by rw [windowSize_eq]; omega
  rw [bytesInFlight_eq h, Word.sub_of_le (by omega)] at hfits
  rw [hs.next, TCPSegment.lengthInSequenceSpace]
  by_cases hsyn : seg.header.syn = true
  · obtain ⟨hpay, hfin⟩ := hs.synBare hsyn
    have hnext := hs.syn.mp hsyn
    simp only [hpay, hsyn, hfin, List.length_nil, if_true, Bool.false_eq_true, if_false]
    omega
  · rw [if_neg hsyn]
    split
    · rename_i hfin
      have := hs.fin_fits hfin
      rw [Word.sub_of_le (by omega)] at this
      omega
    · omega

/-- The window is full: a new segment carries bytes of the stream. -/
theorem Emitted.payload_of_full {s s' : TCPSender} {seg : TCPSegment} (h : WellFormed s)
    (hs : Emitted s seg s') (hfull : s.receiverAck + s.windowSize ≤ s.nextSeqnoAbsolute) :
    0 < seg.payload.length := by
  have hack := h.ack_le
  have hone : 1 ≤ s.windowSize := by rw [windowSize_eq]; omega
  have hpos := hs.pos
  by_contra hno
  have hzero : seg.payload.length = 0 := by omega
  have hsyn : ¬ seg.header.syn = true := fun hsyn => by
    have := hs.syn.mp hsyn
    omega
  have hfin : ¬ seg.header.fin = true := fun hfin => by
    have := hs.fin_fits hfin
    rw [Word.sub_of_le (by omega)] at this
    omega
  rw [TCPSegment.lengthInSequenceSpace, hzero, if_neg hsyn, if_neg hfin] at hpos
  omega

end TCPSender

namespace Traced

open TCPSender

/-- The history knows the sender's window. -/
structure Windowed (t : Traced) : Prop where
  wellFormed : WellFormed t.sender
  window : t.sender.receiverWindowSize = t.window

theorem windowed_step {t t' : Traced} {e : SenderEvent} (h : Windowed t)
    (hs : t.step e = some t') : Windowed t' := by
  obtain ⟨s', hmv, rfl⟩ := step_eq h.wellFormed hs
  refine ⟨by rw [record_sender]; exact h.wellFormed.moved hmv, ?_⟩
  rw [record_sender]
  cases hmv with
  | write data => exact h.window
  | endInput => exact h.window
  | filled hem _ => exact (hem.unchanged Emitted.receiverWindowSize).trans h.window
  | rejected hno => simpa [record, hno] using h.window
  | acked hacc hack => simpa [record, hacc] using hack.receiverWindowSize
  | waited hun _ => exact hun.receiverWindowSize.trans h.window
  | resent hun _ _ => exact hun.receiverWindowSize.trans h.window
  | empty hun _ => exact hun.receiverWindowSize.trans h.window

/-- The new segments of a call of `fill_window` end inside the window, and there are none when the
window is full. -/
def RespectsWindow (t t' : Traced) : Prop :=
  ∃ news, t'.sender.segmentsOut = t.sender.segmentsOut ++ news ∧
    Tiles (fun p seg => seg.header.seqno = wrap p t.sender.isn ∧
        p + seg.lengthInSequenceSpace ≤ t.sender.receiverAck + max t.window 1)
      TCPSegment.lengthInSequenceSpace t.sender.nextSeqnoAbsolute news
      t'.sender.nextSeqnoAbsolute ∧
    (max t.window 1 ≤ t.sender.bytesInFlight → news = [])

/-- The FIN is out, or no byte is waiting, or the bytes in flight fit into the window. -/
def WindowKept (t : Traced) : Prop :=
  t.sender.setFinFlag = true ∨ t.sender.stream.buffer = [] ∨
    t.sender.bytesInFlight ≤ max t.window 1

/-- From inside the window, all new segments stay inside. -/
theorem emits_inside {s s' : TCPSender} {news : List TCPSegment} (h : WellFormed s)
    (hem : Emits s news s') (hin : s.nextSeqnoAbsolute ≤ s.receiverAck + s.windowSize) :
    Tiles (fun p seg => seg.header.seqno = wrap p s.isn ∧
        p + seg.lengthInSequenceSpace ≤ s.receiverAck + s.windowSize)
      TCPSegment.lengthInSequenceSpace s.nextSeqnoAbsolute news s'.nextSeqnoAbsolute := by
  refine (hem.invariant (I := fun segs u => (WellFormed u ∧ u.isn = s.isn ∧
      u.receiverAck = s.receiverAck ∧ u.receiverWindowSize = s.receiverWindowSize ∧
      u.nextSeqnoAbsolute ≤ s.receiverAck + s.windowSize) ∧
    Tiles (fun p seg => seg.header.seqno = wrap p s.isn ∧
        p + seg.lengthInSequenceSpace ≤ s.receiverAck + s.windowSize)
      TCPSegment.lengthInSequenceSpace s.nextSeqnoAbsolute segs u.nextSeqnoAbsolute) ?_ []
    ⟨⟨h, rfl, rfl, rfl, hin⟩, rfl⟩).2
  rintro segs u seg u' ⟨⟨hu, hisn, hack, hwin, hle⟩, htiles⟩ he
  have hsize : u.windowSize = s.windowSize := by rw [windowSize, windowSize, hwin]
  have hle' := he.stays_inside hu (by rw [hack, hsize]; exact hle)
  rw [hack, hsize] at hle'
  refine ⟨⟨hu.emitted he, he.isn.trans hisn, he.receiverAck.trans hack,
    he.receiverWindowSize.trans hwin, hle'⟩, ?_⟩
  rw [he.next] at hle' ⊢
  exact tiles_concat htiles ⟨by rw [he.seqno, hisn], hle'⟩ he.pos

/-- From a full window with no byte waiting, or exactly full, nothing is emitted. -/
theorem emits_nothing {s s' : TCPSender} {news : List TCPSegment} (h : WellFormed s)
    (hem : Emits s news s') (hfull : s.receiverAck + s.windowSize ≤ s.nextSeqnoAbsolute)
    (hwait : s.stream.buffer = [] ∨ s.nextSeqnoAbsolute ≤ s.receiverAck + s.windowSize) :
    news = [] ∧ s' = s := by
  cases hem with
  | nil => exact ⟨rfl, rfl⟩
  | cons he _ =>
    exfalso
    have hpay := he.payload_of_full h hfull
    rcases hwait with hempty | hle
    · have hbuf := congrArg List.length he.buffer
      rw [hempty, List.length_append, List.length_nil] at hbuf
      omega
    · have hfits := he.payload_fits
      rw [bytesInFlight_eq h, Word.sub_of_le (by omega)] at hfits
      omega

/-- A window that is kept is respected. -/
theorem respectsWindow_of_windowKept {t : Traced} (h : Windowed t) {s' : TCPSender}
    {news : List TCPSegment} (hem : Emits t.sender news s') (hk : t.WindowKept) :
    RespectsWindow t (t.record s' .fillWindow) := by
  have hsize : t.sender.windowSize = max t.window 1 := by rw [windowSize_eq, h.window]
  have hfl := bytesInFlight_eq h.wellFormed
  have hack := h.wellFormed.ack_le
  rw [RespectsWindow, ← hsize, record_sender]
  by_cases hin : t.sender.nextSeqnoAbsolute ≤ t.sender.receiverAck + t.sender.windowSize
  · refine ⟨news, hem.segmentsOut, emits_inside h.wellFormed hem hin, fun hfull => ?_⟩
    exact (emits_nothing h.wellFormed hem (by omega) (Or.inr hin)).1
  · -- outside the window: the FIN is out or no byte is waiting, and nothing is emitted
    have hnone : news = [] ∧ s' = t.sender := by
      rcases hk with hfin | hempty | hle
      · cases hem with
        | nil => exact ⟨rfl, rfl⟩
        | cons he _ =>
          have := he.finUnsent
          rw [hfin] at this
          cases this
      · exact emits_nothing h.wellFormed hem (by omega) (Or.inl hempty)
      · omega
    obtain ⟨rfl, rfl⟩ := hnone
    exact ⟨[], by simp, rfl, fun _ => rfl⟩

/-- A call that respects the window found it kept: otherwise the difference wraps and lets bytes
through. -/
theorem windowKept_of_respectsWindow {t : Traced} (h : Windowed t)
    (hlt : t.sender.nextSeqnoAbsolute < Word.size) {s' : TCPSender} {news : List TCPSegment}
    (hem : Emits t.sender news s') (hidle : news = [] → t.sender.Idle)
    (hr : RespectsWindow t (t.record s' .fillWindow)) : t.WindowKept := by
  have hsize : t.sender.windowSize = max t.window 1 := by rw [windowSize_eq, h.window]
  have hfl := bytesInFlight_eq h.wellFormed
  obtain ⟨news', hout, -, hnone⟩ := hr
  rw [record_sender, hem.segmentsOut] at hout
  obtain rfl := List.append_cancel_left hout
  by_contra hk
  simp only [WindowKept, not_or] at hk
  obtain ⟨hfin, hbuf, hover⟩ := hk
  rcases hidle (hnone (by omega)) with hf | ⟨-, hzero, -⟩
  · exact hfin hf
  · have hpos : 0 < t.sender.stream.buffer.length := List.length_pos_iff.mpr hbuf
    rw [payloadSize, Word.sub_of_lt (by omega)] at hzero
    simp only [ByteStream.bufferSize, TCPConfig.maxPayloadSize] at hzero
    omega

theorem windowed_run (capacity : Nat) (retxTimeout : UInt16) (isn : WrappingInt32)
    (es : List SenderEvent) : ∃ t, run step (init capacity retxTimeout isn) es = some t ∧
      Windowed t := by
  obtain ⟨t, ht, -, hw⟩ := run_init capacity retxTimeout isn
    ⟨wellFormed_new capacity retxTimeout isn, rfl⟩ (fun _ _ _ h hs => windowed_step h hs) es
  exact ⟨t, ht, hw⟩

/-- Every call of `fill_window` in the run respects the window. -/
def WindowRespected (t₀ : Traced) (es : List SenderEvent) : Prop :=
  ∀ pre post, es = pre ++ .fillWindow :: post → ∀ t t', run step t₀ pre = some t →
    t.step .fillWindow = some t' → RespectsWindow t t'

/-- Every call of `fill_window` in the run finds the window kept. -/
def WindowAlwaysKept (t₀ : Traced) (es : List SenderEvent) : Prop :=
  ∀ pre post, es = pre ++ .fillWindow :: post → ∀ t, run step t₀ pre = some t → t.WindowKept

end Traced

open Traced in
/-- **When the sender respects the receiver's window.**  Every run is defined.  If every call of
`fill_window` in it finds that the FIN is out, that no byte is waiting or that the bytes in flight
fit into the window, then the new segments of all calls end inside `_receiver_ack + max(w, 1)`; and
as long as the counter `_next_seqno` stays in its range, only then. -/
theorem window_respected (capacity : Nat) (retxTimeout : UInt16) (isn : WrappingInt32)
    (es : List SenderEvent) :
    (run Traced.step (Traced.init capacity retxTimeout isn) es).isSome ∧
    (WindowAlwaysKept (Traced.init capacity retxTimeout isn) es →
      WindowRespected (Traced.init capacity retxTimeout isn) es) ∧
    ((∀ pre t, pre <+: es → run Traced.step (Traced.init capacity retxTimeout isn) pre = some t →
        t.sender.nextSeqnoAbsolute < 2 ^ 64) →
      WindowRespected (Traced.init capacity retxTimeout isn) es →
      WindowAlwaysKept (Traced.init capacity retxTimeout isn) es) := by
  have hwin : ∀ pre t, run Traced.step (Traced.init capacity retxTimeout isn) pre = some t →
      Windowed t := by
    intro pre t hpre
    obtain ⟨u, hu, hw⟩ := windowed_run capacity retxTimeout isn pre
    obtain rfl : u = t := Option.some.inj (hu.symm.trans hpre)
    exact hw
  refine ⟨?_, ?_, ?_⟩
  · obtain ⟨t, ht, -⟩ := windowed_run capacity retxTimeout isn es
    rw [ht]
    rfl
  · intro hkept pre post heq t t' hpre hs
    obtain ⟨s', news, hfill, hem, -⟩ := TCPSender.fillWindow_spec t.sender
    obtain rfl : t.record s' .fillWindow = t' := by
      rw [Traced.step, TCPSender.step, hfill, Option.map_some] at hs
      exact Option.some.inj hs
    exact respectsWindow_of_windowKept (hwin pre t hpre) hem (hkept pre post heq t hpre)
  · intro hlt hresp pre post heq t hpre
    obtain ⟨s', news, hfill, hem, hidle⟩ := TCPSender.fillWindow_spec t.sender
    have hs : t.step .fillWindow = some (t.record s' .fillWindow) := by
      rw [Traced.step, TCPSender.step, hfill, Option.map_some]
    exact windowKept_of_respectsWindow (hwin pre t hpre)
      (hlt pre t ⟨.fillWindow :: post, heq.symm⟩ hpre) hem hidle (hresp pre post heq t _ hpre hs)

/-- The SYN, then three bytes into a window with room for four. -/
theorem window_respected_open :
    Traced.WindowRespected (Traced.init 16 1000 ⟨0⟩)
      [.fillWindow, .ackReceived ⟨1⟩ 4, .write [1, 2, 3], .fillWindow] := by
  refine (window_respected 16 1000 ⟨0⟩ _).2.1 ?_
  intro pre post heq t hpre
  rcases pre with _ | ⟨a, _ | ⟨b, _ | ⟨c, _ | ⟨d, pre⟩⟩⟩⟩
  · obtain rfl : _ = t := Option.some.inj hpre
    exact Or.inr (Or.inl rfl)
  · simp at heq
  · simp at heq
  · simp only [List.cons_append, List.nil_append, List.cons.injEq] at heq
    obtain ⟨rfl, rfl, rfl, -⟩ := heq
    obtain rfl : _ = t := Option.some.inj hpre
    exact Or.inr (Or.inr (by decide))
  · simp at heq

/-- Ten bytes are in flight when the window shrinks to three and five more bytes are written:
`fill_window` sends them at once. -/
theorem shrunk_window_is_exceeded :
    ¬ Traced.WindowRespected (Traced.init 16 1000 ⟨0⟩)
      [.fillWindow, .ackReceived ⟨1⟩ 10, .write [1, 2, 3, 4, 5, 6, 7, 8, 9, 10], .fillWindow,
        .ackReceived ⟨1⟩ 3, .write [11, 12, 13, 14, 15], .fillWindow] := by
  intro h
  obtain ⟨news, hout, -, hnone⟩ := h
    [.fillWindow, .ackReceived ⟨1⟩ 10, .write [1, 2, 3, 4, 5, 6, 7, 8, 9, 10], .fillWindow,
      .ackReceived ⟨1⟩ 3, .write [11, 12, 13, 14, 15]] [] rfl _ _ rfl rfl
  rw [hnone (by decide)] at hout
  exact absurd hout (by decide)

end Sponge
