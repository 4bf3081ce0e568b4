import Sponge.SenderRuns
import Sponge.TCPReceiver

/-!
# The initial sequence number does not matter

Adding `d` to the initial sequence number and to every 32-bit number that goes in shifts every
32-bit number that comes out by `d` and changes nothing else: 32-bit numbers are only ever
subtracted from each other.  `isn_immaterial` says so for runs of the sender and of the receiver.
-/

namespace Sponge

open Transition

/-! ## Shifting -/

theorem WrappingInt32.diff_shift (a b : WrappingInt32) (d : UInt32) :
    (a.add d).diff (b.add d) = a.diff b := by
  unfold diff add
  rw [show a.rawValue + d - (b.rawValue + d) = a.rawValue - b.rawValue by grind]

theorem wrap_shift (n : Nat) (isn : WrappingInt32) (d : UInt32) :
    wrap n (isn.add d) = (wrap n isn).add d := by
  unfold wrap WrappingInt32.add
  rw [show isn.rawValue + d + UInt32.ofNat n = isn.rawValue + UInt32.ofNat n + d by grind]

theorem unwrap_shift (n isn : WrappingInt32) (checkpoint : Nat) (d : UInt32) :
    unwrap (n.add d) (isn.add d) checkpoint = unwrap n isn checkpoint := by
  unfold unwrap
  rw [wrap_shift, WrappingInt32.diff_shift]

/-- The segment with its sequence number moved by `d`. -/
def TCPSegment.shift (d : UInt32) (seg : TCPSegment) : TCPSegment :=
  { seg with header := { seg.header with seqno := seg.header.seqno.add d } }

theorem TCPSegment.lengthInSequenceSpace_shift (d : UInt32) (seg : TCPSegment) :
    (seg.shift d).lengthInSequenceSpace = seg.lengthInSequenceSpace := rfl

/-! ## The sender -/

def SenderEvent.shift (d : UInt32) : SenderEvent → SenderEvent
  | .ackReceived ackno windowSize => .ackReceived (ackno.add d) windowSize
  | e => e

namespace TCPSender

/-- The sender with its initial sequence number, and those of its segments, moved by `d`. -/
def shift (d : UInt32) (s : TCPSender) : TCPSender :=
  { s with
    isn := s.isn.add d
    segmentsOut := s.segmentsOut.map (TCPSegment.shift d)
    outstandingSegments := s.outstandingSegments.map (TCPSegment.shift d) }

variable (d : UInt32) (s : TCPSender)

theorem shift_nextSeqno : (s.shift d).nextSeqno = s.nextSeqno.add d := wrap_shift _ _ _

theorem send_shift (windowSize : Nat) (segment : TCPSegment) :
    (s.shift d).send windowSize (segment.shift d) =
      ((s.send windowSize segment).1.shift d, (s.send windowSize segment).2) := by
  simp only [send, shift, List.map_append, List.map_cons, List.map_nil]
  rfl

theorem fillOnce_shift : (s.shift d).fillOnce = (s.fillOnce.1.shift d, s.fillOnce.2) := by
  unfold fillOnce
  by_cases hfin : s.setFinFlag = true
  · rw [if_pos hfin, if_pos (show (s.shift d).setFinFlag = true from hfin)]
  rw [if_neg hfin, if_neg (show ¬ (s.shift d).setFinFlag = true from hfin)]
  by_cases hnext : s.nextSeqnoAbsolute = 0
  · rw [if_pos hnext, if_pos (show (s.shift d).nextSeqnoAbsolute = 0 from hnext)]
    exact send_shift d { s with setSynFlag := true, nextSeqnoAbsolute := s.nextSeqnoAbsolute + 1 }
      s.windowSize { header := { syn := true, seqno := s.isn } }
  rw [if_neg hnext, if_neg (show ¬ (s.shift d).nextSeqnoAbsolute = 0 from hnext)]
  dsimp only
  rw [shift_nextSeqno]
  -- the stream and the counters, which decide what is sent, are the same
  let s' := { s with
    stream := (s.stream.read s.payloadSize).2
    nextSeqnoAbsolute := s.nextSeqnoAbsolute + s.payloadSize }
  let segment : TCPSegment :=
    { header := { seqno := s.nextSeqno }, payload := (s.stream.read s.payloadSize).1 }
  change (if s'.stream.eof && s'.windowNotFull s.windowSize then
      send (shift d { s' with setFinFlag := true, nextSeqnoAbsolute := s'.nextSeqnoAbsolute + 1 })
        s.windowSize
        (TCPSegment.shift d { segment with header := { segment.header with fin := true } })
    else if s.payloadSize = 0 then (s'.shift d, false)
    else send (s'.shift d) s.windowSize (segment.shift d)) = _
  split
  · exact send_shift d _ s.windowSize _
  · split
    · rfl
    · exact send_shift d s' s.windowSize segment

theorem fillLoop_shift (fuel : Nat) :
    ∀ s : TCPSender, fillLoop fuel (s.shift d) = (fillLoop fuel s).map (shift d) := by
  induction fuel with
  | zero => exact fun _ => rfl
  | succ fuel ih =>
    intro s
    unfold fillLoop
    rw [fillOnce_shift]
    rcases s.fillOnce with ⟨s', again⟩
    cases again with
    | false => rfl
    | true => exact ih s'

theorem retire_shift (isn : WrappingInt32) (next absAckno : Nat) (segs : List TCPSegment) :
    ∀ ack updated,
      retire (isn.add d) next absAckno ack updated (segs.map (TCPSegment.shift d)) =
        ((retire isn next absAckno ack updated segs).1,
          (retire isn next absAckno ack updated segs).2.1,
          (retire isn next absAckno ack updated segs).2.2.map (TCPSegment.shift d)) := by
  induction segs with
  | nil => exact fun _ _ => rfl
  | cons seg segs ih =>
    intro ack updated
    have hun : unwrap (seg.shift d).header.seqno (isn.add d) next =
        unwrap seg.header.seqno isn next := unwrap_shift _ _ _ _
    rw [List.map_cons]
    unfold retire
    dsimp only
    rw [hun, TCPSegment.lengthInSequenceSpace_shift]
    split
    · exact ih _ _
    · rfl

theorem ackReceived_shift (ackno : WrappingInt32) (windowSize : UInt16) :
    (s.shift d).ackReceived (ackno.add d) windowSize =
      (s.ackReceived ackno windowSize).shift d := by
  have hun : unwrap (ackno.add d) (s.shift d).isn (s.shift d).nextSeqnoAbsolute =
      unwrap ackno s.isn s.nextSeqnoAbsolute := unwrap_shift _ _ _ _
  unfold ackReceived
  dsimp only
  rw [hun]
  by_cases hacc : s.Accepts (unwrap ackno s.isn s.nextSeqnoAbsolute)
  · rw [if_pos hacc]
    refine (if_pos hacc).trans ?_
    have hret := retire_shift d s.isn s.nextSeqnoAbsolute
      (unwrap ackno s.isn s.nextSeqnoAbsolute) s.outstandingSegments s.receiverAck false
    simp only [shift, hret]
    generalize retire s.isn s.nextSeqnoAbsolute (unwrap ackno s.isn s.nextSeqnoAbsolute)
      s.receiverAck false s.outstandingSegments = left
    obtain ⟨ack, updated, rest⟩ := left
    cases rest <;> cases updated <;> rfl
  · rw [if_neg hacc]
    exact if_neg hacc

theorem tick_shift (ms : Nat) : (s.shift d).tick ms = (s.tick ms).map (shift d) := by
  unfold tick
  dsimp only [shift]
  split
  · cases s.outstandingSegments with
    | nil => rfl
    | cons seg rest =>
      simp only [List.map_cons, Option.map_some, Option.some.injEq, shift, List.map_append,
        List.map_nil]
      rfl
  · rfl

/-- No event changes the initial sequence number. -/
theorem Moved.isn_eq {s s' : TCPSender} {e : SenderEvent} (hs : Moved s e s') : s'.isn = s.isn := by
  cases hs with
  | write data => rfl
  | endInput => rfl
  | filled hem _ => exact hem.unchanged Emitted.isn
  | rejected _ => rfl
  | acked _ hack => exact hack.isn
  | waited hun _ => exact hun.isn
  | resent hun _ _ => exact hun.isn
  | empty hun _ => exact hun.isn

/-- Every event respects the shift. -/
theorem step_shift (e : SenderEvent) :
    (s.shift d).step (e.shift d) = (s.step e).map (shift d) := by
  cases e with
  | write data => rfl
  | endInput => rfl
  | fillWindow => exact fillLoop_shift d _ s
  | ackReceived ackno w => exact congrArg some (ackReceived_shift d s ackno w)
  | tick ms => exact tick_shift d s ms
  | sendEmptySegment =>
    have hnext := shift_nextSeqno d s
    simp only [step, SenderEvent.shift, sendEmptySegment, hnext, Option.map_some]
    simp [shift, TCPSegment.shift]

end TCPSender

/-! ## The receiver -/

def ReceiverEvent.shift (d : UInt32) : ReceiverEvent → ReceiverEvent
  | .segment seg => .segment (seg.shift d)
  | e => e

namespace TCPReceiver

/-- The receiver with the initial sequence number it knows moved by `d`. -/
def shift (d : UInt32) (t : TCPReceiver) : TCPReceiver :=
  { t with isn := t.isn.map fun isn => isn.add d }

variable (d : UInt32) (t : TCPReceiver)

theorem shift_isnAfter (seg : TCPSegment) :
    (t.shift d).isnAfter (seg.shift d) = (t.isnAfter seg).map fun isn => isn.add d := by
  unfold isnAfter shift
  cases t.isn with
  | some isn => rfl
  | none =>
    change (if seg.header.syn then some (seg.header.seqno.add d) else none) = _
    split <;> rfl

theorem shift_streamIndex (isn : WrappingInt32) (seg : TCPSegment) :
    (t.shift d).streamIndex (isn.add d) (seg.shift d) = t.streamIndex isn seg := by
  have hun : unwrap (seg.shift d).header.seqno (isn.add d) (t.shift d).streamOut.bytesWritten =
      unwrap seg.header.seqno isn t.streamOut.bytesWritten := unwrap_shift _ _ _ _
  unfold streamIndex
  dsimp only
  rw [hun]
  rfl

theorem shift_ackno : (t.shift d).ackno = t.ackno.map fun a => a.add d := by
  unfold ackno shift
  cases t.isn with
  | none => rfl
  | some isn => exact congrArg some (wrap_shift _ _ _)

theorem segmentReceived_shift (seg : TCPSegment) :
    (t.shift d).segmentReceived (seg.shift d) = (t.segmentReceived seg).map (shift d) := by
  unfold segmentReceived
  rw [shift_isnAfter]
  cases t.isnAfter seg with
  | none => rfl
  | some isn =>
    dsimp only [Option.map_some]
    rw [shift_streamIndex, Option.map_map]
    rfl

/-- Every event respects the shift. -/
theorem step_shift (e : ReceiverEvent) :
    (t.shift d).step (e.shift d) = (t.step e).map (shift d) := by
  cases e with
  | segment seg => exact segmentReceived_shift d t seg
  | read len => rfl
  | pop len => rfl

end TCPReceiver

/-- **The initial sequence number is immaterial.**  The run of a sender with initial sequence number
`x`, replayed with initial sequence number `y` and all acknowledgments moved by `d = y - x`, reaches
the same state and pushes the same segments, with all sequence numbers moved by `d`.  A receiver
that gets all sequence numbers moved by `d` does what it did, and its acknowledgments move by
`d`. -/
theorem isn_immaterial (capacity : Nat) (retxTimeout : UInt16) (x y : WrappingInt32)
    (es : List SenderEvent) (recvCapacity : Nat) (d : UInt32) (rs : List ReceiverEvent) :
    (∃ s, run TCPSender.step (TCPSender.new capacity retxTimeout x) es = some s ∧
      run TCPSender.step (TCPSender.new capacity retxTimeout y)
        (es.map (SenderEvent.shift (y.rawValue - x.rawValue))) =
        some { s with
          isn := y
          segmentsOut := s.segmentsOut.map (TCPSegment.shift (y.rawValue - x.rawValue))
          outstandingSegments :=
            s.outstandingSegments.map (TCPSegment.shift (y.rawValue - x.rawValue)) }) ∧
    (TCPReceiver.new recvCapacity).bind
        (run TCPReceiver.step · (rs.map (ReceiverEvent.shift d))) =
      ((TCPReceiver.new recvCapacity).bind (run TCPReceiver.step · rs)).map
        (TCPReceiver.shift d) ∧
    ∀ t : TCPReceiver, (t.shift d).streamOut = t.streamOut ∧
      (t.shift d).unassembledBytes = t.unassembledBytes ∧
      (t.shift d).windowSize = t.windowSize ∧
      (t.shift d).ackno = t.ackno.map fun a => a.add d := by
  refine ⟨?_, ?_, fun t => ⟨rfl, rfl, rfl, t.shift_ackno d⟩⟩
  · obtain ⟨s, hs, -, hisn⟩ := TCPSender.run_new (I := fun s => s.isn = x) capacity retxTimeout x
      rfl (fun _ _ _ h _ hmv => hmv.isn_eq.trans h) es
    have hxy : x.add (y.rawValue - x.rawValue) = y := by
      unfold WrappingInt32.add
      rw [show x.rawValue + (y.rawValue - x.rawValue) = y.rawValue by grind]
    have hnew : TCPSender.new capacity retxTimeout y =
        (TCPSender.new capacity retxTimeout x).shift (y.rawValue - x.rawValue) := by
      rw [TCPSender.shift, show (TCPSender.new capacity retxTimeout x).isn = x from rfl, hxy]
      rfl
    refine ⟨s, hs, ?_⟩
    rw [hnew, run_map _ _ (TCPSender.step_shift _), hs, Option.map_some, TCPSender.shift, hisn, hxy]
  · cases hr : TCPReceiver.new recvCapacity with
    | none => rfl
    | some r =>
      obtain ⟨-, rfl⟩ := TCPReceiver.new_eq_some hr
      exact run_map (TCPReceiver.shift d) (ReceiverEvent.shift d) (TCPReceiver.step_shift d) rs
        (TCPReceiver.fresh recvCapacity)

end Sponge
