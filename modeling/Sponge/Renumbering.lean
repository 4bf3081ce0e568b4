import Sponge.EndToEnd
import Sponge.IsnShift

/-!
# Renumbering the composed system

The initial sequence number of a connection is random.  Moving it, and with it every sequence number
and every acknowledgment number on the wire, moves a run of the composed system to another run: the
network can do the same things, and the two applications cannot tell the runs apart.
-/

namespace Sponge

open Tiling Transition

def Shown.shift (d : UInt32) (a : Shown) : Shown := { a with ackno := a.ackno.add d }

def SystemEvent.shift (d : UInt32) : SystemEvent → SystemEvent
  | .sender e => .sender (e.shift d)
  | .ack a => .ack (a.shift d)
  | .deliver abs seg => .deliver abs (seg.shift d)
  | .read len => .read len
  | .pop len => .pop len

namespace Traced

/-- The history with every sequence number moved by `d`. -/
def shift (d : UInt32) (t : Traced) : Traced :=
  { t with
    sender := t.sender.shift d
    filled := t.filled.map (TCPSegment.shift d)
    resent := t.resent.map (TCPSegment.shift d)
    sent := t.sent.map fun x => (x.1, x.2.shift d) }

variable (d : UInt32) (t : Traced)

theorem drop_shift (s' : TCPSender) :
    (s'.shift d).segmentsOut.drop (t.shift d).sender.segmentsOut.length =
      (s'.segmentsOut.drop t.sender.segmentsOut.length).map (TCPSegment.shift d) := by
  change (s'.segmentsOut.map (TCPSegment.shift d)).drop
    (t.sender.segmentsOut.map (TCPSegment.shift d)).length = _
  rw [List.length_map, List.map_drop]

theorem record_shift (s' : TCPSender) (e : SenderEvent) :
    (t.shift d).record (s'.shift d) (e.shift d) = (t.record s' e).shift d := by
  have hnews := drop_shift d t s'
  have hpos := positions_map (TCPSegment.lengthInSequenceSpace_shift d)
    (s'.segmentsOut.drop t.sender.segmentsOut.length)
  cases e with
  | write data => rfl
  | endInput => rfl
  | fillWindow =>
    simp only [record, SenderEvent.shift, hnews, hpos]
    simp only [shift, List.map_append]
    rfl
  | ackReceived ackno w =>
    have hun : unwrap (ackno.add d) (t.shift d).sender.isn (t.shift d).sender.nextSeqnoAbsolute =
        unwrap ackno t.sender.isn t.sender.nextSeqnoAbsolute := unwrap_shift _ _ _ _
    simp only [record, SenderEvent.shift, hun]
    rfl
  | tick ms =>
    simp only [record, SenderEvent.shift, hnews, hpos]
    simp only [shift, List.map_append]
    rfl
  | sendEmptySegment =>
    simp only [record, SenderEvent.shift, hnews, hpos]
    simp only [shift, List.map_append]
    rfl

theorem step_shift (e : SenderEvent) : (t.shift d).step (e.shift d) = (t.step e).map (shift d) := by
  have hs : (t.shift d).sender.step (e.shift d) = (t.sender.step e).map (TCPSender.shift d) :=
    TCPSender.step_shift d t.sender e
  rw [step, step, hs, Option.map_map, Option.map_map]
  congr 1
  funext s'
  exact record_shift d t s' e

end Traced

namespace System

/-- The composed system with every sequence and acknowledgment number moved by `d`. -/
def shift (d : UInt32) (c : System) : System :=
  { c with tx := c.tx.shift d, rx := c.rx.shift d, shown := c.shown.map (Shown.shift d) }

variable (d : UInt32) (c : System)

theorem new_shift (sendCapacity : Nat) (retxTimeout : UInt16) (x : WrappingInt32)
    (recvCapacity : Nat) : new sendCapacity retxTimeout (x.add d) recvCapacity =
      (new sendCapacity retxTimeout x recvCapacity).map (shift d) := by
  unfold new
  cases hrx : TCPReceiver.new recvCapacity with
  | none => rfl
  | some rx =>
    obtain ⟨-, rfl⟩ := TCPReceiver.new_eq_some hrx
    rfl

theorem shift_shows (rx : TCPReceiver) : (rx.shift d).shows = rx.shows.map (Shown.shift d) := by
  unfold TCPReceiver.shows
  rw [rx.shift_ackno d]
  cases rx.ackno with
  | none => rfl
  | some a => rfl

theorem receive_shift (rx : TCPReceiver) (bytes : List UInt8) :
    (c.shift d).receive (rx.shift d) bytes = (c.receive rx bytes).shift d := by
  simp only [receive, shift_shows, shift, List.map_append]

/-- Every event respects the shift. -/
theorem step_shift (e : SystemEvent) : (c.shift d).step (e.shift d) = (c.step e).map (shift d) := by
  have hsender : ∀ e', ((c.shift d).tx.step (e'.shift d)).map
        (fun tx => { c.shift d with tx := tx }) =
      ((c.tx.step e').map fun tx => { c with tx := tx }).map (shift d) := by
    intro e'
    rw [show (c.shift d).tx = c.tx.shift d from rfl, Traced.step_shift, Option.map_map,
      Option.map_map]
    rfl
  have hreceive : ∀ e' bytes, ((c.shift d).rx.step (e'.shift d)).map
        (fun rx => (c.shift d).receive rx bytes) =
      ((c.rx.step e').map fun rx => c.receive rx bytes).map (shift d) := by
    intro e' bytes
    rw [show (c.shift d).rx = c.rx.shift d from rfl, TCPReceiver.step_shift, Option.map_map,
      Option.map_map]
    congr 1
    funext rx
    exact receive_shift d c rx bytes
  cases e with
  | sender e => exact hsender e
  | ack a => exact hsender (.ackReceived a.ackno (UInt16.ofNat a.windowSize))
  | deliver abs seg => exact hreceive (.segment seg) []
  | read len => exact hreceive (.read len) _
  | pop len => exact hreceive (.pop len) _

variable {d c} {e : SystemEvent}

/-- The network may do the same after the shift. -/
theorem Permitted.shift (h : c.Permitted e) : (c.shift d).Permitted (e.shift d) := by
  cases e with
  | sender e =>
    cases e with
    | ackReceived ackno w => exact h
    | _ => exact h
  | ack a => exact List.mem_map_of_mem h
  | deliver abs seg => exact List.mem_map_of_mem (f := fun x => (x.1, x.2.shift d)) h
  | read len => trivial
  | pop len => trivial

theorem small_shift {s : TCPSender} (h : s.Small) : (s.shift d).Small := by
  refine ⟨h.next, h.written, fun x hx => ?_⟩
  have hpos := positions_map (TCPSegment.lengthInSequenceSpace_shift d) s.outstandingSegments
    s.receiverAck
  obtain ⟨y, hy, rfl⟩ := List.mem_map.mp (hpos ▸ hx)
  exact h.outstanding y hy

theorem Reaches.shift (h : c.Reaches e) : (c.shift d).Reaches (e.shift d) := by
  cases e <;> exact h

theorem Assumed.shift {c' : System} (h : c.Assumed e c') :
    (c.shift d).Assumed (e.shift d) (c'.shift d) :=
  ⟨Permitted.shift h.1, h.2.imp (fun h => ⟨small_shift h.1, Reaches.shift h.2⟩) id⟩

end System

/-- **The initial sequence number is immaterial to a connection.**  For every run of the composed
system there is one with any other initial sequence number, in which the same things happen to the
same segments and acknowledgments, renumbered; if the first run keeps to what is assumed of the
network, the writer and the counters, so does the second.  The writer and the reader see the same in
both: the bytes, the room in the two streams, their ends, and the states of the connection. -/
theorem numbering_immaterial (sendCapacity : Nat) (retxTimeout : UInt16) (x y : WrappingInt32)
    (recvCapacity : Nat) (c₀ : System)
    (hnew : System.new sendCapacity retxTimeout x recvCapacity = some c₀)
    (es : List SystemEvent) (c : System) (hrun : run System.step c₀ es = some c) :
    ∃ c₀' c', System.new sendCapacity retxTimeout y recvCapacity = some c₀' ∧
      run System.step c₀' (es.map (SystemEvent.shift (y.rawValue - x.rawValue))) = some c' ∧
      (Path System.step System.Assumed c₀ es c →
        Path System.step System.Assumed c₀' (es.map (SystemEvent.shift (y.rawValue - x.rawValue)))
          c') ∧
      c'.tx.sent = c.tx.sent.map (fun x' => (x'.1, x'.2.shift (y.rawValue - x.rawValue))) ∧
      c'.shown = c.shown.map (Shown.shift (y.rawValue - x.rawValue)) ∧
      c'.tx.accepted = c.tx.accepted ∧ c'.taken = c.taken ∧
      c'.tx.sender.stream = c.tx.sender.stream ∧ c'.rx.streamOut = c.rx.streamOut ∧
      c'.tx.sender.stateSummary = c.tx.sender.stateSummary ∧
      c'.rx.stateSummary = c.rx.stateSummary := by
  refine ⟨c₀.shift (y.rawValue - x.rawValue), c.shift (y.rawValue - x.rawValue), ?_, ?_,
    fun hp => hp.map _ _ fun a e b hs ha => ⟨?_, System.Assumed.shift ha⟩, rfl, rfl, rfl, rfl, rfl,
    rfl, rfl, ?_⟩
  · have hxy : x.add (y.rawValue - x.rawValue) = y := by
      unfold WrappingInt32.add
      rw [show x.rawValue + (y.rawValue - x.rawValue) = y.rawValue by grind]
    have hshift := System.new_shift (y.rawValue - x.rawValue) sendCapacity retxTimeout x
      recvCapacity
    rwa [hxy, hnew, Option.map_some] at hshift
  · rw [run_map _ _ (System.step_shift _), hrun, Option.map_some]
  · rw [System.step_shift, hs, Option.map_some]
  · change (c.rx.shift _).stateSummary = _
    unfold TCPReceiver.stateSummary
    rw [c.rx.shift_ackno, Option.isNone_map]
    rfl

/-- The exchange with the initial sequence number 7. -/
theorem numbering_immaterial_exchange :
    ∃ c₀ c, System.new 8 1000 ⟨7⟩ 4 = some c₀ ∧
      Path System.step System.Assumed c₀ (exchange.map (SystemEvent.shift 9)) c ∧
      c.taken = [1, 2] ∧ c.tx.sender.stateSummary = .finAcked := by
  obtain ⟨c, hc, hfacts⟩ := Option.map_eq_some_iff.mp
    (show ((System.new 8 1000 ⟨4294967294⟩ 4).bind
      (check System.step System.Assumed · exchange)).map
        (fun c => (c.taken, c.tx.sender.stateSummary)) = some ([1, 2], .finAcked) by decide +kernel)
  obtain ⟨c₀, hnew, hcheck⟩ := Option.bind_eq_some_iff.mp hc
  obtain ⟨htaken, hsummary⟩ := Prod.mk.inj hfacts
  have hp := Path.of_check hcheck
  obtain ⟨c₀', c', hnew', -, hassumed, -, -, -, htaken', -, -, hsummary', -⟩ :=
    numbering_immaterial 8 1000 ⟨4294967294⟩ ⟨7⟩ 4 c₀ hnew exchange c hp.run_eq
  exact ⟨c₀', c', hnew', hassumed hp, htaken'.trans htaken, hsummary'.trans hsummary⟩

end Sponge
