import Sponge.Progress

/-!
# Recovery from total loss

From every state of the composed system, even if everything that is under way is lost, the timer,
`fill_window`, the reader and a network that delivers a few of the segments pushed and pairs shown
from then on bring every accepted byte to the reader (`recovers`).  So no interleaving and no loss
leaves the two parties stuck, also not with a closed window or with an acknowledgment in the middle
of a segment.
-/

namespace Sponge

open Tiling Transition

namespace System

open TCPSender StreamReassembler

variable {isn : WrappingInt32} {cap : Nat} {c x y : System} {e : SystemEvent}

/-- After `c` only what was pushed or shown after `c` arrives, and nothing is written. -/
def Fresh (c x : System) : SystemEvent → Prop
  | .sender e => e.Quiet
  | .ack a => a ∈ x.shown.drop c.shown.length
  | .deliver p seg => (p, seg) ∈ x.tx.sent.drop c.tx.sent.length
  | .read _ => True
  | .pop _ => True

/-- A step after everything that was under way in `c` is lost. -/
def AfterLoss (c x : System) (e : SystemEvent) (y : System) : Prop :=
  x.Assumed e y ∧ c.Fresh x e

theorem Fresh.quiet (h : c.Fresh x e) : e.Quiet := by
  cases e with
  | sender e => exact h
  | _ => trivial

/-- A state after the loss. -/
structure Since (isn : WrappingInt32) (cap : Nat) (c x : System) : Prop where
  live : Live isn cap x
  advances : Advances c x

/-- One event that is allowed after the loss. -/
theorem Since.single (h : Since isn cap c x) (hs : x.step e = some y) (hf : c.Fresh x e)
    (hp : x.Permitted e) (hr : x.Reaches e) (hsmall : y.tx.sender.Small) :
    Path step (AfterLoss c) x [e] y ∧ Since isn cap c y := by
  have ha : x.Assumed e y := ⟨hp, Or.inl ⟨hsmall, hr⟩⟩
  exact ⟨Path.single hs ⟨ha, hf⟩, live_step h.live hs ha,
    h.advances.trans (h.live.advances hs ha hf.quiet)⟩

/-- What is appended to a longer list is behind the shorter one. -/
theorem mem_drop_of_prefix {α : Type} {xs ys news : List α} {a : α} (h : xs <+: ys)
    (ha : a ∈ news) : a ∈ (ys ++ news).drop xs.length := by
  obtain ⟨mid, rfl⟩ := h
  rw [List.append_assoc, List.drop_left]
  exact List.mem_append_right mid ha

/-- A sender with few numbers in flight. -/
theorem small_of_near {s : TCPSender} (hq : Queue isn s)
    (hnext : s.nextSeqnoAbsolute < 2 ^ 63 - 2 ^ 31) (hw : s.stream.bytesWritten < 2 ^ 63 - 2 ^ 31)
    (hnear : s.nextSeqnoAbsolute ≤ s.receiverAck + 2 ^ 31) : s.Small := by
  refine ⟨hnext, hw, ?_⟩
  rintro ⟨p, seg⟩ hx
  have := (tiles_positions hq.tiles hx).1
  dsimp only
  omega

theorem step_sender {e : SenderEvent} {s' : TCPSender} (h : x.tx.sender.step e = some s') :
    x.step (.sender e) = some { x with tx := x.tx.record s' e } := by
  rw [step, Traced.step, h]
  rfl

/-! ## The reader, the timer and the network -/

/-- The reader reads everything. -/
theorem Since.readAll (h : Since isn cap c x) :
    ∃ y, Path step (AfterLoss c) x [.read x.rx.streamOut.buffer.length] y ∧ Since isn cap c y ∧
      y.tx = x.tx ∧ y.rx.streamOut.buffer = [] ∧ y.rx.currentAck = x.rx.currentAck ∧
      y.shown = x.shown ++ y.rx.shows := by
  have hs : x.step (.read x.rx.streamOut.buffer.length) =
      some (x.receive (x.rx.popStream x.rx.streamOut.buffer.length)
        (x.rx.streamOut.removed x.rx.streamOut.buffer.length)) := by
    rw [step, TCPReceiver.step_read, Option.map_some, ByteStream.read_fst]
  obtain ⟨hp, hsince⟩ := h.single hs trivial trivial trivial h.live.joint.small
  refine ⟨_, hp, hsince, rfl, ?_, currentAck_popStream _ _, rfl⟩
  change (x.rx.streamOut.popOutput _).buffer = []
  rw [ByteStream.popOutput, dif_pos (Nat.le_refl _)]
  exact List.drop_length

/-- Enough time passes: the oldest outstanding segment is pushed again. -/
theorem Since.timeout (h : Since isn cap c x) {seg : TCPSegment} {rest : List TCPSegment}
    (hq : x.tx.sender.outstandingSegments = seg :: rest) :
    ∃ ms y, Path step (AfterLoss c) x [.sender (.tick ms)] y ∧ Since isn cap c y ∧
      y.rx = x.rx ∧ y.tx.sender.outstandingSegments = seg :: rest ∧
      y.tx.sender.nextSeqnoAbsolute = x.tx.sender.nextSeqnoAbsolute ∧
      y.tx.sender.receiverAck = x.tx.sender.receiverAck ∧
      y.tx.sent = x.tx.sent ++ [(x.tx.sender.receiverAck, seg)] := by
  have hle : x.tx.sender.retransmissionTimer.accumulateTime ≤ x.tx.sender.retransmissionTimer.rto :=
    h.live.clocked.onTime.waits.elim (fun h0 => by omega) Nat.le_of_lt
  have hlt := h.live.clocked.onTime.rto_le h.live.clocked.initial
  have hadd := Word.add_of_lt (a := x.tx.sender.retransmissionTimer.accumulateTime)
    (b := x.tx.sender.retransmissionTimer.rto - x.tx.sender.retransmissionTimer.accumulateTime)
    (by rw [Word.size_eq]; omega)
  have htick := tick_expires h.live.timed hq (Nat.le_of_eq (by
    rw [hadd, Nat.add_sub_cancel' hle] :
      x.tx.sender.retransmissionTimer.rto = Word.add
        x.tx.sender.retransmissionTimer.accumulateTime
        (x.tx.sender.retransmissionTimer.rto - x.tx.sender.retransmissionTimer.accumulateTime)))
  have hsmall := h.live.joint.small
  obtain ⟨hp, hsince⟩ := h.single (step_sender (e := .tick _) htick) trivial trivial trivial
    ⟨hsmall.next, hsmall.written, hsmall.outstanding⟩
  refine ⟨_, _, hp, hsince, rfl, hq, rfl, rfl, ?_⟩
  simp only [Traced.record, List.drop_left]
  rfl

/-- The oldest outstanding segment is pushed again and arrives. -/
theorem Since.resend (h : Since isn cap c x) (hcap : 0 < cap) {seg : TCPSegment}
    {rest : List TCPSegment} (hq : x.tx.sender.outstandingSegments = seg :: rest)
    (hread : x.rx.streamOut.buffer = [])
    (hlt : x.rx.currentAck < x.tx.sender.receiverAck + seg.lengthInSequenceSpace) :
    ∃ es y, Path step (AfterLoss c) x es y ∧ es.length = 2 ∧ Since isn cap c y ∧
      y.tx.sender.nextSeqnoAbsolute = x.tx.sender.nextSeqnoAbsolute ∧
      y.tx.sender.receiverAck = x.tx.sender.receiverAck ∧ x.rx.currentAck < y.rx.currentAck := by
  obtain ⟨ms, y, hp, hy, hrx, hq', hnext, hack, hsent⟩ := h.timeout hq
  have hfresh : (x.tx.sender.receiverAck, seg) ∈ y.tx.sent.drop c.tx.sent.length := by
    rw [hsent]
    exact mem_drop_of_prefix h.advances.sent List.mem_cons_self
  have hmem := List.mem_of_mem_drop hfresh
  have hnear : y.Reaches (.deliver x.tx.sender.receiverAck seg) := by
    rw [← hack]
    exact hy.live.joint.near_oldest
  obtain ⟨z, hz, -⟩ := joint_step hy.live.joint (e := .deliver _ seg) hmem hnear
  have hz' := hz
  rw [step, Option.map_eq_some_iff] at hz'
  obtain ⟨rx, hrecv, rfl⟩ := hz'
  obtain ⟨hp', hsince⟩ := hy.single hz hfresh hmem hnear hy.live.joint.small
  refine ⟨_, _, hp.trans hp', rfl, hsince, hnext, hack, ?_⟩
  rw [← hrx]
  refine hy.live.joint.deliver_oldest hq' ?_ ?_ hrecv
  · rw [hrx, hread, h.live.capacity]
    exact fun _ => hcap
  · rw [hrx, hack]
    exact hlt

/-- A pair for the oldest outstanding segment arrives. -/
theorem Since.acknowledge (h : Since isn cap c x) {seg : TCPSegment} {rest : List TCPSegment}
    (hq : x.tx.sender.outstandingSegments = seg :: rest) {a : Shown}
    (ha : a ∈ x.shown.drop c.shown.length) (hcur : a.absAckno = x.rx.currentAck)
    (hle : x.tx.sender.receiverAck + seg.lengthInSequenceSpace ≤ x.rx.currentAck) :
    ∃ y, Path step (AfterLoss c) x [.ack a] y ∧ Since isn cap c y ∧ y.rx = x.rx ∧
      y.tx.sender.nextSeqnoAbsolute = x.tx.sender.nextSeqnoAbsolute ∧
      x.tx.sender.receiverAck < y.tx.sender.receiverAck := by
  have hmem := List.mem_of_mem_drop ha
  have hqueue := h.live.joint.sending.queue
  have hsmall := h.live.joint.small
  have hnext := hsmall.next
  have hnear := small_near hsmall hqueue
  have hcurLe := h.live.joint.receiving.currentAck_le h.live.joint.sending.cuts
  have hlt := hqueue.ackReceived_lt hnear (by omega) hq hle hcurLe (UInt16.ofNat a.windowSize)
  rw [← hcur, ← (h.live.joint.shown a hmem).1] at hlt
  have hmv := moved_of_step hqueue.toWellFormed
    (show x.tx.sender.step (.ackReceived a.ackno (UInt16.ofNat a.windowSize)) = some _ from rfl)
  have hframe := ackReceived_frame x.tx.sender a.ackno (UInt16.ofNat a.windowSize)
  have hs : x.step (.ack a) = _ := step_sender (e := .ackReceived a.ackno _) rfl
  generalize x.tx.sender.ackReceived a.ackno (UInt16.ofNat a.windowSize) = s' at *
  obtain ⟨hqueue', hack', -⟩ := hqueue.moved hnear (by omega) hmv
  have hnext' : s'.nextSeqnoAbsolute = x.tx.sender.nextSeqnoAbsolute := by rw [hframe]
  have hstream : s'.stream = x.tx.sender.stream := by rw [hframe]
  have hsmall' : s'.Small :=
    small_of_near hqueue' (by omega) (by rw [hstream]; exact hsmall.written) (by omega)
  obtain ⟨hp, hsince⟩ := h.single hs ha hmem ⟨by omega, by omega⟩ hsmall'
  exact ⟨_, hp, hsince, rfl, hnext', hlt⟩

/-- With nothing outstanding, `fill_window` sends something new, or there is nothing to send. -/
theorem Since.fill (h : Since isn cap c x) (hout : x.tx.sender.outstandingSegments = [])
    (hroom : x.tx.accepted.length + 2 < 2 ^ 63 - 2 ^ 31) :
    x.tx.sender.Filled ∨ ∃ y, Path step (AfterLoss c) x [.sender .fillWindow] y ∧
      Since isn cap c y ∧ y.rx = x.rx ∧
      y.tx.sender.receiverAck = x.tx.sender.receiverAck ∧
      x.tx.sender.nextSeqnoAbsolute < y.tx.sender.nextSeqnoAbsolute := by
  have hqueue := h.live.joint.sending.queue
  have hsmall := h.live.joint.small
  have hlt := hsmall.next
  have hack := hqueue.ack_eq_next hout
  obtain ⟨s', hs', hmv⟩ := step_moved hqueue.toWellFormed .fillWindow
  rcases fillWindow_moves hs' with hgrow | ⟨-, hfilled⟩
  swap
  · exact Or.inl hfilled
  right
  have hstep : x.tx.step .fillWindow = some (x.tx.record s' .fillWindow) := by
    rw [Traced.step, hs']
    rfl
  have hcuts := (Traced.streams_step ⟨hqueue.toWellFormed, h.live.joint.sending.cuts⟩ hstep
    trivial).cuts
  have hle : s'.nextSeqnoAbsolute ≤ x.tx.accepted.length + 2 := next_le_of_cuts hcuts
  have hwritten : x.tx.accepted.length = s'.stream.bytesWritten := hcuts.accepted
  have hinside := fillWindow_inside hqueue.toWellFormed hs' (by omega)
  rw [windowSize_eq] at hinside
  obtain ⟨hqueue', -, -⟩ := hqueue.moved (small_near hsmall hqueue) (by omega) hmv
  have hwindow := h.live.window
  have hack' : s'.receiverAck = x.tx.sender.receiverAck := by
    cases hmv with
    | filled hem _ => exact hem.unchanged Emitted.receiverAck
  have hsmall' : s'.Small := small_of_near hqueue' (by omega) (by omega) (by omega)
  obtain ⟨hp, hsince⟩ := h.single (step_sender hs') trivial trivial trivial hsmall'
  exact ⟨_, hp, hsince, rfl, hack', hgrow⟩

/-! ## A measure -/

/-- What is left to do: numbers to send, to acknowledge and to retire. -/
def remaining (c : System) : Nat :=
  3 * (c.tx.accepted.length + 2) - c.tx.sender.nextSeqnoAbsolute - c.tx.sender.receiverAck -
    c.rx.currentAck

/-- The measure in terms of the three counters. -/
theorem Joint.remaining_add (h : Joint isn c) :
    c.remaining + c.tx.sender.nextSeqnoAbsolute + c.tx.sender.receiverAck + c.rx.currentAck =
      3 * (c.tx.accepted.length + 2) := by
  have hnext := next_le_of_cuts h.sending.cuts
  have hcur := h.receiving.currentAck_le h.sending.cuts
  have hack := h.ack
  unfold remaining
  omega

/-- Nothing is outstanding and there is nothing to send. -/
def Settled (c : System) : Prop := c.tx.sender.outstandingSegments = [] ∧ c.tx.sender.Filled

/-- **At most three events bring a transfer that is not settled closer to its end.** -/
theorem Since.progress (h : Since isn cap c x) (hcap : 0 < cap)
    (hroom : c.tx.accepted.length + 2 < 2 ^ 63 - 2 ^ 31) :
    x.Settled ∨ ∃ es y, Path step (AfterLoss c) x es y ∧ Since isn cap c y ∧
      y.remaining < x.remaining ∧ es.length ≤ 3 := by
  have haccepted := h.advances.accepted
  have hx := h.live.joint.remaining_add
  rw [haccepted] at hx
  have hmeasure : ∀ {y}, Since isn cap c y → y.remaining + y.tx.sender.nextSeqnoAbsolute +
      y.tx.sender.receiverAck + y.rx.currentAck = 3 * (c.tx.accepted.length + 2) :=
    fun hy => by rw [← hy.advances.accepted]; exact hy.live.joint.remaining_add
  cases hout : x.tx.sender.outstandingSegments with
  | nil =>
    rcases h.fill hout (by rw [haccepted]; exact hroom) with hfilled | ⟨y, hp, hy, hrx, hack, hlt⟩
    · exact Or.inl ⟨hout, hfilled⟩
    · have hm := hmeasure hy
      rw [hrx] at hm
      exact Or.inr ⟨_, y, hp, hy, by omega, by simp⟩
  | cons seg rest =>
    right
    obtain ⟨y, hp, hy, htx, hread, hcur, hshown⟩ := h.readAll
    have hq : y.tx.sender.outstandingSegments = seg :: rest := by rw [htx, hout]
    rcases Nat.lt_or_ge y.rx.currentAck (y.tx.sender.receiverAck + seg.lengthInSequenceSpace)
      with hlt | hge
    · obtain ⟨es, z, hp', hlen, hz, hnext, hack, hgrow⟩ := hy.resend hcap hq hread hlt
      have hm := hmeasure hz
      rw [hnext, hack, htx] at hm
      exact ⟨_, z, hp.trans hp', hz, by omega, by simp [hlen]⟩
    · -- what the reader does shows the current acknowledgment
      have htiles := hy.live.joint.sending.queue.tiles
      rw [hq] at htiles
      have hpos := htiles.2.1
      obtain ⟨a, ha, hacur⟩ := TCPReceiver.exists_shows (t := y.rx) (by omega)
      have hfresh : a ∈ y.shown.drop c.shown.length := by
        obtain ⟨news, hnews, -⟩ := h.advances.shown
        rw [hshown]
        exact mem_drop_of_prefix ⟨news, hnews.symm⟩ ha
      obtain ⟨z, hp', hz, hrx, hnext, hgrow⟩ := hy.acknowledge hq hfresh hacur hge
      have hm := hmeasure hz
      rw [hnext, hrx, htx] at hm
      rw [htx] at hgrow
      exact ⟨_, z, hp.trans hp', hz, by omega, by simp⟩

end System

/-- **The transfer recovers from the loss of everything under way.**  In every state `c` of the
composed system whose receiver has room for a byte at all, suppose that no segment pushed and no
pair shown so far arrives any more and that the application writes nothing.  There is a
continuation, of at most nine events for each accepted byte and nineteen more, after which the
reader has read exactly what `stream_in()` had accepted, nothing is unsent or in flight, the
receiver is at the end of its stream iff the input had ended, and then the sender is in the state
FIN_ACKED. -/
theorem recovers (sendCapacity : Nat) (retxTimeout : UInt16) (isn : WrappingInt32)
    (recvCapacity : Nat) (hcap : 0 < recvCapacity) (c₀ : System)
    (hnew : System.new sendCapacity retxTimeout isn recvCapacity = some c₀)
    (es : List SystemEvent) (c : System) (hp : Path System.step System.Assumed c₀ es c)
    (hroom : c.tx.accepted.length + 2 < 2 ^ 63 - 2 ^ 31) :
    ∃ fs c', Path System.step c.AfterLoss c fs c' ∧ c'.Delivered ∧
      c'.tx.accepted = c.tx.accepted ∧
      c'.tx.sender.stream.inputEnded = c.tx.sender.stream.inputEnded ∧
      fs.length ≤ 9 * (c.tx.accepted.length + 2) + 1 := by
  have hlive := System.live_of_path (System.live_new hnew) hp
  obtain ⟨fs, x, hpath, hx, ⟨hout, hfilled⟩, hlen⟩ := Path.of_progress System.remaining
    (fun x hx => System.Since.progress hx hcap hroom) c ⟨hlive, System.Advances.refl c⟩
  obtain ⟨y, hpath', hy, htx, hread, -⟩ := hx.readAll
  refine ⟨_, y, hpath.trans hpath', ?_, hy.advances.accepted, hy.advances.inputEnded, ?_⟩
  · refine hy.live.delivered ?_ hread
    rw [htx]
    exact hx.live.acked_all hout hfilled
  · have := hlive.joint.remaining_add
    rw [List.length_append, List.length_singleton]
    omega

/-- A receiver with room for two bytes has got the SYN; the first two of three bytes are lost. -/
def lost : List SystemEvent :=
  let isn : WrappingInt32 := ⟨4294967294⟩
  [.sender .fillWindow, .deliver 0 { header := { seqno := isn, syn := true } },
    .sender (.write [1, 2, 3]), .sender .endInput, .ack ⟨1, wrap 1 isn, 2⟩, .sender .fillWindow]

theorem recovers_lost :
    ∃ c₀ c, System.new 8 1000 ⟨4294967294⟩ 2 = some c₀ ∧
      Path System.step System.Assumed c₀ lost c ∧ c.tx.sender.bytesInFlight = 2 ∧ c.taken = [] ∧
      ∃ fs c', Path System.step c.AfterLoss c fs c' ∧ c'.taken = [1, 2, 3] ∧
        c'.tx.sender.stateSummary = .finAcked := by
  obtain ⟨c, hc⟩ := Option.isSome_iff_exists.mp
    (show ((System.new 8 1000 ⟨4294967294⟩ 2).bind
      (check System.step System.Assumed · lost)).isSome = true by decide)
  obtain ⟨c₀, hnew, hcheck⟩ := Option.bind_eq_some_iff.mp hc
  have hp := Path.of_check hcheck
  have hfacts : c.tx.sender.bytesInFlight = 2 ∧ c.taken = [] ∧ c.tx.accepted = [1, 2, 3] ∧
      c.tx.sender.stream.inputEnded = true := by
    obtain rfl : _ = c := Option.some.inj hc
    decide
  obtain ⟨hflight, htaken, haccepted, hended⟩ := hfacts
  obtain ⟨fs, c', hp', hdone, hsame, hend, -⟩ := recovers 8 1000 ⟨4294967294⟩ 2 (by decide) c₀ hnew
    lost c hp (by rw [haccepted]; decide)
  exact ⟨c₀, c, hnew, hp, hflight, htaken, fs, c', hp', by rw [hdone.taken, hsame, haccepted],
    hdone.finAcked (hend.trans hended)⟩

end Sponge
