import Sponge.ByteStream
import Sponge.Lib.Tiling
import Sponge.RetransmissionTimer
import Sponge.Segment

/-!
# The TCP sender

`TCPSender` (tcp_sender.hh, tcp_sender.cc).  `segmentsOut` is the log of everything pushed onto
`_segments_out`: the owner of the sender pops that queue, the sender itself never looks at it.
`_next_seqno` and `_receiver_ack` count sequence numbers and are natural numbers; the differences
taken of them, and the sums of unwrapped numbers, are those of 64-bit words.

`fill_window` calls itself; `fillOnce` is one activation and `fillWindow_spec` says what the whole
recursion does: it ends, and it emits new segments one after the other.
-/

namespace Sponge

structure TCPSender where
  isn : WrappingInt32
  segmentsOut : List TCPSegment
  initialRetransmissionTimeout : Nat
  stream : ByteStream
  nextSeqnoAbsolute : Nat
  retransmissionTimer : RetransmissionTimer
  receiverAck : Nat
  receiverWindowSize : Nat
  outstandingSegments : List TCPSegment
  consecutiveRetransmissions : Nat
  setSynFlag : Bool
  setFinFlag : Bool
  deriving DecidableEq, Repr

namespace TCPSender

/-- The constructor, with the initial sequence number it was given or has drawn. -/
def new (capacity : Nat) (retxTimeout : UInt16) (isn : WrappingInt32) : TCPSender where
  isn := isn
  segmentsOut := []
  initialRetransmissionTimeout := retxTimeout.toNat
  stream := ByteStream.new capacity
  nextSeqnoAbsolute := 0
  retransmissionTimer := RetransmissionTimer.new retxTimeout.toNat
  receiverAck := 0
  receiverWindowSize := 1
  outstandingSegments := []
  consecutiveRetransmissions := 0
  setSynFlag := false
  setFinFlag := false

def bytesInFlight (s : TCPSender) : Nat := Word.sub s.nextSeqnoAbsolute s.receiverAck

def nextSeqno (s : TCPSender) : WrappingInt32 := wrap s.nextSeqnoAbsolute s.isn

def windowNotFull (s : TCPSender) (windowSize : Nat) : Bool := s.bytesInFlight < windowSize

/-! ## fill_window -/

/-- The window `fill_window` works with: a closed window counts as one byte. -/
def windowSize (s : TCPSender) : Nat :=
  if s.receiverWindowSize = 0 then 1 else s.receiverWindowSize

/-- The end of an activation: the segment is pushed, and the window is looked at again. -/
def send (s : TCPSender) (windowSize : Nat) (segment : TCPSegment) : TCPSender × Bool :=
  let s := { s with
    segmentsOut := s.segmentsOut ++ [segment]
    outstandingSegments := s.outstandingSegments ++ [segment]
    retransmissionTimer := s.retransmissionTimer.startTimer }
  (s, s.windowNotFull windowSize)

/-- The number of payload bytes of the next segment. -/
def payloadSize (s : TCPSender) : Nat :=
  min (min (Word.sub s.windowSize s.bytesInFlight) s.stream.bufferSize) TCPConfig.maxPayloadSize

/-- One activation of `fill_window`; the second component says whether it calls itself again. -/
def fillOnce (s : TCPSender) : TCPSender × Bool :=
  if s.setFinFlag then (s, false)
  else if s.nextSeqnoAbsolute = 0 then
    send { s with setSynFlag := true, nextSeqnoAbsolute := s.nextSeqnoAbsolute + 1 }
      s.windowSize { header := { syn := true, seqno := s.isn } }
  else
    let read := s.stream.read s.payloadSize
    let segment : TCPSegment := { header := { seqno := s.nextSeqno }, payload := read.1 }
    let s' := { s with
      stream := read.2
      nextSeqnoAbsolute := s.nextSeqnoAbsolute + s.payloadSize }
    if s'.stream.eof && s'.windowNotFull s.windowSize then
      send { s' with setFinFlag := true, nextSeqnoAbsolute := s'.nextSeqnoAbsolute + 1 }
        s.windowSize { segment with header := { segment.header with fin := true } }
    else if s.payloadSize = 0 then (s', false)
    else send s' s.windowSize segment

/-- At most `fuel` activations. -/
def fillLoop : Nat → TCPSender → Option TCPSender
  | 0, _ => none
  | fuel + 1, s =>
    match s.fillOnce with
    | (s', false) => some s'
    | (s', true) => fillLoop fuel s'

/-- `fill_window`: every activation but the last sends the SYN, a byte of the stream or the FIN. -/
def fillWindow (s : TCPSender) : Option TCPSender := fillLoop (s.stream.bufferSize + 3) s

/-! ## ack_received, tick, send_empty_segment -/

/-- The loop of `ack_received` over the outstanding segments: `_receiver_ack`, the flag
`is_ack_update` and the segments that stay. -/
def retire (isn : WrappingInt32) (next absAckno : Nat) :
    Nat → Bool → List TCPSegment → Nat × Bool × List TCPSegment
  | ack, updated, [] => (ack, updated, [])
  | ack, updated, segment :: rest =>
    let stop := Word.add (unwrap segment.header.seqno isn next) segment.lengthInSequenceSpace
    if stop ≤ absAckno then retire isn next absAckno stop true rest
    else (ack, updated, segment :: rest)

/-- The acknowledgment is neither for data not yet sent nor behind the last one. -/
def Accepts (s : TCPSender) (absAckno : Nat) : Prop :=
  absAckno ≤ s.nextSeqnoAbsolute ∧ s.receiverAck ≤ absAckno

instance (s : TCPSender) (absAckno : Nat) : Decidable (s.Accepts absAckno) :=
  inferInstanceAs (Decidable (_ ∧ _))

def ackReceived (s : TCPSender) (ackno : WrappingInt32) (windowSize : UInt16) : TCPSender :=
  let absAckno := unwrap ackno s.isn s.nextSeqnoAbsolute
  if s.Accepts absAckno then
    let left := retire s.isn s.nextSeqnoAbsolute absAckno s.receiverAck false s.outstandingSegments
    let s := { s with
      receiverWindowSize := windowSize.toNat
      receiverAck := left.1
      outstandingSegments := left.2.2 }
    let s := if s.outstandingSegments.isEmpty then
        { s with retransmissionTimer := s.retransmissionTimer.stopTimer }
      else s
    if left.2.1 then
      { s with
        retransmissionTimer := (s.retransmissionTimer.setTimeout
          s.initialRetransmissionTimeout).setAccumulateTime 0
        consecutiveRetransmissions := 0 }
    else s
  else s

/-- `tick`; the oldest outstanding segment is sent again when the timer expires. -/
def tick (s : TCPSender) (msSinceLastTick : Nat) : Option TCPSender :=
  let check := s.retransmissionTimer.checkTimeout msSinceLastTick
  let s := { s with retransmissionTimer := check.2 }
  if check.1 then
    let timer :=
      if 0 < s.receiverWindowSize then s.retransmissionTimer.handleTimeout
      else (s.retransmissionTimer.setTimeout s.initialRetransmissionTimeout).setAccumulateTime 0
    match s.outstandingSegments with
    | [] => none
    | segment :: _ =>
      some { s with
        retransmissionTimer := timer
        consecutiveRetransmissions := (s.consecutiveRetransmissions + 1) % 2 ^ 32
        segmentsOut := s.segmentsOut ++ [segment] }
  else some s

def sendEmptySegment (s : TCPSender) : TCPSender :=
  { s with segmentsOut := s.segmentsOut ++ [{ header := { seqno := s.nextSeqno } }] }

end TCPSender

/-- What can happen to a sender. -/
inductive SenderEvent
  | write (data : List UInt8)
  | endInput
  | fillWindow
  | ackReceived (ackno : WrappingInt32) (windowSize : UInt16)
  | tick (msSinceLastTick : Nat)
  | sendEmptySegment
  deriving DecidableEq, Repr

def TCPSender.step (s : TCPSender) : SenderEvent → Option TCPSender
  | .write data => some { s with stream := (s.stream.write data).2 }
  | .endInput => some { s with stream := s.stream.endInput }
  | .fillWindow => s.fillWindow
  | .ackReceived ackno windowSize => some (s.ackReceived ackno windowSize)
  | .tick ms => s.tick ms
  | .sendEmptySegment => some s.sendEmptySegment

namespace TCPSender

open Tiling

/-! ## What fill_window emits -/

/-- Nothing to send: the FIN is out, or there is neither a byte nor a FIN that the window lets
through. -/
def Idle (s : TCPSender) : Prop :=
  s.setFinFlag = true ∨ s.nextSeqnoAbsolute ≠ 0 ∧ s.payloadSize = 0 ∧
    (s.stream.eof && s.windowNotFull s.windowSize) = false

/-- `s'` is `s` after one new segment. -/
structure Emitted (s : TCPSender) (seg : TCPSegment) (s' : TCPSender) : Prop where
  isn : s'.isn = s.isn
  segmentsOut : s'.segmentsOut = s.segmentsOut ++ [seg]
  outstandingSegments : s'.outstandingSegments = s.outstandingSegments ++ [seg]
  running : s'.retransmissionTimer.isRunning = true
  next : s'.nextSeqnoAbsolute = s.nextSeqnoAbsolute + seg.lengthInSequenceSpace
  receiverAck : s'.receiverAck = s.receiverAck
  receiverWindowSize : s'.receiverWindowSize = s.receiverWindowSize
  seqno : seg.header.seqno = wrap s.nextSeqnoAbsolute s.isn
  pos : 0 < seg.lengthInSequenceSpace
  bytesWritten : s'.stream.bytesWritten = s.stream.bytesWritten
  inputEnded : s'.stream.inputEnded = s.stream.inputEnded
  buffer : seg.payload ++ s'.stream.buffer = s.stream.buffer
  bytesRead : s'.stream.bytesRead = s.stream.bytesRead + seg.payload.length
  setSynFlag : s'.setSynFlag = (s.setSynFlag || seg.header.syn)
  setFinFlag : s'.setFinFlag = seg.header.fin
  finUnsent : s.setFinFlag = false
  syn : seg.header.syn = true ↔ s.nextSeqnoAbsolute = 0
  synBare : seg.header.syn = true → seg.payload = [] ∧ seg.header.fin = false
  fin : seg.header.fin = true → s'.stream.eof = true
  payload_le : seg.payload.length ≤ TCPConfig.maxPayloadSize
  payload_fits : seg.payload.length ≤ Word.sub s.windowSize s.bytesInFlight
  fin_fits : seg.header.fin = true →
    Word.sub (s.nextSeqnoAbsolute + seg.payload.length) s.receiverAck < s.windowSize

/-- The SYN is a new segment. -/
theorem emitted_syn {s : TCPSender} (hfin : s.setFinFlag = false)
    (hnext : s.nextSeqnoAbsolute = 0) (w : Nat) :
    Emitted s { header := { syn := true, seqno := s.isn } }
      (send { s with setSynFlag := true, nextSeqnoAbsolute := s.nextSeqnoAbsolute + 1 } w
        { header := { syn := true, seqno := s.isn } }).1 where
  isn := rfl
  segmentsOut := rfl
  outstandingSegments := rfl
  running := RetransmissionTimer.startTimer_isRunning _
  next := rfl
  receiverAck := rfl
  receiverWindowSize := rfl
  seqno := by rw [hnext, wrap_zero]
  pos := Nat.one_pos
  bytesWritten := rfl
  inputEnded := rfl
  buffer := rfl
  bytesRead := rfl
  setSynFlag := by simp [send]
  setFinFlag := hfin
  finUnsent := hfin
  syn := by simp [hnext]
  synBare := by simp
  fin := by simp
  payload_le := Nat.zero_le _
  payload_fits := Nat.zero_le _
  fin_fits := by simp

/-- A segment with `n` bytes of the stream, and the FIN if `fin` is set, is a new segment. -/
theorem emitted_data {s : TCPSender} (hfin : s.setFinFlag = false)
    (hnext : s.nextSeqnoAbsolute ≠ 0) (w : Nat) (fin : Bool)
    (hpos : fin = false → s.payloadSize ≠ 0)
    (heof : fin = true → (s.stream.read s.payloadSize).2.eof = true)
    (hfits : fin = true →
      Word.sub (s.nextSeqnoAbsolute + s.payloadSize) s.receiverAck < s.windowSize) :
    Emitted s
      { header := { seqno := s.nextSeqno, fin := fin }
        payload := (s.stream.read s.payloadSize).1 }
      (send { s with
          stream := (s.stream.read s.payloadSize).2
          setFinFlag := fin || s.setFinFlag
          nextSeqnoAbsolute := s.nextSeqnoAbsolute + s.payloadSize + (if fin then 1 else 0) } w
        { header := { seqno := s.nextSeqno, fin := fin }
          payload := (s.stream.read s.payloadSize).1 }).1 := by
  have hle : s.payloadSize ≤ s.stream.buffer.length := by
    simp only [payloadSize, ByteStream.bufferSize]
    omega
  have hlen : (s.stream.read s.payloadSize).1.length = s.payloadSize := by
    rw [ByteStream.read_fst, ByteStream.removed, if_pos hle, List.length_take]
    omega
  have hsnd := s.stream.read_snd s.payloadSize
  have hap := s.stream.removed_append s.payloadSize
  rw [← ByteStream.read_fst, ← hsnd] at hap
  exact {
    isn := rfl
    segmentsOut := rfl
    outstandingSegments := rfl
    running := RetransmissionTimer.startTimer_isRunning _
    next := by simp [send, TCPSegment.lengthInSequenceSpace, hlen, Nat.add_assoc]
    receiverAck := rfl
    receiverWindowSize := rfl
    seqno := rfl
    pos := by
      simp only [TCPSegment.lengthInSequenceSpace, hlen]
      cases fin with
      | true => simp
      | false =>
        have := hpos rfl
        omega
    bytesWritten := by simp [send, hsnd]
    inputEnded := by simp [send, hsnd]
    buffer := hap
    bytesRead := by
      have := s.stream.popOutput_bytesRead s.payloadSize
      rw [← ByteStream.read_fst, ← hsnd] at this
      exact this
    setSynFlag := by simp [send]
    setFinFlag := by simp [send, hfin]
    finUnsent := hfin
    syn := by simp [hnext]
    synBare := by simp
    fin := heof
    payload_le := by
      rw [hlen, payloadSize]
      omega
    payload_fits := by
      rw [hlen, payloadSize]
      omega
    fin_fits := by rwa [hlen] }

/-- One activation of `fill_window` has nothing to send and stops, or emits a new segment and goes
on if the window is not full. -/
theorem fillOnce_cases (s : TCPSender) :
    s.Idle ∧ s.fillOnce = (s, false) ∨
      ∃ seg s', s.fillOnce = (s', s'.windowNotFull s.windowSize) ∧ Emitted s seg s' := by
  unfold fillOnce
  split
  · rename_i hfin
    exact Or.inl ⟨Or.inl hfin, rfl⟩
  · rename_i hfin
    rw [Bool.not_eq_true] at hfin
    split
    · rename_i hnext
      exact Or.inr ⟨_, _, rfl, emitted_syn hfin hnext s.windowSize⟩
    · rename_i hnext
      dsimp only
      split
      · rename_i hlast
        rw [Bool.and_eq_true] at hlast
        exact Or.inr ⟨_, _, rfl, emitted_data hfin hnext s.windowSize true (by simp)
          (fun _ => hlast.1) (fun _ => of_decide_eq_true hlast.2)⟩
      · rename_i hlast
        split
        · rename_i hzero
          rw [hzero, ByteStream.read_zero] at hlast
          rw [hzero, ByteStream.read_zero]
          exact Or.inl ⟨Or.inr ⟨hnext, hzero, by simpa using hlast⟩, rfl⟩
        · rename_i hsize
          exact Or.inr ⟨_, _, rfl, emitted_data hfin hnext s.windowSize false (fun _ => hsize)
            (by simp) (by simp)⟩

/-- New segments, one after the other. -/
inductive Emits : TCPSender → List TCPSegment → TCPSender → Prop
  | nil (s : TCPSender) : Emits s [] s
  | cons {s s₁ s' : TCPSender} {seg : TCPSegment} {segs : List TCPSegment} :
      Emitted s seg s₁ → Emits s₁ segs s' → Emits s (seg :: segs) s'

/-- What every new segment keeps holds after all of them. -/
theorem Emits.invariant {I : List TCPSegment → TCPSender → Prop} {s s' : TCPSender}
    {news : List TCPSegment} (h : Emits s news s')
    (hstep : ∀ segs s seg s', I segs s → Emitted s seg s' → I (segs ++ [seg]) s') :
    ∀ segs, I segs s → I (segs ++ news) s' := by
  induction h with
  | nil s =>
    intro segs hI
    rwa [List.append_nil]
  | @cons s s₁ s' seg news he _ ih =>
    intro segs hI
    have := ih (segs ++ [seg]) (hstep _ _ _ _ hI he)
    rwa [List.append_assoc] at this

/-- What no new segment changes. -/
theorem Emits.unchanged {β : Type} {f : TCPSender → β} {s s' : TCPSender} {news : List TCPSegment}
    (h : Emits s news s') (hf : ∀ {s seg s'}, Emitted s seg s' → f s' = f s) : f s' = f s :=
  h.invariant (I := fun _ u => f u = f s) (fun _ _ _ _ hu he => (hf he).trans hu) [] rfl

/-- A queue that every new segment is pushed onto. -/
theorem Emits.pushed {f : TCPSender → List TCPSegment} {s s' : TCPSender}
    {news : List TCPSegment} (h : Emits s news s')
    (hf : ∀ {s seg s'}, Emitted s seg s' → f s' = f s ++ [seg]) : f s' = f s ++ news := by
  refine h.invariant (I := fun segs u => f u = f s ++ segs) ?_ [] (List.append_nil _).symm
  intro segs u seg u' hu he
  rw [hf he, hu, List.append_assoc]

theorem Emitted.next_ne_zero {s s' : TCPSender} {seg : TCPSegment} (h : Emitted s seg s') :
    s'.nextSeqnoAbsolute ≠ 0 := by
  have := h.pos
  rw [h.next]
  omega

/-- What is still to be sent; every new segment makes it smaller. -/
def unsent (s : TCPSender) : Nat :=
  s.stream.buffer.length + (if s.nextSeqnoAbsolute = 0 then 1 else 0) +
    (if s.setFinFlag then 0 else 1)

theorem Emitted.unsent_lt {s s' : TCPSender} {seg : TCPSegment} (h : Emitted s seg s') :
    s'.unsent < s.unsent := by
  have hbuf := congrArg List.length h.buffer
  rw [List.length_append] at hbuf
  have hpos := h.pos
  simp only [unsent, h.setFinFlag, h.finUnsent, h.next_ne_zero, if_false, Bool.false_eq_true]
  by_cases hsyn : seg.header.syn = true
  · obtain ⟨hpay, hfin⟩ := h.synBare hsyn
    simp only [hpay, List.length_nil] at hbuf
    simp only [h.syn.mp hsyn, hfin, if_true, Bool.false_eq_true, if_false]
    omega
  · have hnext : s.nextSeqnoAbsolute ≠ 0 := fun h0 => hsyn (h.syn.mpr h0)
    rw [TCPSegment.lengthInSequenceSpace, if_neg hsyn] at hpos
    rw [if_neg hnext]
    cases hfin : seg.header.fin with
    | true =>
      simp only [if_true]
      omega
    | false =>
      simp only [hfin, Bool.false_eq_true, if_false] at hpos ⊢
      omega

theorem fillLoop_spec (fuel : Nat) : ∀ s : TCPSender, s.unsent < fuel →
    ∃ s' news, fillLoop fuel s = some s' ∧ Emits s news s' ∧ (news = [] → s.Idle) := by
  induction fuel with
  | zero =>
    intro s h
    omega
  | succ fuel ih =>
    intro s h
    unfold fillLoop
    rcases fillOnce_cases s with ⟨hidle, heq⟩ | ⟨seg, s₁, heq, hem⟩
    · rw [heq]
      exact ⟨s, [], rfl, Emits.nil s, fun _ => hidle⟩
    · rw [heq]
      cases s₁.windowNotFull s.windowSize with
      | false => exact ⟨s₁, [seg], rfl, Emits.cons hem (Emits.nil s₁), by simp⟩
      | true =>
        have := hem.unsent_lt
        obtain ⟨s', news, hloop, hems, -⟩ := ih s₁ (by omega)
        exact ⟨s', seg :: news, hloop, Emits.cons hem hems, by simp⟩

/-- **`fill_window` ends**, emits a series of new segments, and emits none only if there is nothing
to send. -/
theorem fillWindow_spec (s : TCPSender) :
    ∃ s' news, s.fillWindow = some s' ∧ Emits s news s' ∧ (news = [] → s.Idle) := by
  refine fillLoop_spec _ s ?_
  simp only [unsent, ByteStream.bufferSize]
  split <;> split <;> omega

/-! ## What an acknowledgment retires -/

/-- The segment starts at absolute sequence number `p`. -/
def Placed (isn : WrappingInt32) (p : Nat) (seg : TCPSegment) : Prop :=
  seg.header.seqno = wrap p isn

/-- Near `_next_seqno`, the loop finds the end of a segment where it is. -/
theorem Placed.end_eq {isn : WrappingInt32} {seg : TCPSegment} {next ack : Nat}
    (h : Placed isn ack seg) (hlt : next < 2 ^ 63) (hnear : next ≤ ack + 2 ^ 31) (hle : ack ≤ next)
    (hsize : ack + seg.lengthInSequenceSpace < Word.size) :
    Word.add (unwrap seg.header.seqno isn next) seg.lengthInSequenceSpace =
      ack + seg.lengthInSequenceSpace := by
  rw [show seg.header.seqno = wrap ack isn from h,
    unwrap_wrap ack next isn hnear (by omega) (by omega)]
  exact Word.add_of_lt hsize

theorem retire_suffix (isn : WrappingInt32) (next absAckno : Nat) (segs : List TCPSegment) :
    ∀ ack updated, (retire isn next absAckno ack updated segs).2.2 <:+ segs := by
  induction segs with
  | nil =>
    intro ack updated
    exact List.suffix_refl _
  | cons seg segs ih =>
    intro ack updated
    unfold retire
    dsimp only
    split
    · exact (ih _ _).trans (List.suffix_cons seg segs)
    · exact List.suffix_refl _

/-- `_receiver_ack` never passes the acknowledgment. -/
theorem retire_le (isn : WrappingInt32) (next absAckno : Nat) (segs : List TCPSegment) :
    ∀ ack updated, ack ≤ absAckno → (retire isn next absAckno ack updated segs).1 ≤ absAckno := by
  induction segs with
  | nil =>
    intro ack updated h
    exact h
  | cons seg segs ih =>
    intro ack updated h
    unfold retire
    dsimp only
    split
    · rename_i hstop
      exact ih _ _ hstop
    · exact h

/-- A queue that tiles `[ack, next)`, with no segment further back than half the sequence space,
keeps doing so while segments are retired. -/
theorem retire_tiles {isn : WrappingInt32} {next absAckno : Nat} (hlt : next < 2 ^ 63)
    (segs : List TCPSegment) : ∀ ack updated, next ≤ ack + 2 ^ 31 →
      Tiles (Placed isn) TCPSegment.lengthInSequenceSpace ack segs next →
      ack ≤ (retire isn next absAckno ack updated segs).1 ∧
      Tiles (Placed isn) TCPSegment.lengthInSequenceSpace
        (retire isn next absAckno ack updated segs).1
        (retire isn next absAckno ack updated segs).2.2 next := by
  induction segs with
  | nil =>
    intro ack updated _ h
    exact ⟨Nat.le_refl _, h⟩
  | cons seg segs ih =>
    intro ack updated hnear h
    have hle := tiles_le h.2.2
    have hend := h.1.end_eq hlt hnear (by omega) (by rw [Word.size_eq]; omega)
    unfold retire
    simp only [hend]
    split
    · obtain ⟨hge, htiles⟩ := ih (ack + seg.lengthInSequenceSpace) true (by omega) h.2.2
      exact ⟨by omega, htiles⟩
    · exact ⟨Nat.le_refl _, h⟩

/-- `s'` is `s` after an acknowledgment for `absAckno` that was accepted. -/
structure Acked (s : TCPSender) (absAckno windowSize : Nat) (s' : TCPSender) : Prop where
  isn : s'.isn = s.isn
  segmentsOut : s'.segmentsOut = s.segmentsOut
  stream : s'.stream = s.stream
  next : s'.nextSeqnoAbsolute = s.nextSeqnoAbsolute
  setSynFlag : s'.setSynFlag = s.setSynFlag
  setFinFlag : s'.setFinFlag = s.setFinFlag
  receiverWindowSize : s'.receiverWindowSize = windowSize
  receiverAck : s'.receiverAck =
    (retire s.isn s.nextSeqnoAbsolute absAckno s.receiverAck false s.outstandingSegments).1
  outstandingSegments : s'.outstandingSegments =
    (retire s.isn s.nextSeqnoAbsolute absAckno s.receiverAck false s.outstandingSegments).2.2
  running : s'.retransmissionTimer.isRunning = true → s'.outstandingSegments ≠ []

theorem ackReceived_of_accepts {s : TCPSender} {ackno : WrappingInt32} (w : UInt16)
    (h : s.Accepts (unwrap ackno s.isn s.nextSeqnoAbsolute)) :
    Acked s (unwrap ackno s.isn s.nextSeqnoAbsolute) w.toNat (s.ackReceived ackno w) := by
  unfold ackReceived
  dsimp only
  rw [if_pos h]
  generalize hl : retire s.isn s.nextSeqnoAbsolute (unwrap ackno s.isn s.nextSeqnoAbsolute)
    s.receiverAck false s.outstandingSegments = left
  obtain ⟨ack, updated, rest⟩ := left
  cases rest with
  | nil => cases updated <;> constructor <;> simp [hl]
  | cons seg rest => cases updated <;> constructor <;> simp [hl]

theorem ackReceived_of_not_accepts {s : TCPSender} {ackno : WrappingInt32} (w : UInt16)
    (h : ¬ s.Accepts (unwrap ackno s.isn s.nextSeqnoAbsolute)) : s.ackReceived ackno w = s := by
  unfold ackReceived
  exact if_neg h

/-! ## One step of the sender -/

/-- The counters stay in order, and the timer only runs while a segment is outstanding. -/
structure WellFormed (s : TCPSender) : Prop where
  ack_le : s.receiverAck ≤ s.nextSeqnoAbsolute
  running : s.retransmissionTimer.isRunning = true → s.outstandingSegments ≠ []

theorem wellFormed_new (capacity : Nat) (retxTimeout : UInt16) (isn : WrappingInt32) :
    WellFormed (new capacity retxTimeout isn) :=
  ⟨Nat.le_refl _, by simp [new]⟩

theorem bytesInFlight_eq {s : TCPSender} (h : WellFormed s) :
    s.bytesInFlight = s.nextSeqnoAbsolute - s.receiverAck :=
  Word.sub_of_le h.ack_le

/-- Only the log, the clock of the timer and the count of retransmissions differ. -/
structure Unmoved (s s' : TCPSender) : Prop where
  isn : s'.isn = s.isn
  stream : s'.stream = s.stream
  next : s'.nextSeqnoAbsolute = s.nextSeqnoAbsolute
  receiverAck : s'.receiverAck = s.receiverAck
  receiverWindowSize : s'.receiverWindowSize = s.receiverWindowSize
  outstandingSegments : s'.outstandingSegments = s.outstandingSegments
  setSynFlag : s'.setSynFlag = s.setSynFlag
  setFinFlag : s'.setFinFlag = s.setFinFlag
  running : s'.retransmissionTimer.isRunning = s.retransmissionTimer.isRunning

/-- Everything that one event can do to a sender. -/
inductive Moved (s : TCPSender) : SenderEvent → TCPSender → Prop
  | write (data : List UInt8) :
      Moved s (.write data) { s with stream := (s.stream.write data).2 }
  | endInput : Moved s .endInput { s with stream := s.stream.endInput }
  | filled {news : List TCPSegment} {s' : TCPSender} :
      Emits s news s' → (news = [] → s.Idle) → Moved s .fillWindow s'
  | rejected {ackno : WrappingInt32} {w : UInt16} :
      ¬ s.Accepts (unwrap ackno s.isn s.nextSeqnoAbsolute) → Moved s (.ackReceived ackno w) s
  | acked {ackno : WrappingInt32} {w : UInt16} {s' : TCPSender} :
      s.Accepts (unwrap ackno s.isn s.nextSeqnoAbsolute) →
      Acked s (unwrap ackno s.isn s.nextSeqnoAbsolute) w.toNat s' →
      Moved s (.ackReceived ackno w) s'
  | waited {ms : Nat} {s' : TCPSender} :
      Unmoved s s' → s'.segmentsOut = s.segmentsOut → Moved s (.tick ms) s'
  | resent {ms : Nat} {s' : TCPSender} {seg : TCPSegment} {rest : List TCPSegment} :
      Unmoved s s' → s.outstandingSegments = seg :: rest →
      s'.segmentsOut = s.segmentsOut ++ [seg] → Moved s (.tick ms) s'
  | empty {s' : TCPSender} :
      Unmoved s s' → s'.segmentsOut = s.segmentsOut ++ [{ header := { seqno := s.nextSeqno } }] →
      Moved s .sendEmptySegment s'

theorem tick_moved {s : TCPSender} (h : WellFormed s) (ms : Nat) :
    ∃ s', s.tick ms = some s' ∧ Moved s (.tick ms) s' := by
  unfold tick
  dsimp only
  split
  · rename_i hexp
    have hne := h.running (RetransmissionTimer.isRunning_of_checkTimeout hexp)
    obtain ⟨seg, rest, hout⟩ := List.exists_cons_of_ne_nil hne
    rw [hout]
    refine ⟨_, rfl, Moved.resent ⟨rfl, rfl, rfl, rfl, rfl, hout.symm, rfl, rfl, ?_⟩ hout rfl⟩
    dsimp only
    split <;> simp
  · exact ⟨_, rfl, Moved.waited ⟨rfl, rfl, rfl, rfl, rfl, rfl, rfl, rfl, by simp⟩ rfl⟩

/-- **Every event is defined** and does one of the things listed in `Moved`. -/
theorem step_moved {s : TCPSender} (h : WellFormed s) (e : SenderEvent) :
    ∃ s', s.step e = some s' ∧ Moved s e s' := by
  cases e with
  | write data => exact ⟨_, rfl, Moved.write data⟩
  | endInput => exact ⟨_, rfl, Moved.endInput⟩
  | fillWindow =>
    obtain ⟨s', news, heq, hem, hidle⟩ := fillWindow_spec s
    exact ⟨s', heq, Moved.filled hem hidle⟩
  | ackReceived ackno w =>
    by_cases hacc : s.Accepts (unwrap ackno s.isn s.nextSeqnoAbsolute)
    · exact ⟨_, rfl, Moved.acked hacc (ackReceived_of_accepts w hacc)⟩
    · exact ⟨s, congrArg some (ackReceived_of_not_accepts w hacc), Moved.rejected hacc⟩
  | tick ms => exact tick_moved h ms
  | sendEmptySegment =>
    exact ⟨_, rfl, Moved.empty ⟨rfl, rfl, rfl, rfl, rfl, rfl, rfl, rfl, rfl⟩ rfl⟩

theorem moved_of_step {s s' : TCPSender} {e : SenderEvent} (h : WellFormed s)
    (hs : s.step e = some s') : Moved s e s' := by
  obtain ⟨u, hu, hmv⟩ := step_moved h e
  obtain rfl : u = s' := Option.some.inj (hu.symm.trans hs)
  exact hmv

theorem WellFormed.unmoved {s s' : TCPSender} (h : WellFormed s) (hs : Unmoved s s') :
    WellFormed s' := by
  refine ⟨?_, ?_⟩
  · rw [hs.receiverAck, hs.next]
    exact h.ack_le
  · rw [hs.running, hs.outstandingSegments]
    exact h.running

theorem WellFormed.emitted {s s' : TCPSender} {seg : TCPSegment} (h : WellFormed s)
    (hs : Emitted s seg s') : WellFormed s' := by
  refine ⟨?_, ?_⟩
  · have := h.ack_le
    rw [hs.receiverAck, hs.next]
    omega
  · rw [hs.outstandingSegments]
    simp

theorem WellFormed.moved {s s' : TCPSender} {e : SenderEvent} (h : WellFormed s)
    (hs : Moved s e s') : WellFormed s' := by
  cases hs with
  | write data => exact ⟨h.ack_le, h.running⟩
  | endInput => exact ⟨h.ack_le, h.running⟩
  | filled hem _ =>
    exact hem.invariant (I := fun _ s => WellFormed s) (fun _ _ _ _ hw he => hw.emitted he) [] h
  | rejected _ => exact h
  | acked hacc hack =>
    refine ⟨?_, hack.running⟩
    rw [hack.receiverAck, hack.next]
    exact Nat.le_trans (retire_le _ _ _ _ _ _ hacc.2) hacc.1
  | waited hun _ => exact h.unmoved hun
  | resent hun _ _ => exact h.unmoved hun
  | empty hun _ => exact h.unmoved hun

/-- Only an acknowledgment that is accepted moves `_receiver_ack`, and not beyond itself. -/
theorem Moved.receiverAck {s s' : TCPSender} {e : SenderEvent} (h : Moved s e s') :
    s'.receiverAck = s.receiverAck ∨ ∃ ackno w, e = .ackReceived ackno w ∧
      s.Accepts (unwrap ackno s.isn s.nextSeqnoAbsolute) ∧
      s'.receiverAck ≤ unwrap ackno s.isn s.nextSeqnoAbsolute := by
  cases h with
  | write data => exact Or.inl rfl
  | endInput => exact Or.inl rfl
  | filled hem _ => exact Or.inl (hem.unchanged Emitted.receiverAck)
  | rejected _ => exact Or.inl rfl
  | acked hacc hack =>
    refine Or.inr ⟨_, _, rfl, hacc, ?_⟩
    rw [hack.receiverAck]
    exact retire_le _ _ _ _ _ _ hacc.2
  | waited hun _ => exact Or.inl hun.receiverAck
  | resent hun _ _ => exact Or.inl hun.receiverAck
  | empty hun _ => exact Or.inl hun.receiverAck

end TCPSender

end Sponge
