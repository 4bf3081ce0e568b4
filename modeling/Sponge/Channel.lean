import Sponge.Progress

/-!
# The channel

What the sender, the network and the receiver are together: a channel from a writer to a reader,
with a bounded buffer at either end.  The channel knows nothing of segments, sequence numbers,
windows, timers or losses.  Bytes are written into it, leave the first buffer, arrive in the second
one and are taken out there, each of them once and in order; the end arrives after the last byte.

`refines_channel` says that the composed system is such a channel: the calls of its writer and of
its reader, with what they see, are those of a run of the channel.
-/

namespace Sponge

open Transition

/-! ## What a channel is -/

/-- A channel with all that was ever written to it, and how much of that has left the writer's
buffer, has arrived in the reader's buffer, and was taken out of it. -/
@[ext] structure Channel (α : Type) where
  sendCapacity : Nat
  recvCapacity : Nat
  written : List α
  closed : Bool
  sent : Nat
  arrived : Nat
  taken : Nat
  ended : Bool
  sent_le : sent ≤ written.length
  arrived_le : arrived ≤ sent
  taken_le : taken ≤ arrived
  sendFits : written.length ≤ sent + sendCapacity
  recvFits : arrived ≤ taken + recvCapacity
  whole : ended = true → closed = true ∧ arrived = written.length

/-- What the two ends call. -/
inductive Call (α : Type)
  | write (data : List α)
  | close
  | take (len : Nat)
  deriving DecidableEq

/-- A call, or something the channel does by itself. -/
inductive ChannelEvent (α : Type)
  | call (a : Call α)
  | send (n : Nat)
  | arrive (n : Nat)
  | finish
  deriving DecidableEq

def ChannelEvent.visible {α : Type} : ChannelEvent α → Option (Call α)
  | .call a => some a
  | _ => none

namespace Channel

variable {α : Type}

def empty (sendCapacity recvCapacity : Nat) : Channel α where
  sendCapacity := sendCapacity
  recvCapacity := recvCapacity
  written := []
  closed := false
  sent := 0
  arrived := 0
  taken := 0
  ended := false
  sent_le := Nat.zero_le _
  arrived_le := Nat.zero_le _
  taken_le := Nat.zero_le _
  sendFits := Nat.zero_le _
  recvFits := Nat.zero_le _
  whole := by simp

/-- The bytes the writer's buffer has room for. -/
def room (k : Channel α) : Nat := k.sent + k.sendCapacity - k.written.length

/-- The bytes the reader's buffer has room for. -/
def window (k : Channel α) : Nat := k.taken + k.recvCapacity - k.arrived

/-- What the reader has got. -/
def received (k : Channel α) : List α := k.written.take k.taken

/-- What the reader can take. -/
def readable (k : Channel α) : List α := (k.written.take k.arrived).drop k.taken

/-- Nothing is left, and nothing will come. -/
def eof (k : Channel α) : Bool := k.ended && k.taken == k.arrived

/-- The writer calls `write` (as much as there is room for) and `close`, and the reader calls `take`
(nothing, if there is not as much as it asks for). -/
def call (k : Channel α) : Call α → Option (Channel α)
  | .write data =>
    if h : k.closed = false then
      some { k with
        written := k.written ++ data.take k.room
        sent_le := by
          have := k.sent_le
          rw [List.length_append]
          omega
        sendFits := by
          have := k.sendFits
          rw [List.length_append, List.length_take, room]
          omega
        whole := fun hended => absurd (h.symm.trans (k.whole hended).1) Bool.false_ne_true }
    else none
  | .close => some { k with closed := true, whole := fun hended => ⟨rfl, (k.whole hended).2⟩ }
  | .take len =>
    if h : k.taken + len ≤ k.arrived then
      some { k with
        taken := k.taken + len
        taken_le := h
        recvFits := by
          have := k.recvFits
          omega }
    else some k

/-- Bytes leave the writer's buffer, bytes arrive in the reader's buffer if it has room for them,
and the end arrives after the last one. -/
def step (k : Channel α) : ChannelEvent α → Option (Channel α)
  | .call a => k.call a
  | .send n =>
    if h : k.sent + n ≤ k.written.length then
      some { k with
        sent := k.sent + n
        sent_le := h
        arrived_le := Nat.le_add_right_of_le k.arrived_le
        sendFits := by
          have := k.sendFits
          omega }
    else none
  | .arrive n =>
    if h : k.arrived + n ≤ k.sent ∧ k.arrived + n ≤ k.taken + k.recvCapacity then
      some { k with
        arrived := k.arrived + n
        arrived_le := h.1
        taken_le := Nat.le_add_right_of_le k.taken_le
        recvFits := h.2
        whole := fun hended => by
          have hall := k.whole hended
          have := k.sent_le
          exact ⟨hall.1, by omega⟩ }
    else none
  | .finish =>
    if h : k.closed = true ∧ k.arrived = k.written.length then
      some { k with ended := true, whole := fun _ => h }
    else none

theorem received_append_readable (k : Channel α) :
    k.received ++ k.readable = k.written.take k.arrived := by
  have h := k.taken_le
  rw [received, readable, show k.written.take k.taken = (k.written.take k.arrived).take k.taken by
    rw [List.take_take, Nat.min_eq_left h], List.take_append_drop]

end Channel

/-! ## The channel in the composed system -/

namespace TCPSender

theorem fillOnce_capacity (s : TCPSender) : s.fillOnce.1.stream.capacity = s.stream.capacity := by
  have hread : (s.stream.read s.payloadSize).2.capacity = s.stream.capacity := by
    rw [ByteStream.read_snd, ByteStream.popOutput_capacity]
  unfold fillOnce
  split
  · rfl
  · split
    · rfl
    · dsimp only
      split
      · exact hread
      · split <;> exact hread

theorem fillLoop_capacity {s' : TCPSender} (fuel : Nat) :
    ∀ s : TCPSender, fillLoop fuel s = some s' → s'.stream.capacity = s.stream.capacity := by
  induction fuel with
  | zero =>
    intro s h
    cases h
  | succ fuel ih =>
    intro s h
    have hone := fillOnce_capacity s
    unfold fillLoop at h
    split at h
    · rename_i heq
      obtain rfl := Option.some.inj h
      rwa [heq] at hone
    · rename_i heq
      rw [heq] at hone
      exact (ih _ h).trans hone

/-- No event changes the capacity of `stream_in()`. -/
theorem step_capacity {s s' : TCPSender} (h : WellFormed s) {e : SenderEvent}
    (hs : s.step e = some s') : s'.stream.capacity = s.stream.capacity := by
  have hmv := moved_of_step h hs
  cases hmv with
  | write data => rfl
  | endInput => rfl
  | filled _ _ => exact fillLoop_capacity _ s hs
  | rejected _ => rfl
  | acked _ hacked => rw [hacked.stream]
  | waited hun _ => rw [hun.stream]
  | resent hun _ _ => rw [hun.stream]
  | empty hun _ => rw [hun.stream]

end TCPSender

namespace System

open TCPSender StreamReassembler

variable {isn : WrappingInt32} {c c' : System}

/-- The channel that a state of the composed system stands for. -/
def Joint.channel (h : Joint isn c) : Channel UInt8 where
  sendCapacity := c.tx.sender.stream.capacity
  recvCapacity := c.rx.streamOut.capacity
  written := c.tx.accepted
  closed := c.tx.sender.stream.inputEnded
  sent := c.tx.sender.stream.bytesRead
  arrived := c.rx.streamOut.bytesWritten
  taken := c.rx.streamOut.bytesRead
  ended := c.rx.streamOut.inputEnded
  sent_le := by
    have := h.sending.cuts.accepted
    have := c.tx.sender.stream.bytesWritten_eq
    omega
  arrived_le := h.receiving.bytesWritten_le
  taken_le := by
    have := c.rx.streamOut.bytesWritten_eq
    omega
  sendFits := by
    have := h.sending.cuts.accepted
    have := c.tx.sender.stream.remainingCapacity_eq
    omega
  recvFits := by
    have := c.rx.streamOut.remainingCapacity_eq
    omega
  whole := fun hended => by
    obtain ⟨f, hf, -⟩ := h.receiving.follows
    exact ⟨(h.sending.cuts.sent_all (h.receiving.fin (hf.inputEnded.mp hended).1)).1,
      (h.whole hended).1⟩

/-- The sender makes a step in which nothing is written: some bytes may leave its stream. -/
theorem Joint.channel_send (h : Joint isn c) {e : SenderEvent} {tx : Traced}
    (hs : c.tx.step e = some tx) (hq : e.Quiet) (h' : Joint isn { c with tx := tx }) :
    ∃ n, h.channel.step (.send n) = some h'.channel := by
  have hadv := h.advances_sender hs hq
  obtain ⟨s', hs', rfl⟩ := Option.map_eq_some_iff.mp hs
  have hwf := h.sending.queue.toWellFormed
  have hcap := step_capacity hwf hs'
  have hread := (moved_of_step hwf hs').grows.bytesRead
  have hle := h'.channel.sent_le
  have haccepted := hadv.accepted
  have hended := hadv.inputEnded
  simp only [channel, Traced.record_sender] at hle haccepted hended
  obtain ⟨n, hn⟩ := Nat.exists_eq_add_of_le hread
  refine ⟨n, ?_⟩
  rw [Channel.step, dif_pos (show h.channel.sent + n ≤ h.channel.written.length by
    simp only [channel]
    rw [← hn, ← haccepted]
    exact hle)]
  refine congrArg some (Channel.ext ?_ rfl haccepted.symm ?_ ?_ rfl rfl rfl)
  all_goals simp only [channel, Traced.record_sender]
  · exact hcap.symm
  · exact hended.symm
  · exact hn.symm

/-- Both buffers have as much room as the streams they stand for. -/
theorem Joint.room_eq (h : Joint isn c) :
    h.channel.room = c.tx.sender.stream.remainingCapacity := by
  have haccepted := h.sending.cuts.accepted
  have hroom := c.tx.sender.stream.remainingCapacity_eq
  change c.tx.sender.stream.bytesRead + c.tx.sender.stream.capacity - c.tx.accepted.length = _
  omega

theorem Joint.window_eq (h : Joint isn c) : h.channel.window = c.rx.windowSize := by
  have hroom := c.rx.streamOut.remainingCapacity_eq
  change c.rx.streamOut.bytesRead + c.rx.streamOut.capacity - c.rx.streamOut.bytesWritten =
    c.rx.streamOut.remainingCapacity
  omega

theorem Joint.eof_eq (h : Joint isn c) : h.channel.eof = c.rx.streamOut.eof := by
  have hbal := c.rx.streamOut.bytesWritten_eq
  rw [Bool.eq_iff_iff, ByteStream.eof_iff, Channel.eof, Bool.and_eq_true, beq_iff_eq, and_comm,
    ← List.length_eq_zero_iff]
  change c.rx.streamOut.bytesRead = c.rx.streamOut.bytesWritten ∧ _ ↔ _
  exact and_congr_left fun _ => by omega

/-- The buffer of `stream_out()` is what the channel has for its reader. -/
theorem Joint.taken_eq (h : Joint isn c) :
    c.taken = h.channel.received ∧ c.rx.streamOut.buffer = h.channel.readable := by
  have htaken : c.taken ++ c.rx.streamOut.buffer = h.channel.received ++ h.channel.readable := by
    rw [h.receiving.taken, Channel.received_append_readable]
    rfl
  refine List.append_inj' htaken ?_
  have hlen := h.channel.arrived_le.trans h.channel.sent_le
  have hbal := c.rx.streamOut.bytesWritten_eq
  rw [Channel.readable, List.length_drop, List.length_take, Nat.min_eq_left hlen]
  change c.rx.streamOut.buffer.length = c.rx.streamOut.bytesWritten - c.rx.streamOut.bytesRead
  omega

/-- The receiver's stream keeps its capacity. -/
theorem Joint.capacity_eq (h : Joint isn c) (h' : Joint isn c')
    (hcap : c'.rx.reassembler.capacity = c.rx.reassembler.capacity) :
    c'.rx.streamOut.capacity = c.rx.streamOut.capacity := by
  obtain ⟨f, hf, -⟩ := h.receiving.follows
  obtain ⟨f', hf', -⟩ := h'.receiving.follows
  exact hf'.assembled.output_capacity.trans (hcap.trans hf.assembled.output_capacity.symm)

/-- A segment arrives: some bytes may arrive in the channel, and then its end. -/
theorem Joint.channel_arrive (h : Joint isn c) {seg : TCPSegment} {rx : TCPReceiver}
    (hs : c.rx.step (.segment seg) = some rx) (hlen : seg.payload.length ≤ maxSize)
    (h' : Joint isn (c.receive rx [])) :
    ∃ ds, run Channel.step h.channel ds = some h'.channel ∧
      ds.filterMap ChannelEvent.visible = [] := by
  have hsound := h.receiving.sound
  have hm : TCPReceiver.MachineSegment (.segment seg) := hlen
  obtain ⟨hcap, hread, hended⟩ := TCPReceiver.step_reader hsound hm hs
  have hwritten := TCPReceiver.step_written hsound hm hs
  have hcapacity : rx.streamOut.capacity = c.rx.streamOut.capacity := h.capacity_eq h' hcap
  have hread : rx.streamOut.bytesRead = c.rx.streamOut.bytesRead := hread
  obtain ⟨n, hn⟩ := Nat.exists_eq_add_of_le hwritten
  have hguard : h.channel.arrived + n ≤ h.channel.sent ∧
      h.channel.arrived + n ≤ h.channel.taken + h.channel.recvCapacity := by
    have hfits : rx.streamOut.bytesWritten ≤ rx.streamOut.bytesRead + rx.streamOut.capacity :=
      h'.channel.recvFits
    simp only [channel]
    exact ⟨hn.symm.trans_le h'.channel.arrived_le, by omega⟩
  by_cases hsame : rx.streamOut.inputEnded = c.rx.streamOut.inputEnded
  · refine ⟨[.arrive n], ?_, rfl⟩
    rw [run_cons, Channel.step, dif_pos hguard]
    exact congrArg some (Channel.ext rfl hcapacity.symm rfl rfl rfl hn.symm hread.symm hsame.symm)
  · -- the last byte has arrived, and with it the end
    have hnow : rx.streamOut.inputEnded = true := by
      by_contra hno
      cases hbefore : c.rx.streamOut.inputEnded with
      | false => exact hsame ((Bool.not_eq_true _ ▸ hno).trans hbefore.symm)
      | true => exact hno (hended hbefore)
    obtain ⟨hclosed, hall⟩ := h'.channel.whole hnow
    refine ⟨[.arrive n, .finish], ?_, rfl⟩
    rw [run_cons, Channel.step, dif_pos hguard, Option.bind_some, run_cons, Channel.step,
      dif_pos ⟨hclosed, hn.symm.trans hall⟩]
    exact congrArg some (Channel.ext rfl hcapacity.symm rfl rfl rfl hn.symm hread.symm hnow.symm)

/-- The reader takes bytes out of `stream_out()`. -/
theorem Joint.channel_take (h : Joint isn c) (len : Nat)
    (h' : Joint isn (c.receive (c.rx.popStream len) (c.rx.streamOut.removed len))) :
    h.channel.step (.call (.take len)) = some h'.channel := by
  have hbal := c.rx.streamOut.bytesWritten_eq
  have hcapacity := c.rx.streamOut.popOutput_capacity len
  have hwritten := c.rx.streamOut.popOutput_bytesWritten len
  have hended := c.rx.streamOut.popOutput_inputEnded len
  have hread := c.rx.streamOut.popOutput_bytesRead len
  rw [Channel.step, Channel.call]
  by_cases hle : len ≤ c.rx.streamOut.buffer.length
  · rw [dif_pos (show h.channel.taken + len ≤ h.channel.arrived by simp only [channel]; omega)]
    refine congrArg some
      (Channel.ext rfl hcapacity.symm rfl rfl rfl hwritten.symm ?_ hended.symm)
    rw [ByteStream.removed, if_pos hle, List.length_take, Nat.min_eq_left hle] at hread
    exact hread.symm
  · rw [dif_neg (show ¬ h.channel.taken + len ≤ h.channel.arrived by simp only [channel]; omega)]
    refine congrArg some
      (Channel.ext rfl hcapacity.symm rfl rfl rfl hwritten.symm ?_ hended.symm)
    rw [ByteStream.removed, if_neg hle, List.length_nil, Nat.add_zero] at hread
    exact hread.symm

end System

/-- What the two ends of the composed system call. -/
def SystemEvent.call : SystemEvent → Option (Call UInt8)
  | .sender (.write data) => some (.write data)
  | .sender .endInput => some .close
  | .read len => some (.take len)
  | .pop len => some (.take len)
  | _ => none

namespace System

variable {isn : WrappingInt32} {c c' : System}

/-- **One step of the composed system is a run of the channel** with the same call. -/
theorem Joint.channel_step (h : Joint isn c) {e : SystemEvent} (hs : c.step e = some c')
    (ha : c.Assumed e c') : ∃ ds, ∃ h' : Joint isn c',
      run Channel.step h.channel ds = some h'.channel ∧
      ds.filterMap ChannelEvent.visible = e.call.toList := by
  have h' := joint_of_path h (Path.single hs ha)
  have hsent : ∀ {e' : SenderEvent} {tx : Traced}, c.tx.step e' = some tx → e'.Quiet →
      ∀ h' : Joint isn { c with tx := tx }, ∃ ds, ∃ h' : Joint isn { c with tx := tx },
        run Channel.step h.channel ds = some h'.channel ∧
        ds.filterMap ChannelEvent.visible = [] := by
    intro e' tx htx hq h'
    obtain ⟨n, hn⟩ := h.channel_send htx hq h'
    exact ⟨[.send n], h', by rw [run_cons, hn, Option.bind_some, run_nil], rfl⟩
  cases e with
  | sender e =>
    rw [step, Option.map_eq_some_iff] at hs
    obtain ⟨tx, htx, rfl⟩ := hs
    cases e with
    | write data =>
      obtain rfl := Option.some.inj htx
      refine ⟨[.call (.write data)], h', ?_, rfl⟩
      rw [run_cons, Channel.step, Channel.call,
        dif_pos (show h.channel.closed = false from ha.1)]
      refine congrArg some (Channel.ext rfl rfl ?_ rfl rfl rfl rfl rfl)
      change c.tx.accepted ++ data.take h.channel.room =
        c.tx.accepted ++ data.take (c.tx.sender.stream.write data).1
      rw [h.room_eq, ByteStream.write_count, ← List.take_take, List.take_length]
    | endInput =>
      obtain rfl := Option.some.inj htx
      exact ⟨[.call .close], h', rfl, rfl⟩
    | ackReceived ackno w => exact ha.1.elim
    | _ => exact hsent htx trivial h'
  | ack a =>
    rw [step, Option.map_eq_some_iff] at hs
    obtain ⟨tx, htx, rfl⟩ := hs
    exact hsent htx trivial h'
  | deliver p seg =>
    rw [step, Option.map_eq_some_iff] at hs
    obtain ⟨rx, hrx, rfl⟩ := hs
    obtain ⟨ds, hds, hvis⟩ := h.channel_arrive hrx (h.payload_le ha.1) h'
    exact ⟨ds, h', hds, hvis⟩
  | read len =>
    rw [step, TCPReceiver.step_read, Option.map_some, ByteStream.read_fst] at hs
    obtain rfl := Option.some.inj hs
    exact ⟨[.call (.take len)], h', by rw [run_cons, h.channel_take len h']; rfl, rfl⟩
  | pop len =>
    obtain rfl := Option.some.inj hs
    exact ⟨[.call (.take len)], h', by rw [run_cons, h.channel_take len h']; rfl, rfl⟩

end System

/-- **The composed system is a channel.**  For every run, whatever the network did within what is
assumed of it, there is a run of the channel with the same calls in the same order.  After it the
two ends see in the channel what they see in the system: what was accepted and what was read, what
can be read now, the room in both buffers, and the end. -/
theorem refines_channel (sendCapacity : Nat) (retxTimeout : UInt16) (isn : WrappingInt32)
    (recvCapacity : Nat) (c₀ : System)
    (hnew : System.new sendCapacity retxTimeout isn recvCapacity = some c₀)
    (es : List SystemEvent) (c : System) (hp : Path System.step System.Assumed c₀ es c) :
    ∃ ds k, run Channel.step (Channel.empty sendCapacity recvCapacity) ds = some k ∧
      ds.filterMap ChannelEvent.visible = es.filterMap SystemEvent.call ∧
      k.written = c.tx.accepted ∧ k.closed = c.tx.sender.stream.inputEnded ∧
      k.received = c.taken ∧ k.readable = c.rx.streamOut.buffer ∧
      k.eof = c.rx.streamOut.eof ∧
      k.room = c.tx.sender.stream.remainingCapacity ∧ k.window = c.rx.windowSize := by
  have h₀ := System.joint_new hnew
  have hempty : h₀.channel = Channel.empty sendCapacity recvCapacity := by
    obtain ⟨rx, hrx, rfl⟩ := Option.map_eq_some_iff.mp hnew
    obtain ⟨-, rfl⟩ := TCPReceiver.new_eq_some hrx
    rfl
  obtain ⟨ds, k, hrun, ⟨h, rfl⟩, hvis⟩ := hp.refinement SystemEvent.call ChannelEvent.visible
    (R := fun c k => ∃ h : System.Joint isn c, k = h.channel) h₀.channel ⟨h₀, rfl⟩
    (fun a e b k ⟨h, hk⟩ hs ha => by
      obtain ⟨ds, h', hrun, hvis⟩ := h.channel_step hs ha
      exact ⟨ds, h'.channel, hk ▸ hrun, ⟨h', rfl⟩, hvis⟩)
  rw [hempty] at hrun
  exact ⟨ds, h.channel, hrun, hvis, rfl, rfl, h.taken_eq.1.symm, h.taken_eq.2.symm, h.eof_eq,
    h.room_eq, h.window_eq⟩

/-- The exchange, seen by its two ends. -/
theorem refines_channel_exchange :
    ∃ c₀ c, System.new 8 1000 ⟨4294967294⟩ 4 = some c₀ ∧
      Path System.step System.Assumed c₀ exchange c ∧
      ∃ ds, ∃ k : Channel UInt8, run Channel.step (Channel.empty 8 4) ds = some k ∧
        ds.filterMap ChannelEvent.visible = [.write [1, 2, 3], .close, .take 2] ∧
        k.received = [1, 2] ∧ k.readable = [3] ∧ k.window = 3 := by
  obtain ⟨c, hc, hfacts⟩ := Option.map_eq_some_iff.mp
    (show ((System.new 8 1000 ⟨4294967294⟩ 4).bind
      (check System.step System.Assumed · exchange)).map
        (fun c => (c.taken, c.rx.streamOut.buffer, c.rx.windowSize)) = some ([1, 2], [3], 3) by
      decide +kernel)
  obtain ⟨c₀, hnew, hcheck⟩ := Option.bind_eq_some_iff.mp hc
  simp only [Prod.mk.injEq] at hfacts
  obtain ⟨htaken, hbuffer, hwindow⟩ := hfacts
  have hp := Path.of_check hcheck
  obtain ⟨ds, k, hrun, hvis, -, -, hreceived, hreadable, -, -, hwin⟩ :=
    refines_channel 8 1000 ⟨4294967294⟩ 4 c₀ hnew exchange c hp
  exact ⟨c₀, c, hnew, hp, ds, k, hrun, hvis.trans (by decide +kernel), hreceived.trans htaken,
    hreadable.trans hbuffer, hwin.trans hwindow⟩

end Sponge
