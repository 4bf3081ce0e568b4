import Sponge.SenderStream
import Sponge.TCPReceiver

/-!
# Segments on the wire

Everything a sender ever pushed, with its absolute sequence number, is a segment of the stream that
the sender has accepted: the new segments, their retransmitted copies, and the empty segments,
except those sent before the SYN.
-/

namespace Sponge

open PartialStream Tiling Transition

/-- A pushed segment: one of the stream `S`, or an empty one in the slot of the SYN; it ends at or
before `next`, and carries the FIN only if the stream has `ended`. -/
structure OnWire (isn : WrappingInt32) (S : List UInt8) (ended : Bool) (next p : Nat)
    (seg : TCPSegment) : Prop where
  within : p + seg.lengthInSequenceSpace ≤ next
  taken : TakenFrom S isn p seg ∨ p = 0 ∧ seg = { header := { seqno := isn } }
  fin : seg.header.fin = true → ended = true

namespace OnWire

variable {isn : WrappingInt32} {S : List UInt8} {ended : Bool} {next p : Nat} {seg : TCPSegment}

theorem append (h : OnWire isn S false next p seg) (U : List UInt8) :
    OnWire isn (S ++ U) false next p seg := by
  have hfin : seg.header.fin = false := by simpa using h.fin
  exact ⟨h.within, h.taken.imp_left fun ht => ht.append hfin U, h.fin⟩

theorem mono (h : OnWire isn S ended next p seg) {ended' : Bool} {next' : Nat}
    (hended : ended = true → ended' = true) (hnext : next ≤ next') :
    OnWire isn S ended' next' p seg :=
  ⟨h.within.trans hnext, h.taken, fun hf => hended (h.fin hf)⟩

end OnWire

theorem Traced.PartOf.takenFrom {S : List UInt8} {ended : Bool} {isn : WrappingInt32} {p : Nat}
    {seg : TCPSegment} (h : Traced.PartOf S ended isn p seg) : TakenFrom S isn p seg := by
  rcases h.body with ⟨rfl, hsyn, hpay, hfin⟩ | ⟨hp, hsyn, hpay, -, hfin⟩
  · exact ⟨h.seqno, by simp, by simp [hsyn], by simp [hpay], by simp [hfin]⟩
  · have hix : payloadIndex p seg = p - 1 := by simp [payloadIndex, hsyn]
    exact ⟨h.seqno, by simp [hsyn], fun _ => hp, by rw [hix]; exact hpay,
      fun hf => by rw [hix]; exact (hfin hf).2⟩

theorem Traced.PartOf.onWire {S : List UInt8} {ended : Bool} {isn : WrappingInt32} {p next : Nat}
    {seg : TCPSegment} (h : Traced.PartOf S ended isn p seg)
    (hle : p + seg.lengthInSequenceSpace ≤ next) : OnWire isn S ended next p seg := by
  refine ⟨hle, Or.inl h.takenFrom, fun hf => ?_⟩
  rcases h.body with ⟨-, -, -, hfin⟩ | ⟨-, -, -, -, hfin⟩
  · rw [hf] at hfin
    cases hfin
  · exact (hfin hf).1

/-- An empty segment with the next sequence number. -/
theorem onWire_empty (isn : WrappingInt32) (S : List UInt8) (ended : Bool) (next : Nat) :
    OnWire isn S ended next next { header := { seqno := wrap next isn } } := by
  refine ⟨by simp [TCPSegment.lengthInSequenceSpace], ?_, by simp⟩
  rcases Nat.eq_zero_or_pos next with rfl | hpos
  · exact Or.inr ⟨rfl, by rw [wrap_zero]⟩
  · exact Or.inl ⟨rfl, by simp, fun _ => hpos, by simp, by simp⟩

/-- What no event undoes. -/
structure TCPSender.Grows (s s' : TCPSender) : Prop where
  next : s.nextSeqnoAbsolute ≤ s'.nextSeqnoAbsolute
  bytesRead : s.stream.bytesRead ≤ s'.stream.bytesRead
  inputEnded : s.stream.inputEnded = true → s'.stream.inputEnded = true
  setFinFlag : s.setFinFlag = true → s'.setFinFlag = true

namespace TCPSender

theorem Grows.refl (s : TCPSender) : s.Grows s := ⟨Nat.le_refl _, Nat.le_refl _, id, id⟩

theorem Unmoved.grows {s s' : TCPSender} (h : Unmoved s s') : s.Grows s' :=
  ⟨h.next.ge, by rw [h.stream], by rw [h.stream]; exact id, by rw [h.setFinFlag]; exact id⟩

theorem Moved.grows {s s' : TCPSender} {e : SenderEvent} (h : Moved s e s') : s.Grows s' := by
  cases h with
  | write data => exact ⟨Nat.le_refl _, Nat.le_refl _, id, id⟩
  | endInput => exact ⟨Nat.le_refl _, Nat.le_refl _, fun _ => rfl, id⟩
  | filled hem _ =>
    refine hem.invariant (I := fun _ u => s.Grows u) ?_ [] (Grows.refl s)
    intro _ u seg u' hu he
    refine ⟨?_, ?_, ?_, fun hf => absurd (hu.setFinFlag hf) (by simp [he.finUnsent])⟩
    · have := hu.next
      rw [he.next]
      omega
    · have := hu.bytesRead
      rw [he.bytesRead]
      omega
    · rw [he.inputEnded]
      exact hu.inputEnded
  | rejected _ => exact Grows.refl s
  | acked _ hack =>
    exact ⟨hack.next.ge, by rw [hack.stream], by rw [hack.stream]; exact id,
      by rw [hack.setFinFlag]; exact id⟩
  | waited hun _ => exact hun.grows
  | resent hun _ _ => exact hun.grows
  | empty hun _ => exact hun.grows

end TCPSender

namespace Traced

open TCPSender

/-- The invariant of a sender whose segments in flight can be told apart. -/
structure Sending (isn : WrappingInt32) (t : Traced) : Prop where
  queue : Queue isn t.sender
  cuts : Cuts isn t.accepted t.resent t.filled t.sender
  wire : ∀ x ∈ t.sent, OnWire isn t.accepted t.sender.stream.inputEnded
    t.sender.nextSeqnoAbsolute x.1 x.2
  log : t.sent.map Prod.snd = t.sender.segmentsOut

theorem sending_init (capacity : Nat) (retxTimeout : UInt16) (isn : WrappingInt32) :
    Sending isn (init capacity retxTimeout isn) :=
  ⟨queue_new _ _ _, cuts_new _ _ _, by simp [init], rfl⟩

/-- The segments that `fill_window` has pushed, from the last `later` ones on, sit at the end of the
sequence space used so far. -/
theorem Cuts.tiles_suffix {isn : WrappingInt32} {S : List UInt8}
    {resent front later : List TCPSegment} {s : TCPSender} {a : Nat}
    (h : Cuts isn S resent (front ++ later) s)
    (ha : s.nextSeqnoAbsolute = a + (later.map TCPSegment.lengthInSequenceSpace).sum) :
    Tiles (PartOf S s.stream.inputEnded isn) TCPSegment.lengthInSequenceSpace a later
      s.nextSeqnoAbsolute := by
  obtain ⟨m, -, hlater⟩ := tiles_append.mp h.tiles
  have := tiles_sum hlater
  obtain rfl : m = a := by omega
  exact hlater

/-- The oldest outstanding segment is the part of the stream at `_receiver_ack`. -/
theorem Sending.oldest {isn : WrappingInt32} {t : Traced} (h : Sending isn t) {seg : TCPSegment}
    {rest : List TCPSegment} (hq : t.sender.outstandingSegments = seg :: rest) :
    PartOf t.accepted t.sender.stream.inputEnded isn t.sender.receiverAck seg ∧
      t.sender.receiverAck + seg.lengthInSequenceSpace ≤ t.sender.nextSeqnoAbsolute := by
  obtain ⟨gone, hgone⟩ := h.cuts.outstanding
  have hcuts := h.cuts
  rw [← hgone] at hcuts
  have htiles := hcuts.tiles_suffix (tiles_sum h.queue.tiles)
  rw [hq] at htiles
  exact ⟨htiles.1, tiles_le htiles.2.2⟩

theorem Sending.front {isn : WrappingInt32} {t : Traced} (h : Sending isn t) {seg : TCPSegment}
    {rest : List TCPSegment} (hq : t.sender.outstandingSegments = seg :: rest) :
    OnWire isn t.accepted t.sender.stream.inputEnded t.sender.nextSeqnoAbsolute
      t.sender.receiverAck seg :=
  (h.oldest hq).1.onWire (h.oldest hq).2

/-- Segments pushed at their places stay on the wire. -/
theorem onWire_append {isn : WrappingInt32} {S : List UInt8} {ended : Bool} {next : Nat}
    {sent news : List (Nat × TCPSegment)} (h : ∀ x ∈ sent, OnWire isn S ended next x.1 x.2)
    (h' : ∀ x ∈ news, OnWire isn S ended next x.1 x.2) :
    ∀ x ∈ sent ++ news, OnWire isn S ended next x.1 x.2 := by
  intro x hx
  exact (List.mem_append.mp hx).elim (h x) (h' x)

/-- The accepted bytes only grow, and no longer once the input has ended. -/
theorem step_accepted {t t' : Traced} {e : SenderEvent} (h : WellFormed t.sender)
    (hs : t.step e = some t') (hopen : t.WritesOpen e) :
    ∃ U, t'.accepted = t.accepted ++ U ∧ (t.sender.stream.inputEnded = true → U = []) := by
  obtain ⟨s', -, rfl⟩ := step_eq h hs
  cases e with
  | write data =>
    refine ⟨_, rfl, fun hended => ?_⟩
    rw [show t.sender.stream.inputEnded = false from hopen] at hended
    cases hended
  | _ => exact ⟨[], (List.append_nil _).symm, fun _ => rfl⟩

/-- Every push goes into the log. -/
theorem Sending.log_push {isn : WrappingInt32} {t : Traced} (h : Sending isn t) {s' : TCPSender}
    {news : List TCPSegment} (a : Nat) (hout : s'.segmentsOut = t.sender.segmentsOut ++ news) :
    (t.sent ++ positions TCPSegment.lengthInSequenceSpace a
      (s'.segmentsOut.drop t.sender.segmentsOut.length)).map Prod.snd = s'.segmentsOut := by
  rw [hout, List.drop_left, List.map_append, h.log, positions_map_snd]

/-- Every event keeps the pushed segments on the wire. -/
theorem sending_step {isn : WrappingInt32} {t t' : Traced} {e : SenderEvent} (h : Sending isn t)
    (hs : t.step e = some t') (hopen : t.WritesOpen e)
    (hnear : t.sender.nextSeqnoAbsolute ≤ t.sender.receiverAck + 2 ^ 31)
    (hlt : t.sender.nextSeqnoAbsolute < 2 ^ 63) :
    Sending isn t' ∧ t.sender.Grows t'.sender := by
  have hstreams := streams_step ⟨h.queue.toWellFormed, h.cuts⟩ hs hopen
  obtain ⟨s', hmv, rfl⟩ := step_eq h.queue.toWellFormed hs
  obtain ⟨hqueue, -, hnext⟩ := h.queue.moved hnear hlt hmv
  have hgrows := hmv.grows
  rw [record_sender]
  refine ⟨⟨by rwa [record_sender], hstreams.cuts, ?_, ?_⟩, hgrows⟩
  · rw [record_sender]
    have hcuts := hstreams.cuts
    rw [record_sender] at hcuts
    cases hmv with
    | write data =>
      intro x hx
      have hx' := h.wire x hx
      have hfalse : t.sender.stream.inputEnded = false := hopen
      rw [hfalse] at hx'
      rw [show (t.sender.stream.write data).2.inputEnded = false from hfalse]
      exact hx'.append _
    | endInput =>
      intro x hx
      exact (h.wire x hx).mono (fun _ => rfl) (Nat.le_refl _)
    | filled hem _ =>
      simp only [record, hem.segmentsOut, List.drop_left] at hcuts ⊢
      refine onWire_append (fun x hx => (h.wire x hx).mono hgrows.inputEnded hnext) ?_
      rintro ⟨p, seg⟩ hx
      have hsum := tiles_sum hcuts.tiles
      have hsum' := tiles_sum h.cuts.tiles
      rw [List.map_append, List.sum_append] at hsum
      obtain ⟨-, hle, hpart⟩ := tiles_positions
        (hcuts.tiles_suffix (a := t.sender.nextSeqnoAbsolute) (by omega)) hx
      exact hpart.onWire hle
    | rejected hno => exact h.wire
    | acked hacc hack' =>
      intro x hx
      rw [hack'.stream, hack'.next]
      exact h.wire x hx
    | waited hun hout =>
      rw [hun.stream, hun.next]
      simp only [record, hout, List.drop_length, positions, List.append_nil]
      exact h.wire
    | resent hun hq hout =>
      rw [hun.stream, hun.next]
      simp only [record, hout, List.drop_left, positions]
      refine onWire_append h.wire ?_
      simpa using h.front hq
    | empty hun hout =>
      rw [hun.stream, hun.next]
      simp only [record, hout, List.drop_left, positions]
      refine onWire_append h.wire ?_
      have := onWire_empty isn t.accepted t.sender.stream.inputEnded t.sender.nextSeqnoAbsolute
      simpa [nextSeqno, h.queue.isn_eq] using this
  · rw [record_sender]
    cases hmv with
    | write data => exact h.log
    | endInput => exact h.log
    | filled hem _ => exact h.log_push _ hem.segmentsOut
    | rejected hno => exact h.log
    | acked hacc hack' => exact h.log.trans hack'.segmentsOut.symm
    | waited hun hout => exact h.log_push _ (hout.trans (List.append_nil _).symm)
    | resent hun hq hout => exact h.log_push _ hout
    | empty hun hout => exact h.log_push _ hout

end Traced

end Sponge
