import Sponge.SenderStream
import Sponge.SenderTimer
import Sponge.TCPState

/-!
# The state summary of the sender

`state_summary` never looks at the flags or at the queue: it reads the counters of the sender and
of its stream.  `sender_phases`: what it says is nevertheless what happened to the SYN and the FIN,
and a connection goes through the states in one direction only.
-/

namespace Sponge

open Tiling Transition

/-- The order in which a connection goes through the states. -/
def TCPSenderStateSummary.rank : TCPSenderStateSummary → Nat
  | .closed => 0
  | .synSent => 1
  | .synAcked => 2
  | .finSent => 3
  | .finAcked => 4
  | .error => 5

namespace TCPSender

/-- The state that the two counters and the flag of the FIN stand for. -/
def phase (s : TCPSender) : TCPSenderStateSummary :=
  if s.nextSeqnoAbsolute = 0 then .closed
  else if s.receiverAck = 0 then .synSent
  else if s.setFinFlag = false then .synAcked
  else if s.receiverAck ≠ s.nextSeqnoAbsolute then .finSent
  else .finAcked

theorem phase_before_fin {s : TCPSender} (hfin : s.setFinFlag = false) :
    s.phase = if s.nextSeqnoAbsolute = 0 then .closed
      else if s.receiverAck = 0 then .synSent else .synAcked := by
  rw [phase, if_pos hfin]

theorem phase_after_fin {s : TCPSender} (hfin : s.setFinFlag = true) :
    s.phase = if s.nextSeqnoAbsolute = 0 then .closed
      else if s.receiverAck = 0 then .synSent
      else if s.receiverAck ≠ s.nextSeqnoAbsolute then .finSent else .finAcked := by
  rw [phase, if_neg (show ¬ s.setFinFlag = false by simp [hfin])]

/-- What the states say about the counters and the flag. -/
theorem phase_eq_iff {s : TCPSender} (hle : s.receiverAck ≤ s.nextSeqnoAbsolute)
    (hfin : s.setFinFlag = true → 2 ≤ s.nextSeqnoAbsolute) :
    (s.phase = .closed ↔ ¬ s.nextSeqnoAbsolute ≠ 0) ∧
    (s.phase = .synSent ↔ s.nextSeqnoAbsolute ≠ 0 ∧ 0 = s.receiverAck) ∧
    (s.phase = .synAcked ↔ s.receiverAck ≠ 0 ∧ ¬ s.setFinFlag = true) ∧
    (s.phase = .finSent ↔ s.setFinFlag = true ∧ s.receiverAck ≠ 0 ∧
      ¬ s.receiverAck = s.nextSeqnoAbsolute) ∧
    (s.phase = .finAcked ↔ s.setFinFlag = true ∧ s.receiverAck = s.nextSeqnoAbsolute) ∧
    s.phase ≠ .error := by
  cases hf : s.setFinFlag with
  | true =>
    have := hfin hf
    rw [phase_after_fin hf]
    split_ifs <;> simp <;> omega
  | false =>
    rw [phase_before_fin hf]
    split_ifs <;> simp <;> omega

/-- **The summary is the phase**, although it is computed from other data. -/
theorem stateSummary_eq_phase {s : TCPSender} (herror : s.stream.error = false)
    (hflight : s.bytesInFlight = s.nextSeqnoAbsolute - s.receiverAck)
    (hle : s.receiverAck ≤ s.nextSeqnoAbsolute)
    (hfin : s.setFinFlag = true ↔
      s.stream.eof = true ∧ s.stream.bytesWritten + 2 ≤ s.nextSeqnoAbsolute) :
    s.stateSummary = s.phase := by
  rw [stateSummary, herror, if_neg Bool.false_ne_true, hflight, phase]
  by_cases hout : s.stream.eof = true ∧ s.stream.bytesWritten + 2 ≤ s.nextSeqnoAbsolute
  · rw [if_neg (not_not.mpr hout.1), if_neg (Nat.not_lt.mpr hout.2),
      if_neg (show ¬ s.setFinFlag = false by simp [hfin.mpr hout])]
    split_ifs <;> first | rfl | omega
  · have hopen : s.setFinFlag = false := by
      rw [← Bool.not_eq_true, hfin]
      exact hout
    rw [if_pos hopen]
    split_ifs <;> first | rfl | (exfalso; exact hout ⟨by assumption, by omega⟩) | omega

/-- Once the FIN is out, no event sends anything new. -/
theorem Moved.after_fin {s s' : TCPSender} {e : SenderEvent} (hs : Moved s e s')
    (hfin : s.setFinFlag = true) :
    s'.setFinFlag = true ∧ s'.nextSeqnoAbsolute = s.nextSeqnoAbsolute := by
  cases hs with
  | write data => exact ⟨hfin, rfl⟩
  | endInput => exact ⟨hfin, rfl⟩
  | filled hem _ =>
    cases hem with
    | nil => exact ⟨hfin, rfl⟩
    | cons he _ => exact absurd hfin (by simp [he.finUnsent])
  | rejected _ => exact ⟨hfin, rfl⟩
  | acked _ hack => exact ⟨hack.setFinFlag.trans hfin, hack.next⟩
  | waited hun _ => exact ⟨hun.setFinFlag.trans hfin, hun.next⟩
  | resent hun _ _ => exact ⟨hun.setFinFlag.trans hfin, hun.next⟩
  | empty hun _ => exact ⟨hun.setFinFlag.trans hfin, hun.next⟩

/-- A sender whose counters do not go back, and that sends nothing after the FIN, does not go back
to an earlier state. -/
theorem phase_rank_le {s s' : TCPSender} (hle : s'.receiverAck ≤ s'.nextSeqnoAbsolute)
    (hack : s.receiverAck ≤ s'.receiverAck) (hnext : s.nextSeqnoAbsolute ≤ s'.nextSeqnoAbsolute)
    (hfin : s.setFinFlag = true →
      s'.setFinFlag = true ∧ s'.nextSeqnoAbsolute = s.nextSeqnoAbsolute) :
    s.phase.rank ≤ s'.phase.rank := by
  cases hf : s.setFinFlag with
  | true =>
    obtain ⟨hf', heq⟩ := hfin hf
    rw [phase_after_fin hf, phase_after_fin hf']
    split_ifs <;> simp only [TCPSenderStateSummary.rank] <;> omega
  | false =>
    rw [phase_before_fin hf]
    unfold phase
    split_ifs <;> simp only [TCPSenderStateSummary.rank] <;> omega

end TCPSender

namespace Traced

open TCPSender

/-- The segments that `fill_window` pushed and that are not outstanding any more. -/
def retired (t : Traced) : List TCPSegment :=
  t.filled.take (t.filled.length - t.sender.outstandingSegments.length)

/-- Everything that the state summary depends on. -/
structure Phased (isn : WrappingInt32) (t : Traced) : Prop where
  streams : Streams isn t
  queue : Queue isn t.sender
  bounded : t.sender.Bounded
  timed : Timed t.sender
  error : t.sender.stream.error = false
  logged : ∀ seg : TCPSegment, seg.header.syn = true ∨ seg.header.fin = true →
    (seg ∈ t.sender.segmentsOut ↔ seg ∈ t.filled)

variable {isn : WrappingInt32} {t t' : Traced}

theorem phased_init (capacity : Nat) (retxTimeout : UInt16) (isn : WrappingInt32) :
    Phased isn (init capacity retxTimeout isn) where
  streams := ⟨wellFormed_new _ _ _, cuts_new _ _ _⟩
  queue := queue_new _ _ _
  bounded := bounded_new _ _ _
  timed := timed_new _ _ _
  error := rfl
  logged := fun _ _ => Iff.rfl

/-- A SYN or FIN in the log was pushed by `fill_window`, also if `tick` pushed it again. -/
theorem logged_step (h : Phased isn t) {e : SenderEvent} {s' : TCPSender}
    (hmv : Moved t.sender e s') (seg : TCPSegment)
    (hflag : seg.header.syn = true ∨ seg.header.fin = true) :
    seg ∈ s'.segmentsOut ↔ seg ∈ (t.record s' e).filled := by
  have hlog := h.logged seg hflag
  cases hmv with
  | write data => exact hlog
  | endInput => exact hlog
  | filled hem _ =>
    simp only [record, hem.segmentsOut, List.drop_left, List.mem_append, hlog]
  | rejected _ => exact hlog
  | acked _ hack =>
    rw [hack.segmentsOut]
    exact hlog
  | waited _ hout =>
    rw [hout]
    exact hlog
  | @resent ms _ oldest rest _ hq hout =>
    have hmem : oldest ∈ t.filled := h.streams.cuts.outstanding.subset (by simp [hq])
    rw [hout, List.mem_append, List.mem_singleton, hlog]
    exact ⟨fun hseg => hseg.elim id (fun heq => heq ▸ hmem), Or.inl⟩
  | empty _ hout =>
    rw [hout, List.mem_append, List.mem_singleton, hlog]
    refine ⟨fun hseg => hseg.elim id (fun heq => ?_), Or.inl⟩
    rw [heq] at hflag
    simp at hflag

theorem phased_step (h : Phased isn t) {e : SenderEvent} (hs : t.step e = some t')
    (hopen : t.WritesOpen e) (hb : t'.sender.Bounded) :
    Phased isn t' ∧ t.sender.phase.rank ≤ t'.sender.phase.rank := by
  have hstreams := streams_step h.streams hs hopen
  obtain ⟨s', hmv, heq⟩ := step_eq h.streams.wellFormed hs
  obtain ⟨u, hu, rfl⟩ := Option.map_eq_some_iff.mp hs
  have hsu : u = s' := by simpa using congrArg Traced.sender heq
  subst hsu
  rw [record_sender] at hb
  obtain ⟨⟨hq, -⟩, hack, hnext⟩ := queue_step ⟨h.queue, h.bounded⟩ hu hb
  refine ⟨⟨hstreams, ?_, ?_, ?_, ?_, ?_⟩, ?_⟩ <;> rw [record_sender]
  · exact hq
  · exact hb
  · exact timed_step h.timed hu
  · exact (step_keeps h.timed hu).2.trans h.error
  · exact logged_step h hmv
  · exact phase_rank_le hq.ack_le hack hnext hmv.after_fin

/-! ## What the counters say about the segments -/

/-- Segments that tile the stream from its start on contain the SYN unless there are none. -/
theorem exists_syn_iff {S : List UInt8} {ended : Bool} {segs : List TCPSegment} {b : Nat}
    (h : Tiles (PartOf S ended isn) TCPSegment.lengthInSequenceSpace 0 segs b) :
    (∃ seg ∈ segs, seg.header.syn = true) ↔ b ≠ 0 := by
  have hnil := tiles_eq_nil_iff h
  cases segs with
  | nil => simpa using (show 0 = b from h).symm
  | cons seg segs =>
    refine iff_of_true ⟨seg, by simp, ?_⟩ (fun h0 => by simp [h0] at hnil)
    rcases h.1.body with ⟨-, hsyn, -⟩ | ⟨hpos, -⟩
    · exact hsyn
    · exact absurd hpos (by decide)

theorem FinLast.exists_iff {fin : Bool} {segs : List TCPSegment} (h : FinLast fin segs) :
    (∃ seg ∈ segs, seg.header.fin = true) ↔ fin = true := by
  cases fin with
  | true =>
    obtain ⟨front, last, rfl, hlast, -⟩ := h
    exact iff_of_true ⟨last, by simp, hlast⟩ rfl
  | false =>
    refine iff_of_false ?_ Bool.false_ne_true
    rintro ⟨seg, hseg, hfin⟩
    rw [show seg.header.fin = false from h seg hseg] at hfin
    cases hfin

theorem Phased.filled_eq (h : Phased isn t) :
    t.filled = t.retired ++ t.sender.outstandingSegments :=
  (List.suffix_iff_eq_append.mp h.streams.cuts.outstanding).symm

/-- The retired segments tile the stream up to `_receiver_ack`. -/
theorem Phased.retired_tiles (h : Phased isn t) :
    Tiles (PartOf t.accepted t.sender.stream.inputEnded isn) TCPSegment.lengthInSequenceSpace 0
      t.retired t.sender.receiverAck := by
  have htiles := h.streams.cuts.tiles
  rw [h.filled_eq, tiles_append] at htiles
  obtain ⟨m, hgone, hout⟩ := htiles
  -- the outstanding segments fill the rest, so the two parts meet at `_receiver_ack`
  have hsum := tiles_sum hout
  have hsum' := tiles_sum h.queue.tiles
  obtain rfl : m = t.sender.receiverAck := by omega
  exact hgone

theorem Phased.exists_syn_iff (h : Phased isn t) :
    (∃ seg ∈ t.sender.segmentsOut, seg.header.syn = true) ↔ t.sender.nextSeqnoAbsolute ≠ 0 := by
  rw [← Traced.exists_syn_iff h.streams.cuts.tiles]
  exact exists_congr fun seg => and_congr_left fun hsyn => h.logged seg (Or.inl hsyn)

theorem Phased.exists_fin_iff (h : Phased isn t) :
    (∃ seg ∈ t.sender.segmentsOut, seg.header.fin = true) ↔ t.sender.setFinFlag = true := by
  rw [← h.streams.cuts.finLast.exists_iff]
  exact exists_congr fun seg => and_congr_left fun hfin => h.logged seg (Or.inr hfin)

/-- The counters know whether the FIN is out. -/
theorem Cuts.setFinFlag_iff {S : List UInt8} {resent filled : List TCPSegment} {s : TCPSender}
    (h : Cuts isn S resent filled s) :
    s.setFinFlag = true ↔
      s.stream.eof = true ∧ s.stream.bytesWritten + 2 ≤ s.nextSeqnoAbsolute := by
  have hnext := h.next
  have hwritten := s.stream.bytesWritten_eq
  constructor
  · intro hfin
    rw [hfin, if_pos rfl] at hnext
    rw [if_pos (h.syn.mpr (by omega))] at hnext
    have hread := (h.sent_all hfin).2
    have haccepted := h.accepted
    exact ⟨h.fin hfin, by omega⟩
  · rintro ⟨-, hle⟩
    by_contra hfin
    rw [if_neg hfin] at hnext
    split at hnext <;> omega

theorem Phased.stateSummary_eq (h : Phased isn t) : t.sender.stateSummary = t.sender.phase :=
  stateSummary_eq_phase h.error (bytesInFlight_eq h.queue.toWellFormed) h.queue.ack_le
    h.streams.cuts.setFinFlag_iff

end Traced

open Traced in
/-- **The summary tells what happened.**  In a run without a write after `end_input` and with fewer
than `2 ^ 31` bytes in flight, the state summary of the sender is determined by whether a SYN and a
FIN were pushed and which segments have been retired; it never is the error; and from any state of
the run on it never goes back. -/
theorem sender_phases (capacity : Nat) (retxTimeout : UInt16) (isn : WrappingInt32)
    (es fs : List SenderEvent) (t u : Traced)
    (ht : Path Traced.step (fun t e t' => t.WritesOpen e ∧ t'.sender.Bounded)
      (Traced.init capacity retxTimeout isn) es t)
    (hu : Path Traced.step (fun t e t' => t.WritesOpen e ∧ t'.sender.Bounded) t fs u) :
    t.filled = t.retired ++ t.sender.outstandingSegments ∧
    (t.sender.stateSummary = .closed ↔
      ¬ ∃ seg ∈ t.sender.segmentsOut, seg.header.syn = true) ∧
    (t.sender.stateSummary = .synSent ↔
      (∃ seg ∈ t.sender.segmentsOut, seg.header.syn = true) ∧ t.retired = []) ∧
    (t.sender.stateSummary = .synAcked ↔
      (∃ seg ∈ t.retired, seg.header.syn = true) ∧
      ¬ ∃ seg ∈ t.sender.segmentsOut, seg.header.fin = true) ∧
    (t.sender.stateSummary = .finSent ↔
      (∃ seg ∈ t.sender.segmentsOut, seg.header.fin = true) ∧
      (∃ seg ∈ t.retired, seg.header.syn = true) ∧ t.sender.outstandingSegments ≠ []) ∧
    (t.sender.stateSummary = .finAcked ↔
      (∃ seg ∈ t.sender.segmentsOut, seg.header.fin = true) ∧
      t.sender.outstandingSegments = []) ∧
    t.sender.stateSummary ≠ .error ∧
    t.sender.stateSummary.rank ≤ u.sender.stateSummary.rank := by
  have hstep : ∀ a e b, Phased isn a → Traced.step a e = some b →
      a.WritesOpen e ∧ b.sender.Bounded →
      Phased isn b ∧ a.sender.phase.rank ≤ b.sender.phase.rank :=
    fun _ _ _ h hs hadm => phased_step h hs hadm.1 hadm.2
  have h : Phased isn t :=
    ht.invariant (phased_init _ _ _) (fun a e b ha hs hadm => (hstep a e b ha hs hadm).1)
  have h' : Phased isn u := hu.invariant h (fun a e b ha hs hadm => (hstep a e b ha hs hadm).1)
  have hmono := hu.monotone (fun t => t.sender.phase.rank) h hstep
  have hgone := tiles_eq_nil_iff h.retired_tiles
  have hout := tiles_eq_nil_iff h.queue.tiles
  have hlong : t.sender.setFinFlag = true → 2 ≤ t.sender.nextSeqnoAbsolute := by
    intro hf
    have := (h.streams.cuts.setFinFlag_iff.mp hf).2
    omega
  obtain ⟨h1, h2, h3, h4, h5, h6⟩ := TCPSender.phase_eq_iff h.queue.ack_le hlong
  rw [h.stateSummary_eq, h'.stateSummary_eq, h.exists_syn_iff, h.exists_fin_iff,
    exists_syn_iff h.retired_tiles, hgone, ne_eq _ [], hout]
  exact ⟨h.filled_eq, h1, h2, h3, h4, h5, h6, hmono⟩

/-- The stream ends before the SYN is acknowledged; the FIN goes out with the bytes. -/
theorem sender_phases_close :
    ∃ t u, Path Traced.step (fun t e t' => t.WritesOpen e ∧ t'.sender.Bounded)
        (Traced.init 8 1000 ⟨4294967294⟩)
        [.fillWindow, .write [1, 2], .endInput, .ackReceived ⟨4294967295⟩ 9, .fillWindow] t ∧
      Path Traced.step (fun t e t' => t.WritesOpen e ∧ t'.sender.Bounded) t
        [.tick 1000, .ackReceived ⟨2⟩ 9] u ∧
      (∃ seg ∈ t.sender.segmentsOut, seg.header.fin = true) ∧
      (∃ seg ∈ t.retired, seg.header.syn = true) ∧ t.sender.outstandingSegments ≠ [] ∧
      t.sender.stateSummary.rank ≤ u.sender.stateSummary.rank := by
  obtain ⟨t, ht⟩ := Option.isSome_iff_exists.mp
    (show (check Traced.step (fun t e t' => t.WritesOpen e ∧ t'.sender.Bounded)
      (Traced.init 8 1000 ⟨4294967294⟩)
      [.fillWindow, .write [1, 2], .endInput, .ackReceived ⟨4294967295⟩ 9,
        .fillWindow]).isSome = true by decide)
  have ht' := Option.some.inj ht
  obtain ⟨u, hu⟩ := Option.isSome_iff_exists.mp
    (show (check Traced.step (fun t e t' => t.WritesOpen e ∧ t'.sender.Bounded) t
      [.tick 1000, .ackReceived ⟨2⟩ 9]).isSome = true by
        rw [← ht']
        decide)
  have hp := Path.of_check ht
  have hq := Path.of_check hu
  have hsent : t.sender.stateSummary = .finSent := by
    rw [← ht']
    decide
  obtain ⟨-, -, -, -, hfin, -, -, hrank⟩ := sender_phases 8 1000 ⟨4294967294⟩ _ _ t u hp hq
  obtain ⟨h1, h2, h3⟩ := hfin.mp hsent
  exact ⟨t, u, hp, hq, h1, h2, h3, hrank⟩

end Sponge
