import Sponge.SenderTimer

/-!
# What an acknowledgment does

In every run, whatever is sent and whatever the acknowledgments are, the outstanding segments follow
one another from `_receiver_ack` on (`InSequence`): the absolute sequence number of an outstanding
segment is its place in that sequence.  While fewer than `2 ^ 31` bytes are in flight, the loop of
`ack_received` is `Tiling.cut`, whatever the 32-bit numbers wrap to (`retire_eq_cut`).

* `ack_retires_exactly`: which segments an acknowledgment retires;
* `late_ack_ignored_iff`: when an acknowledgment that was overtaken is ignored.  It is not if both
  fall into one outstanding segment: the window it carries is then noted (`late_ack_is_noted`);
* `new_ack_resets_iff`: when an acknowledgment of new data ends the back-off.  It does not if it
  ends inside the oldest outstanding segment (`partial_ack_keeps_backoff`).
-/

namespace Sponge

open Tiling Transition

namespace TCPSender

variable {isn : WrappingInt32} {s s' : TCPSender}

/-! ## The queue is in sequence -/

/-- The outstanding segments follow one another from `_receiver_ack` on, up to a place with the
sequence number of `_next_seqno`. -/
structure InSequence (isn : WrappingInt32) (s : TCPSender) : Prop where
  isn_eq : s.isn = isn
  tiles : ∃ stop, Tiles (Placed isn) TCPSegment.lengthInSequenceSpace s.receiverAck
    s.outstandingSegments stop ∧ wrap stop isn = wrap s.nextSeqnoAbsolute isn
  length_le : ∀ seg ∈ s.outstandingSegments,
    seg.lengthInSequenceSpace ≤ TCPConfig.maxPayloadSize + 2

theorem inSequence_new (capacity : Nat) (retxTimeout : UInt16) (isn : WrappingInt32) :
    InSequence isn (new capacity retxTimeout isn) :=
  ⟨rfl, ⟨0, rfl, rfl⟩, by simp [new]⟩

theorem InSequence.unmoved (h : InSequence isn s) (hs : Unmoved s s') : InSequence isn s' := by
  refine ⟨hs.isn.trans h.isn_eq, ?_, ?_⟩
  · rw [hs.receiverAck, hs.outstandingSegments, hs.next]
    exact h.tiles
  · rw [hs.outstandingSegments]
    exact h.length_le

theorem Emitted.length_le {seg : TCPSegment} (hs : Emitted s seg s') :
    seg.lengthInSequenceSpace ≤ TCPConfig.maxPayloadSize + 2 := by
  have := hs.payload_le
  unfold TCPSegment.lengthInSequenceSpace
  split <;> split <;> omega

theorem InSequence.emitted {seg : TCPSegment} (h : InSequence isn s) (hs : Emitted s seg s') :
    InSequence isn s' := by
  obtain ⟨stop, htiles, hstop⟩ := h.tiles
  have hplaced : Placed isn stop seg := by
    rw [Placed, hs.seqno, h.isn_eq, hstop]
  refine ⟨hs.isn.trans h.isn_eq, ⟨stop + seg.lengthInSequenceSpace, ?_, ?_⟩, ?_⟩
  · rw [hs.receiverAck, hs.outstandingSegments]
    exact tiles_concat htiles hplaced hs.pos
  · rw [hs.next]
    exact wrap_add_congr hstop _
  · rw [hs.outstandingSegments]
    intro x hx
    rcases List.mem_append.mp hx with hx | hx
    · exact h.length_le x hx
    · rw [List.mem_singleton.mp hx]
      exact hs.length_le

/-- Retiring segments keeps the rest in sequence, even where the numbers of the retired ones are not
unwrapped to their places: the places move by a multiple of `2 ^ 32`. -/
theorem retire_inSequence (next absAckno : Nat) (segs : List TCPSegment) :
    ∀ ack updated stop, Tiles (Placed isn) TCPSegment.lengthInSequenceSpace ack segs stop →
      ∃ stop', Tiles (Placed isn) TCPSegment.lengthInSequenceSpace
          (retire isn next absAckno ack updated segs).1
          (retire isn next absAckno ack updated segs).2.2 stop' ∧
        wrap stop' isn = wrap stop isn := by
  induction segs with
  | nil =>
    intro ack updated stop h
    exact ⟨stop, h, rfl⟩
  | cons seg segs ih =>
    intro ack updated stop h
    unfold retire
    dsimp only
    split
    · -- the new `_receiver_ack` wraps to the number behind the retired segment
      have hack : wrap (Word.add (unwrap seg.header.seqno isn next) seg.lengthInSequenceSpace) isn =
          wrap (ack + seg.lengthInSequenceSpace) isn := by
        rw [wrap_wordAdd]
        refine wrap_add_congr ?_ _
        rw [wrap_unwrap]
        exact h.1
      obtain ⟨stop', htiles, hstop'⟩ := ih
        (Word.add (unwrap seg.header.seqno isn next) seg.lengthInSequenceSpace) true _
        (tiles_shift h.2.2 fun k x hx => Eq.trans hx (wrap_add_congr hack k).symm)
      refine ⟨stop', htiles, hstop'.trans ?_⟩
      rw [tiles_sum h.2.2]
      exact wrap_add_congr hack _
    · exact ⟨stop, h, rfl⟩

/-- Every event keeps the queue in sequence. -/
theorem InSequence.moved {e : SenderEvent} (h : InSequence isn s) (hs : Moved s e s') :
    InSequence isn s' := by
  cases hs with
  | write data => exact ⟨h.isn_eq, h.tiles, h.length_le⟩
  | endInput => exact ⟨h.isn_eq, h.tiles, h.length_le⟩
  | filled hem _ =>
    exact hem.invariant (I := fun _ u => InSequence isn u) (fun _ _ _ _ hu he => hu.emitted he) [] h
  | rejected _ => exact h
  | @acked ackno w _ _ hack =>
    obtain ⟨stop, htiles, hstop⟩ := h.tiles
    obtain ⟨stop', htiles', hstop'⟩ := retire_inSequence s.nextSeqnoAbsolute
      (unwrap ackno s.isn s.nextSeqnoAbsolute) s.outstandingSegments s.receiverAck false stop htiles
    rw [← h.isn_eq] at htiles'
    refine ⟨hack.isn.trans h.isn_eq, ⟨stop', ?_, ?_⟩, ?_⟩
    · rw [hack.receiverAck, hack.outstandingSegments, ← h.isn_eq]
      exact htiles'
    · rw [hstop', hstop, hack.next]
    · intro x hx
      rw [hack.outstandingSegments] at hx
      exact h.length_le x ((retire_suffix _ _ _ _ _ _).subset hx)
  | waited hun _ => exact h.unmoved hun
  | resent hun _ _ => exact h.unmoved hun
  | empty hun _ => exact h.unmoved hun

/-- What holds in every state of every run. -/
structure Reached (retxTimeout : UInt16) (isn : WrappingInt32) (s : TCPSender) : Prop where
  wellFormed : WellFormed s
  timed : Timed s
  inSequence : InSequence isn s
  initialTimeout : s.initialRetransmissionTimeout = retxTimeout.toNat

theorem reached_new (capacity : Nat) (retxTimeout : UInt16) (isn : WrappingInt32) :
    Reached retxTimeout isn (new capacity retxTimeout isn) :=
  ⟨wellFormed_new _ _ _, timed_new _ _ _, inSequence_new _ _ _, rfl⟩

theorem Reached.step {retxTimeout : UInt16} {e : SenderEvent} (h : Reached retxTimeout isn s)
    (hs : s.step e = some s') : Reached retxTimeout isn s' := by
  have hmv := moved_of_step h.wellFormed hs
  exact ⟨h.wellFormed.moved hmv, timed_step h.timed hs, h.inSequence.moved hmv,
    (step_keeps h.timed hs).1.trans h.initialTimeout⟩

theorem reached_of_run {capacity : Nat} {retxTimeout : UInt16} {es : List SenderEvent}
    (hs : run TCPSender.step (new capacity retxTimeout isn) es = some s) :
    Reached retxTimeout isn s :=
  run_invariant (fun _ _ _ h hstep => h.step hstep) (reached_new capacity retxTimeout isn) hs

/-! ## The loop of ack_received -/

/-- The end of a segment is far from the end of the 64-bit range. -/
theorem end_lt_size {next ack len : Nat} (hle : ack ≤ next) (hlt : next < 2 ^ 63)
    (hlen : len ≤ TCPConfig.maxPayloadSize + 2) : ack + len < Word.size := by
  rw [TCPConfig.maxPayloadSize] at hlen
  rw [Word.size_eq]
  omega

/-- Near `_next_seqno`, the loop consumes the queue up to the acknowledged number. -/
theorem retire_eq_cut {next absAckno : Nat} (hlt : next < 2 ^ 63) (hle : absAckno ≤ next)
    (segs : List TCPSegment) : ∀ ack updated stop, next ≤ ack + 2 ^ 31 → ack ≤ absAckno →
      Tiles (Placed isn) TCPSegment.lengthInSequenceSpace ack segs stop →
      (∀ seg ∈ segs, seg.lengthInSequenceSpace ≤ TCPConfig.maxPayloadSize + 2) →
      ((retire isn next absAckno ack updated segs).1,
          (retire isn next absAckno ack updated segs).2.2) =
        cut TCPSegment.lengthInSequenceSpace absAckno ack segs := by
  induction segs with
  | nil =>
    intro ack updated stop _ _ _ _
    rfl
  | cons seg segs ih =>
    intro ack updated stop hnear hack h hlen
    have hend := h.1.end_eq hlt hnear (hack.trans hle)
      (end_lt_size (hack.trans hle) hlt (hlen seg List.mem_cons_self))
    unfold retire cut
    simp only [hend]
    split
    · rename_i hstop
      exact ih _ true stop (by omega) hstop h.2.2
        (fun x hx => hlen x (List.mem_cons_of_mem seg hx))
    · rfl

/-- `ack_received` changes nothing else. -/
theorem ackReceived_frame (s : TCPSender) (ackno : WrappingInt32) (w : UInt16) :
    s.ackReceived ackno w = { s with
      receiverWindowSize := (s.ackReceived ackno w).receiverWindowSize
      receiverAck := (s.ackReceived ackno w).receiverAck
      outstandingSegments := (s.ackReceived ackno w).outstandingSegments
      retransmissionTimer := (s.ackReceived ackno w).retransmissionTimer
      consecutiveRetransmissions := (s.ackReceived ackno w).consecutiveRetransmissions } := by
  unfold ackReceived
  dsimp only
  split
  · split <;> split <;> rfl
  · rfl

section

variable {retxTimeout : UInt16} {a : Nat}

/-- A number between `_receiver_ack` and `_next_seqno` is recovered from its 32 bits. -/
theorem Reached.unwrap_eq (h : Reached retxTimeout isn s) (hb : s.Bounded)
    (hack : s.receiverAck ≤ a) (hnext : a ≤ s.nextSeqnoAbsolute) :
    unwrap (wrap a isn) s.isn s.nextSeqnoAbsolute = a := by
  obtain ⟨hnear, hlt⟩ := hb.near h.wellFormed
  rw [h.inSequence.isn_eq]
  exact unwrap_wrap a _ isn (by omega) (by omega) (by omega)

theorem Reached.acked (h : Reached retxTimeout isn s) (hb : s.Bounded)
    (hack : s.receiverAck ≤ a) (hnext : a ≤ s.nextSeqnoAbsolute) (w : UInt16) :
    Acked s a w.toNat (s.ackReceived (wrap a isn) w) := by
  have hun := h.unwrap_eq hb hack hnext
  have hacc : s.Accepts (unwrap (wrap a isn) s.isn s.nextSeqnoAbsolute) := by
    rw [hun]
    exact ⟨hnext, hack⟩
  have hacked := ackReceived_of_accepts w hacc
  rwa [hun] at hacked

/-- What an acknowledgment leaves outstanding. -/
theorem Reached.ackReceived_cut (h : Reached retxTimeout isn s) (hb : s.Bounded)
    (hack : s.receiverAck ≤ a) (hnext : a ≤ s.nextSeqnoAbsolute) (w : UInt16) :
    ((s.ackReceived (wrap a isn) w).receiverAck,
        (s.ackReceived (wrap a isn) w).outstandingSegments) =
      cut TCPSegment.lengthInSequenceSpace a s.receiverAck s.outstandingSegments := by
  obtain ⟨hnear, hlt⟩ := hb.near h.wellFormed
  obtain ⟨stop, htiles, -⟩ := h.inSequence.tiles
  have hacked := h.acked hb hack hnext w
  rw [hacked.receiverAck, hacked.outstandingSegments, h.inSequence.isn_eq]
  exact retire_eq_cut hlt hnext _ _ _ _ hnear hack htiles h.inSequence.length_le

theorem Reached.ackReceived (h : Reached retxTimeout isn s) (ackno : WrappingInt32) (w : UInt16) :
    Reached retxTimeout isn (s.ackReceived ackno w) :=
  h.step (e := .ackReceived ackno w) rfl

theorem Reached.bounded_ackReceived (h : Reached retxTimeout isn s) (hb : s.Bounded)
    (hack : s.receiverAck ≤ a) (hnext : a ≤ s.nextSeqnoAbsolute) (w : UInt16) :
    (s.ackReceived (wrap a isn) w).Bounded := by
  obtain ⟨hack', -⟩ := Prod.mk.inj (h.ackReceived_cut hb hack hnext w)
  have hge := le_cut TCPSegment.lengthInSequenceSpace a s.receiverAck s.outstandingSegments
  have hsame := (h.acked hb hack hnext w).next
  obtain ⟨hfl, hlt⟩ := hb
  rw [bytesInFlight_eq h.wellFormed] at hfl
  rw [Bounded, bytesInFlight_eq (h.ackReceived (wrap a isn) w).wellFormed]
  omega

/-- If an acknowledgment leaves nothing outstanding, everything that was sent is acknowledged. -/
theorem Reached.cut_eq_next (h : Reached retxTimeout isn s) (hb : s.Bounded)
    (hack : s.receiverAck ≤ a) (hnext : a ≤ s.nextSeqnoAbsolute)
    (hnil : (cut TCPSegment.lengthInSequenceSpace a s.receiverAck s.outstandingSegments).2 = []) :
    (cut TCPSegment.lengthInSequenceSpace a s.receiverAck s.outstandingSegments).1 =
      s.nextSeqnoAbsolute := by
  obtain ⟨hnear, -⟩ := hb.near h.wellFormed
  obtain ⟨stop, htiles, hstop⟩ := h.inSequence.tiles
  have htiles' := tiles_cut htiles a
  rw [hnil, tiles_nil] at htiles'
  have hge := le_cut TCPSegment.lengthInSequenceSpace a s.receiverAck s.outstandingSegments
  have hle := cut_le TCPSegment.lengthInSequenceSpace hack s.outstandingSegments
  rw [← htiles'] at hstop
  exact eq_of_wrap_eq hstop (by omega) (by omega)

/-- An acknowledgment that was overtaken by one that reached into the same segment only brings its
window. -/
theorem Reached.late_ackReceived {a₁ a₂ : Nat} (h : Reached retxTimeout isn s)
    (hb : s.Bounded) (h₁ : s.receiverAck ≤ a₁) (h₁₂ : a₁ ≤ a₂) (h₂ : a₂ ≤ s.nextSeqnoAbsolute)
    (w₁ w₂ : UInt16)
    (hin : (s.ackReceived (wrap a₂ isn) w₂).receiverAck ≤ a₁) :
    (s.ackReceived (wrap a₂ isn) w₂).ackReceived (wrap a₁ isn) w₁ =
      { s.ackReceived (wrap a₂ isn) w₂ with receiverWindowSize := w₁.toNat } := by
  have hreach := h.ackReceived (wrap a₂ isn) w₂
  have hb' := h.bounded_ackReceived hb (by omega) h₂ w₂
  have hcut := h.ackReceived_cut hb (by omega) h₂ w₂
  have hnext := (h.acked hb (by omega) h₂ w₂).next
  generalize s.ackReceived (wrap a₂ isn) w₂ = s₂ at *
  have hlate := hreach.ackReceived_cut hb' hin (by omega) w₁
  have hwin := (hreach.acked hb' hin (by omega) w₁).receiverWindowSize
  rw [show s₂.receiverAck = _ from congrArg Prod.fst hcut,
    show s₂.outstandingSegments = _ from congrArg Prod.snd hcut, cut_cut h₁₂, ← hcut] at hlate
  rcases ackReceived_cases hreach.timed (wrap a₁ isn) w₁ with heq | hr
  · rw [hwin] at heq
    exact heq
  · -- nothing is retired any more
    have hshorter := hr.shorter
    rw [show (s₂.ackReceived (wrap a₁ isn) w₁).outstandingSegments = _ from
      congrArg Prod.snd hlate] at hshorter
    exact absurd hshorter (Nat.lt_irrefl _)

end

/-! ## Acknowledgments -/

/-- The outstanding segments, each with its absolute sequence number, whose last sequence number is
not below `a`. -/
def unacknowledged (s : TCPSender) (a : Nat) : List (Nat × TCPSegment) :=
  (positions TCPSegment.lengthInSequenceSpace s.receiverAck s.outstandingSegments).filter
    fun x => a < x.1 + x.2.lengthInSequenceSpace

theorem Reached.ackReceived_unacknowledged {retxTimeout : UInt16} {a : Nat}
    (h : Reached retxTimeout isn s) (hb : s.Bounded) (hack : s.receiverAck ≤ a)
    (hnext : a ≤ s.nextSeqnoAbsolute) (w : UInt16) :
    (s.ackReceived (wrap a isn) w).receiverAck =
        ((s.unacknowledged a).head?.map Prod.fst).getD s.nextSeqnoAbsolute ∧
      (s.ackReceived (wrap a isn) w).outstandingSegments = (s.unacknowledged a).map Prod.snd := by
  obtain ⟨hack', hout'⟩ := Prod.mk.inj (h.ackReceived_cut hb hack hnext w)
  rw [unacknowledged, ← positions_cut, positions_map_snd, hack', hout']
  refine ⟨?_, rfl⟩
  have hnone := h.cut_eq_next hb hack hnext
  generalize cut TCPSegment.lengthInSequenceSpace a s.receiverAck s.outstandingSegments = left
    at hnone ⊢
  obtain ⟨m, rest⟩ := left
  cases rest with
  | nil => exact hnone rfl
  | cons seg rest => rfl

end TCPSender

open TCPSender in
/-- **What an acknowledgment retires.**  In every state of every run with fewer than `2 ^ 31` bytes
in flight, each outstanding segment carries the sequence number of its place.  If `ackno` is the
number of some `a` from `_receiver_ack` to `_next_seqno`, then of only one, and exactly the
outstanding segments that end at or before `a` are removed; `_receiver_ack` moves to the first
segment that is left, or to `_next_seqno`; and the window is recorded.  Every other `ackno` leaves
the sender as it was. -/
theorem ack_retires_exactly (capacity : Nat) (retxTimeout : UInt16) (isn : WrappingInt32)
    (es : List SenderEvent) (s : TCPSender)
    (hs : run TCPSender.step (TCPSender.new capacity retxTimeout isn) es = some s)
    (hb : s.Bounded) (ackno : WrappingInt32) (w : UInt16) :
    (∃ stop, Tiles (fun p seg => seg.header.seqno = wrap p isn) TCPSegment.lengthInSequenceSpace
      s.receiverAck s.outstandingSegments stop) ∧
    (∀ a, s.receiverAck ≤ a → a ≤ s.nextSeqnoAbsolute → ackno = wrap a isn →
      (∀ b, s.receiverAck ≤ b → b ≤ s.nextSeqnoAbsolute → ackno = wrap b isn → b = a) ∧
      s.ackReceived ackno w = { s with
        outstandingSegments := (s.unacknowledged a).map Prod.snd
        receiverAck := ((s.unacknowledged a).head?.map Prod.fst).getD s.nextSeqnoAbsolute
        receiverWindowSize := w.toNat
        retransmissionTimer := (s.ackReceived ackno w).retransmissionTimer
        consecutiveRetransmissions := (s.ackReceived ackno w).consecutiveRetransmissions }) ∧
    ((∀ a, s.receiverAck ≤ a → a ≤ s.nextSeqnoAbsolute → ackno ≠ wrap a isn) →
      s.ackReceived ackno w = s) := by
  have h := reached_of_run hs
  obtain ⟨hnear, hlt⟩ := hb.near h.wellFormed
  refine ⟨?_, ?_, ?_⟩
  · obtain ⟨stop, htiles, -⟩ := h.inSequence.tiles
    exact ⟨stop, htiles⟩
  · rintro a hack hnext rfl
    refine ⟨fun b hb' hbn heq => (eq_of_wrap_eq heq (by omega) (by omega)).symm, ?_⟩
    obtain ⟨hack', hout'⟩ := h.ackReceived_unacknowledged hb hack hnext w
    rw [← hack', ← hout', ← (h.acked hb hack hnext w).receiverWindowSize]
    exact ackReceived_frame s (wrap a isn) w
  · intro hno
    refine ackReceived_of_not_accepts w fun hacc => ?_
    refine hno _ hacc.2 hacc.1 ?_
    rw [h.inSequence.isn_eq, wrap_unwrap]

/-- The numbers wrap; the acknowledgment retires the first of two segments. -/
theorem ack_retires_exactly_wrapping :
    ∃ s, run TCPSender.step (TCPSender.new 8 1000 ⟨4294967294⟩)
        [.fillWindow, .write [1, 2, 3, 4], .ackReceived ⟨4294967295⟩ 3, .fillWindow,
          .ackReceived ⟨4294967295⟩ 5, .fillWindow] = some s ∧ s.Bounded ∧
      s.outstandingSegments.length = 2 ∧ (s.unacknowledged 4).map Prod.fst = [4] ∧
      (s.ackReceived ⟨2⟩ 7).outstandingSegments = (s.unacknowledged 4).map Prod.snd := by
  obtain ⟨s, hs⟩ := Option.isSome_iff_exists.mp
    (show (run TCPSender.step (TCPSender.new 8 1000 ⟨4294967294⟩)
      [.fillWindow, .write [1, 2, 3, 4], .ackReceived ⟨4294967295⟩ 3, .fillWindow,
        .ackReceived ⟨4294967295⟩ 5, .fillWindow]).isSome = true by decide)
  have hfacts : s.Bounded ∧ s.receiverAck ≤ 4 ∧ 4 ≤ s.nextSeqnoAbsolute ∧
      s.outstandingSegments.length = 2 ∧ (s.unacknowledged 4).map Prod.fst = [4] := by
    obtain rfl : _ = s := Option.some.inj hs
    decide
  obtain ⟨hb, hack, hnext, htwo, hleft⟩ := hfacts
  have heq := ((ack_retires_exactly 8 1000 ⟨4294967294⟩ _ s hs hb ⟨2⟩ 7).2.1 4 hack hnext
    (by decide)).2
  exact ⟨s, hs, hb, htwo, hleft, congrArg TCPSender.outstandingSegments heq⟩

open TCPSender in
/-- **When a late acknowledgment is ignored.**  After an acknowledgment for `a₂`, one for an earlier
`a₁` that was overtaken leaves the sender as it is exactly if it carries the same window or an
outstanding segment ends behind `a₁` and not behind `a₂`. -/
theorem late_ack_ignored_iff (capacity : Nat) (retxTimeout : UInt16) (isn : WrappingInt32)
    (es : List SenderEvent) (s : TCPSender)
    (hs : run TCPSender.step (TCPSender.new capacity retxTimeout isn) es = some s)
    (hb : s.Bounded) (a₁ a₂ : Nat) (h₁ : s.receiverAck ≤ a₁) (h₁₂ : a₁ < a₂)
    (h₂ : a₂ ≤ s.nextSeqnoAbsolute) (w₁ w₂ : UInt16) :
    (s.ackReceived (wrap a₂ isn) w₂).ackReceived (wrap a₁ isn) w₁ =
        s.ackReceived (wrap a₂ isn) w₂ ↔
      w₁ = w₂ ∨
        ∃ x ∈ positions TCPSegment.lengthInSequenceSpace s.receiverAck s.outstandingSegments,
          a₁ < x.1 + x.2.lengthInSequenceSpace ∧ x.1 + x.2.lengthInSequenceSpace ≤ a₂ := by
  have h := reached_of_run hs
  have hacked := h.acked hb (by omega) h₂ w₂
  have hcut := congrArg Prod.fst (h.ackReceived_cut hb (by omega) h₂ w₂)
  rw [← lt_cut_iff h₁, ← hcut]
  rcases Nat.lt_or_ge a₁ (s.ackReceived (wrap a₂ isn) w₂).receiverAck with hlt | hge
  · refine iff_of_true (ackReceived_of_not_accepts w₁ fun hacc => ?_) (Or.inr hlt)
    have hle := hacc.2
    rw [hacked.isn, hacked.next, h.unwrap_eq hb h₁ (by omega)] at hle
    omega
  · rw [h.late_ackReceived hb h₁ (by omega) h₂ w₁ w₂ hge, or_iff_left (Nat.not_lt.mpr hge)]
    constructor
    · intro heq
      have hwin := congrArg TCPSender.receiverWindowSize heq
      rw [hacked.receiverWindowSize] at hwin
      exact UInt16.toNat_inj.mp hwin
    · rintro rfl
      rw [← hacked.receiverWindowSize]

/-- Five bytes are in flight: the late acknowledgment is behind the first of two segments. -/
theorem late_ack_ignored_iff_overtaken :
    ∃ s, run TCPSender.step (TCPSender.new 8 1000 ⟨0⟩)
        [.fillWindow, .ackReceived ⟨1⟩ 9, .write [1, 2, 3], .fillWindow, .write [4, 5],
          .fillWindow] = some s ∧ s.Bounded ∧ s.bytesInFlight = 5 ∧
      (s.ackReceived ⟨5⟩ 9).ackReceived ⟨2⟩ 1 = s.ackReceived ⟨5⟩ 9 := by
  obtain ⟨s, hs⟩ := Option.isSome_iff_exists.mp
    (show (run TCPSender.step (TCPSender.new 8 1000 ⟨0⟩)
      [.fillWindow, .ackReceived ⟨1⟩ 9, .write [1, 2, 3], .fillWindow, .write [4, 5],
        .fillWindow]).isSome = true by decide)
  have hfacts : s.Bounded ∧ s.bytesInFlight = 5 ∧ s.receiverAck ≤ 2 ∧ 5 ≤ s.nextSeqnoAbsolute ∧
      ∃ x ∈ positions TCPSegment.lengthInSequenceSpace s.receiverAck s.outstandingSegments,
        2 < x.1 + x.2.lengthInSequenceSpace ∧ x.1 + x.2.lengthInSequenceSpace ≤ 5 := by
    obtain rfl : _ = s := Option.some.inj hs
    decide
  obtain ⟨hb, hfive, hack, hnext, hends⟩ := hfacts
  exact ⟨s, hs, hb, hfive, (late_ack_ignored_iff 8 1000 ⟨0⟩ _ s hs hb 2 5 hack (by decide) hnext 1
    9).mpr (Or.inr hends)⟩

/-- Ten bytes are in flight in one segment.  The acknowledgment for its first five bytes arrives
after the one for the first seven and puts the window back from nine to four. -/
theorem late_ack_is_noted :
    ∃ s, run TCPSender.step (TCPSender.new 16 1000 ⟨0⟩)
        [.fillWindow, .ackReceived ⟨1⟩ 10, .write [1, 2, 3, 4, 5, 6, 7, 8, 9, 10],
          .fillWindow] = some s ∧ s.Bounded ∧ s.receiverAck = 1 ∧ s.nextSeqnoAbsolute = 11 ∧
      (s.ackReceived (wrap 8 ⟨0⟩) 9).ackReceived (wrap 6 ⟨0⟩) 4 ≠ s.ackReceived (wrap 8 ⟨0⟩) 9 ∧
      (s.ackReceived (wrap 8 ⟨0⟩) 9).receiverWindowSize = 9 ∧
      ((s.ackReceived (wrap 8 ⟨0⟩) 9).ackReceived (wrap 6 ⟨0⟩) 4).receiverWindowSize = 4 := by
  refine ⟨_, rfl, ?_⟩
  decide

/-! ## The back-off -/

namespace TCPSender

variable {isn : WrappingInt32} {s s' : TCPSender}

/-- The oldest outstanding segment ends at or before `a`, by the numbers that `ack_received` takes
it to have. -/
def OldestEnds (s : TCPSender) (a : Nat) : Prop :=
  ∃ oldest ∈ s.outstandingSegments.head?,
    Word.add (unwrap oldest.header.seqno s.isn s.nextSeqnoAbsolute)
      oldest.lengthInSequenceSpace ≤ a

/-- Nothing is outstanding, or nothing was sent again and no time has passed since the timer was
started with the timeout `rto`. -/
def Fresh (rto : Nat) (s : TCPSender) : Prop :=
  s.outstandingSegments = [] ∨ s.consecutiveRetransmissions = 0 ∧
    s.retransmissionTimer.rto = rto ∧ s.retransmissionTimer.accumulateTime = 0

/-- There is no back-off, and the timer is stopped if nothing is outstanding, or runs anew with the
timeout `rto`. -/
def Reset (rto : Nat) (s : TCPSender) : Prop :=
  s.consecutiveRetransmissions = 0 ∧
    (s.retransmissionTimer.isRunning = false ∧ s.outstandingSegments = [] ∨
      s.retransmissionTimer.isRunning = true ∧ s.retransmissionTimer.rto = rto ∧
        s.retransmissionTimer.accumulateTime = 0)

theorem Timed.reset_iff_fresh (h : Timed s) (rto : Nat) : s.Reset rto ↔ s.Fresh rto := by
  by_cases hout : s.outstandingSegments = []
  · exact iff_of_true ⟨h.idle hout, Or.inl ⟨h.stopped hout, hout⟩⟩ (Or.inl hout)
  · have hrun := h.running.mpr hout
    simp [Reset, Fresh, hout, hrun]

theorem Restarted.reset (h : Timed s) (hr : Restarted s s') :
    s'.Reset s.initialRetransmissionTimeout := by
  have ht := h.restarted hr
  rw [ht.reset_iff_fresh]
  refine Or.inr ⟨hr.consecutiveRetransmissions, ?_, ?_⟩ <;>
    rw [hr.timer] <;> rfl

/-- The loop retires a segment exactly if the oldest one ends at or before the acknowledgment. -/
theorem retire_length_lt_iff (s : TCPSender) (a : Nat) :
    (retire s.isn s.nextSeqnoAbsolute a s.receiverAck false s.outstandingSegments).2.2.length <
        s.outstandingSegments.length ↔ s.OldestEnds a := by
  unfold OldestEnds
  cases s.outstandingSegments with
  | nil => simp [retire]
  | cons oldest rest =>
    simp only [List.head?_cons, Option.mem_some_iff, exists_eq_left', retire]
    split
    · rename_i hle
      refine iff_of_true ?_ hle
      exact Nat.lt_succ_of_le (retire_suffix _ _ _ _ _ _).length_le
    · rename_i hle
      exact iff_of_false (Nat.lt_irrefl _) hle

/-- An acknowledgment that is accepted resets the timer if it retires a segment; otherwise it leaves
the timer as it was. -/
theorem Timed.reset_ackReceived_iff (h : Timed s) {ackno : WrappingInt32} (w : UInt16)
    (hacc : s.Accepts (unwrap ackno s.isn s.nextSeqnoAbsolute)) :
    (s.ackReceived ackno w).Reset s.initialRetransmissionTimeout ↔
      s.OldestEnds (unwrap ackno s.isn s.nextSeqnoAbsolute) ∨
        s.Fresh s.initialRetransmissionTimeout := by
  have hout := (ackReceived_of_accepts w hacc).outstandingSegments
  rw [← retire_length_lt_iff, ← hout]
  rcases ackReceived_cases h ackno w with heq | hr
  · have hsame : (s.ackReceived ackno w).outstandingSegments = s.outstandingSegments :=
      (congrArg TCPSender.outstandingSegments heq).trans rfl
    rw [hsame, or_iff_right (Nat.lt_irrefl _), ← h.reset_iff_fresh, heq]
    rfl
  · exact iff_of_true (hr.reset h) (Or.inl hr.shorter)

/-- While fewer than `2 ^ 31` bytes are in flight, the oldest segment begins at `_receiver_ack`. -/
theorem Reached.oldestEnds_iff {retxTimeout : UInt16} (h : Reached retxTimeout isn s)
    (hb : s.Bounded) (a : Nat) :
    s.OldestEnds a ↔ ∃ oldest ∈ s.outstandingSegments.head?,
      s.receiverAck + oldest.lengthInSequenceSpace ≤ a := by
  obtain ⟨hnear, hlt⟩ := hb.near h.wellFormed
  obtain ⟨stop, htiles, -⟩ := h.inSequence.tiles
  have hlen := h.inSequence.length_le
  unfold OldestEnds
  cases hout : s.outstandingSegments with
  | nil => simp
  | cons oldest rest =>
    rw [hout] at htiles hlen
    have hend := htiles.1.end_eq hlt hnear h.wellFormed.ack_le
      (end_lt_size h.wellFormed.ack_le hlt (hlen oldest List.mem_cons_self))
    simp only [List.head?_cons, Option.mem_some_iff, exists_eq_left', h.inSequence.isn_eq, hend]

end TCPSender

/-- A sender together with the absolute numbers of the acknowledgments it has accepted. -/
structure AckHistory where
  sender : TCPSender
  acked : List Nat

namespace AckHistory

open TCPSender

def init (capacity : Nat) (retxTimeout : UInt16) (isn : WrappingInt32) : AckHistory :=
  ⟨TCPSender.new capacity retxTimeout isn, []⟩

/-- The acknowledgments that the event adds. -/
def accepted (s : TCPSender) : SenderEvent → List Nat
  | .ackReceived ackno _ =>
    if s.Accepts (unwrap ackno s.isn s.nextSeqnoAbsolute)
    then [unwrap ackno s.isn s.nextSeqnoAbsolute] else []
  | _ => []

def step (t : AckHistory) (e : SenderEvent) : Option AckHistory :=
  (t.sender.step e).map fun s' => ⟨s', t.acked ++ accepted t.sender e⟩

/-- `_receiver_ack` is not ahead of all acknowledgments. -/
structure Covered (retxTimeout : UInt16) (isn : WrappingInt32) (t : AckHistory) : Prop where
  reached : Reached retxTimeout isn t.sender
  covered : ∃ b ∈ 0 :: t.acked, t.sender.receiverAck ≤ b

theorem covered_step {retxTimeout : UInt16} {isn : WrappingInt32} {t t' : AckHistory}
    {e : SenderEvent} (h : Covered retxTimeout isn t) (hs : t.step e = some t') :
    Covered retxTimeout isn t' := by
  obtain ⟨s', hs', rfl⟩ := Option.map_eq_some_iff.mp hs
  refine ⟨h.reached.step hs', ?_⟩
  have hmv := moved_of_step h.reached.wellFormed hs'
  rcases hmv.receiverAck with hsame | ⟨ackno, w, rfl, hacc, hle⟩
  · obtain ⟨b, hb, hle⟩ := h.covered
    exact ⟨b, List.mem_append_left _ hb, hsame.trans_le hle⟩
  · refine ⟨_, List.mem_cons_of_mem _ (List.mem_append_right _ ?_), hle⟩
    rw [accepted, if_pos hacc]
    exact List.mem_singleton_self _

theorem covered_of_run {capacity : Nat} {retxTimeout : UInt16} {isn : WrappingInt32}
    {es : List SenderEvent} {t : AckHistory}
    (ht : run step (init capacity retxTimeout isn) es = some t) : Covered retxTimeout isn t :=
  run_invariant (fun _ _ _ h hs => covered_step h hs)
    ⟨reached_new capacity retxTimeout isn, 0, List.mem_cons_self, Nat.le_refl 0⟩ ht

end AckHistory

open TCPSender in
/-- **When an acknowledgment of new data ends the back-off.**  In every run, an acknowledgment for
an absolute number `a` that is not beyond `_next_seqno` and greater than all accepted before sets
the count of retransmissions to zero, and stops the timer or starts it anew, exactly if the oldest
outstanding segment ends at or before `a`, or there was no back-off and no time had passed. -/
theorem new_ack_resets_iff (capacity : Nat) (retxTimeout : UInt16) (isn : WrappingInt32)
    (es : List SenderEvent) (t : AckHistory)
    (ht : run AckHistory.step (AckHistory.init capacity retxTimeout isn) es = some t)
    (ackno : WrappingInt32) (w : UInt16) (a : Nat)
    (ha : a = unwrap ackno isn t.sender.nextSeqnoAbsolute) (hnext : a ≤ t.sender.nextSeqnoAbsolute)
    (hnew : ∀ b ∈ 0 :: t.acked, b < a) :
    ((t.sender.ackReceived ackno w).Reset retxTimeout.toNat ↔
      t.sender.OldestEnds a ∨ t.sender.Fresh retxTimeout.toNat) ∧
    (t.sender.Bounded → (t.sender.OldestEnds a ↔ ∃ oldest ∈ t.sender.outstandingSegments.head?,
      t.sender.receiverAck + oldest.lengthInSequenceSpace ≤ a)) := by
  obtain ⟨h, b, hb, hle⟩ := AckHistory.covered_of_run ht
  have hlt := hnew b hb
  refine ⟨?_, fun hbounded => h.oldestEnds_iff hbounded a⟩
  rw [← h.inSequence.isn_eq] at ha
  subst ha
  rw [← h.initialTimeout]
  exact h.timed.reset_ackReceived_iff w ⟨hnext, by omega⟩

/-- Three bytes were sent again once; the acknowledgment of all of them ends the back-off. -/
theorem new_ack_resets_iff_whole :
    ∃ t, run AckHistory.step (AckHistory.init 8 1000 ⟨0⟩)
        [.fillWindow, .ackReceived ⟨1⟩ 9, .write [1, 2, 3], .fillWindow, .tick 1000] = some t ∧
      t.acked = [1] ∧ t.sender.consecutiveRetransmissions = 1 ∧
      (t.sender.ackReceived ⟨4⟩ 9).Reset 1000 := by
  obtain ⟨t, ht⟩ := Option.isSome_iff_exists.mp
    (show (run AckHistory.step (AckHistory.init 8 1000 ⟨0⟩)
      [.fillWindow, .ackReceived ⟨1⟩ 9, .write [1, 2, 3], .fillWindow, .tick 1000]).isSome = true
      by decide)
  have hfacts : t.acked = [1] ∧ t.sender.consecutiveRetransmissions = 1 ∧
      4 = unwrap ⟨4⟩ ⟨0⟩ t.sender.nextSeqnoAbsolute ∧ 4 ≤ t.sender.nextSeqnoAbsolute ∧
      t.sender.Bounded ∧ ∃ oldest ∈ t.sender.outstandingSegments.head?,
        t.sender.receiverAck + oldest.lengthInSequenceSpace ≤ 4 := by
    obtain rfl : _ = t := Option.some.inj ht
    decide
  obtain ⟨hacked, hcount, ha, hnext, hb, hends⟩ := hfacts
  have hiff := new_ack_resets_iff 8 1000 ⟨0⟩ _ t ht ⟨4⟩ 9 4 ha hnext (by simp [hacked])
  exact ⟨t, ht, hacked, hcount, hiff.1.mpr (Or.inl ((hiff.2 hb).mpr hends))⟩

/-- Three bytes were sent again once.  The acknowledgment of the first of them is accepted and is
greater than all before, but the count of retransmissions and the doubled timeout stay. -/
theorem partial_ack_keeps_backoff :
    ∃ t, run AckHistory.step (AckHistory.init 8 1000 ⟨0⟩)
        [.fillWindow, .ackReceived ⟨1⟩ 9, .write [1, 2, 3], .fillWindow, .tick 1000] = some t ∧
      2 = unwrap ⟨2⟩ ⟨0⟩ t.sender.nextSeqnoAbsolute ∧ 2 ≤ t.sender.nextSeqnoAbsolute ∧
      (∀ b ∈ 0 :: t.acked, b < 2) ∧ ¬ (t.sender.ackReceived ⟨2⟩ 9).Reset 1000 ∧
      (t.sender.ackReceived ⟨2⟩ 9).consecutiveRetransmissions = 1 ∧
      (t.sender.ackReceived ⟨2⟩ 9).retransmissionTimer.rto = 2000 := by
  refine ⟨_, rfl, by decide, by decide, by decide, fun h => absurd h.1 (by decide), by decide,
    by decide⟩

end Sponge
