import Sponge.Acknowledgment
import Sponge.SenderPhases

/-!
# What fill_window leaves unsent

`fillWindow_fills`: `fill_window` ends, and it stops only when the FIN is out, the window is full or
no byte is waiting and more may be written.  The sender therefore never stalls: if nothing is
outstanding after a call, everything that was written has been sent and acknowledged.
-/

namespace Sponge

open Tiling Transition

namespace TCPSender

variable {s s' : TCPSender}

/-- Nothing more can be sent: the FIN is out, or the SYN is out and the window is full or there is
nothing to send. -/
def Filled (s : TCPSender) : Prop :=
  s.setFinFlag = true ∨ s.nextSeqnoAbsolute ≠ 0 ∧
    (s.windowSize ≤ s.bytesInFlight ∨ s.stream.buffer = [] ∧ s.stream.inputEnded = false)

/-- An activation that stops because there is nothing to send. -/
theorem Idle.filled (h : s.Idle) : s.Filled := by
  rcases h with hfin | ⟨hnext, hzero, hlast⟩
  · exact Or.inl hfin
  refine Or.inr ⟨hnext, ?_⟩
  by_cases hfull : s.windowSize ≤ s.bytesInFlight
  · exact Or.inl hfull
  · right
    -- there is room for a byte, so there is none
    have hbuf : s.stream.buffer = [] := by
      rw [payloadSize, Word.sub_of_le (by omega)] at hzero
      simp only [ByteStream.bufferSize, TCPConfig.maxPayloadSize] at hzero
      exact List.length_eq_zero_iff.mp (by omega)
    refine ⟨hbuf, ?_⟩
    rw [windowNotFull, decide_eq_true (by omega), Bool.and_true] at hlast
    by_contra hended
    rw [Bool.not_eq_false] at hended
    rw [(ByteStream.eof_iff s.stream).mpr ⟨hbuf, hended⟩] at hlast
    cases hlast

/-- The recursion of `fill_window` stops only when nothing more can be sent. -/
theorem fillLoop_filled (fuel : Nat) : ∀ s : TCPSender, fillLoop fuel s = some s' →
    s'.Filled := by
  induction fuel with
  | zero =>
    intro s h
    cases h
  | succ fuel ih =>
    intro s h
    unfold fillLoop at h
    rcases fillOnce_cases s with ⟨hidle, heq⟩ | ⟨seg, s₁, heq, hem⟩
    · rw [heq] at h
      obtain rfl := Option.some.inj h
      exact hidle.filled
    · rw [heq] at h
      cases hagain : s₁.windowNotFull s.windowSize with
      | false =>
        rw [hagain] at h
        obtain rfl := Option.some.inj h
        have hfull := of_decide_eq_false hagain
        refine Or.inr ⟨hem.next_ne_zero, Or.inl ?_⟩
        rw [windowSize_eq, hem.receiverWindowSize, ← windowSize_eq]
        exact Nat.le_of_not_lt hfull
      | true =>
        rw [hagain] at h
        exact ih s₁ h

/-- A call that leaves nothing outstanding has emitted nothing. -/
theorem Emits.eq_of_outstanding {news : List TCPSegment} (h : Emits s news s')
    (hout : s'.outstandingSegments = []) : s' = s := by
  have hnews : news = [] := by
    rw [h.pushed Emitted.outstandingSegments, List.append_eq_nil_iff] at hout
    exact hout.2
  subst hnews
  cases h with
  | nil => rfl

/-- With nothing outstanding, everything that was sent is acknowledged. -/
theorem Reached.ack_eq_next {retxTimeout : UInt16} {isn : WrappingInt32}
    (h : Reached retxTimeout isn s) (hb : s.Bounded) (hout : s.outstandingSegments = []) :
    s.receiverAck = s.nextSeqnoAbsolute := by
  have := h.cut_eq_next hb (Nat.le_refl _) h.wellFormed.ack_le (by rw [hout]; rfl)
  rwa [hout] at this

end TCPSender

namespace Traced

open TCPSender

variable {isn : WrappingInt32} {S : List UInt8} {resent filled : List TCPSegment} {s : TCPSender}

/-- Segments behind the SYN that reach the end of the stream carry the rest of it. -/
theorem flatMap_payload_from {ended : Bool} {b : Nat} (hb : 1 + S.length ≤ b)
    (segs : List TCPSegment) : ∀ p, 1 ≤ p →
      Tiles (PartOf S ended isn) TCPSegment.lengthInSequenceSpace p segs b →
      segs.flatMap TCPSegment.payload = S.drop (p - 1) := by
  induction segs with
  | nil =>
    rintro p - rfl
    exact (List.drop_eq_nil_of_le (by omega)).symm
  | cons seg segs ih =>
    intro p hp h
    rcases h.1.body with ⟨h0, -⟩ | ⟨-, hsyn, hpay, -, hfin⟩
    · omega
    have hlen : seg.lengthInSequenceSpace =
        seg.payload.length + (if seg.header.fin then 1 else 0) := by
      simp [TCPSegment.lengthInSequenceSpace, hsyn]
    have hrest : S.drop (p + seg.lengthInSequenceSpace - 1) =
        S.drop (p - 1 + seg.payload.length) := by
      rw [hlen]
      split
      · -- the FIN comes after the last byte
        rename_i hf
        have hend := (hfin hf).2
        rw [List.drop_eq_nil_of_le (by omega), List.drop_eq_nil_of_le (by omega)]
      · congr 1
        omega
    rw [List.flatMap_cons, ih _ (by omega) h.2.2, hrest, ← List.drop_drop]
    nth_rewrite 1 [hpay]
    exact List.take_append_drop _ _

/-- Segments that tile the stream up to its end carry all of it. -/
theorem flatMap_payload {ended : Bool} {segs : List TCPSegment} {b : Nat}
    (hb : 1 + S.length ≤ b)
    (h : Tiles (PartOf S ended isn) TCPSegment.lengthInSequenceSpace 0 segs b) :
    segs.flatMap TCPSegment.payload = S := by
  cases segs with
  | nil =>
    obtain rfl := tiles_nil.mp h
    omega
  | cons seg segs =>
    rcases h.1.body with ⟨-, hsyn, hpay, hfin⟩ | ⟨h1, -⟩
    · have hlen : seg.lengthInSequenceSpace = 1 := by
        simp [TCPSegment.lengthInSequenceSpace, hsyn, hpay, hfin]
      have hrest := h.2.2
      rw [hlen] at hrest
      rw [List.flatMap_cons, hpay, flatMap_payload_from hb segs 1 (Nat.le_refl 1) hrest]
      rfl
    · omega

theorem Cuts.next_ne_zero (h : Cuts isn S resent filled s) (hf : s.Filled) :
    s.nextSeqnoAbsolute ≠ 0 := by
  rcases hf with hfin | ⟨hne, -⟩
  · have hnext := h.next
    rw [hfin, if_pos rfl] at hnext
    omega
  · exact hne

/-- When nothing more can be sent and nothing is in flight, the whole stream has been sent. -/
theorem Cuts.sent_all_of_filled (h : Cuts isn S resent filled s) (hf : s.Filled)
    (hfl : s.bytesInFlight = 0) :
    s.nextSeqnoAbsolute = 1 + S.length + (if s.stream.inputEnded then 1 else 0) ∧
      s.setFinFlag = s.stream.inputEnded := by
  have hnext := h.next
  rw [if_pos (h.syn.mpr (h.next_ne_zero hf))] at hnext
  rcases hf with hfin | ⟨-, hfull | ⟨hbuf, hopen⟩⟩
  · obtain ⟨hended, hread⟩ := h.sent_all hfin
    rw [hfin, if_pos rfl, hread] at hnext
    rw [hended, if_pos rfl]
    exact ⟨hnext, hfin⟩
  · rw [hfl, windowSize_eq] at hfull
    omega
  · have hfin := h.fin_unsent hopen
    have hbal := s.stream.bytesWritten_eq
    rw [hbuf, List.length_nil, ← h.accepted] at hbal
    rw [hfin, if_neg Bool.false_ne_true] at hnext
    rw [hopen, if_neg Bool.false_ne_true]
    exact ⟨by omega, hfin⟩

/-- What holds along every run without a write after `end_input`. -/
theorem reached_of_path {capacity : Nat} {retxTimeout : UInt16} {es : List SenderEvent}
    {t : Traced} (ht : Path Traced.step (fun t e _ => t.WritesOpen e)
      (Traced.init capacity retxTimeout isn) es t) :
    Reached retxTimeout isn t.sender ∧ Streams isn t ∧ Windowed t := by
  refine ht.invariant (I := fun t => Reached retxTimeout isn t.sender ∧ Streams isn t ∧ Windowed t)
    ⟨reached_new capacity retxTimeout isn, ⟨wellFormed_new _ _ _, cuts_new _ _ _⟩,
      wellFormed_new _ _ _, rfl⟩ ?_
  rintro t e t' ⟨hr, hst, hw⟩ hs hopen
  refine ⟨?_, streams_step hst hs hopen, windowed_step hw hs⟩
  obtain ⟨s', hs', rfl⟩ := Option.map_eq_some_iff.mp hs
  rw [record_sender]
  exact hr.step hs'

end Traced

open Traced in
/-- **`fill_window` fills the window and never stalls.**  In every state of a run without a write
after `end_input`, the recursion of `fill_window` ends.  Then the SYN is out, and either the FIN is
out, or the bytes in flight fill the last accepted window, or no byte is waiting and the input has
not ended.  If nothing is outstanding then, every byte that `stream_in()` accepted has been sent,
and the FIN if the input has ended, and `_receiver_ack` is behind all of it. -/
theorem fillWindow_fills (capacity : Nat) (retxTimeout : UInt16) (isn : WrappingInt32)
    (es : List SenderEvent) (t : Traced)
    (ht : Path Traced.step (fun t e _ => t.WritesOpen e) (Traced.init capacity retxTimeout isn)
      es t) :
    ∃ t', t.step .fillWindow = some t' ∧
      (∃ seg ∈ t'.filled, seg.header.syn = true) ∧
      ((∃ seg ∈ t'.filled, seg.header.fin = true) ∨
        max t.window 1 ≤ t'.sender.bytesInFlight ∨
        t'.sender.stream.buffer = [] ∧ t'.sender.stream.inputEnded = false) ∧
      (t.sender.Bounded → t'.sender.outstandingSegments = [] →
        t'.filled.flatMap TCPSegment.payload = t'.accepted ∧
        (t'.sender.stream.inputEnded = true → ∃ seg ∈ t'.filled, seg.header.fin = true) ∧
        t'.sender.receiverAck =
          1 + t'.accepted.length + (if t'.sender.stream.inputEnded then 1 else 0)) := by
  obtain ⟨hreached, hstreams, hwin⟩ := reached_of_path ht
  obtain ⟨s', news, hfill, hem, -⟩ := TCPSender.fillWindow_spec t.sender
  have hstep : t.step .fillWindow = some (t.record s' .fillWindow) := by
    rw [Traced.step, TCPSender.step, hfill, Option.map_some]
  have hcuts := (streams_step hstreams hstep trivial).cuts
  have hwin' := (windowed_step hwin hstep).window
  have hfilled : s'.Filled := TCPSender.fillLoop_filled _ _ hfill
  refine ⟨_, hstep, ?_⟩
  generalize hrec : t.record s' .fillWindow = t' at *
  have hsender : t'.sender = s' := by rw [← hrec, record_sender]
  have hwindow : t'.window = t.window := by rw [← hrec]; rfl
  rw [← hsender] at hfilled hem
  rw [exists_syn_iff hcuts.tiles, hcuts.finLast.exists_iff]
  refine ⟨hcuts.next_ne_zero hfilled, ?_, ?_⟩
  · rw [← hwindow, ← hwin', ← TCPSender.windowSize_eq]
    exact hfilled.imp_right And.right
  · intro hb hout
    have hsame := hem.eq_of_outstanding hout
    have hack := hreached.ack_eq_next hb (by rw [← hsame]; exact hout)
    have hfl := TCPSender.bytesInFlight_eq hreached.wellFormed
    rw [← hsame] at hack hfl
    obtain ⟨hnext, hfin⟩ := hcuts.sent_all_of_filled hfilled (by omega)
    refine ⟨flatMap_payload (by omega) hcuts.tiles, fun hended => ?_, hack.trans hnext⟩
    rw [hfin, hended]

/-- A closed window counts as one byte: the last byte and the FIN wait until it opens.  Once they
are acknowledged nothing is left. -/
theorem fillWindow_fills_closed_window :
    ∃ t, Path Traced.step (fun t e _ => t.WritesOpen e) (Traced.init 8 1000 ⟨4294967294⟩)
        [.fillWindow, .write [1, 2], .endInput, .ackReceived ⟨4294967295⟩ 0, .fillWindow,
          .ackReceived ⟨0⟩ 2, .fillWindow, .ackReceived ⟨2⟩ 0] t ∧
      t.accepted = [1, 2] ∧ t.filled.length = 3 ∧
      ∃ t', t.step .fillWindow = some t' ∧
        t'.filled.flatMap TCPSegment.payload = t'.accepted ∧
        t'.sender.receiverAck =
          1 + t'.accepted.length + (if t'.sender.stream.inputEnded then 1 else 0) := by
  obtain ⟨t, hc⟩ := Option.isSome_iff_exists.mp
    (show (check Traced.step (fun t e _ => t.WritesOpen e) (Traced.init 8 1000 ⟨4294967294⟩)
      [.fillWindow, .write [1, 2], .endInput, .ackReceived ⟨4294967295⟩ 0, .fillWindow,
        .ackReceived ⟨0⟩ 2, .fillWindow, .ackReceived ⟨2⟩ 0]).isSome = true by decide)
  have hp := Path.of_check hc
  obtain ⟨t', ht', -, -, hall⟩ := fillWindow_fills 8 1000 ⟨4294967294⟩ _ t hp
  have hfacts : t.accepted = [1, 2] ∧ t.filled.length = 3 ∧ t.sender.Bounded ∧
      (t.step .fillWindow).map (fun u => u.sender.outstandingSegments) = some [] := by
    obtain rfl : _ = t := Option.some.inj hc
    decide
  obtain ⟨haccepted, hthree, hb, hout⟩ := hfacts
  rw [ht'] at hout
  obtain ⟨hsent, -, hack⟩ := hall hb (Option.some.inj hout)
  exact ⟨t, hp, haccepted, hthree, t', ht', hsent, hack⟩

end Sponge
