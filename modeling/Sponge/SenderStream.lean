import Sponge.Lib.PartialStream
import Sponge.SenderRuns

/-!
# What the sender emits

`sender_emits`: as long as the writer does not write after `end_input`, the segments that
`fill_window` pushes cut the byte string accepted by `stream_in()` into consecutive pieces, SYN
first and FIN last, and `tick` only pushes copies of them.
-/

namespace Sponge

open PartialStream Tiling Transition

namespace Traced

open TCPSender

/-- `seg` belongs at absolute sequence number `p` of the stream that carries `S` after `isn`: it is
the SYN, or it carries bytes of `S`, and the FIN only after the last byte of a stream that has
ended. -/
structure PartOf (S : List UInt8) (ended : Bool) (isn : WrappingInt32) (p : Nat)
    (seg : TCPSegment) : Prop where
  seqno : seg.header.seqno = wrap p isn
  body : p = 0 ∧ seg.header.syn = true ∧ seg.payload = [] ∧ seg.header.fin = false ∨
    1 ≤ p ∧ seg.header.syn = false ∧ seg.payload = (S.drop (p - 1)).take seg.payload.length ∧
      seg.payload.length ≤ TCPConfig.maxPayloadSize ∧
      (seg.header.fin = true → ended = true ∧ p - 1 + seg.payload.length = S.length)

/-- As long as the input has not ended, no part of the stream carries the FIN, and the stream may
grow. -/
theorem PartOf.append {S : List UInt8} {isn : WrappingInt32} {p : Nat} {seg : TCPSegment}
    (h : PartOf S false isn p seg) (U : List UInt8) : PartOf (S ++ U) false isn p seg := by
  refine ⟨h.seqno, h.body.imp_right ?_⟩
  rintro ⟨hp, hsyn, hpay, hlen, hfin⟩
  exact ⟨hp, hsyn, piece_append hpay U, hlen, fun hf => absurd (hfin hf).1 Bool.false_ne_true⟩

theorem PartOf.end {S : List UInt8} {ended : Bool} {isn : WrappingInt32} {p : Nat}
    {seg : TCPSegment} (h : PartOf S ended isn p seg) : PartOf S true isn p seg := by
  refine ⟨h.seqno, h.body.imp_right ?_⟩
  rintro ⟨hp, hsyn, hpay, hlen, hfin⟩
  exact ⟨hp, hsyn, hpay, hlen, fun hf => ⟨rfl, (hfin hf).2⟩⟩

/-- No segment carries the FIN, or exactly the last one does. -/
def FinLast (fin : Bool) (segs : List TCPSegment) : Prop :=
  if fin then ∃ front last, segs = front ++ [last] ∧ last.header.fin = true ∧
    ∀ seg ∈ front, seg.header.fin = false
  else ∀ seg ∈ segs, seg.header.fin = false

/-- The sender has cut the accepted bytes `S` into the segments `filled`. -/
structure Cuts (isn : WrappingInt32) (S : List UInt8) (resent filled : List TCPSegment)
    (s : TCPSender) : Prop where
  isn_eq : s.isn = isn
  accepted : S.length = s.stream.bytesWritten
  buffer : s.stream.buffer = S.drop s.stream.bytesRead
  next : s.nextSeqnoAbsolute = (if s.setSynFlag then 1 else 0) + s.stream.bytesRead +
    (if s.setFinFlag then 1 else 0)
  syn : s.setSynFlag = true ↔ s.nextSeqnoAbsolute ≠ 0
  fin : s.setFinFlag = true → s.stream.eof = true
  tiles : Tiles (PartOf S s.stream.inputEnded isn) TCPSegment.lengthInSequenceSpace 0 filled
    s.nextSeqnoAbsolute
  finLast : FinLast s.setFinFlag filled
  outstanding : s.outstandingSegments <:+ filled
  resent_mem : ∀ seg ∈ resent, seg ∈ filled

theorem cuts_new (capacity : Nat) (retxTimeout : UInt16) (isn : WrappingInt32) :
    Cuts isn [] [] [] (TCPSender.new capacity retxTimeout isn) where
  isn_eq := rfl
  accepted := rfl
  buffer := rfl
  next := rfl
  syn := by simp [TCPSender.new]
  fin := by simp [TCPSender.new]
  tiles := rfl
  finLast := by simp [FinLast, TCPSender.new]
  outstanding := List.suffix_refl _
  resent_mem := by simp

variable {isn : WrappingInt32} {S : List UInt8} {resent filled : List TCPSegment}
  {s s' : TCPSender} {seg : TCPSegment}

/-- A step that leaves the stream and the counters alone, and only drops outstanding segments. -/
theorem Cuts.keep (h : Cuts isn S resent filled s) (hisn : s'.isn = s.isn)
    (hstream : s'.stream = s.stream) (hnext : s'.nextSeqnoAbsolute = s.nextSeqnoAbsolute)
    (hsyn : s'.setSynFlag = s.setSynFlag) (hfin : s'.setFinFlag = s.setFinFlag)
    (hout : s'.outstandingSegments <:+ s.outstandingSegments) : Cuts isn S resent filled s' := by
  obtain ⟨h1, h2, h3, h4, h5, h6, h7, h8, h9, h10⟩ := h
  rw [← hstream] at h2 h3 h4 h6 h7
  rw [← hnext] at h4 h5 h7
  rw [← hsyn] at h4 h5
  rw [← hfin] at h4 h6 h8
  exact ⟨hisn.trans h1, h2, h3, h4, h5, h6, h7, h8, hout.trans h9, h10⟩

theorem Cuts.unmoved (h : Cuts isn S resent filled s) (hs : Unmoved s s') :
    Cuts isn S resent filled s' :=
  h.keep hs.isn hs.stream hs.next hs.setSynFlag hs.setFinFlag
    (hs.outstandingSegments ▸ List.suffix_refl _)

/-- Once the FIN is out, the stream has ended and every byte of it has been sent. -/
theorem Cuts.sent_all (h : Cuts isn S resent filled s) (hfin : s.setFinFlag = true) :
    s.stream.inputEnded = true ∧ s.stream.bytesRead = S.length := by
  have heof := h.fin hfin
  rw [ByteStream.eof_iff] at heof
  have hbal := s.stream.bytesWritten_eq
  rw [heof.1, List.length_nil] at hbal
  have haccepted := h.accepted
  exact ⟨heof.2, by omega⟩

/-- The FIN waits for the end of the input. -/
theorem Cuts.fin_unsent (h : Cuts isn S resent filled s) (hopen : s.stream.inputEnded = false) :
    s.setFinFlag = false := by
  by_contra hfin
  have hended := (h.sent_all (by simpa using hfin)).1
  rw [hopen] at hended
  cases hended

/-- Where the next byte of the stream goes, once the SYN is out. -/
theorem Cuts.next_eq (h : Cuts isn S resent filled s) (hfin : s.setFinFlag = false)
    (hnext : s.nextSeqnoAbsolute ≠ 0) : s.nextSeqnoAbsolute = s.stream.bytesRead + 1 := by
  have := h.next
  rw [if_pos (h.syn.mpr hnext), hfin, if_neg Bool.false_ne_true] at this
  omega

/-- The next segment is the next part of the stream. -/
theorem Cuts.partOf (h : Cuts isn S resent filled s) (hs : Emitted s seg s') :
    PartOf S s'.stream.inputEnded isn s.nextSeqnoAbsolute seg := by
  refine ⟨by rw [hs.seqno, h.isn_eq], ?_⟩
  by_cases hsyn : seg.header.syn = true
  · obtain ⟨hpay, hfin⟩ := hs.synBare hsyn
    exact Or.inl ⟨hs.syn.mp hsyn, hsyn, hpay, hfin⟩
  · have hnext : s.nextSeqnoAbsolute ≠ 0 := fun h0 => hsyn (hs.syn.mpr h0)
    have hpos := h.next_eq hs.finUnsent hnext
    have hbuf := hs.buffer
    rw [h.buffer] at hbuf
    refine Or.inr ⟨by omega, by simpa using hsyn, ?_, hs.payload_le, fun hfin => ?_⟩
    · rw [hpos, Nat.add_sub_cancel, ← hbuf, List.take_left]
    · -- the FIN: nothing is left in the buffer
      have heof := hs.fin hfin
      rw [ByteStream.eof_iff] at heof
      refine ⟨heof.2, ?_⟩
      have hlen := s'.stream.bytesWritten_eq
      rw [hs.bytesWritten, hs.bytesRead, heof.1, List.length_nil] at hlen
      rw [h.accepted, hpos]
      omega

theorem Cuts.emitted (h : Cuts isn S resent filled s) (hs : Emitted s seg s') :
    Cuts isn S resent (filled ++ [seg]) s' := by
  have hpart := h.partOf hs
  have hlen : seg.lengthInSequenceSpace = seg.payload.length +
      (if seg.header.syn then 1 else 0) + (if seg.header.fin then 1 else 0) := rfl
  have hsynFlag : s'.setSynFlag = true := by
    rw [hs.setSynFlag, Bool.or_eq_true]
    by_cases h0 : s.nextSeqnoAbsolute = 0
    · exact Or.inr (hs.syn.mpr h0)
    · exact Or.inl (h.syn.mpr h0)
  constructor
  · rw [hs.isn, h.isn_eq]
  · rw [h.accepted, hs.bytesWritten]
  · have hbuf := hs.buffer
    rw [h.buffer] at hbuf
    rw [hs.bytesRead, ← List.drop_drop, ← hbuf, List.drop_left]
  · rw [hs.next, hsynFlag, hs.bytesRead, hs.setFinFlag, hlen, if_pos rfl]
    by_cases hsyn : seg.header.syn = true
    · have h0 := hs.syn.mp hsyn
      have hread := h.next
      rw [h0] at hread
      rw [if_pos hsyn, h0]
      omega
    · have h0 : s.nextSeqnoAbsolute ≠ 0 := fun h0 => hsyn (hs.syn.mpr h0)
      rw [if_neg hsyn, h.next_eq hs.finUnsent h0]
      omega
  · simp [hsynFlag, hs.next_ne_zero]
  · intro hfin
    rw [hs.setFinFlag] at hfin
    exact hs.fin hfin
  · rw [hs.next]
    exact tiles_concat (by rw [hs.inputEnded]; exact h.tiles) hpart hs.pos
  · have hnone : ∀ x ∈ filled, x.header.fin = false := by
      simpa [FinLast, hs.finUnsent] using h.finLast
    rw [hs.setFinFlag]
    cases hfin : seg.header.fin with
    | true => exact ⟨filled, seg, rfl, hfin, hnone⟩
    | false =>
      intro x hx
      rcases List.mem_append.mp hx with hx | hx
      · exact hnone x hx
      · rw [List.mem_singleton.mp hx, hfin]
  · obtain ⟨gone, hgone⟩ := h.outstanding
    rw [hs.outstandingSegments]
    exact ⟨gone, by rw [← List.append_assoc, hgone]⟩
  · intro x hx
    exact List.mem_append_left _ (h.resent_mem x hx)

/-- The writer does not write after `end_input`. -/
def WritesOpen (t : Traced) : SenderEvent → Prop
  | .write _ => t.sender.stream.inputEnded = false
  | _ => True

instance (t : Traced) : (e : SenderEvent) → Decidable (t.WritesOpen e)
  | .write _ => inferInstanceAs (Decidable (_ = _))
  | .endInput => isTrue trivial
  | .fillWindow => isTrue trivial
  | .ackReceived _ _ => isTrue trivial
  | .tick _ => isTrue trivial
  | .sendEmptySegment => isTrue trivial

/-- The history records the bytes and segments of the stream. -/
structure Streams (isn : WrappingInt32) (t : Traced) : Prop where
  wellFormed : WellFormed t.sender
  cuts : Cuts isn t.accepted t.resent t.filled t.sender

theorem Cuts.write (h : Cuts isn S resent filled s) (hopen : s.stream.inputEnded = false)
    (data : List UInt8) :
    Cuts isn (S ++ data.take (s.stream.write data).1) resent filled
      { s with stream := (s.stream.write data).2 } := by
  have hfin := h.fin_unsent hopen
  have hread := s.stream.bytesWritten_eq
  have haccepted := h.accepted
  refine { h with accepted := ?_, buffer := ?_, fin := ?_, tiles := ?_ }
  · have hcount := s.stream.write_count data
    rw [List.length_append, List.length_take, ByteStream.write_bytesWritten, haccepted]
    omega
  · rw [ByteStream.write_buffer, ByteStream.write_bytesRead, h.buffer,
      List.drop_append_of_le_length (by omega)]
  · simp [hfin]
  · rw [ByteStream.write_inputEnded, hopen]
    have htiles := h.tiles
    rw [hopen] at htiles
    exact tiles_imp htiles (fun _ _ _ _ _ hat => hat.append _)

theorem Cuts.endInput (h : Cuts isn S resent filled s) :
    Cuts isn S resent filled { s with stream := s.stream.endInput } := by
  refine { h with fin := ?_, tiles := tiles_imp h.tiles (fun _ _ _ _ _ hat => hat.end) }
  intro hfin
  have heof := h.fin hfin
  rw [ByteStream.eof_iff] at heof ⊢
  exact ⟨heof.1, rfl⟩

theorem Cuts.acked {absAckno w : Nat} (h : Cuts isn S resent filled s)
    (hs : Acked s absAckno w s') : Cuts isn S resent filled s' :=
  h.keep hs.isn hs.stream hs.next hs.setSynFlag hs.setFinFlag
    (hs.outstandingSegments ▸ retire_suffix _ _ _ _ _ _)

theorem streams_step {t t' : Traced} {e : SenderEvent} (h : Streams isn t)
    (hs : t.step e = some t') (hopen : t.WritesOpen e) : Streams isn t' := by
  obtain ⟨s', hmv, rfl⟩ := step_eq h.wellFormed hs
  refine ⟨by rw [record_sender]; exact h.wellFormed.moved hmv, ?_⟩
  cases hmv with
  | write data => exact h.cuts.write hopen data
  | endInput => exact h.cuts.endInput
  | filled hem _ =>
    simp only [record, hem.segmentsOut, List.drop_left]
    exact hem.invariant (I := fun segs u => Cuts isn t.accepted t.resent segs u)
      (fun _ _ _ _ hu he => hu.emitted he) t.filled h.cuts
  | rejected hno => exact h.cuts
  | acked hacc hack => exact h.cuts.acked hack
  | waited hun hout =>
    simp only [record, hout, List.drop_length, List.append_nil]
    exact h.cuts.unmoved hun
  | @resent ms _ seg rest hun hq hout =>
    simp only [record, hout, List.drop_left]
    refine { h.cuts.unmoved hun with resent_mem := ?_ }
    intro x hx
    rcases List.mem_append.mp hx with hx | hx
    · exact h.cuts.resent_mem x hx
    · rw [List.mem_singleton.mp hx]
      exact h.cuts.outstanding.subset (by simp [hq])
  | empty hun _ => exact h.cuts.unmoved hun

end Traced

open Traced in
/-- **What the sender emits.**  `S` is the byte string that `stream_in()` accepted so far, in a run
without a write after `end_input`.  Every segment pushed by `fill_window` or `tick` is the SYN or a
piece of `S` at its place; those of `fill_window` tile `[0, next_seqno_absolute())`; none of them
carries the FIN, or exactly the last one does; `next_seqno_absolute()` counts the SYN, the bytes
read from the stream and the FIN; and no event fails. -/
theorem sender_emits (capacity : Nat) (retxTimeout : UInt16) (isn : WrappingInt32)
    (es : List SenderEvent) (t : Traced)
    (ht : Path Traced.step (fun t e _ => t.WritesOpen e) (Traced.init capacity retxTimeout isn)
      es t) :
    (∀ seg, seg ∈ t.filled ∨ seg ∈ t.resent →
      ∃ p, PartOf t.accepted t.sender.stream.inputEnded isn p seg) ∧
    Tiles (PartOf t.accepted t.sender.stream.inputEnded isn) TCPSegment.lengthInSequenceSpace 0
      t.filled t.sender.nextSeqnoAbsolute ∧
    ((∀ seg ∈ t.filled, seg.header.fin = false) ∨
      ∃ front last, t.filled = front ++ [last] ∧ last.header.fin = true ∧
        ∀ seg ∈ front, seg.header.fin = false) ∧
    t.sender.nextSeqnoAbsolute = (if t.sender.setSynFlag then 1 else 0) +
      t.sender.stream.bytesRead + (if t.sender.setFinFlag then 1 else 0) ∧
    ∀ e, (t.step e).isSome := by
  have h : Streams isn t :=
    ht.invariant ⟨TCPSender.wellFormed_new _ _ _, cuts_new _ _ _⟩
      (fun _ _ _ ha hs hopen => streams_step ha hs hopen)
  have hmem : ∀ seg ∈ t.filled, ∃ p, PartOf t.accepted t.sender.stream.inputEnded isn p seg := by
    intro seg hseg
    obtain ⟨p, -, -, hp⟩ := tiles_mem h.cuts.tiles hseg
    exact ⟨p, hp⟩
  refine ⟨?_, h.cuts.tiles, ?_, h.cuts.next, step_isSome h.wellFormed⟩
  · rintro seg (hseg | hseg)
    · exact hmem seg hseg
    · exact hmem seg (h.cuts.resent_mem seg hseg)
  · have hfin := h.cuts.finLast
    unfold FinLast at hfin
    split at hfin
    · exact Or.inr hfin
    · exact Or.inl hfin

/-- Five bytes, the end of the stream, and a retransmission. -/
theorem sender_emits_retransmission :
    ∃ t, Path Traced.step (fun t e _ => t.WritesOpen e) (Traced.init 8 1000 ⟨4294967294⟩)
        [.fillWindow, .write [1, 2, 3, 4, 5], .ackReceived ⟨4294967295⟩ 3, .fillWindow, .endInput,
          .tick 1000, .ackReceived ⟨2⟩ 9, .fillWindow, .sendEmptySegment] t ∧
      t.accepted = [1, 2, 3, 4, 5] ∧ t.filled.length = 3 ∧ t.resent.length = 1 ∧
      Tiles (Traced.PartOf t.accepted t.sender.stream.inputEnded ⟨4294967294⟩)
        TCPSegment.lengthInSequenceSpace 0 t.filled t.sender.nextSeqnoAbsolute := by
  obtain ⟨t, hc⟩ := Option.isSome_iff_exists.mp
    (show (check Traced.step (fun t e _ => t.WritesOpen e) (Traced.init 8 1000 ⟨4294967294⟩)
      [.fillWindow, .write [1, 2, 3, 4, 5], .ackReceived ⟨4294967295⟩ 3, .fillWindow, .endInput,
        .tick 1000, .ackReceived ⟨2⟩ 9, .fillWindow, .sendEmptySegment]).isSome = true by decide)
  have hp := Path.of_check hc
  have hfacts : t.accepted = [1, 2, 3, 4, 5] ∧ t.filled.length = 3 ∧ t.resent.length = 1 := by
    obtain rfl : _ = t := Option.some.inj hc
    decide
  exact ⟨t, hp, hfacts.1, hfacts.2.1, hfacts.2.2,
    (sender_emits 8 1000 ⟨4294967294⟩ _ t hp).2.1⟩

end Sponge
