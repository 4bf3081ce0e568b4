import Sponge.EndedStream

/-!
# The advertised window

`window_size()` is the free space of the output stream; what the reassembler accepts is decided by
another formula, after the 32-bit sequence number was re-expanded.  `advertised_window`: the two
agree for every single byte, and the right edge of the window never retreats.
-/

namespace Sponge

open PartialStream Transition

namespace StreamReassembler

variable {r r' : StreamReassembler} {f : Nat → Option UInt8} {data : List UInt8} {index : Nat}

theorem Window.finite (h : Window r f) : {i | (f i).isSome}.Finite :=
  (Set.finite_lt_nat (r.output.bytesRead + r.capacity)).subset (fun i hi => h.room i hi)

/-- The bytes written and the bytes waiting are the accepted indices. -/
theorem Window.stored_eq (h : Window r f) :
    r.output.bytesWritten + r.unassembledBytes = {i | (f i).isSome}.ncard := by
  have hsplit : {i | (f i).isSome} = (Finset.range r.output.bytesWritten : Set Nat) ∪
      {i | r.output.bytesWritten ≤ i ∧ (f i).isSome} := by
    ext i
    simp only [Set.mem_ofPred_eq, Set.mem_union, Finset.coe_range, Set.mem_Iio]
    constructor
    · intro hi
      by_cases hlt : i < r.output.bytesWritten
      · exact Or.inl hlt
      · exact Or.inr ⟨by omega, hi⟩
    · rintro (hlt | ⟨-, hi⟩)
      · exact h.written i hlt
      · exact hi
  have hdisj : Disjoint (Finset.range r.output.bytesWritten : Set Nat)
      {i | r.output.bytesWritten ≤ i ∧ (f i).isSome} := by
    rw [Set.disjoint_left, Finset.coe_range]
    rintro i hlt ⟨hge, -⟩
    exact absurd hlt (Nat.not_lt.mpr hge)
  have hfin : {i | r.output.bytesWritten ≤ i ∧ (f i).isSome}.Finite :=
    h.finite.subset (fun i hi => hi.2)
  rw [hsplit, Set.ncard_union_eq hdisj (Finset.finite_toSet _) hfin, ← h.unassembledBytes_eq,
    Set.ncard_coe_finset, Finset.card_range]

/-- A push of one byte for an index that has not been accepted: it is stored exactly when the index
is below `bytes_read + capacity`. -/
theorem Pushed.stored_single {b : UInt8} {eof : Bool} (hr : Window r f)
    (hend : index + 1 < Word.size) (hwin : r.output.bytesRead + r.capacity < Word.size)
    (hfree : f index = none) (h : Pushed r f [b] index eof r') :
    r'.output.bytesWritten + r'.unassembledBytes =
      r.output.bytesWritten + r.unassembledBytes +
        (if index < r.output.bytesRead + r.capacity then 1 else 0) := by
  have hiff : ∀ i, (accept r f [b] index i).isSome ↔ (f i).isSome ∨
      (index ≤ i ∧ i < index + 1) ∧ i < r.output.bytesRead + r.capacity :=
    accept_isSome_iff hr (by simpa using hend) hwin
  rw [h.assembled.toWindow.stored_eq, hr.stored_eq]
  split
  · rename_i hlt
    rw [← Set.ncard_insert_of_notMem (a := index) (by simp [hfree]) hr.finite]
    congr 1
    ext i
    simp only [Set.mem_ofPred_eq, Set.mem_insert_iff, hiff]
    constructor
    · rintro (hi | ⟨hi, -⟩)
      · exact Or.inr hi
      · exact Or.inl (by omega)
    · rintro (rfl | hi)
      · exact Or.inr ⟨by omega, hlt⟩
      · exact Or.inl hi
  · rename_i hge
    rw [Nat.add_zero]
    congr 1
    ext i
    simp only [Set.mem_ofPred_eq, hiff]
    constructor
    · rintro (hi | ⟨hi, hlt⟩)
      · exact hi
      · omega
    · exact Or.inl

end StreamReassembler

namespace TCPReceiver

/-- The absolute sequence number after the last one the receiver lets through. -/
def rightEdge (t : TCPReceiver) : Nat := t.absAckno + t.windowSize

/-- The number of bytes that the reader takes out of the stream in a step. -/
def bytesTaken (t : TCPReceiver) : ReceiverEvent → Nat
  | .segment _ => 0
  | .read len => (t.streamOut.read len).1.length
  | .pop len => (t.streamOut.removed len).length

/-- The segment carries one byte, with absolute sequence number `bytes_written + 1 + k`. -/
structure CarriesByte (t : TCPReceiver) (isn : WrappingInt32) (k : Nat) (seg : TCPSegment) :
    Prop where
  syn : seg.header.syn = false
  seqno : seg.header.seqno = wrap (t.streamOut.bytesWritten + 1 + k) isn
  payload : seg.payload.length = 1

/-- A single byte near the window is stored exactly when it is inside the advertised window. -/
theorem stored_single {t : TCPReceiver} (h : Sound t) (hcap : t.reassembler.capacity < 2 ^ 31)
    (hw : t.streamOut.bytesWritten < 2 ^ 62) {isn : WrappingInt32} (hisn : t.isn = some isn)
    {k : Nat} (hk : k + 2 ≤ 2 ^ 31) (hfree : t.reassembler.bitmap[k]? ≠ some true)
    {seg : TCPSegment} (hseg : CarriesByte t isn k seg) :
    ∃ t', t.segmentReceived seg = some t' ∧
      t'.streamOut.bytesWritten + t'.unassembledBytes =
        t.streamOut.bytesWritten + t.unassembledBytes +
          (if k < t.windowSize then 1 else 0) := by
  obtain ⟨f, hf⟩ := h.assembled
  obtain ⟨b, hb⟩ := List.length_eq_one_iff.mp hseg.payload
  have hindex : t.streamIndex isn seg = t.streamOut.bytesWritten + k := by
    have hu : unwrap seg.header.seqno isn t.streamOut.bytesWritten =
        t.streamOut.bytesWritten + 1 + k := by
      rw [hseg.seqno]
      exact unwrap_wrap _ _ _ (by omega) (by omega) (by omega)
    rw [streamIndex_eq hu (by simp [hseg.syn]) (fun _ => by omega) (by rw [Word.size_eq]; omega)]
    omega
  have hnone : f (t.streamOut.bytesWritten + k) = none := by
    rw [← Option.not_isSome_iff_eq_none]
    exact fun hsome => hfree ((hf.bit_iff k).mpr hsome)
  obtain ⟨r, hrec, hspec⟩ := segmentReceived_pushed hf (by rw [hseg.payload]; decide)
    (isnAfter_of_some hisn)
  rw [hindex, hb] at hspec
  have hread := StreamReassembler.Window.bytesRead_le (r := t.reassembler)
  have hstored := hspec.stored_single hf.toWindow (by rw [Word.size_eq]; omega)
    (by rw [Word.size_eq]; simp only [streamOut] at hw; omega) hnone
  refine ⟨_, hrec, ?_⟩
  have hrem := t.reassembler.output.remainingCapacity_eq
  rw [hf.output_capacity] at hrem
  have hiff : t.streamOut.bytesWritten + k <
      t.reassembler.output.bytesRead + t.reassembler.capacity ↔ k < t.windowSize := by
    simp only [windowSize, streamOut]
    omega
  simp only [hiff] at hstored
  exact hstored

theorem rightEdge_eq {t : TCPReceiver} {f : Nat → Option UInt8}
    (hf : t.reassembler.Assembled f) :
    t.rightEdge = t.streamOut.bytesRead + t.reassembler.capacity + 1 +
      (if t.streamOut.inputEnded then 1 else 0) := by
  have hrem := t.reassembler.output.remainingCapacity_eq
  rw [hf.output_capacity] at hrem
  simp only [rightEdge, absAckno, windowSize, streamOut]
  omega

/-- What one step does to the reader's side of the stream. -/
theorem step_reader {t t' : TCPReceiver} (h : Sound t) {e : ReceiverEvent} (he : MachineSegment e)
    (hs : t.step e = some t') :
    t'.reassembler.capacity = t.reassembler.capacity ∧
      t'.streamOut.bytesRead = t.streamOut.bytesRead + t.bytesTaken e ∧
      (t.streamOut.inputEnded = true → t'.streamOut.inputEnded = true) := by
  obtain ⟨f, hf⟩ := h.assembled
  have hpop : ∀ len, (t.popStream len).streamOut.bytesRead =
      t.streamOut.bytesRead + (t.streamOut.removed len).length := fun len =>
    t.streamOut.popOutput_bytesRead len
  have hended : ∀ len, t.streamOut.inputEnded = true →
      (t.popStream len).streamOut.inputEnded = true := fun len hend =>
    (t.streamOut.popOutput_inputEnded len).trans hend
  cases e with
  | segment seg =>
    cases hisn : t.isnAfter seg with
    | none =>
      obtain rfl : t = t' := by simpa [step, segmentReceived, hisn] using hs
      exact ⟨rfl, rfl, id⟩
    | some isn =>
      obtain ⟨r, hrec, hspec⟩ := segmentReceived_pushed hf he hisn
      obtain rfl := Option.some.inj (hrec.symm.trans hs)
      refine ⟨hspec.capacity, hspec.bytesRead, fun hend => ?_⟩
      rw [streamOut, hspec.inputEnded, show t.reassembler.output.inputEnded = true from hend,
        Bool.true_or]
  | read len =>
    rw [step_read] at hs
    obtain rfl := Option.some.inj hs
    refine ⟨rfl, ?_, hended len⟩
    rw [hpop, bytesTaken, ByteStream.read_fst]
  | pop len =>
    obtain rfl := Option.some.inj hs
    exact ⟨rfl, hpop len, hended len⟩

/-- **The right edge never retreats.** -/
theorem rightEdge_step {t t' : TCPReceiver} (h : Sound t) {e : ReceiverEvent}
    (he : MachineSegment e) (hs : t.step e = some t') :
    t.rightEdge ≤ t'.rightEdge ∧ (t'.streamOut.inputEnded = t.streamOut.inputEnded →
      t'.rightEdge = t.rightEdge + t.bytesTaken e) := by
  obtain ⟨hcap, hread, hended⟩ := step_reader h he hs
  obtain ⟨u, hu, hsound⟩ := sound_step h he
  obtain rfl : u = t' := Option.some.inj (hu.symm.trans hs)
  obtain ⟨f, hf⟩ := h.assembled
  obtain ⟨f', hf'⟩ := hsound.assembled
  rw [rightEdge_eq hf, rightEdge_eq hf', hcap, hread]
  refine ⟨?_, fun hsame => by rw [hsame]; omega⟩
  cases hb : t.streamOut.inputEnded with
  | true =>
    rw [hended hb]
    omega
  | false =>
    simp only [Bool.false_eq_true, if_false]
    omega

end TCPReceiver

open TCPReceiver in
/-- **The advertised window is what the receiver accepts.**  Every run of arbitrary segments and
reads is defined.  In the state it ends in, if the SYN has been received and the input has not
ended, a segment with the single byte at absolute sequence number `bytes_written + 1 + k` that is
not already stored is stored exactly when `k < window_size()`.  Over any further step the right
edge does not decrease, and while the input does not end it grows by the bytes read in the step. -/
theorem advertised_window (capacity : Nat) (hcap : capacity ≤ 2 ^ 31 - 2) (t₀ : TCPReceiver)
    (hnew : TCPReceiver.new capacity = some t₀) (es : List ReceiverEvent)
    (hes : ∀ e ∈ es, MachineSegment e) :
    ∃ t, run TCPReceiver.step t₀ es = some t ∧
      (∀ isn k seg, t.isn = some isn → t.streamOut.inputEnded = false →
        t.streamOut.bytesWritten < 2 ^ 62 → k ≤ 2 ^ 31 - 2 →
        t.reassembler.bitmap[k]? ≠ some true → CarriesByte t isn k seg →
        ∃ t', t.segmentReceived seg = some t' ∧
          (t'.streamOut.bytesWritten + t'.unassembledBytes =
            t.streamOut.bytesWritten + t.unassembledBytes + 1 ↔ k < t.windowSize) ∧
          (t.windowSize ≤ k → t'.streamOut.bytesWritten + t'.unassembledBytes =
            t.streamOut.bytesWritten + t.unassembledBytes)) ∧
      ∀ e t', MachineSegment e → t.step e = some t' →
        t.rightEdge ≤ t'.rightEdge ∧ (t'.streamOut.inputEnded = t.streamOut.inputEnded →
          t'.rightEdge = t.rightEdge + t.bytesTaken e) := by
  obtain ⟨hc, rfl⟩ := TCPReceiver.new_eq_some hnew
  have hstep : ∀ (t : TCPReceiver) e, Sound t ∧ t.reassembler.capacity = capacity →
      MachineSegment e → ∃ t', t.step e = some t' ∧ Sound t' ∧
        t'.reassembler.capacity = capacity := by
    rintro t e ⟨hsound, hcapacity⟩ he
    obtain ⟨t', ht', hsound'⟩ := sound_step hsound he
    exact ⟨t', ht', hsound', (step_reader hsound he ht').1.trans hcapacity⟩
  obtain ⟨t, hrun, hsound, hcapacity⟩ := run_total hstep es hes _ ⟨sound_fresh hc, rfl⟩
  refine ⟨t, hrun, ?_, fun e t' he hs => rightEdge_step hsound he hs⟩
  intro isn k seg hisn _ hw hk hfree hseg
  obtain ⟨t', hrec, hstored⟩ :=
    stored_single hsound (by omega) hw hisn (by omega) hfree hseg
  refine ⟨t', hrec, ?_, fun hge => ?_⟩
  · by_cases hlt : k < t.windowSize
    · rw [if_pos hlt] at hstored
      exact iff_of_true hstored hlt
    · rw [if_neg hlt] at hstored
      exact iff_of_false (by omega) hlt
  · rw [if_neg (by omega)] at hstored
    exact hstored

/-- Across the wrap of the sequence numbers, with an island stored at the last place of the window:
the byte before it is stored. -/
theorem advertised_window_island :
    ∃ t t', run TCPReceiver.step (TCPReceiver.fresh 3)
        [.segment { header := { seqno := ⟨4294967295⟩, syn := true } },
          .segment { header := { seqno := ⟨2⟩ }, payload := [30] }] = some t ∧
      t.windowSize = 3 ∧
      t.segmentReceived { header := { seqno := ⟨1⟩ }, payload := [20] } = some t' ∧
      t'.streamOut.bytesWritten + t'.unassembledBytes =
        t.streamOut.bytesWritten + t.unassembledBytes + 1 := by
  obtain ⟨t, hrun, hstore, -⟩ := advertised_window 3 (by decide) _ rfl
    [.segment { header := { seqno := ⟨4294967295⟩, syn := true } },
      .segment { header := { seqno := ⟨2⟩ }, payload := [30] }] (by decide)
  have hfacts : t.isn = some ⟨4294967295⟩ ∧ t.streamOut.inputEnded = false ∧
      t.streamOut.bytesWritten < 2 ^ 62 ∧ t.reassembler.bitmap[1]? ≠ some true ∧
      t.windowSize = 3 ∧
      wrap (t.streamOut.bytesWritten + 1 + 1) ⟨4294967295⟩ = ⟨1⟩ := by
    obtain rfl : _ = t := Option.some.inj hrun
    decide
  obtain ⟨hisn, hopen, hw, hfree, hwin, hseq⟩ := hfacts
  obtain ⟨t', hrec, hiff, -⟩ := hstore ⟨4294967295⟩ 1
    { header := { seqno := ⟨1⟩ }, payload := [20] } hisn hopen hw (by decide) hfree
    ⟨rfl, hseq.symm, rfl⟩
  exact ⟨t, t', hrun, hwin, hrec, hiff.mpr (by rw [hwin]; decide)⟩

end Sponge
