import Sponge.Lib.Path
import Sponge.Reassembly

/-!
# Runs of the stream reassembler

Two results about every run of `push_substring` calls, reads and pops:

* `reassembler_refines`: for arbitrary, also mutually inconsistent, segments the
  reassembler delivers at each index the byte of the push that first got the index accepted, and
  counts exactly the accepted indices it still holds;
* `inputEnded_iff`: for segments of one byte string the end of the stream is signalled
  exactly when an end marker has arrived and every byte has been written.
-/

namespace Sponge

open PartialStream Transition

/-! ## What was accepted, and what the reader took -/

/-- A reassembler with its history: the byte first accepted for each index, and the bytes the
reader has removed from the output stream. -/
structure History where
  reassembler : StreamReassembler
  accepted : Nat → Option UInt8
  taken : List UInt8

namespace History

def init (r : StreamReassembler) : History := ⟨r, fun _ => none, []⟩

/-- A push gets an index accepted if it covers the index, the index is not below `bytes_written`
and below `bytes_read + capacity`, and was not accepted before. -/
def step (h : History) (e : ReassemblerEvent) : Option History :=
  (h.reassembler.step e).map fun r =>
    match e with
    | .push data index _ =>
      ⟨r, offer h.accepted h.reassembler.output.bytesWritten
        (h.reassembler.output.bytesRead + h.reassembler.capacity) index data, h.taken⟩
    | .read len => ⟨r, h.accepted, h.taken ++ (h.reassembler.output.read len).1⟩
    | .pop len => ⟨r, h.accepted, h.taken ++ h.reassembler.output.removed len⟩

/-- The bytes delivered so far: those read, then those still buffered in the output stream. -/
def delivered (h : History) : List UInt8 := h.taken ++ h.reassembler.output.buffer

/-- No sum of the call leaves the 64-bit range. -/
def InRange (h : History) : ReassemblerEvent → Prop
  | .push data index _ => index + data.length < Word.size ∧
      h.reassembler.output.bytesRead + h.reassembler.capacity < Word.size
  | _ => True

instance (h : History) : (e : ReassemblerEvent) → Decidable (h.InRange e)
  | .push _ _ _ => inferInstanceAs (Decidable (_ ∧ _))
  | .read _ => isTrue trivial
  | .pop _ => isTrue trivial

/-- The history agrees with the state. -/
structure Agree (h : History) : Prop where
  assembled : h.reassembler.Assembled h.accepted
  taken : h.taken.length = h.reassembler.output.bytesRead
  delivered : ∀ i < h.reassembler.output.bytesWritten, h.delivered[i]? = h.accepted i

theorem Agree.delivered_length {h : History} (hh : Agree h) :
    h.delivered.length = h.reassembler.output.bytesWritten := by
  rw [History.delivered, List.length_append, hh.taken, ByteStream.bytesWritten_eq]

theorem agree_init {capacity : Nat} (h : capacity ≤ maxSize) :
    Agree (init (StreamReassembler.fresh capacity)) :=
  ⟨StreamReassembler.assembled_fresh h, rfl, fun i hi => absurd hi (Nat.not_lt_zero i)⟩

/-- What the reader takes moves from the buffer to the history. -/
theorem Agree.pop {h : History} (hh : Agree h) (len : Nat) :
    Agree ⟨{ h.reassembler with output := h.reassembler.output.popOutput len }, h.accepted,
      h.taken ++ h.reassembler.output.removed len⟩ := by
  refine ⟨hh.assembled.pop len, ?_, ?_⟩
  · simp only [List.length_append, hh.taken, ByteStream.popOutput_bytesRead]
  · intro i hi
    simp only [History.delivered, List.append_assoc, ByteStream.removed_append]
    simp only [ByteStream.popOutput_bytesWritten] at hi
    exact hh.delivered i hi

/-- A push appends the bytes it made contiguous. -/
theorem Agree.push {h : History} (hh : Agree h) {data : List UInt8} {index : Nat} {eof : Bool}
    {r' : StreamReassembler} (hend : index + data.length < Word.size)
    (hwin : h.reassembler.output.bytesRead + h.reassembler.capacity < Word.size)
    (hpush : StreamReassembler.Pushed h.reassembler h.accepted data index eof r') :
    Agree ⟨r', offer h.accepted h.reassembler.output.bytesWritten
      (h.reassembler.output.bytesRead + h.reassembler.capacity) index data, h.taken⟩ := by
  have hacc : h.reassembler.accept h.accepted data index = _ :=
    StreamReassembler.accept_eq hend hwin
  obtain ⟨bytes, hbuf, hwr, hbytes⟩ := hpush.written
  have hlen := hh.delivered_length
  rw [hacc] at hbytes
  refine ⟨hacc ▸ hpush.assembled, hh.taken.trans hpush.bytesRead.symm, ?_⟩
  intro i hi
  simp only [hwr] at hi
  simp only [History.delivered, hbuf, ← List.append_assoc]
  change (h.delivered ++ bytes)[i]? = _
  rcases Nat.lt_or_ge i h.reassembler.output.bytesWritten with hlt | hge
  · obtain ⟨c, hc⟩ := Option.isSome_iff_exists.mp (hh.assembled.written i hlt)
    rw [List.getElem?_append_left (by omega), hh.delivered i hlt, hc, offer_of_some hc]
  · rw [List.getElem?_append_right (by omega), hlen, ← hbytes _ (by omega)]
    congr 1
    omega

theorem agree_step {h h' : History} {e : ReassemblerEvent} (hh : Agree h)
    (hs : h.step e = some h') (hin : InRange h e) : Agree h' := by
  obtain ⟨r', hr', rfl⟩ := Option.map_eq_some_iff.mp hs
  cases e with
  | push data index eof =>
    obtain ⟨r'', hpush, hspec⟩ :=
      StreamReassembler.pushSubstring_spec hh.assembled (Or.inr hin) eof
    obtain rfl : r'' = r' := Option.some.inj (hpush.symm.trans hr')
    exact hh.push hin.1 hin.2 hspec
  | read len =>
    rw [StreamReassembler.step_read] at hr'
    obtain rfl := Option.some.inj hr'
    simpa only [ByteStream.read_fst] using hh.pop len
  | pop len =>
    obtain rfl := Option.some.inj hr'
    exact hh.pop len

end History

/-- **The reassembler refines its abstract model.**  After every step `bytes_written` is the least
index not yet accepted, the byte delivered at each index is the one first accepted for it, and
`unassembled_bytes()` counts the accepted indices from `bytes_written` on.  No push within range
fails. -/
theorem reassembler_refines (capacity : Nat) (r : StreamReassembler)
    (hnew : StreamReassembler.new capacity = some r) (es : List ReassemblerEvent) (h : History)
    (hp : Path History.step (fun h e _ => h.InRange e) (History.init r) es h) :
    IsLeast {i | h.accepted i = none} h.reassembler.output.bytesWritten ∧
    h.delivered.length = h.reassembler.output.bytesWritten ∧
    (∀ i < h.reassembler.output.bytesWritten, h.delivered[i]? = h.accepted i) ∧
    h.reassembler.unassembledBytes =
      {i | h.reassembler.output.bytesWritten ≤ i ∧ (h.accepted i).isSome}.ncard ∧
    ∀ e, h.InRange e → (h.step e).isSome := by
  obtain ⟨hcap, rfl⟩ := StreamReassembler.new_eq_some hnew
  have hh : History.Agree h :=
    hp.invariant (History.agree_init hcap) (fun _ _ _ ha hs hin => History.agree_step ha hs hin)
  refine ⟨⟨hh.assembled.hole, ?_⟩, hh.delivered_length, hh.delivered,
    hh.assembled.unassembledBytes_eq, ?_⟩
  · intro i hi
    by_contra hlt
    have := hh.assembled.written i (by omega)
    rw [show h.accepted i = none from hi] at this
    cases this
  · intro e hin
    rw [History.step, Option.isSome_map]
    cases e with
    | push data index eof =>
      obtain ⟨r', hpush, -⟩ :=
        StreamReassembler.pushSubstring_spec hh.assembled (Or.inr hin) eof
      rw [StreamReassembler.step, hpush]
      rfl
    | read len => rfl
    | pop len => rfl

/-- Two conflicting segments, a truncated one and a read. -/
def conflict : List ReassemblerEvent :=
  [.push [20, 30] 1 false, .push [1, 2] 0 false, .read 2, .push [7, 8, 9] 3 true]

theorem reassembler_refines_conflict :
    ∃ h, Path History.step (fun h e _ => h.InRange e)
        (History.init (StreamReassembler.fresh 3)) conflict h ∧
      IsLeast {i | h.accepted i = none} h.reassembler.output.bytesWritten := by
  obtain ⟨h, hc⟩ := Option.isSome_iff_exists.mp
    (show (check History.step (fun h e _ => h.InRange e)
      (History.init (StreamReassembler.fresh 3)) conflict).isSome = true by decide)
  have hp := Path.of_check hc
  exact ⟨h, hp, (reassembler_refines 3 _ rfl conflict h hp).1⟩

/-! ## Segments of one byte string -/

namespace StreamReassembler

/-- A push that carries a piece of `S`, marked as the end only where `S` ends. -/
def PieceOf (S : List UInt8) : ReassemblerEvent → Prop
  | .push data index eof => index + data.length ≤ S.length ∧
      data = (S.drop index).take data.length ∧ (eof = true → index + data.length = S.length)
  | _ => True

instance (S : List UInt8) : (e : ReassemblerEvent) → Decidable (PieceOf S e)
  | .push _ _ _ => inferInstanceAs (Decidable (_ ∧ _))
  | .read _ => isTrue trivial
  | .pop _ => isTrue trivial

/-- The reassembler holds only bytes of `S`, knows no end but that of `S`, and has signalled the
end exactly when it was announced and all of `S` is written. -/
structure Follows (S : List UInt8) (r : StreamReassembler) (f : Nat → Option UInt8) : Prop where
  assembled : Assembled r f
  agrees : Agrees f S
  eofIndex : r.eofFlag = true → r.eofIndex = S.length
  inputEnded : r.output.inputEnded = true ↔
    r.eofFlag = true ∧ r.output.bytesWritten = S.length

theorem Window.bytesWritten_le_of_agrees {S : List UInt8} {r : StreamReassembler}
    {f : Nat → Option UInt8} (h : Window r f) (hS : Agrees f S) :
    r.output.bytesWritten ≤ S.length := by
  rcases Nat.eq_zero_or_pos r.output.bytesWritten with h0 | h0
  · omega
  · obtain ⟨c, hc⟩ := Option.isSome_iff_exists.mp
      (h.written (r.output.bytesWritten - 1) (by omega))
    have := hS.lt hc
    omega

theorem Follows.push {S : List UInt8} {r r' : StreamReassembler} {f : Nat → Option UInt8}
    (h : Follows S r f) {data : List UInt8} {index : Nat} {eof : Bool}
    (hend : index + data.length < Word.size) (hwin : r.output.bytesRead + r.capacity < Word.size)
    (hdata : data = (S.drop index).take data.length)
    (heof : eof = true → index + data.length = S.length)
    (hpush : Pushed r f data index eof r') : Follows S r' (accept r f data index) := by
  have hflag := hpush.eofFlag
  have hindex : r'.eofFlag = true → r'.eofIndex = S.length := by
    intro hf
    rw [hpush.eofIndex]
    split
    · rename_i he
      rw [endIndex_of_lt hend]
      exact heof he
    · rename_i he
      rw [hflag, Bool.or_eq_true] at hf
      exact h.eofIndex (hf.resolve_left he)
  have hagrees : Agrees (accept r f data index) S := by
    rw [accept_eq hend hwin]
    exact h.agrees.offer hdata
  obtain ⟨bytes, -, hwr, -⟩ := hpush.written
  -- `bytes_written` only grows, and never past the end of `S`
  have hle : r'.output.bytesWritten ≤ S.length :=
    hpush.assembled.bytesWritten_le_of_agrees hagrees
  refine ⟨hpush.assembled, hagrees, hindex, ?_⟩
  rw [hpush.inputEnded, Bool.or_eq_true, h.inputEnded, Bool.and_eq_true, Bool.or_eq_true,
    beq_iff_eq, beq_iff_eq]
  constructor
  · rintro (⟨hf, hw⟩ | ⟨hf, hw⟩)
    · exact ⟨by rw [hflag, hf, Bool.or_true], by omega⟩
    · have := hindex hf
      exact ⟨hf, by omega⟩
  · rintro ⟨hf, hw⟩
    exact Or.inr ⟨hf, Or.inr (by rw [hindex hf, hw])⟩

theorem Follows.pop {S : List UInt8} {r : StreamReassembler} {f : Nat → Option UInt8}
    (h : Follows S r f) (len : Nat) : Follows S { r with output := r.output.popOutput len } f :=
  ⟨h.assembled.pop len, h.agrees, h.eofIndex, by
    simpa only [ByteStream.popOutput_inputEnded, ByteStream.popOutput_bytesWritten]
      using h.inputEnded⟩

theorem follows_fresh {capacity : Nat} (S : List UInt8) (h : capacity ≤ maxSize) :
    Follows S (fresh capacity) (fun _ => none) :=
  ⟨assembled_fresh h, by simp [Agrees], by simp [fresh], by simp [fresh]⟩

/-- As long as no end is known, the stream may turn out to be longer. -/
theorem Follows.append {S : List UInt8} {r : StreamReassembler} {f : Nat → Option UInt8}
    (h : Follows S r f) {U : List UInt8} (hU : r.eofFlag = true → U = []) :
    Follows (S ++ U) r f := by
  cases hflag : r.eofFlag with
  | true =>
    rw [hU hflag, List.append_nil]
    exact h
  | false =>
    refine ⟨h.assembled, h.agrees.append U, by simp [hflag], ?_⟩
    have := h.inputEnded
    simp only [hflag, Bool.false_eq_true, false_and, iff_false] at this ⊢
    exact this

/-- A push of a piece of `S` stays in range when `S` and the capacity are small. -/
theorem Follows.inRange {S : List UInt8} {r : StreamReassembler} {f : Nat → Option UInt8}
    (h : Follows S r f) (hS : S.length + r.capacity < 2 ^ 63) {data : List UInt8} {index : Nat}
    (hdata : index + data.length ≤ S.length) :
    index + data.length < Word.size ∧ r.output.bytesRead + r.capacity < Word.size := by
  have hW := h.assembled.bytesWritten_le_of_agrees h.agrees
  have hR := Window.bytesRead_le (r := r)
  rw [Word.size_eq]
  omega

/-- Did a push marked as the end arrive? -/
def EofArrived (es : List ReassemblerEvent) : Prop :=
  ∃ data index, ReassemblerEvent.push data index true ∈ es

/-- The invariant of a run on pieces of `S`. -/
structure OnTrack (S : List UInt8) (capacity : Nat) (es : List ReassemblerEvent)
    (r : StreamReassembler) : Prop where
  follows : ∃ f, Follows S r f
  capacity : r.capacity = capacity
  eofFlag : r.eofFlag = true ↔ EofArrived es

theorem onTrack_step {S : List UInt8} {capacity : Nat} (hS : S.length + capacity < 2 ^ 63)
    {es : List ReassemblerEvent} {r r' : StreamReassembler} {e : ReassemblerEvent}
    (h : OnTrack S capacity es r) (hs : r.step e = some r') (he : PieceOf S e) :
    OnTrack S capacity (es ++ [e]) r' := by
  obtain ⟨⟨f, hf⟩, hc, hflag⟩ := h
  cases e with
  | push data index eof =>
    obtain ⟨hlen, hdata, heof⟩ := he
    obtain ⟨hend, hwin⟩ := hf.inRange (by omega) hlen
    obtain ⟨r'', hpush, hspec⟩ := pushSubstring_spec hf.assembled (Or.inr ⟨hend, hwin⟩) eof
    obtain rfl : r'' = r' := Option.some.inj (hpush.symm.trans hs)
    refine ⟨⟨_, hf.push hend hwin hdata heof hspec⟩, hspec.capacity.trans hc, ?_⟩
    rw [hspec.eofFlag, Bool.or_eq_true, hflag]
    simp only [EofArrived, List.mem_append, List.mem_singleton, ReassemblerEvent.push.injEq]
    constructor
    · rintro (rfl | ⟨data', index', hmem⟩)
      · exact ⟨data, index, Or.inr ⟨rfl, rfl, rfl⟩⟩
      · exact ⟨data', index', Or.inl hmem⟩
    · rintro ⟨data', index', hmem | ⟨-, -, heof'⟩⟩
      · exact Or.inr ⟨data', index', hmem⟩
      · exact Or.inl heof'.symm
  | read len =>
    rw [step_read] at hs
    obtain rfl := Option.some.inj hs
    exact ⟨⟨f, hf.pop len⟩, hc, by simpa [EofArrived] using hflag⟩
  | pop len =>
    obtain rfl := Option.some.inj hs
    exact ⟨⟨f, hf.pop len⟩, hc, by simpa [EofArrived] using hflag⟩

end StreamReassembler

open StreamReassembler in
/-- **End of stream is signalled exactly.**  On pieces of `S`, in any order and interleaved with
any reads, the output has ended iff an end marker has arrived and all of `S` is written, and it
is at its end iff moreover all of `S` is read.  No push of a piece of `S` fails. -/
theorem inputEnded_iff (S : List UInt8) (capacity : Nat) (hS : S.length + capacity < 2 ^ 63)
    (r₀ : StreamReassembler) (hnew : new capacity = some r₀) (es : List ReassemblerEvent)
    (r : StreamReassembler) (hp : Path step (fun _ e _ => PieceOf S e) r₀ es r) :
    (r.output.inputEnded = true ↔ EofArrived es ∧ r.output.bytesWritten = S.length) ∧
    (r.output.eof = true ↔ EofArrived es ∧ r.output.bytesWritten = S.length ∧
      r.output.bytesRead = S.length) ∧
    ∀ e, PieceOf S e → (r.step e).isSome := by
  obtain ⟨hcap, rfl⟩ := new_eq_some hnew
  obtain ⟨⟨f, hf⟩, hc, hflag⟩ : OnTrack S capacity es r :=
    hp.invariant_events ⟨⟨_, follows_fresh S hcap⟩, rfl, by simp [fresh, EofArrived]⟩
      (fun _ _ _ _ ha hs he => onTrack_step hS ha hs he)
  have hended : r.output.inputEnded = true ↔
      EofArrived es ∧ r.output.bytesWritten = S.length := by
    rw [hf.inputEnded, hflag]
  refine ⟨hended, ?_, ?_⟩
  · have hbal := r.output.bytesWritten_eq
    rw [ByteStream.eof_iff, ← List.length_eq_zero_iff, hended]
    constructor
    · rintro ⟨hempty, harr, hw⟩
      exact ⟨harr, hw, by omega⟩
    · rintro ⟨harr, hw, hr⟩
      exact ⟨by omega, harr, hw⟩
  · intro e he
    cases e with
    | push data index eof =>
      obtain ⟨r', hpush, -⟩ := pushSubstring_spec hf.assembled
        (Or.inr (hf.inRange (by omega) he.1)) eof
      rw [step, hpush]
      rfl
    | read len => rfl
    | pop len => rfl

/-- The end marker comes first and is truncated; the last byte comes again after a read. -/
theorem inputEnded_iff_truncated :
    ∃ r, Path StreamReassembler.step (fun _ e _ => StreamReassembler.PieceOf [5, 6, 7] e)
        (StreamReassembler.fresh 2)
        [.push [6, 7] 1 true, .push [5] 0 false, .read 2, .push [7] 2 false] r ∧
      r.output.inputEnded = true ∧ r.output.bytesWritten = 3 := by
  obtain ⟨r, hc⟩ := Option.isSome_iff_exists.mp
    (show (check StreamReassembler.step (fun _ e _ => StreamReassembler.PieceOf [5, 6, 7] e)
      (StreamReassembler.fresh 2)
      [.push [6, 7] 1 true, .push [5] 0 false, .read 2, .push [7] 2 false]).isSome = true by decide)
  have hp := Path.of_check hc
  have hw : r.output.bytesWritten = 3 := by
    have := congrArg (Option.map fun r => r.output.bytesWritten) hc
    exact (Option.some.inj (this.symm.trans (show _ = some 3 by decide)))
  have hiff := (inputEnded_iff [5, 6, 7] 2 (by decide) _ rfl _ r hp).1
  exact ⟨r, hp, hiff.mpr ⟨⟨[6, 7], 1, by decide⟩, hw⟩, hw⟩

end Sponge
