import Sponge.ReassemblerRuns
import Sponge.Segment

/-!
# The TCP receiver

`TCPReceiver` (tcp_receiver.hh, tcp_receiver.cc): segments are placed in the stream by re-expanding
their 32-bit sequence number around the number of bytes written.  `receiver_refines`: on segments
of one byte stream the receiver is the reassembler fed with the true 64-bit stream indices.
-/

namespace Sponge

open PartialStream Transition

structure TCPReceiver where
  reassembler : StreamReassembler
  capacity : Nat
  isn : Option WrappingInt32
  deriving DecidableEq, Repr

namespace TCPReceiver

def fresh (capacity : Nat) : TCPReceiver := ⟨StreamReassembler.fresh capacity, capacity, none⟩

/-- The constructor. -/
def new (capacity : Nat) : Option TCPReceiver :=
  (StreamReassembler.new capacity).map fun r => ⟨r, capacity, none⟩

def streamOut (t : TCPReceiver) : ByteStream := t.reassembler.output

/-- The initial sequence number once the segment is seen: the SYN sets it. -/
def isnAfter (t : TCPReceiver) (seg : TCPSegment) : Option WrappingInt32 :=
  match t.isn with
  | some isn => some isn
  | none => if seg.header.syn then some seg.header.seqno else none

/-- The stream index of the first payload byte, as `segment_received` computes it. -/
def streamIndex (t : TCPReceiver) (isn : WrappingInt32) (seg : TCPSegment) : Nat :=
  let checkpoint := t.streamOut.bytesWritten
  let absSeq := unwrap seg.header.seqno isn checkpoint
  Word.add (Word.sub absSeq 1) (if seg.header.syn then 1 else 0)

def segmentReceived (t : TCPReceiver) (seg : TCPSegment) : Option TCPReceiver :=
  match t.isnAfter seg with
  | none => some t
  | some isn =>
    (t.reassembler.pushSubstring seg.payload (t.streamIndex isn seg) seg.header.fin).map fun r =>
      { t with reassembler := r, isn := some isn }

/-- The absolute sequence number of the first byte not yet received. -/
def absAckno (t : TCPReceiver) : Nat :=
  t.streamOut.bytesWritten + 1 + (if t.streamOut.inputEnded then 1 else 0)

def ackno (t : TCPReceiver) : Option WrappingInt32 := t.isn.map (wrap t.absAckno)

def windowSize (t : TCPReceiver) : Nat := t.streamOut.remainingCapacity

def unassembledBytes (t : TCPReceiver) : Nat := t.reassembler.unassembledBytes

end TCPReceiver

/-- What can happen to a receiver. -/
inductive ReceiverEvent
  | segment (seg : TCPSegment)
  | read (len : Nat)
  | pop (len : Nat)
  deriving DecidableEq, Repr

namespace TCPReceiver

/-- The reader's `read` or `pop_output` of `len` bytes. -/
def popStream (t : TCPReceiver) (len : Nat) : TCPReceiver :=
  { t with reassembler := { t.reassembler with output := t.reassembler.output.popOutput len } }

def step (t : TCPReceiver) : ReceiverEvent → Option TCPReceiver
  | .segment seg => t.segmentReceived seg
  | .read len =>
    some { t with
      reassembler := { t.reassembler with output := (t.reassembler.output.read len).2 } }
  | .pop len => some (t.popStream len)

theorem step_read (t : TCPReceiver) (len : Nat) : t.step (.read len) = some (t.popStream len) := by
  simp only [step, ByteStream.read_snd]
  rfl

theorem new_eq_some {capacity : Nat} {t : TCPReceiver} (h : new capacity = some t) :
    capacity ≤ maxSize ∧ t = fresh capacity := by
  obtain ⟨r, hr, rfl⟩ := Option.map_eq_some_iff.mp h
  obtain ⟨hc, rfl⟩ := StreamReassembler.new_eq_some hr
  exact ⟨hc, rfl⟩

/-- Before the SYN a segment without SYN changes nothing. -/
theorem segmentReceived_listen {t : TCPReceiver} {seg : TCPSegment} (h : t.isn = none)
    (hsyn : seg.header.syn = false) : t.segmentReceived seg = some t := by
  simp [segmentReceived, isnAfter, h, hsyn]

theorem segmentReceived_eq {t : TCPReceiver} {seg : TCPSegment} {isn : WrappingInt32}
    (h : t.isnAfter seg = some isn) :
    t.segmentReceived seg =
      (t.reassembler.pushSubstring seg.payload (t.streamIndex isn seg) seg.header.fin).map fun r =>
        { t with reassembler := r, isn := some isn } := by
  simp [segmentReceived, h]

theorem isnAfter_of_some {t : TCPReceiver} {seg : TCPSegment} {isn : WrappingInt32}
    (h : t.isn = some isn) : t.isnAfter seg = some isn := by
  simp [isnAfter, h]

/-- The stream index for a segment whose absolute sequence number is re-expanded correctly. -/
theorem streamIndex_eq {t : TCPReceiver} {isn : WrappingInt32} {seg : TCPSegment} {abs : Nat}
    (hu : unwrap seg.header.seqno isn t.streamOut.bytesWritten = abs)
    (hsyn : seg.header.syn = true → abs = 0) (hdata : seg.header.syn = false → 1 ≤ abs)
    (hlt : abs < Word.size) :
    t.streamIndex isn seg = abs - 1 := by
  simp only [streamIndex, hu]
  cases hs : seg.header.syn with
  | true =>
    obtain rfl := hsyn hs
    decide
  | false =>
    have := hdata hs
    rw [Word.sub_of_le this]
    simp only [Bool.false_eq_true, if_false]
    rw [Word.add_of_lt (by omega), Nat.add_zero]

end TCPReceiver

/-! ## Segments of one byte stream -/

/-- The stream index of the first payload byte of a segment at absolute sequence number `abs`: the
SYN takes number 0, byte `i` of the stream takes number `i + 1`. -/
def payloadIndex (abs : Nat) (seg : TCPSegment) : Nat :=
  if seg.header.syn then abs else abs - 1

/-- `seg` starts at absolute sequence number `abs` of the stream that carries `S` after `isn`: the
SYN at 0, byte `S[i]` at `i + 1`, and the FIN after the last byte. -/
structure TakenFrom (S : List UInt8) (isn : WrappingInt32) (abs : Nat) (seg : TCPSegment) :
    Prop where
  seqno : seg.header.seqno = wrap abs isn
  syn : seg.header.syn = true → abs = 0
  data : seg.header.syn = false → 1 ≤ abs
  payload : seg.payload = (S.drop (payloadIndex abs seg)).take seg.payload.length
  fin : seg.header.fin = true → payloadIndex abs seg + seg.payload.length = S.length

instance (S : List UInt8) (isn : WrappingInt32) (abs : Nat) (seg : TCPSegment) :
    Decidable (TakenFrom S isn abs seg) :=
  decidable_of_iff
    (seg.header.seqno = wrap abs isn ∧ (seg.header.syn = true → abs = 0) ∧
      (seg.header.syn = false → 1 ≤ abs) ∧
      seg.payload = (S.drop (payloadIndex abs seg)).take seg.payload.length ∧
      (seg.header.fin = true → payloadIndex abs seg + seg.payload.length = S.length))
    ⟨fun ⟨h1, h2, h3, h4, h5⟩ => ⟨h1, h2, h3, h4, h5⟩, fun ⟨h1, h2, h3, h4, h5⟩ =>
      ⟨h1, h2, h3, h4, h5⟩⟩

/-- `abs` is in the half of the sequence space around the number of bytes written. -/
def Near (t : TCPReceiver) (abs : Nat) : Prop :=
  t.streamOut.bytesWritten ≤ abs + 2 ^ 31 ∧ abs < t.streamOut.bytesWritten + 2 ^ 31

instance (t : TCPReceiver) (abs : Nat) : Decidable (Near t abs) :=
  inferInstanceAs (Decidable (_ ∧ _))

namespace TakenFrom

variable {S : List UInt8} {isn : WrappingInt32} {abs : Nat} {seg : TCPSegment}

theorem payloadIndex_eq (h : TakenFrom S isn abs seg) : payloadIndex abs seg = abs - 1 := by
  unfold payloadIndex
  split
  · rename_i hs
    rw [h.syn hs]
  · rfl

/-- A nearby segment gets its true stream index. -/
theorem streamIndex_eq (h : TakenFrom S isn abs seg) {t : TCPReceiver} (hn : Near t abs)
    (hlt : abs < 2 ^ 63) : t.streamIndex isn seg = payloadIndex abs seg := by
  rw [h.payloadIndex_eq]
  refine TCPReceiver.streamIndex_eq ?_ h.syn h.data ?_
  · rw [h.seqno]
    exact unwrap_wrap abs _ isn hn.1 hn.2 hlt
  · rw [Word.size_eq]
    omega

/-- Only the SYN decides the initial sequence number. -/
theorem isnAfter_eq (h : TakenFrom S isn abs seg) {t : TCPReceiver}
    (ht : t.isn = none ∨ t.isn = some isn) (hsyn : t.isn = none → seg.header.syn = true) :
    t.isnAfter seg = some isn := by
  rcases ht with ht | ht
  · have hs := hsyn ht
    rw [TCPReceiver.isnAfter, ht]
    simp only [hs, if_true]
    rw [h.seqno, h.syn hs, wrap_zero]
  · exact TCPReceiver.isnAfter_of_some ht

/-- A segment of the stream ends before any 64-bit sum wraps. -/
theorem end_lt (h : TakenFrom S isn abs seg) (hS : S.length < 2 ^ 63) (hlt : abs < 2 ^ 63) :
    payloadIndex abs seg + seg.payload.length < Word.size := by
  have hlen := congrArg List.length h.payload
  rw [List.length_take, List.length_drop] at hlen
  have := h.payloadIndex_eq
  rw [Word.size_eq]
  omega

/-- A segment without FIN is still one of the stream when the stream grows. -/
theorem append (h : TakenFrom S isn abs seg) (hfin : seg.header.fin = false) (U : List UInt8) :
    TakenFrom (S ++ U) isn abs seg :=
  ⟨h.seqno, h.syn, h.data, piece_append h.payload U, by simp [hfin]⟩

/-- **A nearby segment is pushed at its true stream index**, and the reassembler keeps following
`S`. -/
theorem segmentReceived_spec (h : TakenFrom S isn abs seg) {t : TCPReceiver}
    {f : Nat → Option UInt8} (hf : StreamReassembler.Follows S t.reassembler f)
    (hisn : t.isnAfter seg = some isn) (hn : Near t abs) (hS : S.length + 2 ^ 31 ≤ 2 ^ 63) :
    ∃ r, t.reassembler.pushSubstring seg.payload (payloadIndex abs seg) seg.header.fin = some r ∧
      t.segmentReceived seg = some { t with reassembler := r, isn := some isn } ∧
      StreamReassembler.Pushed t.reassembler f seg.payload (payloadIndex abs seg)
        seg.header.fin r ∧
      StreamReassembler.Follows S r
        (t.reassembler.accept f seg.payload (payloadIndex abs seg)) := by
  have hW := hf.assembled.bytesWritten_le_of_agrees hf.agrees
  have hR := StreamReassembler.Window.bytesRead_le (r := t.reassembler)
  have hc := hf.assembled.capacity_le
  have hlt : abs < 2 ^ 63 := by
    have := hn.2
    simp only [TCPReceiver.streamOut] at this
    omega
  have hlen := h.end_lt (by omega) hlt
  have hwin : t.reassembler.output.bytesRead + t.reassembler.capacity < Word.size := by
    simp only [maxSize] at hc
    rw [Word.size_eq]
    omega
  obtain ⟨r, hpush, hspec⟩ := StreamReassembler.pushSubstring_spec hf.assembled
    (Or.inr ⟨hlen, hwin⟩) seg.header.fin
  refine ⟨r, hpush, ?_, hspec, hf.push hlen hwin h.payload h.fin hspec⟩
  rw [TCPReceiver.segmentReceived_eq hisn, h.streamIndex_eq hn hlt, hpush, Option.map_some]

end TakenFrom

/-! ## The reference receiver -/

/-- An event together with the absolute sequence number its segment starts at. -/
abbrev Arrival := ReceiverEvent × Nat

/-- The segment is one of the stream and lies near the receiver's window. -/
def Arrives (S : List UInt8) (isn : WrappingInt32) (t : TCPReceiver) : Arrival → Prop
  | (.segment seg, abs) => TakenFrom S isn abs seg ∧ Near t abs
  | _ => True

instance (S : List UInt8) (isn : WrappingInt32) (t : TCPReceiver) :
    (a : Arrival) → Decidable (Arrives S isn t a)
  | (.segment _, _) => inferInstanceAs (Decidable (_ ∧ _))
  | (.read _, _) => isTrue trivial
  | (.pop _, _) => isTrue trivial

/-- Does the event bring a SYN? -/
def isSyn : Arrival → Bool
  | (.segment seg, _) => seg.header.syn
  | _ => false

/-- The receiver without sequence numbers: from the first SYN on, every segment goes to the
reassembler at its true stream index. -/
structure Reference where
  synSeen : Bool
  reassembler : StreamReassembler

namespace Reference

def init (capacity : Nat) : Reference := ⟨false, StreamReassembler.fresh capacity⟩

def step (q : Reference) : Arrival → Option Reference
  | (.segment seg, abs) =>
    if q.synSeen || seg.header.syn then
      (q.reassembler.pushSubstring seg.payload (payloadIndex abs seg) seg.header.fin).map
        fun r => ⟨true, r⟩
    else some q
  | (.read len, _) =>
    (q.reassembler.step (.read len)).map fun r => { q with reassembler := r }
  | (.pop len, _) =>
    (q.reassembler.step (.pop len)).map fun r => { q with reassembler := r }

end Reference

/-- The receiver and the reference are in step. -/
structure InStep (S : List UInt8) (isn : WrappingInt32) (es : List Arrival) (q : Reference)
    (t : TCPReceiver) : Prop where
  follows : ∃ f, StreamReassembler.Follows S t.reassembler f
  reassembler : t.reassembler = q.reassembler
  isn_eq : t.isn = if q.synSeen then some isn else none
  synSeen : q.synSeen = es.any isSyn

theorem inStep_segment {S : List UInt8} (hS : S.length + 2 ^ 31 ≤ 2 ^ 63) {isn : WrappingInt32}
    {es : List Arrival} {q : Reference} {t : TCPReceiver} (h : InStep S isn es q t)
    {seg : TCPSegment} {abs : Nat} (harr : TakenFrom S isn abs seg) (hn : Near t abs) :
    ∃ q' t', q.step (.segment seg, abs) = some q' ∧ t.segmentReceived seg = some t' ∧
      InStep S isn (es ++ [(.segment seg, abs)]) q' t' := by
  obtain ⟨⟨f, hf⟩, hr, hisn, hseen⟩ := h
  cases hs : q.synSeen || seg.header.syn with
  | false =>
    rw [Bool.or_eq_false_iff] at hs
    refine ⟨q, t, by simp [Reference.step, hs.1, hs.2],
      TCPReceiver.segmentReceived_listen (by simpa [hs.1] using hisn) hs.2, ⟨f, hf⟩, hr, hisn, ?_⟩
    simp [List.any_append, ← hseen, isSyn, hs.2]
  | true =>
    have hafter : t.isnAfter seg = some isn := by
      apply harr.isnAfter_eq
      · cases hq : q.synSeen <;> simp [hisn, hq]
      · intro hnone
        rw [Bool.or_eq_true] at hs
        refine hs.resolve_left (fun hq => ?_)
        simp [hisn, hq] at hnone
    obtain ⟨r, hpush, hrec, -, hfol⟩ := harr.segmentReceived_spec hf hafter hn hS
    refine ⟨⟨true, r⟩, _, ?_, hrec, ⟨_, hfol⟩, rfl, rfl, ?_⟩
    · rw [Reference.step, hs, if_pos rfl, ← hr, hpush]
      rfl
    · simp [List.any_append, ← hseen, isSyn, hs]

theorem inStep_pop {S : List UInt8} {isn : WrappingInt32} {es : List Arrival} {q : Reference}
    {t : TCPReceiver} (h : InStep S isn es q t) (len : Nat) (a : Arrival)
    (ha : isSyn a = false) :
    InStep S isn (es ++ [a])
      { q with
        reassembler := { q.reassembler with output := q.reassembler.output.popOutput len } }
      (t.popStream len) := by
  obtain ⟨⟨f, hf⟩, hr, hisn, hseen⟩ := h
  exact ⟨⟨f, hf.pop len⟩, by rw [TCPReceiver.popStream, hr], hisn,
    by simp [List.any_append, ← hseen, ha]⟩

/-- Every arrival moves both machines, and keeps them in step. -/
theorem inStep_step {S : List UInt8} (hS : S.length + 2 ^ 31 ≤ 2 ^ 63) {isn : WrappingInt32}
    {es : List Arrival} {q : Reference} {t : TCPReceiver} (h : InStep S isn es q t)
    {a : Arrival} (harr : Arrives S isn t a) :
    ∃ q' t', q.step a = some q' ∧ t.step a.1 = some t' ∧ InStep S isn (es ++ [a]) q' t' := by
  obtain ⟨e, abs⟩ := a
  cases e with
  | segment seg => exact inStep_segment hS h harr.1 harr.2
  | read len =>
    refine ⟨_, _, ?_, TCPReceiver.step_read t len, inStep_pop h len _ rfl⟩
    rw [Reference.step, StreamReassembler.step_read, Option.map_some]
  | pop len => exact ⟨_, _, rfl, rfl, inStep_pop h len _ rfl⟩

/-- **The receiver is correct across any number of wraps.**  On segments of the stream `S` that
arrive near the window, in any order and interleaved with reads, the receiver's reassembler is the
one of the reference, and its ackno is the wrapped absolute number of the next byte (one more after
the end), empty until the first SYN; before that a segment without SYN changes nothing.  No such
segment fails. -/
theorem receiver_refines (S : List UInt8) (hS : S.length < 2 ^ 62) (isn : WrappingInt32)
    (capacity : Nat) (t₀ : TCPReceiver) (hnew : TCPReceiver.new capacity = some t₀)
    (es : List Arrival) (t : TCPReceiver)
    (hp : Path (fun t a => t.step a.1) (fun t a _ => Arrives S isn t a) t₀ es t) :
    ∃ q, run Reference.step (Reference.init capacity) es = some q ∧
      t.reassembler = q.reassembler ∧
      q.synSeen = es.any isSyn ∧
      (q.synSeen = false → t.ackno = none ∧
        ∀ seg, seg.header.syn = false → t.segmentReceived seg = some t) ∧
      (q.synSeen = true → t.ackno = some (wrap (t.streamOut.bytesWritten + 1 +
        (if t.streamOut.inputEnded then 1 else 0)) isn)) ∧
      ∀ a, Arrives S isn t a → (t.step a.1).isSome := by
  obtain ⟨hc, rfl⟩ := TCPReceiver.new_eq_some hnew
  have hS' : S.length + 2 ^ 31 ≤ 2 ^ 63 := by omega
  obtain ⟨q, hrun, h⟩ : ∃ q, run Reference.step (Reference.init capacity) es = some q ∧
      InStep S isn es q t := by
    refine hp.invariant_events (I := fun es t => ∃ q,
      run Reference.step (Reference.init capacity) es = some q ∧ InStep S isn es q t) ?_ ?_
    · exact ⟨_, rfl, ⟨_, StreamReassembler.follows_fresh S hc⟩, rfl, rfl, rfl⟩
    · rintro es t a t' ⟨q, hrun, h⟩ hs harr
      obtain ⟨q', t'', hq', ht'', h'⟩ := inStep_step hS' h harr
      obtain rfl : t'' = t' := Option.some.inj (ht''.symm.trans hs)
      exact ⟨q', by rw [run_concat, hrun, Option.bind_some, hq'], h'⟩
  refine ⟨q, hrun, h.reassembler, h.synSeen, ?_, ?_, ?_⟩
  · intro hq
    have hnone : t.isn = none := by simpa [hq] using h.isn_eq
    exact ⟨by simp [TCPReceiver.ackno, hnone],
      fun seg hs => TCPReceiver.segmentReceived_listen hnone hs⟩
  · intro hq
    have hsome : t.isn = some isn := by simpa [hq] using h.isn_eq
    simp [TCPReceiver.ackno, hsome, TCPReceiver.absAckno]
  · intro a harr
    obtain ⟨q', t', -, ht', -⟩ := inStep_step hS' h harr
    rw [ht']
    rfl

/-- The sequence numbers of this run pass from `2 ^ 32 - 1` to 0: early data is dropped, the SYN
comes with data, the rest with the FIN. -/
def wrapping : List Arrival :=
  let isn : WrappingInt32 := ⟨4294967294⟩
  [(.segment { header := { seqno := wrap 2 isn }, payload := [20] }, 2),
    (.segment { header := { seqno := isn, syn := true }, payload := [10] }, 0),
    (.read 1, 0),
    (.segment { header := { seqno := wrap 2 isn, fin := true }, payload := [20, 30] }, 2)]

theorem receiver_refines_wrapping :
    ∃ t, Path (fun t a => t.step a.1) (fun t a _ => Arrives [10, 20, 30] ⟨4294967294⟩ t a)
        (TCPReceiver.fresh 2) wrapping t ∧
      ∃ q, run Reference.step (Reference.init 2) wrapping = some q ∧
        t.reassembler = q.reassembler ∧ q.synSeen = true := by
  obtain ⟨t, hc⟩ := Option.isSome_iff_exists.mp
    (show (check (fun (t : TCPReceiver) (a : Arrival) => t.step a.1)
      (fun t a _ => Arrives [10, 20, 30] ⟨4294967294⟩ t a)
      (TCPReceiver.fresh 2) wrapping).isSome = true by decide)
  have hp := Path.of_check hc
  obtain ⟨q, hrun, hr, hsyn, -⟩ :=
    receiver_refines [10, 20, 30] (by decide) ⟨4294967294⟩ 2 _ rfl wrapping t hp
  exact ⟨t, hp, q, hrun, hr, hsyn.trans rfl⟩

end Sponge
