import Sponge.NullSegment
import Sponge.TCPState
import Sponge.Wire

/-!
# A sender and a receiver over a lossy network

One `TCPSender`, one `TCPReceiver` and a network that may lose, duplicate, delay and reorder.  At
any time the application uses the sender, any segment ever pushed may be delivered (again), any
pair `(ackno(), window_size())` the receiver ever showed may be delivered (again), and the reader
takes bytes out of `stream_out()`.

* `end_to_end_integrity`: what the reader gets is a prefix of what the writer wrote, and all of it
  once the receiver's stream has ended;
* `acknowledgment_sound`: the sender never retires what the receiver has not got.
-/

namespace Sponge

open PartialStream Tiling Transition

/-- A pair that the receiver showed, with the absolute number its ackno stands for. -/
structure Shown where
  absAckno : Nat
  ackno : WrappingInt32
  windowSize : Nat
  deriving DecidableEq

/-- The sender with its history, the receiver, the bytes the reader has taken, and everything the
receiver showed so far. -/
structure System where
  tx : Traced
  rx : TCPReceiver
  taken : List UInt8
  shown : List Shown
  deriving DecidableEq

inductive SystemEvent
  | sender (e : SenderEvent)
  | ack (a : Shown)
  | deliver (abs : Nat) (seg : TCPSegment)
  | read (len : Nat)
  | pop (len : Nat)
  deriving DecidableEq

/-- The absolute acknowledgment number: 0 before the SYN. -/
def TCPReceiver.currentAck (t : TCPReceiver) : Nat := if t.isn.isSome then t.absAckno else 0

theorem TCPReceiver.currentAck_le_absAckno (t : TCPReceiver) : t.currentAck ≤ t.absAckno := by
  unfold currentAck
  split
  · exact Nat.le_refl _
  · exact Nat.zero_le _

theorem TCPReceiver.absAckno_mono {t t' : TCPReceiver}
    (hw : t.streamOut.bytesWritten ≤ t'.streamOut.bytesWritten)
    (he : t.streamOut.inputEnded = true → t'.streamOut.inputEnded = true) :
    t.absAckno ≤ t'.absAckno := by
  unfold absAckno
  by_cases h : t.streamOut.inputEnded = true
  · rw [if_pos h, if_pos (he h)]
    omega
  · rw [if_neg h]
    omega

/-- What the receiver shows: nothing before the SYN. -/
def TCPReceiver.shows (t : TCPReceiver) : List Shown :=
  match t.ackno with
  | some a => [⟨t.absAckno, a, t.windowSize⟩]
  | none => []

namespace System

def new (sendCapacity : Nat) (retxTimeout : UInt16) (isn : WrappingInt32) (recvCapacity : Nat) :
    Option System :=
  (TCPReceiver.new recvCapacity).map fun rx =>
    ⟨Traced.init sendCapacity retxTimeout isn, rx, [], []⟩

/-- The receiver is now `rx`, and the reader took `bytes`. -/
def receive (c : System) (rx : TCPReceiver) (bytes : List UInt8) : System :=
  { c with rx := rx, taken := c.taken ++ bytes, shown := c.shown ++ rx.shows }

/-- The window of an acknowledgment travels as 16 bits. -/
def step (c : System) : SystemEvent → Option System
  | .sender e => (c.tx.step e).map fun tx => { c with tx := tx }
  | .ack a =>
    (c.tx.step (.ackReceived a.ackno (UInt16.ofNat a.windowSize))).map fun tx => { c with tx := tx }
  | .deliver _ seg => (c.rx.step (.segment seg)).map fun rx => c.receive rx []
  | .read len => (c.rx.step (.read len)).map fun rx => c.receive rx (c.rx.streamOut.read len).1
  | .pop len => (c.rx.step (.pop len)).map fun rx => c.receive rx (c.rx.streamOut.removed len)

end System

/-! ## What is assumed -/

/-- The counters are small, and every outstanding segment lies within `2 ^ 31` of
`next_seqno_absolute()`. -/
structure TCPSender.Small (s : TCPSender) : Prop where
  next : s.nextSeqnoAbsolute < 2 ^ 63 - 2 ^ 31
  written : s.stream.bytesWritten < 2 ^ 63 - 2 ^ 31
  outstanding : ∀ x ∈ positions TCPSegment.lengthInSequenceSpace s.receiverAck
    s.outstandingSegments, s.nextSeqnoAbsolute ≤ x.1 + 2 ^ 31

instance (s : TCPSender) : Decidable s.Small :=
  decidable_of_iff
    (s.nextSeqnoAbsolute < 2 ^ 63 - 2 ^ 31 ∧ s.stream.bytesWritten < 2 ^ 63 - 2 ^ 31 ∧
      ∀ x ∈ positions TCPSegment.lengthInSequenceSpace s.receiverAck s.outstandingSegments,
        s.nextSeqnoAbsolute ≤ x.1 + 2 ^ 31)
    ⟨fun ⟨h1, h2, h3⟩ => ⟨h1, h2, h3⟩, fun ⟨h1, h2, h3⟩ => ⟨h1, h2, h3⟩⟩

namespace System

/-- The rules of the network and of the writer: only pushed segments and shown pairs are delivered,
and nothing is written after `end_input`. -/
def Permitted (c : System) : SystemEvent → Prop
  | .sender (.ackReceived _ _) => False
  | .sender e => c.tx.WritesOpen e
  | .ack a => a ∈ c.shown
  | .deliver abs seg => (abs, seg) ∈ c.tx.sent
  | .read _ => True
  | .pop _ => True

instance (c : System) : (e : SystemEvent) → Decidable (c.Permitted e)
  | .sender (.ackReceived _ _) => isFalse id
  | .sender (.write d) => inferInstanceAs (Decidable (c.tx.WritesOpen (.write d)))
  | .sender .endInput => isTrue trivial
  | .sender .fillWindow => isTrue trivial
  | .sender (.tick _) => isTrue trivial
  | .sender .sendEmptySegment => isTrue trivial
  | .ack _ => inferInstanceAs (Decidable (_ ∈ _))
  | .deliver _ _ => inferInstanceAs (Decidable (_ ∈ _))
  | .read _ => isTrue trivial
  | .pop _ => isTrue trivial

/-- A delivered segment is near the receiver's window, a delivered acknowledgment within `2 ^ 31` of
`next_seqno_absolute()`. -/
def Reaches (c : System) : SystemEvent → Prop
  | .ack a => c.tx.sender.nextSeqnoAbsolute ≤ a.absAckno + 2 ^ 31 ∧
      a.absAckno ≤ c.tx.sender.nextSeqnoAbsolute + 2 ^ 31
  | .deliver abs _ => Near c.rx abs
  | _ => True

instance (c : System) : (e : SystemEvent) → Decidable (c.Reaches e)
  | .ack _ => inferInstanceAs (Decidable (_ ∧ _))
  | .deliver _ _ => inferInstanceAs (Decidable (Near _ _))
  | .sender _ => isTrue trivial
  | .read _ => isTrue trivial
  | .pop _ => isTrue trivial

/-- The stream is shorter than `2 ^ 31 - 2` bytes. -/
def Short (c : System) : Prop := c.tx.accepted.length < 2 ^ 31 - 2

/-- A step of the composed system: it follows the rules, and the numbers are in range.  For short
streams the numbers need no assumption. -/
def Assumed (c : System) (e : SystemEvent) (c' : System) : Prop :=
  c.Permitted e ∧ (c'.tx.sender.Small ∧ c.Reaches e ∨ c'.Short)

instance (c c' : System) (e : SystemEvent) : Decidable (c.Assumed e c') :=
  inferInstanceAs (Decidable (_ ∧ (_ ∨ _ < _)))

/-! ## The receiver's side -/

open TCPSender StreamReassembler

/-- The receiver has got a part of what was sent, at its place. -/
structure Receiving (isn : WrappingInt32) (c : System) : Prop where
  isn_eq : c.rx.isn = none ∨ c.rx.isn = some isn
  follows : ∃ f, Follows c.tx.accepted c.rx.reassembler f ∧
    ∀ i b, f i = some b → i < c.tx.sender.stream.bytesRead
  syn : c.rx.isn ≠ none → c.tx.sender.nextSeqnoAbsolute ≠ 0
  fin : c.rx.reassembler.eofFlag = true → c.tx.sender.setFinFlag = true
  listen : c.rx.isn = none → c.rx.streamOut.inputEnded = false
  taken : c.taken ++ c.rx.streamOut.buffer = c.tx.accepted.take c.rx.streamOut.bytesWritten

variable {isn : WrappingInt32} {c : System} {resent filled : List TCPSegment}

theorem Receiving.sound (h : Receiving isn c) : c.rx.Sound := by
  obtain ⟨f, hf, -⟩ := h.follows
  exact ⟨⟨f, hf.assembled⟩, h.listen⟩

/-- The receiver has not written more bytes than were sent. -/
theorem Receiving.bytesWritten_le (h : Receiving isn c) :
    c.rx.streamOut.bytesWritten ≤ c.tx.sender.stream.bytesRead := by
  obtain ⟨f, hf, hsent⟩ := h.follows
  rcases Nat.eq_zero_or_pos c.rx.streamOut.bytesWritten with h0 | hpos
  · omega
  · obtain ⟨b, hb⟩ := Option.isSome_iff_exists.mp
      (hf.assembled.written (c.rx.streamOut.bytesWritten - 1)
        (show c.rx.streamOut.bytesWritten - 1 < c.rx.streamOut.bytesWritten by omega))
    have := hsent _ _ hb
    omega

/-- **The receiver never acknowledges what was not sent.** -/
theorem Receiving.currentAck_le (h : Receiving isn c)
    (hc : Traced.Cuts isn c.tx.accepted resent filled c.tx.sender) :
    c.rx.currentAck ≤ c.tx.sender.nextSeqnoAbsolute := by
  unfold TCPReceiver.currentAck
  split
  · rename_i hsome
    have hsyn := hc.syn.mpr (h.syn (by simpa [Option.isSome_iff_ne_none] using hsome))
    have hnext := hc.next
    have hle := h.bytesWritten_le
    rw [hsyn, if_pos rfl] at hnext
    unfold TCPReceiver.absAckno
    split
    · -- the end was signalled, so the FIN was sent
      rename_i hended
      obtain ⟨f, hf, -⟩ := h.follows
      rw [h.fin (hf.inputEnded.mp hended).1, if_pos rfl] at hnext
      omega
    · omega
  · exact Nat.zero_le _

/-- A step of the sender: the stream may grow, and more of it is sent. -/
theorem Receiving.sender (h : Receiving isn c) {tx : Traced} {U : List UInt8}
    (hU : tx.accepted = c.tx.accepted ++ U) (hUnil : c.rx.reassembler.eofFlag = true → U = [])
    (hg : c.tx.sender.Grows tx.sender)
    (hnext : c.tx.sender.nextSeqnoAbsolute ≤ tx.sender.nextSeqnoAbsolute) :
    Receiving isn { c with tx := tx } := by
  obtain ⟨f, hf, hsent⟩ := h.follows
  refine ⟨h.isn_eq, ⟨f, ?_, fun i b hb => ?_⟩, fun hisn => ?_, fun hflag => ?_, h.listen, ?_⟩
  · rw [hU]
    exact hf.append hUnil
  · exact Nat.lt_of_lt_of_le (hsent i b hb) hg.bytesRead
  · have hpos := Nat.pos_of_ne_zero (h.syn hisn)
    exact Nat.ne_of_gt (Nat.lt_of_lt_of_le hpos hnext)
  · exact hg.setFinFlag (h.fin hflag)
  · have hle : c.rx.streamOut.bytesWritten ≤ c.tx.accepted.length :=
      hf.assembled.bytesWritten_le_of_agrees hf.agrees
    change c.taken ++ c.rx.streamOut.buffer = tx.accepted.take c.rx.streamOut.bytesWritten
    rw [hU, List.take_append_of_le_length hle]
    exact h.taken

/-- The bytes that a push moves to the output continue what was written before. -/
theorem take_append_written {S bytes : List UInt8} {w : Nat}
    (h : ∀ k < bytes.length, S[w + k]? = bytes[k]?) :
    S.take w ++ bytes = S.take (w + bytes.length) := by
  rw [List.take_add]
  congr 1
  apply List.ext_getElem?
  intro k
  rw [List.getElem?_take, List.getElem?_drop]
  split
  · rename_i hk
    exact (h k hk).symm
  · rename_i hk
    exact List.getElem?_eq_none (by omega)

/-- As long as no FIN was sent, a segment on the wire ends where the sender has read to. -/
theorem end_le_bytesRead {S : List UInt8} {s : TCPSender} (hc : Traced.Cuts isn S resent filled s)
    {p : Nat} {seg : TCPSegment} (hx : OnWire isn S s.stream.inputEnded s.nextSeqnoAbsolute p seg)
    (ht : TakenFrom S isn p seg) (hno : ¬ s.setFinFlag = true) :
    payloadIndex p seg + seg.payload.length + (if seg.header.fin then 1 else 0) ≤
      s.stream.bytesRead := by
  have hwithin := hx.within
  have hnext := hc.next
  rw [TCPSegment.lengthInSequenceSpace] at hwithin
  rw [if_neg hno] at hnext
  rw [ht.payloadIndex_eq]
  by_cases hs : seg.header.syn = true
  · have hp := ht.syn hs
    rw [if_pos hs] at hwithin
    split at hnext <;> omega
  · have hp := ht.data (by simpa using hs)
    split at hnext <;> omega

/-- The bytes of a segment on the wire have been sent. -/
theorem sent_of_onWire {S : List UInt8} {s : TCPSender} (hc : Traced.Cuts isn S resent filled s)
    {p : Nat} {seg : TCPSegment} (hx : OnWire isn S s.stream.inputEnded s.nextSeqnoAbsolute p seg)
    (ht : TakenFrom S isn p seg) {i : Nat} (hi : payloadIndex p seg ≤ i)
    (hi' : i < payloadIndex p seg + seg.payload.length) : i < s.stream.bytesRead := by
  by_cases hfin : s.setFinFlag = true
  · -- everything has been sent
    have hall := (hc.sent_all hfin).2
    have hlen := congrArg List.length ht.payload
    rw [List.length_take, List.length_drop] at hlen
    omega
  · have hend := end_le_bytesRead hc hx ht hfin
    omega

/-- A FIN on the wire was sent. -/
theorem fin_of_onWire {S : List UInt8} {s : TCPSender} (hc : Traced.Cuts isn S resent filled s)
    {p : Nat} {seg : TCPSegment} (hx : OnWire isn S s.stream.inputEnded s.nextSeqnoAbsolute p seg)
    (ht : TakenFrom S isn p seg) (hfin : seg.header.fin = true) : s.setFinFlag = true := by
  by_contra hno
  -- the FIN would lie behind what was written
  have hend := end_le_bytesRead hc hx ht hno
  rw [ht.fin hfin, if_pos hfin] at hend
  have haccepted := hc.accepted
  have hbal := s.stream.bytesWritten_eq
  omega

/-- The reader takes `bytes` from the front of the stream. -/
theorem Receiving.pop (h : Receiving isn c) (len : Nat) :
    Receiving isn (c.receive (c.rx.popStream len) (c.rx.streamOut.removed len)) := by
  obtain ⟨f, hf, hsent⟩ := h.follows
  refine ⟨h.isn_eq, ⟨f, hf.pop len, hsent⟩, h.syn, h.fin, fun hisn => ?_, ?_⟩
  · exact (c.rx.streamOut.popOutput_inputEnded len).trans (h.listen hisn)
  · change c.taken ++ c.rx.streamOut.removed len ++ (c.rx.streamOut.popOutput len).buffer =
      c.tx.accepted.take (c.rx.streamOut.popOutput len).bytesWritten
    rw [List.append_assoc, ByteStream.removed_append, ByteStream.popOutput_bytesWritten]
    exact h.taken

/-- A segment of the stream that the receiver takes: a push at its true place. -/
theorem Receiving.take (h : Receiving isn c)
    (hc : Traced.Cuts isn c.tx.accepted resent filled c.tx.sender) {p : Nat} {seg : TCPSegment}
    (hx : OnWire isn c.tx.accepted c.tx.sender.stream.inputEnded c.tx.sender.nextSeqnoAbsolute p
      seg)
    (ht : TakenFrom c.tx.accepted isn p seg) (hisn : c.rx.isnAfter seg = some isn)
    (hn : Near c.rx p) (hS : c.tx.accepted.length + 2 ^ 31 ≤ 2 ^ 63) :
    ∃ rx, c.rx.segmentReceived seg = some rx ∧ Receiving isn (c.receive rx []) ∧
      c.rx.currentAck ≤ rx.currentAck := by
  obtain ⟨f, hf, hsent⟩ := h.follows
  obtain ⟨r, -, hrec, hpush, hf'⟩ := ht.segmentReceived_spec hf hisn hn hS
  obtain ⟨bytes, hbuf, hwritten, hbytes⟩ := hpush.written
  refine ⟨_, hrec, ⟨Or.inr rfl, ⟨_, hf', fun i b hb => ?_⟩, fun _ => ?_, fun hflag => ?_,
    (fun hno => by cases hno), ?_⟩, ?_⟩
  · rcases accept_some hb with hb | ⟨hi, hi'⟩
    · exact hsent i b hb
    · exact sent_of_onWire hc hx ht hi hi'
  · by_cases hnone : c.rx.isn = none
    · -- the segment is the SYN
      have hsyn : seg.header.syn = true := by
        by_contra hno
        simp [TCPReceiver.isnAfter, hnone, hno] at hisn
      have hwithin := hx.within
      rw [TCPSegment.lengthInSequenceSpace, if_pos hsyn] at hwithin
      change c.tx.sender.nextSeqnoAbsolute ≠ 0
      omega
    · exact h.syn hnone
  · change r.eofFlag = true at hflag
    rw [hpush.eofFlag, Bool.or_eq_true] at hflag
    exact hflag.elim (fin_of_onWire hc hx ht) h.fin
  · change c.taken ++ [] ++ r.output.buffer = c.tx.accepted.take r.output.bytesWritten
    rw [List.append_nil, hbuf, ← List.append_assoc, hwritten]
    have htaken := h.taken
    simp only [TCPReceiver.streamOut] at htaken
    rw [htaken]
    refine take_append_written fun k hk => ?_
    have hk' := hbytes k hk
    rw [List.getElem?_eq_getElem hk] at hk' ⊢
    exact hf'.agrees _ _ hk'
  · refine Nat.le_trans c.rx.currentAck_le_absAckno ?_
    change c.rx.absAckno ≤ TCPReceiver.absAckno _
    refine TCPReceiver.absAckno_mono ?_ ?_
    · simp only [TCPReceiver.streamOut, hwritten]
      omega
    · intro hended
      change r.output.inputEnded = true
      rw [hpush.inputEnded, show c.rx.reassembler.output.inputEnded = true from hended,
        Bool.true_or]

/-- **Any pushed segment may arrive**, at any time, again and again, as long as it is near the
window. -/
theorem Receiving.deliver (h : Receiving isn c)
    (hc : Traced.Cuts isn c.tx.accepted resent filled c.tx.sender) {p : Nat} {seg : TCPSegment}
    (hx : OnWire isn c.tx.accepted c.tx.sender.stream.inputEnded c.tx.sender.nextSeqnoAbsolute p
      seg)
    (hn : Near c.rx p) (hS : c.tx.accepted.length + 2 ^ 31 ≤ 2 ^ 63) :
    ∃ rx, c.rx.segmentReceived seg = some rx ∧ Receiving isn (c.receive rx []) ∧
      c.rx.currentAck ≤ rx.currentAck := by
  have hsame : Receiving isn (c.receive c.rx []) :=
    ⟨h.isn_eq, h.follows, h.syn, h.fin, h.listen, by
      change c.taken ++ [] ++ c.rx.streamOut.buffer = _
      rw [List.append_nil]
      exact h.taken⟩
  rcases h.isn_eq with hnone | hsome
  · by_cases hsyn : seg.header.syn = true
    · rcases hx.taken with ht | ⟨-, rfl⟩
      · exact h.take hc hx ht (ht.isnAfter_eq (Or.inl hnone) (fun _ => hsyn)) hn hS
      · cases hsyn
    · exact ⟨c.rx, TCPReceiver.segmentReceived_listen hnone (by simpa using hsyn), hsame,
        Nat.le_refl _⟩
  · rcases hx.taken with ht | ⟨rfl, rfl⟩
    · exact h.take hc hx ht (TCPReceiver.isnAfter_of_some hsome) hn hS
    · -- an empty segment that was sent before the SYN
      have hslot : c.rx.InSynSlot { header := { seqno := isn } } := by
        refine ⟨rfl, isn, hsome, ?_⟩
        have := unwrap_wrap 0 c.rx.streamOut.bytesWritten isn hn.1 hn.2 (by decide)
        rwa [wrap_zero] at this
      exact ⟨c.rx, TCPReceiver.segmentReceived_inSynSlot_noFin h.sound hslot rfl, hsame,
        Nat.le_refl _⟩

/-! ## The joint invariant -/

/-- The invariant of the composed system. -/
structure Joint (isn : WrappingInt32) (c : System) : Prop where
  sending : c.tx.Sending isn
  small : c.tx.sender.Small
  receiving : Receiving isn c
  shown : ∀ a ∈ c.shown, a.ackno = wrap a.absAckno isn ∧ a.absAckno ≤ c.rx.currentAck
  ack : c.tx.sender.receiverAck ≤ c.rx.currentAck

theorem joint_new {sendCapacity : Nat} {retxTimeout : UInt16} {recvCapacity : Nat}
    (h : new sendCapacity retxTimeout isn recvCapacity = some c) : Joint isn c := by
  obtain ⟨rx, hrx, rfl⟩ := Option.map_eq_some_iff.mp h
  obtain ⟨hc, rfl⟩ := TCPReceiver.new_eq_some hrx
  refine ⟨Traced.sending_init _ _ _, ⟨?_, ?_, ?_⟩, ⟨Or.inl rfl, ?_, ?_, ?_, ?_, rfl⟩, ?_, ?_⟩
  · exact show 0 < 2 ^ 63 - 2 ^ 31 by decide
  · exact show 0 < 2 ^ 63 - 2 ^ 31 by decide
  · intro x hx
    cases hx
  · exact ⟨_, follows_fresh _ hc, by simp⟩
  · exact fun hno => absurd rfl hno
  · intro hflag
    cases hflag
  · exact fun _ => rfl
  · intro a ha
    cases ha
  · exact Nat.le_refl 0

/-- The oldest byte in flight is within `2 ^ 31` of the next one. -/
theorem small_near {s : TCPSender} (h : s.Small) (hq : Queue isn s) :
    s.nextSeqnoAbsolute ≤ s.receiverAck + 2 ^ 31 := by
  cases hout : s.outstandingSegments with
  | nil =>
    have htiles := hq.tiles
    rw [hout] at htiles
    rw [← tiles_nil.mp htiles]
    exact Nat.le_add_right _ _
  | cons seg rest =>
    refine h.outstanding (s.receiverAck, seg) ?_
    rw [hout]
    exact List.mem_cons_self

/-- The sender's side makes a step. -/
theorem Joint.sender (h : Joint isn c) {e : SenderEvent} {tx : Traced}
    (hs : c.tx.step e = some tx) (hopen : c.tx.WritesOpen e)
    (hack : ∀ ackno w, e = .ackReceived ackno w →
      ∃ a ∈ c.shown, ackno = a.ackno ∧ c.tx.sender.nextSeqnoAbsolute ≤ a.absAckno + 2 ^ 31)
    (hsmall : tx.sender.Small) : Joint isn { c with tx := tx } := by
  have hwf := h.sending.queue.toWellFormed
  have hlt := h.small.next
  obtain ⟨hsending, hgrows⟩ := Traced.sending_step h.sending hs hopen
    (small_near h.small h.sending.queue) (by omega)
  obtain ⟨U, hU, hUnil⟩ := Traced.step_accepted hwf hs hopen
  refine ⟨hsending, hsmall, h.receiving.sender hU (fun hflag => hUnil ?_) hgrows hgrows.next,
    h.shown, ?_⟩
  · -- an end known to the receiver is the end of the sender's stream
    exact (h.sending.cuts.sent_all (h.receiving.fin hflag)).1
  · change tx.sender.receiverAck ≤ c.rx.currentAck
    obtain ⟨s', hmv, rfl⟩ := Traced.step_eq hwf hs
    rw [Traced.record_sender]
    rcases hmv.receiverAck with hsame | ⟨ackno, w, rfl, -, hle⟩
    · rw [hsame]
      exact h.ack
    · obtain ⟨a, ha, rfl, hnear⟩ := hack ackno w rfl
      obtain ⟨hwrap, hcur⟩ := h.shown a ha
      have hcur' := h.receiving.currentAck_le h.sending.cuts
      rw [hwrap, h.sending.queue.isn_eq,
        unwrap_wrap a.absAckno _ isn hnear (by omega) (by omega)] at hle
      omega

/-- The receiver's side makes a step. -/
theorem Joint.receive (h : Joint isn c) {rx : TCPReceiver} {bytes : List UInt8}
    (hr : Receiving isn (c.receive rx bytes)) (hack : c.rx.currentAck ≤ rx.currentAck) :
    Joint isn (c.receive rx bytes) := by
  refine ⟨h.sending, h.small, hr, ?_, Nat.le_trans h.ack hack⟩
  intro a ha
  rcases List.mem_append.mp ha with ha | ha
  · exact ⟨(h.shown a ha).1, Nat.le_trans (h.shown a ha).2 hack⟩
  · rcases hr.isn_eq with hisn | hisn
    · have hisn : rx.isn = none := hisn
      simp [TCPReceiver.shows, TCPReceiver.ackno, hisn] at ha
    · have hisn : rx.isn = some isn := hisn
      simp only [TCPReceiver.shows, TCPReceiver.ackno, hisn, Option.map_some,
        List.mem_singleton] at ha
      subst ha
      exact ⟨rfl, by simp [System.receive, TCPReceiver.currentAck, hisn]⟩

theorem currentAck_popStream (rx : TCPReceiver) (len : Nat) :
    (rx.popStream len).currentAck = rx.currentAck := by
  have hw := rx.streamOut.popOutput_bytesWritten len
  have he := rx.streamOut.popOutput_inputEnded len
  simp only [TCPReceiver.currentAck, TCPReceiver.absAckno]
  change (if rx.isn.isSome then (rx.streamOut.popOutput len).bytesWritten + 1 +
    (if (rx.streamOut.popOutput len).inputEnded then 1 else 0) else 0) = _
  rw [hw, he]

/-- **Every permitted event is defined and keeps the joint invariant.** -/
theorem joint_step (h : Joint isn c) {e : SystemEvent} (hp : c.Permitted e) (hr : c.Reaches e) :
    ∃ c', c.step e = some c' ∧ (c'.tx.sender.Small → Joint isn c') := by
  have hwf := h.sending.queue.toWellFormed
  cases e with
  | sender e =>
    obtain ⟨tx, htx⟩ := Option.isSome_iff_exists.mp (Traced.step_isSome hwf e)
    refine ⟨{ c with tx := tx }, by rw [step, htx, Option.map_some], fun hsmall => ?_⟩
    cases e with
    | ackReceived ackno w => exact hp.elim
    | _ => exact h.sender htx hp (fun _ _ hno => by cases hno) hsmall
  | ack a =>
    obtain ⟨tx, htx⟩ := Option.isSome_iff_exists.mp
      (Traced.step_isSome hwf (.ackReceived a.ackno (UInt16.ofNat a.windowSize)))
    refine ⟨{ c with tx := tx }, by rw [step, htx, Option.map_some], fun hsmall => ?_⟩
    refine h.sender htx trivial (fun ackno w heq => ?_) hsmall
    obtain ⟨rfl, -⟩ := SenderEvent.ackReceived.inj heq
    exact ⟨a, hp, rfl, hr.1⟩
  | deliver p seg =>
    have hS := h.small.written
    obtain ⟨rx, hrx, hrec, hack⟩ := h.receiving.deliver h.sending.cuts
      (h.sending.wire (p, seg) hp) hr (by have := h.sending.cuts.accepted; omega)
    refine ⟨c.receive rx [], ?_, fun _ => h.receive hrec hack⟩
    rw [step, TCPReceiver.step, hrx, Option.map_some]
  | read len =>
    refine ⟨c.receive (c.rx.popStream len) (c.rx.streamOut.removed len), ?_, fun _ =>
      h.receive (h.receiving.pop len) (currentAck_popStream c.rx len).ge⟩
    rw [step, TCPReceiver.step_read, Option.map_some, ByteStream.read_fst]
  | pop len =>
    exact ⟨_, rfl, fun _ => h.receive (h.receiving.pop len) (currentAck_popStream c.rx len).ge⟩

/-! ## Streams that are short enough -/

/-- The sender's part of a step. -/
theorem step_tx {c c' : System} {e : SystemEvent} (hp : c.Permitted e)
    (hs : c.step e = some c') :
    c'.tx = c.tx ∨ ∃ e', c.tx.step e' = some c'.tx ∧ c.tx.WritesOpen e' := by
  cases e with
  | sender e =>
    rw [step, Option.map_eq_some_iff] at hs
    obtain ⟨tx, htx, rfl⟩ := hs
    refine Or.inr ⟨e, htx, ?_⟩
    cases e with
    | ackReceived ackno w => exact trivial
    | _ => exact hp
  | ack a =>
    rw [step, Option.map_eq_some_iff] at hs
    obtain ⟨tx, htx, rfl⟩ := hs
    exact Or.inr ⟨_, htx, trivial⟩
  | _ =>
    rw [step, Option.map_eq_some_iff] at hs
    obtain ⟨rx, -, rfl⟩ := hs
    exact Or.inl rfl

/-- A sender that has cut a string has used at most two more numbers than bytes. -/
theorem next_le_of_cuts {S : List UInt8} {s : TCPSender} (h : Traced.Cuts isn S resent filled s) :
    s.nextSeqnoAbsolute ≤ S.length + 2 := by
  have hnext := h.next
  have haccepted := h.accepted
  have hbal := s.stream.bytesWritten_eq
  split at hnext <;> split at hnext <;> omega

/-- For a short stream the numbers are in range without any assumption. -/
theorem inRange_of_assumed {c c' : System} (h : Joint isn c) {e : SystemEvent}
    (hs : c.step e = some c') (ha : c.Assumed e c') : c'.tx.sender.Small ∧ c.Reaches e := by
  rcases ha.2 with hin | hshort
  · exact hin
  have hshort : c'.tx.accepted.length < 2 ^ 31 - 2 := hshort
  have hstreams : c'.tx.Streams isn ∧ c.tx.accepted.length ≤ c'.tx.accepted.length := by
    have hc : c.tx.Streams isn := ⟨h.sending.queue.toWellFormed, h.sending.cuts⟩
    rcases step_tx ha.1 hs with heq | ⟨e', hs', hopen⟩
    · rw [heq]
      exact ⟨hc, Nat.le_refl _⟩
    · obtain ⟨U, hU, -⟩ := Traced.step_accepted hc.wellFormed hs' hopen
      refine ⟨Traced.streams_step hc hs' hopen, ?_⟩
      rw [hU, List.length_append]
      exact Nat.le_add_right _ _
  obtain ⟨hc', hgrow⟩ := hstreams
  have hnext' := next_le_of_cuts hc'.cuts
  refine ⟨⟨by omega, by have := hc'.cuts.accepted; omega, fun x _ => by omega⟩, ?_⟩
  have hnext := next_le_of_cuts h.sending.cuts
  cases e with
  | ack a =>
    have hle := (h.shown a ha.1).2
    have hcur := h.receiving.currentAck_le h.sending.cuts
    exact ⟨by omega, by omega⟩
  | deliver p seg =>
    have hwithin := (h.sending.wire (p, seg) ha.1).within
    have hw := h.receiving.bytesWritten_le
    have haccepted := h.sending.cuts.accepted
    have hbal := c.tx.sender.stream.bytesWritten_eq
    dsimp only at hwithin
    exact ⟨by omega, by omega⟩
  | _ => exact trivial

/-- The joint invariant holds along every run. -/
theorem joint_of_path {c₀ c : System} {es : List SystemEvent} (h0 : Joint isn c₀)
    (hp : Path step Assumed c₀ es c) : Joint isn c := by
  refine hp.invariant h0 (fun a e b ha hs hassumed => ?_)
  obtain ⟨hsmall, hreach⟩ := inRange_of_assumed ha hs hassumed
  obtain ⟨b', hb', hjoint⟩ := joint_step ha hassumed.1 hreach
  obtain rfl : b' = b := Option.some.inj (hb'.symm.trans hs)
  exact hjoint hsmall

/-- The receiver's stream has ended: the reader's bytes are the writer's. -/
theorem Joint.whole (h : Joint isn c) (hended : c.rx.streamOut.inputEnded = true) :
    c.rx.streamOut.bytesWritten = c.tx.accepted.length ∧
      c.taken ++ c.rx.streamOut.buffer = c.tx.accepted := by
  obtain ⟨f, hf, -⟩ := h.receiving.follows
  have hw : c.rx.streamOut.bytesWritten = c.tx.accepted.length := (hf.inputEnded.mp hended).2
  exact ⟨hw, by rw [h.receiving.taken, hw, List.take_length]⟩

end System

/-! ## The results -/

/-- **End-to-end data integrity.**  In every state of the composed system, whatever the network did,
the bytes read from `stream_out()` followed by those still buffered in it are a prefix of the bytes
accepted by `stream_in()`; once the receiver's input has ended they are all of them, and the writer
has ended its input.  Every segment ever pushed is one that can be delivered, and no permitted event
fails. -/
theorem end_to_end_integrity (sendCapacity : Nat) (retxTimeout : UInt16) (isn : WrappingInt32)
    (recvCapacity : Nat) (c₀ : System)
    (hnew : System.new sendCapacity retxTimeout isn recvCapacity = some c₀)
    (es : List SystemEvent) (c : System) (hp : Path System.step System.Assumed c₀ es c) :
    c.taken ++ c.rx.streamOut.buffer <+: c.tx.accepted ∧
    (c.rx.streamOut.inputEnded = true → c.tx.sender.stream.inputEnded = true ∧
      c.taken ++ c.rx.streamOut.buffer = c.tx.accepted) ∧
    c.tx.sent.map Prod.snd = c.tx.sender.segmentsOut ∧
    ∀ e, c.Permitted e → c.Reaches e → (c.step e).isSome := by
  have h := System.joint_of_path (System.joint_new hnew) hp
  refine ⟨?_, fun hended => ⟨?_, (h.whole hended).2⟩, h.sending.log, fun e hperm hreach => ?_⟩
  · rw [h.receiving.taken]
    exact List.take_prefix _ _
  · obtain ⟨f, hf, -⟩ := h.receiving.follows
    exact (h.sending.cuts.sent_all (h.receiving.fin (hf.inputEnded.mp hended).1)).1
  · obtain ⟨c', hc', -⟩ := System.joint_step h hperm hreach
    rw [hc']
    rfl

/-- The bytes 1, 2, 3 go across the wrap of the sequence numbers: an empty segment is sent before
the SYN, the segments arrive twice, and everything is acknowledged. -/
def exchange : List SystemEvent :=
  let isn : WrappingInt32 := ⟨4294967294⟩
  let syn : TCPSegment := { header := { seqno := isn, syn := true } }
  let data : TCPSegment := { header := { seqno := wrap 1 isn, fin := true }, payload := [1, 2, 3] }
  [.sender .sendEmptySegment, .sender .fillWindow, .deliver 0 syn,
    .deliver 0 { header := { seqno := isn } }, .ack ⟨1, wrap 1 isn, 4⟩, .sender (.write [1, 2, 3]),
    .sender .endInput, .sender .fillWindow, .sender (.tick 1000), .deliver 1 data, .read 2,
    .deliver 1 data, .deliver 0 syn, .ack ⟨5, wrap 5 isn, 1⟩]

theorem end_to_end_integrity_exchange :
    ∃ c₀ c, System.new 8 1000 ⟨4294967294⟩ 4 = some c₀ ∧
      Path System.step System.Assumed c₀ exchange c ∧ c.taken = [1, 2] ∧
      c.taken ++ c.rx.streamOut.buffer = c.tx.accepted := by
  obtain ⟨c, hc⟩ := Option.isSome_iff_exists.mp
    (show ((System.new 8 1000 ⟨4294967294⟩ 4).bind
      (check System.step System.Assumed · exchange)).isSome = true by decide)
  obtain ⟨c₀, hnew, hcheck⟩ := Option.bind_eq_some_iff.mp hc
  have hp := Path.of_check hcheck
  have hfacts : c.taken = [1, 2] ∧ c.rx.streamOut.inputEnded = true := by
    obtain rfl : _ = c := Option.some.inj hc
    decide
  exact ⟨c₀, c, hnew, hp, hfacts.1,
    ((end_to_end_integrity 8 1000 ⟨4294967294⟩ 4 c₀ hnew exchange c hp).2.1 hfacts.2).2⟩

/-- **Acknowledgments are sound.**  In every state of the composed system the sender's highest
retired number is at most the receiver's absolute acknowledgment number, which is at most
`next_seqno_absolute()`; so a sender in the state FIN_ACKED has delivered its whole stream. -/
theorem acknowledgment_sound (sendCapacity : Nat) (retxTimeout : UInt16) (isn : WrappingInt32)
    (recvCapacity : Nat) (c₀ : System)
    (hnew : System.new sendCapacity retxTimeout isn recvCapacity = some c₀)
    (es : List SystemEvent) (c : System) (hp : Path System.step System.Assumed c₀ es c) :
    c.tx.sender.receiverAck = c.tx.sender.nextSeqnoAbsolute - c.tx.sender.bytesInFlight ∧
    c.tx.sender.receiverAck ≤ c.rx.currentAck ∧
    c.rx.currentAck ≤ c.tx.sender.nextSeqnoAbsolute ∧
    (c.tx.sender.stateSummary = .finAcked →
      c.rx.streamOut.inputEnded = true ∧
      c.rx.streamOut.bytesWritten = c.tx.accepted.length ∧
      c.taken ++ c.rx.streamOut.buffer = c.tx.accepted) := by
  have h := System.joint_of_path (System.joint_new hnew) hp
  have hfl := TCPSender.bytesInFlight_eq h.sending.queue.toWellFormed
  have hack := h.sending.queue.ack_le
  have hcur := h.receiving.currentAck_le h.sending.cuts
  refine ⟨by omega, h.ack, hcur, fun hfin => ?_⟩
  obtain ⟨hnext, hnone⟩ := TCPSender.of_stateSummary_finAcked hfin
  have hended : c.rx.streamOut.inputEnded = true := by
    -- the receiver has acknowledged two numbers more than there are bytes
    by_contra hno
    have hle := c.rx.currentAck_le_absAckno
    rw [TCPReceiver.absAckno, if_neg hno] at hle
    have hw := h.receiving.bytesWritten_le
    have hbal := c.tx.sender.stream.bytesWritten_eq
    have := h.ack
    omega
  exact ⟨hended, h.whole hended⟩

theorem acknowledgment_sound_exchange :
    ∃ c₀ c, System.new 8 1000 ⟨4294967294⟩ 4 = some c₀ ∧
      Path System.step System.Assumed c₀ exchange c ∧ c.tx.sender.stateSummary = .finAcked ∧
      c.rx.streamOut.inputEnded = true ∧ c.taken ++ c.rx.streamOut.buffer = c.tx.accepted := by
  obtain ⟨c, hc⟩ := Option.isSome_iff_exists.mp
    (show ((System.new 8 1000 ⟨4294967294⟩ 4).bind
      (check System.step System.Assumed · exchange)).isSome = true by decide)
  obtain ⟨c₀, hnew, hcheck⟩ := Option.bind_eq_some_iff.mp hc
  have hp := Path.of_check hcheck
  have hfin : c.tx.sender.stateSummary = .finAcked := by
    obtain rfl : _ = c := Option.some.inj hc
    decide
  obtain ⟨-, -, -, hwhole⟩ :=
    acknowledgment_sound 8 1000 ⟨4294967294⟩ 4 c₀ hnew exchange c hp
  exact ⟨c₀, c, hnew, hp, hfin, (hwhole hfin).1, (hwhole hfin).2.2⟩

end Sponge
