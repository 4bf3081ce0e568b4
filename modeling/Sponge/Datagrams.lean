import Sponge.Corruption
import Sponge.EndToEnd

/-!
# The composed system over datagrams

The segments of the composed system cross the network as bytes: `TCPSegment::serialize` writes
them, `TCPSegment::parse` reads what arrives, and only a segment that was parsed without an error
gets to the receiver.  The network may also change bytes.  `datagram_integrity`: what does not pass
the check changes nothing, which is so for everything damaged within one word, and all else is a
delivery of the system of segments.
-/

namespace Sponge

open OnesComplement Transition

/-! ## What the sender pushes can be written -/

/-- Only the sequence number and the flags SYN and FIN are set, and the payload has the size of a
segment. -/
structure TCPSegment.Plain (seg : TCPSegment) : Prop where
  header : seg.header =
    { seqno := seg.header.seqno, syn := seg.header.syn, fin := seg.header.fin }
  payload : seg.payload.length ≤ TCPConfig.maxPayloadSize

namespace TCPSender

variable {s s' : TCPSender}

/-- Every segment pushed, and every one outstanding, is plain. -/
def AllPlain (s : TCPSender) : Prop :=
  (∀ seg ∈ s.segmentsOut, seg.Plain) ∧ ∀ seg ∈ s.outstandingSegments, seg.Plain

/-- A plain segment is pushed. -/
theorem AllPlain.send {seg : TCPSegment} (h : AllPlain s) (hseg : seg.Plain) (w : Nat) :
    AllPlain (send s w seg).1 := by
  have happend : ∀ {segs : List TCPSegment}, (∀ x ∈ segs, x.Plain) →
      ∀ x ∈ segs ++ [seg], x.Plain := by
    intro segs hsegs x hx
    rcases List.mem_append.mp hx with hx | hx
    · exact hsegs x hx
    · rw [List.mem_singleton.mp hx]
      exact hseg
  exact ⟨happend h.1, happend h.2⟩

theorem AllPlain.fillOnce (h : AllPlain s) : AllPlain s.fillOnce.1 := by
  have hpayload : (s.stream.read s.payloadSize).1.length ≤ TCPConfig.maxPayloadSize := by
    have hle : s.payloadSize ≤ TCPConfig.maxPayloadSize := Nat.min_le_right _ _
    rw [ByteStream.read_fst, ByteStream.removed]
    split
    · rw [List.length_take]
      omega
    · exact Nat.zero_le _
  unfold TCPSender.fillOnce
  split
  · exact h
  · split
    · exact AllPlain.send ⟨h.1, h.2⟩ ⟨rfl, Nat.zero_le _⟩ s.windowSize
    · dsimp only
      split
      · exact AllPlain.send ⟨h.1, h.2⟩ ⟨rfl, hpayload⟩ s.windowSize
      · split
        · exact ⟨h.1, h.2⟩
        · exact AllPlain.send ⟨h.1, h.2⟩ ⟨rfl, hpayload⟩ s.windowSize

theorem AllPlain.fillLoop (fuel : Nat) : ∀ s : TCPSender, AllPlain s →
    TCPSender.fillLoop fuel s = some s' → AllPlain s' := by
  induction fuel with
  | zero =>
    intro s _ hs
    cases hs
  | succ fuel ih =>
    intro s h hs
    have honce := h.fillOnce
    unfold TCPSender.fillLoop at hs
    split at hs
    · rename_i heq
      rw [heq] at honce
      rwa [← Option.some.inj hs]
    · rename_i heq
      rw [heq] at honce
      exact ih _ honce hs

/-- Every event keeps the segments plain. -/
theorem allPlain_step (h : AllPlain s) {e : SenderEvent} (hs : s.step e = some s') :
    AllPlain s' := by
  cases e with
  | write data =>
    obtain rfl := Option.some.inj hs
    exact h
  | endInput =>
    obtain rfl := Option.some.inj hs
    exact h
  | fillWindow => exact AllPlain.fillLoop _ s h hs
  | ackReceived ackno w =>
    obtain rfl := Option.some.inj hs
    by_cases hacc : s.Accepts (unwrap ackno s.isn s.nextSeqnoAbsolute)
    · have hacked := ackReceived_of_accepts w hacc
      refine ⟨by rw [hacked.segmentsOut]; exact h.1, fun seg hseg => h.2 seg ?_⟩
      rw [hacked.outstandingSegments] at hseg
      exact (retire_suffix _ _ _ _ _ _).subset hseg
    · rw [ackReceived_of_not_accepts w hacc]
      exact h
  | tick ms =>
    rw [step, tick] at hs
    dsimp only at hs
    split at hs
    · split at hs
      · cases hs
      · rename_i hq
        obtain rfl := Option.some.inj hs
        refine ⟨fun seg hseg => ?_, h.2⟩
        rcases List.mem_append.mp hseg with hseg | hseg
        · exact h.1 seg hseg
        · rw [List.mem_singleton.mp hseg]
          exact h.2 _ (by rw [hq]; exact List.mem_cons_self)
    · obtain rfl := Option.some.inj hs
      exact h
  | sendEmptySegment =>
    obtain rfl := Option.some.inj hs
    refine ⟨fun seg hseg => ?_, h.2⟩
    rcases List.mem_append.mp hseg with hseg | hseg
    · exact h.1 seg hseg
    · rw [List.mem_singleton.mp hseg]
      exact ⟨rfl, Nat.zero_le _⟩

end TCPSender

namespace TCPSegment

variable {seg : TCPSegment} {c : UInt32}

theorem Plain.doff (h : seg.Plain) : seg.header.doff.toNat = 5 := by
  rw [h.header]
  rfl

/-- A plain segment is written: 20 bytes of header and the payload. -/
theorem Plain.serialize (h : seg.Plain) (c : UInt32) :
    ∃ buffers, seg.serialize c = .ok buffers ∧
      buffers.contents.length = TCPHeader.length + seg.payload.length := by
  obtain ⟨buffers, hser, hcat⟩ := serialize_eq h.doff.ge c
  refine ⟨buffers, hser, ?_⟩
  rw [hcat, encoded_length h.doff.ge, h.doff]
  rfl

/-- **What is written of a plain segment is read back**, with the checksum in its field. -/
theorem Plain.parse (h : seg.Plain) (seg₀ : TCPSegment) (hc : c.toNat < 2 ^ 31)
    {buffers : BufferList} (hser : seg.serialize c = .ok buffers) :
    ∃ cksum, seg₀.parse buffers.contents c =
      (.noError, { seg with header := seg.header.withCksum cksum }) := by
  obtain ⟨buffers', hser', hcat⟩ := serialize_eq h.doff.ge c
  obtain rfl : buffers' = buffers := Except.ok.inj (hser'.symm.trans hser)
  have hpay := h.payload
  have hlen := encoded_length h.doff.ge
    ((InternetChecksum.new c).add (seg.encoded 0)).value.toNat
  rw [← hcat, h.doff] at hlen
  have hpass := passesCheck_serialize hc hser (by
    simp only [TCPConfig.maxPayloadSize] at hpay
    omega)
  rw [encoded_eq, h.doff] at hcat
  generalize ((InternetChecksum.new c).add (seg.encoded 0)).value = cksum at hcat
  generalize buffers'.contents = b at *
  have hread : TCPHeader.ReadFrom b (seg.header.withCksum cksum) := by
    rw [hcat]
    exact TCPHeader.readFrom_layout _ (by rw [TCPHeader.withCksum, h.doff]; decide) _
  have hoffset : TCPHeader.dataOffset b = 5 := by
    rw [← hread.doff, ← h.doff]
    rfl
  have hspec := TCPHeader.parse_spec b
  have hlong : TCPHeader.length ≤ b.length := by
    rw [TCPHeader.length_eq]
    omega
  have hno := hspec.noError.mpr ⟨hlong, Or.inr (by omega)⟩
  have hdrop : b.drop (max TCPHeader.length (4 * TCPHeader.dataOffset b)) = seg.payload := by
    rw [hoffset, hcat]
    exact List.drop_left' (TCPHeader.layout_record_length _)
  refine ⟨cksum, ?_⟩
  rw [TCPSegment.parse, if_neg (show ¬ ((InternetChecksum.new c).add b).value ≠ 0 from
    fun hne => hne hpass)]
  dsimp only
  rw [hno, hspec.buffer hno, hdrop, (hspec.readFrom hlong).unique hread]

/-- The bytes of the segment in a datagram. -/
def datagram (seg : TCPSegment) (c : UInt32) : List UInt8 :=
  match seg.serialize c with
  | .ok buffers => buffers.contents
  | .error _ => []

theorem datagram_of_ok {buffers : BufferList} (hser : seg.serialize c = .ok buffers) :
    seg.datagram c = buffers.contents := by
  rw [datagram, hser]

/-- `b` has the length of `a` and differs from it, but only within one word, and that word is not
turned from one zero of the checksum into the other. -/
def Damaged (a b : List UInt8) : Prop :=
  b.length = a.length ∧ b ≠ a ∧ ∃ k < a.length, (∀ i < a.length, i / 2 ≠ k → b[i]? = a[i]?) ∧
    ¬ (word a k = 0x0000 ∧ word b k = 0xffff) ∧ ¬ (word a k = 0xffff ∧ word b k = 0x0000)

instance (a b : List UInt8) : Decidable (Damaged a b) :=
  inferInstanceAs (Decidable (_ ∧ _ ∧ _))

/-- Damaged bytes of a segment do not pass the check. -/
theorem Damaged.not_passesCheck {b : List UInt8} (hd : Damaged (seg.datagram c) b)
    (h : seg.Plain) (hc : c.toNat < 2 ^ 31) : ¬ PassesCheck b c := by
  obtain ⟨hlen, hne, k, -, honly, hzero, hones⟩ := hd
  obtain ⟨buffers, hser, hsize⟩ := h.serialize c
  have hpay := h.payload
  rw [datagram_of_ok hser] at *
  have hshort : buffers.contents.length ≤ 65535 := by
    rw [hsize]
    exact Nat.le_trans (Nat.add_le_add_left hpay _) (by decide)
  have honly' : ∀ i, i / 2 ≠ k → b[i]? = buffers.contents[i]? := by
    intro i hi
    by_cases hlt : i < buffers.contents.length
    · exact honly i hlt hi
    · rw [List.getElem?_eq_none (by omega), List.getElem?_eq_none (by omega)]
  intro hpass
  rcases eq_of_passesCheck hshort hc hlen honly' (passesCheck_serialize hc hser hshort) hpass with
    heq | hz | ho
  · exact hne heq
  · exact hzero hz
  · exact hones ho

end TCPSegment

/-! ## Datagrams arrive -/

open TCPSegment

/-- The checksum field is not looked at by the receiver. -/
theorem TCPReceiver.segmentReceived_withCksum (t : TCPReceiver) (seg : TCPSegment)
    (cksum : UInt16) :
    t.segmentReceived { seg with header := seg.header.withCksum cksum } =
      t.segmentReceived seg := rfl

inductive DatagramEvent
  | system (e : SystemEvent)
  | arrive (b : List UInt8)
  deriving DecidableEq

namespace System

variable {k : UInt32} {c c' : System} {isn : WrappingInt32}

/-- The bytes `b` arrive: what is parsed without an error goes to the receiver. -/
def arrive (c : System) (k : UInt32) (b : List UInt8) : Option System :=
  match TCPSegment.parse {} b k with
  | (.noError, seg) => (c.rx.step (.segment seg)).map fun rx => c.receive rx []
  | _ => some c

def stepBytes (k : UInt32) (c : System) : DatagramEvent → Option System
  | .system e => c.step e
  | .arrive b => c.arrive k b

/-- The segments travel as bytes only, and what arrives was written for a pushed segment, or does
not pass the check. -/
def AssumedBytes (k : UInt32) (c : System) : DatagramEvent → System → Prop
  | .system (.deliver _ _), _ => False
  | .system e, c' => c.Assumed e c'
  | .arrive b, c' =>
    (∃ x ∈ c.tx.sent, x.2.datagram k = b ∧ c.Assumed (.deliver x.1 x.2) c') ∨ ¬ PassesCheck b k

instance (k : UInt32) (c : System) : (e : DatagramEvent) → (c' : System) →
    Decidable (c.AssumedBytes k e c')
  | .system (.deliver _ _), _ => isFalse id
  | .system (.sender _), _ => inferInstanceAs (Decidable (Assumed _ _ _))
  | .system (.ack _), _ => inferInstanceAs (Decidable (Assumed _ _ _))
  | .system (.read _), _ => inferInstanceAs (Decidable (Assumed _ _ _))
  | .system (.pop _), _ => inferInstanceAs (Decidable (Assumed _ _ _))
  | .arrive _, _ => inferInstanceAs (Decidable ((∃ x ∈ _, _) ∨ ¬ PassesCheck _ _))

/-- The bytes of a segment arrive as the segment does. -/
theorem arrive_datagram {seg : TCPSegment} (h : seg.Plain) (hk : k.toNat < 2 ^ 31) (p : Nat) :
    c.arrive k (seg.datagram k) = c.step (.deliver p seg) := by
  obtain ⟨buffers, hser, -⟩ := h.serialize k
  obtain ⟨cksum, hparse⟩ := h.parse {} hk hser
  rw [arrive, datagram_of_ok hser, hparse]
  dsimp only
  rw [TCPReceiver.step, TCPReceiver.segmentReceived_withCksum]
  rfl

/-- Bytes that do not pass the check change nothing. -/
theorem arrive_of_not_passesCheck {b : List UInt8} (h : ¬ PassesCheck b k) :
    c.arrive k b = some c := by
  rw [arrive, parse_of_not_passesCheck _ h]

/-- What the composed system keeps while it runs over datagrams. -/
structure Carried (isn : WrappingInt32) (c : System) : Prop where
  joint : Joint isn c
  plain : c.tx.sender.AllPlain

theorem carried_new {sendCapacity : Nat} {retxTimeout : UInt16} {recvCapacity : Nat}
    (h : new sendCapacity retxTimeout isn recvCapacity = some c) : Carried isn c := by
  refine ⟨joint_new h, ?_⟩
  obtain ⟨rx, -, rfl⟩ := Option.map_eq_some_iff.mp h
  exact ⟨fun _ hseg => (List.not_mem_nil hseg).elim, fun _ hseg => (List.not_mem_nil hseg).elim⟩

theorem Carried.plain_of_sent (h : Carried isn c) {x : Nat × TCPSegment} (hx : x ∈ c.tx.sent) :
    x.2.Plain := by
  refine h.plain.1 x.2 ?_
  rw [← h.joint.sending.log]
  exact List.mem_map_of_mem hx

/-- A step over segments keeps it. -/
theorem carried_step (h : Carried isn c) {e : SystemEvent} (hs : c.step e = some c')
    (ha : c.Assumed e c') : Carried isn c' := by
  refine ⟨joint_of_path h.joint (Path.single hs ha), ?_⟩
  rcases step_tx ha.1 hs with heq | ⟨e', hs', -⟩
  · rw [heq]
    exact h.plain
  · rw [Traced.step, Option.map_eq_some_iff] at hs'
    obtain ⟨s', hmove, hrec⟩ := hs'
    rw [← hrec, Traced.record_sender]
    exact TCPSender.allPlain_step h.plain hmove

/-- **One step over bytes is at most one step over segments.** -/
theorem Carried.stepBytes (h : Carried isn c) (hk : k.toNat < 2 ^ 31) {e : DatagramEvent}
    (hs : stepBytes k c e = some c') (ha : c.AssumedBytes k e c') :
    Carried isn c' ∧ ∃ es, Path step Assumed c es c' := by
  have hone : ∀ e, c.step e = some c' → c.Assumed e c' →
      Carried isn c' ∧ ∃ es, Path System.step Assumed c es c' :=
    fun e hs ha => ⟨carried_step h hs ha, [e], Path.single hs ha⟩
  cases e with
  | system e =>
    cases e with
    | sender e => exact hone (.sender e) hs ha
    | ack a => exact hone (.ack a) hs ha
    | deliver p seg => exact ha.elim
    | read len => exact hone (.read len) hs ha
    | pop len => exact hone (.pop len) hs ha
  | arrive b =>
    rcases ha with ⟨x, hx, rfl, ha⟩ | hbad
    · exact hone _ ((arrive_datagram (h.plain_of_sent hx) hk x.1).symm.trans hs) ha
    · obtain rfl := Option.some.inj ((arrive_of_not_passesCheck hbad).symm.trans hs)
      exact ⟨h, [], Path.nil⟩

/-- **One step over segments is one step over bytes.** -/
theorem Carried.step (h : Carried isn c) (hk : k.toNat < 2 ^ 31) {e : SystemEvent}
    (hs : c.step e = some c') (ha : c.Assumed e c') :
    Carried isn c' ∧ ∃ ds, Path (System.stepBytes k) (AssumedBytes k) c ds c' := by
  refine ⟨carried_step h hs ha, ?_⟩
  cases e with
  | deliver p seg =>
    have hx : (p, seg) ∈ c.tx.sent := ha.1
    refine ⟨[.arrive (seg.datagram k)], Path.single ?_ (Or.inl ⟨(p, seg), hx, rfl, ha⟩)⟩
    exact (arrive_datagram (h.plain_of_sent hx) hk p).trans hs
  | sender e => exact ⟨[.system (.sender e)], Path.single hs ha⟩
  | ack a => exact ⟨[.system (.ack a)], Path.single hs ha⟩
  | read len => exact ⟨[.system (.read len)], Path.single hs ha⟩
  | pop len => exact ⟨[.system (.pop len)], Path.single hs ha⟩

end System

/-- **End-to-end integrity over bytes.**  The states the system can be in over datagrams are those
it can be in over segments.  So whatever the network loses, repeats, reorders or damages, as long as
the check fails on what it damaged, what the reader gets is a prefix of what the writer wrote, and
all of it once the stream has ended.  Everything pushed can be written, in at most 1472 bytes, and
when it is damaged within one word the check fails. -/
theorem datagram_integrity (k : UInt32) (hk : k.toNat < 2 ^ 31) (sendCapacity : Nat)
    (retxTimeout : UInt16) (isn : WrappingInt32) (recvCapacity : Nat) (c₀ : System)
    (hnew : System.new sendCapacity retxTimeout isn recvCapacity = some c₀) (c : System) :
    ((∃ ds, Path (System.stepBytes k) (System.AssumedBytes k) c₀ ds c) ↔
      ∃ es, Path System.step System.Assumed c₀ es c) ∧
    ((∃ ds, Path (System.stepBytes k) (System.AssumedBytes k) c₀ ds c) →
      c.taken ++ c.rx.streamOut.buffer <+: c.tx.accepted ∧
      (c.rx.streamOut.inputEnded = true → c.taken ++ c.rx.streamOut.buffer = c.tx.accepted) ∧
      ∀ seg ∈ c.tx.sender.segmentsOut, (∃ buffers, seg.serialize k = .ok buffers) ∧
        (seg.datagram k).length ≤ 1472 ∧
        ∀ b, Damaged (seg.datagram k) b → ¬ PassesCheck b k ∧
          c.stepBytes k (.arrive b) = some c) := by
  have h₀ := System.carried_new hnew
  refine ⟨⟨?_, ?_⟩, ?_⟩
  · rintro ⟨ds, hp⟩
    exact (hp.simulation id h₀ fun _ _ _ h hs ha => h.stepBytes hk hs ha).2
  · rintro ⟨es, hp⟩
    exact (hp.simulation id h₀ fun _ _ _ h hs ha => h.step hk hs ha).2
  · rintro ⟨ds, hp⟩
    have h := (hp.simulation id h₀ fun _ _ _ h hs ha => h.stepBytes hk hs ha).1
    refine ⟨?_, fun hended => (h.joint.whole hended).2, fun seg hseg => ?_⟩
    · rw [h.joint.receiving.taken]
      exact List.take_prefix _ _
    · have hplain := h.plain.1 seg hseg
      obtain ⟨buffers, hser, hlen⟩ := hplain.serialize k
      refine ⟨⟨buffers, hser⟩, ?_, fun b hd => ?_⟩
      · rw [datagram_of_ok hser, hlen]
        exact Nat.add_le_add_left hplain.payload _
      · have hbad := hd.not_passesCheck hplain hk
        exact ⟨hbad, System.arrive_of_not_passesCheck hbad⟩

/-- The bytes 1, 2, 3 in datagrams: the SYN first arrives with a byte changed, then as it was
written, and so does the segment with the data. -/
def letters : List DatagramEvent :=
  let isn : WrappingInt32 := ⟨4294967294⟩
  let syn : List UInt8 := TCPSegment.datagram { header := { seqno := isn, syn := true } } 9
  let data : List UInt8 := TCPSegment.datagram
    { header := { seqno := wrap 1 isn, fin := true }, payload := [1, 2, 3] } 9
  [.system (.sender .fillWindow), .arrive (syn.set 13 3), .arrive syn,
    .system (.ack ⟨1, wrap 1 isn, 4⟩), .system (.sender (.write [1, 2, 3])),
    .system (.sender .endInput), .system (.sender .fillWindow), .arrive (data.set 21 7),
    .arrive data, .system (.read 2), .arrive syn]

theorem datagram_integrity_letters :
    ∃ c₀ c, System.new 8 1000 ⟨4294967294⟩ 4 = some c₀ ∧
      Path (System.stepBytes 9) (System.AssumedBytes 9) c₀ letters c ∧ c.taken = [1, 2] ∧
      c.taken ++ c.rx.streamOut.buffer = c.tx.accepted := by
  obtain ⟨c, hc, hfacts⟩ := Option.map_eq_some_iff.mp
    (show ((System.new 8 1000 ⟨4294967294⟩ 4).bind
      (check (System.stepBytes 9) (System.AssumedBytes 9) · letters)).map
        (fun c => (c.taken, c.rx.streamOut.inputEnded)) = some ([1, 2], true) by decide +kernel)
  obtain ⟨c₀, hnew, hcheck⟩ := Option.bind_eq_some_iff.mp hc
  obtain ⟨htaken, hended⟩ := Prod.mk.inj hfacts
  have hp := Path.of_check hcheck
  exact ⟨c₀, c, hnew, hp, htaken,
    ((datagram_integrity 9 (by decide) 8 1000 ⟨4294967294⟩ 4 c₀ hnew c).2 ⟨_, hp⟩).2.1 hended⟩

end Sponge
