import Sponge.EndedStream

/-!
# Segments without a stream index

A segment without SYN that starts at absolute sequence number 0 sits in the slot of the SYN.  Its
stream index wraps to `2 ^ 64 - 1`, no window reaches that far, and its payload is dropped.  Its FIN
is not: `push_substring` records the end of the stream before it looks at the window, and the
recorded index `index + data.size()` has wrapped to a small number (`null_fin_ends_input`).
`null_segment_ignored` says when such a segment leaves no trace in any later observation: when it
does not disturb an end that the stream can still reach.
-/

namespace Sponge

open PartialStream Transition

namespace StreamReassembler

/-! ## Reassemblers that differ in the recorded end -/

/-- The reassembler with another recorded end. -/
def retag (r : StreamReassembler) (flag : Bool) (index : Nat) : StreamReassembler :=
  { r with eofFlag := flag, eofIndex := index }

@[simp] theorem retag_buffer (r : StreamReassembler) (flag : Bool) (k : Nat) :
    (r.retag flag k).buffer = r.buffer := rfl
@[simp] theorem retag_bitmap (r : StreamReassembler) (flag : Bool) (k : Nat) :
    (r.retag flag k).bitmap = r.bitmap := rfl

theorem place_retag (data : List UInt8) (w d : Nat) (flag : Bool) (k : Nat) (len i : Nat)
    (r : StreamReassembler) :
    place data w d len i (r.retag flag k) = (place data w d len i r).map (retag · flag k) := by
  induction len generalizing i r with
  | zero => rfl
  | succ len ih =>
    simp only [place, retag_bitmap, retag_buffer]
    split
    · rfl
    · exact ih _ r
    · split
      · rfl
      · by_cases hlt : i + w < r.buffer.length
        · simp only [hlt, if_true]
          exact ih _ { r with buffer := _, bitmap := _, unassembledBytes := _ }
        · simp only [hlt, if_false]
          rfl

theorem moveOut_retag (r : StreamReassembler) (flag : Bool) (k : Nat) :
    (r.retag flag k).moveOut = r.moveOut.map (retag · flag k) := by
  unfold moveOut
  dsimp only [retag]
  split
  · rfl
  · rw [Option.map_some]
    split <;> rfl

/-- The recorded end plays no role when bytes are moved. -/
theorem moveBytes_retag (r : StreamReassembler) (flag : Bool) (k : Nat) (data : List UInt8)
    (index : Nat) :
    (r.retag flag k).moveBytes data index = (r.moveBytes data index).map (retag · flag k) := by
  have hins : (r.retag flag k).insert data index =
      (r.insert data index).map (retag · flag k) := by
    unfold insert
    dsimp only [retag, firstUnacceptable]
    split
    · exact place_retag _ _ _ flag k _ _ r
    · exact place_retag _ _ _ flag k _ _ r
  unfold moveBytes
  change (if r.outside data index then _ else _) = _
  split
  · rfl
  · rw [hins, Option.map_bind, Option.bind_map]
    congr 1
    funext c
    exact moveOut_retag c flag k

/-- The stream may still end at `p`: `p` is ahead, and a byte at `p` can be pushed. -/
def Ahead (r : StreamReassembler) (p : Nat) : Prop :=
  r.output.bytesWritten ≤ p ∧ p + 1 < Word.size

/-- The recorded end is `p`. -/
def EndsAt (r : StreamReassembler) (p : Nat) : Prop := r.eofFlag = true ∧ r.eofIndex = p

/-- The input has ended, or the recorded ends agree wherever the stream may still end. -/
def SameEnd (r r' : StreamReassembler) : Prop :=
  r.output.inputEnded = true ∨ ∀ p, r.Ahead p → (r.EndsAt p ↔ r'.EndsAt p)

/-- `r'` is `r` with another recorded end; the difference is behind, or too late to matter. -/
structure Twins (r r' : StreamReassembler) : Prop where
  assembled : ∃ f, Assembled r f
  ended : r'.eofFlag = true → r'.eofIndex = r'.output.bytesWritten → r'.output.inputEnded = true
  retagged : r' = r.retag r'.eofFlag r'.eofIndex
  ends : SameEnd r r'

theorem Twins.output {r r' : StreamReassembler} (h : Twins r r') : r'.output = r.output := by
  rw [h.retagged]
  rfl

theorem Twins.unassembledBytes {r r' : StreamReassembler} (h : Twins r r') :
    r'.unassembledBytes = r.unassembledBytes := by
  rw [h.retagged]
  rfl

theorem Twins.refl {r : StreamReassembler} {f : Nat → Option UInt8} (h : Assembled r f) :
    Twins r r :=
  ⟨⟨f, h⟩, h.ended, rfl, Or.inr fun _ _ => Iff.rfl⟩

/-- Looking for the end: both twins find it or both do not. -/
theorem checkEof_retag {c : StreamReassembler} {flag : Bool} {k : Nat}
    (h : c.output.inputEnded = true ∨
      (c.EndsAt c.output.bytesWritten ↔ (c.retag flag k).EndsAt c.output.bytesWritten)) :
    (c.retag flag k).checkEof = c.checkEof.retag flag k := by
  rcases h with h | h
  · have hc : c.checkEof = c := checkEof_eq_self fun _ _ => h
    have hc' : (c.retag flag k).checkEof = c.retag flag k := checkEof_eq_self fun _ _ => h
    rw [hc, hc']
  · have hcond : ((c.retag flag k).eofFlag && (c.retag flag k).eofIndex == c.output.bytesWritten) =
        (c.eofFlag && c.eofIndex == c.output.bytesWritten) := by
      rw [Bool.eq_iff_iff]
      simpa [EndsAt] using h.symm
    unfold checkEof
    change (if ((c.retag flag k).eofFlag && (c.retag flag k).eofIndex == c.output.bytesWritten)
      then _ else _) = _
    rw [hcond]
    split <;> rfl

/-- Twins are found twins after looking for the end, as long as the last index of a word is out of
reach. -/
theorem twins_checkEof {c : StreamReassembler} {f : Nat → Option UInt8} {flag : Bool} {k : Nat}
    (hc : Assembled c.checkEof f) (hends : SameEnd c (c.retag flag k))
    (hB : c.output.bytesWritten + 1 < Word.size) :
    Twins c.checkEof (c.retag flag k).checkEof := by
  have hs := checkEof_sameBytes c
  have hcheck : (c.retag flag k).checkEof = c.checkEof.retag flag k :=
    checkEof_retag (hends.imp_right fun he => he _ ⟨Nat.le_refl _, hB⟩)
  refine ⟨⟨f, hc⟩, checkEof_ended _, by rw [hcheck]; rfl, ?_⟩
  refine hends.imp (fun he => by rw [checkEof_inputEnded, he, Bool.true_or]) ?_
  intro he p hp
  have := he p ⟨hs.bytesWritten ▸ hp.1, hp.2⟩
  rw [EndsAt, EndsAt, checkEof_eofFlag, checkEof_eofIndex, checkEof_eofFlag, checkEof_eofIndex]
  exact this

/-- A push keeps twins twins. -/
theorem Twins.push {r r' : StreamReassembler} (h : Twins r r') {data : List UInt8} {index : Nat}
    (hix : index < Word.size) (hd : data.length ≤ maxSize) (eof : Bool) :
    ∃ q q', r.pushSubstring data index eof = some q ∧ r'.pushSubstring data index eof = some q' ∧
      (q.output.bytesWritten + 1 < Word.size → Twins q q') := by
  obtain ⟨⟨f, hf⟩, hended, hretag, hends⟩ := h
  generalize r'.eofFlag = flag at hretag
  generalize r'.eofIndex = k at hretag
  subst hretag
  obtain ⟨q, hq, hspec⟩ := pushSubstring_spec hf (Or.inl ⟨hix, hd⟩) eof
  cases eof with
  | true =>
    -- both record the same new end
    exact ⟨q, q, hq, hq, fun _ => Twins.refl hspec.assembled⟩
  | false =>
    have hnote : r.noteEof (endIndex index data) false = r := checkEof_eq_self hf.ended
    have hnote' : (r.retag flag k).noteEof (endIndex index data) false = r.retag flag k :=
      checkEof_eq_self hended
    obtain ⟨c, bytes, hc, hm⟩ := moveBytes_spec hf.toWindow hf.hole (Or.inl ⟨hix, hd⟩)
    rw [pushSubstring_eq, hnote, hc, Option.map_some] at hq
    obtain rfl := Option.some.inj hq
    refine ⟨c.checkEof, (c.retag flag k).checkEof, ?_, ?_, fun hB => ?_⟩
    · rw [pushSubstring_eq, hnote, hc, Option.map_some]
    · rw [pushSubstring_eq, hnote', moveBytes_retag, hc, Option.map_some, Option.map_some]
    · rw [(checkEof_sameBytes c).bytesWritten] at hB
      refine twins_checkEof hspec.assembled ?_ hB
      refine hends.imp (fun he => hm.inputEnded.trans he) (fun he p hp => ?_)
      have hw := hm.bytesWritten
      have := he p ⟨Nat.le_trans (by omega) hp.1, hp.2⟩
      simpa only [EndsAt, hm.eofFlag, hm.eofIndex, retag] using this

theorem Twins.pop {r r' : StreamReassembler} (h : Twins r r') (len : Nat) :
    Twins { r with output := r.output.popOutput len }
      { r' with output := r'.output.popOutput len } := by
  have hout := h.output
  obtain ⟨⟨f, hf⟩, hended, hretag, hends⟩ := h
  refine ⟨⟨f, hf.pop len⟩, ?_, ?_, ?_⟩
  · simpa only [ByteStream.popOutput_bytesWritten, ByteStream.popOutput_inputEnded] using hended
  · rw [hout]
    generalize r'.eofFlag = flag at hretag
    generalize r'.eofIndex = k at hretag
    subst hretag
    rfl
  · simpa only [SameEnd, ByteStream.popOutput_inputEnded, Ahead, EndsAt,
      ByteStream.popOutput_bytesWritten] using hends

end StreamReassembler

namespace TCPReceiver

/-! ## The receiver -/

/-- What a user of the receiver can see: the output stream, `unassembled_bytes()`, `ackno()` and
`window_size()`. -/
structure Observation where
  streamOut : ByteStream
  unassembledBytes : Nat
  ackno : Option WrappingInt32
  windowSize : Nat
  deriving DecidableEq

def observe (t : TCPReceiver) : Observation :=
  ⟨t.streamOut, t.unassembledBytes, t.ackno, t.windowSize⟩

/-- The segment sits in the slot of the SYN: the initial sequence number is known, the segment has
no SYN, and its sequence number unwraps to 0. -/
def InSynSlot (t : TCPReceiver) (seg : TCPSegment) : Prop :=
  seg.header.syn = false ∧
    ∃ isn ∈ t.isn, unwrap seg.header.seqno isn t.streamOut.bytesWritten = 0

instance (t : TCPReceiver) (seg : TCPSegment) : Decidable (t.InSynSlot seg) :=
  inferInstanceAs (Decidable (_ ∧ _))

/-- The end of the stream that `push_substring` computes for such a segment. -/
def slotEnd (seg : TCPSegment) : Nat := StreamReassembler.endIndex (Word.size - 1) seg.payload

/-- A segment in the slot of the SYN does not disturb the end of the stream: it has no FIN, or the
input has ended, or the end it records is the recorded one, or neither end lies ahead. -/
def EndUndisturbed (t : TCPReceiver) (seg : TCPSegment) : Prop :=
  seg.header.fin = false ∨ t.streamOut.inputEnded = true ∨
    t.reassembler.EndsAt (slotEnd seg) ∨
    (¬ t.reassembler.Ahead (slotEnd seg) ∧
      (t.reassembler.eofFlag = true → ¬ t.reassembler.Ahead t.reassembler.eofIndex))

/-- The segment gets no further than the bookkeeping for the end of the stream. -/
theorem segmentReceived_inSynSlot {t : TCPReceiver} {seg : TCPSegment} (h : t.InSynSlot seg) :
    t.segmentReceived seg = some { t with
      reassembler := t.reassembler.noteEof (slotEnd seg) seg.header.fin } := by
  obtain ⟨hsyn, isn, hisn, hu⟩ := h
  have hisn : t.isn = some isn := hisn
  have hindex : t.streamIndex isn seg = Word.size - 1 := by
    simp only [streamIndex, hu, hsyn]
    decide
  have hout : ∀ r : StreamReassembler, r.outside seg.payload (Word.size - 1) = true := by
    intro r
    rw [StreamReassembler.outside_iff]
    have := r.firstUnacceptable_lt
    omega
  rw [segmentReceived_eq (isnAfter_of_some hisn), hindex, StreamReassembler.pushSubstring]
  simp only [hout, if_true, Option.map_some, slotEnd, ← hisn]

/-- Two receivers whose reassemblers are twins. -/
structure Twins (t t' : TCPReceiver) : Prop where
  reassembler : t.reassembler.Twins t'.reassembler
  isn : t'.isn = t.isn

theorem Twins.observe {t t' : TCPReceiver} (h : Twins t t') : t'.observe = t.observe := by
  have hout : t'.streamOut = t.streamOut := h.reassembler.output
  have habs : t'.absAckno = t.absAckno := by rw [absAckno, absAckno, hout]
  have hun : t'.unassembledBytes = t.unassembledBytes := h.reassembler.unassembledBytes
  simp only [TCPReceiver.observe, ackno, windowSize, hout, habs, hun, h.isn]

/-- Twins move together. -/
theorem Twins.step {t t' : TCPReceiver} (h : Twins t t') {e : ReceiverEvent}
    (he : MachineSegment e) :
    ∃ u u', t.step e = some u ∧ t'.step e = some u' ∧
      (u.streamOut.bytesWritten + 1 < Word.size → Twins u u') := by
  cases e with
  | segment seg =>
    have hafter : t'.isnAfter seg = t.isnAfter seg := by rw [isnAfter, isnAfter, h.isn]
    cases hisn : t.isnAfter seg with
    | none =>
      exact ⟨t, t', by simp [TCPReceiver.step, segmentReceived, hisn],
        by simp [TCPReceiver.step, segmentReceived, hafter, hisn], fun _ => h⟩
    | some isn =>
      have hindex : t'.streamIndex isn seg = t.streamIndex isn seg := by
        simp only [streamIndex, streamOut, h.reassembler.output]
      have hix : t.streamIndex isn seg < Word.size := Word.add_lt _ _
      obtain ⟨q, q', hq, hq', htw⟩ := h.reassembler.push hix he seg.header.fin
      refine ⟨{ t with reassembler := q, isn := some isn },
        { t' with reassembler := q', isn := some isn }, ?_, ?_, fun hB => ⟨htw hB, rfl⟩⟩
      · rw [TCPReceiver.step, segmentReceived_eq hisn, hq, Option.map_some]
      · rw [TCPReceiver.step, segmentReceived_eq (hafter.trans hisn), hindex, hq',
          Option.map_some]
  | read len =>
    exact ⟨_, _, step_read t len, step_read t' len, fun _ => ⟨h.reassembler.pop len, h.isn⟩⟩
  | pop len => exact ⟨_, _, rfl, rfl, fun _ => ⟨h.reassembler.pop len, h.isn⟩⟩

theorem Twins.run {t t' : TCPReceiver} (h : Twins t t') (es : List ReceiverEvent)
    (hes : ∀ e ∈ es, MachineSegment e)
    (hB : ∀ mid u, mid <+: es → Transition.run TCPReceiver.step t mid = some u →
      u.streamOut.bytesWritten + 1 < Word.size) :
    ∃ u u', Transition.run TCPReceiver.step t es = some u ∧
      Transition.run TCPReceiver.step t' es = some u' ∧ Twins u u' := by
  have hstep : ∀ s s' e, Twins s s' → MachineSegment e →
      ∃ u u', s.step e = some u ∧ s'.step e = some u' ∧
        (u.streamOut.bytesWritten + 1 < Word.size → Twins u u') := fun _ _ _ h he => h.step he
  exact run_pair hstep es hes t t' h hB

/-- Without FIN, the segment changes nothing at all. -/
theorem segmentReceived_inSynSlot_noFin {t : TCPReceiver} (ht : Sound t) {seg : TCPSegment}
    (h : t.InSynSlot seg) (hfin : seg.header.fin = false) : t.segmentReceived seg = some t := by
  obtain ⟨f, hf⟩ := ht.assembled
  rw [segmentReceived_inSynSlot h, hfin, StreamReassembler.noteEof]
  simp only [Bool.false_eq_true, if_false, StreamReassembler.checkEof_eq_self hf.ended]

/-- An undisturbed end: the receiver after the segment is a twin of the one before. -/
theorem twins_of_endUndisturbed {t : TCPReceiver} (ht : Sound t) {seg : TCPSegment}
    (h : t.InSynSlot seg) (hend : t.EndUndisturbed seg)
    (hB : seg.header.fin = true → t.streamOut.bytesWritten + 1 < Word.size) :
    ∃ t', t.segmentReceived seg = some t' ∧ Twins t t' := by
  have hrec := segmentReceived_inSynSlot h
  obtain ⟨f, hf⟩ := ht.assembled
  cases hfin : seg.header.fin with
  | false =>
    exact ⟨t, segmentReceived_inSynSlot_noFin ht h hfin, StreamReassembler.Twins.refl hf, rfl⟩
  | true =>
    refine ⟨_, hrec, ?_, rfl⟩
    rw [hfin, StreamReassembler.noteEof]
    simp only [if_true]
    have hends : t.reassembler.SameEnd (t.reassembler.retag true (slotEnd seg)) := by
      rcases hend with hno | hended | ⟨hflag, hindex⟩ | ⟨hdead, hdead'⟩
      · rw [hfin] at hno
        cases hno
      · exact Or.inl hended
      · refine Or.inr fun p _ => ?_
        simp [StreamReassembler.EndsAt, StreamReassembler.retag, hflag, hindex]
      · refine Or.inr fun p hp => ⟨?_, ?_⟩
        · rintro ⟨hflag, rfl⟩
          exact absurd hp (hdead' hflag)
        · rintro ⟨-, hindex⟩
          exact absurd hp (hindex ▸ hdead)
    have hself := StreamReassembler.checkEof_eq_self hf.ended
    have htw := StreamReassembler.twins_checkEof (by rw [hself]; exact hf) hends (hB hfin)
    rwa [hself] at htw

end TCPReceiver

open TCPReceiver in
/-- **A segment without a stream index is ignored**, as long as it does not disturb the end of the
stream.  `t` is any state a receiver can reach.  The segment leaves every observation unchanged,
and after any further segments and reads the observations are those of the run without it.  (With
a FIN, as long as the stream does not fill the whole 64-bit range.) -/
theorem null_segment_ignored (capacity : Nat) (t₀ : TCPReceiver)
    (hnew : TCPReceiver.new capacity = some t₀) (before later : List ReceiverEvent)
    (seg : TCPSegment) (hbefore : ∀ e ∈ before, MachineSegment e)
    (hlater : ∀ e ∈ later, MachineSegment e)
    (t : TCPReceiver) (ht : run TCPReceiver.step t₀ before = some t) (hslot : t.InSynSlot seg)
    (hend : t.EndUndisturbed seg)
    (hsize : seg.header.fin = true → ∀ mid u, mid <+: later →
      run TCPReceiver.step t₀ (before ++ mid) = some u →
      u.streamOut.bytesWritten + 1 < Word.size) :
    (∃ t', t.segmentReceived seg = some t' ∧ t'.observe = t.observe) ∧
    ∃ u u', run TCPReceiver.step t₀ (before ++ later) = some u ∧
      run TCPReceiver.step t₀ (before ++ .segment seg :: later) = some u' ∧
      u'.observe = u.observe := by
  obtain ⟨hc, rfl⟩ := TCPReceiver.new_eq_some hnew
  have hsound : Sound t := by
    obtain ⟨s, hs, hI⟩ := (sound_fresh hc).run before hbefore
    obtain rfl : s = t := Option.some.inj (hs.symm.trans ht)
    exact hI
  obtain ⟨t', hrec, htw⟩ := twins_of_endUndisturbed hsound hslot hend
    (fun hfin => hsize hfin [] t ⟨later, rfl⟩ (by simpa using ht))
  refine ⟨⟨t', hrec, htw.observe⟩, ?_⟩
  have hrun : ∀ mid, run TCPReceiver.step (fresh capacity) (before ++ mid) =
      run TCPReceiver.step t mid := by
    intro mid
    rw [run_append, ht, Option.bind_some]
  have hruns : run TCPReceiver.step (fresh capacity) (before ++ .segment seg :: later) =
      run TCPReceiver.step t' later := by
    rw [hrun, run_cons, TCPReceiver.step, hrec, Option.bind_some]
  rw [hrun, hruns]
  cases hfin : seg.header.fin with
  | false =>
    -- the two runs go through the same states
    obtain rfl : t = t' := Option.some.inj
      ((segmentReceived_inSynSlot_noFin hsound hslot hfin).symm.trans hrec)
    obtain ⟨u, hu, -⟩ := hsound.run later hlater
    exact ⟨u, u, hu, hu, rfl⟩
  | true =>
    obtain ⟨u, u', hu, hu', htw'⟩ := htw.run later hlater
      (fun mid u hmid hu => hsize hfin mid u hmid (by rw [hrun, hu]))
    exact ⟨u, u', hu, hu', htw'.observe⟩

/-- After the SYN and one byte, a bare FIN in the slot of the SYN, then the real end of the
stream. -/
theorem null_segment_ignored_bare_fin :
    ∃ u u', run TCPReceiver.step (TCPReceiver.fresh 4)
        [.segment { header := { seqno := ⟨0⟩, syn := true }, payload := [1] },
          .segment { header := { seqno := ⟨2⟩, fin := true }, payload := [2] }] = some u ∧
      run TCPReceiver.step (TCPReceiver.fresh 4)
        [.segment { header := { seqno := ⟨0⟩, syn := true }, payload := [1] },
          .segment { header := { seqno := ⟨0⟩, fin := true } },
          .segment { header := { seqno := ⟨2⟩, fin := true }, payload := [2] }] = some u' ∧
      u'.observe = u.observe := by
  refine (null_segment_ignored 4 _ rfl
    [.segment { header := { seqno := ⟨0⟩, syn := true }, payload := [1] }]
    [.segment { header := { seqno := ⟨2⟩, fin := true }, payload := [2] }]
    { header := { seqno := ⟨0⟩, fin := true } } (by decide) (by decide) _ rfl
    (by decide) ?_ ?_).2
  · refine Or.inr (Or.inr (Or.inr ⟨?_, ?_⟩))
    · rintro ⟨-, h⟩
      exact absurd h (by decide)
    · intro h
      exact absurd h (by decide)
  · intro _ mid u hmid hu
    rcases mid with _ | ⟨e, mid⟩
    · obtain rfl : _ = u := Option.some.inj hu
      decide
    · obtain ⟨rfl, hnil⟩ := List.cons_prefix_cons.mp hmid
      obtain rfl := List.prefix_nil.mp hnil
      obtain rfl : _ = u := Option.some.inj hu
      decide

/-- A FIN in the slot of the SYN ends the stream: with no byte of the stream received, one payload
byte is enough, and `ackno()` changes. -/
theorem null_fin_ends_input :
    ∃ t t', run TCPReceiver.step (TCPReceiver.fresh 4)
        [.segment { header := { seqno := ⟨0⟩, syn := true } }] = some t ∧
      t.InSynSlot { header := { seqno := ⟨0⟩, fin := true }, payload := [7] } ∧
      t.segmentReceived { header := { seqno := ⟨0⟩, fin := true }, payload := [7] } = some t' ∧
      t.streamOut.inputEnded = false ∧ t'.streamOut.inputEnded = true ∧
      t.ackno = some ⟨1⟩ ∧ t'.ackno = some ⟨2⟩ ∧ t'.observe ≠ t.observe := by
  refine ⟨_, _, rfl, by decide, rfl, by decide, by decide, by decide, by decide, by decide⟩

end Sponge
