import Sponge.TCPReceiver

/-!
# Streams whose input has ended

`ByteStream::write` does not look at `end_write`, so a byte that arrives after the end of the
stream is still written (`late_byte_is_written`).  `endIsFinal_iff` says exactly when the end is
final: as long as no push made after the end brings the byte at index `bytes_written` into an open
window.  The results hold for arbitrary strings, indices and end markers.
-/

namespace Sponge

open PartialStream Transition

namespace StreamReassembler

/-- The arguments of a call are a 64-bit index and a string. -/
def MachineArgs : ReassemblerEvent → Prop
  | .push data index _ => index < Word.size ∧ data.length ≤ maxSize
  | _ => True

instance : (e : ReassemblerEvent) → Decidable (MachineArgs e)
  | .push _ _ _ => inferInstanceAs (Decidable (_ ∧ _))
  | .read _ => isTrue trivial
  | .pop _ => isTrue trivial

/-- The push carries the byte at index `bytes_written`, and the window is open. -/
def Advances (r : StreamReassembler) (data : List UInt8) (index : Nat) : Prop :=
  index ≤ r.output.bytesWritten ∧ r.output.bytesWritten < endIndex index data ∧
    r.output.bytesWritten < r.firstUnacceptable

/-- A push makes progress exactly when it advances. -/
theorem Pushed.bytesWritten_eq_iff {r r' : StreamReassembler} {f : Nat → Option UInt8}
    {data : List UInt8} {index : Nat} {eof : Bool} (hr : Assembled r f)
    (hix : index < Word.size) (hd : data.length ≤ maxSize) (h : Pushed r f data index eof r') :
    r'.output.bytesWritten = r.output.bytesWritten ↔ ¬ r.Advances data index := by
  obtain ⟨bytes, -, hwr, hbytes⟩ := h.written
  have haccept : accept r f data index r.output.bytesWritten = none ↔
      ¬ r.Advances data index := by
    rw [accept, offer_none_iff, Advances]
    simp only [hr.hole, true_and, Nat.le_refl]
    unfold usable
    split
    · rename_i hend
      rw [endIndex_of_lt hend]
      omega
    · -- the end index has wrapped to a value below `index`
      rename_i hend
      rw [endIndex, Word.add_of_le hix (by simp only [maxSize, Word.size_eq] at *; omega)
        (by omega)]
      simp only [List.length_nil, maxSize, Word.size_eq] at *
      omega
  rw [← haccept, hwr]
  constructor
  · intro hlen
    have hnil : bytes.length = 0 := by omega
    have := h.assembled.hole
    rwa [hwr, hnil, Nat.add_zero] at this
  · intro hnone
    by_contra hpos
    have := hbytes 0 (by omega)
    rw [Nat.add_zero, hnone, List.getElem?_eq_getElem (by omega)] at this
    cases this

/-- Every call with machine arguments is defined and keeps the invariant. -/
theorem assembled_step {r : StreamReassembler} {f : Nat → Option UInt8} (hr : Assembled r f)
    {e : ReassemblerEvent} (he : MachineArgs e) :
    ∃ r', r.step e = some r' ∧ ∃ f', Assembled r' f' := by
  cases e with
  | push data index eof =>
    obtain ⟨r', hpush, hspec⟩ := pushSubstring_spec hr (Or.inl he) eof
    exact ⟨r', hpush, _, hspec.assembled⟩
  | read len => exact ⟨_, step_read r len, f, hr.pop len⟩
  | pop len => exact ⟨_, rfl, f, hr.pop len⟩

/-- A list of calls with machine arguments has a run from the constructor, which ends in an
assembled state. -/
theorem assembled_run {capacity : Nat} (hc : capacity ≤ maxSize) (es : List ReassemblerEvent)
    (hes : ∀ e ∈ es, MachineArgs e) :
    ∃ r, run step (fresh capacity) es = some r ∧ ∃ f, Assembled r f :=
  run_total (I := fun r => ∃ f, Assembled r f)
    (fun _ _ ⟨_, hr⟩ (he : MachineArgs _) => assembled_step hr he) es hes _ ⟨_, assembled_fresh hc⟩

/-! ## When the end is final -/

/-- `t` comes after `s` and nothing was added to the stream in between: `bytes_written` and the
end of the input are the same, bytes only left at the front, and a stream at its end stays there. -/
structure NothingAdded (s t : ByteStream) : Prop where
  bytesWritten : t.bytesWritten = s.bytesWritten
  inputEnded : t.inputEnded = s.inputEnded
  bytesRead : s.bytesRead ≤ t.bytesRead
  buffer : t.buffer = s.buffer.drop (t.bytesRead - s.bytesRead)
  eof : s.eof = true → t.eof = true

theorem NothingAdded.refl (s : ByteStream) : NothingAdded s s :=
  ⟨rfl, rfl, Nat.le_refl _, by simp, id⟩

theorem NothingAdded.trans {s t u : ByteStream} (h : NothingAdded s t) (h' : NothingAdded t u) :
    NothingAdded s u := by
  have h1 := h.bytesRead
  have h2 := h'.bytesRead
  refine ⟨h'.bytesWritten.trans h.bytesWritten, h'.inputEnded.trans h.inputEnded, by omega, ?_,
    fun he => h'.eof (h.eof he)⟩
  rw [h'.buffer, h.buffer, List.drop_drop]
  congr 1
  omega

theorem nothingAdded_pop (s : ByteStream) (len : Nat) : NothingAdded s (s.popOutput len) := by
  have hread := s.popOutput_bytesRead len
  refine ⟨s.popOutput_bytesWritten len, s.popOutput_inputEnded len, by omega, ?_,
    s.popOutput_eof len⟩
  have hap := s.removed_append len
  rw [hread, Nat.add_sub_cancel_left]
  conv_rhs => rw [← hap]
  simp

/-- An ended stream and a push that does not advance. -/
theorem nothingAdded_push {r r' : StreamReassembler} {f : Nat → Option UInt8}
    {data : List UInt8} {index : Nat} {eof : Bool} (hr : Assembled r f)
    (hix : index < Word.size) (hd : data.length ≤ maxSize) (h : Pushed r f data index eof r')
    (hended : r.output.inputEnded = true) (hadv : ¬ r.Advances data index) :
    NothingAdded r.output r'.output := by
  have hw := (h.bytesWritten_eq_iff hr hix hd).mpr hadv
  have hended' : r'.output.inputEnded = true := by rw [h.inputEnded, hended, Bool.true_or]
  obtain ⟨bytes, hbuf, hwr, -⟩ := h.written
  have hnil : bytes = [] := List.length_eq_zero_iff.mp (by omega)
  rw [hnil, List.append_nil] at hbuf
  refine ⟨hw, hended'.trans hended.symm, h.bytesRead.ge, by simp [hbuf, h.bytesRead], ?_⟩
  intro heof
  rw [ByteStream.eof_iff] at heof ⊢
  exact ⟨by rw [hbuf]; exact heof.1, hended'⟩

/-- The end of the input is final in the run: from any state in which the input has ended,
nothing is added any more. -/
def EndIsFinal (r₀ : StreamReassembler) (es : List ReassemblerEvent) : Prop :=
  ∀ pre mid post, es = pre ++ mid ++ post → ∀ s t, run step r₀ pre = some s →
    run step s mid = some t → s.output.inputEnded = true → NothingAdded s.output t.output

/-- No push made after the end of the input advances. -/
def NoLateByte (r₀ : StreamReassembler) (es : List ReassemblerEvent) : Prop :=
  ∀ pre data index eof post, es = pre ++ .push data index eof :: post → ∀ s,
    run step r₀ pre = some s → s.output.inputEnded = true → ¬ s.Advances data index

/-- One step from an ended state. -/
theorem nothingAdded_step {r r' : StreamReassembler} {f : Nat → Option UInt8} (hr : Assembled r f)
    {e : ReassemblerEvent} (he : MachineArgs e) (hs : r.step e = some r')
    (hended : r.output.inputEnded = true)
    (hlate : ∀ data index eof, e = .push data index eof → ¬ r.Advances data index) :
    NothingAdded r.output r'.output := by
  cases e with
  | push data index eof =>
    obtain ⟨u, hpush, hspec⟩ := pushSubstring_spec hr (Or.inl he) eof
    obtain rfl : u = r' := Option.some.inj (hpush.symm.trans hs)
    exact nothingAdded_push hr he.1 he.2 hspec hended (hlate data index eof rfl)
  | read len =>
    rw [step_read] at hs
    obtain rfl := Option.some.inj hs
    exact nothingAdded_pop _ len
  | pop len =>
    obtain rfl := Option.some.inj hs
    exact nothingAdded_pop _ len

/-- Exactly the late bytes break the finality of the end. -/
theorem endIsFinal_iff {capacity : Nat} (hc : capacity ≤ maxSize) {es : List ReassemblerEvent}
    (hes : ∀ e ∈ es, MachineArgs e) :
    EndIsFinal (fresh capacity) es ↔ NoLateByte (fresh capacity) es := by
  constructor
  · intro hfinal pre data index eof post heq s hpre hended hadv
    obtain ⟨s', hrun, f, hs⟩ := assembled_run hc pre (fun e he => hes e (by simp [heq, he]))
    obtain rfl : s' = s := Option.some.inj (hrun.symm.trans hpre)
    have hargs : MachineArgs (.push data index eof) := hes _ (by simp [heq])
    obtain ⟨t, hpush, hspec⟩ := pushSubstring_spec hs (Or.inl hargs) eof
    have hadd := hfinal pre [.push data index eof] post (by simp [heq]) s' t hpre
      (by simp [run_cons, step, hpush]) hended
    exact (hspec.bytesWritten_eq_iff hs hargs.1 hargs.2).mp hadd.bytesWritten hadv
  · intro hlate pre mid post heq s t hpre hmid hended
    obtain ⟨s', hrun, hs⟩ := assembled_run hc pre (fun e he => hes e (by simp [heq, he]))
    obtain rfl : s' = s := Option.some.inj (hrun.symm.trans hpre)
    refine run_between (I := fun s => (∃ f, Assembled s f) ∧ s.output.inputEnded = true)
      (R := fun s t => NothingAdded s.output t.output) (fun _ => NothingAdded.refl _)
      (fun _ _ _ h h' => h.trans h') ?_ mid pre post heq s' t hpre ⟨hs, hended⟩ hmid
    rintro pre e post s u heq hpre ⟨⟨f, hs⟩, hended⟩ hu
    have he : MachineArgs e := hes e (by simp [heq])
    have hadd := nothingAdded_step hs he hu hended
      (fun data index eof he' => hlate pre data index eof post (he' ▸ heq) s hpre hended)
    obtain ⟨u', hu', hf'⟩ := assembled_step hs he
    obtain rfl : u' = u := Option.some.inj (hu'.symm.trans hu)
    exact ⟨⟨hf', hadd.inputEnded.trans hended⟩, hadd⟩

end StreamReassembler

/-! ## The receiver's ackno -/

namespace TCPReceiver

/-- A segment whose payload is a string. -/
def MachineSegment : ReceiverEvent → Prop
  | .segment seg => seg.payload.length ≤ maxSize
  | _ => True

instance : (e : ReceiverEvent) → Decidable (MachineSegment e)
  | .segment _ => inferInstanceAs (Decidable (_ ≤ _))
  | .read _ => isTrue trivial
  | .pop _ => isTrue trivial

/-- The invariant of arbitrary receiver runs. -/
structure Sound (t : TCPReceiver) : Prop where
  assembled : ∃ f, t.reassembler.Assembled f
  listen : t.isn = none → t.streamOut.inputEnded = false

theorem sound_fresh {capacity : Nat} (hc : capacity ≤ maxSize) : Sound (fresh capacity) :=
  ⟨⟨_, StreamReassembler.assembled_fresh hc⟩, fun _ => rfl⟩

/-- After the SYN a segment is a push; the initial sequence number stays. -/
theorem segmentReceived_pushed {t : TCPReceiver} {f : Nat → Option UInt8}
    (hf : t.reassembler.Assembled f) {seg : TCPSegment} (hseg : seg.payload.length ≤ maxSize)
    {isn : WrappingInt32} (hisn : t.isnAfter seg = some isn) :
    ∃ r, t.segmentReceived seg = some { t with reassembler := r, isn := some isn } ∧
      StreamReassembler.Pushed t.reassembler f seg.payload (t.streamIndex isn seg)
        seg.header.fin r := by
  obtain ⟨r, hpush, hspec⟩ := StreamReassembler.pushSubstring_spec hf
    (Or.inl ⟨Word.add_lt _ _, hseg⟩) seg.header.fin
  exact ⟨r, by rw [segmentReceived_eq hisn, streamIndex, hpush, Option.map_some], hspec⟩

theorem sound_step {t : TCPReceiver} (h : Sound t) {e : ReceiverEvent} (he : MachineSegment e) :
    ∃ t', t.step e = some t' ∧ Sound t' := by
  obtain ⟨f, hf⟩ := h.assembled
  have hpop : ∀ len, Sound (t.popStream len) := fun len =>
    ⟨⟨f, hf.pop len⟩, fun hn => (t.reassembler.output.popOutput_inputEnded len).trans (h.listen hn)⟩
  cases e with
  | segment seg =>
    cases hisn : t.isnAfter seg with
    | none => exact ⟨t, by simp [step, segmentReceived, hisn], h⟩
    | some isn =>
      obtain ⟨r, hrec, hspec⟩ := segmentReceived_pushed hf he hisn
      exact ⟨_, hrec, ⟨_, hspec.assembled⟩, fun hn => by cases hn⟩
  | read len => exact ⟨_, step_read t len, hpop len⟩
  | pop len => exact ⟨_, rfl, hpop len⟩

/-- Every list of segments and reads has a run. -/
theorem Sound.run {t : TCPReceiver} (h : Sound t) (es : List ReceiverEvent)
    (hes : ∀ e ∈ es, MachineSegment e) :
    ∃ u, Transition.run TCPReceiver.step t es = some u ∧ Sound u :=
  run_total (fun _ _ hs (he : MachineSegment _) => sound_step hs he) es hes t h

/-- Once the input has ended, no event changes `ackno()`. -/
def AcknoIsFinal (t₀ : TCPReceiver) (es : List ReceiverEvent) : Prop :=
  ∀ pre mid post, es = pre ++ mid ++ post → ∀ s t, run step t₀ pre = some s →
    run step s mid = some t → s.streamOut.inputEnded = true → t.ackno = s.ackno

/-- No segment that arrives after the end of the input carries the byte at index
`bytes_written` into an open window. -/
def NoLateSegment (t₀ : TCPReceiver) (es : List ReceiverEvent) : Prop :=
  ∀ pre seg post, es = pre ++ .segment seg :: post → ∀ s isn, run step t₀ pre = some s →
    s.streamOut.inputEnded = true → s.isn = some isn →
    ¬ s.reassembler.Advances seg.payload (s.streamIndex isn seg)

/-- One step of a receiver whose input has ended. -/
theorem nothingAdded_step {t t' : TCPReceiver} (h : Sound t) {e : ReceiverEvent}
    (he : MachineSegment e) (hs : t.step e = some t') (hended : t.streamOut.inputEnded = true)
    (hlate : ∀ seg isn, e = .segment seg → t.isn = some isn →
      ¬ t.reassembler.Advances seg.payload (t.streamIndex isn seg)) :
    StreamReassembler.NothingAdded t.streamOut t'.streamOut ∧ t'.isn = t.isn := by
  obtain ⟨f, hf⟩ := h.assembled
  cases e with
  | segment seg =>
    cases hisn : t.isn with
    | none => exact absurd hended (by simp [h.listen hisn])
    | some isn =>
      obtain ⟨r, hrec, hspec⟩ := segmentReceived_pushed hf he (isnAfter_of_some hisn)
      obtain rfl := Option.some.inj (hrec.symm.trans hs)
      exact ⟨StreamReassembler.nothingAdded_push hf (Word.add_lt _ _) he hspec hended
        (hlate seg isn rfl hisn), rfl⟩
  | read len =>
    rw [step_read] at hs
    obtain rfl := Option.some.inj hs
    exact ⟨StreamReassembler.nothingAdded_pop _ len, rfl⟩
  | pop len =>
    obtain rfl := Option.some.inj hs
    exact ⟨StreamReassembler.nothingAdded_pop _ len, rfl⟩

theorem acknoIsFinal_of_noLateSegment {capacity : Nat} (hc : capacity ≤ maxSize)
    {es : List ReceiverEvent} (hes : ∀ e ∈ es, MachineSegment e)
    (hlate : NoLateSegment (fresh capacity) es) : AcknoIsFinal (fresh capacity) es := by
  intro pre mid post heq s t hpre hmid hended
  obtain ⟨s', hrun, hs⟩ := (sound_fresh hc).run pre (fun e he => hes e (by simp [heq, he]))
  obtain rfl : s' = s := Option.some.inj (hrun.symm.trans hpre)
  have hR := run_between (I := fun s => Sound s ∧ s.streamOut.inputEnded = true)
    (R := fun s t => StreamReassembler.NothingAdded s.streamOut t.streamOut ∧ t.isn = s.isn)
    (fun s => ⟨StreamReassembler.NothingAdded.refl _, rfl⟩)
    (fun s t u h h' => ⟨h.1.trans h'.1, h'.2.trans h.2⟩) ?_ mid pre post heq s' t hpre
    ⟨hs, hended⟩ hmid
  · simp only [ackno, absAckno, hR.1.bytesWritten, hR.1.inputEnded, hR.2]
  · rintro pre e post s u heq hpre ⟨hs, hended⟩ hu
    have he : MachineSegment e := hes e (by simp [heq])
    have hadd := nothingAdded_step hs he hu hended
      (fun seg isn he' hisn => hlate pre seg post (he' ▸ heq) s isn hpre hended hisn)
    obtain ⟨u', hu', hsound⟩ := sound_step hs he
    obtain rfl : u' = u := Option.some.inj (hu'.symm.trans hu)
    exact ⟨⟨hsound, hadd.1.inputEnded.trans hended⟩, hadd⟩

end TCPReceiver

open StreamReassembler TCPReceiver in
/-- **When an ended stream is final.**  Every run is defined.  The end of the input is final in a
run of the reassembler exactly when no push made after the end advances, and then, in a run of the
receiver, no further segment changes `ackno()`. -/
theorem ended_stream_final (capacity : Nat) (r₀ : StreamReassembler)
    (hr : StreamReassembler.new capacity = some r₀) (t₀ : TCPReceiver)
    (ht : TCPReceiver.new capacity = some t₀) :
    (∀ es, (∀ e ∈ es, MachineArgs e) → (run StreamReassembler.step r₀ es).isSome ∧
      (EndIsFinal r₀ es ↔ NoLateByte r₀ es)) ∧
    (∀ es, (∀ e ∈ es, MachineSegment e) → (run TCPReceiver.step t₀ es).isSome ∧
      (NoLateSegment t₀ es → AcknoIsFinal t₀ es)) := by
  obtain ⟨hc, rfl⟩ := StreamReassembler.new_eq_some hr
  obtain ⟨-, rfl⟩ := TCPReceiver.new_eq_some ht
  refine ⟨fun es hes => ⟨?_, endIsFinal_iff hc hes⟩,
    fun es hes => ⟨?_, acknoIsFinal_of_noLateSegment hc hes⟩⟩
  · obtain ⟨r, hrun, -⟩ := assembled_run hc es hes
    rw [hrun]
    rfl
  · obtain ⟨t, hrun, -⟩ := (sound_fresh hc).run es hes
    rw [hrun]
    rfl

/-- The last segment of a one-byte stream arrives twice: the end stays final. -/
theorem ended_stream_final_duplicate :
    StreamReassembler.EndIsFinal (StreamReassembler.fresh 2)
      [.push [1] 0 true, .push [1] 0 true] := by
  have hiff := ((ended_stream_final 2 _ rfl _ rfl).1
    [.push [1] 0 true, .push [1] 0 true] (by decide)).2
  refine hiff.mpr ?_
  intro pre data index eof post heq s hpre hended
  rcases pre with _ | ⟨a, _ | ⟨b, pre⟩⟩
  · -- before the first push the input has not ended
    obtain rfl : _ = s := Option.some.inj hpre
    exact absurd hended (by decide)
  · simp only [List.cons_append, List.nil_append, List.cons.injEq,
      ReassemblerEvent.push.injEq] at heq
    obtain ⟨rfl, ⟨rfl, rfl, rfl⟩, -⟩ := heq
    obtain rfl : _ = s := Option.some.inj hpre
    rintro ⟨-, h, -⟩
    exact absurd h (by decide)
  · simp at heq

/-- A byte pushed after the end is written: a stream at its end is no longer at its end, and the
receiver's ackno moves past the FIN. -/
theorem late_byte_is_written :
    ¬ StreamReassembler.EndIsFinal (StreamReassembler.fresh 2)
        [.push [1] 0 true, .read 1, .push [2] 1 false] ∧
    ¬ TCPReceiver.AcknoIsFinal (TCPReceiver.fresh 2)
        [.segment { header := { seqno := ⟨0⟩, syn := true, fin := true }, payload := [1] },
          .segment { header := { seqno := ⟨2⟩ }, payload := [2] }] := by
  constructor
  · intro h
    have hadd := h [.push [1] 0 true, .read 1] [.push [2] 1 false] [] rfl _ _ rfl rfl (by decide)
    exact absurd (hadd.eof (by decide)) (by decide)
  · intro h
    have hack := h
      [.segment { header := { seqno := ⟨0⟩, syn := true, fin := true }, payload := [1] }]
      [.segment { header := { seqno := ⟨2⟩ }, payload := [2] }] [] rfl _ _ rfl rfl (by decide)
    exact absurd hack (by decide)

end Sponge
