import Sponge.Progress
import Sponge.Rearrangement
import Sponge.SenderPhases

/-!
# The stages of a connection

`TCPState::state_summary` looks at one end only.  Taken together, the summaries of a sender and of
the receiver it talks to are one of seven pairs, whatever the network does, and no event skips a
pair or goes back (`stages_in_order`).  For example, a sender whose stream is going on has a
receiver that has seen the SYN and no end, and a receiver whose input has ended has a sender that
has sent the FIN.  In the last stage the connection is silent (`finished_is_silent`).
-/

namespace Sponge

open TCPSender Tiling Transition

def TCPReceiverStateSummary.rank : TCPReceiverStateSummary → Nat
  | .listen => 0
  | .synRecv => 1
  | .finRecv => 2
  | .error => 3

/-- The summaries of the two ends, in the order in which they follow each other. -/
def stages : List (TCPSenderStateSummary × TCPReceiverStateSummary) :=
  [(.closed, .listen), (.synSent, .listen), (.synSent, .synRecv), (.synAcked, .synRecv),
    (.finSent, .synRecv), (.finSent, .finRecv), (.finAcked, .finRecv)]

def System.summaries (c : System) : TCPSenderStateSummary × TCPReceiverStateSummary :=
  (c.tx.sender.stateSummary, c.rx.stateSummary)

/-- The reader asks only for bytes that are there. -/
def System.Polite (c : System) : SystemEvent → Prop
  | .read len => len ≤ c.rx.streamOut.bufferSize
  | .pop len => len ≤ c.rx.streamOut.bufferSize
  | _ => True

instance (c : System) : (e : SystemEvent) → Decidable (c.Polite e)
  | .read _ => inferInstanceAs (Decidable (_ ≤ _))
  | .pop _ => inferInstanceAs (Decidable (_ ≤ _))
  | .sender _ => isTrue trivial
  | .ack _ => isTrue trivial
  | .deliver _ _ => isTrue trivial

/-! ## The receiver -/

namespace TCPReceiver

variable {t t' : TCPReceiver}

/-- What a receiver shows is not 0. -/
theorem shows_pos {a : Shown} (h : a ∈ t.shows) : 0 < a.absAckno := by
  cases hisn : t.isn with
  | none => simp [shows, ackno, hisn] at h
  | some isn =>
    rw [absAckno_of_shows h, currentAck_of_some hisn]
    exact Nat.lt_of_lt_of_le (Nat.succ_pos _) (Nat.le_add_right _ _)

theorem popStream_error {len : Nat} (h : len ≤ t.streamOut.bufferSize) :
    (t.popStream len).streamOut.error = t.streamOut.error := by
  change (t.streamOut.popOutput len).error = _
  rw [ByteStream.popOutput, dif_pos (show len ≤ t.streamOut.buffer.length from h)]
  rfl

theorem segmentReceived_error (h : Sound t) {seg : TCPSegment}
    (hseg : seg.payload.length ≤ maxSize) (hs : t.segmentReceived seg = some t') :
    t'.streamOut.error = t.streamOut.error := by
  obtain ⟨f, hf⟩ := h.assembled
  cases hisn : t.isnAfter seg with
  | none =>
    obtain rfl : t = t' := by simpa [segmentReceived, hisn] using hs
    rfl
  | some isn =>
    rw [segmentReceived_eq hisn, Option.map_eq_some_iff] at hs
    obtain ⟨r, hpush, rfl⟩ := hs
    exact (StreamReassembler.pushSubstring_reader hf.toWindow (Or.inl ⟨Word.add_lt _ _, hseg⟩)
      hpush).1

/-- The summary of a receiver without an error. -/
theorem stateSummary_eq (h : t.streamOut.error = false) :
    t.stateSummary = if t.isn = none then .listen
      else if t.streamOut.inputEnded then .finRecv else .synRecv := by
  rw [stateSummary, h, if_neg Bool.false_ne_true, ackno, Option.isNone_map]
  cases t.isn <;> rfl

/-- A receiver that does not forget the SYN and the end, and does not learn of both at once, goes on
by at most one state. -/
theorem stateSummary_rank_step (herror : t.streamOut.error = false)
    (herror' : t'.streamOut.error = false) (hisn : t.isn ≠ none → t'.isn ≠ none)
    (hended : t.streamOut.inputEnded = true → t'.streamOut.inputEnded = true)
    (hskip : t.isn = none → ¬ t'.streamOut.inputEnded = true) :
    t'.stateSummary.rank = t.stateSummary.rank ∨
      t'.stateSummary.rank = t.stateSummary.rank + 1 := by
  rw [stateSummary_eq herror, stateSummary_eq herror']
  by_cases hnone : t.isn = none
  · rw [if_pos hnone, if_neg (hskip hnone)]
    by_cases hnone' : t'.isn = none
    · rw [if_pos hnone']
      exact Or.inl rfl
    · rw [if_neg hnone']
      exact Or.inr rfl
  · rw [if_neg hnone, if_neg (hisn hnone)]
    by_cases hend : t.streamOut.inputEnded = true
    · rw [if_pos hend, if_pos (hended hend)]
      exact Or.inl rfl
    · rw [if_neg hend]
      by_cases hend' : t'.streamOut.inputEnded = true
      · rw [if_pos hend']
        exact Or.inr rfl
      · rw [if_neg hend']
        exact Or.inl rfl

end TCPReceiver

/-! ## The sender -/

/-- No event both sends something new and retires something. -/
theorem TCPSender.Moved.keeps_one {s s' : TCPSender} {e : SenderEvent} (h : Moved s e s') :
    s'.receiverAck = s.receiverAck ∨ s'.nextSeqnoAbsolute = s.nextSeqnoAbsolute := by
  cases h with
  | write data => exact Or.inl rfl
  | endInput => exact Or.inl rfl
  | filled hem _ => exact Or.inl (hem.unchanged Emitted.receiverAck)
  | rejected _ => exact Or.inl rfl
  | acked _ hacked => exact Or.inr hacked.next
  | waited hun _ => exact Or.inr hun.next
  | resent hun _ _ => exact Or.inr hun.next
  | empty hun _ => exact Or.inr hun.next

namespace System

variable {isn : WrappingInt32} {cap : Nat} {c c' : System} {e : SystemEvent}

/-! ## The opening -/

/-- Until something is acknowledged only the SYN is sent. -/
structure Opened (isn : WrappingInt32) (cap : Nat) (c : System) : Prop where
  live : Live isn cap c
  shown : ∀ a ∈ c.shown, 0 < a.absAckno
  opening : c.tx.sender.receiverAck = 0 →
    c.tx.sender.receiverWindowSize = 1 ∧ c.tx.sender.nextSeqnoAbsolute ≤ 1

theorem opened_new {sendCapacity : Nat} {retxTimeout : UInt16}
    (h : new sendCapacity retxTimeout isn cap = some c) : Opened isn cap c := by
  have hlive := live_new h
  obtain ⟨rx, hrx, rfl⟩ := Option.map_eq_some_iff.mp h
  obtain ⟨-, rfl⟩ := TCPReceiver.new_eq_some hrx
  exact ⟨hlive, fun _ ha => (List.not_mem_nil ha).elim, fun _ => ⟨rfl, Nat.zero_le _⟩⟩

/-- A step of the sender in which nothing but a shown number is acknowledged. -/
theorem Opened.opening_step (h : Opened isn cap c) {e : SenderEvent} {s' : TCPSender}
    (hs : c.tx.sender.step e = some s')
    (hack : ∀ ackno w, e = .ackReceived ackno w →
      ∃ a, 0 < a ∧ ackno = wrap a isn ∧ c.tx.sender.nextSeqnoAbsolute ≤ a + 2 ^ 31 ∧
        a ≤ c.tx.sender.nextSeqnoAbsolute) :
    s'.receiverAck = 0 → s'.receiverWindowSize = 1 ∧ s'.nextSeqnoAbsolute ≤ 1 := by
  have hq := h.live.joint.sending.queue
  have hnear := small_near h.live.joint.small hq
  have hlt := h.live.joint.small.next
  intro hzero
  obtain ⟨-, hle, -⟩ := hq.moved hnear (by omega) (moved_of_step hq.toWellFormed hs)
  obtain ⟨hwin, hnext⟩ := h.opening (by omega)
  cases e with
  | fillWindow =>
    have hsize : c.tx.sender.windowSize = 1 := by rw [windowSize, hwin]; rfl
    have hin := fillWindow_inside hq.toWellFormed hs (by omega)
    refine ⟨?_, by omega⟩
    obtain ⟨u, news, hfill, hem, -⟩ := fillWindow_spec c.tx.sender
    obtain rfl : u = s' := Option.some.inj (hfill.symm.trans hs)
    exact (hem.unchanged Emitted.receiverWindowSize).trans hwin
  | ackReceived ackno w =>
    obtain rfl := Option.some.inj hs
    obtain ⟨a, hpos, rfl, ha, ha'⟩ := hack ackno w rfl
    exfalso
    cases hout : c.tx.sender.outstandingSegments with
    | nil =>
      have := hq.ack_eq_next hout
      omega
    | cons seg rest =>
      -- the number acknowledges the SYN
      have hend := (h.live.joint.sending.oldest hout).2
      have := hq.ackReceived_lt hnear (by omega) hout (a := a) (by omega) ha' w
      omega
  | tick ms =>
    cases moved_of_step hq.toWellFormed hs with
    | waited hun _ => exact ⟨hun.receiverWindowSize.trans hwin, hun.next.trans_le hnext⟩
    | resent hun _ _ => exact ⟨hun.receiverWindowSize.trans hwin, hun.next.trans_le hnext⟩
  | _ =>
    obtain rfl := Option.some.inj hs
    exact ⟨hwin, hnext⟩

theorem Opened.sender_step (h : Opened isn cap c) {e : SenderEvent}
    (hs : (c.tx.step e).map (fun tx => { c with tx }) = some c') (hlive : Live isn cap c')
    (hack : ∀ ackno w, e = .ackReceived ackno w →
      ∃ a, 0 < a ∧ ackno = wrap a isn ∧ c.tx.sender.nextSeqnoAbsolute ≤ a + 2 ^ 31 ∧
        a ≤ c.tx.sender.nextSeqnoAbsolute) : Opened isn cap c' := by
  obtain ⟨tx, htx, rfl⟩ := Option.map_eq_some_iff.mp hs
  obtain ⟨s', hs', rfl⟩ := Option.map_eq_some_iff.mp htx
  refine ⟨hlive, h.shown, ?_⟩
  rw [Traced.record_sender]
  exact h.opening_step hs' hack

theorem opened_step (h : Opened isn cap c) (hs : c.step e = some c') (ha : c.Assumed e c') :
    Opened isn cap c' := by
  have hlive := live_step h.live hs ha
  have hreach := (inRange_of_assumed h.live.joint hs ha).2
  have hshown : ∀ rx : TCPReceiver, ∀ a ∈ c.shown ++ rx.shows, 0 < a.absAckno := fun rx a ha =>
    (List.mem_append.mp ha).elim (h.shown a) TCPReceiver.shows_pos
  cases e with
  | sender e =>
    refine h.sender_step hs hlive fun ackno w heq => ?_
    rw [heq] at ha
    exact ha.1.elim
  | ack a =>
    rw [step] at hs
    refine h.sender_step hs hlive fun ackno w heq => ?_
    obtain ⟨rfl, -⟩ := SenderEvent.ackReceived.inj heq
    obtain ⟨hwrap, hcur⟩ := h.live.joint.shown a ha.1
    exact ⟨a.absAckno, h.shown a ha.1, hwrap, hreach.1,
      hcur.trans (h.live.joint.receiving.currentAck_le h.live.joint.sending.cuts)⟩
  | deliver p seg =>
    rw [step, Option.map_eq_some_iff] at hs
    obtain ⟨rx, -, rfl⟩ := hs
    exact ⟨hlive, hshown rx, h.opening⟩
  | read len =>
    rw [step, TCPReceiver.step_read] at hs
    obtain rfl := Option.some.inj hs
    exact ⟨hlive, hshown _, h.opening⟩
  | pop len =>
    obtain rfl := Option.some.inj hs
    exact ⟨hlive, hshown _, h.opening⟩

/-- Only a reader that asks for too much makes an error. -/
theorem reader_step (h : Joint isn c) (hs : c.step e = some c') (hp : c.Permitted e)
    (hpolite : c.Polite e) : c'.rx.streamOut.error = c.rx.streamOut.error := by
  cases e with
  | deliver p seg =>
    rw [step, Option.map_eq_some_iff] at hs
    obtain ⟨rx, hrx, rfl⟩ := hs
    exact TCPReceiver.segmentReceived_error h.receiving.sound (h.payload_le hp) hrx
  | read len =>
    rw [step, TCPReceiver.step_read] at hs
    obtain rfl := Option.some.inj hs
    exact TCPReceiver.popStream_error hpolite
  | pop len =>
    obtain rfl := Option.some.inj hs
    exact TCPReceiver.popStream_error hpolite
  | _ =>
    rw [step, Option.map_eq_some_iff] at hs
    obtain ⟨tx, -, rfl⟩ := hs
    rfl

/-! ## Where the two ends can be -/

/-- What the two ends know of each other: numbers of the sender, initial sequence number and end of
the receiver. -/
structure InTouch (c : System) : Prop where
  syn : c.rx.isn ≠ none → c.tx.sender.nextSeqnoAbsolute ≠ 0
  synAcked : c.tx.sender.receiverAck ≠ 0 → c.rx.isn ≠ none
  ended : c.rx.streamOut.inputEnded = true → c.tx.sender.setFinFlag = true ∧ c.rx.isn ≠ none
  fin : c.tx.sender.setFinFlag = true → 2 ≤ c.tx.sender.nextSeqnoAbsolute
  finAcked : c.tx.sender.setFinFlag = true →
    c.tx.sender.receiverAck = c.tx.sender.nextSeqnoAbsolute → c.rx.streamOut.inputEnded = true
  opening : c.tx.sender.receiverAck = 0 → c.tx.sender.nextSeqnoAbsolute ≤ 1
  ack_le : c.tx.sender.receiverAck ≤ c.tx.sender.nextSeqnoAbsolute

theorem Opened.inTouch (h : Opened isn cap c) : InTouch c := by
  have hjoint := h.live.joint
  have hcuts := hjoint.sending.cuts
  have hack := hjoint.ack
  refine ⟨hjoint.receiving.syn, fun hne => ?_, fun hended => ⟨?_, fun hnone => ?_⟩, fun hfin => ?_,
    fun hfin hall => ?_, fun hzero => (h.opening hzero).2, hjoint.sending.queue.ack_le⟩
  · obtain ⟨isn', hisn⟩ := TCPReceiver.isn_of_pos (show 0 < c.rx.currentAck by omega)
    simp [hisn]
  · obtain ⟨f, hf, -⟩ := hjoint.receiving.follows
    exact hjoint.receiving.fin (hf.inputEnded.mp hended).1
  · exact Bool.false_ne_true ((hjoint.receiving.listen hnone).symm.trans hended)
  · have := (hcuts.setFinFlag_iff.mp hfin).2
    omega
  · -- two numbers more than there are bytes are acknowledged
    by_contra hopen
    have hlong := (hcuts.setFinFlag_iff.mp hfin).2
    have hcur := c.rx.currentAck_le_absAckno
    have hw := hjoint.receiving.bytesWritten_le
    have hbal := c.tx.sender.stream.bytesWritten_eq
    rw [TCPReceiver.absAckno, if_neg hopen] at hcur
    omega

theorem Opened.summaries_eq (h : Opened isn cap c) (hreader : c.rx.streamOut.error = false) :
    c.summaries = (c.tx.sender.phase, if c.rx.isn = none then .listen
      else if c.rx.streamOut.inputEnded then .finRecv else .synRecv) := by
  have hjoint := h.live.joint
  rw [summaries, stateSummary_eq_phase h.live.error
    (bytesInFlight_eq hjoint.sending.queue.toWellFormed) hjoint.sending.queue.ack_le
    hjoint.sending.cuts.setFinFlag_iff, TCPReceiver.stateSummary_eq hreader]

/-- The place of the two ends among the stages. -/
def stage (c : System) : Nat := c.summaries.1.rank + c.summaries.2.rank

theorem Opened.stage_eq (h : Opened isn cap c) (hreader : c.rx.streamOut.error = false) :
    c.stage = c.tx.sender.phase.rank + c.rx.stateSummary.rank := by
  have hphase := congrArg Prod.fst (h.summaries_eq hreader)
  rw [stage, hphase]
  rfl

/-- **The two ends are at one of the stages.** -/
theorem Opened.at_stage (h : Opened isn cap c) (hreader : c.rx.streamOut.error = false) :
    stages[c.stage]? = some c.summaries := by
  obtain ⟨hsyn, hsynAcked, hended, hfin, hfinAcked, hopening, hle⟩ := h.inTouch
  rw [stage, h.summaries_eq hreader]
  by_cases hisn : c.rx.isn = none
  · -- nothing is acknowledged
    have hzero : c.tx.sender.receiverAck = 0 := by
      by_contra hne
      exact hsynAcked hne hisn
    rw [phase, if_pos hisn]
    split_ifs <;> rfl
  · have hnext := hsyn hisn
    cases hend : c.rx.streamOut.inputEnded with
    | true =>
      obtain ⟨hf, -⟩ := hended hend
      have hpos : c.tx.sender.receiverAck ≠ 0 := fun hzero => by
        have := hfin hf
        have := hopening hzero
        omega
      rw [phase_after_fin hf, if_neg hnext, if_neg hpos, if_neg hisn, if_pos rfl]
      split_ifs <;> rfl
    | false =>
      rw [if_neg hisn, if_neg Bool.false_ne_true]
      cases hf : c.tx.sender.setFinFlag with
      | true =>
        have hne : c.tx.sender.receiverAck ≠ c.tx.sender.nextSeqnoAbsolute := fun heq => by
          simp [hfinAcked hf heq] at hend
        rw [phase_after_fin hf, if_neg hnext, if_pos hne]
        split_ifs <;> rfl
      | false =>
        rw [phase_before_fin hf, if_neg hnext]
        split_ifs <;> rfl

/-- A step of the sender goes on by at most one state. -/
theorem InTouch.phase_le (h : InTouch c) (h' : InTouch c') (hrx : c'.rx = c.rx)
    (hone : c'.tx.sender.receiverAck = c.tx.sender.receiverAck ∨
      c'.tx.sender.nextSeqnoAbsolute = c.tx.sender.nextSeqnoAbsolute) :
    c'.tx.sender.phase.rank ≤ c.tx.sender.phase.rank + 1 := by
  have hsynAcked' := h'.synAcked
  have hfinAcked' := h'.finAcked
  rw [hrx] at hsynAcked' hfinAcked'
  have hopening := h.opening
  have hopening' := h'.opening
  have hfin' := h'.fin
  -- nothing is acknowledged before the SYN is out
  have hclosed : c.tx.sender.nextSeqnoAbsolute = 0 → c'.tx.sender.receiverAck = 0 := by
    intro hzero
    by_contra hne
    exact h.syn (hsynAcked' hne) hzero
  -- the FIN is not acknowledged in the step that sends it
  have hfinSent : c.tx.sender.setFinFlag = false → c'.tx.sender.setFinFlag = true →
      c'.tx.sender.receiverAck ≠ c'.tx.sender.nextSeqnoAbsolute := by
    intro hf hf' hall
    simp [(h.ended (hfinAcked' hf' hall)).1] at hf
  cases hf' : c'.tx.sender.setFinFlag with
  | true =>
    have hlong := hfin' hf'
    rw [phase_after_fin hf']
    cases hf : c.tx.sender.setFinFlag with
    | true =>
      rw [phase_after_fin hf]
      split_ifs <;> simp only [TCPSenderStateSummary.rank] <;> omega
    | false =>
      have hne := hfinSent hf hf'
      rw [phase_before_fin hf]
      split_ifs <;> simp only [TCPSenderStateSummary.rank] <;> omega
  | false =>
    rw [phase_before_fin hf', phase]
    split_ifs <;> simp only [TCPSenderStateSummary.rank] <;> omega

/-- **No event skips a stage or goes back.** -/
theorem Opened.stage_step (h : Opened isn cap c) (hreader : c.rx.streamOut.error = false)
    (hs : c.step e = some c') (ha : c.Assumed e c') (hp : c.Polite e) :
    c'.stage = c.stage ∨ c'.stage = c.stage + 1 := by
  have h' := opened_step h hs ha
  have hreader' := (reader_step h.live.joint hs ha.1 hp).trans hreader
  have htouch := h.inTouch
  have htouch' := h'.inTouch
  have hjoint := h.live.joint
  rw [h.stage_eq hreader, h'.stage_eq hreader']
  rcases step_cases hjoint ha.1 hs with ⟨e', tx, htx, rfl, -⟩ | ⟨e', rx, bytes, hrx, rfl, he, -⟩
  · have hlt := hjoint.small.next
    have hq := hjoint.sending.queue
    obtain ⟨s', hmv, rfl⟩ := Traced.step_eq hq.toWellFormed htx
    obtain ⟨hq', hack, hnext⟩ := hq.moved (small_near hjoint.small hq) (by omega) hmv
    have hup := htouch.phase_le htouch' rfl (by rw [Traced.record_sender]; exact hmv.keeps_one)
    have hlow := phase_rank_le hq'.ack_le hack hnext hmv.after_fin
    rw [Traced.record_sender] at hup ⊢
    dsimp only
    omega
  · have hended := (TCPReceiver.step_reader hjoint.receiving.sound he hrx).2.2
    have hup := TCPReceiver.stateSummary_rank_step hreader hreader'
      (fun hne => by
        obtain ⟨isn', hisn⟩ := Option.ne_none_iff_exists'.mp hne
        exact Option.ne_none_iff_exists'.mpr ⟨isn', TCPReceiver.step_isn hisn hrx⟩)
      hended (fun hisn hend => ?_)
    · change c.tx.sender.phase.rank + rx.stateSummary.rank = _ ∨
        c.tx.sender.phase.rank + rx.stateSummary.rank = _
      change rx.stateSummary.rank = _ ∨ rx.stateSummary.rank = _ at hup
      omega
    · -- the end is not known in the step that brings the SYN
      have hlong := htouch.fin (htouch'.ended hend).1
      refine htouch.synAcked (fun hzero => ?_) hisn
      have := htouch.opening hzero
      omega

end System

/-- **The stages come in order.**  In every state of the composed system whose reader asks only for
bytes that are there, the summaries of the sender and of the receiver are one of the seven stages,
and whatever is assumed to happen next they stay the same or become the next stage. -/
theorem stages_in_order (sendCapacity : Nat) (retxTimeout : UInt16) (isn : WrappingInt32)
    (recvCapacity : Nat) (c₀ : System)
    (hnew : System.new sendCapacity retxTimeout isn recvCapacity = some c₀)
    (es : List SystemEvent) (c : System)
    (hp : Path System.step (fun c e c' => c.Assumed e c' ∧ c.Polite e) c₀ es c) :
    stages[0]? = some c₀.summaries ∧
    ∃ i, stages[i]? = some c.summaries ∧
      ∀ e c', c.step e = some c' → c.Assumed e c' → c.Polite e →
        stages[i]? = some c'.summaries ∨ stages[i + 1]? = some c'.summaries := by
  have hstep : ∀ c e c', System.Opened isn recvCapacity c ∧ c.rx.streamOut.error = false →
      System.step c e = some c' → c.Assumed e c' → c.Polite e →
      System.Opened isn recvCapacity c' ∧ c'.rx.streamOut.error = false :=
    fun c e c' h hs ha hpolite => ⟨System.opened_step h.1 hs ha,
      (System.reader_step h.1.live.joint hs ha.1 hpolite).trans h.2⟩
  have hfirst : c₀.rx.streamOut.error = false ∧ stages[0]? = some c₀.summaries := by
    obtain ⟨rx, hrx, rfl⟩ := Option.map_eq_some_iff.mp hnew
    obtain ⟨-, rfl⟩ := TCPReceiver.new_eq_some hrx
    exact ⟨rfl, rfl⟩
  have h := hp.invariant (I := fun c => System.Opened isn recvCapacity c ∧
      c.rx.streamOut.error = false) ⟨System.opened_new hnew, hfirst.1⟩
    fun _ _ _ h hs ha => hstep _ _ _ h hs ha.1 ha.2
  refine ⟨hfirst.2, c.stage, h.1.at_stage h.2, fun e c' hs ha hpolite => ?_⟩
  obtain ⟨hopened, hreader⟩ := hstep c e c' h hs ha hpolite
  have hat := hopened.at_stage hreader
  rcases h.1.stage_step h.2 hs ha hpolite with heq | heq
  · exact Or.inl (heq ▸ hat)
  · exact Or.inr (heq ▸ hat)

/-- The exchange of three bytes ends in the last stage, and stays there. -/
theorem stages_in_order_exchange :
    ∃ c₀ c, System.new 8 1000 ⟨4294967294⟩ 4 = some c₀ ∧
      Path System.step (fun c e c' => c.Assumed e c' ∧ c.Polite e) c₀ exchange c ∧
      c.summaries = (.finAcked, .finRecv) ∧
      ∃ i, stages[i]? = some c.summaries ∧ ∀ e c', c.step e = some c' → c.Assumed e c' →
        c.Polite e → stages[i]? = some c'.summaries ∨ stages[i + 1]? = some c'.summaries := by
  obtain ⟨c, hc, hlast⟩ := Option.map_eq_some_iff.mp
    (show ((System.new 8 1000 ⟨4294967294⟩ 4).bind
      (check System.step (fun c e c' => c.Assumed e c' ∧ c.Polite e) · exchange)).map
        System.summaries = some (.finAcked, .finRecv) by decide +kernel)
  obtain ⟨c₀, hnew, hcheck⟩ := Option.bind_eq_some_iff.mp hc
  have hp := Path.of_check hcheck
  exact ⟨c₀, c, hnew, hp, hlast,
    (stages_in_order 8 1000 ⟨4294967294⟩ 4 c₀ hnew exchange c hp).2⟩

/-! ## The last stage -/

namespace System

variable {isn : WrappingInt32} {cap n : Nat} {c d d' : System} {e : SystemEvent}

/-- The state FIN_ACKED in terms of the counters. -/
theorem Live.finAcked_iff (h : Live isn cap c) : c.tx.sender.stateSummary = .finAcked ↔
    c.tx.sender.setFinFlag = true ∧
      c.tx.sender.receiverAck = c.tx.sender.nextSeqnoAbsolute := by
  have hq := h.joint.sending.queue
  have hfin := h.joint.sending.cuts.setFinFlag_iff
  rw [stateSummary_eq_phase h.error (bytesInFlight_eq hq.toWellFormed) hq.ack_le hfin]
  refine (phase_eq_iff hq.ack_le fun hf => ?_).2.2.2.2.1
  have := (hfin.mp hf).2
  omega

/-- `d` comes after the finished state `c`, and `n` empty segments were pushed in between. -/
structure Finished (c : System) (n : Nat) (d : System) : Prop where
  fin : d.tx.sender.setFinFlag = true
  acked : d.tx.sender.receiverAck = d.tx.sender.nextSeqnoAbsolute
  next : d.tx.sender.nextSeqnoAbsolute = c.tx.sender.nextSeqnoAbsolute
  accepted : d.tx.accepted = c.tx.accepted
  segmentsOut : d.tx.sender.segmentsOut = c.tx.sender.segmentsOut ++
    List.replicate n { header := { seqno := c.tx.sender.nextSeqno } }

/-- A sender that has finished only pushes the empty segments it is asked for. -/
theorem Finished.sender (h : Finished c n d) (hc : Queue isn c.tx.sender)
    (hd : Live isn cap d) {e : SenderEvent} {s' : TCPSender}
    (hs : d.tx.sender.step e = some s') (hopen : d.tx.WritesOpen e) :
    Finished c (if e = .sendEmptySegment then n + 1 else n)
      { d with tx := d.tx.record s' e } := by
  have hq := hd.joint.sending.queue
  have hlt := hd.joint.small.next
  have hmv := moved_of_step hq.toWellFormed hs
  obtain ⟨hq', hack, -⟩ := hq.moved (small_near hd.joint.small hq) (by omega) hmv
  obtain ⟨hfin', hnext'⟩ := hmv.after_fin h.fin
  have hle := hq'.ack_le
  have hacked := h.acked
  have hout := h.segmentsOut
  have hempty : d.tx.sender.outstandingSegments = [] := (tiles_eq_nil_iff hq.tiles).mpr hacked
  have hcore : ∀ k, s'.segmentsOut = c.tx.sender.segmentsOut ++
      List.replicate k { header := { seqno := c.tx.sender.nextSeqno } } →
      (d.tx.record s' e).accepted = d.tx.accepted →
      Finished c k { d with tx := d.tx.record s' e } := fun k hk haccepted => by
    refine ⟨?_, ?_, ?_, haccepted.trans h.accepted, ?_⟩ <;> rw [Traced.record_sender]
    · exact hfin'
    · omega
    · exact hnext'.trans h.next
    · exact hk
  cases hmv with
  | write data =>
    have hended := (hd.joint.sending.cuts.sent_all h.fin).1
    exact absurd (hopen.symm.trans hended) Bool.false_ne_true
  | endInput => exact hcore n hout rfl
  | filled hem _ =>
    cases hem with
    | nil => exact hcore n hout rfl
    | cons he _ => exact absurd h.fin (by simp [he.finUnsent])
  | rejected _ => exact hcore n hout rfl
  | acked _ hacked => exact hcore n (hacked.segmentsOut.trans hout) rfl
  | waited _ hsame => exact hcore n (hsame.trans hout) rfl
  | resent _ hcons _ =>
    rw [hempty] at hcons
    cases hcons
  | empty _ hpush =>
    refine hcore (n + 1) ?_ rfl
    rw [hpush, hout, List.append_assoc, List.replicate_succ']
    simp only [nextSeqno, hq.isn_eq, hc.isn_eq, h.next]

theorem Finished.step (h : Finished c n d) (hc : Queue isn c.tx.sender) (hd : Live isn cap d)
    (hs : d.step e = some d') (ha : d.Assumed e d') :
    Finished c (if e = .sender .sendEmptySegment then n + 1 else n) d' := by
  cases e with
  | sender e =>
    rw [System.step, Option.map_eq_some_iff] at hs
    obtain ⟨tx, htx, rfl⟩ := hs
    obtain ⟨s', hs', rfl⟩ := Option.map_eq_some_iff.mp htx
    simp only [SystemEvent.sender.injEq]
    refine h.sender hc hd hs' ?_
    cases e with
    | ackReceived ackno w => exact trivial
    | _ => exact ha.1
  | ack a =>
    rw [System.step, Option.map_eq_some_iff] at hs
    obtain ⟨tx, htx, rfl⟩ := hs
    obtain ⟨s', hs', rfl⟩ := Option.map_eq_some_iff.mp htx
    exact h.sender hc hd hs' trivial
  | _ =>
    rw [System.step, Option.map_eq_some_iff] at hs
    obtain ⟨rx, -, rfl⟩ := hs
    exact ⟨h.fin, h.acked, h.next, h.accepted, h.segmentsOut⟩

end System

/-- **A finished connection is silent.**  Once the sender is in the state FIN_ACKED, whatever the
network and the reader do and as long as nothing is written, it stays there with its timer stopped,
it pushes one empty segment for each call of `send_empty_segment` and nothing else, the receiver's
acknowledgment stays the same, and all bytes of the stream are with the reader or in its buffer. -/
theorem finished_is_silent (sendCapacity : Nat) (retxTimeout : UInt16) (isn : WrappingInt32)
    (recvCapacity : Nat) (c₀ : System)
    (hnew : System.new sendCapacity retxTimeout isn recvCapacity = some c₀)
    (es fs : List SystemEvent) (c d : System) (hp : Path System.step System.Assumed c₀ es c)
    (hfin : c.tx.sender.stateSummary = .finAcked)
    (hq : Path System.step System.Assumed c fs d) :
    d.tx.sender.stateSummary = .finAcked ∧ d.tx.sender.retransmissionTimer.isRunning = false ∧
    d.tx.sender.segmentsOut = c.tx.sender.segmentsOut ++
      List.replicate (fs.count (.sender .sendEmptySegment))
        { header := { seqno := c.tx.sender.nextSeqno } } ∧
    d.rx.ackno = some (wrap c.tx.sender.nextSeqnoAbsolute isn) ∧
    d.taken ++ d.rx.streamOut.buffer = c.tx.accepted := by
  have hc := System.live_of_path (System.live_new hnew) hp
  obtain ⟨hflag, hacked⟩ := hc.finAcked_iff.mp hfin
  have hstart : System.Finished c 0 c := ⟨hflag, hacked, rfl, rfl, (List.append_nil _).symm⟩
  have h := hq.invariant_events (I := fun fs d => System.Live isn recvCapacity d ∧
      System.Finished c (fs.count (.sender .sendEmptySegment)) d) ⟨hc, hstart⟩ (by
    rintro fs d e d' ⟨hd, hfinished⟩ hs ha
    refine ⟨System.live_step hd hs ha, ?_⟩
    have hnext := hfinished.step hc.joint.sending.queue hd hs ha
    rw [List.count_append, List.count_singleton]
    by_cases he : e = .sender .sendEmptySegment
    · rw [if_pos he] at hnext
      simpa [he] using hnext
    · rw [if_neg he] at hnext
      simpa [he] using hnext)
  obtain ⟨hd, hfinished⟩ := h
  have hempty := (tiles_eq_nil_iff hd.joint.sending.queue.tiles).mpr hfinished.acked
  -- the receiver has acknowledged the FIN
  have htouch : d.rx.isn = some isn ∧ d.rx.streamOut.inputEnded = true := by
    have hopened : System.Opened isn recvCapacity d := (hp.trans hq).invariant
      (System.opened_new hnew) fun _ _ _ h hs ha => System.opened_step h hs ha
    have hended := hopened.inTouch.finAcked hfinished.fin hfinished.acked
    exact ⟨hd.joint.receiving.isn_eq.resolve_left (hopened.inTouch.ended hended).2, hended⟩
  refine ⟨hd.finAcked_iff.mpr ⟨hfinished.fin, hfinished.acked⟩, hd.timed.stopped hempty,
    hfinished.segmentsOut, ?_, ?_⟩
  · have hge := hd.joint.currentAck_of_ended htouch.2 htouch.1
    have hle := hd.joint.receiving.currentAck_le hd.joint.sending.cuts
    rw [TCPReceiver.currentAck_of_some htouch.1] at hge hle
    rw [TCPReceiver.ackno, htouch.1, Option.map_some, Nat.le_antisymm hle hge, hfinished.next]
  · rw [← hfinished.accepted]
    exact (hd.joint.whole htouch.2).2

/-- After the exchange of three bytes an empty segment is asked for, time passes, and the last byte
is read. -/
theorem finished_is_silent_exchange :
    ∃ c₀ c d, System.new 8 1000 ⟨4294967294⟩ 4 = some c₀ ∧
      Path System.step System.Assumed c₀ exchange c ∧ c.tx.sender.stateSummary = .finAcked ∧
      Path System.step System.Assumed c
        [.sender .sendEmptySegment, .sender (.tick 5000), .sender .fillWindow, .read 1] d ∧
      d.tx.sender.segmentsOut = c.tx.sender.segmentsOut ++
        [{ header := { seqno := c.tx.sender.nextSeqno } }] := by
  let later : List SystemEvent :=
    [.sender .sendEmptySegment, .sender (.tick 5000), .sender .fillWindow, .read 1]
  obtain ⟨c₀, hnew⟩ := Option.isSome_iff_exists.mp
    (show (System.new 8 1000 ⟨4294967294⟩ 4).isSome = true by decide)
  obtain ⟨c, hc, hfin⟩ := Option.map_eq_some_iff.mp
    (show (check System.step System.Assumed c₀ exchange).map (·.tx.sender.stateSummary) =
      some .finAcked by
      rw [← Option.some.inj hnew]
      decide +kernel)
  obtain ⟨d, hd⟩ := Option.isSome_iff_exists.mp
    (show (check System.step System.Assumed c later).isSome = true by
      have hsome : ((check System.step System.Assumed c₀ exchange).bind
          (check System.step System.Assumed · later)).isSome = true := by
        rw [← Option.some.inj hnew]
        decide +kernel
      rwa [hc, Option.bind_some] at hsome)
  have hp := Path.of_check hc
  have hq := Path.of_check hd
  exact ⟨c₀, c, d, hnew, hp, hfin, hq,
    (finished_is_silent 8 1000 ⟨4294967294⟩ 4 c₀ hnew exchange later c d hp hfin hq).2.2.1⟩

end Sponge
