import Sponge.Redelivery
import Sponge.Stages

/-!
# Flow control

The composed system when acknowledgments arrive in the order in which they were shown; they may
still be lost or repeated, and segments may still be lost, repeated and reordered.  Then the sender
never has more in flight than the window allows, and except for the probes of a closed window
everything it pushes fits into the receiver (`flow_control`).

The argument goes around the loop once.  What the sender pushes ends inside the window it was told
of, so the receiver takes whole segments; so its acknowledgment numbers are ends of segments; so the
sender's `_receiver_ack` is the number acknowledged last; so it computes the window the receiver
told it, and the right edge of that window never goes back.
-/

namespace Sponge

open Tiling Transition

/-! ## Acknowledgments in order -/

/-- The composed system, where the pairs shown before `seen` do not arrive any more. -/
structure Ordered where
  sys : System
  seen : Nat
  deriving DecidableEq

namespace Ordered

/-- A pair that arrives closes the door behind it. -/
def seenAfter (o : Ordered) : SystemEvent → Nat
  | .ack a => o.seen + (o.sys.shown.drop o.seen).idxOf a
  | _ => o.seen

def step (o : Ordered) (e : SystemEvent) : Option Ordered :=
  (o.sys.step e).map fun c => ⟨c, o.seenAfter e⟩

/-- No pair arrives after a later one. -/
def InOrder (o : Ordered) : SystemEvent → Prop
  | .ack a => a ∈ o.sys.shown.drop o.seen
  | _ => True

instance (o : Ordered) : (e : SystemEvent) → Decidable (o.InOrder e)
  | .ack _ => inferInstanceAs (Decidable (_ ∈ _))
  | .sender _ => isTrue trivial
  | .deliver _ _ => isTrue trivial
  | .read _ => isTrue trivial
  | .pop _ => isTrue trivial

def Assumed (o : Ordered) (e : SystemEvent) (o' : Ordered) : Prop :=
  o.sys.Assumed e o'.sys ∧ o.InOrder e

instance (o o' : Ordered) (e : SystemEvent) : Decidable (o.Assumed e o') :=
  inferInstanceAs (Decidable (_ ∧ _))

end Ordered

/-! ## The segments of a stream and their ends -/

namespace Traced

open TCPSender

variable {isn : WrappingInt32} {t : Traced} {s' : TCPSender} {e : SenderEvent}

/-- The segments that `fill_window` pushed, with their places. -/
def tiles (t : Traced) : List (Nat × TCPSegment) :=
  positions TCPSegment.lengthInSequenceSpace 0 t.filled

/-- `b` is where a segment ends, or where the first one starts. -/
def Boundary (t : Traced) (b : Nat) : Prop :=
  b = 0 ∨ ∃ x ∈ t.tiles, x.1 + x.2.lengthInSequenceSpace = b

/-- The outstanding segments are the last ones, and the others end before `_receiver_ack`. -/
theorem Sending.tiles_eq (h : Sending isn t) :
    ∃ front, t.tiles = front ++ positions TCPSegment.lengthInSequenceSpace t.sender.receiverAck
        t.sender.outstandingSegments ∧
      ∀ x ∈ front, x.1 + x.2.lengthInSequenceSpace ≤ t.sender.receiverAck := by
  obtain ⟨gone, hgone⟩ := h.cuts.outstanding
  have htiles := h.cuts.tiles
  have hsum := tiles_sum h.queue.tiles
  rw [← hgone] at htiles
  obtain ⟨m, hfront, hback⟩ := tiles_append.mp htiles
  have hm := tiles_sum hfront
  have hm' := tiles_sum hback
  obtain rfl : m = t.sender.receiverAck := by omega
  refine ⟨positions TCPSegment.lengthInSequenceSpace 0 gone, ?_, fun x hx =>
    (tiles_positions hfront hx).2.1⟩
  rw [tiles, ← hgone, positions_append, ← hm]

/-- The segments that were pushed first stay where they are; `fill_window` adds new ones behind
them. -/
theorem Sending.tiles_moved (h : Sending isn t) (hmv : Moved t.sender e s') :
    (t.record s' e).tiles = t.tiles ∨
    ∃ news, e = .fillWindow ∧ Emits t.sender news s' ∧ (t.record s' e).tiles = t.tiles ++
      positions TCPSegment.lengthInSequenceSpace t.sender.nextSeqnoAbsolute news := by
  cases hmv with
  | @filled news s' hem _ =>
    refine Or.inr ⟨news, rfl, hem, ?_⟩
    have hsum := tiles_sum h.cuts.tiles
    simp only [tiles, record, hem.segmentsOut, List.drop_left]
    rw [positions_append, ← hsum]
  | _ => exact Or.inl rfl

theorem Sending.tiles_prefix (h : Sending isn t) (hmv : Moved t.sender e s') :
    t.tiles <+: (t.record s' e).tiles := by
  rcases h.tiles_moved hmv with heq | ⟨news, -, -, heq⟩
  · rw [heq]
  · rw [heq]
    exact List.prefix_append _ _

theorem Boundary.moved {b : Nat} (hb : t.Boundary b) (h : Sending isn t)
    (hmv : Moved t.sender e s') : (t.record s' e).Boundary b :=
  hb.imp_right fun ⟨x, hx, hend⟩ => ⟨x, (h.tiles_prefix hmv).subset hx, hend⟩

/-- Whatever is pushed is one of the segments of the stream, or empty. -/
def Pushes (t : Traced) : Prop :=
  ∀ x ∈ t.sent, x ∈ t.tiles ∨ x.2.lengthInSequenceSpace = 0

theorem Pushes.moved (hp : t.Pushes) (h : Sending isn t) (hmv : Moved t.sender e s') :
    (t.record s' e).Pushes := by
  have hold : ∀ x ∈ t.sent, x ∈ (t.record s' e).tiles ∨ x.2.lengthInSequenceSpace = 0 :=
    fun x hx => (hp x hx).imp_left fun hx => (h.tiles_prefix hmv).subset hx
  intro x hx
  cases hmv with
  | write data => exact hold x hx
  | endInput => exact hold x hx
  | filled hem _ =>
    simp only [record, hem.segmentsOut, List.drop_left] at hx
    rcases List.mem_append.mp hx with hx | hx
    · exact hold x hx
    · refine Or.inl ?_
      simp only [tiles, record, hem.segmentsOut, List.drop_left]
      rw [positions_append, ← tiles_sum h.cuts.tiles]
      exact List.mem_append_right _ hx
  | rejected _ => exact hold x hx
  | acked _ _ => exact hold x hx
  | waited _ hout =>
    simp only [record, hout, List.drop_length, positions, List.append_nil] at hx
    exact hold x hx
  | @resent ms _ seg rest _ hq hout =>
    simp only [record, hout, List.drop_left, positions] at hx
    rcases List.mem_append.mp hx with hx | hx
    · exact hold x hx
    · -- the oldest outstanding segment, at its place
      obtain ⟨front, htiles, -⟩ := h.tiles_eq
      obtain rfl := List.mem_singleton.mp hx
      refine Or.inl ?_
      change _ ∈ t.tiles
      rw [htiles, hq]
      exact List.mem_append_right _ List.mem_cons_self
  | empty _ hout =>
    simp only [record, hout, List.drop_left, positions] at hx
    rcases List.mem_append.mp hx with hx | hx
    · exact hold x hx
    · obtain rfl := List.mem_singleton.mp hx
      exact Or.inr rfl

/-- **An acknowledgment of whole segments** becomes `_receiver_ack`. -/
theorem Sending.receiverAck_of_boundary (h : Sending isn t)
    (hnear : t.sender.nextSeqnoAbsolute ≤ t.sender.receiverAck + 2 ^ 31)
    (hlt : t.sender.nextSeqnoAbsolute < 2 ^ 63) {a : Nat} (ha : t.sender.receiverAck ≤ a)
    (hnext : a ≤ t.sender.nextSeqnoAbsolute) (hb : t.Boundary a) (w : UInt16) :
    (t.sender.ackReceived (wrap a isn) w).receiverAck = a ∧
      (t.sender.ackReceived (wrap a isn) w).receiverWindowSize = w.toNat ∧
      (t.sender.ackReceived (wrap a isn) w).nextSeqnoAbsolute = t.sender.nextSeqnoAbsolute := by
  have hisn := h.queue.isn_eq
  have hun : unwrap (wrap a isn) t.sender.isn t.sender.nextSeqnoAbsolute = a := by
    rw [hisn]
    exact unwrap_wrap a _ isn (by omega) (by omega) (by omega)
  have haccepts : t.sender.Accepts (unwrap (wrap a isn) t.sender.isn
      t.sender.nextSeqnoAbsolute) := by
    rw [hun]
    exact ⟨hnext, ha⟩
  have hacked := ackReceived_of_accepts w haccepts
  rw [hun] at hacked
  refine ⟨?_, hacked.receiverWindowSize, hacked.next⟩
  have hcut := retire_eq_cut hlt hnext t.sender.outstandingSegments t.sender.receiverAck false _
    hnear ha h.queue.tiles ?_
  · rw [hacked.receiverAck, hisn, congrArg Prod.fst hcut]
    rcases Nat.eq_or_lt_of_le ha with rfl | hgt
    · exact Nat.le_antisymm (cut_le _ (Nat.le_refl _) _) (le_cut _ _ _ _)
    · obtain ⟨front, htiles, hfront⟩ := h.tiles_eq
      rcases hb with rfl | ⟨x, hx, rfl⟩
      · omega
      · rw [htiles] at hx
        rcases List.mem_append.mp hx with hx | hx
        · have := hfront x hx
          omega
        · exact cut_of_end hx
  · intro seg hseg
    obtain ⟨p, -, -, hpart⟩ := tiles_mem h.cuts.tiles (h.cuts.outstanding.subset hseg)
    have hbody := hpart.body
    rw [TCPSegment.lengthInSequenceSpace]
    rcases hbody with ⟨-, -, hpay, -⟩ | ⟨-, -, -, hlen, -⟩
    · rw [hpay, List.length_nil]
      split <;> split <;> omega
    · split <;> split <;> omega

end Traced

/-! ## The receiver takes whole segments -/

/-- `i` is the stream index of a byte of the segment `x`. -/
def InPayload (x : Nat × TCPSegment) (i : Nat) : Prop :=
  payloadIndex x.1 x.2 ≤ i ∧ i < payloadIndex x.1 x.2 + x.2.payload.length

namespace System

open TCPSender StreamReassembler

variable {isn : WrappingInt32} {cap : Nat} {c : System} {f : Nat → Option UInt8}

/-- What the receiver has got are whole segments, the last one together with the FIN. -/
def GotWhole (c : System) (f : Nat → Option UInt8) : Prop :=
  ∀ i, (f i).isSome → ∃ x ∈ c.tx.tiles, InPayload x i ∧ (∀ j, InPayload x j → (f j).isSome) ∧
    (x.2.header.fin = true → c.rx.reassembler.eofFlag = true)

/-- Every segment of the stream is in its place, in front of `next_seqno_absolute()`. -/
theorem Joint.part_of_tiles (h : Joint isn c) {x : Nat × TCPSegment} (hx : x ∈ c.tx.tiles) :
    x.1 + x.2.lengthInSequenceSpace ≤ c.tx.sender.nextSeqnoAbsolute ∧
      Traced.PartOf c.tx.accepted c.tx.sender.stream.inputEnded isn x.1 x.2 :=
  (tiles_positions h.sending.cuts.tiles hx).2

/-- The SYN is the first segment, alone. -/
theorem Joint.boundary_one (h : Joint isn c) (hnext : c.tx.sender.nextSeqnoAbsolute ≠ 0) :
    c.tx.Boundary 1 := by
  have htiles := h.sending.cuts.tiles
  cases hfilled : c.tx.filled with
  | nil =>
    rw [hfilled] at htiles
    exact absurd (tiles_nil.mp htiles).symm hnext
  | cons seg rest =>
    rw [hfilled] at htiles
    refine Or.inr ⟨(0, seg), by rw [Traced.tiles, hfilled]; exact List.mem_cons_self, ?_⟩
    rcases htiles.1.body with ⟨-, hsyn, hpay, hfin⟩ | ⟨hpos, -⟩
    · simp [TCPSegment.lengthInSequenceSpace, hsyn, hpay, hfin]
    · omega

/-- **The receiver acknowledges whole segments.** -/
theorem Joint.boundary_absAckno (h : Joint isn c) (hf : Follows c.tx.accepted c.rx.reassembler f)
    (hwhole : GotWhole c f) (hisn : c.rx.isn = some isn) : c.tx.Boundary c.rx.absAckno := by
  have hnext : c.tx.sender.nextSeqnoAbsolute ≠ 0 := h.receiving.syn (by simp [hisn])
  by_cases hended : c.rx.streamOut.inputEnded = true
  · have hge := h.currentAck_of_ended hended hisn
    have hle := h.receiving.currentAck_le h.sending.cuts
    rw [TCPReceiver.currentAck_of_some hisn] at hge hle
    rw [Nat.le_antisymm hle hge]
    exact Or.inr (tiles_last h.sending.cuts.tiles (Ne.symm hnext))
  · rw [TCPReceiver.absAckno, if_neg hended, Nat.add_zero]
    rcases Nat.eq_zero_or_pos c.rx.streamOut.bytesWritten with hzero | hpos
    · rw [hzero]
      exact h.boundary_one hnext
    · -- the segment of the last byte written ends here, since the next byte is missing
      have hhole : f c.rx.streamOut.bytesWritten = none := hf.assembled.hole
      obtain ⟨x, hx, ⟨hlow, hhigh⟩, hall, hfin⟩ := hwhole (c.rx.streamOut.bytesWritten - 1)
        (hf.assembled.written _ (show c.rx.streamOut.bytesWritten - 1 <
          c.rx.streamOut.bytesWritten by omega))
      obtain ⟨-, hpart⟩ := h.part_of_tiles hx
      have hindex := hpart.takenFrom.payloadIndex_eq
      have hend : payloadIndex x.1 x.2 + x.2.payload.length = c.rx.streamOut.bytesWritten := by
        by_contra hne
        have hmore := hall c.rx.streamOut.bytesWritten ⟨by omega, by omega⟩
        rw [hhole] at hmore
        cases hmore
      refine Or.inr ⟨x, hx, ?_⟩
      rcases hpart.body with ⟨-, -, hpay, -⟩ | ⟨hp, hsyn, -, -, hlast⟩
      · rw [hpay, List.length_nil] at hhigh
        omega
      · rw [TCPSegment.lengthInSequenceSpace, hsyn]
        cases hf' : x.2.header.fin with
        | true =>
          -- with the FIN the stream would have ended
          refine absurd (hf.inputEnded.mpr ⟨hfin hf', ?_⟩) hended
          have := (hlast hf').2
          change c.rx.streamOut.bytesWritten = _
          omega
        | false =>
          simp only [Bool.false_eq_true, if_false]
          omega

end System

/-! ## The invariant -/

/-- `b` was shown after `a`. -/
def Shown.Before (a b : Shown) : Prop :=
  a.absAckno ≤ b.absAckno ∧ a.absAckno + a.windowSize ≤ b.absAckno + b.windowSize

namespace Ordered

open TCPSender StreamReassembler

variable {isn : WrappingInt32} {cap : Nat} {o o' : Ordered}

/-- The loop of flow control: what the receiver showed, what the sender took from it, what it pushed
accordingly, and what the receiver has got of that. -/
structure Flows (isn : WrappingInt32) (cap : Nat) (o : Ordered) : Prop where
  opened : System.Opened isn cap o.sys
  sorted : o.sys.shown.Pairwise Shown.Before
  shown : ∀ a ∈ o.sys.shown, a.absAckno + a.windowSize ≤ o.sys.rx.rightEdge ∧
    a.windowSize ≤ cap ∧ o.sys.tx.Boundary a.absAckno
  told : o.sys.tx.sender.receiverAck = 0 ∨ ∃ a, o.sys.shown[o.seen]? = some a ∧
    o.sys.tx.sender.receiverAck = a.absAckno ∧ o.sys.tx.sender.receiverWindowSize = a.windowSize
  kept : o.sys.tx.sender.nextSeqnoAbsolute ≤
    o.sys.tx.sender.receiverAck + o.sys.tx.sender.windowSize
  fits : ∀ x ∈ o.sys.tx.tiles, x.1 + x.2.lengthInSequenceSpace ≤ o.sys.rx.rightEdge ∨
    x.2.lengthInSequenceSpace ≤ 1
  pushes : o.sys.tx.Pushes
  whole : ∃ f, Follows o.sys.tx.accepted o.sys.rx.reassembler f ∧ o.sys.GotWhole f

theorem flows_new {sendCapacity : Nat} {retxTimeout : UInt16} {c : System}
    (h : System.new sendCapacity retxTimeout isn cap = some c) : Flows isn cap ⟨c, 0⟩ := by
  have hopened := System.opened_new h
  obtain ⟨rx, hrx, rfl⟩ := Option.map_eq_some_iff.mp h
  obtain ⟨hc, rfl⟩ := TCPReceiver.new_eq_some hrx
  exact ⟨hopened, List.Pairwise.nil, fun _ ha => (List.not_mem_nil ha).elim, Or.inl rfl,
    Nat.zero_le _, fun _ hx => (List.not_mem_nil hx).elim, fun _ hx => (List.not_mem_nil hx).elim,
    _, follows_fresh _ hc, fun _ hi => by cases hi⟩

/-- The pairs shown later are later. -/
theorem Flows.before (h : Flows isn cap o) {i j : Nat} {a b : Shown} (hij : i ≤ j)
    (ha : o.sys.shown[i]? = some a) (hb : o.sys.shown[j]? = some b) : Shown.Before a b := by
  obtain ⟨hi, rfl⟩ := List.getElem?_eq_some_iff.mp ha
  obtain ⟨hj, rfl⟩ := List.getElem?_eq_some_iff.mp hb
  rcases Nat.eq_or_lt_of_le hij with rfl | hlt
  · exact ⟨Nat.le_refl _, Nat.le_refl _⟩
  · exact List.pairwise_iff_getElem.mp h.sorted i j hi hj hlt

/-- **New segments fit**, or probe a closed window. -/
theorem Flows.fits_fillWindow (h : Flows isn cap o) {s' : TCPSender} {news : List TCPSegment}
    (hem : Emits o.sys.tx.sender news s') : ∀ x ∈ positions TCPSegment.lengthInSequenceSpace
      o.sys.tx.sender.nextSeqnoAbsolute news,
      x.1 + x.2.lengthInSequenceSpace ≤ o.sys.rx.rightEdge ∨ x.2.lengthInSequenceSpace ≤ 1 := by
  intro x hx
  have hq := h.opened.live.joint.sending.queue
  have htiles := Traced.emits_inside hq.toWellFormed hem h.kept
  obtain ⟨hge, -, -, hin⟩ := tiles_positions htiles hx
  have hack := hq.ack_le
  rcases h.told with hzero | ⟨a, ha, hacked, hwin⟩
  · obtain ⟨hwin, -⟩ := h.opened.opening hzero
    rw [windowSize, hwin, if_neg (by decide), hzero] at hin
    exact Or.inr (by omega)
  · have hedge := (h.shown a (List.mem_of_getElem? ha)).1
    rw [windowSize, hwin] at hin
    split at hin
    · exact Or.inr (by omega)
    · exact Or.inl (by omega)

/-- **An acknowledgment in order** is taken as it was shown, and the window does not shrink below
what is in flight. -/
theorem Flows.ackReceived (h : Flows isn cap o) (hcap : cap ≤ 65535) {i : Nat} {a : Shown}
    (hi : o.seen ≤ i) (ha : o.sys.shown[i]? = some a) :
    let s' := o.sys.tx.sender.ackReceived a.ackno (UInt16.ofNat a.windowSize)
    s'.receiverAck = a.absAckno ∧ s'.receiverWindowSize = a.windowSize ∧
      s'.nextSeqnoAbsolute ≤ s'.receiverAck + s'.windowSize := by
  have hjoint := h.opened.live.joint
  have hmem := List.mem_of_getElem? ha
  obtain ⟨-, hsize, hboundary⟩ := h.shown a hmem
  obtain ⟨hwrap, hcur⟩ := hjoint.shown a hmem
  have hle := hcur.trans (hjoint.receiving.currentAck_le hjoint.sending.cuts)
  have hlt := hjoint.small.next
  have hword : (UInt16.ofNat a.windowSize).toNat = a.windowSize :=
    UInt16.toNat_ofNat_of_lt' (show a.windowSize < 65536 by omega)
  -- what the sender was told before
  have hpast : o.sys.tx.sender.receiverAck ≤ a.absAckno ∧ o.sys.tx.sender.nextSeqnoAbsolute ≤
      a.absAckno + (if a.windowSize = 0 then 1 else a.windowSize) := by
    have hkept := h.kept
    rcases h.told with hzero | ⟨b, hb, hacked, hwin⟩
    · obtain ⟨-, hnext⟩ := h.opened.opening hzero
      exact ⟨by omega, by split <;> omega⟩
    · obtain ⟨hle, hedge⟩ := h.before hi hb ha
      rw [windowSize, hwin, hacked] at hkept
      exact ⟨by omega, by split at hkept <;> split <;> omega⟩
  obtain ⟨hack, hwin, hnext⟩ := hjoint.sending.receiverAck_of_boundary
    (System.small_near hjoint.small hjoint.sending.queue) (by omega) hpast.1 hle hboundary
    (UInt16.ofNat a.windowSize)
  rw [hword] at hwin
  rw [hwrap]
  refine ⟨hack, hwin, ?_⟩
  rw [hack, hnext, windowSize, hwin]
  exact hpast.2

/-- Any other event of the sender leaves it what it was told, and inside the window. -/
theorem Flows.pace (h : Flows isn cap o) {e : SenderEvent} {s' : TCPSender}
    (hs : o.sys.tx.sender.step e = some s') (hno : ∀ ackno w, e ≠ .ackReceived ackno w) :
    s'.receiverAck = o.sys.tx.sender.receiverAck ∧
      s'.receiverWindowSize = o.sys.tx.sender.receiverWindowSize ∧
      s'.nextSeqnoAbsolute ≤ o.sys.tx.sender.receiverAck + o.sys.tx.sender.windowSize := by
  have hwf := h.opened.live.joint.sending.queue.toWellFormed
  have hkept := h.kept
  cases moved_of_step hwf hs with
  | write data => exact ⟨rfl, rfl, hkept⟩
  | endInput => exact ⟨rfl, rfl, hkept⟩
  | filled hem _ =>
    exact ⟨hem.unchanged Emitted.receiverAck, hem.unchanged Emitted.receiverWindowSize,
      fillWindow_inside hwf hs hkept⟩
  | rejected _ => exact (hno _ _ rfl).elim
  | acked _ _ => exact (hno _ _ rfl).elim
  | waited hun _ => exact ⟨hun.receiverAck, hun.receiverWindowSize, hun.next.trans_le hkept⟩
  | resent hun _ _ => exact ⟨hun.receiverAck, hun.receiverWindowSize, hun.next.trans_le hkept⟩
  | empty hun _ => exact ⟨hun.receiverAck, hun.receiverWindowSize, hun.next.trans_le hkept⟩

/-- The sender's side makes a step. -/
theorem Flows.sender (h : Flows isn cap o) {e : SenderEvent} {s' : TCPSender}
    (hs : o.sys.tx.sender.step e = some s') (hopen : o.sys.tx.WritesOpen e)
    (hopened : System.Opened isn cap { o.sys with tx := o.sys.tx.record s' e }) {seen : Nat}
    (htold : s'.receiverAck = 0 ∨ ∃ a, o.sys.shown[seen]? = some a ∧
      s'.receiverAck = a.absAckno ∧ s'.receiverWindowSize = a.windowSize)
    (hkept : s'.nextSeqnoAbsolute ≤ s'.receiverAck + s'.windowSize) :
    Flows isn cap ⟨{ o.sys with tx := o.sys.tx.record s' e }, seen⟩ := by
  have hjoint := h.opened.live.joint
  have hwf := hjoint.sending.queue.toWellFormed
  have hmv := moved_of_step hwf hs
  have hstep : o.sys.tx.step e = some (o.sys.tx.record s' e) := by
    rw [Traced.step, hs, Option.map_some]
  obtain ⟨U, hU, hUnil⟩ := Traced.step_accepted hwf hstep hopen
  obtain ⟨f, hf, hwhole⟩ := h.whole
  refine ⟨hopened, h.sorted, fun a ha => ?_, ?_, ?_, fun x hx => ?_,
    h.pushes.moved hjoint.sending hmv, f, ?_, fun i hi => ?_⟩
  · obtain ⟨hedge, hsize, hboundary⟩ := h.shown a ha
    exact ⟨hedge, hsize, hboundary.moved hjoint.sending hmv⟩
  · rw [Traced.record_sender]
    exact htold
  · rw [Traced.record_sender]
    exact hkept
  · rcases hjoint.sending.tiles_moved hmv with heq | ⟨news, -, hem, heq⟩
    · exact h.fits x (heq ▸ hx)
    · rcases List.mem_append.mp (heq ▸ hx : x ∈ _ ++ _) with hx | hx
      · exact h.fits x hx
      · exact h.fits_fillWindow hem x hx
  · dsimp only
    rw [hU]
    exact hf.append fun hflag =>
      hUnil (hjoint.sending.cuts.sent_all (hjoint.receiving.fin hflag)).1
  · obtain ⟨x, hx, hrest⟩ := hwhole i hi
    exact ⟨x, (hjoint.sending.tiles_prefix hmv).subset hx, hrest⟩

/-- The bytes of a segment that is no probe are below the end of the window, or known already. -/
theorem Flows.payload_fits (h : Flows isn cap o) {f : Nat → Option UInt8}
    (hf : Follows o.sys.tx.accepted o.sys.rx.reassembler f) {x : Nat × TCPSegment}
    (hx : x ∈ o.sys.tx.sent) (hlen : 1 < x.2.lengthInSequenceSpace) {i : Nat}
    (hi : InPayload x i) : (f i).isSome ∨
      i < o.sys.rx.reassembler.output.bytesRead + o.sys.rx.reassembler.capacity := by
  have htile := (h.pushes x hx).resolve_right (by omega)
  have hfits := (h.fits x htile).resolve_right (by omega)
  have hpart := (h.opened.live.joint.part_of_tiles htile).2
  have hindex := hpart.takenFrom.payloadIndex_eq
  obtain ⟨hlow, hhigh⟩ := hi
  rw [TCPReceiver.rightEdge_eq hf.assembled] at hfits
  rcases hpart.body with ⟨-, -, hpay, -⟩ | ⟨hp, hsyn, hpay, -⟩
  · rw [hpay, List.length_nil] at hhigh
    omega
  · cases hended : o.sys.rx.streamOut.inputEnded with
    | true =>
      have hslice := congrArg List.length hpay
      rw [List.length_take, List.length_drop] at hslice
      have hall : o.sys.rx.reassembler.output.bytesWritten = _ := (hf.inputEnded.mp hended).2
      exact Or.inl (hf.assembled.written i (by omega))
    | false =>
      rw [hended, if_neg Bool.false_ne_true, TCPSegment.lengthInSequenceSpace] at hfits
      simp only [TCPReceiver.streamOut] at hfits
      exact Or.inr (by omega)

/-- A segment of the stream is pushed: what it brings is a whole segment. -/
theorem Flows.whole_take (h : Flows isn cap o) {x : Nat × TCPSegment} (hx : x ∈ o.sys.tx.sent)
    (ht : TakenFrom o.sys.tx.accepted isn x.1 x.2) (hisn : o.sys.rx.isnAfter x.2 = some isn)
    (hn : Near o.sys.rx x.1) {rx : TCPReceiver} (hrx : o.sys.rx.segmentReceived x.2 = some rx) :
    ∃ f, Follows o.sys.tx.accepted rx.reassembler f ∧ (o.sys.receive rx []).GotWhole f ∧
      (1 < x.2.lengthInSequenceSpace → ∀ i, InPayload x i → (f i).isSome) := by
  have hjoint := h.opened.live.joint
  obtain ⟨f, hf, hwhole⟩ := h.whole
  have hsmall := hjoint.small.written
  have haccepted := hjoint.sending.cuts.accepted
  obtain ⟨r, -, hrec, hpush, hf'⟩ := ht.segmentReceived_spec hf hisn hn (by omega)
  obtain rfl := Option.some.inj (hrec.symm.trans hrx)
  have hend : payloadIndex x.1 x.2 + x.2.payload.length < Word.size := by
    have hwithin := (hjoint.sending.wire x hx).within
    have hlt := hjoint.small.next
    have hindex := ht.payloadIndex_eq
    rw [TCPSegment.lengthInSequenceSpace] at hwithin
    rw [Word.size_eq]
    omega
  have hwin : o.sys.rx.reassembler.output.bytesRead + o.sys.rx.reassembler.capacity <
      Word.size := by
    have hW := hf.assembled.bytesWritten_le_of_agrees hf.agrees
    have hR := StreamReassembler.Window.bytesRead_le (r := o.sys.rx.reassembler)
    have hc := hf.assembled.capacity_le
    simp only [maxSize] at hc
    rw [Word.size_eq]
    omega
  have hmore := accept_isSome_iff hf.assembled.toWindow hend hwin
  have hlong : 1 < x.2.lengthInSequenceSpace → ∀ i, InPayload x i →
      (o.sys.rx.reassembler.accept f x.2.payload (payloadIndex x.1 x.2) i).isSome := by
    intro hlen i hi
    exact (hmore i).mpr ((h.payload_fits hf hx hlen hi).imp_right fun hlt => ⟨hi, hlt⟩)
  have heof : o.sys.rx.reassembler.eofFlag = true → r.eofFlag = true := fun hflag => by
    rw [hpush.eofFlag, hflag, Bool.or_true]
  refine ⟨_, hf', fun i hi => ?_, hlong⟩
  rcases (hmore i).mp hi with hold | ⟨hin, hlt⟩
  · obtain ⟨y, hy, hiny, hally, hfiny⟩ := hwhole i hold
    exact ⟨y, hy, hiny, fun j hj => (hmore j).mpr (Or.inl (hally j hj)), fun hfin =>
      heof (hfiny hfin)⟩
  · have htile := (h.pushes x hx).resolve_right (by
      rw [TCPSegment.lengthInSequenceSpace]
      omega)
    refine ⟨x, htile, hin, fun j hj => ?_, fun hfin => ?_⟩
    · by_cases hlen : 1 < x.2.lengthInSequenceSpace
      · exact hlong hlen j hj
      · -- there is only one byte
        obtain rfl : j = i := by
          rw [TCPSegment.lengthInSequenceSpace] at hlen
          simp only [InPayload] at hj
          omega
        exact hi
    · change r.eofFlag = true
      rw [hpush.eofFlag, hfin, Bool.true_or]

/-- **A segment is taken as a whole.** -/
theorem Flows.whole_deliver (h : Flows isn cap o) {x : Nat × TCPSegment} (hx : x ∈ o.sys.tx.sent)
    (hn : Near o.sys.rx x.1) {rx : TCPReceiver} (hrx : o.sys.rx.segmentReceived x.2 = some rx) :
    ∃ f, Follows o.sys.tx.accepted rx.reassembler f ∧ (o.sys.receive rx []).GotWhole f ∧
      (o.sys.rx.isn ≠ none → 1 < x.2.lengthInSequenceSpace →
        ∀ i, InPayload x i → (f i).isSome) := by
  have hrecv := h.opened.live.joint.receiving
  have htake : TakenFrom o.sys.tx.accepted isn x.1 x.2 → o.sys.rx.isnAfter x.2 = some isn →
      ∃ f, Follows o.sys.tx.accepted rx.reassembler f ∧ (o.sys.receive rx []).GotWhole f ∧
        (o.sys.rx.isn ≠ none → 1 < x.2.lengthInSequenceSpace →
          ∀ i, InPayload x i → (f i).isSome) := fun ht hisn => by
    obtain ⟨f, hf, hwhole, hlong⟩ := h.whole_take hx ht hisn hn hrx
    exact ⟨f, hf, hwhole, fun _ => hlong⟩
  rcases hrecv.isn_eq with hnone | hsome
  · by_cases hsyn : x.2.header.syn = true
    · rcases (h.opened.live.joint.sending.wire x hx).taken with ht | ⟨-, heq⟩
      · exact htake ht (ht.isnAfter_eq (Or.inl hnone) (fun _ => hsyn))
      · rw [heq] at hsyn
        cases hsyn
    · -- before the SYN the segment is dropped
      obtain rfl := Option.some.inj
        ((TCPReceiver.segmentReceived_listen hnone (by simpa using hsyn)).symm.trans hrx)
      obtain ⟨f, hf, hwhole⟩ := h.whole
      exact ⟨f, hf, hwhole, fun hne => absurd hnone hne⟩
  · rcases (h.opened.live.joint.sending.wire x hx).taken with ht | ⟨hzero, heq⟩
    · exact htake ht (TCPReceiver.isnAfter_of_some hsome)
    · -- an empty segment that was sent before the SYN
      have hslot : o.sys.rx.InSynSlot x.2 := by
        rw [heq]
        refine ⟨rfl, isn, hsome, ?_⟩
        have := unwrap_wrap x.1 o.sys.rx.streamOut.bytesWritten isn hn.1 hn.2 (by omega)
        rwa [hzero, wrap_zero] at this
      obtain rfl := Option.some.inj ((TCPReceiver.segmentReceived_inSynSlot_noFin hrecv.sound hslot
        (by rw [heq])).symm.trans hrx)
      obtain ⟨f, hf, hwhole⟩ := h.whole
      refine ⟨f, hf, hwhole, fun _ hlen => ?_⟩
      rw [heq] at hlen
      cases hlen

/-- The receiver's side makes a step. -/
theorem Flows.receive (h : Flows isn cap o) {e : ReceiverEvent}
    (he : TCPReceiver.MachineSegment e) {rx : TCPReceiver} {bytes : List UInt8}
    (hrx : o.sys.rx.step e = some rx)
    (hopened : System.Opened isn cap (o.sys.receive rx bytes)) {f : Nat → Option UInt8}
    (hf : Follows o.sys.tx.accepted rx.reassembler f)
    (hwhole : (o.sys.receive rx bytes).GotWhole f) :
    Flows isn cap ⟨o.sys.receive rx bytes, o.seen⟩ := by
  have hsound := h.opened.live.joint.receiving.sound
  have hedge := (TCPReceiver.rightEdge_step hsound he hrx).1
  have hcur := TCPReceiver.step_currentAck hsound he hrx
  -- the pair shown now
  have hnow : ∀ b ∈ rx.shows, b.absAckno = rx.currentAck ∧
      b.absAckno + b.windowSize = rx.rightEdge ∧ b.windowSize ≤ cap ∧
      o.sys.tx.Boundary b.absAckno := by
    intro b hb
    rcases hopened.live.joint.receiving.isn_eq with hisn | hisn
    · have hisn : rx.isn = none := hisn
      simp [TCPReceiver.shows, TCPReceiver.ackno, hisn] at hb
    · have hisn' : rx.isn = some isn := hisn
      simp only [TCPReceiver.shows, TCPReceiver.ackno, hisn', Option.map_some,
        List.mem_singleton] at hb
      subst hb
      refine ⟨(TCPReceiver.currentAck_of_some hisn').symm, rfl, ?_,
        hopened.live.joint.boundary_absAckno hf hwhole hisn⟩
      have hcapacity : rx.reassembler.capacity = cap := hopened.live.capacity
      rw [← hcapacity, ← hf.assembled.output_capacity]
      exact Nat.sub_le _ _
  refine ⟨hopened, List.pairwise_append.mpr ⟨h.sorted, ?_, ?_⟩, fun a ha => ?_, ?_, h.kept,
    fun x hx => ?_, h.pushes, f, hf, hwhole⟩
  · unfold TCPReceiver.shows
    split
    · exact List.pairwise_singleton _ _
    · exact List.Pairwise.nil
  · intro a ha b hb
    obtain ⟨hedge', -⟩ := h.shown a ha
    have hle := (h.opened.live.joint.shown a ha).2
    obtain ⟨hb1, hb2, -⟩ := hnow b hb
    exact ⟨by omega, by omega⟩
  · rcases List.mem_append.mp ha with ha | ha
    · obtain ⟨hle, hrest⟩ := h.shown a ha
      exact ⟨hle.trans hedge, hrest⟩
    · obtain ⟨-, heq, hrest⟩ := hnow a ha
      exact ⟨heq.le, hrest⟩
  · refine h.told.imp_right fun htold => ?_
    obtain ⟨a, ha, hrest⟩ := htold
    obtain ⟨hlt, -⟩ := List.getElem?_eq_some_iff.mp ha
    exact ⟨a, (List.getElem?_append_left hlt).trans ha, hrest⟩
  · exact (h.fits x hx).imp_left fun hle => hle.trans hedge

theorem flows_step (h : Flows isn cap o) (hcap : cap ≤ 65535) {e : SystemEvent}
    (hs : o.step e = some o') (ha : o.Assumed e o') : Flows isn cap o' := by
  rw [step, Option.map_eq_some_iff] at hs
  obtain ⟨c', hc', rfl⟩ := hs
  have hjoint := h.opened.live.joint
  have hopened := System.opened_step h.opened hc' ha.1
  have hreach := (System.inRange_of_assumed hjoint hc' ha.1).2
  have hpop : ∀ len bytes, System.Opened isn cap
      (o.sys.receive (o.sys.rx.popStream len) bytes) →
      Flows isn cap ⟨o.sys.receive (o.sys.rx.popStream len) bytes, o.seen⟩ := by
    intro len bytes hopened
    obtain ⟨f, hf, hwhole⟩ := h.whole
    exact h.receive (e := .pop len) trivial rfl hopened (hf.pop len) hwhole
  cases e with
  | sender e =>
    rw [System.step, Option.map_eq_some_iff] at hc'
    obtain ⟨tx, htx, rfl⟩ := hc'
    obtain ⟨s', hs', rfl⟩ := Option.map_eq_some_iff.mp htx
    have hno : ∀ ackno w, e ≠ .ackReceived ackno w := by
      rintro ackno w rfl
      exact ha.1.1
    obtain ⟨hack, hwin, hkept⟩ := h.pace hs' hno
    have hopen : o.sys.tx.WritesOpen e := by
      cases e with
      | ackReceived ackno w => exact trivial
      | _ => exact ha.1.1
    refine h.sender hs' hopen hopened ?_ ?_
    · rw [hack, hwin]
      exact h.told
    · rw [hack, windowSize, hwin]
      exact hkept
  | ack a =>
    rw [System.step, Option.map_eq_some_iff] at hc'
    obtain ⟨tx, htx, rfl⟩ := hc'
    obtain ⟨s', hs', rfl⟩ := Option.map_eq_some_iff.mp htx
    obtain rfl := Option.some.inj hs'
    have hmem : a ∈ o.sys.shown.drop o.seen := ha.2
    have hat : o.sys.shown[o.seen + (o.sys.shown.drop o.seen).idxOf a]? = some a := by
      rw [← List.getElem?_drop, List.getElem?_eq_getElem (List.idxOf_lt_length_of_mem hmem),
        List.getElem_idxOf]
    obtain ⟨hack, hwin, hkept⟩ := h.ackReceived hcap (Nat.le_add_right _ _) hat
    exact h.sender (e := .ackReceived _ _) rfl trivial hopened (Or.inr ⟨a, hat, hack, hwin⟩) hkept
  | deliver p seg =>
    rw [System.step, Option.map_eq_some_iff] at hc'
    obtain ⟨rx, hrx, rfl⟩ := hc'
    obtain ⟨f, hf, hwhole, -⟩ := h.whole_deliver (x := (p, seg)) ha.1.1 hreach hrx
    exact h.receive (e := .segment seg) (hjoint.payload_le (x := (p, seg)) ha.1.1) hrx hopened hf
      hwhole
  | read len =>
    rw [System.step, TCPReceiver.step_read] at hc'
    obtain rfl := Option.some.inj hc'
    exact hpop len _ hopened
  | pop len =>
    obtain rfl := Option.some.inj hc'
    exact hpop len _ hopened

end Ordered

open TCPSender in
/-- **Flow control.**  Let the receiver's capacity fit into 16 bits and let acknowledgments arrive
in the order in which they were shown.  Then in every state of the composed system the bytes in
flight fit into the window of the last acknowledgment (or are the one probe of a closed window);
every acknowledgment that can still arrive is taken exactly; everything pushed ends at or before the
right edge of the receiver's window, unless it has at most one sequence number; and when it arrives
the receiver holds all of its bytes. -/
theorem flow_control (sendCapacity : Nat) (retxTimeout : UInt16) (isn : WrappingInt32)
    (recvCapacity : Nat) (hcap : recvCapacity ≤ 65535) (c₀ : System)
    (hnew : System.new sendCapacity retxTimeout isn recvCapacity = some c₀)
    (es : List SystemEvent) (o : Ordered)
    (hp : Path Ordered.step Ordered.Assumed ⟨c₀, 0⟩ es o) :
    o.sys.tx.sender.bytesInFlight ≤ max o.sys.tx.sender.receiverWindowSize 1 ∧
    (∀ a ∈ o.sys.shown.drop o.seen,
      (o.sys.tx.sender.ackReceived a.ackno (UInt16.ofNat a.windowSize)).receiverAck = a.absAckno) ∧
    ∀ x ∈ o.sys.tx.sent, 1 < x.2.lengthInSequenceSpace →
      x.1 + x.2.lengthInSequenceSpace ≤ o.sys.rx.rightEdge ∧
      ∀ c', o.sys.rx.isn ≠ none → Near o.sys.rx x.1 → o.sys.step (.deliver x.1 x.2) = some c' →
        ∀ i, InPayload x i → c'.rx.reassembler.Holds i := by
  have h : Ordered.Flows isn recvCapacity o :=
    hp.invariant (Ordered.flows_new hnew) fun _ _ _ h hs ha => Ordered.flows_step h hcap hs ha
  have hq := h.opened.live.joint.sending.queue
  refine ⟨?_, fun a ha => ?_, fun x hx hlen => ⟨?_, fun c' hisn hn hs i hi => ?_⟩⟩
  · have hkept := h.kept
    have hack := hq.ack_le
    rw [bytesInFlight_eq hq.toWellFormed]
    rw [windowSize] at hkept
    split at hkept <;> omega
  · obtain ⟨j, hj⟩ := List.getElem?_of_mem ha
    rw [List.getElem?_drop] at hj
    exact (h.ackReceived hcap (Nat.le_add_right _ _) hj).1
  · exact (h.fits x ((h.pushes x hx).resolve_right (by omega))).resolve_right (by omega)
  · rw [System.step, Option.map_eq_some_iff] at hs
    obtain ⟨rx, hrx, rfl⟩ := hs
    obtain ⟨f, hf, -, hall⟩ := h.whole_deliver hx hn hrx
    exact (hf.assembled.holds_iff i).mpr (hall hisn hlen i hi)

/-- The three bytes and the FIN fill the window of four, and are sent twice. -/
theorem flow_control_exchange :
    ∃ c₀ o, System.new 8 1000 ⟨4294967294⟩ 4 = some c₀ ∧
      Path Ordered.step Ordered.Assumed ⟨c₀, 0⟩ (exchange.take 9) o ∧
      o.sys.tx.sender.bytesInFlight = 4 ∧
      o.sys.tx.sender.bytesInFlight ≤ max o.sys.tx.sender.receiverWindowSize 1 ∧
      ∃ x ∈ o.sys.tx.sent, 1 < x.2.lengthInSequenceSpace ∧
        x.1 + x.2.lengthInSequenceSpace ≤ o.sys.rx.rightEdge := by
  obtain ⟨c₀, hnew⟩ := Option.isSome_iff_exists.mp
    (show (System.new 8 1000 ⟨4294967294⟩ 4).isSome = true by decide)
  obtain ⟨o, hcheck, hfacts⟩ := Option.map_eq_some_iff.mp
    (show (check Ordered.step Ordered.Assumed ⟨c₀, 0⟩ (exchange.take 9)).map
      (fun o => (o.sys.tx.sender.bytesInFlight,
        o.sys.tx.sent.any fun x => 1 < x.2.lengthInSequenceSpace)) = some (4, true) by
      rw [← Option.some.inj hnew]
      decide +kernel)
  obtain ⟨hflight, hlong⟩ := Prod.mk.inj hfacts
  obtain ⟨x, hx, hlen⟩ := List.any_eq_true.mp hlong
  have hp := Path.of_check hcheck
  obtain ⟨hle, -, hall⟩ :=
    flow_control 8 1000 ⟨4294967294⟩ 4 (by decide) c₀ hnew (exchange.take 9) o hp
  have hlen := of_decide_eq_true hlen
  exact ⟨c₀, o, hnew, hp, hflight, hle, x, hx, hlen, (hall x hx hlen).1⟩

end Sponge
