import Sponge.ReassemblerRuns

/-!
# Reassembly depends on what arrived, not how

Two lists of pushes of pieces of one byte string `S` that cover the same indices, and either both
or neither bring the end marker, take the reassembler from any reachable state to the same state:
order, duplication and segmentation do not matter (`rearrangement`).

`Grown` says what a list of pushes adds to a state.  Everything in it is decided by the covered
indices and the end marker (`Grown.unique`).
-/

namespace Sponge

open PartialStream Transition

/-- A stream is decided by its fields. -/
theorem ByteStream.eq_of_fields {s t : ByteStream} (hbuffer : s.buffer = t.buffer)
    (hcapacity : s.capacity = t.capacity) (hwrite : s.inputEnded = t.inputEnded)
    (hread : s.endRead = t.endRead) (hwritten : s.bytesWritten = t.bytesWritten)
    (hbytes : s.bytesRead = t.bytesRead) (herror : s.error = t.error) : s = t := by
  cases s
  cases t
  simp only [ByteStream.mk.injEq]
  exact ⟨hbuffer, hcapacity, hwrite, hread, hwritten, hbytes, herror⟩

namespace StreamReassembler

variable {S : List UInt8} {r r' r₁ r₂ : StreamReassembler} {f f' f₁ f₂ : Nat → Option UInt8}
  {data : List UInt8} {index : Nat}

/-! ## What a push leaves alone -/

theorem checkEof_reader (r : StreamReassembler) :
    r.checkEof.output.error = r.output.error ∧
      r.checkEof.output.endRead = r.output.endRead := by
  unfold checkEof
  split <;> exact ⟨rfl, rfl⟩

theorem moveOut_reader (h : r.moveOut = some r') :
    r'.output.error = r.output.error ∧ r'.output.endRead = r.output.endRead := by
  unfold moveOut at h
  split at h
  · cases h
  · obtain rfl := Option.some.inj h
    split <;> exact ⟨rfl, rfl⟩

/-- No push touches the error flag or the reader's flag of the output stream. -/
theorem pushSubstring_reader (hr : Window r f) (hfit : Fits r data index) {eof : Bool}
    (h : r.pushSubstring data index eof = some r') :
    r'.output.error = r.output.error ∧ r'.output.endRead = r.output.endRead := by
  have hnote : (r.noteEof (endIndex index data) eof).output.error = r.output.error ∧
      (r.noteEof (endIndex index data) eof).output.endRead = r.output.endRead := by
    unfold noteEof
    split <;> exact checkEof_reader _
  have hn := (noteEof_spec r (endIndex index data) eof).1
  have hfit₁ : Fits (r.noteEof (endIndex index data) eof) data index := by
    simpa only [Fits, hn.bytesRead, hn.capacity] using hfit
  have hr₁ := hr.sameBytes hn
  rw [pushSubstring_eq] at h
  generalize r.noteEof (endIndex index data) eof = r₁ at *
  obtain ⟨c, hc, rfl⟩ := Option.map_eq_some_iff.mp h
  obtain ⟨hcheck, hcheck'⟩ := checkEof_reader c
  rw [hcheck, hcheck', ← hnote.1, ← hnote.2]
  unfold moveBytes at hc
  split at hc
  · obtain rfl := Option.some.inj hc
    exact ⟨rfl, rfl⟩
  · rename_i hout
    obtain ⟨buffer, bitmap, hins, -, -⟩ := insert_spec hr₁ hfit₁ (by simpa using hout)
    rw [hins, Option.bind_some] at hc
    have hmove := moveOut_reader hc
    exact hmove

/-! ## What a list of pushes adds -/

/-- A push of a piece of `S`. -/
def PushOf (S : List UInt8) : ReassemblerEvent → Prop
  | .push data index eof => PieceOf S (.push data index eof)
  | _ => False

instance (S : List UInt8) : (e : ReassemblerEvent) → Decidable (PushOf S e)
  | .push data index eof => inferInstanceAs (Decidable (PieceOf S (.push data index eof)))
  | .read _ => isFalse id
  | .pop _ => isFalse id

/-- Some push of the list carries a byte for index `i`. -/
def Covers (es : List ReassemblerEvent) (i : Nat) : Prop :=
  ∃ data index eof, ReassemblerEvent.push data index eof ∈ es ∧ index ≤ i ∧ i < index + data.length

theorem covers_nil (i : Nat) : ¬ Covers [] i := by
  simp [Covers]

theorem covers_cons {es : List ReassemblerEvent} {eof : Bool} {i : Nat} :
    Covers (.push data index eof :: es) i ↔
      (index ≤ i ∧ i < index + data.length) ∨ Covers es i := by
  simp only [Covers, List.mem_cons, ReassemblerEvent.push.injEq]
  constructor
  · rintro ⟨data', index', eof', ⟨rfl, rfl, rfl⟩ | hmem, hi⟩
    · exact Or.inl hi
    · exact Or.inr ⟨data', index', eof', hmem, hi⟩
  · rintro (hi | ⟨data', index', eof', hmem, hi⟩)
    · exact ⟨data, index, eof, Or.inl ⟨rfl, rfl, rfl⟩, hi⟩
    · exact ⟨data', index', eof', Or.inr hmem, hi⟩

theorem covers_append {es es' : List ReassemblerEvent} {i : Nat} :
    Covers (es ++ es') i ↔ Covers es i ∨ Covers es' i := by
  simp only [Covers, List.mem_append, or_and_right, exists_or]

/-- The pushes `es` lead from `r`, which has accepted `f`, to `r'`, which has accepted `f'`. -/
structure Grown (S : List UInt8) (r : StreamReassembler) (f : Nat → Option UInt8)
    (es : List ReassemblerEvent) (r' : StreamReassembler) (f' : Nat → Option UInt8) : Prop where
  follows : Follows S r' f'
  capacity : r'.capacity = r.capacity
  bytesRead : r'.output.bytesRead = r.output.bytesRead
  error : r'.output.error = r.output.error
  endRead : r'.output.endRead = r.output.endRead
  known : ∀ i, (f' i).isSome ↔
    (f i).isSome ∨ Covers es i ∧ i < r.output.bytesRead + r.capacity
  eofFlag : r'.eofFlag = true ↔ r.eofFlag = true ∨ EofArrived es
  eofIndex : r'.eofFlag = false → r'.eofIndex = r.eofIndex
  written : ∃ bytes, r'.output.buffer = r.output.buffer ++ bytes ∧
    r'.output.bytesWritten = r.output.bytesWritten + bytes.length ∧
    ∀ k < bytes.length, f' (r.output.bytesWritten + k) = bytes[k]?

theorem grown_nil (h : Follows S r f) : Grown S r f [] r f :=
  ⟨h, rfl, rfl, rfl, rfl, by simp [Covers], by simp [EofArrived], fun _ => rfl,
    ⟨[], by simp, by simp, by simp⟩⟩

/-- One more push. -/
theorem Grown.push {es : List ReassemblerEvent} {eof : Bool} (h : Grown S r f es r₁ f₁)
    (hS : S.length + r.capacity < 2 ^ 63) (he : PieceOf S (.push data index eof)) :
    ∃ r₂ f₂, r₁.step (.push data index eof) = some r₂ ∧
      Grown S r f (es ++ [.push data index eof]) r₂ f₂ := by
  obtain ⟨hlen, hdata, heof⟩ := he
  obtain ⟨hend, hwin⟩ := h.follows.inRange (by rw [h.capacity]; exact hS) hlen
  obtain ⟨r₂, hstep, hpush⟩ :=
    pushSubstring_spec h.follows.assembled (Or.inr ⟨hend, hwin⟩) eof
  obtain ⟨herr, hrd⟩ :=
    pushSubstring_reader h.follows.assembled.toWindow (Or.inr ⟨hend, hwin⟩) hstep
  refine ⟨r₂, accept r₁ f₁ data index, hstep, ?_⟩
  constructor
  · exact h.follows.push hend hwin hdata heof hpush
  · exact hpush.capacity.trans h.capacity
  · exact hpush.bytesRead.trans h.bytesRead
  · exact herr.trans h.error
  · exact hrd.trans h.endRead
  · intro i
    rw [accept_isSome_iff h.follows.assembled.toWindow hend hwin, h.known, covers_append,
      covers_cons, h.bytesRead, h.capacity, or_iff_left (covers_nil i), or_and_right, or_assoc]
  · rw [hpush.eofFlag, Bool.or_eq_true, h.eofFlag]
    simp only [EofArrived, List.mem_append, List.mem_singleton, ReassemblerEvent.push.injEq]
    constructor
    · rintro (rfl | hflag | ⟨data', index', hmem⟩)
      · exact Or.inr ⟨data, index, Or.inr ⟨rfl, rfl, rfl⟩⟩
      · exact Or.inl hflag
      · exact Or.inr ⟨data', index', Or.inl hmem⟩
    · rintro (hflag | ⟨data', index', hmem | ⟨-, -, heof'⟩⟩)
      · exact Or.inr (Or.inl hflag)
      · exact Or.inr (Or.inr ⟨data', index', hmem⟩)
      · exact Or.inl heof'.symm
  · intro hflag
    rw [hpush.eofFlag, Bool.or_eq_false_iff] at hflag
    rw [hpush.eofIndex, hflag.1, if_neg Bool.false_ne_true]
    exact h.eofIndex hflag.2
  · obtain ⟨bytes, hbuf, hwr, hbytes⟩ := h.written
    obtain ⟨more, hbuf', hwr', hmore⟩ := hpush.written
    refine ⟨bytes ++ more, by rw [hbuf', hbuf, List.append_assoc], by simp; omega, ?_⟩
    intro k hk
    rw [List.length_append] at hk
    rcases Nat.lt_or_ge k bytes.length with hlt | hge
    · rw [List.getElem?_append_left hlt]
      have hold := hbytes k hlt
      rw [List.getElem?_eq_getElem hlt] at hold ⊢
      exact offer_of_some hold
    · rw [List.getElem?_append_right hge, ← hmore _ (by omega), hwr]
      congr 1
      omega

/-- A list of pushes of pieces of `S` has a run. -/
theorem grown_run (h : Follows S r f) (hS : S.length + r.capacity < 2 ^ 63)
    (es : List ReassemblerEvent) (hes : ∀ e ∈ es, PushOf S e) :
    ∃ r' f', run step r es = some r' ∧ Grown S r f es r' f' := by
  induction es using List.reverseRecOn with
  | nil => exact ⟨r, f, rfl, grown_nil h⟩
  | append_singleton es e ih =>
    obtain ⟨r₁, f₁, hrun, hgrown⟩ := ih (fun e' he' => hes e' (by simp [he']))
    have he : PushOf S e := hes e (by simp)
    cases e with
    | push data index eof =>
      obtain ⟨r₂, f₂, hstep, hgrown'⟩ := hgrown.push hS he
      exact ⟨r₂, f₂, by rw [run_concat, hrun, Option.bind_some, hstep], hgrown'⟩
    | read len => exact he.elim
    | pop len => exact he.elim

/-! ## The same state -/

/-- Two reassemblers that have accepted the same bytes have written equally many. -/
theorem Assembled.bytesWritten_eq (h₁ : Assembled r₁ f) (h₂ : Assembled r₂ f) :
    r₁.output.bytesWritten = r₂.output.bytesWritten := by
  have hle : ∀ {a b : StreamReassembler}, Assembled a f → Assembled b f →
      a.output.bytesWritten ≤ b.output.bytesWritten := by
    intro a b ha hb
    by_contra hlt
    have := ha.written b.output.bytesWritten (by omega)
    rw [hb.hole] at this
    cases this
  exact Nat.le_antisymm (hle h₁ h₂) (hle h₂ h₁)

/-- **The covered indices and the end marker decide the state.** -/
theorem Grown.unique {es₁ es₂ : List ReassemblerEvent} (h₁ : Grown S r f es₁ r₁ f₁)
    (h₂ : Grown S r f es₂ r₂ f₂) (hcovers : ∀ i, Covers es₁ i ↔ Covers es₂ i)
    (heof : EofArrived es₁ ↔ EofArrived es₂) : r₁ = r₂ := by
  obtain rfl : f₁ = f₂ := by
    refine h₁.follows.agrees.ext h₂.follows.agrees (fun i => ?_)
    rw [h₁.known, h₂.known, hcovers]
  have ha₁ := h₁.follows.assembled
  have ha₂ := h₂.follows.assembled
  have hcap : r₁.capacity = r₂.capacity := h₁.capacity.trans h₂.capacity.symm
  have hw := ha₁.bytesWritten_eq ha₂
  have hflag : r₁.eofFlag = r₂.eofFlag := by
    rw [Bool.eq_iff_iff, h₁.eofFlag, h₂.eofFlag, heof]
  have hshows := ha₁.shows
  rw [hw] at hshows
  obtain ⟨hbuffer, hbitmap⟩ := hshows.unique ha₂.shows
    (by rw [ha₁.bitmap_length, ha₂.bitmap_length, hcap])
  have hindex : r₁.eofIndex = r₂.eofIndex := by
    cases hf : r₁.eofFlag with
    | true => rw [h₁.follows.eofIndex hf, h₂.follows.eofIndex (hflag ▸ hf)]
    | false => rw [h₁.eofIndex hf, h₂.eofIndex (hflag ▸ hf)]
  have houtput : r₁.output = r₂.output := by
    obtain ⟨bytes₁, hbuf₁, hwr₁, hbytes₁⟩ := h₁.written
    obtain ⟨bytes₂, hbuf₂, hwr₂, hbytes₂⟩ := h₂.written
    have hsame : bytes₁ = bytes₂ := by
      apply List.ext_getElem?
      intro k
      rcases Nat.lt_or_ge k bytes₁.length with hk | hk
      · rw [← hbytes₁ k hk, ← hbytes₂ k (by omega)]
      · rw [List.getElem?_eq_none (by omega), List.getElem?_eq_none (by omega)]
    apply ByteStream.eq_of_fields
    · rw [hbuf₁, hbuf₂, hsame]
    · rw [ha₁.output_capacity, ha₂.output_capacity, hcap]
    · rw [Bool.eq_iff_iff, h₁.follows.inputEnded, h₂.follows.inputEnded, hflag, hw]
    · exact h₁.endRead.trans h₂.endRead.symm
    · exact hw
    · exact h₁.bytesRead.trans h₂.bytesRead.symm
    · exact h₁.error.trans h₂.error.symm
  have hcount : r₁.unassembledBytes = r₂.unassembledBytes := by
    rw [ha₁.count, ha₂.count, hbitmap]
  cases r₁
  cases r₂
  simp only [StreamReassembler.mk.injEq]
  exact ⟨hbuffer, hbitmap, hflag, hindex, hcount, houtput, hcap⟩

end StreamReassembler

open StreamReassembler in
/-- **Reassembly depends only on what arrived.**  From every state that pushes of pieces of `S` and
reads lead to, two lists of such pushes that cover the same indices, and both or neither bring the
end marker, lead to the same state. -/
theorem rearrangement (S : List UInt8) (capacity : Nat) (hS : S.length + capacity < 2 ^ 63)
    (r₀ : StreamReassembler) (hnew : new capacity = some r₀) (es : List ReassemblerEvent)
    (r : StreamReassembler) (hp : Path step (fun _ e _ => PieceOf S e) r₀ es r)
    (es₁ es₂ : List ReassemblerEvent) (h₁ : ∀ e ∈ es₁, PushOf S e) (h₂ : ∀ e ∈ es₂, PushOf S e)
    (hcovers : ∀ i, Covers es₁ i ↔ Covers es₂ i) (heof : EofArrived es₁ ↔ EofArrived es₂) :
    ∃ r', run step r es₁ = some r' ∧ run step r es₂ = some r' := by
  obtain ⟨hcap, rfl⟩ := new_eq_some hnew
  obtain ⟨⟨f, hf⟩, hc, -⟩ : OnTrack S capacity es r :=
    hp.invariant_events ⟨⟨_, follows_fresh S hcap⟩, rfl, by simp [fresh, EofArrived]⟩
      (fun _ _ _ _ ha hs he => onTrack_step hS ha hs he)
  obtain ⟨r₁, f₁, hrun₁, hg₁⟩ := grown_run hf (by omega) es₁ h₁
  obtain ⟨r₂, f₂, hrun₂, hg₂⟩ := grown_run hf (by omega) es₂ h₂
  exact ⟨r₁, hrun₁, by rw [hrun₂, hg₁.unique hg₂ hcovers heof]⟩

/-- After a read, the rest of the string comes as one truncated segment with the end marker, or out
of order in pieces, one of them twice. -/
theorem rearrangement_pieces :
    ∃ r r', Path StreamReassembler.step
        (fun _ e _ => StreamReassembler.PieceOf [5, 6, 7, 8] e) (StreamReassembler.fresh 2)
        [.push [5] 0 false, .read 1] r ∧
      run StreamReassembler.step r [.push [6, 7, 8] 1 true] = some r' ∧
      run StreamReassembler.step r
        [.push [7, 8] 2 false, .push [] 4 true, .push [6] 1 false, .push [7] 2 false] =
          some r' := by
  obtain ⟨r, hc⟩ := Option.isSome_iff_exists.mp
    (show (check StreamReassembler.step
      (fun _ e _ => StreamReassembler.PieceOf [5, 6, 7, 8] e) (StreamReassembler.fresh 2)
      [.push [5] 0 false, .read 1]).isSome = true by decide)
  have hp := Path.of_check hc
  obtain ⟨r', h₁, h₂⟩ := rearrangement [5, 6, 7, 8] 2 (by decide) _ rfl _ r hp
    [.push [6, 7, 8] 1 true]
    [.push [7, 8] 2 false, .push [] 4 true, .push [6] 1 false, .push [7] 2 false]
    (by decide) (by decide)
    (fun i => by
      simp [StreamReassembler.covers_cons, StreamReassembler.covers_nil]
      omega)
    (by simp [StreamReassembler.EofArrived])
  exact ⟨r, r', hp, h₁, h₂⟩

end Sponge
