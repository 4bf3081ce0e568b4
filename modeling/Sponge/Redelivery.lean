import Sponge.EndedStream
import Sponge.Rearrangement

/-!
# Segments that arrive again

A network may deliver a segment many times.  `redelivery_ignored`: whatever the bytes are, and
whether or not they agree with what came before, a push that is made twice in a row has the effect
of one, and a push that fitted into the window has no effect when it is made again, however much
later.
-/

namespace Sponge

open PartialStream Transition

namespace StreamReassembler

variable {r r' : StreamReassembler} {f : Nat → Option UInt8} {data : List UInt8} {index i : Nat}
  {eof : Bool}

/-- The byte at index `i` has been written to the output, or is stored. -/
def Holds (r : StreamReassembler) (i : Nat) : Prop :=
  i < r.output.bytesWritten ∨ r.bitmap[i - r.output.bytesWritten]? = some true

instance (r : StreamReassembler) (i : Nat) : Decidable (r.Holds i) :=
  inferInstanceAs (Decidable (_ ∨ _))

theorem Window.holds_iff (h : Window r f) (i : Nat) : r.Holds i ↔ (f i).isSome := by
  by_cases hlt : i < r.output.bytesWritten
  · exact iff_of_true (Or.inl hlt) (h.written i hlt)
  · rw [Holds, or_iff_right hlt, h.bit_iff, Nat.add_sub_cancel' (Nat.le_of_not_lt hlt)]

/-- What a push brings stays in front of the end of the window. -/
theorem Pushed.firstUnacceptable (h : Pushed r f data index eof r') :
    r'.firstUnacceptable = r.firstUnacceptable := by
  rw [StreamReassembler.firstUnacceptable, h.bytesRead, h.capacity,
    StreamReassembler.firstUnacceptable]

theorem Pushed.bytesWritten_le (h : Pushed r f data index eof r') :
    r.output.bytesWritten ≤ r'.output.bytesWritten := by
  obtain ⟨bytes, -, hw, -⟩ := h.written
  omega

/-- What is held stays held. -/
theorem holds_step (hr : ∃ f, Assembled r f) {e : ReassemblerEvent} (he : MachineArgs e)
    (hs : r.step e = some r') (hi : r.Holds i) : r'.Holds i := by
  obtain ⟨f, hr⟩ := hr
  have hsome := (hr.holds_iff i).mp hi
  cases e with
  | push data index eof =>
    obtain ⟨u, hpush, hspec⟩ := pushSubstring_spec hr (Or.inl he) eof
    obtain rfl : u = r' := Option.some.inj (hpush.symm.trans hs)
    obtain ⟨b, hb⟩ := Option.isSome_iff_exists.mp hsome
    refine (hspec.assembled.holds_iff i).mpr ?_
    rw [accept, offer_of_some hb]
    rfl
  | read len =>
    rw [step_read] at hs
    obtain rfl := Option.some.inj hs
    exact ((hr.pop len).holds_iff i).mpr hsome
  | pop len =>
    obtain rfl := Option.some.inj hs
    exact ((hr.pop len).holds_iff i).mpr hsome

/-- A push that brings nothing new, with no end marker or the one that is noted already, leaves the
reassembler as it is. -/
theorem pushSubstring_eq_self (hr : Assembled r f) (hargs : MachineArgs (.push data index eof))
    (hknown : accept r f data index = f)
    (heof : eof = true → r.eofFlag = true ∧ r.eofIndex = endIndex index data) :
    r.pushSubstring data index eof = some r := by
  obtain ⟨r', hpush, hspec⟩ := pushSubstring_spec hr (Or.inl hargs) eof
  obtain ⟨herror, hendRead⟩ := pushSubstring_reader hr.toWindow (Or.inl hargs) hpush
  have hr' := hspec.assembled
  rw [hknown] at hr'
  have hw := hr'.bytesWritten_eq hr
  have hflag : r'.eofFlag = r.eofFlag := by
    rw [hspec.eofFlag]
    cases eof with
    | true => rw [(heof rfl).1, Bool.true_or]
    | false => rw [Bool.false_or]
  have hindex : r'.eofIndex = r.eofIndex := by
    rw [hspec.eofIndex]
    split
    · rename_i h
      exact (heof h).2.symm
    · rfl
  have hended : r'.output.inputEnded = r.output.inputEnded := by
    rw [hspec.inputEnded, hw, Bool.or_self, hflag, hindex]
    cases h : r.output.inputEnded with
    | true => rw [Bool.true_or]
    | false =>
      rw [Bool.false_or, Bool.and_eq_false_iff]
      by_contra hno
      rw [not_or, Bool.not_eq_false, Bool.not_eq_false, beq_iff_eq] at hno
      rw [hr.ended hno.1 hno.2] at h
      cases h
  have houtput : r'.output = r.output := by
    obtain ⟨bytes, hbuffer, hwritten, -⟩ := hspec.written
    obtain rfl : bytes = [] := List.length_eq_zero_iff.mp (by omega)
    refine ByteStream.eq_of_fields (hbuffer.trans (List.append_nil _)) ?_ hended hendRead hw
      hspec.bytesRead herror
    rw [hr'.output_capacity, hr.output_capacity, hspec.capacity]
  have hshows := hr'.shows
  rw [hw] at hshows
  obtain ⟨hbuffer, hbitmap⟩ := hshows.unique hr.shows
    (by rw [hr'.bitmap_length, hr.bitmap_length, hspec.capacity])
  have hcount : r'.unassembledBytes = r.unassembledBytes := by
    rw [hr'.count, hr.count, hbitmap]
  rw [hpush]
  have hcapacity := hspec.capacity
  cases r
  cases r'
  simp only at hbuffer hbitmap hflag hindex hcount houtput hcapacity
  subst hbuffer hbitmap hflag hindex hcount houtput hcapacity
  rfl

/-- What a push offered once it offers in vain the second time. -/
theorem Pushed.accept_again (h : Pushed r f data index eof r') :
    accept r' (accept r f data index) data index = accept r f data index := by
  rw [accept, h.firstUnacceptable]
  refine offer_eq_self fun i hlow hhigh hindex hlt => ?_
  have hle := h.bytesWritten_le
  cases hf : f i with
  | some b =>
    rw [accept, offer_of_some hf]
    rfl
  | none =>
    rw [accept, offer_of_none hf, if_pos ⟨by omega, hhigh, hindex⟩,
      List.getElem?_eq_getElem (by omega)]
    rfl

/-- A push that ends in front of the end of the window is held whole. -/
theorem Pushed.holds (h : Pushed r f data index eof r') (hr : Window r f)
    (hfits : index + data.length ≤ r.firstUnacceptable) (hi : index ≤ i)
    (hi' : i < index + data.length) : r'.Holds i := by
  refine (h.assembled.holds_iff i).mpr ?_
  have hall : usable index data = data := by
    rw [usable, if_pos (Nat.lt_of_le_of_lt hfits r.firstUnacceptable_lt)]
  cases hf : f i with
  | some b =>
    rw [accept, offer_of_some hf]
    rfl
  | none =>
    have hge : r.output.bytesWritten ≤ i := by
      by_contra hlt
      have := hr.written i (by omega)
      rw [hf] at this
      cases this
    rw [accept, offer_of_none hf, if_pos ⟨hge, by omega, hi⟩, hall,
      List.getElem?_eq_getElem (by omega)]
    rfl

end StreamReassembler

open StreamReassembler in
/-- **A push that is repeated is ignored.**  From every state that arbitrary pushes and reads lead
to, any push made twice in a row leads to the same state as made once.  If it has no end marker and
ends in front of the end of the window, then after any further pushes and reads it leaves the state
as it is. -/
theorem redelivery_ignored (capacity : Nat) (r₀ : StreamReassembler) (hnew : new capacity = some r₀)
    (es : List ReassemblerEvent) (hes : ∀ e ∈ es, MachineArgs e) (data : List UInt8) (index : Nat)
    (eof : Bool) (hargs : MachineArgs (.push data index eof)) :
    ∃ r r₁, run step r₀ es = some r ∧ r.pushSubstring data index eof = some r₁ ∧
      r₁.pushSubstring data index eof = some r₁ ∧
      (index + data.length ≤ r.firstUnacceptable → ∀ fs, (∀ e ∈ fs, MachineArgs e) →
        ∃ r₂, run step r₁ fs = some r₂ ∧ r₂.pushSubstring data index false = some r₂) := by
  obtain ⟨hc, rfl⟩ := new_eq_some hnew
  obtain ⟨r, hrun, f, hr⟩ := assembled_run hc es hes
  obtain ⟨r₁, hpush, hspec⟩ := pushSubstring_spec hr (Or.inl hargs) eof
  refine ⟨r, r₁, hrun, hpush, ?_, fun hfits fs hfs => ?_⟩
  · refine pushSubstring_eq_self hspec.assembled hargs hspec.accept_again fun heof => ?_
    rw [hspec.eofFlag, hspec.eofIndex, heof, Bool.true_or, if_pos rfl]
    exact ⟨rfl, rfl⟩
  · have hstep : ∀ (s : StreamReassembler) e, (∃ f, Assembled s f) ∧
        (∀ i, index ≤ i → i < index + data.length → s.Holds i) → MachineArgs e →
        ∃ t, s.step e = some t ∧ (∃ f, Assembled t f) ∧
          ∀ i, index ≤ i → i < index + data.length → t.Holds i := by
      rintro s e ⟨⟨g, hs⟩, hholds⟩ he
      obtain ⟨t, ht, ht'⟩ := assembled_step hs he
      exact ⟨t, ht, ht', fun i hi hi' => holds_step ⟨g, hs⟩ he ht (hholds i hi hi')⟩
    obtain ⟨r₂, hrun₂, ⟨g, hg⟩, hholds⟩ := run_total hstep fs hfs r₁
      ⟨⟨_, hspec.assembled⟩, fun i hi hi' => hspec.holds hr.toWindow hfits hi hi'⟩
    refine ⟨r₂, hrun₂, pushSubstring_eq_self hg hargs ?_ (by simp)⟩
    rw [accept]
    refine offer_eq_self fun i _ _ hi hlt => (hg.holds_iff i).mp (hholds i hi ?_)
    have hle : (usable index data).length ≤ data.length := by
      unfold usable
      split <;> simp
    omega

/-- A push that contradicts the byte stored at index 1 comes three times, the last time after a read
and the end marker. -/
theorem redelivery_ignored_twice :
    ∃ r r₁ r₂, run StreamReassembler.step (StreamReassembler.fresh 4) [.push [1] 1 false] = some r ∧
      r.pushSubstring [9, 8] 0 false = some r₁ ∧ r₁.pushSubstring [9, 8] 0 false = some r₁ ∧
      run StreamReassembler.step r₁ [.read 1, .push [7] 3 true] = some r₂ ∧
      r₂.pushSubstring [9, 8] 0 false = some r₂ := by
  obtain ⟨r, r₁, hrun, hpush, hagain, hlater⟩ := redelivery_ignored 4 _ rfl [.push [1] 1 false]
    (by decide) [9, 8] 0 false (by decide)
  have hedge : r.firstUnacceptable = 4 := by
    have hmap : (run StreamReassembler.step (StreamReassembler.fresh 4)
        [.push [1] 1 false]).map StreamReassembler.firstUnacceptable = some 4 := by decide
    rw [hrun, Option.map_some] at hmap
    exact Option.some.inj hmap
  obtain ⟨r₂, hrun₂, hthird⟩ := hlater (by rw [hedge]; decide) [.read 1, .push [7] 3 true]
    (by decide)
  exact ⟨r, r₁, r₂, hrun, hpush, hagain, hrun₂, hthird⟩

end Sponge
