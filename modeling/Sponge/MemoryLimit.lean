import Sponge.EndedStream

/-!
# The memory limit of the reassembler

For arbitrary strings, 64-bit indices and end markers: the window and the output stream together
never hold more than `capacity` bytes, every access of a push is in range, the drain loop ends, and
the output stream takes everything that was drained (`memory_limit`).
-/

namespace Sponge

open PartialStream Transition

namespace StreamReassembler

variable {r : StreamReassembler} {f : Nat → Option UInt8} {data : List UInt8} {index : Nat}

/-- What the containers of a reassembler hold between two calls. -/
structure InBounds (r : StreamReassembler) (capacity : Nat) : Prop where
  buffer_length : r.buffer.length = capacity
  bitmap_length : r.bitmap.length = capacity
  count : r.bitmap.count true = r.unassembledBytes
  front : r.bitmap[0]? ≠ some true
  beyond : ∀ k, r.output.remainingCapacity ≤ k → r.bitmap[k]? ≠ some true
  limit : r.output.bufferSize + r.unassembledBytes ≤ capacity

theorem count_true_le {bits : List Bool} {n : Nat} (h : ∀ k, n ≤ k → bits[k]? ≠ some true) :
    bits.count true ≤ n := by
  have hdrop : (bits.drop n).count true = 0 := by
    rw [List.count_eq_zero]
    intro hmem
    obtain ⟨k, hk⟩ := List.mem_iff_getElem?.mp hmem
    rw [List.getElem?_drop] at hk
    exact h (n + k) (Nat.le_add_right _ _) hk
  have hsplit : (bits.take n).count true + (bits.drop n).count true = bits.count true := by
    rw [← List.count_append, List.take_append_drop]
  have hle := (List.count_le_length (a := true)).trans (List.length_take_le n bits)
  omega

theorem Assembled.inBounds (hr : Assembled r f) : InBounds r r.capacity := by
  have hrem := r.output.remainingCapacity_eq
  rw [hr.output_capacity] at hrem
  have hbeyond : ∀ k, r.output.remainingCapacity ≤ k → r.bitmap[k]? ≠ some true := by
    intro k hk hbit
    have := hr.room _ ((hr.bit_iff k).mp hbit)
    omega
  refine ⟨?_, hr.bitmap_length, hr.count.symm, ?_, hbeyond, ?_⟩
  · rw [hr.shows.length_eq, hr.bitmap_length]
  · intro hbit
    have := (hr.bit_iff 0).mp hbit
    rw [Nat.add_zero, hr.hole] at this
    cases this
  · have hle := count_true_le hbeyond
    have hbal := r.output.bytesWritten_eq
    rw [hr.count, ByteStream.bufferSize]
    omega

/-- Moving out the drained string `str` adds it to the output stream, if the stream takes it
whole. -/
theorem moveOut_of_drain {buffer : List UInt8} {bitmap : List Bool} {str : List UInt8}
    (hdrain : drain (r.bitmap.length + 1) r.buffer r.bitmap [] = some (buffer, bitmap, str))
    (hall : (r.output.write str).2.buffer = r.output.buffer ++ str) :
    ∃ r', r.moveOut = some r' ∧ r'.output.buffer = r.output.buffer ++ str := by
  refine ⟨_, by rw [moveOut, hdrain], ?_⟩
  split
  · exact hall
  · rename_i h0
    obtain rfl : str = [] := List.length_eq_zero_iff.mp (by omega)
    exact (List.append_nil _).symm

/-- A push that meets the window: the placement loops stay in range, the drain loop ends, the
output stream accepts the drained string `str` whole, and `str` is what the push adds to it. -/
def DrainedWhole (r : StreamReassembler) (data : List UInt8) (index : Nat) (eof : Bool) : Prop :=
  ∃ r₁ buffer bitmap str r',
    (r.noteEof (endIndex index data) eof).insert data index = some r₁ ∧
    drain (r₁.bitmap.length + 1) r₁.buffer r₁.bitmap [] = some (buffer, bitmap, str) ∧
    (r₁.output.write str).1 = str.length ∧
    r.pushSubstring data index eof = some r' ∧
    r'.output.buffer = r.output.buffer ++ str

theorem drainedWhole_of_meets (hr : Assembled r f) (hfit : Fits r data index) (eof : Bool)
    (hout : (r.noteEof (endIndex index data) eof).outside data index = false) :
    DrainedWhole r data index eof := by
  have hn := (noteEof_spec r (endIndex index data) eof).1
  have hfit₁ : Fits (r.noteEof (endIndex index data) eof) data index := by
    simpa only [Fits, hn.bytesRead, hn.capacity] using hfit
  have hr₁ := hr.toWindow.sameBytes hn
  obtain ⟨b, m, hins, hlen, hshows⟩ := insert_spec hr₁ hfit₁ hout
  obtain ⟨hend, hwin, -, -, hcap⟩ := not_outside hr₁ hfit₁ hout
  obtain ⟨buffer, bitmap, str, hdrain, -, -, -, -, -, hroom⟩ :=
    (hr₁.placed hend hwin hlen hshows).drain_spec hcap
  obtain ⟨hall, hbuf⟩ := ByteStream.write_all _ str hroom
  obtain ⟨r', hmove, hbuf'⟩ := moveOut_of_drain hdrain hbuf
  refine ⟨_, buffer, bitmap, str, r'.checkEof, hins, hdrain, hall, ?_, ?_⟩
  · rw [pushSubstring_eq, moveBytes, hout, if_neg Bool.false_ne_true, hins, Option.bind_some,
      hmove, Option.map_some]
  · rw [(checkEof_sameBytes r').output_buffer, hbuf', ← hn.output_buffer]

end StreamReassembler

open StreamReassembler in
/-- **The memory limit of the reassembler.**  Every run of pushes with arbitrary data, 64-bit
indices and end markers, interleaved with reads and pops, is defined: no access is out of range,
no `front()` of an empty deque is taken.  The state it ends in is in bounds.  A further push is
defined too, and drains what the output stream takes whole. -/
theorem memory_limit (capacity : Nat) (r₀ : StreamReassembler) (hnew : new capacity = some r₀)
    (es : List ReassemblerEvent) (hes : ∀ e ∈ es, MachineArgs e) :
    ∃ r, run step r₀ es = some r ∧ InBounds r capacity ∧
      ∀ data index eof, MachineArgs (.push data index eof) →
        (r.pushSubstring data index eof).isSome ∧
        ((r.noteEof (endIndex index data) eof).outside data index = true ∨
          DrainedWhole r data index eof) := by
  obtain ⟨hc, rfl⟩ := new_eq_some hnew
  have hstep : ∀ (s : StreamReassembler) e, (∃ f, Assembled s f) ∧ s.capacity = capacity →
      MachineArgs e → ∃ t, s.step e = some t ∧ (∃ f, Assembled t f) ∧ t.capacity = capacity := by
    rintro s e ⟨⟨f, hs⟩, hcap⟩ he
    cases e with
    | push data index eof =>
      obtain ⟨t, ht, hspec⟩ := pushSubstring_spec hs (Or.inl he) eof
      exact ⟨t, ht, ⟨_, hspec.assembled⟩, hspec.capacity.trans hcap⟩
    | read len => exact ⟨_, step_read s len, ⟨f, hs.pop len⟩, hcap⟩
    | pop len => exact ⟨_, rfl, ⟨f, hs.pop len⟩, hcap⟩
  obtain ⟨r, hrun, ⟨f, hr⟩, rfl⟩ := run_total hstep es hes _ ⟨⟨_, assembled_fresh hc⟩, rfl⟩
  refine ⟨r, hrun, hr.inBounds, fun data index eof hargs => ?_⟩
  obtain ⟨r', hpush, -⟩ := pushSubstring_spec hr (Or.inl hargs) eof
  refine ⟨by rw [hpush]; rfl, ?_⟩
  cases hout : (r.noteEof (endIndex index data) eof).outside data index with
  | true => exact Or.inl rfl
  | false => exact Or.inr (drainedWhole_of_meets hr (Or.inl hargs) eof hout)

/-- A segment that fills the window and is cut off at its end, a pop, a push whose end index wraps,
and one that closes the gap. -/
theorem memory_limit_full :
    ∃ r, run StreamReassembler.step (StreamReassembler.fresh 3)
        [.push [2, 3, 4] 1 true, .pop 1, .push [9, 9] (2 ^ 64 - 1) false] = some r ∧
      StreamReassembler.InBounds r 3 ∧ (r.pushSubstring [1] 0 false).isSome := by
  obtain ⟨r, hrun, hin, hpush⟩ := memory_limit 3 _ rfl
    [.push [2, 3, 4] 1 true, .pop 1, .push [9, 9] (2 ^ 64 - 1) false] (by decide)
  exact ⟨r, hrun, hin, (hpush [1] 0 false (by decide)).1⟩

end Sponge
