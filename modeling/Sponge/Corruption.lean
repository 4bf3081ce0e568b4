import Sponge.SegmentRoundTrip

/-!
# Corrupted segments

`corruption_caught`: a segment that passes the check and is then changed within one aligned 16-bit
word is rejected.  One's complement sums have two zeros, and only a change from the one to the other
goes unnoticed; a change of a single byte never is such a change.
-/

namespace Sponge

open OnesComplement

namespace TCPSegment

variable {b b' : List UInt8} {c : UInt32} {k : Nat}

theorem passesCheck_iff (hb : b.length ≤ 65535) (hc : c.toNat < 2 ^ 31) :
    PassesCheck b c ↔ fold 0xffff (c.toNat + wordSum b) = 0xffff := by
  rw [passesCheck_iff_zero hb hc, internetChecksum_eq_zero_iff]

/-- Two strings that pass the check and differ only in word `k` are equal, but for the two zeros. -/
theorem eq_of_passesCheck (hb : b.length ≤ 65535) (hc : c.toNat < 2 ^ 31)
    (hlen : b'.length = b.length) (honly : ∀ i, i / 2 ≠ k → b'[i]? = b[i]?)
    (h : PassesCheck b c) (h' : PassesCheck b' c) :
    b' = b ∨ word b k = 0 ∧ word b' k = 0xffff ∨ word b k = 0xffff ∧ word b' k = 0 := by
  rw [passesCheck_iff hb hc] at h
  rw [passesCheck_iff (by omega) hc] at h'
  have hsum := wordSum_changed hlen honly
  have hword := eq_of_fold_eq (by decide) (word_le b k) (word_le b' k)
    (show c.toNat + wordSum b' + word b k = c.toNat + wordSum b + word b' k by omega) h h'
  exact hword.imp_left (eq_of_word_eq hlen honly)

/-- What `serialize` writes passes the check, whatever the header is. -/
theorem passesCheck_serialize {seg : TCPSegment} {buffers : BufferList}
    (hc : c.toNat < 2 ^ 31) (hser : seg.serialize c = .ok buffers)
    (hlen : buffers.contents.length ≤ 65535) : PassesCheck buffers.contents c := by
  have hdoff := le_doff_of_serialize hser
  obtain ⟨buffers', hser', hcat⟩ := serialize_eq hdoff c
  obtain rfl : buffers' = buffers := Except.ok.inj (hser'.symm.trans hser)
  have hcksum := InternetChecksum.value_add hc (show (seg.encoded 0).length ≤ 65535 by
    rwa [encoded_length hdoff, ← encoded_length hdoff, ← hcat])
  rw [passesCheck_iff hlen hc, ← internetChecksum_eq_zero_iff, hcat, hcksum]
  exact checksum_encoded seg c

end TCPSegment

open TCPSegment in
/-- **Corruption confined to one word is caught.**  Let `b` pass the check, and let `b'` have the
same length and differ from it, but only in the bytes of word `k`.  Then `parse` returns
`BadChecksum` and leaves the segment object alone, unless the word was turned from `0x0000` into
`0xffff` or back.  In particular it does so for everything that `serialize` writes, when one byte of
it is changed. -/
theorem corruption_caught (seg₀ : TCPSegment) (c : UInt32) (hc : c.toNat < 2 ^ 31) :
    (∀ (b b' : List UInt8) (k : Nat), b.length ≤ 65535 → PassesCheck b c →
      b'.length = b.length → b' ≠ b → (∀ i, i / 2 ≠ k → b'[i]? = b[i]?) →
      ¬ (word b k = 0x0000 ∧ word b' k = 0xffff) → ¬ (word b k = 0xffff ∧ word b' k = 0x0000) →
      seg₀.parse b' c = (.badChecksum, seg₀)) ∧
    ∀ (seg : TCPSegment) (buffers : BufferList), seg.serialize c = .ok buffers →
      buffers.contents.length ≤ 65535 → ∀ i x, i < buffers.contents.length →
      buffers.contents[i]? ≠ some x →
      seg₀.parse (buffers.contents.set i x) c = (.badChecksum, seg₀) := by
  refine ⟨?_, ?_⟩
  · intro b b' k hb hpass hlen hne honly hzero hones
    refine parse_of_not_passesCheck seg₀ fun hpass' => ?_
    rcases eq_of_passesCheck hb hc hlen honly hpass hpass' with heq | h | h
    · exact hne heq
    · exact hzero h
    · exact hones h
  · intro seg buffers hser hlen i x hi hx
    have hpass := passesCheck_serialize hc hser hlen
    obtain ⟨hzero, hones⟩ := word_set_zeros buffers.contents i x
    refine parse_of_not_passesCheck seg₀ fun hpass' => ?_
    have honly : ∀ j, j / 2 ≠ i / 2 →
        (buffers.contents.set i x)[j]? = buffers.contents[j]? :=
      fun j hj => List.getElem?_set_ne (fun hij => hj (by rw [hij]))
    rcases eq_of_passesCheck hlen hc (List.length_set ..) honly hpass hpass' with heq | h | h
    · -- the byte itself has changed
      refine hx ?_
      rw [← heq]
      exact List.getElem?_set_self hi
    · exact hzero h
    · exact hones h

/-- The sequence number of a segment is changed in one byte, and another word in both of its
bytes. -/
theorem corruption_caught_seqno :
    TCPSegment.parse {} [0, 1, 0, 2, 0, 0, 0, 7, 0, 0, 0, 4, 0x50, 2, 0, 5, 0xaf, 0xee, 0, 0] 0 =
      (.badChecksum, {}) ∧
    TCPSegment.parse {} [0xff, 0xff, 0, 2, 0, 0, 0, 3, 0, 0, 0, 4, 0x50, 2, 0, 5, 0xaf, 0xee, 0, 0]
      0 = (.badChecksum, {}) := by
  have hpass : TCPSegment.PassesCheck
      [0, 1, 0, 2, 0, 0, 0, 3, 0, 0, 0, 4, 0x50, 2, 0, 5, 0xaf, 0xee, 0, 0] 0 := by decide +kernel
  refine ⟨(corruption_caught {} 0 (by decide)).1 _ _ 3 (by decide) hpass rfl (by decide) ?_
    (by decide) (by decide), (corruption_caught {} 0 (by decide)).1 _ _ 0 (by decide) hpass rfl
    (by decide) ?_ (by decide) (by decide)⟩
  · intro i hi
    rcases i with _ | _ | _ | _ | _ | _ | _ | _ | i <;> first | rfl | omega
  · intro i hi
    rcases i with _ | _ | i <;> first | rfl | omega

end Sponge
