import Sponge.Lib.BigEndian
import Sponge.Lib.OnesComplement

/-!
# The Internet checksum

`InternetChecksum` (util/util.hh, util.cc).  `internetChecksum` says what the checksum of a byte
string is: the complement of the one's complement sum of its 16-bit words.  `value_add`: that is
what the code computes byte by byte, in a 32-bit sum that does not overflow for a segment, and
`checksum_of_chunks`: however the bytes are cut into chunks.
-/

namespace Sponge

open BigEndian OnesComplement

structure InternetChecksum where
  sum : Nat
  parity : Bool := false
  deriving DecidableEq, Repr

namespace InternetChecksum

/-- The constructor. -/
def new (initialSum : UInt32) : InternetChecksum := { sum := initialSum.toNat }

/-- One round of the loop of `add`: bytes at even places are the upper halves of words. -/
def addByte (c : InternetChecksum) (byte : UInt8) : InternetChecksum :=
  let val := if c.parity then byte.toNat else byte.toNat <<< 8
  { sum := (c.sum + val) % 2 ^ 32, parity := !c.parity }

def add (c : InternetChecksum) (data : List UInt8) : InternetChecksum := data.foldl addByte c

/-- The loop of `value`. -/
def foldCarry (ret : Nat) : Nat :=
  if 0xffff < ret then foldCarry ((ret >>> 16) + (ret &&& 0xffff)) else ret
  termination_by ret
  decreasing_by
    rw [Nat.shiftRight_eq_div_pow,
      show ret &&& 0xffff = ret % 2 ^ 16 from Nat.and_two_pow_sub_one_eq_mod ret 16]
    omega

def value (c : InternetChecksum) : UInt16 := (~~~ UInt32.ofNat (foldCarry c.sum)).toUInt16

/-! ## What the code computes -/

theorem foldCarry_eq (n : Nat) : foldCarry n = fold 0xffff n := by
  induction n using foldCarry.induct with
  | case1 n h ih =>
    rw [foldCarry, if_pos h, ih, ← fold_carry 0xffff n, Nat.shiftRight_eq_div_pow,
      show n &&& 0xffff = n % 2 ^ 16 from Nat.and_two_pow_sub_one_eq_mod n 16]
    rfl
  | case2 n h =>
    rw [foldCarry, if_neg h, fold_of_le (by omega)]

theorem value_toNat (c : InternetChecksum) : c.value.toNat = 0xffff - fold 0xffff c.sum := by
  have hle := fold_le (show 0 < 0xffff by decide) c.sum
  unfold value
  rw [foldCarry_eq, UInt32.toNat_toUInt16, UInt32.toNat_not, UInt32.toNat_ofNat',
    UInt32.size]
  omega

theorem add_append (c : InternetChecksum) (xs ys : List UInt8) :
    c.add (xs ++ ys) = (c.add xs).add ys := List.foldl_append

/-- Starting at an even place, the bytes of the data are added as 16-bit words. -/
theorem add_sum (data : List UInt8) : ∀ c : InternetChecksum, c.parity = false → c.sum < 2 ^ 32 →
    (c.add data).sum = (c.sum + wordSum data) % 2 ^ 32 := by
  induction data using wordSum.induct with
  | case1 =>
    intro c _ hlt
    exact (Nat.mod_eq_of_lt hlt).symm
  | case2 a =>
    intro c hp _
    simp [add, addByte, hp, wordSum, Nat.shiftLeft_eq]
  | case3 a b rest ih =>
    intro c hp hlt
    have hc : c.add (a :: b :: rest) = ((c.addByte a).addByte b).add rest := rfl
    have hsum : ((c.addByte a).addByte b).sum = (c.sum + (a.toNat * 256 + b.toNat)) % 2 ^ 32 := by
      simp only [addByte, hp, Bool.not_false, if_true, Bool.false_eq_true, if_false,
        Nat.shiftLeft_eq]
      omega
    rw [hc, ih _ (by simp [addByte, hp]) (by rw [hsum]; omega), hsum, wordSum]
    omega

end InternetChecksum

/-- The Internet checksum of a byte string, with an initial sum. -/
def internetChecksum (initialSum : UInt32) (data : List UInt8) : Nat :=
  0xffff - fold 0xffff (initialSum.toNat + wordSum data)

/-- **The code computes the Internet checksum.** -/
theorem InternetChecksum.value_add {initialSum : UInt32} {data : List UInt8}
    (hsum : initialSum.toNat < 2 ^ 31) (hdata : data.length ≤ 65535) :
    ((new initialSum).add data).value.toNat = internetChecksum initialSum data := by
  have hle := wordSum_le data
  rw [value_toNat, add_sum data (new initialSum) rfl initialSum.toNat_lt, internetChecksum,
    show (new initialSum).sum = initialSum.toNat from rfl, Nat.mod_eq_of_lt (by omega)]

/-! ## Chunks -/

namespace InternetChecksum

/-- One round of the loop of `value`. -/
def carry (ret : Nat) : Nat := (ret >>> 16) + (ret &&& 0xffff)

/-- The loop ends: after some number of rounds, each of them on a larger number, the result fits
16 bits. -/
theorem foldCarry_rounds (n : Nat) : ∃ rounds, foldCarry n = carry^[rounds] n ∧
    carry^[rounds] n ≤ 0xffff ∧ ∀ j < rounds, 0xffff < carry^[j] n := by
  induction n using foldCarry.induct with
  | case1 n h ih =>
    obtain ⟨rounds, heq, hle, hmore⟩ := ih
    rw [foldCarry, if_pos h]
    refine ⟨rounds + 1, heq, hle, fun j hj => ?_⟩
    cases j with
    | zero => exact h
    | succ j => exact hmore j (by omega)
  | case2 n h =>
    rw [foldCarry, if_neg h]
    exact ⟨0, rfl, Nat.not_lt.mp h, fun j hj => absurd hj (Nat.not_lt_zero j)⟩

/-- The parity carries over from one chunk to the next. -/
theorem foldl_add (chunks : List (List UInt8)) : ∀ c : InternetChecksum,
    chunks.foldl add c = c.add chunks.flatten := by
  induction chunks with
  | nil => exact fun _ => rfl
  | cons chunk chunks ih =>
    intro c
    rw [List.foldl_cons, ih, List.flatten_cons, add_append]

end InternetChecksum

open InternetChecksum in
/-- **The checksum does not depend on the chunks.**  `t` is the initial sum plus the 16-bit words of
all bytes, of which there are at most 65535.  After the chunks are added, the accumulator is the one
for the whole string and holds `t` itself; the loop of `value` ends; and the checksum is the
complement of the number from 1 to 65535 that agrees with `t` modulo 65535, or of 0 if `t` is 0. -/
theorem checksum_of_chunks (initialSum : UInt32) (chunks : List (List UInt8))
    (hsum : initialSum.toNat < 2 ^ 31) (hlen : chunks.flatten.length ≤ 65535) (t : Nat)
    (ht : t = initialSum.toNat + wordSum chunks.flatten) :
    chunks.foldl add (new initialSum) = (new initialSum).add chunks.flatten ∧
    (chunks.foldl add (new initialSum)).sum = t ∧
    (∃ rounds, foldCarry t = carry^[rounds] t ∧ carry^[rounds] t ≤ 0xffff ∧
      ∀ j < rounds, 0xffff < carry^[j] t) ∧
    (t = 0 → (chunks.foldl add (new initialSum)).value.toNat = 0xffff) ∧
    (t ≠ 0 → ∃ r, (1 ≤ r ∧ r ≤ 65535 ∧ r ≡ t [MOD 65535]) ∧
      (∀ r', 1 ≤ r' → r' ≤ 65535 → r' ≡ t [MOD 65535] → r' = r) ∧
      (chunks.foldl add (new initialSum)).value.toNat = 0xffff - r) := by
  have hacc : (chunks.foldl add (new initialSum)).sum = t := by
    have hle := wordSum_le chunks.flatten
    rw [foldl_add, add_sum _ (new initialSum) rfl initialSum.toNat_lt, ht]
    exact Nat.mod_eq_of_lt (by change initialSum.toNat + _ < _; omega)
  have hvalue := value_toNat (chunks.foldl add (new initialSum))
  rw [hacc] at hvalue
  refine ⟨foldl_add chunks _, hacc, foldCarry_rounds t, fun h0 => ?_, fun h0 => ?_⟩
  · rw [hvalue, h0]
    rfl
  · have hpos : 0 < t := by omega
    exact ⟨fold 65535 t, ⟨fold_pos hpos, fold_le (by decide) t, fold_modEq 65535 t⟩,
      fun r' h1 hr' hmod => fold_unique hpos h1 hr' hmod, hvalue⟩

/-- Odd and empty chunks, and a sum that is folded twice. -/
theorem checksum_of_chunks_odd :
    ([[0x12], [], [0x34, 0x56, 0x78], [0x9a]].foldl InternetChecksum.add
      (InternetChecksum.new 0x7fffffff)).sum = 2147483647 + (0x1234 + 0x5678 + 0x9a00) :=
  (checksum_of_chunks 0x7fffffff [[0x12], [], [0x34, 0x56, 0x78], [0x9a]] (by decide) (by decide)
    (2147483647 + (0x1234 + 0x5678 + 0x9a00)) (by decide)).2.1

/-! ## A string with its own checksum inside

`front` and `back` are the bytes before and after the two bytes of the checksum. -/

theorem internetChecksum_eq_zero_iff (c : UInt32) (data : List UInt8) :
    internetChecksum c data = 0 ↔ fold 0xffff (c.toNat + wordSum data) = 0xffff := by
  have := fold_le (show 0 < 0xffff by decide) (c.toNat + wordSum data)
  unfold internetChecksum
  omega

/-- The checksum of a sum that is not zero is never the second representation of zero. -/
theorem internetChecksum_lt {c : UInt32} {data : List UInt8} (hpos : 0 < c.toNat + wordSum data) :
    internetChecksum c data < 0xffff := by
  have := fold_pos (m := 0xffff) hpos
  unfold internetChecksum
  omega

theorem wordSum_toBytes {x : Nat} (hx : x < 2 ^ 16) : wordSum (toBytes 2 x) = x := by
  simp only [toBytes, wordSum, UInt8.toNat_ofNat', Nat.shiftRight_eq_div_pow]
  omega

section Field

variable {c : UInt32} {front back : List UInt8} {x : Nat}

/-- The two bytes of a field are one word of the sum. -/
theorem wordSum_field (hfront : front.length % 2 = 0) (hx : x < 2 ^ 16) (back : List UInt8) :
    wordSum (front ++ (toBytes 2 x ++ back)) = wordSum front + wordSum back + x := by
  rw [wordSum_append hfront, wordSum_append (by rw [toBytes_length]), wordSum_toBytes hx]
  omega

/-- The checksum of the rest makes the checksum of the whole zero. -/
theorem internetChecksum_complement (hfront : front.length % 2 = 0)
    (hx : x = internetChecksum c (front ++ (toBytes 2 0 ++ back))) :
    internetChecksum c (front ++ (toBytes 2 x ++ back)) = 0 := by
  have hlt : x < 2 ^ 16 := by
    rw [hx, internetChecksum]
    omega
  have hzero := wordSum_field hfront (show 0 < 2 ^ 16 by decide) back
  rw [internetChecksum_eq_zero_iff, wordSum_field hfront hlt, hx, internetChecksum, hzero,
    Nat.add_zero, ← Nat.add_assoc]
  exact fold_add_complement (by decide) _

/-- Nothing else does, but for the second representation of zero. -/
theorem internetChecksum_unique (hfront : front.length % 2 = 0)
    (hpos : 0 < c.toNat + wordSum (front ++ (toBytes 2 0 ++ back))) (hlt : x < 2 ^ 16)
    (hx : internetChecksum c (front ++ (toBytes 2 x ++ back)) = 0) :
    x = internetChecksum c (front ++ (toBytes 2 0 ++ back)) ∨
      x = 0xffff ∧ internetChecksum c (front ++ (toBytes 2 0 ++ back)) = 0 := by
  have hzero := wordSum_field hfront (show 0 < 2 ^ 16 by decide) back
  rw [internetChecksum_eq_zero_iff, wordSum_field hfront hlt, ← Nat.add_assoc] at hx
  unfold internetChecksum
  rw [hzero, Nat.add_zero] at hpos ⊢
  exact eq_complement (by decide) hpos (by omega) hx

end Field

end Sponge
