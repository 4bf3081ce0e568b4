import Mathlib.Algebra.Ring.Int.Defs
import Mathlib.Algebra.Ring.Nat
import Mathlib.Tactic.Common
import Sponge.Lib.Word

/-!
# Wrapping 32-bit sequence numbers

`WrappingInt32`, `wrap` and `unwrap` (wrapping_integers.hh, wrapping_integers.cc).  Absolute
64-bit sequence numbers are natural numbers; the signed intermediate results of `unwrap` are
integers, converted at the places where the source converts them.

* `unwrap_closest`: below `2 ^ 63`, `unwrap` returns the closest number that wraps to its argument;
* `unwrap_wrap_iff`: a number near the checkpoint is recovered exactly if it is below `2 ^ 63`.
  Above, the signed result is negative and is moved up by `2 ^ 32` (`large_seqno_is_lost`).
-/

namespace Sponge

structure WrappingInt32 where
  rawValue : UInt32
  deriving DecidableEq, Repr

namespace WrappingInt32

/-- `operator-(WrappingInt32, WrappingInt32)`: the offset as an `int32_t`. -/
def diff (a b : WrappingInt32) : Int := (a.rawValue - b.rawValue).toBitVec.toInt

/-- `operator+(WrappingInt32, uint32_t)`. -/
def add (a : WrappingInt32) (b : UInt32) : WrappingInt32 := ⟨a.rawValue + b⟩

end WrappingInt32

def wrap (n : Nat) (isn : WrappingInt32) : WrappingInt32 := isn.add (UInt32.ofNat n)

/-- The conversion of a 64-bit word to `int64_t`. -/
def toInt64 (n : Int) : Int := n.bmod (2 ^ 64)

/-- The conversion of an `int64_t` to `uint64_t`. -/
def toUInt64 (n : Int) : Nat := (n % 2 ^ 64).toNat

def unwrap (n isn : WrappingInt32) (checkpoint : Nat) : Nat :=
  let offset := n.diff (wrap checkpoint isn)
  let result := toInt64 (checkpoint + offset)
  if result < 0 then toUInt64 (result + 2 ^ 32) else toUInt64 result

/-! ## The offset to the checkpoint -/

theorem diff_eq (a b : WrappingInt32) :
    a.diff b = ((a.rawValue.toNat : Int) - b.rawValue.toNat).bmod (2 ^ 32) := by
  unfold WrappingInt32.diff
  rw [BitVec.toInt_eq_toNat_bmod, UInt32.toBitVec_sub, BitVec.toNat_sub]
  simp only [UInt32.toNat_toBitVec]
  have ha := a.rawValue.toNat_lt
  have hb := b.rawValue.toNat_lt
  simp only [Int.bmod_def]
  omega

theorem diff_range (a b : WrappingInt32) : -2 ^ 31 ≤ a.diff b ∧ a.diff b < 2 ^ 31 := by
  rw [diff_eq]
  simp only [Int.bmod_def]
  omega

theorem wrap_rawValue (n : Nat) (isn : WrappingInt32) :
    (wrap n isn).rawValue.toNat = (isn.rawValue.toNat + n) % 2 ^ 32 := by
  simp [wrap, WrappingInt32.add, UInt32.toNat_add]

theorem WrappingInt32.ext_toNat {a b : WrappingInt32} (h : a.rawValue.toNat = b.rawValue.toNat) :
    a = b := by
  cases a; cases b
  simp only [WrappingInt32.mk.injEq]
  exact UInt32.toNat_inj.mp h

/-- Two absolute numbers wrap to the same value exactly when they agree modulo `2 ^ 32`. -/
theorem wrap_eq_wrap_iff (m n : Nat) (isn : WrappingInt32) :
    wrap m isn = wrap n isn ↔ m % 2 ^ 32 = n % 2 ^ 32 := by
  constructor
  · intro h
    have h' := congrArg (fun w => w.rawValue.toNat) h
    simp only [wrap_rawValue] at h'
    omega
  · intro h
    apply WrappingInt32.ext_toNat
    simp only [wrap_rawValue]
    omega

@[simp] theorem wrap_zero (isn : WrappingInt32) : wrap 0 isn = isn := by
  apply WrappingInt32.ext_toNat
  rw [wrap_rawValue]
  have := isn.rawValue.toNat_lt
  omega

theorem diff_wrap (v c : Nat) (isn : WrappingInt32) (h : c ≤ v + 2 ^ 31) (h' : v < c + 2 ^ 31) :
    (wrap v isn).diff (wrap c isn) = (v : Int) - c := by
  rw [diff_eq, wrap_rawValue, wrap_rawValue]
  simp only [Int.bmod_def]
  omega

/-! ## What unwraps to what -/

/-- Whatever the conversions do, the offset to the checkpoint is right modulo `2 ^ 32`. -/
theorem unwrap_emod (n isn : WrappingInt32) (c : Nat) :
    (unwrap n isn c : Int) % 2 ^ 32 = (c + n.diff (wrap c isn)) % 2 ^ 32 := by
  have hsigned : ∀ x : Int, toInt64 x % 2 ^ 32 = x % 2 ^ 32 := by
    intro x
    simp only [toInt64, Int.bmod_def]
    omega
  have hunsigned : ∀ x : Int, (toUInt64 x : Int) % 2 ^ 32 = x % 2 ^ 32 := by
    intro x
    simp only [toUInt64]
    omega
  have hresult := hsigned (c + n.diff (wrap c isn))
  unfold unwrap
  dsimp only
  split
  · rw [hunsigned]
    omega
  · rw [hunsigned, hresult]

/-- **`unwrap` is a right inverse of `wrap`**, for every checkpoint. -/
theorem wrap_unwrap (n isn : WrappingInt32) (c : Nat) : wrap (unwrap n isn c) isn = n := by
  have hmod := unwrap_emod n isn c
  rw [diff_eq, wrap_rawValue, Int.bmod_def] at hmod
  have hn := n.rawValue.toNat_lt
  apply WrappingInt32.ext_toNat
  rw [wrap_rawValue]
  split at hmod <;> omega

/-- Two numbers less than `2 ^ 32` apart that wrap to the same value are equal. -/
theorem eq_of_wrap_eq {m n : Nat} {isn : WrappingInt32} (h : wrap m isn = wrap n isn)
    (hmn : m < n + 2 ^ 32) (hnm : n < m + 2 ^ 32) : m = n := by
  rw [wrap_eq_wrap_iff] at h
  omega

theorem wrap_add_congr {m n : Nat} {isn : WrappingInt32} (h : wrap m isn = wrap n isn) (k : Nat) :
    wrap (m + k) isn = wrap (n + k) isn := by
  rw [wrap_eq_wrap_iff] at h ⊢
  omega

/-- A sum that leaves the range of a 64-bit word wraps to the same value. -/
theorem wrap_wordAdd (m k : Nat) (isn : WrappingInt32) :
    wrap (Word.add m k) isn = wrap (m + k) isn := by
  rw [wrap_eq_wrap_iff, Word.add, Word.size_eq]
  omega

/-! ## The conversions between signed and unsigned words -/

theorem toInt64_of_range {x : Int} (h : -2 ^ 63 ≤ x) (h' : x < 2 ^ 63) : toInt64 x = x := by
  simp only [toInt64, Int.bmod_def]
  omega

theorem toUInt64_of_nonneg {v : Int} (h : 0 ≤ v) (h' : v < 2 ^ 64) : (toUInt64 v : Int) = v := by
  simp only [toUInt64]
  omega

theorem toUInt64_natCast {n : Nat} (h : n < 2 ^ 64) : toUInt64 n = n :=
  Int.natCast_inj.mp (toUInt64_of_nonneg (Int.natCast_nonneg n) (by omega))

/-! ## Unwrapping near the checkpoint -/

theorem unwrap_eq_of_nonneg (n isn : WrappingInt32) (c : Nat)
    (h0 : 0 ≤ (c : Int) + n.diff (wrap c isn)) (h1 : (c : Int) + n.diff (wrap c isn) < 2 ^ 63) :
    (unwrap n isn c : Int) = c + n.diff (wrap c isn) := by
  have hr := toInt64_of_range (x := c + n.diff (wrap c isn)) (by omega) h1
  rw [unwrap, hr, if_neg (by omega), toUInt64_of_nonneg h0 (by omega)]

/-- Below the first sequence number the result is moved up by `2 ^ 32`. -/
theorem unwrap_eq_of_neg (n isn : WrappingInt32) (c : Nat) (hc : c < 2 ^ 63)
    (h : (c : Int) + n.diff (wrap c isn) < 0) :
    (unwrap n isn c : Int) = c + n.diff (wrap c isn) + 2 ^ 32 := by
  have hd := diff_range n (wrap c isn)
  have hr := toInt64_of_range (x := c + n.diff (wrap c isn)) (by omega) (by omega)
  rw [unwrap, hr, if_pos h, toUInt64_of_nonneg (by omega) (by omega)]

/-- **Round trip.**  A number within `2 ^ 31` of the checkpoint is recovered. -/
theorem unwrap_wrap (v c : Nat) (isn : WrappingInt32) (h : c ≤ v + 2 ^ 31)
    (h' : v < c + 2 ^ 31) (hv : v < 2 ^ 63) : unwrap (wrap v isn) isn c = v := by
  have hd := diff_wrap v c isn h h'
  have := unwrap_eq_of_nonneg (wrap v isn) isn c (by omega) (by omega)
  omega

/-! ## The closest number -/

/-- The result, as the source computes it, when nothing leaves the range of an `int64_t`. -/
theorem unwrap_eq (n isn : WrappingInt32) {c : Nat} (hc : c < 2 ^ 63 - 2 ^ 31) :
    (unwrap n isn c : Int) = c + n.diff (wrap c isn) ∧ 0 ≤ (c : Int) + n.diff (wrap c isn) ∨
      (unwrap n isn c : Int) = c + n.diff (wrap c isn) + 2 ^ 32 ∧
        (c : Int) + n.diff (wrap c isn) < 0 := by
  have hd := diff_range n (wrap c isn)
  rcases Int.lt_or_le ((c : Int) + n.diff (wrap c isn)) 0 with hneg | hpos
  · exact Or.inr ⟨unwrap_eq_of_neg n isn c (by omega) hneg, hneg⟩
  · exact Or.inl ⟨unwrap_eq_of_nonneg n isn c hpos (by omega), hpos⟩

/-- **`unwrap` returns the closest match.**  The result wraps to `n`, it is below `2 ^ 63`, and no
other 64-bit number that wraps to `n` is closer to the checkpoint; of two at the distance `2 ^ 31`
it is the smaller one. -/
theorem unwrap_closest (n isn : WrappingInt32) (c : Nat) (hc : c < 2 ^ 63 - 2 ^ 31) :
    wrap (unwrap n isn c) isn = n ∧ unwrap n isn c < 2 ^ 63 ∧
    (∀ r < 2 ^ 64, wrap r isn = n →
      ¬ ((r : Int) - c).natAbs < ((unwrap n isn c : Int) - c).natAbs) ∧
    ∀ r < 2 ^ 64, wrap r isn = n → ((r : Int) - c).natAbs = 2 ^ 31 →
      ((unwrap n isn c : Int) - c).natAbs = 2 ^ 31 → unwrap n isn c ≤ r := by
  have hwrap := wrap_unwrap n isn c
  have hd := diff_range n (wrap c isn)
  -- another candidate differs from the result by a multiple of `2 ^ 32`
  have hmod : ∀ r, wrap r isn = n → r % 2 ^ 32 = unwrap n isn c % 2 ^ 32 := by
    intro r hr
    rw [← wrap_eq_wrap_iff r _ isn, hr, hwrap]
  refine ⟨hwrap, ?_, ?_, ?_⟩
  · rcases unwrap_eq n isn hc with ⟨heq, -⟩ | ⟨heq, hneg⟩ <;> omega
  · intro r _ hr
    have := hmod r hr
    rcases unwrap_eq n isn hc with ⟨heq, -⟩ | ⟨heq, hneg⟩ <;> omega
  · intro r _ hr _ _
    have := hmod r hr
    rcases unwrap_eq n isn hc with ⟨heq, -⟩ | ⟨heq, hneg⟩ <;> omega

/-- A checkpoint below `2 ^ 31`, where the closest number would be negative. -/
theorem unwrap_closest_low : unwrap ⟨15⟩ ⟨16⟩ 7 = 4294967295 ∧ wrap 4294967295 ⟨16⟩ = ⟨15⟩ :=
  have h : unwrap ⟨15⟩ ⟨16⟩ 7 = 4294967295 := by decide
  ⟨h, h ▸ (unwrap_closest ⟨15⟩ ⟨16⟩ 7 (by decide)).1⟩

/-! ## The whole 64-bit domain -/

/-- From `2 ^ 63` on the result is negative as an `int64_t`, and is moved up. -/
theorem unwrap_wrap_of_large (v c : Nat) (isn : WrappingInt32) (h : c ≤ v + 2 ^ 31)
    (h' : v < c + 2 ^ 31) (hv : 2 ^ 63 ≤ v) (hlt : v < 2 ^ 64) :
    unwrap (wrap v isn) isn c = (v + 2 ^ 32) % 2 ^ 64 := by
  have hd := diff_wrap v c isn h h'
  have hr : toInt64 (c + (wrap v isn).diff (wrap c isn)) = (v : Int) - 2 ^ 64 := by
    rw [hd]
    simp only [toInt64, Int.bmod_def]
    omega
  simp only [unwrap, hr, toUInt64]
  split <;> omega

/-- **When the round trip succeeds.**  Of the 64-bit numbers less than `2 ^ 31` away from the
checkpoint, exactly those below `2 ^ 63` are recovered. -/
theorem unwrap_wrap_iff (v c : Nat) (isn : WrappingInt32) (hv : v < 2 ^ 64)
    (hnear : ((v : Int) - c).natAbs < 2 ^ 31) :
    unwrap (wrap v isn) isn c = v ↔ v < 2 ^ 63 := by
  constructor
  · intro heq
    by_contra hlarge
    rw [unwrap_wrap_of_large v c isn (by omega) (by omega) (by omega) hv] at heq
    omega
  · intro hsmall
    exact unwrap_wrap v c isn (by omega) (by omega) hsmall

/-- The last number below the bound, with the checkpoint beyond it. -/
theorem unwrap_wrap_iff_last :
    unwrap (wrap (2 ^ 63 - 1) ⟨7⟩) ⟨7⟩ (2 ^ 63 + 5) = 2 ^ 63 - 1 :=
  (unwrap_wrap_iff (2 ^ 63 - 1) (2 ^ 63 + 5) ⟨7⟩ (by decide) (by decide)).mpr (by decide)

/-- With the checkpoint at the number itself. -/
theorem large_seqno_is_lost :
    unwrap (wrap (2 ^ 63) ⟨0⟩) ⟨0⟩ (2 ^ 63) = 2 ^ 63 + 2 ^ 32 ∧
      unwrap (wrap (2 ^ 63) ⟨0⟩) ⟨0⟩ (2 ^ 63) ≠ 2 ^ 63 := by
  decide

end Sponge
