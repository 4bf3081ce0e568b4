import Mathlib.Algebra.Ring.Nat
import Mathlib.Data.List.GetD
import Mathlib.Data.Nat.ModEq
import Mathlib.Tactic.Common

/-!
# One's complement sums

Numbers up to `m` with end-around carry: a carry out of base `m + 1` is added back at the bottom, so
that sums are sums modulo `m`.  Zero has two representations, `0` and `m`; only a sum of zeros is
`0`.  `fold m n` is the value of the sum `n` after all carries, and `m - fold m n` its complement:
the number that brings the sum to `m`, unique but for the two zeros.
-/

namespace OnesComplement

variable {m n : Nat}

/-- The value of the sum `n` after all carries. -/
def fold (m n : Nat) : Nat := if n = 0 then 0 else (n - 1) % m + 1

theorem fold_pos (h : 0 < n) : 0 < fold m n := by
  rw [fold, if_neg (by omega)]
  exact Nat.succ_pos _

theorem fold_le (hm : 0 < m) (n : Nat) : fold m n ≤ m := by
  unfold fold
  split
  · exact Nat.zero_le m
  · exact Nat.mod_lt _ hm

theorem fold_of_le (h : n ≤ m) : fold m n = n := by
  unfold fold
  split
  · omega
  · rw [Nat.mod_eq_of_lt (by omega)]
    omega

theorem fold_modEq (m n : Nat) : fold m n ≡ n [MOD m] := by
  unfold fold
  split
  · rename_i h
    rw [h]
  · calc (n - 1) % m + 1 ≡ (n - 1) + 1 [MOD m] := (Nat.mod_modEq _ _).add_right 1
      _ = n := by omega

/-- Two sums that agree modulo `m` have the same value, if both are positive. -/
theorem fold_congr {k : Nat} (hn : 0 < n) (hk : 0 < k) (h : n ≡ k [MOD m]) :
    fold m n = fold m k := by
  have hpred : n - 1 ≡ k - 1 [MOD m] := by
    refine Nat.ModEq.add_right_cancel' 1 ?_
    rwa [Nat.sub_add_cancel hn, Nat.sub_add_cancel hk]
  rw [fold, fold, if_neg (by omega), if_neg (by omega), hpred]

/-- **One end-around carry** does not change the value. -/
theorem fold_carry (m n : Nat) : fold m (n / (m + 1) + n % (m + 1)) = fold m n := by
  have hdiv := Nat.div_add_mod n (m + 1)
  rcases Nat.eq_zero_or_pos n with rfl | hn
  · simp
  · have hsplit : n = m * (n / (m + 1)) + (n / (m + 1) + n % (m + 1)) := by
      rw [Nat.add_mul, Nat.one_mul] at hdiv
      omega
    have hpos : 0 < n / (m + 1) + n % (m + 1) := by
      rcases Nat.eq_zero_or_pos (n / (m + 1) + n % (m + 1)) with h0 | hpos
      · obtain ⟨hq, hr⟩ := Nat.add_eq_zero_iff.mp h0
        rw [hq, hr] at hdiv
        omega
      · exact hpos
    have hmul : m * (n / (m + 1)) ≡ 0 [MOD m] :=
      Nat.modEq_zero_iff_dvd.mpr (Nat.dvd_mul_right m _)
    refine fold_congr hpos hn ?_
    calc n / (m + 1) + n % (m + 1) = 0 + (n / (m + 1) + n % (m + 1)) := (Nat.zero_add _).symm
      _ ≡ m * (n / (m + 1)) + (n / (m + 1) + n % (m + 1)) [MOD m] := hmul.symm.add_right _
      _ = n := hsplit.symm

/-- The sum is a multiple of `m` exactly if its value is `m`. -/
theorem fold_eq_iff (hm : 0 < m) (hn : 0 < n) : fold m n = m ↔ n ≡ 0 [MOD m] := by
  constructor
  · intro h
    have := fold_modEq m n
    rw [h] at this
    exact this.symm.trans (Nat.modEq_zero_iff_dvd.mpr (Nat.dvd_refl m))
  · intro h
    have hm0 : m ≡ 0 [MOD m] := Nat.modEq_zero_iff_dvd.mpr (Nat.dvd_refl m)
    rw [fold_congr hn hm (h.trans hm0.symm), fold_of_le (Nat.le_refl m)]

/-- The complement brings the sum to `m`. -/
theorem fold_add_complement (hm : 0 < m) (n : Nat) : fold m (n + (m - fold m n)) = m := by
  have hle := fold_le hm n
  have hpos : 0 < n + (m - fold m n) := by
    rcases Nat.eq_zero_or_pos n with rfl | hn
    · simpa [fold] using hm
    · omega
  rw [fold_eq_iff hm hpos]
  calc n + (m - fold m n) ≡ fold m n + (m - fold m n) [MOD m] :=
        (fold_modEq m n).symm.add_right _
    _ = m := by omega
    _ ≡ 0 [MOD m] := Nat.modEq_zero_iff_dvd.mpr (Nat.dvd_refl m)

/-- **The complement is unique** but for the second representation of zero. -/
theorem eq_complement (hm : 0 < m) (hn : 0 < n) {x : Nat} (hx : x ≤ m)
    (h : fold m (n + x) = m) : x = m - fold m n ∨ x = m ∧ m - fold m n = 0 := by
  have hle := fold_le hm n
  have hpos := fold_pos (m := m) hn
  have hmod : x ≡ m - fold m n [MOD m] := by
    refine Nat.ModEq.add_left_cancel' n ?_
    rw [fold_eq_iff hm (by omega)] at h
    have hc := fold_add_complement hm n
    rw [fold_eq_iff hm (by omega)] at hc
    exact h.trans hc.symm
  rcases Nat.lt_or_eq_of_le hx with hlt | rfl
  · exact Or.inl (hmod.eq_of_lt_of_lt hlt (by omega))
  · refine Or.inr ⟨rfl, ?_⟩
    have h0 : x - fold x n ≡ 0 [MOD x] :=
      hmod.symm.trans (Nat.modEq_zero_iff_dvd.mpr (Nat.dvd_refl x))
    exact h0.eq_of_lt_of_lt (by omega) hm

/-- The value of a positive sum is the number from `1` to `m` that agrees with it modulo `m`. -/
theorem fold_unique (hn : 0 < n) {r : Nat} (hpos : 1 ≤ r) (hr : r ≤ m) (h : r ≡ n [MOD m]) :
    r = fold m n := by
  rw [← fold_congr hpos hn h, fold_of_le hr]

/-- Two numbers up to `m` that agree modulo `m` are equal, but for the two zeros. -/
theorem eq_or_zeros {x y : Nat} (hx : x ≤ m) (hy : y ≤ m) (h : x ≡ y [MOD m]) :
    x = y ∨ x = 0 ∧ y = m ∨ x = m ∧ y = 0 := by
  have hself : m ≡ 0 [MOD m] := Nat.modEq_zero_iff_dvd.mpr (Nat.dvd_refl m)
  rcases Nat.lt_or_eq_of_le hx with hlt | rfl
  · rcases Nat.lt_or_eq_of_le hy with hlt' | rfl
    · exact Or.inl (h.eq_of_lt_of_lt hlt hlt')
    · exact Or.inr (Or.inl ⟨(h.trans hself).eq_of_lt_of_lt hlt (by omega), rfl⟩)
  · rcases Nat.lt_or_eq_of_le hy with hlt' | rfl
    · exact Or.inr (Or.inr ⟨rfl, (hself.symm.trans h).symm.eq_of_lt_of_lt hlt' (by omega)⟩)
    · exact Or.inl rfl

/-- **One changed summand.**  Two sums with the value `m` that differ in one summand have the same
summand there, but for the two zeros. -/
theorem eq_of_fold_eq {n' x x' : Nat} (hm : 0 < m) (hx : x ≤ m) (hx' : x' ≤ m)
    (hsum : n' + x = n + x') (h : fold m n = m) (h' : fold m n' = m) :
    x = x' ∨ x = 0 ∧ x' = m ∨ x = m ∧ x' = 0 := by
  have hmod : ∀ k, fold m k = m → k ≡ 0 [MOD m] := by
    intro k hk
    rcases Nat.eq_zero_or_pos k with rfl | hpos
    · rfl
    · exact (fold_eq_iff hm hpos).mp hk
  refine eq_or_zeros hx hx' ?_
  calc x = 0 + x := (Nat.zero_add x).symm
    _ ≡ n' + x [MOD m] := (hmod n' h').symm.add_right x
    _ = n + x' := hsum
    _ ≡ 0 + x' [MOD m] := (hmod n h).add_right x'
    _ = x' := Nat.zero_add x'

/-! ## Byte strings -/

/-- The sum of the 16-bit big-endian words of a byte string; an odd byte at the end is the upper
half of a last word. -/
def wordSum : List UInt8 → Nat
  | [] => 0
  | [a] => a.toNat * 256
  | a :: b :: rest => a.toNat * 256 + b.toNat + wordSum rest

theorem wordSum_append {xs : List UInt8} (h : xs.length % 2 = 0) (ys : List UInt8) :
    wordSum (xs ++ ys) = wordSum xs + wordSum ys := by
  induction xs using wordSum.induct with
  | case1 => simp [wordSum]
  | case2 a => simp at h
  | case3 a b rest ih =>
    have hrest : rest.length % 2 = 0 := by
      simp only [List.length_cons] at h
      omega
    simp only [List.cons_append, wordSum, ih hrest]
    omega

/-- Only a string of zeros has the sum 0. -/
theorem wordSum_pos {xs : List UInt8} {x : UInt8} (hx : x ∈ xs) (hpos : 0 < x.toNat) :
    0 < wordSum xs := by
  induction xs using wordSum.induct with
  | case1 => cases hx
  | case2 a =>
    rw [List.mem_singleton.mp hx] at hpos
    simp only [wordSum]
    omega
  | case3 a b rest ih =>
    simp only [wordSum]
    rcases List.mem_cons.mp hx with rfl | hx
    · omega
    · rcases List.mem_cons.mp hx with rfl | hx
      · omega
      · have := ih hx
        omega

/-- Word `k` of a byte string; after an odd byte at the end comes a zero. -/
def word (xs : List UInt8) (k : Nat) : Nat :=
  (xs.getD (2 * k) 0).toNat * 256 + (xs.getD (2 * k + 1) 0).toNat

theorem word_cons_cons (a b : UInt8) (xs : List UInt8) (k : Nat) :
    word (a :: b :: xs) (k + 1) = word xs k := by
  simp [word, Nat.mul_add]

theorem word_le (xs : List UInt8) (k : Nat) : word xs k ≤ 0xffff := by
  have := (xs.getD (2 * k) 0).toNat_lt
  have := (xs.getD (2 * k + 1) 0).toNat_lt
  unfold word
  omega

section Changed

variable {xs ys : List UInt8} {k : Nat}

/-- Strings that differ only in word `k` have sums that differ only in that word. -/
theorem wordSum_changed (hlen : ys.length = xs.length)
    (h : ∀ i, i / 2 ≠ k → ys[i]? = xs[i]?) :
    wordSum ys + word xs k = wordSum xs + word ys k := by
  induction xs using wordSum.induct generalizing ys k with
  | case1 =>
    obtain rfl := List.length_eq_zero_iff.mp hlen
    rfl
  | case2 a =>
    obtain ⟨b, rfl⟩ := List.length_eq_one_iff.mp hlen
    cases k with
    | zero => simp [word, wordSum, Nat.add_comm]
    | succ k =>
      have hb : b = a := by simpa using h 0 (by omega)
      rw [hb]
  | case3 a b rest ih =>
    obtain ⟨a', ys, rfl⟩ := List.exists_cons_of_length_eq_add_one hlen
    obtain ⟨b', ys, rfl⟩ := List.exists_cons_of_length_eq_add_one (Nat.succ.inj hlen)
    cases k with
    | zero =>
      have hrest : ys = rest := by
        refine List.ext_getElem? fun i => ?_
        simpa using h (i + 2) (by omega)
      simp only [hrest, word, wordSum, Nat.mul_zero, Nat.zero_add, List.getD_cons_zero,
        List.getD_cons_succ]
      omega
    | succ k =>
      have ha : a' = a := by simpa using h 0 (by omega)
      have hb : b' = b := by simpa using h 1 (by omega)
      have hsame : ∀ i, i / 2 ≠ k → ys[i]? = rest[i]? := fun i hi => by
        simpa using h (i + 2) (by omega)
      have htail := ih (Nat.succ.inj (Nat.succ.inj hlen)) hsame
      rw [word_cons_cons, word_cons_cons, wordSum, wordSum, ha, hb]
      omega

/-- Such strings are equal if the word is. -/
theorem eq_of_word_eq (hlen : ys.length = xs.length) (h : ∀ i, i / 2 ≠ k → ys[i]? = xs[i]?)
    (hword : word xs k = word ys k) : ys = xs := by
  have hhigh := (xs.getD (2 * k) 0).toNat_lt
  have hlow := (xs.getD (2 * k + 1) 0).toNat_lt
  have hhigh' := (ys.getD (2 * k) 0).toNat_lt
  have hlow' := (ys.getD (2 * k + 1) 0).toNat_lt
  unfold word at hword
  have heven : ys.getD (2 * k) 0 = xs.getD (2 * k) 0 := UInt8.toNat_inj.mp (by omega)
  have hodd : ys.getD (2 * k + 1) 0 = xs.getD (2 * k + 1) 0 := UInt8.toNat_inj.mp (by omega)
  refine List.ext_getElem hlen fun i hi hi' => ?_
  by_cases hk : i / 2 = k
  · rcases Nat.mod_two_eq_zero_or_one i with hmod | hmod
    · obtain rfl : i = 2 * k := by omega
      rwa [List.getD_eq_getElem ys 0 hi, List.getD_eq_getElem xs 0 hi'] at heven
    · obtain rfl : i = 2 * k + 1 := by omega
      rwa [List.getD_eq_getElem ys 0 hi, List.getD_eq_getElem xs 0 hi'] at hodd
  · have := h i hk
    rwa [List.getElem?_eq_getElem hi, List.getElem?_eq_getElem hi', Option.some.injEq] at this

/-- A change of one byte does not turn one zero into the other. -/
theorem word_set_zeros (xs : List UInt8) (i : Nat) (x : UInt8) :
    ¬ (word xs (i / 2) = 0 ∧ word (xs.set i x) (i / 2) = 0xffff) ∧
      ¬ (word xs (i / 2) = 0xffff ∧ word (xs.set i x) (i / 2) = 0) := by
  have hkeep : ∀ j, i ≠ j → (xs.set i x).getD j 0 = xs.getD j 0 := by
    intro j hj
    rw [List.getD_eq_getElem?_getD, List.getD_eq_getElem?_getD, List.getElem?_set_ne hj]
  have hhigh := (xs.getD (2 * (i / 2)) 0).toNat_lt
  have hhigh' := ((xs.set i x).getD (2 * (i / 2)) 0).toNat_lt
  have hlow := (xs.getD (2 * (i / 2) + 1) 0).toNat_lt
  have hlow' := ((xs.set i x).getD (2 * (i / 2) + 1) 0).toNat_lt
  unfold word
  rcases Nat.mod_two_eq_zero_or_one i with hmod | hmod
  · rw [hkeep (2 * (i / 2) + 1) (by omega)]
    omega
  · rw [hkeep (2 * (i / 2)) (by omega)]
    omega

end Changed

theorem wordSum_le (xs : List UInt8) : wordSum xs ≤ 65535 * ((xs.length + 1) / 2) := by
  induction xs using wordSum.induct with
  | case1 => simp [wordSum]
  | case2 a =>
    have := a.toNat_lt
    simp only [wordSum, List.length_singleton]
    omega
  | case3 a b rest ih =>
    have := a.toNat_lt
    have := b.toNat_lt
    simp only [wordSum, List.length_cons]
    omega

end OnesComplement
