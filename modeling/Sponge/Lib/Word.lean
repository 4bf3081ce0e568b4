import Mathlib.Algebra.Ring.Int.Defs
import Mathlib.Algebra.Ring.Nat
import Mathlib.Tactic.Common

/-!
# Unsigned words

Unsigned 64-bit values are natural numbers; the operations that can leave the range reduce
modulo `2 ^ 64`, as the machine does.
-/

namespace Word

/-- The number of values of a 64-bit word. -/
def size : Nat := 2 ^ 64

theorem size_eq : size = 18446744073709551616 := rfl

/-- Sum of two 64-bit words. -/
def add (a b : Nat) : Nat := (a + b) % size

/-- Difference of two 64-bit words: below zero it starts again at the top. -/
def sub (a b : Nat) : Nat := if b ≤ a then a - b else a + size - b

theorem add_lt (a b : Nat) : add a b < size := Nat.mod_lt _ (by decide)

theorem add_of_lt {a b : Nat} (h : a + b < size) : add a b = a + b := Nat.mod_eq_of_lt h

/-- A sum that leaves the range of a word comes back from below. -/
theorem add_of_le {a b : Nat} (ha : a < size) (hb : b < size) (h : size ≤ a + b) :
    add a b = a + b - size := by
  simp only [add, size_eq] at *
  omega

theorem sub_of_le {a b : Nat} (h : b ≤ a) : sub a b = a - b := if_pos h

theorem sub_of_lt {a b : Nat} (h : a < b) : sub a b = a + size - b := if_neg (by omega)

/-- The difference of two counters is exact as long as it fits into a word. -/
theorem sub_mod (a : Nat) {b : Nat} (h : b < size) : sub ((a + b) % size) (a % size) = b := by
  rcases Nat.lt_or_ge ((a + b) % size) (a % size) with hlt | hle
  · rw [sub_of_lt hlt]
    simp only [size_eq] at *
    omega
  · rw [sub_of_le hle]
    simp only [size_eq] at *
    omega

end Word
