import Mathlib.Data.Nat.Digits.Lemmas

/-!
# Formatted output

The part of `std::ostream` that the printing functions use: flags, fill character and width, and
the formatted insertion of strings, numbers and truth values.  `valueOf_digits` says that a printed
number can be read back.
-/

namespace Sponge

inductive Base
  | dec
  | oct
  | hex
  deriving DecidableEq

def Base.radix : Base → Nat
  | dec => 10
  | oct => 8
  | hex => 16

inductive Adjust
  | left
  | right
  | internal
  deriving DecidableEq

/-- The flags that `flags()` returns, as far as what is printed here obeys them. -/
structure FmtFlags where
  base : Base := .dec
  adjust : Adjust := .right
  showbase : Bool := false
  uppercase : Bool := false
  boolalpha : Bool := false
  deriving DecidableEq

namespace FmtFlags

def digit (flags : FmtFlags) (d : Nat) : Char :=
  if flags.uppercase then (Nat.digitChar d).toUpper else Nat.digitChar d

/-- The digits of a number. -/
def digits (flags : FmtFlags) (n : Nat) : List Char :=
  if n = 0 then [flags.digit 0]
  else ((Nat.digits flags.base.radix n).map flags.digit).reverse

/-- What `showbase` puts in front of a number. -/
def mark (flags : FmtFlags) (n : Nat) : List Char :=
  if flags.showbase ∧ n ≠ 0 then
    match flags.base with
    | .dec => []
    | .oct => ['0']
    | .hex => ['0', if flags.uppercase then 'X' else 'x']
  else []

end FmtFlags

/-- A stream: its flags, the fill character and the width, and what was printed. -/
structure Ostream where
  flags : FmtFlags := {}
  fill : Char := ' '
  width : Nat := 0
  text : List Char := []
  deriving DecidableEq

namespace Ostream

/-- A formatted insertion fills up to the width, which is then 0 again. -/
def insert (o : Ostream) (mark body : List Char) : Ostream :=
  let filling := List.replicate (o.width - (mark.length + body.length)) o.fill
  let padded :=
    match o.flags.adjust with
    | .left => mark ++ body ++ filling
    | .right => filling ++ mark ++ body
    | .internal => mark ++ filling ++ body
  { o with width := 0, text := o.text ++ padded }

/-- `<< str`, also for a character. -/
def string (o : Ostream) (str : List Char) : Ostream := o.insert [] str

/-- `<< n`. -/
def number (o : Ostream) (n : Nat) : Ostream := o.insert (o.flags.mark n) (o.flags.digits n)

/-- `<< b`. -/
def bool (o : Ostream) (b : Bool) : Ostream :=
  if o.flags.boolalpha then o.string (if b then "true" else "false").toList
  else o.number b.toNat

def hex (o : Ostream) : Ostream := { o with flags := { o.flags with base := .hex } }

def boolalpha (o : Ostream) : Ostream := { o with flags := { o.flags with boolalpha := true } }

def setfill (o : Ostream) (c : Char) : Ostream := { o with fill := c }

def setw (o : Ostream) (n : Nat) : Ostream := { o with width := n }

/-- `endl` is not a formatted insertion. -/
def endl (o : Ostream) : Ostream := { o with text := o.text ++ ['\n'] }

variable {flags : FmtFlags} {fill : Char}

/-- Without a width nothing is filled up. -/
theorem insert_eq (t mark body : List Char) :
    insert ⟨flags, fill, 0, t⟩ mark body = ⟨flags, fill, 0, t ++ (mark ++ body)⟩ := by
  rw [insert]
  cases flags.adjust <;> simp

theorem string_eq (t s : List Char) :
    string ⟨flags, fill, 0, t⟩ s = ⟨flags, fill, 0, t ++ s⟩ := insert_eq t [] s

theorem number_eq (hshow : flags.showbase = false) (t : List Char) (n : Nat) :
    number ⟨flags, fill, 0, t⟩ n = ⟨flags, fill, 0, t ++ flags.digits n⟩ := by
  rw [number, insert_eq, FmtFlags.mark, if_neg (by simp [hshow]), List.nil_append]

end Ostream

/-! ## Digits -/

variable {flags : FmtFlags}

/-- The value of a digit, capital or small. -/
def digitValue (c : Char) : Nat :=
  if c.isDigit then c.toNat - 48 else if c.isUpper then c.toNat - 55 else c.toNat - 87

/-- The number that the digits stand for. -/
def valueOf (radix : Nat) (digits : List Char) : Nat :=
  Nat.ofDigits radix (digits.reverse.map digitValue)

theorem Base.radix_range (b : Base) : 1 < b.radix ∧ b.radix ≤ 16 := by
  cases b <;> decide

theorem digit_spec {d : Nat} (hd : d < 16) :
    (flags.digit d).isAlphanum = true ∧ digitValue (flags.digit d) = d := by
  unfold FmtFlags.digit
  cases flags.uppercase <;> interval_cases d <;> decide

theorem digit_zero : flags.digit 0 = '0' := by
  unfold FmtFlags.digit
  cases flags.uppercase <;> rfl

theorem isAlphanum_of_mem_digits {n : Nat} {c : Char} (hc : c ∈ flags.digits n) :
    c.isAlphanum = true := by
  have hradix := flags.base.radix_range
  unfold FmtFlags.digits at hc
  split at hc
  · rw [List.mem_singleton.mp hc]
    exact (digit_spec (by decide)).1
  · rw [List.mem_reverse, List.mem_map] at hc
    obtain ⟨d, hd, rfl⟩ := hc
    have hlt := Nat.digits_lt_base hradix.1 hd
    exact (digit_spec (by omega)).1

/-- What separates the fields of a text is not a letter or a digit. -/
theorem ne_of_isAlphanum {c sep : Char} (hc : c.isAlphanum = true)
    (hsep : sep.isAlphanum = false) : c ≠ sep := by
  rintro rfl
  exact Bool.false_ne_true (hsep.symm.trans hc)

/-- **A number can be read back from its digits.** -/
theorem valueOf_digits (flags : FmtFlags) (n : Nat) :
    valueOf flags.base.radix (flags.digits n) = n := by
  have hradix := flags.base.radix_range
  unfold FmtFlags.digits valueOf
  split
  · rename_i hzero
    rw [hzero, digit_zero]
    rfl
  · have hvalues : (Nat.digits flags.base.radix n).map (digitValue ∘ flags.digit) =
        Nat.digits flags.base.radix n := by
      refine (List.map_congr_left fun d hd => ?_).trans (List.map_id _)
      have hlt := Nat.digits_lt_base hradix.1 hd
      exact (digit_spec (by omega)).2
    rw [List.reverse_reverse, List.map_map, hvalues, Nat.ofDigits_digits]

theorem digits_injective {n m : Nat} (h : flags.digits n = flags.digits m) : n = m := by
  rw [← valueOf_digits flags n, h, valueOf_digits]

end Sponge
