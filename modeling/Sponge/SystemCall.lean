import Mathlib.Algebra.Ring.Int.Defs
import Mathlib.Algebra.Ring.Nat
import Mathlib.Tactic.Common
import Sponge.Lib.Triple

/-!
# System calls

The exceptions that the utility classes throw, and `SystemCall`, which turns the return value of a
system call into a result or an exception.  A `CallResult` is what a call may return: a number, or
-1 and a reason.
-/

namespace Sponge

/-- An exception, with the text it carries; a `unix_error` has the name of the call and `errno`. -/
inductive Exception
  | outOfRange (what : String)
  | lengthError (what : String)
  | runtimeError (what : String)
  | unixError (attempt : String) (error : Int)
  deriving DecidableEq, Repr

/-- The conversion to a 32-bit `int`. -/
def toInt (n : Int) : Int := (BitVec.ofInt 32 n).toInt

/-- `SystemCall`.  Its parameter is an `int`, whatever the type of the system call's result is. -/
def systemCall (attempt : String) (returnValue errno errnoMask : Int) : Except Exception Int :=
  if toInt returnValue ≥ 0 ∨ errno = errnoMask then .ok (toInt returnValue)
  else .error (.unixError attempt errno)

/-- The return value of a system call, and `errno` after it: a call that fails sets it. -/
structure CallResult where
  returnValue : Int
  errno : Int
  int : -1 ≤ returnValue ∧ returnValue < 2 ^ 31
  failed : returnValue < 0 → errno ≠ 0

/-- A call that succeeds. -/
def CallResult.ofNat (n : Nat) (h : n < 2 ^ 31) : CallResult where
  returnValue := n
  errno := 0
  int := by omega
  failed := fun hneg => absurd hneg (Int.not_lt.mpr (Int.natCast_nonneg n))

/-- A call that succeeds and has nothing to say. -/
def CallResult.zero : CallResult := .ofNat 0 (by decide)

/-- A call that fails. -/
def CallResult.failure (errno : Int) (h : errno ≠ 0) : CallResult :=
  ⟨-1, errno, by omega, fun _ => h⟩

/-- `SystemCall` in a computation that throws as `raise` says. -/
def systemCallM {ε σ : Type} (raise : Exception → ε) (attempt : String) (result : CallResult) :
    EStateM ε σ Int :=
  Triple.ofExcept raise (systemCall attempt result.returnValue result.errno 0)

theorem toInt_eq (n : Int) : toInt n = n.bmod (2 ^ 32) := BitVec.toInt_ofInt ..

theorem CallResult.toInt_returnValue (r : CallResult) : toInt r.returnValue = r.returnValue := by
  have h := r.int
  rw [toInt_eq, Int.bmod_def]
  omega

theorem CallResult.systemCall_eq (r : CallResult) (attempt : String) :
    systemCall attempt r.returnValue r.errno 0 =
      if 0 ≤ r.returnValue then .ok r.returnValue
      else .error (.unixError attempt r.errno) := by
  rw [systemCall, r.toInt_returnValue]
  by_cases h : 0 ≤ r.returnValue
  · rw [if_pos (Or.inl h), if_pos h]
  · rw [if_neg (by rintro (hge | hno); exacts [h hge, r.failed (Int.not_le.mp h) hno]), if_neg h]

theorem CallResult.systemCallM_eq {ε σ : Type} (r : CallResult) (raise : Exception → ε)
    (attempt : String) :
    (systemCallM raise attempt r : EStateM ε σ Int) =
      if 0 ≤ r.returnValue then pure r.returnValue
      else throw (raise (.unixError attempt r.errno)) := by
  rw [systemCallM, r.systemCall_eq]
  split <;> rfl

end Sponge
