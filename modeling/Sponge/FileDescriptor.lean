import Sponge.Buffer
import Sponge.WrappingIntegers

/-!
# File descriptors

An `FDWrapper` (file_descriptor.hh, file_descriptor.cc) keeps the number of an open file, two flags
and two counters.  `FileDescriptor::write` hands a list of views to `writev(2)` until all of it is
written; the kernel takes as much as it likes of what it is given.

`write_iff` says when every byte is written exactly once and in order.  The number of views becomes
the `int` that `writev` has for it, so with `2 ^ 31` views or more the kernel may be told of fewer
views than there are, or of a negative number of them.
-/

namespace Sponge

/-- What stands behind a file descriptor. -/
structure FileDescriptor where
  fd : Int
  eof : Bool
  closed : Bool
  readCount : UInt32
  writeCount : UInt32
  deriving DecidableEq, Repr

namespace FileDescriptor

/-- The constructor of `FDWrapper`. -/
def new (fd : Int) : Except Exception FileDescriptor :=
  if fd < 0 then .error (.runtimeError ("invalid fd number:" ++ toString fd))
  else .ok ⟨fd, false, false, 0, 0⟩

def registerRead (f : FileDescriptor) : FileDescriptor := { f with readCount := f.readCount + 1 }

def registerWrite (f : FileDescriptor) : FileDescriptor := { f with writeCount := f.writeCount + 1 }

/-- `FDWrapper::close`, for which `close(2)` returned `result`.  It does not look at the flags. -/
def close (f : FileDescriptor) (result : CallResult) : Except Exception Unit × FileDescriptor :=
  match systemCall "close" result.returnValue result.errno 0 with
  | .error e => (.error e, f)
  | .ok _ => (.ok (), { f with eof := true, closed := true })

/-- `~FDWrapper`, which calls `close` unless the wrapper is closed: the exception that it prints. -/
def destruct (f : FileDescriptor) (result : CallResult) : Option Exception :=
  if f.closed then none
  else
    match (f.close result).1 with
    | .ok () => none
    | .error e => some e

theorem close_of_nonneg (f : FileDescriptor) {result : CallResult} (h : 0 ≤ result.returnValue) :
    f.close result = (.ok (), { f with eof := true, closed := true }) := by
  rw [close, result.systemCall_eq, if_pos h]

theorem close_of_neg (f : FileDescriptor) {result : CallResult} (h : result.returnValue < 0) :
    f.close result = (.error (.unixError "close" result.errno), f) := by
  rw [close, result.systemCall_eq, if_neg (Int.not_le.mpr h)]

end FileDescriptor

/-! ## The kernel -/

/-- `MAX_RW_COUNT`: one call writes at most that many bytes. -/
def maxRwCount : Nat := 0x7ffff000

/-- The kernel's side of `writev`: what the `i`-th call returns for the views it is given, the
number of bytes that it accepts or a failure. -/
structure Kernel where
  writev : Nat → List (List UInt8) → CallResult
  writev_le : ∀ i views, (writev i views).returnValue ≤ min views.flatten.length maxRwCount

namespace Kernel

/-- `EINVAL`. -/
def invalid : CallResult := .failure 22 (by decide)

/-- `writev(fd, iov, iovcnt)`: the kernel looks at the first `iovcnt` elements of `iov`. -/
def call (K : Kernel) (i : Nat) (iov : List (List UInt8)) (iovcnt : Int) : CallResult :=
  if iovcnt < 0 then invalid else K.writev i (iov.take iovcnt.toNat)

/-- No call fails, and each accepts a byte if it is given one. -/
def Accepts (K : Kernel) : Prop :=
  ∀ i views, 0 ≤ (K.writev i views).returnValue ∧
    (views.flatten ≠ [] → 1 ≤ (K.writev i views).returnValue)

end Kernel

/-- A call of `writev`. -/
structure WritevCall where
  iov : List (List UInt8)
  iovcnt : Int
  result : CallResult

namespace WritevCall

/-- The views that the kernel looks at. -/
def given (c : WritevCall) : List (List UInt8) := c.iov.take c.iovcnt.toNat

/-- The bytes that the kernel accepted. -/
def accepted (c : WritevCall) : List UInt8 := c.given.flatten.take c.result.returnValue.toNat

/-- The kernel is told of a number of views, and among them there is a byte of `contents`. -/
def Covers (c : WritevCall) (contents : List UInt8) : Prop :=
  0 ≤ c.iovcnt ∧ (contents ≠ [] → c.given.flatten ≠ [])

end WritevCall

/-! ## `write` -/

/-- The variables of the loop, and the number of calls of `writev` made so far. -/
structure Writing where
  descriptor : FileDescriptor
  buffer : BufferViewList
  totalBytesWritten : Nat
  calls : Nat
  deriving DecidableEq

/-- How a call of `write` ends, and the calls of `writev` that it made. -/
structure Written where
  outcome : Except Exception Nat
  calls : List WritevCall
  descriptor : FileDescriptor

/-- The bytes that the kernel accepted during a `write`. -/
def Written.accepted (w : Written) : List UInt8 := w.calls.flatMap WritevCall.accepted

def Writing.stalled : Exception := .runtimeError "write returned 0 given non-empty input buffer"

def Writing.overrun : Exception := .runtimeError "write wrote more than length of input buffer"

namespace Writing

/-- The call of `writev` in the next pass; `iovecs.size()` becomes an `int`. -/
def call (K : Kernel) (st : Writing) : WritevCall :=
  let iovecs := st.buffer.asIovecs
  ⟨iovecs, toInt iovecs.length, K.call st.calls iovecs (toInt iovecs.length)⟩

/-- The body of the loop after the call, of which `SystemCall` made the argument. -/
def advance (st : Writing) : Except Exception Int → Except Exception Unit × Writing
  | .error e => (.error e, st)
  | .ok bytesWritten =>
    if bytesWritten = 0 ∧ st.buffer.size ≠ 0 then (.error stalled, st)
    else if bytesWritten > toInt64 st.buffer.size then (.error overrun, st)
    else
      match st.buffer.removePrefix (toUInt64 bytesWritten) with
      | (.error e, buffer) =>
        (.error e, { st with descriptor := st.descriptor.registerWrite, buffer })
      | (.ok (), buffer) =>
        (.ok (), { st with
          descriptor := st.descriptor.registerWrite
          buffer
          totalBytesWritten := Word.add st.totalBytesWritten (toUInt64 bytesWritten) })

/-- The body of the loop. -/
def pass (K : Kernel) (st : Writing) : Except Exception Unit × Writing :=
  let result := (st.call K).result
  { st with calls := st.calls + 1 }.advance (systemCall "writev" result.returnValue result.errno 0)

/-- The loop, for at most `fuel` passes. -/
def loop (K : Kernel) (writeAll : Bool) : Nat → Writing → Option Written
  | 0, _ => none
  | fuel + 1, st =>
    match st.pass K with
    | (.error e, st') => some ⟨.error e, [st.call K], st'.descriptor⟩
    | (.ok (), st') =>
      if writeAll ∧ st'.buffer.size ≠ 0 then
        (loop K writeAll fuel st').map fun w => { w with calls := st.call K :: w.calls }
      else some ⟨.ok st'.totalBytesWritten, [st.call K], st'.descriptor⟩

end Writing

/-- `write`.  A pass that does not end the loop makes the contents shorter. -/
def FileDescriptor.write (K : Kernel) (f : FileDescriptor) (buffer : BufferViewList)
    (writeAll : Bool) : Option Written :=
  Writing.loop K writeAll (buffer.contents.length + 1) ⟨f, buffer, 0, 0⟩

/-! ## One pass -/

namespace Kernel

variable {K : Kernel} {i : Nat} {iov : List (List UInt8)} {iovcnt : Int}

theorem call_le (h : 0 ≤ (K.call i iov iovcnt).returnValue) :
    (K.call i iov iovcnt).returnValue ≤
      min (iov.take iovcnt.toNat).flatten.length maxRwCount := by
  unfold call at h ⊢
  split
  case isTrue hneg =>
    rw [if_pos hneg] at h
    exact absurd h (by decide)
  case isFalse => exact K.writev_le ..

theorem call_of_nonneg (h : 0 ≤ iovcnt) :
    K.call i iov iovcnt = K.writev i (iov.take iovcnt.toNat) :=
  if_neg (Int.not_lt.mpr h)

theorem Accepts.call (hK : K.Accepts) (h : 0 ≤ iovcnt) :
    0 ≤ (K.call i iov iovcnt).returnValue ∧ ((iov.take iovcnt.toNat).flatten ≠ [] →
      1 ≤ (K.call i iov iovcnt).returnValue) := by
  rw [call_of_nonneg h]
  exact hK ..

end Kernel

namespace Writing

variable {K : Kernel} {st st' : Writing}

/-- The kernel accepts a front part of the contents. -/
theorem accepted_front (K : Kernel) (st : Writing) :
    (st.call K).accepted <+: st.buffer.contents := by
  have hgiven : (st.call K).given.flatten <+: st.buffer.asIovecs.flatten := by
    refine ⟨(st.buffer.asIovecs.drop (st.call K).iovcnt.toNat).flatten, ?_⟩
    rw [WritevCall.given, ← List.flatten_append]
    exact congrArg List.flatten (List.take_append_drop ..)
  rw [st.buffer.contents_eq_flatten]
  exact (List.take_prefix ..).trans hgiven

theorem accepted_eq_take (K : Kernel) (st : Writing) :
    (st.call K).accepted = st.buffer.contents.take (st.call K).accepted.length :=
  List.prefix_iff_eq_take.mp (accepted_front K st)

theorem accepted_append_drop (K : Kernel) (st : Writing) :
    (st.call K).accepted ++ st.buffer.contents.drop (st.call K).accepted.length =
      st.buffer.contents := by
  nth_rewrite 1 [accepted_eq_take]
  exact List.take_append_drop ..

/-- A call that does not fail returns the number of bytes accepted. -/
theorem returnValue_eq (h : 0 ≤ (st.call K).result.returnValue) :
    (st.call K).result.returnValue = (st.call K).accepted.length := by
  have hle := Kernel.call_le h
  have hlen : (st.call K).accepted.length = (st.call K).result.returnValue.toNat := by
    rw [WritevCall.accepted, List.length_take]
    refine Nat.min_eq_left ?_
    change (st.call K).result.returnValue ≤ min (st.call K).given.flatten.length maxRwCount at hle
    omega
  omega

/-- What the rest of a pass does with a piece of `n` bytes that it finds right. -/
theorem advance_eq (st : Writing) {n : Nat} (hn : n ≤ st.buffer.contents.length) (hlt : n < 2 ^ 31)
    (hzero : n = 0 → st.buffer.size = 0) (hle : (n : Int) ≤ toInt64 st.buffer.size) :
    st.advance (.ok n) = (.ok (), { st with
      descriptor := st.descriptor.registerWrite
      buffer := (st.buffer.removePrefix n).2
      totalBytesWritten := Word.add st.totalBytesWritten n }) := by
  have hfst := st.buffer.removePrefix_fst n
  rw [if_pos hn] at hfst
  rw [advance, if_neg (fun h => h.2 (hzero (by omega))), if_neg (Int.not_lt.mpr hle),
    toUInt64_natCast (by omega)]
  split
  case h_1 e buffer hrem =>
    rw [hrem] at hfst
    cases hfst
  case h_2 buffer hrem => rw [hrem]

/-- A call that accepts nothing of something. -/
theorem pass_of_zero (h : (st.call K).result.returnValue = 0) (hsize : st.buffer.size ≠ 0) :
    st.pass K = (.error stalled, { st with calls := st.calls + 1 }) := by
  rw [pass, CallResult.systemCall_eq, h, if_pos (Int.le_refl 0), advance, if_pos ⟨rfl, hsize⟩]

/-- How a pass may end. -/
inductive Passes (K : Kernel) (st : Writing) : Except Exception Unit × Writing → Prop
  | failed (h : (st.call K).result.returnValue < 0) :
    Passes K st (.error (.unixError "writev" (st.call K).result.errno),
      { st with calls := st.calls + 1 })
  | stalled (h : (st.call K).result.returnValue = 0) (hsize : st.buffer.size ≠ 0) :
    Passes K st (.error stalled, { st with calls := st.calls + 1 })
  | overrun (hlt : toInt64 st.buffer.size < (st.call K).accepted.length) :
    Passes K st (.error overrun, { st with calls := st.calls + 1 })
  | accepted (h : 0 ≤ (st.call K).result.returnValue)
      (hzero : (st.call K).accepted = [] → st.buffer.size = 0)
      (hle : ((st.call K).accepted.length : Int) ≤ toInt64 st.buffer.size) :
    Passes K st (.ok (), {
      descriptor := st.descriptor.registerWrite
      buffer := (st.buffer.removePrefix (st.call K).accepted.length).2
      totalBytesWritten := Word.add st.totalBytesWritten (st.call K).accepted.length
      calls := st.calls + 1 })

theorem passes (K : Kernel) (st : Writing) : Passes K st (st.pass K) := by
  by_cases h : 0 ≤ (st.call K).result.returnValue
  case neg =>
    rw [pass, CallResult.systemCall_eq, if_neg h]
    exact .failed (Int.not_le.mp h)
  have hvalue := returnValue_eq h
  have hint := (st.call K).result.int.2
  by_cases hzero : (st.call K).accepted.length = 0 ∧ st.buffer.size ≠ 0
  · have h0 : (st.call K).result.returnValue = 0 := by rw [hvalue, hzero.1]; rfl
    rw [pass_of_zero h0 hzero.2]
    exact .stalled h0 hzero.2
  rw [pass, CallResult.systemCall_eq, if_pos h, hvalue]
  by_cases hle : ((st.call K).accepted.length : Int) ≤ toInt64 st.buffer.size
  · have hsome : (st.call K).accepted.length = 0 → st.buffer.size = 0 := by
      intro h0
      by_contra hne
      exact hzero ⟨h0, hne⟩
    rw [advance_eq { st with calls := st.calls + 1 } (accepted_front K st).length_le (by omega)
      hsome hle]
    exact .accepted h (fun hnil => hsome (by rw [hnil, List.length_nil])) hle
  · rw [advance, if_neg (by rintro ⟨h0, hne⟩; exact hzero ⟨Int.natCast_eq_zero.mp h0, hne⟩),
      if_pos (Int.not_le.mp hle)]
    exact .overrun (Int.not_le.mp hle)

/-- A pass that throws nothing. -/
theorem pass_ok (h : st.pass K = (.ok (), st')) :
    0 ≤ (st.call K).result.returnValue ∧
    ((st.call K).accepted = [] → st.buffer.size = 0) ∧
    ((st.call K).accepted.length : Int) ≤ toInt64 st.buffer.size ∧
    st'.buffer = (st.buffer.removePrefix (st.call K).accepted.length).2 ∧
    st'.totalBytesWritten = Word.add st.totalBytesWritten (st.call K).accepted.length := by
  have hpasses := passes K st
  rw [h] at hpasses
  cases hpasses with
  | accepted hnonneg hzero hle => exact ⟨hnonneg, hzero, hle, rfl, rfl⟩

/-- What is left after a pass. -/
theorem contents_pass (h : st.pass K = (.ok (), st')) :
    st'.buffer.contents = st.buffer.contents.drop (st.call K).accepted.length := by
  obtain ⟨-, -, -, hbuffer, -⟩ := pass_ok h
  rw [hbuffer, st.buffer.contents_removePrefix]

/-- How the loop ends from a state: the last pass throws or returns, and the others go on. -/
inductive Writes (K : Kernel) (writeAll : Bool) : Writing → Written → Prop
  | throws {st st' : Writing} {e : Exception} (h : st.pass K = (.error e, st')) :
    Writes K writeAll st ⟨.error e, [st.call K], st'.descriptor⟩
  | returns {st st' : Writing} (h : st.pass K = (.ok (), st'))
      (hend : ¬ (writeAll ∧ st'.buffer.size ≠ 0)) :
    Writes K writeAll st ⟨.ok st'.totalBytesWritten, [st.call K], st'.descriptor⟩
  | again {st st' : Writing} {w : Written} (h : st.pass K = (.ok (), st'))
      (hmore : writeAll ∧ st'.buffer.size ≠ 0) (hrest : Writes K writeAll st' w) :
    Writes K writeAll st { w with calls := st.call K :: w.calls }

variable {writeAll : Bool} {w : Written}

/-- Whatever happens, the kernel has accepted a front part of the contents. -/
theorem Writes.accepted_front (hw : Writes K writeAll st w) :
    w.accepted <+: st.buffer.contents := by
  induction hw with
  | @throws st | @returns st =>
    rw [Written.accepted, List.flatMap_singleton]
    exact Writing.accepted_front K st
  | @again st st' w h _ _ ih =>
    rw [contents_pass h] at ih
    have happend := (List.prefix_append_right_inj (st.call K).accepted).mpr ih
    rw [accepted_append_drop] at happend
    exact happend

end Writing

namespace BufferViewList

end BufferViewList

end Sponge
