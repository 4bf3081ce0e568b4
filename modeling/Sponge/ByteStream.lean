import Mathlib.Data.List.Basic
import Mathlib.Tactic.Common

/-!
# The byte stream

`ByteStream` (byte_stream.hh, byte_stream.cc): a bounded in-memory queue of bytes with a writer
and a reader side.  The counters are natural numbers: they count bytes that went through the
stream.  The structure carries the two facts its own arithmetic relies on: the buffer fits the
capacity, so `capacity - buffer.size()` does not wrap, and the counters differ by what is buffered.
-/

namespace Sponge

structure ByteStream where
  buffer : List UInt8
  capacity : Nat
  endWrite : Bool
  endRead : Bool
  writtenBytes : Nat
  readBytes : Nat
  error : Bool
  fits : buffer.length ≤ capacity
  balance : readBytes + buffer.length = writtenBytes
  deriving DecidableEq, Repr

namespace ByteStream

/-- The constructor. -/
def new (capa : Nat) : ByteStream where
  buffer := []
  capacity := capa
  endWrite := false
  endRead := false
  writtenBytes := 0
  readBytes := 0
  error := false
  fits := Nat.zero_le _
  balance := rfl

/-- `write`: as many bytes as fit; the first component is the number of bytes accepted. -/
def write (s : ByteStream) (data : List UInt8) : Nat × ByteStream :=
  let canWrite := s.capacity - s.buffer.length
  let realWrite := min canWrite data.length
  (realWrite,
    { s with
      buffer := s.buffer ++ data.take realWrite
      writtenBytes := s.writtenBytes + realWrite
      fits := by
        have := s.fits
        simp only [List.length_append, List.length_take]
        omega
      balance := by
        have := s.balance
        simp only [List.length_append, List.length_take]
        omega })

def setError (s : ByteStream) : ByteStream := { s with error := true }

def peekOutput (s : ByteStream) (len : Nat) : List UInt8 :=
  let canPeek := min len s.buffer.length
  s.buffer.take canPeek

/-- What a successful `pop_output` or `read` of `len` bytes leaves. -/
def dropFront (s : ByteStream) (len : Nat) (h : len ≤ s.buffer.length) : ByteStream :=
  { s with
    buffer := s.buffer.drop len
    readBytes := s.readBytes + len
    fits := by
      have := s.fits
      simp only [List.length_drop]
      omega
    balance := by
      have := s.balance
      simp only [List.length_drop]
      omega }

def popOutput (s : ByteStream) (len : Nat) : ByteStream :=
  if h : len ≤ s.buffer.length then s.dropFront len h else s.setError

/-- `read`: the bytes removed, and the stream that is left. -/
def read (s : ByteStream) (len : Nat) : List UInt8 × ByteStream :=
  if h : len ≤ s.buffer.length then (s.buffer.take len, s.dropFront len h) else ([], s.setError)

def endInput (s : ByteStream) : ByteStream := { s with endWrite := true }

def inputEnded (s : ByteStream) : Bool := s.endWrite

def bufferSize (s : ByteStream) : Nat := s.buffer.length

def bufferEmpty (s : ByteStream) : Bool := s.buffer.isEmpty

def eof (s : ByteStream) : Bool := s.buffer.isEmpty && s.endWrite

def bytesWritten (s : ByteStream) : Nat := s.writtenBytes

def bytesRead (s : ByteStream) : Nat := s.readBytes

def remainingCapacity (s : ByteStream) : Nat := s.capacity - s.buffer.length

/-! ## What the operations do -/

@[simp] theorem new_bytesWritten (c : Nat) : (new c).bytesWritten = 0 := rfl
@[simp] theorem new_bytesRead (c : Nat) : (new c).bytesRead = 0 := rfl
@[simp] theorem new_inputEnded (c : Nat) : (new c).inputEnded = false := rfl
@[simp] theorem new_buffer (c : Nat) : (new c).buffer = [] := rfl
@[simp] theorem new_capacity (c : Nat) : (new c).capacity = c := rfl

theorem bytesWritten_eq (s : ByteStream) : s.bytesWritten = s.bytesRead + s.buffer.length :=
  s.balance.symm

theorem eof_iff (s : ByteStream) : s.eof = true ↔ s.buffer = [] ∧ s.inputEnded = true := by
  rw [eof, Bool.and_eq_true, List.isEmpty_iff]
  rfl

theorem remainingCapacity_eq (s : ByteStream) :
    s.bytesWritten + s.remainingCapacity = s.bytesRead + s.capacity := by
  have := s.fits
  have := s.balance
  simp only [bytesWritten, bytesRead, remainingCapacity]
  omega

@[simp] theorem endInput_buffer (s : ByteStream) : s.endInput.buffer = s.buffer := rfl
@[simp] theorem endInput_capacity (s : ByteStream) : s.endInput.capacity = s.capacity := rfl
@[simp] theorem endInput_bytesWritten (s : ByteStream) :
    s.endInput.bytesWritten = s.bytesWritten := rfl
@[simp] theorem endInput_bytesRead (s : ByteStream) : s.endInput.bytesRead = s.bytesRead := rfl
@[simp] theorem endInput_inputEnded (s : ByteStream) : s.endInput.inputEnded = true := rfl

@[simp] theorem write_capacity (s : ByteStream) (data : List UInt8) :
    (s.write data).2.capacity = s.capacity := rfl
@[simp] theorem write_bytesRead (s : ByteStream) (data : List UInt8) :
    (s.write data).2.bytesRead = s.bytesRead := rfl
@[simp] theorem write_inputEnded (s : ByteStream) (data : List UInt8) :
    (s.write data).2.inputEnded = s.inputEnded := rfl
theorem write_count (s : ByteStream) (data : List UInt8) :
    (s.write data).1 = min s.remainingCapacity data.length := rfl
theorem write_buffer (s : ByteStream) (data : List UInt8) :
    (s.write data).2.buffer = s.buffer ++ data.take (s.write data).1 := rfl
theorem write_bytesWritten (s : ByteStream) (data : List UInt8) :
    (s.write data).2.bytesWritten = s.bytesWritten + (s.write data).1 := rfl

/-- A write that fits is accepted whole. -/
theorem write_all (s : ByteStream) (data : List UInt8) (h : data.length ≤ s.remainingCapacity) :
    (s.write data).1 = data.length ∧ (s.write data).2.buffer = s.buffer ++ data := by
  have hc : (s.write data).1 = data.length := by rw [write_count]; omega
  exact ⟨hc, by rw [write_buffer, hc, List.take_length]⟩

/-! ## The reader -/

/-- The bytes that a request for `len` bytes is to take out of the stream: the first `len`, or none
if there are fewer. -/
def removed (s : ByteStream) (len : Nat) : List UInt8 :=
  if len ≤ s.buffer.length then s.buffer.take len else []

theorem read_fst (s : ByteStream) (len : Nat) : (s.read len).1 = s.removed len := by
  unfold read removed
  split <;> rfl

/-- `read` and `pop_output` leave the same stream. -/
theorem read_snd (s : ByteStream) (len : Nat) : (s.read len).2 = s.popOutput len := by
  unfold read popOutput
  split <;> rfl

theorem read_zero (s : ByteStream) : s.read 0 = ([], s) := by
  rw [read, dif_pos (Nat.zero_le _)]
  rfl

theorem removed_append (s : ByteStream) (len : Nat) :
    s.removed len ++ (s.popOutput len).buffer = s.buffer := by
  unfold removed popOutput
  by_cases h : len ≤ s.buffer.length
  · simp [h, dropFront]
  · simp [h, setError]

@[simp] theorem popOutput_capacity (s : ByteStream) (len : Nat) :
    (s.popOutput len).capacity = s.capacity := by
  unfold popOutput
  split <;> rfl

@[simp] theorem popOutput_bytesWritten (s : ByteStream) (len : Nat) :
    (s.popOutput len).bytesWritten = s.bytesWritten := by
  unfold popOutput
  split <;> rfl

@[simp] theorem popOutput_inputEnded (s : ByteStream) (len : Nat) :
    (s.popOutput len).inputEnded = s.inputEnded := by
  unfold popOutput
  split <;> rfl

theorem popOutput_bytesRead (s : ByteStream) (len : Nat) :
    (s.popOutput len).bytesRead = s.bytesRead + (s.removed len).length := by
  unfold popOutput removed
  by_cases h : len ≤ s.buffer.length
  · simp [h, dropFront, bytesRead]
  · simp [h, setError, bytesRead]

/-- Reading never un-ends a stream. -/
theorem popOutput_eof (s : ByteStream) (len : Nat) (h : s.eof = true) :
    (s.popOutput len).eof = true := by
  rw [eof_iff] at h ⊢
  have hap := s.removed_append len
  rw [h.1, List.append_eq_nil_iff] at hap
  exact ⟨hap.2, (s.popOutput_inputEnded len).trans h.2⟩

end ByteStream

end Sponge
