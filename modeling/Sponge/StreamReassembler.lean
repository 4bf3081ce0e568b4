import Sponge.ByteStream
import Sponge.Lib.Word

/-!
# The stream reassembler

`StreamReassembler` (stream_reassembler.hh, stream_reassembler.cc).  The window is the pair of
deques `_buffer`, `_bitmap`: cell `k` belongs to stream index `bytes_written + k`.  An access out
of range, or `front()` of an empty deque, has no defined behaviour in the source and gives `none`
here.  `size_t` sums and differences that can leave the 64-bit range go through `Word`.

The sizes of a `std::string` and of a `std::deque` are bounded by `max_size`; the constructor of
the reassembler throws above that bound.
-/

namespace Sponge

/-- `max_size` of `std::string` and of a `std::deque` of one-byte elements. -/
def maxSize : Nat := 2 ^ 63 - 1

structure StreamReassembler where
  buffer : List UInt8
  bitmap : List Bool
  eofFlag : Bool
  eofIndex : Nat
  unassembledBytes : Nat
  output : ByteStream
  capacity : Nat
  deriving DecidableEq, Repr

namespace StreamReassembler

/-- The members as the constructor initialises them. -/
def fresh (capacity : Nat) : StreamReassembler where
  buffer := List.replicate capacity 0
  bitmap := List.replicate capacity false
  eofFlag := false
  eofIndex := 0
  unassembledBytes := 0
  output := ByteStream.new capacity
  capacity := capacity

/-- The constructor, which allocates two deques of `capacity` elements. -/
def new (capacity : Nat) : Option StreamReassembler :=
  if capacity ≤ maxSize then some (fresh capacity) else none

theorem new_eq_some {capacity : Nat} {r : StreamReassembler} (h : new capacity = some r) :
    capacity ≤ maxSize ∧ r = fresh capacity := by
  unfold new at h
  split at h
  · rename_i hc
    exact ⟨hc, (Option.some.inj h).symm⟩
  · cases h

/-- The loop of the two placement branches: `len` more rounds from counter `i`.  Round `i` puts
`data[i + d]` into window cell `i + w`, unless the cell is already taken. -/
def place (data : List UInt8) (w d : Nat) : Nat → Nat → StreamReassembler →
    Option StreamReassembler
  | 0, _, r => some r
  | len + 1, i, r =>
    match r.bitmap[i + w]? with
    | none => none
    | some true => place data w d len (i + 1) r
    | some false =>
      match data[i + d]? with
      | none => none
      | some c =>
        if i + w < r.buffer.length then
          place data w d len (i + 1)
            { r with
              buffer := r.buffer.set (i + w) c
              bitmap := r.bitmap.set (i + w) true
              unassembledBytes := r.unassembledBytes + 1 }
        else none

/-- The loop that moves the front of the window into `str`: at most `fuel` tests of
`_bitmap.front()`. -/
def drain : Nat → List UInt8 → List Bool → List UInt8 →
    Option (List UInt8 × List Bool × List UInt8)
  | 0, _, _, _ => none
  | _ + 1, _, [], _ => none
  | _ + 1, buffer, false :: bitmap, str => some (buffer, false :: bitmap, str)
  | _ + 1, [], true :: _, _ => none
  | fuel + 1, c :: buffer, true :: bitmap, str =>
    drain fuel (buffer ++ [0]) (bitmap ++ [false]) (str ++ [c])

/-- `_output.end_input()` once every byte before the recorded end has been written. -/
def checkEof (r : StreamReassembler) : StreamReassembler :=
  if r.eofFlag && r.eofIndex == r.output.bytesWritten then
    { r with output := r.output.endInput }
  else r

/-- The end-of-stream bookkeeping at the start of `push_substring`; `stop` is the index after the
last byte of the segment. -/
def noteEof (r : StreamReassembler) (stop : Nat) (eof : Bool) : StreamReassembler :=
  (if eof then { r with eofFlag := true, eofIndex := stop } else r).checkEof

/-- The contiguous bytes at the front of the window go to the output stream. -/
def moveOut (r : StreamReassembler) : Option StreamReassembler :=
  match drain (r.bitmap.length + 1) r.buffer r.bitmap [] with
  | none => none
  | some (buffer, bitmap, str) =>
    some (if 0 < str.length then
        { r with
          buffer := buffer
          bitmap := bitmap
          output := (r.output.write str).2
          unassembledBytes := Word.sub r.unassembledBytes str.length }
      else { r with buffer := buffer, bitmap := bitmap })

/-- From the drain loop on: move the bytes out, then look for the end of the stream again. -/
def flush (r : StreamReassembler) : Option StreamReassembler := r.moveOut.map checkEof

/-- The index after the last byte of a segment, as `index + data.size()` computes it. -/
def endIndex (index : Nat) (data : List UInt8) : Nat := Word.add index data.length

/-- `first_unread + _capacity`. -/
def firstUnacceptable (r : StreamReassembler) : Nat := Word.add r.output.bytesRead r.capacity

/-- The segment does not meet the window: it ends before it or starts after it. -/
def outside (r : StreamReassembler) (data : List UInt8) (index : Nat) : Bool :=
  endIndex index data ≤ r.output.bytesWritten || r.firstUnacceptable ≤ index

/-- The two placement branches: the segment starts inside the window, or before it. -/
def insert (r : StreamReassembler) (data : List UInt8) (index : Nat) :
    Option StreamReassembler :=
  let firstUnassembled := r.output.bytesWritten
  let stop := min (endIndex index data) r.firstUnacceptable
  if firstUnassembled ≤ index then
    place data (index - firstUnassembled) 0 (Word.sub stop index) 0 r
  else
    let start := max index firstUnassembled
    place data 0 (firstUnassembled - index) (Word.sub stop start) 0 r

def pushSubstring (r : StreamReassembler) (data : List UInt8) (index : Nat) (eof : Bool) :
    Option StreamReassembler :=
  let r := r.noteEof (endIndex index data) eof
  if r.outside data index then some r
  else (r.insert data index).bind flush

def empty (r : StreamReassembler) : Bool := r.unassembledBytes == 0

end StreamReassembler

/-- What a user of the reassembler can do: push a substring, or read or pop the output stream. -/
inductive ReassemblerEvent
  | push (data : List UInt8) (index : Nat) (eof : Bool)
  | read (len : Nat)
  | pop (len : Nat)
  deriving DecidableEq, Repr

def StreamReassembler.step (r : StreamReassembler) : ReassemblerEvent → Option StreamReassembler
  | .push data index eof => r.pushSubstring data index eof
  | .read len => some { r with output := (r.output.read len).2 }
  | .pop len => some { r with output := r.output.popOutput len }

end Sponge
