import Mathlib.Order.Bounds.Defs
import Sponge.ByteStream
import Sponge.Lib.Word

/-!
# Runs of the byte stream

`byteStream_fifo`: whatever is called on a byte stream, and with whatever arguments, it is a
lossless queue of bounded length.  What the writes accepted is what was taken out, in order,
followed by what is still buffered; the counters say so too; and a call that asks for more than is
buffered changes nothing but the error flag.
-/

namespace Sponge

/-- The calls on a byte stream. -/
inductive StreamCall
  | write (data : List UInt8)
  | read (len : Nat)
  | popOutput (len : Nat)
  | peekOutput (len : Nat)
  | endInput
  deriving DecidableEq, Repr

/-- A byte stream together with the bytes that the writes accepted and the bytes taken out. -/
structure StreamHistory where
  stream : ByteStream
  accepted : List UInt8
  removed : List UInt8
  deriving DecidableEq

namespace StreamHistory

def init (capacity : Nat) : StreamHistory := ⟨ByteStream.new capacity, [], []⟩

/-- One call.  A write accepts as many bytes as it returns, and `read` takes out the bytes it
returns.  `pop_output` returns nothing: the bytes it is to take out are the first `len`, or none if
there are fewer. -/
def step (t : StreamHistory) : StreamCall → StreamHistory
  | .write data =>
    { t with
      stream := (t.stream.write data).2
      accepted := t.accepted ++ data.take (t.stream.write data).1 }
  | .read len =>
    { t with
      stream := (t.stream.read len).2
      removed := t.removed ++ (t.stream.read len).1 }
  | .popOutput len =>
    { t with
      stream := t.stream.popOutput len
      removed := t.removed ++ t.stream.removed len }
  | .peekOutput _ => t
  | .endInput => { t with stream := t.stream.endInput }

def run (capacity : Nat) (calls : List StreamCall) : StreamHistory :=
  calls.foldl step (init capacity)

/-- What every call keeps. -/
structure Lossless (capacity : Nat) (t : StreamHistory) : Prop where
  capacity_eq : t.stream.capacity = capacity
  fifo : t.accepted = t.removed ++ t.stream.buffer
  bytesRead : t.stream.bytesRead = t.removed.length

theorem lossless_init (capacity : Nat) : Lossless capacity (init capacity) :=
  ⟨rfl, rfl, rfl⟩

variable {capacity : Nat} {t : StreamHistory}

/-- The reader's calls take bytes off the front of the buffer. -/
theorem Lossless.pop (h : Lossless capacity t) (len : Nat) :
    Lossless capacity
      { t with
        stream := t.stream.popOutput len
        removed := t.removed ++ t.stream.removed len } where
  capacity_eq := (t.stream.popOutput_capacity len).trans h.capacity_eq
  fifo := by
    rw [List.append_assoc, t.stream.removed_append, ← h.fifo]
  bytesRead := by
    rw [t.stream.popOutput_bytesRead, List.length_append, h.bytesRead]

theorem Lossless.step (h : Lossless capacity t) (call : StreamCall) :
    Lossless capacity (t.step call) := by
  cases call with
  | write data =>
    refine ⟨h.capacity_eq, ?_, h.bytesRead⟩
    rw [StreamHistory.step, h.fifo, List.append_assoc]
    rfl
  | read len =>
    rw [StreamHistory.step, t.stream.read_fst, t.stream.read_snd]
    exact h.pop len
  | popOutput len => exact h.pop len
  | peekOutput len => exact h
  | endInput => exact ⟨h.capacity_eq, h.fifo, h.bytesRead⟩

theorem lossless_run (capacity : Nat) (calls : List StreamCall) :
    Lossless capacity (run capacity calls) :=
  List.foldlRecOn calls StreamHistory.step (lossless_init capacity) (fun _ h call _ => h.step call)

end StreamHistory

/-! ## What a stream answers in one state -/

namespace ByteStream

theorem bufferSize_add_remainingCapacity (s : ByteStream) :
    s.bufferSize + s.remainingCapacity = s.capacity :=
  Nat.add_sub_cancel' s.fits

/-- The counters differ by the size of the buffer, also once they have wrapped around. -/
theorem sub_counters (s : ByteStream) (h : s.capacity < Word.size) :
    Word.sub (s.bytesWritten % Word.size) (s.bytesRead % Word.size) = s.bufferSize := by
  rw [s.bytesWritten_eq]
  exact Word.sub_mod s.bytesRead (Nat.lt_of_le_of_lt s.fits h)

/-- `write` accepts as much as fits, and not more than there is. -/
theorem write_greatest (s : ByteStream) (data : List UInt8) :
    IsGreatest { k | k ≤ data.length ∧ s.bufferSize + k ≤ s.capacity } (s.write data).1 := by
  have hsum := s.bufferSize_add_remainingCapacity
  rw [write_count]
  refine ⟨⟨by omega, by omega⟩, fun k hk => ?_⟩
  obtain ⟨hlen, hcap⟩ := hk
  omega

theorem read_eq_peekOutput (s : ByteStream) {len : Nat} (h : len ≤ s.bufferSize) :
    (s.read len).1 = s.peekOutput len := by
  have hlen : len ≤ s.buffer.length := h
  rw [read, dif_pos hlen, peekOutput, Nat.min_eq_left hlen]

/-- `pop_output` takes as many bytes off the front as it is asked for. -/
theorem popOutput_of_le (s : ByteStream) {len : Nat} (h : len ≤ s.bufferSize) :
    (s.popOutput len).buffer = s.buffer.drop len ∧
      (s.popOutput len).bytesRead = s.bytesRead + len ∧ (s.popOutput len).error = s.error := by
  have hlen : len ≤ s.buffer.length := h
  rw [popOutput, dif_pos hlen]
  exact ⟨rfl, rfl, rfl⟩

/-- Both calls that remove bytes answer a request for too many by raising the error flag. -/
theorem read_popOutput_of_lt (s : ByteStream) {len : Nat} (h : s.bufferSize < len) :
    s.read len = ([], s.setError) ∧ s.popOutput len = s.setError := by
  have hlen : ¬ len ≤ s.buffer.length := Nat.not_le.mpr h
  exact ⟨dif_neg hlen, dif_neg hlen⟩

end ByteStream

/-- A queue of at most `capacity` bytes that neither loses nor makes up a byte. -/
structure BoundedFifo (capacity : Nat) (t : StreamHistory) : Prop where
  fifo : t.accepted = t.removed ++ t.stream.buffer
  write_greatest : ∀ data, IsGreatest
    { k | k ≤ data.length ∧ t.stream.bufferSize + k ≤ capacity } (t.stream.write data).1
  capacity_eq : t.stream.bufferSize + t.stream.remainingCapacity = capacity
  no_underflow : t.stream.bufferSize ≤ capacity ∧
    Word.sub capacity t.stream.bufferSize = t.stream.remainingCapacity
  counters : t.stream.bytesRead ≤ t.stream.bytesWritten ∧
    t.stream.bytesWritten - t.stream.bytesRead = t.stream.bufferSize ∧
    t.stream.bytesWritten = t.accepted.length ∧ t.stream.bytesRead = t.removed.length
  counters64 : capacity < Word.size →
    Word.sub (t.stream.bytesWritten % Word.size) (t.stream.bytesRead % Word.size) =
      t.stream.bufferSize
  peek : ∀ n, t.stream.peekOutput n = t.stream.buffer.take (min n t.stream.bufferSize)
  read_eq_peek : ∀ n ≤ t.stream.bufferSize, (t.stream.read n).1 = t.stream.peekOutput n
  removal : ∀ n ≤ t.stream.bufferSize,
    t.stream.popOutput n = (t.stream.read n).2 ∧
    (t.stream.popOutput n).buffer = t.stream.buffer.drop n ∧
    (t.stream.popOutput n).bytesRead = t.stream.bytesRead + n ∧
    (t.stream.popOutput n).error = t.stream.error
  too_long : ∀ n, t.stream.bufferSize < n →
    t.stream.read n = ([], { t.stream with error := true }) ∧
    t.stream.popOutput n = { t.stream with error := true }

/-- After any sequence of calls the stream is a lossless bounded queue. -/
theorem byteStream_fifo (capacity : Nat) (calls : List StreamCall) :
    BoundedFifo capacity (StreamHistory.run capacity calls) := by
  obtain ⟨hcap, hfifo, hread⟩ := StreamHistory.lossless_run capacity calls
  generalize StreamHistory.run capacity calls = t at hcap hfifo hread
  subst hcap
  have hbalance := t.stream.bytesWritten_eq
  exact
    { fifo := hfifo
      write_greatest := t.stream.write_greatest
      capacity_eq := t.stream.bufferSize_add_remainingCapacity
      no_underflow := ⟨t.stream.fits, Word.sub_of_le t.stream.fits⟩
      counters := by
        refine ⟨by omega, ?_, ?_, hread⟩
        · rw [hbalance, Nat.add_sub_cancel_left, ByteStream.bufferSize]
        · rw [hbalance, hfifo, List.length_append, hread]
      counters64 := t.stream.sub_counters
      peek := fun n => rfl
      read_eq_peek := fun n hn => t.stream.read_eq_peekOutput hn
      removal := fun n hn => ⟨(t.stream.read_snd n).symm, t.stream.popOutput_of_le hn⟩
      too_long := fun n hn => t.stream.read_popOutput_of_lt hn }

/-- Two partial writes, an over-long read, a read and a pop on a stream of four bytes. -/
example :
    let t := StreamHistory.run 4 [.write [1, 2, 3], .read 9, .write [4, 5], .read 2, .popOutput 1]
    t.accepted = [1, 2, 3, 4] ∧ t.removed = [1, 2, 3] ∧ t.stream.buffer = [4] ∧
      t.stream.error = true := by
  decide

end Sponge
