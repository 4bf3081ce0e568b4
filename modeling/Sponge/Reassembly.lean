import Sponge.Lib.PartialStream
import Sponge.StreamReassembler

/-!
# What `push_substring` does

The reassembler is compared with a stream with holes `f : Nat → Option UInt8`: what has been
accepted for each stream index.  `Assembled r f` is the invariant, `Pushed` says everything a
call of `push_substring` does to an assembled reassembler, and `pushSubstring_spec` proves it for
every index and every string, also where `index + data.size()` or `first_unread + _capacity` wrap.
-/

namespace Sponge.StreamReassembler

open PartialStream

/-! ## The two loops -/

/-- The placement loop: the cells `[i + w, i + w + len)` that are free take their bytes, nothing
else changes. -/
theorem place_spec (data : List UInt8) (w d pos index : Nat) (hix : index + d = pos + w)
    (len i : Nat) (r : StreamReassembler) (f : Nat → Option UInt8)
    (hr : Shows f pos 0 r.buffer r.bitmap) (hn : r.unassembledBytes = r.bitmap.count true)
    (hw : i + w + len ≤ r.bitmap.length) (hd : i + d + len ≤ data.length) :
    ∃ buffer bitmap,
      place data w d len i r =
        some { r with
          buffer := buffer, bitmap := bitmap, unassembledBytes := bitmap.count true } ∧
      bitmap.length = r.bitmap.length ∧
      Shows (offer f (pos + w + i) (pos + w + i + len) index data) pos 0 buffer bitmap := by
  induction len generalizing i r f with
  | zero =>
    refine ⟨r.buffer, r.bitmap, ?_, rfl, ?_⟩
    · simp [place, ← hn]
    · rw [offer_of_le (by omega)]
      exact hr
  | succ len ih =>
    have hlt : i + w < r.bitmap.length := by omega
    have hbit : r.bitmap[i + w]? = some (f (pos + w + i)).isSome := by
      rw [hr.bit _ hlt, show pos + (i + w) = pos + w + i by omega]
    have hhi : pos + w + i + (len + 1) = pos + w + (i + 1) + len := by omega
    have hlo : pos + w + i + 1 = pos + w + (i + 1) := by omega
    cases hf : f (pos + w + i) with
    | some c =>
      -- the cell is taken: `continue`
      obtain ⟨buffer, bitmap, hplace, hlen, hshows⟩ := ih (i + 1) r f hr hn (by omega) (by omega)
      refine ⟨buffer, bitmap, ?_, hlen, ?_⟩
      · rw [place, hbit, hf]
        exact hplace
      · rw [hhi, offer_skip (by simp [hf]), hlo]
        exact hshows
    | none =>
      obtain ⟨c, hc⟩ : ∃ c, data[i + d]? = some c :=
        ⟨data.get ⟨i + d, by omega⟩, by simp⟩
      have hfree : r.bitmap[i + w]? = some false := by rw [hbit, hf]; rfl
      have hset := hr.set (c := c) hlt
      rw [show pos + (i + w) = pos + w + i by omega] at hset
      obtain ⟨buffer, bitmap, hplace, hlen, hshows⟩ :=
        ih (i + 1)
          { r with
            buffer := r.buffer.set (i + w) c
            bitmap := r.bitmap.set (i + w) true
            unassembledBytes := r.unassembledBytes + 1 }
          (Function.update f (pos + w + i) (some c)) hset
          (by simp only [count_set_true hfree, hn])
          (by simp only [List.length_set]; omega) (by omega)
      refine ⟨buffer, bitmap, ?_, ?_, ?_⟩
      · rw [place, hfree]
        simp only [hc]
        rw [if_pos (by rw [hr.length_eq]; exact hlt)]
        exact hplace
      · simpa using hlen
      · rw [← hhi, ← hlo, offer_take (by omega) (by omega) ?_ hf] at hshows
        · exact hshows
        · rw [show pos + w + i - index = i + d by omega]
          exact hc

/-- The drain loop: it stops at the first hole, having moved out the bytes before it. -/
theorem drain_spec (f : Nat → Option UInt8) (fuel pos hole : Nat) (buffer : List UInt8)
    (bitmap : List Bool) (str : List UInt8) (hr : Shows f pos 0 buffer bitmap)
    (hne : bitmap ≠ []) (hhole : f hole = none) (hle : pos ≤ hole) (hfuel : hole < pos + fuel) :
    ∃ buffer' bitmap' bytes,
      drain fuel buffer bitmap str = some (buffer', bitmap', str ++ bytes) ∧
      Shows f (pos + bytes.length) 0 buffer' bitmap' ∧
      bitmap'.length = bitmap.length ∧
      bitmap.count true = bitmap'.count true + bytes.length ∧
      f (pos + bytes.length) = none ∧
      ∀ k < bytes.length, f (pos + k) = bytes[k]? := by
  induction fuel generalizing pos buffer bitmap str with
  | zero => omega
  | succ fuel ih =>
    cases bitmap with
    | nil => exact absurd rfl hne
    | cons b bitmap =>
      cases buffer with
      | nil => exact absurd hr.length_eq (by simp)
      | cons c buffer =>
        cases b with
        | false =>
          refine ⟨c :: buffer, false :: bitmap, [], by simp [drain], hr, rfl, rfl, ?_, by simp⟩
          exact hr.front_none
        | true =>
          obtain ⟨hc, hslide⟩ := hr.slide
          have hne' : pos ≠ hole := by
            rintro rfl
            rw [hhole] at hc
            cases hc
          obtain ⟨buffer', bitmap', bytes, hdrain, hshows, hlen, hcount, hnone, hbytes⟩ :=
            ih (pos + 1) (buffer ++ [0]) (bitmap ++ [false]) (str ++ [c]) hslide (by simp)
              (by omega) (by omega)
          refine ⟨buffer', bitmap', c :: bytes, ?_, ?_, ?_, ?_, ?_, ?_⟩
          · rw [drain, hdrain, List.append_assoc, List.singleton_append]
          · rw [List.length_cons, Nat.add_comm bytes.length 1, ← Nat.add_assoc]
            exact hshows
          · simpa using hlen
          · simp only [List.count_append, List.count_cons, List.count_nil] at hcount ⊢
            simp only [List.length_cons]
            simp at hcount ⊢
            omega
          · rw [List.length_cons, Nat.add_comm bytes.length 1, ← Nat.add_assoc]
            exact hnone
          · intro k hk
            cases k with
            | zero => simpa using hc
            | succ k =>
              have := hbytes k (by simpa using hk)
              simpa [Nat.add_assoc, Nat.add_comm 1 k] using this

/-! ## The invariant -/

/-- The window, the counters and the output stream hold the accepted bytes `f`. -/
structure Window (r : StreamReassembler) (f : Nat → Option UInt8) : Prop where
  capacity_le : r.capacity ≤ maxSize
  bitmap_length : r.bitmap.length = r.capacity
  output_capacity : r.output.capacity = r.capacity
  shows : Shows f r.output.bytesWritten 0 r.buffer r.bitmap
  count : r.unassembledBytes = r.bitmap.count true
  written : ∀ i < r.output.bytesWritten, (f i).isSome
  room : ∀ i, (f i).isSome → i < r.output.bytesRead + r.capacity
  word : ∀ i, (f i).isSome → i + 1 < Word.size
  closed : r.capacity = 0 → r.output.bytesWritten = 0

/-- Between two calls nothing more can be moved to the output, and an end that has been reached
has been signalled. -/
structure Assembled (r : StreamReassembler) (f : Nat → Option UInt8) : Prop
    extends Window r f where
  hole : f r.output.bytesWritten = none
  ended : r.eofFlag = true → r.eofIndex = r.output.bytesWritten → r.output.inputEnded = true

theorem assembled_fresh {capacity : Nat} (h : capacity ≤ maxSize) :
    Assembled (fresh capacity) (fun _ => none) where
  capacity_le := h
  bitmap_length := by simp [fresh]
  output_capacity := rfl
  shows := shows_replicate capacity 0 0
  count := by simp [fresh, List.count_replicate]
  written := by simp [fresh]
  room := by simp
  word := by simp
  closed := fun _ => rfl
  hole := rfl
  ended := by simp [fresh]

variable {r r' : StreamReassembler} {f : Nat → Option UInt8} {data : List UInt8} {index : Nat}

/-- The counter of written bytes never reaches the end of a 64-bit word. -/
theorem Window.bytesWritten_lt (h : Window r f) : r.output.bytesWritten < Word.size := by
  rcases Nat.eq_zero_or_pos r.output.bytesWritten with h0 | h0
  · rw [h0]
    decide
  · have := h.word (r.output.bytesWritten - 1) (h.written _ (by omega))
    omega

theorem Window.bytesRead_le : r.output.bytesRead ≤ r.output.bytesWritten := by
  rw [ByteStream.bytesWritten_eq]
  exact Nat.le_add_right _ _

theorem Window.bytesWritten_le (h : Window r f) :
    r.output.bytesWritten ≤ r.output.bytesRead + r.capacity := by
  have := r.output.remainingCapacity_eq
  rw [← h.output_capacity]
  omega

/-- The number of accepted indices that are not yet written. -/
theorem Window.unassembledBytes_eq (h : Window r f) :
    r.unassembledBytes = {i | r.output.bytesWritten ≤ i ∧ (f i).isSome}.ncard := by
  rw [h.count, h.shows.ncard_eq]

/-- A cell of the window is set exactly when its index has been accepted. -/
theorem Window.bit_iff (h : Window r f) (k : Nat) :
    r.bitmap[k]? = some true ↔ (f (r.output.bytesWritten + k)).isSome = true := by
  rcases Nat.lt_or_ge k r.bitmap.length with hk | hk
  · rw [h.shows.bit k hk, Option.some.injEq]
  · rw [List.getElem?_eq_none hk, h.shows.beyond _ (by omega)]
    simp

/-! ## What a segment offers -/

/-- A segment whose end index wraps offers nothing. -/
def usable (index : Nat) (data : List UInt8) : List UInt8 :=
  if index + data.length < Word.size then data else []

/-- The accepted bytes after a push. -/
def accept (r : StreamReassembler) (f : Nat → Option UInt8) (data : List UInt8) (index : Nat) :
    Nat → Option UInt8 :=
  offer f r.output.bytesWritten r.firstUnacceptable index (usable index data)

theorem endIndex_of_lt (h : index + data.length < Word.size) :
    endIndex index data = index + data.length := Word.add_of_lt h

theorem firstUnacceptable_of_lt (h : r.output.bytesRead + r.capacity < Word.size) :
    r.firstUnacceptable = r.output.bytesRead + r.capacity := Word.add_of_lt h

theorem firstUnacceptable_lt (r : StreamReassembler) : r.firstUnacceptable < Word.size :=
  Word.add_lt _ _

/-- With no wrap, a push offers its bytes for the indices from `bytes_written` to
`bytes_read + capacity`. -/
theorem accept_eq (h : index + data.length < Word.size)
    (hc : r.output.bytesRead + r.capacity < Word.size) :
    accept r f data index =
      offer f r.output.bytesWritten (r.output.bytesRead + r.capacity) index data := by
  rw [accept, usable, if_pos h, firstUnacceptable_of_lt hc]

theorem outside_iff :
    r.outside data index = true ↔
      endIndex index data ≤ r.output.bytesWritten ∨ r.firstUnacceptable ≤ index := by
  simp [outside]

/-- What a push adds is in the segment. -/
theorem accept_some {index i : Nat} {b : UInt8} (h : accept r f data index i = some b) :
    f i = some b ∨ index ≤ i ∧ i < index + data.length := by
  rcases offer_some h with h | ⟨-, -, -, hi, hb⟩
  · exact Or.inl h
  · obtain ⟨hlt, -⟩ := List.getElem?_eq_some_iff.mp hb
    have hle : (usable index data).length ≤ data.length := by
      unfold usable
      split <;> simp
    exact Or.inr ⟨hi, by omega⟩

/-- A push makes known what it covers below the end of the window. -/
theorem accept_isSome_iff (hr : Window r f) (hend : index + data.length < Word.size)
    (hwin : r.output.bytesRead + r.capacity < Word.size) (i : Nat) :
    (accept r f data index i).isSome ↔ (f i).isSome ∨
      (index ≤ i ∧ i < index + data.length) ∧ i < r.output.bytesRead + r.capacity := by
  rw [← not_iff_not, Option.not_isSome_iff_eq_none, accept_eq hend hwin, offer_none_iff]
  constructor
  · rintro ⟨hnone, hno⟩ (hsome | ⟨hi, hlt⟩)
    · simp [hnone] at hsome
    · -- everything before `bytes_written` is known
      have hge : r.output.bytesWritten ≤ i := by
        by_contra hlt
        have := hr.written i (by omega)
        simp [hnone] at this
      exact hno ⟨hge, hlt, hi.1, hi.2⟩
  · intro h
    refine ⟨Option.not_isSome_iff_eq_none.mp (fun hs => h (Or.inl hs)), ?_⟩
    rintro ⟨-, hlt, hi⟩
    exact h (Or.inr ⟨hi, hlt⟩)

/-- A segment outside the window adds nothing. -/
theorem accept_of_outside (h : r.outside data index = true) : accept r f data index = f := by
  apply offer_eq_self
  intro i hlo hhi hix hlt
  unfold usable at hlt
  split at hlt
  · rename_i hw
    rw [outside_iff, endIndex_of_lt hw] at h
    omega
  · simp at hlt
    omega

/-- The arguments are a 64-bit index and a string, or small enough that no sum wraps. -/
def Fits (r : StreamReassembler) (data : List UInt8) (index : Nat) : Prop :=
  index < Word.size ∧ data.length ≤ maxSize ∨
    index + data.length < Word.size ∧ r.output.bytesRead + r.capacity < Word.size

/-- A segment that meets the window does not wrap, and neither does the window.  This is where
the sizes of strings and deques matter. -/
theorem not_outside (hr : Window r f) (hfit : Fits r data index)
    (h : r.outside data index = false) :
    index + data.length < Word.size ∧ r.output.bytesRead + r.capacity < Word.size ∧
      r.output.bytesWritten < index + data.length ∧
      index < r.output.bytesRead + r.capacity ∧ 0 < r.capacity := by
  have hW := hr.bytesWritten_lt
  have hR := Window.bytesRead_le (r := r)
  have hWc := hr.bytesWritten_le
  have hc := hr.capacity_le
  have hclosed := hr.closed
  have hout : ¬ (endIndex index data ≤ r.output.bytesWritten ∨ r.firstUnacceptable ≤ index) := by
    rw [← outside_iff, h]
    exact Bool.false_ne_true
  simp only [not_or, Nat.not_le, endIndex, firstUnacceptable] at hout
  obtain ⟨h1, h2⟩ := hout
  rcases hfit with ⟨hix, hd⟩ | ⟨hend, hwrap⟩
  swap
  · rw [Word.add_of_lt hend] at h1
    rw [Word.add_of_lt hwrap] at h2
    exact ⟨hend, hwrap, h1, h2, by omega⟩
  simp only [maxSize, Word.size_eq] at *
  by_cases hwrap : r.output.bytesRead + r.capacity < 18446744073709551616
  · rw [Word.add_of_lt hwrap] at h2
    by_cases hend : index + data.length < 18446744073709551616
    · rw [Word.add_of_lt hend] at h1
      exact ⟨hend, hwrap, h1, h2, by omega⟩
    · rw [Word.add_of_le hix (by rw [Word.size_eq]; omega) (by rw [Word.size_eq]; omega),
        Word.size_eq] at h1
      omega
  · rw [Word.add_of_le (by rw [Word.size_eq]; omega) (by rw [Word.size_eq]; omega)
      (by rw [Word.size_eq]; omega), Word.size_eq] at h2
    have hle : Word.add index data.length ≤ index + data.length := Nat.mod_le _ _
    omega

/-- The placement branches: the free cells of the window that the segment covers take its
bytes. -/
theorem insert_spec (hr : Window r f) (hfit : Fits r data index)
    (h : r.outside data index = false) :
    ∃ buffer bitmap,
      r.insert data index =
        some { r with
          buffer := buffer, bitmap := bitmap, unassembledBytes := bitmap.count true } ∧
      bitmap.length = r.bitmap.length ∧
      Shows (accept r f data index) r.output.bytesWritten 0 buffer bitmap := by
  obtain ⟨hend, hwin, hlt, hlt', -⟩ := not_outside hr hfit h
  have hR := Window.bytesRead_le (r := r)
  have hWc := hr.bytesWritten_le
  have hlen := hr.bitmap_length
  unfold insert
  simp only [endIndex_of_lt hend, firstUnacceptable_of_lt hwin]
  rw [accept_eq hend hwin]
  by_cases hstart : r.output.bytesWritten ≤ index
  · obtain ⟨buffer, bitmap, hplace, hl, hshows⟩ :=
      place_spec data (index - r.output.bytesWritten) 0 r.output.bytesWritten index (by omega)
        (min (index + data.length) (r.output.bytesRead + r.capacity) - index) 0 r f hr.shows
        hr.count (by omega) (by omega)
    refine ⟨buffer, bitmap, ?_, hl, ?_⟩
    · rw [if_pos hstart, Word.sub_of_le (by omega)]
      exact hplace
    · convert hshows using 1
      exact offer_congr (fun i _ _ => by omega)
  · obtain ⟨buffer, bitmap, hplace, hl, hshows⟩ :=
      place_spec data 0 (r.output.bytesWritten - index) r.output.bytesWritten index (by omega)
        (min (index + data.length) (r.output.bytesRead + r.capacity) - r.output.bytesWritten) 0 r f
        hr.shows hr.count (by omega) (by omega)
    refine ⟨buffer, bitmap, ?_, hl, ?_⟩
    · rw [if_neg hstart, show max index r.output.bytesWritten = r.output.bytesWritten by omega,
        Word.sub_of_le (by omega)]
      exact hplace
    · convert hshows using 1
      exact offer_congr (fun i _ _ => by omega)

/-! ## The end of the stream -/

/-- Signalling the end touches nothing else. -/
structure SameBytes (r r' : StreamReassembler) : Prop where
  buffer : r'.buffer = r.buffer
  bitmap : r'.bitmap = r.bitmap
  unassembledBytes : r'.unassembledBytes = r.unassembledBytes
  capacity : r'.capacity = r.capacity
  output_buffer : r'.output.buffer = r.output.buffer
  output_capacity : r'.output.capacity = r.output.capacity
  bytesWritten : r'.output.bytesWritten = r.output.bytesWritten
  bytesRead : r'.output.bytesRead = r.output.bytesRead

theorem checkEof_sameBytes (r : StreamReassembler) : SameBytes r r.checkEof := by
  unfold checkEof
  split <;> exact ⟨rfl, rfl, rfl, rfl, rfl, rfl, rfl, rfl⟩

theorem checkEof_eofFlag (r : StreamReassembler) : r.checkEof.eofFlag = r.eofFlag := by
  unfold checkEof
  split <;> rfl

theorem checkEof_eofIndex (r : StreamReassembler) : r.checkEof.eofIndex = r.eofIndex := by
  unfold checkEof
  split <;> rfl

theorem checkEof_inputEnded (r : StreamReassembler) :
    r.checkEof.output.inputEnded =
      (r.output.inputEnded || (r.eofFlag && r.eofIndex == r.output.bytesWritten)) := by
  unfold checkEof
  split
  · rename_i h
    simp [h]
  · rename_i h
    simp only [Bool.not_eq_true] at h
    simp [h]

/-- Where the end has been signalled, looking for it again changes nothing. -/
theorem checkEof_eq_self
    (h : r.eofFlag = true → r.eofIndex = r.output.bytesWritten → r.output.inputEnded = true) :
    r.checkEof = r := by
  unfold checkEof
  split
  · rename_i hc
    simp only [Bool.and_eq_true, beq_iff_eq] at hc
    have hended : r.output.endWrite = true := h hc.1 hc.2
    have hout : r.output.endInput = r.output := by rw [ByteStream.endInput, ← hended]
    rw [hout]
  · rfl

/-- After looking for the end it has been signalled if it was reached. -/
theorem checkEof_ended (r : StreamReassembler) (hflag : r.checkEof.eofFlag = true)
    (hindex : r.checkEof.eofIndex = r.checkEof.output.bytesWritten) :
    r.checkEof.output.inputEnded = true := by
  rw [checkEof_eofFlag] at hflag
  rw [checkEof_eofIndex, (checkEof_sameBytes r).bytesWritten] at hindex
  rw [checkEof_inputEnded, hflag, hindex]
  simp

/-- The bookkeeping at the start of a call. -/
theorem noteEof_spec (r : StreamReassembler) (stop : Nat) (eof : Bool) :
    SameBytes r (r.noteEof stop eof) ∧
    (r.noteEof stop eof).eofFlag = (eof || r.eofFlag) ∧
    (r.noteEof stop eof).eofIndex = (if eof then stop else r.eofIndex) ∧
    (r.noteEof stop eof).output.inputEnded = (r.output.inputEnded ||
      ((eof || r.eofFlag) && (if eof then stop else r.eofIndex) == r.output.bytesWritten)) := by
  unfold noteEof
  cases eof with
  | true =>
    have hs := checkEof_sameBytes { r with eofFlag := true, eofIndex := stop }
    exact ⟨⟨hs.1, hs.2, hs.3, hs.4, hs.5, hs.6, hs.7, hs.8⟩, checkEof_eofFlag _,
      checkEof_eofIndex _, checkEof_inputEnded _⟩
  | false =>
    exact ⟨checkEof_sameBytes r, checkEof_eofFlag r, checkEof_eofIndex r, checkEof_inputEnded r⟩

theorem Window.sameBytes (h : Window r f) (hs : SameBytes r r') : Window r' f := by
  obtain ⟨h1, h2, h3, h4, h5, h6, h7, h8⟩ := hs
  constructor
  · rw [h4]; exact h.capacity_le
  · rw [h2, h4]; exact h.bitmap_length
  · rw [h6, h4]; exact h.output_capacity
  · rw [h7, h1, h2]; exact h.shows
  · rw [h3, h2]; exact h.count
  · rw [h7]; exact h.written
  · rw [h8, h4]; exact h.room
  · exact h.word
  · rw [h4, h7]; exact h.closed

/-! ## Moving bytes -/

/-- `r'` is `r` after `bytes` went from the front of the window to the output stream; with the
accepted bytes `f` nothing more can be moved. -/
structure MovedOut (r : StreamReassembler) (f : Nat → Option UInt8) (bytes : List UInt8)
    (r' : StreamReassembler) : Prop where
  window : Window r' f
  hole : f r'.output.bytesWritten = none
  capacity : r'.capacity = r.capacity
  bytesRead : r'.output.bytesRead = r.output.bytesRead
  eofFlag : r'.eofFlag = r.eofFlag
  eofIndex : r'.eofIndex = r.eofIndex
  inputEnded : r'.output.inputEnded = r.output.inputEnded
  buffer : r'.output.buffer = r.output.buffer ++ bytes
  bytesWritten : r'.output.bytesWritten = r.output.bytesWritten + bytes.length
  moved : ∀ k < bytes.length, f (r.output.bytesWritten + k) = bytes[k]?

/-- The window after `bytes` were drained from it and written to the output. -/
theorem Window.drained (hr : Window r f) (hcap : 0 < r.capacity) {buffer : List UInt8}
    {bitmap : List Bool} {bytes : List UInt8}
    (hshows : Shows f (r.output.bytesWritten + bytes.length) 0 buffer bitmap)
    (hlen : bitmap.length = r.bitmap.length)
    (hcount : r.bitmap.count true = bitmap.count true + bytes.length)
    (hbytes : ∀ k < bytes.length, f (r.output.bytesWritten + k) = bytes[k]?) (out : ByteStream)
    (hc : out.capacity = r.output.capacity) (hread : out.bytesRead = r.output.bytesRead)
    (hwr : out.bytesWritten = r.output.bytesWritten + bytes.length) :
    Window { r with
      buffer := buffer
      bitmap := bitmap
      output := out
      unassembledBytes := Word.sub r.unassembledBytes bytes.length } f := by
  constructor
  · exact hr.capacity_le
  · exact hlen.trans hr.bitmap_length
  · exact hc.trans hr.output_capacity
  · simpa only [hwr] using hshows
  · have := hr.count
    simp only [Word.sub_of_le (show bytes.length ≤ r.unassembledBytes by omega)]
    omega
  · intro i hi
    simp only [hwr] at hi
    rcases Nat.lt_or_ge i r.output.bytesWritten with hlt | hge
    · exact hr.written i hlt
    · have hk := hbytes (i - r.output.bytesWritten) (by omega)
      rw [show r.output.bytesWritten + (i - r.output.bytesWritten) = i by omega] at hk
      rw [hk]
      simp
      omega
  · simpa only [hread] using hr.room
  · exact hr.word
  · intro h
    exact absurd h (by simp only; omega)

/-- The drain loop ends at the first hole, and the output stream has room for all it drained. -/
theorem Window.drain_spec (hr : Window r f) (hcap : 0 < r.capacity) :
    ∃ buffer bitmap bytes,
      drain (r.bitmap.length + 1) r.buffer r.bitmap [] = some (buffer, bitmap, bytes) ∧
      Shows f (r.output.bytesWritten + bytes.length) 0 buffer bitmap ∧
      bitmap.length = r.bitmap.length ∧
      r.bitmap.count true = bitmap.count true + bytes.length ∧
      f (r.output.bytesWritten + bytes.length) = none ∧
      (∀ k < bytes.length, f (r.output.bytesWritten + k) = bytes[k]?) ∧
      bytes.length ≤ r.output.remainingCapacity := by
  have hlen := hr.bitmap_length
  have hne : r.bitmap ≠ [] := by
    intro h
    rw [h] at hlen
    simp at hlen
    omega
  obtain ⟨buffer, bitmap, bytes, hdrain, hshows, hbl, hcount, hnone, hbytes⟩ :=
    StreamReassembler.drain_spec f (r.bitmap.length + 1) r.output.bytesWritten
      (r.output.bytesWritten + r.bitmap.length) r.buffer r.bitmap [] hr.shows hne
      (hr.shows.beyond _ (Nat.le_refl _)) (by omega) (by omega)
  rw [List.nil_append] at hdrain
  refine ⟨buffer, bitmap, bytes, hdrain, hshows, hbl, hcount, hnone, hbytes, ?_⟩
  -- everything drained lies below `first_unacceptable`
  have hrem := r.output.remainingCapacity_eq
  rw [hr.output_capacity] at hrem
  rcases Nat.eq_zero_or_pos bytes.length with h0 | h0
  · omega
  · have hlast := hr.room (r.output.bytesWritten + (bytes.length - 1))
      (by rw [hbytes _ (by omega)]; simp; omega)
    omega

/-- The bytes before the first hole go to the output stream. -/
theorem moveOut_spec (hr : Window r f) (hcap : 0 < r.capacity) :
    ∃ r' bytes, r.moveOut = some r' ∧ MovedOut r f bytes r' := by
  obtain ⟨buffer, bitmap, bytes, hdrain, hshows, hbl, hcount, hnone, hbytes, hroom⟩ :=
    hr.drain_spec hcap
  obtain ⟨hall, hbuf⟩ := r.output.write_all bytes hroom
  have hwritten : (r.output.write bytes).2.bytesWritten = r.output.bytesWritten + bytes.length := by
    rw [ByteStream.write_bytesWritten, hall]
  have hdrained := hr.drained hcap hshows hbl hcount hbytes
  refine ⟨_, bytes, by rw [moveOut, hdrain], ?_⟩
  split
  · exact ⟨hdrained _ rfl rfl hwritten, by rw [hwritten]; exact hnone, rfl, rfl, rfl, rfl, rfl,
      hbuf, hwritten, hbytes⟩
  · rename_i h0
    obtain rfl : bytes = [] := List.length_eq_zero_iff.mp (by omega)
    have hw := hdrained r.output rfl rfl rfl
    simp only [List.length_nil, Word.sub_of_le (Nat.zero_le _), Nat.sub_zero] at hw
    exact ⟨hw, hnone, rfl, rfl, rfl, rfl, rfl, (List.append_nil _).symm, rfl, hbytes⟩

/-- The part of `push_substring` that moves bytes. -/
def moveBytes (r : StreamReassembler) (data : List UInt8) (index : Nat) :
    Option StreamReassembler :=
  if r.outside data index then some r else (r.insert data index).bind moveOut

/-- `push_substring` notes the end, moves the bytes, and looks for the end. -/
theorem pushSubstring_eq (r : StreamReassembler) (data : List UInt8) (index : Nat) (eof : Bool) :
    r.pushSubstring data index eof =
      ((r.noteEof (endIndex index data) eof).moveBytes data index).map checkEof := by
  unfold pushSubstring moveBytes
  dsimp only
  split
  · rw [Option.map_some, noteEof, checkEof_eq_self (checkEof_ended _)]
  · rw [Option.map_bind]
    rfl

/-- The window after a segment that meets it was placed. -/
theorem Window.placed (hr : Window r f) (hend : index + data.length < Word.size)
    (hwin : r.output.bytesRead + r.capacity < Word.size) {buffer : List UInt8}
    {bitmap : List Bool} (hlen : bitmap.length = r.bitmap.length)
    (hshows : Shows (accept r f data index) r.output.bytesWritten 0 buffer bitmap) :
    Window { r with buffer := buffer, bitmap := bitmap, unassembledBytes := bitmap.count true }
      (accept r f data index) := by
  have hgrow : ∀ i, (accept r f data index i).isSome → (f i).isSome ∨
      i < r.output.bytesRead + r.capacity := by
    intro i hi
    obtain ⟨c, hc⟩ := Option.isSome_iff_exists.mp hi
    rw [accept_eq hend hwin] at hc
    rcases offer_some hc with hc | ⟨-, -, hlt, -⟩
    · exact Or.inl (by simp [hc])
    · exact Or.inr hlt
  refine { hr with
    bitmap_length := hlen.trans hr.bitmap_length
    shows := hshows
    count := rfl
    written := ?_
    room := ?_
    word := ?_ }
  · intro i hi
    obtain ⟨c, hc⟩ := Option.isSome_iff_exists.mp (hr.written i hi)
    rw [accept, offer_of_some hc]
    rfl
  · intro i hi
    exact (hgrow i hi).elim (hr.room i) id
  · intro i hi
    rcases hgrow i hi with h | h
    · exact hr.word i h
    · omega

/-- A call moves to the output what the accepted bytes, its own included, allow. -/
theorem moveBytes_spec (hr : Window r f) (hole : f r.output.bytesWritten = none)
    (hfit : Fits r data index) :
    ∃ r' bytes, r.moveBytes data index = some r' ∧
      MovedOut r (accept r f data index) bytes r' := by
  unfold moveBytes
  cases ho : r.outside data index with
  | true =>
    rw [accept_of_outside ho, if_pos rfl]
    exact ⟨r, [], rfl, hr, hole, rfl, rfl, rfl, rfl, rfl, (List.append_nil _).symm, rfl, by simp⟩
  | false =>
    obtain ⟨buffer, bitmap, hins, hlen, hshows⟩ := insert_spec hr hfit ho
    obtain ⟨hend, hwin, -, -, hcap⟩ := not_outside hr hfit ho
    obtain ⟨r', bytes, hmove, hm⟩ := moveOut_spec (hr.placed hend hwin hlen hshows) hcap
    refine ⟨r', bytes, by rw [if_neg Bool.false_ne_true, hins, Option.bind_some, hmove], ?_⟩
    exact ⟨hm.window, hm.hole, hm.capacity, hm.bytesRead, hm.eofFlag, hm.eofIndex, hm.inputEnded,
      hm.buffer, hm.bytesWritten, hm.moved⟩

/-! ## The whole call -/

/-- Everything a call of `push_substring` does to an assembled reassembler. -/
structure Pushed (r : StreamReassembler) (f : Nat → Option UInt8) (data : List UInt8)
    (index : Nat) (eof : Bool) (r' : StreamReassembler) : Prop where
  assembled : Assembled r' (accept r f data index)
  capacity : r'.capacity = r.capacity
  bytesRead : r'.output.bytesRead = r.output.bytesRead
  eofFlag : r'.eofFlag = (eof || r.eofFlag)
  eofIndex : r'.eofIndex = if eof then endIndex index data else r.eofIndex
  written : ∃ bytes, r'.output.buffer = r.output.buffer ++ bytes ∧
    r'.output.bytesWritten = r.output.bytesWritten + bytes.length ∧
    ∀ k < bytes.length, accept r f data index (r.output.bytesWritten + k) = bytes[k]?
  inputEnded : r'.output.inputEnded = (r.output.inputEnded ||
    (r'.eofFlag && (r'.eofIndex == r.output.bytesWritten || r'.eofIndex == r'.output.bytesWritten)))

/-- **What `push_substring` does**, for every 64-bit index and every string. -/
theorem pushSubstring_spec (hr : Assembled r f) (hfit : Fits r data index) (eof : Bool) :
    ∃ r', r.pushSubstring data index eof = some r' ∧ Pushed r f data index eof r' := by
  obtain ⟨hn, hflag, hindex, hended⟩ := noteEof_spec r (endIndex index data) eof
  rw [pushSubstring_eq]
  generalize r.noteEof (endIndex index data) eof = r₁ at *
  have hacc : accept r₁ f data index = accept r f data index := by
    simp only [accept, firstUnacceptable, hn.bytesRead, hn.capacity, hn.bytesWritten]
  have hfit₁ : Fits r₁ data index := by
    simpa only [Fits, hn.bytesRead, hn.capacity] using hfit
  obtain ⟨c, bytes, hc, hm⟩ := moveBytes_spec (hr.toWindow.sameBytes hn)
    (by rw [hn.bytesWritten]; exact hr.hole) hfit₁
  have hs := checkEof_sameBytes c
  have hmoved := hm.moved
  rw [hn.bytesWritten] at hmoved
  rw [hacc] at hm hmoved
  refine ⟨c.checkEof, by rw [hc, Option.map_some], ?_⟩
  exact {
    assembled := { hm.window.sameBytes hs with
      hole := by rw [hs.bytesWritten]; exact hm.hole
      ended := checkEof_ended c }
    capacity := by rw [hs.capacity, hm.capacity, hn.capacity]
    bytesRead := by rw [hs.bytesRead, hm.bytesRead, hn.bytesRead]
    eofFlag := by rw [checkEof_eofFlag, hm.eofFlag, hflag]
    eofIndex := by rw [checkEof_eofIndex, hm.eofIndex, hindex]
    written := ⟨bytes, by rw [hs.output_buffer, hm.buffer, hn.output_buffer],
      by rw [hs.bytesWritten, hm.bytesWritten, hn.bytesWritten], hmoved⟩
    inputEnded := by
      rw [checkEof_inputEnded, hm.inputEnded, hended, checkEof_eofFlag, checkEof_eofIndex,
        hm.eofFlag, hm.eofIndex, hflag, hindex, hs.bytesWritten]
      cases eof <;> cases r.eofFlag <;> simp [Bool.or_assoc] }

/-- The reader does not touch the window. -/
theorem Assembled.pop (hr : Assembled r f) (len : Nat) :
    Assembled { r with output := r.output.popOutput len } f := by
  have hw := r.output.popOutput_bytesWritten len
  refine { hr with
    output_capacity := (r.output.popOutput_capacity len).trans hr.output_capacity
    shows := ?_
    written := ?_
    room := ?_
    closed := ?_
    hole := ?_
    ended := ?_ }
  · simpa only [hw] using hr.shows
  · simpa only [hw] using hr.written
  · intro i hi
    have := hr.room i hi
    simp only [r.output.popOutput_bytesRead len]
    omega
  · simpa only [hw] using hr.closed
  · simpa only [hw] using hr.hole
  · simpa only [hw, ByteStream.popOutput_inputEnded] using hr.ended

theorem step_read (r : StreamReassembler) (len : Nat) :
    r.step (.read len) = some { r with output := r.output.popOutput len } := by
  rw [step, ByteStream.read_snd]

end Sponge.StreamReassembler
