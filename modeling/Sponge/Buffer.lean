import Sponge.Lib.Chunks
import Sponge.SystemCall

/-!
# Buffers

A `Buffer` shows the end of a shared string from an offset on; a `BufferList` is a string kept in
several of them, and a `BufferViewList` the same without owning the strings.  All three lose bytes
from the front only.  `bufferList_flat` says that they are nothing but strings, of any length: what
the list shows may be longer than a `std::string` can be, since buffers share their storage, and
then `concatenate` throws.
-/

namespace Sponge

/-- A string shared with other buffers, and the offset from which this buffer shows it.  The storage
is given up once nothing of it is shown any more; the offset then stays as it is. -/
structure Buffer where
  storage : Option (List UInt8)
  startingOffset : Nat
  offset_le : ∀ s ∈ storage, startingOffset ≤ s.length
  deriving DecidableEq

namespace Buffer

def new : Buffer := ⟨none, 0, by simp⟩

def ofString (str : List UInt8) : Buffer := ⟨some str, 0, fun _ _ => Nat.zero_le _⟩

def str (b : Buffer) : List UInt8 :=
  match b.storage with
  | none => []
  | some s => (s.drop b.startingOffset).take (Word.sub s.length b.startingOffset)

def size (b : Buffer) : Nat := b.str.length

/-- The offset stays in the storage, so the buffer shows the storage from there on. -/
theorem str_eq (b : Buffer) : b.str = (b.storage.getD []).drop b.startingOffset := by
  cases hs : b.storage with
  | none => rw [str, hs, Option.getD_none, List.drop_nil]
  | some s =>
    have hle : b.startingOffset ≤ s.length := b.offset_le s hs
    rw [str, hs, Option.getD_some]
    exact List.take_of_length_le (by rw [Word.sub_of_le hle, List.length_drop])

/-- The bytes shown lie in the storage. -/
theorem offset_add_le {b : Buffer} {n : Nat} (hn : n ≤ b.str.length) :
    ∀ s ∈ b.storage, b.startingOffset + n ≤ s.length := by
  intro s hs
  have hle := b.offset_le s hs
  rw [str_eq, Option.mem_def.mp hs, Option.getD_some, List.length_drop] at hn
  omega

def removePrefix (n : Nat) (b : Buffer) : Except Exception Buffer :=
  if h : n > b.str.length then .error (.outOfRange "Buffer::remove_prefix")
  else if b.storage.any (fun s => b.startingOffset + n == s.length) then
    .ok ⟨none, b.startingOffset + n, by simp⟩
  else .ok ⟨b.storage, b.startingOffset + n, offset_add_le (Nat.not_lt.mp h)⟩

/-- A buffer is shortened as the string it shows is. -/
theorem removePrefix_spec (n : Nat) (b : Buffer) (hn : n ≤ b.str.length) :
    ∃ b', b.removePrefix n = .ok b' ∧ b'.str = b.str.drop n := by
  rw [removePrefix, dif_neg (Nat.not_lt.mpr hn)]
  split
  case isTrue hall =>
    -- the storage is given up: nothing of it was left to show
    refine ⟨_, rfl, Eq.symm ?_⟩
    rw [b.str_eq, List.drop_drop]
    cases hs : b.storage with
    | none => exact List.drop_nil
    | some s =>
      rw [hs] at hall
      exact List.drop_eq_nil_iff.mpr (Nat.le_of_eq (beq_iff_eq.mp hall).symm)
  case isFalse =>
    refine ⟨_, rfl, ?_⟩
    calc
      _ = (b.storage.getD []).drop (b.startingOffset + n) := str_eq _
      _ = b.str.drop n := by rw [b.str_eq, List.drop_drop]

/-- Buffers as chunks of a byte string. -/
def chunk : Chunk UInt8 Buffer Exception := ⟨str, removePrefix, removePrefix_spec⟩

end Buffer

structure BufferList where
  buffers : List Buffer
  deriving DecidableEq

namespace BufferList

def new : BufferList := ⟨[]⟩

def ofBuffer (buffer : Buffer) : BufferList := ⟨[buffer]⟩

/-- `append`, for `other` another object than `l`: the loop runs over `other` while it pushes into
`l`. -/
def append (l other : BufferList) : BufferList := ⟨l.buffers ++ other.buffers⟩

def ofString (str : List UInt8) : BufferList := new.append (ofBuffer (Buffer.ofString str))

def size (l : BufferList) : Nat := Buffer.chunk.size l.buffers

/-- `std::string::append`, for strings that have at most `maxSize` bytes. -/
def appendTo (maxSize : Nat) (ret : List UInt8) (buf : Buffer) : Except Exception (List UInt8) :=
  if maxSize - ret.length < buf.size then .error (.lengthError "basic_string::append")
  else .ok (ret ++ buf.str)

/-- `concatenate`, where `maxSize` is `std::string::max_size()`; the string is reserved first. -/
def concatenate (maxSize : Nat) (l : BufferList) : Except Exception (List UInt8) :=
  if l.size > maxSize then .error (.lengthError "basic_string::_M_create")
  else l.buffers.foldlM (appendTo maxSize) []

/-- `remove_prefix`, with the list it leaves, also when it throws. -/
def removePrefix (n : Nat) (l : BufferList) : Except Exception Unit × BufferList :=
  let r := Buffer.chunk.removePrefix (.outOfRange "BufferList::remove_prefix") n l.buffers
  (r.1, ⟨r.2⟩)

/-- The list that a sequence of calls of `remove_prefix` leaves. -/
def removePrefixes (ns : List Nat) (l : BufferList) : BufferList :=
  ns.foldl (fun l n => (l.removePrefix n).2) l

/-- The bytes of all buffers together. -/
def contents (l : BufferList) : List UInt8 := Buffer.chunk.contents l.buffers

end BufferList

/-- Views of strings that others own. -/
structure BufferViewList where
  views : List (List UInt8)
  deriving DecidableEq

/-- Views as chunks of a byte string; `string_view::remove_prefix` does not check its argument. -/
def viewChunk : Chunk UInt8 (List UInt8) Exception where
  str view := view
  shorten n view := .ok (view.drop n)
  shorten_spec _ _ _ := ⟨_, rfl, rfl⟩

namespace BufferViewList

def ofString (str : List UInt8) : BufferViewList := ⟨[str]⟩

def ofBufferList (buffers : BufferList) : BufferViewList := ⟨buffers.buffers.map Buffer.str⟩

/-- `remove_prefix`, with the list it leaves, also when it throws. -/
def removePrefix (n : Nat) (l : BufferViewList) : Except Exception Unit × BufferViewList :=
  let r := viewChunk.removePrefix (.outOfRange "BufferListView::remove_prefix") n l.views
  (r.1, ⟨r.2⟩)

def size (l : BufferViewList) : Nat := viewChunk.size l.views

/-- The regions of memory that are handed to the kernel. -/
def asIovecs (l : BufferViewList) : List (List UInt8) := l.views

/-- The bytes of all views together. -/
def contents (l : BufferViewList) : List UInt8 := viewChunk.contents l.views

/-- The list that a sequence of calls of `remove_prefix` leaves. -/
def removePrefixes (ns : List Nat) (l : BufferViewList) : BufferViewList :=
  ns.foldl (fun l n => (l.removePrefix n).2) l

theorem contents_eq_flatten (l : BufferViewList) : l.contents = l.asIovecs.flatten :=
  List.flatMap_id'

theorem size_eq (l : BufferViewList) : l.size = l.contents.length % Word.size :=
  viewChunk.size_eq l.views

theorem contents_removePrefix (n : Nat) (l : BufferViewList) :
    (l.removePrefix n).2.contents = l.contents.drop n :=
  viewChunk.contents_removePrefix _ n l.views

theorem removePrefix_fst (n : Nat) (l : BufferViewList) :
    (l.removePrefix n).1 = if n ≤ l.contents.length then .ok ()
      else .error (.outOfRange "BufferListView::remove_prefix") :=
  viewChunk.removePrefix_fst _ n l.views

theorem contents_ofBufferList (l : BufferList) : (ofBufferList l).contents = l.contents :=
  List.flatMap_map ..

end BufferViewList

namespace BufferList

theorem size_eq (l : BufferList) : l.size = l.contents.length % Word.size :=
  Buffer.chunk.size_eq l.buffers

@[simp] theorem contents_append (l other : BufferList) :
    (l.append other).contents = l.contents ++ other.contents :=
  Buffer.chunk.contents_append l.buffers other.buffers

@[simp] theorem contents_new : new.contents = [] := rfl

@[simp] theorem contents_ofBuffer (b : Buffer) : (ofBuffer b).contents = b.str :=
  List.flatMap_singleton ..

@[simp] theorem contents_ofString (str : List UInt8) : (ofString str).contents = str := by
  rw [ofString, contents_append, contents_new, List.nil_append, contents_ofBuffer, Buffer.str_eq]
  rfl

theorem contents_removePrefix (n : Nat) (l : BufferList) :
    (l.removePrefix n).2.contents = l.contents.drop n :=
  Buffer.chunk.contents_removePrefix _ n l.buffers

theorem removePrefix_fst (n : Nat) (l : BufferList) :
    (l.removePrefix n).1 = if l.contents.length < n
      then .error (.outOfRange "BufferList::remove_prefix") else .ok () := by
  rw [← ite_not]
  simp only [Nat.not_lt]
  exact Buffer.chunk.removePrefix_fst _ n l.buffers

/-- The loop of `concatenate` goes on as long as the string may grow. -/
theorem foldlM_appendTo {maxSize : Nat} (bs : List Buffer) (ret : List UInt8)
    (hret : ret.length ≤ maxSize) :
    bs.foldlM (appendTo maxSize) ret =
      if (ret ++ Buffer.chunk.contents bs).length ≤ maxSize
        then .ok (ret ++ Buffer.chunk.contents bs)
        else .error (.lengthError "basic_string::append") := by
  induction bs generalizing ret with
  | nil =>
    have hnil : ret ++ Buffer.chunk.contents [] = ret := List.append_nil ret
    rw [hnil, if_pos hret]
    rfl
  | cons b bs ih =>
    have hcons : ret ++ Buffer.chunk.contents (b :: bs) =
        ret ++ b.str ++ Buffer.chunk.contents bs := by
      rw [Buffer.chunk.contents_cons, List.append_assoc]
      rfl
    rw [List.foldlM_cons, appendTo, hcons]
    split
    case isTrue hlong =>
      rw [Buffer.size] at hlong
      rw [if_neg (by simp only [List.length_append]; omega)]
      rfl
    case isFalse hfits =>
      rw [Buffer.size] at hfits
      exact ih (ret ++ b.str) (by rw [List.length_append]; omega)

/-- **`concatenate` returns the contents**, if a `std::string` can hold them. -/
theorem concatenate_of_le {maxSize : Nat} {l : BufferList} (hmax : maxSize < Word.size)
    (h : l.contents.length ≤ maxSize) : l.concatenate maxSize = .ok l.contents := by
  have hsize : ¬ l.size > maxSize := by
    rw [l.size_eq, Nat.mod_eq_of_lt (by omega)]
    omega
  rw [concatenate, if_neg hsize, foldlM_appendTo _ _ (Nat.zero_le _), List.nil_append]
  exact if_pos h

theorem concatenate_of_lt {maxSize : Nat} {l : BufferList} (h : maxSize < l.contents.length) :
    ∃ what, l.concatenate maxSize = .error (.lengthError what) := by
  rw [concatenate]
  split
  case isTrue => exact ⟨_, rfl⟩
  case isFalse =>
    -- the size has wrapped around, and one of the appends throws
    rw [foldlM_appendTo _ _ (Nat.zero_le _), List.nil_append]
    exact ⟨_, if_neg (Nat.not_le.mpr h)⟩

/-- Both kinds of list stand for the same string after the same calls. -/
theorem contents_removePrefixes (ns : List Nat) (l : BufferList) (v : BufferViewList)
    (h : v.contents = l.contents) :
    (v.removePrefixes ns).contents = (l.removePrefixes ns).contents := by
  induction ns generalizing l v with
  | nil => exact h
  | cons n ns ih =>
    apply ih
    rw [v.contents_removePrefix, l.contents_removePrefix, h]

end BufferList

/-- **Buffer lists are strings.**  `size` is the length of the string as a 64-bit word; `append` of
another list concatenates; `remove_prefix` throws for more bytes than there are and drops the first
`n` bytes otherwise; `concatenate` returns the string if a `std::string` can hold it, and then its
length is the size, and throws otherwise; the views of the list cannot be told from it by calls of
`remove_prefix`; no buffer shows anything outside its storage. -/
theorem bufferList_flat (l : BufferList) :
    l.size = l.contents.length % Word.size ∧
    (∀ other : BufferList, (l.append other).contents = l.contents ++ other.contents) ∧
    (∀ n, (l.removePrefix n).1 = if l.contents.length < n
      then .error (.outOfRange "BufferList::remove_prefix") else .ok ()) ∧
    (l.contents.length < Word.size → l.size = l.contents.length ∧
      ∀ n, (l.removePrefix n).1 = if l.size < n
        then .error (.outOfRange "BufferList::remove_prefix") else .ok ()) ∧
    (∀ n ≤ l.contents.length, (l.removePrefix n).2.contents = l.contents.drop n) ∧
    (∀ maxSize < Word.size,
      (l.contents.length ≤ maxSize →
        l.concatenate maxSize = .ok l.contents ∧ l.size = l.contents.length) ∧
      (maxSize < l.contents.length → ∃ what, l.concatenate maxSize = .error (.lengthError what))) ∧
    (∀ ns n,
      let v := (BufferViewList.ofBufferList l).removePrefixes ns
      let l' := l.removePrefixes ns
      v.contents = l'.contents ∧ v.size = l'.size ∧
        ((v.removePrefix n).1.isOk ↔ (l'.removePrefix n).1.isOk)) ∧
    ∀ b ∈ l.buffers, ∀ s ∈ b.storage, b.startingOffset ≤ s.length := by
  have hsize : l.contents.length < Word.size → l.size = l.contents.length := by
    intro hlt
    rw [l.size_eq, Nat.mod_eq_of_lt hlt]
  have hthrow := fun n => l.removePrefix_fst n
  refine ⟨l.size_eq, l.contents_append, hthrow, ?_, fun n _ => l.contents_removePrefix n, ?_, ?_,
    fun b _ => b.offset_le⟩
  · intro hlt
    exact ⟨hsize hlt, (hsize hlt) ▸ hthrow⟩
  · intro maxSize hmax
    exact ⟨fun hle => ⟨BufferList.concatenate_of_le hmax hle, hsize (by omega)⟩,
      BufferList.concatenate_of_lt⟩
  · intro ns n v l'
    have hc : v.contents = l'.contents :=
      l.contents_removePrefixes ns _ (BufferViewList.contents_ofBufferList l)
    refine ⟨hc, by rw [v.size_eq, l'.size_eq, hc], ?_⟩
    rw [v.removePrefix_fst, l'.removePrefix_fst, hc, ← ite_not]
    simp only [Nat.not_le]
    split <;> exact Iff.rfl

/-- Removing three bytes uses up a whole buffer, skips an empty one and shortens the last. -/
example :
    let l := (BufferList.ofString [1, 2]).append
      ((BufferList.ofBuffer Buffer.new).append (BufferList.ofString [3, 4]))
    (l.removePrefix 3).1.isOk ∧ (l.removePrefix 3).2.buffers.length = 1 ∧
      (l.removePrefix 3).2.concatenate 100 = .ok [4] := by
  decide

/-- A list of `k` copies of one buffer, which all share its storage. -/
def BufferList.copies (b : Buffer) : Nat → BufferList
  | 0 => BufferList.new
  | k + 1 => (copies b k).append (BufferList.ofBuffer b)

theorem BufferList.length_copies (b : Buffer) (k : Nat) :
    (copies b k).contents.length = k * b.size := by
  induction k with
  | zero => rw [Nat.zero_mul]; rfl
  | succ k ih =>
    rw [copies, contents_append, List.length_append, ih, contents_ofBuffer, Nat.succ_mul,
      Buffer.size]

/-- Copies may add up to more bytes than a word can count: `2 ^ 30` copies of a buffer of `2 ^ 34`
bytes have size zero, and yet a byte can be removed. -/
theorem size_copies_zero :
    let l := BufferList.copies (Buffer.ofString (List.replicate (2 ^ 34) 0)) (2 ^ 30)
    l.size = 0 ∧ (l.removePrefix 1).1 = .ok () := by
  intro l
  have hstr : (Buffer.ofString (List.replicate (2 ^ 34) 0)).size = 2 ^ 34 := by
    rw [Buffer.size, Buffer.str_eq]
    exact List.length_replicate
  have hlen : l.contents.length = Word.size := by
    rw [BufferList.length_copies, hstr]
    rfl
  rw [l.size_eq, l.removePrefix_fst, hlen]
  exact ⟨Nat.mod_self _, if_neg (by decide)⟩

end Sponge
