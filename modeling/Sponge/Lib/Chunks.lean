import Sponge.Lib.Word

/-!
# Strings kept in chunks

A string may be kept as a list of chunks, each of which shows a part of it.  Elements are taken off
the front by dropping whole chunks and shortening the first one that is longer than what is left to
remove.  `contents_removePrefix` and `removePrefix_fst` say what that does to the string, whatever
the chunks are.
-/

variable {α β ε : Type*}

/-- Chunks of type `β` that show strings over `α` and can be shortened from the front. -/
structure Chunk (α β ε : Type*) where
  str : β → List α
  shorten : Nat → β → Except ε β
  shorten_spec : ∀ n b, n ≤ (str b).length →
    ∃ b', shorten n b = .ok b' ∧ str b' = (str b).drop n

namespace Chunk

/-- The string that a list of chunks stands for. -/
def contents (c : Chunk α β ε) (bs : List β) : List α := bs.flatMap c.str

/-- Remove `n` elements from the front; `exhausted` is thrown when the chunks run out before.  The
second component is the list as the loop leaves it, also when it throws. -/
def removePrefix (c : Chunk α β ε) (exhausted : ε) : Nat → List β → Except ε Unit × List β
  | 0, bs => (.ok (), bs)
  | _ + 1, [] => (.error exhausted, [])
  | n + 1, b :: bs =>
    if n + 1 < (c.str b).length then
      match c.shorten (n + 1) b with
      | .ok b' => (.ok (), b' :: bs)
      | .error e => (.error e, b :: bs)
    else removePrefix c exhausted (n + 1 - (c.str b).length) bs

/-- The number of elements, added up chunk by chunk in a 64-bit word. -/
def size (c : Chunk α β ε) (bs : List β) : Nat :=
  bs.foldl (fun ret b => Word.add ret (c.str b).length) 0

variable (c : Chunk α β ε) (exhausted : ε)

theorem contents_cons (b : β) (bs : List β) :
    c.contents (b :: bs) = c.str b ++ c.contents bs := List.flatMap_cons

theorem contents_append (bs bs' : List β) :
    c.contents (bs ++ bs') = c.contents bs ++ c.contents bs' := List.flatMap_append

/-- The size is the length of the string as far as a word can tell. -/
theorem size_eq (bs : List β) : c.size bs = (c.contents bs).length % Word.size := by
  -- the loop may start from any word
  suffices h : ∀ (bs : List β) (k : Nat),
      bs.foldl (fun ret b => Word.add ret (c.str b).length) (k % Word.size) =
        (k + (c.contents bs).length) % Word.size by
    simpa [size] using h bs 0
  intro bs
  induction bs with
  | nil => intro k; rfl
  | cons b bs ih =>
    intro k
    have hadd : Word.add (k % Word.size) (c.str b).length =
        (k + (c.str b).length) % Word.size := Nat.mod_add_mod ..
    rw [List.foldl_cons, hadd, ih, contents_cons, List.length_append, Nat.add_assoc]

/-- One pass of the loop, for a first chunk that is longer than what is left to remove. -/
theorem removePrefix_of_lt {n : Nat} {b : β} (bs : List β) (hn : 0 < n)
    (hlt : n < (c.str b).length) :
    ∃ b', c.removePrefix exhausted n (b :: bs) = (.ok (), b' :: bs) ∧
      c.str b' = (c.str b).drop n := by
  obtain ⟨n, rfl⟩ := Nat.exists_eq_succ_of_ne_zero (Nat.pos_iff_ne_zero.mp hn)
  obtain ⟨b', hok, hstr⟩ := c.shorten_spec _ b (Nat.le_of_lt hlt)
  refine ⟨b', ?_, hstr⟩
  rw [removePrefix, if_pos hlt, hok]

/-- One pass of the loop, for a first chunk that is used up. -/
theorem removePrefix_of_le {n : Nat} {b : β} (bs : List β) (hn : 0 < n)
    (hle : (c.str b).length ≤ n) :
    c.removePrefix exhausted n (b :: bs) =
      c.removePrefix exhausted (n - (c.str b).length) bs := by
  obtain ⟨n, rfl⟩ := Nat.exists_eq_succ_of_ne_zero (Nat.pos_iff_ne_zero.mp hn)
  rw [removePrefix, if_neg (Nat.not_lt.mpr hle)]

/-- What is left is the string without its first `n` elements. -/
theorem contents_removePrefix (n : Nat) (bs : List β) :
    c.contents (c.removePrefix exhausted n bs).2 = (c.contents bs).drop n := by
  induction bs generalizing n with
  | nil => cases n <;> rfl
  | cons b bs ih =>
    rcases Nat.eq_zero_or_pos n with rfl | hn
    · rfl
    rcases Nat.lt_or_ge n (c.str b).length with hlt | hle
    · obtain ⟨b', hrem, hstr⟩ := c.removePrefix_of_lt exhausted bs hn hlt
      rw [hrem, contents_cons, contents_cons, hstr,
        List.drop_append_of_le_length (Nat.le_of_lt hlt)]
    · rw [c.removePrefix_of_le exhausted bs hn hle, ih, contents_cons, List.drop_append,
        List.drop_eq_nil_of_le hle, List.nil_append]

/-- The loop throws exactly when more is to be removed than there is. -/
theorem removePrefix_fst (n : Nat) (bs : List β) :
    (c.removePrefix exhausted n bs).1 =
      if n ≤ (c.contents bs).length then .ok () else .error exhausted := by
  induction bs generalizing n with
  | nil => cases n <;> rfl
  | cons b bs ih =>
    rcases Nat.eq_zero_or_pos n with rfl | hn
    · rfl
    have hlen : (c.contents (b :: bs)).length = (c.str b).length + (c.contents bs).length := by
      rw [contents_cons, List.length_append]
    rcases Nat.lt_or_ge n (c.str b).length with hlt | hle
    · obtain ⟨b', hrem, hstr⟩ := c.removePrefix_of_lt exhausted bs hn hlt
      rw [hrem, if_pos (by omega)]
    · rw [c.removePrefix_of_le exhausted bs hn hle, ih, hlen]
      simp only [Nat.sub_le_iff_le_add']

end Chunk
