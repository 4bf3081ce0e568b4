import Sponge.Lib.BigEndian

/-!
# Parsing and unparsing integers

`NetParser` and `NetUnparser` (util/parser.hh, parser.cc).  A parser is the bytes that are left and
the result so far; once an error is set it stays, and every later integer is 0.  The loops over the
bytes of an integer are those of the source; `parseInt_value` and `unparseInt_eq` say that they read
and write network byte order.
-/

namespace Sponge

open BigEndian

/-- The result of parsing a datagram, segment, frame or message. -/
inductive ParseResult
  | noError
  | badChecksum
  | packetTooShort
  | wrongIPVersion
  | headerTooShort
  | truncatedPacket
  | unsupported
  deriving DecidableEq, Repr

structure NetParser where
  buffer : List UInt8
  error : ParseResult := .noError
  deriving DecidableEq, Repr

namespace NetParser

def checkSize (p : NetParser) (size : Nat) : NetParser :=
  if p.buffer.length < size then { p with error := .packetTooShort } else p

/-- `_parse_int` for an unsigned type of `len` bytes: the shift drops what leaves the type. -/
def parseInt (p : NetParser) (len : Nat) : Nat × NetParser :=
  let p := p.checkSize len
  if p.error ≠ .noError then (0, p)
  else
    ((p.buffer.take len).foldl (fun ret b => (ret <<< 8) % 2 ^ (8 * len) + b.toNat) 0,
      { p with buffer := p.buffer.drop len })

def u32 (p : NetParser) : UInt32 × NetParser :=
  (UInt32.ofNat (p.parseInt 4).1, (p.parseInt 4).2)

def u16 (p : NetParser) : UInt16 × NetParser :=
  (UInt16.ofNat (p.parseInt 2).1, (p.parseInt 2).2)

def u8 (p : NetParser) : UInt8 × NetParser :=
  (UInt8.ofNat (p.parseInt 1).1, (p.parseInt 1).2)

def removePrefix (p : NetParser) (n : Nat) : NetParser :=
  let p := p.checkSize n
  if p.error ≠ .noError then p else { p with buffer := p.buffer.drop n }

/-! ## What a parser takes -/

/-- `p'` is `p` after `n` bytes were asked for: they are taken, or there is an error. -/
structure Took (n : Nat) (p p' : NetParser) : Prop where
  noError : p'.error = .noError ↔ p.error = .noError ∧ n ≤ p.buffer.length
  buffer : p'.error = .noError → p'.buffer = p.buffer.drop n

variable {p p' p'' : NetParser} {m n : Nat}

theorem Took.trans (h : Took m p p') (h' : Took n p' p'') : Took (m + n) p p'' := by
  constructor
  · rw [h'.noError, h.noError]
    constructor
    · rintro ⟨⟨he, hm⟩, hn⟩
      rw [h.buffer (h.noError.mpr ⟨he, hm⟩), List.length_drop] at hn
      exact ⟨he, by omega⟩
    · rintro ⟨he, hlen⟩
      have hm : m ≤ p.buffer.length := by omega
      rw [h.buffer (h.noError.mpr ⟨he, hm⟩), List.length_drop]
      exact ⟨⟨he, hm⟩, by omega⟩
  · intro he
    rw [h'.buffer he, h.buffer (h'.noError.mp he).1, List.drop_drop]

theorem checkSize_noError : (p.checkSize n).error = .noError ↔
    p.error = .noError ∧ n ≤ p.buffer.length := by
  unfold checkSize
  split
  · exact iff_of_false (by simp) (by omega)
  · exact ⟨fun h => ⟨h, by omega⟩, fun h => h.1⟩

theorem checkSize_buffer (p : NetParser) (n : Nat) : (p.checkSize n).buffer = p.buffer := by
  unfold checkSize
  split <;> rfl

theorem removePrefix_took (p : NetParser) (n : Nat) : Took n p (p.removePrefix n) := by
  have hno := checkSize_noError (p := p) (n := n)
  have hbuf := checkSize_buffer p n
  unfold removePrefix
  dsimp only
  split
  · rename_i he
    exact ⟨hno, fun h => absurd h he⟩
  · exact ⟨hno, fun _ => congrArg (List.drop n) hbuf⟩

/-- An integer leaves the parser that is left without its bytes. -/
theorem parseInt_snd (p : NetParser) (len : Nat) : (p.parseInt len).2 = p.removePrefix len := by
  unfold parseInt removePrefix
  dsimp only
  split <;> rfl

theorem parseInt_took (p : NetParser) (len : Nat) : Took len p (p.parseInt len).2 := by
  rw [parseInt_snd]
  exact removePrefix_took p len

/-- As long as no more bytes come than the type has, the shift drops nothing. -/
theorem parse_loop_eq {len : Nat} (bs : List UInt8) : ∀ acc k, acc < 2 ^ (8 * k) →
    k + bs.length ≤ len →
    bs.foldl (fun ret b => (ret <<< 8) % 2 ^ (8 * len) + b.toNat) acc =
      bs.foldl (fun ret b => ret * 2 ^ 8 + b.toNat) acc := by
  induction bs with
  | nil => exact fun _ _ _ _ => rfl
  | cons b bs ih =>
    intro acc k hacc hlen
    rw [List.length_cons] at hlen
    have hpow : 2 ^ (8 * (k + 1)) = 2 ^ (8 * k) * 2 ^ 8 := by ring
    have hle : 2 ^ (8 * (k + 1)) ≤ 2 ^ (8 * len) := Nat.pow_le_pow_right (by decide) (by omega)
    have hb := b.toNat_lt
    rw [List.foldl_cons, List.foldl_cons, Nat.shiftLeft_eq, Nat.mod_eq_of_lt (by omega)]
    exact ih _ (k + 1) (by omega) (by omega)

/-- **An integer is read in network byte order.** -/
theorem parseInt_value (h : (p.parseInt n).2.error = .noError) :
    (p.parseInt n).1 = ofBytes (p.buffer.take n) := by
  have hno := ((parseInt_took p n).noError.mp h)
  have hcheck : (p.checkSize n).error = .noError := checkSize_noError.mpr hno
  unfold parseInt
  rw [if_neg (not_not.mpr hcheck), checkSize_buffer]
  exact parse_loop_eq _ 0 0 (by decide) (by rw [List.length_take]; omega)

/-- The integer at `off`, once `off` bytes are taken. -/
theorem Took.value {p₀ : NetParser} {off len : Nat} (h : Took off p₀ p)
    (hok : p₀.error = .noError) (hlen : off + len ≤ p₀.buffer.length) :
    (p.parseInt len).1 = field p₀.buffer off len := by
  have hp : p.error = .noError := h.noError.mpr ⟨hok, by omega⟩
  have hbuf : p.buffer = p₀.buffer.drop off := h.buffer hp
  have hok' : (p.parseInt len).2.error = .noError :=
    (parseInt_took p len).noError.mpr ⟨hp, by rw [hbuf, List.length_drop]; omega⟩
  rw [parseInt_value hok', hbuf, field]

variable {p₀ : NetParser} {off : Nat}

theorem u32_took (h : Took off p₀ p) : Took (off + 4) p₀ p.u32.2 := h.trans (parseInt_took p 4)

theorem u16_took (h : Took off p₀ p) : Took (off + 2) p₀ p.u16.2 := h.trans (parseInt_took p 2)

theorem u8_took (h : Took off p₀ p) : Took (off + 1) p₀ p.u8.2 := h.trans (parseInt_took p 1)

theorem u32_toNat (h : Took off p₀ p) (hok : p₀.error = .noError)
    (hlen : off + 4 ≤ p₀.buffer.length) : p.u32.1.toNat = field p₀.buffer off 4 := by
  rw [u32, h.value hok hlen, UInt32.toNat_ofNat', Nat.mod_eq_of_lt (field_lt _ off 4)]

theorem u16_toNat (h : Took off p₀ p) (hok : p₀.error = .noError)
    (hlen : off + 2 ≤ p₀.buffer.length) : p.u16.1.toNat = field p₀.buffer off 2 := by
  rw [u16, h.value hok hlen, UInt16.toNat_ofNat', Nat.mod_eq_of_lt (field_lt _ off 2)]

theorem u8_toNat (h : Took off p₀ p) (hok : p₀.error = .noError)
    (hlen : off + 1 ≤ p₀.buffer.length) : p.u8.1.toNat = field p₀.buffer off 1 := by
  rw [u8, h.value hok hlen, UInt8.toNat_ofNat', Nat.mod_eq_of_lt (field_lt _ off 1)]

/-- Past the end of the data an integer is 0. -/
theorem parseInt_of_error (h : (p.parseInt n).2.error ≠ .noError) : (p.parseInt n).1 = 0 := by
  have hcheck : (p.checkSize n).error ≠ .noError := by
    intro hok
    exact h ((parseInt_took p n).noError.mpr (checkSize_noError.mp hok))
  unfold parseInt
  rw [if_pos hcheck]

/-- A byte of the data, or 0 past its end. -/
theorem u8_toNat_total (h : Took off p₀ p) (hok : p₀.error = .noError) :
    p.u8.1.toNat = field p₀.buffer off 1 := by
  by_cases hlen : off + 1 ≤ p₀.buffer.length
  · exact u8_toNat h hok hlen
  · have herror : (p.parseInt 1).2.error ≠ .noError := fun hno =>
      hlen ((u8_took h).noError.mp hno).2
    rw [u8, parseInt_of_error herror, field, List.drop_eq_nil_of_le (by omega)]
    rfl

/-- `p'` has the error of `p`, or there were too few bytes. -/
def Sticky (p p' : NetParser) : Prop := p'.error = p.error ∨ p'.error = .packetTooShort

theorem Sticky.trans (h : Sticky p p') (h' : Sticky p' p'') : Sticky p p'' := by
  rcases h' with heq | hshort
  · rw [Sticky, heq]
    exact h
  · exact Or.inr hshort

theorem removePrefix_sticky (p : NetParser) (n : Nat) : Sticky p (p.removePrefix n) := by
  unfold removePrefix checkSize
  dsimp only
  split
  · exact Or.inr (by simp)
  · split
    · exact Or.inl rfl
    · exact Or.inl rfl

theorem parseInt_sticky (p : NetParser) (len : Nat) : Sticky p (p.parseInt len).2 := by
  rw [parseInt_snd]
  exact removePrefix_sticky p len

theorem u32_sticky (h : Sticky p₀ p) : Sticky p₀ p.u32.2 := h.trans (parseInt_sticky p 4)

theorem u16_sticky (h : Sticky p₀ p) : Sticky p₀ p.u16.2 := h.trans (parseInt_sticky p 2)

theorem u8_sticky (h : Sticky p₀ p) : Sticky p₀ p.u8.2 := h.trans (parseInt_sticky p 1)

/-! ## With every access checked

The same functions, but with `none` for the exception that `_buffer.at` and `_buffer.remove_prefix`
throw when they are asked for more than there is.  What uses a parser is written once for both
(`Access`). -/

def parseIntChecked (p : NetParser) (len : Nat) : Option (Nat × NetParser) :=
  let p := p.checkSize len
  if p.error ≠ .noError then some (0, p)
  else do
    let ret ← (List.range len).foldlM
      (fun ret i => p.buffer[i]?.map fun b => (ret <<< 8) % 2 ^ (8 * len) + b.toNat) 0
    if p.buffer.length < len then none else some (ret, { p with buffer := p.buffer.drop len })

def removePrefixChecked (p : NetParser) (n : Nat) : Option NetParser :=
  let p := p.checkSize n
  if p.error ≠ .noError then some p
  else if p.buffer.length < n then none else some { p with buffer := p.buffer.drop n }

/-- Reading the first `len` bytes one by one. -/
theorem foldlM_at (bs : List UInt8) (f : Nat → UInt8 → Nat) (init len : Nat)
    (hlen : len ≤ bs.length) :
    (List.range len).foldlM (fun ret i => bs[i]?.map (f ret)) init =
      some ((bs.take len).foldl f init) := by
  induction len with
  | zero => rfl
  | succ len ih =>
    have hget : bs[len]? = some (bs[len]) := List.getElem?_eq_getElem (by omega)
    rw [List.range_succ, List.foldlM_append, ih (by omega), List.take_add_one, List.foldl_append,
      hget]
    simp [hget]

theorem parseIntChecked_eq (p : NetParser) (len : Nat) :
    p.parseIntChecked len = some (p.parseInt len) := by
  unfold parseIntChecked parseInt
  dsimp only
  split
  · rfl
  · rename_i hok
    have hlen : len ≤ (p.checkSize len).buffer.length := by
      rw [checkSize_buffer]
      exact (checkSize_noError.mp (not_not.mp hok)).2
    rw [foldlM_at _ (fun ret b => (ret <<< 8) % 2 ^ (8 * len) + b.toNat) 0 len hlen]
    exact if_neg (Nat.not_lt.mpr hlen)

theorem removePrefixChecked_eq (p : NetParser) (n : Nat) :
    p.removePrefixChecked n = some (p.removePrefix n) := by
  unfold removePrefixChecked removePrefix
  dsimp only
  split
  · rfl
  · rename_i hok
    have hlen : n ≤ (p.checkSize n).buffer.length := by
      rw [checkSize_buffer]
      exact (checkSize_noError.mp (not_not.mp hok)).2
    exact if_neg (Nat.not_lt.mpr hlen)

/-- How a user of the parser gets at the data: the two functions that look at it, in a monad. -/
structure Access (m : Type → Type) where
  parseInt : NetParser → Nat → m (Nat × NetParser)
  removePrefix : NetParser → Nat → m NetParser

namespace Access

def unchecked : Access Id := ⟨NetParser.parseInt, NetParser.removePrefix⟩

def checked : Access Option := ⟨parseIntChecked, removePrefixChecked⟩

variable {m : Type → Type} [Monad m] (access : Access m)

def u32 (p : NetParser) : m (UInt32 × NetParser) := do
  let r ← access.parseInt p 4
  return (UInt32.ofNat r.1, r.2)

def u16 (p : NetParser) : m (UInt16 × NetParser) := do
  let r ← access.parseInt p 2
  return (UInt16.ofNat r.1, r.2)

def u8 (p : NetParser) : m (UInt8 × NetParser) := do
  let r ← access.parseInt p 1
  return (UInt8.ofNat r.1, r.2)

/-- The access never fails, and does what the functions do. -/
structure Faithful : Prop where
  parseInt : ∀ p len, access.parseInt p len = pure (p.parseInt len)
  removePrefix : ∀ p n, access.removePrefix p n = pure (p.removePrefix n)

theorem faithful_unchecked : unchecked.Faithful := ⟨fun _ _ => rfl, fun _ _ => rfl⟩

theorem faithful_checked : checked.Faithful := ⟨parseIntChecked_eq, removePrefixChecked_eq⟩

variable {access} [LawfulMonad m]

theorem Faithful.u32 (h : access.Faithful) (p : NetParser) : access.u32 p = pure p.u32 := by
  rw [Access.u32, h.parseInt, pure_bind]
  rfl

theorem Faithful.u16 (h : access.Faithful) (p : NetParser) : access.u16 p = pure p.u16 := by
  rw [Access.u16, h.parseInt, pure_bind]
  rfl

theorem Faithful.u8 (h : access.Faithful) (p : NetParser) : access.u8 p = pure p.u8 := by
  rw [Access.u8, h.parseInt, pure_bind]
  rfl

end Access

end NetParser

namespace NetUnparser

/-- `_unparse_int` for an unsigned type of `len` bytes. -/
def unparseInt (s : List UInt8) (len val : Nat) : List UInt8 :=
  (List.range len).foldl
    (fun s i => s ++ [UInt8.ofNat ((val >>> ((len - i - 1) * 8)) &&& 0xff)]) s

def u32 (s : List UInt8) (val : UInt32) : List UInt8 := unparseInt s 4 val.toNat

def u16 (s : List UInt8) (val : UInt16) : List UInt8 := unparseInt s 2 val.toNat

def u8 (s : List UInt8) (val : UInt8) : List UInt8 := unparseInt s 1 val.toNat

theorem foldl_push (f : Nat → UInt8) (is : List Nat) :
    ∀ s : List UInt8, is.foldl (fun s i => s ++ [f i]) s = s ++ is.map f := by
  induction is with
  | nil => simp
  | cons i is ih =>
    intro s
    rw [List.foldl_cons, ih, List.map_cons, List.append_assoc, List.singleton_append]

theorem ofNat_and_byte (x : Nat) : UInt8.ofNat (x &&& 0xff) = UInt8.ofNat x := by
  refine UInt8.toNat_inj.mp ?_
  rw [UInt8.toNat_ofNat', UInt8.toNat_ofNat',
    show x &&& 0xff = x % 2 ^ 8 from Nat.and_two_pow_sub_one_eq_mod x 8, Nat.mod_mod]

/-- **An integer is written in network byte order.** -/
theorem unparseInt_eq (s : List UInt8) (len val : Nat) :
    unparseInt s len val = s ++ toBytes len val := by
  rw [unparseInt, foldl_push]
  congr 1
  induction len with
  | zero => rfl
  | succ len ih =>
    -- the first byte is the highest one; the others are those of a type one byte shorter
    rw [List.range_succ_eq_map, List.map_cons, List.map_map, toBytes, ← ih, ofNat_and_byte,
      show (len + 1 - 0 - 1) * 8 = 8 * len by omega]
    congr 1
    refine List.map_congr_left fun i _ => ?_
    rw [Function.comp_apply, show len + 1 - i.succ - 1 = len - i - 1 by omega]

end NetUnparser

end Sponge
