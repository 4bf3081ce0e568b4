import Mathlib.Algebra.Ring.Nat
import Mathlib.Data.List.Basic
import Mathlib.Tactic.Common
import Mathlib.Tactic.Ring

/-!
# Numbers in network byte order

`ofBytes` reads a byte string as a number, most significant byte first; `toBytes len` writes the
lowest `len` bytes of a number.  They are inverse to each other on byte strings of length `len` and
numbers below `2 ^ (8 * len)`.  A record is a series of such numbers: `layout` writes one and
`fields` reads one, and they are inverse to each other as well.
-/

namespace BigEndian

def ofBytes (bs : List UInt8) : Nat := bs.foldl (fun acc b => acc * 2 ^ 8 + b.toNat) 0

def toBytes : Nat → Nat → List UInt8
  | 0, _ => []
  | len + 1, n => UInt8.ofNat (n >>> (8 * len)) :: toBytes len n

@[simp] theorem toBytes_length (len n : Nat) : (toBytes len n).length = len := by
  induction len with
  | zero => rfl
  | succ len ih => rw [toBytes, List.length_cons, ih]

theorem foldl_eq (bs : List UInt8) : ∀ acc,
    bs.foldl (fun acc b => acc * 2 ^ 8 + b.toNat) acc = acc * 2 ^ (8 * bs.length) + ofBytes bs := by
  induction bs with
  | nil => simp [ofBytes]
  | cons b bs ih =>
    intro acc
    have hcons : ofBytes (b :: bs) = b.toNat * 2 ^ (8 * bs.length) + ofBytes bs := by
      rw [ofBytes, List.foldl_cons, ih]
      simp
    rw [List.foldl_cons, ih, hcons, List.length_cons]
    ring

theorem ofBytes_cons (b : UInt8) (bs : List UInt8) :
    ofBytes (b :: bs) = b.toNat * 2 ^ (8 * bs.length) + ofBytes bs := by
  rw [ofBytes, List.foldl_cons, foldl_eq]
  simp

theorem ofBytes_lt (bs : List UInt8) : ofBytes bs < 2 ^ (8 * bs.length) := by
  induction bs with
  | nil => decide
  | cons b bs ih =>
    have hb := b.toNat_lt
    rw [ofBytes_cons, List.length_cons]
    calc b.toNat * 2 ^ (8 * bs.length) + ofBytes bs
        < (b.toNat + 1) * 2 ^ (8 * bs.length) := by
          rw [Nat.add_mul, Nat.one_mul]
          omega
      _ ≤ 2 ^ 8 * 2 ^ (8 * bs.length) := Nat.mul_le_mul_right _ (by omega)
      _ = 2 ^ (8 * (bs.length + 1)) := by ring

/-- Reading what was written. -/
theorem ofBytes_toBytes (len n : Nat) : ofBytes (toBytes len n) = n % 2 ^ (8 * len) := by
  induction len with
  | zero => simp [toBytes, ofBytes, Nat.mod_one]
  | succ len ih =>
    have hpow : 2 ^ (8 * (len + 1)) = 2 ^ (8 * len) * 2 ^ 8 := by ring
    rw [toBytes, ofBytes_cons, ih, toBytes_length, UInt8.toNat_ofNat', Nat.shiftRight_eq_div_pow,
      hpow, Nat.mod_mul]
    ring

/-- A byte string is determined by its length and its number. -/
theorem ofBytes_injective {bs cs : List UInt8} (hlen : bs.length = cs.length)
    (h : ofBytes bs = ofBytes cs) : bs = cs := by
  induction bs generalizing cs with
  | nil => exact (List.length_eq_zero_iff.mp hlen.symm).symm
  | cons b bs ih =>
    obtain ⟨c, cs, rfl⟩ := List.exists_cons_of_length_eq_add_one hlen.symm
    have hlen' : bs.length = cs.length := Nat.succ.inj hlen
    rw [ofBytes_cons, ofBytes_cons, ← hlen'] at h
    have hb := ofBytes_lt bs
    have hc := ofBytes_lt cs
    rw [← hlen'] at hc
    have hpos : 0 < 2 ^ (8 * bs.length) := Nat.two_pow_pos _
    have hdiv := congrArg (· / 2 ^ (8 * bs.length)) h
    have hmod := congrArg (· % 2 ^ (8 * bs.length)) h
    simp only [Nat.mul_comm _ (2 ^ (8 * bs.length)), Nat.mul_add_div hpos,
      Nat.div_eq_of_lt hb, Nat.div_eq_of_lt hc, Nat.mul_add_mod, Nat.mod_eq_of_lt hb,
      Nat.mod_eq_of_lt hc, Nat.add_zero] at hdiv hmod
    rw [UInt8.toNat_inj.mp hdiv, ih hlen' hmod]

/-- Writing what was read. -/
theorem toBytes_ofBytes (bs : List UInt8) : toBytes bs.length (ofBytes bs) = bs := by
  refine ofBytes_injective (toBytes_length _ _) ?_
  rw [ofBytes_toBytes, Nat.mod_eq_of_lt (ofBytes_lt bs)]

/-! ## Records -/

/-- Numbers one after the other, each with the number of bytes it takes. -/
def layout (fs : List (Nat × Nat)) : List UInt8 := fs.flatMap fun f => toBytes f.1 f.2

theorem layout_length (fs : List (Nat × Nat)) : (layout fs).length = (fs.map Prod.fst).sum := by
  simp [layout, List.length_flatMap]

/-- The `len` bytes of `b` from byte `off` on, as a number. -/
def field (b : List UInt8) (off len : Nat) : Nat := ofBytes ((b.drop off).take len)

theorem field_lt (b : List UInt8) (off len : Nat) : field b off len < 2 ^ (8 * len) := by
  refine (ofBytes_lt _).trans_le (Nat.pow_le_pow_right (by decide) ?_)
  rw [List.length_take]
  omega

theorem toBytes_field {b : List UInt8} {off len : Nat} (h : off + len ≤ b.length) :
    toBytes len (field b off len) = (b.drop off).take len := by
  have hlen : ((b.drop off).take len).length = len := by
    rw [List.length_take, List.length_drop]
    omega
  have hround := toBytes_ofBytes ((b.drop off).take len)
  rwa [hlen] at hround

/-- The numbers of a record that begins at byte `off` of `b`, given how many bytes each takes. -/
def fields (b : List UInt8) : Nat → List Nat → List (Nat × Nat)
  | _, [] => []
  | off, len :: lens => (len, field b off len) :: fields b (off + len) lens

/-- Reading a record that was written. -/
theorem fields_layout (fs : List (Nat × Nat)) (rest : List UInt8) : ∀ front : List UInt8,
    fields (front ++ (layout fs ++ rest)) front.length (fs.map Prod.fst) =
      fs.map fun f => (f.1, f.2 % 2 ^ (8 * f.1)) := by
  induction fs with
  | nil => exact fun _ => rfl
  | cons f fs ih =>
    intro front
    have hsplit : layout (f :: fs) ++ rest = toBytes f.1 f.2 ++ (layout fs ++ rest) := by
      simp [layout]
    have hfirst : field (front ++ (layout (f :: fs) ++ rest)) front.length f.1 =
        f.2 % 2 ^ (8 * f.1) := by
      rw [field, List.drop_left, hsplit, List.take_left' (toBytes_length f.1 f.2), ofBytes_toBytes]
    have hrest := ih (front ++ toBytes f.1 f.2)
    rw [List.append_assoc, ← hsplit, List.length_append, toBytes_length] at hrest
    rw [List.map_cons, fields, hfirst, hrest, List.map_cons]

/-- Writing a record that was read. -/
theorem layout_fields (b : List UInt8) (lens : List Nat) : ∀ off, off + lens.sum ≤ b.length →
    layout (fields b off lens) = (b.drop off).take lens.sum := by
  induction lens with
  | nil => simp [fields, layout]
  | cons len lens ih =>
    intro off h
    rw [List.sum_cons] at h
    have hcons : layout (fields b off (len :: lens)) =
        toBytes len (field b off len) ++ layout (fields b (off + len) lens) := by
      simp [fields, layout]
    rw [hcons, toBytes_field (by omega), ih _ (by omega), List.sum_cons, List.take_add,
      List.drop_drop]

end BigEndian
