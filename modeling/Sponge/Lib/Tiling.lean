import Mathlib.Algebra.BigOperators.Group.List.Basic
import Mathlib.Algebra.Ring.Nat
import Mathlib.Tactic.Common

/-!
# Consecutive intervals

`Tiles At len a xs b`: the items of `xs`, front to back, occupy non-empty consecutive intervals
that tile `[a, b)` exactly.  `len x` is the length of the interval of `x`, and `At s x` says what
it means for `x` to be placed at `s`.  The items of a queue that is extended at the back and
consumed at the front always tile such an interval.
-/

namespace Tiling

variable {α : Type*} {At At' : Nat → α → Prop} {len : α → Nat}

def Tiles (At : Nat → α → Prop) (len : α → Nat) : Nat → List α → Nat → Prop
  | a, [], b => a = b
  | a, x :: xs, b => At a x ∧ 0 < len x ∧ Tiles At len (a + len x) xs b

theorem tiles_nil {a b : Nat} : Tiles At len a [] b ↔ a = b := Iff.rfl

theorem tiles_append {a b : Nat} {xs ys : List α} :
    Tiles At len a (xs ++ ys) b ↔ ∃ m, Tiles At len a xs m ∧ Tiles At len m ys b := by
  induction xs generalizing a with
  | nil => simp [Tiles]
  | cons x xs ih =>
    simp only [List.cons_append, Tiles, ih]
    constructor
    · rintro ⟨h, h0, m, hm, hm'⟩
      exact ⟨m, ⟨h, h0, hm⟩, hm'⟩
    · rintro ⟨m, ⟨h, h0, hm⟩, hm'⟩
      exact ⟨h, h0, m, hm, hm'⟩

theorem tiles_concat {a b : Nat} {xs : List α} {x : α} (h : Tiles At len a xs b) (hx : At b x)
    (h0 : 0 < len x) : Tiles At len a (xs ++ [x]) (b + len x) :=
  tiles_append.mpr ⟨b, h, hx, h0, rfl⟩

/-- The right end is the left end plus the lengths. -/
theorem tiles_sum {a b : Nat} {xs : List α} (h : Tiles At len a xs b) :
    b = a + (xs.map len).sum := by
  induction xs generalizing a with
  | nil => simpa [Tiles] using h.symm
  | cons x xs ih =>
    have := ih h.2.2
    simp only [List.map_cons, List.sum_cons]
    omega

theorem tiles_le {a b : Nat} {xs : List α} (h : Tiles At len a xs b) : a ≤ b := by
  rw [tiles_sum h]
  exact Nat.le_add_right _ _

/-- If no item reaches past `c`, neither does the interval. -/
theorem tiles_end_le {a b c : Nat} {xs : List α} (h : Tiles At len a xs b) (ha : a ≤ c)
    (hAt : ∀ s x, At s x → s + len x ≤ c) : b ≤ c := by
  induction xs generalizing a with
  | nil => exact (tiles_nil.mp h) ▸ ha
  | cons x xs ih => exact ih h.2.2 (hAt a x h.1)

theorem tiles_eq_nil_iff {a b : Nat} {xs : List α} (h : Tiles At len a xs b) :
    xs = [] ↔ a = b := by
  cases xs with
  | nil => exact iff_of_true rfl h
  | cons x xs =>
    have hpos := h.2.1
    have hle := tiles_le h.2.2
    exact iff_of_false (List.cons_ne_nil x xs) (by omega)

/-- The items with the places they have when the first one is placed at `a`. -/
def positions (len : α → Nat) : Nat → List α → List (Nat × α)
  | _, [] => []
  | a, x :: xs => (a, x) :: positions len (a + len x) xs

theorem positions_map_snd (xs : List α) : ∀ a, (positions len a xs).map Prod.snd = xs := by
  induction xs with
  | nil => exact fun _ => rfl
  | cons x xs ih =>
    intro a
    rw [positions, List.map_cons, ih]

theorem positions_map {g : α → α} (hg : ∀ x, len (g x) = len x) (xs : List α) :
    ∀ a, positions len a (xs.map g) = (positions len a xs).map fun x => (x.1, g x.2) := by
  induction xs with
  | nil => exact fun _ => rfl
  | cons x xs ih =>
    intro a
    rw [List.map_cons, positions, ih, hg, positions, List.map_cons]

theorem positions_append (xs ys : List α) : ∀ a, positions len a (xs ++ ys) =
    positions len a xs ++ positions len (a + (xs.map len).sum) ys := by
  induction xs with
  | nil => exact fun _ => rfl
  | cons x xs ih =>
    intro a
    rw [List.cons_append, positions, ih, positions, List.cons_append, List.map_cons, List.sum_cons,
      Nat.add_assoc]

/-- No item ends before the first one does. -/
theorem positions_end_le {a : Nat} {x : α} {xs : List α} {y : Nat × α}
    (hy : y ∈ positions len a (x :: xs)) : a + len x ≤ y.1 + len y.2 := by
  induction xs generalizing a x with
  | nil =>
    obtain rfl := List.mem_singleton.mp hy
    exact Nat.le_refl _
  | cons z xs ih =>
    rcases List.mem_cons.mp hy with rfl | hy
    · exact Nat.le_refl _
    · exact Nat.le_trans (Nat.le_add_right _ _) (ih hy)

/-- Every place is right, and inside the interval. -/
theorem tiles_positions {a b : Nat} {xs : List α} (h : Tiles At len a xs b) {p : Nat} {x : α}
    (hx : (p, x) ∈ positions len a xs) : a ≤ p ∧ p + len x ≤ b ∧ At p x := by
  induction xs generalizing a with
  | nil => cases hx
  | cons y ys ih =>
    rcases List.mem_cons.mp hx with heq | hx
    · obtain ⟨rfl, rfl⟩ := Prod.mk.inj heq
      exact ⟨Nat.le_refl _, tiles_le h.2.2, h.1⟩
    · obtain ⟨hp, hp', hat⟩ := ih h.2.2 hx
      exact ⟨by omega, hp', hat⟩

/-- The last item ends where the interval does. -/
theorem tiles_last {a b : Nat} {xs : List α} (h : Tiles At len a xs b) (hab : a ≠ b) :
    ∃ x ∈ positions len a xs, x.1 + len x.2 = b := by
  induction xs generalizing a with
  | nil => exact absurd h hab
  | cons x xs ih =>
    by_cases hlast : a + len x = b
    · exact ⟨(a, x), List.mem_cons_self, hlast⟩
    · obtain ⟨y, hy, hend⟩ := ih h.2.2 hlast
      exact ⟨y, List.mem_cons_of_mem _ hy, hend⟩

/-- Every item has a place, inside the interval. -/
theorem tiles_mem {a b : Nat} {xs : List α} (h : Tiles At len a xs b) {x : α} (hx : x ∈ xs) :
    ∃ s, a ≤ s ∧ s + len x ≤ b ∧ At s x := by
  induction xs generalizing a with
  | nil => cases hx
  | cons y ys ih =>
    rcases List.mem_cons.mp hx with rfl | hx
    · exact ⟨a, Nat.le_refl a, tiles_le h.2.2, h.1⟩
    · obtain ⟨s, hs, hs', hat⟩ := ih h.2.2 hx
      exact ⟨s, by omega, hs', hat⟩

theorem tiles_imp {a b : Nat} {xs : List α} (h : Tiles At len a xs b)
    (himp : ∀ s x, x ∈ xs → a ≤ s → s + len x ≤ b → At s x → At' s x) :
    Tiles At' len a xs b := by
  induction xs generalizing a with
  | nil => exact h
  | cons x xs ih =>
    have hle := tiles_le h.2.2
    refine ⟨himp a x (by simp) (Nat.le_refl a) hle h.1, h.2.1, ih h.2.2 ?_⟩
    intro s y hy hs hsb hat
    exact himp s y (by simp [hy]) (by omega) hsb hat

/-- The same items from another place on, if each of them fits there too. -/
theorem tiles_shift {a b a' : Nat} {xs : List α} (h : Tiles At len a xs b)
    (himp : ∀ k x, At (a + k) x → At' (a' + k) x) :
    Tiles At' len a' xs (a' + (xs.map len).sum) := by
  induction xs generalizing a a' with
  | nil => exact tiles_nil.mpr (Nat.add_zero a').symm
  | cons x xs ih =>
    refine ⟨himp 0 x h.1, h.2.1, ?_⟩
    rw [List.map_cons, List.sum_cons, ← Nat.add_assoc]
    refine ih h.2.2 fun k y hy => ?_
    rw [Nat.add_assoc] at hy ⊢
    exact himp (len x + k) y hy

/-! ## Consuming a queue -/

/-- The items that do not end at or before `c`, and the place where they begin: what is left of a
queue that begins at `a` and is consumed from the front. -/
def cut (len : α → Nat) (c : Nat) : Nat → List α → Nat × List α
  | a, [] => (a, [])
  | a, x :: xs => if a + len x ≤ c then cut len c (a + len x) xs else (a, x :: xs)

theorem tiles_cut {a b : Nat} {xs : List α} (h : Tiles At len a xs b) (c : Nat) :
    Tiles At len (cut len c a xs).1 (cut len c a xs).2 b := by
  induction xs generalizing a with
  | nil => exact h
  | cons x xs ih =>
    unfold cut
    split
    · exact ih h.2.2
    · exact h

theorem le_cut (len : α → Nat) (c a : Nat) (xs : List α) : a ≤ (cut len c a xs).1 := by
  induction xs generalizing a with
  | nil => exact Nat.le_refl a
  | cons x xs ih =>
    unfold cut
    split
    · exact Nat.le_trans (Nat.le_add_right _ _) (ih _)
    · exact Nat.le_refl a

theorem cut_le (len : α → Nat) {a c : Nat} (hac : a ≤ c) (xs : List α) :
    (cut len c a xs).1 ≤ c := by
  induction xs generalizing a with
  | nil => exact hac
  | cons x xs ih =>
    unfold cut
    split
    · rename_i hle
      exact ih hle
    · exact hac

/-- The first item that is left ends behind `c`. -/
theorem lt_of_cut {a c : Nat} {x : α} {xs ys : List α} (h : (cut len c a xs).2 = x :: ys) :
    c < (cut len c a xs).1 + len x := by
  induction xs generalizing a with
  | nil => cases h
  | cons y xs ih =>
    unfold cut at h ⊢
    split at h
    · rename_i hle
      rw [if_pos hle]
      exact ih h
    · rename_i hle
      obtain ⟨rfl, -⟩ := List.cons.inj h
      rw [if_neg hle]
      exact Nat.lt_of_not_le hle

/-- Consuming up to the end of an item stops there. -/
theorem cut_of_end {a : Nat} {xs : List α} {x : Nat × α} (hx : x ∈ positions len a xs) :
    (cut len (x.1 + len x.2) a xs).1 = x.1 + len x.2 := by
  induction xs generalizing a with
  | nil => cases hx
  | cons y xs ih =>
    rw [cut, if_pos (positions_end_le hx)]
    rcases List.mem_cons.mp hx with rfl | hx
    · exact Nat.le_antisymm (cut_le len (Nat.le_refl _) xs) (le_cut _ _ _ _)
    · exact ih hx

/-- Consuming less afterwards takes nothing more away. -/
theorem cut_cut {c c' : Nat} (hc : c' ≤ c) (a : Nat) (xs : List α) :
    cut len c' (cut len c a xs).1 (cut len c a xs).2 = cut len c a xs := by
  obtain ⟨m, rest, hm⟩ : ∃ m rest, cut len c a xs = (m, rest) := ⟨_, _, rfl⟩
  rw [hm]
  cases rest with
  | nil => rfl
  | cons x rest =>
    have hlt := lt_of_cut (congrArg Prod.snd hm)
    rw [hm] at hlt
    exact if_neg (by omega)

/-- What is left are the items that end behind `c`, at the places they had. -/
theorem positions_cut (c : Nat) (xs : List α) : ∀ a,
    positions len (cut len c a xs).1 (cut len c a xs).2 =
      (positions len a xs).filter fun x => c < x.1 + len x.2 := by
  induction xs with
  | nil => exact fun _ => rfl
  | cons x xs ih =>
    intro a
    unfold cut
    split
    · rename_i hle
      rw [ih, positions, List.filter_cons_of_neg (by simpa using hle)]
    · rename_i hle
      -- every later item ends behind the first one
      refine (List.filter_eq_self.mpr fun y hy => ?_).symm
      have hend := positions_end_le hy
      rw [decide_eq_true_eq]
      omega

/-- The queue is consumed past `c'` if one of the items that are taken away ends behind it. -/
theorem lt_cut_iff {a c c' : Nat} (hac : a ≤ c') (xs : List α) :
    c' < (cut len c a xs).1 ↔
      ∃ x ∈ positions len a xs, c' < x.1 + len x.2 ∧ x.1 + len x.2 ≤ c := by
  induction xs generalizing a with
  | nil => exact iff_of_false (Nat.not_lt.mpr hac) (by simp [positions])
  | cons x xs ih =>
    unfold cut
    split
    · rename_i hle
      rcases Nat.lt_or_ge c' (a + len x) with hlt | hge
      · -- the first item is such an item
        refine iff_of_true (Nat.lt_of_lt_of_le hlt (le_cut _ _ _ _)) ⟨(a, x), ?_, hlt, hle⟩
        exact List.mem_cons_self
      · rw [ih hge, positions, List.exists_mem_cons_iff]
        exact (or_iff_right fun h => Nat.not_lt.mpr hge h.1).symm
    · rename_i hle
      refine iff_of_false (Nat.not_lt.mpr hac) ?_
      rintro ⟨y, hy, -, hyc⟩
      exact hle (Nat.le_trans (positions_end_le hy) hyc)

end Tiling
