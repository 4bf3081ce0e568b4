import Mathlib.Data.Set.Card
import Mathlib.Order.Bounds.Basic
import Mathlib.Tactic.Common

/-!
# Streams with holes

A stream that is only partly known is a function `f : Nat → Option β`: what is known at each
position.  `offer` fills holes and never overwrites, `Agrees f T` says that everything known is
right for the byte string `T`, and `Shows` relates a stream to a window of cells that slides over
it, a pair of equally long lists (contents and a bitmap of the taken cells).
-/

namespace PartialStream

variable {β : Type*}

/-! ## Filling holes -/

/-- Offer `data` for the positions from `index` on.  Positions in `[lo, hi)` at which nothing is
known yet take it. -/
def offer (f : Nat → Option β) (lo hi index : Nat) (data : List β) : Nat → Option β :=
  fun i => (f i).or (if lo ≤ i ∧ i < hi ∧ index ≤ i then data[i - index]? else none)

variable {f : Nat → Option β} {lo hi index : Nat} {data : List β}

theorem offer_of_some {i : Nat} {c : β} (h : f i = some c) :
    offer f lo hi index data i = some c := by
  simp [offer, h]

theorem offer_of_none {i : Nat} (h : f i = none) :
    offer f lo hi index data i =
      if lo ≤ i ∧ i < hi ∧ index ≤ i then data[i - index]? else none := by
  simp [offer, h]

/-- What is offered but not already known lies in all the intervals. -/
theorem offer_some {i : Nat} {c : β} (h : offer f lo hi index data i = some c) :
    f i = some c ∨ f i = none ∧ lo ≤ i ∧ i < hi ∧ index ≤ i ∧ data[i - index]? = some c := by
  cases hf : f i with
  | some c' =>
    rw [offer_of_some hf] at h
    exact Or.inl h
  | none =>
    rw [offer_of_none hf] at h
    split at h
    · rename_i hr
      exact Or.inr ⟨rfl, hr.1, hr.2.1, hr.2.2, h⟩
    · cases h

/-- Nothing changes when no offered position is open. -/
theorem offer_eq_self (h : ∀ i, lo ≤ i → i < hi → index ≤ i → i < index + data.length →
    (f i).isSome) : offer f lo hi index data = f := by
  funext i
  cases hf : f i with
  | some c => exact offer_of_some hf
  | none =>
    rw [offer_of_none hf]
    split
    · rename_i hr
      by_contra hne
      have hlt : i - index < data.length := by
        by_contra hge
        exact hne (List.getElem?_eq_none (by omega))
      have := h i hr.1 hr.2.1 hr.2.2 (by omega)
      simp [hf] at this
    · rfl

theorem offer_none_iff {i : Nat} :
    offer f lo hi index data i = none ↔
      f i = none ∧ ¬ (lo ≤ i ∧ i < hi ∧ index ≤ i ∧ i < index + data.length) := by
  cases hf : f i with
  | some c => simp [offer_of_some hf]
  | none =>
    rw [offer_of_none hf]
    split
    · rename_i hr
      simp only [List.getElem?_eq_none_iff, true_and]
      omega
    · rename_i hr
      simp only [true_and, true_iff]
      exact fun h => hr ⟨h.1, h.2.1, h.2.2.1⟩

/-- Only the positions that `data` has bytes for matter. -/
theorem offer_congr {lo' hi' : Nat}
    (h : ∀ i, index ≤ i → i < index + data.length → (lo ≤ i ∧ i < hi ↔ lo' ≤ i ∧ i < hi')) :
    offer f lo hi index data = offer f lo' hi' index data := by
  funext i
  cases hf : f i with
  | some c => rw [offer_of_some hf, offer_of_some hf]
  | none =>
    rw [offer_of_none hf, offer_of_none hf]
    by_cases hi : index ≤ i ∧ i < index + data.length
    · have := h i hi.1 hi.2
      congr 1
      simp only [eq_iff_iff]
      tauto
    · by_cases hix : index ≤ i
      · rw [List.getElem?_eq_none (by omega)]
        simp
      · rw [if_neg (by tauto), if_neg (by tauto)]

theorem offer_of_le (h : hi ≤ lo) : offer f lo hi index data = f :=
  offer_eq_self (fun _ _ _ _ _ => by omega)

/-- A known position can be left out of the offer. -/
theorem offer_skip (h : (f lo).isSome) :
    offer f lo hi index data = offer f (lo + 1) hi index data := by
  funext i
  cases hf : f i with
  | some c => rw [offer_of_some hf, offer_of_some hf]
  | none =>
    have hne : i ≠ lo := by
      rintro rfl
      simp [hf] at h
    rw [offer_of_none hf, offer_of_none hf]
    congr 1
    simp only [eq_iff_iff]
    omega

/-- An open position takes its byte; the rest of the offer follows. -/
theorem offer_take {c : β} (hlt : lo < hi) (hix : index ≤ lo) (hc : data[lo - index]? = some c)
    (h : f lo = none) :
    offer (Function.update f lo (some c)) (lo + 1) hi index data = offer f lo hi index data := by
  funext i
  by_cases hi' : i = lo
  · subst hi'
    rw [offer_of_some (c := c) (by simp), offer_of_none h, if_pos ⟨Nat.le_refl _, hlt, hix⟩, hc]
  · simp only [offer, Function.update_of_ne hi']
    congr 2
    simp only [eq_iff_iff]
    omega

/-! ## Agreement with a byte string -/

/-- Everything known is what the string `T` has at that position. -/
def Agrees (f : Nat → Option β) (T : List β) : Prop := ∀ i c, f i = some c → T[i]? = some c

theorem Agrees.append {T : List β} (h : Agrees f T) (U : List β) : Agrees f (T ++ U) := by
  intro i c hc
  have hi := h i c hc
  obtain ⟨hlt, -⟩ := List.getElem?_eq_some_iff.mp hi
  rw [List.getElem?_append_left hlt]
  exact hi

/-- Offering a piece of `T` keeps the agreement with `T`. -/
theorem Agrees.offer {T : List β} (h : Agrees f T)
    (hd : data = (T.drop index).take data.length) : Agrees (offer f lo hi index data) T := by
  intro i c hc
  rcases offer_some hc with hc | ⟨-, -, -, hi, hc⟩
  · exact h i c hc
  · rw [hd, List.getElem?_take] at hc
    split at hc
    · rw [List.getElem?_drop] at hc
      rwa [show index + (i - index) = i by omega] at hc
    · cases hc

theorem Agrees.lt {T : List β} (h : Agrees f T) {i : Nat} {c : β} (hc : f i = some c) :
    i < T.length :=
  (List.getElem?_eq_some_iff.mp (h i c hc)).1

/-- Two streams that are right for `T` and know the same positions are the same. -/
theorem Agrees.ext {T : List β} {g : Nat → Option β} (hf : Agrees f T) (hg : Agrees g T)
    (h : ∀ i, (f i).isSome ↔ (g i).isSome) : f = g := by
  funext i
  cases hi : f i with
  | some c =>
    obtain ⟨d, hd⟩ := Option.isSome_iff_exists.mp ((h i).mp (by simp [hi]))
    have hc := hf i c hi
    rw [hg i d hd] at hc
    rw [hd, hc]
  | none =>
    cases hd : g i with
    | none => rfl
    | some d =>
      have := (h i).mpr (by simp [hd])
      simp [hi] at this

/-- A piece of a byte string is a piece of every longer one. -/
theorem piece_append {piece T : List β} {k : Nat} (h : piece = (T.drop k).take piece.length)
    (U : List β) : piece = ((T ++ U).drop k).take piece.length := by
  have hlen := congrArg List.length h
  rw [List.length_take, List.length_drop] at hlen
  rcases Nat.lt_or_ge T.length k with hk | hk
  · -- beyond the end of `T` only the empty piece is left
    have hnil : piece = [] := List.length_eq_zero_iff.mp (by omega)
    simp [hnil]
  · rw [List.drop_append_of_le_length hk, List.take_append_of_le_length]
    · exact h
    · rw [List.length_drop]
      omega

/-! ## A window of cells -/

/-- The cells `buffer`, `bitmap` show the stream `f` from position `w` on, and nothing is known
after the last cell.  Free cells hold `pad`. -/
structure Shows (f : Nat → Option β) (w : Nat) (pad : β) (buffer : List β)
    (bitmap : List Bool) : Prop where
  length_eq : buffer.length = bitmap.length
  bit : ∀ k < bitmap.length, bitmap[k]? = some (f (w + k)).isSome
  cell : ∀ k < bitmap.length, buffer[k]? = some ((f (w + k)).getD pad)
  beyond : ∀ i, w + bitmap.length ≤ i → f i = none

variable {w : Nat} {pad : β} {buffer : List β} {bitmap : List Bool}

theorem shows_replicate (n w : Nat) (pad : β) :
    Shows (fun _ => none) w pad (List.replicate n pad) (List.replicate n false) := by
  refine ⟨by simp, ?_, ?_, fun _ _ => rfl⟩
  · intro k hk
    rw [List.length_replicate] at hk
    simp [hk]
  · intro k hk
    rw [List.length_replicate] at hk
    simp [hk]

/-- The stream and the first position decide what the cells hold. -/
theorem Shows.unique {buffer' : List β} {bitmap' : List Bool} (h : Shows f w pad buffer bitmap)
    (h' : Shows f w pad buffer' bitmap') (hlen : bitmap.length = bitmap'.length) :
    buffer = buffer' ∧ bitmap = bitmap' := by
  have hl := h.length_eq
  have hl' := h'.length_eq
  constructor
  · apply List.ext_getElem?
    intro k
    rcases Nat.lt_or_ge k bitmap.length with hk | hk
    · rw [h.cell k hk, h'.cell k (by omega)]
    · rw [List.getElem?_eq_none (by omega), List.getElem?_eq_none (by omega)]
  · apply List.ext_getElem?
    intro k
    rcases Nat.lt_or_ge k bitmap.length with hk | hk
    · rw [h.bit k hk, h'.bit k (by omega)]
    · rw [List.getElem?_eq_none (by omega), List.getElem?_eq_none (by omega)]

/-- Taking a free cell. -/
theorem Shows.set {k : Nat} {c : β} (h : Shows f w pad buffer bitmap) (hk : k < bitmap.length) :
    Shows (Function.update f (w + k) (some c)) w pad (buffer.set k c) (bitmap.set k true) := by
  have hl := h.length_eq
  refine ⟨by simpa using hl, ?_, ?_, ?_⟩
  · intro j hj
    rw [List.length_set] at hj
    rw [List.getElem?_set]
    by_cases hjk : k = j
    · subst hjk
      simp [hk]
    · rw [if_neg hjk, Function.update_of_ne (by omega)]
      exact h.bit j hj
  · intro j hj
    rw [List.length_set] at hj
    rw [List.getElem?_set]
    by_cases hjk : k = j
    · subst hjk
      simp [hl, hk]
    · rw [if_neg hjk, Function.update_of_ne (by omega)]
      exact h.cell j hj
  · intro i hi
    rw [List.length_set] at hi
    rw [Function.update_of_ne (by omega)]
    exact h.beyond i hi

/-- Sliding the window over a taken cell: the stream is the same, one position further. -/
theorem Shows.slide {c : β} (h : Shows f w pad (c :: buffer) (true :: bitmap)) :
    f w = some c ∧ Shows f (w + 1) pad (buffer ++ [pad]) (bitmap ++ [false]) := by
  have hl : buffer.length = bitmap.length := by simpa using h.length_eq
  have hsome : (f w).isSome = true := by simpa using h.bit 0 (by simp)
  have hend : f (w + 1 + bitmap.length) = none :=
    h.beyond _ (by simp only [List.length_cons]; omega)
  refine ⟨?_, by simpa using hl, ?_, ?_, ?_⟩
  · obtain ⟨c', hc'⟩ := Option.isSome_iff_exists.mp hsome
    have hc := h.cell 0 (by simp)
    simp only [List.getElem?_cons_zero, Nat.add_zero, hc', Option.getD_some,
      Option.some.injEq] at hc
    rw [hc', hc]
  · intro k hk
    rw [List.length_append, List.length_singleton] at hk
    by_cases hkl : k < bitmap.length
    · have hb := h.bit (k + 1) (by simp only [List.length_cons]; omega)
      rw [List.getElem?_append_left hkl]
      simpa [Nat.add_assoc, Nat.add_comm 1 k] using hb
    · obtain rfl : k = bitmap.length := by omega
      simp [hend]
  · intro k hk
    rw [List.length_append, List.length_singleton] at hk
    by_cases hkl : k < bitmap.length
    · have hb := h.cell (k + 1) (by simp only [List.length_cons]; omega)
      rw [List.getElem?_append_left (by omega)]
      simpa [Nat.add_assoc, Nat.add_comm 1 k] using hb
    · obtain rfl : k = bitmap.length := by omega
      rw [← hl]
      simp [hl, hend]
  · intro i hi
    rw [List.length_append, List.length_singleton] at hi
    exact h.beyond i (by simp only [List.length_cons]; omega)

/-- The cell in front of the window decides what is known at its first position. -/
theorem Shows.front_none (h : Shows f w pad buffer (false :: bitmap)) : f w = none := by
  have hb := h.bit 0 (by simp)
  simpa using hb

theorem count_set_true {k : Nat} (hk : bitmap[k]? = some false) :
    (bitmap.set k true).count true = bitmap.count true + 1 := by
  obtain ⟨hlt, hv⟩ := List.getElem?_eq_some_iff.mp hk
  rw [List.count_set hlt]
  simp [hv]

/-- The taken cells are the known positions from `w` on. -/
theorem Shows.ncard_eq (h : Shows f w pad buffer bitmap) :
    {i | w ≤ i ∧ (f i).isSome}.ncard = bitmap.count true := by
  have himg : {i | w ≤ i ∧ (f i).isSome} =
      (fun k => w + k) '' {k | bitmap[k]? = some true} := by
    ext i
    simp only [Set.mem_ofPred_eq, Set.mem_image]
    constructor
    · rintro ⟨hi, hs⟩
      have hlt : i - w < bitmap.length := by
        by_contra hge
        rw [h.beyond i (by omega)] at hs
        simp at hs
      refine ⟨i - w, ?_, by omega⟩
      rw [h.bit _ hlt, show w + (i - w) = i by omega, hs]
    · rintro ⟨k, hk, rfl⟩
      obtain ⟨hlt, -⟩ := List.getElem?_eq_some_iff.mp hk
      rw [h.bit k hlt] at hk
      exact ⟨by omega, by simpa using hk⟩
  rw [himg, Set.ncard_image_of_injective _ (fun a b hab => by simpa using hab)]
  clear himg h
  induction bitmap with
  | nil => simp
  | cons b bitmap ih =>
    have hsplit : {k : Nat | (b :: bitmap)[k]? = some true} =
        (if b then {0} else ∅) ∪ Nat.succ '' {k : Nat | bitmap[k]? = some true} := by
      ext k
      cases k with
      | zero => cases b <;> simp
      | succ k => cases b <;> simp
    have hfin : {k : Nat | bitmap[k]? = some true}.Finite := by
      apply (Set.finite_lt_nat bitmap.length).subset
      intro k hk
      exact (List.getElem?_eq_some_iff.mp hk).1
    have hdisj : Disjoint (if b then {0} else ∅ : Set Nat)
        (Nat.succ '' {k : Nat | bitmap[k]? = some true}) := by
      rw [Set.disjoint_right]
      rintro _ ⟨k, -, rfl⟩
      cases b <;> simp
    rw [hsplit, Set.ncard_union_eq hdisj (by cases b <;> simp) (hfin.image _),
      Set.ncard_image_of_injective _ Nat.succ_injective, ih]
    cases b <;> simp [Nat.add_comm]

end PartialStream
