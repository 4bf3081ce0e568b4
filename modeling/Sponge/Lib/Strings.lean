import Mathlib.Tactic.Common

/-!
# Strings

Strings as lists: a buffer that is resized and overwritten from the front, lines that are put
together and split again, and values that are printed between labels.
-/

namespace Strings

/-! ## Buffers -/

section

variable {α : Type*}

/-- `s` with `n` elements: cut off, or filled up with `fill`. -/
def resize (fill : α) (s : List α) (n : Nat) : List α :=
  s.take n ++ List.replicate (n - s.length) fill

/-- The front of `buffer` is overwritten with the front of `s`. -/
def overwrite (buffer s : List α) : List α := s.take buffer.length ++ buffer.drop s.length

theorem resize_of_le {fill : α} {s : List α} {n : Nat} (h : s.length ≤ n) :
    resize fill s n = s ++ List.replicate (n - s.length) fill := by
  rw [resize, List.take_of_length_le h]

theorem length_resize (fill : α) (s : List α) (n : Nat) : (resize fill s n).length = n := by
  rw [resize, List.length_append, List.length_take, List.length_replicate]
  omega

/-- What fits into a buffer is found at its front. -/
theorem resize_overwrite {buffer s : List α} (fill : α) (h : s.length ≤ buffer.length) :
    resize fill (overwrite buffer s) s.length = s := by
  rw [resize, overwrite, List.take_of_length_le h, List.take_left, List.length_append,
    Nat.sub_eq_zero_of_le (Nat.le_add_right ..), List.replicate_zero, List.append_nil]

end

/-! ## Lines -/

/-- Lines as text. -/
def unlines (ls : List (List Char)) : List Char := ls.flatMap (· ++ ['\n'])

theorem unlines_concat (ls : List (List Char)) (l : List Char) :
    unlines (ls ++ [l]) = unlines ls ++ l ++ ['\n'] := by
  simp [unlines]

/-- Lines without line breaks are told apart. -/
theorem splitOn_unlines {ls : List (List Char)} (hls : ∀ l ∈ ls, ∀ c ∈ l, c ≠ '\n')
    (rest : List Char) : (unlines ls ++ rest).splitOn '\n' = ls ++ rest.splitOn '\n' := by
  induction ls with
  | nil => rfl
  | cons l ls ih =>
    have hl : ∀ c ∈ l, (c == '\n') = false := fun c hc =>
      beq_eq_false_iff_ne.mpr (hls l List.mem_cons_self c hc)
    have hsplit : unlines (l :: ls) ++ rest = l ++ '\n' :: (unlines ls ++ rest) := by
      simp [unlines]
    rw [hsplit, List.splitOn, List.splitOnP_append_cons_of_forall_mem hl _ (beq_self_eq_true _),
      ← List.splitOn, ih fun l' hl' => hls l' (List.mem_cons_of_mem _ hl'), List.cons_append]

/-- Empty lines at the end do not matter to a reader that makes nothing of them. -/
theorem flatMap_splitOn {α : Type} {ls : List (List Char)} (hls : ∀ l ∈ ls, ∀ c ∈ l, c ≠ '\n')
    {reader : List Char → List α} (hnil : reader [] = []) :
    ((unlines ls ++ ['\n']).splitOn '\n').flatMap reader = ls.flatMap reader := by
  rw [splitOn_unlines hls, show ['\n'].splitOn '\n' = [[], []] by decide, List.flatMap_append]
  simp [hnil]

/-! ## Values between labels -/

/-- Values, each followed by its label. -/
def interleave : List (List Char) → List (List Char) → List Char
  | v :: vs, l :: ls => v ++ (l ++ interleave vs ls)
  | _, _ => []

/-- A value has letters and digits only. -/
def IsValue (v : List Char) : Prop := v.all Char.isAlphanum = true

/-- A label starts with something else. -/
def IsLabel (l : List Char) : Prop := l.head?.any (!·.isAlphanum) = true

theorem IsValue.takeWhile {v l : List Char} (hv : IsValue v) (hl : IsLabel l) (t : List Char) :
    (v ++ (l ++ t)).takeWhile Char.isAlphanum = v := by
  cases l with
  | nil => cases hl
  | cons c rest =>
    have hc : c.isAlphanum = false := by simpa [IsLabel] using hl
    rw [List.takeWhile_append_of_pos (List.all_eq_true.mp hv), List.cons_append,
      List.takeWhile_cons_of_neg (by simp [hc]), List.append_nil]

theorem interleave_injective {vs vs' ls : List (List Char)} (hls : ∀ l ∈ ls, IsLabel l)
    (hvs : ∀ v ∈ vs, IsValue v) (hvs' : ∀ v ∈ vs', IsValue v) (hlen : vs.length = ls.length)
    (hlen' : vs'.length = ls.length) (h : interleave vs ls = interleave vs' ls) : vs = vs' := by
  induction ls generalizing vs vs' with
  | nil => rw [List.length_eq_zero_iff.mp hlen, List.length_eq_zero_iff.mp hlen']
  | cons l ls ih =>
    obtain ⟨v, vs, rfl⟩ := List.exists_cons_of_length_eq_add_one hlen
    obtain ⟨v', vs', rfl⟩ := List.exists_cons_of_length_eq_add_one hlen'
    have hl := hls l List.mem_cons_self
    -- the first value goes as far as the letters and digits go
    have hfirst : v = v' := by
      rw [← (hvs v List.mem_cons_self).takeWhile hl (interleave vs ls),
        ← (hvs' v' List.mem_cons_self).takeWhile hl (interleave vs' ls)]
      exact congrArg _ h
    subst hfirst
    have hrest : interleave vs ls = interleave vs' ls :=
      List.append_cancel_left (List.append_cancel_left h)
    rw [ih (fun l' hl' => hls l' (List.mem_cons_of_mem _ hl'))
      (fun u hu => hvs u (List.mem_cons_of_mem _ hu))
      (fun u hu => hvs' u (List.mem_cons_of_mem _ hu)) (Nat.succ.inj hlen) (Nat.succ.inj hlen')
      hrest]

end Strings
