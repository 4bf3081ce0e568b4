import Mathlib.Data.List.Basic
import Mathlib.Data.List.Nodup
import Mathlib.Tactic.Common

/-!
# Lists that change while they are traversed

A cursor goes through a list from front to back.  The element under it may be erased, and elements
may be appended at the end, where the cursor will come to them.  Every element has a number of its
own, given to it when it enters the list, so that it can be recognized later.
-/

variable {α : Type*}

/-- A list with a cursor: what lies behind it, and what is ahead.  Numbers ascend along the list,
and `next` is the number of the next element to enter it. -/
structure Cursor (α : Type*) where
  behind : List (α × Nat)
  ahead : List (α × Nat)
  next : Nat
  ascending : ((behind ++ ahead).map Prod.snd).Pairwise (· < ·)
  fresh : ∀ i ∈ (behind ++ ahead).map Prod.snd, i < next

namespace Cursor

def start (xs : List α) : Cursor α where
  behind := []
  ahead := xs.zipIdx
  next := xs.length
  ascending := by
    rw [List.nil_append, List.zipIdx_map_snd]
    exact List.pairwise_lt_range'
  fresh := by
    rw [List.nil_append, List.zipIdx_map_snd]
    intro i hi
    have := List.mem_range'_1.mp hi
    omega

/-- Back to the front of the list. -/
def restart (c : Cursor α) : Cursor α where
  behind := []
  ahead := c.behind ++ c.ahead
  next := c.next
  ascending := c.ascending
  fresh := c.fresh

/-- The elements of a list stay in order, and new ones come after them. -/
theorem ascending_append {l l' : List (α × Nat)} {next : Nat} (added : List α) (hl : l.Sublist l')
    (hasc : (l'.map Prod.snd).Pairwise (· < ·)) (hfresh : ∀ i ∈ l'.map Prod.snd, i < next) :
    ((l ++ added.zipIdx next).map Prod.snd).Pairwise (· < ·) ∧
      ∀ i ∈ (l ++ added.zipIdx next).map Prod.snd, i < next + added.length := by
  have hsub := hl.map Prod.snd
  rw [List.map_append, List.zipIdx_map_snd]
  constructor
  · refine List.pairwise_append.mpr ⟨hasc.sublist hsub, List.pairwise_lt_range', ?_⟩
    intro i hi j hj
    exact Nat.lt_of_lt_of_le (hfresh i (hsub.subset hi)) (List.mem_range'_1.mp hj).1
  · intro i hi
    rcases List.mem_append.mp hi with hi | hi
    · exact Nat.lt_add_right _ (hfresh i (hsub.subset hi))
    · exact (List.mem_range'_1.mp hi).2

/-- The elements that are left after the one under the cursor was kept or erased. -/
theorem sublist_of_step (c : Cursor α) (keep : Bool) :
    ((c.behind ++ if keep then c.ahead.take 1 else []) ++ c.ahead.drop 1).Sublist
      (c.behind ++ c.ahead) := by
  rw [List.append_assoc]
  refine List.Sublist.append_left ?_ _
  cases keep with
  | true =>
    rw [if_pos rfl, List.take_append_drop]
  | false => exact List.drop_sublist 1 c.ahead

/-- Go to the next element; the one left behind is kept or erased, and `added` is appended. -/
def advance (c : Cursor α) (keep : Bool) (added : List α) : Cursor α where
  behind := c.behind ++ if keep then c.ahead.take 1 else []
  ahead := c.ahead.drop 1 ++ added.zipIdx c.next
  next := c.next + added.length
  ascending := by
    rw [← List.append_assoc]
    exact (ascending_append added (c.sublist_of_step keep) c.ascending c.fresh).1
  fresh := by
    rw [← List.append_assoc]
    exact (ascending_append added (c.sublist_of_step keep) c.ascending c.fresh).2

section

variable {c : Cursor α} {a : α × Nat} {rest : List (α × Nat)}

theorem behind_erase (c : Cursor α) (added : List α) : (c.advance false added).behind = c.behind :=
  List.append_nil _

theorem behind_keep (h : c.ahead = a :: rest) (added : List α) :
    (c.advance true added).behind = c.behind ++ [a] := by
  change c.behind ++ c.ahead.take 1 = c.behind ++ [a]
  rw [h]
  rfl

theorem ahead_advance (h : c.ahead = a :: rest) (keep : Bool) (added : List α) :
    (c.advance keep added).ahead = rest ++ added.zipIdx c.next := by
  change c.ahead.drop 1 ++ added.zipIdx c.next = rest ++ added.zipIdx c.next
  rw [h]
  rfl

end

/-- The elements, without their numbers. -/
def toList (c : Cursor α) : List α := (c.behind ++ c.ahead).map Prod.fst

/-- No number is given twice. -/
theorem nodup_behind (c : Cursor α) : (c.behind.map Prod.snd).Nodup :=
  (c.ascending.sublist ((List.sublist_append_left ..).map Prod.snd)).imp Nat.ne_of_lt

end Cursor
