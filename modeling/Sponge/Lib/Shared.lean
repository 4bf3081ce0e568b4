import Mathlib.Data.List.Basic

/-!
# Shared objects

A pool of objects that are owned by counted pointers, like those of `std::shared_ptr`.  A pointer is
the place of its object, or empty.  `Counted p h` says that the objects of the pool are exactly
those that a pointer of the pool refers to, or the pointer `h` that is being moved; every operation
keeps it, as long as an object is destroyed with its last pointer.
-/

namespace Shared

variable {α : Type*}

theorem mem_set_or {β : Type*} {l : List β} {i : Nat} {old : β} (h : l[i]? = some old) (new x : β) :
    (x ∈ l.set i new ∨ old = x) ↔ (x ∈ l ∨ new = x) := by
  obtain ⟨hlt, rfl⟩ := List.getElem?_eq_some_iff.mp h
  have hl : l = l.take i ++ l[i] :: l.drop (i + 1) := by simp
  rw [List.set_eq_take_append_cons_drop, if_pos hlt]
  conv_rhs => rw [hl]
  simp only [List.mem_append, List.mem_cons, eq_comm]
  tauto

structure Pool (α : Type*) where
  pointers : List (Option Nat)
  objects : List (Option α)

namespace Pool

def empty : Pool α := ⟨[], []⟩

def object (p : Pool α) (w : Nat) : Option α := (p.objects[w]?).join

/-- The object that the `i`-th pointer refers to. -/
def deref (p : Pool α) (i : Nat) : Option α := (p.pointers[i]?).join.bind p.object

/-- A new object with its first pointer. -/
def make (p : Pool α) (a : α) : Pool α :=
  ⟨p.pointers ++ [some p.objects.length], p.objects ++ [some a]⟩

/-- A new pointer. -/
def append (p : Pool α) (h : Option Nat) : Pool α := { p with pointers := p.pointers ++ [h] }

/-- The `i`-th pointer becomes `h`. -/
def assign (p : Pool α) (i : Nat) (h : Option Nat) : Pool α :=
  { p with pointers := p.pointers.set i h }

def replace (p : Pool α) (w : Nat) (a : α) : Pool α :=
  { p with objects := p.objects.set w (some a) }

def destroy (p : Pool α) (w : Nat) : Pool α := { p with objects := p.objects.set w none }

/-- The objects of the pool are those that a pointer refers to, or `h`. -/
def Counted (p : Pool α) (h : Option Nat) : Prop :=
  ∀ w, (some w ∈ p.pointers ∨ h = some w) ↔ (p.object w).isSome

variable {p : Pool α} {h : Option Nat} {w w' i : Nat} {a : α}

theorem object_make :
    (p.make a).object w = if w = p.objects.length then some a else p.object w := by
  unfold object make
  split
  · rename_i heq
    simp [heq]
  · rename_i hne
    rcases Nat.lt_or_gt_of_ne hne with hlt | hgt
    · simp [List.getElem?_append_left hlt]
    · have hout : (p.objects ++ [some a]).length ≤ w := by
        rw [List.length_append, List.length_singleton]
        omega
      rw [List.getElem?_eq_none hout, List.getElem?_eq_none (Nat.le_of_lt hgt)]

theorem object_destroy : (p.destroy w).object w' = if w' = w then none else p.object w' := by
  unfold object destroy
  rw [List.getElem?_set]
  by_cases heq : w = w'
  · subst heq
    rw [if_pos rfl, if_pos rfl]
    split <;> rfl
  · rw [if_neg heq, if_neg (Ne.symm heq)]

theorem lt_of_object (hw : p.object w = some a) : w < p.objects.length := by
  have hget : p.objects[w]? = some (some a) := Option.join_eq_some_iff.mp hw
  exact (List.getElem?_eq_some_iff.mp hget).1

theorem object_replace (hw : (p.object w).isSome) :
    (p.replace w a).object w' = if w' = w then some a else p.object w' := by
  obtain ⟨b, hb⟩ := Option.isSome_iff_exists.mp hw
  have hlt := lt_of_object hb
  unfold object replace
  rw [List.getElem?_set]
  by_cases heq : w = w'
  · subst heq
    rw [if_pos rfl, if_pos hlt, if_pos rfl]
    rfl
  · rw [if_neg heq, if_neg (Ne.symm heq)]

theorem replace_self (hw : p.object w = some a) : p.replace w a = p := by
  have hget : p.objects[w]? = some (some a) := Option.join_eq_some_iff.mp hw
  obtain ⟨hlt, heq⟩ := List.getElem?_eq_some_iff.mp hget
  rw [replace, ← heq, List.set_getElem_self]

theorem object_length : p.object p.objects.length = none := by
  simp [object]

theorem counted_empty : (empty : Pool α).Counted none := by
  intro w
  simp [empty, object]

namespace Counted

theorem make (hc : p.Counted none) (a : α) : (p.make a).Counted none := by
  intro w
  have hw := hc w
  rw [object_make]
  split
  · rename_i heq
    simp [Pool.make, heq]
  · rename_i hne
    simpa [Pool.make, hne] using hw

/-- A pointer that exists already may be copied. -/
theorem copy (hc : p.Counted none) (hi : p.pointers[i]? = some h) : (p.append h).Counted none := by
  intro w
  refine Iff.trans ?_ (hc w)
  simp only [append, List.mem_append, List.mem_singleton, reduceCtorEq, or_false]
  constructor
  · rintro (hw | hw)
    · exact hw
    · exact hw ▸ List.mem_of_getElem? hi
  · exact Or.inl

theorem append (hc : p.Counted h) : (p.append h).Counted none := by
  intro w
  refine Iff.trans ?_ (hc w)
  simp only [Pool.append, List.mem_append, List.mem_singleton, reduceCtorEq, or_false]
  rw [@eq_comm _ (some w)]

/-- The pointer that was there before is moved out. -/
theorem assign {old : Option Nat} (hc : p.Counted h) (hi : p.pointers[i]? = some old) :
    (p.assign i h).Counted old := fun w => (mem_set_or hi h (some w)).trans (hc w)

theorem replace (hc : p.Counted h) (hw : (p.object w).isSome) (a : α) :
    (p.replace w a).Counted h := by
  intro w'
  rw [object_replace hw]
  split
  · rename_i heq
    subst heq
    exact iff_of_true ((hc w').mpr hw) rfl
  · exact hc w'

/-- The object of a pointer that was the last one is destroyed. -/
theorem destroy (hc : p.Counted (some w)) (hlast : some w ∉ p.pointers) :
    (p.destroy w).Counted none := by
  intro w'
  have hw' := hc w'
  rw [object_destroy]
  split
  · rename_i heq
    subst heq
    simpa [Pool.destroy] using hlast
  · rename_i hne
    simpa [Pool.destroy, Ne.symm hne] using hw'

/-- Another pointer to the object may be forgotten. -/
theorem forget (hc : p.Counted (some w)) (hmem : some w ∈ p.pointers) : p.Counted none := by
  intro w'
  refine Iff.trans ?_ (hc w')
  constructor
  · rintro (hw | hw)
    · exact Or.inl hw
    · cases hw
  · rintro (hw | hw)
    · exact Or.inl hw
    · exact Or.inl (hw ▸ hmem)

end Counted

end Pool

end Shared
