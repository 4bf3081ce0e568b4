import Sponge.Lib.Path
import Sponge.Lib.Shared
import Sponge.Socket

/-!
# Shared file descriptors

A `FileDescriptor` (file_descriptor.hh, file_descriptor.cc) is a counted pointer to an `FDWrapper`.
It can be duplicated and moved; the wrapper closes its descriptor when the last pointer to it goes.
`close` may be called through any of them, and calls `close(2)` even if the wrapper is closed.

`descriptors_owned` is about every program that closes no wrapper twice, as long as `close(2)` does
not fail on a number that is open: the descriptors that are open are those of the wrappers that have
a pointer and are not closed, so none leaks and none is closed early.  It also says what happens
otherwise.  A `close(2)` that fails has freed the number all the same, but the wrapper does not know
it, and its destructor closes the number again.
-/

namespace Sponge

open Shared Transition

/-- A call of `close(2)`: its number, whether it was open, and what the call returned. -/
structure CloseCall where
  fd : Int
  wasOpen : Bool
  result : CallResult

/-- The pointers and the wrappers of a process, the numbers that are open, the calls of `close(2)`
so far, and the exceptions that destructors printed and calls threw. -/
structure Process where
  pool : Pool FileDescriptor
  table : List Int
  calls : List CloseCall
  cerr : List Exception
  thrown : List Exception

namespace Process

def start : Process := ⟨Pool.empty, [], [], [], []⟩

/-- `close(2)`.  Whatever it returns, the number is free afterwards. -/
def callClose (p : Process) (fd : Int) (result : CallResult) : Process :=
  { p with
    table := p.table.erase fd
    calls := p.calls ++ [⟨fd, decide (fd ∈ p.table), result⟩] }

/-- `FDWrapper::close`, for the wrapper at the place `w`. -/
def closeWrapper (p : Process) (w : Nat) (f : FileDescriptor) (result : CallResult) :
    Except Exception Unit × Process :=
  let (outcome, f') := f.close result
  (outcome, { p.callClose f.fd result with pool := p.pool.replace w f' })

/-- `~FDWrapper`. -/
def destroyWrapper (p : Process) (w : Nat) (f : FileDescriptor) (result : CallResult) : Process :=
  let p :=
    if f.closed then p
    else { p.callClose f.fd result with cerr := p.cerr ++ (f.destruct result).toList }
  { p with pool := p.pool.destroy w }

/-- A pointer goes. -/
def release (p : Process) (h : Option Nat) (result : CallResult) : Process :=
  match h with
  | none => p
  | some w =>
    if some w ∈ p.pool.pointers then p
    else
      match p.pool.object w with
      | none => p
      | some f => p.destroyWrapper w f result

end Process

/-- What a program does with its descriptors; they are numbered as they are made.  `construct` comes
right after the kernel has opened the number; `result` is what `close(2)` returns if the event calls
it. -/
inductive HandleEvent
  | construct (fd : Int)
  | duplicate (i : Nat)
  | moveConstruct (i : Nat)
  | moveAssign (i j : Nat) (result : CallResult)
  | close (i : Nat) (result : CallResult)
  | destroy (i : Nat) (result : CallResult)

namespace Process

/-- `none` for a descriptor that was not made, and for `close` on an empty one. -/
def step (p : Process) : HandleEvent → Option Process
  | .construct fd =>
    match FileDescriptor.new fd with
    | .error e => some { p with thrown := p.thrown ++ [e] }
    | .ok f => some { p with pool := p.pool.make f, table := fd :: p.table }
  | .duplicate i => (p.pool.pointers[i]?).map fun h => { p with pool := p.pool.append h }
  | .moveConstruct i =>
    (p.pool.pointers[i]?).map fun h => { p with pool := (p.pool.assign i none).append h }
  | .moveAssign i j result => do
    let h ← p.pool.pointers[j]?
    let pool := p.pool.assign j none
    let old ← pool.pointers[i]?
    some (release { p with pool := pool.assign i h } old result)
  | .close i result => do
    let w ← (p.pool.pointers[i]?).join
    let f ← p.pool.object w
    match p.closeWrapper w f result with
    | (.ok (), p') => some p'
    | (.error e, p') => some { p' with thrown := p'.thrown ++ [e] }
  | .destroy i result =>
    (p.pool.pointers[i]?).map fun h => release { p with pool := p.pool.assign i none } h result

/-- The kernel gives out a number that is not open, no wrapper is closed twice, and `close(2)` does
not fail on a number that is open. -/
def Careful (p : Process) (e : HandleEvent) (p' : Process) : Prop :=
  (∀ c ∈ p'.calls, c.wasOpen = true → 0 ≤ c.result.returnValue) ∧
    match e with
    | .construct fd => 0 ≤ fd ∧ fd ∉ p.table
    | .close i _ => ∀ f ∈ p.pool.deref i, f.closed = false
    | _ => True

instance (p p' : Process) : ∀ e, Decidable (p.Careful e p')
  | .construct _ => inferInstanceAs (Decidable (_ ∧ _ ∧ _))
  | .close i _ => inferInstanceAs (Decidable (_ ∧ ∀ f ∈ p.pool.deref i, f.closed = false))
  | .duplicate _ | .moveConstruct _ | .moveAssign _ _ _ | .destroy _ _ =>
    inferInstanceAs (Decidable (_ ∧ True))

/-! ## Who owns what -/

/-- The numbers that are open are those of the wrappers that are not closed, one each. -/
structure Owned (p : Process) (h : Option Nat) : Prop where
  counted : p.pool.Counted h
  table : ∀ fd, fd ∈ p.table ↔ ∃ w f, p.pool.object w = some f ∧ f.closed = false ∧ f.fd = fd
  unique : ∀ w w' f f', p.pool.object w = some f → p.pool.object w' = some f' →
    f.closed = false → f'.closed = false → f.fd = f'.fd → w = w'
  nodup : p.table.Nodup
  nonneg : ∀ fd ∈ p.table, 0 ≤ fd
  calls : ∀ c ∈ p.calls, c.wasOpen = true ∧ 0 ≤ c.result.returnValue
  quiet : p.cerr = [] ∧ p.thrown = []

variable {p p' : Process} {h : Option Nat} {w : Nat} {f : FileDescriptor} {result : CallResult}

theorem owned_start : Owned start none where
  counted := Pool.counted_empty
  table := by simp [start, Pool.object, Pool.empty]
  unique := by simp [start, Pool.object, Pool.empty]
  nodup := List.nodup_nil
  nonneg := fun _ hfd => (List.not_mem_nil hfd).elim
  calls := fun _ hc => (List.not_mem_nil hc).elim
  quiet := ⟨rfl, rfl⟩

theorem closeWrapper_of_nonneg (hok : 0 ≤ result.returnValue) : p.closeWrapper w f result =
    (.ok (), { p.callClose f.fd result with
      pool := p.pool.replace w { f with eof := true, closed := true } }) := by
  rw [closeWrapper, f.close_of_nonneg hok]

theorem closeWrapper_of_neg (hw : p.pool.object w = some f) (hfail : result.returnValue < 0) :
    p.closeWrapper w f result =
      (.error (.unixError "close" result.errno), p.callClose f.fd result) := by
  rw [closeWrapper, f.close_of_neg hfail]
  simp only [Pool.replace_self hw]
  rfl

/-- When one wrapper is closed or destroyed the others that are open stay as they are. -/
theorem open_iff_of_gone {pool pool' : Pool FileDescriptor}
    (hsame : ∀ w' ≠ w, pool'.object w' = pool.object w')
    (hgone : ∀ f ∈ pool'.object w, f.closed = true) {w' : Nat} {f' : FileDescriptor} :
    (pool'.object w' = some f' ∧ f'.closed = false) ↔
      w' ≠ w ∧ pool.object w' = some f' ∧ f'.closed = false := by
  by_cases hw : w' = w
  · subst hw
    refine iff_of_false ?_ fun h => h.1 rfl
    rintro ⟨hobject, hopen⟩
    exact Bool.false_ne_true (hopen.symm.trans (hgone f' hobject))
  · rw [hsame w' hw]
    exact (and_iff_right hw).symm

theorem Owned.unique_of_gone (ho : Owned p h) {pool' : Pool FileDescriptor}
    (hsame : ∀ w' ≠ w, pool'.object w' = p.pool.object w')
    (hgone : ∀ f ∈ pool'.object w, f.closed = true) :
    ∀ w₁ w₂ f₁ f₂, pool'.object w₁ = some f₁ → pool'.object w₂ = some f₂ →
      f₁.closed = false → f₂.closed = false → f₁.fd = f₂.fd → w₁ = w₂ := by
  intro w₁ w₂ f₁ f₂ h₁ h₂ hopen₁ hopen₂ heq
  obtain ⟨-, h₁, -⟩ := (open_iff_of_gone hsame hgone).mp ⟨h₁, hopen₁⟩
  obtain ⟨-, h₂, -⟩ := (open_iff_of_gone hsame hgone).mp ⟨h₂, hopen₂⟩
  exact ho.unique _ _ _ _ h₁ h₂ hopen₁ hopen₂ heq

theorem Owned.mem_table (ho : Owned p h) (hw : p.pool.object w = some f)
    (hopen : f.closed = false) : f.fd ∈ p.table :=
  (ho.table f.fd).mpr ⟨w, f, hw, hopen, rfl⟩

/-- A call of `close(2)` on an open number that succeeds. -/
theorem Owned.calls_callClose (ho : Owned p h) {fd : Int} (hmem : fd ∈ p.table)
    (hok : 0 ≤ result.returnValue) :
    ∀ c ∈ (p.callClose fd result).calls, c.wasOpen = true ∧ 0 ≤ c.result.returnValue := by
  intro c hc
  rcases List.mem_append.mp hc with hc | hc
  · exact ho.calls c hc
  · obtain rfl := List.mem_singleton.mp hc
    exact ⟨decide_eq_true hmem, hok⟩

/-- A wrapper that was open is closed or gone, and its own number is closed. -/
theorem Owned.gone (ho : Owned p h) (hw : p.pool.object w = some f) (hopen : f.closed = false)
    (hok : 0 ≤ result.returnValue) {pool' : Pool FileDescriptor} {h' : Option Nat}
    (hcounted : pool'.Counted h') (hsame : ∀ w' ≠ w, pool'.object w' = p.pool.object w')
    (hgone : ∀ f ∈ pool'.object w, f.closed = true) :
    Owned { p.callClose f.fd result with pool := pool' } h' := by
  refine ⟨hcounted, ?_, ho.unique_of_gone hsame hgone, ho.nodup.erase _,
    fun fd hfd => ho.nonneg fd (List.mem_of_mem_erase hfd),
    ho.calls_callClose (ho.mem_table hw hopen) hok, ho.quiet⟩
  intro fd
  refine Iff.trans ho.nodup.mem_erase_iff ?_
  rw [ho.table]
  constructor
  · rintro ⟨hne, w', f', hw', hopen', rfl⟩
    have hww : w' ≠ w := by
      rintro rfl
      exact hne (congrArg FileDescriptor.fd (Option.some.inj (hw'.symm.trans hw)))
    exact ⟨w', f', (hsame w' hww).trans hw', hopen', rfl⟩
  · rintro ⟨w', f', hw', hopen', rfl⟩
    obtain ⟨hww, hw', -⟩ := (open_iff_of_gone hsame hgone).mp ⟨hw', hopen'⟩
    -- no other open wrapper has the number
    exact ⟨fun heq => hww (ho.unique _ _ _ _ hw' hw hopen' hopen heq), w', f', hw', hopen', rfl⟩

theorem Owned.closeWrapper (ho : Owned p h) (hw : p.pool.object w = some f)
    (hopen : f.closed = false) (hok : 0 ≤ result.returnValue) :
    Owned { p.callClose f.fd result with
      pool := p.pool.replace w { f with eof := true, closed := true } } h := by
  have hsome : (p.pool.object w).isSome := by rw [hw]; rfl
  refine ho.gone hw hopen hok (ho.counted.replace hsome _) ?_ ?_
  · intro w' hne
    rw [Pool.object_replace hsome, if_neg hne]
  · intro f' hf'
    rw [Pool.object_replace hsome, if_pos rfl] at hf'
    obtain rfl := Option.some.inj hf'
    rfl

/-- A closed wrapper is destroyed with its last pointer. -/
theorem Owned.destroy (ho : Owned p (some w)) (hlast : some w ∉ p.pool.pointers)
    (hw : p.pool.object w = some f) (hclosed : f.closed = true) :
    Owned { p with pool := p.pool.destroy w } none := by
  have hsame : ∀ w' ≠ w, (p.pool.destroy w).object w' = p.pool.object w' := by
    intro w' hne
    rw [Pool.object_destroy, if_neg hne]
  have hgone : ∀ f ∈ (p.pool.destroy w).object w, f.closed = true := by
    intro f' hf'
    rw [Pool.object_destroy, if_pos rfl] at hf'
    cases hf'
  refine ⟨ho.counted.destroy hlast, ?_, ho.unique_of_gone hsame hgone, ho.nodup, ho.nonneg,
    ho.calls, ho.quiet⟩
  intro fd
  rw [ho.table]
  constructor
  · rintro ⟨w', f', hw', hopen', rfl⟩
    have hww : w' ≠ w := by
      rintro rfl
      obtain rfl := Option.some.inj (hw'.symm.trans hw)
      exact Bool.false_ne_true (hopen'.symm.trans hclosed)
    exact ⟨w', f', (hsame w' hww).trans hw', hopen', rfl⟩
  · rintro ⟨w', f', hw', hopen', rfl⟩
    obtain ⟨-, hw', -⟩ := (open_iff_of_gone hsame hgone).mp ⟨hw', hopen'⟩
    exact ⟨w', f', hw', hopen', rfl⟩

/-- An open wrapper closes its number when its last pointer goes. -/
theorem Owned.destroy_open (ho : Owned p (some w)) (hlast : some w ∉ p.pool.pointers)
    (hw : p.pool.object w = some f) (hopen : f.closed = false) (hok : 0 ≤ result.returnValue) :
    Owned (p.destroyWrapper w f result) none := by
  have hdestruct : f.destruct result = none := by
    rw [FileDescriptor.destruct, f.close_of_nonneg hok]
    exact ite_self none
  have hgone := ho.gone hw hopen hok (ho.counted.destroy hlast)
    (fun w' hne => by rw [Pool.object_destroy, if_neg hne])
    (fun f' hf' => by rw [Pool.object_destroy, if_pos rfl] at hf'; cases hf')
  rw [destroyWrapper, if_neg (by simp [hopen]), hdestruct]
  refine ⟨hgone.counted, hgone.table, hgone.unique, hgone.nodup, hgone.nonneg, hgone.calls, ?_,
    hgone.quiet.2⟩
  rw [ho.quiet.1]
  rfl

/-- A pointer goes, and if `close(2)` is called it does not fail. -/
theorem Owned.release (ho : Owned p h)
    (hok : ∀ c ∈ (p.release h result).calls, c.wasOpen = true → 0 ≤ c.result.returnValue) :
    Owned (p.release h result) none := by
  cases h with
  | none => exact ho
  | some w =>
    unfold Process.release at hok ⊢
    dsimp only at hok ⊢
    by_cases hmem : some w ∈ p.pool.pointers
    · rw [if_pos hmem]
      exact ⟨ho.counted.forget hmem, ho.table, ho.unique, ho.nodup, ho.nonneg, ho.calls, ho.quiet⟩
    · rw [if_neg hmem] at hok ⊢
      obtain ⟨f, hw⟩ := Option.isSome_iff_exists.mp ((ho.counted w).mp (Or.inr rfl))
      rw [hw] at hok ⊢
      dsimp only at hok ⊢
      cases hclosed : f.closed with
      | true =>
        rw [destroyWrapper, if_pos hclosed]
        exact ho.destroy hmem hw hclosed
      | false =>
        refine ho.destroy_open hmem hw hclosed ?_
        rw [destroyWrapper, if_neg (by simp [hclosed])] at hok
        exact hok _ (List.mem_append_right _ (List.mem_singleton_self _))
          (decide_eq_true (ho.mem_table hw hclosed))

/-- Pointers may be rearranged as long as the objects stay. -/
theorem Owned.pointers (ho : Owned p h) {pool : Pool FileDescriptor} {h' : Option Nat}
    (hcounted : pool.Counted h') (hobjects : pool.objects = p.pool.objects) :
    Owned { p with pool } h' := by
  have hobject : ∀ w, pool.object w = p.pool.object w := by
    intro w
    rw [Pool.object, Pool.object, hobjects]
  refine ⟨hcounted, ?_, ?_, ho.nodup, ho.nonneg, ho.calls, ho.quiet⟩
  · intro fd
    simp only [hobject]
    exact ho.table fd
  · intro w₁ w₂ f₁ f₂
    simp only [hobject]
    exact ho.unique w₁ w₂ f₁ f₂

theorem Owned.construct (ho : Owned p none) {fd : Int} (hfd : 0 ≤ fd) (hfresh : fd ∉ p.table) :
    Owned { p with pool := p.pool.make ⟨fd, false, false, 0, 0⟩, table := fd :: p.table } none := by
  have hnew : p.pool.object p.pool.objects.length = none := Pool.object_length
  have hobject : ∀ w, (p.pool.make ⟨fd, false, false, 0, 0⟩).object w =
      if w = p.pool.objects.length then some ⟨fd, false, false, 0, 0⟩ else p.pool.object w :=
    fun w => Pool.object_make
  have hother : ∀ {w f}, p.pool.object w = some f → f.closed = false → f.fd ≠ fd := by
    intro w f hw hopen heq
    exact hfresh ((ho.table fd).mpr ⟨w, f, hw, hopen, heq⟩)
  refine ⟨ho.counted.make _, ?_, ?_, List.nodup_cons.mpr ⟨hfresh, ho.nodup⟩,
    List.forall_mem_cons.mpr ⟨hfd, ho.nonneg⟩, ho.calls, ho.quiet⟩
  · intro n
    rw [List.mem_cons, ho.table]
    constructor
    · rintro (rfl | ⟨w, f, hw, hopen, rfl⟩)
      · exact ⟨_, _, by rw [hobject, if_pos rfl], rfl, rfl⟩
      · refine ⟨w, f, ?_, hopen, rfl⟩
        rw [hobject, if_neg (by rintro rfl; rw [hnew] at hw; cases hw), hw]
    · rintro ⟨w, f, hw, hopen, rfl⟩
      rw [hobject] at hw
      split at hw
      · obtain rfl := Option.some.inj hw
        exact Or.inl rfl
      · exact Or.inr ⟨w, f, hw, hopen, rfl⟩
  · intro w₁ w₂ f₁ f₂ h₁ h₂ hopen₁ hopen₂ heq
    rw [hobject] at h₁ h₂
    split at h₁ <;> split at h₂
    · rename_i hw₁ hw₂
      exact hw₁.trans hw₂.symm
    · obtain rfl := Option.some.inj h₁
      exact absurd heq.symm (hother h₂ hopen₂)
    · obtain rfl := Option.some.inj h₂
      exact absurd heq (hother h₁ hopen₁)
    · exact ho.unique _ _ _ _ h₁ h₂ hopen₁ hopen₂ heq

theorem step_close {i : Nat} (hi : (p.pool.pointers[i]?).join = some w)
    (hw : p.pool.object w = some f) :
    p.step (.close i result) =
      match p.closeWrapper w f result with
      | (.ok (), p') => some p'
      | (.error e, p') => some { p' with thrown := p'.thrown ++ [e] } := by
  simp only [step, hi, hw, Option.bind_eq_bind, Option.bind_some]

/-- A `close` for which `close(2)` succeeds. -/
theorem step_close_of_nonneg {i : Nat} (hi : (p.pool.pointers[i]?).join = some w)
    (hw : p.pool.object w = some f) (hok : 0 ≤ result.returnValue) :
    p.step (.close i result) = some { p.callClose f.fd result with
      pool := p.pool.replace w { f with eof := true, closed := true } } := by
  rw [step_close hi hw, closeWrapper_of_nonneg hok]

/-- A `close` for which `close(2)` fails. -/
theorem step_close_of_neg {i : Nat} (hi : (p.pool.pointers[i]?).join = some w)
    (hw : p.pool.object w = some f) (hfail : result.returnValue < 0) :
    p.step (.close i result) = some { p.callClose f.fd result with
      thrown := p.thrown ++ [.unixError "close" result.errno] } := by
  rw [step_close hi hw, closeWrapper_of_neg hw hfail]
  rfl

theorem owned_step (ho : Owned p none) {e : HandleEvent} (hs : p.step e = some p')
    (hcare : p.Careful e p') : Owned p' none := by
  obtain ⟨hok, hcare⟩ := hcare
  cases e with
  | construct fd =>
    rw [step, FileDescriptor.new, if_neg (Int.not_lt.mpr hcare.1)] at hs
    obtain rfl := Option.some.inj hs
    exact ho.construct hcare.1 hcare.2
  | duplicate i =>
    obtain ⟨h, hi, rfl⟩ := Option.map_eq_some_iff.mp hs
    exact ho.pointers (ho.counted.copy hi) rfl
  | moveConstruct i =>
    obtain ⟨h, hi, rfl⟩ := Option.map_eq_some_iff.mp hs
    exact ho.pointers (ho.counted.assign hi).append rfl
  | moveAssign i j result =>
    -- the pointer that is overwritten goes last; if `i = j` it is the empty one
    obtain ⟨h, hj, hs⟩ := Option.bind_eq_some_iff.mp hs
    obtain ⟨old, hi, hs⟩ := Option.bind_eq_some_iff.mp hs
    obtain rfl := Option.some.inj hs
    exact (ho.pointers ((ho.counted.assign hj).assign hi) rfl).release hok
  | close i result =>
    obtain ⟨w, hi, hbind⟩ := Option.bind_eq_some_iff.mp hs
    obtain ⟨f, hw, -⟩ := Option.bind_eq_some_iff.mp hbind
    have hopen : f.closed = false := hcare f (by rw [Pool.deref, hi, Option.bind_some, hw]; rfl)
    have hmem := ho.mem_table hw hopen
    by_cases hnonneg : 0 ≤ result.returnValue
    · rw [step_close_of_nonneg hi hw hnonneg] at hs
      obtain rfl := Option.some.inj hs
      exact ho.closeWrapper hw hopen hnonneg
    · rw [step_close_of_neg hi hw (Int.not_le.mp hnonneg)] at hs
      obtain rfl := Option.some.inj hs
      exact absurd (hok _ (List.mem_append_right _ (List.mem_singleton_self _))
        (decide_eq_true hmem)) hnonneg
  | destroy i result =>
    obtain ⟨h, hi, rfl⟩ := Option.map_eq_some_iff.mp hs
    exact (ho.pointers (ho.counted.assign hi) rfl).release hok

/-- Every wrapper of the pool has a pointer. -/
theorem Owned.exists_pointer (ho : Owned p none) (hw : p.pool.object w = some f) :
    ∃ i : Nat, (p.pool.pointers[i]?).join = some w := by
  rcases (ho.counted w).mpr (by rw [hw]; rfl) with hmem | hno
  · obtain ⟨i, hi⟩ := List.mem_iff_getElem?.mp hmem
    exact ⟨i, by rw [hi]; rfl⟩
  · cases hno

/-- A second `close` closes what has the number now. -/
theorem Owned.second_close (ho : Owned p none) {i : Nat} (hi : p.pool.deref i = some f)
    (hclosed : f.closed = true) (result : CallResult) :
    ∃ p', p.step (.close i result) = some p' ∧
      (f.fd ∉ p.table → result.returnValue < 0 →
        p' = { p.callClose f.fd result with thrown := [.unixError "close" result.errno] }) ∧
      (f.fd ∈ p.table → f.fd ∉ p'.table ∧
        ∃ j g, p'.pool.deref j = some g ∧ g.closed = false ∧ g.fd = f.fd) := by
  obtain ⟨w, hpointer, hw⟩ := Option.bind_eq_some_iff.mp hi
  have hsome : (p.pool.object w).isSome := by rw [hw]; rfl
  -- the wrapper that has the number now is another one
  have hother : ∀ pool' : Pool FileDescriptor, pool'.pointers = p.pool.pointers →
      (∀ w' ≠ w, pool'.object w' = p.pool.object w') → f.fd ∈ p.table →
      ∃ j g, pool'.deref j = some g ∧ g.closed = false ∧ g.fd = f.fd := by
    intro pool' hpointers hsame hmem
    obtain ⟨w', g, hw', hopen, hfd⟩ := (ho.table f.fd).mp hmem
    have hne : w' ≠ w := by
      rintro rfl
      obtain rfl := Option.some.inj (hw'.symm.trans hw)
      exact Bool.false_ne_true (hopen.symm.trans hclosed)
    obtain ⟨j, hj⟩ := ho.exists_pointer hw'
    exact ⟨j, g, by rw [Pool.deref, hpointers, hj, Option.bind_some, hsame w' hne, hw'], hopen, hfd⟩
  by_cases hok : 0 ≤ result.returnValue
  · refine ⟨_, step_close_of_nonneg hpointer hw hok,
      fun _ hneg => absurd hok (Int.not_le.mpr hneg),
      fun hmem => ⟨ho.nodup.not_mem_erase, hother _ rfl (fun w' hne => ?_) hmem⟩⟩
    rw [Pool.object_replace hsome, if_neg hne]
  · exact ⟨_, step_close_of_neg hpointer hw (Int.not_le.mp hok),
      fun _ _ => by rw [ho.quiet.2]; rfl,
      fun hmem => ⟨ho.nodup.not_mem_erase, hother _ rfl (fun _ _ => rfl) hmem⟩⟩

theorem step_destroy_last {i : Nat} (hi : p.pool.pointers[i]? = some (some w))
    (hlast : some w ∉ (p.pool.assign i none).pointers) (hw : p.pool.object w = some f) :
    p.step (.destroy i result) =
      some ({ p with pool := p.pool.assign i none }.destroyWrapper w f result) := by
  have hw' : (p.pool.assign i none).object w = some f := hw
  rw [step, hi, Option.map_some, release]
  dsimp only
  rw [if_neg hlast, hw']

/-- **An open wrapper closes its number, whoever has it**: the number was given out again to a
second wrapper, and the destructor of the first one closes it. -/
theorem taken_by_destructor {i : Nat} (hi : p.pool.pointers[i]? = some (some w))
    (honly : ∀ j ≠ i, p.pool.pointers[j]? ≠ some (some w)) (hw : p.pool.object w = some f)
    (hopen : f.closed = false) (hfd : 0 ≤ f.fd) (hfree : f.fd ∉ p.table) :
    ∃ p₁ p₂, p.step (.construct f.fd) = some p₁ ∧ p₁.step (.destroy i result) = some p₂ ∧
      f.fd ∉ p₂.table ∧ ∃ j g, p₂.pool.deref j = some g ∧ g.closed = false ∧ g.fd = f.fd := by
  have hlt : i < p.pool.pointers.length := (List.getElem?_eq_some_iff.mp hi).1
  have hne : w ≠ p.pool.objects.length := Nat.ne_of_lt (Pool.lt_of_object hw)
  let g : FileDescriptor := ⟨f.fd, false, false, 0, 0⟩
  let p₁ : Process := { p with pool := p.pool.make g, table := f.fd :: p.table }
  have hconstruct : p.step (.construct f.fd) = some p₁ := by
    rw [step, FileDescriptor.new, if_neg (Int.not_lt.mpr hfd)]
  have hlast : some w ∉ (p₁.pool.assign i none).pointers := by
    change some w ∉ (p.pool.pointers ++ [some p.pool.objects.length]).set i none
    rw [List.set_append_left _ _ hlt, List.mem_append]
    rintro (hmem | hmem)
    · obtain ⟨j, hj⟩ := List.mem_iff_getElem?.mp hmem
      by_cases hji : i = j
      · subst hji
        rw [List.getElem?_set_self hlt] at hj
        cases hj
      · rw [List.getElem?_set_ne hji] at hj
        exact honly j (Ne.symm hji) hj
    · exact hne (Option.some.inj (List.mem_singleton.mp hmem))
  have hdestroy : p₁.step (.destroy i result) = _ :=
    step_destroy_last (by
      change (p.pool.pointers ++ [some p.pool.objects.length])[i]? = _
      rw [List.getElem?_append_left hlt, hi]) hlast
      (by rw [Pool.object_make, if_neg hne, hw])
  refine ⟨p₁, _, hconstruct, hdestroy, ?_, p.pool.pointers.length, g, ?_, rfl, rfl⟩
  · rw [destroyWrapper, if_neg (by simp [hopen])]
    change f.fd ∉ (f.fd :: p.table).erase f.fd
    rw [List.erase_cons_head]
    exact hfree
  · rw [destroyWrapper, if_neg (by simp [hopen])]
    change Pool.deref (((p.pool.make g).assign i none).destroy w) p.pool.pointers.length = some g
    have hpointer : (((p.pool.make g).assign i none).destroy w).pointers[p.pool.pointers.length]? =
        some (some p.pool.objects.length) := by
      change ((p.pool.pointers ++ [some p.pool.objects.length]).set i none)[_]? = _
      rw [List.getElem?_set_ne (Nat.ne_of_lt hlt), List.getElem?_concat_length]
    rw [Pool.deref, hpointer, Option.join_some, Option.bind_some, Pool.object_destroy,
      if_neg (Ne.symm hne)]
    exact Pool.object_make.trans (if_pos rfl)

/-- A `close(2)` that fails frees the number, but the wrapper still counts as open. -/
theorem Owned.failed_close (ho : Owned p none) {i : Nat} (hi : p.pool.deref i = some f)
    (hopen : f.closed = false) (hfail : result.returnValue < 0) :
    ∃ p', p.step (.close i result) = some p' ∧
      p'.thrown = [.unixError "close" result.errno] ∧ f.fd ∉ p'.table ∧
      p'.pool.deref i = some f ∧
      ((∀ j ≠ i, p.pool.pointers[j]? ≠ p.pool.pointers[i]?) → ∀ again,
        ∃ p₁ p₂, p'.step (.construct f.fd) = some p₁ ∧ p₁.step (.destroy i again) = some p₂ ∧
          f.fd ∉ p₂.table ∧
          ∃ j g, p₂.pool.deref j = some g ∧ g.closed = false ∧ g.fd = f.fd) := by
  obtain ⟨w, hpointer, hw⟩ := Option.bind_eq_some_iff.mp hi
  have hget : p.pool.pointers[i]? = some (some w) := Option.join_eq_some_iff.mp hpointer
  have hfree : f.fd ∉ p.table.erase f.fd := ho.nodup.not_mem_erase
  refine ⟨_, step_close_of_neg hpointer hw hfail, by rw [ho.quiet.2]; rfl, hfree, hi, ?_⟩
  intro honly again
  exact taken_by_destructor (p := { p.callClose f.fd result with
    thrown := p.thrown ++ [.unixError "close" result.errno] }) hget
    (fun j hj => hget ▸ honly j hj) hw hopen (ho.nonneg _ (ho.mem_table hw hopen)) hfree

end Process

/-- **Descriptors are open as long as they are owned.**  In every state of a program that closes no
wrapper twice, as long as `close(2)` does not fail on a number that is open, the numbers that are
open are those of the wrappers that some `FileDescriptor` refers to and that are not closed; no
`FileDescriptor` refers to a wrapper that is gone; every call of `close(2)` was about an open number
and no destructor has printed anything.  In particular everything is closed when no `FileDescriptor`
is left.

If a wrapper is closed a second time the call throws, unless the number was given out again: then it
closes the descriptor of another wrapper, which still takes it for open.  If `close(2)` fails on an
open number the wrapper still counts as open: its destructor closes the number again, also if it was
given out again. -/
theorem descriptors_owned (es : List HandleEvent) (p : Process)
    (hp : Path Process.step Process.Careful Process.start es p) :
    (∀ fd, fd ∈ p.table ↔ ∃ i f, p.pool.deref i = some f ∧ f.closed = false ∧ f.fd = fd) ∧
    (∀ i w, p.pool.pointers[i]? = some (some w) → (p.pool.deref i).isSome) ∧
    (∀ c ∈ p.calls, c.wasOpen = true) ∧ p.cerr = [] ∧ p.thrown = [] ∧
    (∀ i f result, p.pool.deref i = some f → f.closed = true →
      ∃ p', p.step (.close i result) = some p' ∧
        (f.fd ∉ p.table → result.returnValue < 0 →
          p' = { p.callClose f.fd result with thrown := [.unixError "close" result.errno] }) ∧
        (f.fd ∈ p.table → f.fd ∉ p'.table ∧
          ∃ j g, p'.pool.deref j = some g ∧ g.closed = false ∧ g.fd = f.fd)) ∧
    ∀ i f result, p.pool.deref i = some f → f.closed = false → result.returnValue < 0 →
      ∃ p', p.step (.close i result) = some p' ∧
        p'.thrown = [.unixError "close" result.errno] ∧ f.fd ∉ p'.table ∧
        p'.pool.deref i = some f ∧
        ((∀ j ≠ i, p.pool.pointers[j]? ≠ p.pool.pointers[i]?) → ∀ again,
          ∃ p₁ p₂, p'.step (.construct f.fd) = some p₁ ∧ p₁.step (.destroy i again) = some p₂ ∧
            f.fd ∉ p₂.table ∧
            ∃ j g, p₂.pool.deref j = some g ∧ g.closed = false ∧ g.fd = f.fd) := by
  have ho : p.Owned none := hp.invariant Process.owned_start fun _ _ _ h hs ha =>
    Process.owned_step h hs ha
  refine ⟨fun fd => ?_, fun i w hi => ?_, fun c hc => (ho.calls c hc).1, ho.quiet.1, ho.quiet.2,
    fun i f result hi hclosed => ho.second_close hi hclosed result,
    fun i f result hi hopen hfail => ho.failed_close hi hopen hfail⟩
  · rw [ho.table]
    constructor
    · rintro ⟨w, f, hw, hrest⟩
      obtain ⟨i, hi⟩ := ho.exists_pointer hw
      exact ⟨i, f, by rw [Pool.deref, hi, Option.bind_some, hw], hrest⟩
    · rintro ⟨i, f, hi, hrest⟩
      obtain ⟨w, -, hw⟩ := Option.bind_eq_some_iff.mp hi
      exact ⟨w, f, hw, hrest⟩
  · rw [Pool.deref, hi]
    exact (ho.counted w).mp (Or.inl (List.mem_of_getElem? hi))

/-- A descriptor is duplicated and closed, and its number is given out again; then the duplicate is
closed, too, and with it the second descriptor. -/
theorem descriptors_owned_reused :
    ∃ p p', Path Process.step Process.Careful Process.start
        [.construct 3, .duplicate 0, .moveConstruct 0, .construct 4, .destroy 3 .zero,
          .close 2 .zero, .construct 3] p ∧
      p.table = [3] ∧ p.step (.close 1 .zero) = some p' ∧ 3 ∉ p'.table ∧
      ∃ j g, p'.pool.deref j = some g ∧ g.closed = false ∧ g.fd = 3 := by
  obtain ⟨p, hp, hfacts⟩ := Option.map_eq_some_iff.mp (show
    (check Process.step Process.Careful Process.start
      [.construct 3, .duplicate 0, .moveConstruct 0, .construct 4, .destroy 3 .zero,
        .close 2 .zero, .construct 3]).map (fun p => (p.table, p.pool.deref 1)) =
      some ([3], some ⟨3, true, true, 0, 0⟩) by decide)
  obtain ⟨htable, hderef⟩ := Prod.mk.inj hfacts
  obtain ⟨-, -, -, -, -, hsecond, -⟩ := descriptors_owned _ p (Path.of_check hp)
  obtain ⟨p', hstep, -, hreused⟩ := hsecond 1 _ .zero hderef rfl
  obtain ⟨hgone, hother⟩ := hreused (by rw [htable]; decide)
  exact ⟨p, p', Path.of_check hp, htable, hstep, hgone, hother⟩

end Sponge
