import Sponge.Lib.Path

/-!
# Infinite runs

`Endless step adm s` is a run from `s` that never stops: a state and an event for every index.
What the environment owes to such a run is said with `Often`, "again and again"; a quantity that
never grows is constant from some index on (`settles`).
-/

namespace Transition

variable {σ ε : Type*}

/-- Again and again. -/
def Often (P : Nat → Prop) : Prop := ∀ i, ∃ j, i ≤ j ∧ P j

/-- What happens again and again in the rest of a run happens again and again in the run. -/
theorem often_of_shift {P : Nat → Prop} (k : Nat) (h : Often (fun i => P (k + i))) : Often P := by
  intro i
  obtain ⟨j, hj, hP⟩ := h i
  exact ⟨k + j, by omega, hP⟩

/-- A quantity that does not grow from `k` on is constant from some later index on. -/
theorem settles {f : Nat → Nat} {k : Nat} (h : ∀ i, k ≤ i → f (i + 1) ≤ f i) :
    ∃ i, k ≤ i ∧ ∀ j, i ≤ j → f j = f i := by
  induction hn : f k using Nat.strongRecOn generalizing k with
  | ind n ih =>
    by_cases hless : ∃ j, k ≤ j ∧ f j < n
    · obtain ⟨j, hj, hlt⟩ := hless
      obtain ⟨i, hi, hconst⟩ := ih (f j) hlt (fun i hi => h i (by omega)) rfl
      exact ⟨i, by omega, hconst⟩
    · refine ⟨k, Nat.le_refl k, fun j hj => ?_⟩
      have hge : n ≤ f j := Nat.not_lt.mp fun hlt => hless ⟨j, hj, hlt⟩
      have hle : f j ≤ f k := by
        clear hge
        induction hj with
        | refl => exact Nat.le_refl _
        | step hj ihj => exact Nat.le_trans (h _ hj) ihj
      omega

/-- A run without end: every step is defined and admitted. -/
structure Endless (step : σ → ε → Option σ) (adm : σ → ε → σ → Prop) (s : σ) where
  state : Nat → σ
  event : Nat → ε
  start : state 0 = s
  next : ∀ i, step (state i) (event i) = some (state (i + 1))
  admitted : ∀ i, adm (state i) (event i) (state (i + 1))

namespace Endless

variable {step : σ → ε → Option σ} {adm : σ → ε → σ → Prop} {s t : σ}

/-- A property of the start that every admitted step keeps holds forever. -/
theorem invariant {I : σ → Prop} (r : Endless step adm s) (h0 : I s)
    (hstep : ∀ a e b, I a → step a e = some b → adm a e b → I b) (i : Nat) : I (r.state i) := by
  induction i with
  | zero =>
    rw [r.start]
    exact h0
  | succ i ih => exact hstep _ _ _ ih (r.next i) (r.admitted i)

/-- A reflexive and transitive relation between the two states of every step holds between any
state and every later one. -/
theorem between {R : σ → σ → Prop} (r : Endless step adm s) (hrefl : ∀ a, R a a)
    (htrans : ∀ a b c, R a b → R b c → R a c) (hstep : ∀ i, R (r.state i) (r.state (i + 1)))
    {i j : Nat} (hij : i ≤ j) : R (r.state i) (r.state j) := by
  induction hij with
  | refl => exact hrefl _
  | step _ ih => exact htrans _ _ _ ih (hstep _)

/-- A first step and then the run. -/
def cons {e : ε} (hs : step s e = some t) (ha : adm s e t) (r : Endless step adm t) :
    Endless step adm s where
  state
    | 0 => s
    | i + 1 => r.state i
  event
    | 0 => e
    | i + 1 => r.event i
  start := rfl
  next
    | 0 => hs.trans (congrArg some r.start.symm)
    | i + 1 => r.next i
  admitted
    | 0 => show adm s e (r.state 0) from r.start.symm ▸ ha
    | i + 1 => r.admitted i

/-- A path and then the run. -/
theorem exists_of_path {es : List ε} (h : Path step adm s es t) : ∀ r : Endless step adm t,
    ∃ r' : Endless step adm s, (∀ i e, es[i]? = some e → r'.event i = e) ∧
      ∀ i, r'.state (es.length + i) = r.state i ∧ r'.event (es.length + i) = r.event i := by
  induction h with
  | nil => exact fun r => ⟨r, by simp, fun i => by simp⟩
  | @snoc es u t e _ hs ha ih =>
    intro r
    obtain ⟨r', hfirst, hrest⟩ := ih (r.cons hs ha)
    refine ⟨r', fun i e' he => ?_, fun i => ?_⟩
    · rcases Nat.lt_or_ge i es.length with hlt | hge
      · rw [List.getElem?_append_left hlt] at he
        exact hfirst i e' he
      · obtain ⟨hlen, -⟩ := List.getElem?_eq_some_iff.mp he
        obtain rfl : i = es.length := by
          rw [List.length_append, List.length_singleton] at hlen
          omega
        rw [List.getElem?_concat_length] at he
        exact ((hrest 0).2).trans (Option.some.inj he)
    · rw [List.length_append, List.length_singleton, Nat.add_assoc, Nat.add_comm 1 i]
      exact hrest (i + 1)

/-- Events that change nothing. -/
def idle (event : Nat → ε) (h : ∀ i, step s (event i) = some s ∧ adm s (event i) s) :
    Endless step adm s where
  state := fun _ => s
  event := event
  start := rfl
  next := fun i => (h i).1
  admitted := fun i => (h i).2

end Endless

end Transition
