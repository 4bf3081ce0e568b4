import Mathlib.Data.Option.Basic
import Mathlib.Order.Basic

/-!
# Runs of a partial step function

A component is a step function `step : σ → ε → Option σ` on its states, driven by events.
`none` says that the step has no defined behaviour.  Two views of a run are used:

* `run` computes the state after a list of events;
* `Path step adm s es t` is the proposition that `es` leads from `s` to `t`, every step being
  defined and admitted by `adm` (the assumptions on the environment and on the states reached).

Invariants are proved along paths (`Path.invariant`, `Path.monotone`), comparisons of two states
of one run, or of two components, along runs (`run_between`, `run_pair`, `run_map`).  That a goal
can be reached is proved with a measure (`Path.of_progress`), that one component does what another
one may do with a step by step comparison (`Path.simulation`, `Path.refinement`).  `Leads` puts such
a comparison together from parts that show nothing.
-/

namespace Transition

variable {σ τ ε : Type*}

/-- The state after the events `es`; `none` as soon as one step is undefined. -/
def run (step : σ → ε → Option σ) : σ → List ε → Option σ
  | s, [] => some s
  | s, e :: es => (step s e).bind (run step · es)

@[simp] theorem run_nil (step : σ → ε → Option σ) (s : σ) : run step s [] = some s := rfl

theorem run_cons (step : σ → ε → Option σ) (s : σ) (e : ε) (es : List ε) :
    run step s (e :: es) = (step s e).bind (run step · es) := rfl

theorem run_append (step : σ → ε → Option σ) (s : σ) (es fs : List ε) :
    run step s (es ++ fs) = (run step s es).bind (run step · fs) := by
  induction es generalizing s with
  | nil => rfl
  | cons e es ih =>
    simp only [List.cons_append, run_cons, Option.bind_assoc]
    congr 1
    funext t
    exact ih t

theorem run_concat (step : σ → ε → Option σ) (s : σ) (es : List ε) (e : ε) :
    run step s (es ++ [e]) = (run step s es).bind (step · e) := by
  rw [run_append]
  congr 1
  funext t
  simp [run_cons]

/-- If every allowed event is possible in every state with `I`, and keeps `I`, then every list of
allowed events has a run. -/
theorem run_total {step : σ → ε → Option σ} {I : σ → Prop} {ok : ε → Prop}
    (hstep : ∀ s e, I s → ok e → ∃ t, step s e = some t ∧ I t) (es : List ε)
    (hes : ∀ e ∈ es, ok e) : ∀ s, I s → ∃ t, run step s es = some t ∧ I t := by
  induction es with
  | nil =>
    intro s hs
    exact ⟨s, rfl, hs⟩
  | cons e es ih =>
    intro s hs
    obtain ⟨u, hu, hI⟩ := hstep s e hs (hes e (by simp))
    obtain ⟨t, ht, hI'⟩ := ih (fun e' he' => hes e' (by simp [he'])) u hI
    exact ⟨t, by rw [run_cons, hu, Option.bind_some, ht], hI'⟩

/-- A reflexive and transitive relation that every step of the run has, from a state with `I` on,
holds between any two states of the run from there on. -/
theorem run_between {step : σ → ε → Option σ} {s₀ : σ} {es : List ε} {I : σ → Prop}
    {R : σ → σ → Prop} (hrefl : ∀ s, R s s) (htrans : ∀ s t u, R s t → R t u → R s u)
    (hstep : ∀ pre e post s u, es = pre ++ e :: post → run step s₀ pre = some s → I s →
      step s e = some u → I u ∧ R s u) :
    ∀ mid pre post, es = pre ++ mid ++ post → ∀ s t, run step s₀ pre = some s → I s →
      run step s mid = some t → R s t := by
  intro mid
  induction mid with
  | nil =>
    intro pre post _ s t _ _ hmid
    obtain rfl : s = t := by simpa using hmid
    exact hrefl s
  | cons e mid ih =>
    intro pre post heq s t hpre hI hmid
    obtain ⟨u, hu, hrest⟩ := Option.bind_eq_some_iff.mp ((run_cons _ _ _ _).symm.trans hmid)
    obtain ⟨hIu, hR⟩ := hstep pre e (mid ++ post) s u (by simp [heq]) hpre hI hu
    have hpre' : run step s₀ (pre ++ [e]) = some u := by
      rw [run_concat, hpre, Option.bind_some, hu]
    exact htrans s u t hR (ih (pre ++ [e]) post (by simp [heq]) u t hpre' hIu hrest)

/-- Two components that move together on every allowed event, and stay related as long as the
first one is in states with `B`, have related runs. -/
theorem run_pair {step : σ → ε → Option σ} {step' : τ → ε → Option τ} {R : σ → τ → Prop}
    {B : σ → Prop} {ok : ε → Prop}
    (hstep : ∀ s t e, R s t → ok e →
      ∃ s' t', step s e = some s' ∧ step' t e = some t' ∧ (B s' → R s' t'))
    (es : List ε) (hes : ∀ e ∈ es, ok e) :
    ∀ s t, R s t → (∀ pre u, pre <+: es → run step s pre = some u → B u) →
      ∃ s' t', run step s es = some s' ∧ run step' t es = some t' ∧ R s' t' := by
  induction es with
  | nil =>
    intro s t h _
    exact ⟨s, t, rfl, rfl, h⟩
  | cons e es ih =>
    intro s t h hB
    obtain ⟨s₁, t₁, hs, ht, hR⟩ := hstep s t e h (hes e (by simp))
    have h₁ : R s₁ t₁ := hR (hB [e] s₁ ⟨es, rfl⟩ (by simp [run_cons, hs]))
    obtain ⟨s', t', hs', ht', h'⟩ := ih (fun e' he' => hes e' (by simp [he'])) s₁ t₁ h₁
      (fun pre u hpre hu => hB (e :: pre) u (by simpa using hpre) (by simp [run_cons, hs, hu]))
    exact ⟨s', t', by simp [run_cons, hs, hs'], by simp [run_cons, ht, ht'], h'⟩

/-- A renaming of states and events that every step respects is respected by runs. -/
theorem run_map {step : σ → ε → Option σ} (f : σ → σ) (g : ε → ε)
    (hstep : ∀ s e, step (f s) (g e) = (step s e).map f) (es : List ε) :
    ∀ s, run step (f s) (es.map g) = (run step s es).map f := by
  induction es with
  | nil => exact fun _ => rfl
  | cons e es ih =>
    intro s
    rw [List.map_cons, run_cons, run_cons, hstep]
    cases step s e with
    | none => rfl
    | some t => exact ih t

/-- Events that are not visible lead from `s` to a state with `Q`. -/
def Leads {ν : Type*} (step : σ → ε → Option σ) (vis : ε → Option ν) (s : σ) (Q : σ → Prop) :
    Prop :=
  ∃ es t, run step s es = some t ∧ es.filterMap vis = [] ∧ Q t

namespace Leads

variable {ν : Type*} {step : σ → ε → Option σ} {vis : ε → Option ν} {s t : σ} {Q Q' : σ → Prop}

theorem refl (h : Q s) : Leads step vis s Q := ⟨[], s, rfl, rfl, h⟩

theorem single {e : ε} (hs : step s e = some t) (hvis : vis e = none) (h : Q t) :
    Leads step vis s Q :=
  ⟨[e], t, by rw [run_cons, hs, Option.bind_some, run_nil],
    by rw [List.filterMap_cons_none hvis, List.filterMap_nil], h⟩

theorem trans (h : Leads step vis s Q) (h' : ∀ t, Q t → Leads step vis t Q') :
    Leads step vis s Q' := by
  obtain ⟨es, t, hrun, hvis, hQ⟩ := h
  obtain ⟨es', u, hrun', hvis', hQ'⟩ := h' t hQ
  exact ⟨es ++ es', u, by rw [run_append, hrun, Option.bind_some, hrun'],
    by rw [List.filterMap_append, hvis, hvis', List.nil_append], hQ'⟩

theorem imp (h : Leads step vis s Q) (h' : ∀ t, Q t → Q' t) : Leads step vis s Q' :=
  h.trans fun t ht => refl (h' t ht)

end Leads

/-- `es` leads from `s` to `t` through defined and admitted steps. -/
inductive Path (step : σ → ε → Option σ) (adm : σ → ε → σ → Prop) (s : σ) : List ε → σ → Prop
  | nil : Path step adm s [] s
  | snoc {es : List ε} {t u : σ} {e : ε} :
      Path step adm s es t → step t e = some u → adm t e u → Path step adm s (es ++ [e]) u

namespace Path

variable {step : σ → ε → Option σ} {adm : σ → ε → σ → Prop} {s t u : σ} {es fs : List ε}

theorem trans (h : Path step adm s es t) (h' : Path step adm t fs u) :
    Path step adm s (es ++ fs) u := by
  induction h' with
  | nil => simpa using h
  | snoc _ hs ha ih =>
    rw [← List.append_assoc]
    exact ih.snoc hs ha

theorem single {e : ε} (hs : step s e = some t) (ha : adm s e t) : Path step adm s [e] t := by
  simpa using (Path.nil : Path step adm s [] s).snoc hs ha

/-- A run is a path on which everything is admitted. -/
theorem of_run (h : run step s es = some t) : Path step (fun _ _ _ => True) s es t := by
  induction es generalizing s with
  | nil =>
    obtain rfl : s = t := Option.some.inj h
    exact Path.nil
  | cons e es ih =>
    obtain ⟨u, hu, hrest⟩ := Option.bind_eq_some_iff.mp ((run_cons _ _ _ _).symm.trans h)
    exact (Path.single hu trivial).trans (ih hrest)

theorem run_eq (h : Path step adm s es t) : run step s es = some t := by
  induction h with
  | nil => rfl
  | snoc _ hs _ ih => rw [run_concat, ih, Option.bind_some, hs]

/-- A property of the events so far and the state, true at the start and kept by every admitted
step, holds all along the path. -/
theorem invariant_events {I : List ε → σ → Prop} (h : Path step adm s es t) (h0 : I [] s)
    (hstep : ∀ es a e b, I es a → step a e = some b → adm a e b → I (es ++ [e]) b) : I es t := by
  induction h with
  | nil => exact h0
  | snoc _ hs ha ih => exact hstep _ _ _ _ ih hs ha

/-- A property of the start that every admitted step keeps holds all along the path. -/
theorem invariant {I : σ → Prop} (h : Path step adm s es t) (h0 : I s)
    (hstep : ∀ a e b, I a → step a e = some b → adm a e b → I b) : I t :=
  h.invariant_events (I := fun _ => I) h0 (fun _ => hstep)

/-- A quantity that no admitted step decreases, as long as the invariant `I` holds, is not
decreased by the whole path. -/
theorem monotone {β : Type*} [Preorder β] {I : σ → Prop} (f : σ → β)
    (h : Path step adm s es t) (h0 : I s)
    (hstep : ∀ a e b, I a → step a e = some b → adm a e b → I b ∧ f a ≤ f b) : f s ≤ f t := by
  have hboth : I t ∧ f s ≤ f t :=
    h.invariant (I := fun x => I x ∧ f s ≤ f x) ⟨h0, le_refl _⟩
      (fun a e b hI hs ha => ⟨(hstep a e b hI.1 hs ha).1, hI.2.trans (hstep a e b hI.1 hs ha).2⟩)
  exact hboth.2

/-- A renaming of states and events that every admitted step respects is respected by paths. -/
theorem map {δ : Type*} {step' : τ → δ → Option τ} {adm' : τ → δ → τ → Prop} (f : σ → τ)
    (g : ε → δ) (h : Path step adm s es t)
    (hstep : ∀ a e b, step a e = some b → adm a e b →
      step' (f a) (g e) = some (f b) ∧ adm' (f a) (g e) (f b)) :
    Path step' adm' (f s) (es.map g) (f t) := by
  induction h with
  | nil => exact Path.nil
  | snoc _ hs ha ih =>
    obtain ⟨hs', ha'⟩ := hstep _ _ _ hs ha
    rw [List.map_append]
    exact ih.snoc hs' ha'

/-- Forward simulation: if every admitted step from a state with `I` keeps `I` and is matched by a
path of the abstract component between the images of the two states, then so is every path. -/
theorem simulation {δ : Type*} {step' : τ → δ → Option τ} {adm' : τ → δ → τ → Prop} (f : σ → τ)
    {I : σ → Prop} (h : Path step adm s es t) (h0 : I s)
    (hstep : ∀ a e b, I a → step a e = some b → adm a e b →
      I b ∧ ∃ ds, Path step' adm' (f a) ds (f b)) :
    I t ∧ ∃ ds, Path step' adm' (f s) ds (f t) := by
  refine h.invariant (I := fun x => I x ∧ ∃ ds, Path step' adm' (f s) ds (f x))
    ⟨h0, [], Path.nil⟩ ?_
  rintro a e b ⟨hI, ds, hp⟩ hs ha
  obtain ⟨hI', ds', hp'⟩ := hstep a e b hI hs ha
  exact ⟨hI', ds ++ ds', hp.trans hp'⟩

/-- Refinement: if every admitted step between states related to abstract ones is matched by a run
of the abstract component that shows the same visible events, then so is every path. -/
theorem refinement {δ ν : Type*} {step' : τ → δ → Option τ} {R : σ → τ → Prop} (vis : ε → Option ν)
    (vis' : δ → Option ν) (h : Path step adm s es t) (s' : τ) (h0 : R s s')
    (hstep : ∀ a e b a', R a a' → step a e = some b → adm a e b →
      ∃ ds b', run step' a' ds = some b' ∧ R b b' ∧ ds.filterMap vis' = (vis e).toList) :
    ∃ ds t', run step' s' ds = some t' ∧ R t t' ∧ ds.filterMap vis' = es.filterMap vis := by
  refine h.invariant_events (I := fun es x => ∃ ds t', run step' s' ds = some t' ∧ R x t' ∧
    ds.filterMap vis' = es.filterMap vis) ⟨[], s', rfl, h0, rfl⟩ ?_
  rintro es a e b ⟨ds, a', hrun, hR, hvis⟩ hs ha
  obtain ⟨ds', b', hrun', hR', hvis'⟩ := hstep a e b a' hR hs ha
  refine ⟨ds ++ ds', b', ?_, hR', ?_⟩
  · rw [run_append, hrun, Option.bind_some, hrun']
  · rw [List.filterMap_append, List.filterMap_append, hvis, hvis']
    cases hv : vis e with
    | none => rw [List.filterMap_cons_none hv, List.filterMap_nil, Option.toList_none]
    | some v => rw [List.filterMap_cons_some hv, List.filterMap_nil, Option.toList_some]

/-- If from every state with `I` the goal is reached, or at most `k` admitted steps lead to a state
with `I` and a smaller measure, then at most `k` times the measure of steps lead to the goal. -/
theorem of_progress {I G : σ → Prop} {k : Nat} (m : σ → Nat)
    (hstep : ∀ s, I s → G s ∨ ∃ es t, Path step adm s es t ∧ I t ∧ m t < m s ∧ es.length ≤ k) :
    ∀ s, I s → ∃ es t, Path step adm s es t ∧ I t ∧ G t ∧ es.length ≤ k * m s := by
  intro s
  induction hn : m s using Nat.strongRecOn generalizing s with
  | ind n ih =>
    intro hs
    rcases hstep s hs with hG | ⟨es, t, hp, ht, hlt, hlen⟩
    · exact ⟨[], s, Path.nil, hs, hG, Nat.zero_le _⟩
    · obtain ⟨fs, u, hp', hu, hG, hlen'⟩ := ih (m t) (by omega) t rfl ht
      refine ⟨es ++ fs, u, hp.trans hp', hu, hG, ?_⟩
      have hmul : k * (m t + 1) ≤ k * n := Nat.mul_le_mul_left k (by omega)
      rw [List.length_append]
      rw [Nat.mul_add, Nat.mul_one] at hmul
      omega

end Path

/-- A property that every step keeps holds after every run. -/
theorem run_invariant {step : σ → ε → Option σ} {I : σ → Prop}
    (hstep : ∀ s e t, I s → step s e = some t → I t) {es : List ε} {s t : σ} (hs : I s)
    (h : run step s es = some t) : I t :=
  (Path.of_run h).invariant hs fun a e b ha hab _ => hstep a e b ha hab

/-- `run` that also checks every step against `adm`. -/
def check (step : σ → ε → Option σ) (adm : σ → ε → σ → Prop)
    [∀ s e t, Decidable (adm s e t)] : σ → List ε → Option σ
  | s, [] => some s
  | s, e :: es =>
    (step s e).bind fun t => if adm s e t then check step adm t es else none

/-- A checked run is a path. -/
theorem Path.of_check {step : σ → ε → Option σ} {adm : σ → ε → σ → Prop}
    [∀ s e t, Decidable (adm s e t)] {s t : σ} {es : List ε}
    (h : check step adm s es = some t) : Path step adm s es t := by
  induction es generalizing s with
  | nil =>
    obtain rfl : s = t := by simpa [check] using h
    exact Path.nil
  | cons e es ih =>
    simp only [check, Option.bind_eq_some_iff] at h
    obtain ⟨u, hu, hc⟩ := h
    by_cases ha : adm s e u
    · rw [if_pos ha] at hc
      exact (Path.single hu ha).trans (ih hc)
    · rw [if_neg ha] at hc
      cases hc

end Transition
