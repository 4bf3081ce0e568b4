import Mathlib.Tactic.Common

/-!
# Pre- and postconditions

Computations with a state and exceptions, where an exception leaves the state as it was when it was
thrown.  `Meets P m Q R` is total correctness: from every state with `P` the computation `m` either
returns, and then `Q` holds of its result and the state, or throws, and then `R` holds of the
exception and the state.
-/

namespace Triple

variable {ε σ α β : Type}

def Meets (P : σ → Prop) (m : EStateM ε σ α) (Q : α → σ → Prop) (R : ε → σ → Prop) : Prop :=
  ∀ s, P s → match m s with
    | .ok a t => Q a t
    | .error e t => R e t

/-- A result or an exception, which is thrown as `raise` says. -/
def ofExcept {ε' : Type} (raise : ε' → ε) : Except ε' α → EStateM ε σ α
  | .ok a => pure a
  | .error e => throw (raise e)

namespace Meets

variable {P P' : σ → Prop} {m : EStateM ε σ α} {Q Q' : α → σ → Prop} {R R' : ε → σ → Prop}
  {T : β → σ → Prop}

theorem bind {f : α → EStateM ε σ β} (hm : Meets P m Q R) (hf : ∀ a, Meets (Q a) (f a) T R) :
    Meets P (m >>= f) T R := by
  intro s hs
  have hm := hm s hs
  change match EStateM.bind m f s with
    | .ok a t => T a t
    | .error e t => R e t
  unfold EStateM.bind
  cases hrun : m s with
  | ok a t =>
    rw [hrun] at hm
    exact hf a t hm
  | error e t =>
    rw [hrun] at hm
    exact hm

theorem modify {g : σ → σ} {Q : PUnit → σ → Prop} (h : ∀ s, P s → Q ⟨⟩ (g s)) :
    Meets P (modify g : EStateM ε σ PUnit) Q R := h

end Meets

end Triple
