import Mathlib.Algebra.BigOperators.Group.List.Basic
import Mathlib.Algebra.Order.Monoid.Defs

/-!
# Amortised cost

A single step may be expensive.  Where a potential pays for what a step costs beyond
the allowance of its action, a run costs no more than the allowances of its actions
and the potential that it begins with.
-/

namespace IndexDb

variable {S A M : Type} [AddCommMonoid M] {step : S → A → S → Prop} {cost : S → A → S → M}

/-- A run of the actions and what its steps cost together. -/
inductive Spends (step : S → A → S → Prop) (cost : S → A → S → M) :
    S → List A → M → S → Prop
  | nil (state : S) : Spends step cost state [] 0 state
  | cons {state middle final : S} {action : A} {actions : List A} {later : M}
      (first : step state action middle)
      (rest : Spends step cost middle actions later final) :
      Spends step cost state (action :: actions) (cost state action middle + later) final

/-- The potential pays for what a step costs beyond its allowance. -/
def Amortised [LE M] (step : S → A → S → Prop) (cost : S → A → S → M) (potential : S → M)
    (allowance : A → M) : Prop :=
  ∀ state action next, step state action next →
    cost state action next + potential next ≤ potential state + allowance action

/-- Amortised steps make amortised runs. -/
theorem Amortised.run [PartialOrder M] [IsOrderedAddMonoid M] {potential : S → M}
    {allowance : A → M} (amortised : Amortised step cost potential allowance)
    {state final : S} {actions : List A} {total : M}
    (spends : Spends step cost state actions total final) :
    total + potential final ≤ potential state + (actions.map allowance).sum := by
  induction spends with
  | nil state => rw [zero_add, List.map_nil, List.sum_nil, add_zero]
  | @cons state middle final action actions later first rest ih =>
      have paid := amortised state action middle first
      calc cost state action middle + later + potential final
          = cost state action middle + (later + potential final) := add_assoc _ _ _
        _ ≤ cost state action middle +
              (potential middle + (actions.map allowance).sum) := by gcongr
        _ = cost state action middle + potential middle +
              (actions.map allowance).sum := (add_assoc _ _ _).symm
        _ ≤ potential state + allowance action + (actions.map allowance).sum := by gcongr
        _ = potential state + ((action :: actions).map allowance).sum := by
            rw [List.map_cons, List.sum_cons, add_assoc]

end IndexDb
