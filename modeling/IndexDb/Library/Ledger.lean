import IndexDb.Library.Simulation
import Mathlib.Algebra.BigOperators.Group.List.Basic

/-!
# Balanced runs

A machine holds goods.  It takes some in with an action and hands some out with
the answer.  Where every single step balances, so does every run: what is held
at the end and was handed out on the way is what was held at the start and was
taken in.
-/

namespace IndexDb

variable {Fault Event S T A B M : Type} [AddCommMonoid M]

/-- No step with an allowed action loses or makes up anything. -/
def Balanced (allowed : A → Prop) (answer : T → A → B × T) (held : T → M)
    (taken : A → M) (handed : A → B → M) : Prop :=
  ∀ state action, allowed action →
    held (answer state action).2 + handed action (answer state action).1 =
      held state + taken action

/-- Balanced steps make balanced runs. -/
theorem Balanced.run {allowed : A → Prop} {answer : T → A → B × T}
    {answers : T → List A → List B × T} {held : T → M} {taken : A → M}
    {handed : A → B → M} (balanced : Balanced allowed answer held taken handed)
    (answerwise : Answerwise answer answers) (state : T) {actions : List A}
    (all : ∀ action ∈ actions, allowed action) :
    held (answers state actions).2 +
        (List.zipWith handed actions (answers state actions).1).sum =
      held state + (actions.map taken).sum := by
  induction actions generalizing state with
  | nil => rw [answerwise.nil, List.zipWith_nil_left, List.map_nil]
  | cons action actions ih =>
      obtain ⟨first, rest⟩ := List.forall_mem_cons.mp all
      have step := balanced state action first
      have later := ih (answer state action).2 rest
      rw [answerwise.cons, List.zipWith_cons_cons, List.map_cons, List.sum_cons,
        List.sum_cons, add_left_comm, later, ← add_assoc, ← add_assoc, ← step,
        add_comm (handed action _)]

end IndexDb
