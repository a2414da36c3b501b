import IndexDb.Library.Traced

/-!
# Runs of steps

A machine takes one step for each action of a list, and collects what the
steps return.  Where every step does what a pure step does on a related state,
every run does what the pure run does.
-/

namespace IndexDb

variable {Fault Event S T A B : Type}

/-- The run takes one step for each action, in order. -/
structure Stepwise (step : S → A → Traced Fault Event (B × S))
    (runs : S → List A → Traced Fault Event (List B × S)) : Prop where
  nil : ∀ state, runs state [] = pure ([], state)
  cons : ∀ state action actions, runs state (action :: actions) = do
    let (reply, state) ← step state action
    let (replies, state) ← runs state actions
    pure (reply :: replies, state)

/-- The pure run gives one answer for each action, in order. -/
structure Answerwise (answer : T → A → B × T)
    (answers : T → List A → List B × T) : Prop where
  nil : ∀ state, answers state [] = ([], state)
  cons : ∀ state action actions, answers state (action :: actions) =
    ((answer state action).1 :: (answers (answer state action).2 actions).1,
      (answers (answer state action).2 actions).2)

/-- A step that avoids the events returns the answer of a related state, and
leaves related states. -/
def Simulates (avoided : List Event) (related : S → T → Prop)
    (step : S → A → Traced Fault Event (B × S)) (answer : T → A → B × T) : Prop :=
  ∀ state value action, related state value →
    (∀ event ∈ avoided, (step state action).Avoids event) →
    ∃ next, step state action = pure ((answer value action).1, next) ∧
      related next (answer value action).2

variable {avoided : List Event} {related : S → T → Prop}
  {step : S → A → Traced Fault Event (B × S)}
  {runs : S → List A → Traced Fault Event (List B × S)}
  {answer : T → A → B × T} {answers : T → List A → List B × T}

/-- The last action of a run is a step from where the others lead. -/
theorem Stepwise.concat (stepwise : Stepwise step runs) (state : S) (actions : List A)
    (action : A) : runs state (actions ++ [action]) = (do
      let (replies, state) ← runs state actions
      let (reply, state) ← step state action
      pure (replies ++ [reply], state)) := by
  induction actions generalizing state with
  | nil =>
      simp only [List.nil_append, stepwise.cons, stepwise.nil, pure_bind]
  | cons first actions ih =>
      simp only [List.cons_append, stepwise.cons, ih, bind_assoc, pure_bind]

theorem Stepwise.append (stepwise : Stepwise step runs) (state : S)
    (first second : List A) : runs state (first ++ second) = (do
      let (replies, state) ← runs state first
      let (others, state) ← runs state second
      pure (replies ++ others, state)) := by
  induction first generalizing state with
  | nil =>
      simp only [List.nil_append, stepwise.nil, pure_bind]
      exact (bind_pure _).symm
  | cons action first ih =>
      simp only [List.cons_append, stepwise.cons, ih, bind_assoc, pure_bind]

theorem Answerwise.concat (answerwise : Answerwise answer answers) (state : T)
    (actions : List A) (action : A) :
    (answers state (actions ++ [action])).2 = (answer (answers state actions).2 action).2 := by
  induction actions generalizing state with
  | nil => simp only [List.nil_append, answerwise.cons, answerwise.nil]
  | cons first actions ih => simp only [List.cons_append, answerwise.cons, ih]

/-- Steps that simulate pure steps make runs that simulate pure runs. -/
theorem Simulates.run (simulates : Simulates avoided related step answer)
    (stepwise : Stepwise step runs) (answerwise : Answerwise answer answers)
    {state : S} {value : T} (actions : List A) (start : related state value)
    (avoids : ∀ event ∈ avoided, (runs state actions).Avoids event) :
    ∃ next, runs state actions = pure ((answers value actions).1, next) ∧
      related next (answers value actions).2 := by
  induction actions generalizing state value with
  | nil =>
      rw [stepwise.nil, answerwise.nil]
      exact ⟨state, rfl, start⟩
  | cons action actions ih =>
      rw [stepwise.cons] at avoids ⊢
      rw [answerwise.cons]
      obtain ⟨middle, stepped, middleRelated⟩ := simulates state value action start
        fun event member => (avoids event member).first
      rw [stepped, pure_bind] at avoids ⊢
      dsimp only at avoids ⊢
      obtain ⟨next, finished, nextRelated⟩ := ih middleRelated
        fun event member => (avoids event member).first
      refine ⟨next, ?_, nextRelated⟩
      rw [finished, pure_bind]

end IndexDb
