import Mathlib.Control.Basic

/-!
# Computations with faults and a ghost trace

A `Traced` computation either returns a value or stops with a fault, and in
both cases it leaves behind the list of ghost events noted on the way.  The
trace is never read by the computation.  It lets a theorem speak about what a
run did on the way to its value: a computation equal to `pure value` neither
faulted nor noted anything.
-/

namespace IndexDb

/-- A result or a fault, together with the events noted before it. -/
structure Traced (Fault Event α : Type) where
  result : Except Fault α
  trace : List Event

namespace Traced

variable {Fault Event α β γ : Type}

/-- Stop with a fault. -/
def fail (fault : Fault) : Traced Fault Event α :=
  ⟨.error fault, []⟩

/-- Record a ghost event. -/
def note (event : Event) : Traced Fault Event Unit :=
  ⟨.ok (), [event]⟩

/-- Continue after a result, and stop at a fault. -/
def andThen (computation : Traced Fault Event α)
    (next : α → Traced Fault Event β) : Traced Fault Event β :=
  match computation.result with
  | .error fault => ⟨.error fault, computation.trace⟩
  | .ok value =>
      ⟨(next value).result, computation.trace ++ (next value).trace⟩

instance : Monad (Traced Fault Event) where
  pure value := ⟨.ok value, []⟩
  bind := andThen

@[simp]
theorem pure_result (value : α) :
    (pure value : Traced Fault Event α).result = .ok value :=
  rfl

@[simp]
theorem pure_trace (value : α) :
    (pure value : Traced Fault Event α).trace = [] :=
  rfl

theorem bind_def (computation : Traced Fault Event α)
    (next : α → Traced Fault Event β) :
    computation >>= next = andThen computation next :=
  rfl

instance : LawfulMonad (Traced Fault Event) :=
  LawfulMonad.mk' _
    (by
      rintro α ⟨result, trace⟩
      cases result <;> simp [Functor.map, andThen])
    (by
      intro α β value next
      simp [bind_def, andThen])
    (by
      rintro α β γ ⟨result, trace⟩ next last
      cases result with
      | error fault => simp [bind_def, andThen]
      | ok value =>
          cases later : (next value).result <;>
            simp [bind_def, andThen, later])

/-- Two results agree exactly when values and traces do. -/
theorem pure_inj {first second : α} :
    (pure first : Traced Fault Event α) = pure second ↔ first = second := by
  constructor
  · intro equal
    simpa using congrArg Traced.result equal
  · rintro rfl
    rfl

/-- A bind returns exactly when both of its parts do. -/
theorem bind_result_eq_ok {computation : Traced Fault Event α}
    {next : α → Traced Fault Event β} {value : β} :
    (computation >>= next).result = .ok value ↔
      ∃ middle, computation.result = .ok middle ∧
        (next middle).result = .ok value := by
  rw [bind_def, andThen]
  cases computation.result <;> simp

/-- A bind is quiet with a value exactly when both of its parts are. -/
theorem bind_eq_pure {computation : Traced Fault Event α}
    {next : α → Traced Fault Event β} {value : β} :
    computation >>= next = pure value ↔
      ∃ middle, computation = pure middle ∧ next middle = pure value := by
  constructor
  · intro equal
    obtain ⟨result, trace⟩ := computation
    rw [bind_def, andThen] at equal
    cases result with
    | error fault => cases congrArg Traced.result equal
    | ok middle =>
        have returned := congrArg Traced.result equal
        obtain ⟨none, after⟩ := List.append_eq_nil_iff.mp (congrArg Traced.trace equal)
        cases none
        refine ⟨middle, rfl, ?_⟩
        cases later : next middle with
        | mk laterResult laterTrace =>
            simp only [later] at returned after
            rw [returned, after]
            rfl
  · rintro ⟨middle, rfl, after⟩
    rw [pure_bind, after]

/-- The event never occurs on the way to the result or the fault. -/
def Avoids (computation : Traced Fault Event α) (event : Event) : Prop :=
  event ∉ computation.trace

instance [DecidableEq Event] (computation : Traced Fault Event α)
    (event : Event) : Decidable (computation.Avoids event) :=
  inferInstanceAs (Decidable (event ∉ computation.trace))

@[simp]
theorem avoids_pure (value : α) (event : Event) :
    (pure value : Traced Fault Event α).Avoids event := by
  simp [Avoids]

/-- What a whole computation avoids, its first part avoids. -/
theorem Avoids.first {computation : Traced Fault Event α}
    {next : α → Traced Fault Event β} {event : Event}
    (avoids : (computation >>= next).Avoids event) :
    computation.Avoids event := by
  rw [bind_def, andThen] at avoids
  cases returned : computation.result with
  | error fault => simpa [returned, Avoids] using avoids
  | ok value =>
      simp only [returned, Avoids, List.mem_append, not_or] at avoids
      exact avoids.1

/-- The computation returns, and notes nothing on the way. -/
def Quiet (computation : Traced Fault Event α) : Prop :=
  (∃ value, computation.result = .ok value) ∧ computation.trace = []

theorem quiet_iff {computation : Traced Fault Event α} :
    computation.Quiet ↔ ∃ value, computation = pure value := by
  constructor
  · rintro ⟨⟨value, returned⟩, silent⟩
    obtain ⟨result, trace⟩ := computation
    cases returned
    cases silent
    exact ⟨value, rfl⟩
  · rintro ⟨value, rfl⟩
    exact ⟨⟨value, rfl⟩, rfl⟩

end Traced

end IndexDb
