import IndexDb.Library.Traced

/-!
# Panics, ghost events and the vector operations

A `usize` is a natural number: every length and position counts items that
live in memory.  What can go wrong in the source is explicit here.  An
out-of-range position, an underflowing subtraction, a division by zero and a
loop that never ends are faults.  A lossy `as u32` cast and the arms the source
writes for nodes that cannot occur go on as the source does, and leave a
ghost event behind.
-/

namespace IndexDb

/-- The panics of the source, and a loop or a recursion that never returns. -/
inductive Fault where
  | indexOutOfBounds
  | insertOutOfBounds
  | removeOutOfBounds
  | splitOutOfBounds
  | subtractionUnderflow
  | divisionByZero
  | diverges
  deriving DecidableEq, Repr

/-- The arms in which the source silently goes on with a node that has the
wrong kind or nothing to give. -/
inductive Fallback where
  | insertLeafOnInternal
  | absorbSplitOnLeaf
  | removeFromOnInternal
  | rebalanceOnLeafParent
  | rebalanceWithoutSibling
  | borrowOnLeafParent
  | borrowOnWrongKind
  | borrowOfNothing
  | mergeOnLeafParent
  | mergeOfMismatchedKinds
  | bulkLoadOfEmptyChunk
  deriving DecidableEq, Repr

/-- What a run notes without acting on it. -/
inductive Event where
  /-- An `as u32` cast dropped bits of its operand. -/
  | lossyCast
  /-- An arm written as unreachable was taken. -/
  | fallback (arm : Fallback)
  deriving DecidableEq, Repr

abbrev Run (α : Type) := Traced Fault Event α

/-- Every node id cast made on the way was exact. -/
abbrev Traced.Exact {α : Type} (run : Run α) : Prop :=
  run.Avoids .lossyCast

variable {α β : Type}

/-- Take an arm the source writes as unreachable. -/
def fallback (arm : Fallback) : Run Unit :=
  Traced.note (.fallback arm)

/-- `value as u32`, which keeps the low 32 bits. -/
def castU32 (value : Nat) : Run UInt32 :=
  if value < UInt32.size then
    pure (UInt32.ofNat value)
  else do
    Traced.note .lossyCast
    pure (UInt32.ofNat value)

/-- `a - b` on `usize`. -/
def checkedSub (a b : Nat) : Run Nat :=
  if b ≤ a then pure (a - b) else Traced.fail .subtractionUnderflow

/-- `a.div_ceil(b)` on `usize`. -/
def divCeil (a b : Nat) : Run Nat :=
  if b = 0 then Traced.fail .divisionByZero else pure ((a + b - 1) / b)

namespace Vec

/-- `xs[i]` -/
def get (xs : List α) (i : Nat) : Run α :=
  match xs[i]? with
  | some x => pure x
  | none => Traced.fail .indexOutOfBounds

/-- `xs[i] = x` -/
def set (xs : List α) (i : Nat) (x : α) : Run (List α) :=
  if i < xs.length then pure (xs.set i x) else Traced.fail .indexOutOfBounds

/-- `xs.insert(i, x)` -/
def insert (xs : List α) (i : Nat) (x : α) : Run (List α) :=
  if i ≤ xs.length then
    pure (xs.take i ++ x :: xs.drop i)
  else
    Traced.fail .insertOutOfBounds

/-- `xs.remove(i)`, with the vector that is left. -/
def remove (xs : List α) (i : Nat) : Run (α × List α) :=
  match xs[i]? with
  | some x => pure (x, xs.eraseIdx i)
  | none => Traced.fail .removeOutOfBounds

/-- `xs.split_off(i)`: what stays and what is split off. -/
def splitOff (xs : List α) (i : Nat) : Run (List α × List α) :=
  if i ≤ xs.length then
    pure (xs.take i, xs.drop i)
  else
    Traced.fail .splitOutOfBounds

/-- `xs.pop()`, with the vector that is left. -/
def pop (xs : List α) : Option α × List α :=
  (xs.getLast?, xs.dropLast)

@[simp]
theorem get_append (before after : List α) (x : α) :
    get (before ++ x :: after) before.length = pure x := by
  simp [get]

@[simp]
theorem get_zero (x : α) (xs : List α) : get (x :: xs) 0 = pure x :=
  rfl

theorem get_eq_pure {xs : List α} {i : Nat} {x : α} (lookup : xs[i]? = some x) :
    get xs i = pure x := by
  simp [get, lookup]

theorem get_eq_pure_iff {xs : List α} {i : Nat} {x : α} :
    get xs i = pure x ↔ xs[i]? = some x := by
  refine ⟨fun got => ?_, get_eq_pure⟩
  rw [get] at got
  cases lookup : xs[i]? with
  | none => cases congrArg Traced.result (lookup ▸ got)
  | some found =>
      rw [lookup] at got
      exact congrArg some (Traced.pure_inj.mp got)

theorem set_eq_pure {xs : List α} {i : Nat} {old : α} (lookup : xs[i]? = some old)
    (x : α) : set xs i x = pure (xs.set i x) :=
  if_pos (List.getElem?_eq_some_iff.mp lookup).1

@[simp]
theorem set_append (before after : List α) (x y : α) :
    set (before ++ x :: after) before.length y =
      pure (before ++ y :: after) := by
  simp [set]

@[simp]
theorem insert_append (before after : List α) (x : α) :
    insert (before ++ after) before.length x =
      pure (before ++ x :: after) := by
  simp [insert]

@[simp]
theorem insert_zero (xs : List α) (x : α) : insert xs 0 x = pure (x :: xs) := by
  simp [insert]

@[simp]
theorem remove_append (before after : List α) (x : α) :
    remove (before ++ x :: after) before.length =
      pure (x, before ++ after) := by
  simp [remove, List.eraseIdx_append_of_length_le]

@[simp]
theorem remove_zero (x : α) (xs : List α) :
    remove (x :: xs) 0 = pure (x, xs) :=
  rfl

theorem splitOff_of_le {xs : List α} {i : Nat} (inside : i ≤ xs.length) :
    splitOff xs i = pure (xs.take i, xs.drop i) := by
  simp [splitOff, inside]

@[simp]
theorem pop_concat (xs : List α) (x : α) : pop (xs ++ [x]) = (some x, xs) := by
  simp [pop]

end Vec

theorem castU32_of_lt {value : Nat} (fits : value < UInt32.size) :
    castU32 value = pure (UInt32.ofNat value) := by
  simp [castU32, fits]

/-- The cast is exact precisely below `2 ^ 32`. -/
theorem castU32_exact {value : Nat} :
    (castU32 value).Exact ↔ value < UInt32.size := by
  constructor
  · intro isExact
    refine Decidable.byContradiction fun tooLarge => ?_
    simp only [castU32, if_neg tooLarge] at isExact
    exact isExact.first (by simp [Traced.note])
  · intro fits
    rw [castU32_of_lt fits]
    exact Traced.avoids_pure _ _

theorem checkedSub_of_le {a b : Nat} (le : b ≤ a) :
    checkedSub a b = pure (a - b) := by
  simp [checkedSub, le]

end IndexDb
