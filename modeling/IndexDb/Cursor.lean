import IndexDb.Store

/-!
# Cursors and iterators

A cursor is a path of internal nodes from the root down to a leaf, and an
index within that leaf.  An iterator holds one cursor for each end of the
entries it has not yielded yet.
-/

namespace IndexDb

/-- One end of a range. -/
inductive Bound (K : Type) where
  | unbounded
  | included (key : K)
  | excluded (key : K)
  deriving DecidableEq, Repr

variable {K V : Type}

/-- An internal node on the way down, and the index of the child taken. -/
abbrev Frame (K : Type) := Internal K NodeId × Nat

/-- A borrowed leaf: where it lives, and what it holds. -/
structure LeafRef (K V : Type) where
  address : NodeId
  leaf : Leaf K V
  deriving DecidableEq

/-- The path is a stack: the frame pushed last, the leaf's parent, comes
first. -/
structure Cursor (K V : Type) where
  store : InMemoryStore K V
  path : List (Frame K)
  leaf : LeafRef K V
  idx : Nat
  deriving DecidableEq

namespace Cursor

def current (cursor : Cursor K V) : Run (K × V) := do
  let key ← Vec.get cursor.leaf.leaf.keys cursor.idx
  let value ← Vec.get cursor.leaf.leaf.vals cursor.idx
  pure (key, value)

def key (cursor : Cursor K V) : Run K :=
  Vec.get cursor.leaf.leaf.keys cursor.idx

/-- Leaves are compared by address. -/
def samePosition (cursor other : Cursor K V) : Bool :=
  cursor.leaf.address = other.leaf.address && cursor.idx = other.idx

/-- The loop behind every descent: push a frame for each internal node, take
the child `choose` picks, and stop at a leaf. -/
def descend (choose : Internal K NodeId → Run Nat) :
    Nat → InMemoryStore K V → List (Frame K) → NodeId →
      Run (List (Frame K) × LeafRef K V)
  | 0, _, _, _ => Traced.fail .diverges
  | fuel + 1, store, path, id => do
      match ← NodeStore.get store id with
      | .internal internal =>
          let ci ← choose internal
          let child ← Vec.get internal.children ci
          descend choose fuel store ((internal, ci) :: path) child
      | .leaf leaf => pure (path, { address := id, leaf })

def leftmostChild (_ : Internal K NodeId) : Run Nat :=
  pure 0

def rightmostChild (internal : Internal K NodeId) : Run Nat :=
  checkedSub internal.children.length 1

/-- No descent visits more nodes than the slab has slots. -/
def fuel (store : InMemoryStore K V) : Nat :=
  store.slab.length

def first (store : InMemoryStore K V) (root : NodeId) :
    Run (Option (Cursor K V)) := do
  let (path, leaf) ← descend leftmostChild (fuel store) store [] root
  if leaf.leaf.keys.isEmpty then
    pure none
  else
    pure (some { store, path, leaf, idx := 0 })

def last (store : InMemoryStore K V) (root : NodeId) :
    Run (Option (Cursor K V)) := do
  let (path, leaf) ← descend rightmostChild (fuel store) store [] root
  if leaf.leaf.keys.isEmpty then
    pure none
  else
    let idx ← checkedSub leaf.leaf.keys.length 1
    pure (some { store, path, leaf, idx })

/-- Descend `node`'s leftmost path and land on its first entry. -/
def descendLeftmost (cursor : Cursor K V) (node : NodeId) :
    Run (Cursor K V) := do
  let (path, leaf) ←
    descend leftmostChild (fuel cursor.store) cursor.store cursor.path node
  pure { cursor with path, leaf, idx := 0 }

/-- Descend `node`'s rightmost path and land on its last entry. -/
def descendRightmost (cursor : Cursor K V) (node : NodeId) :
    Run (Cursor K V) := do
  let (path, leaf) ←
    descend rightmostChild (fuel cursor.store) cursor.store cursor.path node
  let idx ← checkedSub leaf.leaf.keys.length 1
  pure { cursor with path, leaf, idx }

/-- The loop of `stepForward`: pop the frames that have no next child. -/
def ascendForward (cursor : Cursor K V) :
    List (Frame K) → Run (Bool × Cursor K V)
  | [] => pure (false, { cursor with path := [] })
  | (parent, ci) :: path =>
      if ci + 1 < parent.children.length then do
        let child ← Vec.get parent.children (ci + 1)
        let cursor ← descendLeftmost
          { cursor with path := (parent, ci + 1) :: path } child
        pure (true, cursor)
      else
        ascendForward cursor path

/-- Advance to the next entry; `false` at the end. -/
def stepForward (cursor : Cursor K V) : Run (Bool × Cursor K V) :=
  if cursor.idx + 1 < cursor.leaf.leaf.keys.length then
    pure (true, { cursor with idx := cursor.idx + 1 })
  else
    ascendForward cursor cursor.path

/-- The loop of `stepBackward`: pop the frames that have no previous child. -/
def ascendBackward (cursor : Cursor K V) :
    List (Frame K) → Run (Bool × Cursor K V)
  | [] => pure (false, { cursor with path := [] })
  | (parent, ci) :: path =>
      if ci > 0 then do
        let ci ← checkedSub ci 1
        let child ← Vec.get parent.children ci
        let cursor ← descendRightmost
          { cursor with path := (parent, ci) :: path } child
        pure (true, cursor)
      else
        ascendBackward cursor path

/-- Retreat to the previous entry; `false` at the start. -/
def stepBackward (cursor : Cursor K V) : Run (Bool × Cursor K V) :=
  if cursor.idx > 0 then do
    let idx ← checkedSub cursor.idx 1
    pure (true, { cursor with idx })
  else
    ascendBackward cursor cursor.path

section Bounds

variable [LT K] [DecidableLT K]

/-- The path to the leaf whose key range covers `probe`, and that leaf. -/
def descendTo (store : InMemoryStore K V) (root : NodeId) (probe : K) :
    Run (List (Frame K) × LeafRef K V) :=
  descend (fun internal => pure (internal.childIndex probe))
    (fuel store) store [] root

/-- The index that `lowerBound` takes in a leaf: `skip` tells whether a found
entry is skipped. -/
def lowerIndex (keys : List K) (probe : K) (skip : Bool) : Nat :=
  match binarySearch keys probe with
  | .ok i => if skip then i + 1 else i
  | .error i => i

/-- The part of `lowerBound` after its descent. -/
def lowerBoundAt (store : InMemoryStore K V) (root : NodeId) (probe : K)
    (skip : Bool) : Run (Option (Cursor K V)) := do
  let (path, leaf) ← descendTo store root probe
  if leaf.leaf.keys.isEmpty then
    pure none
  else
    let idx := lowerIndex leaf.leaf.keys probe skip
    let lastIdx ← checkedSub leaf.leaf.keys.length 1
    let cursor : Cursor K V := { store, path, leaf, idx := lastIdx }
    if idx < leaf.leaf.keys.length then
      pure (some { cursor with idx })
    else
      let (stepped, cursor) ← stepForward cursor
      pure (if stepped then some cursor else none)

/-- A cursor at the first entry satisfying the lower bound. -/
def lowerBound (store : InMemoryStore K V) (root : NodeId) :
    Bound K → Run (Option (Cursor K V))
  | .unbounded => first store root
  | .included probe => lowerBoundAt store root probe false
  | .excluded probe => lowerBoundAt store root probe true

/-- `i.checked_sub(1)` -/
def previous (i : Nat) : Option Nat :=
  if i = 0 then none else some (i - 1)

/-- The index that `upperBound` takes in a leaf, if any. -/
def upperIndex (keys : List K) (probe : K) (skip : Bool) : Option Nat :=
  match binarySearch keys probe with
  | .ok i => if skip then previous i else some i
  | .error i => previous i

/-- The part of `upperBound` after its descent. -/
def upperBoundAt (store : InMemoryStore K V) (root : NodeId) (probe : K)
    (skip : Bool) : Run (Option (Cursor K V)) := do
  let (path, leaf) ← descendTo store root probe
  if leaf.leaf.keys.isEmpty then
    pure none
  else
    let cursor : Cursor K V := { store, path, leaf, idx := 0 }
    match upperIndex leaf.leaf.keys probe skip with
    | some idx => pure (some { cursor with idx })
    | none =>
        let (stepped, cursor) ← stepBackward cursor
        pure (if stepped then some cursor else none)

/-- A cursor at the last entry satisfying the upper bound. -/
def upperBound (store : InMemoryStore K V) (root : NodeId) :
    Bound K → Run (Option (Cursor K V))
  | .unbounded => last store root
  | .included probe => upperBoundAt store root probe false
  | .excluded probe => upperBoundAt store root probe true

end Bounds

end Cursor

/-- Cursors at the first and the last entry not yet yielded. -/
structure Span (K V : Type) where
  front : Cursor K V
  back : Cursor K V
  deriving DecidableEq

structure Iter (K V : Type) where
  span : Option (Span K V)
  deriving DecidableEq

namespace Iter

def full (store : InMemoryStore K V) (root : NodeId) : Run (Iter K V) := do
  let front ← Cursor.first store root
  let back ← Cursor.last store root
  match front, back with
  | some front, some back => pure { span := some { front, back } }
  | _, _ => pure { span := none }

def range [LE K] [DecidableLE K] [LT K] [DecidableLT K]
    (store : InMemoryStore K V) (root : NodeId) (lower upper : Bound K) :
    Run (Iter K V) := do
  let front ← Cursor.lowerBound store root lower
  let back ← Cursor.upperBound store root upper
  match front, back with
  | some front, some back => do
      let frontKey ← front.key
      let backKey ← back.key
      if frontKey ≤ backKey then
        pure { span := some { front, back } }
      else
        pure { span := none }
  | _, _ => pure { span := none }

/-- The body of `next`, with the boolean `_advanced` if it steps. -/
def advance (iter : Iter K V) : Run (Option (K × V) × Iter K V × Option Bool) := do
  match iter.span with
  | none => pure (none, iter, none)
  | some span =>
      let out ← span.front.current
      if span.front.samePosition span.back then
        pure (some out, { span := none }, none)
      else
        let (advanced, front) ← span.front.stepForward
        pure (some out, { span := some { span with front } }, some advanced)

def next (iter : Iter K V) : Run (Option (K × V) × Iter K V) := do
  let (out, iter, _) ← iter.advance
  pure (out, iter)

/-- The body of `nextBack`, with the boolean `_retreated` if it steps. -/
def retreat (iter : Iter K V) : Run (Option (K × V) × Iter K V × Option Bool) := do
  match iter.span with
  | none => pure (none, iter, none)
  | some span =>
      let out ← span.back.current
      if span.front.samePosition span.back then
        pure (some out, { span := none }, none)
      else
        let (retreated, back) ← span.back.stepBackward
        pure (some out, { span := some { span with back } }, some retreated)

def nextBack (iter : Iter K V) : Run (Option (K × V) × Iter K V) := do
  let (out, iter, _) ← iter.retreat
  pure (out, iter)

end Iter

end IndexDb
