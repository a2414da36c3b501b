import IndexDb.Store

/-!
# The B+tree algorithm over a store

Search, insertion, deletion and bulk loading speak only ids and a store.  A
descent takes one unit of fuel for each node it visits, and a descent that
runs out of fuel is a fault.
-/

namespace IndexDb

/-- Outcome of inserting into a subtree. -/
inductive Insert (Id K V : Type) where
  | replaced (old : V)
  | done
  | split (sep : K) (right : Id)
  deriving DecidableEq, Repr

namespace Ops

variable {S Id K V : Type} [NodeStore S Id K V]

section Search

variable [LT K] [DecidableLT K]

def get : Nat → S → Id → K → Run (Option V)
  | 0, _, _, _ => Traced.fail .diverges
  | fuel + 1, store, id, key => do
      match ← NodeStore.get store id with
      | .leaf leaf => leaf.get key
      | .internal internal =>
          let child ← Vec.get internal.children (internal.childIndex key)
          get fuel store child key

end Search

section Insertion

variable [LT K] [DecidableLT K]

/-- Insert into the leaf at `id`, splitting it if the entry overflows `order`.
The right half's first key is copied up as the separator. -/
def insertLeaf (store : S) (id : Id) (key : K) (value : V) (order : Nat) :
    Run (Insert Id K V × S) := do
  match ← NodeStore.getMut store id with
  | (.leaf leaf, write) =>
      match binarySearch leaf.keys key with
      | .ok i =>
          let old ← Vec.get leaf.vals i
          let vals ← Vec.set leaf.vals i value
          pure (.replaced old, write (.leaf { leaf with vals }))
      | .error i =>
          let keys ← Vec.insert leaf.keys i key
          let vals ← Vec.insert leaf.vals i value
          if keys.length < order then
            pure (.done, write (.leaf { keys, vals }))
          else
            let mid := keys.length / 2
            let (keys, rightKeys) ← Vec.splitOff keys mid
            let (vals, rightVals) ← Vec.splitOff vals mid
            let sep ← Vec.get rightKeys 0
            let store := write (.leaf { keys, vals })
            let (right, store) ← NodeStore.alloc store
              (.leaf { keys := rightKeys, vals := rightVals })
            pure (.split sep right, store)
  | (.internal _, _) =>
      fallback .insertLeafOnInternal
      pure (.done, store)

/-- Link a child's new right sibling after it, splitting this node if that
overflows `order`.  The median separator moves up. -/
def absorbSplit (store : S) (id : Id) (idx : Nat) (sep : K) (right : Id)
    (order : Nat) : Run (Insert Id K V × S) := do
  match ← NodeStore.getMut store id with
  | (.internal internal, write) =>
      let keys ← Vec.insert internal.keys idx sep
      let children ← Vec.insert internal.children (idx + 1) right
      if keys.length < order then
        pure (.done, write (.internal { keys, children }))
      else
        let mid := keys.length / 2
        let (children, rightChildren) ← Vec.splitOff children (mid + 1)
        let (keys, rightKeys) ← Vec.splitOff keys (mid + 1)
        let (sep, keys) ← Vec.remove keys mid
        let store := write (.internal { keys, children })
        let (right, store) ← NodeStore.alloc store
          (.internal { keys := rightKeys, children := rightChildren })
        pure (.split sep right, store)
  | (.leaf _, _) =>
      fallback .absorbSplitOnLeaf
      pure (.done, store)

def insertInto : Nat → S → Id → K → V → Nat → Run (Insert Id K V × S)
  | 0, _, _, _, _, _ => Traced.fail .diverges
  | fuel + 1, store, id, key, value, order => do
      match ← NodeStore.get store id with
      | .internal internal =>
          let idx := internal.childIndex key
          let child ← Vec.get internal.children idx
          match ← insertInto fuel store child key value order with
          | (.split sep right, store) =>
              absorbSplit store id idx sep right order
          | settled => pure settled
      | .leaf _ => insertLeaf store id key value order

/-- The displaced value, and the root: a new one when the old root split. -/
def insert (fuel : Nat) (store : S) (root : Id) (key : K) (value : V)
    (order : Nat) : Run (Option V × Id × S) := do
  match ← insertInto fuel store root key value order with
  | (.replaced old, store) => pure (some old, root, store)
  | (.done, store) => pure (none, root, store)
  | (.split sep right, store) =>
      let (newRoot, store) ← NodeStore.alloc store
        (.internal { keys := [sep], children := [root, right] })
      pure (none, newRoot, store)

end Insertion

section Deletion

/-- The root's only child takes its place when the root has lost all its
separators. -/
def collapseRoot (store : S) (root : Id) : Run (Id × S) := do
  match ← NodeStore.get store root with
  | .internal internal =>
      if internal.children.length = 1 then
        let child ← Vec.get internal.children 0
        let (_, store) ← NodeStore.reclaim store root
        pure (child, store)
      else
        pure (root, store)
  | .leaf _ => pure (root, store)

/-- `keys[idx - back] = sep` in the internal node at `parent`. -/
def writeSeparator (store : S) (parent : Id) (idx back : Nat) (sep : K) :
    Run S := do
  match ← NodeStore.getMut store parent with
  | (.internal node, write) =>
      let i ← checkedSub idx back
      let keys ← Vec.set node.keys i sep
      pure (write (.internal { node with keys }))
  | (.leaf _, _) =>
      fallback .borrowOnLeafParent
      pure store

/-- `keys[idx - back]` in the internal node at `parent`. -/
def readSeparator (store : S) (parent : Id) (idx back : Nat) :
    Run (Option K) := do
  match ← NodeStore.get store parent with
  | .internal node =>
      let i ← checkedSub idx back
      let sep ← Vec.get node.keys i
      pure (some sep)
  | .leaf _ =>
      fallback .borrowOnLeafParent
      pure none

/-- Move one entry, or one child, from the left sibling to the front of the
child, and rotate the separator between them. -/
def borrowFromLeft (store : S) (parent : Id) (idx : Nat) (left child : Id) :
    Run S := do
  let childNode ← NodeStore.get store child
  if childNode.asLeaf.isSome then
    let (moved, store) ← do
      match ← NodeStore.getMut store left with
      | (.leaf node, write) =>
          let (key, keys) := Vec.pop node.keys
          let (value, vals) := Vec.pop node.vals
          let store := write (.leaf { keys, vals })
          match key, value with
          | some key, some value => pure (some (key, value), store)
          | _, _ => pure (none, store)
      | (.internal _, _) =>
          fallback .borrowOnWrongKind
          pure (none, store)
    match moved with
    | some (key, value) =>
        let store ← do
          match ← NodeStore.getMut store child with
          | (.leaf node, write) =>
              let keys ← Vec.insert node.keys 0 key
              let vals ← Vec.insert node.vals 0 value
              pure (write (.leaf { keys, vals }))
          | (.internal _, _) =>
              fallback .borrowOnWrongKind
              pure store
        writeSeparator store parent idx 1 key
    | none =>
        fallback .borrowOfNothing
        pure store
  else
    match ← readSeparator store parent idx 1 with
    | none => pure store
    | some sep =>
        let (movedChild, newSep, store) ← do
          match ← NodeStore.getMut store left with
          | (.internal node, write) =>
              let (movedChild, children) := Vec.pop node.children
              let (newSep, keys) := Vec.pop node.keys
              pure (movedChild, newSep, write (.internal { keys, children }))
          | (.leaf _, _) =>
              fallback .borrowOnWrongKind
              pure (none, none, store)
        let store ← do
          match ← NodeStore.getMut store child with
          | (.internal node, write) =>
              let keys ← Vec.insert node.keys 0 sep
              match movedChild with
              | some moved =>
                  let children ← Vec.insert node.children 0 moved
                  pure (write (.internal { keys, children }))
              | none =>
                  fallback .borrowOfNothing
                  pure (write (.internal { node with keys }))
          | (.leaf _, _) =>
              fallback .borrowOnWrongKind
              pure store
        match newSep with
        | some newSep => writeSeparator store parent idx 1 newSep
        | none =>
            fallback .borrowOfNothing
            pure store

/-- Move one entry, or one child, from the right sibling to the back of the
child, and rotate the separator between them. -/
def borrowFromRight (store : S) (parent : Id) (idx : Nat) (child right : Id) :
    Run S := do
  let childNode ← NodeStore.get store child
  if childNode.asLeaf.isSome then
    let (moved, store) ← do
      match ← NodeStore.getMut store right with
      | (.leaf node, write) =>
          if node.keys.isEmpty then
            pure (none, store)
          else
            let (key, keys) ← Vec.remove node.keys 0
            let (value, vals) ← Vec.remove node.vals 0
            pure (some (key, value), write (.leaf { keys, vals }))
      | (.internal _, _) =>
          fallback .borrowOnWrongKind
          pure (none, store)
    match moved with
    | some (key, value) =>
        let store ← do
          match ← NodeStore.getMut store child with
          | (.leaf node, write) =>
              pure (write (.leaf
                { keys := node.keys ++ [key], vals := node.vals ++ [value] }))
          | (.internal _, _) =>
              fallback .borrowOnWrongKind
              pure store
        let newSep ← do
          match ← NodeStore.get store right with
          | .leaf node => pure node.keys.head?
          | .internal _ =>
              fallback .borrowOnWrongKind
              pure none
        match newSep with
        | some newSep => writeSeparator store parent idx 0 newSep
        | none =>
            fallback .borrowOfNothing
            pure store
    | none =>
        fallback .borrowOfNothing
        pure store
  else
    match ← readSeparator store parent idx 0 with
    | none => pure store
    | some sep =>
        let (movedChild, store) ← do
          match ← NodeStore.getMut store right with
          | (.internal node, write) =>
              if node.children.isEmpty then
                pure (none, store)
              else
                let (moved, children) ← Vec.remove node.children 0
                pure (some moved, write (.internal { node with children }))
          | (.leaf _, _) =>
              fallback .borrowOnWrongKind
              pure (none, store)
        let store ← do
          match ← NodeStore.getMut store child with
          | (.internal node, write) =>
              let keys := node.keys ++ [sep]
              match movedChild with
              | some moved =>
                  pure (write (.internal
                    { keys, children := node.children ++ [moved] }))
              | none =>
                  fallback .borrowOfNothing
                  pure (write (.internal { node with keys }))
          | (.leaf _, _) =>
              fallback .borrowOnWrongKind
              pure store
        let (newSep, store) ← do
          match ← NodeStore.getMut store right with
          | (.internal node, write) =>
              if node.keys.isEmpty then
                pure (none, store)
              else
                let (newSep, keys) ← Vec.remove node.keys 0
                pure (some newSep, write (.internal { node with keys }))
          | (.leaf _, _) =>
              fallback .borrowOnWrongKind
              pure (none, store)
        match newSep with
        | some newSep => writeSeparator store parent idx 0 newSep
        | none =>
            fallback .borrowOfNothing
            pure store

/-- Merge the child at `sepIdx + 1` into the child at `sepIdx`, consuming the
separator between them and reclaiming the merged-away node. -/
def merge (store : S) (parent : Id) (sepIdx : Nat) (left right : Id) :
    Run S := do
  match ← NodeStore.getMut store parent with
  | (.internal node, write) =>
      let (sep, keys) ← Vec.remove node.keys sepIdx
      let (_, children) ← Vec.remove node.children (sepIdx + 1)
      let store := write (.internal { keys, children })
      let (rightNode, store) ← NodeStore.reclaim store right
      match ← NodeStore.getMut store left, rightNode with
      | (.leaf node, write), .leaf right =>
          pure (write (.leaf
            { keys := node.keys ++ right.keys
              vals := node.vals ++ right.vals }))
      | (.internal node, write), .internal right =>
          pure (write (.internal
            { keys := node.keys ++ [sep] ++ right.keys
              children := node.children ++ right.children }))
      | _, _ =>
          fallback .mergeOfMismatchedKinds
          pure store
  | (.leaf _, _) =>
      fallback .mergeOnLeafParent
      pure store

/-- Whether the sibling is there and has a key to spare. -/
def hasSpare (store : S) (minKeys : Nat) : Option Id → Run Bool
  | some sibling => do
      let node ← NodeStore.get store sibling
      pure (decide (node.keysLen > minKeys))
  | none => pure false

def leftSibling (children : List Id) (idx : Nat) : Run (Option Id) :=
  if idx > 0 then do
    let i ← checkedSub idx 1
    let sibling ← Vec.get children i
    pure (some sibling)
  else
    pure none

def rightSibling (children : List Id) (idx : Nat) : Run (Option Id) :=
  if idx + 1 < children.length then do
    let sibling ← Vec.get children (idx + 1)
    pure (some sibling)
  else
    pure none

/-- Restore the minimum occupancy of the child at `idx`: borrow from a sibling
with a key to spare, the left one first, else merge with a sibling. -/
def rebalance (store : S) (parent : Id) (idx minKeys : Nat) : Run S := do
  match ← NodeStore.get store parent with
  | .internal internal =>
      let left ← leftSibling internal.children idx
      let right ← rightSibling internal.children idx
      let child ← Vec.get internal.children idx
      let leftSpare ← hasSpare store minKeys left
      match left, leftSpare with
      | some sibling, true => borrowFromLeft store parent idx sibling child
      | _, _ =>
          let rightSpare ← hasSpare store minKeys right
          match right, rightSpare with
          | some sibling, true => borrowFromRight store parent idx child sibling
          | _, _ =>
              match left, right with
              | some sibling, _ => do
                  let i ← checkedSub idx 1
                  merge store parent i sibling child
              | none, some sibling => merge store parent idx child sibling
              | none, none =>
                  fallback .rebalanceWithoutSibling
                  pure store
  | .leaf _ =>
      fallback .rebalanceOnLeafParent
      pure store

variable [LT K] [DecidableLT K]

def removeFrom : Nat → S → Id → K → Nat → Run (Option V × S)
  | 0, _, _, _, _ => Traced.fail .diverges
  | fuel + 1, store, id, key, minKeys => do
      match ← NodeStore.get store id with
      | .leaf _ =>
          match ← NodeStore.getMut store id with
          | (.leaf leaf, write) =>
              let (removed, leaf) ← leaf.remove key
              pure (removed, write (.leaf leaf))
          | (.internal _, _) =>
              fallback .removeFromOnInternal
              pure (none, store)
      | .internal internal =>
          let idx := internal.childIndex key
          let child ← Vec.get internal.children idx
          let (removed, store) ← removeFrom fuel store child key minKeys
          if removed.isSome then
            let childNode ← NodeStore.get store child
            if childNode.keysLen < minKeys then
              let store ← rebalance store id idx minKeys
              pure (removed, store)
            else
              pure (removed, store)
          else
            pure (removed, store)

/-- The removed value, and the root: its only child when it lost all its
separators. -/
def remove (fuel : Nat) (store : S) (root : Id) (key : K) (minKeys : Nat) :
    Run (Option V × Id × S) := do
  let (removed, store) ← removeFrom fuel store root key minKeys
  if removed.isSome then
    let (newRoot, store) ← collapseRoot store root
    pure (removed, newRoot, store)
  else
    pure (removed, root, store)

end Deletion

section BulkLoading

/-- The sizes of the fewest chunks of at most `max` items, as even as they can
be. -/
def evenChunks (total max : Nat) : Run (List Nat) :=
  if total = 0 then
    pure []
  else do
    let chunks ← divCeil total max
    if chunks = 0 then
      Traced.fail .divisionByZero
    else
      let base := total / chunks
      let remainder := total % chunks
      pure ((List.range chunks).map fun i =>
        if i < remainder then base + 1 else base)

/-- One leaf for each chunk size, each with the least key under it. -/
def buildLeaves (store : S) (entries : List (K × V)) :
    List Nat → Run (List (Id × K) × S)
  | [] => pure ([], store)
  | size :: sizes => do
      let chunk := entries.take size
      let keys := chunk.map Prod.fst
      let vals := chunk.map Prod.snd
      let min ← Vec.get keys 0
      let (id, store) ← NodeStore.alloc store (.leaf { keys, vals })
      let (level, store) ← buildLeaves store (entries.drop size) sizes
      pure ((id, min) :: level, store)

/-- One internal node for each chunk size over a level of nodes.  The first
child's least key is the node's own; each later child's is the separator on
its left. -/
def buildParents (store : S) (level : List (Id × K)) :
    List Nat → Run (List (Id × K) × S)
  | [] => pure ([], store)
  | size :: sizes => do
      let chunk := level.take size
      let ids := chunk.map Prod.fst
      let keys := chunk.tail.map Prod.snd
      let (parent, store) ← NodeStore.alloc store
        (.internal { keys, children := ids })
      let (parents, store) ← buildParents store (level.drop size) sizes
      match chunk.head? with
      | some (_, min) => pure ((parent, min) :: parents, store)
      | none =>
          fallback .bulkLoadOfEmptyChunk
          pure (parents, store)

/-- Build internal levels until a single root remains. -/
def buildLevels (order : Nat) :
    Nat → S → List (Id × K) → Run (List (Id × K) × S)
  | 0, store, level =>
      if level.length > 1 then Traced.fail .diverges else pure (level, store)
  | fuel + 1, store, level =>
      if level.length > 1 then do
        let sizes ← evenChunks level.length order
        let (parents, store) ← buildParents store level sizes
        buildLevels order fuel store parents
      else
        pure (level, store)

/-- Build a tree bottom-up from entries in ascending key order: its root and
its entry count. -/
def bulkLoad (store : S) (entries : List (K × V)) (order : Nat) :
    Run (Id × Nat × S) := do
  let len := entries.length
  if len = 0 then
    let (root, store) ← NodeStore.alloc store Node.emptyLeaf
    pure (root, 0, store)
  else
    let max ← checkedSub order 1
    let sizes ← evenChunks len max
    let (level, store) ← buildLeaves store entries sizes
    let (level, store) ← buildLevels order level.length store level
    let root ← Vec.get level 0
    pure (root.1, len, store)

end BulkLoading

end Ops

end IndexDb
