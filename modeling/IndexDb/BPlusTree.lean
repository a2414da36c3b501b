import IndexDb.Cursor
import IndexDb.Ops

/-!
# The public tree

An ordered map: a root id, the store its node lives in, the fan-out order and
the number of entries.
-/

namespace IndexDb

def minOrder : Nat := 3

def defaultOrder : Nat := 64

structure BPlusTree (K V : Type) where
  root : NodeId
  store : InMemoryStore K V
  order : Nat
  len : Nat
  deriving DecidableEq

namespace BPlusTree

variable {K V : Type}

def withOrder (order : Nat) : Run (BPlusTree K V) := do
  let (root, store) ← NodeStore.alloc (InMemoryStore.new : InMemoryStore K V)
    Node.emptyLeaf
  pure { root, store, order := max order minOrder, len := 0 }

def new : Run (BPlusTree K V) :=
  withOrder defaultOrder

def isEmpty (tree : BPlusTree K V) : Bool :=
  tree.len = 0

/-- The loop of `height`, from a node that has `height` levels down to it. -/
def heightFrom (store : InMemoryStore K V) : Nat → Nat → NodeId → Run Nat
  | 0, _, _ => Traced.fail .diverges
  | fuel + 1, height, id => do
      match ← NodeStore.get store id with
      | .internal internal =>
          let child ← Vec.get internal.children 0
          heightFrom store fuel (height + 1) child
      | .leaf _ => pure height

/-- No descent visits more nodes than the slab has slots. -/
def fuel (tree : BPlusTree K V) : Nat :=
  tree.store.slab.length

def height (tree : BPlusTree K V) : Run Nat :=
  heightFrom tree.store tree.fuel 1 tree.root

def clear (tree : BPlusTree K V) : Run (BPlusTree K V) := do
  let (root, store) ← NodeStore.reset tree.store
  pure { tree with root, store, len := 0 }

def iter (tree : BPlusTree K V) : Run (Iter K V) :=
  Iter.full tree.store tree.root

/-- The least key count of a node other than the root. -/
def minKeys (tree : BPlusTree K V) : Run Nat := do
  let half ← divCeil tree.order 2
  checkedSub half 1

variable [LT K] [DecidableLT K]

def get (tree : BPlusTree K V) (key : K) : Run (Option V) :=
  Ops.get tree.fuel tree.store tree.root key

def containsKey (tree : BPlusTree K V) (key : K) : Run Bool := do
  let value ← tree.get key
  pure value.isSome

def range [LE K] [DecidableLE K] (tree : BPlusTree K V)
    (lower upper : Bound K) : Run (Iter K V) :=
  Iter.range tree.store tree.root lower upper

/-- The entry count is a count of items in memory, so adding one to it does
not saturate. -/
def insert (tree : BPlusTree K V) (key : K) (value : V) :
    Run (Option V × BPlusTree K V) := do
  let (replaced, root, store) ←
    Ops.insert tree.fuel tree.store tree.root key value tree.order
  let len := if replaced.isNone then tree.len + 1 else tree.len
  pure (replaced, { tree with root, store, len })

def remove (tree : BPlusTree K V) (key : K) :
    Run (Option V × BPlusTree K V) := do
  let minKeys ← tree.minKeys
  let (removed, root, store) ←
    Ops.remove tree.fuel tree.store tree.root key minKeys
  if removed.isSome then
    let len ← checkedSub tree.len 1
    pure (removed, { tree with root, store, len })
  else
    pure (removed, { tree with root, store })

/-- Every entry's key is below the next one's. -/
def ascending : List (K × V) → Bool
  | first :: second :: rest =>
      decide (first.1 < second.1) && ascending (second :: rest)
  | _ => true

def insertAll (tree : BPlusTree K V) : List (K × V) → Run (BPlusTree K V)
  | [] => pure tree
  | (key, value) :: entries => do
      let (_, tree) ← tree.insert key value
      tree.insertAll entries

def fromSortedWithOrder (entries : List (K × V)) (order : Nat) :
    Run (BPlusTree K V) := do
  let order := max order minOrder
  if ascending entries then
    let (root, len, store) ←
      Ops.bulkLoad (InMemoryStore.new : InMemoryStore K V) entries order
    pure { root, store, order, len }
  else
    let tree ← withOrder order
    tree.insertAll entries

def fromSorted (entries : List (K × V)) : Run (BPlusTree K V) :=
  fromSortedWithOrder entries defaultOrder

end BPlusTree

end IndexDb
