import IndexDb.Node

/-!
# The storage seam

The algorithm names nodes by id and asks a store to resolve, allocate and
reclaim them.  `InMemoryStore` is a slab of nodes with a free list.
-/

namespace IndexDb

/-- The operations a backend provides.  A mutable borrow is the node it
resolves to together with the store after a node is written back through it. -/
class NodeStore (S : Type) (Id K V : outParam Type) where
  alloc : S → Node Id K V → Run (Id × S)
  reclaim : S → Id → Run (Node Id K V × S)
  get : S → Id → Run (Node Id K V)
  getMut : S → Id → Run (Node Id K V × (Node Id K V → S))
  reset : S → Run (Id × S)

/-- Node slots addressed by id, and the reclaimed ids with the one pushed last
at the head. -/
structure InMemoryStore (K V : Type) where
  slab : List (Node NodeId K V)
  free : List NodeId
  deriving DecidableEq

/-- The slab index an id stands for. -/
def NodeId.slot (id : NodeId) : Nat :=
  id.index.toNat

namespace InMemoryStore

variable {K V : Type}

def new : InMemoryStore K V where
  slab := []
  free := []

def alloc (store : InMemoryStore K V) (node : Node NodeId K V) :
    Run (NodeId × InMemoryStore K V) :=
  match store.free with
  | id :: free => do
      let slab ← Vec.set store.slab id.slot node
      pure (id, { slab, free })
  | [] => do
      let index ← castU32 store.slab.length
      pure ({ index }, { store with slab := store.slab ++ [node] })

/-- The vacated slot is left holding an empty leaf. -/
def reclaim (store : InMemoryStore K V) (id : NodeId) :
    Run (Node NodeId K V × InMemoryStore K V) := do
  let node ← Vec.get store.slab id.slot
  let slab ← Vec.set store.slab id.slot Node.emptyLeaf
  pure (node, { slab, free := id :: store.free })

def get (store : InMemoryStore K V) (id : NodeId) : Run (Node NodeId K V) :=
  Vec.get store.slab id.slot

def getMut (store : InMemoryStore K V) (id : NodeId) :
    Run (Node NodeId K V × (Node NodeId K V → InMemoryStore K V)) := do
  let node ← Vec.get store.slab id.slot
  pure (node, fun written =>
    { store with slab := store.slab.set id.slot written })

def reset (store : InMemoryStore K V) : Run (NodeId × InMemoryStore K V) :=
  alloc { store with slab := [], free := [] } Node.emptyLeaf

instance : NodeStore (InMemoryStore K V) NodeId K V where
  alloc := alloc
  reclaim := reclaim
  get := get
  getMut := getMut
  reset := reset

end InMemoryStore

end IndexDb
