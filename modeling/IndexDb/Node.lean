import IndexDb.Library.SortedSearch
import IndexDb.Vectors

/-!
# Nodes

A leaf holds its entries in two parallel vectors, an internal node holds
separators and children.  The children of a stored node are node ids.  The
type of a child is a parameter, so that the same node shape serves the trees
that stored nodes unfold to.
-/

namespace IndexDb

/-- A handle to a node: a slab index of 32 bits. -/
structure NodeId where
  index : UInt32
  deriving DecidableEq, Repr

/-- Entry keys in ascending order, and their values in the same positions. -/
structure Leaf (K V : Type) where
  keys : List K
  vals : List V
  deriving DecidableEq, Repr

/-- Separators in ascending order, and the children they partition. -/
structure Internal (K Child : Type) where
  keys : List K
  children : List Child
  deriving DecidableEq, Repr

/-- A node of a store that names its nodes by the ids in `Id`. -/
inductive Node (Id K V : Type) where
  | leaf (leaf : Leaf K V)
  | internal (internal : Internal K Id)
  deriving DecidableEq, Repr

variable {Id K V Child : Type}

namespace Node

def emptyLeaf : Node Id K V :=
  .leaf { keys := [], vals := [] }

/-- The entry count of a leaf, the separator count of an internal node. -/
def keysLen : Node Id K V → Nat
  | .leaf node => node.keys.length
  | .internal node => node.keys.length

def asLeaf : Node Id K V → Option (Leaf K V)
  | .leaf node => some node
  | .internal _ => none

end Node

variable [LT K] [DecidableLT K]

namespace Leaf

def get (leaf : Leaf K V) (key : K) : Run (Option V) :=
  match binarySearch leaf.keys key with
  | .ok i => do
      let value ← Vec.get leaf.vals i
      pure (some value)
  | .error _ => pure none

/-- Remove the entry of `key`: its value, and the leaf that is left. -/
def remove (leaf : Leaf K V) (key : K) : Run (Option V × Leaf K V) :=
  match binarySearch leaf.keys key with
  | .ok i => do
      let (_, keys) ← Vec.remove leaf.keys i
      let (value, vals) ← Vec.remove leaf.vals i
      pure (some value, { keys, vals })
  | .error _ => pure (none, leaf)

end Leaf

/-- The index of the child that owns `key`: a key equal to a separator belongs
to the child on its right. -/
def Internal.childIndex (internal : Internal K Child) (key : K) : Nat :=
  match binarySearch internal.keys key with
  | .ok i => i + 1
  | .error i => i

end IndexDb
