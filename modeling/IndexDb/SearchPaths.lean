import IndexDb.WellFormed

/-!
# Search paths

The search path of a key is what a lookup reads on its way down: every node
from the root to the leaf that owns the key, under the id it has in the store.
On a stored tree it is the path of the tree, one node on each level.
-/

namespace IndexDb

section Definitions

variable {S Id K V : Type} [LT K] [DecidableLT K]

/-- The nodes that the descent of `get` reads, the root first. -/
def Ops.searchPath [NodeStore S Id K V] :
    Nat → S → Id → K → Run (Cells Id (Node Id K V))
  | 0, _, _, _ => Traced.fail .diverges
  | fuel + 1, store, id, key => do
      match ← NodeStore.get store id with
      | .leaf leaf => pure [(id, .leaf leaf)]
      | .internal internal =>
          let child ← Vec.get internal.children (internal.childIndex key)
          let path ← searchPath fuel store child key
          pure ((id, .internal internal) :: path)

def BPlusTree.searchPath (tree : BPlusTree K V) (key : K) :
    Run (Cells NodeId (Node NodeId K V)) :=
  Ops.searchPath tree.fuel tree.store tree.root key

/-- The cells on the way to the leaf that owns the key. -/
def Tree.path (key : K) : {h : Nat} → Tree Id K V h → Cells Id (Node Id K V)
  | 0, tree => [(tree.label, tree.node)]
  | _ + 1, tree =>
      (tree.label, tree.node) ::
        match tree.body.children[tree.body.childIndex key]? with
        | none => []
        | some child => path key child

end Definitions

section Paths

variable {Id K V : Type} {h : Nat}

theorem Tree.path_fill [LT K] [DecidableLT K] {key : K} {tree : Tree Id K V (h + 1)}
    {hole : Hole K (Tree Id K V h)} {child : Tree Id K V h}
    (filled : tree.body = hole.fill child)
    (indexEq : tree.body.childIndex key = hole.index) :
    tree.path key = (tree.label, tree.node) :: child.path key := by
  rw [path, indexEq, filled, hole.fill_getElem?]

/-- A path starts at the root. -/
theorem Tree.path_first [LT K] [DecidableLT K] (key : K) (tree : Tree Id K V h) :
    (tree.path key)[0]? = some (tree.label, tree.node) := by
  cases h <;> rfl

variable [Preorder K] [Std.IsLinearPreorder K] [DecidableLT K]
  {order minKeys least : Nat} {tree : Tree Id K V h}

/-- A path has one node on each level. -/
theorem Tree.path_length (key : K) (sized : tree.Sized order minKeys least)
    (ordered : Mark.Ordered tree.marks) : (tree.path key).length = h + 1 := by
  induction h generalizing least with
  | zero => rfl
  | succ h ih =>
      obtain ⟨hole, child, filled, indexEq, -⟩ :=
        route (Internal.Occupied.forked sized) ordered key
      rw [path_fill filled indexEq, List.length_cons,
        ih (sized.child filled) (ordered_child filled ordered)]

/-- The descent through the store reads the path of the tree. -/
theorem searchPath_stored {S : Type} [NodeStore S Id K V] {store : S}
    (stored : Stored store tree) (sized : tree.Sized order minKeys least)
    (ordered : Mark.Ordered tree.marks) (key : K) {fuel : Nat}
    (enough : h < fuel) :
    Ops.searchPath fuel store tree.label key = pure (tree.path key) := by
  induction h generalizing fuel least with
  | zero =>
      obtain ⟨fuel, rfl⟩ : ∃ rest, fuel = rest + 1 := ⟨fuel - 1, by omega⟩
      rw [Ops.searchPath, stored _ (Tree.self_mem_subtrees tree), pure_bind]
      rfl
  | succ h ih =>
      obtain ⟨fuel, rfl⟩ : ∃ rest, fuel = rest + 1 := ⟨fuel - 1, by omega⟩
      obtain ⟨hole, child, filled, indexEq, -⟩ :=
        Tree.route (Internal.Occupied.forked sized) ordered key
      have below : Ops.searchPath fuel store child.label key =
          pure (child.path key) :=
        ih (stored.child (Hole.mem_of_fill filled)) (sized.child filled)
          (Tree.ordered_child filled ordered) (by omega)
      rw [Ops.searchPath, stored _ (Tree.self_mem_subtrees tree), pure_bind]
      simp only [Tree.node]
      rw [Tree.child_returned filled indexEq, pure_bind, below, pure_bind,
        Tree.path_fill filled indexEq]
      rfl

end Paths

namespace BPlusTree

variable {K V : Type} [Preorder K] [Std.IsLinearPreorder K] [DecidableLT K]
  {order : Nat} {tree : BPlusTree K V} {t : SearchTree NodeId K V order}

theorem Represents.searchPath (represents : tree.Represents t) (key : K) :
    tree.searchPath key = pure (t.tree.path key) := by
  rw [BPlusTree.searchPath, represents.root_eq]
  exact searchPath_stored represents.stored t.sized t.ordered key
    represents.enough_fuel

end BPlusTree

end IndexDb
