import IndexDb.Ops
import IndexDb.SearchTree
import IndexDb.StoreLaws

/-!
# Trees in a store

A tree labelled with ids is stored when every node of it resolves to its
contents.  Search and insertion on the store are search and insertion on the
tree: an induction over the height follows the descent, and the cells around
the child are framed.
-/

namespace IndexDb

open LawfulNodeStore

variable {Id K V : Type}

/-- The leaf that holds the entries. -/
def Leaf.ofEntries (entries : List (K × V)) : Leaf K V where
  keys := entries.map Prod.fst
  vals := entries.map Prod.snd

namespace Tree

/-- What the root is stored as. -/
def node : {h : Nat} → Tree Id K V h → Node Id K V
  | 0, tree => .leaf (.ofEntries tree.body)
  | _ + 1, tree => .internal (tree.body.map label)

/-- The cells of all nodes, each node before its subtrees. -/
def cells : {h : Nat} → Tree Id K V h → Cells Id (Node Id K V)
  | 0, tree => [(Labelled.label tree, node (h := 0) tree)]
  | h + 1, tree =>
      (Labelled.label tree, node (h := h + 1) tree) :: tree.body.gather cells

/-- The cells of the proper subtrees. -/
def below : {h : Nat} → Tree Id K V h → Cells Id (Node Id K V)
  | 0, _ => []
  | _ + 1, tree => tree.body.gather cells

theorem cells_eq {h : Nat} (tree : Tree Id K V h) :
    tree.cells = (tree.label, tree.node) :: tree.below := by
  cases h <;> rfl

theorem cells_names {h : Nat} (tree : Tree Id K V h) :
    tree.cells.names = tree.labels := by
  induction h with
  | zero => rfl
  | succ h ih =>
      have childNames (child : Tree Id K V h) :
          child.cells.map Prod.fst = child.labels := ih child
      simp only [cells, labels, Cells.names, List.map_cons, Internal.gather,
        List.map_flatMap, childNames]

theorem mem_cells {h : Nat} (tree : Tree Id K V h) :
    (tree.label, tree.node) ∈ tree.cells := by
  simp [cells_eq]

theorem cells_fill {h : Nat} {tree : Tree Id K V (h + 1)}
    {hole : Hole K (Tree Id K V h)} {child : Tree Id K V h}
    (filled : tree.body = hole.fill child) :
    tree.cells = ((tree.label, tree.node) :: hole.leftChildren.flatMap cells) ++
      child.cells ++ hole.rightChildren.flatMap cells := by
  simp [cells, label, filled, hole.gather_fill]

/-- A child may be replaced by another one in the same place. -/
theorem cells_refill {h : Nat} {tree : Tree Id K V (h + 1)}
    {hole : Hole K (Tree Id K V h)} {child newChild : Tree Id K V h}
    (filled : tree.body = hole.fill child)
    (labelEq : newChild.label = child.label) :
    cells (h := h + 1) ⟨tree.label, hole.fill newChild⟩ =
      ((tree.label, tree.node) :: hole.leftChildren.flatMap cells) ++
        newChild.cells ++ hole.rightChildren.flatMap cells := by
  have nodeEq : (hole.fill newChild).map label = tree.body.map label := by
    rw [filled, Hole.map_fill, Hole.map_fill, labelEq]
  simp only [cells, node, nodeEq, hole.gather_fill, List.append_assoc,
    List.cons_append]

/-- The id at the open place is the child's. -/
theorem label_getElem? {h : Nat} {tree : Tree Id K V (h + 1)}
    {hole : Hole K (Tree Id K V h)} {child : Tree Id K V h}
    (filled : tree.body = hole.fill child) :
    (tree.body.map label).children[hole.index]? = some child.label := by
  rw [filled, Hole.map_fill, ← hole.map_index label, Hole.fill_getElem?]

/-- The descent reads the id of the child that the search takes out. -/
theorem child_returned [LT K] [DecidableLT K] {h : Nat}
    {tree : Tree Id K V (h + 1)} {hole : Hole K (Tree Id K V h)}
    {child : Tree Id K V h} {key : K} (filled : tree.body = hole.fill child)
    (indexEq : tree.body.childIndex key = hole.index) :
    Vec.get (tree.body.map label).children
      ((tree.body.map label).childIndex key) = pure child.label := by
  rw [show (tree.body.map label).childIndex key = hole.index from indexEq]
  exact Vec.get_eq_pure (label_getElem? filled)

end Tree

def SearchTree.cells [LE K] [LT K] {order : Nat}
    (t : SearchTree Id K V order) : Cells Id (Node Id K V) :=
  t.tree.cells

theorem SearchTree.cells_names [LE K] [LT K] {order : Nat}
    (t : SearchTree Id K V order) : t.cells.names = t.labels :=
  Tree.cells_names t.tree

section Search

variable [Preorder K] [Std.IsLinearPreorder K] [DecidableLT K]

theorem Leaf.get_ofEntries (key : K) {entries : List (K × V)}
    (ascending : Ascending entries) :
    (Leaf.ofEntries entries).get key = pure (Entries.lookup key entries) := by
  have correct := Entries.search_answer key ascending
  simp only [Leaf.get, ofEntries]
  generalize binarySearch (entries.map Prod.fst) key = answer at correct
  cases correct with
  | @found before after entry split below same above =>
      have block : Entries.lookup key (before ++ [entry] ++ after) =
          Entries.lookup key [entry] :=
        Entries.lookup_block below above
      rw [split, List.append_cons, block, Entries.lookup_single same]
      simp [Vec.get]
  | missing split below above =>
      rw [split, Entries.lookup_prepend below, Entries.lookup_of_above above]

variable {S : Type} [NodeStore S Id K V] [LawfulNodeStore S] {store : S}
  {h order minKeys least : Nat} {tree : Tree Id K V h}

/-- A lookup in the store is a lookup among the entries. -/
theorem get_refines (valid : Valid store) (owned : Owned (view store) tree.cells)
    (sized : tree.Sized order minKeys least)
    (ordered : Mark.Ordered tree.marks) (key : K) {fuel : Nat}
    (enough : h < fuel) :
    Ops.get fuel store tree.label key =
      pure (Entries.lookup key tree.entries) := by
  induction h generalizing fuel least with
  | zero =>
      obtain ⟨fuel, rfl⟩ : ∃ rest, fuel = rest + 1 := ⟨fuel - 1, by omega⟩
      have ascending : Ascending tree.body := by
        rw [← Tree.entries_leaf tree]
        exact ordered.ascending
      rw [Ops.get, get_owned valid owned tree.mem_cells, pure_bind]
      simp only [Tree.node]
      rw [Leaf.get_ofEntries key ascending, Tree.entries_leaf]
  | succ h ih =>
      obtain ⟨fuel, rfl⟩ : ∃ rest, fuel = rest + 1 := ⟨fuel - 1, by omega⟩
      obtain ⟨hole, child, filled, indexEq, left, right⟩ :=
        Tree.route (Internal.Occupied.forked sized) ordered key
      rw [Ops.get, get_owned valid owned tree.mem_cells, pure_bind]
      rw [Tree.cells_fill filled] at owned
      have childGet : Ops.get fuel store child.label key =
          pure (Entries.lookup key child.entries) :=
        ih owned.part (sized.child filled) (Tree.ordered_child filled ordered)
          (by omega)
      simp only [Tree.node]
      rw [Tree.child_returned filled indexEq, pure_bind, childGet, Tree.entries_fill filled,
        Entries.lookup_block left.entries_below right.entries_above]

end Search

end IndexDb
