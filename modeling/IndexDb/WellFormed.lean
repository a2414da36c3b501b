import IndexDb.Runs
import IndexDb.Unfolding

/-!
# The B+tree invariant of the stored nodes

The invariant is stated on the nodes that are reachable from the root of a
public tree, without a search tree in sight.  It holds after every run.
-/

namespace IndexDb

open LawfulNodeStore

variable {K V : Type}

namespace BPlusTree

/-- The node is reachable from the root under this id. -/
def HasNode (tree : BPlusTree K V) (id : NodeId) (node : Node NodeId K V) : Prop :=
  Reaches tree.store tree.root id ∧ NodeStore.get tree.store id = pure node

/-- The B+tree invariant. -/
structure WellFormed [LE K] [LT K] (tree : BPlusTree K V) : Prop where
  resolves : ∀ id, Reaches tree.store tree.root id →
    ∃ node, NodeStore.get tree.store id = pure node
  leaf : ∀ id leaf, tree.HasNode id (.leaf leaf) →
    leaf.keys.length = leaf.vals.length ∧ leaf.keys.Pairwise (· < ·)
  internal : ∀ id node, tree.HasNode id (.internal node) →
    node.children.length = node.keys.length + 1 ∧ node.keys.Pairwise (· < ·)
  most : ∀ id node, tree.HasNode id node → node.keysLen ≤ tree.order - 1
  least : ∀ id node, tree.HasNode id node → id ≠ tree.root →
    (tree.order + 1) / 2 - 1 ≤ node.keysLen
  rootKeys : ∀ node, tree.HasNode tree.root (.internal node) →
    1 ≤ node.keys.length
  separators : ∀ id node, tree.HasNode id (.internal node) →
    ∀ i sep, node.keys[i]? = some sep → ∀ key value,
      (∀ child, node.children[i]? = some child →
        Holds tree.store child key value → key < sep) ∧
      (∀ child, node.children[i + 1]? = some child →
        Holds tree.store child key value → sep ≤ key)
  depth : ∀ depth id leaf, Below tree.store depth tree.root id →
    NodeStore.get tree.store id = pure (.leaf leaf) →
    tree.height = pure (depth + 1)
  counted : ∃ leaves : List (NodeId × Leaf K V), (leaves.map Prod.fst).Nodup ∧
    (∀ id leaf, (id, leaf) ∈ leaves ↔ tree.HasNode id (.leaf leaf)) ∧
    tree.len = (leaves.map fun entry => entry.2.keys.length).sum
  emptyRoot : tree.len = 0 ↔ tree.HasNode tree.root (.leaf ⟨[], []⟩)

end BPlusTree

section Trees

variable {L : Type} {h : Nat}

/-- A separator has a child on either side. -/
theorem Hole.exists_fillTwo {Child : Type} {node : Internal K Child}
    (forked : node.Forked) {i : Nat} {sep : K} (found : node.keys[i]? = some sep) :
    ∃ (hole : Hole K Child) (left right : Child),
      node = hole.fillTwo left sep right ∧ hole.index = i := by
  obtain ⟨inside, -⟩ := List.getElem?_eq_some_iff.mp found
  obtain ⟨hole, left, filled, place⟩ := exists_fill forked (Nat.le_of_lt inside)
  have more : hole.rightChildren ≠ [] := by
    intro none
    have even := hole.right_even
    have leftEven := hole.left_even
    rw [filled, fill_keys_length] at inside
    simp only [keysLen, none, List.length_nil] at even inside
    simp only [index] at place
    omega
  obtain ⟨wide, other, right, rfl⟩ := exists_right more
  refine ⟨wide, left, right, ?_, by simpa using place⟩
  have same : other = sep := by
    have even := wide.left_even
    rw [filled, beforeRight_fill, ← place, beforeRight_index] at found
    simpa [fillTwo, index, ← even] using found
  rw [filled, beforeRight_fill, same]

/-- The children around a separator keep to their sides of it. -/
theorem Tree.around_separator [LE K] [LT K] {tree : Tree L K V (h + 1)}
    {hole : Hole K (Tree L K V h)} {left right : Tree L K V h} {sep : K}
    (filled : tree.body = hole.fillTwo left sep right)
    (ordered : Mark.Ordered tree.marks) :
    (∀ entry ∈ left.entries, entry.1 < sep) ∧
      ∀ entry ∈ right.entries, sep ≤ entry.1 := by
  rw [marks_node, filled, hole.treeMarks_fillTwo] at ordered
  have middle := (Mark.ordered_append.mp (Mark.ordered_append.mp ordered).1).2.1
  obtain ⟨-, rightOrdered, across⟩ := Mark.ordered_append.mp middle
  constructor
  · rintro ⟨key, value⟩ member
    exact across _ (Mark.mem_entries.mp member) _ (List.mem_cons_self ..)
  · rintro ⟨key, value⟩ member
    exact (Mark.ordered_cons.mp rightOrdered).1 _ (Mark.mem_entries.mp member)

end Trees

section Leaves

variable {Id : Type} {h : Nat}

/-- The leaves among the cells. -/
def Cells.leaves (cells : Cells Id (Node Id K V)) : List (Id × Leaf K V) :=
  cells.filterMap fun cell => cell.2.asLeaf.map fun leaf => (cell.1, leaf)

theorem Cells.mem_leaves {cells : Cells Id (Node Id K V)} {id : Id}
    {leaf : Leaf K V} : (id, leaf) ∈ cells.leaves ↔ (id, .leaf leaf) ∈ cells := by
  simp only [leaves, List.mem_filterMap, Option.map_eq_some_iff]
  constructor
  · rintro ⟨⟨other, node⟩, member, found, isLeaf, equal⟩
    cases node with
    | leaf content =>
        cases isLeaf
        cases equal
        exact member
    | internal content => cases isLeaf
  · exact fun member => ⟨_, member, leaf, rfl, rfl⟩

theorem Cells.leaves_names (cells : Cells Id (Node Id K V)) :
    (cells.leaves.map Prod.fst).Sublist cells.names := by
  induction cells with
  | nil => exact .slnil
  | cons cell cells ih =>
      obtain ⟨id, node⟩ := cell
      cases node with
      | leaf content => exact ih.cons_cons id
      | internal content => exact ih.cons id

/-- Adding up the leaves of a tree counts its entries. -/
theorem Tree.leaves_count (tree : Tree Id K V h) :
    (tree.cells.leaves.map fun entry => entry.2.keys.length).sum =
      tree.entries.length := by
  induction h with
  | zero =>
      rw [entries_leaf]
      simp [cells, Cells.leaves, node, Node.asLeaf, Leaf.ofEntries]
  | succ h ih =>
      have rootless : tree.cells.leaves =
          tree.body.children.flatMap fun child => child.cells.leaves := by
        rw [cells_eq, Cells.leaves, List.filterMap_cons_none rfl, below,
          Internal.gather, List.filterMap_flatMap]
        rfl
      rw [rootless, entries_node, Internal.gather, List.map_flatMap,
        List.length_flatMap, List.flatMap, List.sum_flatten, List.map_map]
      simp only [Function.comp_def, ih]

end Leaves

section Height

/-- The descent along the first children measures the height. -/
theorem heightFrom_stored {store : InMemoryStore K V} {h : Nat}
    {order minKeys least : Nat} {tree : Tree NodeId K V h}
    (stored : Stored store tree) (sized : tree.Sized order minKeys least)
    {fuel : Nat} (enough : h < fuel) (height : Nat) :
    BPlusTree.heightFrom store fuel height tree.label = pure (height + h) := by
  induction h generalizing fuel least height with
  | zero =>
      obtain ⟨fuel, rfl⟩ : ∃ rest, fuel = rest + 1 := ⟨fuel - 1, by omega⟩
      rw [BPlusTree.heightFrom, stored _ (Tree.self_mem_subtrees tree), pure_bind]
      rfl
  | succ h ih =>
      obtain ⟨fuel, rfl⟩ : ∃ rest, fuel = rest + 1 := ⟨fuel - 1, by omega⟩
      obtain ⟨hole, child, filled, first⟩ :=
        Hole.exists_fill (Internal.Occupied.forked sized) (Nat.zero_le _)
      have chosen : Vec.get (tree.body.map Tree.label).children 0 =
          pure child.label := by
        rw [← first]
        exact Vec.get_eq_pure (Tree.label_getElem? filled)
      have childStored : Stored store child := stored.child (Hole.mem_of_fill filled)
      rw [BPlusTree.heightFrom, stored _ (Tree.self_mem_subtrees tree), pure_bind]
      simp only [Tree.node]
      rw [chosen, pure_bind, ih childStored (sized.child filled) (by omega)]
      rw [Nat.add_right_comm, Nat.add_assoc]

end Height

namespace BPlusTree

section Represented

variable [Preorder K] {order : Nat} {tree : BPlusTree K V}
  {t : SearchTree NodeId K V order}

theorem Represents.stored (represents : tree.Represents t) :
    Stored tree.store t.tree :=
  stored_owned represents.valid represents.owned

theorem Represents.reaches (represents : tree.Represents t) {id : NodeId} :
    Reaches tree.store tree.root id ↔
      ∃ sub ∈ t.tree.subtrees, sub.2.label = id := by
  rw [represents.root_eq]
  exact reaches_stored represents.stored

theorem Represents.holds (represents : tree.Represents t) {key : K} {value : V} :
    Holds tree.store tree.root key value ↔ (key, value) ∈ t.entries := by
  rw [represents.root_eq]
  exact holds_stored represents.stored

/-- The reachable nodes are those of the subtrees. -/
theorem Represents.hasNode (represents : tree.Represents t) {id : NodeId}
    {node : Node NodeId K V} :
    tree.HasNode id node ↔
      ∃ sub ∈ t.tree.subtrees, sub.2.label = id ∧ sub.2.node = node := by
  constructor
  · rintro ⟨reached, got⟩
    obtain ⟨sub, member, rfl⟩ := represents.reaches.mp reached
    rw [represents.stored sub member, Traced.pure_inj] at got
    exact ⟨sub, member, rfl, got⟩
  · rintro ⟨sub, member, rfl, rfl⟩
    exact ⟨represents.reaches.mpr ⟨sub, member, rfl⟩, represents.stored sub member⟩

/-- The reachable nodes are the cells of the tree. -/
theorem Represents.hasNode_iff_cell (represents : tree.Represents t) {id : NodeId}
    {node : Node NodeId K V} : tree.HasNode id node ↔ (id, node) ∈ t.cells := by
  rw [represents.hasNode, SearchTree.cells, ← Tree.subtrees_cells, List.mem_map]
  simp only [Prod.ext_iff]

theorem Represents.hasLeaf (represents : tree.Represents t) {id : NodeId}
    {leaf : Leaf K V} (has : tree.HasNode id (.leaf leaf)) :
    ∃ sub : Tree NodeId K V 0, ⟨0, sub⟩ ∈ t.tree.subtrees ∧ sub.label = id ∧
      leaf = .ofEntries sub.body := by
  obtain ⟨⟨k, sub⟩, member, labelEq, nodeEq⟩ := represents.hasNode.mp has
  cases k with
  | zero => exact ⟨sub, member, labelEq, (Node.leaf.inj nodeEq).symm⟩
  | succ k => cases nodeEq

theorem Represents.hasInternal (represents : tree.Represents t) {id : NodeId}
    {node : Internal K NodeId} (has : tree.HasNode id (.internal node)) :
    ∃ (k : Nat) (sub : Tree NodeId K V (k + 1)), ⟨k + 1, sub⟩ ∈ t.tree.subtrees ∧
      sub.label = id ∧ node = sub.body.map Tree.label := by
  obtain ⟨⟨k, sub⟩, member, labelEq, nodeEq⟩ := represents.hasNode.mp has
  cases k with
  | zero => cases nodeEq
  | succ k => exact ⟨k, sub, member, labelEq, (Node.internal.inj nodeEq).symm⟩

/-- A tree without entries is an empty leaf. -/
theorem Represents.len_eq_zero (represents : tree.Represents t) :
    tree.len = 0 ↔ tree.HasNode tree.root (.leaf ⟨[], []⟩) := by
  obtain ⟨height, inner, large, sized, ordered⟩ := t
  have lenEq : tree.len = inner.entries.length := represents.len_eq
  constructor
  · intro none
    have shallow := SearchTree.height_lt_size ⟨height, inner, large, sized, ordered⟩
    have few := SearchTree.size_le ⟨height, inner, large, sized, ordered⟩
    have flat : height = 0 := by
      simp only [SearchTree.entries, ← lenEq, none] at few shallow
      omega
    subst flat
    rw [Tree.entries_leaf, none] at lenEq
    have bodyEq := List.eq_nil_of_length_eq_zero lenEq.symm
    refine represents.hasNode.mpr ⟨_, Tree.self_mem_subtrees inner,
      represents.root_eq.symm, ?_⟩
    simp only [Tree.node, bodyEq]
    rfl
  · intro has
    have got := represents.stored _ (Tree.self_mem_subtrees inner)
    have rootEq : tree.root = inner.label := represents.root_eq
    rw [← rootEq, has.2, Traced.pure_inj] at got
    cases height with
    | zero =>
        have keysEq : [] = inner.body.map Prod.fst :=
          congrArg Leaf.keys (Node.leaf.inj got)
        rw [lenEq, Tree.entries_leaf, List.map_eq_nil_iff.mp keysEq.symm]
        rfl
    | succ height => cases got

theorem Represents.height (represents : tree.Represents t) :
    tree.height = pure (1 + t.height) := by
  rw [BPlusTree.height, represents.root_eq]
  exact heightFrom_stored represents.stored t.sized represents.enough_fuel 1

theorem Represents.wellFormed (represents : tree.Represents t) :
    tree.WellFormed where
  resolves := by
    intro id reached
    obtain ⟨sub, member, rfl⟩ := represents.reaches.mp reached
    exact ⟨_, represents.stored sub member⟩
  leaf := by
    intro id leaf has
    obtain ⟨sub, member, -, rfl⟩ := represents.hasLeaf has
    have ordered := Tree.ordered_subtree t.sized t.ordered member
    have ascending : Ascending sub.body := by
      rw [← Tree.entries_leaf sub]
      exact ordered.ascending
    exact ⟨by simp [Leaf.ofEntries], List.pairwise_map.mpr ascending⟩
  internal := by
    intro id node has
    obtain ⟨k, sub, member, -, rfl⟩ := represents.hasInternal has
    obtain ⟨least, sized, -⟩ := t.subtree_sized member
    have ordered := Tree.ordered_subtree t.sized t.ordered member
    have forked : sub.body.children.length = sub.body.keys.length + 1 := sized.forked
    refine ⟨(List.length_map _).trans forked, ?_⟩
    refine Mark.separators_ascending ?_ ordered
    change sub.body.keys.length ≤ (sub.body.children.map Tree.marks).length
    rw [List.length_map]
    omega
  most := by
    intro id node has
    obtain ⟨sub, member, rfl, rfl⟩ := represents.hasNode.mp has
    obtain ⟨least, sized, -⟩ := t.subtree_sized member
    have below := sized.keysLen.2
    rw [Tree.node_keysLen, represents.order_eq]
    omega
  least := by
    intro id node has different
    obtain ⟨sub, member, rfl, rfl⟩ := represents.hasNode.mp has
    obtain ⟨least, sized, inner, -⟩ := t.subtree_sized member
    have enough := sized.keysLen.1
    rw [inner (represents.root_eq ▸ different)] at enough
    rw [Tree.node_keysLen, represents.order_eq]
    exact enough
  rootKeys := by
    intro node has
    obtain ⟨k, sub, member, -, rfl⟩ := represents.hasInternal has
    obtain ⟨least, sized, -, inner⟩ := t.subtree_sized member
    have enough := sized.enough
    simp only at inner
    exact le_trans (by omega) enough
  separators := by
    intro id node has i sep found key value
    obtain ⟨k, sub, member, -, rfl⟩ := represents.hasInternal has
    obtain ⟨least, sized, -⟩ := t.subtree_sized member
    have ordered := Tree.ordered_subtree t.sized t.ordered member
    obtain ⟨hole, left, right, filled, place⟩ :=
      Hole.exists_fillTwo sized.forked found
    obtain ⟨leftBelow, rightAbove⟩ := Tree.around_separator filled ordered
    have subStored : Stored tree.store sub := represents.stored.subtree member
    have leftAt : sub.body.children[i]? = some left := by
      rw [filled, ← place, Hole.fillTwo_getElem?]
    have rightAt : sub.body.children[i + 1]? = some right := by
      rw [filled, ← place, Hole.fillTwo_getElem?_succ]
    constructor
    · intro child childAt holds
      rw [Internal.map, List.getElem?_map, leftAt] at childAt
      cases childAt
      have leftStored := subStored.child (List.mem_of_getElem? leftAt)
      exact leftBelow _ ((holds_stored leftStored).mp holds)
    · intro child childAt holds
      rw [Internal.map, List.getElem?_map, rightAt] at childAt
      cases childAt
      have rightStored := subStored.child (List.mem_of_getElem? rightAt)
      exact rightAbove _ ((holds_stored rightStored).mp holds)
  depth := by
    intro depth id leaf path got
    rw [represents.root_eq] at path
    obtain ⟨⟨k, sub⟩, member, level, rfl⟩ := (below_stored represents.stored).mp path
    rw [represents.stored _ member, Traced.pure_inj] at got
    cases k with
    | zero =>
        rw [represents.height]
        simp only at level
        rw [← level, Nat.zero_add, Nat.add_comm]
    | succ k => cases got
  counted := by
    refine ⟨t.cells.leaves, ?_, ?_, ?_⟩
    · exact represents.owned.nodup.sublist (Cells.leaves_names t.cells)
    · intro id leaf
      rw [Cells.mem_leaves, represents.hasNode_iff_cell]
    · rw [represents.len_eq]
      exact (Tree.leaves_count t.tree).symm
  emptyRoot := represents.len_eq_zero

end Represented

end BPlusTree

section Main

variable [LinearOrder K]

/-- The B+tree invariant holds after every run. -/
theorem run_wellFormed (order : Nat) (start : Start K V) (calls : List (Call K V))
    (isExact : (start.run order calls).Exact) :
    ∃ replies tree, start.run order calls = pure (replies, tree) ∧
      tree.order = max order minOrder ∧ tree.WellFormed := by
  obtain ⟨tree, t, returned, represents, -⟩ := start.run_represents calls isExact
  exact ⟨_, tree, returned, represents.order_eq, represents.wellFormed⟩

theorem run_wellFormed_small :
    ∃ replies tree, (Start.fromSorted [(1, 10), (2, 20), (3, 30)]).run 3
        [.insert 4 40, .remove 1, .remove 2] = pure (replies, tree) ∧
      tree.order = 3 ∧ tree.WellFormed :=
  run_wellFormed 3 (.fromSorted [(1, 10), (2, 20), (3, 30)])
    [.insert 4 40, .remove 1, .remove 2] (by decide +kernel)

end Main

end IndexDb
