import IndexDb.SearchPaths
import IndexDb.StoredRemove
import Mathlib.Data.Nat.Find

/-!
# How far a removal reaches

A node with a key to spare absorbs every underflow below it.  So a removal
changes the search path from its deepest such node on, and at most one sibling
next to each node below that one.
-/

namespace IndexDb

open LawfulNodeStore

variable {Id K V : Type} {h order minKeys least : Nat}

/-- The two ids stand next to each other among the children of the node. -/
def Adjacent (node : Node Id K V) (one other : Id) : Prop :=
  ∃ internal i, node = .internal internal ∧
    (internal.children[i]? = some one ∧ internal.children[i + 1]? = some other ∨
      internal.children[i]? = some other ∧ internal.children[i + 1]? = some one)

/-- No node of the path has a key to spare. -/
def Poor (minKeys : Nat) (path : Cells Id (Node Id K V)) : Prop :=
  ∀ cell ∈ path, cell.2.keysLen ≤ minKeys

/-- The ids in `aside` stand next to the nodes of the path that have no key to
spare from there on. -/
def BesidePoor (minKeys : Nat) (path : Cells Id (Node Id K V))
    (aside : Nat → Option Id) : Prop :=
  ∀ k id, aside k = some id → 0 < k ∧ Poor minKeys (path.drop k) ∧
    ∃ parent child, path[k - 1]? = some parent ∧ path[k]? = some child ∧
      Adjacent parent.2 child.1 id

/-- The id is that of a path node with no key to spare after it. -/
def OnPoor (minKeys : Nat) (path : Cells Id (Node Id K V)) (id : Id) : Prop :=
  ∃ k place, path[k]? = some place ∧ Poor minKeys (path.drop (k + 1)) ∧ place.1 = id

section Repairs

variable {hole : Hole K (Tree Id K V h)} {child : Tree Id K V h}
  {result : Internal K (Tree Id K V h)} (parent : Id)

theorem cells_repaired {wide : Hole K (Tree Id K V h)} {left right : Tree Id K V h}
    {sep : K} {rest : Cells Id (Node Id K V)} {cell : Id × Node Id K V}
    (kept : wide.leftChildren.flatMap Tree.cells ++ (left.below ++ right.below) ++
      wide.rightChildren.flatMap Tree.cells ⊆ rest)
    (member : cell ∈ Tree.cells (h := h + 1) ⟨parent, wide.fillTwo left sep right⟩)
    (notParent : cell.1 ≠ parent) (notLeft : cell.1 ≠ left.label)
    (notRight : cell.1 ≠ right.label) : cell ∈ rest := by
  have among := (cells_fillTwo parent wide left sep right).subset member
  simp only [siblingCells, List.cons_append, List.nil_append, List.mem_cons] at among
  rcases among with rfl | rfl | rfl | among
  · exact absurd rfl notParent
  · exact absurd rfl notLeft
  · exact absurd rfl notRight
  · exact kept among

theorem rest_subset_fillTwo (wide : Hole K (Tree Id K V h)) (left : Tree Id K V h)
    (sep : K) (right : Tree Id K V h) :
    wide.leftChildren.flatMap Tree.cells ++ (left.below ++ right.below) ++
        wide.rightChildren.flatMap Tree.cells ⊆
      Tree.cells (h := h + 1) ⟨parent, wide.fillTwo left sep right⟩ := fun _ member =>
  (cells_fillTwo parent wide left sep right).symm.subset (List.mem_append_right _ member)

theorem rest_subset_fill (wide : Hole K (Tree Id K V h)) (child : Tree Id K V h) :
    wide.leftChildren.flatMap Tree.cells ++ child.below ++
        wide.rightChildren.flatMap Tree.cells ⊆
      Tree.cells (h := h + 1) ⟨parent, wide.fill child⟩ := fun _ member =>
  (cells_fill parent wide child).symm.subset (List.mem_append_right _ member)

theorem Adjacent.symm {node : Node Id K V} {one other : Id}
    (adjacent : Adjacent node one other) : Adjacent node other one := by
  obtain ⟨internal, i, nodeEq, places⟩ := adjacent
  exact ⟨internal, i, nodeEq, places.symm⟩

theorem adjacent_fillTwo (wide : Hole K (Tree Id K V h)) (left : Tree Id K V h)
    (sep : K) (right : Tree Id K V h) :
    Adjacent (Tree.node (h := h + 1) ⟨parent, wide.fillTwo left sep right⟩)
      left.label right.label := by
  refine ⟨_, wide.index, rfl, .inl ?_⟩
  rw [Hole.map_fillTwo, ← Hole.map_index Tree.label]
  exact ⟨Hole.fillTwo_getElem? _ _ _ _, Hole.fillTwo_getElem?_succ _ _ _ _⟩

/-- Repairing a child changes its parent, the child and one sibling next to it,
and no other node. -/
theorem Rebalanced.touches (rebalanced : Rebalanced minKeys hole child result)
    (positive : 1 ≤ minKeys)
    (siblings : ∀ sibling ∈ hole.others, sibling.Sized order minKeys minKeys) :
    ∃ sibling, Adjacent (Tree.node (h := h + 1) ⟨parent, hole.fill child⟩)
        child.label sibling ∧
      ∀ cell ∈ Tree.cells (h := h + 1) ⟨parent, hole.fill child⟩, cell.1 ≠ parent →
        cell.1 ≠ child.label → cell.1 ≠ sibling →
          cell ∈ Tree.cells (h := h + 1) ⟨parent, result⟩ := by
  cases rebalanced with
  | @fromLeft wide left sep place spare =>
      subst place
      rw [Hole.pastLeft_fill]
      have rotated : Tree.Rotated left child (left.rotateRight sep child) :=
        Tree.rotateRight_rotated (siblings left (by simp)) (by omega)
      refine ⟨left.label, (adjacent_fillTwo parent wide left sep child).symm,
        fun cell member notParent notChild notLeft => ?_⟩
      refine cells_repaired parent ?_ member notParent notLeft notChild
      rw [← rotated.below]
      exact rest_subset_fillTwo _ _ _ _ _
  | @fromRight wide sep right place spare _ =>
      subst place
      rw [Hole.beforeRight_fill]
      have rotated : Tree.Rotated child right (child.rotateLeft sep right) :=
        Tree.rotateLeft_rotated (siblings right (by simp)) (by omega)
      refine ⟨right.label, adjacent_fillTwo parent wide child sep right,
        fun cell member notParent notChild notRight => ?_⟩
      refine cells_repaired parent ?_ member notParent notChild notRight
      rw [← rotated.below]
      exact rest_subset_fillTwo _ _ _ _ _
  | @intoLeft wide left sep place _ _ =>
      subst place
      rw [Hole.pastLeft_fill]
      refine ⟨left.label, (adjacent_fillTwo parent wide left sep child).symm,
        fun cell member notParent notChild notLeft => ?_⟩
      refine cells_repaired parent ?_ member notParent notLeft notChild
      rw [← Tree.join_below]
      exact rest_subset_fill _ _ _
  | @intoRight wide sep right place _ _ =>
      subst place
      rw [Hole.beforeRight_fill]
      refine ⟨right.label, adjacent_fillTwo parent wide child sep right,
        fun cell member notParent notChild notRight => ?_⟩
      refine cells_repaired parent ?_ member notParent notChild notRight
      rw [← Tree.join_below]
      exact rest_subset_fill _ _ _

end Repairs

theorem poor_cons {cell : Id × Node Id K V} {path : Cells Id (Node Id K V)} :
    Poor minKeys (cell :: path) ↔ cell.2.keysLen ≤ minKeys ∧ Poor minKeys path :=
  List.forall_mem_cons

/-- A node on top of a path moves what stands beside the path down by one place.
The second node then stands at place one. -/
def pushAside (sibling : Option Id) (aside : Nat → Option Id) : Nat → Option Id
  | 0 => none
  | 1 => sibling
  | k + 2 => aside (k + 1)

/-- What stands beside a path stands beside it one node further down. -/
theorem BesidePoor.push {path : Cells Id (Node Id K V)} {aside : Nat → Option Id}
    (beside : BesidePoor minKeys path aside) (cell : Id × Node Id K V)
    {second : Id × Node Id K V} (secondAt : path[0]? = some second) {sibling : Option Id}
    (next : ∀ id, sibling = some id →
      Poor minKeys path ∧ Adjacent cell.2 second.1 id) :
    BesidePoor minKeys (cell :: path) (pushAside sibling aside) := by
  intro k id equal
  rcases k with - | - | k
  · cases equal
  · obtain ⟨poor, adjacent⟩ := next id equal
    exact ⟨Nat.one_pos, poor, cell, second, rfl, secondAt, adjacent⟩
  · obtain ⟨-, poor, parent, child, parentAt, childAt, adjacent⟩ := beside (k + 1) id equal
    exact ⟨Nat.succ_pos _, poor, parent, child, parentAt, childAt, adjacent⟩

theorem BesidePoor.not_beside {path : Cells Id (Node Id K V)} {aside : Nat → Option Id}
    (beside : BesidePoor minKeys path aside) {sibling : Option Id} {id : Id}
    (apart : ∀ k, pushAside sibling aside k ≠ some id) (k : Nat) : aside k ≠ some id := by
  intro equal
  obtain ⟨k, rfl⟩ := Nat.exists_eq_add_one_of_ne_zero (Nat.ne_of_gt (beside k id equal).1)
  exact apart (k + 2) equal

theorem OnPoor.cons {path : Cells Id (Node Id K V)} {id : Id}
    (onPoor : OnPoor minKeys path id) (cell : Id × Node Id K V) :
    OnPoor minKeys (cell :: path) id := by
  obtain ⟨k, place, placeEq, poor, rfl⟩ := onPoor
  exact ⟨k + 1, place, placeEq, poor, rfl⟩

/-- A root is left as it is, or has lost all its keys and gives way to the one
node below it. -/
theorem Tree.collapse_outcome {tree : Tree Id K V h} (sized : tree.Sized order minKeys least) :
    tree.collapse = ⟨h, tree⟩ ∨ tree.keysLen = 0 ∧ tree.collapse.1 + 1 = h ∧
      tree.cells = (tree.label, tree.node) :: tree.collapse.2.cells := by
  cases h with
  | zero => exact .inl rfl
  | succ h =>
      rcases collapse_cases sized.forked with ⟨only, single, collapsed⟩ | ⟨-, -, collapsed⟩
      · refine .inr ⟨?_, ?_, ?_⟩
        · simp [keysLen, single]
        · rw [collapsed]
        · rw [collapsed, cells_eq, below, single]
          simp [Internal.gather]
      · exact .inl collapsed

/-- A node that is spared under a child is spared when the child is put back. -/
theorem Tree.refill_spares {tree : Tree Id K V (h + 1)} {hole : Hole K (Tree Id K V h)}
    {child next : Tree Id K V h} (filled : tree.body = hole.fill child)
    (labelEq : next.label = child.label) {cell : Id × Node Id K V}
    (member : cell ∈ tree.cells) (kept : cell ∈ child.cells → cell ∈ next.cells) :
    cell ∈ Tree.cells (h := h + 1) ⟨tree.label, hole.fill next⟩ := by
  rw [cells_refill filled labelEq]
  rw [cells_fill filled] at member
  simp only [List.mem_append] at member ⊢
  rcases member with (around | inside) | onRight
  · exact .inl (.inl around)
  · exact .inl (.inr (kept inside))
  · exact .inr onRight

section Cascades

variable [Preorder K] [Std.IsLinearPreorder K] [DecidableLT K] {key : K}
  {tree : Tree Id K V h}

namespace Tree

theorem removeFrom_loses (key : K) (positive : 1 ≤ minKeys) (half : 2 * minKeys + 1 ≤ order)
    (sized : tree.Sized order minKeys least) (ordered : Mark.Ordered tree.marks)
    (inner : min h 1 ≤ tree.keysLen) :
    tree.keysLen - 1 ≤ (tree.removeFrom minKeys key).2.keysLen :=
  (removeFrom_sized key positive half (sized.mono (Nat.le_refl _)) ordered
    inner).keysLen.1

/-- A node with a key to spare on the path keeps the root from underflowing. -/
theorem removeFrom_enough (positive : 1 ≤ minKeys) (half : 2 * minKeys + 1 ≤ order)
    (sized : tree.Sized order minKeys minKeys) (ordered : Mark.Ordered tree.marks)
    (spare : ¬ Poor minKeys (tree.path key)) :
    minKeys ≤ (tree.removeFrom minKeys key).2.keysLen := by
  induction h with
  | zero =>
      have keysEq : tree.node.keysLen = tree.keysLen := node_keysLen tree
      rw [path, poor_cons, keysEq] at spare
      by_contra few
      have loses := removeFrom_loses key positive half sized ordered (by omega)
      exact spare ⟨by omega, fun cell member => by cases member⟩
  | succ h ih =>
      obtain ⟨hole, child, filled, indexEq, -⟩ :=
        route (Internal.Occupied.forked sized) ordered key
      have keysEq : tree.node.keysLen = tree.keysLen := node_keysLen tree
      have rootEnough := sized.keysLen.1
      rw [path_fill filled indexEq, poor_cons, keysEq] at spare
      by_cases rootSpare : minKeys < tree.keysLen
      · have loses := removeFrom_loses key positive half sized ordered (by omega)
        omega
      · have enough := ih (sized.child filled) (ordered_child filled ordered)
          fun poor => spare ⟨by omega, poor⟩
        rw [removeFrom_fill minKeys key filled indexEq, if_neg (by omega)]
        simp only [keysLen, filled, Hole.fill_keys_length] at rootEnough ⊢
        exact rootEnough

/-- A node stays as it is when one below it on the path has a key to spare. -/
theorem removeFrom_spared (positive : 1 ≤ minKeys) (half : 2 * minKeys + 1 ≤ order)
    {tree : Tree Id K V (h + 1)} (sized : tree.Sized order minKeys least)
    (ordered : Mark.Ordered tree.marks) {hole : Hole K (Tree Id K V h)}
    {child : Tree Id K V h} (filled : tree.body = hole.fill child)
    (indexEq : tree.body.childIndex key = hole.index)
    (spare : ¬ Poor minKeys (child.path key)) :
    (tree.removeFrom minKeys key).2.cells =
      ((tree.label, tree.node) :: hole.leftChildren.flatMap cells) ++
        (child.removeFrom minKeys key).2.cells ++ hole.rightChildren.flatMap cells := by
  have enough := removeFrom_enough positive half (sized.child filled)
    (ordered_child filled ordered) spare
  rw [removeFrom_fill minKeys key filled indexEq, if_neg (by omega)]
  exact cells_refill filled (removeFrom_label minKeys key child)

theorem removeFrom_above (positive : 1 ≤ minKeys) (half : 2 * minKeys + 1 ≤ order)
    (sized : tree.Sized order minKeys least) (ordered : Mark.Ordered tree.marks)
    {i : Nat} {cell : Id × Node Id K V} (place : (tree.path key)[i]? = some cell)
    (spare : ¬ Poor minKeys ((tree.path key).drop (i + 1))) :
    cell ∈ (tree.removeFrom minKeys key).2.cells := by
  induction h generalizing least i with
  | zero => exact absurd (fun cell member => by simp [path] at member) spare
  | succ h ih =>
      obtain ⟨hole, child, filled, indexEq, -⟩ :=
        route (Internal.Occupied.forked sized) ordered key
      rw [path_fill filled indexEq] at place spare
      rw [List.drop_succ_cons] at spare
      have childSpare : ¬ Poor minKeys (child.path key) := fun poor =>
        spare fun other member => poor other (List.mem_of_mem_drop member)
      rw [removeFrom_spared positive half sized ordered filled indexEq childSpare]
      cases i with
      | zero =>
          obtain rfl : (tree.label, tree.node) = cell := by simpa using place
          simp
      | succ i =>
          have deeper := ih (sized.child filled) (ordered_child filled ordered)
            (by simpa using place) spare
          simp [deeper]

/-- On top of what a removal changes under a child, it changes nothing, or the node,
the child and one sibling when the path under the node is poor. -/
theorem removeFrom_touches (positive : 1 ≤ minKeys) (half : 2 * minKeys + 1 ≤ order)
    {tree : Tree Id K V (h + 1)} (sized : tree.Sized order minKeys least)
    (ordered : Mark.Ordered tree.marks) (inner : 1 ≤ least) {hole : Hole K (Tree Id K V h)}
    {child : Tree Id K V h} (filled : tree.body = hole.fill child)
    (indexEq : tree.body.childIndex key = hole.index) :
    ∃ sibling : Option Id,
      (∀ id, sibling = some id →
        Poor minKeys (child.path key) ∧ Adjacent tree.node child.label id) ∧
      ∀ cell ∈ cells (h := h + 1)
          ⟨tree.label, hole.fill (child.removeFrom minKeys key).2⟩,
        (Poor minKeys (child.path key) → cell.1 ≠ tree.label ∧ cell.1 ≠ child.label) →
          sibling ≠ some cell.1 → cell ∈ (tree.removeFrom minKeys key).2.cells := by
  have labelEq := removeFrom_label minKeys key child
  rw [removeFrom_fill minKeys key filled indexEq]
  by_cases under : (child.removeFrom minKeys key).1.isSome ∧
      (child.removeFrom minKeys key).2.keysLen < minKeys
  · obtain ⟨enough, -, siblings⟩ := sized.around filled
    have poor : Poor minKeys (child.path key) := by
      by_contra spare
      have enough := removeFrom_enough positive half (sized.child filled)
        (ordered_child filled ordered) spare
      omega
    have repaired := rebalance_rebalanced minKeys hole
      (child.removeFrom minKeys key).2 (Hole.several (by omega))
    obtain ⟨sibling, adjacent, touches⟩ := repaired.touches tree.label positive siblings
    have nodeEq : node (h := h + 1) ⟨tree.label, hole.fill (child.removeFrom minKeys key).2⟩ =
        tree.node := by
      simp only [node, filled, Hole.map_fill, labelEq]
    rw [nodeEq, labelEq] at adjacent
    rw [labelEq] at touches
    rw [if_pos under]
    refine ⟨some sibling, ?_, fun cell member apart notSibling => ?_⟩
    · rintro _ ⟨⟩
      exact ⟨poor, adjacent⟩
    · obtain ⟨notParent, notChild⟩ := apart poor
      exact touches cell member notParent notChild
        fun isSibling => notSibling (congrArg some isSibling.symm)
  · rw [if_neg under]
    refine ⟨none, ?_, fun cell member _ _ => member⟩
    rintro _ ⟨⟩

/-- A removal changes nodes at the poor end of the path, and at most one sibling
next to each of them. -/
theorem removeFrom_local (key : K) (positive : 1 ≤ minKeys) (half : 2 * minKeys + 1 ≤ order)
    (sized : tree.Sized order minKeys least) (ordered : Mark.Ordered tree.marks)
    (inner : min h 1 ≤ least) :
    ∃ aside, BesidePoor minKeys (tree.path key) aside ∧ ∀ cell ∈ tree.cells,
      ¬ OnPoor minKeys (tree.path key) cell.1 → (∀ k, aside k ≠ some cell.1) →
        cell ∈ (tree.removeFrom minKeys key).2.cells := by
  induction h generalizing least with
  | zero =>
      refine ⟨fun _ => none, fun k id equal => (by cases equal), fun cell member apart _ => ?_⟩
      refine absurd ⟨0, (tree.label, tree.node), rfl, fun other found => ?_, ?_⟩ apart
      · simp [path] at found
      · rw [List.mem_singleton.mp member]
        rfl
  | succ h ih =>
      obtain ⟨hole, child, filled, indexEq, -⟩ :=
        route (Internal.Occupied.forked sized) ordered key
      obtain ⟨asideBelow, beside, kept⟩ :=
        ih (sized.child filled) (ordered_child filled ordered) (by omega)
      obtain ⟨sibling, adjacent, touches⟩ :=
        removeFrom_touches positive half sized ordered (by omega) filled indexEq
      have second := path_first key child
      rw [path_fill filled indexEq]
      refine ⟨pushAside sibling asideBelow, beside.push _ second adjacent, ?_⟩
      intro cell member apart notBeside
      refine touches cell ?_ (fun poor => ⟨fun isRoot => ?_, fun isChild => ?_⟩) (notBeside 1)
      · refine refill_spares filled (removeFrom_label minKeys key child) member fun inside => ?_
        exact kept cell inside (fun onPoor => apart (onPoor.cons _))
          (beside.not_beside notBeside)
      · exact apart ⟨0, _, rfl, poor, isRoot.symm⟩
      · exact apart ⟨1, _, second, fun other found => poor other (List.mem_of_mem_drop found),
          isChild.symm⟩

/-- The root keeps its keys when a node below it on the path has one to spare. -/
theorem removeFrom_keysLen (key : K) (positive : 1 ≤ minKeys) (half : 2 * minKeys + 1 ≤ order)
    (sized : tree.Sized order minKeys least) (ordered : Mark.Ordered tree.marks)
    (spare : ¬ Poor minKeys ((tree.path key).drop 1)) :
    (tree.removeFrom minKeys key).2.keysLen = tree.keysLen := by
  cases h with
  | zero => exact absurd (fun cell member => by cases member) spare
  | succ h =>
      obtain ⟨hole, child, filled, indexEq, -⟩ :=
        route (Internal.Occupied.forked sized) ordered key
      rw [path_fill filled indexEq] at spare
      have enough := removeFrom_enough positive half (sized.child filled)
        (ordered_child filled ordered) spare
      rw [removeFrom_fill minKeys key filled indexEq, if_neg (by omega)]
      simp only [keysLen, filled, Hole.fill_keys_length]

end Tree

end Cascades

/-- The node can lose a key and stay legal, as the root or below it. -/
def CanLose (order : Nat) : Nat → Node Id K V → Prop
  | 0, .leaf _ => True
  | 0, .internal node => 2 ≤ node.keys.length
  | _ + 1, node => (order + 1) / 2 - 1 < node.keysLen

/-- The node at that place of the path can lose a key. -/
def SafeAt (order : Nat) (path : Cells Id (Node Id K V)) (k : Nat) : Prop :=
  ∃ cell, path[k]? = some cell ∧ CanLose order k cell.2

theorem SafeAt.root_keys {path : Cells Id (Node Id K V)} (safe : SafeAt order path 0)
    {tree : Tree Id K V h} (rootAt : path[0]? = some (tree.label, tree.node))
    (inner : 0 < h) : 2 ≤ tree.keysLen := by
  obtain ⟨cell, place, canLose⟩ := safe
  rw [rootAt] at place
  obtain rfl := Option.some.inj place
  obtain ⟨h, rfl⟩ : ∃ rest, h = rest + 1 := ⟨h - 1, by omega⟩
  exact canLose

/-- The deepest safe place of the path, or the root when no place is safe. -/
structure DeepestSafe (order : Nat) (path : Cells Id (Node Id K V)) (j : Nat) : Prop where
  safe : SafeAt order path j ∨ j = 0
  deepest : ∀ k, j < k → ¬ SafeAt order path k

theorem DeepestSafe.not_poor {path : Cells Id (Node Id K V)} {j k : Nat}
    (deepest : DeepestSafe order path j) (inside : k ≤ j) (below : 0 < j) :
    ¬ Poor (leastKeys order) (path.drop k) := by
  intro poor
  rcases deepest.safe with ⟨cell, place, canLose⟩ | rfl
  · obtain ⟨j, rfl⟩ : ∃ rest, j = rest + 1 := ⟨j - 1, by omega⟩
    have few := poor cell (List.mem_of_getElem? (i := j + 1 - k) (by
      rw [List.getElem?_drop, show k + (j + 1 - k) = j + 1 by omega, place]))
    have many : leastKeys order < cell.2.keysLen := canLose
    omega
  · exact absurd below (Nat.lt_irrefl 0)

theorem DeepestSafe.poor {path : Cells Id (Node Id K V)} {j : Nat}
    (deepest : DeepestSafe order path j) : Poor (leastKeys order) (path.drop (j + 1)) := by
  intro cell member
  obtain ⟨i, place⟩ := List.getElem?_of_mem member
  rw [List.getElem?_drop] at place
  by_contra spare
  refine deepest.deepest (j + 1 + i) (by omega) ⟨cell, place, ?_⟩
  rw [show j + 1 + i = j + i + 1 by omega]
  exact Nat.lt_of_not_le spare

theorem exists_deepestSafe (order : Nat) (path : Cells Id (Node Id K V)) :
    ∃ j, DeepestSafe order path j := by
  classical
  refine ⟨Nat.findGreatest (SafeAt order path) path.length, ?_, fun k above safe => ?_⟩
  · by_cases first : Nat.findGreatest (SafeAt order path) path.length = 0
    · exact .inr first
    · exact .inl (Nat.findGreatest_of_ne_zero rfl first)
  · refine Nat.findGreatest_is_greatest above ?_ safe
    obtain ⟨cell, place, -⟩ := safe
    exact (List.getElem?_eq_some_iff.mp place).1.le

namespace BPlusTree

/-- What a removal of a present key changes when `j` is the deepest safe place on
its search path of `h` nodes: only nodes of the path from there on, and at most
one sibling next to each of them below that place. -/
structure RemovesFrom (tree next : BPlusTree K V)
    (path : Cells NodeId (Node NodeId K V)) (h j : Nat) : Prop where
  elsewhere : ∃ aside : Nat → Option NodeId,
    (∀ k id, aside k = some id → j < k ∧ ∃ parent child, path[k - 1]? = some parent ∧
      path[k]? = some child ∧ Adjacent parent.2 child.1 id) ∧
    ∀ id node, tree.HasNode id node → (∀ cell ∈ path.drop j, cell.1 ≠ id) →
      (∀ k, aside k ≠ some id) → next.HasNode id node
  above : ∀ cell ∈ path.take j, next.HasNode cell.1 cell.2
  root : SafeAt tree.order path j → next.root = tree.root
  height : next.root = tree.root ∧ next.height = pure h ∨
    next.root ≠ tree.root ∧ ∃ lower, h = lower + 1 ∧ next.height = pure lower

section Represented

variable [Preorder K] [Std.IsLinearPreorder K] [DecidableLT K] {tree : BPlusTree K V}
  {t : SearchTree NodeId K V order} {key : K} {j : Nat}

theorem remove_outcome (t : SearchTree NodeId K V order) (key : K)
    (present : (t.tree.removeFrom (leastKeys order) key).1.isSome) :
    ((t.remove key).2.height = t.height ∧ (t.remove key).2.root = t.root ∧
        (t.remove key).2.cells = (t.tree.removeFrom (leastKeys order) key).2.cells) ∨
      (t.tree.removeFrom (leastKeys order) key).2.keysLen = 0 ∧
        (t.remove key).2.height + 1 = t.height ∧
        (t.tree.removeFrom (leastKeys order) key).2.cells =
          (t.root, (t.tree.removeFrom (leastKeys order) key).2.node) ::
            (t.remove key).2.cells := by
  have shrunk := Tree.removeFrom_sized key (leastKeys_pos t.large) (leastKeys_half t.large)
    t.sized t.ordered (Nat.le_refl _)
  have labelEq := Tree.removeFrom_label (leastKeys order) key t.tree
  have removedEq : (t.tree.remove (leastKeys order) key).2 =
      (t.tree.removeFrom (leastKeys order) key).2.collapse := if_pos present
  have outcome := Tree.collapse_outcome shrunk
  rw [labelEq, ← removedEq] at outcome
  rcases outcome with same | lower
  · refine .inl ⟨congrArg Sigma.fst same, ?_, ?_⟩
    · change (t.tree.remove (leastKeys order) key).2.2.label = _
      rw [same]
      exact labelEq
    · change (t.tree.remove (leastKeys order) key).2.2.cells = _
      rw [same]
  · exact .inr lower

/-- A node that a removal leaves outlives the collapse, if it is not the root or a
node under the root on the path keeps the root from losing keys. -/
theorem remove_survives (t : SearchTree NodeId K V order) (key : K)
    (present : (t.tree.removeFrom (leastKeys order) key).1.isSome)
    {cell : NodeId × Node NodeId K V}
    (member : cell ∈ (t.tree.removeFrom (leastKeys order) key).2.cells)
    (spared : cell.1 = t.root → ¬ Poor (leastKeys order) ((t.tree.path key).drop 1)) :
    cell ∈ (t.remove key).2.cells := by
  rcases remove_outcome t key present with ⟨-, -, same⟩ | ⟨none, lower, cellsEq⟩
  · rwa [same]
  · rw [cellsEq] at member
    rcases List.mem_cons.mp member with rfl | member
    · have sameKeys := Tree.removeFrom_keysLen key (leastKeys_pos t.large)
        (leastKeys_half t.large) t.sized t.ordered (spared rfl)
      have enough := t.sized.keysLen.1
      omega
    · exact member

/-- The root stays when it is safe, or when a node under it on the path is. -/
theorem remove_keeps_root (t : SearchTree NodeId K V order)
    (present : (t.tree.removeFrom (leastKeys order) key).1.isSome)
    (deepest : DeepestSafe order (t.tree.path key) j)
    (safe : SafeAt order (t.tree.path key) j) : (t.remove key).2.root = t.root := by
  have positive := leastKeys_pos t.large
  have half := leastKeys_half t.large
  have enough := t.sized.keysLen.1
  rcases remove_outcome t key present with ⟨-, same, -⟩ | ⟨none, lower, -⟩
  · exact same
  · have loses := Tree.removeFrom_loses key positive half t.sized t.ordered enough
    rcases Nat.eq_zero_or_pos j with rfl | below
    · have two := safe.root_keys (Tree.path_first key t.tree) (by omega)
      omega
    · have sameKeys := Tree.removeFrom_keysLen key positive half t.sized t.ordered
        (deepest.not_poor (by omega) below)
      omega

theorem remove_height (t : SearchTree NodeId K V order)
    (present : (t.tree.removeFrom (leastKeys order) key).1.isSome)
    (distinct : (t.tree.removeFrom (leastKeys order) key).2.cells.names.Nodup) :
    (t.remove key).2.root = t.root ∧ (t.remove key).2.height = t.height ∨
      (t.remove key).2.root ≠ t.root ∧ (t.remove key).2.height + 1 = t.height := by
  rcases remove_outcome t key present with ⟨sameHeight, same, -⟩ | ⟨-, lower, cellsEq⟩
  · exact .inl ⟨same, sameHeight⟩
  · refine .inr ⟨fun same => ?_, lower⟩
    rw [cellsEq, Cells.names_cons, List.nodup_cons] at distinct
    refine distinct.1 ?_
    dsimp only
    rw [← same, SearchTree.cells_names]
    exact Tree.mem_labels.mpr ⟨_, Tree.self_mem_subtrees _, rfl⟩

theorem Represents.remove_removesFrom (represents : tree.Represents t) {value : V}
    (present : tree.get key = pure (some value))
    (deepest : DeepestSafe tree.order (t.tree.path key) j) :
    ∃ next, tree.remove key = pure (some value, next) ∧
      tree.RemovesFrom next (t.tree.path key) (t.height + 1) j := by
  have positive := leastKeys_pos t.large
  have half := leastKeys_half t.large
  obtain ⟨next, removed, newRepresents, -⟩ := represents.remove key
  obtain ⟨store, -, change⟩ := removeFrom_refines positive represents.valid
    represents.owned t.sized t.ordered (Nat.le_refl _) key represents.enough_fuel
  have valueEq : (t.tree.removeFrom (leastKeys order) key).1 = some value := by
    rw [represents.get, Traced.pure_inj] at present
    exact (t.remove_removed key).trans present
  have isSome : (t.tree.removeFrom (leastKeys order) key).1.isSome := by
    rw [valueEq]
    rfl
  rw [represents.order_eq] at deepest
  obtain ⟨aside, beside, kept⟩ := Tree.removeFrom_local key positive half t.sized
    t.ordered (Nat.le_refl _)
  have survives {cell : NodeId × Node NodeId K V}
      (member : cell ∈ (t.tree.removeFrom (leastKeys order) key).2.cells)
      (spared : cell.1 = t.root → ¬ Poor (leastKeys order) ((t.tree.path key).drop 1)) :
      next.HasNode cell.1 cell.2 :=
    newRepresents.hasNode_iff_cell.mpr (remove_survives t key isSome member spared)
  refine ⟨next, ?_, ⟨aside, ?_, ?_⟩, ?_, ?_, ?_⟩
  · rw [removed]
    exact congrArg (fun reply => pure (reply, next)) valueEq
  · intro k id equal
    obtain ⟨below, poor, adjacent⟩ := beside k id equal
    refine ⟨?_, adjacent⟩
    by_contra above
    exact deepest.not_poor (by omega) (by omega) poor
  · intro id node has offPath notBeside
    have apart : ¬ OnPoor (leastKeys order) (t.tree.path key) id := by
      rintro ⟨k, place, placeAt, poor, rfl⟩
      have inside : j ≤ k := by
        by_contra above
        exact deepest.not_poor (by omega) (by omega) poor
      refine offPath place (List.mem_of_getElem? (i := k - j) ?_) rfl
      rw [List.getElem?_drop, show j + (k - j) = k by omega, placeAt]
    refine survives (kept _ (represents.hasNode_iff_cell.mp has) apart notBeside) ?_
    rintro rfl poor
    exact apart ⟨0, _, Tree.path_first key t.tree, poor, rfl⟩
  · intro cell member
    obtain ⟨i, place⟩ := List.getElem?_of_mem member
    rw [List.getElem?_take] at place
    split_ifs at place with above
    refine survives (Tree.removeFrom_above positive half t.sized t.ordered place
      (deepest.not_poor (by omega) (by omega))) fun _ => ?_
    exact deepest.not_poor (by omega) (by omega)
  · intro safe
    rw [newRepresents.root_eq, represents.root_eq]
    rw [represents.order_eq] at safe
    exact remove_keeps_root t isSome deepest safe
  · rw [newRepresents.root_eq, represents.root_eq, newRepresents.height]
    rcases remove_height t isSome change.owned.nodup with
      ⟨same, sameHeight⟩ | ⟨different, lower⟩
    · exact .inl ⟨same, by rw [sameHeight, Nat.add_comm]⟩
    · exact .inr ⟨different, (t.remove key).2.height + 1, by rw [lower],
        by rw [Nat.add_comm]⟩

end Represented

end BPlusTree

section Main

variable [Preorder K] [Std.IsLinearPreorder K] [DecidableLT K]

/-- In every reachable tree, removing a present key changes only the end of its
search path from the deepest safe node on, and siblings next to it. -/
theorem run_remove_local (order : Nat) (start : Start K V) (calls : List (Call K V))
    (key : K) (isExact : (start.run order calls).Exact) :
    ∃ replies tree path h j, start.run order calls = pure (replies, tree) ∧
      tree.searchPath key = pure path ∧ tree.height = pure h ∧
      DeepestSafe tree.order path j ∧
      ∀ value, tree.get key = pure (some value) →
        ∃ next, tree.remove key = pure (some value, next) ∧ tree.RemovesFrom next path h j := by
  obtain ⟨tree, t, returned, represents, -⟩ := start.run_represents calls isExact
  obtain ⟨j, deepest⟩ := exists_deepestSafe tree.order (t.tree.path key)
  refine ⟨_, tree, _, t.height + 1, j, returned, represents.searchPath key, ?_, deepest,
    fun value present => represents.remove_removesFrom present deepest⟩
  rw [represents.height, Nat.add_comm]

/-- Two leaves merge, and their parent borrows a child from its sibling. -/
theorem run_remove_local_small :
    ∃ replies tree path h j next,
      (Start.fromSorted [(1, 10), (2, 20), (3, 30), (4, 40), (5, 50), (6, 60), (7, 70),
        (8, 80), (9, 90), (10, 100)]).run 3 [.remove 8, .remove 10] =
          pure (replies, tree) ∧
      tree.searchPath 9 = pure path ∧ tree.height = pure h ∧
      DeepestSafe tree.order path j ∧
      tree.remove 9 = pure (some 90, next) ∧ tree.RemovesFrom next path h j := by
  obtain ⟨replies, tree, path, h, j, returned, searched, heightEq, deepest, removes⟩ :=
    run_remove_local 3
      (.fromSorted [(1, 10), (2, 20), (3, 30), (4, 40), (5, 50), (6, 60), (7, 70),
        (8, 80), (9, 90), (10, 100)]) [.remove 8, .remove 10] 9 (by decide +kernel)
  obtain ⟨next, removed, removesFrom⟩ := removes 90 (Start.run_get returned 9)
  exact ⟨replies, tree, path, h, j, next, returned, searched, heightEq, deepest, removed,
    removesFrom⟩

end Main

end IndexDb
