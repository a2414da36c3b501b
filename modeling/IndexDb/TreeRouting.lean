import IndexDb.Tree

/-!
# Routing through separators

The child that a search descends into is the only one whose marks can stand
next to the key: everything left of it lets the key follow, everything right
of it lets the key precede.
-/

namespace IndexDb

section Marks

variable {L K V Child : Type} {h : Nat}

/-- The in-order marks under an internal node. -/
def Internal.treeMarks (node : Internal K (Tree L K V h)) : List (Mark K V) :=
  Mark.interleave node.keys (node.children.map Tree.marks)

namespace Internal

/-- A separator cuts the marks of a node in two. -/
theorem treeMarks_cut {node left right : Internal K (Tree L K V h)} {sep : K}
    (keysEq : node.keys = left.keys ++ sep :: right.keys)
    (childrenEq : node.children = left.children ++ right.children)
    (leftForked : left.Forked) :
    left.treeMarks ++ .separator sep :: right.treeMarks = node.treeMarks := by
  rw [treeMarks, treeMarks, treeMarks, keysEq, childrenEq, List.map_append,
    Mark.interleave_cut sep (by simpa [Internal.Forked] using leftForked)]

theorem treeMarks_singleton (child : Tree L K V h) :
    treeMarks ⟨[], [child]⟩ = child.marks := by
  simp [treeMarks, Mark.interleave]

theorem treeMarks_cons (sep : K) (keys : List K) (child : Tree L K V h)
    (children : List (Tree L K V h)) :
    treeMarks ⟨sep :: keys, child :: children⟩ =
      child.marks ++ .separator sep :: treeMarks ⟨keys, children⟩ :=
  rfl

/-- A child and a separator at the end of a node. -/
theorem treeMarks_concat {keys : List K} {children : List (Tree L K V h)}
    (sep : K) (child : Tree L K V h)
    (forked : Forked (⟨keys, children⟩ : Internal K (Tree L K V h))) :
    treeMarks ⟨keys ++ [sep], children ++ [child]⟩ =
      treeMarks ⟨keys, children⟩ ++ .separator sep :: child.marks := by
  rw [← treeMarks_singleton child]
  exact (treeMarks_cut rfl rfl forked).symm

end Internal

namespace Hole

/-- The marks left of the open place. -/
def leftMarks (hole : Hole K (Tree L K V h)) : List (Mark K V) :=
  Mark.closed hole.leftKeys (hole.leftChildren.map Tree.marks)

/-- The marks right of the open place. -/
def rightMarks (hole : Hole K (Tree L K V h)) : List (Mark K V) :=
  Mark.opened hole.rightKeys (hole.rightChildren.map Tree.marks)

theorem entries_leftMarks (hole : Hole K (Tree L K V h)) :
    Mark.entries hole.leftMarks = hole.leftChildren.flatMap Tree.entries := by
  rw [leftMarks, Mark.entries_closed (by simpa using hole.left_even),
    List.flatMap_map]
  rfl

theorem entries_rightMarks (hole : Hole K (Tree L K V h)) :
    Mark.entries hole.rightMarks = hole.rightChildren.flatMap Tree.entries := by
  rw [rightMarks, Mark.entries_opened (by simpa using hole.right_even),
    List.flatMap_map]
  rfl

theorem treeMarks_fill (hole : Hole K (Tree L K V h)) (child : Tree L K V h) :
    (hole.fill child).treeMarks =
      hole.leftMarks ++ child.marks ++ hole.rightMarks := by
  simp only [Internal.treeMarks, fill, List.map_append, List.map_cons]
  exact Mark.interleave_focus child.marks (by simpa using hole.left_even)
    (by simpa using hole.right_even)

theorem treeMarks_fillTwo (hole : Hole K (Tree L K V h))
    (left : Tree L K V h) (sep : K) (right : Tree L K V h) :
    (hole.fillTwo left sep right).treeMarks =
      hole.leftMarks ++ (left.marks ++ .separator sep :: right.marks) ++
        hole.rightMarks := by
  rw [← beforeRight_fill, treeMarks_fill]
  simp [leftMarks, rightMarks, beforeRight]

end Hole

namespace Tree

theorem marks_node (tree : Tree L K V (h + 1)) :
    tree.marks = tree.body.treeMarks :=
  rfl

theorem entries_leaf (tree : Tree L K V 0) : tree.entries = tree.body :=
  Mark.entries_ofEntries tree.body

theorem entries_node (tree : Tree L K V (h + 1)) :
    tree.entries = tree.body.gather entries := by
  simp only [entries, marks_node, Internal.treeMarks, Mark.entries_interleave,
    Internal.gather, List.flatMap_map]
  rfl

theorem marks_fill {tree : Tree L K V (h + 1)}
    {hole : Hole K (Tree L K V h)} {child : Tree L K V h}
    (filled : tree.body = hole.fill child) :
    tree.marks = hole.leftMarks ++ child.marks ++ hole.rightMarks := by
  rw [marks_node, filled, hole.treeMarks_fill]

theorem entries_fill {tree : Tree L K V (h + 1)}
    {hole : Hole K (Tree L K V h)} {child : Tree L K V h}
    (filled : tree.body = hole.fill child) :
    tree.entries = Mark.entries hole.leftMarks ++ child.entries ++
      Mark.entries hole.rightMarks := by
  simp [entries, marks_fill filled]

/-- The occupancy of a node bounds its own keys. -/
theorem Sized.keysLen {order minKeys least : Nat} {tree : Tree L K V h}
    (sized : tree.Sized order minKeys least) :
    least ≤ tree.keysLen ∧ tree.keysLen < order := by
  cases h with
  | zero => exact sized
  | succ h => exact ⟨sized.enough, sized.below⟩

/-- A smaller least key count is easier to keep. -/
theorem Sized.mono {order minKeys least fewer : Nat} {tree : Tree L K V h}
    (sized : tree.Sized order minKeys least) (le : fewer ≤ tree.keysLen) :
    tree.Sized order minKeys fewer := by
  cases h with
  | zero => exact ⟨le, sized.2⟩
  | succ h => exact ⟨le, sized.below, sized.forked, sized.children⟩

theorem Sized.child {order minKeys least : Nat} {tree : Tree L K V (h + 1)}
    (sized : tree.Sized order minKeys least) {hole : Hole K (Tree L K V h)}
    {child : Tree L K V h} (filled : tree.body = hole.fill child) :
    child.Sized order minKeys minKeys :=
  sized.children child (by simp [filled, Hole.fill])

/-- The occupancy of a node, seen from one child. -/
theorem Sized.around {order minKeys least : Nat} {tree : Tree L K V (h + 1)}
    (sized : tree.Sized order minKeys least) {hole : Hole K (Tree L K V h)}
    {child : Tree L K V h} (filled : tree.body = hole.fill child) :
    least ≤ hole.keysLen ∧ hole.keysLen < order ∧
      ∀ sibling ∈ hole.others, sibling.Sized order minKeys minKeys := by
  obtain ⟨enough, below, -, children⟩ := sized
  rw [filled] at enough below children
  rw [hole.fill_keys_length] at enough below
  exact ⟨enough, below,
    fun sibling member => children sibling (Hole.mem_fill.mpr (.inr member))⟩

/-- The child that fills a hole of ordered marks has ordered marks. -/
theorem ordered_child [LE K] [LT K] {tree : Tree L K V (h + 1)}
    {hole : Hole K (Tree L K V h)} {child : Tree L K V h}
    (filled : tree.body = hole.fill child)
    (ordered : Mark.Ordered tree.marks) : Mark.Ordered child.marks := by
  rw [marks_node, filled, hole.treeMarks_fill] at ordered
  exact (Mark.ordered_append.mp (Mark.ordered_append.mp ordered).1).2.1

end Tree

end Marks

section Routing

variable {L K V : Type} {h : Nat}
variable [Preorder K] [Std.IsLinearPreorder K] [DecidableLT K]

/-- The search for a child cuts ascending separators at the key. -/
theorem childIndex_cut {Child : Type} {node : Internal K Child} (key : K)
    (ascending : node.keys.Pairwise (· < ·)) :
    ∃ leftKeys rightKeys, node.keys = leftKeys ++ rightKeys ∧
      node.childIndex key = leftKeys.length ∧
      (∀ sep ∈ leftKeys, sep ≤ key) ∧ ∀ sep ∈ rightKeys, key < sep := by
  have correct := binarySearch_answer key ascending
  unfold Internal.childIndex
  generalize binarySearch node.keys key = answer at correct
  cases correct with
  | @found before after other split below same above =>
      refine ⟨before ++ [other], after, by simpa using split, by simp, ?_, above⟩
      intro sep member
      rcases List.mem_append.mp member with member | member
      · exact (below sep member).le
      · rw [List.mem_singleton.mp member]
        have := same.2
        grind
  | @missing before after split below above =>
      exact ⟨before, after, split, rfl, fun sep member => (below sep member).le,
        above⟩

namespace Tree

/-- Every search takes one child of a forked node out of its ordered marks. -/
theorem route {tree : Tree L K V (h + 1)} (forked : tree.body.Forked)
    (ordered : Mark.Ordered tree.marks) (key : K) :
    ∃ (hole : Hole K (Tree L K V h)) (child : Tree L K V h),
      tree.body = hole.fill child ∧ tree.body.childIndex key = hole.index ∧
      Mark.AllBefore hole.leftMarks key ∧ Mark.AllAfter key hole.rightMarks := by
  have ascending : tree.body.keys.Pairwise (· < ·) := by
    refine Mark.separators_ascending ?_ ordered
    simp only [List.length_map, Internal.Forked] at forked ⊢
    omega
  obtain ⟨leftKeys, rightKeys, cut, indexEq, below, above⟩ :=
    childIndex_cut key ascending
  have inside : leftKeys.length ≤ tree.body.keys.length := by simp [cut]
  obtain ⟨hole, child, filled, place⟩ := Hole.exists_fill forked inside
  have holeCut : hole.leftKeys ++ hole.rightKeys = leftKeys ++ rightKeys := by
    rw [← cut, filled]
    rfl
  obtain ⟨leftEq, rightEq⟩ := List.append_inj holeCut
    (by rw [hole.left_even]; exact place)
  rw [marks_node, filled, hole.treeMarks_fill, Mark.ordered_append,
    Mark.ordered_append] at ordered
  refine ⟨hole, child, filled, by rw [indexEq, place], ?_, ?_⟩
  · exact Mark.allBefore_closed (by simpa using hole.left_even)
      ordered.1.1 (leftEq ▸ below)
  · exact Mark.allAfter_opened ordered.2.1 (rightEq ▸ above)

end Tree

end Routing

end IndexDb
