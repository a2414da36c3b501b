import IndexDb.SearchPaths
import IndexDb.SlabPeak

/-!
# How far an insertion propagates

Inserting an absent key splits exactly the full nodes at the end of its search
path, up to the first node with room.  The nodes above that one, and all nodes
off the path, keep their ids and their contents.
-/

namespace IndexDb

open LawfulNodeStore

variable {Id K V : Type} {h order minKeys least : Nat}

/-- The number of consecutive full nodes at the end of a path. -/
def fullFromLeaf (order : Nat) (path : Cells Id (Node Id K V)) : Nat :=
  (path.reverse.takeWhile fun cell => cell.2.keysLen = order - 1).length

/-- A node joins the full ones when it is full and all nodes after it are. -/
theorem fullFromLeaf_cons (order : Nat) (cell : Id × Node Id K V)
    (path : Cells Id (Node Id K V)) :
    fullFromLeaf order (cell :: path) =
      if fullFromLeaf order path = path.length ∧ cell.2.keysLen = order - 1 then
        path.length + 1
      else fullFromLeaf order path := by
  rw [fullFromLeaf, List.reverse_cons, List.takeWhile_append, List.length_reverse]
  by_cases all : fullFromLeaf order path = path.length
  · have whole := all
    rw [fullFromLeaf] at whole
    rw [if_pos whole, all]
    by_cases full : cell.2.keysLen = order - 1 <;> simp [full]
  · have part := all
    rw [fullFromLeaf] at part
    rw [if_neg part, if_neg fun both => all both.1]
    rfl

theorem fullFromLeaf_le (order : Nat) (path : Cells Id (Node Id K V)) :
    fullFromLeaf order path ≤ path.length := by
  have part := List.takeWhile_sublist (l := path.reverse) fun cell =>
    decide (cell.2.keysLen = order - 1)
  simpa only [fullFromLeaf, List.length_reverse] using part.length_le

section Trees

variable {L : Type}

/-- A parent splits when its child does and there is no room for the new one. -/
theorem Internal.absorb_isSplit {Child : Type} (order : Nat) (hole : Hole K Child)
    (old : Child) (grown : Grown Child K V) :
    ((hole.fill old).absorb order hole.index grown).isSplit =
      (grown.isSplit && decide (order ≤ hole.keysLen + 1)) := by
  cases grown with
  | replaced value child => rfl
  | done child => rfl
  | split left sep right =>
      have nonempty : (hole.fillTwo left sep right).keys ≠ [] := by simp [Hole.fillTwo]
      obtain ⟨leftHalf, median, rightHalf, halves, -⟩ :=
        halve_eq (hole.forked_fillTwo left sep right) nonempty
      simp only [absorb, Hole.link_fill, hole.fillTwo_keys_length, halves]
      split_ifs with fits
      · simp only [Grown.isSplit, Bool.true_and]
        exact (decide_eq_false (by omega)).symm
      · simp only [Grown.isSplit, Bool.true_and]
        exact (decide_eq_true (by omega)).symm

theorem LeafGrowth.isSplit_iff [Preorder K] {key : K} {value : V}
    {entries : List (K × V)} {grown : Grown (List (K × V)) K V}
    (growth : LeafGrowth order key value entries grown) (absent : grown.displaced = none)
    (below : entries.length < order) :
    grown.isSplit = true ↔ entries.length = order - 1 := by
  cases growth with
  | replaced split below same above => cases absent
  | done split _ _ fits =>
      subst split
      simp only [List.length_append, List.length_cons] at fits below ⊢
      simp only [Grown.isSplit, Bool.false_eq_true, false_iff]
      omega
  | halved split _ _ full _ _ =>
      subst split
      simp only [List.length_append, List.length_cons] at full below ⊢
      simp only [Grown.isSplit, true_iff]
      omega

namespace Tree

theorem gather_subset_place (label other : Id)
    (grown : Grown (Internal K (Tree Id K V h)) K V) :
    grown.gather (Internal.gather cells) ⊆
      (grown.place label other).gather (cells (h := h + 1)) := by
  intro cell member
  cases grown with
  | replaced old body => exact List.mem_cons_of_mem _ member
  | done body => exact List.mem_cons_of_mem _ member
  | split left sep right =>
      rcases List.mem_append.mp member with member | member
      · exact List.mem_append_left _ (List.mem_cons_of_mem _ member)
      · exact List.mem_append_right _ (List.mem_cons_of_mem _ member)

theorem insertInto_surrounds [LT K] [DecidableLT K] (fresh : Nat → Id) (key : K)
    (value : V) {tree : Tree Id K V (h + 1)} {hole : Hole K (Tree Id K V h)}
    {child : Tree Id K V h} (filled : tree.body = hole.fill child)
    (indexEq : tree.body.childIndex key = hole.index) :
    hole.leftChildren.flatMap cells ++
        (child.insertInto fresh order key value).gather cells ++
        hole.rightChildren.flatMap cells ⊆
      (tree.insertInto fresh order key value).gather cells := by
  rw [insertInto_fill fresh order key value filled indexEq,
    ← Internal.absorb_gather cells order hole child]
  exact gather_subset_place _ _ _

theorem insertInto_root [LT K] [DecidableLT K] (fresh : Nat → Id) (key : K) (value : V)
    {tree : Tree Id K V (h + 1)} {hole : Hole K (Tree Id K V h)} {child : Tree Id K V h}
    (filled : tree.body = hole.fill child)
    (indexEq : tree.body.childIndex key = hole.index)
    (whole : (child.insertInto fresh order key value).isSplit = false) :
    (tree.label, tree.node) ∈ (tree.insertInto fresh order key value).gather cells := by
  have labelEq : (child.insertInto fresh order key value).kept.label = child.label :=
    insertInto_label fresh key value child
  have refilled {newChild : Tree Id K V h} (same : newChild.label = child.label) :
      (tree.label, tree.node) ∈ cells (h := h + 1) ⟨tree.label, hole.fill newChild⟩ := by
    rw [cells_refill filled same]
    simp
  rw [insertInto_fill fresh order key value filled indexEq]
  generalize child.insertInto fresh order key value = grown at whole labelEq
  cases grown with
  | replaced old newChild =>
      have same : newChild.label = child.label := labelEq
      rw [Internal.absorb, Hole.setChild_fill]
      exact refilled same
  | done newChild =>
      have same : newChild.label = child.label := labelEq
      rw [Internal.absorb, Hole.setChild_fill]
      exact refilled same
  | split left sep right => cases whole

end Tree

variable [Preorder K] [Std.IsLinearPreorder K] [DecidableLT K]
variable (fresh : Nat → Id) (key : K) (value : V) {tree : Tree Id K V h}

namespace Tree

/-- One node splits for each full node at the end of the path, and the tree
itself when all are full. -/
theorem insertInto_splits (sized : tree.Sized order minKeys least)
    (ordered : Mark.Ordered tree.marks)
    (absent : (tree.insertInto fresh order key value).displaced = none) :
    tree.splits order key value = fullFromLeaf order (tree.path key) ∧
      ((tree.insertInto fresh order key value).isSplit = true ↔
        fullFromLeaf order (tree.path key) = h + 1) := by
  induction h generalizing least with
  | zero =>
      have ascending : Ascending tree.body := by
        rw [← entries_leaf tree]
        exact ordered.ascending
      have growth := insertEntries_growth order key value ascending
      rw [insertInto, Grown.place_displaced] at absent
      have full := growth.isSplit_iff absent sized.2
      have keysEq : tree.node.keysLen = tree.body.length := node_keysLen tree
      rw [splits, insertInto, Grown.place_isSplit, path, fullFromLeaf_cons, keysEq]
      simp only [fullFromLeaf, List.reverse_nil, List.takeWhile_nil, List.length_nil,
        true_and]
      by_cases isFull : tree.body.length = order - 1
      · simp [isFull, full.mpr isFull]
      · simp [isFull, Bool.eq_false_iff.mpr fun split => isFull (full.mp split)]
  | succ h ih =>
      obtain ⟨hole, child, filled, indexEq, -⟩ :=
        route (Internal.Occupied.forked sized) ordered key
      have childOrdered := ordered_child filled ordered
      have childSized := sized.child filled
      obtain ⟨-, below, -⟩ := sized.around filled
      have lengthEq := path_length key childSized childOrdered
      rw [insertInto_fill fresh order key value filled indexEq, Grown.place_displaced,
        Internal.absorb_displaced] at absent
      obtain ⟨splitsEq, splitIff⟩ := ih childSized childOrdered absent
      have keysEq : tree.node.keysLen = hole.keysLen := by
        rw [node_keysLen, keysLen, filled, Hole.fill_keys_length]
      have splitEq : (tree.insertInto fresh order key value).isSplit =
          ((child.insertInto fresh order key value).isSplit &&
            decide (order ≤ hole.keysLen + 1)) := by
        rw [insertInto_fill fresh order key value filled indexEq, Grown.place_isSplit,
          Internal.absorb_isSplit]
      have most := fullFromLeaf_le order (child.path key)
      rw [splits_fill fresh order key value filled indexEq, splitsEq, splitEq,
        path_fill filled indexEq, fullFromLeaf_cons, lengthEq, keysEq]
      by_cases childSplit : fullFromLeaf order (child.path key) = h + 1
      · rw [splitIff.mpr childSplit, childSplit]
        by_cases full : hole.keysLen = order - 1
        · simp [full, show order ≤ order - 1 + 1 by omega]
        · simp [full, show ¬ order ≤ hole.keysLen + 1 by omega]
      · rw [Bool.eq_false_iff.mpr fun split => childSplit (splitIff.mp split)]
        simp only [Bool.false_and, Bool.toNat_false, Nat.add_zero, childSplit, false_and,
          if_false, true_and, Bool.false_eq_true, false_iff]
        omega

/-- Nodes off the search path stay as they are. -/
theorem insertInto_aside (sized : tree.Sized order minKeys least)
    (ordered : Mark.Ordered tree.marks) {cell : Id × Node Id K V}
    (member : cell ∈ tree.cells) (aside : cell ∉ tree.path key) :
    cell ∈ (tree.insertInto fresh order key value).gather cells := by
  induction h generalizing least with
  | zero => exact absurd member aside
  | succ h ih =>
      obtain ⟨hole, child, filled, indexEq, -⟩ :=
        route (Internal.Occupied.forked sized) ordered key
      refine insertInto_surrounds fresh key value filled indexEq ?_
      rw [path_fill filled indexEq, List.mem_cons, not_or] at aside
      rw [cells_fill filled] at member
      simp only [List.mem_append, List.mem_cons] at member ⊢
      rcases member with ((isRoot | onLeft) | inside) | onRight
      · exact absurd isRoot aside.1
      · exact .inl (.inl onLeft)
      · exact .inl (.inr (ih (sized.child filled) (ordered_child filled ordered) inside
          aside.2))
      · exact .inr onRight

/-- Nodes above the lowest one with room stay as they are. -/
theorem insertInto_above (sized : tree.Sized order minKeys least)
    (ordered : Mark.Ordered tree.marks)
    (absent : (tree.insertInto fresh order key value).displaced = none)
    {cell : Id × Node Id K V}
    (member : cell ∈ (tree.path key).take (h - fullFromLeaf order (tree.path key))) :
    cell ∈ (tree.insertInto fresh order key value).gather cells := by
  induction h generalizing least with
  | zero => simp at member
  | succ h ih =>
      obtain ⟨hole, child, filled, indexEq, -⟩ :=
        route (Internal.Occupied.forked sized) ordered key
      have childOrdered := ordered_child filled ordered
      have childSized := sized.child filled
      have lengthEq := path_length key childSized childOrdered
      have childAbsent := absent
      rw [insertInto_fill fresh order key value filled indexEq, Grown.place_displaced,
        Internal.absorb_displaced] at childAbsent
      obtain ⟨-, splitIff⟩ := insertInto_splits fresh key value childSized childOrdered
        childAbsent
      have most := fullFromLeaf_le order (child.path key)
      rw [path_fill filled indexEq, fullFromLeaf_cons, lengthEq] at member
      by_cases childSplit : fullFromLeaf order (child.path key) = h + 1
      · have none : (h + 1) - (if fullFromLeaf order (child.path key) = h + 1 ∧
            tree.node.keysLen = order - 1 then h + 1 + 1 else
              fullFromLeaf order (child.path key)) = 0 := by
          split_ifs <;> omega
        rw [none, List.take_zero] at member
        cases member
      · rw [if_neg fun both => childSplit both.1, show h + 1 -
          fullFromLeaf order (child.path key) =
            (h - fullFromLeaf order (child.path key)) + 1 by omega,
          List.take_succ_cons] at member
        rcases List.mem_cons.mp member with rfl | deeper
        · refine insertInto_root fresh key value filled indexEq ?_
          exact Bool.eq_false_iff.mpr fun split => childSplit (splitIff.mp split)
        · refine insertInto_surrounds fresh key value filled indexEq ?_
          simp only [List.mem_append]
          exact .inl (.inr (ih childSized childOrdered childAbsent deeper))

end Tree

end Trees

section Roots

theorem Grown.gather_subset_root (fresh : Id) (grown : Grown (Tree Id K V h) K V) :
    grown.gather Tree.cells ⊆ (grown.root fresh).2.cells := by
  intro cell member
  cases grown with
  | replaced old tree => exact member
  | done tree => exact member
  | split left sep right =>
      have below : cell ∈ [left, right].flatMap Tree.cells := by
        simpa [gather] using member
      exact List.mem_cons_of_mem _ below

theorem Grown.root_label_ne {fresh root : Id} {grown : Grown (Tree Id K V h) K V}
    (kept : grown.kept.label = root) (distinct : (grown.root fresh).2.labels.Nodup) :
    (grown.root fresh).2.label ≠ root ↔ grown.isSplit = true := by
  subst kept
  cases grown with
  | replaced old tree => simp [Grown.root, isSplit, Grown.kept]
  | done tree => simp [Grown.root, isSplit, Grown.kept]
  | split left sep right =>
      have isNew : fresh ∉ [left, right].flatMap Tree.labels :=
        (List.nodup_cons.mp distinct).1
      simp only [isSplit, iff_true]
      intro same
      have rootEq : fresh = left.label := same
      refine isNew (List.mem_flatMap.mpr ⟨left, List.mem_cons_self .., ?_⟩)
      rw [rootEq]
      exact Tree.mem_labels.mpr ⟨_, Tree.self_mem_subtrees left, rfl⟩

theorem Grown.root_height (fresh : Id) (grown : Grown (Tree Id K V h) K V) :
    (grown.root fresh).1 = h + grown.isSplit.toNat := by
  cases grown <;> rfl

end Roots

namespace BPlusTree

/-- What an insertion of an absent key does to the nodes when the last `d` of the
`h` nodes on its search path are full and the one above them is not. -/
structure SplitsAlong (tree next : BPlusTree K V)
    (path : Cells NodeId (Node NodeId K V)) (h d : Nat) : Prop where
  count : next.nodeCount = if d = h then tree.nodeCount + d + 1 else tree.nodeCount + d
  height : next.height = pure (if d = h then h + 1 else h)
  root : next.root ≠ tree.root ↔ d = h
  above : ∀ cell ∈ path.take (h - 1 - d), next.HasNode cell.1 cell.2
  aside : ∀ id node, tree.HasNode id node → id ∉ path.names → next.HasNode id node

variable [Preorder K] [Std.IsLinearPreorder K] [DecidableLT K] {tree : BPlusTree K V}
  {t : SearchTree NodeId K V order}

theorem Represents.insert_splitsAlong (represents : tree.Represents t) (key : K) (value : V)
    (absent : tree.get key = pure none) (isExact : (tree.insert key value).Exact) :
    ∃ next, tree.insert key value = pure (none, next) ∧
      tree.SplitsAlong next (t.tree.path key) (t.height + 1)
        (fullFromLeaf tree.order (t.tree.path key)) := by
  obtain ⟨fresh, next, inserted, newRepresents, -⟩ :=
    represents.insert key value (.inr isExact)
  have missing : (t.tree.insertInto fresh order key value).displaced = none := by
    rw [represents.get, Traced.pure_inj] at absent
    exact (t.insert_displaced fresh key value).trans absent
  obtain ⟨splitsEq, splitIff⟩ := Tree.insertInto_splits fresh key value t.sized t.ordered
    missing
  have allocationsEq : t.allocations key value =
      fullFromLeaf order (t.tree.path key) +
        (t.tree.insertInto fresh order key value).isSplit.toNat := by
    rw [SearchTree.allocations, splitsEq, Tree.insertInto_isSplit _ fresh]
  have newRoot : (t.insert fresh key value).2.root ≠ t.root ↔
      (t.tree.insertInto fresh order key value).isSplit = true :=
    Grown.root_label_ne (Tree.insertInto_label fresh key value t.tree)
      newRepresents.labels_nodup
  have newHeight : (t.insert fresh key value).2.height =
      t.height + (t.tree.insertInto fresh order key value).isSplit.toNat :=
    Grown.root_height _ _
  have kept : (t.tree.insertInto fresh order key value).gather Tree.cells ⊆
      (t.insert fresh key value).2.cells :=
    Grown.gather_subset_root _ _
  rw [represents.order_eq]
  refine ⟨next, ?_, ?_, ?_, ?_, ?_, ?_⟩
  · rw [inserted]
    exact congrArg (fun reply => pure (reply, next)) missing
  · rw [newRepresents.nodeCount, represents.nodeCount, t.insert_size, allocationsEq]
    split_ifs with all
    · rw [splitIff.mpr all, Bool.toNat_true, Nat.add_assoc]
    · rw [Bool.eq_false_iff.mpr fun split => all (splitIff.mp split), Bool.toNat_false,
        Nat.add_zero]
  · rw [newRepresents.height, newHeight]
    split_ifs with all
    · rw [splitIff.mpr all, Bool.toNat_true, Nat.add_comm]
    · rw [Bool.eq_false_iff.mpr fun split => all (splitIff.mp split), Bool.toNat_false,
        Nat.add_zero, Nat.add_comm]
  · rw [newRepresents.root_eq, represents.root_eq, newRoot, splitIff]
  · intro cell member
    exact newRepresents.hasNode_iff_cell.mpr (kept
      (Tree.insertInto_above fresh key value t.sized t.ordered missing member))
  · intro id node has notOnPath
    refine newRepresents.hasNode_iff_cell.mpr (kept
      (Tree.insertInto_aside fresh key value t.sized t.ordered
        (represents.hasNode_iff_cell.mp has) ?_))
    exact fun onPath => notOnPath (Cells.mem_names onPath)

end BPlusTree

section Main

variable [Preorder K] [Std.IsLinearPreorder K] [DecidableLT K]

/-- In every reachable tree, inserting an absent key splits exactly the full
nodes at the end of its search path, and leaves the other nodes alone. -/
theorem run_insert_splits (order : Nat) (start : Start K V) (calls : List (Call K V))
    (key : K) (value : V)
    (isExact : (start.run order (calls ++ [.insert key value])).Exact) :
    ∃ replies tree path h, start.run order calls = pure (replies, tree) ∧
      tree.searchPath key = pure path ∧ tree.height = pure h ∧
      (tree.get key = pure none → ∃ next, tree.insert key value = pure (none, next) ∧
        tree.SplitsAlong next path h (fullFromLeaf tree.order path)) := by
  rw [Start.run_concat] at isExact
  obtain ⟨tree, t, returned, represents, -⟩ := start.run_represents calls isExact.first
  rw [returned, pure_bind] at isExact
  have callExact : (tree.call (.insert key value)).Exact := isExact.first
  rw [BPlusTree.call] at callExact
  refine ⟨_, tree, _, t.height + 1, returned, represents.searchPath key, ?_, fun absent =>
    represents.insert_splitsAlong key value absent callExact.first⟩
  rw [represents.height, Nat.add_comm]

/-- The leaf and the root split, and the tree grows. -/
theorem run_insert_splits_small :
    ∃ replies tree path h next,
      (Start.fromSorted [(1, 10), (2, 20), (3, 30), (4, 40), (5, 50), (6, 60)]).run 3
        [.remove 1] = pure (replies, tree) ∧
      tree.searchPath 7 = pure path ∧ tree.height = pure h ∧
      tree.insert 7 70 = pure (none, next) ∧
      tree.SplitsAlong next path h (fullFromLeaf tree.order path) := by
  obtain ⟨replies, tree, path, h, returned, searched, heightEq, splits⟩ :=
    run_insert_splits 3
      (.fromSorted [(1, 10), (2, 20), (3, 30), (4, 40), (5, 50), (6, 60)])
      [.remove 1] 7 70 (by decide +kernel)
  obtain ⟨next, inserted, splitsAlong⟩ := splits (Start.run_get returned 7)
  exact ⟨replies, tree, path, h, next, returned, searched, heightEq, inserted, splitsAlong⟩

end Main

end IndexDb
