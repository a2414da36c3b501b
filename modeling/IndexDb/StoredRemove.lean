import IndexDb.StoredTree

/-!
# Removal from stored trees

Every repair of an underfull child touches three cells: the parent, the child
and one sibling.  The subtrees below them move as they are, so a repair of the
stored tree is the repair of the tree.
-/

namespace IndexDb

open LawfulNodeStore

variable {S Id K V : Type} [NodeStore S Id K V]

theorem Tree.node_keysLen {h : Nat} (tree : Tree Id K V h) :
    tree.node.keysLen = tree.keysLen := by
  cases h with
  | zero => simp [node, Node.keysLen, Leaf.ofEntries, keysLen]
  | succ h => rfl

theorem fillTwo_set (hole : Hole K Id) (left right : Id) (sep newSep : K) :
    Vec.set (hole.fillTwo left sep right).keys hole.index newSep =
      pure (hole.fillTwo left newSep right).keys := by
  have even := hole.left_even
  simp [Hole.fillTwo, Hole.index, ← even]

theorem fillTwo_get (hole : Hole K Id) (left right : Id) (sep : K) :
    Vec.get (hole.fillTwo left sep right).keys hole.index = pure sep := by
  have even := hole.left_even
  simp [Hole.fillTwo, Hole.index, ← even]

theorem fillTwo_remove_key (hole : Hole K Id) (left right : Id) (sep : K) :
    Vec.remove (hole.fillTwo left sep right).keys hole.index =
      pure (sep, (hole.fill left).keys) := by
  have even := hole.left_even
  simp [Hole.fillTwo, Hole.fill, Hole.index, ← even]

theorem fillTwo_remove_child (hole : Hole K Id) (left right : Id) (sep : K) :
    Vec.remove (hole.fillTwo left sep right).children (hole.index + 1) =
      pure (right, (hole.fill left).children) := by
  have removed := Vec.remove_append (hole.leftChildren ++ [left])
    hole.rightChildren right
  simpa [Hole.fillTwo, Hole.fill, Hole.index] using removed

theorem readSeparator_refines {store : S} {parent l r : Id} {hole : Hole K Id}
    {sep : K}
    (got : NodeStore.get store parent = pure (.internal (hole.fillTwo l sep r)))
    (back : Nat) :
    Ops.readSeparator store parent (hole.index + back) back = pure (some sep) := by
  simp only [Ops.readSeparator, got, pure_bind,
    checkedSub_of_le (Nat.le_add_left back hole.index), Nat.add_sub_cancel,
    fillTwo_get]

section Borrowing

variable [LawfulNodeStore S] {store : S} {h : Nat} {parent : Id}
  {hole : Hole K Id} {left right : Tree Id K V h} {sep : K}

@[simp]
theorem pop_keys (front : List (K × V)) (last : K × V) :
    Vec.pop (Leaf.ofEntries (front ++ [last])).keys =
      (some last.1, (Leaf.ofEntries front).keys) := by
  simp [Leaf.ofEntries]

@[simp]
theorem pop_vals (front : List (K × V)) (last : K × V) :
    Vec.pop (Leaf.ofEntries (front ++ [last])).vals =
      (some last.2, (Leaf.ofEntries front).vals) := by
  simp [Leaf.ofEntries]

theorem remove_first_key (first : K × V) (rest : List (K × V)) :
    Vec.remove (Leaf.ofEntries (first :: rest)).keys 0 =
      pure (first.1, (Leaf.ofEntries rest).keys) :=
  rfl

theorem remove_first_val (first : K × V) (rest : List (K × V)) :
    Vec.remove (Leaf.ofEntries (first :: rest)).vals 0 =
      pure (first.2, (Leaf.ofEntries rest).vals) :=
  rfl

theorem push_entry (entries : List (K × V)) (last : K × V) :
    (⟨(Leaf.ofEntries entries).keys ++ [last.1],
      (Leaf.ofEntries entries).vals ++ [last.2]⟩ : Leaf K V) =
        .ofEntries (entries ++ [last]) := by
  simp [Leaf.ofEntries]

/-- Replacing a separator rewrites one cell. -/
theorem writeSeparator_refines {after : Cells Id (Node Id K V)}
    {l r : Id} (valid : Valid store)
    (owned : Owned (view store)
      ((parent, .internal (hole.fillTwo l sep r)) :: after))
    (back : Nat) (newSep : K) :
    ∃ next, Ops.writeSeparator store parent (hole.index + back) back newSep =
        pure next ∧
      Rewrites false store next
        ((parent, .internal (hole.fillTwo l sep r)) :: after)
        ((parent, .internal (hole.fillTwo l newSep r)) :: after) 0 := by
  obtain ⟨write, returned, rewrites⟩ := getMut_owned [] after valid owned
  refine ⟨_, ?_, rewrites false _⟩
  simp only [Ops.writeSeparator, returned, pure_bind,
    checkedSub_of_le (Nat.le_add_left back hole.index), Nat.add_sub_cancel,
    fillTwo_set]
  rfl

/-- The three cells that a repair touches. -/
def siblingCells (parent : Id) (node : Internal K Id) (left right : Tree Id K V h) :
    Cells Id (Node Id K V) :=
  [(parent, .internal node), (left.label, left.node), (right.label, right.node)]

theorem borrowFromLeft_leaf {left right : Tree Id K V 0}
    {front : List (K × V)} {last : K × V} (valid : Valid store)
    (owned : Owned (view store)
      (siblingCells parent (hole.fillTwo left.label sep right.label) left right))
    (bodyEq : left.body = front ++ [last]) :
    ∃ next, Ops.borrowFromLeft store parent (hole.index + 1) left.label
        right.label = pure next ∧
      Rewrites false store next
        (siblingCells parent (hole.fillTwo left.label sep right.label) left right)
        (siblingCells (h := 0) parent
          (hole.fillTwo left.label last.1 right.label)
          { left with body := front } { right with body := last :: right.body })
        0 := by
  have rightGot : NodeStore.get store right.label = pure right.node :=
    get_owned valid owned (by simp [siblingCells])
  obtain ⟨writeLeft, leftReturned, leftRewrites⟩ := getMut_owned
    [(parent, .internal (hole.fillTwo left.label sep right.label))] _ valid owned
  have one := leftRewrites false (.leaf (.ofEntries front))
  obtain ⟨writeRight, rightReturned, rightRewrites⟩ := getMut_owned
    [(parent, .internal (hole.fillTwo left.label sep right.label)),
      (left.label, .leaf (.ofEntries front))] [] one.valid one.owned
  have two := rightRewrites false (.leaf (.ofEntries (last :: right.body)))
  obtain ⟨next, written, three⟩ := writeSeparator_refines two.valid two.owned 1 last.1
  refine ⟨next, ?_, (one.trans two).trans three⟩
  simp only [Ops.borrowFromLeft, rightGot, leftReturned, pure_bind, Tree.node,
    Node.asLeaf, Option.isSome_some, if_true, bodyEq, pop_keys, pop_vals]
  rw [rightReturned, pure_bind]
  simp only [Tree.node, Leaf.ofEntries, Vec.insert_zero, pure_bind]
  exact written

theorem borrowFromLeft_node {left right : Tree Id K V (h + 1)} {newSep : K}
    {keys : List K} {children : List (Tree Id K V h)} {moved : Tree Id K V h}
    (valid : Valid store)
    (owned : Owned (view store)
      (siblingCells parent (hole.fillTwo left.label sep right.label) left right))
    (bodyEq : left.body = ⟨keys ++ [newSep], children ++ [moved]⟩) :
    ∃ next, Ops.borrowFromLeft store parent (hole.index + 1) left.label
        right.label = pure next ∧
      Rewrites false store next
        (siblingCells parent (hole.fillTwo left.label sep right.label) left right)
        (siblingCells (h := h + 1) parent
          (hole.fillTwo left.label newSep right.label)
          { left with body := ⟨keys, children⟩ }
          { right with body :=
            ⟨sep :: right.body.keys, moved :: right.body.children⟩ }) 0 := by
  have rightGot : NodeStore.get store right.label = pure right.node :=
    get_owned valid owned (by simp [siblingCells])
  have parentGot : NodeStore.get store parent =
      pure (.internal (hole.fillTwo left.label sep right.label)) :=
    get_owned valid owned (by simp [siblingCells])
  have sepRead := readSeparator_refines parentGot 1
  let newLeft : Internal K Id := ⟨keys, children.map Tree.label⟩
  let newRight : Internal K Id := ⟨sep :: right.body.keys,
    moved.label :: right.body.children.map Tree.label⟩
  obtain ⟨writeLeft, leftReturned, leftRewrites⟩ := getMut_owned
    [(parent, .internal (hole.fillTwo left.label sep right.label))] _ valid owned
  have one := leftRewrites false (.internal newLeft)
  obtain ⟨writeRight, rightReturned, rightRewrites⟩ := getMut_owned
    [(parent, .internal (hole.fillTwo left.label sep right.label)),
      (left.label, .internal newLeft)] [] one.valid one.owned
  have two := rightRewrites false (.internal newRight)
  obtain ⟨next, written, three⟩ := writeSeparator_refines two.valid two.owned 1 newSep
  refine ⟨next, ?_, (one.trans two).trans three⟩
  simp only [Ops.borrowFromLeft, rightGot, sepRead, leftReturned, pure_bind,
    Tree.node, Node.asLeaf, Option.isSome_none, bodyEq, Internal.map,
    List.map_append, List.map_cons, List.map_nil, Vec.pop_concat]
  rw [if_neg Bool.false_ne_true, rightReturned, pure_bind]
  simp only [Tree.node, Internal.map, Vec.insert_zero, pure_bind]
  exact written

theorem borrowFromRight_leaf {left right : Tree Id K V 0} {first next : K × V}
    {rest : List (K × V)} (valid : Valid store)
    (owned : Owned (view store)
      (siblingCells parent (hole.fillTwo left.label sep right.label) left right))
    (bodyEq : right.body = first :: next :: rest) :
    ∃ final, Ops.borrowFromRight store parent hole.index left.label
        right.label = pure final ∧
      Rewrites false store final
        (siblingCells parent (hole.fillTwo left.label sep right.label) left right)
        (siblingCells (h := 0) parent
          (hole.fillTwo left.label next.1 right.label)
          { left with body := left.body ++ [first] }
          { right with body := next :: rest }) 0 := by
  have leftGot : NodeStore.get store left.label = pure left.node :=
    get_owned valid owned (by simp [siblingCells])
  obtain ⟨writeRight, rightReturned, rightRewrites⟩ := getMut_owned
    [(parent, .internal (hole.fillTwo left.label sep right.label)),
      (left.label, left.node)] [] valid owned
  have one := rightRewrites false (.leaf (.ofEntries (next :: rest)))
  obtain ⟨writeLeft, leftReturned, leftRewrites⟩ := getMut_owned
    [(parent, .internal (hole.fillTwo left.label sep right.label))]
    [(right.label, .leaf (.ofEntries (next :: rest)))] one.valid one.owned
  have two := leftRewrites false (.leaf (.ofEntries (left.body ++ [first])))
  have rightGot : NodeStore.get
      (writeLeft (.leaf (.ofEntries (left.body ++ [first])))) right.label =
        pure (.leaf (.ofEntries (next :: rest))) :=
    get_owned two.valid two.owned (by simp)
  obtain ⟨final, written, three⟩ := writeSeparator_refines two.valid two.owned 0 next.1
  refine ⟨final, ?_, (one.trans two).trans three⟩
  simp only [Ops.borrowFromRight, leftGot, rightReturned, pure_bind, Tree.node,
    Node.asLeaf, Option.isSome_some, if_true, bodyEq]
  rw [if_neg (by simp [Leaf.ofEntries])]
  simp only [remove_first_key, remove_first_val, pure_bind]
  rw [leftReturned, pure_bind]
  simp only [Tree.node, push_entry]
  rw [rightGot, pure_bind]
  exact written

theorem borrowFromRight_node {left right : Tree Id K V (h + 1)} {newSep : K}
    {keys : List K} {children : List (Tree Id K V h)} {moved : Tree Id K V h}
    (valid : Valid store)
    (owned : Owned (view store)
      (siblingCells parent (hole.fillTwo left.label sep right.label) left right))
    (bodyEq : right.body = ⟨newSep :: keys, moved :: children⟩) :
    ∃ final, Ops.borrowFromRight store parent hole.index left.label
        right.label = pure final ∧
      Rewrites false store final
        (siblingCells parent (hole.fillTwo left.label sep right.label) left right)
        (siblingCells (h := h + 1) parent
          (hole.fillTwo left.label newSep right.label)
          { left with body :=
            ⟨left.body.keys ++ [sep], left.body.children ++ [moved]⟩ }
          { right with body := ⟨keys, children⟩ }) 0 := by
  have leftGot : NodeStore.get store left.label = pure left.node :=
    get_owned valid owned (by simp [siblingCells])
  have parentGot : NodeStore.get store parent =
      pure (.internal (hole.fillTwo left.label sep right.label)) :=
    get_owned valid owned (by simp [siblingCells])
  have sepRead := readSeparator_refines parentGot 0
  let halfRight : Internal K Id := ⟨newSep :: keys, children.map Tree.label⟩
  let newRight : Internal K Id := ⟨keys, children.map Tree.label⟩
  let newLeft : Internal K Id := Internal.map Tree.label
    ⟨left.body.keys ++ [sep], left.body.children ++ [moved]⟩
  have pushed : (⟨left.body.keys ++ [sep],
      left.body.children.map Tree.label ++ [moved.label]⟩ : Internal K Id) =
        newLeft := by
    simp [newLeft, Internal.map]
  obtain ⟨writeRight, rightReturned, rightRewrites⟩ := getMut_owned
    [(parent, .internal (hole.fillTwo left.label sep right.label)),
      (left.label, left.node)] [] valid owned
  have one := rightRewrites false (.internal halfRight)
  obtain ⟨writeLeft, leftReturned, leftRewrites⟩ := getMut_owned
    [(parent, .internal (hole.fillTwo left.label sep right.label))]
    [(right.label, .internal halfRight)] one.valid one.owned
  have two := leftRewrites false (.internal newLeft)
  obtain ⟨writeAgain, againReturned, againRewrites⟩ := getMut_owned
    [(parent, .internal (hole.fillTwo left.label sep right.label)),
      (left.label, .internal newLeft)] [] two.valid two.owned
  have three := againRewrites false (.internal newRight)
  obtain ⟨final, written, four⟩ := writeSeparator_refines three.valid three.owned 0 newSep
  have rewrites := ((one.trans two).trans three).trans four
  refine ⟨final, ?_, ?_⟩
  · rw [Nat.add_zero] at sepRead
    simp only [Ops.borrowFromRight, leftGot, sepRead, rightReturned, pure_bind,
      Tree.node, Node.asLeaf, Option.isSome_none, bodyEq, Internal.map,
      List.map_cons, List.isEmpty_cons, Vec.remove_zero]
    rw [if_neg Bool.false_ne_true, if_neg Bool.false_ne_true, leftReturned,
      pure_bind]
    simp only [Tree.node, Internal.map, pushed]
    rw [againReturned, pure_bind]
    exact written
  · exact rewrites

theorem merge_refines {left right : Tree Id K V h} (valid : Valid store)
    (owned : Owned (view store)
      (siblingCells parent (hole.fillTwo left.label sep right.label) left right)) :
    ∃ final, Ops.merge store parent hole.index left.label right.label =
        pure final ∧
      Rewrites false store final
        (siblingCells parent (hole.fillTwo left.label sep right.label) left right)
        [(parent, .internal (hole.fill left.label)),
          ((left.join sep right).label, (left.join sep right).node)] 0 := by
  obtain ⟨writeParent, parentReturned, parentRewrites⟩ :=
    getMut_owned [] _ valid owned
  have one := parentRewrites false (.internal (hole.fill left.label))
  obtain ⟨middle, reclaimed, two⟩ := reclaim_owned
    [(parent, .internal (hole.fill left.label)), (left.label, left.node)] []
    one.valid one.owned
  obtain ⟨writeLeft, leftReturned, leftRewrites⟩ := getMut_owned
    [(parent, .internal (hole.fill left.label))] [] two.valid two.owned
  have three := leftRewrites false (left.join sep right).node
  have labelEq : (left.join sep right).label = left.label := by
    cases h <;> rfl
  rw [labelEq]
  refine ⟨_, ?_, (one.trans two).trans three⟩
  simp only [Ops.merge, parentReturned, pure_bind, fillTwo_remove_key,
    fillTwo_remove_child]
  rw [reclaimed, pure_bind, leftReturned, pure_bind]
  cases h with
  | zero => simp [Tree.node, Tree.join, Leaf.ofEntries]
  | succ h => simp [Tree.node, Tree.join, Internal.map]

theorem borrowFromLeft_refines {order minKeys least : Nat} (valid : Valid store)
    (owned : Owned (view store)
      (siblingCells parent (hole.fillTwo left.label sep right.label) left right))
    (sized : left.Sized order minKeys least) (spare : 1 < left.keysLen) :
    ∃ next, Ops.borrowFromLeft store parent (hole.index + 1) left.label
        right.label = pure next ∧
      Rewrites false store next
        (siblingCells parent (hole.fillTwo left.label sep right.label) left right)
        (siblingCells parent
          (hole.fillTwo left.label (left.rotateRight sep right).2.1 right.label)
          (left.rotateRight sep right).1 (left.rotateRight sep right).2.2) 0 := by
  cases h with
  | zero =>
      obtain ⟨front, last, bodyEq, -⟩ := Tree.exists_last spare
      rw [Tree.rotateRight_leaf bodyEq]
      exact borrowFromLeft_leaf valid owned bodyEq
  | succ h =>
      obtain ⟨keys, newSep, children, moved, bodyEq, -⟩ :=
        Tree.exists_last_child sized.forked (by omega)
      rw [Tree.rotateRight_node bodyEq]
      exact borrowFromLeft_node valid owned bodyEq

theorem borrowFromRight_refines {order minKeys least : Nat} (valid : Valid store)
    (owned : Owned (view store)
      (siblingCells parent (hole.fillTwo left.label sep right.label) left right))
    (sized : right.Sized order minKeys least) (spare : 1 < right.keysLen) :
    ∃ next, Ops.borrowFromRight store parent hole.index left.label
        right.label = pure next ∧
      Rewrites false store next
        (siblingCells parent (hole.fillTwo left.label sep right.label) left right)
        (siblingCells parent
          (hole.fillTwo left.label (left.rotateLeft sep right).2.1 right.label)
          (left.rotateLeft sep right).1 (left.rotateLeft sep right).2.2) 0 := by
  cases h with
  | zero =>
      obtain ⟨first, next, rest, bodyEq⟩ := Tree.exists_first spare
      rw [Tree.rotateLeft_leaf bodyEq]
      exact borrowFromRight_leaf valid owned bodyEq
  | succ h =>
      obtain ⟨newSep, keys, moved, children, bodyEq, -⟩ :=
        Tree.exists_first_child sized.forked (by omega)
      rw [Tree.rotateLeft_node bodyEq]
      exact borrowFromRight_node valid owned bodyEq

end Borrowing

section Choosing

variable {store : S} {minKeys : Nat}

namespace Ops

theorem leftSibling_fill (hole : Hole K Id) (child : Id) :
    leftSibling (hole.fill child).children hole.index =
      pure hole.leftChildren.getLast? := by
  by_cases positive : 0 < hole.index
  · have neighbour := hole.fill_getElem?_left child positive
    rw [leftSibling, if_pos positive, checkedSub_of_le positive, pure_bind]
    cases last : hole.leftChildren.getLast? with
    | none =>
        simp [Hole.index, List.getLast?_eq_none_iff.mp last] at positive
    | some left =>
        rw [Vec.get_eq_pure (neighbour.trans last), pure_bind]
  · have empty : hole.leftChildren = [] :=
      List.eq_nil_of_length_eq_zero (Nat.eq_zero_of_not_pos positive)
    rw [leftSibling, if_neg positive, empty]
    rfl

theorem rightSibling_fill (hole : Hole K Id) (child : Id) :
    rightSibling (hole.fill child).children hole.index =
      pure hole.rightChildren.head? := by
  have neighbour := hole.fill_getElem?_right child
  rw [rightSibling]
  cases first : hole.rightChildren.head? with
  | none =>
      rw [first, List.getElem?_eq_none_iff] at neighbour
      rw [if_neg (by omega)]
  | some right =>
      rw [first] at neighbour
      rw [if_pos (List.getElem?_eq_some_iff.mp neighbour).1,
        Vec.get_eq_pure neighbour, pure_bind]

theorem hasSpare_stored {h : Nat} {sibling : Tree Id K V h}
    (got : NodeStore.get store sibling.label = pure sibling.node) :
    hasSpare store minKeys (some sibling.label) =
      pure (decide (sibling.keysLen > minKeys)) := by
  simp only [hasSpare, got, pure_bind, sibling.node_keysLen]

section Decision

variable {store : S} {parent child sibling : Id} {hole : Hole K Id} {minKeys : Nat}
  (got : NodeStore.get store parent = pure (.internal (hole.fill child)))

include got

theorem rebalance_borrowsLeft (last : hole.leftChildren.getLast? = some sibling)
    (spare : hasSpare store minKeys (some sibling) = pure true) :
    rebalance store parent hole.index minKeys =
      borrowFromLeft store parent hole.index sibling child := by
  simp only [rebalance, got, pure_bind, leftSibling_fill, rightSibling_fill,
    Vec.get_eq_pure (hole.fill_getElem? child), last, spare]

theorem rebalance_borrowsRight
    (poor : hasSpare store minKeys hole.leftChildren.getLast? = pure false)
    (first : hole.rightChildren.head? = some sibling)
    (spare : hasSpare store minKeys (some sibling) = pure true) :
    rebalance store parent hole.index minKeys =
      borrowFromRight store parent hole.index child sibling := by
  simp only [rebalance, got, pure_bind, leftSibling_fill, rightSibling_fill,
    Vec.get_eq_pure (hole.fill_getElem? child), poor, first, spare]
  cases hole.leftChildren.getLast? <;> rfl

theorem rebalance_mergesLeft (last : hole.leftChildren.getLast? = some sibling)
    (poor : hasSpare store minKeys (some sibling) = pure false)
    (poorRight : hasSpare store minKeys hole.rightChildren.head? = pure false) :
    rebalance store parent hole.index minKeys =
      merge store parent (hole.index - 1) sibling child := by
  have positive : 1 ≤ hole.index := by
    refine Nat.pos_of_ne_zero fun first => ?_
    simp [List.eq_nil_of_length_eq_zero first] at last
  simp only [rebalance, got, pure_bind, leftSibling_fill, rightSibling_fill,
    Vec.get_eq_pure (hole.fill_getElem? child), last, poor, poorRight,
    checkedSub_of_le positive]
  cases hole.rightChildren.head? <;> rfl

theorem rebalance_mergesRight (first : hole.leftChildren.getLast? = none)
    (next : hole.rightChildren.head? = some sibling)
    (poor : hasSpare store minKeys (some sibling) = pure false) :
    rebalance store parent hole.index minKeys =
      merge store parent hole.index child sibling := by
  have noLeft : hasSpare store minKeys (none : Option Id) = pure false := rfl
  simp only [rebalance, got, pure_bind, leftSibling_fill, rightSibling_fill,
    Vec.get_eq_pure (hole.fill_getElem? child), first, next, poor, noLeft]

end Decision

end Ops

end Choosing

section Focusing

variable {h : Nat} {parent : Id}

theorem perm_focus {α : Type} (parent left right : α)
    (before above below after : List α) :
    (parent :: (before ++ (left :: above ++ right :: below) ++ after)).Perm
      ([parent, left, right] ++ (before ++ (above ++ below) ++ after)) := by
  have first : (before ++ left :: (above ++ right :: below ++ after)).Perm
      (left :: (before ++ (above ++ right :: below ++ after))) :=
    List.perm_middle
  have second : (before ++ above ++ right :: (below ++ after)).Perm
      (right :: (before ++ above ++ (below ++ after))) :=
    List.perm_middle
  simp only [List.append_assoc, List.cons_append, List.nil_append] at *
  exact (first.trans (second.cons left)).cons parent

/-- The cells under a node, with two neighbouring children in focus. -/
theorem cells_fillTwo (parent : Id) (hole : Hole K (Tree Id K V h)) (left : Tree Id K V h)
    (sep : K) (right : Tree Id K V h) :
    (Tree.cells (h := h + 1) ⟨parent, hole.fillTwo left sep right⟩).Perm
      (siblingCells parent
          ((hole.map Tree.label).fillTwo left.label sep right.label) left right ++
        (hole.leftChildren.flatMap Tree.cells ++ (left.below ++ right.below) ++
          hole.rightChildren.flatMap Tree.cells)) := by
  simp only [Tree.cells, Tree.node, hole.gather_fillTwo, Hole.map_fillTwo,
    left.cells_eq, right.cells_eq]
  exact perm_focus _ _ _ _ _ _ _

/-- The cells under a node, with one child in focus. -/
theorem cells_fill (parent : Id) (hole : Hole K (Tree Id K V h)) (child : Tree Id K V h) :
    (Tree.cells (h := h + 1) ⟨parent, hole.fill child⟩).Perm
      ([(parent, .internal ((hole.map Tree.label).fill child.label)),
          (child.label, child.node)] ++
        (hole.leftChildren.flatMap Tree.cells ++ child.below ++
          hole.rightChildren.flatMap Tree.cells)) := by
  simp only [Tree.cells, Tree.node, hole.gather_fill, Hole.map_fill,
    child.cells_eq, List.append_assoc, List.cons_append, List.nil_append]
  exact List.perm_middle.cons _

namespace Tree

variable {left right : Tree Id K V h} {sep : K} {order minKeys least : Nat}

/-- A rotation moves subtrees over, and leaves both roots in place. -/
structure Rotated (left right : Tree Id K V h)
    (result : Tree Id K V h × K × Tree Id K V h) : Prop where
  leftLabel : result.1.label = left.label
  rightLabel : result.2.2.label = right.label
  below : result.1.below ++ result.2.2.below = left.below ++ right.below

theorem rotateRight_rotated (sized : left.Sized order minKeys least)
    (spare : 1 < left.keysLen) :
    Rotated left right (left.rotateRight sep right) := by
  cases h with
  | zero =>
      obtain ⟨front, last, bodyEq, -⟩ := exists_last spare
      rw [rotateRight_leaf bodyEq]
      exact ⟨rfl, rfl, rfl⟩
  | succ h =>
      obtain ⟨keys, newSep, children, moved, bodyEq, -⟩ :=
        exists_last_child sized.forked (by omega)
      rw [rotateRight_node bodyEq]
      exact ⟨rfl, rfl, by simp [below, bodyEq, Internal.gather]⟩

theorem rotateLeft_rotated (sized : right.Sized order minKeys least)
    (spare : 1 < right.keysLen) :
    Rotated left right (left.rotateLeft sep right) := by
  cases h with
  | zero =>
      obtain ⟨first, next, rest, bodyEq⟩ := exists_first spare
      rw [rotateLeft_leaf bodyEq]
      exact ⟨rfl, rfl, rfl⟩
  | succ h =>
      obtain ⟨newSep, keys, moved, children, bodyEq, -⟩ :=
        exists_first_child sized.forked (by omega)
      rw [rotateLeft_node bodyEq]
      exact ⟨rfl, rfl, by simp [below, bodyEq, Internal.gather]⟩

theorem join_label : (left.join sep right).label = left.label := by
  cases h <;> rfl

theorem join_below : (left.join sep right).below = left.below ++ right.below := by
  cases h with
  | zero => rfl
  | succ h => simp [below, join, Internal.gather]

end Tree

end Focusing

section Spares

variable {store : S} {h : Nat} {hole : Hole K (Tree Id K V h)}

theorem noSpare_left (minKeys : Nat)
    (stored : ∀ sibling ∈ hole.others,
      NodeStore.get store sibling.label = pure sibling.node)
    (poor : ∀ other left sep, hole = Hole.pastLeft other left sep →
      left.keysLen ≤ minKeys) :
    Ops.hasSpare store minKeys
      (hole.map Tree.label).leftChildren.getLast? = pure false := by
  by_cases first : hole.index = 0
  · have empty := List.eq_nil_of_length_eq_zero first
    simp only [Hole.map, empty]
    rfl
  · obtain ⟨wide, left, sep, rfl⟩ := Hole.exists_left (Nat.pos_of_ne_zero first)
    have leftPoor := poor wide left sep rfl
    rw [Hole.map_pastLeft, Hole.pastLeft_getLast?,
      Ops.hasSpare_stored (stored left (by simp)), decide_eq_false (by omega)]

theorem noSpare_right (minKeys : Nat)
    (stored : ∀ sibling ∈ hole.others,
      NodeStore.get store sibling.label = pure sibling.node)
    (poor : ∀ other sep right, hole = Hole.beforeRight other sep right →
      right.keysLen ≤ minKeys) :
    Ops.hasSpare store minKeys
      (hole.map Tree.label).rightChildren.head? = pure false := by
  by_cases last : hole.rightChildren = []
  · simp only [Hole.map, last]
    rfl
  · obtain ⟨wide, sep, right, rfl⟩ := Hole.exists_right last
    have rightPoor := poor wide sep right rfl
    rw [Hole.map_beforeRight, Hole.beforeRight_head?,
      Ops.hasSpare_stored (stored right (by simp)), decide_eq_false (by omega)]

end Spares

section Rebalancing

variable [LawfulNodeStore S] {store : S} {h order minKeys : Nat} {parent : Id}
  {hole : Hole K (Tree Id K V h)} {child : Tree Id K V h}
  {result : Internal K (Tree Id K V h)}

/-- A rotation of two siblings, seen from all the cells under their parent. -/
theorem rotated_among {wide : Hole K (Tree Id K V h)} {left right : Tree Id K V h}
    {sep : K} {pair : Tree Id K V h × K × Tree Id K V h} {next : S}
    (owned : Owned (view store)
      (Tree.cells (h := h + 1) ⟨parent, wide.fillTwo left sep right⟩))
    (rotated : Tree.Rotated left right pair)
    (change : Rewrites false store next
      (siblingCells parent
        ((wide.map Tree.label).fillTwo left.label sep right.label) left right)
      (siblingCells parent
        ((wide.map Tree.label).fillTwo left.label pair.2.1 right.label) pair.1
        pair.2.2) 0) :
    Rewrites false store next
      (Tree.cells (h := h + 1) ⟨parent, wide.fillTwo left sep right⟩)
      (Tree.cells (h := h + 1) ⟨parent, wide.fillTwo pair.1 pair.2.1 pair.2.2⟩)
      0 := by
  have newPerm := cells_fillTwo parent wide pair.1 pair.2.1 pair.2.2
  rw [rotated.leftLabel, rotated.rightLabel, rotated.below] at newPerm
  exact change.among owned (cells_fillTwo _ wide left sep right) newPerm

/-- A merge of two siblings, seen from all the cells under their parent. -/
theorem joined_among {wide : Hole K (Tree Id K V h)} {left right : Tree Id K V h}
    {sep : K} {next : S}
    (owned : Owned (view store)
      (Tree.cells (h := h + 1) ⟨parent, wide.fillTwo left sep right⟩))
    (change : Rewrites false store next
      (siblingCells parent
        ((wide.map Tree.label).fillTwo left.label sep right.label) left right)
      [(parent, .internal ((wide.map Tree.label).fill left.label)),
        ((left.join sep right).label, (left.join sep right).node)] 0) :
    Rewrites false store next
      (Tree.cells (h := h + 1) ⟨parent, wide.fillTwo left sep right⟩)
      (Tree.cells (h := h + 1) ⟨parent, wide.fill (left.join sep right)⟩) 0 := by
  have newPerm := cells_fill parent wide (left.join sep right)
  rw [Tree.join_below, Tree.join_label] at newPerm
  rw [Tree.join_label] at change
  exact change.among owned (cells_fillTwo _ wide left sep right) newPerm

/-- Repairing a child of a stored node is repairing it in the tree. -/
theorem rebalance_refines (rebalanced : Rebalanced minKeys hole child result)
    (positive : 1 ≤ minKeys) (valid : Valid store)
    (owned : Owned (view store)
      (Tree.cells (h := h + 1) ⟨parent, hole.fill child⟩))
    (siblings : ∀ sibling ∈ hole.others, sibling.Sized order minKeys minKeys) :
    ∃ next, Ops.rebalance store parent hole.index minKeys = pure next ∧
      Rewrites false store next
        (Tree.cells (h := h + 1) ⟨parent, hole.fill child⟩)
        (Tree.cells (h := h + 1) ⟨parent, result⟩) 0 := by
  have parentGot : NodeStore.get store parent =
      pure (.internal ((hole.map Tree.label).fill child.label)) := by
    refine get_owned valid owned ?_
    simp [Tree.cells, Tree.node]
  have stored : ∀ sibling ∈ hole.others,
      NodeStore.get store sibling.label = pure sibling.node := by
    intro sibling member
    have cell := Tree.mem_cells sibling
    refine get_owned valid owned ?_
    simp only [Tree.cells, hole.gather_fill, List.mem_cons, List.mem_append,
      List.mem_flatMap]
    rcases List.mem_append.mp member with left | right
    · exact .inr (.inl (.inl ⟨sibling, left, cell⟩))
    · exact .inr (.inr ⟨sibling, right, cell⟩)
  rw [← hole.map_index Tree.label]
  cases rebalanced with
  | @fromLeft wide left sep place spare =>
      subst place
      have leftSized := siblings left (by simp)
      rw [Hole.map_pastLeft] at parentGot ⊢
      rw [Ops.rebalance_borrowsLeft parentGot (Hole.pastLeft_getLast? _ _ _)
        (by rw [Ops.hasSpare_stored (stored left (by simp)),
          decide_eq_true spare])]
      rw [Hole.pastLeft_fill] at owned ⊢
      obtain ⟨next, called, change⟩ := borrowFromLeft_refines valid
        (owned.perm (cells_fillTwo _ wide left sep child)).initial leftSized
        (by omega)
      rw [Hole.pastLeft_index]
      exact ⟨next, called, rotated_among owned
        (Tree.rotateRight_rotated leftSized (by omega)) change⟩
  | @fromRight wide sep right place spare poor =>
      have leftPoor := noSpare_left minKeys stored poor
      subst place
      have rightSized := siblings right (by simp)
      rw [Hole.map_beforeRight] at parentGot leftPoor ⊢
      rw [Ops.rebalance_borrowsRight parentGot leftPoor (Hole.beforeRight_head? _ _ _)
        (by rw [Ops.hasSpare_stored (stored right (by simp)),
          decide_eq_true spare])]
      rw [Hole.beforeRight_fill] at owned ⊢
      obtain ⟨next, called, change⟩ := borrowFromRight_refines valid
        (owned.perm (cells_fillTwo _ wide child sep right)).initial rightSized
        (by omega)
      rw [Hole.beforeRight_index]
      exact ⟨next, called, rotated_among owned
        (Tree.rotateLeft_rotated rightSized (by omega)) change⟩
  | @intoLeft wide left sep place poor poorRight =>
      have rightPoor := noSpare_right minKeys stored poorRight
      subst place
      rw [Hole.map_pastLeft] at parentGot rightPoor ⊢
      rw [Ops.rebalance_mergesLeft parentGot (Hole.pastLeft_getLast? _ _ _)
        (by rw [Ops.hasSpare_stored (stored left (by simp)),
          decide_eq_false (by omega)]) rightPoor]
      rw [Hole.pastLeft_fill] at owned ⊢
      obtain ⟨next, called, change⟩ := merge_refines valid
        (owned.perm (cells_fillTwo _ wide left sep child)).initial
      rw [Hole.pastLeft_index, Nat.add_sub_cancel]
      exact ⟨next, called, joined_among owned change⟩
  | @intoRight wide sep right place first poor =>
      subst place
      rw [Hole.map_beforeRight] at parentGot ⊢
      have noLeft : ((wide.map Tree.label).beforeRight sep
          right.label).leftChildren.getLast? = none := by
        have empty := List.eq_nil_of_length_eq_zero first
        simp only [Hole.beforeRight] at empty
        simp [Hole.beforeRight, Hole.map, empty]
      rw [Ops.rebalance_mergesRight parentGot noLeft (Hole.beforeRight_head? _ _ _)
        (by rw [Ops.hasSpare_stored (stored right (by simp)),
          decide_eq_false (by omega)])]
      rw [Hole.beforeRight_fill] at owned ⊢
      obtain ⟨next, called, change⟩ := merge_refines valid
        (owned.perm (cells_fillTwo _ wide child sep right)).initial
      rw [Hole.beforeRight_index]
      exact ⟨next, called, joined_among owned change⟩

end Rebalancing

section Removal

theorem Tree.removeFrom_label [LT K] [DecidableLT K] {h : Nat} (minKeys : Nat)
    (key : K) (tree : Tree Id K V h) :
    (tree.removeFrom minKeys key).2.label = tree.label := by
  cases h with
  | zero => rfl
  | succ h =>
      rw [removeFrom]
      split
      · rfl
      · dsimp only
        split_ifs <;> rfl

/-- Removal from an internal node, after the one from its child. -/
theorem Ops.removeFrom_node [LT K] [DecidableLT K] {store : S} (minKeys : Nat)
    {id child : Id} {internal : Internal K Id} {key : K} {removed : Option V} {middle : S}
    {childNode : Node Id K V} {fuel : Nat}
    (got : NodeStore.get store id = pure (.internal internal))
    (chosen : Vec.get internal.children (internal.childIndex key) = pure child)
    (shrunk : removeFrom fuel store child key minKeys = pure (removed, middle))
    (childGot : NodeStore.get middle child = pure childNode) :
    removeFrom (fuel + 1) store id key minKeys =
      if removed.isSome ∧ childNode.keysLen < minKeys then do
        let next ← rebalance middle id (internal.childIndex key) minKeys
        pure (removed, next)
      else
        pure (removed, middle) := by
  simp only [removeFrom, got, chosen, shrunk, pure_bind]
  cases removed with
  | none => simp
  | some value => simp [childGot]

/-- The root that is left is the tree without its empty levels. -/
theorem collapseRoot_refines [LawfulNodeStore S] {store : S}
    {h order minKeys least : Nat} {tree : Tree Id K V h} (valid : Valid store)
    (owned : Owned (view store) tree.cells)
    (sized : tree.Sized order minKeys least) :
    ∃ next, Ops.collapseRoot store tree.label =
        pure (tree.collapse.2.label, next) ∧
      Rewrites false store next tree.cells tree.collapse.2.cells 0 := by
  have got := get_owned valid owned tree.mem_cells
  cases h with
  | zero =>
      refine ⟨store, ?_, .refl valid owned⟩
      simp only [Ops.collapseRoot, got, pure_bind]
      rfl
  | succ h =>
      rcases Tree.collapse_cases sized.forked with
        ⟨only, single, collapsed⟩ | ⟨-, several, collapsed⟩
      · have cellsEq : tree.cells = [] ++ (tree.label, tree.node) :: only.cells := by
          simp [Tree.cells_eq tree, Tree.below, single, Internal.gather]
        rw [collapsed]
        rw [cellsEq] at owned ⊢
        obtain ⟨next, reclaimed, rewrites⟩ := reclaim_owned [] _ valid owned
        refine ⟨next, ?_, rewrites⟩
        simp only [Ops.collapseRoot, got, pure_bind, Tree.node, single,
          Internal.map, List.map_cons, List.map_nil, List.length_singleton,
          if_true, Vec.get_zero, reclaimed]
      · have notOne : (tree.body.map Tree.label).children.length ≠ 1 := by
          simpa [Internal.map] using several
        refine ⟨store, ?_, ?_⟩
        · rw [collapsed]
          simp only [Ops.collapseRoot, got, pure_bind, Tree.node, if_neg notOne]
        · rw [collapsed]
          exact .refl valid owned

variable [Preorder K] [Std.IsLinearPreorder K] [DecidableLT K]

theorem Leaf.remove_ofEntries (key : K) {entries : List (K × V)}
    (ascending : Ascending entries) :
    (Leaf.ofEntries entries).remove key =
      pure ((removeEntries key entries).1,
        .ofEntries (removeEntries key entries).2) := by
  have correct := Entries.search_answer key ascending
  simp only [Leaf.remove, ofEntries, removeEntries]
  generalize binarySearch (entries.map Prod.fst) key = answer at correct
  cases correct with
  | @found before after entry split below same above =>
      subst split
      simp [Vec.remove, List.eraseIdx_append_of_length_le]
  | missing split below above => rfl

/-- Removal from a leaf, in the store. -/
theorem Ops.removeFrom_leaf {store : S} {minKeys : Nat} {id : Id} {entries : List (K × V)}
    {write : Node Id K V → S}
    (returned : NodeStore.getMut store id =
      pure (.leaf (.ofEntries entries), write))
    (got : NodeStore.get store id = pure (.leaf (.ofEntries entries)))
    (ascending : Ascending entries) (key : K) (fuel : Nat) :
    removeFrom (fuel + 1) store id key minKeys =
      pure ((removeEntries key entries).1,
        write (.leaf (.ofEntries (removeEntries key entries).2))) := by
  simp only [removeFrom, got, returned, pure_bind,
    Leaf.remove_ofEntries key ascending]

variable [LawfulNodeStore S] {store : S} {h order minKeys least : Nat}

/-- Removal from a stored tree is removal from the tree. -/
theorem removeFrom_refines {tree : Tree Id K V h} (positive : 1 ≤ minKeys)
    (valid : Valid store)
    (owned : Owned (view store) tree.cells)
    (sized : tree.Sized order minKeys least)
    (ordered : Mark.Ordered tree.marks) (inner : min h 1 ≤ least) (key : K)
    {fuel : Nat} (enough : h < fuel) :
    ∃ next, Ops.removeFrom fuel store tree.label key minKeys =
        pure ((tree.removeFrom minKeys key).1, next) ∧
      Rewrites false store next tree.cells
        (tree.removeFrom minKeys key).2.cells 0 := by
  induction h generalizing fuel least store with
  | zero =>
      obtain ⟨fuel, rfl⟩ : ∃ rest, fuel = rest + 1 := ⟨fuel - 1, by omega⟩
      have ascending : Ascending tree.body := by
        rw [← Tree.entries_leaf tree]
        exact ordered.ascending
      have got := get_owned valid owned tree.mem_cells
      obtain ⟨write, returned, rewrites⟩ := getMut_owned [] _ valid owned
      exact ⟨_, Ops.removeFrom_leaf returned got ascending key fuel,
        rewrites false (.leaf (.ofEntries (removeEntries key tree.body).2))⟩
  | succ h ih =>
      obtain ⟨fuel, rfl⟩ : ∃ rest, fuel = rest + 1 := ⟨fuel - 1, by omega⟩
      obtain ⟨hole, child, filled, indexEq, -, -⟩ :=
        Tree.route (Internal.Occupied.forked sized) ordered key
      have got := get_owned valid owned tree.mem_cells
      have chosen := Tree.child_returned filled indexEq
      have childSized := sized.child filled
      have childOrdered := Tree.ordered_child filled ordered
      obtain ⟨enoughKeys, below, siblings⟩ := sized.around filled
      rw [Tree.cells_fill filled] at owned ⊢
      obtain ⟨middle, shrunk, rewrites⟩ := ih valid owned.part childSized
        childOrdered (by omega) (Nat.lt_of_succ_lt_succ enough)
      have framed := rewrites.inside _ _ owned
      have labelEq := Tree.removeFrom_label minKeys key child
      rw [← Tree.cells_refill filled labelEq] at framed
      have childGot : NodeStore.get middle child.label =
          pure (child.removeFrom minKeys key).2.node := by
        rw [← labelEq]
        exact get_owned rewrites.valid rewrites.owned (Tree.mem_cells _)
      have parentIndex : (tree.body.map Tree.label).childIndex key = hole.index :=
        indexEq
      have call := Ops.removeFrom_node minKeys got chosen shrunk childGot
      rw [call, parentIndex, Tree.removeFrom_fill minKeys key filled indexEq,
        Tree.node_keysLen]
      dsimp only
      split_ifs with poor
      · have repaired := Tree.rebalance_rebalanced minKeys hole
          (child.removeFrom minKeys key).2 (Hole.several (by omega))
        obtain ⟨next, called, change⟩ := rebalance_refines repaired positive
          framed.valid framed.owned siblings
        exact ⟨next, by rw [called, pure_bind], framed.trans change⟩
      · exact ⟨middle, rfl, framed⟩

/-- Removing at the root of a stored tree is removing from the tree. -/
theorem remove_refines (t : SearchTree Id K V order) (valid : Valid store)
    (owned : Owned (view store) t.cells) (key : K) {fuel : Nat}
    (enough : t.height < fuel) :
    ∃ next, Ops.remove fuel store t.root key (leastKeys order) =
        pure ((t.remove key).1, (t.remove key).2.root, next) ∧
      Rewrites false store next t.cells (t.remove key).2.cells 0 := by
  have positive := leastKeys_pos t.large
  obtain ⟨middle, removed, rewrites⟩ := removeFrom_refines positive valid owned
    t.sized t.ordered (Nat.le_refl _) key enough
  have shrunk := Tree.removeFrom_sized key positive (leastKeys_half t.large)
    t.sized t.ordered (Nat.le_refl _)
  have labelEq := Tree.removeFrom_label (leastKeys order) key t.tree
  have unfolded : Ops.remove fuel store t.root key (leastKeys order) =
      if (t.tree.removeFrom (leastKeys order) key).1.isSome then do
        let collapsed ← Ops.collapseRoot middle t.root
        pure ((t.tree.removeFrom (leastKeys order) key).1, collapsed)
      else
        pure ((t.tree.removeFrom (leastKeys order) key).1, t.root, middle) := by
    rw [Ops.remove, SearchTree.root, removed, pure_bind]
  rw [unfolded]
  change ∃ next, _ = pure ((t.tree.remove (leastKeys order) key).1,
      (t.tree.remove (leastKeys order) key).2.2.label, next) ∧
    Rewrites false store next t.cells
      (t.tree.remove (leastKeys order) key).2.2.cells 0
  by_cases found : (t.tree.removeFrom (leastKeys order) key).1.isSome
  · have result : t.tree.remove (leastKeys order) key =
        ((t.tree.removeFrom (leastKeys order) key).1,
          (t.tree.removeFrom (leastKeys order) key).2.collapse) := by
      simp [Tree.remove, found]
    obtain ⟨next, collapsed, change⟩ :=
      collapseRoot_refines rewrites.valid rewrites.owned shrunk
    rw [labelEq] at collapsed
    rw [result, if_pos found]
    refine ⟨next, ?_, rewrites.trans change⟩
    rw [SearchTree.root, collapsed, pure_bind]
  · have result : t.tree.remove (leastKeys order) key =
        ((t.tree.removeFrom (leastKeys order) key).1,
          ⟨t.height, (t.tree.removeFrom (leastKeys order) key).2⟩) := by
      simp [Tree.remove, found]
    rw [result, if_neg found]
    exact ⟨middle, by rw [SearchTree.root, labelEq], rewrites⟩

end Removal

end IndexDb
