import IndexDb.Cursor
import IndexDb.InMemoryLaws
import IndexDb.Unfolding

/-!
# Paths of cursors

A path from the root of a stored tree leads to one leaf and splits the other
entries into those before and those after it.  Stepping out of a leaf climbs
the path to the nearest child on the other side and descends again, so it
arrives at the neighbouring leaf.
-/

namespace IndexDb

open LawfulNodeStore

variable {K V : Type}

/-- The path stack leads from the root of the tree to the leaf, with these
entries before and after it. -/
inductive Tree.Leads : {h : Nat} → Tree NodeId K V h → List (Frame K) →
    Tree NodeId K V 0 → List (K × V) → List (K × V) → Prop
  | leaf (tree : Tree NodeId K V 0) : Leads tree [] tree [] []
  | node {h : Nat} {tree : Tree NodeId K V (h + 1)}
      {hole : Hole K (Tree NodeId K V h)} {child : Tree NodeId K V h}
      {path : List (Frame K)} {leaf : Tree NodeId K V 0}
      {before after : List (K × V)} (filled : tree.body = hole.fill child)
      (inner : Leads child path leaf before after) :
      Leads tree (path ++ [(tree.body.map Tree.label, hole.index)]) leaf
        (hole.leftChildren.flatMap Tree.entries ++ before)
        (after ++ hole.rightChildren.flatMap Tree.entries)

/-- What a cursor borrows of a leaf. -/
def Tree.leafRef (leaf : Tree NodeId K V 0) : LeafRef K V where
  address := leaf.label
  leaf := .ofEntries leaf.body

namespace Tree

variable {h : Nat} {tree : Tree NodeId K V h} {path : List (Frame K)}
  {leaf : Tree NodeId K V 0} {before after : List (K × V)}

theorem entries_fill_flat {tree : Tree NodeId K V (h + 1)}
    {hole : Hole K (Tree NodeId K V h)} {child : Tree NodeId K V h}
    (filled : tree.body = hole.fill child) :
    tree.entries = hole.leftChildren.flatMap entries ++ child.entries ++
      hole.rightChildren.flatMap entries := by
  rw [entries_node, filled, hole.gather_fill]

/-- A path splits the entries at its leaf. -/
theorem Leads.entries_eq (leads : tree.Leads path leaf before after) :
    tree.entries = before ++ leaf.body ++ after := by
  induction leads with
  | leaf tree => rw [entries_leaf, List.append_nil, List.nil_append]
  | node filled inner ih =>
      rw [entries_fill_flat filled, ih]
      simp only [List.append_assoc]

theorem Leads.mem_subtrees (leads : tree.Leads path leaf before after) :
    ⟨0, leaf⟩ ∈ tree.subtrees := by
  induction leads with
  | leaf tree => exact self_mem_subtrees tree
  | @node h tree hole child path leaf before after filled inner ih =>
      exact mem_subtrees_node.mpr (.inr ⟨child, Hole.mem_of_fill filled, ih⟩)

end Tree

section Descending

variable {store : InMemoryStore K V} {order minKeys : Nat}

/-- What a descent needs to know about the choices it makes: each takes out a
child, and leaves only earlier entries with `P` and later ones with `Q`. -/
def Chooses (choose : Internal K NodeId → Run Nat) (order minKeys : Nat)
    [LE K] [LT K] (P Q : K × V → Prop) : Prop :=
  ∀ ⦃h least : Nat⦄ (tree : Tree NodeId K V (h + 1)),
    tree.Sized order minKeys least → Mark.Ordered tree.marks →
    ∃ (hole : Hole K (Tree NodeId K V h)) (child : Tree NodeId K V h),
      tree.body = hole.fill child ∧
      choose (tree.body.map Tree.label) = pure hole.index ∧
      (∀ entry ∈ hole.leftChildren.flatMap Tree.entries, P entry) ∧
      ∀ entry ∈ hole.rightChildren.flatMap Tree.entries, Q entry

/-- Every descent arrives at a leaf. -/
theorem descend_leads [LE K] [LT K] {choose : Internal K NodeId → Run Nat}
    {P Q : K × V → Prop} (chooses : Chooses choose order minKeys P Q)
    {h least : Nat} {tree : Tree NodeId K V h} (stored : Stored store tree)
    (sized : tree.Sized order minKeys least)
    (ordered : Mark.Ordered tree.marks) {fuel : Nat} (enough : h < fuel)
    (base : List (Frame K)) :
    ∃ path leaf before after, tree.Leads path leaf before after ∧
      Cursor.descend choose fuel store base tree.label =
        pure (path ++ base, leaf.leafRef) ∧
      (∀ entry ∈ before, P entry) ∧ ∀ entry ∈ after, Q entry := by
  induction h generalizing fuel least base with
  | zero =>
      obtain ⟨fuel, rfl⟩ : ∃ rest, fuel = rest + 1 := ⟨fuel - 1, by omega⟩
      refine ⟨[], tree, [], [], .leaf tree, ?_, by simp, by simp⟩
      rw [Cursor.descend, stored _ (Tree.self_mem_subtrees tree), pure_bind]
      rfl
  | succ h ih =>
      obtain ⟨fuel, rfl⟩ : ∃ rest, fuel = rest + 1 := ⟨fuel - 1, by omega⟩
      obtain ⟨hole, child, filled, chosen, leftGood, rightGood⟩ :=
        chooses tree sized ordered
      have childStored : Stored store child := stored.child (Hole.mem_of_fill filled)
      obtain ⟨path, leaf, before, after, leads, descended, beforeGood, afterGood⟩ :=
        ih childStored (sized.child filled) (Tree.ordered_child filled ordered)
          (Nat.lt_of_succ_lt_succ enough)
          ((tree.body.map Tree.label, hole.index) :: base)
      have childGot : Vec.get (tree.body.map Tree.label).children hole.index =
          pure child.label := Vec.get_eq_pure (Tree.label_getElem? filled)
      refine ⟨_, leaf, _, _, .node filled leads, ?_, ?_, ?_⟩
      · rw [Cursor.descend, stored _ (Tree.self_mem_subtrees tree), pure_bind]
        simp only [Tree.node]
        rw [chosen, pure_bind, childGot, pure_bind, descended, List.append_assoc]
        rfl
      · intro entry inside
        exact (List.mem_append.mp inside).elim (leftGood entry) (beforeGood entry)
      · intro entry inside
        exact (List.mem_append.mp inside).elim (afterGood entry) (rightGood entry)

theorem chooses_leftmost [LE K] [LT K] :
    Chooses Cursor.leftmostChild order minKeys (fun _ : K × V => False)
      fun _ => True := by
  intro h least tree sized _
  obtain ⟨hole, child, filled, place⟩ :=
    Hole.exists_fill (Internal.Occupied.forked sized) (Nat.zero_le _)
  have first : hole.leftChildren = [] := List.eq_nil_of_length_eq_zero place
  exact ⟨hole, child, filled, by rw [place]; rfl, by simp [first], by simp⟩

theorem chooses_rightmost [LE K] [LT K] :
    Chooses Cursor.rightmostChild order minKeys (fun _ : K × V => True)
      fun _ => False := by
  intro h least tree sized _
  have forked : tree.body.children.length = tree.body.keys.length + 1 := sized.forked
  obtain ⟨hole, child, filled, place⟩ :=
    Hole.exists_fill (Internal.Occupied.forked sized) (Nat.le_refl _)
  have last : hole.rightChildren = [] := by
    rw [filled] at forked
    simp only [filled, Hole.fill, Hole.index, List.length_append,
      List.length_cons] at forked place
    exact List.eq_nil_of_length_eq_zero (by omega)
  refine ⟨hole, child, filled, ?_, by simp, by simp [last]⟩
  have several : 1 ≤ (tree.body.map Tree.label).children.length := by
    rw [Internal.map, List.length_map]
    omega
  rw [Cursor.rightmostChild, checkedSub_of_le several, Internal.map,
    List.length_map, forked, place, Nat.add_sub_cancel]

theorem chooses_probe [Preorder K] [Std.IsLinearPreorder K] [DecidableLT K]
    (probe : K) :
    Chooses (fun internal => pure (internal.childIndex probe)) order minKeys
      (fun entry : K × V => entry.1 < probe) fun entry => probe < entry.1 := by
  intro h least tree sized ordered
  obtain ⟨hole, child, filled, indexEq, left, right⟩ :=
    Tree.route (Internal.Occupied.forked sized) ordered probe
  refine ⟨hole, child, filled, congrArg pure indexEq, ?_, ?_⟩
  · rw [← hole.entries_leftMarks]
    exact left.entries_below
  · rw [← hole.entries_rightMarks]
    exact right.entries_above

end Descending

section Climbing

namespace Cursor

variable {cursor : Cursor K V} {parent : Internal K NodeId} {ci : Nat}
  {path : List (Frame K)} {child : NodeId}

theorem ascendForward_climb (last : parent.children[ci + 1]? = none) :
    ascendForward cursor ((parent, ci) :: path) = ascendForward cursor path := by
  have outside := List.getElem?_eq_none_iff.mp last
  rw [ascendForward, if_neg (by omega)]

theorem ascendForward_turn (more : parent.children[ci + 1]? = some child) :
    ascendForward cursor ((parent, ci) :: path) = (do
      let cursor ← descendLeftmost
        { cursor with path := (parent, ci + 1) :: path } child
      pure (true, cursor)) := by
  have inside := (List.getElem?_eq_some_iff.mp more).1
  rw [ascendForward, if_pos inside, Vec.get_eq_pure more, pure_bind]

theorem ascendBackward_climb :
    ascendBackward cursor ((parent, 0) :: path) = ascendBackward cursor path := by
  rw [ascendBackward, if_neg (by omega)]

theorem ascendBackward_turn (more : parent.children[ci]? = some child) :
    ascendBackward cursor ((parent, ci + 1) :: path) = (do
      let cursor ← descendRightmost
        { cursor with path := (parent, ci) :: path } child
      pure (true, cursor)) := by
  rw [ascendBackward, if_pos (Nat.succ_pos ci),
    checkedSub_of_le (Nat.le_add_left 1 ci), pure_bind]
  rw [Nat.add_sub_cancel, Vec.get_eq_pure more, pure_bind]

end Cursor

variable {store : InMemoryStore K V} {order minKeys : Nat}

/-- A leaf below a node that is not the root has entries. -/
theorem Tree.Leads.nonempty {h : Nat} {tree : Tree NodeId K V h}
    {path : List (Frame K)} {leaf : Tree NodeId K V 0} {before after : List (K × V)}
    (leads : tree.Leads path leaf before after) (positive : 1 ≤ minKeys)
    (sized : tree.Sized order minKeys minKeys) : 0 < leaf.body.length := by
  rcases sized.subtree leads.mem_subtrees with equal | legal
  · cases equal
    exact Nat.lt_of_lt_of_le positive sized.1
  · exact Nat.lt_of_lt_of_le positive legal.1

variable [LE K] [LT K]

/-- Turning to the child on the right arrives at its first entry. -/
theorem ascendForward_enters (positive : 1 ≤ minKeys) {h least : Nat}
    {tree : Tree NodeId K V (h + 1)} {hole : Hole K (Tree NodeId K V h)}
    {child right : Tree NodeId K V h} {sep : K}
    (filled : tree.body = (hole.pastLeft child sep).fill right)
    (stored : Stored store tree) (sized : tree.Sized order minKeys least)
    (ordered : Mark.Ordered tree.marks) (enough : h < Cursor.fuel store)
    {cursor : Cursor K V} (storeEq : cursor.store = store) (base : List (Frame K)) :
    ∃ newPath newLeaf rest,
      tree.Leads newPath newLeaf
        (hole.leftChildren.flatMap Tree.entries ++ child.entries) rest ∧
      0 < newLeaf.body.length ∧
      right.entries ++ hole.rightChildren.flatMap Tree.entries =
        newLeaf.body ++ rest ∧
      Cursor.ascendForward cursor
          ((tree.body.map Tree.label, hole.index) :: base) =
        pure (true, { cursor with
          path := newPath ++ base, leaf := newLeaf.leafRef, idx := 0 }) := by
  have turn := Tree.label_getElem? filled
  rw [Hole.pastLeft_index] at turn
  obtain ⟨newPath, newLeaf, front, rest, leads, descended, none, -⟩ :=
    descend_leads chooses_leftmost (stored.child (Hole.mem_of_fill filled))
      (sized.child filled) (Tree.ordered_child filled ordered) enough
      ((tree.body.map Tree.label, hole.index + 1) :: base)
  obtain rfl : front = [] := List.eq_nil_iff_forall_not_mem.mpr none
  refine ⟨newPath ++ [(tree.body.map Tree.label, hole.index + 1)], newLeaf,
    rest ++ hole.rightChildren.flatMap Tree.entries, ?_,
    leads.nonempty positive (sized.child filled), ?_, ?_⟩
  · have moved := Tree.Leads.node filled leads
    have beforeEq : (hole.pastLeft child sep).leftChildren.flatMap Tree.entries ++ [] =
        hole.leftChildren.flatMap Tree.entries ++ child.entries := by
      simp [Hole.pastLeft]
    rw [Hole.pastLeft_index, beforeEq] at moved
    exact moved
  · simp [leads.entries_eq]
  · rw [Cursor.ascendForward_turn turn, Cursor.descendLeftmost, storeEq,
      descended, pure_bind, pure_bind, List.append_assoc]
    rfl

/-- Climbing forward ends above the tree when nothing follows the leaf, and
else arrives at the first entry that follows. -/
theorem ascendForward_leads (positive : 1 ≤ minKeys) {h least : Nat}
    {tree : Tree NodeId K V h} {path : List (Frame K)} {leaf : Tree NodeId K V 0}
    {before after : List (K × V)} (leads : tree.Leads path leaf before after)
    (stored : Stored store tree) (sized : tree.Sized order minKeys least)
    (ordered : Mark.Ordered tree.marks) (enough : h < Cursor.fuel store)
    {cursor : Cursor K V} (storeEq : cursor.store = store) (base : List (Frame K)) :
    (after = [] ∧ Cursor.ascendForward cursor (path ++ base) =
      Cursor.ascendForward cursor base) ∨
    ∃ newPath newLeaf rest,
      tree.Leads newPath newLeaf (before ++ leaf.body) rest ∧
      0 < newLeaf.body.length ∧ after = newLeaf.body ++ rest ∧
      Cursor.ascendForward cursor (path ++ base) =
        pure (true, { cursor with
          path := newPath ++ base, leaf := newLeaf.leafRef, idx := 0 }) := by
  induction leads generalizing least base with
  | leaf tree => exact .inl ⟨rfl, rfl⟩
  | @node h tree hole child path leaf before after filled inner ih =>
      rw [List.append_assoc, List.singleton_append]
      rcases ih (stored.child (Hole.mem_of_fill filled)) (sized.child filled)
          (Tree.ordered_child filled ordered) (Nat.lt_of_succ_lt enough)
          ((tree.body.map Tree.label, hole.index) :: base) with
        ⟨rfl, climbed⟩ | ⟨newPath, newLeaf, rest, newLeads, some, rfl, arrived⟩
      · rw [climbed]
        by_cases last : hole.rightChildren = []
        · left
          refine ⟨by rw [last]; rfl, Cursor.ascendForward_climb ?_⟩
          rw [Internal.map, List.getElem?_map, filled, Hole.fill_getElem?_right,
            last]
          rfl
        · right
          obtain ⟨wide, sep, right, rfl⟩ := Hole.exists_right last
          have refilled : tree.body = (wide.pastLeft child sep).fill right := by
            rw [filled, Hole.beforeRight_fill, Hole.pastLeft_fill]
          obtain ⟨newPath, newLeaf, rest, newLeads, some, split, arrived⟩ :=
            ascendForward_enters positive refilled stored sized ordered
              (Nat.lt_of_succ_lt enough) storeEq base
          refine ⟨newPath, newLeaf, rest, ?_, some, ?_, ?_⟩
          · rw [inner.entries_eq, List.append_nil, ← List.append_assoc] at newLeads
            exact newLeads
          · rw [← split]
            rfl
          · rw [Hole.beforeRight_index]
            exact arrived
      · refine .inr ⟨newPath ++ [(tree.body.map Tree.label, hole.index)], newLeaf,
          rest ++ hole.rightChildren.flatMap Tree.entries, ?_, some, ?_, ?_⟩
        · rw [List.append_assoc]
          exact .node filled newLeads
        · rw [List.append_assoc]
        · rw [arrived, List.append_assoc]
          rfl

/-- Turning to the child on the left arrives at its last entry. -/
theorem ascendBackward_enters (positive : 1 ≤ minKeys) {h least : Nat}
    {tree : Tree NodeId K V (h + 1)} {hole : Hole K (Tree NodeId K V h)}
    {left child : Tree NodeId K V h} {sep : K}
    (filled : tree.body = (hole.beforeRight sep child).fill left)
    (stored : Stored store tree) (sized : tree.Sized order minKeys least)
    (ordered : Mark.Ordered tree.marks) (enough : h < Cursor.fuel store)
    {cursor : Cursor K V} (storeEq : cursor.store = store) (base : List (Frame K)) :
    ∃ newPath newLeaf front,
      tree.Leads newPath newLeaf front
        (child.entries ++ hole.rightChildren.flatMap Tree.entries) ∧
      0 < newLeaf.body.length ∧
      hole.leftChildren.flatMap Tree.entries ++ left.entries =
        front ++ newLeaf.body ∧
      Cursor.ascendBackward cursor
          ((tree.body.map Tree.label, hole.index + 1) :: base) =
        pure (true, { cursor with
          path := newPath ++ base, leaf := newLeaf.leafRef
          idx := newLeaf.body.length - 1 }) := by
  have turn := Tree.label_getElem? filled
  rw [Hole.beforeRight_index] at turn
  obtain ⟨newPath, newLeaf, front, rest, leads, descended, -, none⟩ :=
    descend_leads chooses_rightmost (stored.child (Hole.mem_of_fill filled))
      (sized.child filled) (Tree.ordered_child filled ordered) enough
      ((tree.body.map Tree.label, hole.index) :: base)
  obtain rfl : rest = [] := List.eq_nil_iff_forall_not_mem.mpr none
  have some := leads.nonempty positive (sized.child filled)
  refine ⟨newPath ++ [(tree.body.map Tree.label, hole.index)], newLeaf,
    hole.leftChildren.flatMap Tree.entries ++ front, ?_, some, ?_, ?_⟩
  · have moved := Tree.Leads.node filled leads
    have afterEq : [] ++ (hole.beforeRight sep child).rightChildren.flatMap
        Tree.entries = child.entries ++ hole.rightChildren.flatMap Tree.entries := by
      simp [Hole.beforeRight]
    rw [Hole.beforeRight_index, afterEq] at moved
    exact moved
  · simp [leads.entries_eq]
  · have keysLength : newLeaf.leafRef.leaf.keys.length = newLeaf.body.length :=
      List.length_map _
    rw [Cursor.ascendBackward_turn turn, Cursor.descendRightmost, storeEq,
      descended, pure_bind]
    dsimp only
    rw [keysLength, checkedSub_of_le some, pure_bind, pure_bind, List.append_assoc]
    rfl

/-- Climbing backward ends above the tree when nothing precedes the leaf, and
else arrives at the last entry that precedes. -/
theorem ascendBackward_leads (positive : 1 ≤ minKeys) {h least : Nat}
    {tree : Tree NodeId K V h} {path : List (Frame K)} {leaf : Tree NodeId K V 0}
    {before after : List (K × V)} (leads : tree.Leads path leaf before after)
    (stored : Stored store tree) (sized : tree.Sized order minKeys least)
    (ordered : Mark.Ordered tree.marks) (enough : h < Cursor.fuel store)
    {cursor : Cursor K V} (storeEq : cursor.store = store) (base : List (Frame K)) :
    (before = [] ∧ Cursor.ascendBackward cursor (path ++ base) =
      Cursor.ascendBackward cursor base) ∨
    ∃ newPath newLeaf front,
      tree.Leads newPath newLeaf front (leaf.body ++ after) ∧
      0 < newLeaf.body.length ∧ before = front ++ newLeaf.body ∧
      Cursor.ascendBackward cursor (path ++ base) =
        pure (true, { cursor with
          path := newPath ++ base, leaf := newLeaf.leafRef
          idx := newLeaf.body.length - 1 }) := by
  induction leads generalizing least base with
  | leaf tree => exact .inl ⟨rfl, rfl⟩
  | @node h tree hole child path leaf before after filled inner ih =>
      rw [List.append_assoc, List.singleton_append]
      rcases ih (stored.child (Hole.mem_of_fill filled)) (sized.child filled)
          (Tree.ordered_child filled ordered) (Nat.lt_of_succ_lt enough)
          ((tree.body.map Tree.label, hole.index) :: base) with
        ⟨rfl, climbed⟩ | ⟨newPath, newLeaf, front, newLeads, some, rfl, arrived⟩
      · rw [climbed]
        by_cases first : hole.index = 0
        · left
          have none : hole.leftChildren = [] := List.eq_nil_of_length_eq_zero first
          rw [first]
          exact ⟨by rw [none]; rfl, Cursor.ascendBackward_climb⟩
        · right
          obtain ⟨wide, left, sep, rfl⟩ :=
            Hole.exists_left (Nat.pos_of_ne_zero first)
          have refilled : tree.body = (wide.beforeRight sep child).fill left := by
            rw [filled, Hole.beforeRight_fill, Hole.pastLeft_fill]
          obtain ⟨newPath, newLeaf, front, newLeads, some, split, arrived⟩ :=
            ascendBackward_enters positive refilled stored sized ordered
              (Nat.lt_of_succ_lt enough) storeEq base
          refine ⟨newPath, newLeaf, front, ?_, some, ?_, ?_⟩
          · rw [inner.entries_eq, List.nil_append, List.append_assoc] at newLeads
            exact newLeads
          · simpa [Hole.pastLeft] using split
          · rw [Hole.pastLeft_index]
            exact arrived
      · refine .inr ⟨newPath ++ [(tree.body.map Tree.label, hole.index)], newLeaf,
          hole.leftChildren.flatMap Tree.entries ++ front, ?_, some, ?_, ?_⟩
        · rw [← List.append_assoc]
          exact .node filled newLeads
        · rw [List.append_assoc]
        · rw [arrived, List.append_assoc]
          rfl

end Climbing

end IndexDb
