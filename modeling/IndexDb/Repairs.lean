import IndexDb.Heights

/-!
# What a repair does

A repair is described on a parent of its own, which need not be part of a
larger tree: one child has a key too few, and the subtrees keep the B+tree
invariant otherwise.  The invariant is stated on the entries of the subtrees
first, and then read as an order of marks, which rotations and joins are known
to keep.
-/

namespace IndexDb

open LawfulNodeStore

section Definitions

variable {L K V : Type} {h : Nat} [LE K] [LT K]

/-- The separators ascend.  Every key under a child left of a separator is
below it, and no key under a child right of it is. -/
structure Internal.Separates (node : Internal K (Tree L K V h)) : Prop where
  ascending : node.keys.Pairwise (· < ·)
  left : ∀ (i j : Nat) (sep : K) (child : Tree L K V h), node.keys[i]? = some sep →
    node.children[j]? = some child → j ≤ i → ∀ entry ∈ child.entries, entry.1 < sep
  right : ∀ (i j : Nat) (sep : K) (child : Tree L K V h), node.keys[i]? = some sep →
    node.children[j]? = some child → i < j → ∀ entry ∈ child.entries, sep ≤ entry.1

/-- The B+tree invariant of a subtree, apart from its own key count. -/
def Tree.Sound (order : Nat) : {h : Nat} → Tree L K V h → Prop
  | 0, tree => Ascending tree.body
  | h + 1, tree =>
      tree.body.Forked ∧ tree.body.Separates ∧
        ∀ child ∈ tree.body.children, Sound order (h := h) child ∧
          leastKeys order ≤ child.keysLen ∧ child.keysLen ≤ order - 1

/-- The B+tree invariant of a subtree. -/
structure Tree.Legal (order : Nat) (tree : Tree L K V h) : Prop where
  sound : tree.Sound order
  enough : leastKeys order ≤ tree.keysLen
  most : tree.keysLen ≤ order - 1

/-- A parent whose child at `idx` has one key too few. -/
structure Underfull (order idx : Nat) (node : Internal K (Tree L K V h)) : Prop where
  forked : node.Forked
  several : 2 ≤ node.children.length
  separates : node.Separates
  poor : ∃ child, node.children[idx]? = some child ∧ child.Sound order ∧
    child.keysLen = leastKeys order - 1
  others : ∀ (i : Nat) (child : Tree L K V h), node.children[i]? = some child →
    i ≠ idx → child.Legal order

/-- The ids of the children. -/
def Tree.childIds : {h : Nat} → Tree L K V h → List L
  | 0, _ => []
  | _ + 1, tree => tree.body.children.map Tree.label

end Definitions

/-- What a repair leaves as it is under the parent: everything below the children,
and the children up to one that is merged away. -/
structure Keeps {L K V : Type} {h : Nat} (node repaired : Internal K (Tree L K V h)) :
    Prop where
  grandchildren_eq : repaired.gather Tree.childIds = node.gather Tree.childIds
  below_eq : repaired.gather Tree.below = node.gather Tree.below
  children_eq :
    repaired.keys.length = node.keys.length ∧
        repaired.children.map Tree.label = node.children.map Tree.label ∨
      repaired.keys.length + 1 = node.keys.length ∧
        ∃ i < node.children.length, repaired.children.map Tree.label =
          (node.children.map Tree.label).eraseIdx i

/-- The store holds the parent with all children legal again.  The id of a child
that is merged away is free, and ids outside of the parent's subtree resolve as
before. -/
structure Mended {S Id K V : Type} [NodeStore S Id K V] [LawfulNodeStore S] [LE K]
    [LT K] {h : Nat} (order : Nat) (store next : S) (parent : Id)
    (node repaired : Internal K (Tree Id K V h)) : Prop where
  valid : Valid next
  owned : Owned (view next) (Tree.cells (h := h + 1) ⟨parent, repaired⟩)
  forked : repaired.Forked
  legal : ∀ child ∈ repaired.children, child.Legal order
  separates : repaired.Separates
  entries_eq : repaired.gather Tree.entries = node.gather Tree.entries
  keeps : Keeps node repaired
  freed : ∀ id ∈ node.children.map Tree.label, id ∉ repaired.children.map Tree.label →
    view next id = none
  frame : ∀ id, id ∉ (Tree.cells (h := h + 1) ⟨parent, node⟩).names →
    view next id = view store id

section Reading

variable {L K V : Type} {h order minKeys least : Nat}

theorem Tree.exists_entry {tree : Tree L K V h} (positive : 1 ≤ minKeys)
    (sized : tree.Sized order minKeys minKeys) : ∃ entry, entry ∈ tree.entries := by
  have counted := Tree.le_entries sized
  have some : 0 < minKeys * (minKeys + 1) ^ h :=
    Nat.mul_pos positive (Nat.pow_pos (Nat.succ_pos _))
  exact List.exists_mem_of_length_pos (Nat.lt_of_lt_of_le some counted)

theorem Internal.entries_treeMarks (node : Internal K (Tree L K V h)) :
    Mark.entries node.treeMarks = node.gather Tree.entries := by
  simp only [treeMarks, Mark.entries_interleave, gather, List.flatMap_map]
  rfl

variable [Preorder K]

/-- A separator has entries of its tree on both sides. -/
theorem Tree.around_separator_mark {tree : Tree L K V h} (positive : 1 ≤ minKeys)
    (sized : tree.Sized order minKeys least) (ordered : Mark.Ordered tree.marks)
    {sep : K} (member : .separator sep ∈ tree.marks) :
    (∃ entry ∈ tree.entries, entry.1 < sep) ∧ ∃ entry ∈ tree.entries, sep ≤ entry.1 := by
  induction h generalizing least with
  | zero => simp [marks, Mark.ofEntries] at member
  | succ h ih =>
      have inside {child : Tree L K V h} (found : child ∈ tree.body.children)
          {entry : K × V} (held : entry ∈ child.entries) : entry ∈ tree.entries := by
        rw [entries_node]
        exact List.mem_flatMap.mpr ⟨child, found, held⟩
      have forked : tree.body.Forked := sized.forked
      rcases Mark.mem_interleave member with ⟨block, found, isMark⟩ | ⟨other, found, equal⟩
      · obtain ⟨child, childFound, rfl⟩ := List.mem_map.mp found
        have fenced := (Mark.ordered_interleave
          (by simpa [Internal.Forked] using forked)).mp ordered
        obtain ⟨⟨first, firstHeld, under⟩, last, lastHeld, upTo⟩ :=
          ih (sized.children child childFound) (fenced.ordered _ found) isMark
        exact ⟨⟨first, inside childFound firstHeld, under⟩, last,
          inside childFound lastHeld, upTo⟩
      · cases equal
        obtain ⟨i, sepAt⟩ := List.mem_iff_getElem?.mp found
        obtain ⟨hole, left, right, filled, -⟩ := Hole.exists_fillTwo forked sepAt
        obtain ⟨leftUnder, rightFrom⟩ := around_separator filled ordered
        have leftFound : left ∈ tree.body.children := by
          rw [filled]
          exact Hole.mem_fillTwo.mpr (.inl (.inl rfl))
        have rightFound : right ∈ tree.body.children := by
          rw [filled]
          exact Hole.mem_fillTwo.mpr (.inl (.inr rfl))
        obtain ⟨first, firstHeld⟩ := exists_entry positive (sized.children left leftFound)
        obtain ⟨last, lastHeld⟩ := exists_entry positive (sized.children right rightFound)
        exact ⟨⟨first, inside leftFound firstHeld, leftUnder first firstHeld⟩,
          last, inside rightFound lastHeld, rightFrom last lastHeld⟩

/-- Marks under a node are in order exactly when its separators separate the
entries.  The separators further down lie among the entries of their child. -/
theorem Internal.ordered_treeMarks {node : Internal K (Tree L K V h)}
    (positive : 1 ≤ minKeys) (forked : node.Forked)
    (children : ∀ child ∈ node.children, ∃ least,
      child.Sized order minKeys least ∧ Mark.Ordered child.marks) :
    Mark.Ordered node.treeMarks ↔ node.Separates := by
  rw [treeMarks, Mark.ordered_interleave (by simpa [Forked] using forked)]
  constructor
  · intro fenced
    refine ⟨fenced.ascending, ?_, ?_⟩
    · intro i j sep child sepAt childAt le entry held
      exact fenced.left i sep j child.marks sepAt (by simp [childAt]) le
        (.entry entry.1 entry.2) (Mark.mem_entries.mp held)
    · intro i j sep child sepAt childAt lt entry held
      exact fenced.right i sep j child.marks sepAt (by simp [childAt]) lt
        (.entry entry.1 entry.2) (Mark.mem_entries.mp held)
  · intro separates
    refine ⟨?_, separates.ascending, ?_, ?_⟩
    · intro block found
      obtain ⟨child, childFound, rfl⟩ := List.mem_map.mp found
      exact (children child childFound).choose_spec.2
    · intro i sep j block sepAt blockAt le mark member
      rw [List.getElem?_map, Option.map_eq_some_iff] at blockAt
      obtain ⟨child, childAt, rfl⟩ := blockAt
      have under := separates.left i j sep child sepAt childAt le
      cases mark with
      | entry key value => exact under (key, value) (Mark.mem_entries.mpr member)
      | separator other =>
          obtain ⟨least, sized, ordered⟩ := children child (List.mem_of_getElem? childAt)
          obtain ⟨-, entry, held, upTo⟩ :=
            Tree.around_separator_mark positive sized ordered member
          exact lt_of_le_of_lt upTo (under entry held)
    · intro i sep j block sepAt blockAt lt mark member
      rw [List.getElem?_map, Option.map_eq_some_iff] at blockAt
      obtain ⟨child, childAt, rfl⟩ := blockAt
      have upTo := separates.right i j sep child sepAt childAt lt
      cases mark with
      | entry key value => exact upTo (key, value) (Mark.mem_entries.mpr member)
      | separator other =>
          obtain ⟨least, sized, ordered⟩ := children child (List.mem_of_getElem? childAt)
          obtain ⟨⟨entry, held, under⟩, -⟩ :=
            Tree.around_separator_mark positive sized ordered member
          exact lt_of_le_of_lt (upTo entry held) under

/-- The invariant on entries is occupancy with marks in order. -/
theorem Tree.sound_iff {tree : Tree L K V h} (large : 3 ≤ order)
    (enough : least ≤ tree.keysLen) (most : tree.keysLen ≤ order - 1) :
    tree.Sound order ↔
      tree.Sized order (leastKeys order) least ∧ Mark.Ordered tree.marks := by
  have positive : 1 ≤ leastKeys order := leastKeys_pos large
  induction h generalizing least with
  | zero =>
      simp only [keysLen] at enough most
      exact ⟨fun ascending => ⟨⟨enough, by omega⟩, Mark.ordered_ofEntries.mpr ascending⟩,
        fun both => Mark.ordered_ofEntries.mp both.2⟩
  | succ h ih =>
      simp only [keysLen] at enough most
      constructor
      · rintro ⟨forked, separates, children⟩
        have read (child : Tree L K V h) (found : child ∈ tree.body.children) :
            child.Sized order (leastKeys order) (leastKeys order) ∧
              Mark.Ordered child.marks := by
          obtain ⟨sound, childEnough, childMost⟩ := children child found
          exact (ih childEnough childMost).mp sound
        refine ⟨⟨enough, by omega, forked, fun child found => (read child found).1⟩, ?_⟩
        exact (Internal.ordered_treeMarks positive forked
          fun child found => ⟨_, read child found⟩).mpr separates
      · rintro ⟨⟨-, -, forked, sized⟩, ordered⟩
        have fenced := (Mark.ordered_interleave
          (by simpa [Internal.Forked] using forked)).mp ordered
        have read (child : Tree L K V h) (found : child ∈ tree.body.children) :
            child.Sized order (leastKeys order) (leastKeys order) ∧
              Mark.Ordered child.marks :=
          ⟨sized child found, fenced.ordered _ (List.mem_map_of_mem found)⟩
        refine ⟨forked, (Internal.ordered_treeMarks positive forked
          fun child found => ⟨_, read child found⟩).mp ordered, fun child found => ?_⟩
        have counted := (sized child found).keysLen
        have childMost : child.keysLen ≤ order - 1 := by omega
        exact ⟨(ih counted.1 childMost).mpr (read child found), counted.1, childMost⟩

theorem Tree.legal_iff {tree : Tree L K V h} (large : 3 ≤ order) :
    tree.Legal order ↔
      tree.Sized order (leastKeys order) (leastKeys order) ∧ Mark.Ordered tree.marks := by
  constructor
  · exact fun legal => (sound_iff large legal.enough legal.most).mp legal.sound
  · intro both
    have counted := both.1.keysLen
    have most : tree.keysLen ≤ order - 1 := by omega
    exact ⟨(sound_iff large counted.1 most).mpr both, counted.1, most⟩

end Reading

section Keeping

variable {Id K V : Type} {h order minKeys least : Nat}

namespace Tree

variable {left right : Tree Id K V h} {sep : K}

theorem rotateRight_childIds (sized : left.Sized order minKeys least)
    (spare : 1 < left.keysLen) :
    (left.rotateRight sep right).1.childIds ++
        (left.rotateRight sep right).2.2.childIds =
      left.childIds ++ right.childIds := by
  cases h with
  | zero => rfl
  | succ h =>
      obtain ⟨keys, newSep, children, moved, bodyEq, -⟩ :=
        exists_last_child sized.forked (by omega)
      rw [rotateRight_node bodyEq]
      simp [childIds, bodyEq]

theorem rotateLeft_childIds (sized : right.Sized order minKeys least)
    (spare : 1 < right.keysLen) :
    (left.rotateLeft sep right).1.childIds ++
        (left.rotateLeft sep right).2.2.childIds =
      left.childIds ++ right.childIds := by
  cases h with
  | zero => rfl
  | succ h =>
      obtain ⟨newSep, keys, moved, children, bodyEq, -⟩ :=
        exists_first_child sized.forked (by omega)
      rw [rotateLeft_node bodyEq]
      simp [childIds, bodyEq]

theorem join_childIds :
    (left.join sep right).childIds = left.childIds ++ right.childIds := by
  cases h with
  | zero => rfl
  | succ h => simp [childIds, join]

end Tree

variable {wide hole : Hole K (Tree Id K V h)} {left right child : Tree Id K V h} {sep : K}
  {node repaired : Internal K (Tree Id K V h)}

theorem keeps_rotated {pair : Tree Id K V h × K × Tree Id K V h}
    (rotated : Tree.Rotated left right pair)
    (childIds : pair.1.childIds ++ pair.2.2.childIds = left.childIds ++ right.childIds) :
    Keeps (wide.fillTwo left sep right) (wide.fillTwo pair.1 pair.2.1 pair.2.2) where
  grandchildren_eq := by rw [Hole.gather_fillTwo, Hole.gather_fillTwo, childIds]
  below_eq := by rw [Hole.gather_fillTwo, Hole.gather_fillTwo, rotated.below]
  children_eq := by
    refine .inl ⟨by simp, ?_⟩
    simp [Hole.fillTwo, rotated.leftLabel, rotated.rightLabel]

theorem keeps_joined :
    Keeps (wide.fillTwo left sep right) (wide.fill (left.join sep right)) where
  grandchildren_eq := by
    rw [Hole.gather_fill, Hole.gather_fillTwo, Tree.join_childIds]
  below_eq := by rw [Hole.gather_fill, Hole.gather_fillTwo, Tree.join_below]
  children_eq := by
    refine .inr ⟨by simp, wide.index + 1, by simp [Hole.fillTwo, Hole.index], ?_⟩
    simp only [Hole.fill, Hole.fillTwo, List.map_append, List.map_cons, Tree.join_label]
    rw [List.eraseIdx_append_of_length_le (by simp [Hole.index])]
    simp [Hole.index]

/-- Every repair keeps the nodes under the children. -/
theorem Rebalanced.keeps {minKeys : Nat} (rebalanced : Rebalanced minKeys hole child repaired)
    (positive : 1 ≤ minKeys)
    (siblings : ∀ sibling ∈ hole.others, sibling.Sized order minKeys minKeys) :
    Keeps (hole.fill child) repaired := by
  cases rebalanced with
  | @fromLeft wide left sep place spare =>
      subst place
      have leftSized := siblings left (by simp)
      rw [Hole.pastLeft_fill]
      exact keeps_rotated (Tree.rotateRight_rotated leftSized (by omega))
        (Tree.rotateRight_childIds leftSized (by omega))
  | @fromRight wide sep right place spare _ =>
      subst place
      have rightSized := siblings right (by simp)
      rw [Hole.beforeRight_fill]
      exact keeps_rotated (Tree.rotateLeft_rotated rightSized (by omega))
        (Tree.rotateLeft_childIds rightSized (by omega))
  | @intoLeft wide left sep place _ _ =>
      rw [place, Hole.pastLeft_fill]
      exact keeps_joined
  | @intoRight wide sep right place _ _ =>
      rw [place, Hole.beforeRight_fill]
      exact keeps_joined

/-- The ids under a parent: its own, those of its children, and those below. -/
theorem names_node (parent : Id) (node : Internal K (Tree Id K V h)) :
    (Tree.cells (h := h + 1) ⟨parent, node⟩).names.Perm
      (parent :: (node.children.map Tree.label ++
        Cells.names (node.gather Tree.below))) := by
  have children : (node.children.map Tree.label ++
      node.children.flatMap fun child => Cells.names child.below).Perm
      (node.children.flatMap fun child => Cells.names child.cells) := by
    simp only [Tree.cells_eq, Cells.names_cons]
    exact List.map_append_flatMap_perm ..
  simp only [Tree.cells, Cells.names_cons]
  refine List.Perm.cons _ ?_
  simpa only [Cells.names, Internal.gather, List.map_flatMap] using children.symm

theorem Keeps.labels_subset (keeps : Keeps node repaired) :
    repaired.children.map Tree.label ⊆ node.children.map Tree.label := by
  rcases keeps.children_eq with ⟨-, same⟩ | ⟨-, i, -, fewer⟩
  · rw [same]
    exact fun _ member => member
  · rw [fewer]
    exact (List.eraseIdx_sublist _ _).subset

/-- A repair takes no ids, and drops those of dropped children. -/
theorem Keeps.names (keeps : Keeps node repaired) (parent : Id) :
    (Tree.cells (h := h + 1) ⟨parent, repaired⟩).names ⊆
      (Tree.cells (h := h + 1) ⟨parent, node⟩).names := by
  intro id member
  have before := names_node parent node
  have after := names_node parent repaired
  rw [keeps.below_eq] at after
  rw [before.mem_iff]
  rw [after.mem_iff] at member
  simp only [List.mem_cons, List.mem_append] at member ⊢
  exact member.imp_right (.imp_left fun found => keeps.labels_subset found)

theorem Keeps.dropped (keeps : Keeps node repaired) {parent id : Id}
    (nodup : (Tree.cells (h := h + 1) ⟨parent, node⟩).names.Nodup)
    (isChild : id ∈ node.children.map Tree.label)
    (dropped : id ∉ repaired.children.map Tree.label) :
    id ∉ (Tree.cells (h := h + 1) ⟨parent, repaired⟩).names := by
  have after := names_node parent repaired
  rw [keeps.below_eq] at after
  rw [(names_node parent node).nodup_iff, List.nodup_cons, List.nodup_append] at nodup
  obtain ⟨rootApart, -, -, belowApart⟩ := nodup
  rw [after.mem_iff, List.mem_cons, List.mem_append]
  rintro (rfl | isChild' | isBelow)
  · exact rootApart (List.mem_append_left _ isChild)
  · exact dropped isChild'
  · exact belowApart id isChild id isBelow rfl

/-- The siblings around a hole stand at other indices. -/
theorem Hole.exists_index (hole : Hole K (Tree Id K V h)) (child : Tree Id K V h)
    {sibling : Tree Id K V h} (member : sibling ∈ hole.others) :
    ∃ i, (hole.fill child).children[i]? = some sibling ∧ i ≠ hole.index := by
  rcases List.mem_append.mp member with onLeft | onRight
  · obtain ⟨i, bound, rfl⟩ := List.mem_iff_getElem.mp onLeft
    refine ⟨i, ?_, Nat.ne_of_lt bound⟩
    rw [fill, List.getElem?_append_left bound, List.getElem?_eq_getElem bound]
  · obtain ⟨i, bound, rfl⟩ := List.mem_iff_getElem.mp onRight
    refine ⟨hole.index + 1 + i, ?_, by omega⟩
    rw [fill, index, Nat.add_assoc, List.getElem?_append_right (Nat.le_add_right _ _),
      Nat.add_sub_cancel_left, Nat.add_comm, List.getElem?_cons_succ,
      List.getElem?_eq_getElem bound]

end Keeping

section Parents

variable {L K V : Type} {h order idx : Nat} [Preorder K]
  {node : Internal K (Tree L K V h)}

/-- An under-full parent has the poor child in a hole, with occupancy and order
around it. -/
theorem Underfull.exists_hole (underfull : Underfull order idx node) (large : 3 ≤ order) :
    ∃ (hole : Hole K (Tree L K V h)) (child : Tree L K V h),
      node = hole.fill child ∧ idx = hole.index ∧ 1 ≤ hole.keysLen ∧
      (∀ sibling ∈ hole.others,
        sibling.Sized order (leastKeys order) (leastKeys order)) ∧
      child.Sized order (leastKeys order) (leastKeys order - 1) ∧
      child.keysLen < leastKeys order ∧ Mark.Ordered node.treeMarks := by
  have positive : 1 ≤ leastKeys order := leastKeys_pos large
  obtain ⟨forked, several, separates, ⟨child, childAt, sound, poor⟩, others⟩ := underfull
  have inside : idx ≤ node.keys.length := by
    have bound := (List.getElem?_eq_some_iff.mp childAt).1
    rw [forked] at bound
    omega
  obtain ⟨hole, filler, rfl, rfl⟩ := Hole.exists_fill forked inside
  obtain rfl : filler = child := by simpa using childAt
  rw [forked, hole.fill_keys_length] at several
  have most : filler.keysLen ≤ order - 1 := by
    rw [poor, leastKeys]
    omega
  have childRead := (Tree.sound_iff large poor.ge most).mp sound
  have siblingRead : ∀ sibling ∈ hole.others,
      sibling.Sized order (leastKeys order) (leastKeys order) ∧
        Mark.Ordered sibling.marks := by
    intro sibling member
    obtain ⟨i, siblingAt, different⟩ := hole.exists_index filler member
    exact (Tree.legal_iff large).mp (others i sibling siblingAt different)
  refine ⟨hole, filler, rfl, rfl, by omega, fun sibling member => (siblingRead sibling member).1,
    childRead.1, by omega, ?_⟩
  have read : ∀ sibling ∈ (hole.fill filler).children, ∃ least,
      sibling.Sized order (leastKeys order) least ∧ Mark.Ordered sibling.marks := by
    intro sibling member
    rcases Hole.mem_fill.mp member with rfl | member
    · exact ⟨_, childRead⟩
    · exact ⟨_, siblingRead sibling member⟩
  exact (Internal.ordered_treeMarks positive forked read).mpr separates

/-- Legal children and separators are read off occupancy and order. -/
theorem Internal.legal_separates (large : 3 ≤ order) (forked : node.Forked)
    (sized : ∀ child ∈ node.children,
      child.Sized order (leastKeys order) (leastKeys order))
    (ordered : Mark.Ordered node.treeMarks) :
    (∀ child ∈ node.children, child.Legal order) ∧ node.Separates := by
  have fenced := (Mark.ordered_interleave (by simpa [Forked] using forked)).mp ordered
  have read (child : Tree L K V h) (member : child ∈ node.children) :
      child.Sized order (leastKeys order) (leastKeys order) ∧ Mark.Ordered child.marks :=
    ⟨sized child member, fenced.ordered _ (List.mem_map_of_mem member)⟩
  exact ⟨fun child member => (Tree.legal_iff large).mpr (read child member),
    (ordered_treeMarks (leastKeys_pos large) forked
      fun child member => ⟨_, read child member⟩).mp ordered⟩

end Parents

section Main

variable {S Id K V : Type} [NodeStore S Id K V] [LawfulNodeStore S] [Preorder K]
  {h order idx : Nat} {store : S} {parent : Id} {node : Internal K (Tree Id K V h)}

/-- Repairing an under-full child of any parent in a store makes all children
legal again and loses nothing. -/
theorem rebalance_mends (large : 3 ≤ order) (valid : Valid store)
    (owned : Owned (view store) (Tree.cells (h := h + 1) ⟨parent, node⟩))
    (underfull : Underfull order idx node) :
    ∃ next repaired, Ops.rebalance store parent idx (leastKeys order) = pure next ∧
      Mended order store next parent node repaired := by
  have positive : 1 ≤ leastKeys order := leastKeys_pos large
  have half : 2 * leastKeys order + 1 ≤ order := by
    rw [leastKeys]
    omega
  obtain ⟨hole, child, rfl, rfl, some, siblings, childSized, poor, ordered⟩ :=
    underfull.exists_hole large
  have rebalanced := Tree.rebalance_rebalanced (leastKeys order) hole child
    (Hole.several some)
  obtain ⟨next, called, change⟩ :=
    rebalance_refines rebalanced positive valid owned siblings
  generalize Tree.rebalance (leastKeys order) (hole.fill child) hole.index = repaired
    at rebalanced change
  have restructures := rebalanced.restructures positive siblings childSized poor
  have keeps := rebalanced.keeps positive siblings
  obtain ⟨sized, forked, -, -⟩ :=
    rebalanced.children_sized positive half siblings childSized poor
  have newOrdered : Mark.Ordered repaired.treeMarks := by
    simpa using restructures.ordered [] [] (by simpa using ordered)
  obtain ⟨legal, separates⟩ := Internal.legal_separates large forked sized newOrdered
  have entriesEq := restructures.entries_eq
  rw [Internal.entries_treeMarks, Internal.entries_treeMarks] at entriesEq
  refine ⟨next, repaired, called, change.valid, change.owned, forked, legal, separates,
    entriesEq, keeps, ?_, ?_⟩
  · intro id isChild dropped
    refine change.transforms.freed id ?_ (keeps.dropped owned.nodup isChild dropped)
    rw [(names_node parent _).mem_iff]
    exact List.mem_cons_of_mem _ (List.mem_append_left _ isChild)
  · exact fun id outside =>
      change.transforms.frame id outside fun inside => outside (keeps.names parent inside)

/-- A leaf without entries takes one over from its left sibling. -/
theorem rebalance_mends_leaf :
    let store : InMemoryStore Nat Nat :=
      ⟨[.leaf ⟨[1, 2], [10, 20]⟩, .leaf ⟨[], []⟩, .internal ⟨[3], [⟨0⟩, ⟨1⟩]⟩], []⟩
    let node : Internal Nat (Tree NodeId Nat Nat 0) :=
      ⟨[3], [⟨⟨0⟩, [(1, 10), (2, 20)]⟩, ⟨⟨1⟩, []⟩]⟩
    ∃ next repaired, Ops.rebalance store ⟨2⟩ 1 (leastKeys 3) = pure next ∧
      Mended 3 store next ⟨2⟩ node repaired := by
  intro store node
  have separates : node.Separates := by
    refine ⟨by simp [node], ?_, ?_⟩
    · rintro (_ | i) j sep child sepAt childAt le
      · obtain rfl := Nat.le_zero.mp le
        cases sepAt
        cases childAt
        decide
      · cases sepAt
    · rintro (_ | i) (_ | _ | j) sep child sepAt childAt lt
      · exact absurd lt (Nat.lt_irrefl 0)
      · cases sepAt
        cases childAt
        decide
      · cases childAt
      all_goals cases sepAt
  refine rebalance_mends (by decide) ⟨by decide, by decide, by decide⟩
    ⟨by decide, by decide⟩ ⟨rfl, by decide, separates, ⟨⟨⟨1⟩, []⟩, rfl, .nil, rfl⟩, ?_⟩
  rintro (_ | _ | i) child childAt different
  · cases childAt
    exact ⟨by simp [Tree.Sound, Ascending], by decide, by decide⟩
  · exact absurd rfl different
  · cases childAt

end Main

end IndexDb
