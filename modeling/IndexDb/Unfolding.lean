import IndexDb.StoredTree

/-!
# Reading a stored tree node by node

Reachability through `children` is stated on the store alone.  What it reaches
from the root of a stored tree are exactly the subtrees, so facts about a tree
become facts about the nodes of the store.
-/

namespace IndexDb

open LawfulNodeStore

section Reading

variable {S Id K V : Type} [NodeStore S Id K V]

/-- `child` stands in slot `i` of the internal node at `parent`. -/
def ChildSlot (store : S) (parent : Id) (i : Nat) (child : Id) : Prop :=
  ∃ node, NodeStore.get store parent = pure (.internal node) ∧
    node.children[i]? = some child

/-- A path of so many children leads from one id down to another. -/
inductive Below (store : S) : Nat → Id → Id → Prop
  | here (id : Id) : Below store 0 id id
  | under {depth i : Nat} {parent child id : Id}
      (slot : ChildSlot store parent i child) (rest : Below store depth child id) :
      Below store (depth + 1) parent id

/-- The id is met on some path down. -/
def Reaches (store : S) (root id : Id) : Prop :=
  ∃ depth, Below store depth root id

/-- A leaf under `root` holds the entry. -/
def Holds (store : S) (root : Id) (key : K) (value : V) : Prop :=
  ∃ (id : Id) (leaf : Leaf K V) (i : Nat), Reaches store root id ∧
    NodeStore.get store id = pure (.leaf leaf) ∧
    leaf.keys[i]? = some key ∧ leaf.vals[i]? = some value

end Reading

section Subtrees

variable {L K V : Type}

namespace Tree

/-- The tree and all trees in it, each node before the ones below it. -/
def subtrees : {h : Nat} → Tree L K V h → List (Σ k, Tree L K V k)
  | 0, tree => [⟨0, tree⟩]
  | h + 1, tree => ⟨h + 1, tree⟩ :: tree.body.gather subtrees

variable {h k : Nat} {tree : Tree L K V h}

theorem self_mem_subtrees (tree : Tree L K V h) : ⟨h, tree⟩ ∈ tree.subtrees := by
  cases h with
  | zero => exact List.mem_singleton_self _
  | succ h => exact List.mem_cons_self ..

theorem mem_subtrees_leaf {tree : Tree L K V 0} {sub : Σ k, Tree L K V k} :
    sub ∈ tree.subtrees ↔ sub = ⟨0, tree⟩ :=
  List.mem_singleton

theorem mem_subtrees_node {tree : Tree L K V (h + 1)} {sub : Σ k, Tree L K V k} :
    sub ∈ tree.subtrees ↔
      sub = ⟨h + 1, tree⟩ ∨ ∃ child ∈ tree.body.children, sub ∈ child.subtrees := by
  rw [subtrees, List.mem_cons, Internal.gather, List.mem_flatMap]

theorem child_mem_subtrees {tree : Tree L K V (h + 1)} {child : Tree L K V h}
    (member : child ∈ tree.body.children) : ⟨h, child⟩ ∈ tree.subtrees :=
  mem_subtrees_node.mpr (.inr ⟨child, member, self_mem_subtrees child⟩)

theorem subtrees_labels (tree : Tree L K V h) :
    tree.subtrees.map (fun sub => sub.2.label) = tree.labels := by
  induction h with
  | zero => rfl
  | succ h ih =>
      rw [subtrees, labels, List.map_cons, Internal.gather, List.map_flatMap,
        Internal.gather]
      simp only [ih]
      rfl

theorem subtrees_cells (tree : Tree L K V h) :
    tree.subtrees.map (fun sub => (sub.2.label, sub.2.node)) = tree.cells := by
  induction h with
  | zero => rfl
  | succ h ih =>
      rw [subtrees, cells, List.map_cons, Internal.gather, List.map_flatMap,
        Internal.gather]
      simp only [ih]
      rfl

theorem subtrees_trans {sub : Σ k, Tree L K V k} {inner : Σ k, Tree L K V k}
    (member : sub ∈ tree.subtrees) (inside : inner ∈ sub.2.subtrees) :
    inner ∈ tree.subtrees := by
  induction h with
  | zero =>
      rw [mem_subtrees_leaf] at member
      subst member
      exact inside
  | succ h ih =>
      rcases mem_subtrees_node.mp member with rfl | ⟨child, found, deeper⟩
      · exact inside
      · exact mem_subtrees_node.mpr (.inr ⟨child, found, ih deeper⟩)

theorem subtree_height_le {sub : Σ k, Tree L K V k}
    (member : sub ∈ tree.subtrees) : sub.1 ≤ h := by
  induction h with
  | zero => rw [mem_subtrees_leaf.mp member]
  | succ h ih =>
      rcases mem_subtrees_node.mp member with rfl | ⟨child, found, deeper⟩
      · exact Nat.le_refl _
      · exact Nat.le_succ_of_le (ih deeper)

theorem mem_labels {id : L} :
    id ∈ tree.labels ↔ ∃ sub ∈ tree.subtrees, sub.2.label = id := by
  rw [← subtrees_labels, List.mem_map]

theorem mem_entries {entry : K × V} :
    entry ∈ tree.entries ↔
      ∃ leaf : Tree L K V 0, ⟨0, leaf⟩ ∈ tree.subtrees ∧ entry ∈ leaf.body := by
  induction h with
  | zero =>
      rw [entries_leaf]
      constructor
      · exact fun member => ⟨tree, self_mem_subtrees tree, member⟩
      · rintro ⟨leaf, member, found⟩
        cases mem_subtrees_leaf.mp member
        exact found
  | succ h ih =>
      rw [entries_node, Internal.gather, List.mem_flatMap]
      constructor
      · rintro ⟨child, member, found⟩
        obtain ⟨leaf, inside, held⟩ := ih.mp found
        exact ⟨leaf, mem_subtrees_node.mpr (.inr ⟨child, member, inside⟩), held⟩
      · rintro ⟨leaf, member, held⟩
        rcases mem_subtrees_node.mp member with equal | ⟨child, found, inside⟩
        · cases equal
        · exact ⟨child, found, ih.mpr ⟨leaf, inside, held⟩⟩

section Legal

variable {order minKeys least : Nat}

/-- Every child of a forked node is in a hole. -/
theorem exists_hole {tree : Tree L K V (h + 1)} (forked : tree.body.Forked)
    {child : Tree L K V h} (member : child ∈ tree.body.children) :
    ∃ hole : Hole K (Tree L K V h), tree.body = hole.fill child := by
  obtain ⟨i, found⟩ := List.getElem?_of_mem member
  have inside := (List.getElem?_eq_some_iff.mp found).1
  unfold Internal.Forked at forked
  obtain ⟨hole, other, filled, place⟩ := Hole.exists_fill forked
    (show i ≤ tree.body.keys.length by omega)
  have same : other = child := by
    rw [filled, ← place, hole.fill_getElem?] at found
    exact Option.some.inj found
  exact ⟨hole, same ▸ filled⟩

theorem Sized.subtree (sized : tree.Sized order minKeys least)
    {sub : Σ k, Tree L K V k} (member : sub ∈ tree.subtrees) :
    sub = ⟨h, tree⟩ ∨ sub.2.Sized order minKeys minKeys := by
  induction h generalizing least with
  | zero => exact .inl (mem_subtrees_leaf.mp member)
  | succ h ih =>
      rcases mem_subtrees_node.mp member with equal | ⟨child, found, deeper⟩
      · exact .inl equal
      · have childSized := sized.children child found
        rcases ih childSized deeper with rfl | legal
        · exact .inr childSized
        · exact .inr legal

theorem ordered_subtree [LE K] [LT K] (sized : tree.Sized order minKeys least)
    (ordered : Mark.Ordered tree.marks) {sub : Σ k, Tree L K V k}
    (member : sub ∈ tree.subtrees) : Mark.Ordered sub.2.marks := by
  induction h generalizing least with
  | zero =>
      cases mem_subtrees_leaf.mp member
      exact ordered
  | succ h ih =>
      rcases mem_subtrees_node.mp member with rfl | ⟨child, found, deeper⟩
      · exact ordered
      · obtain ⟨hole, filled⟩ := exists_hole sized.forked found
        exact ih (sized.children child found) (ordered_child filled ordered) deeper

end Legal

end Tree

/-- Every subtree has legal occupancy, and only the root may be exempt from
the least key count. -/
theorem SearchTree.subtree_sized [LE K] [LT K] {order : Nat} (t : SearchTree L K V order)
    {sub : Σ k, Tree L K V k} (member : sub ∈ t.tree.subtrees) :
    ∃ least, sub.2.Sized order (leastKeys order) least ∧
      (sub.2.label ≠ t.root → least = leastKeys order) ∧ min sub.1 1 ≤ least := by
  rcases t.sized.subtree member with rfl | sized
  · exact ⟨_, t.sized, fun different => absurd rfl different, Nat.le_refl _⟩
  · exact ⟨_, sized, fun _ => rfl,
      (Nat.min_le_right _ _).trans (leastKeys_pos t.large)⟩

end Subtrees

section Stored

variable {S Id K V : Type} [NodeStore S Id K V] {store : S} {h : Nat}
  {tree : Tree Id K V h}

/-- Every node of the tree resolves to its contents. -/
def Stored (store : S) (tree : Tree Id K V h) : Prop :=
  ∀ sub ∈ tree.subtrees, NodeStore.get store sub.2.label = pure sub.2.node

theorem Stored.subtree (stored : Stored store tree) {sub : Σ k, Tree Id K V k}
    (member : sub ∈ tree.subtrees) : Stored store sub.2 :=
  fun _ inside => stored _ (Tree.subtrees_trans member inside)

theorem Stored.child {tree : Tree Id K V (h + 1)} {child : Tree Id K V h}
    (stored : Stored store tree) (member : child ∈ tree.body.children) :
    Stored store child :=
  stored.subtree (Tree.child_mem_subtrees member)

theorem stored_owned [LawfulNodeStore S] (valid : Valid store)
    (owned : Owned (view store) tree.cells) : Stored store tree := by
  intro sub member
  refine get_owned valid owned ?_
  rw [← Tree.subtrees_cells]
  exact List.mem_map_of_mem member

/-- The slots of a stored node are its children. -/
theorem childSlot_stored {tree : Tree Id K V (h + 1)} (stored : Stored store tree)
    {i : Nat} {id : Id} :
    ChildSlot store tree.label i id ↔
      ∃ child, tree.body.children[i]? = some child ∧ child.label = id := by
  have got : NodeStore.get store tree.label =
      pure (.internal (tree.body.map Tree.label)) :=
    stored _ (Tree.self_mem_subtrees tree)
  constructor
  · rintro ⟨node, again, found⟩
    rw [got, Traced.pure_inj] at again
    cases again
    simpa only [Internal.map, List.getElem?_map, Option.map_eq_some_iff] using found
  · rintro ⟨child, found, rfl⟩
    refine ⟨_, got, ?_⟩
    rw [Internal.map, List.getElem?_map, found]
    rfl

theorem not_childSlot_leaf {tree : Tree Id K V 0} (stored : Stored store tree)
    {i : Nat} {id : Id} : ¬ ChildSlot store tree.label i id := by
  rintro ⟨node, got, -⟩
  rw [stored _ (Tree.self_mem_subtrees tree), Traced.pure_inj] at got
  cases got

/-- What lies below the root of a stored tree are its subtrees, so many levels
down. -/
theorem below_stored (stored : Stored store tree) {depth : Nat} {id : Id} :
    Below store depth tree.label id ↔
      ∃ sub ∈ tree.subtrees, sub.1 + depth = h ∧ sub.2.label = id := by
  induction h generalizing depth with
  | zero =>
      constructor
      · intro path
        cases path with
        | here => exact ⟨_, Tree.self_mem_subtrees tree, rfl, rfl⟩
        | under slot rest => exact absurd slot (not_childSlot_leaf stored)
      · rintro ⟨sub, member, level, rfl⟩
        cases Tree.mem_subtrees_leaf.mp member
        obtain rfl : depth = 0 := by omega
        exact .here _
  | succ h ih =>
      constructor
      · intro path
        cases path with
        | here => exact ⟨_, Tree.self_mem_subtrees tree, rfl, rfl⟩
        | under slot rest =>
            obtain ⟨child, found, rfl⟩ := (childSlot_stored stored).mp slot
            have member := List.mem_of_getElem? found
            obtain ⟨sub, deeper, level, labelEq⟩ := (ih (stored.child member)).mp rest
            exact ⟨sub, Tree.mem_subtrees_node.mpr (.inr ⟨child, member, deeper⟩),
              by omega, labelEq⟩
      · rintro ⟨sub, member, level, rfl⟩
        rcases Tree.mem_subtrees_node.mp member with rfl | ⟨child, found, deeper⟩
        · obtain rfl : depth = 0 := Nat.add_eq_left.mp level
          exact .here _
        · obtain ⟨i, place⟩ := List.getElem?_of_mem found
          have lower := Tree.subtree_height_le deeper
          obtain ⟨depth, rfl⟩ : ∃ rest, depth = rest + 1 := ⟨depth - 1, by omega⟩
          exact .under ((childSlot_stored stored).mpr ⟨child, place, rfl⟩)
            ((ih (stored.child found)).mpr ⟨sub, deeper, by omega, rfl⟩)

theorem reaches_stored (stored : Stored store tree) {id : Id} :
    Reaches store tree.label id ↔ ∃ sub ∈ tree.subtrees, sub.2.label = id := by
  constructor
  · rintro ⟨depth, path⟩
    obtain ⟨sub, member, -, labelEq⟩ := (below_stored stored).mp path
    exact ⟨sub, member, labelEq⟩
  · rintro ⟨sub, member, labelEq⟩
    have lower := Tree.subtree_height_le member
    exact ⟨h - sub.1, (below_stored stored).mpr ⟨sub, member, by omega, labelEq⟩⟩

theorem ofEntries_getElem? {entries : List (K × V)} {i : Nat} {key : K} {value : V} :
    ((Leaf.ofEntries entries).keys[i]? = some key ∧
      (Leaf.ofEntries entries).vals[i]? = some value) ↔
      entries[i]? = some (key, value) := by
  simp only [Leaf.ofEntries, List.getElem?_map]
  cases entries[i]? with
  | none => simp
  | some entry => simp [Prod.ext_iff]

/-- The leaves under the root of a stored tree hold its entries. -/
theorem holds_stored (stored : Stored store tree) {key : K} {value : V} :
    Holds store tree.label key value ↔ (key, value) ∈ tree.entries := by
  rw [Tree.mem_entries]
  constructor
  · rintro ⟨id, leaf, i, reached, got, keyAt, valueAt⟩
    obtain ⟨⟨k, sub⟩, member, rfl⟩ := (reaches_stored stored).mp reached
    have again := stored _ member
    rw [got, Traced.pure_inj] at again
    cases k with
    | zero =>
        cases again
        exact ⟨sub, member, List.mem_of_getElem?
          (ofEntries_getElem?.mp ⟨keyAt, valueAt⟩)⟩
    | succ k => cases again
  · rintro ⟨leaf, member, held⟩
    obtain ⟨i, place⟩ := List.getElem?_of_mem held
    obtain ⟨keyAt, valueAt⟩ := ofEntries_getElem?.mpr place
    exact ⟨leaf.label, .ofEntries leaf.body, i,
      (reaches_stored stored).mpr ⟨_, member, rfl⟩, stored _ member, keyAt, valueAt⟩

end Stored

end IndexDb
