import IndexDb.TreeRemove
import Mathlib.Tactic.Ring
import Mathlib.Tactic.Linarith

/-!
# Search trees that keep the B+tree invariant

A search tree is a tree of some height whose nodes have legal occupancy and
whose marks are in order.  Insertion grows a level when the root splits, and
removal drops one when the root has a single child left.  Both refine the
operations on ascending entries.
-/

namespace IndexDb

/-- The least key count of a node other than the root. -/
def leastKeys (order : Nat) : Nat :=
  (order + 1) / 2 - 1

section Roots

variable {L K V : Type} {h : Nat}

/-- The tree that insertion leaves, one level higher after a split. -/
def Grown.root (fresh : L) : Grown (Tree L K V h) K V → Σ h, Tree L K V h
  | .replaced _ tree | .done tree => ⟨h, tree⟩
  | .split left sep right => ⟨h + 1, ⟨fresh, ⟨[sep], [left, right]⟩⟩⟩

/-- A root without separators gives way to its only child. -/
def Tree.collapse : {h : Nat} → Tree L K V h → Σ h, Tree L K V h
  | 0, tree => ⟨0, tree⟩
  | h + 1, tree =>
      match tree.body.children with
      | [only] => ⟨h, only⟩
      | _ => ⟨h + 1, tree⟩

theorem Grown.root_marks (fresh : L) (grown : Grown (Tree L K V h) K V) :
    (grown.root fresh).2.marks = grown.marks Tree.marks := by
  cases grown with
  | replaced old tree => rfl
  | done tree => rfl
  | split left sep right =>
      simp [root, marks, Tree.marks, Mark.interleave]

theorem Grown.root_size (fresh : L) (grown : Grown (Tree L K V h) K V) :
    (grown.root fresh).2.size =
      (grown.gather Tree.labels).length + grown.isSplit.toNat := by
  cases grown with
  | replaced old tree => rfl
  | done tree => rfl
  | split left sep right =>
      simp [root, gather, isSplit, Tree.size, Tree.labels, Internal.gather]

theorem Grown.Fits.root_sized {order minKeys : Nat} (large : 1 < order)
    {grown : Grown (Tree L K V h) K V}
    (fits : grown.Fits (Tree.Sized order minKeys (min h 1))
      (Tree.Sized order minKeys minKeys)) (fresh : L) :
    (grown.root fresh).2.Sized order minKeys
      (min (grown.root fresh).1 1) := by
  cases grown with
  | replaced old tree => exact fits
  | done tree => exact fits
  | split left sep right =>
      refine ⟨by simp [root], by simpa [root] using large,
        by simp [root, Internal.Forked], ?_⟩
      intro child member
      simp only [root, List.mem_cons, List.not_mem_nil, or_false] at member
      rcases member with rfl | rfl
      · exact fits.1
      · exact fits.2

theorem Grown.root_relabel {M : Type} (f : L → M) (fresh : L)
    (grown : Grown (Tree L K V h) K V) :
    (grown.map (Tree.relabel f)).root (f fresh) =
      ⟨(grown.root fresh).1, (grown.root fresh).2.relabel f⟩ := by
  cases grown <;> rfl

namespace Tree

theorem collapse_relabel {M : Type} (f : L → M) (tree : Tree L K V h) :
    (tree.relabel f).collapse = ⟨tree.collapse.1, tree.collapse.2.relabel f⟩ := by
  cases h with
  | zero => rfl
  | succ h =>
      obtain ⟨label, keys, children⟩ := tree
      rcases children with _ | ⟨only, _ | ⟨second, rest⟩⟩ <;> rfl

/-- A root is collapsed exactly when it has lost all its separators. -/
theorem collapse_cases {tree : Tree L K V (h + 1)} (forked : tree.body.Forked) :
    (∃ only, tree.body = ⟨[], [only]⟩ ∧ tree.collapse = ⟨h, only⟩) ∨
      1 ≤ tree.keysLen ∧ tree.body.children.length ≠ 1 ∧
        tree.collapse = ⟨h + 1, tree⟩ := by
  obtain ⟨label, keys, children⟩ := tree
  simp only [Internal.Forked] at forked
  rcases children with _ | ⟨only, _ | ⟨second, rest⟩⟩
  · simp at forked
  · have empty : keys = [] := by simpa using forked
    subst empty
    exact .inl ⟨only, rfl, rfl⟩
  · simp only [List.length_cons] at forked
    exact .inr ⟨by simp only [keysLen]; omega, by simp, rfl⟩

theorem collapse_marks {order minKeys least : Nat} {tree : Tree L K V h}
    (sized : tree.Sized order minKeys least) :
    tree.collapse.2.marks = tree.marks := by
  cases h with
  | zero => rfl
  | succ h =>
      rcases collapse_cases sized.forked with
        ⟨only, single, collapsed⟩ | ⟨-, -, collapsed⟩
      · rw [collapsed, marks_node, single, Internal.treeMarks_singleton]
      · rw [collapsed]

theorem collapse_sized {order minKeys : Nat} (positive : 1 ≤ minKeys)
    {tree : Tree L K V h} (sized : tree.Sized order minKeys 0) :
    tree.collapse.2.Sized order minKeys (min tree.collapse.1 1) := by
  cases h with
  | zero => exact sized
  | succ h =>
      rcases collapse_cases sized.forked with
        ⟨only, single, collapsed⟩ | ⟨several, -, collapsed⟩
      · have onlySized := sized.children only (by simp [single])
        have enough := onlySized.keysLen
        rw [collapsed]
        exact onlySized.mono (by omega)
      · rw [collapsed]
        exact sized.mono (by omega)

/-- Insertion into a whole tree: the displaced value and the new tree. -/
def insert [LT K] [DecidableLT K] (fresh : Nat → L) (order : Nat) (key : K)
    (value : V) (tree : Tree L K V h) : Option V × Σ h, Tree L K V h :=
  ((tree.insertInto fresh order key value).displaced,
    (tree.insertInto fresh order key value).root (fresh (h + 1)))

/-- Removal from a whole tree: the removed value and the new tree. -/
def remove [LT K] [DecidableLT K] (minKeys : Nat) (key : K)
    (tree : Tree L K V h) : Option V × Σ h, Tree L K V h :=
  let result := tree.removeFrom minKeys key
  (result.1, if result.1.isSome then result.2.collapse else ⟨h, result.2⟩)

section Relabel

variable [LT K] [DecidableLT K] {M : Type} (f : L → M)

theorem relabel_insert (fresh : Nat → L) (order : Nat) (key : K) (value : V)
    (tree : Tree L K V h) :
    (tree.relabel f).insert (fun j => f (fresh j)) order key value =
      ((tree.insert fresh order key value).1,
        ⟨(tree.insert fresh order key value).2.1,
          (tree.insert fresh order key value).2.2.relabel f⟩) := by
  simp only [insert, ← relabel_insertInto, Grown.root_relabel,
    Grown.map_displaced]

theorem relabel_remove (minKeys : Nat) (key : K) (tree : Tree L K V h) :
    (tree.relabel f).remove minKeys key =
      ((tree.remove minKeys key).1,
        ⟨(tree.remove minKeys key).2.1,
          (tree.remove minKeys key).2.2.relabel f⟩) := by
  simp only [remove, relabel_removeFrom]
  cases (tree.removeFrom minKeys key).1 with
  | none => rfl
  | some value =>
      exact congrArg (Prod.mk (some value))
        (collapse_relabel f (tree.removeFrom minKeys key).2)

end Relabel

section Remove

variable [Preorder K] [Std.IsLinearPreorder K] [DecidableLT K]
variable {order minKeys : Nat} (key : K) {tree : Tree L K V h}

theorem remove_sized (positive : 1 ≤ minKeys) (half : 2 * minKeys + 1 ≤ order)
    (sized : tree.Sized order minKeys (min h 1))
    (ordered : Mark.Ordered tree.marks) :
    (tree.remove minKeys key).2.2.Sized order minKeys
      (min (tree.remove minKeys key).2.1 1) := by
  have shrunk := removeFrom_sized key positive half sized ordered (Nat.le_refl _)
  simp only [remove]
  cases removed : (tree.removeFrom minKeys key).1 with
  | none =>
      rw [removeFrom_none removed]
      exact sized
  | some value =>
      exact collapse_sized positive (shrunk.mono (Nat.zero_le _))

theorem remove_marks (positive : 1 ≤ minKeys) (half : 2 * minKeys + 1 ≤ order)
    (sized : tree.Sized order minKeys (min h 1))
    (ordered : Mark.Ordered tree.marks) :
    (tree.remove minKeys key).2.2.marks =
      (tree.removeFrom minKeys key).2.marks := by
  have shrunk := removeFrom_sized key positive half sized ordered (Nat.le_refl _)
  simp only [remove]
  cases removed : (tree.removeFrom minKeys key).1 with
  | none => rfl
  | some value => exact collapse_marks shrunk

end Remove

end Tree

end Roots

section Counting

variable {L K V : Type} {h : Nat}

/-- A path from the root visits a different node on each level. -/
theorem Tree.height_lt_size {order minKeys least : Nat} {tree : Tree L K V h}
    (sized : tree.Sized order minKeys least) : h < tree.size := by
  induction h generalizing least with
  | zero => simp [size, labels]
  | succ h ih =>
      obtain ⟨hole, child, filled, -⟩ := Hole.exists_fill
        (Internal.Occupied.forked sized) (Nat.zero_le _)
      have childSize := ih (sized.child filled)
      rw [size_fill filled]
      omega

/-- Adding up the nodes of several trees with enough entries each. -/
theorem Tree.sizes_bound {k : Nat} {trees : List (Tree L K V h)}
    (bound : ∀ tree ∈ trees,
      k * k * tree.size + k ≤ (k + 1) * tree.entries.length) :
    k * k * (trees.flatMap labels).length + trees.length * k ≤
      (k + 1) * (trees.flatMap entries).length := by
  induction trees with
  | nil => simp
  | cons tree trees ih =>
      have first := bound tree (by simp)
      have rest := ih fun other member => bound other (by simp [member])
      simp only [size] at first
      simp only [List.flatMap_cons, List.length_append, List.length_cons]
      linarith [Nat.mul_add (k * k) tree.labels.length
        (trees.flatMap labels).length, Nat.mul_add (k + 1) tree.entries.length
        (trees.flatMap entries).length, Nat.add_mul trees.length 1 k]

/-- The nodes of a tree are few when every leaf has at least `k` entries and
every internal node more than `k` children. -/
theorem Tree.size_bound {order minKeys least k : Nat} {tree : Tree L K V h}
    (sized : tree.Sized order minKeys least) (few : k ≤ minKeys)
    (rootFew : k ≤ least) :
    k * k * tree.size + k ≤ (k + 1) * tree.entries.length := by
  induction h generalizing least with
  | zero =>
      have enough := Nat.mul_le_mul_left (k + 1) (rootFew.trans sized.1)
      rw [entries_leaf]
      simp only [size, labels, List.length_singleton]
      linarith [Nat.add_mul k 1 k]
  | succ h ih =>
      have children := sizes_bound fun child member =>
        ih (sized.children child member) few
      have forked : tree.body.children.length = tree.body.keys.length + 1 :=
        sized.forked
      have enough := sized.enough
      have many := Nat.mul_le_mul_right k
        (show k + 1 ≤ tree.body.children.length by omega)
      rw [entries_node]
      simp only [size, labels, List.length_cons, Internal.gather]
      linarith [Nat.mul_add (k * k) (tree.body.children.flatMap labels).length 1,
        Nat.add_mul k 1 k]

end Counting

theorem leastKeys_pos {order : Nat} (large : 3 ≤ order) :
    1 ≤ leastKeys order := by
  simp only [leastKeys]
  omega

theorem leastKeys_half {order : Nat} (large : 3 ≤ order) :
    2 * leastKeys order + 1 ≤ order := by
  simp only [leastKeys]
  omega

/-- A tree that keeps the B+tree invariant. -/
structure SearchTree (L K V : Type) [LE K] [LT K] (order : Nat) where
  height : Nat
  tree : Tree L K V height
  large : 3 ≤ order
  sized : tree.Sized order (leastKeys order) (min height 1)
  ordered : Mark.Ordered tree.marks

namespace SearchTree

section Views

variable {L M K V : Type} [LE K] [LT K] {order : Nat}

def entries (t : SearchTree L K V order) : List (K × V) :=
  t.tree.entries

def labels (t : SearchTree L K V order) : List L :=
  t.tree.labels

/-- The label of the root. -/
def root (t : SearchTree L K V order) : L :=
  t.tree.label

/-- The number of nodes. -/
def size (t : SearchTree L K V order) : Nat :=
  t.tree.size

/-- A root leaf without entries. -/
def empty (large : 3 ≤ order) (label : L) : SearchTree L K V order where
  height := 0
  tree := ⟨label, []⟩
  large := large
  sized := ⟨by simp, by simp only [List.length_nil]; omega⟩
  ordered := List.Pairwise.nil

def relabel (f : L → M) (t : SearchTree L K V order) : SearchTree M K V order where
  height := t.height
  tree := t.tree.relabel f
  large := t.large
  sized := (Tree.sized_relabel f).mpr t.sized
  ordered := by
    rw [Tree.relabel_marks]
    exact t.ordered

theorem ext_tree {first second : SearchTree L K V order}
    (equal : (⟨first.height, first.tree⟩ : Σ h, Tree L K V h) =
      ⟨second.height, second.tree⟩) : first = second := by
  obtain ⟨height, tree, large, sized, ordered⟩ := first
  cases equal
  rfl

/-- The tree without its labels. -/
def shape (t : SearchTree L K V order) : SearchTree Unit K V order :=
  t.relabel fun _ => ()

theorem ascending (t : SearchTree L K V order) : Ascending t.entries :=
  t.ordered.ascending

@[simp]
theorem relabel_entries (f : L → M) (t : SearchTree L K V order) :
    (t.relabel f).entries = t.entries := by
  simp [entries, relabel, Tree.entries]

theorem height_lt_size (t : SearchTree L K V order) : t.height < t.size :=
  Tree.height_lt_size t.sized

/-- Fewer than twice as many nodes as entries. -/
theorem size_le (t : SearchTree L K V order) :
    t.size ≤ max 1 (2 * t.entries.length - 1) := by
  obtain ⟨height, tree, large, sized, ordered⟩ := t
  cases height with
  | zero => simp [size, Tree.size, Tree.labels]
  | succ height =>
      have bound := Tree.size_bound sized (leastKeys_pos large) (by omega)
      simp only [size, entries]
      omega

/-- Nodes are few against entries when the order is large. -/
theorem size_le_of_leastKeys (t : SearchTree L K V order) (inner : 0 < t.height) :
    leastKeys order * leastKeys order * t.size + 2 * leastKeys order ≤
      leastKeys order * leastKeys order +
        (leastKeys order + 1) * t.entries.length := by
  obtain ⟨height, tree, large, sized, ordered⟩ := t
  cases height with
  | zero => simp at inner
  | succ height =>
      have children := Tree.sizes_bound fun child member =>
        Tree.size_bound (sized.children child member) (Nat.le_refl _)
          (Nat.le_refl _)
      have forked : tree.body.children.length = tree.body.keys.length + 1 :=
        sized.forked
      have enough := sized.enough
      have many := Nat.mul_le_mul_right (leastKeys order)
        (show 2 ≤ tree.body.children.length by omega)
      simp only [size, entries, Tree.entries_node, Tree.size, Tree.labels,
        List.length_cons, Internal.gather]
      linarith [Nat.mul_add (leastKeys order * leastKeys order)
        (tree.body.children.flatMap Tree.labels).length 1]

end Views

section Operations

variable {L M K V : Type} [Preorder K] [Std.IsLinearPreorder K] [DecidableLT K]
  {order : Nat}

/-- What insertion does to the marks of a search tree. -/
theorem insert_updates (fresh : Nat → L) (key : K) (value : V)
    (t : SearchTree L K V order) :
    Mark.Updates key (Entries.insert key value) [] [] t.tree.marks
      ((t.tree.insertInto fresh order key value).marks Tree.marks)
      (t.tree.insertInto fresh order key value).displaced := by
  have large := t.large
  exact Tree.insertInto_updates fresh key value (by omega) t.sized
    (by simpa using t.ordered) Mark.allBefore_nil Mark.allAfter_nil

/-- What removal does to the marks of a search tree. -/
theorem remove_updates (key : K) (t : SearchTree L K V order) :
    Mark.Updates key (Entries.erase key) [] [] t.tree.marks
      (t.tree.removeFrom (leastKeys order) key).2.marks
      (t.tree.removeFrom (leastKeys order) key).1 :=
  Tree.removeFrom_updates key (leastKeys_pos t.large) (leastKeys_half t.large)
    t.sized (Nat.le_refl _) (by simpa using t.ordered)

def insert (fresh : Nat → L) (key : K) (value : V) (t : SearchTree L K V order) :
    Option V × SearchTree L K V order :=
  let inserted := t.tree.insert fresh order key value
  (inserted.1,
    { height := inserted.2.1
      tree := inserted.2.2
      large := t.large
      sized := by
        have large := t.large
        have fits := Tree.insertInto_fits fresh key value (by omega)
          (leastKeys_half large) t.sized t.ordered
        exact fits.root_sized (by omega) _
      ordered := by
        simp only [inserted, Tree.insert, Grown.root_marks]
        simpa using (insert_updates fresh key value t).ordered })

def remove (key : K) (t : SearchTree L K V order) :
    Option V × SearchTree L K V order :=
  let removed := t.tree.remove (leastKeys order) key
  (removed.1,
    { height := removed.2.1
      tree := removed.2.2
      large := t.large
      sized := Tree.remove_sized key (leastKeys_pos t.large)
        (leastKeys_half t.large) t.sized t.ordered
      ordered := by
        rw [Tree.remove_marks key (leastKeys_pos t.large)
          (leastKeys_half t.large) t.sized t.ordered]
        simpa using (remove_updates key t).ordered })

variable (fresh : Nat → L) (key : K) (value : V) (t : SearchTree L K V order)

theorem insert_displaced :
    (t.insert fresh key value).1 = Entries.lookup key t.entries :=
  (insert_updates fresh key value t).found_eq

theorem insert_entries :
    (t.insert fresh key value).2.entries =
      Entries.insert key value t.entries := by
  simp only [insert, entries, Tree.entries, Tree.insert, Grown.root_marks]
  exact (insert_updates fresh key value t).entries_eq

theorem remove_removed : (t.remove key).1 = Entries.lookup key t.entries :=
  (remove_updates key t).found_eq

theorem remove_entries :
    (t.remove key).2.entries = Entries.erase key t.entries := by
  simp only [remove, entries, Tree.entries]
  rw [Tree.remove_marks key (leastKeys_pos t.large) (leastKeys_half t.large)
    t.sized t.ordered]
  exact (remove_updates key t).entries_eq

/-- The number of nodes that an insertion allocates. -/
def allocations : Nat :=
  t.tree.splits order key value +
    (t.tree.insertInto (fun _ => t.tree.label) order key value).isSplit.toNat

theorem insert_size :
    (t.insert fresh key value).2.size = t.size + t.allocations key value := by
  simp only [insert, size, Tree.insert, Grown.root_size, allocations]
  rw [Tree.insertInto_size fresh key value t.sized t.ordered,
    Tree.insertInto_isSplit fresh fun _ => t.tree.label]
  omega

theorem relabel_insert (f : L → M) :
    (t.relabel f).insert (fun j => f (fresh j)) key value =
      ((t.insert fresh key value).1, (t.insert fresh key value).2.relabel f) := by
  have equal := Tree.relabel_insert f fresh order key value t.tree
  have values := congrArg Prod.fst equal
  have trees := congrArg Prod.snd equal
  exact Prod.ext values (ext_tree trees)

theorem relabel_remove (f : L → M) :
    (t.relabel f).remove key = ((t.remove key).1, (t.remove key).2.relabel f) := by
  have equal := Tree.relabel_remove f (leastKeys order) key t.tree
  have values := congrArg Prod.fst equal
  have trees := congrArg Prod.snd equal
  exact Prod.ext values (ext_tree trees)

end Operations

end SearchTree

end IndexDb
