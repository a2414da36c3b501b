import IndexDb.Locality
import IndexDb.SlabPeak

/-!
# How far a removal merges

Removing a present key merges one pair of nodes for each node at the end of its
search path that has no key to spare, and neither have the siblings next to it.
The first node above that can give one up ends the merging.  A root left with
one child gives way to it.
-/

namespace IndexDb

open LawfulNodeStore

/-- The number of consecutive items at the end of the list with the property. -/
def trailing {α : Type} (p : α → Bool) (list : List α) : Nat :=
  (list.reverse.takeWhile p).length

theorem trailing_le {α : Type} (p : α → Bool) (list : List α) :
    trailing p list ≤ list.length := by
  have part := List.takeWhile_sublist (l := list.reverse) p
  simpa only [trailing, List.length_reverse] using part.length_le

/-- An item joins the last ones when all items after it are among them. -/
theorem trailing_cons {α : Type} (p : α → Bool) (item : α) (list : List α) :
    trailing p (item :: list) =
      if trailing p list = list.length ∧ p item then list.length + 1
      else trailing p list := by
  rw [trailing, List.reverse_cons, List.takeWhile_append, List.length_reverse]
  by_cases all : trailing p list = list.length
  · have whole := all
    rw [trailing] at whole
    rw [if_pos whole, all]
    by_cases good : p item <;> simp [good]
  · have part := all
    rw [trailing] at part
    rw [if_neg part, if_neg fun both => all both.1]
    rfl

section Definitions

variable {S Id L K V Child : Type}

/-- The child at `i` and the siblings next to it. -/
def Internal.around (node : Internal K Child) (i : Nat) : List Child :=
  (node.children.take (i + 2)).drop (i - 1)

variable [LT K] [DecidableLT K]

/-- What the nodes below the root on the search path could give up or borrow: for
each of them, its key count and those of the siblings next to it. -/
def Ops.crowds [NodeStore S Id K V] : Nat → S → Id → K → Run (List (List Nat))
  | 0, _, _, _ => Traced.fail .diverges
  | fuel + 1, store, id, key => do
      match ← NodeStore.get store id with
      | .leaf _ => pure []
      | .internal internal =>
          let i := internal.childIndex key
          let crowd ← (internal.around i).mapM fun sibling => do
            let node ← NodeStore.get store sibling
            pure node.keysLen
          let child ← Vec.get internal.children i
          let crowds ← crowds fuel store child key
          pure (crowd :: crowds)

def BPlusTree.crowds (tree : BPlusTree K V) (key : K) : Run (List (List Nat)) :=
  Ops.crowds tree.fuel tree.store tree.root key

def Tree.crowds (key : K) : {h : Nat} → Tree L K V h → List (List Nat)
  | 0, _ => []
  | _ + 1, tree =>
      (tree.body.around (tree.body.childIndex key)).map Tree.keysLen ::
        match tree.body.children[tree.body.childIndex key]? with
        | none => []
        | some child => crowds key child

/-- None of the nodes has a key to spare. -/
def allPoor (minKeys : Nat) (crowd : List Nat) : Bool :=
  crowd.all (· ≤ minKeys)

end Definitions

section Around

variable {L K V Child : Type} {h minKeys : Nat}

theorem Internal.around_map {Other : Type} (f : Child → Other) (node : Internal K Child)
    (i : Nat) : (node.map f).around i = (node.around i).map f := by
  rw [around, around, map, List.map_drop, List.map_take]

theorem Internal.around_subset (node : Internal K Child) (i : Nat) :
    node.around i ⊆ node.children := fun _ member =>
  List.mem_of_mem_take (List.mem_of_mem_drop member)

theorem Hole.around_fill (hole : Hole K Child) (child : Child) :
    (hole.fill child).around hole.index =
      hole.leftChildren.getLast?.toList ++ child :: hole.rightChildren.head?.toList := by
  rw [Internal.around, fill, index]
  rcases List.eq_nil_or_concat' hole.leftChildren with empty | ⟨front, left, split⟩
  · rw [empty]
    cases hole.rightChildren <;> simp
  · have before : (front ++ [left]).take (front.length + 3) = front ++ [left] :=
      List.take_of_length_le (by simp)
    rw [split, List.getLast?_concat, List.take_append, List.drop_append]
    cases hole.rightChildren <;> simp [before]

/-- The siblings next to the open place have no key to spare. -/
def Hole.Crowded (minKeys : Nat) (hole : Hole K (Tree L K V h)) : Prop :=
  (∀ other left sep, hole = Hole.pastLeft other left sep → left.keysLen ≤ minKeys) ∧
    ∀ other sep right, hole = Hole.beforeRight other sep right → right.keysLen ≤ minKeys

theorem Hole.allPoor_around (hole : Hole K (Tree L K V h)) (child : Tree L K V h) :
    allPoor minKeys (((hole.fill child).around hole.index).map Tree.keysLen) = true ↔
      child.keysLen ≤ minKeys ∧ hole.Crowded minKeys := by
  rw [hole.around_fill, allPoor]
  simp only [List.map_append, List.map_cons, List.all_append, List.all_cons, List.all_map,
    Bool.and_eq_true, decide_eq_true_eq, List.all_eq_true, Option.mem_toList,
    Function.comp_apply]
  constructor
  · rintro ⟨onLeft, poor, onRight⟩
    refine ⟨poor, ?_, ?_⟩
    · rintro other left sep rfl
      exact onLeft left (by simp)
    · rintro other sep right rfl
      exact onRight right (by simp)
  · rintro ⟨poor, onLeft, onRight⟩
    refine ⟨fun left found => ?_, poor, fun right found => ?_⟩
    · have positive : 0 < hole.index := by
        rw [index]
        exact List.length_pos_of_mem (List.mem_of_getLast? found)
      obtain ⟨wide, other, sep, rfl⟩ := exists_left positive
      rw [pastLeft_getLast?, Option.some.injEq] at found
      exact found ▸ onLeft wide other sep rfl
    · have more : hole.rightChildren ≠ [] := List.ne_nil_of_mem (List.mem_of_head? found)
      obtain ⟨wide, sep, other, rfl⟩ := exists_right more
      rw [beforeRight_head?, Option.some.injEq] at found
      exact found ▸ onRight wide sep other rfl

end Around

section Repairs

variable {Id K V : Type} {h order minKeys least : Nat}

theorem Tree.size_eq_cells (tree : Tree Id K V h) : tree.size = tree.cells.length := by
  rw [size, ← cells_names, Cells.names, List.length_map]

/-- Two siblings have as many nodes as what is below them, and themselves. -/
theorem Tree.size_fillTwo (parent : Id) (wide : Hole K (Tree Id K V h))
    (left : Tree Id K V h) (sep : K) (right : Tree Id K V h) :
    size (h := h + 1) ⟨parent, wide.fillTwo left sep right⟩ =
      (left.below ++ right.below).length + 3 +
        (wide.leftChildren.flatMap cells ++ wide.rightChildren.flatMap cells).length := by
  rw [size_eq_cells, (cells_fillTwo parent wide left sep right).length_eq]
  simp only [siblingCells, List.length_append, List.length_cons, List.length_nil]
  omega

theorem Tree.size_fill_below (parent : Id) (wide : Hole K (Tree Id K V h))
    (child : Tree Id K V h) :
    size (h := h + 1) ⟨parent, wide.fill child⟩ =
      child.below.length + 2 +
        (wide.leftChildren.flatMap cells ++ wide.rightChildren.flatMap cells).length := by
  rw [size_eq_cells, (IndexDb.cells_fill parent wide child).length_eq]
  simp only [List.length_append, List.length_cons, List.length_nil]
  omega

/-- Repairing a child costs its parent one key and one node when no sibling next
to it has a key to spare, and nothing otherwise. -/
theorem Rebalanced.counts {hole : Hole K (Tree Id K V h)} {child : Tree Id K V h}
    {result : Internal K (Tree Id K V h)} (parent : Id)
    (rebalanced : Rebalanced minKeys hole child result) (positive : 1 ≤ minKeys)
    (siblings : ∀ sibling ∈ hole.others, sibling.Sized order minKeys minKeys) :
    hole.Crowded minKeys ∧ result.keys.length + 1 = hole.keysLen ∧
        Tree.size (h := h + 1) ⟨parent, result⟩ + 1 =
          Tree.size (h := h + 1) ⟨parent, hole.fill child⟩ ∨
      ¬ hole.Crowded minKeys ∧ result.keys.length = hole.keysLen ∧
        Tree.size (h := h + 1) ⟨parent, result⟩ =
          Tree.size (h := h + 1) ⟨parent, hole.fill child⟩ := by
  cases rebalanced with
  | @fromLeft wide left sep place spare =>
      subst place
      have rotated : Tree.Rotated left child (left.rotateRight sep child) :=
        Tree.rotateRight_rotated (siblings left (by simp)) (by omega)
      refine .inr ⟨fun crowded => ?_, by simp, ?_⟩
      · have poor := crowded.1 wide left sep rfl
        omega
      · rw [Hole.pastLeft_fill, Tree.size_fillTwo, Tree.size_fillTwo, rotated.below]
  | @fromRight wide sep right place spare _ =>
      subst place
      have rotated : Tree.Rotated child right (child.rotateLeft sep right) :=
        Tree.rotateLeft_rotated (siblings right (by simp)) (by omega)
      refine .inr ⟨fun crowded => ?_, by simp, ?_⟩
      · have poor := crowded.2 wide sep right rfl
        omega
      · rw [Hole.beforeRight_fill, Tree.size_fillTwo, Tree.size_fillTwo, rotated.below]
  | @intoLeft wide left sep place poor poorRight =>
      subst place
      refine .inl ⟨⟨?_, poorRight⟩, by simp, ?_⟩
      · rintro other neighbour otherSep equal
        rwa [← Hole.pastLeft_inj equal]
      · rw [Hole.pastLeft_fill, Tree.size_fillTwo, Tree.size_fill_below, Tree.join_below]
        omega
  | @intoRight wide sep right place first poor =>
      subst place
      refine .inl ⟨⟨?_, ?_⟩, by simp, ?_⟩
      · rintro other left otherSep equal
        rw [equal, Hole.pastLeft_index] at first
        omega
      · rintro other otherSep neighbour equal
        rwa [← Hole.beforeRight_inj equal]
      · rw [Hole.beforeRight_fill, Tree.size_fillTwo, Tree.size_fill_below, Tree.join_below]
        omega

theorem Tree.crowds_fill [LT K] [DecidableLT K] {key : K} {tree : Tree Id K V (h + 1)}
    {hole : Hole K (Tree Id K V h)} {child : Tree Id K V h} (filled : tree.body = hole.fill child)
    (indexEq : tree.body.childIndex key = hole.index) :
    tree.crowds key =
      ((hole.fill child).around hole.index).map keysLen :: child.crowds key := by
  rw [crowds, indexEq, filled, hole.fill_getElem?]

variable [Preorder K] [Std.IsLinearPreorder K] [DecidableLT K]

namespace Tree

/-- Each node below the root on the search path has a crowd. -/
theorem crowds_length (key : K) {tree : Tree Id K V h}
    (sized : tree.Sized order minKeys least) (ordered : Mark.Ordered tree.marks) :
    (tree.crowds key).length = h := by
  induction h generalizing least with
  | zero => rfl
  | succ h ih =>
      obtain ⟨hole, child, filled, indexEq, -⟩ :=
        route (Internal.Occupied.forked sized) ordered key
      rw [crowds_fill filled indexEq, List.length_cons,
        ih (sized.child filled) (ordered_child filled ordered)]

/-- A removal takes one node away for each crowded node at the end of the path, and
one key from the root when all nodes below it are crowded. -/
theorem removeFrom_merges (key : K) (positive : 1 ≤ minKeys) {tree : Tree Id K V h}
    (sized : tree.Sized order minKeys least) (ordered : Mark.Ordered tree.marks)
    (inner : min h 1 ≤ least) (present : (tree.removeFrom minKeys key).1.isSome) :
    (tree.removeFrom minKeys key).2.size + trailing (allPoor minKeys) (tree.crowds key) =
        tree.size ∧
      (tree.removeFrom minKeys key).2.keysLen +
        (if trailing (allPoor minKeys) (tree.crowds key) = h then 1 else 0) =
          tree.keysLen := by
  induction h generalizing least with
  | zero =>
      have ascending : Ascending tree.body := Mark.ordered_ofEntries.mp ordered
      have shrinkage := removeEntries_shrinkage key ascending
      refine ⟨rfl, ?_⟩
      simp only [removeFrom] at present ⊢
      generalize removeEntries key tree.body = result at shrinkage present
      cases shrinkage with
      | removed split below same above =>
          simp only [keysLen, split, List.length_append, List.length_cons]
          rfl
      | missing split below above => cases present
  | succ h ih =>
      obtain ⟨hole, child, filled, indexEq, -⟩ :=
        route (Internal.Occupied.forked sized) ordered key
      have childSized := sized.child filled
      have childOrdered := ordered_child filled ordered
      obtain ⟨enough, -, siblings⟩ := sized.around filled
      have childEnough := childSized.keysLen.1
      have childPresent : (child.removeFrom minKeys key).1.isSome := by
        rwa [removeFrom_fill minKeys key filled indexEq] at present
      obtain ⟨sizeEq, keysEq⟩ := ih childSized childOrdered (by omega) childPresent
      have crowded : allPoor minKeys (((hole.fill child).around hole.index).map keysLen) ↔
          child.keysLen ≤ minKeys ∧ hole.Crowded minKeys := hole.allPoor_around child
      have refilled : size (h := h + 1)
          ⟨tree.label, hole.fill (child.removeFrom minKeys key).2⟩ +
            trailing (allPoor minKeys) (child.crowds key) = tree.size := by
        rw [size_fill filled, size_fill rfl]
        omega
      have totalEq := trailing_cons (allPoor minKeys)
        (((hole.fill child).around hole.index).map keysLen) (child.crowds key)
      have most := trailing_le (allPoor minKeys) (child.crowds key)
      rw [crowds_length key childSized childOrdered] at totalEq most
      have rootKeys : tree.keysLen = hole.keysLen := by
        rw [keysLen, filled, hole.fill_keys_length]
      rw [removeFrom_fill minKeys key filled indexEq, crowds_fill filled indexEq, rootKeys]
      by_cases under : (child.removeFrom minKeys key).2.keysLen < minKeys
      · -- The child had no key to spare, and lost one.
        have all : trailing (allPoor minKeys) (child.crowds key) = h := by
          by_contra some
          rw [if_neg some] at keysEq
          omega
        rw [if_pos all] at keysEq
        have repaired := rebalance_rebalanced minKeys hole
          (child.removeFrom minKeys key).2 (Hole.several (by omega))
        rw [if_pos ⟨childPresent, under⟩]
        rcases repaired.counts tree.label positive siblings with
          ⟨poor, fewer, smaller⟩ | ⟨spare, same, sameSize⟩
        · rw [if_pos ⟨all, crowded.mpr ⟨by omega, poor⟩⟩] at totalEq
          rw [all, ← smaller, Nat.add_assoc, Nat.add_comm 1 h] at refilled
          rw [totalEq, if_pos rfl]
          exact ⟨refilled, fewer⟩
        · rw [if_neg fun both => spare (crowded.mp both.2).2] at totalEq
          rw [totalEq, if_neg (by omega)]
          exact ⟨sameSize ▸ refilled, same⟩
      · rw [if_neg fun both => under both.2]
        have stops : trailing (allPoor minKeys) (child.crowds key) = h →
            minKeys < child.keysLen := by
          intro all
          rw [if_pos all] at keysEq
          omega
        rw [if_neg fun both => absurd (stops both.1) (Nat.not_lt.mpr (crowded.mp both.2).1)]
          at totalEq
        rw [totalEq, if_neg (by omega)]
        exact ⟨refilled, hole.fill_keys_length _⟩

end Tree

theorem mapM_pure {α β γ : Type} {items : List α} {name : α → β} {read : β → Run γ}
    {value : α → γ} (reads : ∀ item ∈ items, read (name item) = pure (value item)) :
    (items.map name).mapM read = pure (items.map value) := by
  induction items with
  | nil => rfl
  | cons item items ih =>
      obtain ⟨first, rest⟩ := List.forall_mem_cons.mp reads
      rw [List.map_cons, List.mapM_cons, first, pure_bind, ih rest, pure_bind, List.map_cons]

/-- The crowds read from the store are those of the tree. -/
theorem crowds_stored {S : Type} [NodeStore S Id K V] {store : S} {tree : Tree Id K V h}
    (stored : Stored store tree) (sized : tree.Sized order minKeys least)
    (ordered : Mark.Ordered tree.marks) (key : K) {fuel : Nat} (enough : h < fuel) :
    Ops.crowds fuel store tree.label key = pure (tree.crowds key) := by
  induction h generalizing fuel least with
  | zero =>
      obtain ⟨fuel, rfl⟩ : ∃ rest, fuel = rest + 1 := ⟨fuel - 1, by omega⟩
      rw [Ops.crowds, stored _ (Tree.self_mem_subtrees tree), pure_bind]
      rfl
  | succ h ih =>
      obtain ⟨fuel, rfl⟩ : ∃ rest, fuel = rest + 1 := ⟨fuel - 1, by omega⟩
      obtain ⟨hole, child, filled, indexEq, -⟩ :=
        Tree.route (Internal.Occupied.forked sized) ordered key
      have below : Ops.crowds fuel store child.label key = pure (child.crowds key) :=
        ih (stored.child (Hole.mem_of_fill filled)) (sized.child filled)
          (Tree.ordered_child filled ordered) (by omega)
      have crowd : ((tree.body.map Tree.label).around hole.index).mapM (fun sibling => do
          let node ← NodeStore.get store sibling
          pure node.keysLen) =
            (pure ((tree.body.around hole.index).map Tree.keysLen) : Run _) := by
        rw [Internal.around_map]
        refine mapM_pure fun sibling member => ?_
        have read := (stored.child (tree.body.around_subset _ member)) _
          (Tree.self_mem_subtrees sibling)
        rw [read, pure_bind, Tree.node_keysLen]
      rw [Ops.crowds, stored _ (Tree.self_mem_subtrees tree), pure_bind]
      simp only [Tree.node]
      rw [Tree.child_returned filled indexEq]
      rw [show (tree.body.map Tree.label).childIndex key = hole.index from indexEq, crowd,
        pure_bind, pure_bind, below, pure_bind, Tree.crowds_fill filled indexEq, filled]

end Repairs

/-- The merging reaches a root with one key, which is then left with one child. -/
def rootGives (h d rootKeys : Nat) : Prop :=
  0 < d ∧ d + 1 = h ∧ rootKeys = 1

instance (h d rootKeys : Nat) : Decidable (rootGives h d rootKeys) :=
  inferInstanceAs (Decidable (_ ∧ _))

namespace BPlusTree

/-- What a removal of a present key does to the nodes when the last `d` of the `h`
nodes on its search path are crowded and the one above them is not. -/
structure MergesAlong (tree next : BPlusTree K V) (h d rootKeys : Nat) : Prop where
  count : next.nodeCount + d + (if rootGives h d rootKeys then 1 else 0) = tree.nodeCount
  freed : next.store.free.length =
    tree.store.free.length + d + (if rootGives h d rootKeys then 1 else 0)
  slab : next.store.slab.length = tree.store.slab.length
  height : next.height = pure (if rootGives h d rootKeys then h - 1 else h)
  root : next.root ≠ tree.root ↔ rootGives h d rootKeys

section Represented

variable {K V : Type} [Preorder K] [Std.IsLinearPreorder K] [DecidableLT K] {order : Nat}
  {tree : BPlusTree K V} {t : SearchTree NodeId K V order} {key : K}

/-- A removal keeps the root and the height, unless the root gives way. -/
theorem remove_rootGives (t : SearchTree NodeId K V order) (key : K)
    (present : (t.tree.removeFrom (leastKeys order) key).1.isSome) {d : Nat}
    (dEq : d = trailing (allPoor (leastKeys order)) (t.tree.crowds key)) :
    if rootGives (t.height + 1) d t.tree.keysLen then
      (t.remove key).2.height + 1 = t.height ∧ (t.remove key).2.size + d + 1 = t.size
    else
      (t.remove key).2.height = t.height ∧ (t.remove key).2.size + d = t.size := by
  have positive := leastKeys_pos t.large
  obtain ⟨sizeEq, keysEq⟩ := Tree.removeFrom_merges key positive t.sized t.ordered
    (Nat.le_refl _) present
  rw [← dEq] at sizeEq keysEq
  have enough := t.sized.keysLen.1
  have few := trailing_le (allPoor (leastKeys order)) (t.tree.crowds key)
  rw [Tree.crowds_length key t.sized t.ordered, ← dEq] at few
  rw [Tree.size_eq_cells] at sizeEq
  rcases remove_outcome t key present with ⟨sameHeight, -, same⟩ | ⟨none, lower, cellsEq⟩
  · have newEnough := (t.remove key).2.sized.keysLen.1
    have stays : ¬ rootGives (t.height + 1) d t.tree.keysLen := by
      rintro ⟨some, all, one⟩
      have roots := same
      rw [SearchTree.cells, Tree.cells_eq, Tree.cells_eq] at roots
      have nodes := congrArg (fun cell => cell.2.keysLen) (List.cons.inj roots).1
      rw [Tree.node_keysLen, Tree.node_keysLen] at nodes
      rw [if_pos (Nat.succ.inj all)] at keysEq
      omega
    rw [if_neg stays]
    refine ⟨sameHeight, ?_⟩
    rw [← same] at sizeEq
    rw [SearchTree.size, Tree.size_eq_cells]
    exact sizeEq
  · have gives : rootGives (t.height + 1) d t.tree.keysLen := by
      rw [none] at keysEq
      split_ifs at keysEq with all
      · exact ⟨by omega, by omega, keysEq.symm⟩
      · omega
    rw [if_pos gives]
    refine ⟨lower, ?_⟩
    rw [cellsEq, List.length_cons] at sizeEq
    rw [SearchTree.size, Tree.size_eq_cells, Nat.add_right_comm]
    exact sizeEq

/-- A removal of a present key merges what its crowds say. -/
theorem Represents.remove_mergesAlong (represents : tree.Represents t) {value : V}
    (present : tree.get key = pure (some value)) :
    ∃ next, tree.remove key = pure (some value, next) ∧
      tree.MergesAlong next (t.height + 1)
        (trailing (allPoor (leastKeys order)) (t.tree.crowds key)) t.tree.keysLen := by
  obtain ⟨next, removed, newRepresents, path⟩ := represents.remove key
  obtain ⟨store, -, change⟩ := removeFrom_refines (leastKeys_pos t.large) represents.valid
    represents.owned t.sized t.ordered (Nat.le_refl _) key represents.enough_fuel
  have valueEq : (t.tree.removeFrom (leastKeys order) key).1 = some value := by
    rw [represents.get, Traced.pure_inj] at present
    exact (t.remove_removed key).trans present
  have isSome : (t.tree.removeFrom (leastKeys order) key).1.isSome := by
    rw [valueEq]
    rfl
  have outcome := remove_rootGives t key isSome rfl
  have roots := remove_height t isSome change.owned.nodup
  have slabEq : next.store.slab.length = tree.store.slab.length :=
    InMemoryStore.shrink_path path
  have slots := represents.slab_length
  have newSlots := newRepresents.slab_length
  have removedEq : tree.remove key = pure (some value, next) := by
    rw [removed]
    exact congrArg (fun reply => pure (reply, next)) valueEq
  refine ⟨next, removedEq, ?_⟩
  generalize trailing (allPoor (leastKeys order)) (t.tree.crowds key) = d at outcome ⊢
  by_cases gives : rootGives (t.height + 1) d t.tree.keysLen
  · rw [if_pos gives] at outcome
    obtain ⟨lower, fewer⟩ := outcome
    refine ⟨?_, ?_, slabEq, ?_, ?_⟩
    · rw [if_pos gives, newRepresents.nodeCount, represents.nodeCount, fewer]
    · rw [if_pos gives]
      omega
    · rw [if_pos gives, newRepresents.height, Nat.add_comm, lower, Nat.add_sub_cancel]
    · rw [newRepresents.root_eq, represents.root_eq]
      exact iff_of_true (roots.resolve_left fun same => by omega).1 gives
  · rw [if_neg gives] at outcome
    obtain ⟨sameHeight, fewer⟩ := outcome
    refine ⟨?_, ?_, slabEq, ?_, ?_⟩
    · rw [if_neg gives, newRepresents.nodeCount, represents.nodeCount, fewer, Nat.add_zero]
    · rw [if_neg gives]
      omega
    · rw [if_neg gives, newRepresents.height, sameHeight, Nat.add_comm]
    · rw [newRepresents.root_eq, represents.root_eq]
      exact iff_of_false (not_not.mpr (roots.resolve_right fun lower => by omega).1) gives

end Represented

end BPlusTree

section Main

variable {K V : Type} [Preorder K] [Std.IsLinearPreorder K] [DecidableLT K]

/-- In every reachable tree, removing a present key merges one pair of nodes for each
crowded node at the end of its search path, and frees as many slots. -/
theorem run_remove_merges (order : Nat) (start : Start K V) (calls : List (Call K V))
    (key : K) (isExact : (start.run order calls).Exact) :
    ∃ replies tree minKeys crowds h root, start.run order calls = pure (replies, tree) ∧
      tree.minKeys = pure minKeys ∧ tree.crowds key = pure crowds ∧
      tree.height = pure h ∧ tree.HasNode tree.root root ∧
      ∀ value, tree.get key = pure (some value) →
        ∃ next, tree.remove key = pure (some value, next) ∧
          tree.MergesAlong next h (trailing (allPoor minKeys) crowds) root.keysLen := by
  obtain ⟨tree, t, returned, represents, -⟩ := start.run_represents calls isExact
  refine ⟨_, tree, _, t.tree.crowds key, t.height + 1, t.tree.node, returned,
    represents.minKeys, ?_, ?_, ?_, fun value present => ?_⟩
  · rw [BPlusTree.crowds, represents.root_eq]
    exact crowds_stored represents.stored t.sized t.ordered key represents.enough_fuel
  · rw [represents.height, Nat.add_comm]
  · exact represents.hasNode.mpr
      ⟨_, Tree.self_mem_subtrees t.tree, represents.root_eq.symm, rfl⟩
  · rw [Tree.node_keysLen]
    exact represents.remove_mergesAlong present

/-- Two leaves merge, then their parents, and the root goes. -/
theorem run_remove_merges_small :
    ∃ replies tree minKeys crowds h root next,
      (Start.fromSorted [(1, 10), (2, 20), (3, 30), (4, 40), (5, 50), (6, 60), (7, 70),
        (8, 80)]).run 3 [.remove 2, .remove 4, .remove 6, .remove 8] =
          pure (replies, tree) ∧
      tree.minKeys = pure minKeys ∧ tree.crowds 1 = pure crowds ∧
      tree.height = pure h ∧ tree.HasNode tree.root root ∧
      tree.remove 1 = pure (some 10, next) ∧
      tree.MergesAlong next h (trailing (allPoor minKeys) crowds) root.keysLen := by
  obtain ⟨replies, tree, minKeys, crowds, h, root, returned, least, crowded, heightEq,
      hasRoot, merges⟩ :=
    run_remove_merges 3
      (.fromSorted [(1, 10), (2, 20), (3, 30), (4, 40), (5, 50), (6, 60), (7, 70),
        (8, 80)]) [.remove 2, .remove 4, .remove 6, .remove 8] 1 (by decide +kernel)
  obtain ⟨next, removed, mergesAlong⟩ := merges 10 (Start.run_get returned 1)
  exact ⟨replies, tree, minKeys, crowds, h, root, next, returned, least, crowded, heightEq,
    hasRoot, removed, mergesAlong⟩

end Main

end IndexDb
