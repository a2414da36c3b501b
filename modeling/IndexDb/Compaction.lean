import IndexDb.Construction
import IndexDb.Packing
import IndexDb.SlabPeak
import Mathlib.Algebra.Order.BigOperators.Group.Finset

/-!
# Compaction

Draining a tree and building another one from what it yields gives a tree with
the same entries.  Bulk loading packs every level into the fewest nodes, so the
new tree has no more nodes than the old one and is no higher, and its slab has no
free slots.
-/

namespace IndexDb

section Rows

variable {L K V : Type} {h : Nat} {order minKeys least : Nat}

theorem flatMap_length_le {α β γ : Type} {items : List α} {f : α → List β}
    {g : α → List γ} {most : Nat}
    (each : ∀ item ∈ items, (f item).length ≤ (g item).length * most) :
    (items.flatMap f).length ≤ (items.flatMap g).length * most := by
  induction items with
  | nil => simp
  | cons item items ih =>
      have first := each item (by simp)
      have rest := ih fun other member => each other (by simp [member])
      simp only [List.flatMap_cons, List.length_append, Nat.add_mul]
      omega

namespace Tree

theorem entries_le_row {tree : Tree L K V h} (sized : tree.Sized order minKeys least) :
    tree.entries.length ≤ (tree.row 0).length * (order - 1) := by
  induction h generalizing least with
  | zero =>
      have below := sized.keysLen.2
      rw [entries_leaf, row_top, List.length_singleton, Nat.one_mul]
      simp only [keysLen] at below
      omega
  | succ h ih =>
      rw [entries_node, row_inner tree (Nat.zero_le h)]
      exact flatMap_length_le fun child member => ih (sized.children child member)

/-- Every row has a parent for each of its nodes. -/
theorem row_le_row {tree : Tree L K V h} (sized : tree.Sized order minKeys least)
    {k : Nat} (inside : k < h) :
    (tree.row k).length ≤ (tree.row (k + 1)).length * order := by
  induction h generalizing least with
  | zero => omega
  | succ h ih =>
      rw [row_inner tree (by omega)]
      rcases Nat.lt_or_eq_of_le (Nat.lt_succ_iff.mp inside) with deeper | rfl
      · rw [row_inner tree (by omega)]
        exact flatMap_length_le fun child member => ih (sized.children child member) deeper
      · have below := sized.keysLen.2
        have forked := sized.forked
        simp only [keysLen, Internal.Forked] at below forked
        have single : tree.body.gather (row k) = tree.body.children.map label := by
          rw [List.map_eq_flatMap]
          exact congrArg (List.flatMap · tree.body.children) (funext row_top)
        rw [single, row_top, List.length_map, List.length_singleton]
        omega

theorem size_rows (tree : Tree L K V h) :
    tree.size = ∑ k ∈ Finset.range (h + 1), (tree.row k).length := by
  induction h with
  | zero => simp [size, labels, row]
  | succ h ih =>
      have below (trees : List (Tree L K V h)) : (trees.flatMap labels).length =
          ∑ k ∈ Finset.range (h + 1), (trees.flatMap (row k)).length := by
        induction trees with
        | nil => simp
        | cons first rest inner =>
            have one : first.labels.length = _ := ih first
            simp only [List.flatMap_cons, List.length_append, Finset.sum_add_distrib, inner,
              one]
      have rows : ∀ k ∈ Finset.range (h + 1),
          (tree.row k).length = (tree.body.children.flatMap (row k)).length := by
        intro k inside
        rw [row_inner tree (Nat.lt_succ_iff.mp (Finset.mem_range.mp inside))]
        rfl
      rw [Finset.sum_range_succ, Finset.sum_congr rfl rows, row_top, ← below]
      rfl

end Tree

end Rows

namespace SearchTree

variable {L K V : Type} [Preorder K] {order : Nat} {contents : List (K × V)}

/-- A bulk loaded tree is no higher than any tree with as many entries, and has no
more nodes. -/
theorem bulk_least (large : 3 ≤ order) (ascending : Ascending contents)
    (t : SearchTree L K V order) (same : t.entries.length = contents.length) :
    (bulk large ascending).height ≤ t.height ∧ (bulk large ascending).size ≤ t.size := by
  by_cases none : contents = []
  · subst none
    have single : Tree.bulk order ([] : List (K × V)) = ⟨0, ⟨(), []⟩⟩ := Tree.bulk_nil order
    have positive : 0 < t.size := Nat.zero_lt_of_lt t.height_lt_size
    change (Tree.bulk order []).1 ≤ t.height ∧ (Tree.bulk order []).2.size ≤ t.size
    rw [single]
    exact ⟨Nat.zero_le _, positive⟩
  · have packs := bulk_packs large ascending none
    have holds : contents.length ≤ (t.tree.row 0).length * (order - 1) :=
      same ▸ Tree.entries_le_row t.sized
    have raises : ∀ k < t.height,
        (t.tree.row k).length ≤ (t.tree.row (k + 1)).length * order :=
      fun k inside => Tree.row_le_row t.sized inside
    have lower := packs.height_le_levels (by omega) (by omega) holds raises (by simp)
    refine ⟨lower, ?_⟩
    calc (bulk large ascending).size
        = ∑ k ∈ Finset.range ((bulk large ascending).height + 1),
            ((bulk large ascending).tree.row k).length := Tree.size_rows _
      _ ≤ ∑ k ∈ Finset.range ((bulk large ascending).height + 1),
            (t.tree.row k).length := by
          refine Finset.sum_le_sum fun k inside => ?_
          have within := Nat.lt_succ_iff.mp (Finset.mem_range.mp inside)
          exact packs.size_le (by omega) (by omega) holds raises within (within.trans lower)
      _ ≤ ∑ k ∈ Finset.range (t.height + 1), (t.tree.row k).length :=
          Finset.sum_le_sum_of_subset (Finset.range_subset_range.mpr (by omega))
      _ = t.size := (Tree.size_rows t.tree).symm

end SearchTree

section Rebuilding

variable {K V : Type} [Preorder K] [DecidableLT K] {order : Nat} {tree : BPlusTree K V}
  {t : SearchTree NodeId K V order}

/-- Building from the entries of a tree packs them into as few nodes. -/
theorem BPlusTree.Represents.rebuild (represents : tree.Represents t) :
    ∃ (packed : BPlusTree K V) (t' : SearchTree NodeId K V order),
      fromSortedWithOrder t.entries tree.order = pure packed ∧ packed.Represents t' ∧
      t'.entries = t.entries ∧ packed.store.free = [] ∧ t'.height ≤ t.height ∧
      t'.size ≤ t.size := by
  obtain ⟨lower, fewer⟩ := SearchTree.bulk_least t.large t.ascending t rfl
  have room : LawfulNodeStore.Room (InMemoryStore.new : InMemoryStore K V)
      (SearchTree.bulk t.large t.ascending).size := by
    have slots := represents.slab_length
    have valid : InMemoryStore.Valid tree.store := represents.valid
    have bound := valid.addressable
    change _ ≤ 0 + (UInt32.size - 0)
    omega
  obtain ⟨t', store, loaded, shapeEq, change⟩ := bulkLoad_refines t.large t.ascending
    InMemoryStore.valid_new (.inl room)
  have entriesEq : t'.entries = t.entries := by
    rw [← SearchTree.bulk_entries t.large t.ascending, ← shapeEq, SearchTree.shape,
      SearchTree.relabel_entries]
  refine ⟨_, t', ?_, represents_new change, entriesEq,
    (InMemoryStore.grows_path change.path).drained rfl, ?_, ?_⟩
  · rw [fromSortedWithOrder, represents.order_eq,
      max_eq_left (show minOrder ≤ order from t.large)]
    dsimp only
    rw [if_pos (ascending_iff.mpr t.ascending), loaded, pure_bind, entriesEq]
  · rw [← shapeEq] at lower
    exact lower
  · have sizeEq : t'.shape.size = t'.size := by
      change (t'.tree.relabel fun _ => ()).labels.length = t'.tree.labels.length
      rw [Tree.relabel_labels, List.length_map]
    rwa [← shapeEq, sizeEq] at fewer

end Rebuilding

section Main

variable {K V : Type} [LinearOrder K]

/-- Building from what a reachable tree yields gives a well formed tree that answers
every later request alike, with no more nodes, no free slot and no more height. -/
theorem run_compacts (order : Nat) (start : Start K V) (calls : List (Call K V))
    (isExact : (start.run order calls).Exact) :
    ∃ replies tree iter entries packed,
      start.run order calls = pure (replies, tree) ∧
      tree.iter = pure iter ∧ iter.Drains entries ∧
      BPlusTree.fromSortedWithOrder entries tree.order = pure packed ∧
      packed.WellFormed ∧
      packed.store.slab.length = packed.nodeCount ∧
      packed.nodeCount ≤ tree.nodeCount ∧
      (∃ high low, tree.height = pure high ∧ packed.height = pure low ∧ low ≤ high) ∧
      ∀ requests, (tree.requests requests).Exact → (packed.requests requests).Exact →
        ∃ responses after packedAfter,
          tree.requests requests = pure (responses, after) ∧
          packed.requests requests = pure (responses, packedAfter) := by
  obtain ⟨tree, t, returned, represents, -⟩ := start.run_represents calls isExact
  obtain ⟨iter, scanned, drains⟩ := represents.iter_drains
  obtain ⟨packed, t', built, packedRepresents, entriesEq, noFree, lower, fewer⟩ :=
    represents.rebuild
  refine ⟨_, tree, iter, t.entries, packed, returned, scanned,
    drains, built, packedRepresents.wellFormed, ?_, ?_,
    ⟨_, _, represents.height, packedRepresents.height, Nat.add_le_add_left lower 1⟩, ?_⟩
  · rw [packedRepresents.slab_length, noFree, packedRepresents.nodeCount]
    rfl
  · rw [packedRepresents.nodeCount, represents.nodeCount]
    exact fewer
  · intro requests exactTree exactPacked
    obtain ⟨after, -, ran, -⟩ := represents.requests requests exactTree
    obtain ⟨packedAfter, -, packedRan, -⟩ := packedRepresents.requests requests exactPacked
    rw [entriesEq] at packedRan
    exact ⟨_, after, packedAfter, ran, packedRan⟩

theorem run_compacts_small :
    ∃ replies tree iter entries packed,
      (Start.fromSorted [(1, 10), (2, 20), (3, 30), (4, 40)]).run 3
        [.insert 5 50, .remove 2, .insert 6 60] = pure (replies, tree) ∧
      tree.iter = pure iter ∧ iter.Drains entries ∧
      BPlusTree.fromSortedWithOrder entries tree.order = pure packed ∧
      packed.WellFormed ∧
      packed.store.slab.length = packed.nodeCount ∧
      packed.nodeCount ≤ tree.nodeCount ∧
      (∃ high low, tree.height = pure high ∧ packed.height = pure low ∧ low ≤ high) ∧
      ∀ requests, (tree.requests requests).Exact → (packed.requests requests).Exact →
        ∃ responses after packedAfter,
          tree.requests requests = pure (responses, after) ∧
          packed.requests requests = pure (responses, packedAfter) :=
  run_compacts 3 (.fromSorted [(1, 10), (2, 20), (3, 30), (4, 40)])
    [.insert 5 50, .remove 2, .insert 6 60] (by decide +kernel)

end Main

end IndexDb
