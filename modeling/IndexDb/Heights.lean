import IndexDb.SearchPaths
import Mathlib.Algebra.Order.BigOperators.Group.List

/-!
# Logarithmic height

A node of legal occupancy multiplies the entries below it by at least
`minKeys + 1` and at most by the order.  Counting level by level bounds the
entries of a tree of given height from both sides.
-/

namespace IndexDb

section Counting

variable {L K V : Type} {h order minKeys least : Nat}

/-- Adding up children with between `low` and `high` entries each. -/
theorem Internal.gather_entries_range {node : Internal K (Tree L K V h)} {low high : Nat}
    (range : ∀ child ∈ node.children,
      low ≤ child.entries.length ∧ child.entries.length ≤ high) :
    node.children.length * low ≤ (node.gather Tree.entries).length ∧
      (node.gather Tree.entries).length ≤ node.children.length * high := by
  have total : (node.gather Tree.entries).length =
      (node.children.map fun child => child.entries.length).sum := by
    rw [Internal.gather, List.length_flatMap]
  have fewest := List.card_nsmul_le_sum
    (node.children.map fun child => child.entries.length) low
  have most := List.sum_le_card_nsmul
    (node.children.map fun child => child.entries.length) high
  simp only [List.forall_mem_map, List.length_map, nsmul_eq_mul, Nat.cast_id] at fewest most
  rw [total]
  exact ⟨fewest fun child member => (range child member).1,
    most fun child member => (range child member).2⟩

/-- No tree of a height has more entries than one with full nodes only. -/
theorem Tree.entries_le {tree : Tree L K V h} (sized : tree.Sized order minKeys least) :
    tree.entries.length ≤ (order - 1) * order ^ h := by
  induction h generalizing least with
  | zero =>
      have below := sized.2
      rw [entries_leaf, pow_zero]
      omega
  | succ h ih =>
      have forked : tree.body.children.length = tree.body.keys.length + 1 := sized.forked
      have below := sized.below
      have range : ∀ child ∈ tree.body.children, 0 ≤ child.entries.length ∧
          child.entries.length ≤ (order - 1) * order ^ h := fun child member =>
        ⟨Nat.zero_le _, ih (sized.children child member)⟩
      have counted := (Internal.gather_entries_range range).2
      rw [entries_node]
      calc (tree.body.gather entries).length
          ≤ tree.body.children.length * ((order - 1) * order ^ h) := counted
        _ ≤ order * ((order - 1) * order ^ h) :=
          Nat.mul_le_mul_right _ (by omega)
        _ = (order - 1) * order ^ (h + 1) := by ring

/-- No tree below a root has fewer entries than one with the least nodes only. -/
theorem Tree.le_entries {tree : Tree L K V h} (sized : tree.Sized order minKeys minKeys) :
    minKeys * (minKeys + 1) ^ h ≤ tree.entries.length := by
  induction h with
  | zero =>
      rw [entries_leaf, pow_zero]
      have enough := sized.1
      omega
  | succ h ih =>
      have forked : tree.body.children.length = tree.body.keys.length + 1 := sized.forked
      have enough := sized.enough
      have counted := (Internal.gather_entries_range fun child member =>
        ⟨ih (sized.children child member), Tree.entries_le (sized.children child member)⟩).1
      rw [entries_node]
      calc minKeys * (minKeys + 1) ^ (h + 1)
          = (minKeys + 1) * (minKeys * (minKeys + 1) ^ h) := by ring
        _ ≤ tree.body.children.length * (minKeys * (minKeys + 1) ^ h) :=
          Nat.mul_le_mul_right _ (by omega)
        _ ≤ (tree.body.gather entries).length := counted

end Counting

namespace SearchTree

variable {L K V : Type} [LE K] [LT K] {order : Nat}

theorem length_le (t : SearchTree L K V order) :
    t.entries.length ≤ (order - 1) * order ^ t.height :=
  Tree.entries_le t.sized

/-- A root above other nodes has at least two children. -/
theorem le_length (t : SearchTree L K V order) {h : Nat} (inner : t.height = h + 1) :
    2 * (leastKeys order * (leastKeys order + 1) ^ h) ≤ t.entries.length := by
  obtain ⟨height, tree, large, sized, ordered⟩ := t
  subst inner
  have forked : tree.body.children.length = tree.body.keys.length + 1 := sized.forked
  have enough := sized.enough
  have counted := (Internal.gather_entries_range fun child member =>
    ⟨Tree.le_entries (sized.children child member),
      Tree.entries_le (sized.children child member)⟩).1
  rw [entries, Tree.entries_node]
  exact (Nat.mul_le_mul_right _ (by omega)).trans counted

end SearchTree

namespace BPlusTree

variable {K V : Type}

/-- The tree has `h` levels on every way down, and as many entries as fit. -/
structure Balanced [LT K] [DecidableLT K] (tree : BPlusTree K V) (h : Nat) : Prop where
  measured : tree.height = pure h
  most : tree.len ≤ (tree.order - 1) * tree.order ^ (h - 1)
  least : 2 ≤ h →
    2 * ((tree.order + 1) / 2) ^ (h - 2) * ((tree.order + 1) / 2 - 1) ≤ tree.len
  searches : ∀ key, ∃ path, tree.searchPath key = pure path ∧ path.length = h
  leaves : ∀ depth id leaf, Below tree.store depth tree.root id →
    NodeStore.get tree.store id = pure (.leaf leaf) → depth + 1 = h

variable [Preorder K] [Std.IsLinearPreorder K] [DecidableLT K] {order : Nat}
  {tree : BPlusTree K V} {t : SearchTree NodeId K V order}

theorem Represents.balanced (represents : tree.Represents t) :
    tree.Balanced (t.height + 1) where
  measured := by rw [represents.height, Nat.add_comm]
  most := by
    rw [represents.len_eq, represents.order_eq]
    exact t.length_le
  least := by
    intro tall
    obtain ⟨h, inner⟩ : ∃ h, t.height = h + 1 := ⟨t.height - 1, by omega⟩
    have counted := t.le_length inner
    have large := t.large
    have halfEq : leastKeys order + 1 = (order + 1) / 2 := by
      simp only [leastKeys]
      omega
    rw [represents.len_eq, represents.order_eq, ← halfEq, inner]
    calc 2 * (leastKeys order + 1) ^ (h + 1 + 1 - 2) * (leastKeys order + 1 - 1)
        = 2 * (leastKeys order * (leastKeys order + 1) ^ h) := by
          rw [Nat.add_sub_cancel, Nat.add_sub_cancel (n := h) (m := 2)]
          ring
      _ ≤ t.entries.length := counted
  searches := fun key => ⟨_, represents.searchPath key, Tree.path_length key t.sized t.ordered⟩
  leaves := by
    intro depth id leaf path got
    have measured := represents.wellFormed.depth depth id leaf path got
    rw [represents.height, Traced.pure_inj] at measured
    omega

end BPlusTree

section Stored

variable {S Id K V : Type} [NodeStore S Id K V] {store : S} {order : Nat}

/-- Short lists that cover what belongs to each item make up one that covers
all of it. -/
theorem exists_cover {α β : Type} {belongs : α → β → Prop} {items : List α} {bound : Nat}
    (each : ∀ item ∈ items, ∃ found : List β, found.length ≤ bound ∧
      ∀ part, belongs item part → part ∈ found) :
    ∃ found : List β, found.length ≤ items.length * bound ∧
      ∀ item ∈ items, ∀ part, belongs item part → part ∈ found := by
  induction items with
  | nil => exact ⟨[], by simp, fun item member => by cases member⟩
  | cons item items ih =>
      obtain ⟨own, ownFew, ownAll⟩ := each item (List.mem_cons_self ..)
      obtain ⟨others, othersFew, othersAll⟩ :=
        ih fun other member => each other (List.mem_cons_of_mem _ member)
      refine ⟨own ++ others, ?_, fun other member part belong => ?_⟩
      · rw [List.length_append, List.length_cons, Nat.add_mul]
        omega
      · rcases List.mem_cons.mp member with rfl | member
        · exact List.mem_append_left _ (ownAll part belong)
        · exact List.mem_append_right _ (othersAll other member part belong)

/-- A level has few ids when no node has many children. -/
theorem below_few {root : Id}
    (few : ∀ id node, Reaches store root id →
      NodeStore.get store id = pure (.internal node) → node.children.length ≤ order)
    (depth : Nat) : ∃ ids : List Id, ids.length ≤ order ^ depth ∧
      ∀ id, Below store depth root id → id ∈ ids := by
  induction depth generalizing root with
  | zero =>
      refine ⟨[root], by simp, fun id path => ?_⟩
      cases path
      exact List.mem_singleton_self root
  | succ depth ih =>
      by_cases inner : ∃ node, NodeStore.get store root = pure (.internal node)
      · obtain ⟨node, got⟩ := inner
        have deeper : ∀ child ∈ node.children, ∃ ids : List Id,
            ids.length ≤ order ^ depth ∧
              ∀ id, Below store depth child id → id ∈ ids := by
          intro child member
          obtain ⟨i, place⟩ := List.getElem?_of_mem member
          refine ih fun id node reached => few id node ?_
          obtain ⟨further, path⟩ := reached
          exact ⟨further + 1, .under ⟨_, got, place⟩ path⟩
        obtain ⟨ids, idsFew, idsAll⟩ := exists_cover deeper
        have width := few root node ⟨0, .here root⟩ got
        refine ⟨ids, ?_, fun id path => ?_⟩
        · rw [pow_succ, Nat.mul_comm (order ^ depth)]
          exact idsFew.trans (Nat.mul_le_mul_right _ width)
        · cases path with
          | under slot rest =>
              obtain ⟨other, again, place⟩ := slot
              rw [got, Traced.pure_inj] at again
              cases again
              exact idsAll _ (List.mem_of_getElem? place) id rest
      · refine ⟨[], Nat.zero_le _, fun id path => ?_⟩
        cases path with
        | under slot rest =>
            obtain ⟨node, got, -⟩ := slot
            exact absurd ⟨node, got⟩ inner

end Stored

/-- The stored invariant alone bounds the entries by the height. -/
theorem BPlusTree.WellFormed.len_le {K V : Type} [LE K] [LT K] {tree : BPlusTree K V}
    (wellFormed : tree.WellFormed) {h : Nat} (measured : tree.height = pure h)
    (some : 0 < tree.len) :
    1 ≤ h ∧ tree.len ≤ (tree.order - 1) * tree.order ^ (h - 1) := by
  obtain ⟨leaves, distinct, isLeaf, counted⟩ := wellFormed.counted
  have level {id : NodeId} {leaf : Leaf K V} (member : (id, leaf) ∈ leaves) :
      1 ≤ h ∧ Below tree.store (h - 1) tree.root id := by
    obtain ⟨⟨depth, path⟩, got⟩ := (isLeaf id leaf).mp member
    have height := wellFormed.depth depth id leaf path got
    rw [measured, Traced.pure_inj] at height
    subst height
    exact ⟨Nat.le_add_left 1 depth, path⟩
  have most {id : NodeId} {leaf : Leaf K V} (member : (id, leaf) ∈ leaves) :
      leaf.keys.length ≤ tree.order - 1 :=
    wellFormed.most id _ ((isLeaf id leaf).mp member)
  have total : (leaves.map fun entry => entry.2.keys.length).sum ≤
      leaves.length * (tree.order - 1) := by
    have bound := List.sum_le_card_nsmul
      (leaves.map fun entry => entry.2.keys.length) (tree.order - 1)
    simp only [List.forall_mem_map, List.length_map, nsmul_eq_mul, Nat.cast_id] at bound
    exact bound fun entry member => most member
  rw [← counted] at total
  have positive : 0 < leaves.length * (tree.order - 1) := Nat.lt_of_lt_of_le some total
  obtain ⟨⟨first, leaf⟩, member⟩ :=
    List.exists_mem_of_length_pos (Nat.pos_of_mul_pos_right positive)
  have wide := Nat.pos_of_mul_pos_left positive
  have narrow : ∀ id node, Reaches tree.store tree.root id →
      NodeStore.get tree.store id = pure (.internal node) →
      node.children.length ≤ tree.order := by
    intro id node reached got
    have below := wellFormed.most id _ ⟨reached, got⟩
    have forked := (wellFormed.internal id node ⟨reached, got⟩).1
    simp only [Node.keysLen] at below
    omega
  obtain ⟨ids, idsFew, idsAll⟩ := below_few narrow (h - 1)
  have covered : leaves.map Prod.fst ⊆ ids := by
    intro id found
    obtain ⟨⟨_, leaf⟩, inside, rfl⟩ := List.mem_map.mp found
    exact idsAll _ (level inside).2
  have count := (List.subperm_of_subset distinct covered).length_le
  rw [List.length_map] at count
  refine ⟨(level member).1, total.trans ?_⟩
  rw [Nat.mul_comm]
  exact Nat.mul_le_mul_left _ (count.trans idsFew)

section Main

variable {K V : Type} [Preorder K] [Std.IsLinearPreorder K] [DecidableLT K]

/-- After every run the height is logarithmic in the number of entries, and it is
the number of nodes on every search path. -/
theorem run_balanced (order : Nat) (start : Start K V) (calls : List (Call K V))
    (isExact : (start.run order calls).Exact) :
    ∃ replies tree h, start.run order calls = pure (replies, tree) ∧
      tree.order = max order minOrder ∧ tree.Balanced h := by
  obtain ⟨tree, t, returned, represents, -⟩ := start.run_represents calls isExact
  exact ⟨_, tree, _, returned, represents.order_eq, represents.balanced⟩

theorem run_balanced_small :
    ∃ replies tree h, (Start.fromSorted [(1, 10), (2, 20), (3, 30)]).run 3
        [.insert 4 40, .remove 1, .insert 5 50] = pure (replies, tree) ∧
      tree.order = 3 ∧ tree.Balanced h :=
  run_balanced 3 (.fromSorted [(1, 10), (2, 20), (3, 30)])
    [.insert 4 40, .remove 1, .insert 5 50] (by decide +kernel)

end Main

end IndexDb
