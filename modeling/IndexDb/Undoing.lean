import IndexDb.LeafEdits
import IndexDb.Turnover

/-!
# Calls that undo each other

Inserting a new entry and removing it again, or removing an entry and putting it
back, restores the whole state exactly when the first call leaves the shape of the
tree alone: the leaf of the key has room, or a key to spare.  A leaf that has split
is half full, and no removal fills a leaf up again.  A leaf that a removal repaired
has at least as many keys as before, so that it has one too many when the entry is
back.
-/

namespace IndexDb

open LawfulNodeStore
open Relation (ReflTransGen)

section Stores

variable {K V : Type} {store next : InMemoryStore K V}

/-- The lists of slots are as long as before, and the free ones the same. -/
structure InMemoryStore.SameSlots (store next : InMemoryStore K V) : Prop where
  free_eq : next.free = store.free
  length_eq : next.slab.length = store.slab.length

/-- Between two stores so many slots were taken, or else given back. -/
def InMemoryStore.Moves (grow : Bool) (store next : InMemoryStore K V) (n : Nat) : Prop :=
  if grow then next.slab.length + store.free.length = store.slab.length + next.free.length + n
  else next.slab.length + store.free.length + n = store.slab.length + next.free.length

namespace InMemoryStore

variable {grow : Bool}

theorem shift_moves (shift : Shift grow store next) :
    ∃ n, store.Moves grow next n ∧ (n = 0 → store.SameSlots next) := by
  cases shift with
  | write written returned =>
      rw [getMut_write returned]
      refine ⟨0, ?_, fun _ => ⟨rfl, by simp⟩⟩
      cases grow <;> simp [Moves]
  | @alloc _ _ node id returned =>
      have result : (store.alloc node).result = .ok (id, next) :=
        congrArg Traced.result returned
      refine ⟨1, ?_, fun none => absurd none Nat.one_ne_zero⟩
      cases freeEq : store.free with
      | nil =>
          rw [alloc_pushes freeEq] at result
          cases result
          simp [Moves, freeEq]
      | cons first free =>
          cases alloc_sets freeEq result
          simp only [Moves, freeEq, List.length_set, List.length_cons, if_true]
          omega
  | @reclaim _ _ id node returned =>
      have result : (store.reclaim id).result = .ok (node, next) :=
        congrArg Traced.result returned
      obtain ⟨old, -, result⟩ := Traced.bind_result_eq_ok.mp result
      obtain ⟨slab, written, result⟩ := Traced.bind_result_eq_ok.mp result
      have lengthEq := shrink_shift (.reclaim returned)
      cases result
      refine ⟨1, ?_, fun none => absurd none Nat.one_ne_zero⟩
      simp only [Moves, List.length_cons, Bool.false_eq_true, if_false] at lengthEq ⊢
      omega

/-- On a path that takes no slot, or gives none back, all slots stay the same. -/
theorem path_moves (path : ReflTransGen (Shift grow) store next) :
    ∃ n, store.Moves grow next n ∧ (n = 0 → store.SameSlots next) := by
  induction path with
  | refl => exact ⟨0, by cases grow <;> simp [Moves], fun _ => ⟨rfl, rfl⟩⟩
  | tail _ shift ih =>
      obtain ⟨first, before, sameBefore⟩ := ih
      obtain ⟨second, after, sameAfter⟩ := shift_moves shift
      refine ⟨first + second, ?_, fun none => ?_⟩
      · cases grow <;> simp only [Moves, Bool.false_eq_true, if_false, if_true] at * <;> omega
      · have one := sameBefore (by omega)
        have two := sameAfter (by omega)
        exact ⟨two.free_eq.trans one.free_eq, two.length_eq.trans one.length_eq⟩

/-- The slots in use and those that are free say all about a store. -/
theorem eq_of_view (valid : Valid store) (nextValid : Valid next) (same : store.SameSlots next)
    (viewEq : ∀ id, next.view id = store.view id) : next = store := by
  have slabEq : next.slab = store.slab := by
    refine List.ext_getElem? fun slot => ?_
    by_cases inside : slot < store.slab.length
    · have small : slot < UInt32.size := Nat.lt_of_lt_of_le inside valid.addressable
      have slotEq : (⟨UInt32.ofNat slot⟩ : NodeId).slot = slot := by
        simpa [NodeId.slot] using Nat.mod_eq_of_lt small
      have seen := viewEq ⟨UInt32.ofNat slot⟩
      by_cases isFree : (⟨UInt32.ofNat slot⟩ : NodeId) ∈ store.free
      · have nextFree := isFree
        rw [← same.free_eq] at nextFree
        have before := valid.vacant _ isFree
        have after := nextValid.vacant _ nextFree
        rw [slotEq] at before after
        rw [after, before]
      · simpa only [view, same.free_eq, if_neg isFree, slotEq] using seen
    · have nextOutside : ¬ slot < next.slab.length := by rwa [same.length_eq]
      rw [List.getElem?_eq_none (Nat.le_of_not_lt inside),
        List.getElem?_eq_none (Nat.le_of_not_lt nextOutside)]
  obtain ⟨slab, free⟩ := next
  cases slabEq
  cases same.free_eq
  rfl

end InMemoryStore

end Stores

section Removal

variable {Id K V : Type} {h order minKeys least : Nat}

/-- A leaf with as many keys as there may be. -/
def FullLeaf (order : Nat) : Node Id K V → Prop
  | .leaf leaf => leaf.keys.length + 1 = order
  | .internal _ => False

theorem FullLeaf.leaf_ofEntries {entries : List (K × V)} :
    FullLeaf order (.leaf (Leaf.ofEntries entries) : Node Id K V) ↔
      entries.length + 1 = order := by
  simp [FullLeaf, Leaf.ofEntries]

theorem FullLeaf.keysLen {tree : Tree Id K V h} (full : FullLeaf order tree.node) :
    h = 0 ∧ tree.keysLen + 1 = order := by
  cases h with
  | zero => exact ⟨rfl, leaf_ofEntries.mp full⟩
  | succ h => exact full.elim

namespace Tree

variable (parent : Id) (wide : Hole K (Tree Id K V h)) {cell : Id × Node Id K V}

/-- A full leaf under a node is one of two children, or not affected by them. -/
theorem full_fillTwo {left right : Tree Id K V h} {sep : K}
    (member : cell ∈ Tree.cells (h := h + 1) ⟨parent, wide.fillTwo left sep right⟩)
    (full : FullLeaf order cell.2) (leftPoor : left.keysLen + 1 < order)
    (rightPoor : right.keysLen + 1 < order) :
    cell ∈ wide.leftChildren.flatMap cells ++ (left.below ++ right.below) ++
      wide.rightChildren.flatMap cells := by
  have among := (cells_fillTwo parent wide left sep right).subset member
  simp only [siblingCells, List.cons_append, List.nil_append, List.mem_cons] at among
  rcases among with rfl | rfl | rfl | among
  · exact full.elim
  · exact absurd full.keysLen.2 (Nat.ne_of_lt leftPoor)
  · exact absurd full.keysLen.2 (Nat.ne_of_lt rightPoor)
  · exact among

theorem full_fill {child : Tree Id K V h}
    (member : cell ∈ Tree.cells (h := h + 1) ⟨parent, wide.fill child⟩)
    (full : FullLeaf order cell.2) (poor : h = 0 → child.keysLen + 1 < order) :
    cell ∈ wide.leftChildren.flatMap cells ++ child.below ++
      wide.rightChildren.flatMap cells := by
  have among := (IndexDb.cells_fill parent wide child).subset member
  simp only [List.cons_append, List.nil_append, List.mem_cons] at among
  rcases among with rfl | rfl | among
  · exact full.elim
  · obtain ⟨isLeaf, keysEq⟩ := full.keysLen
    exact absurd keysEq (Nat.ne_of_lt (poor isLeaf))
  · exact among

end Tree

theorem Tree.join_leaf_keysLen (left : Tree Id K V h) (sep : K) (right : Tree Id K V h)
    (isLeaf : h = 0) : (left.join sep right).keysLen = left.keysLen + right.keysLen := by
  subst isLeaf
  simp [keysLen, join]

/-- No repair fills a leaf up. -/
theorem Rebalanced.full {hole : Hole K (Tree Id K V h)} {child : Tree Id K V h}
    {result : Internal K (Tree Id K V h)} (parent : Id)
    (rebalanced : Rebalanced minKeys hole child result) (positive : 1 ≤ minKeys)
    (half : 2 * minKeys + 1 ≤ order)
    (siblings : ∀ sibling ∈ hole.others, sibling.Sized order minKeys minKeys)
    (poor : child.keysLen < minKeys) {cell : Id × Node Id K V}
    (member : cell ∈ Tree.cells (h := h + 1) ⟨parent, result⟩)
    (full : FullLeaf order cell.2) :
    cell ∈ Tree.cells (h := h + 1) ⟨parent, hole.fill child⟩ := by
  cases rebalanced with
  | @fromLeft wide left sep place spare =>
      subst place
      have leftSized := siblings left (by simp)
      have inside := leftSized.keysLen.2
      have several := Nat.lt_of_le_of_lt positive spare
      have rotated : Tree.Rotated left child (left.rotateRight sep child) :=
        Tree.rotateRight_rotated leftSized several
      obtain ⟨fewer, more⟩ := Tree.rotateRight_keysLen sep child leftSized several
      have rest := Tree.full_fillTwo parent wide member full (by omega) (by omega)
      rw [rotated.below] at rest
      rw [Hole.pastLeft_fill]
      exact rest_subset_fillTwo parent wide left sep child rest
  | @fromRight wide sep right place spare _ =>
      subst place
      have rightSized := siblings right (by simp)
      have inside := rightSized.keysLen.2
      have several := Nat.lt_of_le_of_lt positive spare
      have rotated : Tree.Rotated child right (child.rotateLeft sep right) :=
        Tree.rotateLeft_rotated rightSized several
      obtain ⟨more, fewer⟩ := Tree.rotateLeft_keysLen child sep rightSized several
      have rest := Tree.full_fillTwo parent wide member full (by omega) (by omega)
      rw [rotated.below] at rest
      rw [Hole.beforeRight_fill]
      exact rest_subset_fillTwo parent wide child sep right rest
  | @intoLeft wide left sep place few _ =>
      subst place
      have rest := Tree.full_fill parent wide member full fun isLeaf => by
        rw [Tree.join_leaf_keysLen left sep child isLeaf]
        omega
      rw [Tree.join_below] at rest
      rw [Hole.pastLeft_fill]
      exact rest_subset_fillTwo parent wide left sep child rest
  | @intoRight wide sep right place _ few =>
      subst place
      have rest := Tree.full_fill parent wide member full fun isLeaf => by
        rw [Tree.join_leaf_keysLen child sep right isLeaf]
        omega
      rw [Tree.join_below] at rest
      rw [Hole.beforeRight_fill]
      exact rest_subset_fillTwo parent wide child sep right rest

variable [Preorder K] [Std.IsLinearPreorder K] [DecidableLT K]

/-- A leaf that is full after a removal was so before, with the same entries. -/
theorem Tree.removeFrom_full (key : K) (positive : 1 ≤ minKeys) (half : 2 * minKeys + 1 ≤ order)
    {tree : Tree Id K V h} (sized : tree.Sized order minKeys least)
    (ordered : Mark.Ordered tree.marks) (inner : min h 1 ≤ least)
    {cell : Id × Node Id K V} (member : cell ∈ (tree.removeFrom minKeys key).2.cells)
    (full : FullLeaf order cell.2) : cell ∈ tree.cells := by
  induction h generalizing least with
  | zero =>
      have shrinkage := removeEntries_shrinkage key (Mark.ordered_ofEntries.mp ordered)
      simp only [removeFrom] at member
      generalize removeEntries key tree.body = result at shrinkage member
      obtain rfl := List.mem_singleton.mp member
      have fullEq := FullLeaf.leaf_ofEntries.mp full
      have most := sized.2
      cases shrinkage with
      | removed split below same above =>
          simp only [split, List.length_append, List.length_cons] at fullEq most
          omega
      | missing split below above => exact List.mem_singleton_self _
  | succ h ih =>
      obtain ⟨hole, child, filled, indexEq, -⟩ :=
        route (Internal.Occupied.forked sized) ordered key
      have childSized := sized.child filled
      have childOrdered := ordered_child filled ordered
      have childEnough := childSized.keysLen.1
      obtain ⟨enough, -, siblings⟩ := sized.around filled
      -- Put back under its parent, the child has only full leaves that it had before.
      have refilled (inside : cell ∈ cells (h := h + 1)
          ⟨tree.label, hole.fill (child.removeFrom minKeys key).2⟩) : cell ∈ tree.cells := by
        rw [cells_refill filled (removeFrom_label minKeys key child)] at inside
        rw [cells_fill filled]
        simp only [List.mem_append] at inside ⊢
        rcases inside with (around | deeper) | onRight
        · exact .inl (.inl around)
        · exact .inl (.inr (ih childSized childOrdered (by omega) deeper))
        · exact .inr onRight
      rw [removeFrom_fill minKeys key filled indexEq] at member
      split_ifs at member with under
      · have rebalanced := rebalance_rebalanced minKeys hole
          (child.removeFrom minKeys key).2 (Hole.several (by omega))
        exact refilled (rebalanced.full tree.label positive half siblings under.2 member
          full)
      · exact refilled member

end Removal

namespace SearchTree

variable {Id K V : Type} [Preorder K] [Std.IsLinearPreorder K] [DecidableLT K] {order : Nat}
  {key : K}

/-- The two trees differ by the entries of the leaf that owns the key. -/
def Edits (t : SearchTree Id K V order) (key : K) (entries : List (K × V))
    (edited : SearchTree Id K V order) : Prop :=
  (⟨edited.height, edited.tree⟩ : Σ h, Tree Id K V h) =
    ⟨t.height, t.tree.setLeaf key entries⟩

namespace Edits

variable {t edited again : SearchTree Id K V order} {entries : List (K × V)}

omit [Std.IsLinearPreorder K] in
theorem height_eq (edits : t.Edits key entries edited) : edited.height = t.height :=
  congrArg Sigma.fst edits

theorem leaf_eq (edits : t.Edits key entries edited) :
    (edited.tree.leafFor key).body = entries := by
  obtain ⟨height, tree, large, sized, ordered⟩ := edited
  cases edits
  rw [Tree.leafFor_setLeaf t.sized t.ordered entries]

/-- Writing back the entries of the leaf restores the tree. -/
theorem back (edits : t.Edits key entries edited)
    (undone : edited.Edits key (t.tree.leafFor key).body again) : again = t := by
  obtain ⟨height, tree, large, sized, ordered⟩ := edited
  cases edits
  refine ext_tree (undone.trans ?_)
  rw [Tree.setLeaf_setLeaf t.sized t.ordered, Tree.setLeaf_leafFor t.sized t.ordered]

end Edits

variable (t : SearchTree Id K V order)

theorem leaf_lookup (key : K) :
    Entries.lookup key (t.tree.leafFor key).body = Entries.lookup key t.entries :=
  Tree.lookup_leafFor t.sized t.ordered key

theorem leaf_ascending (key : K) : Ascending (t.tree.leafFor key).body :=
  Tree.leafFor_ascending t.sized t.ordered key

theorem leaf_length (key : K) :
    (t.tree.leafFor key).body.length < order ∧
      (0 < t.height → leastKeys order ≤ (t.tree.leafFor key).body.length) :=
  Tree.leafFor_length t.sized t.ordered key

theorem leaf_mem (key : K) : ((t.tree.leafFor key).label,
    .leaf (Leaf.ofEntries (t.tree.leafFor key).body)) ∈ t.cells :=
  Tree.leafFor_mem key t.sized t.ordered

theorem insert_room (fresh : Nat → Id) (value : V)
    (absent : Entries.lookup key t.entries = none)
    (room : (t.tree.leafFor key).body.length + 1 < order) :
    t.Edits key (Entries.insert key value (t.tree.leafFor key).body)
      (t.insert fresh key value).2 := by
  have edited := Tree.insertInto_room t.sized t.ordered fresh value
    ((t.leaf_lookup key).trans absent) room
  change (t.tree.insertInto fresh order key value).root _ = _
  rw [edited]
  rfl

theorem allocations_room (value : V) (absent : Entries.lookup key t.entries = none)
    (room : (t.tree.leafFor key).body.length + 1 < order) : t.allocations key value = 0 := by
  have edited := Tree.insertInto_room t.sized t.ordered (fun _ => t.tree.label) value
    ((t.leaf_lookup key).trans absent) room
  obtain ⟨above, -, pathEq⟩ := Tree.path_leafFor key t.sized t.ordered
  obtain ⟨splitsEq, -⟩ := Tree.insertInto_splits (fun _ => t.tree.label) key value t.sized
    t.ordered (by rw [edited]; rfl)
  have notFull : (Leaf.ofEntries (t.tree.leafFor key).body).keys.length ≠ order - 1 := by
    simp only [Leaf.ofEntries, List.length_map]
    omega
  rw [allocations, splitsEq, edited, pathEq]
  simp [fullFromLeaf, Node.keysLen, notFull, Grown.isSplit]

theorem remove_spare {value : V} (present : Entries.lookup key t.entries = some value)
    (spare : 0 < t.height → leastKeys order < (t.tree.leafFor key).body.length) :
    t.Edits key (Entries.erase key (t.tree.leafFor key).body) (t.remove key).2 := by
  have edited := Tree.removeFrom_spare t.sized t.ordered
    ((t.leaf_lookup key).trans present) spare
  have shrunk := Tree.removeFrom_sized key (leastKeys_pos t.large) (leastKeys_half t.large)
    t.sized t.ordered (Nat.le_refl _)
  have removedEq : (t.tree.remove (leastKeys order) key).2 =
      (t.tree.removeFrom (leastKeys order) key).2.collapse := if_pos (by rw [edited]; rfl)
  rw [edited] at shrunk removedEq
  refine Eq.trans removedEq ?_
  rcases Tree.collapse_outcome shrunk with same | ⟨none, lower, -⟩
  · exact same
  · -- Only a leaf changes, so a root with a level below it keeps its keys.
    have enough := t.sized.keysLen.1
    rw [Tree.setLeaf_keysLen, if_neg (by omega)] at none
    omega

/-- A new entry that finds room is taken out again without a trace. -/
theorem insert_remove (fresh : Nat → Id) (value : V)
    (absent : Entries.lookup key t.entries = none)
    (room : (t.tree.leafFor key).body.length + 1 < order) :
    (t.insert fresh key value).2.remove key = (some value, t) := by
  have inserted := t.insert_room fresh value absent room
  have ascending := t.leaf_ascending key
  have longer := Entries.length_insert_absent ascending ((t.leaf_lookup key).trans absent) value
  have found : Entries.lookup key (t.insert fresh key value).2.entries = some value := by
    rw [t.insert_entries, Entries.lookup_insert t.ascending, if_pos (sameKey_refl key)]
  have removed := (t.insert fresh key value).2.remove_spare found fun inner => by
    rw [inserted.height_eq] at inner
    have enough := (t.leaf_length key).2 inner
    rw [inserted.leaf_eq, longer]
    omega
  rw [inserted.leaf_eq, Entries.erase_insert ascending ((t.leaf_lookup key).trans absent)]
    at removed
  exact Prod.ext ((remove_removed key _).trans found) (inserted.back removed)

theorem remove_absent (key : K) : Entries.lookup key (t.remove key).2.entries = none := by
  rw [t.remove_entries, Entries.lookup_erase t.ascending, if_pos (sameKey_refl key)]

/-- The leaf of an entry that was spared has room for it. -/
theorem remove_leaves_room {value : V} (held : (key, value) ∈ t.entries)
    (spare : 0 < t.height → leastKeys order < (t.tree.leafFor key).body.length) :
    t.Edits key (Entries.erase key (t.tree.leafFor key).body) (t.remove key).2 ∧
      ((t.remove key).2.tree.leafFor key).body.length + 1 < order := by
  have found : Entries.lookup key t.entries = some value :=
    (Entries.lookup_eq_some_iff t.ascending).mpr ⟨_, held, sameKey_refl key, rfl⟩
  have removed := t.remove_spare found spare
  have shorter := Entries.length_erase_present (t.leaf_ascending key)
    ((t.leaf_lookup key).trans found)
  have most := (t.leaf_length key).1
  refine ⟨removed, ?_⟩
  rw [removed.leaf_eq, shorter]
  exact most

/-- An entry that can be spared is put back without a trace. -/
theorem remove_insert (fresh : Nat → Id) {value : V} (held : (key, value) ∈ t.entries)
    (spare : 0 < t.height → leastKeys order < (t.tree.leafFor key).body.length) :
    (t.remove key).2.insert fresh key value = (none, t) := by
  obtain ⟨removed, room⟩ := t.remove_leaves_room held spare
  have inserted := (t.remove key).2.insert_room fresh value (t.remove_absent key) room
  rw [removed.leaf_eq, Entries.insert_erase (t.leaf_ascending key)
    (Tree.mem_leafFor t.sized t.ordered held)] at inserted
  exact Prod.ext ((insert_displaced fresh key value _).trans (t.remove_absent key))
    (removed.back inserted)

theorem insert_full (fresh : Nat → Id) (value : V)
    (absent : Entries.lookup key t.entries = none)
    (full : (t.tree.leafFor key).body.length + 1 = order) :
    ∃ half : List (K × V), half.length = order / 2 ∧
      ((t.tree.leafFor key).label, .leaf (Leaf.ofEntries half)) ∈
        (t.insert fresh key value).2.cells := by
  obtain ⟨half, lengthEq, member⟩ := Tree.insertInto_full t.sized t.ordered fresh value
    ((t.leaf_lookup key).trans absent) full
  exact ⟨half, lengthEq, Grown.gather_subset_root _ _ member⟩

theorem remove_full (key : K) {cell : Id × Node Id K V}
    (member : cell ∈ (t.remove key).2.cells) (full : FullLeaf order cell.2) :
    cell ∈ t.cells := by
  have shrunk := Tree.removeFrom_sized key (leastKeys_pos t.large) (leastKeys_half t.large)
    t.sized t.ordered (Nat.le_refl _)
  refine Tree.removeFrom_full key (leastKeys_pos t.large) (leastKeys_half t.large) t.sized
    t.ordered (Nat.le_refl _) ?_ full
  change cell ∈ (t.tree.remove (leastKeys order) key).2.2.cells at member
  by_cases present : (t.tree.removeFrom (leastKeys order) key).1.isSome
  · have removedEq : (t.tree.remove (leastKeys order) key).2 =
        (t.tree.removeFrom (leastKeys order) key).2.collapse := if_pos present
    rw [removedEq] at member
    rcases Tree.collapse_outcome shrunk with same | ⟨-, -, cellsEq⟩
    · rwa [same] at member
    · rw [cellsEq]
      exact List.mem_cons_of_mem _ member
  · have removedEq : (t.tree.remove (leastKeys order) key).2 =
        ⟨t.height, (t.tree.removeFrom (leastKeys order) key).2⟩ := if_neg present
    rwa [removedEq] at member

end SearchTree

namespace BPlusTree

section Records

variable {K V : Type} [LE K] [LT K] {order : Nat} {tree next last : BPlusTree K V}
  {t t' : SearchTree NodeId K V order}

theorem Represents.view_eq (represents : tree.Represents t) (again : last.Represents t)
    (id : NodeId) : view last.store id = view tree.store id := by
  by_cases member : id ∈ t.labels
  · rw [← SearchTree.cells_names] at member
    obtain ⟨cell, found, rfl⟩ := List.mem_map.mp member
    exact (again.owned.resolves cell found).trans (represents.owned.resolves cell found).symm
  · have unused {record : BPlusTree K V} (represents : record.Represents t) :
        view record.store id = none := by
      by_contra live
      exact member (represents.complete id live)
    rw [unused again, unused represents]

/-- When the tree is back, and had as many nodes in between, so is the record. -/
theorem Represents.restored {grow : Bool} (represents : tree.Represents t)
    (between : next.Represents t') (again : last.Represents t) (sizeEq : t'.size = t.size)
    (out : ReflTransGen (Shift grow) tree.store next.store)
    (home : ReflTransGen (Shift (!grow)) next.store last.store) : last = tree := by
  obtain ⟨first, taken, sameOut⟩ := InMemoryStore.path_moves out
  obtain ⟨second, given, sameHome⟩ := InMemoryStore.path_moves home
  have before := represents.slab_length
  have middle := between.slab_length
  have after := again.slab_length
  have none : first = 0 ∧ second = 0 := by
    cases grow <;>
      simp only [InMemoryStore.Moves, Bool.not_false, Bool.not_true, Bool.false_eq_true,
        if_false, if_true] at taken given <;>
      omega
  have one := sameOut none.1
  have two := sameHome none.2
  have storeEq : last.store = tree.store :=
    InMemoryStore.eq_of_view represents.valid again.valid
      ⟨two.free_eq.trans one.free_eq, two.length_eq.trans one.length_eq⟩
      (represents.view_eq again)
  have rootEq := again.root_eq.trans represents.root_eq.symm
  have orderEq := again.order_eq.trans represents.order_eq.symm
  have lenEq := again.len_eq.trans represents.len_eq.symm
  obtain ⟨root, store, order, len⟩ := last
  simp only at storeEq rootEq orderEq lenEq
  rw [storeEq, rootEq, orderEq, lenEq]

theorem Represents.cell_unique (represents : tree.Represents t) {id : NodeId}
    {node other : Node NodeId K V} (member : (id, node) ∈ t.cells)
    (otherMember : (id, other) ∈ t.cells) : node = other :=
  Option.some.inj ((represents.owned.resolves _ member).symm.trans
    (represents.owned.resolves _ otherMember))

end Records

section Calls

variable {K V : Type} [Preorder K] [Std.IsLinearPreorder K] [DecidableLT K] {order : Nat}
  {tree next : BPlusTree K V} {t : SearchTree NodeId K V order} {key : K} {value : V}

/-- One record has the same leaf for a key, at the same depth, in all its search trees. -/
theorem Represents.leaf_unique {other : SearchTree NodeId K V order}
    (represents : tree.Represents t) (again : tree.Represents other) (key : K) :
    other.height = t.height ∧
      (other.tree.leafFor key).body.length = (t.tree.leafFor key).body.length := by
  have samePath := Traced.pure_inj.mp
    ((again.searchPath key).symm.trans (represents.searchPath key))
  obtain ⟨above, lengthEq, pathEq⟩ := Tree.path_leafFor key t.sized t.ordered
  obtain ⟨otherAbove, otherLength, otherPath⟩ :=
    Tree.path_leafFor key other.sized other.ordered
  rw [otherPath, pathEq] at samePath
  obtain ⟨sameAbove, sameLeaf⟩ := List.append_inj' samePath rfl
  have keysEq := congrArg (fun cell => cell.2.keysLen) (List.singleton_inj.mp sameLeaf)
  have depthEq := congrArg List.length sameAbove
  rw [otherLength, lengthEq] at depthEq
  exact ⟨depthEq, by simpa [Node.keysLen, Leaf.ofEntries] using keysEq⟩

theorem Represents.insert_halves {fresh : Nat → NodeId}
    (inserted : next.Represents (t.insert fresh key value).2)
    (absent : Entries.lookup key t.entries = none)
    (full : (t.tree.leafFor key).body.length + 1 = order) :
    ((t.tree.leafFor key).label, .leaf (Leaf.ofEntries (t.tree.leafFor key).body)) ∉
      (t.insert fresh key value).2.cells := by
  intro member
  obtain ⟨half, lengthEq, halfMember⟩ := t.insert_full fresh value absent full
  have large := t.large
  have same := inserted.cell_unique member halfMember
  have keysEq := congrArg Node.keysLen same
  simp only [Node.keysLen, Leaf.ofEntries, List.length_map] at keysEq
  omega

/-- A new entry that finds room in its leaf leaves no trace when it is removed. -/
theorem Represents.insert_undone (represents : tree.Represents t)
    (absent : Entries.lookup key t.entries = none)
    (room : (t.tree.leafFor key).body.length + 1 < order) :
    ∃ next, tree.insert key value = pure (none, next) ∧
      next.remove key = pure (some value, tree) := by
  have noSplit := t.allocations_room value absent room
  obtain ⟨fresh, next, inserted, newRepresents, out⟩ := represents.insert key value
    (.inl (by rw [noSplit]; exact Nat.zero_le _))
  obtain ⟨last, removed, again, home⟩ := newRepresents.remove key
  have sizeEq := t.insert_size fresh key value
  rw [noSplit, Nat.add_zero] at sizeEq
  rw [t.insert_remove fresh value absent room] at removed again
  rw [t.insert_displaced, absent] at inserted
  obtain rfl := represents.restored newRepresents again sizeEq out home
  exact ⟨next, inserted, removed⟩

/-- An entry that can be spared in its leaf leaves no trace when it is put back. -/
theorem Represents.remove_undone (represents : tree.Represents t)
    (held : (key, value) ∈ t.entries)
    (spare : 0 < t.height → leastKeys order < (t.tree.leafFor key).body.length) :
    ∃ next, tree.remove key = pure (some value, next) ∧
      next.insert key value = pure (none, tree) := by
  have found : Entries.lookup key t.entries = some value :=
    (Entries.lookup_eq_some_iff t.ascending).mpr ⟨_, held, sameKey_refl key, rfl⟩
  have noSplit := (t.remove key).2.allocations_room value (t.remove_absent key)
    (t.remove_leaves_room held spare).2
  obtain ⟨next, removed, newRepresents, out⟩ := represents.remove key
  obtain ⟨fresh, last, inserted, again, home⟩ := newRepresents.insert key value
    (.inl (by rw [noSplit]; exact Nat.zero_le _))
  have sizeEq := (t.remove key).2.insert_size fresh key value
  rw [noSplit, Nat.add_zero, t.remove_insert fresh held spare] at sizeEq
  rw [t.remove_insert fresh held spare] at inserted again
  rw [t.remove_removed, found] at removed
  obtain rfl := represents.restored newRepresents again sizeEq.symm out home
  exact ⟨next, removed, inserted⟩

/-- A new entry that halved its leaf leaves a trace when it is removed. -/
theorem Represents.insert_not_undone (represents : tree.Represents t)
    (absent : Entries.lookup key t.entries = none)
    (full : (t.tree.leafFor key).body.length + 1 = order)
    (inserted : tree.insert key value = pure (none, next)) :
    next.remove key ≠ pure (some value, tree) := by
  obtain ⟨fresh, made, insertedEq, newRepresents, -⟩ := represents.insert key value
    (.inr (by rw [inserted]; exact Traced.avoids_pure _ _))
  obtain ⟨last, removed, again, -⟩ := newRepresents.remove key
  obtain ⟨-, rfl⟩ := Prod.mk.inj (Traced.pure_inj.mp (inserted.symm.trans insertedEq))
  intro back
  obtain ⟨-, rfl⟩ := Prod.mk.inj (Traced.pure_inj.mp (back.symm.trans removed))
  -- The full leaf is there again, so it was never halved.
  have whole := again.hasNode_iff_cell.mp (represents.hasNode_iff_cell.mpr (t.leaf_mem key))
  refine newRepresents.insert_halves absent full (SearchTree.remove_full _ key whole ?_)
  exact FullLeaf.leaf_ofEntries.mpr full

/-- An entry that could not be spared leaves a trace when it is put back. -/
theorem Represents.remove_not_undone (represents : tree.Represents t) (inner : 0 < t.height)
    (few : (t.tree.leafFor key).body.length ≤ leastKeys order) {removed : Option V}
    (returned : tree.remove key = pure (removed, next)) :
    next.insert key value ≠ pure (none, tree) := by
  obtain ⟨made, removedEq, newRepresents, -⟩ := represents.remove key
  obtain ⟨-, rfl⟩ := Prod.mk.inj (Traced.pure_inj.mp (returned.symm.trans removedEq))
  intro back
  obtain ⟨fresh, last, inserted, again, -⟩ := newRepresents.insert key value
    (.inr (by rw [back]; exact Traced.avoids_pure _ _))
  obtain ⟨-, rfl⟩ := Prod.mk.inj (Traced.pure_inj.mp (back.symm.trans inserted))
  have absent := t.remove_absent key
  by_cases full : ((t.remove key).2.tree.leafFor key).body.length + 1 = order
  · -- A full leaf was full before, and the insertion halved it.
    have before := t.remove_full key ((t.remove key).2.leaf_mem key)
      (FullLeaf.leaf_ofEntries.mpr full)
    exact again.insert_halves absent full
      (again.hasNode_iff_cell.mp (represents.hasNode_iff_cell.mpr before))
  · -- The leaf has one key more than it had between the calls, when it had enough.
    have most := ((t.remove key).2.leaf_length key).1
    have edits := (t.remove key).2.insert_room fresh value absent (by omega)
    have longer := Entries.length_insert_absent ((t.remove key).2.leaf_ascending key)
      (((t.remove key).2.leaf_lookup key).trans absent) value
    obtain ⟨sameHeight, sameLength⟩ := represents.leaf_unique again key
    rw [edits.height_eq] at sameHeight
    rw [edits.leaf_eq, longer] at sameLength
    have enough := ((t.remove key).2.leaf_length key).2 (by omega)
    omega

end Calls

end BPlusTree

section Main

variable {K V : Type} [Preorder K] [Std.IsLinearPreorder K] [DecidableLT K]

/-- In every reachable tree, removing what was just inserted restores the state exactly
when the leaf had room, and putting back what was just removed restores it exactly when
the leaf is the root or had a key to spare. -/
theorem run_undone_iff (order : Nat) (start : Start K V) (calls : List (Call K V))
    (key : K) (value : V) (isExact : (start.run order calls).Exact) :
    ∃ replies tree above id leaf, start.run order calls = pure (replies, tree) ∧
      tree.searchPath key = pure (above ++ [(id, .leaf leaf)]) ∧
      (tree.get key = pure none →
        ((∃ next, tree.insert key value = pure (none, next) ∧
            next.remove key = pure (some value, tree)) ↔
          leaf.keys.length + 1 < tree.order)) ∧
      (Holds tree.store tree.root key value →
        ((∃ next, tree.remove key = pure (some value, next) ∧
            next.insert key value = pure (none, tree)) ↔
          above = [] ∨ leastKeys tree.order < leaf.keys.length)) := by
  obtain ⟨tree, t, returned, represents, -⟩ := start.run_represents calls isExact
  obtain ⟨above, depthEq, pathEq⟩ := Tree.path_leafFor key t.sized t.ordered
  have keysEq : (Leaf.ofEntries (t.tree.leafFor key).body).keys.length =
      (t.tree.leafFor key).body.length := by simp [Leaf.ofEntries]
  have most := (t.leaf_length key).1
  refine ⟨_, tree, above, _, _, returned, by rw [represents.searchPath, pathEq], ?_, ?_⟩
  · intro absent
    rw [represents.get, Traced.pure_inj] at absent
    rw [represents.order_eq, keysEq]
    refine ⟨?_, represents.insert_undone absent⟩
    rintro ⟨next, inserted, removed⟩
    by_contra full
    exact represents.insert_not_undone absent (by omega) inserted removed
  · intro holds
    rw [represents.order_eq, keysEq, ← List.length_eq_zero_iff, depthEq]
    refine ⟨?_, fun spare => ?_⟩
    · rintro ⟨next, removed, inserted⟩
      by_contra poor
      exact represents.remove_not_undone (by omega) (by omega) removed inserted
    · exact represents.remove_undone (represents.holds.mp holds) (by omega)

/-- An absent key whose leaf has room, and a present one whose leaf has no key to
spare. -/
theorem run_undone_iff_small :
    ∃ replies tree,
      (Start.fromSorted [(1, 10), (2, 20), (3, 30), (4, 40)]).run 3 [.remove 3] =
        pure (replies, tree) ∧
      (∃ above id leaf, tree.searchPath 5 = pure (above ++ [(id, .leaf leaf)]) ∧
        ((∃ next, tree.insert 5 50 = pure (none, next) ∧
            next.remove 5 = pure (some 50, tree)) ↔
          leaf.keys.length + 1 < tree.order)) ∧
      ∃ above id leaf, tree.searchPath 4 = pure (above ++ [(id, .leaf leaf)]) ∧
        ((∃ next, tree.remove 4 = pure (some 40, next) ∧
            next.insert 4 40 = pure (none, tree)) ↔
          above = [] ∨ leastKeys tree.order < leaf.keys.length) := by
  obtain ⟨replies, tree, above, id, leaf, returned, searched, inserts, -⟩ :=
    run_undone_iff 3 (.fromSorted [(1, 10), (2, 20), (3, 30), (4, 40)]) [.remove 3] 5 50
      (by decide +kernel)
  obtain ⟨again, same, aboveFour, idFour, leafFour, ran, searchedFour, -, removes⟩ :=
    run_undone_iff 3 (.fromSorted [(1, 10), (2, 20), (3, 30), (4, 40)]) [.remove 3] 4 40
      (by decide +kernel)
  obtain ⟨-, rfl⟩ := Prod.mk.inj (Traced.pure_inj.mp (returned.symm.trans ran))
  obtain ⟨t, represents, entriesEq⟩ := Start.returned_represents returned
  have holds : Holds tree.store tree.root 4 40 := by
    rw [represents.holds, entriesEq]
    decide
  exact ⟨replies, tree, returned,
    ⟨above, id, leaf, searched, inserts (Start.run_get returned 5)⟩,
    aboveFour, idFour, leafFour, searchedFour, removes holds⟩

end Main

end IndexDb
