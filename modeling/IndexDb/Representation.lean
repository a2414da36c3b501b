import IndexDb.BPlusTree
import IndexDb.InMemoryLaws
import IndexDb.StoredBulk
import IndexDb.StoredInsert
import IndexDb.StoredRemove

/-!
# The public tree represents a search tree

The root of a public tree unfolds to a search tree with as many entries as the
tree counts, and every slot in use holds a node of it.  Each operation returns
what it returns on the search tree and keeps the representation.
-/

namespace IndexDb

open LawfulNodeStore
open Relation (ReflTransGen)

variable {K V : Type}

namespace BPlusTree

/-- The root unfolds to `t`, and no other slot is in use. -/
structure Represents [LE K] [LT K] {order : Nat} (tree : BPlusTree K V)
    (t : SearchTree NodeId K V order) : Prop where
  root_eq : tree.root = t.root
  order_eq : tree.order = order
  len_eq : tree.len = t.entries.length
  valid : Valid tree.store
  owned : Owned (view tree.store) t.cells
  complete : ∀ id, view tree.store id ≠ none → id ∈ t.labels

theorem minKeys_eq {tree : BPlusTree K V} (large : 3 ≤ tree.order) :
    tree.minKeys = pure (leastKeys tree.order) := by
  rw [BPlusTree.minKeys, divCeil, if_neg (by omega), pure_bind,
    checkedSub_of_le (by omega)]
  rfl

section Slots

variable [LE K] [LT K] {order : Nat} {tree : BPlusTree K V}
  {t : SearchTree NodeId K V order}

theorem Represents.labels_nodup (represents : tree.Represents t) :
    t.labels.Nodup := by
  rw [← SearchTree.cells_names]
  exact represents.owned.nodup

theorem Represents.label_live (represents : tree.Represents t) {id : NodeId}
    (member : id ∈ t.labels) :
    id ∉ tree.store.free ∧ id.slot < tree.store.slab.length := by
  rw [← SearchTree.cells_names] at member
  obtain ⟨cell, found, rfl⟩ := List.mem_map.mp member
  have live := represents.owned.resolves cell found
  exact ⟨(InMemoryStore.view_eq_some.mp live).1, InMemoryStore.slot_lt live⟩

/-- Every slot is that of a node of the tree or of a free id, and of one only. -/
theorem Represents.slots_perm (represents : tree.Represents t) :
    ((t.labels ++ tree.store.free).map NodeId.slot).Perm
      (List.range tree.store.slab.length) := by
  have valid : InMemoryStore.Valid tree.store := represents.valid
  have injective : Function.Injective NodeId.slot := fun first second equal =>
    NodeId.slot_inj.mp equal
  have distinct : (t.labels ++ tree.store.free).Nodup := by
    refine List.nodup_append.mpr ⟨represents.labels_nodup, valid.distinct, ?_⟩
    rintro id member other isFree rfl
    exact (represents.label_live member).1 isFree
  refine (List.perm_ext_iff_of_nodup (distinct.map injective)
    List.nodup_range).mpr fun slot => ?_
  simp only [List.mem_map, List.mem_append, List.mem_range]
  constructor
  · rintro ⟨id, member | isFree, rfl⟩
    · exact (represents.label_live member).2
    · exact (List.getElem?_eq_some_iff.mp (valid.vacant id isFree)).1
  · intro inside
    have small : slot < UInt32.size := Nat.lt_of_lt_of_le inside valid.addressable
    have slotEq : (⟨UInt32.ofNat slot⟩ : NodeId).slot = slot := by
      simpa [NodeId.slot] using Nat.mod_eq_of_lt small
    refine ⟨⟨UInt32.ofNat slot⟩, ?_, slotEq⟩
    by_cases isFree : (⟨UInt32.ofNat slot⟩ : NodeId) ∈ tree.store.free
    · exact .inr isFree
    · refine .inl (represents.complete _ ?_)
      change InMemoryStore.view tree.store _ ≠ none
      simp only [InMemoryStore.view, if_neg isFree, slotEq,
        List.getElem?_eq_getElem inside]
      simp

theorem Represents.slab_length (represents : tree.Represents t) :
    tree.store.slab.length = t.size + tree.store.free.length := by
  have counted := represents.slots_perm.length_eq
  rw [List.length_map, List.length_append, List.length_range] at counted
  exact counted.symm

/-- The slab has a slot for every node on a descent. -/
theorem Represents.enough_fuel (represents : tree.Represents t) :
    t.height < tree.fuel := by
  have deep := t.height_lt_size
  have slots := represents.slab_length
  unfold fuel
  omega

/-- A store with room for all nodes of a tree has room for those to come. -/
theorem Represents.room (represents : tree.Represents t) {n : Nat}
    (fits : t.size + n ≤ UInt32.size) : Room tree.store n := by
  have slots := represents.slab_length
  have valid : InMemoryStore.Valid tree.store := represents.valid
  have bound := valid.addressable
  change n ≤ tree.store.free.length + (UInt32.size - tree.store.slab.length)
  omega

/-- A rewriting of all cells leaves no other slot in use. -/
theorem Represents.rewritten (represents : tree.Represents t) {grow : Bool}
    {store : InMemoryStore K V} {newOrder n : Nat}
    {new : SearchTree NodeId K V newOrder}
    (change : Rewrites grow tree.store store t.cells new.cells n) :
    Represents ⟨new.root, store, newOrder, new.entries.length⟩ new where
  root_eq := rfl
  order_eq := rfl
  len_eq := rfl
  valid := change.valid
  owned := change.owned
  complete := by
    intro id live
    by_contra notNew
    rw [← SearchTree.cells_names] at notNew
    by_cases isOld : id ∈ t.labels
    · rw [← SearchTree.cells_names] at isOld
      exact live (change.transforms.freed id isOld notNew)
    · have notOld := isOld
      rw [← SearchTree.cells_names] at notOld
      rw [change.transforms.frame id notOld notNew] at live
      exact isOld (represents.complete id live)

theorem Represents.minKeys (represents : tree.Represents t) :
    tree.minKeys = pure (leastKeys order) := by
  obtain rfl := represents.order_eq
  exact minKeys_eq t.large

end Slots

section Operations

variable [Preorder K] [Std.IsLinearPreorder K] [DecidableLT K] {order : Nat}
  {tree : BPlusTree K V} {t : SearchTree NodeId K V order}

theorem Represents.get (represents : tree.Represents t) (key : K) :
    tree.get key = pure (Entries.lookup key t.entries) := by
  rw [BPlusTree.get, represents.root_eq]
  exact get_refines represents.valid represents.owned t.sized t.ordered key
    represents.enough_fuel

theorem Represents.containsKey (represents : tree.Represents t) (key : K) :
    tree.containsKey key = pure (Entries.lookup key t.entries).isSome := by
  rw [BPlusTree.containsKey, represents.get, pure_bind]

/-- Insertion into the tree is insertion into the search tree, whose new nodes
get the ids that the store hands out. -/
theorem Represents.insert (represents : tree.Represents t) (key : K) (value : V)
    (room : Room tree.store (t.allocations key value) ∨
      (tree.insert key value).Exact) :
    ∃ fresh next, tree.insert key value =
        pure ((t.insert fresh key value).1, next) ∧
      next.Represents (t.insert fresh key value).2 ∧
      ReflTransGen (Shift true) tree.store next.store := by
  obtain rfl := represents.order_eq
  have innerRoom : Room tree.store (t.allocations key value) ∨
      (Ops.insert tree.fuel tree.store t.root key value tree.order).Exact := by
    refine room.imp id fun isExact => ?_
    rw [BPlusTree.insert, represents.root_eq] at isExact
    exact isExact.first
  obtain ⟨fresh, store, inserted, change⟩ := insert_refines t represents.valid
    represents.owned key value represents.enough_fuel innerRoom
  refine ⟨fresh, _, ?_, represents.rewritten change, change.path⟩
  have lengthEq : (Entries.insert key value t.entries).length = _ :=
    Entries.length_insert t.ascending value
  rw [BPlusTree.insert, represents.root_eq, inserted, pure_bind]
  dsimp only
  rw [t.insert_entries, lengthEq, t.insert_displaced, represents.len_eq]

/-- Removal from the tree is removal from the search tree. -/
theorem Represents.remove (represents : tree.Represents t) (key : K) :
    ∃ next, tree.remove key = pure ((t.remove key).1, next) ∧
      next.Represents (t.remove key).2 ∧
      ReflTransGen (Shift false) tree.store next.store := by
  obtain rfl := represents.order_eq
  obtain ⟨store, removed, change⟩ := remove_refines t represents.valid
    represents.owned key represents.enough_fuel
  refine ⟨_, ?_, represents.rewritten change, change.path⟩
  have lengthEq : (Entries.erase key t.entries).length = _ :=
    Entries.length_erase t.ascending
  rw [BPlusTree.remove, represents.minKeys, pure_bind, represents.root_eq,
    removed, pure_bind]
  dsimp only
  rw [t.remove_entries, lengthEq, t.remove_removed, represents.len_eq]
  split_ifs with found
  · have some : 0 < t.entries.length := by
      refine List.length_pos_iff.mpr fun empty => ?_
      simp [empty, Entries.lookup] at found
    rw [checkedSub_of_le some, pure_bind]
  · rfl

end Operations

section Starting

/-- A root without entries in a fresh store. -/
def empty (order : Nat) : BPlusTree K V where
  root := ⟨0⟩
  store := ⟨[Node.emptyLeaf], []⟩
  order := order
  len := 0

theorem withOrder_eq (order : Nat) :
    (withOrder order : Run (BPlusTree K V)) = pure (empty (max order minOrder)) :=
  rfl

theorem clear_eq (tree : BPlusTree K V) : tree.clear = pure (empty tree.order) :=
  rfl

theorem empty_represents [LE K] [LT K] {order : Nat} (large : 3 ≤ order) :
    (empty order : BPlusTree K V).Represents (SearchTree.empty large ⟨0⟩) where
  root_eq := rfl
  order_eq := rfl
  len_eq := rfl
  valid := ⟨List.nodup_nil, by simp [empty], by simp [empty, UInt32.size]⟩
  owned := by
    refine ⟨fun cell member => ?_, List.nodup_singleton _⟩
    rcases List.mem_singleton.mp member with rfl
    rfl
  complete := by
    intro id live
    obtain ⟨node, found⟩ := Option.ne_none_iff_exists'.mp live
    have inside : id.slot < 1 := InMemoryStore.slot_lt found
    have first : id = ⟨0⟩ := NodeId.slot_inj.mp (Nat.lt_one_iff.mp inside)
    exact List.mem_singleton.mpr first

/-- Cells allocated in a new store are all that is in use. -/
theorem represents_new [LE K] [LT K] {order n : Nat} {grow : Bool}
    {store : InMemoryStore K V} {t : SearchTree NodeId K V order}
    (change : Rewrites grow InMemoryStore.new store [] t.cells n) :
    Represents ⟨t.root, store, order, t.entries.length⟩ t where
  root_eq := rfl
  order_eq := rfl
  len_eq := rfl
  valid := change.valid
  owned := change.owned
  complete := by
    intro id live
    by_contra notNew
    rw [← SearchTree.cells_names] at notNew
    rw [change.transforms.frame id (by simp) notNew] at live
    exact live rfl

theorem ascending_iff [Preorder K] [DecidableLT K] {entries : List (K × V)} :
    ascending entries = true ↔ Ascending entries := by
  have chain : ascending entries = true ↔
      entries.IsChain fun first second => first.1 < second.1 := by
    induction entries with
    | nil => simp [ascending]
    | cons first rest ih =>
        cases rest with
        | nil => simp [ascending]
        | cons second rest => simp [ascending, ih]
  rw [chain, Ascending, List.isChain_iff_pairwise]

variable [Preorder K] [Std.IsLinearPreorder K] [DecidableLT K] {order : Nat}

/-- The fallback for entries out of order inserts them one by one. -/
theorem Represents.insertAll {entries : List (K × V)} {tree : BPlusTree K V}
    {t : SearchTree NodeId K V order} (represents : tree.Represents t)
    (isExact : (tree.insertAll entries).Exact) :
    ∃ (next : BPlusTree K V) (t' : SearchTree NodeId K V order),
      tree.insertAll entries = pure next ∧ next.Represents t' ∧
      t'.entries = Entries.insertAll entries t.entries ∧
      ReflTransGen (Shift true) tree.store next.store := by
  induction entries generalizing tree t with
  | nil => exact ⟨tree, t, rfl, represents, rfl, .refl⟩
  | cons entry entries ih =>
      obtain ⟨key, value⟩ := entry
      rw [BPlusTree.insertAll] at isExact ⊢
      obtain ⟨fresh, middle, inserted, middleRepresents, path⟩ :=
        represents.insert key value (.inr isExact.first)
      rw [inserted, pure_bind] at isExact ⊢
      obtain ⟨next, t', finished, nextRepresents, entriesEq, rest⟩ :=
        ih middleRepresents isExact
      refine ⟨next, t', finished, nextRepresents, ?_, path.trans rest⟩
      rw [entriesEq, t.insert_entries]
      rfl

/-- Building from entries holds the entries, a later one in place of an earlier
one with its key, in a slab without free slots. -/
theorem fromSortedWithOrder_represents {entries : List (K × V)}
    (isExact : (fromSortedWithOrder entries order).Exact) :
    ∃ (tree : BPlusTree K V) (t : SearchTree NodeId K V (max order minOrder)),
      fromSortedWithOrder entries order = pure tree ∧ tree.Represents t ∧
      t.entries = Entries.insertAll entries [] ∧ tree.store.free = [] := by
  have large : 3 ≤ max order minOrder := Nat.le_max_right order minOrder
  unfold fromSortedWithOrder at isExact ⊢
  dsimp only at isExact ⊢
  by_cases sorted : ascending entries
  · rw [if_pos sorted] at isExact ⊢
    have ascends := ascending_iff.mp sorted
    have valid : Valid (InMemoryStore.new : InMemoryStore K V) :=
      InMemoryStore.valid_new
    obtain ⟨t, store, loaded, shapeEq, change⟩ :=
      bulkLoad_refines large ascends valid (.inr isExact.first)
    have entriesEq : t.entries = entries := by
      rw [← SearchTree.bulk_entries large ascends, ← shapeEq, SearchTree.shape,
        SearchTree.relabel_entries]
    refine ⟨_, t, ?_, represents_new change, ?_,
      (InMemoryStore.grows_path change.path).drained rfl⟩
    · rw [loaded, pure_bind, entriesEq]
    · rw [entriesEq, Entries.insertAll_of_ascending ascends]
  · rw [if_neg sorted, withOrder_eq, pure_bind,
      max_eq_left (show minOrder ≤ max order minOrder from large)] at isExact ⊢
    obtain ⟨tree, t, inserted, represents, entriesEq, path⟩ :=
      (empty_represents large).insertAll isExact
    exact ⟨tree, t, inserted, represents, entriesEq,
      (InMemoryStore.grows_path path).drained rfl⟩

end Starting

end BPlusTree

end IndexDb
