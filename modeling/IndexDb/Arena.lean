import IndexDb.WellFormed

/-!
# The node arena

The reachable ids form a tree, and together with the free list they account
for every slot of the slab.  A child slot of the tree is a parent with an
index, and listing the slots lists every node but the root once.
-/

namespace IndexDb

variable {K V : Type}

/-- Ids, slots and the free list after a call. -/
structure BPlusTree.ArenaIntact (tree : BPlusTree K V) : Prop where
  rootApart : ∀ parent i, Reaches tree.store tree.root parent →
    ¬ ChildSlot tree.store parent i tree.root
  oneSlot : ∀ id, Reaches tree.store tree.root id → id ≠ tree.root →
    ∃! slot : NodeId × Nat, Reaches tree.store tree.root slot.1 ∧
      ChildSlot tree.store slot.1 slot.2 id
  inside : ∀ id, Reaches tree.store tree.root id →
    id.slot < tree.store.slab.length
  distinct : tree.store.free.Nodup
  disjoint : ∀ id ∈ tree.store.free, ¬ Reaches tree.store tree.root id
  covered : ∀ slot < tree.store.slab.length, ∃ id : NodeId, id.slot = slot ∧
    (Reaches tree.store tree.root id ∨ id ∈ tree.store.free)
  vacant : ∀ id ∈ tree.store.free,
    tree.store.slab[id.slot]? = some Node.emptyLeaf

section Slots

variable {L : Type} {h : Nat}

/-- Every child in the tree, with the label of its parent and its index. -/
def Tree.slots : {h : Nat} → Tree L K V h → List ((L × Nat) × L)
  | 0, _ => []
  | h + 1, tree =>
      (tree.body.children.mapIdx fun i child =>
        ((Tree.label (h := h + 1) tree, i), child.label)) ++
        tree.body.gather slots

theorem Tree.slots_perm (tree : Tree L K V h) :
    (tree.label :: tree.slots.map Prod.snd).Perm tree.labels := by
  induction h with
  | zero => exact .refl _
  | succ h ih =>
      have own : (tree.body.children.mapIdx fun i child =>
          ((tree.label, i), child.label)).map Prod.snd =
          tree.body.children.map label := by
        refine List.ext_getElem (by simp) fun i _ _ => ?_
        rw [List.getElem_map, List.getElem_mapIdx, List.getElem_map]
      have rest : (tree.body.children.map label ++
          tree.body.children.flatMap fun child => child.slots.map Prod.snd).Perm
          (tree.body.children.flatMap labels) :=
        (List.map_append_flatMap_perm _ _ _).trans
          (List.Perm.flatMap_left _ fun child _ => ih child)
      rw [slots, List.map_append, own, Internal.gather, List.map_flatMap]
      exact rest.cons tree.label

theorem Tree.mem_slots {tree : Tree L K V h} {parent child : L} {i : Nat} :
    ((parent, i), child) ∈ tree.slots ↔
      ∃ (k : Nat) (sub : Tree L K V (k + 1)), ⟨k + 1, sub⟩ ∈ tree.subtrees ∧
        sub.label = parent ∧
        ∃ inner, sub.body.children[i]? = some inner ∧ inner.label = child := by
  induction h with
  | zero =>
      constructor
      · intro member
        cases member
      · rintro ⟨k, sub, member, -⟩
        cases mem_subtrees_leaf.mp member
  | succ h ih =>
      rw [slots, List.mem_append, Internal.gather, List.mem_flatMap,
        List.mem_mapIdx]
      constructor
      · rintro (⟨j, inside, equal⟩ | ⟨next, found, member⟩)
        · cases equal
          exact ⟨h, tree, self_mem_subtrees tree, rfl, _,
            List.getElem?_eq_getElem inside, rfl⟩
        · obtain ⟨k, sub, deeper, rest⟩ := ih.mp member
          exact ⟨k, sub, mem_subtrees_node.mpr (.inr ⟨next, found, deeper⟩), rest⟩
      · rintro ⟨k, sub, member, rfl, inner, found, rfl⟩
        rcases mem_subtrees_node.mp member with equal | ⟨next, nextFound, deeper⟩
        · cases equal
          obtain ⟨inside, equal⟩ := List.getElem?_eq_some_iff.mp found
          exact .inl ⟨i, inside, by rw [equal]⟩
        · exact .inr ⟨next, nextFound,
            ih.mpr ⟨k, sub, deeper, rfl, inner, found, rfl⟩⟩

end Slots

section Represented

variable [Preorder K] {order : Nat} {tree : BPlusTree K V}
  {t : SearchTree NodeId K V order}

open BPlusTree

/-- The slots of the tree are the child slots of the store. -/
theorem BPlusTree.Represents.slots (represents : tree.Represents t)
    {slot : NodeId × Nat} {child : NodeId} :
    (slot, child) ∈ t.tree.slots ↔
      Reaches tree.store tree.root slot.1 ∧
        ChildSlot tree.store slot.1 slot.2 child := by
  obtain ⟨parent, i⟩ := slot
  rw [Tree.mem_slots]
  constructor
  · rintro ⟨k, sub, member, rfl, found⟩
    exact ⟨represents.reaches.mpr ⟨_, member, rfl⟩,
      (childSlot_stored (represents.stored.subtree member)).mpr found⟩
  · rintro ⟨reached, taken⟩
    obtain ⟨⟨k, sub⟩, member, rfl⟩ := represents.reaches.mp reached
    have subStored := represents.stored.subtree member
    cases k with
    | zero => exact absurd taken (not_childSlot_leaf subStored)
    | succ k => exact ⟨k, sub, member, rfl, (childSlot_stored subStored).mp taken⟩

theorem BPlusTree.Represents.arenaIntact (represents : tree.Represents t) :
    tree.ArenaIntact := by
  have valid : InMemoryStore.Valid tree.store := represents.valid
  have distinct : (t.root :: t.tree.slots.map Prod.snd).Nodup :=
    t.tree.slots_perm.nodup_iff.mpr represents.labels_nodup
  obtain ⟨rootNotChild, childrenDistinct⟩ := List.nodup_cons.mp distinct
  have reachesLabel {id : NodeId} :
      Reaches tree.store tree.root id ↔ id ∈ t.labels := by
    rw [represents.reaches]
    exact Tree.mem_labels.symm
  refine ⟨?_, ?_, ?_, valid.distinct, ?_, ?_, valid.vacant⟩
  · intro parent i reached taken
    rw [represents.root_eq] at taken
    exact rootNotChild (List.mem_map.mpr
      ⟨((parent, i), t.root), represents.slots.mpr ⟨reached, taken⟩, rfl⟩)
  · intro id reached different
    have listed : id ∈ t.root :: t.tree.slots.map Prod.snd :=
      t.tree.slots_perm.mem_iff.mpr (reachesLabel.mp reached)
    rw [represents.root_eq] at different
    obtain ⟨⟨slot, child⟩, member, rfl⟩ :=
      List.mem_map.mp ((List.mem_cons.mp listed).resolve_left different)
    refine ⟨slot, represents.slots.mp member, ?_⟩
    intro other taken
    have otherMember := represents.slots.mpr taken
    exact congrArg Prod.fst
      (List.inj_on_of_nodup_map childrenDistinct otherMember member rfl)
  · intro id reached
    exact (represents.label_live (reachesLabel.mp reached)).2
  · intro id isFree reached
    exact (represents.label_live (reachesLabel.mp reached)).1 isFree
  · intro slot inside
    obtain ⟨id, member, slotEq⟩ := List.mem_map.mp
      (represents.slots_perm.mem_iff.mpr (List.mem_range.mpr inside))
    refine ⟨id, slotEq, ?_⟩
    exact (List.mem_append.mp member).imp_left reachesLabel.mpr

end Represented

section Main

variable [LinearOrder K]

/-- The arena is intact after every run. -/
theorem run_arenaIntact (order : Nat) (start : Start K V) (calls : List (Call K V))
    (isExact : (start.run order calls).Exact) :
    ∃ replies tree, start.run order calls = pure (replies, tree) ∧
      tree.ArenaIntact := by
  obtain ⟨tree, t, returned, represents, -⟩ := start.run_represents calls isExact
  exact ⟨_, tree, returned, represents.arenaIntact⟩

theorem run_arenaIntact_small :
    ∃ replies tree, (Start.fromSorted [(1, 10), (2, 20), (3, 30)]).run 3
        [.insert 4 40, .remove 1, .remove 2] = pure (replies, tree) ∧
      tree.ArenaIntact :=
  run_arenaIntact 3 (.fromSorted [(1, 10), (2, 20), (3, 30)])
    [.insert 4 40, .remove 1, .remove 2] (by decide +kernel)

end Main

end IndexDb
