import IndexDb.CursorPaths
import IndexDb.Representation

/-!
# Cursors as positions

A cursor on a search tree stands at the index of an entry.  Stepping moves the
index by one and says whether it could, and two cursors are at the same place
exactly when their indices agree.
-/

namespace IndexDb

open LawfulNodeStore

variable {K V : Type}

namespace Tree

variable {h : Nat}

/-- The leaves of a tree, from left to right. -/
def leafList : {h : Nat} → Tree NodeId K V h → List (Tree NodeId K V 0)
  | 0, tree => [tree]
  | _ + 1, tree => tree.body.gather leafList

theorem leafList_labels (tree : Tree NodeId K V h) :
    (tree.leafList.map label).Sublist tree.labels := by
  induction h with
  | zero => exact .refl _
  | succ h ih =>
      rw [leafList, labels, Internal.gather, List.map_flatMap, Internal.gather]
      refine .cons _ ?_
      induction tree.body.children with
      | nil => exact .slnil
      | cons child children childIh => exact (ih child).append childIh

theorem leafList_entries (tree : Tree NodeId K V h) :
    tree.leafList.flatMap Labelled.body = tree.entries := by
  induction h with
  | zero => exact (List.flatMap_singleton _ _).trans (entries_leaf tree).symm
  | succ h ih =>
      rw [leafList, entries_node, Internal.gather, List.flatMap_assoc,
        Internal.gather]
      simp only [ih]

/-- A path picks one leaf out of the leaves. -/
theorem Leads.split {tree : Tree NodeId K V h} {path : List (Frame K)}
    {leaf : Tree NodeId K V 0} {before after : List (K × V)}
    (leads : tree.Leads path leaf before after) :
    ∃ left right, tree.leafList = left ++ leaf :: right ∧
      before = left.flatMap Labelled.body ∧
      after = right.flatMap Labelled.body := by
  induction leads with
  | leaf tree => exact ⟨[], [], rfl, rfl, rfl⟩
  | @node h tree hole child path leaf before after filled inner ih =>
      obtain ⟨left, right, listed, rfl, rfl⟩ := ih
      refine ⟨hole.leftChildren.flatMap leafList ++ left,
        right ++ hole.rightChildren.flatMap leafList, ?_, ?_, ?_⟩
      · rw [leafList, filled, hole.gather_fill, listed]
        simp
      · simp only [List.flatMap_append, List.flatMap_assoc, leafList_entries]
      · simp only [List.flatMap_append, List.flatMap_assoc, leafList_entries]

end Tree

/-- Two places in a list are the same, or one comes first. -/
theorem split_cases {α : Type} {left right left' right' : List α} {x x' : α}
    (equal : left ++ x :: right = left' ++ x' :: right') :
    (left = left' ∧ x = x') ∨ (∃ middle, left' = left ++ x :: middle) ∨
      ∃ middle, left = left' ++ x' :: middle := by
  rcases List.append_eq_append_iff.mp equal with
    ⟨middle, leftEq, rightEq⟩ | ⟨middle, leftEq, rightEq⟩
  · cases middle with
    | nil =>
        rw [List.append_nil] at leftEq
        exact .inl ⟨leftEq.symm, (List.cons.inj rightEq).1⟩
    | cons y middle =>
        obtain ⟨rfl, -⟩ := List.cons.inj rightEq
        exact .inr (.inl ⟨middle, leftEq⟩)
  · cases middle with
    | nil =>
        rw [List.append_nil] at leftEq
        exact .inl ⟨leftEq, (List.cons.inj rightEq).1.symm⟩
    | cons y middle =>
        obtain ⟨rfl, -⟩ := List.cons.inj rightEq
        exact .inr (.inr ⟨middle, leftEq⟩)

theorem Tree.leafRef_keys_length (leaf : Tree NodeId K V 0) :
    leaf.leafRef.leaf.keys.length = leaf.body.length :=
  List.length_map _

theorem Tree.leafRef_isEmpty (leaf : Tree NodeId K V 0) :
    leaf.leafRef.leaf.keys.isEmpty = leaf.body.isEmpty := by
  rw [Tree.leafRef, Leaf.ofEntries, List.isEmpty_map]

theorem label_ne_of_later {first middle rest : List (Tree NodeId K V 0)}
    {x y : Tree NodeId K V 0}
    (distinct : ((first ++ x :: middle ++ y :: rest).map Tree.label).Nodup) :
    x.label ≠ y.label := by
  simp only [List.map_append, List.map_cons, List.append_assoc, List.cons_append,
    List.nodup_append, List.nodup_cons] at distinct
  rintro equal
  exact distinct.2.1.1 (by simp [equal])

section Standing

variable [LE K] [LT K] {order : Nat}

/-- What cursors rely on while they borrow the store. -/
structure Browses (store : InMemoryStore K V) (t : SearchTree NodeId K V order) :
    Prop where
  stored : Stored store t.tree
  distinct : t.labels.Nodup
  enough : t.height < Cursor.fuel store

theorem BPlusTree.Represents.browses {tree : BPlusTree K V}
    {t : SearchTree NodeId K V order} (represents : tree.Represents t) :
    Browses tree.store t where
  stored := stored_owned represents.valid represents.owned
  distinct := represents.labels_nodup
  enough := represents.enough_fuel

/-- The cursor stands at the entry of that index. -/
def Cursor.StandsAt (cursor : Cursor K V) (store : InMemoryStore K V)
    (t : SearchTree NodeId K V order) (position : Nat) : Prop :=
  cursor.store = store ∧ ∃ leaf before after,
    t.tree.Leads cursor.path leaf before after ∧ cursor.leaf = leaf.leafRef ∧
    cursor.idx < leaf.body.length ∧ position = before.length + cursor.idx

namespace Cursor

variable {store : InMemoryStore K V} {t : SearchTree NodeId K V order}
  {cursor other : Cursor K V} {position otherPosition : Nat}

/-- The cursor reads the entry it stands at. -/
theorem StandsAt.current (stands : cursor.StandsAt store t position) :
    ∃ entry, t.entries[position]? = some entry ∧ cursor.current = pure entry ∧
      cursor.key = pure entry.1 := by
  obtain ⟨-, leaf, before, after, leads, leafEq, inside, rfl⟩ := stands
  have entriesEq : t.entries = before ++ leaf.body ++ after := leads.entries_eq
  have place := List.getElem?_eq_getElem inside
  have keyAt : cursor.leaf.leaf.keys[cursor.idx]? =
      some leaf.body[cursor.idx].1 := by
    rw [leafEq, Tree.leafRef, Leaf.ofEntries, List.getElem?_map, place]
    rfl
  have valAt : cursor.leaf.leaf.vals[cursor.idx]? =
      some leaf.body[cursor.idx].2 := by
    rw [leafEq, Tree.leafRef, Leaf.ofEntries, List.getElem?_map, place]
    rfl
  refine ⟨leaf.body[cursor.idx], ?_, ?_, Vec.get_eq_pure keyAt⟩
  · rw [entriesEq, List.append_assoc, List.getElem?_append_right (by omega),
      Nat.add_sub_cancel_left, List.getElem?_append_left inside, place]
  · rw [Cursor.current, Vec.get_eq_pure keyAt, pure_bind, Vec.get_eq_pure valAt,
      pure_bind]

/-- Cursors are at the same place exactly when their positions agree. -/
theorem StandsAt.samePosition (browses : Browses store t)
    (stands : cursor.StandsAt store t position)
    (otherStands : other.StandsAt store t otherPosition) :
    cursor.samePosition other = decide (position = otherPosition) := by
  obtain ⟨-, leaf, before, after, leads, leafEq, inside, rfl⟩ := stands
  obtain ⟨-, leaf', before', after', leads', leafEq', inside', rfl⟩ := otherStands
  obtain ⟨left, right, listed, rfl, rfl⟩ := leads.split
  obtain ⟨left', right', listed', rfl, rfl⟩ := leads'.split
  have distinct : (t.tree.leafList.map Tree.label).Nodup :=
    browses.distinct.sublist (Tree.leafList_labels t.tree)
  simp only [Cursor.samePosition, leafEq, leafEq', Tree.leafRef]
  rcases split_cases (listed.symm.trans listed') with
    ⟨rfl, rfl⟩ | ⟨middle, rfl⟩ | ⟨middle, rfl⟩
  · simp
  · have different : leaf.label ≠ leaf'.label := by
      rw [listed'] at distinct
      exact label_ne_of_later distinct
    rw [decide_eq_false different, Bool.false_and]
    refine (decide_eq_false ?_).symm
    simp only [List.flatMap_append, List.flatMap_cons, List.length_append]
    omega
  · have different : leaf'.label ≠ leaf.label := by
      rw [listed] at distinct
      exact label_ne_of_later distinct
    rw [decide_eq_false different.symm, Bool.false_and]
    refine (decide_eq_false ?_).symm
    simp only [List.flatMap_append, List.flatMap_cons, List.length_append]
    omega

theorem StandsAt.lt_length (stands : cursor.StandsAt store t position) :
    position < t.entries.length := by
  obtain ⟨entry, found, -⟩ := stands.current
  exact (List.getElem?_eq_some_iff.mp found).1

/-- A step forward moves to the next entry, unless there is none. -/
theorem StandsAt.stepForward (browses : Browses store t)
    (stands : cursor.StandsAt store t position) :
    (∃ next, cursor.stepForward = pure (true, next) ∧
      next.StandsAt store t (position + 1)) ∨
    position + 1 = t.entries.length ∧
      ∃ next, cursor.stepForward = pure (false, next) := by
  obtain ⟨storeEq, leaf, before, after, leads, leafEq, inside, rfl⟩ := stands
  have entriesEq : t.entries = before ++ leaf.body ++ after := leads.entries_eq
  have keysLength : cursor.leaf.leaf.keys.length = leaf.body.length := by
    rw [leafEq, leaf.leafRef_keys_length]
  rw [Cursor.stepForward, keysLength]
  by_cases more : cursor.idx + 1 < leaf.body.length
  · rw [if_pos more]
    exact .inl ⟨_, rfl, storeEq, leaf, before, after, leads, leafEq, more,
      Nat.add_assoc _ _ _⟩
  · rw [if_neg more]
    have climb := ascendForward_leads (leastKeys_pos t.large) leads browses.stored
      t.sized t.ordered browses.enough storeEq []
    rw [List.append_nil] at climb
    rcases climb with ⟨rfl, climbed⟩ |
      ⟨newPath, newLeaf, rest, newLeads, some, rfl, arrived⟩
    · refine .inr ⟨?_, _, climbed⟩
      simp only [entriesEq, List.length_append, List.length_nil]
      omega
    · refine .inl ⟨_, arrived, storeEq, newLeaf, before ++ leaf.body, rest, ?_,
        rfl, some, ?_⟩
      · rw [List.append_nil]
        exact newLeads
      · simp only [List.length_append]
        omega

/-- A step backward moves to the previous entry, unless there is none. -/
theorem StandsAt.stepBackward (browses : Browses store t)
    (stands : cursor.StandsAt store t position) :
    (∃ next previous, cursor.stepBackward = pure (true, next) ∧
      position = previous + 1 ∧ next.StandsAt store t previous) ∨
    position = 0 ∧ ∃ next, cursor.stepBackward = pure (false, next) := by
  obtain ⟨storeEq, leaf, before, after, leads, leafEq, inside, rfl⟩ := stands
  rw [Cursor.stepBackward]
  by_cases more : cursor.idx > 0
  · rw [if_pos more, checkedSub_of_le more, pure_bind]
    exact .inl ⟨_, before.length + (cursor.idx - 1), rfl, by omega, storeEq, leaf,
      before, after, leads, leafEq, by dsimp only; omega, rfl⟩
  · rw [if_neg more]
    have climb := ascendBackward_leads (leastKeys_pos t.large) leads browses.stored
      t.sized t.ordered browses.enough storeEq []
    rw [List.append_nil] at climb
    rcases climb with ⟨rfl, climbed⟩ |
      ⟨newPath, newLeaf, front, newLeads, some, rfl, arrived⟩
    · exact .inr ⟨by simp only [List.length_nil]; omega, _, climbed⟩
    · refine .inl ⟨_, front.length + (newLeaf.body.length - 1), arrived, ?_,
        storeEq, newLeaf, front, leaf.body ++ after, ?_, rfl, ?_, rfl⟩
      · simp only [List.length_append]
        omega
      · rw [List.append_nil]
        exact newLeads
      · dsimp only
        omega

end Cursor

end Standing

end IndexDb
