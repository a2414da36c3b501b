import IndexDb.CursorBounds
import IndexDb.WellFormed

/-!
# Cursor steps on reachable trees

A valid cursor is described on the store alone, by the path its stack records.
On a tree that a run leaves, the valid cursors are those that stand at an entry,
and exactly one cursor stands at each.  So a step and the step back return the
very same cursor.
-/

namespace IndexDb

variable {K V : Type}

section Definitions

/-- The stack is a path down from the root: the nodes on it, and the indices of
the children taken. -/
inductive Follows (store : InMemoryStore K V) (root : NodeId) :
    List (Frame K) → NodeId → Prop
  | root : Follows store root [] root
  | down {path : List (Frame K)} {id child : NodeId} {node : Internal K NodeId}
      {ci : Nat} (rest : Follows store root path id)
      (got : NodeStore.get store id = pure (.internal node))
      (taken : node.children[ci]? = some child) :
      Follows store root ((node, ci) :: path) child

/-- The cursor stands at an entry of the leaf that its path leads to. -/
structure Cursor.ValidOn (cursor : Cursor K V) (tree : BPlusTree K V) : Prop where
  store_eq : cursor.store = tree.store
  follows : Follows tree.store tree.root cursor.path cursor.leaf.address
  leaf_got : NodeStore.get tree.store cursor.leaf.address = pure (.leaf cursor.leaf.leaf)
  inside : cursor.idx < cursor.leaf.leaf.keys.length

variable [LE K] [LT K]

/-- The stored entry comes next after the key. -/
structure BPlusTree.Succeeds (tree : BPlusTree K V) (key : K) (entry : K × V) :
    Prop where
  held : Holds tree.store tree.root entry.1 entry.2
  above : key < entry.1
  least : ∀ other value, Holds tree.store tree.root other value → key < other →
    entry.1 ≤ other

/-- The stored entry comes last before the key. -/
structure BPlusTree.Precedes (tree : BPlusTree K V) (key : K) (entry : K × V) :
    Prop where
  held : Holds tree.store tree.root entry.1 entry.2
  below : entry.1 < key
  greatest : ∀ other value, Holds tree.store tree.root other value → other < key →
    other ≤ entry.1

/-- Steps in both directions are exact, and undo each other. -/
structure BPlusTree.StepsFrom (tree : BPlusTree K V) (cursor : Cursor K V) (key : K) :
    Prop where
  forward : ∃ moved next, cursor.stepForward = pure (moved, next) ∧
    (moved = true ↔ ∃ entry, tree.Succeeds key entry) ∧
    (moved = true → next.ValidOn tree ∧
      (∃ entry, next.current = pure entry ∧ tree.Succeeds key entry) ∧
      next.stepBackward = pure (true, cursor))
  backward : ∃ moved next, cursor.stepBackward = pure (moved, next) ∧
    (moved = true ↔ ∃ entry, tree.Precedes key entry) ∧
    (moved = true → next.ValidOn tree ∧
      (∃ entry, next.current = pure entry ∧ tree.Precedes key entry) ∧
      next.stepForward = pure (true, cursor))

end Definitions

section Paths

variable {store : InMemoryStore K V} {h : Nat}

theorem Follows.under {root child target : NodeId} {node : Internal K NodeId} {ci : Nat}
    {path : List (Frame K)} (follows : Follows store child path target)
    (got : NodeStore.get store root = pure (.internal node))
    (taken : node.children[ci]? = some child) :
    Follows store root (path ++ [(node, ci)]) target := by
  induction follows with
  | root => exact .down .root got taken
  | down rest innerGot innerTaken ih => exact .down ih innerGot innerTaken

theorem Tree.Leads.follows {tree : Tree NodeId K V h} {path : List (Frame K)}
    {leaf : Tree NodeId K V 0} {before after : List (K × V)}
    (leads : tree.Leads path leaf before after) (stored : Stored store tree) :
    Follows store tree.label path leaf.label := by
  induction leads with
  | leaf tree => exact .root
  | @node h tree hole child path leaf before after filled inner ih =>
      exact (ih (stored.child (Hole.mem_of_fill filled))).under
        (stored _ (Tree.self_mem_subtrees tree)) (Tree.label_getElem? filled)

/-- A recorded path leads to a subtree, and on to the leaves under it. -/
theorem Follows.leads {order minKeys least : Nat} {tree : Tree NodeId K V h}
    {path : List (Frame K)} {id : NodeId} (follows : Follows store tree.label path id)
    (stored : Stored store tree) (sized : tree.Sized order minKeys least) :
    ∃ (k : Nat) (sub : Tree NodeId K V k), ⟨k, sub⟩ ∈ tree.subtrees ∧ sub.label = id ∧
      ∀ below leaf before after, sub.Leads below leaf before after →
        ∃ earlier later, tree.Leads (below ++ path) leaf earlier later := by
  generalize rootEq : tree.label = root at follows
  induction follows with
  | root =>
      refine ⟨h, tree, Tree.self_mem_subtrees tree, rootEq, ?_⟩
      intro below leaf before after leads
      rw [List.append_nil]
      exact ⟨before, after, leads⟩
  | @down path id child node ci rest got taken ih =>
      obtain ⟨k, sub, member, rfl, continues⟩ := ih
      rw [stored _ member, Traced.pure_inj] at got
      cases k with
      | zero => cases got
      | succ k =>
          obtain rfl := Node.internal.inj got
          have forked : sub.body.Forked := by
            rcases sized.subtree member with equal | legal
            · cases equal
              exact sized.forked
            · exact legal.forked
          rw [Internal.map, List.getElem?_map, Option.map_eq_some_iff] at taken
          obtain ⟨inner, innerAt, rfl⟩ := taken
          have inside : ci ≤ sub.body.keys.length := by
            have bound := (List.getElem?_eq_some_iff.mp innerAt).1
            rw [forked] at bound
            exact Nat.le_of_lt_succ bound
          obtain ⟨hole, filler, filled, rfl⟩ := Hole.exists_fill forked inside
          obtain rfl : filler = inner := by simpa [filled] using innerAt
          refine ⟨k, filler, Tree.subtrees_trans member
            (Tree.child_mem_subtrees (Hole.mem_of_fill filled)), rfl, ?_⟩
          intro below leaf before after leads
          obtain ⟨earlier, later, whole⟩ := continues _ _ _ _ (.node filled leads)
          rw [List.append_assoc] at whole
          exact ⟨earlier, later, whole⟩

theorem Hole.eq_of_fill {Child : Type} {hole hole' : Hole K Child} {child child' : Child}
    (equal : hole.fill child = hole'.fill child')
    (sameLeft : hole.leftChildren = hole'.leftChildren) :
    hole = hole' ∧ child = child' := by
  obtain ⟨keysEq, childrenEq⟩ := Internal.mk.inj equal
  have leftLength : hole.leftKeys.length = hole'.leftKeys.length := by
    rw [hole.left_even, hole'.left_even, sameLeft]
  obtain ⟨leftKeysEq, rightKeysEq⟩ := List.append_inj keysEq leftLength
  rw [sameLeft, List.append_cancel_left_eq] at childrenEq
  obtain ⟨childEq, rightEq⟩ := List.cons.inj childrenEq
  refine ⟨?_, childEq⟩
  cases hole
  cases hole'
  simp only [Hole.mk.injEq]
  exact ⟨leftKeysEq, sameLeft, rightKeysEq, rightEq⟩

theorem Tree.Leads.length_le {tree : Tree NodeId K V h} {path : List (Frame K)}
    {leaf : Tree NodeId K V 0} {before after : List (K × V)}
    (leads : tree.Leads path leaf before after) :
    before.length + leaf.body.length ≤ tree.entries.length := by
  rw [leads.entries_eq]
  simp only [List.length_append]
  omega

/-- Only one path leads to the leaf around a position. -/
theorem Tree.Leads.unique {tree : Tree NodeId K V h} {path path' : List (Frame K)}
    {leaf leaf' : Tree NodeId K V 0} {before before' after after' : List (K × V)}
    (leads : tree.Leads path leaf before after)
    (leads' : tree.Leads path' leaf' before' after') {position : Nat}
    (reached : before.length ≤ position)
    (inside : position < before.length + leaf.body.length)
    (reached' : before'.length ≤ position)
    (inside' : position < before'.length + leaf'.body.length) :
    path = path' ∧ leaf = leaf' ∧ before = before' := by
  induction leads generalizing path' leaf' before' after' position with
  | leaf tree =>
      cases leads'
      exact ⟨rfl, rfl, rfl⟩
  | @node h tree hole child path leaf before after filled inner ih =>
      cases leads' with
      | @node _ _ hole' child' path' _ before' after' filled' inner' =>
          have fits := inner.length_le
          have fits' := inner'.length_le
          have equal := filled.symm.trans filled'
          simp only [List.length_append] at reached inside reached' inside'
          rcases split_cases (Internal.mk.inj equal).2 with
            ⟨sameLeft, -⟩ | ⟨middle, later⟩ | ⟨middle, later⟩
          · obtain ⟨rfl, rfl⟩ := Hole.eq_of_fill equal sameLeft
            have reachedIn : before.length ≤
                position - (hole.leftChildren.flatMap Tree.entries).length := by
              omega
            obtain ⟨rfl, rfl, rfl⟩ :=
              ih inner' reachedIn (by omega) (by omega) (by omega)
            exact ⟨rfl, rfl, rfl⟩
          · -- The second path passes the child that the first one enters.
            rw [later] at reached'
            simp only [List.flatMap_append, List.flatMap_cons, List.length_append]
              at reached'
            omega
          · rw [later] at reached
            simp only [List.flatMap_append, List.flatMap_cons, List.length_append]
              at reached
            omega

end Paths

section Positions

variable [LE K] [LT K] {order position : Nat} {store : InMemoryStore K V}
  {t : SearchTree NodeId K V order} {cursor other : Cursor K V}

theorem Cursor.StandsAt.unique (stands : cursor.StandsAt store t position)
    (otherStands : other.StandsAt store t position) : cursor = other := by
  obtain ⟨storeEq, leaf, before, after, leads, leafEq, inside, place⟩ := stands
  obtain ⟨storeEq', leaf', before', after', leads', leafEq', inside', place'⟩ :=
    otherStands
  have reached : before.length ≤ position := by omega
  obtain ⟨pathEq, rfl, rfl⟩ :=
    leads.unique leads' reached (by omega) (by omega) (by omega)
  have idxEq : cursor.idx = other.idx := by omega
  cases cursor
  cases other
  simp only [Cursor.mk.injEq]
  exact ⟨storeEq.trans storeEq'.symm, pathEq, leafEq.trans leafEq'.symm, idxEq⟩

variable {tree : BPlusTree K V}

/-- The valid cursors are those that stand at an entry. -/
theorem BPlusTree.Represents.validOn_iff (represents : tree.Represents t) :
    cursor.ValidOn tree ↔ ∃ position, cursor.StandsAt tree.store t position := by
  have stored := represents.browses.stored
  constructor
  · intro valid
    have follows := valid.follows
    have got := valid.leaf_got
    have inside := valid.inside
    rw [represents.root_eq] at follows
    obtain ⟨k, sub, member, labelEq, continues⟩ := follows.leads stored t.sized
    rw [← labelEq, stored _ member, Traced.pure_inj] at got
    cases k with
    | succ k => cases got
    | zero =>
        obtain ⟨before, after, leads⟩ := continues _ _ _ _ (.leaf sub)
        have addressEq : sub.label = cursor.leaf.address := labelEq
        have contentEq : .ofEntries sub.body = cursor.leaf.leaf := Node.leaf.inj got
        have leafEq : cursor.leaf = sub.leafRef := by
          rw [Tree.leafRef, addressEq, contentEq]
        rw [leafEq, sub.leafRef_keys_length] at inside
        exact ⟨_, valid.store_eq, sub, before, after, leads, leafEq, inside, rfl⟩
  · rintro ⟨position, storeEq, leaf, before, after, leads, leafEq, inside, -⟩
    refine ⟨storeEq, ?_, ?_, ?_⟩
    · rw [represents.root_eq, leafEq]
      exact leads.follows stored
    · rw [leafEq]
      exact stored _ leads.mem_subtrees
    · rw [leafEq, leaf.leafRef_keys_length]
      exact inside

end Positions

section Steps

variable [Preorder K] {order position : Nat} {tree : BPlusTree K V}
  {t : SearchTree NodeId K V order} {cursor : Cursor K V} {entry : K × V}

namespace BPlusTree

theorem Represents.succeeds_iff (represents : tree.Represents t)
    (entryAt : t.entries[position]? = some entry) {next : K × V} :
    tree.Succeeds entry.1 next ↔ t.entries[position + 1]? = some next := by
  rw [← Entries.least_above_iff t.ascending entryAt]
  constructor
  · intro succeeds
    exact ⟨represents.holds.mp succeeds.held, succeeds.above,
      fun other member => succeeds.least other.1 other.2 (represents.holds.mpr member)⟩
  · rintro ⟨member, above, least⟩
    exact ⟨represents.holds.mpr member, above,
      fun other value held => least (other, value) (represents.holds.mp held)⟩

theorem Represents.precedes_iff (represents : tree.Represents t)
    (entryAt : t.entries[position]? = some entry) {previous : K × V} :
    tree.Precedes entry.1 previous ↔
      ∃ j, position = j + 1 ∧ t.entries[j]? = some previous := by
  rw [← Entries.greatest_below_iff t.ascending entryAt]
  constructor
  · intro precedes
    exact ⟨represents.holds.mp precedes.held, precedes.below,
      fun other member =>
        precedes.greatest other.1 other.2 (represents.holds.mpr member)⟩
  · rintro ⟨member, below, greatest⟩
    exact ⟨represents.holds.mpr member, below,
      fun other value held => greatest (other, value) (represents.holds.mp held)⟩

end BPlusTree

variable {store : InMemoryStore K V} {other : Cursor K V}

theorem Cursor.exists_standsAt (browses : Browses store t)
    (inside : position < t.entries.length) :
    ∃ cursor : Cursor K V, cursor.StandsAt store t position := by
  induction position with
  | zero =>
      rcases first_lands browses with ⟨cursor, -, stands⟩ | ⟨empty, -⟩
      · exact ⟨cursor, stands⟩
      · exact absurd empty (Nat.ne_of_lt inside)
  | succ position ih =>
      obtain ⟨cursor, stands⟩ := ih (Nat.lt_of_succ_lt inside)
      rcases stands.stepForward browses with ⟨next, -, nextStands⟩ | ⟨last, -⟩
      · exact ⟨next, nextStands⟩
      · exact absurd last (Nat.ne_of_lt inside)

theorem Cursor.StandsAt.stepBackward_to (browses : Browses store t)
    (stands : cursor.StandsAt store t position)
    (otherStands : other.StandsAt store t (position + 1)) :
    other.stepBackward = pure (true, cursor) := by
  rcases otherStands.stepBackward browses with
    ⟨back, previous, stepped, place, backStands⟩ | ⟨first, -⟩
  · obtain rfl := Nat.succ.inj place
    rw [stepped, backStands.unique stands]
  · exact absurd first (Nat.succ_ne_zero position)

theorem Cursor.StandsAt.stepForward_to (browses : Browses store t)
    (stands : cursor.StandsAt store t (position + 1))
    (otherStands : other.StandsAt store t position) :
    other.stepForward = pure (true, cursor) := by
  rcases otherStands.stepForward browses with ⟨next, stepped, nextStands⟩ | ⟨last, -⟩
  · rw [stepped, nextStands.unique stands]
  · exact absurd last (Nat.ne_of_lt stands.lt_length)

namespace BPlusTree

theorem Represents.existsUnique_validOn (represents : tree.Represents t)
    (held : Holds tree.store tree.root entry.1 entry.2) :
    ∃! cursor : Cursor K V, cursor.ValidOn tree ∧ cursor.current = pure entry := by
  obtain ⟨position, entryAt⟩ := List.getElem?_of_mem (represents.holds.mp held)
  obtain ⟨cursor, stands⟩ := Cursor.exists_standsAt represents.browses
    (List.getElem?_eq_some_iff.mp entryAt).1
  obtain ⟨found, foundAt, read, -⟩ := stands.current
  obtain rfl : entry = found := Option.some.inj (entryAt.symm.trans foundAt)
  refine ⟨cursor, ⟨represents.validOn_iff.mpr ⟨position, stands⟩, read⟩, ?_⟩
  rintro other ⟨valid, otherRead⟩
  obtain ⟨place, otherStands⟩ := represents.validOn_iff.mp valid
  obtain ⟨_, placeAt, placeRead, -⟩ := otherStands.current
  obtain rfl := Traced.pure_inj.mp (otherRead.symm.trans placeRead)
  have samePlace : place = position := Nat.le_antisymm
    ((Entries.getElem?_le_iff t.ascending placeAt entryAt).mp (le_refl _))
    ((Entries.getElem?_le_iff t.ascending entryAt placeAt).mp (le_refl _))
  rw [samePlace] at otherStands
  exact otherStands.unique stands

theorem Represents.stepsFrom (represents : tree.Represents t)
    (stands : cursor.StandsAt tree.store t position)
    (entryAt : t.entries[position]? = some entry) : tree.StepsFrom cursor entry.1 := by
  have browses := represents.browses
  constructor
  · rcases stands.stepForward browses with
      ⟨next, stepped, nextStands⟩ | ⟨last, next, stepped⟩
    · obtain ⟨found, foundAt, read, -⟩ := nextStands.current
      have succeeds := (represents.succeeds_iff entryAt).mpr foundAt
      exact ⟨true, next, stepped, iff_of_true rfl ⟨found, succeeds⟩, fun _ =>
        ⟨represents.validOn_iff.mpr ⟨_, nextStands⟩, ⟨found, read, succeeds⟩,
          stands.stepBackward_to browses nextStands⟩⟩
    · refine ⟨false, next, stepped, iff_of_false Bool.false_ne_true ?_, nofun⟩
      rintro ⟨found, succeeds⟩
      have foundAt := (represents.succeeds_iff entryAt).mp succeeds
      exact absurd last (Nat.ne_of_lt (List.getElem?_eq_some_iff.mp foundAt).1)
  · rcases stands.stepBackward browses with
      ⟨next, previous, stepped, rfl, nextStands⟩ | ⟨first, next, stepped⟩
    · obtain ⟨found, foundAt, read, -⟩ := nextStands.current
      have precedes := (represents.precedes_iff entryAt).mpr ⟨previous, rfl, foundAt⟩
      exact ⟨true, next, stepped, iff_of_true rfl ⟨found, precedes⟩, fun _ =>
        ⟨represents.validOn_iff.mpr ⟨_, nextStands⟩, ⟨found, read, precedes⟩,
          stands.stepForward_to browses nextStands⟩⟩
    · refine ⟨false, next, stepped, iff_of_false Bool.false_ne_true ?_, nofun⟩
      rintro ⟨found, precedes⟩
      obtain ⟨j, place, -⟩ := (represents.precedes_iff entryAt).mp precedes
      exact absurd (first.symm.trans place) (Nat.succ_ne_zero j).symm

end BPlusTree

end Steps

section Main

variable [Preorder K] [Std.IsLinearPreorder K] [DecidableLT K]

/-- After every run, each stored entry is read by one valid cursor. -/
theorem run_valid_cursors (order : Nat) (start : Start K V) (calls : List (Call K V))
    (isExact : (start.run order calls).Exact) :
    ∃ replies tree, start.run order calls = pure (replies, tree) ∧
      ∀ entry : K × V, Holds tree.store tree.root entry.1 entry.2 →
        ∃! cursor : Cursor K V, cursor.ValidOn tree ∧ cursor.current = pure entry := by
  obtain ⟨tree, t, returned, represents, -⟩ := start.run_represents calls isExact
  exact ⟨_, tree, returned, fun _ held => represents.existsUnique_validOn held⟩

/-- After every run, each valid cursor steps exactly and reversibly. -/
theorem run_cursor_steps (order : Nat) (start : Start K V) (calls : List (Call K V))
    (isExact : (start.run order calls).Exact) :
    ∃ replies tree, start.run order calls = pure (replies, tree) ∧
      ∀ cursor : Cursor K V, cursor.ValidOn tree →
        ∃ key, cursor.key = pure key ∧ tree.StepsFrom cursor key := by
  obtain ⟨tree, t, returned, represents, -⟩ := start.run_represents calls isExact
  refine ⟨_, tree, returned, fun cursor valid => ?_⟩
  obtain ⟨position, stands⟩ := represents.validOn_iff.mp valid
  obtain ⟨entry, entryAt, -, keyRead⟩ := stands.current
  exact ⟨entry.1, keyRead, represents.stepsFrom stands entryAt⟩

/-- The cursors of a tree of three levels. -/
theorem run_cursor_steps_small :
    ∃ replies tree,
      (Start.fromSorted ((List.range 14).map fun i => (i, i))).run 3
        [.insert 3 0, .remove 7] = pure (replies, tree) ∧
      ∀ cursor : Cursor Nat Nat, cursor.ValidOn tree →
        ∃ key, cursor.key = pure key ∧ tree.StepsFrom cursor key :=
  run_cursor_steps 3 (.fromSorted ((List.range 14).map fun i => (i, i)))
    [.insert 3 0, .remove 7] (by decide +kernel)

end Main

end IndexDb
