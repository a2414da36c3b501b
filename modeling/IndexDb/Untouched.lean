import IndexDb.WellFormed

/-!
# Calls that leave the state as it is

Removing an absent key and inserting a present one take the same way down as
the calls that restructure the tree, and decide only at the leaf.  What they
then do is read off the lookup of the key on any state, well formed or not: a
removal that finds nothing writes the leaf back as it was, and an insertion
that finds the key writes one value.
-/

namespace IndexDb

variable {K V : Type}

/-- The state after `vals[i] = value` in the leaf at `id`. -/
def BPlusTree.overwrite (tree : BPlusTree K V) (id : NodeId) (leaf : Leaf K V)
    (i : Nat) (value : V) : BPlusTree K V :=
  { tree with
    store :=
      { tree.store with
        slab := tree.store.slab.set id.slot
          (.leaf { leaf with vals := leaf.vals.set i value }) } }

/-- What a lookup finds says what the calls leave untouched. -/
structure BPlusTree.Untouched [LT K] [DecidableLT K] (tree : BPlusTree K V)
    (key : K) : Prop where
  /-- Removing an absent key changes nothing. -/
  absent : tree.get key = pure none → tree.remove key = pure (none, tree)
  /-- Inserting a present key changes the value of its entry and nothing else. -/
  present : ∀ old value, tree.get key = pure (some old) →
    ∃ id leaf i stored, tree.HasNode id (.leaf leaf) ∧
      leaf.keys[i]? = some stored ∧ SameKey stored key ∧ leaf.vals[i]? = some old ∧
      tree.insert key value = pure (some old, tree.overwrite id leaf i value)

/-- A lookup finds what the leaves hold. -/
structure BPlusTree.FindsHeld [LT K] [DecidableLT K] (tree : BPlusTree K V)
    (key : K) : Prop where
  absent : tree.get key = pure none ↔
    ∀ stored value, Holds tree.store tree.root stored value → ¬ SameKey stored key
  present : ∀ old, tree.get key = pure (some old) ↔
    ∃ stored, Holds tree.store tree.root stored old ∧ SameKey stored key

section Store

variable {store : InMemoryStore K V} {id : NodeId} {node : Node NodeId K V}

theorem InMemoryStore.getMut_eq_pure
    (got : NodeStore.get store id = pure node) :
    NodeStore.getMut store id = pure (node, fun written =>
      { store with slab := store.slab.set id.slot written }) := by
  change (Vec.get store.slab id.slot >>= _) = _
  rw [show Vec.get store.slab id.slot = pure node from got]
  rfl

/-- Writing back the node that was read changes nothing. -/
theorem InMemoryStore.write_same (got : NodeStore.get store id = pure node) :
    { store with slab := store.slab.set id.slot node } = store := by
  obtain ⟨inside, rfl⟩ := List.getElem?_eq_some_iff.mp (Vec.get_eq_pure_iff.mp got)
  rw [List.set_getElem_self]

end Store

section Descent

variable [LT K] [DecidableLT K] {store : InMemoryStore K V} {id : NodeId} {key : K}
  {fuel : Nat}

theorem Leaf.remove_absent {leaf : Leaf K V} (absent : leaf.get key = pure none) :
    leaf.remove key = pure (none, leaf) := by
  rw [Leaf.get] at absent
  rw [Leaf.remove]
  cases answered : binarySearch leaf.keys key with
  | error i => rfl
  | ok i =>
      rw [answered] at absent
      obtain ⟨value, -, returned⟩ := Traced.bind_eq_pure.mp absent
      cases Traced.pure_inj.mp returned

/-- A leaf that finds a value holds it with the key. -/
theorem Leaf.get_present {leaf : Leaf K V} {old : V}
    (present : leaf.get key = pure (some old)) :
    ∃ i stored, binarySearch leaf.keys key = .ok i ∧ leaf.keys[i]? = some stored ∧
      SameKey stored key ∧ leaf.vals[i]? = some old := by
  rw [Leaf.get] at present
  cases answered : binarySearch leaf.keys key with
  | error i =>
      rw [answered] at present
      cases Traced.pure_inj.mp present
  | ok i =>
      rw [answered] at present
      obtain ⟨value, valueGot, returned⟩ := Traced.bind_eq_pure.mp present
      obtain ⟨stored, storedAt, same⟩ := sameKey_of_binarySearch answered
      cases Traced.pure_inj.mp returned
      exact ⟨i, stored, rfl, storedAt, same, Vec.get_eq_pure_iff.mp valueGot⟩

namespace Ops

/-- A lookup reads a leaf or goes on in a child. -/
theorem get_eq_pure {found : Option V} (got : get fuel store id key = pure found) :
    ∃ rest, fuel = rest + 1 ∧
      ((∃ leaf, NodeStore.get store id = pure (.leaf leaf) ∧
          leaf.get key = pure found) ∨
        ∃ (internal : Internal K NodeId) (child : NodeId),
          NodeStore.get store id = pure (.internal internal) ∧
          internal.children[internal.childIndex key]? = some child ∧
          get rest store child key = pure found) := by
  cases fuel with
  | zero => cases congrArg Traced.result got
  | succ fuel =>
      refine ⟨fuel, rfl, ?_⟩
      obtain ⟨node, resolved, after⟩ := Traced.bind_eq_pure.mp got
      cases node with
      | leaf leaf => exact .inl ⟨leaf, resolved, after⟩
      | internal internal =>
          obtain ⟨child, chosen, below⟩ := Traced.bind_eq_pure.mp after
          exact .inr ⟨internal, child, resolved, Vec.get_eq_pure_iff.mp chosen, below⟩

theorem removeFrom_absent (absent : get fuel store id key = pure none) (minKeys : Nat) :
    removeFrom fuel store id key minKeys = pure (none, store) := by
  induction fuel generalizing id with
  | zero => cases congrArg Traced.result absent
  | succ fuel ih =>
      obtain ⟨_, ⟨⟩, ⟨leaf, resolved, missing⟩ |
        ⟨internal, child, resolved, chosen, below⟩⟩ := get_eq_pure absent
      · rw [removeFrom, resolved, pure_bind]
        simp only
        rw [InMemoryStore.getMut_eq_pure resolved, pure_bind]
        simp only
        rw [Leaf.remove_absent missing, pure_bind]
        simp only
        rw [InMemoryStore.write_same resolved]
      · rw [removeFrom, resolved, pure_bind]
        simp only
        rw [Vec.get_eq_pure chosen, pure_bind, ih below, pure_bind]
        rfl

theorem insertInto_present {old : V} (present : get fuel store id key = pure (some old))
    (value : V) (order : Nat) :
    ∃ target leaf i stored, Reaches store id target ∧
      NodeStore.get store target = pure (.leaf leaf) ∧ leaf.keys[i]? = some stored ∧
      SameKey stored key ∧ leaf.vals[i]? = some old ∧
      insertInto fuel store id key value order =
        pure (.replaced old,
          { store with
            slab := store.slab.set target.slot
              (.leaf { leaf with vals := leaf.vals.set i value }) }) := by
  induction fuel generalizing id with
  | zero => cases congrArg Traced.result present
  | succ fuel ih =>
      obtain ⟨_, ⟨⟩, ⟨leaf, resolved, found⟩ |
        ⟨internal, child, resolved, chosen, below⟩⟩ := get_eq_pure present
      · obtain ⟨i, stored, answered, storedAt, same, oldAt⟩ := Leaf.get_present found
        refine ⟨id, leaf, i, stored, ⟨0, .here id⟩, resolved, storedAt, same, oldAt, ?_⟩
        rw [insertInto, resolved, pure_bind]
        simp only
        rw [insertLeaf, InMemoryStore.getMut_eq_pure resolved, pure_bind]
        simp only [answered]
        rw [Vec.get_eq_pure oldAt, pure_bind, Vec.set_eq_pure oldAt, pure_bind]
      · obtain ⟨target, leaf, i, stored, ⟨depth, path⟩, rest, storedAt, same, oldAt,
          inserted⟩ := ih below
        refine ⟨target, leaf, i, stored, ⟨depth + 1, .under ⟨internal, resolved, chosen⟩ path⟩,
          rest, storedAt, same, oldAt, ?_⟩
        rw [insertInto, resolved, pure_bind]
        simp only
        rw [Vec.get_eq_pure chosen, pure_bind, inserted, pure_bind]

end Ops

end Descent

section Order

variable {order : Nat} {tree next : BPlusTree K V}

namespace BPlusTree

theorem withOrder_order (returned : (withOrder order).result = .ok tree) :
    tree.order = max order minOrder := by
  obtain ⟨made, -, equal⟩ := Traced.bind_result_eq_ok.mp returned
  cases equal
  rfl

theorem clear_order (returned : tree.clear.result = .ok next) :
    next.order = tree.order := by
  obtain ⟨made, -, equal⟩ := Traced.bind_result_eq_ok.mp returned
  cases equal
  rfl

variable [LT K] [DecidableLT K]

theorem insert_order {key : K} {value : V} {displaced : Option V}
    (returned : (tree.insert key value).result = .ok (displaced, next)) :
    next.order = tree.order := by
  obtain ⟨made, -, equal⟩ := Traced.bind_result_eq_ok.mp returned
  cases equal
  rfl

theorem remove_order {key : K} {removed : Option V}
    (returned : (tree.remove key).result = .ok (removed, next)) :
    next.order = tree.order := by
  obtain ⟨minKeys, -, returned⟩ := Traced.bind_result_eq_ok.mp returned
  obtain ⟨made, -, returned⟩ := Traced.bind_result_eq_ok.mp returned
  dsimp only at returned
  split at returned
  · obtain ⟨len, -, equal⟩ := Traced.bind_result_eq_ok.mp returned
    cases equal
    rfl
  · cases returned
    rfl

theorem insertAll_order {entries : List (K × V)}
    (returned : (tree.insertAll entries).result = .ok next) :
    next.order = tree.order := by
  induction entries generalizing tree with
  | nil =>
      cases returned
      rfl
  | cons entry entries ih =>
      obtain ⟨⟨displaced, middle⟩, inserted, returned⟩ :=
        Traced.bind_result_eq_ok.mp returned
      rw [ih returned, insert_order inserted]

theorem call_order {call : Call K V} {reply : Reply V}
    (returned : (tree.call call).result = .ok (reply, next)) :
    next.order = tree.order := by
  cases call with
  | insert key value =>
      obtain ⟨⟨displaced, middle⟩, inserted, equal⟩ :=
        Traced.bind_result_eq_ok.mp returned
      cases equal
      exact insert_order inserted
  | remove key =>
      obtain ⟨⟨displaced, middle⟩, removed, equal⟩ :=
        Traced.bind_result_eq_ok.mp returned
      cases equal
      exact remove_order removed
  | clear =>
      obtain ⟨middle, cleared, equal⟩ := Traced.bind_result_eq_ok.mp returned
      cases equal
      exact clear_order cleared
  | get key | containsKey key =>
      obtain ⟨found, -, equal⟩ := Traced.bind_result_eq_ok.mp returned
      cases equal
      rfl
  | len | isEmpty =>
      cases returned
      rfl

theorem calls_order {calls : List (Call K V)} {replies : List (Reply V)}
    (returned : (tree.calls calls).result = .ok (replies, next)) :
    next.order = tree.order := by
  induction calls generalizing tree replies with
  | nil =>
      cases returned
      rfl
  | cons call calls ih =>
      obtain ⟨⟨reply, middle⟩, called, returned⟩ := Traced.bind_result_eq_ok.mp returned
      obtain ⟨⟨others, last⟩, ran, equal⟩ := Traced.bind_result_eq_ok.mp returned
      cases equal
      rw [ih ran, call_order called]

end BPlusTree

variable [LT K] [DecidableLT K]

theorem Start.build_order {start : Start K V}
    (returned : (start.build order).result = .ok tree) :
    tree.order = max order minOrder := by
  cases start with
  | withOrder => exact BPlusTree.withOrder_order returned
  | fromSorted entries =>
      rw [Start.build, BPlusTree.fromSortedWithOrder] at returned
      simp only at returned
      split at returned
      · obtain ⟨made, -, equal⟩ := Traced.bind_result_eq_ok.mp returned
        cases equal
        rfl
      · obtain ⟨middle, built, inserted⟩ := Traced.bind_result_eq_ok.mp returned
        rw [BPlusTree.insertAll_order inserted, BPlusTree.withOrder_order built,
          Nat.max_assoc, Nat.max_self]

/-- No run changes the order it starts with. -/
theorem Start.run_order {start : Start K V} {calls : List (Call K V)}
    {replies : List (Reply V)}
    (returned : (start.run order calls).result = .ok (replies, tree)) :
    tree.order = max order minOrder := by
  obtain ⟨first, built, ran⟩ := Traced.bind_result_eq_ok.mp returned
  rw [BPlusTree.calls_order ran, Start.build_order built]

end Order

namespace BPlusTree

section Calls

variable [LT K] [DecidableLT K] {tree : BPlusTree K V} {key : K}

theorem remove_absent (large : 3 ≤ tree.order)
    (absent : tree.get key = pure none) : tree.remove key = pure (none, tree) := by
  rw [BPlusTree.remove, minKeys_eq large, pure_bind, Ops.remove,
    Ops.removeFrom_absent absent, pure_bind]
  rfl

theorem insert_present {old : V} (present : tree.get key = pure (some old)) (value : V) :
    ∃ id leaf i stored, tree.HasNode id (.leaf leaf) ∧
      leaf.keys[i]? = some stored ∧ SameKey stored key ∧ leaf.vals[i]? = some old ∧
      tree.insert key value = pure (some old, tree.overwrite id leaf i value) := by
  obtain ⟨id, leaf, i, stored, reached, resolved, storedAt, same, oldAt, inserted⟩ :=
    Ops.insertInto_present present value tree.order
  refine ⟨id, leaf, i, stored, ⟨reached, resolved⟩, storedAt, same, oldAt, ?_⟩
  rw [BPlusTree.insert, Ops.insert, inserted, pure_bind]
  rfl

theorem untouched (large : 3 ≤ tree.order) (key : K) : tree.Untouched key where
  absent := remove_absent large
  present _ value present := insert_present present value

end Calls

section Held

variable [Preorder K] [Std.IsLinearPreorder K] [DecidableLT K] {order : Nat}
  {tree : BPlusTree K V} {t : SearchTree NodeId K V order}

theorem Represents.findsHeld (represents : tree.Represents t) (key : K) :
    tree.FindsHeld key := by
  have present : ∀ old, tree.get key = pure (some old) ↔
      ∃ stored, Holds tree.store tree.root stored old ∧ SameKey stored key := by
    intro old
    rw [represents.get, Traced.pure_inj, Entries.lookup_eq_some_iff t.ascending]
    constructor
    · rintro ⟨⟨stored, value⟩, member, same, rfl⟩
      exact ⟨stored, represents.holds.mpr member, same⟩
    · rintro ⟨stored, holds, same⟩
      exact ⟨(stored, old), represents.holds.mp holds, same, rfl⟩
  refine ⟨?_, present⟩
  constructor
  · intro absent stored value holds same
    have found := (present value).mpr ⟨stored, holds, same⟩
    cases Traced.pure_inj.mp (absent.symm.trans found)
  · intro absent
    cases found : Entries.lookup key t.entries with
    | none => rw [represents.get, found]
    | some old =>
        obtain ⟨stored, holds, same⟩ :=
          (present old).mp (by rw [represents.get, found])
        exact absurd same (absent stored old holds)

end Held

end BPlusTree

section Main

variable [Preorder K] [Std.IsLinearPreorder K] [DecidableLT K]

/-- After every run that returns, calls with nothing to restructure leave the
state as it is.  If no id cast of the run was lossy, the lookup that tells them
apart finds what the leaves hold. -/
theorem run_untouched (order : Nat) (start : Start K V) (calls : List (Call K V))
    (replies : List (Reply V)) (tree : BPlusTree K V)
    (returned : (start.run order calls).result = .ok (replies, tree)) (key : K) :
    tree.Untouched key ∧ ((start.run order calls).Exact → tree.FindsHeld key) := by
  have large : 3 ≤ tree.order := by
    rw [start.run_order returned]
    exact Nat.le_max_right _ _
  refine ⟨tree.untouched large key, fun isExact => ?_⟩
  obtain ⟨last, t, ran, represents, -⟩ := start.run_represents calls isExact
  rw [ran] at returned
  obtain ⟨-, rfl⟩ := Prod.mk.inj (Except.ok.inj returned)
  exact represents.findsHeld key

/-- Here the separator 3 outlives the entry it was copied from. -/
theorem run_untouched_stale :
    ∃ tree, ((Start.fromSorted [(1, 10), (2, 20), (3, 30), (4, 40)]).run 3
        [.remove 3]).result = .ok ([.value (some 30)], tree) ∧
      tree.HasNode tree.root (.internal ⟨[3], [⟨0⟩, ⟨1⟩]⟩) ∧ tree.Untouched 3 ∧
      tree.FindsHeld 3 := by
  let tree : BPlusTree Nat Nat :=
    ⟨⟨2⟩, ⟨[.leaf ⟨[1, 2], [10, 20]⟩, .leaf ⟨[4], [40]⟩,
      .internal ⟨[3], [⟨0⟩, ⟨1⟩]⟩], []⟩, 3, 3⟩
  have returned : ((Start.fromSorted [(1, 10), (2, 20), (3, 30), (4, 40)]).run 3
      [.remove 3]).result = .ok ([.value (some 30)], tree) := by decide +kernel
  obtain ⟨untouched, finds⟩ :=
    run_untouched 3 (.fromSorted [(1, 10), (2, 20), (3, 30), (4, 40)]) [.remove 3]
      [.value (some 30)] tree returned 3
  exact ⟨tree, returned, ⟨⟨0, .here _⟩, rfl⟩, untouched, finds (by decide +kernel)⟩

end Main

end IndexDb
