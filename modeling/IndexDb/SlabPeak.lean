import IndexDb.Demand
import IndexDb.Runs
import IndexDb.Unfolding
import Mathlib.Data.Set.Card
import Mathlib.Order.Bounds.Basic
import Mathlib.Order.Lattice.Nat

/-!
# The slab is as long as the largest tree

Insertions grow the slab only once the free list has run out, and removals
only fill the free list.  So the slab is as long as the tree was large at its
peak since it was built or last cleared, and the entry count bounds the peak.
-/

namespace IndexDb

open LawfulNodeStore

variable {K V : Type}

/-- The number of ids that are reachable from the root. -/
noncomputable def BPlusTree.nodeCount (tree : BPlusTree K V) : Nat :=
  Set.ncard {id | Reaches tree.store tree.root id}

section Definitions

variable [LT K] [DecidableLT K]

/-- What the measure gave after the calls since the last `clear`, or since the
tree was built. -/
def Start.inPeriod (order : Nat) (start : Start K V) (calls : List (Call K V))
    (measure : BPlusTree K V → Nat) : Set Nat :=
  { n | ∃ past recent replies tree, calls = past ++ recent ∧
      Call.clear ∉ recent ∧ start.run order past = pure (replies, tree) ∧
      measure tree = n }

variable {order : Nat} {start : Start K V} {calls : List (Call K V)}
  {call : Call K V} {measure : BPlusTree K V → Nat} {replies : List (Reply V)}
  {tree : BPlusTree K V}

/-- A call other than `clear` stays in the period, and `clear` starts one. -/
theorem Start.mem_inPeriod_concat
    (returned : start.run order (calls ++ [call]) = pure (replies, tree)) {n : Nat} :
    n ∈ start.inPeriod order (calls ++ [call]) measure ↔
      measure tree = n ∨ call ≠ .clear ∧ n ∈ start.inPeriod order calls measure := by
  constructor
  · rintro ⟨past, recent, before, earlier, split, noClear, ran, measured⟩
    rcases List.eq_nil_or_concat' recent with rfl | ⟨recent, last, rfl⟩
    · rw [List.append_nil] at split
      subst split
      obtain ⟨-, rfl⟩ := Prod.mk.inj (Traced.pure_inj.mp (returned.symm.trans ran))
      exact .inl measured
    · rw [← List.append_assoc] at split
      obtain ⟨rfl, sameCall⟩ := List.append_inj' split rfl
      obtain rfl := List.singleton_inj.mp sameCall
      simp only [List.mem_append, List.mem_singleton, not_or] at noClear
      exact .inr ⟨Ne.symm noClear.2,
        past, recent, before, earlier, rfl, noClear.1, ran, measured⟩
  · rintro (measured | ⟨notClear, past, recent, before, earlier, rfl, noClear, ran,
      measured⟩)
    · exact ⟨_, [], replies, tree, (List.append_nil _).symm, List.not_mem_nil,
        returned, measured⟩
    · refine ⟨past, recent ++ [call], before, earlier, List.append_assoc _ _ _, ?_,
        ran, measured⟩
      simp only [List.mem_append, List.mem_singleton, not_or]
      exact ⟨noClear, Ne.symm notClear⟩

theorem Start.mem_inPeriod_nil
    (returned : start.run order [] = pure (replies, tree)) {n : Nat} :
    n ∈ start.inPeriod order [] measure ↔ measure tree = n := by
  constructor
  · rintro ⟨past, recent, before, earlier, split, -, ran, measured⟩
    obtain ⟨rfl, -⟩ := List.append_eq_nil_iff.mp split.symm
    obtain ⟨-, rfl⟩ := Prod.mk.inj (Traced.pure_inj.mp (returned.symm.trans ran))
    exact measured
  · rintro measured
    exact ⟨[], [], replies, tree, rfl, List.not_mem_nil, returned, measured⟩

end Definitions

section Represented

namespace BPlusTree

theorem Represents.nodeCount [LE K] [LT K] {order : Nat} {tree : BPlusTree K V}
    {t : SearchTree NodeId K V order} (represents : tree.Represents t) :
    tree.nodeCount = t.size := by
  classical
  have reached : {id | Reaches tree.store tree.root id} = ↑t.labels.toFinset := by
    ext id
    rw [Set.mem_ofPred_eq, represents.root_eq, Finset.mem_coe, List.mem_toFinset]
    exact (reaches_stored (stored_owned represents.valid represents.owned)).trans
      Tree.mem_labels.symm
  rw [BPlusTree.nodeCount, reached, Set.ncard_coe_finset,
    List.toFinset_card_of_nodup represents.labels_nodup]
  rfl

variable [Preorder K] [Std.IsLinearPreorder K] [DecidableLT K] {order : Nat}
  {tree : BPlusTree K V} {t : SearchTree NodeId K V order}

/-- A call keeps the length of the slab, or fills it up with the new tree. -/
theorem Represents.call_slab (represents : tree.Represents t) (call : Call K V)
    (isExact : (tree.call call).Exact) :
    ∃ reply next, ∃ t' : SearchTree NodeId K V order,
      tree.call call = pure (reply, next) ∧ next.Represents t' ∧
      (next.store.slab.length = t'.size ∨
        call ≠ .clear ∧ next.store.slab.length = tree.store.slab.length) ∧
      (call ≠ .clear → tree.store.slab.length ≤ next.store.slab.length) := by
  cases call with
  | insert key value =>
      rw [BPlusTree.call] at isExact ⊢
      obtain ⟨fresh, next, inserted, newRepresents, path⟩ :=
        represents.insert key value (.inr isExact.first)
      have grows := InMemoryStore.grows_path path
      refine ⟨_, next, _, by rw [inserted, pure_bind], newRepresents, ?_,
        fun _ => grows.longer⟩
      rcases grows.reused with same | drained
      · exact .inr ⟨by simp, same⟩
      · have counted := newRepresents.slab_length
        rw [drained] at counted
        exact .inl counted
  | remove key =>
      obtain ⟨next, removed, newRepresents, path⟩ := represents.remove key
      have same := InMemoryStore.shrink_path path
      exact ⟨_, next, _, by rw [BPlusTree.call, removed, pure_bind], newRepresents,
        .inr ⟨by simp, same⟩, fun _ => same.ge⟩
  | clear =>
      obtain rfl := represents.order_eq
      exact ⟨_, _, _, rfl, empty_represents t.large, .inl rfl,
        fun other => absurd rfl other⟩
  | get key =>
      exact ⟨_, tree, t, by rw [BPlusTree.call, represents.get, pure_bind], represents,
        .inr ⟨by simp, rfl⟩, fun _ => Nat.le_refl _⟩
  | containsKey key =>
      exact ⟨_, tree, t, by rw [BPlusTree.call, represents.containsKey, pure_bind],
        represents, .inr ⟨by simp, rfl⟩, fun _ => Nat.le_refl _⟩
  | len | isEmpty =>
      exact ⟨_, tree, t, rfl, represents, .inr ⟨by simp, rfl⟩, fun _ => Nat.le_refl _⟩

end BPlusTree

end Represented

section Peak

variable [Preorder K] [Std.IsLinearPreorder K] [DecidableLT K] {order limit : Nat}
  {start : Start K V} {calls : List (Call K V)}

/-- After an exact run the slab is as long as the largest tree of the period. -/
theorem Start.run_slab (isExact : (start.run order calls).Exact) :
    ∃ replies tree, start.run order calls = pure (replies, tree) ∧
      (∃ t : SearchTree NodeId K V (max order minOrder), tree.Represents t) ∧
      IsGreatest (start.inPeriod order calls BPlusTree.nodeCount)
        tree.store.slab.length := by
  induction calls using List.reverseRecOn with
  | nil =>
      rw [Start.run] at isExact
      obtain ⟨tree, t, built, represents, -, drained⟩ :=
        start.build_represents isExact.first
      have ran : start.run order [] = pure ([], tree) := by
        rw [Start.run, built, pure_bind]
        rfl
      have counted := represents.slab_length
      rw [drained, List.length_nil, Nat.add_zero, ← represents.nodeCount] at counted
      refine ⟨[], tree, ran, ⟨t, represents⟩,
        (Start.mem_inPeriod_nil ran).mpr counted.symm, fun n member => ?_⟩
      rw [← (Start.mem_inPeriod_nil ran).mp member, counted]
  | append_singleton calls call ih =>
      rw [Start.run_concat] at isExact
      obtain ⟨replies, tree, ran, ⟨t, represents⟩, peak, greatest⟩ := ih isExact.first
      rw [ran, pure_bind] at isExact
      obtain ⟨reply, next, t', called, newRepresents, slab, longer⟩ :=
        represents.call_slab call isExact.first
      have ranOn : start.run order (calls ++ [call]) =
          pure (replies ++ [reply], next) := by
        rw [Start.run_concat, ran, pure_bind]
        dsimp only
        rw [called, pure_bind]
      have counted := newRepresents.slab_length
      have nodes := newRepresents.nodeCount
      refine ⟨_, next, ranOn, ⟨t', newRepresents⟩, ?_, ?_⟩
      · refine (Start.mem_inPeriod_concat ranOn).mpr ?_
        rcases slab with filled | ⟨notClear, same⟩
        · exact .inl (nodes.trans filled.symm)
        · exact .inr ⟨notClear, same ▸ peak⟩
      · intro n member
        rcases (Start.mem_inPeriod_concat ranOn).mp member with
          measured | ⟨notClear, earlier⟩
        · omega
        · exact (greatest earlier).trans (longer notClear)

theorem Start.exists_greatest_len (isExact : (start.run order calls).Exact)
    (keeps : start.Keeps calls limit) :
    ∃ most, IsGreatest (start.inPeriod order calls BPlusTree.len) most := by
  obtain ⟨tree, t, returned, -⟩ := start.run_represents calls isExact
  have inhabited : (start.inPeriod order calls BPlusTree.len).Nonempty :=
    ⟨tree.len, calls, [], _, tree, (List.append_nil _).symm, List.not_mem_nil, returned, rfl⟩
  have bounded : limit ∈ upperBounds (start.inPeriod order calls BPlusTree.len) := by
    rintro n ⟨past, recent, replies, earlier, split, -, ran, rfl⟩
    obtain ⟨t, represents, entriesEq⟩ := Start.returned_represents ran
    rw [represents.len_eq, entriesEq]
    exact keeps past ⟨recent, split.symm⟩
  exact ⟨_, Nat.sSup_mem inhabited ⟨limit, bounded⟩, fun n member =>
    le_csSup ⟨limit, bounded⟩ member⟩

/-- The nodes of the whole period are few against its entries. -/
theorem Start.nodes_le {n most : Nat}
    (member : n ∈ start.inPeriod order calls BPlusTree.nodeCount)
    (greatest : most ∈ upperBounds (start.inPeriod order calls BPlusTree.len)) :
    n ≤ max 1 (2 * most - 1) := by
  obtain ⟨past, recent, replies, tree, split, noClear, ran, rfl⟩ := member
  obtain ⟨t, represents, -⟩ := Start.returned_represents ran
  have few := greatest ⟨past, recent, replies, tree, split, noClear, ran, rfl⟩
  have bound := t.size_le
  rw [represents.nodeCount]
  rw [represents.len_eq] at few
  omega

end Peak

section Main

variable [LinearOrder K]

/-- A run that keeps its entries few returns and casts every node id exactly.  Its
slab is as long as the largest tree of the period, and less than twice as long as
its greatest entry count. -/
theorem run_slab_bounded (order : Nat) (start : Start K V) (calls : List (Call K V))
    (limit : Nat)
    (small : limit ≤ 2 ^ 31 ∨ order = defaultOrder ∧ limit ≤ 2 ^ 36)
    (keeps : start.Keeps calls limit) :
    ∃ replies tree most, start.run order calls = pure (replies, tree) ∧
      IsGreatest (start.inPeriod order calls BPlusTree.nodeCount)
        tree.store.slab.length ∧
      IsGreatest (start.inPeriod order calls BPlusTree.len) most ∧
      tree.store.slab.length ≤ max 1 (2 * most - 1) ∧
      tree.store.slab.length ≤ 2 ^ 32 := by
  have fits : Fits K V (max order minOrder) limit := by
    rcases small with few | ⟨rfl, few⟩
    · exact fits_any few
    · exact fits_default few
  have isExact : (start.run order calls).Exact := Start.run_exact fits keeps
  obtain ⟨replies, tree, ran, ⟨t, represents⟩, peak⟩ := Start.run_slab isExact
  obtain ⟨most, greatest⟩ := Start.exists_greatest_len isExact keeps
  have valid : InMemoryStore.Valid tree.store := represents.valid
  exact ⟨replies, tree, most, ran, peak, greatest, Start.nodes_le peak.1 greatest.2,
    valid.addressable⟩

/-- A split, a merge that takes the root along, and a split that reuses both slots. -/
theorem run_slab_bounded_small :
    ∃ replies tree most, Start.withOrder.run 3
        [.insert 1 10, .insert 2 20, .insert 3 30, .remove 1, .remove 2,
          .insert 4 40, .insert 5 50] = pure (replies, tree) ∧
      IsGreatest (Start.withOrder.inPeriod 3
        [.insert 1 10, .insert 2 20, .insert 3 30, .remove 1, .remove 2,
          .insert 4 40, .insert 5 50] BPlusTree.nodeCount) tree.store.slab.length ∧
      IsGreatest (Start.withOrder.inPeriod 3
        [.insert 1 10, .insert 2 20, .insert 3 30, .remove 1, .remove 2,
          .insert 4 40, .insert 5 50] BPlusTree.len) most ∧
      tree.store.slab.length ≤ max 1 (2 * most - 1) ∧
      tree.store.slab.length ≤ 2 ^ 32 :=
  run_slab_bounded 3 .withOrder
    [.insert 1 10, .insert 2 20, .insert 3 30, .remove 1, .remove 2, .insert 4 40,
      .insert 5 50] 3 (.inl (by decide)) (by decide +kernel)

end Main

end IndexDb
