import IndexDb.Runs
import Mathlib.Data.List.Induction
import Mathlib.Data.List.Infix

/-!
# Runs that keep the entries few

The occupancy of the nodes bounds their number by the entries, whatever the
shape of the tree.  So a call that leaves few enough entries finds room for the
nodes that it builds, and a run that keeps the entries few casts every node id
exactly: no cast has to be assumed.
-/

namespace IndexDb

open LawfulNodeStore

variable {K V : Type}

section Limits

variable [LE K] [LT K] {order limit : Nat}

/-- A tree of so many entries fits into the slab. -/
def Fits (K V : Type) [LE K] [LT K] (order limit : Nat) : Prop :=
  ∀ {L : Type} (t : SearchTree L K V order), t.entries.length ≤ limit →
    t.size ≤ UInt32.size

theorem fits_any (small : limit ≤ 2 ^ 31) : Fits K V order limit := by
  intro L t few
  have bound := t.size_le
  simp only [UInt32.size]
  omega

theorem fits_default (small : limit ≤ 2 ^ 36) : Fits K V defaultOrder limit := by
  intro L t few
  have leastEq : leastKeys defaultOrder = 31 := rfl
  by_cases inner : 0 < t.height
  · have bound := t.size_le_of_leastKeys inner
    rw [leastEq] at bound
    simp only [UInt32.size]
    omega
  · obtain ⟨height, tree, large, sized, ordered⟩ := t
    obtain rfl : height = 0 := Nat.eq_zero_of_not_pos inner
    simp [SearchTree.size, Tree.size, Tree.labels, UInt32.size]

end Limits

section Definitions

variable [LT K] [DecidableLT K]

/-- At every boundary of the run so many entries are left at most. -/
def Start.Keeps (start : Start K V) (calls : List (Call K V)) (limit : Nat) : Prop :=
  ∀ past, past <+: calls → (Call.answers start.contents past).2.length ≤ limit

instance (start : Start K V) (calls : List (Call K V)) (limit : Nat) :
    Decidable (start.Keeps calls limit) :=
  decidable_of_iff (∀ past ∈ calls.inits,
    (Call.answers start.contents past).2.length ≤ limit)
    (forall_congr' fun past => imp_congr_left (List.mem_inits past calls))

end Definitions

section Fitting

variable [Preorder K] [Std.IsLinearPreorder K] [DecidableLT K] {order limit : Nat}
  {tree : BPlusTree K V} {t : SearchTree NodeId K V order}

namespace BPlusTree

/-- An insertion that leaves few enough entries finds room for its nodes. -/
theorem Represents.insert_room (represents : tree.Represents t)
    (fits : Fits K V order limit) {key : K} {value : V}
    (few : (Entries.insert key value t.entries).length ≤ limit) :
    Room tree.store (t.allocations key value) := by
  refine represents.room ?_
  rw [← t.insert_size fun _ => t.root]
  refine fits _ ?_
  rwa [t.insert_entries]

theorem Represents.insertAll_exact {entries : List (K × V)} {tree : BPlusTree K V}
    {t : SearchTree NodeId K V order} (represents : tree.Represents t)
    (fits : Fits K V order limit)
    (few : (Entries.insertAll entries t.entries).length ≤ limit) :
    (tree.insertAll entries).Exact := by
  induction entries generalizing tree t with
  | nil => exact Traced.avoids_pure _ _
  | cons entry entries ih =>
      obtain ⟨key, value⟩ := entry
      have ascending := Entries.ascending_insert key value t.ascending
      -- the entries that follow never shrink the tree
      have room := represents.insert_room fits
        ((Entries.length_le_insertAll entries ascending).trans few)
      obtain ⟨fresh, middle, inserted, newRepresents, -⟩ :=
        represents.insert key value (.inl room)
      rw [BPlusTree.insertAll, inserted, pure_bind]
      refine ih newRepresents ?_
      rw [t.insert_entries]
      exact few

/-- A build that leaves few enough entries casts no id with a loss. -/
theorem fromSortedWithOrder_exact {entries : List (K × V)}
    (fits : Fits K V (max order minOrder) limit)
    (few : (Entries.insertAll entries []).length ≤ limit) :
    (fromSortedWithOrder entries order).Exact := by
  have large : 3 ≤ max order minOrder := Nat.le_max_right order minOrder
  unfold fromSortedWithOrder
  dsimp only
  by_cases sorted : ascending entries
  · have ascends := ascending_iff.mp sorted
    have valid : Valid (InMemoryStore.new : InMemoryStore K V) :=
      InMemoryStore.valid_new
    have room : Room (InMemoryStore.new : InMemoryStore K V)
        (SearchTree.bulk large ascends).size := by
      refine Nat.le_trans (fits _ ?_) (Nat.le_add_left _ _)
      rw [SearchTree.bulk_entries, ← Entries.insertAll_of_ascending ascends]
      exact few
    obtain ⟨t, last, refined, -⟩ := bulkLoad_refines large ascends valid (.inl room)
    rw [if_pos sorted, refined, pure_bind]
    exact Traced.avoids_pure _ _
  · rw [if_neg sorted, withOrder_eq, pure_bind,
      max_eq_left (show minOrder ≤ max order minOrder from large)]
    exact (empty_represents large).insertAll_exact fits few

/-- A call that leaves few enough entries casts no id with a loss. -/
theorem Represents.call_exact (represents : tree.Represents t)
    (fits : Fits K V order limit) (call : Call K V)
    (few : (call.answer t.entries).2.length ≤ limit) : (tree.call call).Exact := by
  cases call with
  | insert key value =>
      obtain ⟨fresh, next, inserted, -⟩ :=
        represents.insert key value (.inl (represents.insert_room fits few))
      rw [BPlusTree.call, inserted, pure_bind]
      exact Traced.avoids_pure _ _
  | remove key =>
      obtain ⟨next, removed, -⟩ := represents.remove key
      rw [BPlusTree.call, removed, pure_bind]
      exact Traced.avoids_pure _ _
  | get key =>
      rw [BPlusTree.call, represents.get, pure_bind]
      exact Traced.avoids_pure _ _
  | containsKey key =>
      rw [BPlusTree.call, represents.containsKey, pure_bind]
      exact Traced.avoids_pure _ _
  | clear | len | isEmpty => exact Traced.avoids_pure _ _

end BPlusTree

variable {start : Start K V} {calls : List (Call K V)}

/-- A run that keeps its entries few casts no id with a loss. -/
theorem Start.run_exact (fits : Fits K V (max order minOrder) limit)
    (keeps : start.Keeps calls limit) : (start.run order calls).Exact := by
  induction calls using List.reverseRecOn with
  | nil =>
      have isExact : (start.build order).Exact := by
        cases start with
        | withOrder => exact Traced.avoids_pure _ _
        | fromSorted entries =>
            exact BPlusTree.fromSortedWithOrder_exact fits (keeps [] (List.prefix_refl _))
      obtain ⟨tree, t, built, -⟩ := start.build_represents isExact
      rw [Start.run, built, pure_bind]
      exact Traced.avoids_pure _ _
  | append_singleton calls call ih =>
      have before : (start.run order calls).Exact :=
        ih fun past isPrefix => keeps past (isPrefix.trans (List.prefix_append _ _))
      obtain ⟨tree, t, ran, represents, entriesEq⟩ := start.run_represents calls before
      have few := keeps _ (List.prefix_refl _)
      rw [Call.answers_answerwise.concat, ← entriesEq] at few
      have isExact := represents.call_exact fits call few
      obtain ⟨next, t', called, -⟩ := represents.call call isExact
      rw [Start.run_concat, ran, pure_bind]
      dsimp only
      rw [called, pure_bind]
      exact Traced.avoids_pure _ _

end Fitting

end IndexDb
