import IndexDb.Library.Simulation
import IndexDb.Representation

/-!
# Runs of the public tree

A run builds a tree and makes calls on it, one after the other.  As long as no
id cast of the run is lossy, every call returns, and the tree represents a
search tree over the entries that the calls leave.
-/

namespace IndexDb

/-- How a tree is first built. -/
inductive Start (K V : Type) where
  | withOrder
  | fromSorted (entries : List (K × V))

/-- A call on the tree as a map. -/
inductive Call (K V : Type) where
  | insert (key : K) (value : V)
  | remove (key : K)
  | clear
  | get (key : K)
  | containsKey (key : K)
  | len
  | isEmpty

/-- What a call returns. -/
inductive Reply (V : Type) where
  | value (found : Option V)
  | bool (answer : Bool)
  | count (n : Nat)
  | unit
  deriving DecidableEq

section Definitions

variable {K V : Type} [LT K] [DecidableLT K]

def Start.build (order : Nat) : Start K V → Run (BPlusTree K V)
  | .withOrder => BPlusTree.withOrder order
  | .fromSorted entries => BPlusTree.fromSortedWithOrder entries order

namespace BPlusTree

def call (tree : BPlusTree K V) : Call K V → Run (Reply V × BPlusTree K V)
  | .insert key value => do
      let (displaced, tree) ← tree.insert key value
      pure (.value displaced, tree)
  | .remove key => do
      let (removed, tree) ← tree.remove key
      pure (.value removed, tree)
  | .clear => do
      let tree ← tree.clear
      pure (.unit, tree)
  | .get key => do
      let found ← tree.get key
      pure (.value found, tree)
  | .containsKey key => do
      let answer ← tree.containsKey key
      pure (.bool answer, tree)
  | .len => pure (.count tree.len, tree)
  | .isEmpty => pure (.bool tree.isEmpty, tree)

def calls (tree : BPlusTree K V) :
    List (Call K V) → Run (List (Reply V) × BPlusTree K V)
  | [] => pure ([], tree)
  | call :: rest => do
      let (reply, tree) ← tree.call call
      let (replies, tree) ← tree.calls rest
      pure (reply :: replies, tree)

end BPlusTree

/-- Build a tree and make the calls. -/
def Start.run (order : Nat) (start : Start K V) (calls : List (Call K V)) :
    Run (List (Reply V) × BPlusTree K V) := do
  let tree ← start.build order
  tree.calls calls

/-- The entries a tree is built over. -/
def Start.contents : Start K V → List (K × V)
  | .withOrder => []
  | .fromSorted entries => Entries.insertAll entries []

/-- The reply of a call on ascending entries, and the entries that are left. -/
def Call.answer (entries : List (K × V)) : Call K V → Reply V × List (K × V)
  | .insert key value =>
      (.value (Entries.lookup key entries), Entries.insert key value entries)
  | .remove key =>
      (.value (Entries.lookup key entries), Entries.erase key entries)
  | .clear => (.unit, [])
  | .get key => (.value (Entries.lookup key entries), entries)
  | .containsKey key => (.bool (Entries.lookup key entries).isSome, entries)
  | .len => (.count entries.length, entries)
  | .isEmpty => (.bool (entries.length = 0), entries)

def Call.answers (entries : List (K × V)) :
    List (Call K V) → List (Reply V) × List (K × V)
  | [] => ([], entries)
  | call :: calls =>
      let (reply, entries) := call.answer entries
      let (replies, entries) := answers entries calls
      (reply :: replies, entries)

theorem BPlusTree.calls_stepwise :
    Stepwise BPlusTree.call (BPlusTree.calls (K := K) (V := V)) where
  nil _ := rfl
  cons _ _ _ := rfl

theorem Call.answers_answerwise :
    Answerwise Call.answer (Call.answers (K := K) (V := V)) where
  nil _ := rfl
  cons _ _ _ := rfl

theorem Start.run_concat (order : Nat) (start : Start K V) (calls : List (Call K V))
    (call : Call K V) : start.run order (calls ++ [call]) = (do
      let (replies, tree) ← start.run order calls
      let (reply, tree) ← tree.call call
      pure (replies ++ [reply], tree)) := by
  simp only [Start.run, BPlusTree.calls_stepwise.concat, bind_assoc]

end Definitions

section Refinement

variable {K V : Type} [Preorder K] [Std.IsLinearPreorder K] [DecidableLT K]
  {order : Nat} {tree : BPlusTree K V} {t : SearchTree NodeId K V order}

namespace BPlusTree

/-- Every call returns what it does on the entries, and leaves their tree. -/
theorem Represents.call (represents : tree.Represents t) (call : Call K V)
    (isExact : (tree.call call).Exact) :
    ∃ (next : BPlusTree K V) (t' : SearchTree NodeId K V order),
      tree.call call = pure ((call.answer t.entries).1, next) ∧
      next.Represents t' ∧ t'.entries = (call.answer t.entries).2 := by
  cases call with
  | insert key value =>
      rw [BPlusTree.call] at isExact ⊢
      obtain ⟨fresh, next, inserted, newRepresents, -⟩ :=
        represents.insert key value (.inr isExact.first)
      refine ⟨next, _, ?_, newRepresents, t.insert_entries fresh key value⟩
      rw [inserted, pure_bind, t.insert_displaced]
      rfl
  | remove key =>
      obtain ⟨next, removed, newRepresents, -⟩ := represents.remove key
      refine ⟨next, _, ?_, newRepresents, t.remove_entries key⟩
      rw [BPlusTree.call, removed, pure_bind, t.remove_removed]
      rfl
  | clear =>
      obtain rfl := represents.order_eq
      exact ⟨_, _, rfl, empty_represents t.large, rfl⟩
  | get key =>
      refine ⟨tree, t, ?_, represents, rfl⟩
      rw [BPlusTree.call, represents.get, pure_bind]
      rfl
  | containsKey key =>
      refine ⟨tree, t, ?_, represents, rfl⟩
      rw [BPlusTree.call, represents.containsKey, pure_bind]
      rfl
  | len =>
      refine ⟨tree, t, ?_, represents, rfl⟩
      rw [BPlusTree.call, represents.len_eq]
      rfl
  | isEmpty =>
      refine ⟨tree, t, ?_, represents, rfl⟩
      rw [BPlusTree.call, isEmpty, represents.len_eq]
      rfl

theorem Represents.calls (represents : tree.Represents t) (calls : List (Call K V))
    (isExact : (tree.calls calls).Exact) :
    ∃ (next : BPlusTree K V) (t' : SearchTree NodeId K V order),
      tree.calls calls = pure ((Call.answers t.entries calls).1, next) ∧
      next.Represents t' ∧ t'.entries = (Call.answers t.entries calls).2 := by
  have simulates : Simulates [.lossyCast]
      (fun (tree : BPlusTree K V) entries =>
        ∃ t : SearchTree NodeId K V order, tree.Represents t ∧ t.entries = entries)
      BPlusTree.call Call.answer := by
    rintro tree _ call ⟨t, represents, rfl⟩ avoids
    obtain ⟨next, t', called, newRepresents, entriesEq⟩ :=
      represents.call call (avoids _ (List.mem_singleton_self _))
    exact ⟨next, called, t', newRepresents, entriesEq⟩
  obtain ⟨next, ran, t', newRepresents, entriesEq⟩ := simulates.run calls_stepwise
    Call.answers_answerwise calls ⟨t, represents, rfl⟩
    (by simpa using isExact)
  exact ⟨next, t', ran, newRepresents, entriesEq⟩

end BPlusTree

theorem Start.build_represents (start : Start K V)
    (isExact : (start.build order).Exact) :
    ∃ (tree : BPlusTree K V) (t : SearchTree NodeId K V (max order minOrder)),
      start.build order = pure tree ∧ tree.Represents t ∧
      t.entries = start.contents ∧ tree.store.free = [] := by
  cases start with
  | withOrder =>
      exact ⟨_, _, rfl, BPlusTree.empty_represents (Nat.le_max_right _ _), rfl, rfl⟩
  | fromSorted entries => exact BPlusTree.fromSortedWithOrder_represents isExact

/-- Every run returns the replies of the same calls on the entries, and leaves
a tree over the entries that they leave. -/
theorem Start.run_represents (start : Start K V) (calls : List (Call K V))
    (isExact : (start.run order calls).Exact) :
    ∃ (tree : BPlusTree K V) (t : SearchTree NodeId K V (max order minOrder)),
      start.run order calls = pure ((Call.answers start.contents calls).1, tree) ∧
      tree.Represents t ∧ t.entries = (Call.answers start.contents calls).2 := by
  rw [Start.run] at isExact ⊢
  obtain ⟨tree, t, built, represents, entriesEq, -⟩ :=
    start.build_represents isExact.first
  rw [built, pure_bind] at isExact ⊢
  rw [← entriesEq]
  exact represents.calls calls isExact

/-- The tree that a run returns is the one over the entries that the calls leave. -/
theorem Start.returned_represents {start : Start K V} {calls : List (Call K V)}
    {replies : List (Reply V)} (returned : start.run order calls = pure (replies, tree)) :
    ∃ t : SearchTree NodeId K V (max order minOrder), tree.Represents t ∧
      t.entries = (Call.answers start.contents calls).2 := by
  have isExact : (start.run order calls).Exact := by
    rw [returned]
    exact Traced.avoids_pure _ _
  obtain ⟨again, t, ran, represents, entriesEq⟩ := start.run_represents calls isExact
  obtain ⟨-, rfl⟩ := Prod.mk.inj (Traced.pure_inj.mp (returned.symm.trans ran))
  exact ⟨t, represents, entriesEq⟩

theorem Start.run_get {start : Start K V} {calls : List (Call K V)}
    {replies : List (Reply V)} (returned : start.run order calls = pure (replies, tree))
    (key : K) :
    tree.get key = pure (Entries.lookup key (Call.answers start.contents calls).2) := by
  obtain ⟨t, represents, entriesEq⟩ := Start.returned_represents returned
  rw [← entriesEq]
  exact represents.get key

end Refinement

end IndexDb
