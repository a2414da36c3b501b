import IndexDb.SlotStores
import IndexDb.StoredBulk
import IndexDb.StoredInsert
import IndexDb.StoredRemove
import IndexDb.Unfolding

/-!
# The algorithm does not see its backend

Over any lawful store the operations do what the pure ones do on the tree that
the root unfolds to, and those do not look at labels.  So two backends agree
on every value, and their trees differ in ids only.
-/

namespace IndexDb

open LawfulNodeStore

/-- A tree without ids. -/
inductive Outline (K V : Type) where
  | leaf (leaf : Leaf K V)
  | internal (keys : List K) (children : List (Outline K V))

/-- How a run over a store starts. -/
inductive Origin (K V : Type) where
  | emptyLeaf
  | bulkLoad (entries : List (K × V))

/-- An operation of the algorithm. -/
inductive Action (K V : Type) where
  | insert (key : K) (value : V)
  | remove (key : K)
  | get (key : K)

section Definitions

variable {S Id K V α : Type} [NodeStore S Id K V]

def unfoldAll (unfold : Id → Run α) : List Id → Run (List α)
  | [] => pure []
  | id :: ids => do
      let first ← unfold id
      let others ← unfoldAll unfold ids
      pure (first :: others)

/-- Read the tree under the id. -/
def unfold : Nat → S → Id → Run (Outline K V)
  | 0, _, _ => Traced.fail .diverges
  | fuel + 1, store, id => do
      match ← NodeStore.get store id with
      | .leaf leaf => pure (.leaf leaf)
      | .internal internal =>
          let children ← unfoldAll (unfold fuel store) internal.children
          pure (.internal internal.keys children)

/-- The root and the entry count that a run starts with. -/
def Origin.begin (order : Nat) (store : S) : Origin K V → Run (Id × Nat × S)
  | .emptyLeaf => do
      let (root, store) ← NodeStore.alloc store Node.emptyLeaf
      pure (root, 0, store)
  | .bulkLoad entries => Ops.bulkLoad store entries order

def Origin.Ascending [LT K] : Origin K V → Prop
  | .emptyLeaf => True
  | .bulkLoad entries => IndexDb.Ascending entries

variable [LT K] [DecidableLT K]

/-- The value that the operation returns, and the root. -/
def Action.perform (fuel order : Nat) (store : S) (root : Id) :
    Action K V → Run (Option V × Id × S)
  | .insert key value => Ops.insert fuel store root key value order
  | .remove key => Ops.remove fuel store root key (leastKeys order)
  | .get key => do
      let found ← Ops.get fuel store root key
      pure (found, root, store)

def Action.performAll (fuel order : Nat) (store : S) (root : Id) :
    List (Action K V) → Run (List (Option V) × Id × S)
  | [] => pure ([], root, store)
  | action :: actions => do
      let (value, root, store) ← action.perform fuel order store root
      let (values, root, store) ← performAll fuel order store root actions
      pure (value :: values, root, store)

/-- The entry count at the start, the values of the operations, and the root. -/
def Origin.run (fuel order : Nat) (store : S) (origin : Origin K V)
    (actions : List (Action K V)) : Run (Nat × List (Option V) × Id × S) := do
  let (root, count, store) ← origin.begin order store
  let (values, root, store) ← Action.performAll fuel order store root actions
  pure (count, values, root, store)

end Definitions

section Outlines

variable {L M K V : Type} {h : Nat}

def Tree.outline : {h : Nat} → Tree L K V h → Outline K V
  | 0, tree => .leaf (.ofEntries tree.body)
  | _ + 1, tree => .internal tree.body.keys (tree.body.children.map outline)

theorem Tree.outline_relabel (f : L → M) (tree : Tree L K V h) :
    (tree.relabel f).outline = tree.outline := by
  induction h with
  | zero => rfl
  | succ h ih =>
      simp only [outline, Tree.relabel, Internal.map, List.map_map]
      congr 1
      exact List.map_congr_left fun child _ => ih child

variable {S Id : Type} [NodeStore S Id K V]

theorem unfoldAll_eq {α β : Type} {read : Id → Run α} {name : β → Id} {value : β → α}
    {items : List β} (reads : ∀ item ∈ items, read (name item) = pure (value item)) :
    unfoldAll read (items.map name) = pure (items.map value) := by
  induction items with
  | nil => rfl
  | cons item items ih =>
      rw [List.map_cons, unfoldAll, reads item (by simp), pure_bind,
        ih fun other inside => reads other (by simp [inside]), pure_bind]
      rfl

/-- The root of a stored tree unfolds to its outline. -/
theorem unfold_stored {store : S} {tree : Tree Id K V h} (stored : Stored store tree)
    {fuel : Nat} (enough : h < fuel) :
    unfold fuel store tree.label = pure tree.outline := by
  induction h generalizing fuel with
  | zero =>
      obtain ⟨fuel, rfl⟩ : ∃ rest, fuel = rest + 1 := ⟨fuel - 1, by omega⟩
      rw [unfold, stored _ (Tree.self_mem_subtrees tree), pure_bind]
      rfl
  | succ h ih =>
      obtain ⟨fuel, rfl⟩ : ∃ rest, fuel = rest + 1 := ⟨fuel - 1, by omega⟩
      have children : unfoldAll (unfold fuel store)
          (tree.body.children.map Tree.label) =
          pure (tree.body.children.map Tree.outline) :=
        unfoldAll_eq fun child member =>
          ih (stored.child member) (Nat.lt_of_succ_lt_succ enough)
      rw [unfold, stored _ (Tree.self_mem_subtrees tree), pure_bind]
      simp only [Tree.node, Internal.map]
      rw [children, pure_bind]
      rfl

end Outlines

section Pure

variable {K V : Type} [Preorder K] {order : Nat}

/-- The tree that a run starts with. -/
def Origin.tree (large : 3 ≤ order) :
    (origin : Origin K V) → origin.Ascending → SearchTree Unit K V order
  | .emptyLeaf, _ => .empty large ()
  | .bulkLoad _, ascending => .bulk large ascending

variable [Std.IsLinearPreorder K] [DecidableLT K]

def Action.apply (t : SearchTree Unit K V order) :
    Action K V → Option V × SearchTree Unit K V order
  | .insert key value => t.insert (fun _ => ()) key value
  | .remove key => t.remove key
  | .get key => (Entries.lookup key t.entries, t)

def Action.applyAll (t : SearchTree Unit K V order) :
    List (Action K V) → List (Option V) × SearchTree Unit K V order
  | [] => ([], t)
  | action :: actions =>
      let (value, t) := action.apply t
      let (values, t) := applyAll t actions
      (value :: values, t)

/-- The height of the highest tree on the way. -/
def Action.highest (t : SearchTree Unit K V order) : List (Action K V) → Nat
  | [] => t.height
  | action :: actions => max t.height (highest (action.apply t).2 actions)

theorem Action.last_le_highest (t : SearchTree Unit K V order)
    (actions : List (Action K V)) :
    (applyAll t actions).2.height ≤ highest t actions := by
  induction actions generalizing t with
  | nil => exact Nat.le_refl _
  | cons action actions ih =>
      exact (ih (action.apply t).2).trans (Nat.le_max_right _ _)

end Pure

section Holding

variable {S Id K V : Type} [Preorder K] [NodeStore S Id K V] [LawfulNodeStore S]
  {order : Nat}

/-- The store never lacks an id for the run: it has room without end, or no cast
of the run is lossy. -/
def Supplies {α : Type} (store : S) (run : Run α) : Prop :=
  (∀ n, Room store n) ∨ run.Exact

/-- The store holds a tree of that shape. -/
structure HoldsShape (before store : S) (t : SearchTree Id K V order)
    (shape : SearchTree Unit K V order) : Prop where
  shape_eq : t.shape = shape
  valid : Valid store
  owned : Owned (view store) t.cells
  room : (∀ n, Room before n) → ∀ n, Room store n

variable {before store : S} {t : SearchTree Id K V order}
  {shape : SearchTree Unit K V order}

theorem HoldsShape.rewritten (holds : HoldsShape before store t shape) {grow : Bool}
    {next : S} {new : SearchTree Id K V order} {n : Nat}
    (change : Rewrites grow store next t.cells new.cells n) :
    HoldsShape before next new new.shape where
  shape_eq := rfl
  valid := change.valid
  owned := change.owned
  room := fun endless m => change.room m (holds.room endless _)

theorem HoldsShape.unfolds (holds : HoldsShape before store t shape) {fuel : Nat}
    (enough : shape.height < fuel) :
    unfold fuel store t.root = pure shape.tree.outline := by
  obtain rfl := holds.shape_eq
  have outlineEq : t.shape.tree.outline = t.tree.outline :=
    Tree.outline_relabel _ t.tree
  rw [outlineEq]
  exact unfold_stored (stored_owned holds.valid holds.owned) enough

/-- Every start builds the tree of the pure construction. -/
theorem Origin.begin_refines (large : 3 ≤ order) (origin : Origin K V)
    (ascending : origin.Ascending) (valid : Valid store)
    (supplies : Supplies store (origin.begin order store)) :
    ∃ (t : SearchTree Id K V order) (count : Nat) (next : S),
      origin.begin order store = pure (t.root, count, next) ∧
      count = (origin.tree large ascending).entries.length ∧
      HoldsShape store next t (origin.tree large ascending) := by
  cases origin with
  | emptyLeaf =>
      have nothing : Owned (view store) ([] ++ [] : Cells Id (Node Id K V)) :=
        ⟨by simp, List.nodup_nil⟩
      obtain ⟨id, next, allocated, change⟩ := alloc_owned [] [] Node.emptyLeaf valid
        (supplies.imp (fun endless => endless 1) Traced.Avoids.first) nothing
      refine ⟨.empty large id, 0, next, ?_, rfl, rfl, change.valid, change.owned,
        fun endless n => change.room n (endless _)⟩
      rw [Origin.begin, allocated, pure_bind]
      rfl
  | bulkLoad entries =>
      obtain ⟨t, next, loaded, shapeEq, change⟩ :=
        bulkLoad_refines large ascending valid (supplies.imp (fun endless => endless _) id)
      have lengthEq := congrArg List.length (SearchTree.bulk_entries large ascending)
      exact ⟨t, _, next, loaded, lengthEq.symm, shapeEq, change.valid, change.owned,
        fun endless n => change.room n (endless _)⟩

end Holding

section Refinement

variable {S Id K V : Type} [Preorder K] [Std.IsLinearPreorder K] [DecidableLT K]
  [NodeStore S Id K V] [LawfulNodeStore S] {order : Nat} {before store : S}
  {t : SearchTree Id K V order} {shape : SearchTree Unit K V order}

/-- Every operation does what it does on the shape. -/
theorem Action.perform_refines (holds : HoldsShape before store t shape)
    (action : Action K V) {fuel : Nat} (enough : shape.height < fuel)
    (supplies : Supplies before (action.perform fuel order store t.root)) :
    ∃ (t' : SearchTree Id K V order) (next : S),
      action.perform fuel order store t.root =
        pure ((action.apply shape).1, t'.root, next) ∧
      HoldsShape before next t' (action.apply shape).2 := by
  obtain rfl := holds.shape_eq
  cases action with
  | insert key value =>
      obtain ⟨fresh, next, inserted, change⟩ := insert_refines t holds.valid
        holds.owned key value enough
        (supplies.imp (fun endless => holds.room endless _) id)
      have applied : t.shape.insert (fun _ => ()) key value = _ :=
        t.relabel_insert fresh key value fun _ => ()
      refine ⟨(t.insert fresh key value).2, next, ?_, ?_⟩
      · rw [Action.perform, inserted, Action.apply, applied]
      · rw [Action.apply, applied]
        exact holds.rewritten change
  | remove key =>
      obtain ⟨next, removed, change⟩ := remove_refines t holds.valid holds.owned key
        enough
      have applied : t.shape.remove key = _ := t.relabel_remove key fun _ => ()
      refine ⟨(t.remove key).2, next, ?_, ?_⟩
      · rw [Action.perform, removed, Action.apply, applied]
      · rw [Action.apply, applied]
        exact holds.rewritten change
  | get key =>
      refine ⟨t, store, ?_, holds⟩
      have got : Ops.get fuel store t.root key = _ :=
        get_refines holds.valid holds.owned t.sized t.ordered key enough
      rw [Action.perform, got, pure_bind, Action.apply, SearchTree.shape,
        SearchTree.relabel_entries]
      rfl

theorem Action.performAll_refines (holds : HoldsShape before store t shape)
    (actions : List (Action K V)) {fuel : Nat} (enough : highest shape actions < fuel)
    (supplies : Supplies before (performAll fuel order store t.root actions)) :
    ∃ (t' : SearchTree Id K V order) (next : S),
      performAll fuel order store t.root actions =
        pure ((applyAll shape actions).1, t'.root, next) ∧
      HoldsShape before next t' (applyAll shape actions).2 := by
  induction actions generalizing store t shape with
  | nil => exact ⟨t, store, rfl, holds⟩
  | cons action actions ih =>
      rw [performAll] at supplies ⊢
      obtain ⟨middle, next, performed, middleHolds⟩ := perform_refines holds action
        ((Nat.le_max_left _ _).trans_lt enough)
        (supplies.imp id Traced.Avoids.first)
      rw [performed, pure_bind] at supplies ⊢
      dsimp only at supplies ⊢
      obtain ⟨last, final, finished, lastHolds⟩ := ih middleHolds
        ((Nat.le_max_right _ _).trans_lt enough)
        (supplies.imp id Traced.Avoids.first)
      refine ⟨last, final, ?_, lastHolds⟩
      rw [finished, pure_bind]
      rfl

/-- A run over a store gives the values of the pure run, and a root that unfolds
to the tree it leaves. -/
theorem Origin.run_refines (large : 3 ≤ order) (origin : Origin K V)
    (ascending : origin.Ascending) (actions : List (Action K V)) {fuel : Nat}
    (enough : Action.highest (origin.tree large ascending) actions < fuel)
    (valid : Valid store)
    (supplies : Supplies store (origin.run fuel order store actions)) :
    ∃ root next, origin.run fuel order store actions =
        pure ((origin.tree large ascending).entries.length,
          (Action.applyAll (origin.tree large ascending) actions).1, root, next) ∧
      unfold fuel next root = pure
        (Action.applyAll (origin.tree large ascending) actions).2.tree.outline := by
  rw [Origin.run] at supplies ⊢
  obtain ⟨t, count, middle, begun, rfl, holds⟩ := origin.begin_refines large ascending
    valid (supplies.imp id Traced.Avoids.first)
  rw [begun, pure_bind] at supplies ⊢
  dsimp only at supplies ⊢
  obtain ⟨last, next, performed, lastHolds⟩ := Action.performAll_refines holds actions
    enough (supplies.imp id Traced.Avoids.first)
  refine ⟨last.root, next, ?_,
    lastHolds.unfolds ((Action.last_le_highest _ actions).trans_lt enough)⟩
  rw [performed, pure_bind]

end Refinement

section Main

variable {S T Id Jd K V : Type} [LinearOrder K] [NodeStore S Id K V]
  [LawfulNodeStore S] [NodeStore T Jd K V] [LawfulNodeStore T]

/-- Two lawful backends return the same values at every step of every run, and
their roots unfold to the same tree. -/
theorem backends_agree (order : Nat) (large : 3 ≤ order) (origin : Origin K V)
    (ascending : origin.Ascending) (actions : List (Action K V))
    (store : S) (valid : Valid store) (other : T) (otherValid : Valid other) :
    ∃ bound, ∀ fuel, bound < fuel →
      Supplies store (origin.run fuel order store actions) →
      Supplies other (origin.run fuel order other actions) →
      ∃ count values root next otherRoot otherNext outline,
        origin.run fuel order store actions = pure (count, values, root, next) ∧
        origin.run fuel order other actions =
          pure (count, values, otherRoot, otherNext) ∧
        unfold fuel next root = pure outline ∧
        unfold fuel otherNext otherRoot = pure outline := by
  refine ⟨Action.highest (origin.tree large ascending) actions,
    fun fuel enough supplies otherSupplies => ?_⟩
  obtain ⟨root, next, ran, unfolds⟩ :=
    origin.run_refines large ascending actions enough valid supplies
  obtain ⟨otherRoot, otherNext, otherRan, otherUnfolds⟩ :=
    origin.run_refines large ascending actions enough otherValid otherSupplies
  exact ⟨_, _, root, next, otherRoot, otherNext, _, ran, otherRan, unfolds,
    otherUnfolds⟩

/-- A backend that reuses slots agrees with one that never does. -/
theorem backends_agree_slots :
    ∃ bound, ∀ fuel, bound < fuel →
      ∃ count values root next otherRoot otherNext outline,
        Origin.run fuel 3 (⟨[]⟩ : SlotStore true Nat Nat)
          (.bulkLoad [(1, 10), (2, 20), (3, 30)])
          [.remove 1, .insert 4 40, .insert 5 50, .get 2] =
            pure (count, values, root, next) ∧
        Origin.run fuel 3 (⟨[]⟩ : SlotStore false Nat Nat)
          (.bulkLoad [(1, 10), (2, 20), (3, 30)])
          [.remove 1, .insert 4 40, .insert 5 50, .get 2] =
            pure (count, values, otherRoot, otherNext) ∧
        unfold fuel next root = pure outline ∧
        unfold fuel otherNext otherRoot = pure outline := by
  obtain ⟨bound, agrees⟩ := backends_agree 3 (Nat.le_refl 3)
    (.bulkLoad [(1, 10), (2, 20), (3, 30)]) (by simp [Origin.Ascending, Ascending])
    [.remove 1, .insert 4 40, .insert 5 50, .get 2]
    (⟨[]⟩ : SlotStore true Nat Nat) trivial (⟨[]⟩ : SlotStore false Nat Nat) trivial
  exact ⟨bound, fun fuel enough =>
    agrees fuel enough (.inl fun _ => trivial) (.inl fun _ => trivial)⟩

end Main

end IndexDb
