import IndexDb.Backends
import Mathlib.Data.Finset.Lattice.Fold
import Mathlib.Data.Finset.Range

/-!
# Trees that share a store

The algorithm takes the store and a root, so one store can hold several trees.
Each operation transforms the cells of its own tree and nothing beside them.
So trees that take turns, in any order, each return and become what they do
with a store of their own, although one may be handed the slots that another
gave back.
-/

namespace IndexDb

open LawfulNodeStore

/-- What the tagged items carry for one tag, in order. -/
def ofTag {A : Type} (tag : Nat) (items : List (Nat × A)) : List A :=
  items.filterMap fun item => if item.1 = tag then some item.2 else none

@[simp]
theorem ofTag_nil {A : Type} (tag : Nat) : ofTag tag ([] : List (Nat × A)) = [] :=
  rfl

@[simp]
theorem ofTag_cons_self {A : Type} (tag : Nat) (item : A) (items : List (Nat × A)) :
    ofTag tag ((tag, item) :: items) = item :: ofTag tag items := by
  simp [ofTag]

theorem ofTag_cons_other {A : Type} {tag other : Nat} (different : other ≠ tag)
    (item : A) (items : List (Nat × A)) :
    ofTag tag ((other, item) :: items) = ofTag tag items := by
  simp [ofTag, different]

/-- What stands before and after an index of a list. -/
theorem exists_split {A : Type} {items : List A} {i : Nat} {item : A}
    (found : items[i]? = some item) :
    ∃ left right, items = left ++ item :: right ∧ left.length = i := by
  obtain ⟨inside, rfl⟩ := List.getElem?_eq_some_iff.mp found
  refine ⟨items.take i, items.drop (i + 1), ?_, ?_⟩
  · rw [← List.drop_eq_getElem_cons inside, List.take_append_drop]
  · exact List.length_take_of_le (Nat.le_of_lt inside)

theorem getElem?_beside {A : Type} {left right : List A} {j : Nat}
    (different : j ≠ left.length) (item other : A) :
    (left ++ item :: right)[j]? = (left ++ other :: right)[j]? := by
  rcases Nat.lt_or_gt_of_ne different with below | above
  · rw [List.getElem?_append_left below, List.getElem?_append_left below]
  · rw [List.getElem?_append_right above.le, List.getElem?_append_right above.le]
    obtain ⟨gap, gapEq⟩ : ∃ gap, j - left.length = gap + 1 :=
      ⟨j - left.length - 1, by omega⟩
    rw [gapEq, List.getElem?_cons_succ, List.getElem?_cons_succ]

theorem exists_bound {A : Type} (items : List A) (measure : Nat → A → Nat) :
    ∃ bound, ∀ i item, items[i]? = some item → measure i item ≤ bound := by
  refine ⟨(Finset.range items.length).sup fun i => items[i]?.elim 0 (measure i),
    fun i item found => ?_⟩
  have inside := (List.getElem?_eq_some_iff.mp found).1
  have below := Finset.le_sup (f := fun i => items[i]?.elim 0 (measure i))
    (Finset.mem_range.mpr inside)
  simpa only [found, Option.elim_some] using below

section Definitions

variable {S Id K V : Type} [NodeStore S Id K V]

/-- Begin one tree after the other in a store. -/
def Origin.beginAll (order : Nat) (store : S) : List (Origin K V) → Run (List Id × S)
  | [] => pure ([], store)
  | origin :: origins => do
      let (root, _, store) ← origin.begin order store
      let (roots, store) ← beginAll order store origins
      pure (root :: roots, store)

variable [LT K] [DecidableLT K]

/-- The tree at the index performs an operation. -/
def Action.takeTurn (fuel order : Nat) (store : S) (roots : List Id)
    (turn : Nat × Action K V) : Run ((Nat × Option V) × List Id × S) := do
  let root ← Vec.get roots turn.1
  let (value, root, store) ← turn.2.perform fuel order store root
  let roots ← Vec.set roots turn.1 root
  pure ((turn.1, value), roots, store)

def Action.takeTurns (fuel order : Nat) (store : S) (roots : List Id) :
    List (Nat × Action K V) → Run (List (Nat × Option V) × List Id × S)
  | [] => pure ([], roots, store)
  | turn :: turns => do
      let (reply, roots, store) ← takeTurn fuel order store roots turn
      let (replies, roots, store) ← takeTurns fuel order store roots turns
      pure (reply :: replies, roots, store)

/-- Trees begin in one store, and then take turns. -/
def Origin.share (fuel order : Nat) (store : S) (origins : List (Origin K V))
    (turns : List (Nat × Action K V)) :
    Run (List (Nat × Option V) × List Id × S) := do
  let (roots, store) ← beginAll order store origins
  Action.takeTurns fuel order store roots turns

end Definitions

section Steps

variable {S Id K V : Type} [Preorder K] [NodeStore S Id K V] [LawfulNodeStore S]
  {order : Nat} {before store : S}

theorem Origin.begin_rewrites (large : 3 ≤ order) (origin : Origin K V)
    (ascending : origin.Ascending) (valid : Valid store)
    (supplies : Supplies store (origin.begin order store)) :
    ∃ (t : SearchTree Id K V order) (count : Nat) (next : S),
      origin.begin order store = pure (t.root, count, next) ∧
      t.shape = origin.tree large ascending ∧
      Rewrites true store next [] t.cells t.size := by
  cases origin with
  | emptyLeaf =>
      have nothing : Owned (view store) ([] ++ [] : Cells Id (Node Id K V)) :=
        ⟨by simp, List.nodup_nil⟩
      obtain ⟨id, next, allocated, change⟩ := alloc_owned [] [] Node.emptyLeaf valid
        (supplies.imp (fun endless => endless 1) Traced.Avoids.first) nothing
      refine ⟨.empty large id, 0, next, ?_, rfl, change⟩
      rw [Origin.begin, allocated, pure_bind]
      rfl
  | bulkLoad entries =>
      obtain ⟨t, next, loaded, shapeEq, change⟩ :=
        bulkLoad_refines large ascending valid (supplies.imp (fun endless => endless _) id)
      exact ⟨t, _, next, loaded, shapeEq, change⟩

variable [Std.IsLinearPreorder K] [DecidableLT K]

/-- An operation turns the cells of its tree into those of the tree it leaves. -/
theorem Action.perform_rewrites (t : SearchTree Id K V order) (valid : Valid store)
    (owned : Owned (view store) t.cells) (action : Action K V) {fuel : Nat}
    (enough : t.height < fuel)
    (supplies : (∀ n, Room store n) ∨ (action.perform fuel order store t.root).Exact) :
    ∃ (t' : SearchTree Id K V order) (next : S) (grow : Bool) (n : Nat),
      action.perform fuel order store t.root =
        pure ((action.apply t.shape).1, t'.root, next) ∧
      t'.shape = (action.apply t.shape).2 ∧
      Rewrites grow store next t.cells t'.cells n := by
  cases action with
  | insert key value =>
      obtain ⟨fresh, next, inserted, change⟩ := insert_refines t valid owned key value
        enough (supplies.imp (fun endless => endless _) id)
      have applied : t.shape.insert (fun _ => ()) key value = _ :=
        t.relabel_insert fresh key value fun _ => ()
      refine ⟨(t.insert fresh key value).2, next, true, _, ?_, ?_, change⟩
      · rw [Action.perform, inserted, Action.apply, applied]
      · rw [Action.apply, applied]
        rfl
  | remove key =>
      obtain ⟨next, removed, change⟩ := remove_refines t valid owned key enough
      have applied : t.shape.remove key = _ := t.relabel_remove key fun _ => ()
      refine ⟨(t.remove key).2, next, false, _, ?_, ?_, change⟩
      · rw [Action.perform, removed, Action.apply, applied]
      · rw [Action.apply, applied]
        rfl
  | get key =>
      refine ⟨t, store, false, 0, ?_, rfl, .refl valid owned⟩
      have got : Ops.get fuel store t.root key = _ :=
        get_refines valid owned t.sized t.ordered key enough
      rw [Action.perform, got, pure_bind, Action.apply, SearchTree.shape,
        SearchTree.relabel_entries]
      rfl

end Steps

section Sharing

variable {S Id K V : Type} [Preorder K] [NodeStore S Id K V] [LawfulNodeStore S]
  {order : Nat} {before store : S}

/-- The store holds the trees beside what was in it before. -/
structure HoldsTrees (before store : S) (ts : List (SearchTree Id K V order)) :
    Prop where
  valid : Valid store
  built : Transforms (view before) (view store) [] (ts.flatMap SearchTree.cells)
  room : (∀ n, Room before n) → ∀ n, Room store n

variable {ts left right : List (SearchTree Id K V order)} {t new : SearchTree Id K V order}

theorem HoldsTrees.nil (valid : Valid before) :
    HoldsTrees before before ([] : List (SearchTree Id K V order)) :=
  ⟨valid, .refl ⟨by simp, List.nodup_nil⟩, id⟩

theorem HoldsTrees.owned (holds : HoldsTrees before store (left ++ t :: right)) :
    Owned (view store) t.cells := by
  have all := holds.built.owned
  rw [List.flatMap_append, List.flatMap_cons, ← List.append_assoc] at all
  exact all.part

/-- A change of some cells beside the trees is a change of them all. -/
theorem HoldsTrees.changed {grow : Bool} {next : S} {n : Nat}
    {cells : Cells Id (Node Id K V)}
    (holds : HoldsTrees before store ts)
    (split : ts.flatMap SearchTree.cells =
      left.flatMap SearchTree.cells ++ cells ++ right.flatMap SearchTree.cells)
    (change : Rewrites grow store next cells new.cells n) :
    HoldsTrees before next (left ++ new :: right) where
  valid := change.valid
  built := by
    have built := holds.built
    rw [split] at built
    rw [List.flatMap_append, List.flatMap_cons, ← List.append_assoc]
    exact built.trans (change.transforms.inside built.owned)
  room := fun endless m => change.room m (holds.room endless _)

/-- What was in the store before the trees stays in it. -/
theorem HoldsTrees.kept (holds : HoldsTrees before store ts) {id : Id}
    {node : Node Id K V} (live : view before id = some node) :
    view store id = some node := by
  have isLive : view before id ≠ none := by simp [live]
  rw [holds.built.frame id (List.not_mem_nil) (holds.built.apart isLive (List.not_mem_nil)),
    live]

theorem HoldsTrees.unfolds (holds : HoldsTrees before store ts) {i : Nat}
    (found : ts[i]? = some t) {fuel : Nat} (enough : t.height < fuel) :
    unfold fuel store t.root = pure t.shape.tree.outline := by
  obtain ⟨left, right, rfl, -⟩ := exists_split found
  have outlineEq : t.shape.tree.outline = t.tree.outline :=
    Tree.outline_relabel _ t.tree
  rw [outlineEq]
  exact unfold_stored (stored_owned holds.valid holds.owned) enough

/-- Trees begin beside those that are there. -/
theorem Origin.beginAll_refines (large : 3 ≤ order) (origins : List (Origin K V))
    (ascending : ∀ origin ∈ origins, origin.Ascending)
    (holds : HoldsTrees before store ts)
    (supplies : Supplies before (beginAll order store origins)) :
    ∃ (new : List (SearchTree Id K V order)) (next : S),
      beginAll order store origins = pure (new.map SearchTree.root, next) ∧
      new.map SearchTree.shape =
        origins.pmap (fun origin ascending => origin.tree large ascending) ascending ∧
      HoldsTrees before next (ts ++ new) := by
  induction origins generalizing store ts with
  | nil => exact ⟨[], store, rfl, rfl, by rwa [List.append_nil]⟩
  | cons origin origins ih =>
      rw [beginAll] at supplies ⊢
      obtain ⟨t, count, middle, begun, shapeEq, change⟩ :=
        origin.begin_rewrites large (ascending origin (by simp)) holds.valid
          (supplies.imp holds.room Traced.Avoids.first)
      rw [begun, pure_bind] at supplies ⊢
      dsimp only at supplies ⊢
      have split : ts.flatMap SearchTree.cells =
          ts.flatMap SearchTree.cells ++ [] ++
            ([] : List (SearchTree Id K V order)).flatMap SearchTree.cells := by simp
      obtain ⟨others, next, finished, shapesEq, allHold⟩ :=
        ih (fun other inside => ascending other (by simp [inside]))
          (holds.changed split change) (supplies.imp id Traced.Avoids.first)
      refine ⟨t :: others, next, ?_, ?_, ?_⟩
      · rw [finished, pure_bind]
        rfl
      · rw [List.map_cons, shapeEq, shapesEq]
        rfl
      · rwa [List.append_assoc] at allHold

variable [Std.IsLinearPreorder K] [DecidableLT K]

/-- A turn changes one tree, as its operation does alone. -/
theorem Action.takeTurn_refines (holds : HoldsTrees before store (left ++ t :: right))
    (action : Action K V) {fuel : Nat} (enough : t.height < fuel)
    (supplies : Supplies before (takeTurn fuel order store
      ((left ++ t :: right).map SearchTree.root) (left.length, action))) :
    ∃ (new : SearchTree Id K V order) (next : S),
      takeTurn fuel order store ((left ++ t :: right).map SearchTree.root)
          (left.length, action) =
        pure ((left.length, (action.apply t.shape).1),
          (left ++ new :: right).map SearchTree.root, next) ∧
      new.shape = (action.apply t.shape).2 ∧
      HoldsTrees before next (left ++ new :: right) := by
  have here : ((left ++ t :: right).map SearchTree.root)[left.length]? = some t.root := by
    simp
  rw [takeTurn, Vec.get_eq_pure here, pure_bind] at supplies ⊢
  obtain ⟨new, next, grow, n, performed, shapeEq, change⟩ :=
    perform_rewrites t holds.valid holds.owned action enough
      (supplies.imp holds.room Traced.Avoids.first)
  have split : (left ++ t :: right).flatMap SearchTree.cells =
      left.flatMap SearchTree.cells ++ t.cells ++ right.flatMap SearchTree.cells := by simp
  refine ⟨new, next, ?_, shapeEq, holds.changed split change⟩
  rw [performed, pure_bind]
  dsimp only
  rw [Vec.set_eq_pure here, pure_bind]
  simp

/-- Each tree returns and becomes what it does alone, whatever turns the others
take between its own. -/
theorem Action.takeTurns_refines (holds : HoldsTrees before store ts)
    (turns : List (Nat × Action K V)) (addressed : ∀ turn ∈ turns, turn.1 < ts.length)
    {fuel : Nat}
    (enough : ∀ i t, ts[i]? = some t → highest t.shape (ofTag i turns) < fuel)
    (supplies : Supplies before
      (takeTurns fuel order store (ts.map SearchTree.root) turns)) :
    ∃ (replies : List (Nat × Option V)) (last : List (SearchTree Id K V order))
      (next : S),
      takeTurns fuel order store (ts.map SearchTree.root) turns =
        pure (replies, last.map SearchTree.root, next) ∧
      HoldsTrees before next last ∧
      ∀ i t, ts[i]? = some t → ∃ t', last[i]? = some t' ∧
        ofTag i replies = (applyAll t.shape (ofTag i turns)).1 ∧
        t'.shape = (applyAll t.shape (ofTag i turns)).2 := by
  induction turns generalizing store ts with
  | nil =>
      exact ⟨[], ts, store, rfl, holds, fun i t found => ⟨t, found, rfl, rfl⟩⟩
  | cons turn turns ih =>
      obtain ⟨i, action⟩ := turn
      have inside : i < ts.length := addressed (i, action) (by simp)
      obtain ⟨t, found⟩ : ∃ t, ts[i]? = some t := ⟨_, List.getElem?_eq_getElem inside⟩
      obtain ⟨left, right, rfl, rfl⟩ := exists_split found
      have here : (left ++ t :: right)[left.length]? = some t := by simp
      have first := enough left.length t here
      rw [ofTag_cons_self] at first
      rw [takeTurns] at supplies ⊢
      obtain ⟨new, middle, taken, newShape, middleHolds⟩ := takeTurn_refines holds
        action ((Nat.le_max_left _ _).trans_lt first) (supplies.imp id Traced.Avoids.first)
      rw [taken, pure_bind] at supplies ⊢
      dsimp only at supplies ⊢
      have newHere : (left ++ new :: right)[left.length]? = some new := by simp
      obtain ⟨replies, last, next, finished, lastHolds, each⟩ := ih middleHolds
        (fun other member => by simpa using addressed other (by simp [member]))
        (fun j u found => by
          by_cases same : j = left.length
          · subst same
            obtain rfl := Option.some_inj.mp (newHere.symm.trans found)
            rw [newShape]
            exact (Nat.le_max_right _ _).trans_lt first
          · rw [getElem?_beside same new t] at found
            have bound := enough j u found
            rwa [ofTag_cons_other (Ne.symm same)] at bound)
        (supplies.imp id Traced.Avoids.first)
      refine ⟨(left.length, (action.apply t.shape).1) :: replies, last, next, ?_,
        lastHolds, fun j u found => ?_⟩
      · rw [finished, pure_bind]
      · by_cases same : j = left.length
        · subst same
          obtain rfl := Option.some_inj.mp (here.symm.trans found)
          obtain ⟨final, finalHere, ownReplies, finalShape⟩ := each _ new newHere
          rw [newShape] at ownReplies finalShape
          rw [ofTag_cons_self, ofTag_cons_self, ownReplies]
          exact ⟨final, finalHere, rfl, finalShape⟩
        · rw [ofTag_cons_other (Ne.symm same), ofTag_cons_other (Ne.symm same)]
          exact each j u (by rw [getElem?_beside same new t, found])

/-- Each tree of a shared store returns and becomes what the pure run does. -/
theorem Origin.share_refines (large : 3 ≤ order) (origins : List (Origin K V))
    (ascending : ∀ origin ∈ origins, origin.Ascending) (turns : List (Nat × Action K V))
    (addressed : ∀ turn ∈ turns, turn.1 < origins.length) {fuel : Nat}
    (enough : ∀ i origin ascending, origins[i]? = some origin →
      Action.highest (origin.tree large ascending) (ofTag i turns) < fuel)
    (valid : Valid store) (supplies : Supplies store (share fuel order store origins turns)) :
    ∃ (replies : List (Nat × Option V)) (last : List (SearchTree Id K V order))
      (next : S),
      share fuel order store origins turns =
        pure (replies, last.map SearchTree.root, next) ∧
      HoldsTrees store next last ∧
      ∀ i origin ascending, origins[i]? = some origin →
        ∃ t', last[i]? = some t' ∧
          ofTag i replies =
            (Action.applyAll (origin.tree large ascending) (ofTag i turns)).1 ∧
          t'.shape = (Action.applyAll (origin.tree large ascending) (ofTag i turns)).2 := by
  have start : HoldsTrees store store ([] : List (SearchTree Id K V order)) := .nil valid
  rw [share] at supplies ⊢
  obtain ⟨ts, middle, begun, shapesEq, holds⟩ := beginAll_refines large origins ascending
    start (supplies.imp id Traced.Avoids.first)
  have lengthEq : ts.length = origins.length := by
    simpa using congrArg List.length shapesEq
  have begins (i : Nat) (t : SearchTree Id K V order) (found : ts[i]? = some t) :
      ∃ origin ascending, origins[i]? = some origin ∧
        t.shape = origin.tree large ascending := by
    have same := congrArg (·[i]?) shapesEq
    simp only [List.getElem?_map, found, Option.map_some, List.getElem?_pmap] at same
    obtain ⟨origin, isAscending, originFound, shapeEq⟩ :=
      Option.pmap_eq_some_iff.mp same.symm
    exact ⟨origin, isAscending, originFound, shapeEq⟩
  rw [begun, pure_bind] at supplies ⊢
  dsimp only at supplies ⊢
  obtain ⟨replies, last, next, performed, lastHolds, each⟩ := Action.takeTurns_refines
    holds turns (fun turn member => lengthEq ▸ addressed turn member)
    (fun i t found => by
      obtain ⟨origin, ascending, originFound, shapeEq⟩ := begins i t found
      exact shapeEq ▸ enough i origin ascending originFound) supplies
  refine ⟨replies, last, next, performed, lastHolds, fun i origin ascending found => ?_⟩
  obtain ⟨t, tFound⟩ : ∃ t, ts[i]? = some t := by
    have inside := (List.getElem?_eq_some_iff.mp found).1
    exact ⟨_, List.getElem?_eq_getElem (lengthEq ▸ inside)⟩
  obtain ⟨same, isAscending, originFound, shapeEq⟩ := begins i t tFound
  obtain rfl := Option.some_inj.mp (found.symm.trans originFound)
  exact shapeEq ▸ each i t tFound

end Sharing

section Main

variable {S Id K V : Type} [LinearOrder K] [NodeStore S Id K V] [LawfulNodeStore S]

/-- However the trees of a store take turns, each of them returns what it returns
with the store to itself, and its root unfolds to the same tree; what else is in
the store stays as it is. -/
theorem shared_agrees_alone (order : Nat) (large : 3 ≤ order)
    (origins : List (Origin K V)) (ascending : ∀ origin ∈ origins, origin.Ascending)
    (turns : List (Nat × Action K V))
    (addressed : ∀ turn ∈ turns, turn.1 < origins.length)
    (store : S) (valid : Valid store) :
    ∃ bound, ∀ fuel, bound < fuel →
      Supplies store (Origin.share fuel order store origins turns) →
      ∃ replies roots next,
        Origin.share fuel order store origins turns = pure (replies, roots, next) ∧
        (∀ id node, view store id = some node → view next id = some node) ∧
        ∀ i origin, origins[i]? = some origin →
          Supplies store (origin.run fuel order store (ofTag i turns)) →
          ∃ count root alone aloneNext outline,
            origin.run fuel order store (ofTag i turns) =
              pure (count, ofTag i replies, alone, aloneNext) ∧
            roots[i]? = some root ∧
            unfold fuel next root = pure outline ∧
            unfold fuel aloneNext alone = pure outline := by
  obtain ⟨bound, bounded⟩ := exists_bound
    (origins.pmap (fun origin ascending => origin.tree large ascending) ascending)
    fun i shape => Action.highest shape (ofTag i turns)
  refine ⟨bound, fun fuel enough supplies => ?_⟩
  have low (i : Nat) (origin : Origin K V) (isAscending : origin.Ascending)
      (found : origins[i]? = some origin) :
      Action.highest (origin.tree large isAscending) (ofTag i turns) < fuel := by
    refine (bounded i _ ?_).trans_lt enough
    rw [List.getElem?_pmap]
    simp [found]
  obtain ⟨replies, last, next, performed, holds, each⟩ := Origin.share_refines large
    origins ascending turns addressed low valid supplies
  refine ⟨replies, last.map SearchTree.root, next, performed,
    fun id node live => holds.kept live, fun i origin found aloneSupplies => ?_⟩
  have isAscending := ascending origin (List.mem_of_getElem? found)
  have enoughAlone := low i origin isAscending found
  obtain ⟨t, tFound, repliesEq, shapeEq⟩ := each i origin isAscending found
  obtain ⟨alone, aloneNext, ran, aloneUnfolds⟩ := origin.run_refines large isAscending
    (ofTag i turns) enoughAlone valid aloneSupplies
  rw [← repliesEq] at ran
  rw [← shapeEq] at aloneUnfolds
  have lowLast : t.height < fuel := by
    have last := (Action.last_le_highest _ _).trans_lt enoughAlone
    rw [← shapeEq] at last
    exact last
  exact ⟨_, t.root, alone, aloneNext, _, ran, by simp [tFound],
    holds.unfolds tFound lowLast, aloneUnfolds⟩

/-- Two trees in a store that reuses slots: the second inserts after a removal of
the first, which merges, gave slots back. -/
theorem shared_agrees_alone_slots :
    ∃ bound, ∀ fuel, bound < fuel →
      ∃ replies roots next,
        Origin.share fuel 3 (⟨[]⟩ : SlotStore true Nat Nat)
            [.bulkLoad [(1, 10), (2, 20), (3, 30)], .emptyLeaf]
            [(0, .remove 1), (0, .remove 2), (1, .insert 1 11), (1, .insert 2 21),
              (1, .insert 3 31), (0, .get 3), (1, .remove 2)] =
          pure (replies, roots, next) ∧
        ∃ count root alone aloneNext outline,
          Origin.run fuel 3 (⟨[]⟩ : SlotStore true Nat Nat) .emptyLeaf
              [.insert 1 11, .insert 2 21, .insert 3 31, .remove 2] =
            pure (count, ofTag 1 replies, alone, aloneNext) ∧
          roots[1]? = some root ∧
          unfold fuel next root = pure outline ∧
          unfold fuel aloneNext alone = pure outline := by
  obtain ⟨bound, agrees⟩ := shared_agrees_alone 3 (Nat.le_refl 3)
    [.bulkLoad [(1, 10), (2, 20), (3, 30)], .emptyLeaf]
    (by simp [Origin.Ascending, Ascending])
    [(0, .remove 1), (0, .remove 2), (1, .insert 1 11), (1, .insert 2 21),
      (1, .insert 3 31), (0, .get 3), (1, .remove 2)]
    (by decide) (⟨[]⟩ : SlotStore true Nat Nat) trivial
  refine ⟨bound, fun fuel enough => ?_⟩
  obtain ⟨replies, roots, next, shared, -, each⟩ :=
    agrees fuel enough (.inl fun _ => trivial)
  exact ⟨replies, roots, next, shared, each 1 .emptyLeaf rfl (.inl fun _ => trivial)⟩

end Main

end IndexDb
