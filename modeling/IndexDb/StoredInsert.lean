import IndexDb.StoredTree

/-!
# Insertion into stored trees

Each level of the insertion rewrites one node and may allocate its right half.
The new nodes get whatever ids the store hands out, so the insertion on the
store is the insertion on the tree for some choice of labels.
-/

namespace IndexDb

open LawfulNodeStore

variable {S Id K V : Type} [NodeStore S Id K V]

/-- What the parent is told, the right node named by its label. -/
def Grown.outcome {T : Type} (label : T → Id) : Grown T K V → Insert Id K V
  | .replaced old _ => .replaced old
  | .done _ => .done
  | .split _ sep right => .split sep (label right)

namespace Ops

/-- Write back what is left of a node, and allocate its right half if it was
split. -/
def settle (write : Node Id K V → S) :
    Grown (Node Id K V) K V → Run (Insert Id K V × S)
  | .replaced old node => pure (.replaced old, write node)
  | .done node => pure (.done, write node)
  | .split left sep right => do
      let (id, store) ← NodeStore.alloc (write left) right
      pure (.split sep id, store)

theorem insertLeaf_settles [Preorder K] [Std.IsLinearPreorder K]
    [DecidableLT K] {store : S} {id : Id} {entries : List (K × V)}
    {write : Node Id K V → S}
    (returned : NodeStore.getMut store id =
      pure (.leaf (.ofEntries entries), write))
    (ascending : Ascending entries) (key : K) (value : V) (order : Nat) :
    insertLeaf store id key value order =
      settle write ((insertEntries order key value entries).map fun entries =>
        .leaf (.ofEntries entries)) := by
  have correct := Entries.search_answer key ascending
  simp only [insertLeaf, returned, pure_bind, Leaf.ofEntries, insertEntries]
  generalize binarySearch (entries.map Prod.fst) key = answer at correct
  cases correct with
  | @found before after entry split below same above =>
      subst split
      simp [Vec.get, Vec.set, Grown.map, settle]
  | @missing before after split below above =>
      subst split
      have keysEq : Vec.insert ((before ++ after).map Prod.fst) before.length key =
          pure ((before ++ (key, value) :: after).map Prod.fst) := by
        simp [Vec.insert]
      have valsEq : Vec.insert ((before ++ after).map Prod.snd) before.length value =
          pure ((before ++ (key, value) :: after).map Prod.snd) := by
        simp [Vec.insert]
      have positive : 0 < (before ++ (key, value) :: after).length := by simp
      simp only [keysEq, valsEq, pure_bind, List.take_left, List.drop_left,
        List.length_map]
      generalize before ++ (key, value) :: after = wide at positive ⊢
      by_cases fits : wide.length < order
      · simp [fits, Grown.map, settle]
      · have middle : wide.length / 2 ≤ wide.length := Nat.div_le_self _ _
        simp only [if_neg fits]
        rw [Vec.splitOff_of_le (by simpa using middle),
          Vec.splitOff_of_le (by simpa using middle)]
        simp only [pure_bind, ← List.map_drop, ← List.map_take]
        cases rest : wide.drop (wide.length / 2) with
        | nil =>
            have := congrArg List.length rest
            simp only [List.length_drop, List.length_nil] at this
            omega
        | cons next right => simp [Grown.map, settle]

/-- What a parent does after the insertion into its child. -/
def afterChild (store : S) (id : Id) (idx order : Nat) :
    Insert Id K V → Run (Insert Id K V × S)
  | .split sep right => absorbSplit store id idx sep right order
  | settled => pure (settled, store)

/-- What the root does after the insertion into the tree. -/
def afterRoot (store : S) (root : Id) :
    Insert Id K V → Run (Option V × Id × S)
  | .replaced old => pure (some old, root, store)
  | .done => pure (none, root, store)
  | .split sep right => do
      let (newRoot, store) ← NodeStore.alloc store
        (.internal { keys := [sep], children := [root, right] })
      pure (none, newRoot, store)

section Descent

variable [LT K] [DecidableLT K] {store : S} {id child : Id}
  {internal : Internal K Id} {key : K} {value : V} {order fuel : Nat}

theorem insertInto_child_exact
    (got : NodeStore.get store id = pure (.internal internal))
    (chosen : Vec.get internal.children (internal.childIndex key) = pure child)
    (isExact : (insertInto (fuel + 1) store id key value order).Exact) :
    (insertInto fuel store child key value order).Exact := by
  simp only [insertInto, got, chosen, pure_bind] at isExact
  exact isExact.first

theorem insertInto_node
    (got : NodeStore.get store id = pure (.internal internal))
    (chosen : Vec.get internal.children (internal.childIndex key) = pure child)
    {outcome : Insert Id K V} {middle : S}
    (inserted : insertInto fuel store child key value order =
      pure (outcome, middle)) :
    insertInto (fuel + 1) store id key value order =
      afterChild middle id (internal.childIndex key) order outcome := by
  simp only [insertInto, got, chosen, inserted, pure_bind]
  cases outcome <;> rfl

end Descent

theorem insert_keys_fill (hole : Hole K Id) (left : Id) (sep : K) (right : Id) :
    Vec.insert (hole.fill left).keys hole.index sep =
      pure (hole.fillTwo left sep right).keys := by
  have even := hole.left_even
  simp [Hole.fill, Hole.fillTwo, Hole.index, ← even]

theorem insert_children_fill (hole : Hole K Id) (left : Id) (sep : K)
    (right : Id) :
    Vec.insert (hole.fill left).children (hole.index + 1) right =
      pure (hole.fillTwo left sep right).children := by
  have inserted := Vec.insert_append (hole.leftChildren ++ [left])
    hole.rightChildren right
  simpa [Hole.fill, Hole.fillTwo, Hole.index] using inserted

/-- The vector operations that cut a node out of a wider one halve it. -/
theorem absorbSplit_settles {store : S} {id : Id} {hole : Hole K Id} {left : Id}
    {write : Node Id K V → S}
    (returned : NodeStore.getMut store id =
      pure (.internal (hole.fill left), write))
    (sep : K) (right : Id) (order : Nat) :
    absorbSplit store id hole.index sep right order =
      settle write (((hole.fill left).absorb order hole.index
        (.split left sep right : Grown Id K V)).map .internal) := by
  have forked := hole.forked_fillTwo left sep right
  have nonempty : (hole.fillTwo left sep right).keys ≠ [] := by
    simp [Hole.fillTwo]
  simp only [absorbSplit, returned, pure_bind, Internal.absorb, Hole.link_fill,
    insert_keys_fill hole left sep right, insert_children_fill hole left sep right]
  generalize hole.fillTwo left sep right = wide at forked nonempty ⊢
  by_cases fits : wide.keys.length < order
  · simp [fits, Grown.map, settle]
  · have positive : 0 < wide.keys.length := List.length_pos_iff.mpr nonempty
    obtain ⟨front, median, tail, cut, frontLength⟩ :
        ∃ front median tail, wide.keys = front ++ median :: tail ∧
          front.length = wide.keys.length / 2 := by
      have inside : wide.keys.length / 2 < wide.keys.length := by omega
      refine ⟨wide.keys.take (wide.keys.length / 2),
        wide.keys[wide.keys.length / 2],
        wide.keys.drop (wide.keys.length / 2 + 1), ?_, ?_⟩
      · rw [← List.drop_eq_getElem_cons inside, List.take_append_drop]
      · rw [List.length_take]
        omega
    unfold Internal.Forked at forked
    simp only [if_neg fits, Internal.halve, ← frontLength]
    have keysLength : wide.keys.length = front.length + (tail.length + 1) := by
      rw [cut, List.length_append, List.length_cons]
    rw [Vec.splitOff_of_le (by omega), Vec.splitOff_of_le (by omega), cut]
    have takeEq : (front ++ median :: tail).take (front.length + 1) =
        front ++ [median] := by
      rw [List.append_cons]
      exact List.take_left' (by simp)
    have dropEq : (front ++ median :: tail).drop (front.length + 1) = tail := by
      rw [List.append_cons]
      exact List.drop_left' (by simp)
    simp [takeEq, dropEq, Grown.map, settle]

end Ops

section Refinement

variable [LawfulNodeStore S] {store : S}

/-- Settling a node rewrites its cell and adds one for a right half.  `below`
gives the cells under a node body and `content` what the body is stored as. -/
theorem settle_refines {B : Type} (content : B → Node Id K V)
    (below : B → Cells Id (Node Id K V)) (grown : Grown B K V) {id : Id}
    {old : Node Id K V} {write : Node Id K V → S} (valid : Valid store)
    (returned : NodeStore.getMut store id = pure (old, write))
    (owned : Owned (view store) ((id, old) :: grown.gather below))
    (room : Room store grown.isSplit.toNat ∨
      (Ops.settle write (grown.map content)).Exact) :
    ∃ fresh next, Ops.settle write (grown.map content) =
        pure ((grown.place id fresh).outcome Labelled.label, next) ∧
      Rewrites true store next ((id, old) :: grown.gather below)
        ((grown.place id fresh).gather fun node =>
          (node.label, content node.body) :: below node.body)
        grown.isSplit.toNat := by
  obtain ⟨_, again, rewrites⟩ := getMut_owned [] _ valid owned
  rw [returned, Traced.pure_inj] at again
  cases again
  cases grown with
  | replaced value body => exact ⟨id, _, rfl, rewrites true (content body)⟩
  | done body => exact ⟨id, _, rfl, rewrites true (content body)⟩
  | split left sep right =>
      have written := rewrites true (content left)
      have newRoom : Room (write (content left)) 1 ∨
          (NodeStore.alloc (write (content left)) (content right)).Exact :=
        room.imp (written.room 1) Traced.Avoids.first
      obtain ⟨fresh, next, allocated, taken⟩ :=
        alloc_owned ((id, content left) :: below left) (below right)
          (content right) written.valid newRoom written.owned
      refine ⟨fresh, next, ?_, written.trans taken⟩
      simp only [Grown.map, Ops.settle, allocated, pure_bind]
      rfl

variable {h order minKeys least : Nat}

theorem Tree.insertInto_label [LT K] [DecidableLT K] (fresh : Nat → Id)
    (key : K) (value : V) (tree : Tree Id K V h) :
    (tree.insertInto fresh order key value).kept.label = tree.label := by
  have placed {T : Type} (label other : Id) (grown : Grown T K V) :
      (grown.place label other).kept.label = label := by
    cases grown <;> rfl
  cases h with
  | zero => exact placed _ _ _
  | succ h =>
      rw [insertInto]
      split
      · rfl
      · exact placed _ _ _

theorem afterChild_refines {tree : Tree Id K V (h + 1)}
    {hole : Hole K (Tree Id K V h)} {child : Tree Id K V h}
    (filled : tree.body = hole.fill child) (grown : Grown (Tree Id K V h) K V)
    (labelEq : grown.kept.label = child.label) (valid : Valid store)
    (owned : Owned (view store)
      (((tree.label, tree.node) :: hole.leftChildren.flatMap Tree.cells) ++
        grown.gather Tree.cells ++ hole.rightChildren.flatMap Tree.cells))
    (room : Room store
        ((hole.fill child).absorb order hole.index grown).isSplit.toNat ∨
      (Ops.afterChild store tree.label hole.index order
        (grown.outcome Tree.label)).Exact) :
    ∃ fresh next,
      Ops.afterChild store tree.label hole.index order
          (grown.outcome Tree.label) =
        pure ((((hole.fill child).absorb order hole.index grown).place tree.label
          fresh).outcome Labelled.label, next) ∧
      Rewrites true store next
        (((tree.label, tree.node) :: hole.leftChildren.flatMap Tree.cells) ++
          grown.gather Tree.cells ++ hole.rightChildren.flatMap Tree.cells)
        ((((hole.fill child).absorb order hole.index grown).place tree.label
          fresh).gather (Tree.cells (h := h + 1)))
        ((hole.fill child).absorb order hole.index grown).isSplit.toNat := by
  cases grown with
  | replaced old newChild =>
      have same : newChild.label = child.label := labelEq
      refine ⟨tree.label, store, rfl, ?_⟩
      simp only [Internal.absorb, Hole.setChild_fill, Grown.place, Grown.gather,
        Tree.cells_refill filled same]
      exact .refl valid owned
  | done newChild =>
      have same : newChild.label = child.label := labelEq
      refine ⟨tree.label, store, rfl, ?_⟩
      simp only [Internal.absorb, Hole.setChild_fill, Grown.place, Grown.gather,
        Tree.cells_refill filled same]
      exact .refl valid owned
  | split left sep right =>
      have same : left.label = child.label := labelEq
      generalize absorbedEq : (hole.fill child).absorb order hole.index
        (.split left sep right) = absorbed at room ⊢
      have gathered : absorbed.gather (Internal.gather Tree.cells) =
          hole.leftChildren.flatMap Tree.cells ++
            (Grown.split left sep right : Grown _ K V).gather Tree.cells ++
            hole.rightChildren.flatMap Tree.cells := by
        rw [← absorbedEq]
        exact Internal.absorb_gather _ _ _ _ _
      rw [List.cons_append, List.cons_append, ← gathered] at owned ⊢
      obtain ⟨write, returned, -⟩ := getMut_owned [] _ valid owned
      have settles : Ops.afterChild store tree.label hole.index order
            ((Grown.split left sep right).outcome Tree.label) =
          Ops.settle write (absorbed.map fun node =>
            .internal (node.map Tree.label)) := by
        rw [← Grown.map_map, ← absorbedEq, Internal.absorb_map, Hole.map_fill,
          ← Hole.map_index Tree.label, Grown.map, same]
        refine Ops.absorbSplit_settles ?_ sep right.label order
        rw [returned, Tree.node, filled, Hole.map_fill]
      rw [settles] at room ⊢
      exact settle_refines _ _ absorbed valid returned owned room

theorem afterRoot_refines (grown : Grown (Tree Id K V h) K V) {root : Id}
    (labelEq : grown.kept.label = root) (valid : Valid store)
    (owned : Owned (view store) (grown.gather Tree.cells))
    (room : Room store grown.isSplit.toNat ∨
      (Ops.afterRoot store root (grown.outcome Tree.label)).Exact) :
    ∃ fresh next, Ops.afterRoot store root (grown.outcome Tree.label) =
        pure (grown.displaced, (grown.root fresh).2.label, next) ∧
      Rewrites true store next (grown.gather Tree.cells)
        (grown.root fresh).2.cells grown.isSplit.toNat := by
  subst labelEq
  cases grown with
  | replaced old tree => exact ⟨tree.label, store, rfl, .refl valid owned⟩
  | done tree => exact ⟨tree.label, store, rfl, .refl valid owned⟩
  | split left sep right =>
      obtain ⟨fresh, next, allocated, taken⟩ := alloc_owned [] _
        (.internal { keys := [sep], children := [left.label, right.label] })
        valid (room.imp id Traced.Avoids.first) owned
      refine ⟨fresh, next, ?_, ?_⟩
      · simp only [Ops.afterRoot, Grown.outcome, Grown.kept, allocated, pure_bind]
        rfl
      · simpa [Grown.gather, Grown.root, Tree.cells, Tree.node, Internal.map,
          Internal.gather, Grown.isSplit] using taken

variable [Preorder K] [Std.IsLinearPreorder K] [DecidableLT K]

/-- Insertion into a stored tree is insertion into the tree, for the labels
that the store hands out. -/
theorem insertInto_refines {tree : Tree Id K V h}
    (valid : Valid store) (owned : Owned (view store) tree.cells)
    (sized : tree.Sized order minKeys least)
    (ordered : Mark.Ordered tree.marks) (key : K) (value : V) {fuel : Nat}
    (enough : h < fuel)
    (room : Room store (tree.splits order key value) ∨
      (Ops.insertInto fuel store tree.label key value order).Exact) :
    ∃ fresh next, Ops.insertInto fuel store tree.label key value order =
        pure ((tree.insertInto fresh order key value).outcome Tree.label, next) ∧
      Rewrites true store next tree.cells
        ((tree.insertInto fresh order key value).gather Tree.cells)
        (tree.splits order key value) := by
  induction h generalizing fuel least with
  | zero =>
      obtain ⟨fuel, rfl⟩ : ∃ rest, fuel = rest + 1 := ⟨fuel - 1, by omega⟩
      have ascending : Ascending tree.body := by
        rw [← Tree.entries_leaf tree]
        exact ordered.ascending
      obtain ⟨write, returned, -⟩ := getMut_owned [] _ valid owned
      have unfolded : Ops.insertInto (fuel + 1) store tree.label key value order =
          Ops.settle write ((insertEntries order key value tree.body).map
            fun entries => .leaf (.ofEntries entries)) := by
        rw [Ops.insertInto, get_owned valid owned tree.mem_cells, pure_bind]
        exact Ops.insertLeaf_settles returned ascending key value order
      rw [unfolded] at room ⊢
      have gatherNil : (insertEntries order key value tree.body).gather
          (fun _ => ([] : Cells Id (Node Id K V))) = [] := by
        cases insertEntries order key value tree.body <;> rfl
      obtain ⟨fresh, next, settled, rewrites⟩ :=
        settle_refines (fun entries => .leaf (.ofEntries entries)) (fun _ => [])
          (insertEntries order key value tree.body) valid returned
          (by rw [gatherNil]; exact owned) room
      rw [gatherNil] at rewrites
      exact ⟨fun _ => fresh, next, settled, rewrites⟩
  | succ h ih =>
      obtain ⟨fuel, rfl⟩ : ∃ rest, fuel = rest + 1 := ⟨fuel - 1, by omega⟩
      obtain ⟨hole, child, filled, indexEq, -, -⟩ :=
        Tree.route (Internal.Occupied.forked sized) ordered key
      have got := get_owned valid owned tree.mem_cells
      have chosen := Tree.child_returned filled indexEq
      rw [Tree.cells_fill filled] at owned ⊢
      have childRoom : Room store (child.splits order key value) ∨
          (Ops.insertInto fuel store child.label key value order).Exact := by
        refine room.imp (room_mono ?_) (Ops.insertInto_child_exact got chosen)
        rw [Tree.splits_fill (fun _ => child.label) order key value filled indexEq]
        omega
      obtain ⟨fresh, middle, inserted, rewrites⟩ :=
        ih owned.part (sized.child filled) (Tree.ordered_child filled ordered)
          (by omega) childRoom
      have framed := rewrites.inside _ _ owned
      have splitsEq := Tree.splits_fill fresh order key value filled indexEq
      have whole := Tree.insertInto_fill fresh order key value filled indexEq
      rw [whole, Grown.place_isSplit] at splitsEq
      have parentIndex : (tree.body.map Tree.label).childIndex key = hole.index :=
        indexEq
      have call := Ops.insertInto_node got chosen inserted
      rw [parentIndex] at call
      rw [call, splitsEq] at room ⊢
      obtain ⟨own, next, settled, rewritten⟩ := afterChild_refines filled
        (child.insertInto fresh order key value)
        (Tree.insertInto_label fresh key value child) framed.valid framed.owned
        (room.imp (fun some => framed.room _ (by rwa [Nat.add_comm])) id)
      let labels := fun j => if j = h + 1 then own else fresh j
      have sameChild : child.insertInto labels order key value =
          child.insertInto fresh order key value := by
        refine Tree.insertInto_congr order key value child fun j bound => ?_
        simp only [labels, if_neg (show j ≠ h + 1 by omega)]
      have sameOwn : labels (h + 1) = own := by simp [labels]
      refine ⟨labels, next, ?_, ?_⟩
      · rw [Tree.insertInto_fill labels order key value filled indexEq, sameChild,
          sameOwn]
        exact settled
      · rw [Tree.insertInto_fill labels order key value filled indexEq, sameChild,
          sameOwn]
        exact framed.trans rewritten

theorem insert_refines (t : SearchTree Id K V order) (valid : Valid store)
    (owned : Owned (view store) t.cells) (key : K) (value : V) {fuel : Nat}
    (enough : t.height < fuel)
    (room : Room store (t.allocations key value) ∨
      (Ops.insert fuel store t.root key value order).Exact) :
    ∃ fresh next, Ops.insert fuel store t.root key value order =
        pure ((t.insert fresh key value).1, (t.insert fresh key value).2.root,
          next) ∧
      Rewrites true store next t.cells (t.insert fresh key value).2.cells
        (t.allocations key value) := by
  have innerRoom : Room store (t.tree.splits order key value) ∨
      (Ops.insertInto fuel store t.root key value order).Exact :=
    room.imp (room_mono (Nat.le_add_right _ _)) Traced.Avoids.first
  obtain ⟨fresh, middle, inserted, rewrites⟩ :=
    insertInto_refines valid owned t.sized t.ordered key value enough innerRoom
  have call : Ops.insert fuel store t.root key value order =
      Ops.afterRoot middle t.root
        ((t.tree.insertInto fresh order key value).outcome Tree.label) := by
    rw [Ops.insert, SearchTree.root, inserted, pure_bind]
    cases t.tree.insertInto fresh order key value <;> rfl
  have allocationsEq : t.allocations key value = t.tree.splits order key value +
      (t.tree.insertInto fresh order key value).isSplit.toNat := by
    rw [SearchTree.allocations, Tree.insertInto_isSplit _ fresh]
  rw [call, allocationsEq] at room ⊢
  obtain ⟨own, next, grew, rewritten⟩ := afterRoot_refines
    (t.tree.insertInto fresh order key value)
    (Tree.insertInto_label fresh key value t.tree) rewrites.valid rewrites.owned
    (room.imp (fun some => rewrites.room _ (by rwa [Nat.add_comm])) id)
  let labels := fun j => if j = t.height + 1 then own else fresh j
  have sameTree : t.tree.insertInto labels order key value =
      t.tree.insertInto fresh order key value := by
    refine Tree.insertInto_congr order key value t.tree fun j bound => ?_
    simp only [labels, if_neg (show j ≠ t.height + 1 by omega)]
  have sameOwn : labels (t.height + 1) = own := by simp [labels]
  have result : t.tree.insert labels order key value =
      ((t.tree.insertInto fresh order key value).displaced,
        (t.tree.insertInto fresh order key value).root own) := by
    rw [Tree.insert, sameTree, sameOwn]
  refine ⟨labels, next, ?_, ?_⟩
  · change _ = pure ((t.tree.insert labels order key value).1,
      (t.tree.insert labels order key value).2.2.label, next)
    rw [result]
    exact grew
  · change Rewrites true store next t.cells
      (t.tree.insert labels order key value).2.2.cells _
    rw [result]
    exact rewrites.trans rewritten

end Refinement

end IndexDb
