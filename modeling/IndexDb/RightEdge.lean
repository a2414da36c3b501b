import IndexDb.Construction
import IndexDb.Repairs

/-!
# Ascending insertion

Keys above all keys of a tree go down the right edge.  Nothing off the right edge
changes, and what a split leaves behind is half full: a run of ascending
insertions packs every node off the right edge with exactly half an order of keys.
-/

namespace IndexDb

/-- `new` has the old items, and those it adds satisfy `P`. -/
structure Accretes {α : Type} (P : α → Prop) (old new : List α) : Prop where
  kept : old ⊆ new
  added : ∀ item ∈ new, item ∈ old ∨ P item

namespace Accretes

variable {α : Type} {P : α → Prop} {old middle new : List α}

theorem refl (items : List α) : Accretes P items items :=
  ⟨List.Subset.refl items, fun _ member => .inl member⟩

theorem trans (first : Accretes P old middle) (second : Accretes P middle new) :
    Accretes P old new where
  kept := List.Subset.trans first.kept second.kept
  added item member := by
    rcases second.added item member with earlier | good
    · exact first.added item earlier
    · exact .inr good

theorem inside (before : List α) (accretes : Accretes P old new) :
    Accretes P (before ++ old) (before ++ new) where
  kept := List.append_subset.mpr ⟨List.subset_append_left _ _,
    List.Subset.trans accretes.kept (List.subset_append_right _ _)⟩
  added item member := by
    rcases List.mem_append.mp member with here | inner
    · exact .inl (List.mem_append_left _ here)
    · exact (accretes.added item inner).imp (List.mem_append_right _) id

theorem cons {item : α} (good : P item) (accretes : Accretes P old new) :
    Accretes P old (item :: new) where
  kept := List.Subset.trans accretes.kept (List.subset_cons_self _ _)
  added other member := by
    rcases List.mem_cons.mp member with rfl | inner
    · exact .inr good
    · exact accretes.added other inner

end Accretes

/-- A path of last children leads from one id down to another. -/
inductive RightEdge {S Id K V : Type} [NodeStore S Id K V] (store : S) : Id → Id → Prop
  | here (id : Id) : RightEdge store id id
  | under {parent child id : Id} {node : Internal K Id}
      (got : NodeStore.get store parent = pure (.internal node))
      (last : node.children.getLast? = some child) (rest : RightEdge store child id) :
      RightEdge store parent id

/-- The node is in the tree, but not on its right edge. -/
def BPlusTree.Settled {K V : Type} (tree : BPlusTree K V) (id : NodeId)
    (node : Node NodeId K V) : Prop :=
  tree.HasNode id node ∧ ¬ RightEdge tree.store tree.root id

/-- What `f` collects from all children but the last, and `g` from the last. -/
def Internal.gatherPast {K Child α : Type} (f g : Child → List α)
    (node : Internal K Child) : List α :=
  node.children.dropLast.flatMap f ++ node.children.getLast?.toList.flatMap g

/-- What `g` collects in the old place, or else `f` there and `g` from the new right
node. -/
def Grown.gatherPast {T K V α : Type} (f g : T → List α) : Grown T K V → List α
  | .replaced _ tree | .done tree => g tree
  | .split left _ right => f left ++ g right

namespace Tree

variable {L K V : Type}

/-- The trees on the right edge, each below the one before it. -/
def edge : {h : Nat} → Tree L K V h → List (Σ k, Tree L K V k)
  | 0, tree => [⟨0, tree⟩]
  | h + 1, tree => ⟨h + 1, tree⟩ :: tree.body.gatherPast (fun _ => []) edge

/-- The subtrees off the right edge. -/
def settled : {h : Nat} → Tree L K V h → List (Σ k, Tree L K V k)
  | 0, _ => []
  | _ + 1, tree => tree.body.gatherPast subtrees settled

end Tree

section Absorbing

variable {K V Child α : Type} (f g : Child → List α)

theorem Internal.gatherPast_concat {node : Internal K Child} {before : List Child}
    {last : Child} (cut : node.children = before ++ [last]) :
    node.gatherPast f g = before.flatMap f ++ g last := by
  simp [gatherPast, cut]

theorem Internal.gatherPast_append {node right : Internal K Child}
    {before : List Child} (forked : right.Forked)
    (cut : node.children = before ++ right.children) :
    node.gatherPast f g = before.flatMap f ++ right.gatherPast f g := by
  rcases List.eq_nil_or_concat' right.children with none | ⟨middle, last, split⟩
  · simp [Forked, none] at forked
  · rw [split, ← List.append_assoc] at cut
    rw [gatherPast_concat f g split, gatherPast_concat f g cut, List.flatMap_append,
      List.append_assoc]

/-- Absorbing at the last place keeps the children before it behind. -/
theorem Internal.absorb_gatherPast (order : Nat) {hole : Hole K Child}
    (last : hole.rightChildren = []) (old : Child) (grown : Grown Child K V) :
    ((hole.fill old).absorb order hole.index grown).gatherPast (gather f)
        (gatherPast f g) =
      hole.leftChildren.flatMap f ++ grown.gatherPast f g := by
  have filled (child : Child) :
      (hole.fill child).gatherPast f g = hole.leftChildren.flatMap f ++ g child :=
    gatherPast_concat f g (by rw [Hole.fill, last])
  cases grown with
  | replaced value child =>
      rw [absorb, Hole.setChild_fill]
      exact filled child
  | done child =>
      rw [absorb, Hole.setChild_fill]
      exact filled child
  | split left sep right =>
      have wide : (hole.fillTwo left sep right).gatherPast f g =
          hole.leftChildren.flatMap f ++ (f left ++ g right) := by
        have cut : (hole.fillTwo left sep right).children =
            (hole.leftChildren ++ [left]) ++ [right] := by simp [Hole.fillTwo, last]
        rw [gatherPast_concat f g cut, List.flatMap_append, List.flatMap_singleton,
          List.append_assoc]
      simp only [absorb, Hole.link_fill]
      split_ifs with fits
      · exact wide
      · obtain ⟨leftHalf, median, rightHalf, halves, -, childrenEq, -, forked, -⟩ :=
          halve_eq (hole.forked_fillTwo left sep right) (by simp [Hole.fillTwo])
        rw [gatherPast_append f g forked childrenEq] at wide
        rw [halves]
        exact wide

theorem Internal.absorb_left_length {order : Nat} {hole : Hole K Child} {old : Child}
    {grown : Grown Child K V} {left right : Internal K Child} {sep : K}
    (below : hole.keysLen < order)
    (outcome : (hole.fill old).absorb order hole.index grown = .split left sep right) :
    left.keys.length = order / 2 := by
  cases grown with
  | replaced value child => cases outcome
  | done child => cases outcome
  | split before median after =>
      simp only [absorb, Hole.link_fill, hole.fillTwo_keys_length] at outcome
      split_ifs at outcome with fits
      obtain ⟨leftHalf, median, rightHalf, halves, -, -, -, -, middle⟩ :=
        halve_eq (hole.forked_fillTwo before median after) (by simp [Hole.fillTwo])
      rw [halves] at outcome
      cases outcome
      rw [middle, hole.fillTwo_keys_length]
      congr 1
      omega

end Absorbing

section Edges

variable {L K V : Type} {h order minKeys least : Nat} {tree : Tree L K V h}

namespace Tree

/-- A tree is its right edge and what is off it. -/
theorem subtrees_perm (sized : tree.Sized order minKeys least) :
    tree.subtrees.Perm (tree.edge ++ tree.settled) := by
  induction h generalizing least with
  | zero => exact List.Perm.refl _
  | succ h ih =>
      rcases List.eq_nil_or_concat' tree.body.children with none | ⟨before, last, cut⟩
      · have forked := sized.forked
        simp [Internal.Forked, none] at forked
      · have inner := ih (sized.children last (by simp [cut]))
        have parts : tree.body.gather subtrees =
            before.flatMap subtrees ++ last.subtrees := by
          rw [Internal.gather, cut, List.flatMap_append, List.flatMap_singleton]
        have aside : before.flatMap (fun _ => ([] : List (Σ k, Tree L K V k))) = [] := by
          simp
        rw [subtrees, edge, settled, Internal.gatherPast_concat _ _ cut,
          Internal.gatherPast_concat _ _ cut, parts, aside, List.nil_append,
          List.cons_append]
        refine List.Perm.cons _ ((inner.append_left _).trans ?_)
        exact List.perm_append_comm_assoc _ _ _

variable [Preorder K]

/-- A key above all entries is routed to the last child. -/
theorem route_last {tree : Tree L K V (h + 1)} {hole : Hole K (Tree L K V h)}
    {child : Tree L K V h} (positive : 1 ≤ minKeys)
    (sized : tree.Sized order minKeys least) (filled : tree.body = hole.fill child)
    {key : K} (right : Mark.AllAfter key hole.rightMarks)
    (below : ∀ entry ∈ tree.entries, entry.1 < key) : hole.rightChildren = [] := by
  rw [List.eq_nil_iff_forall_not_mem]
  intro sibling member
  obtain ⟨-, -, siblings⟩ := sized.around filled
  obtain ⟨entry, held⟩ := exists_entry positive
    (siblings sibling (List.mem_append_right _ member))
  have after : entry ∈ Mark.entries hole.rightMarks := by
    rw [hole.entries_rightMarks]
    exact List.mem_flatMap.mpr ⟨sibling, member, held⟩
  have above := right.entries_above entry after
  have under := below entry (by
    rw [entries_fill filled]
    exact List.mem_append_right _ after)
  exact absurd (above.trans under) (lt_irrefl key)

variable [Std.IsLinearPreorder K] [DecidableLT K] (fresh : Nat → L) (value : V)

/-- Inserting above all entries leaves what is off the right edge, and adds to it
only nodes with half an order of keys. -/
theorem insertInto_settled (positive : 1 ≤ minKeys)
    (sized : tree.Sized order minKeys least) (ordered : Mark.Ordered tree.marks) {key : K}
    (below : ∀ entry ∈ tree.entries, entry.1 < key) :
    Accretes (fun sub => sub.2.keysLen = order / 2) tree.settled
      ((tree.insertInto fresh order key value).gatherPast subtrees settled) := by
  induction h generalizing least with
  | zero =>
      have ascending : Ascending tree.body := by
        rw [← entries_leaf tree]
        exact ordered.ascending
      have growth := insertEntries_growth order key value ascending
      have room := sized.2
      rw [insertInto]
      generalize insertEntries order key value tree.body = grown at growth
      cases growth with
      | replaced split _ _ _ => exact .refl _
      | done split _ _ _ => exact .refl _
      | halved split _ _ full cut half =>
          refine (Accretes.refl _).cons ?_
          rw [split] at room
          simp only [List.length_append, List.length_cons] at full half room
          change List.length _ = _
          rw [half]
          congr 1
          omega
  | succ h ih =>
      obtain ⟨hole, child, filled, indexEq, -, right⟩ :=
        route (Internal.Occupied.forked sized) ordered key
      have last := route_last positive sized filled right below
      have bounds := sized.around filled
      have inner := ih (sized.child filled) (ordered_child filled ordered)
        fun entry held => below entry (by
          rw [entries_fill filled]
          exact List.mem_append_left _ (List.mem_append_right _ held))
      have behind : tree.settled =
          hole.leftChildren.flatMap subtrees ++ child.settled := by
        rw [settled, filled]
        exact Internal.gatherPast_concat _ _ (by rw [Hole.fill, last])
      have ahead := Internal.absorb_gatherPast subtrees settled order last child
        (child.insertInto fresh order key value)
      rw [insertInto_fill fresh order key value filled indexEq, behind]
      have wider := inner.inside (hole.leftChildren.flatMap subtrees)
      rw [← ahead] at wider
      cases outcome : (hole.fill child).absorb order hole.index
          (child.insertInto fresh order key value) with
      | replaced old node =>
          rw [outcome] at wider
          exact wider
      | done node =>
          rw [outcome] at wider
          exact wider
      | split left sep right =>
          rw [outcome] at wider
          exact wider.cons (Internal.absorb_left_length bounds.2.1 outcome)

end Tree

variable [Preorder K] [Std.IsLinearPreorder K] [DecidableLT K]

theorem SearchTree.insert_settled (fresh : Nat → L) (value : V)
    (t : SearchTree L K V order) {key : K} (below : ∀ entry ∈ t.entries, entry.1 < key) :
    Accretes (fun sub => sub.2.keysLen = order / 2) t.tree.settled
      (t.insert fresh key value).2.tree.settled := by
  have inner := Tree.insertInto_settled fresh value (leastKeys_pos t.large) t.sized
    t.ordered below
  change Accretes _ _
    ((t.tree.insertInto fresh order key value).root (fresh (t.height + 1))).2.settled
  cases outcome : t.tree.insertInto fresh order key value with
  | replaced old tree =>
      rw [outcome] at inner
      exact inner
  | done tree =>
      rw [outcome] at inner
      exact inner
  | split left sep right =>
      rw [outcome] at inner
      have behind : (⟨[sep], [left, right]⟩ : Internal K _).gatherPast Tree.subtrees
          Tree.settled = [left].flatMap Tree.subtrees ++ right.settled :=
        Internal.gatherPast_concat Tree.subtrees Tree.settled rfl
      rw [List.flatMap_singleton] at behind
      rw [Grown.root, Tree.settled, behind]
      exact inner

end Edges

section Stored

variable {S Id K V : Type} [NodeStore S Id K V] {store : S} {h : Nat}
  {tree : Tree Id K V h}

theorem rightEdge_stored (stored : Stored store tree) {id : Id} :
    RightEdge store tree.label id ↔ ∃ sub ∈ tree.edge, sub.2.label = id := by
  induction h with
  | zero =>
      constructor
      · intro path
        cases path with
        | here => exact ⟨_, List.mem_singleton_self _, rfl⟩
        | under got last rest =>
            rw [stored _ (Tree.self_mem_subtrees tree), Traced.pure_inj] at got
            cases got
      · rintro ⟨sub, member, rfl⟩
        cases List.mem_singleton.mp member
        exact .here _
  | succ h ih =>
      have got : NodeStore.get store tree.label =
          pure (.internal (tree.body.map Tree.label)) :=
        stored _ (Tree.self_mem_subtrees tree)
      have lastLabel : (tree.body.map Tree.label).children.getLast? =
          tree.body.children.getLast?.map Tree.label := List.getLast?_map
      have edgeEq : tree.edge =
          ⟨h + 1, tree⟩ :: tree.body.children.getLast?.toList.flatMap Tree.edge := by
        simp [Tree.edge, Internal.gatherPast]
      rw [edgeEq]
      constructor
      · intro path
        cases path with
        | here => exact ⟨_, List.mem_cons_self, rfl⟩
        | under again last rest =>
            rw [got, Traced.pure_inj] at again
            cases again
            rw [lastLabel, Option.map_eq_some_iff] at last
            obtain ⟨child, found, rfl⟩ := last
            have member := List.mem_of_getLast? found
            obtain ⟨sub, inside, labelEq⟩ := (ih (stored.child member)).mp rest
            rw [found]
            exact ⟨sub, List.mem_cons_of_mem _ (by simpa using inside), labelEq⟩
      · rintro ⟨sub, member, rfl⟩
        rcases List.mem_cons.mp member with rfl | deeper
        · exact .here _
        · obtain ⟨child, found, inside⟩ := List.mem_flatMap.mp deeper
          have last := Option.mem_toList.mp found
          have inTree := List.mem_of_getLast? last
          refine .under got ?_ ((ih (stored.child inTree)).mpr ⟨sub, inside, rfl⟩)
          rw [lastLabel, last]
          rfl

end Stored

section Runs

variable {K V : Type} [Preorder K] {order : Nat} {tree next : BPlusTree K V}
  {t : SearchTree NodeId K V order}

namespace BPlusTree

theorem Represents.settled (represents : tree.Represents t) {id : NodeId}
    {node : Node NodeId K V} :
    tree.Settled id node ↔
      ∃ sub ∈ t.tree.settled, sub.2.label = id ∧ sub.2.node = node := by
  have parts := Tree.subtrees_perm t.sized
  have onEdge : RightEdge tree.store tree.root id ↔
      ∃ sub ∈ t.tree.edge, sub.2.label = id := by
    rw [represents.root_eq]
    exact rightEdge_stored represents.stored
  have distinct : ((t.tree.edge ++ t.tree.settled).map fun sub => sub.2.label).Nodup := by
    rw [← (parts.map _).nodup_iff, Tree.subtrees_labels]
    exact represents.labels_nodup
  rw [List.map_append, List.nodup_append] at distinct
  rw [Settled, represents.hasNode, onEdge]
  constructor
  · rintro ⟨⟨sub, member, rfl, rfl⟩, off⟩
    rcases List.mem_append.mp (parts.mem_iff.mp member) with edge | settled
    · exact absurd ⟨sub, edge, rfl⟩ off
    · exact ⟨sub, settled, rfl, rfl⟩
  · rintro ⟨sub, settled, rfl, rfl⟩
    refine ⟨⟨sub, parts.mem_iff.mpr (List.mem_append_right _ settled), rfl, rfl⟩, ?_⟩
    rintro ⟨other, edge, same⟩
    exact distinct.2.2 _ (List.mem_map_of_mem edge) _ (List.mem_map_of_mem settled) same

variable [Std.IsLinearPreorder K] [DecidableLT K]

theorem Represents.append_settled {items : List (K × V)} (represents : tree.Represents t)
    (ascending : Ascending (t.entries ++ items)) (isExact : (tree.insertAll items).Exact) :
    ∃ (next : BPlusTree K V) (t' : SearchTree NodeId K V order),
      tree.insertAll items = pure next ∧ next.Represents t' ∧
      Accretes (fun sub => sub.2.keysLen = order / 2) t.tree.settled t'.tree.settled := by
  induction items generalizing tree t with
  | nil => exact ⟨tree, t, rfl, represents, .refl _⟩
  | cons item items ih =>
      obtain ⟨key, value⟩ := item
      have below : ∀ entry ∈ t.entries, entry.1 < key := fun entry member =>
        (ascending_append.mp ascending).2.2 entry member (key, value) List.mem_cons_self
      rw [BPlusTree.insertAll] at isExact ⊢
      obtain ⟨fresh, middle, inserted, middleRepresents, -⟩ :=
        represents.insert key value (.inr isExact.first)
      rw [inserted, pure_bind] at isExact ⊢
      have entriesEq : (t.insert fresh key value).2.entries =
          t.entries ++ [(key, value)] := by
        rw [t.insert_entries]
        have appended : Entries.insert key value (t.entries ++ []) = _ :=
          Entries.insert_prepend value below
        rwa [List.append_nil] at appended
      obtain ⟨next, t', finished, nextRepresents, rest⟩ := ih middleRepresents
        (by rwa [entriesEq, List.append_assoc]) isExact
      exact ⟨next, t', finished, nextRepresents,
        (t.insert_settled fresh value below).trans rest⟩

end BPlusTree

end Runs

section Main

variable {K V : Type} [Preorder K] [Std.IsLinearPreorder K] [DecidableLT K]
  [DecidableLE K]

/-- Inserting entries that continue those of a reachable tree in order changes no
node off its right edge, and every node that joins these has exactly half an order
of keys. -/
theorem run_append_packs (order : Nat) (start : Start K V) (calls : List (Call K V))
    (items : List (K × V))
    (ascending : Ascending ((Call.answers start.contents calls).2 ++ items))
    (isExact : (start.run order calls >>= fun made => made.2.insertAll items).Exact) :
    ∃ replies tree iter after, start.run order calls = pure (replies, tree) ∧
      tree.iter = pure iter ∧ iter.Drains (Call.answers start.contents calls).2 ∧
      tree.insertAll items = pure after ∧
      (∀ id node, tree.Settled id node → after.Settled id node) ∧
      ∀ id node, after.Settled id node →
        tree.Settled id node ∨ node.keysLen = after.order / 2 := by
  obtain ⟨tree, t, returned, represents, entriesEq⟩ :=
    start.run_represents calls isExact.first
  rw [returned, pure_bind] at isExact
  obtain ⟨iter, scanned, drains⟩ := represents.iter_drains
  rw [← entriesEq] at ascending ⊢
  obtain ⟨after, t', appended, newRepresents, accretes⟩ :=
    represents.append_settled ascending isExact
  refine ⟨_, tree, iter, after, returned, scanned, drains,
    appended, fun id node settled => ?_, fun id node settled => ?_⟩
  · obtain ⟨sub, member, named⟩ := represents.settled.mp settled
    exact newRepresents.settled.mpr ⟨sub, accretes.kept member, named⟩
  · obtain ⟨sub, member, rfl, rfl⟩ := newRepresents.settled.mp settled
    rcases accretes.added sub member with earlier | half
    · exact .inl (represents.settled.mpr ⟨sub, earlier, rfl, rfl⟩)
    · rw [Tree.node_keysLen, newRepresents.order_eq]
      exact .inr half

/-- The leaf with the single key 1 lies off the right edge before and after. -/
theorem run_append_packs_small :
    ∃ replies tree iter after,
      (Start.fromSorted [(1, 10), (2, 20), (3, 30), (4, 40)]).run 4 [.remove 2] =
        pure (replies, tree) ∧
      tree.iter = pure iter ∧ iter.Drains [(1, 10), (3, 30), (4, 40)] ∧
      tree.insertAll [(5, 50), (6, 60), (7, 70), (8, 80)] = pure after ∧
      (∀ id node, tree.Settled id node → after.Settled id node) ∧
      ∀ id node, after.Settled id node →
        tree.Settled id node ∨ node.keysLen = after.order / 2 :=
  run_append_packs 4 (.fromSorted [(1, 10), (2, 20), (3, 30), (4, 40)]) [.remove 2]
    [(5, 50), (6, 60), (7, 70), (8, 80)]
    (BPlusTree.ascending_iff.mp (by decide +kernel)) (by decide +kernel)

end Main

end IndexDb
