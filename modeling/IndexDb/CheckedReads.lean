import IndexDb.Checker

/-!
# What the checker certifies

A stored tree with an entry in every leaf names each node once, so it fits the
slab that holds it.  The checker accepts exactly such trees, and then lookups,
scans and collected keys all answer from the same entries, whoever wrote the
store.  It passes after every run, and fails only on the empty tree.
-/

namespace IndexDb

variable {K V : Type} {store : InMemoryStore K V}

section Unfolds

variable {h k order minKeys least : Nat}

theorem ofEntries_inj {first second : List (K × V)} :
    Leaf.ofEntries first = Leaf.ofEntries second ↔ first = second := by
  refine ⟨fun equal => ?_, fun equal => congrArg _ equal⟩
  rw [← List.zip_unzip first, ← List.zip_unzip second, List.unzip_eq_map, List.unzip_eq_map]
  exact congrArg₂ List.zip (congrArg Leaf.keys equal) (congrArg Leaf.vals equal)

/-- A node unfolds to one tree only. -/
theorem Stored.unique {tree : Tree NodeId K V h} {other : Tree NodeId K V k}
    (stored : Stored store tree) (sized : tree.Sized order minKeys least)
    (storedOther : Stored store other) (same : tree.label = other.label) :
    (⟨h, tree⟩ : Σ h, Tree NodeId K V h) = ⟨k, other⟩ := by
  have got := stored _ (Tree.self_mem_subtrees tree)
  rw [same, storedOther _ (Tree.self_mem_subtrees other), Traced.pure_inj] at got
  induction h generalizing k least with
  | zero =>
      cases k with
      | zero =>
          obtain ⟨label, entries⟩ := tree
          obtain ⟨labelOther, entriesOther⟩ := other
          cases same
          cases ofEntries_inj.mp (Node.leaf.inj got)
          rfl
      | succ k => cases got
  | succ h ih =>
      cases k with
      | zero => cases got
      | succ k =>
          obtain ⟨label, ⟨keys, children⟩⟩ := tree
          obtain ⟨labelOther, ⟨keysOther, others⟩⟩ := other
          cases same
          obtain ⟨rfl, labelsEq⟩ := Internal.mk.inj (Node.internal.inj got)
          have unfolds : ∀ child ∈ children, ∀ other ∈ others,
              child.label = other.label →
                (⟨h, child⟩ : Σ h, Tree NodeId K V h) = ⟨k, other⟩ := by
            intro child member other found same
            have childStored := stored.child member
            have otherStored := storedOther.child found
            refine ih childStored (sized.children child member) otherStored same ?_
            have one := childStored _ (Tree.self_mem_subtrees child)
            rw [same, otherStored _ (Tree.self_mem_subtrees other)] at one
            exact Traced.pure_inj.mp one
          obtain rfl : h = k := by
            obtain _ | ⟨child, rest⟩ := children
            · exact absurd sized.forked (by simp [Internal.Forked])
            · obtain _ | ⟨other, others⟩ := others
              · simp at labelsEq
              have equal := unfolds child (by simp) other (by simp)
                (List.cons.inj labelsEq).1.symm
              exact congrArg Sigma.fst equal
          have childrenEq : children = others := by
            refine List.ext_getElem? fun i => ?_
            have labelAt : (others.map Tree.label)[i]? = (children.map Tree.label)[i]? :=
              congrArg (fun labels => labels[i]?) labelsEq
            rw [List.getElem?_map, List.getElem?_map] at labelAt
            cases childAt : children[i]? with
            | none =>
                rw [childAt] at labelAt
                exact (Option.map_eq_none_iff.mp labelAt).symm
            | some child =>
                rw [childAt] at labelAt
                obtain ⟨other, otherAt, same⟩ := Option.map_eq_some_iff.mp labelAt
                have equal := unfolds child (List.mem_of_getElem? childAt) other
                  (List.mem_of_getElem? otherAt) same.symm
                rw [otherAt, eq_of_heq (Sigma.mk.inj equal).2]
          subst childrenEq
          rfl

theorem Tree.entries_subtree {tree : Tree NodeId K V h} {sub : Σ k, Tree NodeId K V k}
    (member : sub ∈ tree.subtrees) : sub.2.entries ⊆ tree.entries := by
  intro entry held
  obtain ⟨leaf, inside, found⟩ := Tree.mem_entries.mp held
  exact Tree.mem_entries.mpr ⟨leaf, Tree.subtrees_trans member inside, found⟩

/-- No node stands twice in a tree whose every leaf has an entry. -/
theorem Stored.nodup [Preorder K] {tree : Tree NodeId K V h} (stored : Stored store tree)
    (positive : 1 ≤ minKeys) (some : 1 ≤ least) (sized : tree.Sized order minKeys least)
    (ordered : Mark.Ordered tree.marks) : tree.labels.Nodup := by
  induction h generalizing least with
  | zero => exact List.nodup_singleton _
  | succ h ih =>
      have ascending : Ascending tree.entries := ordered.ascending
      rw [Tree.entries_node, Internal.gather, Ascending, List.pairwise_flatMap] at ascending
      refine List.nodup_cons.mpr ⟨fun inside => ?_, List.nodup_flatMap.mpr ⟨?_, ?_⟩⟩
      · obtain ⟨child, member, found⟩ := List.mem_flatMap.mp inside
        obtain ⟨sub, deeper, same⟩ := Tree.mem_labels.mp found
        have equal := stored.unique sized ((stored.child member).subtree deeper) same.symm
        have heightEq : h + 1 = sub.1 := congrArg Sigma.fst equal
        have lower := Tree.subtree_height_le deeper
        omega
      · intro child member
        obtain ⟨hole, filled⟩ := Tree.exists_hole sized.forked member
        exact ih (stored.child member) positive (sized.children child member)
          (Tree.ordered_child filled ordered)
      · refine ascending.2.imp_of_mem fun {first second} member memberAfter apart => ?_
        intro id inFirst inSecond
        obtain ⟨sub, deeper, rfl⟩ := Tree.mem_labels.mp inFirst
        obtain ⟨other, deeperOther, same⟩ := Tree.mem_labels.mp inSecond
        have subSized : sub.2.Sized order minKeys minKeys := by
          rcases (sized.children first member).subtree deeper with rfl | subSized
          · exact sized.children first member
          · exact subSized
        obtain rfl : sub = other := ((stored.child member).subtree deeper).unique subSized
          ((stored.child memberAfter).subtree deeperOther) same.symm
        obtain ⟨key, last, ends⟩ := Tree.exists_ends positive positive subSized
        obtain ⟨value, held⟩ := ends.exists_entry
        have heldFirst := Tree.entries_subtree deeper held
        have heldSecond := Tree.entries_subtree deeperOther held
        exact lt_irrefl key (apart _ heldFirst _ heldSecond)

theorem InMemoryStore.slot_lt_of_get {id : NodeId} {node : Node NodeId K V}
    (got : NodeStore.get store id = pure node) : id.slot < store.slab.length :=
  (List.getElem?_eq_some_iff.mp (Vec.get_eq_pure_iff.mp got)).1

/-- The slab has a slot for every node of a stored tree. -/
theorem Stored.size_le {tree : Tree NodeId K V h} (stored : Stored store tree)
    (distinct : tree.labels.Nodup) : tree.size ≤ store.slab.length := by
  have slots : (tree.labels.map NodeId.slot).Nodup :=
    distinct.map fun _ _ equal => NodeId.slot_inj.mp equal
  have inside : tree.labels.map NodeId.slot ⊆ List.range store.slab.length := by
    intro slot member
    obtain ⟨id, found, rfl⟩ := List.mem_map.mp member
    obtain ⟨sub, deeper, rfl⟩ := Tree.mem_labels.mp found
    exact List.mem_range.mpr (InMemoryStore.slot_lt_of_get (stored sub deeper))
  have counted := (List.subperm_of_subset slots inside).length_le
  rwa [List.length_map, List.length_range] at counted

/-- Collecting the keys of a stored tree appends those of its entries. -/
theorem collectKeys_stored {fuel : Nat} {tree : Tree NodeId K V h}
    (stored : Stored store tree) (enough : h < fuel) (out : List K) :
    collectKeys fuel store tree.label out =
      pure (out ++ tree.entries.map Prod.fst) := by
  induction h generalizing fuel out with
  | zero =>
      obtain ⟨fuel, rfl⟩ : ∃ rest, fuel = rest + 1 := ⟨fuel - 1, by omega⟩
      rw [collectKeys, stored_leaf.mp stored, pure_bind, Tree.entries_leaf]
      rfl
  | succ h ih =>
      obtain ⟨fuel, rfl⟩ : ∃ rest, fuel = rest + 1 := ⟨fuel - 1, by omega⟩
      obtain ⟨got, childrenStored⟩ := stored_node.mp stored
      rw [collectKeys, got, pure_bind, Tree.entries_node, Internal.gather]
      dsimp only [Internal.map]
      generalize tree.body.children = children at childrenStored
      clear got
      induction children generalizing out with
      | nil => simp
      | cons child children rest =>
          obtain ⟨first, others⟩ := List.forall_mem_cons.mp childrenStored
          rw [List.map_cons, List.foldlM_cons, ih first (Nat.lt_of_succ_lt_succ enough),
            pure_bind, rest _ others, List.flatMap_cons, List.map_append, List.append_assoc]

end Unfolds

section Whole

variable [Preorder K]

theorem SearchTree.rootSized {L : Type} {order : Nat} {t : SearchTree L K V order}
    (some : t.entries ≠ []) : t.tree.Sized order (leastKeys order) 1 := by
  obtain ⟨height, tree, large, sized, ordered⟩ := t
  cases height with
  | zero =>
      rw [SearchTree.entries, Tree.entries_leaf] at some
      exact ⟨List.length_pos_iff.mpr some, sized.2⟩
  | succ height => simpa using sized

/-- A stored search tree with an entry is fit for browsing. -/
theorem Stored.browses {order : Nat} {t : SearchTree NodeId K V order}
    (stored : Stored store t.tree) (some : t.entries ≠ []) : Browses store t := by
  have rootSome : t.tree.Sized order (leastKeys order) 1 := SearchTree.rootSized some
  have distinct := stored.nodup (leastKeys_pos t.large) (Nat.le_refl 1) rootSome t.ordered
  exact ⟨stored, distinct, t.height_lt_size.trans_le (stored.size_le distinct)⟩

variable [DecidableLT K] [DecidableLE K]

/-- The checker accepts exactly the stored search trees that have an entry. -/
theorem checkTree_iff {tree : BPlusTree K V} (large : 3 ≤ tree.order) :
    tree.checkTree = pure () ↔
      ∃ t : SearchTree NodeId K V tree.order, t.root = tree.root ∧ t.entries ≠ [] ∧
        Browses tree.store t := by
  rw [BPlusTree.checkTree, BPlusTree.minKeys_eq large]
  simp only [liftM_pure, pure_bind, Check.bind_eq_pure]
  constructor
  · rintro ⟨⟨first, last, height⟩, checked, -⟩
    obtain ⟨h, inner, rfl, inside, walked⟩ :=
      (Check.check_eq_pure (leastKeys_pos large)).mp checked
    have sized : inner.Sized tree.order (leastKeys tree.order) 1 := walked.sized
    let t : SearchTree NodeId K V tree.order :=
      ⟨h, inner, large, sized.mono ((Nat.min_le_right h 1).trans sized.keysLen.1),
        walked.ordered⟩
    have some : t.entries ≠ [] := by
      obtain ⟨value, held⟩ := walked.ends.exists_entry
      exact List.ne_nil_of_mem held
    exact ⟨t, walked.label_eq, some, walked.stored.browses some⟩
  · rintro ⟨t, rootEq, some, browses⟩
    have sized := SearchTree.rootSized some
    obtain ⟨first, last, ends⟩ :=
      Tree.exists_ends (leastKeys_pos large) (Nat.le_refl 1) sized
    exact ⟨(first, last, t.height + 1), (Check.check_eq_pure (leastKeys_pos large)).mpr
      ⟨t.height, t.tree, rfl, browses.enough, rootEq, browses.stored, sized, t.ordered,
        ends⟩, trivial⟩

theorem checkTree_iff_small : ∃ tree : BPlusTree Nat Nat, tree.checkTree = pure () ∧
    ∃ t : SearchTree NodeId Nat Nat tree.order, t.root = tree.root ∧ t.entries ≠ [] ∧
      Browses tree.store t := by
  let tree : BPlusTree Nat Nat :=
    ⟨⟨2⟩, ⟨[.leaf ⟨[1, 2], [10, 20]⟩, .leaf ⟨[4], [40]⟩,
      .internal ⟨[3], [⟨0⟩, ⟨1⟩]⟩], []⟩, 3, 3⟩
  have passes : tree.checkTree = pure () := by with_unfolding_all rfl
  exact ⟨tree, passes, (checkTree_iff (by decide)).mp passes⟩

end Whole

section Reads

theorem Browses.collectKeys [LE K] [LT K] {order : Nat} {tree : BPlusTree K V}
    {t : SearchTree NodeId K V order} (browses : Browses tree.store t)
    (rootEq : t.root = tree.root) :
    collectKeys tree.fuel tree.store tree.root [] = pure (t.entries.map Prod.fst) := by
  rw [← rootEq]
  exact collectKeys_stored browses.stored browses.enough []

variable [Preorder K] [DecidableLT K] {order : Nat} {tree : BPlusTree K V}
  {t : SearchTree NodeId K V order}

theorem Browses.selects [DecidableLE K] (browses : Browses tree.store t)
    (rootEq : t.root = tree.root) (scan : Scan K) :
    tree.Selects scan (t.entries.filter fun entry => scan.Admits entry.1) where
  ascending := t.ascending.filter _
  exact entry := by
    rw [← rootEq, List.mem_filter, decide_eq_true_eq]
    exact and_congr_left fun _ => (holds_stored browses.stored).symm

variable [Std.IsLinearPreorder K]

/-- A lookup under a stored root is a lookup among the entries. -/
theorem Stored.get {h minKeys least fuel : Nat} {tree : Tree NodeId K V h}
    (stored : Stored store tree) (sized : tree.Sized order minKeys least)
    (ordered : Mark.Ordered tree.marks) (key : K) (enough : h < fuel) :
    Ops.get fuel store tree.label key = pure (Entries.lookup key tree.entries) := by
  induction h generalizing fuel least with
  | zero =>
      obtain ⟨fuel, rfl⟩ : ∃ rest, fuel = rest + 1 := ⟨fuel - 1, by omega⟩
      have ascending : Ascending tree.body := Mark.ordered_ofEntries.mp ordered
      rw [Ops.get, stored_leaf.mp stored, pure_bind, Tree.entries_leaf]
      exact Leaf.get_ofEntries key ascending
  | succ h ih =>
      obtain ⟨fuel, rfl⟩ : ∃ rest, fuel = rest + 1 := ⟨fuel - 1, by omega⟩
      obtain ⟨hole, child, filled, indexEq, left, right⟩ :=
        Tree.route (Internal.Occupied.forked sized) ordered key
      have childGet : Ops.get fuel store child.label key =
          pure (Entries.lookup key child.entries) :=
        ih (stored.child (Hole.mem_of_fill filled)) (sized.child filled)
          (Tree.ordered_child filled ordered) (Nat.lt_of_succ_lt_succ enough)
      rw [Ops.get, (stored_node.mp stored).1, pure_bind]
      dsimp only
      rw [Tree.child_returned filled indexEq, pure_bind, childGet, Tree.entries_fill filled,
        Entries.lookup_block left.entries_below right.entries_above]

theorem Browses.get (browses : Browses tree.store t) (rootEq : t.root = tree.root)
    (key : K) : tree.get key = pure (Entries.lookup key t.entries) := by
  rw [BPlusTree.get, ← rootEq]
  exact browses.stored.get t.sized t.ordered key browses.enough

theorem Browses.containsKey (browses : Browses tree.store t) (rootEq : t.root = tree.root)
    (key : K) : tree.containsKey key = pure (Entries.lookup key t.entries).isSome := by
  rw [BPlusTree.containsKey, browses.get rootEq, pure_bind]

variable [DecidableLE K]

theorem Browses.scan (browses : Browses tree.store t) (rootEq : t.root = tree.root)
    (scan : Scan K) :
    ∃ iter, tree.scan scan = pure iter ∧
      iter.Drains (t.entries.filter fun entry => scan.Admits entry.1) := by
  have spanned : ∃ iter, tree.scan scan = pure iter ∧ Iter.Spans tree.store t iter
      (t.entries.filter fun entry => scan.Admits entry.1) := by
    cases scan with
    | all =>
        have whole : (t.entries.filter fun entry => Scan.all.Admits entry.1) =
            t.entries := List.filter_eq_self.mpr fun _ _ => decide_eq_true trivial
        rw [whole, BPlusTree.scan, BPlusTree.iter, ← rootEq]
        exact Iter.full_spans browses
    | range lower upper =>
        rw [BPlusTree.scan, BPlusTree.range, ← rootEq]
        exact Iter.range_spans browses lower upper
  obtain ⟨iter, scanned, spans⟩ := spanned
  exact ⟨iter, scanned, spans.drains browses⟩

/-- Every read of a tree that the checker accepts answers from the same entries. -/
theorem accepted_reads {tree : BPlusTree K V} (large : 3 ≤ tree.order)
    (accepted : tree.checkTree = pure ()) :
    ∃ entries, entries ≠ [] ∧ Ascending entries ∧
      (∀ key, tree.get key = pure (Entries.lookup key entries)) ∧
      (∀ key, tree.containsKey key = pure (Entries.lookup key entries).isSome) ∧
      (∀ scan : Scan K, ∃ iter, tree.scan scan = pure iter ∧
        iter.Drains (entries.filter fun entry => scan.Admits entry.1) ∧
        tree.Selects scan (entries.filter fun entry => scan.Admits entry.1)) ∧
      collectKeys tree.fuel tree.store tree.root [] = pure (entries.map Prod.fst) := by
  obtain ⟨t, rootEq, some, browses⟩ := (checkTree_iff large).mp accepted
  refine ⟨t.entries, some, t.ascending, browses.get rootEq, browses.containsKey rootEq,
    fun scan => ?_, browses.collectKeys rootEq⟩
  obtain ⟨iter, scanned, drains⟩ := browses.scan rootEq scan
  exact ⟨iter, scanned, drains, browses.selects rootEq scan⟩

theorem accepted_reads_small : ∃ (tree : BPlusTree Nat Nat) (entries : List (Nat × Nat)),
    entries ≠ [] ∧ Ascending entries ∧
      (∀ key, tree.get key = pure (Entries.lookup key entries)) ∧
      (∀ key, tree.containsKey key = pure (Entries.lookup key entries).isSome) ∧
      (∀ scan : Scan Nat, ∃ iter, tree.scan scan = pure iter ∧
        iter.Drains (entries.filter fun entry => scan.Admits entry.1) ∧
        tree.Selects scan (entries.filter fun entry => scan.Admits entry.1)) ∧
      collectKeys tree.fuel tree.store tree.root [] = pure (entries.map Prod.fst) := by
  let tree : BPlusTree Nat Nat :=
    ⟨⟨2⟩, ⟨[.leaf ⟨[1, 2], [10, 20]⟩, .leaf ⟨[4], [40]⟩,
      .internal ⟨[3], [⟨0⟩, ⟨1⟩]⟩], []⟩, 3, 3⟩
  have passes : tree.checkTree = pure () := by with_unfolding_all rfl
  exact ⟨tree, accepted_reads (by decide) passes⟩

end Reads

/-- The checker passes on a represented tree unless it is empty. -/
theorem BPlusTree.Represents.checkTree [Preorder K] [DecidableLT K] [DecidableLE K]
    {order : Nat} {tree : BPlusTree K V} {t : SearchTree NodeId K V order}
    (represents : tree.Represents t) :
    tree.checkTree = if tree.isEmpty then throw .leafEmpty else pure () := by
  obtain rfl := represents.order_eq
  by_cases none : tree.len = 0
  · have isEmpty : tree.isEmpty = true := decide_eq_true none
    have inside := represents.enough_fuel
    obtain ⟨fuel, fuelEq⟩ : ∃ rest, tree.fuel = rest + 1 := ⟨tree.fuel - 1, by omega⟩
    have got := (represents.len_eq_zero.mp none).2
    rw [if_pos isEmpty, BPlusTree.checkTree, BPlusTree.minKeys_eq t.large, fuelEq]
    simp only [liftM_pure, pure_bind, Check.check, got]
    rfl
  · have some : t.entries ≠ [] := fun empty =>
      none (by rw [represents.len_eq, empty, List.length_nil])
    have isEmpty : ¬ tree.isEmpty = true := by simpa [BPlusTree.isEmpty] using none
    rw [if_neg isEmpty]
    exact (checkTree_iff t.large).mpr ⟨t, represents.root_eq.symm, some,
      represents.browses⟩

section Main

variable [LinearOrder K]

/-- After every run the checker passes unless the tree is empty, and the keys
that the tests collect are those that a full scan yields. -/
theorem run_checkTree (order : Nat) (start : Start K V) (calls : List (Call K V))
    (isExact : (start.run order calls).Exact) :
    ∃ replies tree, start.run order calls = pure (replies, tree) ∧
      tree.checkTree = (if tree.isEmpty then throw .leafEmpty else pure ()) ∧
      ∃ iter entries, tree.iter = pure iter ∧ iter.Drains entries ∧
        collectKeys tree.fuel tree.store tree.root [] =
          pure (entries.map Prod.fst) := by
  obtain ⟨tree, t, returned, represents, -⟩ := start.run_represents calls isExact
  obtain ⟨iter, scanned, drains⟩ := represents.iter_drains
  exact ⟨_, tree, returned, represents.checkTree, iter, _, scanned, drains,
    represents.browses.collectKeys represents.root_eq.symm⟩

theorem run_checkTree_small :
    ∃ replies tree, (Start.fromSorted [(1, 10), (2, 20), (3, 30)]).run 3
        [.insert 4 40, .remove 1, .remove 2] = pure (replies, tree) ∧
      tree.checkTree = (if tree.isEmpty then throw .leafEmpty else pure ()) ∧
      ∃ iter entries, tree.iter = pure iter ∧ iter.Drains entries ∧
        collectKeys tree.fuel tree.store tree.root [] =
          pure (entries.map Prod.fst) :=
  run_checkTree 3 (.fromSorted [(1, 10), (2, 20), (3, 30)])
    [.insert 4 40, .remove 1, .remove 2] (by decide +kernel)

end Main

end IndexDb
