import IndexDb.Library.MarkEnds
import IndexDb.Scans

/-!
# The invariant checker of the tests

The tests walk a tree and assert its structure on the way: sizes, order inside
each node, equal heights, and separators that fit the least and the greatest
key of the subtrees beside them.  What this accepts are exactly the stored
search trees with an entry, whatever else the store holds.
-/

namespace IndexDb

variable {K V : Type}

/-- The assertions of the checker, in its order and under short names for their
messages, each with the numbers that its message shows. -/
inductive Violation where
  | leafEmpty
  | leafOverCapacity (found order : Nat)
  | leafUnderCapacity (found minKeys : Nat)
  | lengthMismatch (keys vals : Nat)
  | leafNotAscending
  | noSeparators
  | internalOverCapacity (found order : Nat)
  | internalUnderCapacity (found minKeys : Nat)
  | childCount (children expected : Nat)
  | separatorsNotAscending
  | unbalanced (previous height : Nat)
  | leftNotBelow
  | separatorAbove
  | noChildren
  deriving DecidableEq, Repr

/-- A check panics with the first violation it finds. -/
abbrev Check (α : Type) := ExceptT Violation Run α

section Definitions

namespace Check

def require (condition : Bool) (violation : Violation) : Check Unit :=
  if condition then pure () else throw violation

variable [LT K] [DecidableLT K]

def neighboursAscend : List K → Bool
  | first :: second :: rest => first < second && neighboursAscend (second :: rest)
  | _ => true

/-- What the loop of `check` has found in the children so far. -/
structure Progress (K : Type) where
  childHeight : Option Nat
  subtreeMin : Option K
  lastMax : Option K

variable [LE K] [DecidableLE K]

/-- The loop of `check`, from the child with index `i` on. -/
def checkChildren (check : NodeId → Check (K × K × Nat)) (keys : List K) :
    Nat → Progress K → List NodeId → Check (Progress K)
  | _, progress, [] => pure progress
  | i, progress, child :: children => do
      let (cmin, cmax, h) ← check child
      let childHeight ← match progress.childHeight with
        | none => pure (some h)
        | some prev => do
            require (prev = h) (.unbalanced prev h)
            pure (some prev)
      let subtreeMin :=
        if progress.subtreeMin.isNone then some cmin else progress.subtreeMin
      if i > 0 then
        let sep ← (Vec.get keys (i - 1) : Run K)
        require (progress.lastMax.any fun max => max < sep) .leftNotBelow
        require (sep ≤ cmin) .separatorAbove
      checkChildren check keys (i + 1) ⟨childHeight, subtreeMin, some cmax⟩ children

/-- The least key, the greatest key and the height of the subtree at `id`. -/
def check : Nat → InMemoryStore K V → NodeId → Nat → Nat → Bool →
    Check (K × K × Nat)
  | 0, _, _, _, _, _ => (Traced.fail .diverges : Run _)
  | fuel + 1, store, id, order, minKeys, isRoot => do
      match ← (NodeStore.get store id : Run _) with
      | .leaf leaf =>
          require (!leaf.keys.isEmpty) .leafEmpty
          require (leaf.keys.length < order) (.leafOverCapacity leaf.keys.length order)
          require (isRoot || minKeys ≤ leaf.keys.length)
            (.leafUnderCapacity leaf.keys.length minKeys)
          require (leaf.keys.length = leaf.vals.length)
            (.lengthMismatch leaf.keys.length leaf.vals.length)
          require (neighboursAscend leaf.keys) .leafNotAscending
          let first ← (Vec.get leaf.keys 0 : Run K)
          let lastIndex ← (checkedSub leaf.keys.length 1 : Run Nat)
          let last ← (Vec.get leaf.keys lastIndex : Run K)
          pure (first, last, 1)
      | .internal internal =>
          require (!internal.keys.isEmpty) .noSeparators
          require (internal.keys.length < order)
            (.internalOverCapacity internal.keys.length order)
          require (isRoot || minKeys ≤ internal.keys.length)
            (.internalUnderCapacity internal.keys.length minKeys)
          require (internal.children.length = internal.keys.length + 1)
            (.childCount internal.children.length (internal.keys.length + 1))
          require (neighboursAscend internal.keys) .separatorsNotAscending
          let progress ←
            checkChildren (fun child => check fuel store child order minKeys false)
              internal.keys 0 ⟨none, none, none⟩ internal.children
          let height := (progress.childHeight.map (· + 1)).getD 1
          match progress.subtreeMin, progress.lastMax with
          | some min, some max => pure (min, max, height)
          | _, _ => throw .noChildren

end Check

/-- The entry point of the checker, which exempts the root from least
occupancy. -/
def BPlusTree.checkTree [LT K] [DecidableLT K] [LE K] [DecidableLE K]
    (tree : BPlusTree K V) : Check Unit := do
  let minKeys ← (tree.minKeys : Run Nat)
  let _ ← Check.check tree.fuel tree.store tree.root tree.order minKeys true

/-- Every entry key, from left to right across the leaves, after those of
`out`. -/
def collectKeys : Nat → InMemoryStore K V → NodeId → List K → Run (List K)
  | 0, _, _, _ => Traced.fail .diverges
  | fuel + 1, store, id, out => do
      match ← NodeStore.get store id with
      | .leaf leaf => pure (out ++ leaf.keys)
      | .internal internal =>
          internal.children.foldlM (fun out child => collectKeys fuel store child out) out

end Definitions

namespace Check

section Outcomes

variable {α β : Type}

theorem pure_inj {first second : α} :
    (pure first : Check α) = pure second ↔ first = second := by
  constructor
  · intro equal
    exact Except.ok.inj (Traced.pure_inj.mp equal)
  · rintro rfl
    rfl

theorem throw_ne_pure {violation : Violation} {value : α} :
    (throw violation : Check α) ≠ pure value := by
  intro equal
  cases Traced.pure_inj.mp equal

theorem bind_eq_pure {check : Check α} {next : α → Check β} {value : β} :
    check >>= next = pure value ↔
      ∃ middle, check = pure middle ∧ next middle = pure value := by
  constructor
  · intro equal
    obtain ⟨outcome, checked, after⟩ := Traced.bind_eq_pure.mp equal
    cases outcome with
    | ok middle => exact ⟨middle, checked, after⟩
    | error violation => exact absurd after throw_ne_pure
  · rintro ⟨middle, rfl, after⟩
    rw [pure_bind, after]

theorem lift_eq_pure {run : Run α} {value : α} :
    (liftM run : Check α) = pure value ↔ run = pure value := by
  constructor
  · intro equal
    obtain ⟨found, ran, after⟩ := Traced.bind_eq_pure.mp equal
    have ranEq : run = pure found := ran
    rw [ranEq, Except.ok.inj (Traced.pure_inj.mp after)]
  · rintro rfl
    rfl

theorem require_eq_pure {condition : Bool} {violation : Violation} {done : Unit} :
    require condition violation = pure done ↔ condition = true := by
  cases condition with
  | false => exact iff_of_false throw_ne_pure Bool.false_ne_true
  | true => exact iff_of_true rfl rfl

end Outcomes

theorem neighboursAscend_iff [Preorder K] [DecidableLT K] {keys : List K} :
    neighboursAscend keys = true ↔ keys.Pairwise (· < ·) := by
  rw [← List.isChain_iff_pairwise]
  induction keys with
  | nil => simp [neighboursAscend]
  | cons first rest ih =>
      cases rest with
      | nil => simp [neighboursAscend]
      | cons second rest => simp [neighboursAscend, ih]

end Check

section Ends

variable {L : Type} {h order minKeys least : Nat}

/-- Where there is an entry under every node, the marks begin and end with one. -/
theorem Tree.exists_ends {tree : Tree L K V h} (positive : 1 ≤ minKeys)
    (some : 1 ≤ least) (sized : tree.Sized order minKeys least) :
    ∃ first last, Mark.Ends tree.marks first last := by
  induction h generalizing least with
  | zero =>
      have enough : least ≤ tree.body.length := sized.1
      have nonempty : tree.body.map Prod.fst ≠ [] := by
        intro none
        rw [List.map_eq_nil_iff.mp none, List.length_nil] at enough
        omega
      exact ⟨_, _, Mark.ends_ofEntries.mpr
        ⟨List.head?_eq_some_head nonempty, List.getLast?_eq_some_getLast nonempty⟩⟩
  | succ h ih =>
      refine Mark.exists_ends_interleave ?_ ?_
      · rw [List.length_map]
        exact sized.forked
      · intro block member
        obtain ⟨child, found, rfl⟩ := List.mem_map.mp member
        exact ih positive (sized.children child found)

end Ends

section Walks

/-- The tree that a check of a subtree with these results has walked. -/
structure Walked [LE K] [LT K] (store : InMemoryStore K V) (order minKeys least : Nat)
    (id : NodeId) (first last : K) {h : Nat} (tree : Tree NodeId K V h) : Prop where
  label_eq : tree.label = id
  stored : Stored store tree
  sized : tree.Sized order minKeys least
  ordered : Mark.Ordered tree.marks
  ends : Mark.Ends tree.marks first last

theorem Leaf.exists_ofEntries {leaf : Leaf K V}
    (even : leaf.keys.length = leaf.vals.length) :
    ∃ entries, leaf = Leaf.ofEntries entries := by
  refine ⟨leaf.keys.zip leaf.vals, ?_⟩
  rw [Leaf.ofEntries, List.map_fst_zip (Nat.le_of_eq even),
    List.map_snd_zip (Nat.le_of_eq even.symm)]

theorem stored_leaf {store : InMemoryStore K V} {tree : Tree NodeId K V 0} :
    Stored store tree ↔
      NodeStore.get store tree.label = pure (.leaf (Leaf.ofEntries tree.body)) := by
  constructor
  · exact fun stored => stored _ (Tree.self_mem_subtrees tree)
  · intro got sub member
    cases Tree.mem_subtrees_leaf.mp member
    exact got

theorem stored_node {store : InMemoryStore K V} {h : Nat} {tree : Tree NodeId K V (h + 1)} :
    Stored store tree ↔
      NodeStore.get store tree.label = pure (.internal (tree.body.map Tree.label)) ∧
        ∀ child ∈ tree.body.children, Stored store child := by
  constructor
  · exact fun stored => ⟨stored _ (Tree.self_mem_subtrees tree),
      fun child member => stored.child member⟩
  · rintro ⟨got, below⟩ sub member
    rcases Tree.mem_subtrees_node.mp member with rfl | ⟨child, found, deeper⟩
    · exact got
    · exact below child found sub deeper

namespace Check

variable [Preorder K] [DecidableLT K] [DecidableLE K] {store : InMemoryStore K V}
  {order minKeys fuel : Nat}

theorem checkChildren_eq_pure {check : NodeId → Check (K × K × Nat)}
    (positive : 1 ≤ minKeys)
    (spec : ∀ id first last height, check id = pure (first, last, height) ↔
      ∃ (h : Nat) (tree : Tree NodeId K V h), height = h + 1 ∧ h < fuel ∧
        Walked store order minKeys minKeys id first last tree)
    {h : Nat} (inside : h < fuel) {keys seps : List K} {i : Nat}
    (rest : keys.drop i = seps) {children : List NodeId}
    (even : children.length = seps.length) {front : List (Mark K V)} {first low : K}
    (ordered : Mark.Ordered front) (ends : Mark.Ends front first low)
    {progress : Progress K} :
    checkChildren check keys (i + 1) ⟨some (h + 1), some first, some low⟩ children =
        pure progress ↔
      ∃ (trees : List (Tree NodeId K V h)) (last : K),
        progress = ⟨some (h + 1), some first, some last⟩ ∧
        trees.map Tree.label = children ∧
        (∀ tree ∈ trees, Stored store tree ∧ tree.Sized order minKeys minKeys) ∧
        Mark.Ordered (front ++ Mark.opened seps (trees.map Tree.marks)) ∧
        Mark.Ends (front ++ Mark.opened seps (trees.map Tree.marks)) first last := by
  induction children generalizing seps i front low with
  | nil =>
      rw [List.eq_nil_of_length_eq_zero even.symm, checkChildren, pure_inj]
      constructor
      · rintro rfl
        exact ⟨[], low, rfl, rfl, by simp, by simpa [Mark.opened] using ordered,
          by simpa [Mark.opened] using ends⟩
      · rintro ⟨trees, last, rfl, none, -, -, endsAll⟩
        rw [List.map_eq_nil_iff.mp none] at endsAll
        have same := ends.unique (by simpa [Mark.opened] using endsAll)
        rw [same.2]
  | cons child children ih =>
      obtain _ | ⟨sep, seps⟩ := seps
      · simp at even
      have sepAt : keys[i]? = some sep := by
        rw [← Nat.add_zero i, ← List.getElem?_drop, rest]
        rfl
      have restAfter : keys.drop (i + 1) = seps := by
        rw [← List.tail_drop, rest]
        rfl
      have evenAfter : children.length = seps.length := by simpa using even
      rw [checkChildren]
      simp only [bind_eq_pure, require_eq_pure, lift_eq_pure, pure_inj,
        gt_iff_lt, Nat.zero_lt_succ, if_true, Option.isNone_some, Bool.false_eq_true,
        if_false, decide_eq_true_eq, Option.any_some, Nat.add_sub_cancel,
        exists_and_left, exists_const, exists_eq_left', Vec.get_eq_pure_iff, sepAt,
        Option.some.injEq]
      constructor
      · rintro ⟨⟨high, last, height⟩, checked, heightEq, under, reach, more⟩
        obtain ⟨k, tree, rfl, -, walked⟩ := (spec ..).mp checked
        obtain rfl : h = k := Nat.succ.inj heightEq
        have ordered' := (Mark.ordered_join ends walked.ends).mpr
          ⟨ordered, under, reach, walked.ordered⟩
        obtain ⟨trees, final, progressEq, labelsEq, each, orderedAll, endsAll⟩ :=
          (ih restAfter evenAfter ordered' (ends.join walked.ends)).mp more
        refine ⟨tree :: trees, final, progressEq, ?_, ?_, ?_, ?_⟩
        · rw [List.map_cons, labelsEq, walked.label_eq]
        · exact List.forall_mem_cons.mpr ⟨⟨walked.stored, walked.sized⟩, each⟩
        · simpa using orderedAll
        · simpa using endsAll
      · rintro ⟨trees, last, progressEq, labelsEq, each, orderedAll, endsAll⟩
        obtain _ | ⟨tree, trees⟩ := trees
        · simp at labelsEq
        obtain ⟨labelEq, labelsEq⟩ := List.cons.inj labelsEq
        obtain ⟨⟨stored, sized⟩, each⟩ := List.forall_mem_cons.mp each
        obtain ⟨high, next, treeEnds⟩ := Tree.exists_ends positive positive sized
        have split : front ++ Mark.opened (sep :: seps) ((tree :: trees).map Tree.marks) =
            (front ++ .separator sep :: tree.marks) ++
              Mark.opened seps (trees.map Tree.marks) := by
          simp
        rw [split] at orderedAll endsAll
        have ordered' := (Mark.ordered_append.mp orderedAll).1
        obtain ⟨-, under, reach, treeOrdered⟩ := (Mark.ordered_join ends treeEnds).mp ordered'
        have checked := (spec child high next (h + 1)).mpr
          ⟨h, tree, rfl, inside, labelEq, stored, sized, treeOrdered, treeEnds⟩
        exact ⟨(high, next, h + 1), checked, rfl, under, reach,
          (ih restAfter evenAfter ordered' (ends.join treeEnds)).mpr
            ⟨trees, last, progressEq, labelsEq, each, orderedAll, endsAll⟩⟩

/-- The checker asks for one key everywhere, and for the least count below the root. -/
theorem occupied_iff {isRoot : Bool} {count : Nat} (positive : 1 ≤ minKeys) :
    (if isRoot then 1 else minKeys) ≤ count ↔
      1 ≤ count ∧ (isRoot = true ∨ minKeys ≤ count) := by
  cases isRoot with
  | false => simpa using positive.trans
  | true => simp

theorem check_of_leaf {isRoot : Bool} {id : NodeId} {leaf : Leaf K V}
    (got : NodeStore.get store id = pure (.leaf leaf)) (positive : 1 ≤ minKeys)
    {first last : K} {height : Nat} :
    check (fuel + 1) store id order minKeys isRoot = pure (first, last, height) ↔
      ((if isRoot then 1 else minKeys) ≤ leaf.keys.length ∧ leaf.keys.length < order) ∧
      leaf.keys.length = leaf.vals.length ∧ leaf.keys.Pairwise (· < ·) ∧
      (leaf.keys.head? = some first ∧ leaf.keys.getLast? = some last) ∧ height = 1 := by
  rw [check, got, occupied_iff positive, List.head?_eq_getElem?, List.getLast?_eq_getElem?]
  simp only [liftM_pure, pure_bind, bind_eq_pure, require_eq_pure, lift_eq_pure, pure_inj,
    exists_const, Bool.not_eq_true', List.isEmpty_eq_false_iff, ← List.length_pos_iff,
    Bool.or_eq_true, decide_eq_true_eq, neighboursAscend_iff, Vec.get_eq_pure_iff]
  constructor
  · rintro ⟨some, below, enough, even, ascends, low, lowAt, i, iEq, high, highAt, equal⟩
    cases equal
    rw [checkedSub_of_le some] at iEq
    cases Traced.pure_inj.mp iEq
    exact ⟨⟨⟨some, enough⟩, below⟩, even, ascends, ⟨lowAt, highAt⟩, rfl⟩
  · rintro ⟨⟨⟨some, enough⟩, below⟩, even, ascends, ⟨lowAt, highAt⟩, rfl⟩
    exact ⟨some, below, enough, even, ascends, first, lowAt, _, checkedSub_of_le some,
      last, highAt, rfl⟩

theorem check_leaf {isRoot : Bool} {id : NodeId} {leaf : Leaf K V}
    (got : NodeStore.get store id = pure (.leaf leaf)) (positive : 1 ≤ minKeys)
    {first last : K} {height : Nat} :
    check (fuel + 1) store id order minKeys isRoot = pure (first, last, height) ↔
      height = 1 ∧ ∃ tree : Tree NodeId K V 0,
        Walked store order minKeys (if isRoot then 1 else minKeys) id first last
          tree := by
  rw [check_of_leaf got positive]
  constructor
  · rintro ⟨sized, even, ascends, outermost, rfl⟩
    obtain ⟨entries, rfl⟩ := Leaf.exists_ofEntries even
    refine ⟨rfl, ⟨id, entries⟩, rfl, stored_leaf.mpr got, ?_, ?_, ?_⟩
    · simpa [Tree.Sized, Leaf.ofEntries] using sized
    · exact Mark.ordered_ofEntries.mpr (List.pairwise_map.mp ascends)
    · exact Mark.ends_ofEntries.mpr outermost
  · rintro ⟨rfl, tree, rfl, stored, sized, ordered, ends⟩
    rw [stored_leaf.mp stored, Traced.pure_inj] at got
    cases got
    refine ⟨?_, ?_, ?_, Mark.ends_ofEntries.mp ends, rfl⟩
    · simpa [Tree.Sized, Leaf.ofEntries] using sized
    · simp [Leaf.ofEntries]
    · exact List.pairwise_map.mpr (Mark.ordered_ofEntries.mp ordered)

/-- The whole loop walks subtrees of one height, in order between the separators. -/
theorem checkChildren_all {check : NodeId → Check (K × K × Nat)}
    (positive : 1 ≤ minKeys)
    (spec : ∀ id first last height, check id = pure (first, last, height) ↔
      ∃ (h : Nat) (tree : Tree NodeId K V h), height = h + 1 ∧ h < fuel ∧
        Walked store order minKeys minKeys id first last tree)
    {keys : List K} {children : List NodeId} (forked : children.length = keys.length + 1)
    {progress : Progress K} :
    checkChildren check keys 0 ⟨none, none, none⟩ children = pure progress ↔
      ∃ (h : Nat) (trees : List (Tree NodeId K V h)) (first last : K),
        progress = ⟨some (h + 1), some first, some last⟩ ∧ h < fuel ∧
        trees.map Tree.label = children ∧
        (∀ tree ∈ trees, Stored store tree ∧ tree.Sized order minKeys minKeys) ∧
        Mark.Ordered (Mark.interleave keys (trees.map Tree.marks)) ∧
        Mark.Ends (Mark.interleave keys (trees.map Tree.marks)) first last := by
  obtain _ | ⟨child, children⟩ := children
  · simp at forked
  have even : children.length = keys.length := by simpa using forked
  have focus {h : Nat} {tree : Tree NodeId K V h} {trees : List (Tree NodeId K V h)}
      (labelsEq : trees.map Tree.label = children) :
      Mark.interleave keys ((tree :: trees).map Tree.marks) =
        tree.marks ++ Mark.opened keys (trees.map Tree.marks) := by
    have nothing : ([] : List K).length = ([] : List (List (Mark K V))).length := rfl
    refine Mark.interleave_focus _ nothing ?_
    rw [← even, ← labelsEq, List.length_map, List.length_map]
  rw [checkChildren]
  simp only [bind_eq_pure, pure_inj, gt_iff_lt, lt_irrefl, if_false, Option.isNone_none,
    if_true, exists_eq_left']
  constructor
  · rintro ⟨⟨first, low, height⟩, checked, more⟩
    obtain ⟨h, tree, rfl, inside, walked⟩ := (spec ..).mp checked
    obtain ⟨trees, last, progressEq, labelsEq, each, ordered, ends⟩ :=
      (checkChildren_eq_pure positive spec inside keys.drop_zero even walked.ordered
        walked.ends).mp more
    refine ⟨h, tree :: trees, first, last, progressEq, inside, ?_,
      List.forall_mem_cons.mpr ⟨⟨walked.stored, walked.sized⟩, each⟩, ?_, ?_⟩
    · rw [List.map_cons, walked.label_eq, labelsEq]
    · rwa [focus labelsEq]
    · rwa [focus labelsEq]
  · rintro ⟨h, trees, first, last, progressEq, inside, labelsEq, each, ordered, ends⟩
    obtain _ | ⟨tree, trees⟩ := trees
    · simp at labelsEq
    obtain ⟨labelEq, labelsEq⟩ := List.cons.inj labelsEq
    obtain ⟨⟨stored, sized⟩, each⟩ := List.forall_mem_cons.mp each
    rw [focus labelsEq] at ordered ends
    obtain ⟨first', low, treeEnds⟩ := Tree.exists_ends positive positive sized
    have treeOrdered := (Mark.ordered_append.mp ordered).1
    obtain rfl : first' = first := by
      obtain ⟨value, rest, starts⟩ := treeEnds.first
      obtain ⟨other, more, startsAll⟩ := ends.first
      rw [starts] at startsAll
      exact (Mark.entry.inj (List.cons.inj startsAll).1).1
    have checked := (spec child first' low (h + 1)).mpr
      ⟨h, tree, rfl, inside, labelEq, stored, sized, treeOrdered, treeEnds⟩
    exact ⟨(first', low, h + 1), checked,
      (checkChildren_eq_pure positive spec inside keys.drop_zero even treeOrdered
        treeEnds).mpr ⟨trees, last, progressEq, labelsEq, each, ordered, ends⟩⟩

theorem check_internal {isRoot : Bool} {id : NodeId} {node : Internal K NodeId}
    (got : NodeStore.get store id = pure (.internal node)) (positive : 1 ≤ minKeys)
    (spec : ∀ id first last height, check fuel store id order minKeys false =
        pure (first, last, height) ↔
      ∃ (h : Nat) (tree : Tree NodeId K V h), height = h + 1 ∧ h < fuel ∧
        Walked store order minKeys minKeys id first last tree)
    {first last : K} {height : Nat} :
    check (fuel + 1) store id order minKeys isRoot = pure (first, last, height) ↔
      ∃ (h : Nat) (tree : Tree NodeId K V (h + 1)), height = h + 2 ∧ h < fuel ∧
        Walked store order minKeys (if isRoot then 1 else minKeys) id first last
          tree := by
  rw [check, got]
  simp only [liftM_pure, pure_bind, bind_eq_pure, require_eq_pure, exists_const,
    Bool.not_eq_true', List.isEmpty_eq_false_iff, ← List.length_pos_iff,
    Bool.or_eq_true, decide_eq_true_eq, neighboursAscend_iff]
  constructor
  · rintro ⟨some, below, enough, forked, -, progress, walked, result⟩
    obtain ⟨h, trees, low, high, rfl, inside, labelsEq, each, ordered, ends⟩ :=
      (checkChildren_all positive spec forked).mp walked
    cases pure_inj.mp result
    refine ⟨h, ⟨id, ⟨node.keys, trees⟩⟩, rfl, inside, rfl, ?_, ?_, ordered, ends⟩
    · refine stored_node.mpr ⟨?_, fun child found => (each child found).1⟩
      rw [Internal.map, labelsEq]
      exact got
    · refine ⟨(occupied_iff positive).mpr ⟨some, enough⟩, below, ?_,
        fun child found => (each child found).2⟩
      rw [← labelsEq, List.length_map] at forked
      exact forked
  · rintro ⟨h, tree, rfl, inside, rfl, stored, sized, ordered, ends⟩
    obtain ⟨gotTree, childrenStored⟩ := stored_node.mp stored
    rw [gotTree, Traced.pure_inj] at got
    cases got
    obtain ⟨some, enough⟩ := (occupied_iff positive).mp sized.enough
    have forked : (tree.body.map Tree.label).children.length = tree.body.keys.length + 1 :=
      (List.length_map _).trans sized.forked
    have blocks : tree.body.keys.length ≤ (tree.body.children.map Tree.marks).length := by
      rw [List.length_map, sized.forked]
      exact Nat.le_succ _
    exact ⟨some, sized.below, enough, forked, Mark.separators_ascending blocks ordered, _,
      (checkChildren_all positive spec forked).mpr
        ⟨h, tree.body.children, first, last, rfl, inside, rfl,
          fun child found => ⟨childrenStored child found, sized.children child found⟩,
          ordered, ends⟩, rfl⟩

/-- A check passes on the stored trees, and returns their outermost keys and
their height. -/
theorem check_eq_pure (positive : 1 ≤ minKeys) {isRoot : Bool} {id : NodeId}
    {first last : K} {height : Nat} :
    check fuel store id order minKeys isRoot = pure (first, last, height) ↔
      ∃ (h : Nat) (tree : Tree NodeId K V h), height = h + 1 ∧ h < fuel ∧
        Walked store order minKeys (if isRoot then 1 else minKeys) id first last
          tree := by
  induction fuel generalizing isRoot id first last height with
  | zero =>
      rw [check]
      refine iff_of_false (fun equal => ?_) ?_
      · cases congrArg Traced.result equal
      · rintro ⟨h, tree, -, inside, -⟩
        exact absurd inside (Nat.not_lt_zero h)
  | succ fuel ih =>
      constructor
      · intro checked
        have checked' := checked
        rw [check, bind_eq_pure] at checked'
        obtain ⟨leaf | node, got, -⟩ := checked'
        · obtain ⟨rfl, tree, walked⟩ :=
            (check_leaf (lift_eq_pure.mp got) positive).mp checked
          exact ⟨0, tree, rfl, Nat.succ_pos fuel, walked⟩
        · obtain ⟨h, tree, rfl, inside, walked⟩ :=
            (check_internal (lift_eq_pure.mp got) positive fun _ _ _ _ => ih).mp checked
          exact ⟨h + 1, tree, rfl, Nat.succ_lt_succ inside, walked⟩
      · rintro ⟨h, tree, rfl, inside, walked⟩
        have got := walked.stored _ (Tree.self_mem_subtrees tree)
        rw [walked.label_eq] at got
        cases h with
        | zero => exact (check_leaf got positive).mpr ⟨rfl, tree, walked⟩
        | succ h =>
            exact (check_internal got positive fun _ _ _ _ => ih).mpr
              ⟨h, tree, rfl, Nat.lt_of_succ_lt_succ inside, walked⟩

end Check

end Walks

end IndexDb
