import IndexDb.StoredTree
import IndexDb.TreeBulk

/-!
# Bulk loading into a store

Every level of the construction allocates its nodes in front of the cells of
the level below, so the trees built so far stay intact.  The labels are the
ids that the store hands out, and the shapes are those of the pure
construction.
-/

namespace IndexDb

open LawfulNodeStore

variable {S Id K V : Type} [NodeStore S Id K V] {h : Nat}

namespace Level

/-- What the source keeps of a level: the id of each node and its least key. -/
def names (level : Level Id K V h) : List (Id × K) :=
  level.map fun node => (node.1.label, node.2)

def cells (level : Level Id K V h) : Cells Id (Node Id K V) :=
  level.flatMap fun node => node.1.cells

/-- The tree over a chunk of a level. -/
def parent (id : Id) (first : Tree Id K V h × K) (rest : Level Id K V h) :
    Tree Id K V (h + 1) :=
  ⟨id, ⟨rest.map Prod.snd, first.1 :: rest.map Prod.fst⟩⟩

theorem parent_cells (id : Id) (first : Tree Id K V h × K)
    (rest : Level Id K V h) :
    (parent id first rest).cells =
      (id, (parent id first rest).node) :: cells (first :: rest) := by
  simp only [Tree.cells, parent, Internal.gather, cells, List.flatMap_cons,
    List.flatMap_map]

theorem cells_append (first second : Level Id K V h) :
    cells (first ++ second) = first.cells ++ second.cells :=
  List.flatMap_append

/-- The level without its labels. -/
def shape (level : Level Id K V h) : Level Unit K V h :=
  level.relabel fun _ => ()

theorem shape_take {level chunk : Level Id K V h} {size : Nat}
    (taken : level.take size = chunk) : level.shape.take size = chunk.shape := by
  rw [← taken]
  exact List.map_take.symm

theorem shape_drop (level : Level Id K V h) (size : Nat) :
    level.shape.drop size = shape (level.drop size) :=
  List.map_drop.symm

theorem shape_parent (id : Id) (first : Tree Id K V h × K) (rest : Level Id K V h)
    (parents : Level Id K V (h + 1)) {chunks : List (Level Unit K V h)}
    (built : parents.shape = nodesOver () chunks) :
    shape ((parent id first rest, first.2) :: parents) =
      nodesOver () (shape (first :: rest) :: chunks) := by
  have keys : (shape rest).map Prod.snd = rest.map Prod.snd := by
    simp only [shape, relabel, List.map_map]
    rfl
  have children : (shape rest).map Prod.fst =
      (rest.map Prod.fst).map (Tree.relabel fun _ => ()) := by
    simp only [shape, relabel, List.map_map]
    rfl
  have nodesEq : nodesOver () (shape (first :: rest) :: chunks) =
      (⟨(), ⟨(shape rest).map Prod.snd,
        first.1.relabel (fun _ => ()) :: (shape rest).map Prod.fst⟩⟩, first.2) ::
        nodesOver () chunks := rfl
  rw [nodesEq, keys, children, ← built]
  rfl

end Level

namespace Ops

/-- The sizes of the chunks are even parts. -/
theorem evenChunks_eq {total max : Nat} (positive : 0 < max) :
    evenChunks total max = pure (evenParts total max) := by
  by_cases none : total = 0
  · have empty : partCount 0 max = 0 := by
      simp only [partCount]
      exact Nat.div_eq_of_lt (by omega)
    simp [evenChunks, none, evenParts, empty]
  · have count : partCount total max ≠ 0 :=
      (partCount_pos positive (Nat.pos_of_ne_zero none)).ne'
    simp only [evenChunks, if_neg none, divCeil, if_neg positive.ne', pure_bind]
    exact if_neg count

theorem buildLeaves_cons {store : S} {entries rest : List (K × V)}
    {first : K × V} {size : Nat} (chunk : entries.take size = first :: rest)
    (sizes : List Nat) :
    buildLeaves store entries (size :: sizes) = (do
      let (id, store) ←
        NodeStore.alloc store (.leaf (.ofEntries (first :: rest)))
      let (level, store) ← buildLeaves store (entries.drop size) sizes
      pure ((id, first.1) :: level, store)) := by
  rw [buildLeaves, chunk]
  rfl

theorem buildParents_cons {store : S} {level rest : Level Id K V h}
    {first : Tree Id K V h × K} {size : Nat} (label : Id)
    (chunk : level.take size = first :: rest) (sizes : List Nat) :
    buildParents store level.names (size :: sizes) = (do
      let (parent, store) ←
        NodeStore.alloc store (Level.parent label first rest).node
      let (parents, store) ←
        buildParents store (Level.names (level.drop size)) sizes
      pure ((parent, first.2) :: parents, store)) := by
  have nodeEq : (Level.parent label first rest).node =
      .internal ⟨(Level.names rest).map Prod.snd,
        (Level.names (first :: rest)).map Prod.fst⟩ := by
    simp only [Tree.node, Level.parent, Internal.map, Level.names, List.map_map,
      List.map_cons]
    rfl
  have chunkNames : level.names.take size = Level.names (first :: rest) := by
    rw [← chunk]
    exact List.map_take.symm
  have restNames : level.names.drop size = Level.names (level.drop size) :=
    List.map_drop.symm
  rw [buildParents, chunkNames, restNames, nodeEq]
  rfl

end Ops

section Building

variable [LawfulNodeStore S]

/-- The leaves that are built are the chunks. -/
theorem buildLeaves_refines {store : S} {entries : List (K × V)}
    {sizes : List Nat} (valid : Valid store) (cells : Cells Id (Node Id K V))
    (owned : Owned (view store) cells)
    (nonempty : ∀ chunk ∈ sizes.splitLengths entries, 0 < chunk.length)
    (room : Room store sizes.length ∨
      (Ops.buildLeaves store entries sizes).Exact) :
    ∃ (level : Level Id K V 0) (next : S),
      Ops.buildLeaves store entries sizes = pure (level.names, next) ∧
      level.shape = leavesOver () (sizes.splitLengths entries) ∧
      Rewrites true store next cells (cells ++ level.cells) sizes.length := by
  induction sizes generalizing store entries cells with
  | nil =>
      refine ⟨[], store, rfl, rfl, ?_⟩
      rw [show cells ++ Level.cells ([] : Level Id K V 0) = cells from
        List.append_nil cells]
      exact .refl valid owned
  | cons size sizes ih =>
      rw [List.splitLengths_cons] at nonempty ⊢
      cases chunk : entries.take size with
      | nil =>
          have := nonempty _ (List.mem_cons_self ..)
          simp [chunk] at this
      | cons first rest =>
          rw [Ops.buildLeaves_cons chunk] at room ⊢
          obtain ⟨id, middle, allocated, one⟩ := alloc_owned cells [] _ valid
            (room.imp (room_mono (Nat.le_add_left 1 sizes.length))
              Traced.Avoids.first) (by rwa [List.append_nil])
          rw [List.append_nil] at one
          rw [allocated, pure_bind] at room ⊢
          dsimp only at room ⊢
          obtain ⟨level, next, built, shapeEq, more⟩ := ih one.valid _ one.owned
            (fun chunk member => nonempty chunk (List.mem_cons_of_mem _ member))
            (room.imp (one.room sizes.length) Traced.Avoids.first)
          refine ⟨(⟨id, first :: rest⟩, first.1) :: level, next, ?_, ?_, ?_⟩
          · rw [built, pure_bind]
            rfl
          · rw [leavesOver, ← shapeEq]
            rfl
          · have whole := one.trans more
            rw [Nat.add_comm 1, List.append_assoc] at whole
            exact whole

/-- The nodes that are built over a level take its cells over. -/
theorem buildParents_refines {store : S} {level : Level Id K V h}
    {sizes : List Nat} (valid : Valid store) (cells : Cells Id (Node Id K V))
    (owned : Owned (view store) (cells ++ level.cells))
    (total : sizes.sum = level.length)
    (nonempty : ∀ size ∈ sizes, 0 < size)
    (room : Room store sizes.length ∨
      (Ops.buildParents store level.names sizes).Exact) :
    ∃ (parents : Level Id K V (h + 1)) (next : S),
      Ops.buildParents store level.names sizes = pure (parents.names, next) ∧
      parents.shape = nodesOver () (sizes.splitLengths level.shape) ∧
      Rewrites true store next (cells ++ level.cells) (cells ++ parents.cells)
        sizes.length := by
  induction sizes generalizing store level cells with
  | nil =>
      have empty : level = [] := List.eq_nil_of_length_eq_zero total.symm
      subst empty
      exact ⟨[], store, rfl, rfl, .refl valid owned⟩
  | cons size sizes ih =>
      obtain ⟨first, rest, chunk⟩ : ∃ first rest, level.take size = first :: rest := by
        have positive := nonempty size (List.mem_cons_self ..)
        have inside : size ≤ level.length := by
          rw [← total, List.sum_cons]
          omega
        refine List.exists_cons_of_length_pos ?_
        rw [List.length_take]
        omega
      have split : level.cells =
          Level.cells (first :: rest) ++ Level.cells (level.drop size) := by
        rw [← chunk, ← Level.cells_append, List.take_append_drop]
      have restTotal : sizes.sum = (level.drop size).length := by
        rw [List.length_drop, ← total, List.sum_cons, Nat.add_sub_cancel_left]
      have node (label other : Id) : (Level.parent label first rest).node =
          (Level.parent other first rest).node := rfl
      rw [Ops.buildParents_cons first.1.label chunk] at room ⊢
      rw [split, ← List.append_assoc] at owned
      rw [split]
      obtain ⟨id, middle, allocated, one⟩ := alloc_owned cells
        (Level.cells (first :: rest) ++ Level.cells (level.drop size))
        (Level.parent first.1.label first rest).node valid
        (room.imp (room_mono (Nat.le_add_left 1 sizes.length))
          Traced.Avoids.first) (by rwa [← List.append_assoc])
      have parentCells : cells ++ (id, (Level.parent first.1.label first rest).node) ::
          (Level.cells (first :: rest) ++ Level.cells (level.drop size)) =
          cells ++ (Level.parent id first rest).cells ++
            Level.cells (level.drop size) := by
        rw [Level.parent_cells, node id first.1.label, List.append_assoc]
        rfl
      rw [parentCells] at one
      rw [allocated, pure_bind] at room ⊢
      dsimp only at room ⊢
      obtain ⟨parents, next, built, shapeEq, more⟩ := ih one.valid _ one.owned
        restTotal (fun size member => nonempty size (List.mem_cons_of_mem _ member))
        (room.imp (one.room sizes.length) Traced.Avoids.first)
      refine ⟨(Level.parent id first rest, first.2) :: parents, next, ?_, ?_, ?_⟩
      · rw [built, pure_bind]
        rfl
      · rw [List.splitLengths_cons, Level.shape_take chunk, Level.shape_drop]
        exact Level.shape_parent id first rest parents shapeEq
      · have whole := one.trans more
        rw [Nat.add_comm 1, List.append_assoc cells] at whole
        exact whole

/-- Building levels over a stored one raises it. -/
theorem buildLevels_refines {store : S} {level : Level Id K V h}
    {order fuel n : Nat} (large : 3 ≤ order) (valid : Valid store)
    (owned : Owned (view store) level.cells) (enough : level.length ≤ fuel)
    (count : (Level.raise order fuel level.shape).2.labels.length =
      level.shape.labels.length + n)
    (room : Room store n ∨ (Ops.buildLevels order fuel store level.names).Exact) :
    ∃ (top : Nat) (last : Level Id K V top) (next : S),
      Ops.buildLevels order fuel store level.names = pure (last.names, next) ∧
      Level.raise order fuel level.shape = ⟨top, last.shape⟩ ∧
      Rewrites true store next level.cells last.cells n := by
  have lengthEq : level.shape.length = level.length := List.length_map _
  have namesEq : level.names.length = level.length := List.length_map _
  induction fuel generalizing h store n with
  | zero =>
      have same : level.shape.labels.length = level.shape.labels.length + n := count
      have none : n = 0 := by omega
      subst none
      refine ⟨h, level, store, ?_, rfl, .refl valid owned⟩
      rw [Ops.buildLevels, if_neg (by omega)]
  | succ fuel ih =>
      by_cases several : 1 < level.length
      · rw [Level.raise_several (by omega)] at count ⊢
        have fewer := partCount_lt (show 2 ≤ order by omega) several
        have sizes : Ops.evenChunks level.names.length order =
            pure (evenParts level.length order) := by
          rw [namesEq, Ops.evenChunks_eq (by omega)]
        rw [Ops.buildLevels, if_pos (by omega), sizes, pure_bind] at room ⊢
        have parentsCount := Level.parents_labels large level.shape
        have more := Level.raise_labels large fuel (level.shape.parents order)
        rw [lengthEq] at parentsCount
        obtain ⟨rest, split⟩ : ∃ rest, n = partCount level.length order + rest :=
          ⟨n - partCount level.length order, by omega⟩
        obtain ⟨parents, middle, built, shapeEq, one⟩ := buildParents_refines valid
          [] owned (evenParts_sum (by omega))
          (fun size member => evenParts_pos (by omega) member)
          (room.imp (room_mono (by rw [evenParts_length]; omega))
            Traced.Avoids.first)
        have parentsEq : parents.shape = level.shape.parents order := by
          rw [shapeEq, Level.parents, lengthEq]
        have parentsLength : parents.length = partCount level.length order := by
          rw [← lengthEq, ← Level.parents_length large, ← parentsEq]
          exact (List.length_map _).symm
        rw [built, pure_bind] at room ⊢
        rw [evenParts_length] at one
        rw [← parentsEq] at count parentsCount ⊢
        obtain ⟨top, last, next, finished, raised, two⟩ := ih one.valid one.owned
          (by omega) (by omega)
          (room.imp (fun some => one.room rest (by rwa [Nat.add_comm, ← split])) id)
          (List.length_map _) (List.length_map _)
        refine ⟨top, last, next, finished, raised, ?_⟩
        rw [split]
        exact one.trans two
      · rw [Level.raise_done (by omega)] at count ⊢
        have same : level.shape.labels.length =
            level.shape.labels.length + n := count
        have none : n = 0 := by omega
        subst none
        refine ⟨h, level, store, ?_, rfl, .refl valid owned⟩
        rw [Ops.buildLevels, if_neg (by omega)]

end Building

section Loading

variable {order : Nat} {entries : List (K × V)}

/-- With entries, bulk loading builds leaves, and then levels over them. -/
theorem Ops.bulkLoad_eq (large : 3 ≤ order) (some : entries ≠ []) (store : S) :
    Ops.bulkLoad store entries order = (do
      let (level, store) ← Ops.buildLeaves store entries
        (evenParts entries.length (order - 1))
      let (level, store) ← Ops.buildLevels order level.length store level
      let root ← Vec.get level 0
      pure (root.1, entries.length, store)) := by
  simp only [Ops.bulkLoad, List.length_eq_zero_iff, if_neg some,
    checkedSub_of_le (show 1 ≤ order by omega), pure_bind,
    Ops.evenChunks_eq (show 0 < order - 1 by omega)]

/-- The nodes of the tree are its leaves and the nodes raised over them. -/
theorem Level.top_labels (large : 3 ≤ order) (entries : List (K × V)) :
    (Level.leaves order entries).labels.length = partCount entries.length (order - 1) ∧
      ∃ rest, (Level.top order entries).2.labels.length =
        partCount entries.length (order - 1) + rest := by
  have leavesCount : (Level.leaves order entries).labels.length =
      partCount entries.length (order - 1) := by
    rw [Level.leaves, Level.leavesOver_labels, ← Level.leaves,
      Level.leaves_length large]
  have more := Level.raise_labels large (Level.leaves order entries).length
    (Level.leaves order entries)
  rw [← Level.top, leavesCount] at more
  exact ⟨leavesCount, Nat.exists_eq_add_of_le more⟩

variable [LawfulNodeStore S] [Preorder K] {store : S}

/-- A tree with the shape of the bulk loaded one is a search tree. -/
theorem SearchTree.exists_bulk {L : Type} (large : 3 ≤ order)
    (ascending : Ascending entries) (tree : Tree L K V h)
    (shapeEq : Tree.bulk order entries = ⟨h, tree.shape⟩) :
    ∃ t : SearchTree L K V order, (⟨t.height, t.tree⟩ : Σ h, Tree L K V h) =
      ⟨h, tree⟩ ∧ t.shape = SearchTree.bulk large ascending := by
  obtain ⟨sized, ordered, -⟩ := Tree.bulk_legal large ascending
  rw [shapeEq] at sized ordered
  refine ⟨⟨h, tree, large, (Tree.sized_relabel _).mp sized, ?_⟩, rfl, ?_⟩
  · rwa [Tree.shape, Tree.relabel_marks] at ordered
  · exact SearchTree.ext_tree shapeEq.symm

/-- Without entries, bulk loading makes an empty leaf. -/
theorem bulkLoad_nil (large : 3 ≤ order) (ascending : Ascending ([] : List (K × V)))
    (valid : Valid store)
    (room : Room store (SearchTree.bulk large ascending).size ∨
      (Ops.bulkLoad store ([] : List (K × V)) order).Exact) :
    ∃ (t : SearchTree Id K V order) (next : S),
      Ops.bulkLoad store ([] : List (K × V)) order = pure (t.root, 0, next) ∧
      t.shape = SearchTree.bulk large ascending ∧
      Rewrites true store next [] t.cells t.size := by
  obtain ⟨id, next, allocated, change⟩ := alloc_owned [] [] Node.emptyLeaf valid
    (room.imp (room_mono (Nat.lt_of_le_of_lt (Nat.zero_le _)
      (SearchTree.bulk large ascending).height_lt_size)) Traced.Avoids.first)
    ⟨by simp, List.nodup_nil⟩
  obtain ⟨⟨height, tree, _, sized, ordered⟩, treeEq, shapeEq⟩ :=
    SearchTree.exists_bulk (h := 0) large ascending ⟨id, []⟩ (Tree.bulk_nil order)
  cases treeEq
  refine ⟨_, next, ?_, shapeEq, change⟩
  simp only [Ops.bulkLoad, allocated, pure_bind]
  rfl

/-- Bulk loading builds the tree of the pure construction. -/
theorem bulkLoad_refines (large : 3 ≤ order) (ascending : Ascending entries)
    (valid : Valid store)
    (room : Room store (SearchTree.bulk large ascending).size ∨
      (Ops.bulkLoad store entries order).Exact) :
    ∃ (t : SearchTree Id K V order) (next : S),
      Ops.bulkLoad store entries order = pure (t.root, entries.length, next) ∧
      t.shape = SearchTree.bulk large ascending ∧
      Rewrites true store next [] t.cells t.size := by
  by_cases none : entries = []
  · subst none
    exact bulkLoad_nil large ascending valid room
  · rw [Ops.bulkLoad_eq large none] at room ⊢
    rcases Level.top_cases large ascending with ⟨h, empty, -⟩ | ⟨h, node, topEq, -⟩
    · exact absurd empty none
    have bulkEq : Tree.bulk order entries = ⟨h, node.1⟩ := by
      rw [Tree.bulk, topEq]
      rfl
    have sizeEq : (SearchTree.bulk large ascending).size = node.1.size := by
      change (Tree.bulk order entries).2.size = _
      rw [bulkEq]
    have topSize : (Level.top order entries).2.labels.length = node.1.size := by
      rw [topEq]
      exact congrArg List.length (List.append_nil _)
    obtain ⟨leavesSize, rest, split⟩ := Level.top_labels large entries
    rw [topSize] at split
    obtain ⟨leaves, middle, built, leavesEq, one⟩ := buildLeaves_refines valid []
      ⟨by simp, List.nodup_nil⟩
      (fun chunk member => (evenChunk_length (by omega) member).2.1)
      (room.imp (room_mono (by rw [evenParts_length]; omega))
        Traced.Avoids.first)
    have shapeEq : leaves.shape = Level.leaves order entries := leavesEq
    have lengthEq : leaves.length = (Level.leaves order entries).length := by
      rw [← shapeEq]
      exact (List.length_map _).symm
    have fuelEq : leaves.names.length = (Level.leaves order entries).length :=
      (List.length_map _).trans lengthEq
    rw [evenParts_length] at one
    rw [built, pure_bind] at room ⊢
    dsimp only at room ⊢
    rw [fuelEq] at room ⊢
    obtain ⟨top, last, next, finished, raised, two⟩ := buildLevels_refines large
      one.valid one.owned lengthEq.le
      (by rw [shapeEq, ← Level.top, topSize, leavesSize, split])
      (room.imp (fun some => one.room rest (by
        rwa [sizeEq, split, Nat.add_comm] at some)) Traced.Avoids.first)
    rw [shapeEq, ← Level.top, topEq] at raised
    obtain ⟨rfl, lastEq⟩ := Sigma.mk.inj raised
    obtain ⟨⟨root, least⟩, rfl, rootEq⟩ :=
      List.map_eq_singleton_iff.mp (eq_of_heq lastEq).symm
    have rootShape : root.shape = node.1 := congrArg Prod.fst rootEq
    have rootSize : root.size = partCount entries.length (order - 1) + rest := by
      rw [← split, ← rootShape, Tree.size, Tree.size, Tree.shape,
        Tree.relabel_labels, List.length_map]
    obtain ⟨⟨height, tree, _, sized, ordered⟩, treeEq, treeShape⟩ :=
      SearchTree.exists_bulk large ascending root (by rw [bulkEq, rootShape])
    cases treeEq
    refine ⟨_, next, ?_, treeShape, ?_⟩
    · rw [finished, pure_bind]
      rfl
    · have whole := one.trans two
      rw [← rootSize] at whole
      exact whole.perm (.refl _) (by rw [Level.cells, List.flatMap_singleton]; rfl)

end Loading

end IndexDb
