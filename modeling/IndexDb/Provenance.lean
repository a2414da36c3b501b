import IndexDb.KeyInstances
import IndexDb.Packing
import IndexDb.Scans

/-!
# What the slab holds on to

Separators are copies of keys, and they outlive the entries that they were
copied from.  Still no operation makes up a key: what stands in the marks after
an operation stood there before, but for the key of an entry that an insertion
adds.  So every key in the slab, in a node of the tree or in a reclaimed slot, is
one that came in with an entry since the tree was last cleared.  Values have no
copies: the slab holds those of the entries and no others.
-/

namespace IndexDb

variable {K V : Type}

/-- The keys of the marks. -/
def Mark.keys (marks : List (Mark K V)) : List K :=
  marks.map Mark.key

namespace Mark

variable (first second : List (Mark K V))

@[simp]
theorem keys_append : keys (first ++ second) = keys first ++ keys second :=
  List.map_append

@[simp]
theorem keys_cons (mark : Mark K V) : keys (mark :: first) = mark.key :: keys first :=
  rfl

@[simp]
theorem keys_ofEntries (entries : List (K × V)) :
    keys (ofEntries entries) = entries.map Prod.fst := by
  simp [keys, ofEntries, Function.comp_def, key]

variable {first second}

theorem keys_inside (subset : keys first ⊆ keys second) (left right : List (Mark K V)) :
    keys (left ++ first ++ right) ⊆ keys (left ++ second ++ right) := by
  simp only [keys_append]
  intro found member
  simp only [List.mem_append] at member ⊢
  exact member.imp_left (Or.imp_right (subset ·))

end Mark

section Insertion

variable [Preorder K]

/-- A leaf takes in the key of an insertion that displaces nothing, and no
other. -/
theorem LeafGrowth.keys {order : Nat} {key : K} {value : V} {entries : List (K × V)}
    {grown : Grown (List (K × V)) K V} (growth : LeafGrowth order key value entries grown) :
    Mark.keys (grown.marks Mark.ofEntries) ⊆
      (if grown.displaced.isSome then [] else [key]) ++ entries.map Prod.fst := by
  cases growth with
  | replaced split below same above =>
      simp [Grown.marks, Grown.displaced, split, Mark.key]
  | done split below above fits =>
      simp only [Grown.marks, Grown.displaced, split, Mark.keys_ofEntries, List.map_append,
        List.map_cons, Option.isSome_none, Bool.false_eq_true, if_false]
      intro found member
      simp only [List.mem_append, List.mem_cons, List.not_mem_nil] at member ⊢
      tauto
  | @halved before after left right next split below above full cut half =>
      have members := congrArg (List.map Prod.fst) cut
      simp only [List.map_append, List.map_cons] at members
      intro found member
      have inside : found ∈ left.map Prod.fst ++ next.1 :: right.map Prod.fst := by
        simp only [Grown.marks, Mark.keys_append, Mark.keys_cons, Mark.keys_ofEntries,
          List.map_cons, Mark.key, List.mem_append, List.mem_cons] at member ⊢
        tauto
      rw [members] at inside
      simp only [Grown.displaced, split, List.map_append, Option.isSome_none,
        Bool.false_eq_true, if_false, List.mem_append, List.mem_cons,
        List.not_mem_nil] at inside ⊢
      tauto

variable [Std.IsLinearPreorder K] [DecidableLT K] {L : Type} {h : Nat}
  {order minKeys least : Nat}

theorem Tree.insertInto_keys (fresh : Nat → L) (key : K) (value : V) {tree : Tree L K V h}
    (sized : tree.Sized order minKeys least) (ordered : Mark.Ordered tree.marks) :
    Mark.keys ((tree.insertInto fresh order key value).marks marks) ⊆
      (if (tree.insertInto fresh order key value).displaced.isSome then [] else [key]) ++
        Mark.keys tree.marks := by
  induction h generalizing least with
  | zero =>
      have ascending : Ascending tree.body := by
        rw [← entries_leaf tree]
        exact ordered.ascending
      have growth := insertEntries_growth order key value ascending
      rw [insertInto, Grown.place_marks_leaf, Grown.place_displaced]
      have marksEq : Mark.keys tree.marks = tree.body.map Prod.fst := Mark.keys_ofEntries _
      rw [marksEq]
      exact growth.keys
  | succ h ih =>
      obtain ⟨hole, child, filled, indexEq, -, -⟩ :=
        route (Internal.Occupied.forked sized) ordered key
      have inner := ih (sized.child filled) (ordered_child filled ordered)
      rw [insertInto_fill fresh order key value filled indexEq, Grown.place_marks_node,
        Grown.place_displaced, Internal.absorb_marks, Internal.absorb_displaced,
        marks_fill filled]
      intro found member
      simp only [Mark.keys_append, List.mem_append] at member ⊢
      rcases member with (member | member) | member
      · tauto
      · have := inner member
        simp only [List.mem_append] at this
        tauto
      · tauto

/-- Insertion adds the key of a new entry to the keys of a tree, and no other. -/
theorem SearchTree.insert_keys (fresh : Nat → L) (key : K) (value : V)
    (t : SearchTree L K V order) :
    Mark.keys (t.insert fresh key value).2.tree.marks ⊆
      (if (t.insert fresh key value).1.isSome then [] else [key]) ++
        Mark.keys t.tree.marks := by
  have grown := Tree.insertInto_keys fresh key value t.sized t.ordered
  rwa [← Grown.root_marks (fresh (t.height + 1))] at grown

end Insertion

section Removal

variable {L : Type} {h : Nat} {order minKeys least : Nat}

namespace Tree

variable {left right : Tree L K V h} {sep : K}

theorem keys_leaf (tree : Tree L K V 0) :
    Mark.keys tree.marks = tree.body.map Prod.fst :=
  Mark.keys_ofEntries _

/-- A rotation to the right makes up no key: its separator is a key of a leaf, or
one that goes up from a node. -/
theorem rotateRight_keys (positive : 1 ≤ minKeys)
    (leftSized : left.Sized order minKeys minKeys) (spare : minKeys < left.keysLen) :
    Mark.keys ((left.rotateRight sep right).1.marks ++
        .separator (left.rotateRight sep right).2.1 ::
          (left.rotateRight sep right).2.2.marks) ⊆
      Mark.keys (left.marks ++ .separator sep :: right.marks) := by
  cases h with
  | zero =>
      have several : 1 < left.keysLen := by omega
      obtain ⟨front, last, bodyEq, -⟩ := exists_last several
      rw [rotateRight_leaf bodyEq]
      simp only [Mark.keys_append, Mark.keys_cons, keys_leaf, bodyEq, Mark.key,
        List.map_append, List.map_cons, List.map_nil]
      intro found member
      simp only [List.mem_append, List.mem_cons, List.not_mem_nil] at member ⊢
      tauto
  | succ h =>
      obtain ⟨keys, newSep, children, moved, bodyEq, forked⟩ :=
        exists_last_child leftSized.forked (by omega)
      rw [rotateRight_node bodyEq, marks_node left, bodyEq,
        Internal.treeMarks_concat newSep moved forked]
      simp [marks_node, Internal.treeMarks_cons]

theorem rotateLeft_keys (positive : 1 ≤ minKeys)
    (leftSized : left.Sized order minKeys least)
    (rightSized : right.Sized order minKeys minKeys) (spare : minKeys < right.keysLen) :
    Mark.keys ((left.rotateLeft sep right).1.marks ++
        .separator (left.rotateLeft sep right).2.1 ::
          (left.rotateLeft sep right).2.2.marks) ⊆
      Mark.keys (left.marks ++ .separator sep :: right.marks) := by
  cases h with
  | zero =>
      have several : 1 < right.keysLen := by omega
      obtain ⟨first, next, rest, bodyEq⟩ := exists_first several
      rw [rotateLeft_leaf bodyEq]
      simp only [Mark.keys_append, Mark.keys_cons, keys_leaf, bodyEq, Mark.key,
        List.map_append, List.map_cons, List.map_nil]
      intro found member
      simp only [List.mem_append, List.mem_cons, List.not_mem_nil] at member ⊢
      tauto
  | succ h =>
      obtain ⟨newSep, keys, moved, children, bodyEq, -⟩ :=
        exists_first_child rightSized.forked (by omega)
      rw [rotateLeft_node bodyEq]
      simp [marks_node, bodyEq, Internal.treeMarks_cons,
        Internal.treeMarks_concat sep moved leftSized.forked]

theorem join_keys (leftSized : left.Sized order minKeys least) :
    Mark.keys (left.join sep right).marks ⊆
      Mark.keys (left.marks ++ .separator sep :: right.marks) := by
  cases h with
  | zero =>
      simp only [join, Mark.keys_append, Mark.keys_cons, keys_leaf, List.map_append]
      intro found member
      simp only [List.mem_append, List.mem_cons] at member ⊢
      tauto
  | succ h =>
      have whole : left.marks ++ .separator sep :: right.marks =
          (left.join sep right).marks :=
        Internal.treeMarks_cut rfl rfl leftSized.forked
      rw [whole]
      exact List.Subset.refl _

end Tree

theorem Rebalanced.keys {hole : Hole K (Tree L K V h)} {child : Tree L K V h}
    {node : Internal K (Tree L K V h)} (rebalanced : Rebalanced minKeys hole child node)
    (positive : 1 ≤ minKeys)
    (siblings : ∀ sibling ∈ hole.others, sibling.Sized order minKeys minKeys)
    (childSized : child.Sized order minKeys least) :
    Mark.keys node.treeMarks ⊆ Mark.keys (hole.fill child).treeMarks := by
  cases rebalanced with
  | @fromLeft wide left sep place spare =>
      have leftSized := siblings left (by simp [place])
      rw [place, Hole.pastLeft_fill, Hole.treeMarks_fillTwo, Hole.treeMarks_fillTwo]
      exact Mark.keys_inside (Tree.rotateRight_keys positive leftSized spare) _ _
  | @fromRight wide sep right place spare _ =>
      have rightSized := siblings right (by simp [place])
      rw [place, Hole.beforeRight_fill, Hole.treeMarks_fillTwo, Hole.treeMarks_fillTwo]
      exact Mark.keys_inside
        (Tree.rotateLeft_keys positive childSized rightSized spare) _ _
  | @intoLeft wide left sep place _ _ =>
      have leftSized := siblings left (by simp [place])
      rw [place, Hole.pastLeft_fill, Hole.treeMarks_fillTwo, Hole.treeMarks_fill]
      exact Mark.keys_inside (Tree.join_keys leftSized) _ _
  | @intoRight wide sep right place _ _ =>
      rw [place, Hole.beforeRight_fill, Hole.treeMarks_fillTwo, Hole.treeMarks_fill]
      exact Mark.keys_inside (Tree.join_keys childSized) _ _

theorem LeafShrinkage.keys [Preorder K] {key : K} {entries : List (K × V)}
    {result : Option V × List (K × V)} (shrinkage : LeafShrinkage key entries result) :
    result.2.map Prod.fst ⊆ entries.map Prod.fst := by
  cases shrinkage with
  | removed split below same above =>
      rw [split]
      simp
  | missing split below above => exact List.Subset.refl _

variable [Preorder K] [Std.IsLinearPreorder K] [DecidableLT K]

theorem Tree.removeFrom_keys (key : K) (positive : 1 ≤ minKeys)
    (half : 2 * minKeys + 1 ≤ order) {tree : Tree L K V h}
    (sized : tree.Sized order minKeys least) (ordered : Mark.Ordered tree.marks)
    (inner : min h 1 ≤ least) :
    Mark.keys (tree.removeFrom minKeys key).2.marks ⊆ Mark.keys tree.marks := by
  induction h generalizing least with
  | zero =>
      have ascending : Ascending tree.body := by
        rw [← entries_leaf tree]
        exact ordered.ascending
      rw [keys_leaf, keys_leaf]
      exact (removeEntries_shrinkage key ascending).keys
  | succ h ih =>
      obtain ⟨hole, child, filled, indexEq, -, -⟩ :=
        route (Internal.Occupied.forked sized) ordered key
      have childSized := sized.child filled
      have childOrdered := ordered_child filled ordered
      have shrunk := removeFrom_sized key positive half childSized childOrdered (by omega)
      have childKeys := ih childSized childOrdered (by omega)
      obtain ⟨enough, below, siblings⟩ := sized.around filled
      have refilled : Mark.keys (hole.fill (child.removeFrom minKeys key).2).treeMarks ⊆
          Mark.keys tree.marks := by
        rw [marks_fill filled, hole.treeMarks_fill]
        exact Mark.keys_inside childKeys _ _
      rw [removeFrom_fill minKeys key filled indexEq, marks_node]
      dsimp only
      split_ifs with poor
      · have repaired := rebalance_rebalanced minKeys hole
          (child.removeFrom minKeys key).2 (Hole.several (by omega))
        exact List.Subset.trans (repaired.keys positive siblings shrunk) refilled
      · exact refilled

/-- Removal leaves no key but those of the tree. -/
theorem SearchTree.remove_keys (key : K) (t : SearchTree L K V order) :
    Mark.keys (t.remove key).2.tree.marks ⊆ Mark.keys t.tree.marks := by
  have shrunk := Tree.removeFrom_keys key (leastKeys_pos t.large) (leastKeys_half t.large)
    t.sized t.ordered (Nat.le_refl _)
  have same := Tree.remove_marks key (leastKeys_pos t.large) (leastKeys_half t.large)
    t.sized t.ordered
  rwa [← same] at shrunk

end Removal

/-- The separators of a bulk loaded tree are copies of entry keys. -/
theorem Mark.Tight.keys {marks : List (Mark K V)} (tight : Tight marks) :
    Mark.keys marks ⊆ (entries marks).map Prod.fst := by
  intro found member
  obtain ⟨mark, inside, rfl⟩ := List.mem_map.mp member
  cases mark with
  | entry key value => exact List.mem_map_of_mem (mem_entries.mpr inside)
  | separator key =>
      obtain ⟨before, after, split⟩ := List.append_of_mem inside
      obtain ⟨value, rest, rfl⟩ := tight before key after split
      have next : (key, value) ∈ entries marks := mem_entries.mpr (by simp [split])
      exact List.mem_map_of_mem next

theorem SearchTree.bulk_keys [Preorder K] {order : Nat} {contents : List (K × V)}
    (large : 3 ≤ order) (ascending : Ascending contents) :
    Mark.keys (bulk large ascending).tree.marks ⊆ contents.map Prod.fst := by
  by_cases none : contents = []
  · subst none
    change Mark.keys (Tree.bulk order []).2.marks ⊆ _
    rw [Tree.bulk_nil]
    exact List.Subset.refl _
  · have copies := (bulk_tight large ascending none).keys
    have same : Mark.entries (bulk large ascending).tree.marks = contents :=
      bulk_entries large ascending
    rwa [same] at copies

section Slab

/-- The keys of a leaf, or the separators of an internal node. -/
def Node.keys {Id : Type} : Node Id K V → List K
  | .leaf node => node.keys
  | .internal node => node.keys

def Node.vals {Id : Type} : Node Id K V → List V
  | .leaf node => node.vals
  | .internal _ => []

/-- The keys in all slots of the slab, those of reclaimed nodes included. -/
def BPlusTree.slabKeys (tree : BPlusTree K V) : List K :=
  tree.store.slab.flatMap Node.keys

/-- The values in all slots of the slab. -/
def BPlusTree.slabVals (tree : BPlusTree K V) : List V :=
  tree.store.slab.flatMap Node.vals

namespace Tree

variable {Id : Type} {h : Nat} {order minKeys least : Nat}

theorem cells_vals (tree : Tree Id K V h) :
    (tree.cells.flatMap fun cell => cell.2.vals) = tree.entries.map Prod.snd := by
  induction h with
  | zero =>
      rw [entries_leaf]
      exact List.append_nil _
  | succ h ih =>
      have children : (tree.cells.flatMap fun cell => cell.2.vals) =
          tree.body.children.flatMap fun child =>
            child.cells.flatMap fun cell => cell.2.vals :=
        List.flatMap_assoc
      rw [children, entries_node, Internal.gather, List.map_flatMap]
      simp only [ih]

/-- The keys in the cells of a tree are those of its marks. -/
theorem mem_cells_keys {tree : Tree Id K V h} (sized : tree.Sized order minKeys least)
    {key : K} :
    (∃ cell ∈ tree.cells, key ∈ cell.2.keys) ↔ key ∈ Mark.keys tree.marks := by
  induction h generalizing least with
  | zero =>
      rw [keys_leaf]
      simp [cells, node, Node.keys, Leaf.ofEntries]
  | succ h ih =>
      have split : (∃ cell ∈ tree.cells, key ∈ cell.2.keys) ↔ key ∈ tree.body.keys ∨
          ∃ child ∈ tree.body.children, ∃ cell ∈ child.cells, key ∈ cell.2.keys := by
        simp only [cells, Internal.gather, List.exists_mem_cons_iff, List.mem_flatMap]
        refine or_congr Iff.rfl ⟨?_, ?_⟩
        · rintro ⟨cell, ⟨child, member, inside⟩, found⟩
          exact ⟨child, member, cell, inside, found⟩
        · rintro ⟨child, member, cell, inside, found⟩
          exact ⟨cell, ⟨child, member, inside⟩, found⟩
      rw [split, marks_node, Internal.treeMarks]
      constructor
      · rintro (isSep | ⟨child, member, inside⟩)
        · have enough : tree.body.keys.length ≤ (tree.body.children.map marks).length := by
            have forked := sized.forked
            simp only [Internal.Forked] at forked
            simp [forked]
          exact List.mem_map_of_mem (Mark.separator_mem_interleave enough isSep)
        · have found := (ih (sized.children child member)).mp inside
          obtain ⟨mark, own, rfl⟩ := List.mem_map.mp found
          exact List.mem_map_of_mem
            (Mark.subset_interleave _ (List.mem_map_of_mem member) own)
      · intro found
        obtain ⟨mark, inside, rfl⟩ := List.mem_map.mp found
        rcases Mark.mem_interleave inside with ⟨block, isBlock, own⟩ | ⟨sep, isSep, rfl⟩
        · obtain ⟨child, member, rfl⟩ := List.mem_map.mp isBlock
          exact .inr ⟨child, member,
            (ih (sized.children child member)).mpr (List.mem_map_of_mem own)⟩
        · exact .inl isSep

end Tree

variable [LE K] [LT K] {order : Nat} {tree : BPlusTree K V} {t : SearchTree NodeId K V order}

/-- The slab holds the nodes of the tree, and an empty leaf in every other slot. -/
theorem BPlusTree.Represents.slab_perm (represents : tree.Represents t) :
    tree.store.slab.Perm (t.cells.map Prod.snd ++
      List.replicate tree.store.free.length Node.emptyLeaf) := by
  have valid : InMemoryStore.Valid tree.store := represents.valid
  let content := fun slot => tree.store.slab.getD slot Node.emptyLeaf
  have whole : (List.range tree.store.slab.length).map content = tree.store.slab := by
    refine List.ext_getElem (by simp) fun slot inside _ => ?_
    simp only [List.length_map, List.length_range] at inside
    simp [content, inside]
  have inUse : t.labels.map (fun id => content id.slot) = t.cells.map Prod.snd := by
    rw [← SearchTree.cells_names, Cells.names, List.map_map]
    refine List.map_congr_left fun cell member => ?_
    have live := represents.owned.resolves cell member
    have found := (InMemoryStore.view_eq_some.mp live).2
    simp [content, found]
  have vacant : tree.store.free.map (fun id => content id.slot) =
      List.replicate tree.store.free.length Node.emptyLeaf := by
    refine List.eq_replicate_iff.mpr ⟨by simp, fun node member => ?_⟩
    obtain ⟨id, isFree, rfl⟩ := List.mem_map.mp member
    simp [content, valid.vacant id isFree]
  have perm := represents.slots_perm.map content
  rw [whole, List.map_map, List.map_append] at perm
  have parts := perm.symm
  rw [← inUse, ← vacant]
  exact parts

theorem BPlusTree.Represents.mem_slabKeys (represents : tree.Represents t) {key : K} :
    key ∈ tree.slabKeys ↔ key ∈ Mark.keys t.tree.marks := by
  rw [slabKeys, (represents.slab_perm.flatMap_right Node.keys).mem_iff,
    ← Tree.mem_cells_keys t.sized, List.flatMap_append, List.flatMap_map]
  have none : (List.replicate tree.store.free.length
      (Node.emptyLeaf : Node NodeId K V)).flatMap Node.keys = [] := by
    simp [Node.emptyLeaf, Node.keys]
  rw [none, List.append_nil]
  exact List.mem_flatMap

theorem BPlusTree.Represents.slabVals_perm (represents : tree.Represents t) :
    tree.slabVals.Perm (t.entries.map Prod.snd) := by
  have perm := represents.slab_perm.flatMap_right Node.vals
  rw [List.flatMap_append, List.flatMap_map] at perm
  have none : (List.replicate tree.store.free.length
      (Node.emptyLeaf : Node NodeId K V)).flatMap Node.vals = [] := by
    simp [Node.emptyLeaf, Node.vals]
  rw [none, List.append_nil] at perm
  exact perm.trans (.of_eq t.tree.cells_vals)

end Slab

section Histories

/-- The keys that came in with an entry since the tree was last cleared. -/
def Call.creates (held : List K) : Call K V × Reply V → List K
  | (.insert key _, .value none) => key :: held
  | (.clear, _) => []
  | _ => held

def Call.everCreated (held : List K) (history : List (Call K V × Reply V)) : List K :=
  history.foldl creates held

/-- The keys of the entries, and that of an entry to come, stay among them. -/
theorem Entries.keys_insert [Preorder K] [DecidableLT K] (key : K) (value : V)
    (entries : List (K × V)) :
    (if (lookup key entries).isSome then [] else [key]) ++ entries.map Prod.fst ⊆
      (insert key value entries).map Prod.fst := by
  induction entries with
  | nil => exact List.Subset.refl _
  | cons entry entries ih =>
      rw [insert, lookup]
      by_cases below : entry.1 < key
      · rw [if_pos below, if_pos below]
        intro found member
        have kept := @ih found
        simp only [List.map_cons, List.mem_append, List.mem_cons] at member kept ⊢
        tauto
      · rw [if_neg below, if_neg below]
        by_cases above : key < entry.1
        · rw [if_pos above, if_pos above]
          exact List.Subset.refl _
        · rw [if_neg above, if_neg above]
          exact List.Subset.refl _

variable [Preorder K] [Std.IsLinearPreorder K] [DecidableLT K] {order : Nat}
  {tree next : BPlusTree K V} {t : SearchTree NodeId K V order}

namespace BPlusTree

/-- An insertion adds no key to the slab but that of a new entry. -/
theorem Represents.insert_slabKeys (represents : tree.Represents t) {key : K} {value : V}
    {displaced : Option V} (returned : tree.insert key value = pure (displaced, next)) :
    next.slabKeys ⊆ (if displaced.isSome then [] else [key]) ++ tree.slabKeys := by
  have isExact : (tree.insert key value).Exact := by simp [returned, Traced.Exact]
  obtain ⟨fresh, after, inserted, nextRepresents, -⟩ :=
    represents.insert key value (.inr isExact)
  rw [inserted, Traced.pure_inj] at returned
  cases returned
  intro found member
  have inside := t.insert_keys fresh key value (nextRepresents.mem_slabKeys.mp member)
  simp only [List.mem_append] at inside ⊢
  exact inside.imp_right represents.mem_slabKeys.mpr

theorem Represents.call_slabKeys (represents : tree.Represents t) {call : Call K V}
    {reply : Reply V} (returned : tree.call call = pure (reply, next)) {held : List K}
    (inside : tree.slabKeys ⊆ held) : next.slabKeys ⊆ Call.creates held (call, reply) := by
  cases call with
  | insert key value =>
      rw [BPlusTree.call] at returned
      obtain ⟨middle, inserted, rest⟩ := Traced.bind_eq_pure.mp returned
      obtain ⟨displaced, after⟩ := middle
      cases Traced.pure_inj.mp rest
      have added := represents.insert_slabKeys inserted
      cases displaced with
      | none => exact List.Subset.trans added (List.cons_subset_cons key inside)
      | some old => exact List.Subset.trans added inside
  | remove key =>
      obtain ⟨after, removed, nextRepresents, -⟩ := represents.remove key
      rw [BPlusTree.call, removed, pure_bind, Traced.pure_inj] at returned
      cases returned
      intro found member
      have kept := t.remove_keys key (nextRepresents.mem_slabKeys.mp member)
      exact inside (represents.mem_slabKeys.mpr kept)
  | clear =>
      rw [BPlusTree.call, clear_eq, pure_bind, Traced.pure_inj] at returned
      cases returned
      exact List.nil_subset _
  | get key =>
      rw [BPlusTree.call, represents.get, pure_bind, Traced.pure_inj] at returned
      cases returned
      exact inside
  | containsKey key =>
      rw [BPlusTree.call, represents.containsKey, pure_bind, Traced.pure_inj] at returned
      cases returned
      exact inside
  | len | isEmpty =>
      rw [BPlusTree.call, Traced.pure_inj] at returned
      cases returned
      exact inside

theorem Represents.calls_slabKeys (represents : tree.Represents t) {calls : List (Call K V)}
    {replies : List (Reply V)} (returned : tree.calls calls = pure (replies, next))
    {held : List K} (inside : tree.slabKeys ⊆ held) :
    next.slabKeys ⊆ Call.everCreated held (calls.zip replies) := by
  induction calls generalizing tree t replies held with
  | nil =>
      cases Traced.pure_inj.mp returned
      exact inside
  | cons call calls ih =>
      rw [BPlusTree.calls_stepwise.cons] at returned
      obtain ⟨⟨reply, middle⟩, called, rest⟩ := Traced.bind_eq_pure.mp returned
      obtain ⟨⟨others, last⟩, finished, same⟩ := Traced.bind_eq_pure.mp rest
      cases Traced.pure_inj.mp same
      have isExact : (tree.call call).Exact := by simp [called, Traced.Exact]
      obtain ⟨after, t', stepped, middleRepresents, -⟩ := represents.call call isExact
      rw [stepped, Traced.pure_inj] at called
      cases called
      exact ih middleRepresents finished (represents.call_slabKeys stepped inside)

/-- A tree built by insertions holds no keys but those of its entries. -/
theorem Represents.insertAll_slabKeys {entries : List (K × V)}
    (represents : tree.Represents t) (returned : tree.insertAll entries = pure next)
    (inside : tree.slabKeys ⊆ t.entries.map Prod.fst) :
    next.slabKeys ⊆ (Entries.insertAll entries t.entries).map Prod.fst := by
  induction entries generalizing tree t with
  | nil =>
      cases Traced.pure_inj.mp returned
      exact inside
  | cons entry entries ih =>
      obtain ⟨key, value⟩ := entry
      rw [BPlusTree.insertAll] at returned
      obtain ⟨⟨displaced, middle⟩, inserted, finished⟩ := Traced.bind_eq_pure.mp returned
      have isExact : (tree.insert key value).Exact := by simp [inserted, Traced.Exact]
      have added := represents.insert_slabKeys inserted
      obtain ⟨fresh, after, stepped, middleRepresents, -⟩ :=
        represents.insert key value (.inr isExact)
      rw [stepped, Traced.pure_inj] at inserted
      cases inserted
      have rest := ih middleRepresents finished
      rw [t.insert_entries] at rest
      refine rest (List.Subset.trans added ?_)
      rw [t.insert_displaced]
      refine List.Subset.trans ?_ (Entries.keys_insert key value t.entries)
      exact List.append_subset.mpr ⟨List.subset_append_left _ _,
        List.Subset.trans inside (List.subset_append_right _ _)⟩

end BPlusTree

/-- A tree is built with the keys of its entries. -/
theorem Start.build_slabKeys {start : Start K V}
    (returned : start.build order = pure tree) :
    tree.slabKeys ⊆ start.contents.map Prod.fst := by
  have large : 3 ≤ max order minOrder := Nat.le_max_right order minOrder
  cases start with
  | withOrder =>
      cases Traced.pure_inj.mp returned
      exact List.nil_subset _
  | fromSorted entries =>
      rw [Start.build, BPlusTree.fromSortedWithOrder] at returned
      dsimp only at returned
      split_ifs at returned with sorted
      · have ascends := BPlusTree.ascending_iff.mp sorted
        have isExact : (Ops.bulkLoad (InMemoryStore.new : InMemoryStore K V) entries
            (max order minOrder)).Exact := by
          have whole : (pure tree : Run (BPlusTree K V)).Exact := by simp [Traced.Exact]
          rw [← returned] at whole
          exact whole.first
        obtain ⟨t, store, loaded, shapeEq, change⟩ := bulkLoad_refines large ascends
          InMemoryStore.valid_new (.inr isExact)
        have entriesEq : t.entries = entries := by
          rw [← SearchTree.bulk_entries large ascends, ← shapeEq, SearchTree.shape,
            SearchTree.relabel_entries]
        rw [loaded, pure_bind, Traced.pure_inj] at returned
        have represents := BPlusTree.represents_new change
        rw [entriesEq] at represents
        cases returned
        intro found member
        have marksEq : t.tree.marks = (SearchTree.bulk large ascends).tree.marks := by
          rw [← shapeEq]
          exact (Tree.relabel_marks _ t.tree).symm
        have inside := represents.mem_slabKeys.mp member
        rw [marksEq] at inside
        have isEntry := SearchTree.bulk_keys large ascends inside
        rwa [Start.contents, Entries.insertAll_of_ascending ascends]
      · rw [BPlusTree.withOrder_eq, pure_bind,
          max_eq_left (show minOrder ≤ max order minOrder from large)] at returned
        exact (BPlusTree.empty_represents large).insertAll_slabKeys returned
          (List.nil_subset _)

end Histories

section Main

variable [Preorder K] [Std.IsLinearPreorder K] [DecidableLT K] [DecidableLE K]

/-- After every run each key in the slab is an instance that the tree was built
with, or that an insertion created an entry with, since the last clear; and the
values in the slab are those of the entries, each as often. -/
theorem run_slab_holds (order : Nat) (start : Start K V) (calls : List (Call K V))
    (isExact : (start.run order calls).Exact) :
    ∃ replies tree, start.run order calls = pure (replies, tree) ∧
      tree.slabKeys ⊆
        Call.everCreated (start.contents.map Prod.fst) (calls.zip replies) ∧
      ∃ iter entries, tree.iter = pure iter ∧ iter.Drains entries ∧
        tree.slabVals.Perm (entries.map Prod.snd) := by
  obtain ⟨tree, t, returned, represents, -⟩ := start.run_represents calls isExact
  obtain ⟨iter, scanned, drains⟩ := represents.iter_drains
  refine ⟨_, tree, returned, ?_, iter, _, scanned, drains, represents.slabVals_perm⟩
  rw [Start.run] at returned isExact
  obtain ⟨first, built, called⟩ := Traced.bind_eq_pure.mp returned
  obtain ⟨begun, t', rebuilt, beginRepresents, -⟩ := start.build_represents isExact.first
  rw [rebuilt, Traced.pure_inj] at built
  cases built
  exact beginRepresents.calls_slabKeys called (Start.build_slabKeys rebuilt)

/-- The removed instance of 5 stays behind as a separator next to the one inserted
after it, and the instance of 7 that overwrites is not kept. -/
theorem run_slab_holds_small :
    ∃ replies tree,
      (Start.fromSorted [(Ranked.mk 1 0, 10), (⟨3, 0⟩, 30), (⟨5, 0⟩, 50), (⟨7, 0⟩, 70)]).run 3
        [.remove ⟨5, 1⟩, .insert ⟨7, 1⟩ 71, .insert ⟨5, 2⟩ 52] = pure (replies, tree) ∧
      tree.slabKeys ⊆ Call.everCreated
        ((Start.fromSorted
          [(Ranked.mk 1 0, 10), (⟨3, 0⟩, 30), (⟨5, 0⟩, 50), (⟨7, 0⟩, 70)]).contents.map
            Prod.fst)
        ([Call.remove ⟨5, 1⟩, .insert ⟨7, 1⟩ 71, .insert ⟨5, 2⟩ 52].zip replies) ∧
      ∃ iter entries, tree.iter = pure iter ∧ iter.Drains entries ∧
        tree.slabVals.Perm (entries.map Prod.snd) :=
  run_slab_holds (K := Ranked) 3
    (.fromSorted [(⟨1, 0⟩, 10), (⟨3, 0⟩, 30), (⟨5, 0⟩, 50), (⟨7, 0⟩, 70)])
    [.remove ⟨5, 1⟩, .insert ⟨7, 1⟩ 71, .insert ⟨5, 2⟩ 52] (by decide +kernel)

end Main

end IndexDb
