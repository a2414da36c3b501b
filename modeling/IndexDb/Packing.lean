import IndexDb.Backends
import IndexDb.Heights
import Mathlib.Algebra.Order.Floor.Div
import Mathlib.Data.List.Flatten
import Mathlib.Data.Set.Card
import Mathlib.GroupTheory.GroupAction.Ring

/-!
# Bulk loading packs

A bulk loaded tree has as few leaves as its entries allow, and as few nodes on
every level as the level below allows.  Every separator is the least key on
its right, because the construction puts each separator in front of the leaf
that starts with its key and never moves it.
-/

namespace IndexDb

open LawfulNodeStore

section Chunks

/-- The chunk sizes are as few and as even as can be, and legal for a node as
soon as there are several. -/
theorem evenChunks_balanced (total max : Nat) (positive : 1 ≤ max) :
    ∃ sizes, Ops.evenChunks total max = pure sizes ∧ sizes.sum = total ∧
      sizes.length = total ⌈/⌉ max ∧ (∀ size ∈ sizes, 1 ≤ size ∧ size ≤ max) ∧
      (∀ one ∈ sizes, ∀ other ∈ sizes, one ≤ other + 1) ∧
      (max < total → ∀ size ∈ sizes, (max + 1) / 2 ≤ size) ∧
      ∀ order ≥ 3, max < total →
        (max = order - 1 → ∀ size ∈ sizes, order ⌈/⌉ 2 - 1 ≤ size) ∧
        (max = order → ∀ size ∈ sizes, order ⌈/⌉ 2 ≤ size) := by
  refine ⟨evenParts total max, Ops.evenChunks_eq positive, evenParts_sum positive,
    evenParts_length, ?_, ?_, ?_, ?_⟩
  · exact fun size member => ⟨evenParts_pos positive member, evenParts_le positive member⟩
  · exact fun one member other otherMember => evenParts_even member otherMember
  · exact fun wide size member => evenParts_half positive wide member
  · intro order large wide
    constructor
    · intro leaf size member
      have half := evenParts_half positive wide member
      rw [Nat.ceilDiv_eq_add_pred_div]
      omega
    · intro inner size member
      have half := evenParts_half positive wide member
      rw [Nat.ceilDiv_eq_add_pred_div]
      omega

theorem evenChunks_balanced_seven :
    ∃ sizes, Ops.evenChunks 7 3 = pure sizes ∧ sizes.sum = 7 ∧
      sizes.length = 7 ⌈/⌉ 3 ∧ (∀ size ∈ sizes, 1 ≤ size ∧ size ≤ 3) ∧
      (∀ one ∈ sizes, ∀ other ∈ sizes, one ≤ other + 1) ∧
      (3 < 7 → ∀ size ∈ sizes, (3 + 1) / 2 ≤ size) ∧
      ∀ order ≥ 3, 3 < 7 →
        (3 = order - 1 → ∀ size ∈ sizes, order ⌈/⌉ 2 - 1 ≤ size) ∧
        (3 = order → ∀ size ∈ sizes, order ⌈/⌉ 2 ≤ size) :=
  evenChunks_balanced 7 3 (by decide)

end Chunks

section Rows

variable {L M K V : Type} {h k : Nat}

/-- The labels of the nodes with `k` levels below them. -/
def Tree.row (k : Nat) : {h : Nat} → Tree L K V h → List L
  | 0, tree => if k = 0 then [Labelled.label tree] else []
  | h + 1, tree =>
      if k = h + 1 then [Labelled.label tree] else tree.body.gather (row k)

namespace Tree

@[simp]
theorem row_top (tree : Tree L K V h) : tree.row h = [tree.label] := by
  cases h <;> simp [row, label]

theorem row_inner (tree : Tree L K V (h + 1)) (inside : k ≤ h) :
    tree.row k = tree.body.gather (row k) := by
  rw [row, if_neg (by omega)]

theorem mem_row {tree : Tree L K V h} {id : L} :
    id ∈ tree.row k ↔ ∃ sub ∈ tree.subtrees, sub.1 = k ∧ sub.2.label = id := by
  induction h with
  | zero =>
      simp only [mem_subtrees_leaf, exists_eq_left, row]
      split_ifs with same
      · simp [same, label, eq_comm]
      · simp [Ne.symm same]
  | succ h ih =>
      by_cases top : k = h + 1
      · subst top
        rw [row_top, List.mem_singleton]
        constructor
        · rintro rfl
          exact ⟨_, self_mem_subtrees tree, rfl, rfl⟩
        · rintro ⟨sub, member, level, rfl⟩
          rcases mem_subtrees_node.mp member with rfl | ⟨child, found, deeper⟩
          · rfl
          · have lower := subtree_height_le deeper
            omega
      · rw [row, if_neg top, Internal.gather, List.mem_flatMap]
        simp only [mem_subtrees_node, ih]
        constructor
        · rintro ⟨child, member, sub, found, level, labelEq⟩
          exact ⟨sub, .inr ⟨child, member, found⟩, level, labelEq⟩
        · rintro ⟨sub, rfl | ⟨child, member, found⟩, level, labelEq⟩
          · exact absurd level.symm top
          · exact ⟨child, member, sub, found, level, labelEq⟩

theorem row_sublist (tree : Tree L K V h) : (tree.row k).Sublist tree.labels := by
  induction h with
  | zero =>
      rw [row, labels]
      split_ifs
      · exact .refl _
      · exact List.nil_sublist _
  | succ h ih =>
      rw [row, labels]
      split_ifs
      · exact (List.nil_sublist _).cons_cons _
      · exact (List.Sublist.flatMap_right _ fun child _ => ih child).cons _

theorem relabel_row (f : L → M) (tree : Tree L K V h) :
    (tree.relabel f).row k = (tree.row k).map f := by
  induction h with
  | zero =>
      rw [row, row]
      split_ifs <;> rfl
  | succ h ih =>
      rw [row, row, relabel_body]
      split_ifs
      · rfl
      · simp only [Internal.gather, Internal.map, List.flatMap_map, List.map_flatMap, ih]

end Tree

namespace Level

/-- The labels of the nodes with `k` levels below them, under a whole level. -/
def row (k : Nat) (level : Level L K V h) : List L :=
  level.flatMap fun node => node.1.row k

theorem row_append (first second : Level L K V h) :
    row k (first ++ second) = first.row k ++ second.row k :=
  List.flatMap_append

theorem row_top_length (level : Level L K V h) : (level.row h).length = level.length := by
  simp [row]

theorem row_nodesOver (label : L) (inside : k ≤ h) (chunks : List (Level L K V h)) :
    (nodesOver label chunks).row k = row k chunks.flatten := by
  induction chunks with
  | nil => rfl
  | cons chunk chunks ih =>
      cases chunk with
      | nil => exact ih
      | cons first rest =>
          have own : Tree.row (h := h + 1) k
              ⟨label, ⟨rest.map Prod.snd, first.1 :: rest.map Prod.fst⟩⟩ =
              row k (first :: rest) := by
            rw [Tree.row_inner _ inside]
            simp only [Internal.gather, row, List.flatMap_cons, List.flatMap_map]
          rw [List.flatten_cons, row_append, ← ih, ← own]
          rfl

/-- Every row under the level is packed into the next one. -/
def Packed (order n : Nat) (level : Level Unit K V h) : Prop :=
  Packs (order - 1) order n h fun k => (level.row k).length

variable {order : Nat} {contents : List (K × V)}

theorem packed_leaves (large : 3 ≤ order) :
    Packed order contents.length (leaves order contents) where
  first := by rw [row_top_length, leaves_length large]
  next := fun k inside => by omega
  several := fun k inside => by omega

theorem Packed.parents {level : Level Unit K V h} (large : 3 ≤ order) {n : Nat}
    (packed : Packed order n level) (several : 1 < level.length) :
    Packed order n (level.parents order) := by
  have lower {k : Nat} (inside : k ≤ h) : (level.parents order).row k = level.row k := by
    rw [Level.parents, row_nodesOver () inside, evenChunks_flatten _ (by omega)]
  refine ⟨?_, fun k inside => ?_, fun k inside => ?_⟩
  · rw [lower (Nat.zero_le h)]
    exact packed.first
  · rw [lower (Nat.le_of_lt_succ inside)]
    rcases Nat.lt_or_eq_of_le (Nat.le_of_lt_succ inside) with below | rfl
    · rw [lower below]
      exact packed.next k below
    · rw [row_top_length, parents_length large, row_top_length]
  · rw [lower (Nat.le_of_lt_succ inside)]
    rcases Nat.lt_or_eq_of_le (Nat.le_of_lt_succ inside) with below | rfl
    · exact packed.several k below
    · rwa [row_top_length]

theorem Packed.raise (large : 3 ≤ order) (fuel : Nat) {n : Nat}
    {level : Level Unit K V h} (packed : Packed order n level) :
    Packed order n (raise order fuel level).2 := by
  induction fuel generalizing h with
  | zero => exact packed
  | succ fuel ih =>
      by_cases several : 1 < level.length
      · rw [raise_several several]
        exact ih (packed.parents large several)
      · rw [raise_done several]
        exact packed

end Level

end Rows

section Separators

variable {L K V : Type} {h : Nat}

/-- Every separator stands right before an entry with its key. -/
def Mark.Tight (marks : List (Mark K V)) : Prop :=
  ∀ before sep after, marks = before ++ .separator sep :: after →
    ∃ value rest, after = .entry sep value :: rest

theorem Mark.Tight.append {first second : List (Mark K V)} (firstTight : Tight first)
    (secondTight : Tight second) : Tight (first ++ second) := by
  intro before sep after split
  rcases List.append_eq_append_iff.mp split with
    ⟨between, beforeEq, secondEq⟩ | ⟨between, firstEq, rest⟩
  · exact secondTight between sep after secondEq
  · cases between with
    | nil => exact secondTight [] sep after (by simpa using rest.symm)
    | cons mark between =>
        obtain ⟨rfl, afterEq⟩ := List.cons.inj rest
        obtain ⟨value, more, betweenEq⟩ := firstTight before sep between firstEq
        exact ⟨value, more ++ second, afterEq.trans (by rw [betweenEq]; rfl)⟩

theorem Mark.Tight.tail {mark : Mark K V} {marks : List (Mark K V)}
    (tight : Tight (mark :: marks)) : Tight marks := by
  intro before sep after split
  exact tight (mark :: before) sep after (by rw [split, List.cons_append])

theorem Mark.tight_ofEntries (entries : List (K × V)) : Tight (ofEntries entries) := by
  intro before sep after split
  have member : .separator sep ∈ ofEntries entries := by simp [split]
  obtain ⟨entry, -, equal⟩ := List.mem_map.mp member
  cases equal

theorem Mark.tight_leaf (first : K × V) (rest : List (K × V)) :
    Tight (.separator first.1 :: ofEntries (first :: rest)) := by
  intro before sep after split
  cases before with
  | nil =>
      obtain ⟨same, rfl⟩ := List.cons.inj split
      cases same
      exact ⟨first.2, ofEntries rest, rfl⟩
  | cons mark before =>
      exact tight_ofEntries _ before sep after (List.cons.inj split).2

namespace Level

theorem tight_leavesOver (label : L) (chunks : List (List (K × V))) :
    Mark.Tight (leavesOver label chunks).marks := by
  induction chunks with
  | nil => exact Mark.tight_ofEntries []
  | cons chunk chunks ih =>
      cases chunk with
      | nil => exact ih
      | cons first rest => exact (Mark.tight_leaf first rest).append ih

theorem raise_marks {order : Nat} (positive : 0 < order) (fuel : Nat)
    (level : Level Unit K V h) : (raise order fuel level).2.marks = level.marks := by
  induction fuel generalizing h with
  | zero => rfl
  | succ fuel ih =>
      by_cases several : 1 < level.length
      · rw [raise_several several, ih, parents_marks positive]
      · rw [raise_done several]

end Level

namespace Tree

variable {tree : Tree L K V h} {order minKeys least : Nat}

theorem marks_infix (sized : tree.Sized order minKeys least) {sub : Σ k, Tree L K V k}
    (member : sub ∈ tree.subtrees) : sub.2.marks <:+: tree.marks := by
  induction h generalizing least with
  | zero =>
      cases mem_subtrees_leaf.mp member
      exact List.infix_refl _
  | succ h ih =>
      rcases mem_subtrees_node.mp member with rfl | ⟨child, found, deeper⟩
      · exact List.infix_refl _
      · obtain ⟨hole, filled⟩ := exists_hole sized.forked found
        refine (ih (sized.children child found) deeper).trans ?_
        rw [marks_fill filled]
        exact List.infix_append _ _ _

/-- A separator of a tree with tight marks is the least key on its right. -/
theorem least_right [Preorder K] {k : Nat} {sub : Tree L K V (k + 1)}
    (sized : tree.Sized order minKeys least) (positive : 1 ≤ minKeys)
    (ordered : Mark.Ordered tree.marks) (tight : Mark.Tight tree.marks)
    (member : ⟨k + 1, sub⟩ ∈ tree.subtrees) {hole : Hole K (Tree L K V k)}
    {left right : Tree L K V k} {sep : K} (filled : sub.body = hole.fillTwo left sep right)
    (rightSized : right.Sized order minKeys minKeys) :
    (∃ value, (sep, value) ∈ right.entries) ∧ ∀ entry ∈ right.entries, sep ≤ entry.1 := by
  have rightAbove := (around_separator filled (ordered_subtree sized ordered member)).2
  refine ⟨?_, rightAbove⟩
  obtain ⟨before, after, whole⟩ := marks_infix sized member
  have split : tree.marks = (before ++ (hole.leftMarks ++ left.marks)) ++
      .separator sep :: (right.marks ++ (hole.rightMarks ++ after)) := by
    rw [← whole, marks_node, filled, hole.treeMarks_fillTwo]
    simp only [List.append_assoc, List.cons_append]
  obtain ⟨value, rest, next⟩ := tight _ sep _ split
  have some : 0 < right.entries.length :=
    Nat.lt_of_lt_of_le (Nat.mul_pos positive (Nat.pow_pos (Nat.succ_pos _)))
      (le_entries rightSized)
  cases marksEq : right.marks with
  | nil => simp [entries, marksEq] at some
  | cons mark marks =>
      rw [marksEq, List.cons_append] at next
      obtain ⟨rfl, -⟩ := List.cons.inj next
      exact ⟨value, Mark.mem_entries.mpr (marksEq ▸ List.mem_cons_self ..)⟩

end Tree

end Separators

namespace SearchTree

variable {K V : Type} [Preorder K] {order : Nat} {contents : List (K × V)}

/-- The rows of a bulk loaded tree are packed, up to a single root. -/
theorem bulk_packs (large : 3 ≤ order) (ascending : Ascending contents)
    (some : contents ≠ []) :
    Packs (order - 1) order contents.length (bulk large ascending).height fun k =>
      ((bulk large ascending).tree.row k).length := by
  have packed : Level.Packed order contents.length (Level.top order contents).2 :=
    (Level.packed_leaves large).raise large _
  change Packs _ _ _ (Tree.bulk order contents).1 fun k =>
    ((Tree.bulk order contents).2.row k).length
  rcases Level.top_cases large ascending with ⟨h, empty, -⟩ | ⟨h, node, topEq, -⟩
  · exact absurd empty some
  · rw [Tree.bulk]
    rw [topEq] at packed ⊢
    simpa only [Level.Packed, Level.row, List.flatMap_singleton, Level.root]
      using packed

theorem bulk_tight (large : 3 ≤ order) (ascending : Ascending contents)
    (some : contents ≠ []) : Mark.Tight (bulk large ascending).tree.marks := by
  have tight : Mark.Tight (Level.top order contents).2.marks := by
    rw [Level.top, Level.raise_marks (by omega)]
    exact Level.tight_leavesOver () _
  change Mark.Tight (Tree.bulk order contents).2.marks
  rcases Level.top_cases large ascending with ⟨h, empty, -⟩ | ⟨h, node, topEq, -⟩
  · exact absurd empty some
  · rw [Tree.bulk]
    rw [topEq] at tight ⊢
    rw [Level.marks_cons, Level.marks_nil, List.append_nil] at tight
    exact tight.tail

end SearchTree

section Main

variable {S Id K V : Type} [NodeStore S Id K V]

/-- The ids on the level so far below the root. -/
def idsAt (store : S) (root : Id) (depth : Nat) : Set Id :=
  {id | Below store depth root id}

/-- The tree under `root` has `h` levels above its leaves, holds the entries, and
is packed: each level has as few nodes as the level below allows, and each
separator is the least key on its right. -/
structure PackedOver [LE K] (store : S) (root : Id) (order : Nat)
    (entries : List (K × V)) (h : Nat) : Prop where
  holds : ∀ key value, Holds store root key value ↔ (key, value) ∈ entries
  kinds : ∀ depth id, Below store depth root id → depth ≤ h ∧
    ∃ node, NodeStore.get store id = pure node ∧ (node.asLeaf.isSome ↔ depth = h)
  leaves : (idsAt store root h).ncard = entries.length ⌈/⌉ (order - 1)
  parents : ∀ depth < h,
    (idsAt store root depth).ncard = (idsAt store root (depth + 1)).ncard ⌈/⌉ order
  several : ∀ depth < h, 1 < (idsAt store root (depth + 1)).ncard
  separators : ∀ id node, Reaches store root id →
    NodeStore.get store id = pure (.internal node) →
    ∀ i sep, node.keys[i]? = some sep → ∃ child, node.children[i + 1]? = some child ∧
      IsLeast {key | ∃ value, Holds store child key value} sep

/-- The ids on a level of a stored tree are a row of it. -/
theorem idsAt_stored {store : S} {h : Nat} {tree : Tree Id K V h}
    (stored : Stored store tree) (distinct : tree.labels.Nodup) {depth : Nat}
    (inside : depth ≤ h) :
    (idsAt store tree.label depth).ncard = (tree.row (h - depth)).length := by
  classical
  have rowEq : idsAt store tree.label depth = ↑(tree.row (h - depth)).toFinset := by
    ext id
    rw [Finset.mem_coe, List.mem_toFinset, Tree.mem_row]
    refine (below_stored stored).trans (exists_congr fun sub => and_congr_right fun _ =>
      and_congr_left fun _ => ?_)
    omega
  rw [rowEq, Set.ncard_coe_finset,
    List.toFinset_card_of_nodup (distinct.sublist tree.row_sublist)]

/-- The leaves of a stored tree are on its lowest level. -/
theorem kinds_stored {store : S} {h : Nat} {tree : Tree Id K V h}
    (stored : Stored store tree) {depth : Nat} {id : Id}
    (path : Below store depth tree.label id) :
    depth ≤ h ∧ ∃ node, NodeStore.get store id = pure node ∧
      (node.asLeaf.isSome ↔ depth = h) := by
  obtain ⟨⟨k, sub⟩, member, level, rfl⟩ := (below_stored stored).mp path
  refine ⟨by omega, sub.node, stored _ member, ?_⟩
  cases k with
  | zero => simpa [Tree.node, Node.asLeaf] using level
  | succ k =>
      simp only at level
      simp only [Tree.node, Node.asLeaf, Option.isSome_none, Bool.false_eq_true, false_iff]
      omega

/-- In a tight tree each separator is the least key stored on its right. -/
theorem SearchTree.least_separator [Preorder K] {order : Nat} {store : S}
    (t : SearchTree Id K V order)
    (tight : Mark.Tight t.tree.marks) (stored : Stored store t.tree) {id : Id}
    (reached : Reaches store t.root id) {node : Internal K Id}
    (got : NodeStore.get store id = pure (.internal node)) {i : Nat} {sep : K}
    (found : node.keys[i]? = some sep) : ∃ child, node.children[i + 1]? = some child ∧
      IsLeast {key | ∃ value, Holds store child key value} sep := by
  obtain ⟨⟨k, sub⟩, member, rfl⟩ := (reaches_stored stored).mp reached
  rw [stored _ member, Traced.pure_inj] at got
  cases k with
  | zero => cases got
  | succ k =>
      cases got
      obtain ⟨least, sized, -⟩ := t.subtree_sized member
      obtain ⟨hole, left, right, filled, place⟩ :=
        Hole.exists_fillTwo (Internal.Occupied.forked sized) found
      have rightAt : sub.body.children[i + 1]? = some right := by
        rw [filled, ← place, Hole.fillTwo_getElem?_succ]
      have rightMember := List.mem_of_getElem? rightAt
      have rightSized := sized.children right rightMember
      obtain ⟨⟨value, here⟩, above⟩ := Tree.least_right t.sized (leastKeys_pos t.large)
        t.ordered tight member filled rightSized
      have rightStored : Stored store right := (stored.subtree member).child rightMember
      refine ⟨right.label, ?_, ⟨value, (holds_stored rightStored).mpr here⟩, ?_⟩
      · rw [Internal.map, List.getElem?_map, rightAt]
        rfl
      · rintro key ⟨other, held⟩
        exact above _ ((holds_stored rightStored).mp held)

variable [LawfulNodeStore S] [Preorder K] {order : Nat} {contents : List (K × V)}

theorem SearchTree.packedOver {store : S} (t : SearchTree Id K V order)
    (large : 3 ≤ order) (ascending : Ascending contents) (nonempty : contents ≠ [])
    (shapeEq : t.shape = SearchTree.bulk large ascending) (valid : Valid store)
    (owned : Owned (view store) t.cells) :
    PackedOver store t.root order contents t.height := by
  have packs := SearchTree.bulk_packs large ascending nonempty
  have tight := SearchTree.bulk_tight large ascending nonempty
  have entriesEq := SearchTree.bulk_entries large ascending
  rw [← shapeEq] at packs tight entriesEq
  simp only [SearchTree.shape, SearchTree.relabel, Tree.relabel_row, Tree.relabel_marks,
    List.length_map] at packs tight
  rw [SearchTree.shape, SearchTree.relabel_entries] at entriesEq
  have stored : Stored store t.tree := stored_owned valid owned
  have distinct : t.tree.labels.Nodup := by
    rw [← Tree.cells_names]
    exact owned.nodup
  have count {depth : Nat} (inside : depth ≤ t.height) :
      (idsAt store t.root depth).ncard = (t.tree.row (t.height - depth)).length :=
    idsAt_stored stored distinct inside
  refine ⟨?_, fun depth id path => kinds_stored stored path, ?_, ?_, ?_,
    fun id node reached got i sep found => t.least_separator tight stored reached got found⟩
  · intro key value
    rw [← entriesEq]
    exact holds_stored stored
  · rw [count (Nat.le_refl _), Nat.sub_self, packs.first]
    rfl
  · intro depth inside
    rw [count (by omega), count (by omega), show t.height - depth =
      t.height - (depth + 1) + 1 by omega, packs.next _ (by omega)]
    rfl
  · intro depth inside
    rw [count (by omega)]
    exact packs.several _ (by omega)

/-- Bulk loading packs the tree, and no tree over as many entries that keeps the
invariant is lower. -/
theorem bulkLoad_packs (order : Nat) (large : 3 ≤ order) (entries : List (K × V))
    (nonempty : entries ≠ []) (ascending : Ascending entries) (store : S)
    (valid : Valid store)
    (supplies : Supplies store (Ops.bulkLoad store entries order)) :
    ∃ root next h, Ops.bulkLoad store entries order =
        pure (root, entries.length, next) ∧
      PackedOver next root order entries h ∧
      ∀ (A B : Type) [Preorder A] (other : BPlusTree A B) (height : Nat),
        other.order = order → other.len = entries.length → other.WellFormed →
        other.height = pure height → h + 1 ≤ height := by
  obtain ⟨t, next, loaded, shapeEq, change⟩ := bulkLoad_refines large ascending valid
    (supplies.imp (fun endless => endless _) id)
  refine ⟨t.root, next, t.height, loaded, t.packedOver large ascending nonempty shapeEq
    change.valid change.owned, ?_⟩
  intro A B _ other height orderEq lenEq wellFormed measured
  have several : 0 < entries.length := List.length_pos_iff.mpr nonempty
  obtain ⟨positive, fits⟩ := wellFormed.len_le measured (by omega)
  have packs := SearchTree.bulk_packs large ascending nonempty
  rw [← shapeEq] at packs
  rw [lenEq, orderEq] at fits
  have lowest := packs.height_le (by omega) (by omega) fits
  change t.height ≤ height - 1 at lowest
  omega

theorem bulkLoad_packs_small :
    ∃ root next h, Ops.bulkLoad (InMemoryStore.new : InMemoryStore Nat Nat)
        [(1, 10), (2, 20), (3, 30), (4, 40), (5, 50)] 3 = pure (root, 5, next) ∧
      PackedOver next root 3 [(1, 10), (2, 20), (3, 30), (4, 40), (5, 50)] h ∧
      ∀ (A B : Type) [Preorder A] (other : BPlusTree A B) (height : Nat),
        other.order = 3 → other.len = 5 → other.WellFormed →
        other.height = pure height → h + 1 ≤ height :=
  bulkLoad_packs 3 (Nat.le_refl 3) [(1, 10), (2, 20), (3, 30), (4, 40), (5, 50)]
    (by simp) (by simp [Ascending]) InMemoryStore.new InMemoryStore.valid_new
    (.inr (by decide +kernel))

end Main

end IndexDb
