import IndexDb.Splits

/-!
# Edits of one leaf

The leaf that owns a key is read and replaced as a lens does: what was written is
read, what was read may be written back, and the last of two writes counts.
Insertion into a leaf with room and removal from one with a key to spare are such a
replacement, and so is undoing either.
-/

namespace IndexDb

section Definitions

variable {L K V : Type} [LT K] [DecidableLT K]

namespace Tree

/-- The leaf that owns the key. -/
def leafFor (key : K) : {h : Nat} → Tree L K V h → Tree L K V 0
  | 0, tree => tree
  | _ + 1, tree =>
      match tree.body.children[tree.body.childIndex key]? with
      | none => ⟨tree.label, []⟩
      | some child => leafFor key child

/-- The tree with other entries in the leaf that owns the key. -/
def setLeaf (key : K) (entries : List (K × V)) : {h : Nat} → Tree L K V h → Tree L K V h
  | 0, tree => ⟨tree.label, entries⟩
  | _ + 1, tree =>
      match tree.body.children[tree.body.childIndex key]? with
      | none => tree
      | some child =>
          ⟨tree.label,
            tree.body.setChild (tree.body.childIndex key) (setLeaf key entries child)⟩

variable {h : Nat} {key : K} {tree : Tree L K V (h + 1)} {hole : Hole K (Tree L K V h)}
  {child : Tree L K V h}

theorem leafFor_fill (filled : tree.body = hole.fill child)
    (indexEq : tree.body.childIndex key = hole.index) :
    tree.leafFor key = child.leafFor key := by
  rw [leafFor, indexEq, filled, hole.fill_getElem?]

theorem setLeaf_fill (filled : tree.body = hole.fill child)
    (indexEq : tree.body.childIndex key = hole.index) (entries : List (K × V)) :
    tree.setLeaf key entries = ⟨tree.label, hole.fill (child.setLeaf key entries)⟩ := by
  rw [setLeaf, indexEq, filled, hole.fill_getElem?]
  simp only [Hole.setChild_fill]

theorem setLeaf_keysLen {h : Nat} (key : K) (entries : List (K × V)) (tree : Tree L K V h) :
    (tree.setLeaf key entries).keysLen = if h = 0 then entries.length else tree.keysLen := by
  cases h with
  | zero => rfl
  | succ h =>
      rw [if_neg (Nat.succ_ne_zero h), setLeaf]
      split <;> rfl

end Tree

theorem Hole.childIndex_fill {Child : Type} {key : K} (hole : Hole K Child)
    (one other : Child) :
    (hole.fill one).childIndex key = (hole.fill other).childIndex key :=
  rfl

end Definitions

namespace Tree

section Lens

variable {L K V : Type} [Preorder K] [Std.IsLinearPreorder K] [DecidableLT K]
  {h order minKeys least : Nat} {key : K} {tree : Tree L K V h}
  (sized : tree.Sized order minKeys least) (ordered : Mark.Ordered tree.marks)
include sized ordered

/-- What was written is read. -/
theorem leafFor_setLeaf (entries : List (K × V)) :
    (tree.setLeaf key entries).leafFor key = ⟨(tree.leafFor key).label, entries⟩ := by
  induction h generalizing least with
  | zero => rfl
  | succ h ih =>
      obtain ⟨hole, child, filled, indexEq, -⟩ :=
        route (Internal.Occupied.forked sized) ordered key
      have childEq := ih (sized.child filled) (ordered_child filled ordered)
      have newIndex : (hole.fill (child.setLeaf key entries)).childIndex key = hole.index := by
        rw [hole.childIndex_fill _ child, ← filled, indexEq]
      rw [setLeaf_fill filled indexEq, leafFor_fill filled indexEq, ← childEq]
      exact leafFor_fill rfl newIndex

theorem setLeaf_leafFor : tree.setLeaf key (tree.leafFor key).body = tree := by
  induction h generalizing least with
  | zero => rfl
  | succ h ih =>
      obtain ⟨hole, child, filled, indexEq, -⟩ :=
        route (Internal.Occupied.forked sized) ordered key
      have childEq := ih (sized.child filled) (ordered_child filled ordered)
      rw [leafFor_fill filled indexEq, setLeaf_fill filled indexEq, childEq, ← filled]
      rfl

theorem setLeaf_setLeaf (first last : List (K × V)) :
    (tree.setLeaf key first).setLeaf key last = tree.setLeaf key last := by
  induction h generalizing least with
  | zero => rfl
  | succ h ih =>
      obtain ⟨hole, child, filled, indexEq, -⟩ :=
        route (Internal.Occupied.forked sized) ordered key
      have childEq := ih (sized.child filled) (ordered_child filled ordered)
      have newIndex : (hole.fill (child.setLeaf key first)).childIndex key = hole.index := by
        rw [hole.childIndex_fill _ child, ← filled, indexEq]
      rw [setLeaf_fill filled indexEq, setLeaf_fill filled indexEq, ← childEq]
      exact setLeaf_fill rfl newIndex last

theorem leafFor_ascending (key : K) : Ascending (tree.leafFor key).body := by
  induction h generalizing least with
  | zero =>
      rw [leafFor, ← entries_leaf tree]
      exact ordered.ascending
  | succ h ih =>
      obtain ⟨hole, child, filled, indexEq, -⟩ :=
        route (Internal.Occupied.forked sized) ordered key
      rw [leafFor_fill filled indexEq]
      exact ih (sized.child filled) (ordered_child filled ordered)

/-- A lookup finds in the tree what it finds in the leaf. -/
theorem lookup_leafFor (key : K) :
    Entries.lookup key (tree.leafFor key).body = Entries.lookup key tree.entries := by
  induction h generalizing least with
  | zero => rw [leafFor, entries_leaf tree]
  | succ h ih =>
      obtain ⟨hole, child, filled, indexEq, left, right⟩ :=
        route (Internal.Occupied.forked sized) ordered key
      rw [leafFor_fill filled indexEq, entries_fill filled,
        Entries.lookup_block left.entries_below right.entries_above]
      exact ih (sized.child filled) (ordered_child filled ordered)

theorem mem_leafFor {value : V} (member : (key, value) ∈ tree.entries) :
    (key, value) ∈ (tree.leafFor key).body := by
  induction h generalizing least with
  | zero =>
      rw [entries_leaf] at member
      exact member
  | succ h ih =>
      obtain ⟨hole, child, filled, indexEq, left, right⟩ :=
        route (Internal.Occupied.forked sized) ordered key
      rw [leafFor_fill filled indexEq]
      refine ih (sized.child filled) (ordered_child filled ordered) ?_
      rw [entries_fill filled, List.mem_append, List.mem_append] at member
      rcases member with (early | here) | late
      · exact absurd (left.entries_below _ early) (lt_irrefl key)
      · exact here
      · exact absurd (right.entries_above _ late) (lt_irrefl key)

/-- Below the root the leaf has the least count, and nowhere more than the most. -/
theorem leafFor_length (key : K) :
    (tree.leafFor key).body.length < order ∧
      (0 < h → minKeys ≤ (tree.leafFor key).body.length) := by
  induction h generalizing least with
  | zero => exact ⟨sized.2, fun inner => absurd inner (Nat.lt_irrefl 0)⟩
  | succ h ih =>
      obtain ⟨hole, child, filled, indexEq, -⟩ :=
        route (Internal.Occupied.forked sized) ordered key
      have childSized := sized.child filled
      obtain ⟨most, enough⟩ := ih childSized (ordered_child filled ordered)
      rw [leafFor_fill filled indexEq]
      refine ⟨most, fun _ => ?_⟩
      cases h with
      | zero => exact childSized.1
      | succ h => exact enough (Nat.succ_pos h)

end Lens

section Paths

variable {Id K V : Type} [Preorder K] [Std.IsLinearPreorder K] [DecidableLT K]
  {h order minKeys least : Nat} {tree : Tree Id K V h}

theorem path_leafFor (key : K) (sized : tree.Sized order minKeys least)
    (ordered : Mark.Ordered tree.marks) :
    ∃ above, above.length = h ∧ tree.path key =
      above ++ [((tree.leafFor key).label,
        .leaf (Leaf.ofEntries (tree.leafFor key).body))] := by
  induction h generalizing least with
  | zero => exact ⟨[], rfl, rfl⟩
  | succ h ih =>
      obtain ⟨hole, child, filled, indexEq, -⟩ :=
        route (Internal.Occupied.forked sized) ordered key
      obtain ⟨above, lengthEq, pathEq⟩ :=
        ih (sized.child filled) (ordered_child filled ordered)
      refine ⟨(tree.label, tree.node) :: above, by simp [lengthEq], ?_⟩
      rw [path_fill filled indexEq, pathEq, leafFor_fill filled indexEq, List.cons_append]

theorem leafFor_mem (key : K) (sized : tree.Sized order minKeys least)
    (ordered : Mark.Ordered tree.marks) :
    ((tree.leafFor key).label, .leaf (Leaf.ofEntries (tree.leafFor key).body)) ∈
      tree.cells := by
  induction h generalizing least with
  | zero => exact List.mem_singleton_self _
  | succ h ih =>
      obtain ⟨hole, child, filled, indexEq, -⟩ :=
        route (Internal.Occupied.forked sized) ordered key
      rw [leafFor_fill filled indexEq, cells_fill filled]
      refine List.mem_append_left _ (List.mem_append_right _ ?_)
      exact ih (sized.child filled) (ordered_child filled ordered)

end Paths

end Tree

section Entries

variable {K V : Type} [Preorder K] [Std.IsLinearPreorder K] [DecidableLT K] {order : Nat}
  {key : K} {entries : List (K × V)}

theorem removeEntries_eq (ascending : Ascending entries) :
    removeEntries key entries = (Entries.lookup key entries, Entries.erase key entries) := by
  have shrinkage := removeEntries_shrinkage key ascending
  generalize removeEntries key entries = result at shrinkage
  cases shrinkage with
  | @removed before after entry split below same above =>
      rw [split, List.append_cons, Entries.lookup_block below above,
        Entries.lookup_single same, Entries.erase_block below above,
        Entries.erase_single same, List.append_nil]
  | missing split below above =>
      rw [split, Entries.lookup_prepend below, Entries.lookup_of_above above,
        Entries.erase_prepend below, Entries.erase_of_above above]

/-- A new entry goes into a leaf with room, and halves a full one. -/
theorem insertEntries_absent (ascending : Ascending entries)
    (absent : Entries.lookup key entries = none) (value : V) :
    (entries.length + 1 < order → insertEntries order key value entries =
        .done (Entries.insert key value entries)) ∧
      (entries.length + 1 = order → ∃ half sep rest,
        insertEntries order key value entries = .split half sep rest ∧
          half.length = order / 2) := by
  have growth := insertEntries_growth order key value ascending
  generalize insertEntries order key value entries = grown at growth
  cases growth with
  | @replaced before after entry split below same above =>
      rw [split, List.append_cons, Entries.lookup_block below above,
        Entries.lookup_single same] at absent
      cases absent
  | @done before after split below above fits =>
      have wideEq : Entries.insert key value entries = before ++ (key, value) :: after := by
        rw [split, Entries.insert_prepend value below, Entries.insert_of_above value above]
      rw [wideEq]
      refine ⟨fun _ => rfl, fun full => ?_⟩
      simp only [split, List.length_append, List.length_cons] at full fits
      omega
  | @halved before after left right next split below above full cut half =>
      have wideEq : (before ++ (key, value) :: after).length = entries.length + 1 := by
        simp only [split, List.length_append, List.length_cons]
        omega
      rw [wideEq] at full half
      refine ⟨fun room => absurd full (Nat.not_le.mpr room), fun exactly => ?_⟩
      exact ⟨left, next.1, next :: right, rfl, by rw [half, exactly]⟩

end Entries

namespace Tree

section Edits

variable {Id K V : Type} [Preorder K] [Std.IsLinearPreorder K] [DecidableLT K]
  {h order minKeys least : Nat} {key : K} {tree : Tree Id K V h}
  (sized : tree.Sized order minKeys least) (ordered : Mark.Ordered tree.marks)
include sized ordered

/-- With room in the leaf, an insertion edits the leaf. -/
theorem insertInto_room (fresh : Nat → Id) (value : V)
    (absent : Entries.lookup key (tree.leafFor key).body = none)
    (room : (tree.leafFor key).body.length + 1 < order) :
    tree.insertInto fresh order key value =
      .done (tree.setLeaf key (Entries.insert key value (tree.leafFor key).body)) := by
  induction h generalizing least with
  | zero =>
      have done := (insertEntries_absent (leafFor_ascending sized ordered key) absent value).1
        room
      rw [leafFor] at done ⊢
      rw [insertInto, done]
      rfl
  | succ h ih =>
      obtain ⟨hole, child, filled, indexEq, -⟩ :=
        route (Internal.Occupied.forked sized) ordered key
      rw [leafFor_fill filled indexEq] at absent room ⊢
      have inner := ih (sized.child filled) (ordered_child filled ordered) absent room
      rw [insertInto_fill fresh order key value filled indexEq, inner, Internal.absorb,
        Hole.setChild_fill, setLeaf_fill filled indexEq]
      rfl

theorem insertInto_full (fresh : Nat → Id) (value : V)
    (absent : Entries.lookup key (tree.leafFor key).body = none)
    (full : (tree.leafFor key).body.length + 1 = order) :
    ∃ half : List (K × V), half.length = order / 2 ∧
      ((tree.leafFor key).label, .leaf (Leaf.ofEntries half)) ∈
        (tree.insertInto fresh order key value).gather cells := by
  induction h generalizing least with
  | zero =>
      obtain ⟨half, sep, rest, split, lengthEq⟩ :=
        (insertEntries_absent (leafFor_ascending sized ordered key) absent value).2 full
      refine ⟨half, lengthEq, ?_⟩
      rw [leafFor] at split ⊢
      rw [insertInto, split]
      exact List.mem_append_left _ (List.mem_singleton_self _)
  | succ h ih =>
      obtain ⟨hole, child, filled, indexEq, -⟩ :=
        route (Internal.Occupied.forked sized) ordered key
      rw [leafFor_fill filled indexEq] at absent full ⊢
      obtain ⟨half, lengthEq, member⟩ :=
        ih (sized.child filled) (ordered_child filled ordered) absent full
      refine ⟨half, lengthEq, insertInto_surrounds fresh key value filled indexEq ?_⟩
      exact List.mem_append_left _ (List.mem_append_right _ member)

/-- With a key to spare in the leaf, or none needed, a removal edits the leaf. -/
theorem removeFrom_spare {value : V}
    (present : Entries.lookup key (tree.leafFor key).body = some value)
    (spare : 0 < h → minKeys < (tree.leafFor key).body.length) :
    tree.removeFrom minKeys key =
      (some value, tree.setLeaf key (Entries.erase key (tree.leafFor key).body)) := by
  induction h generalizing least with
  | zero =>
      have removedEq : removeEntries key (tree.leafFor key).body = _ :=
        removeEntries_eq (leafFor_ascending sized ordered key)
      rw [present] at removedEq
      rw [leafFor] at removedEq ⊢
      rw [removeFrom, removedEq]
      rfl
  | succ h ih =>
      obtain ⟨hole, child, filled, indexEq, -⟩ :=
        route (Internal.Occupied.forked sized) ordered key
      have childSized := sized.child filled
      have childOrdered := ordered_child filled ordered
      rw [leafFor_fill filled indexEq] at present spare ⊢
      have inner := ih childSized childOrdered present fun _ => spare (Nat.succ_pos h)
      -- The child still has enough keys, so its parent repairs nothing.
      have enough : ¬ (child.removeFrom minKeys key).2.keysLen < minKeys := by
        have erased := Entries.length_erase_present
          (leafFor_ascending childSized childOrdered key) present
        have more := spare (Nat.succ_pos h)
        have childEnough := childSized.keysLen.1
        rw [inner, setLeaf_keysLen]
        split_ifs <;> omega
      rw [removeFrom_fill minKeys key filled indexEq, if_neg fun both => enough both.2, inner,
        setLeaf_fill filled indexEq]
      rfl

end Edits

end Tree

end IndexDb
