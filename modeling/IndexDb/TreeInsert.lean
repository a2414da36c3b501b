import IndexDb.TreeRouting
import Mathlib.Tactic.SplitIfs

/-!
# Insertion on trees

The insertion of the source, on trees instead of stored nodes: descend to the
leaf that owns the key, and on the way back let each parent absorb the split
of its child.  New right nodes take their label from `fresh`, which gives one
label for each height.  What a parent receives is described by its in-order
marks, whatever the shape.
-/

namespace IndexDb

/-- What insertion leaves in place of a subtree. -/
inductive Grown (T K V : Type) where
  | replaced (old : V) (tree : T)
  | done (tree : T)
  | split (left : T) (sep : K) (right : T)

namespace Grown

variable {T U L K V : Type}

/-- The value that the insertion displaced. -/
def displaced : Grown T K V → Option V
  | .replaced old _ => some old
  | .done _ | .split _ _ _ => none

/-- The tree in the old place. -/
def kept : Grown T K V → T
  | .replaced _ tree | .done tree => tree
  | .split left _ _ => left

def isSplit : Grown T K V → Bool
  | .split _ _ _ => true
  | .replaced _ _ | .done _ => false

def map (f : T → U) : Grown T K V → Grown U K V
  | .replaced old tree => .replaced old (f tree)
  | .done tree => .done (f tree)
  | .split left sep right => .split (f left) sep (f right)

/-- Label the node in the old place and the new right node. -/
def place (label fresh : L) : Grown T K V → Grown (Labelled L T) K V
  | .replaced old tree => .replaced old ⟨label, tree⟩
  | .done tree => .done ⟨label, tree⟩
  | .split left sep right => .split ⟨label, left⟩ sep ⟨fresh, right⟩

/-- `kept` holds of a tree that did not split, `half` of both parts of one
that did. -/
def Fits (kept half : T → Prop) : Grown T K V → Prop
  | .replaced _ tree | .done tree => kept tree
  | .split left _ right => half left ∧ half right

/-- What `f` collects from the trees that are left. -/
def gather {α : Type} (f : T → List α) : Grown T K V → List α
  | .replaced _ tree | .done tree => f tree
  | .split left _ right => f left ++ f right

/-- The marks in the old place, with those of a new right node after them. -/
def marks (treeMarks : T → List (Mark K V)) : Grown T K V → List (Mark K V)
  | .replaced _ tree | .done tree => treeMarks tree
  | .split left sep right =>
      treeMarks left ++ .separator sep :: treeMarks right

end Grown

namespace Internal

variable {K V Child : Type}

def setChild (node : Internal K Child) (i : Nat) (child : Child) :
    Internal K Child :=
  { node with children := node.children.set i child }

/-- Put two children with a separator between them in the place of one. -/
def link (node : Internal K Child) (i : Nat) (left : Child) (sep : K)
    (right : Child) : Internal K Child where
  keys := node.keys.take i ++ sep :: node.keys.drop i
  children :=
    node.children.take i ++ left :: right :: node.children.drop (i + 1)

/-- The halves of a node around its median separator. -/
def halve (node : Internal K Child) :
    Option (Internal K Child × K × Internal K Child) :=
  let mid := node.keys.length / 2
  match node.keys.drop mid with
  | [] => none
  | sep :: keys =>
      some (⟨node.keys.take mid, node.children.take (mid + 1)⟩, sep,
        ⟨keys, node.children.drop (mid + 1)⟩)

/-- Absorb what the insertion left in place of child `i`. -/
def absorb (order : Nat) (node : Internal K Child) (i : Nat) :
    Grown Child K V → Grown (Internal K Child) K V
  | .replaced old child => .replaced old (node.setChild i child)
  | .done child => .done (node.setChild i child)
  | .split left sep right =>
      let wide := node.link i left sep right
      if wide.keys.length < order then
        .done wide
      else
        match wide.halve with
        | none => .done wide
        | some (left, sep, right) => .split left sep right

end Internal

section Definitions

variable {L K V : Type} [LT K] [DecidableLT K]

/-- Insert into the entries of one leaf. -/
def insertEntries (order : Nat) (key : K) (value : V)
    (entries : List (K × V)) : Grown (List (K × V)) K V :=
  match binarySearch (entries.map Prod.fst) key with
  | .ok i =>
      match entries[i]? with
      | none => .done entries
      | some (stored, old) => .replaced old (entries.set i (stored, value))
  | .error i =>
      let wide := entries.take i ++ (key, value) :: entries.drop i
      if wide.length < order then
        .done wide
      else
        let mid := wide.length / 2
        match wide.drop mid with
        | [] => .done wide
        | next :: rest => .split (wide.take mid) next.1 (next :: rest)

namespace Tree

def insertInto (fresh : Nat → L) (order : Nat) (key : K) (value : V) :
    {h : Nat} → Tree L K V h → Grown (Tree L K V h) K V
  | 0, tree =>
      (insertEntries order key value tree.body).place
        (Labelled.label tree) (fresh 0)
  | h + 1, tree =>
      let i := tree.body.childIndex key
      match tree.body.children[i]? with
      | none => .done tree
      | some child =>
          (tree.body.absorb order i
            (insertInto fresh order key value child)).place
              (Labelled.label tree) (fresh (h + 1))

/-- The number of nodes that an insertion allocates below the root's parent:
one for each node that splits. -/
def splits (order : Nat) (key : K) (value : V) :
    {h : Nat} → Tree L K V h → Nat
  | 0, tree => (insertEntries order key value tree.body).isSplit.toNat
  | _ + 1, tree =>
      match tree.body.children[tree.body.childIndex key]? with
      | none => 0
      | some child =>
          splits order key value child +
            (insertInto (fun _ => Labelled.label tree) order key value
              tree).isSplit.toNat

end Tree

end Definitions

section Marks

variable {L K V Child : Type} {h : Nat}

namespace Hole

@[simp]
theorem setChild_fill (hole : Hole K Child) (old child : Child) :
    (hole.fill old).setChild hole.index child = hole.fill child := by
  simp [fill, Internal.setChild, index]

@[simp]
theorem link_fill (hole : Hole K Child) (old left : Child) (sep : K)
    (right : Child) :
    (hole.fill old).link hole.index left sep right =
      hole.fillTwo left sep right := by
  have even := hole.left_even
  simp [fill, fillTwo, Internal.link, index, ← even]
  simp [even]

end Hole

namespace Internal

/-- Halving a forked node with separators: both halves are forked, and their
separators and children are the node's around the median. -/
theorem halve_eq {node : Internal K Child} (forked : node.Forked)
    (nonempty : node.keys ≠ []) :
    ∃ left sep right, node.halve = some (left, sep, right) ∧
      node.keys = left.keys ++ sep :: right.keys ∧
      node.children = left.children ++ right.children ∧
      left.Forked ∧ right.Forked ∧
      left.keys.length = node.keys.length / 2 := by
  have positive : 0 < node.keys.length := List.length_pos_iff.mpr nonempty
  unfold Internal.Forked at forked
  cases rest : node.keys.drop (node.keys.length / 2) with
  | nil =>
      have := congrArg List.length rest
      simp at this
      omega
  | cons sep keys =>
      have restLength := congrArg List.length rest
      simp only [List.length_drop, List.length_cons] at restLength
      refine ⟨_, _, _, by simp only [halve, rest]; rfl, ?_, ?_, ?_, ?_, ?_⟩
      · rw [← rest, List.take_append_drop]
      · rw [List.take_append_drop]
      · simp [Internal.Forked]
        omega
      · simp [Internal.Forked]
        omega
      · simp
        omega

/-- What absorbing does to a node, whatever the child's outcome. -/
theorem absorb_marks (order : Nat) (hole : Hole K (Tree L K V h))
    (old : Tree L K V h) (grown : Grown (Tree L K V h) K V) :
    ((hole.fill old).absorb order hole.index grown).marks treeMarks =
      hole.leftMarks ++ grown.marks Tree.marks ++ hole.rightMarks := by
  cases grown with
  | replaced value child =>
      simp [absorb, Grown.marks, hole.treeMarks_fill]
  | done child => simp [absorb, Grown.marks, hole.treeMarks_fill]
  | split left sep right =>
      simp only [absorb, Hole.link_fill]
      have wideMarks := hole.treeMarks_fillTwo left sep right
      split_ifs with fits
      · exact wideMarks
      · have nonempty : (hole.fillTwo left sep right).keys ≠ [] := by
          simp [Hole.fillTwo]
        obtain ⟨leftHalf, median, rightHalf, halves, keysEq, childrenEq,
          leftForked, -, -⟩ :=
          halve_eq (hole.forked_fillTwo left sep right) nonempty
        rw [halves]
        exact (treeMarks_cut keysEq childrenEq leftForked).trans wideMarks

/-- Absorbing collects the same from the children, however it cuts them. -/
theorem absorb_gather {α : Type} (f : Child → List α) (order : Nat)
    (hole : Hole K Child) (old : Child) (grown : Grown Child K V) :
    ((hole.fill old).absorb order hole.index grown).gather (gather f) =
      hole.leftChildren.flatMap f ++ grown.gather f ++
        hole.rightChildren.flatMap f := by
  cases grown with
  | replaced value child =>
      simp [absorb, Grown.gather, hole.gather_fill]
  | done child => simp [absorb, Grown.gather, hole.gather_fill]
  | split left sep right =>
      simp only [absorb, Hole.link_fill]
      have wideGather := hole.gather_fillTwo f left sep right
      split_ifs with fits
      · exact wideGather
      · have nonempty : (hole.fillTwo left sep right).keys ≠ [] := by
          simp [Hole.fillTwo]
        obtain ⟨leftHalf, median, rightHalf, halves, -, childrenEq, -⟩ :=
          halve_eq (hole.forked_fillTwo left sep right) nonempty
        rw [gather, childrenEq, List.flatMap_append] at wideGather
        rw [halves]
        exact wideGather

theorem absorb_map {Other : Type} (f : Child → Other) (order : Nat)
    (node : Internal K Child) (i : Nat) (grown : Grown Child K V) :
    (node.absorb order i grown).map (map f) =
      (node.map f).absorb order i (grown.map f) := by
  cases grown with
  | replaced value child =>
      simp [absorb, Grown.map, setChild, map, List.map_set]
  | done child => simp [absorb, Grown.map, setChild, map, List.map_set]
  | split left sep right =>
      have linked : (node.map f).link i (f left) sep (f right) =
          (node.link i left sep right).map f := by
        simp [link, map, List.map_take, List.map_drop]
      simp only [absorb, Grown.map, linked]
      generalize node.link i left sep right = wide
      have halved : (wide.map f).halve =
          wide.halve.map fun halves =>
            (halves.1.map f, halves.2.1, halves.2.2.map f) := by
        unfold halve
        simp only [map]
        cases wide.keys.drop (wide.keys.length / 2) <;>
          simp [List.map_take, List.map_drop]
      have keysEq : (wide.map f).keys = wide.keys := rfl
      rw [halved, keysEq]
      by_cases fits : wide.keys.length < order
      · rw [if_pos fits, if_pos fits]
      · rw [if_neg fits, if_neg fits]
        cases wide.halve <;> rfl

theorem absorb_displaced (order : Nat) (hole : Hole K Child) (old : Child)
    (grown : Grown Child K V) :
    ((hole.fill old).absorb order hole.index grown).displaced =
      grown.displaced := by
  cases grown with
  | replaced value child => rfl
  | done child => rfl
  | split left sep right =>
      simp only [absorb]
      split_ifs
      · rfl
      · split <;> rfl

end Internal

theorem Grown.map_map {T U W : Type} (f : T → U) (g : U → W)
    (grown : Grown T K V) : (grown.map f).map g = grown.map fun tree => g (f tree) := by
  cases grown <;> rfl

@[simp]
theorem Grown.map_isSplit {T U : Type} (f : T → U) (grown : Grown T K V) :
    (grown.map f).isSplit = grown.isSplit := by
  cases grown <;> rfl

@[simp]
theorem Grown.map_displaced {T U : Type} (f : T → U) (grown : Grown T K V) :
    (grown.map f).displaced = grown.displaced := by
  cases grown <;> rfl

theorem Grown.place_isSplit {T : Type} (label fresh : L)
    (grown : Grown T K V) : (grown.place label fresh).isSplit = grown.isSplit := by
  cases grown <;> rfl

theorem Grown.place_relabel_leaf {M : Type} (f : L → M) (label fresh : L)
    (grown : Grown (List (K × V)) K V) :
    (grown.place label fresh).map (Tree.relabel (h := 0) f) =
      grown.place (f label) (f fresh) := by
  cases grown <;> rfl

theorem Grown.place_relabel_node {M : Type} (f : L → M) (label fresh : L)
    (grown : Grown (Internal K (Tree L K V h)) K V) :
    (grown.place label fresh).map (Tree.relabel (h := h + 1) f) =
      (grown.map (Internal.map (Tree.relabel f))).place (f label) (f fresh) := by
  cases grown <;> rfl

theorem Grown.place_labels_leaf (label fresh : L)
    (grown : Grown (List (K × V)) K V) :
    ((grown.place label fresh).gather (Tree.labels (h := 0))).length =
      1 + grown.isSplit.toNat := by
  cases grown <;> rfl

theorem Grown.place_labels_node (label fresh : L)
    (grown : Grown (Internal K (Tree L K V h)) K V) :
    ((grown.place label fresh).gather (Tree.labels (h := h + 1))).length =
      (grown.gather (Internal.gather Tree.labels)).length +
        (1 + grown.isSplit.toNat) := by
  cases grown with
  | replaced old tree => rfl
  | done tree => rfl
  | split left sep right =>
      simp only [place, gather, Tree.labels, List.length_append,
        List.length_cons, isSplit, Bool.toNat_true]
      omega

/-- What holds of a body holds of the node with that body. -/
theorem Grown.Fits.place {T : Type} {keptBody halfBody : T → Prop}
    {kept half : Labelled L T → Prop} {grown : Grown T K V}
    (fits : grown.Fits keptBody halfBody) (label fresh : L)
    (keptNode : ∀ label body, keptBody body → kept ⟨label, body⟩)
    (halfNode : ∀ label body, halfBody body → half ⟨label, body⟩) :
    (grown.place label fresh).Fits kept half := by
  cases grown with
  | replaced old tree => exact keptNode _ _ fits
  | done tree => exact keptNode _ _ fits
  | split left sep right =>
      exact ⟨halfNode _ _ fits.1, halfNode _ _ fits.2⟩

@[simp]
theorem Grown.place_displaced {T : Type} (label fresh : L)
    (grown : Grown T K V) : (grown.place label fresh).displaced = grown.displaced := by
  cases grown <;> rfl

theorem Grown.place_marks_leaf (label fresh : L)
    (grown : Grown (List (K × V)) K V) :
    (grown.place label fresh).marks (Tree.marks : Tree L K V 0 → List (Mark K V)) =
      grown.marks Mark.ofEntries := by
  cases grown <;> rfl

theorem Grown.place_marks_node (label fresh : L)
    (grown : Grown (Internal K (Tree L K V h)) K V) :
    (grown.place label fresh).marks (Tree.marks (h := h + 1)) =
      grown.marks Internal.treeMarks := by
  cases grown <;> rfl

end Marks

section Leaves

variable {K V : Type} [Preorder K]

/-- What inserting into the entries of a leaf can do. -/
inductive LeafGrowth (order : Nat) (key : K) (value : V)
    (entries : List (K × V)) : Grown (List (K × V)) K V → Prop
  | replaced {before after : List (K × V)} {entry : K × V}
      (split : entries = before ++ entry :: after)
      (below : ∀ earlier ∈ before, earlier.1 < key)
      (same : SameKey entry.1 key)
      (above : ∀ later ∈ after, key < later.1) :
      LeafGrowth order key value entries
        (.replaced entry.2 (before ++ (entry.1, value) :: after))
  | done {before after : List (K × V)}
      (split : entries = before ++ after)
      (below : ∀ earlier ∈ before, earlier.1 < key)
      (above : ∀ later ∈ after, key < later.1)
      (fits : (before ++ (key, value) :: after).length < order) :
      LeafGrowth order key value entries (.done (before ++ (key, value) :: after))
  | halved {before after left right : List (K × V)} {next : K × V}
      (split : entries = before ++ after)
      (below : ∀ earlier ∈ before, earlier.1 < key)
      (above : ∀ later ∈ after, key < later.1)
      (full : order ≤ (before ++ (key, value) :: after).length)
      (cut : left ++ next :: right = before ++ (key, value) :: after)
      (half : left.length = (before ++ (key, value) :: after).length / 2) :
      LeafGrowth order key value entries (.split left next.1 (next :: right))

theorem insertEntries_growth [Std.IsLinearPreorder K] [DecidableLT K]
    (order : Nat) (key : K) (value : V)
    {entries : List (K × V)} (ascending : Ascending entries) :
    LeafGrowth order key value entries
      (insertEntries order key value entries) := by
  have correct := Entries.search_answer key ascending
  unfold insertEntries
  generalize binarySearch (entries.map Prod.fst) key = answer at correct
  cases correct with
  | @found before after entry split below same above =>
      have growth : LeafGrowth order key value entries
          (.replaced entry.2 (before ++ (entry.1, value) :: after)) :=
        .replaced split below same above
      subst split
      simpa using growth
  | @missing before after split below above =>
      have takeEq : entries.take before.length = before := by simp [split]
      have dropEq : entries.drop before.length = after := by simp [split]
      simp only [takeEq, dropEq]
      by_cases fits : (before ++ (key, value) :: after).length < order
      · rw [if_pos fits]
        exact .done split below above fits
      · rw [if_neg fits]
        generalize wideEq : before ++ (key, value) :: after = wide at fits ⊢
        have positive : 0 < wide.length := by
          simp only [← wideEq, List.length_append, List.length_cons]
          omega
        cases rest : wide.drop (wide.length / 2) with
        | nil =>
            have := congrArg List.length rest
            simp only [List.length_drop, List.length_nil] at this
            omega
        | cons next right =>
            subst wideEq
            refine .halved split below above (by omega) ?_ ?_
            · rw [← rest, List.take_append_drop]
            · rw [List.length_take]
              omega

variable {order : Nat} {key : K} {value : V} {entries : List (K × V)}
  {grown : Grown (List (K × V)) K V}

theorem LeafGrowth.updates [DecidableLT K]
    (growth : LeafGrowth order key value entries grown) (two : 2 ≤ order)
    {before after : List (Mark K V)}
    (ordered : Mark.Ordered (before ++ Mark.ofEntries entries ++ after))
    (allBefore : Mark.AllBefore before key)
    (allAfter : Mark.AllAfter key after) :
    Mark.Updates key (Entries.insert key value) before after
      (Mark.ofEntries entries) (grown.marks Mark.ofEntries) grown.displaced := by
  have fresh {left right : List (K × V)} (split : entries = left ++ right)
      (below : ∀ earlier ∈ left, earlier.1 < key)
      (above : ∀ later ∈ right, key < later.1) :
      Mark.Updates key (Entries.insert key value) before after
        (Mark.ofEntries entries)
        (Mark.ofEntries (left ++ (key, value) :: right)) none := by
    subst split
    refine ⟨?_, ?_, ?_⟩
    · have whole : Mark.Ordered ((before ++ Mark.ofEntries left) ++
          (Mark.ofEntries right ++ after)) := by simpa using ordered
      have fits := whole.insert_entry
        (Mark.allBefore_append.mpr
          ⟨allBefore, Mark.allBefore_ofEntries.mpr below⟩)
        (Mark.allAfter_append.mpr
          ⟨Mark.allAfter_ofEntries.mpr above, allAfter⟩) value
      simpa using fits
    · simp [Entries.insert_prepend value below,
        Entries.insert_of_above value above]
    · simp [Entries.lookup_prepend below, Entries.lookup_of_above above]
  cases growth with
  | @replaced left right entry split below same above =>
      subst split
      refine ⟨?_, ?_, ?_⟩
      · have whole : Mark.Ordered ((before ++ Mark.ofEntries left) ++
            .entry entry.1 entry.2 :: (Mark.ofEntries right ++ after)) := by
          simpa using ordered
        simpa [Grown.marks] using whole.set_value value
      · have block : Entries.insert key value (left ++ [entry] ++ right) =
            left ++ Entries.insert key value [entry] ++ right :=
          Entries.insert_block value below above
        simpa [Grown.marks, Entries.insert_single value same] using block.symm
      · have block : Entries.lookup key (left ++ [entry] ++ right) =
            Entries.lookup key [entry] :=
          Entries.lookup_block below above
        simpa [Grown.displaced, Entries.lookup_single same] using block.symm
  | done split below above fits => exact fresh split below above
  | @halved before after left right next split below above full cut half =>
      have nonempty : left ≠ [] := by
        rintro rfl
        simp only [List.length_nil] at half
        omega
      refine (fresh split below above).restructured ?_
      rw [← cut]
      exact Mark.restructures_cut nonempty

theorem LeafGrowth.fits (growth : LeafGrowth order key value entries grown)
    {minKeys least : Nat} (two : 2 ≤ order) (half : 2 * minKeys + 1 ≤ order)
    (enough : least ≤ entries.length) (below : entries.length < order) :
    grown.Fits (fun kept => least ≤ kept.length ∧ kept.length < order)
      (fun part => minKeys ≤ part.length ∧ part.length < order) := by
  cases growth with
  | replaced split below same above =>
      subst split
      simp only [Grown.Fits, List.length_append, List.length_cons] at *
      omega
  | done split below above fits =>
      subst split
      simp only [Grown.Fits, List.length_append, List.length_cons] at *
      omega
  | halved split below above full cut middle =>
      have lengths := congrArg List.length cut
      subst split
      simp only [Grown.Fits, List.length_append, List.length_cons] at *
      omega

end Leaves

section Nodes

variable {K V Child : Type}

/-- Absorbing keeps a node within its bounds, and halves an overfull node into
two nodes of minimal occupancy. -/
theorem Internal.absorb_fits {order minKeys least : Nat} {P : Child → Prop}
    (half : 2 * minKeys + 1 ≤ order) {hole : Hole K Child} {old : Child}
    (occupied : (hole.fill old).Occupied order least P)
    {grown : Grown Child K V} (fits : grown.Fits P P) :
    ((hole.fill old).absorb order hole.index grown).Fits
      (Occupied order least P) (Occupied order minKeys P) := by
  obtain ⟨enough, below, -, children⟩ := occupied
  rw [hole.fill_keys_length] at enough below
  have others : ∀ other ∈ hole.others, P other :=
    fun other member => children other (Hole.mem_fill.mpr (.inr member))
  cases grown with
  | replaced value child =>
      have refilled := Hole.occupied_fill enough below others fits
      simpa [absorb, Grown.Fits] using refilled
  | done child =>
      have refilled := Hole.occupied_fill enough below others fits
      simpa [absorb, Grown.Fits] using refilled
  | split left sep right =>
      simp only [absorb, Hole.link_fill, hole.fillTwo_keys_length]
      by_cases small : hole.keysLen + 1 < order
      · rw [if_pos small]
        exact Hole.occupied_fillTwo (by omega) small others fits.1 fits.2
      · have wideChildren :
            ∀ child ∈ (hole.fillTwo left sep right).children, P child := by
          intro child member
          rcases Hole.mem_fillTwo.mp member with (rfl | rfl) | member
          · exact fits.1
          · exact fits.2
          · exact others child member
        have wideLength := hole.fillTwo_keys_length left sep right
        have nonempty : (hole.fillTwo left sep right).keys ≠ [] := by
          simp [Hole.fillTwo]
        obtain ⟨leftHalf, median, rightHalf, halves, keysEq, childrenEq,
          leftForked, rightForked, middle⟩ :=
          halve_eq (hole.forked_fillTwo left sep right) nonempty
        have lengths := congrArg List.length keysEq
        simp only [List.length_append, List.length_cons] at lengths
        rw [if_neg small, halves]
        refine ⟨⟨by omega, by omega, leftForked, fun child member => ?_⟩,
          ⟨by omega, by omega, rightForked, fun child member => ?_⟩⟩
        · exact wideChildren child (by simp [childrenEq, member])
        · exact wideChildren child (by simp [childrenEq, member])

end Nodes

section Trees

variable {L K V : Type} {h : Nat}

namespace Tree

/-- Insertion goes into the child that the search takes out. -/
theorem insertInto_fill [LT K] [DecidableLT K] (fresh : Nat → L) (order : Nat)
    (key : K) (value : V) {tree : Tree L K V (h + 1)}
    {hole : Hole K (Tree L K V h)} {child : Tree L K V h}
    (filled : tree.body = hole.fill child)
    (indexEq : tree.body.childIndex key = hole.index) :
    tree.insertInto fresh order key value =
      ((hole.fill child).absorb order hole.index
        (child.insertInto fresh order key value)).place
          (Labelled.label tree) (fresh (h + 1)) := by
  rw [insertInto, indexEq, filled, hole.fill_getElem?]

/-- Insertion does not look at labels. -/
theorem relabel_insertInto [LT K] [DecidableLT K] {M : Type} (f : L → M)
    (fresh : Nat → L) (order : Nat) (key : K) (value : V) (tree : Tree L K V h) :
    (tree.insertInto fresh order key value).map (relabel f) =
      (tree.relabel f).insertInto (fun j => f (fresh j)) order key value := by
  induction h with
  | zero => exact Grown.place_relabel_leaf f _ _ _
  | succ h ih =>
      have childIndexEq : (tree.body.map (relabel f)).childIndex key =
          tree.body.childIndex key := rfl
      have childrenEq : (tree.body.map (relabel f)).children =
          tree.body.children.map (relabel f) := rfl
      rw [insertInto, insertInto, relabel_body, childIndexEq, childrenEq,
        List.getElem?_map]
      cases tree.body.children[tree.body.childIndex key]? with
      | none => rfl
      | some child =>
          simp only [Option.map_some]
          rw [Grown.place_relabel_node, Internal.absorb_map, ih]
          rfl

/-- Only the labels for heights up to the tree's are used. -/
theorem insertInto_congr [LT K] [DecidableLT K] {fresh other : Nat → L}
    (order : Nat) (key : K) (value : V) (tree : Tree L K V h)
    (agree : ∀ j ≤ h, fresh j = other j) :
    tree.insertInto fresh order key value =
      tree.insertInto other order key value := by
  induction h with
  | zero => simp only [insertInto, agree 0 (Nat.le_refl 0)]
  | succ h ih =>
      simp only [insertInto, agree (h + 1) (Nat.le_refl _)]
      cases tree.body.children[tree.body.childIndex key]? with
      | none => rfl
      | some child =>
          simp only [ih child fun j bound => agree j (by omega)]

/-- Whether a tree splits does not depend on labels. -/
theorem insertInto_isSplit [LT K] [DecidableLT K] (fresh other : Nat → L)
    (order : Nat) (key : K) (value : V) (tree : Tree L K V h) :
    (tree.insertInto fresh order key value).isSplit =
      (tree.insertInto other order key value).isSplit := by
  have one := relabel_insertInto (fun _ => ()) fresh order key value tree
  have two := relabel_insertInto (fun _ => ()) other order key value tree
  rw [← Grown.map_isSplit (relabel fun _ => ()), one, ← two,
    Grown.map_isSplit]

theorem splits_fill [LT K] [DecidableLT K] (fresh : Nat → L) (order : Nat)
    (key : K) (value : V) {tree : Tree L K V (h + 1)}
    {hole : Hole K (Tree L K V h)} {child : Tree L K V h}
    (filled : tree.body = hole.fill child)
    (indexEq : tree.body.childIndex key = hole.index) :
    tree.splits order key value = child.splits order key value +
      (tree.insertInto fresh order key value).isSplit.toNat := by
  rw [splits, indexEq, filled, hole.fill_getElem?,
    insertInto_isSplit fresh fun _ => Labelled.label tree]

variable [Preorder K] [Std.IsLinearPreorder K] [DecidableLT K]
variable (fresh : Nat → L) (key : K) (value : V)
variable {order minKeys least : Nat} {tree : Tree L K V h}

/-- Insertion into a tree is insertion into its entries, and the marks stay in
order inside any surroundings that the key fits in. -/
theorem insertInto_updates (two : 2 ≤ order)
    (sized : tree.Sized order minKeys least) {before after : List (Mark K V)}
    (ordered : Mark.Ordered (before ++ tree.marks ++ after))
    (allBefore : Mark.AllBefore before key)
    (allAfter : Mark.AllAfter key after) :
    Mark.Updates key (Entries.insert key value) before after tree.marks
      ((tree.insertInto fresh order key value).marks marks)
      (tree.insertInto fresh order key value).displaced := by
  have inner := (Mark.ordered_append.mp (Mark.ordered_append.mp ordered).1).2.1
  induction h generalizing least before after with
  | zero =>
      have ascending : Ascending tree.body := by
        rw [← entries_leaf tree]
        exact inner.ascending
      have growth := insertEntries_growth order key value ascending
      rw [insertInto, Grown.place_marks_leaf, Grown.place_displaced]
      exact growth.updates two ordered allBefore allAfter
  | succ h ih =>
      obtain ⟨hole, child, filled, indexEq, left, right⟩ :=
        route (Internal.Occupied.forked sized) inner key
      have marksEq := marks_fill filled
      rw [insertInto_fill fresh order key value filled indexEq,
        Grown.place_marks_node, Grown.place_displaced, Internal.absorb_marks,
        Internal.absorb_displaced, marksEq]
      refine Mark.Updates.inside ?_ (Entries.localAt_insert value) left right
      refine ih (sized.child filled) ?_ ?_ ?_ (ordered_child filled inner)
      · rw [marksEq] at ordered
        simpa only [List.append_assoc] using ordered
      · exact Mark.allBefore_append.mpr ⟨allBefore, left⟩
      · exact Mark.allAfter_append.mpr ⟨right, allAfter⟩

/-- Insertion keeps every node within its bounds. -/
theorem insertInto_fits (two : 2 ≤ order) (half : 2 * minKeys + 1 ≤ order)
    (sized : tree.Sized order minKeys least)
    (ordered : Mark.Ordered tree.marks) :
    (tree.insertInto fresh order key value).Fits
      (Sized order minKeys least) (Sized order minKeys minKeys) := by
  induction h generalizing least with
  | zero =>
      have ascending : Ascending tree.body := by
        rw [← entries_leaf tree]
        exact ordered.ascending
      have growth := insertEntries_growth order key value ascending
      have fits := growth.fits two half sized.1 sized.2
      exact fits.place _ _ (fun _ _ good => good) (fun _ _ good => good)
  | succ h ih =>
      obtain ⟨hole, child, filled, indexEq, -, -⟩ :=
        route (Internal.Occupied.forked sized) ordered key
      have childFits := ih (sized.child filled) (ordered_child filled ordered)
      have occupied : tree.body.Occupied order least
        (Sized order minKeys minKeys) := sized
      rw [filled] at occupied
      have fits := Internal.absorb_fits half occupied childFits
      rw [insertInto_fill fresh order key value filled indexEq]
      exact fits.place _ _ (fun _ _ good => good) (fun _ _ good => good)

/-- Insertion adds one node for each node that splits. -/
theorem insertInto_size (sized : tree.Sized order minKeys least)
    (ordered : Mark.Ordered tree.marks) :
    ((tree.insertInto fresh order key value).gather labels).length =
      tree.size + tree.splits order key value := by
  induction h generalizing least with
  | zero => exact Grown.place_labels_leaf _ _ _
  | succ h ih =>
      obtain ⟨hole, child, filled, indexEq, -, -⟩ :=
        route (Internal.Occupied.forked sized) ordered key
      have childSize := ih (sized.child filled) (ordered_child filled ordered)
      rw [splits_fill fresh order key value filled indexEq, size_fill filled,
        insertInto_fill fresh order key value filled indexEq,
        Grown.place_labels_node, Grown.place_isSplit, Internal.absorb_gather,
        List.length_append, List.length_append, childSize]
      omega

end Tree

end Trees

end IndexDb
