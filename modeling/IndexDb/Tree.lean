import IndexDb.Library.InorderMarks
import IndexDb.Node
import Mathlib.Tactic.Tauto

/-!
# Trees that stored nodes unfold to

A tree of height `h` has internal nodes on `h` levels above its leaves, so all
its leaves lie at the same depth.  Every node carries a label.  The labels are
node ids when the tree mirrors a store, and are trivial when only its shape
matters.  A leaf holds its entries as pairs, so its keys and values cannot
differ in number.
-/

namespace IndexDb

/-- A node body with the label of the node. -/
structure Labelled (L α : Type) where
  label : L
  body : α

@[reducible]
def Tree (L K V : Type) : Nat → Type
  | 0 => Labelled L (List (K × V))
  | h + 1 => Labelled L (Internal K (Tree L K V h))

namespace Internal

variable {K Child Other : Type}

/-- One child more than separators. -/
def Forked (node : Internal K Child) : Prop :=
  node.children.length = node.keys.length + 1

def map (f : Child → Other) (node : Internal K Child) : Internal K Other where
  keys := node.keys
  children := node.children.map f

/-- What `f` collects from the children, from left to right. -/
def gather {α : Type} (f : Child → List α) (node : Internal K Child) : List α :=
  node.children.flatMap f

/-- Between `least` and `order` separators, and children that satisfy `P`. -/
structure Occupied (order least : Nat) (P : Child → Prop)
    (node : Internal K Child) : Prop where
  enough : least ≤ node.keys.length
  below : node.keys.length < order
  forked : node.Forked
  children : ∀ child ∈ node.children, P child

end Internal

/-- An internal node with the place of one child left open. -/
structure Hole (K Child : Type) where
  leftKeys : List K
  leftChildren : List Child
  rightKeys : List K
  rightChildren : List Child
  left_even : leftKeys.length = leftChildren.length
  right_even : rightKeys.length = rightChildren.length

namespace Hole

variable {K Child Other : Type}

/-- The index of the open place. -/
def index (hole : Hole K Child) : Nat :=
  hole.leftChildren.length

/-- One child in the open place. -/
def fill (hole : Hole K Child) (child : Child) : Internal K Child where
  keys := hole.leftKeys ++ hole.rightKeys
  children := hole.leftChildren ++ child :: hole.rightChildren

/-- Two children with a separator between them in the open place. -/
def fillTwo (hole : Hole K Child) (left : Child) (sep : K) (right : Child) :
    Internal K Child where
  keys := hole.leftKeys ++ sep :: hole.rightKeys
  children := hole.leftChildren ++ left :: right :: hole.rightChildren

def map (f : Child → Other) (hole : Hole K Child) : Hole K Other where
  leftKeys := hole.leftKeys
  leftChildren := hole.leftChildren.map f
  rightKeys := hole.rightKeys
  rightChildren := hole.rightChildren.map f
  left_even := by simpa using hole.left_even
  right_even := by simpa using hole.right_even

/-- The hole with `left` and the separator after it moved out of the place. -/
def pastLeft (hole : Hole K Child) (left : Child) (sep : K) :
    Hole K Child where
  leftKeys := hole.leftKeys ++ [sep]
  leftChildren := hole.leftChildren ++ [left]
  rightKeys := hole.rightKeys
  rightChildren := hole.rightChildren
  left_even := by simpa using hole.left_even
  right_even := hole.right_even

/-- The hole with `right` and the separator before it moved out of the place. -/
def beforeRight (hole : Hole K Child) (sep : K) (right : Child) :
    Hole K Child where
  leftKeys := hole.leftKeys
  leftChildren := hole.leftChildren
  rightKeys := sep :: hole.rightKeys
  rightChildren := right :: hole.rightChildren
  left_even := hole.left_even
  right_even := by simpa using hole.right_even

@[simp]
theorem map_index (f : Child → Other) (hole : Hole K Child) :
    (hole.map f).index = hole.index := by
  simp [map, index]

@[simp]
theorem map_fill (f : Child → Other) (hole : Hole K Child) (child : Child) :
    (hole.fill child).map f = (hole.map f).fill (f child) := by
  simp [fill, map, Internal.map]

@[simp]
theorem map_fillTwo (f : Child → Other) (hole : Hole K Child)
    (left : Child) (sep : K) (right : Child) :
    (hole.fillTwo left sep right).map f =
      (hole.map f).fillTwo (f left) sep (f right) := by
  simp [fillTwo, map, Internal.map]

@[simp]
theorem map_pastLeft (f : Child → Other) (hole : Hole K Child) (left : Child)
    (sep : K) :
    (hole.pastLeft left sep).map f = (hole.map f).pastLeft (f left) sep := by
  simp [pastLeft, map]

@[simp]
theorem map_beforeRight (f : Child → Other) (hole : Hole K Child) (sep : K)
    (right : Child) :
    (hole.beforeRight sep right).map f =
      (hole.map f).beforeRight sep (f right) := by
  simp [beforeRight, map]

theorem pastLeft_fill (hole : Hole K Child) (left : Child) (sep : K)
    (right : Child) :
    (hole.pastLeft left sep).fill right = hole.fillTwo left sep right := by
  simp [pastLeft, fill, fillTwo]

theorem beforeRight_fill (hole : Hole K Child) (left : Child) (sep : K)
    (right : Child) :
    (hole.beforeRight sep right).fill left = hole.fillTwo left sep right := by
  simp [beforeRight, fill, fillTwo]

@[simp]
theorem pastLeft_index (hole : Hole K Child) (left : Child) (sep : K) :
    (hole.pastLeft left sep).index = hole.index + 1 := by
  simp [pastLeft, index]

@[simp]
theorem beforeRight_index (hole : Hole K Child) (sep : K) (right : Child) :
    (hole.beforeRight sep right).index = hole.index :=
  rfl

theorem gather_fill {α : Type} (f : Child → List α) (hole : Hole K Child)
    (child : Child) :
    (hole.fill child).gather f =
      hole.leftChildren.flatMap f ++ f child ++ hole.rightChildren.flatMap f := by
  simp [fill, Internal.gather]

theorem gather_fillTwo {α : Type} (f : Child → List α) (hole : Hole K Child)
    (left : Child) (sep : K) (right : Child) :
    (hole.fillTwo left sep right).gather f =
      hole.leftChildren.flatMap f ++ (f left ++ f right) ++
        hole.rightChildren.flatMap f := by
  simp [fillTwo, Internal.gather]

@[simp]
theorem pastLeft_getLast? (hole : Hole K Child) (left : Child) (sep : K) :
    (hole.pastLeft left sep).leftChildren.getLast? = some left := by
  simp [pastLeft]

@[simp]
theorem beforeRight_head? (hole : Hole K Child) (sep : K) (right : Child) :
    (hole.beforeRight sep right).rightChildren.head? = some right :=
  rfl

theorem forked_fill (hole : Hole K Child) (child : Child) :
    (hole.fill child).Forked := by
  simp only [Internal.Forked, fill, List.length_append, List.length_cons,
    hole.left_even, hole.right_even]
  omega

theorem forked_fillTwo (hole : Hole K Child) (left : Child) (sep : K)
    (right : Child) : (hole.fillTwo left sep right).Forked := by
  rw [← pastLeft_fill]
  exact forked_fill _ _

/-- The number of separators around the open place. -/
def keysLen (hole : Hole K Child) : Nat :=
  hole.leftKeys.length + hole.rightKeys.length

@[simp]
theorem fill_keys_length (hole : Hole K Child) (child : Child) :
    (hole.fill child).keys.length = hole.keysLen := by
  simp [fill, keysLen]

@[simp]
theorem fillTwo_keys_length (hole : Hole K Child) (left : Child) (sep : K)
    (right : Child) :
    (hole.fillTwo left sep right).keys.length = hole.keysLen + 1 := by
  simp only [fillTwo, keysLen, List.length_append, List.length_cons]
  omega

/-- The children around the open place. -/
def others (hole : Hole K Child) : List Child :=
  hole.leftChildren ++ hole.rightChildren

@[simp]
theorem pastLeft_keysLen (hole : Hole K Child) (left : Child) (sep : K) :
    (hole.pastLeft left sep).keysLen = hole.keysLen + 1 := by
  simp only [keysLen, pastLeft, List.length_append, List.length_singleton]
  omega

@[simp]
theorem beforeRight_keysLen (hole : Hole K Child) (sep : K) (right : Child) :
    (hole.beforeRight sep right).keysLen = hole.keysLen + 1 := by
  simp only [keysLen, beforeRight, List.length_cons]
  omega

@[simp]
theorem mem_pastLeft_others {hole : Hole K Child} {left other : Child} {sep : K} :
    other ∈ (hole.pastLeft left sep).others ↔
      other = left ∨ other ∈ hole.others := by
  simp only [others, pastLeft, List.mem_append, List.mem_singleton]
  tauto

@[simp]
theorem mem_beforeRight_others {hole : Hole K Child} {right other : Child}
    {sep : K} :
    other ∈ (hole.beforeRight sep right).others ↔
      other = right ∨ other ∈ hole.others := by
  simp only [others, beforeRight, List.mem_append, List.mem_cons]
  tauto

theorem mem_fill {hole : Hole K Child} {child other : Child} :
    other ∈ (hole.fill child).children ↔
      other = child ∨ other ∈ hole.others := by
  simp only [fill, others, List.mem_append, List.mem_cons]
  tauto

theorem mem_of_fill {node : Internal K Child} {hole : Hole K Child} {child : Child}
    (filled : node = hole.fill child) : child ∈ node.children := by
  rw [filled]
  exact mem_fill.mpr (.inl rfl)

theorem mem_fillTwo {hole : Hole K Child} {left right other : Child} {sep : K} :
    other ∈ (hole.fillTwo left sep right).children ↔
      (other = left ∨ other = right) ∨ other ∈ hole.others := by
  simp only [fillTwo, others, List.mem_append, List.mem_cons]
  tauto

section Occupied

variable {order least : Nat} {P : Child → Prop} {hole : Hole K Child}

theorem occupied_fill {child : Child} (enough : least ≤ hole.keysLen)
    (below : hole.keysLen < order) (others : ∀ other ∈ hole.others, P other)
    (good : P child) : (hole.fill child).Occupied order least P := by
  refine ⟨by simpa using enough, by simpa using below,
    hole.forked_fill child, ?_⟩
  intro other member
  rcases mem_fill.mp member with rfl | member
  · exact good
  · exact others other member

theorem occupied_fillTwo {left right : Child} {sep : K}
    (enough : least ≤ hole.keysLen + 1) (below : hole.keysLen + 1 < order)
    (others : ∀ other ∈ hole.others, P other) (leftGood : P left)
    (rightGood : P right) :
    (hole.fillTwo left sep right).Occupied order least P := by
  refine ⟨by simpa using enough, by simpa using below,
    hole.forked_fillTwo left sep right, ?_⟩
  intro other member
  rcases mem_fillTwo.mp member with (rfl | rfl) | member
  · exact leftGood
  · exact rightGood
  · exact others other member

end Occupied

@[simp]
theorem fill_getElem? (hole : Hole K Child) (child : Child) :
    (hole.fill child).children[hole.index]? = some child := by
  simp [fill, index]

@[simp]
theorem fillTwo_getElem? (hole : Hole K Child) (left : Child) (sep : K)
    (right : Child) :
    (hole.fillTwo left sep right).children[hole.index]? = some left := by
  rw [← beforeRight_fill]
  exact fill_getElem? _ _

@[simp]
theorem fillTwo_getElem?_succ (hole : Hole K Child) (left : Child) (sep : K)
    (right : Child) :
    (hole.fillTwo left sep right).children[hole.index + 1]? = some right := by
  rw [← pastLeft_fill, ← pastLeft_index hole left sep]
  exact fill_getElem? _ _

/-- The left neighbour of the open place. -/
theorem fill_getElem?_left {hole : Hole K Child} (child : Child)
    (positive : 0 < hole.index) :
    (hole.fill child).children[hole.index - 1]? = hole.leftChildren.getLast? := by
  simp only [index] at positive
  rw [fill, List.getLast?_eq_getElem?, index,
    List.getElem?_append_left (by omega)]

/-- The right neighbour of the open place. -/
theorem fill_getElem?_right (hole : Hole K Child) (child : Child) :
    (hole.fill child).children[hole.index + 1]? = hole.rightChildren.head? := by
  rw [fill, List.head?_eq_getElem?, index,
    List.getElem?_append_right (by omega)]
  simp

/-- Every child of a forked node can be taken out. -/
theorem exists_fill {node : Internal K Child} (forked : node.Forked)
    {i : Nat} (inside : i ≤ node.keys.length) :
    ∃ (hole : Hole K Child) (child : Child),
      node = hole.fill child ∧ hole.index = i := by
  obtain ⟨keys, children⟩ := node
  simp only [Internal.Forked] at forked inside
  have bound : i < children.length := by omega
  refine ⟨⟨keys.take i, children.take i, keys.drop i, children.drop (i + 1),
    by simp; omega, by simp; omega⟩, children[i], ?_, by simp [index]; omega⟩
  simp [fill]

/-- A child taken out of a node with a left neighbour. -/
theorem exists_left {hole : Hole K Child} (positive : 0 < hole.index) :
    ∃ (wide : Hole K Child) (left : Child) (sep : K),
      hole = wide.pastLeft left sep := by
  obtain ⟨leftKeys, leftChildren, rightKeys, rightChildren, leftEven,
    rightEven⟩ := hole
  simp only [index] at positive
  rcases List.eq_nil_or_concat' leftChildren with rfl | ⟨children, left, rfl⟩
  · simp at positive
  rcases List.eq_nil_or_concat' leftKeys with rfl | ⟨keys, sep, rfl⟩
  · simp at leftEven
  exact ⟨⟨keys, children, rightKeys, rightChildren, by simpa using leftEven,
    rightEven⟩, left, sep, by simp [pastLeft]⟩

/-- A child taken out of a node with a right neighbour. -/
theorem exists_right {hole : Hole K Child} (more : hole.rightChildren ≠ []) :
    ∃ (wide : Hole K Child) (sep : K) (right : Child),
      hole = wide.beforeRight sep right := by
  obtain ⟨leftKeys, leftChildren, rightKeys, rightChildren, leftEven,
    rightEven⟩ := hole
  cases rightChildren with
  | nil => simp at more
  | cons right children =>
      cases rightKeys with
      | nil => simp at rightEven
      | cons sep keys =>
          exact ⟨⟨leftKeys, leftChildren, keys, children, leftEven,
            by simpa using rightEven⟩, sep, right, by simp [beforeRight]⟩

end Hole

namespace Tree

variable {L M K V : Type}

def label : {h : Nat} → Tree L K V h → L
  | 0, tree => Labelled.label tree
  | _ + 1, tree => Labelled.label tree

/-- The labels of all nodes, each node before its subtrees. -/
def labels : {h : Nat} → Tree L K V h → List L
  | 0, tree => [Labelled.label tree]
  | _ + 1, tree =>
      Labelled.label tree :: tree.body.gather labels

/-- The in-order marks. -/
def marks : {h : Nat} → Tree L K V h → List (Mark K V)
  | 0, tree => Mark.ofEntries tree.body
  | _ + 1, tree =>
      Mark.interleave tree.body.keys (tree.body.children.map marks)

/-- The entries of the leaves, from left to right. -/
def entries {h : Nat} (tree : Tree L K V h) : List (K × V) :=
  Mark.entries tree.marks

/-- The entry count of a leaf, the separator count of an internal node. -/
def keysLen : {h : Nat} → Tree L K V h → Nat
  | 0, tree => tree.body.length
  | _ + 1, tree => tree.body.keys.length

/-- The number of nodes. -/
def size {h : Nat} (tree : Tree L K V h) : Nat :=
  tree.labels.length

def relabel (f : L → M) : {h : Nat} → Tree L K V h → Tree M K V h
  | 0, tree => ⟨f (Labelled.label tree), tree.body⟩
  | _ + 1, tree =>
      ⟨f (Labelled.label tree), tree.body.map (relabel f)⟩

/-- The tree without its labels. -/
def shape {h : Nat} (tree : Tree L K V h) : Tree Unit K V h :=
  tree.relabel fun _ => ()

/-- Occupancy: every node has fewer than `order` keys and one child more than
separators, the root has at least `least` keys and every other node at least
`minKeys`. -/
def Sized (order minKeys : Nat) : {h : Nat} → Nat → Tree L K V h → Prop
  | 0, least, tree => least ≤ tree.body.length ∧ tree.body.length < order
  | _ + 1, least, tree =>
      tree.body.Occupied order least (Sized order minKeys minKeys)

theorem relabel_body (f : L → M) {h : Nat} (tree : Tree L K V (h + 1)) :
    (tree.relabel f).body = tree.body.map (relabel f) :=
  rfl

@[simp]
theorem relabel_keysLen (f : L → M) {h : Nat} (tree : Tree L K V h) :
    (tree.relabel f).keysLen = tree.keysLen := by
  cases h <;> rfl

@[simp]
theorem relabel_marks (f : L → M) {h : Nat} (tree : Tree L K V h) :
    (tree.relabel f).marks = tree.marks := by
  induction h with
  | zero => rfl
  | succ h ih =>
      simp only [marks, relabel, Internal.map, List.map_map]
      congr 1
      exact List.map_congr_left fun child _ => ih child

theorem relabel_labels (f : L → M) {h : Nat} (tree : Tree L K V h) :
    (tree.relabel f).labels = tree.labels.map f := by
  induction h with
  | zero => rfl
  | succ h ih =>
      simp only [labels, relabel, Internal.gather, Internal.map,
        List.flatMap_map, List.map_cons, List.map_flatMap, ih]

theorem sized_relabel {order minKeys least : Nat} (f : L → M) {h : Nat}
    {tree : Tree L K V h} :
    (tree.relabel f).Sized order minKeys least ↔
      tree.Sized order minKeys least := by
  induction h generalizing least with
  | zero => exact Iff.rfl
  | succ h ih =>
      have forked : (tree.relabel f).body.Forked ↔ tree.body.Forked := by
        simp [Internal.Forked, relabel_body, Internal.map]
      constructor
      · intro sized
        refine ⟨sized.enough, sized.below, forked.mp sized.forked, ?_⟩
        intro child member
        exact ih.mp (sized.children _ (List.mem_map_of_mem member))
      · intro sized
        refine ⟨sized.enough, sized.below, forked.mpr sized.forked, ?_⟩
        intro child member
        obtain ⟨original, found, rfl⟩ := List.mem_map.mp member
        exact ih.mpr (sized.children original found)

theorem size_fill {h : Nat} {tree : Tree L K V (h + 1)}
    {hole : Hole K (Tree L K V h)} {child : Tree L K V h}
    (filled : tree.body = hole.fill child) :
    tree.size = (hole.leftChildren.flatMap labels).length + child.size +
      (hole.rightChildren.flatMap labels).length + 1 := by
  simp only [size, labels, filled, hole.gather_fill, List.length_cons,
    List.length_append]

end Tree

end IndexDb
