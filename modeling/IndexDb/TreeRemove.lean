import IndexDb.TreeInsert
import Mathlib.Data.List.InsertIdx

/-!
# Deletion on trees

The deletion of the source, on trees instead of stored nodes.  A child left
with too few keys is repaired by its parent: a rotation moves one entry, or
one child, over from a sibling with a key to spare, and otherwise the child is
joined with a sibling.  Both restructure the marks around one separator.
-/

namespace IndexDb

namespace Internal

variable {K Child Other : Type}

/-- Two neighbouring children and the separator between them. -/
def pair (node : Internal K Child) (i : Nat) : Option (Child × K × Child) :=
  match node.children[i]?, node.keys[i]?, node.children[i + 1]? with
  | some left, some sep, some right => some (left, sep, right)
  | _, _, _ => none

def setPair (node : Internal K Child) (i : Nat) (left : Child) (sep : K)
    (right : Child) : Internal K Child where
  keys := node.keys.set i sep
  children := (node.children.set i left).set (i + 1) right

theorem setChild_self {node : Internal K Child} {i : Nat} {child : Child}
    (found : node.children[i]? = some child) : node.setChild i child = node := by
  obtain ⟨inside, childEq⟩ := List.getElem?_eq_some_iff.mp found
  simp [setChild, ← childEq]

/-- Put one child in the place of two neighbours and their separator. -/
def unite (node : Internal K Child) (i : Nat) (child : Child) :
    Internal K Child where
  keys := node.keys.eraseIdx i
  children := (node.children.eraseIdx (i + 1)).set i child

end Internal

section Definitions

variable {L K V : Type}

namespace Tree

/-- Move the last entry or child of `left` to the front of `right`. -/
def rotateRight : {h : Nat} → Tree L K V h → K → Tree L K V h →
    Tree L K V h × K × Tree L K V h
  | 0, left, sep, right =>
      match left.body.getLast? with
      | none => (left, sep, right)
      | some last =>
          ({ left with body := left.body.dropLast }, last.1,
            { right with body := last :: right.body })
  | _ + 1, left, sep, right =>
      match left.body.keys.getLast?, left.body.children.getLast? with
      | some newSep, some moved =>
          ({ left with body :=
              ⟨left.body.keys.dropLast, left.body.children.dropLast⟩ },
            newSep,
            { right with body :=
              ⟨sep :: right.body.keys, moved :: right.body.children⟩ })
      | _, _ => (left, sep, right)

/-- Move the first entry or child of `right` to the back of `left`. -/
def rotateLeft : {h : Nat} → Tree L K V h → K → Tree L K V h →
    Tree L K V h × K × Tree L K V h
  | 0, left, sep, right =>
      match right.body with
      | first :: next :: rest =>
          ({ left with body := left.body ++ [first] }, next.1,
            { right with body := next :: rest })
      | _ => (left, sep, right)
  | _ + 1, left, sep, right =>
      match right.body.keys, right.body.children with
      | newSep :: keys, moved :: children =>
          ({ left with body :=
              ⟨left.body.keys ++ [sep], left.body.children ++ [moved]⟩ },
            newSep, { right with body := ⟨keys, children⟩ })
      | _, _ => (left, sep, right)

/-- One node in the place of two siblings and their separator. -/
def join : {h : Nat} → Tree L K V h → K → Tree L K V h → Tree L K V h
  | 0, left, _, right => { left with body := left.body ++ right.body }
  | _ + 1, left, sep, right =>
      { left with body :=
          ⟨left.body.keys ++ sep :: right.body.keys,
            left.body.children ++ right.body.children⟩ }

/-- Repair child `i`: rotate a key over from a sibling that has one to spare,
the left one first, else join with a sibling. -/
def rebalance {h : Nat} (minKeys : Nat) (node : Internal K (Tree L K V h))
    (i : Nat) : Internal K (Tree L K V h) :=
  match if 0 < i then node.pair (i - 1) else none, node.pair i with
  | some (left, sep, child), none =>
      if minKeys < left.keysLen then
        let (left, sep, child) := left.rotateRight sep child
        node.setPair (i - 1) left sep child
      else
        node.unite (i - 1) (left.join sep child)
  | some (left, sep, child), some (_, rightSep, right) =>
      if minKeys < left.keysLen then
        let (left, sep, child) := left.rotateRight sep child
        node.setPair (i - 1) left sep child
      else if minKeys < right.keysLen then
        let (child, rightSep, right) := child.rotateLeft rightSep right
        node.setPair i child rightSep right
      else
        node.unite (i - 1) (left.join sep child)
  | none, some (child, sep, right) =>
      if minKeys < right.keysLen then
        let (child, sep, right) := child.rotateLeft sep right
        node.setPair i child sep right
      else
        node.unite i (child.join sep right)
  | none, none => node

end Tree

variable [LT K] [DecidableLT K]

/-- Remove from the entries of one leaf. -/
def removeEntries (key : K) (entries : List (K × V)) :
    Option V × List (K × V) :=
  match binarySearch (entries.map Prod.fst) key with
  | .ok i => (entries[i]?.map Prod.snd, entries.eraseIdx i)
  | .error _ => (none, entries)

namespace Tree

def removeFrom (minKeys : Nat) (key : K) :
    {h : Nat} → Tree L K V h → Option V × Tree L K V h
  | 0, tree =>
      let (removed, body) := removeEntries key tree.body
      (removed, { tree with body })
  | _ + 1, tree =>
      let i := tree.body.childIndex key
      match tree.body.children[i]? with
      | none => (none, tree)
      | some child =>
          let (removed, child) := removeFrom minKeys key child
          let body := tree.body.setChild i child
          if removed.isSome && decide (child.keysLen < minKeys) then
            (removed, { tree with body := rebalance minKeys body i })
          else
            (removed, { tree with body })

end Tree

end Definitions

namespace Hole

variable {K Child : Type} (hole : Hole K Child) (left right : Child) (sep : K)

@[simp]
theorem pair_fillTwo :
    (hole.fillTwo left sep right).pair hole.index = some (left, sep, right) := by
  have even := hole.left_even
  have next : (hole.leftChildren ++ left :: right ::
      hole.rightChildren)[hole.leftChildren.length + 1]? = some right := by
    rw [List.getElem?_append_right (by omega)]
    simp
  simp only [Internal.pair, fillTwo, index, next]
  simp [← even]

@[simp]
theorem setPair_fillTwo (newLeft newRight : Child) (newSep : K) :
    (hole.fillTwo left sep right).setPair hole.index newLeft newSep newRight =
      hole.fillTwo newLeft newSep newRight := by
  have even := hole.left_even
  have keysEq : (hole.leftKeys ++ sep :: hole.rightKeys).set
      hole.leftChildren.length newSep =
        hole.leftKeys ++ newSep :: hole.rightKeys := by
    simp [← even]
  have childrenEq : (hole.leftChildren ++ newLeft :: right ::
      hole.rightChildren).set (hole.leftChildren.length + 1) newRight =
        hole.leftChildren ++ newLeft :: newRight :: hole.rightChildren := by
    rw [List.set_append_right _ _ (by omega)]
    simp
  simp only [Internal.setPair, fillTwo, index, keysEq]
  simp [childrenEq]

@[simp]
theorem unite_fillTwo (child : Child) :
    (hole.fillTwo left sep right).unite hole.index child = hole.fill child := by
  have even := hole.left_even
  have keysEq : (hole.leftKeys ++ sep :: hole.rightKeys).eraseIdx
      hole.leftChildren.length = hole.leftKeys ++ hole.rightKeys := by
    rw [← even, List.eraseIdx_append_of_length_le (by omega)]
    simp
  have childrenEq : (hole.leftChildren ++ left :: right ::
      hole.rightChildren).eraseIdx (hole.leftChildren.length + 1) =
        hole.leftChildren ++ left :: hole.rightChildren := by
    rw [List.eraseIdx_append_of_length_le (by omega)]
    simp
  simp only [Internal.unite, fill, fillTwo, index, keysEq, childrenEq]
  simp

/-- There is no pair at a place without a right neighbour. -/
theorem pair_fill_last (child : Child) (last : hole.rightChildren = []) :
    (hole.fill child).pair hole.index = none := by
  have beyond : (hole.leftChildren ++ child ::
      hole.rightChildren)[hole.leftChildren.length + 1]? = none := by
    simp [last]
  simp only [Internal.pair, fill, index, beyond]
  split
  · contradiction
  · rfl

variable {hole left right sep}

/-- A child of a node with a separator has a sibling. -/
theorem several (positive : 1 ≤ hole.keysLen) :
    0 < hole.index ∨ hole.rightChildren ≠ [] := by
  have leftEven := hole.left_even
  have rightEven := hole.right_even
  simp only [keysLen, index] at *
  rcases Nat.eq_zero_or_pos hole.leftChildren.length with none | some
  · refine .inr ?_
    rintro empty
    simp only [empty, List.length_nil] at rightEven
    omega
  · exact .inl some

theorem pastLeft_inj {other : Hole K Child} {otherLeft : Child} {otherSep : K}
    (equal : hole.pastLeft left sep = other.pastLeft otherLeft otherSep) :
    left = otherLeft := by
  have children := congrArg leftChildren equal
  exact List.singleton_inj.mp (List.append_inj' children rfl).2

theorem beforeRight_inj {other : Hole K Child} {otherRight : Child}
    {otherSep : K}
    (equal : hole.beforeRight sep right = other.beforeRight otherSep otherRight) :
    right = otherRight := by
  have children := congrArg rightChildren equal
  exact (List.cons.inj children).1

end Hole

section Siblings

variable {L K V : Type} {h : Nat}

namespace Tree

theorem rotateRight_leaf {left right : Tree L K V 0} {sep : K}
    {front : List (K × V)} {last : K × V} (bodyEq : left.body = front ++ [last]) :
    left.rotateRight sep right =
      ({ left with body := front }, last.1,
        { right with body := last :: right.body }) := by
  simp [rotateRight, bodyEq]

theorem rotateRight_node {left right : Tree L K V (h + 1)} {sep newSep : K}
    {keys : List K} {children : List (Tree L K V h)} {moved : Tree L K V h}
    (bodyEq : left.body = ⟨keys ++ [newSep], children ++ [moved]⟩) :
    left.rotateRight sep right =
      ({ left with body := ⟨keys, children⟩ }, newSep,
        { right with body :=
          ⟨sep :: right.body.keys, moved :: right.body.children⟩ }) := by
  simp [rotateRight, bodyEq]

theorem rotateLeft_leaf {left right : Tree L K V 0} {sep : K}
    {first next : K × V} {rest : List (K × V)}
    (bodyEq : right.body = first :: next :: rest) :
    left.rotateLeft sep right =
      ({ left with body := left.body ++ [first] }, next.1,
        { right with body := next :: rest }) := by
  simp only [rotateLeft, bodyEq]

theorem rotateLeft_node {left right : Tree L K V (h + 1)} {sep newSep : K}
    {keys : List K} {children : List (Tree L K V h)} {moved : Tree L K V h}
    (bodyEq : right.body = ⟨newSep :: keys, moved :: children⟩) :
    left.rotateLeft sep right =
      ({ left with body :=
          ⟨left.body.keys ++ [sep], left.body.children ++ [moved]⟩ },
        newSep, { right with body := ⟨keys, children⟩ }) := by
  simp only [rotateLeft, bodyEq]

/-- The last entry of a leaf that has a spare one. -/
theorem exists_last {tree : Tree L K V 0} (spare : 1 < tree.keysLen) :
    ∃ front last, tree.body = front ++ [last] ∧ front ≠ [] := by
  simp only [keysLen] at spare
  rcases List.eq_nil_or_concat' tree.body with empty | ⟨front, last, bodyEq⟩
  · simp [empty] at spare
  · refine ⟨front, last, bodyEq, ?_⟩
    rintro rfl
    simp [bodyEq] at spare

/-- The first two entries of a leaf that has a spare one. -/
theorem exists_first {tree : Tree L K V 0} (spare : 1 < tree.keysLen) :
    ∃ first next rest, tree.body = first :: next :: rest := by
  obtain ⟨label, entries⟩ := tree
  simp only [keysLen] at spare
  rcases entries with _ | ⟨first, _ | ⟨next, rest⟩⟩
  · simp at spare
  · simp at spare
  · exact ⟨first, next, rest, rfl⟩

/-- The last separator and child of a forked node. -/
theorem exists_last_child {tree : Tree L K V (h + 1)}
    (forked : tree.body.Forked) (spare : 0 < tree.keysLen) :
    ∃ keys newSep children moved,
      tree.body = ⟨keys ++ [newSep], children ++ [moved]⟩ ∧
        (⟨keys, children⟩ : Internal K (Tree L K V h)).Forked := by
  obtain ⟨label, keys, children⟩ := tree
  simp only [keysLen, Internal.Forked] at spare forked
  rcases List.eq_nil_or_concat' keys with rfl | ⟨keys, newSep, rfl⟩
  · simp at spare
  · rcases List.eq_nil_or_concat' children with rfl | ⟨children, moved, rfl⟩
    · simp at forked
    · exact ⟨keys, newSep, children, moved, rfl,
        by simpa [Internal.Forked] using forked⟩

/-- The first separator and child of a forked node. -/
theorem exists_first_child {tree : Tree L K V (h + 1)}
    (forked : tree.body.Forked) (spare : 0 < tree.keysLen) :
    ∃ newSep keys moved children,
      tree.body = ⟨newSep :: keys, moved :: children⟩ ∧
        (⟨keys, children⟩ : Internal K (Tree L K V h)).Forked := by
  obtain ⟨label, keys, children⟩ := tree
  simp only [keysLen, Internal.Forked] at spare forked
  cases keys with
  | nil => simp at spare
  | cons newSep keys =>
      cases children with
      | nil => simp at forked
      | cons moved children =>
          exact ⟨newSep, keys, moved, children, rfl,
            by simpa [Internal.Forked] using forked⟩

/-- What a rotation gives back: the same marks up to one separator, and two
siblings of legal occupancy. -/
structure Repaired [LE K] [LT K] (order minKeys : Nat) (left : Tree L K V h) (sep : K)
    (right : Tree L K V h) (result : Tree L K V h × K × Tree L K V h) :
    Prop where
  restructures : Mark.Restructures (left.marks ++ .separator sep :: right.marks)
    (result.1.marks ++ .separator result.2.1 :: result.2.2.marks)
  leftSized : result.1.Sized order minKeys minKeys
  rightSized : result.2.2.Sized order minKeys minKeys

variable {order minKeys : Nat} {left right : Tree L K V h}

/-- Two siblings with few enough keys between them fit in one node. -/
theorem join_sized (sep : K) {leftLeast rightLeast : Nat}
    (leftSized : left.Sized order minKeys leftLeast)
    (rightSized : right.Sized order minKeys rightLeast)
    (enough : minKeys ≤ left.keysLen + right.keysLen)
    (below : left.keysLen + right.keysLen + 1 < order) :
    (left.join sep right).Sized order minKeys minKeys := by
  cases h with
  | zero =>
      simp only [keysLen] at enough below
      simp only [join, Sized, List.length_append]
      omega
  | succ h =>
      simp only [keysLen] at enough below
      have leftForked := leftSized.forked
      have rightForked := rightSized.forked
      simp only [Internal.Forked] at leftForked rightForked
      refine ⟨?_, ?_, ?_, fun child member => ?_⟩
      · simp only [join, List.length_append, List.length_cons]
        omega
      · simp only [join, List.length_append, List.length_cons]
        omega
      · simp only [join, Internal.Forked, List.length_append, List.length_cons]
        omega
      · rcases List.mem_append.mp member with member | member
        · exact leftSized.children child member
        · exact rightSized.children child member

variable [Preorder K] {sep : K}

theorem rotateRight_repaired (positive : 1 ≤ minKeys)
    (leftSized : left.Sized order minKeys minKeys)
    (spare : minKeys < left.keysLen)
    (rightSized : right.Sized order minKeys (minKeys - 1))
    (poor : right.keysLen < minKeys) :
    Repaired order minKeys left sep right (left.rotateRight sep right) := by
  cases h with
  | zero =>
      have several : 1 < left.keysLen := by omega
      obtain ⟨front, last, bodyEq, nonempty⟩ := exists_last several
      rw [rotateRight_leaf bodyEq]
      obtain ⟨leftEnough, leftBelow⟩ := leftSized
      obtain ⟨rightEnough, rightBelow⟩ := rightSized
      simp only [keysLen] at spare poor
      simp only [bodyEq, List.length_append, List.length_singleton]
        at spare leftBelow
      refine ⟨?_, ⟨by dsimp only; omega, by dsimp only; omega⟩,
        ⟨by simp; omega, by simp; omega⟩⟩
      have drop : Mark.Restructures
          (Mark.ofEntries left.body ++ .separator sep ::
            Mark.ofEntries right.body)
          (Mark.ofEntries (front ++ last :: right.body)) := by
        refine .of_sublist ?_ (by simp [bodyEq])
        simp only [bodyEq, Mark.ofEntries_append, Mark.ofEntries_cons,
          Mark.ofEntries_nil, List.append_assoc, List.singleton_append]
        exact ((List.sublist_cons_self _ _).cons_cons _).append_left _
      exact drop.trans (Mark.restructures_cut nonempty)
  | succ h =>
      have several : 0 < left.keysLen := by omega
      obtain ⟨keys, newSep, children, moved, bodyEq, forked⟩ :=
        exists_last_child leftSized.forked several
      obtain ⟨-, leftBelow, -, leftChildren⟩ := leftSized
      obtain ⟨rightEnough, -, rightForked, rightChildren⟩ := rightSized
      rw [rotateRight_node bodyEq]
      simp only [keysLen, bodyEq, List.length_append, List.length_singleton]
        at spare leftBelow poor leftChildren
      refine ⟨?_, ⟨by simp; omega, by simp; omega, forked, ?_⟩,
        ⟨by simp; omega, by simp; omega, ?_, ?_⟩⟩
      · rw [marks_node left, bodyEq, Internal.treeMarks_concat newSep moved forked]
        simp only [marks_node, Internal.treeMarks_cons, List.append_assoc,
          List.cons_append]
        exact .refl _
      · intro child member
        exact leftChildren child (by simp [member])
      · simpa [Internal.Forked] using rightForked
      · intro child member
        rcases List.mem_cons.mp member with rfl | member
        · exact leftChildren child (by simp)
        · exact rightChildren child member

theorem rotateLeft_repaired (positive : 1 ≤ minKeys)
    (leftSized : left.Sized order minKeys (minKeys - 1))
    (poor : left.keysLen < minKeys)
    (rightSized : right.Sized order minKeys minKeys)
    (spare : minKeys < right.keysLen) :
    Repaired order minKeys left sep right (left.rotateLeft sep right) := by
  cases h with
  | zero =>
      have several : 1 < right.keysLen := by omega
      obtain ⟨first, next, rest, bodyEq⟩ := exists_first several
      rw [rotateLeft_leaf bodyEq]
      obtain ⟨leftEnough, leftBelow⟩ := leftSized
      obtain ⟨rightEnough, rightBelow⟩ := rightSized
      simp only [keysLen] at spare poor
      simp only [bodyEq, List.length_cons] at spare rightBelow
      refine ⟨?_, ⟨by simp; omega, by simp; omega⟩,
        ⟨by simp; omega, by simp; omega⟩⟩
      have drop : Mark.Restructures
          (Mark.ofEntries left.body ++ .separator sep ::
            Mark.ofEntries right.body)
          (Mark.ofEntries ((left.body ++ [first]) ++ next :: rest)) := by
        refine .of_sublist ?_ (by simp [bodyEq])
        simp only [bodyEq, Mark.ofEntries_append, Mark.ofEntries_cons,
          List.append_assoc, List.singleton_append]
        exact (List.sublist_cons_self _ _).append_left _
      exact drop.trans (Mark.restructures_cut (by simp))
  | succ h =>
      have several : 0 < right.keysLen := by omega
      obtain ⟨newSep, keys, moved, children, bodyEq, forked⟩ :=
        exists_first_child rightSized.forked several
      obtain ⟨-, rightBelow, -, rightChildren⟩ := rightSized
      obtain ⟨leftEnough, -, leftForked, leftChildren⟩ := leftSized
      rw [rotateLeft_node bodyEq]
      simp only [keysLen, bodyEq, List.length_cons]
        at spare rightBelow poor rightChildren
      refine ⟨?_, ⟨by simp; omega, by simp; omega, ?_, ?_⟩,
        ⟨by simp; omega, by simp; omega, forked, ?_⟩⟩
      · simp only [marks_node, bodyEq, Internal.treeMarks_cons,
          Internal.treeMarks_concat sep moved leftForked, List.append_assoc,
          List.cons_append]
        exact .refl _
      · simpa [Internal.Forked] using leftForked
      · intro child member
        rcases List.mem_append.mp member with member | member
        · exact leftChildren child member
        · exact rightChildren child (by simp_all)
      · intro child member
        exact rightChildren child (by simp [member])

theorem join_restructures {least : Nat}
    (leftSized : left.Sized order minKeys least) :
    Mark.Restructures (left.marks ++ .separator sep :: right.marks)
      (left.join sep right).marks := by
  cases h with
  | zero =>
      refine .of_sublist ?_ (by simp [join, marks])
      simp only [join, marks, Mark.ofEntries_append]
      exact (List.sublist_cons_self _ _).append_left _
  | succ h =>
      have whole : left.marks ++ .separator sep :: right.marks =
          (left.join sep right).marks :=
        Internal.treeMarks_cut rfl rfl leftSized.forked
      rw [whole]
      exact .refl _

end Tree

end Siblings

section Rebalancing

variable {L K V : Type} {h : Nat}

/-- What repairing the child in a hole can do. -/
inductive Rebalanced (minKeys : Nat) (hole : Hole K (Tree L K V h))
    (child : Tree L K V h) : Internal K (Tree L K V h) → Prop
  | fromLeft {wide : Hole K (Tree L K V h)} {left : Tree L K V h} {sep : K}
      (place : hole = wide.pastLeft left sep) (spare : minKeys < left.keysLen) :
      Rebalanced minKeys hole child
        (wide.fillTwo (left.rotateRight sep child).1
          (left.rotateRight sep child).2.1 (left.rotateRight sep child).2.2)
  | fromRight {wide : Hole K (Tree L K V h)} {sep : K} {right : Tree L K V h}
      (place : hole = wide.beforeRight sep right)
      (spare : minKeys < right.keysLen)
      (poor : ∀ other left leftSep, hole = Hole.pastLeft other left leftSep →
        left.keysLen ≤ minKeys) :
      Rebalanced minKeys hole child
        (wide.fillTwo (child.rotateLeft sep right).1
          (child.rotateLeft sep right).2.1 (child.rotateLeft sep right).2.2)
  | intoLeft {wide : Hole K (Tree L K V h)} {left : Tree L K V h} {sep : K}
      (place : hole = wide.pastLeft left sep) (poor : left.keysLen ≤ minKeys)
      (poorRight : ∀ other rightSep right,
        hole = Hole.beforeRight other rightSep right → right.keysLen ≤ minKeys) :
      Rebalanced minKeys hole child (wide.fill (left.join sep child))
  | intoRight {wide : Hole K (Tree L K V h)} {sep : K} {right : Tree L K V h}
      (place : hole = wide.beforeRight sep right) (first : hole.index = 0)
      (poor : right.keysLen ≤ minKeys) :
      Rebalanced minKeys hole child (wide.fill (child.join sep right))

/-- Only the sibling counts decide how a child is repaired. -/
theorem Tree.rebalance_rebalanced (minKeys : Nat) (hole : Hole K (Tree L K V h))
    (child : Tree L K V h)
    (several : 0 < hole.index ∨ hole.rightChildren ≠ []) :
    Rebalanced minKeys hole child
      (rebalance minKeys (hole.fill child) hole.index) := by
  by_cases first : hole.index = 0
  · have more : hole.rightChildren ≠ [] := several.resolve_left (by omega)
    obtain ⟨wide, sep, right, place⟩ := Hole.exists_right more
    have pairEq : (hole.fill child).pair hole.index = some (child, sep, right) := by
      simp [place, Hole.beforeRight_fill]
    have noLeft : ∀ other left leftSep,
        hole = Hole.pastLeft other left leftSep → left.keysLen ≤ minKeys := by
      rintro other left leftSep equal
      simp [equal] at first
    rw [rebalance, pairEq, if_neg (by omega)]
    dsimp only
    split_ifs with spare
    · have repaired : Rebalanced minKeys hole child _ :=
        .fromRight place spare noLeft
      simpa [place, Hole.beforeRight_fill] using repaired
    · have repaired : Rebalanced minKeys hole child _ :=
        .intoRight place first (Nat.le_of_not_lt spare)
      simpa [place, Hole.beforeRight_fill] using repaired
  · have positive : 0 < hole.index := by omega
    obtain ⟨wide, left, sep, place⟩ := Hole.exists_left positive
    have leftEq : (hole.fill child).pair (hole.index - 1) =
        some (left, sep, child) := by
      simp [place, Hole.pastLeft_fill]
    have rotated (spare : minKeys < left.keysLen) :
        Rebalanced minKeys hole child ((hole.fill child).setPair (hole.index - 1)
          (left.rotateRight sep child).1 (left.rotateRight sep child).2.1
          (left.rotateRight sep child).2.2) := by
      have repaired : Rebalanced minKeys hole child _ := .fromLeft place spare
      simpa [place, Hole.pastLeft_fill] using repaired
    have united (poor : left.keysLen ≤ minKeys)
        (poorRight : ∀ other rightSep right,
          hole = Hole.beforeRight other rightSep right →
            right.keysLen ≤ minKeys) :
        Rebalanced minKeys hole child
          ((hole.fill child).unite (hole.index - 1) (left.join sep child)) := by
      have repaired : Rebalanced minKeys hole child _ :=
        .intoLeft place poor poorRight
      simpa [place, Hole.pastLeft_fill] using repaired
    rw [rebalance, if_pos positive, leftEq]
    by_cases more : hole.rightChildren = []
    · rw [hole.pair_fill_last child more]
      dsimp only
      split_ifs with spare
      · exact rotated spare
      · refine united (Nat.le_of_not_lt spare) ?_
        rintro other rightSep right equal
        simp [equal, Hole.beforeRight] at more
    · obtain ⟨other, rightSep, right, rightPlace⟩ := Hole.exists_right more
      have pairEq : (hole.fill child).pair hole.index =
          some (child, rightSep, right) := by
        simp [rightPlace, Hole.beforeRight_fill]
      rw [pairEq]
      dsimp only
      split_ifs with spare rightSpare
      · exact rotated spare
      · have poor : ∀ another far farSep,
            hole = Hole.pastLeft another far farSep → far.keysLen ≤ minKeys := by
          rintro another far farSep equal
          rw [← Hole.pastLeft_inj (place.symm.trans equal)]
          exact Nat.le_of_not_lt spare
        have repaired : Rebalanced minKeys hole child _ :=
          .fromRight rightPlace rightSpare poor
        simpa [rightPlace, Hole.beforeRight_fill] using repaired
      · refine united (Nat.le_of_not_lt spare) ?_
        rintro another farSep far equal
        rw [← Hole.beforeRight_inj (rightPlace.symm.trans equal)]
        exact Nat.le_of_not_lt rightSpare

namespace Rebalanced

variable {order minKeys : Nat} {hole : Hole K (Tree L K V h)}
  {child : Tree L K V h} {node : Internal K (Tree L K V h)}

/-- Repairing a child restructures the marks of its parent. -/
theorem restructures [Preorder K] (rebalanced : Rebalanced minKeys hole child node)
    (positive : 1 ≤ minKeys)
    (siblings : ∀ sibling ∈ hole.others, sibling.Sized order minKeys minKeys)
    (childSized : child.Sized order minKeys (minKeys - 1))
    (poor : child.keysLen < minKeys) :
    Mark.Restructures (hole.fill child).treeMarks node.treeMarks := by
  cases rebalanced with
  | @fromLeft wide left sep place spare =>
      have leftSized := siblings left (by simp [place])
      have repaired : Tree.Repaired order minKeys left sep child _ :=
        Tree.rotateRight_repaired positive leftSized spare childSized poor
      rw [place, Hole.pastLeft_fill, Hole.treeMarks_fillTwo,
        Hole.treeMarks_fillTwo]
      exact repaired.restructures.inside _ _
  | @fromRight wide sep right place spare _ =>
      have rightSized := siblings right (by simp [place])
      have repaired : Tree.Repaired order minKeys child sep right _ :=
        Tree.rotateLeft_repaired positive childSized poor rightSized spare
      rw [place, Hole.beforeRight_fill, Hole.treeMarks_fillTwo,
        Hole.treeMarks_fillTwo]
      exact repaired.restructures.inside _ _
  | @intoLeft wide left sep place _ _ =>
      have leftSized := siblings left (by simp [place])
      rw [place, Hole.pastLeft_fill, Hole.treeMarks_fillTwo, Hole.treeMarks_fill]
      exact (Tree.join_restructures leftSized).inside _ _
  | @intoRight wide sep right place _ _ =>
      rw [place, Hole.beforeRight_fill, Hole.treeMarks_fillTwo,
        Hole.treeMarks_fill]
      exact (Tree.join_restructures childSized).inside _ _

/-- Repairing a child leaves all children with legal occupancy, and costs their
parent at most one separator. -/
theorem children_sized [Preorder K] (rebalanced : Rebalanced minKeys hole child node)
    (positive : 1 ≤ minKeys) (half : 2 * minKeys + 1 ≤ order)
    (siblings : ∀ sibling ∈ hole.others, sibling.Sized order minKeys minKeys)
    (childSized : child.Sized order minKeys (minKeys - 1))
    (poor : child.keysLen < minKeys) :
    (∀ other ∈ node.children, other.Sized order minKeys minKeys) ∧ node.Forked ∧
      node.keys.length ≤ hole.keysLen ∧ hole.keysLen ≤ node.keys.length + 1 := by
  have childEnough := childSized.keysLen
  cases rebalanced with
  | @fromLeft wide left sep place spare =>
      subst place
      simp only [Hole.pastLeft_keysLen, Hole.mem_pastLeft_others] at *
      have repaired : Tree.Repaired order minKeys left sep child _ :=
        Tree.rotateRight_repaired positive (siblings left (.inl rfl)) spare
          childSized poor
      refine ⟨fun other member => ?_, Hole.forked_fillTwo .., ?_, ?_⟩
      · rcases Hole.mem_fillTwo.mp member with (rfl | rfl) | member
        · exact repaired.leftSized
        · exact repaired.rightSized
        · exact siblings other (.inr member)
      · rw [Hole.fillTwo_keys_length]
      · rw [Hole.fillTwo_keys_length]
        omega
  | @fromRight wide sep right place spare _ =>
      subst place
      simp only [Hole.beforeRight_keysLen, Hole.mem_beforeRight_others] at *
      have repaired : Tree.Repaired order minKeys child sep right _ :=
        Tree.rotateLeft_repaired positive childSized poor
          (siblings right (.inl rfl)) spare
      refine ⟨fun other member => ?_, Hole.forked_fillTwo .., ?_, ?_⟩
      · rcases Hole.mem_fillTwo.mp member with (rfl | rfl) | member
        · exact repaired.leftSized
        · exact repaired.rightSized
        · exact siblings other (.inr member)
      · rw [Hole.fillTwo_keys_length]
      · rw [Hole.fillTwo_keys_length]
        omega
  | @intoLeft wide left sep place poorLeft _ =>
      subst place
      simp only [Hole.pastLeft_keysLen, Hole.mem_pastLeft_others] at *
      have leftSized := siblings left (.inl rfl)
      have leftEnough := leftSized.keysLen
      have joined := Tree.join_sized sep leftSized childSized
        (by omega) (by omega)
      refine ⟨fun other member => ?_, Hole.forked_fill .., ?_, ?_⟩
      · rcases Hole.mem_fill.mp member with rfl | member
        · exact joined
        · exact siblings other (.inr member)
      · rw [Hole.fill_keys_length]
        omega
      · rw [Hole.fill_keys_length]
  | @intoRight wide sep right place _ poorRight =>
      subst place
      simp only [Hole.beforeRight_keysLen, Hole.mem_beforeRight_others] at *
      have rightSized := siblings right (.inl rfl)
      have rightEnough := rightSized.keysLen
      have joined := Tree.join_sized sep childSized rightSized
        (by omega) (by omega)
      refine ⟨fun other member => ?_, Hole.forked_fill .., ?_, ?_⟩
      · rcases Hole.mem_fill.mp member with rfl | member
        · exact joined
        · exact siblings other (.inr member)
      · rw [Hole.fill_keys_length]
        omega
      · rw [Hole.fill_keys_length]

/-- A parent with few enough separators keeps its own occupancy. -/
theorem occupied [Preorder K] (rebalanced : Rebalanced minKeys hole child node)
    {least : Nat} (positive : 1 ≤ minKeys) (half : 2 * minKeys + 1 ≤ order)
    (enough : least ≤ hole.keysLen) (below : hole.keysLen < order)
    (siblings : ∀ sibling ∈ hole.others, sibling.Sized order minKeys minKeys)
    (childSized : child.Sized order minKeys (minKeys - 1))
    (poor : child.keysLen < minKeys) :
    node.Occupied order (least - 1) (Tree.Sized order minKeys minKeys) := by
  obtain ⟨children, forked, most, fewest⟩ :=
    rebalanced.children_sized positive half siblings childSized poor
  exact ⟨by omega, by omega, forked, children⟩

end Rebalanced

end Rebalancing

section Relabelling

variable {L M K V Child Other : Type} {h : Nat}

namespace Internal

theorem pair_map (f : Child → Other) (node : Internal K Child) (i : Nat) :
    (node.map f).pair i =
      (node.pair i).map fun pair => (f pair.1, pair.2.1, f pair.2.2) := by
  simp only [pair, map, List.getElem?_map]
  cases node.children[i]? <;> cases node.keys[i]? <;>
    cases node.children[i + 1]? <;> rfl

theorem setPair_map (f : Child → Other) (node : Internal K Child) (i : Nat)
    (left : Child) (sep : K) (right : Child) :
    (node.map f).setPair i (f left) sep (f right) =
      (node.setPair i left sep right).map f := by
  simp [setPair, map, List.map_set]

theorem unite_map (f : Child → Other) (node : Internal K Child) (i : Nat)
    (child : Child) :
    (node.map f).unite i (f child) = (node.unite i child).map f := by
  simp [unite, map, List.map_set, List.eraseIdx_map]

end Internal

namespace Tree

variable (f : L → M) (left right : Tree L K V h) (sep : K)

theorem relabel_rotateRight :
    (left.relabel f).rotateRight sep (right.relabel f) =
      ((left.rotateRight sep right).1.relabel f,
        (left.rotateRight sep right).2.1,
        (left.rotateRight sep right).2.2.relabel f) := by
  cases h with
  | zero =>
      simp only [rotateRight, relabel]
      cases left.body.getLast? <;> rfl
  | succ h =>
      simp only [rotateRight, relabel, Internal.map, List.getLast?_map]
      cases left.body.keys.getLast? <;>
        cases left.body.children.getLast? <;>
        simp

theorem relabel_rotateLeft :
    (left.relabel f).rotateLeft sep (right.relabel f) =
      ((left.rotateLeft sep right).1.relabel f,
        (left.rotateLeft sep right).2.1,
        (left.rotateLeft sep right).2.2.relabel f) := by
  cases h with
  | zero =>
      simp only [rotateLeft, relabel]
      split <;> rfl
  | succ h =>
      obtain ⟨label, keys, children⟩ := right
      simp only [rotateLeft, relabel, Internal.map]
      cases keys <;> cases children <;> simp

theorem relabel_join :
    (left.relabel f).join sep (right.relabel f) =
      (left.join sep right).relabel f := by
  cases h with
  | zero => rfl
  | succ h => simp [join, relabel, Internal.map]

theorem relabel_rebalance (minKeys : Nat) (node : Internal K (Tree L K V h))
    (i : Nat) :
    rebalance minKeys (node.map (relabel f)) i =
      (rebalance minKeys node i).map (relabel f) := by
  have leftEq : (if 0 < i then (node.map (relabel f)).pair (i - 1) else none) =
      (if 0 < i then node.pair (i - 1) else none).map fun pair =>
        (pair.1.relabel f, pair.2.1, pair.2.2.relabel f) := by
    split_ifs
    · exact Internal.pair_map _ _ _
    · rfl
  simp only [rebalance]
  rw [leftEq, Internal.pair_map]
  cases if 0 < i then node.pair (i - 1) else none <;> cases node.pair i <;>
    simp only [Option.map_none, Option.map_some, relabel_keysLen,
      relabel_rotateRight, relabel_rotateLeft, relabel_join,
      Internal.setPair_map, Internal.unite_map]
  all_goals split_ifs <;> rfl

end Tree

end Relabelling

section Leaves

variable {K V : Type} [Preorder K] {key : K} {entries : List (K × V)}

/-- What removing from the entries of a leaf can do. -/
inductive LeafShrinkage (key : K) (entries : List (K × V)) :
    Option V × List (K × V) → Prop
  | removed {before after : List (K × V)} {entry : K × V}
      (split : entries = before ++ entry :: after)
      (below : ∀ earlier ∈ before, earlier.1 < key)
      (same : SameKey entry.1 key)
      (above : ∀ later ∈ after, key < later.1) :
      LeafShrinkage key entries (some entry.2, before ++ after)
  | missing {before after : List (K × V)}
      (split : entries = before ++ after)
      (below : ∀ earlier ∈ before, earlier.1 < key)
      (above : ∀ later ∈ after, key < later.1) :
      LeafShrinkage key entries (none, entries)

theorem removeEntries_shrinkage [Std.IsLinearPreorder K] [DecidableLT K]
    (key : K) (ascending : Ascending entries) :
    LeafShrinkage key entries (removeEntries key entries) := by
  have correct := Entries.search_answer key ascending
  unfold removeEntries
  generalize binarySearch (entries.map Prod.fst) key = answer at correct
  cases correct with
  | @found before after entry split below same above =>
      have shrinkage : LeafShrinkage key entries (some entry.2, before ++ after) :=
        .removed split below same above
      subst split
      simpa [List.eraseIdx_append_of_length_le] using shrinkage
  | missing split below above => exact .missing split below above

theorem LeafShrinkage.updates [DecidableLT K] {result : Option V × List (K × V)}
    (shrinkage : LeafShrinkage key entries result) {before after : List (Mark K V)}
    (ordered : Mark.Ordered (before ++ Mark.ofEntries entries ++ after)) :
    Mark.Updates key (Entries.erase key) before after (Mark.ofEntries entries)
      (Mark.ofEntries result.2) result.1 := by
  cases shrinkage with
  | @removed left right entry split below same above =>
      subst split
      refine ⟨?_, ?_, ?_⟩
      · refine ordered.sublist ?_
        simp only [Mark.ofEntries_append, Mark.ofEntries_cons]
        exact (((List.sublist_cons_self _ _).append_left _).append_left
          _).append_right _
      · have block : Entries.erase key (left ++ [entry] ++ right) =
            left ++ Entries.erase key [entry] ++ right :=
          Entries.erase_block below above
        simpa [Entries.erase_single same] using block.symm
      · have block : Entries.lookup key (left ++ [entry] ++ right) =
            Entries.lookup key [entry] :=
          Entries.lookup_block below above
        simpa [Entries.lookup_single same] using block.symm
  | missing split below above =>
      refine ⟨ordered, ?_, ?_⟩
      · simp [split, Entries.erase_prepend below, Entries.erase_of_above above]
      · simp [split, Entries.lookup_prepend below, Entries.lookup_of_above above]

theorem LeafShrinkage.length {result : Option V × List (K × V)}
    (shrinkage : LeafShrinkage key entries result) :
    entries.length - 1 ≤ result.2.length ∧ result.2.length ≤ entries.length := by
  cases shrinkage with
  | removed split below same above =>
      simp only [split, List.length_append, List.length_cons]
      omega
  | missing split below above => simp

end Leaves

section Trees

variable {L K V : Type} {h : Nat}

namespace Tree

/-- Removal goes into the child that the search takes out. -/
theorem removeFrom_fill [LT K] [DecidableLT K] (minKeys : Nat) (key : K)
    {tree : Tree L K V (h + 1)} {hole : Hole K (Tree L K V h)}
    {child : Tree L K V h} (filled : tree.body = hole.fill child)
    (indexEq : tree.body.childIndex key = hole.index) :
    tree.removeFrom minKeys key =
      ((child.removeFrom minKeys key).1,
        ⟨Labelled.label tree,
          if (child.removeFrom minKeys key).1.isSome ∧
              (child.removeFrom minKeys key).2.keysLen < minKeys then
            rebalance minKeys (hole.fill (child.removeFrom minKeys key).2)
              hole.index
          else
            hole.fill (child.removeFrom minKeys key).2⟩) := by
  rw [removeFrom, indexEq, filled, hole.fill_getElem?]
  simp only [Hole.setChild_fill, Bool.and_eq_true, decide_eq_true_eq]
  split_ifs <;> rfl

/-- Removal does not look at labels. -/
theorem relabel_removeFrom [LT K] [DecidableLT K] {M : Type} (f : L → M)
    (minKeys : Nat) (key : K) (tree : Tree L K V h) :
    (tree.relabel f).removeFrom minKeys key =
      ((tree.removeFrom minKeys key).1,
        (tree.removeFrom minKeys key).2.relabel f) := by
  induction h with
  | zero => rfl
  | succ h ih =>
      have childIndexEq : (tree.body.map (relabel f)).childIndex key =
          tree.body.childIndex key := rfl
      have childrenEq : (tree.body.map (relabel f)).children =
          tree.body.children.map (relabel f) := rfl
      have setEq (i : Nat) (child : Tree L K V h) :
          (tree.body.map (relabel f)).setChild i (child.relabel f) =
            (tree.body.setChild i child).map (relabel f) := by
        simp [Internal.setChild, Internal.map, List.map_set]
      rw [removeFrom, removeFrom, relabel_body, childIndexEq, childrenEq,
        List.getElem?_map]
      cases tree.body.children[tree.body.childIndex key]? with
      | none => rfl
      | some child =>
          simp only [Option.map_some, ih, relabel_keysLen, setEq,
            relabel_rebalance]
          split_ifs <;> rfl

/-- A tree without the key is left as it is. -/
theorem removeFrom_none [LT K] [DecidableLT K] {minKeys : Nat} {key : K}
    {tree : Tree L K V h} (absent : (tree.removeFrom minKeys key).1 = none) :
    (tree.removeFrom minKeys key).2 = tree := by
  induction h with
  | zero =>
      simp only [removeFrom, removeEntries] at absent ⊢
      generalize binarySearch (tree.body.map Prod.fst) key = answer at absent ⊢
      cases answer with
      | error i => rfl
      | ok i =>
          have outside : tree.body.length ≤ i := by simpa using absent
          simp [List.eraseIdx_of_length_le outside]
  | succ h ih =>
      rw [removeFrom] at absent ⊢
      cases found : tree.body.children[tree.body.childIndex key]? with
      | none => rfl
      | some child =>
          simp only [found] at absent ⊢
          have childAbsent : (child.removeFrom minKeys key).1 = none := by
            split_ifs at absent <;> exact absent
          simp [childAbsent, ih childAbsent, Internal.setChild_self found]

variable [Preorder K] [Std.IsLinearPreorder K] [DecidableLT K]
variable {order minKeys least : Nat} (key : K) {tree : Tree L K V h}

/-- What is left of a tree lacks at most one key of its least count. -/
theorem removeFrom_sized (positive : 1 ≤ minKeys)
    (half : 2 * minKeys + 1 ≤ order) (sized : tree.Sized order minKeys least)
    (ordered : Mark.Ordered tree.marks) (inner : min h 1 ≤ least) :
    (tree.removeFrom minKeys key).2.Sized order minKeys (least - 1) := by
  induction h generalizing least with
  | zero =>
      have ascending : Ascending tree.body := by
        rw [← entries_leaf tree]
        exact ordered.ascending
      have lengths := (removeEntries_shrinkage key ascending).length
      obtain ⟨enough, below⟩ := sized
      simp only [removeFrom, Sized]
      omega
  | succ h ih =>
      obtain ⟨hole, child, filled, indexEq, -, -⟩ :=
        route (Internal.Occupied.forked sized) ordered key
      have childSized := sized.child filled
      have shrunk := ih childSized (ordered_child filled ordered) (by omega)
      obtain ⟨enough, below, siblings⟩ := sized.around filled
      rw [removeFrom_fill minKeys key filled indexEq]
      dsimp only
      split_ifs with poor
      · have repaired := rebalance_rebalanced minKeys hole
          (child.removeFrom minKeys key).2 (Hole.several (by omega))
        exact repaired.occupied positive half enough below siblings shrunk poor.2
      · refine Hole.occupied_fill (by omega) below siblings ?_
        cases removed : (child.removeFrom minKeys key).1 with
        | none => rwa [removeFrom_none removed]
        | some value =>
            exact shrunk.mono (by simpa [removed] using poor)

/-- Removal from a tree is removal from its entries, and the marks stay in
order inside any surroundings that the key fits in. -/
theorem removeFrom_updates (positive : 1 ≤ minKeys)
    (half : 2 * minKeys + 1 ≤ order) (sized : tree.Sized order minKeys least)
    (inner : min h 1 ≤ least) {before after : List (Mark K V)}
    (ordered : Mark.Ordered (before ++ tree.marks ++ after)) :
    Mark.Updates key (Entries.erase key) before after tree.marks
      (tree.removeFrom minKeys key).2.marks (tree.removeFrom minKeys key).1 := by
  have own := (Mark.ordered_append.mp (Mark.ordered_append.mp ordered).1).2.1
  induction h generalizing least before after with
  | zero =>
      have ascending : Ascending tree.body := by
        rw [← entries_leaf tree]
        exact own.ascending
      exact (removeEntries_shrinkage key ascending).updates ordered
  | succ h ih =>
      obtain ⟨hole, child, filled, indexEq, left, right⟩ :=
        route (Internal.Occupied.forked sized) own key
      have childSized := sized.child filled
      have childOrdered := ordered_child filled own
      have shrunk :=
        removeFrom_sized key positive half childSized childOrdered (by omega)
      obtain ⟨enough, below, siblings⟩ := sized.around filled
      have marksEq := marks_fill filled
      have updates : Mark.Updates key (Entries.erase key) before after
          (hole.leftMarks ++ child.marks ++ hole.rightMarks)
          (hole.leftMarks ++ (child.removeFrom minKeys key).2.marks ++
            hole.rightMarks) (child.removeFrom minKeys key).1 := by
        refine Mark.Updates.inside ?_ Entries.localAt_erase left right
        refine ih childSized (by omega) ?_ childOrdered
        rw [marksEq] at ordered
        simpa only [List.append_assoc] using ordered
      rw [← hole.treeMarks_fill (child.removeFrom minKeys key).2] at updates
      rw [removeFrom_fill minKeys key filled indexEq, marksEq, marks_node]
      dsimp only
      split_ifs with poor
      · have repaired := rebalance_rebalanced minKeys hole
          (child.removeFrom minKeys key).2 (Hole.several (by omega))
        exact updates.restructured
          (repaired.restructures positive siblings shrunk poor.2)
      · exact updates

end Tree

end Trees

end IndexDb
