import IndexDb.Library.Amortised
import IndexDb.Merges
import IndexDb.Splits

/-!
# Turnover of nodes

A single call may split or merge every node on a path.  When the order is even, a half
that a split leaves is no full node away from the next merge, and a merged node none
away from the next split, so over a run the slots taken and given back stay within two
for each insertion and one for each removal.  The potential is on the nodes that are
full, or have only the minimum.
-/

namespace IndexDb

/-- What a node with so many keys has saved up. -/
def rootStrain (order count : Nat) : Nat :=
  if count + 1 = order then 2 else 0

/-- A node below the root also saves when it is near a merge. -/
def strain (order count : Nat) : Nat :=
  if count < leastKeys order then 2
  else if count = leastKeys order then 1
  else rootStrain order count

/-- How a node that gains or loses a key is weighed. -/
structure Gauge (order drop : Nat) (weigh : Nat → Nat) : Prop where
  full : weigh (order - 1) = 2
  grows : ∀ count, count + 1 < order → weigh (count + 1) ≤ weigh count + 2
  shrinks : ∀ count, count + 1 < order → weigh count ≤ weigh (count + 1) + drop
  slight : drop ≤ 1

section Strains

variable {order : Nat}

theorem gauge_root (large : 3 ≤ order) : Gauge order 0 (rootStrain order) := by
  constructor
  · unfold rootStrain
    split_ifs <;> omega
  · intro count inside
    unfold rootStrain
    split_ifs <;> omega
  · intro count inside
    unfold rootStrain
    split_ifs <;> omega
  · omega

theorem leastKeys_even (large : 3 ≤ order) (even : Even order) :
    2 * (leastKeys order + 1) = order := by
  obtain ⟨half, rfl⟩ := even
  unfold leastKeys
  omega

variable (large : 3 ≤ order) (even : Even order)
include large even

theorem gauge_strain : Gauge order 1 (strain order) := by
  have least := leastKeys_even large even
  constructor
  · unfold strain rootStrain
    split_ifs <;> omega
  · intro count inside
    unfold strain rootStrain
    split_ifs <;> omega
  · intro count inside
    unfold strain rootStrain
    split_ifs <;> omega
  · omega

theorem rootStrain_le (count : Nat) : rootStrain order count ≤ strain order count := by
  have least := leastKeys_even large even
  unfold strain rootStrain
  split_ifs <;> omega

/-- The half of a node that a split leaves is near neither bound. -/
theorem strain_half : strain order (order / 2) = 0 := by
  have least := leastKeys_even large even
  unfold strain rootStrain
  split_ifs <;> omega

/-- A key moves over from a node that has one to spare. -/
theorem strain_borrow {rich poor : Nat} (spare : leastKeys order ≤ rich)
    (inside : rich + 1 < order) (short : poor + 1 = leastKeys order) :
    strain order rich + strain order (poor + 1) ≤
      strain order (rich + 1) + strain order poor := by
  have least := leastKeys_even large even
  unfold strain rootStrain
  split_ifs <;> omega

/-- Two nodes with few keys make one that is near neither bound, or has the least. -/
theorem strain_join {poor joined : Nat} (short : poor + 1 = leastKeys order)
    (atLeast : poor + leastKeys order ≤ joined)
    (atMost : joined ≤ poor + leastKeys order + 1) :
    strain order joined + 2 ≤ strain order poor + strain order (leastKeys order) := by
  have least := leastKeys_even large even
  have positive := leastKeys_pos large
  unfold strain rootStrain
  split_ifs <;> omega

end Strains

theorem strain_le (order count : Nat) : strain order count ≤ 2 := by
  unfold strain rootStrain
  split_ifs <;> omega

section Weights

variable {Id K V : Type} {order : Nat}

/-- What nodes have saved up together. -/
def Cells.strain (order : Nat) (cells : Cells Id (Node Id K V)) : Nat :=
  (cells.map fun cell => IndexDb.strain order cell.2.keysLen).sum

@[simp]
theorem Cells.strain_append (first second : Cells Id (Node Id K V)) :
    Cells.strain order (first ++ second) = first.strain order + second.strain order := by
  simp [strain]

theorem Cells.strain_le (cells : Cells Id (Node Id K V)) :
    cells.strain order ≤ 2 * cells.length := by
  induction cells with
  | nil => simp [strain]
  | cons cell cells ih =>
      have one := IndexDb.strain_le order cell.2.keysLen
      simp only [strain, List.map_cons, List.sum_cons, List.length_cons] at ih ⊢
      omega

theorem Tree.strain_cells {h : Nat} (tree : Tree Id K V h) :
    Cells.strain order tree.cells = strain order tree.keysLen + tree.below.strain order := by
  rw [cells_eq, ← node_keysLen]
  rfl

/-- The key counts at the top of what an insertion leaves, weighed; a split also gives
its parent a key. -/
def Grown.tops {T : Type} (order : Nat) (weigh : Nat → Nat) (keysLen : T → Nat) :
    Grown T K V → Nat
  | .replaced _ tree | .done tree => weigh (keysLen tree)
  | .split left _ right => strain order (keysLen left) + strain order (keysLen right) + 2

namespace Grown

variable {h : Nat} (label fresh : Id) (weigh : Nat → Nat)

theorem place_tops (grown : Grown (Internal K (Tree Id K V h)) K V) :
    (grown.place label fresh).tops order weigh (Tree.keysLen (h := h + 1)) =
      grown.tops order weigh fun node => node.keys.length := by
  cases grown <;> rfl

theorem place_below (grown : Grown (Internal K (Tree Id K V h)) K V) :
    (grown.place label fresh).gather (Tree.below (h := h + 1)) =
      grown.gather (Internal.gather Tree.cells) := by
  cases grown <;> rfl

theorem strain_cells (grown : Grown (Tree Id K V h) K V) :
    Cells.strain order (grown.gather Tree.cells) + 2 * grown.isSplit.toNat =
      grown.tops order (strain order) Tree.keysLen +
        Cells.strain order (grown.gather Tree.below) := by
  cases grown with
  | replaced old tree => exact tree.strain_cells
  | done tree => exact tree.strain_cells
  | split left sep right =>
      simp only [gather, tops, isSplit, Cells.strain_append, Tree.strain_cells,
        Bool.toNat_true]
      omega

end Grown

end Weights

section Insertion

variable {Id K V : Type} {h order minKeys least drop : Nat} {weigh : Nat → Nat}
  (large : 3 ≤ order) (even : Even order)
include large even

/-- A node pays for its own split, and takes two for each key it gains. -/
theorem Internal.absorb_tops {Child : Type} (gauge : Gauge order drop weigh)
    {hole : Hole K Child} (below : hole.keysLen < order) (old : Child)
    (grown : Grown Child K V) :
    ((hole.fill old).absorb order hole.index grown).isSplit.toNat +
        ((hole.fill old).absorb order hole.index grown).tops order weigh
          (fun node => node.keys.length) ≤
      weigh hole.keysLen + 2 * grown.isSplit.toNat := by
  cases grown with
  | replaced value child =>
      simp only [absorb, Hole.setChild_fill, Grown.tops, hole.fill_keys_length]
      exact Nat.le_of_eq (Nat.add_comm _ _)
  | done child =>
      simp only [absorb, Hole.setChild_fill, Grown.tops, hole.fill_keys_length]
      exact Nat.le_of_eq (Nat.add_comm _ _)
  | split left sep right =>
      simp only [absorb, Hole.link_fill, hole.fillTwo_keys_length]
      by_cases fits : hole.keysLen + 1 < order
      · rw [if_pos fits]
        have grows := gauge.grows hole.keysLen fits
        simp only [Grown.tops, hole.fillTwo_keys_length, Grown.isSplit, Bool.toNat_true,
          Bool.toNat_false]
        omega
      · have fullEq : hole.keysLen = order - 1 := by omega
        obtain ⟨leftHalf, median, rightHalf, halves, keysEq, -, -, -, middle⟩ :=
          halve_eq (hole.forked_fillTwo left sep right) (by simp [Hole.fillTwo])
        have lengths := congrArg List.length keysEq
        simp only [hole.fillTwo_keys_length, List.length_append, List.length_cons]
          at lengths middle
        have wideEq : hole.keysLen + 1 = order := by omega
        rw [wideEq] at middle
        have least := leastKeys_even large even
        have rightEq : rightHalf.keys.length = leastKeys order := by omega
        have rightStrain : strain order (leastKeys order) = 1 := by simp [strain]
        rw [if_neg fits, halves, fullEq, gauge.full]
        simp only [Grown.tops, middle, rightEq, rightStrain, strain_half large even,
          Grown.isSplit, Bool.toNat_true]
        omega

variable [Preorder K]

/-- What an insertion into a leaf leaves, weighed. -/
theorem LeafGrowth.tops (gauge : Gauge order drop weigh) {key : K} {value : V}
    {entries : List (K × V)} {grown : Grown (List (K × V)) K V}
    (growth : LeafGrowth order key value entries grown) (below : entries.length < order) :
    grown.isSplit.toNat + grown.tops order weigh List.length ≤
      weigh entries.length + 2 := by
  cases growth with
  | replaced split _ _ _ =>
      simp only [Grown.isSplit, Grown.tops, split, List.length_append, List.length_cons,
        Bool.toNat_false]
      omega
  | @done before after split _ _ fits =>
      have grows := gauge.grows entries.length (by
        simpa [split, Nat.add_assoc] using fits)
      have lengthEq : (before ++ (key, value) :: after).length = entries.length + 1 := by
        simp [split, Nat.add_assoc]
      simp only [Grown.isSplit, Grown.tops, lengthEq, Bool.toNat_false]
      omega
  | @halved before after left right next split _ _ full cut middle =>
      have lengthEq : (before ++ (key, value) :: after).length = entries.length + 1 := by
        simp [split, Nat.add_assoc]
      have parts := congrArg List.length cut
      rw [lengthEq] at full middle parts
      simp only [List.length_append, List.length_cons] at parts
      have wideEq : entries.length + 1 = order := by omega
      have fullEq : entries.length = order - 1 := by omega
      have least := leastKeys_even large even
      have leftEq : left.length = order / 2 := by rw [middle, wideEq]
      have rightEq : right.length + 1 = order / 2 := by omega
      simp only [Grown.isSplit, Grown.tops, List.length_cons, leftEq, rightEq,
        strain_half large even, Bool.toNat_true, fullEq, gauge.full]
      omega

variable [Std.IsLinearPreorder K] [DecidableLT K]

namespace Tree

variable (fresh : Nat → Id) (key : K) (value : V) {tree : Tree Id K V h}

/-- Insertion pays for its splits, up to two. -/
theorem insertInto_pays (gauge : Gauge order drop weigh)
    (sized : tree.Sized order minKeys least) (ordered : Mark.Ordered tree.marks) :
    tree.splits order key value +
        (tree.insertInto fresh order key value).tops order weigh keysLen +
        Cells.strain order ((tree.insertInto fresh order key value).gather below) ≤
      weigh tree.keysLen + tree.below.strain order + 2 := by
  induction h generalizing least weigh drop with
  | zero =>
      have ascending : Ascending tree.body := by
        rw [← entries_leaf tree]
        exact ordered.ascending
      have growth := insertEntries_growth order key value ascending
      have tops := growth.tops large even gauge sized.2
      rw [splits, insertInto]
      generalize insertEntries order key value tree.body = grown at tops ⊢
      cases grown <;> exact tops
  | succ h ih =>
      obtain ⟨hole, child, filled, indexEq, -, -⟩ :=
        route (Internal.Occupied.forked sized) ordered key
      have inner := ih (gauge_strain large even) (sized.child filled)
        (ordered_child filled ordered)
      have tops := Internal.absorb_tops large even gauge (sized.around filled).2.1 child
        (child.insertInto fresh order key value)
      have gathered := Internal.absorb_gather cells order hole child
        (child.insertInto fresh order key value)
      have keysEq : tree.keysLen = hole.keysLen := by
        rw [keysLen, filled, hole.fill_keys_length]
      have belowEq : tree.below = hole.leftChildren.flatMap cells ++ child.cells ++
          hole.rightChildren.flatMap cells := by
        rw [below, filled, hole.gather_fill]
      rw [splits_fill fresh order key value filled indexEq,
        insertInto_fill fresh order key value filled indexEq, Grown.place_isSplit,
        Grown.place_tops, Grown.place_below, gathered, keysEq, belowEq]
      have cut : Cells.strain order _ + _ = _ :=
        (child.insertInto fresh order key value).strain_cells
      simp only [Cells.strain_append, strain_cells]
      omega

end Tree

end Insertion

section Removal

variable {Id K V : Type} {h order minKeys least drop : Nat} {weigh : Nat → Nat}

namespace Tree

variable {left right : Tree Id K V h}

theorem rotateRight_keysLen (sep : K) (right : Tree Id K V h)
    (sized : left.Sized order minKeys least) (spare : 1 < left.keysLen) :
    (left.rotateRight sep right).1.keysLen + 1 = left.keysLen ∧
      (left.rotateRight sep right).2.2.keysLen = right.keysLen + 1 := by
  cases h with
  | zero =>
      obtain ⟨front, last, bodyEq, -⟩ := exists_last spare
      rw [rotateRight_leaf bodyEq]
      simp [keysLen, bodyEq]
  | succ h =>
      obtain ⟨keys, newSep, children, moved, bodyEq, -⟩ :=
        exists_last_child sized.forked (by omega)
      rw [rotateRight_node bodyEq]
      simp [keysLen, bodyEq]

theorem rotateLeft_keysLen (left : Tree Id K V h) (sep : K)
    (sized : right.Sized order minKeys least) (spare : 1 < right.keysLen) :
    (left.rotateLeft sep right).1.keysLen = left.keysLen + 1 ∧
      (left.rotateLeft sep right).2.2.keysLen + 1 = right.keysLen := by
  cases h with
  | zero =>
      obtain ⟨first, next, rest, bodyEq⟩ := exists_first spare
      rw [rotateLeft_leaf bodyEq]
      simp [keysLen, bodyEq]
  | succ h =>
      obtain ⟨newSep, keys, moved, children, bodyEq, -⟩ :=
        exists_first_child sized.forked (by omega)
      rw [rotateLeft_node bodyEq]
      simp [keysLen, bodyEq]

theorem join_keysLen (left : Tree Id K V h) (sep : K) (right : Tree Id K V h) :
    left.keysLen + right.keysLen ≤ (left.join sep right).keysLen ∧
      (left.join sep right).keysLen ≤ left.keysLen + right.keysLen + 1 := by
  cases h with
  | zero => simp [keysLen, join]
  | succ h =>
      simp only [keysLen, join, List.length_append, List.length_cons]
      omega

end Tree

variable (large : 3 ≤ order) (even : Even order)
include large even

/-- Repairing a child is free, or merges it with a sibling: then their savings pay for
it, and for the key that the parent loses. -/
theorem Rebalanced.eases {hole : Hole K (Tree Id K V h)} {child : Tree Id K V h}
    {result : Internal K (Tree Id K V h)}
    (rebalanced : Rebalanced (leastKeys order) hole child result)
    (siblings : ∀ sibling ∈ hole.others,
      sibling.Sized order (leastKeys order) (leastKeys order))
    (poor : child.keysLen + 1 = leastKeys order) :
    result.keys.length = hole.keysLen ∧
        Cells.strain order (result.gather Tree.cells) ≤
          Cells.strain order ((hole.fill child).gather Tree.cells) ∨
      result.keys.length + 1 = hole.keysLen ∧
        Cells.strain order (result.gather Tree.cells) + 2 ≤
          Cells.strain order ((hole.fill child).gather Tree.cells) := by
  have positive := leastKeys_pos large
  cases rebalanced with
  | @fromLeft wide left sep place spare =>
      subst place
      have leftSized := siblings left (by simp)
      have inside := leftSized.keysLen.2
      have rotated : Tree.Rotated left child (left.rotateRight sep child) :=
        Tree.rotateRight_rotated leftSized (by omega)
      have belows := congrArg (Cells.strain order) rotated.below
      obtain ⟨fewer, more⟩ :=
        Tree.rotateRight_keysLen sep child leftSized (by omega)
      have moved := strain_borrow large even
        (show _ ≤ (left.rotateRight sep child).1.keysLen by omega) (by omega) poor
      rw [fewer, ← more] at moved
      refine .inl ⟨by simp, ?_⟩
      rw [Hole.pastLeft_fill, wide.gather_fillTwo, wide.gather_fillTwo]
      simp only [Cells.strain_append, Tree.strain_cells] at belows ⊢
      omega
  | @fromRight wide sep right place spare _ =>
      subst place
      have rightSized := siblings right (by simp)
      have inside := rightSized.keysLen.2
      have rotated : Tree.Rotated child right (child.rotateLeft sep right) :=
        Tree.rotateLeft_rotated rightSized (by omega)
      have belows := congrArg (Cells.strain order) rotated.below
      obtain ⟨more, fewer⟩ :=
        Tree.rotateLeft_keysLen child sep rightSized (by omega)
      have moved := strain_borrow large even
        (show _ ≤ (child.rotateLeft sep right).2.2.keysLen by omega) (by omega) poor
      rw [fewer, ← more] at moved
      refine .inl ⟨by simp, ?_⟩
      rw [Hole.beforeRight_fill, wide.gather_fillTwo, wide.gather_fillTwo]
      simp only [Cells.strain_append, Tree.strain_cells] at belows ⊢
      omega
  | @intoLeft wide left sep place poorLeft _ =>
      subst place
      have atLeast := (siblings left (by simp)).keysLen.1
      have exact : left.keysLen = leastKeys order := by omega
      have counts := Tree.join_keysLen left sep child
      have joined := strain_join large even poor
        (show _ ≤ (left.join sep child).keysLen by omega) (by omega)
      refine .inr ⟨by simp, ?_⟩
      rw [Hole.pastLeft_fill, wide.gather_fill, wide.gather_fillTwo]
      simp only [Cells.strain_append, Tree.strain_cells, Tree.join_below, exact]
      omega
  | @intoRight wide sep right place first poorRight =>
      subst place
      have atLeast := (siblings right (by simp)).keysLen.1
      have exact : right.keysLen = leastKeys order := by omega
      have counts := Tree.join_keysLen child sep right
      have joined := strain_join large even poor
        (show _ ≤ (child.join sep right).keysLen by omega) (by omega)
      refine .inr ⟨by simp, ?_⟩
      rw [Hole.beforeRight_fill, wide.gather_fill, wide.gather_fillTwo]
      simp only [Cells.strain_append, Tree.strain_cells, Tree.join_below, exact]
      omega

namespace Tree

variable [Preorder K] [Std.IsLinearPreorder K] [DecidableLT K] (key : K)
  {tree : Tree Id K V h}

/-- Removal pays for its merges, up to one; when the root loses a key, it is short of no
more than the drop of the root's weight. -/
theorem removeFrom_pays (gauge : Gauge order drop weigh)
    (sized : tree.Sized order (leastKeys order) least) (ordered : Mark.Ordered tree.marks)
    (inner : min h 1 ≤ least) :
    ∃ merged short, (tree.removeFrom (leastKeys order) key).2.size + merged = tree.size ∧
      merged + weigh (tree.removeFrom (leastKeys order) key).2.keysLen +
          (tree.removeFrom (leastKeys order) key).2.below.strain order ≤
        weigh tree.keysLen + tree.below.strain order + short ∧ short ≤ 1 ∧
      ((tree.removeFrom (leastKeys order) key).2.keysLen < tree.keysLen →
        short ≤ drop) := by
  have positive := leastKeys_pos large
  have half := leastKeys_half large
  induction h generalizing least weigh drop with
  | zero =>
      have ascending : Ascending tree.body := Mark.ordered_ofEntries.mp ordered
      have lengths := (removeEntries_shrinkage key ascending).length
      have inside := sized.2
      rcases Nat.lt_or_eq_of_le lengths.2 with fewer | same
      · have lengthEq : tree.body.length = (removeEntries key tree.body).2.length + 1 := by
          omega
        have shrinks := gauge.shrinks (removeEntries key tree.body).2.length (by omega)
        rw [← lengthEq] at shrinks
        refine ⟨0, drop, rfl, ?_, gauge.slight, fun _ => Nat.le_refl _⟩
        simp only [removeFrom, below, keysLen]
        omega
      · refine ⟨0, 0, rfl, ?_, Nat.zero_le _, fun _ => Nat.zero_le _⟩
        simp only [removeFrom, below, keysLen, same]
        omega
  | succ h ih =>
      obtain ⟨hole, child, filled, indexEq, -⟩ :=
        route (Internal.Occupied.forked sized) ordered key
      have childSized := sized.child filled
      have childOrdered := ordered_child filled ordered
      obtain ⟨enough, few, siblings⟩ := sized.around filled
      have shrunk := removeFrom_sized key positive half childSized childOrdered (by omega)
      obtain ⟨merged, short, sizeEq, paid, little, -⟩ :=
        ih (gauge_strain large even) childSized childOrdered (by omega)
      have keysEq : tree.keysLen = hole.keysLen := by
        rw [keysLen, filled, hole.fill_keys_length]
      have belowEq (other : Tree Id K V h) :
          Cells.strain order ((hole.fill other).gather cells) =
            Cells.strain order (hole.leftChildren.flatMap cells) +
              (strain order other.keysLen + other.below.strain order) +
              Cells.strain order (hole.rightChildren.flatMap cells) := by
        simp only [hole.gather_fill, Cells.strain_append, strain_cells]
      have begun := belowEq child
      rw [← filled] at begun
      change tree.below.strain order = _ at begun
      have refilled : size (h := h + 1)
          ⟨Labelled.label tree, hole.fill (child.removeFrom (leastKeys order) key).2⟩ +
            merged = tree.size := by
        rw [size_fill filled, size_fill rfl]
        omega
      have topKeys (body : Internal K (Tree Id K V h)) :
          keysLen (h := h + 1) ⟨Labelled.label tree, body⟩ = body.keys.length := rfl
      have topBelow (body : Internal K (Tree Id K V h)) :
          below (h := h + 1) ⟨Labelled.label tree, body⟩ = body.gather cells := rfl
      rw [removeFrom_fill _ key filled indexEq, begun, keysEq]
      dsimp only
      by_cases under : (child.removeFrom (leastKeys order) key).1.isSome ∧
          (child.removeFrom (leastKeys order) key).2.keysLen < leastKeys order
      · have rebalanced := rebalance_rebalanced (leastKeys order) hole
          (child.removeFrom (leastKeys order) key).2 (Hole.several (by omega))
        have lost := shrunk.keysLen.1
        have eased := rebalanced.eases large even siblings (by omega)
        have counted := rebalanced.counts (Labelled.label tree) positive siblings
        rw [if_pos under, topKeys, topBelow]
        rw [belowEq] at eased
        rcases counted with ⟨-, fewer, smaller⟩ | ⟨-, same, sameSize⟩
        · -- The merge costs one and eases two, so one is left for the lost key.
          have shrinks := gauge.shrinks _ (fewer ▸ few)
          rw [fewer] at shrinks
          have slight := gauge.slight
          exact ⟨merged + 1, drop, by omega, by omega, slight, fun _ => Nat.le_refl _⟩
        · exact ⟨merged, short, by omega, by rw [same]; omega, little, by omega⟩
      · rw [if_neg under, topKeys, topBelow, belowEq, hole.fill_keys_length]
        exact ⟨merged, short, refilled, by omega, little,
          fun less => absurd less (Nat.lt_irrefl _)⟩

end Tree

end Removal

/-- The slots that hold a node. -/
def InMemoryStore.liveSlots {K V : Type} (store : InMemoryStore K V) : Nat :=
  store.slab.length - store.free.length

/-- The slots that an update takes or gives back.  `clear` begins a new store. -/
def Call.turnover {K V : Type} (before after : Nat) : Call K V → Nat
  | .insert _ _ | .remove _ => (after - before) + (before - after)
  | .clear | .get _ | .containsKey _ | .len | .isEmpty => 0

/-- The slots that a run of calls takes and gives back. -/
def BPlusTree.turnover {K V : Type} [LT K] [DecidableLT K] (tree : BPlusTree K V) :
    List (Call K V) → Run Nat
  | [] => pure 0
  | call :: calls => do
      let (_, next) ← tree.call call
      let later ← next.turnover calls
      pure (call.turnover tree.store.liveSlots next.store.liveSlots + later)

/-- What a run may take and give back for each call. -/
def Call.allowance {K V : Type} : Call K V → Nat
  | .insert _ _ => 2
  | .remove _ => 1
  | .clear | .get _ | .containsKey _ | .len | .isEmpty => 0

/-- What the nodes of a whole tree have saved up. -/
def Cells.rootStrain {Id K V : Type} (order : Nat) : Cells Id (Node Id K V) → Nat
  | [] => 0
  | top :: below => IndexDb.rootStrain order top.2.keysLen + Cells.strain order below

namespace SearchTree

variable {Id K V : Type} [Preorder K] {order : Nat}

def strain (t : SearchTree Id K V order) : Nat :=
  t.cells.rootStrain order

theorem strain_eq (t : SearchTree Id K V order) :
    t.strain = rootStrain order t.tree.keysLen + t.tree.below.strain order := by
  rw [strain, cells, Tree.cells_eq, ← Tree.node_keysLen]
  rfl

theorem strain_le (even : Even order) (t : SearchTree Id K V order) :
    t.strain ≤ 2 * t.size := by
  have top := rootStrain_le t.large even t.tree.keysLen
  have topLe := IndexDb.strain_le order t.tree.keysLen
  have belowLe : t.tree.below.strain order ≤ _ := Cells.strain_le t.tree.below
  have sizeEq : t.size = _ := Tree.size_eq_cells t.tree
  rw [Tree.cells_eq, List.length_cons] at sizeEq
  rw [strain_eq]
  omega

variable [Std.IsLinearPreorder K] [DecidableLT K]

/-- What a call makes of a search tree. -/
inductive Step : SearchTree Id K V order → Call K V → SearchTree Id K V order → Prop
  | insert (t : SearchTree Id K V order) (fresh : Nat → Id) (key : K) (value : V) :
      Step t (.insert key value) (t.insert fresh key value).2
  | remove (t : SearchTree Id K V order) (key : K) :
      Step t (.remove key) (t.remove key).2
  | clear (t : SearchTree Id K V order) (label : Id) : Step t .clear (empty t.large label)
  | get (t : SearchTree Id K V order) (key : K) : Step t (.get key) t
  | containsKey (t : SearchTree Id K V order) (key : K) : Step t (.containsKey key) t
  | len (t : SearchTree Id K V order) : Step t .len t
  | isEmpty (t : SearchTree Id K V order) : Step t .isEmpty t

variable (even : Even order) (t : SearchTree Id K V order)
include even

/-- Insertion adds no more than two to what it takes and what is saved up. -/
theorem insert_pays (fresh : Nat → Id) (key : K) (value : V) :
    t.allocations key value + (t.insert fresh key value).2.strain ≤ t.strain + 2 := by
  have large := t.large
  have paid := Tree.insertInto_pays large even fresh key value (gauge_root large) t.sized
    t.ordered
  have resultEq : (t.insert fresh key value).2.strain =
      Cells.rootStrain order ((t.tree.insertInto fresh order key value).root
        (fresh (t.height + 1))).2.cells := rfl
  rw [allocations, Tree.insertInto_isSplit _ fresh, resultEq, strain_eq]
  cases outcome : t.tree.insertInto fresh order key value with
  | replaced old tree =>
      rw [outcome] at paid
      rw [Grown.root, Tree.cells_eq, Cells.rootStrain, Tree.node_keysLen]
      simpa [Grown.isSplit, Grown.tops, Grown.gather, Nat.add_assoc] using paid
  | done tree =>
      rw [outcome] at paid
      rw [Grown.root, Tree.cells_eq, Cells.rootStrain, Tree.node_keysLen]
      simpa [Grown.isSplit, Grown.tops, Grown.gather, Nat.add_assoc] using paid
  | split left sep right =>
      rw [outcome] at paid
      have topStrain : rootStrain order 1 = 0 := by
        unfold rootStrain
        rw [if_neg (by omega)]
      have belowEq : (⟨[sep], [left, right]⟩ : Internal K (Tree Id K V t.height)).gather
          Tree.cells = left.cells ++ right.cells := by
        simp [Internal.gather]
      change t.tree.splits order key value + 1 + (rootStrain order 1 + Cells.strain order
        ((⟨[sep], [left, right]⟩ : Internal K (Tree Id K V t.height)).gather
          Tree.cells)) ≤ _
      rw [belowEq, topStrain]
      simp only [Grown.tops, Grown.gather, Cells.strain_append, Tree.strain_cells] at paid ⊢
      omega

/-- Removal gives back no more than what is saved up and one. -/
theorem remove_pays (t : SearchTree NodeId K V order) (key : K) :
    ∃ freed, (t.remove key).2.size + freed = t.size ∧
      freed + (t.remove key).2.strain ≤ t.strain + 1 := by
  have large := t.large
  obtain ⟨merged, short, sizeEq, paid, little, lost⟩ := Tree.removeFrom_pays large even key
    (gauge_root large) t.sized t.ordered (Nat.le_refl _)
  have sizeOf (t : SearchTree NodeId K V order) : t.size = t.cells.length :=
    Tree.size_eq_cells t.tree
  rw [Tree.size_eq_cells, Tree.cells_eq, List.length_cons] at sizeEq
  change _ = t.size at sizeEq
  rw [← strain_eq] at paid
  by_cases present : (t.tree.removeFrom (leastKeys order) key).1.isSome
  · rcases BPlusTree.remove_outcome t key present with
      ⟨-, -, same⟩ | ⟨none, lower, cellsEq⟩
    · refine ⟨merged, ?_, ?_⟩
      · rwa [sizeOf, same, Tree.cells_eq, List.length_cons]
      · rw [strain, same, Tree.cells_eq, Cells.rootStrain, Tree.node_keysLen]
        omega
    · -- The root goes too, but its last key is given up at no cost.
      have enough := t.sized.keysLen.1
      have free := lost (by omega)
      have belowEq : (t.tree.removeFrom (leastKeys order) key).2.below =
          (t.remove key).2.cells := by
        rw [Tree.cells_eq] at cellsEq
        exact (List.cons.inj cellsEq).2
      have eases := rootStrain_le large even (t.remove key).2.tree.keysLen
      have whole : Cells.strain order (t.remove key).2.cells = _ :=
        (t.remove key).2.tree.strain_cells
      rw [belowEq] at paid sizeEq
      refine ⟨merged + 1, ?_, ?_⟩
      · rw [sizeOf]
        omega
      · rw [strain_eq (t.remove key).2]
        omega
  · have absent := Tree.removeFrom_none (Option.not_isSome_iff_eq_none.mp present)
    have same : (t.remove key).2.cells = t.cells := by
      have removedEq : (t.tree.remove (leastKeys order) key).2 = ⟨t.height, t.tree⟩ := by
        rw [Tree.remove]
        dsimp only
        rw [if_neg present, absent]
      change (t.tree.remove (leastKeys order) key).2.2.cells = _
      rw [removedEq]
      rfl
    refine ⟨0, ?_, ?_⟩
    · rw [sizeOf, sizeOf, same]
      rfl
    · rw [strain, same]
      change 0 + t.strain ≤ _
      omega

/-- The slots that a call takes or gives back, seen from the trees. -/
def turnover (t : SearchTree NodeId K V order) (call : Call K V)
    (next : SearchTree NodeId K V order) : Nat :=
  call.turnover t.size next.size

/-- What the nodes have saved up pays for the turnover beyond the allowance. -/
theorem amortised :
    Amortised (Step : SearchTree NodeId K V order → Call K V →
      SearchTree NodeId K V order → Prop) turnover strain Call.allowance := by
  rintro t call next step
  cases step with
  | insert fresh key value =>
      have paid := insert_pays even t fresh key value
      have sizeEq := t.insert_size fresh key value
      simp only [turnover, Call.turnover, Call.allowance]
      omega
  | remove key =>
      obtain ⟨freed, sizeEq, paid⟩ := remove_pays even t key
      simp only [turnover, Call.turnover, Call.allowance]
      omega
  | clear label =>
      have fresh : (empty t.large label : SearchTree NodeId K V order).strain = 0 := by
        have large := t.large
        rw [strain_eq]
        change rootStrain order 0 + 0 = 0
        unfold rootStrain
        rw [if_neg (by omega)]
      simp only [turnover, Call.turnover, Call.allowance, fresh]
      omega
  | get _ => simp [turnover, Call.turnover, Call.allowance]
  | containsKey _ => simp [turnover, Call.turnover, Call.allowance]
  | len => simp [turnover, Call.turnover, Call.allowance]
  | isEmpty => simp [turnover, Call.turnover, Call.allowance]

end SearchTree

section Represented

variable {K V : Type} [Preorder K] {order : Nat} {tree : BPlusTree K V}
  {t : SearchTree NodeId K V order}

namespace BPlusTree

theorem Represents.liveSlots (represents : tree.Represents t) :
    tree.store.liveSlots = t.size := by
  rw [InMemoryStore.liveSlots, represents.slab_length, Nat.add_sub_cancel]

variable [Std.IsLinearPreorder K] [DecidableLT K]

/-- Every call makes a step of the search tree. -/
theorem Represents.call_step (represents : tree.Represents t) (call : Call K V)
    (isExact : (tree.call call).Exact) :
    ∃ (next : BPlusTree K V) (t' : SearchTree NodeId K V order) (reply : Reply V),
      tree.call call = pure (reply, next) ∧ next.Represents t' ∧ t.Step call t' := by
  cases call with
  | insert key value =>
      rw [BPlusTree.call] at isExact ⊢
      obtain ⟨fresh, next, inserted, newRepresents, -⟩ :=
        represents.insert key value (.inr isExact.first)
      rw [inserted, pure_bind]
      exact ⟨next, _, _, rfl, newRepresents, .insert t fresh key value⟩
  | remove key =>
      obtain ⟨next, removed, newRepresents, -⟩ := represents.remove key
      rw [BPlusTree.call, removed, pure_bind]
      exact ⟨next, _, _, rfl, newRepresents, .remove t key⟩
  | clear =>
      obtain rfl := represents.order_eq
      exact ⟨_, _, _, rfl, empty_represents t.large, .clear t _⟩
  | get key =>
      rw [BPlusTree.call, represents.get, pure_bind]
      exact ⟨tree, t, _, rfl, represents, .get t key⟩
  | containsKey key =>
      rw [BPlusTree.call, represents.containsKey, pure_bind]
      exact ⟨tree, t, _, rfl, represents, .containsKey t key⟩
  | len => exact ⟨tree, t, _, rfl, represents, .len t⟩
  | isEmpty => exact ⟨tree, t, _, rfl, represents, .isEmpty t⟩

/-- The turnover of the store is what the steps of the search tree spend. -/
theorem Represents.turnover (represents : tree.Represents t) (calls : List (Call K V))
    (isExact : (tree.turnover calls).Exact) :
    ∃ total t', tree.turnover calls = pure total ∧
      Spends SearchTree.Step SearchTree.turnover t calls total t' := by
  induction calls generalizing tree t with
  | nil => exact ⟨0, t, rfl, .nil t⟩
  | cons call calls ih =>
      rw [BPlusTree.turnover] at isExact ⊢
      obtain ⟨next, t', reply, called, newRepresents, step⟩ :=
        represents.call_step call isExact.first
      rw [called, pure_bind] at isExact ⊢
      dsimp only at isExact ⊢
      obtain ⟨later, final, laterEq, spends⟩ := ih newRepresents isExact.first
      refine ⟨_, final, ?_, .cons step spends⟩
      rw [laterEq, pure_bind, represents.liveSlots, newRepresents.liveSlots]
      rfl

end BPlusTree

end Represented

section Main

variable {K V : Type} [Preorder K] [Std.IsLinearPreorder K] [DecidableLT K]

/-- With an even order, any calls on a reachable tree take and give back at most two
slots for each insertion, one for each removal and two for each node at the start. -/
theorem run_turnover_bounded (order : Nat) (even : Even (max order minOrder))
    (start : Start K V) (calls more : List (Call K V))
    (isExact : (start.run order calls >>= fun made => made.2.turnover more).Exact) :
    ∃ replies tree total, start.run order calls = pure (replies, tree) ∧
      tree.turnover more = pure total ∧
      total ≤ (more.map Call.allowance).sum + 2 * tree.store.liveSlots := by
  obtain ⟨tree, t, returned, represents, -⟩ := start.run_represents calls isExact.first
  rw [returned, pure_bind] at isExact
  obtain ⟨total, t', turned, spends⟩ := represents.turnover more isExact
  have paid := (SearchTree.amortised even).run spends
  have saved := t.strain_le even
  refine ⟨_, tree, total, returned, turned, ?_⟩
  rw [represents.liveSlots]
  omega

/-- A split, a borrow, a merge that takes the root along, and a split. -/
theorem run_turnover_bounded_small :
    ∃ replies tree total, (Start.fromSorted [(1, 10), (2, 20), (3, 30)]).run 4
        [] = pure (replies, tree) ∧
      tree.turnover [.insert 4 40, .remove 1, .remove 2, .remove 3, .insert 5 50,
        .insert 6 60, .insert 7 70] = pure total ∧
      total ≤ ([Call.insert 4 40, .remove 1, .remove 2, .remove 3, .insert 5 50,
        .insert 6 60, .insert 7 70].map Call.allowance).sum + 2 * tree.store.liveSlots :=
  run_turnover_bounded 4 (by decide) (.fromSorted [(1, 10), (2, 20), (3, 30)]) []
    [.insert 4 40, .remove 1, .remove 2, .remove 3, .insert 5 50, .insert 6 60,
      .insert 7 70] (by decide +kernel)

end Main

end IndexDb
