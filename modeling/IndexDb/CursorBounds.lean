import IndexDb.CursorSteps

/-!
# Where bounds land

A lower bound splits the ascending entries into those it rejects and those it
admits, and its cursor stands at the first one admitted.  The separators may
route the probe to a leaf without such an entry; the search then hops to the
neighbouring leaf.  Upper bounds are the mirror image.
-/

namespace IndexDb

open LawfulNodeStore

variable {K V : Type}

section Admitting

variable [LE K] [LT K]

/-- The bound admits the key from below. -/
def Bound.AdmitsFrom : Bound K → K → Prop
  | .unbounded, _ => True
  | .included probe, key => probe ≤ key
  | .excluded probe, key => probe < key

/-- The bound admits the key from above. -/
def Bound.AdmitsTo : Bound K → K → Prop
  | .unbounded, _ => True
  | .included probe, key => key ≤ probe
  | .excluded probe, key => key < probe

instance [DecidableLE K] [DecidableLT K] (bound : Bound K) (key : K) :
    Decidable (bound.AdmitsFrom key) :=
  match bound with
  | .unbounded => inferInstanceAs (Decidable True)
  | .included probe => inferInstanceAs (Decidable (probe ≤ key))
  | .excluded probe => inferInstanceAs (Decidable (probe < key))

instance [DecidableLE K] [DecidableLT K] (bound : Bound K) (key : K) :
    Decidable (bound.AdmitsTo key) :=
  match bound with
  | .unbounded => inferInstanceAs (Decidable True)
  | .included probe => inferInstanceAs (Decidable (key ≤ probe))
  | .excluded probe => inferInstanceAs (Decidable (key < probe))

variable {order : Nat}

/-- The search finds a cursor at the position, or nothing beyond the end. -/
def LandsFrom (search : Run (Option (Cursor K V))) (store : InMemoryStore K V)
    (t : SearchTree NodeId K V order) (position : Nat) : Prop :=
  (∃ cursor, search = pure (some cursor) ∧ cursor.StandsAt store t position) ∨
    position = t.entries.length ∧ search = pure none

/-- The search finds a cursor just before the position, or nothing before the
start. -/
def LandsBefore (search : Run (Option (Cursor K V))) (store : InMemoryStore K V)
    (t : SearchTree NodeId K V order) (position : Nat) : Prop :=
  (∃ cursor previous, search = pure (some cursor) ∧ position = previous + 1 ∧
    cursor.StandsAt store t previous) ∨
    position = 0 ∧ search = pure none

end Admitting

section Landing

variable [LE K] [LT K] {order : Nat} {store : InMemoryStore K V}
  {t : SearchTree NodeId K V order} {path : List (Frame K)}
  {leaf : Tree NodeId K V 0} {before after : List (K × V)}

/-- Only a tree without entries has a leaf without entries. -/
theorem Tree.Leads.entries_of_empty (leads : t.tree.Leads path leaf before after)
    (empty : leaf.body = []) : t.entries = [] := by
  rcases t.sized.subtree leads.mem_subtrees with equal | legal
  · have entriesEq : t.entries = leaf.entries := by
      obtain ⟨height, tree, large, sized, ordered⟩ := t
      cases equal
      rfl
    rw [entriesEq, Tree.entries_leaf, empty]
  · have some := Nat.lt_of_lt_of_le (leastKeys_pos t.large) legal.1
    rw [empty] at some
    exact absurd some (Nat.lt_irrefl 0)

theorem Tree.Leads.whole (leads : t.tree.Leads path leaf before after) :
    t.entries = before ++ leaf.body ++ after :=
  leads.entries_eq

theorem Tree.Leads.standsAt (leads : t.tree.Leads path leaf before after)
    {idx : Nat} (inside : idx < leaf.body.length) :
    (⟨store, path, leaf.leafRef, idx⟩ : Cursor K V).StandsAt store t
      (before.length + idx) :=
  ⟨rfl, leaf, before, after, leads, rfl, inside, rfl⟩

/-- The end of `lowerBound`: the index found, or the next leaf. -/
theorem landsFrom_index (browses : Browses store t)
    (leads : t.tree.Leads path leaf before after) (some : 0 < leaf.body.length)
    {idx : Nat} (atMost : idx ≤ leaf.body.length) :
    LandsFrom (do
      let lastIdx ← checkedSub leaf.leafRef.leaf.keys.length 1
      let cursor : Cursor K V := ⟨store, path, leaf.leafRef, lastIdx⟩
      if idx < leaf.leafRef.leaf.keys.length then
        pure (Option.some { cursor with idx })
      else
        let (stepped, cursor) ← cursor.stepForward
        pure (if stepped then Option.some cursor else none)) store t
      (before.length + idx) := by
  rw [Tree.leafRef_keys_length, checkedSub_of_le some, pure_bind]
  by_cases inside : idx < leaf.body.length
  · rw [if_pos inside]
    exact .inl ⟨_, rfl, leads.standsAt inside⟩
  · have whole : before.length + idx =
        before.length + (leaf.body.length - 1) + 1 := by omega
    have atLast : (⟨store, path, leaf.leafRef, leaf.body.length - 1⟩ :
        Cursor K V).StandsAt store t _ :=
      leads.standsAt (Nat.sub_lt some Nat.one_pos)
    rw [if_neg inside, whole]
    rcases Cursor.StandsAt.stepForward browses atLast with
      ⟨next, stepped, stands⟩ | ⟨atEnd, next, stepped⟩
    · exact .inl ⟨next, by rw [stepped, pure_bind]; rfl, stands⟩
    · exact .inr ⟨atEnd, by rw [stepped, pure_bind]; rfl⟩

/-- The end of `upperBound`: the index before, or the previous leaf. -/
theorem landsBefore_index (browses : Browses store t)
    (leads : t.tree.Leads path leaf before after) (some : 0 < leaf.body.length)
    {idx : Nat} (atMost : idx ≤ leaf.body.length) :
    LandsBefore (
      let cursor : Cursor K V := ⟨store, path, leaf.leafRef, 0⟩
      match Cursor.previous idx with
      | Option.some idx => pure (Option.some { cursor with idx })
      | none => do
        let (stepped, cursor) ← cursor.stepBackward
        pure (if stepped then Option.some cursor else none)) store t
      (before.length + idx) := by
  cases idx with
  | zero =>
      have atFirst : (⟨store, path, leaf.leafRef, 0⟩ : Cursor K V).StandsAt store t _ :=
        leads.standsAt some
      simp only [Cursor.previous, if_true]
      rcases Cursor.StandsAt.stepBackward browses atFirst with
        ⟨next, previous, stepped, positionEq, stands⟩ | ⟨atStart, next, stepped⟩
      · exact .inl ⟨next, previous, by rw [stepped, pure_bind]; rfl, positionEq,
          stands⟩
      · exact .inr ⟨atStart, by rw [stepped, pure_bind]; rfl⟩
  | succ idx => exact .inl ⟨_, _, rfl, rfl, leads.standsAt atMost⟩

end Landing

section Ends

variable [Preorder K] {order : Nat} {store : InMemoryStore K V}
  {t : SearchTree NodeId K V order}

theorem Tree.Leads.ascending {path : List (Frame K)} {leaf : Tree NodeId K V 0}
    {before after : List (K × V)} (leads : t.tree.Leads path leaf before after) :
    Ascending leaf.body := by
  have all := t.ascending
  rw [leads.whole, ascending_append, ascending_append] at all
  exact all.1.2.1

theorem first_lands (browses : Browses store t) :
    LandsFrom (Cursor.first store t.root) store t 0 := by
  obtain ⟨path, leaf, before, after, leads, descended, none, -⟩ :=
    descend_leads chooses_leftmost browses.stored t.sized t.ordered browses.enough []
  obtain rfl : before = [] := List.eq_nil_iff_forall_not_mem.mpr none
  rw [Cursor.first, SearchTree.root, descended, pure_bind]
  dsimp only
  rw [Tree.leafRef_isEmpty, List.append_nil]
  by_cases empty : leaf.body = []
  · rw [if_pos (by simpa using empty)]
    exact .inr ⟨by rw [leads.entries_of_empty empty]; rfl, rfl⟩
  · rw [if_neg (by simpa using empty)]
    exact .inl ⟨_, rfl, leads.standsAt (List.length_pos_iff.mpr empty)⟩

theorem last_lands (browses : Browses store t) :
    LandsBefore (Cursor.last store t.root) store t t.entries.length := by
  obtain ⟨path, leaf, before, after, leads, descended, -, none⟩ :=
    descend_leads chooses_rightmost browses.stored t.sized t.ordered browses.enough []
  obtain rfl : after = [] := List.eq_nil_iff_forall_not_mem.mpr none
  have entriesEq : t.entries = before ++ leaf.body ++ [] := leads.entries_eq
  rw [Cursor.last, SearchTree.root, descended, pure_bind]
  dsimp only
  rw [Tree.leafRef_isEmpty, List.append_nil]
  by_cases empty : leaf.body = []
  · rw [if_pos (by simpa using empty)]
    exact .inr ⟨by rw [leads.entries_of_empty empty]; rfl, rfl⟩
  · have some := List.length_pos_iff.mpr empty
    rw [if_neg (by simpa using empty), Tree.leafRef_keys_length,
      checkedSub_of_le some, pure_bind]
    refine .inl ⟨_, _, rfl, ?_, leads.standsAt (Nat.sub_lt some Nat.one_pos)⟩
    simp only [entriesEq, List.append_nil, List.length_append]
    omega

end Ends

section Probing

variable [Preorder K] [Std.IsLinearPreorder K] [DecidableLT K] {order : Nat}
  {store : InMemoryStore K V} {t : SearchTree NodeId K V order}

theorem descendTo_leads (browses : Browses store t) (probe : K) :
    ∃ path leaf before after, t.tree.Leads path leaf before after ∧
      Cursor.descendTo store t.root probe = pure (path, leaf.leafRef) ∧
      (∀ entry ∈ before, entry.1 < probe) ∧ ∀ entry ∈ after, probe < entry.1 := by
  obtain ⟨path, leaf, before, after, leads, descended, below, above⟩ :=
    descend_leads (chooses_probe probe) browses.stored t.sized t.ordered
      browses.enough []
  rw [List.append_nil] at descended
  exact ⟨path, leaf, before, after, leads, descended, below, above⟩

variable {admits : K → Prop} {probe : K} {skip : Bool}

/-- The index that `lowerBound` finds in a leaf splits its entries. -/
theorem lowerIndex_splits {entries : List (K × V)} (ascending : Ascending entries)
    (below : ∀ key, key < probe → ¬ admits key)
    (same : ∀ key, SameKey key probe → (admits key ↔ skip = false))
    (above : ∀ key, probe < key → admits key) :
    ∃ rejected admitted, entries = rejected ++ admitted ∧
      Cursor.lowerIndex (entries.map Prod.fst) probe skip = rejected.length ∧
      (∀ entry ∈ rejected, ¬ admits entry.1) ∧
      ∀ entry ∈ admitted, admits entry.1 := by
  have correct := Entries.search_answer probe ascending
  unfold Cursor.lowerIndex
  generalize binarySearch (entries.map Prod.fst) probe = answer at correct
  cases correct with
  | @missing before after split under beyond =>
      exact ⟨before, after, split, rfl, fun entry inside =>
        below _ (under entry inside), fun entry inside => above _ (beyond entry inside)⟩
  | @found before after entry split under equal beyond =>
      cases skip with
      | false =>
          refine ⟨before, entry :: after, split, rfl, fun entry inside =>
            below _ (under entry inside), ?_⟩
          rintro other (_ | ⟨_, inside⟩)
          · exact (same _ equal).mpr rfl
          · exact above _ (beyond other inside)
      | true =>
          refine ⟨before ++ [entry], after, by rw [split, List.append_assoc]; rfl,
            by rw [List.length_append]; rfl, ?_, fun entry inside =>
              above _ (beyond entry inside)⟩
          intro other inside
          rcases List.mem_append.mp inside with inside | inside
          · exact below _ (under other inside)
          · rw [List.mem_singleton.mp inside, same _ equal]
            exact Bool.noConfusion

theorem lowerBoundAt_lands (browses : Browses store t)
    (below : ∀ key, key < probe → ¬ admits key)
    (same : ∀ key, SameKey key probe → (admits key ↔ skip = false))
    (above : ∀ key, probe < key → admits key) :
    ∃ rejected admitted, t.entries = rejected ++ admitted ∧
      (∀ entry ∈ rejected, ¬ admits entry.1) ∧
      (∀ entry ∈ admitted, admits entry.1) ∧
      LandsFrom (Cursor.lowerBoundAt store t.root probe skip) store t
        rejected.length := by
  obtain ⟨path, leaf, before, after, leads, descended, under, beyond⟩ :=
    descendTo_leads browses probe
  rw [Cursor.lowerBoundAt, descended, pure_bind]
  dsimp only
  rw [Tree.leafRef_isEmpty]
  by_cases empty : leaf.body = []
  · have none := leads.entries_of_empty empty
    rw [if_pos (by simpa using empty)]
    exact ⟨[], [], none, by simp, by simp, .inr ⟨by simp [none], rfl⟩⟩
  · obtain ⟨rejected, admitted, split, index, out, inside⟩ :=
      lowerIndex_splits leads.ascending below same above
    rw [if_neg (by simpa using empty)]
    refine ⟨before ++ rejected, admitted ++ after, ?_, ?_, ?_, ?_⟩
    · rw [leads.whole, split]
      simp
    · intro entry member
      exact (List.mem_append.mp member).elim
        (fun member => below _ (under entry member)) (out entry)
    · intro entry member
      exact (List.mem_append.mp member).elim (inside entry)
        fun member => above _ (beyond entry member)
    · have atMost : rejected.length ≤ leaf.body.length := by
        rw [split, List.length_append]
        exact Nat.le_add_right _ _
      have keysEq : leaf.leafRef.leaf.keys = leaf.body.map Prod.fst := rfl
      rw [List.length_append, keysEq, index]
      exact landsFrom_index browses leads (List.length_pos_iff.mpr empty) atMost

/-- The bound rejects the entries before its cursor and admits the others. -/
theorem lowerBound_lands (browses : Browses store t) (bound : Bound K) :
    ∃ rejected admitted, t.entries = rejected ++ admitted ∧
      (∀ entry ∈ rejected, ¬ bound.AdmitsFrom entry.1) ∧
      (∀ entry ∈ admitted, bound.AdmitsFrom entry.1) ∧
      LandsFrom (Cursor.lowerBound store t.root bound) store t
        rejected.length := by
  cases bound with
  | unbounded =>
      exact ⟨[], t.entries, rfl, by simp, by simp [Bound.AdmitsFrom],
        first_lands browses⟩
  | included probe =>
      exact lowerBoundAt_lands browses (by grind [Bound.AdmitsFrom])
        (by grind [Bound.AdmitsFrom, SameKey]) (by grind [Bound.AdmitsFrom])
  | excluded probe =>
      exact lowerBoundAt_lands browses (by grind [Bound.AdmitsFrom])
        (by grind [Bound.AdmitsFrom, SameKey]) (by grind [Bound.AdmitsFrom])

/-- The index that `upperBound` finds in a leaf is the last one admitted. -/
theorem upperIndex_splits {entries : List (K × V)} (ascending : Ascending entries)
    (below : ∀ key, key < probe → admits key)
    (same : ∀ key, SameKey key probe → (admits key ↔ skip = false))
    (above : ∀ key, probe < key → ¬ admits key) :
    ∃ admitted rejected, entries = admitted ++ rejected ∧
      Cursor.upperIndex (entries.map Prod.fst) probe skip =
        Cursor.previous admitted.length ∧
      (∀ entry ∈ admitted, admits entry.1) ∧
      ∀ entry ∈ rejected, ¬ admits entry.1 := by
  have correct := Entries.search_answer probe ascending
  unfold Cursor.upperIndex
  generalize binarySearch (entries.map Prod.fst) probe = answer at correct
  cases correct with
  | @missing before after split under beyond =>
      exact ⟨before, after, split, rfl, fun entry inside =>
        below _ (under entry inside), fun entry inside => above _ (beyond entry inside)⟩
  | @found before after entry split under equal beyond =>
      cases skip with
      | false =>
          refine ⟨before ++ [entry], after, by rw [split, List.append_assoc]; rfl,
            by rw [List.length_append]; rfl, ?_, fun entry inside =>
              above _ (beyond entry inside)⟩
          intro other inside
          rcases List.mem_append.mp inside with inside | inside
          · exact below _ (under other inside)
          · rw [List.mem_singleton.mp inside, same _ equal]
      | true =>
          refine ⟨before, entry :: after, split, rfl, fun entry inside =>
            below _ (under entry inside), ?_⟩
          rintro other (_ | ⟨_, inside⟩)
          · rw [same _ equal]
            exact Bool.noConfusion
          · exact above _ (beyond other inside)

theorem upperBoundAt_lands (browses : Browses store t)
    (below : ∀ key, key < probe → admits key)
    (same : ∀ key, SameKey key probe → (admits key ↔ skip = false))
    (above : ∀ key, probe < key → ¬ admits key) :
    ∃ admitted rejected, t.entries = admitted ++ rejected ∧
      (∀ entry ∈ admitted, admits entry.1) ∧
      (∀ entry ∈ rejected, ¬ admits entry.1) ∧
      LandsBefore (Cursor.upperBoundAt store t.root probe skip) store t
        admitted.length := by
  obtain ⟨path, leaf, before, after, leads, descended, under, beyond⟩ :=
    descendTo_leads browses probe
  rw [Cursor.upperBoundAt, descended, pure_bind]
  dsimp only
  rw [Tree.leafRef_isEmpty]
  by_cases empty : leaf.body = []
  · have none := leads.entries_of_empty empty
    rw [if_pos (by simpa using empty)]
    exact ⟨[], [], none, by simp, by simp, .inr ⟨rfl, rfl⟩⟩
  · obtain ⟨admitted, rejected, split, index, inside, out⟩ :=
      upperIndex_splits leads.ascending below same above
    rw [if_neg (by simpa using empty)]
    refine ⟨before ++ admitted, rejected ++ after, ?_, ?_, ?_, ?_⟩
    · rw [leads.whole, split]
      simp
    · intro entry member
      exact (List.mem_append.mp member).elim
        (fun member => below _ (under entry member)) (inside entry)
    · intro entry member
      exact (List.mem_append.mp member).elim (out entry)
        fun member => above _ (beyond entry member)
    · have atMost : admitted.length ≤ leaf.body.length := by
        rw [split, List.length_append]
        exact Nat.le_add_right _ _
      have keysEq : leaf.leafRef.leaf.keys = leaf.body.map Prod.fst := rfl
      rw [List.length_append, keysEq, index]
      exact landsBefore_index browses leads (List.length_pos_iff.mpr empty) atMost

/-- The bound admits the entries up to its cursor and rejects the others. -/
theorem upperBound_lands (browses : Browses store t) (bound : Bound K) :
    ∃ admitted rejected, t.entries = admitted ++ rejected ∧
      (∀ entry ∈ admitted, bound.AdmitsTo entry.1) ∧
      (∀ entry ∈ rejected, ¬ bound.AdmitsTo entry.1) ∧
      LandsBefore (Cursor.upperBound store t.root bound) store t
        admitted.length := by
  cases bound with
  | unbounded =>
      exact ⟨t.entries, [], (List.append_nil _).symm, by simp [Bound.AdmitsTo],
        by simp, last_lands browses⟩
  | included probe =>
      exact upperBoundAt_lands browses (by grind [Bound.AdmitsTo])
        (by grind [Bound.AdmitsTo, SameKey]) (by grind [Bound.AdmitsTo])
  | excluded probe =>
      exact upperBoundAt_lands browses (by grind [Bound.AdmitsTo])
        (by grind [Bound.AdmitsTo, SameKey]) (by grind [Bound.AdmitsTo])

end Probing

end IndexDb
