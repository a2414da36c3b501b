import IndexDb.StoreLaws

/-!
# Backends with ids without end

A store of slots numbered by naturals.  One kind hands out vacant slots again,
the other takes a new slot for every node.  Both are lawful and never lack an
id.
-/

namespace IndexDb

/-- Slots with the nodes in use. -/
structure SlotStore (reuses : Bool) (K V : Type) where
  slots : List (Option (Node Nat K V))

namespace SlotStore

variable {reuses : Bool} {K V : Type}

/-- The slot that the next node goes to. -/
def vacancy (store : SlotStore reuses K V) : Nat :=
  if reuses then store.slots.findIdx Option.isNone else store.slots.length

def put (slots : List (Option (Node Nat K V))) (id : Nat) (node : Node Nat K V) :
    List (Option (Node Nat K V)) :=
  if id < slots.length then slots.set id (some node) else slots ++ [some node]

def alloc (store : SlotStore reuses K V) (node : Node Nat K V) :
    Run (Nat × SlotStore reuses K V) :=
  pure (store.vacancy, ⟨put store.slots store.vacancy node⟩)

def get (store : SlotStore reuses K V) (id : Nat) : Run (Node Nat K V) :=
  match store.slots[id]? with
  | some (some node) => pure node
  | _ => Traced.fail .indexOutOfBounds

def reclaim (store : SlotStore reuses K V) (id : Nat) :
    Run (Node Nat K V × SlotStore reuses K V) := do
  let node ← store.get id
  pure (node, ⟨store.slots.set id none⟩)

def getMut (store : SlotStore reuses K V) (id : Nat) :
    Run (Node Nat K V × (Node Nat K V → SlotStore reuses K V)) := do
  let node ← store.get id
  pure (node, fun written => ⟨store.slots.set id (some written)⟩)

instance : NodeStore (SlotStore reuses K V) Nat K V where
  alloc := alloc
  reclaim := reclaim
  get := get
  getMut := getMut
  reset _ := alloc ⟨[]⟩ Node.emptyLeaf

def view (store : SlotStore reuses K V) (id : Nat) : Option (Node Nat K V) :=
  store.slots[id]?.join

variable {store : SlotStore reuses K V} {id : Nat} {node : Node Nat K V}

theorem view_eq_some : store.view id = some node ↔ store.slots[id]? = some (some node) :=
  Option.join_eq_some_iff

theorem get_live (live : store.view id = some node) : store.get id = pure node := by
  rw [get, view_eq_some.mp live]

theorem changesAt_set (live : store.view id = some node)
    (value : Option (Node Nat K V)) :
    ChangesAt store.view (view (⟨store.slots.set id value⟩ : SlotStore reuses K V)) id
      value where
  here := by
    obtain ⟨inside, -⟩ := List.getElem?_eq_some_iff.mp (view_eq_some.mp live)
    rw [view, List.getElem?_set_self inside]
    rfl
  elsewhere other different := by
    rw [view, view, List.getElem?_set_ne different.symm]

theorem vacancy_le (store : SlotStore reuses K V) :
    store.vacancy ≤ store.slots.length := by
  unfold vacancy
  split_ifs
  · exact List.findIdx_le_length
  · exact Nat.le_refl _

/-- The slot for the next node is vacant. -/
theorem view_vacancy (store : SlotStore reuses K V) :
    store.view store.vacancy = none := by
  rcases Nat.lt_or_eq_of_le store.vacancy_le with inside | atEnd
  · have found : store.vacancy = store.slots.findIdx Option.isNone := by
      unfold vacancy at inside ⊢
      split_ifs at inside ⊢
      · rfl
      · exact absurd inside (Nat.lt_irrefl _)
    rw [found] at inside
    have isNone := List.findIdx_getElem (w := inside)
    rw [view, found, List.getElem?_eq_getElem inside, Option.isNone_iff_eq_none.mp isNone]
    rfl
  · rw [view, atEnd, List.getElem?_eq_none (Nat.le_refl _)]
    rfl

theorem changesAt_alloc (store : SlotStore reuses K V) (node : Node Nat K V) :
    ChangesAt store.view
      (view (⟨put store.slots store.vacancy node⟩ : SlotStore reuses K V))
      store.vacancy (some node) := by
  unfold put
  rcases Nat.lt_or_eq_of_le store.vacancy_le with inside | atEnd
  · rw [if_pos inside]
    refine ⟨?_, fun other different => ?_⟩
    · rw [view, List.getElem?_set_self inside]
      rfl
    · rw [view, view, List.getElem?_set_ne different.symm]
  · rw [atEnd, if_neg (Nat.lt_irrefl _)]
    refine ⟨?_, fun other different => ?_⟩
    · rw [view, List.getElem?_concat_length]
      rfl
    · rcases Nat.lt_or_gt_of_ne different with below | above
      · rw [view, view, List.getElem?_append_left below]
      · rw [view, view, List.getElem?_eq_none (by simp; omega),
          List.getElem?_eq_none (by omega)]

instance : LawfulNodeStore (SlotStore reuses K V) where
  view := view
  Valid _ := True
  Room _ _ := True
  room_mono _ _ := trivial
  get_live _ live := get_live live
  getMut_live {store id node} _ live := by
    refine ⟨_, ?_, fun written => ⟨trivial, changesAt_set live (some written),
      fun _ _ => trivial⟩⟩
    change getMut store id = _
    rw [getMut, get_live live, pure_bind]
  alloc_fresh {store} node _ _ := ⟨_, _, rfl, view_vacancy store, trivial,
    changesAt_alloc store node, fun _ _ => trivial⟩
  reclaim_live {store id node} _ live := by
    refine ⟨⟨store.slots.set id none⟩, ?_, trivial, changesAt_set live none,
      fun _ _ => trivial⟩
    change reclaim store id = _
    rw [reclaim, get_live live, pure_bind]

end SlotStore

end IndexDb
