import IndexDb.StoreLaws

/-!
# The in-memory store is lawful

A slot is live when its id is not on the free list.  Free slots are distinct
and hold empty leaves, and the slab never outgrows the ids.
-/

namespace IndexDb

theorem NodeId.slot_inj {first second : NodeId} :
    first.slot = second.slot ↔ first = second := by
  obtain ⟨first⟩ := first
  obtain ⟨second⟩ := second
  simp [NodeId.slot, UInt32.toNat_inj]

namespace InMemoryStore

variable {K V : Type} {store : InMemoryStore K V} {id other : NodeId}
  {node : Node NodeId K V}

/-- What the id of a slot in use resolves to. -/
def view (store : InMemoryStore K V) (id : NodeId) : Option (Node NodeId K V) :=
  if id ∈ store.free then none else store.slab[id.slot]?

structure Valid (store : InMemoryStore K V) : Prop where
  distinct : store.free.Nodup
  vacant : ∀ id ∈ store.free, store.slab[id.slot]? = some Node.emptyLeaf
  addressable : store.slab.length ≤ UInt32.size

/-- The free slots and the slots still to come. -/
def Room (store : InMemoryStore K V) (n : Nat) : Prop :=
  n ≤ store.free.length + (UInt32.size - store.slab.length)

theorem view_eq_some :
    store.view id = some node ↔
      id ∉ store.free ∧ store.slab[id.slot]? = some node := by
  simp only [view]
  split_ifs with isFree <;> simp [isFree]

theorem get_live (live : store.view id = some node) :
    store.get id = pure node :=
  Vec.get_eq_pure (view_eq_some.mp live).2

theorem slot_lt (live : store.view id = some node) :
    id.slot < store.slab.length :=
  (List.getElem?_eq_some_iff.mp (view_eq_some.mp live).2).1

theorem set_other {slab : List (Node NodeId K V)} (different : other ≠ id) :
    (slab.set id.slot node)[other.slot]? = slab[other.slot]? :=
  List.getElem?_set_ne fun equal => different (NodeId.slot_inj.mp equal.symm)

theorem valid_new : Valid (new : InMemoryStore K V) where
  distinct := List.nodup_nil
  vacant := by simp [new]
  addressable := by simp [new]

/-- Writing to a live slot. -/
theorem Valid.write (valid : store.Valid) (live : store.view id = some node)
    (written : Node NodeId K V) :
    Valid { store with slab := store.slab.set id.slot written } where
  distinct := valid.distinct
  vacant := by
    intro other isFree
    have different : other ≠ id := fun equal =>
      (view_eq_some.mp live).1 (equal ▸ isFree)
    rw [set_other different]
    exact valid.vacant other isFree
  addressable := by simpa using valid.addressable

theorem changesAt_write (live : store.view id = some node)
    (written : Node NodeId K V) :
    ChangesAt store.view
      (view { store with slab := store.slab.set id.slot written }) id
      (some written) where
  here := view_eq_some.mpr ⟨(view_eq_some.mp live).1,
    List.getElem?_set_self (slot_lt live)⟩
  elsewhere := fun other different => by simp [view, set_other different]

theorem getMut_live (valid : store.Valid) (live : store.view id = some node) :
    ∃ write, store.getMut id = pure (node, write) ∧
      ∀ written, Valid (write written) ∧
        ChangesAt store.view (view (write written)) id (some written) ∧
        ∀ n, Room store n → Room (write written) n := by
  have found := Vec.get_eq_pure (view_eq_some.mp live).2
  refine ⟨_, by rw [getMut, found, pure_bind], fun written => ?_⟩
  exact ⟨valid.write live written, changesAt_write live written,
    fun n room => by simpa [Room] using room⟩

/-- An id on the free list is handed out again. -/
theorem alloc_reused {free : List NodeId} (valid : store.Valid)
    (freeEq : store.free = id :: free) (node : Node NodeId K V) :
    store.alloc node =
        pure (id, ⟨store.slab.set id.slot node, free⟩) ∧
      Valid ⟨store.slab.set id.slot node, free⟩ ∧
      ChangesAt store.view (view ⟨store.slab.set id.slot node, free⟩) id
        (some node) := by
  have isFree : id ∈ store.free := by simp [freeEq]
  obtain ⟨inside, -⟩ := List.getElem?_eq_some_iff.mp (valid.vacant id isFree)
  have distinct := valid.distinct
  rw [freeEq, List.nodup_cons] at distinct
  refine ⟨?_, ⟨distinct.2, ?_, ?_⟩, ⟨?_, ?_⟩⟩
  · simp [alloc, freeEq, Vec.set, inside]
  · intro other member
    have different : other ≠ id := fun equal => distinct.1 (equal ▸ member)
    rw [set_other different]
    exact valid.vacant other (by simp [freeEq, member])
  · simpa using valid.addressable
  · exact view_eq_some.mpr ⟨distinct.1, List.getElem?_set_self inside⟩
  · intro other different
    simp [view, freeEq, different, set_other different]

/-- Without free slots the slab grows. -/
theorem alloc_grown (freeEq : store.free = [])
    (small : store.slab.length < UInt32.size) (node : Node NodeId K V) :
    ∃ id : NodeId, id.slot = store.slab.length ∧
      store.alloc node = pure (id, ⟨store.slab ++ [node], []⟩) ∧
      store.view id = none ∧
      Valid (⟨store.slab ++ [node], []⟩ : InMemoryStore K V) ∧
      ChangesAt store.view (view ⟨store.slab ++ [node], []⟩) id (some node) := by
  have slotEq : (⟨UInt32.ofNat store.slab.length⟩ : NodeId).slot =
      store.slab.length := by
    simpa [NodeId.slot] using Nat.mod_eq_of_lt small
  refine ⟨⟨UInt32.ofNat store.slab.length⟩, slotEq, ?_, ?_, ?_, ⟨?_, ?_⟩⟩
  · simp [alloc, freeEq, castU32_of_lt small]
  · simp [view, freeEq, slotEq]
  · refine ⟨List.nodup_nil, by simp, ?_⟩
    simp only [List.length_append, List.length_singleton]
    omega
  · simp [view, slotEq]
  · intro other different
    have slotNe : other.slot ≠ store.slab.length := by
      rw [← slotEq]
      exact fun equal => different (NodeId.slot_inj.mp equal)
    simp only [view, freeEq, List.not_mem_nil, if_false]
    rcases Nat.lt_or_gt_of_ne slotNe with below | above
    · rw [List.getElem?_append_left below]
    · rw [List.getElem?_eq_none (by simp; omega),
        List.getElem?_eq_none (by omega)]

theorem alloc_fresh (node : Node NodeId K V) (valid : store.Valid)
    (room : store.Room 1 ∨ (store.alloc node).Exact) :
    ∃ id next, store.alloc node = pure (id, next) ∧ store.view id = none ∧
      Valid next ∧ ChangesAt store.view next.view id (some node) ∧
      ∀ n, store.Room (n + 1) → next.Room n := by
  cases freeEq : store.free with
  | cons id free =>
      obtain ⟨returned, newValid, change⟩ := alloc_reused valid freeEq node
      refine ⟨id, _, returned, by simp [view, freeEq], newValid, change, ?_⟩
      intro n room
      simp only [Room, freeEq, List.length_cons, List.length_set] at room ⊢
      omega
  | nil =>
      have small : store.slab.length < UInt32.size := by
        rcases room with room | isExact
        · simp only [Room, freeEq, List.length_nil] at room
          omega
        · simp only [alloc, freeEq] at isExact
          exact castU32_exact.mp isExact.first
      obtain ⟨id, -, returned, free, newValid, change⟩ :=
        alloc_grown freeEq small node
      refine ⟨id, _, returned, free, newValid, change, ?_⟩
      intro n room
      simp only [Room, freeEq, List.length_nil, List.length_append,
        List.length_singleton] at room ⊢
      omega

theorem reclaim_live (valid : store.Valid) (live : store.view id = some node) :
    ∃ next, store.reclaim id = pure (node, next) ∧ Valid next ∧
      ChangesAt store.view next.view id none ∧
      ∀ n, store.Room n → next.Room n := by
  have inside := slot_lt live
  obtain ⟨notFree, found⟩ := view_eq_some.mp live
  refine ⟨⟨store.slab.set id.slot Node.emptyLeaf, id :: store.free⟩, ?_, ?_,
    ⟨?_, ?_⟩, ?_⟩
  · simp [reclaim, Vec.get_eq_pure found, Vec.set, inside]
  · refine ⟨List.nodup_cons.mpr ⟨notFree, valid.distinct⟩, ?_, ?_⟩
    · intro other member
      by_cases same : other = id
      · subst same
        exact List.getElem?_set_self inside
      · rw [set_other same]
        exact valid.vacant other ((List.mem_cons.mp member).resolve_left same)
    · simpa using valid.addressable
  · simp [view]
  · intro other different
    simp [view, different, set_other different]
  · intro n room
    simp only [Room, List.length_cons, List.length_set] at room ⊢
    omega

instance : LawfulNodeStore (InMemoryStore K V) where
  view := view
  Valid := Valid
  Room := Room
  room_mono := fun le room => Nat.le_trans le room
  get_live := fun _ live => get_live live
  getMut_live := getMut_live
  alloc_fresh := alloc_fresh
  reclaim_live := reclaim_live

section Growth

open Relation (ReflTransGen)

variable {next : InMemoryStore K V}

theorem castU32_result (value : Nat) :
    (castU32 value).result = .ok (UInt32.ofNat value) := by
  unfold castU32
  split_ifs <;> rfl

/-- Without free slots, whatever the cast does to the index. -/
theorem alloc_pushes (freeEq : store.free = []) (node : Node NodeId K V) :
    (store.alloc node).result =
      .ok (⟨UInt32.ofNat store.slab.length⟩, ⟨store.slab ++ [node], []⟩) := by
  simp only [alloc, freeEq]
  refine Traced.bind_result_eq_ok.mpr ⟨_, castU32_result _, rfl⟩

theorem alloc_sets {free : List NodeId} (freeEq : store.free = id :: free)
    {result : NodeId × InMemoryStore K V}
    (returned : (store.alloc node).result = .ok result) :
    result = (id, ⟨store.slab.set id.slot node, free⟩) := by
  simp only [alloc, freeEq, Vec.set] at returned
  split_ifs at returned
  · rw [pure_bind] at returned
    exact (Except.ok.inj returned).symm
  · cases returned

theorem getMut_write {write : Node NodeId K V → InMemoryStore K V}
    (returned : store.getMut id = pure (node, write)) (written : Node NodeId K V) :
    write written = { store with slab := store.slab.set id.slot written } := by
  cases found : store.slab[id.slot]? with
  | none =>
      simp only [getMut, Vec.get, found] at returned
      cases congrArg Traced.result returned
  | some old =>
      rw [getMut, Vec.get_eq_pure found, pure_bind, Traced.pure_inj] at returned
      cases returned
      rfl

/-- What growing does to the slab: it keeps its length unless the free list
runs out, and a free list that has run out stays so. -/
structure Grows (store next : InMemoryStore K V) : Prop where
  longer : store.slab.length ≤ next.slab.length
  reused : next.slab.length = store.slab.length ∨ next.free = []
  drained : store.free = [] → next.free = []

theorem grows_shift (shift : Shift true store next) : Grows store next := by
  cases shift with
  | write written returned =>
      rw [getMut_write returned]
      exact ⟨by simp, .inl (by simp), fun empty => empty⟩
  | @alloc _ _ node id returned =>
      have result : (store.alloc node).result = .ok (id, next) :=
        congrArg Traced.result returned
      cases freeEq : store.free with
      | nil =>
          rw [alloc_pushes freeEq] at result
          cases result
          exact ⟨by simp, .inr rfl, fun _ => rfl⟩
      | cons first free =>
          cases alloc_sets freeEq result
          exact ⟨by simp, .inl (by simp), fun empty => by simp [freeEq] at empty⟩

theorem grows_path (path : ReflTransGen (Shift true) store next) :
    Grows store next := by
  induction path with
  | refl => exact ⟨Nat.le_refl _, .inl rfl, fun empty => empty⟩
  | tail _ shift ih =>
      obtain ⟨longer, reused, drained⟩ := grows_shift shift
      refine ⟨ih.longer.trans longer, ?_, fun empty => drained (ih.drained empty)⟩
      rcases ih.reused with same | empty
      · exact reused.imp (fun equal => equal.trans same) id
      · exact .inr (drained empty)

theorem shrink_shift (shift : Shift false store next) :
    next.slab.length = store.slab.length := by
  cases shift with
  | write written returned =>
      rw [getMut_write returned]
      simp
  | @reclaim _ _ id node returned =>
      have result : (store.reclaim id).result = .ok (node, next) :=
        congrArg Traced.result returned
      obtain ⟨old, -, result⟩ := Traced.bind_result_eq_ok.mp result
      obtain ⟨slab, written, result⟩ := Traced.bind_result_eq_ok.mp result
      cases result
      unfold Vec.set at written
      split_ifs at written
      · cases written
        simp
      · cases written

/-- Without allocations the slab keeps its length. -/
theorem shrink_path (path : ReflTransGen (Shift false) store next) :
    next.slab.length = store.slab.length := by
  induction path with
  | refl => rfl
  | tail _ shift ih => exact (shrink_shift shift).trans ih

end Growth

end InMemoryStore

end IndexDb
