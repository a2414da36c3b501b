import IndexDb.InMemoryLaws
import IndexDb.Library.FreshHeap

/-!
# The arena is a heap of nodes

To a client that keeps to the ids that it holds, and holds no more than there are ids,
the arena behind the tree is a heap with fresh names.  It hands reclaimed slots out
again before it grows, so its slab is as long as the largest number of ids in use at a
time since the last reset.  The client need not be the B+tree.
-/

namespace IndexDb

/-- The calls of the storage seam.  A write through a mutable borrow puts back what
the client makes of the node. -/
def NodeStore.calls (S : Type) {Id K V : Type} [NodeStore S Id K V] :
    HeapCalls Run S Id (Node Id K V) where
  alloc := NodeStore.alloc
  reclaim := NodeStore.reclaim
  read := NodeStore.get
  rewrite store id change := do
    let (node, write) ← NodeStore.getMut store id
    pure (node, write (change node))
  reset := NodeStore.reset

namespace InMemoryStore

variable {K V : Type}

/-- The ids in use resolve to the cells of the heap.  All other slots are free, and
there are as many slots as the heap had cells at its peak. -/
structure Matches (store : InMemoryStore K V) (heap : Heap NodeId (Node NodeId K V))
    (peak : Nat) : Prop where
  valid : store.Valid
  view_eq : ∀ id, store.view id = heap.cells id
  counted : store.slab.length = heap.live.card + store.free.length
  peak_eq : store.slab.length = peak

variable {store next : InMemoryStore K V} {heap : Heap NodeId (Node NodeId K V)}
  {peak : Nat} {id : NodeId} {node written : Node NodeId K V}

theorem matches_new : (new : InMemoryStore K V).Matches Heap.empty 0 where
  valid := valid_new
  view_eq id := by simp [view, new, Heap.empty]
  counted := rfl
  peak_eq := rfl

theorem view_put (change : ChangesAt store.view next.view id (some written))
    (viewEq : ∀ id, store.view id = heap.cells id) (other : NodeId) :
    next.view other = (heap.put id written).cells other := by
  by_cases same : other = id
  · subst same
    rw [change.here, Heap.put_same]
  · rw [change.elsewhere other same, viewEq, Heap.put_other same]

theorem view_drop (change : ChangesAt store.view next.view id none)
    (viewEq : ∀ id, store.view id = heap.cells id) (other : NodeId) :
    next.view other = (heap.drop id).cells other := by
  by_cases same : other = id
  · subst same
    rw [change.here, Heap.drop_same]
  · rw [change.elsewhere other same, viewEq, Heap.drop_other same]

/-- A new node gets an id that is not in use, in a slot that was free or is added. -/
theorem Matches.alloc (matched : store.Matches heap peak) (few : heap.live.card < UInt32.size)
    (node : Node NodeId K V) :
    ∃ id next, store.alloc node = pure (id, next) ∧ id ∉ heap.live ∧
      next.Matches (heap.put id node) (max peak (heap.live.card + 1)) := by
  have counted := matched.counted
  have peakEq := matched.peak_eq
  cases freeEq : store.free with
  | cons id free =>
      obtain ⟨returned, valid, change⟩ := alloc_reused matched.valid freeEq node
      have fresh : id ∉ heap.live := by
        rw [Heap.unused_iff, ← matched.view_eq]
        simp [view, freeEq]
      rw [freeEq, List.length_cons] at counted
      refine ⟨id, _, returned, fresh, valid, view_put change matched.view_eq, ?_, ?_⟩
      · simp only [List.length_set, Heap.put_fresh_card node fresh]
        omega
      · simp only [List.length_set]
        omega
  | nil =>
      rw [freeEq, List.length_nil, Nat.add_zero] at counted
      obtain ⟨id, -, returned, unused, valid, change⟩ :=
        alloc_grown freeEq (counted ▸ few) node
      have fresh : id ∉ heap.live := by
        rw [Heap.unused_iff, ← matched.view_eq, unused]
      refine ⟨id, _, returned, fresh, valid, view_put change matched.view_eq, ?_, ?_⟩
      · simp only [List.length_append, List.length_singleton, Heap.put_fresh_card node fresh,
          List.length_nil]
        omega
      · simp only [List.length_append, List.length_singleton]
        omega

theorem Matches.reclaim (matched : store.Matches heap peak)
    (held : heap.cells id = some node) :
    ∃ next, store.reclaim id = pure (node, next) ∧ next.Matches (heap.drop id) peak := by
  have live : store.view id = some node := (matched.view_eq id).trans held
  obtain ⟨next, returned, valid, change, -⟩ := reclaim_live matched.valid live
  have found := Vec.get_eq_pure (view_eq_some.mp live).2
  have nextEq : next = ⟨store.slab.set id.slot Node.emptyLeaf, id :: store.free⟩ := by
    have stepwise : store.reclaim id =
        pure (node, ⟨store.slab.set id.slot Node.emptyLeaf, id :: store.free⟩) := by
      simp [InMemoryStore.reclaim, found, Vec.set, slot_lt live]
    exact (Prod.mk.inj (Traced.pure_inj.mp (returned.symm.trans stepwise))).2
  have fewer := Heap.drop_card (Heap.live_of_some held)
  have counted := matched.counted
  have peakEq := matched.peak_eq
  refine ⟨next, returned, valid, view_drop change matched.view_eq, ?_, ?_⟩
  · rw [nextEq]
    simp only [List.length_set, List.length_cons]
    omega
  · rw [nextEq]
    simpa using peakEq

theorem Matches.get (matched : store.Matches heap peak) (held : heap.cells id = some node) :
    store.get id = pure node :=
  get_live ((matched.view_eq id).trans held)

/-- The free list holds the slots that no id in use names. -/
theorem Matches.mem_free (matched : store.Matches heap peak) :
    id ∈ store.free ↔ id.slot < store.slab.length ∧ id ∉ heap.live := by
  rw [Heap.unused_iff, ← matched.view_eq]
  constructor
  · intro isFree
    have vacant := matched.valid.vacant id isFree
    exact ⟨(List.getElem?_eq_some_iff.mp vacant).1, by simp [view, isFree]⟩
  · rintro ⟨inside, unused⟩
    by_contra taken
    simp [view, taken, List.getElem?_eq_getElem inside] at unused

theorem Matches.getMut (matched : store.Matches heap peak)
    (held : heap.cells id = some node) :
    ∃ write, store.getMut id = pure (node, write) ∧
      ∀ written, (write written).Matches (heap.put id written) peak := by
  have live : store.view id = some node := (matched.view_eq id).trans held
  obtain ⟨write, returned, law⟩ := getMut_live matched.valid live
  refine ⟨write, returned, fun written => ?_⟩
  obtain ⟨valid, change, -⟩ := law written
  have writeEq := getMut_write returned written
  refine ⟨valid, view_put change matched.view_eq, ?_, ?_⟩
  · rw [writeEq, Heap.put_held_card written (Heap.live_of_some held), List.length_set]
    exact matched.counted
  · rw [writeEq, List.length_set]
    exact matched.peak_eq

/-- A reset leaves an empty leaf under one id, whatever was there. -/
theorem reset_matches (store : InMemoryStore K V) :
    ∃ id next, store.reset = pure (id, next) ∧
      next.Matches (Heap.empty.put id Node.emptyLeaf) 1 := by
  obtain ⟨id, next, returned, -, matched⟩ :=
    matches_new.alloc (Nat.two_pow_pos 32) (Node.emptyLeaf : Node NodeId K V)
  exact ⟨id, next, returned, matched⟩

/-- The arena does what a heap may do, call by call. -/
theorem implements_heap :
    (NodeStore.calls (InMemoryStore K V)).Implements UInt32.size Node.emptyLeaf Matches where
  alloc node matched few := matched.alloc few node
  reclaim matched held := matched.reclaim held
  read matched held := matched.get held
  rewrite change matched held := by
    obtain ⟨write, returned, written⟩ := matched.getMut held
    refine ⟨write (change _), ?_, written _⟩
    change (_ >>= _) = _
    rw [show NodeStore.getMut _ _ = _ from returned, pure_bind]
  reset := fun {store} {_} {_} _ => reset_matches store

/-- Every safe client of a new arena runs to its end, with a result and nodes that a heap
with fresh names gives it, in a slab as long as the peak of the ids in use. -/
theorem serves_heap {R : Type} (client : HeapClient NodeId (Node NodeId K V) R)
    (safe : client.Safe UInt32.size Node.emptyLeaf Heap.empty) :
    ∃ result store heap peak,
      client.run (NodeStore.calls (InMemoryStore K V)) new = pure (result, store) ∧
      client.Yields Node.emptyLeaf Heap.empty 0 result heap peak ∧
      (∀ id node, heap.cells id = some node → store.get id = pure node) ∧
      (∀ id, id ∈ store.free ↔ id.slot < store.slab.length ∧ id ∉ heap.live) ∧
      heap.live.card + store.free.length = store.slab.length ∧
      store.slab.length = peak := by
  obtain ⟨result, store, heap, peak, ran, yields, matched⟩ :=
    safe.run implements_heap matches_new
  exact ⟨result, store, heap, peak, ran, yields, fun id node held => matched.get held,
    fun id => matched.mem_free, matched.counted.symm, matched.peak_eq⟩

/-- A client that reuses the slot of one node for another. -/
theorem serves_heap_reuse :
    let leaf (key : Nat) : Node NodeId Nat Nat := .leaf ⟨[key], [key]⟩
    let client : HeapClient NodeId (Node NodeId Nat Nat) (Node NodeId Nat Nat) :=
      .alloc (leaf 1) fun first => .alloc (leaf 2) fun second => .reclaim first fun node =>
        .alloc node fun _ => .rewrite second (fun _ => leaf 3) fun old => .finish old
    ∃ result store heap peak,
      client.run (NodeStore.calls (InMemoryStore Nat Nat)) new = pure (result, store) ∧
      client.Yields Node.emptyLeaf Heap.empty 0 result heap peak ∧
      (∀ id node, heap.cells id = some node → store.get id = pure node) ∧
      (∀ id, id ∈ store.free ↔ id.slot < store.slab.length ∧ id ∉ heap.live) ∧
      heap.live.card + store.free.length = store.slab.length ∧
      store.slab.length = peak := by
  intro leaf client
  refine serves_heap client ⟨by decide, fun first free => ?_⟩
  have one := Heap.put_fresh_card (leaf 1) free
  refine ⟨one ▸ by decide, fun second fresh => ?_⟩
  have two := Heap.put_fresh_card (leaf 2) fresh
  have held : ((Heap.empty.put first (leaf 1)).put second (leaf 2)).cells first =
      some (leaf 1) := by
    refine (Heap.put_other fun same => fresh ?_).trans Heap.put_same
    exact same ▸ Heap.live_of_some Heap.put_same
  have fewer := Heap.drop_card (Heap.live_of_some held)
  have kept : (((Heap.empty.put first (leaf 1)).put second (leaf 2)).drop first).cells
      second = some (leaf 2) := by
    refine (Heap.drop_other fun same => fresh ?_).trans Heap.put_same
    exact same ▸ Heap.live_of_some Heap.put_same
  refine ⟨leaf 1, held, ?_, fun third unused => ⟨leaf 2, ?_, trivial⟩⟩
  · have small : (Heap.empty : Heap NodeId (Node NodeId Nat Nat)).live.card = 0 := rfl
    simp only [UInt32.size]
    omega
  · refine (Heap.put_other fun same => unused ?_).trans kept
    exact same ▸ Heap.live_of_some kept

end InMemoryStore

end IndexDb
