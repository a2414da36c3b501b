import IndexDb.InMemoryLaws
import Mathlib.Data.Finset.Erase
import Mathlib.Data.Finset.Insert

/-!
# Are new ids fresh?

A client of the store knows which ids are live: those handed out and not
reclaimed since.  While the slab is shorter than the ids are many, or a slot is
free, a new id is not live yet.  At the length where the index no longer fits,
the cast wraps around to an id that is.
-/

namespace IndexDb

variable {K V : Type}

/-- A store with the ids that are live. -/
structure Client (K V : Type) where
  store : InMemoryStore K V
  live : Finset NodeId

/-- The next id can be told from the live ones. -/
def InMemoryStore.HasRoom (store : InMemoryStore K V) : Prop :=
  store.free ≠ [] ∨ store.slab.length < UInt32.size

namespace Client

/-- One call on the store.  Only live ids are written or reclaimed, and `alloc`
is called only on the stores that `allowed` says. -/
inductive Step (allowed : InMemoryStore K V → Prop) : Client K V → Client K V → Prop
  | alloc {store next : InMemoryStore K V} {live : Finset NodeId} {id : NodeId}
      (node : Node NodeId K V) (isAllowed : allowed store)
      (returned : (store.alloc node).result = .ok (id, next)) :
      Step allowed ⟨store, live⟩ ⟨next, insert id live⟩
  | reset {store next : InMemoryStore K V} {live : Finset NodeId} {id : NodeId}
      (returned : store.reset.result = .ok (id, next)) :
      Step allowed ⟨store, live⟩ ⟨next, {id}⟩
  | write {store : InMemoryStore K V} {live : Finset NodeId} {id : NodeId}
      {old : Node NodeId K V} {write : Node NodeId K V → InMemoryStore K V}
      (isLive : id ∈ live) (written : Node NodeId K V)
      (returned : (store.getMut id).result = .ok (old, write)) :
      Step allowed ⟨store, live⟩ ⟨write written, live⟩
  | reclaim {store next : InMemoryStore K V} {live : Finset NodeId} {id : NodeId}
      {node : Node NodeId K V} (isLive : id ∈ live)
      (returned : (store.reclaim id).result = .ok (node, next)) :
      Step allowed ⟨store, live⟩ ⟨next, live.erase id⟩

/-- The states of all runs from the new store. -/
def Reached (allowed : InMemoryStore K V → Prop) : Client K V → Prop :=
  Relation.ReflTransGen (Step allowed) ⟨.new, ∅⟩

/-- Allocating the node returns an id that is not live, which resolves to the
node afterwards, and every live id resolves as before. -/
def AllocsFresh (client : Client K V) (node : Node NodeId K V) : Prop :=
  ∃ id next, (client.store.alloc node).result = .ok (id, next) ∧
    id ∉ client.live ∧ (next.get id).result = .ok node ∧
    ∀ other ∈ client.live,
      (next.get other).result = (client.store.get other).result

/-- The live ids are those that the store resolves. -/
structure Sound (client : Client K V) : Prop where
  valid : client.store.Valid
  live_iff : ∀ id, id ∈ client.live ↔ client.store.view id ≠ none

variable {client next : Client K V} {allowed : InMemoryStore K V → Prop}

theorem Sound.resolves (sound : client.Sound) {id : NodeId} (isLive : id ∈ client.live) :
    ∃ node, client.store.view id = some node :=
  Option.ne_none_iff_exists'.mp ((sound.live_iff id).mp isLive)

theorem sound_new : (⟨.new, ∅⟩ : Client K V).Sound where
  valid := InMemoryStore.valid_new
  live_iff id := by simp [InMemoryStore.view, InMemoryStore.new]

theorem room_one {store : InMemoryStore K V} (room : store.HasRoom) : store.Room 1 := by
  rcases room with some | small
  · have := List.length_pos_iff.mpr some
    exact Nat.le_add_right_of_le this
  · simp only [InMemoryStore.Room]
    omega

/-- With room, the new id is fresh and joins the live ones. -/
theorem Sound.alloc (sound : client.Sound) (room : client.store.HasRoom)
    (node : Node NodeId K V) :
    ∃ id next, client.store.alloc node = pure (id, next) ∧
      client.store.view id = none ∧
      ChangesAt client.store.view next.view id (some node) ∧
      Sound ⟨next, insert id client.live⟩ := by
  obtain ⟨id, next, returned, unused, valid, change, -⟩ :=
    InMemoryStore.alloc_fresh node sound.valid (.inl (room_one room))
  refine ⟨id, next, returned, unused, change, valid, fun other => ?_⟩
  by_cases same : other = id
  · subst same
    simp [change.here]
  · rw [Finset.mem_insert, change.elsewhere other same]
    exact (or_iff_right same).trans (sound.live_iff other)

/-- A step with room keeps the live ids those that resolve. -/
theorem Sound.step (sound : client.Sound)
    (step : Step InMemoryStore.HasRoom client next) : next.Sound := by
  cases step with
  | @alloc store next live id node room returned =>
      obtain ⟨id', next', got, -, -, newSound⟩ := sound.alloc room node
      rw [got] at returned
      obtain ⟨rfl, rfl⟩ := Prod.mk.inj (Except.ok.inj returned)
      exact newSound
  | @reset store next live id returned =>
      have room : (InMemoryStore.new : InMemoryStore K V).HasRoom :=
        .inr (Nat.two_pow_pos 32)
      obtain ⟨id', next', got, -, -, newSound⟩ :=
        (sound_new : Sound ⟨InMemoryStore.new, ∅⟩).alloc room Node.emptyLeaf
      have again : store.reset.result = .ok (id', next') := congrArg Traced.result got
      rw [again] at returned
      obtain ⟨rfl, rfl⟩ := Prod.mk.inj (Except.ok.inj returned)
      exact newSound
  | @write store live id old write isLive written returned =>
      obtain ⟨node, resolved⟩ := sound.resolves isLive
      obtain ⟨write', got, law⟩ := InMemoryStore.getMut_live sound.valid resolved
      rw [got] at returned
      obtain ⟨-, rfl⟩ := Prod.mk.inj (Except.ok.inj returned)
      obtain ⟨valid, change, -⟩ := law written
      refine ⟨valid, fun other => ?_⟩
      by_cases same : other = id
      · subst same
        simp [isLive, change.here]
      · exact (sound.live_iff other).trans (by rw [change.elsewhere other same])
  | @reclaim store next live id node isLive returned =>
      obtain ⟨node', resolved⟩ := sound.resolves isLive
      obtain ⟨next', got, valid, change, -⟩ :=
        InMemoryStore.reclaim_live sound.valid resolved
      rw [got] at returned
      obtain ⟨-, rfl⟩ := Prod.mk.inj (Except.ok.inj returned)
      refine ⟨valid, fun other => ?_⟩
      by_cases same : other = id
      · subst same
        simp [change.here]
      · rw [Finset.mem_erase, change.elsewhere other same]
        exact (and_iff_right same).trans (sound.live_iff other)

theorem Sound.reached (reached : Reached InMemoryStore.HasRoom client) :
    client.Sound := by
  induction reached with
  | refl => exact sound_new
  | tail _ step ih => exact ih.step step

theorem Sound.allocsFresh (sound : client.Sound) (room : client.store.HasRoom)
    (node : Node NodeId K V) : client.AllocsFresh node := by
  obtain ⟨id, next, returned, unused, change, newSound⟩ := sound.alloc room node
  have notLive : id ∉ client.live := fun isLive => (sound.live_iff id).mp isLive unused
  refine ⟨id, next, congrArg Traced.result returned, notLive, ?_, ?_⟩
  · rw [InMemoryStore.get_live change.here]
    rfl
  · intro other isLive
    obtain ⟨old, resolved⟩ := sound.resolves isLive
    have different : other ≠ id := fun equal => notLive (equal ▸ isLive)
    rw [InMemoryStore.get_live resolved,
      InMemoryStore.get_live ((change.elsewhere other different).trans resolved)]

/-- Without room the slab is as long as the ids are many, and the index wraps
around to the first id. -/
theorem Sound.not_allocsFresh (sound : client.Sound) (full : ¬ client.store.HasRoom)
    (node : Node NodeId K V) : ¬ client.AllocsFresh node := by
  rintro ⟨id, next, returned, notLive, -⟩
  have freeEq : client.store.free = [] := by
    by_contra some
    exact full (.inl some)
  have length : client.store.slab.length = UInt32.size :=
    Nat.le_antisymm sound.valid.addressable (Nat.le_of_not_lt fun small =>
      full (.inr small))
  rw [InMemoryStore.alloc_pushes freeEq, length] at returned
  obtain ⟨rfl, -⟩ := Prod.mk.inj (Except.ok.inj returned)
  refine notLive ((sound.live_iff _).mpr ?_)
  have wrapped : (⟨UInt32.ofNat UInt32.size⟩ : NodeId).slot = 0 := rfl
  have inside : 0 < client.store.slab.length := by
    rw [length]
    exact Nat.two_pow_pos 32
  simp [InMemoryStore.view, freeEq, wrapped, List.getElem?_eq_getElem inside]

/-- In every state of a run that allocates only with room, a new id is fresh
exactly when there is room for it. -/
theorem reached_allocsFresh_iff (reached : Reached InMemoryStore.HasRoom client)
    (node : Node NodeId K V) :
    client.AllocsFresh node ↔ client.store.HasRoom := by
  have sound := Sound.reached reached
  refine ⟨fun fresh => ?_, fun room => sound.allocsFresh room node⟩
  by_contra full
  exact sound.not_allocsFresh full node fresh

/-- Two allocations, then a third in the slot that the first gave back. -/
theorem reached_allocsFresh_iff_reused :
    AllocsFresh ⟨⟨[.leaf ⟨[3], [30]⟩, .leaf ⟨[2], [20]⟩], []⟩, {⟨0⟩, ⟨1⟩}⟩
        (Node.emptyLeaf : Node NodeId Nat Nat) ↔
      InMemoryStore.HasRoom
        (⟨[.leaf ⟨[3], [30]⟩, .leaf ⟨[2], [20]⟩], []⟩ : InMemoryStore Nat Nat) := by
  refine reached_allocsFresh_iff ?_ Node.emptyLeaf
  have one : Reached InMemoryStore.HasRoom
      (⟨⟨[.leaf ⟨[1], [10]⟩], []⟩, {⟨0⟩}⟩ : Client Nat Nat) :=
    .single (.alloc _ (.inr (by decide)) rfl)
  have two : Reached InMemoryStore.HasRoom
      (⟨⟨[.leaf ⟨[1], [10]⟩, .leaf ⟨[2], [20]⟩], []⟩, {⟨1⟩, ⟨0⟩}⟩ : Client Nat Nat) :=
    one.tail (.alloc _ (.inr (by decide)) rfl)
  have freed : Reached InMemoryStore.HasRoom
      (⟨⟨[Node.emptyLeaf, .leaf ⟨[2], [20]⟩], [⟨0⟩]⟩, {⟨1⟩}⟩ : Client Nat Nat) :=
    two.tail (.reclaim (Finset.mem_insert_of_mem (Finset.mem_singleton_self _)) rfl)
  exact freed.tail (.alloc _ (.inl (List.cons_ne_nil _ _)) rfl)

/-- So many allocations in a row fill the slab, and the first id stays live. -/
theorem reached_replicate (n : Nat) :
    ∃ live, Reached (fun _ => True)
      (⟨⟨List.replicate n Node.emptyLeaf, []⟩, live⟩ : Client K V) ∧
      (0 < n → ⟨0⟩ ∈ live) := by
  induction n with
  | zero => exact ⟨∅, .refl, fun none => absurd none (Nat.lt_irrefl 0)⟩
  | succ n ih =>
      obtain ⟨live, reached, first⟩ := ih
      let store : InMemoryStore K V := ⟨List.replicate n Node.emptyLeaf, []⟩
      have returned : (store.alloc Node.emptyLeaf).result =
          .ok (⟨UInt32.ofNat n⟩, ⟨List.replicate (n + 1) Node.emptyLeaf, []⟩) := by
        rw [InMemoryStore.alloc_pushes rfl, List.replicate_succ',
          List.length_replicate]
      refine ⟨_, reached.tail (.alloc Node.emptyLeaf trivial returned), fun _ => ?_⟩
      rcases Nat.eq_zero_or_pos n with rfl | some
      · exact Finset.mem_insert_self _ _
      · exact Finset.mem_insert_of_mem (first some)

/-- After as many allocations as there are ids, the next one returns an id that
is live. -/
theorem reached_full_not_allocsFresh :
    ∃ live, Reached (fun _ => True)
      (⟨⟨List.replicate UInt32.size Node.emptyLeaf, []⟩, live⟩ : Client Nat Nat) ∧
      ¬ AllocsFresh ⟨⟨List.replicate UInt32.size Node.emptyLeaf, []⟩, live⟩
        (Node.emptyLeaf : Node NodeId Nat Nat) := by
  obtain ⟨live, reached, first⟩ := reached_replicate UInt32.size
  refine ⟨live, reached, ?_⟩
  rintro ⟨id, next, returned, notLive, -⟩
  rw [InMemoryStore.alloc_pushes rfl, List.length_replicate] at returned
  obtain ⟨rfl, -⟩ := Prod.mk.inj (Except.ok.inj returned)
  exact notLive (first (Nat.two_pow_pos 32))

end Client

end IndexDb
