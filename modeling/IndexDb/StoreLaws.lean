import IndexDb.Library.OwnedCells
import IndexDb.Store
import Mathlib.Logic.Relation

/-!
# The laws of a node store

A lawful store has a ghost view of what each live id resolves to.  Its
operations agree with the view and change it at one id only.  A store may run
out of ids: `Room store n` says that the next `n` allocations succeed.  An
allocation without room is only promised to go wrong visibly, by a lossy cast.
-/

namespace IndexDb

open Relation (ReflTransGen)

class LawfulNodeStore (S : Type) {Id K V : outParam Type}
    [NodeStore S Id K V] where
  /-- What a live id resolves to. -/
  view : S → Id → Option (Node Id K V)
  /-- The invariant of the backend. -/
  Valid : S → Prop
  /-- That many allocations succeed. -/
  Room : S → Nat → Prop
  room_mono {store : S} {m n : Nat} : m ≤ n → Room store n → Room store m
  get_live {store : S} {id : Id} {node : Node Id K V} : Valid store →
    view store id = some node → NodeStore.get store id = pure node
  getMut_live {store : S} {id : Id} {node : Node Id K V} : Valid store →
    view store id = some node →
    ∃ write, NodeStore.getMut store id = pure (node, write) ∧
      ∀ written, Valid (write written) ∧
        ChangesAt (view store) (view (write written)) id (some written) ∧
        ∀ n, Room store n → Room (write written) n
  alloc_fresh {store : S} (node : Node Id K V) : Valid store →
    Room store 1 ∨ (NodeStore.alloc store node).Exact →
    ∃ id next, NodeStore.alloc store node = pure (id, next) ∧
      view store id = none ∧ Valid next ∧
      ChangesAt (view store) (view next) id (some node) ∧
      ∀ n, Room store (n + 1) → Room next n
  reclaim_live {store : S} {id : Id} {node : Node Id K V} : Valid store →
    view store id = some node →
    ∃ next, NodeStore.reclaim store id = pure (node, next) ∧ Valid next ∧
      ChangesAt (view store) (view next) id none ∧
      ∀ n, Room store n → Room next n

section Rewriting

variable {S Id K V : Type} [NodeStore S Id K V]

/-- One change of a store: a write, or else an allocation when it grows and a
reclaim when it does not. -/
inductive Shift : Bool → S → S → Prop
  | write {grow : Bool} {store : S} {id : Id} {node : Node Id K V}
      {write : Node Id K V → S} (written : Node Id K V)
      (returned : NodeStore.getMut store id = pure (node, write)) :
      Shift grow store (write written)
  | alloc {store next : S} {node : Node Id K V} {id : Id}
      (returned : NodeStore.alloc store node = pure (id, next)) :
      Shift true store next
  | reclaim {store next : S} {id : Id} {node : Node Id K V}
      (returned : NodeStore.reclaim store id = pure (node, next)) :
      Shift false store next

variable [LawfulNodeStore S]

open LawfulNodeStore

/-- A valid store turned the old cells into the new ones, with at most so many
allocations. -/
structure Rewrites (grow : Bool) (store next : S)
    (old new : Cells Id (Node Id K V)) (allocations : Nat) : Prop where
  valid : Valid next
  transforms : Transforms (view store) (view next) old new
  path : ReflTransGen (Shift grow) store next
  room : ∀ n, Room store (n + allocations) → Room next n

variable {grow : Bool} {store middle next : S} {id : Id} {node : Node Id K V}
  {old mid new : Cells Id (Node Id K V)} {m n : Nat}

theorem Rewrites.refl (valid : Valid store) (owned : Owned (view store) old) :
    Rewrites grow store store old old 0 :=
  ⟨valid, .refl owned, .refl, fun _ room => room⟩

theorem Rewrites.trans (one : Rewrites grow store middle old mid m)
    (two : Rewrites grow middle next mid new n) :
    Rewrites grow store next old new (m + n) :=
  ⟨two.valid, one.transforms.trans two.transforms, one.path.trans two.path,
    fun k room => two.room k (one.room _ (by
      rwa [Nat.add_assoc, Nat.add_comm n m]))⟩

theorem Rewrites.inside (change : Rewrites grow store next old new n)
    (left right : Cells Id (Node Id K V))
    (owned : Owned (view store) (left ++ old ++ right)) :
    Rewrites grow store next (left ++ old ++ right) (left ++ new ++ right) n :=
  ⟨change.valid, change.transforms.inside owned, change.path, change.room⟩

theorem Rewrites.perm {old' new' : Cells Id (Node Id K V)}
    (change : Rewrites grow store next old new n) (oldPerm : old.Perm old')
    (newPerm : new.Perm new') : Rewrites grow store next old' new' n :=
  ⟨change.valid, change.transforms.perm oldPerm newPerm, change.path,
    change.room⟩

/-- A change of some cells is a change of all of them. -/
theorem Rewrites.among {focus newFocus rest : Cells Id (Node Id K V)}
    (change : Rewrites grow store next focus newFocus n)
    (owned : Owned (view store) old) (oldPerm : old.Perm (focus ++ rest))
    (newPerm : new.Perm (newFocus ++ rest)) : Rewrites grow store next old new n :=
  (change.inside [] rest (owned.perm oldPerm)).perm oldPerm.symm newPerm.symm

theorem Rewrites.owned (change : Rewrites grow store next old new n) :
    Owned (view next) new :=
  change.transforms.owned

theorem get_owned (valid : Valid store) (owned : Owned (view store) old)
    (member : (id, node) ∈ old) : NodeStore.get store id = pure node :=
  get_live valid (owned.look_of_mem member)

variable (left right : Cells Id (Node Id K V))

theorem getMut_owned (valid : Valid store)
    (owned : Owned (view store) (left ++ (id, node) :: right)) :
    ∃ write, NodeStore.getMut store id = pure (node, write) ∧
      ∀ (grow : Bool) (written : Node Id K V),
        Rewrites grow store (write written) (left ++ (id, node) :: right)
          (left ++ (id, written) :: right) 0 := by
  obtain ⟨write, returned, law⟩ :=
    getMut_live valid owned.look_middle
  refine ⟨write, returned, fun grow written => ?_⟩
  obtain ⟨newValid, change, room⟩ := law written
  have here : Rewrites grow store (write written) [(id, node)] [(id, written)] 0 :=
    ⟨newValid, .write change, .single (.write written returned), room⟩
  simpa using here.inside left right (by simpa using owned)

theorem alloc_owned (node : Node Id K V) (valid : Valid store)
    (room : Room store 1 ∨ (NodeStore.alloc store node).Exact)
    (owned : Owned (view store) (left ++ right)) :
    ∃ id next, NodeStore.alloc store node = pure (id, next) ∧
      Rewrites true store next (left ++ right) (left ++ (id, node) :: right) 1 := by
  obtain ⟨id, next, returned, free, newValid, change, newRoom⟩ :=
    alloc_fresh node valid room
  refine ⟨id, next, returned, ?_⟩
  have here : Rewrites true store next [] [(id, node)] 1 :=
    ⟨newValid, .take free change, .single (.alloc returned), newRoom⟩
  simpa using here.inside left right (by simpa using owned)

theorem reclaim_owned (valid : Valid store)
    (owned : Owned (view store) (left ++ (id, node) :: right)) :
    ∃ next, NodeStore.reclaim store id = pure (node, next) ∧
      Rewrites false store next (left ++ (id, node) :: right) (left ++ right) 0 := by
  obtain ⟨next, returned, newValid, change, room⟩ :=
    reclaim_live valid owned.look_middle
  refine ⟨next, returned, ?_⟩
  have here : Rewrites false store next [(id, node)] [] 0 :=
    ⟨newValid, .give change, .single (.reclaim returned), room⟩
  simpa using here.inside left right (by simpa using owned)

end Rewriting

end IndexDb
