import Mathlib.Control.Basic
import Mathlib.Data.Finset.Card
import Mathlib.Logic.Function.Basic

/-!
# Heaps with fresh names

A heap keeps cells under names.  A client asks for a name for a new cell, gives names
back, and reads and rewrites the cells under names that it holds.  Which name it gets
is the heap's choice among those not in use, and what the client does next may depend
on all answers so far.  A client is safe when it keeps to the names that it holds and
holds few enough at a time, whatever the heap chooses.  Where an implementation matches
the heap step by step, every safe client gets from it what some heap gives.
-/

namespace IndexDb

/-- Cells under names, and the names in use. -/
structure Heap (Id Cell : Type) where
  cells : Id → Option Cell
  live : Finset Id
  live_iff : ∀ id, id ∈ live ↔ cells id ≠ none

/-- What a client does, given the answers. -/
inductive HeapClient (Id Cell R : Type) where
  | finish (result : R)
  | alloc (cell : Cell) (next : Id → HeapClient Id Cell R)
  | reclaim (id : Id) (next : Cell → HeapClient Id Cell R)
  | read (id : Id) (next : Cell → HeapClient Id Cell R)
  | rewrite (id : Id) (change : Cell → Cell) (next : Cell → HeapClient Id Cell R)
  | reset (next : Id → HeapClient Id Cell R)

/-- The calls that an implementation offers. -/
structure HeapCalls (M : Type → Type) (S Id Cell : Type) where
  alloc : S → Cell → M (Id × S)
  reclaim : S → Id → M (Cell × S)
  read : S → Id → M Cell
  rewrite : S → Id → (Cell → Cell) → M (Cell × S)
  reset : S → M (Id × S)

variable {Id Cell R S : Type} {M : Type → Type}

/-- The client, served by the implementation. -/
def HeapClient.run [Monad M] (calls : HeapCalls M S Id Cell) :
    HeapClient Id Cell R → S → M (R × S)
  | .finish result, state => pure (result, state)
  | .alloc cell next, state => do
      let (id, state) ← calls.alloc state cell
      (next id).run calls state
  | .reclaim id next, state => do
      let (cell, state) ← calls.reclaim state id
      (next cell).run calls state
  | .read id next, state => do
      let cell ← calls.read state id
      (next cell).run calls state
  | .rewrite id change next, state => do
      let (cell, state) ← calls.rewrite state id change
      (next cell).run calls state
  | .reset next, state => do
      let (id, state) ← calls.reset state
      (next id).run calls state

namespace Heap

def empty : Heap Id Cell where
  cells _ := none
  live := ∅
  live_iff := by simp

variable [DecidableEq Id]

def put (heap : Heap Id Cell) (id : Id) (cell : Cell) : Heap Id Cell where
  cells := Function.update heap.cells id (some cell)
  live := insert id heap.live
  live_iff other := by
    by_cases same : other = id
    · simp [same]
    · simp [same, heap.live_iff]

def drop (heap : Heap Id Cell) (id : Id) : Heap Id Cell where
  cells := Function.update heap.cells id none
  live := heap.live.erase id
  live_iff other := by
    by_cases same : other = id
    · simp [same]
    · simp [same, heap.live_iff]

variable {heap : Heap Id Cell} {id other : Id} {cell : Cell}

@[simp]
theorem put_same : (heap.put id cell).cells id = some cell :=
  Function.update_self id _ _

theorem put_other (different : other ≠ id) :
    (heap.put id cell).cells other = heap.cells other :=
  Function.update_of_ne different _ _

@[simp]
theorem drop_same : (heap.drop id).cells id = none :=
  Function.update_self id _ _

theorem drop_other (different : other ≠ id) :
    (heap.drop id).cells other = heap.cells other :=
  Function.update_of_ne different _ _

omit [DecidableEq Id] in
theorem live_of_some (held : heap.cells id = some cell) : id ∈ heap.live :=
  (heap.live_iff id).mpr (by simp [held])

omit [DecidableEq Id] in
theorem unused_iff : id ∉ heap.live ↔ heap.cells id = none := by
  rw [heap.live_iff, not_ne_iff]

theorem put_fresh_card (cell : Cell) (fresh : id ∉ heap.live) :
    (heap.put id cell).live.card = heap.live.card + 1 :=
  Finset.card_insert_of_notMem fresh

theorem put_held_card (cell : Cell) (held : id ∈ heap.live) :
    (heap.put id cell).live.card = heap.live.card :=
  congrArg Finset.card (Finset.insert_eq_of_mem held)

theorem drop_card (held : id ∈ heap.live) :
    (heap.drop id).live.card + 1 = heap.live.card :=
  Finset.card_erase_add_one held

end Heap

namespace HeapClient

variable [DecidableEq Id]

/-- Whatever names it is given, the client keeps to the names that it holds, and holds
no more than so many.  After a reset it holds one name, of a blank cell. -/
def Safe (limit : Nat) (blank : Cell) : HeapClient Id Cell R → Heap Id Cell → Prop
  | .finish _, _ => True
  | .alloc cell next, heap => heap.live.card < limit ∧
      ∀ id ∉ heap.live, (next id).Safe limit blank (heap.put id cell)
  | .reclaim id next, heap => ∃ cell, heap.cells id = some cell ∧
      (next cell).Safe limit blank (heap.drop id)
  | .read id next, heap => ∃ cell, heap.cells id = some cell ∧
      (next cell).Safe limit blank heap
  | .rewrite id change next, heap => ∃ cell, heap.cells id = some cell ∧
      (next cell).Safe limit blank (heap.put id (change cell))
  | .reset next, _ => ∀ id, (next id).Safe limit blank (Heap.empty.put id blank)

/-- The client may end with that result and heap.  The peak is the largest number of
names in use at a time, since the last reset. -/
inductive Yields (blank : Cell) :
    HeapClient Id Cell R → Heap Id Cell → Nat → R → Heap Id Cell → Nat → Prop
  | finish (result : R) (heap : Heap Id Cell) (peak : Nat) :
      Yields blank (.finish result) heap peak result heap peak
  | alloc {cell : Cell} {next : Id → HeapClient Id Cell R} {heap final : Heap Id Cell}
      {id : Id} {result : R} {peak last : Nat} (fresh : id ∉ heap.live)
      (rest : Yields blank (next id) (heap.put id cell) (max peak (heap.live.card + 1))
        result final last) :
      Yields blank (.alloc cell next) heap peak result final last
  | reclaim {id : Id} {next : Cell → HeapClient Id Cell R} {heap final : Heap Id Cell}
      {cell : Cell} {result : R} {peak last : Nat} (held : heap.cells id = some cell)
      (rest : Yields blank (next cell) (heap.drop id) peak result final last) :
      Yields blank (.reclaim id next) heap peak result final last
  | read {id : Id} {next : Cell → HeapClient Id Cell R} {heap final : Heap Id Cell}
      {cell : Cell} {result : R} {peak last : Nat} (held : heap.cells id = some cell)
      (rest : Yields blank (next cell) heap peak result final last) :
      Yields blank (.read id next) heap peak result final last
  | rewrite {id : Id} {change : Cell → Cell} {next : Cell → HeapClient Id Cell R}
      {heap final : Heap Id Cell} {cell : Cell} {result : R} {peak last : Nat}
      (held : heap.cells id = some cell)
      (rest : Yields blank (next cell) (heap.put id (change cell)) peak result final last) :
      Yields blank (.rewrite id change next) heap peak result final last
  | reset {next : Id → HeapClient Id Cell R} {heap final : Heap Id Cell} {id : Id}
      {result : R} {peak last : Nat}
      (rest : Yields blank (next id) (Heap.empty.put id blank) 1 result final last) :
      Yields blank (.reset next) heap peak result final last

end HeapClient

/-- The implementation does what the heap may do, one call at a time, and keeps to what
it matches. -/
structure HeapCalls.Implements [Monad M] [DecidableEq Id] (calls : HeapCalls M S Id Cell)
    (limit : Nat) (blank : Cell) (matching : S → Heap Id Cell → Nat → Prop) : Prop where
  alloc {state : S} {heap : Heap Id Cell} {peak : Nat} (cell : Cell) :
    matching state heap peak → heap.live.card < limit →
      ∃ id next, calls.alloc state cell = pure (id, next) ∧ id ∉ heap.live ∧
        matching next (heap.put id cell) (max peak (heap.live.card + 1))
  reclaim {state : S} {heap : Heap Id Cell} {peak : Nat} {id : Id} {cell : Cell} :
    matching state heap peak → heap.cells id = some cell →
      ∃ next, calls.reclaim state id = pure (cell, next) ∧
        matching next (heap.drop id) peak
  read {state : S} {heap : Heap Id Cell} {peak : Nat} {id : Id} {cell : Cell} :
    matching state heap peak → heap.cells id = some cell →
      calls.read state id = pure cell
  rewrite {state : S} {heap : Heap Id Cell} {peak : Nat} {id : Id} {cell : Cell}
    (change : Cell → Cell) : matching state heap peak → heap.cells id = some cell →
      ∃ next, calls.rewrite state id change = pure (cell, next) ∧
        matching next (heap.put id (change cell)) peak
  reset {state : S} {heap : Heap Id Cell} {peak : Nat} : matching state heap peak →
    ∃ id next, calls.reset state = pure (id, next) ∧
      matching next (Heap.empty.put id blank) 1

/-- Every safe client of an implementation runs as it may run on the heap. -/
theorem HeapClient.Safe.run [Monad M] [LawfulMonad M] [DecidableEq Id]
    {calls : HeapCalls M S Id Cell} {limit : Nat} {blank : Cell}
    {matching : S → Heap Id Cell → Nat → Prop}
    (implements : calls.Implements limit blank matching) {client : HeapClient Id Cell R}
    {state : S} {heap : Heap Id Cell} {peak : Nat} (matched : matching state heap peak)
    (safe : client.Safe limit blank heap) :
    ∃ result final last highest, client.run calls state = pure (result, final) ∧
      client.Yields blank heap peak result last highest ∧ matching final last highest := by
  induction client generalizing state heap peak with
  | finish result =>
      exact ⟨result, state, heap, peak, rfl, .finish result heap peak, matched⟩
  | alloc cell next ih =>
      obtain ⟨few, rest⟩ := safe
      obtain ⟨id, middle, returned, fresh, newMatched⟩ := implements.alloc cell matched few
      obtain ⟨result, final, last, highest, ran, yields, ended⟩ :=
        ih id newMatched (rest id fresh)
      refine ⟨result, final, last, highest, ?_, .alloc fresh yields, ended⟩
      rw [HeapClient.run, returned, pure_bind]
      exact ran
  | reclaim id next ih =>
      obtain ⟨cell, held, rest⟩ := safe
      obtain ⟨middle, returned, newMatched⟩ := implements.reclaim matched held
      obtain ⟨result, final, last, highest, ran, yields, ended⟩ := ih cell newMatched rest
      refine ⟨result, final, last, highest, ?_, .reclaim held yields, ended⟩
      rw [HeapClient.run, returned, pure_bind]
      exact ran
  | read id next ih =>
      obtain ⟨cell, held, rest⟩ := safe
      obtain ⟨result, final, last, highest, ran, yields, ended⟩ := ih cell matched rest
      refine ⟨result, final, last, highest, ?_, .read held yields, ended⟩
      rw [HeapClient.run, implements.read matched held, pure_bind, ran]
  | rewrite id change next ih =>
      obtain ⟨cell, held, rest⟩ := safe
      obtain ⟨middle, returned, newMatched⟩ := implements.rewrite change matched held
      obtain ⟨result, final, last, highest, ran, yields, ended⟩ := ih cell newMatched rest
      refine ⟨result, final, last, highest, ?_, .rewrite held yields, ended⟩
      rw [HeapClient.run, returned, pure_bind]
      exact ran
  | reset next ih =>
      obtain ⟨id, middle, returned, newMatched⟩ := implements.reset matched
      obtain ⟨result, final, last, highest, ran, yields, ended⟩ :=
        ih id newMatched (safe id)
      refine ⟨result, final, last, highest, ?_, .reset yields, ended⟩
      rw [HeapClient.run, returned, pure_bind]
      exact ran

end IndexDb
