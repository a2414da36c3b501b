import IndexDb.Library.Ledger
import IndexDb.Scans
import Mathlib.Algebra.Order.Group.Multiset

/-!
# No value is lost

A value goes into the tree with an insertion.  It stays there until an insertion
displaces it or a removal takes it out, and both hand it back to the caller.  So
over every run without `clear` the values balance: those stored at the end and
those handed back are those stored at the start and those passed in, each as
often.
-/

namespace IndexDb

variable {K V : Type}

section Definitions

/-- A value that may be there. -/
def optional (found : Option V) : Multiset V :=
  found.toList

/-- The values that a call passes in. -/
def Call.taken : Call K V → Multiset V
  | .insert _ value => {value}
  | _ => 0

/-- The values that leave the tree with the reply of a call. -/
def Call.handed : Call K V → Reply V → Multiset V
  | .insert _ _, .value displaced => optional displaced
  | .remove _, .value removed => optional removed
  | _, _ => 0

/-- The values of the entries. -/
def Entries.values (entries : List (K × V)) : Multiset V :=
  entries.map Prod.snd

theorem Entries.values_cons (entry : K × V) (entries : List (K × V)) :
    values (entry :: entries) = entry.2 ::ₘ values entries :=
  rfl

end Definitions

section Answers

variable [LT K] [DecidableLT K]

theorem Entries.values_insert (key : K) (value : V) (entries : List (K × V)) :
    values (insert key value entries) + optional (lookup key entries) =
      values entries + {value} := by
  induction entries with
  | nil => rfl
  | cons entry entries ih =>
      rw [insert, lookup]
      split_ifs
      · rw [values_cons, values_cons, Multiset.cons_add, ih, Multiset.cons_add]
      · rw [values_cons, Multiset.add_comm _ {value}, Multiset.singleton_add]
        exact Multiset.add_zero _
      · have old : optional (some entry.2) = {entry.2} := rfl
        rw [values_cons, values_cons, old, Multiset.add_comm _ {entry.2},
          Multiset.add_comm _ {value}, Multiset.singleton_add, Multiset.singleton_add,
          Multiset.cons_swap]

theorem Entries.values_erase (key : K) (entries : List (K × V)) :
    values (erase key entries) + optional (lookup key entries) = values entries := by
  induction entries with
  | nil => rfl
  | cons entry entries ih =>
      rw [erase, lookup]
      split_ifs
      · rw [values_cons, values_cons, Multiset.cons_add, ih]
      · exact Multiset.add_zero _
      · have old : optional (some entry.2) = {entry.2} := rfl
        rw [values_cons, old, Multiset.add_comm _ {entry.2}, Multiset.singleton_add]

/-- Every call but `clear` hands back what it takes out of the entries. -/
theorem Call.balanced : Balanced (fun call : Call K V => call ≠ .clear) Call.answer
    Entries.values Call.taken Call.handed := by
  intro entries call keeps
  cases call with
  | insert key value => exact Entries.values_insert key value entries
  | remove key => exact (Entries.values_erase key entries).trans (Multiset.add_zero _).symm
  | clear => exact absurd rfl keeps
  | get key | containsKey key | len | isEmpty => rfl

end Answers

section Main

variable [LinearOrder K]

/-- Over calls without `clear`, made on any reachable tree, the values that the tree
holds and hands back balance those it held and was given. -/
theorem run_conserves_values (order : Nat) (start : Start K V)
    (calls more : List (Call K V)) (keeps : Call.clear ∉ more)
    (isExact : (start.run order (calls ++ more)).Exact) :
    ∃ replies tree others next, start.run order calls = pure (replies, tree) ∧
      tree.calls more = pure (others, next) ∧
      ∃ iter before rest after, tree.iter = pure iter ∧ iter.Drains before ∧
        next.iter = pure rest ∧ rest.Drains after ∧
        Entries.values after + (List.zipWith Call.handed more others).sum =
          Entries.values before + (more.map Call.taken).sum := by
  have appended : start.run order (calls ++ more) =
      start.run order calls >>= fun ran => ran.2.calls more >>= fun rest =>
        pure (ran.1 ++ rest.1, rest.2) := by
    simp only [Start.run, BPlusTree.calls_stepwise.append, bind_assoc]
  rw [appended] at isExact
  obtain ⟨tree, t, returned, represents, -⟩ := start.run_represents calls isExact.first
  rw [returned, pure_bind] at isExact
  obtain ⟨next, t', called, newRepresents, entriesEq⟩ :=
    represents.calls more isExact.first
  obtain ⟨iter, scanned, drains⟩ := represents.iter_drains
  obtain ⟨rest, rescanned, drainsRest⟩ := newRepresents.iter_drains
  refine ⟨_, tree, _, next, returned, called, iter, _, rest, _, scanned, drains,
    rescanned, drainsRest, ?_⟩
  rw [entriesEq]
  exact Call.balanced.run Call.answers_answerwise t.entries
    fun call member isClear => keeps (isClear ▸ member)

theorem run_conserves_values_small :
    ∃ replies tree others next,
      (Start.fromSorted [(1, 10), (3, 30), (5, 50)]).run 3 [.remove 3] =
        pure (replies, tree) ∧
      tree.calls [.insert 1 11, .remove 5, .insert 7 70] = pure (others, next) ∧
      ∃ iter before rest after, tree.iter = pure iter ∧ iter.Drains before ∧
        next.iter = pure rest ∧ rest.Drains after ∧
        Entries.values after + (List.zipWith Call.handed
            [.insert 1 11, .remove 5, .insert 7 70] others).sum =
          Entries.values before +
            ([Call.insert 1 11, .remove 5, .insert 7 70].map Call.taken).sum :=
  run_conserves_values 3 (.fromSorted [(1, 10), (3, 30), (5, 50)]) [.remove 3]
    [.insert 1 11, .remove 5, .insert 7 70] (by simp) (by decide +kernel)

end Main

end IndexDb
