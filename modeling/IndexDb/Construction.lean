import IndexDb.OrderedMap
import IndexDb.Scans

/-!
# Two ways to build a tree

Bulk loading packs the entries evenly from the bottom up, inserting them one
by one splits nodes as they fill.  The trees may differ in shape, but they
stand for the same entries, so no later request tells them apart.
-/

namespace IndexDb

variable {K V : Type}

/-- A call on the tree as a map, or a scan pulled in some order. -/
inductive Request (K V : Type) where
  | call (call : Call K V)
  | scan (scan : Scan K) (pulls : List Pull)

inductive Response (K V : Type) where
  | reply (reply : Reply V)
  | pulled (entries : List (Option (K × V)))

section Definitions

variable [LE K] [DecidableLE K] [LT K] [DecidableLT K]

namespace BPlusTree

def request (tree : BPlusTree K V) :
    Request K V → Run (Response K V × BPlusTree K V)
  | .call call => do
      let (reply, tree) ← tree.call call
      pure (.reply reply, tree)
  | .scan scan pulls => do
      let iter ← tree.scan scan
      let (entries, _) ← iter.pulls pulls
      pure (.pulled entries, tree)

def requests (tree : BPlusTree K V) :
    List (Request K V) → Run (List (Response K V) × BPlusTree K V)
  | [] => pure ([], tree)
  | request :: rest => do
      let (response, tree) ← tree.request request
      let (responses, tree) ← tree.requests rest
      pure (response :: responses, tree)

end BPlusTree

/-- The response to a request on ascending entries, and the entries left. -/
def Request.answer (entries : List (K × V)) :
    Request K V → Response K V × List (K × V)
  | .call made => (.reply (made.answer entries).1, (made.answer entries).2)
  | .scan wanted pulls =>
      let selected := entries.filter fun entry => wanted.Admits entry.1
      (.pulled (Pull.pops selected pulls).1, entries)

def Request.answers (entries : List (K × V)) :
    List (Request K V) → List (Response K V) × List (K × V)
  | [] => ([], entries)
  | request :: requests =>
      let (response, entries) := request.answer entries
      let (responses, entries) := answers entries requests
      (response :: responses, entries)

theorem BPlusTree.requests_stepwise :
    Stepwise BPlusTree.request (BPlusTree.requests (K := K) (V := V)) where
  nil _ := rfl
  cons _ _ _ := rfl

theorem Request.answers_answerwise :
    Answerwise Request.answer (Request.answers (K := K) (V := V)) where
  nil _ := rfl
  cons _ _ _ := rfl

/-- The value of the last entry with the key. -/
def Entries.lastValue [DecidableEq K] (key : K) (entries : List (K × V)) : Option V :=
  (entries.reverse.find? fun entry => entry.1 = key).map Prod.snd

end Definitions

section Represented

variable [Preorder K] [Std.IsLinearPreorder K] [DecidableLT K] [DecidableLE K]
  {order : Nat} {tree : BPlusTree K V} {t : SearchTree NodeId K V order}

namespace BPlusTree

/-- Every request gets the response that the entries determine. -/
theorem Represents.request (represents : tree.Represents t) (request : Request K V)
    (isExact : (tree.request request).Exact) :
    ∃ (next : BPlusTree K V) (t' : SearchTree NodeId K V order),
      tree.request request = pure ((request.answer t.entries).1, next) ∧
      next.Represents t' ∧ t'.entries = (request.answer t.entries).2 := by
  cases request with
  | call call =>
      rw [BPlusTree.request] at isExact ⊢
      obtain ⟨next, t', called, newRepresents, entriesEq⟩ :=
        represents.call call isExact.first
      exact ⟨next, t', by rw [called, pure_bind]; rfl, newRepresents, entriesEq⟩
  | scan scan pulls =>
      obtain ⟨iter, scanned, spans⟩ := represents.scan scan
      obtain ⟨rest, pulled, -⟩ := spans.pulls represents.browses pulls
      refine ⟨tree, t, ?_, represents, rfl⟩
      rw [BPlusTree.request, scanned, pure_bind, pulled, pure_bind]
      rfl

theorem Represents.requests (represents : tree.Represents t)
    (requests : List (Request K V)) (isExact : (tree.requests requests).Exact) :
    ∃ (next : BPlusTree K V) (t' : SearchTree NodeId K V order),
      tree.requests requests = pure ((Request.answers t.entries requests).1, next) ∧
      next.Represents t' ∧
      t'.entries = (Request.answers t.entries requests).2 := by
  have simulates : Simulates [.lossyCast]
      (fun (tree : BPlusTree K V) entries =>
        ∃ t : SearchTree NodeId K V order, tree.Represents t ∧ t.entries = entries)
      BPlusTree.request Request.answer := by
    rintro tree _ request ⟨t, represents, rfl⟩ avoids
    obtain ⟨next, t', requested, newRepresents, entriesEq⟩ :=
      represents.request request (avoids _ (List.mem_singleton_self _))
    exact ⟨next, requested, t', newRepresents, entriesEq⟩
  obtain ⟨next, ran, t', newRepresents, entriesEq⟩ := simulates.run
    requests_stepwise Request.answers_answerwise requests ⟨t, represents, rfl⟩
    (by simpa using isExact)
  exact ⟨next, t', ran, newRepresents, entriesEq⟩

end BPlusTree

end Represented

section Main

variable [LinearOrder K]

/-- Among entries inserted in order, the last one with a key wins. -/
theorem Entries.lookup_insertAll (key : K) (contents : List (K × V)) :
    Entries.lookup key (Entries.insertAll contents []) =
      Entries.lastValue key contents := by
  induction contents using List.reverseRecOn with
  | nil => rfl
  | append_singleton contents entry ih =>
      have ascending : Ascending (Entries.insertAll contents []) :=
        Entries.ascending_insertAll contents List.Pairwise.nil
      have inserted : Entries.insertAll (contents ++ [entry]) [] =
          Entries.insert entry.1 entry.2 (Entries.insertAll contents []) :=
        List.foldl_concat ..
      rw [inserted, Entries.lookup_insert ascending, ih, lastValue, lastValue,
        List.reverse_concat, List.find?_cons]
      by_cases same : entry.1 = key
      · rw [if_pos (Reference.sameKey_iff.mpr same), decide_eq_true same]
        rfl
      · rw [if_neg fun equal => same (Reference.sameKey_iff.mp equal),
          decide_eq_false same]

theorem BPlusTree.Represents.holds_lastValue {order : Nat} {tree : BPlusTree K V}
    {t : SearchTree NodeId K V order} (represents : tree.Represents t)
    {contents : List (K × V)} (entriesEq : t.entries = Entries.insertAll contents [])
    (key : K) (value : V) : Holds tree.store tree.root key value ↔
      Entries.lastValue key contents = some value := by
  rw [represents.root_eq, ← Entries.lookup_insertAll, ← entriesEq,
    Entries.lookup_eq_some_iff t.ascending]
  refine (holds_stored represents.stored).trans ⟨fun member =>
    ⟨(key, value), member, sameKey_refl key, rfl⟩, ?_⟩
  rintro ⟨⟨other, held⟩, member, same, rfl⟩
  obtain rfl := Reference.sameKey_iff.mp same
  exact member

/-- Building from entries and inserting them one by one give trees with the
same entries, both well formed, that answer every later request alike. -/
theorem construction_agrees (entries : List (K × V)) (order : Nat)
    (requests : List (Request K V))
    (loadedExact : (do
      let tree ← BPlusTree.fromSortedWithOrder entries order
      tree.requests requests).Exact)
    (insertedExact : (do
      let tree ← BPlusTree.withOrder order
      let tree ← tree.insertAll entries
      tree.requests requests).Exact) :
    ∃ loaded inserted : BPlusTree K V,
      BPlusTree.fromSortedWithOrder entries order = pure loaded ∧
      (do
        let tree ← BPlusTree.withOrder order
        tree.insertAll entries) = pure inserted ∧
      (∀ key value, Holds loaded.store loaded.root key value ↔
        Entries.lastValue key entries = some value) ∧
      (∀ key value, Holds inserted.store inserted.root key value ↔
        Entries.lastValue key entries = some value) ∧
      loaded.len = inserted.len ∧
      loaded.WellFormed ∧ loaded.order = max order minOrder ∧
      inserted.WellFormed ∧ inserted.order = max order minOrder ∧
      ∃ responses loadedAfter insertedAfter,
        loaded.requests requests = pure (responses, loadedAfter) ∧
        inserted.requests requests = pure (responses, insertedAfter) := by
  have large : 3 ≤ max order minOrder := Nat.le_max_right order minOrder
  obtain ⟨loaded, t, loadedEq, loadedRepresents, loadedEntries, -⟩ :=
    BPlusTree.fromSortedWithOrder_represents loadedExact.first
  rw [loadedEq, pure_bind] at loadedExact
  rw [BPlusTree.withOrder_eq, pure_bind] at insertedExact ⊢
  obtain ⟨inserted, t', insertedEq, insertedRepresents, insertedEntries, -⟩ :=
    (BPlusTree.empty_represents large).insertAll insertedExact.first
  rw [insertedEq, pure_bind] at insertedExact
  have same : t.entries = t'.entries := loadedEntries.trans insertedEntries.symm
  obtain ⟨loadedAfter, -, loadedRun, -⟩ :=
    loadedRepresents.requests requests loadedExact
  obtain ⟨insertedAfter, -, insertedRun, -⟩ :=
    insertedRepresents.requests requests insertedExact
  refine ⟨loaded, inserted, loadedEq, insertedEq,
    loadedRepresents.holds_lastValue loadedEntries,
    insertedRepresents.holds_lastValue insertedEntries, ?_,
    loadedRepresents.wellFormed, loadedRepresents.order_eq,
    insertedRepresents.wellFormed, insertedRepresents.order_eq,
    _, loadedAfter, insertedAfter, loadedRun, ?_⟩
  · rw [loadedRepresents.len_eq, insertedRepresents.len_eq, same]
  · rw [same]
    exact insertedRun

/-- Entries out of order, two of them with one key. -/
theorem construction_agrees_small :
    ∃ loaded inserted : BPlusTree Nat Nat,
      BPlusTree.fromSortedWithOrder [(3, 30), (1, 10), (4, 40), (3, 31), (2, 20)] 3 =
        pure loaded ∧
      (do
        let tree ← BPlusTree.withOrder 3
        tree.insertAll [(3, 30), (1, 10), (4, 40), (3, 31), (2, 20)]) = pure inserted ∧
      (∀ key value, Holds loaded.store loaded.root key value ↔
        Entries.lastValue key [(3, 30), (1, 10), (4, 40), (3, 31), (2, 20)] =
          some value) ∧
      (∀ key value, Holds inserted.store inserted.root key value ↔
        Entries.lastValue key [(3, 30), (1, 10), (4, 40), (3, 31), (2, 20)] =
          some value) ∧
      loaded.len = inserted.len ∧
      loaded.WellFormed ∧ loaded.order = max 3 minOrder ∧
      inserted.WellFormed ∧ inserted.order = max 3 minOrder ∧
      ∃ responses loadedAfter insertedAfter,
        loaded.requests [.call (.remove 2), .scan .all [.front, .back]] =
          pure (responses, loadedAfter) ∧
        inserted.requests [.call (.remove 2), .scan .all [.front, .back]] =
          pure (responses, insertedAfter) :=
  construction_agrees [(3, 30), (1, 10), (4, 40), (3, 31), (2, 20)] 3
    [.call (.remove 2), .scan .all [.front, .back]] (by decide +kernel) (by decide +kernel)

end Main

end IndexDb
