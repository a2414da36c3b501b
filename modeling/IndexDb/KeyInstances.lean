import IndexDb.Scans

/-!
# Which key instance is stored

Keys that compare as equal may still be told apart.  The calls of a run and
their replies say which instance a scan has to yield for a key: that of the
last insertion that displaced nothing, or else the one the tree was built
with.  Separators are copies of keys too, and none of them ever comes back.
-/

namespace IndexDb

variable {K V : Type}

section Definitions

variable [LT K] [DecidableLT K]

/-- The instance passed to the last insertion of the key that displaced
nothing, in calls paired with their replies. -/
def Call.lastCreated (key : K) : List (Call K V × Reply V) → Option K
  | [] => none
  | (.insert other _, .value none) :: history =>
      (lastCreated key history).or (if SameKey other key then some other else none)
  | _ :: history => lastCreated key history

/-- The instance of the key in the entries that the tree is built with. -/
def Start.instance? (key : K) : Start K V → Option K
  | .withOrder => none
  | .fromSorted entries => Entries.storedKey key entries

/-- The instance that the entry of the key was created with. -/
def Start.creator (start : Start K V) (calls : List (Call K V)) (replies : List (Reply V))
    (key : K) : Option K :=
  (Call.lastCreated key (calls.zip replies)).or (start.instance? key)

end Definitions

section Histories

variable [Preorder K] [Std.IsLinearPreorder K] [DecidableLT K]

/-- A call stores no instance but that of an insertion that displaces nothing,
and it stores that one. -/
theorem Call.storedKey_answer {entries : List (K × V)} (ascending : Ascending entries)
    (call : Call K V) {key found : K} {history : List (Call K V × Reply V)}
    (stored : (lastCreated key history).or
      (Entries.storedKey key (call.answer entries).2) = some found) :
    (lastCreated key ((call, (call.answer entries).1) :: history)).or
      (Entries.storedKey key entries) = some found := by
  cases call with
  | insert other value =>
      have present := Entries.storedKey_isSome ascending other
      simp only [answer] at stored ⊢
      rw [Entries.storedKey_insert ascending] at stored
      cases displaced : Entries.lookup other entries with
      | none =>
          rw [displaced] at present
          rw [lastCreated]
          by_cases same : SameKey other key
          · have none : Entries.storedKey key entries = none := by
              rw [← Entries.storedKey_congr same]
              simpa using present
            rw [none, Option.none_or] at stored
            rw [none, Option.or_none]
            exact stored
          · rw [if_neg same, Option.or_none] at stored ⊢
            exact stored
      | some old =>
          rw [displaced] at present
          rw [lastCreated]
          · by_cases same : SameKey other key
            · rw [Entries.storedKey_congr same] at present
              rwa [Option.or_of_isSome present] at stored
            · rwa [if_neg same, Option.or_none] at stored
          · rintro _ _ ⟨⟩ ⟨⟩
  | remove other =>
      simp only [answer, lastCreated] at stored ⊢
      rw [Entries.storedKey_erase ascending] at stored
      split_ifs at stored with same
      · rw [Option.or_none] at stored
        rw [stored, Option.some_or]
      · exact stored
  | clear =>
      have created : lastCreated key history = some found := by
        simpa [answer, Entries.storedKey] using stored
      rw [lastCreated, created, Option.some_or]
      rintro _ _ ⟨⟩
  | get other => exact stored
  | containsKey other => exact stored
  | len => exact stored
  | isEmpty => exact stored

theorem Call.ascending_answer {entries : List (K × V)} (ascending : Ascending entries)
    (call : Call K V) : Ascending (call.answer entries).2 := by
  cases call with
  | insert key value => exact Entries.ascending_insert key value ascending
  | remove key => exact Entries.ascending_erase key ascending
  | clear => exact List.Pairwise.nil
  | get key | containsKey key | len | isEmpty => exact ascending

/-- What is stored after the calls is what they created last, or what was stored
before. -/
theorem Call.storedKey_answers {entries : List (K × V)} (ascending : Ascending entries)
    (calls : List (Call K V)) {key found : K}
    (stored : Entries.storedKey key (answers entries calls).2 = some found) :
    (lastCreated key (calls.zip (answers entries calls).1)).or
      (Entries.storedKey key entries) = some found := by
  induction calls generalizing entries with
  | nil => exact stored
  | cons call calls ih =>
      exact storedKey_answer ascending call (ih (ascending_answer ascending call) stored)

theorem Start.storedKey_contents (start : Start K V) (key : K) :
    Entries.storedKey key start.contents = start.instance? key := by
  cases start with
  | withOrder => rfl
  | fromSorted entries =>
      exact Entries.storedKey_insertAll entries List.Pairwise.nil

end Histories

section Main

variable [Preorder K] [Std.IsLinearPreorder K] [DecidableLT K] [DecidableLE K]

/-- After any run every scan yields the entries that belong to it, all of them, at
either end in any order, and each key as the instance its entry was created with. -/
theorem run_key_instances (order : Nat) (start : Start K V) (calls : List (Call K V))
    (isExact : (start.run order calls).Exact) :
    ∃ replies tree, start.run order calls = pure (replies, tree) ∧
      ∀ scan : Scan K, ∃ iter entries, tree.scan scan = pure iter ∧
        iter.Drains entries ∧ tree.Selects scan entries ∧
        entries = (Call.answers start.contents calls).2.filter
          (fun entry => scan.Admits entry.1) ∧
        (∀ entry ∈ entries, start.creator calls replies entry.1 = some entry.1) ∧
        ∀ pulls : List Pull, ∃ rest,
          iter.pulls pulls = pure ((Pull.pops entries pulls).1, rest) := by
  obtain ⟨tree, t, returned, represents, entriesEq⟩ := start.run_represents calls isExact
  refine ⟨_, tree, returned, fun scan => ?_⟩
  obtain ⟨iter, scanned, spans⟩ := represents.scan scan
  refine ⟨iter, _, scanned, spans.drains represents.browses, represents.selects scan,
    by rw [entriesEq], fun entry yielded => ?_, fun pulls => ?_⟩
  · have stored := Entries.storedKey_of_mem t.ascending (List.mem_of_mem_filter yielded)
    rw [entriesEq] at stored
    have ascending : Ascending start.contents := by
      cases start with
      | withOrder => exact List.Pairwise.nil
      | fromSorted entries => exact Entries.ascending_insertAll entries List.Pairwise.nil
    rw [Start.creator, ← start.storedKey_contents]
    exact Call.storedKey_answers ascending calls stored
  · obtain ⟨rest, pulled, -⟩ := spans.pulls represents.browses pulls
    exact ⟨rest, pulled⟩

/-- A key that is compared by its rank only. -/
structure Ranked where
  rank : Nat
  tag : Nat
  deriving DecidableEq

instance : Preorder Ranked :=
  Preorder.lift Ranked.rank

instance : Std.IsLinearPreorder Ranked where
  le_refl := le_refl
  le_trans _ _ _ := le_trans
  le_total first second := Nat.le_total first.rank second.rank

instance : DecidableLT Ranked := fun first second =>
  inferInstanceAs (Decidable (first.rank < second.rank))

instance : DecidableLE Ranked := fun first second =>
  inferInstanceAs (Decidable (first.rank ≤ second.rank))

/-- Overwriting keeps the instance.  Inserting again after a removal does not, although
the removed instance is still a separator. -/
theorem run_key_instances_ranked :
    ∃ replies tree,
      (Start.fromSorted [(Ranked.mk 1 0, 10), (⟨3, 0⟩, 30), (⟨5, 0⟩, 50), (⟨7, 0⟩, 70)]).run 3
        [.insert ⟨1, 1⟩ 11, .remove ⟨5, 1⟩, .insert ⟨5, 2⟩ 52] = pure (replies, tree) ∧
      ∃ iter entries, tree.iter = pure iter ∧ iter.Drains entries ∧
        entries = [(⟨1, 0⟩, 11), (⟨3, 0⟩, 30), (⟨5, 2⟩, 52), (⟨7, 0⟩, 70)] ∧
        ∀ entry ∈ entries,
          (Start.fromSorted
              [(Ranked.mk 1 0, 10), (⟨3, 0⟩, 30), (⟨5, 0⟩, 50), (⟨7, 0⟩, 70)]).creator
            [.insert ⟨1, 1⟩ 11, .remove ⟨5, 1⟩, .insert ⟨5, 2⟩ 52] replies entry.1 =
              some entry.1 := by
  obtain ⟨replies, tree, returned, scans⟩ := run_key_instances (K := Ranked) 3
    (.fromSorted [(⟨1, 0⟩, 10), (⟨3, 0⟩, 30), (⟨5, 0⟩, 50), (⟨7, 0⟩, 70)])
    [.insert ⟨1, 1⟩ 11, .remove ⟨5, 1⟩, .insert ⟨5, 2⟩ 52] (by decide +kernel)
  obtain ⟨iter, entries, scanned, drains, -, entriesEq, created, -⟩ := scans .all
  exact ⟨replies, tree, returned, iter, entries, scanned, drains,
    entriesEq.trans (by decide +kernel), created⟩

end Main

end IndexDb
