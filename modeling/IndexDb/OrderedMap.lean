import IndexDb.Runs
import Mathlib.Data.Finmap

/-!
# A tree is a map

The reference is a finite map that knows nothing of nodes.  Over a run both
give the same replies, because the ascending entries of the tree and the
finite map look every key up alike.
-/

namespace IndexDb

abbrev Reference (K V : Type) : Type :=
  Finmap fun _ : K => V

namespace Reference

variable {K V : Type} [LinearOrder K]

/-- The reply of a call on the reference, and the map that is left. -/
def call (map : Reference K V) : Call K V → Reply V × Reference K V
  | .insert key value => (.value (map.lookup key), map.insert key value)
  | .remove key => (.value (map.lookup key), map.erase key)
  | .clear => (.unit, ∅)
  | .get key => (.value (map.lookup key), map)
  | .containsKey key => (.bool (key ∈ map), map)
  | .len => (.count map.keys.card, map)
  | .isEmpty => (.bool (map.keys.card = 0), map)

def calls (map : Reference K V) :
    List (Call K V) → List (Reply V) × Reference K V
  | [] => ([], map)
  | call :: rest =>
      let (reply, map) := map.call call
      let (replies, map) := calls map rest
      (reply :: replies, map)

/-- The map a tree is built over: later entries replace earlier ones. -/
def start : Start K V → Reference K V
  | .withOrder => ∅
  | .fromSorted entries =>
      entries.foldl (fun map entry => map.insert entry.1 entry.2) ∅

/-- The map and the entries look every key up alike. -/
def Agrees (map : Reference K V) (entries : List (K × V)) : Prop :=
  ∀ key, map.lookup key = Entries.lookup key entries

variable {map : Reference K V} {entries : List (K × V)}

theorem sameKey_iff {first second : K} : SameKey first second ↔ first = second := by
  simp only [SameKey, not_lt]
  exact ⟨fun same => le_antisymm same.2 same.1, by rintro rfl; simp⟩

theorem agrees_empty : Agrees (∅ : Reference K V) [] :=
  fun _ => Finmap.lookup_empty _

theorem Agrees.insert (agrees : map.Agrees entries) (ascending : Ascending entries)
    (key : K) (value : V) :
    Agrees (map.insert key value) (Entries.insert key value entries) := by
  intro other
  rw [Entries.lookup_insert ascending]
  by_cases same : key = other
  · rw [if_pos (sameKey_iff.mpr same), ← same, Finmap.lookup_insert]
  · rw [if_neg (fun equal => same (sameKey_iff.mp equal)),
      Finmap.lookup_insert_of_ne _ (Ne.symm same), agrees]

theorem Agrees.erase (agrees : map.Agrees entries) (ascending : Ascending entries)
    (key : K) : Agrees (map.erase key) (Entries.erase key entries) := by
  intro other
  rw [Entries.lookup_erase ascending]
  by_cases same : key = other
  · rw [if_pos (sameKey_iff.mpr same), ← same, Finmap.lookup_erase]
  · rw [if_neg (fun equal => same (sameKey_iff.mp equal)),
      Finmap.lookup_erase_ne (Ne.symm same), agrees]

theorem Agrees.insertAll (contents : List (K × V)) (agrees : map.Agrees entries)
    (ascending : Ascending entries) :
    Agrees (contents.foldl (fun map entry => map.insert entry.1 entry.2) map)
      (Entries.insertAll contents entries) := by
  induction contents generalizing map entries with
  | nil => exact agrees
  | cons entry contents ih =>
      exact ih (agrees.insert ascending entry.1 entry.2)
        (Entries.ascending_insert entry.1 entry.2 ascending)

/-- The map has a key for every entry. -/
theorem Agrees.card (agrees : map.Agrees entries) (ascending : Ascending entries) :
    map.keys.card = entries.length := by
  have distinct : (entries.map Prod.fst).Nodup :=
    (List.pairwise_map.mpr ascending).imp fun lt => ne_of_lt lt
  have keysEq : map.keys = (entries.map Prod.fst).toFinset := by
    ext key
    rw [Finmap.mem_keys, ← Finmap.lookup_isSome, agrees, List.mem_toFinset,
      List.mem_map, Option.isSome_iff_exists]
    constructor
    · rintro ⟨value, found⟩
      obtain ⟨entry, member, same, -⟩ :=
        (Entries.lookup_eq_some_iff ascending).mp found
      exact ⟨entry, member, sameKey_iff.mp same⟩
    · rintro ⟨entry, member, rfl⟩
      exact ⟨entry.2, (Entries.lookup_eq_some_iff ascending).mpr
        ⟨entry, member, sameKey_iff.mpr rfl, rfl⟩⟩
  rw [keysEq, List.toFinset_card_of_nodup distinct, List.length_map]

/-- One call on both: the same reply, and the same map. -/
theorem Agrees.call (agrees : map.Agrees entries) (ascending : Ascending entries)
    (call : Call K V) :
    (map.call call).1 = (call.answer entries).1 ∧
      Agrees (map.call call).2 (call.answer entries).2 ∧
      Ascending (call.answer entries).2 := by
  cases call with
  | insert key value =>
      exact ⟨congrArg Reply.value (agrees key), agrees.insert ascending key value,
        Entries.ascending_insert key value ascending⟩
  | remove key =>
      exact ⟨congrArg Reply.value (agrees key), agrees.erase ascending key,
        Entries.ascending_erase key ascending⟩
  | clear => exact ⟨rfl, agrees_empty, List.Pairwise.nil⟩
  | get key => exact ⟨congrArg Reply.value (agrees key), agrees, ascending⟩
  | containsKey key =>
      refine ⟨?_, agrees, ascending⟩
      simp only [Reference.call, Call.answer, ← agrees key,
        ← Finmap.lookup_isSome, Bool.decide_eq_true]
  | len => exact ⟨congrArg Reply.count (agrees.card ascending), agrees, ascending⟩
  | isEmpty =>
      refine ⟨?_, agrees, ascending⟩
      simp only [Reference.call, Call.answer, agrees.card ascending]

theorem Agrees.calls (agrees : map.Agrees entries) (ascending : Ascending entries)
    (calls : List (Call K V)) :
    (map.calls calls).1 = (Call.answers entries calls).1 := by
  induction calls generalizing map entries with
  | nil => rfl
  | cons call calls ih =>
      obtain ⟨replyEq, agreesAfter, ascendingAfter⟩ := agrees.call ascending call
      exact congrArg₂ List.cons replyEq (ih agreesAfter ascendingAfter)

theorem start_agrees (start : Start K V) :
    (Reference.start start).Agrees start.contents ∧ Ascending start.contents := by
  cases start with
  | withOrder => exact ⟨agrees_empty, List.Pairwise.nil⟩
  | fromSorted entries =>
      exact ⟨agrees_empty.insertAll entries List.Pairwise.nil,
        Entries.ascending_insertAll entries List.Pairwise.nil⟩

end Reference

section Main

variable {K V : Type} [LinearOrder K]

/-- Every call of every run returns what it returns on the reference map. -/
theorem run_matches_reference (order : Nat) (start : Start K V)
    (calls : List (Call K V)) (isExact : (start.run order calls).Exact) :
    ∃ tree, start.run order calls =
      pure (((Reference.start start).calls calls).1, tree) := by
  obtain ⟨tree, t, returned, -⟩ := start.run_represents calls isExact
  obtain ⟨agrees, ascending⟩ := Reference.start_agrees start
  exact ⟨tree, by rw [returned, agrees.calls ascending]⟩

theorem run_matches_reference_small :
    ∃ tree, (Start.fromSorted [(1, 10), (2, 20), (3, 30)]).run 3
      [.insert 4 40, .remove 1, .insert 2 21, .get 3, .containsKey 1, .len] =
        pure ([.value none, .value (some 10), .value (some 20), .value (some 30),
          .bool false, .count 3], tree) :=
  run_matches_reference 3 (.fromSorted [(1, 10), (2, 20), (3, 30)])
    [.insert 4 40, .remove 1, .insert 2 21, .get 3, .containsKey 1, .len]
    (by decide +kernel)

end Main

end IndexDb
