import Mathlib.Data.List.TakeWhile
import Mathlib.Order.Defs.LinearOrder

/-!
# Binary search over strictly ascending lists

The order is a total preorder: two keys may compare as equal without being the
same instance.  On a strictly ascending list a search has one correct answer,
so it is given by its specification: the position of the first element that
is not below the key, and whether the key is found there.
-/

namespace IndexDb

variable {K : Type}

/-- Two keys that compare as equal. -/
def SameKey [LT K] (first second : K) : Prop :=
  ¬ first < second ∧ ¬ second < first

instance [LT K] [DecidableLT K] (first second : K) :
    Decidable (SameKey first second) :=
  inferInstanceAs (Decidable (_ ∧ _))

/-- `.ok index` when `key` is found at `index`, and `.error index` with the
position that keeps the list ascending when it is not found. -/
def binarySearch [LT K] [DecidableLT K] (keys : List K) (key : K) :
    Except Nat Nat :=
  let index := (keys.takeWhile fun other => other < key).length
  match keys[index]? with
  | none => .error index
  | some found => if key < found then .error index else .ok index

/-- The two correct answers of a search, each with the way it splits the
list around the key. -/
inductive SearchAnswer [LT K] (keys : List K) (key : K) :
    Except Nat Nat → Prop
  | found {before after : List K} {other : K}
      (split : keys = before ++ other :: after)
      (below : ∀ earlier ∈ before, earlier < key)
      (same : SameKey other key)
      (above : ∀ later ∈ after, key < later) :
      SearchAnswer keys key (.ok before.length)
  | missing {before after : List K}
      (split : keys = before ++ after)
      (below : ∀ earlier ∈ before, earlier < key)
      (above : ∀ later ∈ after, key < later) :
      SearchAnswer keys key (.error before.length)

/-- The first element that fails the test stands right after those that pass. -/
theorem getElem?_takeWhile_length (keys : List K) (p : K → Bool) :
    keys[(keys.takeWhile p).length]? = (keys.dropWhile p).head? := by
  have lookup : (keys.takeWhile p ++ keys.dropWhile p)[(keys.takeWhile p).length]? =
      (keys.dropWhile p).head? := by
    rw [List.getElem?_append_right (Nat.le_refl _), Nat.sub_self,
      List.head?_eq_getElem?]
  rwa [List.takeWhile_append_dropWhile] at lookup

/-- Where a search of any list says it found the key, the key stands. -/
theorem sameKey_of_binarySearch [LT K] [DecidableLT K] {keys : List K} {key : K}
    {i : Nat} (answered : binarySearch keys key = .ok i) :
    ∃ found, keys[i]? = some found ∧ SameKey found key := by
  simp only [binarySearch] at answered
  split at answered
  · cases answered
  · next found foundAt =>
      split_ifs at answered with under
      cases answered
      refine ⟨found, foundAt, ?_, under⟩
      have notBelow := List.head?_dropWhile_not (fun other => decide (other < key)) keys
      rw [← getElem?_takeWhile_length, foundAt] at notBelow
      simpa using notBelow

@[simp]
theorem sameKey_refl [Preorder K] (key : K) : SameKey key key :=
  ⟨lt_irrefl key, lt_irrefl key⟩

variable [Preorder K] [Std.IsLinearPreorder K] [DecidableLT K]

/-- A search of a strictly ascending list gives a correct answer. -/
theorem binarySearch_answer {keys : List K} (key : K)
    (ascending : keys.Pairwise (· < ·)) :
    SearchAnswer keys key (binarySearch keys key) := by
  let before := keys.takeWhile fun other => other < key
  let after := keys.dropWhile fun other => other < key
  have split : keys = before ++ after :=
    (List.takeWhile_append_dropWhile ..).symm
  have below : ∀ earlier ∈ before, earlier < key := by
    intro earlier member
    simpa using List.mem_takeWhile_imp member
  have lookup : keys[before.length]? = after.head? :=
    getElem?_takeWhile_length keys _
  unfold binarySearch
  change SearchAnswer keys key
    (match keys[before.length]? with
      | none => .error before.length
      | some found =>
          if key < found then .error before.length else .ok before.length)
  rw [lookup]
  cases tail : after with
  | nil =>
      have whole : keys = before ++ [] := by rw [split, tail]
      exact .missing whole below (by simp)
  | cons found rest =>
      have notBelow : ¬ found < key := by
        have := List.head?_dropWhile_not (fun other => decide (other < key)) keys
        have headEq : (keys.dropWhile fun other => decide (other < key)).head? =
            some found := by
          change after.head? = _
          rw [tail]
          rfl
        simpa [headEq] using this
      have restAbove : ∀ later ∈ rest, found < later := by
        rw [split, tail, List.pairwise_append, List.pairwise_cons] at ascending
        exact ascending.2.1.1
      simp only [List.head?_cons]
      split_ifs with under
      · have whole : keys = before ++ found :: rest := by rw [split, tail]
        refine .missing whole below ?_
        intro later member
        rcases List.mem_cons.mp member with equal | member
        · exact equal ▸ under
        · exact lt_trans under (restAbove later member)
      · refine .found (by rw [split, tail]) below ⟨notBelow, under⟩ ?_
        intro later member
        have := restAbove later member
        grind

end IndexDb
