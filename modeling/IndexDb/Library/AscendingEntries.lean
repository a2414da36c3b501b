import IndexDb.Library.SortedSearch
import Mathlib.Data.List.Basic

/-!
# Ordered maps as ascending entry lists

The abstract contents of an ordered map: its entries, ascending by key.  The
operations are local: with only smaller keys before a block of entries and
only larger keys after it, looking up, inserting and erasing happen inside the
block.
-/

namespace IndexDb

variable {K V : Type}

/-- Entries strictly ascending by key. -/
def Ascending [LT K] (entries : List (K × V)) : Prop :=
  entries.Pairwise fun first second => first.1 < second.1

theorem ascending_append [LT K] {before after : List (K × V)} :
    Ascending (before ++ after) ↔
      Ascending before ∧ Ascending after ∧
        ∀ first ∈ before, ∀ second ∈ after, first.1 < second.1 :=
  List.pairwise_append

namespace Entries

/-- Entries compare as their positions do. -/
theorem getElem?_le_iff {entries : List (K × V)} [Preorder K]
    (ascending : Ascending entries) {i j : Nat}
    {first second : K × V} (firstAt : entries[i]? = some first)
    (secondAt : entries[j]? = some second) : first.1 ≤ second.1 ↔ i ≤ j := by
  obtain ⟨iInside, rfl⟩ := List.getElem?_eq_some_iff.mp firstAt
  obtain ⟨jInside, rfl⟩ := List.getElem?_eq_some_iff.mp secondAt
  have climbs := List.pairwise_iff_getElem.mp ascending
  rcases Nat.lt_trichotomy i j with less | rfl | greater
  · exact iff_of_true (le_of_lt (climbs i j iInside jInside less)) (Nat.le_of_lt less)
  · exact iff_of_true (le_refl _) (Nat.le_refl _)
  · exact iff_of_false (not_le_of_gt (climbs j i jInside iInside greater))
      (Nat.not_le_of_gt greater)

theorem getElem?_lt_iff {entries : List (K × V)} [Preorder K]
    (ascending : Ascending entries) {i j : Nat}
    {first second : K × V} (firstAt : entries[i]? = some first)
    (secondAt : entries[j]? = some second) : first.1 < second.1 ↔ i < j := by
  rw [lt_iff_le_not_ge, getElem?_le_iff ascending firstAt secondAt,
    getElem?_le_iff ascending secondAt firstAt]
  omega

/-- The least entry above an entry is the one after it. -/
theorem least_above_iff {entries : List (K × V)} [Preorder K]
    (ascending : Ascending entries) {i : Nat} {entry next : K × V}
    (entryAt : entries[i]? = some entry) :
    (next ∈ entries ∧ entry.1 < next.1 ∧
      ∀ other ∈ entries, entry.1 < other.1 → next.1 ≤ other.1) ↔
    entries[i + 1]? = some next := by
  constructor
  · rintro ⟨member, above, least⟩
    obtain ⟨j, nextAt⟩ := List.getElem?_of_mem member
    have later := (getElem?_lt_iff ascending entryAt nextAt).mp above
    have inside := (List.getElem?_eq_some_iff.mp nextAt).1
    have otherAt := List.getElem?_eq_getElem (Nat.lt_of_le_of_lt later inside)
    have bound := least _ (List.mem_of_getElem? otherAt)
      ((getElem?_lt_iff ascending entryAt otherAt).mpr (Nat.lt_succ_self i))
    have earlier := (getElem?_le_iff ascending nextAt otherAt).mp bound
    obtain rfl : j = i + 1 := Nat.le_antisymm earlier later
    exact nextAt
  · intro nextAt
    refine ⟨List.mem_of_getElem? nextAt,
      (getElem?_lt_iff ascending entryAt nextAt).mpr (Nat.lt_succ_self i), ?_⟩
    intro other member above
    obtain ⟨j, otherAt⟩ := List.getElem?_of_mem member
    exact (getElem?_le_iff ascending nextAt otherAt).mpr
      ((getElem?_lt_iff ascending entryAt otherAt).mp above)

/-- The greatest entry below an entry is the one before it. -/
theorem greatest_below_iff {entries : List (K × V)} [Preorder K]
    (ascending : Ascending entries) {i : Nat} {entry previous : K × V}
    (entryAt : entries[i]? = some entry) :
    (previous ∈ entries ∧ previous.1 < entry.1 ∧
      ∀ other ∈ entries, other.1 < entry.1 → other.1 ≤ previous.1) ↔
    ∃ j, i = j + 1 ∧ entries[j]? = some previous := by
  constructor
  · rintro ⟨member, below, greatest⟩
    obtain ⟨j, previousAt⟩ := List.getElem?_of_mem member
    have earlier := (getElem?_lt_iff ascending previousAt entryAt).mp below
    have inside := (List.getElem?_eq_some_iff.mp entryAt).1
    obtain ⟨k, rfl⟩ := Nat.exists_eq_add_one_of_ne_zero (Nat.ne_zero_of_lt earlier)
    have otherAt := List.getElem?_eq_getElem (Nat.lt_of_succ_lt inside)
    have bound := greatest _ (List.mem_of_getElem? otherAt)
      ((getElem?_lt_iff ascending otherAt entryAt).mpr (Nat.lt_succ_self k))
    have later := (getElem?_le_iff ascending otherAt previousAt).mp bound
    obtain rfl : j = k := Nat.le_antisymm (Nat.le_of_lt_succ earlier) later
    exact ⟨j, rfl, previousAt⟩
  · rintro ⟨k, rfl, previousAt⟩
    refine ⟨List.mem_of_getElem? previousAt,
      (getElem?_lt_iff ascending previousAt entryAt).mpr (Nat.lt_succ_self k), ?_⟩
    intro other member below
    obtain ⟨j, otherAt⟩ := List.getElem?_of_mem member
    have earlier := (getElem?_lt_iff ascending otherAt entryAt).mp below
    exact (getElem?_le_iff ascending otherAt previousAt).mpr (Nat.le_of_lt_succ earlier)

section Operations

variable [LT K] [DecidableLT K]

def lookup (key : K) : List (K × V) → Option V
  | [] => none
  | entry :: entries =>
      if entry.1 < key then lookup key entries
      else if key < entry.1 then none
      else some entry.2

/-- Store `value` under `key`.  An entry that is already there keeps its own
key instance. -/
def insert (key : K) (value : V) : List (K × V) → List (K × V)
  | [] => [(key, value)]
  | entry :: entries =>
      if entry.1 < key then entry :: insert key value entries
      else if key < entry.1 then (key, value) :: entry :: entries
      else (entry.1, value) :: entries

def erase (key : K) : List (K × V) → List (K × V)
  | [] => []
  | entry :: entries =>
      if entry.1 < key then entry :: erase key entries
      else if key < entry.1 then entry :: entries
      else entries

/-- Insert the entries one after the other. -/
def insertAll (contents entries : List (K × V)) : List (K × V) :=
  contents.foldl (fun entries entry => insert entry.1 entry.2 entries) entries

end Operations

section Blocks

variable [Preorder K] [DecidableLT K]

variable {key : K} {before block after : List (K × V)}

theorem lookup_of_above (above : ∀ entry ∈ after, key < entry.1) :
    lookup key after = none := by
  cases after with
  | nil => rfl
  | cons entry entries =>
      have under : key < entry.1 := above entry (by simp)
      simp [lookup, under, lt_asymm under]

theorem insert_of_above (value : V) (above : ∀ entry ∈ after, key < entry.1) :
    insert key value after = (key, value) :: after := by
  cases after with
  | nil => rfl
  | cons entry entries =>
      have under : key < entry.1 := above entry (by simp)
      simp [insert, under, lt_asymm under]

theorem erase_of_above (above : ∀ entry ∈ after, key < entry.1) :
    erase key after = after := by
  cases after with
  | nil => rfl
  | cons entry entries =>
      have under : key < entry.1 := above entry (by simp)
      simp [erase, under, lt_asymm under]

theorem lookup_append (above : ∀ entry ∈ after, key < entry.1) :
    lookup key (block ++ after) = lookup key block := by
  induction block with
  | nil => exact lookup_of_above above
  | cons entry entries ih =>
      simp only [List.cons_append, lookup, ih]

theorem insert_append (value : V) (above : ∀ entry ∈ after, key < entry.1) :
    insert key value (block ++ after) = insert key value block ++ after := by
  induction block with
  | nil => exact insert_of_above value above
  | cons entry entries ih =>
      simp only [List.cons_append, insert, ih]
      split_ifs <;> rfl

theorem erase_append (above : ∀ entry ∈ after, key < entry.1) :
    erase key (block ++ after) = erase key block ++ after := by
  induction block with
  | nil => exact erase_of_above above
  | cons entry entries ih =>
      simp only [List.cons_append, erase, ih]
      split_ifs <;> rfl

theorem lookup_prepend (below : ∀ entry ∈ before, entry.1 < key) :
    lookup key (before ++ block) = lookup key block := by
  induction before with
  | nil => rfl
  | cons entry entries ih =>
      have under : entry.1 < key := below entry (by simp)
      have rest := ih fun other member => below other (by simp [member])
      simp [lookup, under, rest]

theorem insert_prepend (value : V) (below : ∀ entry ∈ before, entry.1 < key) :
    insert key value (before ++ block) = before ++ insert key value block := by
  induction before with
  | nil => rfl
  | cons entry entries ih =>
      have under : entry.1 < key := below entry (by simp)
      have rest := ih fun other member => below other (by simp [member])
      simp [insert, under, rest]

theorem erase_prepend (below : ∀ entry ∈ before, entry.1 < key) :
    erase key (before ++ block) = before ++ erase key block := by
  induction before with
  | nil => rfl
  | cons entry entries ih =>
      have under : entry.1 < key := below entry (by simp)
      have rest := ih fun other member => below other (by simp [member])
      simp [erase, under, rest]

theorem lookup_block (below : ∀ entry ∈ before, entry.1 < key)
    (above : ∀ entry ∈ after, key < entry.1) :
    lookup key (before ++ block ++ after) = lookup key block := by
  rw [lookup_append above, lookup_prepend below]

theorem insert_block (value : V) (below : ∀ entry ∈ before, entry.1 < key)
    (above : ∀ entry ∈ after, key < entry.1) :
    insert key value (before ++ block ++ after) =
      before ++ insert key value block ++ after := by
  rw [insert_append value above, insert_prepend value below]

theorem erase_block (below : ∀ entry ∈ before, entry.1 < key)
    (above : ∀ entry ∈ after, key < entry.1) :
    erase key (before ++ block ++ after) =
      before ++ erase key block ++ after := by
  rw [erase_append above, erase_prepend below]

/-- The update leaves alone whatever lies below or above the key. -/
def LocalAt (key : K) (update : List (K × V) → List (K × V)) : Prop :=
  ∀ before block after, (∀ entry ∈ before, entry.1 < key) →
    (∀ entry ∈ after, key < entry.1) →
    update (before ++ block ++ after) = before ++ update block ++ after

theorem localAt_insert (value : V) : LocalAt key (insert key value) :=
  fun _ _ _ below above => insert_block value below above

theorem localAt_erase : LocalAt key (erase key : List (K × V) → List (K × V)) :=
  fun _ _ _ below above => erase_block below above

/-- Entries that continue an ascending list are appended to it. -/
theorem insertAll_append {entries contents : List (K × V)}
    (ascending : Ascending (entries ++ contents)) :
    insertAll contents entries = entries ++ contents := by
  induction contents generalizing entries with
  | nil => exact (List.append_nil entries).symm
  | cons entry contents ih =>
      have below : ∀ earlier ∈ entries, earlier.1 < entry.1 :=
        fun earlier member =>
          (ascending_append.mp ascending).2.2 earlier member entry (by simp)
      have appended : insert entry.1 entry.2 (entries ++ []) = entries ++ [entry] :=
        insert_prepend entry.2 below
      rw [List.append_nil] at appended
      rw [List.append_cons] at ascending ⊢
      rw [insertAll, List.foldl_cons, appended]
      exact ih ascending

theorem insertAll_of_ascending {contents : List (K × V)}
    (ascending : Ascending contents) : insertAll contents [] = contents :=
  insertAll_append ascending

end Blocks

section Laws

variable [Preorder K] [DecidableLT K] {key : K} {entry : K × V}

theorem lookup_single (same : SameKey entry.1 key) :
    lookup key [entry] = some entry.2 := by
  simp [lookup, same.1, same.2]

theorem insert_single (value : V) (same : SameKey entry.1 key) :
    insert key value [entry] = [(entry.1, value)] := by
  simp [insert, same.1, same.2]

theorem erase_single (same : SameKey entry.1 key) : erase key [entry] = [] := by
  simp [erase, same.1, same.2]

/-- An entry matters only to the lookups of its own key. -/
theorem lookup_middle {before after : List (K × V)} {other : K}
    (ascending : Ascending (before ++ [entry] ++ after))
    (different : ¬ SameKey entry.1 other) :
    lookup other (before ++ [entry] ++ after) =
      lookup other (before ++ after) := by
  induction before with
  | nil =>
      have above : ∀ later ∈ after, entry.1 < later.1 := by
        simpa [Ascending] using (List.pairwise_cons.mp ascending).1
      by_cases under : entry.1 < other
      · simp [lookup, under]
      · have beyond : other < entry.1 := by
          by_contra notOver
          exact different ⟨under, notOver⟩
        have aboveOther : ∀ later ∈ after, other < later.1 :=
          fun later member => lt_trans beyond (above later member)
        simp [lookup, under, beyond, lookup_of_above aboveOther]
  | cons first rest ih =>
      simp only [List.cons_append, lookup]
      rw [ih (List.pairwise_cons.mp ascending).2]

variable [Std.IsLinearPreorder K] {entries : List (K × V)}

/-- The two answers of a search for a key among entries. -/
inductive KeyAnswer (entries : List (K × V)) (key : K) : Except Nat Nat → Prop
  | found {before after : List (K × V)} {entry : K × V}
      (split : entries = before ++ entry :: after)
      (below : ∀ earlier ∈ before, earlier.1 < key)
      (same : SameKey entry.1 key)
      (above : ∀ later ∈ after, key < later.1) :
      KeyAnswer entries key (.ok before.length)
  | missing {before after : List (K × V)}
      (split : entries = before ++ after)
      (below : ∀ earlier ∈ before, earlier.1 < key)
      (above : ∀ later ∈ after, key < later.1) :
      KeyAnswer entries key (.error before.length)

theorem search_answer (key : K) (ascending : Ascending entries) :
    KeyAnswer entries key (binarySearch (entries.map Prod.fst) key) := by
  have keysAscending : (entries.map Prod.fst).Pairwise (· < ·) :=
    List.pairwise_map.mpr ascending
  have correct := binarySearch_answer key keysAscending
  generalize binarySearch (entries.map Prod.fst) key = answer at correct
  cases correct with
  | found split below same above =>
      obtain ⟨before, rest, rfl, beforeKeys, restKeys⟩ :=
        List.map_eq_append_iff.mp split
      obtain ⟨entry, after, rfl, entryKey, afterKeys⟩ :=
        List.map_eq_cons_iff.mp restKeys
      subst beforeKeys entryKey afterKeys
      rw [List.length_map]
      exact .found rfl (by simpa using below) same (by simpa using above)
  | missing split below above =>
      obtain ⟨before, after, rfl, beforeKeys, afterKeys⟩ :=
        List.map_eq_append_iff.mp split
      subst beforeKeys afterKeys
      rw [List.length_map]
      exact .missing rfl (by simpa using below) (by simpa using above)

/-- An ascending list splits around any key: either one entry has that key, or
it lies strictly between two neighbours. -/
theorem split_at (key : K) (ascending : Ascending entries) :
    ∃ before block after, entries = before ++ block ++ after ∧
      (∀ entry ∈ before, entry.1 < key) ∧
      (∀ entry ∈ after, key < entry.1) ∧
      (block = [] ∨ ∃ entry, block = [entry] ∧ SameKey entry.1 key) := by
  have correct := search_answer key ascending
  generalize binarySearch (entries.map Prod.fst) key = answer at correct
  cases correct with
  | @found before after entry split below same above =>
      exact ⟨before, [entry], after, by simpa using split, below, above,
        .inr ⟨entry, rfl, same⟩⟩
  | @missing before after split below above =>
      exact ⟨before, [], after, by simpa using split, below, above, .inl rfl⟩

theorem ascending_insert (key : K) (value : V) (ascending : Ascending entries) :
    Ascending (insert key value entries) := by
  obtain ⟨before, block, after, rfl, below, above, alone⟩ :=
    split_at key ascending
  rw [insert_block value below above]
  rcases alone with rfl | ⟨entry, rfl, same⟩
  · simp only [insert, ascending_append] at ascending ⊢
    simp only [Ascending, List.pairwise_singleton] at ascending ⊢
    grind
  · rw [insert_single value same]
    simp only [ascending_append] at ascending ⊢
    simp only [Ascending, List.pairwise_singleton] at ascending ⊢
    grind

theorem ascending_erase (key : K) (ascending : Ascending entries) :
    Ascending (erase key entries) := by
  obtain ⟨before, block, after, rfl, below, above, alone⟩ :=
    split_at key ascending
  rw [erase_block below above]
  refine List.Pairwise.sublist ?_ ascending
  rcases alone with rfl | ⟨entry, rfl, same⟩
  · simp [erase]
  · rw [erase_single same]
    simp

/-- Looking up an ascending list finds exactly its entries. -/
theorem lookup_eq_some_iff (ascending : Ascending entries) {value : V} :
    lookup key entries = some value ↔
      ∃ entry ∈ entries, SameKey entry.1 key ∧ entry.2 = value := by
  obtain ⟨before, block, after, rfl, below, above, alone⟩ :=
    split_at key ascending
  rw [lookup_block below above]
  have beforeNot : ∀ entry ∈ before, ¬ SameKey entry.1 key :=
    fun entry member same => same.1 (below entry member)
  have afterNot : ∀ entry ∈ after, ¬ SameKey entry.1 key :=
    fun entry member same => same.2 (above entry member)
  rcases alone with rfl | ⟨entry, rfl, same⟩
  · simp only [lookup, List.append_nil, List.mem_append]
    grind
  · rw [lookup_single same]
    simp only [List.mem_append, List.mem_singleton]
    grind

theorem lookup_congr {first second : K} (same : SameKey first second)
    (entries : List (K × V)) : lookup first entries = lookup second entries := by
  induction entries with
  | nil => rfl
  | cons entry entries ih =>
      obtain ⟨notBelow, notAbove⟩ := same
      have lower : entry.1 < first ↔ entry.1 < second := by grind
      have upper : first < entry.1 ↔ second < entry.1 := by grind
      simp only [lookup, lower, upper, ih]

theorem lookup_insert (ascending : Ascending entries) (value : V) (other : K) :
    lookup other (insert key value entries) =
      if SameKey key other then some value else lookup other entries := by
  have stillAscending := ascending_insert key value ascending
  obtain ⟨before, block, after, rfl, below, above, alone⟩ :=
    split_at key ascending
  have inserted : ∃ stored, insert key value block = [(stored, value)] ∧
      SameKey stored key := by
    rcases alone with rfl | ⟨entry, rfl, same⟩
    · exact ⟨key, rfl, sameKey_refl key⟩
    · exact ⟨entry.1, insert_single value same, same⟩
  obtain ⟨stored, inserted, storedSame⟩ := inserted
  rw [insert_block value below above, inserted] at stillAscending ⊢
  split_ifs with same
  · rw [← lookup_congr same, lookup_block below above, lookup_single storedSame]
  · have storedDifferent : ¬ SameKey stored other := by
      grind [SameKey]
    rw [lookup_middle stillAscending storedDifferent]
    rcases alone with rfl | ⟨entry, rfl, entrySame⟩
    · rw [List.append_nil]
    · rw [lookup_middle ascending (by grind [SameKey])]

theorem lookup_erase (ascending : Ascending entries) (other : K) :
    lookup other (erase key entries) =
      if SameKey key other then none else lookup other entries := by
  obtain ⟨before, block, after, rfl, below, above, alone⟩ :=
    split_at key ascending
  rw [erase_block below above]
  rcases alone with rfl | ⟨entry, rfl, entrySame⟩
  · split_ifs with same
    · rw [← lookup_congr same, lookup_block below above]
      rfl
    · rfl
  · rw [erase_single entrySame, List.append_nil]
    split_ifs with same
    · rw [← lookup_congr same, lookup_append above,
        ← List.append_nil before, lookup_prepend below]
      rfl
    · rw [lookup_middle ascending (by grind [SameKey])]

theorem length_insert (ascending : Ascending entries) (value : V) :
    (insert key value entries).length =
      if (lookup key entries).isNone then entries.length + 1
      else entries.length := by
  obtain ⟨before, block, after, rfl, below, above, alone⟩ :=
    split_at key ascending
  rw [insert_block value below above, lookup_block below above]
  rcases alone with rfl | ⟨entry, rfl, same⟩
  · simp [insert, lookup]
    omega
  · simp [insert_single value same, lookup_single same]

theorem length_le_insert (ascending : Ascending entries) (key : K) (value : V) :
    entries.length ≤ (insert key value entries).length := by
  rw [length_insert ascending]
  split_ifs <;> omega

theorem length_erase (ascending : Ascending entries) :
    (erase key entries).length =
      if (lookup key entries).isSome then entries.length - 1
      else entries.length := by
  obtain ⟨before, block, after, rfl, below, above, alone⟩ :=
    split_at key ascending
  rw [erase_block below above, lookup_block below above]
  rcases alone with rfl | ⟨entry, rfl, same⟩
  · simp [erase, lookup]
  · simp [erase_single same, lookup_single same]

theorem length_insert_absent (ascending : Ascending entries)
    (absent : lookup key entries = none) (value : V) :
    (insert key value entries).length = entries.length + 1 := by
  rw [length_insert ascending, absent, Option.isNone_none, if_pos rfl]

theorem length_erase_present (ascending : Ascending entries) {value : V}
    (present : lookup key entries = some value) :
    (erase key entries).length + 1 = entries.length := by
  have some : 0 < entries.length := by
    cases entries with
    | nil => cases present
    | cons entry entries => exact Nat.succ_pos _
  rw [length_erase ascending, present, Option.isSome_some, if_pos rfl]
  omega

/-- Taking out an entry that was put in leaves the entries as they were. -/
theorem erase_insert (ascending : Ascending entries) (absent : lookup key entries = none)
    (value : V) : erase key (insert key value entries) = entries := by
  obtain ⟨before, block, after, rfl, below, above, alone⟩ :=
    split_at key ascending
  rw [insert_block value below above, erase_block below above]
  rcases alone with rfl | ⟨entry, rfl, same⟩
  · rw [insert, erase_single (sameKey_refl key)]
  · rw [lookup_block below above, lookup_single same] at absent
    cases absent

/-- Putting back an entry that was taken out leaves the entries as they were. -/
theorem insert_erase (ascending : Ascending entries) {value : V}
    (member : (key, value) ∈ entries) : insert key value (erase key entries) = entries := by
  obtain ⟨before, block, after, rfl, below, above, alone⟩ :=
    split_at key ascending
  have inBlock : (key, value) ∈ block := by
    simp only [List.mem_append] at member
    rcases member with (early | here) | late
    · exact absurd (below _ early) (lt_irrefl key)
    · exact here
    · exact absurd (above _ late) (lt_irrefl key)
  rcases alone with rfl | ⟨entry, rfl, same⟩
  · cases inBlock
  · obtain rfl := List.mem_singleton.mp inBlock
    rw [erase_block below above, erase_single same, insert_block value below above, insert]

theorem ascending_insertAll (contents : List (K × V))
    (ascending : Ascending entries) : Ascending (insertAll contents entries) := by
  induction contents generalizing entries with
  | nil => exact ascending
  | cons entry contents ih => exact ih (ascending_insert entry.1 entry.2 ascending)

theorem length_le_insertAll (contents : List (K × V)) (ascending : Ascending entries) :
    entries.length ≤ (insertAll contents entries).length := by
  induction contents generalizing entries with
  | nil => exact Nat.le_refl _
  | cons entry contents ih =>
      exact (length_le_insert ascending entry.1 entry.2).trans
        (ih (ascending_insert entry.1 entry.2 ascending))

end Laws

section Instances

/-- The first key instance in the list that compares as equal to the key. -/
def storedKey [LT K] [DecidableLT K] (key : K) : List (K × V) → Option K
  | [] => none
  | entry :: entries =>
      if SameKey entry.1 key then some entry.1 else storedKey key entries

variable [Preorder K] [DecidableLT K] {key other : K} {entries : List (K × V)}

theorem storedKey_of_mem {entry : K × V} (ascending : Ascending entries)
    (member : entry ∈ entries) : storedKey entry.1 entries = some entry.1 := by
  induction entries with
  | nil => cases member
  | cons first rest ih =>
      obtain ⟨firstBelow, restAscending⟩ := List.pairwise_cons.mp ascending
      rcases List.mem_cons.mp member with rfl | member
      · exact if_pos (sameKey_refl entry.1)
      · rw [storedKey, if_neg fun same => same.1 (firstBelow entry member)]
        exact ih restAscending member

variable [Std.IsLinearPreorder K]

theorem storedKey_of_above (same : SameKey key other)
    (above : ∀ entry ∈ entries, key < entry.1) : storedKey other entries = none := by
  induction entries with
  | nil => rfl
  | cons first rest ih =>
      have under := above first (List.mem_cons_self ..)
      have different : ¬ SameKey first.1 other := by grind [SameKey]
      rw [storedKey, if_neg different]
      exact ih fun entry member => above entry (List.mem_cons_of_mem _ member)

theorem storedKey_congr {first second : K} (same : SameKey first second)
    (entries : List (K × V)) : storedKey first entries = storedKey second entries := by
  induction entries with
  | nil => rfl
  | cons entry entries ih =>
      have alike : SameKey entry.1 first ↔ SameKey entry.1 second := by grind [SameKey]
      simp only [storedKey, alike, ih]

/-- A key has a stored instance exactly when it has a value. -/
theorem storedKey_isSome (ascending : Ascending entries) (key : K) :
    (storedKey key entries).isSome = (lookup key entries).isSome := by
  induction entries with
  | nil => rfl
  | cons first rest ih =>
      obtain ⟨firstBelow, restAscending⟩ := List.pairwise_cons.mp ascending
      rw [lookup, storedKey]
      by_cases under : first.1 < key
      · rw [if_pos under, if_neg fun same => same.1 under]
        exact ih restAscending
      · rw [if_neg under]
        by_cases beyond : key < first.1
        · rw [if_pos beyond, if_neg fun same => same.2 beyond]
          have none := storedKey_of_above (sameKey_refl key)
            fun entry member => lt_trans beyond (firstBelow entry member)
          rw [none]
          rfl
        · rw [if_neg beyond, if_pos ⟨under, beyond⟩]
          rfl

/-- Insertion adds an instance only where there is none. -/
theorem storedKey_insert (ascending : Ascending entries) (value : V) :
    storedKey other (insert key value entries) =
      (storedKey other entries).or (if SameKey key other then some key else none) := by
  induction entries with
  | nil => rfl
  | cons first rest ih =>
      obtain ⟨firstBelow, restAscending⟩ := List.pairwise_cons.mp ascending
      rw [insert]
      by_cases under : first.1 < key
      · rw [if_pos under, storedKey, storedKey, ih restAscending]
        split_ifs <;> rfl
      · rw [if_neg under]
        by_cases beyond : key < first.1
        · rw [if_pos beyond, storedKey]
          by_cases same : SameKey key other
          · have above : ∀ entry ∈ first :: rest, key < entry.1 := by
              intro entry member
              rcases List.mem_cons.mp member with rfl | member
              · exact beyond
              · exact lt_trans beyond (firstBelow entry member)
            rw [if_pos same, if_pos same, storedKey_of_above same above]
            rfl
          · rw [if_neg same, if_neg same, Option.or_none]
        · rw [if_neg beyond, storedKey, storedKey]
          by_cases same : SameKey first.1 other
          · rw [if_pos same]
            rfl
          · have different : ¬ SameKey key other := by grind [SameKey]
            rw [if_neg same, if_neg different, Option.or_none]

theorem storedKey_erase (ascending : Ascending entries) :
    storedKey other (erase key entries) =
      if SameKey key other then none else storedKey other entries := by
  induction entries with
  | nil => simp [erase, storedKey]
  | cons first rest ih =>
      obtain ⟨firstBelow, restAscending⟩ := List.pairwise_cons.mp ascending
      rw [erase]
      by_cases under : first.1 < key
      · rw [if_pos under, storedKey, storedKey, ih restAscending]
        by_cases same : SameKey key other
        · have different : ¬ SameKey first.1 other := by grind [SameKey]
          rw [if_pos same, if_pos same, if_neg different]
        · rw [if_neg same, if_neg same]
      · rw [if_neg under]
        by_cases beyond : key < first.1
        · rw [if_pos beyond]
          split_ifs with same
          · refine storedKey_of_above same fun entry member => ?_
            rcases List.mem_cons.mp member with rfl | member
            · exact beyond
            · exact lt_trans beyond (firstBelow entry member)
          · rfl
        · rw [if_neg beyond, storedKey]
          by_cases same : SameKey key other
          · have firstSame : SameKey first.1 other := by grind [SameKey]
            rw [if_pos same]
            exact storedKey_of_above firstSame firstBelow
          · have different : ¬ SameKey first.1 other := by grind [SameKey]
            rw [if_neg same, if_neg different]

/-- Inserting a list adds the first instance of each key that it has. -/
theorem storedKey_insertAll (contents : List (K × V)) (ascending : Ascending entries) :
    storedKey key (insertAll contents entries) =
      (storedKey key entries).or (storedKey key contents) := by
  induction contents generalizing entries with
  | nil => rw [storedKey, Option.or_none]; rfl
  | cons entry contents ih =>
      have rest := ih (ascending_insert entry.1 entry.2 ascending)
      rw [storedKey_insert ascending, Option.or_assoc] at rest
      rw [insertAll, List.foldl_cons]
      refine rest.trans ?_
      rw [storedKey]
      split_ifs <;> rfl

end Instances

end Entries

end IndexDb
