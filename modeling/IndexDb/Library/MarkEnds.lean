import IndexDb.Library.InorderMarks

/-!
# Marks that begin and end with an entry

Where a block of marks begins and ends with an entry, these two keys stand for
the whole block: a separator fits behind it when it is above the last key, and
in front of it when it is not above the first.  Comparing neighbours is then
enough to order any number of blocks.
-/

namespace IndexDb

namespace Mark

variable {K V : Type}

/-- The marks begin with an entry of one key, and end with one of another. -/
structure Ends (marks : List (Mark K V)) (first last : K) : Prop where
  first : ∃ value rest, marks = .entry first value :: rest
  last : ∃ value front, marks = front ++ [.entry last value]

variable {marks before after : List (Mark K V)} {first last low high sep : K}

theorem ends_ofEntries {contents : List (K × V)} :
    Ends (ofEntries contents) first last ↔
      (contents.map Prod.fst).head? = some first ∧
        (contents.map Prod.fst).getLast? = some last := by
  constructor
  · rintro ⟨⟨value, rest, starts⟩, ⟨other, front, stops⟩⟩
    have keysEq : contents.map Prod.fst = (ofEntries contents).map key := by
      simp [ofEntries, key]
    rw [keysEq]
    refine ⟨?_, ?_⟩
    · rw [starts]
      rfl
    · rw [stops, List.map_append, List.map_singleton, List.getLast?_concat]
      rfl
  · rintro ⟨starts, stops⟩
    rw [List.head?_map, Option.map_eq_some_iff] at starts
    rw [List.getLast?_map, Option.map_eq_some_iff] at stops
    obtain ⟨entry, found, rfl⟩ := starts
    obtain ⟨other, otherFound, rfl⟩ := stops
    obtain ⟨rest, startsEq⟩ := List.head?_eq_some_iff.mp found
    obtain ⟨front, stopsEq⟩ := List.getLast?_eq_some_iff.mp otherFound
    refine ⟨⟨entry.2, ofEntries rest, ?_⟩, ⟨other.2, ofEntries front, ?_⟩⟩
    · rw [startsEq, ofEntries_cons]
    · rw [stopsEq, ofEntries_append]
      rfl

/-- The two keys are those of the block. -/
theorem Ends.unique {first' last' : K} (ends : Ends marks first last)
    (ends' : Ends marks first' last') : first = first' ∧ last = last' := by
  obtain ⟨⟨value, rest, starts⟩, ⟨other, front, stops⟩⟩ := ends
  obtain ⟨⟨value', rest', starts'⟩, ⟨other', front', stops'⟩⟩ := ends'
  have one := (List.cons.inj (starts.symm.trans starts')).1
  have two := List.append_inj_right' (stops.symm.trans stops') rfl
  exact ⟨(Mark.entry.inj one).1, (Mark.entry.inj (List.cons.inj two).1).1⟩

theorem Ends.join (ends : Ends before first low) (endsAfter : Ends after high last) :
    Ends (before ++ .separator sep :: after) first last := by
  obtain ⟨value, rest, rfl⟩ := ends.first
  obtain ⟨other, front, rfl⟩ := endsAfter.last
  exact ⟨⟨value, _, List.cons_append⟩,
    ⟨other, .entry first value :: rest ++ .separator sep :: front, by simp⟩⟩

theorem Ends.exists_entry (ends : Ends marks first last) :
    ∃ value, (first, value) ∈ entries marks := by
  obtain ⟨value, rest, rfl⟩ := ends.first
  exact ⟨value, List.mem_cons_self ..⟩

theorem exists_ends_interleave {seps : List K} {blocks : List (List (Mark K V))}
    (forked : blocks.length = seps.length + 1)
    (each : ∀ block ∈ blocks, ∃ first last, Ends block first last) :
    ∃ first last, Ends (interleave seps blocks) first last := by
  induction seps generalizing blocks with
  | nil =>
      obtain ⟨block, rfl⟩ := List.length_eq_one_iff.mp forked
      simpa [interleave] using each block (List.mem_singleton_self _)
  | cons sep seps ih =>
      obtain _ | ⟨block, rest⟩ := blocks
      · simp at forked
      obtain ⟨first, low, ends⟩ := each block (List.mem_cons_self ..)
      obtain ⟨high, last, endsAfter⟩ := ih (by simpa using forked)
        fun other found => each other (List.mem_cons_of_mem _ found)
      exact ⟨first, last, ends.join endsAfter⟩

variable [Preorder K]

/-- What is above the last key is above the whole block. -/
theorem Ends.before_separator (ends : Ends marks first last) (ordered : Ordered marks)
    (above : last < sep) : ∀ mark ∈ marks, Before mark (.separator sep) := by
  obtain ⟨value, front, rfl⟩ := ends.last
  intro mark member
  rcases List.mem_append.mp member with member | member
  · have below := (ordered_append.mp ordered).2.2 mark member _ (List.mem_singleton_self _)
    cases mark with
    | entry key other => exact lt_trans below above
    | separator key => exact lt_of_le_of_lt below above
  · rw [List.mem_singleton.mp member]
    exact above

/-- What is not above the first key is below the whole block. -/
theorem Ends.separator_before (ends : Ends marks first last) (ordered : Ordered marks)
    (below : sep ≤ first) : ∀ mark ∈ marks, Before (.separator sep) mark := by
  obtain ⟨value, rest, rfl⟩ := ends.first
  intro mark member
  rcases List.mem_cons.mp member with rfl | member
  · exact below
  · have above := (ordered_cons.mp ordered).1 mark member
    cases mark with
    | entry key other => exact le_of_lt (lt_of_le_of_lt below above)
    | separator key => exact lt_of_le_of_lt below above

/-- Two blocks are in order around a separator when their neighbouring keys are. -/
theorem ordered_join (ends : Ends before first low) (endsAfter : Ends after high last) :
    Ordered (before ++ .separator sep :: after) ↔
      Ordered before ∧ low < sep ∧ sep ≤ high ∧ Ordered after := by
  rw [ordered_append, ordered_cons]
  constructor
  · rintro ⟨left, ⟨above, right⟩, across⟩
    obtain ⟨value, front, rfl⟩ := ends.last
    obtain ⟨other, rest, rfl⟩ := endsAfter.first
    exact ⟨left, across (.entry low value) (by simp) _ (List.mem_cons_self ..),
      above (.entry high other) (List.mem_cons_self ..), right⟩
  · rintro ⟨left, under, reach, right⟩
    have below := ends.before_separator left under
    have above := endsAfter.separator_before right reach
    refine ⟨left, ⟨above, right⟩, fun mark member later found => ?_⟩
    rcases List.mem_cons.mp found with rfl | found
    · exact below mark member
    · exact before_through (below mark member) (above later found)

end Mark

end IndexDb
