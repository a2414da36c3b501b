import IndexDb.CursorBounds
import IndexDb.Library.Simulation
import IndexDb.Library.Windows

/-!
# Iterators as windows

An iterator spans the entries it has not yielded: its cursors stand at the
first and the last of them.  Pulling at either end takes an entry off the
window, and a range starts with the entries that both bounds admit.
-/

namespace IndexDb

open LawfulNodeStore

variable {K V : Type}

/-- What to iterate over. -/
inductive Scan (K : Type) where
  | all
  | range (lower upper : Bound K)

/-- The key belongs to the scan. -/
def Scan.Admits [LE K] [LT K] : Scan K → K → Prop
  | .all, _ => True
  | .range lower upper, key => lower.AdmitsFrom key ∧ upper.AdmitsTo key

instance [LE K] [DecidableLE K] [LT K] [DecidableLT K] (scan : Scan K) (key : K) :
    Decidable (scan.Admits key) :=
  match scan with
  | .all => inferInstanceAs (Decidable True)
  | .range _ _ => inferInstanceAs (Decidable (_ ∧ _))

def BPlusTree.scan [LE K] [DecidableLE K] [LT K] [DecidableLT K]
    (tree : BPlusTree K V) : Scan K → Run (Iter K V)
  | .all => tree.iter
  | .range lower upper => tree.range lower upper

theorem Pull.pops_answerwise {α : Type} :
    Answerwise (fun list pull => Pull.pop list pull) (Pull.pops (α := α)) where
  nil _ := rfl
  cons _ _ _ := rfl

namespace Iter

def pull (iter : Iter K V) : Pull → Run (Option (K × V) × Iter K V)
  | .front => iter.next
  | .back => iter.nextBack

def pulls (iter : Iter K V) :
    List Pull → Run (List (Option (K × V)) × Iter K V)
  | [] => pure ([], iter)
  | pull :: rest => do
      let (out, iter) ← iter.pull pull
      let (others, iter) ← iter.pulls rest
      pure (out :: others, iter)

theorem pulls_stepwise : Stepwise Iter.pull (Iter.pulls (K := K) (V := V)) where
  nil _ := rfl
  cons _ _ _ := rfl

/-- The boolean that the pull discards, if it steps a cursor. -/
def discarded (iter : Iter K V) (pull : Pull) : Run (Option Bool) := do
  let (_, _, stepped) ← match pull with
    | .front => iter.advance
    | .back => iter.retreat
  pure stepped

section Spanning

variable [LE K] [LT K] {order : Nat}

/-- The iterator has these entries left. -/
inductive Spans (store : InMemoryStore K V) (t : SearchTree NodeId K V order) :
    Iter K V → List (K × V) → Prop
  | nothing : Spans store t ⟨none⟩ []
  | between {front back : Cursor K V} {left contents right : List (K × V)} {last : Nat}
      (split : t.entries = left ++ contents ++ right)
      (frontAt : front.StandsAt store t left.length)
      (backAt : back.StandsAt store t last)
      (lastEq : last + 1 = left.length + contents.length)
      (nonempty : contents ≠ []) :
      Spans store t ⟨some ⟨front, back⟩⟩ contents

variable {store : InMemoryStore K V} {t : SearchTree NodeId K V order}
  {iter : Iter K V} {contents : List (K × V)}

/-- The first entry is taken off, and the cursor finds the next one. -/
theorem Spans.advance (browses : Browses store t) (spans : Spans store t iter contents) :
    ∃ rest stepped, iter.advance = pure (contents.head?, rest, stepped) ∧
      Spans store t rest contents.tail ∧ (stepped = none ∨ stepped = some true) := by
  cases spans with
  | nothing => exact ⟨_, _, rfl, .nothing, .inl rfl⟩
  | @between front back left contents right last split frontAt backAt lastEq nonempty =>
      obtain ⟨entry, contents, rfl⟩ := List.exists_cons_of_ne_nil nonempty
      obtain ⟨found, foundAt, current, -⟩ := frontAt.current
      have entryEq : found = entry := by
        rw [split, List.append_assoc, List.getElem?_append_right (Nat.le_refl _),
          Nat.sub_self] at foundAt
        exact (Option.some.inj foundAt).symm
      subst entryEq
      have same := Cursor.StandsAt.samePosition browses frontAt backAt
      rw [List.length_cons] at lastEq
      rw [Iter.advance]
      dsimp only
      rw [current, pure_bind, same]
      by_cases met : left.length = last
      · have empty : contents = [] := List.eq_nil_of_length_eq_zero (by omega)
        subst empty
        simp only [met, decide_true, if_true]
        exact ⟨_, _, rfl, .nothing, .inl rfl⟩
      · have more : contents ≠ [] := by
          rintro rfl
          simp only [List.length_nil] at lastEq
          omega
        simp only [met, decide_false, Bool.false_eq_true, if_false]
        rcases frontAt.stepForward browses with
          ⟨front', stepped, stands⟩ | ⟨atEnd, -⟩
        · rw [stepped, pure_bind]
          have frontAt' : front'.StandsAt store t (left ++ [found]).length := by
            rw [List.length_append]
            exact stands
          have split' : t.entries = left ++ [found] ++ contents ++ right := by
            rw [split]
            simp
          refine ⟨_, _, rfl, .between split' frontAt' backAt ?_ more, .inr rfl⟩
          rw [List.length_append, List.length_singleton, List.tail_cons]
          omega
        · have inside := backAt.lt_length
          omega

/-- The last entry is taken off, and the cursor finds the previous one. -/
theorem Spans.retreat (browses : Browses store t) (spans : Spans store t iter contents) :
    ∃ rest stepped, iter.retreat = pure (contents.getLast?, rest, stepped) ∧
      Spans store t rest contents.dropLast ∧ (stepped = none ∨ stepped = some true) := by
  cases spans with
  | nothing => exact ⟨_, _, rfl, .nothing, .inl rfl⟩
  | @between front back left contents right last split frontAt backAt lastEq nonempty =>
      obtain ⟨contents, entry, rfl⟩ := (List.eq_nil_or_concat' contents).resolve_left
        nonempty
      obtain ⟨found, foundAt, current, -⟩ := backAt.current
      rw [List.length_append, List.length_singleton] at lastEq
      have entryEq : found = entry := by
        have place : last = (left ++ contents).length := by
          rw [List.length_append]
          omega
        rw [split, ← List.append_assoc, List.append_assoc _ [entry], place,
          List.getElem?_append_right (Nat.le_refl _), Nat.sub_self] at foundAt
        exact (Option.some.inj foundAt).symm
      subst entryEq
      have same := Cursor.StandsAt.samePosition browses frontAt backAt
      rw [Iter.retreat]
      dsimp only
      rw [current, pure_bind, same, List.getLast?_concat, List.dropLast_concat]
      by_cases met : left.length = last
      · have empty : contents = [] := List.eq_nil_of_length_eq_zero (by omega)
        subst empty
        simp only [met, decide_true, if_true]
        exact ⟨_, _, rfl, .nothing, .inl rfl⟩
      · have more : contents ≠ [] := by
          rintro rfl
          simp only [List.length_nil] at lastEq
          omega
        simp only [met, decide_false, Bool.false_eq_true, if_false]
        rcases backAt.stepBackward browses with
          ⟨back', previous, stepped, lastIs, stands⟩ | ⟨atStart, -⟩
        · rw [stepped, pure_bind]
          have split' : t.entries = left ++ contents ++ ([found] ++ right) := by
            rw [split]
            simp
          exact ⟨_, _, rfl, .between split' frontAt stands (by omega) more, .inr rfl⟩
        · omega

/-- `next` takes the first entry off. -/
theorem Spans.next (browses : Browses store t) (spans : Spans store t iter contents) :
    ∃ rest, iter.next = pure (contents.head?, rest) ∧
      Spans store t rest contents.tail := by
  obtain ⟨rest, stepped, advanced, restSpans, -⟩ := spans.advance browses
  exact ⟨rest, by rw [Iter.next, advanced, pure_bind], restSpans⟩

/-- `nextBack` takes the last entry off. -/
theorem Spans.nextBack (browses : Browses store t) (spans : Spans store t iter contents) :
    ∃ rest, iter.nextBack = pure (contents.getLast?, rest) ∧
      Spans store t rest contents.dropLast := by
  obtain ⟨rest, stepped, retreated, restSpans, -⟩ := spans.retreat browses
  exact ⟨rest, by rw [Iter.nextBack, retreated, pure_bind], restSpans⟩

/-- No pull discards a `false`. -/
theorem Spans.discarded (browses : Browses store t) (spans : Spans store t iter contents)
    (pull : Pull) :
    iter.discarded pull = pure none ∨ iter.discarded pull = pure (some true) := by
  have noFalse : ∃ stepped, iter.discarded pull = pure stepped ∧
      (stepped = none ∨ stepped = some true) := by
    cases pull with
    | front =>
        obtain ⟨rest, stepped, advanced, -, noFalse⟩ := spans.advance browses
        exact ⟨stepped, by rw [Iter.discarded, advanced, pure_bind], noFalse⟩
    | back =>
        obtain ⟨rest, stepped, retreated, -, noFalse⟩ := spans.retreat browses
        exact ⟨stepped, by rw [Iter.discarded, retreated, pure_bind], noFalse⟩
  obtain ⟨stepped, discards, rfl | rfl⟩ := noFalse
  · exact .inl discards
  · exact .inr discards

/-- Every pull pops the window. -/
theorem Spans.pull (browses : Browses store t) (spans : Spans store t iter contents)
    (pull : Pull) :
    ∃ rest, iter.pull pull = pure ((pull.pop contents).1, rest) ∧
      Spans store t rest (pull.pop contents).2 := by
  cases pull with
  | front => exact spans.next browses
  | back => exact spans.nextBack browses

theorem Spans.pulls (browses : Browses store t) (spans : Spans store t iter contents)
    (pulls : List Pull) :
    ∃ rest, iter.pulls pulls = pure ((Pull.pops contents pulls).1, rest) ∧
      Spans store t rest (Pull.pops contents pulls).2 := by
  have simulates : Simulates [] (Spans store t) Iter.pull
      (fun contents pull => Pull.pop contents pull) :=
    fun _ _ pull spans _ => spans.pull browses pull
  exact simulates.run pulls_stepwise Pull.pops_answerwise pulls spans
    (List.forall_mem_nil _)

end Spanning

section Scanning

variable [Preorder K] {order : Nat} {store : InMemoryStore K V}
  {t : SearchTree NodeId K V order}

/-- A full iterator spans all entries. -/
theorem full_spans (browses : Browses store t) :
    ∃ iter, Iter.full store t.root = pure iter ∧ Spans store t iter t.entries := by
  rw [Iter.full]
  rcases first_lands browses with ⟨front, found, frontAt⟩ | ⟨empty, found⟩ <;>
    rcases last_lands browses with
      ⟨back, last, foundBack, lastIs, backAt⟩ | ⟨emptyBack, foundBack⟩
  · rw [found, pure_bind, foundBack, pure_bind]
    have split : t.entries = [] ++ t.entries ++ [] := by simp
    have nonempty := List.ne_nil_of_length_pos frontAt.lt_length
    refine ⟨_, rfl, .between split frontAt backAt ?_ nonempty⟩
    simp only [List.length_nil]
    omega
  · have inside := frontAt.lt_length
    omega
  · omega
  · rw [found, pure_bind, foundBack, pure_bind]
    rw [List.eq_nil_of_length_eq_zero emptyBack]
    exact ⟨_, rfl, .nothing⟩

variable [Std.IsLinearPreorder K] [DecidableLT K] [DecidableLE K]

/-- A range spans the entries that both bounds admit. -/
theorem range_spans (browses : Browses store t) (lower upper : Bound K) :
    ∃ iter, Iter.range store t.root lower upper = pure iter ∧
      Spans store t iter (t.entries.filter fun entry =>
        lower.AdmitsFrom entry.1 ∧ upper.AdmitsTo entry.1) := by
  obtain ⟨out, low, fromSplit, outFails, lowHolds, fromLands⟩ :=
    lowerBound_lands browses lower
  obtain ⟨high, rest, toSplit, highHolds, restFails, toLands⟩ :=
    upperBound_lands browses upper
  have window := window_split fromSplit outFails lowHolds toSplit highHolds restFails
  have gone := window_empty fromSplit outFails toSplit restFails
  have fromLength := congrArg List.length fromSplit
  have toLength := congrArg List.length toSplit
  rw [List.length_append] at fromLength toLength
  rw [Iter.range]
  rcases fromLands with ⟨front, found, frontAt⟩ | ⟨atEnd, found⟩
  · rcases toLands with ⟨back, last, foundBack, lastIs, backAt⟩ | ⟨atStart, foundBack⟩
    · obtain ⟨first, firstAt, -, frontKey⟩ := frontAt.current
      obtain ⟨final, finalAt, -, backKey⟩ := backAt.current
      rw [found, pure_bind, foundBack, pure_bind]
      dsimp only
      rw [frontKey, pure_bind, backKey, pure_bind]
      have compare := Entries.getElem?_le_iff t.ascending firstAt finalAt
      by_cases inOrder : out.length ≤ last
      · rw [if_pos (compare.mpr inOrder)]
        have split := window (by omega)
        have total := congrArg List.length split
        rw [List.length_append, List.length_append] at total
        refine ⟨_, rfl, .between split frontAt backAt (by omega) ?_⟩
        exact List.ne_nil_of_length_pos (by omega)
      · rw [if_neg fun below => inOrder (compare.mp below), gone (by omega)]
        exact ⟨_, rfl, .nothing⟩
    · rw [found, pure_bind, foundBack, pure_bind, gone (by omega)]
      exact ⟨_, rfl, .nothing⟩
  · rw [found, pure_bind, gone (by omega)]
    rcases toLands with ⟨back, last, foundBack, -⟩ | ⟨-, foundBack⟩ <;>
      rw [foundBack, pure_bind] <;> exact ⟨_, rfl, .nothing⟩

end Scanning

end Iter

end IndexDb
