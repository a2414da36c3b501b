import Mathlib.Data.List.Perm.Basic
import Mathlib.Data.List.Nodup
import Mathlib.Tactic.Tauto

/-!
# Owned cells

A store that hands out names is seen as the partial function from names to the
values they resolve to.  A component owns the cells that it can reach: they
resolve as it believes, and no name occurs twice.  An operation transforms the
cells it owns and touches nothing else, so whatever another component owns
beside them survives.
-/

namespace IndexDb

variable {Name Value : Type}

abbrev Cells (Name Value : Type) := List (Name × Value)

/-- The names of the cells. -/
def Cells.names (cells : Cells Name Value) : List Name :=
  cells.map Prod.fst

section Names

variable (first second : Cells Name Value)

@[simp]
theorem Cells.names_nil : Cells.names ([] : Cells Name Value) = [] :=
  rfl

@[simp]
theorem Cells.names_cons (cell : Name × Value) :
    Cells.names (cell :: first) = cell.1 :: first.names :=
  rfl

@[simp]
theorem Cells.names_append :
    Cells.names (first ++ second) = first.names ++ second.names :=
  List.map_append

theorem Cells.mem_names {first : Cells Name Value} {cell : Name × Value}
    (member : cell ∈ first) : cell.1 ∈ first.names :=
  List.mem_map.mpr ⟨cell, member, rfl⟩

end Names

/-- The name resolves to the value afterwards, and every other name as
before. -/
structure ChangesAt (before after : Name → Option Value) (name : Name)
    (value : Option Value) : Prop where
  here : after name = value
  elsewhere : ∀ other, other ≠ name → after other = before other

/-- The cells resolve as listed, each under a name of its own. -/
structure Owned (look : Name → Option Value) (cells : Cells Name Value) :
    Prop where
  resolves : ∀ cell ∈ cells, look cell.1 = some cell.2
  nodup : cells.names.Nodup

/-- The old cells turn into the new ones, and nothing else changes.  A new name
was free before, and a name given up is free afterwards. -/
structure Transforms (before after : Name → Option Value)
    (old new : Cells Name Value) : Prop where
  owned : Owned after new
  frame : ∀ name, name ∉ old.names → name ∉ new.names →
    after name = before name
  fresh : ∀ name ∈ new.names, name ∉ old.names → before name = none
  freed : ∀ name ∈ old.names, name ∉ new.names → after name = none

section Rules

variable {before middle after look : Name → Option Value}
  {old mid new left right cells : Cells Name Value}

theorem Owned.look_of_mem (owned : Owned look cells) {name : Name}
    {value : Value} (member : (name, value) ∈ cells) :
    look name = some value :=
  owned.resolves _ member

theorem Owned.look_middle {name : Name} {value : Value}
    (owned : Owned look (left ++ (name, value) :: right)) :
    look name = some value :=
  owned.look_of_mem (List.mem_append_right left (List.mem_cons_self ..))

theorem Owned.live (owned : Owned look cells) {name : Name}
    (member : name ∈ cells.names) : look name ≠ none := by
  obtain ⟨cell, found, rfl⟩ := List.mem_map.mp member
  simp [owned.resolves cell found]

theorem Owned.perm (owned : Owned look old) (permuted : old.Perm new) :
    Owned look new :=
  ⟨fun cell member => owned.resolves cell (permuted.mem_iff.mpr member),
    (permuted.map Prod.fst).nodup_iff.mp owned.nodup⟩

theorem Owned.part (owned : Owned look (left ++ cells ++ right)) :
    Owned look cells := by
  refine ⟨fun cell member => owned.resolves cell (by simp [member]), ?_⟩
  have nodup := owned.nodup
  rw [Cells.names_append, Cells.names_append] at nodup
  exact nodup.of_append_left.of_append_right

theorem Owned.initial (owned : Owned look (cells ++ right)) :
    Owned look cells :=
  have whole : Owned look ([] ++ cells ++ right) := owned
  whole.part

theorem Transforms.refl (owned : Owned look cells) :
    Transforms look look cells cells where
  owned := owned
  frame := fun _ _ _ => rfl
  fresh := fun _ member absent => absurd member absent
  freed := fun _ member absent => absurd member absent

theorem Transforms.trans (one : Transforms before middle old mid)
    (two : Transforms middle after mid new) : Transforms before after old new where
  owned := two.owned
  frame := by
    intro name notOld notNew
    by_cases between : name ∈ mid.names
    · rw [two.freed name between notNew, one.fresh name between notOld]
    · rw [two.frame name between notNew, one.frame name notOld between]
  fresh := by
    intro name isNew notOld
    by_cases between : name ∈ mid.names
    · exact one.fresh name between notOld
    · rw [← one.frame name notOld between]
      exact two.fresh name isNew between
  freed := by
    intro name isOld notNew
    by_cases between : name ∈ mid.names
    · exact two.freed name between notNew
    · rw [two.frame name between notNew]
      exact one.freed name isOld between

theorem Transforms.perm {old' new' : Cells Name Value}
    (change : Transforms before after old new) (oldPerm : old.Perm old')
    (newPerm : new.Perm new') : Transforms before after old' new' := by
  have oldNames {name : Name} : name ∈ old'.names ↔ name ∈ old.names :=
    (oldPerm.map Prod.fst).mem_iff.symm
  have newNames {name : Name} : name ∈ new'.names ↔ name ∈ new.names :=
    (newPerm.map Prod.fst).mem_iff.symm
  refine ⟨change.owned.perm newPerm, ?_, ?_, ?_⟩
  · simpa only [oldNames, newNames] using change.frame
  · simpa only [oldNames, newNames] using change.fresh
  · simpa only [oldNames, newNames] using change.freed

/-- A live name outside the old cells is outside the new ones. -/
theorem Transforms.apart (change : Transforms before after old new) {name : Name}
    (live : before name ≠ none) (notOld : name ∉ old.names) :
    name ∉ new.names :=
  fun isNew => live (change.fresh name isNew notOld)

/-- What is owned beside the old cells is owned beside the new ones. -/
theorem Transforms.inside (change : Transforms before after old new)
    (owned : Owned before (left ++ old ++ right)) :
    Transforms before after (left ++ old ++ right) (left ++ new ++ right) := by
  have nodup := owned.nodup
  simp only [Cells.names_append, List.append_assoc] at nodup
  have around {name : Name} (member : name ∈ left.names ∨ name ∈ right.names) :
      name ∉ old.names ∧ name ∉ new.names := by
    have notOld : name ∉ old.names := by
      rw [List.nodup_append, List.nodup_append] at nodup
      obtain ⟨-, ⟨-, -, oldRight⟩, leftOld⟩ := nodup
      intro isOld
      rcases member with member | member
      · exact leftOld name member name (by simp [isOld]) rfl
      · exact oldRight name isOld name member rfl
    have live : before name ≠ none := by
      refine owned.live ?_
      simp only [Cells.names_append, List.mem_append]
      tauto
    exact ⟨notOld, change.apart live notOld⟩
  refine ⟨⟨?_, ?_⟩, ?_, ?_, ?_⟩
  · intro cell member
    simp only [List.mem_append] at member
    rcases member with (member | member) | member
    · obtain ⟨notOld, notNew⟩ := around (.inl (Cells.mem_names member))
      rw [change.frame _ notOld notNew]
      exact owned.resolves cell (by simp [member])
    · exact change.owned.resolves cell member
    · obtain ⟨notOld, notNew⟩ := around (.inr (Cells.mem_names member))
      rw [change.frame _ notOld notNew]
      exact owned.resolves cell (by simp [member])
  · simp only [Cells.names_append, List.append_assoc]
    rw [List.nodup_append, List.nodup_append] at nodup ⊢
    obtain ⟨leftNodup, ⟨-, rightNodup, -⟩, across⟩ := nodup
    refine ⟨leftNodup, ⟨change.owned.nodup, rightNodup, ?_⟩, ?_⟩
    · rintro name isNew other isRight rfl
      exact (around (.inr isRight)).2 isNew
    · rintro name isLeft other member rfl
      rcases List.mem_append.mp member with isNew | isRight
      · exact (around (.inl isLeft)).2 isNew
      · exact across name isLeft name (by simp [isRight]) rfl
  · intro name notOld notNew
    simp only [Cells.names_append, List.mem_append, not_or] at notOld notNew
    exact change.frame name notOld.1.2 notNew.1.2
  · intro name isNew notOld
    simp only [Cells.names_append, List.mem_append, not_or] at isNew notOld
    exact change.fresh name (by tauto) notOld.1.2
  · intro name isOld notNew
    simp only [Cells.names_append, List.mem_append, not_or] at isOld notNew
    exact change.freed name (by tauto) notNew.1.2

variable {name : Name} {value next : Value}

/-- Writing through a name. -/
theorem Transforms.write (change : ChangesAt before after name (some next)) :
    Transforms before after [(name, value)] [(name, next)] where
  owned := ⟨by simpa using change.here, by simp⟩
  frame := fun other notOld _ => change.elsewhere other (by simpa using notOld)
  fresh := fun other member absent => absurd member absent
  freed := fun other member absent => absurd member absent

/-- Taking a free name. -/
theorem Transforms.take (free : before name = none)
    (change : ChangesAt before after name (some next)) :
    Transforms before after [] [(name, next)] where
  owned := ⟨by simpa using change.here, by simp⟩
  frame := fun other _ notNew => change.elsewhere other (by simpa using notNew)
  fresh := by
    intro other member _
    have equal : other = name := by simpa using member
    rw [equal, free]
  freed := fun other member => by simp at member

/-- Giving up a name. -/
theorem Transforms.give (change : ChangesAt before after name none) :
    Transforms before after [(name, value)] [] where
  owned := ⟨by simp, by simp⟩
  frame := fun other notOld _ => change.elsewhere other (by simpa using notOld)
  fresh := fun other member => by simp at member
  freed := by
    intro other member _
    have equal : other = name := by simpa using member
    rw [equal, change.here]

end Rules

end IndexDb
