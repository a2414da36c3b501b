import IndexDb.Library.AscendingEntries

/-!
# In-order marks of a search tree

Reading a search tree from left to right meets entries and separators.  The
tree routes correctly exactly when each mark comes before all later ones: keys
ascend, an entry is strictly below every later separator, and a separator may
equal the entries after it.  Restructuring a tree changes its marks locally,
so it is described by what it does inside any surrounding marks.
-/

namespace IndexDb

/-- What an in-order walk meets. -/
inductive Mark (K V : Type) where
  | entry (key : K) (value : V)
  | separator (key : K)

namespace Mark

variable {K V : Type}

def key : Mark K V → K
  | .entry key _ => key
  | .separator key => key

/-- The order that a later mark must keep to an earlier one. -/
def Before [LE K] [LT K] : Mark K V → Mark K V → Prop
  | .separator first, .entry second _ => first ≤ second
  | first, second => first.key < second.key

section Simp

variable [LE K] [LT K] {first second : K} {value other : V}

@[simp]
theorem before_entry_entry :
    Before (.entry first value) (.entry second other) ↔ first < second :=
  Iff.rfl

@[simp]
theorem before_entry_separator :
    Before (.entry first value) (.separator second : Mark K V) ↔
      first < second :=
  Iff.rfl

@[simp]
theorem before_separator_entry :
    Before (.separator first) (.entry second other) ↔ first ≤ second :=
  Iff.rfl

@[simp]
theorem before_separator_separator :
    Before (.separator first) (.separator second : Mark K V) ↔
      first < second :=
  Iff.rfl

end Simp

/-- Marks in routing order. -/
def Ordered [LE K] [LT K] (marks : List (Mark K V)) : Prop :=
  marks.Pairwise Before

/-- The entry a mark stands for. -/
def asEntry : Mark K V → Option (K × V)
  | .entry key value => some (key, value)
  | .separator _ => none

/-- The entries among the marks, in order. -/
def entries (marks : List (Mark K V)) : List (K × V) :=
  marks.filterMap asEntry

/-- The marks of a run of entries without separators. -/
def ofEntries (entries : List (K × V)) : List (Mark K V) :=
  entries.map fun entry => .entry entry.1 entry.2

@[simp]
theorem entries_nil : entries ([] : List (Mark K V)) = [] :=
  rfl

@[simp]
theorem entries_append (first second : List (Mark K V)) :
    entries (first ++ second) = entries first ++ entries second :=
  List.filterMap_append

@[simp]
theorem entries_cons_entry (key : K) (value : V) (marks : List (Mark K V)) :
    entries (.entry key value :: marks) = (key, value) :: entries marks :=
  rfl

@[simp]
theorem entries_cons_separator (key : K) (marks : List (Mark K V)) :
    entries (.separator key :: marks) = entries marks :=
  rfl

@[simp]
theorem entries_ofEntries (contents : List (K × V)) :
    entries (ofEntries contents) = contents := by
  induction contents with
  | nil => rfl
  | cons entry contents ih => exact congrArg (entry :: ·) ih

@[simp]
theorem ofEntries_nil : ofEntries ([] : List (K × V)) = [] :=
  rfl

@[simp]
theorem ofEntries_cons (entry : K × V) (contents : List (K × V)) :
    ofEntries (entry :: contents) =
      .entry entry.1 entry.2 :: ofEntries contents :=
  rfl

@[simp]
theorem ofEntries_append (first second : List (K × V)) :
    ofEntries (first ++ second) = ofEntries first ++ ofEntries second :=
  List.map_append

theorem mem_entries {marks : List (Mark K V)} {key : K} {value : V} :
    (key, value) ∈ entries marks ↔ .entry key value ∈ marks := by
  induction marks with
  | nil => simp
  | cons mark marks ih => cases mark <;> simp [ih]

theorem ordered_append [LE K] [LT K] {first second : List (Mark K V)} :
    Ordered (first ++ second) ↔
      Ordered first ∧ Ordered second ∧
        ∀ earlier ∈ first, ∀ later ∈ second, Before earlier later :=
  List.pairwise_append

theorem ordered_cons [LE K] [LT K] {mark : Mark K V} {marks : List (Mark K V)} :
    Ordered (mark :: marks) ↔
      (∀ later ∈ marks, Before mark later) ∧ Ordered marks :=
  List.pairwise_cons

theorem ordered_ofEntries [LE K] [LT K] {contents : List (K × V)} :
    Ordered (ofEntries contents) ↔ Ascending contents :=
  List.pairwise_map

theorem before_of_lt [Preorder K] {first second : Mark K V}
    (lt : first.key < second.key) : Before first second := by
  cases first <;> cases second <;>
    first
    | exact lt
    | exact le_of_lt lt

/-- A mark fits between two blocks when it fits both of them. -/
theorem ordered_insert [LE K] [LT K] {mark : Mark K V}
    {first second : List (Mark K V)} :
    Ordered (first ++ mark :: second) ↔
      Ordered (first ++ second) ∧ (∀ earlier ∈ first, Before earlier mark) ∧
        ∀ later ∈ second, Before mark later := by
  simp only [ordered_append, ordered_cons, List.mem_cons, forall_eq_or_imp]
  constructor
  · rintro ⟨one, ⟨next, two⟩, across⟩
    exact ⟨⟨one, two, fun earlier member => (across earlier member).2⟩,
      fun earlier member => (across earlier member).1, next⟩
  · rintro ⟨⟨one, two, across⟩, previous, next⟩
    exact ⟨one, ⟨next, two⟩, fun earlier member =>
      ⟨previous earlier member, across earlier member⟩⟩

/-- Dropping marks keeps the rest in order. -/
theorem Ordered.sublist [LE K] [LT K] {fewer marks : List (Mark K V)}
    (ordered : Ordered marks) (sub : fewer.Sublist marks) : Ordered fewer :=
  List.Pairwise.sublist sub ordered

/-- Ordered marks carry ascending entries. -/
theorem Ordered.ascending [LE K] [LT K] {marks : List (Mark K V)}
    (ordered : Ordered marks) : Ascending (entries marks) := by
  refine List.Pairwise.filterMap asEntry ?_ ordered
  rintro (⟨first, value⟩ | first) (⟨second, other⟩ | second) before
    found foundEq later laterEq
  all_goals
    simp only [asEntry, Option.some.injEq, reduceCtorEq] at foundEq laterEq
  subst foundEq laterEq
  exact before

/-- Every mark lets `key` come after it. -/
def AllBefore [LE K] [LT K] (marks : List (Mark K V)) (key : K) : Prop :=
  ∀ mark ∈ marks,
    match mark with
    | .entry other _ => other < key
    | .separator other => other ≤ key

/-- Every mark lets `key` come before it. -/
def AllAfter [LT K] (key : K) (marks : List (Mark K V)) : Prop :=
  ∀ mark ∈ marks, key < mark.key

section Around

variable [LT K] {key : K} {first second : List (Mark K V)}

@[simp]
theorem allAfter_nil : AllAfter key ([] : List (Mark K V)) := by
  simp [AllAfter]

theorem allAfter_append :
    AllAfter key (first ++ second) ↔
      AllAfter key first ∧ AllAfter key second := by
  simp only [AllAfter, List.mem_append, or_imp, forall_and]

theorem allAfter_ofEntries {contents : List (K × V)} :
    AllAfter key (ofEntries contents) ↔
      ∀ entry ∈ contents, key < entry.1 := by
  simp only [AllAfter, ofEntries, List.forall_mem_map, Mark.key]

theorem AllAfter.entries_above (after : AllAfter key first) :
    ∀ entry ∈ entries first, key < entry.1 := by
  rintro ⟨other, value⟩ member
  exact after _ (mem_entries.mp member)

variable [LE K]

@[simp]
theorem allBefore_nil : AllBefore ([] : List (Mark K V)) key := by
  simp [AllBefore]

theorem allBefore_append :
    AllBefore (first ++ second) key ↔
      AllBefore first key ∧ AllBefore second key := by
  simp only [AllBefore, List.mem_append, or_imp, forall_and]

theorem allBefore_ofEntries {contents : List (K × V)} :
    AllBefore (ofEntries contents) key ↔
      ∀ entry ∈ contents, entry.1 < key := by
  simp only [AllBefore, ofEntries, List.forall_mem_map]

theorem AllBefore.before_entry (before : AllBefore first key) (value : V) :
    ∀ mark ∈ first, Before mark (.entry key value) := by
  intro mark member
  have fits := before mark member
  cases mark <;> exact fits

theorem AllAfter.entry_before (after : AllAfter key first) (value : V) :
    ∀ mark ∈ first, Before (.entry key value) mark := by
  intro mark member
  have fits := after mark member
  cases mark <;> exact fits

/-- An entry goes in where everything before it lets its key follow and
everything after it lets its key precede. -/
theorem Ordered.insert_entry (ordered : Ordered (first ++ second))
    (before : AllBefore first key) (after : AllAfter key second) (value : V) :
    Ordered (first ++ .entry key value :: second) :=
  ordered_insert.mpr
    ⟨ordered, before.before_entry value, after.entry_before value⟩

/-- The order of marks does not look at values. -/
theorem Ordered.set_value {old : V}
    (ordered : Ordered (first ++ .entry key old :: second)) (value : V) :
    Ordered (first ++ .entry key value :: second) := by
  rw [ordered_insert] at ordered ⊢
  obtain ⟨rest, before, after⟩ := ordered
  refine ⟨rest, fun mark member => ?_, fun mark member => ?_⟩
  · have fits := before mark member
    cases mark <;> exact fits
  · have fits := after mark member
    cases mark <;> exact fits

theorem AllBefore.entries_below (before : AllBefore first key) :
    ∀ entry ∈ entries first, entry.1 < key := by
  rintro ⟨other, value⟩ member
  exact before _ (mem_entries.mp member)

end Around

section Routing

variable [Preorder K] {key separator : K} {marks : List (Mark K V)}

/-- What comes before a separator lets every key from it on come after. -/
theorem allBefore_of_ordered_separator
    (ordered : Ordered (marks ++ [.separator separator]))
    (le : separator ≤ key) :
    AllBefore (marks ++ [.separator separator]) key := by
  have before := (ordered_append.mp ordered).2.2
  rw [allBefore_append]
  constructor
  · intro mark member
    have below := before mark member (.separator separator) (by simp)
    cases mark with
    | entry other value => exact lt_of_lt_of_le below le
    | separator other => exact (lt_of_lt_of_le below le).le
  · simpa [AllBefore] using le

/-- What comes from a separator on lets every key below it come before. -/
theorem allAfter_of_ordered_separator
    (ordered : Ordered (.separator separator :: marks))
    (under : key < separator) : AllAfter key (.separator separator :: marks) := by
  have after := (ordered_cons.mp ordered).1
  intro mark member
  rcases List.mem_cons.mp member with equal | member
  · exact equal ▸ under
  · have above := after mark member
    cases mark with
    | entry other value => exact lt_of_lt_of_le under above
    | separator other => exact lt_trans under above

end Routing

section Change

variable [LE K] [LT K]

/-- The marks change without changing entries, and stay in order inside any
surrounding marks. -/
structure Restructures (old new : List (Mark K V)) : Prop where
  entries_eq : entries new = entries old
  ordered : ∀ before after, Ordered (before ++ old ++ after) →
    Ordered (before ++ new ++ after)

theorem Restructures.refl (marks : List (Mark K V)) : Restructures marks marks :=
  ⟨rfl, fun _ _ ordered => ordered⟩

theorem Restructures.trans {first second third : List (Mark K V)}
    (one : Restructures first second) (two : Restructures second third) :
    Restructures first third :=
  ⟨two.entries_eq.trans one.entries_eq,
    fun before after ordered =>
      two.ordered before after (one.ordered before after ordered)⟩

/-- A change inside is a change of the whole. -/
theorem Restructures.inside {old new : List (Mark K V)}
    (change : Restructures old new) (left right : List (Mark K V)) :
    Restructures (left ++ old ++ right) (left ++ new ++ right) := by
  constructor
  · simp [change.entries_eq]
  · intro before after ordered
    have inner := change.ordered (before ++ left) (right ++ after)
      (by simpa only [List.append_assoc] using ordered)
    simpa only [List.append_assoc] using inner

theorem Restructures.of_sublist {old new : List (Mark K V)}
    (sub : new.Sublist old) (entries_eq : entries new = entries old) :
    Restructures old new := by
  refine ⟨entries_eq, fun before after ordered => ordered.sublist ?_⟩
  exact (List.Sublist.append_left sub before).append_right after

end Change

section Replace

variable [Preorder K]

/-- A separator may move to just before any entry that follows another one:
the new separator is that entry's key. -/
theorem restructures_separator_before (earlier later : K × V)
    (left right : List (Mark K V)) :
    Restructures
      (left ++ .entry earlier.1 earlier.2 :: .entry later.1 later.2 :: right)
      (left ++ .entry earlier.1 earlier.2 :: .separator later.1 ::
        .entry later.1 later.2 :: right) := by
  refine ⟨by simp, fun before after ordered => ?_⟩
  let first := before ++ left ++ [.entry earlier.1 earlier.2]
  let second := .entry later.1 later.2 :: (right ++ after)
  have whole : Ordered (first ++ second) := by
    simpa [first, second] using ordered
  have across := (ordered_append.mp whole).2.2
  have lower : earlier.1 < later.1 :=
    across (.entry earlier.1 earlier.2) (by simp [first])
      (.entry later.1 later.2) (by simp [second])
  have fits : Ordered (first ++ .separator later.1 :: second) := by
    refine ordered_insert.mpr ⟨whole, ?_, ?_⟩
    · intro mark member
      have below := across mark member (.entry later.1 later.2)
        (by simp [second])
      rcases List.mem_append.mp member with member | member
      · have farBelow : Before mark (.entry earlier.1 earlier.2) :=
          (ordered_append.mp (ordered_append.mp whole).1).2.2 mark member _
            (by simp)
        cases mark with
        | entry other value => exact below
        | separator other => exact lt_of_le_of_lt farBelow lower
      · rw [List.mem_singleton.mp member]
        exact lower
    · intro mark member
      rcases List.mem_cons.mp member with equal | member
      · rw [equal]
        exact le_refl later.1
      · have above : Before (.entry later.1 later.2) mark :=
          (ordered_cons.mp (ordered_append.mp whole).2.1).1 mark member
        cases mark with
        | entry other value => exact le_of_lt above
        | separator other => exact above
  simpa [first, second] using fits

/-- Cutting a run of entries in two puts the key of the second part's first
entry between the parts. -/
theorem restructures_cut {first second : List (K × V)}
    {next : K × V} (nonempty : first ≠ []) :
    Restructures (ofEntries (first ++ next :: second))
      (ofEntries first ++ .separator next.1 :: ofEntries (next :: second)) := by
  rcases List.eq_nil_or_concat' first with rfl | ⟨front, last, rfl⟩
  · simp at nonempty
  · simpa using restructures_separator_before last next (ofEntries front)
      (ofEntries second)

end Replace

section Update

variable [Preorder K] [DecidableLT K]

/-- The marks change as `update` changes their entries, and stay in order
inside the given surroundings.  `found` is the value that was stored. -/
structure Updates (key : K) (update : List (K × V) → List (K × V))
    (before after old new : List (Mark K V)) (found : Option V) : Prop where
  ordered : Ordered (before ++ new ++ after)
  entries_eq : entries new = update (entries old)
  found_eq : found = Entries.lookup key (entries old)

variable {key : K} {update : List (K × V) → List (K × V)}
  {before after old new : List (Mark K V)} {found : Option V}

/-- An update of the marks around the key is an update of the whole. -/
theorem Updates.inside {left right : List (Mark K V)}
    (change : Updates key update (before ++ left) (right ++ after) old new found)
    (isLocal : Entries.LocalAt key update) (allBefore : AllBefore left key)
    (allAfter : AllAfter key right) :
    Updates key update before after (left ++ old ++ right)
      (left ++ new ++ right) found where
  ordered := by
    have inner := change.ordered
    simpa only [List.append_assoc] using inner
  entries_eq := by
    simp only [entries_append, change.entries_eq]
    exact (isLocal _ _ _ allBefore.entries_below allAfter.entries_above).symm
  found_eq := by
    simp only [entries_append]
    rw [change.found_eq,
      Entries.lookup_block allBefore.entries_below allAfter.entries_above]

/-- Restructuring after an update is part of the update. -/
theorem Updates.restructured {final : List (Mark K V)}
    (change : Updates key update before after old new found)
    (restructures : Restructures new final) :
    Updates key update before after old final found where
  ordered := restructures.ordered _ _ change.ordered
  entries_eq := restructures.entries_eq.trans change.entries_eq
  found_eq := change.found_eq

end Update

section Blocks

/-- Blocks of marks with separators between them. -/
def interleave : List K → List (List (Mark K V)) → List (Mark K V)
  | _, [] => []
  | [], block :: blocks => block ++ interleave [] blocks
  | sep :: seps, block :: blocks =>
      block ++ .separator sep :: interleave seps blocks

/-- Blocks each followed by a separator. -/
def closed : List K → List (List (Mark K V)) → List (Mark K V)
  | sep :: seps, block :: blocks =>
      block ++ .separator sep :: closed seps blocks
  | _, _ => []

/-- Blocks each preceded by a separator. -/
def opened : List K → List (List (Mark K V)) → List (Mark K V)
  | sep :: seps, block :: blocks =>
      .separator sep :: (block ++ opened seps blocks)
  | _, _ => []

@[simp]
theorem closed_nil : closed ([] : List K) ([] : List (List (Mark K V))) = [] :=
  rfl

@[simp]
theorem opened_cons (sep : K) (seps : List K)
    (block : List (Mark K V)) (blocks : List (List (Mark K V))) :
    opened (sep :: seps) (block :: blocks) =
      .separator sep :: (block ++ opened seps blocks) :=
  rfl

theorem closed_append {seps others : List K}
    {blocks rest : List (List (Mark K V))}
    (even : seps.length = blocks.length) :
    closed (seps ++ others) (blocks ++ rest) =
      closed seps blocks ++ closed others rest := by
  induction blocks generalizing seps with
  | nil =>
      rw [List.eq_nil_of_length_eq_zero even]
      rfl
  | cons block blocks ih =>
      cases seps with
      | nil => simp at even
      | cons sep seps =>
          simp [closed, ih (by simpa using even)]

/-- One block with all that stands left and right of it. -/
theorem interleave_focus {leftSeparators rightSeparators : List K}
    {leftBlocks rightBlocks : List (List (Mark K V))} (block : List (Mark K V))
    (leftEven : leftSeparators.length = leftBlocks.length)
    (rightEven : rightSeparators.length = rightBlocks.length) :
    interleave (leftSeparators ++ rightSeparators)
        (leftBlocks ++ block :: rightBlocks) =
      closed leftSeparators leftBlocks ++ block ++
        opened rightSeparators rightBlocks := by
  induction leftBlocks generalizing leftSeparators with
  | nil =>
      rw [List.eq_nil_of_length_eq_zero leftEven]
      simp only [List.nil_append, closed_nil]
      clear leftEven
      induction rightBlocks generalizing rightSeparators block with
      | nil =>
          rw [List.eq_nil_of_length_eq_zero rightEven]
          rfl
      | cons next rest ih =>
          cases rightSeparators with
          | nil => simp at rightEven
          | cons sep seps =>
              simp [interleave, opened, ih next (by simpa using rightEven)]
  | cons first rest ih =>
      cases leftSeparators with
      | nil => simp at leftEven
      | cons sep seps =>
          simp [interleave, closed, ih (by simpa using leftEven)]

@[simp]
theorem entries_interleave (seps : List K) (blocks : List (List (Mark K V))) :
    entries (interleave seps blocks) = blocks.flatMap entries := by
  induction blocks generalizing seps with
  | nil => cases seps <;> rfl
  | cons block blocks ih =>
      cases seps <;> simp [interleave, ih]

theorem entries_closed {seps : List K} {blocks : List (List (Mark K V))}
    (even : seps.length = blocks.length) :
    entries (closed seps blocks) = blocks.flatMap entries := by
  induction blocks generalizing seps with
  | nil => cases seps <;> rfl
  | cons block blocks ih =>
      cases seps with
      | nil => simp at even
      | cons sep seps =>
          simp [closed, ih (Nat.succ.inj even)]

theorem entries_opened {seps : List K} {blocks : List (List (Mark K V))}
    (even : seps.length = blocks.length) :
    entries (opened seps blocks) = blocks.flatMap entries := by
  induction blocks generalizing seps with
  | nil => cases seps <;> rfl
  | cons block blocks ih =>
      cases seps with
      | nil => simp at even
      | cons sep seps =>
          simp [opened, ih (Nat.succ.inj even)]

/-- A separator cuts interleaved blocks in two. -/
theorem interleave_cut {leftSeps rightSeps : List K} (sep : K)
    {leftBlocks rightBlocks : List (List (Mark K V))}
    (forked : leftBlocks.length = leftSeps.length + 1) :
    interleave (leftSeps ++ sep :: rightSeps) (leftBlocks ++ rightBlocks) =
      interleave leftSeps leftBlocks ++
        .separator sep :: interleave rightSeps rightBlocks := by
  induction leftSeps generalizing leftBlocks with
  | nil =>
      obtain ⟨block, rfl⟩ := List.length_eq_one_iff.mp (by simpa using forked)
      simp [interleave]
  | cons first rest ih =>
      cases leftBlocks with
      | nil => simp at forked
      | cons block blocks =>
          simp [interleave, ih (by simpa using forked)]

/-- The separators stand among the interleaved marks. -/
theorem separators_sublist {seps : List K} {blocks : List (List (Mark K V))}
    (enough : seps.length ≤ blocks.length) :
    (seps.map .separator : List (Mark K V)).Sublist (interleave seps blocks) := by
  induction seps generalizing blocks with
  | nil => simp
  | cons sep seps ih =>
      cases blocks with
      | nil => simp at enough
      | cons block blocks =>
          simp only [List.map_cons, interleave]
          refine List.Sublist.trans ?_ (List.sublist_append_right _ _)
          exact (ih (by simpa using enough)).cons_cons _

/-- Separators between ordered marks ascend. -/
theorem separators_ascending [LE K] [LT K] {seps : List K}
    {blocks : List (List (Mark K V))} (enough : seps.length ≤ blocks.length)
    (ordered : Ordered (interleave seps blocks)) : seps.Pairwise (· < ·) := by
  have between := ordered.sublist (separators_sublist enough)
  rw [Ordered, List.pairwise_map] at between
  exact between

/-- Where interleaved marks come from. -/
theorem mem_interleave {seps : List K} {blocks : List (List (Mark K V))}
    {mark : Mark K V} (member : mark ∈ interleave seps blocks) :
    (∃ block ∈ blocks, mark ∈ block) ∨ ∃ sep ∈ seps, mark = .separator sep := by
  induction blocks generalizing seps with
  | nil => cases seps <;> cases member
  | cons block blocks ih =>
      cases seps with
      | nil =>
          rcases List.mem_append.mp member with member | member
          · exact .inl ⟨block, List.mem_cons_self .., member⟩
          · rcases ih member with ⟨other, found, inside⟩ | ⟨sep, found, -⟩
            · exact .inl ⟨other, List.mem_cons_of_mem _ found, inside⟩
            · cases found
      | cons sep seps =>
          rcases List.mem_append.mp member with member | member
          · exact .inl ⟨block, List.mem_cons_self .., member⟩
          · rcases List.mem_cons.mp member with rfl | member
            · exact .inr ⟨sep, List.mem_cons_self .., rfl⟩
            · rcases ih member with ⟨other, found, inside⟩ | ⟨later, found, equal⟩
              · exact .inl ⟨other, List.mem_cons_of_mem _ found, inside⟩
              · exact .inr ⟨later, List.mem_cons_of_mem _ found, equal⟩

theorem subset_interleave (seps : List K) {blocks : List (List (Mark K V))}
    {block : List (Mark K V)} (found : block ∈ blocks) :
    block ⊆ interleave seps blocks := by
  induction blocks generalizing seps with
  | nil => cases found
  | cons first rest ih =>
      intro mark member
      rcases List.mem_cons.mp found with rfl | found
      · cases seps <;> simp [interleave, member]
      · cases seps with
        | nil => simp [interleave, ih [] found member]
        | cons sep seps => simp [interleave, ih seps found member]

theorem separator_mem_interleave {seps : List K} {blocks : List (List (Mark K V))}
    (enough : seps.length ≤ blocks.length) {sep : K} (found : sep ∈ seps) :
    .separator sep ∈ interleave seps blocks :=
  (separators_sublist enough).subset (List.mem_map_of_mem found)

/-- What comes before a separator comes before all that comes after it. -/
theorem before_through [Preorder K] {earlier later : Mark K V} {sep : K}
    (left : Before earlier (.separator sep)) (right : Before (.separator sep) later) :
    Before earlier later := by
  have under : earlier.key < sep := by cases earlier <;> exact left
  refine before_of_lt ?_
  cases later with
  | entry key value => exact lt_of_lt_of_le under right
  | separator key => exact lt_trans under right

/-- Blocks in order, and each on its side of each separator. -/
structure Fenced [LE K] [LT K] (seps : List K) (blocks : List (List (Mark K V))) :
    Prop where
  ordered : ∀ block ∈ blocks, Ordered block
  ascending : seps.Pairwise (· < ·)
  left : ∀ (i : Nat) (sep : K) (j : Nat) (block : List (Mark K V)),
    seps[i]? = some sep → blocks[j]? = some block → j ≤ i →
      ∀ mark ∈ block, Before mark (.separator sep)
  right : ∀ (i : Nat) (sep : K) (j : Nat) (block : List (Mark K V)),
    seps[i]? = some sep → blocks[j]? = some block → i < j →
      ∀ mark ∈ block, Before (.separator sep) mark

/-- A first block and a first separator on top of fenced blocks. -/
theorem fenced_cons [LE K] [LT K] {sep : K} {seps : List K} {block : List (Mark K V)}
    {blocks : List (List (Mark K V))} :
    Fenced (sep :: seps) (block :: blocks) ↔
      (Ordered block ∧ ∀ mark ∈ block, ∀ later ∈ sep :: seps, Before mark (.separator later)) ∧
      ((∀ later ∈ seps, sep < later) ∧
        ∀ other ∈ blocks, ∀ mark ∈ other, Before (.separator sep) mark) ∧
      Fenced seps blocks := by
  constructor
  · intro fenced
    obtain ⟨first, ascending⟩ := List.pairwise_cons.mp fenced.ascending
    refine ⟨⟨fenced.ordered block (List.mem_cons_self ..), ?_⟩, ⟨first, ?_⟩, ?_⟩
    · intro mark member later found
      obtain ⟨i, sepAt⟩ := List.getElem?_of_mem found
      exact fenced.left i later 0 block sepAt rfl (Nat.zero_le i) mark member
    · intro other found
      obtain ⟨j, blockAt⟩ := List.getElem?_of_mem found
      exact fenced.right 0 sep (j + 1) other rfl blockAt (Nat.succ_pos j)
    · exact ⟨fun other found => fenced.ordered other (List.mem_cons_of_mem _ found),
        ascending,
        fun i other j chosen sepAt blockAt le =>
          fenced.left (i + 1) other (j + 1) chosen sepAt blockAt (Nat.succ_le_succ le),
        fun i other j chosen sepAt blockAt lt =>
          fenced.right (i + 1) other (j + 1) chosen sepAt blockAt (Nat.succ_lt_succ lt)⟩
  · rintro ⟨⟨ordered, before⟩, ⟨first, after⟩, fenced⟩
    refine ⟨by simpa using ⟨ordered, fenced.ordered⟩,
      List.pairwise_cons.mpr ⟨first, fenced.ascending⟩, ?_, ?_⟩
    · rintro i other (_ | j) chosen sepAt blockAt le mark member
      · cases blockAt
        exact before mark member other (List.mem_of_getElem? sepAt)
      · obtain ⟨i, rfl⟩ := Nat.exists_eq_add_of_le' (Nat.le_of_add_left_le le)
        exact fenced.left i other j chosen sepAt blockAt (Nat.le_of_succ_le_succ le)
          mark member
    · rintro (_ | i) other (_ | j) chosen sepAt blockAt lt mark member
      · exact absurd lt (Nat.lt_irrefl _)
      · cases sepAt
        exact after chosen (List.mem_of_getElem? (i := j) blockAt) mark member
      · exact absurd lt (Nat.not_lt_zero _)
      · exact fenced.right i other j chosen sepAt blockAt (Nat.lt_of_succ_lt_succ lt)
          mark member

/-- Interleaved marks are in order exactly when the separators fence the
blocks. -/
theorem ordered_interleave [Preorder K] {seps : List K}
    {blocks : List (List (Mark K V))} (forked : blocks.length = seps.length + 1) :
    Ordered (interleave seps blocks) ↔ Fenced seps blocks := by
  induction seps generalizing blocks with
  | nil =>
      obtain ⟨block, rfl⟩ := List.length_eq_one_iff.mp forked
      simp only [interleave, List.append_nil]
      constructor
      · intro ordered
        refine ⟨by simpa using ordered, .nil, ?_, ?_⟩ <;>
          simp
      · exact fun fenced => fenced.ordered block (List.mem_singleton_self _)
  | cons sep seps ih =>
      obtain _ | ⟨block, rest⟩ := blocks
      · simp at forked
      have restForked : rest.length = seps.length + 1 := by simpa using forked
      rw [interleave, ordered_append, ordered_cons, ih restForked, fenced_cons]
      constructor
      · rintro ⟨ordered, ⟨after, fenced⟩, across⟩
        have separatorIn {later : K} (found : later ∈ seps) :
            .separator later ∈ interleave seps rest :=
          separator_mem_interleave (by omega) found
        refine ⟨⟨ordered, fun mark member later found => ?_⟩,
          ⟨fun later found => after _ (separatorIn found), ?_⟩, fenced⟩
        · refine across mark member _ ?_
          rcases List.mem_cons.mp found with rfl | found
          · exact List.mem_cons_self ..
          · exact List.mem_cons_of_mem _ (separatorIn found)
        · intro other found mark member
          exact after mark (subset_interleave seps found member)
      · rintro ⟨⟨ordered, before⟩, ⟨first, beyond⟩, fenced⟩
        have after : ∀ later ∈ interleave seps rest, Before (.separator sep) later := by
          intro later member
          rcases mem_interleave member with ⟨other, found, inside⟩ | ⟨other, found, rfl⟩
          · exact beyond other found later inside
          · exact first other found
        refine ⟨ordered, ⟨after, fenced⟩, fun mark member later found => ?_⟩
        have below := before mark member sep (List.mem_cons_self ..)
        rcases List.mem_cons.mp found with rfl | found
        · exact below
        · exact before_through below (after later found)

/-- Closed blocks in order let every key from their separators on follow. -/
theorem allBefore_closed [Preorder K] {seps : List K}
    {blocks : List (List (Mark K V))} {key : K}
    (even : seps.length = blocks.length)
    (ordered : Ordered (closed seps blocks)) (le : ∀ sep ∈ seps, sep ≤ key) :
    AllBefore (closed seps blocks) key := by
  rcases List.eq_nil_or_concat' seps with rfl | ⟨firstSeps, last, rfl⟩
  · rw [List.eq_nil_of_length_eq_zero even.symm]
    exact allBefore_nil
  · rcases List.eq_nil_or_concat' blocks with rfl | ⟨firstBlocks, block, rfl⟩
    · simp at even
    · rw [closed_append (by simpa using even)] at ordered ⊢
      simp only [closed, ← List.append_assoc] at ordered ⊢
      exact allBefore_of_ordered_separator ordered (le last (by simp))

/-- Opened blocks in order let every key below their separators precede. -/
theorem allAfter_opened [Preorder K] {seps : List K}
    {blocks : List (List (Mark K V))} {key : K}
    (ordered : Ordered (opened seps blocks)) (under : ∀ sep ∈ seps, key < sep) :
    AllAfter key (opened seps blocks) := by
  cases seps with
  | nil => exact allAfter_nil
  | cons sep seps =>
      cases blocks with
      | nil => exact allAfter_nil
      | cons block blocks =>
          exact allAfter_of_ordered_separator ordered (under sep (by simp))

end Blocks

end Mark

end IndexDb
