import IndexDb.Library.EvenParts
import IndexDb.SearchTree

/-!
# Building search trees bottom-up

The entries are packed into leaves, and every level is packed into parents
until a single node remains.  A level keeps the least key under each of its
nodes.  Read as a separator in front of the node, these keys give every level
of the construction the same marks.
-/

namespace IndexDb

/-- Trees of one height, each with the least key under it. -/
abbrev Level (L K V : Type) (h : Nat) : Type :=
  List (Tree L K V h × K)

section Definitions

variable {L M K V : Type} {h : Nat}

/-- A leaf over the entries of every chunk. -/
def leavesOver (label : L) : List (List (K × V)) → Level L K V 0
  | [] => []
  | [] :: chunks => leavesOver label chunks
  | (first :: rest) :: chunks =>
      (⟨label, first :: rest⟩, first.1) :: leavesOver label chunks

/-- A node over the trees of every chunk: each least key but the first becomes
the separator on the left of its tree. -/
def nodesOver (label : L) : List (Level L K V h) → Level L K V (h + 1)
  | [] => []
  | [] :: chunks => nodesOver label chunks
  | (first :: rest) :: chunks =>
      (⟨label, ⟨rest.map Prod.snd, first.1 :: rest.map Prod.fst⟩⟩, first.2) ::
        nodesOver label chunks

namespace Level

/-- The marks of all nodes, the least key of each in front of it. -/
def marks (level : Level L K V h) : List (Mark K V) :=
  level.flatMap fun node => .separator node.2 :: node.1.marks

def labels (level : Level L K V h) : List L :=
  level.flatMap fun node => node.1.labels

def relabel (f : L → M) (level : Level L K V h) : Level M K V h :=
  level.map fun node => (node.1.relabel f, node.2)

def leaves (order : Nat) (entries : List (K × V)) : Level Unit K V 0 :=
  leavesOver () ((evenParts entries.length (order - 1)).splitLengths entries)

def parents (order : Nat) (level : Level Unit K V h) : Level Unit K V (h + 1) :=
  nodesOver () ((evenParts level.length order).splitLengths level)

/-- The level that is left when no more levels are needed above it. -/
def raise (order : Nat) : Nat → {h : Nat} → Level Unit K V h →
    Σ h, Level Unit K V h
  | 0, h, level => ⟨h, level⟩
  | fuel + 1, h, level =>
      if 1 < level.length then raise order fuel (parents order level)
      else ⟨h, level⟩

/-- The first tree of a level, or an empty leaf. -/
def root : (Σ h, Level Unit K V h) → Σ h, Tree Unit K V h
  | ⟨h, node :: _⟩ => ⟨h, node.1⟩
  | ⟨_, []⟩ => ⟨0, ⟨(), []⟩⟩

/-- The last level over the entries. -/
def top (order : Nat) (entries : List (K × V)) : Σ h, Level Unit K V h :=
  raise order (leaves order entries).length (leaves order entries)

end Level

/-- The tree that bulk loading builds. -/
def Tree.bulk (order : Nat) (entries : List (K × V)) : Σ h, Tree Unit K V h :=
  Level.root (Level.top order entries)

end Definitions

section Chunks

variable {α : Type}

/-- Chunks of even sizes make up the items, and none is empty. -/
theorem evenChunk_length {items chunk : List α} {most : Nat} (positive : 0 < most)
    (member : chunk ∈ (evenParts items.length most).splitLengths items) :
    chunk.length ∈ evenParts items.length most ∧ 0 < chunk.length ∧
      ∀ item ∈ chunk, item ∈ items := by
  have total : (evenParts items.length most).sum = items.length :=
    evenParts_sum positive
  have size : chunk.length ∈ evenParts items.length most := by
    rw [← List.map_splitLengths_length items _ total.le]
    exact List.mem_map_of_mem member
  refine ⟨size, evenParts_pos positive size, fun item found => ?_⟩
  rw [← List.flatten_splitLengths items _ total.ge]
  exact List.mem_flatten_of_mem member found

theorem evenChunks_flatten (items : List α) {most : Nat} (positive : 0 < most) :
    ((evenParts items.length most).splitLengths items).flatten = items :=
  List.flatten_splitLengths items _ (evenParts_sum positive).ge

end Chunks

namespace Level

section Marks

variable {L M K V : Type} {h : Nat}

@[simp]
theorem marks_nil : marks ([] : Level L K V h) = [] :=
  rfl

@[simp]
theorem marks_cons (node : Tree L K V h × K) (level : Level L K V h) :
    marks (node :: level) = .separator node.2 :: node.1.marks ++ marks level :=
  rfl

theorem marks_append (first second : Level L K V h) :
    marks (first ++ second) = first.marks ++ second.marks :=
  List.flatMap_append

/-- A node over a level has its marks. -/
theorem treeMarks_over (first : Tree L K V h × K) (rest : Level L K V h) :
    Internal.treeMarks ⟨rest.map Prod.snd, first.1 :: rest.map Prod.fst⟩ =
      first.1.marks ++ rest.marks := by
  induction rest generalizing first with
  | nil => simp [Internal.treeMarks_singleton]
  | cons next rest ih =>
      rw [List.map_cons, List.map_cons, Internal.treeMarks_cons, ih next]
      rfl

theorem marks_nodesOver (label : L) (chunks : List (Level L K V h)) :
    (nodesOver label chunks).marks = marks chunks.flatten := by
  induction chunks with
  | nil => rfl
  | cons chunk chunks ih =>
      cases chunk with
      | nil => exact ih
      | cons first rest =>
          rw [nodesOver, marks_cons, Tree.marks_node, treeMarks_over, ih,
            List.flatten_cons, marks_append, marks_cons]
          rfl

theorem parents_marks {order : Nat} (positive : 0 < order) (level : Level Unit K V h) :
    (level.parents order).marks = level.marks := by
  rw [parents, marks_nodesOver, evenChunks_flatten _ positive]

theorem entries_leavesOver (label : L) (chunks : List (List (K × V))) :
    Mark.entries (leavesOver label chunks).marks = chunks.flatten := by
  induction chunks with
  | nil => rfl
  | cons chunk chunks ih =>
      cases chunk with
      | nil => exact ih
      | cons first rest =>
          rw [leavesOver, marks_cons, Mark.entries_append,
            Mark.entries_cons_separator, Tree.marks, Mark.entries_ofEntries, ih]
          rfl

/-- The marks of leaves over ascending entries are in order, and all their keys
are keys of entries. -/
theorem ordered_leavesOver [Preorder K] (label : L) {chunks : List (List (K × V))}
    (ascending : Ascending chunks.flatten) :
    Mark.Ordered (leavesOver label chunks).marks ∧
      ∀ mark ∈ (leavesOver label chunks).marks,
        ∃ entry ∈ chunks.flatten, mark.key = entry.1 := by
  induction chunks with
  | nil => exact ⟨List.Pairwise.nil, fun mark member => by cases member⟩
  | cons chunk chunks ih =>
      obtain ⟨own, later, across⟩ := ascending_append.mp ascending
      obtain ⟨ordered, keys⟩ := ih later
      cases chunk with
      | nil => exact ih later
      | cons first rest =>
          have chunkMarks : ∀ mark ∈ .separator first.1 ::
              Mark.ofEntries (first :: rest), ∃ entry ∈ first :: rest,
                (mark : Mark K V).key = entry.1 := by
            intro mark member
            rcases List.mem_cons.mp member with rfl | member
            · exact ⟨first, by simp, rfl⟩
            · obtain ⟨entry, found, rfl⟩ := List.mem_map.mp member
              exact ⟨entry, found, rfl⟩
          have least : ∀ entry ∈ first :: rest, first.1 ≤ entry.1 := by
            intro entry member
            rcases List.mem_cons.mp member with rfl | member
            · exact le_refl _
            · exact (List.rel_of_pairwise_cons own member).le
          constructor
          · refine Mark.ordered_append.mpr
              ⟨Mark.ordered_cons.mpr ⟨?_, Mark.ordered_ofEntries.mpr own⟩,
                ordered, ?_⟩
            · intro mark member
              obtain ⟨entry, found, rfl⟩ := List.mem_map.mp member
              exact least entry found
            · intro earlier member mark laterMember
              obtain ⟨entry, found, keyEq⟩ := chunkMarks earlier member
              obtain ⟨other, otherFound, otherEq⟩ := keys mark laterMember
              refine Mark.before_of_lt ?_
              rw [keyEq, otherEq]
              exact across entry found other otherFound
          · intro mark member
            rcases List.mem_append.mp member with member | member
            · obtain ⟨entry, found, keyEq⟩ := chunkMarks mark member
              exact ⟨entry, List.mem_append_left _ found, keyEq⟩
            · obtain ⟨entry, found, keyEq⟩ := keys mark member
              exact ⟨entry, List.mem_append_right _ found, keyEq⟩

end Marks

section Packing

variable {L K V : Type} {h : Nat}

theorem mem_leavesOver {label : L} {chunks : List (List (K × V))}
    {node : Tree L K V 0 × K} (member : node ∈ leavesOver label chunks) :
    node.1.body ∈ chunks := by
  induction chunks with
  | nil => cases member
  | cons chunk chunks ih =>
      cases chunk with
      | nil => exact List.mem_cons_of_mem _ (ih member)
      | cons first rest =>
          rcases List.mem_cons.mp member with rfl | member
          · exact List.mem_cons_self ..
          · exact List.mem_cons_of_mem _ (ih member)

theorem mem_nodesOver {label : L} {chunks : List (Level L K V h)}
    {node : Tree L K V (h + 1) × K} (member : node ∈ nodesOver label chunks) :
    ∃ first rest, first :: rest ∈ chunks ∧
      node.1.body = ⟨rest.map Prod.snd, first.1 :: rest.map Prod.fst⟩ := by
  induction chunks with
  | nil => cases member
  | cons chunk chunks ih =>
      cases chunk with
      | nil =>
          obtain ⟨first, rest, found, bodyEq⟩ := ih member
          exact ⟨first, rest, List.mem_cons_of_mem _ found, bodyEq⟩
      | cons first rest =>
          rcases List.mem_cons.mp member with rfl | member
          · exact ⟨first, rest, List.mem_cons_self .., rfl⟩
          · obtain ⟨first, rest, found, bodyEq⟩ := ih member
            exact ⟨first, rest, List.mem_cons_of_mem _ found, bodyEq⟩

theorem leavesOver_length {label : L} {chunks : List (List (K × V))}
    (nonempty : ∀ chunk ∈ chunks, 0 < chunk.length) :
    (leavesOver label chunks).length = chunks.length := by
  induction chunks with
  | nil => rfl
  | cons chunk chunks ih =>
      have rest := ih fun other member => nonempty other (by simp [member])
      cases chunk with
      | nil => simpa using nonempty [] (by simp)
      | cons first chunk => exact congrArg (· + 1) rest

theorem nodesOver_length {label : L} {chunks : List (Level L K V h)}
    (nonempty : ∀ chunk ∈ chunks, 0 < chunk.length) :
    (nodesOver label chunks).length = chunks.length := by
  induction chunks with
  | nil => rfl
  | cons chunk chunks ih =>
      have rest := ih fun other member =>
        nonempty other (List.mem_cons_of_mem _ member)
      cases chunk with
      | nil => exact absurd (nonempty [] (List.mem_cons_self ..)) (Nat.lt_irrefl 0)
      | cons first chunk => exact congrArg (· + 1) rest

theorem leaves_length {order : Nat} (large : 3 ≤ order) (entries : List (K × V)) :
    (leaves order entries).length = partCount entries.length (order - 1) := by
  rw [leaves, leavesOver_length fun chunk member =>
    (evenChunk_length (by omega) member).2.1]
  simp

theorem parents_length {order : Nat} (large : 3 ≤ order)
    (level : Level Unit K V h) :
    (parents order level).length = partCount level.length order := by
  rw [parents, nodesOver_length fun chunk member =>
    (evenChunk_length (by omega) member).2.1]
  simp

theorem raise_several {order fuel : Nat} {level : Level Unit K V h}
    (several : 1 < level.length) :
    raise order (fuel + 1) level = raise order fuel (level.parents order) :=
  if_pos several

theorem raise_done {order fuel : Nat} {level : Level Unit K V h}
    (done : ¬ 1 < level.length) : raise order (fuel + 1) level = ⟨h, level⟩ :=
  if_neg done

/-- Raising a level ends with at most one node. -/
theorem raise_length {order fuel : Nat} (large : 3 ≤ order)
    {level : Level Unit K V h}
    (enough : level.length ≤ fuel) : (raise order fuel level).2.length ≤ 1 := by
  induction fuel generalizing h with
  | zero => exact enough.trans (Nat.zero_le 1)
  | succ fuel ih =>
      by_cases several : 1 < level.length
      · rw [raise_several several]
        refine ih ?_
        have := partCount_lt (show 2 ≤ order by omega) several
        rw [parents_length large]
        omega
      · rw [raise_done several]
        exact Nat.le_of_not_lt several

theorem labels_cons (node : Tree L K V h × K) (level : Level L K V h) :
    labels (node :: level) = node.1.labels ++ labels level :=
  rfl

theorem labels_append (first second : Level L K V h) :
    labels (first ++ second) = first.labels ++ second.labels :=
  List.flatMap_append

theorem leavesOver_labels {label : L} (chunks : List (List (K × V))) :
    (leavesOver label chunks).labels.length =
      (leavesOver label chunks).length := by
  induction chunks with
  | nil => rfl
  | cons chunk chunks ih =>
      cases chunk with
      | nil => exact ih
      | cons first rest =>
          rw [leavesOver, labels_cons, List.length_append, ih]
          exact Nat.add_comm 1 _

theorem nodesOver_labels {label : L} (chunks : List (Level L K V h)) :
    (nodesOver label chunks).labels.length =
      (nodesOver label chunks).length + (labels chunks.flatten).length := by
  induction chunks with
  | nil => rfl
  | cons chunk chunks ih =>
      cases chunk with
      | nil => exact ih
      | cons first rest =>
          have own : Tree.labels (h := h + 1)
              ⟨label, ⟨rest.map Prod.snd, first.1 :: rest.map Prod.fst⟩⟩ =
              label :: labels (first :: rest) := by
            simp only [Tree.labels, Internal.gather, labels, List.flatMap_cons,
              List.flatMap_map]
          rw [nodesOver, labels_cons, own, List.flatten_cons, labels_append,
            List.length_append, ih, List.length_append, List.length_cons,
            List.length_cons]
          omega

theorem parents_labels {order : Nat} (large : 3 ≤ order)
    (level : Level Unit K V h) :
    (level.parents order).labels.length =
      partCount level.length order + level.labels.length := by
  rw [← parents_length large, parents, nodesOver_labels,
    evenChunks_flatten _ (by omega)]

/-- Raising a level keeps all its nodes. -/
theorem raise_labels {order : Nat} (large : 3 ≤ order) (fuel : Nat)
    (level : Level Unit K V h) :
    level.labels.length ≤ (raise order fuel level).2.labels.length := by
  induction fuel generalizing h with
  | zero => exact Nat.le_refl _
  | succ fuel ih =>
      by_cases several : 1 < level.length
      · have more := ih (level.parents order)
        rw [parents_labels large] at more
        rw [raise_several several]
        omega
      · rw [raise_done several]

end Packing

/-- What every level of the construction over `contents` keeps. -/
structure Built {K V : Type} {h : Nat} [LE K] [LT K] (order : Nat) (contents : List (K × V))
    (level : Level Unit K V h) : Prop where
  ordered : Mark.Ordered level.marks
  entries_eq : Mark.entries level.marks = contents
  single : level.length = 1 → ∀ node ∈ level,
    node.1.Sized order (leastKeys order) (min h 1)
  several : 1 < level.length → ∀ node ∈ level,
    node.1.Sized order (leastKeys order) (leastKeys order)

section Building

variable {K V : Type} [Preorder K] {h order : Nat} {contents : List (K × V)}

theorem built_leaves (large : 3 ≤ order) (ascending : Ascending contents) :
    Built order contents (leaves order contents) := by
  have flat := evenChunks_flatten contents (show 0 < order - 1 by omega)
  have most {node : Tree Unit K V 0 × K} (member : node ∈ leaves order contents) :
      node.1.body.length ∈ evenParts contents.length (order - 1) :=
    (evenChunk_length (by omega) (mem_leavesOver member)).1
  refine ⟨?_, ?_, fun _ node member => ⟨Nat.zero_le _, ?_⟩,
    fun several node member => ⟨?_, ?_⟩⟩
  · exact (ordered_leavesOver () (by rwa [flat])).1
  · rw [leaves, entries_leavesOver, flat]
  · have := evenParts_le (by omega) (most member)
    omega
  · have wide : order - 1 < contents.length := by
      by_contra fits
      rw [leaves_length large] at several
      have := partCount_le_one (show 0 < order - 1 by omega) (Nat.le_of_not_lt fits)
      omega
    have := evenParts_half (by omega) wide (most member)
    simp only [leastKeys]
    omega
  · have := evenParts_le (by omega) (most member)
    omega

theorem Built.parents {level : Level Unit K V h} (large : 3 ≤ order)
    (built : Built order contents level) (several : 1 < level.length) :
    Built order contents (level.parents order) := by
  have positive : 0 < order := by omega
  have marksEq := parents_marks positive level
  have occupied {least : Nat}
      (enough : ∀ size ∈ evenParts level.length order, least + 1 ≤ size)
      {node : Tree Unit K V (h + 1) × K} (member : node ∈ level.parents order) :
      node.1.Sized order (leastKeys order) least := by
    obtain ⟨first, rest, found, bodyEq⟩ := mem_nodesOver member
    obtain ⟨size, -, inside⟩ := evenChunk_length positive found
    have lower := enough _ size
    have upper := evenParts_le positive size
    rw [List.length_cons] at lower upper
    rw [Tree.Sized, bodyEq]
    refine ⟨by rw [List.length_map]; omega, by rw [List.length_map]; omega,
      by simp [Internal.Forked], ?_⟩
    intro child childMember
    obtain ⟨item, itemMember, rfl⟩ : ∃ item ∈ first :: rest, item.1 = child :=
      List.mem_map.mp childMember
    exact built.several several item (inside item itemMember)
  refine ⟨?_, ?_, fun single node member => ?_, fun more node member => ?_⟩
  · rw [marksEq]
    exact built.ordered
  · rw [marksEq]
    exact built.entries_eq
  · refine occupied (fun size found => ?_) member
    rw [parents_length large] at single
    have fits : level.length ≤ order := by
      by_contra wide
      have := partCount_several positive (Nat.lt_of_not_le wide)
      omega
    rw [evenParts_single (by omega) fits, List.mem_singleton] at found
    omega
  · refine occupied (fun size found => ?_) member
    rw [parents_length large] at more
    have wide : order < level.length := by
      by_contra fits
      have := partCount_le_one positive (Nat.le_of_not_lt fits)
      omega
    have := evenParts_half positive wide found
    simp only [leastKeys]
    omega

theorem Built.raise (large : 3 ≤ order) (fuel : Nat) {level : Level Unit K V h}
    (built : Built order contents level) :
    Built order contents (raise order fuel level).2 := by
  induction fuel generalizing h with
  | zero => exact built
  | succ fuel ih =>
      by_cases several : 1 < level.length
      · rw [raise_several several]
        exact ih (built.parents large several)
      · rw [raise_done several]
        exact built

end Building

end Level

theorem Tree.bulk_nil {K V : Type} (order : Nat) :
    bulk order ([] : List (K × V)) = ⟨0, ⟨(), []⟩⟩ := by
  have none : evenParts ([] : List (K × V)).length (order - 1) = [] := by
    refine List.eq_nil_of_length_eq_zero ?_
    rw [evenParts_length, partCount]
    by_cases zero : order - 1 = 0
    · rw [zero]
      exact Nat.div_zero _
    · exact Nat.div_eq_of_lt (by simp; omega)
  rw [bulk, Level.top, Level.leaves, none]
  rfl

section Bulk

variable {L K V : Type} [Preorder K] {order : Nat} {contents : List (K × V)}

/-- The last level is a root over all entries, or empty when there are none. -/
theorem Level.top_cases (large : 3 ≤ order) (ascending : Ascending contents) :
    (∃ h, contents = [] ∧ top order contents = ⟨h, []⟩) ∨
      ∃ h, ∃ node : Tree Unit K V h × K,
        top order contents = ⟨h, [node]⟩ ∧ Built order contents [node] := by
  have built := (built_leaves large ascending).raise large
    (leaves order contents).length
  have few := raise_length large (le_refl (leaves order contents).length)
  rw [top]
  generalize raise order (leaves order contents).length
    (leaves order contents) = last at built few
  obtain ⟨h, level⟩ := last
  rcases level with _ | ⟨node, _ | ⟨other, others⟩⟩
  · exact .inl ⟨h, built.entries_eq.symm, rfl⟩
  · exact .inr ⟨h, node, rfl, built⟩
  · simp at few

theorem Tree.bulk_legal (large : 3 ≤ order) (ascending : Ascending contents) :
    (bulk order contents).2.Sized order (leastKeys order)
        (min (bulk order contents).1 1) ∧
      Mark.Ordered (bulk order contents).2.marks ∧
      (bulk order contents).2.entries = contents := by
  rcases Level.top_cases large ascending with
    ⟨h, rfl, empty⟩ | ⟨h, node, single, built⟩
  · rw [bulk, empty]
    refine ⟨⟨Nat.zero_le _, ?_⟩, List.Pairwise.nil, rfl⟩
    exact Nat.lt_of_lt_of_le (by simp [Level.root]) large
  · have ordered := built.ordered
    have entriesEq := built.entries_eq
    simp only [Level.marks_cons, Level.marks_nil, List.append_nil,
      Mark.ordered_cons, Mark.entries_cons_separator] at ordered entriesEq
    rw [bulk, single]
    exact ⟨built.single rfl node (List.mem_singleton_self node), ordered.2,
      entriesEq⟩

/-- Bulk loading ascending entries gives a search tree. -/
def SearchTree.bulk (large : 3 ≤ order) (ascending : Ascending contents) :
    SearchTree Unit K V order where
  height := (Tree.bulk order contents).1
  tree := (Tree.bulk order contents).2
  large := large
  sized := (Tree.bulk_legal large ascending).1
  ordered := (Tree.bulk_legal large ascending).2.1

theorem SearchTree.bulk_entries (large : 3 ≤ order)
    (ascending : Ascending contents) :
    (SearchTree.bulk large ascending).entries = contents :=
  (Tree.bulk_legal large ascending).2.2

end Bulk

end IndexDb
