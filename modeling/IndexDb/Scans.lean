import IndexDb.IterSpans
import IndexDb.WellFormed

/-!
# Scans of reachable trees

A scan of a tree that a run leaves yields the stored entries that belong to
it, in ascending order.  Pulled from both ends in any order, it behaves like a
deque over these entries.
-/

namespace IndexDb

variable {K V : Type}

/-- Calling `next` until nothing is left yields the entries. -/
inductive Iter.Drains : Iter K V → List (K × V) → Prop
  | nil {iter rest : Iter K V} (ended : iter.next = pure (none, rest)) :
      Drains iter []
  | cons {iter rest : Iter K V} {entry : K × V} {entries : List (K × V)}
      (first : iter.next = pure (some entry, rest)) (others : Drains rest entries) :
      Drains iter (entry :: entries)

/-- The list has the stored entries of the scan, in ascending order. -/
structure BPlusTree.Selects [LE K] [LT K] (tree : BPlusTree K V) (scan : Scan K)
    (entries : List (K × V)) : Prop where
  ascending : Ascending entries
  exact : ∀ entry, entry ∈ entries ↔
    Holds tree.store tree.root entry.1 entry.2 ∧ scan.Admits entry.1

section Spanning

variable [LE K] [LT K] {order : Nat} {store : InMemoryStore K V}
  {t : SearchTree NodeId K V order} {iter : Iter K V} {contents : List (K × V)}

theorem Iter.Spans.drains (browses : Browses store t)
    (spans : Iter.Spans store t iter contents) : iter.Drains contents := by
  induction contents generalizing iter with
  | nil =>
      obtain ⟨rest, ended, -⟩ := spans.next browses
      exact .nil ended
  | cons entry contents ih =>
      obtain ⟨rest, first, restSpans⟩ := spans.next browses
      exact .cons first (ih restSpans)

/-- An iterator with nothing left stays as it is. -/
theorem Iter.Spans.exhausted (spans : Iter.Spans store t iter [])
    (pulls : List Pull) :
    iter.pulls pulls = pure (List.replicate pulls.length none, iter) := by
  have ended : iter = ⟨none⟩ := by
    cases spans with
    | nothing => rfl
    | between split frontAt backAt lastEq nonempty => exact absurd rfl nonempty
  subst ended
  induction pulls with
  | nil => rfl
  | cons pull pulls ih =>
      have pulled : (⟨none⟩ : Iter K V).pull pull = pure (none, ⟨none⟩) := by
        cases pull <;> rfl
      rw [Iter.pulls, pulled, pure_bind]
      dsimp only
      rw [ih, pure_bind]
      rfl

end Spanning

section Represented

variable [Preorder K] [DecidableLT K] [DecidableLE K] {order : Nat}
  {tree : BPlusTree K V} {t : SearchTree NodeId K V order}

theorem BPlusTree.Represents.selects (represents : tree.Represents t)
    (scan : Scan K) :
    tree.Selects scan (t.entries.filter fun entry => scan.Admits entry.1) where
  ascending := t.ascending.filter _
  exact entry := by
    rw [represents.root_eq, List.mem_filter, decide_eq_true_eq]
    exact and_congr_left fun _ => (holds_stored represents.stored).symm

variable [Std.IsLinearPreorder K]

/-- Every scan spans the entries it admits. -/
theorem BPlusTree.Represents.scan (represents : tree.Represents t) (scan : Scan K) :
    ∃ iter, tree.scan scan = pure iter ∧ Iter.Spans tree.store t iter
      (t.entries.filter fun entry => scan.Admits entry.1) := by
  cases scan with
  | all =>
      have whole : (t.entries.filter fun entry => Scan.all.Admits entry.1) =
          t.entries := List.filter_eq_self.mpr fun _ _ => decide_eq_true trivial
      rw [whole, BPlusTree.scan, BPlusTree.iter, represents.root_eq]
      exact Iter.full_spans represents.browses
  | range lower upper =>
      rw [BPlusTree.scan, BPlusTree.range, represents.root_eq]
      exact Iter.range_spans represents.browses lower upper

/-- The iterator over the whole tree drains its entries. -/
theorem BPlusTree.Represents.iter_drains (represents : tree.Represents t) :
    ∃ iter, tree.iter = pure iter ∧ iter.Drains t.entries := by
  obtain ⟨iter, scanned, spans⟩ := represents.scan .all
  have whole : (t.entries.filter fun entry => Scan.all.Admits entry.1) = t.entries :=
    List.filter_eq_self.mpr fun _ _ => decide_eq_true trivial
  rw [whole] at spans
  exact ⟨iter, scanned, spans.drains represents.browses⟩

end Represented

section Main

variable [LinearOrder K]

/-- Draining any scan after any run yields exactly the stored entries that
belong to it, in ascending order. -/
theorem run_scan_exact (order : Nat) (start : Start K V) (calls : List (Call K V))
    (isExact : (start.run order calls).Exact) :
    ∃ replies tree, start.run order calls = pure (replies, tree) ∧
      ∀ scan : Scan K, ∃ iter entries, tree.scan scan = pure iter ∧
        iter.Drains entries ∧ tree.Selects scan entries := by
  obtain ⟨tree, t, returned, represents, -⟩ := start.run_represents calls isExact
  refine ⟨_, tree, returned, fun scan => ?_⟩
  obtain ⟨iter, scanned, spans⟩ := represents.scan scan
  exact ⟨iter, _, scanned, spans.drains represents.browses, represents.selects scan⟩

theorem run_scan_exact_small :
    ∃ replies tree, (Start.fromSorted [(1, 10), (3, 30), (5, 50)]).run 3
        [.insert 7 70, .remove 3] = pure (replies, tree) ∧
      ∀ scan : Scan Nat, ∃ iter entries, tree.scan scan = pure iter ∧
        iter.Drains entries ∧ tree.Selects scan entries :=
  run_scan_exact 3 (.fromSorted [(1, 10), (3, 30), (5, 50)])
    [.insert 7 70, .remove 3] (by decide +kernel)

/-- Pulling a scan at both ends pops a deque of its entries.  Wherever the
pulls stop, the next one discards no `false`, and after as many pulls as
entries nothing comes out any more. -/
theorem run_scan_deque (order : Nat) (start : Start K V) (calls : List (Call K V))
    (isExact : (start.run order calls).Exact) :
    ∃ replies tree, start.run order calls = pure (replies, tree) ∧
      ∀ scan : Scan K, ∃ iter entries, tree.scan scan = pure iter ∧
        tree.Selects scan entries ∧
        ∀ pulls : List Pull, ∃ rest,
          iter.pulls pulls = pure ((Pull.pops entries pulls).1, rest) ∧
          (∀ pull, rest.discarded pull = pure none ∨
            rest.discarded pull = pure (some true)) ∧
          (entries.length ≤ pulls.length → ∀ more : List Pull,
            rest.pulls more = pure (List.replicate more.length none, rest)) := by
  obtain ⟨tree, t, returned, represents, -⟩ := start.run_represents calls isExact
  refine ⟨_, tree, returned, fun scan => ?_⟩
  obtain ⟨iter, scanned, spans⟩ := represents.scan scan
  refine ⟨iter, _, scanned, represents.selects scan, fun pulls => ?_⟩
  obtain ⟨rest, pulled, restSpans⟩ := spans.pulls represents.browses pulls
  refine ⟨rest, pulled, restSpans.discarded represents.browses, fun enough => ?_⟩
  rw [Pull.pops_exhaust enough] at restSpans
  exact restSpans.exhausted

theorem run_scan_deque_small :
    ∃ replies tree, (Start.fromSorted [(1, 10), (3, 30), (5, 50)]).run 3
        [.insert 7 70, .remove 3] = pure (replies, tree) ∧
      ∀ scan : Scan Nat, ∃ iter entries, tree.scan scan = pure iter ∧
        tree.Selects scan entries ∧
        ∀ pulls : List Pull, ∃ rest,
          iter.pulls pulls = pure ((Pull.pops entries pulls).1, rest) ∧
          (∀ pull, rest.discarded pull = pure none ∨
            rest.discarded pull = pure (some true)) ∧
          (entries.length ≤ pulls.length → ∀ more : List Pull,
            rest.pulls more = pure (List.replicate more.length none, rest)) :=
  run_scan_deque 3 (.fromSorted [(1, 10), (3, 30), (5, 50)])
    [.insert 7 70, .remove 3] (by decide +kernel)

end Main

end IndexDb
