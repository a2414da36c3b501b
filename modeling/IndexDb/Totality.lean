import IndexDb.Scans

/-!
# No call goes wrong

A quiet computation returns without a panic, and notes neither a lossy cast
nor an arm that the source writes as unreachable.  Every call on a reachable
tree is quiet, and so is every pull of its iterators.
-/

namespace IndexDb

variable {K V : Type}

/-- Every call is quiet.  An insertion may ask for new nodes, so its casts have
to be exact. -/
structure BPlusTree.Total [LE K] [DecidableLE K] [LT K] [DecidableLT K]
    (tree : BPlusTree K V) : Prop where
  get : ∀ key, (tree.get key).Quiet
  containsKey : ∀ key, (tree.containsKey key).Quiet
  insert : ∀ key value, (tree.insert key value).Exact →
    (tree.insert key value).Quiet
  remove : ∀ key, (tree.remove key).Quiet
  clear : tree.clear.Quiet
  height : tree.height.Quiet
  iter : tree.iter.Quiet
  range : ∀ lower upper, (tree.range lower upper).Quiet
  /-- Whatever was pulled before, `next` and `nextBack` are quiet. -/
  pull : ∀ scan iter pulls outs rest, tree.scan scan = pure iter →
    iter.pulls pulls = pure (outs, rest) → rest.next.Quiet ∧ rest.nextBack.Quiet

section Represented

variable [Preorder K] [Std.IsLinearPreorder K] [DecidableLT K] [DecidableLE K]
  {order : Nat} {tree : BPlusTree K V} {t : SearchTree NodeId K V order}

theorem BPlusTree.Represents.total (represents : tree.Represents t) : tree.Total where
  get key := Traced.quiet_iff.mpr ⟨_, represents.get key⟩
  containsKey key := Traced.quiet_iff.mpr ⟨_, represents.containsKey key⟩
  insert key value isExact := by
    obtain ⟨fresh, next, inserted, -⟩ := represents.insert key value (.inr isExact)
    exact Traced.quiet_iff.mpr ⟨_, inserted⟩
  remove key := by
    obtain ⟨next, removed, -⟩ := represents.remove key
    exact Traced.quiet_iff.mpr ⟨_, removed⟩
  clear := Traced.quiet_iff.mpr ⟨_, BPlusTree.clear_eq tree⟩
  height := Traced.quiet_iff.mpr ⟨_, represents.height⟩
  iter := by
    obtain ⟨iter, scanned, -⟩ := represents.scan .all
    exact Traced.quiet_iff.mpr ⟨iter, scanned⟩
  range lower upper := by
    obtain ⟨iter, scanned, -⟩ := represents.scan (.range lower upper)
    exact Traced.quiet_iff.mpr ⟨iter, scanned⟩
  pull scan iter pulls outs rest scanned pulled := by
    obtain ⟨spanned, again, spans⟩ := represents.scan scan
    obtain rfl := Traced.pure_inj.mp (scanned.symm.trans again)
    obtain ⟨left, pulledAgain, restSpans⟩ := spans.pulls represents.browses pulls
    obtain ⟨-, rfl⟩ := Prod.mk.inj (Traced.pure_inj.mp (pulled.symm.trans pulledAgain))
    obtain ⟨_, front, -⟩ := restSpans.next represents.browses
    obtain ⟨_, back, -⟩ := restSpans.nextBack represents.browses
    exact ⟨Traced.quiet_iff.mpr ⟨_, front⟩, Traced.quiet_iff.mpr ⟨_, back⟩⟩

end Represented

section Main

variable [LinearOrder K]

/-- Every run is quiet, and so is every call that may follow it. -/
theorem run_total (order : Nat) (start : Start K V) (calls : List (Call K V))
    (isExact : (start.run order calls).Exact) :
    (start.run order calls).Quiet ∧
      ∀ replies tree, start.run order calls = pure (replies, tree) → tree.Total := by
  obtain ⟨tree, t, returned, represents, -⟩ := start.run_represents calls isExact
  refine ⟨Traced.quiet_iff.mpr ⟨_, returned⟩, fun replies last again => ?_⟩
  obtain ⟨-, rfl⟩ := Prod.mk.inj (Traced.pure_inj.mp (returned.symm.trans again))
  exact represents.total

theorem run_total_small :
    ((Start.fromSorted [(1, 10), (2, 20), (3, 30)]).run 3
        [.insert 4 40, .remove 1, .remove 2]).Quiet ∧
      ∀ replies tree, (Start.fromSorted [(1, 10), (2, 20), (3, 30)]).run 3
        [.insert 4 40, .remove 1, .remove 2] = pure (replies, tree) → tree.Total :=
  run_total 3 (.fromSorted [(1, 10), (2, 20), (3, 30)])
    [.insert 4 40, .remove 1, .remove 2] (by decide +kernel)

end Main

end IndexDb
