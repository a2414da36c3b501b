import Mathlib.Data.List.Basic

/-!
# Windows of lists, taken from both ends

Where a list splits into a part that fails `P` and a part with `P`, and again
into a part with `Q` and a part that fails it, the elements with both are a
window.  A window is used up by pulls at either end.
-/

namespace IndexDb

variable {α : Type}

section Windows

variable {P Q : α → Prop} [DecidablePred fun x => P x ∧ Q x]
  {list out low high rest : List α}

/-- The elements from the second part of the one split to the first of the
other. -/
theorem window_split (fromSplit : list = out ++ low) (outFails : ∀ x ∈ out, ¬ P x)
    (lowHolds : ∀ x ∈ low, P x) (toSplit : list = high ++ rest)
    (highHolds : ∀ x ∈ high, Q x) (restFails : ∀ x ∈ rest, ¬ Q x)
    (inOrder : out.length ≤ high.length) :
    list = out ++ list.filter (fun x => P x ∧ Q x) ++ rest := by
  obtain ⟨window, rfl, rfl⟩ : ∃ window, high = out ++ window ∧ low = window ++ rest := by
    rcases List.append_eq_append_iff.mp (fromSplit.symm.trans toSplit) with
      ⟨window, highEq, lowEq⟩ | ⟨extra, outEq, restEq⟩
    · exact ⟨window, highEq, lowEq⟩
    · have none : extra = [] := by
        rw [outEq, List.length_append] at inOrder
        exact List.eq_nil_of_length_eq_zero (by omega)
      subst none
      exact ⟨[], by simpa using outEq.symm, by simpa using restEq.symm⟩
  have outGone : out.filter (fun x => P x ∧ Q x) = [] :=
    List.filter_eq_nil_iff.mpr fun x inside => by simp [outFails x inside]
  have restGone : rest.filter (fun x => P x ∧ Q x) = [] :=
    List.filter_eq_nil_iff.mpr fun x inside => by simp [restFails x inside]
  have windowKept : window.filter (fun x => P x ∧ Q x) = window :=
    List.filter_eq_self.mpr fun x inside => by
      simp [lowHolds x (List.mem_append_left rest inside),
        highHolds x (List.mem_append_right out inside)]
  rw [fromSplit, List.filter_append, List.filter_append, outGone, restGone,
    windowKept]
  simp

/-- Parts that do not meet leave no window. -/
theorem window_empty (fromSplit : list = out ++ low) (outFails : ∀ x ∈ out, ¬ P x)
    (toSplit : list = high ++ rest) (restFails : ∀ x ∈ rest, ¬ Q x)
    (apart : high.length ≤ out.length) :
    list.filter (fun x => P x ∧ Q x) = [] := by
  refine List.filter_eq_nil_iff.mpr fun x inside => ?_
  rw [fromSplit] at inside
  rcases List.mem_append.mp inside with inside | inside
  · simp [outFails x inside]
  · have later : x ∈ rest := by
      rcases List.append_eq_append_iff.mp (fromSplit.symm.trans toSplit) with
        ⟨extra, highEq, lowEq⟩ | ⟨extra, outEq, restEq⟩
      · have none : extra = [] := by
          rw [highEq, List.length_append] at apart
          exact List.eq_nil_of_length_eq_zero (by omega)
        rw [lowEq, none] at inside
        exact inside
      · rw [restEq]
        exact List.mem_append_right extra inside
    simp [restFails x later]

end Windows

/-- The end of a list that an element is pulled from. -/
inductive Pull where
  | front
  | back
  deriving DecidableEq, Repr

namespace Pull

/-- One pull: the element at that end, if any, and what is left. -/
def pop (list : List α) : Pull → Option α × List α
  | .front => (list.head?, list.tail)
  | .back => (list.getLast?, list.dropLast)

def pops (list : List α) : List Pull → List (Option α) × List α
  | [] => ([], list)
  | pull :: pulls =>
      let (popped, list) := pull.pop list
      let (others, list) := pops list pulls
      (popped :: others, list)

theorem pop_length (list : List α) (pull : Pull) :
    (pull.pop list).2.length = list.length - 1 := by
  cases pull with
  | front => exact List.length_tail
  | back => exact List.length_dropLast

/-- As many pulls as elements use the list up. -/
theorem pops_exhaust {list : List α} {pulls : List Pull}
    (enough : list.length ≤ pulls.length) : (pops list pulls).2 = [] := by
  induction pulls generalizing list with
  | nil => exact List.eq_nil_of_length_eq_zero (Nat.le_zero.mp enough)
  | cons pull pulls ih =>
      have shorter := pop_length list pull
      rw [List.length_cons] at enough
      have rest : (pull.pop list).2.length ≤ pulls.length := by omega
      exact ih rest

end Pull

end IndexDb
