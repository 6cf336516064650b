import Mathlib.Data.List.Sort
import Mathlib.Logic.Function.Basic

/-!
# Sets of block ids

The sets of `libset`, for ids, which are not negative: a set lists its elements in increasing order,
as `Set_2array` does.
-/

namespace OpenImpact

/-- `Set_add`. -/
def setAdd (s : List ℕ) (i : ℕ) : List ℕ :=
  if i ∈ s then s else s.orderedInsert (· ≤ ·) i

/-- `Set_delete`. -/
def setDelete (s : List ℕ) (i : ℕ) : List ℕ :=
  s.filter (· ≠ i)

/-- `Set_union`. -/
def setUnion (s t : List ℕ) : List ℕ :=
  t.foldl setAdd s

variable {s t : List ℕ} {i x : ℕ}

@[simp] theorem mem_setAdd : x ∈ setAdd s i ↔ x ∈ s ∨ x = i := by
  rw [setAdd]
  split_ifs with hi
  · exact ⟨Or.inl, fun h ↦ h.elim id fun hx ↦ hx ▸ hi⟩
  · rw [List.mem_orderedInsert, or_comm]

@[simp] theorem mem_setDelete : x ∈ setDelete s i ↔ x ∈ s ∧ x ≠ i := by
  simp [setDelete]

@[simp] theorem mem_setUnion : x ∈ setUnion s t ↔ x ∈ s ∨ x ∈ t := by
  rw [setUnion]
  induction t generalizing s with
  | nil => simp
  | cons i t ih => rw [List.foldl_cons, ih, mem_setAdd, List.mem_cons, or_assoc]

/-- Setting the flag of one more block of a list. -/
theorem countP_not_update_lt {l : List ℕ} {flags : ℕ → Bool} (hx : x ∈ l)
    (hflag : flags x = false) :
    l.countP (fun y ↦ !Function.update flags x true y) < l.countP fun y ↦ !flags y := by
  have hfilter : (l.filter fun y ↦ !Function.update flags x true y) =
      (l.filter fun y ↦ !flags y).filter fun y ↦ decide (y ≠ x) := by
    rw [List.filter_filter]
    refine List.filter_congr fun y _ ↦ ?_
    rcases eq_or_ne y x with rfl | hy
    · simp
    · simp [hy]
  rw [List.countP_eq_length_filter, List.countP_eq_length_filter, hfilter]
  refine List.length_filter_lt_length_iff_exists.2 ⟨x, ?_, by simp⟩
  rw [List.mem_filter]
  exact ⟨hx, by rw [hflag]; rfl⟩

end OpenImpact
