import OpenImpact.Library.LibSetEnum

/-!
# Unions, differences and tests together

The functions for unions and differences, and those that test or count, do what they are named for on all
sets that the library has built, but for three things (`familyRight_iff`). `ABS` has no value for the
smallest `int`, `Set_size` counts in `int`, and `Set_subtract_union_acc` with its first set as third set
takes the second set away from what it should add.

The theorem is an equivalence for each triple of sets that calls of the library have built, and has
one field for each function. It rests on the laws of the operations in `LibSetLaws` and on the tests
of `LibSetDecide`. Which of the sets are one in memory is given by `third`, since
`Set_subtract_union_acc` writes to its third set while it reads the second; that it may write to its
own first set is a use the library makes of it. That the library gets memory is not claimed.
-/

namespace OpenImpact.LibSet

variable {set₁ set₂ s : Option VSet} {third : ThirdSet} {x : ℤ} {new : Sign → ℕ → Bool} {run : Run (Option VSet)}

/-- The run returns the set of the integers that `P` holds of. -/
def Denotes (run : Run (Option VSet)) (P : ℤ → Prop) : Prop :=
  ∃ r, run = .ok r ∧ ∀ y, Mem r y ↔ P y

theorem Computes.denotes (h : Computes run new) {P : ℤ → Prop}
    (hP : ∀ y, new (sign y) y.natAbs = true ↔ P y) : Denotes run P := by
  obtain ⟨r, hr, -, hnew⟩ := h
  exact ⟨r, hr, fun y ↦ by rw [Mem, hnew, hP]⟩

/-- Each function does what it is for, on three sets and an element. -/
structure FamilyRight (set₁ set₂ : Option VSet) (third : ThirdSet) (x : ℤ) : Prop where
  add : Denotes (add set₁ x) fun y ↦ y = x ∨ Mem set₁ y
  delete : Denotes (delete set₁ x) fun y ↦ y ≠ x ∧ Mem set₁ y
  copy : Denotes (copy set₁) (Mem set₁)
  compress : Denotes (compress set₁) (Mem set₁)
  union : Denotes (union set₁ set₂) fun y ↦ Mem set₁ y ∨ Mem set₂ y
  unionAcc : Denotes (unionAcc set₁ set₂) fun y ↦ Mem set₁ y ∨ Mem set₂ y
  unionAccCh : ∃ r c, unionAccCh set₁ set₂ = .ok (r, c) ∧ (∀ y, Mem r y ↔ Mem set₁ y ∨ Mem set₂ y) ∧
    (c = true ↔ ∃ y, Mem r y ∧ ¬Mem set₁ y)
  subtract : Denotes (subtract set₁ set₂) fun y ↦ Mem set₁ y ∧ ¬Mem set₂ y
  subtractAcc : Denotes (subtractAcc set₁ set₂) fun y ↦ Mem set₁ y ∧ ¬Mem set₂ y
  subtractUnion : Denotes (subtractUnion set₁ set₂ (third.set set₁)) fun y ↦
    Mem set₁ y ∧ ¬Mem set₂ y ∨ Mem (third.set set₁) y
  subtractUnionAcc : Denotes (subtractUnionAcc set₁ set₂ third) fun y ↦
    Mem set₁ y ∧ ¬Mem set₂ y ∨ Mem (third.set set₁) y
  same : same set₁ set₂ = true ↔ ∀ y, Mem set₁ y ↔ Mem set₂ y
  empty : empty set₁ = true ↔ ∀ y, ¬Mem set₁ y
  subtractEmpty : subtractEmpty set₁ set₂ = true ↔ ∀ y, Mem set₁ y → Mem set₂ y
  intersectEmpty : intersectEmpty set₁ set₂ = true ↔ ∀ y, ¬(Mem set₁ y ∧ Mem set₂ y)
  size : size set₁ = .ok {y | Mem set₁ y}.ncard

theorem unionAccCh_spec (h₁ : Valid set₁) (h₂ : Valid set₂) :
    ∃ r c, unionAccCh set₁ set₂ = .ok (r, c) ∧ (∀ y, Mem r y ↔ Mem set₁ y ∨ Mem set₂ y) ∧
      (c = true ↔ ∃ y, Mem r y ∧ ¬Mem set₁ y) := by
  obtain ⟨r, c, hrun, hbits, hc⟩ := computes_unionAccCh h₁ h₂
  have hmem : ∀ y, Mem r y ↔ Mem set₁ y ∨ Mem set₂ y := fun y ↦
    (hbits.mem y).trans Bool.or_eq_true_iff
  refine ⟨r, c, hrun, hmem, ?_⟩
  rw [hc, exists_place (by simp [h₂.zero])]
  refine exists_congr fun y ↦ ?_
  rw [hmem, ← Bool.not_eq_true]
  show Mem set₂ y ∧ ¬Mem set₁ y ↔ _
  tauto

theorem minus_eq_true_iff (y : ℤ) :
    (test (arrayOf set₁ (sign y)) y.natAbs && !test (arrayOf set₂ (sign y)) y.natAbs) = true ↔
      Mem set₁ y ∧ ¬Mem set₂ y := by
  rw [Bool.and_eq_true, Bool.not_eq_true', ← Bool.not_eq_true]
  rfl

theorem minusUnion_eq_true_iff {set₃ : Option VSet} (y : ℤ) :
    (test (arrayOf set₁ (sign y)) y.natAbs && !test (arrayOf set₂ (sign y)) y.natAbs ||
      test (arrayOf set₃ (sign y)) y.natAbs) = true ↔ Mem set₁ y ∧ ¬Mem set₂ y ∨ Mem set₃ y := by
  rw [Bool.or_eq_true, minus_eq_true_iff]
  rfl

/-- **`Set_subtract_union_acc`** is right unless its third set is the first one and has an element of the
second. -/
theorem denotes_subtractUnionAcc_iff (h₁ : Valid set₁) (h₃ : Valid (third.set set₁)) :
    (Denotes (subtractUnionAcc set₁ set₂ third) fun y ↦
      Mem set₁ y ∧ ¬Mem set₂ y ∨ Mem (third.set set₁) y) ↔
      (third = .first → ∀ y, ¬(Mem set₁ y ∧ Mem set₂ y)) := by
  cases third with
  | other set₃ =>
    exact iff_of_true ((computes_subtractUnionAcc h₁ h₃).denotes minusUnion_eq_true_iff) fun h ↦ by cases h
  | first =>
    obtain ⟨r, hr, hmem⟩ := (@computes_subtractUnionAcc_first _ set₂ h₁).denotes minus_eq_true_iff
    rw [ThirdSet.set]
    constructor
    · rintro ⟨q, hq, hright⟩ - y ⟨hy₁, hy₂⟩
      obtain rfl := Except.ok.inj (hr.symm.trans hq)
      exact ((hmem y).1 ((hright y).2 (.inr hy₁))).2 hy₂
    · intro hdisjoint
      refine ⟨r, hr, fun y ↦ (hmem y).trans ⟨.inl, fun h ↦ ?_⟩⟩
      have hy : Mem set₁ y := h.elim And.left id
      exact ⟨hy, fun hy₂ ↦ hdisjoint rfl y ⟨hy, hy₂⟩⟩

/-- **The whole family.** -/
theorem familyRight_iff (h₁ : Built set₁) (h₂ : Built set₂) (h₃ : Built (third.set set₁))
    (hint : -2147483648 ≤ x ∧ x ≤ 2147483647) :
    FamilyRight set₁ set₂ third x ↔ x ≠ -2147483648 ∧ {y | Mem set₁ y}.ncard ≤ 2147483647 ∧
      (third = .first → ∀ y, ¬(Mem set₁ y ∧ Mem set₂ y)) := by
  have h₁ := h₁.valid
  have h₂ := h₂.valid
  have h₃ := h₃.valid
  constructor
  · intro h
    refine ⟨?_, ?_, (denotes_subtractUnionAcc_iff h₁ h₃).1 h.subtractUnionAcc⟩
    · rintro rfl
      obtain ⟨r, hr, -⟩ := h.add
      exact absurd (natAbs_lt_of_add hr) (by decide)
    · rw [ncard_mem h₁]
      exact (size_eq_ok.1 h.size).1
  · rintro ⟨hne, hcount, hdisjoint⟩
    have hx : x.natAbs < 2147483648 := by omega
    have hsize := ncard_mem h₁
    exact {
      add := (computes_add h₁ hx).denotes fun y ↦ by
        rw [Bool.or_eq_true, decide_eq_true_iff, place_eq_iff]
        rfl
      delete := (computes_delete h₁ hx).denotes fun y ↦ by
        rw [Bool.and_eq_true, decide_eq_true_iff, place_eq_iff]
        rfl
      copy := (computes_copy h₁).denotes fun y ↦ Iff.rfl
      compress := (computes_compress h₁).denotes fun y ↦ Iff.rfl
      union := (computes_union h₁ h₂).denotes fun y ↦ Bool.or_eq_true_iff
      unionAcc := (computes_unionAcc h₁ h₂).denotes fun y ↦ Bool.or_eq_true_iff
      unionAccCh := unionAccCh_spec h₁ h₂
      subtract := (computes_subtract h₁).denotes minus_eq_true_iff
      subtractAcc := (computes_subtractAcc h₁).denotes minus_eq_true_iff
      subtractUnion := (computes_subtractUnion h₁ h₃).denotes minusUnion_eq_true_iff
      subtractUnionAcc := (denotes_subtractUnionAcc_iff h₁ h₃).2 hdisjoint
      same := same_iff h₁ h₂
      empty := empty_iff h₁
      subtractEmpty := subtractEmpty_iff h₁
      intersectEmpty := intersectEmpty_iff h₁
      size := size_eq_ok.2 ⟨hsize ▸ hcount, by rw [hsize]⟩ }

/-- Sets with an element of each sign, and the first of them as third set. -/
theorem familyRight_iff_two :
    ∃ s t, add none 3 = .ok s ∧ add none (-300) = .ok t ∧ FamilyRight s t .first 7 := by
  refine ⟨_, _, rfl, rfl, (@familyRight_iff _ _ .first _ (.add .null (x := 3) rfl)
    (.add .null (x := -300) rfl) (.add .null (x := 3) rfl) (by decide)).2 ⟨by decide, ?_, ?_⟩⟩
  · rw [ncard_mem (Built.valid (.add .null (x := 3) rfl))]
    decide +kernel
  · exact fun _ ↦ (intersectEmpty_iff (Built.valid (.add .null (x := 3) rfl))).1 (by decide)

/-- The smallest `int` cannot be added, and `({3} - {3}) ∪ {3}` comes out empty when the third set is the
first. -/
theorem not_familyRight_intMin :
    ¬FamilyRight none none (.other none) (-2147483648) ∧
      ∃ s t, add none 3 = .ok s ∧ add none 3 = .ok t ∧ ¬FamilyRight s t .first 3 := by
  constructor
  · intro h
    obtain ⟨r, hr, -⟩ := h.add
    exact absurd (natAbs_lt_of_add hr) (by decide)
  · refine ⟨_, _, rfl, rfl, fun h ↦ ?_⟩
    have hv : Valid _ := Built.valid (.add .null (x := 3) rfl)
    exact (@denotes_subtractUnionAcc_iff _ _ .first hv hv).1 h.subtractUnionAcc rfl 3 ⟨by decide, by decide⟩

end OpenImpact.LibSet
