import OpenImpact.Foundation.Dominator

/-!
# Natural loops

The loop of a header is made of the natural loops of the arcs that lead back to it. In a graph whose
vertices are all reachable two loops with different headers are disjoint, or one contains the other
(`loopBody_subset_or_subset`), whether the graph is reducible or not.
-/

namespace OpenImpact.Foundation

variable {α : Type*}

/-- An arc to a dominator of its source. -/
def BackEdge (E : α → α → Prop) (root u h : α) : Prop :=
  E u h ∧ Dominates E root h u

/-- The natural loop of an arc from `u` to `h`: `h` and what leads to `u` without passing `h`. -/
def NaturalLoop (E : α → α → Prop) (u h : α) : Set α :=
  {x | x = h ∨ ∃ l, Walk E x l u ∧ h ∉ l}

/-- The natural loops of all back edges to `h`. -/
def LoopBody (E : α → α → Prop) (root h : α) : Set α :=
  {x | ∃ u, BackEdge E root u h ∧ x ∈ NaturalLoop E u h}

variable {E : α → α → Prop} {root a b c d h h₁ h₂ u x y : α}

theorem mem_naturalLoop_iff :
    x ∈ NaturalLoop E u h ↔ x = h ∨ x ≠ h ∧ Relation.ReflTransGen (Avoiding E h) x u :=
  or_congr_right exists_walk_notMem_iff

theorem Dominates.refl (E : α → α → Prop) (root w : α) : Dominates E root w w :=
  fun _ hwalk ↦ hwalk.last_mem

theorem Walk.reflTransGen {l : List α} (hwalk : Walk E a l b) (hd : d ∈ l) :
    Relation.ReflTransGen E d b := by
  induction hwalk generalizing d with
  | nil a => rw [List.mem_singleton.1 hd]
  | cons hab hwalk ih =>
    rcases List.mem_cons.1 hd with rfl | hd
    · exact (ih hwalk.head_mem).head hab
    · exact ih hd

theorem exists_walk (h : Relation.ReflTransGen E a b) : ∃ l, Walk E a l b := by
  induction h using Relation.ReflTransGen.head_induction_on with
  | refl => exact ⟨_, .nil b⟩
  | head hab _ ih =>
    obtain ⟨l, hwalk⟩ := ih
    exact ⟨_, .cons hab hwalk⟩

/-- A dominator leads to what it dominates. -/
theorem Dominates.reflTransGen (hdom : Dominates E root d b)
    (hreach : Relation.ReflTransGen E root b) : Relation.ReflTransGen E d b := by
  obtain ⟨l, hwalk⟩ := exists_walk hreach
  exact hwalk.reflTransGen (hdom l hwalk)

/-- After the last of two vertices on a walk, the walk avoids both. -/
theorem avoiding_of_last (hab : Relation.ReflTransGen E a x) (b : α) :
    Relation.ReflTransGen (fun p q ↦ E p q ∧ q ≠ a ∧ q ≠ b) a x ∨
      Relation.ReflTransGen (fun p q ↦ E p q ∧ q ≠ a ∧ q ≠ b) b x := by
  induction hab with
  | refl => exact Or.inl .refl
  | @tail y z _ hyz ih =>
    by_cases hza : z = a
    · exact Or.inl (hza ▸ .refl)
    · by_cases hzb : z = b
      · exact Or.inr (hzb ▸ .refl)
      · exact ih.imp (·.tail ⟨hyz, hza, hzb⟩) (·.tail ⟨hyz, hza, hzb⟩)

/-- Two dominators of a vertex dominate one another. -/
theorem Dominates.total (ha : Dominates E root a x) (hb : Dominates E root b x)
    (hreach : Relation.ReflTransGen E root x) :
    Dominates E root a b ∨ Dominates E root b a := by
  rcases avoiding_of_last (ha.reflTransGen hreach) b with hchain | hchain
  · refine Or.inr (hb.of_avoiding ?_)
    exact Relation.ReflTransGen.mono (fun _ _ hstep ↦ ⟨hstep.1, hstep.2.2⟩) _ _ hchain
  · refine Or.inl (ha.of_avoiding ?_)
    exact Relation.ReflTransGen.mono (fun _ _ hstep ↦ ⟨hstep.1, hstep.2.1⟩) _ _ hchain

theorem dominates_of_mem_naturalLoop (hback : BackEdge E root u h) (hx : x ∈ NaturalLoop E u h) :
    Dominates E root h x := by
  rcases mem_naturalLoop_iff.1 hx with rfl | ⟨-, hchain⟩
  · exact Dominates.refl E root x
  · exact hback.2.of_avoiding hchain

/-- **A header dominates its loop.** -/
theorem dominates_of_mem_loopBody (hx : x ∈ LoopBody E root h) : Dominates E root h x := by
  obtain ⟨u, hback, hx⟩ := hx
  exact dominates_of_mem_naturalLoop hback hx

theorem header_mem_loopBody (hback : BackEdge E root u h) : h ∈ LoopBody E root h :=
  ⟨u, hback, Or.inl rfl⟩

/-- What is in a natural loop leads to its header without passing what strictly dominates that. -/
theorem avoiding_to_header (hback : BackEdge E root u h₂) (hdom : Dominates E root h₁ h₂)
    (hne : h₁ ≠ h₂) (hroot : Relation.ReflTransGen E root h₁) (hy : y ∈ NaturalLoop E u h₂) :
    y ≠ h₁ ∧ Relation.ReflTransGen (Avoiding E h₁) y h₂ := by
  have houtside : ∀ z ∈ NaturalLoop E u h₂, z ≠ h₁ := by
    rintro z hz rfl
    exact hne (hdom.antisymm hroot (dominates_of_mem_naturalLoop hback hz))
  refine ⟨houtside y hy, ?_⟩
  rcases mem_naturalLoop_iff.1 hy with rfl | ⟨hyh, hchain⟩
  · exact .refl
  · induction hchain using Relation.ReflTransGen.head_induction_on with
    | refl => exact .single ⟨hback.1, hne.symm⟩
    | @head y z hyz hrest ih =>
      have hz : z ∈ NaturalLoop E u h₂ := mem_naturalLoop_iff.2 (Or.inr ⟨hyz.2, hrest⟩)
      exact (ih hz hyz.2).head ⟨hyz.1, houtside z hz⟩

section Reachable

variable (hreach : ∀ v w, E v w → Relation.ReflTransGen E root v)
include hreach

theorem reachable_of_mem_loopBody (hx : x ∈ LoopBody E root h) :
    Relation.ReflTransGen E root x := by
  obtain ⟨u, hback, hx⟩ := hx
  rcases mem_naturalLoop_iff.1 hx with rfl | ⟨-, hchain⟩
  · exact (hreach u x hback.1).tail hback.1
  · rcases Relation.ReflTransGen.cases_head hchain with rfl | ⟨y, hxy, -⟩
    · exact hreach x h hback.1
    · exact hreach x y hxy.1

/-- A loop contains the loops it meets whose headers its own header dominates. -/
theorem loopBody_subset_of_dominates (h₁x : x ∈ LoopBody E root h₁) (h₂x : x ∈ LoopBody E root h₂)
    (hdom : Dominates E root h₁ h₂) (hne : h₁ ≠ h₂) :
    LoopBody E root h₂ ⊆ LoopBody E root h₁ := by
  have hrootx := reachable_of_mem_loopBody hreach h₁x
  have hdom₁ := dominates_of_mem_loopBody h₁x
  have hdom₂ := dominates_of_mem_loopBody h₂x
  obtain ⟨u₁, hback₁, hx₁⟩ := h₁x
  have hroot₁ : Relation.ReflTransGen E root h₁ := (hreach u₁ h₁ hback₁.1).tail hback₁.1
  have hnot : ¬Dominates E root h₂ h₁ := fun h ↦ hne (hdom.antisymm hroot₁ h)
  -- The header of the inner loop leads to the common vertex past the outer header.
  have hdown : Relation.ReflTransGen (Avoiding E h₁) h₂ x := by
    rcases avoiding_of_last (hdom₂.reflTransGen hrootx) h₁ with hchain | hchain
    · exact Relation.ReflTransGen.mono (fun _ _ hstep ↦ ⟨hstep.1, hstep.2.2⟩) _ _ hchain
    · refine absurd (hdom₂.of_avoiding ?_) hnot
      exact Relation.ReflTransGen.mono (fun _ _ hstep ↦ ⟨hstep.1, hstep.2.1⟩) _ _ hchain
  have hout : x ≠ h₁ := fun heq ↦ hnot (heq ▸ hdom₂)
  have hback : Relation.ReflTransGen (Avoiding E h₁) x u₁ :=
    ((mem_naturalLoop_iff.1 hx₁).resolve_left hout).2
  rintro y ⟨u₂, hback₂, hy⟩
  obtain ⟨hyne, hup⟩ := avoiding_to_header hback₂ hdom hne hroot₁ hy
  exact ⟨u₁, hback₁, mem_naturalLoop_iff.2 (Or.inr ⟨hyne, (hup.trans hdown).trans hback⟩)⟩

/-- **Loops are nested or disjoint.** -/
theorem loopBody_subset_or_subset (h₁x : x ∈ LoopBody E root h₁) (h₂x : x ∈ LoopBody E root h₂) :
    LoopBody E root h₁ ⊆ LoopBody E root h₂ ∨ LoopBody E root h₂ ⊆ LoopBody E root h₁ := by
  rcases eq_or_ne h₁ h₂ with rfl | hne
  · exact Or.inl subset_rfl
  · rcases (dominates_of_mem_loopBody h₁x).total (dominates_of_mem_loopBody h₂x)
      (reachable_of_mem_loopBody hreach h₁x) with hdom | hdom
    · exact Or.inr (loopBody_subset_of_dominates hreach h₁x h₂x hdom hne)
    · exact Or.inl (loopBody_subset_of_dominates hreach h₂x h₁x hdom hne.symm)

/-- A loop determines its header. -/
theorem header_eq_of_loopBody_eq (hback₁ : ∃ u, BackEdge E root u h₁)
    (hback₂ : ∃ u, BackEdge E root u h₂) (heq : LoopBody E root h₁ = LoopBody E root h₂) :
    h₁ = h₂ := by
  obtain ⟨u₁, hback₁⟩ := hback₁
  obtain ⟨u₂, hback₂⟩ := hback₂
  have h₁₂ : Dominates E root h₁ h₂ :=
    dominates_of_mem_loopBody (heq ▸ header_mem_loopBody hback₂)
  have h₂₁ : Dominates E root h₂ h₁ :=
    dominates_of_mem_loopBody (heq ▸ header_mem_loopBody hback₁)
  exact h₁₂.antisymm ((hreach u₁ h₁ hback₁.1).tail hback₁.1) h₂₁

end Reachable

end OpenImpact.Foundation
