import Mathlib.Data.Set.Lattice
import Mathlib.Order.Interval.Set.Basic
import Mathlib.Order.CompletePartialOrder

/-!
# Minterm covers of a family of sets

A *minterm cover* of a family `F` is a collection of cells none of which is cut by a member of `F`,
and which together cover exactly the union of `F`. Every question "is `S` true on this cell?" for
`S ∈ F` then has one answer per cell.

The cells and the family are kept as predicates on `Set α`, so nothing here depends on how a client
stores them. The one operation is `IsMintermCover.insert`: refining the cells along a new set keeps
the cover for the enlarged family, and the refinement is only asked to be *cellwise* — each new cell
lies inside an old one or misses all of them.
-/

namespace OpenImpact.Foundation

variable {α : Type*}

/-- A cell resolves a set when it is not cut by it: all of the cell is inside, or none of it. -/
def Resolves (C S : Set α) : Prop := C ⊆ S ∨ Disjoint C S

theorem Resolves.mono {C D S : Set α} (h : Resolves D S) (hCD : C ⊆ D) : Resolves C S :=
  h.imp hCD.trans fun hd ↦ hd.mono_left hCD

theorem Resolves.union {C S T : Set α} (hS : Resolves C S) (hT : Resolves C T) :
    Resolves C (S ∪ T) := by
  rcases hS with hS | hS
  · exact .inl (hS.trans Set.subset_union_left)
  · rcases hT with hT | hT
    · exact .inl (hT.trans Set.subset_union_right)
    · exact .inr (Set.disjoint_union_right.2 ⟨hS, hT⟩)

/-- A cell cut by no member of a family is not cut by its union. -/
theorem Resolves.sUnion {C : Set α} {F : Set (Set α)} (h : ∀ S ∈ F, Resolves C S) :
    Resolves C (⋃₀ F) := by
  by_cases hC : ∃ S ∈ F, C ⊆ S
  · obtain ⟨S, hS, hCS⟩ := hC
    exact .inl (hCS.trans (Set.subset_sUnion_of_mem hS))
  · refine .inr (Set.disjoint_sUnion_right.2 fun S hS ↦ ?_)
    exact (h S hS).resolve_left fun hCS ↦ hC ⟨S, hS, hCS⟩

theorem resolves_empty (C : Set α) : Resolves C ∅ := .inr (Set.disjoint_empty C)

/-- On a resolved cell membership is constant. -/
theorem Resolves.mem_iff_mem {C S : Set α} (h : Resolves C S) {x y : α} (hx : x ∈ C) (hy : y ∈ C) :
    x ∈ S ↔ y ∈ S := by
  rcases h with h | h
  · exact ⟨fun _ ↦ h hy, fun _ ↦ h hx⟩
  · exact ⟨fun hxS ↦ absurd hxS (Set.disjoint_left.1 h hx),
      fun hyS ↦ absurd hyS (Set.disjoint_left.1 h hy)⟩

/-- A set that meets a resolved cell contains it. -/
theorem Resolves.subset_of_mem {C S : Set α} (h : Resolves C S) {x : α} (hx : x ∈ C)
    (hxS : x ∈ S) : C ⊆ S :=
  fun _ hy ↦ (h.mem_iff_mem hx hy).1 hxS

/-- The cells form a minterm cover of the family. -/
structure IsMintermCover (cells family : Set (Set α)) : Prop where
  /-- No cell is cut by a member of the family. -/
  resolves : ∀ C ∈ cells, ∀ S ∈ family, Resolves C S
  /-- The cells cover exactly what the family covers. -/
  cover : ⋃₀ cells = ⋃₀ family

theorem isMintermCover_empty : IsMintermCover (∅ : Set (Set α)) ∅ :=
  ⟨fun _ h ↦ absurd h (Set.notMem_empty _), rfl⟩

/-- One refinement step: `new` is obtained from `old` by cutting along `S` and adding cells for the
part of `S` that was not covered. -/
structure RefinesAlong (old new : Set (Set α)) (S : Set α) : Prop where
  /-- A new cell is part of an old one, or lies outside everything covered before. -/
  part_or_fresh : ∀ C ∈ new, (∃ D ∈ old, C ⊆ D) ∨ Disjoint C (⋃₀ old)
  /-- No new cell is cut by `S`. -/
  resolves : ∀ C ∈ new, Resolves C S
  /-- Exactly `S` is added to the covered part. -/
  cover : ⋃₀ new = ⋃₀ old ∪ S

/-- Nothing is refined along the empty set. -/
theorem refinesAlong_empty (cells : Set (Set α)) : RefinesAlong cells cells ∅ :=
  ⟨fun C hC ↦ .inl ⟨C, hC, Set.Subset.rfl⟩, fun C _ ↦ resolves_empty C, (Set.union_empty _).symm⟩

/-- Cutting cells without covering more, before a refinement, is part of the refinement. -/
theorem RefinesAlong.of_cut {old mid new : Set (Set α)} {S : Set α}
    (hcut : RefinesAlong old mid ∅) (h : RefinesAlong mid new S) : RefinesAlong old new S := by
  have hcov : ⋃₀ mid = ⋃₀ old := hcut.cover.trans (Set.union_empty _)
  refine ⟨fun C hC ↦ ?_, h.resolves, hcov ▸ h.cover⟩
  rcases h.part_or_fresh C hC with ⟨D, hD, hCD⟩ | hd
  · rcases hcut.part_or_fresh D hD with ⟨E, hE, hDE⟩ | hd
    · exact .inl ⟨E, hE, hCD.trans hDE⟩
    · exact .inr (hd.mono_left hCD)
  · exact .inr (hcov ▸ hd)

/-- **Refinements on the two sides of a separation are made independently.** -/
theorem RefinesAlong.union {old₁ new₁ old₂ new₂ : Set (Set α)} {S₁ S₂ U : Set α}
    (h₁ : RefinesAlong old₁ new₁ S₁) (h₂ : RefinesAlong old₂ new₂ S₂)
    (hU₁ : ⋃₀ old₁ ∪ S₁ ⊆ U) (hU₂ : ⋃₀ old₂ ∪ S₂ ⊆ Uᶜ) :
    RefinesAlong (old₁ ∪ old₂) (new₁ ∪ new₂) (S₁ ∪ S₂) := by
  have hnew₁ : ∀ C ∈ new₁, C ⊆ U := fun C hC ↦
    (Set.subset_sUnion_of_mem hC).trans (h₁.cover ▸ hU₁)
  have hnew₂ : ∀ C ∈ new₂, C ⊆ Uᶜ := fun C hC ↦
    (Set.subset_sUnion_of_mem hC).trans (h₂.cover ▸ hU₂)
  have hsep : ∀ {A B : Set α}, A ⊆ U → B ⊆ Uᶜ → Disjoint A B := fun hA hB ↦
    disjoint_compl_right.mono hA hB
  rw [Set.union_subset_iff] at hU₁ hU₂
  refine ⟨?_, ?_, ?_⟩
  · rintro C (hC | hC)
    · rcases h₁.part_or_fresh C hC with ⟨D, hD, hCD⟩ | hd
      · exact .inl ⟨D, .inl hD, hCD⟩
      · rw [Set.sUnion_union]
        exact .inr (Set.disjoint_union_right.2 ⟨hd, hsep (hnew₁ C hC) hU₂.1⟩)
    · rcases h₂.part_or_fresh C hC with ⟨D, hD, hCD⟩ | hd
      · exact .inl ⟨D, .inr hD, hCD⟩
      · rw [Set.sUnion_union]
        exact .inr (Set.disjoint_union_right.2 ⟨(hsep hU₁.1 (hnew₂ C hC)).symm, hd⟩)
  · rintro C (hC | hC)
    · exact (h₁.resolves C hC).union (.inr (hsep (hnew₁ C hC) hU₂.2))
    · exact Resolves.union (.inr (hsep hU₁.2 (hnew₂ C hC)).symm) (h₂.resolves C hC)
  · rw [Set.sUnion_union, Set.sUnion_union, h₁.cover, h₂.cover, Set.union_union_union_comm]

/-- **Refinement keeps the cover.** A fresh cell misses every older member of the family, because
those were covered already. -/
theorem IsMintermCover.insert {old new family : Set (Set α)} {S : Set α}
    (h : IsMintermCover old family) (hr : RefinesAlong old new S) :
    IsMintermCover new (insert S family) := by
  refine ⟨fun C hC T hT ↦ ?_, by rw [hr.cover, h.cover, Set.sUnion_insert, Set.union_comm]⟩
  rcases Set.mem_insert_iff.1 hT with rfl | hT
  · exact hr.resolves C hC
  · rcases hr.part_or_fresh C hC with ⟨D, hD, hCD⟩ | hfresh
    · exact (h.resolves D hD T hT).mono hCD
    · refine .inr (hfresh.mono_right ?_)
      rw [h.cover]
      exact Set.subset_sUnion_of_mem hT

end OpenImpact.Foundation
