import Mathlib.Data.Set.Card
import Mathlib.Data.Set.Finite.Lattice
import Mathlib.Order.CompletePartialOrder

/-!
# Families of nested or disjoint sets

A finite family of sets of which two that meet are nested, and the level of a member, which is one
more than the number of members around it. Levels alone tell the smallest member around another.
-/

namespace OpenImpact.Foundation

variable {ι α : Type*}

/-- Nonempty sets, different ones for different members, of which two that meet are nested. -/
structure Laminar (ids : List ι) (body : ι → Set α) : Prop where
  nonempty : ∀ i ∈ ids, (body i).Nonempty
  inj : ∀ i ∈ ids, ∀ j ∈ ids, body i = body j → i = j
  nested : ∀ i ∈ ids, ∀ j ∈ ids, ∀ x ∈ body i, x ∈ body j → body i ⊆ body j ∨ body j ⊆ body i

/-- The members that properly contain a member. -/
def containers (ids : List ι) (body : ι → Set α) (i : ι) : Set ι :=
  {j | j ∈ ids ∧ body i ⊂ body j}

/-- One more than the number of members that properly contain a member. -/
noncomputable def level (ids : List ι) (body : ι → Set α) (i : ι) : ℕ :=
  (containers ids body i).ncard + 1

/-- The smallest member with a property. -/
structure IsSmallest (ids : List ι) (body : ι → Set α) (P : ι → Prop) (j : ι) : Prop where
  mem : j ∈ ids
  prop : P j
  subset : ∀ k ∈ ids, P k → body j ⊆ body k

variable {ids : List ι} {body : ι → Set α} {P : ι → Prop} {i j k : ι}

theorem finite_containers : (containers ids body i).Finite :=
  ids.finite_toSet.subset fun _ h ↦ h.1

theorem level_pos : 0 < level ids body i :=
  Nat.succ_pos _

theorem level_lt (hj : j ∈ ids) (hij : body i ⊂ body j) : level ids body j < level ids body i := by
  refine Nat.succ_lt_succ (Set.ncard_lt_ncard ?_ finite_containers)
  have hsub : containers ids body j ⊆ containers ids body i :=
    fun k hk ↦ ⟨hk.1, hij.trans hk.2⟩
  exact (Set.ssubset_iff_of_subset hsub).2 ⟨j, ⟨hj, hij⟩, fun h ↦ h.2.ne rfl⟩

theorem containers_eq_empty (h : level ids body i = 1) : containers ids body i = ∅ := by
  rw [level, Nat.add_eq_right] at h
  exact (Set.ncard_eq_zero finite_containers).1 h

theorem level_congr {ids' : List ι} (h : ∀ j, j ∈ ids' ↔ j ∈ ids) :
    level ids' body i = level ids body i := by
  simp only [level, containers, h]

theorem IsSmallest.congr {ids' : List ι} (hj : IsSmallest ids body P j)
    (h : ∀ j, j ∈ ids' ↔ j ∈ ids) : IsSmallest ids' body P j :=
  ⟨(h j).2 hj.mem, hj.prop, fun k hk ↦ hj.subset k ((h k).1 hk)⟩

/-- The level by counting. -/
theorem level_eq_countP [DecidableEq ι] (hnodup : ids.Nodup) {p : ι → Bool}
    (hp : ∀ j ∈ ids, p j = true ↔ body i ⊂ body j) : level ids body i = ids.countP p + 1 := by
  have heq : containers ids body i = ((ids.filter p).toFinset : Set ι) := by
    ext j
    rw [List.coe_toFinset, Set.mem_ofPred_eq, List.mem_filter]
    exact and_congr_right fun hj ↦ (hp j hj).symm
  rw [level, heq, Set.ncard_coe_finset, List.toFinset_card_of_nodup (hnodup.filter p),
    List.countP_eq_length_filter]

/-- Members around one are on a lower level. -/
theorem exists_level_eq_one (hi : i ∈ ids) : ∃ j ∈ ids, level ids body j = 1 := by
  induction hn : level ids body i using Nat.strong_induction_on generalizing i with
  | _ n ih =>
    subst hn
    rcases Set.eq_empty_or_nonempty (containers ids body i) with hempty | ⟨j, hj⟩
    · exact ⟨i, hi, by rw [level, hempty, Set.ncard_empty]⟩
    · exact ih _ (level_lt hj.1 hj.2) hj.1 rfl

namespace Laminar

variable (h : Laminar ids body)
include h

/-- Among members that all meet, the one on the highest level is the smallest. -/
theorem isSmallest_of_level_le (hj : j ∈ ids) (hPj : P j)
    (hmeet : ∀ k ∈ ids, P k → ∃ x ∈ body j, x ∈ body k)
    (hmax : ∀ k ∈ ids, P k → level ids body k ≤ level ids body j) :
    IsSmallest ids body P j where
  mem := hj
  prop := hPj
  subset k hk hPk := by
    obtain ⟨x, hxj, hxk⟩ := hmeet k hk hPk
    refine (h.nested j hj k hk x hxj hxk).elim id fun hkj ↦ ?_
    by_contra hjk
    exact absurd (level_lt hj ⟨hkj, hjk⟩) (not_lt.2 (hmax k hk hPk))

theorem meet_of_subset (hi : i ∈ ids) (hij : body i ⊆ body j) (hik : body i ⊆ body k) :
    ∃ x ∈ body j, x ∈ body k := by
  obtain ⟨x, hx⟩ := h.nonempty i hi
  exact ⟨x, hij hx, hik hx⟩

theorem exists_isSmallest (hi : i ∈ ids) (hne : (containers ids body i).Nonempty) :
    ∃ j, IsSmallest ids body (fun k ↦ body i ⊂ body k) j := by
  obtain ⟨j, ⟨hj, hij⟩, hmax⟩ :=
    (finite_containers (i := i)).exists_maximalFor (level ids body) _ hne
  exact ⟨j, h.isSmallest_of_level_le hj hij
    (fun k _ hik ↦ h.meet_of_subset hi hij.subset hik.subset)
    fun k hk hik ↦ (le_total _ _).elim id (hmax ⟨hk, hik⟩)⟩

/-- The smallest member around another is one level up. -/
theorem level_eq (hj : IsSmallest ids body (fun k ↦ body i ⊂ body k) j) :
    level ids body i = level ids body j + 1 := by
  have heq : containers ids body i = insert j (containers ids body j) := by
    ext k
    rw [Set.mem_insert_iff]
    constructor
    · rintro ⟨hk, hik⟩
      refine or_iff_not_imp_left.2 fun hkj ↦ ⟨hk, hj.subset k hk hik, fun hsub ↦ hkj ?_⟩
      exact h.inj k hk j hj.mem (hsub.antisymm (hj.subset k hk hik))
    · rintro (rfl | ⟨hk, hjk⟩)
      · exact ⟨hj.mem, hj.prop⟩
      · exact ⟨hk, hj.prop.trans hjk⟩
  rw [level, heq, Set.ncard_insert_of_notMem (fun hmem ↦ hmem.2.ne rfl) finite_containers]
  rfl

/-- A member around another and one level up is the smallest one around it. -/
theorem isSmallest_of_level_eq (hi : i ∈ ids) (hj : j ∈ ids) (hij : body i ⊆ body j)
    (hlevel : level ids body i = level ids body j + 1) :
    IsSmallest ids body (fun k ↦ body i ⊂ body k) j := by
  have hne : body i ≠ body j := fun heq ↦ by
    rw [h.inj i hi j hj heq] at hlevel
    omega
  refine h.isSmallest_of_level_le hj (hij.ssubset_of_ne hne)
    (fun k _ hik ↦ h.meet_of_subset hi hij hik.subset) fun k hk hik ↦ ?_
  have hlt := level_lt hk hik
  omega

end Laminar

end OpenImpact.Foundation
