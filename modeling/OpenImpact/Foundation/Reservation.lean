import Mathlib.Order.BooleanAlgebra.Basic
import Mathlib.Data.List.Perm.Basic

/-!
# Disjoint reservations

A map of what is taken, and the list of the requests that took it: the requests overlap nowhere and
the map is their join. Requests are elements of a generalized Boolean algebra, so they may be sets,
bit masks or families of bit masks.
-/

namespace OpenImpact

variable {α : Type*} [GeneralizedBooleanAlgebra α]

/-- All that the requests take together. -/
def joined (us : List α) : α :=
  us.foldr (· ⊔ ·) ⊥

@[simp] theorem joined_nil : joined ([] : List α) = ⊥ := rfl

@[simp] theorem joined_cons (u : α) (us : List α) : joined (u :: us) = u ⊔ joined us := rfl

@[simp] theorem joined_append (us vs : List α) : joined (us ++ vs) = joined us ⊔ joined vs := by
  induction us with
  | nil => simp
  | cons u us ih => simp [ih, sup_assoc]

theorem joined_perm {us vs : List α} (h : us.Perm vs) : joined us = joined vs := by
  induction h with
  | nil => rfl
  | cons u _ ih => rw [joined_cons, joined_cons, ih]
  | swap u v us => simp only [joined_cons, sup_left_comm]
  | trans _ _ ih₁ ih₂ => exact ih₁.trans ih₂

theorem disjoint_joined {a : α} {us : List α} :
    Disjoint a (joined us) ↔ ∀ u ∈ us, Disjoint a u := by
  induction us with
  | nil => simp
  | cons u us ih => simp [disjoint_sup_right, ih]

theorem le_joined {u : α} {us : List α} (h : u ∈ us) : u ≤ joined us := by
  induction us with
  | nil => simp at h
  | cons v us ih =>
    rcases List.mem_cons.1 h with rfl | h
    · exact le_sup_left
    · exact (ih h).trans le_sup_right

/-- The map holds exactly the requests, which overlap nowhere. -/
structure Reserved (map : α) (us : List α) : Prop where
  pairwise : us.Pairwise Disjoint
  map_eq : map = joined us

namespace Reserved

variable {map u : α} {us vs : List α}

theorem nil : Reserved (⊥ : α) [] := ⟨.nil, rfl⟩

theorem perm (h : Reserved map us) (hp : us.Perm vs) : Reserved map vs :=
  ⟨hp.pairwise h.pairwise fun hd ↦ hd.symm, h.map_eq.trans (joined_perm hp)⟩

/-- A request that finds its place free is added. -/
theorem cons (h : Reserved map us) (hu : Disjoint u map) : Reserved (map ⊔ u) (u :: us) := by
  refine ⟨List.pairwise_cons.2 ⟨?_, h.pairwise⟩, ?_⟩
  · rw [h.map_eq] at hu
    exact disjoint_joined.1 hu
  · rw [joined_cons, ← h.map_eq, sup_comm]

theorem le (h : Reserved map us) (hu : u ∈ us) : u ≤ map := by
  rw [h.map_eq]
  exact le_joined hu

/-- Taking a held request off the map leaves the others. -/
theorem tail (h : Reserved map (u :: us)) : Reserved (map \ u) us := by
  have hdis : Disjoint u (joined us) :=
    disjoint_joined.2 fun _ hv ↦ List.rel_of_pairwise_cons h.pairwise hv
  refine ⟨h.pairwise.of_cons, ?_⟩
  rw [h.map_eq, joined_cons, sup_sdiff, sdiff_self, bot_sup_eq]
  exact hdis.symm.sdiff_eq_left

/-- Renaming what is reserved. -/
theorem image {β : Type*} [GeneralizedBooleanAlgebra β] {a : α} (g : α → β) (hbot : g ⊥ = ⊥)
    (hsup : ∀ u v, g (u ⊔ v) = g u ⊔ g v) (hdis : ∀ {u v}, Disjoint u v → Disjoint (g u) (g v))
    (h : Reserved a us) : Reserved (g a) (us.map g) := by
  refine ⟨h.pairwise.map g fun _ _ ↦ hdis, ?_⟩
  rw [h.map_eq]
  clear h
  induction us with
  | nil => exact hbot
  | cons u us ih => rw [joined_cons, hsup, ih, List.map_cons, joined_cons]

end Reserved

end OpenImpact
