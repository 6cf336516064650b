import Mathlib.Data.Set.Basic
import Mathlib.Logic.Relation

/-!
# Dominators

Walks in a directed graph given by its edge relation `E`, and dominance from a root. Dominance is
stated on walks with their vertices, and used through walks that avoid a vertex
(`dominates_iff_not_avoiding`), which are chains of single steps and so fit inductions.
-/

namespace OpenImpact.Foundation

variable {α : Type*}

/-- A walk, with the list of its vertices. -/
inductive Walk (E : α → α → Prop) : α → List α → α → Prop
  | nil (a) : Walk E a [a] a
  | cons {a b c l} : E a b → Walk E b l c → Walk E a (a :: l) c

/-- Every walk from the root to `w` passes `d`. -/
def Dominates (E : α → α → Prop) (root d w : α) : Prop :=
  ∀ l, Walk E root l w → d ∈ l

/-- The strict dominator of `w` that every strict dominator of `w` dominates. -/
structure IsIdom (E : α → α → Prop) (root d w : α) : Prop where
  dominates : Dominates E root d w
  ne : d ≠ w
  closest : ∀ d', Dominates E root d' w → d' ≠ w → Dominates E root d' d

variable {E : α → α → Prop} {root a b c d w : α}

/-! ### Walks that avoid a vertex -/

/-- Steps to a vertex other than `d`. -/
def Avoiding (E : α → α → Prop) (d a b : α) : Prop := E a b ∧ b ≠ d

theorem Walk.head_mem {l : List α} (h : Walk E a l b) : a ∈ l := by
  cases h with
  | nil => exact List.mem_singleton_self _
  | cons => exact List.mem_cons_self

theorem Walk.last_mem {l : List α} (h : Walk E a l b) : b ∈ l := by
  induction h with
  | nil => exact List.mem_singleton_self _
  | cons _ _ ih => exact List.mem_cons_of_mem _ ih

/-- The walks without `d` are the chains of avoiding steps from a vertex other than `d`. -/
theorem exists_walk_notMem_iff :
    (∃ l, Walk E a l b ∧ d ∉ l) ↔ a ≠ d ∧ Relation.ReflTransGen (Avoiding E d) a b := by
  constructor
  · rintro ⟨l, hwalk, hd⟩
    induction hwalk with
    | nil => exact ⟨fun h ↦ hd (by simp [h]), .refl⟩
    | cons hab _ ih =>
      rw [List.mem_cons, not_or] at hd
      obtain ⟨hne, hchain⟩ := ih hd.2
      exact ⟨fun h ↦ hd.1 h.symm, .head ⟨hab, hne⟩ hchain⟩
  · rintro ⟨hne, hchain⟩
    induction hchain using Relation.ReflTransGen.head_induction_on with
    | refl => exact ⟨[b], .nil b, by simpa using hne.symm⟩
    | head hab _ ih =>
      obtain ⟨l, hwalk, hd⟩ := ih hab.2
      exact ⟨_, .cons hab.1 hwalk, by simp [hd, hne.symm]⟩

/-- **Dominance as unreachability.** -/
theorem dominates_iff_not_avoiding :
    Dominates E root d w ↔ d = root ∨ ¬Relation.ReflTransGen (Avoiding E d) root w := by
  have h := exists_walk_notMem_iff (E := E) (a := root) (b := w) (d := d)
  rw [Dominates]
  constructor
  · intro hdom
    by_contra hnot
    rw [not_or, not_not] at hnot
    obtain ⟨l, hwalk, hd⟩ := h.2 ⟨fun heq ↦ hnot.1 heq.symm, hnot.2⟩
    exact hd (hdom l hwalk)
  · intro hcase l hwalk
    by_contra hd
    obtain ⟨hne, hchain⟩ := h.1 ⟨l, hwalk, hd⟩
    exact hcase.elim (fun heq ↦ hne heq.symm) fun hnot ↦ hnot hchain

theorem dominates_root (E : α → α → Prop) (root w : α) : Dominates E root root w :=
  fun _ h ↦ h.head_mem

/-- A dominator of a vertex dominates where the way on avoids it. -/
theorem Dominates.of_avoiding (h : Dominates E root d w)
    (hchain : Relation.ReflTransGen (Avoiding E d) c w) : Dominates E root d c := by
  rw [dominates_iff_not_avoiding] at h ⊢
  exact h.imp_right fun hnot hc ↦ hnot (hc.trans hchain)

/-- A walk to one of two vertices meets one of them first. -/
theorem avoiding_or_avoiding (hne : a ≠ b) (h : Relation.ReflTransGen E c a) (hca : c ≠ a)
    (hcb : c ≠ b) :
    Relation.ReflTransGen (Avoiding E a) c b ∨ Relation.ReflTransGen (Avoiding E b) c a := by
  induction h using Relation.ReflTransGen.head_induction_on with
  | refl => exact absurd rfl hca
  | @head x y hxy _ ih =>
    by_cases hya : y = a
    · exact .inr (.single ⟨hya ▸ hxy, hne⟩)
    · by_cases hyb : y = b
      · exact .inl (.single ⟨hyb ▸ hxy, hne.symm⟩)
      · exact (ih hya hyb).imp (.head ⟨hxy, hya⟩) (.head ⟨hxy, hyb⟩)

theorem Dominates.antisymm (hreach : Relation.ReflTransGen E root a) (hab : Dominates E root a b)
    (hba : Dominates E root b a) : a = b := by
  by_contra hne
  rw [dominates_iff_not_avoiding] at hab hba
  by_cases ha : root = a
  · exact hba.elim (fun hb ↦ hne (ha ▸ hb.symm)) fun hnot ↦ hnot (ha ▸ .refl)
  by_cases hb : root = b
  · exact hab.elim (fun h ↦ ha h.symm) fun hnot ↦ hnot (hb ▸ .refl)
  rcases avoiding_or_avoiding hne hreach ha hb with h | h
  · exact hab.elim (fun h' ↦ ha h'.symm) fun hnot ↦ hnot h
  · exact hba.elim (fun h' ↦ hb h'.symm) fun hnot ↦ hnot h

/-- **There is at most one immediate dominator.** -/
theorem IsIdom.unique (hreach : ∀ v, Relation.ReflTransGen E root v) (ha : IsIdom E root a w)
    (hb : IsIdom E root b w) : a = b :=
  (hb.closest a ha.dominates ha.ne).antisymm (hreach a) (ha.closest b hb.dominates hb.ne)

end OpenImpact.Foundation
