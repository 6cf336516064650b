import OpenImpact.Foundation.NaturalLoop
import Mathlib.Data.List.Basic
import Mathlib.Data.List.TakeWhile

/-!
# Immediate dominators in an order

A list of the vertices in which immediate dominators come first has all strict dominators first, and the
strict dominator that comes last before a vertex is the immediate one (`isIdom_of_last`). Every vertex but
the root has an immediate dominator (`exists_isIdom`).

Dominators of the reversed edges are post-dominators.
-/

namespace OpenImpact.Foundation

variable {α : Type*} {E : α → α → Prop} {root a b c d p v : α}

/-! ### The order of dominance -/

theorem Walk.exists_upto {l : List α} (h : Walk E a l b) (hc : c ∈ l) :
    ∃ m, Walk E a m c ∧ m ⊆ l := by
  induction h with
  | nil a =>
    rw [List.mem_singleton.1 hc]
    exact ⟨[a], .nil a, fun _ h ↦ h⟩
  | @cons a b _ l hab hwalk ih =>
    rcases List.mem_cons.1 hc with rfl | hc
    · exact ⟨[c], .nil c, by simp⟩
    · obtain ⟨m, hm, hsub⟩ := ih hc
      exact ⟨a :: m, .cons hab hm, List.cons_subset_cons a hsub⟩

theorem Walk.concat {l : List α} (h : Walk E a l b) (hbc : E b c) : Walk E a (l ++ [c]) c := by
  induction h with
  | nil a => exact .cons hbc (.nil c)
  | cons hab _ ih => exact .cons hab (ih hbc)

theorem Dominates.trans (hab : Dominates E root a b) (hbc : Dominates E root b c) :
    Dominates E root a c := by
  intro l hl
  obtain ⟨m, hm, hsub⟩ := hl.exists_upto (hbc l hl)
  exact hsub (hab m hm)

theorem dominates_root_iff : Dominates E root d root ↔ d = root :=
  ⟨fun h ↦ List.mem_singleton.1 (h _ (.nil root)), fun h ↦ h ▸ dominates_root E root root⟩

/-- Among dominators of a vertex one is dominated by the others. -/
theorem exists_closest (hreach : Relation.ReflTransGen E root v) {l : List α} (hne : l ≠ [])
    (hl : ∀ d ∈ l, Dominates E root d v) :
    ∃ d ∈ l, ∀ d' ∈ l, Dominates E root d' d := by
  induction l with
  | nil => exact absurd rfl hne
  | cons x l ih =>
    obtain ⟨hx, hrest⟩ := List.forall_mem_cons.1 hl
    by_cases hnil : l = []
    · subst hnil
      exact ⟨x, List.mem_cons_self, by simpa using Dominates.refl E root x⟩
    obtain ⟨d, hd, hall⟩ := ih hnil hrest
    rcases hx.total (hrest d hd) hreach with hxd | hdx
    · exact ⟨d, List.mem_cons_of_mem x hd, List.forall_mem_cons.2 ⟨hxd, hall⟩⟩
    · exact ⟨x, List.mem_cons_self, List.forall_mem_cons.2
        ⟨Dominates.refl E root x, fun d' hd' ↦ (hall d' hd').trans hdx⟩⟩

/-- **Every vertex but the root has an immediate dominator.** -/
theorem exists_isIdom (hreach : Relation.ReflTransGen E root v) (hne : v ≠ root) :
    ∃ d, IsIdom E root d v := by
  classical
  obtain ⟨l, hl⟩ := exists_walk hreach
  -- the dominators are on the walk
  obtain ⟨d, hd, hall⟩ := exists_closest hreach
    (l := l.filter fun d ↦ Dominates E root d v ∧ d ≠ v)
    (List.ne_nil_of_mem (List.mem_filter.2
      ⟨hl.head_mem, by simpa using ⟨dominates_root E root v, hne.symm⟩⟩))
    fun d hd ↦ (by simpa using (List.mem_filter.1 hd).2 : _ ∧ _).1
  obtain ⟨hdom, hdv⟩ : Dominates E root d v ∧ d ≠ v := by simpa using (List.mem_filter.1 hd).2
  exact ⟨d, hdom, hdv, fun d' hd' hne' ↦
    hall d' (List.mem_filter.2 ⟨hd' l hl, by simpa using ⟨hd', hne'⟩⟩)⟩

theorem IsIdom.eq (hreach : Relation.ReflTransGen E root v) (ha : IsIdom E root a v)
    (hb : IsIdom E root b v) : a = b := by
  obtain ⟨l, hl⟩ := exists_walk hreach
  obtain ⟨m, hm, -⟩ := hl.exists_upto (ha.dominates l hl)
  exact (hb.closest a ha.dominates ha.ne).antisymm (hm.reflTransGen hm.head_mem)
    (ha.closest b hb.dominates hb.ne)

/-! ### Lists with the dominators first -/

section

variable [DecidableEq α] {l : List α}

theorem mem_takeWhile_iff_idxOf_lt : a ∈ l.takeWhile (· ≠ b) ↔ l.idxOf a < l.idxOf b := by
  induction l with
  | nil => simp
  | cons x l ih =>
    by_cases hxb : x = b
    · simp [hxb]
    · by_cases hxa : x = a
      · simp [hxa, hxa ▸ hxb, List.idxOf_cons_ne]
      · rw [List.takeWhile_cons_of_pos (by simpa using hxb), List.mem_cons, ih,
          List.idxOf_cons_ne _ hxb, List.idxOf_cons_ne _ hxa]
        simp [Ne.symm hxa]

theorem idxOf_lt_of_append {l₁ l₂ : List α} (hnodup : (l₁ ++ b :: l₂).Nodup) (ha : a ∈ l₁) :
    (l₁ ++ b :: l₂).idxOf a < (l₁ ++ b :: l₂).idxOf b := by
  have hb : b ∉ l₁ := fun hb ↦ (List.nodup_append.1 hnodup).2.2 b hb b List.mem_cons_self rfl
  rw [List.idxOf_append_of_mem ha, List.idxOf_append_of_notMem hb]
  have := List.idxOf_lt_length_of_mem ha
  omega

/-- Immediate dominators come before what they dominate. -/
def IdomsFirst (E : α → α → Prop) (root : α) (l : List α) : Prop :=
  ∀ v ∈ l, ∀ p, IsIdom E root p v → l.idxOf p < l.idxOf v

/-- All but the root come after a vertex with an edge to them. -/
def FoundFirst (E : α → α → Prop) (root : α) (l : List α) : Prop :=
  ∀ l₁ w l₂, l = l₁ ++ w :: l₂ → w = root ∨ ∃ u ∈ l₁, E u w

omit [DecidableEq α] in
/-- The parts of a list with one vertex more. -/
theorem append_eq_cases {l₁ l₂ : List α} (heq : l ++ [b] = l₁ ++ a :: l₂) :
    l₁ = l ∧ a = b ∨ ∃ l₂', l = l₁ ++ a :: l₂' := by
  rcases List.eq_nil_or_concat' l₂ with rfl | ⟨l₂', x, rfl⟩
  · obtain ⟨rfl, hw⟩ := List.append_inj' heq rfl
    exact .inl ⟨rfl, (List.singleton_injective hw).symm⟩
  · rw [← List.cons_append, ← List.append_assoc] at heq
    exact .inr ⟨l₂', (List.append_inj' heq rfl).1⟩

omit [DecidableEq α] in
theorem FoundFirst.append (h : FoundFirst E root l) (hb : ∃ a ∈ l, E a b) :
    FoundFirst E root (l ++ [b]) := by
  intro l₁ w l₂ heq
  rcases append_eq_cases heq with ⟨rfl, rfl⟩ | ⟨l₂', hl⟩
  · exact .inr hb
  · exact h l₁ w l₂' hl

omit [DecidableEq α] in
/-- There is a walk to each vertex through the ones before it. -/
theorem FoundFirst.exists_walk (h : FoundFirst E root l) {l₁ l₂ : List α} (hl : l = l₁ ++ v :: l₂) :
    ∃ m, Walk E root m v ∧ ∀ x ∈ m, x ∈ l₁ ∨ x = v := by
  induction hn : l₁.length using Nat.strong_induction_on generalizing v l₁ l₂ with
  | _ n ih =>
    rcases h l₁ v l₂ hl with rfl | ⟨u, hu, huv⟩
    · exact ⟨[v], .nil v, by simp⟩
    · obtain ⟨a, b, rfl⟩ := List.append_of_mem hu
      obtain ⟨m, hm, hsub⟩ := @ih a.length (by simp at hn; omega) u a (b ++ v :: l₂)
        (by rw [hl]; simp) rfl
      refine ⟨m ++ [v], hm.concat huv, fun x hx ↦ ?_⟩
      rcases List.mem_append.1 hx with hx | hx
      · left
        rcases hsub x hx with hxa | rfl
        · exact List.mem_append_left _ hxa
        · exact hu
      · exact .inr (List.mem_singleton.1 hx)

/-- **A list in the order of discovery has the immediate dominators first.** -/
theorem FoundFirst.idomsFirst (h : FoundFirst E root l) (hnodup : l.Nodup) : IdomsFirst E root l := by
  intro v hv p hp
  obtain ⟨l₁, l₂, rfl⟩ := List.append_of_mem hv
  obtain ⟨m, hm, hsub⟩ := h.exists_walk rfl
  exact idxOf_lt_of_append hnodup ((hsub p (hp.dominates m hm)).resolve_right hp.ne)

variable (hreach : ∀ v ∈ l, Relation.ReflTransGen E root v) (hfirst : IdomsFirst E root l)

include hreach hfirst in
/-- **Then all strict dominators do.** -/
theorem IdomsFirst.idxOf_lt (hv : v ∈ l) (hdom : Dominates E root d v) (hne : d ≠ v) :
    l.idxOf d < l.idxOf v := by
  induction hn : l.idxOf v using Nat.strong_induction_on generalizing v with
  | _ n ih =>
    subst hn
    have hvr : v ≠ root := by
      rintro rfl
      exact hne (dominates_root_iff.1 hdom)
    obtain ⟨p, hp⟩ := exists_isIdom (hreach v hv) hvr
    have hpv := hfirst v hv p hp
    by_cases hdp : d = p
    · rwa [hdp]
    · have hmem : p ∈ l := List.idxOf_lt_length_iff.1 (hpv.trans (List.idxOf_lt_length_of_mem hv))
      exact (ih _ hpv hmem (hp.closest d hdom hne) hdp rfl).trans hpv

include hreach hfirst in
/-- **The strict dominator that comes last before a vertex is the immediate one.** -/
theorem IdomsFirst.isIdom_of_last (hnodup : l.Nodup) (hv : v ∈ l) {l₁ l₂ : List α}
    (hsplit : l.takeWhile (· ≠ v) = l₁ ++ d :: l₂) (hd : Dominates E root d v)
    (hlast : ∀ x ∈ l₂, ¬Dominates E root x v) : IsIdom E root d v := by
  have hmem : ∀ x, x ∈ l₁ ++ d :: l₂ ↔ l.idxOf x < l.idxOf v := fun x ↦ by
    rw [← hsplit, mem_takeWhile_iff_idxOf_lt]
  have hdv : d ≠ v := by
    rintro rfl
    exact absurd ((hmem d).1 (by simp)) (lt_irrefl _)
  refine ⟨hd, hdv, fun d' hd' hne ↦ ?_⟩
  have hd'l := (hmem d').2 (IdomsFirst.idxOf_lt hreach hfirst hv hd' hne)
  rcases hd'.total hd (hreach v hv) with h | hdd'
  · exact h
  by_cases heq : d = d'
  · exact heq ▸ Dominates.refl E root d
  -- `d'` stands before `d`, and is dominated by it
  obtain ⟨tail, htail⟩ := List.takeWhile_prefix (p := (decide <| · ≠ v)) (l := l)
  rw [hsplit, List.append_assoc, List.cons_append] at htail
  have hd'₁ : d' ∈ l₁ := by
    rcases List.mem_append.1 hd'l with h | h
    · exact h
    · rcases List.mem_cons.1 h with h | h
      · exact absurd h.symm heq
      · exact absurd hd' (hlast d' h)
  have hmem' : d' ∈ l := by
    rw [← htail]
    exact List.mem_append_left _ hd'₁
  have hlt := IdomsFirst.idxOf_lt hreach hfirst hmem' hdd' heq
  rw [← htail] at hnodup hlt
  exact absurd (idxOf_lt_of_append hnodup hd'₁) (by omega)

end

end OpenImpact.Foundation
