import OpenImpact.Library.Graph
import Mathlib.Algebra.BigOperators.Group.Finset.Basic
import Mathlib.Algebra.Order.BigOperators.Group.Finset
import Mathlib.Data.Finset.Card

/-!
# The dominator sweeps end

`Graph_dominator` and `Graph_post_dominator` sweep over the nodes until no set changes. Every set a
sweep replaces shrinks (`Shrinking`), so the sum of the cardinalities bounds the number of sweeps, and
the run returns (`computeDom_ok`).
-/

namespace OpenImpact.Graph

variable {adj : Id → List Id} {other : Id → Id} {nodes : List Id}
  {dom dom' : Id → Option (Finset Id)} {v : Id}

/-- The set of a node, empty for `NULL`. -/
def domSet (dom : Id → Option (Finset Id)) (v : Id) : Finset Id := (dom v).getD ∅

/-- What `new_dom` contains when no predecessor's set is `NULL`. -/
theorem mem_newDom (hsome : ∀ a ∈ adj v, dom (other a) ≠ none) {x : Id} :
    x ∈ (newDom adj other dom v).getD ∅ ↔
      x = v ∨ adj v ≠ [] ∧ ∀ a ∈ adj v, x ∈ domSet dom (other a) := by
  have hfold : ∀ (l : List Id) (s : Finset Id), (∀ a ∈ l, dom (other a) ≠ none) →
      ∃ t, l.foldl (fun acc arc ↦ meetDom acc (dom (other arc))) (some s) = some t ∧
        ∀ x, x ∈ t ↔ x ∈ s ∧ ∀ a ∈ l, x ∈ domSet dom (other a) := by
    intro l
    induction l with
    | nil => exact fun s _ ↦ ⟨s, rfl, by simp⟩
    | cons a l ih =>
      intro s hl
      obtain ⟨p, hp⟩ := Option.ne_none_iff_exists'.1 (hl a List.mem_cons_self)
      obtain ⟨t, ht, hmem⟩ := ih (s ∩ p) fun b hb ↦ hl b (List.mem_cons_of_mem _ hb)
      refine ⟨t, by rw [List.foldl_cons, hp]; exact ht, fun x ↦ ?_⟩
      rw [hmem, Finset.mem_inter, List.forall_mem_cons, domSet, hp, Option.getD_some, and_assoc]
  rw [newDom, addDom, Option.getD_some, Finset.mem_insert]
  refine or_congr_right ?_
  cases hadj : adj v with
  | nil => simp
  | cons a l =>
    rw [hadj] at hsome
    obtain ⟨p, hp⟩ := Option.ne_none_iff_exists'.1 (hsome a List.mem_cons_self)
    obtain ⟨t, ht, hmem⟩ := hfold l p fun b hb ↦ hsome b (List.mem_cons_of_mem _ hb)
    rw [List.foldl_cons, meetDom, hp, ht, Option.getD_some, hmem, List.forall_mem_cons,
      domSet, hp, Option.getD_some]
    simp

theorem newDom_ne_none (adj : Id → List Id) (other : Id → Id) (dom : Id → Option (Finset Id)) (v : Id) :
    newDom adj other dom v ≠ none := by
  simp [newDom, addDom]

/-- All sets are there, and recomputing one can only shrink it. -/
structure Shrinking (adj : Id → List Id) (other : Id → Id) (nodes : List Id)
    (dom : Id → Option (Finset Id)) : Prop where
  ne_none : ∀ v ∈ nodes, dom v ≠ none
  subset : ∀ v ∈ nodes, (newDom adj other dom v).getD ∅ ⊆ domSet dom v

/-- The sum of the cardinalities of the sets. -/
def weight (nodes : List Id) (dom : Id → Option (Finset Id)) : ℕ :=
  ∑ v ∈ nodes.toFinset, (domSet dom v).card

section

variable (hadj : ∀ v ∈ nodes, ∀ a ∈ adj v, other a ∈ nodes)

include hadj in
/-- **Replacing a set keeps the sets shrinking**, and loses weight. -/
theorem Shrinking.update (h : Shrinking adj other nodes dom) (hv : v ∈ nodes)
    (hne : newDom adj other dom v ≠ dom v) :
    Shrinking adj other nodes (Function.update dom v (newDom adj other dom v)) ∧
      weight nodes (Function.update dom v (newDom adj other dom v)) < weight nodes dom := by
  have hsub : ∀ w ∈ nodes, domSet (Function.update dom v (newDom adj other dom v)) w ⊆
      domSet dom w := by
    intro w hw
    by_cases hwv : w = v
    · subst hwv
      simpa [domSet] using h.subset w hw
    · simp [domSet, hwv]
  have hnone : ∀ w ∈ nodes, Function.update dom v (newDom adj other dom v) w ≠ none := by
    intro w hw
    by_cases hwv : w = v
    · subst hwv
      simpa using newDom_ne_none adj other dom w
    · simpa [hwv] using h.ne_none w hw
  have hold : ∀ w ∈ nodes, ∀ a ∈ adj w, dom (other a) ≠ none := fun w hw a ha ↦
    h.ne_none _ (hadj w hw a ha)
  have hnew : ∀ w ∈ nodes, ∀ a ∈ adj w,
      Function.update dom v (newDom adj other dom v) (other a) ≠ none := fun w hw a ha ↦
    hnone _ (hadj w hw a ha)
  -- recomputing is monotone, so a recomputed set is below the recomputed old one
  have hmono : ∀ w ∈ nodes, (newDom adj other (Function.update dom v (newDom adj other dom v))
      w).getD ∅ ⊆ (newDom adj other dom w).getD ∅ := by
    intro w hw x hx
    rw [mem_newDom (hnew w hw)] at hx
    rw [mem_newDom (hold w hw)]
    exact hx.imp_right fun hx ↦ ⟨hx.1, fun a ha ↦ hsub _ (hadj w hw a ha) (hx.2 a ha)⟩
  refine ⟨⟨hnone, fun w hw ↦ (hmono w hw).trans ?_⟩, ?_⟩
  · by_cases hwv : w = v
    · subst hwv
      simp [domSet]
    · simpa [domSet, hwv] using h.subset w hw
  · refine Finset.sum_lt_sum (fun w hw ↦ Finset.card_le_card (hsub w (List.mem_toFinset.1 hw)))
      ⟨v, List.mem_toFinset.2 hv, Finset.card_lt_card ?_⟩
    refine (hsub v hv).ssubset_of_ne fun heq ↦ hne ?_
    obtain ⟨s, hs⟩ := Option.ne_none_iff_exists'.1 (h.ne_none v hv)
    obtain ⟨t, ht⟩ := Option.ne_none_iff_exists'.1 (newDom_ne_none adj other dom v)
    simp only [domSet, Function.update_self, ht, hs, Option.getD_some] at heq
    rw [ht, hs, heq]

include hadj in
/-- **A sweep** keeps the sets shrinking, and loses weight if it reports a change. -/
theorem domSweep_spec {l : List Id} (hl : ∀ v ∈ l, v ∈ nodes)
    (h : Shrinking adj other nodes dom) :
    Shrinking adj other nodes (domSweep adj other l dom).1 ∧
      weight nodes (domSweep adj other l dom).1 ≤ weight nodes dom ∧
      ((domSweep adj other l dom).2 = true →
        weight nodes (domSweep adj other l dom).1 < weight nodes dom) ∧
      ∀ v, v ∉ nodes → (domSweep adj other l dom).1 v = dom v := by
  induction l generalizing dom with
  | nil => exact ⟨h, le_rfl, by simp [domSweep], fun _ _ ↦ rfl⟩
  | cons v l ih =>
    have hrest : ∀ v ∈ l, v ∈ nodes := fun w hw ↦ hl w (List.mem_cons_of_mem _ hw)
    rw [domSweep]
    split_ifs with heq
    · exact ih hrest h
    · have hv := hl v List.mem_cons_self
      obtain ⟨hupd, hlt⟩ := h.update hadj hv heq
      obtain ⟨hshr, hle, -, hframe⟩ := ih hrest hupd
      refine ⟨hshr, hle.trans hlt.le, fun _ ↦ hle.trans_lt hlt, fun w hw ↦ (hframe w hw).trans ?_⟩
      have hwv : w ≠ v := by
        rintro rfl
        exact hw hv
      exact Function.update_of_ne hwv _ _

include hadj in
/-- With more fuel than weight, the sweeps come to an end. -/
theorem domLoop_ok {fuel : ℕ} (h : Shrinking adj other nodes dom)
    (hfuel : weight nodes dom < fuel) :
    ∃ dom', domLoop adj other nodes fuel dom = .ok dom' ∧ ∀ v, v ∉ nodes → dom' v = dom v := by
  induction fuel generalizing dom with
  | zero => omega
  | succ fuel ih =>
    obtain ⟨hshr, -, hlt, hframe⟩ := domSweep_spec hadj (fun _ hv ↦ hv) h
    rw [domLoop]
    simp only
    split_ifs with hchange
    · have := hlt hchange
      obtain ⟨dom', hrun, hframe'⟩ := ih hshr (by omega)
      exact ⟨dom', hrun, fun v hv ↦ (hframe' v hv).trans (hframe v hv)⟩
    · exact ⟨_, rfl, hframe⟩

include hadj in
/-- **The computation of the sets returns**, and leaves other nodes alone. -/
theorem computeDom_ok (dom : Id → Option (Finset Id)) :
    ∃ dom', computeDom adj other nodes dom = .ok dom' ∧ ∀ v, v ∉ nodes → dom' v = dom v := by
  have hinit : ∀ v ∈ nodes, ∃ s, domInit adj nodes dom v = some s ∧ s ⊆ nodes.toFinset ∧
      (adj v ≠ [] → s = nodes.toFinset) ∧ v ∈ s := by
    intro v hv
    rw [domInit, if_pos hv]
    split_ifs with hlen
    · exact ⟨_, rfl, subset_rfl, fun _ ↦ rfl, List.mem_toFinset.2 hv⟩
    · refine ⟨_, rfl, by simpa using hv, fun hne ↦ ?_, Finset.mem_singleton_self v⟩
      exact absurd (List.length_eq_zero_iff.1 (not_not.1 hlen)) hne
  have hnone : ∀ v ∈ nodes, domInit adj nodes dom v ≠ none := fun v hv ↦ by
    obtain ⟨s, hs, -⟩ := hinit v hv
    simp [hs]
  have hshr : Shrinking adj other nodes (domInit adj nodes dom) := by
    refine ⟨hnone, fun v hv x hx ↦ ?_⟩
    rw [mem_newDom fun a ha ↦ hnone _ (hadj v hv a ha)] at hx
    obtain ⟨s, hs, -, hall, hvs⟩ := hinit v hv
    rw [domSet, hs, Option.getD_some]
    rcases hx with rfl | ⟨hne, hx⟩
    · exact hvs
    · obtain ⟨a, ha⟩ := List.exists_mem_of_ne_nil _ hne
      obtain ⟨t, ht, hsub, -⟩ := hinit _ (hadj v hv a ha)
      have hxa := hx a ha
      rw [domSet, ht, Option.getD_some] at hxa
      exact hall hne ▸ hsub hxa
  have hweight : weight nodes (domInit adj nodes dom) ≤ nodes.length * nodes.length := by
    have hcard : ∀ v ∈ nodes.toFinset, (domSet (domInit adj nodes dom) v).card ≤ nodes.length := by
      intro v hv
      obtain ⟨s, hs, hsub, -⟩ := hinit v (List.mem_toFinset.1 hv)
      rw [domSet, hs, Option.getD_some]
      exact (Finset.card_le_card hsub).trans (List.toFinset_card_le _)
    calc weight nodes (domInit adj nodes dom)
        ≤ ∑ _v ∈ nodes.toFinset, nodes.length := Finset.sum_le_sum hcard
      _ = nodes.toFinset.card * nodes.length := Finset.sum_const_nat fun _ _ ↦ rfl
      _ ≤ nodes.length * nodes.length :=
          Nat.mul_le_mul_right _ (List.toFinset_card_le _)
  obtain ⟨dom', hrun, hframe⟩ := domLoop_ok hadj hshr (Nat.lt_succ_of_le hweight)
  refine ⟨dom', hrun, fun v hv ↦ (hframe v hv).trans ?_⟩
  rw [domInit, if_neg hv]

end

/-- `Graph_dominator` returns, and records its result in the `dom` sets only. -/
theorem dominator_ok {S : Shape} (hS : S.WF) (M : Marks) :
    ∃ dom, dominator S M = .ok { M with dom := dom, flags := { M.flags with dom := true } } := by
  rw [dominator]
  split_ifs with hflag
  · exact ⟨M.dom, by rw [← hflag]; rfl⟩
  · have hadj : ∀ v ∈ S.nodes, ∀ a ∈ S.pred v, S.arcPred a ∈ S.nodes := fun v _ a ha ↦
      hS.arcPred_mem a ((hS.mem_pred v a).1 ha).1
    obtain ⟨dom', hrun, -⟩ := computeDom_ok hadj M.dom
    exact ⟨dom', by rw [hrun]; rfl⟩

/-- `Graph_post_dominator` returns. -/
theorem postDominator_total {S : Shape} (hS : S.WF) (M : Marks) :
    ∃ M', postDominator S M = .ok M' := by
  rw [postDominator]
  split_ifs
  · exact ⟨M, rfl⟩
  · obtain ⟨postDom, hrun, -⟩ := computeDom_ok
      (fun v _ a ha ↦ hS.arcSucc_mem a ((hS.mem_succ v a).1 ha).1) M.postDom
    exact ⟨_, by rw [hrun]; rfl⟩

end OpenImpact.Graph
