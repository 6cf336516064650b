import OpenImpact.Library.GraphDfs
import Mathlib.Data.Finset.Filter

/-!
# Counting paths

`Graph_count_paths` counts in `info` the paths from the root. A node is visited when all arcs into it
have been crossed: `tflags` counts the ones that have not. Back-edges, the arcs to dominators, are
counted as crossed and not followed.

A node is visited once, so the recursion is no deeper than the graph has nodes
(`countPathsVisit_spec`).
-/

namespace OpenImpact.Graph

/-- The two fields of the nodes that a count reads and writes. -/
structure Counts where
  tflags : Id → ℤ
  info : Id → ℤ

/-- `INT_MAX`. -/
def intMax : ℤ := 2147483647

/-- `succ->tflags--`. -/
def Counts.decr (v : Id) (c : Counts) : Counts :=
  { c with tflags := Function.update c.tflags v (c.tflags v - 1) }

/-- `succ->info += node->info`. -/
def Counts.add (node v : Id) (c : Counts) : Run Counts :=
  if c.info v + c.info node ≤ intMax then
    return { c with info := Function.update c.info v (c.info v + c.info node) }
  else .error .overflow

theorem Counts.add_spec (node v : Id) (c : Counts) : c.add node v = .error .overflow ∨
    ∃ c', c.add node v = .ok c' ∧ c'.tflags = c.tflags ∧ ∀ w, w ≠ v → c'.info w = c.info w := by
  rw [Counts.add]
  split_ifs with h
  · exact .inr ⟨_, rfl, rfl, fun w hw ↦ Function.update_of_ne hw _ _⟩
  · exact .inl rfl

/-- The body of the loop of `Graph_count_paths_visit`, given how a node is visited. -/
def countPathsArc (S : Shape) (dom : Id → Option (Finset Id)) (visit : Id → Counts → Run Counts)
    (node : Id) (c : Counts) (arc : Id) : Run Counts :=
  if S.arcSucc arc ∈ (dom node).getD ∅ then .ok (c.decr (S.arcSucc arc))
  else do
    let c ← (c.decr (S.arcSucc arc)).add node (S.arcSucc arc)
    visit (S.arcSucc arc) c

/-- `Graph_count_paths_visit`. -/
def countPathsVisit (S : Shape) (dom : Id → Option (Finset Id)) : ℕ → Id → Counts → Run Counts
  | 0, _, _ => .error .outOfFuel
  | fuel + 1, node, c =>
    if c.tflags node ≠ 0 then .ok c
    else (S.succ node).foldlM (countPathsArc S dom (countPathsVisit S dom fuel) node) c

/-- The loop that initializes the predecessor counts, and the root. -/
def countsInit (S : Shape) (root : Id) (M : Marks) : Counts where
  tflags := Function.update (fun v ↦ if v ∈ S.nodes then ((S.pred v).length : ℤ) else M.tflags v) root 0
  info := Function.update (fun v ↦ if v ∈ S.nodes then 0 else M.info v) root 1

/-- `Graph_count_paths`. -/
def countPaths (S : Shape) (M : Marks) : Run Marks :=
  if M.flags.countPath then return M
  else do
    let M ← dominator S M
    let root ← S.getRoot
    let c ← countPathsVisit S M.dom S.fuel root (countsInit S root M)
    return { M with
      tflags := c.tflags
      info := c.info
      flags := { M.flags with countPath := true } }

/-! ### The recursion -/

/-- The recursion part way: `E` are the nodes visited and `P` the arcs crossed. -/
structure Counting (S : Shape) (root : Id) (E P : Finset Id) (tflags : Id → ℤ) : Prop where
  arcs : ∀ a ∈ P, a ∈ S.arcs
  src : ∀ a ∈ P, S.arcPred a ∈ E
  root_mem : root ∈ E
  mem_nodes : ∀ v ∈ E, v ∈ S.nodes
  /-- What is left to cross. -/
  count : ∀ v ∈ S.nodes, v ≠ root →
    tflags v = (S.pred v).length - (P.filter fun a ↦ S.arcSucc a = v).card
  count_root : tflags root = -((P.filter fun a ↦ S.arcSucc a = root).card : ℤ)
  /-- A node is visited when all arcs into it have been crossed. -/
  crossed : ∀ v ∈ E, v ≠ root → ∀ a ∈ S.pred v, a ∈ P

variable {S : Shape} {root : Id} {E P : Finset Id}

/-- Crossing an arc keeps the counts. -/
theorem Counting.decr {c : Counts} (h : Counting S root E P c.tflags) {a : Id} (ha : a ∈ S.arcs)
    (haP : a ∉ P) (hsrc : S.arcPred a ∈ E) :
    Counting S root E (insert a P) (c.decr (S.arcSucc a)).tflags := by
  have hcard : ∀ v, ((insert a P).filter fun b ↦ S.arcSucc b = v).card =
      (P.filter fun b ↦ S.arcSucc b = v).card + if S.arcSucc a = v then 1 else 0 := by
    intro v
    rw [Finset.filter_insert]
    split_ifs with hv
    · rw [Finset.card_insert_of_notMem fun hmem ↦ haP (Finset.mem_filter.1 hmem).1]
    · rfl
  refine ⟨fun b hb ↦ ?_, fun b hb ↦ ?_, h.root_mem, h.mem_nodes, fun v hv hne ↦ ?_, ?_,
    fun v hv hne b hb ↦ Finset.mem_insert_of_mem (h.crossed v hv hne b hb)⟩
  · rcases Finset.mem_insert.1 hb with rfl | hb
    · exact ha
    · exact h.arcs b hb
  · rcases Finset.mem_insert.1 hb with rfl | hb
    · exact hsrc
    · exact h.src b hb
  · have := h.count v hv hne
    rw [hcard, Counts.decr]
    by_cases hav : v = S.arcSucc a
    · subst hav
      simp only [Function.update_self, if_true]
      omega
    · simp only [Function.update_of_ne hav, Ne.symm hav, if_false]
      omega
  · have := h.count_root
    rw [hcard, Counts.decr]
    by_cases hav : root = S.arcSucc a
    · simp only [hav, Function.update_self, if_true] at this ⊢
      omega
    · simp only [Function.update_of_ne hav, Ne.symm hav, if_false]
      omega

variable (hS : S.WF)

include hS in
/-- When nothing is left to cross into a node, all arcs into it have been crossed. -/
theorem Counting.all_crossed {T : Id → ℤ} (h : Counting S root E P T) {v : Id} (hv : v ∈ S.nodes)
    (hne : v ≠ root) (hzero : T v = 0) : ∀ a ∈ S.pred v, a ∈ P := by
  have hsub : (P.filter fun a ↦ S.arcSucc a = v) ⊆ (S.pred v).toFinset := by
    intro a ha
    obtain ⟨haP, heq⟩ := Finset.mem_filter.1 ha
    exact List.mem_toFinset.2 ((hS.mem_pred v a).2 ⟨h.arcs a haP, heq⟩)
  have hcard : (S.pred v).toFinset.card = (S.pred v).length :=
    List.toFinset_card_of_nodup (hS.nodup_pred v)
  have hcount := h.count v hv hne
  have heq := Finset.eq_of_subset_of_card_le hsub (by omega)
  intro a ha
  rw [← List.mem_toFinset, ← heq] at ha
  exact (Finset.mem_filter.1 ha).1

/-- What a part of the recursion did, from `E`, `P` and `c`: it overflowed, or returned `c'`. The arcs
crossed come from `es` or from nodes that had not been visited. -/
def Counted (S : Shape) (root : Id) (E P : Finset Id) (c : Counts) (es : List Id)
    (run : Run Counts) : Prop :=
  run = .error .overflow ∨ ∃ E' P' c', run = .ok c' ∧ Counting S root E' P' c'.tflags ∧ E ⊆ E' ∧
    (∀ a ∈ P', a ∈ P ∨ a ∈ es ∨ S.arcPred a ∉ E) ∧
    ∀ v, v ∉ S.nodes → c'.tflags v = c.tflags v ∧ c'.info v = c.info v

/-- What the rest of the arcs do after `a` is what all of them do from the state before `a`, which led to
arcs out of nodes that had not been visited. -/
theorem Counted.cons {E₁ P₁ : Finset Id} {c c₁ : Counts} {a : Id} {es : List Id} {run : Run Counts}
    (h : Counted S root E₁ P₁ c₁ es run) (hE : E ⊆ E₁)
    (hP : ∀ b ∈ P₁, b ∈ insert a P ∨ S.arcPred b ∉ E)
    (hc : ∀ v, v ∉ S.nodes → c₁.tflags v = c.tflags v ∧ c₁.info v = c.info v) :
    Counted S root E P c (a :: es) run := by
  rcases h with hover | ⟨E₂, P₂, c₂, hrun, h₂, hE₂, hP₂, hc₂⟩
  · exact .inl hover
  refine .inr ⟨E₂, P₂, c₂, hrun, h₂, hE.trans hE₂, fun b hb ↦ ?_, fun v hv ↦
    ⟨(hc₂ v hv).1.trans (hc v hv).1, (hc₂ v hv).2.trans (hc v hv).2⟩⟩
  rcases hP₂ b hb with hb | hb | hb
  · rcases hP b hb with hb | hb
    · rcases Finset.mem_insert.1 hb with rfl | hb
      · exact .inr (.inl List.mem_cons_self)
      · exact .inl hb
    · exact .inr (.inr hb)
  · exact .inr (.inl (List.mem_cons_of_mem _ hb))
  · exact .inr (.inr fun hmem ↦ hb (hE hmem))

/-- The count of the root goes below zero when an arc into it is crossed. -/
theorem Counting.arcSucc_ne_root {T : Id → ℤ} {a : Id} (h : Counting S root E P T) (ha : a ∈ P)
    (hzero : T (S.arcSucc a) = 0) : S.arcSucc a ≠ root := by
  intro heq
  have hpos : 0 < (P.filter fun b ↦ S.arcSucc b = root).card :=
    Finset.card_pos.2 ⟨a, Finset.mem_filter.2 ⟨ha, heq⟩⟩
  have hroot := h.count_root
  rw [heq] at hzero
  omega

include hS in
/-- A node into which nothing is left to cross can be visited. -/
theorem Counting.visit {T : Id → ℤ} {v : Id} (h : Counting S root E P T) (hv : v ∈ S.nodes)
    (hne : v ≠ root) (hzero : T v = 0) : Counting S root (insert v E) P T := by
  refine ⟨h.arcs, fun b hb ↦ Finset.mem_insert_of_mem (h.src b hb),
    Finset.mem_insert_of_mem h.root_mem, fun w hw ↦ ?_, h.count, h.count_root, fun w hw hw' ↦ ?_⟩
  · rcases Finset.mem_insert.1 hw with rfl | hw
    · exact hv
    · exact h.mem_nodes w hw
  · rcases Finset.mem_insert.1 hw with rfl | hw
    · exact h.all_crossed hS hv hne hzero
    · exact h.crossed w hw hw'

include hS in
/-- **The loop over the arcs of a visited node** returns or overflows. The induction is on the fuel,
which exceeds the number of nodes not visited, and for one fuel on the arcs. -/
theorem foldlM_countPathsArc (dom : Id → Option (Finset Id)) {fuel : ℕ} {node : Id} {es : List Id}
    {c : Counts} (h : Counting S root E P c.tflags) (hnode : node ∈ E)
    (hes : ∀ a ∈ es, a ∈ S.succ node ∧ a ∉ P) (hnodup : es.Nodup)
    (hfuel : (S.nodes.toFinset \ E).card < fuel) :
    Counted S root E P c es
      (es.foldlM (countPathsArc S dom (countPathsVisit S dom fuel) node) c) := by
  induction fuel generalizing node es E P c with
  | zero => omega
  | succ fuel ihfuel =>
  induction es generalizing E P c with
  | nil => exact .inr ⟨E, P, c, rfl, h, subset_rfl, fun a ha ↦ .inl ha, fun _ _ ↦ ⟨rfl, rfl⟩⟩
  | cons a es ih =>
    rw [List.forall_mem_cons] at hes
    obtain ⟨ha, hnodup⟩ := List.nodup_cons.1 hnodup
    obtain ⟨harc, hsrc⟩ := (hS.mem_succ node a).1 hes.1.1
    have hdest := hS.arcSucc_mem a harc
    have hstep := h.decr harc hes.1.2 (hsrc ▸ hnode)
    have hframe : ∀ v, v ∉ S.nodes → (c.decr (S.arcSucc a)).tflags v = c.tflags v ∧
        (c.decr (S.arcSucc a)).info v = c.info v := fun v hv ↦
      ⟨Function.update_of_ne (ne_of_mem_of_not_mem hdest hv).symm _ _, rfl⟩
    -- the rest of the loop, after what `a` led to
    have hrest : ∀ {E₁ P₁ : Finset Id} {c₁ : Counts}, Counting S root E₁ P₁ c₁.tflags → E ⊆ E₁ →
        (∀ b ∈ P₁, b ∈ insert a P ∨ S.arcPred b ∉ E) →
        (∀ v, v ∉ S.nodes → c₁.tflags v = c.tflags v ∧ c₁.info v = c.info v) →
        Counted S root E P c (a :: es)
          (es.foldlM (countPathsArc S dom (countPathsVisit S dom (fuel + 1)) node) c₁) := by
      intro E₁ P₁ c₁ h₁ hE hP hc
      have hes₁ : ∀ b ∈ es, b ∈ S.succ node ∧ b ∉ P₁ := by
        refine fun b hb ↦ ⟨(hes.2 b hb).1, fun hbP ↦ ?_⟩
        rcases hP b hbP with hb' | hb'
        · rcases Finset.mem_insert.1 hb' with rfl | hb'
          · exact ha hb
          · exact (hes.2 b hb).2 hb'
        · exact hb' (((hS.mem_succ node b).1 (hes.2 b hb).1).2 ▸ hnode)
      have hcard := Finset.card_le_card (Finset.sdiff_subset_sdiff
        (subset_refl S.nodes.toFinset) hE)
      exact (ih h₁ (hE hnode) hes₁ hnodup (by omega)).cons hE hP hc
    rw [List.foldlM_cons, countPathsArc]
    split_ifs with hback
    · exact hrest hstep subset_rfl (fun b hb ↦ .inl hb) hframe
    rcases Counts.add_spec node (S.arcSucc a) (c.decr (S.arcSucc a)) with
      hover | ⟨c', hadd, htflags, hinfo⟩
    · exact .inl (by rw [hover]; rfl)
    have hframe' : ∀ v, v ∉ S.nodes → c'.tflags v = c.tflags v ∧ c'.info v = c.info v :=
      fun v hv ↦ ⟨htflags ▸ (hframe v hv).1,
        (hinfo v (ne_of_mem_of_not_mem hdest hv).symm).trans (hframe v hv).2⟩
    rw [← htflags] at hstep
    rw [hadd, Run.ok_bind, countPathsVisit]
    split_ifs with hzero
    · exact hrest hstep subset_rfl (fun b hb ↦ .inl hb) hframe'
    · -- `a` was the last arc into its node, which is visited
      have hroot := hstep.arcSucc_ne_root (Finset.mem_insert_self a P) (not_not.1 hzero)
      have hnew : S.arcSucc a ∉ E := fun hmem ↦
        hes.1.2 (h.crossed _ hmem hroot a ((hS.mem_pred _ a).2 ⟨harc, rfl⟩))
      have hvisit := hstep.visit hS hdest hroot (not_not.1 hzero)
      have hcard : (S.nodes.toFinset \ insert (S.arcSucc a) E).card < fuel := by
        have hmem : S.arcSucc a ∈ S.nodes.toFinset \ E :=
          Finset.mem_sdiff.2 ⟨List.mem_toFinset.2 hdest, hnew⟩
        have := Finset.card_erase_add_one hmem
        rw [Finset.sdiff_insert]
        omega
      have hsucc : ∀ b ∈ S.succ (S.arcSucc a), b ∈ S.succ (S.arcSucc a) ∧ b ∉ insert a P := by
        refine fun b hb ↦ ⟨hb, fun hbP ↦ hnew ?_⟩
        have := hstep.src b hbP
        rwa [((hS.mem_succ _ b).1 hb).2] at this
      rcases ihfuel hvisit (Finset.mem_insert_self _ _) hsucc (hS.nodup_succ _) hcard with
        hover' | ⟨E₁, P₁, c₁, hrun, h₁, hE₁, hP₁, hc₁⟩
      · exact .inl (by rw [hover']; rfl)
      · rw [hrun, Run.ok_bind]
        refine hrest h₁ ((Finset.subset_insert _ _).trans hE₁) (fun b hb ↦ ?_) fun v hv ↦
          ⟨(hc₁ v hv).1.trans (hframe' v hv).1, (hc₁ v hv).2.trans (hframe' v hv).2⟩
        rcases hP₁ b hb with hb | hb | hb
        · exact .inl hb
        · exact .inr (((hS.mem_succ _ b).1 hb).2 ▸ hnew)
        · exact .inr fun hmem ↦ hb (Finset.mem_insert_of_mem hmem)

include hS in
/-- **The count returns or overflows**, and changes `tflags` and `info` of the nodes only. -/
theorem countPathsVisit_root (dom : Id → Option (Finset Id)) (hr : root ∈ S.nodes) (M : Marks) :
    countPathsVisit S dom S.fuel root (countsInit S root M) = .error .overflow ∨
    ∃ c, countPathsVisit S dom S.fuel root (countsInit S root M) = .ok c ∧
      ∀ v, v ∉ S.nodes → c.tflags v = M.tflags v ∧ c.info v = M.info v := by
  have hinit : Counting S root {root} ∅ (countsInit S root M).tflags := by
    refine ⟨by simp, by simp, Finset.mem_singleton_self _, by simpa using hr, fun v hv hne ↦ ?_,
      by simp [countsInit], fun v hv hne ↦ absurd (Finset.mem_singleton.1 hv) hne⟩
    simp [countsInit, hne, hv]
  have hcard : (S.nodes.toFinset \ {root}).card < S.nodes.length := by
    have hmem : root ∈ S.nodes.toFinset := List.mem_toFinset.2 hr
    have := Finset.card_erase_add_one hmem
    have := S.nodes.toFinset_card_le
    rw [Finset.sdiff_singleton_eq_erase]
    omega
  have hzero : ¬(countsInit S root M).tflags root ≠ 0 := by simp [countsInit]
  rw [Shape.fuel, countPathsVisit, if_neg hzero]
  rcases foldlM_countPathsArc hS dom hinit (Finset.mem_singleton_self _)
    (fun a ha ↦ ⟨ha, Finset.notMem_empty a⟩) (hS.nodup_succ root) hcard with
    hover | ⟨E', P', c, hrun, -, -, -, hframe⟩
  · exact .inl hover
  · refine .inr ⟨c, hrun, fun v hv ↦ ?_⟩
    have hne : v ≠ root := (ne_of_mem_of_not_mem hr hv).symm
    have := hframe v hv
    simpa [countsInit, hne, hv] using this

end OpenImpact.Graph
