import OpenImpact.Foundation.NaturalLoop
import OpenImpact.Library.GraphDom

/-!
# The dominator sweeps are right

The sets the sweeps end with are a solution of the equations (`domLoop_solves`), and a sweep never drops
a dominator (`HasDominators.update`). So they are the sets of dominators (`computeDom_spec`), in whatever
order the nodes and the arcs at a node are listed.
-/

namespace OpenImpact.Graph

open Foundation

/-- The steps behind the sweeps: `adj` are the arcs into a node, and `other` where they come from. -/
def StepInto (adj : Id → List Id) (other : Id → Id) (x y : Id) : Prop := ∃ a ∈ adj y, other a = x

/-- The `dom` sets are the sets of dominators. -/
def IsDomSets (E : Id → Id → Prop) (root : Id) (nodes : List Id) (dom : Id → Option (Finset Id)) :
    Prop :=
  ∀ v ∈ nodes, ∃ s, dom v = some s ∧ ∀ d, d ∈ s ↔ d ∈ nodes ∧ Dominates E root d v

variable {adj : Id → List Id} {other : Id → Id} {nodes : List Id} {root : Id}
  {dom dom' : Id → Option (Finset Id)} {v : Id}

/-! ### Solutions -/

/-- A sweep without a change finds every set as its equation asks. -/
theorem domSweep_unchanged {l : List Id} (h : (domSweep adj other l dom).2 = false) :
    (domSweep adj other l dom).1 = dom ∧ ∀ v ∈ l, newDom adj other dom v = dom v := by
  induction l with
  | nil => exact ⟨rfl, by simp⟩
  | cons v l ih =>
    rw [domSweep] at h ⊢
    split_ifs at h ⊢ with heq
    obtain ⟨hsame, hall⟩ := ih h
    exact ⟨hsame, List.forall_mem_cons.2 ⟨heq, hall⟩⟩

/-- What replacing a set keeps, a sweep keeps. -/
theorem domSweep_keeps {P : (Id → Option (Finset Id)) → Prop}
    (hupd : ∀ dom, ∀ v ∈ nodes, P dom → P (Function.update dom v (newDom adj other dom v)))
    {l : List Id} (hl : ∀ v ∈ l, v ∈ nodes) (h : P dom) : P (domSweep adj other l dom).1 := by
  induction l generalizing dom with
  | nil => exact h
  | cons v l ih =>
    have hrest : ∀ w ∈ l, w ∈ nodes := fun w hw ↦ hl w (List.mem_cons_of_mem v hw)
    rw [domSweep]
    split_ifs with heq
    · exact ih hrest h
    · exact ih hrest (hupd dom v (hl v List.mem_cons_self) h)

/-- **The sweeps end with a solution**, and keep what replacing a set keeps. -/
theorem domLoop_solves {P : (Id → Option (Finset Id)) → Prop}
    (hupd : ∀ dom, ∀ v ∈ nodes, P dom → P (Function.update dom v (newDom adj other dom v)))
    {fuel : ℕ} (hP : P dom) (hrun : domLoop adj other nodes fuel dom = .ok dom') :
    P dom' ∧ ∀ v ∈ nodes, newDom adj other dom' v = dom' v := by
  induction fuel generalizing dom with
  | zero => cases hrun
  | succ fuel ih =>
    rw [domLoop] at hrun
    simp only at hrun
    split_ifs at hrun with hchange
    · exact ih (domSweep_keeps hupd (fun _ hw ↦ hw) hP) hrun
    · obtain ⟨hsame, hall⟩ := domSweep_unchanged (Bool.not_eq_true _ ▸ hchange)
      rw [hsame] at hrun
      obtain rfl : dom = dom' := Except.ok.inj hrun
      exact ⟨hP, hall⟩

/-! ### Dominators -/

/-- Every set is there, and holds nodes, with all dominators among them. -/
structure HasDominators (E : Id → Id → Prop) (root : Id) (nodes : List Id)
    (dom : Id → Option (Finset Id)) : Prop where
  ne_none : ∀ v ∈ nodes, dom v ≠ none
  mem_nodes : ∀ v ∈ nodes, ∀ d ∈ domSet dom v, d ∈ nodes
  mem : ∀ v ∈ nodes, ∀ d ∈ nodes, Dominates E root d v → d ∈ domSet dom v

section

variable (hadj : ∀ v ∈ nodes, ∀ a ∈ adj v, other a ∈ nodes)
  (hother : ∀ v ∈ nodes, v ≠ root → adj v ≠ [])

include hadj hother in
/-- **Replacing a set drops no dominator**: what dominates a node other than itself dominates all nodes
with an arc to it. -/
theorem HasDominators.update (h : HasDominators (StepInto adj other) root nodes dom) (hv : v ∈ nodes) :
    HasDominators (StepInto adj other) root nodes
      (Function.update dom v (newDom adj other dom v)) := by
  have hnew : ∀ d, d ∈ (newDom adj other dom v).getD ∅ ↔
      d = v ∨ adj v ≠ [] ∧ ∀ a ∈ adj v, d ∈ domSet dom (other a) := fun d ↦
    mem_newDom fun a ha ↦ h.ne_none _ (hadj v hv a ha)
  have hset : ∀ w, domSet (Function.update dom v (newDom adj other dom v)) w =
      if w = v then (newDom adj other dom v).getD ∅ else domSet dom w := by
    intro w
    by_cases hwv : w = v <;> simp [domSet, hwv]
  refine ⟨fun w hw ↦ ?_, fun w hw d hd ↦ ?_, fun w hw d hd hdom ↦ ?_⟩
  · by_cases hwv : w = v
    · simpa [hwv] using newDom_ne_none adj other dom v
    · simpa [hwv] using h.ne_none w hw
  · rw [hset] at hd
    split_ifs at hd with hwv
    · rcases (hnew d).1 hd with rfl | ⟨hne, hall⟩
      · exact hv
      · obtain ⟨a, ha⟩ := List.exists_mem_of_ne_nil _ hne
        exact h.mem_nodes _ (hadj v hv a ha) d (hall a ha)
    · exact h.mem_nodes w hw d hd
  · rw [hset]
    split_ifs with hwv
    · subst hwv
      rw [hnew]
      refine or_iff_not_imp_left.2 fun hdw ↦ ⟨hother w hw ?_, fun a ha ↦ ?_⟩
      · rintro rfl
        exact hdw (List.mem_singleton.1 (hdom _ (.nil w)))
      · exact h.mem _ (hadj w hw a ha) d hd (hdom.of_avoiding (.single ⟨⟨a, ha, rfl⟩, Ne.symm hdw⟩))
    · exact h.mem w hw d hd hdom

include hother in
theorem HasDominators.init (hroot : adj root = []) (dom : Id → Option (Finset Id)) :
    HasDominators (StepInto adj other) root nodes (domInit adj nodes dom) := by
  have hset : ∀ v ∈ nodes, domInit adj nodes dom v =
      some (if v = root then {v} else nodes.toFinset) := by
    intro v hv
    rw [domInit, if_pos hv]
    by_cases hvr : v = root
    · simp [hvr, hroot]
    · simp [hvr, hother v hv hvr]
  refine ⟨fun v hv ↦ by simp [hset v hv], fun v hv d hd ↦ ?_, fun v hv d hd hdom ↦ ?_⟩
  · rw [domSet, hset v hv, Option.getD_some] at hd
    split_ifs at hd
    · rwa [Finset.mem_singleton.1 hd]
    · exact List.mem_toFinset.1 hd
  · rw [domSet, hset v hv, Option.getD_some]
    split_ifs with hvr
    · subst hvr
      exact Finset.mem_singleton.2 (List.mem_singleton.1 (hdom _ (.nil v)))
    · exact List.mem_toFinset.2 hd

/-- What is in the set of a node of a solution dominates it. -/
theorem dominates_of_mem_domSet (hroot : adj root = [])
    (hsome : ∀ v ∈ nodes, ∀ a ∈ adj v, dom (other a) ≠ none)
    (hclosed : ∀ x y, StepInto adj other x y → x ∈ nodes → y ∈ nodes) (hr : root ∈ nodes)
    (hsol : ∀ v ∈ nodes, newDom adj other dom v = dom v) {d : Id} (hd : d ∈ domSet dom v) :
    Dominates (StepInto adj other) root d v := by
  have hmem : ∀ v ∈ nodes, ∀ d, d ∈ domSet dom v ↔
      d = v ∨ adj v ≠ [] ∧ ∀ a ∈ adj v, d ∈ domSet dom (other a) := fun v hv d ↦ by
    rw [domSet, ← hsol v hv, mem_newDom (hsome v hv)]
  rw [dominates_iff_not_avoiding]
  by_cases hdr : d = root
  · exact .inl hdr
  refine .inr fun hchain ↦ ?_
  suffices h : v ∈ nodes ∧ d ∉ domSet dom v from h.2 hd
  -- along a way from the root that avoids `d`, no set has `d`
  clear hd
  induction hchain with
  | refl => exact ⟨hr, by simp [hmem root hr, hdr, hroot]⟩
  | @tail b c _ hbc ih =>
    have hc := hclosed b c hbc.1 ih.1
    refine ⟨hc, fun hd ↦ ?_⟩
    obtain ⟨a, ha, rfl⟩ := hbc.1
    rcases (hmem c hc d).1 hd with rfl | ⟨-, hall⟩
    · exact hbc.2 rfl
    · exact ih.2 (hall a ha)

include hadj hother in
/-- **The computation of the sets is right.** -/
theorem computeDom_spec (hroot : adj root = []) (hr : root ∈ nodes)
    (hclosed : ∀ x y, StepInto adj other x y → x ∈ nodes → y ∈ nodes)
    (hrun : computeDom adj other nodes dom = .ok dom') :
    IsDomSets (StepInto adj other) root nodes dom' := by
  obtain ⟨hhas, hsol⟩ := domLoop_solves (P := HasDominators (StepInto adj other) root nodes)
    (fun _ v hv h ↦ h.update hadj hother hv) (HasDominators.init hother hroot dom) hrun
  have hsome : ∀ v ∈ nodes, ∀ a ∈ adj v, dom' (other a) ≠ none := fun v hv a ha ↦
    hhas.ne_none _ (hadj v hv a ha)
  intro v hv
  obtain ⟨s, hs⟩ := Option.ne_none_iff_exists'.1 (hhas.ne_none v hv)
  have hset : domSet dom' v = s := by rw [domSet, hs, Option.getD_some]
  refine ⟨s, hs, fun d ↦ ⟨fun hd ↦ ?_, fun hd ↦ ?_⟩⟩
  · rw [← hset] at hd
    exact ⟨hhas.mem_nodes v hv d hd, dominates_of_mem_domSet hroot hsome hclosed hr hsol hd⟩
  · rw [← hset]
    exact hhas.mem v hv d hd.1 hd.2

end

end OpenImpact.Graph
