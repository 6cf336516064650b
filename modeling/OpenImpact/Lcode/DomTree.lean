import OpenImpact.Lcode.DomCorrect
import OpenImpact.Lcode.DomFront

/-!
# The dominator tree

The second loop of `LD_dominator` adds one node after the other in front of the children of its
immediate dominator (`TreeUpTo`), so that `LD_dom_front` runs on a correct tree
(`dominator_isDomTree`). On such a tree the frontiers are right (`domFront_spec`).

The frontier of a node comes from its own arcs and from the frontiers of its children in the tree
(`localFront_spec`, `upFront_spec`), in the order in which `LD_pod_visit` leaves the nodes. The
iterated frontier is a least fixed point, reached since each round adds a node. What is not claimed
is the order of the numbers in a set, which are a bit vector in the source and a finite set here.
-/

namespace OpenImpact.LD

open Foundation

variable {α : Type} [DecidableEq α] {g : ControlGraph α} {st st' st'' : Dom α} {fuel : ℕ}

/-! ### What the first loop leaves alone -/

/-- The fields of the tree are the same. -/
structure SameTree (st st' : Dom α) : Prop where
  ridom : st'.ridom = st.ridom
  dtchi : st'.dtchi = st.dtchi
  dtsib : st'.dtsib = st.dtsib

omit [DecidableEq α] in
theorem SameTree.refl (st : Dom α) : SameTree st st := ⟨rfl, rfl, rfl⟩

omit [DecidableEq α] in
theorem SameTree.trans (h : SameTree st st') (h' : SameTree st' st'') : SameTree st st'' :=
  ⟨h'.ridom.trans h.ridom, h'.dtchi.trans h.dtchi, h'.dtsib.trans h.dtsib⟩

theorem visit_sameTree {par : Option α} {cn : α} (h : visit g fuel par cn st = .ok st') :
    SameTree st st' := by
  induction fuel generalizing par cn st st' with
  | zero => cases h
  | succ fuel ih =>
    rw [visit] at h
    refine Run.foldlM_keeps (P := SameTree st) (fun sn _ st₁ st₂ hst hrun ↦ ?_)
      (show SameTree st (assignNext cn par st) from ⟨rfl, rfl, rfl⟩) h
    split_ifs at hrun
    · exact hst.trans (ih hrun)
    · exact Except.ok.inj hrun ▸ hst

theorem compress_sameTree {v : α} (h : compress fuel v st = .ok st') : SameTree st st' := by
  induction fuel generalizing v st st' with
  | zero => cases h
  | succ fuel ih =>
    rw [compress] at h
    cases ha : st.ancestor v with
    | none =>
      rw [ha] at h
      exact Except.ok.inj h ▸ .refl st
    | some a =>
      rw [ha] at h
      simp only at h
      split_ifs at h
      · exact Except.ok.inj h ▸ .refl st
      · obtain ⟨st₁, hrun, h⟩ := Run.bind_eq_ok.1 h
        rw [← Except.ok.inj h]
        split_ifs
        · exact (ih hrun).trans ⟨rfl, rfl, rfl⟩
        · exact (ih hrun).trans ⟨rfl, rfl, rfl⟩

theorem eval_sameTree {v : α} {u : Option α} (h : eval fuel v st = .ok (u, st')) : SameTree st st' := by
  rw [eval] at h
  split_ifs at h with ha
  · rw [← (Prod.mk.inj (Except.ok.inj h)).2]
    exact .refl st
  · obtain ⟨st₁, hrun, h⟩ := Run.bind_eq_ok.1 h
    have hsame := compress_sameTree hrun
    simp only at h
    split_ifs at h
    · rwa [← (Prod.mk.inj (Except.ok.inj h)).2]
    · obtain ⟨a, -, h⟩ := Run.bind_eq_ok.1 h
      rwa [← (Prod.mk.inj (Except.ok.inj h)).2]

theorem predLoop_sameTree {w : α} {vs : List α} (h : predLoop fuel w vs st = .ok st') :
    SameTree st st' := by
  induction vs generalizing st with
  | nil => exact Except.ok.inj h ▸ .refl st
  | cons v vs ih =>
    rw [predLoop] at h
    obtain ⟨⟨u, st₁⟩, heval, h⟩ := Run.bind_eq_ok.1 h
    obtain ⟨u, -, h⟩ := Run.bind_eq_ok.1 h
    refine (eval_sameTree heval).trans (.trans ?_ (ih h))
    split_ifs
    · exact ⟨rfl, rfl, rfl⟩
    · exact .refl _

theorem bucketLoop_sameTree {p : α} {vs : List α} (h : bucketLoop fuel p vs st = .ok st') :
    SameTree st st' := by
  induction vs generalizing st with
  | nil => exact Except.ok.inj h ▸ .refl st
  | cons v vs ih =>
    rw [bucketLoop] at h
    obtain ⟨⟨u, st₁⟩, heval, h⟩ := Run.bind_eq_ok.1 h
    obtain ⟨u, -, h⟩ := Run.bind_eq_ok.1 h
    refine SameTree.trans ?_ ((eval_sameTree heval).trans (.trans ?_ (ih h)))
    · exact ⟨rfl, rfl, rfl⟩
    · exact ⟨rfl, rfl, rfl⟩

theorem sdomStep_sameTree {i : ℕ} (h : sdomStep g fuel i st = .ok st') : SameTree st st' := by
  rw [sdomStep] at h
  obtain ⟨w, -, h⟩ := Run.bind_eq_ok.1 h
  obtain ⟨st₁, hpred, h⟩ := Run.bind_eq_ok.1 h
  obtain ⟨v, -, h⟩ := Run.bind_eq_ok.1 h
  obtain ⟨p, -, h⟩ := Run.bind_eq_ok.1 h
  refine (predLoop_sameTree hpred).trans (.trans ?_ (bucketLoop_sameTree h))
  exact ⟨rfl, rfl, rfl⟩

theorem sdomLoop_sameTree {i : ℕ} (h : sdomLoop g fuel i st = .ok st') : SameTree st st' := by
  induction i generalizing st with
  | zero => exact Except.ok.inj h ▸ .refl st
  | succ i ih =>
    cases i with
    | zero => exact Except.ok.inj h ▸ .refl st
    | succ i =>
      rw [sdomLoop] at h
      obtain ⟨st₁, hstep, h⟩ := Run.bind_eq_ok.1 h
      exact (sdomStep_sameTree hstep).trans (ih h)

/-! ### Building the tree -/

/-- What a pass of the second loop for the node `w` does. -/
structure AddsToTree (num : α → ℕ) (w : α) (st st' : Dom α) : Prop where
  dfn : st'.dfn = st.dfn
  nhash : st'.nhash = st.nhash
  idom : ∀ v, v ≠ w → st'.idom v = st.idom v
  tree : ∃ d, st'.idom w = some d ∧
    st'.ridom = Function.update st.ridom d (insert (num w) (st.ridom d)) ∧
    st'.dtchi = Function.update st.dtchi d (some w) ∧
    st'.dtsib = (match st.dtchi d with
      | none => st.dtsib
      | some v => Function.update st.dtsib w (some v))

theorem idomStep_addsToTree {num : α → ℕ} {w : α} (hdfn : ∀ v, st.dfn v = some (num v))
    (hnhash : ∀ v, st.nhash (num v) = some v) (h : idomStep (num w) st = .ok st') :
    AddsToTree num w st st' := by
  have hnode : ldNode st (num w) = .ok w := by rw [ldNode, hnhash]
  rw [idomStep, hnode, Run.ok_bind] at h
  obtain ⟨s, -, h⟩ := Run.bind_eq_ok.1 h
  obtain ⟨st₁, hcorrect, h⟩ := Run.bind_eq_ok.1 h
  have hidom : ∀ v, v ≠ w → st₁.idom v = st.idom v := by
    intro v hv
    rw [correctIdom] at hcorrect
    split_ifs at hcorrect
    · obtain ⟨u, -, hcorrect⟩ := Run.bind_eq_ok.1 hcorrect
      rw [← Except.ok.inj hcorrect]
      exact Function.update_of_ne hv _ _
    · rw [← Except.ok.inj hcorrect]
  have hfields : st₁.dfn = st.dfn ∧ st₁.nhash = st.nhash ∧ SameTree st st₁ := by
    rw [correctIdom] at hcorrect
    split_ifs at hcorrect
    · obtain ⟨u, -, hcorrect⟩ := Run.bind_eq_ok.1 hcorrect
      rw [← Except.ok.inj hcorrect]
      exact ⟨rfl, rfl, rfl, rfl, rfl⟩
    · rw [← Except.ok.inj hcorrect]
      exact ⟨rfl, rfl, .refl st⟩
  obtain ⟨hdfn₁, hnhash₁, hridom, hdtchi, hdtsib⟩ := hfields
  rw [addToTree] at h
  obtain ⟨d, hd, h⟩ := Run.bind_eq_ok.1 h
  obtain ⟨k, hk, h⟩ := Run.bind_eq_ok.1 h
  have hidomw : st₁.idom w = some d := by
    cases hw : st₁.idom w with
    | none => rw [hw] at hd; cases hd
    | some e => rw [hw] at hd; exact congrArg some (Except.ok.inj hd)
  obtain rfl : num w = k := by
    rw [hdfn₁, hdfn] at hk
    exact Except.ok.inj hk
  simp only [hdtchi] at h
  cases hchi : st.dtchi d with
  | none =>
    rw [hchi] at h
    rw [← Except.ok.inj h]
    exact ⟨hdfn₁, hnhash₁, hidom, d, hidomw, by simp [hridom], by simp, by simp [hchi, hdtsib]⟩
  | some v =>
    rw [hchi] at h
    rw [← Except.ok.inj h]
    exact ⟨hdfn₁, hnhash₁, hidom, d, hidomw, by simp [hridom], by simp, by simp [hchi, hdtsib]⟩

omit [DecidableEq α] in
theorem SibChain.congr {o : Option α} {cs : List α} (h : SibChain st o cs)
    (heq : ∀ c ∈ cs, st'.dtsib c = st.dtsib c) : SibChain st' o cs := by
  induction cs generalizing o with
  | nil => exact h
  | cons c cs ih =>
    refine ⟨h.1, ?_⟩
    rw [heq c List.mem_cons_self]
    exact ih h.2 fun d hd ↦ heq d (List.mem_cons_of_mem c hd)

/-- The tree of the nodes with numbers below `i`. -/
structure TreeUpTo (root : α) (num : α → ℕ) (i : ℕ) (st : Dom α) : Prop where
  ridom : ∀ d k, k ∈ st.ridom d ↔ ∃ w, num w = k ∧ w ≠ root ∧ num w < i ∧ st.idom w = some d
  children : ∀ v, ∃ cs, cs.Nodup ∧ SibChain st (st.dtchi v) cs ∧
    ∀ w, w ∈ cs ↔ w ≠ root ∧ num w < i ∧ st.idom w = some v
  dtsib : ∀ w, w = root ∨ i ≤ num w → st.dtsib w = none

/-- **A pass of the second loop** puts the node in front of its siblings. -/
theorem TreeUpTo.step {root w : α} {num : α → ℕ} (hinj : Function.Injective num)
    (h : TreeUpTo root num (num w) st) (hw : w ≠ root) (hstep : AddsToTree num w st st') :
    TreeUpTo root num (num w + 1) st' := by
  obtain ⟨d, hd, hridom, hdtchi, hdtsib⟩ := hstep.tree
  have hdtsib' : st'.dtsib = Function.update st.dtsib w (st.dtchi d) := by
    rw [hdtsib]
    cases st.dtchi d with
    | none => exact (Function.update_eq_self_iff.2 (h.dtsib w (.inr le_rfl)).symm).symm
    | some v => rfl
  -- which nodes are in the tree now, below which one
  have hnodes : ∀ u v, (u ≠ root ∧ num u < num w + 1 ∧ st'.idom u = some v) ↔
      u = w ∧ v = d ∨ u ≠ root ∧ num u < num w ∧ st.idom u = some v := by
    intro u v
    by_cases huw : u = w
    · subst huw
      simp [hw, hd, eq_comm]
    · have hne : num u ≠ num w := fun heq ↦ huw (hinj heq)
      rw [hstep.idom u huw]
      simp only [huw, false_and, false_or]
      exact and_congr_right fun _ ↦ and_congr_left fun _ ↦ by omega
  refine ⟨fun e k ↦ ?_, fun v ↦ ?_, fun u hu ↦ ?_⟩
  · simp only [hnodes]
    rw [hridom]
    by_cases hed : e = d
    · subst hed
      rw [Function.update_self, Finset.mem_insert, h.ridom]
      constructor
      · rintro (rfl | ⟨u, hu, hrest⟩)
        · exact ⟨w, rfl, .inl ⟨rfl, rfl⟩⟩
        · exact ⟨u, hu, .inr hrest⟩
      · rintro ⟨u, hu, ⟨rfl, -⟩ | hrest⟩
        · exact .inl hu.symm
        · exact .inr ⟨u, hu, hrest⟩
    · rw [Function.update_of_ne hed, h.ridom]
      simp [hed]
  · obtain ⟨cs, hnodup, hchain, hcs⟩ := h.children v
    have hnot : w ∉ cs := fun hmem ↦ absurd ((hcs w).1 hmem).2.1 (lt_irrefl _)
    have hchain' : SibChain st' (st.dtchi v) cs := hchain.congr fun c hc ↦ by
      rw [hdtsib', Function.update_of_ne (fun heq : c = w ↦ hnot (heq ▸ hc))]
    by_cases hvd : v = d
    · subst hvd
      refine ⟨w :: cs, List.nodup_cons.2 ⟨hnot, hnodup⟩, ⟨?_, ?_⟩, fun u ↦ ?_⟩
      · rw [hdtchi, Function.update_self]
      · rwa [hdtsib', Function.update_self]
      · rw [hnodes, List.mem_cons, hcs]
        simp
    · refine ⟨cs, hnodup, ?_, fun u ↦ ?_⟩
      · rwa [hdtchi, Function.update_of_ne hvd]
      · rw [hnodes, hcs]
        simp [hvd]
  · have huw : u ≠ w := by
      rintro rfl
      rcases hu with rfl | hu
      · exact hw rfl
      · omega
    rw [hdtsib', Function.update_of_ne huw]
    exact h.dtsib u (hu.imp_right fun hle ↦ by omega)

/-- **The second loop.** -/
theorem TreeUpTo.idomLoop {root : α} {num : α → ℕ} (hinj : Function.Injective num)
    (hroot : num root = 1) {n cnt i : ℕ} (hnum : ∀ k, 0 < k → k ≤ n → ∃ v, num v = k) (hi : 1 < i)
    (hin : i + cnt ≤ n + 1) (hdfn : ∀ v, st.dfn v = some (num v))
    (hnhash : ∀ v, st.nhash (num v) = some v) (h : TreeUpTo root num i st)
    (hrun : LD.idomLoop cnt i st = .ok st') : TreeUpTo root num (i + cnt) st' := by
  induction cnt generalizing i st with
  | zero => exact Except.ok.inj hrun ▸ h
  | succ cnt ih =>
    rw [LD.idomLoop] at hrun
    obtain ⟨st₁, hstep, hrest⟩ := Run.bind_eq_ok.1 hrun
    obtain ⟨w, rfl⟩ := hnum i (by omega) (by omega)
    have hw : w ≠ root := by
      rintro rfl
      omega
    have hadds := idomStep_addsToTree hdfn hnhash hstep
    rw [show num w + (cnt + 1) = num w + 1 + cnt by omega]
    exact ih (by omega) (by omega) (hadds.dfn ▸ hdfn) (hadds.nhash ▸ hnhash) (h.step hinj hw hadds) hrest

/-- **`LD_dominator` leaves a correct dominator tree.** -/
theorem dominator_isDomTree [Fintype α] (g : ControlGraph α) (hall : ∀ v, g.Reachable v) :
    ∃ st, dominator g = .ok st ∧ IsDomTree g st := by
  obtain ⟨T, num, st₀, st₁, st, h, hrange, hroot, hsurj, hrun₀, hrun₁, hrun₂, hrun, hnum, hst⟩ :=
    dominator_run g hall
  have hsame := (visit_sameTree hrun₀).trans (sdomLoop_sameTree hrun₁)
  have hpos : 0 < Fintype.card α := (hrange g.root).1.trans_le (hrange g.root).2
  have hone : ∀ w, w ≠ g.root → 1 < num w := fun w hw ↦
    lt_of_le_of_ne (hrange w).1 fun heq ↦ hw (h.num_inj (heq.symm.trans hroot.symm))
  have htree₁ : TreeUpTo g.root num 2 st₁ := by
    refine ⟨fun d k ↦ ?_, fun v ↦ ⟨[], List.nodup_nil, ?_, fun w ↦ ?_⟩, fun w _ ↦ ?_⟩
    · rw [hsame.ridom]
      refine ⟨fun hk ↦ absurd hk (Finset.notMem_empty k), ?_⟩
      rintro ⟨w, -, hw, hlt, -⟩
      have := hone w hw
      omega
    · rw [hsame.dtchi]
      rfl
    · refine ⟨fun hw ↦ absurd hw List.not_mem_nil, ?_⟩
      rintro ⟨hw, hlt, -⟩
      have := hone w hw
      omega
    · rw [hsame.dtsib]
      rfl
  have htree := htree₁.idomLoop h.num_inj hroot hsurj Nat.one_lt_two (by omega) hnum.dfn hnum.nhash hrun₂
  have hidom : ∀ w d, (w ≠ g.root ∧ num w < 2 + (Fintype.card α - 1) ∧ st.idom w = some d) ↔
      IsIdom g.Edge g.root d w := by
    intro w d
    have hlt := (hrange w).2
    constructor
    · rintro ⟨hw, -, hd⟩
      obtain ⟨d', hd', hidom⟩ := hst.settled w hw (by omega)
      exact Option.some.inj (hd'.symm.trans hd) ▸ hidom
    · intro hidom
      have hw : w ≠ g.root := by
        rintro rfl
        exact hidom.ne (dominates_root_iff.1 hidom.dominates)
      obtain ⟨d', hd', hidom'⟩ := hst.settled w hw (by omega)
      exact ⟨hw, by omega, hidom.unique h.reach hidom' ▸ hd'⟩
  refine ⟨st, hrun, fun v ↦ ⟨num v, hst.numbered.dfn v, hst.numbered.nhash v⟩,
    hroot ▸ hst.numbered.nhash g.root, fun w hw ↦ ?_, fun d i ↦ ?_, fun v ↦ ?_,
    htree.dtsib g.root (.inl rfl)⟩
  · have := (hrange w).2
    exact hst.settled w hw (by omega)
  · rw [htree.ridom]
    refine exists_congr fun w ↦ ?_
    rw [hidom, hst.numbered.dfn, Option.some.injEq]
  · obtain ⟨cs, hnodup, hchain, hcs⟩ := htree.children v
    exact ⟨cs, hnodup, hchain, fun w ↦ (hcs w).trans (hidom w v)⟩

/-! ### The frontiers -/

/-- **Frontiers of nodes and of sets.** On a correct dominator tree with all nodes reachable,
`LD_dom_front` leaves every node with its dominance frontier, and `LD_df_plus` returns the iterated
frontier of every set of nodes. -/
theorem domFront_spec [Fintype α] (hall : ∀ v, g.Reachable v) (h : IsDomTree g st) :
    ∃ df, domFront g st = .ok df ∧
      (∀ v i, i ∈ df v ↔ ∃ w, st.dfn w = some i ∧ InFrontier g.Edge g.root v w) ∧
      ∀ N, AreNumbers st N → ∃ R, dfPlus st df N = .ok R ∧ AreNumbers st R ∧
        IsLeast {S | S = frontier g.Edge g.root (nodesOf st N ∪ S)} (nodesOf st R) := by
  obtain ⟨df, hrun, hdf⟩ := domFront_eq h hall
  exact ⟨df, hrun, hdf, fun N hN ↦ dfPlus_eq h hdf hN⟩

theorem domFront_spec_irreducible : ∃ st, dominator irreducibleGraph = .ok st ∧
    ∃ df, domFront irreducibleGraph st = .ok df ∧
      (∀ v i, i ∈ df v ↔ ∃ w, st.dfn w = some i ∧ InFrontier irreducibleGraph.Edge 0 v w) ∧
      ∀ N, AreNumbers st N → ∃ R, dfPlus st df N = .ok R ∧ AreNumbers st R ∧
        IsLeast {S | S = frontier irreducibleGraph.Edge 0 (nodesOf st N ∪ S)} (nodesOf st R) := by
  obtain ⟨st, hrun, htree⟩ := dominator_isDomTree irreducibleGraph irreducibleGraph_reachable
  exact ⟨st, hrun, domFront_spec irreducibleGraph_reachable htree⟩

end OpenImpact.LD
