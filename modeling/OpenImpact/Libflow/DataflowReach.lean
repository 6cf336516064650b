import OpenImpact.Foundation.GenKill
import OpenImpact.Libflow.DataflowDom
import Mathlib.Data.Int.Interval

/-!
# Reaching definitions and live variables

What `reaching_definition` and `live_variable` leave in the sets of the nodes, in terms of paths. Both
are gen-and-kill equations: a node generates itself and kills the other nodes that define one of its
destinations, or it generates its sources and kills its destinations. A definition of several registers
is killed as a whole with each of them (`not_reaches_of_two`), so a node is in `e_in` exactly if all of
its registers come along one path (`analyzeDfGraph_spec`). For a node with one register that is the
usual notion of a reaching definition.

The two analyses are instances of `Foundation.GenKill`, whose solutions are described by paths over
any finite graph. That `kill` is per node and not per register is the design of the source, by its
own comment. Everything is for any graph that calls build, in any mode, and says that the run returns.
-/

namespace OpenImpact.Libflow

open Foundation

variable {g : DfGraph} {d i n v : NodeId} {r : RegId}

/-- A path with at least one arc, with `P` at the nodes between. -/
def PathBetween (g : DfGraph) (P : NodeId → Prop) (d n : NodeId) : Prop :=
  ∃ m, Relation.ReflTransGen (fun a b ↦ g.Arc a b ∧ P b) d m ∧ g.Arc m n

/-- A path to a node that reads a register, with no write of it before. -/
def PathToUse (g : DfGraph) (r : RegId) (n : NodeId) : Prop :=
  ∃ m, Relation.ReflTransGen (fun a b ↦ g.Arc a b ∧ r ∉ g.destReg a) n m ∧ r ∈ g.srcReg m

theorem differ_eq_false_iff {β : Type} [DecidableEq β] {a b : Finset β} :
    differ a b = false ↔ a = b := by
  simp only [differ, Bool.or_eq_false_iff, decide_eq_false_iff_not, ne_eq, not_not,
    Finset.card_eq_zero, Finset.sdiff_eq_empty_iff_subset]
  exact ⟨fun h ↦ h.1.antisymm h.2, fun h ↦ h ▸ ⟨subset_rfl, subset_rfl⟩⟩

theorem mem_foldl_union {α β : Type} [DecidableEq β] {f : α → Finset β} {l : List α} {s : Finset β}
    {x : β} : x ∈ l.foldl (fun acc a ↦ acc ∪ f a) s ↔ x ∈ s ∨ ∃ a ∈ l, x ∈ f a := by
  induction l generalizing s with
  | nil => simp
  | cons a l ih => rw [List.foldl_cons, ih, Finset.mem_union, or_assoc, List.exists_mem_cons_iff]

/-! ### Reaching definitions -/

theorem mem_foldl_eDef {l : List ℕ} {s : Finset NodeId} :
    d ∈ l.foldl (fun (def_ : Finset NodeId) (regId : ℕ) ↦
        if (regId : ℤ) ∉ g.regDefined then def_
        else if (regId : ℤ) ∉ g.destReg i then def_
        else def_ ∪ g.eDef regId) s ↔
      d ∈ s ∨ ∃ k ∈ l, (k : ℤ) ∈ g.regDefined ∧ (k : ℤ) ∈ g.destReg i ∧ d ∈ g.eDef k := by
  induction l generalizing s with
  | nil => simp
  | cons k l ih =>
    rw [List.foldl_cons, ih, List.exists_mem_cons_iff, ← or_assoc]
    refine or_congr_left ?_
    split_ifs with hdef hdest
    · simp [hdef, hdest]
    · simp [hdest]
    · simp [hdef]

/-- A node kills the other nodes that share a destination register. -/
theorem mem_kill (hwf : g.WF) :
    d ∈ kill g i ↔ (∃ r, r ∈ g.destReg i ∧ r ∈ g.destReg d) ∧ d ≠ i := by
  rw [kill, Finset.mem_sdiff, Finset.mem_singleton]
  refine and_congr_left' (mem_foldl_eDef.trans ⟨?_, ?_⟩)
  · rintro (h | ⟨k, -, -, hi, hd⟩)
    · exact absurd h (Finset.notMem_empty d)
    · exact ⟨k, hi, (hwf.mem_eDef k d).1 hd⟩
  · rintro ⟨r, hi, hd⟩
    obtain ⟨hdef, hlo, hhi⟩ := hwf.destReg_mem i r hi
    lift r to ℕ using hlo
    refine .inr ⟨r, List.mem_range.2 (by exact_mod_cast hhi), hdef, hi, ?_⟩
    exact (hwf.mem_eDef r d).2 hd

theorem reach_genKill (g : DfGraph) : GenKill (fun a b : InOut NodeId ↦ differ a.outSet b.outSet)
    (reachNode g) InOut.outSet g.source (fun i ↦ {i}) (kill g) where
  keyed.changed _ _ := differ_eq_false_iff
  keyed.upd s t v h := by simp only [reachNode, h]
  mem_upd s v x := by
    rw [reachNode, Finset.mem_union, Finset.mem_sdiff, mem_foldl_union]
    simp

/-- The way back from a node to a definition. -/
theorem genPath_iff :
    GenPath g.source (fun i ↦ {i}) (kill g) d n ↔
      Relation.ReflTransGen (fun a b ↦ g.Arc a b ∧ d ∉ kill g b) d n := by
  simp only [GenPath, Finset.mem_singleton, exists_eq_left']
  exact Relation.reflTransGen_swap

/-- `reaching_definition` returns, with what comes along some path. -/
theorem reachingDefinition_spec (hwf : g.WF) (hgood : ∀ v ∈ g.nodes, GoodId v) :
    ∃ e, reachingDefinition g = .ok e ∧ ∀ n ∈ g.nodes, ∀ d,
      d ∈ (e n).inSet ↔ PathBetween g (fun m ↦ d ∉ kill g m) d n := by
  have hcard : g.nodes.length * g.nodes.toFinset.card < g.nodes.length * g.nodes.length + 1 :=
    Nat.lt_succ_of_le (Nat.mul_le_mul_left _ (List.toFinset_card_le _))
  let init : NodeId → InOut NodeId := fun i ↦ ⟨∅, {i}⟩
  have hinit : ∀ v ∈ g.nodes, (init v).outSet ⊆ {v} := fun _ _ ↦ subset_rfl
  obtain ⟨e, hrun, hsol, hmem⟩ := (reach_genKill g).sweeps_spec hwf.source_mem hinit
    (fun v hv ↦ Finset.singleton_subset_iff.2 (List.mem_toFinset.2 hv)) hcard
  refine ⟨e, ?_, fun n hn d ↦ ?_⟩
  · rw [reachingDefinition, hrun]
    exact if_neg fun ⟨v, hv, hbad⟩ ↦ hbad (hgood v hv)
  · rw [hsol n hn, reachNode, mem_foldl_union]
    constructor
    · rintro (hd | ⟨m, hm, hd⟩)
      · exact absurd hd (Finset.notMem_empty d)
      · exact ⟨m, genPath_iff.1 ((hmem m (hwf.source_mem n hn m hm) d).1 hd), hm⟩
    · rintro ⟨m, hpath, hm⟩
      exact .inr ⟨m, hm, (hmem m (hwf.source_mem n hn m hm) d).2 (genPath_iff.2 hpath)⟩

/-- A path that comes back to its start can be cut there. -/
theorem pathBetween_of_ne {P : NodeId → Prop} (h : PathBetween g (fun m ↦ m = d ∨ P m) d n) :
    PathBetween g P d n := by
  obtain ⟨m, hpath, hm⟩ := h
  induction hpath generalizing n with
  | refl => exact ⟨d, .refl, hm⟩
  | @tail b c _ hbc ih =>
    rcases hbc.2 with rfl | hP
    · exact ⟨_, .refl, hm⟩
    · obtain ⟨k, hpath, hk⟩ := ih hbc.1
      exact ⟨c, hpath.tail ⟨hk, hP⟩, hm⟩

theorem PathBetween.imp {P Q : NodeId → Prop} (hPQ : ∀ m, P m → Q m) (h : PathBetween g P d n) :
    PathBetween g Q d n := by
  obtain ⟨m, hpath, hm⟩ := h
  exact ⟨m, Relation.ReflTransGen.mono (fun _ _ ↦ And.imp_right (hPQ _)) _ _ hpath, hm⟩

/-- A definition comes along a path exactly if nothing on it writes one of its registers. -/
theorem pathBetween_kill_iff (hwf : g.WF) : PathBetween g (fun m ↦ d ∉ kill g m) d n ↔
    PathBetween g (fun m ↦ ∀ r ∈ g.destReg d, r ∉ g.destReg m) d n := by
  refine ⟨fun h ↦ pathBetween_of_ne (h.imp fun m hm ↦ ?_), fun h ↦ h.imp fun m hfree hm ↦ ?_⟩
  · refine or_iff_not_imp_left.2 fun hne r hrd hrm ↦ hm ?_
    exact (mem_kill hwf).2 ⟨⟨r, hrm, hrd⟩, fun heq ↦ hne heq.symm⟩
  · obtain ⟨⟨r, hrm, hrd⟩, -⟩ := (mem_kill hwf).1 hm
    exact hfree r hrd hrm

/-- A path on which a node keeps its only register keeps all of them. -/
theorem PathBetween.forall_destReg (hone : ∀ r' ∈ g.destReg d, r' = r)
    (h : PathBetween g (fun m ↦ r ∉ g.destReg m) d n) :
    PathBetween g (fun m ↦ ∀ r ∈ g.destReg d, r ∉ g.destReg m) d n := by
  refine h.imp fun m hrm r' hr' ↦ ?_
  rw [hone r' hr']
  exact hrm

/-! ### The chain analysis -/

theorem chain_keyed (g : DfGraph) (gen kill : NodeId → Finset NodeId) :
    Sweep.Keyed (fun a b : InOut NodeId ↦ differ a.outSet b.outSet) (chainNode g gen kill)
      InOut.outSet where
  changed _ _ := differ_eq_false_iff
  upd s t v h := by simp only [chainNode, h]

theorem mem_chainNode {gen kill : NodeId → Finset NodeId} {a : NodeId → InOut NodeId} {x : NodeId} :
    x ∈ (chainNode g gen kill a v).outSet ↔
      x ∈ gen v ∨ (x ∈ g.nodes ∧ ∀ b ∈ g.source v, x ∈ (a b).outSet) ∧ x ∉ kill v := by
  have hfold : ∀ (l : List NodeId) (s : Finset NodeId),
      x ∈ l.foldl (fun inSet src ↦ inSet ∩ (a src).outSet) s ↔ x ∈ s ∧ ∀ b ∈ l, x ∈ (a b).outSet := by
    intro l
    induction l with
    | nil => simp
    | cons b l ih =>
      intro s
      rw [List.foldl_cons, ih, Finset.mem_inter, List.forall_mem_cons, and_assoc]
  rw [chainNode, Finset.mem_union, Finset.mem_sdiff, hfold, List.mem_toFinset]

/-- `ud_chain` returns when no node kills what it generates. -/
theorem udChain_returns {gen kill : NodeId → Finset NodeId} (hgood : ∀ v ∈ g.nodes, GoodId v)
    (hgen : ∀ v ∈ g.nodes, ∀ x ∈ gen v, x ∈ g.nodes ∧ x ∉ kill v) :
    ∃ a, udChain g gen kill = .ok a := by
  set l := g.nodes.filter fun i ↦ some i ≠ g.entry with hl
  have hmem : ∀ v ∈ l, v ∈ g.nodes ∧ some v ≠ g.entry := fun v hv ↦ by simpa [hl] using hv
  let init : NodeId → InOut NodeId := fun i ↦
    ⟨∅, if some i = g.entry then gen i else g.nodes.toFinset \ kill i⟩
  have hinit : ∀ v ∈ l, (init v).outSet = g.nodes.toFinset \ kill v :=
    fun v hv ↦ if_neg (hmem v hv).2
  have hk := chain_keyed g gen kill
  have hmono : ∀ s t : NodeId → InOut NodeId, (∀ w, (t w).outSet ⊆ (s w).outSet) → ∀ w ∈ l,
      (chainNode g gen kill t w).outSet ⊆ (chainNode g gen kill s w).outSet := by
    intro s t hst w _ x hx
    rw [mem_chainNode] at hx ⊢
    exact hx.imp_right fun ⟨⟨hx, hall⟩, hkill⟩ ↦ ⟨⟨hx, fun b hb ↦ hst b (hall b hb)⟩, hkill⟩
  have hstart : Sweep.Ascends (fun a b ↦ b ⊆ a) InOut.outSet (chainNode g gen kill) l init := by
    intro v hv x hx
    rw [hinit v hv, Finset.mem_sdiff, List.mem_toFinset]
    rcases mem_chainNode.1 hx with hx | ⟨⟨hx, -⟩, hkill⟩
    · exact hgen v (hmem v hv).1 x hx
    · exact ⟨hx, hkill⟩
  have hfuel : Sweep.cardSum l (fun w ↦ (init w).outSet) < g.nodes.length * g.nodes.length + 1 := by
    refine Nat.lt_succ_of_le ((Sweep.cardSum_le (U := g.nodes.toFinset) fun v hv ↦ ?_).trans ?_)
    · rw [hinit v hv]
      exact Finset.sdiff_subset
    · exact Nat.mul_le_mul (List.length_filter_le _ _) (List.toFinset_card_le _)
  obtain ⟨a, hrun⟩ := hk.exists_sweeps (P := Sweep.Ascends (fun a b ↦ b ⊆ a) InOut.outSet
      (chainNode g gen kill) l) (fun s v hv h ↦ h.update (r := fun a b : Finset NodeId ↦ b ⊆ a)
        (fun _ ↦ Finset.Subset.refl _) (fun hab hbc ↦ hbc.trans hab) hmono hv)
    (hk.lowers_cardSum fun s h ↦ h) hstart hfuel
  refine ⟨a, ?_⟩
  rw [udChain, ← hl, hrun]
  exact if_neg fun ⟨v, hv, hbad⟩ ↦ hbad (hgood v hv)

/-! ### Live variables -/

theorem live_genKill (g : DfGraph) : GenKill (fun a b : InOut RegId ↦ differ a.inSet b.inSet)
    (liveNode g) InOut.inSet g.destination g.srcReg g.destReg where
  keyed.changed _ _ := differ_eq_false_iff
  keyed.upd s t v h := by simp only [liveNode, h]
  mem_upd s v x := by
    rw [liveNode, Finset.mem_union, Finset.mem_sdiff, mem_foldl_union]
    simp

/-- `live_variable` returns, with the registers that some path uses first. -/
theorem liveVariable_spec (hwf : g.WF) (hgood : ∀ v ∈ g.nodes, GoodId v) :
    ∃ v, liveVariable g = .ok v ∧ ∀ n ∈ g.nodes, ∀ r, r ∈ (v n).inSet ↔ PathToUse g r n := by
  have hregs : ∀ v ∈ g.nodes, g.srcReg v ⊆ Finset.Ico 0 (maxRegId : ℤ) := fun v _ r hr ↦
    Finset.mem_Ico.2 (hwf.srcReg_mem v r hr)
  have hcard : g.nodes.length * (Finset.Ico 0 (maxRegId : ℤ)).card < g.nodes.length * maxRegId + 1 := by
    rw [Int.card_Ico, sub_zero, Int.toNat_natCast]
    exact Nat.lt_succ_self _
  let init : NodeId → InOut RegId := fun _ ↦ ⟨∅, ∅⟩
  have hinit : ∀ v ∈ g.nodes, (init v).inSet ⊆ g.srcReg v := fun v _ ↦ Finset.empty_subset _
  obtain ⟨v, hrun, -, hmem⟩ :=
    (live_genKill g).sweeps_spec hwf.destination_mem hinit hregs hcard
  refine ⟨v, ?_, fun n hn r ↦ (hmem n hn r).trans ?_⟩
  · rw [liveVariable, hrun]
    exact if_neg fun ⟨v, hv, hbad⟩ ↦ hbad (hgood v hv)
  · refine exists_congr fun m ↦ ?_
    simp only [hwf.mem_destination, and_comm]

/-! ### The analysis of a graph -/

/-- An analysis that is asked for returns, and otherwise its sets stay empty. -/
theorem inMode_returns {α : Type} {mode bit : ℕ} {x : Run α} {P : α → Prop}
    (h : ∃ a, x = .ok a ∧ P a) (y : α) :
    ∃ a, inMode mode bit x y = .ok a ∧ (mode &&& bit ≠ 0 → P a) := by
  rw [inMode]
  split_ifs with hbit
  · obtain ⟨a, hx, hP⟩ := h
    exact ⟨a, hx, fun _ ↦ hP⟩
  · exact ⟨y, rfl, fun h ↦ absurd h hbit⟩

/-- **The analyses of a graph** return in every mode. A node is in `e_in` exactly if some path writes
none of its registers; so each of them comes through, and if it has only one, that is enough. A register
is in `v_in` exactly if some path uses it first. -/
theorem analyzeDfGraph_spec {calls : List Call} (hbuild : build calls = .ok g) (mode : ℕ) :
    ∃ s, analyzeDfGraph mode g = .ok s ∧
      (mode &&& reachDefine ≠ 0 → ∀ n ∈ g.nodes, ∀ d, d ∈ (s.e n).inSet ↔
        PathBetween g (fun m ↦ ∀ r ∈ g.destReg d, r ∉ g.destReg m) d n) ∧
      (mode &&& reachDefine ≠ 0 → ∀ n ∈ g.nodes, ∀ d, ∀ r ∈ g.destReg d,
        (d ∈ (s.e n).inSet → PathBetween g (fun m ↦ r ∉ g.destReg m) d n) ∧
          ((∀ r' ∈ g.destReg d, r' = r) → PathBetween g (fun m ↦ r ∉ g.destReg m) d n →
            d ∈ (s.e n).inSet)) ∧
      (mode &&& liveVar ≠ 0 → ∀ n ∈ g.nodes, ∀ r, r ∈ (s.v n).inSet ↔ PathToUse g r n) := by
  obtain ⟨hwf, -, hgood⟩ := build_spec hbuild
  have hchain : ∃ a, (if mode &&& reachDefine ≠ 0 then udChain g (fun i ↦ {i}) (kill g)
      else udChain g (fun _ ↦ ∅) fun _ ↦ ∅) = .ok a ∧ True := by
    simp only [and_true]
    split_ifs
    · refine udChain_returns hgood fun v hv x hx ↦ ?_
      obtain rfl := Finset.mem_singleton.1 hx
      exact ⟨hv, fun h ↦ ((mem_kill hwf).1 h).2 rfl⟩
    · exact udChain_returns hgood fun v _ x hx ↦ absurd hx (Finset.notMem_empty x)
  obtain ⟨e, hrun_e, he⟩ := inMode_returns (reachingDefinition_spec hwf hgood) fun _ ↦ ⟨∅, ∅⟩
  obtain ⟨a, hrun_a, -⟩ := inMode_returns hchain fun _ ↦ ⟨∅, ∅⟩
  obtain ⟨v, hrun_v, hv⟩ := inMode_returns (liveVariable_spec hwf hgood) fun _ ↦ ⟨∅, ∅⟩
  obtain ⟨dom, hrun_dom, -⟩ := inMode_returns (dominator_spec hwf hgood) fun _ ↦ ∅
  obtain ⟨postDom, hrun_postDom, -⟩ := inMode_returns (postDominator_spec hwf hgood) fun _ ↦ ∅
  have hreach (hmode : mode &&& reachDefine ≠ 0) (n : NodeId) (hn : n ∈ g.nodes) (d : NodeId) :
      d ∈ (e n).inSet ↔ PathBetween g (fun m ↦ ∀ r ∈ g.destReg d, r ∉ g.destReg m) d n :=
    (he hmode n hn d).trans (pathBetween_kill_iff hwf)
  refine ⟨⟨e, a, v, dom, postDom⟩, ?_, hreach, fun hmode n hn d r hr ↦ ⟨fun hd ↦ ?_, fun hone hpath ↦ ?_⟩,
    hv⟩
  · rw [analyzeDfGraph, hrun_e, hrun_a, hrun_v, hrun_dom, hrun_postDom]
    rfl
  · exact ((hreach hmode n hn d).1 hd).imp fun m hfree ↦ hfree r hr
  · exact (hreach hmode n hn d).2 (hpath.forall_destReg hone)

/-- What can be decided of a graph that is built. -/
theorem exists_build (calls : List Call) {P : DfGraph → Prop} [DecidablePred P]
    (h : (match build calls with | .ok g => decide (P g) | .error _ => false) = true) :
    ∃ g, build calls = .ok g ∧ P g := by
  cases hbuild : build calls with
  | error e =>
    rw [hbuild] at h
    cases h
  | ok g =>
    rw [hbuild] at h
    exact ⟨g, rfl, of_decide_eq_true h⟩

/-- Node 0 writes two registers, node 1 a third, and node 2 reads one of the first. -/
theorem analyzeDfGraph_spec_pair : ∃ g s,
    build [.addNode 0, .addDestReg 7, .addDestReg 8, .addNode 1, .addDestReg 9, .addNode 2, .addSrcReg 7,
        .connect 0 1, .connect 1 2] = .ok g ∧
      analyzeDfGraph 5 g = .ok s ∧ 0 ∈ (s.e 2).inSet ∧ 7 ∈ (s.v 1).inSet := by
  obtain ⟨g, hbuild, hone, htwo, hsource₁, hsource₂, hdest₀, hdest₁, hsrc⟩ := exists_build
    [.addNode 0, .addDestReg 7, .addDestReg 8, .addNode 1, .addDestReg 9, .addNode 2, .addSrcReg 7,
      .connect 0 1, .connect 1 2]
    (P := fun g ↦ 1 ∈ g.nodes ∧ 2 ∈ g.nodes ∧ 0 ∈ g.source 1 ∧ 1 ∈ g.source 2 ∧
      g.destReg 0 = {7, 8} ∧ g.destReg 1 = {9} ∧ 7 ∈ g.srcReg 2) (by decide +kernel)
  obtain ⟨s, hrun, he, -, hv⟩ := analyzeDfGraph_spec hbuild 5
  refine ⟨g, s, hbuild, hrun, ?_, ?_⟩
  · exact (he (by decide) 2 htwo 0).2 ⟨1, .single ⟨hsource₁, by simp [hdest₀, hdest₁]⟩, hsource₂⟩
  · exact (hv (by decide) 1 hone 7).2 ⟨2, .single ⟨hsource₂, by simp [hdest₁]⟩, hsrc⟩

/-- Node 0 defines two registers, and node 1 one of them: node 0 does not reach node 2 behind it, though
its other register does. -/
theorem not_reaches_of_two : ∃ g s,
    build [.addNode 0, .addDestReg 7, .addDestReg 8, .addNode 1, .addDestReg 8, .addNode 2,
        .connect 0 1, .connect 1 2] = .ok g ∧
      analyzeDfGraph 1 g = .ok s ∧ 2 ∈ g.nodes ∧ 7 ∈ g.destReg 0 ∧
      PathBetween g (fun m ↦ 7 ∉ g.destReg m) 0 2 ∧ 0 ∉ (s.e 2).inSet := by
  obtain ⟨g, hbuild, htwo, hsource₁, hsource₂, hdest₀, hdest₁⟩ := exists_build
    [.addNode 0, .addDestReg 7, .addDestReg 8, .addNode 1, .addDestReg 8, .addNode 2, .connect 0 1,
      .connect 1 2]
    (P := fun g ↦ 2 ∈ g.nodes ∧ g.source 1 = [0] ∧ g.source 2 = [1] ∧ g.destReg 0 = {7, 8} ∧
      g.destReg 1 = {8}) (by decide +kernel)
  obtain ⟨hwf, -, hgood⟩ := build_spec hbuild
  obtain ⟨e, hrun, he⟩ := reachingDefinition_spec hwf hgood
  have harc₁ : g.Arc 0 1 := by simp [DfGraph.Arc, hsource₁]
  have harc₂ : g.Arc 1 2 := by simp [DfGraph.Arc, hsource₂]
  have hpath : PathBetween g (fun m ↦ 7 ∉ g.destReg m) 0 2 :=
    ⟨1, .single ⟨harc₁, by simp [hdest₁]⟩, harc₂⟩
  refine ⟨g, ⟨e, fun _ ↦ ⟨∅, ∅⟩, fun _ ↦ ⟨∅, ∅⟩, fun _ ↦ ∅, fun _ ↦ ∅⟩, hbuild, ?_, htwo,
    by simp [hdest₀], hpath, fun hd ↦ ?_⟩
  · rw [analyzeDfGraph, hrun]
    rfl
  · obtain ⟨m, hchain, hm⟩ := (he 2 htwo 0).1 hd
    rw [DfGraph.Arc, hsource₂, List.mem_singleton] at hm
    subst hm
    rcases hchain.cases_tail with heq | ⟨b, -, -, hkill⟩
    · exact absurd heq (by decide)
    · exact hkill ((mem_kill hwf).2 ⟨⟨8, by simp [hdest₁], by simp [hdest₀]⟩, by decide⟩)

end OpenImpact.Libflow
