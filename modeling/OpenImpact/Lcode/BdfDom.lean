import OpenImpact.Foundation.PostDominator
import OpenImpact.Library.Halt
import OpenImpact.Library.SignedSet
import Mathlib.Algebra.BigOperators.Group.Finset.Basic
import Mathlib.Algebra.Order.BigOperators.Group.Finset
import Mathlib.Data.Finset.Card

/-!
# Dominators and post-dominators on the predicate flow graph

`BDF_flow_dom_pdom` refines one set per node until a sweep over the nodes changes nothing. The
dominator sweeps end with the sets of dominators, whatever the order of the nodes (`flowDomPdom_dom`). The
post-dominator sweeps start every refinement from `info.dom` in place of `info.pdom`, so that a set
they end with at the stop node has the start node too (`start_mem_pdom_stop`).

`flowDomPdom_never` has the two results together: with dominators alone every run ends and is right,
and in any mode with post-dominators the sets are wrong for every graph between a start and a stop
node. The first part rests on `DomInv`, what a sweep keeps, and on `weight`, the sum of the sizes of
the sets, which goes down. Sets are those of block ids, also negative ones, since the stop node has
one.
-/

namespace OpenImpact.Bdf

open Foundation SignedSet

/-- The id of the node with `BDF_NODE_START`. -/
def startId : ℤ := -1

/-- The id of the node with `BDF_NODE_STOP`. -/
def stopId : ℤ := -2

/-- `BDF_Graph`: the node list by ids, and where the arcs of a node lead. -/
structure Graph where
  cb : List ℤ
  pred : ℤ → List ℤ
  exit : ℤ → List ℤ

/-- `info.dom` and `info.pdom` of the nodes. -/
structure Info where
  dom : ℤ → Option SignedSet
  pdom : ℤ → Option SignedSet

/-- The fields of new nodes. -/
def Info.fresh : Info := ⟨fun _ ↦ none, fun _ ↦ none⟩

/-- `g->node_U`. -/
def Graph.nodeU (g : Graph) : Option SignedSet := g.cb.foldl add none

/-- `mode & (DOMINATOR | DOMINATOR_CB | DOMINATOR_INT)`. -/
def wantsDom (mode : ℕ) : Prop := mode &&& (0x1 ||| 0x100 ||| 0x1000) ≠ 0

/-- `mode & (POST_DOMINATOR | POST_DOMINATOR_CB | POST_DOMINATOR_INT)`. -/
def wantsPdom (mode : ℕ) : Prop := mode &&& (0x2 ||| 0x200 ||| 0x2000) ≠ 0

instance (mode : ℕ) : Decidable (wantsDom mode) := inferInstanceAs (Decidable (_ ≠ 0))

instance (mode : ℕ) : Decidable (wantsPdom mode) := inferInstanceAs (Decidable (_ ≠ 0))

/-- The first loop of `BDF_flow_dom_pdom`. -/
def initInfo (g : Graph) (mode : ℕ) (I : Info) : Info where
  dom v := if wantsDom mode ∧ v ∈ g.cb then if v = startId then add none v else g.nodeU else I.dom v
  pdom v := if wantsPdom mode ∧ v ∈ g.cb then if v = stopId then add none v else g.nodeU else I.pdom v

/-- One sweep over the nodes for `info.dom`, and whether a set changed. -/
def domSweep (g : Graph) : List ℤ → Info → Info × Bool
  | [], I => (I, false)
  | cb :: rest, I =>
    let tmp := meetAdd (I.dom cb) ((g.pred cb).map I.dom) cb
    if Same tmp (I.dom cb) then domSweep g rest I
    else ((domSweep g rest { I with dom := Function.update I.dom cb tmp }).1, true)

/-- One sweep for `info.pdom`: here `tmp` starts with a copy of `info.dom`, too. -/
def pdomSweep (g : Graph) : List ℤ → Info → Info × Bool
  | [], I => (I, false)
  | cb :: rest, I =>
    let tmp := meetAdd (I.dom cb) ((g.exit cb).map I.pdom) cb
    if Same tmp (I.pdom cb) then pdomSweep g rest I
    else ((pdomSweep g rest { I with pdom := Function.update I.pdom cb tmp }).1, true)

/-- `do { … } while (change)` around a sweep. -/
def whileChange (sweep : Info → Info × Bool) : ℕ → Info → Run Info
  | 0, _ => throw .outOfFuel
  | fuel + 1, I =>
    if (sweep I).2 then whileChange sweep fuel (sweep I).1 else return (sweep I).1

/-- `BDF_flow_dom_pdom`. -/
def flowDomPdom (fuel : ℕ) (g : Graph) (mode : ℕ) (I : Info) : Run Info := do
  let I := initInfo g mode I
  let I ← if wantsDom mode then whileChange (domSweep g g.cb) fuel I else pure I
  if wantsPdom mode then whileChange (pdomSweep g g.cb) fuel I else return I

/-! ### What the sets are for -/

/-- There is an arc from `u` to `v`. -/
def Graph.Arc (g : Graph) (u v : ℤ) : Prop := u ∈ g.pred v

instance (g : Graph) (u v : ℤ) : Decidable (g.Arc u v) := inferInstanceAs (Decidable (u ∈ g.pred v))

/-- A flow graph as `BDF_new_graph` builds it: every arc is listed at both its ends, and every node is on
a way from the start node to the stop node. -/
structure IsFlowGraph (g : Graph) : Prop where
  nodup : g.cb.Nodup
  start_mem : startId ∈ g.cb
  stop_mem : stopId ∈ g.cb
  pred_mem : ∀ v ∈ g.cb, ∀ u ∈ g.pred v, u ∈ g.cb
  exit_mem : ∀ v ∈ g.cb, ∀ u ∈ g.exit v, u ∈ g.cb
  exit_iff : ∀ u ∈ g.cb, ∀ v ∈ g.cb, v ∈ g.exit u ↔ u ∈ g.pred v
  pred_start : g.pred startId = []
  exit_stop : g.exit stopId = []
  reach : ∀ v ∈ g.cb, Relation.ReflTransGen g.Arc startId v
  coreach : ∀ v ∈ g.cb, Relation.ReflTransGen g.Arc v stopId

/-- The sets `dom` are the sets of dominators. -/
def DomRight (g : Graph) (dom : ℤ → Option SignedSet) : Prop :=
  ∀ v ∈ g.cb, ∀ x, Mem (dom v) x ↔ Dominates g.Arc startId x v

/-- The sets `pdom` are the sets of post-dominators. -/
def PdomRight (g : Graph) (pdom : ℤ → Option SignedSet) : Prop :=
  ∀ v ∈ g.cb, ∀ x, Mem (pdom v) x ↔ PostDominates g.Arc stopId x v

/-- Called with `mode`, the function terminates with both kinds of sets right, and with `pmode` it gives
the same post-dominators. -/
def DomPdomRight (g : Graph) (mode pmode : ℕ) : Prop :=
  ∃ fuel I, flowDomPdom fuel g mode .fresh = .ok I ∧ DomRight g I.dom ∧ PdomRight g I.pdom ∧
    ∃ fuel' I', flowDomPdom fuel' g pmode .fresh = .ok I' ∧ ∀ v ∈ g.cb, Same (I'.pdom v) (I.pdom v)

variable {g : Graph} {I I' : Info} {dom : ℤ → Option SignedSet} {v x : ℤ}

/-! ### The dominator sweeps -/

/-- What holds of the sets between two steps of the dominator sweeps. -/
structure DomInv (g : Graph) (dom : ℤ → Option SignedSet) : Prop where
  hasNeg : ∀ v ∈ g.cb, HasNeg (dom v)
  self : ∀ v ∈ g.cb, Mem (dom v) v
  mem_cb : ∀ v ∈ g.cb, ∀ x, Mem (dom v) x → x ∈ g.cb
  start : ∀ x, Mem (dom startId) x → x = startId
  /-- No dominator is missing. -/
  mem : ∀ v ∈ g.cb, ∀ x, Dominates g.Arc startId x v → Mem (dom v) x

/-- The new set of a node. -/
def newDom (g : Graph) (dom : ℤ → Option SignedSet) (v : ℤ) : Option SignedSet :=
  meetAdd (dom v) ((g.pred v).map dom) v

theorem DomInv.mem_newDom (h : DomInv g dom) (hg : IsFlowGraph g) (hv : v ∈ g.cb) :
    Mem (newDom g dom v) x ↔ Mem (dom v) x ∧ (x = v ∨ ∀ u ∈ g.pred v, Mem (dom u) x) := by
  have hothers : ∀ t ∈ (g.pred v).map dom, HasNeg t := by
    rintro t ht
    obtain ⟨u, hu, rfl⟩ := List.mem_map.1 ht
    exact h.hasNeg u (hg.pred_mem v hv u hu)
  rw [newDom, mem_meetAdd hothers, List.forall_mem_map]
  constructor
  · rintro (rfl | ⟨hx, hall⟩)
    · exact ⟨h.self x hv, .inl rfl⟩
    · exact ⟨hx, .inr hall⟩
  · rintro ⟨hx, rfl | hall⟩
    · exact .inl rfl
    · exact .inr ⟨hx, hall⟩

/-- **A step keeps the invariant**: what dominates a node other than itself dominates the nodes with an
arc to it. -/
theorem DomInv.update (h : DomInv g dom) (hg : IsFlowGraph g) (hv : v ∈ g.cb) :
    DomInv g (Function.update dom v (newDom g dom v)) := by
  have hmem : ∀ w ∈ g.cb, ∀ x, Mem (Function.update dom v (newDom g dom v) w) x → Mem (dom w) x := by
    intro w hw x hx
    by_cases hwv : w = v
    · subst hwv
      rw [Function.update_self] at hx
      exact ((h.mem_newDom hg hv).1 hx).1
    · rwa [Function.update_of_ne hwv] at hx
  refine ⟨fun w hw ↦ ?_, fun w hw ↦ ?_, fun w hw x hx ↦ h.mem_cb w hw x (hmem w hw x hx),
    fun x hx ↦ h.start x (hmem startId hg.start_mem x hx), fun w hw x hx ↦ ?_⟩
  · by_cases hwv : w = v
    · subst hwv
      rw [Function.update_self]
      refine hasNeg_meetAdd (h.hasNeg w hw) (fun t ht ↦ ?_) w
      obtain ⟨u, hu, rfl⟩ := List.mem_map.1 ht
      exact h.hasNeg u (hg.pred_mem w hw u hu)
    · rw [Function.update_of_ne hwv]
      exact h.hasNeg w hw
  · by_cases hwv : w = v
    · subst hwv
      rw [Function.update_self, h.mem_newDom hg hw]
      exact ⟨h.self w hw, .inl rfl⟩
    · rw [Function.update_of_ne hwv]
      exact h.self w hw
  · by_cases hwv : w = v
    · subst hwv
      rw [Function.update_self, h.mem_newDom hg hw]
      refine ⟨h.mem w hw x hx, or_iff_not_imp_left.2 fun hne u hu ↦ ?_⟩
      exact h.mem u (hg.pred_mem w hw u hu) x (hx.of_avoiding (.single ⟨hu, Ne.symm hne⟩))
    · rw [Function.update_of_ne hwv]
      exact h.mem w hw x hx

/-- The number of elements in the sets of all nodes. -/
def weight (g : Graph) (dom : ℤ → Option SignedSet) : ℕ :=
  ∑ v ∈ g.cb.toFinset, (g.cb.toFinset.filter fun x ↦ Mem (dom v) x).card

theorem DomInv.weight_update_lt (h : DomInv g dom) (hg : IsFlowGraph g) (hv : v ∈ g.cb)
    (hne : ¬Same (newDom g dom v) (dom v)) :
    weight g (Function.update dom v (newDom g dom v)) < weight g dom := by
  refine Finset.sum_lt_sum (fun w hw ↦ Finset.card_le_card fun x hx ↦ ?_)
    ⟨v, List.mem_toFinset.2 hv, Finset.card_lt_card ?_⟩
  · rw [Finset.mem_filter] at hx ⊢
    refine ⟨hx.1, ?_⟩
    by_cases hwv : w = v
    · subst hwv
      exact ((h.mem_newDom hg hv).1 (by simpa using hx.2)).1
    · simpa [hwv] using hx.2
  · rw [Function.update_self]
    rw [same_iff, not_forall] at hne
    obtain ⟨x, hx⟩ := hne
    have hold : Mem (dom v) x ∧ ¬Mem (newDom g dom v) x := by
      by_contra hnot
      refine hx ⟨fun hnew ↦ ((h.mem_newDom hg hv).1 hnew).1, fun hold ↦ ?_⟩
      by_contra hnew
      exact hnot ⟨hold, hnew⟩
    refine (Finset.ssubset_iff_of_subset fun y hy ↦ ?_).2 ⟨x, ?_, ?_⟩
    · rw [Finset.mem_filter] at hy ⊢
      exact ⟨hy.1, ((h.mem_newDom hg hv).1 hy.2).1⟩
    · exact Finset.mem_filter.2 ⟨List.mem_toFinset.2 (h.mem_cb v hv x hold.1), hold.1⟩
    · exact fun hmem ↦ hold.2 (Finset.mem_filter.1 hmem).2

/-- **A sweep** keeps the invariant and loses weight if it changes a set; without a change, every set is
as its step computes it. -/
theorem domSweep_spec (hg : IsFlowGraph g) {l : List ℤ} (hl : ∀ v ∈ l, v ∈ g.cb) (h : DomInv g I.dom) :
    DomInv g (domSweep g l I).1.dom ∧ (domSweep g l I).1.pdom = I.pdom ∧
      weight g (domSweep g l I).1.dom ≤ weight g I.dom ∧
      ((domSweep g l I).2 = true → weight g (domSweep g l I).1.dom < weight g I.dom) ∧
      ((domSweep g l I).2 = false →
        (domSweep g l I).1 = I ∧ ∀ v ∈ l, Same (newDom g I.dom v) (I.dom v)) := by
  induction l generalizing I with
  | nil => exact ⟨h, rfl, le_rfl, nofun, fun _ ↦ ⟨rfl, nofun⟩⟩
  | cons v l ih =>
    have hrest : ∀ w ∈ l, w ∈ g.cb := fun w hw ↦ hl w (List.mem_cons_of_mem v hw)
    have hv := hl v List.mem_cons_self
    rw [domSweep]
    change _ ∧ _
    by_cases hsame : Same (newDom g I.dom v) (I.dom v)
    · rw [if_pos (show Same (meetAdd (I.dom v) ((g.pred v).map I.dom) v) (I.dom v) from hsame)]
      obtain ⟨hinv, hpdom, hle, hlt, hdone⟩ := ih hrest h
      exact ⟨hinv, hpdom, hle, hlt, fun hno ↦ ⟨(hdone hno).1,
        List.forall_mem_cons.2 ⟨hsame, (hdone hno).2⟩⟩⟩
    · rw [if_neg (show ¬Same (meetAdd (I.dom v) ((g.pred v).map I.dom) v) (I.dom v) from hsame)]
      have hweight := h.weight_update_lt hg hv hsame
      obtain ⟨hinv, hpdom, hle, -, -⟩ := ih hrest (I := { I with
        dom := Function.update I.dom v (newDom g I.dom v) }) (h.update hg hv)
      exact ⟨hinv, hpdom, hle.trans hweight.le, fun _ ↦ hle.trans_lt hweight, nofun⟩

/-- **The dominator sweeps end**, with sets that their steps leave as they are. -/
theorem whileChange_domSweep (hg : IsFlowGraph g) {fuel : ℕ} (h : DomInv g I.dom)
    (hfuel : weight g I.dom < fuel) :
    ∃ I', whileChange (domSweep g g.cb) fuel I = .ok I' ∧ DomInv g I'.dom ∧ I'.pdom = I.pdom ∧
      ∀ v ∈ g.cb, Same (newDom g I'.dom v) (I'.dom v) := by
  induction fuel generalizing I with
  | zero => omega
  | succ fuel ih =>
    obtain ⟨hinv, hpdom, -, hlt, hdone⟩ := domSweep_spec hg (fun _ hv ↦ hv) h
    rw [whileChange]
    by_cases hchange : (domSweep g g.cb I).2 = true
    · rw [if_pos hchange]
      have hless := hlt hchange
      obtain ⟨I', hrun, hinv', hpdom', hsame⟩ := ih hinv (by omega)
      exact ⟨I', hrun, hinv', hpdom'.trans hpdom, hsame⟩
    · rw [if_neg hchange]
      obtain ⟨heq, hsame⟩ := hdone (Bool.not_eq_true _ ▸ hchange)
      exact ⟨_, rfl, hinv, hpdom, heq.symm ▸ hsame⟩

theorem mem_nodeU : Mem g.nodeU x ↔ x ∈ g.cb := by
  suffices h : ∀ (l : List ℤ) s, Mem (l.foldl add s) x ↔ x ∈ l ∨ Mem s x by
    rw [Graph.nodeU, h, or_iff_left not_mem_none]
  intro l
  induction l with
  | nil => simp
  | cons y l ih =>
    intro s
    rw [List.foldl_cons, ih, mem_add, List.mem_cons]
    tauto

theorem hasNeg_nodeU (hstart : startId ∈ g.cb) : HasNeg g.nodeU := by
  suffices h : ∀ (l : List ℤ) s, startId ∈ l ∨ HasNeg s → HasNeg (l.foldl add s) from h _ _ (.inl hstart)
  intro l
  induction l with
  | nil => exact fun s h ↦ h.resolve_left List.not_mem_nil
  | cons y l ih =>
    intro s h
    rw [List.foldl_cons]
    refine ih _ ?_
    rcases h with h | h
    · rcases List.mem_cons.1 h with rfl | h
      · exact .inr (hasNeg_add (.inr (by decide)))
      · exact .inl h
    · exact .inr (hasNeg_add (.inl h))

theorem domInv_initInfo (hg : IsFlowGraph g) {mode : ℕ} (hmode : wantsDom mode) (I : Info) :
    DomInv g (initInfo g mode I).dom := by
  have hset : ∀ v ∈ g.cb, (initInfo g mode I).dom v = if v = startId then add none v else g.nodeU :=
    fun v hv ↦ if_pos ⟨hmode, hv⟩
  have hmem : ∀ v ∈ g.cb, ∀ x, Mem ((initInfo g mode I).dom v) x ↔
      if v = startId then x = v else x ∈ g.cb := by
    intro v hv x
    rw [hset v hv]
    split_ifs
    · simp
    · exact mem_nodeU
  refine ⟨fun v hv ↦ ?_, fun v hv ↦ ?_, fun v hv x hx ↦ ?_, fun x hx ↦ ?_, fun v hv x hx ↦ ?_⟩
  · rw [hset v hv]
    split_ifs with hstart
    · exact hasNeg_add (.inr (hstart ▸ by decide))
    · exact hasNeg_nodeU hg.start_mem
  · rw [hmem v hv]
    split_ifs
    · rfl
    · exact hv
  · rw [hmem v hv] at hx
    split_ifs at hx
    · exact hx ▸ hv
    · exact hx
  · rwa [hmem startId hg.start_mem, if_pos rfl] at hx
  · rw [hmem v hv]
    split_ifs with hstart
    · subst hstart
      exact List.mem_singleton.1 (hx _ (.nil _))
    · -- a way to `v` has nodes only
      have hnodes : ∀ {a l b}, Walk g.Arc a l b → b ∈ g.cb → ∀ y ∈ l, y ∈ g.cb := by
        intro a l b hwalk hb
        induction hwalk with
        | nil a => exact fun y hy ↦ List.mem_singleton.1 hy ▸ hb
        | @cons a b c l hab hwalk ih =>
          have hmem := ih hb
          exact List.forall_mem_cons.2 ⟨hg.pred_mem b (hmem b hwalk.head_mem) a hab, hmem⟩
      obtain ⟨l, hwalk⟩ := exists_walk (hg.reach v hv)
      exact hnodes hwalk hv x (hx l hwalk)

/-- Sets that their steps leave as they are have no other elements than dominators. -/
theorem DomInv.domRight (h : DomInv g dom) (hg : IsFlowGraph g)
    (hsame : ∀ v ∈ g.cb, Same (newDom g dom v) (dom v)) : DomRight g dom := by
  refine fun v hv x ↦ ⟨fun hx ↦ ?_, h.mem v hv x⟩
  rw [dominates_iff_not_avoiding]
  by_cases hxs : x = startId
  · exact .inl hxs
  refine .inr fun hchain ↦ ?_
  suffices hnot : v ∈ g.cb → ¬Mem (dom v) x from hnot hv hx
  clear hx hv
  -- along a way from the start that avoids `x`, no set has `x`
  induction hchain with
  | refl => exact fun _ hx ↦ hxs (h.start x hx)
  | @tail u w _ huw ih =>
    intro hw hx
    rw [← same_iff.1 (hsame w hw), h.mem_newDom hg hw] at hx
    rcases hx.2 with rfl | hall
    · exact huw.2 rfl
    · exact ih (hg.pred_mem w hw u huw.1) (hall u huw.1)

/-- **The dominators are right**, in every order of the nodes. -/
theorem flowDomPdom_dom (hg : IsFlowGraph g) {mode : ℕ} (hmode : wantsDom mode)
    (hpmode : ¬wantsPdom mode) (I : Info) :
    ∃ fuel I', flowDomPdom fuel g mode I = .ok I' ∧ DomRight g I'.dom := by
  have hinv := domInv_initInfo hg hmode I
  obtain ⟨I', hrun, hinv', -, hsame⟩ := whileChange_domSweep hg hinv (Nat.lt_succ_self _)
  refine ⟨weight g (initInfo g mode I).dom + 1, I', ?_, hinv'.domRight hg hsame⟩
  simp only [flowDomPdom, if_pos hmode, hrun, Run.ok_bind, if_neg hpmode]
  rfl

/-! ### The post-dominator sweeps -/

/-- The post-dominator sweeps end with sets that their steps leave as they are, if they end. -/
theorem pdomSweep_spec {l : List ℤ} : (pdomSweep g l I).1.dom = I.dom ∧
    ((pdomSweep g l I).2 = false → (pdomSweep g l I).1 = I ∧
      ∀ v ∈ l, Same (meetAdd (I.dom v) ((g.exit v).map I.pdom) v) (I.pdom v)) := by
  induction l generalizing I with
  | nil => exact ⟨rfl, fun _ ↦ ⟨rfl, nofun⟩⟩
  | cons v l ih =>
    rw [pdomSweep]
    by_cases hsame : Same (meetAdd (I.dom v) ((g.exit v).map I.pdom) v) (I.pdom v)
    · rw [if_pos hsame]
      refine ⟨ih.1, fun hno ↦ ?_⟩
      obtain ⟨heq, hall⟩ := ih.2 hno
      exact ⟨heq, List.forall_mem_cons.2 ⟨hsame, hall⟩⟩
    · rw [if_neg hsame]
      exact ⟨ih.1, nofun⟩

theorem whileChange_pdomSweep {fuel : ℕ} (hrun : whileChange (pdomSweep g g.cb) fuel I = .ok I') :
    I'.dom = I.dom ∧
      ∀ v ∈ g.cb, Same (meetAdd (I'.dom v) ((g.exit v).map I'.pdom) v) (I'.pdom v) := by
  induction fuel generalizing I with
  | zero => cases hrun
  | succ fuel ih =>
    rw [whileChange] at hrun
    obtain ⟨hdom, hdone⟩ := pdomSweep_spec (g := g) (l := g.cb) (I := I)
    split_ifs at hrun with hchange
    · obtain ⟨hdom', hall⟩ := ih hrun
      exact ⟨hdom'.trans hdom, hall⟩
    · obtain ⟨heq, hall⟩ := hdone (Bool.not_eq_true _ ▸ hchange)
      obtain rfl := Except.ok.inj hrun
      exact ⟨hdom, by rwa [heq]⟩

/-- The set the sweeps end with at the stop node is its set of dominators, where they are right. -/
theorem start_mem_pdom_stop (hg : IsFlowGraph g) {fuel mode : ℕ} (hpmode : wantsPdom mode)
    (hrun : flowDomPdom fuel g mode I = .ok I') (hdom : DomRight g I'.dom) :
    Mem (I'.pdom stopId) startId := by
  obtain ⟨I₁, hpdom⟩ : ∃ I₁, whileChange (pdomSweep g g.cb) fuel I₁ = .ok I' := by
    simp only [flowDomPdom, if_pos hpmode] at hrun
    split_ifs at hrun
    · obtain ⟨I₁, -, hpdom⟩ := Run.bind_eq_ok.1 hrun
      exact ⟨I₁, hpdom⟩
    · exact ⟨_, hrun⟩
  obtain ⟨-, hsame⟩ := whileChange_pdomSweep hpdom
  rw [← same_iff.1 (hsame stopId hg.stop_mem), hg.exit_stop, mem_meetAdd (by simp)]
  exact .inr ⟨(hdom stopId hg.stop_mem startId).2 fun _ hl ↦ hl.head_mem, by simp⟩

theorem not_pdomRight (hg : IsFlowGraph g) {mode pmode : ℕ} (hpmode : wantsPdom mode) :
    ¬DomPdomRight g mode pmode := by
  rintro ⟨fuel, I, hrun, hdom, hpdom, -⟩
  have hmem := start_mem_pdom_stop hg hpmode hrun hdom
  have hpost := (hpdom stopId hg.stop_mem startId).1 hmem
  exact absurd (List.mem_singleton.1 (hpost _ (.nil stopId))) (by decide)

/-- **Dominators alone are right in every flow graph; with post-dominators no result is right.** -/
theorem flowDomPdom_never (hg : IsFlowGraph g) :
    (∀ mode, wantsDom mode → ¬wantsPdom mode → ∀ I, ∃ fuel I', flowDomPdom fuel g mode I = .ok I' ∧
      DomRight g I'.dom) ∧
    ∀ mode pmode, wantsPdom mode → ¬DomPdomRight g mode pmode :=
  ⟨fun _ hmode hpmode I ↦ flowDomPdom_dom hg hmode hpmode I, fun _ _ hpmode ↦ not_pdomRight hg hpmode⟩

/-- One block between the start and the stop node. -/
def straight : Graph where
  cb := [startId, 1, stopId]
  pred v := if v = 1 then [startId] else if v = stopId then [1] else []
  exit v := if v = startId then [1] else if v = 1 then [stopId] else []

theorem isFlowGraph_straight : IsFlowGraph straight := by
  have hstart : straight.Arc startId 1 := by decide
  have hstop : straight.Arc 1 stopId := by decide
  refine ⟨by decide, by decide, by decide, by decide, by decide, by decide, rfl, rfl, fun v hv ↦ ?_,
    fun v hv ↦ ?_⟩
  · simp only [straight, List.mem_cons, List.not_mem_nil, or_false] at hv
    rcases hv with rfl | rfl | rfl
    · exact .refl
    · exact .single hstart
    · exact .tail (.single hstart) hstop
  · simp only [straight, List.mem_cons, List.not_mem_nil, or_false] at hv
    rcases hv with rfl | rfl | rfl
    · exact .tail (.single hstart) hstop
    · exact .single hstop
    · exact .refl

theorem flowDomPdom_never_straight :
    (∃ fuel I', flowDomPdom fuel straight 1 .fresh = .ok I' ∧ DomRight straight I'.dom) ∧
      ¬DomPdomRight straight 3 2 :=
  ⟨(flowDomPdom_never isFlowGraph_straight).1 1 (by decide) (by decide) .fresh,
    (flowDomPdom_never isFlowGraph_straight).2 3 2 (by decide)⟩

/-- The stop node is post-dominated by itself, but its set has the other nodes as well. -/
theorem not_domPdomRight_straight :
    IsFlowGraph straight ∧ ¬DomPdomRight straight (0x1 ||| 0x2) 0x2 ∧
      (flowDomPdom 4 straight (0x1 ||| 0x2) .fresh).toOption.map
        (fun I ↦ straight.cb.filter fun x ↦ Mem (I.pdom stopId) x) = some [startId, 1, stopId] :=
  ⟨isFlowGraph_straight, not_pdomRight isFlowGraph_straight (by decide), by decide⟩

end OpenImpact.Bdf
