import OpenImpact.Foundation.DomFrontier
import OpenImpact.Lcode.DomSetup
import Mathlib.Data.Fintype.EquivFin
import Mathlib.Data.Finset.Sort

/-!
# Dominance frontiers

`LD_dom_front` walks the dominator tree in postorder and collects the frontier of a node from its
successors and from the frontiers of its children; `LD_df_plus` iterates frontiers of sets until nothing
changes. On a correct dominator tree both give what they are meant to: the frontier of every node
(`domFront_eq`) and the least set that is the frontier of itself with the given nodes (`dfPlus_eq`).

The field `df` is kept apart from the other fields, as a set of numbers for every node.
-/

namespace OpenImpact.LD

open Foundation

variable {α : Type} [DecidableEq α]

/-- `if (p) LD_pod_visit (pod, p);` -/
def visitIf (visit : List α → α → Run (List α)) (pod : List α) : Option α → Run (List α)
  | none => return pod
  | some p => visit pod p

/-- `LD_pod_visit`, which appends to `pod`. -/
def podVisit (st : Dom α) : ℕ → List α → α → Run (List α)
  | 0, _, _ => .error .outOfFuel
  | fuel + 1, pod, node => do
    let pod ← visitIf (podVisit st fuel) pod (st.dtchi node)
    visitIf (podVisit st fuel) (pod ++ [node]) (st.dtsib node)

/-- `if (!Set_in (v->ridom, dfn)) v->df = Set_add (v->df, i)`, with the number `dfn` of a node. -/
def addFront (st : Dom α) (v : α) (dfn i : ℕ) (df : α → Finset ℕ) : α → Finset ℕ :=
  if dfn ∈ st.ridom v then df else Function.update df v (insert i (df v))

/-- The loop over the successors of `v`. -/
def localFront (g : ControlGraph α) (st : Dom α) (v : α) (df : α → Finset ℕ) : Run (α → Finset ℕ) :=
  (g.succ v).foldlM (fun df u ↦ do
    let dfn ← deref (st.dfn u)
    return addFront st v dfn dfn df) df

/-- The loop over the frontier of the child `u` of `v`. -/
def upFront (st : Dom α) (v u : α) (df : α → Finset ℕ) : Run (α → Finset ℕ) :=
  ((df u).sort (· ≤ ·)).foldlM (fun df j ↦ do
    let w ← ldNode st j
    let dfn ← deref (st.dfn w)
    return addFront st v dfn j df) df

/-- The loop over the children of `v` from `u` on. -/
def upLoop (st : Dom α) (v : α) : ℕ → Option α → (α → Finset ℕ) → Run (α → Finset ℕ)
  | _, none, df => return df
  | 0, some _, _ => .error .outOfFuel
  | fuel + 1, some u, df => do
    let df ← upFront st v u df
    upLoop st v fuel (st.dtsib u) df

/-- The body of the loop of `LD_dom_front`. -/
def nodeFront [Fintype α] (g : ControlGraph α) (st : Dom α) (df : α → Finset ℕ) (v : α) :
    Run (α → Finset ℕ) := do
  let df ← localFront g st v df
  upLoop st v (Fintype.card α) (st.dtchi v) df

/-- `LD_dom_front`, on nodes without frontiers. -/
def domFront [Fintype α] (g : ControlGraph α) (st : Dom α) : Run (α → Finset ℕ) := do
  let root ← ldNode st 1
  let pod ← podVisit st (Fintype.card α) [] root
  pod.foldlM (nodeFront g st) fun _ ↦ ∅

/-- `LD_df_set`. -/
def dfSet (st : Dom α) (df : α → Finset ℕ) (nodes : Finset ℕ) : Run (Finset ℕ) :=
  (nodes.sort (· ≤ ·)).foldlM (fun acc i ↦ do
    let cr ← ldNode st i
    return acc ∪ df cr) ∅

/-- The loop of `LD_df_plus`. -/
def dfPlusLoop (st : Dom α) (df : α → Finset ℕ) (nodes : Finset ℕ) : ℕ → Finset ℕ → Run (Finset ℕ)
  | 0, _ => .error .outOfFuel
  | fuel + 1, dfp => do
    let dfpn ← dfSet st df (dfp ∪ nodes)
    if dfp ≠ dfpn then dfPlusLoop st df nodes fuel dfpn else return dfpn

/-- `LD_df_plus`. -/
def dfPlus [Fintype α] (st : Dom α) (df : α → Finset ℕ) (nodes : Finset ℕ) : Run (Finset ℕ) := do
  let dfp ← dfSet st df nodes
  dfPlusLoop st df nodes (Fintype.card α + 1) dfp

/-! ### The dominator tree -/

/-- The nodes of `cs` are linked by `dtsib`, from where `o` points to. -/
def SibChain (st : Dom α) : Option α → List α → Prop
  | o, [] => o = none
  | o, c :: cs => o = some c ∧ SibChain st (st.dtsib c) cs

/-- The fields of `st` are a correct dominator tree, with numbered nodes. -/
structure IsDomTree (g : ControlGraph α) (st : Dom α) : Prop where
  numbered : ∀ v, ∃ i, st.dfn v = some i ∧ st.nhash i = some v
  root : st.nhash 1 = some g.root
  idom : ∀ w, w ≠ g.root → ∃ d, st.idom w = some d ∧ IsIdom g.Edge g.root d w
  ridom : ∀ d i, i ∈ st.ridom d ↔ ∃ w, st.dfn w = some i ∧ IsIdom g.Edge g.root d w
  children : ∀ v, ∃ cs, cs.Nodup ∧ SibChain st (st.dtchi v) cs ∧
    ∀ w, w ∈ cs ↔ IsIdom g.Edge g.root v w
  dtsib_root : st.dtsib g.root = none

/-- The nodes with the numbers `N`. -/
def nodesOf (st : Dom α) (N : Finset ℕ) : Set α := {v | ∃ i ∈ N, st.dfn v = some i}

/-- The set `s` has the numbers of the frontier of `v`. -/
def IsFront (g : ControlGraph α) (st : Dom α) (v : α) (s : Finset ℕ) : Prop :=
  ∀ i, i ∈ s ↔ ∃ w, st.dfn w = some i ∧ InFrontier g.Edge g.root v w

variable {g : ControlGraph α} {st : Dom α} {v : α} {df : α → Finset ℕ}

omit [DecidableEq α] in
theorem IsDomTree.ldNode_eq [DecidableEq α] (h : IsDomTree g st) {i : ℕ} (hi : st.dfn v = some i) :
    ldNode st i = .ok v := by
  obtain ⟨j, hj, hnode⟩ := h.numbered v
  obtain rfl := Option.some.inj (hj.symm.trans hi)
  rw [ldNode, hnode]

theorem IsDomTree.dfn_inj (h : IsDomTree g st) {w : α} {i : ℕ} (hv : st.dfn v = some i)
    (hw : st.dfn w = some i) : v = w :=
  Except.ok.inj ((h.ldNode_eq hv).symm.trans (h.ldNode_eq hw))

theorem IsDomTree.mem_ridom_iff (h : IsDomTree g st) {w : α} {i : ℕ} (hi : st.dfn w = some i) :
    i ∈ st.ridom v ↔ IsIdom g.Edge g.root v w := by
  rw [h.ridom]
  exact ⟨fun ⟨x, hx, hidom⟩ ↦ h.dfn_inj hx hi ▸ hidom, fun hidom ↦ ⟨w, hi, hidom⟩⟩

/-! ### One node -/

/-- A loop that offers numbers for the frontier of `v` changes no other frontier and adds the numbers of
nodes that `v` does not immediately dominate. -/
theorem foldlM_addFront (h : IsDomTree g st) (df : α → Finset ℕ) {ι : Type} {l : List ι}
    {f : (α → Finset ℕ) → ι → Run (α → Finset ℕ)} (node : ι → α)
    (hf : ∀ x ∈ l, ∀ df, ∃ i, st.dfn (node x) = some i ∧ f df x = .ok (addFront st v i i df)) :
    ∃ df', l.foldlM f df = .ok df' ∧ (∀ w, w ≠ v → df' w = df w) ∧
      ∀ i, i ∈ df' v ↔ i ∈ df v ∨
        ∃ x ∈ l, st.dfn (node x) = some i ∧ ¬IsIdom g.Edge g.root v (node x) := by
  induction l generalizing df with
  | nil => exact ⟨df, rfl, fun _ _ ↦ rfl, by simp⟩
  | cons x l ih =>
    obtain ⟨j, hj, hstep⟩ := hf x List.mem_cons_self df
    obtain ⟨df', hrun, hframe, hmem⟩ := ih (addFront st v j j df)
      fun y hy ↦ hf y (List.mem_cons_of_mem x hy)
    have hridom := h.mem_ridom_iff (v := v) hj
    refine ⟨df', by rw [List.foldlM_cons, hstep, Run.ok_bind, hrun], fun w hw ↦ ?_, fun i ↦ ?_⟩
    · rw [hframe w hw, addFront]
      split_ifs
      · rfl
      · exact Function.update_of_ne hw _ _
    · have hone : i ∈ addFront st v j j df v ↔
          i ∈ df v ∨ st.dfn (node x) = some i ∧ ¬IsIdom g.Edge g.root v (node x) := by
        rw [addFront, ← hridom, hj, Option.some.injEq]
        split_ifs with hin
        · simp [hin]
        · simp [hin, or_comm, eq_comm]
      rw [hmem, hone, List.exists_mem_cons_iff, or_assoc]

theorem localFront_spec (h : IsDomTree g st) (v : α) (df : α → Finset ℕ) :
    ∃ df', localFront g st v df = .ok df' ∧ (∀ w, w ≠ v → df' w = df w) ∧
      ∀ i, i ∈ df' v ↔ i ∈ df v ∨
        ∃ w, st.dfn w = some i ∧ g.Edge v w ∧ ¬IsIdom g.Edge g.root v w := by
  obtain ⟨df', hrun, hframe, hmem⟩ := foldlM_addFront (v := v) h df id
    (l := g.succ v) (f := fun df u ↦ do return addFront st v (← deref (st.dfn u)) (← deref (st.dfn u)) df)
    fun u _ df ↦ by
      obtain ⟨i, hi, -⟩ := h.numbered u
      exact ⟨i, hi, by simp [hi, deref]⟩
  refine ⟨df', ?_, hframe, fun i ↦ (hmem i).trans (or_congr_right ?_)⟩
  · rw [← hrun, localFront]
    congr 1
    funext df u
    cases st.dfn u <;> rfl
  · exact ⟨fun ⟨w, hw, hi, hnot⟩ ↦ ⟨w, hi, hw, hnot⟩, fun ⟨w, hi, hw, hnot⟩ ↦ ⟨w, hw, hi, hnot⟩⟩

theorem upFront_spec (h : IsDomTree g st) {u : α} (hu : IsFront g st u (df u)) :
    ∃ df', upFront st v u df = .ok df' ∧ (∀ w, w ≠ v → df' w = df w) ∧
      ∀ i, i ∈ df' v ↔ i ∈ df v ∨
        ∃ w, st.dfn w = some i ∧ InFrontier g.Edge g.root u w ∧ ¬IsIdom g.Edge g.root v w := by
  obtain ⟨df', hrun, hframe, hmem⟩ := foldlM_addFront (v := v) h df (fun j ↦ (st.nhash j).getD v)
    (l := (df u).sort (· ≤ ·))
    (f := fun df j ↦ do
      let w ← ldNode st j
      let dfn ← deref (st.dfn w)
      return addFront st v dfn j df) fun j hj df ↦ by
      obtain ⟨w, hw, -⟩ := (hu j).1 ((Finset.mem_sort _).1 hj)
      have hnode := h.ldNode_eq hw
      obtain ⟨i, hi, hnhash⟩ := h.numbered w
      obtain rfl := Option.some.inj (hi.symm.trans hw)
      exact ⟨i, by rw [hnhash]; exact hi, by rw [hnode, Run.ok_bind, hi]; rfl⟩
  refine ⟨df', hrun, hframe, fun i ↦ (hmem i).trans (or_congr_right ?_)⟩
  constructor
  · rintro ⟨j, hj, hi, hnot⟩
    obtain ⟨w, hw, hfront⟩ := (hu j).1 ((Finset.mem_sort _).1 hj)
    obtain ⟨k, hk, hnhash⟩ := h.numbered w
    obtain rfl := Option.some.inj (hk.symm.trans hw)
    rw [hnhash, Option.getD_some] at hi hnot
    exact ⟨w, hi, hfront, hnot⟩
  · rintro ⟨w, hi, hfront, hnot⟩
    obtain ⟨k, hk, hnhash⟩ := h.numbered w
    obtain rfl := Option.some.inj (hk.symm.trans hi)
    exact ⟨k, (Finset.mem_sort _).2 ((hu k).2 ⟨w, hi, hfront⟩), by rw [hnhash]; exact hi,
      by rw [hnhash]; exact hnot⟩

theorem upLoop_spec (h : IsDomTree g st) (df : α → Finset ℕ) {cs : List α} {o : Option α} {fuel : ℕ}
    (hchain : SibChain st o cs) (hne : v ∉ cs) (hcs : ∀ c ∈ cs, IsFront g st c (df c))
    (hfuel : cs.length ≤ fuel) :
    ∃ df', upLoop st v fuel o df = .ok df' ∧ (∀ w, w ≠ v → df' w = df w) ∧
      ∀ i, i ∈ df' v ↔ i ∈ df v ∨ ∃ c ∈ cs, ∃ w, st.dfn w = some i ∧
        InFrontier g.Edge g.root c w ∧ ¬IsIdom g.Edge g.root v w := by
  induction cs generalizing o fuel df with
  | nil =>
    obtain rfl : o = none := hchain
    exact ⟨df, by cases fuel <;> rfl, fun _ _ ↦ rfl, by simp⟩
  | cons c cs ih =>
    obtain ⟨rfl, hrest⟩ := hchain
    cases fuel with
    | zero => simp at hfuel
    | succ fuel =>
      obtain ⟨df₁, hrun₁, hframe₁, hmem₁⟩ := upFront_spec (v := v) h (hcs c List.mem_cons_self)
      rw [List.mem_cons, not_or] at hne
      obtain ⟨df', hrun, hframe, hmem⟩ := ih df₁ hrest hne.2 (fun d hd ↦ by
        rw [hframe₁ d fun heq ↦ hne.2 (heq ▸ hd)]
        exact hcs d (List.mem_cons_of_mem c hd)) (Nat.le_of_succ_le_succ hfuel)
      refine ⟨df', by rw [upLoop, hrun₁, Run.ok_bind, hrun], fun w hw ↦ (hframe w hw).trans (hframe₁ w hw),
        fun i ↦ ?_⟩
      rw [hmem, hmem₁, List.exists_mem_cons_iff, or_assoc]

/-- **One node**, after all its children. -/
theorem nodeFront_spec [Fintype α] (h : IsDomTree g st) (df : α → Finset ℕ) (hall : ∀ v, g.Reachable v)
    (hchildren : ∀ u, IsIdom g.Edge g.root v u → IsFront g st u (df u))
    (hself : ∀ i ∈ df v, ∃ w, st.dfn w = some i ∧ InFrontier g.Edge g.root v w) :
    ∃ df', nodeFront g st df v = .ok df' ∧ (∀ w, w ≠ v → df' w = df w) ∧ IsFront g st v (df' v) := by
  obtain ⟨df₁, hrun₁, hframe₁, hmem₁⟩ := localFront_spec h v df
  obtain ⟨cs, hnodup, hchain, hcs⟩ := h.children v
  have hne : v ∉ cs := fun hv ↦ ((hcs v).1 hv).ne rfl
  obtain ⟨df', hrun, hframe, hmem⟩ := upLoop_spec h df₁ hchain hne (fun c hc ↦ by
    rw [hframe₁ c fun heq ↦ hne (heq ▸ hc)]
    exact hchildren c ((hcs c).1 hc)) (hnodup.length_le_card)
  refine ⟨df', by rw [nodeFront, hrun₁, Run.ok_bind, hrun],
    fun w hw ↦ (hframe w hw).trans (hframe₁ w hw), fun i ↦ ?_⟩
  rw [hmem, hmem₁]
  constructor
  · rintro ((hold | ⟨w, hi, hedge, hnot⟩) | ⟨c, hc, w, hi, hfront, hnot⟩)
    · exact hself i hold
    · exact ⟨w, hi, (inFrontier_iff hall).2 ⟨.inl hedge, hnot⟩⟩
    · exact ⟨w, hi, (inFrontier_iff hall).2 ⟨.inr ⟨c, (hcs c).1 hc, hfront⟩, hnot⟩⟩
  · rintro ⟨w, hi, hfront⟩
    obtain ⟨hedge | ⟨u, hu, hufront⟩, hnot⟩ := (inFrontier_iff hall).1 hfront
    · exact .inl (.inr ⟨w, hi, hedge, hnot⟩)
    · exact .inr ⟨u, (hcs u).2 hu, w, hi, hufront, hnot⟩

/-! ### The postorder -/

/-- The children of every node of the list come before it. -/
inductive PostOrder (g : ControlGraph α) : List α → Prop
  | nil : PostOrder g []
  | snoc {l : List α} {v : α} (hl : PostOrder g l) (hv : ∀ u, IsIdom g.Edge g.root v u → u ∈ l) :
    PostOrder g (l ++ [v])

/-- **The nodes of a postorder** have their frontiers afterwards. -/
theorem PostOrder.foldlM_nodeFront [Fintype α] {l : List α} (hl : PostOrder g l) (h : IsDomTree g st)
    (hall : ∀ v, g.Reachable v) :
    ∃ df, l.foldlM (nodeFront g st) (fun _ ↦ ∅) = .ok df ∧ (∀ v ∈ l, IsFront g st v (df v)) ∧
      ∀ v, v ∉ l → df v = ∅ := by
  induction hl with
  | nil => exact ⟨_, rfl, nofun, fun _ _ ↦ rfl⟩
  | @snoc l v _ hv ih =>
    obtain ⟨df, hrun, hdone, hempty⟩ := ih
    obtain ⟨df', hrun', hframe, hfront⟩ := nodeFront_spec (v := v) h df hall
      (fun u hu ↦ hdone u (hv u hu)) fun i hi ↦ by
        by_cases hmem : v ∈ l
        · exact (hdone v hmem i).1 hi
        · rw [hempty v hmem] at hi
          exact absurd hi (Finset.notMem_empty i)
    refine ⟨df', by rw [List.foldlM_append, hrun, Run.ok_bind, List.foldlM_cons, hrun']; rfl,
      fun w hw ↦ ?_, fun w hw ↦ ?_⟩
    · by_cases hwv : w = v
      · exact hwv ▸ hfront
      · rw [hframe w hwv]
        exact hdone w ((List.mem_append.1 hw).resolve_right fun hw ↦ hwv (List.mem_singleton.1 hw))
    · rw [List.mem_append, List.mem_singleton, not_or] at hw
      rw [hframe w hw.2, hempty w hw.1]

/-- None of the nodes dominates another one. -/
def Siblings (g : ControlGraph α) (cs : List α) : Prop :=
  cs.Pairwise fun c d ↦ ¬Dominates g.Edge g.root c d ∧ ¬Dominates g.Edge g.root d c

theorem siblings_of_isIdom (hall : ∀ v, g.Reachable v) {cs : List α} (hnodup : cs.Nodup)
    (hcs : ∀ c ∈ cs, IsIdom g.Edge g.root v c) : Siblings g cs := by
  have hnot : ∀ c ∈ cs, ∀ d ∈ cs, c ≠ d → ¬Dominates g.Edge g.root c d := by
    intro c hc d hd hne hdom
    have hcv := (hcs d hd).closest c hdom hne
    exact (hcs c hc).ne ((hcs c hc).dominates.antisymm (hall v) hcv)
  exact hnodup.imp_of_mem fun hc hd hne ↦ ⟨hnot _ hc _ hd hne, hnot _ hd _ hc hne.symm⟩

open Classical in
/-- The nodes of the trees with the roots `cs`. -/
noncomputable def below [Fintype α] (g : ControlGraph α) (cs : List α) : Finset α :=
  Finset.univ.filter fun x ↦ ∃ c ∈ cs, Dominates g.Edge g.root c x

theorem mem_below [Fintype α] {cs : List α} {x : α} :
    x ∈ below g cs ↔ ∃ c ∈ cs, Dominates g.Edge g.root c x := by
  simp [below]

/-- **`LD_pod_visit`** lists the nodes of a tree and of its siblings in postorder. -/
theorem podVisit_spec [Fintype α] (h : IsDomTree g st) (hall : ∀ v, g.Reachable v) (fuel : ℕ)
    {c : α} (cs : List α) (hchain : SibChain st (st.dtsib c) cs) (hsib : Siblings g (c :: cs))
    (hfuel : (below g (c :: cs)).card ≤ fuel) {pod : List α} (hpod : PostOrder g pod) :
    ∃ l, podVisit st fuel pod c = .ok (pod ++ l) ∧ PostOrder g (pod ++ l) ∧
      ∀ x, x ∈ l ↔ ∃ d ∈ c :: cs, Dominates g.Edge g.root d x := by
  induction fuel generalizing c cs pod with
  | zero =>
    have hc : c ∈ below g (c :: cs) := mem_below.2 ⟨c, List.mem_cons_self, Dominates.refl _ _ _⟩
    exact absurd (Finset.card_pos.2 ⟨c, hc⟩) (by omega)
  | succ fuel ih =>
    obtain ⟨ks, hnodup, hkids, hks⟩ := h.children c
    rw [Siblings, List.pairwise_cons] at hsib
    have hc : c ∈ below g (c :: cs) := mem_below.2 ⟨c, List.mem_cons_self, Dominates.refl _ _ _⟩
    have hless : ∀ ds, c ∉ below g ds → below g ds ⊆ below g (c :: cs) → (below g ds).card ≤ fuel := by
      intro ds hnot hsub
      have := Finset.card_lt_card ((Finset.ssubset_iff_of_subset hsub).2 ⟨c, hc, hnot⟩)
      omega
    -- first the trees below `c`
    obtain ⟨l₁, hrun₁, hpost₁, hl₁⟩ : ∃ l₁, visitIf (podVisit st fuel) pod (st.dtchi c) = .ok (pod ++ l₁) ∧
        PostOrder g (pod ++ l₁) ∧ ∀ x, x ∈ l₁ ↔ ∃ k ∈ ks, Dominates g.Edge g.root k x := by
      cases ks with
      | nil =>
        rw [show st.dtchi c = none from hkids]
        exact ⟨[], by simp [visitIf], by simpa using hpod, by simp⟩
      | cons k ks =>
        rw [hkids.1]
        refine ih ks hkids.2 (siblings_of_isIdom hall hnodup fun k hk ↦ (hks k).1 hk) (hless _ ?_ ?_) hpod
        · rw [mem_below]
          rintro ⟨d, hd, hdom⟩
          have hidom := (hks d).1 hd
          exact hidom.ne (hidom.dominates.antisymm (hall c) hdom)
        · intro x hx
          obtain ⟨d, hd, hdom⟩ := mem_below.1 hx
          exact mem_below.2 ⟨c, List.mem_cons_self, ((hks d).1 hd).dominates.trans hdom⟩
    have hkid : ∀ u, IsIdom g.Edge g.root c u → u ∈ pod ++ l₁ := fun u hu ↦
      List.mem_append_right pod ((hl₁ u).2 ⟨u, (hks u).2 hu, Dominates.refl _ _ _⟩)
    have hbelow : ∀ x, x ∈ l₁ ++ [c] ↔ Dominates g.Edge g.root c x := by
      intro x
      rw [List.mem_append, List.mem_singleton, hl₁]
      constructor
      · rintro (⟨k, hk, hdom⟩ | rfl)
        · exact ((hks k).1 hk).dominates.trans hdom
        · exact Dominates.refl _ _ _
      · intro hdom
        by_cases hne : c = x
        · exact .inr hne.symm
        · obtain ⟨k, hk, hkx⟩ := exists_isIdom_between (hall x) hdom hne
          exact .inl ⟨k, (hks k).2 hk, hkx⟩
    have hpostc : PostOrder g (pod ++ (l₁ ++ [c])) := by
      rw [← List.append_assoc]
      exact .snoc hpost₁ hkid
    rw [podVisit, hrun₁, Run.ok_bind, List.append_assoc]
    -- then the siblings of `c`
    cases cs with
    | nil =>
      rw [show st.dtsib c = none from hchain]
      exact ⟨l₁ ++ [c], rfl, hpostc, fun x ↦ by simp [hbelow]⟩
    | cons d cs =>
      rw [hchain.1]
      obtain ⟨l₂, hrun₂, hpost₂, hl₂⟩ := ih cs hchain.2 hsib.2 (hless _ (by
        rw [mem_below]
        rintro ⟨e, he, hdom⟩
        exact (hsib.1 e he).2 hdom) fun x hx ↦ by
          obtain ⟨e, he, hdom⟩ := mem_below.1 hx
          exact mem_below.2 ⟨e, List.mem_cons_of_mem c he, hdom⟩) hpostc
      refine ⟨l₁ ++ [c] ++ l₂, by rw [visitIf, hrun₂, List.append_assoc], by
        rwa [← List.append_assoc], fun x ↦ ?_⟩
      rw [List.mem_append, hbelow, hl₂, List.exists_mem_cons_iff (a := c)]

/-- **`LD_dom_front` computes the dominance frontiers.** -/
theorem domFront_eq [Fintype α] (h : IsDomTree g st) (hall : ∀ v, g.Reachable v) :
    ∃ df, domFront g st = .ok df ∧ ∀ v, IsFront g st v (df v) := by
  obtain ⟨l, hrun, hpost, hmem⟩ := podVisit_spec h hall (Fintype.card α) []
    (show SibChain st (st.dtsib g.root) [] from h.dtsib_root) (List.pairwise_singleton ..)
    (Finset.card_le_univ _) .nil
  rw [List.nil_append] at hrun hpost
  obtain ⟨df, hfold, hdone, -⟩ := hpost.foldlM_nodeFront h hall
  have hroot : ldNode st 1 = .ok g.root := by rw [ldNode, h.root]
  refine ⟨df, by rw [domFront, hroot, Run.ok_bind, hrun, Run.ok_bind, hfold], fun v ↦ hdone v ?_⟩
  exact (hmem v).2 ⟨g.root, List.mem_cons_self, dominates_root _ _ _⟩

/-! ### Iterated frontiers -/

/-- All numbers are numbers of nodes. -/
def AreNumbers (st : Dom α) (N : Finset ℕ) : Prop := ∀ i ∈ N, ∃ v, st.dfn v = some i

theorem dfSet_spec (h : IsDomTree g st) (hdf : ∀ v, IsFront g st v (df v)) {N : Finset ℕ}
    (hN : AreNumbers st N) :
    ∃ R, dfSet st df N = .ok R ∧ AreNumbers st R ∧
      nodesOf st R = frontier g.Edge g.root (nodesOf st N) := by
  have hfold : ∀ (l : List ℕ) (acc : Finset ℕ), (∀ i ∈ l, ∃ v, st.dfn v = some i) →
      ∃ R, l.foldlM (fun acc i ↦ do return acc ∪ df (← ldNode st i)) acc = (.ok R : Run _) ∧
        ∀ j, j ∈ R ↔ j ∈ acc ∨ ∃ i ∈ l, ∃ v, st.dfn v = some i ∧ j ∈ df v := by
    intro l
    induction l with
    | nil => exact fun acc _ ↦ ⟨acc, rfl, by simp⟩
    | cons i l ih =>
      intro acc hl
      obtain ⟨v, hv⟩ := hl i List.mem_cons_self
      obtain ⟨R, hrun, hmem⟩ := ih (acc ∪ df v) fun j hj ↦ hl j (List.mem_cons_of_mem i hj)
      refine ⟨R, by rw [List.foldlM_cons, h.ldNode_eq hv]; exact hrun, fun j ↦ ?_⟩
      have hone : (∃ w, st.dfn w = some i ∧ j ∈ df w) ↔ j ∈ df v :=
        ⟨fun ⟨w, hw, hj⟩ ↦ h.dfn_inj hw hv ▸ hj, fun hj ↦ ⟨v, hv, hj⟩⟩
      rw [hmem, Finset.mem_union, List.exists_mem_cons_iff, hone, or_assoc]
  obtain ⟨R, hrun, hmem⟩ := hfold (N.sort (· ≤ ·)) ∅ fun i hi ↦ hN i ((Finset.mem_sort _).1 hi)
  simp only [Finset.notMem_empty, false_or, Finset.mem_sort] at hmem
  refine ⟨R, hrun, fun j hj ↦ ?_, Set.ext fun w ↦ ?_⟩
  · obtain ⟨i, -, v, -, hjv⟩ := (hmem j).1 hj
    obtain ⟨w, hw, -⟩ := (hdf v j).1 hjv
    exact ⟨w, hw⟩
  · constructor
    · rintro ⟨j, hj, hw⟩
      obtain ⟨i, hi, v, hv, hjv⟩ := (hmem j).1 hj
      obtain ⟨x, hx, hfront⟩ := (hdf v j).1 hjv
      exact ⟨v, ⟨i, hi, hv⟩, h.dfn_inj hx hw ▸ hfront⟩
    · rintro ⟨v, ⟨i, hi, hv⟩, hfront⟩
      obtain ⟨j, hj, -⟩ := h.numbered w
      exact ⟨j, (hmem j).2 ⟨i, hi, v, hv, (hdf v j).2 ⟨w, hj, hfront⟩⟩, hj⟩

omit [DecidableEq α] in
theorem nodesOf_union (st : Dom α) (M N : Finset ℕ) : nodesOf st (M ∪ N) = nodesOf st N ∪ nodesOf st M := by
  ext v
  constructor
  · rintro ⟨i, hi, hv⟩
    rcases Finset.mem_union.1 hi with hi | hi
    · exact .inr ⟨i, hi, hv⟩
    · exact .inl ⟨i, hi, hv⟩
  · rintro (⟨i, hi, hv⟩ | ⟨i, hi, hv⟩)
    · exact ⟨i, Finset.mem_union_right M hi, hv⟩
    · exact ⟨i, Finset.mem_union_left N hi, hv⟩

omit [DecidableEq α] in
theorem AreNumbers.subset {M N : Finset ℕ} (hM : AreNumbers st M) (h : nodesOf st M ⊆ nodesOf st N) :
    M ⊆ N := by
  intro i hi
  obtain ⟨v, hv⟩ := hM i hi
  obtain ⟨j, hj, hvj⟩ := h ⟨i, hi, hv⟩
  exact Option.some.inj (hvj.symm.trans hv) ▸ hj

omit [DecidableEq α] in
theorem AreNumbers.card_le [Fintype α] {M : Finset ℕ} (hM : AreNumbers st M) :
    M.card ≤ Fintype.card α := by
  have hsub : M ⊆ Finset.univ.image fun v ↦ (st.dfn v).getD 0 := fun i hi ↦ by
    obtain ⟨v, hv⟩ := hM i hi
    exact Finset.mem_image.2 ⟨v, Finset.mem_univ v, by rw [hv]; rfl⟩
  exact (Finset.card_le_card hsub).trans Finset.card_image_le

/-- **The loop of `LD_df_plus`** climbs to the least set that is the frontier of itself with `N`. -/
theorem dfPlusLoop_spec [Fintype α] (h : IsDomTree g st) (hdf : ∀ v, IsFront g st v (df v))
    {N : Finset ℕ} (hN : AreNumbers st N) (fuel : ℕ) {dfp : Finset ℕ} (hdfp : AreNumbers st dfp)
    (hup : nodesOf st dfp ⊆ frontier g.Edge g.root (nodesOf st N ∪ nodesOf st dfp))
    (hleast : ∀ S, S = frontier g.Edge g.root (nodesOf st N ∪ S) → nodesOf st dfp ⊆ S)
    (hfuel : Fintype.card α < fuel + dfp.card) :
    ∃ R, dfPlusLoop st df N fuel dfp = .ok R ∧ AreNumbers st R ∧
      IsLeast {S | S = frontier g.Edge g.root (nodesOf st N ∪ S)} (nodesOf st R) := by
  induction fuel generalizing dfp with
  | zero =>
    have := hdfp.card_le
    omega
  | succ fuel ih =>
    obtain ⟨R, hrun, hR, hfront⟩ := dfSet_spec h hdf (N := dfp ∪ N) fun i hi ↦
      (Finset.mem_union.1 hi).elim (hdfp i) (hN i)
    rw [nodesOf_union] at hfront
    rw [dfPlusLoop, hrun, Run.ok_bind]
    have hsub : nodesOf st dfp ⊆ nodesOf st R := hfront ▸ hup
    have hleastR : ∀ S, S = frontier g.Edge g.root (nodesOf st N ∪ S) → nodesOf st R ⊆ S := by
      intro S hS
      rw [hfront, hS]
      exact frontier_mono (Set.union_subset_union_right _ (hleast S hS))
    by_cases hsame : dfp = R
    · rw [if_neg (not_not.2 hsame)]
      subst hsame
      exact ⟨dfp, rfl, hR, hfront, fun S hS ↦ hleast S hS⟩
    · rw [if_pos hsame]
      have hlt := Finset.card_lt_card ((hdfp.subset hsub).ssubset_of_ne hsame)
      refine ih hR (hfront.le.trans ?_) hleastR (by omega)
      exact frontier_mono (Set.union_subset_union_right _ hsub)

theorem dfPlus_eq [Fintype α] (h : IsDomTree g st) (hdf : ∀ v, IsFront g st v (df v))
    {N : Finset ℕ} (hN : AreNumbers st N) :
    ∃ R, dfPlus st df N = .ok R ∧ AreNumbers st R ∧
      IsLeast {S | S = frontier g.Edge g.root (nodesOf st N ∪ S)} (nodesOf st R) := by
  obtain ⟨R₀, hrun₀, hR₀, hfront⟩ := dfSet_spec h hdf hN
  obtain ⟨R, hrun, hspec⟩ := dfPlusLoop_spec h hdf hN (Fintype.card α + 1) hR₀
    (hfront ▸ frontier_mono Set.subset_union_left)
    (fun S hS ↦ by rw [hfront, hS]; exact frontier_mono Set.subset_union_left) (by omega)
  exact ⟨R, by rw [dfPlus, hrun₀, Run.ok_bind, hrun], hspec⟩

end OpenImpact.LD
