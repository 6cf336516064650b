import OpenImpact.Lcode.DomForest
import OpenImpact.Lcode.DomSetup

/-!
# The dominators are right

The state between two passes of the first loop of `LD_dominator` is described by `Stage i`: the nodes
numbered above `i` are linked and have their semidominators, and each either waits in the bucket of
its semidominator or has a node recorded in `idom` that leads to its immediate dominator
(`Leads`). A pass keeps this (`sdomStep_spec`): the loop over the predecessors computes the
semidominator (`predLoop_spec`), and emptying the bucket of the parent settles the nodes in it
(`bucketLoop_spec`). The second loop then replaces what is recorded by immediate dominators, in
increasing order of the numbers (`idomLoop_spec`).

`dominator_isIdom` is for every graph whose nodes the root reaches, with any number of arcs and
loops, and says that the run returns. What it rests on is all about paths:
`Foundation.Semidominator` has the theorems on semidominators over any depth-first numbering, and
names nothing of this program. Nodes that the root does not reach have no number; `LD_setup` deletes
such blocks before, and they are left out here.
-/

namespace OpenImpact.LD

open Foundation

variable {α : Type} {E T : α → α → Prop} {root : α} {num : α → ℕ}
  (h : DfsNumbering E T root num) {fuel i : ℕ} {st : Dom α} {w p : α}

/-! ### Semidominators -/

/-- Bounds on the semidominator of `w` that the predecessor `v` contributes. -/
def Contributes (E T : α → α → Prop) (num : α → ℕ) (w v : α) (k : ℕ) : Prop :=
  (num v < num w → k ≤ num v) ∧
    ∀ u, Relation.ReflTransGen T u v → num w < num u → k ≤ semi E num u

include h in
/-- Bounded by all predecessors and not below the semidominator, a number is the semidominator. -/
theorem eq_semi_of_contributes (hw : w ≠ root) {k : ℕ} (hge : semi E num w ≤ k)
    (hall : ∀ v, E v w → Contributes E T num w v k) : k = semi E num w := by
  refine le_antisymm ?_ hge
  obtain ⟨v, hvw, ⟨hlt, heq⟩ | ⟨u, huv, hu, hle⟩⟩ := h.exists_edge_semi hw
  · exact heq ▸ (hall v hvw).1 hlt
  · exact ((hall v hvw).2 u huv hu).trans hle

include h in
/-- The nodes with semidominator `p` that wait while the child `w` of `p` is processed hang below `w`
in the forest's sense: everything on the tree path from `p` is linked. -/
theorem linked_of_semi (hp : T p w) {v x : α} (hv : num w ≤ num v)
    (hx : OnPath T p v x) : num w - 1 < num x := by
  by_contra hle
  obtain ⟨c, hpc, hcx, -⟩ := h.exists_child hx.1 hx.2.1.symm
  have hcw : num c < num w := by
    have := h.ancestor_le hcx
    have := h.num_lt_of_onPath hx
    omega
  -- `w` would be a child of `p` inside the subtree of another child
  have hanc := h.interval (hcx.trans hx.2.2) hcw.le hv
  have := h.ancestor_le (h.ancestor_parent hp hanc fun heq ↦ hcw.ne (heq ▸ rfl))
  have := h.tree_lt hpc
  omega

include h in
/-- The vertex that has the semidominator's number is the semidominator. -/
theorem semiPath_of_num {v : α} (hv : v ≠ root) (hp : num p = semi E num v) :
    SemiPath E num p v ∧ Relation.ReflTransGen T p v ∧ p ≠ v := by
  obtain ⟨s, hs, hnum, hanc, hne⟩ := h.exists_semi hv
  obtain rfl : p = s := h.num_inj (hp.trans hnum.symm)
  exact ⟨hs, hanc, hne⟩

/-- While `w` is processed: the forest above it, and the numbers known so far. -/
structure Processing (E T : α → α → Prop) (num : α → ℕ) (w : α) (st : Dom α) : Prop where
  forest : Forest T num (num w) st
  above : ∀ v, num w < num v → st.sdom v = semi E num v
  below : ∀ v, num v < num w → st.sdom v = num v
  semi_le : semi E num w ≤ st.sdom w

variable [DecidableEq α]

include h in
/-- One predecessor: evaluating it gives a bound for `w`, and the least one it contributes. -/
theorem Processing.eval (hst : Processing E T num w st) {v : α} (hvw : E v w)
    (hfuel : num v ≤ fuel) :
    ∃ st' u, eval fuel v st = .ok (some u, st') ∧ Compressed st st' ∧ Forest T num (num w) st' ∧
      semi E num w ≤ st.sdom u ∧
      ∀ k, k ≤ st.sdom u → k ≤ st.sdom w → Contributes E T num w v k := by
  obtain ⟨st', u, hrun, hf, hsame, hun, hlk⟩ := eval_spec h hst.forest hfuel
  refine ⟨st', u, hrun, hsame, hf, ?_⟩
  rcases lt_trichotomy (num v) (num w) with hlt | heq | hgt
  · obtain rfl := hun hlt.le
    rw [hst.below u hlt]
    exact ⟨DfsNumbering.semi_le ⟨w, hvw, .refl⟩, fun k hk _ ↦ ⟨fun _ ↦ hk, fun x hx hwx ↦
      absurd (h.ancestor_le hx) (not_le.2 (hlt.trans hwx))⟩⟩
  · obtain rfl : v = w := h.num_inj heq
    obtain rfl := hun le_rfl
    exact ⟨hst.semi_le, fun k hk _ ↦ ⟨fun hlt ↦ absurd hlt (lt_irrefl _), fun x hx hwx ↦
      absurd (h.ancestor_le hx) (not_le.2 hwx)⟩⟩
  · obtain ⟨r, hev⟩ := hlk hgt
    have hlinked : ∀ x, OnPath T r v x → st.sdom x = semi E num x := fun x hx ↦
      hst.above x (hev.linked x hx)
    have hbound : ∀ x, OnPath T r v x → semi E num w ≤ semi E num x := fun x hx ↦
      h.semi_le_of_edge hvw hx.2.2 (hev.linked x hx)
    -- the root of the forest is no better than its child on the path
    have hroot : semi E num w ≤ st.sdom r := by
      rcases hev.root_le.lt_or_eq with hlt | heq
      · have hrv : r ≠ v := hev.self.2.1.symm
        obtain ⟨c, hrc, -, hc⟩ := h.exists_child hev.self.1 hrv
        rw [hst.below r hlt]
        exact (hbound c hc).trans (h.semi_le_parent hrc)
      · exact h.num_inj heq ▸ hst.semi_le
    have hpath : ∀ x, Relation.ReflTransGen T x v → num w < num x → OnPath T r v x := by
      intro x hx hwx
      have hrx : num r < num x := hev.root_le.trans_lt hwx
      refine ⟨h.ancestor_of_ancestors hev.self.1 hx hrx.le, ?_, hx⟩
      rintro rfl
      exact lt_irrefl _ hrx
    rcases hev.least with ⟨hu, -, hmin⟩ | ⟨rfl, hmin⟩
    · refine ⟨hlinked u hu ▸ hbound u hu, fun k hk _ ↦ ⟨fun hlt ↦ absurd hlt (not_lt.2 hgt.le), ?_⟩⟩
      intro x hx hwx
      have hx' := hpath x hx hwx
      exact hk.trans (hlinked x hx' ▸ hmin x hx')
    · refine ⟨hroot, fun k hk _ ↦ ⟨fun hlt ↦ absurd hlt (not_lt.2 hgt.le), ?_⟩⟩
      intro x hx hwx
      have hx' := hpath x hx hwx
      exact hk.trans (hlinked x hx' ▸ (hmin x hx').le)

include h in
/-- **The loop over the predecessors** leaves the semidominator in `sdom`, and changes nothing else
outside the forest. -/
theorem predLoop_spec {vs : List α} (hvs : ∀ v ∈ vs, E v w) (hfuel : ∀ v, num v ≤ fuel)
    (hst : Processing E T num w st) :
    ∃ st', predLoop fuel w vs st = .ok st' ∧ Processing E T num w st' ∧
      Compressed { st with sdom := st'.sdom } st' ∧ st'.sdom w ≤ st.sdom w ∧
      ∀ v ∈ vs, Contributes E T num w v (st'.sdom w) := by
  induction vs generalizing st with
  | nil => exact ⟨st, rfl, hst, .refl st, le_rfl, by simp⟩
  | cons v vs ih =>
    obtain ⟨st₁, u, hrun, hsame, hf, hge, hcontr⟩ :=
      hst.eval h (hvs v List.mem_cons_self) (hfuel v)
    rw [predLoop, hrun, Run.ok_bind]
    simp only [deref, Run.ok_bind, hsame.sdom]
    let sdom' : α → ℕ := if st.sdom u < st.sdom w then Function.update st.sdom w (st.sdom u)
      else st.sdom
    have hne : ∀ v, v ≠ w → sdom' v = st.sdom v := by
      intro v hv
      simp only [sdom']
      split_ifs
      · exact Function.update_of_ne hv _ _
      · rfl
    have hsdom' : sdom' w = min (st.sdom u) (st.sdom w) := by
      simp only [sdom']
      split_ifs with hlt
      · rw [Function.update_self, min_eq_left hlt.le]
      · rw [min_eq_right (not_lt.1 hlt)]
    have hstate : (if st.sdom u < st.sdom w then
        { st₁ with sdom := Function.update st.sdom w (st.sdom u) } else st₁) =
        { st₁ with sdom := sdom' } := by
      simp only [sdom']
      split_ifs
      · rfl
      · rw [← hsame.sdom]
    rw [hstate]
    have hmid : Processing E T num w { st₁ with sdom := sdom' } := by
      refine ⟨hf.congr_sdom fun v hv ↦ ?_, fun v hv ↦ ?_, fun v hv ↦ ?_, ?_⟩
      · rw [hsame.sdom]
        exact hne v fun heq ↦ absurd hv (heq ▸ lt_irrefl _)
      · exact (hne v fun heq ↦ absurd hv (heq ▸ lt_irrefl _)).trans (hst.above v hv)
      · exact (hne v fun heq ↦ absurd hv (heq ▸ lt_irrefl _)).trans (hst.below v hv)
      · exact (le_min hge hst.semi_le).trans hsdom'.ge
    obtain ⟨st', hrun', hst', hsame', hle, hall⟩ :=
      ih (fun v hv ↦ hvs v (List.mem_cons_of_mem _ hv)) hmid
    have hle' : st'.sdom w ≤ min (st.sdom u) (st.sdom w) := hle.trans hsdom'.le
    refine ⟨st', hrun', hst', ?_, hle'.trans (min_le_right _ _), ?_⟩
    · exact ⟨hsame'.nhash.trans hsame.nhash, hsame'.dfn.trans hsame.dfn,
        hsame'.parent.trans hsame.parent, rfl, hsame'.bucket.trans hsame.bucket,
        hsame'.idom.trans hsame.idom⟩
    · intro x hx
      rcases List.mem_cons.1 hx with rfl | hx
      · exact hcontr _ (hle'.trans (min_le_left _ _)) (hle'.trans (min_le_right _ _))
      · exact hall x hx

/-! ### Buckets -/

/-- `u` leads to the immediate dominator of `v`: it is the semidominator and the immediate dominator,
or a vertex between the two on the tree path with the same immediate dominator. -/
def Leads (E : α → α → Prop) (root : α) (num : α → ℕ) (v u : α) : Prop :=
  num u = semi E num v ∧ IsIdom E root u v ∨
    semi E num v < num u ∧ num u < num v ∧ ∀ d, IsIdom E root d u → IsIdom E root d v

/-- The state after the nodes numbered above `i` have been processed. -/
structure Stage (E T : α → α → Prop) (root : α) (num : α → ℕ) (i : ℕ) (st : Dom α) : Prop where
  numbered : Numbered T num st
  forest : Forest T num i st
  above : ∀ v, i < num v → st.sdom v = semi E num v
  below : ∀ v, num v ≤ i → st.sdom v = num v
  /-- A node waits for the child of its semidominator on the tree path. -/
  bucket : ∀ p v, v ∈ st.bucket p → i < num v ∧ semi E num v = num p ∧
    ∀ c, T p c → Relation.ReflTransGen T c v → num c ≤ i
  idom : ∀ v, i < num v →
    (∃ p, v ∈ st.bucket p) ∨ ∃ u, st.idom v = some u ∧ Leads E root num v u

/-- While the bucket of `p`, the parent of `w`, is emptied, with `rest` left in it. -/
structure Emptying (E T : α → α → Prop) (root : α) (num : α → ℕ) (w p : α) (rest : List α)
    (st : Dom α) : Prop where
  numbered : Numbered T num st
  forest : Forest T num (num w - 1) st
  above : ∀ v, num w ≤ num v → st.sdom v = semi E num v
  below : ∀ v, num v < num w → st.sdom v = num v
  bucket_eq : st.bucket p = rest
  waiting : ∀ v ∈ rest, num w ≤ num v ∧ semi E num v = num p
  bucket : ∀ q, q ≠ p → ∀ v ∈ st.bucket q, num w ≤ num v ∧ semi E num v = num q ∧
    ∀ c, T q c → Relation.ReflTransGen T c v → num c < num w
  idom : ∀ v, num w ≤ num v →
    (∃ q, v ∈ st.bucket q) ∨ ∃ u, st.idom v = some u ∧ Leads E root num v u

include h in
/-- **One node of the bucket.** What `LD_eval` finds leads to its immediate dominator. -/
theorem Emptying.leads {rest : List α} (hst : Emptying E T root num w p rest st) (hp : T p w)
    {v : α} (hwv : num w ≤ num v) (hsemi : semi E num v = num p) {u r : α}
    (hev : Evaluates T num (num w - 1) st.sdom v u r) :
    Leads E root num v (if st.sdom u < st.sdom v then u else p) := by
  have hpw := h.tree_lt hp
  have hvroot : v ≠ root := by
    rintro rfl
    have := h.ancestor_le (h.root_ancestor p)
    omega
  obtain ⟨hpath, hpv, hne⟩ := semiPath_of_num h hvroot hsemi.symm
  have hself : OnPath T p v v := ⟨hpv, hne.symm, .refl⟩
  have hlinked : ∀ x, OnPath T p v x → num w - 1 < num x := fun x ↦ linked_of_semi h hp hwv
  -- the root of the forest is `p`: both are the last unlinked node above `v`
  obtain rfl : r = p := by
    by_contra hrp
    rcases lt_or_ge (num r) (num p) with hlt | hle
    · have := hev.linked p ⟨h.ancestor_of_ancestors hev.self.1 hpv hlt.le, fun heq ↦ hrp heq.symm, hpv⟩
      omega
    · have := hlinked r ⟨h.ancestor_of_ancestors hpv hev.self.1 hle, hrp, hev.self.1⟩
      have := hev.root_le
      omega
  have hsdom : ∀ x, OnPath T r v x → st.sdom x = semi E num x := fun x hx ↦ by
    have := hlinked x hx
    exact hst.above x (by omega)
  have hr : st.sdom r = num r := hst.below r hpw
  rcases hev.least with ⟨hu, -, hmin⟩ | ⟨-, hmin⟩
  · have hmin' : ∀ x, OnPath T r v x → semi E num u ≤ semi E num x := fun x hx ↦ by
      rw [← hsdom u hu, ← hsdom x hx]
      exact hmin x hx
    rw [hsdom u hu, hsdom v hself]
    split_ifs with hlt
    · refine .inr ⟨hsemi ▸ h.num_lt_of_onPath hu, h.ancestor_lt hu.2.2 ?_, fun d hd ↦ ?_⟩
      · rintro rfl
        exact lt_irrefl _ hlt
      · exact h.isIdom_of_semi_lt hvroot hpath hsemi.symm hu hmin' hlt hd
    · refine .inl ⟨hsemi.symm, h.isIdom_of_semi_le hvroot hpath hsemi.symm fun x hx ↦ ?_⟩
      exact hsemi ▸ (not_lt.1 hlt).trans (hmin' x hx)
  · -- the child of `r` has a semidominator at most `r`, so the root's label is not taken
    obtain ⟨c, hrc, -, hc⟩ := h.exists_child hpv hne
    have hle := h.semi_le_parent hrc
    have hlt := hmin c hc
    rw [hr, hsdom c hc] at hlt
    exact absurd hle (not_le.2 hlt)

include h in
/-- **Emptying the bucket.** -/
theorem bucketLoop_spec (hp : T p w) (hfuel : ∀ v, num v ≤ fuel) {rest : List α}
    (hst : Emptying E T root num w p rest st) :
    ∃ st', bucketLoop fuel p rest st = .ok st' ∧ Emptying E T root num w p [] st' := by
  induction rest generalizing st with
  | nil => exact ⟨st, rfl, hst⟩
  | cons v rest ih =>
    obtain ⟨hwv, hsemi⟩ := hst.waiting v List.mem_cons_self
    let st₀ : Dom α := { st with bucket := Function.update st.bucket p rest }
    have hf₀ : Forest T num (num w - 1) st₀ := ⟨hst.forest.linked, hst.forest.unlinked⟩
    obtain ⟨st₁, u, hrun, hf₁, hsame, -, hlk⟩ := eval_spec h hf₀ (hfuel v)
    have hwpos : num w - 1 < num v := by
      have := h.tree_lt hp
      omega
    obtain ⟨r, hev⟩ := hlk hwpos
    have hleads := hst.leads h hp hwv hsemi hev
    rw [bucketLoop]
    show ∃ st', (LD.eval fuel v st₀ >>= _) = _ ∧ _
    rw [← show st₁.sdom = st.sdom from hsame.sdom] at hleads
    rw [hrun, Run.ok_bind]
    simp only [deref, Run.ok_bind]
    refine ih ⟨⟨?_, ?_, ?_⟩, ⟨hf₁.linked, hf₁.unlinked⟩, ?_, ?_, ?_, ?_, ?_, ?_⟩
    · rw [show _ = st.dfn from hsame.dfn]
      exact hst.numbered.dfn
    · rw [show _ = st.nhash from hsame.nhash]
      exact hst.numbered.nhash
    · rw [show _ = st.parent from hsame.parent]
      exact hst.numbered.parent
    · rw [show _ = st.sdom from hsame.sdom]
      exact hst.above
    · rw [show _ = st.sdom from hsame.sdom]
      exact hst.below
    · rw [show _ = st₀.bucket from hsame.bucket]
      exact Function.update_self ..
    · exact fun x hx ↦ hst.waiting x (List.mem_cons_of_mem _ hx)
    · rw [show _ = st₀.bucket from hsame.bucket]
      intro q hq x hx
      rw [show st₀.bucket q = st.bucket q from Function.update_of_ne hq _ _] at hx
      exact hst.bucket q hq x hx
    · intro x hx
      simp only [hsame.bucket, hsame.idom, st₀]
      by_cases hxv : x = v
      · subst hxv
        exact .inr ⟨_, Function.update_self .., hleads⟩
      · rw [Function.update_of_ne hxv]
        refine (hst.idom x hx).imp_left ?_
        rintro ⟨q, hq⟩
        refine ⟨q, ?_⟩
        by_cases hqp : q = p
        · subst hqp
          rw [hst.bucket_eq] at hq
          rw [Function.update_self]
          exact (List.mem_cons.1 hq).resolve_left hxv
        · rwa [Function.update_of_ne hqp]

/-! ### The first loop -/

include h in
/-- The state after `w` has got its semidominator `s`, joined the bucket of `s` and been linked to its
parent `p`. -/
theorem Stage.emptying {s : α} {st₁ : Dom α} (hst : Stage E T root num (num w) st)
    (hproc : Processing E T num w st₁) (hsame : Compressed { st with sdom := st₁.sdom } st₁)
    (hsemi : st₁.sdom w = semi E num w) (hs : num s = semi E num w) (hp : T p w) :
    let st₂ := link (some p) w
      { st₁ with bucket := Function.update st₁.bucket s (st₁.bucket s ++ [w]) }
    Emptying E T root num w p (st₂.bucket p) st₂ := by
  intro st₂
  have hbucket : ∀ q v, v ∈ st₂.bucket q ↔ v ∈ st.bucket q ∨ q = s ∧ v = w := by
    intro q v
    have hold : st₁.bucket = st.bucket := hsame.bucket
    simp only [st₂, link, hold]
    by_cases hq : q = s
    · subst hq
      simp
    · simp [hq]
  have hwpos : num w = num w - 1 + 1 := by
    have := h.tree_lt hp
    omega
  refine ⟨⟨?_, ?_, ?_⟩, ?_, fun v hv ↦ ?_, hproc.below, rfl, fun v hv ↦ ?_, fun q hq v hv ↦ ?_,
    fun v hv ↦ ?_⟩
  · exact (show st₂.dfn = st.dfn from hsame.dfn) ▸ hst.numbered.dfn
  · exact (show st₂.nhash = st.nhash from hsame.nhash) ▸ hst.numbered.nhash
  · exact (show st₂.parent = st.parent from hsame.parent) ▸ hst.numbered.parent
  · have hf : Forest T num (num w - 1 + 1)
        { st₁ with bucket := Function.update st₁.bucket s (st₁.bucket s ++ [w]) } :=
      hwpos ▸ ⟨hproc.forest.linked, hproc.forest.unlinked⟩
    exact hf.link h hwpos hp
  · rcases hv.eq_or_lt with heq | hlt
    · exact h.num_inj heq ▸ hsemi
    · exact hproc.above v hlt
  · rcases (hbucket p v).1 hv with hold | ⟨rfl, rfl⟩
    · obtain ⟨hlt, heq, -⟩ := hst.bucket p v hold
      exact ⟨hlt.le, heq⟩
    · exact ⟨le_rfl, hs.symm⟩
  · have hchild : ∀ c, T q c → num c ≤ num w → num c < num w := fun c hc hle ↦
      lt_of_le_of_ne hle fun heq ↦ hq (h.parent_unique (h.num_inj heq ▸ hc) hp)
    rcases (hbucket q v).1 hv with hold | ⟨rfl, rfl⟩
    · obtain ⟨hlt, heq, hwait⟩ := hst.bucket q v hold
      exact ⟨hlt.le, heq, fun c hc hcv ↦ hchild c hc (hwait c hc hcv)⟩
    · exact ⟨le_rfl, hs.symm, fun c hc hcv ↦ hchild c hc (h.ancestor_le hcv)⟩
  · rcases hv.eq_or_lt with heq | hlt
    · exact .inl ⟨s, (hbucket s v).2 (.inr ⟨rfl, (h.num_inj heq).symm⟩)⟩
    · have hidom : st₂.idom = st.idom := hsame.idom
      rw [hidom]
      exact (hst.idom v hlt).imp_left (Exists.imp fun q hq ↦ (hbucket q v).2 (.inl hq))

omit [DecidableEq α] in
theorem Emptying.stage (hst : Emptying E T root num w p [] st) (hw : 0 < num w) :
    Stage E T root num (num w - 1) st := by
  refine ⟨hst.numbered, hst.forest, fun v hv ↦ hst.above v (by omega),
    fun v hv ↦ hst.below v (by omega), fun q v hv ↦ ?_, fun v hv ↦ hst.idom v (by omega)⟩
  have hq : q ≠ p := by
    rintro rfl
    rw [hst.bucket_eq] at hv
    exact absurd hv List.not_mem_nil
  obtain ⟨hle, heq, hwait⟩ := hst.bucket q hq v hv
  exact ⟨by omega, heq, fun c hc hcv ↦ by have := hwait c hc hcv; omega⟩

include h in
/-- **A pass of the first loop.** -/
theorem sdomStep_spec {g : ControlGraph α} (hE : g.Edge = E) (hfuel : ∀ v, num v ≤ fuel)
    (hst : Stage E T root num (num w) st) (hw : w ≠ root) :
    ∃ st', sdomStep g fuel (num w) st = .ok st' ∧ Stage E T root num (num w - 1) st' := by
  obtain ⟨p, hp⟩ := h.exists_parent hw
  have hwpos : 0 < num w := by
    have := h.tree_lt hp
    omega
  have hproc : Processing E T num w st :=
    ⟨hst.forest, hst.above, fun v hv ↦ hst.below v hv.le,
      (h.semi_lt hw).le.trans (hst.below w le_rfl).ge⟩
  obtain ⟨st₁, hrun₁, hproc₁, hsame, -, hcontr⟩ :=
    predLoop_spec h (fun v hv ↦ hE ▸ g.mem_pred_iff.1 hv) hfuel hproc
  have hsemi : st₁.sdom w = semi E num w := eq_semi_of_contributes h hw hproc₁.semi_le
    fun v hv ↦ hcontr v (g.mem_pred_iff.2 (hE ▸ hv))
  obtain ⟨s, -, hs, -⟩ := h.exists_semi hw
  have hnode : ∀ v, ldNode st (num v) = .ok v := fun v ↦ by rw [ldNode, hst.numbered.nhash]
  have hnode₁ : ldNode st₁ (st₁.sdom w) = .ok s := by
    rw [ldNode, show st₁.nhash = st.nhash from hsame.nhash, hsemi, ← hs, hst.numbered.nhash]
  have hparent : st₁.parent w = some p :=
    (congrFun (show st₁.parent = st.parent from hsame.parent) w).trans (hst.numbered.parent p w hp)
  obtain ⟨st', hrun', hst'⟩ :=
    bucketLoop_spec h hp hfuel (hst.emptying h hproc₁ hsame hsemi hs hp)
  refine ⟨st', ?_, hst'.stage hwpos⟩
  rw [sdomStep, hnode, Run.ok_bind, hrun₁, Run.ok_bind, hnode₁, Run.ok_bind]
  simp only [hparent]
  rw [show (link (some p) w { st₁ with bucket := _ }).parent w = some p from hparent, deref,
    Run.ok_bind]
  exact hrun'

include h in
/-- **The first loop** processes all nodes but the root. -/
theorem sdomLoop_spec {g : ControlGraph α} (hE : g.Edge = E) (hfuel : ∀ v, num v ≤ fuel)
    (hroot : num root = 1) {n : ℕ} (hnum : ∀ k, 0 < k → k ≤ n → ∃ v, num v = k) (hi : 0 < i)
    (hin : i ≤ n) (hst : Stage E T root num i st) :
    ∃ st', sdomLoop g fuel i st = .ok st' ∧ Stage E T root num 1 st' := by
  induction i using Nat.strongRecOn generalizing st with
  | ind i ih =>
    match i, hi with
    | 1, _ => exact ⟨st, rfl, hst⟩
    | i + 2, hi =>
      obtain ⟨w, hw⟩ := hnum (i + 2) hi hin
      have hwroot : w ≠ root := by
        rintro rfl
        omega
      obtain ⟨st₁, hrun₁, hst₁⟩ := sdomStep_spec h hE hfuel (hw ▸ hst) hwroot
      rw [hw] at hrun₁ hst₁
      obtain ⟨st', hrun', hst'⟩ := ih (i + 1) (by omega) (Nat.succ_pos _) (by omega) hst₁
      exact ⟨st', by rw [sdomLoop, hrun₁]; exact hrun', hst'⟩

/-! ### The second loop -/

/-- Before the pass for number `i` of the second loop. -/
structure Settling (E T : α → α → Prop) (root : α) (num : α → ℕ) (i : ℕ) (st : Dom α) : Prop where
  numbered : Numbered T num st
  sdom : ∀ v, v ≠ root → st.sdom v = semi E num v
  settled : ∀ v, v ≠ root → num v < i → ∃ d, st.idom v = some d ∧ IsIdom E root d v
  leads : ∀ v, v ≠ root → i ≤ num v → ∃ u, st.idom v = some u ∧ Leads E root num v u

omit [DecidableEq α] in
include h in
/-- After the first loop every bucket is empty. -/
theorem Stage.settling (hst : Stage E T root num 1 st) (hroot : num root = 1) :
    Settling E T root num 2 st := by
  have hlt : ∀ v, v ≠ root → 1 < num v := fun v hv ↦
    hroot ▸ h.ancestor_lt (h.root_ancestor v) hv.symm
  refine ⟨hst.numbered, fun v hv ↦ hst.above v (hlt v hv), fun v hv hlt' ↦ ?_, fun v hv _ ↦ ?_⟩
  · have := hlt v hv
    omega
  · refine (hst.idom v (hlt v hv)).resolve_left ?_
    rintro ⟨p, hp⟩
    obtain ⟨-, hsemi, hwait⟩ := hst.bucket p v hp
    obtain ⟨-, hanc, hne⟩ := semiPath_of_num h hv hsemi.symm
    obtain ⟨c, hpc, hcv, -⟩ := h.exists_child hanc hne
    have := hwait c hpc hcv
    have := h.tree_lt hpc
    have := h.ancestor_le (h.root_ancestor p)
    omega

include h in
/-- **A pass of the second loop.** -/
theorem idomStep_spec (hst : Settling E T root num (num w) st) (hw : w ≠ root) :
    ∃ st', idomStep (num w) st = .ok st' ∧ Settling E T root num (num w + 1) st' := by
  obtain ⟨u, hu, hlead⟩ := hst.leads w hw le_rfl
  obtain ⟨s, -, hs, -⟩ := h.exists_semi hw
  have hnode : ldNode st (num w) = .ok w := by rw [ldNode, hst.numbered.nhash]
  have hnodes : ldNode st (st.sdom w) = .ok s := by
    rw [ldNode, hst.sdom w hw, ← hs, hst.numbered.nhash]
  -- `idom` of `w` is corrected where it is not the semidominator yet
  obtain ⟨d, hd, hfix⟩ : ∃ d, IsIdom E root d w ∧
      correctIdom w s st = .ok { st with idom := Function.update st.idom w (some d) } := by
    rcases hlead with ⟨hnum, hidom⟩ | ⟨hlt, hltw, hall⟩
    · obtain rfl : u = s := h.num_inj (hnum.trans hs.symm)
      refine ⟨u, hidom, ?_⟩
      rw [correctIdom, if_neg (by simp [hu]), ← hu, Function.update_eq_self]
      rfl
    · have hus : u ≠ s := by
        rintro rfl
        omega
      have huroot : u ≠ root := by
        rintro rfl
        have := h.ancestor_le (h.root_ancestor s)
        omega
      obtain ⟨d, hd, hidom⟩ := hst.settled u huroot hltw
      refine ⟨d, hall d hidom, ?_⟩
      rw [correctIdom, if_pos (by simp [hu, hus]), hu, deref, Run.ok_bind, hd]
      rfl
  have hsettled : ∀ st' : Dom α, Numbered T num st' → st'.sdom = st.sdom →
      st'.idom = Function.update st.idom w (some d) → Settling E T root num (num w + 1) st' := by
    intro st' hnumbered hsdom hidom
    refine ⟨hnumbered, hsdom ▸ hst.sdom, fun v hv hlt ↦ ?_, fun v hv hle ↦ ?_⟩
    · rw [hidom]
      by_cases hvw : v = w
      · subst hvw
        exact ⟨d, Function.update_self .., hd⟩
      · rw [Function.update_of_ne hvw]
        refine hst.settled v hv (lt_of_le_of_ne (Nat.lt_succ_iff.1 hlt) fun heq ↦ hvw (h.num_inj heq))
    · have hvw : v ≠ w := by
        rintro rfl
        omega
      rw [hidom, Function.update_of_ne hvw]
      exact hst.leads v hv (by omega)
  rw [idomStep, hnode, Run.ok_bind, hnodes, Run.ok_bind, hfix, Run.ok_bind]
  simp only [addToTree, Function.update_self, deref, Run.ok_bind, hst.numbered.dfn]
  obtain ⟨hdfn, hnhash, hparent⟩ := hst.numbered
  cases st.dtchi d with
  | none => exact ⟨_, rfl, hsettled _ ⟨hdfn, hnhash, hparent⟩ rfl rfl⟩
  | some v => exact ⟨_, rfl, hsettled _ ⟨hdfn, hnhash, hparent⟩ rfl rfl⟩

include h in
/-- **The second loop.** -/
theorem idomLoop_spec (hroot : num root = 1) {n cnt : ℕ}
    (hnum : ∀ k, 0 < k → k ≤ n → ∃ v, num v = k) (hi : 1 < i) (hin : i + cnt ≤ n + 1)
    (hst : Settling E T root num i st) :
    ∃ st', idomLoop cnt i st = .ok st' ∧ Settling E T root num (i + cnt) st' := by
  induction cnt generalizing i st with
  | zero => exact ⟨st, rfl, hst⟩
  | succ cnt ih =>
    obtain ⟨w, rfl⟩ := hnum i (by omega) (by omega)
    have hw : w ≠ root := by
      rintro rfl
      omega
    obtain ⟨st₁, hrun₁, hst₁⟩ := idomStep_spec h hst hw
    obtain ⟨st', hrun', hst'⟩ := ih (by omega) (by omega) hst₁
    refine ⟨st', by rw [idomLoop, hrun₁]; exact hrun', ?_⟩
    rwa [Nat.add_right_comm] at hst'

/-- **The run of the analysis**: the numbering and the states between the loops. -/
theorem dominator_run [Fintype α] (g : ControlGraph α) (hall : ∀ v, g.Reachable v) :
    ∃ T num st₀ st₁ st₂, DfsNumbering g.Edge T g.root num ∧
      (∀ v, 0 < num v ∧ num v ≤ Fintype.card α) ∧ num g.root = 1 ∧
      (∀ k, 0 < k → k ≤ Fintype.card α → ∃ v, num v = k) ∧
      visit g (Fintype.card α) none g.root newControlNodes = .ok st₀ ∧
      sdomLoop g (Fintype.card α) (Fintype.card α) st₀ = .ok st₁ ∧
      idomLoop (Fintype.card α - 1) 2 st₁ = .ok st₂ ∧ dominator g = .ok st₂ ∧
      Numbered T num st₁ ∧ Settling g.Edge T g.root num (Fintype.card α + 1) st₂ := by
  obtain ⟨T, num, st₀, h, hrange, hroot, hrun₀, hnumbered, hfresh, hsdom⟩ := visit_numbered g hall
  have hsurj : ∀ k, 0 < k → k ≤ Fintype.card α → ∃ v, num v = k := by
    have himage : Finset.univ.image num = Finset.Icc 1 (Fintype.card α) := by
      refine Finset.eq_of_subset_of_card_le ?_ ?_
      · intro k hk
        obtain ⟨v, -, rfl⟩ := Finset.mem_image.1 hk
        exact Finset.mem_Icc.2 (hrange v)
      · rw [Finset.card_image_of_injective _ h.num_inj, Nat.card_Icc, Finset.card_univ]
        omega
    intro k hk hle
    obtain ⟨v, -, hv⟩ := Finset.mem_image.1 (himage ▸ Finset.mem_Icc.2 ⟨hk, hle⟩)
    exact ⟨v, hv⟩
  have hpos : 0 < Fintype.card α := (hrange g.root).1.trans_le (hrange g.root).2
  have hnone : ∀ v, ¬Fintype.card α < num v := fun v ↦ not_lt.2 (hrange v).2
  have hst₀ : Stage g.Edge T g.root num (Fintype.card α) st₀ :=
    ⟨hnumbered, ⟨fun v hv ↦ absurd hv (hnone v), fun v _ ↦ ⟨hfresh.ancestor v, hfresh.label v⟩⟩,
      fun v hv ↦ absurd hv (hnone v), fun v _ ↦ hsdom v,
      fun p v hv ↦ by simp [hfresh.bucket p] at hv, fun v hv ↦ absurd hv (hnone v)⟩
  obtain ⟨st₁, hrun₁, hst₁⟩ :=
    sdomLoop_spec h rfl (fun v ↦ (hrange v).2) hroot hsurj hpos le_rfl hst₀
  obtain ⟨st₂, hrun₂, hst₂⟩ := idomLoop_spec h hroot hsurj Nat.one_lt_two
    (show 2 + (Fintype.card α - 1) ≤ _ by omega) (hst₁.settling h hroot)
  rw [show 2 + (Fintype.card α - 1) = Fintype.card α + 1 by omega] at hst₂
  exact ⟨T, num, st₀, st₁, st₂, h, hrange, hroot, hsurj, hrun₀, hrun₁, hrun₂,
    by rw [dominator, hrun₀, Run.ok_bind, hrun₁, Run.ok_bind, hrun₂], hst₁.numbered, hst₂⟩

/-- **Immediate dominators.** On a graph whose nodes are all reachable from the root, the analysis
returns, and `idom` of every node but the root is its one immediate dominator. -/
theorem dominator_isIdom [Fintype α] (g : ControlGraph α) (hall : ∀ v, g.Reachable v) :
    ∃ st, dominator g = .ok st ∧ ∀ w, w ≠ g.root →
      ∃ d, st.idom w = some d ∧ IsIdom g.Edge g.root d w ∧
        ∀ d', IsIdom g.Edge g.root d' w → d' = d := by
  obtain ⟨T, num, -, -, st, h, hrange, -, -, -, -, -, hrun, -, hst⟩ := dominator_run g hall
  refine ⟨st, hrun, fun w hw ↦ ?_⟩
  have := (hrange w).2
  obtain ⟨d, hd, hidom⟩ := hst.settled w hw (by omega)
  exact ⟨d, hd, hidom, fun d' hd' ↦ hd'.unique h.reach hidom⟩

/-- An irreducible graph: the loop between 1 and 2 is entered at both. -/
def irreducibleGraph : ControlGraph (Fin 4) := ⟨0, [(0, 1), (0, 2), (1, 2), (2, 1), (1, 3), (2, 3)]⟩

theorem irreducibleGraph_reachable (v : Fin 4) : irreducibleGraph.Reachable v := by
  have hedge : ∀ {x y}, y ∈ irreducibleGraph.succ x → irreducibleGraph.Edge x y := id
  have h₁ : irreducibleGraph.Reachable 1 := .single (hedge (by decide))
  match v with
  | 0 => exact .refl
  | 1 => exact h₁
  | 2 => exact .single (hedge (by decide))
  | 3 => exact h₁.tail (hedge (by decide))

theorem dominator_isIdom_irreducible :
    (∀ v, irreducibleGraph.Reachable v) ∧ ∃ st, dominator irreducibleGraph = .ok st ∧ ∀ w, w ≠ 0 →
      ∃ d, st.idom w = some d ∧ IsIdom irreducibleGraph.Edge 0 d w ∧
        ∀ d', IsIdom irreducibleGraph.Edge 0 d' w → d' = d :=
  ⟨irreducibleGraph_reachable, dominator_isIdom irreducibleGraph irreducibleGraph_reachable⟩

end OpenImpact.LD
