import OpenImpact.Foundation.Dominator
import Mathlib.Order.Lattice.Nat

/-!
# Semidominators

The theory behind the fast dominator algorithm, for a graph whose vertices carry the numbers and the
tree of a depth-first traversal (`DfsNumbering`). What is used of the traversal is that numbers grow
along the tree, that the descendants of a vertex are numbered consecutively, and that an arc to a
larger number leads to a descendant.

The semidominator number `semi w` is the least number of a vertex with a semidominator path to `w`:
a walk whose inner vertices all have numbers above `w`'s. The three results are

* `isIdom_of_semi_le`: a semidominator that no vertex below it on the tree path undercuts is the
  immediate dominator;
* `isIdom_of_semi_lt`: otherwise the vertex of the tree path with the least semidominator has the same
  immediate dominator;
* `semi_le_of_edge` and `exists_edge_semi`: semidominators can be computed from the numbers of the
  predecessors and the semidominators of vertices with larger numbers.
-/

namespace OpenImpact.Foundation

variable {α : Type*}

/-- The numbers and the tree of a depth-first traversal that reaches every vertex. `T p c` says that
`p` is the parent of `c`. -/
structure DfsNumbering (E T : α → α → Prop) (root : α) (num : α → ℕ) : Prop where
  num_inj : Function.Injective num
  tree_lt : ∀ {p c}, T p c → num p < num c
  tree_edge : ∀ {p c}, T p c → E p c
  exists_parent : ∀ {c}, c ≠ root → ∃ p, T p c
  parent_unique : ∀ {p p' c}, T p c → T p' c → p = p'
  interval : ∀ {a b c}, Relation.ReflTransGen T a b → num a ≤ num c → num c ≤ num b →
    Relation.ReflTransGen T a c
  forward : ∀ {a b}, E a b → num a < num b → Relation.ReflTransGen T a b

/-- A walk with all vertices but the last numbered above the last one, from a successor of `v`. -/
def SemiPath (E : α → α → Prop) (num : α → ℕ) (v w : α) : Prop :=
  ∃ x, E v x ∧ Relation.ReflTransGen (fun a b ↦ E a b ∧ num w < num a) x w

/-- `x` lies on the tree path from `a` down to `v`, below `a`. -/
def OnPath (T : α → α → Prop) (a v x : α) : Prop :=
  Relation.ReflTransGen T a x ∧ x ≠ a ∧ Relation.ReflTransGen T x v

/-- The number of the semidominator. -/
noncomputable def semi (E : α → α → Prop) (num : α → ℕ) (w : α) : ℕ :=
  sInf {k | ∃ v, SemiPath E num v w ∧ num v = k}

namespace DfsNumbering

variable {E T : α → α → Prop} {root : α} {num : α → ℕ} (h : DfsNumbering E T root num)
  {a b c d u v w x y : α}

/-! ### Ancestors -/

include h in
theorem ancestor_le (hab : Relation.ReflTransGen T a b) : num a ≤ num b := by
  induction hab with
  | refl => exact le_rfl
  | tail _ hbc ih => exact ih.trans (h.tree_lt hbc).le

include h in
theorem ancestor_lt (hab : Relation.ReflTransGen T a b) (hne : a ≠ b) : num a < num b :=
  lt_of_le_of_ne (h.ancestor_le hab) fun heq ↦ hne (h.num_inj heq)

include h in
/-- The ancestors of a vertex are ordered by their numbers. -/
theorem ancestor_of_ancestors (hac : Relation.ReflTransGen T a c)
    (hbc : Relation.ReflTransGen T b c) (hle : num a ≤ num b) : Relation.ReflTransGen T a b :=
  h.interval hac hle (h.ancestor_le hbc)

include h in
theorem root_ancestor (v : α) : Relation.ReflTransGen T root v := by
  induction hn : num v using Nat.strongRecOn generalizing v with
  | ind n ih =>
    by_cases hv : v = root
    · exact hv ▸ .refl
    · obtain ⟨p, hp⟩ := h.exists_parent hv
      exact (ih (num p) (hn ▸ h.tree_lt hp) p rfl).tail hp

include h in
/-- A proper ancestor is an ancestor of the parent. -/
theorem ancestor_parent (hp : T b c) (hac : Relation.ReflTransGen T a c) (hne : a ≠ c) :
    Relation.ReflTransGen T a b := by
  rcases hac.cases_tail with heq | ⟨b', hab', hb'⟩
  · exact absurd heq.symm hne
  · exact h.parent_unique hb' hp ▸ hab'

include h in
theorem exists_child (hac : Relation.ReflTransGen T a c) (hne : a ≠ c) :
    ∃ b, T a b ∧ Relation.ReflTransGen T b c ∧ OnPath T a c b := by
  rcases hac.cases_head with heq | ⟨b, hab, hbc⟩
  · exact absurd heq hne
  · exact ⟨b, hab, hbc, .single hab, fun heq ↦ (h.tree_lt hab).ne (heq ▸ rfl), hbc⟩

include h in
theorem num_lt_of_onPath (hx : OnPath T a v x) : num a < num x :=
  h.ancestor_lt hx.1 hx.2.1.symm

include h in
theorem onPath_self (hx : OnPath T a v x) : OnPath T a v v := by
  refine ⟨hx.1.trans hx.2.2, fun heq ↦ ?_, .refl⟩
  have := h.num_lt_of_onPath hx
  have := h.ancestor_le hx.2.2
  rw [heq] at this
  omega

include h in
/-- A vertex of the tree path splits it. -/
theorem onPath_split (hx : OnPath T a v x) (hbv : Relation.ReflTransGen T b v) :
    OnPath T a b x ∨ OnPath T b v x := by
  rcases le_or_gt (num x) (num b) with hle | hlt
  · exact .inl ⟨hx.1, hx.2.1, h.ancestor_of_ancestors hx.2.2 hbv hle⟩
  · refine .inr ⟨h.ancestor_of_ancestors hbv hx.2.2 hlt.le, ?_, hx.2.2⟩
    rintro rfl
    exact lt_irrefl _ hlt

include h in
/-- The way down the tree avoids everything numbered below its start. -/
theorem avoiding_of_ancestor (hab : Relation.ReflTransGen T a b) (hd : num d < num a) :
    Relation.ReflTransGen (Avoiding E d) a b := by
  induction hab with
  | refl => exact .refl
  | @tail b c hab hbc ih =>
    refine ih.tail ⟨h.tree_edge hbc, fun heq ↦ ?_⟩
    have hac := h.ancestor_le (hab.tail hbc)
    rw [heq] at hac
    omega

include h in
theorem reach (v : α) : Relation.ReflTransGen E root v :=
  Relation.ReflTransGen.mono (fun _ _ ↦ h.tree_edge) _ _ (h.root_ancestor v)

include h in
/-- **A walk that stays at or above an ancestor's number stays below it in the tree.** -/
theorem ancestor_of_walk (hwalk : Relation.ReflTransGen (fun a b ↦ E a b ∧ num x ≤ num b) a b)
    (ha : Relation.ReflTransGen T x a) : Relation.ReflTransGen T x b := by
  induction hwalk with
  | refl => exact ha
  | @tail b c _ hbc ih =>
    obtain ⟨hedge, hle⟩ := hbc
    by_cases hlt : num b < num c
    · exact ih.trans (h.forward hedge hlt)
    · exact h.interval ih hle (not_lt.1 hlt)

/-! ### Semidominator paths -/

/-- The inner vertices and the end of a semidominator path are at or above its end. -/
theorem walk_of_semiPath (hwalk : Relation.ReflTransGen (fun a b ↦ E a b ∧ num w < num a) x w) :
    num w ≤ num x ∧ ∀ k ≤ num w, Relation.ReflTransGen (fun a b ↦ E a b ∧ k ≤ num b) x w := by
  induction hwalk using Relation.ReflTransGen.head_induction_on with
  | refl => exact ⟨le_rfl, fun _ _ ↦ .refl⟩
  | @head x y hxy _ ih =>
    exact ⟨hxy.2.le, fun k hk ↦ .head ⟨hxy.1, hk.trans ih.1⟩ (ih.2 k hk)⟩

include h in
/-- A vertex with a semidominator path to `w` and a smaller number is an ancestor. -/
theorem ancestor_of_semiPath (hs : SemiPath E num v w) (hlt : num v < num w) :
    Relation.ReflTransGen T v w := by
  obtain ⟨x, hedge, hwalk⟩ := hs
  obtain ⟨hle, hall⟩ := walk_of_semiPath hwalk
  exact h.ancestor_of_walk (hall _ hlt.le) (h.forward hedge (hlt.trans_le hle))

include h in
theorem semiPath_parent (hp : T v w) : SemiPath E num v w := ⟨w, h.tree_edge hp, .refl⟩

theorem semi_le (hs : SemiPath E num v w) : semi E num w ≤ num v := Nat.sInf_le ⟨v, hs, rfl⟩

include h in
/-- **The semidominator** is a proper ancestor. -/
theorem exists_semi (hw : w ≠ root) : ∃ s, SemiPath E num s w ∧ num s = semi E num w ∧
    Relation.ReflTransGen T s w ∧ s ≠ w := by
  obtain ⟨p, hp⟩ := h.exists_parent hw
  obtain ⟨s, hs, hnum⟩ := Nat.sInf_mem
    (⟨num p, p, h.semiPath_parent hp, rfl⟩ : {k | ∃ v, SemiPath E num v w ∧ num v = k}.Nonempty)
  have hlt : num s < num w := by
    rw [hnum]
    exact (semi_le (h.semiPath_parent hp)).trans_lt (h.tree_lt hp)
  exact ⟨s, hs, hnum, h.ancestor_of_semiPath hs hlt, fun heq ↦ absurd hlt (heq ▸ lt_irrefl _)⟩

include h in
theorem semi_lt (hw : w ≠ root) : semi E num w < num w := by
  obtain ⟨s, -, hs, hanc, hne⟩ := h.exists_semi hw
  exact hs ▸ h.ancestor_lt hanc hne

include h in
theorem semi_le_parent (hp : T v w) : semi E num w ≤ num v := semi_le (h.semiPath_parent hp)

/-! ### Dominators and the tree -/

include h in
theorem ancestor_of_dominates (hdom : Dominates E root d w) : Relation.ReflTransGen T d w := by
  rcases dominates_iff_not_avoiding.1 hdom with rfl | hnot
  · exact h.root_ancestor w
  · by_contra hanc
    -- the tree path to `w` avoids every vertex that is not an ancestor of `w`
    refine hnot ?_
    have hall : ∀ {v}, Relation.ReflTransGen T root v → Relation.ReflTransGen T v w →
        Relation.ReflTransGen (Avoiding E d) root v := by
      intro v hv
      induction hv with
      | refl => exact fun _ ↦ .refl
      | tail _ hbc ih =>
        exact fun hcw ↦ (ih (.head hbc hcw)).tail ⟨h.tree_edge hbc, fun heq ↦ hanc (heq ▸ hcw)⟩
    exact hall (h.root_ancestor w) .refl

include h in
/-- Going on from a vertex to a descendant, nothing above the vertex is met. -/
theorem dominates_of_ancestor (hdom : Dominates E root d w) (hcw : Relation.ReflTransGen T c w)
    (hlt : num d < num c) : Dominates E root d c :=
  hdom.of_avoiding (h.avoiding_of_ancestor hcw hlt)

include h in
/-- Strict dominators are ancestors of the semidominator. -/
theorem ancestor_semi_of_dominates {s : α} (hs : SemiPath E num s w)
    (hnum : num s = semi E num w) (hw : w ≠ root) (hdom : Dominates E root d w) (hne : d ≠ w) :
    Relation.ReflTransGen T d s := by
  have hdw := h.ancestor_of_dominates hdom
  have hlt := h.ancestor_lt hdw hne
  have hsw : num s < num w := hnum ▸ h.semi_lt hw
  obtain ⟨x, hedge, hwalk⟩ := hs
  refine h.ancestor_of_dominates ?_
  by_cases hds : d = s
  · rw [hds]
    exact fun _ hl ↦ hl.last_mem
  · -- the semidominator path stays above `w`, so it avoids `d`
    obtain ⟨hle, hall⟩ := walk_of_semiPath hwalk
    refine hdom.of_avoiding (.head ⟨hedge, ?_⟩ ?_)
    · rintro rfl
      omega
    · refine Relation.ReflTransGen.mono (fun a b hab ↦ ?_) _ _ (hall _ le_rfl)
      refine ⟨hab.1, ?_⟩
      rintro rfl
      exact absurd hab.2 (not_le.2 hlt)

/-! ### Undercutting a vertex of the tree path -/

/-- A walk from below `d` to `d` or above has a last step that comes from below. -/
theorem exists_last_below (hwalk : Relation.ReflTransGen (Avoiding E d) a w)
    (ha : num a < num d) (hw : num d ≤ num w) :
    ∃ x y, Relation.ReflTransGen (Avoiding E d) a x ∧ num x < num d ∧ Avoiding E d x y ∧
      Relation.ReflTransGen (fun a b ↦ Avoiding E d a b ∧ num d ≤ num a) y w := by
  induction hwalk with
  | refl => omega
  | @tail b c hab hbc ih =>
    by_cases hb : num b < num d
    · exact ⟨b, c, hab, hb, hbc, .refl⟩
    · obtain ⟨x, y, hax, hx, hxy, hyb⟩ := ih (not_lt.1 hb)
      exact ⟨x, y, hax, hx, hxy, hyb.tail ⟨hbc, not_lt.1 hb⟩⟩

/-- A walk to a vertex with a property has a first vertex with it. -/
theorem exists_first {R : α → α → Prop} {P : α → Prop} (hwalk : Relation.ReflTransGen R a w)
    (hw : P w) :
    ∃ y, P y ∧ Relation.ReflTransGen R a y ∧
      Relation.ReflTransGen (fun a b ↦ R a b ∧ ¬P a) a y := by
  induction hwalk using Relation.ReflTransGen.head_induction_on with
  | refl => exact ⟨w, hw, .refl, .refl⟩
  | @head a b hab _ ih =>
    by_cases ha : P a
    · exact ⟨a, ha, .refl, .refl⟩
    · obtain ⟨y, hy, hby, hbyP⟩ := ih
      exact ⟨y, hy, .head hab hby, .head ⟨hab, ha⟩ hbyP⟩

include h in
/-- **The key step.** A walk to `w` that avoids an ancestor `d` of `w` enters the tree path from `d`
to `w` at a vertex whose semidominator lies above `d` in the tree. -/
theorem exists_undercut (hd : d ≠ root) (hdw : Relation.ReflTransGen T d w) (hne : d ≠ w)
    (hwalk : Relation.ReflTransGen (Avoiding E d) root w) :
    ∃ y, OnPath T d w y ∧ semi E num y < num d ∧
      Relation.ReflTransGen (Avoiding E d) root y := by
  obtain ⟨x, x', hroot, hx, hxx', hrest⟩ :=
    exists_last_below hwalk (h.ancestor_lt (h.root_ancestor d) hd.symm) (h.ancestor_le hdw)
  obtain ⟨y, ⟨hdy, hyd, hyw⟩, hx'y, hfirst⟩ := exists_first
    (P := OnPath T d w) hrest ⟨hdw, hne.symm, .refl⟩
  have hx'd : x' ≠ d := hxx'.2
  refine ⟨y, ⟨hdy, hyd, hyw⟩, ?_, (hroot.tail hxx').trans
    (Relation.ReflTransGen.mono (fun _ _ hab ↦ hab.1) _ _ hx'y)⟩
  -- every vertex before `y` is numbered above it, or it would be on the tree path itself
  suffices hsemi : SemiPath E num x y from (semi_le hsemi).trans_lt hx
  refine ⟨x', hxx'.1, ?_⟩
  have hinner : ∀ {a}, Relation.ReflTransGen (fun a b ↦ (Avoiding E d a b ∧ num d ≤ num a) ∧
      ¬OnPath T d w a) a y → a ≠ d →
      Relation.ReflTransGen (fun a b ↦ E a b ∧ num y < num a) a y := by
    intro a hay
    induction hay using Relation.ReflTransGen.head_induction_on with
    | refl => exact fun _ ↦ .refl
    | @head a b hab _ ih =>
      intro had
      obtain ⟨⟨hedge, hda⟩, hnot⟩ := hab
      have hby := ih hedge.2
      refine .head ⟨hedge.1, ?_⟩ hby
      by_contra hle
      obtain ⟨hyb, hall⟩ := walk_of_semiPath hby
      have hay : Relation.ReflTransGen T a y := h.ancestor_of_walk
        (.head ⟨hedge.1, (not_lt.1 hle).trans hyb⟩ (hall _ (not_lt.1 hle))) .refl
      exact hnot ⟨h.interval hdy hda (h.ancestor_le hay), had, hay.trans hyw⟩
  exact hinner hfirst hx'd

/-! ### Immediate dominators from semidominators -/

include h in
/-- **A semidominator that is not undercut is the immediate dominator.** -/
theorem isIdom_of_semi_le {s : α} (hw : w ≠ root) (hs : SemiPath E num s w)
    (hnum : num s = semi E num w)
    (hle : ∀ u, OnPath T s w u → num s ≤ semi E num u) : IsIdom E root s w := by
  have hlt : num s < num w := hnum ▸ h.semi_lt hw
  have hsw := h.ancestor_of_semiPath hs hlt
  have hne : s ≠ w := fun heq ↦ absurd hlt (heq ▸ lt_irrefl _)
  have hdom : Dominates E root s w := by
    rw [dominates_iff_not_avoiding, or_iff_not_imp_left]
    intro hroot hwalk
    obtain ⟨y, hy, hlt', -⟩ := h.exists_undercut hroot hsw hne hwalk
    exact absurd (hle y hy) (not_le.2 hlt')
  refine ⟨hdom, hne, fun d' hd' hne' ↦ ?_⟩
  have hanc := h.ancestor_semi_of_dominates hs hnum hw hd' hne'
  by_cases heq : d' = s
  · rw [heq]
    exact fun _ hl ↦ hl.last_mem
  · exact h.dominates_of_ancestor hd' hsw (h.ancestor_lt hanc heq)

include h in
/-- **Otherwise the immediate dominator is that of the vertex with the least semidominator** on the
tree path below the semidominator. -/
theorem isIdom_of_semi_lt {s : α} (hw : w ≠ root) (hs : SemiPath E num s w)
    (hnum : num s = semi E num w) (hu : OnPath T s w u)
    (hmin : ∀ v, OnPath T s w v → semi E num u ≤ semi E num v)
    (hlt : semi E num u < semi E num w) (hd : IsIdom E root d u) : IsIdom E root d w := by
  have hsw : num s < num w := hnum ▸ h.semi_lt hw
  obtain ⟨hsu, hus, huw⟩ := hu
  have hu : u ≠ root := by
    rintro rfl
    exact hus (h.num_inj (le_antisymm (h.ancestor_le (h.root_ancestor s)) (h.ancestor_le hsu)))
  obtain ⟨t, ht, htnum, -, -⟩ := h.exists_semi hu
  have hdt := h.ancestor_semi_of_dominates ht htnum hu hd.dominates hd.ne
  have hdu := h.ancestor_of_dominates hd.dominates
  have hdlt : num d < num s := by
    have := h.ancestor_le hdt
    omega
  have hdw := hdu.trans huw
  have hdne : d ≠ w := by
    rintro rfl
    omega
  have hdom : Dominates E root d w := by
    rw [dominates_iff_not_avoiding, or_iff_not_imp_left]
    intro hroot hwalk
    obtain ⟨y, ⟨hdy, hyd, hyw⟩, hlt', hrooty⟩ := h.exists_undercut hroot hdw hdne hwalk
    by_cases hys : num y ≤ num s
    · -- the walk enters above `s`; going on to `u` it would avoid `d`
      have hyu : Relation.ReflTransGen T y u :=
        (h.ancestor_of_ancestors hyw (hsu.trans huw) hys).trans hsu
      have huavoid := hrooty.trans (h.avoiding_of_ancestor hyu (h.ancestor_lt hdy hyd.symm))
      exact (dominates_iff_not_avoiding.1 hd.dominates).elim hroot fun hnot ↦ hnot huavoid
    · -- the walk enters below `s`, where no semidominator is less than `u`'s
      have hsy := h.ancestor_of_ancestors (hsu.trans huw) hyw (not_le.1 hys).le
      have hne : y ≠ s := by
        rintro rfl
        exact hys le_rfl
      have := hmin y ⟨hsy, hne, hyw⟩
      have := h.ancestor_le hdt
      omega
  refine ⟨hdom, hdne, fun d' hd' hne' ↦ ?_⟩
  have hanc := h.ancestor_semi_of_dominates hs hnum hw hd' hne'
  have hlt' : num d' < num u :=
    (h.ancestor_le hanc).trans_lt (h.ancestor_lt hsu hus.symm)
  refine hd.closest d' (h.dominates_of_ancestor hd' huw hlt') ?_
  rintro rfl
  exact lt_irrefl _ hlt'

/-! ### Computing semidominators -/

include h in
/-- The way down the tree as a walk above `w`. -/
theorem walk_of_ancestor (huv : Relation.ReflTransGen T u v) (hu : num w < num u) :
    Relation.ReflTransGen (fun a b ↦ E a b ∧ num w < num a) u v := by
  induction huv with
  | refl => exact .refl
  | tail hub hbc ih => exact ih.tail ⟨h.tree_edge hbc, hu.trans_le (h.ancestor_le hub)⟩

include h in
/-- A predecessor, or the semidominator of an ancestor of it numbered above `w`, bounds the
semidominator of `w`. -/
theorem semi_le_of_edge (hvw : E v w) (huv : Relation.ReflTransGen T u v) (hu : num w < num u) :
    semi E num w ≤ semi E num u := by
  have hroot : u ≠ root := by
    rintro rfl
    exact absurd (h.ancestor_le (h.root_ancestor w)) (not_le.2 hu)
  obtain ⟨s, ⟨x, hedge, hwalk⟩, hnum, -, -⟩ := h.exists_semi hroot
  rw [← hnum]
  refine semi_le ⟨x, hedge, ?_⟩
  -- the path to `u`, the tree path to `v` and the arc to `w` all stay above `w`
  have hxu : Relation.ReflTransGen (fun a b ↦ E a b ∧ num w < num a) x u :=
    Relation.ReflTransGen.mono (fun _ _ hab ↦ ⟨hab.1, hu.trans hab.2⟩) _ _ hwalk
  have huv' : Relation.ReflTransGen (fun a b ↦ E a b ∧ num w < num a) u v :=
    h.walk_of_ancestor huv hu
  exact (hxu.trans huv').tail ⟨hvw, hu.trans_le (h.ancestor_le huv)⟩

include h in
/-- The least-numbered vertex of a walk above `w` is an ancestor of the last vertex before `w`. -/
theorem exists_least_on_walk (hwalk : Relation.ReflTransGen (fun a b ↦ E a b ∧ num w < num a) a w)
    (haw : a ≠ w) : ∃ u v, E v w ∧ Relation.ReflTransGen T u v ∧ num w < num u ∧
      Relation.ReflTransGen (fun a b ↦ E a b ∧ num u < num a) a u := by
  induction hwalk using Relation.ReflTransGen.head_induction_on with
  | refl => exact absurd rfl haw
  | @head a b hab _ ih =>
    by_cases hb : b = w
    · exact ⟨a, a, hb ▸ hab.1, .refl, hab.2, .refl⟩
    · obtain ⟨u, v, hvw, huv, hu, hbu⟩ := ih hb
      by_cases hau : num u < num a
      · exact ⟨u, v, hvw, huv, hu, .head ⟨hab.1, hau⟩ hbu⟩
      · obtain ⟨hle, hall⟩ := walk_of_semiPath hbu
        have hanc : Relation.ReflTransGen T a u := h.ancestor_of_walk
          (.head ⟨hab.1, (not_lt.1 hau).trans hle⟩ (hall _ (not_lt.1 hau))) .refl
        exact ⟨a, v, hvw, hanc.trans huv, hab.2, .refl⟩

include h in
/-- **The semidominator comes from a predecessor**: it is one with a smaller number, or the
semidominator of an ancestor of one. -/
theorem exists_edge_semi (hw : w ≠ root) : ∃ v, E v w ∧
    (num v < num w ∧ num v = semi E num w ∨
      ∃ u, Relation.ReflTransGen T u v ∧ num w < num u ∧ semi E num u ≤ semi E num w) := by
  obtain ⟨s, ⟨x, hedge, hwalk⟩, hnum, -, -⟩ := h.exists_semi hw
  by_cases hx : x = w
  · exact ⟨s, hx ▸ hedge, .inl ⟨hnum ▸ h.semi_lt hw, hnum⟩⟩
  · obtain ⟨u, v, hvw, huv, hu, hxu⟩ := h.exists_least_on_walk hwalk hx
    exact ⟨v, hvw, .inr ⟨u, huv, hu, hnum ▸ semi_le ⟨x, hedge, hxu⟩⟩⟩

end DfsNumbering

end OpenImpact.Foundation
