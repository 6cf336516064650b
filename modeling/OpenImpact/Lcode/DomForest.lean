import OpenImpact.Foundation.Semidominator
import OpenImpact.Lcode.Dom
import Mathlib.Tactic.Push

/-!
# The forest of `LD_eval`

While the nodes are processed in decreasing order of their numbers, those numbered above `i` are
linked into a forest. A linked node keeps an ancestor and a label, and the label has the least
semidominator on the tree path from the ancestor down to the node (`Covers`). Path compression keeps
this (`compress_spec`), and so `LD_eval` finds the least semidominator on the tree path below the
root of the forest (`eval_spec`). That it also looks at the label of that root makes no difference
unless the root's own number is smaller than all of these.
-/

namespace OpenImpact.LD

open Foundation

variable {α : Type} {T : α → α → Prop} {num : α → ℕ} {i : ℕ} {st st' st'' : Dom α}
  {a u v x : α}

/-- The fields that compression leaves alone. -/
structure Compressed (st st' : Dom α) : Prop where
  nhash : st'.nhash = st.nhash
  dfn : st'.dfn = st.dfn
  parent : st'.parent = st.parent
  sdom : st'.sdom = st.sdom
  bucket : st'.bucket = st.bucket
  idom : st'.idom = st.idom

theorem Compressed.refl (st : Dom α) : Compressed st st := ⟨rfl, rfl, rfl, rfl, rfl, rfl⟩

theorem Compressed.trans (h : Compressed st st') (h' : Compressed st' st'') : Compressed st st'' :=
  ⟨h'.nhash.trans h.nhash, h'.dfn.trans h.dfn, h'.parent.trans h.parent, h'.sdom.trans h.sdom,
    h'.bucket.trans h.bucket, h'.idom.trans h.idom⟩

/-- `u` has the least semidominator on the tree path from `a` to `v`, all of which is linked. -/
structure Covers (T : α → α → Prop) (num : α → ℕ) (i : ℕ) (sdom : α → ℕ) (a v u : α) : Prop where
  onPath : OnPath T a v u
  linked : ∀ x, OnPath T a v x → i < num x
  least : ∀ x, OnPath T a v x → sdom u ≤ sdom x

/-- The forest of the nodes numbered above `i`. -/
structure Forest (T : α → α → Prop) (num : α → ℕ) (i : ℕ) (st : Dom α) : Prop where
  linked : ∀ v, i < num v →
    ∃ a u, st.ancestor v = some a ∧ st.label v = some u ∧ Covers T num i st.sdom a v u
  unlinked : ∀ v, num v ≤ i → st.ancestor v = none ∧ st.label v = some v

theorem Forest.ancestor_eq_none_iff (hf : Forest T num i st) : st.ancestor v = none ↔ num v ≤ i := by
  constructor
  · intro hnone
    by_contra hlt
    obtain ⟨a, -, ha, -⟩ := hf.linked v (not_le.1 hlt)
    rw [ha] at hnone
    cases hnone
  · exact fun hle ↦ (hf.unlinked v hle).1

/-- The forest does not depend on the semidominators of unlinked nodes. -/
theorem Forest.congr_sdom (hf : Forest T num i st) {sdom : α → ℕ}
    (h : ∀ v, i < num v → sdom v = st.sdom v) : Forest T num i { st with sdom := sdom } := by
  refine ⟨fun v hv ↦ ?_, hf.unlinked⟩
  obtain ⟨a, u, ha, hu, hcov⟩ := hf.linked v hv
  refine ⟨a, u, ha, hu, hcov.onPath, hcov.linked, fun x hx ↦ ?_⟩
  show sdom u ≤ sdom x
  rw [h u (hcov.linked u hcov.onPath), h x (hcov.linked x hx)]
  exact hcov.least x hx

section Spec

variable {E : α → α → Prop} {root : α} (h : DfsNumbering E T root num)

include h in
/-- Covers of the two parts of a tree path give one of the whole. -/
theorem Covers.trans {sdom : α → ℕ} {r a v u w : α} (hra : Covers T num i sdom r a w)
    (hav : Covers T num i sdom a v u) :
    Covers T num i sdom r v (if sdom w < sdom u then w else u) := by
  have hanc : Relation.ReflTransGen T a v := hav.onPath.1.trans hav.onPath.2.2
  have hranc : Relation.ReflTransGen T r a := hra.onPath.1.trans hra.onPath.2.2
  have hwpath : OnPath T r v w := ⟨hra.onPath.1, hra.onPath.2.1, hra.onPath.2.2.trans hanc⟩
  have hupath : OnPath T r v u := by
    refine ⟨hranc.trans hav.onPath.1, ?_, hav.onPath.2.2⟩
    rintro rfl
    have := h.num_lt_of_onPath hav.onPath
    have := h.ancestor_le hranc
    omega
  refine ⟨?_, fun x hx ↦ ?_, fun x hx ↦ ?_⟩
  · split_ifs
    · exact hwpath
    · exact hupath
  · exact (h.onPath_split hx hanc).elim (hra.linked x) (hav.linked x)
  · have hle : sdom w ≤ sdom x ∨ sdom u ≤ sdom x :=
      (h.onPath_split hx hanc).imp (hra.least x) (hav.least x)
    split_ifs <;> omega

variable [DecidableEq α]

include h in
/-- **Path compression.** A linked node ends up right below the root of its tree in the forest; nodes
with larger numbers are not touched. The induction is on the fuel, of which a node needs its
number. -/
theorem compress_spec {fuel : ℕ} (hf : Forest T num i st) (hv : i < num v) (hfuel : num v ≤ fuel) :
    ∃ st' r, compress fuel v st = .ok st' ∧ Forest T num i st' ∧ Compressed st st' ∧
      st'.ancestor v = some r ∧ num r ≤ i ∧
      ∀ w, num v < num w → st'.ancestor w = st.ancestor w ∧ st'.label w = st.label w := by
  induction fuel generalizing v with
  | zero => omega
  | succ fuel ih =>
    obtain ⟨a, u, ha, hu, hcov⟩ := hf.linked v hv
    rw [compress, ha]
    simp only
    by_cases haroot : st.ancestor a = none
    · rw [if_pos haroot]
      exact ⟨st, a, rfl, hf, .refl st, ha, hf.ancestor_eq_none_iff.1 haroot, fun _ _ ↦ ⟨rfl, rfl⟩⟩
    rw [if_neg haroot]
    have hia : i < num a := not_le.1 fun hle ↦ haroot (hf.ancestor_eq_none_iff.2 hle)
    have hav : num a < num v := (h.num_lt_of_onPath hcov.onPath).trans_le
      (h.ancestor_le hcov.onPath.2.2)
    obtain ⟨st₁, r, hrun, hf₁, hsame, hr, hri, hlater⟩ := ih hia (by omega)
    rw [hrun, Run.ok_bind]
    -- the recursive call left `v` alone, and `a` now hangs below `r`
    have ha₁ : st₁.ancestor v = some a := (hlater v hav).1.trans ha
    have hu₁ : st₁.label v = some u := (hlater v hav).2.trans hu
    obtain ⟨r', w, hr', hw, hcova⟩ := hf₁.linked a hia
    obtain rfl : r = r' := by simpa [hr] using hr'
    rw [← hsame.sdom] at hcov
    have hnew := hcova.trans h hcov
    simp only [hu₁, hw, sdomOf, Run.pure_eq_ok]
    have hother : ∀ (st₂ : Dom α) (l : Option α), st₂.sdom = st₁.sdom →
        st₂.label = Function.update st₁.label v l →
        st₂.ancestor = Function.update st₁.ancestor v (some r) →
        l = some (if st₁.sdom w < st₁.sdom u then w else u) → Forest T num i st₂ ∧
          st₂.ancestor v = some r ∧
          ∀ x, num v < num x → st₂.ancestor x = st.ancestor x ∧ st₂.label x = st.label x := by
      intro st₂ l hsdom hlabel hanc hl
      refine ⟨⟨fun x hx ↦ ?_, fun x hx ↦ ?_⟩, by simp [hanc], fun x hx ↦ ?_⟩
      · by_cases hxv : x = v
        · subst hxv
          exact ⟨r, if st₁.sdom w < st₁.sdom u then w else u, by simp [hanc], by simp [hlabel, hl],
            hsdom ▸ hnew⟩
        · rw [hlabel, hanc, Function.update_of_ne hxv, Function.update_of_ne hxv, hsdom]
          exact hf₁.linked x hx
      · have hxv : x ≠ v := by
          rintro rfl
          omega
        rw [hlabel, hanc, Function.update_of_ne hxv, Function.update_of_ne hxv]
        exact hf₁.unlinked x hx
      · have hxv : x ≠ v := by
          rintro rfl
          exact lt_irrefl _ hx
        rw [hlabel, hanc, Function.update_of_ne hxv, Function.update_of_ne hxv]
        exact hlater x (hav.trans hx)
    refine ⟨_, r, rfl, ?_⟩
    split_ifs with hlt <;> simp only [ha₁, Option.bind_some, hr]
    · obtain ⟨hforest, hancv, hrest⟩ := hother
        { st₁ with
          label := Function.update st₁.label v (some w)
          ancestor := Function.update st₁.ancestor v (some r) } (some w) rfl rfl rfl
        (by rw [if_pos hlt])
      exact ⟨hforest, hsame.trans ⟨rfl, rfl, rfl, rfl, rfl, rfl⟩, hancv, hri, hrest⟩
    · obtain ⟨hforest, hancv, hrest⟩ := hother
        { st₁ with ancestor := Function.update st₁.ancestor v (some r) } (some u) rfl
        (by rw [← hu₁, Function.update_eq_self]) rfl (by rw [if_neg hlt])
      exact ⟨hforest, hsame.trans ⟨rfl, rfl, rfl, rfl, rfl, rfl⟩, hancv, hri, hrest⟩

/-- What `LD_eval` finds for a linked node: `r` is the root of its tree in the forest, and `u` has the
least semidominator among the path below `r` and `r` itself, which comes last. -/
structure Evaluates (T : α → α → Prop) (num : α → ℕ) (i : ℕ) (sdom : α → ℕ) (v u r : α) : Prop where
  root_le : num r ≤ i
  self : OnPath T r v v
  linked : ∀ x, OnPath T r v x → i < num x
  least : OnPath T r v u ∧ sdom u ≤ sdom r ∧ (∀ x, OnPath T r v x → sdom u ≤ sdom x) ∨
    u = r ∧ ∀ x, OnPath T r v x → sdom r < sdom x

include h in
/-- **`LD_eval`.** -/
theorem eval_spec {fuel : ℕ} (hf : Forest T num i st) (hfuel : num v ≤ fuel) :
    ∃ st' u, eval fuel v st = .ok (some u, st') ∧ Forest T num i st' ∧ Compressed st st' ∧
      (num v ≤ i → u = v) ∧ (i < num v → ∃ r, Evaluates T num i st.sdom v u r) := by
  by_cases hv : num v ≤ i
  · obtain ⟨hnone, hlabel⟩ := hf.unlinked v hv
    exact ⟨st, v, by rw [eval, if_pos hnone, hlabel], hf, .refl st, fun _ ↦ rfl,
      fun hlt ↦ absurd hv (not_le.2 hlt)⟩
  rw [not_le] at hv
  obtain ⟨st₁, r, hrun, hf₁, hsame, hr, hri, -⟩ := compress_spec h hf hv hfuel
  obtain ⟨r', u, hr', hu, hcov⟩ := hf₁.linked v hv
  obtain rfl : r = r' := by simpa [hr] using hr'
  have hlabel := (hf₁.unlinked r hri).2
  rw [eval, if_neg (fun hnone ↦ absurd hv (not_lt.2 (hf.ancestor_eq_none_iff.1 hnone))), hrun,
    Run.ok_bind]
  simp only [hr, hu, Option.bind_some, hlabel, sdomOf, hsame.sdom] at hcov ⊢
  have hself := h.onPath_self hcov.onPath
  by_cases hle : st.sdom u ≤ st.sdom r
  · rw [if_pos hle]
    exact ⟨st₁, u, rfl, hf₁, hsame, fun hle' ↦ absurd hv (not_lt.2 hle'),
      fun _ ↦ ⟨r, hri, hself, hcov.linked, .inl ⟨hcov.onPath, hle, hcov.least⟩⟩⟩
  · rw [if_neg hle]
    exact ⟨st₁, r, by rw [deref, Run.ok_bind, hlabel]; rfl, hf₁, hsame,
      fun hle' ↦ absurd hv (not_lt.2 hle'), fun _ ↦ ⟨r, hri, hself, hcov.linked,
        .inr ⟨rfl, fun x hx ↦ (not_le.1 hle).trans_le (hcov.least x hx)⟩⟩⟩

include h in
/-- **`LD_link`** makes the forest one of the nodes from `i` on. -/
theorem Forest.link {w p : α} (hf : Forest T num (i + 1) st) (hw : num w = i + 1) (hp : T p w) :
    Forest T num i (link (some p) w st) := by
  refine ⟨fun v hv ↦ ?_, fun v hv ↦ ?_⟩
  · by_cases hvw : v = w
    · subst hvw
      have hpv : p ≠ v := fun heq ↦ (h.tree_lt hp).ne (heq ▸ rfl)
      have honly : ∀ x, OnPath T p v x → x = v := by
        intro x hx
        by_contra hne
        have := h.ancestor_le (h.ancestor_parent hp hx.2.2 hne)
        have := h.num_lt_of_onPath hx
        omega
      refine ⟨p, v, by simp [LD.link], (hf.unlinked v hw.le).2, ⟨.single hp, hpv.symm, .refl⟩,
        fun x hx ↦ ?_, fun x hx ↦ ?_⟩
      · rw [honly x hx]
        exact hv
      · rw [honly x hx]
    · have hlt : i + 1 < num v := by
        refine lt_of_le_of_ne hv fun heq ↦ hvw (h.num_inj (heq.symm.trans hw.symm))
      obtain ⟨a, u, ha, hu, hcov⟩ := hf.linked v hlt
      refine ⟨a, u, by simp [LD.link, hvw, ha], hu, hcov.onPath, fun x hx ↦ ?_, hcov.least⟩
      exact (Nat.lt_succ_self i).trans (hcov.linked x hx)
  · have hvw : v ≠ w := by
      rintro rfl
      omega
    have := hf.unlinked v (hv.trans (Nat.le_succ i))
    exact ⟨by simp [LD.link, hvw, this.1], this.2⟩

end Spec

end OpenImpact.LD
