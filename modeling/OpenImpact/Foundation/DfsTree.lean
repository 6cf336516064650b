import OpenImpact.Foundation.Dfs
import OpenImpact.Foundation.Semidominator
import Mathlib.Data.List.Basic

/-!
# Traversals from a root

What a traversal from a root says about the whole graph. It reaches what is reachable; its preorder
numbers the nodes, and when these are all the nodes the numbers and the tree arcs form a
`DfsNumbering`, the form in which semidominators use a traversal; and its postorder is a topological
order of the arcs that are not back arcs, so every cycle has a back arc.
-/

namespace OpenImpact.Foundation.Dfs

variable {α ε : Type*} {out : α → List ε} {dst : ε → α} {r : α} {evs : List (Event α ε)} {V : Set α}

/-- The arcs as a relation. -/
def Arc (out : α → List ε) (dst : ε → α) (x y : α) : Prop := ∃ e ∈ out x, dst e = y

/-- The nodes of a traversal from `r`, in the order they were entered. -/
def preorder (dst : ε → α) (r : α) (evs : List (Event α ε)) : List α := r :: entered dst evs

theorem Scan.nodup_preorder (h : Scan out dst r [r] {r} (out r) evs V) :
    (preorder dst r evs).Nodup :=
  List.nodup_cons.2 ⟨fun hr ↦ h.notMem_of_entered hr rfl, h.nodup_entered⟩

theorem Scan.mem_preorder_iff (h : Scan out dst r [r] {r} (out r) evs V) {v : α} :
    v ∈ preorder dst r evs ↔ v ∈ V := by
  rw [h.mem_iff, preorder, List.mem_cons, Set.mem_singleton_iff]

/-- **A traversal reaches what is reachable.** -/
theorem Scan.mem_preorder_iff_reach (h : Scan out dst r [r] {r} (out r) evs V) {v : α} :
    v ∈ preorder dst r evs ↔ Relation.ReflTransGen (Arc out dst) r v := by
  constructor
  · intro hv
    rcases List.mem_cons.1 hv with rfl | hv
    · exact .refl
    · refine Relation.ReflTransGen.mono ?_ _ _ (h.ancestor_of_entered hv)
      rintro x _ ⟨e, he, rfl⟩
      exact ⟨e, h.mem_out_of_enter (fun _ h ↦ h) he, rfl⟩
  · intro hv
    rw [h.mem_preorder_iff]
    induction hv with
    | refl => exact h.mem_iff.2 (.inl rfl)
    | tail _ hbc ih =>
      obtain ⟨e, he, rfl⟩ := hbc
      rcases h.mem_iff.1 ih with hr | hin
      · exact h.dst_mem (Set.mem_singleton_iff.1 hr ▸ he)
      · exact h.dst_mem_of_entered hin he

theorem Scan.ancestor_root (h : Scan out dst r [r] {r} (out r) evs V) {v : α}
    (hv : v ∈ preorder dst r evs) : Ancestor dst evs r v :=
  (List.mem_cons.1 hv).elim (fun h ↦ h ▸ .refl) h.ancestor_of_entered

/-- No two entries enter the same node. -/
theorem enter_unique (hnodup : (entered dst evs).Nodup) {x y : α} {e f : ε}
    (hx : .enter x e ∈ evs) (hy : .enter y f ∈ evs) (heq : dst e = dst f) : x = y ∧ e = f := by
  induction evs with
  | nil => simp at hx
  | cons ev evs ih =>
    have htail : (entered dst evs).Nodup := by
      cases ev with
      | enter => exact (List.nodup_cons.1 hnodup).2
      | back => exact hnodup
      | cross => exact hnodup
      | leave => exact hnodup
    have hhead : ∀ {x : α} {e : ε}, ev = .enter x e → dst e ∉ entered dst evs := by
      rintro x e rfl
      exact (List.nodup_cons.1 hnodup).1
    rcases List.mem_cons.1 hx with hx | hx <;> rcases List.mem_cons.1 hy with hy | hy
    · simpa using hx.trans hy.symm
    · exact absurd (heq ▸ mem_entered_of_enter hy) (hhead hx.symm)
    · exact absurd (heq ▸ mem_entered_of_enter hx) (hhead hy.symm)
    · exact ih htail hx hy

theorem TreeArc.unique (hnodup : (entered dst evs).Nodup) {x y z : α}
    (hx : TreeArc dst evs x z) (hy : TreeArc dst evs y z) : x = y := by
  obtain ⟨e, he, rfl⟩ := hx
  obtain ⟨f, hf, heq⟩ := hy
  exact (enter_unique hnodup he hf heq.symm).1

section Numbers

variable [DecidableEq α]

/-- Preorder numbers, from 1. -/
def number (dst : ε → α) (r : α) (evs : List (Event α ε)) (v : α) : ℕ :=
  (preorder dst r evs).idxOf v + 1

theorem idxOf_lt_of_sublist {l : List α} (hl : l.Nodup) {x y : α} (h : [x, y].Sublist l) :
    l.idxOf x < l.idxOf y := by
  induction l with
  | nil => simp at h
  | cons a l ih =>
    obtain ⟨ha, hl⟩ := List.nodup_cons.1 hl
    cases h with
    | cons _ hsub =>
      have hx : x ≠ a := fun heq ↦ ha (heq ▸ hsub.subset (by simp))
      have hy : y ≠ a := fun heq ↦ ha (heq ▸ hsub.subset (by simp))
      rw [List.idxOf_cons_ne _ hx.symm, List.idxOf_cons_ne _ hy.symm]
      exact Nat.succ_lt_succ (ih hl hsub)
    | cons_cons _ hsub =>
      have hy : y ≠ x := fun heq ↦ ha (heq ▸ hsub.subset (by simp))
      rw [List.idxOf_cons_self, List.idxOf_cons_ne _ hy.symm]
      exact Nat.succ_pos _

/-- **The interval property**, from the way preorder backtracks along the tree: an ancestor of a node
is an ancestor of the node before it, unless it is the node itself. -/
theorem Scan.ancestor_of_later (h : Scan out dst r [r] {r} (out r) evs V) {a : α} {k n : ℕ}
    (hkn : k + n < (preorder dst r evs).length) (hak : (preorder dst r evs).idxOf a ≤ k)
    (hanc : Ancestor dst evs a (preorder dst r evs)[k + n]) :
    Ancestor dst evs a (preorder dst r evs)[k] := by
  induction n with
  | zero => exact hanc
  | succ n ih =>
    refine ih (by omega) ?_
    have hchain : List.IsChain (Follows dst evs) (preorder dst r evs) :=
      h.isChain_follows (fun _ h ↦ h) .refl
    obtain ⟨p, hp, hpanc⟩ := hchain.getElem (k + n) hkn
    have hne : a ≠ (preorder dst r evs)[k + n + 1] := by
      rintro rfl
      rw [h.nodup_preorder.idxOf_getElem] at hak
      omega
    rcases hanc.cases_tail with heq | ⟨p', hap', hp'⟩
    · exact absurd heq.symm hne
    · exact (TreeArc.unique h.nodup_entered hp' hp ▸ hap').trans hpanc

/-- **A traversal that reaches every node is a depth-first numbering.** -/
theorem Scan.dfsNumbering (h : Scan out dst r [r] {r} (out r) evs V) (hall : ∀ v, v ∈ V) :
    DfsNumbering (Arc out dst) (TreeArc dst evs) r (number dst r evs) := by
  have hmem : ∀ v, v ∈ preorder dst r evs := fun v ↦ h.mem_preorder_iff.2 (hall v)
  have hlt : ∀ {x y : α}, [x, y].Sublist (preorder dst r evs) →
      number dst r evs x < number dst r evs y := fun hs ↦
    Nat.succ_lt_succ (idxOf_lt_of_sublist h.nodup_preorder hs)
  have hroot : ∀ {x y : α}, x = r → y ∈ entered dst evs →
      number dst r evs x < number dst r evs y := fun hx hy ↦
    hx ▸ hlt ((List.singleton_sublist.2 hy).cons_cons r)
  refine ⟨fun x y hxy ↦ (List.idxOf_inj (hmem x)).1 (Nat.succ_injective hxy), ?_, ?_, ?_,
    TreeArc.unique h.nodup_entered, ?_, ?_⟩
  · rintro x _ ⟨e, he, rfl⟩
    rcases h.sublist_of_enter he with hx | hs
    · exact hroot hx (mem_entered_of_enter he)
    · exact hlt (hs.cons _)
  · rintro x _ ⟨e, he, rfl⟩
    exact ⟨e, h.mem_out_of_enter (fun _ h ↦ h) he, rfl⟩
  · intro v hv
    have hin := (List.mem_cons.1 (hmem v)).resolve_left hv
    exact exists_enter_of_mem hin
  · intro a b c hab hac hcb
    have hb := List.idxOf_lt_length_of_mem (hmem b)
    simp only [number, Nat.add_le_add_iff_right] at hac hcb
    obtain ⟨n, hn⟩ := Nat.exists_eq_add_of_le hcb
    have hlater := h.ancestor_of_later (hn ▸ hb) hac
    simp only [← hn, List.getElem_idxOf] at hlater
    exact hlater hab
  · rintro x _ ⟨e, he, rfl⟩ hlt'
    rcases List.mem_cons.1 (hmem x) with rfl | hx
    · exact h.ancestor_root (hmem _)
    · rcases h.ancestor_of_arc hx he with hr | hs | hanc
      · exact absurd hlt' (not_lt.2 (hroot (Set.mem_singleton_iff.1 hr) hx).le)
      · exact absurd hlt' (not_lt.2 (hlt (hs.cons _)).le)
      · exact hanc

end Numbers

/-! ### Postorder -/

/-- The nodes of a traversal from `r`, in the order they were left. -/
def postorder (r : α) (evs : List (Event α ε)) : List α := left evs ++ [r]

theorem Scan.postorder_perm (h : Scan out dst r [r] {r} (out r) evs V) :
    (postorder r evs).Perm (preorder dst r evs) :=
  (List.perm_append_singleton r (left evs)).trans (h.left_perm.cons r)

theorem Scan.nodup_postorder (h : Scan out dst r [r] {r} (out r) evs V) :
    (postorder r evs).Nodup :=
  h.postorder_perm.nodup_iff.2 h.nodup_preorder

/-- **Postorder is topological for the arcs that are not back arcs.** -/
theorem Scan.sublist_postorder_of_arc (h : Scan out dst r [r] {r} (out r) evs V) {x : α}
    (hx : x ∈ preorder dst r evs) {e : ε} (he : e ∈ out x) :
    .back x e ∈ evs ∨ [dst e, x].Sublist (postorder r evs) := by
  have hroot : ¬(dst e ∈ ({r} : Set α) ∧ dst e ∉ [r]) := fun hV ↦
    hV.2 (List.mem_singleton.2 hV.1)
  rcases List.mem_cons.1 hx with rfl | hx
  · rcases h.mem_left_of_mem he with hb | hV | hl
    · exact .inl hb
    · exact absurd hV hroot
    · exact .inr ((List.singleton_sublist.2 hl).append (.refl _))
  · rcases h.sublist_left_of_arc hx he with hb | hV | hs
    · exact .inl hb
    · exact absurd hV hroot
    · exact .inr (hs.trans (List.sublist_append_left _ _))

/-- A walk along arcs. -/
inductive ArcWalk (out : α → List ε) (dst : ε → α) : α → List ε → α → Prop
  | nil (a) : ArcWalk out dst a [] a
  | cons {a b e l} : e ∈ out a → ArcWalk out dst (dst e) l b → ArcWalk out dst a (e :: l) b

theorem exists_arcWalk {a b : α} (h : Relation.ReflTransGen (Arc out dst) a b) :
    ∃ l, ArcWalk out dst a l b := by
  induction h using Relation.ReflTransGen.head_induction_on with
  | refl => exact ⟨[], .nil b⟩
  | head hab _ ih =>
    obtain ⟨e, he, rfl⟩ := hab
    obtain ⟨l, hl⟩ := ih
    exact ⟨e :: l, .cons he hl⟩

/-- A walk without back arcs goes down in postorder. -/
theorem Scan.idxOf_add_length_le [DecidableEq α] (h : Scan out dst r [r] {r} (out r) evs V) {a b : α}
    {l : List ε} (hl : ArcWalk out dst a l b) (ha : a ∈ preorder dst r evs)
    (hback : ∀ e ∈ l, ∀ x, .back x e ∉ evs) :
    (postorder r evs).idxOf b + l.length ≤ (postorder r evs).idxOf a := by
  induction hl with
  | nil => exact le_rfl
  | @cons a b e l he _ ih =>
    have hnext : dst e ∈ preorder dst r evs := by
      rw [h.mem_preorder_iff_reach] at ha ⊢
      exact ha.tail ⟨e, he, rfl⟩
    have hle := ih hnext fun e' he' ↦ hback e' (List.mem_cons_of_mem _ he')
    have hlt := idxOf_lt_of_sublist h.nodup_postorder
      ((h.sublist_postorder_of_arc ha he).resolve_left (hback e List.mem_cons_self a))
    rw [List.length_cons]
    omega

/-- **Every cycle has a back arc.** -/
theorem Scan.exists_back_of_cycle (h : Scan out dst r [r] {r} (out r) evs V) {a : α} {l : List ε}
    (hl : ArcWalk out dst a l a) (hne : l ≠ []) (ha : Relation.ReflTransGen (Arc out dst) r a) :
    ∃ e ∈ l, ∃ x, .back x e ∈ evs := by
  classical
  by_contra hnone
  have hle := h.idxOf_add_length_le hl (h.mem_preorder_iff_reach.2 ha)
    fun e he x hb ↦ hnone ⟨e, he, x, hb⟩
  have := List.length_pos_iff.2 hne
  omega

/-- A back arc of a traversal from a root is an arc to an ancestor. -/
theorem Scan.ancestor_of_back_root (h : Scan out dst r [r] {r} (out r) evs V) {x : α} {e : ε}
    (hb : .back x e ∈ evs) : Ancestor dst evs (dst e) x := by
  obtain ⟨hx, hd⟩ := h.ancestor_of_back hb
  rcases hd with hd | hanc
  · rw [List.mem_singleton.1 hd]
    exact h.ancestor_root (List.mem_cons.2 hx)
  · exact hanc

/-- **A node is left before its parent in the tree.** -/
theorem Scan.sublist_postorder_of_treeArc (h : Scan out dst r [r] {r} (out r) evs V) {x y : α}
    (hxy : TreeArc dst evs x y) : [y, x].Sublist (postorder r evs) := by
  classical
  have hlt : ∀ {x y : α}, TreeArc dst evs x y →
      (preorder dst r evs).idxOf x < (preorder dst r evs).idxOf y := by
    rintro x _ ⟨e, he, rfl⟩
    refine idxOf_lt_of_sublist h.nodup_preorder ?_
    rcases h.sublist_of_enter he with rfl | hs
    · exact (List.singleton_sublist.2 (mem_entered_of_enter he)).cons_cons x
    · exact hs.cons r
  have hle : ∀ {x y : α}, Ancestor dst evs x y →
      (preorder dst r evs).idxOf x ≤ (preorder dst r evs).idxOf y := by
    intro x y hanc
    induction hanc with
    | refl => exact le_rfl
    | tail _ hbc ih => exact ih.trans (hlt hbc).le
  obtain ⟨e, he, rfl⟩ := hxy
  have hx : x ∈ preorder dst r evs := by
    rcases h.sublist_of_enter he with rfl | hs
    · exact List.mem_cons_self
    · exact List.mem_cons_of_mem r (hs.subset List.mem_cons_self)
  -- were the arc a back arc, its end would be an ancestor of its source
  refine (h.sublist_postorder_of_arc hx (h.mem_out_of_enter (fun _ h ↦ h) he)).resolve_left fun hb ↦ ?_
  exact absurd (hle (h.ancestor_of_back_root hb)) (hlt ⟨e, he, rfl⟩).not_ge

/-- Back arcs are arcs. -/
theorem Scan.mem_out_of_back {c : α} {g : List α} {V₀ : Set α} {es : List ε}
    (h : Scan out dst c g V₀ es evs V) (hes : ∀ e ∈ es, e ∈ out c) {x : α} {e : ε}
    (he : .back x e ∈ evs) : e ∈ out x := by
  induction h with
  | done => simp at he
  | back _ _ _ ih =>
    simp only [List.mem_cons, Event.back.injEq] at he
    rcases he with ⟨rfl, rfl⟩ | he
    · exact hes _ List.mem_cons_self
    · exact ih (fun e' he' ↦ hes e' (List.mem_cons_of_mem _ he')) he
  | cross _ _ _ ih =>
    exact ih (fun e' he' ↦ hes e' (List.mem_cons_of_mem _ he')) (by simpa using he)
  | tree _ _ _ ih₁ ih₂ =>
    simp only [List.mem_cons, List.mem_append, reduceCtorEq, false_or] at he
    rcases he with he | he
    · exact ih₁ (fun _ h ↦ h) he
    · exact ih₂ (fun e' he' ↦ hes e' (List.mem_cons_of_mem _ he')) he

/-! ### The node left first -/

section Greedy

variable [DecidableEq α]

/-- The walk that goes on along the first arc to a node not on it, and where it ends. `g` are the
nodes on the walk. -/
inductive Greedy (out : α → List ε) (dst : ε → α) : List α → α → α → Prop
  | stop {g v} (h : (out v).find? (fun e ↦ decide (dst e ∉ g)) = none) : Greedy out dst g v v
  | step {g v e w} (h : (out v).find? (fun e ↦ decide (dst e ∉ g)) = some e)
      (hw : Greedy out dst (dst e :: g) (dst e) w) : Greedy out dst g v w

theorem Greedy.unique {g : List α} {v w w' : α} (h : Greedy out dst g v w)
    (h' : Greedy out dst g v w') : w = w' := by
  induction h with
  | stop hnone =>
    cases h' with
    | stop => rfl
    | step hsome => exact absurd (hnone.symm.trans hsome) (by simp)
  | step hsome _ ih =>
    cases h' with
    | stop hnone => exact absurd (hnone.symm.trans hsome) (by simp)
    | step hsome' hw' =>
      obtain rfl := Option.some.inj (hsome.symm.trans hsome')
      exact ih hw'

/-- As long as no node has been left, a traversal follows the greedy walk. -/
theorem Scan.exists_greedy {c : α} {g : List α} {V V' : Set α} {es : List ε} (done : List ε)
    (h : Scan out dst c g V es evs V') (hV : ∀ v, v ∈ V ↔ v ∈ g) (hout : out c = done ++ es)
    (hdone : ∀ e ∈ done, dst e ∈ g) :
    ∃ w, Greedy out dst g c w ∧ (left evs ++ [c]).head? = some w := by
  induction h generalizing done with
  | @done c g V =>
    refine ⟨c, .stop ?_, rfl⟩
    rw [hout, List.append_nil, List.find?_eq_none]
    simpa using hdone
  | @back c g V e es evs V' hg _ _ ih =>
    refine ih (done ++ [e]) hV (by simp [hout]) fun e' he' ↦ ?_
    rcases List.mem_append.1 he' with he' | he'
    · exact hdone e' he'
    · exact List.mem_singleton.1 he' ▸ hg
  | cross hg hmem => exact absurd ((hV _).1 hmem) hg
  | @tree c g V e es evs₁ V₁ evs₂ V₂ hnot h₁ h₂ ih₁ _ =>
    obtain ⟨w, hw, hhead⟩ := ih₁ [] (fun v ↦ by simp [hV]) rfl (by simp)
    refine ⟨w, .step (e := e) ?_ hw, ?_⟩
    · have he : dst e ∉ g := fun hmem ↦ hnot ((hV _).2 hmem)
      have hpre : done.find? (fun e ↦ decide (dst e ∉ g)) = none := by
        rw [List.find?_eq_none]
        simpa using hdone
      rw [hout, List.find?_append, hpre, Option.none_or, List.find?_cons_of_pos (by simpa using he)]
    · rw [← hhead, left_enter, left_append, left_leave]
      cases left evs₁ <;> rfl

/-- **The node left first is the end of the greedy walk from the root.** -/
theorem Scan.head?_postorder_iff (h : Scan out dst r [r] {r} (out r) evs V) {w : α} :
    (postorder r evs).head? = some w ↔ Greedy out dst [r] r w := by
  obtain ⟨w', hw', hhead⟩ := h.exists_greedy [] (by simp) rfl (by simp)
  rw [postorder, hhead, Option.some_inj]
  exact ⟨fun heq ↦ heq ▸ hw', fun hw ↦ hw'.unique hw⟩

end Greedy

end OpenImpact.Foundation.Dfs
