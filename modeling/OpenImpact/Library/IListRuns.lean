import OpenImpact.Library.IListSim

/-!
# Traversals of lists

A traversal during which elements are only deleted visits those that are left (`Traversal.visits`), by
induction on its calls: the cursor stands between two parts of the sequence, from which calls only take away.
The main result about runs is `runCalls_spec`. It needs that the calls are as the library expects them
(`Proper`) and do not ask for the first or the previous element of a list that is empty but has been kept for
its cursors (`CallFits`); what a run does that breaks these conditions is not said.
-/

namespace OpenImpact.IList

open Foundation

variable {γ : Type} {l : ListRec γ} {q : Seq γ} {xs ys : List (Addr × γ)} {x y : Addr × γ} {a : Addr} {ptr : γ}
  {s s' : Lists γ} {t : Seqs γ} {v w : ℕ}

/-! ### Traversals -/

/-- The element that a cursor stands on. -/
def elementAt (s : Lists γ) (v level : ℕ) : Option (Addr × γ) := do
  let l ← s v
  let c ← l.current[level]?
  let a ← c
  let e ← l.elems.node a
  some (a, e.val)

/-- A call during a traversal of the list `v` with a cursor: no element is inserted, and the cursor is only
moved by the traversal. -/
def Leaves (v level : ℕ) : Call γ → Prop
  | .insertFirst u _ _ => u ≠ v
  | .insertLast u _ _ => u ≠ v
  | .insertPrev u _ _ _ => u ≠ v
  | .insertNext u _ _ _ => u ≠ v
  | .append u w => u ≠ v ∧ w ≠ v
  | .copyCurrentPtr u toLevel _ => u ≠ v ∨ toLevel ≠ level
  | .start u lev => u ≠ v ∨ lev ≠ level
  | .first u lev => u ≠ v ∨ lev ≠ level
  | .last u lev => u ≠ v ∨ lev ≠ level
  | .next u lev => u ≠ v ∨ lev ≠ level
  | .prev u lev => u ≠ v ∨ lev ≠ level
  | .deleteCurrent _ _ => True
  | .remove _ _ => True
  | .registerNewPtr _ => True

/-- The calls of a loop over the list `v` until `List_next_l` returns `NULL`, and the elements that it
visits. -/
inductive Traversal [DecidableEq γ] (v level : ℕ) :
    Lists γ → List (Call γ) → List (Addr × γ) → Lists γ → Prop
  | done {s s' : Lists γ} (h : exec s (.next v level) = .ok (s', .ptr none)) :
    Traversal v level s [.next v level] [] s'
  | visit {s s₁ s' : Lists γ} {x : Addr × γ} {cs : List (Call γ)} {vis : List (Addr × γ)}
    (h : exec s (.next v level) = .ok (s₁, .ptr (some x.2)))
    (hx : elementAt s₁ v level = some x) (hrest : Traversal v level s₁ cs vis s') :
    Traversal v level s (.next v level :: cs) (x :: vis) s'
  | other {s s₁ s' : Lists γ} {c : Call γ} {out : Out γ} {cs : List (Call γ)} {vis : List (Addr × γ)}
    (hc : Leaves v level c) (h : exec s c = .ok (s₁, out))
    (hrest : Traversal v level s₁ cs vis s') : Traversal v level s (c :: cs) vis s'

/-- A cursor stands behind the elements `xs`, in front of `ys`. -/
def StandsBetween (q : Seq γ) (level : ℕ) (xs ys : List (Addr × γ)) : Prop :=
  q.elems = xs ++ ys ∧ q.cursors[level]? = some (Heap.lastAddr none xs)

/-- Deleting an element leaves the cursor between what is left on its sides. -/
theorem StandsBetween.erase {level : ℕ} (h : StandsBetween q level xs ys)
    (hnodup : (q.elems.map Prod.fst).Nodup) (hx : x ∈ q.elems) :
    q.erase x.1 = none ∨ ∃ q' xs' ys', q.erase x.1 = some q' ∧ StandsBetween q' level xs' ys' ∧
      xs'.Sublist xs ∧ ys'.Sublist ys := by
  obtain ⟨hq, hcur⟩ := h
  rw [hq, List.mem_append] at hx
  rcases hx with hx | hx
  · obtain ⟨xs₁, xs₂, rfl⟩ := List.append_of_mem hx
    have hsplit : q.elems = xs₁ ++ x :: (xs₂ ++ ys) := by simpa using hq
    obtain ⟨hbefore, -, hfilter⟩ := q.split_eq hsplit hnodup
    simp only [Seq.erase, hfilter, hbefore]
    split_ifs with hgone
    · exact .inl rfl
    · refine .inr ⟨_, xs₁ ++ xs₂, ys, rfl, ⟨(List.append_assoc _ _ _).symm, ?_⟩, ?_,
        List.Sublist.refl ys⟩
      · rw [List.getElem?_map, hcur, Option.map_some]
        rcases xs₂.eq_nil_or_concat with rfl | ⟨zs, z, rfl⟩
        · simp
        · rw [List.concat_eq_append] at hsplit ⊢
          have hne : z.1 ≠ x.1 := by
            rw [hsplit, List.map_append, List.map_cons, List.nodup_append, List.nodup_cons] at hnodup
            refine fun heq ↦ hnodup.2.1.1 (heq ▸ ?_)
            simp
          simp [hne]
      · exact (List.Sublist.refl xs₁).append (List.sublist_cons_self x xs₂)
  · obtain ⟨ys₁, ys₂, rfl⟩ := List.append_of_mem hx
    have hsplit : q.elems = (xs ++ ys₁) ++ x :: ys₂ := by simpa using hq
    obtain ⟨hbefore, -, hfilter⟩ := q.split_eq hsplit hnodup
    simp only [Seq.erase, hfilter, hbefore]
    split_ifs with hgone
    · exact .inl rfl
    · refine .inr ⟨_, xs, ys₁ ++ ys₂, rfl, ⟨List.append_assoc _ _ _, ?_⟩, List.Sublist.refl xs, ?_⟩
      · rw [List.getElem?_map, hcur, Option.map_some, if_neg]
        intro heq
        rw [hq, List.map_append, List.nodup_append] at hnodup
        refine hnodup.2.2 x.1 (lastAddr_mem heq) x.1 ?_ rfl
        simp
      · exact (List.Sublist.refl ys₁).append (List.sublist_cons_self x ys₂)

/-- A cursor of another level is not between the same elements. -/
theorem StandsBetween.setCursor {level lev : ℕ} (h : StandsBetween q level xs ys) (hne : lev ≠ level)
    (c : Option Addr) : StandsBetween (q.setCursor lev c) level xs ys :=
  ⟨h.1, by rw [Seq.setCursor, List.getElem?_set_ne hne, h.2]⟩

/-- What is left of the two sides of the cursor after a call. -/
def Shrinks (q : Option (Seq γ)) (level : ℕ) (xs ys : List (Addr × γ)) : Prop :=
  q = none ∨ ∃ q' xs' ys', q = some q' ∧ StandsBetween q' level xs' ys' ∧ xs'.Sublist xs ∧
    ys'.Sublist ys

/-- With the same elements on both sides, nothing is gained. -/
theorem StandsBetween.shrinks {level : ℕ} (h : StandsBetween q level xs ys) :
    Shrinks (some q) level xs ys :=
  .inr ⟨q, xs, ys, rfl, h, List.Sublist.refl xs, List.Sublist.refl ys⟩

/-- Moving a cursor of one list does not change another list. -/
theorem moveSeq_of_ne {u level : ℕ} (hne : u ≠ v) (c : Seq γ → Option Addr) :
    (moveSeq t u level c).1 v = t v := by
  rw [moveSeq]
  split
  · rfl
  · exact Function.update_of_ne hne.symm _ _

/-- Nor the sides of another cursor. -/
theorem moveSeq_shrinks {u level lev : ℕ} (ht : t v = some q) (h : StandsBetween q level xs ys)
    (hc : u ≠ v ∨ lev ≠ level) (c : Seq γ → Option Addr) :
    Shrinks ((moveSeq t u lev c).1 v) level xs ys := by
  rcases eq_or_ne u v with rfl | hne
  · have hlev := hc.resolve_left (not_not.2 rfl)
    simp only [moveSeq, ht, Function.update_self]
    exact (h.setCursor hlev _).shrinks
  · rw [moveSeq_of_ne hne, ht]
    exact h.shrinks

/-- **A call during a traversal** takes elements away on both sides of the cursor, and no more. -/
theorem StandsBetween.execSeq [DecidableEq γ] {level : ℕ} {c : Call γ} (hsim : Sim s t)
    (ht : t v = some q) (h : StandsBetween q level xs ys) (hproper : Proper t c) (hc : Leaves v level c) :
    Shrinks ((execSeq t c).1 v) level xs ys := by
  have hholds : ∃ l, Holds l q := by
    obtain ⟨l, q', -, hq', hholds⟩ := (hsim.holds v).exists_of_ne_none (by simp [ht])
    obtain rfl := Option.some.inj (ht.symm.trans hq')
    exact ⟨l, hholds⟩
  obtain ⟨l, hholds⟩ := hholds
  have hsame : ∀ {u} (r : Option (Seq γ)), u ≠ v → Shrinks (Function.update t u r v) level xs ys := by
    intro u r hne
    rw [Function.update_of_ne hne.symm, ht]
    exact h.shrinks
  cases c with
  | insertFirst u ptr a => exact hsame _ hc
  | insertLast u ptr a => exact hsame _ hc
  | insertPrev u ptr a lev => exact hsame _ hc
  | insertNext u ptr a lev => exact hsame _ hc
  | append u w =>
    simp only [IList.execSeq]
    rw [Function.update_of_ne hc.1.symm]
    exact hsame _ hc.2
  | deleteCurrent u lev =>
    rcases eq_or_ne u v with rfl | hne
    · simp only [IList.execSeq, Function.update_self, ht, Option.bind_some]
      rcases hholds.cursor_cases (hproper q ht) with ⟨-, hget⟩ | ⟨xs₀, y, ys₀, hq, -, hget⟩
      · rw [hget]
        exact h.shrinks
      · rw [hget]
        exact h.erase hholds.rep.nodup (by simp [hq])
    · exact hsame _ hne
  | remove u ptr =>
    rcases eq_or_ne u v with rfl | hne
    · simp only [IList.execSeq, Function.update_self, ht, Option.bind_some]
      split
      · next x hx => exact h.erase hholds.rep.nodup (List.mem_of_find?_eq_some hx)
      · exact h.shrinks
    · exact hsame _ hne
  | registerNewPtr u =>
    rcases eq_or_ne u v with rfl | hne
    · simp only [IList.execSeq, Function.update_self, ht, Option.map_some]
      have hlt : level < q.cursors.length := (List.getElem?_eq_some_iff.1 h.2).1
      exact StandsBetween.shrinks ⟨h.1, by rw [List.getElem?_append_left hlt, h.2]⟩
    · exact hsame _ hne
  | copyCurrentPtr u toLevel fromLevel =>
    rcases eq_or_ne u v with rfl | hne
    · simp only [IList.execSeq, Function.update_self, ht, Option.map_some]
      exact (h.setCursor (hc.resolve_left (not_not.2 rfl)) _).shrinks
    · exact hsame _ hne
  | start u lev =>
    rcases eq_or_ne u v with rfl | hne
    · simp only [IList.execSeq, Function.update_self, ht, Option.map_some]
      exact (h.setCursor (hc.resolve_left (not_not.2 rfl)) _).shrinks
    · exact hsame _ hne
  | first u lev => exact moveSeq_shrinks ht h hc _
  | last u lev => exact moveSeq_shrinks ht h hc _
  | next u lev => exact moveSeq_shrinks ht h hc _
  | prev u lev => exact moveSeq_shrinks ht h hc _

/-- A list that is `NULL` stays so when nothing is inserted. -/
theorem execSeq_eq_none [DecidableEq γ] {level : ℕ} {c : Call γ} (ht : t v = none)
    (hc : Leaves v level c ∨ c = .next v level) : (execSeq t c).1 v = none := by
  have hsame : ∀ {u} (r : Option (Seq γ)), (u = v → r = none) → Function.update t u r v = none := by
    intro u r hr
    rcases eq_or_ne u v with rfl | hne
    · rw [Function.update_self, hr rfl]
    · rw [Function.update_of_ne hne.symm, ht]
  have hmove : ∀ u lev (f : Seq γ → Option Addr), (moveSeq t u lev f).1 v = none := by
    intro u lev f
    rw [moveSeq]
    split
    · exact ht
    · next q hq => exact hsame _ fun hu ↦ by rw [hu, ht] at hq; cases hq
  rcases hc with hc | rfl
  · cases c with
    | insertFirst u ptr a => exact hsame _ fun hu ↦ absurd hu hc
    | insertLast u ptr a => exact hsame _ fun hu ↦ absurd hu hc
    | insertPrev u ptr a lev => exact hsame _ fun hu ↦ absurd hu hc
    | insertNext u ptr a lev => exact hsame _ fun hu ↦ absurd hu hc
    | append u w =>
      simp only [IList.execSeq]
      rw [Function.update_of_ne hc.1.symm, Function.update_of_ne hc.2.symm, ht]
    | deleteCurrent u lev => exact hsame _ fun hu ↦ by rw [hu, ht]; rfl
    | remove u ptr => exact hsame _ fun hu ↦ by rw [hu, ht]; rfl
    | registerNewPtr u => exact hsame _ fun hu ↦ by rw [hu, ht]; rfl
    | copyCurrentPtr u toLevel fromLevel => exact hsame _ fun hu ↦ by rw [hu, ht]; rfl
    | start u lev => exact hsame _ fun hu ↦ by rw [hu, ht]; rfl
    | first u lev => exact hmove u lev _
    | last u lev => exact hmove u lev _
    | next u lev => exact hmove u lev _
    | prev u lev => exact hmove u lev _
  · exact hmove v level _

/-- The elements of the list in a variable. -/
def elemsOf (t : Seqs γ) (v : ℕ) : List (Addr × γ) := (t v).elim [] Seq.elems

/-- A traversal of no list visits nothing. -/
theorem Traversal.of_none [DecidableEq γ] {level : ℕ} {cs : List (Call γ)} {vis : List (Addr × γ)}
    (htrav : Traversal v level s cs vis s') (hsim : Sim s t) (ht : t v = none)
    (hproper : AllAlong Proper t cs) (hfits : AllAlong CallFits t cs) :
    vis = [] ∧ (runSeqs t cs).1 v = none := by
  induction htrav generalizing t with
  | done h => exact ⟨rfl, execSeq_eq_none ht (.inr rfl)⟩
  | @visit s s₁ s' x cs vis h hx hrest ih =>
    obtain ⟨s₂, hexec, -⟩ := hsim.exec hproper.1 hfits.1
    have hout := (Prod.mk.inj (Except.ok.inj (h.symm.trans hexec))).2
    simp [execSeq, moveSeq, ht] at hout
  | @other s s₁ s' c out cs vis hc h hrest ih =>
    obtain ⟨s₂, hexec, hsim₂⟩ := hsim.exec hproper.1 hfits.1
    obtain rfl := (Prod.mk.inj (Except.ok.inj (h.symm.trans hexec))).1
    exact ih hsim₂ (execSeq_eq_none ht (.inl hc)) hproper.2 hfits.2

/-- The element that a cursor stands on is the one of the sequence. -/
theorem Sim.elementAt (h : Sim s t) {level : ℕ} (ht : t v = some q) (hq : q.elems = xs ++ y :: ys)
    (hcur : q.cursors[level]? = some (some y.1)) : elementAt s v level = some y := by
  obtain ⟨l, q', hs, hq', hholds⟩ := (h.holds v).exists_of_ne_none (by simp [ht])
  obtain rfl := Option.some.inj (ht.symm.trans hq')
  have hnode : l.elems.node y.1 = some ⟨Heap.lastAddr none xs, Heap.headAddr none ys, y.2⟩ := by
    have hchain := hholds.rep.chain
    rw [hq] at hchain
    exact hchain.node
  simp [IList.elementAt, hs, hholds.cursors, hcur, hnode]

/-- What is behind the cursor is the element at the head of the rest. -/
theorem StandsBetween.nextOf {level : ℕ} (h : StandsBetween q level xs ys)
    (hnodup : (q.elems.map Prod.fst).Nodup) : q.nextOf level = Heap.headAddr none ys := by
  obtain ⟨hq, hcur⟩ := h
  rcases xs.eq_nil_or_concat with rfl | ⟨zs, z, rfl⟩
  · rw [Heap.lastAddr_nil] at hcur
    simp only [Seq.nextOf, hcur, hq, List.nil_append]
  · rw [List.concat_eq_append] at hq hcur
    have hz : Heap.lastAddr none (zs ++ [z]) = some z.1 := by simp
    rw [hz] at hcur
    have hsplit : q.elems = zs ++ z :: ys := by simpa using hq
    simp only [Seq.nextOf, hcur, (q.split_eq hsplit hnodup).2.1, List.drop_one, List.tail_cons]

/-- What `List_next_l` does at a cursor between the elements `xs` and `ys`. -/
theorem StandsBetween.execSeq_next [DecidableEq γ] {level : ℕ} (h : StandsBetween q level xs ys)
    (hnodup : (q.elems.map Prod.fst).Nodup) (ht : t v = some q) :
    IList.execSeq t (.next v level) =
      (Function.update t v (some (q.setCursor level (Heap.headAddr none ys))),
        .ptr (ys.head?.map Prod.snd)) := by
  have hptr : q.ptrAt (Heap.headAddr none ys) = ys.head?.map Prod.snd := by
    cases ys with
    | nil => exact q.ptrAt_none
    | cons y ys => exact q.ptrAt_eq h.1 hnodup
  simp only [IList.execSeq, moveSeq, ht, h.nextOf hnodup, hptr]

/-- **What a traversal visits** of the elements behind its cursor, and what is left of all. -/
theorem Traversal.visits [DecidableEq γ] {level : ℕ} {cs : List (Call γ)} {vis : List (Addr × γ)}
    (htrav : Traversal v level s cs vis s') (hsim : Sim s t) (ht : t v = some q)
    (hbetween : StandsBetween q level xs ys) (hproper : AllAlong Proper t cs)
    (hfits : AllAlong CallFits t cs) :
    vis.Sublist ys ∧ ∃ xs', xs'.Sublist xs ∧ elemsOf (runSeqs t cs).1 v =
      xs' ++ vis.filter fun x ↦ x.1 ∈ (elemsOf (runSeqs t cs).1 v).map Prod.fst := by
  induction htrav generalizing t q xs ys with
  | @done s s' h =>
    obtain ⟨s₂, hexec, -⟩ := hsim.exec hproper.1 hfits.1
    have hnext := hbetween.execSeq_next (hsim.nodup ht) ht
    have hout := (Prod.mk.inj (Except.ok.inj (h.symm.trans hexec))).2
    rw [hnext] at hout
    -- the traversal is at its end
    obtain rfl : ys = [] := by
      cases ys with
      | nil => rfl
      | cons y ys => simp at hout
    refine ⟨List.Sublist.refl [], xs, List.Sublist.refl xs, ?_⟩
    rw [runSeqs, runSeqs, hnext, elemsOf]
    simpa [Seq.setCursor] using hbetween.1
  | @visit s s₁ s' x cs vis h hx hrest ih =>
    obtain ⟨s₂, hexec, hsim₂⟩ := hsim.exec hproper.1 hfits.1
    have hnodup := hsim.nodup ht
    have hnext := hbetween.execSeq_next hnodup ht
    obtain ⟨rfl, hout⟩ := Prod.mk.inj (Except.ok.inj (h.symm.trans hexec))
    rw [hnext] at hout hsim₂
    obtain ⟨y, ys, rfl⟩ : ∃ y ys', ys = y :: ys' := by
      cases ys with
      | nil => simp at hout
      | cons y ys => exact ⟨y, ys, rfl⟩
    obtain ⟨hq, hcur⟩ := hbetween
    have hlt : level < q.cursors.length := (List.getElem?_eq_some_iff.1 hcur).1
    have hbetween' : StandsBetween (q.setCursor level (some y.1)) level (xs ++ [y]) ys := by
      refine ⟨by simpa [Seq.setCursor] using hq, ?_⟩
      rw [Seq.setCursor, List.getElem?_set_self hlt]
      simp
    have hy := hsim₂.elementAt (Function.update_self ..) (q := q.setCursor level (some y.1)) hq
      (List.getElem?_set_self hlt)
    obtain rfl : y = x := Option.some.inj (hy.symm.trans hx)
    obtain ⟨hvis, xs', hxs', hleft⟩ := ih (hnext ▸ hsim₂)
      (by rw [hnext]; exact Function.update_self ..) hbetween' hproper.2 hfits.2
    refine ⟨hvis.cons_cons y, ?_⟩
    rw [runSeqs]
    set left := elemsOf (runSeqs (IList.execSeq t (.next v level)).1 cs).1 v with hleft_def
    obtain ⟨zs, ws, rfl, hzs, hws⟩ := List.sublist_append_iff.1 hxs'
    refine ⟨zs, hzs, ?_⟩
    rcases List.sublist_singleton.1 hws with rfl | rfl
    · -- the element has been deleted since
      have hgone : y.1 ∉ left.map Prod.fst := by
        intro hmem
        rw [hq, List.map_append, List.map_cons, List.nodup_middle, List.nodup_cons] at hnodup
        rw [hleft, List.append_nil, List.map_append, List.mem_append] at hmem
        refine hnodup.1 (List.mem_append.2 (hmem.imp (fun hz ↦ ?_) fun hv ↦ ?_))
        · exact (hzs.map Prod.fst).subset hz
        · exact (((List.filter_sublist).trans hvis).map Prod.fst).subset hv
      rw [List.filter_cons_of_neg (by simpa using hgone)]
      simpa using hleft
    · have hmem : y.1 ∈ left.map Prod.fst := by
        rw [hleft]
        simp
      rw [List.filter_cons_of_pos (by simpa using hmem)]
      simpa using hleft
  | @other s s₁ s' c out cs vis hc h hrest ih =>
    obtain ⟨s₂, hexec, hsim₂⟩ := hsim.exec hproper.1 hfits.1
    obtain rfl := (Prod.mk.inj (Except.ok.inj (h.symm.trans hexec))).1
    rcases hbetween.execSeq hsim ht hproper.1 hc with hnone | ⟨q', xs', ys', ht', hbetween', hxs, hys⟩
    · obtain ⟨rfl, hgone⟩ := hrest.of_none hsim₂ hnone hproper.2 hfits.2
      refine ⟨List.nil_sublist ys, [], List.nil_sublist xs, ?_⟩
      rw [runSeqs, elemsOf, hgone]
      rfl
    · obtain ⟨hvis, xs₀, hxs₀, hleft⟩ := ih hsim₂ ht' hbetween' hproper.2 hfits.2
      exact ⟨hvis.trans hys, xs₀, hxs₀.trans hxs, hleft⟩

/-! ### Lists of a program -/

/-- A condition on all calls, in two parts. -/
theorem allAlong_append [DecidableEq γ] {P : Seqs γ → Call γ → Prop} {cs cs' : List (Call γ)} :
    AllAlong P t (cs ++ cs') ↔ AllAlong P t cs ∧ AllAlong P (runSeqs t cs).1 cs' := by
  induction cs generalizing t with
  | nil => exact (and_iff_right trivial).symm
  | cons c cs ih => simp only [List.cons_append, AllAlong, ih, and_assoc, runSeqs]

/-- Calls, in two parts. -/
theorem runSeqs_append [DecidableEq γ] (t : Seqs γ) (cs cs' : List (Call γ)) :
    (runSeqs t (cs ++ cs')).1 = (runSeqs (runSeqs t cs).1 cs').1 := by
  induction cs generalizing t with
  | nil => rfl
  | cons c cs ih => simp only [List.cons_append, runSeqs, ih]

/-- No variable holds a list. -/
def noLists : Lists γ := fun _ ↦ none

def noSeqs : Seqs γ := fun _ ↦ none

/-- At the start there is no list on either side. -/
theorem sim_noLists : Sim (noLists : Lists γ) noSeqs :=
  ⟨fun _ ↦ .null, fun _ _ _ _ _ h ↦ nomatch h⟩

/-- **Runs of calls**: if none asks for the first or the previous element of a list without elements, they
return, the lists are linked as they should be and hold what the calls describe, and every traversal that is
not disturbed by insertions visits each element that is left once, in order. -/
theorem runCalls_spec [DecidableEq γ] (cs : List (Call γ)) (hproper : AllAlong Proper noSeqs cs)
    (hfits : AllAlong CallFits noSeqs cs) :
    (∃ s, runCalls noLists cs = .ok (s, (runSeqs noSeqs cs).2) ∧ Sim s (runSeqs noSeqs cs).1) ∧
      ∀ pre v level trav s₀ s₁ s₂ outs vis, cs = pre ++ .start v level :: trav →
        runCalls noLists pre = .ok (s₀, outs) → exec s₀ (.start v level) = .ok (s₁, .done) →
        Traversal v level s₁ trav vis s₂ →
        (vis.map Prod.fst).Nodup ∧ elemsOf (runSeqs noSeqs cs).1 v =
          vis.filter fun x ↦ x.1 ∈ (elemsOf (runSeqs noSeqs cs).1 v).map Prod.fst := by
  refine ⟨sim_noLists.runCalls hproper hfits, ?_⟩
  rintro pre v level trav s₀ s₁ s₂ outs vis rfl hpre hstart htrav
  obtain ⟨hproper₀, hproper⟩ := allAlong_append.1 hproper
  obtain ⟨hfits₀, hfits⟩ := allAlong_append.1 hfits
  obtain ⟨s, hrun, hsim⟩ := sim_noLists.runCalls hproper₀ hfits₀
  obtain rfl := (Prod.mk.inj (Except.ok.inj (hpre.symm.trans hrun))).1
  obtain ⟨s', hexec, hsim'⟩ := hsim.exec hproper.1 hfits.1
  obtain rfl := (Prod.mk.inj (Except.ok.inj (hstart.symm.trans hexec))).1
  rw [runSeqs_append, runSeqs]
  cases ht : (runSeqs noSeqs pre).1 v with
  | none =>
    have hnone : (execSeq (runSeqs noSeqs pre).1 (.start v level)).1 v = none := by
      simp [execSeq, ht]
    obtain ⟨rfl, hgone⟩ := htrav.of_none hsim' hnone hproper.2 hfits.2
    simp [elemsOf, hgone]
  | some q =>
    have hsome : (execSeq (runSeqs noSeqs pre).1 (.start v level)).1 v =
        some (q.setCursor level none) := by
      simp [execSeq, ht]
    have hbetween : StandsBetween (q.setCursor level none) level [] q.elems :=
      ⟨rfl, List.getElem?_set_self (hproper.1 q ht)⟩
    obtain ⟨hvis, xs, hxs, hleft⟩ := htrav.visits hsim' hsome hbetween hproper.2 hfits.2
    obtain rfl := List.sublist_nil.1 hxs
    exact ⟨(hsim.nodup ht).sublist (hvis.map Prod.fst), hleft⟩

/-- Nothing is used at the start. -/
theorem unused_noSeqs (a : Addr) : Unused (noSeqs : Seqs γ) a := fun _ _ h ↦ nomatch h

/-- A new sequence that leaves an address alone keeps it unused. -/
theorem unused_update {a : Addr} (ha : Unused t a) (hq : a ∉ q.elems.map Prod.fst) :
    Unused (Function.update t v (some q)) a := by
  intro w r hr
  rcases eq_or_ne w v with rfl | hne
  · rw [Function.update_self] at hr
    exact Option.some.inj hr ▸ hq
  · rw [Function.update_of_ne hne] at hr
    exact ha w r hr

/-- The list 7, 9, 8, 5, made with a cursor and of two lists, after which 8 is removed. -/
def joinCalls : List (Call ℕ) :=
  [.insertLast 0 7 0, .insertLast 0 8 1, .registerNewPtr 0, .next 0 0, .insertNext 0 9 2 0,
    .insertFirst 1 5 3, .append 0 1, .remove 0 8]

/-- The list is gone through with cursor 1, and 7 is deleted through cursor 0 when it has been visited. -/
def visitCalls : List (Call ℕ) :=
  [.next 0 1, .deleteCurrent 0 0, .next 0 1, .next 0 1, .next 0 1]

/-- The calls of the example are made as the header allows. -/
theorem proper_joinCalls : AllAlong Proper noSeqs (joinCalls ++ .start 0 1 :: visitCalls) := by
  refine ⟨unused_noSeqs 0, unused_update (unused_noSeqs 1) (by decide), ?_, ?_,
    ⟨unused_update (unused_update (unused_update (unused_update (unused_noSeqs 2) (by decide)) (by decide))
      (by decide)) (by decide), ?_⟩,
    unused_update (unused_update (unused_update (unused_update (unused_update (unused_noSeqs 3) (by decide))
      (by decide)) (by decide)) (by decide)) (by decide), ?_⟩
  all_goals simp [visitCalls, AllAlong, Proper, ValidLevel, execSeq, moveSeq, noSeqs, Seq.orNew,
    Seq.insertLast, Seq.insertFirst, Seq.insertNext, Seq.append, Seq.setCursor, Seq.nextOf, Seq.erase,
    Seq.before, Seq.rest]

/-- They fit the condition. -/
theorem callFits_joinCalls : AllAlong CallFits noSeqs (joinCalls ++ .start 0 1 :: visitCalls) := by
  simp [joinCalls, visitCalls, AllAlong, CallFits, execSeq, moveSeq, noSeqs, Seq.orNew, Seq.insertLast,
    Seq.insertFirst, Seq.insertNext, Seq.setCursor, Seq.nextOf, Seq.before, Seq.rest]

/-- The four elements of the two lists are put together, and 7, 9 and 5 are visited, of which 9 and 5 are
left. -/
theorem runCalls_spec_two :
    (∃ s, runCalls noLists (joinCalls ++ .start 0 1 :: visitCalls) =
        .ok (s, (runSeqs noSeqs (joinCalls ++ .start 0 1 :: visitCalls)).2) ∧
      Sim s (runSeqs noSeqs (joinCalls ++ .start 0 1 :: visitCalls)).1) ∧
    ∃ vis, ((vis.map Prod.fst).Nodup ∧ elemsOf (runSeqs noSeqs (joinCalls ++ .start 0 1 :: visitCalls)).1 0 =
      vis.filter fun x ↦
        x.1 ∈ (elemsOf (runSeqs noSeqs (joinCalls ++ .start 0 1 :: visitCalls)).1 0).map Prod.fst) ∧
      vis = [(0, 7), (2, 9), (3, 5)] := by
  have hspec := runCalls_spec _ proper_joinCalls callFits_joinCalls
  obtain ⟨hproper, hproper'⟩ := allAlong_append.1 proper_joinCalls
  obtain ⟨hfits, hfits'⟩ := allAlong_append.1 callFits_joinCalls
  obtain ⟨s₀, hpre, hsim₀⟩ := sim_noLists.runCalls hproper hfits
  obtain ⟨s₁, hstart, hsim₁⟩ := hsim₀.exec hproper'.1 hfits'.1
  obtain ⟨s₂, hnext₁, hsim₂⟩ := hsim₁.exec hproper'.2.1 hfits'.2.1
  obtain ⟨s₃, hdelete, hsim₃⟩ := hsim₂.exec hproper'.2.2.1 hfits'.2.2.1
  obtain ⟨s₄, hnext₂, hsim₄⟩ := hsim₃.exec hproper'.2.2.2.1 hfits'.2.2.2.1
  obtain ⟨s₅, hnext₃, hsim₅⟩ := hsim₄.exec hproper'.2.2.2.2.1 hfits'.2.2.2.2.1
  obtain ⟨s₆, hnext₄, -⟩ := hsim₅.exec hproper'.2.2.2.2.2.1 hfits'.2.2.2.2.2.1
  refine ⟨hspec.1, _, hspec.2 _ 0 1 visitCalls _ _ _ _ _ rfl hpre hstart
    (.visit (x := (0, 7)) hnext₁ ?_ (.other trivial hdelete (.visit (x := (2, 9)) hnext₂ ?_
      (.visit (x := (3, 5)) hnext₃ ?_ (.done hnext₄))))), rfl⟩
  · exact hsim₂.elementAt (q := ⟨[(0, 7), (2, 9), (3, 5)], [some 0, some 0]⟩) rfl (rfl : _ = [] ++ (0, 7) :: _) rfl
  · exact hsim₄.elementAt (q := ⟨[(2, 9), (3, 5)], [none, some 2]⟩) rfl (rfl : _ = [] ++ (2, 9) :: _) rfl
  · exact hsim₅.elementAt (q := ⟨[(2, 9), (3, 5)], [none, some 3]⟩) rfl (rfl : _ = [(2, 9)] ++ (3, 5) :: _) rfl

/-- A call fails after calls that return. -/
theorem runCalls_append_error [DecidableEq γ] {cs cs' : List (Call γ)} {c : Call γ} {outs : List (Out γ)}
    {e : Halt} (hrun : runCalls s cs = .ok (s', outs)) (hexec : exec s' c = .error e) :
    runCalls s (cs ++ c :: cs') = .error e := by
  induction cs generalizing s outs with
  | nil =>
    obtain ⟨rfl, -⟩ := Prod.mk.inj (Except.ok.inj hrun)
    rw [List.nil_append, runCalls, hexec, Run.error_bind]
  | cons d cs ih =>
    obtain ⟨⟨s₁, out⟩, hd, hrun⟩ := Run.bind_eq_ok.1 hrun
    obtain ⟨⟨s₂, outs₂⟩, hrest, hrun⟩ := Run.bind_eq_ok.1 hrun
    obtain ⟨rfl, -⟩ := Prod.mk.inj (Except.ok.inj hrun)
    rw [List.cons_append, runCalls, hd, Run.ok_bind]
    dsimp only
    rw [ih hrest, Run.error_bind]

/-- `List_first_l` of a list without elements. -/
theorem Sim.exec_first_error [DecidableEq γ] (h : Sim s t) {level : ℕ} (ht : t v = some q)
    (hlt : level < q.cursors.length) (hq : q.elems = []) :
    IList.exec s (.first v level) = .error .fault := by
  obtain ⟨l, q', hs, hq', hholds⟩ := (h.holds v).exists_of_ne_none (by simp [ht])
  obtain rfl := Option.some.inj (ht.symm.trans hq')
  rw [IList.exec, IList.assignPtr, hs, IList.first, hholds.getCurrent_eq hlt, Run.ok_bind, hholds.rep.first, hq]
  rfl

/-- A list is left empty, with two cursors. -/
def emptyCalls : List (Call ℕ) :=
  [.insertFirst 0 7 0, .registerNewPtr 0, .next 0 0, .deleteCurrent 0 0]

/-- So are those that leave the list empty. -/
theorem proper_emptyCalls : AllAlong Proper noSeqs (emptyCalls ++ [.last 0 0]) := by
  refine ⟨unused_noSeqs 0, ?_⟩
  simp [AllAlong, Proper, ValidLevel, execSeq, moveSeq, noSeqs, Seq.orNew, Seq.insertFirst,
    Seq.setCursor, Seq.nextOf, Seq.erase, Seq.before]

/-- They fit the condition up to `List_last_l`. -/
theorem callFits_emptyCalls : AllAlong CallFits noSeqs (emptyCalls ++ [.last 0 0]) := by
  simp [emptyCalls, AllAlong, CallFits, execSeq, noSeqs, Seq.orNew, Seq.insertFirst]

/-- `List_first_l` accesses an element that is not there, where `List_last_l` looks for `NULL`. -/
theorem not_runCalls_empty : AllAlong Proper noSeqs (emptyCalls ++ [.first 0 0]) ∧
    runCalls noLists (emptyCalls ++ [.first 0 0]) = .error .fault ∧
      ∃ s, runCalls noLists (emptyCalls ++ [.last 0 0]) =
        .ok (s, [.done, .level 1, .ptr (some 7), .done, .ptr none]) := by
  obtain ⟨hproper, hlast⟩ := allAlong_append.1 proper_emptyCalls
  refine ⟨allAlong_append.2 ⟨hproper, hlast⟩, ?_, ?_⟩
  · obtain ⟨s, hrun, hsim⟩ := sim_noLists.runCalls hproper (allAlong_append.1 callFits_emptyCalls).1
    exact runCalls_append_error hrun (hsim.exec_first_error (t := (runSeqs noSeqs emptyCalls).1) (v := 0)
      (q := ⟨[], [none, none]⟩) rfl Nat.zero_lt_two rfl)
  · obtain ⟨s, hrun, -⟩ := sim_noLists.runCalls proper_emptyCalls callFits_emptyCalls
    exact ⟨s, hrun⟩

end OpenImpact.IList
