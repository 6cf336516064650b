import OpenImpact.Lcode.LoopBodies
import OpenImpact.Foundation.Laminar

/-!
# The nest of loops

The loops of a function are nested or disjoint, so the nesting levels, which count the loops around
a loop, lead from a loop to its parent and from a block to its deepest loop.

`loopDetection_spec` has everything that detection leaves: the headers, the bodies of natural loops
merged by header, back-edges, exits, levels, parents and the deepest loop of each block, and that no
punt is reached. It rests on `Foundation.NaturalLoop` and `Foundation.Laminar`, over any graph and
any family of sets, and takes the dominators to be right (`LoopCfg`). The flow graph may be
irreducible: an arc to a node that does not dominate its source makes no loop, here as in the
source.
-/

namespace OpenImpact.Lcode

open Foundation

variable {fn : LoopFunc} {first : ℕ} {st st' : LoopState}

/-- The blocks of a loop. -/
def LoopState.body (st : LoopState) (id : ℕ) : Set ℕ :=
  {x | x ∈ (st.loop id).loopCb}

/-- **The loops are nested or disjoint.** -/
theorem LoopsOk.laminar (hcfg : LoopCfg fn first) (h : LoopsOk fn first st) :
    Laminar st.loopList st.body := by
  have hreach : ∀ v w, fn.Arc v w → Relation.ReflTransGen fn.Arc first v :=
    fun v w hvw ↦ hcfg.reachable v (hcfg.source v w hvw)
  have hbody : ∀ id ∈ st.loopList, st.body id = LoopBody fn.Arc first (st.loop id).header :=
    fun id hid ↦ Set.ext fun x ↦ h.mem_loopCb hid
  have hback : ∀ id ∈ st.loopList, ∃ u, BackEdge fn.Arc first u (st.loop id).header := by
    intro id hid
    obtain ⟨u, hu⟩ := List.exists_mem_of_ne_nil _ (h.loopOk id hid).backEdgeCb_ne
    exact ⟨u, (h.loopOk id hid).back u hu⟩
  refine ⟨fun id hid ↦ ⟨_, (h.loopOk id hid).header_mem⟩, fun i hi j hj heq ↦ ?_,
    fun i hi j hj x hxi hxj ↦ ?_⟩
  · rw [hbody i hi, hbody j hj] at heq
    exact h.id_eq hi hj (header_eq_of_loopBody_eq hreach (hback i hi) (hback j hj) heq)
  · rw [hbody i hi] at hxi ⊢
    rw [hbody j hj] at hxj ⊢
    exact loopBody_subset_or_subset hreach hxi hxj

/-! ### Nesting levels -/

/-- The state with other nesting levels and nested loops. -/
def LoopState.setLevels (st : LoopState) (f : ℕ → ℤ × List ℕ) : LoopState :=
  { st with
    loop := fun id ↦ { st.loop id with nestingLevel := (f id).1, nestedLoops := (f id).2 } }

/-- Whether `loop1` is counted in the nesting level of `loop2`. -/
def counts (st : LoopState) (loop2 loop1 : ℕ) : Bool :=
  decide (loop2 ≠ loop1) &&
    (st.loop loop2).loopCb.all fun cb ↦ decide (cb ∈ (st.loop loop1).loopCb)

theorem isNested_eq (st : LoopState) {loop1 loop2 : ℕ} (hne : loop2 ≠ loop1)
    (hcb : (st.loop loop2).loopCb ≠ []) :
    isNested st loop1 loop2 =
      .ok ((st.loop loop2).loopCb.all fun cb ↦ decide (cb ∈ (st.loop loop1).loopCb)) := by
  rw [isNested, if_neg hne.symm, if_neg hcb]

/-- One comparison of two loops. -/
theorem nestingStep_setLevels (f : ℕ → ℤ × List ℕ) (loop1 : ℕ) {loop2 : ℕ}
    (hcb : (st.loop loop2).loopCb ≠ []) (hpre : (st.loop loop2).preheader = none) :
    ∃ f', nestingStep loop2 (st.setLevels f) loop1 = .ok (st.setLevels f') ∧
      (f' loop2).1 = (f loop2).1 + (if counts st loop2 loop1 then 1 else 0) ∧
      ∀ id ≠ loop2, (f' id).1 = (f id).1 := by
  by_cases hne : loop2 = loop1
  · exact ⟨f, if_pos hne, by simp [counts, hne], fun _ _ ↦ rfl⟩
  · have hnested := isNested_eq (st.setLevels f) hne hcb
    rw [nestingStep, if_neg hne, hnested, Run.ok_bind]
    rcases hall : (st.loop loop2).loopCb.all fun cb ↦ decide (cb ∈ (st.loop loop1).loopCb) with _ | _
    · refine ⟨f, if_neg (by rw [Bool.not_eq_true]; exact hall), ?_, fun _ _ ↦ rfl⟩
      rw [counts, hall]
      simp
    · refine ⟨Function.update (Function.update f loop2 ((f loop2).1 + 1, (f loop2).2)) loop1
        ((f loop1).1, setAdd (f loop1).2 loop2), ?_, ?_, fun id hid ↦ ?_⟩
      · refine (if_pos hall).trans ?_
        have hpre' : ((((st.setLevels f).setLoop loop2 { (st.setLevels f).loop loop2 with
            nestingLevel := ((st.setLevels f).loop loop2).nestingLevel + 1 }).setLoop loop1
            { ((st.setLevels f).setLoop loop2 { (st.setLevels f).loop loop2 with
              nestingLevel := ((st.setLevels f).loop loop2).nestingLevel + 1 }).loop loop1 with
              nestedLoops := setAdd (((st.setLevels f).setLoop loop2
                { (st.setLevels f).loop loop2 with
                  nestingLevel := ((st.setLevels f).loop loop2).nestingLevel + 1 }).loop
                  loop1).nestedLoops loop2 }).loop loop2).preheader = none := by
          simp [LoopState.setLoop, LoopState.setLevels, hne, hpre]
        simp only [hpre']
        refine congrArg Except.ok (congrArg (fun g ↦ { st with loop := g }) (funext fun id ↦ ?_))
        rcases eq_or_ne id loop1 with rfl | h1
        · simp [LoopState.setLoop, LoopState.setLevels, Ne.symm hne]
        · rcases eq_or_ne id loop2 with rfl | h2
          · simp [LoopState.setLoop, LoopState.setLevels, h1]
          · simp [LoopState.setLoop, LoopState.setLevels, h1, h2]
      · rw [Function.update_of_ne hne, Function.update_self, counts, hall]
        simp [hne]
      · rcases eq_or_ne id loop1 with rfl | h1
        · rw [Function.update_self]
        · rw [Function.update_of_ne h1, Function.update_of_ne hid]

/-- The nesting levels count the loops around a loop. -/
theorem findNestingLevel_spec (hnodup : st.loopList.Nodup)
    (hcb : ∀ id ∈ st.loopList, (st.loop id).loopCb ≠ [])
    (hpre : ∀ id ∈ st.loopList, (st.loop id).preheader = none) :
    ∃ f, findNestingLevel st = .ok (st.setLevels f) ∧
      ∀ id ∈ st.loopList, (f id).1 = st.loopList.countP (counts st id) + 1 := by
  -- the first loop of the source: every level starts at 1
  have hstart : ∀ ids : List ℕ, ∃ f, ids.foldl (fun st id ↦ st.setLoop id
        { st.loop id with nestingLevel := 1 }) st = st.setLevels f ∧
      ∀ id ∈ ids, (f id).1 = 1 := by
    intro ids
    induction ids using List.reverseRecOn with
    | nil => exact ⟨fun id ↦ ((st.loop id).nestingLevel, (st.loop id).nestedLoops), rfl,
        fun _ h ↦ absurd h List.not_mem_nil⟩
    | append_singleton ids id ih =>
      obtain ⟨f, heq, hone⟩ := ih
      refine ⟨Function.update f id (1, (f id).2), ?_, fun id' hid' ↦ ?_⟩
      · rw [List.foldl_append, heq]
        refine congrArg (fun g ↦ { st with loop := g }) (funext fun id' ↦ ?_)
        rcases eq_or_ne id' id with rfl | hne
        · simp [LoopState.setLevels]
        · simp [LoopState.setLevels, hne]
      · rcases eq_or_ne id' id with rfl | hne
        · rw [Function.update_self]
        · rw [Function.update_of_ne hne]
          exact hone id' ((List.mem_append.1 hid').resolve_right
            fun h ↦ hne (List.mem_singleton.1 h))
  -- the inner loop for `loop2` adds the loops that count for it, and leaves the other levels
  have hinner : ∀ (loop2 : ℕ) (f : ℕ → ℤ × List ℕ), loop2 ∈ st.loopList →
      ∃ b, st.loopList.foldlM (nestingStep loop2) (st.setLevels f) = .ok b ∧
        ∃ f', b = st.setLevels f' ∧
          (f' loop2).1 = (f loop2).1 + st.loopList.countP (counts st loop2) ∧
          ∀ id ≠ loop2, (f' id).1 = (f id).1 := by
    intro loop2 f hmem
    refine Run.foldlM_prefix (P := fun done b ↦ ∃ f', b = st.setLevels f' ∧
      (f' loop2).1 = (f loop2).1 + done.countP (counts st loop2) ∧
      ∀ id ≠ loop2, (f' id).1 = (f id).1) ?_ ⟨f, rfl, by simp, fun _ _ ↦ rfl⟩
    rintro done loop1 rest - a ⟨f₁, rfl, hlevel, hsame⟩
    obtain ⟨f₂, hrun, hlevel₂, hsame₂⟩ :=
      nestingStep_setLevels f₁ loop1 (hcb loop2 hmem) (hpre loop2 hmem)
    refine ⟨_, hrun, f₂, rfl, ?_, fun id hid ↦ (hsame₂ id hid).trans (hsame id hid)⟩
    rw [hlevel₂, hlevel, List.countP_append, List.countP_singleton]
    split_ifs <;> omega
  obtain ⟨f₀, hf₀, hone⟩ := hstart st.loopList
  -- the outer loop: the loops in `done` have their levels, and the others still 1
  obtain ⟨b, hrun, f, rfl, hlevels⟩ := Run.foldlM_prefix
    (P := fun done b ↦ ∃ f, b = st.setLevels f ∧ ∀ id ∈ st.loopList,
      (f id).1 = if id ∈ done then (st.loopList.countP (counts st id) : ℤ) + 1 else 1)
    (f := fun a loop2 ↦ a.loopList.foldlM (nestingStep loop2) a) (l := st.loopList)
    (fun done loop2 rest hlist a ha ↦ by
      obtain ⟨f, rfl, hf⟩ := ha
      have hmem : loop2 ∈ st.loopList := by rw [hlist]; simp
      have hout : loop2 ∉ done := fun h ↦ by
        rw [hlist] at hnodup
        exact (List.disjoint_of_nodup_append hnodup) h List.mem_cons_self
      obtain ⟨_, hrun, f', rfl, hlevel, hsame⟩ := hinner loop2 f hmem
      refine ⟨_, hrun, f', rfl, fun id hid ↦ ?_⟩
      rcases eq_or_ne id loop2 with rfl | hne
      · rw [hlevel, hf id hid, if_neg hout, if_pos (by simp)]
        omega
      · rw [hsame id hne, hf id hid]
        simp [hne])
    (a := st.setLevels f₀) ⟨f₀, rfl, fun id hid ↦ by rw [hone id hid]; rfl⟩
  refine ⟨f, ?_, fun id hid ↦ by rw [hlevels id hid, if_pos hid]⟩
  rw [findNestingLevel]
  simp only [hf₀]
  exact hrun

/-- A loop is counted when it properly contains the other. -/
theorem counts_iff (hlam : Laminar st.loopList st.body) {i j : ℕ} (hi : i ∈ st.loopList)
    (hj : j ∈ st.loopList) : counts st i j = true ↔ st.body i ⊂ st.body j := by
  rw [counts, Bool.and_eq_true, decide_eq_true_iff, List.all_eq_true]
  simp only [decide_eq_true_iff]
  exact ⟨fun ⟨hne, hsub⟩ ↦ ⟨hsub, fun h ↦ hne (hlam.inj i hi j hj (Set.Subset.antisymm hsub h))⟩,
    fun h ↦ ⟨fun heq ↦ h.ne (heq ▸ rfl), h.subset⟩⟩

theorem level_eq_counts (hlam : Laminar st.loopList st.body) (hnodup : st.loopList.Nodup) {i : ℕ}
    (hi : i ∈ st.loopList) :
    level st.loopList st.body i = st.loopList.countP (counts st i) + 1 :=
  level_eq_countP hnodup fun _ hj ↦ counts_iff hlam hi hj

/-! ### The deepest loop of a block -/

/-- `nesting_level` of every loop is its level. -/
def HasLevels (st : LoopState) : Prop :=
  ∀ id ∈ st.loopList, (st.loop id).nestingLevel = level st.loopList st.body id

theorem deepestNest_spec (st : LoopState) (hlam : Laminar st.loopList st.body) (hlevels : HasLevels st) (cb : ℕ) :
    (∀ id, (deepestNest st cb).1 = some id →
        IsSmallest st.loopList st.body (fun k ↦ cb ∈ st.body k) id) ∧
      ((deepestNest st cb).1 = none → ∀ id ∈ st.loopList, cb ∉ st.body id) := by
  -- of any part of the list: no loop has the block, or the one found is the deepest that has it
  have hprefix : ∀ ids : List ℕ, ids ⊆ st.loopList →
      (∀ id ∈ ids, cb ∉ st.body id) ∧
        ids.foldl (fun r id ↦ if (st.loop id).nestingLevel > r.2 then
            if cb ∈ (st.loop id).loopCb then (some id, (st.loop id).nestingLevel) else r
          else r) ((none, 0) : Option ℕ × ℤ) = (none, 0) ∨
      ∃ id ∈ ids, cb ∈ st.body id ∧
        (∀ k ∈ ids, cb ∈ st.body k → (st.loop k).nestingLevel ≤ (st.loop id).nestingLevel) ∧
        ids.foldl (fun r id ↦ if (st.loop id).nestingLevel > r.2 then
            if cb ∈ (st.loop id).loopCb then (some id, (st.loop id).nestingLevel) else r
          else r) ((none, 0) : Option ℕ × ℤ) = (some id, (st.loop id).nestingLevel) := by
    intro ids
    induction ids using List.reverseRecOn with
    | nil => exact fun _ ↦ Or.inl ⟨fun _ h ↦ absurd h List.not_mem_nil, rfl⟩
    | append_singleton ids id ih =>
      intro hsub
      have hid : id ∈ st.loopList := hsub (by simp)
      have hpos : (st.loop id).nestingLevel > 0 := by
        rw [hlevels id hid]
        exact Int.natCast_pos.2 level_pos
      rw [List.foldl_append]
      rcases ih fun x hx ↦ hsub (List.mem_append_left _ hx) with ⟨hnone, heq⟩ | ⟨j, hj, hcb, hmax, heq⟩
      · rw [heq, List.foldl_cons, List.foldl_nil, if_pos hpos]
        by_cases hin : cb ∈ (st.loop id).loopCb
        · rw [if_pos hin]
          refine Or.inr ⟨id, by simp, hin, fun k hk hkcb ↦ ?_, rfl⟩
          rcases List.mem_append.1 hk with hk | hk
          · exact absurd hkcb (hnone k hk)
          · rw [List.mem_singleton.1 hk]
        · rw [if_neg hin]
          refine Or.inl ⟨fun k hk ↦ ?_, rfl⟩
          rcases List.mem_append.1 hk with hk | hk
          · exact hnone k hk
          · rw [List.mem_singleton.1 hk]
            exact hin
      · rw [heq, List.foldl_cons, List.foldl_nil]
        have hkeep : ((st.loop id).nestingLevel > (st.loop j).nestingLevel →
            cb ∉ (st.loop id).loopCb) → ∀ k ∈ ids ++ [id], cb ∈ st.body k →
            (st.loop k).nestingLevel ≤ (st.loop j).nestingLevel := fun hle k hk hkcb ↦ by
          rcases List.mem_append.1 hk with hk | hk
          · exact hmax k hk hkcb
          · rw [List.mem_singleton.1 hk] at hkcb ⊢
            exact not_lt.1 fun hlt ↦ hle hlt hkcb
        by_cases hlt : (st.loop id).nestingLevel > (st.loop j).nestingLevel
        · rw [if_pos hlt]
          by_cases hin : cb ∈ (st.loop id).loopCb
          · rw [if_pos hin]
            refine Or.inr ⟨id, by simp, hin, fun k hk hkcb ↦ ?_, rfl⟩
            rcases List.mem_append.1 hk with hk | hk
            · exact (hmax k hk hkcb).trans hlt.le
            · rw [List.mem_singleton.1 hk]
          · rw [if_neg hin]
            exact Or.inr ⟨j, by simp [hj], hcb, hkeep fun _ ↦ hin, rfl⟩
        · rw [if_neg hlt]
          exact Or.inr ⟨j, by simp [hj], hcb, hkeep fun h ↦ absurd h hlt, rfl⟩
  rcases hprefix st.loopList (List.Subset.refl _) with ⟨hnone, heq⟩ | ⟨j, hj, hcb, hmax, heq⟩
  · refine ⟨fun id hid ↦ ?_, fun _ ↦ hnone⟩
    rw [deepestNest, heq] at hid
    cases hid
  · refine ⟨fun id hid ↦ ?_, fun h ↦ ?_⟩
    · rw [deepestNest, heq] at hid
      obtain rfl := Option.some.inj hid
      refine hlam.isSmallest_of_level_le hj hcb (fun k _ hk ↦ ⟨cb, hcb, hk⟩) fun k hk hkcb ↦ ?_
      have hle := hmax k hk hkcb
      rw [hlevels k hk, hlevels j hj] at hle
      exact Int.ofNat_le.1 hle
    · rw [deepestNest, heq] at h
      cases h

/-! ### Parents and siblings -/

/-- The links of a loop. -/
structure Links where
  parent : Option ℕ
  sibling : Option ℕ
  child : Option ℕ

/-- The state with other links. -/
def LoopState.setLinks (st : LoopState) (g : ℕ → Links) : LoopState :=
  { st with
    loop := fun id ↦ { st.loop id with
      parentLoop := (g id).parent, siblingLoop := (g id).sibling, childLoop := (g id).child } }

/-- The list of loops that starts at a pointer and goes on along `sibling_loop`. -/
def SiblingChain (sibling : ℕ → Option ℕ) : Option ℕ → List ℕ → Prop
  | o, [] => o = none
  | o, id :: ids => o = some id ∧ SiblingChain sibling (sibling id) ids

theorem SiblingChain.congr {sibling sibling' : ℕ → Option ℕ} {o : Option ℕ} {ids : List ℕ}
    (h : SiblingChain sibling o ids) (heq : ∀ id ∈ ids, sibling' id = sibling id) :
    SiblingChain sibling' o ids := by
  induction ids generalizing o with
  | nil => exact h
  | cons id ids ih =>
    obtain ⟨hid, hids⟩ := List.forall_mem_cons.1 heq
    refine ⟨h.1, ?_⟩
    rw [hid]
    exact ih h.2 hids

/-- The smallest loop that properly contains a loop, if there is one. -/
def IsParent (st : LoopState) (id : ℕ) : Option ℕ → Prop
  | some p => IsSmallest st.loopList st.body (fun k ↦ st.body id ⊂ st.body k) p
  | none => ∀ k ∈ st.loopList, ¬st.body id ⊂ st.body k

/-- The links after the loops in `done` have been linked to their parents. -/
structure Linked (st : LoopState) (done : List ℕ) (g : ℕ → Links) : Prop where
  parent : ∀ id ∈ done, IsParent st id (g id).parent
  fresh : ∀ id ∈ st.loopList, id ∉ done → (g id).parent = none
  root : ∀ id ∈ st.loopList, (g id).parent = none → (g id).sibling = none
  children : ∀ p ∈ st.loopList, SiblingChain (fun id ↦ (g id).sibling) (g p).child
    (done.filter fun id ↦ decide ((g id).parent = some p)).reverse

/-- The search for a loop around `loop2` that is one level up. -/
theorem findParent_spec (a : LoopState) {loop2 : ℕ} (hcb : (a.loop loop2).loopCb ≠ [])
    (ids : List ℕ) :
    ∃ r, findParent a loop2 ids = .ok r ∧
      (∀ p, r = some p → p ∈ ids ∧ loop2 ≠ p ∧
        (a.loop loop2).nestingLevel = (a.loop p).nestingLevel + 1 ∧ a.body loop2 ⊆ a.body p) ∧
      (r = none → ∀ p ∈ ids, loop2 ≠ p →
        (a.loop loop2).nestingLevel = (a.loop p).nestingLevel + 1 → ¬a.body loop2 ⊆ a.body p) := by
  induction ids with
  | nil => exact ⟨none, rfl, fun p h ↦ (nomatch h), fun _ p hp ↦ absurd hp List.not_mem_nil⟩
  | cons loop1 ids ih =>
    obtain ⟨r, hrun, hsome, hnone⟩ := ih
    -- A loop that is passed over.
    have hpass : (loop2 ≠ loop1 →
        (a.loop loop2).nestingLevel = (a.loop loop1).nestingLevel + 1 →
          ¬a.body loop2 ⊆ a.body loop1) →
        findParent a loop2 (loop1 :: ids) = findParent a loop2 ids →
        ∃ r, findParent a loop2 (loop1 :: ids) = .ok r ∧
          (∀ p, r = some p → p ∈ loop1 :: ids ∧ loop2 ≠ p ∧
            (a.loop loop2).nestingLevel = (a.loop p).nestingLevel + 1 ∧
              a.body loop2 ⊆ a.body p) ∧
          (r = none → ∀ p ∈ loop1 :: ids, loop2 ≠ p →
            (a.loop loop2).nestingLevel = (a.loop p).nestingLevel + 1 →
              ¬a.body loop2 ⊆ a.body p) := by
      intro hnot heq
      refine ⟨r, heq.trans hrun, fun p hp ↦ ?_, fun h ↦ List.forall_mem_cons.2 ⟨hnot, hnone h⟩⟩
      obtain ⟨hmem, hrest⟩ := hsome p hp
      exact ⟨List.mem_cons_of_mem loop1 hmem, hrest⟩
    by_cases hne : loop2 = loop1
    · exact hpass (fun h ↦ absurd hne h) (by rw [findParent, if_pos hne])
    · by_cases hlevel : (a.loop loop2).nestingLevel = (a.loop loop1).nestingLevel + 1
      · have hnested := isNested_eq a hne hcb
        rcases hall : (a.loop loop2).loopCb.all fun cb ↦ decide (cb ∈ (a.loop loop1).loopCb)
          with _ | _
        · refine hpass (fun _ _ hsub ↦ ?_) ?_
          · rw [← Bool.not_eq_true, List.all_eq_true] at hall
            refine hall fun cb hmem ↦ decide_eq_true ?_
            exact hsub hmem
          · rw [findParent, if_neg hne, if_pos hlevel, hnested, Run.ok_bind, hall,
              if_neg Bool.false_ne_true]
        · refine ⟨some loop1, ?_, fun p hp ↦ ?_, fun h ↦ nomatch h⟩
          · rw [findParent, if_neg hne, if_pos hlevel, hnested, Run.ok_bind, hall, if_pos rfl]
          · obtain rfl := Option.some.inj hp
            rw [List.all_eq_true] at hall
            refine ⟨List.mem_cons_self, hne, hlevel, fun cb hmem ↦ ?_⟩
            exact of_decide_eq_true (p := cb ∈ (a.loop loop1).loopCb) (hall cb hmem)
      · exact hpass (fun _ h ↦ absurd h hlevel) (by rw [findParent, if_neg hne, if_neg hlevel])

/-- The links after `id` became the first child of `p`. -/
def adopt (g : ℕ → Links) (p id : ℕ) : ℕ → Links :=
  let g₁ := Function.update g id ⟨some p, (g p).child, (g id).child⟩
  Function.update g₁ p { g₁ p with child := some id }

section Adopt

variable {g : ℕ → Links} {p id x : ℕ}

@[simp] theorem adopt_parent_of_ne (hx : x ≠ id) : (adopt g p id x).parent = (g x).parent := by
  rcases eq_or_ne x p with rfl | hxp
  · simp [adopt, hx]
  · simp [adopt, hx, hxp]

@[simp] theorem adopt_sibling_of_ne (hx : x ≠ id) : (adopt g p id x).sibling = (g x).sibling := by
  rcases eq_or_ne x p with rfl | hxp
  · simp [adopt, hx]
  · simp [adopt, hx, hxp]

theorem adopt_self (hne : id ≠ p) : adopt g p id id = ⟨some p, (g p).child, (g id).child⟩ := by
  simp [adopt, hne]

theorem adopt_child_self : (adopt g p id p).child = some id := by simp [adopt]

theorem adopt_child_of_ne (hne : id ≠ p) (hx : x ≠ p) : (adopt g p id x).child = (g x).child := by
  rcases eq_or_ne x id with rfl | hxid
  · rw [adopt_self hne]
  · simp [adopt, hx, hxid]

/-- A loop that is linked to its parent is put in front of the children it has. -/
theorem Linked.adopt {done : List ℕ} (hg : Linked st done g) (hout : id ∉ done) (hne : id ≠ p)
    (hparent : IsParent st id (some p)) : Linked st (done ++ [id]) (adopt g p id) := by
  have hfilter : ∀ q : ℕ, (done.filter fun x ↦ decide ((Lcode.adopt g p id x).parent = some q)) =
      done.filter fun x ↦ decide ((g x).parent = some q) := fun q ↦
    List.filter_congr fun x hx ↦ by rw [adopt_parent_of_ne (ne_of_mem_of_not_mem hx hout)]
  have hchain : ∀ q ∈ st.loopList, SiblingChain (fun x ↦ (Lcode.adopt g p id x).sibling) (g q).child
      (done.filter fun x ↦ decide ((g x).parent = some q)).reverse := fun q hq ↦
    (hg.children q hq).congr fun x hx ↦ adopt_sibling_of_ne fun h ↦
      hout (h ▸ List.mem_of_mem_filter (List.mem_reverse.1 hx))
  refine ⟨fun x hx ↦ ?_, fun x hx hnot ↦ ?_, fun x hx hroot ↦ ?_, fun q hq ↦ ?_⟩
  · rcases eq_or_ne x id with rfl | hxid
    · rw [adopt_self hne]
      exact hparent
    · rw [adopt_parent_of_ne hxid]
      exact hg.parent x ((List.mem_append.1 hx).resolve_right fun h ↦ hxid (List.mem_singleton.1 h))
  · rw [List.mem_append, List.mem_singleton, not_or] at hnot
    rw [adopt_parent_of_ne hnot.2]
    exact hg.fresh x hx hnot.1
  · rcases eq_or_ne x id with rfl | hxid
    · rw [adopt_self hne] at hroot
      cases hroot
    · rw [adopt_parent_of_ne hxid] at hroot
      rw [adopt_sibling_of_ne hxid]
      exact hg.root x hx hroot
  · rw [List.filter_append, hfilter]
    rcases eq_or_ne q p with rfl | hqp
    · rw [List.filter_cons_of_pos (by rw [adopt_self hne]; exact decide_eq_true rfl), List.filter_nil,
        List.reverse_append]
      refine ⟨adopt_child_self, ?_⟩
      show SiblingChain _ (Lcode.adopt g q id id).sibling _
      rw [adopt_self hne]
      exact hchain q hq
    · rw [List.filter_cons_of_neg (by rw [adopt_self hne]; simpa using Ne.symm hqp), List.filter_nil,
        List.append_nil, adopt_child_of_ne hne hqp]
      exact hchain q hq

/-- `L_reconnect_loop_hierarchy` links a loop to the parent it finds. -/
theorem linkParent_eq (hlevel : (st.loop id).nestingLevel ≠ 1) (hne : id ≠ p)
    (hfind : findParent (st.setLinks g) id st.loopList = .ok (some p)) :
    linkParent (st.setLinks g) id = .ok (st.setLinks (adopt g p id)) := by
  rw [linkParent]
  refine (if_neg hlevel).trans ?_
  show (findParent (st.setLinks g) id st.loopList >>= _) = _
  rw [hfind, Run.ok_bind]
  refine congrArg Except.ok (congrArg (fun f ↦ { st with loop := f }) (funext fun x ↦ ?_))
  rcases eq_or_ne x p with rfl | hxp
  · simp [LoopState.setLoop, LoopState.setLinks, adopt, Ne.symm hne]
  · rcases eq_or_ne x id with rfl | hxid
    · simp [LoopState.setLoop, LoopState.setLinks, adopt, hxp]
    · simp [LoopState.setLoop, LoopState.setLinks, adopt, hxp, hxid]

end Adopt

/-- A loop on level one has no parent, and its links are left as they are. -/
theorem Linked.concat_root (hlevels : HasLevels st) {done : List ℕ} {g : ℕ → Links}
    (hg : Linked st done g) {id : ℕ} (hid : id ∈ st.loopList) (hout : id ∉ done)
    (hone : (st.loop id).nestingLevel = 1) : Linked st (done ++ [id]) g := by
  have hfresh := hg.fresh id hid hout
  refine ⟨fun x hx ↦ ?_, fun x hx hnot ↦ hg.fresh x hx fun h ↦
    hnot (List.mem_append_left _ h), hg.root, fun p hp ↦ ?_⟩
  · rcases List.mem_append.1 hx with hx | hx
    · exact hg.parent x hx
    · rw [List.mem_singleton.1 hx, hfresh]
      intro k hk hsub
      rw [hlevels id hid] at hone
      have hempty := containers_eq_empty (by exact_mod_cast hone)
      exact Set.eq_empty_iff_forall_notMem.1 hempty k ⟨hk, hsub⟩
  · rw [List.filter_append, List.filter_cons_of_neg (by simp [hfresh]), List.filter_nil,
      List.append_nil]
    exact hg.children p hp

/-- Linking one loop to its parent. -/
theorem linkParent_spec (hlam : Laminar st.loopList st.body) (hlevels : HasLevels st)
    {done : List ℕ} {g : ℕ → Links} (hg : Linked st done g) {id : ℕ} (hid : id ∈ st.loopList)
    (hout : id ∉ done) :
    ∃ g', linkParent (st.setLinks g) id = .ok (st.setLinks g') ∧ Linked st (done ++ [id]) g' := by
  by_cases hone : (st.loop id).nestingLevel = 1
  · exact ⟨g, if_pos hone, hg.concat_root hlevels hid hout hone⟩
  · obtain ⟨x, hx⟩ := hlam.nonempty id hid
    obtain ⟨r, hrun, hsome, hnone⟩ := findParent_spec (st.setLinks g)
      (List.ne_nil_of_mem hx) st.loopList
    -- Some loop is around `id`, and the smallest one is one level up.
    have hne : (containers st.loopList st.body id).Nonempty := by
      refine Set.nonempty_iff_ne_empty.2 fun hempty ↦ hone ?_
      rw [hlevels id hid, level, hempty, Set.ncard_empty]
      rfl
    obtain ⟨q, hq⟩ := hlam.exists_isSmallest hid hne
    cases r with
    | none =>
      have hlevel : (st.loop id).nestingLevel = (st.loop q).nestingLevel + 1 := by
        rw [hlevels id hid, hlevels q hq.mem, hlam.level_eq hq]
        rfl
      exact absurd hq.prop.subset
        (hnone rfl q hq.mem (fun h ↦ hq.prop.ne (h ▸ rfl)) hlevel)
    | some p =>
      obtain ⟨hp, hidp, hlevel, hsub⟩ := hsome p rfl
      have hsmall : IsParent st id (some p) := by
        refine hlam.isSmallest_of_level_eq hid hp hsub ?_
        have heq : (st.loop id).nestingLevel = (st.loop p).nestingLevel + 1 := hlevel
        rw [hlevels id hid, hlevels p hp] at heq
        exact_mod_cast heq
      exact ⟨adopt g p id, linkParent_eq hone hidp hrun, hg.adopt hout hidp hsmall⟩

/-- The list is rearranged to start with a loop on level one. -/
theorem makeFirstLoopLevelOne_spec {a : LoopState}
    (hone : ∀ id ∈ a.loopList, ∃ k ∈ a.loopList, (a.loop k).nestingLevel = 1) :
    ∃ ids, makeFirstLoopLevelOne a = .ok { a with loopList := ids } ∧ ids.Perm a.loopList ∧
      ∀ id, ids.head? = some id → (a.loop id).nestingLevel = 1 := by
  obtain ⟨ids, loop, maxLoopId, visited, loopHeader, deepestLoop⟩ := a
  cases ids with
  | nil => exact ⟨[], rfl, List.Perm.refl _, fun id h ↦ nomatch h⟩
  | cons first loops =>
    by_cases hfirst : (loop first).nestingLevel = 1
    · refine ⟨first :: loops, if_neg (not_not.2 hfirst), List.Perm.refl _, fun id h ↦ ?_⟩
      rwa [← Option.some.inj h]
    · obtain ⟨k, hk, hkone⟩ := hone first List.mem_cons_self
      have hk' : k ∈ loops := (List.mem_cons.1 hk).resolve_left fun h ↦ hfirst (h ▸ hkone)
      cases hfind : loops.find? fun id ↦ decide ((loop id).nestingLevel = 1) with
      | none =>
        rw [List.find?_eq_none] at hfind
        exact absurd (decide_eq_true hkone) (hfind k hk')
      | some id =>
        have hid := List.find?_some hfind
        refine ⟨id :: (first :: loops).erase id, ?_, ?_, fun id' h ↦ ?_⟩
        · rw [makeFirstLoopLevelOne]
          refine (if_pos hfirst).trans ?_
          rw [hfind]
        · exact (List.perm_cons_erase
            (List.mem_cons_of_mem first (List.mem_of_find?_eq_some hfind))).symm
        · rw [← Option.some.inj h]
          exact of_decide_eq_true hid

/-- Linking the loops on level one. -/
theorem linkSiblings_spec (st : LoopState) {loops : List ℕ} (loop2 : ℕ) (g : ℕ → Links)
    (hnodup : (loop2 :: loops).Nodup) (hnone : (g loop2).sibling = none)
    (hroots : ∀ id ∈ loops, (st.loop id).nestingLevel = 1 → (g id).sibling = none) :
    ∃ g', linkSiblings loops loop2 (st.setLinks g) = st.setLinks g' ∧
      (∀ id, (g' id).parent = (g id).parent ∧ (g' id).child = (g id).child) ∧
      SiblingChain (fun id ↦ (g' id).sibling) (some loop2)
        (loop2 :: loops.filter fun id ↦ decide ((st.loop id).nestingLevel = 1)) ∧
      ∀ id ≠ loop2, (id ∈ loops → (st.loop id).nestingLevel ≠ 1) →
        (g' id).sibling = (g id).sibling := by
  obtain ⟨hout, hnodup'⟩ := List.nodup_cons.1 hnodup
  induction loops generalizing loop2 g with
  | nil => exact ⟨g, rfl, fun _ ↦ ⟨rfl, rfl⟩, ⟨rfl, hnone⟩, fun _ _ _ ↦ rfl⟩
  | cons loop1 loops ih =>
    rw [List.mem_cons, not_or] at hout
    obtain ⟨hroot, hroots⟩ := List.forall_mem_cons.1 hroots
    obtain ⟨hout1, hnodup''⟩ := List.nodup_cons.1 hnodup'
    by_cases hone : (st.loop loop1).nestingLevel = 1
    · obtain ⟨g₁, hg₁⟩ : ∃ g₁, g₁ = Function.update g loop2 { g loop2 with sibling := some loop1 } :=
        ⟨_, rfl⟩
      have hother : ∀ id ≠ loop2, g₁ id = g id := fun id hid ↦ by
        rw [hg₁, Function.update_of_ne hid]
      have hself : g₁ loop2 = { g loop2 with sibling := some loop1 } := by
        rw [hg₁, Function.update_self]
      obtain ⟨g', hrun, hlinks, hchain, hframe⟩ := ih loop1 g₁ hnodup'
        (by rw [hother loop1 (Ne.symm hout.1)]; exact hroot hone)
        (fun id hid hid1 ↦ by
          rw [hother id fun h ↦ hout.2 (h ▸ hid)]
          exact hroots id hid hid1)
        hout1 hnodup''
      refine ⟨g', ?_, fun id ↦ ?_, ⟨rfl, ?_⟩, fun id hid hlevel ↦ ?_⟩
      · rw [linkSiblings]
        refine (if_pos hone).trans ?_
        rw [← hrun]
        refine congrArg (linkSiblings loops loop1) ?_
        refine congrArg (fun f ↦ { st with loop := f }) (funext fun id ↦ ?_)
        rcases eq_or_ne id loop2 with rfl | hid
        · simp [LoopState.setLinks, hself]
        · simp [LoopState.setLinks, hid, hother id hid]
      · rcases eq_or_ne id loop2 with rfl | hid
        · rw [(hlinks id).1, (hlinks id).2, hself]
          exact ⟨rfl, rfl⟩
        · rw [(hlinks id).1, (hlinks id).2, hother id hid]
          exact ⟨rfl, rfl⟩
      · rw [List.filter_cons_of_pos (by simpa using hone)]
        show SiblingChain _ (g' loop2).sibling _
        rw [hframe loop2 hout.1 fun h ↦ absurd h hout.2, hself]
        exact hchain
      · rw [hframe id (fun h ↦ hlevel (h ▸ List.mem_cons_self) (h ▸ hone))
          fun h ↦ hlevel (List.mem_cons_of_mem loop1 h), hother id hid]
    · obtain ⟨g', hrun, hlinks, hchain, hframe⟩ := ih loop2 g
        (List.nodup_cons.2 ⟨hout.2, hnodup''⟩) hnone hroots hout.2 hnodup''
      refine ⟨g', ?_, hlinks, ?_, fun id hid hlevel ↦
        hframe id hid fun h ↦ hlevel (List.mem_cons_of_mem loop1 h)⟩
      · rw [linkSiblings]
        exact (if_neg hone).trans hrun
      · rw [List.filter_cons_of_neg (by simpa using hone)]
        exact hchain

theorem Linked.parent_eq_none_iff (hlevels : HasLevels st)
    {g : ℕ → Links} (hg : Linked st st.loopList g) {id : ℕ} (hid : id ∈ st.loopList) :
    (g id).parent = none ↔ (st.loop id).nestingLevel = 1 := by
  have hparent := hg.parent id hid
  rw [hlevels id hid]
  constructor
  · intro hnone
    rw [hnone] at hparent
    have hempty : containers st.loopList st.body id = ∅ :=
      Set.eq_empty_iff_forall_notMem.2 fun k hk ↦ hparent k hk.1 hk.2
    rw [level, hempty, Set.ncard_empty]
    rfl
  · intro hone
    have hempty := containers_eq_empty (by exact_mod_cast hone)
    cases hp : (g id).parent with
    | none => rfl
    | some p =>
      rw [hp] at hparent
      have hmem : p ∈ containers st.loopList st.body id := ⟨hparent.mem, hparent.prop⟩
      rw [hempty] at hmem
      exact absurd hmem (Set.notMem_empty p)

/-- The loops linked to their parents and siblings. -/
theorem reconnectLoopHierarchy_spec (hlam : Laminar st.loopList st.body) (hlevels : HasLevels st)
    (hnodup : st.loopList.Nodup)
    (hfresh : ∀ id ∈ st.loopList, (st.loop id).parentLoop = none ∧
      (st.loop id).siblingLoop = none ∧ (st.loop id).childLoop = none) :
    ∃ ids g, reconnectLoopHierarchy st = .ok ({ st with loopList := ids }.setLinks g) ∧
      ids.Perm st.loopList ∧ (∀ id ∈ st.loopList, IsParent st id (g id).parent) ∧
      (∀ p ∈ st.loopList, ∃ cs : List ℕ, cs.Nodup ∧
        SiblingChain (fun id ↦ (g id).sibling) (g p).child cs ∧
        ∀ id, id ∈ cs ↔ id ∈ st.loopList ∧ (g id).parent = some p) ∧
      ∃ cs : List ℕ, cs.Nodup ∧ SiblingChain (fun id ↦ (g id).sibling) ids.head? cs ∧
        ∀ id, id ∈ cs ↔ id ∈ st.loopList ∧ (g id).parent = none := by
  obtain ⟨_, hrun, g, rfl, hg⟩ := Run.foldlM_prefix
    (P := fun done a ↦ ∃ g, a = st.setLinks g ∧ Linked st done g) (f := linkParent)
    (l := st.loopList) (a := st)
    (fun done id rest hlist a ha ↦ by
      obtain ⟨g, rfl, hg⟩ := ha
      have hout : id ∉ done := fun h ↦ by
        rw [hlist] at hnodup
        exact (List.disjoint_of_nodup_append hnodup) h List.mem_cons_self
      obtain ⟨g', hrun, hg'⟩ := linkParent_spec hlam hlevels hg (by rw [hlist]; simp) hout
      exact ⟨_, hrun, g', rfl, hg'⟩)
    ⟨fun id ↦ ⟨(st.loop id).parentLoop, (st.loop id).siblingLoop, (st.loop id).childLoop⟩, rfl,
      fun id hid ↦ absurd hid List.not_mem_nil, fun id hid _ ↦ (hfresh id hid).1,
      fun id hid _ ↦ (hfresh id hid).2.1, fun p hp ↦ (hfresh p hp).2.2⟩
  obtain ⟨ids, hfirst, hperm, hlevel⟩ := makeFirstLoopLevelOne_spec (a := st.setLinks g)
    fun id hid ↦ by
      obtain ⟨k, hk, hkone⟩ : ∃ k ∈ st.loopList, level st.loopList st.body k = 1 :=
        exists_level_eq_one hid
      exact ⟨k, hk, (hlevels k hk).trans (by rw [hkone]; rfl)⟩
  have hroot : ∀ id ∈ st.loopList, ((g id).parent = none ↔ (st.loop id).nestingLevel = 1) :=
    fun id hid ↦ hg.parent_eq_none_iff hlevels hid
  have hchildren : ∀ p ∈ st.loopList, ∃ cs : List ℕ, cs.Nodup ∧
      SiblingChain (fun id ↦ (g id).sibling) (g p).child cs ∧
      ∀ id, id ∈ cs ↔ id ∈ st.loopList ∧ (g id).parent = some p := fun p hp ↦
    ⟨_, List.nodup_reverse.2 (hnodup.filter _), hg.children p hp, fun id ↦ by simp⟩
  rw [reconnectLoopHierarchy]
  cases ids with
  | nil =>
    have hempty : ∀ id, id ∉ st.loopList := fun id hid ↦
      absurd ((hperm.mem_iff (a := id)).2 hid) List.not_mem_nil
    refine ⟨[], g, ?_, hperm, hg.parent, hchildren, [], List.nodup_nil, rfl, fun id ↦ ?_⟩
    · rw [hrun, Run.ok_bind, hfirst]
      rfl
    · exact iff_of_false List.not_mem_nil fun h ↦ hempty id h.1
  | cons loop2 loops =>
    have hone : (st.loop loop2).nestingLevel = 1 := hlevel loop2 rfl
    have hmem : ∀ {id}, id ∈ loop2 :: loops ↔ id ∈ st.loopList := hperm.mem_iff
    obtain ⟨g', hlinks, hsame, hchain, hframe⟩ := linkSiblings_spec
      { st with loopList := loop2 :: loops } loop2 g (hperm.nodup_iff.2 hnodup)
      (hg.root loop2 (hmem.1 List.mem_cons_self)
        ((hroot loop2 (hmem.1 List.mem_cons_self)).2 hone))
      fun id hid hid1 ↦ hg.root id (hmem.1 (List.mem_cons_of_mem loop2 hid))
        ((hroot id (hmem.1 (List.mem_cons_of_mem loop2 hid))).2 hid1)
    refine ⟨loop2 :: loops, g', ?_, hperm, fun id hid ↦ ?_, fun p hp ↦ ?_, ?_⟩
    · rw [hrun, Run.ok_bind, hfirst, Run.ok_bind, ← hlinks]
      exact if_neg (not_not.2 hone)
    · rw [(hsame id).1]
      exact hg.parent id hid
    · obtain ⟨cs, hcs, hcschain, hcsmem⟩ := hchildren p hp
      refine ⟨cs, hcs, ?_, fun id ↦ by rw [(hsame id).1]; exact hcsmem id⟩
      rw [(hsame p).2]
      refine hcschain.congr fun id hid ↦ ?_
      -- A child is not on level one.
      obtain ⟨hidmem, hidp⟩ := (hcsmem id).1 hid
      have hnotone : (st.loop id).nestingLevel ≠ 1 := fun h ↦ by
        rw [(hroot id hidmem).2 h] at hidp
        cases hidp
      exact hframe id (fun h ↦ hnotone (h ▸ hone)) fun _ ↦ hnotone
    · refine ⟨_, ?_, hchain, fun id ↦ ?_⟩
      · refine (hperm.nodup_iff.2 hnodup).sublist ?_
        exact List.filter_sublist.cons_cons loop2
      · rw [(hsame id).1, List.mem_cons, List.mem_filter, decide_eq_true_iff, ← hmem,
          List.mem_cons]
        constructor
        · rintro (rfl | ⟨hid, hid1⟩)
          · exact ⟨Or.inl rfl, (hroot id (hmem.1 List.mem_cons_self)).2 hone⟩
          · exact ⟨Or.inr hid, (hroot id (hmem.1 (List.mem_cons_of_mem loop2 hid))).2 hid1⟩
        · rintro ⟨rfl | hid, hnone⟩
          · exact Or.inl rfl
          · exact Or.inr ⟨hid, (hroot id (hmem.1 (List.mem_cons_of_mem loop2 hid))).1 hnone⟩

/-- What loop detection is to leave. -/
structure LoopsDetected (fn : LoopFunc) (first : ℕ) (st : LoopState) : Prop where
  /-- There is exactly one loop for each block that back edges lead to. -/
  nodup : st.loopList.Nodup
  headers_nodup : (st.loopList.map fun id ↦ (st.loop id).header).Nodup
  mem_headers : ∀ h, (∃ id ∈ st.loopList, (st.loop id).header = h) ↔
    ∃ u, BackEdge fn.Arc first u h
  loopCb : ∀ id ∈ st.loopList, ∀ x,
    x ∈ (st.loop id).loopCb ↔ x ∈ LoopBody fn.Arc first (st.loop id).header
  backEdgeCb : ∀ id ∈ st.loopList, ∀ u,
    u ∈ (st.loop id).backEdgeCb ↔ BackEdge fn.Arc first u (st.loop id).header
  exitCb : ∀ id ∈ st.loopList, ∀ x,
    x ∈ (st.loop id).exitCb ↔ x ∈ st.body id ∧ ∃ y, fn.Arc x y ∧ y ∉ st.body id
  outCb : ∀ id ∈ st.loopList, ∀ y,
    y ∈ (st.loop id).outCb ↔ y ∉ st.body id ∧ ∃ x ∈ st.body id, fn.Arc x y
  /-- One more than the number of loops that properly contain the loop. -/
  nestingLevel : HasLevels st
  parentLoop : ∀ id ∈ st.loopList, IsParent st id (st.loop id).parentLoop
  /-- The list of children of a loop. -/
  children : ∀ p ∈ st.loopList, ∃ cs : List ℕ, cs.Nodup ∧
    SiblingChain (fun id ↦ (st.loop id).siblingLoop) (st.loop p).childLoop cs ∧
    ∀ id, id ∈ cs ↔ id ∈ st.loopList ∧ (st.loop id).parentLoop = some p
  /-- The list of loops without a parent, from `fn->first_loop` on. -/
  roots : ∃ cs : List ℕ, cs.Nodup ∧
    SiblingChain (fun id ↦ (st.loop id).siblingLoop) st.loopList.head? cs ∧
    ∀ id, id ∈ cs ↔ id ∈ st.loopList ∧ (st.loop id).parentLoop = none
  deepestLoop_some : ∀ cb ∈ fn.cbs, ∀ id, st.deepestLoop cb = some id →
    IsSmallest st.loopList st.body (fun k ↦ cb ∈ st.body k) id
  deepestLoop_none : ∀ cb ∈ fn.cbs, st.deepestLoop cb = none →
    ∀ id ∈ st.loopList, cb ∉ st.body id

/-- **Loop detection finds the loops and their nest.** It returns, so none of its punts is reached. -/
theorem loopDetection_spec (hcfg : LoopCfg fn first) (st : LoopState) :
    ∃ st', loopDetection fn st = .ok st' ∧ LoopsDetected fn first st' := by
  obtain ⟨st₁, hrun₁, hok₁⟩ := loopDet_spec hcfg st
  obtain ⟨f, hrun₂, hf⟩ := findNestingLevel_spec hok₁.nodup
    (fun id hid ↦ (hok₁.loopOk id hid).loopCb_ne) fun id hid ↦ (hok₁.loopOk id hid).preheader
  -- levels, exit blocks and marks are other fields than those of the bodies
  have hok₂ : LoopsOk fn first (st₁.setLevels f) :=
    ⟨hok₁.nodup, fun id hid ↦
      let h := hok₁.loopOk id hid
      ⟨h.back, h.backEdgeCb_ne, h.body, h.preheader, h.parentLoop, h.siblingLoop, h.childLoop⟩,
      hok₁.headers, hok₁.covers⟩
  have hrun₃ := findExitBlocksInLoop_eq fn
    fun id hid ↦ (hok₂.loopOk id hid).loopCb_ne
  let st₃ : LoopState :=
    { st₁.setLevels f with loop := exitsOf fn (st₁.setLevels f) (st₁.setLevels f).loopList }
  let st₄ : LoopState := findDeepestNestForCbs fn (markLoopHeaders st₃)
  have hok₄ : LoopsOk fn first st₄ :=
    let h := hok₂.exitsOf (st₁.setLevels f).loopList
    ⟨h.nodup, h.loopOk, h.headers, h.covers⟩
  have hloop₄ : ∀ id ∈ st₄.loopList, st₄.loop id = { (st₁.setLevels f).loop id with
      exitCb := (exitBlocks fn (st₁.loop id).loopCb).1
      outCb := (exitBlocks fn (st₁.loop id).loopCb).2 } := fun id hid ↦ if_pos hid
  have hbody : st₄.body = st₁.body := by
    funext id
    show {x | x ∈ (exitsOf fn (st₁.setLevels f) _ id).loopCb} = _
    rw [exitsOf]
    split_ifs <;> rfl
  have hlam : Laminar st₄.loopList st₄.body := hok₄.laminar hcfg
  have hlevels : HasLevels st₄ := fun id hid ↦ by
    rw [hloop₄ id hid, hbody]
    show (f id).1 = level st₁.loopList st₁.body id
    rw [hf id hid, level_eq_counts (hok₁.laminar hcfg) hok₁.nodup hid]
    rfl
  -- the hierarchy is built from the levels, and may put another loop first
  obtain ⟨ids, g, hrun₄, hperm, hparent, hchildren, hroots⟩ := reconnectLoopHierarchy_spec hlam
    hlevels hok₄.nodup fun id hid ↦ by
      have h := hok₄.loopOk id hid
      exact ⟨h.parentLoop, h.siblingLoop, h.childLoop⟩
  have hmem : ∀ id, id ∈ ids ↔ id ∈ st₄.loopList := fun id ↦ hperm.mem_iff
  refine ⟨{ st₄ with loopList := ids }.setLinks g, ?_, ?_⟩
  · rw [loopDetection, hrun₁, Run.ok_bind, hrun₂, Run.ok_bind, hrun₃, Run.ok_bind]
    exact hrun₄
  · refine ⟨hperm.nodup_iff.2 hok₄.nodup, ?_, fun h ↦ ?_, fun id hid x ↦ ?_, fun id hid u ↦ ?_,
      fun id hid x ↦ ?_, fun id hid y ↦ ?_, fun id hid ↦ ?_, fun id hid ↦ ?_, fun p hp ↦ ?_, ?_,
      fun cb hcb id hid ↦ ?_, fun cb hcb hnone id hid ↦ ?_⟩
    · exact ((hperm.map _).nodup_iff).2 hok₄.headers
    · constructor
      · rintro ⟨id, hid, rfl⟩
        have h := hok₄.loopOk id ((hmem id).1 hid)
        obtain ⟨u, hu⟩ := List.exists_mem_of_ne_nil _ h.backEdgeCb_ne
        exact ⟨u, h.back u hu⟩
      · rintro ⟨u, hback⟩
        obtain ⟨id, hid, hhead, -⟩ := hok₄.covers u h hback
        exact ⟨id, (hmem id).2 hid, hhead⟩
    · exact hok₄.mem_loopCb ((hmem id).1 hid)
    · exact hok₄.mem_backEdgeCb ((hmem id).1 hid)
    · show x ∈ (st₄.loop id).exitCb ↔ x ∈ st₄.body id ∧ ∃ y, fn.Arc x y ∧ y ∉ st₄.body id
      rw [hloop₄ id ((hmem id).1 hid), hbody]
      exact mem_exitBlocks.1
    · show y ∈ (st₄.loop id).outCb ↔ y ∉ st₄.body id ∧ ∃ x ∈ st₄.body id, fn.Arc x y
      rw [hloop₄ id ((hmem id).1 hid), hbody]
      exact mem_exitBlocks.2
    · exact (hlevels id ((hmem id).1 hid)).trans (congrArg Nat.cast (level_congr hmem).symm)
    · show IsParent _ id (g id).parent
      have h := hparent id ((hmem id).1 hid)
      cases hp : (g id).parent with
      | some p =>
        rw [hp] at h
        exact h.congr hmem
      | none =>
        rw [hp] at h
        exact fun k hk ↦ h k ((hmem k).1 hk)
    · obtain ⟨cs, hcs, hchain, hcsmem⟩ := hchildren p ((hmem p).1 hp)
      exact ⟨cs, hcs, hchain, fun id ↦ (hcsmem id).trans (and_congr_left' (hmem id).symm)⟩
    · obtain ⟨cs, hcs, hchain, hcsmem⟩ := hroots
      exact ⟨cs, hcs, hchain, fun id ↦ (hcsmem id).trans (and_congr_left' (hmem id).symm)⟩
    · have hid' : (deepestNest (markLoopHeaders st₃) cb).1 = some id := by
        rw [← hid]
        exact (if_pos hcb).symm
      exact ((deepestNest_spec (markLoopHeaders st₃) hlam hlevels cb).1 id hid').congr hmem
    · have hnone' : (deepestNest (markLoopHeaders st₃) cb).1 = none := by
        rw [← hnone]
        exact (if_pos hcb).symm
      exact (deepestNest_spec (markLoopHeaders st₃) hlam hlevels cb).2 hnone' id
        ((hmem id).1 hid)

/-- A loop around a block with a self loop. -/
def nestedLoops : LoopFunc where
  cbs := [0, 1, 2]
  destFlow := fun
    | 0 => [1]
    | 1 => [2]
    | 2 => [2, 1]
    | _ => []
  srcFlow := fun
    | 1 => [0, 2]
    | 2 => [1, 2]
    | _ => []
  dom := fun
    | 0 => [0]
    | 1 => [0, 1]
    | 2 => [0, 1, 2]
    | _ => []

theorem arc_nestedLoops {a b : ℕ} :
    nestedLoops.Arc a b ↔ a = 0 ∧ b = 1 ∨ a = 1 ∧ b = 2 ∨ a = 2 ∧ (b = 2 ∨ b = 1) := by
  rcases a with _ | _ | _ | a <;> simp [LoopFunc.Arc, nestedLoops]

theorem loopCfg_nestedLoops : LoopCfg nestedLoops 0 := by
  have h01 : nestedLoops.Arc 0 1 := arc_nestedLoops.2 (by decide)
  have h12 : nestedLoops.Arc 1 2 := arc_nestedLoops.2 (by decide)
  have hpass : ∀ a, a ≠ 0 → Dominates nestedLoops.Arc 0 1 a := fun a ha l hwalk ↦ by
    cases hwalk with
    | nil => exact absurd rfl ha
    | cons hab hwalk =>
      rcases arc_nestedLoops.1 hab with ⟨-, rfl⟩ | ⟨h, -⟩ | ⟨h, -⟩
      · exact List.mem_cons_of_mem 0 hwalk.head_mem
      · cases h
      · cases h
  refine ⟨rfl, fun a b ↦ ?_, fun a b h ↦ ?_, fun a b h ↦ ?_, fun a ha ↦ ?_, fun a ha d ↦ ?_⟩
  · rw [arc_nestedLoops]
    rcases b with _ | _ | _ | b <;> simp [nestedLoops]
  · rcases arc_nestedLoops.1 h with ⟨rfl, -⟩ | ⟨rfl, -⟩ | ⟨rfl, -⟩ <;> decide
  · rcases arc_nestedLoops.1 h with ⟨-, rfl⟩ | ⟨-, rfl⟩ | ⟨-, rfl | rfl⟩ <;> decide
  · obtain rfl | rfl | rfl : a = 0 ∨ a = 1 ∨ a = 2 := by simpa [nestedLoops] using ha
    · exact .refl
    · exact .single h01
    · exact .head h01 (.single h12)
  · obtain rfl | rfl | rfl : a = 0 ∨ a = 1 ∨ a = 2 := by simpa [nestedLoops] using ha
    · refine ⟨fun h ↦ ?_, fun h ↦ h [0] (.nil 0)⟩
      obtain rfl : d = 0 := by simpa [nestedLoops] using h
      exact dominates_root _ 0 0
    · refine ⟨fun h ↦ ?_, fun h ↦ h [0, 1] (.cons h01 (.nil 1))⟩
      obtain rfl | rfl : d = 0 ∨ d = 1 := by simpa [nestedLoops] using h
      · exact dominates_root _ 0 1
      · exact hpass 1 (by decide)
    · refine ⟨fun h ↦ ?_, fun h ↦ h [0, 1, 2] (.cons h01 (.cons h12 (.nil 2)))⟩
      obtain rfl | rfl | rfl : d = 0 ∨ d = 1 ∨ d = 2 := by simpa [nestedLoops] using h
      · exact dominates_root _ 0 2
      · exact hpass 2 (by decide)
      · exact Dominates.refl _ 0 2

theorem loopDetection_spec_nested : ∃ st', loopDetection nestedLoops
    ⟨[], fun _ ↦ newLoop 0, 0, fun _ ↦ false, fun _ ↦ false, fun _ ↦ none⟩ = .ok st' ∧
      LoopsDetected nestedLoops 0 st' :=
  loopDetection_spec loopCfg_nestedLoops _

end OpenImpact.Lcode
