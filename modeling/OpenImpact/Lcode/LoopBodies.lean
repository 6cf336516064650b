import OpenImpact.Lcode.Loop
import OpenImpact.Foundation.NaturalLoop

/-!
# The bodies of the loops

`addBlocks` collects the natural loop of a back edge, and merging the loops of one header gives the
union of the natural loops of its back edges.
-/

namespace OpenImpact.Lcode

open Foundation

variable {fn : LoopFunc} {first headerCb cb u : ℕ}

/-- The arcs of the control-flow graph. -/
def LoopFunc.Arc (fn : LoopFunc) (a b : ℕ) : Prop :=
  b ∈ fn.destFlow a

/-- A control-flow graph with matching flow lists whose blocks are all reachable from the first, with
the true dominators. -/
structure LoopCfg (fn : LoopFunc) (first : ℕ) : Prop where
  head : fn.cbs.head? = some first
  srcFlow : ∀ a b, a ∈ fn.srcFlow b ↔ fn.Arc a b
  source : ∀ a b, fn.Arc a b → a ∈ fn.cbs
  target : ∀ a b, fn.Arc a b → b ∈ fn.cbs
  reachable : ∀ a ∈ fn.cbs, Relation.ReflTransGen fn.Arc first a
  dom : ∀ a ∈ fn.cbs, ∀ d, d ∈ fn.dom a ↔ Dominates fn.Arc first d a

/-! ### `addBlocks` -/

/-- What marking backward from `cb` through the sources in `l` does: it adds the blocks it marks. -/
structure Marks (fn : LoopFunc) (headerCb cb : ℕ) (l : List ℕ) (st st' : (ℕ → Bool) × List ℕ) :
    Prop where
  mono : ∀ x, st.1 x = true → st'.1 x = true
  added : ∀ x, x ∈ st'.2 ↔ x ∈ st.2 ∨ st'.1 x = true ∧ st.1 x = false
  reach : ∀ x, st'.1 x = true → st.1 x = false →
    x ≠ headerCb ∧ Relation.ReflTransGen (Avoiding fn.Arc headerCb) x cb
  closed : ∀ x, st'.1 x = true → st.1 x = false → ∀ y, fn.Arc y x → y ≠ headerCb →
    st'.1 y = true
  sources : ∀ y ∈ l, y ≠ headerCb → st'.1 y = true

variable {l l' : List ℕ} {st st' st'' : (ℕ → Bool) × List ℕ}

/-- No blocks, nothing marked. -/
theorem Marks.nil (fn : LoopFunc) (headerCb cb : ℕ) (st : (ℕ → Bool) × List ℕ) :
    Marks fn headerCb cb [] st st where
  mono _ h := h
  added x := by simp
  reach x h h' := by simp [h] at h'
  closed x h h' := by simp [h] at h'
  sources y h := absurd h List.not_mem_nil

/-- Marking one list after the other is marking both. -/
theorem Marks.append (h : Marks fn headerCb cb l st st') (h' : Marks fn headerCb cb l' st' st'') :
    Marks fn headerCb cb (l ++ l') st st'' where
  mono x hx := h'.mono x (h.mono x hx)
  added x := by
    rw [h'.added, h.added]
    have hmono := h.mono x
    have hmono' := h'.mono x
    cases hx : st.1 x <;> cases hx' : st'.1 x <;> simp_all
  reach x hx hnew := by
    rcases hx' : st'.1 x with _ | _
    · exact h'.reach x hx hx'
    · exact h.reach x hx' hnew
  closed x hx hnew y hyx hy := by
    rcases hx' : st'.1 x with _ | _
    · exact h'.closed x hx hx' y hyx hy
    · exact h'.mono y (h.closed x hx' hnew y hyx hy)
  sources y hy hne := by
    rcases List.mem_append.1 hy with hy | hy
    · exact h'.mono y (h.sources y hy hne)
    · exact h'.sources y hy hne

/-- A source that is the header, or marked already. -/
theorem Marks.skip {p : ℕ} (hp : p ≠ headerCb → st.1 p = true) :
    Marks fn headerCb cb [p] st st where
  mono _ h := h
  added x := by simp
  reach x h h' := by simp [h] at h'
  closed x h h' := by simp [h] at h'
  sources y hy hne := by
    obtain rfl := List.mem_singleton.1 hy
    exact hp hne

/-- A source that is marked and gone through. -/
theorem Marks.call {p : ℕ} (hcb : cb ≠ headerCb) (hp : p ≠ headerCb) (harc : fn.Arc p cb)
    (hnew : st.1 p = false) {srcs : List ℕ} (hsrcs : ∀ y, fn.Arc y p → y ∈ srcs)
    (h : Marks fn headerCb p srcs (Function.update st.1 p true, setAdd st.2 p) st') :
    Marks fn headerCb cb [p] st st' := by
  have hmark : st'.1 p = true := h.mono p (Function.update_self ..)
  have hother : ∀ x ≠ p, Function.update st.1 p true x = st.1 x :=
    fun x hx ↦ Function.update_of_ne hx ..
  refine ⟨fun x hx ↦ ?_, fun x ↦ ?_, fun x hx hxnew ↦ ?_, fun x hx hxnew y hyx hy ↦ ?_,
    fun y hy _ ↦ ?_⟩
  · rcases eq_or_ne x p with rfl | hxp
    · exact hmark
    · exact h.mono x ((hother x hxp).trans hx)
  · rw [h.added, mem_setAdd]
    rcases eq_or_ne x p with rfl | hxp
    · simp [hmark, hnew]
    · simp [hxp]
  · rcases eq_or_ne x p with rfl | hxp
    · exact ⟨hp, .single ⟨harc, hcb⟩⟩
    · obtain ⟨hne, hchain⟩ := h.reach x hx ((hother x hxp).trans hxnew)
      exact ⟨hne, hchain.tail ⟨harc, hcb⟩⟩
  · rcases eq_or_ne x p with rfl | hxp
    · exact h.sources y (hsrcs y hyx) hy
    · exact h.closed x hx ((hother x hxp).trans hxnew) y hyx hy
  · rwa [List.mem_singleton.1 hy]

/-- With more fuel than there are unmarked blocks, `addBlocks` marks backward. -/
theorem addBlocks_spec (hcfg : LoopCfg fn first) {fuel : ℕ} (st : (ℕ → Bool) × List ℕ) (hcb : cb ≠ headerCb)
    (hfuel : fn.cbs.countP (fun x ↦ !st.1 x) < fuel) :
    ∃ st', addBlocks fn headerCb fuel cb st = .ok st' ∧
      Marks fn headerCb cb (fn.srcFlow cb) st st' := by
  induction fuel generalizing cb st with
  | zero => exact absurd hfuel (Nat.not_lt_zero _)
  | succ fuel ih =>
    rw [addBlocks]
    refine Run.foldlM_prefix (P := fun done st' ↦ Marks fn headerCb cb done st st') ?_
      (Marks.nil fn headerCb cb st)
    intro done p rest hsrc st' hst'
    by_cases hp : p = headerCb
    · exact ⟨st', if_pos hp, hst'.append (Marks.skip fun hne ↦ absurd hp hne)⟩
    · rcases hnew : st'.1 p with _ | _
      · have harc : fn.Arc p cb := (hcfg.srcFlow p cb).1 (hsrc ▸ by simp)
        have hlt := countP_not_update_lt (hcfg.source p cb harc) hnew
        have hle : fn.cbs.countP (fun x ↦ !st'.1 x) ≤ fn.cbs.countP fun x ↦ !st.1 x :=
          List.countP_mono_left fun x _ hx ↦ by
            have hmono := hst'.mono x
            cases hx' : st.1 x <;> simp_all
        obtain ⟨st₂, hrun, hmarks⟩ := ih (Function.update st'.1 p true, setAdd st'.2 p) hp
          (by
            show fn.cbs.countP (fun y ↦ !Function.update st'.1 p true y) < fuel
            omega)
        refine ⟨st₂, by rw [if_neg hp, if_neg Bool.false_ne_true, hrun], hst'.append ?_⟩
        exact Marks.call hcb hp harc hnew (fun y hy ↦ (hcfg.srcFlow y p).2 hy) hmarks
      · exact ⟨st', by rw [if_neg hp, if_pos rfl], hst'.append (Marks.skip fun _ ↦ hnew)⟩

/-! ### The loops found -/

/-- A loop made of natural loops of back edges to its header, not yet linked. -/
structure LoopOk (fn : LoopFunc) (first : ℕ) (l : Loop) : Prop where
  back : ∀ u ∈ l.backEdgeCb, BackEdge fn.Arc first u l.header
  backEdgeCb_ne : l.backEdgeCb ≠ []
  body : ∀ x, x ∈ l.loopCb ↔ ∃ u ∈ l.backEdgeCb, x ∈ NaturalLoop fn.Arc u l.header
  preheader : l.preheader = none
  parentLoop : l.parentLoop = none
  siblingLoop : l.siblingLoop = none
  childLoop : l.childLoop = none

/-- The header is a block of its loop. -/
theorem LoopOk.header_mem {l : Loop} (h : LoopOk fn first l) : l.header ∈ l.loopCb := by
  obtain ⟨u, hu⟩ := List.exists_mem_of_ne_nil _ h.backEdgeCb_ne
  exact (h.body _).2 ⟨u, hu, Or.inl rfl⟩

/-- So the loop has a block. -/
theorem LoopOk.loopCb_ne {l : Loop} (h : LoopOk fn first l) : l.loopCb ≠ [] :=
  List.ne_nil_of_mem h.header_mem

/-- The natural loop of an arc lies in the control-flow graph. -/
theorem LoopCfg.mem_cbs_of_avoiding (hcfg : LoopCfg fn first) {x h : ℕ}
    (hchain : Relation.ReflTransGen (Avoiding fn.Arc h) x u) (hu : u ∈ fn.cbs) : x ∈ fn.cbs := by
  rcases Relation.ReflTransGen.cases_head hchain with rfl | ⟨y, hxy, -⟩
  · exact hu
  · exact hcfg.source x y hxy.1

/-- The body found for one back edge is the natural loop of that edge. -/
theorem findBlocksInLoop_spec (hcfg : LoopCfg fn first) (l : Loop) (visited : ℕ → Bool)
    (hback : l.backEdgeCb = [u]) (hbody : l.loopCb = []) (hu : u ∈ fn.cbs) :
    ∃ loopCb visited', findBlocksInLoop fn l visited = .ok ({ l with loopCb }, visited') ∧
      ∀ x, x ∈ loopCb ↔ x ∈ NaturalLoop fn.Arc u l.header := by
  by_cases hself : u = l.header
  · refine ⟨setAdd l.loopCb l.header, visited, ?_, fun x ↦ ?_⟩
    · rw [findBlocksInLoop, hback]
      exact if_neg fun hne ↦ hne hself
    · rw [mem_setAdd, hbody, mem_naturalLoop_iff, hself]
      refine ⟨fun h ↦ Or.inl (h.resolve_left List.not_mem_nil), fun h ↦ Or.inr ?_⟩
      -- A chain that avoids the header cannot end at it.
      refine h.elim id fun ⟨hne, hchain⟩ ↦ ?_
      rcases Relation.ReflTransGen.cases_tail hchain with heq | ⟨y, -, hstep⟩
      · exact heq.symm
      · exact absurd rfl hstep.2
  · obtain ⟨st', hrun, hmarks⟩ := addBlocks_spec hcfg
      (resetVisitedFlag fn visited, setAdd (setAdd l.loopCb l.header) u) hself
      (Nat.lt_succ_of_le List.countP_le_length)
    have hreset : ∀ x ∈ fn.cbs, resetVisitedFlag fn visited x = false := fun x hx ↦ if_pos hx
    refine ⟨st'.2, st'.1, ?_, fun x ↦ ?_⟩
    · rw [findBlocksInLoop, hback]
      show (if u ≠ l.header then _ else _) = _
      rw [if_pos hself, hrun]
      rfl
    · rw [hmarks.added, mem_naturalLoop_iff]
      simp only [mem_setAdd, hbody, List.not_mem_nil, false_or]
      constructor
      · rintro ((rfl | rfl) | ⟨hmark, hnew⟩)
        · exact Or.inl rfl
        · exact Or.inr ⟨hself, .refl⟩
        · exact Or.inr (hmarks.reach x hmark hnew)
      · rintro (rfl | ⟨hne, hchain⟩)
        · exact Or.inl (Or.inl rfl)
        · -- Going backward from the source of the back edge, every block is marked.
          suffices h : x = u ∨ st'.1 x = true from h.imp Or.inr fun hmark ↦
            ⟨hmark, hreset x (hcfg.mem_cbs_of_avoiding hchain hu)⟩
          induction hchain using Relation.ReflTransGen.head_induction_on with
          | refl => exact Or.inl rfl
          | @head x y hxy hrest ih =>
            refine Or.inr ?_
            rcases ih hxy.2 with rfl | hmark
            · exact hmarks.sources x ((hcfg.srcFlow x y).2 hxy.1) hne
            · exact hmarks.closed y hmark (hreset y (hcfg.target x y hxy.1)) x hxy.1 hne

/-- A loop of the header `h` that has `u` among its back-edge blocks. -/
def Covers (st : LoopState) (u h : ℕ) : Prop :=
  ∃ id ∈ st.loopList, (st.loop id).header = h ∧ u ∈ (st.loop id).backEdgeCb

/-- The list of loops while back edges are collected. -/
structure Collected (fn : LoopFunc) (first : ℕ) (st : LoopState) : Prop where
  nodup : st.loopList.Nodup
  le_maxLoopId : ∀ id ∈ st.loopList, id ≤ st.maxLoopId
  loop : ∀ id ∈ st.loopList, LoopOk fn first (st.loop id)

/-- One arc of the flow graph: if it is a back edge, its loop is found and the list still covers all
others. -/
theorem loopDetFlow_spec (hcfg : LoopCfg fn first) {st : LoopState} (hst : Collected fn first st)
    {cb1 cb2 : ℕ} (harc : fn.Arc cb1 cb2) :
    ∃ st', loopDetFlow fn cb1 st cb2 = .ok st' ∧ Collected fn first st' ∧
      (∀ u h, Covers st u h → Covers st' u h) ∧
      (Dominates fn.Arc first cb2 cb1 → Covers st' cb1 cb2) := by
  have hcb1 := hcfg.source cb1 cb2 harc
  have hdom := hcfg.dom cb1 hcb1 cb2
  by_cases hin : cb2 ∈ fn.dom cb1
  · obtain ⟨loopCb, visited', hrun, hbody⟩ := findBlocksInLoop_spec hcfg
      { newLoop cb2 with backEdgeCb := setAdd (newLoop cb2).backEdgeCb cb1 } st.visited rfl rfl hcb1
    let l : Loop := { newLoop cb2 with backEdgeCb := [cb1], loopCb := loopCb }
    refine ⟨{ st with
      maxLoopId := st.maxLoopId + 1
      loopList := st.loopList ++ [st.maxLoopId + 1]
      loop := Function.update st.loop (st.maxLoopId + 1) l
      visited := visited' }, ?_, ?_, ?_, ?_⟩
    · rw [loopDetFlow, if_pos hin]
      show (findBlocksInLoop fn _ _ >>= _) = _
      rw [hrun]
      rfl
    · have hfresh : ∀ id ∈ st.loopList, id ≠ st.maxLoopId + 1 := fun id hid heq ↦ by
        have hle := hst.le_maxLoopId id hid
        omega
      refine ⟨?_, fun id hid ↦ ?_, fun id hid ↦ ?_⟩
      · refine List.nodup_append.2 ⟨hst.nodup, List.nodup_singleton _, fun a ha b hb ↦ ?_⟩
        rw [List.mem_singleton.1 hb]
        exact hfresh a ha
      · rcases List.mem_append.1 hid with hid | hid
        · exact (hst.le_maxLoopId id hid).trans (Nat.le_succ _)
        · exact (List.mem_singleton.1 hid).le
      · rcases List.mem_append.1 hid with hid | hid
        · show LoopOk fn first (Function.update st.loop _ _ id)
          rw [Function.update_of_ne (hfresh id hid)]
          exact hst.loop id hid
        · rw [List.mem_singleton.1 hid]
          show LoopOk fn first (Function.update st.loop _ _ _)
          rw [Function.update_self]
          refine ⟨fun u hu ↦ ?_, List.cons_ne_nil _ _, fun x ↦ ?_, rfl, rfl, rfl, rfl⟩
          · rw [show u = cb1 from List.mem_singleton.1 hu]
            exact ⟨harc, hdom.1 hin⟩
          · rw [hbody x]
            exact ⟨fun h ↦ ⟨cb1, List.mem_singleton_self _, h⟩,
              fun ⟨u, hu, h⟩ ↦ List.mem_singleton.1 hu ▸ h⟩
    · rintro u h ⟨id, hid, hhead, hu⟩
      have hne : id ≠ st.maxLoopId + 1 := fun heq ↦ by
        have hle := hst.le_maxLoopId id hid
        omega
      refine ⟨id, List.mem_append_left _ hid, ?_⟩
      show (Function.update st.loop _ _ id).header = h ∧
        u ∈ (Function.update st.loop _ _ id).backEdgeCb
      rw [Function.update_of_ne hne]
      exact ⟨hhead, hu⟩
    · intro _
      refine ⟨st.maxLoopId + 1, List.mem_append_right _ (List.mem_singleton_self _), ?_⟩
      show (Function.update st.loop _ _ _).header = cb2 ∧
        cb1 ∈ (Function.update st.loop _ _ _).backEdgeCb
      rw [Function.update_self]
      exact ⟨rfl, List.mem_singleton_self _⟩
  · exact ⟨st, if_neg hin, hst, fun _ _ h ↦ h, fun h ↦ absurd (hdom.2 h) hin⟩

/-- The first loop of `L_loop_det` finds every back edge. -/
theorem collect_spec (hcfg : LoopCfg fn first) (st : LoopState) :
    ∃ st', fn.cbs.foldlM (fun st cb1 ↦ (fn.destFlow cb1).foldlM (loopDetFlow fn cb1) st)
        { st with maxLoopId := 0, loopList := [] } = .ok st' ∧
      Collected fn first st' ∧ ∀ u h, BackEdge fn.Arc first u h → Covers st' u h := by
  have hflows : ∀ {cb1 : ℕ} {a : LoopState}, Collected fn first a →
      ∃ b, (fn.destFlow cb1).foldlM (loopDetFlow fn cb1) a = .ok b ∧ Collected fn first b ∧
        (∀ u h, Covers a u h → Covers b u h) ∧
        ∀ h ∈ fn.destFlow cb1, Dominates fn.Arc first h cb1 → Covers b cb1 h := by
    intro cb1 a ha
    refine Run.foldlM_prefix
      (P := fun flows st' ↦ Collected fn first st' ∧ (∀ u h, Covers a u h → Covers st' u h) ∧
        ∀ h ∈ flows, Dominates fn.Arc first h cb1 → Covers st' cb1 h) ?_
      ⟨ha, fun _ _ h ↦ h, fun _ h ↦ absurd h List.not_mem_nil⟩
    rintro flows cb2 rest hflows c ⟨hc, hkeep, hnew⟩
    have harc : fn.Arc cb1 cb2 := by
      rw [LoopFunc.Arc, hflows]
      simp
    obtain ⟨d, hrun, hd, hkeep', hnew'⟩ := loopDetFlow_spec hcfg hc harc
    refine ⟨d, hrun, hd, fun u h hu ↦ hkeep' u h (hkeep u h hu), fun h hh hdom ↦ ?_⟩
    rcases List.mem_append.1 hh with hh | hh
    · exact hkeep' cb1 h (hnew h hh hdom)
    · obtain rfl := List.mem_singleton.1 hh
      exact hnew' hdom
  have hcbs := Run.foldlM_prefix
    (P := fun done st' ↦ Collected fn first st' ∧
      ∀ u ∈ done, ∀ h, BackEdge fn.Arc first u h → Covers st' u h)
    (f := fun st cb1 ↦ (fn.destFlow cb1).foldlM (loopDetFlow fn cb1) st) (l := fn.cbs)
    (fun done cb1 rest _ a ha ↦ by
      obtain ⟨b, hrun, hb, hkeep, hnew⟩ := hflows ha.1
      refine ⟨b, hrun, hb, fun u hu h hback ↦ ?_⟩
      rcases List.mem_append.1 hu with hu | hu
      · exact hkeep u h (ha.2 u hu h hback)
      · obtain rfl := List.mem_singleton.1 hu
        exact hnew h hback.1 hback.2)
    (a := { st with maxLoopId := 0, loopList := [] }) ⟨⟨List.nodup_nil,
      fun _ h ↦ absurd h List.not_mem_nil, fun _ h ↦ absurd h List.not_mem_nil⟩,
      fun _ h ↦ absurd h List.not_mem_nil⟩
  obtain ⟨st', hrun, hst', hcovers⟩ := hcbs
  exact ⟨st', hrun, hst', fun u h hback ↦ hcovers u (hcfg.source u h hback.1) h hback⟩

/-! ### Exit blocks -/

/-- The sources and the targets of the arcs that leave a set of blocks. -/
theorem mem_exitBlocks {loopCb : List ℕ} {x : ℕ} :
    (x ∈ (exitBlocks fn loopCb).1 ↔ x ∈ loopCb ∧ ∃ y, fn.Arc x y ∧ y ∉ loopCb) ∧
      (x ∈ (exitBlocks fn loopCb).2 ↔ x ∉ loopCb ∧ ∃ y ∈ loopCb, fn.Arc y x) := by
  have hflows : ∀ (cb : ℕ) (flows : List ℕ) (r : List ℕ × List ℕ),
      (x ∈ (flows.foldl (fun r dst ↦
          if dst ∈ loopCb then r else (setAdd r.1 cb, setAdd r.2 dst)) r).1 ↔
        x ∈ r.1 ∨ x = cb ∧ ∃ y ∈ flows, y ∉ loopCb) ∧
      (x ∈ (flows.foldl (fun r dst ↦
          if dst ∈ loopCb then r else (setAdd r.1 cb, setAdd r.2 dst)) r).2 ↔
        x ∈ r.2 ∨ x ∈ flows ∧ x ∉ loopCb) := by
    intro cb flows
    induction flows with
    | nil => simp
    | cons dst flows ih =>
      intro r
      rw [List.foldl_cons]
      by_cases hdst : dst ∈ loopCb
      · rw [if_pos hdst, (ih r).1, (ih r).2]
        refine ⟨by simp [hdst], ?_⟩
        refine or_congr_right (and_congr_left fun hx ↦ ?_)
        rw [List.mem_cons, or_iff_right fun h : x = dst ↦ hx (h ▸ hdst)]
      · rw [if_neg hdst, (ih _).1, (ih _).2]
        refine ⟨by simp [hdst]; tauto, ?_⟩
        rw [mem_setAdd, List.mem_cons]
        have hout : x = dst → x ∉ loopCb := fun heq ↦ heq ▸ hdst
        tauto
  have hblocks : ∀ (cbs : List ℕ) (r : List ℕ × List ℕ),
      (x ∈ (cbs.foldl (fun r cb ↦ (fn.destFlow cb).foldl (fun r dst ↦
          if dst ∈ loopCb then r else (setAdd r.1 cb, setAdd r.2 dst)) r) r).1 ↔
        x ∈ r.1 ∨ x ∈ cbs ∧ ∃ y, fn.Arc x y ∧ y ∉ loopCb) ∧
      (x ∈ (cbs.foldl (fun r cb ↦ (fn.destFlow cb).foldl (fun r dst ↦
          if dst ∈ loopCb then r else (setAdd r.1 cb, setAdd r.2 dst)) r) r).2 ↔
        x ∈ r.2 ∨ x ∉ loopCb ∧ ∃ y ∈ cbs, fn.Arc y x) := by
    intro cbs
    induction cbs with
    | nil => simp
    | cons cb cbs ih =>
      intro r
      rw [List.foldl_cons, (ih _).1, (ih _).2, (hflows cb _ r).1, (hflows cb _ r).2]
      constructor
      · rw [List.mem_cons, or_and_right, or_assoc]
        refine or_congr_right (or_congr_left (and_congr_right ?_))
        rintro rfl
        rfl
      · rw [List.exists_mem_cons_iff, or_assoc, and_or_left]
        refine or_congr_right (or_congr_left ?_)
        rw [and_comm]
        rfl
  simpa [exitBlocks] using hblocks loopCb ([], [])

/-- The loops, with the exit blocks of those in a list. -/
def exitsOf (fn : LoopFunc) (st : LoopState) (ids : List ℕ) (id : ℕ) : Loop :=
  if id ∈ ids then
    { st.loop id with
      exitCb := (exitBlocks fn (st.loop id).loopCb).1
      outCb := (exitBlocks fn (st.loop id).loopCb).2 }
  else st.loop id

/-- The exit blocks of all loops. Nothing faults, since no loop is empty. -/
theorem findExitBlocksInLoop_eq (fn : LoopFunc) {st : LoopState}
    (hne : ∀ id ∈ st.loopList, (st.loop id).loopCb ≠ []) :
    findExitBlocksInLoop fn st = .ok { st with loop := exitsOf fn st st.loopList } := by
  have hstep : ∀ done id rest, st.loopList = done ++ id :: rest → ∀ {a},
      a = { st with loop := exitsOf fn st done } →
      ∃ b, (if (a.loop id).loopCb = [] then
          .error (.punt "L_find_exit_blocks_in_loop: illegal no. cb in loop")
        else .ok (a.setLoop id { a.loop id with
          exitCb := (exitBlocks fn (a.loop id).loopCb).1
          outCb := (exitBlocks fn (a.loop id).loopCb).2 })) = (.ok b : Run LoopState) ∧
        b = { st with loop := exitsOf fn st (done ++ [id]) } := by
    rintro done id rest hlist a rfl
    have hid : (st.loop id).loopCb ≠ [] := hne id (by rw [hlist]; simp)
    have hbody : (exitsOf fn st done id).loopCb = (st.loop id).loopCb := by
      rw [exitsOf]
      split_ifs <;> rfl
    refine ⟨_, if_neg (hbody ▸ hid), ?_⟩
    refine congrArg (fun f ↦ { st with loop := f }) (funext fun id' ↦ ?_)
    rcases eq_or_ne id' id with rfl | hne'
    · simp only [Function.update_self, exitsOf, List.mem_append, List.mem_singleton, or_true,
        if_true]
      split_ifs <;> rfl
    · simp [exitsOf, hne']
  obtain ⟨st', hrun, rfl⟩ := Run.foldlM_prefix (P := fun done a ↦
    a = { st with loop := exitsOf fn st done }) hstep (a := st)
    (congrArg (fun f ↦ { st with loop := f }) (funext fun _ ↦ rfl))
  exact hrun

/-! ### Merging -/

/-- What merging makes of the loops in `loops`. -/
structure Merged (fn : LoopFunc) (first : ℕ) (loops : List ℕ) (loop : ℕ → Loop)
    (r : (ℕ → Loop) × List ℕ) : Prop where
  sublist : r.2.Sublist loops
  header : ∀ id, (r.1 id).header = (loop id).header
  headers : (r.2.map fun id ↦ (r.1 id).header).Nodup
  frame : ∀ id ∉ loops, r.1 id = loop id
  loopOk : ∀ id ∈ r.2, LoopOk fn first (r.1 id)
  covers : ∀ id ∈ loops, ∀ u ∈ (loop id).backEdgeCb,
    ∃ id' ∈ r.2, (r.1 id').header = (loop id).header ∧ u ∈ (r.1 id').backEdgeCb

/-- Two loops of one header make a loop of that header. -/
theorem LoopOk.merge {l l' : Loop} (h : LoopOk fn first l) (h' : LoopOk fn first l')
    (hhead : l.header = l'.header) :
    LoopOk fn first { l with
      loopCb := setUnion l.loopCb l'.loopCb
      backEdgeCb := setUnion l.backEdgeCb l'.backEdgeCb } where
  back u hu := by
    rcases mem_setUnion.1 hu with hu | hu
    · exact h.back u hu
    · exact hhead ▸ h'.back u hu
  backEdgeCb_ne := by
    obtain ⟨u, hu⟩ := List.exists_mem_of_ne_nil _ h.backEdgeCb_ne
    exact List.ne_nil_of_mem (mem_setUnion.2 (Or.inl hu))
  body x := by
    simp only [mem_setUnion, h.body, h'.body, hhead, or_and_right, exists_or]
  preheader := h.preheader
  parentLoop := h.parentLoop
  siblingLoop := h.siblingLoop
  childLoop := h.childLoop

/-- The inner loop of the merge takes in the loops with the same header and leaves the others as they
are. -/
theorem mergeInto_spec {loop1 : ℕ} {loops : List ℕ} (loop : ℕ → Loop) (hout : loop1 ∉ loops)
    (hloop1 : LoopOk fn first (loop loop1)) (hloops : ∀ id ∈ loops, LoopOk fn first (loop id)) :
    (mergeInto loop1 loops loop).2 =
        loops.filter (fun id ↦ decide ((loop id).header ≠ (loop loop1).header)) ∧
      (∀ id ≠ loop1, (mergeInto loop1 loops loop).1 id = loop id) ∧
      LoopOk fn first ((mergeInto loop1 loops loop).1 loop1) ∧
      ((mergeInto loop1 loops loop).1 loop1).header = (loop loop1).header ∧
      ∀ u, u ∈ ((mergeInto loop1 loops loop).1 loop1).backEdgeCb ↔
        u ∈ (loop loop1).backEdgeCb ∨
          ∃ id ∈ loops, (loop id).header = (loop loop1).header ∧ u ∈ (loop id).backEdgeCb := by
  induction loops generalizing loop with
  | nil => exact ⟨rfl, fun _ _ ↦ rfl, hloop1, rfl, fun u ↦ by simp [mergeInto]⟩
  | cons loop2 loops ih =>
    rw [List.mem_cons, not_or] at hout
    obtain ⟨hloop2, hloops⟩ := List.forall_mem_cons.1 hloops
    by_cases hhead : (loop loop1).header = (loop loop2).header
    · rw [mergeInto, if_neg (not_not.2 hhead)]
      have hself := Function.update_self loop1 { loop loop1 with
        loopCb := setUnion (loop loop1).loopCb (loop loop2).loopCb
        backEdgeCb := setUnion (loop loop1).backEdgeCb (loop loop2).backEdgeCb } loop
      have hother : ∀ id ≠ loop1, Function.update loop loop1 _ id = loop id :=
        fun id hid ↦ Function.update_of_ne hid { loop loop1 with
          loopCb := setUnion (loop loop1).loopCb (loop loop2).loopCb
          backEdgeCb := setUnion (loop loop1).backEdgeCb (loop loop2).backEdgeCb } loop
      obtain ⟨hrest, hframe, hok, hsame, hback⟩ := ih (Function.update loop loop1 _) hout.2
        (by rw [hself]; exact hloop1.merge hloop2 hhead)
        fun id hid ↦ by
          rw [hother id fun heq ↦ hout.2 (heq ▸ hid)]
          exact hloops id hid
      rw [hself] at hsame
      refine ⟨?_, fun id hid ↦ ?_, hok, hsame, fun u ↦ ?_⟩
      · rw [hrest, hself, List.filter_cons_of_neg (by simp [hhead])]
        refine List.filter_congr fun id hid ↦ ?_
        rw [hother id fun heq ↦ hout.2 (heq ▸ hid)]
      · rw [hframe id hid, hother id hid]
      · rw [hback, hself, mem_setUnion, or_assoc, List.exists_mem_cons_iff, ← hhead]
        refine or_congr_right (or_congr (by simp) ?_)
        refine exists_congr fun id ↦ and_congr_right fun hid ↦ ?_
        rw [hother id fun heq ↦ hout.2 (heq ▸ hid)]
    · rw [mergeInto, if_pos hhead]
      obtain ⟨hrest, hframe, hok, hsame, hback⟩ := ih loop hout.2 hloop1 hloops
      refine ⟨?_, hframe, hok, hsame, fun u ↦ ?_⟩
      · rw [List.filter_cons_of_pos (by simpa using Ne.symm hhead), ← hrest]
      · rw [hback, List.exists_mem_cons_iff]
        refine or_congr_right (or_iff_right fun h ↦ hhead h.1.symm).symm

/-- The merge leaves one loop for each header, which has the back edges and blocks of all that had it.
-/
theorem mergeLoops_spec {loops : List ℕ} (loop : ℕ → Loop) (hnodup : loops.Nodup)
    (hloops : ∀ id ∈ loops, LoopOk fn first (loop id)) :
    Merged fn first loops loop (mergeLoops loops loop) := by
  induction loops, loop using mergeLoops.induct with
  | case1 loop =>
    rw [mergeLoops]
    exact ⟨List.Sublist.slnil, fun _ ↦ rfl, List.nodup_nil, fun _ _ ↦ rfl, hloops,
      fun id hid ↦ absurd hid List.not_mem_nil⟩
  | case2 loop1 loops loop r ih =>
    obtain ⟨hout, hnodup⟩ := List.nodup_cons.1 hnodup
    obtain ⟨hloop1, hloops⟩ := List.forall_mem_cons.1 hloops
    obtain ⟨hrest, hframe, hok, hsame, hback⟩ := mergeInto_spec loop hout hloop1 hloops
    have hsub : (mergeInto loop1 loops loop).2.Sublist loops := hrest ▸ List.filter_sublist
    have hother : ∀ id ∈ loops, (mergeInto loop1 loops loop).1 id = loop id :=
      fun id hid ↦ hframe id fun heq ↦ hout (heq ▸ hid)
    have hrec := ih (hnodup.sublist hsub) fun id hid ↦ by
      rw [hother id (hsub.subset hid)]
      exact hloops id (hsub.subset hid)
    have hout' : loop1 ∉ (mergeInto loop1 loops loop).2 := fun h ↦ hout (hsub.subset h)
    have hloop1' : (mergeLoops (mergeInto loop1 loops loop).2 (mergeInto loop1 loops loop).1).1
        loop1 = (mergeInto loop1 loops loop).1 loop1 := hrec.frame loop1 hout'
    rw [mergeLoops]
    refine ⟨(hrec.sublist.trans hsub).cons_cons loop1, fun id ↦ ?_, ?_, fun id hid ↦ ?_, ?_, ?_⟩
    · rw [hrec.header]
      rcases eq_or_ne id loop1 with rfl | hne
      · exact hsame
      · rw [hframe id hne]
    · rw [List.map_cons, List.nodup_cons]
      refine ⟨fun hmem ↦ ?_, hrec.headers⟩
      obtain ⟨id, hid, heq⟩ := List.mem_map.1 hmem
      have hid' := hrec.sublist.subset hid
      rw [hrec.header, hother id (hsub.subset hid'), hloop1', hsame] at heq
      rw [hrest, List.mem_filter] at hid'
      simp [heq] at hid'
    · rw [List.mem_cons, not_or] at hid
      rw [hrec.frame id fun h ↦ hid.2 (hsub.subset h), hframe id hid.1]
    · refine List.forall_mem_cons.2 ⟨?_, hrec.loopOk⟩
      rw [hloop1']
      exact hok
    · intro id hid u hu
      by_cases hhead : (loop id).header = (loop loop1).header
      · refine ⟨loop1, List.mem_cons_self, ?_⟩
        rw [hloop1', hsame, hback]
        refine ⟨hhead.symm, ?_⟩
        rcases List.mem_cons.1 hid with rfl | hid
        · exact Or.inl hu
        · exact Or.inr ⟨id, hid, hhead, hu⟩
      · have hid' : id ∈ loops := (List.mem_cons.1 hid).resolve_left fun heq ↦ hhead (heq ▸ rfl)
        have hmem : id ∈ (mergeInto loop1 loops loop).2 := by
          rw [hrest, List.mem_filter]
          exact ⟨hid', by simpa using hhead⟩
        obtain ⟨id', hid'', heq, hu'⟩ := hrec.covers id hmem u (by rwa [hother id hid'])
        exact ⟨id', List.mem_cons_of_mem loop1 hid'', by rw [heq, hother id hid'], hu'⟩

/-! ### The loops of a function -/

/-- One loop for each header, made of all back edges to it. -/
structure LoopsOk (fn : LoopFunc) (first : ℕ) (st : LoopState) : Prop where
  nodup : st.loopList.Nodup
  loopOk : ∀ id ∈ st.loopList, LoopOk fn first (st.loop id)
  headers : (st.loopList.map fun id ↦ (st.loop id).header).Nodup
  covers : ∀ u h, BackEdge fn.Arc first u h → Covers st u h

/-- The exit blocks do not change whether a loop is right. -/
theorem LoopOk.exitsOf {st : LoopState} {id : ℕ} (h : LoopOk fn first (st.loop id))
    (ids : List ℕ) : LoopOk fn first (exitsOf fn st ids id) := by
  rw [Lcode.exitsOf]
  split_ifs
  · exact ⟨h.back, h.backEdgeCb_ne, h.body, h.preheader, h.parentLoop, h.siblingLoop, h.childLoop⟩
  · exact h

/-- Nor the header. -/
theorem header_exitsOf (st : LoopState) (ids : List ℕ) (id : ℕ) :
    (exitsOf fn st ids id).header = (st.loop id).header := by
  rw [exitsOf]
  split_ifs <;> rfl

/-- Nor the back edges. -/
theorem backEdgeCb_exitsOf (st : LoopState) (ids : List ℕ) (id : ℕ) :
    (exitsOf fn st ids id).backEdgeCb = (st.loop id).backEdgeCb := by
  rw [exitsOf]
  split_ifs <;> rfl

/-- The loops are right after the exit blocks are known. -/
theorem LoopsOk.exitsOf {st : LoopState} (h : LoopsOk fn first st) (ids : List ℕ) :
    LoopsOk fn first { st with loop := exitsOf fn st ids } where
  nodup := h.nodup
  loopOk id hid := (h.loopOk id hid).exitsOf ids
  headers := by
    simp only [header_exitsOf]
    exact h.headers
  covers u hd hback := by
    obtain ⟨id, hid, hhead, hu⟩ := h.covers u hd hback
    exact ⟨id, hid, by rw [header_exitsOf, hhead], by rwa [backEdgeCb_exitsOf]⟩

/-- There is one loop for a header. -/
theorem LoopsOk.id_eq {st : LoopState} (h : LoopsOk fn first st) {id id' : ℕ}
    (hid : id ∈ st.loopList) (hid' : id' ∈ st.loopList)
    (heq : (st.loop id).header = (st.loop id').header) : id = id' :=
  List.inj_on_of_nodup_map h.headers hid hid' heq

/-- The back edges of a loop are those to its header. -/
theorem LoopsOk.mem_backEdgeCb {st : LoopState} (h : LoopsOk fn first st) {id : ℕ}
    (hid : id ∈ st.loopList) :
    u ∈ (st.loop id).backEdgeCb ↔ BackEdge fn.Arc first u (st.loop id).header := by
  refine ⟨(h.loopOk id hid).back u, fun hback ↦ ?_⟩
  obtain ⟨id', hid', hhead, hu⟩ := h.covers u _ hback
  rwa [← h.id_eq hid' hid hhead]

/-- The blocks of a loop are those of the natural loops of its header. -/
theorem LoopsOk.mem_loopCb {st : LoopState} (h : LoopsOk fn first st) {id x : ℕ}
    (hid : id ∈ st.loopList) :
    x ∈ (st.loop id).loopCb ↔ x ∈ LoopBody fn.Arc first (st.loop id).header := by
  rw [(h.loopOk id hid).body]
  exact exists_congr fun u ↦ and_congr_left' (h.mem_backEdgeCb hid)

/-- They are blocks of the function. -/
theorem LoopCfg.mem_cbs_of_mem_loopBody (hcfg : LoopCfg fn first) {x h : ℕ}
    (hx : x ∈ LoopBody fn.Arc first h) : x ∈ fn.cbs := by
  obtain ⟨u, hback, hx⟩ := hx
  rcases mem_naturalLoop_iff.1 hx with rfl | ⟨-, hchain⟩
  · exact hcfg.target u x hback.1
  · exact hcfg.mem_cbs_of_avoiding hchain (hcfg.source u h hback.1)

/-- No loop is removed for a block that its header does not dominate. -/
theorem verifyHeaderDominance_eq (hcfg : LoopCfg fn first) {st : LoopState}
    (h : LoopsOk fn first st) : verifyHeaderDominance fn st = .ok st := by
  have hstep : ∀ done id rest, st.loopList = done ++ id :: rest → ∀ {a : LoopState}, a = st →
      ∃ b, (if (a.loop id).loopCb = [] then
          .error (.punt "L_verify_header_dominance: illegal num_cb")
        else if (a.loop id).loopCb.all fun cb ↦ decide ((a.loop id).header ∈ fn.dom cb) then .ok a
        else .ok { a with loopList := a.loopList.erase id }) = (.ok b : Run LoopState) ∧
        b = st := by
    rintro done id rest hlist a rfl
    have hid : id ∈ a.loopList := by rw [hlist]; simp
    have hdom : ((a.loop id).loopCb.all fun cb ↦ decide ((a.loop id).header ∈ fn.dom cb)) =
        true := by
      refine List.all_eq_true.2 fun cb hcb ↦ decide_eq_true ?_
      have hbody := (h.mem_loopCb hid).1 hcb
      rw [hcfg.dom cb (hcfg.mem_cbs_of_mem_loopBody hbody)]
      exact dominates_of_mem_loopBody hbody
    exact ⟨a, by rw [if_neg (h.loopOk id hid).loopCb_ne, if_pos hdom], rfl⟩
  obtain ⟨st', hrun, rfl⟩ := Run.foldlM_prefix (P := fun _ a ↦ a = st) hstep (a := st) rfl
  exact hrun

/-- `L_loop_det` leaves one loop for each target of back edges. -/
theorem loopDet_spec (hcfg : LoopCfg fn first) (st : LoopState) :
    ∃ st', loopDet fn { st with maxLoopId := 0, loopList := [] } = .ok st' ∧
      LoopsOk fn first st' := by
  obtain ⟨st₁, hrun₁, hst₁, hcovers₁⟩ := collect_spec hcfg st
  have hexits₁ := findExitBlocksInLoop_eq fn
    fun id hid ↦ (hst₁.loop id hid).loopCb_ne
  have hmerged := mergeLoops_spec (exitsOf fn st₁ st₁.loopList) hst₁.nodup
    fun id hid ↦ (hst₁.loop id hid).exitsOf _
  let st₂ : LoopState := { st₁ with
    loop := (mergeLoops st₁.loopList (exitsOf fn st₁ st₁.loopList)).1
    loopList := (mergeLoops st₁.loopList (exitsOf fn st₁ st₁.loopList)).2 }
  have hok : LoopsOk fn first st₂ := by
    refine ⟨hst₁.nodup.sublist hmerged.sublist, hmerged.loopOk, hmerged.headers, fun u h hback ↦ ?_⟩
    obtain ⟨id, hid, rfl, hu⟩ := hcovers₁ u h hback
    obtain ⟨id', hid', hhead, hu'⟩ := hmerged.covers id hid u (by rwa [backEdgeCb_exitsOf])
    exact ⟨id', hid', by rw [hhead, header_exitsOf], hu'⟩
  have hexits₂ : findExitBlocksInLoop fn st₂ = _ :=
    findExitBlocksInLoop_eq fn fun id hid ↦ (hok.loopOk id hid).loopCb_ne
  refine ⟨{ st₂ with loop := exitsOf fn st₂ st₂.loopList }, ?_, hok.exitsOf st₂.loopList⟩
  rw [loopDet, hrun₁, Run.ok_bind, hexits₁, Run.ok_bind]
  show (findExitBlocksInLoop fn st₂ >>= _) = _
  rw [hexits₂, Run.ok_bind]
  exact verifyHeaderDominance_eq hcfg (hok.exitsOf st₂.loopList)

end OpenImpact.Lcode
