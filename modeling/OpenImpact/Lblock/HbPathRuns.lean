import OpenImpact.Lblock.HbPath

/-!
# Runs of the path enumeration

The flags and the sets `B` are the bookkeeping of `Blocking`, restricted to the block set. A call of
`unmark` releases its block, and a call of `findPath` records the simple paths from its block past
the stack.

`findAllPaths_spec` is the main result: the search ends, and lists each simple path from the start
block to the end block through the block set once. It rests on `Blocking.Inv`, from the library of
blocked searches, which says which blocks a release will reach. The region is one whose blocks reach
the end block, no block on the way selects all or no arcs, and there are at most `maxPaths` paths:
beyond that the search stops early by design, and nothing is said of what it has found by then.
-/

namespace OpenImpact.Lblock

variable {blocks : List ℕ} {s s' : HbState}

/-- The flags and the sets `B` of the blocks in the block set. -/
def HbState.blocking (blocks : List ℕ) (s : HbState) : Blocking ℕ where
  blocked := {x | x ∈ blocks ∧ s.visited x = false}
  waiting w := {v | w ∈ blocks ∧ v ∈ s.waiting w}

/-- The sets `B` hold blocks of the block set. -/
def WaitInBlocks (blocks : List ℕ) (s : HbState) : Prop :=
  ∀ w ∈ blocks, ∀ u ∈ s.waiting w, u ∈ blocks

/-- The number of blocks without `L_CB_VISITED`. -/
def numBlocked (blocks : List ℕ) (s : HbState) : ℕ :=
  blocks.countP fun x ↦ !s.visited x

/-! ### `unmark` -/

/-- Marking a block unblocks it. -/
theorem blocking_mark (cb : ℕ) :
    ({ s with visited := Function.update s.visited cb true } : HbState).blocking blocks =
      (s.blocking blocks).unblock cb := by
  refine Blocking.ext (Set.ext fun x ↦ ?_) rfl
  rcases eq_or_ne x cb with rfl | hx
  · simp [HbState.blocking, Blocking.unblock]
  · simp [HbState.blocking, Blocking.unblock, hx]

/-- An entry of a set `B` that is deleted waits no more. -/
theorem blocking_delete (cb i : ℕ) :
    ({ s with waiting := Function.update s.waiting cb (setDelete (s.waiting cb) i) } :
      HbState).blocking blocks = (s.blocking blocks).wake cb i := by
  refine Blocking.ext rfl (funext fun w ↦ Set.ext fun u ↦ ?_)
  rcases eq_or_ne w cb with rfl | hw
  · simp [HbState.blocking, Blocking.wake, mem_setDelete, and_assoc]
  · simp [HbState.blocking, Blocking.wake, hw]

/-- Marking a blocked block leaves fewer blocked ones. -/
theorem numBlocked_mark {cb : ℕ} (hcb : cb ∈ blocks) (hblocked : s.visited cb = false) :
    numBlocked blocks { s with visited := Function.update s.visited cb true } <
      numBlocked blocks s :=
  countP_not_update_lt hcb hblocked

/-- Blocks are only unblocked, and the sets `B` only lose elements. -/
theorem numBlocked_le (h : (s'.blocking blocks).blocked ⊆ (s.blocking blocks).blocked) :
    numBlocked blocks s' ≤ numBlocked blocks s :=
  List.countP_mono_left fun x hx hb ↦ by
    have hmem : x ∈ (s.blocking blocks).blocked := h ⟨hx, by simpa using hb⟩
    simpa using hmem.2

/-- The sets `B` still hold blocks of the block set when they only lose elements. -/
theorem WaitInBlocks.of_subset (h : WaitInBlocks blocks s)
    (hsub : ∀ x, (s'.blocking blocks).waiting x ⊆ (s.blocking blocks).waiting x) :
    WaitInBlocks blocks s' := fun w hw u hu ↦ by
  have hmem : u ∈ (s.blocking blocks).waiting w := hsub w ⟨hw, hu⟩
  exact h w hw u hmem.2

/-- What `unmark` leaves alone. -/
def SameButMarks (s s' : HbState) : Prop :=
  s' = { s with visited := s'.visited, waiting := s'.waiting }

theorem SameButMarks.trans {s'' : HbState} (h : SameButMarks s s') (h' : SameButMarks s' s'') :
    SameButMarks s s'' := by
  rw [SameButMarks, h', h]

/-- With as much fuel as there are blocked blocks, `unmark` releases its block. -/
theorem unmark_spec {fuel cb : ℕ} (hcb : cb ∈ blocks) (hblocked : s.visited cb = false)
    (hwait : WaitInBlocks blocks s) (hfuel : numBlocked blocks s ≤ fuel) :
    ∃ s', unmark fuel cb s = .ok s' ∧
      Blocking.Released {cb} (s.blocking blocks) (s'.blocking blocks) ∧
      s'.visited cb = true ∧ SameButMarks s s' := by
  induction fuel generalizing cb s with
  | zero =>
    have hlt := numBlocked_mark hcb hblocked
    omega
  | succ fuel ih =>
    -- What holds before the elements of `l` are taken off the set of `cb`.
    have hloop : ∀ (l : List ℕ) (s₁ : HbState), (∀ u ∈ l, u ∈ s.waiting cb) →
        Blocking.Releasing cb (s.blocking blocks) (s₁.blocking blocks) →
        (∀ u ∈ s₁.waiting cb, u ∈ l) → numBlocked blocks s₁ ≤ fuel → SameButMarks s s₁ →
        ∃ s', l.foldlM (fun s i ↦
            let s := { s with
              waiting := Function.update s.waiting cb (setDelete (s.waiting cb) i) }
            if !s.visited i then unmark fuel i s else .ok s) s₁ = .ok s' ∧
          Blocking.Releasing cb (s.blocking blocks) (s'.blocking blocks) ∧
          (s'.blocking blocks).waiting cb = ∅ ∧ SameButMarks s s' := by
      intro l
      induction l with
      | nil =>
        intro s₁ _ hrel hleft _ hsame
        refine ⟨s₁, rfl, hrel, Set.eq_empty_iff_forall_notMem.2 fun u hu ↦ ?_, hsame⟩
        exact absurd (hleft u hu.2) List.not_mem_nil
      | cons i l ihl =>
        intro s₁ hmem hrel hleft hnum hsame
        have hi : i ∈ s.waiting cb := hmem i List.mem_cons_self
        have hib : i ∈ blocks := hwait cb hcb i hi
        have hwaiting : i ∈ (s.blocking blocks).waiting cb := ⟨hcb, hi⟩
        let s₂ : HbState :=
          { s₁ with waiting := Function.update s₁.waiting cb (setDelete (s₁.waiting cb) i) }
        have hs₂ : s₂.blocking blocks = (s₁.blocking blocks).wake cb i := blocking_delete cb i
        have hleft₂ : ∀ u ∈ s₂.waiting cb, u ∈ l := fun u hu ↦ by
          have hu' : u ∈ setDelete (s₁.waiting cb) i := by simpa [s₂] using hu
          obtain ⟨hu', hne⟩ := mem_setDelete.1 hu'
          exact (List.mem_cons.1 (hleft u hu')).resolve_left hne
        have hsame₂ : SameButMarks s s₂ := hsame.trans rfl
        rw [List.foldlM_cons]
        show ∃ s', ((if !s₂.visited i then unmark fuel i s₂ else .ok s₂) >>= _) = _ ∧ _
        rcases hvis : s₂.visited i with _ | _
        · have hwait₂ : WaitInBlocks blocks s₂ := hwait.of_subset fun x u hu ↦ by
            rw [hs₂] at hu
            exact hrel.waiting x hu.1
          obtain ⟨s₃, hrun, hreleased, hfree, hsame₃⟩ := ih hib hvis hwait₂ hnum
          rw [hs₂] at hreleased
          have hout : i ∉ (s₃.blocking blocks).blocked := fun h ↦ by
            have hvis' := h.2
            rw [hfree] at hvis'
            cases hvis'
          obtain ⟨s', hrun', hrest⟩ := ihl s₃ (fun u hu ↦ hmem u (List.mem_cons_of_mem i hu))
            (hrel.step hwaiting hreleased hout)
            (fun u hu ↦ by
              have hu₂ : u ∈ ((s₁.blocking blocks).wake cb i).waiting cb :=
                hreleased.waiting cb ⟨hcb, hu⟩
              rw [← hs₂] at hu₂
              exact hleft₂ u hu₂.2)
            ((numBlocked_le (s := s₁) fun x hx ↦ hreleased.blocked hx).trans hnum)
            (hsame₂.trans hsame₃)
          refine ⟨s', ?_, hrest⟩
          rw [Bool.not_false, if_pos rfl, hrun]
          exact hrun'
        · have hout : i ∉ (s₂.blocking blocks).blocked := fun h ↦ by
            have hvis' := h.2
            rw [hvis] at hvis'
            cases hvis'
          rw [hs₂] at hout
          have hrel₂ := hrel.step hwaiting (Blocking.Released.refl {i} _) hout
          rw [← hs₂] at hrel₂
          obtain ⟨s', hrun', hrest⟩ := ihl s₂ (fun u hu ↦ hmem u (List.mem_cons_of_mem i hu))
            hrel₂ hleft₂ hnum hsame₂
          exact ⟨s', hrun', hrest⟩
    have hb : cb ∈ (s.blocking blocks).blocked := ⟨hcb, hblocked⟩
    have hstart := Blocking.releasing_unblock hb
    rw [← blocking_mark] at hstart
    have hnum := numBlocked_mark hcb hblocked
    obtain ⟨s', hrun, hrel, hempty, hsame⟩ := hloop (s.waiting cb) _ (fun _ hu ↦ hu) hstart
      (fun _ hu ↦ hu) (by omega) rfl
    refine ⟨s', hrun, hrel.finish hempty, ?_, hsame⟩
    have hout := hrel.notMem
    by_contra hvis
    exact hout ⟨hcb, by simpa using hvis⟩

/-! ### `findPath` -/

section FindPath

variable {W : Type} [LinearOrder W] {f : HbFunc W} {endCb depth fuel cb : ℕ}

/-- The targets of the flows out of a block. -/
def out (f : HbFunc W) (cb : ℕ) : List ℕ :=
  (f.destFlow cb).map Flow.dstCb

/-- The successors in the block set. -/
def succs (f : HbFunc W) (blocks : List ℕ) (cb : ℕ) : Set ℕ :=
  {w | w ∈ blocks ∧ w ∈ out f cb}

/-- A block set in which no block is skipped. -/
structure Region (f : HbFunc W) (endCb : ℕ) (blocks : List ℕ) : Prop where
  end_mem : endCb ∈ blocks
  hasJrg : ∀ cb ∈ blocks, f.hasJrg cb = false
  hyperblockLoop : ∀ cb ∈ blocks, f.hyperblockLoop cb = false
  weight : ∀ cb ∈ blocks, f.minCbWeight ≤ f.weight cb

omit [LinearOrder W] in
/-- A block without a hazard and without an inner loop is not left out. -/
theorem leftOut_eq_false (hjrg : f.hasJrg cb = false) (hloop : f.hyperblockLoop cb = false) :
    leftOut f cb = false := by
  rw [leftOut, hjrg, hloop]
  rfl

/-- In the region, the search skips the flows that leave it. -/
theorem Region.skipSearch (h : Region f endCb blocks) (dst : ℕ) :
    skipSearch f endCb blocks s dst = decide (dst ∉ blocks) := by
  by_cases hdst : dst ∈ blocks
  · have hlow : ¬f.weight dst < f.minCbWeight := not_lt.2 (h.weight dst hdst)
    simp [Lblock.skipSearch, hdst, hlow, leftOut_eq_false (h.hasJrg dst hdst)
      (h.hyperblockLoop dst hdst)]
  · have hne : dst ≠ endCb := fun heq ↦ hdst (heq ▸ h.end_mem)
    simp [Lblock.skipSearch, hdst, hne]

/-- So does the loop that lets a block wait. -/
theorem Region.skipWait (h : Region f endCb blocks) (dst : ℕ) :
    skipWait f blocks dst = decide (dst ∉ blocks) := by
  by_cases hdst : dst ∈ blocks
  · have hlow : ¬f.weight dst < f.minCbWeight := not_lt.2 (h.weight dst hdst)
    simp [Lblock.skipWait, hdst, hlow, leftOut_eq_false (h.hasJrg dst hdst)
      (h.hyperblockLoop dst hdst)]
  · simp [Lblock.skipWait, hdst]

/-- The invariant of the search between two calls. -/
structure SearchInv (f : HbFunc W) (endCb : ℕ) (blocks : List ℕ) (s : HbState) : Prop where
  inv : (s.blocking blocks).Inv (succs f blocks) endCb s.stack
  waitInBlocks : WaitInBlocks blocks s

/-- The simple paths from a block past a stack, of fewer arcs than a number. -/
abbrev pathsFrom (f : HbFunc W) (endCb : ℕ) (blocks : List ℕ) (n : ℕ) (st : List ℕ) (cb : ℕ) :
    List (List (ℕ × ℕ)) :=
  simplePaths (out f) (fun w ↦ decide (w ∈ blocks)) endCb n st cb

omit [LinearOrder W] in
/-- A blocked block off the stack has no way to the end past the stack. -/
theorem SearchInv.not_isSimpleTail (h : SearchInv f endCb blocks s)
    {p : List (ℕ × ℕ)} {st : List ℕ} (hst : s.stack ⊆ st) (hcb : cb ∈ (s.blocking blocks).blocked)
    (hout : cb ∉ s.stack) :
    ¬IsSimpleTail (out f) (fun w ↦ decide (w ∈ blocks)) endCb st cb p := by
  induction p generalizing st cb with
  | nil =>
    rintro (rfl : cb = endCb)
    exact h.inv.target hout hcb
  | cons a p ih =>
    obtain ⟨i, w⟩ := a
    rintro ⟨-, hi, hok, hw, htail⟩
    have hsucc : w ∈ succs f blocks cb := ⟨of_decide_eq_true hok, List.mem_of_getElem? hi⟩
    have hwout : w ∉ s.stack := fun hmem ↦ hw (List.mem_cons_of_mem cb (hst hmem))
    exact ih (fun x hx ↦ List.mem_cons_of_mem cb (hst hx)) (h.inv.waits cb hcb hout w hsucc).1
      hwout htail

/-- What a call does that is to record some paths, on top of the stack. -/
structure Records (f : HbFunc W) (endCb : ℕ) (blocks : List ℕ) (paths : List (List ℕ))
    (s s' : HbState) : Prop where
  inv : SearchInv f endCb blocks s'
  stack : s'.stack = s.stack
  allPaths : s'.allPaths = s.allPaths ++ paths.map fun p ↦ s.stack.reverse ++ p
  totalPaths : s'.totalPaths = s.totalPaths + paths.length
  blocked : paths = [] → (s.blocking blocks).blocked ⊆ (s'.blocking blocks).blocked

omit [LinearOrder W] in
/-- Nothing has been recorded yet. -/
theorem Records.refl (h : SearchInv f endCb blocks s) : Records f endCb blocks [] s s where
  inv := h
  stack := rfl
  allPaths := by simp
  totalPaths := rfl
  blocked _ := subset_rfl

omit [LinearOrder W] in
/-- Paths recorded one part after the other. -/
theorem Records.trans {s'' : HbState} {ps qs : List (List ℕ)}
    (h : Records f endCb blocks ps s s') (h' : Records f endCb blocks qs s' s'') :
    Records f endCb blocks (ps ++ qs) s s'' where
  inv := h'.inv
  stack := h'.stack.trans h.stack
  allPaths := by rw [h'.allPaths, h.allPaths, h.stack, List.map_append, List.append_assoc]
  totalPaths := by rw [h'.totalPaths, h.totalPaths, List.length_append, add_assoc]
  blocked hnil := by
    obtain ⟨hps, hqs⟩ := List.append_eq_nil_iff.1 hnil
    exact (h.blocked hps).trans (h'.blocked hqs)

/-- The paths along the flows of a block from number `i` on. -/
def pathsAlong (f : HbFunc W) (endCb : ℕ) (blocks : List ℕ) (n : ℕ) (st : List ℕ)
    (fls : List (Flow W)) (i : ℕ) : List (List (ℕ × ℕ)) :=
  ((fls.map Flow.dstCb).zipIdx i).flatMap fun a ↦
    if decide (a.1 ∈ blocks) = true ∧ a.1 ∉ st then
      (pathsFrom f endCb blocks n st a.1).map fun p ↦ (a.2, a.1) :: p
    else []

omit [LinearOrder W] in
/-- The paths through the first flow and through the others. -/
theorem pathsAlong_cons (n : ℕ) (st : List ℕ) (fl : Flow W) (fls : List (Flow W)) (i : ℕ) :
    pathsAlong f endCb blocks n st (fl :: fls) i =
      (if decide (fl.dstCb ∈ blocks) = true ∧ fl.dstCb ∉ st then
        (pathsFrom f endCb blocks n st fl.dstCb).map fun p ↦ (i, fl.dstCb) :: p
      else []) ++ pathsAlong f endCb blocks n st fls (i + 1) := by
  rw [pathsAlong, List.map_cons, List.zipIdx_cons, List.flatMap_cons]
  rfl

/-- A search that records the simple paths of fewer than `n` arcs from a block past the stack. -/
def Finds (f : HbFunc W) (endCb : ℕ) (blocks : List ℕ) (n : ℕ)
    (find : ℕ → HbState → Run (HbState × Bool)) : Prop :=
  ∀ cb s, SearchInv f endCb blocks s → cb ∈ blocks → s.visited cb = true →
    blocks.length < n + s.stack.length →
    s.totalPaths + (pathsFrom f endCb blocks n s.stack cb).length ≤ maxPaths →
    ∃ s', find cb s = .ok (s', decide (pathsFrom f endCb blocks n s.stack cb ≠ [])) ∧
      Records f endCb blocks
        ((pathsFrom f endCb blocks n s.stack cb).map fun p ↦ cb :: p.map Prod.snd) s s' ∧
      (pathsFrom f endCb blocks n s.stack cb = [] → s'.visited cb = false)

/-- What the loop over the flows from number `i` on records. -/
theorem searchFlows_spec {n : ℕ} (maxFl : ℕ) {find : ℕ → HbState → Run (HbState × Bool)}
    (hregion : Region f endCb blocks) (hfind : Finds f endCb blocks n find)
    (fls : List (Flow W)) (i : ℕ) (flag : Bool) (hinv : SearchInv f endCb blocks s)
    (hlen : blocks.length < n + s.stack.length)
    (htotal : s.totalPaths + (pathsAlong f endCb blocks n s.stack fls i).length ≤ maxPaths) :
    ∃ s', searchFlows f find endCb blocks maxFl fls i s flag =
        .ok (s', flag || decide (pathsAlong f endCb blocks n s.stack fls i ≠ [])) ∧
      Records f endCb blocks
        ((pathsAlong f endCb blocks n s.stack fls i).map fun p ↦ p.map Prod.snd) s s' ∧
      (pathsAlong f endCb blocks n s.stack fls i = [] →
        ∀ fl ∈ fls, fl.dstCb ∈ blocks → s'.visited fl.dstCb = false) := by
  induction fls generalizing i flag s with
  | nil =>
    refine ⟨s, ?_, Records.refl hinv, fun _ fl hfl ↦ absurd hfl List.not_mem_nil⟩
    rw [searchFlows]
    simp [pathsAlong]
  | cons fl fls ih =>
    -- A flow that is skipped contributes no path.
    have hskip : (if decide (fl.dstCb ∈ blocks) = true ∧ fl.dstCb ∉ s.stack then
          (pathsFrom f endCb blocks n s.stack fl.dstCb).map fun p ↦ (i, fl.dstCb) :: p
        else []) = [] → (fl.dstCb ∈ blocks → s.visited fl.dstCb = false) →
        searchFlows f find endCb blocks maxFl (fl :: fls) i s flag =
          searchFlows f find endCb blocks maxFl fls (i + 1) s flag →
        ∃ s', searchFlows f find endCb blocks maxFl (fl :: fls) i s flag =
            .ok (s', flag || decide (pathsAlong f endCb blocks n s.stack (fl :: fls) i ≠ [])) ∧
          Records f endCb blocks
            ((pathsAlong f endCb blocks n s.stack (fl :: fls) i).map fun p ↦ p.map Prod.snd)
            s s' ∧
          (pathsAlong f endCb blocks n s.stack (fl :: fls) i = [] →
            ∀ fl' ∈ fl :: fls, fl'.dstCb ∈ blocks → s'.visited fl'.dstCb = false) := by
      intro hnil hfl hrun
      have heq : pathsAlong f endCb blocks n s.stack (fl :: fls) i =
          pathsAlong f endCb blocks n s.stack fls (i + 1) := by
        rw [pathsAlong_cons, hnil, List.nil_append]
      rw [heq] at htotal
      obtain ⟨s', hrest, hrec, hvisited⟩ := ih (i + 1) flag hinv hlen htotal
      refine ⟨s', ?_, ?_, fun hempty fl' hfl' hmem ↦ ?_⟩
      · rw [hrun, hrest, heq]
      · rwa [heq]
      · rw [heq] at hempty
        rcases List.mem_cons.1 hfl' with rfl | hfl'
        · have hb : fl'.dstCb ∈ (s.blocking blocks).blocked := ⟨hmem, hfl hmem⟩
          exact (hrec.blocked (by rw [hempty]; rfl) hb).2
        · exact hvisited hempty fl' hfl' hmem
    by_cases hmem : fl.dstCb ∈ blocks
    · have hpass : skipSearch f endCb blocks s fl.dstCb = false := by
        rw [hregion.skipSearch, decide_eq_false_iff_not, not_not]
        exact hmem
      rcases hvis : s.visited fl.dstCb with _ | _
      · -- The block is on the stack, or has no way to the end past it.
        refine hskip ?_ (fun _ ↦ hvis) ?_
        · rw [ite_eq_right_iff]
          rintro ⟨-, hout⟩
          rw [List.map_eq_nil_iff, List.eq_nil_iff_forall_not_mem]
          intro p hp
          have hb : fl.dstCb ∈ (s.blocking blocks).blocked := ⟨hmem, hvis⟩
          exact hinv.not_isSimpleTail (List.Subset.refl _) hb hout (mem_simplePaths.1 hp).2
        · rw [searchFlows, hpass, if_neg Bool.false_ne_true, hvis, if_pos (by rfl)]
      · have hout : fl.dstCb ∉ s.stack := fun h ↦ by
          have hb := (hinv.inv.onStack _ h).2
          rw [hvis] at hb
          cases hb
        have heq : pathsAlong f endCb blocks n s.stack (fl :: fls) i =
            ((pathsFrom f endCb blocks n s.stack fl.dstCb).map fun p ↦ (i, fl.dstCb) :: p) ++
              pathsAlong f endCb blocks n s.stack fls (i + 1) := by
          rw [pathsAlong_cons, if_pos ⟨decide_eq_true hmem, hout⟩]
        rw [heq, List.length_append, List.length_map] at htotal
        obtain ⟨s₁, hrun₁, hrec₁, hfree₁⟩ := hfind fl.dstCb s hinv hmem hvis hlen (by omega)
        have hlength := hrec₁.totalPaths
        rw [List.length_map] at hlength
        have hstack := hrec₁.stack
        obtain ⟨s', hrun, hrec, hfree⟩ := ih (i + 1)
          (flag || decide (pathsFrom f endCb blocks n s.stack fl.dstCb ≠ [])) hrec₁.inv
          (by rw [hstack]; exact hlen) (by rw [hstack]; omega)
        rw [hstack] at hrun hrec hfree
        refine ⟨s', ?_, ?_, fun hempty fl' hfl' hmem' ↦ ?_⟩
        · have hfew : ¬s.totalPaths > maxPaths := by omega
          rw [searchFlows, hpass, if_neg Bool.false_ne_true, hvis, if_neg (by decide),
            if_neg fun h ↦ hfew h.1, if_neg fun h ↦ hfew h.1, hrun₁, Run.ok_bind]
          refine hrun.trans ?_
          rw [heq]
          simp [Bool.or_assoc, List.append_eq_nil_iff]
        · rw [heq, List.map_append, List.map_map]
          exact hrec₁.trans hrec
        · rw [heq, List.append_eq_nil_iff, List.map_eq_nil_iff] at hempty
          rcases List.mem_cons.1 hfl' with rfl | hfl'
          · have hb : fl'.dstCb ∈ (s₁.blocking blocks).blocked := ⟨hmem', hfree₁ hempty.1⟩
            exact (hrec.blocked (by rw [hempty.2]; rfl) hb).2
          · exact hfree hempty.2 fl' hfl' hmem'
    · refine hskip ?_ (fun h ↦ absurd h hmem) ?_
      · rw [if_neg fun h ↦ hmem (of_decide_eq_true h.1)]
      · rw [searchFlows, if_pos (by rw [hregion.skipSearch]; exact decide_eq_true hmem)]

omit [LinearOrder W] in
/-- The paths from a block, with its own flows. -/
theorem pathsFrom_succ (n : ℕ) (st : List ℕ) :
    pathsFrom f endCb blocks (n + 1) st cb =
      if cb = endCb then [[]] else pathsAlong f endCb blocks n (cb :: st) (f.destFlow cb) 0 := by
  rw [pathsFrom, simplePaths]
  rfl

/-- What the search at the block on top of the stack records. -/
theorem searchBlock_spec {n : ℕ} {find : ℕ → HbState → Run (HbState × Bool)} {st : List ℕ}
    (hregion : Region f endCb blocks) (hfind : Finds f endCb blocks n find)
    (hinv : SearchInv f endCb blocks s) (hstack : s.stack = cb :: st)
    (hlen : blocks.length < n + s.stack.length)
    (htotal : s.totalPaths + (pathsFrom f endCb blocks (n + 1) st cb).length ≤ maxPaths) :
    ∃ s', searchBlock f find endCb blocks cb s =
        .ok (s', decide (pathsFrom f endCb blocks (n + 1) st cb ≠ [])) ∧
      Records f endCb blocks
        ((pathsFrom f endCb blocks (n + 1) st cb).map fun p ↦ p.map Prod.snd) s s' ∧
      (pathsFrom f endCb blocks (n + 1) st cb = [] →
        cb ≠ endCb ∧ ∀ w ∈ succs f blocks cb, s'.visited w = false) := by
  rw [pathsFrom_succ] at htotal ⊢
  rw [searchBlock]
  by_cases hend : cb = endCb
  · rw [if_pos hend, if_pos hend]
    refine ⟨recordPath f s, rfl, ⟨⟨hinv.inv, hinv.waitInBlocks⟩, rfl, ?_, rfl, ?_⟩, ?_⟩
    · simp [recordPath]
    · exact fun h ↦ absurd h (List.cons_ne_nil _ _)
    · exact fun h ↦ absurd h (List.cons_ne_nil _ _)
  · rw [if_neg hend] at htotal ⊢
    rw [if_neg hend, ← hstack] at *
    have hsucc : ∀ {s' : HbState},
        (∀ fl ∈ f.destFlow cb, fl.dstCb ∈ blocks → s'.visited fl.dstCb = false) →
        ∀ w ∈ succs f blocks cb, s'.visited w = false := fun h w hw ↦ by
      obtain ⟨fl, hfl, rfl⟩ := List.mem_map.1 hw.2
      exact h fl hfl hw.1
    cases hflows : f.destFlow cb with
    | nil =>
      refine ⟨s, rfl, Records.refl hinv, fun _ ↦ ⟨hend, hsucc fun fl hfl ↦ ?_⟩⟩
      rw [hflows] at hfl
      exact absurd hfl List.not_mem_nil
    | cons fl fls =>
      rw [hflows] at htotal
      obtain ⟨s', hrun, hrec, hfree⟩ := searchFlows_spec
        (maxFlow (fl :: fls) 0 0 fl.weight) hregion hfind (fl :: fls) 0 false hinv hlen htotal
      refine ⟨s', ?_, hrec, fun hempty ↦ ⟨hend, hsucc fun fl' hfl' ↦ ?_⟩⟩
      · rw [Bool.false_or] at hrun
        exact hrun
      · exact hfree hempty fl' (hflows ▸ hfl')

/-- Which blocks wait at which after a search that found no path. -/
theorem mem_foldl_setAdd (hregion : Region f endCb blocks) (fls : List (Flow W))
    (B : ℕ → List ℕ) {w u : ℕ} :
    u ∈ fls.foldl (fun B fl ↦ if skipWait f blocks fl.dstCb then B
        else Function.update B fl.dstCb (setAdd (B fl.dstCb) cb)) B w ↔
      u ∈ B w ∨ (w ∈ blocks ∧ w ∈ fls.map Flow.dstCb) ∧ u = cb := by
  induction fls generalizing B with
  | nil => simp
  | cons fl fls ih =>
    rw [List.foldl_cons, ih, hregion.skipWait, List.map_cons, List.mem_cons]
    by_cases hdst : fl.dstCb ∈ blocks
    · rcases eq_or_ne w fl.dstCb with rfl | hw
      · rw [if_neg (by simp [hdst]), Function.update_self, mem_setAdd]
        tauto
      · simp [hdst, hw]
    · have hne : w ∈ blocks → w ≠ fl.dstCb := fun hw heq ↦ hdst (heq ▸ hw)
      rw [if_pos (decide_eq_true hdst)]
      refine or_congr_right (and_congr_left' (and_congr_right fun hw ↦ ?_))
      exact ⟨Or.inr, fun h ↦ h.resolve_left (hne hw)⟩

/-- A block that stays blocked waits at its successors. -/
theorem blocking_wait (hregion : Region f endCb blocks) :
    ({ s with
      waiting := (f.destFlow cb).foldl (fun B fl ↦
        if skipWait f blocks fl.dstCb then B
        else Function.update B fl.dstCb (setAdd (B fl.dstCb) cb)) s.waiting } :
      HbState).blocking blocks =
      { s.blocking blocks with
        waiting := fun w ↦
          {u | u ∈ (s.blocking blocks).waiting w ∨ w ∈ succs f blocks cb ∧ u = cb} } := by
  refine Blocking.ext rfl (funext fun w ↦ Set.ext fun u ↦ ?_)
  simp only [HbState.blocking, mem_foldl_setAdd hregion, succs, out, Set.mem_ofPred_eq]
  tauto

/-- The end of the search at the block on top of the stack. -/
theorem closeBlock_spec {st : List ℕ} (flag : Bool) (hregion : Region f endCb blocks)
    (hinv : SearchInv f endCb blocks s) (hstack : s.stack = cb :: st)
    (hdepth : blocks.length ≤ depth)
    (hfail : flag = false → cb ≠ endCb ∧ ∀ w ∈ succs f blocks cb, s.visited w = false) :
    ∃ s', closeBlock f blocks depth cb s flag = .ok s' ∧
      SearchInv f endCb blocks { s' with stack := st } ∧ SameButMarks s s' ∧
      (flag = false → s'.visited = s.visited) := by
  obtain ⟨hinv, hwait⟩ := hinv
  rw [hstack] at hinv
  obtain ⟨hcb, hblocked⟩ := hinv.onStack cb List.mem_cons_self
  cases flag with
  | true =>
    obtain ⟨s', hrun, hreleased, hvisited, hsame⟩ :=
      unmark_spec hcb hblocked hwait (List.countP_le_length.trans hdepth)
    refine ⟨s', hrun, ⟨?_, ?_⟩, hsame, fun h ↦ nomatch h⟩
    · refine hinv.release hreleased fun h ↦ ?_
      have hvis := h.2
      rw [hvisited] at hvis
      cases hvis
    · show WaitInBlocks blocks s'
      exact hwait.of_subset hreleased.waiting
  | false =>
    obtain ⟨hend, hsucc⟩ := hfail rfl
    refine ⟨_, rfl, ⟨?_, fun w hw u hu ↦ ?_⟩, rfl, fun _ ↦ rfl⟩
    · have hinv' := hinv.wait hend fun w hw ↦ ⟨hw.1, hsucc w hw⟩
      rw [← blocking_wait hregion] at hinv'
      exact hinv'
    · rcases (mem_foldl_setAdd hregion _ _).1 hu with hu | ⟨-, rfl⟩
      · exact hwait w hw u hu
      · exact hcb

omit [LinearOrder W] in
/-- The stack is no longer than the block set. -/
theorem SearchInv.length_le (h : SearchInv f endCb blocks s) : s.stack.length ≤ blocks.length :=
  (h.inv.nodup.subperm fun u hu ↦ (h.inv.onStack u hu).1).length_le

/-- **The search from a block** records the simple paths from there. -/
theorem findPath_spec (hregion : Region f endCb blocks) (hdepth : blocks.length ≤ depth) :
    Finds f endCb blocks fuel (findPath f endCb blocks depth fuel) := by
  induction fuel with
  | zero =>
    intro cb s hinv _ _ hlen
    have hle := hinv.length_le
    omega
  | succ n ih =>
    intro cb s hinv hcb hvis hlen htotal
    let s₀ : HbState :=
      { s with stack := cb :: s.stack, visited := Function.update s.visited cb false }
    have hblocking : s₀.blocking blocks =
        { s.blocking blocks with blocked := insert cb (s.blocking blocks).blocked } := by
      refine Blocking.ext (Set.ext fun x ↦ ?_) rfl
      rcases eq_or_ne x cb with rfl | hx
      · simp [HbState.blocking, s₀, hcb]
      · simp [HbState.blocking, s₀, hx]
    have hfree : cb ∉ (s.blocking blocks).blocked := fun h ↦ by
      have hb := h.2
      rw [hvis] at hb
      cases hb
    have hinv₀ : SearchInv f endCb blocks s₀ :=
      ⟨hblocking ▸ hinv.inv.push hfree, hinv.waitInBlocks⟩
    obtain ⟨s₁, hrun₁, hrec₁, hfail⟩ := searchBlock_spec hregion ih hinv₀ rfl
      (by rw [List.length_cons]; omega) htotal
    obtain ⟨s₂, hrun₂, hinv₂, hsame, hkeep⟩ := closeBlock_spec
      (decide (pathsFrom f endCb blocks (n + 1) s.stack cb ≠ [])) hregion hrec₁.inv hrec₁.stack
      hdepth fun h ↦ hfail (by simpa using h)
    have hstack₂ : s₂.stack = cb :: s.stack := by
      rw [hsame]
      exact hrec₁.stack
    -- Without a path the blocked blocks stay blocked, and the block stays so too.
    have hblocked : pathsFrom f endCb blocks (n + 1) s.stack cb = [] →
        (s₀.blocking blocks).blocked ⊆ (s₂.blocking blocks).blocked := fun hempty x hx ↦ by
      obtain ⟨hxb, hx₁⟩ := hrec₁.blocked (by rw [hempty]; rfl) hx
      exact ⟨hxb, by rw [hkeep (by simpa using hempty)]; exact hx₁⟩
    refine ⟨{ s₂ with stack := s.stack }, ?_, ⟨hinv₂, rfl, ?_, ?_, fun hempty x hx ↦ ?_⟩,
      fun hempty ↦ ?_⟩
    · rw [findPath, hrun₁, Run.ok_bind]
      show (closeBlock f blocks depth cb s₁ _ >>= _) = _
      rw [hrun₂, Run.ok_bind, hstack₂]
      rfl
    · show s₂.allPaths = _
      rw [hsame]
      show s₁.allPaths = _
      rw [hrec₁.allPaths, List.map_map, List.map_map]
      refine congrArg _ (List.map_congr_left fun p _ ↦ ?_)
      simp [s₀]
    · show s₂.totalPaths = _
      rw [hsame]
      show s₁.totalPaths = _
      rw [hrec₁.totalPaths, List.length_map, List.length_map]
    · rw [List.map_eq_nil_iff] at hempty
      refine hblocked hempty ?_
      rw [hblocking]
      exact Set.mem_insert_of_mem cb hx
    · have hb : cb ∈ (s₀.blocking blocks).blocked := by
        rw [hblocking]
        exact Set.mem_insert cb _
      exact (hblocked hempty hb).2

/-! ### `findAllPaths` -/

/-- Before a search all blocks are marked. -/
theorem initSearch_visited (hcb : cb ∈ blocks) : (initSearch blocks s).visited cb = true :=
  if_pos hcb

/-- And nothing waits at them. -/
theorem initSearch_waiting (hcb : cb ∈ blocks) : (initSearch blocks s).waiting cb = [] :=
  if_pos hcb

/-- No block is blocked before a search. -/
theorem notMem_blocked_initSearch : cb ∉ ((initSearch blocks s).blocking blocks).blocked :=
  fun h ↦ by
    have hvis := h.2
    rw [initSearch_visited h.1] at hvis
    cases hvis

/-- Nothing waits. -/
theorem waiting_initSearch (w : ℕ) : ((initSearch blocks s).blocking blocks).waiting w = ∅ :=
  Set.eq_empty_iff_forall_notMem.2 fun u hu ↦ by
    have hmem := hu.2
    rw [initSearch_waiting hu.1] at hmem
    exact absurd hmem List.not_mem_nil

omit [LinearOrder W] in
/-- So the invariant holds before the search. -/
theorem searchInv_initSearch : SearchInv f endCb blocks (initSearch blocks s) where
  inv :=
    { waiting_eq := fun w _ ↦ waiting_initSearch w
      onStack := fun u hu ↦ absurd hu List.not_mem_nil
      target := fun _ ↦ notMem_blocked_initSearch
      waits := fun v hv ↦ absurd hv notMem_blocked_initSearch
      wakes := fun y rest hsuffix ↦ absurd (List.suffix_nil.1 hsuffix) (List.cons_ne_nil y rest)
      nodup := List.nodup_nil }
  waitInBlocks w hw u hu := by
    rw [initSearch_waiting hw] at hu
    exact absurd hu List.not_mem_nil

/-- The search returns and records each simple path once, as the sequence of its blocks. -/
theorem findAllPaths_spec {start : ℕ} (hregion : Region f endCb blocks) (hstart : start ∈ blocks)
    (hselectAll : f.selectAll start = false) (hselectExact : f.selectExact start = false)
    (hignore : f.ignore start = false) (hignoreEnd : f.ignore endCb = false)
    (hmax : {p | IsSimplePath (out f) (fun w ↦ decide (w ∈ blocks)) endCb start p}.encard ≤
      maxPaths) (s : HbState) :
    ∃ ps : List (List (ℕ × ℕ)), ps.Nodup ∧
      (∀ p, p ∈ ps ↔ IsSimplePath (out f) (fun w ↦ decide (w ∈ blocks)) endCb start p) ∧
      findAllPaths f start endCb blocks s = .ok (ps.map fun p ↦ start :: p.map Prod.snd) := by
  have hblocks : ∀ w, decide (w ∈ blocks) = true → w ∈ blocks := fun w ↦ of_decide_eq_true
  have hlen : blocks.length < blocks.length + 1 := Nat.lt_succ_self _
  refine ⟨pathsFrom f endCb blocks (blocks.length + 1) [] start, nodup_simplePaths _ _ _,
    fun p ↦ mem_simplePaths_iff hblocks hlen, ?_⟩
  rw [encard_isSimplePath hblocks hlen, Nat.cast_le] at hmax
  obtain ⟨s', hrun, hrec, -⟩ := findPath_spec hregion (Nat.le_succ blocks.length) start
    (initSearch blocks s) searchInv_initSearch hstart (initSearch_visited hstart) hlen
    (by rw [initSearch, Nat.zero_add]; exact hmax)
  rw [findAllPaths, hselectAll, hselectExact, hignore, hignoreEnd, hregion.hasJrg start hstart,
    hregion.hasJrg endCb hregion.end_mem, if_neg (by decide), hrun]
  show Except.ok s'.allPaths = _
  rw [hrec.allPaths]
  simp [initSearch]

end FindPath

/-- Two flows from block `0` to block `1`, a cycle of the two blocks, a self loop and a way out. -/
def cyclicRegion : HbFunc ℕ where
  destFlow := fun
    | 0 => [⟨1, 5⟩, ⟨1, 6⟩, ⟨0, 1⟩]
    | 1 => [⟨0, 2⟩, ⟨2, 3⟩, ⟨7, 1⟩]
    | _ => []
  weight _ := 1
  hasJrg _ := false
  hyperblockLoop _ := false
  markedForLoopPeel _ := false
  selectAll _ := false
  selectExact _ := false
  ignore _ := false
  minCbWeight := 0
  minRatioSensOpct := false

/-- The region of the cycle. -/
theorem region_cyclicRegion : Region cyclicRegion 2 [0, 1, 2] :=
  ⟨by decide, fun _ _ ↦ rfl, fun _ _ ↦ rfl, fun _ _ ↦ Nat.zero_le _⟩

/-- Its paths, with the search that finds them. -/
theorem findAllPaths_spec_cyclic : ∃ ps : List (List (ℕ × ℕ)), ps.Nodup ∧
    (∀ p, p ∈ ps ↔ IsSimplePath (out cyclicRegion) (fun w ↦ decide (w ∈ [0, 1, 2])) 2 0 p) ∧
    findAllPaths cyclicRegion 0 2 [0, 1, 2] (initSearch [] ⟨fun _ ↦ false, fun _ ↦ [], [], [], 0, 0,
      [], false⟩) = .ok (ps.map fun p ↦ 0 :: p.map Prod.snd) :=
  findAllPaths_spec region_cyclicRegion (by decide) rfl rfl rfl rfl
    (by
      rw [encard_isSimplePath (n := 4) (fun w ↦ of_decide_eq_true) (by decide)]
      exact Nat.cast_le.2 (by decide)) _

end OpenImpact.Lblock
