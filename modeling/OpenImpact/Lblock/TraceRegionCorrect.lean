import OpenImpact.Lblock.TraceRegionForm
import Mathlib.Data.List.Induction
import Mathlib.Logic.Relation

/-!
# Removing regions with common blocks

What the two passes leave of a list of trace regions. Every region removed has a block in common with one
that is still in the list, and no region is used after it has been freed. The regions left are pairwise
disjoint as long as the test for a common block finds one whenever there is one, which fails for a region
with a loop in it whose blocks come behind the `STOP` node (`leavesDisjoint_iff`).

What the passes do to a list of regions is the pair of functions `removeSubsumed` and
`removeConflicting` on lists, which the cursor loops compute (`removeTraceregions_spec`). The
theorem rests on two facts of them: each removal has a witness that is kept (`Removals`), and no two
regions that are kept fail the second test. That a region is well formed is what making it gives
(`createTraceregion_wf`). The theorem is for all lists of some of the regions at once. One list alone
can come out right although a test misses a common block, when a third region removes one of the two;
that is not described here.
-/

namespace OpenImpact.Lblock

open Foundation

/-! ### The blocks of a region -/

/-- The blocks up to the first node that is none. -/
def seenCbs : List BB → List CbId
  | .cb id :: rest => id :: seenCbs rest
  | _ => []

/-- The blocks that a loop over the region goes through. -/
def TraceRegion.seen (tr : TraceRegion) : List CbId := seenCbs tr.topoList.tail

/-- A common block. -/
def Shares (trA trB : TraceRegion) : Prop :=
  ∃ id, returnCbInRegion trA id ∧ returnCbInRegion trB id

/-- A common block that a loop over the second region meets. -/
def Meets (trA trB : TraceRegion) : Prop := ∃ id ∈ trB.seen, returnCbInRegion trA id

instance (trA trB : TraceRegion) : Decidable (Meets trA trB) :=
  inferInstanceAs (Decidable (∃ id ∈ trB.seen, _))

/-- What removes `tr` in the first pass. -/
def TraceRegion.Subsumes (index tr : TraceRegion) : Prop :=
  Meets tr index ∧ ¬ tr.seen.all (returnCbInRegion index) ∧
    (returnCbInRegion index tr.header &&
      (!returnCbInRegion tr index.header || graphSize tr < graphSize index))

instance (index tr : TraceRegion) : Decidable (index.Subsumes tr) :=
  inferInstanceAs (Decidable (_ ∧ _ ∧ _))

theorem Shares.symm {trA trB : TraceRegion} (h : Shares trA trB) : Shares trB trA := by
  obtain ⟨id, hA, hB⟩ := h
  exact ⟨id, hB, hA⟩

/-- The blocks that are met are blocks of the list. -/
theorem mem_of_mem_seenCbs {l : List BB} {id : CbId} (h : id ∈ seenCbs l) : .cb id ∈ l := by
  induction l with
  | nil => simp [seenCbs] at h
  | cons n rest ih =>
    cases n with
    | start => simp [seenCbs] at h
    | stop => simp [seenCbs] at h
    | cb c =>
      rw [seenCbs, List.mem_cons] at h
      rcases h with rfl | h
      · exact List.mem_cons_self
      · exact List.mem_cons_of_mem _ (ih h)

/-- Without a `START` node in it, the rest of the list is gone through up to the first node that is no
block. -/
theorem cbsInRegion_eq {rest : List BB} (h : .start ∉ rest) :
    cbsInRegion rest = .ok (seenCbs rest) := by
  induction rest with
  | nil => rfl
  | cons n rest ih =>
    rw [List.mem_cons, not_or] at h
    cases n with
    | start => exact absurd rfl h.1
    | stop => rfl
    | cb c => rw [cbsInRegion, ih h.2]; rfl

namespace TraceRegion.WF

variable {tr trA trB : TraceRegion}

/-- A loop over a region goes through the blocks up to the `STOP` node. -/
theorem cbsInRegion (h : tr.WF) : cbsInRegion tr.topoList = .ok tr.seen := by
  obtain ⟨n, rest, htopo, hn, hrest⟩ := h.sorted
  rw [seen, htopo]
  rcases hn with rfl | rfl
  · rfl
  · rw [Lblock.cbsInRegion, cbsInRegion_eq hrest]
    rfl

/-- These are blocks of the region. -/
theorem mem_of_seen (h : tr.WF) {id : CbId} (hid : id ∈ tr.seen) : returnCbInRegion tr id :=
  h.mem id (List.mem_of_mem_tail (mem_of_mem_seenCbs hid))

/-- If the loop meets any block, it meets the header. -/
theorem header_mem_seen (h : tr.WF) {id : CbId} (hid : id ∈ tr.seen) : tr.header ∈ tr.seen := by
  obtain ⟨n, rest, htopo, hn, -⟩ := h.sorted
  rw [seen, htopo] at hid ⊢
  rcases hn with rfl | rfl
  · simp [seenCbs] at hid
  · simp [seenCbs]

/-- A common block that is met is one. -/
theorem shares_of_meets (hB : trB.WF) (h : Meets trA trB) : Shares trA trB := by
  obtain ⟨id, hid, hA⟩ := h
  exact ⟨id, hA, hB.mem_of_seen hid⟩

/-- `LB_traceregions_intersection_empty` says whether the loop meets a common block. -/
theorem intersectionEmpty (hB : trB.WF) :
    intersectionEmpty trA trB = .ok (decide (¬ Meets trA trB)) := by
  rw [Lblock.intersectionEmpty, hB.cbsInRegion, Run.ok_bind]
  have hmeets : Meets trA trB ↔ trB.seen.any (returnCbInRegion trA) = true := List.any_eq_true.symm
  by_cases h : Meets trA trB
  · simp [h, hmeets.1 h]
  · have hany : trB.seen.any (returnCbInRegion trA) = false := by
      rwa [hmeets, Bool.not_eq_true] at h
    simp [h, hany]

/-- `LB_tr_is_subset` looks only at the blocks that it meets. -/
theorem trIsSubset (hB : trB.WF) :
    trIsSubset trA trB = .ok (trB.seen.all (returnCbInRegion trA)) := by
  rw [Lblock.trIsSubset, hB.cbsInRegion, Run.ok_bind]

/-- The condition of the first pass, as the code tests it. -/
theorem partiallySubsumes (hA : trA.WF) (hB : trB.WF) :
    partiallySubsumes trA trB = .ok (decide (trA.Subsumes trB)) := by
  rw [Lblock.partiallySubsumes, hA.intersectionEmpty, Run.ok_bind, hB.trIsSubset]
  by_cases hmeets : Meets trB trA
  · by_cases hsub : trB.seen.all (returnCbInRegion trA) = true
    · simp [hmeets, hsub, Subsumes]
    · simp [hmeets, hsub, Subsumes]
  · simp [hmeets, Subsumes]

end TraceRegion.WF

/-! ### The passes on a list of regions -/

section Passes

variable (reg : Addr → TraceRegion)

/-- The first pass, with the regions it has kept. -/
def removeSubsumed (done : List Addr) : List Addr → List Addr
  | [] => done
  | tr :: todo =>
    if ∃ index ∈ done ++ tr :: todo, index ≠ tr ∧ TraceRegion.Subsumes (reg index) (reg tr)
    then removeSubsumed done todo else removeSubsumed (done ++ [tr]) todo

/-- The second pass for one `trA`: whether it is kept, and what is left of the regions behind. -/
def removeFor (trA : Addr) (seen : List Addr) : List Addr → Bool × List Addr
  | [] => (true, seen)
  | trB :: rest =>
    if Meets (reg trA) (reg trB) then
      if yields (reg trA) (reg trB) then (false, seen ++ trB :: rest) else removeFor trA seen rest
    else removeFor trA (seen ++ [trB]) rest

/-- The loop for one region does not make the list longer. -/
theorem removeFor_length_le (trA : Addr) (seen rest : List Addr) :
    (removeFor reg trA seen rest).2.length ≤ seen.length + rest.length := by
  induction rest generalizing seen with
  | nil => exact le_rfl
  | cons trB rest ih =>
    rw [removeFor]
    split_ifs
    · simp
    · refine (ih _).trans ?_
      simp
    · refine (ih _).trans ?_
      simp
      omega

/-- `trA` among the regions that are left. -/
def keep (trA : Addr) : Bool → List Addr
  | true => [trA]
  | false => []

/-- The second pass, with the regions it has kept. -/
def removeConflicting (done : List Addr) : List Addr → List Addr
  | [] => done
  | trA :: rest =>
    let p := removeFor reg trA [] rest
    have : p.2.length < rest.length + 1 :=
      Nat.lt_succ_of_le (by simpa using removeFor_length_le reg trA [] rest)
    removeConflicting (done ++ keep trA p.1) p.2
  termination_by l => l.length
  decreasing_by exact this

/-- One region is removed that has a block in common with another one. -/
def Removes (trs trs' : List Addr) : Prop :=
  ∃ as tr bs, trs = as ++ tr :: bs ∧ trs' = as ++ bs ∧
    ∃ other ∈ as ++ bs, Shares (reg tr) (reg other)

/-- Regions removed one after the other. -/
abbrev Removals : List Addr → List Addr → Prop := Relation.ReflTransGen (Removes reg)

variable {reg} {trs trs' : List Addr}

/-- Removing keeps the order of what is left. -/
theorem Removals.sublist (h : Removals reg trs trs') : trs'.Sublist trs := by
  induction h with
  | refl => exact List.Sublist.refl _
  | tail _ hstep ih =>
    obtain ⟨as, tr, bs, rfl, rfl, -⟩ := hstep
    exact ((List.Sublist.refl as).append (List.sublist_cons_self tr bs)).trans ih

/-- A region that is removed leaves another one in the list. -/
theorem Removals.ne_nil (h : Removals reg trs trs') (hne : trs ≠ []) : trs' ≠ [] := by
  induction h with
  | refl => exact hne
  | tail _ hstep _ =>
    obtain ⟨as, tr, bs, rfl, rfl, other, hmem, -⟩ := hstep
    exact List.ne_nil_of_mem hmem

/-- The first pass removes regions one after the other, each with a common block. -/
theorem removals_removeSubsumed (done todo : List Addr) (hwf : ∀ tr ∈ done ++ todo, (reg tr).WF) :
    Removals reg (done ++ todo) (removeSubsumed reg done todo) := by
  induction todo generalizing done with
  | nil => simpa [removeSubsumed] using .refl
  | cons tr todo ih =>
    rw [removeSubsumed]
    split_ifs with hsub
    · obtain ⟨index, hmem, hne, hmeets, -⟩ := hsub
      have hwf' := hwf index hmem
      have hmem' : index ∈ done ++ todo := by
        simp only [List.mem_append, List.mem_cons] at hmem ⊢
        exact hmem.imp_right fun h ↦ h.resolve_left hne
      refine Relation.ReflTransGen.head ⟨done, tr, todo, rfl, rfl, index, hmem', ?_⟩
        (ih done fun t ht ↦ hwf t ?_)
      · exact hwf'.shares_of_meets hmeets
      · simp only [List.mem_append, List.mem_cons] at ht ⊢
        exact ht.imp_right .inr
    · have := ih (done ++ [tr]) (by simpa using hwf)
      simpa using this

/-- The loop of the second pass for one region does so too. -/
theorem removals_removeFor (done : List Addr) (trA : Addr) (seen rest : List Addr)
    (hwf : ∀ tr ∈ rest, (reg tr).WF) :
    Removals reg (done ++ trA :: (seen ++ rest))
      (done ++ keep trA (removeFor reg trA seen rest).1 ++ (removeFor reg trA seen rest).2) := by
  induction rest generalizing seen with
  | nil => simpa [removeFor, keep] using .refl
  | cons trB rest ih =>
    rw [List.forall_mem_cons] at hwf
    rw [removeFor]
    split_ifs with hmeets hyields
    · refine .single ⟨done, trA, seen ++ trB :: rest, rfl, by simp [keep], trB, by simp, ?_⟩
      exact hwf.1.shares_of_meets hmeets
    · refine Relation.ReflTransGen.head ⟨done ++ trA :: seen, trB, rest, by simp, rfl, trA, by simp,
        (hwf.1.shares_of_meets hmeets).symm⟩ ?_
      simpa using ih seen hwf.2
    · simpa using ih (seen ++ [trB]) hwf.2

/-- And so does the second pass. -/
theorem removals_removeConflicting (done todo : List Addr)
    (hwf : ∀ tr ∈ done ++ todo, (reg tr).WF) :
    Removals reg (done ++ todo) (removeConflicting reg done todo) := by
  induction done, todo using removeConflicting.induct reg with
  | case1 done => simpa [removeConflicting] using .refl
  | case2 done trA rest p hlt ih =>
    rw [removeConflicting]
    have hfor := removals_removeFor done trA [] rest fun t ht ↦ hwf t (by simp [ht])
    exact hfor.trans (ih fun t ht ↦ hwf t (hfor.sublist.subset ht))

/-! ### What is left -/

/-- `trA` has been compared with all that are left behind it. -/
theorem not_meets_removeFor {trA : Addr} {seen rest : List Addr}
    (hseen : ∀ t ∈ seen, ¬ Meets (reg trA) (reg t)) (hkeep : (removeFor reg trA seen rest).1) :
    ∀ t ∈ (removeFor reg trA seen rest).2, ¬ Meets (reg trA) (reg t) := by
  induction rest generalizing seen with
  | nil => exact hseen
  | cons trB rest ih =>
    rw [removeFor] at hkeep ⊢
    split_ifs at hkeep ⊢ with hmeets hyields
    · exact ih hseen hkeep
    · refine ih (fun t ht ↦ ?_) hkeep
      rcases List.mem_append.1 ht with ht | ht
      · exact hseen t ht
      · rwa [List.mem_singleton.1 ht]

/-- What the loop leaves behind the region is in the order it was. -/
theorem removeFor_sublist (trA : Addr) (seen rest : List Addr) :
    ((removeFor reg trA seen rest).2).Sublist (seen ++ rest) := by
  induction rest generalizing seen with
  | nil => simp [removeFor]
  | cons trB rest ih =>
    rw [removeFor]
    split_ifs
    · exact List.Sublist.refl _
    · exact (ih seen).trans ((List.Sublist.refl seen).append (List.sublist_cons_self trB rest))
    · simpa using ih (seen ++ [trB])

/-- The regions left have been compared with each other. -/
theorem pairwise_removeConflicting (done todo : List Addr)
    (hdone : done.Pairwise fun t u ↦ ¬ Meets (reg t) (reg u))
    (hcross : ∀ t ∈ done, ∀ u ∈ todo, ¬ Meets (reg t) (reg u)) :
    (removeConflicting reg done todo).Pairwise fun t u ↦ ¬ Meets (reg t) (reg u) := by
  induction done, todo using removeConflicting.induct reg with
  | case1 done => simpa [removeConflicting] using hdone
  | case2 done trA rest p hlt ih =>
    rw [removeConflicting]
    have hsub : ∀ u ∈ p.2, u ∈ rest := fun u hu ↦ by
      simpa using (removeFor_sublist trA [] rest).subset hu
    have hkept : ∀ t ∈ keep trA p.1, t = trA ∧ p.1 = true := by
      intro t ht
      cases hp : p.1 with
      | true =>
        rw [hp] at ht
        exact ⟨by simpa [keep] using ht, rfl⟩
      | false => simp [hp, keep] at ht
    refine ih (List.pairwise_append.2 ⟨hdone, ?_, fun t ht u hu ↦ ?_⟩) fun t ht u hu ↦ ?_
    · cases p.1 <;> simp [keep]
    · obtain ⟨rfl, -⟩ := hkept u hu
      exact hcross t ht _ List.mem_cons_self
    · rcases List.mem_append.1 ht with ht | ht
      · exact hcross t ht u (List.mem_cons_of_mem _ (hsub u hu))
      · obtain ⟨rfl, hp⟩ := hkept t ht
        exact not_meets_removeFor (by simp) hp u hu

/-- The passes keep a pair whose test finds nothing. -/
theorem passes_pair {t u : Addr} (hu : (reg u).WF) (hmeets : ¬ Meets (reg t) (reg u)) :
    removeConflicting reg [] (removeSubsumed reg [] [t, u]) = [t, u] := by
  have ht : ¬ TraceRegion.Subsumes (reg u) (reg t) := fun h ↦ hmeets h.1
  have hu' : ¬ TraceRegion.Subsumes (reg t) (reg u) := by
    rintro ⟨-, hall, hhead⟩
    rw [List.all_eq_true] at hall
    push Not at hall
    obtain ⟨id, hid, -⟩ := hall
    refine hmeets ⟨(reg u).header, hu.header_mem_seen hid, ?_⟩
    exact (Bool.and_eq_true_iff.1 hhead).1
  have hsubsumed : removeSubsumed reg [] [t, u] = [t, u] := by
    simp [removeSubsumed, ht, hu']
  rw [hsubsumed, removeConflicting, removeFor, if_neg hmeets, removeFor]
  simp [keep, removeConflicting, removeFor]

end Passes

/-! ### The passes on the list of the header -/

section Header

variable {reg : Addr → TraceRegion} {hdr : Header} {l : IList.ListRec Addr}
  {xs ys : List (Addr × Addr)} {x : Addr × Addr} {level : ℕ}

/-- The header's list has the elements `xs`, and their regions have not been freed. -/
structure Holds (reg : Addr → TraceRegion) (hdr : Header) (l : IList.ListRec Addr)
    (xs : List (Addr × Addr)) : Prop where
  list : hdr.traceregions = some l
  rep : IList.Represents l xs
  nodup : (xs.map Prod.snd).Nodup
  region : ∀ x ∈ xs, hdr.region x.2 = some (reg x.2)

/-- The size of the header's list is the number of its regions. -/
theorem Holds.size (h : Holds reg hdr l xs) : hdr.size = xs.length := by
  rw [Header.size, h.list]
  exact (congrArg Int.toNat h.rep.size).trans (Int.toNat_natCast _)

/-- A region of the list has not been freed. -/
theorem Holds.getRegion (h : Holds reg hdr l xs) (hx : x ∈ xs) :
    hdr.getRegion x.2 = .ok (reg x.2) := by
  rw [Header.getRegion, h.region x hx]

/-- The next region at a cursor. -/
theorem Holds.next (h : Holds reg hdr l (xs ++ ys)) (hat : IList.At l level xs) :
    ∃ hdr' l', hdr.next level = .ok (hdr', ys.head?.map Prod.snd) ∧ Holds reg hdr' l' (xs ++ ys) ∧
      l'.current = l.current.set level (Heap.headAddr none ys) := by
  obtain ⟨l', hrun, hrep, hcur⟩ := h.rep.next hat
  refine ⟨{ hdr with traceregions := some l' }, l', ?_, ⟨rfl, hrep, h.nodup, h.region⟩, hcur⟩
  rw [Header.next, h.list, hrun]
  rfl

/-- A list of the same elements. -/
theorem Holds.withList (h : Holds reg hdr l xs) {list : Run (IList.ListPtr Addr)}
    {l' : IList.ListRec Addr} (hrun : list = .ok (some l')) (hrep : IList.Represents l' xs) :
    ∃ hdr', hdr.withList list = .ok hdr' ∧ Holds reg hdr' l' xs :=
  ⟨{ hdr with traceregions := some l' }, by rw [hrun]; rfl, rfl, hrep, h.nodup, h.region⟩

/-- Without one of them the regions are still different ones. -/
theorem nodup_middle_snd (h : ((xs ++ x :: ys).map Prod.snd).Nodup) :
    x.2 ∉ (xs ++ ys).map Prod.snd ∧ ((xs ++ ys).map Prod.snd).Nodup := by
  rw [List.map_append, List.map_cons, List.nodup_middle, List.nodup_cons] at h
  rwa [List.map_append]

/-- A region is removed from the list, and freed before or after. -/
theorem Holds.delete (h : Holds reg hdr l (xs ++ x :: ys)) {l' : IList.ListRec Addr}
    (hrep : IList.Represents l' (xs ++ ys)) :
    Holds reg ⟨some l', Function.update hdr.region x.2 none⟩ l' (xs ++ ys) := by
  obtain ⟨hnot, hnodup⟩ := nodup_middle_snd h.nodup
  refine ⟨rfl, hrep, hnodup, fun y hy ↦ ?_⟩
  have hne : y.2 ≠ x.2 := fun heq ↦ hnot (heq ▸ List.mem_map_of_mem hy)
  refine (Function.update_of_ne hne _ _).trans (h.region y ?_)
  rw [List.mem_append] at hy
  rw [List.mem_append, List.mem_cons]
  exact hy.imp_right .inr

/-- `next` on the way through a list. -/
theorem Holds.next_cons (h : Holds reg hdr l (xs ++ x :: ys)) (hat : IList.At l level xs) :
    ∃ hdr' l', hdr.next level = .ok (hdr', some x.2) ∧ Holds reg hdr' l' ((xs ++ [x]) ++ ys) ∧
      IList.At l' level (xs ++ [x]) ∧ l'.current = l.current.set level (some x.1) := by
  obtain ⟨hdr', l', hrun, hholds, hcur⟩ := h.next hat
  exact ⟨hdr', l', hrun, by simpa using hholds, IList.Represents.at_of_next hat hcur, hcur⟩

/-- The loop over the other regions finds one that subsumes `tr`, if there is any behind the cursor. -/
theorem partiallySubsumedLoop_spec {tr : Addr × Addr} (hwf : ∀ y ∈ xs ++ ys, (reg y.2).WF)
    (htr : tr ∈ xs ++ ys) (h : Holds reg hdr l (xs ++ ys)) (hat : IList.At l level xs) {fuel : ℕ}
    (hfuel : ys.length < fuel) :
    ∃ hdr' l' r, partiallySubsumedLoop tr.2 level fuel hdr = .ok (hdr', r) ∧
      Holds reg hdr' l' (xs ++ ys) ∧
      (r.isSome ↔ ∃ y ∈ ys, y.2 ≠ tr.2 ∧ (reg y.2).Subsumes (reg tr.2)) ∧
      ∀ lev zs, lev ≠ level → IList.At l lev zs → IList.At l' lev zs := by
  induction ys generalizing xs hdr l fuel with
  | nil =>
    obtain _ | fuel := fuel
    · simp at hfuel
    obtain ⟨hdr', l', hrun, hholds, hcur⟩ := h.next hat
    exact ⟨hdr', l', none, by rw [partiallySubsumedLoop, hrun]; rfl, hholds, by simp,
      fun lev zs hne hlev ↦ hlev.of_set hne.symm hcur⟩
  | cons y ys ih =>
    obtain _ | fuel := fuel
    · simp at hfuel
    obtain ⟨hdr', l', hrun, hholds, hat', hcur⟩ := h.next_cons hat
    have hframe : ∀ lev zs, lev ≠ level → IList.At l lev zs → IList.At l' lev zs :=
      fun lev zs hne hlev ↦ hlev.of_set hne.symm hcur
    have hy : y ∈ xs ++ y :: ys := by simp
    rw [← List.singleton_append, ← List.append_assoc] at hwf htr hy
    obtain ⟨hdr₂, l₂, r, hrun₂, hholds₂, hr, hframe₂⟩ :=
      ih hwf htr hholds hat' (Nat.lt_of_succ_lt_succ hfuel)
    rw [List.append_assoc, List.singleton_append] at hholds₂
    have hgo : ∀ lev zs, lev ≠ level → IList.At l lev zs → IList.At l₂ lev zs :=
      fun lev zs hne hlev ↦ hframe₂ lev zs hne (hframe lev zs hne hlev)
    rw [partiallySubsumedLoop, hrun, Run.ok_bind]
    simp only [hholds.getRegion hy, hholds.getRegion htr, Run.ok_bind,
      (hwf y hy).partiallySubsumes (hwf tr htr), decide_eq_true_eq]
    split_ifs with hsame hsub
    · refine ⟨hdr₂, l₂, r, hrun₂, hholds₂, hr.trans ?_, hgo⟩
      simp [hsame]
    · refine ⟨hdr', l', some y.2, rfl, by simpa using hholds, ?_, hframe⟩
      simp [hsame, hsub]
    · refine ⟨hdr₂, l₂, r, hrun₂, hholds₂, hr.trans ?_, hgo⟩
      simp [hsub]

/-- `LB_traceregion_is_partially_subsumed` finds one if there is any. -/
theorem traceregionIsPartiallySubsumed_spec {tr : Addr × Addr} (hwf : ∀ y ∈ xs, (reg y.2).WF)
    (htr : tr ∈ xs) (h : Holds reg hdr l xs) :
    ∃ hdr' l' r, traceregionIsPartiallySubsumed hdr tr.2 = .ok (hdr', r) ∧
      Holds reg hdr' l' xs ∧
      (r.isSome ↔ ∃ y ∈ xs, y.2 ≠ tr.2 ∧ (reg y.2).Subsumes (reg tr.2)) ∧
      ∀ lev zs, lev < l.current.length → IList.At l lev zs → IList.At l' lev zs := by
  obtain ⟨l₁, hreg, hrep₁, hcur₁⟩ := h.rep.registerNewPtr
  have hlt : l.current.length < l₁.current.length := by simp [hcur₁]
  obtain ⟨l₂, hstart, hrep₂, hcur₂⟩ := hrep₁.start hlt
  obtain ⟨hdr₁, hrun₁, h₁⟩ := h.withList hstart hrep₂
  have hat : IList.At l₂ l.current.length ([] : List (Addr × Addr)) := by
    simp [IList.At, hcur₂, hcur₁]
  have hfuel : xs.length < hdr₁.size + 1 := by
    rw [h₁.size]
    exact Nat.lt_succ_self _
  rw [← List.nil_append xs] at hwf htr h₁
  obtain ⟨hdr', l', r, hrun, h', hr, hframe⟩ := partiallySubsumedLoop_spec hwf htr h₁ hat hfuel
  refine ⟨hdr', l', r, ?_, h', hr, fun lev zs hlev hatlev ↦ hframe lev zs hlev.ne ?_⟩
  · rw [traceregionIsPartiallySubsumed, h.list]
    simp only [hreg, Run.ok_bind, hrun₁, hrun]
  · rw [IList.At, hcur₂, List.getElem?_set_ne hlev.ne', hcur₁, List.getElem?_append_left hlev]
    exact hatlev

/-- The first pass, from the elements that it has kept on. -/
theorem removePartiallySubsumedLoop_spec (hwf : ∀ y ∈ xs ++ ys, (reg y.2).WF)
    (h : Holds reg hdr l (xs ++ ys)) (hat : IList.At l 0 xs) {fuel : ℕ} (hfuel : ys.length < fuel) :
    ∃ hdr' l' zs, removePartiallySubsumedLoop fuel hdr = .ok hdr' ∧ Holds reg hdr' l' zs ∧
      zs.map Prod.snd = removeSubsumed reg (xs.map Prod.snd) (ys.map Prod.snd) := by
  induction ys generalizing xs hdr l fuel with
  | nil =>
    obtain _ | fuel := fuel
    · simp at hfuel
    obtain ⟨hdr', l', hrun, hholds, -⟩ := h.next hat
    exact ⟨hdr', l', xs ++ [], by rw [removePartiallySubsumedLoop, hrun]; rfl, hholds,
      by simp [removeSubsumed]⟩
  | cons y ys ih =>
    obtain _ | fuel := fuel
    · simp at hfuel
    have hfuel := Nat.lt_of_succ_lt_succ hfuel
    obtain ⟨hdr₁, l₁, hrun₁, h₁, hat₁, hcur₁⟩ := h.next_cons hat
    have hwf₁ : ∀ z ∈ xs ++ [y] ++ ys, (reg z.2).WF := by simpa using hwf
    obtain ⟨hdr₂, l₂, r, hrun₂, h₂, hr, hframe⟩ :=
      traceregionIsPartiallySubsumed_spec hwf₁ (show y ∈ xs ++ [y] ++ ys by simp) h₁
    have hat₂ := hframe 0 _ (List.getElem?_eq_some_iff.1 hat₁).1 hat₁
    have hexists : (∃ z ∈ xs ++ [y] ++ ys, z.2 ≠ y.2 ∧ (reg z.2).Subsumes (reg y.2)) ↔
        ∃ index ∈ xs.map Prod.snd ++ y.2 :: ys.map Prod.snd,
          index ≠ y.2 ∧ (reg index).Subsumes (reg y.2) := by
      have hmap : xs.map Prod.snd ++ y.2 :: ys.map Prod.snd = (xs ++ [y] ++ ys).map Prod.snd := by
        simp
      rw [hmap]
      simp only [List.mem_map, exists_exists_and_eq_and]
    rw [removePartiallySubsumedLoop, hrun₁, Run.ok_bind]
    simp only [hrun₂, Run.ok_bind]
    rw [List.map_cons, removeSubsumed]
    cases r with
    | none =>
      -- the region stays
      rw [if_neg (hexists.not.1 fun hex ↦ by simpa using hr.2 hex)]
      obtain ⟨hdr', l', zs, hrun, h', hzs⟩ := ih hwf₁ h₂ hat₂ hfuel
      exact ⟨hdr', l', zs, hrun, h', by simpa using hzs⟩
    | some index =>
      -- it is deleted, and the cursor goes back to the element before it
      have hex := hr.1 rfl
      rw [if_pos (hexists.1 hex)]
      obtain ⟨z, hz, hne, -⟩ := hex
      have hnil : xs ++ ys ≠ [] := by
        refine List.ne_nil_of_mem (a := z) ?_
        simp only [List.append_assoc, List.singleton_append, List.mem_append, List.mem_cons] at hz ⊢
        exact hz.imp_right fun h ↦ h.resolve_left fun heq ↦ hne (congrArg Prod.snd heq)
      rw [List.append_assoc, List.singleton_append] at h₂
      obtain ⟨l₃, hremove, hrep₃, hcur₃⟩ := h₂.rep.remove hnil h₂.nodup
      have h₃ := h₂.delete hrep₃
      have hwf₃ : ∀ w ∈ xs ++ ys, (reg w.2).WF := fun w hw ↦ hwf w (by
        rw [List.mem_append] at hw
        rw [List.mem_append, List.mem_cons]
        exact hw.imp_right .inr)
      obtain ⟨hdr', l', zs, hrun, h', hzs⟩ := ih hwf₃ h₃ (hat₂.deleted hcur₃) hfuel
      refine ⟨hdr', l', zs, ?_, h', hzs⟩
      have hregion : hdr₂.region y.2 = some (reg y.2) := h₂.region y (by simp)
      simp only [Header.withList, h₂.list, hremove, Run.map_ok, Run.ok_bind,
        Header.freeTraceregion, Header.getRegion, hregion]
      exact hrun

/-- The first pass computes `removeSubsumed`. -/
theorem removePartiallySubsumedTraceregions_spec (hwf : ∀ y ∈ xs, (reg y.2).WF)
    (h : Holds reg hdr l xs) :
    ∃ hdr' l' zs, removePartiallySubsumedTraceregions hdr = .ok hdr' ∧ Holds reg hdr' l' zs ∧
      zs.map Prod.snd = removeSubsumed reg [] (xs.map Prod.snd) := by
  have hlt := h.rep.pos
  obtain ⟨l₁, hstart, hrep₁, hcur₁⟩ := h.rep.start hlt
  rw [← h.list] at hstart
  obtain ⟨hdr₁, hrun₁, h₁⟩ := h.withList hstart hrep₁
  have hat : IList.At l₁ 0 ([] : List (Addr × Addr)) := by simp [IList.At, hcur₁, hlt]
  have hfuel : xs.length < hdr₁.size + 1 := by
    rw [h₁.size]
    exact Nat.lt_succ_self _
  rw [removePartiallySubsumedTraceregions, hrun₁, Run.ok_bind]
  exact removePartiallySubsumedLoop_spec (by simpa using hwf) (by simpa using h₁) hat hfuel

/-- **The second pass for one `trA`**, from the regions behind it that it has been compared with on. -/
theorem conflictLoop_spec {level1 level2 : ℕ} (hne : level1 ≠ level2) {done ss : List (Addr × Addr)}
    (hwf : ∀ y ∈ done ++ x :: (ss ++ ys), (reg y.2).WF)
    (h : Holds reg hdr l (done ++ x :: (ss ++ ys))) (hat1 : IList.At l level1 (done ++ [x]))
    (hat2 : IList.At l level2 (done ++ x :: ss)) {fuel : ℕ} (hfuel : ys.length < fuel) :
    ∃ hdr' l' ks zs, conflictLoop level1 level2 x.2 fuel hdr = .ok hdr' ∧
      Holds reg hdr' l' (ks ++ zs) ∧ IList.At l' level1 ks ∧
      l'.current.length = l.current.length ∧
      ks.map Prod.snd = done.map Prod.snd ++
        keep x.2 (removeFor reg x.2 (ss.map Prod.snd) (ys.map Prod.snd)).1 ∧
      zs.map Prod.snd = (removeFor reg x.2 (ss.map Prod.snd) (ys.map Prod.snd)).2 := by
  induction ys generalizing ss hdr l fuel with
  | nil =>
    obtain _ | fuel := fuel
    · simp at hfuel
    have h' : Holds reg hdr l ((done ++ x :: ss) ++ []) := by simpa using h
    obtain ⟨hdr', l', hrun, hholds, hcur⟩ := h'.next hat2
    refine ⟨hdr', l', done ++ [x], ss, by rw [conflictLoop, hrun]; rfl, by simpa using hholds,
      hat1.of_set hne.symm hcur, by simp [hcur], by simp [removeFor, keep], by simp [removeFor]⟩
  | cons y ys ih =>
    obtain _ | fuel := fuel
    · simp at hfuel
    have hfuel := Nat.lt_of_succ_lt_succ hfuel
    have h' : Holds reg hdr l ((done ++ x :: ss) ++ y :: ys) := by simpa using h
    obtain ⟨hdr₁, l₁, hrun₁, h₁, hat2₁, hcur₁⟩ := h'.next_cons hat2
    have hat1₁ : IList.At l₁ level1 (done ++ [x]) := hat1.of_set hne.symm hcur₁
    have hlen₁ : l₁.current.length = l.current.length := by simp [hcur₁]
    have hx := h₁.getRegion (show x ∈ _ by simp)
    have hy := h₁.getRegion (show y ∈ _ by simp)
    have hwfy : (reg y.2).WF := hwf y (by simp)
    rw [conflictLoop, hrun₁, Run.ok_bind]
    simp only [hx, hy, Run.ok_bind, hwfy.intersectionEmpty, decide_eq_true_eq, List.map_cons,
      removeFor]
    have hregion : ∀ z ∈ done ++ x :: ss ++ [y] ++ ys, hdr₁.getRegion z.2 = .ok (reg z.2) :=
      fun z hz ↦ h₁.getRegion hz
    by_cases hmeets : Meets (reg x.2) (reg y.2)
    · rw [if_neg (not_not.2 hmeets), if_pos hmeets]
      split_ifs with hyields
      · -- `trA` goes, and the cursor for it with it
        have h₂ : Holds reg hdr₁ l₁ (done ++ x :: (ss ++ y :: ys)) := by simpa using h₁
        obtain ⟨l₂, hdelete, hrep₂, hcur₂⟩ := h₂.rep.deleteCurrent (by simp) hat1₁
        refine ⟨_, l₂, done, ss ++ y :: ys, ?_, h₂.delete hrep₂, hat1₁.deleted hcur₂,
          by simp [hcur₂, hlen₁], by simp [keep], by simp⟩
        simp only [Header.freeTraceregion, hx, Run.ok_bind, Header.withList, h₁.list, hdelete,
          Run.map_ok]
      · have h₂ : Holds reg hdr₁ l₁ ((done ++ x :: ss) ++ y :: ys) := by simpa using h₁
        obtain ⟨l₂, hdelete, hrep₂, hcur₂⟩ := h₂.rep.deleteCurrent (by simp) hat2₁
        have hy1 : y.1 ∉ (done ++ [x]).map Prod.fst := by
          have hnodup := h₂.rep.nodup
          rw [List.map_append, List.map_cons, List.nodup_append] at hnodup
          intro hmem
          refine hnodup.2.2 y.1 ?_ y.1 List.mem_cons_self rfl
          simp only [List.map_append, List.map_cons, List.mem_append, List.mem_cons, List.map_nil,
            List.not_mem_nil, or_false] at hmem ⊢
          exact hmem.imp_right .inl
        have h₃ := h₂.delete hrep₂
        rw [List.append_assoc, List.cons_append] at h₃
        obtain ⟨hdr', l', ks, zs, hrun, h', hat', hlen', hks, hzs⟩ := ih
          (fun z hz ↦ hwf z (by
            simp only [List.mem_append, List.mem_cons] at hz ⊢
            tauto)) h₃ (hat1₁.of_deleted hy1 hcur₂) (hat2₁.deleted hcur₂) hfuel
        refine ⟨hdr', l', ks, zs, ?_, h', hat', by simp [hlen', hcur₂, hlen₁], hks, hzs⟩
        simp only [Header.freeTraceregion, hy, Run.ok_bind, Header.withList, h₁.list, hdelete,
          Run.map_ok]
        exact hrun
    · rw [if_pos hmeets, if_neg hmeets]
      have h₂ : Holds reg hdr₁ l₁ (done ++ x :: (ss ++ [y] ++ ys)) := by simpa using h₁
      obtain ⟨hdr', l', ks, zs, hrun, h', hat', hlen', hks, hzs⟩ := ih (by simpa using hwf) h₂ hat1₁
        (by simpa using hat2₁) hfuel
      rw [List.map_append, List.map_cons, List.map_nil] at hks hzs
      exact ⟨hdr', l', ks, zs, hrun, h', hat', hlen'.trans hlen₁, hks, hzs⟩

/-- The second pass, from the elements that it has kept on. -/
theorem removeConflictingLoop_spec {level1 level2 : ℕ} (hne : level1 ≠ level2)
    (hwf : ∀ y ∈ xs ++ ys, (reg y.2).WF) (h : Holds reg hdr l (xs ++ ys))
    (hat : IList.At l level1 xs) (hlt : level2 < l.current.length) {fuel : ℕ}
    (hfuel : ys.length < fuel) :
    ∃ hdr' l' zs, removeConflictingLoop level1 level2 fuel hdr = .ok hdr' ∧ Holds reg hdr' l' zs ∧
      zs.map Prod.snd = removeConflicting reg (xs.map Prod.snd) (ys.map Prod.snd) := by
  induction fuel generalizing xs ys hdr l with
  | zero => simp at hfuel
  | succ fuel ih =>
    cases ys with
    | nil =>
      obtain ⟨hdr', l', hrun, hholds, -⟩ := h.next hat
      exact ⟨hdr', l', xs ++ [], by rw [removeConflictingLoop, hrun]; rfl, hholds,
        by simp [removeConflicting]⟩
    | cons y ys =>
      obtain ⟨hdr₁, l₁, hrun₁, h₁, hat₁, hcur₁⟩ := h.next_cons hat
      have hlt₁ : level2 < l₁.current.length := by simpa [hcur₁] using hlt
      obtain ⟨l₂, hcopy, hrep₂, hcur₂⟩ := h₁.rep.copyCurrentPtr hlt₁ hat₁
      rw [← h₁.list] at hcopy
      obtain ⟨hdr₂, hrun₂, h₂⟩ := h₁.withList hcopy hrep₂
      have hat1₂ : IList.At l₂ level1 (xs ++ [y]) := hat₁.of_set hne.symm hcur₂
      have hat2₂ : IList.At l₂ level2 (xs ++ [y]) := by simp [IList.At, hcur₂, hlt₁]
      have hfuel₂ : ys.length < hdr₂.size + 1 := by
        rw [h₂.size]
        simp
        omega
      have h₂' : Holds reg hdr₂ l₂ (xs ++ y :: ([] ++ ys)) := by simpa using h₂
      -- `y` is compared with all regions behind it, and may be deleted itself
      obtain ⟨hdr₃, l₃, ks, zs, hrun₃, h₃, hat₃, hlen₃, hks, hzs⟩ :=
        conflictLoop_spec hne (by simpa using hwf) h₂' hat1₂ hat2₂ hfuel₂
      rw [List.map_nil] at hks hzs
      have hrest : ∀ tr ∈ ys.map Prod.snd, (reg tr).WF := by
        intro tr htr
        obtain ⟨z, hz, rfl⟩ := List.mem_map.1 htr
        exact hwf z (by simp [hz])
      have hwf₃ : ∀ z ∈ ks ++ zs, (reg z.2).WF := by
        intro z hz
        have hmem := List.mem_map_of_mem (f := Prod.snd) hz
        rw [List.map_append, hks, hzs] at hmem
        have hsub := (removals_removeFor (xs.map Prod.snd) y.2 [] _ hrest).sublist.subset hmem
        rw [List.nil_append, ← List.map_cons, ← List.map_append] at hsub
        obtain ⟨w, hw, heq⟩ := List.mem_map.1 hsub
        exact heq ▸ hwf w hw
      have hzs_le : zs.length < fuel := by
        have hle := removeFor_length_le reg y.2 [] (ys.map Prod.snd)
        rw [← hzs] at hle
        simp at hle hfuel
        omega
      have hlt₃ : level2 < l₃.current.length := by
        rw [hlen₃, hcur₂, List.length_set]
        exact hlt₁
      obtain ⟨hdr', l', us, hrun, h', hus⟩ := ih hwf₃ h₃ hat₃ hlt₃ hzs_le
      refine ⟨hdr', l', us, ?_, h', ?_⟩
      · rw [removeConflictingLoop, hrun₁, Run.ok_bind]
        simp only [hrun₂, Run.ok_bind, hrun₃, hrun]
      · rw [hus, List.map_cons, removeConflicting, hks, hzs]

/-- The second pass computes `removeConflicting`. -/
theorem removeConflictingTraceregions_spec (hwf : ∀ y ∈ xs, (reg y.2).WF)
    (h : Holds reg hdr l xs) :
    ∃ hdr' l' zs, removeConflictingTraceregions hdr = .ok hdr' ∧ Holds reg hdr' l' zs ∧
      zs.map Prod.snd = removeConflicting reg [] (xs.map Prod.snd) := by
  obtain ⟨l₁, hreg₁, hrep₁, hcur₁⟩ := h.rep.registerNewPtr
  obtain ⟨l₂, hreg₂, hrep₂, hcur₂⟩ := hrep₁.registerNewPtr
  have hlen₁ : l₁.current.length = l.current.length + 1 := by simp [hcur₁]
  have hlen₂ : l₂.current.length = l.current.length + 2 := by simp [hcur₂, hlen₁]
  have hlt₂ : l.current.length < l₂.current.length := by omega
  obtain ⟨l₃, hstart, hrep₃, hcur₃⟩ := hrep₂.start hlt₂
  obtain ⟨hdr₁, hrun₁, h₁⟩ := h.withList hstart hrep₃
  have hat : IList.At l₃ l.current.length ([] : List (Addr × Addr)) := by
    rw [IList.At, hcur₃, List.getElem?_set_self (by omega)]
    rfl
  have hlt : l₁.current.length < l₃.current.length := by
    rw [hcur₃, List.length_set]
    omega
  have hfuel : xs.length < hdr₁.size + 1 := by
    rw [h₁.size]
    exact Nat.lt_succ_self _
  rw [← List.nil_append xs] at hwf h₁
  obtain ⟨hdr', l', zs, hrun, h', hzs⟩ :=
    removeConflictingLoop_spec (by omega) hwf h₁ hat hlt hfuel
  refine ⟨hdr', l', zs, ?_, h', hzs⟩
  rw [removeConflictingTraceregions, h.list]
  simp only [hreg₁, Run.ok_bind, hreg₂, hrun₁, hrun]

/-- **The two passes** do what the passes on a list of regions do. -/
theorem removeTraceregions_spec (hwf : ∀ y ∈ xs, (reg y.2).WF) (h : Holds reg hdr l xs) :
    ∃ hdr' l' zs, removeTraceregions hdr = .ok hdr' ∧ Holds reg hdr' l' zs ∧
      zs.map Prod.snd = removeConflicting reg [] (removeSubsumed reg [] (xs.map Prod.snd)) := by
  obtain ⟨hdr₁, l₁, ys, hrun₁, h₁, hys⟩ := removePartiallySubsumedTraceregions_spec hwf h
  have hwf₁ : ∀ y ∈ ys, (reg y.2).WF := by
    intro y hy
    have hmem := List.mem_map_of_mem (f := Prod.snd) hy
    rw [hys] at hmem
    have hwf' : ∀ tr ∈ [] ++ xs.map Prod.snd, (reg tr).WF := by
      rw [List.nil_append, List.forall_mem_map]
      exact hwf
    obtain ⟨w, hw, heq⟩ := List.mem_map.1 ((removals_removeSubsumed [] _ hwf').sublist.subset hmem)
    exact heq ▸ hwf w hw
  obtain ⟨hdr', l', zs, hrun, h', hzs⟩ := removeConflictingTraceregions_spec hwf₁ h₁
  exact ⟨hdr', l', zs, by rw [removeTraceregions, hrun₁, Run.ok_bind, hrun], h', by rw [hzs, hys]⟩

/-! ### Disjoint regions -/

/-- The header's list consists of the regions `trs`, which have not been freed. -/
def HoldsRegions (reg : Addr → TraceRegion) (hdr : Header) (trs : List Addr) : Prop :=
  ∃ l xs, Holds reg hdr l xs ∧ xs.map Prod.snd = trs

/-- The passes return without a use of a freed region; they leave some of the regions in the order they
were, disjoint from each other, and have removed only regions with a block in common with another one. -/
def LeavesDisjoint (reg : Addr → TraceRegion) (hdr : Header) (trs : List Addr) : Prop :=
  ∃ hdr' trs', removeTraceregions hdr = .ok hdr' ∧ HoldsRegions reg hdr' trs' ∧ trs' ≠ [] ∧
    trs'.Sublist trs ∧ Removals reg trs trs' ∧ trs'.Pairwise fun t u ↦ ¬ Shares (reg t) (reg u)

/-- A list of two regions. -/
def pairHeader (reg : Addr → TraceRegion) (t u : Addr) : Header where
  traceregions := some
    { size := 2
      first := some 0
      last := some 1
      current := [none]
      elems := ⟨fun a ↦ if a = 0 then some ⟨none, some 1, t⟩
        else if a = 1 then some ⟨some 0, none, u⟩ else none, 2⟩ }
  region a := if a = t ∨ a = u then some (reg a) else none

/-- The list of two regions holds them. -/
theorem holdsRegions_pairHeader {t u : Addr} (hne : t ≠ u) :
    HoldsRegions reg (pairHeader reg t u) [t, u] := by
  refine ⟨_, [(0, t), (1, u)], ⟨rfl, ⟨?_, by simp, rfl, rfl, rfl, by simp, by simp⟩, ?_, ?_⟩, rfl⟩
  · exact ⟨rfl, rfl, trivial⟩
  · simpa using hne
  · simp [pairHeader]

/-- Two regions whose common blocks the test does not find stay in the list. -/
theorem not_leavesDisjoint_pair {t u : Addr} (hne : t ≠ u) (ht : (reg t).WF) (hu : (reg u).WF)
    (hshares : Shares (reg t) (reg u)) (hmeets : ¬ Meets (reg t) (reg u)) :
    ¬ LeavesDisjoint reg (pairHeader reg t u) [t, u] := by
  rintro ⟨hdr', trs', hrun, ⟨l', zs, hzs, rfl⟩, -, -, -, hdisj⟩
  obtain ⟨l, xs, hxs, hmap⟩ : HoldsRegions reg (pairHeader reg t u) [t, u] :=
    holdsRegions_pairHeader hne
  have hwf : ∀ y ∈ xs, (reg y.2).WF := by
    intro y hy
    have hmem := List.mem_map_of_mem (f := Prod.snd) hy
    rw [hmap, List.mem_pair] at hmem
    rcases hmem with heq | heq
    · rwa [heq]
    · rwa [heq]
  obtain ⟨hdr₂, l₂, zs₂, hrun₂, hzs₂, hpasses⟩ := removeTraceregions_spec hwf hxs
  obtain rfl : hdr' = hdr₂ := Except.ok.inj (hrun.symm.trans hrun₂)
  obtain rfl : l' = l₂ := Option.some.inj (hzs.list.symm.trans hzs₂.list)
  obtain rfl := hzs.rep.unique hzs₂.rep
  rw [hmap, passes_pair hu hmeets] at hpasses
  rw [hpasses] at hdisj
  exact List.rel_of_pairwise_cons hdisj List.mem_cons_self hshares

/-- **The regions left are disjoint**, for every list of some of the regions, exactly if the test finds a
common block of any two of them in their order. -/
theorem leavesDisjoint_iff (reg : Addr → TraceRegion) (trs : List Addr) (hnodup : trs.Nodup)
    (hwf : ∀ tr ∈ trs, (reg tr).WF) :
    (∀ trs₁ hdr, trs₁.Sublist trs → trs₁ ≠ [] → HoldsRegions reg hdr trs₁ →
      LeavesDisjoint reg hdr trs₁) ↔
      trs.Pairwise fun t u ↦ Shares (reg t) (reg u) → Meets (reg t) (reg u) := by
  refine ⟨fun h ↦ ?_, fun h trs₁ hdr hsub hne hholds ↦ ?_⟩
  · rw [List.pairwise_iff_forall_sublist]
    intro t u hsub hshares
    by_contra hmeets
    have hne : t ≠ u := by simpa using hnodup.sublist hsub
    exact not_leavesDisjoint_pair hne (hwf t (hsub.subset (by simp)))
      (hwf u (hsub.subset (by simp))) hshares hmeets
      (h [t, u] _ hsub (List.cons_ne_nil _ _) (holdsRegions_pairHeader hne))
  · obtain ⟨l, xs, hxs, rfl⟩ := hholds
    have hwf' : ∀ y ∈ xs, (reg y.2).WF := fun y hy ↦ hwf _ (hsub.subset (List.mem_map_of_mem hy))
    obtain ⟨hdr', l', zs, hrun, hzs, hpasses⟩ := removeTraceregions_spec hwf' hxs
    have hwf₁ : ∀ tr ∈ [] ++ xs.map Prod.snd, (reg tr).WF := by
      rw [List.nil_append, List.forall_mem_map]
      exact hwf'
    have hremovals₁ := removals_removeSubsumed [] _ hwf₁
    have hremovals₂ := removals_removeConflicting [] (removeSubsumed reg [] (xs.map Prod.snd))
      fun t ht ↦ hwf₁ t (hremovals₁.sublist.subset ht)
    have hremovals : Removals reg (xs.map Prod.snd) (zs.map Prod.snd) := by
      rw [hpasses]
      exact hremovals₁.trans hremovals₂
    refine ⟨hdr', zs.map Prod.snd, hrun, ⟨l', zs, hzs, rfl⟩, hremovals.ne_nil hne,
      hremovals.sublist, hremovals, ?_⟩
    have hpair : (removeConflicting reg [] (removeSubsumed reg [] (xs.map Prod.snd))).Pairwise
        fun t u ↦ ¬ Meets (reg t) (reg u) :=
      pairwise_removeConflicting [] _ List.Pairwise.nil (by simp)
    rw [← hpasses] at hpair
    have hmeets := h.sublist (hremovals.sublist.trans hsub)
    exact hpair.imp₂ (fun t u hnot himp hshares ↦ hnot (himp hshares)) hmeets

end Header

/-! ### A loop in a region -/

/-- The blocks 2 and 3 are a loop, which 2 and 3 leave to 4 and 6. -/
def loopFlows : CbId → List CbId
  | 1 => [2]
  | 2 => [3, 4]
  | 3 => [2, 6]
  | 4 => [5]
  | 6 => [5]
  | _ => []

/-- A region that has been made. -/
def made : Run TraceRegion → TraceRegion
  | .ok tr => tr
  | .error _ => ⟨0, ⟨.create, fun _ ↦ .start, fun _ ↦ false, []⟩⟩

/-- A region that enters the loop at 3, and one with the whole loop. -/
def loopRegions (a : Addr) : TraceRegion :=
  if a = 0 then made (createTraceregion false loopFlows 3 [3, 6])
  else made (createTraceregion false loopFlows 1 [1, 2, 3, 4])

/-- The block 3 is behind the `STOP` node of the region with the whole loop. -/
example : (loopRegions 0).topoList = [.start, .cb 3, .cb 6, .stop] ∧
      (loopRegions 1).topoList = [.start, .cb 1, .cb 2, .cb 4, .stop, .cb 3] := by
  decide +kernel

/-- What a call of `LB_create_traceregion` that returns has made. -/
theorem made_wf (frp : Bool) (destFlow : CbId → List CbId) (header : CbId) (blocks : List CbId)
    (h : (createTraceregion frp destFlow header blocks).isOk = true) :
    (made (createTraceregion frp destFlow header blocks)).WF := by
  cases hrun : createTraceregion frp destFlow header blocks with
  | error e =>
    rw [hrun] at h
    cases h
  | ok tr => exact createTraceregion_wf hrun

/-- Both regions of the function with a loop are made as `LB_create_traceregion` makes them. -/
theorem loopRegions_wf : (loopRegions 0).WF ∧ (loopRegions 1).WF := by
  constructor
  · exact made_wf false loopFlows 3 [3, 6] (by decide +kernel)
  · exact made_wf false loopFlows 1 [1, 2, 3, 4] (by decide +kernel)

/-- With the whole loop in front, the test finds the common block. -/
theorem leavesDisjoint_iff_loop :
    (∀ trs₁ hdr, trs₁.Sublist [1, 0] → trs₁ ≠ [] → HoldsRegions loopRegions hdr trs₁ →
      LeavesDisjoint loopRegions hdr trs₁) ↔
      [1, 0].Pairwise fun t u ↦
        Shares (loopRegions t) (loopRegions u) → Meets (loopRegions t) (loopRegions u) :=
  leavesDisjoint_iff loopRegions [1, 0] (by decide) (by
    simpa using And.symm loopRegions_wf)

/-- The region that enters the loop stays with the one that has it, and both have the block 3. -/
theorem not_leavesDisjoint_loop :
    ¬ LeavesDisjoint loopRegions (pairHeader loopRegions 0 1) [0, 1] :=
  not_leavesDisjoint_pair (by decide) loopRegions_wf.1 loopRegions_wf.2
    ⟨3, by decide +kernel, by decide +kernel⟩ (by decide +kernel)

end OpenImpact.Lblock
