import OpenImpact.Library.Halt
import Mathlib.Data.Fin.Basic
import Mathlib.Data.Fin.VecNotation
import Mathlib.Data.Fintype.Pi
import Mathlib.Data.List.FinRange
import Mathlib.Data.Set.Lattice
import Mathlib.Algebra.GroupWithZero.Nat

/-!
# Minterm queries

`IR_possible_values` and `IR_minterm_implication` of `l_int_range.c`: questions about minterms, one
literal per condition, answered on the Boolean functions over register values that the range graph
keeps for some of the conditions.

The BDD package is a parameter, `DdManager`, with the calls the two functions make. What they rely on
is `DdManager.Denotes`: nodes denote sets of register values, the calls compute the set operations
and inclusion, and equal functions are equal nodes, which is what the pointer comparison with `one`
needs. Reference counts have no effect on the answers and are left out.

A minterm is answered about through its complement, which starts at `zero` and grows by one
if-then-else per literal (`den_complementLoop`).

`mintermQueries_meet_iff` says when both answers are right, as an exact condition on the two
vectors. It needs that every condition asked about is in the range graph (`Known`), since the source
reads its function without a test. Nothing is claimed of a package whose nodes are not canonical.
-/

namespace OpenImpact.IR

/-! ### The BDD package -/

/-- The CUDD calls of the range queries. -/
structure DdManager (DdNode : Type) where
  one : DdNode
  zero : DdNode
  bddIte : DdNode → DdNode → DdNode → DdNode
  cuddNot : DdNode → DdNode
  bddLeq : DdNode → DdNode → Bool

/-- CUDD's contract: nodes stand for sets of register values, canonically. -/
structure DdManager.Denotes {DdNode V : Type} (dd : DdManager DdNode) (den : DdNode → Set V) :
    Prop where
  one : den dd.one = Set.univ
  zero : den dd.zero = ∅
  bddIte : ∀ f g h, den (dd.bddIte f g h) = den f ∩ den g ∪ (den f)ᶜ ∩ den h
  cuddNot : ∀ f, den (dd.cuddNot f) = (den f)ᶜ
  bddLeq : ∀ f g, dd.bddLeq f g = true ↔ den f ⊆ den g
  canonical : ∀ f g, den f = den g → f = g

/-! ### The queries -/

/-- `PG_Cond`, restricted to the range node; `NULL` is `none`. -/
structure PGCond (DdNode : Type) where
  rangeNode : Option DdNode

/-- `PG_Pred_Graph`: the manager of the range graph and the table of conditions. -/
structure PGPredGraph (DdNode : Type) where
  dd : DdManager DdNode
  hashPgCond : ℕ → Option (PGCond DdNode)

section Queries

variable {DdNode : Type} [DecidableEq DdNode] (pg : PGPredGraph DdNode) {terms : ℕ}

/-- `PG_FIND_COND` and the access through its result. -/
def findRangeNode (indx : ℕ) : Run (Option DdNode) :=
  match pg.hashPgCond indx with
  | some pgCond => .ok pgCond.rangeNode
  | none => .error .fault

/-- One literal of the complement: the value `1` keeps what was excluded where the condition holds,
and excludes where it does not. -/
def addLiteral (lit : UInt8) (rangeNode curNode : DdNode) : DdNode :=
  if lit = 1 then pg.dd.bddIte rangeNode curNode pg.dd.one
  else pg.dd.bddIte rangeNode pg.dd.one curNode

/-- The loop that builds the complement of a minterm. -/
def complementLoop (mins : Fin terms → UInt8) : DdNode → List (Fin terms) → Run DdNode
  | curNode, [] => return curNode
  | curNode, termIndx :: rest =>
    if mins termIndx = 1 ∨ mins termIndx = 0 then do
      match ← findRangeNode pg termIndx with
      | none => complementLoop mins curNode rest
      | some rangeNode =>
        complementLoop mins (addLiteral pg (mins termIndx) rangeNode curNode) rest
    else complementLoop mins curNode rest

/-- `IR_possible_values`. -/
def possibleValues (mins : Fin terms → UInt8) (minIndx : ℕ) : Run ℤ := do
  let curNode ← complementLoop pg mins pg.dd.zero (List.finRange terms)
  if pg.dd.one = curNode then return -1
  else
    match ← findRangeNode pg minIndx with
    | none => return 2
    | some rangeNode =>
      if pg.dd.bddLeq (pg.dd.cuddNot rangeNode) curNode then return 1
      else if pg.dd.bddLeq rangeNode curNode then return 0
      else return 2

/-- The first loop of `IR_minterm_implication`: is the range test reached? -/
def compatibleLoop (minA minB : Fin terms → UInt8) : List (Fin terms) → Run Bool
  | [] => return true
  | termIndx :: rest =>
    if minA termIndx = 2 then compatibleLoop minA minB rest
    else if minB termIndx ≠ minA termIndx then do
      match ← findRangeNode pg termIndx with
      | none => return false
      | some _ => compatibleLoop minA minB rest
    else compatibleLoop minA minB rest

/-- `IR_minterm_implication`. -/
def mintermImplication (minA minB : Fin terms → UInt8) : Run ℤ := do
  if ← compatibleLoop pg minA minB (List.finRange terms) then
    let nodeAnot ← complementLoop pg minA pg.dd.zero (List.finRange terms)
    if pg.dd.one = nodeAnot then return -1
    else
      let nodeBnot ← complementLoop pg minB pg.dd.zero (List.finRange terms)
      if pg.dd.one = nodeBnot then return -1
      else if pg.dd.bddLeq nodeAnot nodeBnot then return 1
      else if pg.dd.bddLeq (pg.dd.cuddNot nodeBnot) nodeAnot then return 0
      else return 2
  else return 2

end Queries

/-! ### Valuations -/

section Meaning

variable {DdNode V : Type} (pg : PGPredGraph DdNode) (den : DdNode → Set V) {terms : ℕ}

/-- The range node of a condition, if there is one. -/
def rangeNodeOf (indx : ℕ) : Option DdNode := (pg.hashPgCond indx).bind PGCond.rangeNode

/-- The register values under which the literals with a range node hold. -/
def rangeSet (mins : Fin terms → UInt8) : Set V :=
  {v | ∀ i : Fin terms, ∀ node, rangeNodeOf pg i = some node →
    (mins i = 1 → v ∈ den node) ∧ (mins i = 0 → v ∉ den node)}

/-- The truth value of a condition under a valuation: the register values decide the conditions with
a range node, the others are free. -/
def condTrue (v : V) (free : ℕ → Bool) (indx : ℕ) : Prop :=
  match rangeNodeOf pg indx with
  | some node => v ∈ den node
  | none => free indx = true

/-- A valuation satisfies every literal of a minterm. -/
def Satisfies (mins : Fin terms → UInt8) (v : V) (free : ℕ → Bool) : Prop :=
  ∀ i : Fin terms, (mins i = 1 → condTrue pg den v free i) ∧
    (mins i = 0 → ¬condTrue pg den v free i)

/-- Every valuation satisfying the first minterm satisfies the second. -/
def MintermImplies (minA minB : Fin terms → UInt8) : Prop :=
  ∀ v free, Satisfies pg den minA v free → Satisfies pg den minB v free

/-- Some valuation satisfies the minterm. -/
def Satisfiable (mins : Fin terms → UInt8) : Prop := ∃ v free, Satisfies pg den mins v free

/-- What `IR_possible_values` is to return. -/
structure PossibleValuesMeets (mins : Fin terms → UInt8) (minIndx : ℕ) (rv : ℤ) : Prop where
  impossible : rv = -1 ↔ ¬∃ v, v ∈ rangeSet pg den mins
  isTrue : rv = 1 → ∃ node, rangeNodeOf pg minIndx = some node ∧
    ∀ v ∈ rangeSet pg den mins, v ∈ den node
  isFalse : rv = 0 → ∃ node, rangeNodeOf pg minIndx = some node ∧
    ∀ v ∈ rangeSet pg den mins, v ∉ den node
  neither : (∃ v, v ∈ rangeSet pg den mins) →
    (∀ node, rangeNodeOf pg minIndx = some node →
      (∃ v ∈ rangeSet pg den mins, v ∈ den node) ∧ ∃ v ∈ rangeSet pg den mins, v ∉ den node) →
    rv = 2
  range : rv = -1 ∨ rv = 0 ∨ rv = 1 ∨ rv = 2

/-- The first loop of `IR_minterm_implication` finds no literal that rules the range test out. -/
def ReachesRangeTest (minA minB : Fin terms → UInt8) : Prop :=
  ∀ i, minA i ≠ 2 → minB i ≠ minA i → rangeNodeOf pg i ≠ none

/-- What the header comment of `IR_minterm_implication` promises. -/
structure MintermImplicationMeets (minA minB : Fin terms → UInt8) (retval : ℤ) : Prop where
  invalid : retval = -1 ↔ ReachesRangeTest pg minA minB ∧
    (¬Satisfiable pg den minA ∨ ¬Satisfiable pg den minB)
  implies : retval = 1 → MintermImplies pg den minA minB
  excludes : retval = 0 → ∀ v free, Satisfies pg den minA v free → ¬Satisfies pg den minB v free

end Meaning

/-! ### A manager of truth tables -/

/-- Truth tables over `n` register values, the simplest nodes that are canonical. -/
def tableManager (n : ℕ) : DdManager (Fin n → Bool) where
  one := fun _ ↦ true
  zero := fun _ ↦ false
  bddIte f g h := fun v ↦ if f v then g v else h v
  cuddNot f := fun v ↦ !f v
  bddLeq f g := decide (∀ v, f v = true → g v = true)

/-- The register values a table accepts. -/
def tableDen {n : ℕ} (f : Fin n → Bool) : Set (Fin n) := {v | f v = true}

theorem tableManager_denotes (n : ℕ) : (tableManager n).Denotes tableDen where
  one := by simp [tableManager, tableDen]
  zero := by simp [tableManager, tableDen]
  bddIte f g h := by
    ext v
    by_cases hf : f v = true <;> simp [tableManager, tableDen, hf]
  cuddNot f := by
    ext v
    simp [tableManager, tableDen]
  bddLeq f g := by simp [tableManager, tableDen, Set.subset_def]
  canonical f g h := by
    funext v
    rw [Bool.eq_iff_iff]
    exact Set.ext_iff.1 h v

section

local instance neZero_four : NeZero 4 := ⟨by decide⟩

/-- A register with values 0 to 3, and the conditions `r > 0` and `r == 3` on it. -/
def samplePredGraph : PGPredGraph (Fin 4 → Bool) where
  dd := tableManager 4
  hashPgCond indx :=
    if indx = 0 then some ⟨some fun v ↦ decide (0 < v)⟩
    else if indx = 1 then some ⟨some fun v ↦ decide (v = 3)⟩
    else none

end

/-! ### The complement of a minterm -/

section Correctness

variable {DdNode V : Type} {pg : PGPredGraph DdNode} {den : DdNode → Set V} {terms : ℕ}

/-- The condition is in the table. -/
def Known (pg : PGPredGraph DdNode) (indx : ℕ) : Prop := pg.hashPgCond indx ≠ none

theorem findRangeNode_eq {indx : ℕ} (h : Known pg indx) :
    findRangeNode pg indx = .ok (rangeNodeOf pg indx) := by
  obtain ⟨pgCond, hcond⟩ := Option.ne_none_iff_exists'.1 h
  rw [findRangeNode, rangeNodeOf, hcond]
  rfl

/-- The register values that satisfy the literals at the given positions. -/
def rangeSetOn (pg : PGPredGraph DdNode) (den : DdNode → Set V) (mins : Fin terms → UInt8)
    (is : List (Fin terms)) : Set V :=
  {v | ∀ i ∈ is, ∀ node, rangeNodeOf pg i = some node →
    (mins i = 1 → v ∈ den node) ∧ (mins i = 0 → v ∉ den node)}

theorem rangeSetOn_finRange (mins : Fin terms → UInt8) :
    rangeSetOn pg den mins (List.finRange terms) = rangeSet pg den mins := by
  simp [rangeSetOn, rangeSet]

variable (hdd : pg.dd.Denotes den)

include hdd in
theorem den_addLiteral {lit : UInt8} (hlit : lit = 1 ∨ lit = 0) (node curNode : DdNode) :
    (den (addLiteral pg lit node curNode))ᶜ =
      (den curNode)ᶜ ∩ {v | (lit = 1 → v ∈ den node) ∧ (lit = 0 → v ∉ den node)} := by
  rcases hlit with rfl | rfl
  · ext v
    simp only [addLiteral, if_pos, hdd.bddIte, hdd.one, Set.mem_compl_iff, Set.mem_union,
      Set.mem_inter_iff, Set.mem_univ, Set.mem_ofPred_eq]
    by_cases h : v ∈ den node <;> simp +decide [h]
  · ext v
    simp +decide only [addLiteral, if_false, hdd.bddIte, hdd.one, Set.mem_compl_iff, Set.mem_union,
      Set.mem_inter_iff, Set.mem_univ, Set.mem_ofPred_eq]
    by_cases h : v ∈ den node <;> simp +decide [h]

include hdd in
/-- **The loop builds the complement.** Positions without a literal or without a range node leave it
alone. -/
theorem den_complementLoop (hknown : ∀ i : Fin terms, Known pg i) (mins : Fin terms → UInt8)
    (is : List (Fin terms)) (curNode : DdNode) :
    ∃ node, complementLoop pg mins curNode is = .ok node ∧
      (den node)ᶜ = (den curNode)ᶜ ∩ rangeSetOn pg den mins is := by
  induction is generalizing curNode with
  | nil => exact ⟨curNode, rfl, by simp [rangeSetOn]⟩
  | cons i rest ih =>
    have hcons : rangeSetOn pg den mins (i :: rest) =
        {v | ∀ node, rangeNodeOf pg i = some node →
          (mins i = 1 → v ∈ den node) ∧ (mins i = 0 → v ∉ den node)} ∩
        rangeSetOn pg den mins rest := by
      ext v
      simp [rangeSetOn]
    by_cases hlit : mins i = 1 ∨ mins i = 0
    · cases hnode : rangeNodeOf pg i with
      | none =>
        obtain ⟨node, hrun, hden⟩ := ih curNode
        refine ⟨node, ?_, ?_⟩
        · rw [complementLoop, if_pos hlit, findRangeNode_eq (hknown i), hnode]
          exact hrun
        · rw [hden, hcons, hnode]
          simp
      | some rangeNode =>
        obtain ⟨node, hrun, hden⟩ := ih (addLiteral pg (mins i) rangeNode curNode)
        refine ⟨node, ?_, ?_⟩
        · rw [complementLoop, if_pos hlit, findRangeNode_eq (hknown i), hnode]
          exact hrun
        · rw [hden, den_addLiteral hdd hlit, hcons, hnode, Set.inter_assoc]
          simp
    · obtain ⟨node, hrun, hden⟩ := ih curNode
      refine ⟨node, by rw [complementLoop, if_neg hlit, hrun], ?_⟩
      rw [not_or] at hlit
      rw [hden, hcons]
      simp [hlit.1, hlit.2]

include hdd in
/-- From `zero`, the loop's result is `one` exactly when no register values fit the minterm. -/
theorem complementLoop_zero (hknown : ∀ i : Fin terms, Known pg i) (mins : Fin terms → UInt8) :
    ∃ node, complementLoop pg mins pg.dd.zero (List.finRange terms) = .ok node ∧
      den node = (rangeSet pg den mins)ᶜ ∧
      (pg.dd.one = node ↔ ¬∃ v, v ∈ rangeSet pg den mins) := by
  obtain ⟨node, hrun, hden⟩ := den_complementLoop hdd hknown mins (List.finRange terms) pg.dd.zero
  rw [hdd.zero, Set.compl_empty, Set.univ_inter, rangeSetOn_finRange] at hden
  have hnode : den node = (rangeSet pg den mins)ᶜ := by rw [← hden, compl_compl]
  refine ⟨node, hrun, hnode, ⟨?_, fun h ↦ hdd.canonical _ _ ?_⟩⟩
  · rintro rfl ⟨v, hv⟩
    rw [hdd.one] at hnode
    exact (hnode ▸ Set.mem_univ v : v ∈ (rangeSet pg den mins)ᶜ) hv
  · rw [hdd.one, hnode, eq_comm, Set.compl_univ_iff, Set.eq_empty_iff_forall_notMem]
    exact fun v hv ↦ h ⟨v, hv⟩

/-! ### Valuations and register values -/

/-- The register values of a satisfying valuation fit the literals with a range node. -/
theorem Satisfies.mem_rangeSet {mins : Fin terms → UInt8} {v : V} {free : ℕ → Bool}
    (h : Satisfies pg den mins v free) : v ∈ rangeSet pg den mins := by
  intro i node hnode
  have hi := h i
  rw [condTrue, hnode] at hi
  exact hi

/-- The free truth values that follow the literals of a minterm. -/
def freeOf (mins : Fin terms → UInt8) (indx : ℕ) : Bool :=
  if h : indx < terms then mins ⟨indx, h⟩ == 1 else false

/-- Register values that fit the literals extend to a satisfying valuation, because the other
conditions are free. -/
theorem satisfies_freeOf {mins : Fin terms → UInt8} {v : V} (h : v ∈ rangeSet pg den mins) :
    Satisfies pg den mins v (freeOf mins) := by
  intro i
  rw [condTrue]
  cases hnode : rangeNodeOf pg i with
  | some node => exact h i node hnode
  | none =>
    simp only [freeOf, i.isLt, dif_pos, Fin.eta, beq_iff_eq]
    exact ⟨id, fun h₀ h₁ ↦ by rw [h₀] at h₁; exact absurd h₁ (by decide)⟩

theorem satisfiable_iff {mins : Fin terms → UInt8} :
    Satisfiable pg den mins ↔ ∃ v, v ∈ rangeSet pg den mins :=
  ⟨fun ⟨v, _, h⟩ ↦ ⟨v, h.mem_rangeSet⟩, fun ⟨v, h⟩ ↦ ⟨v, _, satisfies_freeOf h⟩⟩

/-! ### Compatible minterms -/

theorem compatibleLoop_eq (hknown : ∀ i : Fin terms, Known pg i) (minA minB : Fin terms → UInt8)
    (is : List (Fin terms)) :
    ∃ b, compatibleLoop pg minA minB is = .ok b ∧
      (b = true ↔ ∀ i ∈ is, minA i ≠ 2 → minB i ≠ minA i → rangeNodeOf pg i ≠ none) := by
  induction is with
  | nil => exact ⟨true, rfl, by simp⟩
  | cons i rest ih =>
    obtain ⟨b, hrun, hb⟩ := ih
    simp only [List.forall_mem_cons]
    by_cases h₂ : minA i = 2
    · exact ⟨b, by rw [compatibleLoop, if_pos h₂, hrun], by simp [h₂, hb]⟩
    · by_cases hne : minB i ≠ minA i
      · cases hnode : rangeNodeOf pg i with
        | none =>
          refine ⟨false, ?_, by simp [h₂, hne]⟩
          rw [compatibleLoop, if_neg h₂, if_pos hne, findRangeNode_eq (hknown i), hnode]
          rfl
        | some node =>
          refine ⟨b, ?_, by simp [hb]⟩
          rw [compatibleLoop, if_neg h₂, if_pos hne, findRangeNode_eq (hknown i), hnode]
          exact hrun
      · refine ⟨b, by rw [compatibleLoop, if_neg h₂, if_neg hne, hrun], ?_⟩
        simp [hb, hne]

/-- When the range test is reached and the register values of `B` fit `A`, all of `B` implies all of
`A`: outside the range nodes, `B` repeats the literals of `A`. -/
theorem ReachesRangeTest.mintermImplies {minA minB : Fin terms → UInt8}
    (h : ReachesRangeTest pg minA minB)
    (hsub : rangeSet pg den minB ⊆ rangeSet pg den minA) : MintermImplies pg den minB minA := by
  intro v free hB i
  have hA := hsub hB.mem_rangeSet
  have hBi := hB i
  rw [condTrue] at hBi ⊢
  cases hnode : rangeNodeOf pg i with
  | some node => exact hA i node hnode
  | none =>
    rw [hnode] at hBi
    by_cases h₂ : minA i = 2
    · simp +decide [h₂]
    · have heq : minB i = minA i := by
        by_contra hne
        exact h i h₂ hne hnode
      rw [← heq]
      exact hBi

/-- A satisfiable minterm that implies another one carries all its free literals. -/
theorem reachesRangeTest_of_mintermImplies {minA minB : Fin terms → UInt8}
    (hlitA : ∀ i, minA i = 0 ∨ minA i = 1 ∨ minA i = 2)
    (hlitB : ∀ i, minB i = 0 ∨ minB i = 1 ∨ minB i = 2)
    (hsat : Satisfiable pg den minB) (himp : MintermImplies pg den minB minA) :
    ReachesRangeTest pg minA minB := by
  intro i h₂ hne hnode
  obtain ⟨v, hv⟩ := satisfiable_iff.1 hsat
  -- flip the free value of condition `i`, which `B` leaves open or fixes the other way
  let free : ℕ → Bool := fun indx ↦ if indx = i then minA i == 0 else freeOf minB indx
  have hB : Satisfies pg den minB v free := by
    intro j
    by_cases hj : (j : ℕ) = i
    · obtain rfl : j = i := Fin.ext hj
      rw [condTrue, hnode]
      simp only [free, if_pos]
      rcases hlitA j with h | h | h <;> rcases hlitB j with h' | h' | h' <;>
        simp_all +decide
    · have hj' := satisfies_freeOf hv j
      rw [condTrue] at hj' ⊢
      cases hnodej : rangeNodeOf pg j with
      | some node => rw [hnodej] at hj'; exact hj'
      | none =>
        rw [hnodej] at hj'
        simp only [free, if_neg hj]
        exact hj'
  have hA := himp v free hB i
  rw [condTrue, hnode] at hA
  simp only [free, if_pos] at hA
  rcases hlitA i with h | h | h <;> simp_all +decide

/-! ### The answers -/

variable [DecidableEq DdNode]

include hdd in
/-- **`IR_possible_values` decides its question.** -/
theorem possibleValues_meets (hknown : ∀ i : Fin terms, Known pg i) (mins : Fin terms → UInt8)
    {minIndx : ℕ} (hindx : Known pg minIndx) :
    ∃ rv, possibleValues pg mins minIndx = .ok rv ∧ PossibleValuesMeets pg den mins minIndx rv := by
  obtain ⟨curNode, hrun, hden, hone⟩ := complementLoop_zero hdd hknown mins
  by_cases hempty : pg.dd.one = curNode
  · refine ⟨-1, ?_, ⟨iff_of_true rfl (hone.1 hempty), by simp, by simp, ?_, .inl rfl⟩⟩
    · rw [possibleValues, hrun, Run.ok_bind, if_pos hempty]
      rfl
    · exact fun hv ↦ absurd hv (hone.1 hempty)
  have hsat : ∃ v, v ∈ rangeSet pg den mins := by
    by_contra h
    exact hempty (hone.2 h)
  have hunfold : possibleValues pg mins minIndx = (do
      match ← findRangeNode pg minIndx with
      | none => return 2
      | some rangeNode =>
        if pg.dd.bddLeq (pg.dd.cuddNot rangeNode) curNode then return 1
        else if pg.dd.bddLeq rangeNode curNode then return 0
        else return 2) := by
    rw [possibleValues, hrun, Run.ok_bind, if_neg hempty]
  rw [hunfold, findRangeNode_eq hindx, Run.ok_bind]
  cases hnode : rangeNodeOf pg minIndx with
  | none =>
    exact ⟨2, rfl, ⟨iff_of_false (by decide) (not_not_intro hsat), by simp, by simp,
      fun _ _ ↦ rfl, by simp⟩⟩
  | some node =>
    have htrue : pg.dd.bddLeq (pg.dd.cuddNot node) curNode = true ↔
        ∀ v ∈ rangeSet pg den mins, v ∈ den node := by
      rw [hdd.bddLeq, hdd.cuddNot, hden, Set.compl_subset_compl]
      rfl
    have hfalse : pg.dd.bddLeq node curNode = true ↔
        ∀ v ∈ rangeSet pg den mins, v ∉ den node := by
      rw [hdd.bddLeq, hden, Set.subset_compl_comm]
      rfl
    obtain ⟨v, hv⟩ := hsat
    simp only
    split_ifs with h₁ h₂
    · refine ⟨1, rfl, ⟨iff_of_false (by decide) (not_not_intro ⟨v, hv⟩),
        fun _ ↦ ⟨node, hnode, htrue.1 h₁⟩, by simp, fun _ hboth ↦ ?_, by simp⟩⟩
      obtain ⟨w, hw, hnot⟩ := (hboth node hnode).2
      exact absurd (htrue.1 h₁ w hw) hnot
    · refine ⟨0, rfl, ⟨iff_of_false (by decide) (not_not_intro ⟨v, hv⟩), by simp,
        fun _ ↦ ⟨node, hnode, hfalse.1 h₂⟩, fun _ hboth ↦ ?_, by simp⟩⟩
      obtain ⟨w, hw, hin⟩ := (hboth node hnode).1
      exact absurd hin (hfalse.1 h₂ w hw)
    · exact ⟨2, rfl, ⟨iff_of_false (by decide) (not_not_intro ⟨v, hv⟩), by simp, by simp,
        fun _ _ ↦ rfl, by simp⟩⟩

include hdd in
/-- **What `IR_minterm_implication` computes.** It returns 1 exactly when `B` is satisfiable and
implies `A`, the converse of what its header says; the other answers are as promised. -/
theorem mintermImplication_spec (hknown : ∀ i : Fin terms, Known pg i)
    {minA minB : Fin terms → UInt8} (hlitA : ∀ i, minA i = 0 ∨ minA i = 1 ∨ minA i = 2)
    (hlitB : ∀ i, minB i = 0 ∨ minB i = 1 ∨ minB i = 2) :
    ∃ retval, mintermImplication pg minA minB = .ok retval ∧
      (retval = -1 ↔ ReachesRangeTest pg minA minB ∧
        (¬Satisfiable pg den minA ∨ ¬Satisfiable pg den minB)) ∧
      (retval = 1 ↔ Satisfiable pg den minB ∧ MintermImplies pg den minB minA) ∧
      (retval = 0 → ∀ v free, Satisfies pg den minA v free → ¬Satisfies pg den minB v free) := by
  obtain ⟨b, hcompat, hb⟩ := compatibleLoop_eq hknown minA minB (List.finRange terms)
  have hreach : b = true ↔ ReachesRangeTest pg minA minB :=
    hb.trans ⟨fun h i ↦ h i (List.mem_finRange i), fun h i _ ↦ h i⟩
  by_cases hbt : b = true
  swap
  · -- the early return
    refine ⟨2, ?_, ?_, ?_, by simp⟩
    · rw [mintermImplication, hcompat, Run.ok_bind, if_neg hbt]
      rfl
    · exact iff_of_false (by decide) fun h ↦ hbt (hreach.2 h.1)
    · exact iff_of_false (by decide) fun h ↦
        hbt (hreach.2 (reachesRangeTest_of_mintermImplies hlitA hlitB h.1 h.2))
  obtain ⟨nodeA, hrunA, hdenA, honeA⟩ := complementLoop_zero hdd hknown minA
  obtain ⟨nodeB, hrunB, hdenB, honeB⟩ := complementLoop_zero hdd hknown minB
  rw [← satisfiable_iff] at honeA honeB
  have hR := hreach.1 hbt
  have hBsub : Satisfiable pg den minB ∧ MintermImplies pg den minB minA ↔
      Satisfiable pg den minB ∧ rangeSet pg den minB ⊆ rangeSet pg den minA := by
    refine and_congr_right fun _ ↦ ⟨fun h v hv ↦ ?_, hR.mintermImplies⟩
    exact (h v _ (satisfies_freeOf hv)).mem_rangeSet
  rw [hBsub, mintermImplication, hcompat, Run.ok_bind, if_pos hbt, hrunA, Run.ok_bind]
  by_cases hA : pg.dd.one = nodeA
  · rw [if_pos hA]
    refine ⟨-1, rfl, iff_of_true rfl ⟨hR, .inl (honeA.1 hA)⟩, ?_, by simp⟩
    refine iff_of_false (by decide) fun h ↦ honeA.1 hA ?_
    obtain ⟨v, hv⟩ := satisfiable_iff.1 h.1
    exact satisfiable_iff.2 ⟨v, h.2 hv⟩
  rw [if_neg hA, hrunB, Run.ok_bind]
  by_cases hB : pg.dd.one = nodeB
  · rw [if_pos hB]
    exact ⟨-1, rfl, iff_of_true rfl ⟨hR, .inr (honeB.1 hB)⟩,
      iff_of_false (by decide) fun h ↦ honeB.1 hB h.1, by simp⟩
  rw [if_neg hB]
  have hsatA : Satisfiable pg den minA := by_contra fun h ↦ hA (honeA.2 h)
  have hsatB : Satisfiable pg den minB := by_contra fun h ↦ hB (honeB.2 h)
  have hminus : ∀ rv : ℤ, rv ≠ -1 → (rv = -1 ↔ ReachesRangeTest pg minA minB ∧
      (¬Satisfiable pg den minA ∨ ¬Satisfiable pg den minB)) := fun rv hrv ↦
    iff_of_false hrv fun h ↦ h.2.elim (absurd hsatA) (absurd hsatB)
  -- the first inclusion test compares the complements, so it asks whether `B` lies in `A`
  have hleq : pg.dd.bddLeq nodeA nodeB = true ↔
      rangeSet pg den minB ⊆ rangeSet pg den minA := by
    rw [hdd.bddLeq, hdenA, hdenB, Set.compl_subset_compl]
  have hexcl : pg.dd.bddLeq (pg.dd.cuddNot nodeB) nodeA = true ↔
      rangeSet pg den minB ⊆ (rangeSet pg den minA)ᶜ := by
    rw [hdd.bddLeq, hdd.cuddNot, hdenA, hdenB, compl_compl]
  split_ifs with h₁ h₂
  · exact ⟨1, rfl, hminus 1 (by decide), iff_of_true rfl ⟨hsatB, hleq.1 h₁⟩, by simp⟩
  · exact ⟨0, rfl, hminus 0 (by decide), iff_of_false (by decide) fun h ↦ h₁ (hleq.2 h.2),
      fun _ v free hsA hsB ↦ hexcl.1 h₂ hsB.mem_rangeSet hsA.mem_rangeSet⟩
  · exact ⟨2, rfl, hminus 2 (by decide), iff_of_false (by decide) fun h ↦ h₁ (hleq.2 h.2),
      by simp⟩

include hdd in
/-- **When the two queries do what they promise.** `IR_possible_values` always does;
`IR_minterm_implication` does unless `B` is a satisfiable minterm that implies `A` while `A` does not
imply `B`, where it answers 1. -/
theorem mintermQueries_meet_iff (hknown : ∀ i : Fin terms, Known pg i) (mins : Fin terms → UInt8)
    {minIndx : ℕ} (hindx : Known pg minIndx) {minA minB : Fin terms → UInt8}
    (hlitA : ∀ i, minA i = 0 ∨ minA i = 1 ∨ minA i = 2)
    (hlitB : ∀ i, minB i = 0 ∨ minB i = 1 ∨ minB i = 2) :
    ∃ rv retval, possibleValues pg mins minIndx = .ok rv ∧
      mintermImplication pg minA minB = .ok retval ∧
      (PossibleValuesMeets pg den mins minIndx rv ∧
          MintermImplicationMeets pg den minA minB retval ↔
        (Satisfiable pg den minB → MintermImplies pg den minB minA →
          MintermImplies pg den minA minB)) := by
  obtain ⟨rv, hrv, hmeets⟩ := possibleValues_meets hdd hknown mins hindx
  obtain ⟨retval, hret, hminus, hone, hzero⟩ := mintermImplication_spec hdd hknown hlitA hlitB
  refine ⟨rv, retval, hrv, hret, ?_⟩
  constructor
  · rintro ⟨-, himpl⟩ hsat hBA
    exact himpl.implies (hone.2 ⟨hsat, hBA⟩)
  · intro h
    exact ⟨hmeets, hminus, fun h₁ ↦ h (hone.1 h₁).1 (hone.1 h₁).2, hzero⟩

end Correctness

/-- The answer for `A = (r > 0)` and `B = (r > 0 ∧ r == 3)` is 1, although `r = 1` satisfies only
`A`. -/
theorem mintermImplication_converse :
    mintermImplication samplePredGraph ![1, 2] ![1, 1] = .ok 1 ∧
      ¬MintermImplicationMeets samplePredGraph tableDen ![1, 2] ![1, 1] 1 := by
  refine ⟨by decide, fun h ↦ ?_⟩
  have hA : Satisfies samplePredGraph tableDen ![1, 2] 1 fun _ ↦ false := by
    refine Fin.forall_fin_two.2 ⟨?_, ?_⟩ <;>
      simp +decide [condTrue, rangeNodeOf, samplePredGraph, tableDen]
  have hB := (h.implies rfl 1 _ hA) 1
  simp +decide [condTrue, rangeNodeOf, samplePredGraph, tableDen] at hB

theorem mintermQueries_meet_iff_sample :
    samplePredGraph.dd.Denotes tableDen ∧ (∀ i : Fin 2, Known samplePredGraph i) ∧
      ∃ rv retval, possibleValues samplePredGraph ![1, 2] 1 = .ok rv ∧
        mintermImplication samplePredGraph ![1, 1] ![0, 1] = .ok retval ∧
        (PossibleValuesMeets samplePredGraph tableDen ![1, 2] 1 rv ∧
            MintermImplicationMeets samplePredGraph tableDen ![1, 1] ![0, 1] retval ↔
          (Satisfiable samplePredGraph tableDen ![0, 1] →
            MintermImplies samplePredGraph tableDen ![0, 1] ![1, 1] →
              MintermImplies samplePredGraph tableDen ![1, 1] ![0, 1])) :=
  have hknown : ∀ i : Fin 2, Known samplePredGraph i := by
    refine Fin.forall_fin_two.2 ⟨?_, ?_⟩ <;> simp [Known, samplePredGraph]
  ⟨tableManager_denotes 4, hknown,
    mintermQueries_meet_iff (tableManager_denotes 4) hknown ![1, 2] (hknown 1) (by decide)
      (by decide)⟩

end OpenImpact.IR
