import OpenImpact.Library.GraphBackedge
import Mathlib.Algebra.Ring.Int.Defs

/-!
# The constraint system of the WCET analysis

`wcet_analysis.c` writes an integer linear program for `lp_solve`: a variable per arc, an equation per
block, and a bound per back-edge. A written line is kept here as the linear constraint it spells, with
its terms in the order they are written. `lp_solve` itself is outside this repository; what it solves
is the maximum of the objective over `Feasible`.
-/

namespace OpenImpact.Wcet

open OpenImpact.Graph

/-- The variables of the program: `s`, `t`, and the name `ILP_get_arc_name` makes of the ids of an
arc's ends. -/
inductive Var where
  | s
  | t
  | d (pred succ : Id)
  deriving DecidableEq, Repr

/-- `=` and `<=`. -/
inductive Rel where
  | eq
  | le
  deriving DecidableEq, Repr

/-- A written line: the terms with their coefficients, and the constant on the right. -/
structure Line where
  terms : List (ℤ × Var)
  rel : Rel
  rhs : ℤ
  deriving DecidableEq, Repr

/-- The value of a sum of terms. -/
def eval (σ : Var → ℤ) (terms : List (ℤ × Var)) : ℤ := (terms.map fun p ↦ p.1 * σ p.2).sum

/-- An assignment satisfies a line. -/
def Line.Holds (σ : Var → ℤ) (line : Line) : Prop :=
  match line.rel with
  | .eq => eval σ line.terms = line.rhs
  | .le => eval σ line.terms ≤ line.rhs

instance (σ : Var → ℤ) (line : Line) : Decidable (line.Holds σ) := by
  unfold Line.Holds
  split <;> infer_instance

/-- `ILP_get_arc_name`. -/
def getArcName (S : Shape) (arc : Id) : Var := .d (S.arcPred arc) (S.arcSucc arc)

/-- `ILP_create_eq_list`: the names of the arcs, each with the sign written before it. -/
def createEqList (S : Shape) (arcs : List Id) (operator : ℤ) : List (ℤ × Var) :=
  arcs.map fun arc ↦ (operator, getArcName S arc)

/-- `ILP_create_incoming_list`. -/
def createIncomingList (S : Shape) (node : Id) : List (ℤ × Var) := createEqList S (S.pred node) 1

/-- `ILP_create_target_list`, which always stands behind a minus. -/
def createTargetList (S : Shape) (node : Id) : List (ℤ × Var) := createEqList S (S.succ node) (-1)

/-- The loop of `ILP_create_nodes_eq` from the second node on, and the last equation. The loop stops
at the last element, so it runs past the end of a list without a second element. -/
def createNodesEqFrom (S : Shape) : List Id → Run (List Line)
  | [] => .error .fault
  | [node] => return [⟨createIncomingList S node ++ [(-1, .t)], .eq, 0⟩, ⟨[(1, .t)], .eq, 1⟩]
  | node :: rest => do
    let lines ← createNodesEqFrom S rest
    return ⟨createIncomingList S node ++ createTargetList S node, .eq, 0⟩ :: lines

/-- `ILP_create_nodes_eq`, on `topo_list`. -/
def createNodesEq (S : Shape) : List Id → Run (List Line)
  | [] => .error .fault
  | node :: rest => do
    let lines ← createNodesEqFrom S rest
    return ⟨[(1, .s)], .eq, 1⟩ :: ⟨(1, .s) :: createTargetList S node, .eq, 0⟩ :: lines

/-- `ILP_create_backedges_eq`. Without arcs the list is `NULL`, and its `first` is read. -/
def createBackedgesEq (S : Shape) (backedge : Id → Bool) (numIteration : Id → ℤ) :
    Run (List Line) :=
  if S.arcs = [] then .error .fault
  else return (S.arcs.filter backedge).map fun arc ↦
    ⟨[(1, getArcName S arc)], .le, numIteration arc⟩

/-- `ILP_create_max_eq`: the terms of the objective. -/
def createMaxEq (S : Shape) (wcetWeight : Id → ℤ) : Run (List (ℤ × Var)) :=
  if S.arcs = [] then .error .fault
  else return (S.arcs.map fun arc ↦
    (if wcetWeight arc > 0 then wcetWeight arc else 0, getArcName S arc)) ++ [(1, .t)]

/-- `ILP_create_arcs_list`: the variables declared integer. -/
def createArcsList (S : Shape) : Run (List Var) :=
  if S.arcs = [] then .error .fault
  else return .s :: S.arcs.map (getArcName S) ++ [.t]

/-- The points among which `lp_solve` finds the maximum: integers, and by default not negative. -/
structure Feasible (generals : List Var) (lines : List Line) (σ : Var → ℤ) : Prop where
  nonneg : ∀ x ∈ generals, 0 ≤ σ x
  holds : ∀ line ∈ lines, line.Holds σ

/-- `ILP_init`, after `L_create_cb_graph`. `Graph_imm_dominator` and `Graph_imm_post_dominator` write
fields that nothing here reads; of `Graph_control_dependence` the topological sort matters. -/
def ilpInit (S : Shape) : Run Marks := do
  let M ← dominator S .fresh
  let M ← postDominator S M
  let M ← Prod.snd <$> topologicalSort S M
  let M ← Prod.snd <$> topologicalSort S M
  let M ← preorderDfsSort S true M
  let root ← S.getRoot
  preorderDfsVisit S true S.fuel root M

/-! ### What `ILP_init` leaves -/

section Init

open Foundation.Dfs

variable {S : Shape} (hS : S.WF)

/-- `Graph_post_dominator` returns, and records its result in the `post_dom` sets only. -/
theorem postDominator_ok (hS : S.WF) (M : Marks) :
    ∃ postDom, postDominator S M =
      .ok { M with postDom := postDom, flags := { M.flags with postDom := true } } := by
  rw [postDominator]
  split_ifs with hflag
  · exact ⟨M.postDom, by rw [← hflag]; rfl⟩
  · have hadj : ∀ v ∈ S.nodes, ∀ a ∈ S.succ v, S.arcSucc a ∈ S.nodes := fun v _ a ha ↦
      arcSucc_mem_nodes hS ha
    obtain ⟨dom', hrun, -⟩ := computeDom_ok hadj M.postDom
    exact ⟨dom', by rw [hrun]; rfl⟩

include hS in
/-- **`ILP_init`** leaves the reverse postorder of a traversal in `topo_list`, and the back arcs of the
same traversal flagged. -/
theorem ilpInit_spec {r : Id} (hr : S.root = some r) :
    ∃ evs V M, Scan S.succ S.arcSucc r [r] {r} (S.succ r) evs V ∧ ilpInit S = .ok M ∧
      M.topoList = (postorder r evs).reverse ∧
      ∀ a ∈ S.arcs, M.backedge a = true ↔ ∃ x, .back x a ∈ evs := by
  obtain ⟨dom, hdom⟩ := dominator_ok hS .fresh
  obtain ⟨postDom, hpost⟩ := postDominator_ok hS
    { Marks.fresh with dom := dom, flags := { Marks.fresh.flags with dom := true } }
  obtain ⟨evs, V, T, hscan, htopo, -⟩ := topologicalSort_spec hS hr
    (M := { Marks.fresh with
      dom := dom
      postDom := postDom
      flags := { Marks.fresh.flags with dom := true, postDom := true } }) rfl
  obtain ⟨evs', V', M₁, M₂, hscan', hsort, hvisit, -, -, hlist, -, hback⟩ :=
    preorderDfsSort_visit_scan hS hr (M := { Marks.fresh with
      dom := dom
      postDom := postDom
      flags := { Marks.fresh.flags with dom := true, postDom := true, topoSort := true }
      tflags := T
      info := fun v ↦
        if v ∈ postorder r evs then ((postorder r evs).reverse.idxOf v : ℤ) + 1
        else if v ∈ S.nodes then -1 else 0
      topoList := (postorder r evs).reverse }) rfl fun _ _ ↦ rfl
  obtain ⟨rfl, rfl⟩ := hscan.unique hscan'
  refine ⟨evs, V, M₂, hscan, ?_, hlist, hback⟩
  rw [ilpInit, hdom, Run.ok_bind, hpost, Run.ok_bind, htopo, Run.map_ok, Run.ok_bind,
    topologicalSort_cached rfl, Run.map_ok, Run.ok_bind]
  refine (congrArg (· >>= _) hsort).trans ?_
  rw [Run.ok_bind, Shape.getRoot, hr, Run.ok_bind]
  exact hvisit

end Init

end OpenImpact.Wcet
