import OpenImpact.Library.GraphPaths

/-!
# Immediate dominators and control dependence

The analyses of `i_graph.c` that work on the dominator sets and on `topo_list`. Each runs the analysis
before it when its flag is not set; none but `Graph_control_dependence` runs the topological sort, and
that one only after the immediate post-dominators. `Results` adds what they record to the marks.
-/

namespace OpenImpact.Graph

/-- A class of `graph->equiv_cds`. -/
structure EquivCd where
  id : Id
  contrDep : Option (Finset Id)
  nodes : List Id
  arcs : List Id
  deriving DecidableEq

/-- What all analyses record. The `Done` fields are the bits `GRAPHIMMDOM`, `GRAPHIMMPOSTDOM`,
`GRAPHCONTROL` and `GRAPHEQUIVCD`, and `none` is `NULL`. -/
structure Results extends Marks where
  immDomDone : Bool
  immPostDomDone : Bool
  controlDone : Bool
  equivCdDone : Bool
  immDom : Id → Option Id
  immPostDom : Id → Option Id
  contrDep : Id → Option (Finset Id)
  equivCds : List EquivCd
  /-- The id of the class of a node. -/
  equivCd : Id → Option Id

/-- The fields of newly created nodes and arcs. -/
def Results.fresh : Results where
  toMarks := .fresh
  immDomDone := false
  immPostDomDone := false
  controlDone := false
  equivCdDone := false
  immDom _ := none
  immPostDom _ := none
  contrDep _ := none
  equivCds := []
  equivCd _ := none

/-- `Set_in`. -/
def setIn (s : Option (Finset Id)) (v : Id) : Prop := v ∈ s.getD ∅

instance (s : Option (Finset Id)) (v : Id) : Decidable (setIn s v) := by
  unfold setIn
  infer_instance

/-! ### Immediate dominators -/

/-- The inner loop of `Graph_imm_dominator` and `Graph_imm_post_dominator`: the node of the set that
comes last in the list before `node`. -/
def lastBefore (node : Id) (set : Option (Finset Id)) : List Id → Option Id → Option Id
  | [], imm => imm
  | topoNode :: rest, imm =>
    if topoNode = node then imm
    else lastBefore node set rest (if setIn set topoNode then some topoNode else imm)

/-- `Graph_imm_dominator`. -/
def immDominator (S : Shape) (R : Results) : Run Results :=
  if R.immDomDone then return R
  else do
    let M ← dominator S R.toMarks
    return { R with
      toMarks := M
      immDom := fun v ↦ if v ∈ S.nodes then lastBefore v (M.dom v) M.topoList none else R.immDom v
      immDomDone := true }

/-- `Graph_imm_post_dominator`, which goes through `topo_list` from its end. -/
def immPostDominator (S : Shape) (R : Results) : Run Results :=
  if R.immPostDomDone then return R
  else do
    let M ← postDominator S R.toMarks
    return { R with
      toMarks := M
      immPostDom := fun v ↦
        if v ∈ S.nodes then lastBefore v (M.postDom v) M.topoList.reverse none else R.immPostDom v
      immPostDomDone := true }

/-! ### Control dependence -/

/-- The `while` loop of `Graph_control_dependence`, from `cur_imm_pdom` on. `stop` is `end`. -/
def controlWalk (immPostDom : Id → Option Id) (final stop : Option Id) (arc : Id) :
    ℕ → Option Id → (Id → Option (Finset Id)) → Run (Id → Option (Finset Id))
  | 0, _, _ => .error .outOfFuel
  | fuel + 1, some cur, contrDep =>
    if final ≠ none ∧ some cur ≠ final ∧ some cur ≠ stop then
      controlWalk immPostDom final stop arc fuel (immPostDom cur)
        (Function.update contrDep cur (addDom (contrDep cur) arc))
    else .ok contrDep
  | _ + 1, none, contrDep => .ok contrDep

/-- The body of the loop of `Graph_control_dependence` over the arcs out of `node`. -/
def controlArc (S : Shape) (R : Results) (stop : Option Id) (node : Id)
    (contrDep : Id → Option (Finset Id)) (arc : Id) : Run (Id → Option (Finset Id)) :=
  let dest := S.arcSucc arc
  if ¬setIn (R.dom node) dest ∧ ¬setIn (R.postDom dest) node then
    controlWalk R.immPostDom (R.immPostDom node) stop arc S.fuel (some dest) contrDep
  else .ok contrDep

/-- `Graph_control_dependence`. -/
def controlDependence (S : Shape) (R : Results) : Run Results :=
  if R.controlDone then return R
  else do
    let R ← immPostDominator S R
    let (_, M) ← topologicalSort S R.toMarks
    let R := { R with toMarks := M }
    let contrDep ← S.nodes.foldlM (fun contrDep node ↦
        (S.succ node).foldlM (controlArc S R M.topoList.getLast? node) contrDep)
      (fun v ↦ if v ∈ S.nodes then none else R.contrDep v)
    return { R with contrDep := contrDep, controlDone := true }

/-! ### Nodes with the same control dependences -/

/-- `Set_same`. -/
def setSame (s t : Option (Finset Id)) : Prop := s.getD ∅ = t.getD ∅

instance (s t : Option (Finset Id)) : Decidable (setSame s t) := by
  unfold setSame
  infer_instance

/-- `Set_2array`: the elements in increasing order. -/
def set2array (s : Option (Finset Id)) : List Id :=
  (List.range ((s.getD ∅).sup id + 1)).filter (· ∈ s.getD ∅)

/-- `Graph_arc_from_id`. -/
def arcFromId (S : Shape) (id : Id) : Run Id :=
  if id ∈ S.arcs then .ok id else .error (.punt "Hash Table Element not found.")

/-- The loop over `equiv_cds`: the first class with the set of the node gets the node. -/
def joinClass (node : Id) (set : Option (Finset Id)) : List EquivCd → Option (List EquivCd × Id)
  | [] => none
  | c :: rest =>
    if setSame c.contrDep set then some ({ c with nodes := c.nodes ++ [node] } :: rest, c.id)
    else (joinClass node set rest).map fun p ↦ (c :: p.1, p.2)

/-- The body of the loop of `Graph_equiv_cd`, with `Graph_create_graph_equiv_cd`. -/
def equivCdNode (S : Shape) (R : Results) (node : Id) : Run Results :=
  match joinClass node (R.contrDep node) R.equivCds with
  | some (equivCds, id) => return { R with
      equivCds := equivCds
      equivCd := Function.update R.equivCd node (some id) }
  | none => do
    let arcs ← (set2array (R.contrDep node)).mapM (arcFromId S)
    let id := R.equivCds.length + 1
    return { R with
      equivCds := R.equivCds ++ [⟨id, R.contrDep node, [node], arcs⟩]
      equivCd := Function.update R.equivCd node (some id) }

/-- `Graph_equiv_cd`. -/
def equivCd (S : Shape) (R : Results) : Run Results :=
  if R.equivCdDone then return R
  else do
    let R ← controlDependence S R
    let R ← R.topoList.foldlM (equivCdNode S) R
    return { R with equivCdDone := true }

/-! ### Calls -/

/-- The analyses. -/
inductive Analysis where
  | dominator
  | postDominator
  | immDominator
  | immPostDominator
  | controlDependence
  | equivCd
  | topologicalSort
  | preorderDfsSort (directed : Bool)
  | countPaths
  deriving DecidableEq

/-- One call. -/
def analyse (S : Shape) (R : Results) : Analysis → Run Results
  | .dominator => (fun M ↦ { R with toMarks := M }) <$> dominator S R.toMarks
  | .postDominator => (fun M ↦ { R with toMarks := M }) <$> postDominator S R.toMarks
  | .immDominator => immDominator S R
  | .immPostDominator => immPostDominator S R
  | .controlDependence => controlDependence S R
  | .equivCd => equivCd S R
  | .topologicalSort => (fun p ↦ { R with toMarks := p.2 }) <$> topologicalSort S R.toMarks
  | .preorderDfsSort directed => (fun M ↦ { R with toMarks := M }) <$> preorderDfsSort S directed R.toMarks
  | .countPaths => (fun M ↦ { R with toMarks := M }) <$> countPaths S R.toMarks

/-- Calls on a new graph, one after the other. -/
def runAnalyses (S : Shape) (calls : List Analysis) : Run Results :=
  calls.foldlM (analyse S) .fresh

end OpenImpact.Graph
