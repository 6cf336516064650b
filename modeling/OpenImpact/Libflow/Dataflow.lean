import OpenImpact.Foundation.Sweep
import OpenImpact.Library.Halt
import Mathlib.Data.Finset.Sort
import Mathlib.Data.Int.Notation

/-!
# Data-flow graphs

`dataflow.c` of `libflow`, with the parts of `graph.c` that it uses: building a graph of nodes with source
and destination registers, reaching definitions, live variables, dominators and post-dominators. A `Set`
is a finite set, and `NULL` the empty one. The arrays `nodes` and `regs` are maps from ids; an analysis
first goes through the elements of all nodes of the graph, which is where an id outside the array shows.
-/

namespace OpenImpact.Libflow

open Foundation

abbrev NodeId := ℤ

abbrev RegId := ℤ

/-- `MAX_NODE_ID` -/
def maxNodeId : ℕ := 16 * 1024

/-- `MAX_REG_ID` -/
@[irreducible]
def maxRegId : ℕ := 16 * 1024

/-- `GOOD_ID` -/
def GoodId (id : NodeId) : Prop := 0 ≤ id ∧ id < maxNodeId

instance (id : NodeId) : Decidable (GoodId id) := inferInstanceAs (Decidable (_ ∧ _))

/-- `GOOD_REG_ID` -/
def GoodRegId (id : RegId) : Prop := 0 ≤ id ∧ id < maxRegId

instance (id : RegId) : Decidable (GoodRegId id) := inferInstanceAs (Decidable (_ ∧ _))

/-! ### Building a graph -/

/-- The graph with the arrays. -/
structure DfGraph where
  /-- `graph->nodes` -/
  nodes : List NodeId
  /-- The source nodes of the incoming arcs of a node. -/
  source : NodeId → List NodeId
  /-- The destination nodes of the outgoing arcs. -/
  destination : NodeId → List NodeId
  /-- The nodes that are `defined`, whose extension is set. -/
  defined : Finset NodeId
  node : Option NodeId
  entry : Option NodeId
  srcReg : NodeId → Finset RegId
  destReg : NodeId → Finset RegId
  eDef : RegId → Finset NodeId
  eUse : RegId → Finset NodeId
  regDefined : Finset RegId

/-- `define_df_graph`. -/
def defineDfGraph : DfGraph where
  nodes := []
  source _ := []
  destination _ := []
  defined := ∅
  node := none
  entry := none
  srcReg _ := ∅
  destReg _ := ∅
  eDef _ := ∅
  eUse _ := ∅
  regDefined := ∅

/-- `FindNode`, and `AddNode` of a new node if there is none. -/
def findOrAddNode (id : NodeId) (g : DfGraph) : DfGraph :=
  if id ∈ g.nodes then g else { g with nodes := g.nodes ++ [id] }

/-- `add_df_node`. -/
def addDfNode (id : NodeId) (g : DfGraph) : Run DfGraph :=
  if ¬ GoodId id then .error (.punt "add_df_node: bad node id")
  else if id ∈ g.defined then .error (.punt "add_df_node: cannot add a node twice")
  else
    let g := findOrAddNode id g
    .ok { g with
      defined := insert id g.defined
      node := some id
      entry := match g.entry with
        | none => some id
        | some e => some e }

/-- `add_df_node_src_reg`. -/
def addDfNodeSrcReg (regId : RegId) (g : DfGraph) : Run DfGraph :=
  match g.node with
  | none => .error (.punt "add_df_node_src_reg: need to call add_df_node() first")
  | some node =>
    if ¬ GoodRegId regId then .error (.punt "add_df_node_src_reg: bad register id")
    else .ok { g with
      regDefined := insert regId g.regDefined
      srcReg := Function.update g.srcReg node (insert regId (g.srcReg node))
      eUse := Function.update g.eUse regId (insert node (g.eUse regId)) }

/-- `add_df_node_dest_reg`. -/
def addDfNodeDestReg (regId : RegId) (g : DfGraph) : Run DfGraph :=
  match g.node with
  | none => .error (.punt "add_df_node_dest_reg: need to call add_df_node() first")
  | some node =>
    if ¬ GoodRegId regId then .error (.punt "add_df_node_dest_reg: bad register id")
    else .ok { g with
      regDefined := insert regId g.regDefined
      destReg := Function.update g.destReg node (insert regId (g.destReg node))
      eDef := Function.update g.eDef regId (insert node (g.eDef regId)) }

/-- `ConnectNodes`, with `AUTO_REMOVE_MULTIPLE_ARCS`. -/
def connectNodes (srcId destId : NodeId) (g : DfGraph) : DfGraph :=
  if destId ∈ g.destination srcId then g
  else { g with
    destination := Function.update g.destination srcId (destId :: g.destination srcId)
    source := Function.update g.source destId (srcId :: g.source destId) }

/-- `connect_df_node`. -/
def connectDfNode (srcId destId : NodeId) (g : DfGraph) : DfGraph :=
  connectNodes srcId destId (findOrAddNode destId (findOrAddNode srcId g))

/-- `end_df_graph`. -/
def endDfGraph (g : DfGraph) : Run Unit :=
  if g.entry = none then .error (.punt "end_of_graph: empty function")
  else if ∃ id ∈ g.nodes, id ∉ g.defined then
    .error (.punt "incomplete definition: missing some nodes")
  else .ok ()

/-- The calls that build a graph. -/
inductive Call where
  | addNode (id : NodeId)
  | addSrcReg (regId : RegId)
  | addDestReg (regId : RegId)
  | connect (srcId destId : NodeId)

/-- One call. -/
def exec (g : DfGraph) : Call → Run DfGraph
  | .addNode id => addDfNode id g
  | .addSrcReg regId => addDfNodeSrcReg regId g
  | .addDestReg regId => addDfNodeDestReg regId g
  | .connect srcId destId => .ok (connectDfNode srcId destId g)

/-- A graph from `define_df_graph` to `end_df_graph`. -/
def build (calls : List Call) : Run DfGraph := do
  let g ← calls.foldlM exec defineDfGraph
  endDfGraph g
  .ok g

/-! ### Analyses -/

/-- The analyses start with a loop over the elements of the nodes. -/
def checkIds {α : Type} (g : DfGraph) (r : Option α) : Run α :=
  if ∃ id ∈ g.nodes, ¬ GoodId id then .error .fault
  else
    match r with
    | none => .error .outOfFuel
    | some a => .ok a

/-- The sets before and after a node: `e_in` and `e_out`, or `v_in` and `v_out`. -/
structure InOut (β : Type) where
  inSet : Finset β
  outSet : Finset β

/-- The test for a change with `Set_subtract` and `Set_size`. -/
def differ {β : Type} [DecidableEq β] (a b : Finset β) : Bool :=
  (a \ b).card ≠ 0 || (b \ a).card ≠ 0

/-- `kill` of a node: all nodes that define one of its destination registers, but the node. -/
def kill (g : DfGraph) (i : NodeId) : Finset NodeId :=
  ((List.range maxRegId).foldl (fun (def_ : Finset NodeId) (regId : ℕ) ↦
    if (regId : ℤ) ∉ g.regDefined then def_
    else if (regId : ℤ) ∉ g.destReg i then def_
    else def_ ∪ g.eDef regId) ∅) \ {i}

/-- The sets of a node in `reaching_definition`. -/
def reachNode (g : DfGraph) (e : NodeId → InOut NodeId) (i : NodeId) : InOut NodeId :=
  let inSet := (g.source i).foldl (fun inSet src ↦ inSet ∪ (e src).outSet) ∅
  ⟨inSet, {i} ∪ (inSet \ kill g i)⟩

/-- `reaching_definition`. -/
def reachingDefinition (g : DfGraph) : Run (NodeId → InOut NodeId) :=
  checkIds g (Sweep.sweeps (fun a b ↦ differ a.outSet b.outSet) (reachNode g) g.nodes
    (g.nodes.length * g.nodes.length + 1) fun i ↦ ⟨∅, {i}⟩)

/-- The sets of a node in `ud_chain`. -/
def chainNode (g : DfGraph) (gen kill : NodeId → Finset NodeId) (a : NodeId → InOut NodeId)
    (i : NodeId) : InOut NodeId :=
  let inSet := (g.source i).foldl (fun inSet src ↦ inSet ∩ (a src).outSet) g.nodes.toFinset
  ⟨inSet, gen i ∪ (inSet \ kill i)⟩

/-- `ud_chain`, which leaves the sets of the entry as they are. -/
def udChain (g : DfGraph) (gen kill : NodeId → Finset NodeId) : Run (NodeId → InOut NodeId) :=
  checkIds g (Sweep.sweeps (fun a b ↦ differ a.outSet b.outSet) (chainNode g gen kill)
    (g.nodes.filter fun i ↦ some i ≠ g.entry) (g.nodes.length * g.nodes.length + 1)
    fun i ↦ ⟨∅, if some i = g.entry then gen i else g.nodes.toFinset \ kill i⟩)

/-- The sets of a node in `live_variable`. -/
def liveNode (g : DfGraph) (v : NodeId → InOut RegId) (i : NodeId) : InOut RegId :=
  let outSet := (g.destination i).foldl (fun outSet dest ↦ outSet ∪ (v dest).inSet) ∅
  ⟨g.srcReg i ∪ (outSet \ g.destReg i), outSet⟩

/-- `live_variable`. -/
def liveVariable (g : DfGraph) : Run (NodeId → InOut RegId) :=
  checkIds g (Sweep.sweeps (fun a b ↦ differ a.inSet b.inSet) (liveNode g) g.nodes
    (g.nodes.length * maxRegId + 1) fun _ ↦ ⟨∅, ∅⟩)

/-- The set of a node in `dominator` and `post_dominator`, from those of the nodes at its arcs. -/
def domNode (adj : NodeId → List NodeId) (dom : NodeId → Finset NodeId) (id : NodeId) :
    Finset NodeId :=
  insert id (match adj id with
    | [] => ∅
    | a :: arcs => arcs.foldl (fun temp b ↦ temp ∩ dom b) (dom a))

/-- The loop of `dominator` and `post_dominator`. -/
def domLoop (g : DfGraph) (adj : NodeId → List NodeId) (init : NodeId → Finset NodeId) :
    Run (NodeId → Finset NodeId) :=
  checkIds g (Sweep.sweeps (fun a b ↦ a ≠ b) (domNode adj) g.nodes
    (g.nodes.length * g.nodes.length + 1) init)

/-- `dominator`. The set of the entry is overwritten with all nodes, like that of every node. -/
def dominator (g : DfGraph) : Run (NodeId → Finset NodeId) :=
  domLoop g g.source fun _ ↦ g.nodes.toFinset

/-- `post_dominator`. -/
def postDominator (g : DfGraph) : Run (NodeId → Finset NodeId) :=
  domLoop g g.destination fun id ↦ if g.destination id = [] then {id} else g.nodes.toFinset

/-- `REACH_DEFINE` -/
def reachDefine : ℕ := 1

/-- `USE_DEF_CHAIN` -/
def useDefChain : ℕ := 2

/-- `LIVE_VAR` -/
def liveVar : ℕ := 4

/-- `DOMINATOR` -/
def dominatorMode : ℕ := 8

/-- `POST_DOMINATOR` -/
def postDominatorMode : ℕ := 16

/-- What the analyses leave in the nodes. -/
structure Analysis where
  /-- `e_in` and `e_out` -/
  e : NodeId → InOut NodeId
  /-- `a_in` and `a_out` -/
  a : NodeId → InOut NodeId
  /-- `v_in` and `v_out` -/
  v : NodeId → InOut RegId
  dom : NodeId → Finset NodeId
  postDom : NodeId → Finset NodeId

/-- An analysis that is made if its bit is in the mode. -/
def inMode {α : Type} (mode bit : ℕ) (x : Run α) (y : α) : Run α :=
  if mode &&& bit ≠ 0 then x else .ok y

/-- `analyze_df_graph`, on nodes whose sets are still empty. `ud_chain` uses the `gen` and `kill` that
`reaching_definition` has left. -/
def analyzeDfGraph (mode : ℕ) (g : DfGraph) : Run Analysis := do
  let e ← inMode mode reachDefine (reachingDefinition g) fun _ ↦ ⟨∅, ∅⟩
  let a ← inMode mode useDefChain
    (if mode &&& reachDefine ≠ 0 then udChain g (fun i ↦ {i}) (kill g)
      else udChain g (fun _ ↦ ∅) fun _ ↦ ∅) fun _ ↦ ⟨∅, ∅⟩
  let v ← inMode mode liveVar (liveVariable g) fun _ ↦ ⟨∅, ∅⟩
  let dom ← inMode mode dominatorMode (dominator g) fun _ ↦ ∅
  let postDom ← inMode mode postDominatorMode (postDominator g) fun _ ↦ ∅
  .ok ⟨e, a, v, dom, postDom⟩

end OpenImpact.Libflow
