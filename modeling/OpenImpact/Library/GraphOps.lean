import OpenImpact.Library.GraphBuild
import OpenImpact.Library.GraphPaths

/-!
# Operations on a graph

A whole `Graph`: shape, marks, and the hash tables that look nodes and arcs up by id. `exec` is one
call of a function of `i_graph.c` on it. Clients make the first node they create the root.
-/

namespace OpenImpact.Graph

/-- A graph. A hash table is kept as the set of its keys, since an entry's pointer is the node or arc
created under the key. -/
structure State where
  shape : Shape
  marks : Marks
  hashIdNode : Finset Id
  hashIdArc : Finset Id
  nodeId : Id
  arcId : Id

/-- `Graph_create_graph`. -/
def State.create : State where
  shape := .empty
  marks := .fresh
  hashIdNode := ∅
  hashIdArc := ∅
  nodeId := 0
  arcId := 0

/-- What a new node, or one that has been freed, has in its fields. -/
def Marks.clearNode (id : Id) (M : Marks) : Marks :=
  { M with
    tflags := Function.update M.tflags id 0
    info := Function.update M.info id 0
    dom := Function.update M.dom id none
    postDom := Function.update M.postDom id none }

/-- `Graph_create_graph_node_given_id`, and the client's setting of the root. -/
def createGraphNodeGivenId (newId : Id) (G : State) : Run State :=
  if newId ∈ G.hashIdNode then
    .error (.punt "Graph_create_graph_node_given_id:  id already in use\n")
  else
    let S := G.shape.createNode newId
    return { G with
      shape := { S with root := some (S.root.getD newId) }
      marks := { G.marks.clearNode newId with flags := {} }
      hashIdNode := insert newId G.hashIdNode }

/-- `Graph_create_graph_node`. -/
def createGraphNode (G : State) : Run State :=
  createGraphNodeGivenId (G.nodeId + 1) { G with nodeId := G.nodeId + 1 }

/-- `Graph_connect_nodes`, with `Graph_create_graph_arc`. The nodes come from the graph. -/
def connectNodes (src dest : Id) (G : State) : Run State :=
  let id := G.arcId + 1
  if src ∉ G.shape.nodes ∨ dest ∉ G.shape.nodes then .error .fault
  else if id ∈ G.hashIdArc then
    .error (.punt "Graph_create_graph_arc_given_id:  id already in use\n")
  else return { G with
    shape := G.shape.connectNodes id src dest
    marks := { G.marks with
      backedge := Function.update G.marks.backedge id false
      flags := {} }
    hashIdArc := insert id G.hashIdArc
    arcId := id }

/-! ### Deleting unreachable nodes -/

/-- `List_remove`. -/
def listRemove (x : Id) (l : List Id) : Run (List Id) :=
  if l = [] then return []
  else if x ∈ l then return l.erase x
  else .error (.punt "List_find_and_delete: Element not found.\n")

/-- The body of the loop over the arcs out of an unreachable node. -/
def removeArc (S : Shape) (arc : Id) : Run Shape := do
  let pred ← listRemove arc (S.pred (S.arcSucc arc))
  let arcs ← listRemove arc S.arcs
  return { S with pred := Function.update S.pred (S.arcSucc arc) pred, arcs := arcs }

/-- The first loop: the arcs out of the nodes with `info` -1. -/
def removeArcs (info : Id → ℤ) (S : Shape) : Run Shape :=
  S.nodes.foldlM (fun S node ↦
    if info node ≠ -1 then .ok S else (S.succ node).foldlM removeArc S) S

/-- The second loop: the nodes with `info` -1, freed with their lists. -/
def removeNodes (info : Id → ℤ) (S : Shape) (M : Marks) : Shape × Marks :=
  S.nodes.foldl (fun p node ↦
    if info node ≠ -1 then p
    else ({ p.1 with
      nodes := p.1.nodes.erase node
      pred := Function.update p.1.pred node []
      succ := Function.update p.1.succ node [] }, p.2.clearNode node)) (S, M)

/-- `Graph_delete_unreachable`: the number of nodes it takes for unreachable. -/
def deleteUnreachable (G : State) : Run (ℤ × State) := do
  let (count, M) ← topologicalSort G.shape G.marks
  let M := { M with flags := { M.flags with topoSort := false }, topoList := [] }
  if count = 0 then return (0, { G with marks := M })
  else do
    let S ← removeArcs M.info G.shape
    let (S, M) := removeNodes M.info S M
    return (count, { G with shape := S, marks := M })

/-! ### Runs -/

/-- The calls. -/
inductive Op where
  | createGraphNode
  | createGraphNodeGivenId (newId : Id)
  | connectNodes (src dest : Id)
  | deleteUnreachable
  | dominator
  | postDominator
  | topologicalSort
  | preorderDfsSort (directed : Bool)
  | countPaths

/-- An analysis as a call. -/
def State.analyse (G : State) (M : Run Marks) : Run State :=
  (fun M ↦ { G with marks := M }) <$> M

/-- One call. -/
def exec (G : State) : Op → Run State
  | .createGraphNode => createGraphNode G
  | .createGraphNodeGivenId newId => createGraphNodeGivenId newId G
  | .connectNodes src dest => connectNodes src dest G
  | .deleteUnreachable => Prod.snd <$> deleteUnreachable G
  | .dominator => G.analyse (dominator G.shape G.marks)
  | .postDominator => G.analyse (postDominator G.shape G.marks)
  | .topologicalSort => G.analyse (Prod.snd <$> topologicalSort G.shape G.marks)
  | .preorderDfsSort directed => G.analyse (preorderDfsSort G.shape directed G.marks)
  | .countPaths => G.analyse (countPaths G.shape G.marks)

/-- The graphs that calls lead to, when each call meets a condition on the state before it. -/
inductive Reachable (Cond : State → Op → Prop) : State → Prop
  | create : Reachable Cond .create
  | call {G G' op} (h : Reachable Cond G) (hcond : Cond G op) (hexec : exec G op = .ok G') :
      Reachable Cond G'

end OpenImpact.Graph
