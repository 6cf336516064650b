import OpenImpact.Library.Halt
import Mathlib.Data.Finset.Basic
import Mathlib.Data.Finset.Dedup
import Mathlib.Data.Finset.Lattice.Basic
import Mathlib.Data.List.Nodup
import Mathlib.Logic.Function.Basic

/-!
# Graphs

The graphs of `i_graph.c`. A graph is kept in two parts: its `Shape`, which nodes and arcs exist and
how they are connected, and its `Marks`, what the analyses record in the nodes, the arcs and the
graph. An analysis takes a shape and returns new marks, so it cannot change the shape.

Nodes and arcs go by their ids, which are unique: creating one with an id in use stops the run. The
`dom` sets are finite sets of ids, `none` for `NULL`. A list cursor that goes through a list from
`List_start` on is a fold over the list.
-/

namespace OpenImpact.Graph

/-- The id of a node or an arc. -/
abbrev Id := ℕ

/-- Nodes, arcs and how they are connected. -/
structure Shape where
  root : Option Id
  nodes : List Id
  arcs : List Id
  /-- The arcs into a node. -/
  pred : Id → List Id
  /-- The arcs out of a node. -/
  succ : Id → List Id
  /-- The node an arc comes from. -/
  arcPred : Id → Id
  /-- The node an arc leads to. -/
  arcSucc : Id → Id

/-- The lists agree with one another, as creating nodes and connecting them makes them. -/
structure Shape.WF (S : Shape) : Prop where
  nodup_nodes : S.nodes.Nodup
  nodup_arcs : S.arcs.Nodup
  nodup_succ : ∀ v, (S.succ v).Nodup
  nodup_pred : ∀ v, (S.pred v).Nodup
  mem_succ : ∀ v a, a ∈ S.succ v ↔ a ∈ S.arcs ∧ S.arcPred a = v
  mem_pred : ∀ v a, a ∈ S.pred v ↔ a ∈ S.arcs ∧ S.arcSucc a = v
  arcPred_mem : ∀ a ∈ S.arcs, S.arcPred a ∈ S.nodes
  arcSucc_mem : ∀ a ∈ S.arcs, S.arcSucc a ∈ S.nodes
  root_mem : ∀ r, S.root = some r → r ∈ S.nodes

/-- The analysis bits of `graph->flags`. -/
structure GraphFlags where
  topoSort : Bool := false
  dom : Bool := false
  postDom : Bool := false
  countPath : Bool := false
  dfsPreSort : Bool := false
  deriving DecidableEq, Repr

/-- What the analyses record. `backedge` is the `GRAPH_ARC_BACKEDGE` bit of an arc. -/
structure Marks where
  flags : GraphFlags
  tflags : Id → ℤ
  info : Id → ℤ
  dom : Id → Option (Finset Id)
  postDom : Id → Option (Finset Id)
  backedge : Id → Bool
  topoList : List Id
  dfsList : List Id

/-- The marks of newly created nodes and arcs. -/
def Marks.fresh : Marks where
  flags := {}
  tflags _ := 0
  info _ := 0
  dom _ := none
  postDom _ := none
  backedge _ := false
  topoList := []
  dfsList := []

/-- The access through `graph->root`. -/
def Shape.getRoot (S : Shape) : Run Id :=
  match S.root with
  | some r => .ok r
  | none => .error .fault

/-- Recursions over the nodes get this much fuel. -/
def Shape.fuel (S : Shape) : ℕ := S.nodes.length + 1

def setTflags (v : Id) (x : ℤ) (M : Marks) : Marks :=
  { M with tflags := Function.update M.tflags v x }

def setInfo (v : Id) (x : ℤ) (M : Marks) : Marks := { M with info := Function.update M.info v x }

/-- `GRAPH_NODE_VISIT_WHITE`, `GRAPH_NODE_VISIT_GREY`, `GRAPH_NODE_VISIT_BLACK`. -/
def white : ℤ := 0
def grey : ℤ := 1
def black : ℤ := 2

/-- The loop that unmarks the nodes before a sort. -/
def resetNodes (nodes : List Id) (M : Marks) : Marks :=
  nodes.foldl (fun M v ↦ setInfo v (-1) (setTflags v 0 M)) M

/-- The loop that numbers the nodes of a list after a sort. -/
def numberNodes : ℤ → List Id → Marks → Marks
  | _, [], M => M
  | count, v :: rest, M => numberNodes (count + 1) rest (setInfo v (count + 1) (setTflags v 0 M))

/-! ### Topological sort -/

/-- `Graph_dfs_topo_visit`. -/
def dfsTopoVisit (S : Shape) : ℕ → Id → Marks → Run Marks
  | 0, _, _ => .error .outOfFuel
  | fuel + 1, node, M => do
    let M ← (S.succ node).foldlM (fun M arc ↦
      if M.tflags (S.arcSucc arc) = 0 then dfsTopoVisit S fuel (S.arcSucc arc) M else .ok M)
      (setTflags node 1 M)
    return { M with topoList := node :: M.topoList }

/-- `Graph_dfs_topo_sort`, which is `Graph_topological_sort`: the number of nodes not reached. -/
def topologicalSort (S : Shape) (M : Marks) : Run (ℤ × Marks) :=
  if M.flags.topoSort then return (S.nodes.length - M.topoList.length, M)
  else do
    let M := { resetNodes S.nodes M with topoList := [] }
    let root ← S.getRoot
    let M ← dfsTopoVisit S S.fuel root M
    let M := numberNodes 0 M.topoList M
    let M := { M with flags := { M.flags with topoSort := true } }
    return (S.nodes.length - M.topoList.length, M)

/-! ### Dominators -/

/-- One predecessor's contribution to `new_dom`: `Set_union` into `NULL` copies, and
`Set_intersect_acc` with `NULL` gives `NULL`. -/
def meetDom : Option (Finset Id) → Option (Finset Id) → Option (Finset Id)
  | none, p => p
  | some _, none => none
  | some s, some p => some (s ∩ p)

/-- `Set_add`. -/
def addDom (s : Option (Finset Id)) (v : Id) : Option (Finset Id) := some (insert v (s.getD ∅))

/-- `new_dom` of a node, from the arcs `adj` and the node `other` at the far end of each. -/
def newDom (adj : Id → List Id) (other : Id → Id) (dom : Id → Option (Finset Id)) (v : Id) :
    Option (Finset Id) :=
  addDom ((adj v).foldl (fun acc arc ↦ meetDom acc (dom (other arc))) none) v

/-- One sweep over the nodes, and whether it changed a set. -/
def domSweep (adj : Id → List Id) (other : Id → Id) :
    List Id → (Id → Option (Finset Id)) → (Id → Option (Finset Id)) × Bool
  | [], dom => (dom, false)
  | v :: rest, dom =>
    let new := newDom adj other dom v
    if new = dom v then domSweep adj other rest dom
    else ((domSweep adj other rest (Function.update dom v new)).1, true)

/-- The sweeps, until nothing changes. -/
def domLoop (adj : Id → List Id) (other : Id → Id) (nodes : List Id) :
    ℕ → (Id → Option (Finset Id)) → Run (Id → Option (Finset Id))
  | 0, _ => .error .outOfFuel
  | fuel + 1, dom =>
    let (dom, change) := domSweep adj other nodes dom
    if change then domLoop adj other nodes fuel dom else return dom

/-- The sets before the sweeps. -/
def domInit (adj : Id → List Id) (nodes : List Id) (dom : Id → Option (Finset Id)) (v : Id) :
    Option (Finset Id) :=
  if v ∈ nodes then
    if (adj v).length ≠ 0 then some nodes.toFinset else some {v}
  else dom v

/-- The computation shared by `Graph_dominator` and `Graph_post_dominator`. -/
def computeDom (adj : Id → List Id) (other : Id → Id) (nodes : List Id)
    (dom : Id → Option (Finset Id)) : Run (Id → Option (Finset Id)) :=
  domLoop adj other nodes (nodes.length * nodes.length + 1) (domInit adj nodes dom)

/-- `Graph_dominator`. -/
def dominator (S : Shape) (M : Marks) : Run Marks :=
  if M.flags.dom then return M
  else do
    let dom ← computeDom S.pred S.arcPred S.nodes M.dom
    return { M with dom := dom, flags := { M.flags with dom := true } }

/-- `Graph_post_dominator`. -/
def postDominator (S : Shape) (M : Marks) : Run Marks :=
  if M.flags.postDom then return M
  else do
    let postDom ← computeDom S.succ S.arcSucc S.nodes M.postDom
    return { M with postDom := postDom, flags := { M.flags with postDom := true } }

/-! ### Preorder -/

/-- The body of the successor loop of `Graph_preorder_dfs_visit`, before the visit. -/
def flagBackedge (S : Shape) (directed : Bool) (arc : Id) (M : Marks) : Marks :=
  if directed ∧ M.tflags (S.arcSucc arc) = grey then
    { M with backedge := Function.update M.backedge arc true }
  else M

/-- `Graph_preorder_dfs_visit`. -/
def preorderDfsVisit (S : Shape) (directed : Bool) : ℕ → Id → Marks → Run Marks
  | 0, _, _ => .error .outOfFuel
  | fuel + 1, node, M => do
    let M := setTflags node grey M
    let M := { M with dfsList := M.dfsList ++ [node] }
    let M ← (S.succ node).foldlM (fun M arc ↦
      let M := flagBackedge S directed arc M
      if M.tflags (S.arcSucc arc) = white then preorderDfsVisit S directed fuel (S.arcSucc arc) M
      else .ok M) M
    let M ← if directed then .ok M
      else (S.pred node).foldlM (fun M arc ↦
        if M.tflags (S.arcPred arc) = white then preorderDfsVisit S directed fuel (S.arcPred arc) M
        else .ok M) M
    return setTflags node black M

/-- `Graph_preorder_dfs_sort`. -/
def preorderDfsSort (S : Shape) (directed : Bool) (M : Marks) : Run Marks :=
  if M.flags.dfsPreSort then return M
  else do
    let M ← dominator S M
    let M := { resetNodes S.nodes M with dfsList := [] }
    let root ← S.getRoot
    let M ← preorderDfsVisit S directed S.fuel root M
    let M := numberNodes 0 M.dfsList M
    return { M with flags := { M.flags with dfsPreSort := true } }

end OpenImpact.Graph
