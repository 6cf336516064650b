import OpenImpact.Library.GraphOps
import OpenImpact.Library.IList

/-!
# Trace regions

`lb_traceregion.c` and `lb_graph.c`: the flow graph of a region, and the two passes that remove regions
which have blocks in common with others. The passes go through the blocks of a region with
`LB_next_cb_in_region`, which returns `NULL` at the `STOP` node of the sorted graph.
-/

namespace OpenImpact.Lblock

open Foundation OpenImpact.Graph

/-- The id of a control block. -/
abbrev CbId := ℕ

/-- The `type` of an `LB_BB`, with its `cb`. -/
inductive BB where
  | start
  | stop
  | cb (id : CbId)
  deriving DecidableEq

/-! ### Flow graphs -/

/-- A region's graph, with what `GraphNodeContents` and `GraphContents` point to. -/
structure FlowGraph where
  graph : State
  bb : Id → BB
  /-- `flag` is `CONNECT_TO_STOP`. -/
  connectToStop : Id → Bool
  /-- The hash table from block ids to nodes. -/
  contents : List (CbId × Id)

/-- `HashTable_find_or_null`. -/
def FlowGraph.findOrNull (fg : FlowGraph) (cbId : CbId) : Option Id :=
  (fg.contents.find? fun e ↦ e.1 = cbId).map Prod.snd

/-- `HashTable_find`. -/
def FlowGraph.find (fg : FlowGraph) (cbId : CbId) : Run Id :=
  match fg.findOrNull cbId with
  | none => .error (.punt "Hash Table Element not found.")
  | some node => .ok node

/-- A new node with a new `LB_BB`. -/
def newNode (fg : FlowGraph) (bb : BB) : Run (FlowGraph × Id) := do
  let graph ← createGraphNode fg.graph
  let node := graph.nodeId
  .ok ({ fg with
    graph := graph
    bb := Function.update fg.bb node bb
    connectToStop := Function.update fg.connectToStop node false }, node)

/-- `Graph_connect_nodes`. -/
def FlowGraph.connect (src dest : Id) (fg : FlowGraph) : Run FlowGraph :=
  (fun graph ↦ { fg with graph := graph }) <$> connectNodes src dest fg.graph

def FlowGraph.setFlag (node : Id) (fg : FlowGraph) : FlowGraph :=
  { fg with connectToStop := Function.update fg.connectToStop node true }

section FormRegion

-- `frp`: the `LB_predicate_formation_type` is "frp"; `destFlow`: the `dst_cb`s of the `dest_flow` of a
-- block
variable (frp : Bool) (destFlow : CbId → List CbId) (header : CbId) (blocks : List CbId)

/-- The node of a block in the region. -/
def makeNode (fg : FlowGraph) (cb : CbId) : Run FlowGraph :=
  if cb = header then .ok fg
  else do
    let (fg, node) ← newNode fg (.cb cb)
    .ok { fg with contents := (cb, node) :: fg.contents }

/-- One flow out of a block, with `flag`. -/
def connectFlow (node : Id) (p : FlowGraph × Bool) (dstCb : CbId) : Run (FlowGraph × Bool) :=
  -- flow dst in the region we are predicating
  if dstCb ∈ blocks ∧ dstCb ≠ header then do
    let destNode ← p.1.find dstCb
    let fg ← p.1.connect node destNode
    .ok (fg, true)
  else if frp then .ok (p.1.setFlag node, p.2) else .ok p

/-- The flows out of a block. -/
def connectCb (fg : FlowGraph) (cb : CbId) : Run FlowGraph := do
  let node ← fg.find cb
  let (fg, flag) ← (destFlow cb).foldlM (connectFlow frp header blocks node) (fg, false)
  .ok (if flag then fg else fg.setFlag node)

/-- `LB_form_region_graph`. -/
def formRegionGraph (fg : FlowGraph) : Run FlowGraph := do
  let fg ← blocks.foldlM (makeNode header) fg
  let fg ← blocks.foldlM (connectCb frp destFlow header blocks) fg
  let (n, graph) ← deleteUnreachable fg.graph
  if n = 0 then .ok { fg with graph := graph }
  else .ok { fg with
    graph := graph
    contents := graph.shape.nodes.filterMap fun node ↦
      match fg.bb node with
      | .cb id => some (id, node)
      | _ => none }

/-- Whether `LB_finish_frp_graph` connects a node to the `STOP` node. -/
def connects (fg : FlowGraph) (node : Id) : Bool :=
  fg.graph.shape.succ node = [] || fg.connectToStop node ||
    (fg.graph.shape.succ node).all fun arc ↦
      match fg.graph.marks.dom node with
      | none => false
      | some dom => fg.graph.shape.arcSucc arc ∈ dom

/-- `LB_finish_frp_graph`. -/
def finishFrpGraph (fg : FlowGraph) : Run FlowGraph := do
  let (fg, startNode) ← newNode fg .start
  let node ← fg.graph.shape.getRoot
  let fg := { fg with
    graph := { fg.graph with shape := { fg.graph.shape with root := some startNode } } }
  let fg ← fg.connect startNode node
  let (fg, stopNode) ← newNode fg .stop
  let (_, marks) ← topologicalSort fg.graph.shape fg.graph.marks
  let fg := { fg with graph := { fg.graph with marks := marks } }
  let fg ← marks.topoList.foldlM (fun fg node ↦
    if node = startNode ∨ node = stopNode then .ok fg
    else if connects fg node then fg.connect node stopNode else .ok fg) fg
  fg.connect startNode stopNode

/-- `LB_create_flow_graph` with a set of blocks. -/
def createFlowGraph : Run FlowGraph := do
  let (fg, node) ← newNode ⟨.create, fun _ ↦ .start, fun _ ↦ false, []⟩ (.cb header)
  let fg ← formRegionGraph frp destFlow header blocks { fg with contents := [(header, node)] }
  finishFrpGraph fg

end FormRegion

/-! ### Regions -/

/-- The fields of an `LB_TraceRegion` that the passes read. -/
structure TraceRegion where
  header : CbId
  flowGraph : FlowGraph

/-- `LB_create_traceregion`, and the `Graph_dfs_topo_sort` of `LB_compute_traceregion_info`. -/
def createTraceregion (frp : Bool) (destFlow : CbId → List CbId) (header : CbId)
    (blocks : List CbId) : Run TraceRegion := do
  let fg ← createFlowGraph frp destFlow header blocks
  let (_, marks) ← topologicalSort fg.graph.shape fg.graph.marks
  .ok ⟨header, { fg with graph := { fg.graph with marks := marks } }⟩

/-- The contents of the nodes in `topo_list`. -/
def TraceRegion.topoList (tr : TraceRegion) : List BB :=
  tr.flowGraph.graph.marks.topoList.map tr.flowGraph.bb

/-- What `LB_next_cb_in_region` returns, from `List_start` on and up to the first `NULL`. -/
def cbsInRegion : List BB → Run (List CbId)
  | [] => .ok []
  | .stop :: _ => .ok []
  | .cb id :: rest => (id :: ·) <$> cbsInRegion rest
  | [.start] => .error .fault
  | .start :: .stop :: _ => .ok []
  | .start :: .cb id :: rest => (id :: ·) <$> cbsInRegion rest
  | .start :: .start :: _ => .ok []

/-- `LB_return_cb_in_region` is not `NULL`. -/
def returnCbInRegion (tr : TraceRegion) (cbId : CbId) : Bool :=
  (tr.flowGraph.findOrNull cbId).isSome

/-- `LB_tr_is_subset`: `tr2` is a subset of `tr1`. -/
def trIsSubset (tr1 tr2 : TraceRegion) : Run Bool := do
  let cbs ← cbsInRegion tr2.topoList
  .ok (cbs.all (returnCbInRegion tr1))

/-- `LB_traceregions_intersection_empty`. -/
def intersectionEmpty (tr1 tr2 : TraceRegion) : Run Bool := do
  let cbs ← cbsInRegion tr2.topoList
  .ok (!cbs.any (returnCbInRegion tr1))

/-- `Graph_size (tr->flow_graph)`. -/
def graphSize (tr : TraceRegion) : ℕ := tr.flowGraph.graph.shape.nodes.length

/-- The condition on `trA` for being the one to remove. -/
def yields (trA trB : TraceRegion) : Bool :=
  returnCbInRegion trA trB.header &&
    (!returnCbInRegion trB trA.header || graphSize trA < graphSize trB)

/-- The condition on `tr` and an `index` other than `tr`. -/
def partiallySubsumes (index tr : TraceRegion) : Run Bool := do
  let empty ← intersectionEmpty tr index
  if empty then .ok false
  else do
    let subset ← trIsSubset index tr
    if subset then .ok false
    else .ok (returnCbInRegion index tr.header &&
      (!returnCbInRegion tr index.header || graphSize tr < graphSize index))

/-! ### The passes -/

/-- `header->traceregions`, and the regions that have not been freed. -/
structure Header where
  traceregions : IList.ListPtr Addr
  region : Addr → Option TraceRegion

/-- An access to a region. -/
def Header.getRegion (hdr : Header) (tr : Addr) : Run TraceRegion :=
  match hdr.region tr with
  | none => .error .fault
  | some r => .ok r

/-- `LB_free_traceregion`. -/
def Header.freeTraceregion (hdr : Header) (tr : Addr) : Run Header := do
  let _ ← hdr.getRegion tr
  .ok { hdr with region := Function.update hdr.region tr none }

/-- `List_next_l (header->traceregions, level)`. -/
def Header.next (hdr : Header) (level : ℕ) : Run (Header × Option Addr) := do
  let (list, tr) ← IList.next hdr.traceregions level
  .ok ({ hdr with traceregions := list }, tr)

/-- Another list after a call. -/
def Header.withList (hdr : Header) (list : Run (IList.ListPtr Addr)) : Run Header :=
  (fun list ↦ { hdr with traceregions := list }) <$> list

/-- The loop of `LB_traceregion_is_partially_subsumed`. The loops have one round more than the list has
elements. -/
def partiallySubsumedLoop (tr : Addr) (level : ℕ) : ℕ → Header → Run (Header × Option Addr)
  | 0, _ => .error .outOfFuel
  | fuel + 1, hdr => do
    let (hdr, index) ← hdr.next level
    match index with
    | none => .ok (hdr, none)
    | some index =>
      if index = tr then partiallySubsumedLoop tr level fuel hdr
      else do
        let i ← hdr.getRegion index
        let t ← hdr.getRegion tr
        let subsumed ← partiallySubsumes i t
        if subsumed then .ok (hdr, some index) else partiallySubsumedLoop tr level fuel hdr

/-- The number of elements of the list. -/
def Header.size (hdr : Header) : ℕ :=
  match hdr.traceregions with
  | none => 0
  | some l => l.size.toNat

/-- `LB_traceregion_is_partially_subsumed`. -/
def traceregionIsPartiallySubsumed (hdr : Header) (tr : Addr) : Run (Header × Option Addr) :=
  match hdr.traceregions with
  | none => .ok (hdr, none)
  | some l => do
    let (list, listLevel) ← IList.registerNewPtr (some l)
    let hdr ← hdr.withList (IList.start list listLevel)
    partiallySubsumedLoop tr listLevel (hdr.size + 1) hdr

/-- The loop of `LB_remove_partially_subsumed_traceregions`. -/
def removePartiallySubsumedLoop : ℕ → Header → Run Header
  | 0, _ => .error .outOfFuel
  | fuel + 1, hdr => do
    let (hdr, tr) ← hdr.next 0
    match tr with
    | none => .ok hdr
    | some tr => do
      let (hdr, index) ← traceregionIsPartiallySubsumed hdr tr
      match index with
      | none => removePartiallySubsumedLoop fuel hdr
      | some _ => do
        let hdr ← hdr.withList (IList.remove hdr.traceregions tr)
        let hdr ← hdr.freeTraceregion tr
        removePartiallySubsumedLoop fuel hdr

/-- `LB_remove_partially_subsumed_traceregions`. -/
def removePartiallySubsumedTraceregions (hdr : Header) : Run Header := do
  let hdr ← hdr.withList (IList.start hdr.traceregions 0)
  removePartiallySubsumedLoop (hdr.size + 1) hdr

/-- The loop of `LB_remove_conflicting_traceregions` for one `trA`. -/
def conflictLoop (level1 level2 : ℕ) (trA : Addr) : ℕ → Header → Run Header
  | 0, _ => .error .outOfFuel
  | fuel + 1, hdr => do
    let (hdr, trB) ← hdr.next level2
    match trB with
    | none => .ok hdr
    | some trB => do
      let a ← hdr.getRegion trA
      let b ← hdr.getRegion trB
      let empty ← intersectionEmpty a b
      if empty then conflictLoop level1 level2 trA fuel hdr
      -- one of the regions must be removed
      else if yields a b then do
        let hdr ← hdr.freeTraceregion trA
        hdr.withList (IList.deleteCurrent hdr.traceregions level1)
      else do
        let hdr ← hdr.freeTraceregion trB
        let hdr ← hdr.withList (IList.deleteCurrent hdr.traceregions level2)
        conflictLoop level1 level2 trA fuel hdr

/-- The loop over `trA`. -/
def removeConflictingLoop (level1 level2 : ℕ) : ℕ → Header → Run Header
  | 0, _ => .error .outOfFuel
  | fuel + 1, hdr => do
    let (hdr, trA) ← hdr.next level1
    match trA with
    | none => .ok hdr
    | some trA => do
      let hdr ← hdr.withList (IList.copyCurrentPtr hdr.traceregions level2 level1)
      let hdr ← conflictLoop level1 level2 trA (hdr.size + 1) hdr
      removeConflictingLoop level1 level2 fuel hdr

/-- `LB_remove_conflicting_traceregions`. -/
def removeConflictingTraceregions (hdr : Header) : Run Header :=
  match hdr.traceregions with
  | none => .ok hdr
  | some l => do
    let (list, level1) ← IList.registerNewPtr (some l)
    let (list, level2) ← IList.registerNewPtr list
    let hdr ← hdr.withList (IList.start list level1)
    removeConflictingLoop level1 level2 (hdr.size + 1) hdr

/-- The two passes, one after the other. -/
def removeTraceregions (hdr : Header) : Run Header := do
  let hdr ← removePartiallySubsumedTraceregions hdr
  removeConflictingTraceregions hdr

end OpenImpact.Lblock
