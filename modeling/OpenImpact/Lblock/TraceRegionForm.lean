import OpenImpact.Lblock.TraceRegion
import OpenImpact.Library.GraphDelete

/-!
# Making regions

What `LB_create_flow_graph` builds for any blocks and any flows between them: a well-formed graph whose
root is the `START` node, with arcs from there to the header and to the `STOP` node only, and with all its
blocks in the hash table. So the sorted list of a region begins with the `START` node, and what comes next
is the header, or the `STOP` node if the header cannot reach it (`createTraceregion_wf`).

The result rests on an invariant of the graph in the making that every function keeps
(`FlowGraph.Built`), and on the sort leaving the nodes in the reverse order of a depth-first traversal. It
is about runs that return, and does not say which do.
-/

namespace OpenImpact.Lblock

open Foundation Foundation.Dfs OpenImpact.Graph

/-- A region as `LB_create_traceregion` makes it and the sort leaves it: the `START` node is in front, the
header behind it unless it cannot reach the `STOP` node, and all blocks are in the hash table. -/
structure TraceRegion.WF (tr : TraceRegion) : Prop where
  sorted : ∃ n rest, tr.topoList = .start :: n :: rest ∧ (n = .stop ∨ n = .cb tr.header) ∧
    .start ∉ rest
  mem : ∀ id, .cb id ∈ tr.topoList → returnCbInRegion tr id

/-! ### The graph of a region -/

/-- What every function on the graph of a region keeps, with the `START` node once it is there: its arcs
lead to the header or to the `STOP` node. -/
structure FlowGraph.Built (header : CbId) (start : Option Id) (fg : FlowGraph) : Prop where
  wf : fg.graph.shape.WF
  hashIdNode : ∀ v ∈ fg.graph.shape.nodes, v ∈ fg.graph.hashIdNode
  hashIdArc : ∀ a ∈ fg.graph.shape.arcs, a ∈ fg.graph.hashIdArc
  start_iff : ∀ v, start = some v ↔ v ∈ fg.graph.shape.nodes ∧ fg.bb v = .start
  second : ∀ a ∈ fg.graph.shape.arcs, start = some (fg.graph.shape.arcPred a) →
    fg.bb (fg.graph.shape.arcSucc a) = .stop ∨ fg.bb (fg.graph.shape.arcSucc a) = .cb header

/-- The blocks of the graph are in its hash table. -/
def FlowGraph.Found (fg : FlowGraph) : Prop :=
  ∀ v ∈ fg.graph.shape.nodes, ∀ id, fg.bb v = .cb id → (fg.findOrNull id).isSome

/-- The root of a graph is its header, until the `START` node takes its place. -/
def FlowGraph.HeaderRoot (header : CbId) (fg : FlowGraph) : Prop :=
  ∃ r, fg.graph.shape.root = some r ∧ fg.bb r = .cb header

variable {header : CbId} {start : Option Id} {fg fg' : FlowGraph} {n src dest : Id} {b : BB}

theorem findOrNull_isSome {id : CbId} :
    (fg.findOrNull id).isSome ↔ ∃ e ∈ fg.contents, e.1 = id := by
  simp [FlowGraph.findOrNull, List.find?_isSome]

/-- A new node, with the node that is the root then. -/
theorem FlowGraph.Built.newNode (h : fg.Built header start) (hb : b = .start → start = none)
    (hrun : newNode fg b = .ok (fg', n)) :
    fg'.Built header (if b = .start then some n else start) ∧ n ∉ fg.graph.shape.nodes ∧
      fg'.graph.shape.nodes = fg.graph.shape.nodes ++ [n] ∧ fg'.bb = Function.update fg.bb n b ∧
      fg'.graph.shape.root = some (fg.graph.shape.root.getD n) ∧ fg'.contents = fg.contents ∧
      fg'.graph.marks.flags = {} := by
  obtain ⟨graph, hgraph, hrun⟩ := Run.bind_eq_ok.1 hrun
  obtain ⟨rfl, rfl⟩ := Prod.mk.inj (Except.ok.inj hrun)
  obtain ⟨hnot, hshape, hhash, hhashArc, hflags⟩ := createGraphNode_spec h.hashIdNode hgraph
  have hnodes : graph.shape.nodes = fg.graph.shape.nodes ++ [graph.nodeId] := by rw [hshape]; rfl
  have harcs : graph.shape.arcs = fg.graph.shape.arcs := by rw [hshape]; rfl
  have harcPred : graph.shape.arcPred = fg.graph.shape.arcPred := by rw [hshape]; rfl
  have harcSucc : graph.shape.arcSucc = fg.graph.shape.arcSucc := by rw [hshape]; rfl
  have hbb {v : Id} (hv : v ∈ fg.graph.shape.nodes) :
      Function.update fg.bb graph.nodeId b v = fg.bb v :=
    Function.update_of_ne (ne_of_mem_of_not_mem hv hnot) _ _
  refine ⟨⟨hshape ▸ h.wf.createNode_root hnot, fun v hv ↦ ?_, fun a ha ↦ ?_, fun v ↦ ?_,
    fun a ha hstart ↦ ?_⟩, hnot, hnodes, rfl, by rw [hshape], rfl, hflags⟩
  · rw [hhash, Finset.mem_insert]
    rw [hnodes, List.mem_append, List.mem_singleton] at hv
    exact hv.symm.imp_right (h.hashIdNode v)
  · rw [hhashArc]
    exact h.hashIdArc a (harcs ▸ ha)
  · dsimp only
    rw [hnodes, List.mem_append, List.mem_singleton]
    by_cases hvn : v = graph.nodeId
    · rw [hvn, Function.update_self]
      split_ifs with hb'
      · simp [hb']
      · have := (h.start_iff graph.nodeId).not.2 fun hv ↦ hnot hv.1
        simp [hb', this]
    · rw [Function.update_of_ne hvn]
      split_ifs with hb'
      · have := (h.start_iff v).not.1 (by simp [hb hb'])
        simp only [hvn, or_false, this, iff_false]
        exact fun heq ↦ hvn (Option.some.inj heq).symm
      · simpa [hvn] using h.start_iff v
  · dsimp only at ha hstart ⊢
    rw [harcs] at ha
    rw [harcPred] at hstart
    rw [harcSucc, hbb (h.wf.arcSucc_mem a ha)]
    refine h.second a ha ?_
    split_ifs at hstart with hb'
    · exact absurd (Option.some.inj hstart ▸ h.wf.arcPred_mem a ha) hnot
    · exact hstart

/-- A new arc. -/
theorem FlowGraph.Built.connect (h : fg.Built header start)
    (hsecond : start = some src → fg.bb dest = .stop ∨ fg.bb dest = .cb header)
    (hrun : fg.connect src dest = .ok fg') :
    fg'.Built header start ∧ fg'.graph.shape.nodes = fg.graph.shape.nodes ∧
      fg'.graph.shape.root = fg.graph.shape.root ∧ fg'.bb = fg.bb ∧ fg'.contents = fg.contents ∧
      fg'.graph.marks.flags = {} ∧
      ∃ a ∈ fg'.graph.shape.succ src, fg'.graph.shape.arcSucc a = dest := by
  obtain ⟨graph, hgraph, rfl⟩ := Run.map_eq_ok.1 hrun
  simp only [connectNodes] at hgraph
  split_ifs at hgraph with hends hid
  obtain rfl := Except.ok.inj hgraph
  rw [not_or, not_not, not_not] at hends
  set id := fg.graph.arcId + 1
  have hnot : id ∉ fg.graph.shape.arcs := fun hmem ↦ hid (h.hashIdArc _ hmem)
  refine ⟨⟨h.wf.connectNodes hnot hends.1 hends.2, h.hashIdNode, fun a ha ↦ ?_, h.start_iff,
    fun a ha ↦ ?_⟩, rfl, rfl, rfl, rfl, rfl, id, ?_, ?_⟩
  · rcases List.mem_append.1 ha with ha | ha
    · exact Finset.mem_insert_of_mem (h.hashIdArc a ha)
    · exact Finset.mem_insert.2 (.inl (List.mem_singleton.1 ha))
  · show start = some (Function.update fg.graph.shape.arcPred id src a) →
      fg.bb (Function.update fg.graph.shape.arcSucc id dest a) = _ ∨
        fg.bb (Function.update fg.graph.shape.arcSucc id dest a) = _
    by_cases hai : a = id
    · subst hai
      rw [Function.update_self, Function.update_self]
      exact hsecond
    · rw [Function.update_of_ne hai, Function.update_of_ne hai]
      exact h.second a ((List.mem_append.1 ha).resolve_right (by simpa using hai))
  · simp [Shape.connectNodes]
  · simp [Shape.connectNodes]

/-- What the functions keep that make the part of the graph for the blocks. -/
structure FlowGraph.Forming (header : CbId) (fg : FlowGraph) : Prop where
  built : fg.Built header none
  found : fg.Found
  root : fg.HeaderRoot header
  flags : fg.graph.marks.flags = {}

theorem FlowGraph.Forming.makeNode {cb : CbId} (h : fg.Forming header)
    (hrun : makeNode header fg cb = .ok fg') : fg'.Forming header := by
  rw [Lblock.makeNode] at hrun
  split_ifs at hrun
  · exact Except.ok.inj hrun ▸ h
  · obtain ⟨⟨fg₁, n⟩, hnew, hrun⟩ := Run.bind_eq_ok.1 hrun
    obtain rfl := Except.ok.inj hrun
    obtain ⟨hbuilt, hnot, hnodes, hbb, hroot, hcontents, hflags⟩ := h.built.newNode (by simp) hnew
    have hold {v : Id} (hv : v ∈ fg.graph.shape.nodes) : fg₁.bb v = fg.bb v := by
      rw [hbb, Function.update_of_ne (ne_of_mem_of_not_mem hv hnot)]
    refine ⟨⟨hbuilt.wf, hbuilt.hashIdNode, hbuilt.hashIdArc, hbuilt.start_iff, hbuilt.second⟩,
      fun v hv id hid ↦ findOrNull_isSome.2 ?_, ?_, hflags⟩
    · dsimp only at hv hid ⊢
      rw [hnodes, List.mem_append, List.mem_singleton] at hv
      rcases hv with hv | rfl
      · rw [hold hv] at hid
        obtain ⟨e, he, heq⟩ := findOrNull_isSome.1 (h.found v hv id hid)
        exact ⟨e, List.mem_cons_of_mem _ (hcontents ▸ he), heq⟩
      · rw [hbb, Function.update_self] at hid
        exact ⟨_, List.mem_cons_self, BB.cb.inj hid⟩
    · obtain ⟨r, hr, hbbr⟩ := h.root
      refine ⟨r, ?_, (hold (h.built.wf.root_mem r hr)).trans hbbr⟩
      rw [hroot, hr]
      rfl

theorem FlowGraph.Forming.setFlag (h : fg.Forming header) (node : Id) :
    (fg.setFlag node).Forming header :=
  ⟨⟨h.built.wf, h.built.hashIdNode, h.built.hashIdArc, h.built.start_iff, h.built.second⟩, h.found, h.root,
    h.flags⟩

theorem FlowGraph.Forming.connectFlow {frp : Bool} {blocks : List CbId} {node : Id}
    {p p' : FlowGraph × Bool} {dstCb : CbId} (h : p.1.Forming header)
    (hrun : connectFlow frp header blocks node p dstCb = .ok p') : p'.1.Forming header := by
  rw [Lblock.connectFlow] at hrun
  split_ifs at hrun
  · obtain ⟨destNode, -, hrun⟩ := Run.bind_eq_ok.1 hrun
    obtain ⟨fg', hconnect, hrun⟩ := Run.bind_eq_ok.1 hrun
    obtain rfl := Except.ok.inj hrun
    obtain ⟨hbuilt, hnodes, hroot, hbb, hcontents, hflags, -⟩ :=
      h.built.connect (fun hnone ↦ by cases hnone) hconnect
    refine ⟨hbuilt, fun v hv id hid ↦ findOrNull_isSome.2 ?_, ?_, hflags⟩
    · dsimp only at hv hid ⊢
      rw [hcontents]
      exact findOrNull_isSome.1 (h.found v (hnodes ▸ hv) id (hbb ▸ hid))
    · obtain ⟨r, hr, hbbr⟩ := h.root
      exact ⟨r, hroot.trans hr, hbb ▸ hbbr⟩
  · obtain rfl := Except.ok.inj hrun
    exact h.setFlag node
  · exact Except.ok.inj hrun ▸ h

theorem FlowGraph.Forming.connectCb {frp : Bool} {destFlow : CbId → List CbId} {blocks : List CbId}
    {cb : CbId} (h : fg.Forming header)
    (hrun : connectCb frp destFlow header blocks fg cb = .ok fg') : fg'.Forming header := by
  obtain ⟨node, -, hrun⟩ := Run.bind_eq_ok.1 hrun
  obtain ⟨p, hflows, hrun⟩ := Run.bind_eq_ok.1 hrun
  have hp : p.1.Forming header := Run.foldlM_keeps (P := fun p : FlowGraph × Bool ↦ p.1.Forming header)
    (fun _ _ _ _ hp hrun ↦ hp.connectFlow hrun) h hflows
  obtain rfl := Except.ok.inj hrun
  split_ifs
  · exact hp
  · exact hp.setFlag node

/-- Deleting keeps what remains. -/
theorem FlowGraph.Forming.formRegionGraph {frp : Bool} {destFlow : CbId → List CbId}
    {blocks : List CbId} (h : fg.Forming header)
    (hrun : formRegionGraph frp destFlow header blocks fg = .ok fg') :
    fg'.Built header none ∧ fg'.Found ∧ fg'.HeaderRoot header := by
  obtain ⟨fg₁, hnodes, hrun⟩ := Run.bind_eq_ok.1 hrun
  obtain ⟨fg₂, harcs, hrun⟩ := Run.bind_eq_ok.1 hrun
  obtain ⟨⟨t, graph⟩, hdelete, hrun⟩ := Run.bind_eq_ok.1 hrun
  have h₁ : fg₁.Forming header := Run.foldlM_keeps (fun _ _ _ _ h hrun ↦ h.makeNode hrun) h hnodes
  have h₂ : fg₂.Forming header := Run.foldlM_keeps (fun _ _ _ _ h hrun ↦ h.connectCb hrun) h₁ harcs
  have hflag : fg₂.graph.marks.flags.topoSort = false := by rw [h₂.flags]
  obtain ⟨hwf, hless⟩ := deleteUnreachable_wf h₂.built.wf hflag hdelete
  have hstart (v : Id) : none = some v ↔ v ∈ graph.shape.nodes ∧ fg₂.bb v = .start := by
    simp only [reduceCtorEq, false_iff]
    exact fun hv ↦ (h₂.built.start_iff v).not.1 (by simp) ⟨hless.nodes hv.1, hv.2⟩
  obtain ⟨r, hr, hbb⟩ := h₂.root
  have hroot : graph.shape.root = some r := hless.root.trans hr
  have hnode : ∀ v ∈ graph.shape.nodes, v ∈ graph.hashIdNode := fun v hv ↦
    hless.hashIdNode ▸ h₂.built.hashIdNode v (hless.nodes hv)
  have harc : ∀ a ∈ graph.shape.arcs, a ∈ graph.hashIdArc := fun a ha ↦
    hless.hashIdArc ▸ h₂.built.hashIdArc a (hless.arcs ha)
  dsimp only at hrun
  split_ifs at hrun
  · obtain rfl := Except.ok.inj hrun
    exact ⟨⟨hwf, hnode, harc, hstart, fun _ _ h ↦ by cases h⟩, fun v hv ↦ h₂.found v (hless.nodes hv),
      r, hroot, hbb⟩
  · obtain rfl := Except.ok.inj hrun
    refine ⟨⟨hwf, hnode, harc, hstart, fun _ _ h ↦ by cases h⟩, fun v hv id hid ↦ ?_, r, hroot, hbb⟩
    exact findOrNull_isSome.2 ⟨(id, v), List.mem_filterMap.2 ⟨v, hv, by rw [hid]⟩, rfl⟩

/-- A graph with its `START` node, which is the root. -/
structure FlowGraph.Finishing (header : CbId) (start : Id) (fg : FlowGraph) : Prop where
  built : fg.Built header (some start)
  found : fg.Found
  root : fg.graph.shape.root = some start

theorem FlowGraph.Finishing.connect (h : fg.Finishing header n)
    (hsecond : n = src → fg.bb dest = .stop ∨ fg.bb dest = .cb header)
    (hrun : fg.connect src dest = .ok fg') : fg'.Finishing header n ∧ fg'.bb = fg.bb := by
  obtain ⟨hbuilt, hnodes, hroot, hbb, hcontents, -⟩ :=
    h.built.connect (fun heq ↦ hsecond (Option.some.inj heq)) hrun
  refine ⟨⟨hbuilt, fun v hv id hid ↦ findOrNull_isSome.2 ?_, hroot.trans h.root⟩, hbb⟩
  rw [hcontents]
  exact findOrNull_isSome.1 (h.found v (hnodes ▸ hv) id (hbb ▸ hid))

/-- A node that is no block has no place in the hash table. -/
theorem FlowGraph.Found.newNode (hfound : fg.Found) (hnot : n ∉ fg.graph.shape.nodes)
    (hnodes : fg'.graph.shape.nodes = fg.graph.shape.nodes ++ [n])
    (hbb : fg'.bb = Function.update fg.bb n b) (hcontents : fg'.contents = fg.contents)
    (hb : ∀ id, b ≠ .cb id) : fg'.Found := by
  refine fun v hv id hid ↦ findOrNull_isSome.2 ?_
  rw [hnodes, List.mem_append, List.mem_singleton] at hv
  rw [hbb] at hid
  rcases hv with hv | rfl
  · rw [Function.update_of_ne (ne_of_mem_of_not_mem hv hnot)] at hid
    rw [hcontents]
    exact findOrNull_isSome.1 (hfound v hv id hid)
  · rw [Function.update_self] at hid
    exact absurd hid (hb id)

/-- A finished graph is one with an arc out of its `START` node. -/
theorem FlowGraph.Built.finishFrpGraph (h : fg.Built header none) (hfound : fg.Found)
    (hroot : fg.HeaderRoot header) (hrun : finishFrpGraph fg = .ok fg') :
    ∃ start, fg'.Finishing header start ∧ fg'.graph.marks.flags = {} ∧
      ∃ a ∈ fg'.graph.shape.succ start, fg'.graph.shape.arcSucc a ≠ start := by
  obtain ⟨⟨fg₁, startNode⟩, hnew, hrun⟩ := Run.bind_eq_ok.1 hrun
  obtain ⟨node, hnode, hrun⟩ := Run.bind_eq_ok.1 hrun
  obtain ⟨fg₂, hfirst, hrun⟩ := Run.bind_eq_ok.1 hrun
  obtain ⟨⟨fg₃, stopNode⟩, hnew', hrun⟩ := Run.bind_eq_ok.1 hrun
  obtain ⟨⟨t, marks⟩, -, hrun⟩ := Run.bind_eq_ok.1 hrun
  obtain ⟨fg₄, harcs, hlast⟩ := Run.bind_eq_ok.1 hrun
  -- the START node
  obtain ⟨hbuilt₁, hnot₁, hnodes₁, hbb₁, hroot₁, hcontents₁, -⟩ := h.newNode (fun _ ↦ rfl) hnew
  rw [if_pos rfl] at hbuilt₁
  obtain ⟨r, hr, hbbr⟩ := hroot
  have hnoder : node = r := by
    rw [Shape.getRoot, hroot₁, hr] at hnode
    exact (Except.ok.inj hnode).symm
  have hrmem : r ∈ fg.graph.shape.nodes := h.wf.root_mem r hr
  have hbb₁r : fg₁.bb node = .cb header := by
    rw [hbb₁, hnoder, Function.update_of_ne (ne_of_mem_of_not_mem hrmem hnot₁)]
    exact hbbr
  have h₁ : FlowGraph.Finishing header startNode { fg₁ with
      graph := { fg₁.graph with shape := { fg₁.graph.shape with root := some startNode } } } :=
    ⟨⟨{ hbuilt₁.wf with root_mem := fun v hv ↦ Option.some.inj hv ▸ hnodes₁ ▸ by simp },
      hbuilt₁.hashIdNode, hbuilt₁.hashIdArc, hbuilt₁.start_iff, hbuilt₁.second⟩,
      hfound.newNode hnot₁ hnodes₁ hbb₁ hcontents₁ (by simp), rfl⟩
  obtain ⟨h₂, hbb₂⟩ := h₁.connect (fun _ ↦ .inr hbb₁r) hfirst
  -- the STOP node
  obtain ⟨hbuilt₃, hnot₃, hnodes₃, hbb₃, hroot₃, hcontents₃, -⟩ := h₂.built.newNode (by simp) hnew'
  rw [if_neg (by simp)] at hbuilt₃
  have h₃ : FlowGraph.Finishing header startNode { fg₃ with
      graph := { fg₃.graph with marks := marks } } :=
    ⟨⟨hbuilt₃.wf, hbuilt₃.hashIdNode, hbuilt₃.hashIdArc, hbuilt₃.start_iff, hbuilt₃.second⟩,
      h₂.found.newNode hnot₃ hnodes₃ hbb₃ hcontents₃ (by simp), by rw [hroot₃, h₂.root]; rfl⟩
  have hstop₃ : fg₃.bb stopNode = .stop := by rw [hbb₃, Function.update_self]
  obtain ⟨h₄, hstop₄⟩ : fg₄.Finishing header startNode ∧ fg₄.bb stopNode = .stop := by
    refine Run.foldlM_keeps (P := fun fg ↦ fg.Finishing header startNode ∧ fg.bb stopNode = .stop)
      (fun v _ fg fg' hfg hrun ↦ ?_) ⟨h₃, hstop₃⟩ harcs
    split_ifs at hrun with hends
    · exact Except.ok.inj hrun ▸ hfg
    · obtain ⟨hfg', hbb⟩ := hfg.1.connect (fun _ ↦ .inl hfg.2) hrun
      exact ⟨hfg', hbb ▸ hfg.2⟩
    · exact Except.ok.inj hrun ▸ hfg
  -- the last arc
  obtain ⟨h₅, hbb₅⟩ := h₄.connect (fun _ ↦ .inl hstop₄) hlast
  obtain ⟨-, -, -, -, -, hflags, a, ha, hsucc⟩ := h₄.built.connect (fun _ ↦ .inl hstop₄) hlast
  refine ⟨startNode, h₅, hflags, a, ha, fun heq ↦ ?_⟩
  have hstart := ((h₅.built.start_iff startNode).1 rfl).2
  rw [hbb₅, ← heq, hsucc, hstop₄] at hstart
  cases hstart

/-- The graph before anything is in it. -/
theorem FlowGraph.Built.create (header : CbId) (bb : Id → BB) (connectToStop : Id → Bool)
    (contents : List (CbId × Id)) : FlowGraph.Built header none ⟨.create, bb, connectToStop, contents⟩ :=
  ⟨.empty, by simp [State.create, Shape.empty], by simp [State.create, Shape.empty],
    by simp [State.create, Shape.empty], by simp⟩

/-- **A region that is made is well formed.** -/
theorem createTraceregion_wf {frp : Bool} {destFlow : CbId → List CbId} {blocks : List CbId}
    {tr : TraceRegion} (hrun : createTraceregion frp destFlow header blocks = .ok tr) : tr.WF := by
  obtain ⟨fg₃, hflow, hrun⟩ := Run.bind_eq_ok.1 hrun
  obtain ⟨⟨t, marks⟩, hsort, hrun⟩ := Run.bind_eq_ok.1 hrun
  obtain rfl := Except.ok.inj hrun
  obtain ⟨⟨fg, node⟩, hnew, hflow⟩ := Run.bind_eq_ok.1 hflow
  obtain ⟨fg₂, hform, hfinish⟩ := Run.bind_eq_ok.1 hflow
  obtain ⟨hbuilt, hnot, hnodes, hbb, hroot, -, hflags⟩ :=
    (FlowGraph.Built.create header _ _ _).newNode (by simp) hnew
  have hforming : FlowGraph.Forming header { fg with contents := [(header, node)] } := by
    have hnode : fg.bb node = .cb header := by rw [hbb, Function.update_self]
    refine ⟨⟨hbuilt.wf, hbuilt.hashIdNode, hbuilt.hashIdArc, hbuilt.start_iff, hbuilt.second⟩,
      fun v hv id hid ↦ findOrNull_isSome.2 ?_, ⟨node, hroot, hnode⟩, hflags⟩
    obtain rfl : v = node := by simpa [hnodes, State.create, Shape.empty] using hv
    exact ⟨_, List.mem_cons_self, BB.cb.inj (hnode.symm.trans hid)⟩
  obtain ⟨hbuilt₂, hfound₂, hroot₂⟩ := hforming.formRegionGraph hform
  obtain ⟨start, h₃, hflags₃, a, ha, hdst⟩ := hbuilt₂.finishFrpGraph hfound₂ hroot₂ hfinish
  -- the sort starts at the START node, and the node left last before it is one of its successors
  obtain ⟨evs, V, T, hscan, hsorted, -⟩ :=
    topologicalSort_spec h₃.built.wf h₃.root (M := fg₃.graph.marks) (by rw [hflags₃])
  obtain ⟨-, rfl⟩ := Prod.mk.inj (Except.ok.inj (hsorted.symm.trans hsort))
  have hin (v : Id) (hv : v ∈ postorder start evs) : v ∈ fg₃.graph.shape.nodes :=
    mem_nodes_of_mem_preorder h₃.built.wf h₃.root hscan (hscan.postorder_perm.mem_iff.1 hv)
  have hnonempty : left evs ≠ [] := by
    have hmem := (hscan.mem_iff.1 (hscan.dst_mem ha)).resolve_left hdst
    exact List.ne_nil_of_mem (hscan.left_perm.mem_iff.2 hmem)
  obtain ⟨init, w, hleft⟩ := (List.eq_nil_or_concat' (left evs)).resolve_left hnonempty
  have hpost : postorder start evs = init ++ [w] ++ [start] := by rw [postorder, hleft]
  have htopo : (postorder start evs).reverse.map fg₃.bb =
      fg₃.bb start :: fg₃.bb w :: init.reverse.map fg₃.bb := by
    simp [hpost]
  have hstart (v : Id) := h₃.built.start_iff v
  refine ⟨⟨fg₃.bb w, init.reverse.map fg₃.bb, ?_, ?_, fun hmem ↦ ?_⟩, fun id hid ↦ ?_⟩
  · exact htopo.trans (by rw [((hstart start).1 rfl).2])
  · obtain ⟨e, he, rfl⟩ := hscan.exists_of_getLast?_left (v := w) (by simp [hleft])
    obtain ⟨hearc, hepred⟩ := (h₃.built.wf.mem_succ _ e).1 he
    exact h₃.built.second e hearc (congrArg some hepred.symm)
  · obtain ⟨v, hv, hbbv⟩ := List.mem_map.1 hmem
    have hvin : v ∈ postorder start evs := by
      rw [hpost]
      exact List.mem_append_left _ (List.mem_append_left _ (List.mem_reverse.1 hv))
    obtain rfl := Option.some.inj ((hstart v).2 ⟨hin v hvin, hbbv⟩)
    have hnodup := hscan.nodup_postorder
    rw [hpost, List.nodup_append] at hnodup
    exact hnodup.2.2 start (List.mem_append_left _ (List.mem_reverse.1 hv)) start
      (List.mem_singleton_self _) rfl
  · obtain ⟨v, hv, hbbv⟩ := List.mem_map.1 hid
    exact h₃.found v (hin v (List.mem_reverse.1 hv)) id hbbv

end OpenImpact.Lblock
