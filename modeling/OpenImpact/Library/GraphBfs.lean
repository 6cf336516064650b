import OpenImpact.Library.CExpr
import OpenImpact.Library.GraphPostDom

/-!
# Breadth-first topological sort

`Graph_bfs_topo_sort` accepts nodes in rounds: a node on the frontier is accepted once all its
predecessors are, or at once if it is a header, and a node that is to be deferred waits in `dn` until
nothing else is left to do. Where a round makes no progress, the depth-first sort takes over.

`dn` is assigned only after the root is accepted, so a root with an arc to a deferred node makes the
function test a variable that has no value (`bfsTopoSort_right_iff`).

The theorem is for every graph with at most one node to defer, since the source has one variable for
it, and says that the function returns. It rests on what accepting a node keeps (`Bfs.Sound`): every
accepted node that is no header comes after its predecessors (`PredsFirst`). Where no round makes
progress the order is the one of the depth-first sort, which is described in `GraphDfs` and only
used here.
-/

namespace OpenImpact.Graph

open Foundation Foundation.Dfs

/-! ### The source's functions -/

/-- The `GRAPH_NODE_HEADER` and `GRAPH_NODE_DEFER` bits of the nodes' `flags`. -/
structure NodeFlags where
  header : Id → Bool
  defer : Id → Bool

/-- The marks, the list new nodes are appended to, and `dn`, which is `none` until it is assigned. -/
structure Bfs where
  marks : Marks
  list : List Id
  dn : Option (Option Id)

/-- The body of the successor loop of `Graph_bfs_accept_node`. -/
def bfsAcceptArc (S : Shape) (F : NodeFlags) (B : Bfs) (arc : Id) : Run Bfs :=
  let ns := S.arcSucc arc
  if B.marks.tflags ns = white then
    if F.defer ns then do
      let dn ← deref B.dn
      if dn ≠ none then .error (.punt "Graph_bfs_toposort: multiple deferrals illegal")
      else .ok ⟨setTflags ns grey B.marks, B.list, some (some ns)⟩
    else .ok ⟨setTflags ns grey B.marks, B.list ++ [ns], B.dn⟩
  else .ok B

/-- `Graph_bfs_accept_node`. -/
def bfsAcceptNode (S : Shape) (F : NodeFlags) (n : Id) (B : Bfs) : Run Bfs :=
  let M := { B.marks with topoList := B.marks.topoList ++ [n] }
  (S.succ n).foldlM (bfsAcceptArc S F) { B with marks := setTflags n black M }

/-- The body of the frontier loop, where `B.list` is `new_frontier`; also counts the progress. -/
def bfsNode (S : Shape) (F : NodeFlags) (st : Bfs × ℕ) (n : Id) : Run (Bfs × ℕ) :=
  if (∀ arc ∈ S.pred n, st.1.marks.tflags (S.arcPred arc) = black) ∨ F.header n then do
    let B ← bfsAcceptNode S F n st.1
    .ok (B, st.2 + 1)
  else .ok ({ st.1 with list := st.1.list ++ [n] }, st.2)

/-- The rounds, from the frontier `B.list` on. The result is the state after the last round with the
progress it made. Handing over the deferred node is a `continue`, with progress 1 and a frontier
that is not empty. -/
def bfsLoop (S : Shape) (F : NodeFlags) : ℕ → Bfs → Run (Bfs × ℕ)
  | 0, _ => .error .outOfFuel
  | fuel + 1, B => do
    let (B, progress) ← B.list.foldlM (bfsNode S F) ({ B with list := [] }, 0)
    let dn ← deref B.dn
    if dn ≠ none ∧ (progress = 0 ∨ B.list.length = 0) then
      bfsLoop S F fuel ⟨B.marks, B.list ++ dn.toList, some none⟩
    else if progress ≠ 0 ∧ B.list.length ≠ 0 then bfsLoop S F fuel B
    else .ok (B, progress)

/-- The loops that give all nodes one value of `tflags`. -/
def setAllTflags (nodes : List Id) (x : ℤ) (M : Marks) : Marks :=
  nodes.foldl (fun M v ↦ setTflags v x M) M

/-- `Graph_bfs_topo_sort`: the number of nodes not reached. -/
def bfsTopoSort (S : Shape) (F : NodeFlags) (M : Marks) : Run (ℤ × Marks) :=
  if M.flags.topoSort then .ok (S.nodes.length - M.topoList.length, M)
  else do
    let M := setAllTflags S.nodes white { M with topoList := [] }
    let B ← match S.root with
      | some root => bfsAcceptNode S F root ⟨M, [], none⟩
      | none => .ok ⟨M, [], none⟩
    let (B, progress) ← bfsLoop S F (2 * S.nodes.length + 2) { B with dn := some none }
    let M ← if progress = 0 ∧ B.list.length ≠ 0 then do
        let M := { setAllTflags S.nodes black B.marks with topoList := [] }
        let (_, M) ← topologicalSort S M
        .ok M
      else .ok B.marks
    let M := { M with flags := { M.flags with topoSort := true } }
    .ok (S.nodes.length - M.topoList.length, M)

/-! ### Colours -/

/-- The nodes in `topo_list` are black, those of `P` are grey, and all others are white. -/
structure Colours (S : Shape) (r : Id) (M : Marks) (P : List Id) : Prop where
  nodup : (M.topoList ++ P).Nodup
  tflags : ∀ v ∈ S.nodes, M.tflags v =
    if v ∈ M.topoList then black else if v ∈ P then grey else white
  reach : ∀ v ∈ M.topoList ++ P, S.Reach r v

namespace Colours

variable {S : Shape} {r n : Id} {M : Marks} {P Q : List Id}

/-- The order of the queue does not matter. -/
theorem perm (h : Colours S r M P) (hPQ : P.Perm Q) : Colours S r M Q where
  nodup := (hPQ.append_left _).nodup_iff.1 h.nodup
  tflags v hv := by rw [h.tflags v hv, if_congr hPQ.mem_iff rfl rfl]
  reach v hv := h.reach v ((hPQ.append_left _).mem_iff.2 hv)

/-- The nodes that are black are those in `topo_list`. -/
theorem black_iff (h : Colours S r M P) {v : Id} (hv : v ∈ S.nodes) :
    M.tflags v = black ↔ v ∈ M.topoList := by
  rw [h.tflags v hv]
  split_ifs <;> simp_all [black, grey, white]

/-- The nodes that are white have not been queued yet. -/
theorem white_iff (h : Colours S r M P) {v : Id} (hv : v ∈ S.nodes) :
    M.tflags v = white ↔ v ∉ M.topoList ++ P := by
  rw [h.tflags v hv, List.mem_append]
  split_ifs <;> simp_all [black, grey, white]

/-- A white node is found. -/
theorem discover (h : Colours S r M P) (hn : n ∈ S.nodes) (hwhite : M.tflags n = white)
    (hreach : S.Reach r n) : Colours S r (setTflags n grey M) (n :: P) := by
  have hnot := (h.white_iff hn).1 hwhite
  rw [List.mem_append, not_or] at hnot
  refine ⟨?_, fun v hv ↦ ?_, fun v hv ↦ ?_⟩
  · exact (List.perm_middle.nodup_iff).2
      (List.nodup_cons.2 ⟨by rw [List.mem_append, not_or]; exact hnot, h.nodup⟩)
  · rcases eq_or_ne v n with rfl | hvn
    · simp [setTflags, hnot.1]
    · simp [setTflags, hvn, h.tflags v hv]
  · rcases List.mem_cons.1 (List.perm_middle.mem_iff.1 hv) with rfl | hv
    · exact hreach
    · exact h.reach v hv

/-- A grey node is accepted. -/
theorem accept (h : Colours S r M (n :: P)) :
    Colours S r (setTflags n black { M with topoList := M.topoList ++ [n] }) P := by
  have hperm : (M.topoList ++ [n] ++ P).Perm (M.topoList ++ n :: P) := by
    rw [List.append_assoc, List.singleton_append]
  refine ⟨hperm.nodup_iff.2 h.nodup, fun v hv ↦ ?_, fun v hv ↦ h.reach v (hperm.mem_iff.1 hv)⟩
  rcases eq_or_ne v n with rfl | hvn
  · simp [setTflags]
  · simp [setTflags, hvn, h.tflags v hv]

end Colours

/-! ### Accepting a node -/

/-- The nodes that wait in the list or in `dn`. -/
def Bfs.waiting (B : Bfs) : List Id := B.list ++ B.dn.join.toList

/-- Only the colours and the list differ. -/
def Marks.SameSets (M M' : Marks) : Prop :=
  M' = { M with tflags := M'.tflags, topoList := M'.topoList }

/-- The same sets as before. -/
theorem Marks.SameSets.refl (M : Marks) : M.SameSets M := rfl

theorem Marks.SameSets.trans {M M' M'' : Marks} (h : M.SameSets M') (h' : M'.SameSets M'') :
    M.SameSets M'' :=
  Eq.trans h' (congrArg (fun N : Marks ↦ { N with tflags := M''.tflags, topoList := M''.topoList }) h)

/-- What finding new nodes leaves as it is. -/
structure Bfs.Grows (B B' : Bfs) : Prop where
  dn_iff : B'.dn = none ↔ B.dn = none
  topoList_eq : B'.marks.topoList = B.marks.topoList
  sameSets : B.marks.SameSets B'.marks
  mem_waiting : ∀ v ∈ B.waiting, v ∈ B'.waiting

theorem Bfs.Grows.refl (B : Bfs) : B.Grows B := ⟨Iff.rfl, rfl, .refl _, fun _ ↦ id⟩

theorem Bfs.Grows.trans {B B' B'' : Bfs} (h : B.Grows B') (h' : B'.Grows B'') : B.Grows B'' :=
  ⟨h'.dn_iff.trans h.dn_iff, h'.topoList_eq.trans h.topoList_eq, h.sameSets.trans h'.sameSets,
    fun v hv ↦ h'.mem_waiting v (h.mem_waiting v hv)⟩

/-- There is at most one node to defer. -/
def NodeFlags.DefersOne (F : NodeFlags) (S : Shape) : Prop :=
  ∀ u ∈ S.nodes, ∀ v ∈ S.nodes, F.defer u = true → F.defer v = true → u = v

/-- The run stops, since there is more than one node to defer. -/
def Stops {β : Type} (S : Shape) (F : NodeFlags) (x : Run β) : Prop :=
  ¬F.DefersOne S ∧ ∃ e, x = .error e

/-- A run that stops for a deferred node stops with whatever comes behind. -/
theorem Stops.bind {β γ : Type} {S : Shape} {F : NodeFlags} {x : Run β} (h : Stops S F x)
    (f : β → Run γ) : Stops S F (x >>= f) := by
  obtain ⟨hone, e, rfl⟩ := h
  exact ⟨hone, e, rfl⟩

/-- The colours while `rest` is left of the frontier; only a node to defer is in `dn`, and what waits
was found from a node of the list. -/
structure Bfs.Inv (S : Shape) (F : NodeFlags) (r : Id) (rest : List Id) (B : Bfs) : Prop where
  colours : Colours S r B.marks (rest ++ B.waiting)
  defer : ∀ v, B.dn.join = some v → F.defer v = true
  found : ∀ v ∈ rest ++ B.waiting, ∃ u ∈ B.marks.topoList, S.Step u v

section Accept

variable {S : Shape} (hS : S.WF) {F : NodeFlags} {r : Id} (hr : r ∈ S.nodes)
  {rest : List Id} {B : Bfs}

include hS in
/-- What is reachable from a node of the graph is one. -/
theorem mem_nodes_of_reach (hr : r ∈ S.nodes) {v : Id} (h : S.Reach r v) : v ∈ S.nodes := by
  rcases h.cases_tail with rfl | ⟨w, -, a, ha, rfl⟩
  · exact hr
  · exact arcSucc_mem_nodes hS ha

include hS hr in
/-- One arc out of a node that is taken. -/
theorem bfsAcceptArc_spec {n a : Id} (hn : n ∈ B.marks.topoList) (ha : a ∈ S.succ n)
    (h : B.Inv S F r rest) (hread : B.dn ≠ none ∨
      (F.defer (S.arcSucc a) = true → B.marks.tflags (S.arcSucc a) ≠ white)) :
    (∃ B', bfsAcceptArc S F B a = .ok B' ∧ B'.Inv S F r rest ∧ B.Grows B' ∧
      S.arcSucc a ∈ B'.marks.topoList ++ (rest ++ B'.waiting) ∧
      ∀ v, B'.marks.tflags v = white → B.marks.tflags v = white) ∨
      Stops S F (bfsAcceptArc S F B a) := by
  have hstep : S.Step n (S.arcSucc a) := ⟨a, ha, rfl⟩
  have hreach : S.Reach r (S.arcSucc a) :=
    (h.colours.reach n (List.mem_append_left _ hn)).tail hstep
  have hmem : S.arcSucc a ∈ S.nodes := mem_nodes_of_reach hS hr hreach
  have hgrey : ∀ v, (setTflags (S.arcSucc a) grey B.marks).tflags v = white →
      B.marks.tflags v = white := by
    intro v hv
    rcases eq_or_ne v (S.arcSucc a) with rfl | hne
    · simp [setTflags, grey, white] at hv
    · simpa [setTflags, hne] using hv
  rw [bfsAcceptArc]
  split_ifs with hwhite hdefer
  · have hfound := h.colours.discover hmem hwhite hreach
    -- `dn` has a value, and no other node to defer is in it
    obtain ⟨dn, hdn⟩ := Option.ne_none_iff_exists'.1
      (hread.resolve_right fun hno ↦ hno hdefer hwhite)
    rcases dn with - | v
    swap
    · -- a second node to defer
      refine .inr ⟨fun hone ↦ ?_, _, by rw [hdn]; rfl⟩
      have hv : v ∈ rest ++ B.waiting := by simp [Bfs.waiting, hdn]
      have hv' := mem_nodes_of_reach hS hr (h.colours.reach v (List.mem_append_right _ hv))
      obtain rfl := hone _ hmem v hv' hdefer (h.defer v (by rw [hdn]; rfl))
      exact (h.colours.white_iff hmem).1 hwhite (List.mem_append_right _ hv)
    rw [hdn, deref_some, Run.ok_bind, if_neg (by simp)]
    have hwait : B.waiting = B.list := by rw [Bfs.waiting, hdn]; exact List.append_nil _
    refine .inl ⟨_, rfl, ⟨hfound.perm ?_, ?_, ?_⟩, ⟨by simp [hdn], rfl, rfl, ?_⟩, ?_, hgrey⟩
    · rw [hwait, Bfs.waiting, ← List.append_assoc]
      exact (List.perm_append_singleton _ _).symm
    · rintro v ⟨⟩
      exact hdefer
    · intro v hv
      rw [Bfs.waiting, ← List.append_assoc, List.mem_append] at hv
      rcases hv with hv | hv
      · exact h.found v (by rw [hwait]; exact hv)
      · obtain rfl : v = S.arcSucc a := by simpa using hv
        exact ⟨n, hn, hstep⟩
    · intro v hv
      rw [hwait] at hv
      exact List.mem_append_left _ hv
    · simp [Bfs.waiting]
  · have hfound := h.colours.discover hmem hwhite hreach
    refine .inl ⟨_, rfl, ⟨hfound.perm ?_, h.defer, fun v hv ↦ ?_⟩, ⟨Iff.rfl, rfl, rfl, ?_⟩, ?_, hgrey⟩
    · rw [Bfs.waiting, Bfs.waiting, List.append_assoc, ← List.append_assoc, ← List.append_assoc,
        List.singleton_append]
      exact List.perm_middle.symm
    · have hv' : v ∈ rest ++ B.waiting ∨ v = S.arcSucc a := by
        simp only [Bfs.waiting, List.mem_append, List.mem_singleton] at hv ⊢
        tauto
      rcases hv' with hv' | rfl
      · exact h.found v hv'
      · exact ⟨n, hn, hstep⟩
    · intro v hv
      rw [Bfs.waiting, List.mem_append] at hv ⊢
      exact hv.imp_left (List.mem_append_left _)
    · simp [Bfs.waiting]
  · refine .inl ⟨B, rfl, h, .refl B, ?_, fun _ ↦ id⟩
    by_contra hnot
    exact hwhite ((h.colours.white_iff hmem).2 hnot)

include hS hr in
/-- All arcs out of it. -/
theorem foldlM_bfsAcceptArc {n : Id} (hn : n ∈ B.marks.topoList) {es : List Id}
    (hes : ∀ a ∈ es, a ∈ S.succ n) (h : B.Inv S F r rest) (hread : B.dn ≠ none ∨
      ∀ a ∈ es, F.defer (S.arcSucc a) = true → B.marks.tflags (S.arcSucc a) ≠ white) :
    (∃ B', es.foldlM (bfsAcceptArc S F) B = .ok B' ∧ B'.Inv S F r rest ∧ B.Grows B' ∧
      ∀ a ∈ es, S.arcSucc a ∈ B'.marks.topoList ++ (rest ++ B'.waiting)) ∨
      Stops S F (es.foldlM (bfsAcceptArc S F) B) := by
  induction es generalizing B with
  | nil => exact .inl ⟨B, rfl, h, .refl B, by simp⟩
  | cons a es ih =>
    rw [List.foldlM_cons]
    rcases bfsAcceptArc_spec hS hr hn (hes a List.mem_cons_self) h
      (hread.imp_right fun hno ↦ hno a List.mem_cons_self) with
      ⟨B₁, hrun₁, h₁, hgrow₁, hmem₁, hwhite⟩ | hstop
    swap
    · exact .inr (hstop.bind _)
    rw [hrun₁, Run.ok_bind]
    refine (ih (hgrow₁.topoList_eq ▸ hn) (fun e he ↦ hes e (List.mem_cons_of_mem a he)) h₁ <| by
      refine hread.imp (mt hgrow₁.dn_iff.1) fun hno e he hdefer hw ↦ ?_
      exact hno e (List.mem_cons_of_mem a he) hdefer (hwhite _ hw)).imp_left ?_
    rintro ⟨B', hrun, h', hgrow, hmem⟩
    refine ⟨B', hrun, h', hgrow₁.trans hgrow, ?_⟩
    rintro e he
    rcases List.mem_cons.1 he with rfl | he
    · rw [List.mem_append, List.mem_append] at hmem₁ ⊢
      rw [hgrow.topoList_eq]
      exact hmem₁.imp_right (Or.imp_right (hgrow.mem_waiting _))
    · exact hmem e he

/-- All but the root come after their predecessors, unless a header was accepted early. -/
def PredsFirst (S : Shape) (F : NodeFlags) (r : Id) (l : List Id) : Prop :=
  (∀ v ∈ S.nodes, F.header v = false) →
    ∀ l₁ w l₂, l = l₁ ++ w :: l₂ → w = r ∨ ∀ a ∈ S.pred w, S.arcPred a ∈ l₁

/-- Between two steps of the frontier loop. -/
structure Bfs.Sound (S : Shape) (F : NodeFlags) (r : Id) (rest : List Id) (B : Bfs) : Prop
    extends B.Inv S F r rest where
  dn_ne : B.dn ≠ none
  root_mem : r ∈ B.marks.topoList
  closed : ∀ v ∈ B.marks.topoList, ∀ a ∈ S.succ v,
    S.arcSucc a ∈ B.marks.topoList ++ (rest ++ B.waiting)
  predsFirst : PredsFirst S F r B.marks.topoList
  foundFirst : FoundFirst S.Step r B.marks.topoList

/-- A node behind its predecessors. -/
theorem PredsFirst.append {l : List Id} {n : Id} (h : PredsFirst S F r l)
    (hn : (∀ v ∈ S.nodes, F.header v = false) → ∀ a ∈ S.pred n, S.arcPred a ∈ l) :
    PredsFirst S F r (l ++ [n]) := by
  intro hheader l₁ w l₂ heq
  rcases append_eq_cases heq with ⟨rfl, rfl⟩ | ⟨l₂', hl⟩
  · exact .inr (hn hheader)
  · exact h hheader l₁ w l₂' hl

/-- The queue may be rotated. -/
theorem Bfs.Sound.of_perm {B' : Bfs} {rest' : List Id} (h : B.Sound S F r rest)
    (hmarks : B'.marks = B.marks) (hdn : B'.dn ≠ none)
    (hdefer : ∀ v, B'.dn.join = some v → F.defer v = true)
    (hperm : (rest ++ B.waiting).Perm (rest' ++ B'.waiting)) : B'.Sound S F r rest' where
  colours := by rw [hmarks]; exact h.colours.perm hperm
  defer := hdefer
  found v hv := by
    rw [hmarks]
    exact h.found v (hperm.mem_iff.2 hv)
  dn_ne := hdn
  root_mem := by rw [hmarks]; exact h.root_mem
  closed v hv a ha := by
    rw [hmarks] at hv ⊢
    exact (hperm.append_left _).mem_iff.1 (h.closed v hv a ha)
  predsFirst := by rw [hmarks]; exact h.predsFirst
  foundFirst := by rw [hmarks]; exact h.foundFirst

include hS hr in
/-- Accepting a node of the frontier, whose predecessors are all accepted or which is a header. -/
theorem bfsAcceptNode_spec {n : Id} (h : B.Sound S F r (n :: rest))
    (hready : (∀ a ∈ S.pred n, S.arcPred a ∈ B.marks.topoList) ∨ F.header n = true) :
    (∃ B', bfsAcceptNode S F n B = .ok B' ∧ B'.Sound S F r rest ∧
      B'.marks.topoList = B.marks.topoList ++ [n] ∧ B.marks.SameSets B'.marks) ∨
      Stops S F (bfsAcceptNode S F n B) := by
  have hn : S.Reach r n := h.colours.reach n (List.mem_append_right _ List.mem_cons_self)
  have hstart : Bfs.Inv S F r rest { B with
      marks := setTflags n black { B.marks with topoList := B.marks.topoList ++ [n] } } := by
    refine ⟨h.colours.accept, h.defer, fun v hv ↦ ?_⟩
    obtain ⟨u, hu, huv⟩ := h.found v (List.mem_cons_of_mem n hv)
    exact ⟨u, List.mem_append_left _ hu, huv⟩
  refine (foldlM_bfsAcceptArc hS hr (List.mem_append_right _ (List.mem_singleton_self n))
    (fun a ha ↦ ha) hstart (.inl h.dn_ne)).imp_left ?_
  rintro ⟨B', hrun, hinv, hgrow, hmem⟩
  have hlist : B'.marks.topoList = B.marks.topoList ++ [n] := hgrow.topoList_eq
  refine ⟨B', hrun, ⟨hinv, mt hgrow.dn_iff.1 h.dn_ne, ?_, fun v hv a ha ↦ ?_, ?_, ?_⟩, hlist,
    hgrow.sameSets⟩
  · rw [hlist]
    exact List.mem_append_left _ h.root_mem
  · rw [hlist, List.mem_append, List.mem_singleton] at hv
    rcases hv with hv | rfl
    · have hold := h.closed v hv a ha
      rw [hlist]
      rw [List.mem_append, List.mem_append, List.mem_cons] at hold
      rw [List.mem_append, List.mem_append, List.mem_append, List.mem_singleton]
      rcases hold with hold | (hold | hold) | hold
      · exact .inl (.inl hold)
      · exact .inl (.inr hold)
      · exact .inr (.inl hold)
      · exact .inr (.inr (hgrow.mem_waiting _ hold))
    · exact hmem a ha
  · rw [hlist]
    refine h.predsFirst.append fun hheader ↦ hready.resolve_right ?_
    rw [hheader n (mem_nodes_of_reach hS hr hn)]
    exact Bool.false_ne_true
  · rw [hlist]
    exact h.foundFirst.append (h.found n List.mem_cons_self)

include hS hr in
/-- One step of the frontier loop: a node is accepted, or it stays on the frontier. -/
theorem bfsNode_spec {n : Id} (p : ℕ) (h : B.Sound S F r (n :: rest)) :
    (∃ B', B'.Sound S F r rest ∧ B.marks.SameSets B'.marks ∧
      (bfsNode S F (B, p) n = .ok (B', p + 1) ∧
          B'.marks.topoList.length = B.marks.topoList.length + 1 ∨
        bfsNode S F (B, p) n = .ok (B', p) ∧ B'.marks = B.marks ∧ B'.dn = B.dn)) ∨
      Stops S F (bfsNode S F (B, p) n) := by
  rw [bfsNode]
  split_ifs with hready
  · have hpred : (∀ a ∈ S.pred n, S.arcPred a ∈ B.marks.topoList) ∨ F.header n = true := by
      refine hready.imp_left fun hblack a ha ↦ ?_
      exact (h.colours.black_iff (hS.arcPred_mem a ((hS.mem_pred n a).1 ha).1)).1 (hblack a ha)
    rcases bfsAcceptNode_spec hS hr h hpred with ⟨B', hrun, hB', hlist, hsets⟩ | hstop
    · refine .inl ⟨B', hB', hsets, .inl ⟨?_, ?_⟩⟩
      · rw [hrun, Run.ok_bind]
      · rw [hlist, List.length_append, List.length_singleton]
    · exact .inr (hstop.bind _)
  · have hperm : (n :: rest ++ B.waiting).Perm
        (rest ++ Bfs.waiting { B with list := B.list ++ [n] }) := by
      simp only [Bfs.waiting, List.append_assoc, List.cons_append]
      exact (List.perm_append_comm_assoc [n] rest _).trans
        ((List.perm_append_comm_assoc [n] B.list _).append_left rest)
    exact .inl ⟨{ B with list := B.list ++ [n] }, h.of_perm rfl h.dn_ne h.defer hperm, .refl _,
      .inr ⟨rfl, rfl, rfl⟩⟩

/-! ### Rounds -/

include hS hr in
/-- One round: without progress nothing but the order of the frontier changes. -/
theorem foldlM_bfsNode {l : List Id} (p : ℕ) (h : B.Sound S F r l) :
    (∃ B' q, l.foldlM (bfsNode S F) (B, p) = .ok (B', p + q) ∧ B'.Sound S F r [] ∧
      B.marks.SameSets B'.marks ∧
      B'.marks.topoList.length = B.marks.topoList.length + q ∧ (q = 0 → B'.dn = B.dn)) ∨
      Stops S F (l.foldlM (bfsNode S F) (B, p)) := by
  induction l generalizing B p with
  | nil => exact .inl ⟨B, 0, rfl, h, .refl _, rfl, fun _ ↦ rfl⟩
  | cons n l ih =>
    rw [List.foldlM_cons]
    rcases bfsNode_spec hS hr p h with ⟨B₁, h₁, hsets₁, hstep⟩ | hstop
    swap
    · exact .inr (hstop.bind _)
    rcases hstep with ⟨hrun₁, hlen₁⟩ | ⟨hrun₁, hmarks₁, hdn₁⟩
    · rw [hrun₁, Run.ok_bind]
      refine (ih (p + 1) h₁).imp_left ?_
      rintro ⟨B', q, hrun, h', hsets, hlen, -⟩
      refine ⟨B', q + 1, ?_, h', hsets₁.trans hsets, by omega, by simp⟩
      rw [hrun, Nat.add_right_comm, Nat.add_assoc]
    · rw [hrun₁, Run.ok_bind]
      refine (ih p h₁).imp_left ?_
      rintro ⟨B', q, hrun, h', hsets, hlen, hdn⟩
      exact ⟨B', q, hrun, h', hsets₁.trans hsets, by rw [hlen, hmarks₁],
        fun hq ↦ (hdn hq).trans hdn₁⟩

/-- There are no more nodes in `topo_list` than in the graph. -/
theorem Bfs.Sound.length_le (h : B.Sound S F r rest) (hS : S.WF) (hr : r ∈ S.nodes) :
    B.marks.topoList.length ≤ S.nodes.length := by
  refine (List.Nodup.subperm h.colours.nodup.of_append_left fun v hv ↦ ?_).length_le
  exact mem_nodes_of_reach hS hr (h.colours.reach v (List.mem_append_left _ hv))

include hS hr in
/-- The rounds end, with an empty frontier or without progress. What is left to accept counts twice,
since a round may also only hand over the deferred node. -/
theorem bfsLoop_spec {fuel : ℕ} (h : B.Sound S F r [])
    (hfuel : 2 * S.nodes.length + B.dn.join.toList.length <
      fuel + 2 * B.marks.topoList.length) :
    (∃ B' p, bfsLoop S F fuel B = .ok (B', p) ∧ B'.Sound S F r [] ∧
      B.marks.SameSets B'.marks ∧ (B'.list ≠ [] ∧ p = 0 ∨ B'.waiting = [])) ∨
      Stops S F (bfsLoop S F fuel B) := by
  induction fuel generalizing B with
  | zero =>
    have := h.length_le hS hr
    omega
  | succ fuel ih =>
    have hround : Bfs.Sound S F r B.list { B with list := [] } :=
      h.of_perm rfl h.dn_ne h.defer (by rw [Bfs.waiting, Bfs.waiting]; rfl)
    rw [bfsLoop]
    rcases foldlM_bfsNode hS hr 0 hround with ⟨B₁, q, hrun, h₁, hsets, hlen, hdn⟩ | hstop
    swap
    · exact .inr (hstop.bind _)
    obtain ⟨dn, hdn₁⟩ := Option.ne_none_iff_exists'.1 h₁.dn_ne
    have hjoin : B₁.dn.join = dn := by rw [hdn₁]; rfl
    have hle := h₁.length_le hS hr
    rw [hrun, Run.ok_bind, Nat.zero_add]
    dsimp only at hlen hdn ⊢
    rw [hdn₁, deref_some, Run.ok_bind]
    have hone' : ∀ d : Option Id, d.toList.length ≤ 1 := fun d ↦ by cases d <;> simp
    split_ifs with hdefer hmore
    · -- the deferred node is handed over
      obtain ⟨hne, hidle⟩ := hdefer
      obtain ⟨v, rfl⟩ := Option.ne_none_iff_exists'.1 hne
      have hnext : Bfs.Sound S F r [] ⟨B₁.marks, B₁.list ++ (some v).toList, some none⟩ :=
        h₁.of_perm rfl (by simp) (by simp) (by simp [Bfs.waiting, hdn₁])
      refine (ih hnext <| by
        rcases Nat.eq_zero_or_pos q with rfl | hq
        · have hsame : B.dn.join.toList.length = 1 := by
            rw [← hdn rfl, hjoin]
            rfl
          simp only [Option.join_some, Option.toList_none, List.length_nil]
          omega
        · simp only [Option.join_some, Option.toList_none, List.length_nil]
          omega).imp_left ?_
      rintro ⟨B', p, hrun', h', hsets', hend⟩
      exact ⟨B', p, hrun', h', hsets.trans hsets', hend⟩
    · refine (ih (h₁.of_perm rfl h₁.dn_ne h₁.defer (.refl _)) <| by
        have := hone' B₁.dn.join
        omega).imp_left ?_
      rintro ⟨B', p, hrun', h', hsets', hend⟩
      exact ⟨B', p, hrun', h', hsets.trans hsets', hend⟩
    · refine .inl ⟨B₁, q, rfl, h₁, hsets, ?_⟩
      rcases eq_or_ne B₁.list [] with hnil | hnil
      · right
        have hno : dn = none := by
          by_contra hne
          exact hdefer ⟨hne, .inr (by rw [hnil]; rfl)⟩
        rw [Bfs.waiting, hnil, hjoin, hno]
        rfl
      · left
        refine ⟨hnil, ?_⟩
        by_contra hq
        exact hmore ⟨hq, by simpa using hnil⟩

end Accept

/-! ### The sort -/

/-- The list has each node reached from the root once, and without cycles, headers and nodes to defer
it has each of them after its predecessors. -/
structure IsBfsOrder (S : Shape) (F : NodeFlags) (r : Id) (l : List Id) : Prop where
  nodup : l.Nodup
  mem_iff : ∀ v, v ∈ l ↔ S.Reach r v
  after : S.Acyclic → (∀ v ∈ S.nodes, F.header v = false ∧ F.defer v = false) →
    ∀ a ∈ S.arcs, S.arcPred a ∈ l → l.idxOf (S.arcPred a) < l.idxOf (S.arcSucc a)

/-- What `Graph_bfs_topo_sort` is to do. -/
def BfsRight (S : Shape) (F : NodeFlags) (r : Id) (M : Marks) : Prop :=
  ∃ t M', bfsTopoSort S F M = .ok (t, M') ∧ IsBfsOrder S F r M'.topoList

section Order

variable {S : Shape} {F : NodeFlags} {r : Id} {M : Marks}

/-- All nodes get the same colour. -/
theorem setAllTflags_eq (nodes : List Id) (x : ℤ) (M : Marks) :
    setAllTflags nodes x M =
      { M with tflags := fun v ↦ if v ∈ nodes then x else M.tflags v } := by
  rw [setAllTflags]
  induction nodes generalizing M with
  | nil => simp
  | cons w nodes ih =>
    rw [List.foldl_cons, ih]
    simp only [setTflags, List.mem_cons]
    congr 1
    funext v
    rcases eq_or_ne v w with rfl | hvw
    · simp
    · simp [hvw]

/-- A list that is closed along the arcs and has the predecessors of each node before it. -/
theorem Bfs.Sound.isBfsOrder {B : Bfs} (h : B.Sound S F r []) (hS : S.WF)
    (hempty : B.waiting = []) : IsBfsOrder S F r B.marks.topoList where
  nodup := h.colours.nodup.of_append_left
  mem_iff v := by
    constructor
    · exact fun hv ↦ h.colours.reach v (List.mem_append_left _ hv)
    · intro hreach
      induction hreach with
      | refl => exact h.root_mem
      | tail _ hstep ih =>
        obtain ⟨a, ha, rfl⟩ := hstep
        have hmem := h.closed _ ih a ha
        rwa [hempty, List.append_nil, List.append_nil] at hmem
  after hacyc hplain a ha hpred := by
    have hsucc : a ∈ S.succ (S.arcPred a) := (hS.mem_succ _ a).2 ⟨ha, rfl⟩
    have hmem : S.arcSucc a ∈ B.marks.topoList := by
      have := h.closed _ hpred a hsucc
      rwa [hempty, List.append_nil, List.append_nil] at this
    obtain ⟨l₁, l₂, heq⟩ := List.append_of_mem hmem
    rcases h.predsFirst (fun v hv ↦ (hplain v hv).1) l₁ _ l₂ heq with hroot | hfirst
    · -- an arc into the root closes a cycle
      refine absurd (h.colours.reach _ (List.mem_append_left _ hpred)) ?_
      rw [← hroot]
      exact hacyc _ _ ⟨a, hsucc, rfl⟩
    · have hp : S.arcPred a ∈ l₁ := hfirst a ((hS.mem_pred _ a).2 ⟨ha, rfl⟩)
      have hnodup := h.colours.nodup.of_append_left
      rw [heq] at hnodup ⊢
      have hnot : S.arcSucc a ∉ l₁ := fun hin ↦
        (List.nodup_append.1 hnodup).2.2 _ hin _ List.mem_cons_self rfl
      rw [List.idxOf_append_of_mem hp, List.idxOf_append_of_notMem hnot, List.idxOf_cons_self]
      have := List.idxOf_lt_length_of_mem hp
      omega

/-- The depth-first sort leaves such a list, too. -/
theorem isBfsOrder_postorder (hS : S.WF) {evs : List (Event Id Id)} {V : Set Id}
    (hscan : Scan S.succ S.arcSucc r [r] {r} (S.succ r) evs V) :
    IsBfsOrder S F r (postorder r evs).reverse where
  nodup := List.nodup_reverse.2 hscan.nodup_postorder
  mem_iff v := by
    rw [List.mem_reverse, hscan.postorder_perm.mem_iff, hscan.mem_preorder_iff_reach]
  after hacyc _ a ha hpred := by
    have hsucc : a ∈ S.succ (S.arcPred a) := (hS.mem_succ _ a).2 ⟨ha, rfl⟩
    rw [List.mem_reverse, hscan.postorder_perm.mem_iff] at hpred
    exact idxOf_lt_of_sublist (List.nodup_reverse.2 hscan.nodup_postorder)
      (hacyc.sublist_postorder hscan hpred hsucc).reverse

variable (hS : S.WF)

/-- The state the successors of the root are looked at in. -/
def Bfs.atRoot (S : Shape) (r : Id) (M : Marks) : Bfs :=
  ⟨setTflags r black { setAllTflags S.nodes white { M with topoList := [] } with
    topoList := [r] }, [], none⟩

/-- The search starts at the root. -/
theorem Bfs.inv_atRoot : (Bfs.atRoot S r M).Inv S F r [] where
  colours := by
    refine ⟨by simp [atRoot, setTflags, waiting], fun v hv ↦ ?_, fun v hv ↦ ?_⟩
    · rcases eq_or_ne v r with rfl | hvr
      · simp [atRoot, setTflags]
      · simp [atRoot, setTflags, setAllTflags_eq, hvr, hv, waiting]
    · obtain rfl : v = r := by simpa [atRoot, setTflags, waiting] using hv
      exact .refl
  defer := by simp [atRoot]
  found := by simp [atRoot, waiting]

/-- A successor to defer is met while `dn` has no value. -/
theorem foldlM_bfsAcceptArc_fault {es : List Id} {B : Bfs} (hdn : B.dn = none) {a : Id} (ha : a ∈ es)
    (hdefer : F.defer (S.arcSucc a) = true) (hwhite : B.marks.tflags (S.arcSucc a) = white) :
    es.foldlM (bfsAcceptArc S F) B = .error .fault := by
  induction es generalizing B with
  | nil => cases ha
  | cons e es ih =>
    rw [List.foldlM_cons, bfsAcceptArc]
    rcases eq_or_ne (S.arcSucc a) (S.arcSucc e) with heq | hne
    · rw [if_pos (heq ▸ hwhite), if_pos (heq ▸ hdefer), hdn]
      rfl
    · have ha' : a ∈ es := (List.mem_cons.1 ha).resolve_left fun h ↦ hne (by rw [h])
      split_ifs with hw hd
      · rw [hdn]
        rfl
      · rw [Run.ok_bind]
        exact ih hdn ha' (by simpa [setTflags, hne] using hwhite)
      · rw [Run.ok_bind]
        exact ih hdn ha' hwhite

include hS in
/-- With no node to defer right after the root, the rounds go through, unless there are two nodes to
defer. What is not sorted stays as it is. -/
theorem bfsTopoSort_cases (hr : S.root = some r) (hflag : M.flags.topoSort = false)
    (hroot : ∀ a ∈ S.succ r, F.defer (S.arcSucc a) = true → S.arcSucc a = r) :
    (∃ t M', bfsTopoSort S F M = .ok (t, M') ∧ IsBfsOrder S F r M'.topoList ∧
      IsDomOrder S r M'.topoList ∧ M'.flags = { M.flags with topoSort := true } ∧ M'.dom = M.dom) ∨
      Stops S F (bfsTopoSort S F M) := by
  have hrmem : r ∈ S.nodes := hS.root_mem r hr
  have haccept : bfsAcceptNode S F r ⟨setAllTflags S.nodes white { M with topoList := [] }, [],
      none⟩ = (S.succ r).foldlM (bfsAcceptArc S F) (Bfs.atRoot S r M) := by
    simp only [bfsAcceptNode, Bfs.atRoot, setAllTflags_eq, List.nil_append]
  rw [bfsTopoSort, hflag, if_neg Bool.false_ne_true, hr]
  dsimp only
  rw [haccept]
  rcases foldlM_bfsAcceptArc hS hrmem (List.mem_singleton_self r) (fun a ha ↦ ha)
    (Bfs.inv_atRoot (S := S) (F := F) (M := M)) (.inr fun a ha hdefer ↦ by
      rw [hroot a ha hdefer]
      simp [Bfs.atRoot, setTflags, black, white]) with ⟨B₀, hrun₀, hinv, hgrow, hmem⟩ | hstop
  swap
  · exact .inr (hstop.bind _)
  have hlist₀ : B₀.marks.topoList = [r] := hgrow.topoList_eq
  have hdn₀ : B₀.dn = none := hgrow.dn_iff.2 rfl
  have hwait : Bfs.waiting { B₀ with dn := some none } = B₀.waiting := by
    rw [Bfs.waiting, Bfs.waiting, hdn₀]
    rfl
  have hsingle : ∀ l₁ w l₂, B₀.marks.topoList = l₁ ++ w :: l₂ → w = r := fun l₁ w l₂ heq ↦ by
    have hw : w ∈ [r] := by
      rw [← hlist₀, heq]
      exact List.mem_append_right _ List.mem_cons_self
    exact List.mem_singleton.1 hw
  -- the loop starts with the successors of the root
  have hstart : Bfs.Sound S F r [] { B₀ with dn := some none } := by
    refine ⟨⟨hwait ▸ hinv.colours, by simp, hwait ▸ hinv.found⟩, by simp, ?_, fun v hv a ha ↦ ?_,
      fun _ l₁ w l₂ heq ↦ .inl (hsingle l₁ w l₂ heq), fun l₁ w l₂ heq ↦ .inl (hsingle l₁ w l₂ heq)⟩
    · rw [hlist₀]
      exact List.mem_singleton_self r
    · obtain rfl : v = r := by simpa [hlist₀] using hv
      rw [hwait]
      exact hmem a ha
  rw [hrun₀, Run.ok_bind]
  rcases @bfsLoop_spec S hS F r hrmem _ (2 * S.nodes.length + 2) hstart (by
    simp only [hlist₀, Option.join_some, Option.toList_none, List.length_nil, List.length_singleton]
    omega) with ⟨B, p, hrun, hB, hsets, hend⟩ | hstop
  swap
  · exact .inr (hstop.bind _)
  -- the search changes colours and the list, and no set
  have hall : M.SameSets B.marks := by
    refine Marks.SameSets.trans ?_ (hgrow.sameSets.trans hsets)
    simp [Marks.SameSets, Bfs.atRoot, setTflags, setAllTflags_eq]
  have hflags : B.marks.flags = M.flags := by rw [hall]
  have hdom : B.marks.dom = M.dom := by rw [hall]
  rw [hrun, Run.ok_bind]
  left
  dsimp only
  -- if the search got stuck, the depth-first sort is called after it
  split_ifs with hstuck
  · obtain ⟨evs, V, T, hscan, hsort, -⟩ := topologicalSort_spec hS hr
      (M := { setAllTflags S.nodes black B.marks with topoList := [] })
      (by rw [setAllTflags_eq]; exact (congrArg GraphFlags.topoSort hflags).trans hflag)
    rw [hsort, Run.ok_bind, Run.ok_bind]
    refine ⟨_, _, rfl, isBfsOrder_postorder hS hscan, isDomOrder_postorder hscan, ?_, ?_⟩
    · simp only [setAllTflags_eq, hflags]
    · simp only [setAllTflags_eq, hdom]
  · rw [Run.ok_bind]
    have hright := hB.isBfsOrder hS (hend.resolve_left fun hidle ↦
      hstuck ⟨hidle.2, by simpa using hidle.1⟩)
    refine ⟨_, _, rfl, hright, ⟨hright.nodup, hright.mem_iff, hB.foundFirst.idomsFirst hright.nodup⟩,
      ?_, hdom⟩
    rw [hflags]

include hS in
/-- **The search returns with the right list** if the deferred node is not a successor of the root. -/
theorem bfsTopoSort_spec (hr : S.root = some r) (hone : F.DefersOne S)
    (hflag : M.flags.topoSort = false)
    (hroot : ∀ a ∈ S.succ r, F.defer (S.arcSucc a) = true → S.arcSucc a = r) :
    BfsRight S F r M := by
  rcases bfsTopoSort_cases hS hr hflag hroot with ⟨t, M', hrun, hright, -⟩ | hstop
  · exact ⟨t, M', hrun, hright⟩
  · exact absurd hone hstop.1

include hS in
/-- A node to defer right after the root is met while `dn` has no value. -/
theorem bfsTopoSort_fault (hr : S.root = some r) (hflag : M.flags.topoSort = false)
    (hroot : ¬∀ a ∈ S.succ r, F.defer (S.arcSucc a) = true → S.arcSucc a = r) :
    bfsTopoSort S F M = .error .fault := by
  push Not at hroot
  obtain ⟨a, ha, hdefer, hne⟩ := hroot
  have hfault := foldlM_bfsAcceptArc_fault (B := Bfs.atRoot S r M) rfl ha hdefer <| by
    simp [Bfs.atRoot, setTflags, setAllTflags_eq, hne, arcSucc_mem_nodes hS ha]
  have haccept : bfsAcceptNode S F r ⟨setAllTflags S.nodes white { M with topoList := [] }, [],
      none⟩ = .error .fault := by
    rw [← hfault]
    simp only [bfsAcceptNode, Bfs.atRoot, setAllTflags_eq, List.nil_append]
  rw [bfsTopoSort, hflag, if_neg Bool.false_ne_true, hr]
  dsimp only
  rw [haccept]
  rfl

include hS in
/-- **The breadth-first sort** is right exactly when the root has no arc to another node that is to
be deferred. A list that is there already is returned as it is. -/
theorem bfsTopoSort_right_iff (hr : S.root = some r) (hone : F.DefersOne S)
    (hcached : M.flags.topoSort = true → IsBfsOrder S F r M.topoList) :
    BfsRight S F r M ↔ M.flags.topoSort = true ∨
      ∀ a ∈ S.succ r, F.defer (S.arcSucc a) = true → S.arcSucc a = r := by
  cases hflag : M.flags.topoSort with
  | true =>
    refine iff_of_true ⟨S.nodes.length - M.topoList.length, M, ?_, hcached hflag⟩ (.inl rfl)
    rw [bfsTopoSort, hflag, if_pos rfl]
  | false =>
    rw [or_iff_right Bool.false_ne_true]
    refine ⟨fun hright ↦ ?_, bfsTopoSort_spec hS hr hone hflag⟩
    by_contra hroot
    obtain ⟨t, M', hrun, -⟩ := hright
    rw [bfsTopoSort_fault hS hr hflag hroot] at hrun
    cases hrun

end Order

/-- Node 4 of the diamond is to be deferred. -/
def deferLast : NodeFlags := ⟨fun _ ↦ false, fun v ↦ v == 4⟩

/-- A diamond whose last node is deferred. -/
theorem bfsTopoSort_right_iff_diamond : BfsRight diamond deferLast 1 .fresh :=
  (bfsTopoSort_right_iff diamond_isFlowGraph.wf rfl
    (fun u _ v _ hu hv ↦ by simp [deferLast] at hu hv; rw [hu, hv])
    (fun h ↦ absurd h (by decide))).2
      (.inr (by decide))

/-- Two arcs out of the root. -/
def fork : Shape := createCbGraph [(1, [2, 3]), (2, []), (3, [])]

/-- Node 2, to which the root has an arc, is to be deferred. -/
theorem not_bfsRight_fork : ¬BfsRight fork ⟨fun _ ↦ false, fun v ↦ v == 2⟩ 1 .fresh := by
  rintro ⟨t, M', hrun, -⟩
  exact absurd (show (.error .fault : Run (ℤ × Marks)) = .ok (t, M') from hrun) (by simp)

end OpenImpact.Graph
