import OpenImpact.Library.Halt
import OpenImpact.Library.Sets
import Mathlib.Logic.Function.Basic

/-!
# Loop detection

`L_loop_detection` of `l_loop.c` and what it calls, without the search for preheaders. A loop is
known by its `id`, so the pointers between loops are ids, and the list from `fn->first_loop` on is
a list of ids. The invocation counts, which are only printed and only used for preheaders, are left
out.
-/

namespace OpenImpact.Lcode

/-- What loop detection reads of a function: the control blocks in order, the targets and the sources
of their flows, and their `DOM` sets. -/
structure LoopFunc where
  cbs : List ℕ
  destFlow : ℕ → List ℕ
  srcFlow : ℕ → List ℕ
  dom : ℕ → List ℕ

/-- `L_Loop`. -/
structure Loop where
  header : ℕ
  preheader : Option ℕ
  nestingLevel : ℤ
  loopCb : List ℕ
  backEdgeCb : List ℕ
  exitCb : List ℕ
  outCb : List ℕ
  nestedLoops : List ℕ
  parentLoop : Option ℕ
  siblingLoop : Option ℕ
  childLoop : Option ℕ

/-- The list of loops, the loop of each id, `fn->max_loop_id`, and the fields of the control blocks
that loop detection sets. -/
structure LoopState where
  loopList : List ℕ
  loop : ℕ → Loop
  maxLoopId : ℕ
  visited : ℕ → Bool
  loopHeader : ℕ → Bool
  deepestLoop : ℕ → Option ℕ

/-- A field of a loop is set. -/
def LoopState.setLoop (st : LoopState) (id : ℕ) (l : Loop) : LoopState :=
  { st with loop := Function.update st.loop id l }

/-- `L_new_loop`. -/
def newLoop (header : ℕ) : Loop where
  header := header
  preheader := none
  nestingLevel := -1
  loopCb := []
  backEdgeCb := []
  exitCb := []
  outCb := []
  nestedLoops := []
  parentLoop := none
  siblingLoop := none
  childLoop := none

/-- `L_reset_visited_flag`. -/
def resetVisitedFlag (fn : LoopFunc) (visited : ℕ → Bool) (cb : ℕ) : Bool :=
  if cb ∈ fn.cbs then false else visited cb

/-- `L_add_blocks`, on the flags `L_CB_VISITED` and `l->loop_cb`. -/
def addBlocks (fn : LoopFunc) (headerCb : ℕ) :
    ℕ → ℕ → (ℕ → Bool) × List ℕ → Run ((ℕ → Bool) × List ℕ)
  | 0, _, _ => .error .outOfFuel
  | fuel + 1, cb, st =>
    (fn.srcFlow cb).foldlM (fun st predCb ↦
      if predCb = headerCb then .ok st
      else if st.1 predCb then .ok st
      else addBlocks fn headerCb fuel predCb
        (Function.update st.1 predCb true, setAdd st.2 predCb)) st

/-- `L_find_blocks_in_loop`. -/
def findBlocksInLoop (fn : LoopFunc) (l : Loop) (visited : ℕ → Bool) :
    Run (Loop × (ℕ → Bool)) :=
  match l.backEdgeCb with
  | [backEdgeCb] =>
    if backEdgeCb ≠ l.header then do
      let r ← addBlocks fn l.header (fn.cbs.length + 1) backEdgeCb
        (resetVisitedFlag fn visited, setAdd (setAdd l.loopCb l.header) backEdgeCb)
      .ok ({ l with loopCb := r.2 }, r.1)
    else .ok ({ l with loopCb := setAdd l.loopCb l.header }, visited)
  | _ => .error (.punt "L_find_blocks_in_loop: must have only 1 back edge block")

/-- One flow in the first loop of `L_loop_det`. -/
def loopDetFlow (fn : LoopFunc) (cb1 : ℕ) (st : LoopState) (cb2 : ℕ) : Run LoopState :=
  if cb2 ∈ fn.dom cb1 then do
    let l := newLoop cb2
    let id := st.maxLoopId + 1
    let r ← findBlocksInLoop fn { l with backEdgeCb := setAdd l.backEdgeCb cb1 } st.visited
    .ok { st with
      maxLoopId := id
      loopList := st.loopList ++ [id]
      loop := Function.update st.loop id r.1
      visited := r.2 }
  else .ok st

/-- `exit_cb` and `out_cb` of a loop. -/
def exitBlocks (fn : LoopFunc) (loopCb : List ℕ) : List ℕ × List ℕ :=
  loopCb.foldl (fun r cb ↦
    (fn.destFlow cb).foldl (fun r dst ↦
      if dst ∈ loopCb then r else (setAdd r.1 cb, setAdd r.2 dst)) r) ([], [])

/-- `L_find_exit_blocks_in_loop`. -/
def findExitBlocksInLoop (fn : LoopFunc) (st : LoopState) : Run LoopState :=
  st.loopList.foldlM (fun st id ↦
    let l := st.loop id
    if l.loopCb = [] then
      .error (.punt "L_find_exit_blocks_in_loop: illegal no. cb in loop")
    else
      let r := exitBlocks fn l.loopCb
      .ok (st.setLoop id { l with exitCb := r.1, outCb := r.2 })) st

/-- The inner loop of `L_merge_loops`: the loops with the header of `loop1` are merged into it. The
others stay in the list. -/
def mergeInto (loop1 : ℕ) : List ℕ → (ℕ → Loop) → (ℕ → Loop) × List ℕ
  | [], loop => (loop, [])
  | loop2 :: loops, loop =>
    if (loop loop1).header ≠ (loop loop2).header then
      let r := mergeInto loop1 loops loop
      (r.1, loop2 :: r.2)
    else
      mergeInto loop1 loops (Function.update loop loop1
        { loop loop1 with
          loopCb := setUnion (loop loop1).loopCb (loop loop2).loopCb
          backEdgeCb := setUnion (loop loop1).backEdgeCb (loop loop2).backEdgeCb })

theorem length_mergeInto (loop1 : ℕ) (loops : List ℕ) (loop : ℕ → Loop) :
    (mergeInto loop1 loops loop).2.length ≤ loops.length := by
  induction loops generalizing loop with
  | nil => exact le_rfl
  | cons loop2 loops ih =>
    rw [mergeInto]
    split_ifs
    · exact Nat.succ_le_succ (ih loop)
    · exact (ih _).trans (Nat.le_succ _)

/-- `L_merge_loops`. -/
def mergeLoops : List ℕ → (ℕ → Loop) → (ℕ → Loop) × List ℕ
  | [], loop => (loop, [])
  | loop1 :: loops, loop =>
    let r := mergeInto loop1 loops loop
    let r' := mergeLoops r.2 r.1
    (r'.1, loop1 :: r'.2)
termination_by loops => loops.length
decreasing_by exact Nat.lt_succ_of_le (length_mergeInto loop1 loops loop)

/-- `L_verify_header_dominance`. -/
def verifyHeaderDominance (fn : LoopFunc) (st : LoopState) : Run LoopState :=
  st.loopList.foldlM (fun st id ↦
    let l := st.loop id
    if l.loopCb = [] then .error (.punt "L_verify_header_dominance: illegal num_cb")
    else if l.loopCb.all fun cb ↦ decide (l.header ∈ fn.dom cb) then .ok st
    else .ok { st with loopList := st.loopList.erase id }) st

/-- `L_loop_det`, with loops merged. -/
def loopDet (fn : LoopFunc) (st : LoopState) : Run LoopState := do
  let st ← fn.cbs.foldlM (fun st cb1 ↦ (fn.destFlow cb1).foldlM (loopDetFlow fn cb1) st) st
  let st ← findExitBlocksInLoop fn st
  let r := mergeLoops st.loopList st.loop
  let st ← findExitBlocksInLoop fn { st with loop := r.1, loopList := r.2 }
  verifyHeaderDominance fn st

/-- `L_is_nested`. -/
def isNested (st : LoopState) (loop1 loop2 : ℕ) : Run Bool :=
  if loop1 = loop2 then .ok false
  else if (st.loop loop2).loopCb = [] then .error (.punt "L_is_nested: illegal num_loop2_cb")
  else .ok ((st.loop loop2).loopCb.all fun cb ↦ decide (cb ∈ (st.loop loop1).loopCb))

/-- The body of the inner loop of `L_find_nesting_level`. -/
def nestingStep (loop2 : ℕ) (st : LoopState) (loop1 : ℕ) : Run LoopState :=
  if loop2 = loop1 then .ok st
  else do
    if ← isNested st loop1 loop2 then
      let st := st.setLoop loop2
        { st.loop loop2 with nestingLevel := (st.loop loop2).nestingLevel + 1 }
      let st := st.setLoop loop1
        { st.loop loop1 with nestedLoops := setAdd (st.loop loop1).nestedLoops loop2 }
      match (st.loop loop2).preheader with
      | some preheader => .ok (st.setLoop loop1
          { st.loop loop1 with loopCb := setAdd (st.loop loop1).loopCb preheader })
      | none => .ok st
    else .ok st

/-- `L_find_nesting_level`. -/
def findNestingLevel (st : LoopState) : Run LoopState :=
  let st := st.loopList.foldl (fun st id ↦ st.setLoop id { st.loop id with nestingLevel := 1 }) st
  st.loopList.foldlM (fun st loop2 ↦ st.loopList.foldlM (nestingStep loop2) st) st

/-- `L_mark_loop_headers`. -/
def markLoopHeaders (st : LoopState) : LoopState :=
  { st with
    loopHeader := st.loopList.foldl (fun flags id ↦
      Function.update flags (st.loop id).header true) st.loopHeader }

/-- The inner loop of `L_find_deepest_nest_for_cbs`, on `cb->deepest_loop` and `cb_nest`. -/
def deepestNest (st : LoopState) (cb : ℕ) : Option ℕ × ℤ :=
  st.loopList.foldl (fun r id ↦
    if (st.loop id).nestingLevel > r.2 then
      if cb ∈ (st.loop id).loopCb then (some id, (st.loop id).nestingLevel) else r
    else r) (none, 0)

/-- `L_find_deepest_nest_for_cbs`. -/
def findDeepestNestForCbs (fn : LoopFunc) (st : LoopState) : LoopState :=
  { st with
    deepestLoop := fun cb ↦ if cb ∈ fn.cbs then (deepestNest st cb).1 else st.deepestLoop cb }

/-- The inner loop of `L_reconnect_loop_hierarchy`. -/
def findParent (st : LoopState) (loop2 : ℕ) : List ℕ → Run (Option ℕ)
  | [] => .ok none
  | loop1 :: loops =>
    if loop2 = loop1 then findParent st loop2 loops
    else if (st.loop loop2).nestingLevel = (st.loop loop1).nestingLevel + 1 then do
      if ← isNested st loop1 loop2 then .ok (some loop1) else findParent st loop2 loops
    else findParent st loop2 loops

/-- The body of the first loop of `L_reconnect_loop_hierarchy`. -/
def linkParent (st : LoopState) (loop2 : ℕ) : Run LoopState :=
  if (st.loop loop2).nestingLevel = 1 then .ok st
  else do
    match ← findParent st loop2 st.loopList with
    | some loop1 =>
      let st := st.setLoop loop2 { st.loop loop2 with
        parentLoop := some loop1
        siblingLoop := (st.loop loop1).childLoop }
      .ok (st.setLoop loop1 { st.loop loop1 with childLoop := some loop2 })
    | none =>
      if (st.loop loop2).parentLoop = none then
        .error (.punt "L_reconnect_loop_hierarchy: parent loop not found")
      else .ok st

/-- `L_make_first_loop_level_one`. -/
def makeFirstLoopLevelOne (st : LoopState) : Run LoopState :=
  match st.loopList with
  | [] => .ok st
  | first :: loops =>
    if (st.loop first).nestingLevel ≠ 1 then
      match loops.find? fun id ↦ decide ((st.loop id).nestingLevel = 1) with
      | some id => .ok { st with loopList := id :: (first :: loops).erase id }
      | none => .error (.punt "L_make_first_loop_level_one: no level one loop found")
    else .ok st

/-- The last loop of `L_reconnect_loop_hierarchy`, with `loop2`. -/
def linkSiblings : List ℕ → ℕ → LoopState → LoopState
  | [], _, st => st
  | loop1 :: loops, loop2, st =>
    if (st.loop loop1).nestingLevel = 1 then
      linkSiblings loops loop1
        (st.setLoop loop2 { st.loop loop2 with siblingLoop := some loop1 })
    else linkSiblings loops loop2 st

/-- `L_reconnect_loop_hierarchy`. -/
def reconnectLoopHierarchy (st : LoopState) : Run LoopState := do
  let st ← st.loopList.foldlM linkParent st
  let st ← makeFirstLoopLevelOne st
  match st.loopList with
  | [] => .ok st
  | first :: loops =>
    if (st.loop first).nestingLevel ≠ 1 then
      .error (.punt "L_reconnect_loop_hierarchy: fn first_loop not level 1")
    else .ok (linkSiblings loops first st)

/-- `L_loop_detection` with `find_preheaders = 0`. -/
def loopDetection (fn : LoopFunc) (st : LoopState) : Run LoopState := do
  let st ← loopDet fn { st with maxLoopId := 0, loopList := [] }
  let st ← findNestingLevel st
  let st ← findExitBlocksInLoop fn st
  reconnectLoopHierarchy (findDeepestNestForCbs fn (markLoopHeaders st))

end OpenImpact.Lcode
