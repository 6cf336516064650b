import OpenImpact.Foundation.SimplePath
import OpenImpact.Foundation.Blocking
import OpenImpact.Library.Halt
import OpenImpact.Library.Sets
import Mathlib.Logic.Function.Basic

/-!
# Path enumeration for hyperblock formation

`LB_hb_find_all_paths` and what it calls in `lb_hb_path.c`. On a region of blocks without marks and
above the weight threshold the search returns and records every simple path once.
-/

namespace OpenImpact.Lblock

/-- `L_Flow`. -/
structure Flow (W : Type) where
  dstCb : ℕ
  weight : W

/-- What the search reads of the function, the marks on the blocks and the parameters
`LB_hb_min_cb_weight` and `LB_hb_min_ratio_sens_opct`. -/
structure HbFunc (W : Type) where
  destFlow : ℕ → List (Flow W)
  weight : ℕ → W
  hasJrg : ℕ → Bool
  hyperblockLoop : ℕ → Bool
  markedForLoopPeel : ℕ → Bool
  selectAll : ℕ → Bool
  selectExact : ℕ → Bool
  ignore : ℕ → Bool
  minCbWeight : W
  minRatioSensOpct : Bool

/-- The flags `L_CB_VISITED`, the sets `B`, which keep their elements in order, the path stack from
its top, and the paths with what is counted of them. -/
structure HbState where
  visited : ℕ → Bool
  waiting : ℕ → List ℕ
  stack : List ℕ
  allPaths : List (List ℕ)
  totalPaths : ℕ
  totalZpaths : ℕ
  allBlocks : List ℕ
  maxPathExceeded : Bool

/-- `LB_MAX_PATHS`. -/
def maxPaths : ℕ := 65536

/-- `LB_MAX_Z_PATHS`. -/
def maxZPaths : ℕ := 32768

/-! ### The source's functions -/

/-- `LB_hb_unmark`. -/
def unmark : ℕ → ℕ → HbState → Run HbState
  | 0, _, _ => .error .outOfFuel
  | fuel + 1, cb, s =>
    (s.waiting cb).foldlM (fun s i ↦
      let s := { s with waiting := Function.update s.waiting cb (setDelete (s.waiting cb) i) }
      if !s.visited i then unmark fuel i s else .ok s)
      { s with visited := Function.update s.visited cb true }

section Functions

variable {W : Type} [LinearOrder W] (f : HbFunc W)

/-- `LB_hb_record_path`. -/
def recordPath (s : HbState) : HbState :=
  { s with
    allPaths := s.allPaths ++ [s.stack.reverse]
    totalPaths := s.totalPaths + 1
    allBlocks := setUnion s.allBlocks s.stack
    totalZpaths :=
      if s.stack.any fun cb ↦ decide (f.weight cb < f.minCbWeight) then s.totalZpaths + 1
      else s.totalZpaths }

/-- Whether a block is left out for a jump table, or as a hyperblock loop that is not peelable. -/
def leftOut (cb : ℕ) : Bool :=
  f.hasJrg cb || (f.hyperblockLoop cb && !f.markedForLoopPeel cb)

/-- The tests that skip a flow in the search of the successors. -/
def skipSearch (endCb : ℕ) (blocks : List ℕ) (s : HbState) (dst : ℕ) : Bool :=
  decide (dst ≠ endCb ∧ dst ∉ blocks) ||
    (decide (f.weight dst < f.minCbWeight) &&
      (!f.minRatioSensOpct || decide (s.totalZpaths > maxZPaths))) ||
    leftOut f dst

/-- The tests that skip a flow after a search that found no path. -/
def skipWait (blocks : List ℕ) (dst : ℕ) : Bool :=
  decide (dst ∉ blocks) ||
    (!f.minRatioSensOpct && decide (f.weight dst < f.minCbWeight)) ||
    leftOut f dst

/-- The number of `max_flow` among the flows, of which those from number `i` on are left. -/
def maxFlow : List (Flow W) → ℕ → ℕ → W → ℕ
  | [], _, best, _ => best
  | fl :: fls, i, best, w =>
    if fl.weight > w then maxFlow fls (i + 1) i fl.weight else maxFlow fls (i + 1) best w

/-- The loop over the successors, from flow number `i` on, with the search from a successor. -/
def searchFlows (findPath : ℕ → HbState → Run (HbState × Bool)) (endCb : ℕ) (blocks : List ℕ)
    (maxFl : ℕ) : List (Flow W) → ℕ → HbState → Bool → Run (HbState × Bool)
  | [], _, s, flag => .ok (s, flag)
  | fl :: fls, i, s, flag =>
    if skipSearch f endCb blocks s fl.dstCb then
      searchFlows findPath endCb blocks maxFl fls (i + 1) s flag
    else if !s.visited fl.dstCb then
      searchFlows findPath endCb blocks maxFl fls (i + 1) s flag
    else if s.totalPaths > maxPaths ∧ flag = false ∧ fl.dstCb ∈ s.allBlocks ∧ i ≠ maxFl then
      searchFlows findPath endCb blocks maxFl fls (i + 1) { s with maxPathExceeded := true } flag
    else do
      let (s, g) ← findPath fl.dstCb (if s.totalPaths > maxPaths ∧ flag = false ∧
        fl.dstCb ∈ s.allBlocks then { s with maxPathExceeded := true } else s)
      searchFlows findPath endCb blocks maxFl fls (i + 1) s (flag || g)

/-- The search at a block on the stack. -/
def searchBlock (findPath : ℕ → HbState → Run (HbState × Bool)) (endCb : ℕ) (blocks : List ℕ)
    (cb : ℕ) (s : HbState) : Run (HbState × Bool) :=
  if cb = endCb then .ok (recordPath f s, true)
  else
    match f.destFlow cb with
    | [] => .ok (s, false)
    | fl :: fls =>
      searchFlows f findPath endCb blocks (maxFlow (fl :: fls) 0 0 fl.weight) (fl :: fls) 0 s false

/-- The end of the search at a block: it is unmarked, or waits at its successors. -/
def closeBlock (blocks : List ℕ) (depth cb : ℕ) (s : HbState) (flag : Bool) : Run HbState :=
  if flag then unmark depth cb s
  else .ok { s with
    waiting := (f.destFlow cb).foldl (fun B fl ↦
      if skipWait f blocks fl.dstCb then B
      else Function.update B fl.dstCb (setAdd (B fl.dstCb) cb)) s.waiting }

/-- `LB_hb_find_path`. The result is the state with `*flag`. -/
def findPath (endCb : ℕ) (blocks : List ℕ) (depth : ℕ) :
    ℕ → ℕ → HbState → Run (HbState × Bool)
  | 0, _, _ => .error .outOfFuel
  | fuel + 1, cb, s => do
    let (s, flag) ← searchBlock f (findPath endCb blocks depth fuel) endCb blocks cb
      { s with stack := cb :: s.stack, visited := Function.update s.visited cb false }
    let s ← closeBlock f blocks depth cb s flag
    .ok ({ s with stack := s.stack.tail }, flag)

/-- The initialisation in `LB_hb_find_all_paths`. -/
def initSearch (blocks : List ℕ) (s : HbState) : HbState where
  visited cb := if cb ∈ blocks then true else s.visited cb
  waiting cb := if cb ∈ blocks then [] else s.waiting cb
  stack := []
  allPaths := []
  totalPaths := 0
  totalZpaths := 0
  allBlocks := []
  maxPathExceeded := false

/-- `LB_hb_find_all_paths`. The result is the list of paths, whose length is what it returns. -/
def findAllPaths (start endCb : ℕ) (blocks : List ℕ) (s : HbState) : Run (List (List ℕ)) :=
  if f.selectAll start || f.selectExact start || f.ignore start || f.ignore endCb ||
      f.hasJrg start || f.hasJrg endCb then .ok []
  else do
    let (s, _) ← findPath f endCb blocks (blocks.length + 1) (blocks.length + 1) start
      (initSearch blocks s)
    .ok s.allPaths

end Functions

end OpenImpact.Lblock
