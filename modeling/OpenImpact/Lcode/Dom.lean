import OpenImpact.Library.Halt
import Mathlib.Data.Finset.Insert
import Mathlib.Data.Fintype.Card
import Mathlib.Logic.Function.Basic

/-!
# Dominator analysis

The Lengauer–Tarjan analysis of `l_dom.c`: `LD_visit` numbers the control nodes and `LD_dominator`
computes their immediate dominators. Control nodes are the values of a finite type, so that
`nodecnt` is its cardinality, and the fields of all nodes make up one state, `Dom`; a pointer is an
`Option`, and the `-1` of an unnumbered node is `none`.

The graph is the list of the `LD_connect` calls, in order; each appends to the successors of the one
node and to the predecessors of the other. The bucket lists are taken from the front.
-/

namespace OpenImpact.LD

variable {α : Type} [DecidableEq α]

/-- The control nodes of a function: the node of the first block, and the `LD_connect` calls. -/
structure ControlGraph (α : Type) where
  root : α
  connects : List (α × α)

namespace ControlGraph

/-- The list `succ` of a node. -/
def succ (g : ControlGraph α) (v : α) : List α :=
  (g.connects.filter fun c ↦ c.1 = v).map Prod.snd

/-- The list `pred` of a node. -/
def pred (g : ControlGraph α) (v : α) : List α :=
  (g.connects.filter fun c ↦ c.2 = v).map Prod.fst

end ControlGraph

/-- The fields of the control nodes, with `cbrec_index` and `LD_dom_analysis->nhash`. -/
structure Dom (α : Type) where
  cbrecIndex : ℕ
  nhash : ℕ → Option α
  dfn : α → Option ℕ
  parent : α → Option α
  sdom : α → ℕ
  label : α → Option α
  ancestor : α → Option α
  bucket : α → List α
  idom : α → Option α
  ridom : α → Finset ℕ
  dtchi : α → Option α
  dtsib : α → Option α

/-- The nodes as `LD_new_control_node` leaves them. -/
def newControlNodes : Dom α where
  cbrecIndex := 0
  nhash _ := none
  dfn _ := none
  parent _ := none
  sdom _ := 0
  label v := some v
  ancestor _ := none
  bucket _ := []
  idom _ := none
  ridom _ := ∅
  dtchi _ := none
  dtsib _ := none

/-- The access through a pointer. -/
def deref {β : Type} : Option β → Run β
  | some v => .ok v
  | none => .error .fault

/-- `LDNODE`. -/
def ldNode (st : Dom α) (i : ℕ) : Run α :=
  match st.nhash i with
  | some v => .ok v
  | none => .error (.punt "Hash Table Element not found.")

/-! ### Numbering -/

/-- `LD_assign_dfn`. -/
def assignDfn (cn : α) (par : Option α) (index : ℕ) (st : Dom α) : Dom α :=
  { st with
    parent := Function.update st.parent cn par
    nhash := Function.update st.nhash index (some cn)
    sdom := Function.update st.sdom cn index
    dfn := Function.update st.dfn cn (some index) }

/-- `++cbrec_index` and `LD_assign_dfn`. -/
def assignNext (cn : α) (par : Option α) (st : Dom α) : Dom α :=
  assignDfn cn par (st.cbrecIndex + 1) { st with cbrecIndex := st.cbrecIndex + 1 }

/-- `LD_visit`. -/
def visit (g : ControlGraph α) : ℕ → Option α → α → Dom α → Run (Dom α)
  | 0, _, _, _ => .error .outOfFuel
  | fuel + 1, par, cn, st =>
    (g.succ cn).foldlM (fun st sn ↦ if st.dfn sn = none then visit g fuel (some cn) sn st else .ok st)
      (assignNext cn par st)

/-! ### The forest -/

/-- `p ? p->sdom : 0`. -/
def sdomOf (st : Dom α) : Option α → ℕ
  | some v => st.sdom v
  | none => 0

/-- `LD_compress`. -/
def compress : ℕ → α → Dom α → Run (Dom α)
  | 0, _, _ => .error .outOfFuel
  | fuel + 1, v, st =>
    match st.ancestor v with
    | none => .ok st
    | some a =>
      if st.ancestor a = none then .ok st
      else do
        let st ← compress fuel a st
        let sl := sdomOf st (st.label v)
        let sla := sdomOf st (st.label a)
        let st := if sla < sl then { st with label := Function.update st.label v (st.label a) } else st
        return { st with
          ancestor := Function.update st.ancestor v ((st.ancestor v).bind st.ancestor) }

/-- `LD_eval`. -/
def eval (fuel : ℕ) (v : α) (st : Dom α) : Run (Option α × Dom α) :=
  if st.ancestor v = none then .ok (st.label v, st)
  else do
    let st ← compress fuel v st
    let a := st.ancestor v
    let sl := sdomOf st (st.label v)
    let sla := sdomOf st (a.bind st.label)
    if sl ≤ sla then return (st.label v, st)
    else
      let a ← deref a
      return (st.label a, st)

/-- `LD_link`. -/
def link (v : Option α) (w : α) (st : Dom α) : Dom α :=
  { st with ancestor := Function.update st.ancestor w v }

/-! ### Dominators -/

/-- The loop over the predecessors of `w`. -/
def predLoop (fuel : ℕ) (w : α) : List α → Dom α → Run (Dom α)
  | [], st => return st
  | v :: rest, st => do
    let (u, st) ← eval fuel v st
    let u ← deref u
    let slu := st.sdom u
    let st := if slu < st.sdom w then { st with sdom := Function.update st.sdom w slu } else st
    predLoop fuel w rest st

/-- The loop that empties the bucket of `p`, whose nodes are the list. -/
def bucketLoop (fuel : ℕ) (p : α) : List α → Dom α → Run (Dom α)
  | [], st => return st
  | v :: rest, st => do
    let st := { st with bucket := Function.update st.bucket p rest }
    let (u, st) ← eval fuel v st
    let u ← deref u
    let st := { st with
      idom := Function.update st.idom v (some (if st.sdom u < st.sdom v then u else p)) }
    bucketLoop fuel p rest st

/-- The body of the first loop of `LD_dominator`. -/
def sdomStep (g : ControlGraph α) (fuel i : ℕ) (st : Dom α) : Run (Dom α) := do
  let w ← ldNode st i
  let st ← predLoop fuel w (g.pred w) st
  let v ← ldNode st (st.sdom w)
  let st := { st with bucket := Function.update st.bucket v (st.bucket v ++ [w]) }
  let st := link (st.parent w) w st
  let p ← deref (st.parent w)
  bucketLoop fuel p (st.bucket p) st

/-- The first loop of `LD_dominator`, from `i` down to 2. -/
def sdomLoop (g : ControlGraph α) (fuel : ℕ) : ℕ → Dom α → Run (Dom α)
  | 0, st => return st
  | 1, st => return st
  | i + 2, st => do
    let st ← sdomStep g fuel (i + 2) st
    sdomLoop g fuel (i + 1) st

/-- `idom` of a node whose semidominator is another one: the immediate dominator of what was recorded. -/
def correctIdom (w s : α) (st : Dom α) : Run (Dom α) :=
  if st.idom w ≠ some s then do
    let u ← deref (st.idom w)
    return { st with idom := Function.update st.idom w (st.idom u) }
  else return st

/-- The node `w` becomes the first child of its immediate dominator. -/
def addToTree (w : α) (st : Dom α) : Run (Dom α) := do
  let d ← deref (st.idom w)
  let dfn ← deref (st.dfn w)
  let st := { st with ridom := Function.update st.ridom d (insert dfn (st.ridom d)) }
  match st.dtchi d with
  | none => return { st with dtchi := Function.update st.dtchi d (some w) }
  | some v => return { st with
      dtchi := Function.update st.dtchi d (some w)
      dtsib := Function.update st.dtsib w (some v) }

/-- The body of the second loop of `LD_dominator`. -/
def idomStep (i : ℕ) (st : Dom α) : Run (Dom α) := do
  let w ← ldNode st i
  let s ← ldNode st (st.sdom w)
  let st ← correctIdom w s st
  addToTree w st

/-- The second loop of `LD_dominator`, over the `cnt` numbers from `i` on. -/
def idomLoop : ℕ → ℕ → Dom α → Run (Dom α)
  | 0, _, st => return st
  | cnt + 1, i, st => do
    let st ← idomStep i st
    idomLoop cnt (i + 1) st

/-- `LD_dominator` after `LD_setup` has built the control nodes: the numbering and the two loops. The
fuel of the recursions is the number of nodes. -/
def dominator [Fintype α] (g : ControlGraph α) : Run (Dom α) := do
  let nodecnt := Fintype.card α
  let st ← visit g nodecnt none g.root newControlNodes
  let st ← sdomLoop g nodecnt nodecnt st
  idomLoop (nodecnt - 1) 2 st

end OpenImpact.LD
