import OpenImpact.Library.Halt
import Mathlib.Data.Nat.Bitwise
import Mathlib.Data.Int.Notation
import Mathlib.Data.Nat.Size

/-!
# Decision diagrams

`i_bdd_interface.c`, over diagrams as CUDD has them: an edge to a node may be complemented, and levels may
be skipped. `I_BDD_minterms` walks all paths and copies its array of digits at each constant that is
true. `I_BDD_new_mutex_domain` numbers a domain with codes in new variables; as long as there are more
codes than elements, an element takes two codes and leaves the lowest variable out.
-/

namespace OpenImpact.Bdds

/-- `DdNode`: a constant, or a variable's index with the edges to the "then" and the "else" node and
whether they are complemented. -/
inductive DdNode where
  | const (value : ℤ)
  | node (index : ℕ) (tComp : Bool) (t : DdNode) (eComp : Bool) (e : DdNode)
  deriving DecidableEq

/-- A pointer to a node, with the mark for the complement. -/
structure Edge where
  comp : Bool
  node : DdNode
  deriving DecidableEq

/-- `DdManager` -/
structure DdManager where
  /-- The number of variables. -/
  size : ℕ
  /-- The level of a variable. -/
  perm : ℕ → ℕ
  /-- The value of the `background` node, which `Cudd_Init` sets to zero. -/
  background : ℤ

/-- `dd->one` -/
def one : Edge := ⟨false, .const 1⟩

/-- `Cudd_Not`. -/
def cuddNot (f : Edge) : Edge := ⟨!f.comp, f.node⟩

/-- The node of the variable with an index, as `Cudd_bddNewVar` makes it. -/
def bddVar (index : ℕ) : Edge := ⟨false, .node index false (.const 1) true (.const 1)⟩

/-! ### Functions and cubes -/

/-- The Boolean function of a node. -/
def DdNode.eval (a : ℕ → Bool) : DdNode → Bool
  | .const value => value = 1
  | .node index tComp t eComp e => if a index then tComp ^^ t.eval a else eComp ^^ e.eval a

/-- The Boolean function of an edge. -/
def Edge.eval (f : Edge) (a : ℕ → Bool) : Bool := f.comp ^^ f.node.eval a

/-- The variables of a node and below it. -/
def DdNode.support : DdNode → List ℕ
  | .const _ => []
  | .node index _ t _ e => index :: (t.support ++ e.support)

/-- The nodes of decision diagrams: the only constant is 1, and levels go down. -/
def DdManager.IsBdd (dd : DdManager) : DdNode → Prop
  | .const value => value = 1
  | .node index _ t _ e => index < dd.size ∧ dd.IsBdd t ∧ dd.IsBdd e ∧
      ∀ i ∈ t.support ++ e.support, dd.perm index < dd.perm i

/-- An assignment is in a cube, an array with a digit for each variable and 2 for any value. -/
def InCube (cube : List ℕ) (a : ℕ → Bool) : Prop :=
  ∀ i v, cube[i]? = some v → v = 2 ∨ v = (a i).toNat

/-! ### Minterms -/

/-- `I_BDD_minterms_aux`, with the array and the list of minterms that it changes. -/
def mintermsAux (dd : DdManager) (comp : Bool) :
    DdNode → List ℕ → List (List ℕ) → Run (List ℕ × List (List ℕ))
  | .const value, list, mintermList =>
    if ¬(comp = false ∧ value = dd.background) ∧ ¬(comp = true ∧ value = 1) then
      -- `cuddV` of a marked pointer
      if comp then .error .fault
      else if value ≠ 1 then .error (.punt "I_BDD_minterms_aux: bad BDD")
      else .ok (list, mintermList ++ [list])
    else .ok (list, mintermList)
  | .node index tComp t eComp e, list, mintermList =>
    if list.length ≤ index then .error .fault
    else do
      let (list, mintermList) ← mintermsAux dd (eComp ^^ comp) e (list.set index 0) mintermList
      let (list, mintermList) ← mintermsAux dd (tComp ^^ comp) t (list.set index 1) mintermList
      .ok (list.set index 2, mintermList)

/-- `I_BDD_minterms`. -/
def minterms (dd : DdManager) (f : Edge) : Run (List (List ℕ)) := do
  let (_, mintermList) ← mintermsAux dd f.comp f.node (List.replicate dd.size 2) []
  .ok mintermList

/-! ### Domains -/

/-- The loop that counts the variables. -/
def countVars (shbuf vars : ℕ) : ℕ :=
  if shbuf = 0 then vars else countVars (shbuf >>> 1) (vars + 1)
termination_by shbuf
decreasing_by
  rw [Nat.shiftRight_one]
  omega

/-- The loop over the variables of an element, from `j` on. -/
def codeNode (bddAnd : Edge → Edge → Edge) (ddVar : ℕ → Edge) (ctr : ℕ) : ℕ → ℕ → Edge → Edge
  | _, 0, newnode => newnode
  | j, n + 1, newnode =>
    let bitnode := if ctr.testBit j then ddVar j else cuddNot (ddVar j)
    codeNode bddAnd ddVar ctr (j + 1) n (bddAnd bitnode newnode)

/-- The loop over the elements, of which so many are left. -/
def domainNodes (bddAnd : Edge → Edge → Edge) (ddVar : ℕ → Edge) (vars : ℕ) :
    ℕ → ℕ → ℕ → List Edge
  | 0, _, _ => []
  | n + 1, ctr, extra =>
    let start := if extra > 0 then 1 else 0
    let node := codeNode bddAnd ddVar ctr start (vars - start) one
    if extra > 0 then node :: domainNodes bddAnd ddVar vars n (ctr + 1 + 1) (extra - 1)
    else node :: domainNodes bddAnd ddVar vars n (ctr + 1) extra

/-- `I_BDD_new_mutex_domain`, with the nodes that it fills in and the number of variables there are
then. `1 << vars` is an `int`. -/
def newMutexDomain (bddAnd : Edge → Edge → Edge) (dd : DdManager) (size : ℕ) :
    Run (List Edge × DdManager) :=
  if size = 0 then .ok ([], dd)
  else if size = 1 then .ok ([one], dd)
  else
    let vars := countVars (size - 1) 0
    if 1 <<< vars ≥ 2 ^ 31 then .error .overflow
    else
      let extra := 1 <<< vars - size
      let ddVar := fun j ↦ bddVar (dd.size + j)
      .ok (domainNodes bddAnd ddVar vars size 0 extra, { dd with size := dd.size + vars })

end OpenImpact.Bdds
