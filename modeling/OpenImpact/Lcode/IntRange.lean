import OpenImpact.Lcode.Compare

/-!
# Integer ranges

The disjoint-interval structure of `l_int_range.c`. A range is a list of nodes; adding an interval
cuts the nodes it overlaps and adds new ones for what was not covered, so that the nodes stay the
minterms of the conditions added so far.

Two things about the model.

* A node carries `lower ≤ upper`: `IR_new_node` refuses anything else.
* The interval computations are `dec` and `inc`. In C they are plain unsigned arithmetic; here they
  stop the run with `Halt.overflow` instead of leaving `[0, rangeMax bits]`. A run that returns is
  therefore one in which every such computation stayed in the width.

The cursor loops of the list library are recursions on the part of the list after the cursor.
-/

namespace OpenImpact.IR

/-- `IR_Node`: an interval. -/
structure Node where
  lower : ℕ
  upper : ℕ
  valid : lower ≤ upper
  deriving DecidableEq, Repr

/-- `IR_Range`: the width and the nodes. -/
structure Range where
  bits : ℕ
  bits_eq : bits = 32 ∨ bits = 64
  nodeList : List Node
  deriving DecidableEq

/-! ### Width constants -/

def itMaxU32 : ℕ := 0xFFFFFFFF

/-- `ITMAXU32` / `ITMAXU64`. -/
def rangeMax (bits : ℕ) : ℕ := 2 ^ bits - 1

/-- `ITMAXS32` / `ITMAXS64`. -/
def rangePlus (bits : ℕ) : ℕ := 2 ^ (bits - 1) - 1

/-- `ITMINS32` / `ITMINS64`. -/
def rangeMinus (bits : ℕ) : ℕ := 2 ^ (bits - 1)

/-- `x - 1`, inside the width. -/
def dec (x : ℕ) : Run ℕ := if 0 < x then .ok (x - 1) else .error .overflow

/-- `x + 1`, inside the width. -/
def inc (bits x : ℕ) : Run ℕ := if x < rangeMax bits then .ok (x + 1) else .error .overflow

/-! ### Nodes -/

/-- `IR_new_node`. -/
def newNode (lower upper : ℕ) : Run Node :=
  if h : lower ≤ upper then .ok ⟨lower, upper, h⟩
  else .error (.punt "IR_new_node: attempt to create invalid node.")

/-- `IR_new_int_range`. -/
def newIntRange (bits : ℕ) (initToTrue : Bool) : Run Range :=
  if h : bits = 32 ∨ bits = 64 then
    if initToTrue then .ok ⟨bits, h, [⟨0, rangeMax bits, Nat.zero_le _⟩]⟩
    else .ok ⟨bits, h, []⟩
  else .error (.punt "IR_new_int_range: Unhandled range bitwidth %d.")

/-- `IR_split_node` on the current node: the nodes that replace it, the new one last. Nothing is
split off when the value is not past the node's lower end. -/
def splitNode (orig : Node) (splitVal : ℕ) : Run (Node × Option Node) :=
  if h : splitVal ≤ orig.lower then .ok (orig, none)
  else do
    let new ← newNode splitVal orig.upper
    let _ ← dec splitVal
    return (⟨orig.lower, splitVal - 1, by omega⟩, some new)

/-! ### Adding an interval -/

/-- What one pass of the loop of `IR_add_disj_nodes` does at the current node: leave the loop, or go
on past `visited` with a new lower end. -/
inductive DisjStep where
  | break (nodes : List Node)
  | next (visited : List Node) (lower : ℕ)
  deriving DecidableEq

/-- The same outcome with one more node left behind. -/
def DisjStep.cons (n : Node) : DisjStep → DisjStep
  | .break nodes => .break (n :: nodes)
  | .next visited lower => .next (n :: visited) lower

/-- The tail of the loop body, reached with `lower` at the current node's lower end. -/
def disjStepAt (bits upper : ℕ) (node : Node) : Run DisjStep :=
  if node.upper < upper then do
    let lower ← inc bits node.upper
    return .next [node] lower
  else if upper < node.upper then do
    let splitVal ← inc bits upper
    let (orig, new) ← splitNode node splitVal
    return .break (orig :: new.toList)
  else return .break [node]

/-- The loop body of `IR_add_disj_nodes` at the current node. -/
def disjStep (bits lower upper : ℕ) (node : Node) : Run DisjStep :=
  if node.upper < lower then return .next [node] lower
  else if lower < node.lower then
    if upper < node.lower then do
      let new ← newNode lower upper
      return .break [new, node]
    else do
      let last ← dec node.lower
      let new ← newNode lower last
      let step ← disjStepAt bits upper node
      return step.cons new
  else if node.lower < lower then do
    match ← splitNode node lower with
    | (orig, some new) =>
      let step ← disjStepAt bits upper new
      return step.cons orig
    | (orig, none) => return .next [orig] lower
  else disjStepAt bits upper node

/-- The loop of `IR_add_disj_nodes` from the cursor on. Running off the end appends what is left of
the interval. -/
def addDisjLoop (bits upper : ℕ) : ℕ → List Node → Run (List Node)
  | lower, [] => do
    let new ← newNode lower upper
    return [new]
  | lower, node :: rest => do
    match ← disjStep bits lower upper node with
    | .break nodes => return nodes ++ rest
    | .next visited lower' => do
      let tail ← addDisjLoop bits upper lower' rest
      return visited ++ tail

/-- `IR_add_disj_nodes`. -/
def addDisjNodes (range : Range) (lower upper : ℕ) : Run Range :=
  if upper < lower then .error (.punt "IR_add_disj_nodes: invalid range.")
  else if range.nodeList = [] then do
    let new ← newNode lower upper
    return { range with nodeList := [new] }
  else do
    let nodes ← addDisjLoop range.bits upper lower range.nodeList
    return { range with nodeList := nodes }

/-! ### Conditions -/

def lirUnsigned : ITuint8 := 0x80

def lirEQ : ITuint8 := lcmpComEQ
def lirNE : ITuint8 := lcmpComNE
def lirGT : ITuint8 := lcmpComGT
def lirGE : ITuint8 := lcmpComGE
def lirLT : ITuint8 := lcmpComLT
def lirLE : ITuint8 := lcmpComLE
def lirGTU : ITuint8 := lcmpComGT ||| lirUnsigned
def lirGEU : ITuint8 := lcmpComGE ||| lirUnsigned
def lirLTU : ITuint8 := lcmpComLT ||| lirUnsigned
def lirLEU : ITuint8 := lcmpComLE ||| lirUnsigned

/-- `[0, c - 1]`, unless it is empty. -/
def addBelow (range : Range) (c : ℕ) : Run Range :=
  if c ≠ 0 then do
    let upper ← dec c
    addDisjNodes range 0 upper
  else return range

/-- `[c + 1, range_max]`, unless it is empty. -/
def addAbove (range : Range) (c : ℕ) : Run Range :=
  if c ≠ rangeMax range.bits then do
    let lower ← inc range.bits c
    addDisjNodes range lower (rangeMax range.bits)
  else return range

/-- The switch of `IR_form_disjunctives` on the normalized completer and constant. -/
def formDisjunctivesSwitch (range : Range) (compareType : ITuint8) (c : ℕ) : Run Range :=
  let max := rangeMax range.bits
  let plus := rangePlus range.bits
  let minus := rangeMinus range.bits
  if compareType = lirEQ then addDisjNodes range c c
  else if compareType = lirNE then do
    let range ← addBelow range c
    addAbove range c
  else if compareType = lirGT then
    if c = plus then return range
    else if c < plus then do
      let lower ← inc range.bits c
      addDisjNodes range lower plus
    else do
      let range ← addAbove range c
      addDisjNodes range 0 plus
  else if compareType = lirGE then
    if c ≤ plus then addDisjNodes range c plus
    else do
      let range ← addDisjNodes range c max
      addDisjNodes range 0 plus
  else if compareType = lirLT then
    if c = minus then return range
    else if c ≤ plus then do
      let range ← addBelow range c
      addDisjNodes range minus max
    else do
      let upper ← dec c
      addDisjNodes range minus upper
  else if compareType = lirLE then
    if c ≤ plus then do
      let range ← addDisjNodes range 0 c
      addDisjNodes range minus max
    else addDisjNodes range minus c
  else if compareType = lirGTU then addAbove range c
  else if compareType = lirGEU then addDisjNodes range c max
  else if compareType = lirLTU then addBelow range c
  else if compareType = lirLEU then addDisjNodes range 0 c
  else .error (.punt "IR_form_disjunctives: Unhandled compare_type: %d.")

/-- `compare_type` as the switch sees it: with the register first, and marked when an order is taken
on unsigned values. -/
def compareTypeOf (oper : Oper) (constFirst : Bool) : ITuint8 :=
  let compareType := if constFirst then inversePredCompleter oper.com1 else oper.com1
  if !isCtypeSignedDirect oper.com0 && oper.inequalityCompare then compareType ||| lirUnsigned
  else compareType

/-- `compare_const`, cut to the width of the range. -/
def compareConstOf (bits : ℕ) (const : BitVec 64) : ℕ :=
  if bits = 32 then const.toNat &&& itMaxU32 else const.toNat

/-- `IR_form_disjunctives`: add the values on which the comparison is true. -/
def formDisjunctives (range : Range) (oper : Oper) : Run Range :=
  if !oper.isRegConstPredCompare && !oper.isRegConstCondBr then
    .error (.punt "IR_form_disjunctives called on inappropriate oper.")
  else do
    let constFirst ← oper.predCompareConstFirst
    let const ← oper.predCompareGetIntConst
    formDisjunctivesSwitch range (compareTypeOf oper constFirst) (compareConstOf range.bits const)

/-- The loop of `IR_build_range_table` over the conditions of one register. -/
def formDisjunctivesAll (range : Range) : List Oper → Run Range
  | [] => return range
  | oper :: rest => do
    let range ← formDisjunctives range oper
    formDisjunctivesAll range rest

/-! ### Queries -/

/-- The loop of `IR_range_subsumes_node`. -/
def subsumesLoop (node : Node) : List Node → Bool
  | [] => false
  | indx :: rest =>
    if indx.upper < node.lower then subsumesLoop node rest
    else if node.lower < indx.lower then false
    else if indx.upper < node.upper then false
    else true

/-- `IR_range_subsumes_node`. -/
def rangeSubsumesNode (range : Range) (node : Node) : Bool := subsumesLoop node range.nodeList

/-- The loop of `IR_range_exhaustive`: the next value not seen, and whether the loop ran off the end.
The increment is meant to wrap at the host width. -/
def exhaustiveLoop (nextUnseen : ℕ) : List Node → ℕ × Bool
  | [] => (nextUnseen, true)
  | indx :: rest =>
    if indx.lower ≠ nextUnseen then (nextUnseen, false)
    else exhaustiveLoop ((indx.upper + 1) % 2 ^ 64) rest

/-- `IR_range_exhaustive`. -/
def rangeExhaustive (range : Range) : Bool :=
  if range.nodeList = [] then false
  else
    let (nextUnseen, ended) := exhaustiveLoop 0 range.nodeList
    let nextUnseen := if range.bits = 32 then nextUnseen &&& itMaxU32 else nextUnseen
    nextUnseen = 0 && ended

end OpenImpact.IR
