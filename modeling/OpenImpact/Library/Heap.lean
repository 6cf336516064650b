import OpenImpact.Foundation.BinaryHeap
import OpenImpact.Library.Halt
import Mathlib.Order.Defs.LinearOrder

/-!
# The binary heap

`heap.c` keeps a priority queue in a tree of nodes with pointers to the parent and to both children.
There is no array: the node to add or to remove is found by walking down from the root along the
binary digits of the size. Weights are `double` in the source; here they come from any linear order,
so that a weight that is not a number is excluded.
-/

namespace OpenImpact.Heaps

/-- An address of a node. -/
abbrev Addr := ℕ

/-- `HeapNode`. -/
structure HeapNode (W E : Type) where
  weight : W
  element : E
  p : Option Addr
  left : Option Addr
  right : Option Addr

/-- `HEAP_MAX` and `HEAP_MIN`. -/
inductive Dir where
  | max
  | min
  deriving DecidableEq

/-- `Heap`, with the nodes allocated for it and not freed. Addresses from `fresh` on are unused. -/
structure Heap (W E : Type) where
  mem : Addr → Option (HeapNode W E)
  fresh : Addr
  heap : Option Addr
  size : ℕ
  dir : Dir

/-- `Heap_Create`. -/
def create {W E : Type} (dir : Dir) : Heap W E := ⟨fun _ ↦ none, 0, none, 0, dir⟩

section

variable {W E : Type}

/-- Reading the node a pointer leads to. -/
def Heap.deref (H : Heap W E) : Option Addr → Run (HeapNode W E)
  | none => throw .fault
  | some a =>
    match H.mem a with
    | none => throw .fault
    | some node => return node

def Heap.set (H : Heap W E) (a : Addr) (node : HeapNode W E) : Heap W E :=
  { H with mem := Function.update H.mem a (some node) }

/-- `L_free`. -/
def Heap.free (H : Heap W E) (a : Addr) : Heap W E := { H with mem := Function.update H.mem a none }

@[simp] theorem Heap.set_size (H : Heap W E) (a : Addr) (x : HeapNode W E) :
    (H.set a x).size = H.size := rfl

@[simp] theorem Heap.set_heap (H : Heap W E) (a : Addr) (x : HeapNode W E) :
    (H.set a x).heap = H.heap := rfl

@[simp] theorem Heap.set_fresh (H : Heap W E) (a : Addr) (x : HeapNode W E) :
    (H.set a x).fresh = H.fresh := rfl

@[simp] theorem Heap.set_dir (H : Heap W E) (a : Addr) (x : HeapNode W E) :
    (H.set a x).dir = H.dir := rfl

@[simp] theorem Heap.set_mem_self (H : Heap W E) (a : Addr) (x : HeapNode W E) :
    (H.set a x).mem a = some x := Function.update_self ..

theorem Heap.set_mem_of_ne (H : Heap W E) {a a' : Addr} (hne : a' ≠ a) (x : HeapNode W E) :
    (H.set a x).mem a' = H.mem a' := Function.update_of_ne hne _ _

/-- The loop `while (size >= (1 << pt)) ++pt`. The first argument is the number of shifts that are
left: `1 << 31` does not fit in an `int`. -/
def countBits (size : ℕ) : ℕ → ℕ → Run ℕ
  | 0, _ => throw .overflow
  | shifts + 1, pt => if size ≥ 1 <<< pt then countBits size shifts (pt + 1) else return pt

/-- The walk down from the root, `while (pt > 1)`. -/
def walkDown (H : Heap W E) (size : ℕ) : ℕ → Option Addr → Run (Option Addr)
  | 0, a => return a
  | 1, a => return a
  | pt + 2, a => do
    let node ← H.deref a
    walkDown H size (pt + 1) (if size.testBit (pt + 1) then node.right else node.left)

/-- The node the binary digits of `size` lead to, but for the last digit. -/
def findParent (H : Heap W E) (size : ℕ) : Run (Option Addr) := do
  let pt ← countBits size 31 0
  walkDown H size (pt - 1) H.heap

/-- `Heap_NodeSwap`: the links stay. -/
def nodeSwap (H : Heap W E) (a b : Addr) : Run (Heap W E) := do
  let x ← H.deref (some a)
  let y ← H.deref (some b)
  let H := H.set a { x with weight := y.weight, element := y.element }
  return H.set b { y with weight := x.weight, element := x.element }

end

variable {W E : Type} [LinearOrder W]

/-- The comparison of the loops for `dir`: whether `a` belongs above `b`. -/
def Above : Dir → W → W → Prop
  | .max, a, b => b < a
  | .min, a, b => a < b

instance (dir : Dir) (a b : W) : Decidable (Above dir a b) := by
  cases dir <;> unfold Above <;> infer_instance

/-- The loops at the end of `Heap_Insert`. -/
def siftUp (weight : W) : ℕ → Heap W E → Option Addr → Run (Heap W E)
  | 0, _, _ => throw .outOfFuel
  | _ + 1, H, none => return H
  | fuel + 1, H, some insNode => do
    let node ← H.deref (some insNode)
    match node.p with
    | none => return H
    | some p =>
      let parent ← H.deref (some p)
      if Above H.dir weight parent.weight then
        let H ← nodeSwap H insNode p
        siftUp weight fuel H (some p)
      else return H

/-- `Heap_Insert`. -/
def insert (H : Heap W E) (element : E) (weight : W) : Run (Heap W E) := do
  let size := H.size + 1
  let insNode ← findParent H size
  let new := H.fresh
  if size = 1 then
    let H := { H with heap := some new, size := size, fresh := new + 1 }
    siftUp weight size (H.set new ⟨weight, element, none, none, none⟩) (some new)
  else
    match insNode with
    | none => throw .fault
    | some p =>
      let parent ← H.deref (some p)
      let parent := if size.testBit 0 then { parent with right := some new }
        else { parent with left := some new }
      let H := { H with size := size, fresh := new + 1 }.set p parent
      siftUp weight size (H.set new ⟨weight, element, some p, none, none⟩) (some new)

/-- The choice between a child and the largest node so far, for `HEAP_MIN` the smallest. -/
def choose (dir : Dir) (H : Heap W E) (child : Option Addr) (largest : Addr) : Run Addr :=
  match child with
  | none => return largest
  | some c => do
    let x ← H.deref (some c)
    let y ← H.deref (some largest)
    return if Above dir x.weight y.weight then c else largest

/-- `HeapifyMax` and `HeapifyMin`, which differ in the comparison. -/
def heapify (dir : Dir) : ℕ → Heap W E → Addr → Run (Heap W E)
  | 0, _, _ => throw .outOfFuel
  | fuel + 1, H, current => do
    let node ← H.deref (some current)
    let largest ← choose dir H node.left current
    let largest ← choose dir H node.right largest
    if largest ≠ current then
      let H ← nodeSwap H current largest
      heapify dir fuel H largest
    else return H

/-- `HeapifyMax`. -/
def heapifyMax (H : Heap W E) (root : Addr) : Run (Heap W E) := heapify .max H.size H root

/-- `HeapifyMin`. -/
def heapifyMin (H : Heap W E) (root : Addr) : Run (Heap W E) := heapify .min H.size H root

/-- `Heap_ExtractTop`; `none` is `NULL`. -/
def extractTop (H : Heap W E) : Run (Option E × Heap W E) :=
  if H.size < 1 then return (none, H)
  else do
    let root ← H.deref H.heap
    let heapMax := root.element
    let rmNode ← findParent H H.size
    match H.heap, rmNode with
    | some top, some p =>
      if H.size = 1 then
        return (some heapMax, { H with heap := none, size := 0 }.free top)
      else
        let parent ← H.deref (some p)
        match if H.size.testBit 0 then parent.right else parent.left with
        | none => throw .fault
        | some rm =>
          let last ← H.deref (some rm)
          let lastParent ← H.deref last.p
          let lastParent := if H.size.testBit 0 then { lastParent with right := none }
            else { lastParent with left := none }
          let H := H.set (last.p.getD p) lastParent
          let root ← H.deref H.heap
          let H := H.set top { root with weight := last.weight, element := last.element }
          let H := { H with size := H.size - 1 }.free rm
          let H ← match H.dir with
            | .max => heapifyMax H top
            | .min => heapifyMin H top
          return (some heapMax, H)
    | _, _ => throw .fault

/-! ### Calls -/

/-- The calls that change a heap. -/
inductive Op (W E : Type) where
  | insert (element : E) (weight : W)
  | extractTop

/-- One call; an insertion returns nothing. -/
def runOp (H : Heap W E) : Op W E → Run (Option E × Heap W E)
  | .insert element weight => do return (none, ← insert H element weight)
  | .extractTop => extractTop H

/-- A sequence of calls, with what they return. -/
def runOps : Heap W E → List (Op W E) → Run (List (Option E) × Heap W E)
  | H, [] => return ([], H)
  | H, op :: ops => do
    let (ret, H) ← runOp H op
    let (rets, H) ← runOps H ops
    return (ret :: rets, H)

end OpenImpact.Heaps
