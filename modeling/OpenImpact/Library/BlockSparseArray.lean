import OpenImpact.Foundation.DoublyLinked
import OpenImpact.Library.CExpr

/-!
# Block sparse arrays

`block_sparse_array.c`: an array as a doubly linked list of blocks of entries, and a cursor that any
access may move. Addresses come from `malloc`, which is taken to succeed, and the sums of `int`s that
locate the end of a block or of a request are checked; differences of indices are not, since no index
is negative.

The option that makes `FreeBlockSparseArray` warn is cleared before each of the calls here, which
free one block each.
-/

namespace OpenImpact.BlockSparseArray

open Foundation

variable {V : Type}

/-- `BLOCK_SIZE`. -/
def blockSize : ℤ := 32

/-- `BSA_BLOCK_INDEX`. -/
def blockIndex (i : ℤ) : ℤ := i - i.tmod blockSize

/-- `BSA_BLOCK_LENGTH`. -/
def blockLength (i l : ℤ) : Run ℤ := do
  let e ← int32 (i + l)
  let n ← int32 (blockSize - (e - 1).tmod blockSize + l)
  int32 (n - 1 + i.tmod blockSize)

/-- The fields of a block that are not links. Entries are pointers, with `NULL` as `none`; `data` is
empty where it is `NULL` itself. -/
structure Block (V : Type) where
  firstIndex : ℤ
  length : ℤ
  options : BitVec 64
  data : List (Option V)
  deriving DecidableEq

/-- `first_index + length`. -/
def Block.endIndex (b : Block V) : Run ℤ := int32 (b.firstIndex + b.length)

/-- `BSA_WARN_ON_OVERWRITE`. -/
def warnOnOverwrite : BitVec 64 := 1

/-- An array: the blocks, the shared cursor `*array`, and the indices that `I_warn` has reported as
overwritten. -/
structure Sparse (V : Type) where
  heap : Heap (Block V)
  array : Addr
  warned : List ℤ

/-- What `NewBlockSparseArray` puts in a block. -/
def newBlock : Block V := ⟨0, 0, 0, []⟩

/-- `NewBlockSparseArray`, as the start of an array. -/
def newBlockSparseArray : Sparse V where
  heap := Heap.empty.alloc ⟨none, none, newBlock⟩
  array := (Heap.empty : Heap (Block V)).fresh
  warned := []

/-- Loops over the blocks get this much fuel. -/
def fuel (h : Heap (Block V)) : ℕ := h.fresh + 1

/-- `AllocateData`. -/
def allocateData (b : Block V) (index length : ℤ) : Run (Block V) := do
  let n ← blockLength index length
  return { b with
    firstIndex := blockIndex index
    length := n
    data := List.replicate n.toNat none }

/-! ### Searching -/

/-- The loop towards the end of the list. -/
def forward (h : Heap (Block V)) (index : ℤ) : ℕ → Addr → Run Addr
  | 0, _ => .error .outOfFuel
  | fuel + 1, temp => do
    let b ← deref (h.node temp)
    let e ← b.val.endIndex
    match b.next with
    | some next => if e ≤ index then forward h index fuel next else return temp
    | none => return temp

/-- The loop towards the start of the list. -/
def backward (h : Heap (Block V)) (index : ℤ) : ℕ → Addr → Run Addr
  | 0, _ => .error .outOfFuel
  | fuel + 1, temp => do
    let b ← deref (h.node temp)
    match b.prev with
    | some prev => do
      let p ← deref (h.node prev)
      let e ← p.val.endIndex
      if index < e then backward h index fuel prev else return temp
    | none => return temp

/-- The search of `GetOrAddBlock`, from a block that ends at `e`. -/
def seek (h : Heap (Block V)) (index e : ℤ) (temp : Addr) : Run Addr :=
  if e ≤ index then forward h index (fuel h) temp else backward h index (fuel h) temp

/-- `prev == NULL || prev->first_index + prev->length <= index`. -/
def prevEndsBy (h : Heap (Block V)) (index : ℤ) : Option Addr → Run Bool
  | none => return true
  | some prev => do
    let p ← deref (h.node prev)
    let e ← p.val.endIndex
    return decide (e ≤ index)

/-- `GetBlock`: whether the block was found, and then with the cursor on it. -/
def getBlock (G : Sparse V) (index : ℤ) : Run (Bool × Sparse V) := do
  let b ← deref (G.heap.node G.array)
  let e ← b.val.endIndex
  if index < b.val.firstIndex ∨ e ≤ index then
    if e ≤ index then do
      let temp ← forward G.heap index (fuel G.heap) G.array
      let t ← deref (G.heap.node temp)
      let e ← t.val.endIndex
      if index < t.val.firstIndex ∨ e ≤ index ∧ t.next = none then return (false, G)
      else return (true, { G with array := temp })
    else do
      let temp ← backward G.heap index (fuel G.heap) G.array
      let t ← deref (G.heap.node temp)
      let low ← prevEndsBy G.heap index t.prev
      let e ← t.val.endIndex
      if index < t.val.firstIndex ∧ low = true ∨ e ≤ index then return (false, G)
      else return (true, { G with array := temp })
  else return (true, G)

/-! ### Merging -/

/-- The loop to the first block after the merge set: the index and length of the block before it, and
its address. -/
def mergeEnd (h : Heap (Block V)) (limit : ℤ) : ℕ → ℤ → ℤ → Option Addr → Run (ℤ × ℤ × Option Addr)
  | 0, _, _, _ => .error .outOfFuel
  | _ + 1, lastIndex, lastLength, none => return (lastIndex, lastLength, none)
  | fuel + 1, lastIndex, lastLength, some last => do
    let b ← deref (h.node last)
    if b.val.firstIndex < limit then
      mergeEnd h limit fuel b.val.firstIndex b.val.length b.next
    else return (lastIndex, lastLength, some last)

/-- `memcpy (&(dst[off]), src, len * sizeof (void *))`. -/
def memcpy {α : Type} (dst : List α) (off : ℤ) (src : List α) (len : ℤ) : Run (List α) :=
  if 0 ≤ off ∧ 0 ≤ len ∧ len ≤ src.length ∧ off + len ≤ dst.length then
    return dst.take off.toNat ++ src.take len.toNat ++ dst.drop (off + len).toNat
  else .error .fault

/-- The loop that copies the blocks of the merge set to `new`, and frees them. -/
def copyBlocks (new : Addr) (last : Option Addr) :
    ℕ → Option Addr → Heap (Block V) → Run (Heap (Block V))
  | 0, _, _ => .error .outOfFuel
  | fuel + 1, temp, h =>
    if temp = last then return h
    else do
      let a ← deref temp
      let t ← deref (h.node a)
      let n ← deref (h.node new)
      let data ← memcpy n.val.data (t.val.firstIndex - n.val.firstIndex) t.val.data t.val.length
      let h := h.set new { n with val := { n.val with data := data } }
      copyBlocks new last fuel t.next (h.free a)

/-- `MergeBlocks`, from where `first` is known. -/
def mergeFrom (G : Sparse V) (index length : ℤ) : Run (Sparse V) := do
  let first ← deref (G.heap.node G.array)
  let limit ← int32 (index + length)
  let (lastIndex, lastLength, last) ← mergeEnd G.heap limit (fuel G.heap) first.val.firstIndex
    first.val.length first.next
  let newIndex := if first.val.firstIndex ≤ index then first.val.firstIndex else index
  let newLength ← int32 (if first.val.firstIndex ≤ index then length + (index - newIndex) else length)
  let lastEnd ← int32 (lastIndex + lastLength)
  let newLength ← int32 (if limit < lastEnd then newLength + (lastEnd - limit) else newLength)
  let b ← allocateData { newBlock with options := first.val.options } newIndex newLength
  let new := G.heap.fresh
  let h ← copyBlocks new last (fuel G.heap) (some G.array) (G.heap.alloc ⟨first.prev, last, b⟩)
  let n ← deref (h.node new)
  let h ← deref (h.setPrev n.next new)
  let h ← deref (h.setNext n.prev new)
  return { G with heap := h, array := new }

/-- `MergeBlocks`. -/
def mergeBlocks (G : Sparse V) (index length : ℤ) : Run (Sparse V) := do
  let (found, G) ← getBlock G index
  if found = true then mergeFrom G index length
  else do
    let i ← int32 (index + blockSize)
    let (found, G) ← getBlock G i
    if found = true then mergeFrom G index length else return G

/-! ### Adding -/

/-- Joining the request with a previous block that ends where it starts. -/
def joinPrev (h : Heap (Block V)) (prev : Option Addr) (index length : ℤ) (mergeBlocks : Bool) :
    Run (ℤ × ℤ × Bool) :=
  match prev with
  | none => return (index, length, mergeBlocks)
  | some prev => do
    let b ← deref (h.node prev)
    let e ← b.val.endIndex
    if e = blockIndex index then do
      let n ← blockLength index length
      let l ← int32 (b.val.length + n)
      return (b.val.firstIndex, l, true)
    else return (index, length, mergeBlocks)

/-- Joining the request with a next block that starts where it ends. -/
def joinNext (h : Heap (Block V)) (next : Option Addr) (index length : ℤ) (mergeBlocks : Bool) :
    Run (ℤ × ℤ × Bool) :=
  match next with
  | none => return (index, length, mergeBlocks)
  | some next => do
    let b ← deref (h.node next)
    let n ← blockLength index length
    let e ← int32 (blockIndex index + n)
    if b.val.firstIndex = e then do
      let l ← int32 (n + b.val.length)
      return (blockIndex index, l, true)
    else return (index, length, mergeBlocks)

/-- `GetOrAddBlock`, from where the neighbours of the block to add are known. -/
def addBlock (G : Sparse V) (index length : ℤ) (temp : Addr) (prev next : Option Addr)
    (initializeStructOnly merge : Bool) : Run (Sparse V) := do
  let (index, length, merge) ← joinPrev G.heap prev index length merge
  let (index, length, merge) ← joinNext G.heap next index length merge
  if merge = true then mergeBlocks G index length
  else if initializeStructOnly = true then do
    let t ← deref (G.heap.node temp)
    let b ← allocateData t.val index length
    return { G with heap := G.heap.set temp { t with val := b }, array := temp }
  else do
    let c ← deref (G.heap.node G.array)
    let b ← allocateData { newBlock with options := c.val.options } index length
    let new := G.heap.fresh
    let h ← deref ((G.heap.alloc ⟨prev, next, b⟩).setNext prev new)
    let h ← deref (h.setPrev next new)
    return { G with heap := h, array := new }

/-- `GetOrAddBlock`. -/
def getOrAddBlock (G : Sparse V) (index length : ℤ) : Run (Sparse V) := do
  let b ← deref (G.heap.node G.array)
  let e ← b.val.endIndex
  let limit ← int32 (index + length)
  if b.val.firstIndex ≤ index ∧ limit ≤ e then return G
  else do
    let temp ← seek G.heap index e G.array
    let t ← deref (G.heap.node temp)
    let e ← t.val.endIndex
    if t.val.firstIndex ≤ index ∧ index < e then
      if limit ≤ e then return { G with array := temp }
      else mergeBlocks G index length
    else if index < t.val.firstIndex then
      addBlock G index length temp t.prev (some temp) false (decide (t.val.firstIndex < limit))
    else if e ≤ index ∧ t.next = none then
      if t.val.length = 0 then addBlock G index length temp none none true false
      else addBlock G index length temp (some temp) t.next false false
    else .error (.punt "block_sparse_array.c:GetOrAddBlock:%d Cannot find block for index %d")

/-! ### Access -/

/-- `BlockSparseArraySet`. -/
def set (G : Sparse V) (index : ℤ) (data : Option V) : Run (Sparse V) := do
  let G ← getOrAddBlock G index 1
  let b ← deref (G.heap.node G.array)
  let k := index - b.val.firstIndex
  if 0 ≤ k ∧ k < b.val.data.length then
    return { G with
      heap := G.heap.set G.array { b with val := { b.val with data := b.val.data.set k.toNat data } }
      warned := if b.val.options &&& warnOnOverwrite ≠ 0 ∧ (b.val.data[k.toNat]?.join).isSome
        then index :: G.warned else G.warned }
  else .error .fault

/-- `BlockSparseArrayClear`. -/
def clear (G : Sparse V) (index : ℤ) : Run (Sparse V) := do
  let G ← getOrAddBlock G index 1
  let b ← deref (G.heap.node G.array)
  let k := index - b.val.firstIndex
  if 0 ≤ k ∧ k < b.val.data.length then
    return { G with
      heap := G.heap.set G.array { b with val := { b.val with data := b.val.data.set k.toNat none } } }
  else .error .fault

/-- `BlockSparseArrayGet`. -/
def get (G : Sparse V) (index : ℤ) : Run (Option V × Sparse V) := do
  let (found, G) ← getBlock G index
  if found = true then do
    let b ← deref (G.heap.node G.array)
    let k := index - b.val.firstIndex
    if 0 ≤ k ∧ k < b.val.data.length then return (b.val.data[k.toNat]?.join, G)
    else .error .fault
  else return (none, G)

/-- `BlockSparseArrayPrepare`. -/
def prepare (G : Sparse V) (index length : ℤ) : Run (Sparse V) := getOrAddBlock G index length

/-! ### Runs -/

/-- The calls. -/
inductive Op (V : Type) where
  | set (index : ℤ) (data : Option V)
  | clear (index : ℤ)
  | get (index : ℤ)
  | prepare (index length : ℤ)

/-- One call, with what it returns. -/
def exec (G : Sparse V) : Op V → Run (Option V × Sparse V)
  | .set index data => (none, ·) <$> set G index data
  | .clear index => (none, ·) <$> clear G index
  | .get index => get G index
  | .prepare index length => (none, ·) <$> prepare G index length

/-- Calls one after the other, with what each of them returns. -/
def execAll : List (Op V) → Sparse V → Run (List (Option V) × Sparse V)
  | [], G => return ([], G)
  | op :: ops, G => do
    let (v, G) ← exec G op
    let (vs, G) ← execAll ops G
    return (v :: vs, G)

end OpenImpact.BlockSparseArray
