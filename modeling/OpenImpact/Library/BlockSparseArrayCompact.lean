import OpenImpact.Library.BlockSparseArrayMerge

/-!
# Compacting one block

`BlockSparseArrayCompact` walks over the blocks from the cursor on. A block without values is freed, one
with a value in each aligned run of `BLOCK_SIZE` entries stays, and of any other the runs with values are
copied to new blocks (`compactBlock_spec`). What stays or is copied goes to the end of the list that
`tail` is on.
-/

namespace OpenImpact.BlockSparseArray

open Foundation Heap

variable {V : Type}

/-! ### The source's functions -/

/-- `ExtractBlock`. -/
def extractBlock (h : Heap (Block V)) (block : Addr) (index length : ℤ) : Run (Addr × Heap (Block V)) := do
  let b ← deref (h.node block)
  if index = b.val.firstIndex ∧ length = b.val.length then return (block, h)
  else do
    let new ← allocateData { newBlock with options := b.val.options } index length
    if 0 ≤ index - b.val.firstIndex then do
      let data ← memcpy new.data (index - new.firstIndex)
        (b.val.data.drop (index - b.val.firstIndex).toNat) length
      return (h.fresh, h.alloc ⟨none, none, { new with data := data }⟩)
    else .error .fault

/-- The variables of `BlockSparseArrayCompact`. -/
structure Compacting (V : Type) where
  heap : Heap (Block V)
  array : Addr
  tail : Option Addr
  index : ℤ
  length : ℤ
  indexFound : Bool
  freeNode : Bool

/-- The block `new` goes after `tail`, or is the first one. -/
def append (st : Compacting V) (new : Addr) : Run (Compacting V) :=
  match st.tail with
  | some tail => do
    let t ← deref (st.heap.node tail)
    let h := st.heap.set tail { t with next := some new }
    let n ← deref (h.node new)
    return { st with heap := h.set new { n with prev := some tail }, tail := some new }
  | none => return { st with array := new, tail := some new }

/-- The run of entries found so far leaves the block `temp`. -/
def emit (temp : Addr) (st : Compacting V) : Run (Compacting V) := do
  let (new, h) ← extractBlock st.heap temp st.index st.length
  let st ← append { st with heap := h } new
  return if new ≠ temp then { st with freeNode := true } else st

/-- The body of the loop over the entries of `temp`. -/
def compactEntry (temp : Addr) (st : Compacting V) (i : ℕ) : Run (Compacting V) := do
  let t ← deref (st.heap.node temp)
  match t.val.data[i]? with
  | none => .error .fault
  | some none => return st
  | some (some _) => do
    let j ← int32 (t.val.firstIndex + i)
    if st.indexFound = false then
      return { st with index := blockIndex j, length := blockSize, indexFound := true }
    else do
      let e ← int32 (st.index + st.length)
      if e ≤ j then do
        let e' ← int32 (e + blockSize)
        if j < e' then do
          -- the value is in the next run of entries
          let length ← int32 (st.length + blockSize)
          return { st with length := length }
        else do
          let st ← emit temp st
          return { st with index := blockIndex j, length := blockSize, indexFound := true }
      else return st

/-- The body of the loop over the blocks. -/
def compactBlock (temp : Addr) (st : Compacting V) : Run (Compacting V) := do
  let t ← deref (st.heap.node temp)
  let st ← (List.range t.val.length.toNat).foldlM (compactEntry temp)
    { st with indexFound := false, freeNode := false }
  let st ← if st.indexFound = true then emit temp st else pure st
  return if st.freeNode = true ∨ st.indexFound = false then { st with heap := st.heap.free temp } else st

/-- The loop over the blocks. -/
def compactBlocks : ℕ → Option Addr → Compacting V → Run (Compacting V)
  | 0, _, _ => .error .outOfFuel
  | _ + 1, none, st => return st
  | fuel + 1, some temp, st => do
    let t ← deref (st.heap.node temp)
    let st ← compactBlock temp st
    compactBlocks fuel t.next st

/-- `BlockSparseArrayCompact`. -/
def compact (G : Sparse V) : Run (Sparse V) := do
  let st ← compactBlocks (fuel G.heap) (some G.array) ⟨G.heap, G.array, none, 0, 0, false, false⟩
  return { G with heap := st.heap, array := st.array }

/-! ### Runs of entries -/

/-- Each aligned run of `BLOCK_SIZE` entries has a value. -/
def Block.Full (b : Block V) : Prop :=
  ∀ k, blockSize ∣ k → b.firstIndex ≤ k → k + blockSize ≤ b.endAt → ∃ i, k ≤ i ∧ i < k + blockSize ∧
    b.read i ≠ none

variable {h : Heap (Block V)} {b : Block V} {index length : ℤ}

theorem memcpy_take {α : Type} (dst src : List α) (off len : ℤ) (hlen : 0 ≤ len ∧ len ≤ src.length) :
    memcpy dst off (src.take len.toNat) len = memcpy dst off src len := by
  have htake : (src.take len.toNat).length = len.toNat := List.length_take_of_le (by omega)
  simp only [memcpy, htake, List.take_take, min_self]
  split_ifs <;> first | rfl | omega

/-- **A run of entries as a block of its own**, unless it is the whole block. -/
theorem extractBlock_spec (hb : b.WF) {a : Addr} {p n : Option Addr} (hnode : h.node a = some ⟨p, n, b⟩)
    (hindex : blockSize ∣ index) (hlength : blockSize ∣ length) (hpos : 0 < length)
    (hfirst : b.firstIndex ≤ index) (hend : index + length ≤ b.endAt) :
    (index = b.firstIndex ∧ length = b.length ∧ extractBlock h a index length = .ok (a, h)) ∨
      ¬(index = b.firstIndex ∧ length = b.length) ∧
        ∃ b', extractBlock h a index length = .ok (h.fresh, h.alloc ⟨none, none, b'⟩) ∧ b'.WF ∧
          b'.firstIndex = index ∧ b'.endAt = index + length ∧
          ∀ i, b'.read i = if index ≤ i ∧ i < index + length then b.read i else none := by
  have hbb := hb.bounds
  have hdata := hb.data
  rw [Block.endAt] at hend hbb
  rw [extractBlock, hnode, deref_some, Run.ok_bind]
  simp only
  split_ifs with hwhole hge
  · exact .inl ⟨hwhole.1, hwhole.2, rfl⟩
  swap
  · omega
  refine .inr ⟨hwhole, ?_⟩
  rw [blockSize] at hindex hlength
  obtain ⟨new, halloc, hnew, hnewfirst, hle, hlt, hnone⟩ := allocateData_spec
    ({ newBlock with options := b.options } : Block V) (show 0 ≤ index by omega)
    (show 1 ≤ length by omega) (show index + length ≤ 2147483616 by omega)
  have hnewb := hnew.bounds
  have hidx := blockIndex_eq (show 0 ≤ index by omega)
  have hnewindex : new.firstIndex = index := by omega
  have hnewend : new.endAt = index + length := by omega
  -- the run as a block
  obtain ⟨k, hk⟩ : ∃ k : ℕ, index - b.firstIndex = k := ⟨_, (Int.toNat_of_nonneg (by omega)).symm⟩
  have hdrop : length ≤ (b.data.drop k).length := by
    rw [List.length_drop]
    omega
  let t : Block V := ⟨index, length, b.options, (b.data.drop k).take length.toNat⟩
  have htlen : (t.data.length : ℤ) = length := by
    have : ((b.data.drop k).take length.toNat).length = length.toNat :=
      List.length_take_of_le (by omega)
    show (((b.data.drop k).take length.toNat).length : ℤ) = length
    omega
  have ht : t.WF := ⟨by show 0 ≤ index; omega, hindex, hlength, hpos,
    by show index + length ≤ 2147483616; omega, htlen⟩
  obtain ⟨d, hcopy, hd, hread⟩ := hnew.memcpy ht (show new.firstIndex ≤ index by omega)
    (show index + length ≤ new.endAt by omega)
  have hcopy' : memcpy new.data (index - new.firstIndex)
      (b.data.drop (index - b.firstIndex).toNat) length = .ok d := by
    rw [hk, Int.toNat_natCast, ← memcpy_take _ _ _ _ ⟨hpos.le, hdrop⟩]
    exact hcopy
  refine ⟨{ new with data := d }, ?_, hnew.withData hd, hnewindex, hnewend, fun i ↦ ?_⟩
  · rw [halloc, Run.ok_bind, hcopy', Run.ok_bind, Run.pure_eq_ok]
  · rw [hread i, hnone]
    rcases Classical.em (index ≤ i ∧ i < index + length) with hi | hi
    · have hplace : (i - b.firstIndex).toNat = k + (i - index).toNat := by omega
      have hlt : (i - index).toNat < length.toNat := by omega
      rw [if_pos hi, if_pos (show t.firstIndex ≤ i ∧ i < t.endAt from hi), Block.read, Block.read,
        if_pos (hfirst.trans hi.1), if_pos (show t.firstIndex ≤ i from hi.1), hplace, ← List.getElem?_drop]
      exact congrArg Option.join (List.getElem?_take_of_lt hlt)
    · rw [if_neg hi, if_neg (show ¬(t.firstIndex ≤ i ∧ i < t.endAt) from hi)]

/-! ### The list that is built -/

/-- `st` has built the list `o`, whose first block is linked back to `p` and whose last one on to `n`. The
cursor is on the first block, or where it was. -/
structure Built (st : Compacting V) (array : Addr) (o : List (Addr × Block V)) (p n : Option Addr) :
    Prop where
  chain : st.heap.Chain p o n
  nodup : (o.map Prod.fst).Nodup
  fresh : ∀ x ∈ o, x.1 < st.heap.fresh
  tail : st.tail = lastAddr none o
  array : st.array = (headAddr none o).getD array

variable {st : Compacting V} {array new : Addr} {o : List (Addr × Block V)} {p n pn nn : Option Addr}

/-- **Appending a block.** A first block keeps its link back, and the last one its link on. -/
theorem Built.append (hB : Built st array o p n) (hnode : st.heap.node new = some ⟨pn, nn, b⟩)
    (hnew : new ∉ o.map Prod.fst) (hfresh : new < st.heap.fresh) :
    ∃ h, append st new = .ok { st with
        heap := h, array := (headAddr none (o ++ [(new, b)])).getD array, tail := some new } ∧
      Built { st with
        heap := h, array := (headAddr none (o ++ [(new, b)])).getD array, tail := some new } array
        (o ++ [(new, b)]) (if o.isEmpty then pn else p) nn ∧ h.fresh = st.heap.fresh ∧
      ∀ a, a ∉ o.map Prod.fst → a ≠ new → h.node a = st.heap.node a := by
  have hnodup : ((o ++ [(new, b)]).map Prod.fst).Nodup := by
    rw [List.map_append, List.map_singleton, List.nodup_append]
    refine ⟨hB.nodup, List.nodup_singleton _, fun a ha a' ha' heq ↦ hnew ?_⟩
    have ha'new : a' = new := List.mem_singleton.1 ha'
    rwa [← ha'new, ← heq]
  have hbelow : ∀ x ∈ o ++ [(new, b)], x.1 < st.heap.fresh := fun x hx ↦ by
    rcases List.mem_append.1 hx with hx | hx
    · exact hB.fresh x hx
    · rw [List.mem_singleton.1 hx]
      exact hfresh
  rcases o.eq_nil_or_concat with rfl | ⟨o, w, rfl⟩
  · refine ⟨st.heap, ?_, ⟨⟨hnode, trivial⟩, hnodup, hbelow, rfl, rfl⟩, rfl, fun _ _ _ ↦ rfl⟩
    rw [BlockSparseArray.append, hB.tail]
    rfl
  · rw [List.concat_eq_append] at hB hnew hnodup hbelow ⊢
    obtain ⟨hchain, hw, -⟩ := chain_append.1 hB.chain
    have hwne : w.1 ≠ new := fun heq ↦ hnew (by simp [heq])
    let h := (st.heap.set w.1 ⟨lastAddr p o, some new, w.2⟩).set new ⟨some w.1, nn, b⟩
    have hframe : ∀ a, a ≠ w.1 → a ≠ new → h.node a = st.heap.node a := fun a haw hanew ↦
      (set_node_of_ne _ hanew _).trans (set_node_of_ne _ haw _)
    have hold : ∀ x ∈ o, x.1 ≠ w.1 ∧ x.1 ≠ new := fun x hx ↦ by
      have hxo := List.mem_map_of_mem (f := Prod.fst) hx
      refine ⟨fun heq ↦ ?_, fun heq ↦ hnew (by rw [← heq]; simp [hxo])⟩
      have := hB.nodup
      rw [List.map_append, List.nodup_append] at this
      exact this.2.2 x.1 hxo w.1 (by simp) heq
    have hp : (if (o ++ [w]).isEmpty = true then pn else p) = p := if_neg (by simp)
    have hhead : st.array = (headAddr none (o ++ [w] ++ [(new, b)])).getD array := by
      rw [hB.array]
      cases o <;> rfl
    refine ⟨h, ?_, ⟨?_, hnodup, hbelow, by simp, rfl⟩, rfl,
      fun a ha hanew ↦ hframe a (fun heq ↦ ha (by simp [heq])) hanew⟩
    · rw [BlockSparseArray.append, hB.tail]
      simp only [lastAddr_append, lastAddr_cons, lastAddr_nil]
      rw [hw, deref_some, Run.ok_bind, set_node_of_ne _ hwne.symm, hnode, deref_some, Run.ok_bind,
        ← hhead]
      rfl
    · rw [hp]
      refine chain_append.2 ⟨chain_append.2 ⟨?_, ?_, trivial⟩, ?_, trivial⟩
      · exact hchain.congr fun x hx ↦ hframe x.1 (hold x hx).1 (hold x hx).2
      · exact (set_node_of_ne _ hwne _).trans (set_node_self ..)
      · simp only [lastAddr_append, lastAddr_cons, lastAddr_nil]
        exact set_node_self ..

/-! ### The entries of a block -/

/-- The run of entries found so far, after `i` entries of the block `b` of which the blocks `e` have left
it: each of its parts has a value, it reaches to the last value, and the values before it have left. -/
structure RunAt (b : Block V) (i : ℕ) (e : List (Addr × Block V)) (index length : ℤ) : Prop where
  index_dvd : blockSize ∣ index
  length_dvd : blockSize ∣ length
  pos : 0 < length
  first_le : b.firstIndex ≤ index
  lt : index + length < b.firstIndex + i + blockSize
  full : ∀ k, blockSize ∣ k → index ≤ k → k + blockSize ≤ index + length →
    ∃ j, k ≤ j ∧ j < k + blockSize ∧ b.read j ≠ none
  after : ∀ j, index + length ≤ j → j < b.firstIndex + i → b.read j = none
  before : ∀ j, j < index → valueAt e j = b.read j
  below : ∀ x ∈ e, x.2.endAt + blockSize ≤ index

theorem blockIndex_bounds {j : ℤ} (hj : 0 ≤ j) :
    32 ∣ blockIndex j ∧ blockIndex j ≤ j ∧ j < blockIndex j + 32 := by
  have := blockIndex_eq hj
  omega

section Entry

variable {i : ℕ} {e : List (Addr × Block V)}

/-- The run from the entry `i` on, when what is before it has left the block or has no value. -/
theorem runAt_start (hb : b.WF) (hread : b.read (b.firstIndex + i) ≠ none)
    (hbefore : ∀ j, j < blockIndex (b.firstIndex + i) → valueAt e j = b.read j)
    (hbelow : ∀ x ∈ e, x.2.endAt + blockSize ≤ blockIndex (b.firstIndex + i)) :
    RunAt b (i + 1) e (blockIndex (b.firstIndex + i)) blockSize := by
  have hbb := hb.bounds
  have hidx := blockIndex_bounds (show 0 ≤ b.firstIndex + i by omega)
  simp only [blockSize] at hbelow
  refine ⟨hidx.1, dvd_rfl, by decide, by omega, ?_, fun k hk hge hle ↦ ⟨_, ?_, ?_, hread⟩,
    fun j hj hlt ↦ ?_, hbefore, hbelow⟩
  · push_cast
    simp only [blockSize]
    omega
  all_goals simp only [blockSize] at *
  · omega
  · omega
  · push_cast at hlt
    omega

variable (hr : RunAt b i e index length)

include hr in
theorem RunAt.skip (h : b.read (b.firstIndex + i) = none ∨ b.firstIndex + i < index + length) :
    RunAt b (i + 1) e index length := by
  obtain ⟨hi, hl, hpos, hfirst, hlt, hfull, hafter, hbefore, hbelow⟩ := hr
  refine ⟨hi, hl, hpos, hfirst, ?_, hfull, fun j hj hjlt ↦ ?_, hbefore, hbelow⟩
  · push_cast
    omega
  · push_cast at hjlt
    rcases lt_or_ge j (b.firstIndex + i) with hji | hji
    · exact hafter j hj hji
    · obtain rfl : j = b.firstIndex + i := by omega
      exact h.resolve_right hj.not_gt

include hr in
/-- A value in the part after the run. -/
theorem RunAt.extend (hread : b.read (b.firstIndex + i) ≠ none)
    (hge : index + length ≤ b.firstIndex + i) (hlt : b.firstIndex + i < index + length + blockSize) :
    RunAt b (i + 1) e index (length + blockSize) := by
  obtain ⟨hi, hl, hpos, hfirst, -, hfull, hafter, hbefore, hbelow⟩ := hr
  simp only [blockSize] at *
  refine ⟨hi, by rw [blockSize]; omega, by omega, hfirst, by push_cast; simp only [blockSize]; omega,
    fun k hk hkge hkle ↦ ?_, fun j hj hjlt ↦ by push_cast at hjlt; omega, hbefore, hbelow⟩
  simp only [blockSize] at *
  rcases le_or_gt (k + 32) (index + length) with hin | hout
  · exact hfull k hk hkge hin
  · exact ⟨_, by omega, by omega, hread⟩

include hr in
theorem RunAt.end_le (hb : b.WF) (hi : i ≤ b.length) : index + length ≤ b.endAt := by
  obtain ⟨hidvd, hldvd, -, -, hlt, -⟩ := hr
  have hbb := hb.bounds
  rw [blockSize] at hidvd hldvd hlt
  rw [Block.endAt] at hbb ⊢
  omega

include hr in
/-- A run that is not the whole block leaves a part without values, before it or after it. -/
theorem RunAt.not_full (hb : b.WF) (hi : b.length = i) (hwhole : ¬(index = b.firstIndex ∧ length = b.length))
    (hwf : ∀ x ∈ e, x.2.WF) : ¬b.Full := by
  intro hfull
  have hbb := hb.bounds
  have hend := hr.end_le hb hi.ge
  obtain ⟨hidvd, hldvd, hpos, hfirst, hlt, -, hafter, hbefore, hbelow⟩ := hr
  simp only [blockSize, Block.Full] at *
  rcases eq_or_ne index b.firstIndex with rfl | hne
  · have hlen : length ≠ b.length := fun heq ↦ hwhole ⟨rfl, heq⟩
    rw [Block.endAt] at hend hbb
    obtain ⟨j, hj, hjlt, hread⟩ := hfull (b.firstIndex + length) (by omega) (by omega)
      (by rw [Block.endAt]; omega)
    exact hread (hafter j hj (by omega))
  · obtain ⟨j, hj, hjlt, hread⟩ := hfull (index - 32) (by omega) (by omega) (by omega)
    refine hread ?_
    rw [← hbefore j (by omega)]
    exact valueAt_eq_none hwf fun x hx hcon ↦ by
      have := hbelow x hx
      have := hcon.2
      omega

include hr in
/-- The values before the run's end, and none further on, once the run has left. -/
theorem RunAt.valueAt_emit (hwf : ∀ x ∈ e, x.2.WF) {b' : Block V} (a' : Addr)
    (hread : ∀ j, b'.read j = if index ≤ j ∧ j < index + length then b.read j else none) {j : ℤ}
    (hj : j < b.firstIndex + i ∨ b.read j = none) : valueAt (e ++ [(a', b')]) j = b.read j := by
  have hpos := hr.pos
  rw [valueAt_append, valueAt_cons, valueAt_nil, Option.or_none, hread]
  rcases lt_or_ge j index with hlt | hge
  · rw [if_neg (by omega), Option.or_none, hr.before j hlt]
  · have hnone : valueAt e j = none := valueAt_eq_none hwf fun x hx hcon ↦ by
      have hbelow := hr.below x hx
      have := hcon.2
      rw [blockSize] at hbelow
      omega
    rw [hnone, Option.none_or]
    split_ifs with hin
    · rfl
    · obtain hj | hj := hj
      · exact (hr.after j (by omega) hj).symm
      · exact hj.symm

include hr in
/-- The run as a block has a value in each part. -/
theorem RunAt.full_emit {b' : Block V} (hfirst : b'.firstIndex = index) (hend : b'.endAt = index + length)
    (hread : ∀ j, b'.read j = if index ≤ j ∧ j < index + length then b.read j else none) : b'.Full := by
  intro k hk hge hle
  rw [hfirst] at hge
  rw [hend] at hle
  obtain ⟨j, hj, hlt, hne⟩ := hr.full k hk hge hle
  exact ⟨j, hj, hlt, by rwa [hread, if_pos ⟨by omega, by omega⟩]⟩

end Entry

/-- The link back of the list, after the blocks `e` have been put after `o`. -/
def headLink (p : Option Addr) (o e : List (Addr × Block V)) : Option Addr :=
  if e.isEmpty then p else if o.isEmpty then none else p

/-- From `st₀` on the blocks `e`, which are parts of the block `b`, have been put after `o`. -/
structure Left (st₀ : Compacting V) (array : Addr) (o : List (Addr × Block V)) (p n : Option Addr)
    (b : Block V) (e : List (Addr × Block V)) (st : Compacting V) : Prop where
  built : Built st array (o ++ e) (headLink p o e) n
  fresh_le : st₀.heap.fresh ≤ st.heap.fresh
  frame : ∀ x, x ∉ o.map Prod.fst → x < st₀.heap.fresh → st.heap.node x = st₀.heap.node x
  new : ∀ x ∈ e, st₀.heap.fresh ≤ x.1
  wf : ∀ x ∈ e, x.2.WF ∧ x.2.Full ∧ b.firstIndex ≤ x.2.firstIndex ∧ x.2.endAt ≤ b.endAt
  sorted : Sorted e

/-- After `i` entries of the block `b`, of which the blocks `e` have left it. -/
structure Scanned (st₀ : Compacting V) (array : Addr) (o : List (Addr × Block V)) (p n : Option Addr)
    (b : Block V) (i : ℕ) (e : List (Addr × Block V)) (st : Compacting V) : Prop
    extends Left st₀ array o p (if e.isEmpty then n else none) b e st where
  freeNode : st.freeNode = !e.isEmpty
  missing : st.indexFound = false → e = [] ∧ ∀ j, j < b.firstIndex + i → b.read j = none
  run : st.indexFound = true → RunAt b i e st.index st.length

section Block

variable {st₀ : Compacting V} {i : ℕ} {e : List (Addr × Block V)} {a : Addr} {pa na : Option Addr}

/-- **A run that is not the whole block leaves it** as a new block at the end of the list. -/
theorem Scanned.emit (hs : Scanned st₀ array o p n b i e st) (hb : b.WF)
    (hnode : st₀.heap.node a = some ⟨pa, na, b⟩) (ha : a ∉ o.map Prod.fst) (hafresh : a < st₀.heap.fresh)
    (hfound : st.indexFound = true) (hi : i ≤ b.length)
    (hwhole : ¬(st.index = b.firstIndex ∧ st.length = b.length)) :
    ∃ e' st', emit a st = .ok st' ∧ e'.isEmpty = false ∧ Left st₀ array o p none b e' st' ∧
      st'.freeNode = true ∧ st'.indexFound = true ∧ (∀ x ∈ e', x.2.endAt ≤ st.index + st.length) ∧
      ∀ j, (j < b.firstIndex + i ∨ b.read j = none) → valueAt e' j = b.read j := by
  have hr := hs.run hfound
  have hnode' := (hs.frame a ha hafresh).trans hnode
  have hne : a ∉ (o ++ e).map Prod.fst := by
    rw [List.map_append, List.mem_append, not_or]
    refine ⟨ha, fun hin ↦ ?_⟩
    obtain ⟨x, hx, rfl⟩ := List.mem_map.1 hin
    exact hafresh.not_ge (hs.new x hx)
  -- the run is copied to a new block, which is put at the end of the list
  obtain ⟨h₁, h₂, -⟩ | ⟨-, b', hrun, hb', hfirst, hend, hread⟩ := extractBlock_spec hb hnode' hr.index_dvd
    hr.length_dvd hr.pos hr.first_le (hr.end_le hb hi)
  · exact absurd ⟨h₁, h₂⟩ hwhole
  have hold : ∀ x ∈ o ++ e, x.1 ≠ st.heap.fresh := fun x hx ↦ (hs.built.fresh x hx).ne
  have hB : Built { st with heap := st.heap.alloc ⟨none, none, b'⟩ } array (o ++ e) (headLink p o e)
      (if e.isEmpty then n else none) :=
    ⟨hs.built.chain.congr fun x hx ↦ set_node_of_ne _ (hold x hx) _, hs.built.nodup,
      fun x hx ↦ (hs.built.fresh x hx).trans (Nat.lt_succ_self _), hs.built.tail, hs.built.array⟩
  obtain ⟨h, happend, hB', hfresh, hframe⟩ := hB.append
    (show (st.heap.alloc ⟨none, none, b'⟩).node st.heap.fresh = some ⟨none, none, b'⟩ from
      set_node_self ..) (fun hin ↦ by
      obtain ⟨x, hx, heq⟩ := List.mem_map.1 hin
      exact hold x hx heq) (Nat.lt_succ_self _)
  -- it is the head if the list was empty
  have hlink : (if (o ++ e).isEmpty = true then none else headLink p o e) =
      headLink p o (e ++ [(st.heap.fresh, b')]) := by
    cases o <;> cases e <;> rfl
  rw [hlink, List.append_assoc] at hB'
  have hbelow : ∀ x ∈ e, x.2.endAt ≤ st.index := fun x hx ↦ by
    have := hr.below x hx
    rw [blockSize] at this
    omega
  refine ⟨e ++ [(st.heap.fresh, b')], { st with
      heap := h
      array := (headAddr none (o ++ e ++ [(st.heap.fresh, b')])).getD array
      tail := some st.heap.fresh
      freeNode := true }, ?_, by simp,
    ⟨⟨hB'.chain, hB'.nodup, hB'.fresh, hB'.tail, by simp⟩, ?_, fun x hx hlt ↦ ?_, fun x hx ↦ ?_,
      fun x hx ↦ ?_, ?_⟩, rfl, hfound, fun x hx ↦ ?_, fun j hj ↦ ?_⟩
  · rw [BlockSparseArray.emit, hrun, Run.ok_bind]
    simp only
    rw [happend, Run.ok_bind, if_pos (show st.heap.fresh ≠ a from
      fun heq ↦ (hafresh.trans_le hs.fresh_le).ne heq.symm), Run.pure_eq_ok]
  · exact hs.fresh_le.trans (hfresh.symm ▸ Nat.le_succ _)
  · have hxe : x ∉ (o ++ e).map Prod.fst := fun hin ↦ by
      rw [List.map_append, List.mem_append] at hin
      obtain ⟨y, hy, rfl⟩ := List.mem_map.1 (hin.resolve_left hx)
      exact hlt.not_ge (hs.new y hy)
    have hxnew : x ≠ st.heap.fresh := (hlt.trans_le hs.fresh_le).ne
    exact ((hframe x hxe hxnew).trans (set_node_of_ne _ hxnew _)).trans (hs.frame x hx hlt)
  · rcases List.mem_append.1 hx with hx | hx
    · exact hs.new x hx
    · rw [List.mem_singleton.1 hx]
      exact hs.fresh_le
  · rcases List.mem_append.1 hx with hx | hx
    · exact hs.wf x hx
    · rw [List.mem_singleton.1 hx]
      exact ⟨hb', hr.full_emit hfirst hend hread, hr.first_le.trans hfirst.ge,
        hend.le.trans (hr.end_le hb hi)⟩
  · refine sorted_append.2 ⟨hs.sorted, List.pairwise_singleton .., fun x hx y hy ↦ ?_⟩
    rw [List.mem_singleton.1 hy]
    exact (hbelow x hx).trans hfirst.ge
  · rcases List.mem_append.1 hx with hx | hx
    · have := hbelow x hx
      have := hr.pos
      omega
    · rw [List.mem_singleton.1 hx]
      exact hend.le
  · exact hr.valueAt_emit (fun x hx ↦ (hs.wf x hx).1) _ hread hj

/-- **One entry.** -/
theorem Scanned.entry (hs : Scanned st₀ array o p n b i e st) (hb : b.WF)
    (hnode : st₀.heap.node a = some ⟨pa, na, b⟩) (ha : a ∉ o.map Prod.fst) (hafresh : a < st₀.heap.fresh)
    (hi : i < b.length) :
    ∃ e' st', compactEntry a st i = .ok st' ∧ Scanned st₀ array o p n b (i + 1) e' st' := by
  have hbb := hb.bounds
  have hdata := hb.data
  have hlt : i < b.data.length := by omega
  have hread : b.read (b.firstIndex + i) = b.data[i] := by
    rw [Block.read, if_pos (by omega), show (b.firstIndex + i - b.firstIndex).toNat = i by omega,
      List.getElem?_eq_getElem hlt, Option.join_some]
  rw [compactEntry, hs.frame a ha hafresh, hnode, deref_some, Run.ok_bind]
  simp only
  rw [List.getElem?_eq_getElem hlt]
  rcases hv : b.data[i] with - | v
  · -- no value
    rw [hv] at hread
    refine ⟨e, st, rfl, hs.toLeft, hs.freeNode, fun hf ↦ ⟨(hs.missing hf).1, fun j hj ↦ ?_⟩,
      fun hf ↦ (hs.run hf).skip (.inl hread)⟩
    push_cast at hj
    rcases lt_or_ge j (b.firstIndex + i) with hji | hji
    · exact (hs.missing hf).2 j hji
    · rwa [show j = b.firstIndex + i by omega]
  rw [hv] at hread
  have hne : b.read (b.firstIndex + i) ≠ none := by
    rw [hread]
    exact Option.some_ne_none v
  have hj : int32 (b.firstIndex + i) = .ok (b.firstIndex + i) := hb.int32_index hne
  have hidx := blockIndex_bounds (show 0 ≤ b.firstIndex + i by omega)
  simp only [hj, Run.ok_bind]
  rcases hf : st.indexFound with - | -
  · -- the first value
    obtain ⟨rfl, hmissing⟩ := hs.missing hf
    refine ⟨[], { st with index := blockIndex (b.firstIndex + i), length := blockSize, indexFound := true },
      rfl, ⟨⟨hs.built.chain, hs.built.nodup, hs.built.fresh, hs.built.tail, hs.built.array⟩, hs.fresh_le,
        hs.frame, hs.new, hs.wf, hs.sorted⟩, hs.freeNode, fun h ↦ (by cases h), fun _ ↦
        runAt_start hb hne (fun j hj ↦ ?_) (by simp)⟩
    rw [hmissing j (by omega), valueAt_nil]
  have hr := hs.run hf
  have hend := hr.end_le hb hi.le
  have hbounds : 0 ≤ st.index ∧ (32 : ℤ) ∣ st.index ∧ (32 : ℤ) ∣ st.length ∧ 0 < st.length :=
    ⟨(show 0 ≤ b.firstIndex by omega).trans hr.first_le, hr.index_dvd, hr.length_dvd, hr.pos⟩
  have he : int32 (st.index + st.length) = .ok (st.index + st.length) := int32_eq (by omega)
  simp only [Bool.true_eq_false, if_false, he, Run.ok_bind]
  rcases le_or_gt (st.index + st.length) (b.firstIndex + i) with hge | hin
  swap
  · -- the value is in the run
    refine ⟨e, st, if_neg hin.not_ge, hs.toLeft, hs.freeNode, fun h ↦ ?_, fun _ ↦ hr.skip (.inr hin)⟩
    exact absurd (hf.symm.trans h) (by decide)
  have hendi : b.firstIndex + i < b.endAt := by
    rw [Block.endAt]
    omega
  have he' : int32 (st.index + st.length + blockSize) = .ok (st.index + st.length + blockSize) :=
    int32_eq (by rw [blockSize]; omega)
  rw [if_pos hge, he', Run.ok_bind]
  rcases lt_or_ge (b.firstIndex + i : ℤ) (st.index + st.length + blockSize) with hnext | hlater
  · -- it is in the part after the run
    have hl : int32 (st.length + blockSize) = .ok (st.length + blockSize) :=
      int32_eq (by rw [blockSize]; omega)
    rw [if_pos hnext, hl, Run.ok_bind]
    refine ⟨e, { st with length := st.length + blockSize, indexFound := true }, rfl,
      ⟨⟨hs.built.chain, hs.built.nodup, hs.built.fresh, hs.built.tail, hs.built.array⟩, hs.fresh_le,
        hs.frame, hs.new, hs.wf, hs.sorted⟩, hs.freeNode, fun h ↦ (by cases h), fun _ ↦ hr.extend hne hge hnext⟩
  · -- it is further on, and the run leaves
    rw [blockSize] at hlater
    have hwhole : ¬(st.index = b.firstIndex ∧ st.length = b.length) := by
      rintro ⟨h₁, h₂⟩
      rw [Block.endAt] at hendi
      omega
    obtain ⟨e', st', hrun, he', hleft, hfree, hfound, hbelow, hvalue⟩ :=
      hs.emit hb hnode ha hafresh hf hi.le hwhole
    rw [if_neg (by rw [blockSize]; omega), hrun, Run.ok_bind]
    refine ⟨e', { st' with index := blockIndex (b.firstIndex + i), length := blockSize, indexFound := true },
      rfl, ⟨⟨by rw [he']; exact hleft.built.chain, hleft.built.nodup, hleft.built.fresh, hleft.built.tail, hleft.built.array⟩,
        hleft.fresh_le, hleft.frame, hleft.new, hleft.wf, hleft.sorted⟩, ?_, fun h ↦ (by cases h), fun _ ↦
        runAt_start hb hne (fun j hj ↦ hvalue j (.inl (by omega))) fun x hx ↦ ?_⟩
    · rw [he']
      exact hfree
    · have := hbelow x hx
      rw [blockSize]
      omega

/-- **The entries of a block.** -/
theorem scan_spec (hleft : Left st₀ array o p n b [] st) (hfree : st.freeNode = false)
    (hmissing : st.indexFound = false) (hb : b.WF) (hnode : st₀.heap.node a = some ⟨pa, na, b⟩)
    (ha : a ∉ o.map Prod.fst) (hafresh : a < st₀.heap.fresh) :
    ∃ e st', (List.range b.length.toNat).foldlM (compactEntry a) st = .ok st' ∧
      Scanned st₀ array o p n b b.length.toNat e st' := by
  have hstep : ∀ done i rest, List.range b.length.toNat = done ++ i :: rest → ∀ {st'},
      (∃ e, Scanned st₀ array o p n b done.length e st') →
      ∃ st'', compactEntry a st' i = .ok st'' ∧
        ∃ e, Scanned st₀ array o p n b (done ++ [i]).length e st'' := by
    rintro done i rest hl st' ⟨e, hs⟩
    have hlen := congrArg List.length hl
    have hi : (List.range b.length.toNat)[done.length]? = some i := by simp [hl]
    rw [List.length_range, List.length_append, List.length_cons] at hlen
    obtain ⟨-, rfl⟩ := List.getElem?_eq_some_iff.1 hi
    rw [List.getElem_range]
    obtain ⟨e', st'', hrun, hs'⟩ := hs.entry hb hnode ha hafresh (by omega)
    refine ⟨st'', hrun, e', ?_⟩
    rw [List.length_append, List.length_singleton]
    exact hs'
  have hstart : Scanned st₀ array o p n b ([] : List ℕ).length [] st :=
    ⟨hleft, hfree, fun _ ↦ ⟨rfl, fun j hj ↦ hb.read_eq_none fun hcon ↦
      absurd hcon.1 (by simpa using hj)⟩, fun h ↦ absurd (hmissing.symm.trans h) nofun⟩
  obtain ⟨st', hrun, e, hs⟩ := Run.foldlM_prefix hstep ⟨[], hstart⟩
  rw [List.length_range] at hs
  exact ⟨e, st', hrun, hs⟩

/-- Freeing a block that is not in the list. -/
theorem Built.free (hB : Built st array o p n) (ha : a ∉ o.map Prod.fst) :
    Built { st with heap := st.heap.free a } array o p n :=
  ⟨hB.chain.congr fun _ hx ↦ free_node_of_ne _ fun heq ↦ ha (heq ▸ List.mem_map_of_mem hx), hB.nodup,
    hB.fresh, hB.tail, hB.array⟩

end Block

/-- What has become of the block `x`, which stood between `pa` and `na`: the blocks `e` that have been put
after `o`. None has where it has no values, and it has itself where it is full. -/
structure BlockDone (st₀ : Compacting V) (array : Addr) (o : List (Addr × Block V)) (p n : Option Addr)
    (x : Addr × Block V) (pa na : Option Addr) (e : List (Addr × Block V)) (st : Compacting V) : Prop where
  fresh_le : st₀.heap.fresh ≤ st.heap.fresh
  frame : ∀ y, y ∉ o.map Prod.fst → y ≠ x.1 → y < st₀.heap.fresh → st.heap.node y = st₀.heap.node y
  addr : ∀ y ∈ e, y.1 = x.1 ∨ st₀.heap.fresh ≤ y.1
  wf : ∀ y ∈ e, y.2.WF ∧ y.2.Full ∧ x.2.firstIndex ≤ y.2.firstIndex ∧ y.2.endAt ≤ x.2.endAt
  sorted : Sorted e
  value : valueAt e = x.2.read
  links : e = [] ∧ Built st array o p n ∧ st.heap.node x.1 = none ∨
    e ≠ [] ∧ x.2.Full ∧ Built st array (o ++ e) (if o.isEmpty then pa else p) na ∨
    e ≠ [] ∧ ¬x.2.Full ∧ Built st array (o ++ e) (if o.isEmpty then none else p) none

section Block

variable {st₀ : Compacting V} {i : ℕ} {e : List (Addr × Block V)} {a : Addr} {pa na : Option Addr}

/-- **One block.** -/
theorem compactBlock_spec (hB : Built st array o p n) (hb : b.WF)
    (hnode : st.heap.node a = some ⟨pa, na, b⟩) (ha : a ∉ o.map Prod.fst) (hafresh : a < st.heap.fresh) :
    ∃ e st', compactBlock a st = .ok st' ∧ BlockDone st array o p n (a, b) pa na e st' := by
  have hbb := hb.bounds
  have hlen : (b.length.toNat : ℤ) = b.length := Int.toNat_of_nonneg hb.pos.le
  have hleft : Left st array o p n b [] { st with indexFound := false, freeNode := false } :=
    ⟨⟨by rw [List.append_nil]; exact hB.chain, by rw [List.append_nil]; exact hB.nodup,
      by rw [List.append_nil]; exact hB.fresh, by rw [List.append_nil]; exact hB.tail,
      by rw [List.append_nil]; exact hB.array⟩, le_rfl, fun _ _ _ ↦ rfl, by simp, by simp, List.Pairwise.nil⟩
  obtain ⟨e, st₁, hscan, hs⟩ := scan_spec hleft rfl rfl hb hnode ha hafresh
  rw [compactBlock, hnode, deref_some, Run.ok_bind]
  simp only
  rw [hscan, Run.ok_bind]
  rcases hf : st₁.indexFound with - | -
  · -- no value at all
    obtain ⟨rfl, hmissing⟩ := hs.missing hf
    have hB₁ := hs.built
    rw [List.append_nil] at hB₁
    refine ⟨[], { st₁ with heap := st₁.heap.free a }, ?_, hs.fresh_le, fun y hyo hya hlt ↦ ?_, by simp,
      by simp, List.Pairwise.nil, funext fun j ↦ ?_, .inl ⟨rfl, hB₁.free ha, by simp [Heap.free]⟩⟩
    · simp [hf]
    · exact (free_node_of_ne _ hya).trans (hs.frame y hyo hlt)
    · rcases lt_or_ge j (b.firstIndex + b.length) with hlt | hge
      · exact (hmissing j (by omega)).symm
      · exact (hb.read_eq_none fun hcon ↦ hcon.2.not_ge hge).symm
  have hr := hs.run hf
  rcases Classical.em (st₁.index = b.firstIndex ∧ st₁.length = b.length) with hwhole | hwhole
  · -- the run is the whole block, which stays
    obtain ⟨hindex, hlength⟩ := hwhole
    have he : e = [] := List.eq_nil_iff_forall_not_mem.2 fun x hx ↦ by
      have hbelow := hr.below x hx
      have hxb := (hs.wf x hx).1.bounds
      have hxfirst := (hs.wf x hx).2.2.1
      rw [hindex, blockSize] at hbelow
      omega
    subst he
    have hnode₁ := (hs.frame a ha hafresh).trans hnode
    have hfree : st₁.freeNode = false := hs.freeNode
    have hB₁ := hs.built
    rw [List.append_nil] at hB₁
    obtain ⟨h, happend, hB', hfresh, hframe⟩ :=
      hB₁.append hnode₁ ha (hafresh.trans_le hs.fresh_le)
    have hemit : emit a st₁ = .ok { st₁ with
        heap := h, array := (headAddr none (o ++ [(a, b)])).getD array, tail := some a } := by
      rw [BlockSparseArray.emit, extractBlock, hnode₁, deref_some, Run.ok_bind]
      simp only
      rw [if_pos ⟨hindex, hlength⟩, Run.pure_eq_ok, Run.ok_bind]
      simp only
      rw [happend, Run.ok_bind, if_neg (not_not.2 rfl), Run.pure_eq_ok]
    have hfull : b.Full := fun k hk hge hle ↦
      hr.full k hk (hindex.le.trans hge) (by rw [hindex, hlength]; exact hle)
    refine ⟨[(a, b)], _, ?_, hs.fresh_le.trans hfresh.ge, fun y hyo hya hlt ↦ ?_, by simp, ?_,
      List.pairwise_singleton .., ?_, .inr (.inl ⟨by simp, hfull, hB'⟩)⟩
    · simp only [if_true, hemit, Run.ok_bind, hfree, hf, Bool.false_eq_true, Bool.true_eq_false, or_self,
        if_false, Run.pure_eq_ok]
    · exact (hframe y hyo hya).trans (hs.frame y hyo hlt)
    · rintro y hy
      rw [List.mem_singleton.1 hy]
      exact ⟨hb, hfull, le_rfl, le_rfl⟩
    · funext j
      rw [valueAt_cons, valueAt_nil, Option.or_none]
  · have hnotfull := hr.not_full hb hlen.symm hwhole fun x hx ↦ (hs.wf x hx).1
    obtain ⟨e', st', hrun, he', hleft', hfree, hfound, -, hvalue⟩ :=
      hs.emit hb hnode ha hafresh hf hlen.le hwhole
    have hae : a ∉ (o ++ e').map Prod.fst := fun hin ↦ by
      rw [List.map_append, List.mem_append] at hin
      obtain ⟨y, hy, heq⟩ := List.mem_map.1 (hin.resolve_left ha)
      exact (hafresh.trans_le (hleft'.new y hy)).ne heq.symm
    have hB' := hleft'.built.free hae
    rw [headLink, he', if_neg Bool.false_ne_true] at hB'
    refine ⟨e', { st' with heap := st'.heap.free a }, ?_, hleft'.fresh_le, fun y hyo hya hlt ↦ ?_,
      fun y hy ↦ .inr (hleft'.new y hy), hleft'.wf, hleft'.sorted, funext fun j ↦ hvalue j ?_,
      .inr (.inr ⟨fun h ↦ by simp [h] at he', hnotfull, hB'⟩)⟩
    · simp only [if_true, hrun, Run.ok_bind, hfree, true_or, Run.pure_eq_ok]
    · exact (free_node_of_ne _ hya).trans (hleft'.frame y hyo hlt)
    · rcases lt_or_ge j (b.firstIndex + b.length) with hlt | hge
      · exact .inl (by omega)
      · exact .inr (hb.read_eq_none fun hcon ↦ hcon.2.not_ge hge)

end Block

end OpenImpact.BlockSparseArray
