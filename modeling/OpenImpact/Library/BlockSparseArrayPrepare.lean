import OpenImpact.Library.BlockSparseArrayRuns
import Mathlib.Algebra.Ring.Divisibility.Basic

/-!
# Preparing a range

`BlockSparseArrayPrepare` leaves the cursor on one block for the whole request exactly when the request
is `Preparable` and ends by the last multiple of `BLOCK_SIZE` that is an `int` (`prepare_iff`). Otherwise
`MergeBlocks` looks one `BLOCK_SIZE` ahead for the first block of its merge set, does not find it, and
returns without a word.

A block that reaches further has no end that is an `int`, since every block ends at a multiple of
`BLOCK_SIZE` (`Aligned`), and then no entry can be read.

The theorem rests on `Sparse.Inv.mergeBlocks`, for the blocks that the request touches, and on the
blocks being apart and in order (`Sparse.Inv`). The array before the request is any one that calls
in range have left, so the invariant of the runs is used as it is. What a request leaves that is not
preparable is described only as far as needed: its entries read as before, but the cursor is not on
one block for all of it.
-/

namespace OpenImpact.BlockSparseArray

open Foundation Heap

variable {V : Type} {G : Sparse V} {h : Heap (Block V)} {index length : ℤ}

/-! ### The ends of blocks -/

/-- Every block ends at a multiple of `BLOCK_SIZE`. -/
def Aligned (h : Heap (Block V)) : Prop := ∀ a n, h.node a = some n → blockSize ∣ n.val.endAt

/-- Writing a block that ends at a multiple of the block size keeps the array aligned. -/
theorem Aligned.set (hh : Aligned h) {n : Node (Block V)} (hn : blockSize ∣ n.val.endAt) (a : Addr) :
    Aligned (h.set a n) := by
  intro a' n' hn'
  rcases eq_or_ne a' a with rfl | hne
  · rw [set_node_self] at hn'
    exact Option.some.inj hn' ▸ hn
  · rw [set_node_of_ne _ hne] at hn'
    exact hh a' n' hn'

/-- A block may change but for its end. -/
theorem Aligned.update (hh : Aligned h) {a : Addr} {n n' : Node (Block V)} (hn : h.node a = some n)
    (hend : n'.val.endAt = n.val.endAt) : Aligned (h.set a n') :=
  hh.set (hend ▸ hh a n hn) a

/-- So does allocating one. -/
theorem Aligned.alloc (hh : Aligned h) {n : Node (Block V)} (hn : blockSize ∣ n.val.endAt) :
    Aligned (h.alloc n) :=
  fun a n' hn' ↦ hh.set hn h.fresh a n' hn'

/-- Freeing a block keeps the others. -/
theorem Aligned.free (hh : Aligned h) (a : Addr) : Aligned (h.free a) := by
  intro a' n' hn'
  rcases eq_or_ne a' a with rfl | hne
  · exact absurd hn' (by rw [Heap.free]; simp)
  · rw [free_node_of_ne _ hne] at hn'
    exact hh a' n' hn'

/-- Links do not change where blocks end. -/
theorem Aligned.setNext (hh : Aligned h) {a : Option Addr} {m : Addr} {h' : Heap (Block V)}
    (hrun : h.setNext a m = some h') : Aligned h' := by
  cases a with
  | none => exact Option.some.inj hrun ▸ hh
  | some a =>
    obtain ⟨n, hn, rfl⟩ := Option.map_eq_some_iff.1 hrun
    exact hh.update hn rfl

/-- Neither do links back. -/
theorem Aligned.setPrev (hh : Aligned h) {a : Option Addr} {m : Addr} {h' : Heap (Block V)}
    (hrun : h.setPrev a m = some h') : Aligned h' := by
  cases a with
  | none => exact Option.some.inj hrun ▸ hh
  | some a =>
    obtain ⟨n, hn, rfl⟩ := Option.map_eq_some_iff.1 hrun
    exact hh.update hn rfl

/-- The data of a block are allocated up to a multiple of the block size. -/
theorem dvd_endAt_of_allocateData {b b' : Block V} (hrun : allocateData b index length = .ok b') :
    blockSize ∣ b'.endAt := by
  obtain ⟨n, hn, hb'⟩ := Run.bind_eq_ok.1 hrun
  obtain rfl := Except.ok.inj hb'
  obtain ⟨e, he, hn⟩ := Run.bind_eq_ok.1 hn
  obtain ⟨s, hs, hn⟩ := Run.bind_eq_ok.1 hn
  obtain ⟨-, rfl⟩ := int32_eq_ok.1 he
  obtain ⟨-, rfl⟩ := int32_eq_ok.1 hs
  obtain ⟨-, rfl⟩ := int32_eq_ok.1 hn
  have hdvd : blockSize ∣ (index + length - 1) - (index + length - 1).tmod blockSize :=
    Int.dvd_self_sub_tmod
  rw [Block.endAt, blockIndex]
  have hsum : index - index.tmod blockSize +
      (blockSize - (index + length - 1).tmod blockSize + length - 1 + index.tmod blockSize) =
      (index + length - 1) - (index + length - 1).tmod blockSize + blockSize := by ring
  rw [hsum]
  exact dvd_add hdvd dvd_rfl

/-- Copying the merged blocks fills in the new one and does not move its end. -/
theorem Aligned.copyBlocks {new : Addr} {last : Option Addr} {fuel : ℕ} {temp : Option Addr}
    {h' : Heap (Block V)} (hh : Aligned h) (hrun : copyBlocks new last fuel temp h = .ok h') :
    Aligned h' := by
  induction fuel generalizing h temp with
  | zero => exact nomatch hrun
  | succ fuel ih =>
    rw [BlockSparseArray.copyBlocks] at hrun
    split_ifs at hrun with heq
    · exact Except.ok.inj hrun ▸ hh
    · obtain ⟨a, -, hrun⟩ := Run.bind_eq_ok.1 hrun
      obtain ⟨t, -, hrun⟩ := Run.bind_eq_ok.1 hrun
      obtain ⟨n, hn, hrun⟩ := Run.bind_eq_ok.1 hrun
      obtain ⟨data, -, hrun⟩ := Run.bind_eq_ok.1 hrun
      have hset := @Aligned.update _ _ hh new n { n with val := { n.val with data := data } }
        (deref_eq_ok.1 hn) rfl
      exact ih (hset.free a) hrun

/-- Merging keeps the array aligned, in the case that there are blocks to merge. -/
theorem Aligned.mergeFrom {G' : Sparse V} (hh : Aligned G.heap)
    (hrun : mergeFrom G index length = .ok G') : Aligned G'.heap := by
  obtain ⟨first, -, hrun⟩ := Run.bind_eq_ok.1 hrun
  obtain ⟨limit, -, hrun⟩ := Run.bind_eq_ok.1 hrun
  obtain ⟨⟨lastIndex, lastLength, last⟩, -, hrun⟩ := Run.bind_eq_ok.1 hrun
  obtain ⟨newLength, -, hrun⟩ := Run.bind_eq_ok.1 hrun
  obtain ⟨lastEnd, -, hrun⟩ := Run.bind_eq_ok.1 hrun
  obtain ⟨newLength, -, hrun⟩ := Run.bind_eq_ok.1 hrun
  obtain ⟨b, hb, hrun⟩ := Run.bind_eq_ok.1 hrun
  obtain ⟨h₁, h₁run, hrun⟩ := Run.bind_eq_ok.1 hrun
  obtain ⟨n, -, hrun⟩ := Run.bind_eq_ok.1 hrun
  obtain ⟨h₂, h₂run, hrun⟩ := Run.bind_eq_ok.1 hrun
  obtain ⟨h₃, h₃run, hrun⟩ := Run.bind_eq_ok.1 hrun
  obtain rfl := Except.ok.inj hrun
  have hcopied := (hh.alloc (n := ⟨first.prev, last, b⟩) (dvd_endAt_of_allocateData hb)).copyBlocks h₁run
  exact (hcopied.setPrev (deref_eq_ok.1 h₂run)).setNext (deref_eq_ok.1 h₃run)

/-- A search moves the cursor only. -/
theorem heap_getBlock {found : Bool} {G' : Sparse V} (hrun : getBlock G index = .ok (found, G')) :
    G'.heap = G.heap := by
  obtain ⟨b, -, hrun⟩ := Run.bind_eq_ok.1 hrun
  obtain ⟨e, -, hrun⟩ := Run.bind_eq_ok.1 hrun
  have hret : ∀ {x : Bool × Sparse V}, x.2.heap = G.heap → (Except.ok x : Run _) = .ok (found, G') →
      G'.heap = G.heap := fun hx h ↦ by
    obtain rfl := Except.ok.inj h
    exact hx
  split_ifs at hrun with hout he
  · obtain ⟨temp, -, hrun⟩ := Run.bind_eq_ok.1 hrun
    obtain ⟨t, -, hrun⟩ := Run.bind_eq_ok.1 hrun
    obtain ⟨e, -, hrun⟩ := Run.bind_eq_ok.1 hrun
    split_ifs at hrun <;> exact hret rfl hrun
  · obtain ⟨temp, -, hrun⟩ := Run.bind_eq_ok.1 hrun
    obtain ⟨t, -, hrun⟩ := Run.bind_eq_ok.1 hrun
    obtain ⟨low, -, hrun⟩ := Run.bind_eq_ok.1 hrun
    obtain ⟨e, -, hrun⟩ := Run.bind_eq_ok.1 hrun
    split_ifs at hrun <;> exact hret rfl hrun
  · exact hret rfl hrun

/-- So does the merge as it is called. -/
theorem Aligned.mergeBlocks {G' : Sparse V} (hh : Aligned G.heap)
    (hrun : mergeBlocks G index length = .ok G') : Aligned G'.heap := by
  obtain ⟨⟨found, G₁⟩, hget, hrun⟩ := Run.bind_eq_ok.1 hrun
  have hh₁ : Aligned G₁.heap := heap_getBlock hget ▸ hh
  simp only at hrun
  split_ifs at hrun with hfound
  · exact hh₁.mergeFrom hrun
  · obtain ⟨i, -, hrun⟩ := Run.bind_eq_ok.1 hrun
    obtain ⟨⟨found, G₂⟩, hget, hrun⟩ := Run.bind_eq_ok.1 hrun
    have hh₂ : Aligned G₂.heap := heap_getBlock hget ▸ hh₁
    simp only at hrun
    split_ifs at hrun
    · exact hh₂.mergeFrom hrun
    · exact Except.ok.inj hrun ▸ hh₂

/-- So does adding a block, with or without a merge. -/
theorem Aligned.addBlock {G' : Sparse V} {temp : Addr} {prev next : Option Addr} {only merge : Bool}
    (hh : Aligned G.heap) (hrun : addBlock G index length temp prev next only merge = .ok G') :
    Aligned G'.heap := by
  obtain ⟨⟨i₁, l₁, m₁⟩, -, hrun⟩ := Run.bind_eq_ok.1 hrun
  obtain ⟨⟨i₂, l₂, m₂⟩, -, hrun⟩ := Run.bind_eq_ok.1 hrun
  simp only at hrun
  split_ifs at hrun
  · exact hh.mergeBlocks hrun
  · obtain ⟨t, -, hrun⟩ := Run.bind_eq_ok.1 hrun
    obtain ⟨b, hb, hrun⟩ := Run.bind_eq_ok.1 hrun
    obtain rfl := Except.ok.inj hrun
    exact hh.set (n := { t with val := b }) (dvd_endAt_of_allocateData hb) temp
  · obtain ⟨c, -, hrun⟩ := Run.bind_eq_ok.1 hrun
    obtain ⟨b, hb, hrun⟩ := Run.bind_eq_ok.1 hrun
    obtain ⟨h₁, h₁run, hrun⟩ := Run.bind_eq_ok.1 hrun
    obtain ⟨h₂, h₂run, hrun⟩ := Run.bind_eq_ok.1 hrun
    obtain rfl := Except.ok.inj hrun
    have halloc := hh.alloc (n := ⟨prev, next, b⟩) (dvd_endAt_of_allocateData hb)
    exact (halloc.setNext (deref_eq_ok.1 h₁run)).setPrev (deref_eq_ok.1 h₂run)

/-- **`GetOrAddBlock`** keeps the ends aligned, whatever the request. -/
theorem Aligned.getOrAddBlock {G' : Sparse V} (hh : Aligned G.heap)
    (hrun : getOrAddBlock G index length = .ok G') : Aligned G'.heap := by
  obtain ⟨b, -, hrun⟩ := Run.bind_eq_ok.1 hrun
  obtain ⟨e, -, hrun⟩ := Run.bind_eq_ok.1 hrun
  obtain ⟨limit, -, hrun⟩ := Run.bind_eq_ok.1 hrun
  split_ifs at hrun
  · exact Except.ok.inj hrun ▸ hh
  · obtain ⟨temp, -, hrun⟩ := Run.bind_eq_ok.1 hrun
    obtain ⟨t, -, hrun⟩ := Run.bind_eq_ok.1 hrun
    obtain ⟨e, -, hrun⟩ := Run.bind_eq_ok.1 hrun
    split_ifs at hrun
    · obtain rfl := Except.ok.inj hrun
      exact hh
    · exact hh.mergeBlocks hrun
    · exact hh.addBlock hrun
    · exact hh.addBlock hrun
    · exact hh.addBlock hrun

/-- So does every call. -/
theorem Aligned.exec {G' : Sparse V} {op : Op V} {v : Option V} (hh : Aligned G.heap)
    (hrun : exec G op = .ok (v, G')) : Aligned G'.heap := by
  cases op with
  | set index data =>
    obtain ⟨G₁, hrun, hG₁⟩ := Run.map_eq_ok.1 hrun
    obtain ⟨G₂, hrun, hset⟩ := Run.bind_eq_ok.1 hrun
    obtain ⟨b, hb, hset⟩ := Run.bind_eq_ok.1 hset
    have hh₂ := hh.getOrAddBlock hrun
    simp only at hset
    split_ifs at hset <;>
    · obtain rfl := Except.ok.inj hset
      obtain rfl := (Prod.mk.inj hG₁).2
      exact hh₂.update (deref_eq_ok.1 hb) rfl
  | clear index =>
    obtain ⟨G₁, hrun, hG₁⟩ := Run.map_eq_ok.1 hrun
    obtain ⟨G₂, hrun, hset⟩ := Run.bind_eq_ok.1 hrun
    obtain ⟨b, hb, hset⟩ := Run.bind_eq_ok.1 hset
    have hh₂ := hh.getOrAddBlock hrun
    simp only at hset
    split_ifs at hset
    obtain rfl := Except.ok.inj hset
    obtain rfl := (Prod.mk.inj hG₁).2
    exact hh₂.update (deref_eq_ok.1 hb) rfl
  | get index =>
    obtain ⟨⟨found, G₁⟩, hget, hrun⟩ := Run.bind_eq_ok.1 hrun
    have hh₁ : Aligned G₁.heap := heap_getBlock hget ▸ hh
    simp only at hrun
    split_ifs at hrun
    · obtain ⟨b, -, hrun⟩ := Run.bind_eq_ok.1 hrun
      split_ifs at hrun
      exact (Prod.mk.inj (Except.ok.inj hrun)).2 ▸ hh₁
    · exact (Prod.mk.inj (Except.ok.inj hrun)).2 ▸ hh₁
  | prepare index length =>
    obtain ⟨G₁, hrun, hG₁⟩ := Run.map_eq_ok.1 hrun
    exact (Prod.mk.inj hG₁).2 ▸ hh.getOrAddBlock hrun

/-- So do calls one after the other. -/
theorem Aligned.execAll {G' : Sparse V} {ops : List (Op V)} {vs : List (Option V)} (hh : Aligned G.heap)
    (hrun : execAll ops G = .ok (vs, G')) : Aligned G'.heap := by
  induction ops generalizing G vs with
  | nil => exact (Prod.mk.inj (Except.ok.inj hrun)).2 ▸ hh
  | cons op ops ih =>
    obtain ⟨⟨v, G₁⟩, hexec, hrun⟩ := Run.bind_eq_ok.1 hrun
    simp only at hrun
    obtain ⟨⟨vs', G₂⟩, hruns, hG₂⟩ := Run.bind_eq_ok.1 hrun
    obtain rfl := (Prod.mk.inj (Except.ok.inj hG₂)).2
    exact ih (hh.exec hexec) hruns

/-- A new array is aligned, having no data. -/
theorem aligned_newBlockSparseArray : Aligned (newBlockSparseArray : Sparse V).heap :=
  Aligned.alloc (fun _ _ h ↦ absurd h (Option.some_ne_none _).symm) (dvd_zero _)

/-! ### Requests -/

/-- The blocks of the list the cursor is on. -/
structure IsBlocks (G : Sparse V) (l : List (Addr × Block V)) : Prop where
  chain : G.heap.Chain none l none
  nodup : (l.map Prod.fst).Nodup
  cursor : G.array ∈ l.map Prod.fst

/-- There is one list of blocks. -/
theorem IsBlocks.unique {G : Sparse V} {l l' : List (Addr × Block V)} (h : IsBlocks G l)
    (h' : IsBlocks G l') : l = l' := by
  obtain ⟨x, hx, hcursor⟩ := List.mem_map.1 h.cursor
  obtain ⟨x', hx', hcursor'⟩ := List.mem_map.1 h'.cursor
  obtain ⟨m₁, m₂, rfl⟩ := List.append_of_mem hx
  obtain ⟨m₁', m₂', rfl⟩ := List.append_of_mem hx'
  have haddr : x.1 = x'.1 := hcursor.trans hcursor'.symm
  have hnode := h.chain.node.symm.trans (haddr ▸ h'.chain.node)
  obtain ⟨hprev, hnext, hval⟩ := Node.mk.inj (Option.some.inj hnode)
  obtain rfl : x = x' := Prod.ext haddr hval
  obtain ⟨h₁, -, h₂⟩ := chain_append.1 h.chain
  obtain ⟨h₁', -, h₂'⟩ := chain_append.1 h'.chain
  rw [h₁.eq_of_lastAddr h₁' hprev, h₂.eq_of_headAddr h₂' hnext]

/-- `BlockSparseArrayPrepare` does what it is for: the cursor is on one block that has every index of the
request, and each entry reads as before. -/
def PreparesRight (G : Sparse V) (index length : ℤ) : Prop :=
  ∃ G', prepare G index length = .ok G' ∧
    (∃ n, G'.heap.node G'.array = some n ∧ n.val.firstIndex ≤ index ∧ index + length ≤ n.val.endAt) ∧
    ∀ i, 0 ≤ i → ∃ v G₁ G₂, get G i = .ok (v, G₁) ∧ get G' i = .ok (v, G₂)

/-- A block that reads at all ends by the last multiple of `BLOCK_SIZE` that is an `int`. -/
theorem Aligned.endAt_le {v : Option V} {G' : Sparse V} {n : Node (Block V)} (hh : Aligned G.heap)
    (hn : G.heap.node G.array = some n) (hget : get G index = .ok (v, G')) : n.val.endAt ≤ maxEnd := by
  obtain ⟨⟨found, G₁⟩, hget, -⟩ := Run.bind_eq_ok.1 hget
  obtain ⟨b, hb, hget⟩ := Run.bind_eq_ok.1 hget
  obtain ⟨e, he, -⟩ := Run.bind_eq_ok.1 hget
  obtain rfl := Option.some.inj (hn.symm.trans (deref_eq_ok.1 hb))
  obtain ⟨hle, -⟩ := int32_eq_ok.1 he
  have hdvd : (32 : ℤ) ∣ n.val.endAt := hh _ _ hn
  rw [Block.endAt] at hdvd ⊢
  rw [maxEnd]
  omega

/-- Reads of an array and of another that holds the same map agree. -/
theorem Sparse.Holds.reads {c : ℤ → Option V} {G' : Sparse V} (hG : G.Holds c) (hG' : G'.Holds c) (i : ℤ)
    (hi : 0 ≤ i) : ∃ v G₁ G₂, BlockSparseArray.get G i = .ok (v, G₁) ∧
      BlockSparseArray.get G' i = .ok (v, G₂) := by
  obtain ⟨G₁, hrun₁, -⟩ := hG.get hi
  obtain ⟨G₂, hrun₂, -⟩ := hG'.get hi
  exact ⟨_, G₁, G₂, hrun₁, hrun₂⟩

/-- For an array in use: the request is prepared exactly if it ends in range and no block stands
against it. -/
theorem Sparse.Inv.preparesRight_iff {l : List (Addr × Block V)} (hI : G.Inv l) (hh : Aligned G.heap)
    (hindex : 0 ≤ index) (hlength : 1 ≤ length) :
    PreparesRight G index length ↔ index + length ≤ maxEnd ∧ Preparable l index length := by
  constructor
  · rintro ⟨G', hrun, ⟨n, hn, hfirst, hend⟩, hreads⟩
    obtain ⟨v, G₁, G₂, -, hget⟩ := hreads 0 le_rfl
    have hle := hend.trans ((hh.getOrAddBlock hrun).endAt_le hn hget)
    refine ⟨hle, ?_⟩
    obtain ⟨G₃, hrun₃, l', hI', -, ⟨hprep, -⟩ | ⟨-, rfl⟩⟩ := hI.getOrAddBlock hindex hlength hle
    · exact hprep
    · -- the cursor has not moved, so it was on a block for the request before
      obtain rfl := Except.ok.inj (hrun.symm.trans hrun₃)
      obtain ⟨l₁, c, l₂, hsplit, hnode, -⟩ := hI.exists_cursor
      obtain rfl := Option.some.inj (hn.symm.trans hnode)
      have hlt : index < c.endAt := (show index < index + length by omega).trans_le hend
      exact .inl ⟨(G'.array, c), by simp [hsplit], .inl ⟨hfirst, hlt⟩⟩
  · rintro ⟨hle, hprep⟩
    obtain ⟨G', hrun, l', hI', hvalue, hcovers⟩ := hI.getOrAddBlock hindex hlength hle
    obtain ⟨-, b, hmem, hfirst, hend⟩ := hcovers.resolve_right fun hnot ↦ hnot.1 hprep
    obtain ⟨l₁, l₂, rfl⟩ := List.append_of_mem hmem
    refine ⟨G', hrun, ⟨_, hI'.chain.node, hfirst, hend⟩, ?_⟩
    exact Sparse.Holds.reads (.inr ⟨l, hI, rfl⟩) (.inr ⟨_, hI', hvalue⟩)

/-- For an array that has never been used there is only the empty first block. -/
theorem Sparse.Unused.preparesRight_iff (hU : G.Unused) (hh : Aligned G.heap) (hindex : 0 ≤ index)
    (hlength : 1 ≤ length) :
    PreparesRight G index length ↔
      index + length ≤ maxEnd ∧ Preparable [(G.array, (newBlock : Block V))] index length := by
  constructor
  · rintro ⟨G', hrun, ⟨n, hn, hfirst, hend⟩, hreads⟩
    obtain ⟨v, G₁, G₂, -, hget⟩ := hreads 0 le_rfl
    refine ⟨hend.trans ((hh.getOrAddBlock hrun).endAt_le hn hget), .inr fun z hz ↦ ?_⟩
    rw [List.mem_singleton.1 hz]
    exact .inl hindex
  · rintro ⟨hle, -⟩
    obtain ⟨G', l', hrun, hI', hnone, b, hmem, hfirst, hend⟩ := hU.getOrAddBlock hindex hlength hle
    obtain ⟨l₁, l₂, rfl⟩ := List.append_of_mem hmem
    refine ⟨G', hrun, ⟨_, hI'.chain.node, hfirst, hend⟩, ?_⟩
    exact Sparse.Holds.reads (.inl ⟨hU, fun _ ↦ rfl⟩) (.inr ⟨_, hI', funext hnone⟩)

/-- **`BlockSparseArrayPrepare`**, on any array that calls lead to. -/
theorem prepare_iff {ops : List (Op V)} (hops : ∀ op ∈ ops, op.InRange) :
    ∃ vs G l, execAll ops newBlockSparseArray = .ok (vs, G) ∧ IsBlocks G l ∧
      ∀ index length, 0 ≤ index → 1 ≤ length → (PreparesRight G index length ↔
        index + length ≤ maxEnd ∧ Preparable l index length) := by
  obtain ⟨G, hrun, hG⟩ := holds_newBlockSparseArray.execAll hops
  have hh : Aligned G.heap := aligned_newBlockSparseArray.execAll hrun
  obtain ⟨hU, -⟩ | ⟨l, hI, -⟩ := hG
  · exact ⟨_, G, [(G.array, newBlock)], hrun, ⟨⟨hU.node, trivial⟩, by simp, by simp⟩,
      fun index length ↦ hU.preparesRight_iff hh⟩
  · exact ⟨_, G, l, hrun, ⟨hI.chain, hI.nodup, hI.cursor⟩, fun index length ↦ hI.preparesRight_iff hh⟩

/-- A block after a write, and requests next to it. -/
theorem prepare_iff_one :
    ∃ vs G l, execAll [.set 70 (some 'a')] newBlockSparseArray = .ok (vs, G) ∧ IsBlocks G l ∧
      ∀ index length, 0 ≤ index → 1 ≤ length → (PreparesRight G index length ↔
        index + length ≤ maxEnd ∧ Preparable l index length) :=
  prepare_iff (by simp [Op.InRange, maxEnd])

/-- A request that runs into a block two `BLOCK_SIZE`s on gets no block. -/
theorem not_preparesRight_gap :
    ¬∀ (ops : List (Op Char)) vs G, execAll ops newBlockSparseArray = .ok (vs, G) →
      ∀ index length, 0 ≤ index → 1 ≤ length → PreparesRight G index length := by
  intro h
  obtain ⟨G', hrun, ⟨n, hn, hfirst, hend⟩, -⟩ := h [.set 70 (some 'a')] _ _ rfl 0 100 le_rfl (by decide)
  obtain rfl := Except.ok.inj hrun
  obtain rfl := Option.some.inj hn
  exact absurd hend (by decide)

end OpenImpact.BlockSparseArray
