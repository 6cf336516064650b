import OpenImpact.Library.BlockSparseArrayMerge

/-!
# Adding a block

`GetOrAddBlock` keeps the entries, and leaves the cursor on a block for the request if the request can get
one (`Sparse.Inv.getOrAddBlock`). A request for one entry always can (`preparable_one`); one for more may
be left without a block, when it runs into a block further on.
-/

namespace OpenImpact.BlockSparseArray

open Foundation Heap

variable {V : Type} {G : Sparse V} {h : Heap (Block V)} {l A B : List (Addr × Block V)}
  {index length : ℤ}

/-! ### Requests that get a block -/

/-- The index has a block, or one ends where the index's `BLOCK_SIZE` entries start, or one starts where
they end, or none starts in or right after the request. -/
def Preparable (l : List (Addr × Block V)) (index length : ℤ) : Prop :=
  (∃ z ∈ l, z.2.Contains index ∨ z.2.endAt = blockIndex index ∨
      z.2.firstIndex = blockIndex index + blockSize) ∨
    ∀ z ∈ l, z.2.firstIndex ≤ index ∨ index + length + blockSize ≤ z.2.firstIndex

/-- A request for one entry always gets a block. -/
theorem preparable_one (hwf : ∀ z ∈ l, z.2.WF) (hindex : 0 ≤ index) : Preparable l index 1 := by
  by_contra hnot
  rw [Preparable, not_or, not_exists] at hnot
  refine hnot.2 fun z hz ↦ ?_
  have hzb := (hwf z hz).bounds
  have hidx := blockIndex_eq hindex
  have hne : z.2.firstIndex ≠ blockIndex index + blockSize := fun heq ↦
    hnot.1 z ⟨hz, .inr (.inr heq)⟩
  rw [blockSize] at hne ⊢
  omega

/-- The same, between the blocks `A` before the index and the blocks `B` after it. -/
theorem preparable_append (hwf : ∀ z ∈ A ++ B, z.2.WF) (hindex : 0 ≤ index)
    (hA : ∀ z ∈ A, z.2.endAt ≤ index) (hB : ∀ z ∈ B, index < z.2.firstIndex) :
    Preparable (A ++ B) index length ↔
      (∃ z ∈ A, z.2.endAt = blockIndex index) ∨
        (∃ z ∈ A ++ B, z.2.Contains index ∨ z.2.Contains (index + blockSize)) ∨
        ∀ z ∈ B, index + length + blockSize ≤ z.2.firstIndex := by
  have hidx := blockIndex_eq hindex
  have hbounds : ∀ z ∈ A ++ B, _ := fun z hz ↦ (hwf z hz).bounds
  simp only [Preparable, Block.Contains, blockSize, List.mem_append] at hbounds ⊢
  constructor
  · rintro (⟨z, hz | hz, hcon | hend | hfirst⟩ | hall)
    · exact absurd hcon.2 (hA z hz).not_gt
    · exact .inl ⟨z, hz, hend⟩
    · have := hA z hz
      have := hbounds z (.inl hz)
      omega
    · exact absurd hcon.1 (hB z hz).not_ge
    · have := hB z hz
      have := hbounds z (.inr hz)
      omega
    · have := hbounds z (.inr hz)
      exact .inr (.inl ⟨z, .inr hz, .inr ⟨by omega, by omega⟩⟩)
    · exact .inr (.inr fun z hz ↦ (hall z (.inr hz)).resolve_left (hB z hz).not_ge)
  · rintro (⟨z, hz, hend⟩ | ⟨z, hz, hcon⟩ | hall)
    · exact .inl ⟨z, .inl hz, .inr (.inl hend)⟩
    · rcases hcon with hcon | hcon
      · exact .inl ⟨z, hz, .inl hcon⟩
      · have := hbounds z hz
        rcases hz with hz | hz
        · have := hA z hz
          omega
        · have := hB z hz
          exact .inl ⟨z, .inr hz, .inr (.inr (by omega))⟩
    · refine .inr fun z hz ↦ ?_
      rcases hz with hz | hz
      · have := hA z hz
        have := hbounds z (.inl hz)
        omega
      · exact .inr (hall z hz)

/-! ### Adjacent blocks -/

/-- A request joined with the block before it starts where that block does, and ends at the first
block boundary. -/
theorem joinPrev_spec (hc : h.Chain none (A ++ B) none) (hwf : ∀ z ∈ A, z.2.WF) (hsorted : Sorted A)
    (hA : ∀ z ∈ A, z.2.endAt ≤ index) (hindex : 0 ≤ index)
    (hlength : 1 ≤ length) (hle : index + length ≤ maxEnd) (merge : Bool) :
    ∃ i l m, joinPrev h (lastAddr none A) index length merge = .ok (i, l, m) ∧
      (i = index ∧ l = length ∧ m = merge ∧ (∀ z ∈ A, z.2.endAt ≠ blockIndex index) ∨
        ∃ z ∈ A, z.2.firstIndex = i ∧
        z.2.endAt = blockIndex index ∧ m = true ∧ index + length ≤ i + l ∧ i + l < index + length + 32 ∧
        (i + l) % 32 = 0) := by
  rcases A.eq_nil_or_concat with rfl | ⟨A, w, rfl⟩
  · exact ⟨index, length, merge, rfl, .inl ⟨rfl, rfl, rfl, by simp⟩⟩
  rw [List.concat_eq_append] at hc hwf hsorted hA ⊢
  have hassoc : A ++ [w] ++ B = A ++ w :: B := by simp
  have hw := hwf w (by simp)
  obtain ⟨n, hn, hmod, hnle, hnlt⟩ := blockLength_spec hindex hlength hle
  have hb := hw.bounds
  rw [maxEnd] at hle
  simp only [lastAddr_append, lastAddr_cons, lastAddr_nil]
  rw [joinPrev, Chain.node (hassoc ▸ hc), deref_some, Run.ok_bind]
  simp only
  rw [hw.endIndex_eq, Run.ok_bind]
  split_ifs with he
  · have hend : w.2.firstIndex + w.2.length = blockIndex index := he
    rw [hn, Run.ok_bind, int32_eq (by have := hw.pos; omega)]
    exact ⟨_, _, _, rfl, .inr ⟨w, by simp, rfl, he, rfl, by omega, by omega, by omega⟩⟩
  · refine ⟨index, length, merge, rfl, .inl ⟨rfl, rfl, rfl, fun z hz hzend ↦ ?_⟩⟩
    have hidx := blockIndex_eq hindex
    have hwend := hA w (by simp)
    rcases List.mem_append.1 hz with hz | hz
    · -- a block before `w` ends before `w` does, and `w` ends before the index
      have := (sorted_append.1 hsorted).2.2 z hz w List.mem_cons_self
      omega
    · exact he (List.mem_singleton.1 hz ▸ hzend)

/-- A request joined with the block after it starts at the block boundary, and ends where that block
does. -/
theorem joinNext_spec (hc : h.Chain none (A ++ B) none) (hwf : ∀ z ∈ B, z.2.WF) (hsorted : Sorted B)
    (hindex : 0 ≤ index)
    (hlength : 1 ≤ length) (hle : index + length ≤ maxEnd) (merge : Bool) :
    ∃ i l m, joinNext h (headAddr none B) index length merge = .ok (i, l, m) ∧
      (i = index ∧ l = length ∧ m = merge ∧ ((∀ z ∈ B, index + length ≤ z.2.firstIndex) →
          ∀ z ∈ B, index + length + blockSize ≤ z.2.firstIndex) ∨
        ∃ z ∈ B, i = blockIndex index ∧ i + l = z.2.endAt ∧
        m = true ∧ index + length ≤ z.2.firstIndex ∧ z.2.firstIndex < index + length + 32) := by
  cases B with
  | nil => exact ⟨index, length, merge, rfl, .inl ⟨rfl, rfl, rfl, by simp⟩⟩
  | cons w B =>
    have hw := hwf w List.mem_cons_self
    obtain ⟨n, hn, hmod, hnle, hnlt⟩ := blockLength_spec hindex hlength hle
    have hb := hw.bounds
    have hidx := blockIndex_eq hindex
    rw [maxEnd] at hle
    rw [headAddr_cons, joinNext, hc.node, deref_some, Run.ok_bind, hn, Run.ok_bind,
      int32_eq (by omega), Run.ok_bind]
    simp only
    split_ifs with he
    · have hend : w.2.endAt = w.2.firstIndex + w.2.length := rfl
      rw [int32_eq (by have := hw.pos; omega)]
      exact ⟨_, _, _, rfl, .inr ⟨w, List.mem_cons_self, rfl, by omega, rfl, by omega, by omega⟩⟩
    · refine ⟨index, length, merge, rfl, .inl ⟨rfl, rfl, rfl, fun hafter ↦ ?_⟩⟩
      have hwle := hafter w List.mem_cons_self
      rw [blockSize]
      refine List.forall_mem_cons.2 ⟨by omega, fun z hz ↦ ?_⟩
      have := (sorted_cons.1 hsorted).1 z hz
      omega

/-! ### The new block -/

theorem Covers.mono {i j i' j' : ℤ} (h : Covers G l i j) (hi : i ≤ i') (hj : j' ≤ j) :
    Covers G l i' j' := by
  obtain ⟨b, hb, hfirst, hend⟩ := h
  exact ⟨b, hb, hfirst.trans hi, hj.trans hend⟩

/-- What a request leaves in an array whose blocks are `l`: the same entries, and a block for the request
if it can get one. -/
def Prepares (G : Sparse V) (l : List (Addr × Block V)) (index length : ℤ) (G' : Sparse V) : Prop :=
  ∃ l', G'.Inv l' ∧ valueAt l' = valueAt l ∧
    (Preparable l index length ∧ Covers G' l' index (index + length) ∨
      ¬Preparable l index length ∧ G' = G)

/-- The request after it was joined with the blocks next to it: it still has the indices asked for, and a
merge finds its first block exactly if the request can get one. -/
structure JoinedRequest (l : List (Addr × Block V)) (index length i' l' : ℤ) : Prop where
  nonneg : 0 ≤ i'
  first_le : i' ≤ index
  pos : 1 ≤ l'
  le_end : index + length ≤ i' + l'
  end_le : i' + l' ≤ maxEnd
  found_iff : Preparable l index length ↔
    ∃ z ∈ l, z.2.Contains i' ∨ z.2.Contains (i' + blockSize)

section Join

variable (hI : G.Inv (A ++ B)) (hindex : 0 ≤ index) (hlength : 1 ≤ length)
  (hle : index + length ≤ maxEnd) (hA : ∀ z ∈ A, z.2.endAt ≤ index)
  (hB : ∀ z ∈ B, index < z.2.firstIndex)

include hI hindex hA hB

/-- A request joined with the block before it can get that block. -/
theorem joined_prev {z : Addr × Block V} (hz : z ∈ A) {i' l' : ℤ} (hpos : 1 ≤ l')
    (hend : z.2.endAt = blockIndex index) (hi : i' = z.2.firstIndex)
    (hge : index + length ≤ i' + l') (hmax : i' + l' ≤ maxEnd) : JoinedRequest (A ++ B) index length i' l' := by
  have hzb := (hI.wf z (List.mem_append_left _ hz)).bounds
  have hidx := blockIndex_eq hindex
  have hprep := @preparable_append _ _ _ _ length hI.wf hindex hA hB
  refine ⟨by omega, by omega, hpos, hge, hmax, ?_⟩
  rw [hprep]
  exact ⟨fun _ ↦ ⟨z, List.mem_append_left _ hz, .inl ⟨by omega, by omega⟩⟩, fun _ ↦ .inl ⟨z, hz, hend⟩⟩

include hlength

/-- A request joined with the block after it only starts at the block boundary. -/
theorem joined_next {w : Addr × Block V} (hw : w ∈ B) (hne : ∀ z ∈ A, z.2.endAt ≠ blockIndex index)
    {l' : ℤ} (hend : blockIndex index + l' = w.2.endAt) (hwle : index + length ≤ w.2.firstIndex)
    (hwlt : w.2.firstIndex < index + length + 32) :
    JoinedRequest (A ++ B) index length (blockIndex index) l' := by
  have hwb := (hI.wf w (List.mem_append_right _ hw)).bounds
  have hidx := blockIndex_eq hindex
  have hprep := @preparable_append _ _ _ _ length hI.wf hindex hA hB
  refine ⟨by omega, by omega, by omega, by omega, by rw [maxEnd]; omega, ?_⟩
  rw [hprep]
  constructor
  · rintro (⟨z, hz, hzend⟩ | ⟨z, hz, hcon⟩ | hall)
    · exact absurd hzend (hne z hz)
    · have hzb := (hI.wf z hz).bounds
      refine ⟨z, hz, ?_⟩
      simp only [Block.Contains, blockSize] at hcon ⊢
      omega
    · have := hall w hw
      rw [blockSize] at this
      omega
  · rintro ⟨z, hz, hcon⟩
    have hzb := (hI.wf z hz).bounds
    refine .inr (.inl ⟨z, hz, ?_⟩)
    simp only [Block.Contains, blockSize] at hcon ⊢
    omega

include hle

/-- Both joins: what is merged is a joined request, and without a merge no block is near. -/
theorem join_spec {merge : Bool} (hmerge : merge = false ↔ ∀ z ∈ B, index + length ≤ z.2.firstIndex) :
    ∃ i₁ l₁ m₁ i₂ l₂ m₂, joinPrev G.heap (lastAddr none A) index length merge = .ok (i₁, l₁, m₁) ∧
      joinNext G.heap (headAddr none B) i₁ l₁ m₁ = .ok (i₂, l₂, m₂) ∧
      (m₂ = true → JoinedRequest (A ++ B) index length i₂ l₂) ∧
      (m₂ = false → i₂ = index ∧ l₂ = length ∧ merge = false ∧
        ∀ z ∈ B, index + length + blockSize ≤ z.2.firstIndex) := by
  have hwfA : ∀ z ∈ A, z.2.WF := fun z hz ↦ hI.wf z (List.mem_append_left _ hz)
  have hwfB : ∀ z ∈ B, z.2.WF := fun z hz ↦ hI.wf z (List.mem_append_right _ hz)
  have hidx := blockIndex_eq hindex
  have hsorted := sorted_append.1 hI.sorted
  obtain ⟨i₁, l₁, m₁, hjoin₁, hcase₁⟩ :=
    joinPrev_spec hI.chain hwfA hsorted.1 hA hindex hlength hle merge
  have hi₁ : 0 ≤ i₁ ∧ 1 ≤ l₁ ∧ i₁ + l₁ ≤ maxEnd := by
    obtain ⟨rfl, rfl, -⟩ | ⟨z, hz, rfl, hend, hjoin⟩ := hcase₁
    · exact ⟨hindex, hlength, hle⟩
    · obtain ⟨-, hge, hlt, hmod⟩ := hjoin
      have := (hwfA z hz).bounds
      rw [maxEnd] at hle ⊢
      omega
  obtain ⟨i₂, l₂, m₂, hjoin₂, hcase₂⟩ :=
    joinNext_spec hI.chain hwfB hsorted.2.1 hi₁.1 hi₁.2.1 hi₁.2.2 m₁
  refine ⟨i₁, l₁, m₁, i₂, l₂, m₂, hjoin₁, hjoin₂, fun hm ↦ ?_, fun hm ↦ ?_⟩
  · obtain ⟨rfl, rfl, hm₁, hnext⟩ | ⟨w, hw, hi, hend, -, hwle, hwlt⟩ := hcase₂
    · obtain ⟨rfl, rfl, hmerge', hne⟩ | ⟨z, hz, hi, hend, -, hge, -⟩ := hcase₁
      · -- no block is next to the request, so the merge was asked for by the caller
        refine ⟨hindex, le_rfl, hlength, le_rfl, hle, ?_⟩
        rw [preparable_append hI.wf hindex hA hB]
        refine ⟨?_, fun hfound ↦ .inr (.inl hfound)⟩
        rintro (⟨z, hz, hend⟩ | hfound | hall)
        · exact absurd hend (hne z hz)
        · exact hfound
        · have hfalse := hmerge.2 fun z hz ↦ by
            have := hall z hz
            rw [blockSize] at this
            omega
          rw [← hmerge', ← hm₁, hm] at hfalse
          exact absurd hfalse (by simp)
      · exact joined_prev hI hindex hA hB hz hi₁.2.1 hend hi.symm hge hi₁.2.2
    · have hwb := (hwfB w hw).bounds
      obtain ⟨rfl, rfl, -, hne⟩ | ⟨z, hz, rfl, hzend, -, hge, -⟩ := hcase₁
      · rw [hi] at hend ⊢
        exact joined_next hI hindex hlength hA hB hw hne hend hwle hwlt
      · -- the block before starts at a block boundary, so joining the one after keeps the start
        have hzb := (hwfA z hz).bounds
        have hi₁' := blockIndex_eq hi₁.1
        exact joined_prev hI hindex hA hB hz (by omega) hzend (by omega) (by omega)
          (by rw [maxEnd]; omega)
  · obtain ⟨rfl, rfl, rfl, hnext⟩ | ⟨z, -, -, -, rfl, -⟩ := hcase₂
    swap
    · exact absurd hm (by simp)
    obtain ⟨rfl, rfl, rfl, -⟩ | ⟨z, -, -, -, rfl, -⟩ := hcase₁
    swap
    · exact absurd hm (by simp)
    exact ⟨rfl, rfl, hm, hnext (hmerge.1 hm)⟩

end Join

/-- A new block between `A` and `B` changes no entry. -/
theorem Sparse.Inv.linkBlock (hI : G.Inv (A ++ B)) {b : Block V} (hb : b.WF)
    (hA : ∀ z ∈ A, z.2.endAt ≤ b.firstIndex) (hB : ∀ z ∈ B, b.endAt ≤ z.2.firstIndex)
    (hnone : ∀ j, b.read j = none) :
    ∃ h₁ h₂, (G.heap.alloc ⟨lastAddr none A, headAddr none B, b⟩).setNext (lastAddr none A)
        G.heap.fresh = some h₁ ∧ h₁.setPrev (headAddr none B) G.heap.fresh = some h₂ ∧
      { G with heap := h₂, array := G.heap.fresh }.Inv (A ++ (G.heap.fresh, b) :: B) ∧
      valueAt (A ++ (G.heap.fresh, b) :: B) = valueAt (A ++ B) := by
  have hI' : G.Inv (A ++ [] ++ B) := by rwa [List.append_nil]
  have hframe : ∀ z ∈ A ++ B, (G.heap.alloc ⟨lastAddr none A, headAddr none B, b⟩).node z.1 =
      G.heap.node z.1 := fun z hz ↦ set_node_of_ne _ (hI.fresh z hz).ne _
  obtain ⟨hchainA, hchainB⟩ := chain_append.1 hI.chain
  have hlink : Linkable (G.heap.alloc ⟨lastAddr none A, headAddr none B, b⟩) A B G.heap.fresh b :=
    ⟨⟨_, hchainA.congr fun z hz ↦ hframe z (List.mem_append_left _ hz)⟩,
      ⟨_, hchainB.congr fun z hz ↦ hframe z (List.mem_append_right _ hz)⟩, hI'.nodup_replace b,
      set_node_self ..⟩
  obtain ⟨h₁, h₂, hnext, hprev, hfresh, hchain⟩ := hlink.setNext_setPrev
  have hreplace := hI'.replace hb (show { G with heap := h₂, array := G.heap.fresh }.heap.Chain none
    (A ++ (G.heap.fresh, b) :: B) none from hchain) hfresh rfl hA hB hnone
  exact ⟨h₁, h₂, hnext, hprev, hreplace.1, by rw [hreplace.2, List.append_nil]⟩

/-- **The rest of `GetOrAddBlock`**, between the blocks `A` before the index and the blocks `B` after
it. -/
theorem Sparse.Inv.addBlock (hI : G.Inv (A ++ B)) (hindex : 0 ≤ index) (hlength : 1 ≤ length)
    (hle : index + length ≤ maxEnd) (hA : ∀ z ∈ A, z.2.endAt ≤ index)
    (hB : ∀ z ∈ B, index < z.2.firstIndex) {merge : Bool} (temp : Addr)
    (hmerge : merge = false ↔ ∀ z ∈ B, index + length ≤ z.2.firstIndex) :
    ∃ G', addBlock G index length temp (lastAddr none A) (headAddr none B) false merge = .ok G' ∧
      Prepares G (A ++ B) index length G' := by
  obtain ⟨i₁, l₁, m₁, i₂, l₂, m₂, hjoin₁, hjoin₂, htrue, hfalse⟩ :=
    join_spec hI hindex hlength hle hA hB hmerge
  have hstart : BlockSparseArray.addBlock G index length temp (lastAddr none A) (headAddr none B) false
      merge = if m₂ = true then BlockSparseArray.mergeBlocks G i₂ l₂ else do
        let c ← deref (G.heap.node G.array)
        let b ← allocateData { newBlock with options := c.val.options } i₂ l₂
        let h ← deref ((G.heap.alloc ⟨lastAddr none A, headAddr none B, b⟩).setNext (lastAddr none A)
          G.heap.fresh)
        let h ← deref (h.setPrev (headAddr none B) G.heap.fresh)
        return { G with heap := h, array := G.heap.fresh } := by
    rw [BlockSparseArray.addBlock, hjoin₁, Run.ok_bind]
    simp only
    rw [hjoin₂, Run.ok_bind]
    rfl
  rw [hstart]
  split_ifs with hm
  · -- the merge finds its first block exactly when the request can get one
    obtain ⟨hi₀, hi, hl, hge, hle₂, hfound⟩ := htrue hm
    obtain ⟨G', l', hrun, hI', hvalue, hcovers⟩ := hI.mergeBlocks hi₀ hl hle₂
    rw [← hfound] at hcovers
    exact ⟨G', hrun, l', hI', hvalue, hcovers.imp_left (And.imp_right fun hc ↦ hc.mono hi hge)⟩
  · -- no block is adjacent
    rw [Bool.not_eq_true] at hm
    obtain ⟨rfl, rfl, hmfalse, hnext⟩ := hfalse hm
    rw [maxEnd] at hle
    obtain ⟨_, c, _, -, hnode, -⟩ := hI.exists_cursor
    obtain ⟨b, halloc, hb, hfirst, hend, hlt, hnone⟩ :=
      allocateData_spec ({ newBlock with options := c.options } : Block V) hindex hlength hle
    have hidx := blockIndex_eq hindex
    have hbb := hb.bounds
    have hA' : ∀ z ∈ A, z.2.endAt ≤ b.firstIndex := fun z hz ↦ by
      have := (hI.wf z (List.mem_append_left _ hz)).bounds
      have := hA z hz
      omega
    have hB' : ∀ z ∈ B, b.endAt ≤ z.2.firstIndex := fun z hz ↦ by
      have := (hI.wf z (List.mem_append_right _ hz)).bounds
      have := hmerge.1 hmfalse z hz
      omega
    obtain ⟨h₁, h₂, hrun₁, hrun₂, hinv, hvalue⟩ := hI.linkBlock hb hA' hB' hnone
    refine ⟨_, ?_, _, hinv, hvalue, .inl ⟨?_, b, by simp, ?_, ?_⟩⟩
    · rw [hnode, deref_some, Run.ok_bind, halloc, Run.ok_bind, hrun₁, deref_some, Run.ok_bind, hrun₂,
        deref_some, Run.ok_bind, Run.pure_eq_ok]
    · exact (preparable_append hI.wf hindex hA hB).2 (.inr (.inr hnext))
    · omega
    · omega

/-- **`GetOrAddBlock`** on an array in use. -/
theorem Sparse.Inv.getOrAddBlock (hI : G.Inv l) (hindex : 0 ≤ index) (hlength : 1 ≤ length)
    (hle : index + length ≤ maxEnd) :
    ∃ G', getOrAddBlock G index length = .ok G' ∧ Prepares G l index length G' := by
  obtain ⟨l₁, c, l₂, hsplit, hnode, hc⟩ := hI.exists_cursor
  have hle' := hle
  rw [maxEnd] at hle'
  rw [BlockSparseArray.getOrAddBlock, hnode, deref_some, Run.ok_bind, hc.endIndex_eq, Run.ok_bind,
    int32_eq (by omega), Run.ok_bind]
  split_ifs with hfits
  · have hmem : (G.array, c) ∈ l := by simp [hsplit]
    refine ⟨G, rfl, l, hI, rfl, .inl ⟨.inl ⟨_, hmem, .inl ⟨hfits.1, ?_⟩⟩, c, hmem, hfits⟩⟩
    have : index + length ≤ c.endAt := hfits.2
    show index < c.endAt
    omega
  obtain ⟨m₁, y, m₂, hloc, hseek⟩ := hI.seek index hnode
  have hy := hI.wf y hloc.mem
  have hyb := hy.bounds
  have htemp : BlockSparseArray.seek G.heap index c.endAt G.array = .ok y.1 := by
    rw [BlockSparseArray.seek]
    simp only at hseek
    split_ifs at hseek ⊢
    · exact hseek
    · exact hseek.2
  have hchain := hloc.split ▸ hI.chain
  rw [htemp, Run.ok_bind, hchain.node, deref_some, Run.ok_bind]
  simp only
  rw [hy.endIndex_eq, Run.ok_bind]
  split_ifs with hin hfit hbefore hlast hzero
  · -- the request fits in the block
    exact ⟨_, rfl, l, hI.move hloc.mem, rfl,
      .inl ⟨.inl ⟨y, hloc.mem, .inl hin⟩, y.2, hloc.mem, hin.1, hfit⟩⟩
  · -- it extends past the block
    obtain ⟨G', l', hrun, hI', hvalue, hcovers⟩ := hI.mergeBlocks hindex hlength hle
    obtain ⟨-, hcovers⟩ | ⟨hnone, -⟩ := hcovers
    · exact ⟨G', hrun, l', hI', hvalue, .inl ⟨.inl ⟨y, hloc.mem, .inl hin⟩, hcovers⟩⟩
    · exact absurd ⟨y, hloc.mem, .inl hin⟩ hnone
  · -- a new block before `y`
    have hI' := hI
    rw [hloc.split] at hI' ⊢
    have hsorted := hI'.sorted
    rw [sorted_append, sorted_cons] at hsorted
    have hafter : ∀ z ∈ y :: m₂, y.2.firstIndex ≤ z.2.firstIndex := by
      refine List.forall_mem_cons.2 ⟨le_rfl, fun z hz ↦ ?_⟩
      have := hsorted.2.1.1 z hz
      omega
    refine hI'.addBlock hindex hlength hle hloc.before (fun z hz ↦ hbefore.trans_le (hafter z hz)) _ ?_
    rw [decide_eq_false_iff_not, not_lt]
    exact ⟨fun hmerge z hz ↦ hmerge.trans (hafter z hz), fun hall ↦ hall y List.mem_cons_self⟩
  · exact absurd hzero (hy.pos.ne')
  · -- a new block at the end
    have hnil : m₂ = [] := hloc.here.resolve_left hlast.1.not_gt
    subst hnil
    have hassoc : l = (m₁ ++ [y]) ++ [] := by rw [hloc.split, List.append_nil]
    have hI' := hI
    rw [hassoc] at hI' ⊢
    have hbefore' : ∀ z ∈ m₁ ++ [y], z.2.endAt ≤ index := by
      intro z hz
      rcases List.mem_append.1 hz with hz | hz
      · exact hloc.before z hz
      · rw [List.mem_singleton.1 hz]
        exact hlast.1
    have hrun := hI'.addBlock hindex hlength hle hbefore' (by simp) y.1
      (show false = false ↔ ∀ z ∈ ([] : List (Addr × Block V)), index + length ≤ z.2.firstIndex by simp)
    simpa using hrun
  · -- a block that ends before the index is the last one
    refine absurd ⟨not_lt.1 fun hlt ↦ hin ⟨not_lt.1 hbefore, hlt⟩, ?_⟩ hlast
    have hend : ¬index < y.2.endAt := fun hlt ↦ hin ⟨not_lt.1 hbefore, hlt⟩
    rw [hloc.here.resolve_left hend, headAddr_nil]

/-! ### The first block -/

/-- A new array: one block without entries. -/
structure Sparse.Unused (G : Sparse V) : Prop where
  node : G.heap.node G.array = some ⟨none, none, newBlock⟩
  fresh : G.array < G.heap.fresh

theorem Sparse.Unused.forward (hU : G.Unused) (index : ℤ) :
    forward G.heap index (fuel G.heap) G.array = .ok G.array := by
  have hzero : (newBlock : Block V).endIndex = .ok 0 := rfl
  rw [fuel, BlockSparseArray.forward, hU.node, deref_some, Run.ok_bind]
  simp only
  rw [hzero]
  rfl

theorem Sparse.Unused.getBlock (hU : G.Unused) (hindex : 0 ≤ index) :
    getBlock G index = .ok (false, G) := by
  have hzero : (newBlock : Block V).endIndex = .ok 0 := rfl
  rw [BlockSparseArray.getBlock, hU.node, deref_some, Run.ok_bind]
  simp only
  rw [hzero, Run.ok_bind, if_pos (.inr hindex), if_pos hindex, hU.forward, Run.ok_bind, hU.node,
    deref_some, Run.ok_bind]
  simp only
  rw [hzero, Run.ok_bind, if_pos (.inr ⟨hindex, trivial⟩), Run.pure_eq_ok]

/-- **`GetOrAddBlock`** on a new array. -/
theorem Sparse.Unused.getOrAddBlock (hU : G.Unused) (hindex : 0 ≤ index) (hlength : 1 ≤ length)
    (hle : index + length ≤ maxEnd) :
    ∃ G' l', getOrAddBlock G index length = .ok G' ∧ G'.Inv l' ∧ (∀ i, valueAt l' i = none) ∧
      Covers G' l' index (index + length) := by
  obtain ⟨b, halloc, hb, hfirst, hend, -, hnone⟩ :=
    allocateData_spec (newBlock : Block V) hindex hlength hle
  have hidx := blockIndex_eq hindex
  rw [maxEnd] at hle
  have hzero : (newBlock : Block V).endIndex = .ok 0 := rfl
  have hfuel := hU.forward index
  have hrun : BlockSparseArray.getOrAddBlock G index length =
      .ok { G with heap := G.heap.set G.array ⟨none, none, b⟩, array := G.array } := by
    rw [BlockSparseArray.getOrAddBlock, hU.node, deref_some, Run.ok_bind]
    simp only
    rw [hzero, Run.ok_bind, int32_eq (by omega), Run.ok_bind, if_neg (by omega), seek, if_pos hindex,
      hfuel, Run.ok_bind, hU.node, deref_some, Run.ok_bind]
    simp only
    rw [hzero, Run.ok_bind, if_neg (by omega), if_neg (show ¬index < (newBlock : Block V).firstIndex from
      hindex.not_gt), if_pos ⟨hindex, trivial⟩,
      if_pos (show (newBlock : Block V).length = 0 from rfl), BlockSparseArray.addBlock]
    simp only [joinPrev, joinNext, Run.pure_eq_ok, Run.ok_bind, Bool.false_eq_true, if_false, if_true,
      hU.node, deref_some, halloc]
  refine ⟨_, [(G.array, b)], hrun, ⟨⟨set_node_self .., trivial⟩, by simp, ?_, by simp, ?_, ?_⟩,
    fun i ↦ ?_, b, by simp, by omega, by omega⟩
  · exact fun z hz ↦ List.mem_singleton.1 hz ▸ hU.fresh
  · exact List.pairwise_singleton ..
  · exact fun z hz ↦ List.mem_singleton.1 hz ▸ hb
  · rw [valueAt_cons, hnone]
    rfl

end OpenImpact.BlockSparseArray
