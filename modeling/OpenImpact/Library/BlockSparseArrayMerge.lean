import OpenImpact.Library.BlockSparseArraySearch

/-!
# Merging blocks

`MergeBlocks` replaces a run of blocks by one block: its range is the one of the request and of the
run, and its entries are the ones the run had (`Sparse.Inv.mergeFrom`). It does nothing where neither
the request's first index nor the one a block further on has a block (`Sparse.Inv.mergeBlocks`).
-/

namespace OpenImpact.BlockSparseArray

open Foundation Heap

variable {V : Type} {G : Sparse V} {h : Heap (Block V)} {l l₁ l₂ : List (Addr × Block V)}
  {x y : Addr × Block V} {index length : ℤ}

/-! ### The merge set -/

/-- The loop ends at the blocks from the limit on, with the last block before them. -/
theorem mergeEnd_spec (limit : ℤ) {fuel : ℕ} {p : Option Addr} {c : Block V} (hc : h.Chain p l none)
    (hsorted : Sorted l) (hwf : ∀ z ∈ l, z.2.WF) (hfirst : ∀ z ∈ l, c.endAt ≤ z.2.firstIndex)
    (hfuel : l.length < fuel) :
    ∃ m B e, l = m ++ B ∧ mergeEnd h limit fuel c.firstIndex c.length (headAddr none l) =
        .ok (e.firstIndex, e.length, headAddr none B) ∧
      (∀ z ∈ B, limit ≤ z.2.firstIndex) ∧ (e = c ∨ ∃ z ∈ m, e = z.2) ∧ c.endAt ≤ e.endAt ∧
      ∀ z ∈ m, z.2.endAt ≤ e.endAt := by
  induction l generalizing c p fuel with
  | nil =>
    obtain ⟨fuel, rfl⟩ := Nat.exists_eq_succ_of_ne_zero (Nat.ne_of_gt hfuel)
    exact ⟨[], [], c, rfl, rfl, by simp, .inl rfl, le_rfl, by simp⟩
  | cons w l ih =>
    obtain ⟨fuel, rfl⟩ := Nat.exists_eq_succ_of_ne_zero (Nat.ne_of_gt (Nat.zero_lt_of_lt hfuel))
    rw [sorted_cons] at hsorted
    rw [List.forall_mem_cons] at hwf hfirst
    rw [headAddr_cons, mergeEnd, hc.1, deref_some, Run.ok_bind]
    simp only
    split_ifs with hlt
    · obtain ⟨m, B, e, rfl, hrun, hB, he, hwe, hm⟩ :=
        ih hc.2 hsorted.2 hwf.2 hsorted.1 (Nat.lt_of_succ_lt_succ hfuel)
      have hce : c.endAt ≤ e.endAt := by
        have := hwf.1.bounds
        have := hfirst.1
        omega
      refine ⟨w :: m, B, e, rfl, hrun, hB, .inr ?_, hce, List.forall_mem_cons.2 ⟨hwe, hm⟩⟩
      obtain rfl | ⟨z, hz, rfl⟩ := he
      · exact ⟨w, List.mem_cons_self, rfl⟩
      · exact ⟨z, List.mem_cons_of_mem _ hz, rfl⟩
    · rw [not_lt] at hlt
      refine ⟨[], w :: l, c, rfl, rfl, List.forall_mem_cons.2 ⟨hlt, fun z hz ↦ ?_⟩, .inl rfl, le_rfl,
        by simp⟩
      have := hwf.1.bounds
      have := hsorted.1 z hz
      omega

/-! ### Copying -/

theorem getElem?_splice {α : Type} (dst src : List α) {o : ℕ} (ho : o + src.length ≤ dst.length)
    (k : ℕ) : (dst.take o ++ src ++ dst.drop (o + src.length))[k]? =
      if o ≤ k ∧ k < o + src.length then src[k - o]? else dst[k]? := by
  have htake : (dst.take o).length = o := List.length_take_of_le (by omega)
  have hlen : (dst.take o ++ src).length = o + src.length := by rw [List.length_append, htake]
  split_ifs with hk
  · rw [List.getElem?_append_left (by omega), List.getElem?_append_right (by omega), htake]
  · rw [not_and_or, not_le, not_lt] at hk
    rcases hk with hk | hk
    · rw [List.getElem?_append_left (by omega), List.getElem?_append_left (by omega),
        List.getElem?_take_of_lt hk]
    · rw [List.getElem?_append_right (by omega), hlen, List.getElem?_drop,
        Nat.add_sub_cancel' hk]

theorem Block.WF.withData {b : Block V} (hb : b.WF) {d : List (Option V)}
    (hd : d.length = b.data.length) : { b with data := d }.WF :=
  ⟨hb.nonneg, hb.first_dvd, hb.length_dvd, hb.pos, hb.end_le, by rw [hd]; exact hb.data⟩

/-- Copying a block into one around it. -/
theorem Block.WF.memcpy {b t : Block V} (hb : b.WF) (ht : t.WF) (hfirst : b.firstIndex ≤ t.firstIndex)
    (hend : t.endAt ≤ b.endAt) :
    ∃ d, memcpy b.data (t.firstIndex - b.firstIndex) t.data t.length = .ok d ∧
      d.length = b.data.length ∧ ∀ i, { b with data := d }.read i =
        if t.firstIndex ≤ i ∧ i < t.endAt then t.read i else b.read i := by
  have hbd := hb.data
  have htd := ht.data
  have htpos := ht.pos
  rw [Block.endAt, Block.endAt] at hend
  obtain ⟨o, ho⟩ : ∃ o : ℕ, t.firstIndex - b.firstIndex = o := ⟨_, (Int.toNat_of_nonneg (by omega)).symm⟩
  have hlen : o + t.data.length ≤ b.data.length := by omega
  have hrun : BlockSparseArray.memcpy b.data (t.firstIndex - b.firstIndex) t.data t.length =
      .ok (b.data.take o ++ t.data ++ b.data.drop (o + t.data.length)) := by
    have h₁ : t.length.toNat = t.data.length := by omega
    have h₂ : ((o : ℤ) + t.length).toNat = o + t.data.length := by omega
    rw [BlockSparseArray.memcpy, ho, if_pos (by omega), Int.toNat_natCast, h₁, h₂, List.take_length,
      Run.pure_eq_ok]
  refine ⟨_, hrun, ?_, fun i ↦ ?_⟩
  · rw [List.length_append, List.length_append, List.length_take, List.length_drop]
    omega
  · simp only [Block.read]
    by_cases hbi : b.firstIndex ≤ i
    · rw [if_pos hbi, if_pos hbi, getElem?_splice _ _ hlen]
      by_cases hti : t.firstIndex ≤ i ∧ i < t.endAt
      · have hti' := hti.2
        rw [Block.endAt] at hti'
        have hidx : (i - b.firstIndex).toNat - o = (i - t.firstIndex).toNat := by omega
        rw [if_pos hti, if_pos hti.1, if_pos (by omega), hidx]
      · have hti' := hti
        rw [Block.endAt] at hti'
        rw [if_neg hti, if_neg (by omega)]
    · rw [if_neg hbi, if_neg hbi, if_neg fun h ↦ hbi (hfirst.trans h.1)]

/-- **The copy loop** brings the entries of the merge set to the new block, and leaves other nodes as
they are. The induction is on the merge set; what is still to be copied finds `NULL`s in the new
block. -/
theorem copyBlocks_spec {new : Addr} {P N n p : Option Addr} {m : List (Addr × Block V)} {fuel : ℕ}
    {b : Block V} (hc : h.Chain p m n) (hnodup : (m.map Prod.fst).Nodup) (hsorted : Sorted m)
    (hwf : ∀ z ∈ m, z.2.WF) (hn : ∀ z ∈ m, some z.1 ≠ n) (hnew : ∀ z ∈ m, z.1 ≠ new)
    (hfuel : m.length < fuel) (hnode : h.node new = some ⟨P, N, b⟩) (hb : b.WF)
    (hrange : ∀ z ∈ m, b.firstIndex ≤ z.2.firstIndex ∧ z.2.endAt ≤ b.endAt)
    (hfree : ∀ z ∈ m, ∀ i, z.2.Contains i → b.read i = none) :
    ∃ h' d, copyBlocks new n fuel (headAddr n m) h = .ok h' ∧ d.length = b.data.length ∧
      h'.node new = some ⟨P, N, { b with data := d }⟩ ∧ h'.fresh = h.fresh ∧
      (∀ a, a ∉ m.map Prod.fst → a ≠ new → h'.node a = h.node a) ∧
      ∀ i, { b with data := d }.read i = (valueAt m i).or (b.read i) := by
  induction m generalizing h b p fuel with
  | nil =>
    obtain ⟨fuel, rfl⟩ := Nat.exists_eq_succ_of_ne_zero (Nat.ne_of_gt hfuel)
    refine ⟨h, b.data, ?_, rfl, hnode, rfl, fun _ _ _ ↦ rfl, fun i ↦ rfl⟩
    rw [headAddr_nil, copyBlocks, if_pos rfl, Run.pure_eq_ok]
  | cons t m ih =>
    obtain ⟨fuel, rfl⟩ := Nat.exists_eq_succ_of_ne_zero (Nat.ne_of_gt (Nat.zero_lt_of_lt hfuel))
    rw [List.forall_mem_cons] at hwf hn hnew hrange hfree
    rw [List.map_cons, List.nodup_cons] at hnodup
    rw [sorted_cons] at hsorted
    obtain ⟨d, hcopy, hlen, hread⟩ := hb.memcpy hwf.1 hrange.1.1 hrange.1.2
    have hne : ∀ z ∈ m, z.1 ≠ t.1 := fun z hz heq ↦ hnodup.1 (heq ▸ List.mem_map_of_mem hz)
    let h₁ : Heap (Block V) := (h.set new ⟨P, N, { b with data := d }⟩).free t.1
    have hframe : ∀ a, a ≠ t.1 → a ≠ new → h₁.node a = h.node a := fun a hat hanew ↦
      (free_node_of_ne _ hat).trans (set_node_of_ne _ hanew _)
    have hnode₁ : h₁.node new = some ⟨P, N, { b with data := d }⟩ :=
      (free_node_of_ne _ hnew.1.symm).trans (set_node_self ..)
    have hc₁ : h₁.Chain (some t.1) m n :=
      hc.2.congr fun z hz ↦ hframe _ (hne z hz) (hnew.2 z hz)
    have hfree₁ : ∀ z ∈ m, ∀ i, z.2.Contains i → { b with data := d }.read i = none := by
      intro z hz i hi
      have htz := hsorted.1 z hz
      have hz₁ := hi.1
      rw [hread, if_neg fun ht ↦ by omega, hfree.2 z hz i hi]
    obtain ⟨h', d', hrun, hlen', hnode', hfresh', hframe', hread'⟩ :=
      ih hc₁ hnodup.2 hsorted.2 hwf.2 hn.2 hnew.2 (Nat.lt_of_succ_lt_succ hfuel) hnode₁
        (hb.withData hlen) hrange.2 hfree₁
    refine ⟨h', d', ?_, hlen'.trans hlen, hnode', hfresh', fun a ha hanew ↦ ?_, fun i ↦ ?_⟩
    · rw [headAddr_cons, copyBlocks, if_neg hn.1, deref_some, Run.ok_bind, hc.1, deref_some,
        Run.ok_bind, hnode, deref_some, Run.ok_bind, hcopy, Run.ok_bind]
      exact hrun
    · rw [List.map_cons, List.mem_cons, not_or] at ha
      exact (hframe' a ha.2 hanew).trans (hframe a ha.1 hanew)
    · rw [hread' i, hread i, valueAt_cons]
      split_ifs with hti
      · -- no later block has the index
        have hlater : valueAt m i = none := valueAt_eq_none hwf.2 fun z hz hi ↦ by
          have htz := hsorted.1 z hz
          have hz₁ := hi.1
          omega
        rw [hlater, hfree.1 i hti, Option.none_or, Option.or_none, Option.or_none]
      · rw [hwf.1.read_eq_none hti, Option.none_or]

/-! ### The merge -/

/-- The cursor is on a block that has the indices from `i` up to `j`. -/
def Covers (G : Sparse V) (l : List (Addr × Block V)) (i j : ℤ) : Prop :=
  ∃ b, (G.array, b) ∈ l ∧ b.firstIndex ≤ i ∧ j ≤ b.endAt

theorem Sparse.Inv.nodup_replace {A m B : List (Addr × Block V)} (hI : G.Inv (A ++ m ++ B))
    (b : Block V) : ((A ++ (G.heap.fresh, b) :: B).map Prod.fst).Nodup := by
  have hsub : (A ++ B).Sublist (A ++ m ++ B) := by
    rw [List.append_assoc]
    exact (List.sublist_append_right m B).append_left A
  rw [List.map_append, List.map_cons, List.nodup_middle, List.nodup_cons, ← List.map_append]
  refine ⟨fun hin ↦ ?_, hI.nodup.sublist (hsub.map _)⟩
  obtain ⟨z, hz, heq⟩ := List.mem_map.1 hin
  exact (hI.fresh z (hsub.subset hz)).ne heq

/-- Replacing the run `m` of blocks by a new one that holds its entries. -/
theorem Sparse.Inv.replace {A m B : List (Addr × Block V)} (hI : G.Inv (A ++ m ++ B)) {G' : Sparse V}
    {b : Block V} (hb : b.WF) (hchain : G'.heap.Chain none (A ++ (G.heap.fresh, b) :: B) none)
    (hfresh : G'.heap.fresh = G.heap.fresh + 1) (hcursor : G'.array = G.heap.fresh)
    (hA : ∀ z ∈ A, z.2.endAt ≤ b.firstIndex) (hB : ∀ z ∈ B, b.endAt ≤ z.2.firstIndex)
    (hread : ∀ i, b.read i = valueAt m i) :
    G'.Inv (A ++ (G.heap.fresh, b) :: B) ∧
      valueAt (A ++ (G.heap.fresh, b) :: B) = valueAt (A ++ m ++ B) := by
  have hmem : ∀ z, z ∈ A ∨ z ∈ B → z ∈ A ++ m ++ B := fun z hz ↦ by
    rcases hz with hz | hz <;> simp [hz]
  have hsorted := hI.sorted
  rw [List.append_assoc, sorted_append, sorted_append] at hsorted
  refine ⟨⟨hchain, ?_, fun z hz ↦ ?_, ?_, ?_, fun z hz ↦ ?_⟩, ?_⟩
  · exact hI.nodup_replace b
  · rw [hfresh]
    rw [List.mem_append, List.mem_cons] at hz
    obtain hz | rfl | hz := hz
    · exact (hI.fresh z (hmem z (.inl hz))).trans (Nat.lt_succ_self _)
    · exact Nat.lt_succ_self _
    · exact (hI.fresh z (hmem z (.inr hz))).trans (Nat.lt_succ_self _)
  · rw [hcursor]
    simp
  · refine sorted_append.2 ⟨hsorted.1, sorted_cons.2 ⟨hB, hsorted.2.1.2.1⟩, fun z hz w hw ↦ ?_⟩
    rcases List.mem_cons.1 hw with rfl | hw
    · exact hA z hz
    · exact hsorted.2.2 z hz w (List.mem_append_right _ hw)
  · rw [List.mem_append, List.mem_cons] at hz
    obtain hz | rfl | hz := hz
    · exact hI.wf z (hmem z (.inl hz))
    · exact hb
    · exact hI.wf z (hmem z (.inr hz))
  · funext i
    simp [hread]

/-- A merge set that a merge may start from: its first block has the index, or is the first block after
the index and starts within the block that `BLOCK_SIZE` leads to. -/
structure MergeStart (A : List (Addr × Block V)) (f : Block V) (index : ℤ) : Prop where
  before : ∀ z ∈ A, ¬z.2.Contains index
  here : f.Contains index ∨ index < f.firstIndex ∧ f.firstIndex ≤ index + 32

/-- The blocks before the merge set end where the merged block starts, at the latest. -/
theorem MergeStart.endAt_le {A B : List (Addr × Block V)} {a : Addr} {f : Block V}
    (hs : MergeStart A f index) (hsorted : Sorted (A ++ (a, f) :: B))
    (hwf : ∀ z ∈ A ++ (a, f) :: B, z.2.WF) (hindex : 0 ≤ index) :
    ∀ z ∈ A, z.2.endAt ≤ blockIndex (if f.firstIndex ≤ index then f.firstIndex else index) := by
  intro z hz
  have hzf : z.2.endAt ≤ f.firstIndex := (sorted_append.1 hsorted).2.2 z hz _ List.mem_cons_self
  have hzb := (hwf z (by simp [hz])).bounds
  have hfb := (hwf (a, f) (by simp)).bounds
  have hnot := hs.before z hz
  rw [Block.Contains] at hnot
  simp only at hfb
  split_ifs with hle
  · rw [blockIndex_eq hfb.1]
    omega
  · rw [blockIndex_eq hindex]
    obtain hcon | hnext := hs.here
    · exact absurd hcon.1 hle
    · omega

/-- Copying a run into a new block around it, and linking the new block in its place. -/
theorem Sparse.Inv.copyLink {A m B : List (Addr × Block V)} {b : Block V} (hI : G.Inv (A ++ m ++ B))
    (hb : b.WF) (hnone : ∀ i, b.read i = none)
    (hrange : ∀ z ∈ m, b.firstIndex ≤ z.2.firstIndex ∧ z.2.endAt ≤ b.endAt)
    (hA : ∀ z ∈ A, z.2.endAt ≤ b.firstIndex) (hB : ∀ z ∈ B, b.endAt ≤ z.2.firstIndex) :
    ∃ h h₁ h₂ d, copyBlocks G.heap.fresh (headAddr none B) (fuel G.heap) (headAddr (headAddr none B) m)
        (G.heap.alloc ⟨lastAddr none A, headAddr none B, b⟩) = .ok h ∧
      h.node G.heap.fresh = some ⟨lastAddr none A, headAddr none B, { b with data := d }⟩ ∧
      h.setPrev (headAddr none B) G.heap.fresh = some h₁ ∧
      h₁.setNext (lastAddr none A) G.heap.fresh = some h₂ ∧
      { G with heap := h₂, array := G.heap.fresh }.Inv
        (A ++ (G.heap.fresh, { b with data := d }) :: B) ∧
      valueAt (A ++ (G.heap.fresh, { b with data := d }) :: B) = valueAt (A ++ m ++ B) := by
  have hlen := hI.length_lt_fuel
  rw [List.length_append, List.length_append] at hlen
  have hold : ∀ z ∈ A ++ m ++ B, z.1 ≠ G.heap.fresh := fun z hz ↦ (hI.fresh z hz).ne
  have hnodup := hI.nodup
  rw [List.map_append, List.map_append, List.nodup_append, List.nodup_append] at hnodup
  obtain ⟨⟨-, hnodupM, hAM⟩, hnodupB, hAMB⟩ := hnodup
  have hsorted := hI.sorted
  rw [List.append_assoc, sorted_append, sorted_append] at hsorted
  have hchain := hI.chain
  rw [chain_append, chain_append] at hchain
  obtain ⟨⟨hchainA, hchainM⟩, hchainB⟩ := hchain
  let h₀ := G.heap.alloc ⟨lastAddr none A, headAddr none B, b⟩
  have hframe₀ : ∀ z ∈ A ++ m ++ B, h₀.node z.1 = G.heap.node z.1 := fun z hz ↦
    set_node_of_ne _ (hold z hz) _
  have hnotB : ∀ z ∈ m, some z.1 ≠ headAddr none B := by
    intro z hz
    cases B with
    | nil => exact Option.some_ne_none _
    | cons w B =>
      intro heq
      exact hAMB z.1 (List.mem_append_right _ (List.mem_map_of_mem hz)) w.1 (by simp)
        (Option.some.inj heq)
  obtain ⟨h, d, hcopy, hd, hnode, hfresh, hframe, hread⟩ := copyBlocks_spec
    (hchainM.congr fun z hz ↦ hframe₀ z (by simp [hz])) hnodupM hsorted.2.1.1
    (fun z hz ↦ hI.wf z (by simp [hz])) hnotB (fun z hz ↦ hold z (by simp [hz]))
    (show m.length < fuel G.heap by omega) (set_node_self ..) hb hrange fun z _ i _ ↦ hnone i
  have hframeA : ∀ z ∈ A, h.node z.1 = G.heap.node z.1 := fun z hz ↦
    (hframe z.1 (fun hin ↦ hAM z.1 (List.mem_map_of_mem hz) z.1 hin rfl) (hold z (by simp [hz]))).trans
      (hframe₀ z (by simp [hz]))
  have hframeB : ∀ z ∈ B, h.node z.1 = G.heap.node z.1 := fun z hz ↦
    (hframe z.1 (fun hin ↦ hAMB z.1 (List.mem_append_right _ hin) z.1 (List.mem_map_of_mem hz) rfl)
      (hold z (by simp [hz]))).trans (hframe₀ z (by simp [hz]))
  have hlink : Linkable h A B G.heap.fresh { b with data := d } :=
    ⟨⟨_, hchainA.congr hframeA⟩, ⟨_, hchainB.congr hframeB⟩, hI.nodup_replace _, hnode⟩
  obtain ⟨h₁, h₂, hprev, hnext, hfresh₂, hchain₂⟩ := hlink.setPrev_setNext
  have hcopied : ∀ i, { b with data := d }.read i = valueAt m i := fun i ↦ by
    rw [hread, hnone, Option.or_none]
  obtain ⟨hInv, hvalue⟩ := hI.replace (hb.withData hd)
    (show { G with heap := h₂, array := G.heap.fresh }.heap.Chain none
      (A ++ (G.heap.fresh, { b with data := d }) :: B) none from hchain₂)
    (hfresh₂.trans hfresh) rfl hA hB hcopied
  exact ⟨h, h₁, h₂, d, hcopy, hnode, hprev, hnext, hInv, hvalue⟩

/-- **Merging from a block on.** -/
theorem Sparse.Inv.mergeFrom {A l₂ : List (Addr × Block V)} {f : Block V}
    (hI : G.Inv (A ++ (G.array, f) :: l₂)) (hs : MergeStart A f index) (hindex : 0 ≤ index)
    (hlength : 1 ≤ length) (hle : index + length ≤ maxEnd) :
    ∃ G' l', mergeFrom G index length = .ok G' ∧ G'.Inv l' ∧
      valueAt l' = valueAt (A ++ (G.array, f) :: l₂) ∧ Covers G' l' index (index + length) := by
  have hnode := hI.chain.node
  have hfb := (hI.wf (G.array, f) (by simp)).bounds
  have hlen := hI.length_lt_fuel
  have hA := hs.endAt_le hI.sorted hI.wf hindex
  have hsorted := hI.sorted
  rw [sorted_append, sorted_cons] at hsorted
  rw [List.length_append, List.length_cons] at hlen
  obtain ⟨-, -, hchain₂⟩ := chain_append.1 hI.chain
  -- the run `m`, its last block `e` and the blocks `B` after it
  obtain ⟨m, B, e, rfl, hend, hB, he, hfe, hme⟩ := mergeEnd_spec (index + length) hchain₂
    hsorted.2.1.2 (fun z hz ↦ hI.wf z (by simp [hz])) hsorted.2.1.1
    (show (_ : List _).length < fuel G.heap by omega)
  have hassoc : A ++ (G.array, f) :: (m ++ B) = A ++ (G.array, f) :: m ++ B := by simp
  rw [hassoc] at hI ⊢
  simp only at hend hfe hfb hnode
  rw [maxEnd] at hle
  have hwf : ∀ z ∈ (G.array, f) :: m, z.2.WF := fun z hz ↦
    hI.wf z (List.mem_append_left _ (List.mem_append_right _ hz))
  have hrunE : ∀ z ∈ (G.array, f) :: m, z.2.endAt ≤ e.endAt := List.forall_mem_cons.2 ⟨hfe, hme⟩
  have hsorted' := hI.sorted
  rw [List.append_assoc, sorted_append, sorted_append, sorted_cons] at hsorted'
  obtain ⟨z, hz, hze⟩ : ∃ z ∈ (G.array, f) :: m, e = z.2 := by
    obtain rfl | ⟨z, hz, rfl⟩ := he
    · exact ⟨_, List.mem_cons_self, rfl⟩
    · exact ⟨z, List.mem_cons_of_mem _ hz, rfl⟩
  have heB : ∀ w ∈ B, e.endAt ≤ w.2.firstIndex := hze ▸ hsorted'.2.1.2.2 z hz
  have heb : e.endAt ≤ 2147483616 ∧ e.endAt % 32 = 0 := by
    have := (hwf z hz).bounds
    rw [hze]
    omega
  -- the range of the merged block
  obtain ⟨I, hI₀⟩ : ∃ I, I = if f.firstIndex ≤ index then f.firstIndex else index := ⟨_, rfl⟩
  obtain ⟨L₁, hL₁⟩ : ∃ L, L = if f.firstIndex ≤ index then length + (index - I) else length := ⟨_, rfl⟩
  obtain ⟨L₂, hL₂⟩ : ∃ L, L = if index + length < e.endAt then L₁ + (e.endAt - (index + length)) else L₁ :=
    ⟨_, rfl⟩
  have hIL₁ : I + L₁ = index + length ∧ 0 ≤ I ∧ I ≤ index ∧ I ≤ f.firstIndex := by
    split_ifs at hI₀ hL₁ <;> omega
  have hIL₂ : I + L₂ = max (index + length) e.endAt ∧ L₁ ≤ L₂ := by
    split_ifs at hL₂ <;> omega
  obtain ⟨b, halloc, hb, hbfirst, hble, hblt, hbnone⟩ :=
    allocateData_spec ({ newBlock with options := f.options } : Block V) hIL₁.2.1
      (show 1 ≤ L₂ by omega) (show I + L₂ ≤ 2147483616 by omega)
  have hbb := hb.bounds
  have hbI := blockIndex_eq hIL₁.2.1
  obtain ⟨h, h₁, h₂, d, hcopy, hnew, hprev, hnext, hInv, hvalue⟩ := hI.copyLink hb hbnone
    (fun w hw ↦ by
      have hfw : f.firstIndex ≤ w.2.firstIndex := by
        rcases List.mem_cons.1 hw with rfl | hw
        · exact le_rfl
        · have := hsorted'.2.1.1.1 w hw
          simp only at this
          omega
      have := hrunE w hw
      omega)
    (fun w hw ↦ by rw [hbfirst, hI₀]; exact hA w hw)
    (fun w hw ↦ by
      have := hB w hw
      have := heB w hw
      have := (hI.wf w (by simp [hw])).bounds
      omega)
  refine ⟨_, _, ?_, hInv, hvalue, { b with data := d }, by simp, ?_, ?_⟩
  · rw [BlockSparseArray.mergeFrom, hnode, deref_some, Run.ok_bind, int32_eq (by omega), Run.ok_bind,
      hend, Run.ok_bind]
    simp only
    rw [← hI₀, ← hL₁, int32_eq (by omega), Run.ok_bind]
    change (int32 e.endAt >>= _) = _
    rw [int32_eq (by omega), Run.ok_bind, ← hL₂, int32_eq (by omega), Run.ok_bind, halloc,
      Run.ok_bind]
    rw [headAddr_cons] at hcopy
    rw [hcopy, Run.ok_bind, hnew, deref_some, Run.ok_bind, hprev, deref_some, Run.ok_bind, hnext,
      deref_some, Run.ok_bind, Run.pure_eq_ok]
  · show b.firstIndex ≤ index
    omega
  · show index + length ≤ b.endAt
    omega

/-- **`MergeBlocks`** keeps the entries. It covers the request where the request's first index has a
block, or the one `BLOCK_SIZE` further on has, and does nothing where neither has. -/
theorem Sparse.Inv.mergeBlocks (hI : G.Inv l) (hindex : 0 ≤ index) (hlength : 1 ≤ length)
    (hle : index + length ≤ maxEnd) :
    ∃ G' l', mergeBlocks G index length = .ok G' ∧ G'.Inv l' ∧ valueAt l' = valueAt l ∧
      ((∃ z ∈ l, z.2.Contains index ∨ z.2.Contains (index + blockSize)) ∧
          Covers G' l' index (index + length) ∨
        (¬∃ z ∈ l, z.2.Contains index ∨ z.2.Contains (index + blockSize)) ∧ G' = G) := by
  obtain ⟨A, y, B, hloc, hget⟩ := hI.getBlock index
  obtain ⟨hcon, hget⟩ | ⟨hcon, hget⟩ := hget
  · -- the first index has a block
    have hs : MergeStart A y.2 index :=
      ⟨fun z hz hzcon ↦ (hloc.before z hz).not_gt hzcon.2, .inl hcon⟩
    have hmove := hI.move hloc.mem
    rw [hloc.split] at hmove
    obtain ⟨G', l', hrun, hI', hvalue, hcovers⟩ := hmove.mergeFrom hs hindex hlength hle
    refine ⟨G', l', ?_, hI', hvalue.trans (by rw [hloc.split]),
      .inl ⟨⟨y, hloc.mem, .inl hcon⟩, hcovers⟩⟩
    rw [BlockSparseArray.mergeBlocks, hget, Run.ok_bind]
    exact hrun
  · have hnone := hloc.not_contains hI.sorted hI.wf hcon
    rw [maxEnd] at hle
    obtain ⟨A, y, B, hloc, hget'⟩ := hI.getBlock (index + blockSize)
    rw [BlockSparseArray.mergeBlocks, hget, Run.ok_bind]
    simp only [Bool.false_eq_true, if_false]
    rw [int32_eq (by rw [blockSize]; omega), Run.ok_bind]
    obtain ⟨hcon', hget'⟩ | ⟨hcon', hget'⟩ := hget'
    · have hs : MergeStart A y.2 index := by
        refine ⟨fun z hz ↦ hnone z (hloc.split ▸ List.mem_append_left _ hz), .inr ⟨?_, hcon'.1⟩⟩
        have hy := hnone y hloc.mem
        have hend := hcon'.2
        rw [Block.Contains] at hy
        rw [blockSize] at hend
        omega
      have hmove := hI.move hloc.mem
      rw [hloc.split] at hmove
      obtain ⟨G', l', hrun, hI', hvalue, hcovers⟩ := hmove.mergeFrom hs hindex hlength hle
      refine ⟨G', l', ?_, hI', hvalue.trans (by rw [hloc.split]),
        .inl ⟨⟨y, hloc.mem, .inr hcon'⟩, hcovers⟩⟩
      rw [hget', Run.ok_bind]
      exact hrun
    · refine ⟨G, l, by rw [hget', Run.ok_bind]; rfl, hI, rfl, .inr ⟨?_, rfl⟩⟩
      rintro ⟨z, hz, hzcon⟩
      obtain hzcon | hzcon := hzcon
      · exact absurd hzcon (hnone z hz)
      · exact absurd hzcon (hloc.not_contains hI.sorted hI.wf hcon' z hz)

end OpenImpact.BlockSparseArray
