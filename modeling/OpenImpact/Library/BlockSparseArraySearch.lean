import OpenImpact.Library.BlockSparseArrayBlocks

/-!
# Finding a block

Wherever the cursor is, `GetBlock` and `GetOrAddBlock` come to the first block that ends after the
index, or to the last block (`Located`): forward from a block that ends too early, backward from any
other.
-/

namespace OpenImpact.BlockSparseArray

open Foundation Heap

variable {V : Type} {G : Sparse V} {h : Heap (Block V)} {l l₁ l₂ : List (Addr × Block V)}
  {x y : Addr × Block V} {index : ℤ}

/-- Increasing and disjoint. -/
def Sorted (l : List (Addr × Block V)) : Prop :=
  l.Pairwise fun x y ↦ x.2.endAt ≤ y.2.firstIndex

theorem sorted_append : Sorted (l₁ ++ l₂) ↔
    Sorted l₁ ∧ Sorted l₂ ∧ ∀ x ∈ l₁, ∀ y ∈ l₂, x.2.endAt ≤ y.2.firstIndex := List.pairwise_append

theorem sorted_cons : Sorted (x :: l) ↔ (∀ y ∈ l, x.2.endAt ≤ y.2.firstIndex) ∧ Sorted l :=
  List.pairwise_cons

/-- An array in use, whose blocks are `l`. -/
structure Sparse.Inv (G : Sparse V) (l : List (Addr × Block V)) : Prop where
  chain : G.heap.Chain none l none
  nodup : (l.map Prod.fst).Nodup
  fresh : ∀ x ∈ l, x.1 < G.heap.fresh
  cursor : G.array ∈ l.map Prod.fst
  sorted : Sorted l
  wf : ∀ x ∈ l, x.2.WF

/-- `y` is the first block that ends after `index`, or the last block. -/
structure Located (l : List (Addr × Block V)) (index : ℤ) (l₁ : List (Addr × Block V))
    (y : Addr × Block V) (l₂ : List (Addr × Block V)) : Prop where
  split : l = l₁ ++ y :: l₂
  before : ∀ z ∈ l₁, z.2.endAt ≤ index
  here : index < y.2.endAt ∨ l₂ = []

theorem Located.mem (h : Located l index l₁ y l₂) : y ∈ l := by
  rw [h.split]
  exact List.mem_append_right _ List.mem_cons_self

/-! ### The loops -/

theorem forward_spec {fuel : ℕ} (hc : h.Chain none (l₁ ++ x :: l₂) none)
    (hwf : ∀ z ∈ l₁ ++ x :: l₂, z.2.WF) (hfuel : l₂.length < fuel)
    (hbefore : ∀ z ∈ l₁, z.2.endAt ≤ index) :
    ∃ m₁ y m₂, Located (l₁ ++ x :: l₂) index m₁ y m₂ ∧ forward h index fuel x.1 = .ok y.1 := by
  induction l₂ generalizing l₁ x fuel with
  | nil =>
    obtain ⟨fuel, rfl⟩ := Nat.exists_eq_succ_of_ne_zero (Nat.ne_of_gt hfuel)
    refine ⟨l₁, x, [], ⟨rfl, hbefore, .inr rfl⟩, ?_⟩
    rw [forward, hc.node, deref_some, Run.ok_bind, (hwf x (by simp)).endIndex_eq, Run.ok_bind]
    rfl
  | cons w l₂ ih =>
    obtain ⟨fuel, rfl⟩ := Nat.exists_eq_succ_of_ne_zero (Nat.ne_of_gt (Nat.zero_lt_of_lt hfuel))
    have hrun : forward h index (fuel + 1) x.1 =
        if x.2.endAt ≤ index then forward h index fuel w.1 else .ok x.1 := by
      rw [forward, hc.node, deref_some, Run.ok_bind, (hwf x (by simp)).endIndex_eq, Run.ok_bind]
      rfl
    rw [hrun]
    split_ifs with hx
    · have hassoc : l₁ ++ x :: w :: l₂ = (l₁ ++ [x]) ++ w :: l₂ := by simp
      rw [hassoc] at hc hwf ⊢
      refine ih hc hwf (Nat.lt_of_succ_lt_succ hfuel) fun z hz ↦ ?_
      rcases List.mem_append.1 hz with hz | hz
      · exact hbefore z hz
      · rwa [List.mem_singleton.1 hz]
    · exact ⟨l₁, x, _, ⟨rfl, hbefore, .inl (not_le.1 hx)⟩, rfl⟩

theorem backward_spec {fuel : ℕ} (hc : h.Chain none (l₁ ++ x :: l₂) none)
    (hsorted : Sorted (l₁ ++ x :: l₂)) (hwf : ∀ z ∈ l₁ ++ x :: l₂, z.2.WF)
    (hfuel : l₁.length < fuel) (hx : index < x.2.endAt) :
    ∃ m₁ y m₂, Located (l₁ ++ x :: l₂) index m₁ y m₂ ∧ index < y.2.endAt ∧
      backward h index fuel x.1 = .ok y.1 := by
  induction l₁ using List.reverseRecOn generalizing x l₂ fuel with
  | nil =>
    obtain ⟨fuel, rfl⟩ := Nat.exists_eq_succ_of_ne_zero (Nat.ne_of_gt hfuel)
    refine ⟨[], x, l₂, ⟨rfl, by simp, .inl hx⟩, hx, ?_⟩
    rw [backward, hc.node, deref_some, Run.ok_bind]
    rfl
  | append_singleton l₁ w ih =>
    obtain ⟨fuel, rfl⟩ := Nat.exists_eq_succ_of_ne_zero (Nat.ne_of_gt (Nat.zero_lt_of_lt hfuel))
    have hassoc : l₁ ++ [w] ++ x :: l₂ = l₁ ++ w :: x :: l₂ := by simp
    have hw : h.node w.1 = some ⟨lastAddr none l₁, some x.1, w.2⟩ := Chain.node (hassoc ▸ hc)
    have hrun : backward h index (fuel + 1) x.1 =
        if index < w.2.endAt then backward h index fuel w.1 else .ok x.1 := by
      rw [backward, hc.node, deref_some, Run.ok_bind]
      simp only [lastAddr_append, lastAddr_cons, lastAddr_nil]
      rw [hw, deref_some, Run.ok_bind, (hwf w (by simp)).endIndex_eq, Run.ok_bind]
      rfl
    rw [hrun]
    split_ifs with hlt
    · rw [hassoc] at hc hwf hsorted ⊢
      refine ih hc hsorted hwf ?_ hlt
      rw [List.length_append, List.length_singleton] at hfuel
      exact Nat.lt_of_succ_lt_succ hfuel
    · refine ⟨_, x, l₂, ⟨rfl, fun z hz ↦ ?_, .inl hx⟩, hx, rfl⟩
      rcases List.mem_append.1 hz with hz | hz
      · -- everything before `w` ends where `w` starts, at the latest
        rw [hassoc, sorted_append] at hsorted
        have hzw := hsorted.2.2 z hz w List.mem_cons_self
        obtain ⟨-, -, -, hpos, -⟩ := (hwf w (by simp)).bounds
        omega
      · rw [List.mem_singleton.1 hz]
        exact not_lt.1 hlt

/-! ### The search -/

/-- The cursor's place in the list. -/
theorem Sparse.Inv.exists_cursor (hI : G.Inv l) : ∃ l₁ c l₂, l = l₁ ++ (G.array, c) :: l₂ ∧
    G.heap.node G.array = some ⟨lastAddr none l₁, headAddr none l₂, c⟩ ∧ c.WF := by
  obtain ⟨⟨a, c⟩, hmem, rfl⟩ := List.mem_map.1 hI.cursor
  obtain ⟨l₁, l₂, hsplit⟩ := List.append_of_mem hmem
  exact ⟨l₁, c, l₂, hsplit, Chain.node (hsplit ▸ hI.chain), hI.wf _ hmem⟩

theorem Sparse.Inv.length_lt_fuel (hI : G.Inv l) : l.length < fuel G.heap :=
  Nat.lt_succ_of_le (length_le_fresh hI.nodup hI.fresh)

/-- The cursor may be on any block. -/
theorem Sparse.Inv.move (hI : G.Inv l) (hy : y ∈ l) : { G with array := y.1 }.Inv l :=
  ⟨hI.chain, hI.nodup, hI.fresh, List.mem_map_of_mem hy, hI.sorted, hI.wf⟩

/-- **The search** from the cursor. -/
theorem Sparse.Inv.seek (hI : G.Inv l) (index : ℤ) {n : Node (Block V)}
    (hn : G.heap.node G.array = some n) :
    ∃ m₁ y m₂, Located l index m₁ y m₂ ∧
      if n.val.endAt ≤ index then forward G.heap index (fuel G.heap) G.array = .ok y.1
      else index < y.2.endAt ∧ backward G.heap index (fuel G.heap) G.array = .ok y.1 := by
  obtain ⟨l₁, c, l₂, hsplit, hnode, -⟩ := hI.exists_cursor
  obtain rfl := Option.some.inj (hnode.symm.trans hn)
  have hlen := hI.length_lt_fuel
  obtain ⟨hc, -, -, -, hsorted, hwf⟩ := hI
  rw [hsplit] at hlen hc hsorted hwf ⊢
  rw [List.length_append, List.length_cons] at hlen
  split_ifs with he
  · refine forward_spec (x := (G.array, c)) hc hwf (by omega) fun z hz ↦ ?_
    have hzc := (sorted_append.1 hsorted).2.2 z hz _ List.mem_cons_self
    obtain ⟨-, -, -, hpos, -⟩ := (hwf (G.array, c) (by simp)).bounds
    simp only at hzc hpos he
    omega
  · exact backward_spec (x := (G.array, c)) hc hsorted hwf (by omega) (not_le.1 he)

/-- A block located for the index that does not have it: no block has it. -/
theorem Located.not_contains (hloc : Located l index l₁ y l₂) (hsorted : Sorted l)
    (hwf : ∀ z ∈ l, z.2.WF) (hy : ¬y.2.Contains index) : ∀ z ∈ l, ¬z.2.Contains index := by
  obtain ⟨rfl, hbefore, hhere⟩ := hloc
  rw [sorted_append, sorted_cons] at hsorted
  rintro z hz ⟨hfirst, hlt⟩
  rcases List.mem_append.1 hz with hmem | hmem
  · have := hbefore z hmem
    omega
  rcases List.mem_cons.1 hmem with rfl | hmem
  · exact hy ⟨hfirst, hlt⟩
  · have hyz := hsorted.2.1.1 z hmem
    obtain hidx | rfl := hhere
    · exact hy ⟨by have := (hwf y (by simp)).bounds; omega, hidx⟩
    · simp at hmem

theorem Located.valueAt_of_contains (hloc : Located l index l₁ y l₂) (hsorted : Sorted l)
    (hwf : ∀ z ∈ l, z.2.WF) (hy : y.2.Contains index) : valueAt l index = y.2.read index := by
  obtain ⟨rfl, hbefore, -⟩ := hloc
  rw [sorted_append, sorted_cons] at hsorted
  have hleft : valueAt l₁ index = none := valueAt_eq_none (fun z hz ↦ hwf z (by simp [hz]))
    fun z hz hcon ↦ (hbefore z hz).not_gt hcon.2
  have hright : valueAt l₂ index = none := valueAt_eq_none (fun z hz ↦ hwf z (by simp [hz]))
    fun z hz hcon ↦ by
      have := hsorted.2.1.1 z hz
      have := hcon.1
      have := hy.2
      omega
  rw [valueAt_append, valueAt_cons, hleft, hright, Option.none_or, Option.or_none]

theorem prevEndsBy_eq (hc : h.Chain none (l₁ ++ l₂) none) (hwf : ∀ z ∈ l₁, z.2.WF)
    (hbefore : ∀ z ∈ l₁, z.2.endAt ≤ index) : prevEndsBy h index (lastAddr none l₁) = .ok true := by
  rcases l₁.eq_nil_or_concat with rfl | ⟨l₁, w, rfl⟩
  · rfl
  · rw [List.concat_eq_append] at hc hwf hbefore ⊢
    have hassoc : l₁ ++ [w] ++ l₂ = l₁ ++ w :: l₂ := by simp
    simp only [lastAddr_append, lastAddr_cons, lastAddr_nil]
    rw [prevEndsBy, Chain.node (hassoc ▸ hc), deref_some, Run.ok_bind,
      (hwf w (by simp)).endIndex_eq, Run.ok_bind, decide_eq_true (hbefore w (by simp))]
    rfl

/-- **`GetBlock`** finds the block that has the index, if there is one. -/
theorem Sparse.Inv.getBlock (hI : G.Inv l) (index : ℤ) :
    ∃ m₁ y m₂, Located l index m₁ y m₂ ∧
      (y.2.Contains index ∧ getBlock G index = .ok (true, { G with array := y.1 }) ∨
        ¬y.2.Contains index ∧ getBlock G index = .ok (false, G)) := by
  obtain ⟨l₁, c, l₂, hsplit, hnode, hc⟩ := hI.exists_cursor
  rw [BlockSparseArray.getBlock, hnode, deref_some, Run.ok_bind, hc.endIndex_eq, Run.ok_bind]
  split_ifs with hout he
  · obtain ⟨m₁, y, m₂, hloc, hrun⟩ := hI.seek index hnode
    have hy := hI.wf y hloc.mem
    rw [if_pos he] at hrun
    refine ⟨m₁, y, m₂, hloc, ?_⟩
    rw [hrun, Run.ok_bind, Chain.node (hloc.split ▸ hI.chain), deref_some, Run.ok_bind,
      hy.endIndex_eq, Run.ok_bind]
    by_cases hcon : y.2.Contains index
    · have hin : ¬(index < y.2.firstIndex ∨ y.2.endAt ≤ index ∧ headAddr none m₂ = none) :=
        fun h ↦ h.elim hcon.1.not_gt fun h ↦ h.1.not_gt hcon.2
      exact .inl ⟨hcon, if_neg hin⟩
    · have hnot : index < y.2.firstIndex ∨ y.2.endAt ≤ index ∧ headAddr none m₂ = none := by
        rw [Block.Contains, not_and_or, not_le, not_lt] at hcon
        exact hcon.imp_right fun hend ↦ ⟨hend, by
          rw [hloc.here.resolve_left hend.not_gt, headAddr_nil]⟩
      exact .inr ⟨hcon, if_pos hnot⟩
  · obtain ⟨m₁, y, m₂, hloc, hrun⟩ := hI.seek index hnode
    have hy := hI.wf y hloc.mem
    rw [if_neg he] at hrun
    refine ⟨m₁, y, m₂, hloc, ?_⟩
    have hchain := hloc.split ▸ hI.chain
    have hlow := prevEndsBy_eq hchain
      (fun z hz ↦ hI.wf z (hloc.split ▸ List.mem_append_left _ hz)) hloc.before
    rw [hrun.2, Run.ok_bind, hchain.node, deref_some, Run.ok_bind]
    simp only
    rw [hlow, Run.ok_bind, hy.endIndex_eq, Run.ok_bind]
    by_cases hcon : y.2.Contains index
    · have hin : ¬(index < y.2.firstIndex ∧ true = true ∨ y.2.endAt ≤ index) :=
        fun h ↦ h.elim (fun h ↦ hcon.1.not_gt h.1) hcon.2.not_ge
      exact .inl ⟨hcon, if_neg hin⟩
    · have hnot : index < y.2.firstIndex ∧ true = true ∨ y.2.endAt ≤ index := by
        rw [Block.Contains, not_and_or, not_le, not_lt] at hcon
        exact hcon.imp_left fun hfirst ↦ ⟨hfirst, rfl⟩
      exact .inr ⟨hcon, if_pos hnot⟩
  · rw [not_or, not_lt, not_le] at hout
    have hsorted := hI.sorted
    rw [hsplit, sorted_append] at hsorted
    refine ⟨l₁, (G.array, c), l₂, ⟨hsplit, fun z hz ↦ ?_, .inl hout.2⟩, .inl ⟨hout, rfl⟩⟩
    exact (hsorted.2.2 z hz _ List.mem_cons_self).trans hout.1

end OpenImpact.BlockSparseArray
