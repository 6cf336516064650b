import OpenImpact.Library.BlockSparseArrayCompact
import OpenImpact.Library.BlockSparseArrayPrepare

/-!
# Compacting an array

The list that `BlockSparseArrayCompact` leaves is made of the blocks from the cursor on. Its first block
keeps its link back when it is full, and its last one its link on (`ListDone.front`, `ListDone.back`), and
nothing is left where there are no values. So an array is compacted as it should be exactly when it is
`Compactable` (`compact_iff`).

The theorem is an equivalence at every array that calls reach, with any cursor, compactions of
compactable arrays included (`Reached`). `Compactable` is about the contents of the blocks and the
place of the cursor only. It rests on `ListDone`, what the loop over the blocks has done when it is
past some of them. What the array holds after a compaction that was not right is not described: its
links lead to freed blocks.
-/

namespace OpenImpact.BlockSparseArray

open Foundation Heap

variable {V : Type} {G : Sparse V} {h : Heap (Block V)} {l o R e : List (Addr × Block V)}
  {st st₀ : Compacting V} {array : Addr} {p n prev : Option Addr}

/-- No entry of the block has a value. -/
def Block.Blank (b : Block V) : Prop := ∀ i, b.read i = none

theorem Block.Full.exists_read {b : Block V} (hfull : b.Full) (hb : b.WF) : ∃ i, b.read i ≠ none := by
  have hbb := hb.bounds
  obtain ⟨i, -, -, hi⟩ := hfull b.firstIndex hb.first_dvd le_rfl (by rw [blockSize]; omega)
  exact ⟨i, hi⟩

theorem Block.Full.not_blank {b : Block V} (hfull : b.Full) (hb : b.WF) : ¬b.Blank := fun hblank ↦ by
  obtain ⟨i, hi⟩ := hfull.exists_read hb
  exact hi (hblank i)

/-- Full blocks are there for values. -/
theorem eq_nil_iff_of_full (hfull : ∀ y ∈ e, y.2.WF ∧ y.2.Full) :
    e = [] ↔ ∀ i, valueAt e i = none := by
  constructor
  · rintro rfl i
    exact valueAt_nil i
  · intro hnone
    refine List.eq_nil_iff_forall_not_mem.2 fun y hy ↦ ?_
    obtain ⟨i, hi⟩ := (hfull y hy).2.exists_read (hfull y hy).1
    exact hi (List.findSome?_eq_none_iff.1 (hnone i) y hy)

theorem valueAt_eq_none_iff_blank : (∀ i, valueAt l i = none) ↔ ∀ x ∈ l, x.2.Blank :=
  ⟨fun h x hx i ↦ List.findSome?_eq_none_iff.1 (h i) x hx,
    fun h i ↦ List.findSome?_eq_none_iff.2 fun x hx ↦ h x hx i⟩

/-! ### The loop over the blocks -/

/-- What has become of the blocks `R`, the first of which is linked back to `prev`: the blocks `e` that
have been put after `o`. -/
structure ListDone (st₀ : Compacting V) (array : Addr) (o : List (Addr × Block V)) (p n prev : Option Addr)
    (R e : List (Addr × Block V)) (st : Compacting V) (p' n' : Option Addr) : Prop where
  built : Built st array (o ++ e) p' n'
  frame : ∀ y, y ∉ o.map Prod.fst → y ∉ R.map Prod.fst → y < st₀.heap.fresh →
    st.heap.node y = st₀.heap.node y
  freed : ∀ x ∈ R, x.2.Blank → st.heap.node x.1 = none
  wf : ∀ y ∈ e, y.2.WF ∧ y.2.Full ∧ ∃ x ∈ R, x.2.firstIndex ≤ y.2.firstIndex ∧ y.2.endAt ≤ x.2.endAt
  sorted : Sorted e
  value : valueAt e = valueAt R
  link_front : o ≠ [] → p' = p
  link_back : e = [] → n' = n
  front : o = [] → ∀ E x M, R = E ++ x :: M → (∀ y ∈ E, y.2.Blank) → ¬x.2.Blank →
    (x.2.Full → p' = lastAddr prev E) ∧ (¬x.2.Full → p' = none)
  back : ∀ M x E, R = M ++ x :: E → (∀ y ∈ E, y.2.Blank) → ¬x.2.Blank →
    (x.2.Full → n' = headAddr none E) ∧ (¬x.2.Full → n' = none)

theorem ListDone.eq_nil_iff {p' n' : Option Addr} (hd : ListDone st₀ array o p n prev R e st p' n') :
    e = [] ↔ ∀ x ∈ R, x.2.Blank := by
  rw [eq_nil_iff_of_full fun y hy ↦ ⟨(hd.wf y hy).1, (hd.wf y hy).2.1⟩, hd.value,
    valueAt_eq_none_iff_blank]

theorem BlockDone.eq_nil_iff {x : Addr × Block V} {pa na : Option Addr}
    (hd : BlockDone st₀ array o p n x pa na e st) : e = [] ↔ x.2.Blank := by
  rw [eq_nil_iff_of_full fun y hy ↦ ⟨(hd.wf y hy).1, (hd.wf y hy).2.1⟩, hd.value]
  rfl

/-- The links of the list after a block. -/
theorem BlockDone.exists_built {x : Addr × Block V} {pa na : Option Addr}
    (hd : BlockDone st₀ array o p n x pa na e st) (hx : x.2.WF) :
    ∃ p' n', Built st array (o ++ e) p' n' ∧ (o ≠ [] → p' = p) ∧ (x.2.Blank → n' = n) ∧
      (o = [] → ¬x.2.Blank → (x.2.Full → p' = pa) ∧ (¬x.2.Full → p' = none)) ∧
      (¬x.2.Blank → (x.2.Full → n' = na) ∧ (¬x.2.Full → n' = none)) := by
  have hblank := hd.eq_nil_iff
  obtain ⟨rfl, hB, -⟩ | ⟨hne, hfull, hB⟩ | ⟨hne, hfull, hB⟩ := hd.links
  · have hx' := hblank.1 rfl
    rw [← List.append_nil o] at hB
    exact ⟨p, n, hB, fun _ ↦ rfl, fun _ ↦ rfl, fun _ h ↦ absurd hx' h, fun h ↦ absurd hx' h⟩
  · refine ⟨_, _, hB, fun ho ↦ if_neg (by simpa using ho), fun h ↦ absurd h (hfull.not_blank hx),
      fun ho _ ↦ ⟨fun _ ↦ if_pos (by simp [ho]), fun h ↦ absurd hfull h⟩,
      fun _ ↦ ⟨fun _ ↦ rfl, fun h ↦ absurd hfull h⟩⟩
  · refine ⟨_, _, hB, fun ho ↦ if_neg (by simpa using ho), fun h ↦ absurd (hblank.2 h) hne,
      fun ho _ ↦ ⟨fun h ↦ absurd h hfull, fun _ ↦ if_pos (by simp [ho])⟩,
      fun _ ↦ ⟨fun h ↦ absurd h hfull, fun _ ↦ rfl⟩⟩

/-- The blocks that are still to come. -/
structure Ahead (st : Compacting V) (o : List (Addr × Block V)) (prev : Option Addr)
    (R : List (Addr × Block V)) : Prop where
  chain : st.heap.Chain prev R none
  nodup : (R.map Prod.fst).Nodup
  notMem : ∀ x ∈ R, x.1 ∉ o.map Prod.fst
  fresh : ∀ x ∈ R, x.1 < st.heap.fresh
  wf : ∀ x ∈ R, x.2.WF
  sorted : Sorted R

/-- One block less is ahead. -/
theorem Ahead.tail {x : Addr × Block V} {pa na : Option Addr} (ha : Ahead st₀ o prev (x :: R))
    (hd : BlockDone st₀ array o p n x pa na e st) : Ahead st (o ++ e) (some x.1) R := by
  have hnodup := ha.nodup
  rw [List.map_cons, List.nodup_cons] at hnodup
  have hne : ∀ y ∈ R, y.1 ≠ x.1 := fun y hy heq ↦ hnodup.1 (heq ▸ List.mem_map_of_mem hy)
  have hin : ∀ y ∈ R, y ∈ x :: R := fun y hy ↦ List.mem_cons_of_mem _ hy
  refine ⟨ha.chain.2.congr fun y hy ↦ hd.frame y.1 (ha.notMem y (hin y hy)) (hne y hy)
    (ha.fresh y (hin y hy)), hnodup.2, fun y hy hmem ↦ ?_,
    fun y hy ↦ (ha.fresh y (hin y hy)).trans_le hd.fresh_le, fun y hy ↦ ha.wf y (hin y hy),
    (sorted_cons.1 ha.sorted).2⟩
  rw [List.map_append, List.mem_append] at hmem
  obtain ⟨z, hz, heq⟩ := List.mem_map.1 (hmem.resolve_left (ha.notMem y (hin y hy)))
  obtain hzx | hzfresh := hd.addr z hz
  · exact hne y hy (heq.symm.trans hzx)
  · exact (ha.fresh y (hin y hy)).not_ge (heq ▸ hzfresh)

/-- **The loop over the blocks**, by induction on what is ahead. -/
theorem compactBlocks_spec {fuel : ℕ} (hB : Built st₀ array o p n) (ha : Ahead st₀ o prev R)
    (hfuel : R.length < fuel) :
    ∃ e st p' n', compactBlocks fuel (headAddr none R) st₀ = .ok st ∧
      ListDone st₀ array o p n prev R e st p' n' := by
  induction R generalizing st₀ o p n prev fuel with
  | nil =>
    obtain ⟨fuel, rfl⟩ := Nat.exists_eq_succ_of_ne_zero (Nat.ne_of_gt hfuel)
    rw [← List.append_nil o] at hB
    exact ⟨[], st₀, p, n, rfl, hB, fun _ _ _ _ ↦ rfl, by simp, by simp, List.Pairwise.nil, rfl,
      fun _ ↦ rfl, fun _ ↦ rfl, by simp, by simp⟩
  | cons x R ih =>
    obtain ⟨fuel, rfl⟩ := Nat.exists_eq_succ_of_ne_zero (Nat.ne_of_gt (Nat.zero_lt_of_lt hfuel))
    have hx := ha.wf x List.mem_cons_self
    have hxo := ha.notMem x List.mem_cons_self
    have hxfresh := ha.fresh x List.mem_cons_self
    -- this block, and then what is ahead, from the list that this block leaves
    obtain ⟨e₁, st₁, hrun₁, hd₁⟩ := compactBlock_spec hB hx ha.chain.1 hxo hxfresh
    obtain ⟨p₁, n₁, hB₁, hp₁, hn₁, hfront₁, hback₁⟩ := hd₁.exists_built hx
    obtain ⟨e₂, st₂, p₂, n₂, hrun₂, hd₂⟩ := ih hB₁ (ha.tail hd₁) (Nat.lt_of_succ_lt_succ hfuel)
    have hnil₁ : e₁ = [] ↔ x.2.Blank := hd₁.eq_nil_iff
    have hnodup := ha.nodup
    rw [List.map_cons, List.nodup_cons] at hnodup
    refine ⟨e₁ ++ e₂, st₂, p₂, n₂, ?_, ?_, fun y hyo hyR hlt ↦ ?_, fun y hy hblank ↦ ?_, fun y hy ↦ ?_, ?_,
      ?_, fun ho ↦ ?_, fun he ↦ ?_, fun ho E y M hR hE hy ↦ ?_, fun M y E hR hE hy ↦ ?_⟩
    · rw [headAddr_cons, compactBlocks, ha.chain.1, deref_some, Run.ok_bind, hrun₁, Run.ok_bind]
      exact hrun₂
    · rw [← List.append_assoc]
      exact hd₂.built
    · rw [List.map_cons, List.mem_cons, not_or] at hyR
      have hyo₁ : y ∉ (o ++ e₁).map Prod.fst := fun hmem ↦ by
        rw [List.map_append, List.mem_append] at hmem
        obtain ⟨z, hz, rfl⟩ := List.mem_map.1 (hmem.resolve_left hyo)
        obtain hzx | hzfresh := hd₁.addr z hz
        · exact hyR.1 hzx
        · exact hlt.not_ge hzfresh
      exact (hd₂.frame y hyo₁ hyR.2 (hlt.trans_le hd₁.fresh_le)).trans (hd₁.frame y hyo hyR.1 hlt)
    · rcases List.mem_cons.1 hy with rfl | hy
      · -- a freed block is not there for the rest of the loop
        obtain rfl := hnil₁.2 hblank
        obtain ⟨-, -, hfreed⟩ | ⟨hne, -⟩ | ⟨hne, -⟩ := hd₁.links
        · rw [← hfreed]
          exact hd₂.frame y.1 (by rwa [List.append_nil]) hnodup.1 (hxfresh.trans_le hd₁.fresh_le)
        · exact absurd rfl hne
        · exact absurd rfl hne
      · exact hd₂.freed y hy hblank
    · rcases List.mem_append.1 hy with hy | hy
      · obtain ⟨hwf, hfull, hlo, hhi⟩ := hd₁.wf y hy
        exact ⟨hwf, hfull, x, List.mem_cons_self, hlo, hhi⟩
      · obtain ⟨hwf, hfull, z, hz, hin⟩ := hd₂.wf y hy
        exact ⟨hwf, hfull, z, List.mem_cons_of_mem _ hz, hin⟩
    · refine sorted_append.2 ⟨hd₁.sorted, hd₂.sorted, fun y hy z hz ↦ ?_⟩
      obtain ⟨-, -, -, hend⟩ := hd₁.wf y hy
      obtain ⟨-, -, w, hw, hfirst, -⟩ := hd₂.wf z hz
      exact (hend.trans ((sorted_cons.1 ha.sorted).1 w hw)).trans hfirst
    · funext i
      rw [valueAt_append, valueAt_cons, hd₁.value, hd₂.value]
    · rw [hd₂.link_front (by simp [ho]), hp₁ ho]
    · obtain ⟨he₁, he₂⟩ := List.append_eq_nil_iff.1 he
      rw [hd₂.link_back he₂, hn₁ (hnil₁.1 he₁)]
    · rcases E with - | ⟨w, E⟩
      · -- the first block with a value is this one
        obtain ⟨rfl, rfl⟩ := List.cons.inj hR
        have hne : o ++ e₁ ≠ [] := fun heq ↦ hy (hnil₁.1 (List.append_eq_nil_iff.1 heq).2)
        rw [hd₂.link_front hne]
        have hlink := hfront₁ ho hy
        exact hlink
      · obtain ⟨rfl, rfl⟩ := List.cons.inj hR
        rw [List.forall_mem_cons] at hE
        have he₁ := hnil₁.2 hE.1
        exact hd₂.front (by rw [ho, he₁]; rfl) E y M rfl hE.2 hy
    · rcases M with - | ⟨w, M⟩
      · -- the last block with a value is this one
        obtain ⟨rfl, rfl⟩ := List.cons.inj hR
        rw [hd₂.link_back (hd₂.eq_nil_iff.2 hE)]
        exact hback₁ hy
      · obtain ⟨rfl, rfl⟩ := List.cons.inj hR
        exact hd₂.back M y E rfl hE hy

/-! ### Compacting -/

/-- Everything there is to know about the array after `BlockSparseArrayCompact`. -/
theorem Sparse.Inv.compact {l₁ l₂ : List (Addr × Block V)} {c : Block V}
    (hI : G.Inv (l₁ ++ (G.array, c) :: l₂)) :
    ∃ e st st₀ p n, BlockSparseArray.compact G = .ok { G with heap := st.heap, array := st.array } ∧
      ListDone st₀ G.array [] none none (lastAddr none l₁) ((G.array, c) :: l₂) e st p n := by
  have hnodup := hI.nodup
  rw [List.map_append, List.nodup_append] at hnodup
  have hin : ∀ x ∈ (G.array, c) :: l₂, x ∈ l₁ ++ (G.array, c) :: l₂ :=
    fun _ hx ↦ List.mem_append_right _ hx
  have hlen := hI.length_lt_fuel
  rw [List.length_append] at hlen
  obtain ⟨e, st, p, n, hrun, hd⟩ := @compactBlocks_spec _ [] ((G.array, c) :: l₂)
    ⟨G.heap, G.array, none, 0, 0, false, false⟩ G.array none none _ _
    ⟨trivial, List.nodup_nil, by simp, rfl, rfl⟩
    ⟨(chain_append.1 hI.chain).2, hnodup.2.1, by simp, fun x hx ↦ hI.fresh x (hin x hx),
      fun x hx ↦ hI.wf x (hin x hx), (sorted_append.1 hI.sorted).2.1⟩
    (show _ < fuel G.heap by omega)
  refine ⟨e, st, _, p, n, ?_, hd⟩
  rw [BlockSparseArray.compact]
  rw [headAddr_cons] at hrun
  rw [hrun]
  rfl

/-- `BlockSparseArrayCompact` does what it is for: each entry reads as before, and the cursor is on the
first block of a list that is in order, and each part of each of its blocks has a value. -/
def CompactsRight (G : Sparse V) : Prop :=
  ∃ G', compact G = .ok G' ∧
    (∀ i, 0 ≤ i → ∃ v G₁ G₂, get G i = .ok (v, G₁) ∧ get G' i = .ok (v, G₂)) ∧
    ∃ l, IsBlocks G' l ∧ headAddr none l = some G'.array ∧
      l.Pairwise (fun x y ↦ x.2.firstIndex < y.2.firstIndex ∧ x.2.endAt ≤ y.2.firstIndex) ∧
      ∀ x ∈ l, x.2.Full

/-- There are values, and none before the cursor. If the first block with a value, or the last one, is full
then it has that place in the whole list. -/
structure Compactable (l : List (Addr × Block V)) (array : Addr) : Prop where
  value : ∃ x ∈ l, ¬x.2.Blank
  cursor : ∀ l₁ c l₂, l = l₁ ++ (array, c) :: l₂ → ∀ x ∈ l₁, x.2.Blank
  first : ∀ l₁ x l₂, l = l₁ ++ x :: l₂ → x.2.Full → (∀ y ∈ l₁, y.2.Blank) → l₁ = []
  last : ∀ l₁ x l₂, l = l₁ ++ x :: l₂ → x.2.Full → (∀ y ∈ l₂, y.2.Blank) → l₂ = []

/-- A walk on from the first node of a chain does not come to a node that is not there. -/
theorem node_ne_none_of_chain {a : Addr} (ho : h.Chain p o (some a)) {p' : Option Addr}
    (hl : h.Chain p' l none) (hne : o ≠ []) (hhead : headAddr none o = headAddr none l) :
    h.node a ≠ none := by
  induction o generalizing p p' l with
  | nil => exact absurd rfl hne
  | cons x o ih =>
    rcases l with - | ⟨y, l⟩
    · exact absurd hhead (Option.some_ne_none _)
    have hxy : x.1 = y.1 := Option.some.inj hhead
    have hnode := ho.1.symm.trans (hxy ▸ hl.1)
    have hnext : headAddr (some a) o = headAddr none l := congrArg Node.next (Option.some.inj hnode)
    rcases o with - | ⟨z, o⟩
    · -- the link on from the last node
      rcases l with - | ⟨w, l⟩
      · exact absurd hnext (Option.some_ne_none _)
      · rw [Option.some.inj hnext, hl.2.1]
        exact Option.some_ne_none _
    · exact ih ho.2 hl.2 (by simp) hnext

/-- The last member with a property. -/
theorem exists_last {α : Type} {P : α → Prop} {l : List α} (h : ∃ x ∈ l, P x) :
    ∃ M x E, l = M ++ x :: E ∧ P x ∧ ∀ y ∈ E, ¬P y := by
  induction l with
  | nil => simp at h
  | cons z l ih =>
    rcases Classical.em (∃ x ∈ l, P x) with hl | hl
    · obtain ⟨M, x, E, rfl, hx, hE⟩ := ih hl
      exact ⟨z :: M, x, E, rfl, hx, hE⟩
    · obtain ⟨x, hx, hP⟩ := h
      have hxz : x = z := (List.mem_cons.1 hx).resolve_right fun hx ↦ hl ⟨x, hx, hP⟩
      exact ⟨[], z, l, rfl, hxz ▸ hP, fun y hy hP ↦ hl ⟨y, hy, hP⟩⟩

/-- The first member with a property. -/
theorem exists_first {α : Type} {P : α → Prop} {l : List α} (h : ∃ x ∈ l, P x) :
    ∃ E x M, l = E ++ x :: M ∧ P x ∧ ∀ y ∈ E, ¬P y := by
  obtain ⟨M, x, E, hl, hx, hE⟩ := exists_last (l := l.reverse) (P := P) (by simpa using h)
  refine ⟨E.reverse, x, M.reverse, ?_, hx, fun y hy ↦ hE y (List.mem_reverse.1 hy)⟩
  have := congrArg List.reverse hl
  simpa using this

/-- A split at a member that the list's first part does not have. -/
theorem exists_split_of_append {α : Type} {A R l₁ l₂ : List α} {x : α} (h : A ++ R = l₁ ++ x :: l₂)
    (hx : x ∉ A) : ∃ M, l₁ = A ++ M ∧ R = M ++ x :: l₂ := by
  obtain ⟨M, hl₁, hR⟩ | ⟨M, hA, hl₂⟩ := List.append_eq_append_iff.1 h
  · exact ⟨M, hl₁, hR⟩
  · rcases M with - | ⟨y, M⟩
    · exact ⟨[], by simpa using hA.symm, hl₂.symm⟩
    · obtain ⟨rfl, -⟩ := List.cons.inj hl₂
      exact absurd (by simp [hA]) hx

section Compactable

variable {l₁ l₂ : List (Addr × Block V)} {c : Block V}

/-- **A compactable array** is compacted as it should be, and holds the same map. -/
theorem Compactable.compact (hI : G.Inv (l₁ ++ (G.array, c) :: l₂))
    (hC : Compactable (l₁ ++ (G.array, c) :: l₂) G.array) :
    ∃ G' l', BlockSparseArray.compact G = .ok G' ∧ G'.Inv l' ∧
      valueAt l' = valueAt (l₁ ++ (G.array, c) :: l₂) ∧ headAddr none l' = some G'.array ∧
      ∀ x ∈ l', x.2.Full := by
  obtain ⟨e, st, st₀, p, n, hrun, hd⟩ := hI.compact
  have hbefore := hC.cursor l₁ c l₂ rfl
  have hvalue : ∃ x ∈ (G.array, c) :: l₂, ¬x.2.Blank := by
    obtain ⟨x, hx, hne⟩ := hC.value
    exact ⟨x, (List.mem_append.1 hx).resolve_left fun hx ↦ hne (hbefore x hx), hne⟩
  have hp : p = none := by
    obtain ⟨E, x, M, hR, hx, hE⟩ := exists_first hvalue
    have hE' : ∀ y ∈ E, y.2.Blank := fun y hy ↦ not_not.1 (hE y hy)
    obtain ⟨hfull, hnot⟩ := hd.front rfl E x M hR hE' hx
    rcases Classical.em x.2.Full with hxf | hxf
    · have hnil := hC.first (l₁ ++ E) x M (by rw [hR, List.append_assoc]) hxf fun y hy ↦
        (List.mem_append.1 hy).elim (hbefore y) (hE' y)
      rw [hfull hxf, ← lastAddr_append, hnil, lastAddr_nil]
    · exact hnot hxf
  have hn : n = none := by
    obtain ⟨M, x, E, hR, hx, hE⟩ := exists_last hvalue
    have hE' : ∀ y ∈ E, y.2.Blank := fun y hy ↦ not_not.1 (hE y hy)
    obtain ⟨hfull, hnot⟩ := hd.back M x E hR hE' hx
    rcases Classical.em x.2.Full with hxf | hxf
    · rw [hfull hxf, hC.last (l₁ ++ M) x E (by rw [hR, List.append_assoc]) hxf hE', headAddr_nil]
    · exact hnot hxf
  have hne : e ≠ [] := fun he ↦ by
    obtain ⟨x, hx, hne⟩ := hvalue
    exact hne (hd.eq_nil_iff.1 he x hx)
  obtain ⟨y, e, rfl⟩ := List.exists_cons_of_ne_nil hne
  have hB := hd.built
  rw [List.nil_append, hp, hn] at hB
  have harray : st.array = y.1 := hB.array
  refine ⟨_, y :: e, hrun, ⟨hB.chain, hB.nodup, hB.fresh, ?_, hd.sorted, fun z hz ↦ (hd.wf z hz).1⟩, ?_, ?_,
    fun z hz ↦ (hd.wf z hz).2.1⟩
  · simp [harray]
  · funext i
    rw [hd.value, valueAt_append, valueAt_eq_none_iff_blank.2 hbefore i, Option.none_or]
  · rw [headAddr_cons, harray]

/-- **The links of a list that is as it should be** lead out of it neither way, and no block without values
is behind its last full block. -/
theorem ListDone.closed {n' p' : Option Addr} {R : List (Addr × Block V)}
    (hd : ListDone st₀ array [] none none prev R e st p' n') (hmem : array ∈ R.map Prod.fst)
    (hchain : st.heap.Chain none l none) (hhead : headAddr none l = some st.array) :
    e ≠ [] ∧ p' = none ∧ n' = none ∧
      ∀ M x E, R = M ++ x :: E → (∀ y ∈ E, y.2.Blank) → x.2.Full → x.2.WF → E = [] := by
  have hB := hd.built
  rw [List.nil_append] at hB
  rcases l with - | ⟨z, l⟩
  · exact absurd hhead (Option.some_ne_none _).symm
  have hz : z.1 = st.array := Option.some.inj hhead
  have hne : e ≠ [] := by
    rintro rfl
    obtain ⟨x, hx, rfl⟩ := List.mem_map.1 hmem
    have hfreed := hd.freed x hx (hd.eq_nil_iff.1 rfl x hx)
    rw [← show st.array = x.1 from hB.array, ← hz, hchain.1] at hfreed
    exact absurd hfreed (Option.some_ne_none _)
  have hheads : headAddr none e = headAddr none (z :: l) := by
    obtain ⟨y, e, rfl⟩ := List.exists_cons_of_ne_nil hne
    rw [hhead]
    exact congrArg some hB.array.symm
  have hp : p' = none := by
    obtain ⟨y, e, rfl⟩ := List.exists_cons_of_ne_nil hne
    have hyz : y.1 = z.1 := Option.some.inj hheads
    have hnode := hB.chain.1.symm.trans (hyz ▸ hchain.1)
    exact congrArg Node.prev (Option.some.inj hnode)
  have hback : ∀ M x E, R = M ++ x :: E → (∀ y ∈ E, y.2.Blank) → x.2.Full → x.2.WF → E = [] := by
    intro M x E hR hE hfull hx
    have hn := (hd.back M x E hR hE (hfull.not_blank hx)).1 hfull
    rcases E with - | ⟨y, E⟩
    · rfl
    · rw [headAddr_cons] at hn
      exact absurd (hd.freed y (by simp [hR]) (hE y List.mem_cons_self))
        (node_ne_none_of_chain (hn ▸ hB.chain) hchain hne hheads)
  have hvalue : ∃ x ∈ R, ¬x.2.Blank := by
    by_contra hcon
    refine hne (hd.eq_nil_iff.2 fun x hx ↦ ?_)
    exact not_not.1 fun hblank ↦ hcon ⟨x, hx, hblank⟩
  refine ⟨hne, hp, ?_, hback⟩
  obtain ⟨M, x, E, hR, hx, hE⟩ := exists_last hvalue
  have hE' : ∀ y ∈ E, y.2.Blank := fun y hy ↦ not_not.1 (hE y hy)
  obtain ⟨hfull, hnot⟩ := hd.back M x E hR hE' hx
  rcases Classical.em x.2.Full with hxf | hxf
  · rcases E with - | ⟨y, E⟩
    · exact hfull hxf
    · have hn := hfull hxf
      rw [headAddr_cons] at hn
      exact absurd (hd.freed y (by simp [hR]) (hE' y List.mem_cons_self))
        (node_ne_none_of_chain (hn ▸ hB.chain) hchain hne hheads)
  · exact hnot hxf

/-- What stood before the cursor is lost, so if each entry reads as before then there was nothing. -/
theorem Sparse.Inv.blank_of_reads {G' : Sparse V} (hI : G.Inv (l₁ ++ l₂)) (hI' : G'.Inv e)
    (hvalue : valueAt e = valueAt l₂)
    (hreads : ∀ i, 0 ≤ i → ∃ v G₁ G₂, get G i = .ok (v, G₁) ∧ get G' i = .ok (v, G₂)) :
    ∀ x ∈ l₁, x.2.Blank := by
  intro x hx i
  have hxl : x ∈ l₁ ++ l₂ := List.mem_append_left _ hx
  by_contra hread
  have hcon : x.2.Contains i := by
    by_contra hcon
    exact hread ((hI.wf x hxl).read_eq_none hcon)
  have hi : 0 ≤ i := (hI.wf x hxl).nonneg.trans hcon.1
  obtain ⟨v, G₁, G₂, hget₁, hget₂⟩ := hreads i hi
  obtain ⟨_, hrun₁, -⟩ := Sparse.Holds.get (.inr ⟨_, hI, rfl⟩) hi
  obtain ⟨_, hrun₂, -⟩ := Sparse.Holds.get (.inr ⟨_, hI', rfl⟩) hi
  have hv₁ : v = valueAt (l₁ ++ l₂) i := (Prod.mk.inj (Except.ok.inj (hget₁.symm.trans hrun₁))).1
  have hv₂ : v = valueAt e i := (Prod.mk.inj (Except.ok.inj (hget₂.symm.trans hrun₂))).1
  have hafter : valueAt l₂ i = none :=
    valueAt_eq_none (fun z hz ↦ hI.wf z (List.mem_append_right _ hz)) fun z hz hzcon ↦ by
      have := (sorted_append.1 hI.sorted).2.2 x hx z hz
      have := hcon.2
      have := hzcon.1
      omega
  rw [hvalue, hafter] at hv₂
  rw [hv₂, valueAt_append, hafter, Option.or_none] at hv₁
  exact hread (List.findSome?_eq_none_iff.1 hv₁.symm x hx)

/-- Only a compactable array is compacted as it should be. -/
theorem CompactsRight.compactable (hI : G.Inv (l₁ ++ (G.array, c) :: l₂)) (hG : CompactsRight G) :
    Compactable (l₁ ++ (G.array, c) :: l₂) G.array := by
  obtain ⟨e, st, st₀, p, n, hrun, hd⟩ := hI.compact
  obtain ⟨G', hrun', hreads, l', ⟨hchain, -, -⟩, hhead, -⟩ := hG
  obtain rfl := Except.ok.inj (hrun.symm.trans hrun')
  obtain ⟨hne, rfl, rfl, hback⟩ := hd.closed (by simp) hchain hhead
  have hB := hd.built
  rw [List.nil_append] at hB
  have hI' : Sparse.Inv { G with heap := st.heap, array := st.array } e := by
    refine ⟨hB.chain, hB.nodup, hB.fresh, ?_, hd.sorted, fun z hz ↦ (hd.wf z hz).1⟩
    obtain ⟨y, e, rfl⟩ := List.exists_cons_of_ne_nil hne
    exact List.mem_map.2 ⟨y, List.mem_cons_self, hB.array.symm⟩
  have hbefore := hI.blank_of_reads hI' hd.value hreads
  have hnodup := hI.nodup
  rw [List.map_append, List.map_cons, List.nodup_append, List.nodup_cons] at hnodup
  refine ⟨?_, fun m₁ d m₂ hsplit ↦ ?_, fun m₁ x m₂ hsplit hfull hm₁ ↦ ?_,
    fun m₁ x m₂ hsplit hfull hm₂ ↦ ?_⟩
  · by_contra hcon
    refine hne (hd.eq_nil_iff.2 fun x hx ↦ not_not.1 fun hblank ↦ ?_)
    exact hcon ⟨x, List.mem_append_right _ hx, hblank⟩
  · have hmem : (G.array, d) ∉ l₁ := fun hmem ↦
      hnodup.2.2 _ (List.mem_map_of_mem hmem) _ List.mem_cons_self rfl
    obtain ⟨M, rfl, hR⟩ := exists_split_of_append hsplit hmem
    rcases M with - | ⟨w, M⟩
    · simpa using hbefore
    · obtain ⟨-, rfl⟩ := List.cons.inj hR
      exact absurd (by simp) hnodup.2.1.1
  · have hx := hI.wf x (by simp [hsplit])
    have hxne := hfull.not_blank hx
    obtain ⟨M, rfl, hR⟩ := exists_split_of_append hsplit fun hx ↦ hxne (hbefore x hx)
    have hlink := (hd.front rfl M x m₂ hR (fun y hy ↦ hm₁ y (List.mem_append_right _ hy)) hxne).1 hfull
    rw [← lastAddr_append] at hlink
    rcases (l₁ ++ M).eq_nil_or_concat with hnil | ⟨m, w, hm⟩
    · exact hnil
    · rw [hm, List.concat_eq_append, lastAddr_append] at hlink
      exact absurd hlink.symm (Option.some_ne_none _)
  · have hx := hI.wf x (by simp [hsplit])
    have hxne := hfull.not_blank hx
    obtain ⟨M, rfl, hR⟩ := exists_split_of_append hsplit fun hx ↦ hxne (hbefore x hx)
    exact hback M x m₂ hR hm₂ hfull hx

end Compactable

/-- A compacted array, or one that is not compactable. -/
theorem Sparse.Inv.compactsRight_iff (hI : G.Inv l) : CompactsRight G ↔ Compactable l G.array := by
  obtain ⟨l₁, c, l₂, rfl, -⟩ := hI.exists_cursor
  refine ⟨fun h ↦ h.compactable hI, fun h ↦ ?_⟩
  obtain ⟨G', l', hrun, hI', hvalue, hhead, hfull⟩ := h.compact hI
  refine ⟨G', hrun, Sparse.Holds.reads (.inr ⟨_, hI, rfl⟩) (.inr ⟨l', hI', hvalue⟩), l',
    ⟨hI'.chain, hI'.nodup, hI'.cursor⟩, hhead, hI'.sorted.imp_of_mem fun {x y} hx _ hxy ↦ ⟨?_, hxy⟩, hfull⟩
  have := (hI'.wf x hx).bounds
  omega

/-- The only block of an array that is not in use yet is freed, and the cursor stays on it. -/
theorem Sparse.Unused.compact (hU : G.Unused) :
    BlockSparseArray.compact G = .ok { G with heap := G.heap.free G.array } := by
  have hlen : (newBlock : Block V).length.toNat = 0 := rfl
  rw [BlockSparseArray.compact, fuel]
  obtain ⟨k, hk⟩ := Nat.exists_eq_succ_of_ne_zero (Nat.ne_of_gt (Nat.zero_lt_of_lt hU.fresh))
  simp only [hk, compactBlocks, compactBlock, hU.node, deref_some, Run.ok_bind, hlen, List.range_zero,
    List.foldlM_nil, Run.pure_eq_ok, Bool.false_eq_true, if_false, or_true, if_true]

theorem Sparse.Unused.not_compactsRight (hU : G.Unused) : ¬CompactsRight G := by
  rintro ⟨G', hrun, -, l, ⟨hchain, -, hcursor⟩, -⟩
  obtain rfl := Except.ok.inj (hU.compact.symm.trans hrun)
  obtain ⟨x, hx, heq⟩ := List.mem_map.1 hcursor
  obtain ⟨m₁, m₂, rfl⟩ := List.append_of_mem hx
  have hnode := hchain.node
  rw [heq] at hnode
  simp [Heap.free] at hnode

/-- The arrays that calls lead to, when each array that has been compacted was compactable. -/
inductive Reached : Sparse V → Prop
  | new : Reached newBlockSparseArray
  | call {G G' : Sparse V} {op : Op V} {v : Option V} : Reached G → op.InRange → exec G op = .ok (v, G') →
    Reached G'
  | compact {G G' : Sparse V} : Reached G → (∀ l, IsBlocks G l → Compactable l G.array) →
    compact G = .ok G' → Reached G'

theorem Reached.holds (hG : Reached G) : ∃ c, G.Holds c := by
  induction hG with
  | new => exact ⟨_, holds_newBlockSparseArray⟩
  | call _ hop hrun ih =>
    obtain ⟨c, hc⟩ := ih
    obtain ⟨G', hrun', hG'⟩ := hc.exec hop
    obtain ⟨-, rfl⟩ := Prod.mk.inj (Except.ok.inj (hrun.symm.trans hrun'))
    exact ⟨_, hG'⟩
  | compact _ hC hrun ih =>
    obtain ⟨c, ⟨hU, -⟩ | ⟨l, hI, -⟩⟩ := ih
    · obtain ⟨x, hx, hne⟩ := (hC [(_, newBlock)] ⟨⟨hU.node, trivial⟩, by simp, by simp⟩).value
      rw [List.mem_singleton.1 hx] at hne
      exact absurd (fun i ↦ by simp [Block.read, newBlock]) hne
    · obtain ⟨l₁, c, l₂, rfl, -⟩ := hI.exists_cursor
      obtain ⟨G', l', hrun', hI', -⟩ := (hC _ ⟨hI.chain, hI.nodup, hI.cursor⟩).compact hI
      obtain rfl := Except.ok.inj (hrun.symm.trans hrun')
      exact ⟨_, .inr ⟨l', hI', rfl⟩⟩

/-- **`BlockSparseArrayCompact`**, on any array that calls lead to. -/
theorem compact_iff (hG : Reached G) :
    ∃ l, IsBlocks G l ∧ (CompactsRight G ↔ Compactable l G.array) := by
  obtain ⟨c, ⟨hU, -⟩ | ⟨l, hI, -⟩⟩ := hG.holds
  · refine ⟨[(G.array, newBlock)], ⟨⟨hU.node, trivial⟩, by simp, by simp⟩,
      fun h ↦ absurd h hU.not_compactsRight, fun h ↦ ?_⟩
    obtain ⟨x, hx, hne⟩ := h.value
    rw [List.mem_singleton.1 hx] at hne
    exact absurd (fun i ↦ by simp [Block.read, newBlock]) hne
  · exact ⟨l, ⟨hI.chain, hI.nodup, hI.cursor⟩, hI.compactsRight_iff⟩

theorem reached_execAll {ops : List (Op V)} {G G' : Sparse V} {vs : List (Option V)}
    (hG : Reached G) (hops : ∀ op ∈ ops, op.InRange) (h : execAll ops G = .ok (vs, G')) :
    Reached G' := by
  induction ops generalizing G vs with
  | nil =>
    obtain ⟨-, rfl⟩ := Prod.mk.inj (Except.ok.inj h)
    exact hG
  | cons op ops ih =>
    obtain ⟨⟨v, G₁⟩, hop, h⟩ := Run.bind_eq_ok.1 h
    obtain ⟨⟨vs', G₂⟩, hrest, h⟩ := Run.bind_eq_ok.1 h
    obtain ⟨-, rfl⟩ := Prod.mk.inj (Except.ok.inj h)
    obtain ⟨hhead, htail⟩ := List.forall_mem_cons.1 hops
    exact ih (hG.call hhead hop) htail hrest

/-- Three values far apart, of which the one in the middle is cleared. -/
def clearedOps : List (Op Char) :=
  [.set 3 (some 'a'), .set 200 (some 'b'), .set 400 (some 'c'), .clear 200, .get 3]

/-- The blocks after these calls. -/
def clearedBlocks : List (Addr × Block Char) :=
  [(0, ⟨0, 32, 0, List.replicate 3 none ++ some 'a' :: List.replicate 28 none⟩),
    (1, ⟨192, 32, 0, List.replicate 32 none⟩),
    (2, ⟨384, 32, 0, List.replicate 16 none ++ some 'c' :: List.replicate 15 none⟩)]

theorem compactable_clearedBlocks : Compactable clearedBlocks 0 := by
  have hne : clearedBlocks ≠ [] := List.cons_ne_nil _ _
  have hfirst : ∀ y ∈ clearedBlocks.head?, ¬y.2.Blank := by
    rintro y hy hblank
    obtain rfl := Option.some.inj hy
    exact absurd (hblank 3) (by decide)
  have hlast : ∀ y ∈ clearedBlocks.getLast?, ¬y.2.Blank := by
    rintro y hy hblank
    obtain rfl := Option.some.inj hy
    exact absurd (hblank 400) (by decide)
  refine ⟨⟨_, .head _, hfirst _ rfl⟩, fun l₁ c l₂ hl y hy ↦ ?_, fun l₁ x l₂ hl _ hblank ↦ ?_,
    fun l₁ x l₂ hl _ hblank ↦ ?_⟩
  · cases l₁ with
    | nil => cases hy
    | cons z l₁ =>
      have hmem : (0, c) ∈ clearedBlocks.tail := by rw [hl]; simp
      have haddr : (0 : Addr) ∈ clearedBlocks.tail.map Prod.fst := List.mem_map_of_mem hmem
      exact absurd haddr (by decide)
  · cases l₁ with
    | nil => rfl
    | cons z l₁ => exact absurd (hblank z (.head _)) (hfirst z (by rw [hl]; rfl))
  · rcases l₂.eq_nil_or_concat with rfl | ⟨m, y, rfl⟩
    · rfl
    · rw [List.concat_eq_append] at hl hblank
      exact absurd (hblank y (by simp)) (hlast y (by
        rw [hl, ← List.cons_append, ← List.append_assoc]
        exact List.getLast?_concat))

/-- The block in the middle is freed, and the other two stay. -/
theorem compact_iff_cleared :
    ∃ vs, ∃ G : Sparse Char, execAll clearedOps newBlockSparseArray = .ok (vs, G) ∧
      CompactsRight G := by
  have hops : ∀ op ∈ clearedOps, op.InRange := by simp [clearedOps, Op.InRange, maxEnd]
  have hrun : (execAll clearedOps newBlockSparseArray).map
      (fun r ↦ (r.2.array, [0, 1, 2].map r.2.heap.node)) =
      .ok (0, [some ⟨none, some 1, clearedBlocks[0].2⟩, some ⟨some 0, some 2, clearedBlocks[1].2⟩,
        some ⟨some 1, none, clearedBlocks[2].2⟩]) := by decide +kernel
  obtain ⟨⟨vs, G⟩, hG, heq⟩ := Run.map_eq_ok.1 hrun
  obtain ⟨harray, heq⟩ := Prod.mk.inj heq
  simp only [List.map_cons, List.cons.injEq] at heq
  obtain ⟨h₀, h₁, h₂, -⟩ := heq
  have hblocks : IsBlocks G clearedBlocks :=
    ⟨⟨h₀, h₁, h₂, trivial⟩, by decide, by rw [show G.array = 0 from harray]; exact .head _⟩
  obtain ⟨l, hl, hiff⟩ := compact_iff (reached_execAll .new hops hG)
  rw [hl.unique hblocks, show G.array = 0 from harray] at hiff
  exact ⟨vs, G, hG, hiff.2 compactable_clearedBlocks⟩

/-- Behind a full block, a block whose only value has been cleared is freed, and stays linked. -/
theorem not_compactsRight_cleared : ¬∀ G : Sparse Char, Reached G → CompactsRight G := by
  intro h
  have hops : ∀ op ∈ [Op.set 3 (some 'a'), .set 100 (some 'b'), .clear 100, .get 3], op.InRange := by
    simp [Op.InRange, maxEnd]
  have hreached : Reached _ := .call (.call (.call (.call .new (hops _ (.head _)) rfl)
    (hops _ (.tail _ (.head _))) rfl) (hops _ (.tail _ (.tail _ (.head _)))) rfl)
    (hops _ (.tail _ (.tail _ (.tail _ (.head _))))) rfl
  obtain ⟨G', hrun, -, l, ⟨hchain, -, -⟩, hhead, -⟩ := h _ hreached
  obtain rfl := Except.ok.inj hrun
  rcases l with - | ⟨x, l⟩
  · exact absurd hhead (Option.some_ne_none _).symm
  obtain ⟨a, b⟩ := x
  obtain rfl : a = 0 := Option.some.inj hhead
  have hnext : some 1 = headAddr none l := congrArg Node.next (Option.some.inj hchain.1)
  rcases l with - | ⟨⟨a, b'⟩, l⟩
  · exact absurd hnext (Option.some_ne_none _)
  · obtain rfl : 1 = a := Option.some.inj hnext
    exact absurd hchain.2.1.symm (Option.some_ne_none _)

end OpenImpact.BlockSparseArray
