import OpenImpact.Library.BlockSparseArrayAdd

/-!
# Block sparse arrays as maps

A run of calls returns what the map they describe would (`execAll_eq`), and leaves a list of blocks in
order (`Consistent`), as long as no request reaches past the last multiple of `BLOCK_SIZE` that is an
`int`.

The results and the list are those of an abstract map from indices to values, `applyAll`, over any
type of values. The invariant is `Sparse.Holds`; each call has its own lemma (`Sparse.Holds.set`,
`.clear`, `.get`, `.prepare`), and the run is an induction over the calls. Compaction is not among
these calls, since it can leave links to freed blocks (`BlockSparseArrayCompactList`), nor is the
allocator, which is taken to give memory.
-/

namespace OpenImpact.BlockSparseArray

open Foundation Heap

variable {V : Type} {G : Sparse V} {l : List (Addr × Block V)} {index : ℤ}

/-! ### Maps -/

/-- The map after a call. -/
def Op.apply : Op V → (ℤ → Option V) → ℤ → Option V
  | .set index data, c => Function.update c index data
  | .clear index, c => Function.update c index none
  | .get _, c => c
  | .prepare _ _, c => c

/-- The map after several calls. -/
def applyAll (ops : List (Op V)) (c : ℤ → Option V) : ℤ → Option V := ops.foldl (fun c op ↦ op.apply c) c

/-- What a call returns. -/
def Op.result : Op V → (ℤ → Option V) → Option V
  | .get index, c => c index
  | _, _ => none

/-- What calls return, one after the other. -/
def results : List (Op V) → (ℤ → Option V) → List (Option V)
  | [], _ => []
  | op :: ops, c => op.result c :: results ops (op.apply c)

/-- The list of blocks the cursor is on: linked both ways, increasing and disjoint, from block boundary
to block boundary. -/
def Consistent (G : Sparse V) : Prop :=
  ∃ l : List (Addr × Block V), G.heap.Chain none l none ∧ (l.map Prod.fst).Nodup ∧
    G.array ∈ l.map Prod.fst ∧
    l.Pairwise (fun x y ↦ x.2.firstIndex < y.2.firstIndex ∧ x.2.endAt ≤ y.2.firstIndex) ∧
    ∀ x ∈ l, blockSize ∣ x.2.firstIndex ∧ blockSize ∣ x.2.length

/-- The array holds the map. -/
def Sparse.Holds (G : Sparse V) (c : ℤ → Option V) : Prop :=
  (G.Unused ∧ ∀ i, c i = none) ∨ ∃ l, G.Inv l ∧ valueAt l = c

theorem Sparse.Holds.consistent {c : ℤ → Option V} (h : G.Holds c) : Consistent G := by
  obtain ⟨hU, -⟩ | ⟨l, hI, -⟩ := h
  · refine ⟨[(G.array, newBlock)], ⟨hU.node, trivial⟩, by simp, by simp,
      List.pairwise_singleton .., fun x hx ↦ ?_⟩
    rw [List.mem_singleton.1 hx]
    exact ⟨dvd_zero _, dvd_zero _⟩
  · refine ⟨l, hI.chain, hI.nodup, hI.cursor, hI.sorted.imp_of_mem fun {x y} hx _ hxy ↦ ⟨?_, hxy⟩,
      fun x hx ↦ ⟨(hI.wf x hx).first_dvd, (hI.wf x hx).length_dvd⟩⟩
    have := (hI.wf x hx).bounds
    omega

/-! ### Calls -/

/-- **`GetOrAddBlock`** keeps the map. -/
theorem Sparse.Holds.getOrAddBlock {c : ℤ → Option V} (h : G.Holds c) {length : ℤ} (hindex : 0 ≤ index)
    (hlength : 1 ≤ length) (hle : index + length ≤ maxEnd) :
    ∃ G' l', getOrAddBlock G index length = .ok G' ∧ G'.Inv l' ∧ valueAt l' = c ∧
      (length = 1 → Covers G' l' index (index + 1)) := by
  obtain ⟨hU, hnone⟩ | ⟨l, hI, rfl⟩ := h
  · obtain ⟨G', l', hrun, hI', hvalue, hcovers⟩ := hU.getOrAddBlock hindex hlength hle
    exact ⟨G', l', hrun, hI', funext fun i ↦ (hvalue i).trans (hnone i).symm, fun h1 ↦ h1 ▸ hcovers⟩
  · obtain ⟨G', hrun, l', hI', hvalue, hcovers⟩ := hI.getOrAddBlock hindex hlength hle
    refine ⟨G', l', hrun, hI', hvalue, fun h1 ↦ ?_⟩
    subst h1
    exact (hcovers.resolve_right fun hnot ↦ hnot.1 (preparable_one hI.wf hindex)).2

theorem Block.WF.read_set {b : Block V} (hb : b.WF) (hcon : b.Contains index) (data : Option V) (i : ℤ) :
    { b with data := b.data.set (index - b.firstIndex).toNat data }.read i =
      if i = index then data else b.read i := by
  obtain ⟨hk₀, hk⟩ := hb.index hcon
  have hfirst := hcon.1
  simp only [Block.read]
  by_cases hi : b.firstIndex ≤ i
  · rw [if_pos hi, if_pos hi, List.getElem?_set]
    by_cases heq : i = index
    · rw [if_pos (by rw [heq]), if_pos (by omega), if_pos heq, Option.join_some]
    · rw [if_neg (by omega), if_neg heq]
  · have hne : i ≠ index := fun heq ↦ hi (hfirst.trans heq.ge)
    rw [if_neg hi, if_neg hi, if_neg hne]

/-- Writing an entry of the block the cursor is on. -/
theorem Sparse.Inv.write {b : Block V} (hI : G.Inv l) (hmem : (G.array, b) ∈ l)
    (hcon : b.Contains index) (data : Option V) (warned : List ℤ) :
    ∃ n, G.heap.node G.array = some n ∧ n.val = b ∧
      { G with
        heap := G.heap.set G.array { n with
          val := { b with data := b.data.set (index - b.firstIndex).toNat data } }
        warned := warned }.Holds (Function.update (valueAt l) index data) := by
  obtain ⟨l₁, l₂, rfl⟩ := List.append_of_mem hmem
  have hnode := hI.chain.node
  have hb := hI.wf _ hmem
  have hwf : { b with data := b.data.set (index - b.firstIndex).toNat data }.WF :=
    hb.withData List.length_set
  have hnodup := hI.nodup
  have hsorted := hI.sorted
  obtain ⟨hchain₁, -, hchain₂⟩ := chain_append.1 hI.chain
  rw [List.map_append, List.map_cons, List.nodup_append, List.nodup_cons] at hnodup
  rw [sorted_append, sorted_cons] at hsorted
  refine ⟨_, hnode, rfl, .inr ⟨l₁ ++ (G.array,
    { b with data := b.data.set (index - b.firstIndex).toNat data }) :: l₂, ⟨?_, ?_, ?_, ?_, ?_, ?_⟩, ?_⟩⟩
  · refine chain_append.2 ⟨hchain₁.congr fun z hz ↦ set_node_of_ne _ ?_ _, set_node_self ..,
      hchain₂.congr fun z hz ↦ set_node_of_ne _ ?_ _⟩
    · exact hnodup.2.2 _ (List.mem_map_of_mem hz) _ List.mem_cons_self
    · intro heq
      have hin := List.mem_map_of_mem (f := Prod.fst) hz
      rw [heq] at hin
      exact hnodup.2.1.1 hin
  · simpa using hI.nodup
  · intro z hz
    rw [List.mem_append, List.mem_cons] at hz
    obtain hz | rfl | hz := hz
    · exact hI.fresh z (by simp [hz])
    · exact hI.fresh (G.array, b) hmem
    · exact hI.fresh z (by simp [hz])
  · simp
  · refine sorted_append.2 ⟨hsorted.1, sorted_cons.2 hsorted.2.1, fun z hz w hw ↦ ?_⟩
    rcases List.mem_cons.1 hw with rfl | hw
    · exact hsorted.2.2 z hz (G.array, b) List.mem_cons_self
    · exact hsorted.2.2 z hz w (List.mem_cons_of_mem _ hw)
  · intro z hz
    rw [List.mem_append, List.mem_cons] at hz
    obtain hz | rfl | hz := hz
    · exact hI.wf z (by simp [hz])
    · exact hwf
    · exact hI.wf z (by simp [hz])
  · funext i
    rw [valueAt_append, valueAt_cons, hb.read_set hcon]
    by_cases hi : i = index
    · -- no other block has the index
      have hleft : valueAt l₁ i = none := valueAt_eq_none (fun z hz ↦ hI.wf z (by simp [hz]))
        fun z hz hzcon ↦ by
          have := hsorted.2.2 z hz _ List.mem_cons_self
          have := hzcon.2
          have := hcon.1
          simp only at *
          omega
      have hright : valueAt l₂ i = none := valueAt_eq_none (fun z hz ↦ hI.wf z (by simp [hz]))
        fun z hz hzcon ↦ by
          have := hsorted.2.1.1 z hz
          have := hzcon.1
          have := hcon.2
          simp only at *
          omega
      rw [if_pos hi, hleft, hright, Option.none_or, Option.or_none, hi, Function.update_self]
    · rw [if_neg hi, Function.update_of_ne hi, valueAt_append, valueAt_cons]

/-- **`BlockSparseArraySet`** sets the entry. -/
theorem Sparse.Holds.set {c : ℤ → Option V} (h : G.Holds c) (hindex : 0 ≤ index)
    (hle : index + 1 ≤ maxEnd) (data : Option V) :
    ∃ G', set G index data = .ok G' ∧ G'.Holds (Function.update c index data) := by
  obtain ⟨G', l', hrun, hI, rfl, hcovers⟩ := h.getOrAddBlock hindex le_rfl hle
  obtain ⟨b, hmem, hfirst, hend⟩ := hcovers rfl
  have hcon : b.Contains index := ⟨hfirst, hend⟩
  have hidx := (hI.wf _ hmem).index hcon
  obtain ⟨n, hnode, rfl, -⟩ := hI.write hmem hcon data []
  obtain ⟨n', hnode', -, hwrite⟩ := hI.write hmem hcon data
    (if n.val.options &&& warnOnOverwrite ≠ 0 ∧
      (n.val.data[(index - n.val.firstIndex).toNat]?.join).isSome then index :: G'.warned
      else G'.warned)
  obtain rfl := Option.some.inj (hnode.symm.trans hnode')
  refine ⟨_, ?_, hwrite⟩
  rw [BlockSparseArray.set, hrun, Run.ok_bind, hnode, deref_some, Run.ok_bind]
  exact if_pos hidx

/-- **`BlockSparseArrayClear`** clears the entry. -/
theorem Sparse.Holds.clear {c : ℤ → Option V} (h : G.Holds c) (hindex : 0 ≤ index)
    (hle : index + 1 ≤ maxEnd) :
    ∃ G', clear G index = .ok G' ∧ G'.Holds (Function.update c index none) := by
  obtain ⟨G', l', hrun, hI, rfl, hcovers⟩ := h.getOrAddBlock hindex le_rfl hle
  obtain ⟨b, hmem, hfirst, hend⟩ := hcovers rfl
  have hcon : b.Contains index := ⟨hfirst, hend⟩
  have hidx := (hI.wf _ hmem).index hcon
  obtain ⟨n, hnode, rfl, hwrite⟩ := hI.write hmem hcon none G'.warned
  refine ⟨_, ?_, hwrite⟩
  rw [BlockSparseArray.clear, hrun, Run.ok_bind, hnode, deref_some, Run.ok_bind]
  exact if_pos hidx

/-- **`BlockSparseArrayGet`** gets the entry. -/
theorem Sparse.Holds.get {c : ℤ → Option V} (h : G.Holds c) (hindex : 0 ≤ index) :
    ∃ G', get G index = .ok (c index, G') ∧ G'.Holds c := by
  obtain ⟨hU, hnone⟩ | ⟨l, hI, rfl⟩ := h
  · refine ⟨G, ?_, .inl ⟨hU, hnone⟩⟩
    rw [BlockSparseArray.get, hU.getBlock hindex, Run.ok_bind, hnone]
    rfl
  · obtain ⟨m₁, y, m₂, hloc, hget⟩ := hI.getBlock index
    obtain ⟨hcon, hget⟩ | ⟨hcon, hget⟩ := hget
    · have hidx := (hI.wf y hloc.mem).index hcon
      refine ⟨_, ?_, .inr ⟨l, hI.move hloc.mem, rfl⟩⟩
      rw [BlockSparseArray.get, hget, Run.ok_bind]
      simp only [if_true]
      rw [Chain.node (hloc.split ▸ hI.chain), deref_some, Run.ok_bind]
      simp only
      rw [if_pos hidx, hloc.valueAt_of_contains hI.sorted hI.wf hcon, Block.read, if_pos hcon.1]
      rfl
    · refine ⟨G, ?_, .inr ⟨l, hI, rfl⟩⟩
      rw [BlockSparseArray.get, hget, Run.ok_bind,
        valueAt_eq_none hI.wf (hloc.not_contains hI.sorted hI.wf hcon)]
      rfl

/-! ### Runs -/

/-- The indices are not negative, the lengths positive, and no request reaches past the last multiple
of `BLOCK_SIZE` that is an `int`. -/
def Op.InRange : Op V → Prop
  | .set index _ => 0 ≤ index ∧ index + 1 ≤ maxEnd
  | .clear index => 0 ≤ index ∧ index + 1 ≤ maxEnd
  | .get index => 0 ≤ index
  | .prepare index length => 0 ≤ index ∧ 1 ≤ length ∧ index + length ≤ maxEnd

/-- **A call** returns what it returns on the map, and takes the map along. -/
theorem Sparse.Holds.exec {c : ℤ → Option V} (h : G.Holds c) {op : Op V} (hop : op.InRange) :
    ∃ G', exec G op = .ok (op.result c, G') ∧ G'.Holds (op.apply c) := by
  cases op with
  | set index data =>
    obtain ⟨G', hrun, hG'⟩ := h.set hop.1 hop.2 data
    exact ⟨G', by rw [BlockSparseArray.exec, hrun]; rfl, hG'⟩
  | clear index =>
    obtain ⟨G', hrun, hG'⟩ := h.clear hop.1 hop.2
    exact ⟨G', by rw [BlockSparseArray.exec, hrun]; rfl, hG'⟩
  | get index => exact h.get hop
  | prepare index length =>
    obtain ⟨G', l', hrun, hI, hvalue, -⟩ := h.getOrAddBlock hop.1 hop.2.1 hop.2.2
    exact ⟨G', by rw [BlockSparseArray.exec, prepare, hrun]; rfl, .inr ⟨l', hI, hvalue⟩⟩

theorem Sparse.Holds.execAll {c : ℤ → Option V} (h : G.Holds c) {ops : List (Op V)}
    (hops : ∀ op ∈ ops, op.InRange) :
    ∃ G', execAll ops G = .ok (results ops c, G') ∧ G'.Holds (applyAll ops c) := by
  induction ops generalizing G c with
  | nil => exact ⟨G, rfl, h⟩
  | cons op ops ih =>
    rw [List.forall_mem_cons] at hops
    obtain ⟨G₁, hrun, hG₁⟩ := h.exec hops.1
    obtain ⟨G₂, hruns, hG₂⟩ := ih hG₁ hops.2
    refine ⟨G₂, ?_, hG₂⟩
    rw [BlockSparseArray.execAll, hrun, Run.ok_bind]
    simp only
    rw [hruns]
    rfl

theorem holds_newBlockSparseArray : (newBlockSparseArray : Sparse V).Holds fun _ ↦ none :=
  .inl ⟨⟨rfl, Nat.zero_lt_one⟩, fun _ ↦ rfl⟩

/-- **A run returns what the map would**, and leaves the blocks in order. -/
theorem execAll_eq {ops : List (Op V)} (hops : ∀ op ∈ ops, op.InRange) :
    ∃ G, execAll ops newBlockSparseArray = .ok (results ops fun _ ↦ none, G) ∧ Consistent G := by
  obtain ⟨G, hrun, hG⟩ := holds_newBlockSparseArray.execAll hops
  exact ⟨G, hrun, hG.consistent⟩

/-- Two entries in blocks of their own, a request between them, and two reads. -/
theorem execAll_eq_merged :
    ∃ G, execAll [.set 3 (some 'a'), .set 70 (some 'b'), .prepare 40 2, .get 70, .get 41]
      newBlockSparseArray = .ok ([none, none, none, some 'b', none], G) ∧ Consistent G :=
  execAll_eq (by simp [Op.InRange, maxEnd])

/-- The end of a request for the last `int` is not an `int`. -/
theorem set_intMax :
    execAll [.set 2147483647 (some 'a'), .get 2147483647] newBlockSparseArray = .error .overflow ∧
      results [.set 2147483647 (some 'a'), .get 2147483647] (fun _ ↦ none) = [none, some 'a'] :=
  ⟨rfl, rfl⟩

end OpenImpact.BlockSparseArray
