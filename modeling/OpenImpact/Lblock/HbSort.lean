import OpenImpact.Foundation.BinaryHeap
import OpenImpact.Library.Halt

/-!
# Sorting the paths

`LB_hb_sort_paths` of `lb_hb_path.c`: a heap sort in an array that is filled from the list of paths. The
array counts from 0, and the positions of the heap from 1 (`Shifted`). The list that it leaves has the same
paths in non-increasing priority (`sortPaths_spec`).

The theorem rests on `heapify_spec`, which sifts one item down into a heap, and on `emit_spec` for
the items taken off the top. Both are about `Foundation.BinaryHeap`, over any linear order of
weights. The order of paths with equal weight is not claimed: the sort is not stable. A list without
paths is left out, for which the source reads an item that was not written.
-/

namespace OpenImpact.Lblock

open Foundation.BinaryHeap

variable {W P : Type}

/-- `LB_hb_Sort_List` -/
structure SortItem (W P : Type) where
  weight : W
  ptr : P

/-- `swap`. -/
def swap (i j : ℕ) (b : ℕ → SortItem W P) : ℕ → SortItem W P :=
  Function.update (Function.update b i (b j)) j (b i)

variable [LinearOrder W]

/-- The position of the heaviest of `p` and its children, `s` in `heapify`. -/
def heaviest (p size : ℕ) (b : ℕ → SortItem W P) : ℕ :=
  let r := (p + 1) * 2
  let l := r - 1
  let s := if l < size ∧ (b l).weight > (b p).weight then l else p
  if r < size ∧ (b r).weight > (b s).weight then r else s

theorem heaviest_cases (p size : ℕ) (b : ℕ → SortItem W P) :
    heaviest p size b = p ∨ p < heaviest p size b ∧ heaviest p size b < size := by
  simp only [heaviest]
  split_ifs <;> omega

/-- `heapify`. -/
def heapify (p size : ℕ) (b : ℕ → SortItem W P) : ℕ → SortItem W P :=
  if heaviest p size b ≠ p then heapify (heaviest p size b) size (swap (heaviest p size b) p b) else b
termination_by size - p
decreasing_by
  rcases heaviest_cases p size b with heq | hlt
  · exact absurd heq ‹_›
  · omega

/-- The loop that makes a heap of the array, from the last parent to the first. -/
def buildHeap (count : ℕ) : ℕ → (ℕ → SortItem W P) → ℕ → SortItem W P
  | 0, b => b
  | i + 1, b => buildHeap count i (heapify i count b)

/-- The loop that puts the last element on top, and then the heaviest of the rest into the list. -/
def emit : ℕ → (ℕ → SortItem W P) → List P → List P
  | 0, _, paths => paths
  | i + 1, b, paths =>
    let b := heapify 0 (i + 1) (Function.update b 0 (b (i + 1)))
    emit i b (paths ++ [(b 0).ptr])

/-- The array after the loop over the list. -/
def fillBuf (priority : P → W) : ℕ → List P → (ℕ → SortItem W P) → ℕ → SortItem W P
  | _, [], b => b
  | i, ptr :: paths, b => fillBuf priority (i + 1) paths (Function.update b i ⟨priority ptr, ptr⟩)

/-- `LB_hb_sort_paths`, with the memory that is allocated for the array. -/
def sortPaths (priority : P → W) (mem : ℕ → SortItem W P) (paths : List P) : Run (List P) :=
  let count := paths.length
  if count = 0 then .error (.punt "LB_hb_sort_paths: 0 paths?")
  else
    let b := buildHeap count (count / 2) (fillBuf priority 0 paths mem)
    .ok (emit (count - 1) b [(b 0).ptr])

/-! ### The array as a heap -/

/-- The positions of a heap are those of the array, counted from 1. -/
def Shifted (b f : ℕ → SortItem W P) : Prop := ∀ i, f (i + 1) = b i

/-- The heavier item belongs above. -/
def Heavier (x y : SortItem W P) : Prop := x.weight > y.weight

theorem heavier_asymm (x y : SortItem W P) (h : Heavier x y) : ¬Heavier y x := lt_asymm h

theorem not_heavier_trans (x y z : SortItem W P) (hxy : ¬Heavier x y) (hyz : ¬Heavier y z) :
    ¬Heavier x z :=
  not_lt.2 ((not_lt.1 hxy).trans (not_lt.1 hyz))

variable {b f : ℕ → SortItem W P} {p k size : ℕ}

omit [LinearOrder W] in
theorem Shifted.swap {i j : ℕ} (h : Shifted b f) (hij : i ≠ j) :
    Shifted (swap i j b) (f ∘ Equiv.swap (i + 1) (j + 1)) := by
  intro m
  rw [Lblock.swap, Function.comp_apply]
  rcases eq_or_ne m j with rfl | hj
  · rw [Equiv.swap_apply_right, h i, Function.update_self]
  · rw [Function.update_of_ne hj]
    rcases eq_or_ne m i with rfl | hi
    · rw [Equiv.swap_apply_left, h j, Function.update_self]
    · rw [Equiv.swap_apply_of_ne_of_ne (by omega) (by omega), h m, Function.update_of_ne hi]

/-- What `heapify` compares: the position it takes is `p`, or a child that is heavier, and no child is
heavier than that. -/
theorem Shifted.heaviest (h : Shifted b f) (hp : p < size) :
    (heaviest p size b = p ∨ (heaviest p size b + 1) / 2 = p + 1 ∧ heaviest p size b < size ∧
      Heavier (f (heaviest p size b + 1)) (f (p + 1))) ∧
      ∀ d, d ≤ size → d / 2 = p + 1 → ¬Heavier (f d) (f (heaviest p size b + 1)) := by
  have hself : ∀ x : SortItem W P, ¬Heavier x x := fun x ↦ lt_irrefl x.weight
  have hleft : f ((p + 1) * 2) = b ((p + 1) * 2 - 1) := h ((p + 1) * 2 - 1)
  have hright : f ((p + 1) * 2 + 1) = b ((p + 1) * 2) := h ((p + 1) * 2)
  -- the better one of `p` and its left child
  obtain ⟨s, hs, hcase, hbest⟩ : ∃ s, (if (p + 1) * 2 - 1 < size ∧
        (b ((p + 1) * 2 - 1)).weight > (b p).weight then (p + 1) * 2 - 1 else p) = s ∧
      (s = p ∨ (s + 1) / 2 = p + 1 ∧ s < size ∧ Heavier (f (s + 1)) (f (p + 1))) ∧
      ((p + 1) * 2 ≤ size → ¬Heavier (f ((p + 1) * 2)) (f (s + 1))) := by
    refine ⟨_, rfl, ?_⟩
    split_ifs with hcond
    · have heq : (p + 1) * 2 - 1 + 1 = (p + 1) * 2 := by omega
      rw [heq]
      refine ⟨.inr ⟨by omega, hcond.1, ?_⟩, fun _ ↦ hself _⟩
      rw [hleft, h p]
      exact hcond.2
    · refine ⟨.inl rfl, fun hsize hheavy ↦ hcond ⟨by omega, ?_⟩⟩
      rw [hleft, h p] at hheavy
      exact hheavy
  rw [Lblock.heaviest, hs]
  split_ifs with hcond
  · have hheavy : Heavier (f ((p + 1) * 2 + 1)) (f (s + 1)) := by
      rw [hright, h s]
      exact hcond.2
    refine ⟨.inr ⟨by omega, hcond.1, ?_⟩, fun d hd hdp ↦ ?_⟩
    · rcases hcase with rfl | ⟨-, -, hsp⟩
      · exact hheavy
      · exact gt_trans hheavy hsp
    · rcases (by omega : d = (p + 1) * 2 ∨ d = (p + 1) * 2 + 1) with rfl | rfl
      · exact not_heavier_trans _ _ _ (hbest (by omega)) (heavier_asymm _ _ hheavy)
      · exact hself _
  · refine ⟨hcase, fun d hd hdp ↦ ?_⟩
    rcases (by omega : d = (p + 1) * 2 ∨ d = (p + 1) * 2 + 1) with rfl | rfl
    · exact hbest hd
    · intro hheavy
      rw [hright, h s] at hheavy
      exact hcond ⟨by omega, hheavy⟩

/-- **`heapify`** restores the order below a position, and keeps the contents. -/
theorem heapify_spec (h : Shifted b f) (hdown : DownFrom Heavier k size f (p + 1)) (hk : k ≤ p + 1)
    (hp : p < size) : ∃ f', Shifted (heapify p size b) f' ∧ HeapFrom Heavier k size f' ∧
      contents size f' = contents size f := by
  induction p, b using heapify.induct (W := W) (P := P) size generalizing f with
  | case1 p b hs ih =>
    rw [heapify, if_pos hs]
    obtain ⟨hcase, hbest⟩ := h.heaviest hp
    obtain ⟨hparent, hlt, hheavy⟩ := hcase.resolve_left hs
    have hdown' := hdown.swap heavier_asymm hk (by omega) hparent hheavy hbest (by omega)
    obtain ⟨f', hholds, hheap, hcontents⟩ := ih (h.swap hs) hdown' (by omega) hlt
    refine ⟨f', hholds, hheap, hcontents.trans ?_⟩
    exact contents_swap (by omega) (by omega) (by omega) (by omega)
  | case2 p b hs =>
    rw [heapify, if_neg hs]
    rw [not_not] at hs
    refine ⟨f, h, hdown.heapFrom fun d hd hdp ↦ ?_, rfl⟩
    have hbest := (h.heaviest hp).2 d hd hdp
    rwa [hs] at hbest

/-- **The first loop** makes a heap. -/
theorem buildHeap_spec {count i : ℕ} (h : Shifted b f) (hi : i ≤ count / 2)
    (hheap : HeapFrom Heavier (i + 1) count f) : ∃ f', Shifted (buildHeap count i b) f' ∧
      IsHeap Heavier count f' ∧ contents count f' = contents count f := by
  induction i generalizing b f with
  | zero => exact ⟨f, h, heapFrom_one.1 hheap, rfl⟩
  | succ i ih =>
    obtain ⟨f₁, hholds₁, hheap₁, hcontents₁⟩ :=
      heapify_spec h (hheap.downFrom (by omega)) le_rfl (by omega)
    obtain ⟨f', hholds, hheap', hcontents⟩ := ih hholds₁ (by omega) hheap₁
    exact ⟨f', hholds, hheap', hcontents.trans hcontents₁⟩

omit [LinearOrder W] in
theorem Shifted.update (h : Shifted b f) (x : SortItem W P) :
    Shifted (Function.update b 0 x) (Function.update f 1 x) := by
  intro i
  rcases Nat.eq_zero_or_pos i with rfl | hi
  · rw [Function.update_self, Function.update_self]
  · rw [Function.update_of_ne (by omega), Function.update_of_ne (by omega), h i]

/-- **The second loop** lists what is below the top in order. -/
theorem emit_spec {i : ℕ} (paths : List P) (h : Shifted b f) (hheap : IsHeap Heavier (i + 1) f) :
    ∃ l : List (SortItem W P), emit i b paths = paths ++ l.map SortItem.ptr ∧
      f 1 ::ₘ (l : Multiset (SortItem W P)) = contents (i + 1) f ∧
      (f 1 :: l).Pairwise fun x y ↦ ¬Heavier y x := by
  induction i generalizing b f paths with
  | zero => exact ⟨[], by simp [emit], rfl, List.pairwise_singleton _ _⟩
  | succ i ih =>
    have hpop := contents_pop (i + 1) f
    have hdown := downFrom_one.2 hheap.downOrder
    rw [h (i + 1)] at hpop hdown
    obtain ⟨f', hholds, hheap', hcontents⟩ :=
      heapify_spec (h.update (b (i + 1))) hdown le_rfl (Nat.succ_pos i)
    obtain ⟨l, hl, hmem, hsorted⟩ :=
      ih (paths ++ [(heapify 0 (i + 1) (Function.update b 0 (b (i + 1))) 0).ptr]) hholds
        (heapFrom_one.1 hheap')
    refine ⟨f' 1 :: l, ?_, ?_, List.pairwise_cons.2 ⟨fun y hy ↦ ?_, hsorted⟩⟩
    · rw [emit, hl, List.map_cons, hholds 0, List.append_assoc, List.singleton_append]
    · rw [hpop, ← hcontents, ← hmem]
      rfl
    · have hy' : y ∈ contents (i + 2) f := by
        rw [hpop, ← hcontents, ← hmem]
        exact Multiset.mem_cons_of_mem (Multiset.mem_coe.2 hy)
      obtain ⟨j, ⟨hj, hjn⟩, rfl⟩ := mem_contents.1 hy'
      exact hheap.not_above_top heavier_asymm not_heavier_trans hj hjn

/-! ### The sorted list -/

section

variable {priority : P → W} {mem : ℕ → SortItem W P} {paths : List P}

omit [LinearOrder W] in
theorem fillBuf_of_lt {i j : ℕ} (hj : j < i) : fillBuf priority i paths mem j = mem j := by
  induction paths generalizing i mem with
  | nil => rfl
  | cons ptr paths ih => rw [fillBuf, ih (by omega), Function.update_of_ne (by omega)]

omit [LinearOrder W] in
theorem fillBuf_add {i j : ℕ} (hj : j < paths.length) :
    fillBuf priority i paths mem (i + j) = ⟨priority paths[j], paths[j]⟩ := by
  induction paths generalizing i j mem with
  | nil => exact absurd hj (Nat.not_lt_zero j)
  | cons ptr paths ih =>
    rw [fillBuf]
    cases j with
    | zero =>
      rw [add_zero, fillBuf_of_lt (Nat.lt_succ_self i), Function.update_self, List.getElem_cons_zero]
    | succ j =>
      rw [show i + (j + 1) = i + 1 + j by omega, ih (Nat.lt_of_succ_lt_succ hj)]
      rfl

omit [LinearOrder W] in
theorem Shifted.contents (h : Shifted b f) (n : ℕ) : contents n f = ((List.range n).map b : List _) := by
  induction n with
  | zero => rfl
  | succ n ih =>
    rw [contents_succ, ih, h n, List.range_succ, List.map_append, ← Multiset.coe_add, add_comm]
    rfl

/-- **The paths are sorted**: in the list that is left, the same paths stand in non-increasing priority. -/
theorem sortPaths_spec (priority : P → W) (mem : ℕ → SortItem W P) (hne : paths ≠ []) :
    ∃ sorted, sortPaths priority mem paths = .ok sorted ∧ sorted.Perm paths ∧
      sorted.Pairwise fun x y ↦ priority x ≥ priority y := by
  obtain ⟨n, hn⟩ := Nat.exists_eq_succ_of_ne_zero (mt List.length_eq_zero_iff.1 hne)
  have hfill : (List.range (n + 1)).map (fillBuf priority 0 paths mem) =
      paths.map fun ptr ↦ ⟨priority ptr, ptr⟩ := by
    refine List.ext_getElem (by simp [hn]) fun j hj _ ↦ ?_
    have hj' : j < paths.length := by simpa [hn] using hj
    have hitem : fillBuf priority 0 paths mem (0 + j) = ⟨priority paths[j], paths[j]⟩ := fillBuf_add hj'
    simpa using hitem
  have hholds : Shifted (fillBuf priority 0 paths mem) fun i ↦ fillBuf priority 0 paths mem (i - 1) :=
    fun _ ↦ rfl
  obtain ⟨f, hf, hheap, hcontents⟩ :=
    buildHeap_spec hholds le_rfl (heapFrom_half _ (n + 1) _)
  obtain ⟨l, hl, hmem, hsorted⟩ := emit_spec
    [(buildHeap (n + 1) ((n + 1) / 2) (fillBuf priority 0 paths mem) 0).ptr] hf hheap
  have hitems : (f 1 :: l).Perm (paths.map fun ptr ↦ ⟨priority ptr, ptr⟩) := by
    rw [← Multiset.coe_eq_coe, ← hfill, ← hholds.contents, ← hcontents, ← hmem]
    rfl
  have hweight : ∀ x ∈ f 1 :: l, x.weight = priority x.ptr := by
    intro x hx
    obtain ⟨ptr, -, rfl⟩ := List.mem_map.1 (hitems.mem_iff.1 hx)
    rfl
  refine ⟨(f 1 :: l).map SortItem.ptr, ?_, ?_, ?_⟩
  · simp only [sortPaths, hn, if_neg (Nat.succ_ne_zero n), Nat.succ_sub_one]
    rw [hl, List.map_cons, hf 0]
    rfl
  · have hptr := hitems.map SortItem.ptr
    rwa [List.map_map, Function.comp_def, List.map_id'] at hptr
  · refine List.pairwise_map.2 (hsorted.imp_of_mem fun {x y} hx hy hxy ↦ ?_)
    rw [← hweight x hx, ← hweight y hy]
    exact not_lt.1 hxy

/-- Seven paths, some of one priority. -/
theorem sortPaths_spec_seven : ∃ sorted,
    sortPaths (fun c : Char ↦ c.toNat % 4) (fun _ ↦ ⟨0, 'x'⟩) ['a', 'b', 'c', 'd', 'e', 'f', 'g'] =
        .ok sorted ∧
      sorted.map (fun c ↦ c.toNat % 4) = [3, 3, 2, 2, 1, 1, 0] := by
  obtain ⟨sorted, hrun, hperm, hsorted⟩ :=
    sortPaths_spec (fun c : Char ↦ c.toNat % 4) (fun _ ↦ ⟨0, 'x'⟩)
      (List.cons_ne_nil 'a' ['b', 'c', 'd', 'e', 'f', 'g'])
  have hweights : (sorted.map fun c ↦ c.toNat % 4).Perm [3, 3, 2, 2, 1, 1, 0] :=
    (hperm.map _).trans (by decide)
  refine ⟨sorted, hrun, hweights.eq_of_pairwise (fun a b _ _ hab hba ↦ le_antisymm hba hab)
    (List.pairwise_map.2 hsorted) (by decide)⟩

end

end OpenImpact.Lblock
