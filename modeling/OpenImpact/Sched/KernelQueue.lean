import OpenImpact.Library.HeapSort
import OpenImpact.Sched.SmSched
import Mathlib.Data.Int.ModEq

/-!
# The kernel of a modulo schedule

`SM_set_sched_cycle_offset` and `SM_construct_temp_kernel_queue` of `sm.c`: the offset that makes the
first cycle zero and the last one the end of a stage, the attributes of the operations, and the queue of
the kernel's operations, which a heap puts in order.

`constructTempKernelQueue_spec` needs a schedule in order (`ScheduleOrder`), as the list of
scheduled operations is, with cycles in a range in which the weights of the heap are `int`s
(`InKernelRange`). It rests on the priority queue of `HeapRuns`. The `cycle` attributes of an
operation are a list, since the source adds one at each call and deletes none; that a reader of
attributes finds the one it wants is not claimed.
-/

namespace OpenImpact.Sm

/-- The attributes of an operation: the first two fields of `isl`, `stage`, and the values of its
attributes `cycle`. -/
structure KernelAttr where
  isl : ℤ
  islSlot : Slot
  stage : ℤ
  cycles : List ℤ

/-- What the functions leave in `SM_Cb` and in the attributes. -/
structure Kernel where
  offset : ℤ
  stages : ℤ
  queue : List ℕ
  attr : ℕ → Option KernelAttr

section Functions

variable (cb : Cb) (s : State)

/-- `ofst`, once the last operation is in the last cycle of its stage. -/
def alignOffset (ii ofst lpos : ℤ) : Run ℤ :=
  if lpos < ii - 1 then int32 (ofst + (ii - 1 - lpos)) else .ok ofst

/-- `SM_set_sched_cycle_offset`, with the operations in schedule order: the offset and the number of
stages. -/
def setSchedCycleOffset (schedOpers : List ℕ) (stages : ℤ) : Run (ℤ × ℤ) := do
  let first ← deref schedOpers.head?
  let ofst ← int32 (-(s first).schedCycle)
  if cb.moduloResources then
    if cb.ii = 0 then .ok (0, stages)
    else do
      let last ← deref schedOpers.getLast?
      let normalized ← int32 ((s last).schedCycle + ofst)
      let ofst ← alignOffset cb.ii ofst (normalized.tmod cb.ii)
      let normalized ← int32 ((s last).schedCycle + ofst)
      if normalized.tmod cb.ii ≠ cb.ii - 1 then
        .error (.punt "((lcycle + ofst) % sm_cb->II) == sm_cb->II - 1")
      else do
        let length ← int32 ((s last).schedCycle - (s first).schedCycle + 1)
        let rounded ← int32 (length + cb.ii - 1)
        .ok (ofst, rounded.tdiv cb.ii)
  else .ok (ofst, stages)

/-- `kernel_cycle`. -/
def kernelCycle (ii cycle : ℤ) : ℤ :=
  if cycle.tmod ii < 0 then cycle.tmod ii + ii else cycle.tmod ii

/-- The attributes are set. A `cycle` is added to the ones there are. -/
def KernelAttr.after (old : Option KernelAttr) (a : KernelAttr) : KernelAttr :=
  { a with cycles := old.elim [] KernelAttr.cycles ++ a.cycles }

/-- One operation: its attributes, and its place in the heap. -/
def insertKernel (offset : ℤ) (p : Heaps.Heap ℤ ℕ × (ℕ → Option KernelAttr)) (o : ℕ) :
    Run (Heaps.Heap ℤ ℕ × (ℕ → Option KernelAttr)) := do
  let cycle ← int32 ((s o).schedCycle + offset)
  let kernelCycle := kernelCycle cb.ii cycle
  let shifted ← int32 (kernelCycle * 65536)
  let weight ← int32 (shifted + (s o).schedSlot.val)
  let heap ← Heaps.insert p.1 o weight
  .ok (heap, Function.update p.2 o (some (KernelAttr.after (p.2 o)
    ⟨kernelCycle, (s o).schedSlot, cycle.tdiv cb.ii, [cycle]⟩)))

/-- `SM_construct_temp_kernel_queue`, with the flag `SM_NORMALIZE_ISSUE`. -/
def constructTempKernelQueue (normalizeIssue : Bool) (schedOpers : List ℕ) (k : Kernel) :
    Run Kernel :=
  if !normalizeIssue || !cb.moduloResources then .ok k
  else do
    let (offset, stages) ← setSchedCycleOffset cb s schedOpers k.stages
    let (heap, attr) ← schedOpers.foldlM (insertKernel cb s offset) (Heaps.create .min, k.attr)
    let queue ← Heaps.drain (heap.size + 1) heap
    .ok ⟨offset, stages, queue, attr⟩

end Functions

section Spec

variable {cb : Cb} {s : State} {os : List ℕ} {offset : ℤ}

theorem kernelCycle_eq {ii cycle : ℤ} (hii : 1 ≤ ii) (hcycle : 0 ≤ cycle) :
    kernelCycle ii cycle = cycle % ii := by
  rw [kernelCycle, Int.tmod_eq_emod_of_nonneg hcycle, if_neg]
  exact not_lt.2 (Int.emod_nonneg _ (by omega))

/-- What the cycles of a schedule fit in. -/
structure InKernelRange (cb : Cb) (s : State) (os : List ℕ) : Prop where
  ii_le : cb.ii ≤ 32768
  cycle : ∀ o ∈ os, -2 ^ 29 ≤ (s o).schedCycle ∧ (s o).schedCycle ≤ 2 ^ 29
  length_lt : os.length < 2 ^ 30

/-- A schedule, in its order. -/
structure ScheduleOrder (cb : Cb) (s : State) (os : List ℕ) : Prop where
  ne_nil : os ≠ []
  nodup : os.Nodup
  sorted : os.Pairwise fun a b ↦ (s a).schedCycle ≤ (s b).schedCycle
  slots : ∀ a ∈ os, ∀ b ∈ os, a ≠ b → (s a).schedCycle ≡ (s b).schedCycle [ZMOD cb.ii] →
    (s a).schedSlot ≠ (s b).schedSlot

/-- In a schedule in its order an operation is between the first and the last one. -/
theorem between_of_sorted (h : os.Pairwise fun a b ↦ (s a).schedCycle ≤ (s b).schedCycle) {o : ℕ}
    (ho : o ∈ os) : (∀ a, os.head? = some a → (s a).schedCycle ≤ (s o).schedCycle) ∧
      ∀ b, os.getLast? = some b → (s o).schedCycle ≤ (s b).schedCycle := by
  constructor
  · intro a ha
    obtain ⟨rest, rfl⟩ : ∃ rest, os = a :: rest := List.head?_eq_some_iff.1 ha
    rcases List.mem_cons.1 ho with rfl | ho
    · exact le_refl _
    · exact List.rel_of_pairwise_cons h ho
  · intro b hb
    obtain ⟨front, rfl⟩ : ∃ front, os = front ++ [b] := List.getLast?_eq_some_iff.1 hb
    rcases List.mem_append.1 ho with ho | ho
    · exact (List.pairwise_append.1 h).2.2 o ho b List.mem_cons_self
    · rw [List.mem_singleton.1 ho]

/-- What the offset does to the cycles. -/
structure Normalizes (cb : Cb) (s : State) (os : List ℕ) (offset stages : ℤ) : Prop where
  bound : -2 ^ 29 ≤ offset ∧ offset ≤ 2 ^ 29 + 32768
  first : ∀ o, os.head? = some o → 0 ≤ (s o).schedCycle + offset ∧
    (s o).schedCycle + offset < cb.ii
  last : ∀ o, os.getLast? = some o → (s o).schedCycle + offset = stages * cb.ii - 1

theorem setSchedCycleOffset_spec (hmodulo : cb.moduloResources = true) (hii : 1 ≤ cb.ii)
    (hrange : InKernelRange cb s os) (horder : ScheduleOrder cb s os) (stages : ℤ) :
    ∃ p, setSchedCycleOffset cb s os stages = .ok p ∧ Normalizes cb s os p.1 p.2 := by
  obtain ⟨first, hfirst⟩ : ∃ o, os.head? = some o := by
    cases os with
    | nil => exact absurd rfl horder.ne_nil
    | cons o os => exact ⟨o, rfl⟩
  obtain ⟨last, hlast⟩ : ∃ o, os.getLast? = some o :=
    ⟨_, List.getLast?_eq_some_getLast horder.ne_nil⟩
  have hf := hrange.cycle first (List.mem_of_mem_head? hfirst)
  have hl := hrange.cycle last (List.mem_of_mem_getLast? hlast)
  have hle := (between_of_sorted horder.sorted (List.mem_of_mem_getLast? hlast)).1 first hfirst
  have hii' := hrange.ii_le
  obtain ⟨n, hn⟩ : ∃ n, n = (s last).schedCycle + -(s first).schedCycle := ⟨_, rfl⟩
  have hmod : n.tmod cb.ii = n % cb.ii := Int.tmod_eq_emod_of_nonneg (by omega)
  have hmod₀ := Int.emod_nonneg n (by omega : cb.ii ≠ 0)
  have hmod₁ := Int.emod_lt_of_pos n (by omega : 0 < cb.ii)
  have hdiv := Int.mul_ediv_add_emod n cb.ii
  -- both branches give the offset that ends the last stage with the last operation
  obtain ⟨offset, hoffset⟩ : ∃ ofst, ofst = -(s first).schedCycle + (cb.ii - 1 - n % cb.ii) := ⟨_, rfl⟩
  have halign : alignOffset cb.ii (-(s first).schedCycle) (n % cb.ii) = .ok offset := by
    rw [alignOffset]
    split_ifs
    · rw [int32_eq (by omega), hoffset]
    · rw [hoffset]
      congr 1
      omega
  have hend : (s last).schedCycle + offset = (n / cb.ii + 1) * cb.ii - 1 := by
    rw [add_mul, mul_comm, one_mul]
    omega
  have hlpos : ((s last).schedCycle + offset).tmod cb.ii = cb.ii - 1 := by
    rw [Int.tmod_eq_emod_of_nonneg (by omega), hend, add_mul, one_mul, add_sub_assoc, add_comm,
      Int.add_mul_emod_self_right, Int.emod_eq_of_lt (by omega) (by omega)]
  have hstages : ((s last).schedCycle - (s first).schedCycle + 1 + cb.ii - 1).tdiv cb.ii =
      n / cb.ii + 1 := by
    rw [Int.tdiv_eq_ediv_of_nonneg (by omega), show (s last).schedCycle - (s first).schedCycle + 1 +
      cb.ii - 1 = n + 1 * cb.ii by omega, Int.add_mul_ediv_right _ _ (by omega)]
  refine ⟨(offset, n / cb.ii + 1), ?_, ⟨by dsimp only; omega, fun o ho ↦ ?_, fun o ho ↦ ?_⟩⟩
  · rw [setSchedCycleOffset, hfirst, deref_some, Run.ok_bind, int32_eq (by omega), Run.ok_bind,
      if_pos hmodulo, if_neg (by omega), hlast, deref_some, Run.ok_bind, ← hn, int32_eq (by omega),
      Run.ok_bind, hmod, halign, Run.ok_bind, int32_eq (by omega), Run.ok_bind, hlpos,
      if_neg (not_not.2 rfl), int32_eq (by omega), Run.ok_bind, int32_eq (by omega), Run.ok_bind,
      hstages]
  · obtain rfl := Option.some.inj (hfirst.symm.trans ho)
    dsimp only
    omega
  · obtain rfl := Option.some.inj (hlast.symm.trans ho)
    exact hend

/-! ### The heap of operations -/

/-- The attributes of an operation of the kernel, which had none. -/
def kernelAttr (cb : Cb) (s : State) (offset : ℤ) (o : ℕ) : KernelAttr where
  isl := ((s o).schedCycle + offset) % cb.ii
  islSlot := (s o).schedSlot
  stage := ((s o).schedCycle + offset) / cb.ii
  cycles := [(s o).schedCycle + offset]

/-- The weight of an operation in the heap. -/
def kernelWeight (cb : Cb) (s : State) (offset : ℤ) (o : ℕ) : ℤ :=
  ((s o).schedCycle + offset) % cb.ii * 65536 + (s o).schedSlot.val

/-- The weights order the operations by their cycle in the kernel, and within it by their slot. -/
theorem kernelWeight_lt {a b : ℕ}
    (hslot : (s a).schedCycle ≡ (s b).schedCycle [ZMOD cb.ii] → (s a).schedSlot ≠ (s b).schedSlot)
    (h : kernelWeight cb s offset a ≤ kernelWeight cb s offset b) :
    (kernelAttr cb s offset a).isl < (kernelAttr cb s offset b).isl ∨
      (kernelAttr cb s offset a).isl = (kernelAttr cb s offset b).isl ∧
        (kernelAttr cb s offset a).islSlot < (kernelAttr cb s offset b).islSlot := by
  rw [kernelWeight, kernelWeight] at h
  have ha := (s a).schedSlot.isLt
  have hb := (s b).schedSlot.isLt
  rcases lt_trichotomy (((s a).schedCycle + offset) % cb.ii) (((s b).schedCycle + offset) % cb.ii)
    with hlt | heq | hgt
  · exact Or.inl hlt
  · refine Or.inr ⟨heq, ?_⟩
    have hne := hslot ((Int.emod_add_cancel_right offset).1 heq)
    have hval : (s a).schedSlot.val ≠ (s b).schedSlot.val := fun h ↦ hne (Fin.ext h)
    show (s a).schedSlot.val < (s b).schedSlot.val
    rw [heq] at h
    omega
  · omega

section Heap

variable {H : Heaps.Heap ℤ ℕ} {S : Multiset (ℤ × ℕ)} {o : ℕ}

theorem insertKernel_spec (h : Heaps.Represents H S) (hsize : H.size + 1 < 2 ^ 30) (hii : 1 ≤ cb.ii)
    (hii' : cb.ii ≤ 32768) (hcycle : 0 ≤ (s o).schedCycle + offset)
    (hcycle' : (s o).schedCycle + offset ≤ 2147483647) (attr : ℕ → Option KernelAttr) :
    ∃ H', insertKernel cb s offset (H, attr) o =
        .ok (H', Function.update attr o (some (.after (attr o) (kernelAttr cb s offset o)))) ∧
      Heaps.Represents H' ((kernelWeight cb s offset o, o) ::ₘ S) ∧ H'.dir = H.dir ∧
      H'.size = H.size + 1 := by
  obtain ⟨H', hrun, hrep⟩ := h.insert hsize o (kernelWeight cb s offset o)
  refine ⟨H', ?_, hrep⟩
  have hslot := (s o).schedSlot.isLt
  have hmod₀ := Int.emod_nonneg ((s o).schedCycle + offset) (by omega : cb.ii ≠ 0)
  have hmod₁ := Int.emod_lt_of_pos ((s o).schedCycle + offset) (by omega : 0 < cb.ii)
  rw [kernelWeight] at hrun
  rw [insertKernel, int32_eq (by omega), Run.ok_bind, kernelCycle_eq hii hcycle]
  dsimp only
  rw [int32_eq (by omega), Run.ok_bind, int32_eq (by omega), Run.ok_bind, hrun, Run.ok_bind,
    Int.tdiv_eq_ediv_of_nonneg hcycle]
  rfl

/-- **All operations** are put in the heap. -/
theorem foldlM_insertKernel_spec (hii : 1 ≤ cb.ii) (hii' : cb.ii ≤ 32768)
    (hcycle : ∀ o ∈ os, 0 ≤ (s o).schedCycle + offset ∧ (s o).schedCycle + offset ≤ 2147483647)
    (h : Heaps.Represents H S) (hsize : H.size + os.length < 2 ^ 30) (hnodup : os.Nodup)
    (attr : ℕ → Option KernelAttr) :
    ∃ H' attr', os.foldlM (insertKernel cb s offset) (H, attr) = .ok (H', attr') ∧
      Heaps.Represents H' (S + os.map fun o ↦ (kernelWeight cb s offset o, o)) ∧ H'.dir = H.dir ∧
      H'.size = H.size + os.length ∧ (∀ o ∈ os, attr' o = some (.after (attr o) (kernelAttr cb s offset o))) ∧
      ∀ o ∉ os, attr' o = attr o := by
  induction os generalizing H S attr with
  | nil => exact ⟨H, attr, rfl, by simpa using h, rfl, rfl, by simp, fun _ _ ↦ rfl⟩
  | cons o os ih =>
    rw [List.length_cons] at hsize
    obtain ⟨hfirst, hcycle⟩ := List.forall_mem_cons.1 hcycle
    obtain ⟨ho, hnodup⟩ := List.nodup_cons.1 hnodup
    obtain ⟨H₁, hrun₁, hrep₁, hdir₁, hsize₁⟩ :=
      insertKernel_spec h (by omega) hii hii' hfirst.1 hfirst.2 attr
    obtain ⟨H', attr', hrun, hrep, hdir, hsize', hmem, hnotMem⟩ := ih hcycle hrep₁ (by omega) hnodup
      (Function.update attr o (some (.after (attr o) (kernelAttr cb s offset o))))
    refine ⟨H', attr', ?_, ?_, hdir.trans hdir₁, by rw [List.length_cons]; omega,
      fun o' ho' ↦ ?_, fun o' ho' ↦ ?_⟩
    · rw [List.foldlM_cons, hrun₁, Run.ok_bind, hrun]
    · rwa [List.map_cons, ← Multiset.cons_coe, Multiset.add_cons, ← Multiset.cons_add]
    · rcases List.mem_cons.1 ho' with rfl | ho'
      · rw [hnotMem o' ho, Function.update_self]
      · rw [hmem o' ho', Function.update_of_ne (ne_of_mem_of_not_mem ho' ho)]
    · rw [List.mem_cons, not_or] at ho'
      rw [hnotMem o' ho'.2, Function.update_of_ne ho'.1]

end Heap

/-- **The kernel of a modulo schedule** is always found: all operations, in the order of the cycles of
the kernel and of the slots in a cycle, with attributes that give the cycle of each by its stage and its
place in the kernel, from the first cycle of the first stage to the last cycle of the last stage. -/
theorem constructTempKernelQueue_spec (cb : Cb) (s : State) (os : List ℕ)
    (hmodulo : cb.moduloResources = true) (hii : 1 ≤ cb.ii) (hrange : InKernelRange cb s os)
    (horder : ScheduleOrder cb s os) (k : Kernel) :
    ∃ k', constructTempKernelQueue cb s true os k = .ok k' ∧ k'.queue.Perm os ∧
      k'.queue.Pairwise (fun a b ↦
        (kernelAttr cb s k'.offset a).isl < (kernelAttr cb s k'.offset b).isl ∨
          (kernelAttr cb s k'.offset a).isl = (kernelAttr cb s k'.offset b).isl ∧
            (s a).schedSlot < (s b).schedSlot) ∧
      (∀ o ∈ os, k'.attr o = some (.after (k.attr o) (kernelAttr cb s k'.offset o)) ∧
        0 ≤ (kernelAttr cb s k'.offset o).stage ∧
        (kernelAttr cb s k'.offset o).stage < k'.stages) ∧
      (∀ o, os.head? = some o → (kernelAttr cb s k'.offset o).stage = 0) ∧
      ∀ o, os.getLast? = some o → (kernelAttr cb s k'.offset o).stage = k'.stages - 1 ∧
        (kernelAttr cb s k'.offset o).isl = cb.ii - 1 := by
  obtain ⟨⟨offset, stages⟩, hoffset, hnorm⟩ :=
    setSchedCycleOffset_spec hmodulo hii hrange horder k.stages
  have hbound : -2 ^ 29 ≤ offset ∧ offset ≤ 2 ^ 29 + 32768 := hnorm.bound
  have hii' := hrange.ii_le
  -- every operation is between the first and the last one
  have hcycle (o : ℕ) (ho : o ∈ os) :
      0 ≤ (s o).schedCycle + offset ∧ (s o).schedCycle + offset < stages * cb.ii := by
    obtain ⟨hfrom, hto⟩ := between_of_sorted horder.sorted ho
    have hfirst := hfrom _ (List.head?_eq_some_head horder.ne_nil)
    have hlast := hto _ (List.getLast?_eq_some_getLast horder.ne_nil)
    have hnorm₀ := hnorm.first _ (List.head?_eq_some_head horder.ne_nil)
    have hnorm₁ := hnorm.last _ (List.getLast?_eq_some_getLast horder.ne_nil)
    dsimp only at hnorm₀ hnorm₁
    omega
  have hint (o : ℕ) (ho : o ∈ os) :
      0 ≤ (s o).schedCycle + offset ∧ (s o).schedCycle + offset ≤ 2147483647 := by
    have := hrange.cycle o ho
    exact ⟨(hcycle o ho).1, by omega⟩
  obtain ⟨H, attr, hfill, hrep, hdir, hsize, hattr, -⟩ := foldlM_insertKernel_spec hii hii' hint
    (Heaps.represents_create .min) (by simpa [Heaps.create] using hrange.length_lt) horder.nodup
    k.attr
  have hlen : H.size < 2 ^ 30 := by
    rw [hsize]
    simpa [Heaps.create] using hrange.length_lt
  obtain ⟨xs, hdrain, hperm, hsorted⟩ := hrep.drain hdir hlen (Nat.lt_succ_self _)
  rw [zero_add, Multiset.coe_eq_coe] at hperm
  have hqueue : (xs.map Prod.snd).Perm os := by
    simpa [Function.comp_def] using hperm.map Prod.snd
  refine ⟨⟨offset, stages, xs.map Prod.snd, attr⟩, ?_, hqueue, ?_, fun o ho ↦ ?_, fun o ho ↦ ?_,
    fun o ho ↦ ?_⟩
  · rw [constructTempKernelQueue, hmodulo, if_neg (by simp), hoffset, Run.ok_bind]
    dsimp only
    rw [hfill, Run.ok_bind]
    dsimp only
    rw [hdrain, Run.ok_bind]
  · have hnodup : xs.Pairwise fun x y ↦ x.2 ≠ y.2 :=
      List.pairwise_map.1 (hqueue.nodup_iff.2 horder.nodup)
    refine List.pairwise_map.2 ((hsorted.and hnodup).imp_of_mem fun {x y} hx hy hxy ↦ ?_)
    obtain ⟨a, ha, rfl⟩ := List.mem_map.1 (hperm.mem_iff.1 hx)
    obtain ⟨b, hb, rfl⟩ := List.mem_map.1 (hperm.mem_iff.1 hy)
    exact kernelWeight_lt (horder.slots a ha b hb hxy.2) hxy.1
  · obtain ⟨hlow, hhigh⟩ := hcycle o ho
    exact ⟨hattr o ho, Int.ediv_nonneg hlow (by omega), Int.ediv_lt_of_lt_mul (by omega) hhigh⟩
  · exact Int.ediv_eq_zero_of_lt (hnorm.first o ho).1 (hnorm.first o ho).2
  · have hlast : (s o).schedCycle + offset = cb.ii - 1 + (stages - 1) * cb.ii := by
      have : (s o).schedCycle + offset = stages * cb.ii - 1 := hnorm.last o ho
      rw [this]
      ring
    rw [kernelAttr, hlast, Int.add_mul_ediv_right _ _ (by omega), Int.add_mul_emod_self_right]
    exact ⟨by rw [Int.ediv_eq_zero_of_lt (by omega) (by omega), zero_add],
      Int.emod_eq_of_lt (by omega) (by omega)⟩

/-- Operation 0 in slot 1 of cycle 4 and operation 1 in slot 3 of cycle 7, the second one in the stage
after the first one. -/
def twoStages : State := fun o ↦
  { unplaced (fun _ ↦ 0) o with
    scheduled := true
    schedCycle := if o = 0 then 4 else 7
    schedSlot := if o = 0 then 1 else 3 }

theorem constructTempKernelQueue_twoStages :
    ∃ k', constructTempKernelQueue (twoOpers true [1]) twoStages true [0, 1]
        ⟨0, 0, [], fun _ ↦ none⟩ = .ok k' ∧ k'.queue.Perm [0, 1] ∧
      (kernelAttr (twoOpers true [1]) twoStages k'.offset 1).stage = k'.stages - 1 := by
  obtain ⟨k', hrun, hperm, -, -, -, hlast⟩ := constructTempKernelQueue_spec (twoOpers true [1])
    twoStages [0, 1] rfl (by decide) ⟨by decide, by decide, by decide⟩
    ⟨by decide, by decide, by decide, by decide⟩ ⟨0, 0, [], fun _ ↦ none⟩
  exact ⟨k', hrun, hperm, (hlast 1 rfl).1⟩

end Spec

end OpenImpact.Sm
