import OpenImpact.Softpipe.LiveRange
import Mathlib.Data.Finset.Basic
import Mathlib.Data.List.Nodup

/-!
# Rotating registers

`Lpipe_associate_rot_regs` and the renaming of `Lpipe_rreg_transform` in `l_mve.c`. Live ranges wait
in an array with one bucket for each cycle and slot of the kernel, and a live range that starts after
the previous one ended takes over the last register of that one.
-/

namespace OpenImpact.Softpipe

/-! ### The source's functions -/

/-- The rotating registers of each kind: the first one and how many may be allocated. `kernelOnly`
is `Lpipe_schema == KERNEL_ONLY`. -/
structure RotFile where
  base : Ctype → ℤ
  maxAlloc : Ctype → ℤ
  kernelOnly : Bool

/-- The number of names of a live range in `Lpipe_associate_rot_regs`. -/
def rotNumNames (ii : ℤ) (lr : LRInfo) : Run ℤ :=
  let defTime :=
    if lr.liveIn && decide (lr.liveInDefTime < lr.firstDefTime) then lr.liveInDefTime
    else lr.firstDefTime
  let numNames :=
    if lr.lifetime = 0 then 1 else lr.lastAccessTime.tdiv ii - defTime.tdiv ii + 1
  if numNames ≤ 0 then
    .error (.punt ("Lpipe_alloc_rot_regs: " ++ "num_names is not greater than zero"))
  else
    let numNames :=
      if decide (lr.lifetime ≤ ii) && !lr.useAfterDefSlot &&
        decide (lr.operand.ctype ≠ .predicate) then 0 else numNames
    if lr.isMacro && decide (numNames > 1) then
      .error (.punt ("Lpipe_alloc_rot_regs: " ++ "cannot rename macro registers\n"))
    else .ok numNames

/-- The index of the bucket in which a live range starts. -/
def opArrayIndex (ii : ℤ) (lr : LRInfo) : ℤ :=
  if lr.liveIn && decide (lr.liveInDefTime ≤ lr.firstDefTime) then 0
  else 8 * lr.firstDefTime.tmod ii + lr.firstDefSlot

/-- `List_insert_last` in the bucket of live range `k`. -/
def insertLr (ii : ℤ) (opArray : List (List ℕ)) (lr : LRInfo) (k : ℕ) : Run (List (List ℕ)) :=
  if lr.numNames > 0 then
    if opArrayIndex ii lr < 0 ∨ opArrayIndex ii lr ≥ ii * 8 then
      .error (.punt "Lpipe_associate_rot_regs: invalid op_array index (%d).")
    else .ok (opArray.modify (opArrayIndex ii lr).toNat (· ++ [k]))
  else .ok opArray

/-- The first loop of `Lpipe_associate_rot_regs`, from live range `k` on: counts names and fills
`op_array`, whose entries point to live ranges by their place in the list. -/
def fillOpArray (ii : ℤ) : ℕ → List LRInfo → List (List ℕ) → Run (List LRInfo × List (List ℕ))
  | _, [], opArray => .ok ([], opArray)
  | k, lr :: lrs, opArray => do
    let numNames ← rotNumNames ii lr
    let opArray ← insertLr ii opArray { lr with numNames := numNames } k
    let (rest, opArray) ← fillOpArray ii (k + 1) lrs opArray
    .ok ({ lr with numNames := numNames } :: rest, opArray)

/-- The first entry with `p` in the buckets `indices`, with its bucket. -/
def firstIn (p : ℕ → Bool) (opArray : List (List ℕ)) (indices : List ℕ) : Option (ℕ × ℕ) :=
  indices.findSome? fun j ↦ ((opArray[j]?.getD []).find? p).map fun k ↦ (j, k)

/-- The bucket after the last access of the previous live range. -/
def shareIndex (ii : ℤ) (prev : LRInfo) : ℤ :=
  8 * prev.lastAccessTime.tmod ii + prev.lastAccessSlot + 1

/-- The first search of `Lpipe_get_best_lr`. -/
def findShare (ii : ℤ) (lrs : List LRInfo) (opArray : List (List ℕ)) :
    Option LRInfo → Run (Option (ℕ × ℕ))
  | none => .ok none
  | some prev =>
    if shareIndex ii prev < 0 then .error .fault
    else .ok (firstIn
      (fun k ↦ decide (lrs[k]?.map (fun lr ↦ lr.operand.ctype) = some prev.operand.ctype)) opArray
      (List.range' (shareIndex ii prev).toNat (opArray.length - (shareIndex ii prev).toNat)))

/-- `Lpipe_get_best_lr`: the selected live range, whether it shares a register with the previous
one, and the remaining ones. -/
def getBestLr (ii : ℤ) (lrs : List LRInfo) (opArray : List (List ℕ)) (prev : Option LRInfo) :
    Run (Option (Bool × ℕ × List (List ℕ))) := do
  match ← findShare ii lrs opArray prev with
  | some (j, k) => .ok (some (true, k, opArray.modify j (·.erase k)))
  | none =>
    match firstIn (fun _ ↦ true) opArray (List.range opArray.length) with
    | some (j, k) => .ok (some (false, k, opArray.modify j (·.erase k)))
    | none => .ok none

/-- `n` register operands, the first one recycled when `share` is set, and the next free register. -/
def newRotRegs (ctype : Ctype) : ℕ → Bool → ℤ → List Operand × ℤ
  | 0, _, next => ([], next)
  | n + 1, share, next =>
    if share then
      (⟨next - 1, ctype⟩ :: (newRotRegs ctype n false next).1, (newRotRegs ctype n false next).2)
    else
      (⟨next, ctype⟩ :: (newRotRegs ctype n false (next + 1)).1,
        (newRotRegs ctype n false (next + 1)).2)

/-- What the allocating loop of `Lpipe_associate_rot_regs` works on. -/
structure RotState where
  opArray : List (List ℕ)
  lrs : List LRInfo
  prev : Option LRInfo
  next : Ctype → ℤ

/-- The body of the allocating loop for live range `k`. There is room for `stages + 2` names. -/
def assignRotRegs (stages : ℤ) (s : RotState) (share : Bool) (k : ℕ) (opArray : List (List ℕ)) :
    Run RotState := do
  let lr ← deref s.lrs[k]?
  if lr.numNames + 1 > stages + 2 then .error .fault
  else
    let (regs, next) :=
      newRotRegs lr.operand.ctype lr.numNames.toNat share (s.next lr.operand.ctype)
    let lr' := { lr with numNames := lr.numNames + 1, names := lr.operand :: regs }
    .ok { opArray
          lrs := s.lrs.set k lr'
          prev := some lr'
          next := Function.update s.next lr.operand.ctype next }

/-- The allocating loop of `Lpipe_associate_rot_regs`. -/
def allocRotRegs (ii stages : ℤ) : ℕ → RotState → Run RotState
  | 0, _ => .error .outOfFuel
  | fuel + 1, s => do
    match ← getBestLr ii s.lrs s.opArray s.prev with
    | none => .ok s
    | some (share, k, opArray) =>
      let s ← assignRotRegs stages s share k opArray
      allocRotRegs ii stages fuel s

/-- The first free register of each kind. -/
def RotFile.initNext (f : RotFile) (stages : ℤ) (c : Ctype) : ℤ :=
  if f.kernelOnly && decide (c = .predicate) then f.base c + stages else f.base c

/-- The counting loop of `Lpipe_associate_rot_regs`. -/
def countNext : List LRInfo → (Ctype → ℤ) → Run (Ctype → ℤ)
  | [], next => .ok next
  | lr :: lrs, next =>
    if lr.operand.ctype = .float then .error (.punt "Shouldn't encounter a float. MCM")
    else
      countNext lrs
        (Function.update next lr.operand.ctype (next lr.operand.ctype + lr.numNames))

/-- Whether there are enough registers of each category, -1 if not. -/
def rotAvailable (f : RotFile) (next : Ctype → ℤ) : ℤ :=
  if next .integer ≥ f.base .integer + f.maxAlloc .integer ∨
    next .double ≥ f.base .double + f.maxAlloc .double ∨
    next .predicate ≥ f.base .predicate + f.maxAlloc .predicate then -1 else 1

/-- `Lpipe_associate_rot_regs` with `count_only`: the counted registers and whether there are enough
of them. -/
def countRotRegs (f : RotFile) (ii stages : ℤ) (lrs : List LRInfo) : Run ((Ctype → ℤ) × ℤ) := do
  let (lrs, _) ← fillOpArray ii 0 lrs (List.replicate (8 * ii).toNat [])
  let next ← countNext lrs (f.initNext stages)
  .ok (fun c ↦ next c - f.base c, rotAvailable f next)

/-- `Lpipe_associate_rot_regs` without `count_only`: the live ranges with their names and the
allocated registers. -/
def associateRotRegs (f : RotFile) (ii stages : ℤ) (lrs : List LRInfo) :
    Run (List LRInfo × (Ctype → ℤ)) := do
  let (lrs, opArray) ← fillOpArray ii 0 lrs (List.replicate (8 * ii).toNat [])
  let s ← allocRotRegs ii stages (lrs.length + 1) ⟨opArray, lrs, none, f.initNext stages⟩
  .ok (s.lrs, fun c ↦ s.next c - f.base c)

/-- `Lpipe_find_name`. -/
def findName (ii : ℤ) (lr : LRInfo) (lifetime : ℤ) : Run ℤ :=
  let srcStg :=
    if lr.liveIn && decide (lr.liveInDefTime < lr.firstDefTime) then lr.liveInDefTime.tdiv ii
    else lr.firstDefTime.tdiv ii
  let nameIndex := (lr.firstDefTime + lifetime).tdiv ii - srcStg + 1
  if nameIndex < 1 ∨ nameIndex ≥ lr.numNames then
    .error (.punt "Lpipe_find_name: name %d is out of range.")
  else .ok nameIndex

/-- A destination operand in `Lpipe_rreg_transform`. -/
def rregDest (ii : ℤ) (lr : LRInfo) (lifetime : ℤ) : Run Operand :=
  if lr.numNames ≤ 1 then .ok lr.operand
  else do
    let nameIndex ← findName ii lr lifetime
    deref lr.names[nameIndex.toNat]?

/-- A source operand in `Lpipe_rreg_transform`. -/
def rregSrc (ii : ℤ) (lr : LRInfo) (lifetime : ℤ) : Run Operand :=
  if lr.numNames ≤ 1 then .ok lr.operand
  else if lifetime < 0 then
    .error (.punt ("Lpipe_rreg_transform (src): " ++ "not sure how we got here yet."))
  else do
    let nameIndex ← findName ii lr lifetime
    deref lr.names[nameIndex.toNat]?

/-! ### The waiting live ranges -/

/-- The buckets hold the live ranges `rem`, each in the bucket `pos` gives it. -/
structure Pool (pos : ℕ → ℕ) (opArray : List (List ℕ)) (rem : Finset ℕ) : Prop where
  lt : ∀ k ∈ rem, pos k < opArray.length
  nodup : ∀ (j : ℕ) (b : List ℕ), opArray[j]? = some b → b.Nodup
  mem_iff : ∀ (j : ℕ) (b : List ℕ), opArray[j]? = some b → ∀ k, k ∈ b ↔ k ∈ rem ∧ pos k = j

section Pool

variable {pos : ℕ → ℕ} {opArray : List (List ℕ)} {rem : Finset ℕ} {p : ℕ → Bool} {is : List ℕ}
  {j k : ℕ}

theorem pool_replicate (n : ℕ) : Pool pos (List.replicate n []) ∅ where
  lt := by simp
  nodup := by simp +contextual [List.getElem?_replicate]
  mem_iff := by simp +contextual [List.getElem?_replicate]

/-- A live range is added to its bucket. -/
theorem Pool.insert (h : Pool pos opArray rem) (hk : k ∉ rem) (hpos : pos k < opArray.length) :
    Pool pos (opArray.modify (pos k) (· ++ [k])) (insert k rem) where
  lt := by
    intro l hl
    rw [List.length_modify]
    rcases Finset.mem_insert.1 hl with rfl | hl
    · exact hpos
    · exact h.lt l hl
  nodup := by
    intro j b hb
    rw [List.getElem?_modify] at hb
    obtain ⟨b', hb', rfl⟩ := Option.map_eq_some_iff.1 hb
    split_ifs with hj
    · have hnot : k ∉ b' := fun hmem ↦ hk ((h.mem_iff j b' hb' k).1 hmem).1
      exact List.nodup_append.2 ⟨h.nodup j b' hb', List.nodup_singleton k, by
        rintro a ha c hc rfl
        exact hnot (List.mem_singleton.1 hc ▸ ha)⟩
    · exact h.nodup j b' hb'
  mem_iff := by
    intro j b hb l
    rw [List.getElem?_modify] at hb
    obtain ⟨b', hb', rfl⟩ := Option.map_eq_some_iff.1 hb
    have hl := h.mem_iff j b' hb' l
    split_ifs with hj
    · rw [List.mem_append, List.mem_singleton, hl, Finset.mem_insert]
      constructor
      · rintro (⟨hrem, hpos⟩ | rfl)
        · exact ⟨Or.inr hrem, hpos⟩
        · exact ⟨Or.inl rfl, hj⟩
      · rintro ⟨rfl | hrem, hpos⟩
        · exact Or.inr rfl
        · exact Or.inl ⟨hrem, hpos⟩
    · rw [hl, Finset.mem_insert]
      constructor
      · rintro ⟨hrem, hpos⟩
        exact ⟨Or.inr hrem, hpos⟩
      · rintro ⟨rfl | hrem, hat⟩
        · exact absurd hat hj
        · exact ⟨hrem, hat⟩

/-- A live range is taken from its bucket. -/
theorem Pool.erase (h : Pool pos opArray rem) (k : ℕ) :
    Pool pos (opArray.modify (pos k) (·.erase k)) (rem.erase k) where
  lt := by
    intro l hl
    rw [List.length_modify]
    exact h.lt l (Finset.mem_of_mem_erase hl)
  nodup := by
    intro j b hb
    rw [List.getElem?_modify] at hb
    obtain ⟨b', hb', rfl⟩ := Option.map_eq_some_iff.1 hb
    split_ifs with hj
    · exact (h.nodup j b' hb').erase k
    · exact h.nodup j b' hb'
  mem_iff := by
    intro j b hb l
    rw [List.getElem?_modify] at hb
    obtain ⟨b', hb', rfl⟩ := Option.map_eq_some_iff.1 hb
    have hl := h.mem_iff j b' hb' l
    split_ifs with hj
    · rw [(h.nodup j b' hb').mem_erase_iff, hl, Finset.mem_erase, and_assoc]
    · rw [hl, Finset.mem_erase]
      constructor
      · rintro ⟨hrem, hpos⟩
        exact ⟨⟨fun heq ↦ hj (heq ▸ hpos), hrem⟩, hpos⟩
      · rintro ⟨⟨-, hrem⟩, hpos⟩
        exact ⟨hrem, hpos⟩

theorem Pool.firstIn_some (h : Pool pos opArray rem) (hfirst : firstIn p opArray is = some (j, k)) :
    k ∈ rem ∧ pos k = j ∧ j ∈ is ∧ p k = true := by
  obtain ⟨j', hj', hfind⟩ := List.exists_of_findSome?_eq_some hfirst
  obtain ⟨k', hk', heq⟩ := Option.map_eq_some_iff.1 hfind
  obtain ⟨rfl, rfl⟩ := Prod.mk.inj heq
  have hmem := List.mem_of_find?_eq_some hk'
  cases hb : opArray[j']? with
  | none => simp [hb] at hmem
  | some b =>
    rw [hb, Option.getD_some] at hmem
    obtain ⟨hrem, hpos⟩ := (h.mem_iff j' b hb k').1 hmem
    exact ⟨hrem, hpos, hj', List.find?_some hk'⟩

theorem Pool.firstIn_none (h : Pool pos opArray rem) (hfirst : firstIn p opArray is = none)
    (hk : k ∈ rem) (his : pos k ∈ is) : p k = false := by
  have hnone := List.findSome?_eq_none_iff.1 hfirst (pos k) his
  rw [Option.map_eq_none_iff] at hnone
  have hlt := h.lt k hk
  have hmem : k ∈ opArray[pos k]?.getD [] := by
    rw [List.getElem?_eq_getElem hlt, Option.getD_some]
    exact (h.mem_iff (pos k) _ (List.getElem?_eq_getElem hlt) k).2 ⟨hk, rfl⟩
  simpa using List.find?_eq_none.1 hnone k hmem

end Pool

/-- What `Lpipe_get_best_lr` selects. -/
structure Selected (ii : ℤ) (lrs : List LRInfo) (pos : ℕ → ℕ) (rem : Finset ℕ)
    (prev : Option LRInfo) (share : Bool) (k : ℕ) (opArray : List (List ℕ)) : Prop where
  mem : k ∈ rem
  pool : Pool pos opArray (rem.erase k)
  share_imp : share = true → ∃ p, prev = some p ∧
    lrs[k]?.map (fun lr ↦ lr.operand.ctype) = some p.operand.ctype ∧ shareIndex ii p ≤ pos k

theorem getBestLr_eq {ii : ℤ} (lrs : List LRInfo) {pos : ℕ → ℕ} {opArray : List (List ℕ)}
    {rem : Finset ℕ} {prev : Option LRInfo} (h : Pool pos opArray rem)
    (hprev : ∀ p, prev = some p → 0 ≤ shareIndex ii p) :
    (rem = ∅ ∧ getBestLr ii lrs opArray prev = .ok none) ∨
      ∃ share k opArray', getBestLr ii lrs opArray prev = .ok (some (share, k, opArray')) ∧
        Selected ii lrs pos rem prev share k opArray' := by
  have hshare : ∃ r, findShare ii lrs opArray prev = .ok r ∧ ∀ j k, r = some (j, k) →
      k ∈ rem ∧ pos k = j ∧ ∃ p, prev = some p ∧
        lrs[k]?.map (fun lr ↦ lr.operand.ctype) = some p.operand.ctype ∧
        shareIndex ii p ≤ pos k := by
    cases prev with
    | none => exact ⟨none, rfl, by simp⟩
    | some p =>
      have hnonneg := hprev p rfl
      refine ⟨_, by rw [findShare, if_neg (by omega)], fun j k hfirst ↦ ?_⟩
      obtain ⟨hrem, hpos, hmem, hp⟩ := h.firstIn_some hfirst
      have hrange := List.mem_range'_1.1 hmem
      exact ⟨hrem, hpos, p, rfl, of_decide_eq_true hp, by omega⟩
  obtain ⟨r, hr, hspec⟩ := hshare
  rw [getBestLr, hr, Run.ok_bind]
  cases r with
  | some jk =>
    obtain ⟨j, k⟩ := jk
    obtain ⟨hrem, rfl, hp⟩ := hspec j k rfl
    exact Or.inr ⟨true, k, _, rfl, hrem, h.erase k, fun _ ↦ hp⟩
  | none =>
    dsimp only
    cases hfirst : firstIn (fun _ ↦ true) opArray (List.range opArray.length) with
    | some jk =>
      obtain ⟨j, k⟩ := jk
      obtain ⟨hrem, rfl, -, -⟩ := h.firstIn_some hfirst
      exact Or.inr ⟨false, k, _, rfl, hrem, h.erase k, by simp⟩
    | none =>
      refine Or.inl ⟨Finset.eq_empty_of_forall_notMem fun k hk ↦ ?_, rfl⟩
      simpa using h.firstIn_none hfirst hk (List.mem_range.2 (h.lt k hk))

end OpenImpact.Softpipe
