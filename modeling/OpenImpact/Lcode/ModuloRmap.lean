import OpenImpact.Lcode.RmapSched
import Mathlib.Data.Int.ModEq

/-!
# Modulo scheduling of tables

`SM_modulo_sched_table` and `SM_modulo_unsched_table` of `sm_modulo_rmap.c`. The map has a word for
each offset below `offset_II`, and a usage is in the row of its offset modulo `offset_II`. The
functions look at each usage on its own, so a table whose usages meet in a row is scheduled over
itself.

`rows_of_reach` is about every state that calls reach which schedule only tables whose usages are
apart modulo the interval (`Meets`), and says that every such call returns. It rests on the same
invariant as the map that grows (`Foundation.Reservation`), with rows in place of offsets.
`unsched_twoCycles` is a table that meets itself. Calls with a template are left out.
-/

namespace OpenImpact.Rmap

/-! ### The source's functions -/

/-- `map_offset`: the sum of an `unsigned short` and an `int` that is not negative does not wrap. -/
def moduloAddr (startOffset offsetII : ℤ) (usageOffset : ℕ) : ℤ :=
  (startOffset + usageOffset) % offsetII

/-- `SM_modulo_choose_first_avail_options`. -/
def moduloChooseFirstAvailOptions (m : Cells) (t : SMTable) (startOffset offsetII : ℤ)
    (minSlot maxSlot : ℕ) : Run (Option (ℕ × List ℕ)) :=
  chooseChoices m (moduloAddr startOffset offsetII) t minSlot maxSlot 0 0 t.choices

/-- `SM_modulo_commit_choices`. -/
def moduloCommitChoices (m : Cells) (t : SMTable) (startOffset offsetII : ℤ)
    (choicesMade : List ℕ) : Run Cells :=
  walkChoices commitWord (moduloAddr startOffset offsetII) t.choices choicesMade m

/-- `SM_modulo_release_choices`. -/
def moduloReleaseChoices (m : Cells) (t : SMTable) (startOffset offsetII : ℤ)
    (choicesMade : List ℕ) : Run Cells :=
  walkChoices releaseWord (moduloAddr startOffset offsetII) t.choices choicesMade m

/-- The issue time as an offset between 0 and `offset_II`. -/
def startOffset (timeShift : ℕ) (offsetII time : ℤ) : Run ℤ := do
  let scaled ← int32 (time * 2 ^ timeShift)
  let offset := scaled.tmod offsetII
  .ok (if offset < 0 then offset + offsetII else offset)

/-- The map that `SM_modulo_sched_table` creates, with the sanity check on where it starts. -/
def createModuloMap (maxUsageOffset : ℤ) : Run Cb := do
  let s ← createMap 4 maxUsageOffset
  if s.mapStartOffset ≠ 0 then
    .error (.punt ("SM_modulo_sched_table: Expected map_start_offset (%i) " ++ "to be 0!"))
  else .ok s

/-- The three tests in `SM_modulo_sched_table` that make the map cover all rows. -/
def growModuloMap (s : Cb) (offsetII : ℤ) : Run Cb := do
  let s ← onlyIf (s.mapArray = none) (fun _ ↦ createModuloMap (offsetII - 1)) s
  let s ← onlyIf (0 < s.minInitOffset) (initForMinUsage · 0) s
  onlyIf (offsetII - 1 > s.maxInitOffset) (initForMaxUsage · (offsetII - 1)) s

/-- `SM_modulo_sched_table` without a template (`SM_NO_TEMPLATE`). The result is the slot with the
choice array, or `none` for -1. -/
def moduloSchedTable (timeShift : ℕ) (timeII : ℤ) (s : Cb) (t : SMTable) (time : ℤ)
    (minSlot maxSlot : ℕ) (commit : Bool) : Run (Cb × Option (ℕ × List ℕ)) :=
  if timeII < 1 then .error (.punt "SM_modulo_sched_table: II (%i) < 1!")
  else do
    let offsetII ← int32 (timeII * 2 ^ timeShift)
    let start ← startOffset timeShift offsetII time
    let s ← growModuloMap s offsetII
    let m ← deref s.mapArray
    let chosen ← moduloChooseFirstAvailOptions m t start offsetII minSlot maxSlot
    settle (moduloCommitChoices m t start offsetII) s commit chosen

/-- `SM_modulo_unsched_table`. -/
def moduloUnschedTable (timeShift : ℕ) (timeII : ℤ) (s : Cb) (t : SMTable) (choiceArray : List ℕ)
    (time : ℤ) : Run Cb :=
  if timeII < 1 then .error (.punt "SM_modulo_sched_table: II (%i) < 1!")
  else do
    let offsetII ← int32 (timeII * 2 ^ timeShift)
    let start ← startOffset timeShift offsetII time
    match s.mapArray with
    | none => .error (.punt "SM_unsched_table: Error, map array not initialized!")
    | some m => do
      let m ← moduloReleaseChoices m t start offsetII choiceArray
      .ok { s with mapArray := some m }

/-! ### Runs -/

namespace Modulo

def exec (timeShift : ℕ) (timeII : ℤ) : State → Call → Run State :=
  execWith (moduloSchedTable timeShift timeII) (moduloUnschedTable timeShift timeII)

/-- The row of a usage: its offset plus the issue time, modulo the II. -/
def row (timeShift : ℕ) (timeII time : ℤ) (usageOffset : ℕ) : ℤ :=
  (time * 2 ^ timeShift + usageOffset) % (timeII * 2 ^ timeShift)

/-- The usages of the chosen options, each in its row. -/
def bits (timeShift : ℕ) (timeII : ℤ) (p : Placed) : List (Set (ℤ × ℕ)) :=
  (picked p.table.choices p.choices).map (Usage.bits (row timeShift timeII p.time))

/-- The calls the results below are about: no usages of a table meet in a row. -/
def Meets (timeShift : ℕ) (timeII : ℤ) (S : State) : Call → Prop
  | .sched t time _ _ _ =>
    t.Apart (row timeShift timeII 0) ∧ (∀ c ∈ t.choices, c.options.length ≤ 65536) ∧
      (-2147483648 ≤ time * 2 ^ timeShift ∧ time * 2 ^ timeShift ≤ 2147483647) ∧
      timeII * 2 ^ timeShift ≤ 268435456
  | .unsched i => i < S.placed.length

/-! ### Rows -/

variable {timeShift : ℕ} {timeII time : ℤ} {S : State} {s : Cb} {m : Cells} {t : SMTable}

/-- There is a row. -/
theorem rows_pos (hII : 1 ≤ timeII) : 0 < timeII * 2 ^ timeShift :=
  mul_pos (by omega) (pow_pos (by omega) timeShift)

/-- The offset of a time is taken modulo the number of rows, also for a negative time. -/
theorem startOffset_eq (hN : 0 < timeII * 2 ^ timeShift)
    (htime : -2147483648 ≤ time * 2 ^ timeShift ∧ time * 2 ^ timeShift ≤ 2147483647) :
    startOffset timeShift (timeII * 2 ^ timeShift) time =
      .ok (time * 2 ^ timeShift % (timeII * 2 ^ timeShift)) := by
  rw [startOffset, int32_eq htime, Run.ok_bind]
  generalize time * 2 ^ timeShift = a at *
  generalize timeII * 2 ^ timeShift = n at *
  refine congrArg Except.ok ?_
  rw [Int.tmod_eq_emod]
  have hlt := Int.emod_lt_of_pos a hN
  have hge := Int.emod_nonneg a hN.ne'
  split_ifs <;> omega

/-- The offset of a usage is the row of its cycle. -/
theorem moduloAddr_eq : moduloAddr (time * 2 ^ timeShift % (timeII * 2 ^ timeShift))
    (timeII * 2 ^ timeShift) = row timeShift timeII time := by
  funext o
  rw [moduloAddr, row, Int.emod_add_emod]

/-- Usages that share a row do so at any time. -/
theorem row_imp (a b : ℕ) (h : row timeShift timeII time a = row timeShift timeII time b) :
    row timeShift timeII 0 a = row timeShift timeII 0 b := by
  rw [row, row, zero_mul, zero_add, zero_add]
  exact Int.ModEq.add_left_cancel (Int.ModEq.refl (time * 2 ^ timeShift)) h

/-- The map covers all rows. -/
structure Ready (s : Cb) (m : Cells) (rows : ℤ) : Prop where
  inv : s.Inv m
  start_eq : s.mapStartOffset = 0
  min_le : s.minInitOffset ≤ 0
  le_max : rows - 1 ≤ s.maxInitOffset

/-- Every row is in the map. -/
theorem Ready.withinAll (h : Ready s m (timeII * 2 ^ timeShift)) (hN : 0 < timeII * 2 ^ timeShift)
    (time : ℤ) : s.WithinAll (row timeShift timeII time) t := by
  intro c _ o _ u _
  have hlt := Int.emod_lt_of_pos (time * 2 ^ timeShift + u.mapOffset) hN
  have hge := Int.emod_nonneg (time * 2 ^ timeShift + u.mapOffset) hN.ne'
  have hmin := h.min_le
  have hmax := h.le_max
  rw [row]
  omega

/-- The map is there after it was asked for, with what was held. -/
theorem growModuloMap_eq {N : ℤ} (hN : 0 < N) (hN' : N ≤ 268435456)
    (hs : s.mapArray = none ∨ ∃ m, Ready s m N) :
    ∃ s' m', growModuloMap s N = .ok s' ∧ Ready s' m' N ∧ s'.held = s.held := by
  rcases hs with hs | ⟨m, hm⟩
  · have hcover : cover (N - 1 + 1 - (4 - 4 % 4 - 4)) 31 32 ≤ 32 * 2 ^ 23 :=
      cover_le (by omega) (by omega)
    have hge : 32 ≤ cover (N - 1 + 1 - (4 - 4 % 4 - 4)) 31 32 := le_cover _ _ (by omega)
    obtain ⟨s₁, m₁, hrun₁, hinv₁, hstart, hmin, hmax, hheld⟩ :=
      createMap_eq 4 (N - 1) (by omega)
        ⟨by omega, by omega, by omega⟩
    have hsize : sizeForMin s₁.mapStartOffset s₁.mapArraySize 0 = s₁.mapArraySize :=
      if_neg (by omega)
    have hspans : Spans
        (s₁.mapStartOffset + s₁.mapArraySize -
          sizeForMin s₁.mapStartOffset s₁.mapArraySize 0)
        (sizeForMin s₁.mapStartOffset s₁.mapArraySize 0) := by
      rw [hsize, add_sub_cancel_right]
      exact hinv₁.spans
    obtain ⟨s₂, m₂, lo, hrun₂, hs₂, hlo, -⟩ := growMin_eq hinv₁ hspans fun _ ↦ by omega
    have hmin_eq := hs₂.min_eq
    have hmax_eq := hs₂.max_eq
    have hstart_eq := hs₂.start_eq
    have hcreate : createModuloMap (N - 1) = .ok s₁ := by
      rw [createModuloMap, hrun₁, Run.ok_bind, if_neg (by omega)]
    refine ⟨s₂, m₂, ?_, ⟨hs₂.inv, by omega, by omega, by omega⟩, ?_⟩
    · rw [growModuloMap, onlyIf, if_pos hs, hcreate, Run.ok_bind, hrun₂, Run.ok_bind, onlyIf,
        if_neg (by omega)]
    · rw [hs₂.ext.held_eq, hheld, held_of_none hs]
  · have hmin := hm.min_le
    have hmax := hm.le_max
    refine ⟨s, m, ?_, hm, rfl⟩
    rw [growModuloMap, onlyIf, if_neg (by simp [hm.inv.array]), Run.ok_bind, onlyIf,
      if_neg (by omega), Run.ok_bind, onlyIf, if_neg (by omega)]

/-- What `SM_modulo_sched_table` returns is what the choice loop finds in the map it grew. -/
theorem chooseChoices_of_moduloSchedTable {s' : Cb} {minSlot maxSlot slot : ℕ} {ids : List ℕ}
    {commit : Bool}
    (h : moduloSchedTable timeShift timeII s t time minSlot maxSlot commit =
      .ok (s', some (slot, ids))) :
    (1 ≤ timeII ∧ -2147483648 ≤ time * 2 ^ timeShift ∧ time * 2 ^ timeShift ≤ 2147483647) ∧
      ∃ m addr, chooseChoices m addr t minSlot maxSlot 0 0 t.choices = .ok (some (slot, ids)) := by
  rw [moduloSchedTable] at h
  split_ifs at h with hII
  obtain ⟨offsetII, -, h⟩ := Run.bind_eq_ok.1 h
  obtain ⟨start, hstart, h⟩ := Run.bind_eq_ok.1 h
  obtain ⟨s₁, -, h⟩ := Run.bind_eq_ok.1 h
  obtain ⟨m, -, h⟩ := Run.bind_eq_ok.1 h
  obtain ⟨chosen, hchosen, h⟩ := Run.bind_eq_ok.1 h
  obtain ⟨scaled, hscaled, -⟩ := Run.bind_eq_ok.1 hstart
  refine ⟨⟨by omega, (int32_eq_ok.1 hscaled).1⟩, m, moduloAddr start offsetII, ?_⟩
  rcases chosen with - | ⟨slot', ids'⟩
  · cases h
  · suffices heq : (slot', ids') = (slot, ids) by rw [← heq]; exact hchosen
    rw [settle] at h
    split_ifs at h
    · obtain ⟨m', -, h⟩ := Run.bind_eq_ok.1 h
      exact Option.some.inj (Prod.mk.inj (Except.ok.inj h)).2
    · exact Option.some.inj (Prod.mk.inj (Except.ok.inj h)).2

/-! ### One call -/

/-- What is known of a scheduled table. -/
structure Ok (timeShift : ℕ) (timeII : ℤ) (p : Placed) : Prop where
  selects : Selects p.table.choices p.choices
  time : -2147483648 ≤ p.time * 2 ^ timeShift ∧ p.time * 2 ^ timeShift ≤ 2147483647
  rows : timeII * 2 ^ timeShift ≤ 268435456

/-- The map holds the scheduled tables' usages in their rows, each once. -/
structure Inv (timeShift : ℕ) (timeII : ℤ) (S : State) : Prop where
  cb : S.cb.mapArray = none ∧ S.placed = [] ∨ ∃ m, Ready S.cb m (timeII * 2 ^ timeShift)
  reserved : Reserved S.cb.held (S.placed.flatMap (bits timeShift timeII))
  placed : ∀ p ∈ S.placed, Ok timeShift timeII p

/-- Scheduling a table keeps the invariant, finds options that fit, and fails only if none do. -/
theorem Inv.sched (hII : 1 ≤ timeII) (h : Inv timeShift timeII S) {minSlot maxSlot : ℕ}
    {commit : Bool}
    (hmeets : Meets timeShift timeII S (.sched t time minSlot maxSlot commit)) :
    ∃ cb r, moduloSchedTable timeShift timeII S.cb t time minSlot maxSlot commit = .ok (cb, r) ∧
      Inv timeShift timeII (S.after t time commit cb r) ∧
      (∀ slot ids, r = some (slot, ids) →
        t.Fits S.cb.held (row timeShift timeII time) minSlot maxSlot ids) ∧
      (r = none →
        ¬∃ ids, t.Fits S.cb.held (row timeShift timeII time) minSlot maxSlot ids) := by
  obtain ⟨hapart, hlen, htime, hrows⟩ := hmeets
  have hN : 0 < timeII * 2 ^ timeShift := rows_pos hII
  obtain ⟨s, m, hgrow, hready, hheld⟩ := growModuloMap_eq hN hrows (h.cb.imp_left And.left)
  have hwithin : s.WithinAll (row timeShift timeII time) t := hready.withinAll hN time
  have hbefore : Inv timeShift timeII ⟨s, S.placed⟩ :=
    ⟨.inr ⟨m, hready⟩, by rw [hheld]; exact h.reserved, h.placed⟩
  obtain ⟨r, hchoose, hsome, hnone⟩ := hready.inv.choose hwithin hlen minSlot maxSlot
  simp only [hready.start_eq, sub_zero] at hchoose
  have hrun : moduloSchedTable timeShift timeII S.cb t time minSlot maxSlot commit =
      settle (moduloCommitChoices m t (time * 2 ^ timeShift % (timeII * 2 ^ timeShift))
        (timeII * 2 ^ timeShift)) s commit r := by
    rw [moduloSchedTable, if_neg (by omega), int32_eq (by omega), Run.ok_bind,
      startOffset_eq hN htime, Run.ok_bind, hgrow, Run.ok_bind, hready.inv.array, deref_some,
      Run.ok_bind, moduloChooseFirstAvailOptions, moduloAddr_eq, hchoose, Run.ok_bind]
  rw [hheld] at hsome hnone
  cases r with
  | none => exact ⟨s, none, hrun, hbefore, hsome, hnone⟩
  | some q =>
    obtain ⟨slot, ids⟩ := q
    have hfits := hsome slot ids rfl
    cases commit with
    | false => exact ⟨s, some (slot, ids), hrun, hbefore, hsome, by simp⟩
    | true =>
      obtain ⟨m', hm', hinv', hres'⟩ := hready.inv.commit (hwithin.picked ids)
        (by rw [hheld]; exact hfits.free) ((hapart.of_imp row_imp).picked ids) hbefore.reserved
      simp only [hready.start_eq, sub_zero] at hm'
      rw [settle, if_pos rfl, moduloCommitChoices, walkChoices_eq hfits.selects, moduloAddr_eq, hm',
        Run.ok_bind] at hrun
      refine ⟨_, _, hrun, ⟨.inr ⟨m', hinv', hready.start_eq, hready.min_le, hready.le_max⟩, hres',
        fun p hp ↦ ?_⟩, hsome, by simp⟩
      · rw [State.after, if_pos rfl] at hp
        rcases List.mem_cons.1 hp with rfl | hp
        · exact ⟨hfits.selects, htime, hrows⟩
        · exact h.placed p hp

/-- A placed table can be taken out again, which keeps the invariant. -/
theorem Inv.unsched (hII : 1 ≤ timeII) (h : Inv timeShift timeII S) {i : ℕ} {p : Placed}
    (hp : S.placed[i]? = some p) :
    ∃ cb, moduloUnschedTable timeShift timeII S.cb p.table p.choices p.time = .ok cb ∧
      Inv timeShift timeII ⟨cb, S.placed.eraseIdx i⟩ := by
  obtain ⟨hselects, htime, hrows⟩ := h.placed p (List.mem_of_getElem? hp)
  obtain ⟨hi, hget⟩ := List.getElem?_eq_some_iff.1 hp
  have hN : 0 < timeII * 2 ^ timeShift := rows_pos hII
  rcases h.cb with ⟨-, hnil⟩ | ⟨m, hready⟩
  · rw [hnil] at hi
    simp at hi
  have hperm : S.placed.Perm (p :: S.placed.eraseIdx i) := by
    rw [← hget]
    exact (List.getElem_cons_eraseIdx_perm hi).symm
  have hres := h.reserved.perm (hperm.flatMap_right (bits timeShift timeII))
  rw [List.flatMap_cons] at hres
  obtain ⟨m', hm', hinv', hres'⟩ :=
    hready.inv.release ((hready.withinAll hN p.time).picked p.choices) hres
  simp only [hready.start_eq, sub_zero] at hm'
  refine ⟨{ S.cb with mapArray := some m' }, ?_,
    .inr ⟨m', hinv', hready.start_eq, hready.min_le, hready.le_max⟩, hres', fun q hq ↦
      h.placed q (List.mem_of_mem_eraseIdx hq)⟩
  rw [moduloUnschedTable, if_neg (by omega), int32_eq (by omega), Run.ok_bind,
    startOffset_eq hN htime, Run.ok_bind, hready.inv.array]
  simp only []
  rw [moduloReleaseChoices, walkChoices_eq hselects, moduloAddr_eq, hm', Run.ok_bind]

/-! ### Runs -/

/-- It holds before the first call. -/
theorem inv_start : Inv timeShift timeII .start where
  cb := .inl ⟨rfl, rfl⟩
  reserved := by
    rw [show State.start.cb.held = ∅ from held_of_none rfl]
    exact .nil
  placed := by simp [State.start]

/-- Each call keeps it. -/
theorem Inv.exec (hII : 1 ≤ timeII) (h : Inv timeShift timeII S) {call : Call} {S' : State}
    (hmeets : Meets timeShift timeII S call)
    (hexec : Modulo.exec timeShift timeII S call = .ok S') :
    Inv timeShift timeII S' := by
  refine execWith_keeps (fun t time minSlot maxSlot commit hcall ↦ ?_) (fun i hcall ↦ ?_) hexec
  · subst hcall
    obtain ⟨cb, r, hrun, hinv, -, -⟩ := h.sched hII hmeets
    exact ⟨cb, r, hrun, hinv⟩
  · subst hcall
    obtain ⟨cb, hrun, hinv⟩ := h.unsched hII (List.getElem?_eq_getElem hmeets)
    exact ⟨_, cb, List.getElem?_eq_getElem hmeets, hrun, hinv⟩

/-- In every reached state the rows hold exactly the usages of the scheduled tables, which overlap
nowhere, so that no operation has a resource twice in a row. A call that schedules returns, so that
all its accesses are inside the map, and it returns -1 only if no selection fits. A call that
unschedules returns, and leaves the rows the other tables would have made. -/
theorem rows_of_reach (hII : 1 ≤ timeII)
    (h : Reach (Modulo.exec timeShift timeII) (Meets timeShift timeII) State.start S) :
    Reserved S.cb.held (S.placed.flatMap (bits timeShift timeII)) ∧
      (∀ t time minSlot maxSlot commit,
        Meets timeShift timeII S (.sched t time minSlot maxSlot commit) →
        ∃ cb r, moduloSchedTable timeShift timeII S.cb t time minSlot maxSlot commit =
            .ok (cb, r) ∧
          (r = none →
            ¬∃ ids, t.Fits S.cb.held (row timeShift timeII time) minSlot maxSlot ids)) ∧
      ∀ i p, S.placed[i]? = some p →
        ∃ cb, moduloUnschedTable timeShift timeII S.cb p.table p.choices p.time = .ok cb ∧
          Reserved cb.held ((S.placed.eraseIdx i).flatMap (bits timeShift timeII)) := by
  have hinv : Inv timeShift timeII S :=
    h.inv inv_start fun hS hmeets hexec ↦ hS.exec hII hmeets hexec
  refine ⟨hinv.reserved, fun t time minSlot maxSlot commit hmeets ↦ ?_, fun i p hp ↦ ?_⟩
  · obtain ⟨cb, r, hrun, -, -, hnone⟩ := hinv.sched hII hmeets
    exact ⟨cb, r, hrun, hnone⟩
  · obtain ⟨cb, hrun, hinv'⟩ := hinv.unsched hII hp
    exact ⟨cb, hrun, hinv'.reserved⟩

/-- The options of the example are apart modulo 3. -/
theorem apart_twoOptions : SMTable.twoOptions.Apart (row 0 3 0) := by
  refine ⟨?_, by simp [SMTable.twoOptions]⟩
  simp only [SMTable.twoOptions, List.forall_mem_cons, List.pairwise_pair,
    List.pairwise_singleton]
  refine ⟨⟨?_, trivial, by simp⟩, by simp⟩
  rw [Set.disjoint_left]
  rintro p ⟨hp, -⟩ ⟨hp', -⟩
  simp only [row, Nat.cast_zero, Nat.cast_one] at hp hp'
  omega

/-- Three tables at II 3, two of them in one row, then one unscheduled and one more scheduled. -/
def twoOptionsCalls : List Call :=
  [.sched .twoOptions (-4) 0 1 true, .sched .twoOptions 2 0 1 true,
    .sched .twoOptions 0 0 1 true, .unsched 2, .sched .twoOptions 5 0 1 true]

/-- There is a table to unschedule. -/
def hasTable (S : State) : Call → Bool
  | .sched .. => true
  | .unsched i => decide (i < S.placed.length)

/-- The calls of the example meet the condition if the table to unschedule is there. -/
theorem meets_of_hasTable : ∀ call ∈ twoOptionsCalls, ∀ S : State, hasTable S call = true →
    Meets 0 3 S call := by
  have hmeets : ∀ (S : State) (time : ℤ), -2147483648 ≤ time → time ≤ 2147483647 →
      Meets 0 3 S (.sched .twoOptions time 0 1 true) := fun S time hlo hhi ↦
    ⟨apart_twoOptions, by simp [SMTable.twoOptions], by omega, by omega⟩
  simp only [twoOptionsCalls, List.forall_mem_cons]
  refine ⟨?_, ?_, ?_, ?_, ?_, by simp⟩ <;> intro S h
  · exact hmeets S _ (by decide) (by decide)
  · exact hmeets S _ (by decide) (by decide)
  · exact hmeets S _ (by decide) (by decide)
  · exact (of_decide_eq_true h : 2 < S.placed.length)
  · exact hmeets S _ (by decide) (by decide)

/-- Tables whose row is taken get their second option, and a freed row is given again. -/
theorem rows_of_reach_twoOptions :
    ∃ S, twoOptionsCalls.foldlM (Modulo.exec 0 3) State.start = .ok S ∧
      S.placed.map (fun p ↦ (p.choices, p.time)) = [([0], 5), ([1], 0), ([1], 2)] ∧
      Reserved S.cb.held (S.placed.flatMap (bits 0 3)) := by
  have hrun : (twoOptionsCalls.foldlM (fun S call ↦
      if hasTable S call then Modulo.exec 0 3 S call else .error .fault) State.start).map
        (fun S ↦ S.placed.map fun p ↦ (p.choices, p.time)) =
      .ok [([0], 5), ([1], 0), ([1], 2)] := by decide +kernel
  obtain ⟨S, hS, hplaced⟩ := Run.map_eq_ok.1 hrun
  obtain ⟨hcalls, hreach⟩ := Reach.foldlM_checked meets_of_hasTable .start hS
  exact ⟨S, hcalls, hplaced, (rows_of_reach (by omega) hreach).1⟩

theorem options_pair_ne : ([⟨[⟨1, 0⟩, ⟨1, 1⟩], usages_pair_ne⟩] : List SMOption) ≠ [] :=
  List.cons_ne_nil _ _

theorem usages_pair_le : ∀ u ∈ ([⟨1, 0⟩, ⟨1, 1⟩] : List Usage), u.mapOffset ≤ 1 := by simp

/-- A table that uses a resource for two cycles. -/
def twoCycles : SMTable where
  choices := [⟨[⟨[⟨1, 0⟩, ⟨1, 1⟩], usages_pair_ne⟩], options_pair_ne⟩]
  slotChoice := 0
  slotOptions := [0]
  maxUsageOffset := 1
  exists_slotChoice := ⟨_, rfl, rfl⟩
  mapOffset_le := List.forall_mem_singleton.2 (List.forall_mem_singleton.2 usages_pair_le)
  maxUsageOffset_lt := one_lt_65536

/-- Its usages are apart if the rows are not taken modulo the interval. -/
theorem apart_twoCycles : twoCycles.Apart fun o ↦ o := by
  refine ⟨?_, by simp [twoCycles]⟩
  simp only [twoCycles, List.mem_singleton, forall_eq, List.pairwise_pair]
  rw [Set.disjoint_left]
  rintro p ⟨hp, -⟩ ⟨hp', -⟩
  simp only [Nat.cast_zero, Nat.cast_one] at hp hp'
  omega

/-- With an II of 1 the table of two cycles is scheduled over itself, and cannot be unscheduled. -/
theorem unsched_twoCycles :
    twoCycles.Apart (fun o ↦ o) ∧
      ∃ S, Modulo.exec 0 1 .start (.sched twoCycles 0 0 0 true) = .ok S ∧
        ¬Reserved S.cb.held (S.placed.flatMap (bits 0 1)) ∧
        Modulo.exec 0 1 S (.unsched 0) =
          .error (.punt "SM_release_choices: Resources already free!") := by
  refine ⟨apart_twoCycles, _, rfl, fun h ↦ ?_, rfl⟩
  have hpair := h.pairwise
  rw [show (State.placed _).flatMap (bits 0 1) =
    [Usage.bits (row 0 1 0) ⟨1, 0⟩, Usage.bits (row 0 1 0) ⟨1, 1⟩] from rfl,
    List.pairwise_pair, Set.disjoint_left] at hpair
  exact hpair (show ((0 : ℤ), 0) ∈ Usage.bits (row 0 1 0) ⟨1, 0⟩ from ⟨rfl, rfl⟩) ⟨rfl, rfl⟩

end Modulo

end OpenImpact.Rmap
