import OpenImpact.Lcode.RmapHeld
import OpenImpact.Foundation.Reach

/-!
# Scheduling and unscheduling tables

`SM_sched_table` and `SM_unsched_table` of `sm_rmap.c`. In every state that calls on tables whose
usages are apart reach, the map holds exactly the usages of the scheduled tables, each of them once.

`reserved_of_reach` is the main result: it says of every such state that the map is the disjoint
union of the usages, that a call that schedules returns and gives -1 only if nothing fits, and that
unscheduling returns and leaves the union of the others. It rests on `State.Inv`, of which `Cb.Inv`
is the map's part. The condition of a call (`Call.Meets`) has the room that the array needs: its
bounds and its size in bytes are `int`s. Calls with a template choose options in another way and are
in `RmapWindow`.
-/

namespace OpenImpact.Rmap

/-! ### The source's functions -/

/-- `SM_choose_first_avail_options`, on the map from index `base` on. -/
def chooseFirstAvailOptions (m : Cells) (base : ℤ) (t : SMTable) (minSlot maxSlot : ℕ) :
    Run (Option (ℕ × List ℕ)) :=
  chooseChoices m (fun o ↦ base + o) t minSlot maxSlot 0 0 t.choices

/-- `SM_commit_choices`, on the map from index `base` on. -/
def commitChoices (m : Cells) (base : ℤ) (t : SMTable) (choicesMade : List ℕ) : Run Cells :=
  walkChoices commitWord (fun o ↦ base + o) t.choices choicesMade m

/-- `SM_release_choices`, on the map from index `base` on. -/
def releaseChoices (m : Cells) (base : ℤ) (t : SMTable) (choicesMade : List ℕ) : Run Cells :=
  walkChoices releaseWord (fun o ↦ base + o) t.choices choicesMade m

/-- `if (c) s = f (s)`. -/
def onlyIf (c : Prop) [Decidable c] (f : Cb → Run Cb) (s : Cb) : Run Cb :=
  if c then f s else .ok s

/-- The three tests at the start of `SM_sched_table` that make the map cover a table. -/
def growMap (s : Cb) (minUsageOffset maxUsageOffset : ℤ) : Run Cb := do
  let s ← onlyIf (s.mapArray = none) (fun _ ↦ createMap minUsageOffset maxUsageOffset) s
  let s ← onlyIf (maxUsageOffset > s.maxInitOffset) (initForMaxUsage · maxUsageOffset) s
  onlyIf (minUsageOffset < s.minInitOffset) (initForMinUsage · minUsageOffset) s

/-- The end of the scheduling functions, for the slot and the choice array they found. -/
def settle (commitTo : List ℕ → Run Cells) (s : Cb) (commit : Bool) :
    Option (ℕ × List ℕ) → Run (Cb × Option (ℕ × List ℕ))
  | none => .ok (s, none)
  | some (slot, choicesMade) =>
    if commit then do
      let m ← commitTo choicesMade
      .ok ({ s with mapArray := some m }, some (slot, choicesMade))
    else .ok (s, some (slot, choicesMade))

/-- `SM_sched_table` without a template (`SM_NO_TEMPLATE`). The result is the slot with the choice
array, or `none` for -1. -/
def schedTable (timeShift : ℕ) (s : Cb) (t : SMTable) (time : ℤ) (minSlot maxSlot : ℕ)
    (commit : Bool) : Run (Cb × Option (ℕ × List ℕ)) := do
  let minUsageOffset ← int32 (time * 2 ^ timeShift)
  let maxUsageOffset ← int32 (minUsageOffset + t.maxUsageOffset)
  let s ← growMap s minUsageOffset maxUsageOffset
  let m ← deref s.mapArray
  let base ← int32 (minUsageOffset - s.mapStartOffset)
  let chosen ← chooseFirstAvailOptions m base t minSlot maxSlot
  settle (commitChoices m base t) s commit chosen

/-- `SM_unsched_table`. -/
def unschedTable (timeShift : ℕ) (s : Cb) (t : SMTable) (choiceArray : List ℕ) (time : ℤ) :
    Run Cb := do
  let minUsageOffset ← int32 (time * 2 ^ timeShift)
  let maxUsageOffset ← int32 (minUsageOffset + t.maxUsageOffset)
  match s.mapArray with
  | none => .error (.punt "SM_unsched_table: Error, map array not initialized!")
  | some m =>
    if maxUsageOffset > s.maxInitOffset then
      .error (.punt ("SM_unsched_table: Error, table extends into" ++
        "unintialized upper segment!"))
    else if minUsageOffset < s.minInitOffset then
      .error (.punt ("SM_unsched_table: Error, table extends into" ++
        "unintialized lower segment!"))
    else do
      let base ← int32 (minUsageOffset - s.mapStartOffset)
      let m ← releaseChoices m base t choiceArray
      .ok { s with mapArray := some m }

/-! ### Runs -/

/-- A scheduled table: what `SM_unsched_table` is called with. -/
structure Placed where
  table : SMTable
  choices : List ℕ
  time : ℤ

/-- The map and the tables scheduled in it. -/
structure State where
  cb : Cb
  placed : List Placed

def State.start : State := ⟨Cb.new, []⟩

/-- A call of the scheduler. -/
inductive Call where
  | sched (t : SMTable) (time : ℤ) (minSlot maxSlot : ℕ) (commit : Bool)
  /-- `SM_unsched_table` on the `i`-th scheduled table. -/
  | unsched (i : ℕ)

/-- The state after a scheduling call that returned `r` and left the map `cb`. -/
def State.after (S : State) (t : SMTable) (time : ℤ) (commit : Bool) (cb : Cb) :
    Option (ℕ × List ℕ) → State
  | none => ⟨cb, S.placed⟩
  | some (_, choicesMade) =>
    ⟨cb, if commit then ⟨t, choicesMade, time⟩ :: S.placed else S.placed⟩

/-- One call, for the two functions of either file. -/
def execWith (sched : Cb → SMTable → ℤ → ℕ → ℕ → Bool → Run (Cb × Option (ℕ × List ℕ)))
    (unsched : Cb → SMTable → List ℕ → ℤ → Run Cb) (S : State) : Call → Run State
  | .sched t time minSlot maxSlot commit => do
    let (cb, r) ← sched S.cb t time minSlot maxSlot commit
    .ok (S.after t time commit cb r)
  | .unsched i => do
    let p ← deref S.placed[i]?
    let cb ← unsched S.cb p.table p.choices p.time
    .ok ⟨cb, S.placed.eraseIdx i⟩

def exec (timeShift : ℕ) : State → Call → Run State :=
  execWith (schedTable timeShift) (unschedTable timeShift)

/-- A call keeps what scheduling keeps and unscheduling keeps. -/
theorem execWith_keeps {sched : Cb → SMTable → ℤ → ℕ → ℕ → Bool → Run (Cb × Option (ℕ × List ℕ))}
    {unsched : Cb → SMTable → List ℕ → ℤ → Run Cb} {P : State → Prop} {S S' : State} {call : Call}
    (hsched : ∀ t time minSlot maxSlot commit,
      call = .sched t time minSlot maxSlot commit →
      ∃ cb r, sched S.cb t time minSlot maxSlot commit = .ok (cb, r) ∧
        P (S.after t time commit cb r))
    (hunsched : ∀ i, call = .unsched i →
      ∃ p cb, S.placed[i]? = some p ∧ unsched S.cb p.table p.choices p.time = .ok cb ∧
        P ⟨cb, S.placed.eraseIdx i⟩)
    (hexec : execWith sched unsched S call = .ok S') : P S' := by
  cases call with
  | sched t time minSlot maxSlot commit =>
    obtain ⟨cb, r, hrun, hP⟩ := hsched t time minSlot maxSlot commit rfl
    rw [execWith, hrun, Run.ok_bind] at hexec
    obtain rfl : _ = S' := Except.ok.inj hexec
    exact hP
  | unsched i =>
    obtain ⟨p, cb, hp, hrun, hP⟩ := hunsched i rfl
    rw [execWith, hp, deref_some, Run.ok_bind, hrun, Run.ok_bind] at hexec
    obtain rfl : _ = S' := Except.ok.inj hexec
    exact hP

/-! ### What the map should hold -/

/-- The usages of the chosen options, each moved by the issue time. -/
def Placed.bits (timeShift : ℕ) (p : Placed) : List (Set (ℤ × ℕ)) :=
  (picked p.table.choices p.choices).map
    (Usage.bits fun o ↦ p.time * 2 ^ timeShift + o)

/-- The array can be grown to cover the offsets from `minOffset` to `maxOffset`: its bounds stay
within `int` and so does its size in bytes. -/
def Cb.Room (s : Cb) (minOffset maxOffset : ℤ) : Prop :=
  if s.mapArray = none then
    Spans (minOffset - minOffset % 4 - 4)
      (cover (maxOffset + 1 - (minOffset - minOffset % 4 - 4)) 31 32)
  else
    let size := sizeForMax s.mapStartOffset s.mapArraySize maxOffset
    let size' := sizeForMin s.mapStartOffset size minOffset
    Spans s.mapStartOffset size ∧ Spans (s.mapStartOffset + size - size') size' ∧
      (minOffset < s.minInitOffset → -2147483648 ≤ minOffset - minOffset % 4 - 4)

instance (s : Cb) (minOffset maxOffset : ℤ) : Decidable (s.Room minOffset maxOffset) := by
  unfold Cb.Room
  infer_instance

/-- The calls the results below are about. -/
def Call.Meets (timeShift : ℕ) (S : State) : Call → Prop
  | .sched t time _ _ _ =>
    t.Apart (fun o ↦ o) ∧ (∀ c ∈ t.choices, c.options.length ≤ 65536) ∧
      -2147483648 ≤ time * 2 ^ timeShift ∧ time * 2 ^ timeShift + t.maxUsageOffset ≤ 2147483647 ∧
      S.cb.Room (time * 2 ^ timeShift) (time * 2 ^ timeShift + t.maxUsageOffset)
  | .unsched i => i < S.placed.length

/-! ### One call -/

section Grow

variable {s : Cb} {m : Cells}

/-- A map that is not there holds nothing. -/
theorem held_of_none (h : s.mapArray = none) : s.held = ∅ :=
  held_eq_empty_of_word fun o ↦ by rw [Cb.word, h]; rfl

/-- Growing the map at its end if that is needed. -/
theorem growMax_eq (h : s.Inv m) {offset : ℤ}
    (hspans : Spans s.mapStartOffset (sizeForMax s.mapStartOffset s.mapArraySize offset)) :
    ∃ s' m' hi, onlyIf (offset > s.maxInitOffset) (initForMaxUsage · offset) s = .ok s' ∧
      Grown s s' m' s.mapStartOffset (sizeForMax s.mapStartOffset s.mapArraySize offset)
        s.minInitOffset hi ∧ offset ≤ hi ∧ s.maxInitOffset ≤ hi := by
  rw [onlyIf]
  split_ifs with hgt
  · obtain ⟨s', m', hi, hrun, hgrown, hle⟩ := initForMaxUsage_eq h hspans (by omega)
    exact ⟨s', m', hi, hrun, hgrown, hle, by omega⟩
  · have hsize : sizeForMax s.mapStartOffset s.mapArraySize offset = s.mapArraySize :=
      if_neg (by have := h.max_le; have := h.end_eq; omega)
    rw [hsize]
    exact ⟨s, m, s.maxInitOffset, rfl, ⟨h, rfl, rfl, rfl, rfl, .refl s⟩, by omega, le_rfl⟩

/-- Growing the map at its start if that is needed. -/
theorem growMin_eq (h : s.Inv m) {offset : ℤ}
    (hspans : Spans
      (s.mapStartOffset + s.mapArraySize - sizeForMin s.mapStartOffset s.mapArraySize offset)
      (sizeForMin s.mapStartOffset s.mapArraySize offset))
    (hint : offset < s.minInitOffset → -2147483648 ≤ offset - offset % 4 - 4) :
    ∃ s' m' lo, onlyIf (offset < s.minInitOffset) (initForMinUsage · offset) s = .ok s' ∧
      Grown s s' m'
        (s.mapStartOffset + s.mapArraySize - sizeForMin s.mapStartOffset s.mapArraySize offset)
        (sizeForMin s.mapStartOffset s.mapArraySize offset) lo s.maxInitOffset ∧
      lo ≤ offset ∧ lo ≤ s.minInitOffset := by
  rw [onlyIf]
  split_ifs with hlt
  · obtain ⟨s', m', lo, hrun, hgrown, hle⟩ := initForMinUsage_eq h hspans (by omega) (hint hlt)
    exact ⟨s', m', lo, hrun, hgrown, hle, by omega⟩
  · have hsize : sizeForMin s.mapStartOffset s.mapArraySize offset = s.mapArraySize :=
      if_neg (by have := h.start_le; omega)
    rw [hsize]
    exact ⟨s, m, s.minInitOffset, rfl, ⟨h, by omega, rfl, rfl, rfl, .refl s⟩, by omega, le_rfl⟩

/-- The map covers what it covered and the offsets from `lo` to `hi`, and holds what it held. -/
structure Covered (s s' : Cb) (m' : Cells) (lo hi : ℤ) : Prop where
  inv : s'.Inv m'
  min_le : s'.minInitOffset ≤ lo
  le_max : hi ≤ s'.maxInitOffset
  held_eq : s'.held = s.held
  keeps : s.mapArray ≠ none →
    s'.minInitOffset ≤ s.minInitOffset ∧ s.maxInitOffset ≤ s'.maxInitOffset

/-- Growing the map does not change what is held, and covers the offsets asked for. -/
theorem growMap_eq {lo hi : ℤ} (hs : s.mapArray = none ∨ ∃ m, s.Inv m) (hle : lo ≤ hi)
    (hroom : s.Room lo hi) : ∃ s' m', growMap s lo hi = .ok s' ∧ Covered s s' m' lo hi := by
  rcases hs with hs | ⟨m, hm⟩
  · rw [Cb.Room, if_pos hs] at hroom
    obtain ⟨s', m', hrun, hinv, -, hmin, hmax, hheld⟩ := createMap_eq lo hi (by omega) hroom
    refine ⟨s', m', ?_, hinv, by omega, hmax, by rw [hheld, held_of_none hs], (absurd hs ·)⟩
    rw [growMap, onlyIf, if_pos hs, hrun, Run.ok_bind, onlyIf, if_neg (by omega), Run.ok_bind,
      onlyIf, if_neg (by omega)]
  · have harray : s.mapArray ≠ none := by simp [hm.array]
    rw [Cb.Room, if_neg harray] at hroom
    obtain ⟨hspans, hspans', hint⟩ := hroom
    obtain ⟨s₁, m₁, hi', hrun₁, hs₁, hhi, hmax⟩ := growMax_eq hm hspans
    rw [← hs₁.min_eq] at hint
    obtain ⟨s₂, m₂, lo', hrun₂, hs₂, hlo, hmin⟩ := growMin_eq hs₁.inv
      (by rw [hs₁.start_eq, hs₁.size_eq]; exact hspans') hint
    have hmax_eq := hs₁.max_eq
    refine ⟨s₂, m₂, ?_, hs₂.inv, by rw [hs₂.min_eq]; exact hlo, by rw [hs₂.max_eq]; omega, ?_,
      fun _ ↦ ⟨?_, by rw [hs₂.max_eq]; omega⟩⟩
    · rw [growMap, onlyIf, if_neg harray, Run.ok_bind, hrun₁, Run.ok_bind, hrun₂]
    · rw [hs₂.ext.held_eq, hs₁.ext.held_eq]
    · rw [hs₂.min_eq, ← hs₁.min_eq]
      exact hmin

end Grow

/-- What is known of a scheduled table. -/
structure Placed.Ok (timeShift : ℕ) (s : Cb) (p : Placed) : Prop where
  selects : Selects p.table.choices p.choices
  int_ge : -2147483648 ≤ p.time * 2 ^ timeShift
  min_le : s.minInitOffset ≤ p.time * 2 ^ timeShift
  le_max : p.time * 2 ^ timeShift + p.table.maxUsageOffset ≤ s.maxInitOffset

/-- The map holds the scheduled tables' usages, each once. -/
structure State.Inv (timeShift : ℕ) (S : State) : Prop where
  cb : S.cb.mapArray = none ∧ S.placed = [] ∨ ∃ m, S.cb.Inv m
  reserved : Reserved S.cb.held (S.placed.flatMap (Placed.bits timeShift))
  placed : ∀ p ∈ S.placed, p.Ok timeShift S.cb

section Calls

variable {timeShift : ℕ} {S : State} {s : Cb} {m : Cells} {t : SMTable} {time : ℤ}

/-- The table is in the window if its first and last offset are initialised. -/
theorem withinAll_of_le (hmin : s.minInitOffset ≤ time * 2 ^ timeShift)
    (hmax : time * 2 ^ timeShift + t.maxUsageOffset ≤ s.maxInitOffset) :
    s.WithinAll (fun o ↦ time * 2 ^ timeShift + o) t := by
  intro c hc o ho u hu
  have := t.mapOffset_le c hc o ho u hu
  dsimp only
  omega

/-- An address relative to the start of the map. -/
theorem base_eq (k start : ℤ) : (fun o : ℕ ↦ k - start + o) = fun o : ℕ ↦ k + o - start := by
  funext o
  ring

/-- A committing or testing call: it returns, and it returns -1 only if no selection fits. -/
theorem State.Inv.sched (h : S.Inv timeShift) {minSlot maxSlot : ℕ} {commit : Bool}
    (hmeets : (Call.sched t time minSlot maxSlot commit).Meets timeShift S) :
    ∃ cb r, schedTable timeShift S.cb t time minSlot maxSlot commit = .ok (cb, r) ∧
      State.Inv timeShift (S.after t time commit cb r) ∧
      (r = none → ¬∃ ids,
        t.Fits S.cb.held (fun o ↦ time * 2 ^ timeShift + o) minSlot maxSlot ids) := by
  obtain ⟨hapart, hlen, hlo, hhi, hroom⟩ := hmeets
  obtain ⟨s, m, hgrow, hcov⟩ := growMap_eq (h.cb.imp_left And.left) (by omega) hroom
  have hinv := hcov.inv
  have hmin := hcov.min_le
  have hmax := hcov.le_max
  have hplaced : ∀ p ∈ S.placed, p.Ok timeShift s := by
    intro p hp
    have hok := h.placed p hp
    obtain ⟨hmin', hmax'⟩ := hcov.keeps fun hnone ↦ by
      rcases h.cb with hcb | ⟨m', hm'⟩
      · rw [hcb.2] at hp
        cases hp
      · simp [hm'.array] at hnone
    exact ⟨hok.selects, hok.int_ge, hmin'.trans hok.min_le, hok.le_max.trans hmax'⟩
  have hbefore : State.Inv timeShift ⟨s, S.placed⟩ :=
    ⟨.inr ⟨m, hinv⟩, by rw [hcov.held_eq]; exact h.reserved, hplaced⟩
  obtain ⟨r, hchoose, hsome, hnone⟩ := hinv.choose (withinAll_of_le hmin hmax) hlen minSlot maxSlot
  have hrun : schedTable timeShift S.cb t time minSlot maxSlot commit =
      settle (commitChoices m (time * 2 ^ timeShift - s.mapStartOffset) t) s commit r := by
    have hstart := hinv.start_le
    have hend := hinv.max_le
    have hend' := hinv.end_eq
    obtain ⟨hge, hle, hsize⟩ := hinv.spans
    rw [schedTable, int32_eq (by omega), Run.ok_bind, int32_eq (by omega), Run.ok_bind, hgrow,
      Run.ok_bind, hinv.array, deref_some, Run.ok_bind, int32_eq (by omega), Run.ok_bind,
      chooseFirstAvailOptions, base_eq, hchoose, Run.ok_bind]
  rw [hcov.held_eq] at hsome hnone
  cases r with
  | none => exact ⟨s, none, hrun, hbefore, hnone⟩
  | some q =>
    obtain ⟨slot, ids⟩ := q
    have hfits := hsome slot ids rfl
    cases commit with
    | false => exact ⟨s, some (slot, ids), hrun, hbefore, by simp⟩
    | true =>
      obtain ⟨m', hm', hinv', hres'⟩ := hinv.commit
        ((withinAll_of_le hmin hmax).picked ids) (by rw [hcov.held_eq]; exact hfits.free)
        ((hapart.of_imp fun a b hab ↦ by omega).picked ids) hbefore.reserved
      rw [settle, if_pos rfl, commitChoices, walkChoices_eq hfits.selects, base_eq, hm',
        Run.ok_bind] at hrun
      refine ⟨_, _, hrun, ⟨.inr ⟨m', hinv'⟩, hres', fun p hp ↦ ?_⟩, by simp⟩
      · rw [State.after, if_pos rfl] at hp
        rcases List.mem_cons.1 hp with rfl | hp
        · exact ⟨hfits.selects, hlo, hmin, hmax⟩
        · obtain ⟨h₁, h₂, h₃, h₄⟩ := hplaced p hp
          exact ⟨h₁, h₂, h₃, h₄⟩

/-- Unscheduling a scheduled table stops in none of its punts and leaves the other tables. -/
theorem State.Inv.unsched (h : S.Inv timeShift) {i : ℕ} {p : Placed} (hp : S.placed[i]? = some p) :
    ∃ cb, unschedTable timeShift S.cb p.table p.choices p.time = .ok cb ∧
      State.Inv timeShift ⟨cb, S.placed.eraseIdx i⟩ := by
  obtain ⟨hselects, hge, hmin, hmax⟩ := h.placed p (List.mem_of_getElem? hp)
  obtain ⟨hi, hget⟩ := List.getElem?_eq_some_iff.1 hp
  rcases h.cb with ⟨-, hnil⟩ | ⟨m, hinv⟩
  · rw [hnil] at hi
    simp at hi
  have hstart := hinv.start_le
  have hend := hinv.max_le
  have hend' := hinv.end_eq
  obtain ⟨hlo, hhi, hsize⟩ := hinv.spans
  have hperm : S.placed.Perm (p :: S.placed.eraseIdx i) := by
    rw [← hget]
    exact (List.getElem_cons_eraseIdx_perm hi).symm
  have hres := h.reserved.perm (hperm.flatMap_right (Placed.bits timeShift))
  rw [List.flatMap_cons] at hres
  obtain ⟨m', hm', hinv', hres'⟩ :=
    hinv.release ((withinAll_of_le hmin hmax).picked p.choices) hres
  refine ⟨{ S.cb with mapArray := some m' }, ?_, .inr ⟨m', hinv'⟩, hres', fun q hq ↦ ?_⟩
  · rw [unschedTable, int32_eq (by omega), Run.ok_bind, int32_eq (by omega), Run.ok_bind,
      hinv.array]
    simp only []
    rw [if_neg (by omega), if_neg (by omega), int32_eq (by omega), Run.ok_bind, releaseChoices,
      walkChoices_eq hselects, base_eq, hm', Run.ok_bind]
  · obtain ⟨h₁, h₂, h₃, h₄⟩ := h.placed q (List.mem_of_mem_eraseIdx hq)
    exact ⟨h₁, h₂, h₃, h₄⟩

/-! ### Runs -/

/-- The invariant holds before the first call. -/
theorem inv_start : State.Inv timeShift .start where
  cb := .inl ⟨rfl, rfl⟩
  reserved := by
    rw [show State.start.cb.held = ∅ from held_of_none rfl]
    exact .nil
  placed := by simp [State.start]

/-- Each call that meets the condition keeps it. -/
theorem State.Inv.exec (h : S.Inv timeShift) {call : Call} {S' : State}
    (hmeets : call.Meets timeShift S) (hexec : Rmap.exec timeShift S call = .ok S') :
    S'.Inv timeShift := by
  refine execWith_keeps (fun t time minSlot maxSlot commit hcall ↦ ?_) (fun i hcall ↦ ?_) hexec
  · subst hcall
    obtain ⟨cb, r, hrun, hinv, -⟩ := h.sched hmeets
    exact ⟨cb, r, hrun, hinv⟩
  · subst hcall
    obtain ⟨cb, hrun, hinv⟩ := h.unsched (List.getElem?_eq_getElem hmeets)
    exact ⟨_, cb, List.getElem?_eq_getElem hmeets, hrun, hinv⟩

/-- In every reached state the map holds exactly the usages of the scheduled tables, which overlap
nowhere. A call that schedules returns, and it returns -1 only if no selection fits. A call that
unschedules returns, and leaves the map the other tables would have made. -/
theorem reserved_of_reach
    (h : Reach (exec timeShift) (fun S call ↦ call.Meets timeShift S) State.start S) :
    Reserved S.cb.held (S.placed.flatMap (Placed.bits timeShift)) ∧
      (∀ t time minSlot maxSlot commit,
        (Call.sched t time minSlot maxSlot commit).Meets timeShift S →
        ∃ cb r, schedTable timeShift S.cb t time minSlot maxSlot commit = .ok (cb, r) ∧
          (r = none → ¬∃ ids,
            t.Fits S.cb.held (fun o ↦ time * 2 ^ timeShift + o) minSlot maxSlot ids)) ∧
      ∀ i p, S.placed[i]? = some p →
        ∃ cb, unschedTable timeShift S.cb p.table p.choices p.time = .ok cb ∧
          Reserved cb.held ((S.placed.eraseIdx i).flatMap (Placed.bits timeShift)) := by
  have hinv : S.Inv timeShift := h.inv inv_start fun hS hmeets hexec ↦ hS.exec hmeets hexec
  refine ⟨hinv.reserved, fun t time minSlot maxSlot commit hmeets ↦ ?_, fun i p hp ↦ ?_⟩
  · obtain ⟨cb, r, hrun, -, hnone⟩ := hinv.sched hmeets
    exact ⟨cb, r, hrun, hnone⟩
  · obtain ⟨cb, hrun, hinv'⟩ := hinv.unsched hp
    exact ⟨cb, hrun, hinv'.reserved⟩

end Calls

theorem usages_single_ne : ([⟨1, 0⟩] : List Usage) ≠ [] := List.cons_ne_nil _ _

theorem zero_lt_65536 : 0 < 65536 := by decide

/-- A table with one option, which uses one resource when it issues. -/
def SMTable.single : SMTable where
  choices := [⟨[⟨[⟨1, 0⟩], usages_single_ne⟩], by simp⟩]
  slotChoice := 0
  slotOptions := [0]
  maxUsageOffset := 0
  exists_slotChoice := ⟨_, rfl, rfl⟩
  mapOffset_le := by simp
  maxUsageOffset_lt := zero_lt_65536

/-- The usages of the table with one option are apart. -/
theorem apart_single (addr : ℕ → ℤ) : SMTable.single.Apart addr :=
  ⟨by simp [SMTable.single], by simp [SMTable.single]⟩

theorem usages_pair_ne : ([⟨1, 0⟩, ⟨1, 1⟩] : List Usage) ≠ [] := List.cons_ne_nil _ _

theorem usages_other_ne : ([⟨2, 0⟩] : List Usage) ≠ [] := List.cons_ne_nil _ _

theorem one_lt_65536 : 1 < 65536 := by decide

/-- A table with two options: one resource for two cycles, or another one when it issues. -/
def SMTable.twoOptions : SMTable where
  choices := [⟨[⟨[⟨1, 0⟩, ⟨1, 1⟩], usages_pair_ne⟩, ⟨[⟨2, 0⟩], usages_other_ne⟩],
    List.cons_ne_nil _ _⟩]
  slotChoice := 0
  slotOptions := [0, 1]
  maxUsageOffset := 1
  exists_slotChoice := ⟨_, rfl, rfl⟩
  mapOffset_le := by simp
  maxUsageOffset_lt := one_lt_65536

/-- So are those of the table with two. -/
theorem apart_twoOptions : SMTable.twoOptions.Apart fun o ↦ o := by
  refine ⟨?_, by simp [SMTable.twoOptions]⟩
  simp only [SMTable.twoOptions, List.forall_mem_cons, List.pairwise_pair,
    List.pairwise_singleton]
  refine ⟨⟨?_, trivial, by simp⟩, by simp⟩
  rw [Set.disjoint_left]
  rintro p ⟨hp, -⟩ ⟨hp', -⟩
  simp only [Nat.cast_zero, Nat.cast_one] at hp hp'
  omega

/-- A call for the table with two options meets the condition if there is room for its two cycles. -/
theorem meets_twoOptions {S : State} {time : ℤ} {commit : Bool} {minSlot maxSlot : ℕ}
    (hlo : -2147483648 ≤ time) (hhi : time + 1 ≤ 2147483647) (hroom : S.cb.Room time (time + 1)) :
    (Call.sched .twoOptions time minSlot maxSlot commit).Meets 0 S :=
  ⟨apart_twoOptions, by simp [SMTable.twoOptions], by simpa using hlo,
    by simpa [SMTable.twoOptions] using hhi, by simpa [SMTable.twoOptions] using hroom⟩

/-- Two tables in one cycle, one after the end of the map, one before its start, and the second one
unscheduled. -/
def twoOptionsCalls : List Call :=
  [.sched .twoOptions 0 0 1 true, .sched .twoOptions 0 0 1 true, .sched .twoOptions 60 0 1 true,
    .sched .twoOptions (-40) 0 1 true, .unsched 2]

/-- There is room for the table, or a table to unschedule. -/
def roomFor (S : State) : Call → Bool
  | .sched _ time _ _ _ => decide (S.cb.Room time (time + 1))
  | .unsched i => decide (i < S.placed.length)

/-- The calls of the example do, as far as there is room. -/
theorem meets_of_roomFor : ∀ call ∈ twoOptionsCalls, ∀ S : State, roomFor S call = true →
    call.Meets 0 S := by
  simp only [twoOptionsCalls, List.forall_mem_cons]
  refine ⟨?_, ?_, ?_, ?_, ?_, by simp⟩ <;> intro S h
  · exact meets_twoOptions (by decide) (by decide) (of_decide_eq_true h)
  · exact meets_twoOptions (by decide) (by decide) (of_decide_eq_true h)
  · exact meets_twoOptions (by decide) (by decide) (of_decide_eq_true h)
  · exact meets_twoOptions (by decide) (by decide) (of_decide_eq_true h)
  · exact (of_decide_eq_true h : 2 < S.placed.length)

/-- The map grows at both ends, and three of the four tables stay. -/
theorem reserved_of_reach_twoOptions :
    ∃ S, twoOptionsCalls.foldlM (exec 0) State.start = .ok S ∧
      S.placed.map (fun p ↦ (p.choices, p.time)) = [([0], -40), ([0], 60), ([0], 0)] ∧
      (S.cb.mapStartOffset, S.cb.mapArraySize) = (-132, 256) ∧
      Reserved S.cb.held (S.placed.flatMap (Placed.bits 0)) := by
  have hrun : (twoOptionsCalls.foldlM (fun S call ↦
      if roomFor S call then exec 0 S call else .error .fault) State.start).map (fun S ↦
        (S.placed.map fun p ↦ (p.choices, p.time), S.cb.mapStartOffset, S.cb.mapArraySize)) =
      .ok ([([0], -40), ([0], 60), ([0], 0)], -132, 256) := by decide +kernel
  obtain ⟨S, hS, heq⟩ := Run.map_eq_ok.1 hrun
  obtain ⟨hplaced, hmap⟩ := Prod.mk.inj heq
  obtain ⟨hcalls, hreach⟩ := Reach.foldlM_checked meets_of_roomFor .start hS
  exact ⟨S, hcalls, hplaced, hmap, (reserved_of_reach hreach).1⟩

/-- At the largest `int` the table fits an empty map, but no map can cover it. -/
theorem sched_intMax :
    SMTable.single.Apart (fun o ↦ o) ∧
      SMTable.single.Fits ∅ (fun o ↦ 2147483647 * 2 ^ 0 + o) 0 0 [0] ∧
      exec 0 .start (.sched .single 2147483647 0 0 true) = .error .overflow :=
  ⟨apart_single _,
    ⟨⟨0, [], rfl, by simp, rfl⟩, by simp [Free], 0, rfl, 0, rfl, le_rfl, le_rfl⟩, rfl⟩

end OpenImpact.Rmap
