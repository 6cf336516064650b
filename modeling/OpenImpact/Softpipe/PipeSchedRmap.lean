import OpenImpact.Lcode.ModuloRmap
import OpenImpact.Softpipe.PipeSchedReturns
import Mathlib.Data.List.Pairwise

/-!
# The schedule manager over the modulo resource map

`SM_schedule_oper_no_bundling` and `SM_unschedule_oper` with the tables of the alternatives in the map
of `sm_modulo_rmap.c`. The main loop can rely on this schedule manager (`lawful_rmapManager`), and no
run over it punts (`returns_rmapManager`), for tables whose usages are apart modulo the interval and
whose slots each have a resource of their own (`RmapTables.Sound`).

The map holds the usages of the scheduled operations (`RmapList`), which is what `Modulo.rows_of_reach`
says of its own calls. An alternative's table is searched for a slot in the range, and once more for
the slot found when its usages are committed; only the slot choice looks at the range, so both find
the same options.
-/

namespace OpenImpact.Softpipe

open Run (Yields)

/-- The tables of the compatible alternatives of each operation, the resolution of their offsets, and
the resource that stands for a slot. -/
structure RmapTables where
  timeShift : ℕ
  alts : ℕ → List Rmap.SMTable
  slotBit : ℕ → ℕ

/-- The map of this interval is small enough, no usages of a table meet in a row, and an option of a
slot choice uses the resource of its slot at once. -/
structure RmapTables.Sound (T : RmapTables) (ii : ℤ) : Prop where
  rows_le : ii * 2 ^ T.timeShift ≤ 268435456
  apart : ∀ o, ∀ t ∈ T.alts o, t.Apart (Rmap.Modulo.row T.timeShift ii 0)
  options_le : ∀ o, ∀ t ∈ T.alts o, ∀ c ∈ t.choices, c.options.length ≤ 65536
  slotBit : ∀ o, ∀ t ∈ T.alts o, ∀ c : Rmap.SMChoice, t.choices[t.slotChoice]? = some c →
    ∀ (i slot : ℕ) (option : Rmap.SMOption), c.options[i]? = some option →
    t.slotOptions[i]? = some slot →
    ∃ u ∈ option.usages, u.mapOffset = 0 ∧ u.resourcesUsed.getLsbD (T.slotBit slot) = true

/-- The operations, the resource map and the array `options_chosen` of each operation. -/
structure RmapState where
  opers : Sm.State
  rmap : Rmap.Cb
  optionsChosen : ℕ → List ℕ

/-- What `SM_modulo_sched_table` finds for the table of an alternative. -/
def searchTable (timeShift : ℕ) (ii : ℤ) (m : Rmap.Cb) (cycle : ℤ) (t : Rmap.SMTable) :
    Sm.TableSearch where
  find minSlot maxSlot :=
    match Rmap.moduloSchedTable timeShift ii m t cycle minSlot maxSlot false with
    | .ok (_, some (slot, _)) => some (Fin.ofNat 65536 slot)
    | _ => none
  within minSlot maxSlot slot h := by
    split at h
    · rename_i m' slot' ids hrun
      obtain ⟨-, cells, addr, hchosen⟩ := Rmap.Modulo.chooseChoices_of_moduloSchedTable hrun
      obtain ⟨c, hc, -⟩ := t.exists_slotChoice
      have hlt := (List.getElem?_eq_some_iff.1 hc).1
      have hslot := (Rmap.chooseChoices_slot hchosen).1 (Nat.zero_le _) (by omega)
      obtain rfl := Option.some.inj h
      have hval : (Fin.ofNat 65536 slot' : ℕ) = slot' :=
        Nat.mod_eq_of_lt (hslot.2.trans_lt maxSlot.isLt)
      rw [Fin.le_def, Fin.le_def, hval]
      exact hslot
    · cases h

variable (cb : Sm.Cb) (T : RmapTables)

/-- `SM_schedule_oper_no_bundling`. -/
def rmapScheduleOper (s : RmapState) (o : ℕ) (cycle earliestSlot latestSlot : ℤ) :
    Run (RmapState × Bool) := do
  let (opers, ok) ← Sm.scheduleOper cb s.opers o cycle earliestSlot latestSlot false
    ((T.alts o).map (searchTable T.timeShift cb.ii s.rmap cycle))
  if ok then do
    let alt ← deref (opers o).altChosen
    let t ← deref (T.alts o)[alt]?
    let (rmap, chosen) ← Rmap.moduloSchedTable T.timeShift cb.ii s.rmap t cycle
      (opers o).schedSlot (opers o).schedSlot true
    let (_, optionsChosen) ← deref chosen
    .ok (⟨opers, rmap, Function.update s.optionsChosen o optionsChosen⟩, true)
  else .ok ({ s with opers := opers }, false)

/-- `SM_unschedule_oper`. -/
def rmapUnscheduleOper (s : RmapState) (o : ℕ) : Run RmapState := do
  let opers ← Sm.unscheduleOper cb s.opers o
  let alt ← deref (s.opers o).altChosen
  let t ← deref (T.alts o)[alt]?
  let rmap ← Rmap.moduloUnschedTable T.timeShift cb.ii s.rmap t (s.optionsChosen o)
    (s.opers o).schedCycle
  .ok { s with opers := opers, rmap := rmap }

/-- The schedule manager. -/
def rmapManager : Manager where
  State := RmapState
  oper s := s.opers
  ignore _ k := (cb.dep k).ignore
  scheduleOper := rmapScheduleOper cb T
  unscheduleOper := rmapUnscheduleOper cb T

/-! ### The map and the schedule -/

/-- Operation `o` is scheduled as `p` is in the map. -/
structure HoldsTable (s : RmapState) (o : ℕ) (p : Rmap.Placed) : Prop where
  alt : ∃ alt, (s.opers o).altChosen = some alt ∧ (T.alts o)[alt]? = some p.table
  choices : s.optionsChosen o = p.choices
  time : (s.opers o).schedCycle = p.time
  slot : ∃ i, p.choices[p.table.slotChoice]? = some i ∧
    p.table.slotOptions[i]? = some ((s.opers o).schedSlot : ℕ)

/-- The map holds the tables of `ps`, which are those of the scheduled operations. -/
structure RmapList (s : RmapState) (ps : List (ℕ × Rmap.Placed)) : Prop where
  nodup : (ps.map Prod.fst).Nodup
  mem_iff : ∀ o, o ∈ ps.map Prod.fst ↔ (s.opers o).scheduled = true
  holds : ∀ q ∈ ps, HoldsTable T s q.1 q.2
  inv : Rmap.Modulo.Inv T.timeShift cb.ii ⟨s.rmap, ps.map Prod.snd⟩

/-- The bounds, the counts and the map are right. -/
structure RmapInv (s : RmapState) : Prop where
  bounds : Sm.Inv cb s.opers
  counted : Sm.Counted cb s.opers
  schedSlot : ∀ o, (s.opers o).scheduled = false → (s.opers o).schedSlot = Sm.maxSlot
  map : ∃ ps, RmapList cb T s ps

variable {cb T} {s s' : RmapState} {o : ℕ} {ps : List (ℕ × Rmap.Placed)} {S : Rmap.State}
  {t : Rmap.SMTable} {cycle : ℤ}

/-- A search of the table of an alternative is a call that the map is known for. -/
theorem RmapTables.Sound.meets (hT : T.Sound cb.ii) (ht : t ∈ T.alts o)
    (htime : -2147483648 ≤ cycle * 2 ^ T.timeShift ∧ cycle * 2 ^ T.timeShift ≤ 2147483647)
    (S : Rmap.State) (minSlot maxSlot : ℕ) (commit : Bool) :
    Rmap.Modulo.Meets T.timeShift cb.ii S (.sched t cycle minSlot maxSlot commit) :=
  ⟨hT.apart o t ht, hT.options_le o t ht, htime, hT.rows_le⟩

/-- What was committed in a slot has that slot, and is in the map beside the other tables. -/
theorem commit_spec (hT : T.Sound cb.ii) (hII : 1 ≤ cb.ii)
    (h : Rmap.Modulo.Inv T.timeShift cb.ii S) (ht : t ∈ T.alts o) {slot slot' : ℕ} {m : Rmap.Cb}
    {ids : List ℕ}
    (hrun : Rmap.moduloSchedTable T.timeShift cb.ii S.cb t cycle slot slot true =
      .ok (m, some (slot', ids))) :
    Rmap.Modulo.Inv T.timeShift cb.ii ⟨m, ⟨t, ids, cycle⟩ :: S.placed⟩ ∧
      ∃ i, ids[t.slotChoice]? = some i ∧ t.slotOptions[i]? = some slot := by
  have htime := (Rmap.Modulo.chooseChoices_of_moduloSchedTable hrun).1.2
  obtain ⟨m', r, hrun', hinv, hfits, -⟩ := h.sched hII (hT.meets ht htime S slot slot true)
  obtain ⟨rfl, rfl⟩ := Prod.mk.inj (Except.ok.inj (hrun.symm.trans hrun'))
  obtain ⟨i, hi, s, hs, hle, hge⟩ := (hfits slot' ids rfl).slot
  obtain rfl : slot = s := le_antisymm hle hge
  exact ⟨hinv, i, hi, hs⟩

/-- The table can be committed in a slot that was found. -/
theorem exists_commit (hT : T.Sound cb.ii) (hII : 1 ≤ cb.ii)
    (h : Rmap.Modulo.Inv T.timeShift cb.ii S) (ht : t ∈ T.alts o) {minSlot maxSlot slot : Sm.Slot}
    (hfind : (searchTable T.timeShift cb.ii S.cb cycle t).find minSlot maxSlot = some slot) :
    ∃ m slot' ids, Rmap.moduloSchedTable T.timeShift cb.ii S.cb t cycle slot slot true =
      .ok (m, some (slot', ids)) := by
  rw [searchTable] at hfind
  dsimp only at hfind
  split at hfind
  · rename_i m' found ids hrun
    obtain ⟨⟨-, htime⟩, cells, addr, hchosen⟩ :=
      Rmap.Modulo.chooseChoices_of_moduloSchedTable hrun
    -- the slot found is the one of the option that the slot choice took
    obtain ⟨c, hc, -⟩ := t.exists_slotChoice
    have hlt := (List.getElem?_eq_some_iff.1 hc).1
    have hrange := (Rmap.chooseChoices_slot hchosen).1 (Nat.zero_le _) (by omega)
    obtain ⟨i, hi, hslot⟩ :=
      Rmap.chooseChoices_get (hT.options_le o t ht) hchosen (Nat.zero_le _) (by omega)
    obtain rfl := Option.some.inj hfind
    have hval : (Fin.ofNat 65536 found : ℕ) = found :=
      Nat.mod_eq_of_lt (hrange.2.trans_lt maxSlot.isLt)
    obtain ⟨m₁, r₁, hrun₁, -, hfits, -⟩ :=
      h.sched hII (hT.meets ht htime S minSlot maxSlot false)
    obtain ⟨rfl, rfl⟩ := Prod.mk.inj (Except.ok.inj (hrun.symm.trans hrun₁))
    have hfound := hfits found ids rfl
    obtain ⟨m₂, r₂, hrun₂, -, -, hnone⟩ := h.sched hII (hT.meets ht htime S found found true)
    rw [hval]
    rcases r₂ with - | ⟨slot', ids'⟩
    · exact absurd ⟨ids, hfound.selects, hfound.free, i, hi, found, hslot, le_rfl, le_rfl⟩
        (hnone rfl)
    · exact ⟨m₂, slot', ids', hrun₂⟩
  · cases hfind

/-- Where an operation is held depends on its own fields only. -/
theorem HoldsTable.congr {p : Rmap.Placed} (h : HoldsTable T s o p)
    (halt : (s'.opers o).altChosen = (s.opers o).altChosen)
    (hchoices : s'.optionsChosen o = s.optionsChosen o)
    (hcycle : (s'.opers o).schedCycle = (s.opers o).schedCycle)
    (hslot : (s'.opers o).schedSlot = (s.opers o).schedSlot) : HoldsTable T s' o p where
  alt := halt ▸ h.alt
  choices := hchoices.trans h.choices
  time := hcycle.trans h.time
  slot := hslot ▸ h.slot

/-- The resource of its slot is held in the row of each operation. -/
theorem HoldsTable.slotBit_mem (hT : T.Sound cb.ii) {p : Rmap.Placed} (h : HoldsTable T s o p) :
    ∃ u ∈ Rmap.Modulo.bits T.timeShift cb.ii p,
      ((s.opers o).schedCycle * 2 ^ T.timeShift % (cb.ii * 2 ^ T.timeShift),
        T.slotBit (s.opers o).schedSlot) ∈ u := by
  obtain ⟨alt, -, ht⟩ := h.alt
  obtain ⟨i, hi, hslot⟩ := h.slot
  obtain ⟨c, hc, hlength⟩ := p.table.exists_slotChoice
  obtain ⟨option, hoption⟩ : ∃ option, c.options[i]? = some option :=
    ⟨_, List.getElem?_eq_getElem (hlength ▸ (List.getElem?_eq_some_iff.1 hslot).1)⟩
  obtain ⟨u, hu, hoffset, hbit⟩ :=
    hT.slotBit o p.table (List.mem_of_getElem? ht) c hc i _ option hoption hslot
  refine ⟨u.bits (Rmap.Modulo.row T.timeShift cb.ii p.time),
    List.mem_map.2 ⟨u, Rmap.mem_picked_of_getElem? hc hi hoption hu, rfl⟩, ?_, hbit⟩
  rw [hoffset, Rmap.Modulo.row, Nat.cast_zero, add_zero, h.time]

/-- Two operations in the same slot are in different rows. -/
theorem RmapList.not_modEq (hT : T.Sound cb.ii) (h : RmapList cb T s ps) {a b : ℕ} (hne : a ≠ b)
    (ha : (s.opers a).scheduled = true) (hb : (s.opers b).scheduled = true)
    (hslot : (s.opers a).schedSlot = (s.opers b).schedSlot) :
    ¬(s.opers a).schedCycle ≡ (s.opers b).schedCycle [ZMOD cb.ii] := by
  obtain ⟨⟨a', p⟩, hp, rfl⟩ := List.mem_map.1 ((h.mem_iff a).2 ha)
  obtain ⟨⟨b', q⟩, hq, rfl⟩ := List.mem_map.1 ((h.mem_iff b).2 hb)
  intro hmod
  have hpair := h.inv.reserved.pairwise
  rw [List.pairwise_flatMap, List.pairwise_map] at hpair
  have hsymm : Std.Symm fun x y : ℕ × Rmap.Placed ↦
      ∀ u ∈ Rmap.Modulo.bits T.timeShift cb.ii x.2,
        ∀ v ∈ Rmap.Modulo.bits T.timeShift cb.ii y.2, Disjoint u v :=
    ⟨fun x y hxy u hu v hv ↦ (hxy v hv u hu).symm⟩
  have hdisjoint := hpair.2.forall hp hq fun heq ↦ hne (congrArg Prod.fst heq)
  obtain ⟨u, hu, hmem⟩ := (h.holds _ hp).slotBit_mem hT
  obtain ⟨v, hv, hmem'⟩ := (h.holds _ hq).slotBit_mem hT
  refine Set.disjoint_left.1 (hdisjoint u hu v hv) hmem ?_
  rw [hslot, show _ % _ = _ % _ from hmod.mul_right' (c := 2 ^ T.timeShift)]
  exact hmem'

/-- An operation that is committed joins the list. -/
theorem RmapList.cons (h : RmapList cb T s ps) (hoff : (s.opers o).scheduled = false)
    {p : Rmap.Placed} (hself : (s'.opers o).scheduled = true) (hholds : HoldsTable T s' o p)
    (hother : ∀ o' ≠ o, (s'.opers o').scheduled = (s.opers o').scheduled ∧
      ∀ q, HoldsTable T s o' q → HoldsTable T s' o' q)
    (hinv : Rmap.Modulo.Inv T.timeShift cb.ii ⟨s'.rmap, p :: ps.map Prod.snd⟩) :
    RmapList cb T s' ((o, p) :: ps) := by
  have hout : o ∉ ps.map Prod.fst := fun hmem ↦ by simp [(h.mem_iff o).1 hmem] at hoff
  refine ⟨List.nodup_cons.2 ⟨hout, h.nodup⟩, fun o' ↦ ?_, fun q hq ↦ ?_, hinv⟩
  · rw [List.map_cons, List.mem_cons]
    by_cases ho' : o' = o
    · rw [ho', hself]
      simp
    · rw [or_iff_right ho', h.mem_iff, (hother o' ho').1]
  · rcases List.mem_cons.1 hq with rfl | hq
    · exact hholds
    · have hne : q.1 ≠ o := fun heq ↦ hout (heq ▸ List.mem_map.2 ⟨q, hq, rfl⟩)
      exact (hother q.1 hne).2 q.2 (h.holds q hq)

/-- An operation that is released leaves it. -/
theorem RmapList.eraseIdx (h : RmapList cb T s ps) {i : ℕ} {p : Rmap.Placed}
    (hp : ps[i]? = some (o, p)) (hself : (s'.opers o).scheduled = false)
    (hother : ∀ o' ≠ o, (s'.opers o').scheduled = (s.opers o').scheduled ∧
      ∀ q, HoldsTable T s o' q → HoldsTable T s' o' q)
    (hinv : Rmap.Modulo.Inv T.timeShift cb.ii ⟨s'.rmap, (ps.map Prod.snd).eraseIdx i⟩) :
    RmapList cb T s' (ps.eraseIdx i) := by
  obtain ⟨hi, hget⟩ := List.getElem?_eq_some_iff.1 hp
  have herase : (ps.eraseIdx i).map Prod.fst = (ps.map Prod.fst).erase o := by
    have hlt : i < (ps.map Prod.fst).length := by simpa using hi
    have hnth : (ps.map Prod.fst)[i] = o := by simp [hget]
    rw [← List.eraseIdx_map, ← h.nodup.erase_getElem i hlt, hnth]
  refine ⟨?_, fun o' ↦ ?_, fun q hq ↦ ?_, ?_⟩
  · rw [herase]
    exact h.nodup.erase o
  · rw [herase, h.nodup.mem_erase_iff, h.mem_iff]
    by_cases ho' : o' = o
    · rw [ho', hself]
      simp
    · rw [(hother o' ho').1, and_iff_right ho']
  · have hne : q.1 ≠ o := by
      have hmem : q.1 ∈ (ps.eraseIdx i).map Prod.fst := List.mem_map.2 ⟨q, hq, rfl⟩
      rw [herase, h.nodup.mem_erase_iff] at hmem
      exact hmem.1
    exact (hother q.1 hne).2 q.2 (h.holds q (List.mem_of_mem_eraseIdx hq))
  · rw [← List.eraseIdx_map]
    exact hinv

/-! ### Calls -/

section Calls

variable (hcb : cb.Sound) (hlisted : cb.Listed) (hT : T.Sound cb.ii) {lo hi : ℤ}

include hcb hlisted hT

/-- An operation that is not scheduled is placed in the range of slots, or nothing changes. -/
theorem RmapInv.schedule (hcarried : cb.SelfDepsCarried) (h : RmapInv cb T s)
    (hoff : (s.opers o).scheduled = false) (hlo : lo ≤ 65535) (hhi : 0 ≤ hi) :
    (rmapScheduleOper cb T s o cycle lo hi).Yields fun p ↦ RmapInv cb T p.1 ∧
      if p.2 then
        ((p.1.opers o).scheduled = true ∧ (p.1.opers o).schedCycle = cycle ∧
          lo ≤ (((p.1.opers o).schedSlot : ℕ) : ℤ) ∧ (((p.1.opers o).schedSlot : ℕ) : ℤ) ≤ hi) ∧
        ∀ o' ≠ o, (p.1.opers o').scheduled = (s.opers o').scheduled ∧
          (p.1.opers o').schedCycle = (s.opers o').schedCycle ∧
          (p.1.opers o').schedSlot = (s.opers o').schedSlot
      else p.1.opers = s.opers := by
  refine (h.counted.scheduleOper hcb hlisted hoff cycle lo hi false _).bind fun r hr _ ↦ ?_
  obtain ⟨opers, ok⟩ := r
  obtain ⟨-, ⟨rfl, htest⟩ | ⟨rfl, hplaced, alt', slot', hcommit', hallowed⟩⟩ :=
    Sm.scheduleOper_cases hlo hhi hr
  · obtain rfl : ok = false := by simpa using htest
    exact .ok ⟨h, rfl⟩
  obtain ⟨alt, slot, hcommit, hmin, hmax, search, hsearch, minSlot, maxSlot, hfind⟩ := hplaced
  have hbounds : Sm.Inv cb opers := h.bounds.commitOper hcb hcarried hallowed hcommit'
  obtain ⟨hcounted, halt⟩ := (h.counted.commitOper hcb hlisted hoff cycle alt slot).1 _ hcommit
  obtain ⟨⟨hon, hcycle, hslot⟩, hother⟩ := Sm.commitOper_places (p := (cycle, slot)) hcb hcommit
  dsimp only at hcycle hslot
  rw [List.getElem?_map, Option.map_eq_some_iff] at hsearch
  obtain ⟨t, ht, rfl⟩ := hsearch
  obtain ⟨ps, hps⟩ := h.map
  obtain ⟨m, slot₁, ids, hrun⟩ :=
    exists_commit hT hcb.one_le_ii hps.inv (List.mem_of_getElem? ht) hfind
  obtain ⟨hinv, i, hi, hslot₁⟩ :=
    commit_spec hT hcb.one_le_ii hps.inv (List.mem_of_getElem? ht) hrun
  dsimp only at hinv
  have haltSelf : (opers o).altChosen = some alt := (halt o).trans (if_pos rfl)
  simp only [if_true, haltSelf, ht, deref_some, Run.ok_bind, hslot, hrun]
  refine .ok ⟨⟨hbounds, hcounted, fun o' hoff' ↦ ?_, (o, ⟨t, ids, cycle⟩) :: ps, ?_⟩,
    ⟨hon, hcycle, hslot ▸ hmin, hslot ▸ hmax⟩, hother⟩
  · have ho' : o' ≠ o := fun heq ↦ by simp [heq, hon] at hoff'
    rw [(hother o' ho').1] at hoff'
    rw [(hother o' ho').2.2]
    exact h.schedSlot o' hoff'
  · refine hps.cons hoff hon ⟨⟨alt, haltSelf, ht⟩, Function.update_self _ _ _, hcycle, i, hi, ?_⟩
      (fun o' ho' ↦ ⟨(hother o' ho').1, fun q hq ↦ hq.congr ?_ ?_ (hother o' ho').2.1
        (hother o' ho').2.2⟩) hinv
    · dsimp only
      rw [hslot]
      exact hslot₁
    · dsimp only
      rw [halt, if_neg ho']
    · exact Function.update_of_ne ho' _ _

omit hT in
/-- An operation that is scheduled is taken out of the map. -/
theorem RmapInv.unschedule (h : RmapInv cb T s) (hon : (s.opers o).scheduled = true) :
    (rmapUnscheduleOper cb T s o).Yields fun s' ↦ RmapInv cb T s' ∧
      (s'.opers o).scheduled = false ∧
      ∀ o' ≠ o, (s'.opers o').scheduled = (s.opers o').scheduled ∧
        (s'.opers o').schedCycle = (s.opers o').schedCycle ∧
        (s'.opers o').schedSlot = (s.opers o').schedSlot := by
  refine (h.counted.unscheduleOper hcb hlisted hon).bind fun opers hrun hcounted ↦ ?_
  obtain ⟨hcounted, halt⟩ := hcounted
  have hbounds := h.bounds.unscheduleOper hcb hrun
  obtain ⟨⟨hoff, hslot⟩, hother⟩ := Sm.unscheduleOper_places hcb hrun
  obtain ⟨ps, hps⟩ := h.map
  obtain ⟨q, hq, rfl⟩ := List.mem_map.1 ((hps.mem_iff o).2 hon)
  obtain ⟨i, hi⟩ := List.getElem?_of_mem hq
  have hholds := hps.holds q hq
  obtain ⟨alt, halt', ht⟩ := hholds.alt
  obtain ⟨m, hm, hinv⟩ := hps.inv.unsched hcb.one_le_ii (i := i) (p := q.2) (by simp [hi])
  dsimp only at hm hinv
  simp only [halt', ht, deref_some, Run.ok_bind, hholds.choices, hholds.time, hm]
  refine .ok ⟨⟨hbounds, hcounted, fun o' hoff' ↦ ?_, ps.eraseIdx i, ?_⟩, hoff, hother⟩
  · by_cases ho' : o' = q.1
    · rw [ho']
      exact hslot
    · rw [(hother o' ho').1] at hoff'
      rw [(hother o' ho').2.2]
      exact h.schedSlot o' hoff'
  · exact hps.eraseIdx hi hoff (fun o' ho' ↦ ⟨(hother o' ho').1, fun p hp ↦
      hp.congr (halt o' ho') rfl (hother o' ho').2.1 (hother o' ho').2.2⟩) hinv

/-- The main loop can rely on this schedule manager. -/
theorem lawful_rmapManager (hcarried : cb.SelfDepsCarried) :
    (rmapManager cb T).Lawful cb (RmapInv cb T) where
  schedule {s s' o cycle lo hi ok} hinv hlo hhi hrun := by
    obtain ⟨r, hr, -⟩ := Run.bind_eq_ok.1 hrun
    have hoff := (Sm.scheduleOper_cases hlo hhi hr).1
    obtain ⟨hinv', hcase⟩ := (hinv.schedule hcb hlisted hT hcarried hoff hlo hhi).1 _ hrun
    refine ⟨hinv', Manager.place_eq_none.2 hoff, ?_⟩
    cases ok with
    | false =>
      rw [if_neg Bool.false_ne_true] at hcase ⊢
      exact funext fun o' ↦ Manager.place_congr (m := rmapManager cb T)
        ⟨congrArg Sm.Oper.scheduled (congrFun hcase o'),
          congrArg Sm.Oper.schedCycle (congrFun hcase o'),
          congrArg Sm.Oper.schedSlot (congrFun hcase o')⟩
    | true =>
      rw [if_pos rfl] at hcase ⊢
      obtain ⟨⟨hon, hcycle, hmin, hmax⟩, hother⟩ := hcase
      exact ⟨_, Manager.place_schedule hon hcycle hother, hmin, hmax⟩
  unschedule {s s' o} hinv hrun := by
    obtain ⟨opers, hopers, -⟩ := Run.bind_eq_ok.1 hrun
    have hon := (Sm.unscheduleOper_cases hcb hopers).1
    obtain ⟨hinv', hoff, hother⟩ := (hinv.unschedule hcb hlisted hon).1 _ hrun
    exact ⟨hinv', Manager.place_unschedule hoff hother⟩
  schedSlot {s o} hinv hplace := hinv.schedSlot o (Manager.place_eq_none.1 hplace)
  slots {s a b cycle cycle' slot} hinv hne ha hb := by
    obtain ⟨hona, hpa⟩ := Manager.scheduled_of_place ha
    obtain ⟨honb, hpb⟩ := Manager.scheduled_of_place hb
    obtain ⟨ps, hps⟩ := hinv.map
    have hmod := hps.not_modEq hT hne hona honb
      ((Prod.mk.inj hpa).2.trans (Prod.mk.inj hpb).2.symm)
    rw [← (Prod.mk.inj hpa).1, ← (Prod.mk.inj hpb).1]
    exact hmod
  deps {s k source sink} hinv hk _ hignore hfrom hto := by
    obtain ⟨honf, hpf⟩ := Manager.scheduled_of_place hfrom
    obtain ⟨hont, hpt⟩ := Manager.scheduled_of_place hto
    have hholds := (hinv.bounds.holds k hk hignore honf hont).1
    rw [← hpf, ← hpt]
    dsimp only [rmapManager]
    omega

/-- No call of the main loop to it punts. -/
theorem returns_rmapManager (hcarried : cb.SelfDepsCarried) :
    (rmapManager cb T).Returns (RmapInv cb T) where
  schedule hinv hplace hlo hhi := (hinv.schedule hcb hlisted hT hcarried
    (Manager.place_eq_none.1 hplace) hlo hhi).mono fun _ _ ↦ trivial
  unschedule hinv hplace := (hinv.unschedule hcb hlisted
    (Manager.place_ne_none hplace).1).mono fun _ _ ↦ trivial

end Calls

/-- The state before scheduling. -/
theorem rmapInv_start {opers : Sm.State} (hcounted : Sm.Counted cb opers)
    (hoff : ∀ o, (opers o).scheduled = false) (hslot : ∀ o, (opers o).schedSlot = Sm.maxSlot)
    (optionsChosen : ℕ → List ℕ) : RmapInv cb T ⟨opers, Rmap.Cb.new, optionsChosen⟩ where
  bounds := Sm.inv_of_unscheduled hoff
  counted := hcounted
  schedSlot o _ := hslot o
  map := ⟨[], List.nodup_nil, fun o ↦ by simp [hoff], fun _ hq ↦ (nomatch hq),
    Rmap.Modulo.inv_start⟩

/-! ### The main loop over the map -/

/-- The loop with this schedule manager. -/
def PipeLoop.overRmap (l : PipeLoop) (T : RmapTables) : PipeLoop :=
  { l with manager := rmapManager l.cb T }

/-- The same of the main loop over the schedule manager and the resource map as the program has them. -/
theorem smSchedule_overRmap {l : PipeLoop} (hl : (l.overRmap T).Sound)
    (hb : (l.overRmap T).InBounds) (hcb : l.cb.Sound) (hlisted : l.cb.Listed)
    (hcarried : l.cb.SelfDepsCarried) (hT : T.Sound l.cb.ii) {opers : Sm.State}
    (hcounted : Sm.Counted l.cb opers) (hoff : ∀ o, (opers o).scheduled = false)
    (hslot : ∀ o, (opers o).schedSlot = Sm.maxSlot) (optionsChosen : ℕ → List ℕ)
    (info : ℕ → OpInfo) (budget : ℤ) :
    let start : RmapState := ⟨opers, Rmap.Cb.new, optionsChosen⟩
    (∀ m, (smSchedule (l.overRmap T) start info budget m).Yields fun x ↦
      ∀ s, x = .ended s none → (l.overRmap T).ModuloScheduled s.pipe.sm) ∧
    ∃ N, ∀ m ≥ N,
      (∃ s smOp, smSchedule (l.overRmap T) start info budget m = .ok (.ended s smOp)) ∨
      smSchedule (l.overRmap T) start info budget m = .ok .returned ∨
      smSchedule (l.overRmap T) start info budget m = .error .overflow :=
  smSchedule_returns (l := l.overRmap T) hl (lawful_rmapManager hcb hlisted hT hcarried)
    (returns_rmapManager hcb hlisted hT hcarried) hb
    (rmapInv_start hcounted hoff hslot optionsChosen)
    (fun o ↦ Manager.place_eq_none.2 (hoff o)) info budget

/-- Each operation has one alternative, with a slot for each of four resources. -/
def fourIssueTables : RmapTables := ⟨0, fun _ ↦ [Sm.fourIssue], fun slot ↦ slot⟩

theorem sound_fourIssueTables : fourIssueTables.Sound 2 where
  rows_le := by decide
  apart o t ht := by
    obtain rfl := List.mem_singleton.1 ht
    refine ⟨?_, by simp [Sm.fourIssue]⟩
    simp [Sm.fourIssue]
  options_le o t ht := by
    obtain rfl := List.mem_singleton.1 ht
    simp [Sm.fourIssue]
  slotBit o t ht c hc i slot option hoption hslot := by
    obtain rfl := List.mem_singleton.1 ht
    obtain rfl := Option.some.inj hc
    rcases i with - | - | - | - | i
    all_goals cases hslot
    all_goals
      obtain rfl := Option.some.inj hoption
      exact ⟨_, List.mem_singleton_self _, rfl, by decide⟩

/-- The two operations of `twoOperLoop` on the map of the program. -/
theorem smSchedule_overRmap_twoOpers :
    ∃ s, smSchedule (twoOperLoop.overRmap fourIssueTables)
        (⟨Sm.unplaced fun o ↦ if o < 2 then 1 else 0, Rmap.Cb.new, fun _ ↦ []⟩ : RmapState)
        (fun _ ↦ initOpInfo 0) 5 6 = .ok (.ended s none) ∧
      (twoOperLoop.overRmap fourIssueTables).ModuloScheduled s.pipe.sm := by
  have hl := sound_twoOperLoop
  have hlisted : (Sm.twoOpers true [1]).Listed := by
    constructor <;> intro o <;> simp only [Sm.Cb.depsIn, Sm.Cb.depsOut, Sm.twoOpers] <;>
      split_ifs <;> decide
  have hcarried : (Sm.twoOpers true [1]).SelfDepsCarried := by
    intro k _ _ h
    simp only [Sm.twoOpers] at h ⊢
    split_ifs at h ⊢
  have hcounted : Sm.Counted (Sm.twoOpers true [1])
      (Sm.unplaced fun o ↦ if o < 2 then 1 else 0) := by
    refine Sm.counted_of_unscheduled (fun _ ↦ rfl) (fun o ↦ ?_) fun _ hq ↦
      absurd hq Bool.false_ne_true
    rcases o with - | - | o
    · rfl
    · rfl
    · rfl
  refine ⟨_, rfl, (smSchedule_overRmap (l := twoOperLoop) (T := fourIssueTables)
    ⟨hl.nodup, hl.loopBackBr_mem, hl.loopBackBr_real, hl.loopBackBr, hl.fromOp, hl.one_le_slots,
      hl.slots_le⟩ ⟨by decide, by decide⟩ Sm.sound_twoOpers hlisted hcarried sound_fourIssueTables
    hcounted (fun _ ↦ rfl) (fun _ ↦ rfl) (fun _ ↦ []) (fun _ ↦ initOpInfo 0) 5).1 6 |>.1 _ rfl _ rfl⟩

end OpenImpact.Softpipe
