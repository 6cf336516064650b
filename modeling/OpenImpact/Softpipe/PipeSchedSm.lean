import OpenImpact.Softpipe.PipeSchedRuns

/-!
# The schedule manager of the loop

`SM_schedule_oper_no_bundling` and `SM_unschedule_oper` over a modulo resource map are a schedule
manager as the main loop relies on it, for every graph of hard dependences. The map is a parameter
here (`ResourceMap`); over the map of the program there is `rmapManager`, of which the same is proved.
-/

namespace OpenImpact.Softpipe

/-- A modulo resource map: the tables of an operation's alternatives as they are searched, what
committing and releasing the resources of an operation do, and the slots in use in each row. -/
structure ResourceMap (ii : ℤ) where
  Map : Type
  tables : Map → ℕ → ℤ → List Sm.TableSearch
  commit : Map → ℕ → ℤ → Option ℕ → Sm.Slot → Map
  release : Map → ℕ → ℤ → Option ℕ → Sm.Slot → Map
  used : Map → Set (ℤ × Sm.Slot)
  free : ∀ {m o cycle t minSlot maxSlot slot}, t ∈ tables m o cycle →
    t.find minSlot maxSlot = some slot → (cycle % ii, slot) ∉ used m
  used_commit : ∀ {m o cycle alt slot}, (cycle % ii, slot) ∉ used m →
    used (commit m o cycle alt slot) = insert (cycle % ii, slot) (used m)
  used_release : ∀ m o cycle alt slot,
    used (release m o cycle alt slot) = used m \ {(cycle % ii, slot)}

variable (cb : Sm.Cb) (R : ResourceMap cb.ii)

/-- `SM_schedule_oper_no_bundling` with the resource map. -/
def smScheduleOper (s : Sm.State × R.Map) (o : ℕ) (cycle earliestSlot latestSlot : ℤ) :
    Run ((Sm.State × R.Map) × Bool) := do
  let (s', ok) ← Sm.scheduleOper cb s.1 o cycle earliestSlot latestSlot false (R.tables s.2 o cycle)
  if ok then .ok ((s', R.commit s.2 o cycle (s' o).altChosen (s' o).schedSlot), true)
  else .ok ((s', s.2), false)

/-- `SM_unschedule_oper` with the resource map. -/
def smUnscheduleOper (s : Sm.State × R.Map) (o : ℕ) : Run (Sm.State × R.Map) := do
  let s' ← Sm.unscheduleOper cb s.1 o
  .ok (s', R.release s.2 o (s.1 o).schedCycle (s.1 o).altChosen (s.1 o).schedSlot)

/-- The schedule manager. -/
def smManager : Manager where
  State := Sm.State × R.Map
  oper s := s.1
  ignore _ k := (cb.dep k).ignore
  scheduleOper := smScheduleOper cb R
  unscheduleOper := smUnscheduleOper cb R

/-- The slots in use are those of the scheduled operations, each of one operation. -/
structure SmInv (s : Sm.State × R.Map) : Prop where
  bounds : Sm.Inv cb s.1
  schedSlot : ∀ o, (s.1 o).scheduled = false → (s.1 o).schedSlot = Sm.maxSlot
  used : ∀ p, p ∈ R.used s.2 ↔ ∃ o, (s.1 o).scheduled = true ∧
    ((s.1 o).schedCycle % cb.ii, (s.1 o).schedSlot) = p
  unique : ∀ a b, (s.1 a).scheduled = true → (s.1 b).scheduled = true →
    ((s.1 a).schedCycle % cb.ii, (s.1 a).schedSlot) =
      ((s.1 b).schedCycle % cb.ii, (s.1 b).schedSlot) → a = b

variable {cb R}

theorem SmInv.schedule (hcb : cb.Sound) (hcarried : cb.SelfDepsCarried) {s s' : Sm.State × R.Map}
    {o : ℕ} {cycle lo hi : ℤ} {ok : Bool} (h : SmInv cb R s) (hlo : lo ≤ 65535) (hhi : 0 ≤ hi)
    (hrun : smScheduleOper cb R s o cycle lo hi = .ok (s', ok)) :
    SmInv cb R s' ∧ (s.1 o).scheduled = false ∧ if ok then
      (s'.1 o).scheduled = true ∧ (s'.1 o).schedCycle = cycle ∧
        lo ≤ (((s'.1 o).schedSlot : ℕ) : ℤ) ∧ (((s'.1 o).schedSlot : ℕ) : ℤ) ≤ hi ∧
        ∀ o' ≠ o, (s'.1 o').scheduled = (s.1 o').scheduled ∧
          (s'.1 o').schedCycle = (s.1 o').schedCycle ∧ (s'.1 o').schedSlot = (s.1 o').schedSlot
    else s' = s := by
  obtain ⟨⟨s₁, b⟩, hs₁, hrun⟩ := Run.bind_eq_ok.1 hrun
  obtain ⟨hoff, ⟨rfl, htest⟩ | ⟨rfl, hplaced, alt', slot', hcommit', hallowed⟩⟩ :=
    Sm.scheduleOper_cases hlo hhi hs₁
  · obtain rfl : b = false := by simpa using htest
    obtain ⟨rfl, rfl⟩ := Prod.mk.inj (Except.ok.inj hrun)
    exact ⟨h, hoff, rfl⟩
  · obtain ⟨rfl, rfl⟩ := Prod.mk.inj (Except.ok.inj hrun)
    obtain ⟨alt, slot, hcommit, hmin, hmax, t, ht, minSlot, maxSlot, hfind⟩ := hplaced
    have hbounds : Sm.Inv cb s₁ := h.bounds.commitOper hcb hcarried hallowed hcommit'
    obtain ⟨hself, hother⟩ := Sm.commitOper_places (p := (cycle, slot)) hcb hcommit
    dsimp only at hself
    have hfree := R.free (List.mem_of_getElem? ht) hfind
    refine ⟨⟨hbounds, fun o' hoff' ↦ ?_, fun p ↦ ?_, fun a b ha hb heq ↦ ?_⟩, hoff,
      hself.1, hself.2.1, by rw [hself.2.2]; exact hmin, by rw [hself.2.2]; exact hmax, hother⟩
    · by_cases ho' : o' = o
      · subst ho'
        exact absurd (hself.1.symm.trans hoff') (by simp)
      · dsimp only at hoff' ⊢
        rw [(hother o' ho').1] at hoff'
        rw [(hother o' ho').2.2]
        exact h.schedSlot o' hoff'
    · dsimp only
      rw [hself.2.2, R.used_commit hfree, Set.mem_insert_iff, h.used]
      constructor
      · rintro (rfl | ⟨o', hon, rfl⟩)
        · exact ⟨o, hself.1, by rw [hself.2.1, hself.2.2]⟩
        · have ho' : o' ≠ o := fun heq ↦ by simp [heq, hoff] at hon
          obtain ⟨h₁, h₂, h₃⟩ := hother o' ho'
          exact ⟨o', h₁.trans hon, by rw [h₂, h₃]⟩
      · rintro ⟨o', hon, rfl⟩
        by_cases ho' : o' = o
        · subst ho'
          exact Or.inl (by rw [hself.2.1, hself.2.2])
        · obtain ⟨h₁, h₂, h₃⟩ := hother o' ho'
          exact Or.inr ⟨o', h₁ ▸ hon, by rw [h₂, h₃]⟩
    · -- The slot of the new operation was free, and no other moved.
      dsimp only at ha hb heq
      have hnew : ∀ o' ≠ o, (s₁ o').scheduled = true →
          ((s₁ o').schedCycle % cb.ii, (s₁ o').schedSlot) ≠ (cycle % cb.ii, slot) := by
        intro o' ho' hon heq'
        obtain ⟨h₁, h₂, h₃⟩ := hother o' ho'
        exact hfree ((h.used _).2 ⟨o', h₁ ▸ hon, by rw [← h₂, ← h₃, heq']⟩)
      by_cases hao : a = o
      · by_cases hbo : b = o
        · rw [hao, hbo]
        · rw [hao, hself.2.1, hself.2.2] at heq
          exact absurd heq.symm (hnew b hbo hb)
      · by_cases hbo : b = o
        · rw [hbo, hself.2.1, hself.2.2] at heq
          exact absurd heq (hnew a hao ha)
        · obtain ⟨ha₁, ha₂, ha₃⟩ := hother a hao
          obtain ⟨hb₁, hb₂, hb₃⟩ := hother b hbo
          exact h.unique a b (ha₁ ▸ ha) (hb₁ ▸ hb) (by rw [← ha₂, ← ha₃, ← hb₂, ← hb₃, heq])

theorem SmInv.unschedule (hcb : cb.Sound) {s s' : Sm.State × R.Map} {o : ℕ} (h : SmInv cb R s)
    (hrun : smUnscheduleOper cb R s o = .ok s') :
    SmInv cb R s' ∧ (s'.1 o).scheduled = false ∧
      ∀ o' ≠ o, (s'.1 o').scheduled = (s.1 o').scheduled ∧
        (s'.1 o').schedCycle = (s.1 o').schedCycle ∧ (s'.1 o').schedSlot = (s.1 o').schedSlot := by
  obtain ⟨s₁, hs₁, hrun⟩ := Run.bind_eq_ok.1 hrun
  obtain rfl := Except.ok.inj hrun
  have hbounds := h.bounds.unscheduleOper hcb hs₁
  have hon := (Sm.unscheduleOper_cases hcb hs₁).1
  obtain ⟨⟨hoff, hslot⟩, hother⟩ := Sm.unscheduleOper_places hcb hs₁
  have hne : ∀ {o' : ℕ}, (s₁ o').scheduled = true → o' ≠ o := by
    rintro o' hon' rfl
    rw [hoff] at hon'
    exact absurd hon' Bool.false_ne_true
  refine ⟨⟨hbounds, fun o' hoff' ↦ ?_, fun p ↦ ?_, fun a b ha hb heq ↦ ?_⟩, hoff, hother⟩
  · by_cases ho' : o' = o
    · rw [ho']
      exact hslot
    · dsimp only at hoff' ⊢
      rw [(hother o' ho').1] at hoff'
      rw [(hother o' ho').2.2]
      exact h.schedSlot o' hoff'
  · dsimp only
    rw [R.used_release, Set.mem_sdiff, Set.mem_singleton_iff, h.used]
    constructor
    · rintro ⟨⟨o', hon', rfl⟩, hp⟩
      have ho' : o' ≠ o := fun heq ↦ hp (heq ▸ rfl)
      obtain ⟨h₁, h₂, h₃⟩ := hother o' ho'
      exact ⟨o', h₁.trans hon', by rw [h₂, h₃]⟩
    · rintro ⟨o', hon', rfl⟩
      have ho' : o' ≠ o := hne hon'
      obtain ⟨h₁, h₂, h₃⟩ := hother o' ho'
      rw [h₁] at hon'
      rw [h₂, h₃]
      exact ⟨⟨o', hon', rfl⟩, fun heq ↦ ho' (h.unique o' o hon' hon heq)⟩
  · dsimp only at ha hb heq
    obtain ⟨ha₁, ha₂, ha₃⟩ := hother a (hne ha)
    obtain ⟨hb₁, hb₂, hb₃⟩ := hother b (hne hb)
    rw [ha₁] at ha
    rw [hb₁] at hb
    rw [ha₂, ha₃, hb₂, hb₃] at heq
    exact h.unique a b ha hb heq

/-- The modelled schedule manager is one that the main loop can rely on. -/
theorem lawful_smManager (hcb : cb.Sound) (hcarried : cb.SelfDepsCarried) :
    (smManager cb R).Lawful cb (SmInv cb R) where
  schedule {s s' o cycle lo hi ok} hinv hlo hhi hrun := by
    obtain ⟨hinv', hoff, hcase⟩ := SmInv.schedule hcb hcarried hinv hlo hhi hrun
    refine ⟨hinv', Manager.place_eq_none.2 hoff, ?_⟩
    cases ok with
    | false =>
      rw [if_neg Bool.false_ne_true] at hcase ⊢
      rw [hcase]
    | true =>
      rw [if_pos rfl] at hcase ⊢
      obtain ⟨hon, hcycle, hmin, hmax, hother⟩ := hcase
      exact ⟨_, Manager.place_schedule hon hcycle hother, hmin, hmax⟩
  unschedule {s s' o} hinv hrun := by
    obtain ⟨hinv', hoff, hother⟩ := SmInv.unschedule hcb hinv hrun
    exact ⟨hinv', Manager.place_unschedule hoff hother⟩
  schedSlot {s o} hinv hplace := hinv.schedSlot o (Manager.place_eq_none.1 hplace)
  slots {s a b cycle cycle' slot} hinv hne ha hb hmod := by
    obtain ⟨hona, hpa⟩ := Manager.scheduled_of_place ha
    obtain ⟨honb, hpb⟩ := Manager.scheduled_of_place hb
    refine hne (hinv.unique a b hona honb ?_)
    have hcyclea := (Prod.mk.inj hpa).1
    have hslota := (Prod.mk.inj hpa).2
    have hcycleb := (Prod.mk.inj hpb).1
    have hslotb := (Prod.mk.inj hpb).2
    exact Prod.ext ((congrArg (· % cb.ii) hcyclea).trans
      (hmod.trans (congrArg (· % cb.ii) hcycleb).symm)) (hslota.trans hslotb.symm)
  deps {s k source sink} hinv hk _ hignore hfrom hto := by
    obtain ⟨honf, hpf⟩ := Manager.scheduled_of_place hfrom
    obtain ⟨hont, hpt⟩ := Manager.scheduled_of_place hto
    have hholds := (hinv.bounds.holds k hk hignore honf hont).1
    rw [← hpf, ← hpt]
    dsimp only [smManager]
    omega

/-! ### A loop of two operations -/

/-- A resource map of four slots in each row, as the list of those in use. -/
def slotMap (ii : ℤ) : ResourceMap ii where
  Map := List (ℤ × Sm.Slot)
  tables m _ cycle := [{
    find minSlot maxSlot := [0, 1, 2, 3].find? fun slot ↦
      minSlot ≤ slot ∧ slot ≤ maxSlot ∧ (cycle % ii, slot) ∉ m
    within minSlot maxSlot slot h := by
      have := List.find?_some h
      simp only [decide_eq_true_eq] at this
      exact ⟨this.1, this.2.1⟩ }]
  commit m _ cycle _ slot := (cycle % ii, slot) :: m
  release m _ cycle _ slot := m.filter (· ≠ (cycle % ii, slot))
  used m := {p | p ∈ m}
  free {m o cycle t minSlot maxSlot slot} ht h := by
    obtain rfl := List.mem_singleton.1 ht
    have := List.find?_some h
    simp only [decide_eq_true_eq] at this
    exact this.2.2
  used_commit _ := by
    ext p
    simp
  used_release m o cycle alt slot := by
    ext p
    simp

/-- Operation 1 is the loop-back branch, and 2 and 3 are the start and the stop node. Operation 0 goes
first and takes the only slot of the branch's cycle. -/
def twoOperLoop : PipeLoop where
  manager := smManager (Sm.twoOpers true [1]) (slotMap 2)
  cb := Sm.twoOpers true [1]
  serialOpers := [2, 0, 1, 3]
  startNode o := o == 2
  stopNode o := o == 3
  flagBr o := o == 1
  isLoopBackBr o := o == 1
  priority o := if o = 3 then 9 else if o = 0 then 6 else if o = 1 then 3 else 0
  loopBackBr := 1
  totalIssueSlots := 1

theorem sound_twoOperLoop : twoOperLoop.Sound where
  nodup := by decide
  loopBackBr_mem := by decide
  loopBackBr_real := rfl
  loopBackBr := rfl
  fromOp o ho a ha k hk := by
    simp only [twoOperLoop, Sm.twoOpers] at *
    split_ifs at ha ⊢ <;> simp_all
  one_le_slots := by decide
  slots_le := by decide

/-- Three operations are scheduled, since the branch ejects operation 0. -/
theorem smSchedule_twoOpers :
    ∃ s, smSchedule twoOperLoop (Sm.unplaced fun o ↦ if o < 2 then 1 else 0, [])
        (fun _ ↦ initOpInfo 0) 5 6 = .ok (.ended s none) ∧ s.budget = 5 - 3 ∧
      twoOperLoop.ModuloScheduled s.pipe.sm :=
  have hcarried : (Sm.twoOpers true [1]).SelfDepsCarried := by
    intro k _ _ h
    simp only [Sm.twoOpers] at h ⊢
    split_ifs at h ⊢
  ⟨_, rfl, rfl, (smSchedule_spec twoOperLoop sound_twoOperLoop (SmInv (Sm.twoOpers true [1]) (slotMap 2))
    (lawful_smManager Sm.sound_twoOpers hcarried)
    (Sm.unplaced fun o ↦ if o < 2 then 1 else 0, [])
    ⟨Sm.inv_of_unscheduled fun _ ↦ rfl, fun _ _ ↦ rfl,
      fun p ↦ ⟨fun h ↦ (nomatch h), fun ⟨_, h, _⟩ ↦ (nomatch h)⟩, fun _ _ h ↦ (nomatch h)⟩
    (fun _ ↦ rfl) (fun _ ↦ initOpInfo 0) 5).2.2 6 _ rfl⟩

end OpenImpact.Softpipe
