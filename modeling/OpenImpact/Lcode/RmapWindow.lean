import OpenImpact.Lcode.RmapDRule

/-!
# The window of a resource map

Over any calls on any tables, the array covers a window of offsets that starts at a multiple of 4
and whose size is a power of two, the initialised part of it grows by whole groups of 4, what it
holds changes by the usages of the chosen options only, and a table is never looked up outside of
it. All of this needs that the window fits in `int`.

`window_of_reach` says this of every state that calls reach and of every further call, with or
without a template. It rests on `schedTableTemplate_eq` and `unschedTable_eq`, one lemma for each
call. A call may stop in one of the punts of the source, for a table that is not there or a rule
that is missing; that it stops nowhere else is part of the claim. Nothing is said about tables that
overlap, which are in `RmapSched`.
-/

namespace OpenImpact.Rmap

/-! ### Sizes -/

section Size

variable {s s' : Cb} {n size : ℤ}

/-- A power of two. -/
def IsPow2 (n : ℤ) : Prop :=
  ∃ k : ℕ, n = 2 ^ k

/-- Doubling keeps a power of two. -/
theorem IsPow2.mul_two (h : IsPow2 n) : IsPow2 (n * 2) := by
  obtain ⟨k, rfl⟩ := h
  exact ⟨k + 1, (pow_succ 2 k).symm⟩

/-- So does doubling until the map covers an offset. -/
theorem isPow2_doubleUntil {covers : ℤ → Run Bool} {fuel : ℕ}
    (h : doubleUntil covers fuel size = .ok n) (hsize : IsPow2 size) : IsPow2 n := by
  induction fuel generalizing size with
  | zero => simp [doubleUntil] at h
  | succ fuel ih =>
    rw [doubleUntil] at h
    obtain ⟨covered, -, h⟩ := Run.bind_eq_ok.1 h
    split_ifs at h
    · obtain rfl : size = n := Except.ok.inj h
      exact hsize
    · obtain ⟨size', hint, h⟩ := Run.bind_eq_ok.1 h
      obtain ⟨-, rfl⟩ := int32_eq_ok.1 hint
      exact ih h hsize.mul_two

/-- Growing at the end keeps the size a power of two. -/
theorem isPow2_expandMapEndOffset {offset : ℤ} (h : expandMapEndOffset s offset = .ok s')
    (hs : IsPow2 s.mapArraySize) : IsPow2 s'.mapArraySize := by
  rw [expandMapEndOffset] at h
  obtain ⟨size, hint, h⟩ := Run.bind_eq_ok.1 h
  obtain ⟨-, rfl⟩ := int32_eq_ok.1 hint
  obtain ⟨size, hdouble, h⟩ := Run.bind_eq_ok.1 h
  have hsize := isPow2_doubleUntil hdouble hs.mul_two
  obtain ⟨new, -, h⟩ := Run.bind_eq_ok.1 h
  obtain ⟨old, -, h⟩ := Run.bind_eq_ok.1 h
  obtain ⟨startIndex, -, h⟩ := Run.bind_eq_ok.1 h
  obtain ⟨endIndex, -, h⟩ := Run.bind_eq_ok.1 h
  obtain ⟨new, -, h⟩ := Run.bind_eq_ok.1 h
  split_ifs at h
  obtain ⟨next, -, h⟩ := Run.bind_eq_ok.1 h
  obtain rfl := Except.ok.inj h
  exact hsize

/-- So does growing at the start. -/
theorem isPow2_expandMapStartOffset {offset : ℤ} (h : expandMapStartOffset s offset = .ok s')
    (hs : IsPow2 s.mapArraySize) : IsPow2 s'.mapArraySize := by
  rw [expandMapStartOffset] at h
  obtain ⟨size, hint, h⟩ := Run.bind_eq_ok.1 h
  obtain ⟨-, rfl⟩ := int32_eq_ok.1 hint
  obtain ⟨next, -, h⟩ := Run.bind_eq_ok.1 h
  obtain ⟨size, hdouble, h⟩ := Run.bind_eq_ok.1 h
  have hsize := isPow2_doubleUntil hdouble hs.mul_two
  obtain ⟨start, -, h⟩ := Run.bind_eq_ok.1 h
  obtain ⟨new, -, h⟩ := Run.bind_eq_ok.1 h
  obtain ⟨old, -, h⟩ := Run.bind_eq_ok.1 h
  obtain ⟨startIndex, -, h⟩ := Run.bind_eq_ok.1 h
  obtain ⟨endIndex, -, h⟩ := Run.bind_eq_ok.1 h
  obtain ⟨shift, -, h⟩ := Run.bind_eq_ok.1 h
  obtain ⟨new, -, h⟩ := Run.bind_eq_ok.1 h
  split_ifs at h
  obtain rfl := Except.ok.inj h
  exact hsize

/-- So does making room at the end. -/
theorem isPow2_initForMaxUsage {offset : ℤ} (h : initForMaxUsage s offset = .ok s')
    (hs : IsPow2 s.mapArraySize) : IsPow2 s'.mapArraySize := by
  rw [initForMaxUsage] at h
  obtain ⟨hi, -, h⟩ := Run.bind_eq_ok.1 h
  obtain ⟨⟨s₁, hi₁⟩, hroom, h⟩ := Run.bind_eq_ok.1 h
  have hsize : IsPow2 s₁.mapArraySize := by
    rw [makeRoomAtEnd] at hroom
    split_ifs at hroom
    · obtain ⟨rfl, -⟩ := Prod.mk.inj (Except.ok.inj hroom)
      exact hs
    · obtain ⟨s₂, hexpand, hroom⟩ := Run.bind_eq_ok.1 hroom
      obtain ⟨rfl, -⟩ := Prod.mk.inj (Except.ok.inj hroom)
      exact isPow2_expandMapEndOffset hexpand hs
    · obtain ⟨rfl, -⟩ := Prod.mk.inj (Except.ok.inj hroom)
      exact hs
  obtain ⟨startIndex, -, h⟩ := Run.bind_eq_ok.1 h
  obtain ⟨endIndex, -, h⟩ := Run.bind_eq_ok.1 h
  obtain ⟨m, -, h⟩ := Run.bind_eq_ok.1 h
  obtain ⟨m', -, h⟩ := Run.bind_eq_ok.1 h
  obtain rfl := Except.ok.inj h
  exact hsize

/-- So does making room at the start. -/
theorem isPow2_initForMinUsage {offset : ℤ} (h : initForMinUsage s offset = .ok s')
    (hs : IsPow2 s.mapArraySize) : IsPow2 s'.mapArraySize := by
  rw [initForMinUsage] at h
  obtain ⟨lo, -, h⟩ := Run.bind_eq_ok.1 h
  obtain ⟨⟨s₁, lo₁⟩, hroom, h⟩ := Run.bind_eq_ok.1 h
  have hsize : IsPow2 s₁.mapArraySize := by
    rw [makeRoomAtStart] at hroom
    split_ifs at hroom
    · obtain ⟨rfl, -⟩ := Prod.mk.inj (Except.ok.inj hroom)
      exact hs
    · obtain ⟨s₂, hexpand, hroom⟩ := Run.bind_eq_ok.1 hroom
      obtain ⟨rfl, -⟩ := Prod.mk.inj (Except.ok.inj hroom)
      exact isPow2_expandMapStartOffset hexpand hs
    · obtain ⟨rfl, -⟩ := Prod.mk.inj (Except.ok.inj hroom)
      exact hs
  obtain ⟨startIndex, -, h⟩ := Run.bind_eq_ok.1 h
  obtain ⟨endIndex, -, h⟩ := Run.bind_eq_ok.1 h
  obtain ⟨m, -, h⟩ := Run.bind_eq_ok.1 h
  obtain ⟨m', -, h⟩ := Run.bind_eq_ok.1 h
  obtain rfl := Except.ok.inj h
  exact hsize

/-- The size of a new map is a power of two. -/
theorem isPow2_createMap {lo hi : ℤ} (h : createMap lo hi = .ok s') : IsPow2 s'.mapArraySize := by
  rw [createMap] at h
  obtain ⟨start, -, h⟩ := Run.bind_eq_ok.1 h
  obtain ⟨size, hdouble, h⟩ := Run.bind_eq_ok.1 h
  obtain ⟨m, -, h⟩ := Run.bind_eq_ok.1 h
  obtain ⟨next, -, h⟩ := Run.bind_eq_ok.1 h
  obtain ⟨maxInit, -, h⟩ := Run.bind_eq_ok.1 h
  exact isPow2_initForMaxUsage h (isPow2_doubleUntil hdouble ⟨5, rfl⟩)

/-- A step that is made under a condition. -/
theorem onlyIf_cases {c : Prop} [Decidable c] {f : Cb → Run Cb} (h : onlyIf c f s = .ok s') :
    c ∧ f s = .ok s' ∨ ¬c ∧ s' = s := by
  rw [onlyIf] at h
  split_ifs at h with hc
  · exact .inl ⟨hc, h⟩
  · exact .inr ⟨hc, (Except.ok.inj h).symm⟩

/-- Growing the map leaves its size a power of two. -/
theorem isPow2_growMap {lo hi : ℤ} (h : growMap s lo hi = .ok s')
    (hs : s.mapArray ≠ none → IsPow2 s.mapArraySize) : IsPow2 s'.mapArraySize := by
  rw [growMap] at h
  obtain ⟨s₁, hcreate, h⟩ := Run.bind_eq_ok.1 h
  obtain ⟨s₂, hmax, hmin⟩ := Run.bind_eq_ok.1 h
  have h₁ : IsPow2 s₁.mapArraySize := by
    rcases onlyIf_cases hcreate with ⟨-, hrun⟩ | ⟨hmap, rfl⟩
    · exact isPow2_createMap hrun
    · exact hs hmap
  have h₂ : IsPow2 s₂.mapArraySize := by
    rcases onlyIf_cases hmax with ⟨-, hrun⟩ | ⟨-, rfl⟩
    · exact isPow2_initForMaxUsage hrun h₁
    · exact h₁
  rcases onlyIf_cases hmin with ⟨-, hrun⟩ | ⟨-, rfl⟩
  · exact isPow2_initForMinUsage hrun h₂
  · exact h₂

end Size

/-! ### Committing and releasing any options -/

section Walk

variable {s : Cb} {m : Cells} {addr : ℕ → ℤ} {us : List Usage}

/-- All resources of the usages. -/
def taken (addr : ℕ → ℤ) (us : List Usage) : Set (ℤ × ℕ) :=
  joined (us.map (Usage.bits addr))

/-- Committing adds the bits of the usages. -/
theorem commitWord_bits (hload : Loads m addr us) :
    ∃ m', walkUsages commitWord addr us m = .ok m' ∧ SameShape m m' ∧
      m'.bits = m.bits ∪ taken addr us := by
  induction us generalizing m with
  | nil => exact ⟨m, rfl, ⟨rfl, fun _ ↦ rfl⟩, (Set.union_empty _).symm⟩
  | cons u us ih =>
    obtain ⟨w, hw⟩ := hload u List.mem_cons_self
    obtain ⟨m₁, hm₁, hshape, hword⟩ := store_word hw (w ||| u.resourcesUsed)
    obtain ⟨m', hm', hshape', hbits⟩ :=
      ih (hshape.loads fun v hv ↦ hload v (List.mem_cons_of_mem u hv))
    refine ⟨m', ?_, hshape.trans hshape', ?_⟩
    · rw [walkUsages, Cells.load, hw, deref_some, Run.ok_bind, commitWord, Run.ok_bind, hm₁,
        Run.ok_bind, hm']
    · rw [hbits, Cells.bits_commit hw hword]
      exact Set.union_assoc _ _ _

/-- The text of the punt in `SM_release_choices`. -/
def alreadyFree : Halt :=
  .punt "SM_release_choices: Resources already free!"

/-- Releasing takes them away, or finds that they are free. -/
theorem releaseWord_bits (hload : Loads m addr us) :
    walkUsages releaseWord addr us m = .error alreadyFree ∨
      ∃ m', walkUsages releaseWord addr us m = .ok m' ∧ SameShape m m' ∧
        m'.bits = m.bits \ taken addr us := by
  induction us generalizing m with
  | nil => exact .inr ⟨m, rfl, ⟨rfl, fun _ ↦ rfl⟩, Set.sdiff_empty.symm⟩
  | cons u us ih =>
    obtain ⟨w, hw⟩ := hload u List.mem_cons_self
    rw [walkUsages, Cells.load, hw, deref_some, Run.ok_bind, releaseWord]
    split_ifs with hfree
    · exact .inl rfl
    · obtain ⟨m₁, hm₁, hshape, hword⟩ := store_word hw (w ^^^ u.resourcesUsed)
      rw [Run.ok_bind, hm₁, Run.ok_bind]
      refine (ih (hshape.loads fun v hv ↦ hload v (List.mem_cons_of_mem u hv))).imp_right ?_
      rintro ⟨m', hm', hshape', hbits⟩
      refine ⟨m', hm', hshape.trans hshape', ?_⟩
      rw [hbits, Cells.bits_release hw (not_not.1 hfree) hword]
      exact sdiff_sdiff_left

/-- Offsets in the array instead of the map. -/
theorem taken_sub (k : ℤ) : taken (fun o ↦ addr o - k) us = shiftBy (-k) (taken addr us) := by
  rw [taken, taken, map_bits]
  induction us with
  | nil => rfl
  | cons u us ih =>
    rw [List.map_cons, List.map_cons, joined_cons, joined_cons, ih]
    rfl

/-- The bits of the array are those that the map holds, from its start on. -/
theorem shiftBy_bits_start (h : s.mapArray = some m) :
    m.bits = shiftBy (-s.mapStartOffset) s.held := by
  rw [held_eq_shiftBy h, shiftBy_shiftBy, neg_add_cancel, shiftBy_zero]

/-- Committing usages within the map. -/
theorem Cb.Inv.commit_held (h : s.Inv m) (hus : s.Within addr us) :
    ∃ m', walkUsages commitWord (fun o ↦ addr o - s.mapStartOffset) us m = .ok m' ∧
      Cb.Inv { s with mapArray := some m' } m' ∧
      Cb.held { s with mapArray := some m' } = s.held ∪ taken addr us := by
  obtain ⟨m', hm', hshape, hbits⟩ := commitWord_bits (h.loads hus)
  refine ⟨m', hm', h.of_sameShape hshape, ?_⟩
  rw [held_eq_shiftBy rfl, hbits, shiftBy_bits_start h.array, taken_sub]
  change shiftBy s.mapStartOffset (shiftBy _ (s.held ∪ taken addr us)) = _
  rw [shiftBy_shiftBy, add_neg_cancel, shiftBy_zero]

/-- Releasing them. -/
theorem Cb.Inv.release_held (h : s.Inv m) (hus : s.Within addr us) :
    walkUsages releaseWord (fun o ↦ addr o - s.mapStartOffset) us m = .error alreadyFree ∨
      ∃ m', walkUsages releaseWord (fun o ↦ addr o - s.mapStartOffset) us m = .ok m' ∧
        Cb.Inv { s with mapArray := some m' } m' ∧
        Cb.held { s with mapArray := some m' } = s.held \ taken addr us := by
  refine (releaseWord_bits (h.loads hus)).imp_right ?_
  rintro ⟨m', hm', hshape, hbits⟩
  refine ⟨m', hm', h.of_sameShape hshape, ?_⟩
  rw [held_eq_shiftBy rfl, hbits, shiftBy_bits_start h.array, taken_sub]
  change shiftBy s.mapStartOffset (shiftBy _ (s.held \ taken addr us)) = _
  rw [shiftBy_shiftBy, add_neg_cancel, shiftBy_zero]

end Walk

/-! ### Calls on any tables -/

/-- A call of `SM_sched_table`, which tests only unless it commits, or of `SM_unsched_table`. -/
inductive TableCall where
  | sched (op : SMOper) (templateIndex : Option ℕ) (t : SMTable) (time : ℤ) (minSlot maxSlot : ℕ)
      (commit : Bool)
  | unsched (t : SMTable) (choiceArray : List ℕ) (time : ℤ)

def TableCall.exec (timeShift : ℕ) (drules : List SMDRule) (s : Cb) : TableCall → Run Cb
  | .sched op templateIndex t time minSlot maxSlot commit => do
    let (s, _) ← schedTableTemplate timeShift drules s op templateIndex t time minSlot maxSlot commit
    .ok s
  | .unsched t choiceArray time => unschedTable timeShift s t choiceArray time

/-- The array's window and the initialised part of it. -/
structure Cb.Window (s : Cb) : Prop where
  start_mod : s.mapStartOffset % 4 = 0
  isPow2_size : IsPow2 s.mapArraySize
  length_eq : ∃ m, s.mapArray = some m ∧ (m.length : ℤ) = s.mapArraySize
  start_le : s.mapStartOffset ≤ s.minInitOffset
  max_lt : s.maxInitOffset < s.mapStartOffset + s.mapArraySize
  min_mod : s.minInitOffset % 4 = 0
  max_mod : (s.maxInitOffset + 1) % 4 = 0
  isSome_iff : ∀ o, (s.word o).isSome = true ↔ s.minInitOffset ≤ o ∧ o ≤ s.maxInitOffset

/-- If there is a map in `s`, what it has initialised is initialised in `s'`. -/
def Cb.Advances (s s' : Cb) : Prop :=
  s.mapArray ≠ none → s'.minInitOffset ≤ s.minInitOffset ∧ s.maxInitOffset ≤ s'.maxInitOffset

/-- What a committing or testing call puts in the map. -/
def newlyTaken (addr : ℕ → ℤ) (t : SMTable) (commit : Bool) : Option (ℕ × List ℕ) → Set (ℤ × ℕ)
  | some (_, ids) => if commit then taken addr (picked t.choices ids) else ∅
  | none => ∅

/-- The punts of `SM_unsched_table` for a table that is not in the map. -/
def unschedPunts : List Halt :=
  [.punt "SM_unsched_table: Error, map array not initialized!",
    .punt ("SM_unsched_table: Error, table extends into" ++ "unintialized upper segment!"),
    .punt ("SM_unsched_table: Error, table extends into" ++ "unintialized lower segment!"),
    alreadyFree]

/-- What a call is to do to the map. It may stop in a punt that is about the machine description or
about a table that is not in the map, and in none that is about the map itself. -/
def TableCall.Right (timeShift : ℕ) (drules : List SMDRule) (s : Cb) : TableCall → Prop
  | .sched op templateIndex t time minSlot maxSlot commit =>
    schedTableTemplate timeShift drules s op templateIndex t time minSlot maxSlot commit =
        .error noDRule ∨
      ∃ s' r, schedTableTemplate timeShift drules s op templateIndex t time minSlot maxSlot commit =
          .ok (s', r) ∧
        s'.Window ∧ s.Advances s' ∧ s'.WithinAll (fun o ↦ time * 2 ^ timeShift + o) t ∧
        (∀ slot ids, r = some (slot, ids) → Selects t.choices ids) ∧
        s'.held = s.held ∪ newlyTaken (fun o ↦ time * 2 ^ timeShift + o) t commit r
  | .unsched t choiceArray time =>
    (∃ h ∈ unschedPunts, unschedTable timeShift s t choiceArray time = .error h) ∨
      ∃ s', unschedTable timeShift s t choiceArray time = .ok s' ∧
        s'.Window ∧ s.Advances s' ∧ s'.WithinAll (fun o ↦ time * 2 ^ timeShift + o) t ∧
        s'.held = s.held \ taken (fun o ↦ time * 2 ^ timeShift + o) (picked t.choices choiceArray)

/-- The calls the result below is about. -/
def TableCall.InReach (timeShift : ℕ) (s : Cb) : TableCall → Prop
  | .sched _ _ t time _ _ _ =>
    -2147483648 ≤ time * 2 ^ timeShift ∧ time * 2 ^ timeShift + t.maxUsageOffset ≤ 2147483647 ∧
      s.Room (time * 2 ^ timeShift) (time * 2 ^ timeShift + t.maxUsageOffset)
  | .unsched t choiceArray time =>
    -2147483648 ≤ time * 2 ^ timeShift ∧ time * 2 ^ timeShift + t.maxUsageOffset ≤ 2147483647 ∧
      Selects t.choices choiceArray

/-! ### One call -/

section Calls

variable {timeShift : ℕ} {drules : List SMDRule} {s s' : Cb} {m : Cells} {t : SMTable} {time : ℤ}

/-- There is no map yet, or one whose size is a power of two. -/
def Cb.Sound (s : Cb) : Prop :=
  s.mapArray = none ∨ ∃ m, s.Inv m ∧ IsPow2 s.mapArraySize

/-- A map that keeps its invariant has the window that is claimed of it. -/
theorem Cb.Inv.window (h : s.Inv m) (hsize : IsPow2 s.mapArraySize) : s.Window where
  start_mod := h.start_mod
  isPow2_size := hsize
  length_eq := ⟨m, h.array, h.length⟩
  start_le := h.start_le
  max_lt := by
    have := h.max_le
    have := h.end_eq
    omega
  min_mod := h.min_mod
  max_mod := h.max_mod
  isSome_iff := h.isSome_iff

/-- A table is scheduled where there is room for it, with the choices that are free. -/
theorem schedTableTemplate_eq (hs : s.Sound) (op : SMOper) (templateIndex : Option ℕ)
    (minSlot maxSlot : ℕ) (commit : Bool) (hlo : -2147483648 ≤ time * 2 ^ timeShift)
    (hhi : time * 2 ^ timeShift + t.maxUsageOffset ≤ 2147483647)
    (hroom : s.Room (time * 2 ^ timeShift) (time * 2 ^ timeShift + t.maxUsageOffset)) :
    schedTableTemplate timeShift drules s op templateIndex t time minSlot maxSlot commit =
        .error noDRule ∨
      ∃ s' m' r, schedTableTemplate timeShift drules s op templateIndex t time minSlot maxSlot
          commit = .ok (s', r) ∧
        s'.Inv m' ∧ IsPow2 s'.mapArraySize ∧ s.Advances s' ∧
        s'.WithinAll (fun o ↦ time * 2 ^ timeShift + o) t ∧
        (∀ slot ids, r = some (slot, ids) → Selects t.choices ids) ∧
        s'.held = s.held ∪ newlyTaken (fun o ↦ time * 2 ^ timeShift + o) t commit r := by
  obtain ⟨s₁, m, hgrow, hcov⟩ := growMap_eq (hs.imp_right fun ⟨m, hm, _⟩ ↦ ⟨m, hm⟩) (by omega) hroom
  have hinv := hcov.inv
  have hmin := hcov.min_le
  have hmax := hcov.le_max
  have hsize : IsPow2 s₁.mapArraySize := isPow2_growMap hgrow fun hne ↦ by
    obtain hnone | ⟨_, _, hsize⟩ := hs
    · exact absurd hnone hne
    · exact hsize
  have hwithin := withinAll_of_le hmin hmax
  have hbase : int32 (time * 2 ^ timeShift - s₁.mapStartOffset) =
      .ok (time * 2 ^ timeShift - s₁.mapStartOffset) := by
    have hstart := hinv.start_le
    have hend := hinv.max_le
    have hend' := hinv.end_eq
    obtain ⟨hge, hle, hsize⟩ := hinv.spans
    exact int32_eq (by omega)
  rw [schedTableTemplate, int32_eq (by omega), Run.ok_bind, int32_eq (by omega), Run.ok_bind, hgrow,
    Run.ok_bind, hinv.array, deref_some, Run.ok_bind, hbase, Run.ok_bind]
  have hload : ∀ c ∈ t.choices, ∀ o ∈ c.options,
      Loads m (fun o ↦ time * 2 ^ timeShift - s₁.mapStartOffset + o) o.usages := by
    intro c hc o ho
    rw [base_eq]
    exact hinv.loads (hwithin c hc o ho)
  rcases chooseOptions_selects drules op templateIndex _ minSlot maxSlot hload with
    hrun | ⟨r, hrun, hselects⟩
  · exact .inl (by rw [hrun, Run.error_bind])
  right
  rw [hrun, Run.ok_bind]
  have hkept : s.held ∪ ∅ = s₁.held := by rw [Set.union_empty, hcov.held_eq]
  rcases r with - | ⟨slot, ids⟩
  · exact ⟨s₁, m, none, rfl, hinv, hsize, hcov.keeps, hwithin, by simp, hkept.symm⟩
  cases commit with
  | false => exact ⟨s₁, m, _, rfl, hinv, hsize, hcov.keeps, hwithin, hselects, hkept.symm⟩
  | true =>
    obtain ⟨m', hm', hinv', hheld⟩ := hinv.commit_held (hwithin.picked ids)
    refine ⟨_, m', _, ?_, hinv', hsize, hcov.keeps, hwithin, hselects, ?_⟩
    · rw [settle, if_pos rfl, commitChoices, walkChoices_eq (hselects slot ids rfl), base_eq, hm',
        Run.ok_bind]
    · rw [hheld, hcov.held_eq]
      rfl

/-- A table is unscheduled with the options that were chosen. -/
theorem unschedTable_eq (hs : s.Sound) {choiceArray : List ℕ}
    (hlo : -2147483648 ≤ time * 2 ^ timeShift)
    (hhi : time * 2 ^ timeShift + t.maxUsageOffset ≤ 2147483647)
    (hselects : Selects t.choices choiceArray) :
    (∃ h ∈ unschedPunts, unschedTable timeShift s t choiceArray time = .error h) ∨
      ∃ s' m', unschedTable timeShift s t choiceArray time = .ok s' ∧
        s'.Inv m' ∧ IsPow2 s'.mapArraySize ∧ s.Advances s' ∧
        s'.WithinAll (fun o ↦ time * 2 ^ timeShift + o) t ∧
        s'.held =
          s.held \ taken (fun o ↦ time * 2 ^ timeShift + o) (picked t.choices choiceArray) := by
  rw [unschedTable, int32_eq (by omega), Run.ok_bind, int32_eq (by omega), Run.ok_bind]
  rcases hs with hnone | ⟨m, hinv, hsize⟩
  · exact .inl ⟨_, List.mem_cons_self, by rw [hnone]⟩
  have hstart := hinv.start_le
  have hend := hinv.max_le
  have hend' := hinv.end_eq
  obtain ⟨hge, hle, hwords⟩ := hinv.spans
  rw [hinv.array]
  dsimp only
  split_ifs with hmax hmin
  · exact .inl ⟨_, by simp [unschedPunts], rfl⟩
  · exact .inl ⟨_, by simp [unschedPunts], rfl⟩
  have hwithin := withinAll_of_le (not_lt.1 hmin) (not_lt.1 hmax)
  rw [int32_eq (by omega), Run.ok_bind, releaseChoices, walkChoices_eq hselects, base_eq]
  rcases hinv.release_held (hwithin.picked choiceArray) with hrun | ⟨m', hrun, hinv', hheld⟩
  · exact .inl ⟨alreadyFree, by simp [unschedPunts], by rw [hrun, Run.error_bind]⟩
  · exact .inr ⟨_, m', by rw [hrun, Run.ok_bind], hinv', hsize, fun _ ↦ ⟨le_rfl, le_rfl⟩, hwithin,
      hheld⟩

/-! ### Runs -/

/-- **Every call in reach is right.** -/
theorem TableCall.right (hs : s.Sound) {call : TableCall} (h : call.InReach timeShift s) :
    call.Right timeShift drules s := by
  cases call with
  | sched op templateIndex t time minSlot maxSlot commit =>
    obtain ⟨hlo, hhi, hroom⟩ := h
    refine (schedTableTemplate_eq hs op templateIndex minSlot maxSlot commit hlo hhi hroom).imp_right
      ?_
    rintro ⟨s', m', r, hrun, hinv, hsize, hrest⟩
    exact ⟨s', r, hrun, hinv.window hsize, hrest⟩
  | unsched t choiceArray time =>
    obtain ⟨hlo, hhi, hselects⟩ := h
    refine (unschedTable_eq hs hlo hhi hselects).imp_right ?_
    rintro ⟨s', m', hrun, hinv, hsize, hrest⟩
    exact ⟨s', hrun, hinv.window hsize, hrest⟩

/-- It leaves a sound map. -/
theorem Cb.Sound.exec (hs : s.Sound) {call : TableCall} (h : call.InReach timeShift s)
    (hexec : call.exec timeShift drules s = .ok s') : s'.Sound := by
  cases call with
  | sched op templateIndex t time minSlot maxSlot commit =>
    obtain ⟨hlo, hhi, hroom⟩ := h
    rw [TableCall.exec] at hexec
    rcases schedTableTemplate_eq hs op templateIndex minSlot maxSlot commit hlo hhi hroom with
      hrun | ⟨s₁, m', r, hrun, hinv, hsize, -⟩
    · rw [hrun, Run.error_bind] at hexec
      cases hexec
    · rw [hrun, Run.ok_bind] at hexec
      obtain rfl : s₁ = s' := Except.ok.inj hexec
      exact .inr ⟨m', hinv, hsize⟩
  | unsched t choiceArray time =>
    obtain ⟨hlo, hhi, hselects⟩ := h
    rw [TableCall.exec] at hexec
    rcases unschedTable_eq hs hlo hhi hselects with ⟨e, -, hrun⟩ | ⟨s₁, m', hrun, hinv, hsize, -⟩
    · rw [hrun] at hexec
      cases hexec
    · rw [hrun] at hexec
      obtain rfl : s₁ = s' := Except.ok.inj hexec
      exact .inr ⟨m', hinv, hsize⟩

/-- In every reached state the map is a window, if there is one, and every further call keeps it
so, initialises free offsets only, looks at initialised ones only, and punts over no alignment. -/
theorem window_of_reach
    (h : Reach (fun s (call : TableCall) ↦ call.exec timeShift drules s)
      (fun s call ↦ call.InReach timeShift s) Cb.new s) :
    (s.mapArray ≠ none → s.Window) ∧
      ∀ call : TableCall, call.InReach timeShift s → call.Right timeShift drules s := by
  have hsound : s.Sound := h.inv (.inl rfl) fun hs hreach hexec ↦ hs.exec hreach hexec
  refine ⟨fun hne ↦ ?_, fun call hcall ↦ call.right hsound hcall⟩
  obtain hnone | ⟨m, hinv, hsize⟩ := hsound
  · exact absurd hnone hne
  · exact hinv.window hsize

end Calls

/-- A rule for template 0 that has the second resource to try. -/
def ruleOfTemplate : SMDRule := ⟨[], 0, 0, [2], 1, List.cons_ne_nil _ _⟩

/-- A table, one chosen by the dispersal rule after the end of the map, one before its start, and the
second one unscheduled. -/
def twoOptionsTableCalls : List TableCall :=
  [.sched ⟨0, 0⟩ none .twoOptions 0 0 1 true, .sched ⟨0, 0⟩ (some 0) .twoOptions 60 1 1 true,
    .sched ⟨0, 0⟩ none .twoOptions (-40) 0 1 true, .unsched .twoOptions [1] 60]

/-- There is room for the table of a call that schedules. -/
def hasRoom (s : Cb) : TableCall → Bool
  | .sched _ _ _ time _ _ _ => decide (s.Room time (time + 1))
  | .unsched .. => true

/-- The calls of the run are in reach if there is room for them. -/
theorem inReach_of_hasRoom : ∀ call ∈ twoOptionsTableCalls, ∀ s : Cb, hasRoom s call = true →
    call.InReach 0 s := by
  have hreach : ∀ (s : Cb) (i : Option ℕ) (time : ℤ) (minSlot : ℕ), -2147483648 ≤ time →
      time + 1 ≤ 2147483647 → s.Room time (time + 1) →
      (TableCall.sched ⟨0, 0⟩ i .twoOptions time minSlot 1 true).InReach 0 s :=
    fun s i time minSlot hlo hhi hroom ↦ ⟨by simpa using hlo,
      by simpa [SMTable.twoOptions] using hhi, by simpa [SMTable.twoOptions] using hroom⟩
  simp only [twoOptionsTableCalls, List.forall_mem_cons]
  refine ⟨?_, ?_, ?_, ?_, by simp⟩ <;> intro s h
  · exact hreach s _ _ _ (by decide) (by decide) (of_decide_eq_true h)
  · exact hreach s _ _ _ (by decide) (by decide) (of_decide_eq_true h)
  · exact hreach s _ _ _ (by decide) (by decide) (of_decide_eq_true h)
  · exact ⟨by decide, by decide, 1, [], rfl, by decide, rfl⟩

/-- The map grows at both ends, and its window is right again after it. -/
theorem window_of_reach_twoOptions :
    ∃ s, twoOptionsTableCalls.foldlM (fun s call ↦ call.exec 0 [ruleOfTemplate] s) Cb.new = .ok s ∧
      s.mapStartOffset = -132 ∧ s.mapArraySize = 256 ∧ s.Window := by
  have hrun : (twoOptionsTableCalls.foldlM (fun s call ↦
      if hasRoom s call then call.exec 0 [ruleOfTemplate] s else .error .fault) Cb.new).map
        (fun s ↦ (s.mapStartOffset, s.mapArraySize, s.mapArray.isSome)) =
      .ok (-132, 256, true) := by decide +kernel
  obtain ⟨s, hs, heq⟩ := Run.map_eq_ok.1 hrun
  obtain ⟨hstart, heq⟩ := Prod.mk.inj heq
  obtain ⟨hsize, hsome⟩ := Prod.mk.inj heq
  obtain ⟨hcalls, hreach⟩ := @Reach.foldlM_checked _ _ _
    (fun s (call : TableCall) ↦ call.exec 0 [ruleOfTemplate] s) _ _ _ _ _ _ _
    inReach_of_hasRoom .start hs
  exact ⟨s, hcalls, hstart, hsize, (window_of_reach hreach).1 (Option.isSome_iff_ne_none.1 hsome)⟩

/-- At the largest `int` the first table already leaves no map. -/
theorem not_right_intMax :
    ¬(TableCall.sched ⟨0, 0⟩ none .single 2147483647 0 0 true).Right 0 [] Cb.new := by
  have hrun : schedTableTemplate 0 [] Cb.new ⟨0, 0⟩ none .single 2147483647 0 0 true =
      .error .overflow := rfl
  rw [TableCall.Right, hrun]
  simp [noDRule]

end OpenImpact.Rmap
