import OpenImpact.Lcode.RmapSched

/-!
# Dispersal rules

With a template, `SM_sched_table` chooses options by `SM_choose_options_w_d_rule`: the resources of
the dispersal rules that match the operation, its slot and the template are tried in turn, and every
usage of a chosen option is to share a resource with the ones tried. Whatever is found is one option
for every choice, and only the words of the table's own usages are read.
-/

namespace OpenImpact.Rmap

/-! ### The source's functions -/

/-- `SM_DRule`, as `SM_build_drules` makes it: there is a resource mask to try. -/
structure SMDRule where
  slot : List ℤ
  portMask : BitVec 32
  syllMask : BitVec 32
  rsrc : List (BitVec 32)
  templates : BitVec 32
  rsrc_ne_nil : rsrc ≠ []

/-- The fields of `SM_Oper` that a rule is matched with: the `port_mask` of its `mdes_op` and its
`syll_type`. -/
structure SMOper where
  portMask : BitVec 32
  syllType : BitVec 32

/-- `templates & C_pow2 (template_index)` is not 0. From 32 on `C_pow2` is -1. -/
def inTemplates (templates : BitVec 32) (templateIndex : ℕ) : Bool :=
  if templateIndex < 32 then templates.getLsbD templateIndex else templates != 0

/-- The tests in the loop of `SM_find_drule`. -/
def SMDRule.Matches (r : SMDRule) (op : SMOper) (absSlot templateIndex : ℕ) : Prop :=
  (r.slot.length ≠ 0 → (absSlot : ℤ) ∈ r.slot) ∧
    ¬(op.portMask ≠ r.portMask ∨ op.syllType ≠ r.syllMask) ∧
    (r.templates ≠ 0 → inTemplates r.templates templateIndex = true)

instance (r : SMDRule) (op : SMOper) (absSlot templateIndex : ℕ) :
    Decidable (r.Matches op absSlot templateIndex) :=
  inferInstanceAs (Decidable (_ ∧ _ ∧ _))

/-- The text of the punt in `SM_find_drule`. -/
def noDRule : Halt :=
  .punt ("SM_find_drule: prev_index == -1 and yet no drule found!!\n" ++
    "cb %i op %i port 0x%x syll 0x%x slot %i template %i")

/-- `SM_find_drule`, whose `prev_index` is `start - 1`. The result is `none` for -1. -/
def findDRule (drules : List SMDRule) (op : SMOper) (absSlot templateIndex start : ℕ) :
    Run (Option (ℕ × SMDRule)) :=
  match (drules.zipIdx.drop start).find? fun p ↦ p.1.Matches op absSlot templateIndex with
  | some (r, i) => .ok (some (i, r))
  | none => if start = 0 then .error noDRule else .ok none

/-- The innermost loop: whether `usage_ptr` is not `NULL` after it. -/
def dRuleUsagesAvail (m : Cells) (addr : ℕ → ℤ) (dResources : BitVec 32) : List Usage → Run Bool
  | [] => .ok true
  | u :: us => do
    let contents ← m.load (addr u.mapOffset)
    if u.resourcesUsed &&& dResources = 0 then .ok false
    else if contents &&& u.resourcesUsed ≠ 0 then .ok false
    else dRuleUsagesAvail m addr dResources us

/-- The option loop of one choice. The result is the slot with the `option_id`, if there is one. -/
def chooseDRuleOption (m : Cells) (addr : ℕ → ℤ) (absSlot : ℕ) (dResources : BitVec 32)
    (isSlotChoice : Bool) : ℕ → ℕ → List ℕ → List SMOption → Run (ℕ × Option ℕ)
  | _, slot, _, [] => .ok (slot, none)
  | optionId, slot, slots, o :: os => do
    let avail ← dRuleUsagesAvail m addr dResources o.usages
    if isSlotChoice then
      if avail then do
        let slot ← deref slots.head?
        if slot ≠ absSlot then
          chooseDRuleOption m addr absSlot dResources isSlotChoice ((optionId + 1) % 65536) slot
            slots.tail os
        else .ok (slot, some optionId)
      else
        chooseDRuleOption m addr absSlot dResources isSlotChoice ((optionId + 1) % 65536) slot
          slots.tail os
    else
      if avail then .ok (slot, some optionId)
      else
        chooseDRuleOption m addr absSlot dResources isSlotChoice ((optionId + 1) % 65536) slot
          slots os

/-- The choice loop, from choice `k` on. The result is the slot with the `choices_made`, if
`d_rule_match` is still set. -/
def chooseDRuleChoices (m : Cells) (addr : ℕ → ℤ) (t : SMTable) (absSlot : ℕ)
    (dResources : BitVec 32) : ℕ → ℕ → List SMChoice → Run (ℕ × Option (List ℕ))
  | _, slot, [] => .ok (slot, some [])
  | k, slot, c :: cs => do
    let (slot, optionId) ← chooseDRuleOption m addr absSlot dResources (k == t.slotChoice) 0 slot
      t.slotOptions c.options
    match optionId with
    | none => .ok (slot, none)
    | some optionId => do
      let (slot, ids) ← chooseDRuleChoices m addr t absSlot dResources (k + 1) slot cs
      .ok (slot, ids.map (optionId :: ·))

/-- The resources of one rule, tried in turn. -/
def tryResources (m : Cells) (addr : ℕ → ℤ) (t : SMTable) (absSlot : ℕ) :
    ℕ → List (BitVec 32) → Run (ℕ × Option (List ℕ))
  | slot, [] => .ok (slot, none)
  | slot, dResources :: rest => do
    let (slot, ids) ← chooseDRuleChoices m addr t absSlot dResources 0 slot t.choices
    match ids with
    | none => tryResources m addr t absSlot slot rest
    | some ids => .ok (slot, some ids)

/-- The rules from number `start` on, tried in turn. Each one tried is past the one before. -/
def tryDRules (m : Cells) (addr : ℕ → ℤ) (t : SMTable) (drules : List SMDRule) (op : SMOper)
    (absSlot templateIndex : ℕ) : ℕ → ℕ → ℕ → Run (ℕ × Option (List ℕ))
  | 0, _, _ => .error .outOfFuel
  | fuel + 1, slot, start => do
    match ← findDRule drules op absSlot templateIndex start with
    | none => .ok (slot, none)
    | some (i, r) => do
      let (slot, ids) ← tryResources m addr t absSlot slot r.rsrc
      match ids with
      | none => tryDRules m addr t drules op absSlot templateIndex fuel slot (i + 1)
      | some ids => .ok (slot, some ids)

/-- `SM_choose_options_w_d_rule`, on the map from index `base` on. The slot is -1 at first. -/
def chooseOptionsWDRule (drules : List SMDRule) (op : SMOper) (templateIndex : ℕ) (m : Cells)
    (base : ℤ) (t : SMTable) (absSlot : ℕ) : Run (Option (ℕ × List ℕ)) := do
  let (slot, ids) ← tryDRules m (fun o ↦ base + o) t drules op absSlot templateIndex
    (drules.length + 1) 4294967295 0
  match ids with
  | some ids => .ok (if slot < 2147483648 then some (slot, ids) else none)
  | none => .ok none

/-- How `SM_sched_table` chooses options, where `none` is `SM_NO_TEMPLATE`. -/
def chooseOptions (drules : List SMDRule) (op : SMOper) (templateIndex : Option ℕ) (m : Cells)
    (base : ℤ) (t : SMTable) (minSlot maxSlot : ℕ) : Run (Option (ℕ × List ℕ)) :=
  match templateIndex with
  | some i => chooseOptionsWDRule drules op i m base t minSlot
  | none => chooseFirstAvailOptions m base t minSlot maxSlot

/-- `SM_sched_table`. -/
def schedTableTemplate (timeShift : ℕ) (drules : List SMDRule) (s : Cb) (op : SMOper)
    (templateIndex : Option ℕ) (t : SMTable) (time : ℤ) (minSlot maxSlot : ℕ) (commit : Bool) :
    Run (Cb × Option (ℕ × List ℕ)) := do
  let minUsageOffset ← int32 (time * 2 ^ timeShift)
  let maxUsageOffset ← int32 (minUsageOffset + t.maxUsageOffset)
  let s ← growMap s minUsageOffset maxUsageOffset
  let m ← deref s.mapArray
  let base ← int32 (minUsageOffset - s.mapStartOffset)
  let chosen ← chooseOptions drules op templateIndex m base t minSlot maxSlot
  settle (commitChoices m base t) s commit chosen

/-! ### What the choosing functions find -/

section Choose

variable {m : Cells} {addr : ℕ → ℤ} {t : SMTable}

/-- The option loop, whatever its `option_id` is after a wrap, picks one of its options. -/
theorem chooseOption_lt (minSlot maxSlot : ℕ) (isSlotChoice : Bool) {n optionId : ℕ} (slot : ℕ)
    {slots : List ℕ} {os : List SMOption} (hload : ∀ o ∈ os, Loads m addr o.usages)
    (hid : optionId + os.length ≤ n) (hslots : isSlotChoice = true → os.length ≤ slots.length) :
    ∃ r, chooseOption m addr minSlot maxSlot isSlotChoice optionId slot slots os = .ok r ∧
      ∀ i s, r = some (i, s) → i < n := by
  induction os generalizing optionId slot slots with
  | nil => exact ⟨none, rfl, by simp⟩
  | cons o os ih =>
    obtain ⟨avail, havail, -⟩ := usagesAvail_eq (hload o List.mem_cons_self)
    have hrest : ∀ o ∈ os, Loads m addr o.usages := fun o' ho' ↦
      hload o' (List.mem_cons_of_mem o ho')
    rw [List.length_cons] at hid
    have hid' : (optionId + 1) % 65536 + os.length ≤ n := by
      have := Nat.mod_le (optionId + 1) 65536
      omega
    rw [chooseOption, havail, Run.ok_bind]
    split_ifs with hslot
    · obtain ⟨s, ss, rfl⟩ := List.exists_cons_of_length_pos
        (lt_of_lt_of_le (Nat.succ_pos _) (hslots hslot))
      rw [List.head?_cons, deref_some, Run.ok_bind]
      split_ifs with hs
      · exact ih _ hrest hid' fun _ ↦ Nat.le_of_succ_le_succ (hslots hslot)
      · exact ⟨_, rfl, fun i s' h ↦ by cases h; omega⟩
    · refine ih _ hrest hid' fun _ ↦ ?_
      rw [List.length_tail]
      have := hslots hslot
      rw [List.length_cons] at this
      omega
    · exact ⟨_, rfl, fun i s h ↦ by cases h; omega⟩
    · exact ih _ hrest hid' fun h ↦ absurd h hslot

theorem chooseChoices_selects (minSlot maxSlot k slot : ℕ) {cs : List SMChoice}
    (hload : ∀ c ∈ cs, ∀ o ∈ c.options, Loads m addr o.usages)
    (hslots : ∀ j c, k + j = t.slotChoice → cs[j]? = some c →
      c.options.length ≤ t.slotOptions.length) :
    ∃ r, chooseChoices m addr t minSlot maxSlot k slot cs = .ok r ∧
      ∀ s ids, r = some (s, ids) → Selects cs ids := by
  induction cs generalizing k slot with
  | nil => exact ⟨_, rfl, fun s ids h ↦ by cases h; rfl⟩
  | cons c cs ih =>
    obtain ⟨r, hr, hlt⟩ := chooseOption_lt minSlot maxSlot (k == t.slotChoice) slot
      (hload c List.mem_cons_self) (Nat.zero_add _).le fun hk ↦ hslots 0 c (by simpa using hk) rfl
    rw [chooseChoices, hr, Run.ok_bind]
    rcases r with - | ⟨optionId, slot'⟩
    · exact ⟨none, rfl, by simp⟩
    · obtain ⟨r, hr, hselects⟩ := ih (k + 1) slot'
        (fun c' hc' ↦ hload c' (List.mem_cons_of_mem c hc'))
        fun j c' hj hc' ↦ hslots (j + 1) c' (by omega) (by simpa using hc')
      simp only [hr, Run.ok_bind]
      rcases r with - | ⟨s, ids⟩
      · exact ⟨none, rfl, by simp⟩
      · refine ⟨_, rfl, fun s' ids' h ↦ ?_⟩
        cases h
        exact ⟨optionId, ids, rfl, hlt _ _ rfl, hselects s ids rfl⟩

theorem dRuleUsagesAvail_eq (dResources : BitVec 32) {us : List Usage} (h : Loads m addr us) :
    ∃ b, dRuleUsagesAvail m addr dResources us = .ok b := by
  induction us with
  | nil => exact ⟨true, rfl⟩
  | cons u us ih =>
    obtain ⟨w, hw⟩ := h u List.mem_cons_self
    obtain ⟨b, hb⟩ := ih fun v hv ↦ h v (List.mem_cons_of_mem u hv)
    rw [dRuleUsagesAvail, Cells.load, hw, deref_some, Run.ok_bind]
    split_ifs
    · exact ⟨false, rfl⟩
    · exact ⟨false, rfl⟩
    · exact ⟨b, hb⟩

theorem chooseDRuleOption_lt (absSlot : ℕ) (dResources : BitVec 32) (isSlotChoice : Bool)
    {n optionId : ℕ} (slot : ℕ) {slots : List ℕ} {os : List SMOption}
    (hload : ∀ o ∈ os, Loads m addr o.usages) (hid : optionId + os.length ≤ n)
    (hslots : isSlotChoice = true → os.length ≤ slots.length) :
    ∃ r, chooseDRuleOption m addr absSlot dResources isSlotChoice optionId slot slots os = .ok r ∧
      ∀ i, r.2 = some i → i < n := by
  induction os generalizing optionId slot slots with
  | nil => exact ⟨_, rfl, by simp⟩
  | cons o os ih =>
    obtain ⟨avail, havail⟩ := dRuleUsagesAvail_eq dResources (hload o List.mem_cons_self)
    have hrest : ∀ o ∈ os, Loads m addr o.usages := fun o' ho' ↦
      hload o' (List.mem_cons_of_mem o ho')
    rw [List.length_cons] at hid
    have hid' : (optionId + 1) % 65536 + os.length ≤ n := by
      have := Nat.mod_le (optionId + 1) 65536
      omega
    rw [chooseDRuleOption, havail, Run.ok_bind]
    split_ifs with hslot
    · obtain ⟨s, ss, rfl⟩ := List.exists_cons_of_length_pos
        (lt_of_lt_of_le (Nat.succ_pos _) (hslots hslot))
      rw [List.head?_cons, deref_some, Run.ok_bind]
      split_ifs with hs
      · exact ih _ hrest hid' fun _ ↦ Nat.le_of_succ_le_succ (hslots hslot)
      · exact ⟨_, rfl, fun i h ↦ by cases h; omega⟩
    · refine ih _ hrest hid' fun _ ↦ ?_
      rw [List.length_tail]
      have := hslots hslot
      rw [List.length_cons] at this
      omega
    · exact ⟨_, rfl, fun i h ↦ by cases h; omega⟩
    · exact ih _ hrest hid' fun h ↦ absurd h hslot

theorem chooseDRuleChoices_selects (absSlot : ℕ) (dResources : BitVec 32) (k slot : ℕ)
    {cs : List SMChoice} (hload : ∀ c ∈ cs, ∀ o ∈ c.options, Loads m addr o.usages)
    (hslots : ∀ j c, k + j = t.slotChoice → cs[j]? = some c →
      c.options.length ≤ t.slotOptions.length) :
    ∃ r, chooseDRuleChoices m addr t absSlot dResources k slot cs = .ok r ∧
      ∀ ids, r.2 = some ids → Selects cs ids := by
  induction cs generalizing k slot with
  | nil => exact ⟨_, rfl, fun ids h ↦ by cases h; rfl⟩
  | cons c cs ih =>
    obtain ⟨⟨slot', r⟩, hr, hlt⟩ := chooseDRuleOption_lt absSlot dResources (k == t.slotChoice) slot
      (hload c List.mem_cons_self) (Nat.zero_add _).le fun hk ↦ hslots 0 c (by simpa using hk) rfl
    rw [chooseDRuleChoices, hr, Run.ok_bind]
    rcases r with - | optionId
    · exact ⟨_, rfl, by simp⟩
    · obtain ⟨⟨s, r⟩, hr, hselects⟩ := ih (k + 1) slot'
        (fun c' hc' ↦ hload c' (List.mem_cons_of_mem c hc'))
        fun j c' hj hc' ↦ hslots (j + 1) c' (by omega) (by simpa using hc')
      simp only [hr, Run.ok_bind]
      refine ⟨_, rfl, fun ids h ↦ ?_⟩
      obtain ⟨ids', rfl, rfl⟩ := Option.map_eq_some_iff.1 h
      exact ⟨optionId, ids', rfl, hlt _ rfl, hselects ids' rfl⟩

theorem slots_le (t : SMTable) (j : ℕ) (c : SMChoice) (hj : 0 + j = t.slotChoice)
    (hc : t.choices[j]? = some c) : c.options.length ≤ t.slotOptions.length := by
  obtain ⟨c', hc', hslots⟩ := t.exists_slotChoice
  obtain rfl : j = t.slotChoice := by omega
  obtain rfl : c = c' := Option.some.inj (hc.symm.trans hc')
  exact hslots.ge

theorem tryResources_selects (absSlot slot : ℕ) (rs : List (BitVec 32))
    (hload : ∀ c ∈ t.choices, ∀ o ∈ c.options, Loads m addr o.usages) :
    ∃ r, tryResources m addr t absSlot slot rs = .ok r ∧
      ∀ ids, r.2 = some ids → Selects t.choices ids := by
  induction rs generalizing slot with
  | nil => exact ⟨_, rfl, by simp⟩
  | cons r rs ih =>
    obtain ⟨⟨slot', ids⟩, hr, hselects⟩ :=
      chooseDRuleChoices_selects absSlot r 0 slot hload (slots_le t)
    simp only [tryResources, hr, Run.ok_bind]
    rcases ids with - | ids
    · exact ih slot'
    · exact ⟨_, rfl, hselects⟩

/-- A rule found is at `start` or past it, and only a search from the first rule on punts. -/
theorem findDRule_eq (drules : List SMDRule) (op : SMOper) (absSlot templateIndex start : ℕ) :
    (findDRule drules op absSlot templateIndex start = .error noDRule ∧
        ¬∃ r ∈ drules, r.Matches op absSlot templateIndex) ∨
      findDRule drules op absSlot templateIndex start = .ok none ∨
      ∃ i r, findDRule drules op absSlot templateIndex start = .ok (some (i, r)) ∧ start ≤ i ∧
        i < drules.length := by
  rw [findDRule]
  cases hfind : (drules.zipIdx.drop start).find? fun p ↦ p.1.Matches op absSlot templateIndex with
  | none =>
    rcases Nat.eq_zero_or_pos start with rfl | hstart
    · refine .inl ⟨if_pos rfl, ?_⟩
      rintro ⟨r, hr, hmatch⟩
      obtain ⟨i, hi⟩ := List.mem_iff_getElem?.1 hr
      have hmem : (r, i) ∈ drules.zipIdx.drop 0 := by
        rw [List.drop_zero, List.mem_zipIdx_iff_getElem?]
        exact hi
      have hno := List.find?_eq_none.1 hfind _ hmem
      simp [hmatch] at hno
    · exact .inr (.inl (if_neg hstart.ne'))
  | some p =>
    obtain ⟨r, i⟩ := p
    have hmem := List.mem_of_find?_eq_some hfind
    obtain ⟨j, hj⟩ := List.mem_iff_getElem?.1 hmem
    rw [List.getElem?_drop, List.getElem?_zipIdx] at hj
    obtain ⟨r', hr', hp⟩ := Option.map_eq_some_iff.1 hj
    obtain ⟨-, rfl⟩ := Prod.mk.inj hp
    exact .inr (.inr ⟨_, r, rfl, by omega, by
      have := (List.getElem?_eq_some_iff.1 hr').1
      omega⟩)

theorem tryDRules_selects {drules : List SMDRule} (op : SMOper) (absSlot templateIndex : ℕ)
    {fuel : ℕ} (slot : ℕ) {start : ℕ} (hfuel : drules.length < fuel + start) (hpos : 0 < fuel)
    (hload : ∀ c ∈ t.choices, ∀ o ∈ c.options, Loads m addr o.usages) :
    (tryDRules m addr t drules op absSlot templateIndex fuel slot start = .error noDRule ∧
        ¬∃ r ∈ drules, r.Matches op absSlot templateIndex) ∨
      ∃ r, tryDRules m addr t drules op absSlot templateIndex fuel slot start = .ok r ∧
        ∀ ids, r.2 = some ids → Selects t.choices ids := by
  induction fuel generalizing slot start with
  | zero => omega
  | succ fuel ih =>
    rw [tryDRules]
    rcases findDRule_eq drules op absSlot templateIndex start with
      ⟨hfind, hno⟩ | hfind | ⟨i, r, hfind, hle, hlt⟩
    · exact .inl ⟨by rw [hfind, Run.error_bind], hno⟩
    · rw [hfind, Run.ok_bind]
      exact .inr ⟨_, rfl, by simp⟩
    · obtain ⟨⟨slot', ids⟩, hr, hselects⟩ := tryResources_selects absSlot slot r.rsrc hload
      simp only [hfind, hr, Run.ok_bind]
      rcases ids with - | ids
      · exact ih slot' (by omega) (by omega)
      · exact .inr ⟨_, rfl, hselects⟩

/-- Choosing by dispersal rules selects an option of each choice, or none, or it punts where no
rule matches. -/
theorem chooseOptionsWDRule_selects (drules : List SMDRule) (op : SMOper) (templateIndex : ℕ)
    (base : ℤ) (absSlot : ℕ)
    (hload : ∀ c ∈ t.choices, ∀ o ∈ c.options, Loads m (fun o ↦ base + o) o.usages) :
    (chooseOptionsWDRule drules op templateIndex m base t absSlot = .error noDRule ∧
        ¬∃ r ∈ drules, r.Matches op absSlot templateIndex) ∨
      ∃ r, chooseOptionsWDRule drules op templateIndex m base t absSlot = .ok r ∧
        ∀ slot ids, r = some (slot, ids) → Selects t.choices ids := by
  rw [chooseOptionsWDRule]
  rcases tryDRules_selects op absSlot templateIndex 4294967295
    (show drules.length < drules.length + 1 + 0 from Nat.lt_succ_self _)
    (Nat.succ_pos _) hload with ⟨hrun, hno⟩ | ⟨⟨slot, ids⟩, hrun, hselects⟩
  · exact .inl ⟨by rw [hrun, Run.error_bind], hno⟩
  · right
    rw [hrun, Run.ok_bind]
    rcases ids with - | ids
    · exact ⟨none, rfl, by simp⟩
    · refine ⟨_, rfl, fun slot' ids' h ↦ ?_⟩
      split_ifs at h
      obtain ⟨-, rfl⟩ := Prod.mk.inj (Option.some.inj h)
      exact hselects ids rfl

theorem chooseOptions_selects (drules : List SMDRule) (op : SMOper) (templateIndex : Option ℕ)
    (base : ℤ) (minSlot maxSlot : ℕ)
    (hload : ∀ c ∈ t.choices, ∀ o ∈ c.options, Loads m (fun o ↦ base + o) o.usages) :
    chooseOptions drules op templateIndex m base t minSlot maxSlot = .error noDRule ∨
      ∃ r, chooseOptions drules op templateIndex m base t minSlot maxSlot = .ok r ∧
        ∀ slot ids, r = some (slot, ids) → Selects t.choices ids := by
  cases templateIndex with
  | some i =>
    exact (chooseOptionsWDRule_selects drules op i base minSlot hload).imp_left And.left
  | none => exact .inr (chooseChoices_selects minSlot maxSlot 0 0 hload (slots_le t))

end Choose

end OpenImpact.Rmap
