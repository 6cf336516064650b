import OpenImpact.Lcode.Rmap
import Mathlib.Data.Set.Lattice
import Mathlib.Order.CompletePartialOrder
import Mathlib.Order.ConditionallyCompleteLattice.Basic

/-!
# What the walks over a resource map do

On words that are all initialised the choice loops find exactly the selections that fit
(`chooseChoices_eq`), committing adds the chosen usages to what the map holds
(`walkUsages_commitWord`), and releasing takes them off again (`walkUsages_releaseWord`).
-/

namespace OpenImpact.Rmap

/-! ### Words and sets of resources -/

/-- Two words meet in a bit. -/
theorem and_ne_zero_iff {c r : BitVec 32} :
    c &&& r ≠ 0 ↔ ∃ b, c.getLsbD b = true ∧ r.getLsbD b = true := by
  constructor
  · intro h
    by_contra hno
    refine h (BitVec.eq_of_getLsbD_eq fun b _ ↦ ?_)
    rw [BitVec.getLsbD_and, BitVec.ofNat_eq_ofNat, BitVec.getLsbD_zero, Bool.and_eq_false_iff]
    by_contra hb
    simp only [not_or, Bool.not_eq_false] at hb
    exact hno ⟨b, hb⟩
  · rintro ⟨b, hc, hr⟩ h
    have hb := congrArg (BitVec.getLsbD · b) h
    simp [hc, hr] at hb

/-- A word contains another one. -/
theorem and_eq_right_iff {c r : BitVec 32} :
    c &&& r = r ↔ ∀ b, r.getLsbD b = true → c.getLsbD b = true := by
  constructor
  · intro h b hr
    have hb := congrArg (BitVec.getLsbD · b) h
    simpa [hr] using hb
  · intro h
    refine BitVec.eq_of_getLsbD_eq fun b _ ↦ ?_
    rw [BitVec.getLsbD_and]
    cases hr : r.getLsbD b with
    | false => simp
    | true => simp [h b hr]

namespace Cells

/-- A word that can be read is one of the map. -/
theorem word_some_lt {m : Cells} {i : ℤ} {w : BitVec 32} (h : m.word i = some w) :
    0 ≤ i ∧ i < m.length := by
  by_contra hi
  rw [word_eq_none hi] at h
  exact absurd h (by simp)

/-- The test for a free usage. -/
theorem disjoint_bits {m : Cells} {addr : ℕ → ℤ} {u : Usage} {w : BitVec 32}
    (hw : m.word (addr u.mapOffset) = some w) :
    Disjoint (u.bits addr) m.bits ↔ w &&& u.resourcesUsed = 0 := by
  rw [← not_iff_not, Set.not_disjoint_iff, ← ne_eq, and_ne_zero_iff]
  constructor
  · rintro ⟨⟨i, b⟩, ⟨rfl, hb⟩, w', hw', hb'⟩
    obtain rfl : w = w' := Option.some.inj (hw.symm.trans hw')
    exact ⟨b, hb', hb⟩
  · rintro ⟨b, hb', hb⟩
    exact ⟨(_, b), ⟨rfl, hb⟩, w, hw, hb'⟩

/-- The test for a committed one. -/
theorem le_bits {m : Cells} {addr : ℕ → ℤ} {u : Usage} {w : BitVec 32}
    (hw : m.word (addr u.mapOffset) = some w) :
    u.bits addr ≤ m.bits ↔ w &&& u.resourcesUsed = u.resourcesUsed := by
  rw [and_eq_right_iff]
  constructor
  · intro h b hb
    obtain ⟨w', hw', hb'⟩ := h (show (addr u.mapOffset, b) ∈ u.bits addr from ⟨rfl, hb⟩)
    obtain rfl : w = w' := Option.some.inj (hw.symm.trans hw')
    exact hb'
  · rintro h ⟨i, b⟩ ⟨rfl, hb⟩
    exact ⟨w, hw, h b hb⟩

variable {m m' : Cells} {addr : ℕ → ℤ} {u : Usage} {w w' : BitVec 32}

/-- The bits after a word has been stored. -/
theorem mem_bits_store
    (hm' : ∀ j, m'.word j = if j = addr u.mapOffset then some w' else m.word j) (p : ℤ × ℕ) :
    p ∈ m'.bits ↔ if p.1 = addr u.mapOffset then w'.getLsbD p.2 = true else p ∈ m.bits := by
  simp only [bits, Set.mem_ofPred_eq, hm']
  split_ifs <;> simp

/-- Committing adds the bits of the usage. -/
theorem bits_commit (hw : m.word (addr u.mapOffset) = some w)
    (hm' : ∀ j, m'.word j =
      if j = addr u.mapOffset then some (w ||| u.resourcesUsed) else m.word j) :
    m'.bits = m.bits ⊔ u.bits addr := by
  ext p
  rw [mem_bits_store hm']
  change _ ↔ p ∈ m.bits ∨ p ∈ u.bits addr
  split_ifs with hp
  · simp [bits, Usage.bits, hp, hw]
  · simp [Usage.bits, hp]

/-- Releasing takes them away. -/
theorem bits_release (hw : m.word (addr u.mapOffset) = some w)
    (hle : w &&& u.resourcesUsed = u.resourcesUsed)
    (hm' : ∀ j, m'.word j =
      if j = addr u.mapOffset then some (w ^^^ u.resourcesUsed) else m.word j) :
    m'.bits = m.bits \ u.bits addr := by
  rw [and_eq_right_iff] at hle
  ext p
  rw [mem_bits_store hm', Set.mem_sdiff]
  split_ifs with hp
  · have h := hle p.2
    simp only [bits, Usage.bits, Set.mem_ofPred_eq, hp, hw, true_and, Option.some.injEq,
      exists_eq_left', BitVec.getLsbD_xor]
    revert h
    cases w.getLsbD p.2 <;> cases u.resourcesUsed.getLsbD p.2 <;> simp
  · simp [Usage.bits, hp]

end Cells

/-! ### Choosing -/

/-- All words the usages are about are initialised. -/
def Loads (m : Cells) (addr : ℕ → ℤ) (us : List Usage) : Prop :=
  ∀ u ∈ us, ∃ w, m.word (addr u.mapOffset) = some w

/-- All resources of the usages are free. -/
def Free (held : Set (ℤ × ℕ)) (addr : ℕ → ℤ) (us : List Usage) : Prop :=
  ∀ u ∈ us, Disjoint (u.bits addr) held

section Choose

variable {m : Cells} {addr : ℕ → ℤ} {t : SMTable} {minSlot maxSlot : ℕ}

/-- The test of an option finds whether its usages are free. -/
theorem usagesAvail_eq {us : List Usage} (h : Loads m addr us) :
    ∃ b, usagesAvail m addr us = .ok b ∧ (b = true ↔ Free m.bits addr us) := by
  induction us with
  | nil => exact ⟨true, rfl, by simp [Free]⟩
  | cons u us ih =>
    obtain ⟨w, hw⟩ := h u List.mem_cons_self
    obtain ⟨b, hb, hfree⟩ := ih fun v hv ↦ h v (List.mem_cons_of_mem u hv)
    rw [usagesAvail, Cells.load, hw, deref_some, Run.ok_bind]
    split_ifs with hand
    · refine ⟨false, rfl, ?_⟩
      have hno : ¬Disjoint (u.bits addr) m.bits := fun hd ↦ hand ((Cells.disjoint_bits hw).1 hd)
      simp [Free, hno]
    · refine ⟨b, hb, ?_⟩
      have hd : Disjoint (u.bits addr) m.bits := (Cells.disjoint_bits hw).2 (not_not.1 hand)
      simpa [Free, hd] using hfree

/-- Whether the slot of the slot choice's option `i` is within bounds. -/
def SlotFits (slots : List ℕ) (minSlot maxSlot i : ℕ) : Prop :=
  ∃ s, slots[i]? = some s ∧ minSlot ≤ s ∧ s ≤ maxSlot

theorem slotFits_tail {slots : List ℕ} {i : ℕ} :
    SlotFits slots.tail minSlot maxSlot i ↔ SlotFits slots minSlot maxSlot (i + 1) := by
  simp [SlotFits]

/-- What the option loop finds among the options from number `optionId` on. -/
structure OptionChosen (held : Set (ℤ × ℕ)) (addr : ℕ → ℤ) (isSlotChoice : Bool)
    (minSlot maxSlot optionId : ℕ) (slots : List ℕ) (os : List SMOption)
    (r : Option (ℕ × ℕ)) : Prop where
  some : ∀ i s, r = some (i, s) → ∃ j o, os[j]? = some o ∧ i = optionId + j ∧
    Free held addr o.usages ∧ (isSlotChoice = true → SlotFits slots minSlot maxSlot j)
  none : r = none → ∀ j o, os[j]? = .some o → Free held addr o.usages →
    isSlotChoice = true ∧ ¬SlotFits slots minSlot maxSlot j

/-- An option that is not taken leaves the choice to those behind it. -/
theorem OptionChosen.cons {held : Set (ℤ × ℕ)} {isSlotChoice : Bool} {optionId : ℕ}
    {slots : List ℕ} {slots' : List ℕ} {o : SMOption} {os : List SMOption} {r : Option (ℕ × ℕ)}
    (h : OptionChosen held addr isSlotChoice minSlot maxSlot ((optionId + 1) % 65536) slots' os r)
    (hid : optionId + (o :: os).length ≤ 65536)
    (hslots : isSlotChoice = true → slots' = slots.tail)
    (ho : Free held addr o.usages → isSlotChoice = true ∧ ¬SlotFits slots minSlot maxSlot 0) :
    OptionChosen held addr isSlotChoice minSlot maxSlot optionId slots (o :: os) r := by
  constructor
  · intro i s hr
    obtain ⟨j, o', hj, hi, hfree, hfits⟩ := h.some i s hr
    have hlt : j < os.length := (List.getElem?_eq_some_iff.1 hj).1
    rw [List.length_cons] at hid
    refine ⟨j + 1, o', hj, by omega, hfree, fun hs ↦ ?_⟩
    rw [← slotFits_tail, ← hslots hs]
    exact hfits hs
  · intro hr j o' hj hfree
    cases j with
    | zero =>
      obtain rfl : o = o' := by simpa using hj
      exact ho hfree
    | succ j =>
      obtain ⟨hs, hno⟩ := h.none hr j o' hj hfree
      rw [hslots hs, slotFits_tail] at hno
      exact ⟨hs, hno⟩

/-- The first option is taken if it is free and its slot fits. -/
theorem OptionChosen.head {held : Set (ℤ × ℕ)} {isSlotChoice : Bool} {optionId s : ℕ}
    {slots : List ℕ} {o : SMOption} {os : List SMOption} (ho : Free held addr o.usages)
    (hs : isSlotChoice = true → SlotFits slots minSlot maxSlot 0) :
    OptionChosen held addr isSlotChoice minSlot maxSlot optionId slots (o :: os)
      (.some (optionId, s)) := by
  constructor
  · rintro i s' ⟨⟩
    exact ⟨0, o, rfl, rfl, ho, hs⟩
  · rintro ⟨⟩

/-- The choice of an option is the first that is free and whose slot fits. -/
theorem chooseOption_eq (minSlot maxSlot : ℕ) (isSlotChoice : Bool) (optionId slot : ℕ)
    (slots : List ℕ) {os : List SMOption} (hload : ∀ o ∈ os, Loads m addr o.usages)
    (hid : optionId + os.length ≤ 65536)
    (hslots : isSlotChoice = true → os.length ≤ slots.length) :
    ∃ r, chooseOption m addr minSlot maxSlot isSlotChoice optionId slot slots os = .ok r ∧
      OptionChosen m.bits addr isSlotChoice minSlot maxSlot optionId slots os r := by
  induction os generalizing optionId slot slots with
  | nil => exact ⟨none, rfl, ⟨by simp, by simp⟩⟩
  | cons o os ih =>
    obtain ⟨avail, havail, hfree⟩ := usagesAvail_eq (hload o List.mem_cons_self)
    have hrest : ∀ o ∈ os, Loads m addr o.usages := fun o' ho' ↦
      hload o' (List.mem_cons_of_mem o ho')
    have hid' : (optionId + 1) % 65536 + os.length ≤ 65536 := by
      rw [List.length_cons] at hid
      omega
    rw [chooseOption, havail, Run.ok_bind]
    cases isSlotChoice with
    | true =>
      have hlen : os.length + 1 ≤ slots.length := hslots rfl
      obtain ⟨s, ss, rfl⟩ : ∃ s ss, slots = s :: ss := List.exists_cons_of_length_pos (by omega)
      have hlen' : os.length ≤ ss.length := by simpa using hlen
      cases avail with
      | true =>
        simp only [if_true, List.head?_cons, deref_some, Run.ok_bind, List.tail_cons]
        split_ifs with hs
        · obtain ⟨r, hr, hchosen⟩ := ih _ s ss hrest hid' fun _ ↦ hlen'
          refine ⟨r, hr, hchosen.cons hid (fun _ ↦ rfl) fun _ ↦ ⟨rfl, ?_⟩⟩
          rintro ⟨s', hs', hbounds⟩
          obtain rfl : s = s' := by simpa using hs'
          omega
        · exact ⟨_, rfl, .head (hfree.1 rfl) fun _ ↦ ⟨s, rfl, by omega, by omega⟩⟩
      | false =>
        simp only [if_true, Bool.false_eq_true, if_false, List.tail_cons]
        obtain ⟨r, hr, hchosen⟩ := ih _ slot ss hrest hid' fun _ ↦ hlen'
        exact ⟨r, hr, hchosen.cons hid (fun _ ↦ rfl) fun ho ↦ absurd (hfree.2 ho) (by simp)⟩
    | false =>
      cases avail with
      | true =>
        simp only [Bool.false_eq_true, if_false, if_true]
        exact ⟨_, rfl, .head (hfree.1 rfl) (by simp)⟩
      | false =>
        simp only [Bool.false_eq_true, if_false]
        obtain ⟨r, hr, hchosen⟩ := ih _ slot slots hrest hid' (by simp)
        exact ⟨r, hr, hchosen.cons hid (by simp) fun ho ↦ absurd (hfree.2 ho) (by simp)⟩

/-- The bound checks of the choice loop, for the choices from number `k` on. -/
def SlotFitsFrom (t : SMTable) (minSlot maxSlot k : ℕ) (ids : List ℕ) : Prop :=
  ∀ j i, k + j = t.slotChoice → ids[j]? = some i → SlotFits t.slotOptions minSlot maxSlot i

/-- The slots of the first choice and of the others. -/
theorem slotFitsFrom_cons {k i : ℕ} {is : List ℕ} :
    SlotFitsFrom t minSlot maxSlot k (i :: is) ↔
      (k = t.slotChoice → SlotFits t.slotOptions minSlot maxSlot i) ∧
        SlotFitsFrom t minSlot maxSlot (k + 1) is := by
  constructor
  · intro h
    refine ⟨fun hk ↦ h 0 i hk rfl, fun j i' hj hi' ↦ h (j + 1) i' (by omega) ?_⟩
    simpa using hi'
  · rintro ⟨hhead, htail⟩ j i' hj hi'
    cases j with
    | zero =>
      obtain rfl : i = i' := by simpa using hi'
      exact hhead hj
    | succ j => exact htail j i' (by omega) (by simpa using hi')

/-- Usages of two lists are free together. -/
theorem free_append {held : Set (ℤ × ℕ)} {us vs : List Usage} :
    Free held addr (us ++ vs) ↔ Free held addr us ∧ Free held addr vs := by
  simp [Free, or_imp, forall_and]

/-- What the choice loop finds for the choices from number `k` on. -/
structure ChoicesChosen (held : Set (ℤ × ℕ)) (addr : ℕ → ℤ) (t : SMTable)
    (minSlot maxSlot k : ℕ) (cs : List SMChoice) (r : Option (ℕ × List ℕ)) : Prop where
  some : ∀ s ids, r = some (s, ids) → Selects cs ids ∧ Free held addr (picked cs ids) ∧
    SlotFitsFrom t minSlot maxSlot k ids
  none : r = none → ∀ ids, Selects cs ids → Free held addr (picked cs ids) →
    ¬SlotFitsFrom t minSlot maxSlot k ids

/-- The usages that are picked for the first choice and for the others. -/
theorem picked_cons {c : SMChoice} {cs : List SMChoice} {o : SMOption} {i : ℕ} {is : List ℕ}
    (h : c.options[i]? = some o) : picked (c :: cs) (i :: is) = o.usages ++ picked cs is := by
  rw [picked, h, Option.elim_some]

/-- The choices of all options, if there are any that fit. -/
theorem chooseChoices_eq (minSlot maxSlot k slot : ℕ) {cs : List SMChoice}
    (hload : ∀ c ∈ cs, ∀ o ∈ c.options, Loads m addr o.usages)
    (hlen : ∀ c ∈ cs, c.options.length ≤ 65536)
    (hslots : ∀ j c, k + j = t.slotChoice → cs[j]? = some c →
      c.options.length ≤ t.slotOptions.length) :
    ∃ r, chooseChoices m addr t minSlot maxSlot k slot cs = .ok r ∧
      ChoicesChosen m.bits addr t minSlot maxSlot k cs r := by
  induction cs generalizing k slot with
  | nil =>
    refine ⟨_, rfl, ?_, by simp⟩
    rintro s ids ⟨⟩
    exact ⟨rfl, by simp [picked, Free], by simp [SlotFitsFrom]⟩
  | cons c cs ih =>
    obtain ⟨r, hr, hchosen⟩ := chooseOption_eq minSlot maxSlot (k == t.slotChoice) 0 slot
      t.slotOptions (hload c List.mem_cons_self) (by simpa using hlen c List.mem_cons_self)
      fun hk ↦ hslots 0 c (by simpa using hk) rfl
    rw [chooseChoices, hr, Run.ok_bind]
    cases r with
    | none =>
      refine ⟨none, rfl, by simp, fun _ ids hids hfree hslot ↦ ?_⟩
      obtain ⟨i, is, rfl, hi, -⟩ := hids
      rw [picked_cons (List.getElem?_eq_getElem hi), free_append] at hfree
      obtain ⟨hk, hno⟩ := hchosen.none rfl i _ (List.getElem?_eq_getElem hi) hfree.1
      exact hno ((slotFitsFrom_cons.1 hslot).1 (by simpa using hk))
    | some p =>
      obtain ⟨optionId, slot'⟩ := p
      obtain ⟨j, o, hj, hi, hfree, hfits⟩ := hchosen.some optionId slot' rfl
      obtain rfl : optionId = j := by omega
      obtain ⟨r, hr, hrest⟩ := ih (k + 1) slot'
        (fun c' hc' ↦ hload c' (List.mem_cons_of_mem c hc'))
        (fun c' hc' ↦ hlen c' (List.mem_cons_of_mem c hc'))
        fun j c' hj hc' ↦ hslots (j + 1) c' (by omega) (by simpa using hc')
      simp only [hr, Run.ok_bind]
      cases r with
      | none =>
        refine ⟨none, rfl, by simp, fun _ ids hids hfree' hslot ↦ ?_⟩
        obtain ⟨i, is, rfl, hi, his⟩ := hids
        rw [picked_cons (List.getElem?_eq_getElem hi), free_append] at hfree'
        exact hrest.none rfl is his hfree'.2 (slotFitsFrom_cons.1 hslot).2
      | some q =>
        obtain ⟨s, ids⟩ := q
        refine ⟨_, rfl, ?_, by simp⟩
        rintro s' ids' ⟨⟩
        obtain ⟨hids, hfree', hslot⟩ := hrest.some s ids rfl
        refine ⟨⟨optionId, ids, rfl, (List.getElem?_eq_some_iff.1 hj).1, hids⟩, ?_, ?_⟩
        · rw [picked_cons hj, free_append]
          exact ⟨hfree, hfree'⟩
        · exact slotFitsFrom_cons.2 ⟨fun hk ↦ hfits (by simpa using hk), hslot⟩

/-- A slot choice gives a slot within the range, and another choice leaves the slot as it is. -/
theorem chooseOption_slot {minSlot maxSlot optionId slot id s : ℕ} {isSlotChoice : Bool}
    {slots : List ℕ} {os : List SMOption}
    (h : chooseOption m addr minSlot maxSlot isSlotChoice optionId slot slots os =
      .ok (some (id, s))) : if isSlotChoice then minSlot ≤ s ∧ s ≤ maxSlot else s = slot := by
  induction os generalizing optionId slot slots with
  | nil => simp [chooseOption] at h
  | cons o os ih =>
    rw [chooseOption] at h
    obtain ⟨avail, -, h⟩ := Run.bind_eq_ok.1 h
    cases isSlotChoice with
    | true =>
      rw [if_pos rfl] at h ⊢
      split_ifs at h with havail
      · obtain ⟨slot', -, h⟩ := Run.bind_eq_ok.1 h
        split_ifs at h with hs
        · simpa using ih h
        · obtain ⟨-, rfl⟩ := Prod.mk.inj (Option.some.inj (Except.ok.inj h))
          omega
      · simpa using ih h
    | false =>
      rw [if_neg Bool.false_ne_true] at h ⊢
      split_ifs at h with havail
      · exact (Prod.mk.inj (Option.some.inj (Except.ok.inj h))).2.symm
      · simpa using ih h

/-- The slot found is within the range when the slot choice is among the choices. -/
theorem chooseChoices_slot {minSlot maxSlot k slot s : ℕ} {ids : List ℕ} {cs : List SMChoice}
    (h : chooseChoices m addr t minSlot maxSlot k slot cs = .ok (some (s, ids))) :
    (k ≤ t.slotChoice → t.slotChoice < k + cs.length → minSlot ≤ s ∧ s ≤ maxSlot) ∧
      (t.slotChoice < k → s = slot) := by
  induction cs generalizing k slot s ids with
  | nil =>
    rw [chooseChoices] at h
    obtain ⟨rfl, -⟩ := Prod.mk.inj (Option.some.inj (Except.ok.inj h))
    exact ⟨fun hle hlt ↦ by simp at hlt; omega, fun _ ↦ rfl⟩
  | cons c cs ih =>
    rw [chooseChoices] at h
    obtain ⟨chosen, hoption, h⟩ := Run.bind_eq_ok.1 h
    rcases chosen with - | ⟨optionId, slot'⟩
    · cases h
    obtain ⟨rest, hrest, h⟩ := Run.bind_eq_ok.1 h
    rcases rest with - | ⟨s', ids'⟩
    · cases h
    obtain ⟨rfl, -⟩ := Prod.mk.inj (Option.some.inj (Except.ok.inj h))
    obtain ⟨hin, hpast⟩ := ih hrest
    have hslot := chooseOption_slot hoption
    rw [List.length_cons]
    refine ⟨fun hle hlt ↦ ?_, fun hlt ↦ ?_⟩
    · rcases hle.eq_or_lt with rfl | hlt'
      · rw [beq_self_eq_true, if_pos rfl] at hslot
        exact hpast (Nat.lt_succ_self _) ▸ hslot
      · exact hin hlt' (by omega)
    · rw [beq_eq_false_iff_ne.2 hlt.ne', if_neg Bool.false_ne_true] at hslot
      exact (hpast (by omega)).trans hslot

/-- The slot found is the one of the option that the slot choice takes. -/
theorem chooseOption_get {minSlot maxSlot optionId slot id s : ℕ} {slots : List ℕ}
    {os : List SMOption} (hid : optionId + os.length ≤ 65536)
    (h : chooseOption m addr minSlot maxSlot true optionId slot slots os = .ok (some (id, s))) :
    ∃ j, id = optionId + j ∧ slots[j]? = some s := by
  induction os generalizing optionId slot slots with
  | nil => simp [chooseOption] at h
  | cons o os ih =>
    rw [List.length_cons] at hid
    have hnext : ∀ {slot' : ℕ}, chooseOption m addr minSlot maxSlot true ((optionId + 1) % 65536)
        slot' slots.tail os = .ok (some (id, s)) → ∃ j, id = optionId + j ∧ slots[j]? = some s := by
      intro slot' h
      cases os with
      | nil => simp [chooseOption] at h
      | cons o' os =>
        rw [List.length_cons] at hid
        rw [Nat.mod_eq_of_lt (by omega)] at h
        obtain ⟨j, hj, hs⟩ := ih (by rw [List.length_cons]; omega) h
        exact ⟨j + 1, by omega, by simpa using hs⟩
    rw [chooseOption] at h
    obtain ⟨avail, -, h⟩ := Run.bind_eq_ok.1 h
    rw [if_pos rfl] at h
    split_ifs at h with havail
    · obtain ⟨slot', hslot', h⟩ := Run.bind_eq_ok.1 h
      split_ifs at h with hs
      · exact hnext h
      · obtain ⟨rfl, rfl⟩ := Prod.mk.inj (Option.some.inj (Except.ok.inj h))
        exact ⟨0, rfl, by rw [← List.head?_eq_getElem?]; exact deref_eq_ok.1 hslot'⟩
    · exact hnext h

/-- So is the slot that the choice loop returns. -/
theorem chooseChoices_get {minSlot maxSlot k slot s : ℕ} {ids : List ℕ} {cs : List SMChoice}
    (hlen : ∀ c ∈ cs, c.options.length ≤ 65536)
    (h : chooseChoices m addr t minSlot maxSlot k slot cs = .ok (some (s, ids)))
    (hle : k ≤ t.slotChoice) (hlt : t.slotChoice < k + cs.length) :
    ∃ i, ids[t.slotChoice - k]? = some i ∧ t.slotOptions[i]? = some s := by
  induction cs generalizing k slot s ids with
  | nil => simp at hlt; omega
  | cons c cs ih =>
    rw [List.length_cons] at hlt
    rw [chooseChoices] at h
    obtain ⟨chosen, hoption, h⟩ := Run.bind_eq_ok.1 h
    rcases chosen with - | ⟨optionId, slot'⟩
    · cases h
    obtain ⟨rest, hrest, h⟩ := Run.bind_eq_ok.1 h
    rcases rest with - | ⟨s', ids'⟩
    · cases h
    obtain ⟨rfl, rfl⟩ := Prod.mk.inj (Option.some.inj (Except.ok.inj h))
    rcases hle.eq_or_lt with rfl | hlt'
    · -- the later choices leave the slot as it is
      rw [beq_self_eq_true] at hoption
      obtain ⟨j, rfl, hj⟩ := chooseOption_get
        (by simpa using hlen c List.mem_cons_self) hoption
      rw [(chooseChoices_slot hrest).2 (Nat.lt_succ_self _)]
      exact ⟨j, by simp, hj⟩
    · obtain ⟨i, hi, hs⟩ := ih (fun d hd ↦ hlen d (List.mem_cons_of_mem c hd)) hrest hlt' (by omega)
      refine ⟨i, ?_, hs⟩
      rw [show t.slotChoice - k = t.slotChoice - (k + 1) + 1 by omega, List.getElem?_cons_succ]
      exact hi

end Choose

/-! ### Committing and releasing -/

section Walk

variable {f : BitVec 32 → BitVec 32 → Run (BitVec 32)} {addr : ℕ → ℤ} {m : Cells}

/-- A walk along two lists, one after the other. -/
theorem walkUsages_append (us vs : List Usage) (m : Cells) :
    walkUsages f addr (us ++ vs) m = walkUsages f addr us m >>= walkUsages f addr vs := by
  induction us generalizing m with
  | nil => rfl
  | cons u us ih => simp only [List.cons_append, walkUsages, ih, bind_assoc]

/-- The walk over the choices is the walk over the usages of the chosen options. -/
theorem walkChoices_eq {cs : List SMChoice} {ids : List ℕ} (h : Selects cs ids) (m : Cells) :
    walkChoices f addr cs ids m = walkUsages f addr (picked cs ids) m := by
  induction cs generalizing ids m with
  | nil =>
    obtain rfl : ids = [] := h
    rfl
  | cons c cs ih =>
    obtain ⟨i, is, rfl, hi, his⟩ := h
    rw [picked_cons (List.getElem?_eq_getElem hi), walkUsages_append, walkChoices, List.head?_cons,
      deref_some, Run.ok_bind, List.getElem?_eq_getElem hi, deref_some, Run.ok_bind, List.tail_cons]
    exact Run.bind_congr fun m' _ ↦ ih his m'

/-- The array after a walk: the same words are initialised. -/
structure SameShape (m m' : Cells) : Prop where
  length_eq : m'.length = m.length
  isSome_eq : ∀ i, (m'.word i).isSome = (m.word i).isSome

namespace SameShape

theorem trans {m₁ m₂ m₃ : Cells} (h : SameShape m₁ m₂) (h' : SameShape m₂ m₃) : SameShape m₁ m₃ :=
  ⟨h'.length_eq.trans h.length_eq, fun i ↦ (h'.isSome_eq i).trans (h.isSome_eq i)⟩

/-- A map of the same shape has the same words to read. -/
theorem loads {m m' : Cells} (h : SameShape m m') {us : List Usage} (hload : Loads m addr us) :
    Loads m' addr us := by
  intro u hu
  rw [← Option.isSome_iff_exists, h.isSome_eq, Option.isSome_iff_exists]
  exact hload u hu

end SameShape

/-- One usage of a walk. -/
theorem store_word {i : ℤ} {w : BitVec 32} (hw : m.word i = some w) (w' : BitVec 32) :
    ∃ m', m.store i w' = .ok m' ∧ SameShape m m' ∧
      ∀ j, m'.word j = if j = i then some w' else m.word j := by
  obtain ⟨m', hm', hlen, hword⟩ := Cells.store_eq w' (Cells.word_some_lt hw)
  refine ⟨m', hm', ⟨hlen, fun j ↦ ?_⟩, hword⟩
  rw [hword]
  split_ifs with hj
  · rw [hj, hw, Option.isSome_some, Option.isSome_some]
  · rfl

/-- **Committing the usages** of a table that is free and does not meet itself reserves them. -/
theorem walkUsages_commitWord {us : List Usage} {rest : List (Set (ℤ × ℕ))}
    (hload : Loads m addr us) (hfree : Free m.bits addr us)
    (hpair : (us.map (Usage.bits addr)).Pairwise Disjoint) (hres : Reserved m.bits rest) :
    ∃ m', walkUsages commitWord addr us m = .ok m' ∧ SameShape m m' ∧
      Reserved m'.bits (us.map (Usage.bits addr) ++ rest) := by
  induction us generalizing m rest with
  | nil => exact ⟨m, rfl, ⟨rfl, fun _ ↦ rfl⟩, hres⟩
  | cons u us ih =>
    obtain ⟨w, hw⟩ := hload u List.mem_cons_self
    obtain ⟨m₁, hm₁, hshape, hword⟩ := store_word hw (w ||| u.resourcesUsed)
    have hbits : m₁.bits = m.bits ⊔ u.bits addr := Cells.bits_commit hw hword
    have hres₁ : Reserved m₁.bits (u.bits addr :: rest) := by
      rw [hbits]
      exact hres.cons (hfree u List.mem_cons_self)
    rw [List.map_cons, List.pairwise_cons] at hpair
    have hfree₁ : Free m₁.bits addr us := by
      intro v hv
      rw [hbits, disjoint_sup_right]
      exact ⟨hfree v (List.mem_cons_of_mem u hv), (hpair.1 _ (List.mem_map_of_mem hv)).symm⟩
    have hload₁ : Loads m₁ addr us :=
      hshape.loads fun v hv ↦ hload v (List.mem_cons_of_mem u hv)
    obtain ⟨m', hm', hshape', hres'⟩ := ih hload₁ hfree₁ hpair.2 hres₁
    refine ⟨m', ?_, hshape.trans hshape', hres'.perm List.perm_middle⟩
    rw [walkUsages, Cells.load, hw, deref_some, Run.ok_bind, commitWord, Run.ok_bind, hm₁,
      Run.ok_bind, hm']

/-- Releasing what the map holds never finds a resource free. -/
theorem walkUsages_releaseWord {us : List Usage} {rest : List (Set (ℤ × ℕ))}
    (hload : Loads m addr us) (hres : Reserved m.bits (us.map (Usage.bits addr) ++ rest)) :
    ∃ m', walkUsages releaseWord addr us m = .ok m' ∧ SameShape m m' ∧ Reserved m'.bits rest := by
  induction us generalizing m with
  | nil => exact ⟨m, rfl, ⟨rfl, fun _ ↦ rfl⟩, hres⟩
  | cons u us ih =>
    obtain ⟨w, hw⟩ := hload u List.mem_cons_self
    obtain ⟨m₁, hm₁, hshape, hword⟩ := store_word hw (w ^^^ u.resourcesUsed)
    rw [List.map_cons, List.cons_append] at hres
    have hle : w &&& u.resourcesUsed = u.resourcesUsed :=
      (Cells.le_bits hw).1 (hres.le List.mem_cons_self)
    have hres₁ : Reserved m₁.bits (us.map (Usage.bits addr) ++ rest) := by
      rw [Cells.bits_release hw hle hword]
      exact hres.tail
    have hload₁ : Loads m₁ addr us :=
      hshape.loads fun v hv ↦ hload v (List.mem_cons_of_mem u hv)
    obtain ⟨m', hm', hshape', hres'⟩ := ih hload₁ hres₁
    refine ⟨m', ?_, hshape.trans hshape', hres'⟩
    rw [walkUsages, Cells.load, hw, deref_some, Run.ok_bind, releaseWord,
      if_neg (not_not.2 hle), Run.ok_bind, hm₁, Run.ok_bind, hm']

end Walk

end OpenImpact.Rmap
