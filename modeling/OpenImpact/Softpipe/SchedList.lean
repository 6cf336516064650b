import OpenImpact.Softpipe.StageMoves
import Mathlib.Data.List.DropRight

/-!
# The list of scheduled operations

`SM_schedule_oper` puts an operation in the list of those that are scheduled, and `SM_unschedule_oper`
takes it out. Over any schedule manager the list holds exactly the scheduled operations, once each, in the
order of their cycles and slots (`lawful_listedManager`).
-/

namespace OpenImpact.Softpipe

/-- The comparison of `after_this_op` with the operation to be placed. -/
def goesBefore (f : ℕ → Sm.Oper) (a b : ℕ) : Bool :=
  decide ((f a).schedCycle < (f b).schedCycle ∨
    (f a).schedCycle = (f b).schedCycle ∧ (f a).schedSlot ≤ (f b).schedSlot)

/-- An operation is placed after the last one that goes before it. -/
def insertSched (f : ℕ → Sm.Oper) (o : ℕ) (os : List ℕ) : List ℕ :=
  os.rdropWhile (fun a ↦ !goesBefore f a o) ++ o :: os.rtakeWhile fun a ↦ !goesBefore f a o

/-- A schedule manager with the list. -/
def listedManager (m : Manager) : Manager where
  State := m.State × List ℕ
  oper s := m.oper s.1
  ignore s := m.ignore s.1
  scheduleOper s o cycle earliestSlot latestSlot := do
    let (sm, ok) ← m.scheduleOper s.1 o cycle earliestSlot latestSlot
    .ok ((sm, if ok then insertSched (m.oper sm) o s.2 else s.2), ok)
  unscheduleOper s o := do
    let sm ← m.unscheduleOper s.1 o
    .ok (sm, s.2.erase o)

section Order

variable {f g : ℕ → Sm.Oper} {o a b c : ℕ} {os : List ℕ}

theorem goesBefore_trans (hab : goesBefore f a b = true) (hbc : goesBefore f b c = true) :
    goesBefore f a c = true := by
  simp only [goesBefore, decide_eq_true_eq, Fin.le_def] at *
  omega

theorem goesBefore_of_not (h : goesBefore f a b = false) : goesBefore f b a = true := by
  simp only [goesBefore, decide_eq_true_eq, decide_eq_false_iff_not, Fin.le_def] at *
  omega

theorem insertSched_concat : insertSched f o (os ++ [a]) =
    if goesBefore f a o then os ++ [a, o] else insertSched f o os ++ [a] := by
  rw [insertSched, insertSched, List.rdropWhile_concat, List.rtakeWhile_concat]
  cases goesBefore f a o <;> simp

theorem insertSched_perm (os : List ℕ) : (insertSched f o os).Perm (o :: os) := by
  rw [insertSched]
  refine List.perm_middle.trans (.cons o ?_)
  rw [List.rdropWhile_append_rtakeWhile]

/-- An operation is placed in order. -/
theorem sorted_insertSched (h : os.Pairwise fun a b ↦ goesBefore f a b = true) :
    (insertSched f o os).Pairwise fun a b ↦ goesBefore f a b = true := by
  induction os using List.reverseRecOn with
  | nil => exact List.pairwise_singleton _ _
  | append_singleton os a ih =>
    obtain ⟨hos, -, hlast⟩ := List.pairwise_append.1 h
    rw [insertSched_concat]
    split_ifs with ha
    · refine List.pairwise_append.2 ⟨hos, by simpa using ha, fun b hb c hc ↦ ?_⟩
      have hba := hlast b hb a List.mem_cons_self
      rcases List.mem_pair.1 hc with rfl | rfl
      · exact hba
      · exact goesBefore_trans hba ha
    · refine List.pairwise_append.2 ⟨ih hos, List.pairwise_singleton _ _, fun b hb c hc ↦ ?_⟩
      obtain rfl := List.mem_singleton.1 hc
      rcases List.mem_cons.1 ((insertSched_perm os).mem_iff.1 hb) with rfl | hb
      · exact goesBefore_of_not (Bool.eq_false_iff.2 ha)
      · exact hlast b hb c List.mem_cons_self

end Order

section Manager

variable {m : Manager} {cb : Sm.Cb} {Inv : m.State → Prop} {s s' : m.State} {o a b : ℕ} {os : List ℕ}

/-- The list holds the scheduled operations in their order. -/
structure Listed (m : Manager) (s : m.State × List ℕ) : Prop where
  mem : ∀ o, o ∈ s.2 ↔ m.place s.1 o ≠ none
  nodup : s.2.Nodup
  sorted : s.2.Pairwise fun a b ↦ goesBefore (m.oper s.1) a b = true

theorem goesBefore_congr (ha : m.place s a ≠ none) (hb : m.place s b ≠ none)
    (ha' : m.place s' a = m.place s a) (hb' : m.place s' b = m.place s b) :
    goesBefore (m.oper s') a b = goesBefore (m.oper s) a b := by
  have hplace {o : ℕ} (ho : m.place s o ≠ none) (ho' : m.place s' o = m.place s o) :
      (m.oper s' o).schedCycle = (m.oper s o).schedCycle ∧
        (m.oper s' o).schedSlot = (m.oper s o).schedSlot := by
    have heq := (Manager.place_ne_none (ho' ▸ ho)).2.symm.trans
      (ho'.trans (Manager.place_ne_none ho).2)
    exact Prod.mk.inj (Option.some.inj heq)
  rw [goesBefore, goesBefore, (hplace ha ha').1, (hplace ha ha').2, (hplace hb hb').1,
    (hplace hb hb').2]

/-- A list stays in order where its operations stay. -/
theorem Listed.congr_sorted (h : Listed m (s, os)) (hplace : ∀ a ∈ os, m.place s' a = m.place s a) :
    os.Pairwise fun a b ↦ goesBefore (m.oper s') a b = true :=
  h.sorted.imp_of_mem fun {a b} ha hb hab ↦
    (goesBefore_congr ((h.mem a).1 ha) ((h.mem b).1 hb) (hplace a ha) (hplace b hb)).trans hab

theorem Listed.schedule (h : Listed m (s, os)) {cycle : ℤ} {slot : Sm.Slot} (hoff : m.place s o = none)
    (hplace : m.place s' = Function.update (m.place s) o (some (cycle, slot))) :
    Listed m (s', insertSched (m.oper s') o os) := by
  have hnotMem : o ∉ os := fun ho ↦ (h.mem o).1 ho hoff
  refine ⟨fun a ↦ ?_, ?_, sorted_insertSched (h.congr_sorted fun a ha ↦ ?_)⟩
  · rw [(insertSched_perm os).mem_iff, List.mem_cons, hplace, Function.update_apply]
    split_ifs with ha
    · simp [ha]
    · simpa [ha] using h.mem a
  · exact (insertSched_perm os).nodup_iff.2 (List.nodup_cons.2 ⟨hnotMem, h.nodup⟩)
  · rw [hplace, Function.update_of_ne (ne_of_mem_of_not_mem ha hnotMem)]

theorem Listed.unschedule (h : Listed m (s, os))
    (hplace : m.place s' = Function.update (m.place s) o none) : Listed m (s', os.erase o) := by
  refine ⟨fun a ↦ ?_, h.nodup.erase o, ?_⟩
  · rw [h.nodup.mem_erase_iff, hplace, Function.update_apply]
    split_ifs with ha
    · simp [ha]
    · simpa [ha] using h.mem a
  · refine (h.sorted.sublist List.erase_sublist).imp_of_mem fun {a b} ha hb hab ↦ ?_
    obtain ⟨hao, ha⟩ := h.nodup.mem_erase_iff.1 ha
    obtain ⟨hbo, hb⟩ := h.nodup.mem_erase_iff.1 hb
    refine (goesBefore_congr ((h.mem a).1 ha) ((h.mem b).1 hb) ?_ ?_).trans hab
    · rw [hplace, Function.update_of_ne hao]
    · rw [hplace, Function.update_of_ne hbo]

/-- **The list** is right after every call of the schedule manager. -/
theorem lawful_listedManager (hm : m.Lawful cb Inv) :
    (listedManager m).Lawful cb fun s ↦ Inv s.1 ∧ Listed m s where
  schedule {s s' o cycle lo hi ok} hinv hlo hhi hrun := by
    obtain ⟨⟨sm, b⟩, hsm, hrun⟩ := Run.bind_eq_ok.1 hrun
    obtain ⟨rfl, rfl⟩ := Prod.mk.inj (Except.ok.inj hrun)
    obtain ⟨hinv', hoff, hplace⟩ := hm.schedule hinv.1 hlo hhi hsm
    cases b with
    | false =>
      rw [if_neg Bool.false_ne_true] at hplace
      refine ⟨⟨hinv', fun a ↦ ?_, hinv.2.nodup, hinv.2.congr_sorted fun a _ ↦ congrFun hplace a⟩,
        hoff, hplace⟩
      rw [hplace]
      exact hinv.2.mem a
    | true =>
      rw [if_pos rfl] at hplace
      obtain ⟨slot, hplace, hmin, hmax⟩ := hplace
      exact ⟨⟨hinv', hinv.2.schedule hoff hplace⟩, hoff, slot, hplace, hmin, hmax⟩
  unschedule {s s' o} hinv hrun := by
    obtain ⟨sm, hsm, hrun⟩ := Run.bind_eq_ok.1 hrun
    obtain rfl := Except.ok.inj hrun
    obtain ⟨hinv', hplace⟩ := hm.unschedule hinv.1 hsm
    exact ⟨⟨hinv', hinv.2.unschedule hplace⟩, hplace⟩
  schedSlot hinv hplace := hm.schedSlot hinv.1 hplace
  slots hinv := hm.slots hinv.1
  deps hinv := hm.deps hinv.1

end Manager

end OpenImpact.Softpipe
