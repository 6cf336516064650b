import Mathlib.Data.Finset.Basic
import Mathlib.Data.Finset.Lattice.Basic

/-!
# Sets of integers in two arrays

A set of `libset` has one array of bits for the elements `0, 1, …` and one for `-1, -2, …`. The second
one is allocated with the first negative element, and `Set_intersect_acc` skips an array that the
second set does not have: what the first set has there stays (`mem_intersectAcc`).
-/

namespace OpenImpact

/-- A set descriptor. Position `n` of the second array stands for `-(n + 1)`. -/
structure SignedSet where
  nonneg : Finset ℕ
  neg : Option (Finset ℕ)
  deriving DecidableEq

namespace SignedSet

/-- `Set_in`; `none` is `NULL`. -/
def Mem : Option SignedSet → ℤ → Prop
  | none, _ => False
  | some s, .ofNat n => n ∈ s.nonneg
  | some s, .negSucc n => n ∈ s.neg.getD ∅

instance decidableMem : ∀ (s : Option SignedSet) (x : ℤ), Decidable (Mem s x)
  | none, _ => inferInstanceAs (Decidable False)
  | some s, .ofNat n => inferInstanceAs (Decidable (n ∈ s.nonneg))
  | some s, .negSucc n => inferInstanceAs (Decidable (n ∈ s.neg.getD ∅))

/-- `Set_add`. -/
def add (s : Option SignedSet) : ℤ → Option SignedSet
  | .ofNat n =>
    let s := s.getD ⟨∅, none⟩
    some { s with nonneg := insert n s.nonneg }
  | .negSucc n =>
    let s := s.getD ⟨∅, none⟩
    some { s with neg := some (insert n (s.neg.getD ∅)) }

/-- `Set_intersect_acc`. -/
def intersectAcc : Option SignedSet → Option SignedSet → Option SignedSet
  | none, _ => none
  | some _, none => none
  | some s, some t =>
    some ⟨s.nonneg ∩ t.nonneg, match s.neg, t.neg with
      | none, _ => none
      | some a, none => some a
      | some a, some b => some (a ∩ b)⟩

/-- `Set_same`. -/
def Same (s t : Option SignedSet) : Prop :=
  (s.getD ⟨∅, none⟩).nonneg = (t.getD ⟨∅, none⟩).nonneg ∧
    (s.getD ⟨∅, none⟩).neg.getD ∅ = (t.getD ⟨∅, none⟩).neg.getD ∅

instance (s t : Option SignedSet) : Decidable (Same s t) := by
  unfold Same
  infer_instance

/-- The set has both arrays. -/
def HasNeg : Option SignedSet → Prop
  | none => False
  | some s => s.neg ≠ none

variable {s t : Option SignedSet} {x y : ℤ}

@[simp] theorem not_mem_none : ¬Mem none x := id

theorem mem_ofNat (s : Option SignedSet) (n : ℕ) :
    Mem s (.ofNat n) ↔ n ∈ (s.getD ⟨∅, none⟩).nonneg := by
  cases s <;> simp [Mem]

theorem mem_negSucc (s : Option SignedSet) (n : ℕ) :
    Mem s (.negSucc n) ↔ n ∈ (s.getD ⟨∅, none⟩).neg.getD ∅ := by
  cases s <;> simp [Mem]

theorem same_iff : Same s t ↔ ∀ x, Mem s x ↔ Mem t x := by
  constructor
  · rintro ⟨hnonneg, hneg⟩ (n | n)
    · rw [mem_ofNat, mem_ofNat, hnonneg]
    · rw [mem_negSucc, mem_negSucc, hneg]
  · intro h
    constructor
    · ext n
      rw [← mem_ofNat, ← mem_ofNat, h]
    · ext n
      rw [← mem_negSucc, ← mem_negSucc, h]

@[simp] theorem mem_add : Mem (add s x) y ↔ y = x ∨ Mem s y := by
  rcases x with n | n <;> rcases y with m | m
  · rw [mem_ofNat, mem_ofNat, Int.ofNat.injEq]
    simp [add]
  · rw [mem_negSucc, mem_negSucc]
    simp [add]
  · rw [mem_ofNat, mem_ofNat]
    simp [add]
  · rw [mem_negSucc, mem_negSucc, Int.negSucc.injEq]
    simp [add]

theorem hasNeg_add (h : HasNeg s ∨ x < 0) : HasNeg (add s x) := by
  rcases x with n | n
  · rcases s with - | s
    · exact absurd h (by simp [HasNeg])
    · exact h.resolve_right (by simp)
  · simp [add, HasNeg]

theorem mem_intersectAcc (ht : HasNeg t) : Mem (intersectAcc s t) x ↔ Mem s x ∧ Mem t x := by
  rcases s with - | ⟨p, a⟩
  · simp [intersectAcc]
  rcases t with - | ⟨q, _ | b⟩
  · exact absurd ht id
  · exact absurd rfl ht
  · rcases x with n | n <;> rcases a with - | a <;> simp [intersectAcc, Mem]

theorem hasNeg_intersectAcc (hs : HasNeg s) (ht : HasNeg t) : HasNeg (intersectAcc s t) := by
  rcases s with - | ⟨p, _ | a⟩
  · exact absurd hs id
  · exact absurd rfl hs
  rcases t with - | ⟨q, _ | b⟩
  · exact absurd ht id
  · exact absurd rfl ht
  · simp [intersectAcc, HasNeg]

/-- Negative elements of the first set stay when the second set has no array for them. -/
example : intersectAcc (add (add none (-2)) 3) (add none 5) = some ⟨∅, some {1}⟩ := by decide

/-- `tmp` after intersections with `others` and the addition of `x`. -/
def meetAdd (tmp : Option SignedSet) (others : List (Option SignedSet)) (x : ℤ) : Option SignedSet :=
  add (others.foldl intersectAcc tmp) x

variable {others : List (Option SignedSet)}

theorem mem_meetAdd (hothers : ∀ t ∈ others, HasNeg t) :
    Mem (meetAdd s others x) y ↔ y = x ∨ Mem s y ∧ ∀ t ∈ others, Mem t y := by
  rw [meetAdd, mem_add]
  refine or_congr_right ?_
  induction others generalizing s with
  | nil => simp
  | cons t others ih =>
    rw [List.foldl_cons, ih fun u hu ↦ hothers u (List.mem_cons_of_mem _ hu),
      mem_intersectAcc (hothers t List.mem_cons_self), List.forall_mem_cons, and_assoc]

theorem hasNeg_meetAdd (hs : HasNeg s) (hothers : ∀ t ∈ others, HasNeg t) (x : ℤ) :
    HasNeg (meetAdd s others x) := by
  refine hasNeg_add (.inl ?_)
  induction others generalizing s with
  | nil => exact hs
  | cons t others ih =>
    exact ih (hasNeg_intersectAcc hs (hothers t List.mem_cons_self)) fun u hu ↦
      hothers u (List.mem_cons_of_mem _ hu)

end SignedSet

end OpenImpact
