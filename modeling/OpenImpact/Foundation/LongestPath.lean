import Mathlib.Algebra.Order.Group.Int
import Mathlib.Data.Finite.Prod
import Mathlib.Data.Set.Finite.Lemmas
import Mathlib.Order.Bounds.Basic

/-!
# Longest paths

Totals of the non-empty paths of a graph with integer edges. An all-pairs search that takes the vertices
in turn as inner vertices sees only the paths that are put together at their highest inner vertex; where
no closed path has a positive total these are enough (`exists_joined_ge`), and so there is a longest path
between any two joined vertices (`exists_isGreatest_total`).

`Joined` has a predicate on totals, for a search that does not keep every total it meets.
-/

namespace OpenImpact.Foundation

/-- The totals of the non-empty paths. -/
inductive Total (edge : ℕ → ℕ → ℤ → Prop) : ℕ → ℕ → ℤ → Prop where
  | edge {i j : ℕ} {t : ℤ} (h : edge i j t) : Total edge i j t
  | cons {i m j : ℕ} {t₁ t₂ : ℤ} (h : edge i m t₁) (hrest : Total edge m j t₂) : Total edge i j (t₁ + t₂)

/-- The totals of the paths that are put together at their highest inner vertex, which is below `b`, from
two such halves, with every total on the way kept. -/
inductive Joined (edge : ℕ → ℕ → ℤ → Prop) (keep : ℤ → Prop) : ℕ → ℕ → ℕ → ℤ → Prop where
  | edge {b i j : ℕ} {t : ℤ} (h : edge i j t) (hkeep : keep t) : Joined edge keep b i j t
  | join {b k i j : ℕ} {t₁ t₂ : ℤ} (hk : k < b) (h₁ : Joined edge keep k i k t₁)
      (h₂ : Joined edge keep k k j t₂) (hkeep : keep (t₁ + t₂)) : Joined edge keep b i j (t₁ + t₂)

variable {edge : ℕ → ℕ → ℤ → Prop} {keep : ℤ → Prop} {b b' i j k m n : ℕ} {t t₁ t₂ : ℤ}

theorem Total.trans (h₁ : Total edge i m t₁) (h₂ : Total edge m j t₂) : Total edge i j (t₁ + t₂) := by
  induction h₁ with
  | edge h => exact .cons h h₂
  | cons h _ ih =>
    rw [add_assoc]
    exact .cons h (ih h₂)

theorem Total.range (hrange : ∀ i j t, edge i j t → i < n ∧ j < n) (h : Total edge i j t) :
    i < n ∧ j < n := by
  induction h with
  | edge h => exact hrange _ _ _ h
  | cons h _ ih => exact ⟨(hrange _ _ _ h).1, ih.2⟩

theorem Joined.keeps (h : Joined edge keep b i j t) : keep t := by
  cases h <;> assumption

theorem Joined.total (h : Joined edge keep b i j t) : Total edge i j t := by
  induction h with
  | edge h _ => exact .edge h
  | join _ _ _ _ ih₁ ih₂ => exact ih₁.trans ih₂

theorem Joined.mono (h : Joined edge keep b i j t) (hb : b ≤ b') : Joined edge keep b' i j t := by
  cases h with
  | edge h hkeep => exact .edge h hkeep
  | join hk h₁ h₂ hkeep => exact .join (hk.trans_le hb) h₁ h₂ hkeep

/-- A joined path stays one for a predicate that all totals meet. -/
theorem Joined.imp {keep' : ℤ → Prop} (h : Joined edge keep b i j t)
    (hkeep : ∀ i j t, Total edge i j t → keep' t) : Joined edge keep' b i j t := by
  induction h with
  | edge h _ => exact .edge h (hkeep _ _ _ (.edge h))
  | join hk h₁ h₂ _ ih₁ ih₂ => exact .join hk ih₁ ih₂ (hkeep _ _ _ (h₁.total.trans h₂.total))

theorem joined_zero : Joined edge keep 0 i j t ↔ edge i j t ∧ keep t := by
  constructor
  · intro h
    cases h with
    | edge h hkeep => exact ⟨h, hkeep⟩
    | join hk => exact absurd hk (Nat.not_lt_zero _)
  · exact fun ⟨h, hkeep⟩ ↦ .edge h hkeep

/-- One more inner vertex. -/
theorem joined_succ : Joined edge keep (b + 1) i j t ↔ Joined edge keep b i j t ∨
    ∃ t₁ t₂, Joined edge keep b i b t₁ ∧ Joined edge keep b b j t₂ ∧ keep t ∧ t₁ + t₂ = t := by
  constructor
  · intro h
    cases h with
    | edge h hkeep => exact .inl (.edge h hkeep)
    | join hk h₁ h₂ hkeep =>
      rcases Nat.lt_succ_iff_lt_or_eq.1 hk with hk | rfl
      · exact .inl (.join hk h₁ h₂ hkeep)
      · exact .inr ⟨_, _, h₁, h₂, hkeep, rfl⟩
  · rintro (h | ⟨t₁, t₂, h₁, h₂, hkeep, rfl⟩)
    · exact h.mono (Nat.le_succ b)
    · exact .join (Nat.lt_succ_self b) h₁ h₂ hkeep

theorem finite_joined (hfin : ∀ i j, {t | edge i j t}.Finite) (b i j : ℕ) :
    {t | Joined edge keep b i j t}.Finite := by
  induction b generalizing i j with
  | zero => exact (hfin i j).subset fun t ht ↦ (joined_zero.1 ht).1
  | succ b ih =>
    refine ((ih i j).union (.image2 (· + ·) (ih i b) (ih b j))).subset fun t ht ↦ ?_
    rcases joined_succ.1 ht with ht | ⟨t₁, t₂, h₁, h₂, -, rfl⟩
    · exact .inl ht
    · exact .inr ⟨t₁, h₁, t₂, h₂, rfl⟩

section NoPositiveCycle

variable (hcycle : ∀ i t, Total edge i i t → t ≤ 0)

include hcycle in
/-- Paths to and from an inner vertex in the range are met by a joined one. By induction on the range: a
closed part at its last vertex is left out. -/
theorem Joined.exists_ge (b : ℕ) {i m j : ℕ} {t₁ t₂ : ℤ} (hm : m < b)
    (h₁ : Joined edge (fun _ ↦ True) b i m t₁) (h₂ : Joined edge (fun _ ↦ True) b m j t₂) :
    ∃ t, t₁ + t₂ ≤ t ∧ Joined edge (fun _ ↦ True) b i j t := by
  induction b generalizing i m j t₁ t₂ with
  | zero => exact absurd hm (Nat.not_lt_zero m)
  | succ b ih =>
    have hup {x y : ℕ} {t : ℤ} (h : Joined edge (fun _ ↦ True) b x y t) :
        Joined edge (fun _ ↦ True) (b + 1) x y t := h.mono (Nat.le_succ b)
    have hjoin {x y : ℕ} {s₁ s₂ : ℤ} (h₁ : Joined edge (fun _ ↦ True) b x b s₁)
        (h₂ : Joined edge (fun _ ↦ True) b b y s₂) :
        Joined edge (fun _ ↦ True) (b + 1) x y (s₁ + s₂) :=
      .join (Nat.lt_succ_self b) h₁ h₂ trivial
    rcases Nat.lt_succ_iff_lt_or_eq.1 hm with hm | rfl
    · rcases joined_succ.1 h₁ with h₁ | ⟨s₁, s₂, hs₁, hs₂, -, rfl⟩ <;>
        rcases joined_succ.1 h₂ with h₂ | ⟨s₃, s₄, hs₃, hs₄, -, rfl⟩
      · obtain ⟨t, hle, h⟩ := ih hm h₁ h₂
        exact ⟨t, hle, hup h⟩
      · obtain ⟨t, hle, h⟩ := ih hm h₁ hs₃
        exact ⟨t + s₄, by omega, hjoin h hs₄⟩
      · obtain ⟨t, hle, h⟩ := ih hm hs₂ h₂
        exact ⟨s₁ + t, by omega, hjoin hs₁ h⟩
      · obtain ⟨t, hle, h⟩ := ih hm hs₂ hs₃
        have := hcycle _ _ h.total
        exact ⟨s₁ + s₄, by omega, hjoin hs₁ hs₄⟩
    · -- an end at the last vertex itself: what closes there is left out
      have hl : ∃ s, t₁ ≤ s ∧ Joined edge (fun _ ↦ True) m i m s := by
        rcases joined_succ.1 h₁ with h₁ | ⟨s₁, s₂, hs₁, hs₂, -, rfl⟩
        · exact ⟨t₁, le_rfl, h₁⟩
        · have := hcycle _ _ hs₂.total
          exact ⟨s₁, by omega, hs₁⟩
      have hr : ∃ s, t₂ ≤ s ∧ Joined edge (fun _ ↦ True) m m j s := by
        rcases joined_succ.1 h₂ with h₂ | ⟨s₁, s₂, hs₁, hs₂, -, rfl⟩
        · exact ⟨t₂, le_rfl, h₂⟩
        · have := hcycle _ _ hs₁.total
          exact ⟨s₂, by omega, hs₂⟩
      obtain ⟨s, hs, hs'⟩ := hl
      obtain ⟨u, hu, hu'⟩ := hr
      exact ⟨s + u, by omega, hjoin hs' hu'⟩

variable (hrange : ∀ i j t, edge i j t → i < n ∧ j < n)

include hcycle hrange in
/-- **The joined paths are enough** where no closed path has a positive total. -/
theorem exists_joined_ge (h : Total edge i j t) :
    ∃ t', t ≤ t' ∧ Joined edge (fun _ ↦ True) n i j t' := by
  induction h with
  | edge h => exact ⟨_, le_rfl, .edge h trivial⟩
  | cons h _ ih =>
    obtain ⟨t', hle, hrest⟩ := ih
    obtain ⟨t, hle', ht⟩ := Joined.exists_ge hcycle n (hrange _ _ _ h).2 (.edge h trivial) hrest
    exact ⟨t, by omega, ht⟩

include hcycle hrange in
/-- Joined vertices have a longest path, which is a joined one. -/
theorem exists_isGreatest_total (hfin : ∀ i j, {t | edge i j t}.Finite) (h : Total edge i j t) :
    ∃ t, IsGreatest {t | Total edge i j t} t ∧ Joined edge (fun _ ↦ True) n i j t := by
  obtain ⟨t', -, ht'⟩ := exists_joined_ge hcycle hrange h
  obtain ⟨g, hg, hmax⟩ := Set.exists_max_image _ id (finite_joined hfin n i j) ⟨t', ht'⟩
  refine ⟨g, ⟨hg.total, fun s hs ↦ ?_⟩, hg⟩
  obtain ⟨s', hle, hs'⟩ := exists_joined_ge hcycle hrange hs
  exact hle.trans (hmax s' hs')

end NoPositiveCycle

end OpenImpact.Foundation
