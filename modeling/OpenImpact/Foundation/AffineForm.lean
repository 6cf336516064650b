import Mathlib.Algebra.Ring.Basic
import Mathlib.Logic.Function.Basic
import Mathlib.Tactic.Ring

/-!
# Values as a coefficient times a base plus an offset

The forms are closed under a multiplication with a constant, and under a sum if at most one base occurs.
-/

namespace OpenImpact.Foundation

/-- A coefficient times the value of a base, plus an offset. No base counts as `0`. -/
structure AffineForm (R B : Type*) where
  coeff : R
  base : Option B
  offset : R
  deriving DecidableEq

namespace AffineForm

variable {R B : Type*} [CommRing R]

/-- The value of a base. -/
def baseValue (v : B → R) : Option B → R
  | none => 0
  | some b => v b

/-- The value of a form. -/
def value (v : B → R) (f : AffineForm R B) : R :=
  f.coeff * baseValue v f.base + f.offset

/-- A constant. -/
def const (c : R) : AffineForm R B := ⟨0, none, c⟩

/-- A base, or nothing. -/
def ofBase (b : Option B) : AffineForm R B := ⟨1, b, 0⟩

/-- The form with the other sign. -/
def neg (f : AffineForm R B) : AffineForm R B := ⟨-f.coeff, f.base, -f.offset⟩

/-- A multiple. -/
def scale (c : R) (f : AffineForm R B) : AffineForm R B := ⟨c * f.coeff, f.base, c * f.offset⟩

/-- The sum, if it has one base at most. -/
def add? [DecidableEq B] (f g : AffineForm R B) : Option (AffineForm R B) :=
  if f.base = g.base then some ⟨f.coeff + g.coeff, f.base, f.offset + g.offset⟩
  else if f.base = none then some ⟨g.coeff, g.base, f.offset + g.offset⟩
  else if g.base = none then some ⟨f.coeff, f.base, f.offset + g.offset⟩
  else none

variable {v v' : B → R} {f g h : AffineForm R B}

@[simp] theorem value_const (c : R) : (const c : AffineForm R B).value v = c := by
  simp [value, const]

@[simp] theorem value_ofBase (b : Option B) : (ofBase b).value v = baseValue v b := by
  simp [value, ofBase]

@[simp] theorem value_neg : f.neg.value v = -f.value v := by
  simp only [value, neg]
  ring

@[simp] theorem value_scale (c : R) : (f.scale c).value v = c * f.value v := by
  simp only [value, scale]
  ring

theorem value_of_base_eq_none (hf : f.base = none) : f.value v = f.offset := by
  rw [value, hf, baseValue, mul_zero, zero_add]

theorem value_add [DecidableEq B] (hadd : f.add? g = some h) :
    h.value v = f.value v + g.value v := by
  rw [add?] at hadd
  split_ifs at hadd with hsame hf hg
  · obtain rfl := Option.some.inj hadd
    simp only [value, ← hsame]
    ring
  · obtain rfl := Option.some.inj hadd
    rw [value_of_base_eq_none hf]
    simp only [value]
    ring
  · obtain rfl := Option.some.inj hadd
    rw [value_of_base_eq_none hg]
    simp only [value]
    ring

/-- A form keeps its value when other bases than its own change, or when its coefficient is `0`. -/
theorem value_congr (hbase : ∀ b, f.base = some b → f.coeff = 0 ∨ v b = v' b) :
    f.value v = f.value v' := by
  rw [value, value]
  cases hb : f.base with
  | none => rfl
  | some b =>
    obtain hzero | heq := hbase b hb
    · rw [hzero, zero_mul, zero_mul]
    · rw [baseValue, baseValue, heq]

end AffineForm

end OpenImpact.Foundation
