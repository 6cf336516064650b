import OpenImpact.Lcode.RmapWalk
import Mathlib.Tactic.Ring

/-!
# Growing a resource map

The map covers an interval of offsets that is doubled on demand at either end, and within it the
words of another interval are initialised, four at a time. `Cb.Inv` relates the two intervals to the
array.
-/

namespace OpenImpact.Rmap

/-- The fields of `SM_Cb` that describe the resource map. -/
structure Cb where
  mapArray : Option Cells
  mapArraySize : ℤ
  mapStartOffset : ℤ
  mapEndOffset : ℤ
  minInitOffset : ℤ
  maxInitOffset : ℤ

/-- A new `SM_Cb` has no map. -/
def Cb.new : Cb := ⟨none, 0, 0, 0, 0, 0⟩

/-! ### The source's functions -/

/-- `malloc (n * sizeof (unsigned int))`. A byte count that is no `int` is refused. -/
def mallocWords (msg : String) (n : ℤ) : Run Cells :=
  if n * 4 ≤ 2147483647 then .ok (List.replicate n.toNat none) else .error (.punt msg)

/-- `while (...) size = size << 1`, with the negated condition. The size leaves `int` long before
the fuel is gone. -/
def doubleUntil (covers : ℤ → Run Bool) : ℕ → ℤ → Run ℤ
  | 0, _ => .error .outOfFuel
  | fuel + 1, size => do
    if ← covers size then .ok size
    else do
      let size ← int32 (size * 2)
      doubleUntil covers fuel size

/-- The number of iterations of `for (index1 = start; index1 <= end; index1 += 4)`. -/
def trips (startIndex endIndex : ℤ) : ℕ :=
  ((endIndex - startIndex + 4) / 4).toNat

/-- The initialisation loops, from `i` on. -/
def fill4 : ℤ → ℕ → Cells → Run Cells
  | _, 0, m => .ok m
  | i, n + 1, m => do
    let m ← m.store i 0
    let m ← m.store (i + 1) 0
    let m ← m.store (i + 2) 0
    let m ← m.store (i + 3) 0
    fill4 (i + 4) n m

/-- One copied word. `shift` is where the old array starts in the new one. -/
def copy1 (old : Cells) (shift i : ℤ) (m : Cells) : Run Cells := do
  let w ← old.load i
  m.store (shift + i) w

/-- The copy loops of the resizing functions, from `i` on. -/
def copy4 (old : Cells) (shift : ℤ) : ℤ → ℕ → Cells → Run Cells
  | _, 0, m => .ok m
  | i, n + 1, m => do
    let m ← copy1 old shift i m
    let m ← copy1 old shift (i + 1) m
    let m ← copy1 old shift (i + 2) m
    let m ← copy1 old shift (i + 3) m
    copy4 old shift (i + 4) n m

/-- `SM_expand_map_end_offset`. -/
def expandMapEndOffset (s : Cb) (maxInitOffset : ℤ) : Run Cb := do
  let size ← int32 (s.mapArraySize * 2)
  let size ← doubleUntil (fun n ↦ do
    let next ← int32 (s.mapStartOffset + n)
    .ok (decide (maxInitOffset < next))) 32 size
  let new ← mallocWords "SM_expand_map_end_offset: Out of memory (size %i)" size
  let old ← deref s.mapArray
  let startIndex ← int32 (s.minInitOffset - s.mapStartOffset)
  let endIndex ← int32 (s.maxInitOffset - s.mapStartOffset)
  let new ← copy4 old 0 startIndex (trips startIndex endIndex) new
  if startIndex + 4 * trips startIndex endIndex - 1 ≠ endIndex then
    .error (.punt ("SM_expand_map_end_offset:\n" ++
      "expect (end_index(%i) - start_index(%i)) = %i\n" ++ "to be (multiple of 4)-1!"))
  else do
    let next ← int32 (s.mapStartOffset + size)
    .ok { s with mapArray := some new, mapArraySize := size, mapEndOffset := next - 1 }

/-- `SM_expand_map_start_offset`. -/
def expandMapStartOffset (s : Cb) (minInitOffset : ℤ) : Run Cb := do
  let size ← int32 (s.mapArraySize * 2)
  let next ← int32 (s.mapEndOffset + 1)
  let size ← doubleUntil (fun n ↦ do
    let start ← int32 (next - n)
    .ok (decide (start ≤ minInitOffset))) 32 size
  let start ← int32 (next - size)
  let new ← mallocWords "SM_expand_map_end_offset: Out of memory (size %i)" size
  let old ← deref s.mapArray
  let startIndex ← int32 (s.minInitOffset - s.mapStartOffset)
  let endIndex ← int32 (s.maxInitOffset - s.mapStartOffset)
  let shift ← int32 (s.mapStartOffset - start)
  let new ← copy4 old shift startIndex (trips startIndex endIndex) new
  if startIndex + 4 * trips startIndex endIndex - 1 ≠ endIndex then
    .error (.punt ("SM_expand_map_start_offset:\n" ++
      "expect (end_index(%i) - start_index(%i)) = %i\n" ++ "to be (multiple of 4)-1!"))
  else
    .ok { s with mapArray := some new, mapArraySize := size, mapStartOffset := start }

/-- The resize test of `SM_init_for_max_usage`; also returns the `new_max_init_offset` to use. -/
def makeRoomAtEnd (s : Cb) (maxUsageOffset newMaxInitOffset : ℤ) : Run (Cb × ℤ) :=
  if s.mapEndOffset < newMaxInitOffset then
    if maxUsageOffset ≤ s.mapEndOffset then .ok (s, s.mapEndOffset)
    else do
      let s ← expandMapEndOffset s newMaxInitOffset
      .ok (s, newMaxInitOffset)
  else .ok (s, newMaxInitOffset)

/-- `SM_init_for_max_usage`. -/
def initForMaxUsage (s : Cb) (maxUsageOffset : ℤ) : Run Cb := do
  let newMaxInitOffset ← int32 (maxUsageOffset - maxUsageOffset % 4 + 7)
  let (s, newMaxInitOffset) ← makeRoomAtEnd s maxUsageOffset newMaxInitOffset
  let startIndex ← int32 (s.maxInitOffset + 1 - s.mapStartOffset)
  let endIndex ← int32 (newMaxInitOffset - s.mapStartOffset)
  let m ← deref s.mapArray
  let m ← fill4 startIndex (trips startIndex endIndex) m
  .ok { s with mapArray := some m, maxInitOffset := newMaxInitOffset }

/-- The resize test of `SM_init_for_min_usage`; also returns the `new_min_init_offset` to use. -/
def makeRoomAtStart (s : Cb) (minUsageOffset newMinInitOffset : ℤ) : Run (Cb × ℤ) :=
  if newMinInitOffset < s.mapStartOffset then
    if s.mapStartOffset ≤ minUsageOffset then .ok (s, s.mapStartOffset)
    else do
      let s ← expandMapStartOffset s newMinInitOffset
      .ok (s, newMinInitOffset)
  else .ok (s, newMinInitOffset)

/-- `SM_init_for_min_usage`. -/
def initForMinUsage (s : Cb) (minUsageOffset : ℤ) : Run Cb := do
  let newMinInitOffset ← int32 (minUsageOffset - minUsageOffset % 4 - 4)
  let (s, newMinInitOffset) ← makeRoomAtStart s minUsageOffset newMinInitOffset
  let startIndex ← int32 (newMinInitOffset - s.mapStartOffset)
  let endIndex ← int32 (s.minInitOffset - 1 - s.mapStartOffset)
  let m ← deref s.mapArray
  let m ← fill4 startIndex (trips startIndex endIndex) m
  .ok { s with mapArray := some m, minInitOffset := newMinInitOffset }

/-- `SM_create_map`. -/
def createMap (minUsageOffset maxUsageOffset : ℤ) : Run Cb := do
  let start ← int32 (minUsageOffset - minUsageOffset % 4 - 4)
  let size ← doubleUntil (fun n ↦ do
    let next ← int32 (start + n)
    .ok (decide (maxUsageOffset < next))) 32 32
  let m ← mallocWords "SM_create_map: Out of memory (size %i)" size
  let next ← int32 (start + size)
  let minInitOffset := minUsageOffset - minUsageOffset % 4
  let maxInitOffset ← int32 (minInitOffset - 1)
  initForMaxUsage ⟨some m, size, start, next - 1, minInitOffset, maxInitOffset⟩ maxUsageOffset

/-! ### Doubling -/

/-- `size` doubled, `n` times at most, until it is at least `width`. -/
def cover (width : ℤ) : ℕ → ℤ → ℤ
  | 0, size => size
  | n + 1, size => if width ≤ size then size else cover width n (size * 2)

theorem le_cover (width : ℤ) (n : ℕ) {size : ℤ} (h : 0 < size) : size ≤ cover width n size := by
  induction n generalizing size with
  | zero => exact le_refl size
  | succ n ih =>
    rw [cover]
    split_ifs
    · exact le_refl size
    · have := ih (show 0 < size * 2 by omega)
      omega

theorem cover_mod (width : ℤ) (n : ℕ) {size : ℤ} (h : size % 4 = 0) :
    cover width n size % 4 = 0 := by
  induction n generalizing size with
  | zero => exact h
  | succ n ih =>
    rw [cover]
    split_ifs
    · exact h
    · exact ih (by omega)

/-- Doubling stops at the first size that is enough. -/
theorem cover_le {width : ℤ} {n k : ℕ} {size : ℤ} (h : 0 < size) (hk : width ≤ size * 2 ^ k) :
    cover width n size ≤ size * 2 ^ k := by
  induction n generalizing size k with
  | zero => exact le_mul_of_one_le_right h.le (one_le_pow₀ (by omega))
  | succ n ih =>
    rw [cover]
    split_ifs with hw
    · exact le_mul_of_one_le_right h.le (one_le_pow₀ (by omega))
    · cases k with
      | zero => omega
      | succ k =>
        rw [pow_succ', ← mul_assoc] at hk ⊢
        exact ih (by omega) hk

theorem width_le_cover_or (width : ℤ) (n : ℕ) (size : ℤ) :
    width ≤ cover width n size ∨ cover width n size = size * 2 ^ n := by
  induction n generalizing size with
  | zero => right; simp [cover]
  | succ n ih =>
    rw [cover]
    split_ifs with h
    · exact .inl h
    · rw [pow_succ', ← mul_assoc]
      exact ih (size * 2)

/-- Whether an array of `size` words may start at offset `start`. -/
def Spans (start size : ℤ) : Prop :=
  -2147483648 ≤ start ∧ start + size ≤ 2147483647 ∧ size * 4 ≤ 2147483647

instance (start size : ℤ) : Decidable (Spans start size) := by
  unfold Spans
  infer_instance

theorem width_le_cover {width size : ℤ} (h : 32 ≤ size)
    (hfit : cover width 31 size * 4 ≤ 2147483647) :
    width ≤ cover width 31 size := by
  rcases width_le_cover_or width 31 size with hw | hw
  · exact hw
  · rw [hw] at hfit
    omega

/-- The doubling loops, when the size they end with is one that fits. -/
theorem doubleUntil_eq {covers : ℤ → Run Bool} {width : ℤ} {n : ℕ} {size : ℤ} (hsize : 0 < size)
    (hwidth : width ≤ cover width n size) (hfit : cover width n size * 4 ≤ 2147483647)
    (hcovers : ∀ k, size ≤ k → k ≤ cover width n size → covers k = .ok (decide (width ≤ k))) :
    doubleUntil covers (n + 1) size = .ok (cover width n size) := by
  induction n generalizing size with
  | zero =>
    have hw : width ≤ size := hwidth
    rw [doubleUntil, hcovers size le_rfl le_rfl, Run.ok_bind, decide_eq_true hw]
    rfl
  | succ n ih =>
    rw [doubleUntil, hcovers size le_rfl (le_cover width _ hsize), Run.ok_bind]
    rw [cover] at hwidth hfit hcovers ⊢
    by_cases hw : width ≤ size
    · simp [hw]
    · simp only [hw, if_false, decide_false, Bool.false_eq_true] at hwidth hfit hcovers ⊢
      have hle : size * 2 ≤ cover width n (size * 2) := le_cover width n (by omega)
      rw [int32_eq (by omega), Run.ok_bind]
      exact ih (by omega) hwidth hfit fun k hk hk' ↦ hcovers k (by omega) hk'

end OpenImpact.Rmap
