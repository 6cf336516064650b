import OpenImpact.Foundation.LongestPath
import OpenImpact.Sched.SmBounds
import Mathlib.Data.List.FinRange

/-!
# The recurrence bound on the initiation interval

`l_mii.c` searches for the longest dependence paths between the operations of a loop body at one
initiation interval, and for the least interval at which no dependence cycle has a positive total. The
distances are in one table that is changed in place; an entry that is `NEGATIVE_INFINITY` stands for no
path. The delays and omegas are `short`s, but a product with the interval, a difference and a sum of two
distances are `int`s, and a run ends where one of them does not fit.
-/

namespace OpenImpact.Lmarkpipe

open Foundation Sm

/-- `NEGATIVE_INFINITY`. -/
def negativeInfinity : ℤ := -32768

/-- `MinDist`, with the macro `MD`. -/
abbrev MinDist := ℕ → ℕ → ℤ

/-- `MD(r,c) = v`. -/
def MinDist.set (md : MinDist) (r c : ℕ) (v : ℤ) : MinDist :=
  fun i j ↦ if i = r ∧ j = c then v else md i j

theorem MinDist.set_apply (md : MinDist) (r c : ℕ) (v : ℤ) (i j : ℕ) :
    md.set r c v i j = if i = r ∧ j = c then v else md i j := rfl

/-! ### The source's functions -/

/-- One dependence in the loop of `Lpipe_max_time_interval`. -/
def maxInterval (cb : Cb) (toOp : ℕ) (minII maxTimeInterval : ℤ) (depOut : ℕ) : Run ℤ :=
  let dep := cb.dep depOut
  if dep.toOp = toOp ∧ !dep.ignore then do
    let product ← int32 (minII * dep.omega)
    let tempTimeInterval ← int32 (dep.minDelay - product)
    .ok (if tempTimeInterval > maxTimeInterval then tempTimeInterval else maxTimeInterval)
  else .ok maxTimeInterval

/-- `Lpipe_max_time_interval`. -/
def maxTimeInterval (cb : Cb) (fromOp toOp : ℕ) (minII : ℤ) : Run ℤ :=
  if (cb.oper fromOp).ignore then
    .error (.punt "Cannot enable ignored deps out until from_sm_op is enabled.")
  else if (cb.oper toOp).ignore then
    .error (.punt "Cannot enable ignored deps out until to_sm_op is enabled.")
  else (cb.oper fromOp).actions.foldlM
    (fun interval action ↦ action.depOut.foldlM (maxInterval cb toOp minII) interval) negativeInfinity

/-- The initial `MinDist`. -/
def initMinDist (cb : Cb) (opArray : List ℕ) (ii : ℤ) : Run MinDist :=
  (List.finRange opArray.length).foldlM (fun md i ↦
    (List.finRange opArray.length).foldlM (fun md j ↦ do
      let interval ← maxTimeInterval cb (opArray.get i) (opArray.get j) ii
      pure (md.set i j interval)) md) fun _ _ ↦ 0

/-- Why the search ends early: with `return 1`, which leaves the table as it is then, or with an `int` that
does not fit. -/
inductive Stop where
  | found (md : MinDist)
  | halt (e : Halt)

/-- The body of the innermost loop, on the table and the cached `dik`. -/
def relax (k i : ℕ) (st : MinDist × ℤ) (j : ℕ) : Except Stop (MinDist × ℤ) :=
  let (md, dik) := st
  let dkj := md k j
  if dkj = negativeInfinity then .ok (md, dik)
  else do
    let dij ← (int32 (dik + dkj)).mapError .halt
    if dij > md i j then
      if i = j ∧ dij > 0 then .error (.found (md.set i j dij))
      else .ok (md.set i j dij, if j = k then dij else dik)
    else .ok (md, dik)

/-- The body of the loop over `i`. -/
def relaxRow (n k : ℕ) (md : MinDist) (i : ℕ) : Except Stop MinDist :=
  if md i k = negativeInfinity then .ok md
  else Prod.fst <$> (List.range n).foldlM (relax k i) (md, md i k)

/-- The body of the loop over `k`. -/
def relaxAll (n : ℕ) (md : MinDist) (k : ℕ) : Except Stop MinDist :=
  (List.range n).foldlM (relaxRow n k) md

/-- `Lpipe_build_MinDist`: what it returns and the table it leaves. The first check is that of the size of
the table. -/
def buildMinDist (cb : Cb) (opArray : List ℕ) (ii : ℤ) : Run (ℤ × MinDist) :=
  if ii = 0 then
    .error (.punt "Lpipe_build_MinDist: II of 0 does not make sense, function = %s, cb = %d\n")
  else do
    let _ ← int32 (opArray.length * opArray.length)
    let md ← initMinDist cb opArray ii
    match (List.range opArray.length).foldlM (relaxAll opArray.length) md with
    | .error (.found md) => pure (1, md)
    | .error (.halt e) => .error e
    | .ok md => pure (0, md)

/-- The loop of `Lpipe_determine_rec_mii`, with the number of times its condition still holds. -/
def searchMii (cb : Cb) (opArray : List ℕ) : ℕ → ℤ → Run ℤ
  | 0, minII => .ok minII
  | n + 1, minII => do
    let (ret, _) ← buildMinDist cb opArray minII
    if ret = 0 then pure minII
    else do
      let minII ← int32 (minII + 1)
      searchMii cb opArray n minII

/-- `Lpipe_determine_rec_mii`. -/
def determineRecMii (cb : Cb) (opArray : List ℕ) (minII maxMinII : ℤ) : Run ℤ :=
  if minII = 0 then
    .error (.punt "Lpipe_determine_rec_mii: II of 0 does not make sense, function = %s, cb = %d\n")
  else do
    let minII ← searchMii cb opArray (maxMinII + 1 - minII).toNat minII
    pure (if minII > maxMinII then -1 else minII)

/-! ### The dependence graph -/

/-- The dependences between the operations, by their places in `op_array`. -/
def DepEdge (cb : Cb) (opArray : List ℕ) (ii : ℤ) (i j : ℕ) (t : ℤ) : Prop :=
  ∃ (hi : i < opArray.length) (hj : j < opArray.length),
    ∃ action ∈ (cb.oper opArray[i]).actions, ∃ k ∈ action.depOut,
      (cb.dep k).toOp = opArray[j] ∧ (cb.dep k).ignore = false ∧
        (cb.dep k).minDelay - ii * (cb.dep k).omega = t

/-- Some dependence cycle has a positive total. -/
def PositiveCycle (cb : Cb) (opArray : List ℕ) (ii : ℤ) : Prop :=
  ∃ i t, Total (DepEdge cb opArray ii) i i t ∧ 0 < t

/-- The paths the table can hold: those that are put together at their highest inner operation from two
such paths, with no total on the way down at `NEGATIVE_INFINITY` or below. -/
abbrev Held (cb : Cb) (opArray : List ℕ) (ii : ℤ) : ℕ → ℕ → ℕ → ℤ → Prop :=
  Joined (DepEdge cb opArray ii) (negativeInfinity < ·)

/-- The range of `int`. -/
def FitsInt (n : ℤ) : Prop := -2147483648 ≤ n ∧ n ≤ 2147483647

/-- The sums that come up at the entry of `i` and `j` in stage `k`: to the right of column `k` the cached
distance from `i` to `k` can lead through `k` already. -/
def sums (cb : Cb) (opArray : List ℕ) (ii : ℤ) (k i j : ℕ) : Set ℤ :=
  {t | ∃ t₁ t₂, Held cb opArray ii (if k < j then k + 1 else k) i k t₁ ∧ Held cb opArray ii k k j t₂ ∧
    t₁ + t₂ = t}

def SumsFit (cb : Cb) (opArray : List ℕ) (ii : ℤ) (k i j : ℕ) : Prop :=
  ∀ t ∈ sums cb opArray ii k i j, FitsInt t

/-- Stage `k` finds a positive cycle at the diagonal entry of `i`. -/
def FindsCycle (cb : Cb) (opArray : List ℕ) (ii : ℤ) (k i : ℕ) : Prop :=
  ∃ t ∈ sums cb opArray ii k i i, 0 < t ∧ ∀ t', Held cb opArray ii k i i t' → t' < t

/-- The diagonal entry of `i'` in stage `k'` comes before the entry of `i` and `j` in stage `k`. -/
def Before (k' i' k i j : ℕ) : Prop := k' < k ∨ k' = k ∧ (i' < i ∨ i' = i ∧ i < j)

/-- The intervals that the dependences from one operation to another ask for fit. -/
def IntervalsFit (cb : Cb) (fromOp toOp : ℕ) (ii : ℤ) : Prop :=
  ∀ action ∈ (cb.oper fromOp).actions, ∀ k ∈ action.depOut,
    (cb.dep k).toOp = toOp ∧ !(cb.dep k).ignore →
      FitsInt (ii * (cb.dep k).omega) ∧ FitsInt ((cb.dep k).minDelay - ii * (cb.dep k).omega)

/-- Every `int` that `Lpipe_build_MinDist` computes fits: the size of the table, the intervals that the
dependences ask for, and the sums up to the first cycle that is found. -/
structure DistancesFit (cb : Cb) (opArray : List ℕ) (ii : ℤ) : Prop where
  size : FitsInt (opArray.length * opArray.length)
  interval : ∀ o ∈ opArray, ∀ o' ∈ opArray, IntervalsFit cb o o' ii
  sum : ∀ k < opArray.length, ∀ i < opArray.length, ∀ j < opArray.length,
    (∀ k' < opArray.length, ∀ i' < opArray.length, Before k' i' k i j → ¬FindsCycle cb opArray ii k' i') →
      SumsFit cb opArray ii k i j

/-- What `Lpipe_build_MinDist` returns and leaves is right. -/
structure IsMinDist (cb : Cb) (opArray : List ℕ) (ii : ℤ) (r : ℤ × MinDist) : Prop where
  ret : r.1 = 1 ↔ PositiveCycle cb opArray ii
  greatest : r.1 = 0 → ∀ i j, (∃ t, Total (DepEdge cb opArray ii) i j t) →
    IsGreatest {t | Total (DepEdge cb opArray ii) i j t} (r.2 i j)
  none : r.1 = 0 → ∀ i < opArray.length, ∀ j < opArray.length,
    (¬∃ t, Total (DepEdge cb opArray ii) i j t) → r.2 i j = negativeInfinity

/-- What `Lpipe_determine_rec_mii` returns for the intervals from `1` is right. -/
def IsRecMii (cb : Cb) (opArray : List ℕ) (maxMinII r : ℤ) : Prop :=
  IsLeast {ii | 1 ≤ ii ∧ ii ≤ maxMinII ∧ ¬PositiveCycle cb opArray ii} r ∨
    r = -1 ∧ ∀ ii, 1 ≤ ii → ii ≤ maxMinII → PositiveCycle cb opArray ii

end OpenImpact.Lmarkpipe
