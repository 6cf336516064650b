import OpenImpact.Lmarkpipe.MiiCorrect
import Mathlib.Tactic.IntervalCases

/-!
# Slack and static priorities

`Lpipe_compute_slack_time_using_MinDist` and `Lpipe_compute_static_priorities` of `l_pipe_sched.c`. An
operation's slack is what the longest way through it leaves of the height of the loop body, and it can
be negative only if the table of distances lost a path: then the way through the operation counts for
its two halves, but no entry of the start node's row has its total (`slackTimes_nonneg_iff`). The height
and the slacks are `int`s, and the same theorem says when they fit.

It rests on `TableAt`, what `Lpipe_build_MinDist` leaves when it returns 0. Operations without a
`Softpipe_Op_Info` are left out, for which the code punts.
-/

namespace OpenImpact.Softpipe

open Foundation Sm Lmarkpipe

/-- The fields of `Softpipe_Op_Info` that the priorities are computed from. -/
structure PrioInfo where
  loopBackBr : Bool
  estart : ℤ
  lstart : ℤ
  slack : ℤ
  priority : ℤ
  deriving DecidableEq

/-- An operation of the serial list, with `L_START_NODE`, `L_STOP_NODE`, `L_is_control_oper`,
`L_general_store_opcode` and `L_general_load_opcode`. -/
structure PrioOper where
  startNode : Bool
  stopNode : Bool
  controlOper : Bool
  generalStore : Bool
  generalLoad : Bool
  info : Option PrioInfo
  deriving DecidableEq

/-! ### The source's functions -/

/-- The loop that computes `estart`, from the operation with number `opNum` on, and `max`. -/
def computeEstart (md : MinDist) : ℕ → ℤ → List PrioOper → Run (List PrioOper × ℤ)
  | _, max, [] => .ok ([], max)
  | opNum, max, o :: os =>
    match o.info with
    | none => .error (.punt ("Lpipe_compute_slack_time_using_MinDist: oper has no " ++
        "Softpipe_Op_Info structure\nCb = %d, Op = %d\n"))
    | some info => do
      let estart := if o.startNode then 0 else md 0 opNum
      let max' := if o.startNode then max else if estart > max then estart else max
      let (os', max'') ← computeEstart md (opNum + 1) max' os
      .ok ({ o with info := some { info with estart := estart } } :: os', max'')

/-- The loop that computes `lstart`, from the last operation up. -/
def computeLstart (md : MinDist) (opCount : ℕ) (max : ℤ) : ℕ → List PrioOper → Run (List PrioOper)
  | _, [] => .ok []
  | opNum, o :: os => do
    let os' ← computeLstart md opCount max (opNum + 1) os
    let info ← deref o.info
    let lstart ← (if o.stopNode then .ok max else int32 (max - md opNum (opCount - 1)))
    .ok ({ o with info := some { info with lstart := lstart } } :: os')

/-- The loop that computes `slack`. -/
def computeSlack : List PrioOper → Run (List PrioOper)
  | [] => .ok []
  | o :: os => do
    let info ← deref o.info
    let slack ← int32 (info.lstart - info.estart)
    let os' ← computeSlack os
    .ok ({ o with info := some { info with slack := slack } } :: os')

/-- `Lpipe_compute_slack_time_using_MinDist`: the operations and `loop_dep_height`. -/
def computeSlackTime (md : MinDist) (ops : List PrioOper) : Run (List PrioOper × ℤ) := do
  let (ops₁, max) ← computeEstart md 0 0 ops
  let loopDepHeight ← int32 (max + 1)
  let ops₂ ← computeLstart md ops.length max 0 ops₁
  let ops₃ ← computeSlack ops₂
  .ok (ops₃, loopDepHeight)

/-- The priority of one operation for backward scheduling. -/
def backwardPriority (o : PrioOper) (info : PrioInfo) : Run ℤ := do
  let priority ← int32 (3 * info.estart)
  let quotient ← (if !info.loopBackBr then int32 (1 + info.slack) >>= divide 128 else .ok 128)
  let priority ← int32 (priority + quotient)
  let priority ← (if o.controlOper || o.generalStore then int32 (priority + 2) else .ok priority)
  if o.generalLoad then int32 (priority + 1) else .ok priority

/-- `Lpipe_compute_static_priorities`, with `Lpipe_backward_sched`. -/
def computeStaticPriorities (backwardSched : Bool) (ops : List PrioOper) : Run (List PrioOper) :=
  ops.mapM fun o ↦
    match o.info with
    | none => .ok o
    | some info => do
      let priority ← if backwardSched then backwardPriority o info else .ok info.lstart
      .ok { o with info := some { info with priority := priority } }

/-! ### What the loops compute -/

section Loops

variable {md : MinDist} {opCount opNum : ℕ} {max max' : ℤ} {ops ops' : List PrioOper}

theorem computeEstart_spec (hrun : computeEstart md opNum max ops = .ok (ops', max')) :
    ops'.length = ops.length ∧
      (∀ (i : ℕ) (o' : PrioOper), ops'[i]? = some o' → ∃ o info, ops[i]? = some o ∧
        info.estart = (if o.startNode then 0 else md 0 (opNum + i)) ∧
        o' = { o with info := some info }) ∧
      IsGreatest (insert max {t | ∃ (i : ℕ) (o : PrioOper), ops[i]? = some o ∧
        o.startNode = false ∧ md 0 (opNum + i) = t}) max' := by
  induction ops generalizing opNum max ops' with
  | nil =>
    cases hrun
    refine ⟨rfl, fun i o' h ↦ (nomatch h), .inl rfl, ?_⟩
    rintro t (rfl | ⟨i, o', h, -⟩)
    · exact le_rfl
    · cases h
  | cons o os ih =>
    rw [computeEstart] at hrun
    cases hinfo : o.info with
    | none => rw [hinfo] at hrun; cases hrun
    | some info =>
      simp only [hinfo] at hrun
      obtain ⟨⟨os', m⟩, hrest, hrun⟩ := Run.bind_eq_ok.1 hrun
      cases hrun
      obtain ⟨hlen, hestart, hmem, hupper⟩ := ih hrest
      have hnum (i : ℕ) : opNum + (i + 1) = opNum + 1 + i := by omega
      refine ⟨congrArg (· + 1) hlen, fun i o' h ↦ ?_, ?_, ?_⟩
      · cases i with
        | zero => cases h; exact ⟨o, _, rfl, rfl, rfl⟩
        | succ i => rw [hnum]; exact hestart i o' h
      · -- the greatest entry is this operation's, or that of the rest
        obtain heq | ⟨i, o', h, hstart, ht⟩ := hmem
        · rw [heq]
          split_ifs with hstart hgt
          · exact .inl rfl
          · exact .inr ⟨0, o, rfl, by simpa using hstart, rfl⟩
          · exact .inl rfl
        · exact .inr ⟨i + 1, o', h, hstart, (congrArg (md 0) (hnum i)).trans ht⟩
      · have hle := hupper (.inl rfl)
        rintro t (rfl | ⟨i, o', h, hstart, rfl⟩)
        · split_ifs at hle <;> omega
        · cases i with
          | zero =>
            cases h
            simp only [hstart, Bool.false_eq_true, if_false] at hle
            rw [Nat.add_zero]
            split_ifs at hle <;> omega
          | succ i => exact hupper (.inr ⟨i, o', h, hstart, congrArg (md 0) (hnum i).symm⟩)

theorem computeLstart_spec (hrun : computeLstart md opCount max opNum ops = .ok ops') :
    ops'.length = ops.length ∧
      ∀ (i : ℕ) (o' : PrioOper), ops'[i]? = some o' → ∃ o info, ops[i]? = some o ∧
        o.info = some info ∧ o' = { o with info := some { info with
          lstart := if o.stopNode then max else max - md (opNum + i) (opCount - 1) } } := by
  induction ops generalizing opNum ops' with
  | nil => cases hrun; exact ⟨rfl, fun i o h ↦ (nomatch h)⟩
  | cons o os ih =>
    rw [computeLstart] at hrun
    obtain ⟨os', hrest, hrun⟩ := Run.bind_eq_ok.1 hrun
    obtain ⟨info, hinfo, hrun⟩ := Run.bind_eq_ok.1 hrun
    obtain ⟨lstart, hvalue, hrun⟩ := Run.bind_eq_ok.1 hrun
    cases hrun
    obtain ⟨hlen, hlstart⟩ := ih hrest
    refine ⟨congrArg (· + 1) hlen, fun i o' h ↦ ?_⟩
    cases i with
    | zero =>
      cases h
      have hl : lstart = if o.stopNode then max else max - md (opNum + 0) (opCount - 1) := by
        split_ifs at hvalue ⊢ with hstop
        · exact (Except.ok.inj hvalue).symm
        · exact (int32_eq_ok.1 hvalue).2.symm
      exact ⟨o, info, rfl, deref_eq_ok.1 hinfo, by rw [hl]⟩
    | succ i =>
      rw [show opNum + (i + 1) = opNum + 1 + i by omega]
      exact hlstart i o' h

theorem computeSlack_spec (hrun : computeSlack ops = .ok ops') :
    ops'.length = ops.length ∧
      ∀ (i : ℕ) (o' : PrioOper), ops'[i]? = some o' → ∃ o info, ops[i]? = some o ∧
        o.info = some info ∧
        o' = { o with info := some { info with slack := info.lstart - info.estart } } := by
  induction ops generalizing ops' with
  | nil => cases hrun; exact ⟨rfl, fun i o h ↦ (nomatch h)⟩
  | cons o os ih =>
    rw [computeSlack] at hrun
    obtain ⟨info, hinfo, hrun⟩ := Run.bind_eq_ok.1 hrun
    obtain ⟨slack, hvalue, hrun⟩ := Run.bind_eq_ok.1 hrun
    obtain ⟨-, rfl⟩ := int32_eq_ok.1 hvalue
    obtain ⟨os', hrest, hrun⟩ := Run.bind_eq_ok.1 hrun
    cases hrun
    obtain ⟨hlen, hslack⟩ := ih hrest
    refine ⟨congrArg (· + 1) hlen, fun i o' h ↦ ?_⟩
    cases i with
    | zero => cases h; exact ⟨o, info, rfl, deref_eq_ok.1 hinfo, rfl⟩
    | succ i => exact hslack i o' h

/-- **What `Lpipe_compute_slack_time_using_MinDist` computes**: `max` is the greatest entry of the start
node's row, and 0. -/
theorem computeSlackTime_spec {loopDepHeight : ℤ}
    (hrun : computeSlackTime md ops = .ok (ops', loopDepHeight)) :
    ops'.length = ops.length ∧
      ∃ max, IsGreatest (insert 0 {t | ∃ (i : ℕ) (o : PrioOper), ops[i]? = some o ∧
          o.startNode = false ∧ md 0 i = t}) max ∧
        ∀ (i : ℕ) (o' : PrioOper), ops'[i]? = some o' → ∃ o info, ops[i]? = some o ∧
          o'.info = some info ∧
          info.slack = (if o.stopNode then max else max - md i (ops.length - 1)) -
            (if o.startNode then 0 else md 0 i) := by
  rw [computeSlackTime] at hrun
  obtain ⟨⟨ops₁, max⟩, hrun₁, hrun⟩ := Run.bind_eq_ok.1 hrun
  obtain ⟨height, -, hrun⟩ := Run.bind_eq_ok.1 hrun
  obtain ⟨ops₂, hrun₂, hrun⟩ := Run.bind_eq_ok.1 hrun
  obtain ⟨ops₃, hrun₃, hrun⟩ := Run.bind_eq_ok.1 hrun
  cases hrun
  obtain ⟨hlen₁, hestart, hmax⟩ := computeEstart_spec hrun₁
  obtain ⟨hlen₂, hlstart⟩ := computeLstart_spec hrun₂
  obtain ⟨hlen₃, hslack⟩ := computeSlack_spec hrun₃
  simp only [Nat.zero_add] at hestart hmax hlstart
  refine ⟨by omega, max, hmax, fun i o' h ↦ ?_⟩
  obtain ⟨o₂, info₂, h₂, hinfo₂, rfl⟩ := hslack i o' h
  obtain ⟨o₁, info₁, h₁, hinfo₁, rfl⟩ := hlstart i o₂ h₂
  obtain ⟨o, info, ho, hest, rfl⟩ := hestart i o₁ h₁
  cases hinfo₁
  cases hinfo₂
  exact ⟨o, _, ho, rfl, by simp only [hest]⟩

/-! ### When the loops return -/

theorem computeEstart_returns (md : MinDist) (opNum : ℕ) (max : ℤ) (hinfo : ∀ o ∈ ops, o.info ≠ none) :
    ∃ r, computeEstart md opNum max ops = .ok r := by
  induction ops generalizing opNum max with
  | nil => exact ⟨_, rfl⟩
  | cons o os ih =>
    rw [List.forall_mem_cons] at hinfo
    obtain ⟨info, hinfo'⟩ := Option.ne_none_iff_exists'.1 hinfo.1
    rw [computeEstart, hinfo']
    dsimp only
    obtain ⟨r, hr⟩ := ih (opNum + 1) (if o.startNode then max else
      if (if o.startNode then 0 else md 0 opNum) > max then if o.startNode then 0 else md 0 opNum else max) hinfo.2
    rw [hr]
    exact ⟨_, rfl⟩

/-- The latest start times fit. -/
def LatestFits (md : MinDist) (opCount : ℕ) (max : ℤ) (opNum : ℕ) (ops : List PrioOper) : Prop :=
  ∀ (i : ℕ) (o : PrioOper), ops[i]? = some o → o.stopNode = false → FitsInt (max - md (opNum + i) (opCount - 1))

theorem computeLstart_returns_iff (hinfo : ∀ o ∈ ops, o.info ≠ none) :
    (∃ ops', computeLstart md opCount max opNum ops = .ok ops') ↔ LatestFits md opCount max opNum ops := by
  induction ops generalizing opNum with
  | nil => exact iff_of_true ⟨[], rfl⟩ fun i o h ↦ (nomatch h)
  | cons o os ih =>
    rw [List.forall_mem_cons] at hinfo
    obtain ⟨info, hinfo'⟩ := Option.ne_none_iff_exists'.1 hinfo.1
    have hsplit : LatestFits md opCount max opNum (o :: os) ↔
        (o.stopNode = false → FitsInt (max - md opNum (opCount - 1))) ∧
          LatestFits md opCount max (opNum + 1) os := by
      constructor
      · refine fun h ↦ ⟨h 0 o rfl, fun i o' ho' ↦ ?_⟩
        rw [show opNum + 1 + i = opNum + (i + 1) by omega]
        exact h (i + 1) o' ho'
      · rintro ⟨hfirst, hrest⟩ i o' ho'
        cases i with
        | zero => cases ho'; exact hfirst
        | succ i =>
          rw [show opNum + (i + 1) = opNum + 1 + i by omega]
          exact hrest i o' ho'
    rw [hsplit, ← ih hinfo.2, computeLstart, hinfo']
    constructor
    · rintro ⟨ops', hrun⟩
      obtain ⟨os', hrest, hrun⟩ := Run.bind_eq_ok.1 hrun
      obtain ⟨_, -, hrun⟩ := Run.bind_eq_ok.1 hrun
      obtain ⟨lstart, hvalue, -⟩ := Run.bind_eq_ok.1 hrun
      refine ⟨fun hstop ↦ ?_, os', hrest⟩
      rw [hstop, if_neg Bool.false_ne_true] at hvalue
      exact (int32_eq_ok.1 hvalue).1
    · rintro ⟨hfits, os', hrest⟩
      rw [hrest, Run.ok_bind, deref_some, Run.ok_bind]
      cases hstop : o.stopNode with
      | true => exact ⟨_, rfl⟩
      | false =>
        rw [if_neg Bool.false_ne_true, int32_eq (hfits hstop)]
        exact ⟨_, rfl⟩

theorem computeSlack_returns_iff (hinfo : ∀ o ∈ ops, o.info ≠ none) :
    (∃ ops', computeSlack ops = .ok ops') ↔
      ∀ o ∈ ops, ∀ info, o.info = some info → FitsInt (info.lstart - info.estart) := by
  induction ops with
  | nil => exact iff_of_true ⟨[], rfl⟩ fun o h ↦ absurd h List.not_mem_nil
  | cons o os ih =>
    rw [List.forall_mem_cons] at hinfo ⊢
    obtain ⟨info, hinfo'⟩ := Option.ne_none_iff_exists'.1 hinfo.1
    rw [← ih hinfo.2, computeSlack, hinfo', deref_some, Run.ok_bind]
    simp only [Option.some.injEq, forall_eq']
    constructor
    · rintro ⟨ops', hrun⟩
      obtain ⟨slack, hvalue, hrun⟩ := Run.bind_eq_ok.1 hrun
      obtain ⟨os', hrest, -⟩ := Run.bind_eq_ok.1 hrun
      exact ⟨(int32_eq_ok.1 hvalue).1, os', hrest⟩
    · rintro ⟨hfits, os', hrest⟩
      rw [int32_eq hfits, Run.ok_bind, hrest]
      exact ⟨_, rfl⟩

end Loops

/-! ### When no slack is negative -/

/-- `Lpipe_build_MinDist` at one interval, and the slacks from its table. -/
def slackTimes (cb : Cb) (opArray : List ℕ) (ii : ℤ) (ops : List PrioOper) :
    Run (ℤ × List PrioOper) := do
  let (ret, md) ← buildMinDist cb opArray ii
  let (ops', _) ← computeSlackTime md ops
  .ok (ret, ops')

/-- A serial list: the first operation is the start node and the last one the stop node, and each operation
has its `Softpipe_Op_Info`. -/
structure IsLoopBody (ops : List PrioOper) : Prop where
  start : ∀ (i : ℕ) (o : PrioOper), ops[i]? = some o → (o.startNode = true ↔ i = 0)
  stop : ∀ (i : ℕ) (o : PrioOper), ops[i]? = some o → (o.stopNode = true ↔ i + 1 = ops.length)
  info : ∀ o ∈ ops, o.info ≠ none

/-- The start and stop nodes are related to every operation. -/
def Related (cb : Cb) (opArray : List ℕ) (ii : ℤ) : Prop :=
  ∀ i, 0 < i → i + 1 < opArray.length → (∃ t, Total (DepEdge cb opArray ii) 0 i t) ∧
    ∃ t, Total (DepEdge cb opArray ii) i (opArray.length - 1) t

/-- Every slack is non-negative, so that no divisor is zero. -/
def SlackOk (ops : List PrioOper) : Prop :=
  ∀ o ∈ ops, ∀ info, o.info = some info → 0 ≤ info.slack ∧ 1 + info.slack ≠ 0

/-- Where no slack is negative, and the slacks and earliest start times leave room, the priorities are
computed. -/
theorem computeStaticPriorities_returns {ops : List PrioOper} (backwardSched : Bool) (hok : SlackOk ops)
    (hroom : ∀ o ∈ ops, ∀ info, o.info = some info →
      info.slack < 2147483647 ∧ -32768 ≤ info.estart ∧ info.estart ≤ 715827838) :
    ∃ ops', computeStaticPriorities backwardSched ops = .ok ops' := by
  induction ops with
  | nil => exact ⟨[], rfl⟩
  | cons o os ih =>
    rw [SlackOk, List.forall_mem_cons] at hok
    rw [List.forall_mem_cons] at hroom
    obtain ⟨os', hos'⟩ := ih hok.2 hroom.2
    rw [computeStaticPriorities] at hos' ⊢
    rw [List.mapM_cons, hos']
    cases hinfo : o.info with
    | none => exact ⟨_, rfl⟩
    | some info =>
      obtain ⟨hnonneg, hne⟩ := hok.1 info hinfo
      obtain ⟨hslack, hge, hle⟩ := hroom.1 info hinfo
      cases backwardSched with
      | false => exact ⟨_, rfl⟩
      | true =>
        obtain ⟨q, hq, hq₀, hq₁⟩ : ∃ q, (if !info.loopBackBr then int32 (1 + info.slack) >>= divide 128
            else .ok 128) = .ok q ∧ 0 ≤ q ∧ q ≤ 128 := by
          cases info.loopBackBr with
          | true => exact ⟨128, rfl, by decide, le_rfl⟩
          | false =>
            rw [if_pos (by decide), int32_eq (by omega), Run.ok_bind, divide_eq hne]
            refine ⟨_, rfl, Int.tdiv_nonneg (by decide) (by omega), ?_⟩
            exact Int.tdiv_le_self _ (by decide)
        obtain ⟨p, hp, hp₀, hp₁⟩ : ∃ p, (if o.controlOper || o.generalStore then
            int32 (3 * info.estart + q + 2) else .ok (3 * info.estart + q)) = .ok p ∧
              3 * info.estart + q ≤ p ∧ p ≤ 3 * info.estart + q + 2 := by
          split_ifs
          · exact ⟨_, int32_eq (by omega), by omega, le_rfl⟩
          · exact ⟨_, rfl, le_rfl, by omega⟩
        obtain ⟨p', hp'⟩ : ∃ p', (if o.generalLoad then int32 (p + 1) else .ok p) = .ok p' := by
          split_ifs
          · exact ⟨_, int32_eq (by omega)⟩
          · exact ⟨_, rfl⟩
        have hpriority : backwardPriority o info = .ok p' := by
          rw [backwardPriority, int32_eq (by omega), Run.ok_bind, hq, Run.ok_bind, int32_eq (by omega), Run.ok_bind,
            hp, Run.ok_bind, hp']
        simp only [if_true, hpriority]
        exact ⟨_, rfl⟩

/-- The values an entry of the table is the greatest of. -/
def kept (cb : Cb) (opArray : List ℕ) (ii : ℤ) (i j : ℕ) : Set ℤ :=
  insert negativeInfinity {t | Held cb opArray ii opArray.length i j t}

/-- The way through an operation does not count for more than some entry of the start node's row. -/
def WaysKept (cb : Cb) (opArray : List ℕ) (ii : ℤ) : Prop :=
  ∀ i, 0 < i → i + 1 < opArray.length → ∀ t₁ ∈ kept cb opArray ii 0 i,
    ∀ t₂ ∈ kept cb opArray ii i (opArray.length - 1), 0 < t₁ + t₂ →
      ∃ j, 0 < j ∧ j < opArray.length ∧ ∃ t ∈ kept cb opArray ii 0 j, t₁ + t₂ ≤ t

/-- The values the height is the greatest of. -/
def heights (cb : Cb) (opArray : List ℕ) (ii : ℤ) : Set ℤ :=
  insert 0 {t | ∃ j, 0 < j ∧ j < opArray.length ∧ t ∈ kept cb opArray ii 0 j}

/-- The height, the latest start times and the slacks are not above the range of `int`. -/
structure HeightsFit (cb : Cb) (opArray : List ℕ) (ii : ℤ) : Prop where
  height : ∀ h ∈ heights cb opArray ii, h < 2147483647
  latest : ∀ i, i + 1 < opArray.length → ∃ t₂ ∈ kept cb opArray ii i (opArray.length - 1),
    ∀ h ∈ heights cb opArray ii, h - t₂ ≤ 2147483647
  slack : ∀ i, 0 < i → i + 1 < opArray.length → ∃ t₁ ∈ kept cb opArray ii 0 i,
    ∃ t₂ ∈ kept cb opArray ii i (opArray.length - 1), ∀ h ∈ heights cb opArray ii, h - t₂ - t₁ ≤ 2147483647

section Slack

variable {cb : Cb} {opArray : List ℕ} {ii : ℤ} {md : MinDist} {ops ops' : List PrioOper}
  {loopDepHeight : ℤ}

theorem isGreatest_kept (h : TableAt cb opArray ii opArray.length md) {i j : ℕ}
    (hi : i < opArray.length) (hj : j < opArray.length) :
    IsGreatest (kept cb opArray ii i j) (md i j) :=
  h.held i hi j hj

/-- Every slack in terms of the table's entries. -/
theorem slack_nonneg_iff (hops : IsLoopBody ops)
    (hrun : computeSlackTime md ops = .ok (ops', loopDepHeight)) :
    (∀ o ∈ ops', ∀ info, o.info = some info → 0 ≤ info.slack) ↔
      ∀ i, 0 < i → i + 1 < ops.length → 0 < md 0 i + md i (ops.length - 1) →
        ∃ j, 0 < j ∧ j < ops.length ∧ md 0 i + md i (ops.length - 1) ≤ md 0 j := by
  obtain ⟨hlen, max, hmax, hslack⟩ := computeSlackTime_spec hrun
  have hpos : 0 ≤ max := hmax.2 (.inl rfl)
  have hentry (j : ℕ) (hj : 0 < j) (hj' : j < ops.length) : md 0 j ≤ max := by
    refine hmax.2 (.inr ⟨j, _, List.getElem?_eq_getElem hj', ?_, rfl⟩)
    rw [← Bool.not_eq_true, hops.start j _ (List.getElem?_eq_getElem hj')]
    exact hj.ne'
  constructor
  · intro hnonneg i hi hlast hsum
    have hi' : i < ops'.length := by omega
    obtain ⟨o, info, ho, hinfo, hs⟩ := hslack i _ (List.getElem?_eq_getElem hi')
    have hge := hnonneg _ (List.getElem_mem hi') info hinfo
    rw [hs, if_neg ((hops.stop i o ho).not.2 hlast.ne),
      if_neg ((hops.start i o ho).not.2 hi.ne')] at hge
    -- the height is positive, so it is an entry of the start node's row
    obtain hzero | ⟨j, oj, hoj, hnot, hj⟩ := hmax.1
    · omega
    · refine ⟨j, Nat.pos_of_ne_zero fun h ↦ ?_, (List.getElem?_eq_some_iff.1 hoj).1, by omega⟩
      simp [(hops.start j oj hoj).2 h] at hnot
  · intro hways o' ho' info' hinfo'
    obtain ⟨i, hi, rfl⟩ := List.mem_iff_getElem.1 ho'
    obtain ⟨o, info, ho, hinfo, hs⟩ := hslack i _ (List.getElem?_eq_getElem hi)
    obtain rfl : info = info' := Option.some.inj (hinfo.symm.trans hinfo')
    have hstart := hops.start i o ho
    have hstop := hops.stop i o ho
    rw [hs]
    split_ifs with hostop hostart hostart
    · omega
    · have := hentry i (Nat.pos_of_ne_zero (hstart.not.1 hostart)) (by omega)
      omega
    · have hi₀ := hstart.1 hostart
      have := hentry (ops.length - 1) (by have := hstop.not.1 hostop; omega) (by omega)
      subst hi₀
      omega
    · have hi₀ : 0 < i := Nat.pos_of_ne_zero (hstart.not.1 hostart)
      have hlast : i + 1 < ops.length := by have := hstop.not.1 hostop; omega
      rcases le_or_gt (md 0 i + md i (ops.length - 1)) 0 with hle | hlt
      · omega
      · obtain ⟨j, hj, hjlen, hle⟩ := hways i hi₀ hlast hlt
        have := hentry j hj hjlen
        omega

/-- The ways through the operations, in terms of the entries. -/
theorem waysKept_iff (htable : TableAt cb opArray ii opArray.length md) :
    (∀ i, 0 < i → i + 1 < opArray.length → 0 < md 0 i + md i (opArray.length - 1) →
      ∃ j, 0 < j ∧ j < opArray.length ∧ md 0 i + md i (opArray.length - 1) ≤ md 0 j) ↔
      WaysKept cb opArray ii := by
  constructor
  · intro h i hi hlast t₁ ht₁ t₂ ht₂ hsum
    have hle₁ := (isGreatest_kept htable (by omega) (by omega)).2 ht₁
    have hle₂ := (isGreatest_kept htable (by omega) (by omega)).2 ht₂
    obtain ⟨j, hj, hjlen, hle⟩ := h i hi hlast (hsum.trans_le (add_le_add hle₁ hle₂))
    exact ⟨j, hj, hjlen, _, (isGreatest_kept htable (by omega) hjlen).1, (add_le_add hle₁ hle₂).trans hle⟩
  · intro h i hi hlast hsum
    obtain ⟨j, hj, hjlen, t, ht, hle⟩ := h i hi hlast _ (isGreatest_kept htable (by omega) (by omega)).1 _
      (isGreatest_kept htable (by omega) (by omega)).1 hsum
    exact ⟨j, hj, hjlen, hle.trans ((isGreatest_kept htable (by omega) hjlen).2 ht)⟩

/-- The entries of the start node's row that the height is the greatest of. -/
theorem IsLoopBody.startRow (hops : IsLoopBody ops) :
    {t | ∃ (i : ℕ) (o : PrioOper), ops[i]? = some o ∧ o.startNode = false ∧ md 0 i = t} =
      {t | ∃ j, 0 < j ∧ j < ops.length ∧ md 0 j = t} := by
  refine Set.ext fun t ↦ ⟨fun ⟨i, o, ho, hstart, ht⟩ ↦ ⟨i, Nat.pos_of_ne_zero fun h ↦ ?_,
    (List.getElem?_eq_some_iff.1 ho).1, ht⟩, fun ⟨j, hj, hlt, ht⟩ ↦ ⟨j, _, List.getElem?_eq_getElem hlt, ?_, ht⟩⟩
  · simp [(hops.start i o ho).2 h] at hstart
  · rw [← Bool.not_eq_true, hops.start j _ (List.getElem?_eq_getElem hlt)]
    exact hj.ne'

/-- **When the slacks are computed**: when the height, the latest start times and the slacks fit. -/
theorem computeSlackTime_returns_iff (hops : IsLoopBody ops) {max : ℤ}
    (hmax : IsGreatest (insert 0 {t | ∃ j, 0 < j ∧ j < ops.length ∧ md 0 j = t}) max) :
    (∃ r, computeSlackTime md ops = .ok r) ↔ FitsInt (max + 1) ∧
      (∀ i, i + 1 < ops.length → FitsInt (max - md i (ops.length - 1))) ∧
      ∀ i < ops.length, FitsInt ((if i + 1 = ops.length then max else max - md i (ops.length - 1)) -
        if i = 0 then 0 else md 0 i) := by
  obtain ⟨⟨ops₁, max₁⟩, hrun₁⟩ := computeEstart_returns md 0 0 hops.info
  obtain ⟨hlen₁, hestart, hmax₁⟩ := computeEstart_spec hrun₁
  simp only [Nat.zero_add] at hestart hmax₁
  obtain rfl : max₁ = max := by
    rw [hops.startRow] at hmax₁
    exact hmax₁.unique hmax
  have hinfo₁ : ∀ o ∈ ops₁, o.info ≠ none := by
    intro o' ho'
    obtain ⟨i, hi, rfl⟩ := List.mem_iff_getElem.1 ho'
    obtain ⟨o, info, -, -, heq⟩ := hestart i _ (List.getElem?_eq_getElem hi)
    rw [heq]
    exact Option.some_ne_none _
  -- the stop operation has no latest start time of its own
  have hlatest : LatestFits md ops.length max₁ 0 ops₁ ↔
      ∀ i, i + 1 < ops.length → FitsInt (max₁ - md i (ops.length - 1)) := by
    simp only [LatestFits, Nat.zero_add]
    constructor
    · intro h i hi
      have hi' : i < ops₁.length := by omega
      obtain ⟨o, info, ho, -, heq⟩ := hestart i _ (List.getElem?_eq_getElem hi')
      refine h i _ (List.getElem?_eq_getElem hi') ?_
      rw [heq, ← Bool.not_eq_true]
      exact (hops.stop i o ho).not.2 hi.ne
    · intro h i o' ho' hstop
      obtain ⟨o, info, ho, -, rfl⟩ := hestart i o' ho'
      have hlt := (List.getElem?_eq_some_iff.1 ho).1
      refine h i (lt_of_le_of_ne hlt fun heq ↦ ?_)
      simp [(hops.stop i o ho).2 heq] at hstop
  -- the slack is the latest start time without the earliest, which is 0 for the start operation
  have hslacks {ops₂ : List PrioOper} (hrun₂ : computeLstart md ops.length max₁ 0 ops₁ = .ok ops₂) :
      (∃ ops₃, computeSlack ops₂ = .ok ops₃) ↔ ∀ i < ops.length,
        FitsInt ((if i + 1 = ops.length then max₁ else max₁ - md i (ops.length - 1)) -
          if i = 0 then 0 else md 0 i) := by
    obtain ⟨hlen₂, hlstart⟩ := computeLstart_spec hrun₂
    simp only [Nat.zero_add] at hlstart
    have hvalue (i : ℕ) (o₂ : PrioOper) (ho₂ : ops₂[i]? = some o₂) : ∃ info, o₂.info = some info ∧
        info.lstart - info.estart = (if i + 1 = ops.length then max₁ else max₁ - md i (ops.length - 1)) -
          if i = 0 then 0 else md 0 i := by
      obtain ⟨o₁, info₁, ho₁, hinfo, rfl⟩ := hlstart i o₂ ho₂
      obtain ⟨o, info, ho, hest, rfl⟩ := hestart i o₁ ho₁
      cases hinfo
      refine ⟨_, rfl, ?_⟩
      simp only [hest, hops.stop i o ho, hops.start i o ho]
    rw [computeSlack_returns_iff]
    · constructor
      · intro h i hi
        have hi' : i < ops₂.length := by omega
        obtain ⟨info, hinfo, heq⟩ := hvalue i _ (List.getElem?_eq_getElem hi')
        exact heq ▸ h _ (List.getElem_mem hi') info hinfo
      · intro h o₂ ho₂ info hinfo
        obtain ⟨i, hi, rfl⟩ := List.mem_iff_getElem.1 ho₂
        obtain ⟨info', hinfo', heq⟩ := hvalue i _ (List.getElem?_eq_getElem hi)
        obtain rfl : info = info' := Option.some.inj (hinfo.symm.trans hinfo')
        rw [heq]
        exact h i (by omega)
    · intro o₂ ho₂
      obtain ⟨i, hi, rfl⟩ := List.mem_iff_getElem.1 ho₂
      obtain ⟨info, hinfo, -⟩ := hvalue i _ (List.getElem?_eq_getElem hi)
      rw [hinfo]
      exact Option.some_ne_none _
  rw [computeSlackTime, hrun₁, Run.ok_bind]
  constructor
  · rintro ⟨r, hrun⟩
    obtain ⟨height, hheight, hrun⟩ := Run.bind_eq_ok.1 hrun
    obtain ⟨ops₂, hrun₂, hrun⟩ := Run.bind_eq_ok.1 hrun
    obtain ⟨ops₃, hrun₃, -⟩ := Run.bind_eq_ok.1 hrun
    exact ⟨(int32_eq_ok.1 hheight).1, hlatest.1 ((computeLstart_returns_iff hinfo₁).1 ⟨ops₂, hrun₂⟩),
      (hslacks hrun₂).1 ⟨ops₃, hrun₃⟩⟩
  · rintro ⟨hheight, hlat, hsl⟩
    obtain ⟨ops₂, hrun₂⟩ := (computeLstart_returns_iff hinfo₁).2 (hlatest.2 hlat)
    obtain ⟨ops₃, hrun₃⟩ := (hslacks hrun₂).2 hsl
    refine ⟨(ops₃, max₁ + 1), ?_⟩
    dsimp only
    rw [int32_eq hheight, Run.ok_bind, hrun₂, Run.ok_bind, hrun₃]
    rfl

/-- The height is the greatest of the kept values too. -/
theorem isGreatest_heights (h : TableAt cb opArray ii opArray.length md) {max : ℤ}
    (hmax : IsGreatest (insert 0 {t | ∃ j, 0 < j ∧ j < opArray.length ∧ md 0 j = t}) max) :
    IsGreatest (heights cb opArray ii) max := by
  constructor
  · obtain rfl | ⟨j, hj, hlt, rfl⟩ := hmax.1
    · exact .inl rfl
    · exact .inr ⟨j, hj, hlt, (isGreatest_kept h (by omega) hlt).1⟩
  · rintro t (rfl | ⟨j, hj, hlt, ht⟩)
    · exact hmax.2 (.inl rfl)
    · exact ((isGreatest_kept h (by omega) hlt).2 ht).trans (hmax.2 (.inr ⟨j, hj, hlt, rfl⟩))

/-- Without a positive cycle, what the table holds fits. -/
theorem le_of_kept (hfit : DistancesFit cb opArray ii) (h : TableAt cb opArray ii opArray.length md) {i j : ℕ} {t : ℤ}
    (ht : t ∈ kept cb opArray ii i j) : -32768 ≤ t ∧ t ≤ 2147483647 := by
  obtain rfl | ht := ht
  · exact ⟨le_rfl, by decide⟩
  · exact ⟨ht.keeps.le, (held_fits hfit h ht).2⟩

/-- **The slacks are non-negative** exactly if the table lost no way through an operation that counts, and the
height, the latest start times and the slacks fit. -/
theorem slackTimes_nonneg_iff (hlen : ops.length = opArray.length) (hops : IsLoopBody ops)
    (hdist : buildMinDist cb opArray ii = .ok (0, md)) :
    (∃ ops', slackTimes cb opArray ii ops = .ok (0, ops') ∧ SlackOk ops') ↔
      WaysKept cb opArray ii ∧ HeightsFit cb opArray ii := by
  obtain ⟨hfit, htable⟩ := buildMinDist_spec hdist
  replace htable : TableAt cb opArray ii opArray.length md :=
    htable.elim And.right fun h ↦ absurd h.1 (show (0 : ℤ) ≠ 1 by decide)
  have hbounds {i j : ℕ} (hi : i < opArray.length) (hj : j < opArray.length) :=
    le_of_kept hfit htable (isGreatest_kept htable hi hj).1
  -- the run, from the table on
  have hrun : (∃ ops', slackTimes cb opArray ii ops = .ok (0, ops') ∧ SlackOk ops') ↔
      ∃ ops' h, computeSlackTime md ops = .ok (ops', h) ∧ SlackOk ops' := by
    rw [slackTimes, hdist, Run.ok_bind]
    constructor
    · rintro ⟨ops', hrun, hok⟩
      obtain ⟨⟨ops₁, h⟩, hrun, heq⟩ := Run.bind_eq_ok.1 hrun
      cases heq
      exact ⟨_, h, hrun, hok⟩
    · rintro ⟨ops', h, hrun, hok⟩
      exact ⟨ops', by dsimp only; rw [hrun]; rfl, hok⟩
  have hok {ops' : List PrioOper} {h : ℤ} (hrun : computeSlackTime md ops = .ok (ops', h)) :
      SlackOk ops' ↔ WaysKept cb opArray ii := by
    have hnonneg : SlackOk ops' ↔ ∀ o ∈ ops', ∀ info, o.info = some info → 0 ≤ info.slack :=
      forall₂_congr fun o _ ↦ forall₂_congr fun info _ ↦ and_iff_left_of_imp fun h ↦ by omega
    rw [hnonneg, slack_nonneg_iff hops hrun, hlen, waysKept_iff htable]
  obtain ⟨max, hmax⟩ : ∃ max, IsGreatest (insert 0 {t | ∃ j, 0 < j ∧ j < ops.length ∧ md 0 j = t}) max := by
    obtain ⟨⟨ops₁, max⟩, hrun₁⟩ := computeEstart_returns md 0 0 hops.info
    obtain ⟨-, -, hmax⟩ := computeEstart_spec hrun₁
    simp only [Nat.zero_add] at hmax
    exact ⟨max, hops.startRow ▸ hmax⟩
  have hreturns := computeSlackTime_returns_iff hops hmax
  rw [hlen] at hmax hreturns
  have hheights := isGreatest_heights htable hmax
  have hmax₀ : 0 ≤ max := hmax.2 (.inl rfl)
  have hrow (j : ℕ) (hj : 0 < j) (hlt : j < opArray.length) : md 0 j ≤ max := hmax.2 (.inr ⟨j, hj, hlt, rfl⟩)
  rw [hrun]
  constructor
  · rintro ⟨ops', h, hrun, hslack⟩
    obtain ⟨hheight, hlatest, hslacks⟩ := hreturns.1 ⟨_, hrun⟩
    refine ⟨(hok hrun).1 hslack, fun h hh ↦ ?_, fun i hi ↦ ⟨_, (isGreatest_kept htable (by omega) (by omega)).1,
      fun h hh ↦ ?_⟩, fun i hi hlast ↦ ⟨_, (isGreatest_kept htable (by omega) (by omega)).1, _,
      (isGreatest_kept htable (by omega) (by omega)).1, fun h hh ↦ ?_⟩⟩
    · exact (hheights.2 hh).trans_lt (by have := hheight.2; omega)
    · have := hheights.2 hh
      have := (hlatest i hi).2
      omega
    · have := hheights.2 hh
      have := (hslacks i (by omega)).2
      rw [if_neg hlast.ne, if_neg hi.ne'] at this
      omega
  · rintro ⟨hways, hfits⟩
    -- upper bounds from the kept values, lower bounds from the ways
    have hlatest (i : ℕ) (hi : i + 1 < opArray.length) : max - md i (opArray.length - 1) ≤ 2147483647 := by
      obtain ⟨t₂, ht₂, hle⟩ := hfits.latest i hi
      have := (isGreatest_kept htable (by omega) (by omega)).2 ht₂
      have := hle max hheights.1
      omega
    have hslack (i : ℕ) (hi : 0 < i) (hlast : i + 1 < opArray.length) :
        FitsInt (max - md i (opArray.length - 1) - md 0 i) := by
      obtain ⟨t₁, ht₁, t₂, ht₂, hle⟩ := hfits.slack i hi hlast
      have := (isGreatest_kept htable (by omega) (by omega)).2 ht₁
      have := (isGreatest_kept htable (by omega) (by omega)).2 ht₂
      have := hle max hheights.1
      refine ⟨?_, by omega⟩
      rcases le_or_gt (md 0 i + md i (opArray.length - 1)) 0 with hsum | hsum
      · omega
      · obtain ⟨j, hj, hlt, hsum⟩ := (waysKept_iff htable).2 hways i hi hlast hsum
        have := hrow j hj hlt
        omega
    have hheight := hfits.height max hheights.1
    obtain ⟨⟨ops', h⟩, hrun⟩ : ∃ r, computeSlackTime md ops = .ok r := by
      refine hreturns.2 ⟨⟨by omega, by omega⟩, fun i hi ↦ ⟨?_, hlatest i hi⟩, fun i hi ↦ ?_⟩
      · have := (hbounds (show i < opArray.length by omega) (show opArray.length - 1 < opArray.length by omega)).2
        omega
      · rcases Nat.eq_zero_or_pos i with rfl | hi₀
        · rw [if_pos rfl, sub_zero]
          split_ifs with hone
          · exact ⟨by omega, by omega⟩
          · have := hrow (opArray.length - 1) (by omega) (by omega)
            exact ⟨by omega, hlatest 0 (by omega)⟩
        · rw [if_neg hi₀.ne']
          split_ifs with hlast
          · obtain rfl : i = opArray.length - 1 := by omega
            have := hrow _ hi₀ hi
            exact ⟨by omega, hlatest 0 (by omega)⟩
          · exact hslack i hi₀ (by omega)
    exact ⟨ops', h, hrun, (hok hrun).2 hways⟩

/-- With every total above `NEGATIVE_INFINITY` the table loses no way: the longest way to the stop node
is at least the way through any operation. -/
theorem waysKept_of_total (hrel : Related cb opArray ii)
    (hcycle : ¬PositiveCycle cb opArray ii)
    (hkeep : ∀ i j t, Total (DepEdge cb opArray ii) i j t → negativeInfinity < t) :
    WaysKept cb opArray ii := by
  have hcycle' : ∀ i t, Total (DepEdge cb opArray ii) i i t → t ≤ 0 :=
    fun i t ht ↦ not_lt.1 fun h ↦ hcycle ⟨i, t, ht, h⟩
  -- an entry is at most the total of some path
  have hpath {i j : ℕ} {t : ℤ} (hij : ∃ t, Total (DepEdge cb opArray ii) i j t)
      (ht : t ∈ kept cb opArray ii i j) : ∃ s, t ≤ s ∧ Total (DepEdge cb opArray ii) i j s := by
    rcases ht with rfl | ht
    · obtain ⟨s, hs⟩ := hij
      exact ⟨s, (hkeep i j s hs).le, hs⟩
    · exact ⟨t, le_rfl, ht.total⟩
  intro i hi hlast t₁ ht₁ t₂ ht₂ _
  obtain ⟨hfrom, hto⟩ := hrel i hi hlast
  obtain ⟨s₁, hle₁, hs₁⟩ := hpath hfrom ht₁
  obtain ⟨s₂, hle₂, hs₂⟩ := hpath hto ht₂
  obtain ⟨g, hg, hjoined⟩ :=
    exists_isGreatest_total hcycle' depEdge_range finite_depEdge (hs₁.trans hs₂)
  refine ⟨opArray.length - 1, by omega, by omega, g, .inr (hjoined.imp hkeep), ?_⟩
  exact (add_le_add hle₁ hle₂).trans (hg.2 (hs₁.trans hs₂))

end Slack

/-! ### A way that is lost -/

/-- The dependences of a body: where from and to, `min_delay` and `omega`. -/
abbrev DepList := List (ℕ × ℕ × ℤ × ℤ)

/-- The body with these dependences. -/
def bodyCb (deps : DepList) : Cb where
  ii := 1
  moduloResources := true
  testOnlyOneAlt := false
  slackLoadsForMiss := false
  dep k :=
    let d := deps.getD k (0, 0, 0, 0)
    ⟨d.1, d.2.1, d.2.2.1, d.2.2.2, false, true, true, false⟩
  oper i := {
    actions := [⟨[], (List.range deps.length).filter fun k ↦ (deps.getD k (0, 0, 0, 0)).1 = i⟩]
    load := false
    lateTime := none
    ignore := false }

/-- The serial list of a body of `n` operations, with its start and stop nodes. -/
def bodyOps (n : ℕ) : List PrioOper :=
  (List.range (n + 2)).map fun i ↦
    ⟨i = 0, i = n + 1, false, false, false, some ⟨false, 0, 0, 0, 0⟩⟩

theorem bodyOps_isLoopBody (n : ℕ) : IsLoopBody (bodyOps n) := by
  refine ⟨fun i o h ↦ ?_, fun i o h ↦ ?_, fun o ho ↦ ?_⟩
  · obtain ⟨hi, rfl⟩ := List.getElem?_eq_some_iff.1 h
    simp [bodyOps]
  · obtain ⟨hi, rfl⟩ := List.getElem?_eq_some_iff.1 h
    simp [bodyOps]
  · obtain ⟨i, -, rfl⟩ := List.mem_map.1 ho
    exact Option.some_ne_none _

/-- Two operations, each 3 cycles after the one before, and the first after the second's result of the
iteration before. -/
def ringDeps : DepList := [(0, 1, 0, 0), (0, 2, 0, 0), (1, 3, 0, 0), (2, 3, 0, 0), (1, 2, 3, 0), (2, 1, 3, 1)]

theorem exists_buildMinDist {cb : Cb} {opArray : List ℕ} {ii : ℤ}
    (h : Prod.fst <$> buildMinDist cb opArray ii = .ok 0) : ∃ md, buildMinDist cb opArray ii = .ok (0, md) := by
  obtain ⟨⟨ret, md⟩, hr, rfl⟩ := Run.map_eq_ok.1 h
  exact ⟨md, hr⟩

theorem exists_slackTimes {r : Run (ℤ × List PrioOper)} (h : Prod.fst <$> r = .ok 0) :
    ∃ ops', r = .ok (0, ops') := by
  obtain ⟨⟨ret, ops'⟩, hr, rfl⟩ := Run.map_eq_ok.1 h
  exact ⟨ops', hr⟩

theorem slackTimes_nonneg_iff_ring :
    (∃ ops', slackTimes (bodyCb ringDeps) (List.range 4) 6 (bodyOps 2) = .ok (0, ops') ∧ SlackOk ops') ↔
      WaysKept (bodyCb ringDeps) (List.range 4) 6 ∧ HeightsFit (bodyCb ringDeps) (List.range 4) 6 := by
  obtain ⟨md, hdist⟩ : ∃ md, buildMinDist (bodyCb ringDeps) (List.range 4) 6 = .ok (0, md) :=
    exists_buildMinDist (by decide +kernel)
  exact slackTimes_nonneg_iff (by decide) (bodyOps_isLoopBody 2) hdist

/-- Operations 4, 6, 3, 1, 2, 7 and 5 form a chain, with two dependences that the next iteration meets. -/
def lossyDeps : DepList :=
  (List.range 7).flatMap (fun i ↦ [(0, i + 1, 0, 0), (i + 1, 8, 0, 0)]) ++
    [(4, 6, 30000, 0), (6, 3, 30000, 0), (3, 1, 0, 1), (1, 2, 0, 1), (2, 7, 20001, 0), (7, 5, 20000, 0)]

/-- At an interval of 20000 the table holds 40000 from the start node to operation 1 and 20001 from
there to the stop node, but not 60001 from start to stop: on the way to this the total from 3 to 2 would
be -40000. The divisor is 0. -/
theorem not_slackOk_lossy : Related (bodyCb lossyDeps) (List.range 9) 20000 ∧
    ∃ ops', slackTimes (bodyCb lossyDeps) (List.range 9) 20000 (bodyOps 7) = .ok (0, ops') ∧
      ¬SlackOk ops' ∧ computeStaticPriorities true ops' = .error .overflow := by
  constructor
  · intro i hi hlast
    replace hlast : i < 8 := by rw [List.length_range] at hlast; omega
    have hfrom : DepEdge (bodyCb lossyDeps) (List.range 9) 20000 0 i 0 :=
      ⟨by decide, by rw [List.length_range]; omega, _, List.mem_singleton_self _, 2 * (i - 1),
        by interval_cases i <;> decide, by interval_cases i <;> rfl, rfl,
        by interval_cases i <;> rfl⟩
    have hto : DepEdge (bodyCb lossyDeps) (List.range 9) 20000 i 8 0 :=
      ⟨by rw [List.length_range]; omega, by decide, _, List.mem_singleton_self _, 2 * (i - 1) + 1,
        by simp only [List.getElem_range]; interval_cases i <;> decide, by interval_cases i <;> rfl, rfl,
        by interval_cases i <;> rfl⟩
    exact ⟨⟨0, .edge hfrom⟩, 0, .edge hto⟩
  · obtain ⟨ops', hrun⟩ : ∃ ops', slackTimes (bodyCb lossyDeps) (List.range 9) 20000 (bodyOps 7) =
        .ok (0, ops') := exists_slackTimes (by decide +kernel)
    have hslack : (slackTimes (bodyCb lossyDeps) (List.range 9) 20000 (bodyOps 7)).map (fun r ↦
        r.2.all fun o ↦ o.info.all fun info ↦ decide (1 + info.slack ≠ 0)) = .ok false := by decide +kernel
    have hprio : (slackTimes (bodyCb lossyDeps) (List.range 9) 20000 (bodyOps 7) >>= fun r ↦
        computeStaticPriorities true r.2) = .error .overflow := by decide +kernel
    rw [hrun, Run.ok_bind] at hprio
    rw [hrun] at hslack
    refine ⟨ops', hrun, fun h ↦ absurd (Except.ok.inj hslack) ?_, hprio⟩
    rw [Bool.not_eq_false, List.all_eq_true]
    intro o ho
    rw [Option.all_eq_true]
    intro info hinfo
    exact decide_eq_true (h o ho info hinfo).2

end OpenImpact.Softpipe
