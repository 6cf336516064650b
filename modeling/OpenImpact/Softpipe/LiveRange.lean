import OpenImpact.Library.CExpr
import Mathlib.Data.Set.Insert

/-!
# Live ranges of loop variants

The part of `l_mve.c` that both renaming schemes share. A live range is measured from the definition
of its variant to the last access, in the cycles of one iteration and those that follow it.
-/

namespace OpenImpact.Softpipe

/-- The kinds of registers, `L_CTYPE_...`. -/
inductive Ctype where
  | integer
  | float
  | double
  | predicate
  deriving DecidableEq, Repr

/-- A register operand. -/
structure Operand where
  r : ℤ
  ctype : Ctype
  deriving DecidableEq, Repr

/-- `Lpipe_LRInfo`. The operand, `id`, `isRegister` and `isMacro` are those of its `rinfo`. -/
structure LRInfo where
  id : ℕ
  operand : Operand
  isRegister : Bool
  isMacro : Bool
  lifetime : ℤ
  liveIn : Bool
  liveInDefTime : ℤ
  firstDefTime : ℤ
  firstDefSlot : ℤ
  lastAccessTime : ℤ
  lastAccessSlot : ℤ
  useAfterDefSlot : Bool
  numNames : ℤ
  names : List Operand
  deriving DecidableEq, Repr

/-- The sink of a flow dependence. `exit` marks the implicit use of the loop-back branch. -/
structure Use where
  sinkTime : ℤ
  sinkSlot : ℤ
  omega : ℤ
  exit : Bool
  deriving DecidableEq, Repr

/-- A register that the loop body defines once, with the sinks of its flow dependences. -/
structure Variant where
  id : ℕ
  operand : Operand
  isRegister : Bool
  isMacro : Bool
  defTime : ℤ
  defSlot : ℤ
  uses : List Use
  deriving DecidableEq, Repr

/-- `Lpipe_MVEInfo`. -/
structure MVEInfo where
  lifetime : ℤ
  stageLifetimeIncr : Bool
  deriving DecidableEq, Repr

/-! ### The source's functions -/

/-- `Lpipe_create_live_range_info` for a variant with one definition. -/
def createLiveRangeInfo (v : Variant) : LRInfo where
  id := v.id
  operand := v.operand
  isRegister := v.isRegister
  isMacro := v.isMacro
  lifetime := 0
  liveIn := false
  liveInDefTime := -1
  firstDefTime := v.defTime
  firstDefSlot := v.defSlot
  lastAccessTime := v.defTime
  lastAccessSlot := v.defSlot
  useAfterDefSlot := false
  numNames := 0
  names := []

/-- The first half of `Lpipe_update_lr_last_acc`. -/
def updateLastAcc (lr : LRInfo) (issueTime issueSlot : ℤ) : LRInfo :=
  if issueTime > lr.lastAccessTime then
    { lr with lastAccessTime := issueTime, lastAccessSlot := issueSlot }
  else if issueTime = lr.lastAccessTime then
    if issueSlot > lr.lastAccessSlot then { lr with lastAccessSlot := issueSlot } else lr
  else lr

/-- The entries that `Lpipe_update_lr_last_acc` derives from the last access. -/
def deriveLifetime (lr : LRInfo) (ii : ℤ) : LRInfo :=
  { lr with
    lifetime := lr.lastAccessTime - lr.firstDefTime
    useAfterDefSlot := (lr.lastAccessTime - lr.firstDefTime).tmod ii = 0 &&
      decide (lr.lastAccessSlot > lr.firstDefSlot) }

/-- `Lpipe_update_lr_last_acc`. -/
def updateLrLastAcc (lr : LRInfo) (issueTime issueSlot ii : ℤ) : LRInfo :=
  deriveLifetime (updateLastAcc lr issueTime issueSlot) ii

/-- `use_lifetime`. The destination of the only definition has lifetime 0. With rotating registers
the loop-back branch reads one cycle later. -/
def Variant.useLifetime (v : Variant) (rotating : Bool) (ii : ℤ) (u : Use) : ℤ :=
  u.sinkTime - v.defTime + 0 + ii * u.omega + if u.exit && rotating then 1 else 0

/-- The live range of a variant after `Lpipe_construct_lr` has seen its flow dependences. -/
def Variant.constructLr (v : Variant) (rotating : Bool) (ii : ℤ) : LRInfo :=
  v.uses.foldl
    (fun lr u ↦ updateLrLastAcc lr (lr.firstDefTime + v.useLifetime rotating ii u) u.sinkSlot ii)
    (createLiveRangeInfo v)

/-- What `Lpipe_construct_lr` records of a source operand. -/
def Variant.mveInfo (v : Variant) (rotating : Bool) (ii : ℤ) (u : Use) : MVEInfo where
  lifetime := v.useLifetime rotating ii u
  stageLifetimeIncr :=
    if v.useLifetime rotating ii u ≥ 0 then
      decide (u.sinkTime.tmod ii < v.defTime.tmod ii)
    else
      decide (u.sinkTime.tmod ii > v.defTime.tmod ii)

/-! ### Cycles and slots -/

/-- A cycle and a slot in it come before another. -/
def Before (p q : ℤ × ℤ) : Prop :=
  p.1 < q.1 ∨ p.1 = q.1 ∧ p.2 < q.2

/-- Where the definition of iteration `i` is issued. -/
def Variant.defAt (v : Variant) (ii i : ℤ) : ℤ × ℤ :=
  (v.defTime + i * ii, v.defSlot)

/-- Where a use of iteration `i` is issued. -/
def Use.issuedAt (u : Use) (ii i : ℤ) : ℤ × ℤ :=
  (u.sinkTime + i * ii, u.sinkSlot)

/-- The cycles of a modulo schedule of `stages` stages, in which no use precedes its definition. -/
structure Variant.Scheduled (v : Variant) (stages ii : ℤ) : Prop where
  def_nonneg : 0 ≤ v.defTime
  def_lt : v.defTime < stages * ii
  sink_nonneg : ∀ u ∈ v.uses, 0 ≤ u.sinkTime
  sink_lt : ∀ u ∈ v.uses, u.sinkTime < stages * ii
  omega_nonneg : ∀ u ∈ v.uses, 0 ≤ u.omega
  before : ∀ u ∈ v.uses, Before (v.defAt ii 0) (u.issuedAt ii u.omega)

/-! ### The last access -/

instance (p q : ℤ × ℤ) : Decidable (Before p q) := inferInstanceAs (Decidable (_ ∨ _ ∧ _))

theorem Before.trans {p q r : ℤ × ℤ} (h : Before p q) (h' : Before q r) : Before p r := by
  simp only [Before] at *
  omega

/-- The later one of two accesses. -/
def later (p q : ℤ × ℤ) : ℤ × ℤ :=
  if Before p q then q else p

/-- `p` is an access of `A` and none of `A` is later. -/
structure IsLast (A : Set (ℤ × ℤ)) (p : ℤ × ℤ) : Prop where
  mem : p ∈ A
  le : ∀ q ∈ A, ¬Before p q

theorem IsLast.insert {A : Set (ℤ × ℤ)} {p : ℤ × ℤ} (h : IsLast A p) (q : ℤ × ℤ) :
    IsLast (insert q A) (later p q) := by
  rw [later]
  split_ifs with hq
  · refine ⟨Set.mem_insert q A, ?_⟩
    rintro r (rfl | hr)
    · simp [Before]
    · exact fun hqr ↦ h.le r hr (hq.trans hqr)
  · refine ⟨Set.mem_insert_of_mem q h.mem, ?_⟩
    rintro r (rfl | hr)
    · exact hq
    · exact h.le r hr

/-- What a live range has from its variant. -/
structure Describes (lr : LRInfo) (v : Variant) : Prop where
  id_eq : lr.id = v.id
  operand_eq : lr.operand = v.operand
  isRegister_eq : lr.isRegister = v.isRegister
  isMacro_eq : lr.isMacro = v.isMacro
  liveIn_eq : lr.liveIn = false
  time_eq : lr.firstDefTime = v.defTime
  slot_eq : lr.firstDefSlot = v.defSlot
  numNames_eq : lr.numNames = 0
  names_eq : lr.names = []

/-- The live range of a variant with the accesses `A`. -/
structure Tracks (v : Variant) (ii : ℤ) (A : Set (ℤ × ℤ)) (lr : LRInfo) : Prop where
  describes : Describes lr v
  last : IsLast A (lr.lastAccessTime, lr.lastAccessSlot)
  lifetime_eq : lr.lifetime = lr.lastAccessTime - v.defTime
  after_iff : lr.useAfterDefSlot = true ↔
    lr.lifetime.tmod ii = 0 ∧ v.defSlot < lr.lastAccessSlot

variable {v : Variant} {rotating : Bool} {ii : ℤ} {A : Set (ℤ × ℤ)} {lr : LRInfo}

theorem tracks_create : Tracks v ii {(v.defTime, v.defSlot)} (createLiveRangeInfo v) where
  describes := ⟨rfl, rfl, rfl, rfl, rfl, rfl, rfl, rfl, rfl⟩
  last := ⟨rfl, by simp [createLiveRangeInfo, Before]⟩
  lifetime_eq := (sub_self _).symm
  after_iff := by simp [createLiveRangeInfo]

theorem updateLastAcc_eq (lr : LRInfo) (t s : ℤ) :
    updateLastAcc lr t s = { lr with
      lastAccessTime := (later (lr.lastAccessTime, lr.lastAccessSlot) (t, s)).1
      lastAccessSlot := (later (lr.lastAccessTime, lr.lastAccessSlot) (t, s)).2 } := by
  rw [updateLastAcc, later]
  by_cases hb : Before (lr.lastAccessTime, lr.lastAccessSlot) (t, s)
  · rw [if_pos hb]
    rcases hb with hb | ⟨hb, hb'⟩
    · rw [if_pos hb]
    · simp only at hb hb'
      rw [if_neg (by omega), if_pos hb.symm, if_pos hb', ← hb]
  · rw [if_neg hb]
    simp only [Before, not_or, not_and, not_lt] at hb
    split_ifs
    · omega
    · omega
    · rfl
    · rfl

/-- One flow dependence. -/
theorem Tracks.update (h : Tracks v ii A lr) (t s : ℤ) :
    Tracks v ii (insert (t, s) A) (updateLrLastAcc lr t s ii) := by
  obtain ⟨hid, hop, hreg, hwide, hlive, htime, hslot, hnum, hnames⟩ := h.describes
  rw [updateLrLastAcc, updateLastAcc_eq]
  exact {
    describes := ⟨hid, hop, hreg, hwide, hlive, htime, hslot, hnum, hnames⟩
    last := h.last.insert (t, s)
    lifetime_eq := by simp only [deriveLifetime, htime]
    after_iff := by simp [deriveLifetime, hslot] }

/-- The accesses of a variant, in cycles from its definition's iteration on. -/
def Variant.accesses (v : Variant) (rotating : Bool) (ii : ℤ) : Set (ℤ × ℤ) :=
  {p | p = (v.defTime, v.defSlot) ∨
    ∃ u ∈ v.uses, p = (v.defTime + v.useLifetime rotating ii u, u.sinkSlot)}

theorem useLifetime_mem_accesses {u : Use} (hu : u ∈ v.uses) :
    (v.defTime + v.useLifetime rotating ii u, u.sinkSlot) ∈ v.accesses rotating ii :=
  Or.inr ⟨u, hu, rfl⟩

theorem tracks_constructLr (v : Variant) (rotating : Bool) (ii : ℤ) :
    Tracks v ii (v.accesses rotating ii) (v.constructLr rotating ii) := by
  have hfold : ∀ (us : List Use) (A : Set (ℤ × ℤ)) (lr : LRInfo), Tracks v ii A lr →
      Tracks v ii
        {p | p ∈ A ∨ ∃ u ∈ us, p = (v.defTime + v.useLifetime rotating ii u, u.sinkSlot)}
        (us.foldl (fun lr u ↦
          updateLrLastAcc lr (lr.firstDefTime + v.useLifetime rotating ii u) u.sinkSlot ii) lr) := by
    intro us
    induction us with
    | nil => intro A lr h; simpa using h
    | cons u us ih =>
      intro A lr h
      have hrest := ih _ _ (h.update (lr.firstDefTime + v.useLifetime rotating ii u) u.sinkSlot)
      rw [h.describes.time_eq] at hrest
      rw [List.foldl_cons, h.describes.time_eq]
      convert hrest using 1
      ext p
      simp only [Set.mem_ofPred_eq, Set.mem_insert_iff, List.mem_cons, exists_eq_or_imp]
      tauto
  exact hfold v.uses _ _ tracks_create

end OpenImpact.Softpipe
