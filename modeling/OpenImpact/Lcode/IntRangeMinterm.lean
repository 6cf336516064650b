import OpenImpact.Lcode.IntRangeInsert

/-!
# Range nodes are minterms

The nodes of a range, read as sets of register values, form a minterm cover of the truth sets of the
conditions added to it (`Foundation.IsMintermCover`). A condition adds a short list of intervals,
`condIntervals`, whose union is its truth set (`covered_condIntervals_iff`); folding the conditions
keeps the cover (`formDisjunctivesAll_spec`).

`formDisjunctivesAll_minterms` is the main result: any sequence of comparisons with a constant, of
either signedness and with the constant on either side, leaves disjoint nodes in order, which
together have the values on which a comparison is true, and on each of which every comparison is
constant. It rests on `addDisjNodes_spec`, which says what one new interval does to the list of
nodes (`Foundation.RefinesAlong`). The widths are 32 and 64, as `IR_new_int_range` takes no others,
and the arithmetic is that of `unsigned long long`.
-/

namespace OpenImpact.IR

open Foundation

/-! ### The intervals of a condition -/

/-- Adding several intervals in order. -/
def addAll (range : Range) : List (ℕ × ℕ) → Run Range
  | [] => return range
  | I :: rest => do
    let range ← addDisjNodes range I.1 I.2
    addAll range rest

@[simp] theorem addAll_singleton (range : Range) (I : ℕ × ℕ) :
    addAll range [I] = addDisjNodes range I.1 I.2 := by
  rw [addAll]
  cases addDisjNodes range I.1 I.2 <;> rfl

theorem addAll_pair (range : Range) (I J : ℕ × ℕ) :
    addAll range [I, J] = (do
      let range ← addDisjNodes range I.1 I.2
      addDisjNodes range J.1 J.2) := by
  rw [addAll]
  exact Run.bind_congr fun mid _ ↦ addAll_singleton mid J

theorem addAll_append (range : Range) (l₁ l₂ : List (ℕ × ℕ)) :
    addAll range (l₁ ++ l₂) = (do
      let range ← addAll range l₁
      addAll range l₂) := by
  induction l₁ generalizing range with
  | nil => rfl
  | cons I l ih =>
    rw [List.cons_append, addAll, addAll]
    cases addDisjNodes range I.1 I.2 with
    | error e => rfl
    | ok range' => exact ih range'

/-- The values below `c`. -/
def below (c : ℕ) : List (ℕ × ℕ) := if c ≠ 0 then [(0, c - 1)] else []

/-- The values above `c` in the width. -/
def above (bits c : ℕ) : List (ℕ × ℕ) :=
  if c ≠ rangeMax bits then [(c + 1, rangeMax bits)] else []

/-- The intervals the switch adds, in its order. -/
def condIntervals (bits : ℕ) (compareType : ITuint8) (c : ℕ) : List (ℕ × ℕ) :=
  let max := rangeMax bits
  let plus := rangePlus bits
  let minus := rangeMinus bits
  if compareType = lirEQ then [(c, c)]
  else if compareType = lirNE then below c ++ above bits c
  else if compareType = lirGT then
    if c = plus then [] else if c < plus then [(c + 1, plus)] else above bits c ++ [(0, plus)]
  else if compareType = lirGE then
    if c ≤ plus then [(c, plus)] else [(c, max), (0, plus)]
  else if compareType = lirLT then
    if c = minus then [] else if c ≤ plus then below c ++ [(minus, max)] else [(minus, c - 1)]
  else if compareType = lirLE then
    if c ≤ plus then [(0, c), (minus, max)] else [(minus, c)]
  else if compareType = lirGTU then above bits c
  else if compareType = lirGEU then [(c, max)]
  else if compareType = lirLTU then below c
  else if compareType = lirLEU then [(0, c)]
  else []

/-- The completers the switch has a case for. -/
def switchCases : List ITuint8 :=
  [lirEQ, lirNE, lirGT, lirGE, lirLT, lirLE, lirGTU, lirGEU, lirLTU, lirLEU]

/-- What is inserted for a value that is to be below a constant. -/
theorem addBelow_eq (range : Range) (c : ℕ) : addBelow range c = addAll range (below c) := by
  by_cases hc : c = 0
  · simp [addBelow, below, hc, addAll]
  · rw [addBelow, if_pos hc, dec_of_pos (by omega), below, if_pos hc, addAll_singleton]
    rfl

/-- And for one that is to be above it. -/
theorem addAbove_eq {range : Range} {c : ℕ} (hc : c ≤ rangeMax range.bits) :
    addAbove range c = addAll range (above range.bits c) := by
  by_cases hmax : c = rangeMax range.bits
  · simp [addAbove, above, hmax, addAll]
  · rw [addAbove, if_pos hmax, inc_of_lt (by omega), above, if_pos hmax, addAll_singleton]
    rfl

/-- The largest positive value is not the last one. -/
theorem rangePlus_lt_rangeMax {bits : ℕ} (h : bits = 32 ∨ bits = 64) :
    rangePlus bits < rangeMax bits := by
  rcases h with rfl | rfl <;> decide

/-- The smallest negative value comes right behind the largest positive one. -/
theorem rangeMinus_eq {bits : ℕ} (h : bits = 32 ∨ bits = 64) :
    rangeMinus bits = rangePlus bits + 1 := by
  rcases h with rfl | rfl <;> decide

/-- Inserting an interval keeps the width. -/
theorem addDisjNodes_bits {range range' : Range} {lower upper : ℕ}
    (h : addDisjNodes range lower upper = .ok range') : range'.bits = range.bits := by
  rw [addDisjNodes] at h
  split at h
  · cases h
  split at h <;> obtain ⟨_, -, h⟩ := Run.bind_eq_ok.1 h <;> cases h <;> rfl

/-- So does inserting several. -/
theorem addAll_bits {range range' : Range} {Is : List (ℕ × ℕ)}
    (h : addAll range Is = .ok range') : range'.bits = range.bits := by
  induction Is generalizing range with
  | nil =>
    cases h
    rfl
  | cons I rest ih =>
    obtain ⟨mid, hmid, h⟩ := Run.bind_eq_ok.1 h
    exact (ih h).trans (addDisjNodes_bits hmid)

/-- **The switch adds the intervals of the condition**, in order. -/
theorem formDisjunctivesSwitch_eq {range : Range} {compareType : ITuint8} {c : ℕ}
    (hct : compareType ∈ switchCases) (hc : c ≤ rangeMax range.bits) :
    formDisjunctivesSwitch range compareType c =
      addAll range (condIntervals range.bits compareType c) := by
  have hplus := rangePlus_lt_rangeMax range.bits_eq
  have hminus := rangeMinus_eq range.bits_eq
  simp only [switchCases, List.mem_cons, List.not_mem_nil, or_false] at hct
  rcases hct with rfl | rfl | rfl | rfl | rfl | rfl | rfl | rfl | rfl | rfl <;>
    simp +decide only [formDisjunctivesSwitch, condIntervals, if_true, if_false]
  · rw [addAll_singleton]
  · rw [addAll_append, addBelow_eq]
    refine Run.bind_congr fun mid hmid ↦ ?_
    have hbits := addAll_bits hmid
    rw [addAbove_eq (hbits ▸ hc), hbits]
  · split_ifs with heq hlt
    · rfl
    · rw [inc_of_lt (by omega), addAll_singleton]
      rfl
    · rw [addAll_append, addAbove_eq hc]
      simp
  · split_ifs with hle
    · rw [addAll_singleton]
    · rw [addAll_pair]
  · split_ifs with heq hle
    · rfl
    · rw [addAll_append, addBelow_eq]
      simp
    · rw [dec_of_pos (by omega), addAll_singleton]
      rfl
  · split_ifs with hle
    · rw [addAll_pair]
    · rw [addAll_singleton]
  · exact addAbove_eq hc
  · rw [addAll_singleton]
  · exact addBelow_eq range c
  · rw [addAll_singleton]

/-- The intervals are non-empty, inside the width, and disjoint from one another. -/
theorem condIntervals_valid {bits : ℕ} (hbits : bits = 32 ∨ bits = 64) {compareType : ITuint8}
    {c : ℕ} (hct : compareType ∈ switchCases) (hc : c ≤ rangeMax bits) :
    (∀ I ∈ condIntervals bits compareType c, I.1 ≤ I.2 ∧ I.2 ≤ rangeMax bits) ∧
      (condIntervals bits compareType c).Pairwise fun I J ↦ I.2 < J.1 ∨ J.2 < I.1 := by
  have hplus := rangePlus_lt_rangeMax hbits
  have hminus := rangeMinus_eq hbits
  simp only [switchCases, List.mem_cons, List.not_mem_nil, or_false] at hct
  rcases hct with rfl | rfl | rfl | rfl | rfl | rfl | rfl | rfl | rfl | rfl <;>
    simp +decide only [condIntervals, below, above, if_true, if_false] <;>
    (try split_ifs) <;> simp <;> omega

/-! ### The intervals are the truth set -/

/-- The relation a case of the switch stands for. -/
def lirHolds (compareType : ITuint8) {w : ℕ} (a b : BitVec w) : Bool :=
  if compareType = lirEQ then a == b
  else if compareType = lirNE then a != b
  else if compareType = lirGT then b.slt a
  else if compareType = lirGE then b.sle a
  else if compareType = lirLT then a.slt b
  else if compareType = lirLE then a.sle b
  else if compareType = lirGTU then b.ult a
  else if compareType = lirGEU then b.ule a
  else if compareType = lirLTU then a.ult b
  else if compareType = lirLEU then a.ule b
  else false

/-- The normalized type stands for the comparison with the register on the left, wherever the
constant was. -/
theorem lirHolds_compareTypeOf {oper : Oper} (hcom : oper.com1 ∈ orderCompleters)
    (constFirst : Bool) {w : ℕ} (a b : BitVec w) :
    lirHolds (compareTypeOf oper constFirst) a b =
      Oper.completerHolds (isCtypeSignedDirect oper.com0) oper.com1
        (if constFirst then b else a) (if constFirst then a else b) := by
  obtain ⟨opc, com0, com1, src0, src1⟩ := oper
  have heq : (a == b) = (b == a) := Bool.beq_comm
  have hne : (a != b) = (b != a) := congrArg not heq
  simp only [orderCompleters, List.mem_cons, List.not_mem_nil, or_false] at hcom
  cases constFirst <;> cases hs : isCtypeSignedDirect com0 <;>
    rcases hcom with rfl | rfl | rfl | rfl | rfl | rfl <;>
    simp +decide [lirHolds, compareTypeOf, Oper.completerHolds, Oper.inequalityCompare, hs, heq, hne]

/-- A value one of the intervals covers. -/
def Covered (Is : List (ℕ × ℕ)) (v : ℕ) : Prop := ∃ I ∈ Is, I.1 ≤ v ∧ v ≤ I.2

@[simp] theorem covered_nil (v : ℕ) : Covered [] v ↔ False := by simp [Covered]

@[simp] theorem covered_cons (I : ℕ × ℕ) (Is : List (ℕ × ℕ)) (v : ℕ) :
    Covered (I :: Is) v ↔ (I.1 ≤ v ∧ v ≤ I.2) ∨ Covered Is v := by
  simp only [Covered, List.mem_cons, or_and_right, exists_or, exists_eq_left]

@[simp] theorem covered_append (Is Js : List (ℕ × ℕ)) (v : ℕ) :
    Covered (Is ++ Js) v ↔ Covered Is v ∨ Covered Js v := by
  simp only [Covered, List.mem_append, or_and_right, exists_or]

/-- The values below a constant. -/
@[simp] theorem covered_below (c v : ℕ) : Covered (below c) v ↔ v < c := by
  rw [below]
  split_ifs with h <;> simp <;> omega

/-- Those above it. -/
@[simp] theorem covered_above (bits c v : ℕ) :
    Covered (above bits c) v ↔ c ≠ rangeMax bits ∧ c < v ∧ v ≤ rangeMax bits := by
  rw [above]
  split_ifs with h
  · simp [h, Nat.succ_le_iff]
  · simp [not_not.1 h]

/-- Each case of the switch adds exactly the values it stands for. -/
theorem covered_condIntervals_iff {bits : ℕ} (hbits : bits = 32 ∨ bits = 64)
    {compareType : ITuint8} (hct : compareType ∈ switchCases) (a b : BitVec bits) :
    Covered (condIntervals bits compareType b.toNat) a.toNat ↔
      lirHolds compareType a b = true := by
  have ha := a.isLt
  have hb := b.isLt
  simp only [switchCases, List.mem_cons, List.not_mem_nil, or_false] at hct
  rcases hbits with rfl | rfl <;>
  rcases hct with rfl | rfl | rfl | rfl | rfl | rfl | rfl | rfl | rfl | rfl <;>
    simp +decide only [condIntervals, lirHolds, if_true, if_false, BitVec.slt_iff_toInt_lt,
      BitVec.sle_iff_toInt_le, BitVec.toInt_eq_toNat_cond, BitVec.ult_iff_lt, BitVec.ule_iff_le,
      BitVec.lt_def, BitVec.le_def, beq_iff_eq, bne_iff_ne, ne_eq, BitVec.toNat_eq] <;>
    (try split_ifs) <;> simp [rangeMax, rangePlus, rangeMinus] at * <;> omega

/-- The intervals of a comparison. -/
def operIntervals (bits : ℕ) (oper : Oper) : List (ℕ × ℕ) :=
  match oper.src0, oper.src1 with
  | .var _, .intImmed i =>
    condIntervals bits (compareTypeOf oper false) (compareConstOf bits i)
  | .intImmed i, .var _ =>
    condIntervals bits (compareTypeOf oper true) (compareConstOf bits i)
  | _, _ => []

/-- The constant of a comparison, cut to the width. -/
theorem compareConstOf_eq {bits : ℕ} (hbits : bits = 32 ∨ bits = 64) (i : BitVec 64) :
    compareConstOf bits i = (i.setWidth bits).toNat := by
  rw [BitVec.toNat_setWidth]
  rcases hbits with rfl | rfl
  · exact Nat.and_two_pow_sub_one_eq_mod i.toNat 32
  · exact (Nat.mod_eq_of_lt i.isLt).symm

/-- The loop meets only the cases of its `switch`. -/
theorem compareTypeOf_mem {oper : Oper} (hcom : oper.com1 ∈ orderCompleters) (constFirst : Bool) :
    compareTypeOf oper constFirst ∈ switchCases := by
  obtain ⟨opc, com0, com1, src0, src1⟩ := oper
  simp only [orderCompleters, List.mem_cons, List.not_mem_nil, or_false] at hcom
  cases constFirst <;> cases hs : isCtypeSignedDirect com0 <;>
    rcases hcom with rfl | rfl | rfl | rfl | rfl | rfl <;>
    simp +decide [compareTypeOf, Oper.inequalityCompare, hs]

/-- The two shapes a register-versus-constant comparison has. -/
theorem src_of_isRegConst {oper : Oper} (h : oper.isRegConst = true) :
    (∃ r i, oper.src0 = .var r ∧ oper.src1 = .intImmed i) ∨
      ∃ i r, oper.src0 = .intImmed i ∧ oper.src1 = .var r := by
  obtain ⟨opc, com0, com1, src0, src1⟩ := oper
  cases src0 <;> cases src1 <;> simp_all [Oper.isRegConst, Operand.isVariable, Operand.isIntConstant]

/-- A comparison of a register with a constant. -/
theorem isRegConst_of_compare {oper : Oper} (h : oper.IsRegConstIntCompare) :
    oper.isRegConst = true := by
  rcases h.1 with h | h <;> simp only [Oper.isRegConstPredCompare, Oper.isRegConstCondBr,
    Bool.and_eq_true] at h <;> exact h.2

section Comparison

variable {bits : ℕ} (hbits : bits = 32 ∨ bits = 64) {oper : Oper}
  (hoper : oper.IsRegConstIntCompare)

include hoper

/-- **A comparison adds its intervals.** -/
theorem formDisjunctives_eq (range : Range) :
    formDisjunctives range oper = addAll range (operIntervals range.bits oper) := by
  have hguard : (!oper.isRegConstPredCompare && !oper.isRegConstCondBr) = false := by
    rcases hoper.1 with h | h <;> simp [h]
  have hmax : ∀ i : BitVec 64, compareConstOf range.bits i ≤ rangeMax range.bits := fun i ↦ by
    rw [compareConstOf_eq range.bits_eq]
    exact Nat.le_sub_one_of_lt (BitVec.isLt _)
  rw [formDisjunctives, hguard, operIntervals, Oper.predCompareConstFirst,
    Oper.predCompareGetIntConst]
  rcases src_of_isRegConst (isRegConst_of_compare hoper) with ⟨r, i, h0, h1⟩ | ⟨i, r, h0, h1⟩
  · rw [h0, h1]
    exact formDisjunctivesSwitch_eq (compareTypeOf_mem hoper.2 false) (hmax i)
  · rw [h0, h1]
    exact formDisjunctivesSwitch_eq (compareTypeOf_mem hoper.2 true) (hmax i)

include hbits

/-- The intervals of a comparison are disjoint and within the width. -/
theorem operIntervals_valid :
    (∀ I ∈ operIntervals bits oper, I.1 ≤ I.2 ∧ I.2 ≤ rangeMax bits) ∧
      (operIntervals bits oper).Pairwise fun I J ↦ I.2 < J.1 ∨ J.2 < I.1 := by
  have hmax : ∀ i : BitVec 64, compareConstOf bits i ≤ rangeMax bits := fun i ↦ by
    rw [compareConstOf_eq hbits]
    exact Nat.le_sub_one_of_lt (BitVec.isLt _)
  rw [operIntervals]
  rcases src_of_isRegConst (isRegConst_of_compare hoper) with ⟨r, i, h0, h1⟩ | ⟨i, r, h0, h1⟩
  · rw [h0, h1]
    exact condIntervals_valid hbits (compareTypeOf_mem hoper.2 false) (hmax i)
  · rw [h0, h1]
    exact condIntervals_valid hbits (compareTypeOf_mem hoper.2 true) (hmax i)

/-- **The intervals of a comparison cover the values on which it is true.** -/
theorem covered_operIntervals_iff {v : ℕ} (hv : v ≤ rangeMax bits) :
    Covered (operIntervals bits oper) v ↔ oper.eval bits v = true := by
  have hval : (BitVec.ofNat bits v).toNat = v := by
    rw [BitVec.toNat_ofNat]
    refine Nat.mod_eq_of_lt (lt_of_le_of_lt hv ?_)
    exact Nat.sub_lt (Nat.two_pow_pos bits) Nat.one_pos
  have hcov : ∀ (constFirst : Bool) (i : BitVec 64),
      Covered (condIntervals bits (compareTypeOf oper constFirst) (compareConstOf bits i)) v ↔
        lirHolds (compareTypeOf oper constFirst) (BitVec.ofNat bits v) (i.setWidth bits) := by
    intro constFirst i
    rw [← covered_condIntervals_iff hbits (compareTypeOf_mem hoper.2 constFirst), hval,
      compareConstOf_eq hbits]
  rw [operIntervals, Oper.eval]
  rcases src_of_isRegConst (isRegConst_of_compare hoper) with ⟨r, i, h0, h1⟩ | ⟨i, r, h0, h1⟩
  · rw [h0, h1, hcov, lirHolds_compareTypeOf hoper.2]
    rfl
  · rw [h0, h1, hcov, lirHolds_compareTypeOf hoper.2]
    rfl

end Comparison

/-! ### Folding the conditions -/

/-- The sets a list of intervals denotes. -/
def intervalSets (Is : List (ℕ × ℕ)) : Set (Set ℕ) :=
  (fun I : ℕ × ℕ ↦ Set.Icc I.1 I.2) '' {I | I ∈ Is}

theorem intervalSets_cons (I : ℕ × ℕ) (Is : List (ℕ × ℕ)) :
    intervalSets (I :: Is) = insert (Set.Icc I.1 I.2) (intervalSets Is) := by
  ext S
  simp only [intervalSets, Set.mem_image, Set.mem_ofPred_eq, List.mem_cons, Set.mem_insert_iff,
    exists_eq_or_imp, eq_comm (a := S)]

@[simp] theorem intervalSets_nil : intervalSets [] = ∅ := by simp [intervalSets]

/-- The union of the intervals, as sets. -/
theorem mem_sUnion_intervalSets {Is : List (ℕ × ℕ)} {v : ℕ} :
    v ∈ ⋃₀ intervalSets Is ↔ Covered Is v := by
  simp only [intervalSets, Set.sUnion_image, Set.mem_iUnion, Set.mem_ofPred_eq, Set.mem_Icc,
    exists_prop, Covered]

/-- An empty list of nodes is well formed. -/
theorem Range.wf_of_nil {range : Range} (h : range.nodeList = []) : range.WF :=
  ⟨by simp [h, Increasing], by simp [h, Within]⟩

/-- It covers no set. -/
theorem isMintermCover_of_nil {range : Range} (h : range.nodeList = []) :
    IsMintermCover (cells range.nodeList) ∅ := by
  rw [h, cells_nil]
  exact isMintermCover_empty

/-- Adding valid intervals extends a minterm cover by them. -/
theorem addAll_spec {range : Range} (hwf : range.WF) {Is : List (ℕ × ℕ)}
    (hIs : ∀ I ∈ Is, I.1 ≤ I.2 ∧ I.2 ≤ rangeMax range.bits) {family : Set (Set ℕ)}
    (hcover : IsMintermCover (cells range.nodeList) family) :
    ∃ range', addAll range Is = .ok range' ∧ range'.bits = range.bits ∧ range'.WF ∧
      IsMintermCover (cells range'.nodeList) (intervalSets Is ∪ family) := by
  induction Is generalizing range family with
  | nil => exact ⟨range, rfl, rfl, hwf, by rwa [intervalSets_nil, Set.empty_union]⟩
  | cons I rest ih =>
    obtain ⟨hle, hmax⟩ := hIs I List.mem_cons_self
    obtain ⟨mid, hmid, hbits, hwfmid, href⟩ := addDisjNodes_spec hwf hle hmax
    obtain ⟨range', hrun, hbits', hwf', hcover'⟩ :=
      ih hwfmid (fun J hJ ↦ hbits ▸ hIs J (List.mem_cons_of_mem _ hJ)) (hcover.insert href)
    refine ⟨range', by rw [addAll, hmid]; exact hrun, hbits'.trans hbits, hwf', ?_⟩
    rwa [intervalSets_cons, Set.insert_union, ← Set.union_insert]

/-- The intervals of all comparisons. -/
def operFamily (bits : ℕ) (opers : List Oper) : Set (Set ℕ) :=
  {S | ∃ oper ∈ opers, S ∈ intervalSets (operIntervals bits oper)}

/-- The sets of one more comparison. -/
theorem operFamily_cons {bits : ℕ} (oper : Oper) (opers : List Oper) :
    operFamily bits (oper :: opers) =
      intervalSets (operIntervals bits oper) ∪ operFamily bits opers := by
  ext S
  simp [operFamily]

/-- **The fold.** The nodes become a minterm cover of the intervals of all comparisons. -/
theorem formDisjunctivesAll_spec {range : Range} (hwf : range.WF) {opers : List Oper}
    (hopers : ∀ oper ∈ opers, oper.IsRegConstIntCompare) {family : Set (Set ℕ)}
    (hcover : IsMintermCover (cells range.nodeList) family) :
    ∃ range', formDisjunctivesAll range opers = .ok range' ∧ range'.bits = range.bits ∧
      range'.WF ∧ IsMintermCover (cells range'.nodeList) (operFamily range.bits opers ∪ family) := by
  induction opers generalizing range family with
  | nil => exact ⟨range, rfl, rfl, hwf, by simpa [operFamily] using hcover⟩
  | cons oper rest ih =>
    have hoper := hopers oper List.mem_cons_self
    obtain ⟨mid, hmid, hbits, hwfmid, hcovermid⟩ :=
      addAll_spec hwf (operIntervals_valid range.bits_eq hoper).1 hcover
    obtain ⟨range', hrun, hbits', hwf', hcover'⟩ :=
      ih hwfmid (fun o ho ↦ hopers o (List.mem_cons_of_mem _ ho)) hcovermid
    refine ⟨range', ?_, hbits'.trans hbits, hwf', ?_⟩
    · rw [formDisjunctivesAll, formDisjunctives_eq hoper, hmid]
      exact hrun
    · rwa [hbits, ← Set.union_assoc, Set.union_comm (operFamily _ rest), ← operFamily_cons] at hcover'

/-! ### Exhaustive ranges -/

/-- The counter of the exhaustive loop does not overflow. -/
theorem exhaustiveLoop_lt (nodes : List Node) {next : ℕ} (h : next < 2 ^ 64) :
    (exhaustiveLoop next nodes).1 < 2 ^ 64 := by
  induction nodes generalizing next with
  | nil => exact h
  | cons n rest ih =>
    rw [exhaustiveLoop]
    split
    · exact h
    · exact ih (Nat.mod_lt _ (Nat.two_pow_pos 64))

/-- The exhaustiveness loop runs off the end at the width's size exactly when nothing from the next
value on is missed. -/
theorem exhaustiveLoop_spec {bits : ℕ} (hbits : bits ≤ 64) {nodes : List Node}
    (hinc : Increasing nodes) {next : ℕ} (hpos : 0 < next) (hnext : next ≤ 2 ^ bits)
    (hwithin : Within nodes next (rangeMax bits)) :
    (exhaustiveLoop (next % 2 ^ 64) nodes).1 % 2 ^ bits = 0 ∧
        (exhaustiveLoop (next % 2 ^ 64) nodes).2 = true ↔
      ∀ v, next ≤ v → v ≤ rangeMax bits → ∃ n ∈ nodes, v ∈ n.cell := by
  have hpow : 2 ^ bits ∣ 2 ^ 64 := Nat.pow_dvd_pow 2 hbits
  have hmax : rangeMax bits + 1 = 2 ^ bits := Nat.sub_add_cancel (Nat.two_pow_pos bits)
  induction nodes generalizing next with
  | nil =>
    simp only [exhaustiveLoop, and_true, List.not_mem_nil, false_and, exists_false]
    rw [Nat.mod_mod_of_dvd _ hpow]
    constructor
    · intro h v hv hle
      have := Nat.le_of_dvd hpos (Nat.dvd_of_mod_eq_zero h)
      omega
    · intro h
      have heq : next = 2 ^ bits := le_antisymm hnext (by_contra fun hlt ↦ h next le_rfl (by omega))
      rw [heq, Nat.mod_self]
  | cons indx rest ih =>
    obtain ⟨hindx, hrest⟩ := List.pairwise_cons.1 hinc
    obtain ⟨hlo, hhi⟩ := hwithin indx List.mem_cons_self
    have hv := indx.valid
    -- a node starts at or after `next`, so `next` is still inside the width and did not wrap
    have hmod : next % 2 ^ 64 = next := Nat.mod_eq_of_lt
      (lt_of_lt_of_le (by omega : next < 2 ^ bits) (Nat.le_of_dvd (Nat.two_pow_pos 64) hpow))
    rw [hmod]
    by_cases hne : indx.lower ≠ next
    · simp only [exhaustiveLoop, if_pos hne, Bool.false_eq_true, and_false, false_iff]
      intro h
      obtain ⟨n, hn, hcell⟩ := h next le_rfl (by omega)
      rw [Node.mem_cell] at hcell
      rcases List.mem_cons.1 hn with rfl | hn
      · omega
      · have := hindx n hn
        omega
    · rw [not_not] at hne
      simp only [exhaustiveLoop, hne, ne_eq, not_true_eq_false, if_false]
      have hlater := ih hrest (Nat.succ_pos indx.upper) (by omega) fun n hn ↦
        ⟨hindx n hn, (hwithin n (List.mem_cons_of_mem _ hn)).2⟩
      refine hlater.trans ⟨?_, ?_⟩
      · intro h v hle hvmax
        by_cases hin : v ≤ indx.upper
        · exact ⟨indx, List.mem_cons_self, Node.mem_cell.2 ⟨by omega, hin⟩⟩
        · obtain ⟨n, hn, hcell⟩ := h v (by omega) hvmax
          exact ⟨n, List.mem_cons_of_mem _ hn, hcell⟩
      · intro h v hle hvmax
        obtain ⟨n, hn, hcell⟩ := h v (by omega) hvmax
        rcases List.mem_cons.1 hn with rfl | hn
        · rw [Node.mem_cell] at hcell
          omega
        · exact ⟨n, hn, hcell⟩

/-- **A range is exhaustive exactly when its nodes cover the width.** -/
theorem rangeExhaustive_iff {range : Range} (hwf : range.WF) :
    rangeExhaustive range = true ↔ ∀ v ≤ rangeMax range.bits, ∃ n ∈ range.nodeList, v ∈ n.cell := by
  obtain ⟨bits, hbits, nodes⟩ := range
  have hle : bits ≤ 64 := by omega
  cases nodes with
  | nil => exact iff_of_false (by simp [rangeExhaustive]) fun h ↦ by simpa using h 0 (Nat.zero_le _)
  | cons indx rest =>
    obtain ⟨hindx, hrest⟩ := List.pairwise_cons.1 hwf.increasing
    have hhi := (hwf.within indx List.mem_cons_self).2
    have hmax : rangeMax bits + 1 = 2 ^ bits := Nat.sub_add_cancel (Nat.two_pow_pos bits)
    -- the mask of the 32-bit case is the remainder the loop lemma speaks of
    have htest : ∀ r : ℕ × Bool, r.1 < 2 ^ 64 →
        (((if bits = 32 then r.1 &&& itMaxU32 else r.1) = 0 && r.2) = true ↔
          r.1 % 2 ^ bits = 0 ∧ r.2 = true) := by
      rintro ⟨next, ended⟩ hnext
      rcases hbits with rfl | rfl
      · rw [if_pos rfl, show itMaxU32 = 2 ^ 32 - 1 from rfl, Nat.and_two_pow_sub_one_eq_mod]
        simp
      · rw [if_neg (by decide), Nat.mod_eq_of_lt hnext]
        simp
    refine (htest (exhaustiveLoop 0 (indx :: rest)) (exhaustiveLoop_lt _ (Nat.two_pow_pos 64))).trans ?_
    by_cases hne : indx.lower ≠ 0
    · refine iff_of_false (by simp [exhaustiveLoop, hne]) fun h ↦ ?_
      obtain ⟨n, hn, hcell⟩ := h 0 (Nat.zero_le _)
      rw [Node.mem_cell] at hcell
      rcases List.mem_cons.1 hn with rfl | hn
      · omega
      · have := hindx n hn
        omega
    · rw [not_not] at hne
      have hlater := exhaustiveLoop_spec hle hrest (Nat.succ_pos indx.upper)
        (show indx.upper + 1 ≤ 2 ^ bits by simp only at hhi; omega) fun n hn ↦
          ⟨hindx n hn, (hwf.within n (List.mem_cons_of_mem _ hn)).2⟩
      simp only [exhaustiveLoop, hne, ne_eq, not_true_eq_false, if_false]
      refine hlater.trans ⟨fun h v hvmax ↦ ?_, fun h v hlev hvmax ↦ ?_⟩
      · by_cases hin : v ≤ indx.upper
        · exact ⟨indx, List.mem_cons_self, Node.mem_cell.2 ⟨by omega, hin⟩⟩
        · obtain ⟨n, hn, hcell⟩ := h v (by omega) hvmax
          exact ⟨n, List.mem_cons_of_mem _ hn, hcell⟩
      · obtain ⟨n, hn, hcell⟩ := h v hvmax
        rcases List.mem_cons.1 hn with rfl | hn
        · rw [Node.mem_cell] at hcell
          omega
        · exact ⟨n, hn, hcell⟩
/-! ### The range of a single condition -/

/-- Intervals that miss the nodes and one another are added as they are. -/
theorem addAll_of_disjoint {range : Range} {Is : List (ℕ × ℕ)} (hIs : ∀ I ∈ Is, I.1 ≤ I.2)
    (hdis : Is.Pairwise fun I J ↦ I.2 < J.1 ∨ J.2 < I.1)
    (hnodes : ∀ I ∈ Is, ∀ n ∈ range.nodeList, n.upper < I.1 ∨ I.2 < n.lower) :
    ∃ range', addAll range Is = .ok range' ∧
      cells range'.nodeList = intervalSets Is ∪ cells range.nodeList := by
  induction Is generalizing range with
  | nil => exact ⟨range, rfl, by rw [intervalSets_nil, Set.empty_union]⟩
  | cons I rest ih =>
    obtain ⟨hI, hrest⟩ := List.pairwise_cons.1 hdis
    have hle := hIs I List.mem_cons_self
    obtain ⟨nodes', hloop, hcells⟩ :=
      addDisjLoop_of_disjoint range.bits hle (hnodes I List.mem_cons_self)
    have hadd : addDisjNodes range I.1 I.2 = .ok { range with nodeList := nodes' } := by
      rw [addDisjNodes, if_neg (not_lt.2 hle)]
      split
      · next hnil =>
        rw [hnil, addDisjLoop, newNode_of_le hle] at hloop
        rw [newNode_of_le hle]
        cases hloop
        rfl
      · rw [hloop]
        rfl
    -- the nodes are now the old ones and `I`, both missed by the remaining intervals
    have hmid : ∀ J ∈ rest, ∀ n ∈ nodes', n.upper < J.1 ∨ J.2 < n.lower := by
      intro J hJ n hn
      have hv := n.valid
      have hmem : n.cell ∈ insert (Set.Icc I.1 I.2) (cells range.nodeList) :=
        hcells ▸ (⟨n, hn, rfl⟩ : n.cell ∈ cells nodes')
      have hends : ∀ {lo hi : ℕ}, lo ≤ hi → n.cell = Set.Icc lo hi → n.lower = lo ∧ n.upper = hi :=
        fun hlohi heq ↦ Node.ends_of_cell_eq hlohi heq
      rcases Set.mem_insert_iff.1 hmem with heq | ⟨m, hm, heq⟩
      · obtain ⟨h₁, h₂⟩ := hends hle heq
        have := hI J hJ
        omega
      · obtain ⟨h₁, h₂⟩ := hends m.valid heq.symm
        have := hnodes J (List.mem_cons_of_mem _ hJ) m hm
        omega
    obtain ⟨range', hrun, hcells'⟩ := ih (fun J hJ ↦ hIs J (List.mem_cons_of_mem _ hJ)) hrest
      (show ∀ J ∈ rest, ∀ n ∈ ({ range with nodeList := nodes' } : Range).nodeList, _ from hmid)
    refine ⟨range', by rw [addAll, hadd]; exact hrun, ?_⟩
    rw [hcells', hcells, intervalSets_cons, Set.insert_union, Set.union_insert]

/-- **The range built from one comparison has the comparison's intervals as its nodes.** -/
theorem cells_of_single {range : Range} (hnil : range.nodeList = []) {oper : Oper}
    (hoper : oper.IsRegConstIntCompare) :
    ∃ range', formDisjunctives range oper = .ok range' ∧
      cells range'.nodeList = intervalSets (operIntervals range.bits oper) := by
  have hvalid := operIntervals_valid range.bits_eq hoper
  obtain ⟨range', hrun, hcells⟩ := addAll_of_disjoint
    (fun I hI ↦ (hvalid.1 I hI).1) hvalid.2 (show ∀ I ∈ _, ∀ n ∈ range.nodeList, _ by simp [hnil])
  refine ⟨range', (formDisjunctives_eq hoper range).trans hrun, ?_⟩
  rw [hcells, hnil, cells_nil, Set.union_empty]

/-- On increasing nodes the subsumption loop finds a node that contains the given one. -/
theorem subsumesLoop_eq_true_iff {nodes : List Node} (hinc : Increasing nodes) {node : Node} :
    subsumesLoop node nodes = true ↔ ∃ n ∈ nodes, n.lower ≤ node.lower ∧ node.upper ≤ n.upper := by
  have hv := node.valid
  induction nodes with
  | nil => simp [subsumesLoop]
  | cons indx rest ih =>
    obtain ⟨hindx, hrest⟩ := List.pairwise_cons.1 hinc
    simp only [subsumesLoop, List.mem_cons, exists_eq_or_imp]
    by_cases hskip : indx.upper < node.lower
    · rw [if_pos hskip]
      exact (ih hrest).trans ⟨.inr, fun h ↦ h.resolve_left fun hc ↦ by omega⟩
    · -- the loop stops here, and every later node starts past this one's upper end
      have hlater : ¬∃ n ∈ rest, n.lower ≤ node.lower ∧ node.upper ≤ n.upper := by
        rintro ⟨n, hn, hle, -⟩
        have := hindx n hn
        omega
      rw [if_neg hskip, or_iff_left hlater]
      split_ifs with h₁ h₂ <;> simp <;> omega

/-- The nodes of a single comparison are in order. -/
theorem increasing_of_single {range range' : Range} (hnil : range.nodeList = []) {oper : Oper}
    (hoper : oper.IsRegConstIntCompare) (hrun : formDisjunctives range oper = .ok range') :
    Increasing range'.nodeList := by
  obtain ⟨r, hr, -, hwf', -⟩ := addAll_spec (Range.wf_of_nil hnil)
    (operIntervals_valid range.bits_eq hoper).1 (isMintermCover_of_nil hnil)
  rw [formDisjunctives_eq hoper, hr] at hrun
  cases hrun
  exact hwf'.increasing

/-- **Minterms.** Folding comparisons over an empty range of either width never stops; it leaves
increasing, disjoint, non-empty intervals inside the width, which together have the values on which a
comparison is true; on each of them every comparison of the sequence is constant; and the range of any
one of these comparisons subsumes a node exactly when the comparison is true on the node. -/
theorem formDisjunctivesAll_minterms {bits : ℕ} (hbits : bits = 32 ∨ bits = 64)
    {opers : List Oper} (hopers : ∀ oper ∈ opers, oper.IsRegConstIntCompare) :
    ∃ empty range, newIntRange bits false = .ok empty ∧
      formDisjunctivesAll empty opers = .ok range ∧
      (range.nodeList.Pairwise fun a b ↦ a.upper < b.lower) ∧
      (∀ node ∈ range.nodeList, node.lower ≤ node.upper ∧ node.upper ≤ 2 ^ bits - 1) ∧
      (∀ v ≤ 2 ^ bits - 1, (∃ node ∈ range.nodeList, v ∈ node.cell) ↔
        ∃ oper ∈ opers, oper.eval bits v = true) ∧
      ∀ node ∈ range.nodeList, ∀ oper ∈ opers,
        (∀ v w, v ∈ node.cell → w ∈ node.cell → oper.eval bits v = oper.eval bits w) ∧
        ∃ condRange, formDisjunctives empty oper = .ok condRange ∧
          (rangeSubsumesNode condRange node = true ↔
            ∀ v ∈ node.cell, oper.eval bits v = true) := by
  let empty : Range := ⟨bits, hbits, []⟩
  have hnil : empty.nodeList = [] := rfl
  refine ⟨empty, ?_⟩
  obtain ⟨range, hrun, hbits', hwf, hcover⟩ :=
    formDisjunctivesAll_spec (Range.wf_of_nil hnil) hopers (isMintermCover_of_nil hnil)
  rw [Set.union_empty] at hcover
  have hwidth : ∀ node ∈ range.nodeList, node.upper ≤ rangeMax bits := fun n hn ↦ by
    rw [show bits = range.bits from hbits'.symm]
    exact (hwf.within n hn).2
  have htrue : ∀ oper ∈ opers, ∀ v ≤ rangeMax bits,
      (v ∈ ⋃₀ intervalSets (operIntervals bits oper) ↔ oper.eval bits v = true) :=
    fun oper hoper v hv ↦ by
      rw [mem_sUnion_intervalSets]
      exact covered_operIntervals_iff hbits (hopers oper hoper) hv
  refine ⟨range, by rw [newIntRange, dif_pos hbits]; rfl, hrun, hwf.increasing,
    fun n hn ↦ ⟨n.valid, hwidth n hn⟩, fun v hv ↦ ?_, fun node hnode oper hoper ↦ ?_⟩
  · have hmem := Set.ext_iff.1 hcover.cover v
    rw [mem_sUnion_cells] at hmem
    simp only [Node.mem_cell, hmem]
    constructor
    · rintro ⟨S, ⟨oper, hoper, hS⟩, hvS⟩
      exact ⟨oper, hoper, (htrue oper hoper v hv).1 ⟨S, hS, hvS⟩⟩
    · rintro ⟨oper, hoper, heval⟩
      obtain ⟨S, hS, hvS⟩ := (htrue oper hoper v hv).2 heval
      exact ⟨S, ⟨oper, hoper, hS⟩, hvS⟩
  have hcompare := hopers oper hoper
  -- the node is cut by no interval of the comparison, hence not by its truth set
  have hres : ∀ S ∈ intervalSets (operIntervals bits oper), Resolves node.cell S := fun S hS ↦
    hcover.resolves node.cell ⟨node, hnode, rfl⟩ S ⟨oper, hoper, hS⟩
  have hle : ∀ v ∈ node.cell, v ≤ rangeMax bits := fun v hv ↦
    (Node.mem_cell.1 hv).2.trans (hwidth node hnode)
  have htrue : ∀ v ∈ node.cell,
      (v ∈ ⋃₀ intervalSets (operIntervals bits oper) ↔ oper.eval bits v = true) := fun v hv ↦
    htrue oper hoper v (hle v hv)
  have hconst : ∀ v w, v ∈ node.cell → w ∈ node.cell → oper.eval bits v = oper.eval bits w := by
    intro v w hv hw
    rw [Bool.eq_iff_iff, ← htrue v hv, ← htrue w hw]
    exact (Resolves.sUnion hres).mem_iff_mem hv hw
  obtain ⟨condRange, hcond, hcells⟩ := cells_of_single hnil hcompare
  refine ⟨hconst, condRange, hcond, ?_⟩
  rw [rangeSubsumesNode, subsumesLoop_eq_true_iff (increasing_of_single rfl hcompare hcond)]
  have hlower : node.lower ∈ node.cell := Node.mem_cell.2 ⟨le_rfl, node.valid⟩
  constructor
  · rintro ⟨n, hn, hlo, hhi⟩ v hv
    refine (htrue v hv).1 (Set.mem_sUnion.2 ⟨n.cell, ?_, ?_⟩)
    · rw [← hcells]
      exact ⟨n, hn, rfl⟩
    · rw [Node.mem_cell] at hv ⊢
      omega
  · intro hall
    obtain ⟨S, hS, hlS⟩ := (htrue node.lower hlower).2 (hall node.lower hlower)
    have hsub := (hres S hS).subset_of_mem hlower hlS
    rw [← hcells] at hS
    obtain ⟨n, hn, rfl⟩ := hS
    exact ⟨n, hn, (Node.mem_cell.1 hlS).1,
      (Node.mem_cell.1 (hsub (Node.mem_cell.2 ⟨node.valid, le_rfl⟩))).2⟩

/-- A signed upper bound written constant first, and an unsigned lower bound. -/
theorem formDisjunctivesAll_minterms_sample :
    let opers : List Oper :=
      [⟨.cmp, 0x40, lcmpComGE, .intImmed 5, .var 1⟩, ⟨.br, 0, lcmpComGT, .var 1, .intImmed 3⟩]
    (∀ oper ∈ opers, oper.IsRegConstIntCompare) ∧
      ∃ empty range, newIntRange 32 false = .ok empty ∧
        formDisjunctivesAll empty opers = .ok range ∧
        (range.nodeList.Pairwise fun a b ↦ a.upper < b.lower) ∧
        (∀ node ∈ range.nodeList, node.lower ≤ node.upper ∧ node.upper ≤ 2 ^ 32 - 1) ∧
        (∀ v ≤ 2 ^ 32 - 1, (∃ node ∈ range.nodeList, v ∈ node.cell) ↔
          ∃ oper ∈ opers, oper.eval 32 v = true) ∧
        ∀ node ∈ range.nodeList, ∀ oper ∈ opers,
          (∀ v w, v ∈ node.cell → w ∈ node.cell → oper.eval 32 v = oper.eval 32 w) ∧
          ∃ condRange, formDisjunctives empty oper = .ok condRange ∧
            (rangeSubsumesNode condRange node = true ↔
              ∀ v ∈ node.cell, oper.eval 32 v = true) :=
  ⟨by decide, formDisjunctivesAll_minterms (.inl rfl) (by decide)⟩

end OpenImpact.IR
