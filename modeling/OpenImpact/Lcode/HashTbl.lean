import OpenImpact.Lcode.CbLabel
import OpenImpact.Library.Halt
import Mathlib.Data.Int.Notation
import Mathlib.Data.List.Induction

/-!
# Renaming the labels of jump tables

`l_hashtbl.c` without the region manager: renamings of control blocks are collected in a table of changes
and applied to the labels when the data after the function are read. The table is to be the composition of
the renamings, and is as long as a label is not renamed again after it was renamed away
(`renames_iff_callsFit`).

The invariant is `Represents`: the entries are the blocks that have been renamed, each with its
present name, and the allocated array is long enough. The theorem is an equivalence over all
sequences of calls and all their prefixes. The machine is a parameter, `Target`, of which it needs
only that the labels made for the function are read back; the labels of the machines are such a target
for any function name that is a word (`isCbLabel_cbLabelName`). `n_allocated`
is a natural number: its doubling in `int` would overflow only with more than `2 ^ 30` renamed
blocks. With the region manager the table is not used, and that case is left out.
-/

namespace OpenImpact.HashTbl

/-! ### The source's functions -/

/-- `L_Hash_Tbl_Map`. -/
structure HashTblMap where
  oldCb : ℤ
  newCb : ℤ
  deriving DecidableEq

/-- The variables `L_hash_tbl_*`. An element that `malloc` left as it is is `none`. -/
structure Tbl where
  nChange : ℕ
  nAllocated : ℕ
  allocated : Bool
  change : List (Option HashTblMap)
  deriving DecidableEq

/-- `L_define_fn_name`. -/
def defineFnName : Tbl := ⟨0, 0, false, []⟩

/-- An element of the array. -/
def readCell (l : List (Option HashTblMap)) (i : ℕ) : Run (Option HashTblMap) :=
  match l[i]? with
  | none => .error .fault
  | some c => .ok c

/-- An element that has been written. -/
def readMap (l : List (Option HashTblMap)) (i : ℕ) : Run HashTblMap := do
  let c ← readCell l i
  match c with
  | none => .error .fault
  | some m => .ok m

/-- An element of the array is written. -/
def writeCell (l : List (Option HashTblMap)) (i : ℕ) (c : Option HashTblMap) :
    Run (List (Option HashTblMap)) :=
  if i < l.length then .ok (l.set i c) else .error .fault

/-- `L_realloc_change`. -/
def reallocChange (t : Tbl) : Run Tbl := do
  let tAllocated := t.nAllocated * 2
  let tChange ← (List.range t.nAllocated).foldlM
    (fun tChange i ↦ do
      let c ← readCell t.change i
      writeCell tChange i c)
    (List.replicate tAllocated none)
  .ok { t with nAllocated := tAllocated, change := tChange }

/-- `if (i >= L_hash_tbl_n_allocated) L_realloc_change ()`. -/
def reallocIfFull (t : Tbl) (i : ℕ) : Run Tbl :=
  if i ≥ t.nAllocated then reallocChange t else .ok t

/-- The table when its array is there, for a function with `nCb` blocks. -/
def allocate (nCb : ℕ) (t : Tbl) : Tbl :=
  if t.allocated then t
  else { t with nAllocated := nCb, change := List.replicate nCb none, allocated := true }

/-- One element in the loop for the redirection. -/
def redirectCell (oldId newId : ℤ) (l : List (Option HashTblMap)) (i : ℕ) :
    Run (List (Option HashTblMap)) := do
  let m ← readMap l i
  if oldId = m.newCb then writeCell l i (some { m with newCb := newId }) else .ok l

/-- The loop that looks for an element with `old_cb`, with the number of elements left. -/
def findOld (l : List (Option HashTblMap)) (id : ℤ) : ℕ → ℕ → Run ℕ
  | 0, i => .ok i
  | k + 1, i => do
    let m ← readMap l i
    if id = m.oldCb then .ok i else findOld l id k (i + 1)

/-- `L_change_cb_id`. -/
def changeCbId (nCb : ℕ) (t : Tbl) (oldId newId : ℤ) : Run Tbl :=
  if oldId = newId then .ok t
  else do
    let t := allocate nCb t
    -- redirection
    let change ← (List.range t.nChange).foldlM (redirectCell oldId newId) t.change
    -- new setting
    let i ← findOld change oldId t.nChange 0
    if i = t.nChange then do
      let t ← reallocIfFull { t with nChange := t.nChange + 1, change := change } i
      let change ← writeCell t.change i (some ⟨oldId, newId⟩)
      .ok { t with change := change }
    else do
      let m ← readMap change i
      let change ← writeCell change i (some { m with newCb := newId })
      .ok { t with change := change }

/-- Renamings after `L_define_fn_name`. -/
def changeCbIds (nCb : ℕ) (calls : List (ℤ × ℤ)) : Run Tbl :=
  calls.foldlM (fun t c ↦ changeCbId nCb t c.1 c.2) defineFnName

/-- The loop of `L_repair_label` over the changes, with the number of elements left. -/
def findNew (l : List (Option HashTblMap)) (id : ℤ) : ℕ → ℕ → Run ℤ
  | 0, _ => .ok id
  | k + 1, i => do
    let m ← readMap l i
    if id = m.oldCb then .ok m.newCb else findNew l id k (i + 1)

/-- `M_is_cb_label` and `M_cb_label_name` of the target, for labels `L` and function names `F`. -/
structure Target (L F : Type) where
  isCbLabel : L → Option (F × ℤ)
  cbLabelName : F → ℤ → L

/-- The `value` of an expression: a label, or what is not looked at. -/
inductive Value (L : Type) where
  | label (l : L)
  | other (n : ℕ)
  deriving DecidableEq

/-- `L_Expr` with `A` and `B`. -/
inductive Expr (L : Type) where
  | null
  | node (value : Value L) (A B : Expr L)
  deriving DecidableEq

section Repair

variable {L F : Type} [DecidableEq F] (T : Target L F) (fn : F) (t : Tbl)

/-- The label of an expression. -/
def repairValue : Value L → Run (Value L)
  | .other n => .ok (.other n)
  | .label l =>
    match T.isCbLabel l with
    | none => .ok (.label l)
    | some (f, cbId) =>
      if f ≠ fn then
        .error (.punt "L_repair_label: hash table def must immediately follow function")
      else do
        let newId ← findNew t.change cbId t.nChange 0
        if newId ≠ cbId then .ok (.label (T.cbLabelName f newId)) else .ok (.label l)

/-- `L_repair_label`. -/
def repairLabel : Expr L → Run (Expr L)
  | .null => .ok .null
  | .node value A B => do
    let A ← repairLabel A
    let B ← repairLabel B
    let value ← repairValue T fn t value
    .ok (.node value A B)

end Repair

/-! ### The composition -/

/-- The block that a label denotes after renamings, one after the other. -/
def renamed (calls : List (ℤ × ℤ)) (id : ℤ) : ℤ :=
  calls.foldl (fun id c ↦ if id = c.1 then c.2 else id) id

theorem renamed_concat (calls : List (ℤ × ℤ)) (c : ℤ × ℤ) (id : ℤ) :
    renamed (calls ++ [c]) id = if renamed calls id = c.1 then c.2 else renamed calls id := by
  rw [renamed, List.foldl_append]
  rfl

/-- Every renaming is of a label that still denotes its own block, or denotes the new one already. -/
def CallsFit (calls : List (ℤ × ℤ)) : Prop :=
  ∀ pre c post, calls = pre ++ c :: post →
    c.1 = c.2 ∨ renamed pre c.1 = c.1 ∨ renamed pre c.1 = c.2

section Spec

variable {L F : Type} [DecidableEq F] {T : Target L F} {fn : F} {f : ℤ → ℤ}

/-- The label is one of the function. -/
def Value.OfFn (T : Target L F) (fn : F) : Value L → Prop
  | .other _ => True
  | .label l => ∀ g id, T.isCbLabel l = some (g, id) → g = fn

/-- All labels are of the function. -/
def Expr.OfFn (T : Target L F) (fn : F) : Expr L → Prop
  | .null => True
  | .node value A B => value.OfFn T fn ∧ A.OfFn T fn ∧ B.OfFn T fn

/-- A label for another block, and the same one if the block is the same. -/
def Value.Renames (T : Target L F) (f : ℤ → ℤ) : Value L → Value L → Prop
  | .label l, .label l' =>
    match T.isCbLabel l with
    | none => l' = l
    | some (g, id) => T.isCbLabel l' = some (g, f id) ∧ (f id = id → l' = l)
  | value, value' => value' = value

/-- The same expression with renamed labels. -/
def Expr.Renames (T : Target L F) (f : ℤ → ℤ) : Expr L → Expr L → Prop
  | .null, .null => True
  | .node value A B, .node value' A' B' => value.Renames T f value' ∧ A.Renames T f A' ∧
      B.Renames T f B'
  | _, _ => False

/-- The table renames the labels of the function as the renamings do. -/
def Repairs (T : Target L F) (fn : F) (t : Tbl) (f : ℤ → ℤ) : Prop :=
  ∀ e : Expr L, e.OfFn T fn → ∃ e', repairLabel T fn t e = .ok e' ∧ e.Renames T f e'

end Spec

/-! ### The elements of the array -/

/-- The elements that are set, from the first on. -/
def Holds (l : List (Option HashTblMap)) (es : List HashTblMap) : Prop :=
  ∀ (i : ℕ) (m : HashTblMap), es[i]? = some m → l[i]? = some (some m)

theorem Holds.length_le {l : List (Option HashTblMap)} {es : List HashTblMap} (h : Holds l es) :
    es.length ≤ l.length := by
  by_contra hlt
  have hlt : l.length < es.length := Nat.not_le.1 hlt
  have := h l.length _ (List.getElem?_eq_getElem hlt)
  simp at this

theorem Holds.readMap {l : List (Option HashTblMap)} {as bs : List HashTblMap} {m : HashTblMap}
    (h : Holds l (as ++ m :: bs)) : readMap l as.length = .ok m := by
  have hcell : l[as.length]? = some (some m) := h as.length m (by simp)
  simp [HashTbl.readMap, readCell, hcell]

/-- The element behind `as` is written: one that is set, or the next one. -/
theorem Holds.writeCell {l : List (Option HashTblMap)} {as bs cs : List HashTblMap} (m : HashTblMap)
    (h : Holds l (as ++ bs)) (hlt : as.length < l.length) (hcs : cs = bs.tail) :
    ∃ l', writeCell l as.length (some m) = .ok l' ∧ l'.length = l.length ∧
      Holds l' (as ++ m :: cs) := by
  refine ⟨l.set as.length (some m), if_pos hlt, List.length_set, fun i x hx ↦ ?_⟩
  rcases Nat.lt_trichotomy i as.length with hi | rfl | hi
  · rw [List.getElem?_append_left hi] at hx
    rw [List.getElem?_set_ne (Nat.ne_of_gt hi)]
    exact h i x (by rw [List.getElem?_append_left hi, hx])
  · obtain rfl : m = x := by simpa using hx
    simp [hlt]
  · rw [List.getElem?_set_ne (Nat.ne_of_lt hi)]
    refine h i x ?_
    rw [List.getElem?_append_right (Nat.le_of_lt hi)] at hx ⊢
    obtain ⟨k, hk⟩ : ∃ k, i - as.length = k + 1 := ⟨i - as.length - 1, by omega⟩
    rw [hk, List.getElem?_cons_succ, hcs, List.getElem?_tail] at hx
    rw [hk, hx]

theorem copy_spec (xs : List (Option HashTblMap)) (ys zs : List (Option HashTblMap))
    (hlen : ys.length ≤ zs.length) :
    (List.range' xs.length ys.length).foldlM (fun tChange i ↦ do
      let c ← readCell (xs ++ ys) i
      writeCell tChange i c) (xs ++ zs) = .ok (xs ++ ys ++ zs.drop ys.length) := by
  induction ys generalizing xs zs with
  | nil => simp
  | cons c ys ih =>
    obtain _ | ⟨z, zs⟩ := zs
    · simp at hlen
    have hread : readCell (xs ++ c :: ys) xs.length = .ok c := by simp [readCell]
    have hwrite : HashTbl.writeCell (xs ++ z :: zs) xs.length c = .ok (xs ++ [c] ++ zs) := by
      simp [HashTbl.writeCell]
    rw [List.length_cons, List.range'_succ, List.foldlM_cons, hread, Run.ok_bind, hwrite,
      Run.ok_bind]
    have := ih (xs ++ [c]) zs (by simpa using hlen)
    simpa using this

theorem reallocChange_spec {t : Tbl} {es : List HashTblMap} (h : Holds t.change es)
    (hlen : t.change.length = t.nAllocated) :
    ∃ l, reallocChange t = .ok { t with nAllocated := t.nAllocated * 2, change := l } ∧
      l.length = t.nAllocated * 2 ∧ Holds l es := by
  have hcopy := copy_spec [] t.change (List.replicate (t.nAllocated * 2) none) (by simp; omega)
  simp only [hlen, List.length_nil, List.nil_append, List.drop_replicate] at hcopy
  refine ⟨t.change ++ List.replicate (t.nAllocated * 2 - t.nAllocated) none, ?_, ?_, ?_⟩
  · rw [reallocChange, List.range_eq_range', hcopy, Run.ok_bind]
  · rw [List.length_append, List.length_replicate]
    omega
  · intro i m hi
    rw [List.getElem?_append_left, h i m hi]
    exact (List.getElem?_eq_some_iff.1 (h i m hi)).1

/-- What the loop for the redirection makes of an element. -/
def redirect (oldId newId : ℤ) (m : HashTblMap) : HashTblMap :=
  if oldId = m.newCb then { m with newCb := newId } else m

@[simp] theorem redirect_oldCb (oldId newId : ℤ) (m : HashTblMap) :
    (redirect oldId newId m).oldCb = m.oldCb := by
  unfold redirect
  split <;> rfl

theorem redirectCell_spec (oldId newId : ℤ) {l : List (Option HashTblMap)}
    {as bs : List HashTblMap} {m : HashTblMap} (h : Holds l (as ++ m :: bs)) :
    ∃ l', redirectCell oldId newId l as.length = .ok l' ∧ l'.length = l.length ∧
      Holds l' (as ++ redirect oldId newId m :: bs) := by
  have hlt : as.length < l.length := by
    have := h.length_le
    simp at this
    omega
  rw [redirectCell, h.readMap, Run.ok_bind, redirect]
  split_ifs with hold
  · exact h.writeCell _ hlt rfl
  · exact ⟨l, rfl, rfl, h⟩

theorem redirectCells_spec (oldId newId : ℤ) {l : List (Option HashTblMap)}
    (as : List HashTblMap) {bs : List HashTblMap} (h : Holds l (as ++ bs)) :
    ∃ l', (List.range' as.length bs.length).foldlM (redirectCell oldId newId) l = .ok l' ∧
      l'.length = l.length ∧ Holds l' (as ++ bs.map (redirect oldId newId)) := by
  induction bs generalizing l as with
  | nil => exact ⟨l, rfl, rfl, h⟩
  | cons m bs ih =>
    obtain ⟨l₁, hrun₁, hlen₁, h₁⟩ := redirectCell_spec oldId newId h
    have h₁' : Holds l₁ ((as ++ [redirect oldId newId m]) ++ bs) := by simpa using h₁
    obtain ⟨l₂, hrun₂, hlen₂, h₂⟩ := ih _ h₁'
    refine ⟨l₂, ?_, hlen₂.trans hlen₁, by simpa using h₂⟩
    rw [List.length_cons, List.range'_succ, List.foldlM_cons, hrun₁, Run.ok_bind]
    simpa using hrun₂

/-- The loop stops at the first element with `old_cb`, or behind the last one. -/
theorem findOld_spec (id : ℤ) {l : List (Option HashTblMap)} (as : List HashTblMap)
    {bs : List HashTblMap} (h : Holds l (as ++ bs)) :
    ∃ cs ds, bs = cs ++ ds ∧ (∀ m ∈ cs, m.oldCb ≠ id) ∧ (∀ m ∈ ds.head?, m.oldCb = id) ∧
      findOld l id bs.length as.length = .ok (as.length + cs.length) := by
  induction bs generalizing as with
  | nil => exact ⟨[], [], rfl, by simp, by simp, rfl⟩
  | cons m bs ih =>
    rw [List.length_cons, findOld, h.readMap, Run.ok_bind]
    split_ifs with hid
    · exact ⟨[], m :: bs, rfl, by simp, by simp [hid], rfl⟩
    · have h' : Holds l ((as ++ [m]) ++ bs) := by simpa using h
      obtain ⟨cs, ds, rfl, hcs, hds, hrun⟩ := ih _ h'
      refine ⟨m :: cs, ds, rfl, List.forall_mem_cons.2 ⟨Ne.symm hid, hcs⟩, hds, ?_⟩
      rw [show (as ++ [m]).length = as.length + 1 from List.length_append] at hrun
      rw [hrun, List.length_cons, Nat.add_assoc, Nat.add_comm 1]

/-! ### The map of the table -/

/-- The block that the elements give for a label. -/
def target (es : List HashTblMap) (id : ℤ) : ℤ :=
  match es.find? (fun m ↦ id = m.oldCb) with
  | none => id
  | some m => m.newCb

theorem target_cons (m : HashTblMap) (es : List HashTblMap) (id : ℤ) :
    target (m :: es) id = if id = m.oldCb then m.newCb else target es id := by
  simp only [target, List.find?_cons]
  by_cases h : id = m.oldCb <;> simp [h]

/-- The elements before do not matter if they are of other blocks. -/
theorem target_append {as bs : List HashTblMap} {id : ℤ} (h : ∀ m ∈ as, m.oldCb ≠ id) :
    target (as ++ bs) id = target bs id := by
  induction as with
  | nil => rfl
  | cons m as ih =>
    rw [List.forall_mem_cons] at h
    rw [List.cons_append, target_cons, if_neg h.1.symm, ih h.2]

theorem target_append_congr (as : List HashTblMap) {bs cs : List HashTblMap} {id : ℤ}
    (h : target bs id = target cs id) : target (as ++ bs) id = target (as ++ cs) id := by
  induction as with
  | nil => exact h
  | cons m as ih => rw [List.cons_append, List.cons_append, target_cons, target_cons, ih]

theorem target_map_redirect {oldId newId : ℤ} {es : List HashTblMap} {id : ℤ} (hne : id ≠ oldId) :
    target (es.map (redirect oldId newId)) id =
      if target es id = oldId then newId else target es id := by
  induction es with
  | nil => simp [target, hne]
  | cons m es ih =>
    rw [List.map_cons, target_cons, target_cons, redirect_oldCb]
    split_ifs with hid hold hold
    · simp [redirect, hold]
    · simp [redirect, Ne.symm hold]
    · rw [ih, if_pos hold]
    · rw [ih, if_neg hold]

theorem findNew_spec (id : ℤ) {l : List (Option HashTblMap)} (as : List HashTblMap)
    {bs : List HashTblMap} (h : Holds l (as ++ bs)) : findNew l id bs.length as.length = .ok (target bs id) := by
  induction bs generalizing as with
  | nil => rfl
  | cons m bs ih =>
    rw [List.length_cons, findNew, h.readMap, Run.ok_bind, target_cons]
    split_ifs with hid
    · rfl
    · have h' : Holds l ((as ++ [m]) ++ bs) := by simpa using h
      simpa using ih _ h'

/-- The table holds the elements in an array that is large enough. -/
structure Represents (t : Tbl) (es : List HashTblMap) : Prop where
  count : t.nChange = es.length
  holds : Holds t.change es
  length : t.change.length = t.nAllocated
  pos : t.allocated = true → 1 ≤ t.nAllocated
  fresh : t.allocated = false → es = []

theorem represents_defineFnName : Represents defineFnName [] :=
  ⟨rfl, fun i m h ↦ by simp at h, rfl, (fun h ↦ nomatch h), fun _ ↦ rfl⟩

/-! ### One call -/

/-- What the array gives for a label after a call, from what it gave before. -/
def afterCall (c : ℤ × ℤ) (g : ℤ → ℤ) (id : ℤ) : ℤ :=
  if c.1 = c.2 then g id else if id = c.1 ∨ g id = c.1 then c.2 else g id

/-- The elements are redirected, and the one of the old block is new. -/
theorem target_newSetting {oldId newId id : ℤ} {as bs : List HashTblMap}
    (has : ∀ m ∈ as, m.oldCb ≠ oldId) (hbs : ∀ m ∈ bs.head?, m.oldCb = oldId) :
    target (as.map (redirect oldId newId) ++
        ⟨oldId, newId⟩ :: (bs.map (redirect oldId newId)).tail) id =
      if id = oldId ∨ target (as ++ bs) id = oldId then newId else target (as ++ bs) id := by
  obtain rfl | hne := eq_or_ne id oldId
  · have hkeys : ∀ m ∈ as.map (redirect id newId), m.oldCb ≠ id := by
      simpa [List.forall_mem_map] using has
    rw [target_append hkeys, target_cons, if_pos rfl, if_pos (.inl rfl)]
  · simp only [hne, false_or]
    rw [← target_map_redirect hne, List.map_append]
    refine target_append_congr _ ?_
    rw [target_cons, if_neg hne]
    cases bs with
    | nil => rfl
    | cons m bs =>
      have hm : m.oldCb = oldId := hbs m rfl
      rw [List.map_cons, List.tail_cons, target_cons, redirect_oldCb, hm, if_neg hne]

theorem Represents.allocate {t : Tbl} {es : List HashTblMap} {nCb : ℕ} (h : Represents t es)
    (hcb : 1 ≤ nCb) :
    Represents (allocate nCb t) es ∧ (HashTbl.allocate nCb t).allocated = true := by
  unfold HashTbl.allocate
  split_ifs with hall
  · exact ⟨h, hall⟩
  · obtain rfl := h.fresh (by simpa using hall)
    exact ⟨⟨h.count, fun i m hi ↦ by simp at hi, List.length_replicate, fun _ ↦ hcb,
      fun _ ↦ rfl⟩, rfl⟩

/-- There is room for one more element after `L_realloc_change`. -/
theorem reallocIfFull_spec {t : Tbl} {es : List HashTblMap} (h : Holds t.change es)
    (hlen : t.change.length = t.nAllocated) (hpos : 1 ≤ t.nAllocated) :
    ∃ n l, reallocIfFull t es.length = .ok { t with nAllocated := n, change := l } ∧
      l.length = n ∧ es.length < n ∧ Holds l es := by
  have hle := h.length_le
  unfold reallocIfFull
  split_ifs with hfull
  · obtain ⟨l, hrun, hl, hholds⟩ := reallocChange_spec h hlen
    exact ⟨_, l, hrun, hl, by omega, hholds⟩
  · exact ⟨t.nAllocated, t.change, rfl, hlen, by omega, h⟩

theorem Represents.changeCbId {t : Tbl} {es : List HashTblMap} {nCb : ℕ} (h : Represents t es)
    (hcb : 1 ≤ nCb) (c : ℤ × ℤ) :
    ∃ t' es', changeCbId nCb t c.1 c.2 = .ok t' ∧ Represents t' es' ∧
      target es' = afterCall c (target es) := by
  obtain ⟨oldId, newId⟩ := c
  simp only [HashTbl.changeCbId]
  split_ifs with heq
  · exact ⟨t, es, rfl, h, funext fun id ↦ (if_pos heq).symm⟩
  obtain ⟨h, hall⟩ := h.allocate hcb
  generalize HashTbl.allocate nCb t = t at h hall
  have hpos := h.pos hall
  obtain ⟨l, hloop, hlen, hholds⟩ := redirectCells_spec oldId newId [] h.holds
  obtain ⟨cs, ds, hsplit, hcs, hds, hfind⟩ := findOld_spec oldId [] hholds
  rw [List.length_nil, Nat.zero_add, List.length_map, ← h.count] at hfind
  rw [List.length_nil, ← h.count, ← List.range_eq_range'] at hloop
  rw [hloop, Run.ok_bind, hfind, Run.ok_bind]
  obtain ⟨as, bs, rfl, rfl, rfl⟩ := List.map_eq_append_iff.1 hsplit
  rw [List.nil_append, hsplit] at hholds
  have has : ∀ m ∈ as, m.oldCb ≠ oldId := by simpa [List.forall_mem_map] using hcs
  have hbs : ∀ m ∈ bs.head?, m.oldCb = oldId := by
    intro m hm
    have := hds (redirect oldId newId m) (by rw [List.head?_map, hm]; rfl)
    rwa [redirect_oldCb] at this
  have hcount : t.nChange = as.length + bs.length := by rw [h.count, List.length_append]
  have hmap : (as.map (redirect oldId newId)).length = as.length := List.length_map _
  have htarget : target (as.map (redirect oldId newId) ++
      ⟨oldId, newId⟩ :: (bs.map (redirect oldId newId)).tail) =
        afterCall (oldId, newId) (target (as ++ bs)) := by
    funext id
    rw [target_newSetting has hbs, afterCall, if_neg heq]
  cases bs with
  | nil =>
    -- no element has the old block, so that there is one more
    rw [List.length_nil, Nat.add_zero] at hcount
    rw [List.map_nil, List.append_nil] at hholds
    obtain ⟨n, l₁, hreal, hlen₁, hlt, hholds₁⟩ := reallocIfFull_spec
      (t := { t with nChange := t.nChange + 1, change := l }) hholds (hlen.trans h.length) hpos
    rw [hmap] at hreal hlt
    rw [← List.append_nil (as.map _)] at hholds₁
    obtain ⟨l₂, hwrite, hlen₂, hholds₂⟩ := hholds₁.writeCell ⟨oldId, newId⟩
      (by rw [hmap, hlen₁]; exact hlt) rfl
    rw [hmap] at hwrite
    refine ⟨{ t with nChange := t.nChange + 1, nAllocated := n, change := l₂ }, _, ?_,
      ⟨?_, hholds₂, hlen₂.trans hlen₁, fun _ ↦ Nat.one_le_of_lt hlt, fun hf ↦ ?_⟩, htarget⟩
    · rw [hmap, if_pos hcount.symm, hreal, Run.ok_bind]
      simp only [hwrite, Run.ok_bind]
    · rw [hcount]
      simp
    · exact absurd (hall.symm.trans hf) Bool.noConfusion
  | cons m bs =>
    rw [List.length_cons] at hcount
    rw [List.map_cons] at hholds
    have hm : m.oldCb = oldId := hbs m rfl
    have hlt : (as.map (redirect oldId newId)).length < l.length := by
      have := hholds.length_le
      simp at this ⊢
      omega
    obtain ⟨l₂, hwrite, hlen₂, hholds₂⟩ := hholds.writeCell ⟨oldId, newId⟩ hlt rfl
    have hread := hholds.readMap
    rw [hmap] at hread hwrite
    refine ⟨{ t with change := l₂ }, _, ?_,
      ⟨?_, hholds₂, (hlen₂.trans hlen).trans h.length, fun _ ↦ hpos, fun hf ↦ ?_⟩, htarget⟩
    · have hne : as.length ≠ t.nChange := by omega
      simp only [hmap, hne, if_false, hread, Run.ok_bind, redirect_oldCb, hm, hwrite]
    · rw [hcount]
      simp
    · exact absurd (hall.symm.trans hf) Bool.noConfusion

/-! ### All calls -/

/-- What the array gives for a label after calls. -/
def afterCalls (calls : List (ℤ × ℤ)) : ℤ → ℤ :=
  calls.foldl (fun g c ↦ afterCall c g) id

theorem afterCalls_concat (calls : List (ℤ × ℤ)) (c : ℤ × ℤ) :
    afterCalls (calls ++ [c]) = afterCall c (afterCalls calls) := by
  rw [afterCalls, List.foldl_append]
  rfl

/-- No sequence of calls reads or writes outside the array. -/
theorem changeCbIds_spec {nCb : ℕ} (hcb : 1 ≤ nCb) (calls : List (ℤ × ℤ)) :
    ∃ t es, changeCbIds nCb calls = .ok t ∧ Represents t es ∧ target es = afterCalls calls := by
  obtain ⟨t, hrun, es, hrep, htarget⟩ := Run.foldlM_prefix
    (f := fun t c ↦ changeCbId nCb t c.1 c.2) (l := calls)
    (P := fun done t ↦ ∃ es, Represents t es ∧ target es = afterCalls done)
    (fun done c rest _ t ⟨es, hrep, htarget⟩ ↦ by
      obtain ⟨t', es', hrun, hrep', htarget'⟩ := hrep.changeCbId hcb c
      exact ⟨t', hrun, es', hrep', by rw [htarget', htarget, afterCalls_concat]⟩)
    (a := defineFnName) ⟨[], represents_defineFnName, rfl⟩
  exact ⟨t, es, hrun, hrep, htarget⟩

/-- A call keeps the composition exactly if it fits. -/
theorem afterCall_renamed (pre : List (ℤ × ℤ)) (c : ℤ × ℤ) :
    afterCall c (renamed pre) = renamed (pre ++ [c]) ↔
      c.1 = c.2 ∨ renamed pre c.1 = c.1 ∨ renamed pre c.1 = c.2 := by
  refine ⟨fun h ↦ ?_, fun h ↦ funext fun id ↦ ?_⟩
  · have hold := congrFun h c.1
    rw [renamed_concat, afterCall] at hold
    by_cases heq : c.1 = c.2
    · exact .inl heq
    · rw [if_neg heq, if_pos (.inl rfl)] at hold
      split_ifs at hold with hid
      · exact .inr (.inl hid)
      · exact .inr (.inr hold.symm)
  · rw [renamed_concat, afterCall]
    obtain heq | hne := eq_or_ne c.1 c.2
    · rw [if_pos heq]
      split_ifs with hid
      · rw [hid, heq]
      · rfl
    · rw [if_neg hne]
      obtain rfl | hid := eq_or_ne id c.1
      · rw [if_pos (.inl rfl)]
        split_ifs with hown
        · rfl
        · exact ((h.resolve_left hne).resolve_left hown).symm
      · simp only [hid, false_or]

theorem callsFit_concat {calls : List (ℤ × ℤ)} {c : ℤ × ℤ} :
    CallsFit (calls ++ [c]) ↔
      CallsFit calls ∧ (c.1 = c.2 ∨ renamed calls c.1 = c.1 ∨ renamed calls c.1 = c.2) := by
  refine ⟨fun h ↦ ⟨fun pre d post hcalls ↦ h pre d (post ++ [c]) (by simp [hcalls]),
    h calls c [] rfl⟩, fun ⟨h, hc⟩ pre d post hcalls ↦ ?_⟩
  obtain rfl | ⟨post, e, rfl⟩ := List.eq_nil_or_concat post
  · obtain ⟨rfl, hd⟩ := List.append_inj' hcalls rfl
    obtain rfl := List.singleton_inj.1 hd
    exact hc
  · rw [List.concat_eq_append, ← List.cons_append, ← List.append_assoc] at hcalls
    exact h pre d post (List.append_inj' hcalls rfl).1

/-- The array gives the composition after each of the calls exactly if all of them fit. -/
theorem afterCalls_eq_renamed {calls : List (ℤ × ℤ)} :
    (∀ pre, pre <+: calls → afterCalls pre = renamed pre) ↔ CallsFit calls := by
  induction calls using List.reverseRecOn with
  | nil =>
    refine ⟨fun _ pre c post h ↦ by simp at h, fun _ pre h ↦ ?_⟩
    obtain rfl := List.prefix_nil.1 h
    rfl
  | append_singleton calls c ih =>
    rw [callsFit_concat, ← ih, ← afterCall_renamed]
    refine ⟨fun h ↦ ?_, fun ⟨h, hc⟩ pre hpre ↦ ?_⟩
    · have hcalls := h calls (List.prefix_append _ _)
      refine ⟨fun pre hpre ↦ h pre (hpre.trans (List.prefix_append _ _)), ?_⟩
      rw [← hcalls, ← afterCalls_concat]
      exact (h _ List.prefix_rfl)
    · obtain rfl | hpre := List.prefix_concat_iff.1 hpre
      · rw [afterCalls_concat, h calls List.prefix_rfl, hc]
      · exact h pre hpre

section Repair

variable {L F : Type} [DecidableEq F] {T : Target L F} {fn : F} {t : Tbl} {es : List HashTblMap}

theorem repairValue_spec (hrep : Represents t es)
    (hround : ∀ id, T.isCbLabel (T.cbLabelName fn id) = some (fn, id)) {value : Value L}
    (hfn : value.OfFn T fn) :
    ∃ value', repairValue T fn t value = .ok value' ∧ value.Renames T (target es) value' := by
  cases value with
  | other n => exact ⟨_, rfl, rfl⟩
  | label l =>
    rw [repairValue]
    cases hl : T.isCbLabel l with
    | none => exact ⟨_, rfl, by simp [Value.Renames, hl]⟩
    | some label =>
      obtain ⟨g, id⟩ := label
      obtain rfl := hfn g id hl
      have hnew := findNew_spec id [] hrep.holds
      rw [List.length_nil, ← hrep.count] at hnew
      simp only [hnew, Run.ok_bind, ne_eq, not_true_eq_false, if_false]
      split_ifs with hsame
      · exact ⟨_, rfl, by simp [Value.Renames, hl, hsame]⟩
      · exact ⟨_, rfl, by simp [Value.Renames, hl, hround, hsame]⟩

theorem repairLabel_spec (fn : F) (hrep : Represents t es)
    (hround : ∀ id, T.isCbLabel (T.cbLabelName fn id) = some (fn, id)) :
    Repairs T fn t (target es) := by
  intro e hfn
  induction e with
  | null => exact ⟨_, rfl, trivial⟩
  | node value A B ihA ihB =>
    obtain ⟨A', hrunA, hA⟩ := ihA hfn.2.1
    obtain ⟨B', hrunB, hB⟩ := ihB hfn.2.2
    obtain ⟨value', hrun, hvalue⟩ := repairValue_spec hrep hround hfn.1
    exact ⟨.node value' A' B', by rw [repairLabel, hrunA, Run.ok_bind, hrunB, Run.ok_bind, hrun]; rfl,
      hvalue, hA, hB⟩

/-- The labels of the function show what a table renames them to. -/
theorem Repairs.eq {f g : ℤ → ℤ}
    (hround : ∀ id, T.isCbLabel (T.cbLabelName fn id) = some (fn, id))
    (hf : Repairs T fn t f) (hg : Repairs T fn t g) : f = g := by
  funext id
  have hfn : (Expr.node (.label (T.cbLabelName fn id)) .null .null).OfFn T fn := by
    refine ⟨fun g n h ↦ ?_, trivial, trivial⟩
    rw [hround] at h
    exact (congrArg Prod.fst (Option.some.inj h)).symm
  obtain ⟨e, hrun, he⟩ := hf _ hfn
  obtain ⟨e', hrun', he'⟩ := hg _ hfn
  obtain rfl : e = e' := Except.ok.inj (hrun.symm.trans hrun')
  cases e with
  | null => exact he.elim
  | node value A B =>
    cases value with
    | other n => exact nomatch he.1
    | label l =>
      simp only [Expr.Renames, Value.Renames, hround] at he he'
      have := he.1.1.symm.trans he'.1.1
      simpa using this

/-- After any of the calls, `L_repair_label` renames the labels of the function by the calls so far, one
after the other, exactly if all calls fit. -/
theorem renames_iff_callsFit (T : Target L F) (fn : F)
    (hround : ∀ id, T.isCbLabel (T.cbLabelName fn id) = some (fn, id)) {nCb : ℕ} (hcb : 1 ≤ nCb)
    (calls : List (ℤ × ℤ)) :
    (∀ pre, pre <+: calls → ∃ t, changeCbIds nCb pre = .ok t ∧ Repairs T fn t (renamed pre)) ↔
      CallsFit calls := by
  rw [← afterCalls_eq_renamed]
  refine forall₂_congr fun pre _ ↦ ?_
  obtain ⟨t, es, hrun, hrep, htarget⟩ := changeCbIds_spec hcb pre
  have hrepairs := repairLabel_spec fn hrep hround
  rw [htarget] at hrepairs
  refine ⟨fun ⟨t', hrun', h⟩ ↦ ?_, fun h ↦ ⟨t, hrun, by rwa [← h]⟩⟩
  obtain rfl : t = t' := Except.ok.inj (hrun.symm.trans hrun')
  exact hrepairs.eq hround h

end Repair

/-- The labels of a machine with a prefix. -/
def labelTarget (labelPrefix : List Char) : Target (List Char) (List Char) where
  isCbLabel := isCbLabel labelPrefix
  cbLabelName := cbLabelName labelPrefix

/-- The name `_f` of a function. -/
theorem isFnName_f : IsFnName ['_', 'f'] where
  ne_nil := List.cons_ne_nil _ _
  not_isspace := List.forall_mem_cons.2 ⟨rfl, List.forall_mem_singleton.2 rfl⟩
  not_isDigit c hc := by
    obtain rfl := Option.some.inj hc
    rfl

/-- A chain, and a label whose block is renamed back to it. -/
theorem renames_iff_callsFit_chain :
    (∀ pre, pre <+: [(1, 2), (2, 3), (3, 1), (4, 1)] → ∃ t, changeCbIds 1 pre = .ok t ∧
      Repairs (labelTarget ['c', 'b']) ['_', 'f'] t (renamed pre)) ↔
      CallsFit [(1, 2), (2, 3), (3, 1), (4, 1)] :=
  renames_iff_callsFit (labelTarget ['c', 'b']) ['_', 'f']
    (isCbLabel_cbLabelName ['c', 'b'] isFnName_f) (by decide) _

/-- The label `cb1_f` denotes the block 2 when 1 is renamed again, so that it is to stay, but it gets 3. -/
theorem not_renames_twice :
    ¬ ∃ t, changeCbIds 4 [(1, 2), (1, 3)] = .ok t ∧
      Repairs (labelTarget ['c', 'b']) ['_', 'f'] t (renamed [(1, 2), (1, 3)]) := by
  rintro ⟨t, hrun, h⟩
  have htbl : changeCbIds 4 [(1, 2), (1, 3)] = .ok ⟨1, 4, true, [some ⟨1, 3⟩, none, none, none]⟩ := by
    decide
  obtain rfl := Except.ok.inj (htbl.symm.trans hrun)
  have hread : isCbLabel ['c', 'b'] ['c', 'b', '1', '_', 'f'] = some (['_', 'f'], 1) := by decide
  obtain ⟨e, hrepair, he⟩ := h (.node (.label ['c', 'b', '1', '_', 'f']) .null .null)
    ⟨fun g id hl ↦ (congrArg Prod.fst (Option.some.inj (hread.symm.trans hl))).symm, trivial, trivial⟩
  have hlabel : repairLabel (labelTarget ['c', 'b']) ['_', 'f']
      ⟨1, 4, true, [some ⟨1, 3⟩, none, none, none]⟩
      (.node (.label ['c', 'b', '1', '_', 'f']) .null .null) =
        .ok (.node (.label ['c', 'b', '3', '_', 'f']) .null .null) := by decide
  obtain rfl := Except.ok.inj (hlabel.symm.trans hrepair)
  have := he.1.1
  revert this
  decide

end OpenImpact.HashTbl
