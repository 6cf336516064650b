import OpenImpact.Foundation.DoublyLinked
import OpenImpact.Library.Halt

/-!
# Lists with cursors

`i_list.c`: a doubly linked list on which any number of cursors stand. Deleting an element moves every
cursor on it one element back, so that a loop that deletes through its own cursor goes on with the next
element and no cursor is left on a freed one (`Represents.deleteElem`).
-/

namespace OpenImpact.IList

open Foundation

/-! ### The source's functions -/

/-- A `_List`; `ListElement`s hold pointers of type `γ`. -/
structure ListRec (γ : Type) where
  /-- An `int`. The functions that add to it fail where it would leave the range of `int`. -/
  size : ℤ
  first : Option Addr
  last : Option Addr
  /-- The array of `num_currents` cursors. -/
  current : List (Option Addr)
  elems : Heap γ

/-- `List`, which may be `NULL`. -/
abbrev ListPtr (γ : Type) := Option (ListRec γ)

section Ops

variable {γ : Type}

/-- An access through a pointer to an element. -/
def getElem (l : ListRec γ) (a : Addr) : Run (Node γ) :=
  match l.elems.node a with
  | none => .error .fault
  | some e => .ok e

/-- `list->current[level]`, if the level is valid. -/
def getCurrent (l : ListRec γ) (level : ℕ) : Run (Option Addr) :=
  match l.current[level]? with
  | none => .error (.punt "List: Invalid pointer level")
  | some c => .ok c

def setCurrent (l : ListRec γ) (level : ℕ) (c : Option Addr) : ListRec γ :=
  { l with current := l.current.set level c }

/-- The cursor goes to an element, or to none: the element's `ptr`. -/
def moveTo (l : ListRec γ) (level : ℕ) : Option Addr → Run (ListRec γ × Option γ)
  | none => .ok (setCurrent l level none, none)
  | some a => do
    let e ← getElem l a
    .ok (setCurrent l level (some a), some e.val)

/-- `List_next_l`. `List_next` is the same with level 0. -/
def nextL (l : ListRec γ) (level : ℕ) : Run (ListRec γ × Option γ) := do
  let c ← getCurrent l level
  match c with
  | none => moveTo l level l.first
  | some a => do
    let e ← getElem l a
    moveTo l level e.next

/-- `List_next_l` of a list that may be `NULL`. -/
def next (list : ListPtr γ) (level : ℕ) : Run (ListPtr γ × Option γ) :=
  match list with
  | none => .ok (none, none)
  | some l => do
    let (l, ptr) ← nextL l level
    .ok (some l, ptr)

/-- `List_start_l`. `List_start` is the same with level 0. -/
def start (list : ListPtr γ) (level : ℕ) : Run (ListPtr γ) :=
  match list with
  | none => .ok none
  | some l => do
    let _ ← getCurrent l level
    .ok (some (setCurrent l level none))

/-- `List_register_new_ptr`: the new level. `exec` adds the check of `num_currents`, which only sequences of
calls of any length can make too large. -/
def registerNewPtr (list : ListPtr γ) : Run (ListPtr γ × ℕ) :=
  match list with
  | none => .error .fault
  | some l => .ok (some { l with current := l.current ++ [none] }, l.current.length)

/-- `List_copy_current_ptr`. -/
def copyCurrentPtr (list : ListPtr γ) (toLevel fromLevel : ℕ) : Run (ListPtr γ) :=
  match list with
  | none => .error .fault
  | some l => do
    let _ ← getCurrent l toLevel
    let c ← getCurrent l fromLevel
    .ok (some (setCurrent l toLevel c))

/-- What `List_delete_current_l` and `List_remove` do with an element. -/
def deleteElem (l : ListRec γ) (a : Addr) : Run (ListPtr γ) := do
  let e ← getElem l a
  -- every cursor on the element goes to the one before
  let current := l.current.map fun c ↦ if c = some a then e.prev else c
  match (l.elems.linkPrev e.next e.prev).bind (Heap.linkNext e.prev e.next) with
  | none => .error .fault
  | some elems =>
    let l := { size := l.size - 1
               first := if e.prev = none then e.next else l.first
               last := if e.next = none then e.prev else l.last
               current := current
               elems := elems.free a }
    -- `List_reset` of the last element
    if l.size = 0 ∧ l.current.length = 1 then .ok none else .ok (some l)

/-- `List_delete_current_l`. -/
def deleteCurrent (list : ListPtr γ) (level : ℕ) : Run (ListPtr γ) :=
  match list with
  | none => .ok none
  | some l => do
    let c ← getCurrent l level
    match c with
    | none => .ok (some l)
    | some a => deleteElem l a

/-- The loop of `List_remove` that looks for the element with a pointer. -/
def findElem [DecidableEq γ] (l : ListRec γ) (ptr : γ) : ℕ → Option Addr → Run (Option Addr)
  | 0, _ => .error .outOfFuel
  | _ + 1, none => .ok none
  | fuel + 1, some a => do
    let e ← getElem l a
    if e.val = ptr then .ok (some a) else findElem l ptr fuel e.next

/-- `List_remove`. -/
def remove [DecidableEq γ] (list : ListPtr γ) (ptr : γ) : Run (ListPtr γ) :=
  match list with
  | none => .ok none
  | some l => do
    let a ← findElem l ptr (l.size.toNat + 1) l.first
    match a with
    | none => .error (.punt "List_find_and_delete: Element not found.\n")
    | some a => deleteElem l a

end Ops

/-! ### The elements of a list -/

section Spec

variable {γ : Type} {l : ListRec γ} {xs ys : List (Addr × γ)} {x : Addr × γ} {level : ℕ}

/-- The list is well linked, and its cursors stand on its elements. -/
structure Represents (l : ListRec γ) (xs : List (Addr × γ)) : Prop where
  chain : l.elems.Chain none xs none
  nodup : (xs.map Prod.fst).Nodup
  first : l.first = Heap.headAddr none xs
  last : l.last = Heap.lastAddr none xs
  size : l.size = xs.length
  current : ∀ a, some a ∈ l.current → a ∈ xs.map Prod.fst
  pos : 0 < l.current.length

/-- The elements are read off the heap in one way. -/
theorem chain_unique {h : Heap γ} {p q : Option Addr} (hx : h.Chain p xs none)
    (hy : h.Chain q ys none) (hhead : Heap.headAddr none xs = Heap.headAddr none ys) : xs = ys := by
  induction xs generalizing p q ys with
  | nil =>
    cases ys with
    | nil => rfl
    | cons y ys => simp at hhead
  | cons x xs ih =>
    cases ys with
    | nil => simp at hhead
    | cons y ys =>
      obtain ⟨a, v⟩ := x
      obtain ⟨b, w⟩ := y
      obtain rfl : a = b := by simpa using hhead
      have heq := hx.1.symm.trans hy.1
      simp only [Option.some.injEq, Node.mk.injEq] at heq
      obtain ⟨-, hnext, rfl⟩ := heq
      rw [ih hx.2 hy.2 hnext]

theorem Represents.unique (hx : Represents l xs) (hy : Represents l ys) : xs = ys :=
  chain_unique hx.chain hy.chain (hx.first.symm.trans hy.first)

/-- A cursor stands behind the elements `xs`. -/
def At (l : ListRec γ) (level : ℕ) (xs : List (Addr × γ)) : Prop :=
  l.current[level]? = some (Heap.lastAddr none xs)

theorem lastAddr_mem {a : Addr} (h : Heap.lastAddr none xs = some a) : a ∈ xs.map Prod.fst := by
  rcases xs.eq_nil_or_concat with rfl | ⟨xs, x, rfl⟩
  · simp at h
  · rw [List.concat_eq_append] at h ⊢
    simp only [Heap.lastAddr_append, Heap.lastAddr_cons, Heap.lastAddr_nil,
      Option.some.injEq] at h
    simp [h]

theorem headAddr_mem {a : Addr} (h : Heap.headAddr none xs = some a) : a ∈ xs.map Prod.fst := by
  cases xs with
  | nil => simp at h
  | cons x xs =>
    obtain rfl : x.1 = a := by simpa using h
    simp

theorem Represents.setCurrent (h : Represents l xs) {c : Option Addr}
    (hc : ∀ a, c = some a → a ∈ xs.map Prod.fst) : Represents (setCurrent l level c) xs where
  chain := h.chain
  nodup := h.nodup
  first := h.first
  last := h.last
  size := h.size
  current a ha := by
    rcases List.mem_or_eq_of_mem_set ha with ha | ha
    · exact h.current a ha
    · exact hc a ha.symm
  pos := by
    rw [IList.setCurrent, List.length_set]
    exact h.pos

theorem Represents.getElem (h : Represents l (xs ++ x :: ys)) :
    getElem l x.1 = .ok ⟨Heap.lastAddr none xs, Heap.headAddr none ys, x.2⟩ := by
  rw [IList.getElem, h.chain.node]

theorem Represents.moveTo (h : Represents l (xs ++ ys)) :
    moveTo l level (Heap.headAddr none ys) =
      .ok (IList.setCurrent l level (Heap.headAddr none ys), ys.head?.map Prod.snd) := by
  cases ys with
  | nil => rfl
  | cons y ys => rw [Heap.headAddr_cons, IList.moveTo, h.getElem]; rfl

/-- **`List_next_l`** goes to the first element behind the cursor. -/
theorem Represents.next (h : Represents l (xs ++ ys)) (hat : At l level xs) :
    ∃ l', next (some l) level = .ok (some l', ys.head?.map Prod.snd) ∧ Represents l' (xs ++ ys) ∧
      l'.current = l.current.set level (Heap.headAddr none ys) := by
  refine ⟨IList.setCurrent l level (Heap.headAddr none ys), ?_, h.setCurrent fun a ha ↦ ?_, rfl⟩
  · have hnext : nextL l level =
        .ok (IList.setCurrent l level (Heap.headAddr none ys), ys.head?.map Prod.snd) := by
      rw [nextL, getCurrent, hat]
      rcases xs.eq_nil_or_concat with rfl | ⟨xs, x, rfl⟩
      · have hfirst := h.first
        rw [List.nil_append] at hfirst
        simp only [Heap.lastAddr_nil, Run.ok_bind, hfirst]
        exact h.moveTo
      · rw [List.concat_eq_append] at h ⊢
        rw [List.append_assoc, List.singleton_append] at h
        have hmove := h
        rw [← List.singleton_append, ← List.append_assoc] at hmove
        simp only [Heap.lastAddr_append, Heap.lastAddr_cons, Heap.lastAddr_nil, Run.ok_bind,
          h.getElem]
        exact hmove.moveTo
    rw [IList.next, hnext]
    rfl
  · rw [List.map_append, List.mem_append]
    exact .inr (headAddr_mem ha)

theorem Represents.at_of_next {l' : ListRec γ} (hat : At l level xs)
    (hcur : l'.current = l.current.set level (Heap.headAddr none (x :: ys))) :
    At l' level (xs ++ [x]) := by
  have hlt : level < l.current.length := (List.getElem?_eq_some_iff.1 hat).1
  simp [At, hcur, hlt]

/-- A cursor that another one passes by. -/
theorem At.of_set {l' : ListRec γ} {lev : ℕ} {c : Option Addr} (hat : At l level xs)
    (hne : lev ≠ level) (hcur : l'.current = l.current.set lev c) : At l' level xs := by
  rw [At, hcur, List.getElem?_set_ne hne]
  exact hat

theorem Represents.start (h : Represents l xs) (hlt : level < l.current.length) :
    ∃ l', start (some l) level = .ok (some l') ∧ Represents l' xs ∧
      l'.current = l.current.set level none := by
  refine ⟨IList.setCurrent l level none, ?_, h.setCurrent (fun a ha ↦ nomatch ha), rfl⟩
  rw [IList.start, getCurrent, List.getElem?_eq_getElem hlt]
  rfl

theorem Represents.registerNewPtr (h : Represents l xs) :
    ∃ l', registerNewPtr (some l) = .ok (some l', l.current.length) ∧ Represents l' xs ∧
      l'.current = l.current ++ [none] := by
  refine ⟨{ l with current := l.current ++ [none] }, rfl,
    ⟨h.chain, h.nodup, h.first, h.last, h.size, fun a ha ↦ ?_, by simp⟩, rfl⟩
  exact h.current a (by simpa using ha)

theorem Represents.copyCurrentPtr {toLevel : ℕ} (h : Represents l (xs ++ ys))
    (hlt : toLevel < l.current.length) (hat : At l level xs) :
    ∃ l', copyCurrentPtr (some l) toLevel level = .ok (some l') ∧ Represents l' (xs ++ ys) ∧
      l'.current = l.current.set toLevel (Heap.lastAddr none xs) := by
  refine ⟨IList.setCurrent l toLevel (Heap.lastAddr none xs), ?_, h.setCurrent fun a ha ↦ ?_, rfl⟩
  · rw [IList.copyCurrentPtr, getCurrent, List.getElem?_eq_getElem hlt, getCurrent, hat]
    rfl
  · rw [List.map_append, List.mem_append]
    exact .inl (lastAddr_mem ha)

/-- The cursor on a deleted element. -/
theorem At.deleted {l' : ListRec γ} (hat : At l level (xs ++ [x]))
    (hcur : l'.current = l.current.map fun c ↦
      if c = some x.1 then Heap.lastAddr none xs else c) : At l' level xs := by
  rw [At, hcur, List.getElem?_map, hat]
  simp

/-- A cursor on another element than the deleted one. -/
theorem At.of_deleted {l' : ListRec γ} {zs : List (Addr × γ)} {c' : Option Addr}
    (hat : At l level zs) (hzs : x.1 ∉ zs.map Prod.fst)
    (hcur : l'.current = l.current.map fun c ↦ if c = some x.1 then c' else c) :
    At l' level zs := by
  rw [At, hcur, List.getElem?_map, hat, Option.map_some, if_neg]
  exact fun heq ↦ hzs (lastAddr_mem heq)

/-- **Deleting an element**: the cursors on it go one back, and no other one moves. A list without elements
is freed if it has one cursor only. -/
theorem Represents.unlinkElem (h : Represents l (xs ++ x :: ys)) :
    ∃ l', IList.deleteElem l x.1 =
        .ok (if xs ++ ys = [] ∧ l.current.length = 1 then none else some l') ∧
      Represents l' (xs ++ ys) ∧
      (l'.current = l.current.map fun c ↦ if c = some x.1 then Heap.lastAddr none xs else c) ∧
      ∀ a, a ∉ (xs ++ ys).map Prod.fst → l'.elems.node a = (l.elems.free x.1).node a := by
  obtain ⟨h₁, h₂, hlink₁, hlink₂, hchain, -, hframe⟩ := h.chain.unlink h.nodup
  have hlink : (l.elems.linkPrev (Heap.headAddr none ys) (Heap.lastAddr none xs)).bind
      (Heap.linkNext (Heap.lastAddr none xs) (Heap.headAddr none ys)) = some h₂ := by
    rw [Heap.linkPrev_linkNext_comm, hlink₁, Option.bind_some, hlink₂]
  have hx : x.1 ∉ (xs ++ ys).map Prod.fst := by
    have hnodup := h.nodup
    rw [List.map_append, List.map_cons, List.nodup_middle, List.nodup_cons] at hnodup
    rw [List.map_append]
    exact hnodup.1
  have hsize : l.size - 1 = (xs ++ ys).length := by
    rw [h.size, List.length_append, List.length_append, List.length_cons]
    omega
  refine ⟨{ size := l.size - 1
            first := Heap.headAddr none (xs ++ ys)
            last := Heap.lastAddr none (xs ++ ys)
            current := l.current.map fun c ↦ if c = some x.1 then Heap.lastAddr none xs else c
            elems := h₂.free x.1 }, ?_, ⟨?_, ?_, rfl, rfl, hsize, fun a ha ↦ ?_, ?_⟩, rfl,
    fun a ha ↦ ?_⟩
  · have hfirst : (if Heap.lastAddr none xs = none then Heap.headAddr none ys else l.first) =
        Heap.headAddr none (xs ++ ys) := by
      rw [h.first, Heap.headAddr_append, Heap.headAddr_append]
      split_ifs with hnil
      · rw [Heap.lastAddr_eq_none.1 hnil]
        rfl
      · cases xs with
        | nil => exact absurd rfl hnil
        | cons y xs => rfl
    have hlast : (if Heap.headAddr none ys = none then Heap.lastAddr none xs else l.last) =
        Heap.lastAddr none (xs ++ ys) := by
      rw [h.last, Heap.lastAddr_append, Heap.lastAddr_append]
      cases ys <;> rfl
    simp only [IList.deleteElem, h.getElem, Run.ok_bind, hlink, hfirst, hlast, List.length_map, hsize,
      Int.natCast_eq_zero, List.length_eq_zero_iff]
    split_ifs <;> rfl
  · refine hchain.congr fun y hy ↦ Heap.free_node_of_ne _ ?_
    rintro heq
    exact hx (heq ▸ List.mem_map_of_mem hy)
  · refine h.nodup.sublist (List.Sublist.map _ ?_)
    exact (List.Sublist.refl xs).append (List.sublist_cons_self x ys)
  · obtain ⟨c, hc, hca⟩ := List.mem_map.1 ha
    rw [List.map_append, List.mem_append]
    split_ifs at hca with hcx
    · exact .inl (lastAddr_mem hca)
    · subst hca
      have hmem := h.current a hc
      rw [List.map_append, List.map_cons, List.mem_append, List.mem_cons] at hmem
      exact hmem.imp_right fun h ↦ h.resolve_left fun heq ↦ hcx (congrArg some heq)
  · rw [List.length_map]
    exact h.pos
  · rcases eq_or_ne a x.1 with rfl | hne
    · simp [Heap.free]
    · rw [Heap.free_node_of_ne _ hne, Heap.free_node_of_ne _ hne]
      exact hframe a ha

/-- Deleting an element of a list that is not left empty. -/
theorem Represents.deleteElem (h : Represents l (xs ++ x :: ys)) (hne : xs ++ ys ≠ []) :
    ∃ l', deleteElem l x.1 = .ok (some l') ∧ Represents l' (xs ++ ys) ∧
      l'.current = l.current.map fun c ↦ if c = some x.1 then Heap.lastAddr none xs else c := by
  obtain ⟨l', hrun, hrep, hcur, -⟩ := h.unlinkElem
  refine ⟨l', hrun.trans ?_, hrep, hcur⟩
  rw [if_neg fun hnil ↦ hne hnil.1]

theorem Represents.deleteCurrent (h : Represents l (xs ++ x :: ys)) (hne : xs ++ ys ≠ [])
    (hat : At l level (xs ++ [x])) :
    ∃ l', deleteCurrent (some l) level = .ok (some l') ∧ Represents l' (xs ++ ys) ∧
      l'.current = l.current.map fun c ↦ if c = some x.1 then Heap.lastAddr none xs else c := by
  obtain ⟨l', hrun, hrep, hcur⟩ := h.deleteElem hne
  refine ⟨l', ?_, hrep, hcur⟩
  rw [IList.deleteCurrent, getCurrent, hat]
  simpa using hrun

theorem Represents.findElem [DecidableEq γ] (as : List (Addr × γ))
    (h : Represents l (as ++ (xs ++ x :: ys))) (hnot : ∀ y ∈ xs, y.2 ≠ x.2) {fuel : ℕ}
    (hfuel : xs.length < fuel) :
    findElem l x.2 fuel (Heap.headAddr none (xs ++ x :: ys)) = .ok (some x.1) := by
  induction xs generalizing as fuel with
  | nil =>
    obtain _ | fuel := fuel
    · simp at hfuel
    rw [List.nil_append] at h ⊢
    rw [Heap.headAddr_cons, IList.findElem, h.getElem, Run.ok_bind, if_pos rfl]
  | cons y xs ih =>
    obtain _ | fuel := fuel
    · simp at hfuel
    rw [List.forall_mem_cons] at hnot
    rw [List.cons_append] at h ⊢
    rw [Heap.headAddr_cons, IList.findElem, h.getElem, Run.ok_bind, if_neg hnot.1]
    refine ih (as ++ [y]) (by simpa using h) hnot.2 (Nat.lt_of_succ_lt_succ hfuel)

/-- The first element with a pointer is the one that `List_remove` deletes. -/
theorem Represents.remove_eq [DecidableEq γ] (h : Represents l (xs ++ x :: ys))
    (hnot : ∀ y ∈ xs, y.2 ≠ x.2) : remove (some l) x.2 = IList.deleteElem l x.1 := by
  have hfuel : xs.length < l.size.toNat + 1 := by
    rw [h.size, Int.toNat_natCast, List.length_append, List.length_cons]
    omega
  rw [IList.remove, h.first, Represents.findElem [] h hnot hfuel]
  rfl

theorem Represents.remove [DecidableEq γ] (h : Represents l (xs ++ x :: ys)) (hne : xs ++ ys ≠ [])
    (hptr : ((xs ++ x :: ys).map Prod.snd).Nodup) :
    ∃ l', remove (some l) x.2 = .ok (some l') ∧ Represents l' (xs ++ ys) ∧
      l'.current = l.current.map fun c ↦ if c = some x.1 then Heap.lastAddr none xs else c := by
  obtain ⟨l', hrun, hrep, hcur⟩ := h.deleteElem hne
  refine ⟨l', ?_, hrep, hcur⟩
  have hnot : ∀ y ∈ xs, y.2 ≠ x.2 := by
    rw [List.map_append, List.map_cons, List.nodup_append] at hptr
    exact fun y hy ↦ hptr.2.2 y.2 (List.mem_map_of_mem hy) x.2 List.mem_cons_self
  exact (h.remove_eq hnot).trans hrun

end Spec

end OpenImpact.IList
