import OpenImpact.Library.CExpr
import OpenImpact.Library.IList

/-!
# Calls on lists

The functions of `i_list.c` that insert elements, append lists and move cursors, and sequences of calls on
any number of lists. Each list has its own elements; `List_append` puts those of two lists together. An
insertion is given the address of its new element.
-/

namespace OpenImpact.IList

open Foundation

variable {γ : Type}

/-- `List_new_list`. -/
def newList : ListRec γ where
  size := 0
  first := none
  last := none
  current := [none]
  elems := .empty

/-- The list that an insertion goes on with. -/
def orNew (list : ListPtr γ) : ListRec γ :=
  match list with
  | none => newList
  | some l => l

/-- What the links of a new element are changed to, if all of them are there. -/
def linked (elems : Option (Heap γ)) (f : Heap γ → ListRec γ) : Run (ListRec γ) :=
  match elems with
  | none => .error .fault
  | some elems => .ok (f elems)

/-- An element in front of all. -/
def addFirst (l : ListRec γ) (ptr : γ) (a : Addr) : Run (ListRec γ) := do
  let size ← int32 (l.size + 1)
  linked ((l.elems.set a ⟨none, l.first, ptr⟩).linkPrev l.first (some a)) fun elems ↦
    { l with
      size := size
      first := some a
      last := if l.first = none then some a else l.last
      elems := elems }

/-- An element behind all. -/
def addLast (l : ListRec γ) (ptr : γ) (a : Addr) : Run (ListRec γ) := do
  let size ← int32 (l.size + 1)
  linked ((l.elems.set a ⟨l.last, none, ptr⟩).linkNext l.last (some a)) fun elems ↦
    { l with
      size := size
      first := if l.last = none then some a else l.first
      last := some a
      elems := elems }

/-- An element before the one of a cursor. -/
def addPrev (l : ListRec γ) (c : Addr) (ptr : γ) (a : Addr) : Run (ListRec γ) := do
  let e ← getElem l c
  let size ← int32 (l.size + 1)
  linked (((l.elems.set a ⟨e.prev, some c, ptr⟩).linkPrev (some c) (some a)).bind
      (Heap.linkNext e.prev (some a))) fun elems ↦
    { l with
      size := size
      first := if e.prev = none then some a else l.first
      elems := elems }

/-- An element behind the one of a cursor. -/
def addNext (l : ListRec γ) (c : Addr) (ptr : γ) (a : Addr) : Run (ListRec γ) := do
  let e ← getElem l c
  let size ← int32 (l.size + 1)
  linked (((l.elems.set a ⟨some c, e.next, ptr⟩).linkNext (some c) (some a)).bind
      (Heap.linkPrev e.next (some a))) fun elems ↦
    { l with
      size := size
      last := if e.next = none then some a else l.last
      elems := elems }

/-- `List_insert_first`. -/
def insertFirst (list : ListPtr γ) (ptr : γ) (a : Addr) : Run (ListPtr γ) :=
  some <$> addFirst (orNew list) ptr a

/-- `List_insert_last`. -/
def insertLast (list : ListPtr γ) (ptr : γ) (a : Addr) : Run (ListPtr γ) :=
  some <$> addLast (orNew list) ptr a

/-- `List_insert_prev_l` with `addPrev` and `List_insert_next_l` with `addNext`: when nothing is being
pointed to, append to the end of the list. -/
def insertAt (add : ListRec γ → Addr → γ → Addr → Run (ListRec γ)) (list : ListPtr γ) (ptr : γ)
    (a : Addr) (level : ℕ) : Run (ListPtr γ) := do
  let c ← getCurrent (orNew list) level
  match c with
  | none => some <$> addLast (orNew list) ptr a
  | some c => some <$> add (orNew list) c ptr a

/-- `List_insert_prev_l`. -/
def insertPrev (list : ListPtr γ) : γ → Addr → ℕ → Run (ListPtr γ) := insertAt addPrev list

/-- `List_insert_next_l`. -/
def insertNext (list : ListPtr γ) : γ → Addr → ℕ → Run (ListPtr γ) := insertAt addNext list

/-- The elements of two lists. -/
def joinElems (h k : Heap γ) : Heap γ where
  node a := (h.node a).or (k.node a)
  fresh := max h.fresh k.fresh

/-- `List_append`. `List_reset` of a list without elements only frees it. -/
def append (list appendList : ListPtr γ) : Run (ListPtr γ) :=
  match list with
  | none => .ok appendList
  | some l =>
    if l.size = 0 then .ok appendList
    else
      match appendList with
      | none => .ok (some l)
      | some m =>
        if m.size = 0 then .ok (some l)
        else
          -- both lists have elements: `list->last` and `append_list->first` are accessed
          if l.last = none ∨ m.first = none then .error .fault
          else do
            let size ← int32 (l.size + m.size)
            some <$> linked (((joinElems l.elems m.elems).linkNext l.last m.first).bind
                (Heap.linkPrev m.first l.last)) fun elems ↦
              { l with size := size, last := m.last, elems := elems }

/-- `list->current[level] = c; return list->current[level]->ptr`. -/
def moveOnto (l : ListRec γ) (level : ℕ) (c : Option Addr) : Run (ListPtr γ × Option γ) :=
  match c with
  | none => .error .fault
  | some a => do
    let e ← getElem l a
    .ok (some (setCurrent l level (some a)), some e.val)

/-- `List_first_l`. -/
def first (list : ListPtr γ) (level : ℕ) : Run (ListPtr γ × Option γ) :=
  match list with
  | none => .ok (none, none)
  | some l => do
    let _ ← getCurrent l level
    moveOnto l level l.first

/-- `List_last_l`, which tests for an empty list. -/
def last (list : ListPtr γ) (level : ℕ) : Run (ListPtr γ × Option γ) :=
  match list with
  | none => .ok (none, none)
  | some l => do
    let _ ← getCurrent l level
    let (l, ptr) ← moveTo l level l.last
    .ok (some l, ptr)

/-- `List_prev_l`. -/
def prev (list : ListPtr γ) (level : ℕ) : Run (ListPtr γ × Option γ) :=
  match list with
  | none => .ok (none, none)
  | some l => do
    let c ← getCurrent l level
    match c with
    | none => moveOnto l level l.last
    | some a => do
      let e ← getElem l a
      let (l, ptr) ← moveTo l level e.prev
      .ok (some l, ptr)

/-! ### Sequences of calls -/

/-- Calls on the lists that the variables `v` and `w` hold. -/
inductive Call (γ : Type) where
  | insertFirst (v : ℕ) (ptr : γ) (a : Addr)
  | insertLast (v : ℕ) (ptr : γ) (a : Addr)
  | insertPrev (v : ℕ) (ptr : γ) (a : Addr) (level : ℕ)
  | insertNext (v : ℕ) (ptr : γ) (a : Addr) (level : ℕ)
  | deleteCurrent (v level : ℕ)
  | remove (v : ℕ) (ptr : γ)
  | append (v w : ℕ)
  | registerNewPtr (v : ℕ)
  | copyCurrentPtr (v toLevel fromLevel : ℕ)
  | start (v level : ℕ)
  | first (v level : ℕ)
  | last (v level : ℕ)
  | next (v level : ℕ)
  | prev (v level : ℕ)

/-- What a call returns, besides the list: a pointer, or a level. -/
inductive Out (γ : Type) where
  | done
  | ptr (p : Option γ)
  | level (n : ℕ)

/-- The lists in the variables. -/
abbrev Lists (γ : Type) := ℕ → ListPtr γ

/-- `v = f (v)`. -/
def assign (s : Lists γ) (v : ℕ) (list : Run (ListPtr γ)) : Run (Lists γ × Out γ) := do
  let list ← list
  .ok (Function.update s v list, .done)

/-- A call that returns a pointer, and changes the cursors of a list. -/
def assignPtr (s : Lists γ) (v : ℕ) (list : Run (ListPtr γ × Option γ)) :
    Run (Lists γ × Out γ) := do
  let (list, p) ← list
  .ok (Function.update s v list, .ptr p)

/-- One call. The variable of an appended list is not used afterwards, until it is assigned again. -/
def exec [DecidableEq γ] (s : Lists γ) : Call γ → Run (Lists γ × Out γ)
  | .insertFirst v ptr a => assign s v (insertFirst (s v) ptr a)
  | .insertLast v ptr a => assign s v (insertLast (s v) ptr a)
  | .insertPrev v ptr a level => assign s v (insertPrev (s v) ptr a level)
  | .insertNext v ptr a level => assign s v (insertNext (s v) ptr a level)
  | .deleteCurrent v level => assign s v (deleteCurrent (s v) level)
  | .remove v ptr => assign s v (remove (s v) ptr)
  | .append v w => assign (Function.update s w none) v (append (s v) (s w))
  | .registerNewPtr v => do
    let (list, level) ← registerNewPtr (s v)
    -- `list->num_currents++`
    let _ ← int32 (level + 1)
    .ok (Function.update s v list, .level level)
  | .copyCurrentPtr v toLevel fromLevel => assign s v (copyCurrentPtr (s v) toLevel fromLevel)
  | .start v level => assign s v (start (s v) level)
  | .first v level => assignPtr s v (first (s v) level)
  | .last v level => assignPtr s v (last (s v) level)
  | .next v level => assignPtr s v (next (s v) level)
  | .prev v level => assignPtr s v (prev (s v) level)

/-- A sequence of calls, with what they return. -/
def runCalls [DecidableEq γ] : Lists γ → List (Call γ) → Run (Lists γ × List (Out γ))
  | s, [] => .ok (s, [])
  | s, c :: cs => do
    let (s, out) ← exec s c
    let (s, outs) ← runCalls s cs
    .ok (s, out :: outs)

end OpenImpact.IList
