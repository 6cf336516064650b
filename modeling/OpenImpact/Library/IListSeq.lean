import OpenImpact.Library.IListOps
import Mathlib.Data.List.TakeWhile

/-!
# What the calls on lists are for

What the calls do is said on sequences (`Seq`): elements in order, and cursors that stand on one of them or
nowhere. `execSeq` says it for every call and is the specification of the ones in `IListOps`; `Proper` is
what a caller owes the library, and `CallFits` what the library's functions need besides. Each function is
then shown to keep a list and its sequence together (`Holds`).
-/

namespace OpenImpact.IList

open Foundation

variable {γ : Type}

/-! ### Sequences with cursors -/

/-- The elements of a list in order, and where its cursors stand. -/
structure Seq (γ : Type) where
  elems : List (Addr × γ)
  cursors : List (Option Addr)

namespace Seq

/-- The elements before the one at `c`. -/
def before (q : Seq γ) (c : Addr) : List (Addr × γ) := q.elems.takeWhile fun x ↦ x.1 ≠ c

/-- The element at `c` and those behind. -/
def rest (q : Seq γ) (c : Addr) : List (Addr × γ) := q.elems.dropWhile fun x ↦ x.1 ≠ c

/-- The sequence of a list that may be `NULL`. -/
def orNew : Option (Seq γ) → Seq γ
  | none => ⟨[], [none]⟩
  | some q => q

def insertFirst (q : Seq γ) (x : Addr × γ) : Seq γ := { q with elems := x :: q.elems }

def insertLast (q : Seq γ) (x : Addr × γ) : Seq γ := { q with elems := q.elems ++ [x] }

/-- A new element before the one of a cursor, or behind all. -/
def insertPrev (q : Seq γ) (x : Addr × γ) (level : ℕ) : Seq γ :=
  match q.cursors[level]? with
  | some (some c) => { q with elems := q.before c ++ x :: q.rest c }
  | _ => q.insertLast x

/-- A new element behind the one of a cursor, or behind all. -/
def insertNext (q : Seq γ) (x : Addr × γ) (level : ℕ) : Seq γ :=
  match q.cursors[level]? with
  | some (some c) => { q with elems := q.before c ++ (q.rest c).take 1 ++ x :: (q.rest c).drop 1 }
  | _ => q.insertLast x

/-- The elements but the one at `c`. The cursors on it go one back, and a list that has no elements left
and one cursor only is given up. -/
def erase (q : Seq γ) (c : Addr) : Option (Seq γ) :=
  let elems := q.elems.filter fun x ↦ x.1 ≠ c
  if elems = [] ∧ q.cursors.length = 1 then none
  else some ⟨elems, q.cursors.map fun d ↦ if d = some c then Heap.lastAddr none (q.before c) else d⟩

def append : Option (Seq γ) → Option (Seq γ) → Option (Seq γ)
  | none, r => r
  | some q, none => if q.elems = [] then none else some q
  | some q, some r =>
    if q.elems = [] then some r else some { q with elems := q.elems ++ r.elems }

/-- Where a cursor goes with `List_next_l`. -/
def nextOf (q : Seq γ) (level : ℕ) : Option Addr :=
  match q.cursors[level]? with
  | some (some c) => Heap.headAddr none ((q.rest c).drop 1)
  | _ => Heap.headAddr none q.elems

/-- Where a cursor goes with `List_prev_l`. -/
def prevOf (q : Seq γ) (level : ℕ) : Option Addr :=
  match q.cursors[level]? with
  | some (some c) => Heap.lastAddr none (q.before c)
  | _ => Heap.lastAddr none q.elems

/-- The pointer of the element at an address. -/
def ptrAt (q : Seq γ) (c : Option Addr) : Option γ :=
  (q.elems.find? fun x ↦ some x.1 = c).map Prod.snd

/-- A cursor at an element, or nowhere. -/
def setCursor (q : Seq γ) (level : ℕ) (c : Option Addr) : Seq γ :=
  { q with cursors := q.cursors.set level c }

end Seq

/-- The sequences of the lists in the variables. -/
abbrev Seqs (γ : Type) := ℕ → Option (Seq γ)

/-- A move of a cursor of a list. -/
def moveSeq (t : Seqs γ) (v level : ℕ) (c : Seq γ → Option Addr) : Seqs γ × Out γ :=
  match t v with
  | none => (t, .ptr none)
  | some q => (Function.update t v (some (q.setCursor level (c q))), .ptr (q.ptrAt (c q)))

/-- What a call does to the sequences, and returns. -/
def execSeq [DecidableEq γ] (t : Seqs γ) : Call γ → Seqs γ × Out γ
  | .insertFirst v ptr a => (Function.update t v (some ((Seq.orNew (t v)).insertFirst (a, ptr))), .done)
  | .insertLast v ptr a => (Function.update t v (some ((Seq.orNew (t v)).insertLast (a, ptr))), .done)
  | .insertPrev v ptr a level =>
    (Function.update t v (some ((Seq.orNew (t v)).insertPrev (a, ptr) level)), .done)
  | .insertNext v ptr a level =>
    (Function.update t v (some ((Seq.orNew (t v)).insertNext (a, ptr) level)), .done)
  | .deleteCurrent v level =>
    (Function.update t v ((t v).bind fun q ↦
      match q.cursors[level]? with
      | some (some c) => q.erase c
      | _ => some q), .done)
  | .remove v ptr =>
    (Function.update t v ((t v).bind fun q ↦
      match q.elems.find? fun x ↦ x.2 = ptr with
      | some x => q.erase x.1
      | none => some q), .done)
  | .append v w => (Function.update (Function.update t w none) v (Seq.append (t v) (t w)), .done)
  | .registerNewPtr v =>
    (Function.update t v ((t v).map fun q ↦ { q with cursors := q.cursors ++ [none] }),
      .level ((t v).elim 0 fun q ↦ q.cursors.length))
  | .copyCurrentPtr v toLevel fromLevel =>
    (Function.update t v ((t v).map fun q ↦
      q.setCursor toLevel (q.cursors[fromLevel]?.getD none)), .done)
  | .start v level => (Function.update t v ((t v).map fun q ↦ q.setCursor level none), .done)
  | .first v level => moveSeq t v level fun q ↦ Heap.headAddr none q.elems
  | .last v level => moveSeq t v level fun q ↦ Heap.lastAddr none q.elems
  | .next v level => moveSeq t v level fun q ↦ q.nextOf level
  | .prev v level => moveSeq t v level fun q ↦ q.prevOf level

/-- The sequences after a run, with what its calls return. -/
def runSeqs [DecidableEq γ] : Seqs γ → List (Call γ) → Seqs γ × List (Out γ)
  | t, [] => (t, [])
  | t, c :: cs =>
    let p := runSeqs (execSeq t c).1 cs
    (p.1, (execSeq t c).2 :: p.2)

/-! ### Calls as the library expects them -/

/-- No list has an element at this address. -/
def Unused (t : Seqs γ) (a : Addr) : Prop := ∀ v q, t v = some q → a ∉ q.elems.map Prod.fst

/-- The level of a cursor of a list, if there is a list. -/
def ValidLevel (t : Seqs γ) (v level : ℕ) : Prop := ∀ q, t v = some q → level < q.cursors.length

/-- New elements are at unused addresses, levels are those of cursors, a pointer that is removed is present,
cursors are added to and copied in a list that is not `NULL`, and a list is not appended to itself. -/
def Proper (t : Seqs γ) : Call γ → Prop
  | .insertFirst _ _ a => Unused t a
  | .insertLast _ _ a => Unused t a
  | .insertPrev v _ a level => Unused t a ∧ level < (Seq.orNew (t v)).cursors.length
  | .insertNext v _ a level => Unused t a ∧ level < (Seq.orNew (t v)).cursors.length
  | .deleteCurrent v level => ValidLevel t v level
  | .remove v ptr => ∀ q, t v = some q → ptr ∈ q.elems.map Prod.snd
  | .append v w => v ≠ w
  | .registerNewPtr v => t v ≠ none
  | .copyCurrentPtr v toLevel fromLevel =>
    t v ≠ none ∧ ValidLevel t v toLevel ∧ ValidLevel t v fromLevel
  | .start v level => ValidLevel t v level
  | .first v level => ValidLevel t v level
  | .last v level => ValidLevel t v level
  | .next v level => ValidLevel t v level
  | .prev v level => ValidLevel t v level

/-- `List_first_l` and `List_prev_l` are not called on a list without elements, and the number of elements
and the number of cursors of a list stay in the range of `int`. -/
def CallFits (t : Seqs γ) : Call γ → Prop
  | .first v _ => ∀ q, t v = some q → q.elems ≠ []
  | .prev v _ => ∀ q, t v = some q → q.elems ≠ []
  | .insertFirst v _ _ => (Seq.orNew (t v)).elems.length < 2147483647
  | .insertLast v _ _ => (Seq.orNew (t v)).elems.length < 2147483647
  | .insertPrev v _ _ _ => (Seq.orNew (t v)).elems.length < 2147483647
  | .insertNext v _ _ _ => (Seq.orNew (t v)).elems.length < 2147483647
  | .append v w => ∀ q r, t v = some q → t w = some r → q.elems.length + r.elems.length ≤ 2147483647
  | .registerNewPtr v => ∀ q, t v = some q → q.cursors.length < 2147483647
  | _ => True

/-- A condition on all calls of a run. -/
def AllAlong [DecidableEq γ] (P : Seqs γ → Call γ → Prop) : Seqs γ → List (Call γ) → Prop
  | _, [] => True
  | t, c :: cs => P t c ∧ AllAlong P (execSeq t c).1 cs

/-! ### Representation -/

/-- A list that represents a sequence, with no other elements. -/
structure Holds (l : ListRec γ) (q : Seq γ) : Prop where
  rep : Represents l q.elems
  cursors : l.current = q.cursors
  owned : ∀ a, l.elems.node a ≠ none → a ∈ q.elems.map Prod.fst

/-- A list that may be `NULL`. -/
inductive HoldsPtr : ListPtr γ → Option (Seq γ) → Prop
  | null : HoldsPtr none none
  | live {l q} (h : Holds l q) : HoldsPtr (some l) (some q)

/-- Every list represents its sequence, and no two lists share an element. -/
structure Sim (s : Lists γ) (t : Seqs γ) : Prop where
  holds : ∀ v, HoldsPtr (s v) (t v)
  apart : ∀ v w q r, v ≠ w → t v = some q → t w = some r →
    ∀ a ∈ q.elems.map Prod.fst, a ∉ r.elems.map Prod.fst

variable {l : ListRec γ} {q : Seq γ} {xs ys : List (Addr × γ)} {x y : Addr × γ} {a : Addr} {ptr : γ}

/-- What comes before an element, and what is left from it on. -/
theorem Seq.split_eq (hq : q.elems = xs ++ x :: ys) (hnodup : (q.elems.map Prod.fst).Nodup) :
    q.before x.1 = xs ∧ q.rest x.1 = x :: ys ∧ (q.elems.filter fun y ↦ y.1 ≠ x.1) = xs ++ ys := by
  rw [hq, List.map_append, List.map_cons, List.nodup_middle, List.nodup_cons] at hnodup
  have hne : ∀ y ∈ xs ++ ys, y.1 ≠ x.1 := by
    intro y hy heq
    refine hnodup.1 ?_
    rw [← List.map_append, ← heq]
    exact List.mem_map_of_mem hy
  have hxs : ∀ y ∈ xs, decide (y.1 ≠ x.1) = true := fun y hy ↦
    decide_eq_true (hne y (List.mem_append_left _ hy))
  refine ⟨?_, ?_, ?_⟩
  · rw [Seq.before, hq, List.takeWhile_append_of_pos hxs, List.takeWhile_cons]
    simp
  · rw [Seq.rest, hq, List.dropWhile_append_of_pos hxs, List.dropWhile_cons]
    simp
  · have hall : ∀ y ∈ xs ++ ys, decide (y.1 ≠ x.1) = true := fun y hy ↦ decide_eq_true (hne y hy)
    rw [hq, List.filter_append, List.filter_cons_of_neg (by simp), ← List.filter_append,
      List.filter_eq_self.2 hall]

/-- Changing an element neither makes nor frees one. -/
theorem modify_node_eq_none {h h' : Heap γ} {b : Option Addr} {f : Node γ → Node γ}
    (hmod : h.modify b f = some h') (a : Addr) : h'.node a = none ↔ h.node a = none := by
  cases b with
  | none => rw [← Option.some.inj hmod]
  | some b =>
    obtain ⟨e, he, rfl⟩ := Option.map_eq_some_iff.1 hmod
    rcases eq_or_ne a b with rfl | hne
    · simp [he]
    · rw [Heap.set_node_of_ne _ hne]

/-- **A new element between others** is linked to both. -/
theorem Holds.insert (h : Holds l q) (hq : q.elems = xs ++ ys) (ha : a ∉ q.elems.map Prod.fst)
    (ptr : γ) :
    ∃ elems, ((l.elems.set a ⟨Heap.lastAddr none xs, Heap.headAddr none ys, ptr⟩).linkNext
        (Heap.lastAddr none xs) (some a)).bind (Heap.linkPrev (Heap.headAddr none ys) (some a)) =
          some elems ∧
      Holds ⟨l.size + 1, Heap.headAddr none (xs ++ (a, ptr) :: ys),
        Heap.lastAddr none (xs ++ (a, ptr) :: ys), l.current, elems⟩
        { q with elems := xs ++ (a, ptr) :: ys } := by
  have hnodup : ((xs ++ (a, ptr) :: ys).map Prod.fst).Nodup := by
    rw [List.map_append, List.map_cons, List.nodup_middle, List.nodup_cons, ← List.map_append, ← hq]
    exact ⟨ha, h.rep.nodup⟩
  have hchain := h.rep.chain
  rw [hq, Heap.chain_append] at hchain
  set e : Node γ := ⟨Heap.lastAddr none xs, Heap.headAddr none ys, ptr⟩ with he
  have hset : ∀ y ∈ xs ++ ys, (l.elems.set a e).node y.1 = l.elems.node y.1 := by
    intro y hy
    refine Heap.set_node_of_ne _ ?_ _
    rintro rfl
    exact ha (List.mem_map_of_mem (hq ▸ hy))
  have hlinkable : Heap.Linkable (l.elems.set a e) xs ys a ptr :=
    { left := ⟨_, hchain.1.congr fun y hy ↦ hset y (List.mem_append_left _ hy)⟩
      right := ⟨_, hchain.2.congr fun y hy ↦ hset y (List.mem_append_right _ hy)⟩
      nodup := hnodup
      node := Heap.set_node_self .. }
  obtain ⟨h₁, h₂, hnext, hprev, -, hlinked⟩ := hlinkable.setNext_setPrev
  rw [Heap.setNext_eq_linkNext] at hnext
  rw [Heap.setPrev_eq_linkPrev] at hprev
  refine ⟨h₂, by rw [hnext, Option.bind_some, hprev], ⟨hlinked, hnodup, rfl, rfl, ?_, ?_, h.rep.pos⟩,
    h.cursors, fun b hb ↦ ?_⟩
  · rw [h.rep.size, hq]
    simp
    omega
  · intro b hb
    have hmem := h.rep.current b hb
    rw [hq] at hmem
    simp only [List.map_append, List.map_cons, List.mem_append, List.mem_cons] at hmem ⊢
    tauto
  · rw [Ne, modify_node_eq_none hprev, modify_node_eq_none hnext] at hb
    have hmem : b = a ∨ b ∈ q.elems.map Prod.fst := by
      refine or_iff_not_imp_left.2 fun hne ↦ h.owned b ?_
      rwa [Heap.set_node_of_ne _ hne] at hb
    rw [hq] at hmem
    simp only [List.map_append, List.map_cons, List.mem_append, List.mem_cons] at hmem ⊢
    tauto

/-- The size fits an `int` after an insertion into a shorter list. -/
theorem int32_succ {n : ℕ} (h : n < 2147483647) : int32 ((n : ℤ) + 1) = .ok ((n : ℤ) + 1) :=
  int32_eq (by omega)

/-- The size of a list with room for one more element. -/
theorem Holds.int32_size (h : Holds l q) (hroom : q.elems.length < 2147483647) :
    int32 (l.size + 1) = .ok (l.size + 1) := by
  rw [h.rep.size]
  exact int32_succ hroom

/-- An element in front of all others. -/
theorem Holds.addFirst (h : Holds l q) (ha : a ∉ q.elems.map Prod.fst)
    (hroom : q.elems.length < 2147483647) (ptr : γ) :
    ∃ l', addFirst l ptr a = .ok l' ∧ Holds l' (q.insertFirst (a, ptr)) := by
  obtain ⟨elems, hlink, hholds⟩ := h.insert (List.nil_append q.elems).symm ha ptr
  refine ⟨_, ?_, hholds⟩
  have hprev : (l.elems.set a ⟨none, l.first, ptr⟩).linkPrev l.first (some a) = some elems := by
    rw [h.rep.first]
    exact hlink
  have hlast : (if l.first = none then some a else l.last) =
      Heap.lastAddr none ([] ++ (a, ptr) :: q.elems) := by
    rw [h.rep.first, h.rep.last]
    cases q.elems <;> rfl
  rw [IList.addFirst, h.int32_size hroom, Run.ok_bind, hprev, linked, hlast]
  rfl

/-- An element behind all others. -/
theorem Holds.addLast (h : Holds l q) (ha : a ∉ q.elems.map Prod.fst)
    (hroom : q.elems.length < 2147483647) (ptr : γ) :
    ∃ l', addLast l ptr a = .ok l' ∧ Holds l' (q.insertLast (a, ptr)) := by
  obtain ⟨elems, hlink, hholds⟩ := h.insert (List.append_nil _).symm ha ptr
  refine ⟨_, ?_, hholds⟩
  have hnext : (l.elems.set a ⟨l.last, none, ptr⟩).linkNext l.last (some a) = some elems := by
    rw [h.rep.last, ← hlink]
    exact (Option.bind_fun_some _).symm
  have hfirst : (if l.last = none then some a else l.first) =
      Heap.headAddr none (q.elems ++ [(a, ptr)]) := by
    rw [h.rep.first, h.rep.last, Heap.headAddr_append]
    cases hq : q.elems with
    | nil => rfl
    | cons y ys => rw [if_neg (by rw [Heap.lastAddr_eq_none]; simp)]; rfl
  have hlast : some a = Heap.lastAddr none (q.elems ++ [(a, ptr)]) := by simp
  rw [IList.addLast, h.int32_size hroom, Run.ok_bind, hnext, linked, hfirst, ← hlast]

/-- An element in front of another one. -/
theorem Holds.addPrev (h : Holds l q) (hq : q.elems = xs ++ y :: ys)
    (ha : a ∉ q.elems.map Prod.fst) (hroom : q.elems.length < 2147483647) (ptr : γ) :
    ∃ l', addPrev l y.1 ptr a = .ok l' ∧ Holds l' { q with elems := xs ++ (a, ptr) :: y :: ys } := by
  obtain ⟨elems, hlink, hholds⟩ := h.insert hq ha ptr
  refine ⟨_, ?_, hholds⟩
  have hget : getElem l y.1 = .ok ⟨Heap.lastAddr none xs, Heap.headAddr none ys, y.2⟩ :=
    Represents.getElem (hq ▸ h.rep)
  have hlast : l.last = Heap.lastAddr none (xs ++ (a, ptr) :: y :: ys) := by
    rw [h.rep.last, hq]
    simp
  have hfirst : (if Heap.lastAddr none xs = none then some a else l.first) =
      Heap.headAddr none (xs ++ (a, ptr) :: y :: ys) := by
    rw [h.rep.first, hq, Heap.headAddr_append, Heap.headAddr_append]
    cases xs with
    | nil => rfl
    | cons z zs => rw [if_neg (by rw [Heap.lastAddr_eq_none]; simp)]; rfl
  rw [← Heap.linkPrev_linkNext_comm, Heap.headAddr_cons] at hlink
  simp only [IList.addPrev, hget, h.int32_size hroom, Run.ok_bind, hlink, linked, hfirst, hlast]

/-- An element behind another one. -/
theorem Holds.addNext (h : Holds l q) (hq : q.elems = xs ++ y :: ys)
    (ha : a ∉ q.elems.map Prod.fst) (hroom : q.elems.length < 2147483647) (ptr : γ) :
    ∃ l', addNext l y.1 ptr a = .ok l' ∧
      Holds l' { q with elems := (xs ++ [y]) ++ (a, ptr) :: ys } := by
  have hq' : q.elems = (xs ++ [y]) ++ ys := by simpa using hq
  obtain ⟨elems, hlink, hholds⟩ := h.insert hq' ha ptr
  refine ⟨_, ?_, hholds⟩
  have hget : getElem l y.1 = .ok ⟨Heap.lastAddr none xs, Heap.headAddr none ys, y.2⟩ :=
    Represents.getElem (hq ▸ h.rep)
  have hback : Heap.lastAddr none (xs ++ [y]) = some y.1 := by simp
  have hfirst : l.first = Heap.headAddr none ((xs ++ [y]) ++ (a, ptr) :: ys) := by
    rw [h.rep.first, hq]
    cases xs <;> rfl
  have hlast : (if Heap.headAddr none ys = none then some a else l.last) =
      Heap.lastAddr none ((xs ++ [y]) ++ (a, ptr) :: ys) := by
    rw [h.rep.last, hq']
    cases ys <;> simp
  rw [hback] at hlink
  simp only [IList.addNext, hget, h.int32_size hroom, Run.ok_bind, hlink, linked, hfirst, hlast]

/-- A new list is empty, with one cursor. -/
theorem holds_newList : Holds (newList : ListRec γ) ⟨[], [none]⟩ where
  rep := ⟨trivial, List.nodup_nil, rfl, rfl, rfl, by simp [newList], Nat.one_pos⟩
  cursors := rfl
  owned _ h := absurd rfl h

/-- A list that is made if there is none. -/
theorem HoldsPtr.orNew {list : ListPtr γ} {q : Option (Seq γ)} (h : HoldsPtr list q) :
    Holds (orNew list) (Seq.orNew q) := by
  cases h with
  | null => exact holds_newList
  | live h => exact h

/-- A cursor stands nowhere or on an element. -/
theorem Holds.cursor_cases (h : Holds l q) {level : ℕ} (hlt : level < q.cursors.length) :
    getCurrent l level = .ok none ∧ q.cursors[level]? = some none ∨
      ∃ xs y ys, q.elems = xs ++ y :: ys ∧ getCurrent l level = .ok (some y.1) ∧
        q.cursors[level]? = some (some y.1) := by
  have hget : q.cursors[level]? = some q.cursors[level] := List.getElem?_eq_getElem hlt
  have hcur : getCurrent l level = .ok q.cursors[level] := by rw [getCurrent, h.cursors, hget]
  cases hc : q.cursors[level] with
  | none =>
    rw [hc] at hget hcur
    exact .inl ⟨hcur, hget⟩
  | some c =>
    rw [hc] at hget hcur
    have hmem : c ∈ q.elems.map Prod.fst :=
      h.rep.current c (h.cursors ▸ List.mem_of_getElem? hget)
    obtain ⟨y, hy, rfl⟩ := List.mem_map.1 hmem
    obtain ⟨xs, ys, hq⟩ := List.append_of_mem hy
    exact .inr ⟨xs, y, ys, hq, hcur, hget⟩

/-- `List_insert_prev_l`. -/
theorem Holds.insertPrev (h : Holds l q) {level : ℕ} (hlt : level < q.cursors.length)
    (ha : a ∉ q.elems.map Prod.fst) (hroom : q.elems.length < 2147483647) (ptr : γ) :
    ∃ l', insertPrev (some l) ptr a level = .ok (some l') ∧ Holds l' (q.insertPrev (a, ptr) level) := by
  rw [IList.insertPrev, insertAt, IList.orNew]
  rcases h.cursor_cases hlt with ⟨hcur, hget⟩ | ⟨xs, y, ys, hq, hcur, hget⟩
  · obtain ⟨l', hadd, hholds⟩ := h.addLast ha hroom ptr
    rw [hcur, Seq.insertPrev, hget, Run.ok_bind]
    exact ⟨l', by simp only [hadd, Run.map_ok], hholds⟩
  · obtain ⟨l', hadd, hholds⟩ := h.addPrev hq ha hroom ptr
    obtain ⟨hbefore, hrest, -⟩ := q.split_eq hq h.rep.nodup
    rw [hcur, Seq.insertPrev, hget, Run.ok_bind]
    refine ⟨l', by simp only [hadd, Run.map_ok], ?_⟩
    simpa only [hbefore, hrest] using hholds

/-- `List_insert_next_l`. -/
theorem Holds.insertNext (h : Holds l q) {level : ℕ} (hlt : level < q.cursors.length)
    (ha : a ∉ q.elems.map Prod.fst) (hroom : q.elems.length < 2147483647) (ptr : γ) :
    ∃ l', insertNext (some l) ptr a level = .ok (some l') ∧ Holds l' (q.insertNext (a, ptr) level) := by
  rw [IList.insertNext, insertAt, IList.orNew]
  rcases h.cursor_cases hlt with ⟨hcur, hget⟩ | ⟨xs, y, ys, hq, hcur, hget⟩
  · obtain ⟨l', hadd, hholds⟩ := h.addLast ha hroom ptr
    rw [hcur, Seq.insertNext, hget, Run.ok_bind]
    exact ⟨l', by simp only [hadd, Run.map_ok], hholds⟩
  · obtain ⟨l', hadd, hholds⟩ := h.addNext hq ha hroom ptr
    obtain ⟨hbefore, hrest, -⟩ := q.split_eq hq h.rep.nodup
    rw [hcur, Seq.insertNext, hget, Run.ok_bind]
    refine ⟨l', by simp only [hadd, Run.map_ok], ?_⟩
    simpa only [hbefore, hrest, List.take_succ_cons, List.take_zero, List.drop_succ_cons,
      List.drop_zero] using hholds

/-! ### Deleting and appending -/

/-- Deleting an element that is in the list. -/
theorem Holds.deleteElem (h : Holds l q) (hq : q.elems = xs ++ x :: ys) :
    ∃ list, IList.deleteElem l x.1 = .ok list ∧ HoldsPtr list (q.erase x.1) := by
  obtain ⟨l', hrun, hrep, hcur, hframe⟩ := Represents.unlinkElem (hq ▸ h.rep)
  obtain ⟨hbefore, -, hfilter⟩ := q.split_eq hq h.rep.nodup
  refine ⟨_, hrun, ?_⟩
  simp only [Seq.erase, hfilter, hbefore, ← h.cursors]
  split_ifs with hgone
  · exact .null
  · refine .live ⟨hrep, hcur, fun b hb ↦ ?_⟩
    by_contra hmem
    rw [hframe b hmem] at hb
    have hne : b ≠ x.1 := fun heq ↦ hb (heq ▸ Function.update_self ..)
    rw [Heap.free_node_of_ne _ hne] at hb
    have hall := h.owned b hb
    rw [hq, List.map_append, List.map_cons, List.mem_append, List.mem_cons] at hall
    rw [List.map_append, List.mem_append] at hmem
    tauto

/-- `List_delete_current_l`. -/
theorem Holds.deleteCurrent (h : Holds l q) {level : ℕ} (hlt : level < q.cursors.length) :
    ∃ list, deleteCurrent (some l) level = .ok list ∧ HoldsPtr list
      (match q.cursors[level]? with
        | some (some c) => q.erase c
        | _ => some q) := by
  rcases h.cursor_cases hlt with ⟨hcur, hget⟩ | ⟨xs, y, ys, hq, hcur, hget⟩
  · rw [IList.deleteCurrent, hcur, hget, Run.ok_bind]
    exact ⟨some l, rfl, .live h⟩
  · rw [IList.deleteCurrent, hcur, hget, Run.ok_bind]
    exact h.deleteElem hq

/-- `List_remove` deletes the first element with the pointer. -/
theorem Holds.remove [DecidableEq γ] (h : Holds l q) (hptr : ptr ∈ q.elems.map Prod.snd) :
    ∃ list, remove (some l) ptr = .ok list ∧ HoldsPtr list
      (match q.elems.find? fun x ↦ x.2 = ptr with
        | some x => q.erase x.1
        | none => some q) := by
  obtain ⟨z, hz, hzp⟩ := List.mem_map.1 hptr
  obtain ⟨x, hx⟩ : ∃ x, (q.elems.find? fun x ↦ x.2 = ptr) = some x :=
    Option.isSome_iff_exists.1 (List.find?_isSome.2 ⟨z, hz, by simpa using hzp⟩)
  obtain ⟨hxp, xs, ys, hq, hnot⟩ := List.find?_eq_some_iff_append.1 hx
  obtain rfl : x.2 = ptr := of_decide_eq_true hxp
  have hnot' : ∀ y ∈ xs, y.2 ≠ x.2 := fun y hy ↦ by simpa using hnot y hy
  have heq := Represents.remove_eq (hq ▸ h.rep) hnot'
  rw [heq, hx]
  exact h.deleteElem hq

/-- The size says whether the list is empty. -/
theorem Holds.size_eq_zero (h : Holds l q) : l.size = 0 ↔ q.elems = [] := by
  rw [h.rep.size, Nat.cast_eq_zero, List.length_eq_zero_iff]

/-- Two lists with elements become one. -/
theorem Holds.join {m : ListRec γ} {r : Seq γ} (h : Holds l q) (h' : Holds m r) (hne : q.elems ≠ [])
    (hapart : ∀ a ∈ q.elems.map Prod.fst, a ∉ r.elems.map Prod.fst) :
    ∃ elems, ((joinElems l.elems m.elems).linkNext l.last m.first).bind
        (Heap.linkPrev m.first l.last) = some elems ∧
      Holds ⟨l.size + m.size, l.first, Heap.lastAddr none (q.elems ++ r.elems), l.current, elems⟩
        { q with elems := q.elems ++ r.elems } := by
  have hleft : (joinElems l.elems m.elems).Chain none q.elems none := h.rep.chain.congr fun y hy ↦ by
    obtain ⟨xs, ys, hq⟩ := List.append_of_mem hy
    have hnode := h.rep.chain
    rw [hq] at hnode
    simp only [joinElems, hnode.node, Option.some_or]
  have hright : (joinElems l.elems m.elems).Chain none r.elems none := h'.rep.chain.congr fun y hy ↦ by
    have hnone : l.elems.node y.1 = none := by
      by_contra hne
      exact hapart y.1 (h.owned y.1 hne) (List.mem_map_of_mem hy)
    simp only [joinElems, hnone, Option.none_or]
  have hnodup : ((q.elems ++ r.elems).map Prod.fst).Nodup := by
    rw [List.map_append, List.nodup_append]
    exact ⟨h.rep.nodup, h'.rep.nodup, fun a ha b hb heq ↦ hapart a ha (heq ▸ hb)⟩
  obtain ⟨h₁, hnext, hleft₁, -, hframe₁⟩ := hleft.linkNext h.rep.nodup (Heap.headAddr none r.elems)
  have hright₁ : h₁.Chain none r.elems none := hright.congr fun y hy ↦
    hframe₁ _ fun hmem ↦ hapart _ hmem (List.mem_map_of_mem hy)
  obtain ⟨h₂, hprev, hright₂, -, hframe₂⟩ :=
    hright₁.linkPrev h'.rep.nodup (Heap.lastAddr none q.elems)
  refine ⟨h₂, ?_, ⟨Heap.chain_append.2 ⟨?_, hright₂⟩, hnodup, ?_, rfl, ?_, fun b hb ↦ ?_, h.rep.pos⟩,
    h.cursors, fun b hb ↦ ?_⟩
  · rw [h.rep.last, h'.rep.first, hnext, Option.bind_some, hprev]
  · exact hleft₁.congr fun y hy ↦ hframe₂ _ (hapart _ (List.mem_map_of_mem hy))
  · obtain ⟨y, ys, hq⟩ := List.exists_cons_of_ne_nil hne
    rw [h.rep.first, hq]
    rfl
  · rw [h.rep.size, h'.rep.size, List.length_append, Nat.cast_add]
  · rw [List.map_append, List.mem_append]
    exact .inl (h.rep.current b hb)
  · rw [Ne, modify_node_eq_none hprev, modify_node_eq_none hnext] at hb
    rw [List.map_append, List.mem_append]
    refine or_iff_not_imp_left.2 fun hnot ↦ h'.owned b fun hnone ↦ hb ?_
    have hl : l.elems.node b = none := by
      by_contra hne
      exact hnot (h.owned b hne)
    simp only [joinElems, hl, hnone, Option.or_none]

/-- `List_append` puts one list behind the other. -/
theorem HoldsPtr.append {list appendList : ListPtr γ} {q r : Option (Seq γ)} (h : HoldsPtr list q)
    (h' : HoldsPtr appendList r)
    (hapart : ∀ q' r', q = some q' → r = some r' →
      ∀ a ∈ q'.elems.map Prod.fst, a ∉ r'.elems.map Prod.fst)
    (hroom : ∀ q' r', q = some q' → r = some r' → q'.elems.length + r'.elems.length ≤ 2147483647) :
    ∃ list', append list appendList = .ok list' ∧ HoldsPtr list' (Seq.append q r) := by
  cases h with
  | null => exact ⟨appendList, rfl, h'⟩
  | @live l q h =>
    rcases eq_or_ne q.elems [] with hnil | hne
    · refine ⟨appendList, if_pos (h.size_eq_zero.2 hnil), ?_⟩
      cases h' with
      | null =>
        rw [Seq.append, if_pos hnil]
        exact .null
      | live h' =>
        rw [Seq.append, if_pos hnil]
        exact .live h'
    · have hsize : l.size ≠ 0 := mt h.size_eq_zero.1 hne
      simp only [IList.append, if_neg hsize]
      cases h' with
      | null =>
        rw [Seq.append, if_neg hne]
        exact ⟨some l, rfl, .live h⟩
      | @live m r h' =>
        rw [Seq.append, if_neg hne]
        rcases eq_or_ne r.elems [] with hnil' | hne'
        · simp only [h'.size_eq_zero.2 hnil', hnil', List.append_nil]
          exact ⟨some l, rfl, .live h⟩
        · obtain ⟨elems, hlink, hholds⟩ := h.join h' hne (hapart q r rfl rfl)
          have hlast : l.last ≠ none := by rwa [h.rep.last, Ne, Heap.lastAddr_eq_none]
          obtain ⟨y, ys, hr⟩ := List.exists_cons_of_ne_nil hne'
          have hfirst : m.first ≠ none := by simp [h'.rep.first, hr]
          have hmlast : m.last = Heap.lastAddr none (q.elems ++ r.elems) := by
            rw [h'.rep.last, hr]
            simp
          have hsum : int32 (l.size + m.size) = .ok (l.size + m.size) := by
            have hle := hroom q r rfl rfl
            exact int32_eq (by rw [h.rep.size, h'.rep.size]; omega)
          rw [← hmlast] at hholds
          simp only [if_neg (mt h'.size_eq_zero.1 hne'), hlast, hfirst, or_self, if_false, hsum, hlink,
            linked, Run.ok_bind, Run.map_ok]
          exact ⟨_, rfl, .live hholds⟩

/-! ### Moving cursors -/

theorem Seq.ptrAt_none (q : Seq γ) : q.ptrAt none = none := by
  rw [Seq.ptrAt, List.find?_eq_none.2 (by simp)]
  rfl

/-- The pointer in an element. -/
theorem Seq.ptrAt_eq (hq : q.elems = xs ++ y :: ys) (hnodup : (q.elems.map Prod.fst).Nodup) :
    q.ptrAt (some y.1) = some y.2 := by
  have hfind : (q.elems.find? fun x ↦ some x.1 = some y.1) = some y := by
    rw [List.find?_eq_some_iff_append]
    refine ⟨by simp, xs, ys, hq, fun x hx ↦ ?_⟩
    rw [hq, List.map_append, List.map_cons, List.nodup_append] at hnodup
    have hne := hnodup.2.2 x.1 (List.mem_map_of_mem hx) y.1 List.mem_cons_self
    simpa using hne
  rw [Seq.ptrAt, hfind]
  rfl

/-- Setting a cursor changes nothing else. -/
theorem Holds.setCurrent (h : Holds l q) {level : ℕ} {c : Option Addr}
    (hc : ∀ a, c = some a → a ∈ q.elems.map Prod.fst) :
    Holds (setCurrent l level c) (q.setCursor level c) where
  rep := h.rep.setCurrent hc
  cursors := by rw [IList.setCurrent, Seq.setCursor, h.cursors]
  owned := h.owned

/-- A cursor goes to an element or nowhere, and the pointer there is returned. -/
theorem Holds.moveTo (h : Holds l q) (level : ℕ) {c : Option Addr}
    (hc : ∀ a, c = some a → a ∈ q.elems.map Prod.fst) :
    moveTo l level c = .ok (IList.setCurrent l level c, q.ptrAt c) ∧
      Holds (IList.setCurrent l level c) (q.setCursor level c) := by
  refine ⟨?_, h.setCurrent hc⟩
  cases c with
  | none =>
    rw [q.ptrAt_none]
    rfl
  | some a =>
    obtain ⟨y, hy, rfl⟩ := List.mem_map.1 (hc a rfl)
    obtain ⟨xs, ys, hq⟩ := List.append_of_mem hy
    have hget : getElem l y.1 = .ok ⟨Heap.lastAddr none xs, Heap.headAddr none ys, y.2⟩ :=
      Represents.getElem (hq ▸ h.rep)
    rw [IList.moveTo, hget, q.ptrAt_eq hq h.rep.nodup]
    rfl

/-- A call that moves a cursor of a live list to `c` and returns the pointer there. -/
def MovesTo (l : ListRec γ) (q : Seq γ) (level : ℕ) (c : Option Addr)
    (run : Run (ListPtr γ × Option γ)) : Prop :=
  run = .ok (some (IList.setCurrent l level c), q.ptrAt c) ∧
    Holds (IList.setCurrent l level c) (q.setCursor level c)

/-- The first element behind `xs` is one of the list. -/
theorem headAddr_mem_of_append {c : Addr} (h : Heap.headAddr none ys = some c) :
    c ∈ (xs ++ ys).map Prod.fst := by
  rw [List.map_append, List.mem_append]
  exact .inr (headAddr_mem h)

/-- So is the last one of `xs`. -/
theorem lastAddr_mem_of_append {c : Addr} (h : Heap.lastAddr none xs = some c) :
    c ∈ (xs ++ ys).map Prod.fst := by
  rw [List.map_append, List.mem_append]
  exact .inl (lastAddr_mem h)

/-- `List_next_l`. -/
theorem Holds.next (h : Holds l q) {level : ℕ} (hlt : level < q.cursors.length) :
    MovesTo l q level (q.nextOf level) (next (some l) level) := by
  rcases h.cursor_cases hlt with ⟨hcur, hget⟩ | ⟨xs, y, ys, hq, hcur, hget⟩
  · have hmove := h.moveTo level (c := Heap.headAddr none q.elems) fun a ↦ headAddr_mem
    refine ⟨?_, by simpa only [Seq.nextOf, hget] using hmove.2⟩
    rw [IList.next, nextL, hcur, Run.ok_bind, Seq.nextOf, hget]
    simp only [h.rep.first, hmove.1, Run.ok_bind]
  · obtain ⟨-, hrest, -⟩ := q.split_eq hq h.rep.nodup
    have hmem : ∀ a, Heap.headAddr none ys = some a → a ∈ q.elems.map Prod.fst := fun a ha ↦ by
      rw [hq, List.append_cons]
      exact headAddr_mem_of_append ha
    have hmove := h.moveTo level hmem
    have hnode : getElem l y.1 = .ok ⟨Heap.lastAddr none xs, Heap.headAddr none ys, y.2⟩ :=
      Represents.getElem (hq ▸ h.rep)
    have hnext : q.nextOf level = Heap.headAddr none ys := by
      simp only [Seq.nextOf, hget, hrest, List.drop_one, List.tail_cons]
    rw [hnext]
    refine ⟨?_, hmove.2⟩
    rw [IList.next, nextL, hcur, Run.ok_bind]
    simp only [hnode, Run.ok_bind, hmove.1]

/-- `List_last_l`. -/
theorem Holds.last (h : Holds l q) {level : ℕ} (hlt : level < q.cursors.length) :
    MovesTo l q level (Heap.lastAddr none q.elems) (last (some l) level) := by
  have hmove := h.moveTo level (c := Heap.lastAddr none q.elems) fun a ↦ lastAddr_mem
  refine ⟨?_, hmove.2⟩
  have hcur : getCurrent l level = .ok q.cursors[level] := by
    rw [getCurrent, h.cursors, List.getElem?_eq_getElem hlt]
  rw [IList.last, hcur, Run.ok_bind, h.rep.last, hmove.1]
  rfl

/-- `moveOnto` an element is `moveTo` it. -/
theorem moveOnto_some (l : ListRec γ) (level : ℕ) (a : Addr) :
    moveOnto l level (some a) = (moveTo l level (some a)).map fun p ↦ (some p.1, p.2) := by
  rw [moveOnto, moveTo]
  cases getElem l a <;> rfl

/-- A cursor moved onto an element stands on it. -/
theorem Holds.moveOnto (h : Holds l q) (level : ℕ) {c : Option Addr} (hne : c ≠ none)
    (hc : ∀ a, c = some a → a ∈ q.elems.map Prod.fst) :
    MovesTo l q level c (moveOnto l level c) := by
  obtain ⟨a, rfl⟩ := Option.ne_none_iff_exists'.1 hne
  obtain ⟨hrun, hholds⟩ := h.moveTo level hc
  exact ⟨by rw [moveOnto_some, hrun]; rfl, hholds⟩

/-- `List_first_l`. -/
theorem Holds.first (h : Holds l q) {level : ℕ} (hlt : level < q.cursors.length)
    (hne : q.elems ≠ []) :
    MovesTo l q level (Heap.headAddr none q.elems) (first (some l) level) := by
  have hhead : Heap.headAddr none q.elems ≠ none := by
    obtain ⟨y, ys, hq⟩ := List.exists_cons_of_ne_nil hne
    simp [hq]
  have hmove := h.moveOnto level hhead fun a ↦ headAddr_mem
  refine ⟨?_, hmove.2⟩
  have hcur : getCurrent l level = .ok q.cursors[level] := by
    rw [getCurrent, h.cursors, List.getElem?_eq_getElem hlt]
  rw [IList.first, hcur, Run.ok_bind, h.rep.first]
  exact hmove.1

/-- `List_prev_l`. -/
theorem Holds.prev (h : Holds l q) {level : ℕ} (hlt : level < q.cursors.length)
    (hne : q.elems ≠ []) : MovesTo l q level (q.prevOf level) (prev (some l) level) := by
  rcases h.cursor_cases hlt with ⟨hcur, hget⟩ | ⟨xs, y, ys, hq, hcur, hget⟩
  · have hprev : q.prevOf level = Heap.lastAddr none q.elems := by simp only [Seq.prevOf, hget]
    have hmove := h.moveOnto level (mt Heap.lastAddr_eq_none.1 hne) fun a ↦ lastAddr_mem
    rw [hprev]
    refine ⟨?_, hmove.2⟩
    rw [IList.prev, hcur, Run.ok_bind]
    simp only [h.rep.last]
    exact hmove.1
  · obtain ⟨hbefore, -, -⟩ := q.split_eq hq h.rep.nodup
    have hmem : ∀ a, Heap.lastAddr none xs = some a → a ∈ q.elems.map Prod.fst := fun a ha ↦ by
      rw [hq]
      exact lastAddr_mem_of_append ha
    have hmove := h.moveTo level hmem
    have hnode : getElem l y.1 = .ok ⟨Heap.lastAddr none xs, Heap.headAddr none ys, y.2⟩ :=
      Represents.getElem (hq ▸ h.rep)
    have hprev : q.prevOf level = Heap.lastAddr none xs := by simp only [Seq.prevOf, hget, hbefore]
    rw [hprev]
    refine ⟨?_, hmove.2⟩
    rw [IList.prev, hcur, Run.ok_bind]
    simp only [hnode, Run.ok_bind, hmove.1]

end OpenImpact.IList
