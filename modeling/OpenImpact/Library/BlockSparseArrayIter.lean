import OpenImpact.Library.BlockSparseArrayRuns

/-!
# Iterating over the entries

Two pairs of functions step through the indices that hold a value. `BlockSparseArrayGetNextNonZero` goes
on after the index it is given, and so visits each of them once, in order (`Sparse.Holds.nonZeros`).
`BlockSparseArrayGetNextNonZeroIndex` goes on at that index, finds its value again, and never gets past
the first one (`nonZeroIndices_iff`).

Both results are about every array that calls build, and rest on `Sparse.Holds`, which gives the map
that an array stands for. `nonZeroIndices_iff` says that the second pair is right for no array but
the empty one. Changes to the array during an iteration are left out.
-/

namespace OpenImpact.BlockSparseArray

open Foundation Heap

variable {V : Type} {G : Sparse V} {h : Heap (Block V)} {l m : List (Addr × Block V)} {index : ℤ}
  {c : ℤ → Option V}

/-! ### The source's functions -/

/-- An entry that a search found: its block, its index and its value. -/
structure Hit (V : Type) where
  block : Addr
  index : ℤ
  data : V

/-- The loop over the entries of a block from `i` on, with the number of entries left. -/
def scanData (b : Block V) : ℕ → ℤ → Run (Option (ℤ × V))
  | 0, _ => return none
  | n + 1, i =>
    if 0 ≤ i then
      match b.data[i.toNat]? with
      | some (some v) => return some (i, v)
      | some none => scanData b n (i + 1)
      | none => .error .fault
    else .error .fault

/-- `for (i = start; i < temp->length; i++)`. -/
def scanBlock (b : Block V) (start : ℤ) : Run (Option (ℤ × V)) :=
  scanData b (b.length - start).toNat start

/-- The loop to the first block of the list. -/
def rewind (h : Heap (Block V)) : ℕ → Addr → Run Addr
  | 0, _ => .error .outOfFuel
  | fuel + 1, temp => do
    let b ← deref (h.node temp)
    match b.prev with
    | some prev => rewind h fuel prev
    | none => return temp

/-- The loop over the blocks. -/
def scanBlocks (h : Heap (Block V)) : ℕ → Option Addr → Run (Option (Hit V))
  | 0, _ => .error .outOfFuel
  | _ + 1, none => return none
  | fuel + 1, some temp => do
    let t ← deref (h.node temp)
    match ← scanBlock t.val 0 with
    | some (i, v) => do
      let index ← int32 (t.val.firstIndex + i)
      return some ⟨temp, index, v⟩
    | none => scanBlocks h fuel t.next

/-- The search from the start of the array. -/
def searchFirst (G : Sparse V) : Run (Option (Hit V)) := do
  let temp ← rewind G.heap (fuel G.heap) G.array
  scanBlocks G.heap (fuel G.heap) (some temp)

/-- The search on from `index`, which starts `skip` entries further on. -/
def searchNext (G : Sparse V) (index skip : ℤ) : Run (Option (Hit V) × Sparse V) := do
  let (found, G) ← getBlock G index
  if found = true then do
    let t ← deref (G.heap.node G.array)
    match ← scanBlock t.val (index - t.val.firstIndex + skip) with
    | some (i, v) => do
      let index ← int32 (t.val.firstIndex + i)
      return (some ⟨G.array, index, v⟩, G)
    | none => do
      let hit ← scanBlocks G.heap (fuel G.heap) t.next
      return (hit, G)
  else return (none, G)

/-- The index returned for a search. -/
def indexOf : Option (Hit V) → ℤ
  | some hit => hit.index
  | none => -1

/-- The cursor after a search. -/
def Sparse.moveTo (G : Sparse V) : Option (Hit V) → Sparse V
  | some hit => { G with array := hit.block }
  | none => G

/-- `BlockSparseArrayGetFirstNonZeroIndex`. -/
def getFirstNonZeroIndex (G : Sparse V) : Run (ℤ × Sparse V) := do
  let hit ← searchFirst G
  return (indexOf hit, G.moveTo hit)

/-- `BlockSparseArrayGetNextNonZeroIndex`. -/
def getNextNonZeroIndex (G : Sparse V) (index : ℤ) : Run (ℤ × Sparse V) := do
  let (hit, G) ← searchNext G index 0
  return (indexOf hit, G.moveTo hit)

/-- `BlockSparseArrayGetFirstNonZero`: what it returns, and what it leaves in `*index`. -/
def getFirstNonZero (G : Sparse V) : Run (Option V × ℤ × Sparse V) := do
  let hit ← searchFirst G
  return (hit.map Hit.data, indexOf hit, G.moveTo hit)

/-- `BlockSparseArrayGetNextNonZero`. -/
def getNextNonZero (G : Sparse V) (index : ℤ) : Run (Option V × ℤ × Sparse V) := do
  let (hit, G) ← searchNext G index 1
  return (hit.map Hit.data, indexOf hit, G.moveTo hit)

/-- The indices that a caller visits until it gets `-1`. -/
def visit (next : Sparse V → ℤ → Run (ℤ × Sparse V)) : ℕ → ℤ × Sparse V → Run (List ℤ)
  | 0, _ => .error .outOfFuel
  | fuel + 1, (index, G) =>
    if index = -1 then return []
    else do
      let st ← next G index
      let rest ← visit next fuel st
      return index :: rest

/-- The visit with the functions that return an index. -/
def nonZeroIndices (fuel : ℕ) (G : Sparse V) : Run (List ℤ) := do
  let st ← getFirstNonZeroIndex G
  visit getNextNonZeroIndex fuel st

/-- The visit with the functions that return a value. -/
def nonZeros (fuel : ℕ) (G : Sparse V) : Run (List ℤ) := do
  let (_, st) ← getFirstNonZero G
  visit (fun G index ↦ do
    let (_, st) ← getNextNonZero G index
    return st) fuel st

/-! ### Searching -/

/-- The first entry from `lo` on. -/
def IsFirstFrom (c : ℤ → Option V) (lo : ℤ) : Option (Hit V) → Prop
  | none => ∀ j, lo ≤ j → c j = none
  | some hit => lo ≤ hit.index ∧ c hit.index = some hit.data ∧ ∀ j, lo ≤ j → j < hit.index → c j = none

/-- The lower end moves over indices without a value. -/
theorem IsFirstFrom.lower {lo lo' : ℤ} {r : Option (Hit V)} (hr : IsFirstFrom c lo' r) (hle : lo ≤ lo')
    (hnone : ∀ j, lo ≤ j → j < lo' → c j = none) : IsFirstFrom c lo r := by
  have hbelow : ∀ {P : ℤ → Prop}, (∀ j, lo' ≤ j → P j → c j = none) →
      ∀ j, lo ≤ j → P j → c j = none := fun hP j hj hPj ↦
    (le_or_gt lo' j).elim (fun hge ↦ hP j hge hPj) (hnone j hj)
  cases r with
  | none => exact fun j hj ↦ hbelow (P := fun _ ↦ True) (fun j hj _ ↦ hr j hj) j hj trivial
  | some hit => exact ⟨hle.trans hr.1, hr.2.1, hbelow hr.2.2⟩

theorem IsFirstFrom.congr {c' : ℤ → Option V} {lo : ℤ} {r : Option (Hit V)}
    (hr : IsFirstFrom c lo r) (h : ∀ j, lo ≤ j → c j = c' j) : IsFirstFrom c' lo r := by
  cases r with
  | none => exact fun j hj ↦ (h j hj).symm.trans (hr j hj)
  | some hit => exact ⟨hr.1, (h _ hr.1).symm.trans hr.2.1, fun j hj hlt ↦ (h j hj).symm.trans (hr.2.2 j hj hlt)⟩

theorem scanData_spec {b : Block V} (hb : b.WF) (a : Addr) (n : ℕ) {i : ℤ} (hi : 0 ≤ i)
    (hn : b.length ≤ i + n) (hin : n = 0 ∨ i + n = b.length) :
    ∃ r, scanData b n i = .ok r ∧
      IsFirstFrom b.read (b.firstIndex + i) (r.map fun x ↦ ⟨a, b.firstIndex + x.1, x.2⟩) := by
  induction n generalizing i with
  | zero =>
    refine ⟨none, rfl, fun j hj ↦ hb.read_eq_none fun hcon ↦ ?_⟩
    have : j < b.firstIndex + b.length := hcon.2
    omega
  | succ n ih =>
    have hdata := hb.data
    have hlt : i.toNat < b.data.length := by omega
    have hread : b.read (b.firstIndex + i) = b.data[i.toNat] := by
      rw [Block.read, if_pos (by omega), show b.firstIndex + i - b.firstIndex = i by omega,
        List.getElem?_eq_getElem hlt, Option.join_some]
    rw [scanData, if_pos hi, List.getElem?_eq_getElem hlt]
    rcases hv : b.data[i.toNat] with - | v
    · obtain ⟨r, hrun, hr⟩ := ih (i := i + 1) (by omega) (by omega) (by omega)
      refine ⟨r, hrun, hr.lower (by omega) fun j hj hlt ↦ ?_⟩
      rw [show j = b.firstIndex + i by omega, hread, hv]
    · refine ⟨some (i, v), rfl, le_rfl, hread.trans hv, fun j hj hlt ↦ ?_⟩
      exact absurd hj (not_le.2 hlt)

theorem scanBlock_spec {b : Block V} (hb : b.WF) (a : Addr) (start : ℤ) (hstart : 0 ≤ start) :
    ∃ r, scanBlock b start = .ok r ∧
      IsFirstFrom b.read (b.firstIndex + start) (r.map fun x ↦ ⟨a, b.firstIndex + x.1, x.2⟩) := by
  have := hb.pos
  exact scanData_spec hb a _ hstart (by omega) (by omega)

theorem scanBlocks_spec (fuel : ℕ) (lo : ℤ) {p : Option Addr} (hc : h.Chain p m none) (hsorted : Sorted m)
    (hwf : ∀ x ∈ m, x.2.WF) (hlo : ∀ x ∈ m, lo ≤ x.2.firstIndex) (hfuel : m.length < fuel) :
    ∃ r, scanBlocks h fuel (headAddr none m) = .ok r ∧ IsFirstFrom (valueAt m) lo r ∧
      ∀ hit, r = some hit → hit.block ∈ m.map Prod.fst := by
  induction m generalizing p fuel lo with
  | nil =>
    obtain ⟨fuel, rfl⟩ := Nat.exists_eq_succ_of_ne_zero (Nat.ne_of_gt hfuel)
    exact ⟨none, rfl, fun _ _ ↦ rfl, fun _ h ↦ nomatch h⟩
  | cons x m ih =>
    obtain ⟨fuel, rfl⟩ := Nat.exists_eq_succ_of_ne_zero (Nat.ne_of_gt (Nat.zero_lt_of_lt hfuel))
    rw [sorted_cons] at hsorted
    have hx := hwf x List.mem_cons_self
    have hxlo := hlo x List.mem_cons_self
    have hxb := hx.bounds
    obtain ⟨r, hscan, hr⟩ := scanBlock_spec hx x.1 0 le_rfl
    rw [headAddr_cons, scanBlocks, hc.1, deref_some, Run.ok_bind]
    simp only
    rw [hscan, Run.ok_bind]
    -- before the first index of a block it has no entry
    have hbefore : ∀ j, j < x.2.firstIndex → x.2.read j = none := fun j hj ↦
      hx.read_eq_none fun hcon ↦ hcon.1.not_gt hj
    have hlater : ∀ j, j < x.2.endAt → valueAt m j = none := fun j hj ↦
      valueAt_eq_none (fun z hz ↦ hwf z (List.mem_cons_of_mem _ hz)) fun z hz hcon ↦ by
        have := hsorted.1 z hz
        have := hcon.1
        omega
    rcases r with - | ⟨i, v⟩
    · obtain ⟨r, hrun, hr', hblock⟩ := ih fuel lo hc.2 hsorted.2
        (fun z hz ↦ hwf z (List.mem_cons_of_mem _ hz))
        (fun z hz ↦ hlo z (List.mem_cons_of_mem _ hz)) (Nat.lt_of_succ_lt_succ hfuel)
      refine ⟨r, hrun, hr'.congr fun j hj ↦ ?_, fun hit h ↦ List.mem_cons_of_mem _ (hblock hit h)⟩
      rw [valueAt_cons]
      rcases le_or_gt x.2.firstIndex j with hge | hlt
      · rw [hr j (by omega), Option.none_or]
      · rw [hbefore j hlt, Option.none_or]
    · obtain ⟨hle, hread, hmin⟩ := hr
      simp only at hle hread hmin
      have hne : x.2.read (x.2.firstIndex + i) ≠ none := by
        rw [hread]
        exact Option.some_ne_none v
      have hcon : x.2.Contains (x.2.firstIndex + i) :=
        not_not.1 fun hcon ↦ hne (hx.read_eq_none hcon)
      refine ⟨some ⟨x.1, x.2.firstIndex + i, v⟩,
        by simp only [hx.int32_index hne, Run.ok_bind, Run.pure_eq_ok],
        ⟨by simp only; omega, ?_, fun j hj hlt ↦ ?_⟩, ?_⟩
      · rw [valueAt_cons, hread, Option.some_or]
      · rw [valueAt_cons, hlater j (hlt.trans hcon.2), Option.or_none]
        rcases le_or_gt x.2.firstIndex j with hge | hlt'
        · exact hmin j (by omega) hlt
        · exact hbefore j hlt'
      · rintro hit ⟨⟩
        exact List.mem_cons_self

theorem rewind_spec {fuel : ℕ} {l₁ l₂ : List (Addr × Block V)} {x : Addr × Block V}
    (hc : h.Chain none (l₁ ++ x :: l₂) none) (hfuel : l₁.length < fuel) :
    ∃ a, rewind h fuel x.1 = .ok a ∧ headAddr none (l₁ ++ x :: l₂) = some a := by
  induction l₁ using List.reverseRecOn generalizing x l₂ fuel with
  | nil =>
    obtain ⟨fuel, rfl⟩ := Nat.exists_eq_succ_of_ne_zero (Nat.ne_of_gt hfuel)
    refine ⟨x.1, ?_, rfl⟩
    rw [rewind, hc.node, deref_some, Run.ok_bind]
    rfl
  | append_singleton l₁ w ih =>
    obtain ⟨fuel, rfl⟩ := Nat.exists_eq_succ_of_ne_zero (Nat.ne_of_gt (Nat.zero_lt_of_lt hfuel))
    have hassoc : l₁ ++ [w] ++ x :: l₂ = l₁ ++ w :: x :: l₂ := by simp
    rw [List.length_append, List.length_singleton] at hfuel
    obtain ⟨a, hrun, ha⟩ := ih (hassoc ▸ hc) (Nat.lt_of_succ_lt_succ hfuel)
    refine ⟨a, ?_, by rw [hassoc, ha]⟩
    rw [rewind, hc.node, deref_some, Run.ok_bind]
    simp only [lastAddr_append, lastAddr_cons, lastAddr_nil]
    exact hrun

/-! ### Steps -/

/-- What a search leaves, in an array that holds `c`: the first entry from `lo` on, and the cursor on its
block. -/
structure Found (c : ℤ → Option V) (lo : ℤ) (r : Option (Hit V)) (G : Sparse V) : Prop where
  first : IsFirstFrom c lo r
  holds : (G.moveTo r).Holds c

theorem Sparse.Inv.moveTo (hI : G.Inv l) {r : Option (Hit V)}
    (hr : ∀ hit, r = some hit → hit.block ∈ l.map Prod.fst) : (G.moveTo r).Inv l := by
  cases r with
  | none => exact hI
  | some hit =>
    obtain ⟨x, hx, heq⟩ := List.mem_map.1 (hr hit rfl)
    rw [Sparse.moveTo, ← heq]
    exact hI.move hx

theorem Sparse.Holds.searchFirst (hG : G.Holds c) :
    ∃ r, searchFirst G = .ok r ∧ Found c 0 r G := by
  obtain ⟨hU, hnone⟩ | ⟨l, hI, rfl⟩ := hG
  · refine ⟨none, ?_, fun j _ ↦ hnone j, .inl ⟨hU, hnone⟩⟩
    rw [BlockSparseArray.searchFirst, fuel, BlockSparseArray.rewind, hU.node, deref_some, Run.ok_bind]
    simp only [Run.pure_eq_ok, Run.ok_bind]
    obtain ⟨n, hn⟩ := Nat.exists_eq_succ_of_ne_zero (Nat.ne_of_gt (Nat.zero_lt_of_lt hU.fresh))
    rw [scanBlocks, hU.node, deref_some, Run.ok_bind, hn]
    rfl
  · obtain ⟨l₁, c, l₂, hsplit, -, -⟩ := hI.exists_cursor
    have hlen := hI.length_lt_fuel
    rw [hsplit] at hI hlen ⊢
    have hlen₁ : l₁.length < fuel G.heap := by
      rw [List.length_append] at hlen
      omega
    obtain ⟨a, hrewind, ha⟩ := rewind_spec hI.chain hlen₁
    obtain ⟨r, hrun, hr, hblock⟩ := scanBlocks_spec (fuel G.heap) 0 hI.chain hI.sorted hI.wf
      (fun x hx ↦ (hI.wf x hx).nonneg) hlen
    refine ⟨r, ?_, hr, .inr ⟨_, hI.moveTo hblock, rfl⟩⟩
    rw [BlockSparseArray.searchFirst, hrewind, Run.ok_bind, ← ha, hrun]

theorem Sparse.Holds.searchNext (hG : G.Holds c) (hindex : c index ≠ none) (skip : ℤ)
    (hskip : 0 ≤ skip ∧ skip ≤ 1) :
    ∃ r G', searchNext G index skip = .ok (r, G') ∧ Found c (index + skip) r G' := by
  obtain ⟨-, hnone⟩ | ⟨l, hI, rfl⟩ := hG
  · exact absurd (hnone index) hindex
  obtain ⟨m₁, y, m₂, hloc, ⟨hcon, hget⟩ | ⟨hcon, -⟩⟩ := hI.getBlock index
  swap
  · exact absurd (valueAt_eq_none hI.wf (hloc.not_contains hI.sorted hI.wf hcon)) hindex
  have hlen := hI.length_lt_fuel
  have hI' := hI.move hloc.mem
  obtain ⟨rfl, hbefore, -⟩ := hloc
  have hy := hI.wf y (by simp)
  have hyb := hy.bounds
  have hfirst := hcon.1
  have hsorted := hI.sorted
  rw [sorted_append, sorted_cons] at hsorted
  obtain ⟨-, -, hchain⟩ := chain_append.1 hI.chain
  rw [List.length_append, List.length_cons] at hlen
  -- what is before the block of `index` does not matter from `index` on
  have hvalue : ∀ j, index ≤ j → valueAt (m₁ ++ y :: m₂) j = (y.2.read j).or (valueAt m₂ j) := by
    intro j hj
    rw [valueAt_append, valueAt_cons, valueAt_eq_none (fun z hz ↦ hI.wf z (by simp [hz])), Option.none_or]
    exact fun z hz hzcon ↦ ((hbefore z hz).trans hj).not_gt hzcon.2
  have hlater : ∀ j, j < y.2.endAt → valueAt m₂ j = none := fun j hj ↦
    valueAt_eq_none (fun z hz ↦ hI.wf z (by simp [hz])) fun z hz hzcon ↦ by
      have := hsorted.2.1.1 z hz
      have := hzcon.1
      omega
  obtain ⟨r, hscan, hr⟩ := scanBlock_spec hy y.1 (index - y.2.firstIndex + skip) (by omega)
  rw [show y.2.firstIndex + (index - y.2.firstIndex + skip) = index + skip by omega] at hr
  rw [BlockSparseArray.searchNext, hget, Run.ok_bind]
  simp only [if_true]
  rw [hI.chain.node, deref_some, Run.ok_bind]
  simp only
  rw [hscan, Run.ok_bind]
  rcases r with - | ⟨i, v⟩
  · obtain ⟨r, hrun, hr', hblock⟩ := scanBlocks_spec (fuel G.heap) (index + skip) hchain
      hsorted.2.1.2 (fun z hz ↦ hI.wf z (by simp [hz]))
      (fun z hz ↦ by have := hsorted.2.1.1 z hz; have := hcon.2; omega) (by omega)
    refine ⟨r, _, by simp only [hrun, Run.ok_bind, Run.pure_eq_ok], hr'.congr fun j hj ↦ ?_,
      .inr ⟨_, hI'.moveTo fun hit h ↦ ?_, rfl⟩⟩
    · rw [hvalue j (by omega), hr j hj, Option.none_or]
    · have := hblock hit h
      simp only [List.map_append, List.map_cons, List.mem_append, List.mem_cons]
      exact .inr (.inr this)
  · obtain ⟨hle, hread, hmin⟩ := hr
    simp only at hle hread hmin
    have hne : y.2.read (y.2.firstIndex + i) ≠ none := by
      rw [hread]
      exact Option.some_ne_none v
    have hin : y.2.Contains (y.2.firstIndex + i) := not_not.1 fun hcon ↦ hne (hy.read_eq_none hcon)
    refine ⟨some ⟨y.1, y.2.firstIndex + i, v⟩, { G with array := y.1 },
      by simp only [hy.int32_index hne, Run.ok_bind, Run.pure_eq_ok],
      ⟨hle, ?_, fun j hj hlt ↦ ?_⟩, .inr ⟨_, hI', rfl⟩⟩
    · simp only
      rw [hvalue _ (by omega), hread, Option.some_or]
    · rw [hvalue j (by omega), hmin j hj hlt, hlater j (hlt.trans hin.2), Option.none_or]

/-! ### Visits -/

/-- The indices that hold a value, in order. -/
structure IsEnumeration (c : ℤ → Option V) (l : List ℤ) : Prop where
  sorted : l.Pairwise (· < ·)
  mem : ∀ i, i ∈ l ↔ c i ≠ none

/-- An index that holds a value is within the range of `int`. -/
theorem Sparse.Holds.bounds (hG : G.Holds c) (hindex : c index ≠ none) : 0 ≤ index ∧ index < maxEnd := by
  obtain ⟨-, hnone⟩ | ⟨l, hI, rfl⟩ := hG
  · exact absurd (hnone index) hindex
  · obtain ⟨x, hx, hcon⟩ : ∃ x ∈ l, x.2.Contains index := by
      by_contra hnot
      exact hindex (valueAt_eq_none hI.wf fun x hx hcon ↦ hnot ⟨x, hx, hcon⟩)
    exact ⟨(hI.wf x hx).nonneg.trans hcon.1, hcon.2.trans_le (hI.wf x hx).end_le⟩

/-- **A visit that goes on after each index** returns the rest of the indices that hold a value. By
induction on the distance to the last index there can be. -/
theorem visit_after {next : Sparse V → ℤ → Run (ℤ × Sparse V)}
    (hnext : ∀ G index, G.Holds c → c index ≠ none → ∃ r G', next G index = .ok (indexOf r, G'.moveTo r) ∧
      Found c (index + 1) r G') (n : ℕ) {lo : ℤ} {r : Option (Hit V)} (hr : Found c lo r G) (hlo : 0 ≤ lo)
    (hn : maxEnd ≤ lo + n) :
    ∃ fuel l, visit next fuel (indexOf r, G.moveTo r) = .ok l ∧ l.Pairwise (· < ·) ∧
      ∀ i, i ∈ l ↔ lo ≤ i ∧ c i ≠ none := by
  induction n generalizing lo r G with
  | zero =>
    rcases r with - | hit
    · exact ⟨1, [], rfl, List.Pairwise.nil, fun i ↦
        ⟨fun hi ↦ absurd hi List.not_mem_nil, fun hi ↦ absurd (hr.first i hi.1) hi.2⟩⟩
    · have hsome : c hit.index ≠ none := by
        rw [hr.first.2.1]
        exact Option.some_ne_none _
      have := (hr.holds.bounds hsome).2
      have := hr.first.1
      omega
  | succ n ih =>
    rcases r with - | hit
    · exact ⟨1, [], rfl, List.Pairwise.nil, fun i ↦
        ⟨fun hi ↦ absurd hi List.not_mem_nil, fun hi ↦ absurd (hr.first i hi.1) hi.2⟩⟩
    · obtain ⟨hle, hvalue, hmin⟩ := hr.first
      have hsome : c hit.index ≠ none := by
        rw [hvalue]
        exact Option.some_ne_none _
      obtain ⟨r', G', hrun, hr'⟩ := hnext _ _ hr.holds hsome
      obtain ⟨fuel, l, hvisit, hsorted, hmem⟩ := ih hr' (by omega) (by omega)
      refine ⟨fuel + 1, hit.index :: l, ?_, List.pairwise_cons.2 ⟨fun i hi ↦ ?_, hsorted⟩, fun i ↦ ?_⟩
      · rw [visit, indexOf, if_neg (by omega), hrun, Run.ok_bind, hvisit, Run.ok_bind, Run.pure_eq_ok]
      · have := ((hmem i).1 hi).1
        omega
      · rw [List.mem_cons, hmem]
        constructor
        · rintro (rfl | ⟨hi, hci⟩)
          · exact ⟨hle, hsome⟩
          · exact ⟨by omega, hci⟩
        · rintro ⟨hi, hci⟩
          rcases lt_trichotomy i hit.index with hlt | heq | hgt
          · exact absurd (hmin i hi hlt) hci
          · exact .inl heq
          · exact .inr ⟨by omega, hci⟩

/-- **The functions that return a value** visit every index that holds one, in order. -/
theorem Sparse.Holds.nonZeros (hG : G.Holds c) : ∃ fuel l, nonZeros fuel G = .ok l ∧ IsEnumeration c l := by
  obtain ⟨r, hfirst, hr⟩ := hG.searchFirst
  obtain ⟨fuel, l, hvisit, hsorted, hmem⟩ := @visit_after _ _ _
    (fun G index ↦ do
      let (_, st) ← getNextNonZero G index
      return st)
    (fun G index hG hindex ↦ by
      obtain ⟨r, G', hrun, hr⟩ := hG.searchNext hindex 1 (by omega)
      exact ⟨r, G', by simp only [getNextNonZero, hrun, Run.ok_bind, Run.pure_eq_ok], hr⟩)
    maxEnd.toNat _ _ hr le_rfl (by rw [maxEnd]; omega)
  refine ⟨fuel, l, ?_, hsorted, fun i ↦ ⟨fun hi ↦ ((hmem i).1 hi).2, fun hi ↦ ?_⟩⟩
  · simp only [BlockSparseArray.nonZeros, getFirstNonZero, hfirst, Run.ok_bind, Run.pure_eq_ok]
    exact hvisit
  · exact (hmem i).2 ⟨(hG.bounds hi).1, hi⟩

/-- From an index that holds a value the other functions find this index again. -/
theorem Sparse.Holds.getNextNonZeroIndex (hG : G.Holds c) (hindex : c index ≠ none) :
    ∃ G', getNextNonZeroIndex G index = .ok (index, G') ∧ G'.Holds c := by
  obtain ⟨r, G', hrun, hr⟩ := hG.searchNext hindex 0 (by omega)
  rw [add_zero] at hr
  rcases r with - | hit
  · exact absurd (hr.first index le_rfl) hindex
  · have heq : hit.index = index := by
      refine le_antisymm (not_lt.1 fun hlt ↦ hindex (hr.first.2.2 index le_rfl hlt)) hr.first.1
    refine ⟨_, ?_, hr.holds⟩
    rw [BlockSparseArray.getNextNonZeroIndex, hrun, Run.ok_bind]
    simp only [indexOf, heq, Run.pure_eq_ok]

/-- **A visit by index** does not get past an index that holds a value. -/
theorem Sparse.Holds.visit_ne_ok (hG : G.Holds c) (hindex : c index ≠ none) (fuel : ℕ) (l : List ℤ) :
    visit BlockSparseArray.getNextNonZeroIndex fuel (index, G) ≠ .ok l := by
  induction fuel generalizing G l with
  | zero => exact nofun
  | succ fuel ih =>
    obtain ⟨G', hrun, hG'⟩ := hG.getNextNonZeroIndex hindex
    have := (hG.bounds hindex).1
    rw [visit, if_neg (by omega), hrun, Run.ok_bind]
    intro hok
    obtain ⟨l', hl', -⟩ := Run.bind_eq_ok.1 hok
    exact ih hG' l' hl'

/-- The visit by index is what it is for: it ends with the indices that hold a value, in order, and the
visit by value ends with the same ones. -/
def VisitsByIndex (G : Sparse V) (c : ℤ → Option V) : Prop :=
  ∃ l, (∃ fuel, nonZeroIndices fuel G = .ok l) ∧ IsEnumeration c l ∧ ∃ fuel, nonZeros fuel G = .ok l

theorem Sparse.Holds.visitsByIndex_iff (hG : G.Holds c) : VisitsByIndex G c ↔ ∀ i, c i = none := by
  obtain ⟨r, hfirst, hr⟩ := hG.searchFirst
  have hstart : ∀ fuel, nonZeroIndices fuel G =
      visit BlockSparseArray.getNextNonZeroIndex fuel (indexOf r, G.moveTo r) := fun fuel ↦ by
    simp only [nonZeroIndices, getFirstNonZeroIndex, hfirst, Run.ok_bind, Run.pure_eq_ok]
  constructor
  · rintro ⟨l, ⟨fuel, hrun⟩, -, -⟩ i
    by_contra hi
    rcases r with - | hit
    · exact hi (hr.first i (hG.bounds hi).1)
    · have hsome : c hit.index ≠ none := by
        rw [hr.first.2.1]
        exact Option.some_ne_none _
      exact hr.holds.visit_ne_ok hsome fuel l ((hstart fuel).symm.trans hrun)
  · intro hnone
    rcases r with - | hit
    · refine ⟨[], ⟨1, hstart 1⟩, ⟨List.Pairwise.nil, by simpa using hnone⟩, 1, ?_⟩
      simp only [BlockSparseArray.nonZeros, getFirstNonZero, hfirst, Run.ok_bind, Run.pure_eq_ok]
      rfl
    · exact absurd hr.first.2.1 (by rw [hnone]; exact nofun)

/-- **The visit by index is right only for an array without values.** -/
theorem nonZeroIndices_iff {ops : List (Op V)} (hops : ∀ op ∈ ops, op.InRange) :
    ∃ vs G, execAll ops newBlockSparseArray = .ok (vs, G) ∧
      (VisitsByIndex G (applyAll ops fun _ ↦ none) ↔ ∀ i, applyAll ops (fun _ ↦ none) i = none) := by
  obtain ⟨G, hrun, hG⟩ := holds_newBlockSparseArray.execAll hops
  exact ⟨_, G, hrun, hG.visitsByIndex_iff⟩

/-- After two writes the visit by index is not right. -/
theorem nonZeroIndices_iff_two :
    ∃ vs G, execAll [.set 3 (some 'a'), .set 70 (some 'b')] newBlockSparseArray = .ok (vs, G) ∧
      (VisitsByIndex G (applyAll [.set 3 (some 'a'), .set 70 (some 'b')] fun _ ↦ none) ↔
        ∀ i, applyAll [.set 3 (some 'a'), .set 70 (some 'b')] (fun _ ↦ none) i = none) :=
  nonZeroIndices_iff (by simp [Op.InRange, maxEnd])

/-- One value is visited over and over. -/
theorem not_visitsByIndex_one :
    ¬∀ ops : List (Op Char), (∀ op ∈ ops, op.InRange) → ∀ vs G,
      execAll ops newBlockSparseArray = .ok (vs, G) → VisitsByIndex G (applyAll ops fun _ ↦ none) := by
  intro h
  have hops : ∀ op ∈ [Op.set 3 (some 'a')], op.InRange := by simp [Op.InRange, maxEnd]
  obtain ⟨G, hrun, hG⟩ := holds_newBlockSparseArray.execAll hops
  have hthree := hG.visitsByIndex_iff.1 (h _ hops _ G hrun) 3
  exact absurd hthree (by decide)

end OpenImpact.BlockSparseArray
