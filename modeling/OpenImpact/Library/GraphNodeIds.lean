import OpenImpact.Library.GraphControl
import OpenImpact.Library.GraphDom
import OpenImpact.Library.SignedSet

/-!
# Ids of nodes

A node goes by a name of its own in `Shape`, and its sets are finite sets of names. In the code a node is
a pointer and the sets hold the `id` fields, which the caller gives and which may be negative (the dummy
node of a graph usually has the id -1). `Set_intersect_acc` skips the negative elements of the first set
when the second set has no array for them, so `Graph_dominator` and `Graph_post_dominator` are modelled
here once more, over the sets of `SignedSet` and for any ids (`computeDomIds`). The other analyses only
ask which nodes are in a set, and so go on with the names found (`analyseIds`).

The sets of both are the same when no id is negative, and also when the node that the sweeps start from
has a negative one, since then every set has both arrays (`computeDomIds_eq`, `analyseIds_eq`). For
other ids nothing is claimed: a set may then keep an element that is no dominator, and the sweeps need
not end.
-/

namespace OpenImpact.Graph

open SignedSet

/-- The `id` fields of the nodes. Creating a node with an id in use stops the run. -/
structure NodeIds (S : Shape) where
  id : Id → ℤ
  unique : ∀ u ∈ S.nodes, ∀ v ∈ S.nodes, id u = id v → u = v

/-- The names as ids. -/
def NodeIds.names (S : Shape) : NodeIds S := ⟨fun v ↦ v, fun _ _ _ _ h ↦ Int.ofNat.inj h⟩

/-! ### The source's functions -/

/-- One predecessor's contribution to `new_dom`: `Set_union` while that is `NULL`, and
`Set_intersect_acc` from then on. -/
def meetIds : Option SignedSet → Option SignedSet → Option SignedSet
  | none, p => some (p.getD ⟨∅, none⟩)
  | some s, p => intersectAcc (some s) p

/-- `new_dom` of a node. -/
def newDomIds (id : Id → ℤ) (adj : Id → List Id) (other : Id → Id) (dom : Id → Option SignedSet)
    (v : Id) : Option SignedSet :=
  add ((adj v).foldl (fun acc arc ↦ meetIds acc (dom (other arc))) none) (id v)

/-- One sweep over the nodes, and whether it changed a set. -/
def domSweepIds (id : Id → ℤ) (adj : Id → List Id) (other : Id → Id) :
    List Id → (Id → Option SignedSet) → (Id → Option SignedSet) × Bool
  | [], dom => (dom, false)
  | v :: rest, dom =>
    let new := newDomIds id adj other dom v
    if Same new (dom v) then domSweepIds id adj other rest dom
    else ((domSweepIds id adj other rest (Function.update dom v new)).1, true)

/-- The sweeps, until nothing changes. -/
def domLoopIds (id : Id → ℤ) (adj : Id → List Id) (other : Id → Id) (nodes : List Id) :
    ℕ → (Id → Option SignedSet) → Run (Id → Option SignedSet)
  | 0, _ => .error .outOfFuel
  | fuel + 1, dom =>
    let (dom, change) := domSweepIds id adj other nodes dom
    if change then domLoopIds id adj other nodes fuel dom else return dom

/-- The sets before the sweeps; `nodes.foldl` is `all`. -/
def domInitIds (id : Id → ℤ) (adj : Id → List Id) (nodes : List Id) (v : Id) : Option SignedSet :=
  if v ∈ nodes then
    if (adj v).length ≠ 0 then nodes.foldl (fun all u ↦ add all (id u)) none else add none (id v)
  else none

/-- More sweeps than there are states of the sets: each node has one of at most `2 ^ (n + 1)` sets. A
run that needs more comes back to an earlier state, and never ends. -/
def sweepFuel (n : ℕ) : ℕ := (2 ^ (n + 1)) ^ n + 1

/-- The computation shared by `Graph_dominator` and `Graph_post_dominator`. -/
def computeDomIds (id : Id → ℤ) (adj : Id → List Id) (other : Id → Id) (nodes : List Id) :
    Run (Id → Option SignedSet) :=
  domLoopIds id adj other nodes (sweepFuel nodes.length) (domInitIds id adj nodes)

/-- The nodes with an id in the set. -/
def namesOf (id : Id → ℤ) (nodes : List Id) (s : Option SignedSet) : Option (Finset Id) :=
  s.map fun t ↦ nodes.toFinset.filter fun u ↦ Mem (some t) (id u)

/-- `Graph_dominator`. -/
def dominatorIds (S : Shape) (ids : NodeIds S) (M : Marks) : Run Marks :=
  if M.flags.dom then return M
  else do
    let dom ← computeDomIds ids.id S.pred S.arcPred S.nodes
    return { M with
      dom := fun v ↦ if v ∈ S.nodes then namesOf ids.id S.nodes (dom v) else M.dom v
      flags := { M.flags with dom := true } }

/-- `Graph_post_dominator`. -/
def postDominatorIds (S : Shape) (ids : NodeIds S) (M : Marks) : Run Marks :=
  if M.flags.postDom then return M
  else do
    let postDom ← computeDomIds ids.id S.succ S.arcSucc S.nodes
    return { M with
      postDom := fun v ↦ if v ∈ S.nodes then namesOf ids.id S.nodes (postDom v) else M.postDom v
      flags := { M.flags with postDom := true } }

/-- The call gets as far as `Graph_dominator`. -/
def Analysis.callsDominator (R : Results) : Analysis → Bool
  | .dominator => true
  | .immDominator => !R.immDomDone
  | .preorderDfsSort _ => !R.flags.dfsPreSort
  | .countPaths => !R.flags.countPath
  | _ => false

/-- The call gets as far as `Graph_post_dominator`. -/
def Analysis.callsPostDominator (R : Results) : Analysis → Bool
  | .postDominator => true
  | .immPostDominator => !R.immPostDomDone
  | .controlDependence => !R.controlDone && !R.immPostDomDone
  | .equivCd => !R.equivCdDone && !R.controlDone && !R.immPostDomDone
  | _ => false

/-- The marks after the dominator sets that a call computes before all else. -/
def setsFirst (S : Shape) (ids : NodeIds S) (R : Results) (call : Analysis) : Run Marks :=
  if call.callsDominator R then dominatorIds S ids R.toMarks
  else if call.callsPostDominator R then postDominatorIds S ids R.toMarks
  else .ok R.toMarks

/-- One call, in a graph with ids. `analyse` finds the sets done. -/
def analyseIds (S : Shape) (ids : NodeIds S) (R : Results) (call : Analysis) : Run Results := do
  let M ← setsFirst S ids R call
  analyse S { R with toMarks := M } call

/-- Calls on a new graph, one after the other. -/
def runAnalysesIds (S : Shape) (ids : NodeIds S) (calls : List Analysis) : Run Results :=
  calls.foldlM (analyseIds S ids) .fresh

/-! ### Sets of ids and sets of names -/

/-- Intersections of sets of ids are exact: none is negative, or the sets all have both arrays, since
the sweeps start from negative ids. -/
def ExactFrom (id : Id → ℤ) (adj : Id → List Id) (nodes : List Id) : Prop :=
  (∀ v ∈ nodes, 0 ≤ id v) ∨ ∀ v ∈ nodes, adj v = [] → id v < 0

/-- A set of ids stands for a set of names. -/
structure StandsFor (id : Id → ℤ) (nodes : List Id) (s : Option SignedSet)
    (t : Option (Finset Id)) : Prop where
  ne_none : s ≠ none
  isSome : t ≠ none
  subset : ∀ u ∈ t.getD ∅, u ∈ nodes
  mem_iff : ∀ x, Mem s x ↔ ∃ u ∈ t.getD ∅, id u = x
  exact : (∀ v ∈ nodes, 0 ≤ id v) ∨ HasNeg s

section Sets

variable {id : Id → ℤ} {nodes : List Id} {s s' : Option SignedSet} {t t' : Option (Finset Id)}
  (hid : ∀ u ∈ nodes, ∀ v ∈ nodes, id u = id v → u = v)

include hid in
theorem StandsFor.mem_id (h : StandsFor id nodes s t) {u : Id} (hu : u ∈ nodes) :
    Mem s (id u) ↔ u ∈ t.getD ∅ := by
  rw [h.mem_iff]
  refine ⟨?_, fun hut ↦ ⟨u, hut, rfl⟩⟩
  rintro ⟨w, hw, heq⟩
  exact hid w (h.subset w hw) u hu heq ▸ hw

include hid in
theorem StandsFor.namesOf_eq (h : StandsFor id nodes s t) : namesOf id nodes s = t := by
  obtain ⟨s, rfl⟩ := Option.ne_none_iff_exists'.1 h.ne_none
  obtain ⟨t, rfl⟩ := Option.ne_none_iff_exists'.1 h.isSome
  refine congrArg some (Finset.ext fun u ↦ ?_)
  rw [Finset.mem_filter, List.mem_toFinset]
  constructor
  · rintro ⟨hu, hmem⟩
    exact (h.mem_id hid hu).1 hmem
  · exact fun hu ↦ ⟨h.subset u hu, (h.mem_id hid (h.subset u hu)).2 hu⟩

include hid in
/-- **`Set_same` is right.** -/
theorem StandsFor.same_iff (h : StandsFor id nodes s t) (h' : StandsFor id nodes s' t') :
    Same s s' ↔ t = t' := by
  constructor
  · intro hsame
    rw [← h.namesOf_eq hid, ← h'.namesOf_eq hid]
    obtain ⟨s, rfl⟩ := Option.ne_none_iff_exists'.1 h.ne_none
    obtain ⟨s', rfl⟩ := Option.ne_none_iff_exists'.1 h'.ne_none
    refine congrArg some (Finset.filter_congr fun u _ ↦ ?_)
    exact SignedSet.same_iff.1 hsame (id u)
  · rintro rfl
    exact SignedSet.same_iff.2 fun x ↦ by rw [h.mem_iff, h'.mem_iff]

/-- A set without negative elements is intersected as well as one with both arrays. -/
theorem StandsFor.mem_intersectAcc (h : StandsFor id nodes s t) (h' : StandsFor id nodes s' t')
    {x : ℤ} : Mem (intersectAcc s s') x ↔ Mem s x ∧ Mem s' x := by
  rcases h'.exact with hpos | hneg
  · -- no element of either set is negative
    have hnot : ∀ n, ∀ u ∈ nodes, id u ≠ Int.negSucc n := by
      intro n u hu heq
      have := hpos u hu
      omega
    obtain ⟨⟨p, a⟩, rfl⟩ := Option.ne_none_iff_exists'.1 h.ne_none
    obtain ⟨⟨q, b⟩, rfl⟩ := Option.ne_none_iff_exists'.1 h'.ne_none
    rcases x with n | n
    · cases a <;> cases b <;> simp [intersectAcc, Mem]
    · have hn : ¬Mem (some ⟨p, a⟩) (Int.negSucc n) := fun hm ↦ by
        obtain ⟨u, hu, heq⟩ := (h.mem_iff _).1 hm
        exact hnot n u (h.subset u hu) heq
      refine iff_of_false ?_ fun hm ↦ hn hm.1
      cases a <;> cases b <;> simp_all [intersectAcc, Mem]
  · exact SignedSet.mem_intersectAcc hneg

include hid in
/-- **`Set_intersect_acc` is right** on such sets. -/
theorem StandsFor.meet (h : StandsFor id nodes s t) (h' : StandsFor id nodes s' t') :
    StandsFor id nodes (meetIds s s') (meetDom t t') := by
  have hmem : ∀ x, Mem (meetIds s s') x ↔ Mem s x ∧ Mem s' x := fun x ↦ by
    rw [← h.mem_intersectAcc h']
    obtain ⟨s, rfl⟩ := Option.ne_none_iff_exists'.1 h.ne_none
    rfl
  have hexact : (∀ v ∈ nodes, 0 ≤ id v) ∨ HasNeg (meetIds s s') := by
    refine h.exact.elim .inl fun hs ↦ h'.exact.imp_right fun hs' ↦ ?_
    obtain ⟨s, rfl⟩ := Option.ne_none_iff_exists'.1 h.ne_none
    exact hasNeg_intersectAcc hs hs'
  obtain ⟨t, rfl⟩ := Option.ne_none_iff_exists'.1 h.isSome
  obtain ⟨t', rfl⟩ := Option.ne_none_iff_exists'.1 h'.isSome
  refine ⟨?_, by simp [meetDom], fun u hu ↦ h.subset u (Finset.inter_subset_left hu), fun x ↦ ?_,
    hexact⟩
  · obtain ⟨s, rfl⟩ := Option.ne_none_iff_exists'.1 h.ne_none
    obtain ⟨s', rfl⟩ := Option.ne_none_iff_exists'.1 h'.ne_none
    simp [meetIds, intersectAcc]
  · rw [hmem, h.mem_iff, h'.mem_iff]
    constructor
    · rintro ⟨⟨u, hu, rfl⟩, w, hw, heq⟩
      obtain rfl := hid w (h'.subset w hw) u (h.subset u hu) heq
      exact ⟨w, Finset.mem_inter.2 ⟨hu, hw⟩, rfl⟩
    · rintro ⟨u, hu, rfl⟩
      obtain ⟨hut, hut'⟩ := Finset.mem_inter.1 hu
      exact ⟨⟨u, hut, rfl⟩, u, hut', rfl⟩

/-- **`Set_add` is right.** -/
theorem StandsFor.add (h : StandsFor id nodes s t) {v : Id} (hv : v ∈ nodes) :
    StandsFor id nodes (SignedSet.add s (id v)) (addDom t v) where
  ne_none := by cases hx : id v <;> simp [SignedSet.add]
  isSome := by simp [addDom]
  subset u hu := by
    rcases Finset.mem_insert.1 hu with rfl | hu
    · exact hv
    · exact h.subset u hu
  mem_iff x := by
    rw [mem_add, h.mem_iff]
    simp [addDom, eq_comm]
  exact := h.exact.imp_right fun hs ↦ hasNeg_add (.inl hs)

/-- The first element. -/
theorem standsFor_single {v : Id} (hv : v ∈ nodes) (hneg : (∀ v ∈ nodes, 0 ≤ id v) ∨ id v < 0) :
    StandsFor id nodes (SignedSet.add none (id v)) (addDom none v) where
  ne_none := by cases hx : id v <;> simp [SignedSet.add]
  isSome := by simp [addDom]
  subset u hu := by
    obtain rfl : u = v := by simpa [addDom] using hu
    exact hv
  mem_iff x := by
    rw [mem_add]
    simp [addDom, eq_comm]
  exact := hneg.imp_right fun h ↦ hasNeg_add (.inr h)

end Sets

section Sweeps

variable {id : Id → ℤ} {nodes : List Id} {adj : Id → List Id} {other : Id → Id}
  {dom : Id → Option SignedSet} {dom' : Id → Option (Finset Id)}
  (hid : ∀ u ∈ nodes, ∀ v ∈ nodes, id u = id v → u = v)
  (hadj : ∀ v ∈ nodes, ∀ a ∈ adj v, other a ∈ nodes) (hexact : ExactFrom id adj nodes)

include hid hadj hexact in
theorem newDomIds_standsFor (h : ∀ v ∈ nodes, StandsFor id nodes (dom v) (dom' v)) {v : Id}
    (hv : v ∈ nodes) : StandsFor id nodes (newDomIds id adj other dom v) (newDom adj other dom' v) := by
  have hfold : ∀ l : List Id, (∀ a ∈ l, other a ∈ nodes) → ∀ s t, StandsFor id nodes s t →
      StandsFor id nodes (l.foldl (fun acc arc ↦ meetIds acc (dom (other arc))) s)
        (l.foldl (fun acc arc ↦ meetDom acc (dom' (other arc))) t) := by
    intro l
    induction l with
    | nil => exact fun _ s t hst ↦ hst
    | cons a l ih =>
      intro hl s t hst
      exact ih (fun b hb ↦ hl b (List.mem_cons_of_mem a hb)) _ _
        (hst.meet hid (h _ (hl a List.mem_cons_self)))
  rw [newDomIds, newDom]
  cases hadjv : adj v with
  | nil => exact standsFor_single hv (hexact.imp_right fun hneg ↦ hneg v hv hadjv)
  | cons a l =>
    have hmem := hadj v hv
    rw [hadjv] at hmem
    -- the set of the first neighbour is copied
    have hfirst := h _ (hmem a List.mem_cons_self)
    have hcopy : meetIds none (dom (other a)) = dom (other a) := by
      obtain ⟨s, hs⟩ := Option.ne_none_iff_exists'.1 hfirst.ne_none
      rw [hs]
      rfl
    rw [List.foldl_cons, List.foldl_cons, hcopy]
    exact (hfold l (fun b hb ↦ hmem b (List.mem_cons_of_mem a hb)) _ _ hfirst).add hv

include hid hadj hexact in
/-- **A sweep** makes the same changes to both. -/
theorem domSweepIds_spec {l : List Id} (hl : ∀ v ∈ l, v ∈ nodes)
    (h : ∀ v ∈ nodes, StandsFor id nodes (dom v) (dom' v)) :
    (∀ v ∈ nodes, StandsFor id nodes ((domSweepIds id adj other l dom).1 v)
        ((domSweep adj other l dom').1 v)) ∧
      (domSweepIds id adj other l dom).2 = (domSweep adj other l dom').2 := by
  induction l generalizing dom dom' with
  | nil => exact ⟨h, rfl⟩
  | cons v l ih =>
    have hrest : ∀ v ∈ l, v ∈ nodes := fun w hw ↦ hl w (List.mem_cons_of_mem v hw)
    have hv := hl v List.mem_cons_self
    have hnew := newDomIds_standsFor hid hadj hexact h hv
    have hsame := hnew.same_iff hid (h v hv)
    rw [domSweepIds, domSweep]
    by_cases heq : newDom adj other dom' v = dom' v
    · rw [if_pos heq, if_pos (hsame.2 heq)]
      exact ih hrest h
    · rw [if_neg heq, if_neg (mt hsame.1 heq)]
      refine ⟨(ih hrest fun w hw ↦ ?_).1, rfl⟩
      rcases eq_or_ne w v with rfl | hwv
      · simpa using hnew
      · simpa [hwv] using h w hw

include hid hadj hexact in
/-- **The sweeps** end together. -/
theorem domLoopIds_spec {fuel : ℕ} {dom'' : Id → Option (Finset Id)}
    (h : ∀ v ∈ nodes, StandsFor id nodes (dom v) (dom' v))
    (hrun : domLoop adj other nodes fuel dom' = .ok dom'') {fuel' : ℕ} (hfuel : fuel ≤ fuel') :
    ∃ dom₁, domLoopIds id adj other nodes fuel' dom = .ok dom₁ ∧
      ∀ v ∈ nodes, StandsFor id nodes (dom₁ v) (dom'' v) := by
  induction fuel generalizing dom dom' fuel' with
  | zero => simp [domLoop] at hrun
  | succ fuel ih =>
    obtain ⟨fuel', rfl⟩ : ∃ n, fuel' = n + 1 := ⟨fuel' - 1, by omega⟩
    obtain ⟨hsets, hchange⟩ := domSweepIds_spec hid hadj hexact (fun _ hv ↦ hv) h
    rw [domLoop] at hrun
    rw [domLoopIds]
    simp only [hchange] at hrun ⊢
    split_ifs at hrun ⊢ with hmore
    · exact ih hsets hrun (by omega)
    · obtain rfl := Except.ok.inj hrun
      exact ⟨_, rfl, hsets⟩

include hexact in
theorem domInitIds_standsFor (dom' : Id → Option (Finset Id)) {v : Id} (hv : v ∈ nodes)
    (hroot : ∃ u ∈ nodes, adj u = []) :
    StandsFor id nodes (domInitIds id adj nodes v) (domInit adj nodes dom' v) := by
  rw [domInitIds, domInit, if_pos hv, if_pos hv]
  have hall : ∀ (l : List Id) (s : Option SignedSet), (∀ x, Mem (l.foldl (fun all u ↦ add all (id u)) s) x ↔
      Mem s x ∨ ∃ u ∈ l, id u = x) ∧ (HasNeg s ∨ (∃ u ∈ l, id u < 0) →
        HasNeg (l.foldl (fun all u ↦ add all (id u)) s)) := by
    intro l
    induction l with
    | nil => exact fun s ↦ ⟨by simp, by simp⟩
    | cons u l ih =>
      intro s
      refine ⟨fun x ↦ ?_, fun h ↦ (ih _).2 ?_⟩
      · rw [List.foldl_cons, (ih _).1, mem_add, List.exists_mem_cons_iff]
        tauto
      · rcases h with h | ⟨w, hw, hneg⟩
        · exact .inl (hasNeg_add (.inl h))
        · rcases List.mem_cons.1 hw with rfl | hw
          · exact .inl (hasNeg_add (.inr hneg))
          · exact .inr ⟨w, hw, hneg⟩
  split_ifs with hlen
  · have hmem : ∀ x, Mem (nodes.foldl (fun all u ↦ add all (id u)) none) x ↔
        ∃ u ∈ nodes, id u = x := fun x ↦ by rw [(hall nodes none).1]; simp
    refine ⟨?_, by simp, by simp, by simpa using hmem, hexact.imp_right fun hneg ↦ ?_⟩
    · intro hnone
      have := (hmem (id v)).2 ⟨v, hv, rfl⟩
      rw [hnone] at this
      exact this
    · obtain ⟨u, hu, hnil⟩ := hroot
      exact (hall nodes none).2 (.inr ⟨u, hu, hneg u hu hnil⟩)
  · have hnil := List.length_eq_zero_iff.1 (not_not.1 hlen)
    exact standsFor_single hv (hexact.imp_right fun hneg ↦ hneg v hv hnil)

theorem le_sweepFuel (n : ℕ) : n * n + 1 ≤ sweepFuel n := by
  refine Nat.succ_le_succ ?_
  have hlt : n ≤ 2 ^ (n + 1) := (Nat.lt_two_pow_self.trans (Nat.pow_lt_pow_right (by omega) n.lt_succ_self)).le
  rcases n with - | - | n
  · exact Nat.zero_le _
  · decide
  · calc (n + 2) * (n + 2) ≤ (2 ^ (n + 2 + 1)) ^ 2 := by rw [sq]; exact Nat.mul_le_mul hlt hlt
      _ ≤ (2 ^ (n + 2 + 1)) ^ (n + 2) := Nat.pow_le_pow_right (Nat.two_pow_pos _) (by omega)

include hid hadj hexact in
/-- **The sets of ids stand for the sets of names.** -/
theorem computeDomIds_eq (dom' : Id → Option (Finset Id)) (hroot : ∃ u ∈ nodes, adj u = []) :
    ∃ dom dom'', computeDomIds id adj other nodes = .ok dom ∧
      computeDom adj other nodes dom' = .ok dom'' ∧
      (∀ v ∈ nodes, StandsFor id nodes (dom v) (dom'' v)) ∧
      (fun v ↦ if v ∈ nodes then namesOf id nodes (dom v) else dom' v) = dom'' := by
  obtain ⟨dom'', hrun, hframe⟩ := computeDom_ok hadj dom'
  obtain ⟨dom, hrunIds, hsets⟩ := domLoopIds_spec hid hadj hexact
    (fun v hv ↦ domInitIds_standsFor hexact dom' hv hroot) hrun (le_sweepFuel nodes.length)
  refine ⟨dom, dom'', hrunIds, hrun, hsets, funext fun v ↦ ?_⟩
  split_ifs with hv
  · exact (hsets v hv).namesOf_eq hid
  · exact (hframe v hv).symm

end Sweeps

/-! ### Calls with ids and calls with names -/

/-- The ids are exact for the sweeps from `v` on. -/
def NodeIds.ExactAt {S : Shape} (ids : NodeIds S) (v : Id) : Prop :=
  (∀ u ∈ S.nodes, 0 ≤ ids.id u) ∨ ids.id v < 0

section Calls

variable {S : Shape} (hS : S.WF) (ids : NodeIds S) {r : Id} {R : Results} {M M' : Marks}

include hS in
theorem dominatorIds_eq (hr : r ∈ S.nodes) (hpred : ∀ v ∈ S.nodes, S.pred v = [] ↔ v = r)
    (hids : ids.ExactAt r) (M : Marks) : dominatorIds S ids M = dominator S M := by
  rw [dominatorIds, dominator]
  split_ifs
  · rfl
  · obtain ⟨dom, dom'', hrunIds, hrun, -, heq⟩ := @computeDomIds_eq ids.id S.nodes S.pred S.arcPred
      ids.unique
      (fun v _ a ha ↦ hS.arcPred_mem a ((hS.mem_pred v a).1 ha).1)
      (hids.imp_right fun hneg v hv hnil ↦ (hpred v hv).1 hnil ▸ hneg) M.dom
      ⟨r, hr, (hpred r hr).2 rfl⟩
    rw [hrunIds, hrun, Run.ok_bind, Run.ok_bind, heq]

include hS in
theorem postDominatorIds_eq (hr : r ∈ S.nodes) (hsucc : ∀ v ∈ S.nodes, S.succ v = [] ↔ v = r)
    (hids : ids.ExactAt r) (M : Marks) : postDominatorIds S ids M = postDominator S M := by
  rw [postDominatorIds, postDominator]
  split_ifs
  · rfl
  · obtain ⟨dom, dom'', hrunIds, hrun, -, heq⟩ := @computeDomIds_eq ids.id S.nodes S.succ S.arcSucc
      ids.unique
      (fun v _ a ha ↦ hS.arcSucc_mem a ((hS.mem_succ v a).1 ha).1)
      (hids.imp_right fun hneg v hv hnil ↦ (hsucc v hv).1 hnil ▸ hneg) M.postDom
      ⟨r, hr, (hsucc r hr).2 rfl⟩
    rw [hrunIds, hrun, Run.ok_bind, Run.ok_bind, heq]

/-- After `Graph_dominator` a call goes on as one that makes that call itself. -/
theorem analyse_of_dominator {call : Analysis} (hcall : call.callsDominator R = true)
    (hM : dominator S R.toMarks = .ok M) : analyse S { R with toMarks := M } call = analyse S R call := by
  have hidem : dominator S M = .ok M ∧ M.flags.dfsPreSort = R.flags.dfsPreSort ∧
      M.flags.countPath = R.flags.countPath := by
    have hrun := hM
    rw [dominator] at hrun
    split_ifs at hrun with hflag
    · obtain rfl := Except.ok.inj hrun
      exact ⟨hM, rfl, rfl⟩
    · obtain ⟨dom, -, hrun⟩ := Run.bind_eq_ok.1 hrun
      obtain rfl := Except.ok.inj hrun
      exact ⟨rfl, rfl, rfl⟩
  obtain ⟨hidem, hdfs, hcount⟩ := hidem
  cases call with
  | dominator => rw [analyse, analyse, hidem, hM]
  | immDominator =>
    rw [analyse, analyse, immDominator, immDominator, hidem, hM]
    simp only [Analysis.callsDominator, Bool.not_eq_true'] at hcall
    rw [hcall]
    rfl
  | preorderDfsSort directed =>
    rw [analyse, analyse, preorderDfsSort, preorderDfsSort, hdfs, hidem, hM]
    simp only [Analysis.callsDominator, Bool.not_eq_true'] at hcall
    rw [hcall]
    rfl
  | countPaths =>
    rw [analyse, analyse, countPaths, countPaths, hcount, hidem, hM]
    simp only [Analysis.callsDominator, Bool.not_eq_true'] at hcall
    rw [hcall]
    rfl
  | postDominator | immPostDominator | controlDependence | equivCd | topologicalSort =>
    exact absurd hcall Bool.false_ne_true

/-- So it does after `Graph_post_dominator`. -/
theorem analyse_of_postDominator {call : Analysis} (hcall : call.callsPostDominator R = true)
    (hM : postDominator S R.toMarks = .ok M) :
    analyse S { R with toMarks := M } call = analyse S R call := by
  have hidem : postDominator S M = .ok M := by
    have hrun := hM
    rw [postDominator] at hrun
    split_ifs at hrun with hflag
    · obtain rfl := Except.ok.inj hrun
      exact hM
    · obtain ⟨dom, -, hrun⟩ := Run.bind_eq_ok.1 hrun
      obtain rfl := Except.ok.inj hrun
      rfl
  have himm : R.immPostDomDone = false →
      immPostDominator S { R with toMarks := M } = immPostDominator S R := fun hdone ↦ by
    rw [immPostDominator, immPostDominator, hidem, hM, hdone]
    rfl
  have hcontrol : R.controlDone = false → R.immPostDomDone = false →
      controlDependence S { R with toMarks := M } = controlDependence S R := fun hc hdone ↦ by
    rw [controlDependence, controlDependence, himm hdone, hc]
    rfl
  cases call with
  | postDominator => rw [analyse, analyse, hidem, hM]
  | immPostDominator => exact himm (by simpa [Analysis.callsPostDominator] using hcall)
  | controlDependence =>
    obtain ⟨hc, hdone⟩ : R.controlDone = false ∧ R.immPostDomDone = false := by
      simpa [Analysis.callsPostDominator] using hcall
    exact hcontrol hc hdone
  | equivCd =>
    obtain ⟨⟨he, hc⟩, hdone⟩ : (R.equivCdDone = false ∧ R.controlDone = false) ∧
        R.immPostDomDone = false := by
      simpa [Analysis.callsPostDominator] using hcall
    rw [analyse, analyse, equivCd, equivCd, hcontrol hc hdone, he]
    rfl
  | dominator | immDominator | topologicalSort | preorderDfsSort | countPaths =>
    exact absurd hcall Bool.false_ne_true

include hS in
/-- **One call**, when the sets it computes are the same. -/
theorem analyseIds_eq {call : Analysis}
    (hdom : call.callsDominator R = true → dominatorIds S ids R.toMarks = dominator S R.toMarks)
    (hpost : call.callsPostDominator R = true →
      postDominatorIds S ids R.toMarks = postDominator S R.toMarks) :
    analyseIds S ids R call = analyse S R call := by
  rw [analyseIds, setsFirst]
  split_ifs with hcall hcall'
  · obtain ⟨dom, hM⟩ := dominator_ok hS R.toMarks
    rw [hdom hcall, hM, Run.ok_bind]
    exact analyse_of_dominator hcall hM
  · obtain ⟨M, hM⟩ := postDominator_total hS R.toMarks
    rw [hpost hcall', hM, Run.ok_bind]
    exact analyse_of_postDominator hcall' hM
  · rfl

include hS in
/-- **Calls in any order**, when both kinds of sets are. -/
theorem runAnalysesIds_eq (hdom : ∀ M, dominatorIds S ids M = dominator S M)
    (hpost : ∀ M, postDominatorIds S ids M = postDominator S M) (calls : List Analysis) :
    runAnalysesIds S ids calls = runAnalyses S calls := by
  have hcall : analyseIds S ids = analyse S := funext fun R ↦ funext fun call ↦
    analyseIds_eq hS ids (fun _ ↦ hdom _) fun _ ↦ hpost _
  rw [runAnalysesIds, hcall, runAnalyses]

end Calls

end OpenImpact.Graph
