import Mathlib.Algebra.Order.BigOperators.Group.List
import Mathlib.Algebra.Order.Ring.Nat
import Mathlib.Data.Finset.Card
import Mathlib.Logic.Function.Basic

/-!
# Sweeps over nodes until nothing changes

The iteration that data-flow analyses use: node by node, the value of a node is replaced by what its
equation gives for the values at that time, and the nodes are gone through again as long as the part of
some value that the equations depend on has changed. When the sweeps end, all equations hold
(`sweeps_solves`); they end if every change lowers a weight (`exists_sweeps`), for which it is enough that
the values go one way from the start on (`Ascends.update`).
-/

namespace OpenImpact.Foundation.Sweep

variable {ν σ κ : Type*} [DecidableEq ν]

/-- One node: its new value, and whether one of the nodes has changed so far. -/
def sweepNode (changed : σ → σ → Bool) (upd : (ν → σ) → ν → σ) (p : (ν → σ) × Bool) (v : ν) :
    (ν → σ) × Bool :=
  (Function.update p.1 v (upd p.1 v), p.2 || changed (p.1 v) (upd p.1 v))

/-- One sweep. -/
def sweep (changed : σ → σ → Bool) (upd : (ν → σ) → ν → σ) (l : List ν) (s : ν → σ) :
    (ν → σ) × Bool :=
  l.foldl (sweepNode changed upd) (s, false)

/-- Sweeps until nothing changes, at most so many. -/
def sweeps (changed : σ → σ → Bool) (upd : (ν → σ) → ν → σ) (l : List ν) :
    ℕ → (ν → σ) → Option (ν → σ)
  | 0, _ => none
  | n + 1, s =>
    let p := sweep changed upd l s
    if p.2 then sweeps changed upd l n p.1 else some p.1

/-- The equations depend on the keys, and a change is one of the key. -/
structure Keyed (changed : σ → σ → Bool) (upd : (ν → σ) → ν → σ) (key : σ → κ) : Prop where
  changed : ∀ a b, changed a b = false ↔ key a = key b
  upd : ∀ s t v, (∀ w, key (s w) = key (t w)) → upd s v = upd t v

variable {changed : σ → σ → Bool} {upd : (ν → σ) → ν → σ} {key : σ → κ} {l : List ν}
  {s s' : ν → σ}

/-! ### Solutions -/

/-- From a flag that is set on, it stays set. -/
theorem foldl_sweepNode_true (l : List ν) (s : ν → σ) :
    (l.foldl (sweepNode changed upd) (s, true)).2 = true := by
  induction l generalizing s with
  | nil => rfl
  | cons v l ih => exact ih _

/-- The values after a sweep do not depend on the flag at its start. -/
theorem foldl_sweepNode_fst (l : List ν) (s : ν → σ) (b : Bool) :
    (l.foldl (sweepNode changed upd) (s, b)).1 = (sweep changed upd l s).1 := by
  rw [sweep]
  suffices h : ∀ b b', (l.foldl (sweepNode changed upd) (s, b)).1 =
      (l.foldl (sweepNode changed upd) (s, b')).1 from h b false
  intro b b'
  induction l generalizing s b b' with
  | nil => rfl
  | cons v l ih => exact ih _ _ _

theorem sweep_cons (v : ν) (l : List ν) (s : ν → σ) :
    (sweep changed upd (v :: l) s).1 =
      (sweep changed upd l (Function.update s v (upd s v))).1 := by
  rw [sweep, List.foldl_cons, sweepNode, foldl_sweepNode_fst]

/-- The keys after a node without a change. -/
theorem Keyed.key_update (hk : Keyed changed upd key) {v : ν}
    (hv : changed (s v) (upd s v) = false) (w : ν) :
    key (Function.update s v (upd s v) w) = key (s w) := by
  rcases eq_or_ne w v with rfl | hne
  · rw [Function.update_self, ← (hk.changed _ _).1 hv]
  · rw [Function.update_of_ne hne]

/-- A sweep without a change keeps the keys, and leaves what the equations ask for. -/
theorem Keyed.sweep_unchanged (hk : Keyed changed upd key)
    (h : (sweep changed upd l s).2 = false) :
    (∀ w, key ((sweep changed upd l s).1 w) = key (s w)) ∧
      (∀ v ∈ l, (sweep changed upd l s).1 v = upd s v) ∧
      ∀ v, v ∉ l → (sweep changed upd l s).1 v = s v := by
  induction l generalizing s with
  | nil => exact ⟨fun _ ↦ rfl, by simp, fun _ _ ↦ rfl⟩
  | cons v l ih =>
    have hv : changed (s v) (upd s v) = false := by
      by_contra hne
      rw [Bool.not_eq_false] at hne
      rw [sweep, List.foldl_cons, sweepNode, hne, Bool.false_or, foldl_sweepNode_true] at h
      exact Bool.noConfusion h
    have hrest : (sweep changed upd l (Function.update s v (upd s v))).2 = false := by
      rw [sweep, List.foldl_cons, sweepNode, hv] at h
      exact h
    have hkeys := hk.key_update hv
    obtain ⟨hsame, hall, hout⟩ := ih hrest
    rw [sweep_cons]
    refine ⟨fun w ↦ (hsame w).trans (hkeys w), fun w hw ↦ ?_, fun w hw ↦ ?_⟩
    · by_cases hwl : w ∈ l
      · rw [hall w hwl]
        exact hk.upd _ _ w hkeys
      · obtain rfl := (List.mem_cons.1 hw).resolve_right hwl
        rw [hout w hwl, Function.update_self]
    · rw [List.mem_cons, not_or] at hw
      rw [hout w hw.2, Function.update_of_ne hw.1]

/-- What replacing a value keeps, a sweep keeps. -/
theorem sweep_keeps {P : (ν → σ) → Prop} {nodes : List ν}
    (hupd : ∀ s, ∀ v ∈ nodes, P s → P (Function.update s v (upd s v))) (hl : ∀ v ∈ l, v ∈ nodes)
    (h : P s) : P (sweep changed upd l s).1 := by
  induction l generalizing s with
  | nil => exact h
  | cons v l ih =>
    rw [List.forall_mem_cons] at hl
    rw [sweep_cons]
    exact ih hl.2 (hupd s v hl.1 h)

/-- **The sweeps end with a solution**, and keep what replacing a value keeps. -/
theorem Keyed.sweeps_solves (hk : Keyed changed upd key) {P : (ν → σ) → Prop}
    (hupd : ∀ s, ∀ v ∈ l, P s → P (Function.update s v (upd s v))) {n : ℕ} (hP : P s)
    (hrun : sweeps changed upd l n s = some s') : P s' ∧ ∀ v ∈ l, s' v = upd s' v := by
  induction n generalizing s with
  | zero => cases hrun
  | succ n ih =>
    have hP' : P (sweep changed upd l s).1 := sweep_keeps hupd (fun _ hv ↦ hv) hP
    rw [sweeps] at hrun
    split_ifs at hrun with hchange
    · exact ih hP' hrun
    · obtain rfl := Option.some.inj hrun
      obtain ⟨hsame, hall, -⟩ := hk.sweep_unchanged (Bool.not_eq_true _ ▸ hchange)
      refine ⟨hP', fun v hv ↦ (hall v hv).trans ?_⟩
      exact hk.upd _ _ v fun w ↦ (hsame w).symm

/-! ### Termination -/

/-- A change lowers the weight of the keys. -/
def Lowers (changed : σ → σ → Bool) (upd : (ν → σ) → ν → σ) (key : σ → κ) (l : List ν)
    (P : (ν → σ) → Prop) (weight : (ν → κ) → ℕ) : Prop :=
  ∀ s, ∀ v ∈ l, P s → changed (s v) (upd s v) = true →
    weight (fun w ↦ key (Function.update s v (upd s v) w)) < weight fun w ↦ key (s w)

/-- A sweep lowers the weight if it changes something, and never raises it. -/
theorem Keyed.sweep_weight (hk : Keyed changed upd key) {P : (ν → σ) → Prop}
    {weight : (ν → κ) → ℕ} {nodes : List ν}
    (hupd : ∀ s, ∀ v ∈ nodes, P s → P (Function.update s v (upd s v)))
    (hlt : Lowers changed upd key nodes P weight) (hl : ∀ v ∈ l, v ∈ nodes) (h : P s) :
    (weight fun w ↦ key ((sweep changed upd l s).1 w)) ≤ (weight fun w ↦ key (s w)) ∧
      ((sweep changed upd l s).2 = true →
        (weight fun w ↦ key ((sweep changed upd l s).1 w)) < weight fun w ↦ key (s w)) := by
  induction l generalizing s with
  | nil => exact ⟨le_rfl, fun h ↦ nomatch h⟩
  | cons v l ih =>
    rw [List.forall_mem_cons] at hl
    obtain ⟨hle, hless⟩ := ih hl.2 (hupd s v hl.1 h)
    rw [sweep_cons]
    cases hv : changed (s v) (upd s v) with
    | true =>
      have hdown := hlt s v hl.1 h hv
      exact ⟨hle.trans hdown.le, fun _ ↦ hle.trans_lt hdown⟩
    | false =>
      simp only [hk.key_update hv] at hle hless
      refine ⟨hle, fun hflag ↦ hless ?_⟩
      rwa [sweep, List.foldl_cons, sweepNode, hv] at hflag

/-- **The sweeps end** when every change lowers the weight. -/
theorem Keyed.exists_sweeps (hk : Keyed changed upd key) {P : (ν → σ) → Prop}
    {weight : (ν → κ) → ℕ} (hupd : ∀ s, ∀ v ∈ l, P s → P (Function.update s v (upd s v)))
    (hlt : Lowers changed upd key l P weight) {n : ℕ} (hP : P s)
    (hn : (weight fun w ↦ key (s w)) < n) : ∃ s', sweeps changed upd l n s = some s' := by
  induction n generalizing s with
  | zero => exact absurd hn (Nat.not_lt_zero _)
  | succ n ih =>
    rw [sweeps]
    split_ifs with hchange
    · have hless := (hk.sweep_weight hupd hlt (fun _ hv ↦ hv) hP).2 hchange
      exact ih (sweep_keeps hupd (fun _ hv ↦ hv) hP) (hless.trans_le (Nat.le_of_lt_succ hn))
    · exact ⟨_, rfl⟩

/-! ### One way -/

/-- Every key goes up with the next replacement. -/
def Ascends (r : κ → κ → Prop) (key : σ → κ) (upd : (ν → σ) → ν → σ) (l : List ν) (s : ν → σ) :
    Prop :=
  ∀ v ∈ l, r (key (s v)) (key (upd s v))

/-- **With equations that are monotone, the keys go one way** once they do at the start. -/
theorem Ascends.update {r : κ → κ → Prop} (hrefl : ∀ a, r a a)
    (htrans : ∀ {a b c}, r a b → r b c → r a c)
    (hmono : ∀ s t, (∀ w, r (key (s w)) (key (t w))) → ∀ v ∈ l, r (key (upd s v)) (key (upd t v)))
    (h : Ascends r key upd l s) {v : ν} (hv : v ∈ l) :
    Ascends r key upd l (Function.update s v (upd s v)) := by
  have hup : ∀ w, r (key (s w)) (key (Function.update s v (upd s v) w)) := by
    intro w
    rcases eq_or_ne w v with rfl | hne
    · rw [Function.update_self]
      exact h w hv
    · rw [Function.update_of_ne hne]
      exact hrefl _
  intro w hw
  rcases eq_or_ne w v with rfl | hne
  · rw [Function.update_self]
    exact hmono _ _ hup w hw
  · rw [Function.update_of_ne hne]
    exact htrans (h w hw) (hmono _ _ hup w hw)

/-! ### Sets -/

section Sets

variable {β : Type*} {key : σ → Finset β}

/-- The weight of keys that shrink. -/
def cardSum (l : List ν) (k : ν → Finset β) : ℕ := (l.map fun v ↦ (k v).card).sum

theorem sum_update_lt {f : σ → ℕ} {v : ν} (hv : v ∈ l) {a : σ} (h : f a < f (s v)) :
    (l.map fun w ↦ f (Function.update s v a w)).sum < (l.map fun w ↦ f (s w)).sum := by
  refine List.sum_lt_sum _ _ (fun w _ ↦ ?_) ⟨v, hv, by rwa [Function.update_self]⟩
  rcases eq_or_ne w v with rfl | hne
  · rw [Function.update_self]
    exact h.le
  · rw [Function.update_of_ne hne]

/-- Sets that only shrink get smaller with every change. -/
theorem Keyed.lowers_cardSum (hk : Keyed changed upd key) {P : (ν → σ) → Prop}
    (hP : ∀ s, P s → Ascends (fun a b ↦ b ⊆ a) key upd l s) :
    Lowers changed upd key l P (cardSum l) := by
  intro s v hv hs hchange
  refine sum_update_lt (f := fun a ↦ (key a).card) hv (Finset.card_lt_card ?_)
  refine (hP s hs v hv).ssubset_of_ne fun heq ↦ ?_
  rw [(hk.changed _ _).2 heq.symm] at hchange
  exact Bool.noConfusion hchange

omit [DecidableEq ν] in
theorem cardSum_le {U : Finset β} {k : ν → Finset β} (h : ∀ v ∈ l, k v ⊆ U) :
    cardSum l k ≤ l.length * U.card := by
  refine (List.sum_le_card_nsmul _ U.card fun n hn ↦ ?_).trans ?_
  · obtain ⟨v, hv, rfl⟩ := List.mem_map.1 hn
    exact Finset.card_le_card (h v hv)
  · rw [List.length_map, Nat.nsmul_eq_mul]

variable [DecidableEq β]

/-- The weight of keys that grow inside a set. -/
def roomSum (U : Finset β) (l : List ν) (k : ν → Finset β) : ℕ :=
  (l.map fun v ↦ (U \ k v).card).sum

/-- Sets that only grow, inside `U`, leave less room with every change. -/
theorem Keyed.lowers_roomSum (hk : Keyed changed upd key) {P : (ν → σ) → Prop} {U : Finset β}
    (hP : ∀ s, P s → Ascends (· ⊆ ·) key upd l s ∧ ∀ v ∈ l, key (upd s v) ⊆ U) :
    Lowers changed upd key l P (roomSum U l) := by
  intro s v hv hs hchange
  refine sum_update_lt (f := fun a ↦ (U \ key a).card) hv (Finset.card_lt_card ?_)
  obtain ⟨hup, hin⟩ := hP s hs
  have hssub : key (s v) ⊂ key (upd s v) := by
    refine (hup v hv).ssubset_of_ne fun heq ↦ ?_
    rw [(hk.changed _ _).2 heq] at hchange
    exact Bool.noConfusion hchange
  obtain ⟨x, hx, hnot⟩ := Finset.exists_of_ssubset hssub
  refine (Finset.ssubset_iff_of_subset (Finset.sdiff_subset_sdiff (Finset.Subset.refl U)
    hssub.subset)).2 ⟨x, Finset.mem_sdiff.2 ⟨hin v hv hx, hnot⟩, ?_⟩
  exact fun h ↦ (Finset.mem_sdiff.1 h).2 hx

omit [DecidableEq ν] in
theorem roomSum_le (U : Finset β) (k : ν → Finset β) : roomSum U l k ≤ l.length * U.card := by
  refine (List.sum_le_card_nsmul _ U.card fun n hn ↦ ?_).trans ?_
  · obtain ⟨v, -, rfl⟩ := List.mem_map.1 hn
    exact Finset.card_le_card Finset.sdiff_subset
  · rw [List.length_map, Nat.nsmul_eq_mul]

end Sets

end OpenImpact.Foundation.Sweep
