import OpenImpact.Lmarkpipe.Mii

/-!
# What the table of dependence distances holds

Stage `k` of the search improves an entry by the paths through operation `k`, unless the operation's own
entry is positive; then the search ends. So while it runs the entries are the greatest totals that the
table can hold (`IsHeld`), which are those of all paths only if no total on the way down reaches
`NEGATIVE_INFINITY`.
-/

namespace OpenImpact.Lmarkpipe

open Foundation Sm

/-- An entry of the table: the greatest of the totals it can hold, or `NEGATIVE_INFINITY`. -/
def IsHeld (cb : Cb) (opArray : List ℕ) (ii : ℤ) (b i j : ℕ) (v : ℤ) : Prop :=
  IsGreatest (insert negativeInfinity {t | Held cb opArray ii b i j t}) v

/-! ### Loops that count up -/

section Count

variable {ε σ : Type} {f : σ → ℕ → Except ε σ} {m : ℕ} {st : σ}

/-- The last step of a counted loop. -/
theorem foldlM_range_succ :
    (List.range (m + 1)).foldlM f st = (List.range m).foldlM f st >>= fun st₁ ↦ f st₁ m := by
  rw [List.range_succ, List.foldlM_append]
  simp only [List.foldlM_cons, List.foldlM_nil, bind_pure]

end Count

/-! ### Runs that stop only at an `int` -/

section Checked

variable {α β σ : Type} {P Q : Prop} {r : Run α}

/-- The run returns exactly when `P` holds, and else some `int` does not fit. -/
def Checked (P : Prop) (r : Run α) : Prop := (P ∧ ∃ a, r = .ok a) ∨ ¬P ∧ r = .error .overflow

theorem Checked.ok (a : α) : Checked True (.ok a) := .inl ⟨trivial, a, rfl⟩

/-- A check can be stated in another way. -/
theorem Checked.congr (h : P ↔ Q) (hr : Checked P r) : Checked Q r :=
  hr.imp (And.imp_left h.1) (And.imp_left (mt h.2))

/-- A result says that the check was met. -/
theorem Checked.of_ok (h : Checked P r) {a : α} (hr : r = .ok a) : P := by
  obtain ⟨hP, -⟩ | ⟨-, he⟩ := h
  · exact hP
  · cases hr.symm.trans he

/-- A check that is met has a result. -/
theorem Checked.exists_ok (h : Checked P r) (hP : P) : ∃ a, r = .ok a :=
  h.elim And.right fun h ↦ absurd hP h.1

/-- An integer is checked for its range. -/
theorem checked_int32 (n : ℤ) : Checked (FitsInt n) (int32 n) := by
  by_cases h : FitsInt n
  · exact .inl ⟨h, n, int32_eq h⟩
  · exact .inr ⟨h, if_neg h⟩

/-- Two checks in a row. -/
theorem Checked.bind {f : α → Run β} (h : Checked P r) (hf : ∀ a, r = .ok a → Checked Q (f a)) :
    Checked (P ∧ Q) (r >>= f) := by
  obtain ⟨hP, a, rfl⟩ | ⟨hP, rfl⟩ := h
  · exact (hf a rfl).congr (and_iff_right hP).symm
  · exact .inr ⟨fun h ↦ hP h.1, rfl⟩

/-- A loop returns when every round does. -/
theorem Checked.foldlM {P : α → Prop} {f : σ → α → Run σ} {l : List α} {s : σ}
    (h : ∀ a ∈ l, ∀ s, Checked (P a) (f s a)) : Checked (∀ a ∈ l, P a) (l.foldlM f s) := by
  induction l generalizing s with
  | nil => exact .inl ⟨fun a ha ↦ absurd ha List.not_mem_nil, s, rfl⟩
  | cons a l ih =>
    rw [List.foldlM_cons]
    refine .congr (List.forall_mem_cons.symm) ((h a List.mem_cons_self s).bind fun s' _ ↦ ih ?_)
    exact fun b hb ↦ h b (List.mem_cons_of_mem a hb)

end Checked

/-! ### One stage -/

/-- The entry after stage `k`. -/
def relaxed (md : MinDist) (k i j : ℕ) : ℤ :=
  if md i k = negativeInfinity ∨ md k j = negativeInfinity then md i j
  else max (md i j) (md i k + md k j)

/-- Both distances are there, so a sum comes up at the entry. -/
def Active (md : MinDist) (k i j : ℕ) : Prop := md i k ≠ negativeInfinity ∧ md k j ≠ negativeInfinity

/-- The cached distance from `i` to `k` when the row has come to `j`. -/
def cachedDik (md : MinDist) (k i j : ℕ) : ℤ := if k < j then relaxed md k i k else md i k

/-- The sum that comes up. -/
def sumAt (md : MinDist) (k i j : ℕ) : ℤ := cachedDik md k i j + md k j

/-- The entry that stage `k` leaves. -/
def improved (md : MinDist) (k i j : ℕ) : ℤ :=
  if md i k = negativeInfinity ∨ md k j = negativeInfinity then md i j
  else max (md i j) (sumAt md k i j)

/-- The search ends in the row. -/
def Ends (md : MinDist) (k i : ℕ) : Prop :=
  Active md k i i ∧ md i i < sumAt md k i i ∧ 0 < sumAt md k i i

/-- The sums of the row fit, up to column `m`. -/
def RowFits (md : MinDist) (k i m : ℕ) : Prop := ∀ j < m, Active md k i j → FitsInt (sumAt md k i j)

section Stage

variable {n k i m : ℕ} {md md' : MinDist}

theorem MinDist.set_eq_self (md : MinDist) (r c : ℕ) : md.set r c (md r c) = md := by
  funext i j
  rw [MinDist.set_apply]
  split_ifs with h
  · rw [h.1, h.2]
  · rfl

/-- With no cycle through `k`, no path from `i` to `k` is improved. -/
theorem relaxed_of_nonpos (hk : md k k ≤ 0) (i : ℕ) : relaxed md k i k = md i k := by
  rw [relaxed]
  split_ifs
  · rfl
  · omega

/-- Nor is the second half of the sum. -/
theorem sumAt_of_nonpos (hk : md k k ≤ 0) (i j : ℕ) : sumAt md k i j = md i k + md k j := by
  rw [sumAt, cachedDik, relaxed_of_nonpos hk, ite_self]

/-- So the new entry is the larger one of the old entry and the sum. -/
theorem improved_of_nonpos (hk : md k k ≤ 0) (i j : ℕ) : improved md k i j = relaxed md k i j := by
  rw [improved, relaxed, sumAt_of_nonpos hk]

/-- The row of `k` stays as it is. -/
theorem improved_self (hk : md k k ≤ 0) (j : ℕ) : improved md k k j = md k j := by
  rw [improved_of_nonpos hk, relaxed]
  split_ifs
  · rfl
  · omega

/-- A positive entry of `k` itself ends the search in the row of `k`, if not before. -/
theorem ends_self (hk : 0 < md k k) : Ends md k k := by
  have hne : md k k ≠ negativeInfinity := by
    rw [negativeInfinity]
    omega
  have hsum : sumAt md k k k = md k k + md k k := by rw [sumAt, cachedDik, if_neg (lt_irrefl k)]
  exact ⟨⟨hne, hne⟩, by omega, by omega⟩

/-- What the loop over `j` leaves, before column `m`. -/
structure RowDone (md : MinDist) (k i m : ℕ) (st : MinDist × ℤ) : Prop where
  dik : st.2 = cachedDik md k i m
  entry : ∀ r c, st.1 r c = if r = i ∧ c < m then improved md k i c else md r c

/-- **One entry of the row**: it is improved, or ends the search, or its sum does not fit. -/
theorem RowDone.step {st : MinDist × ℤ} (h : RowDone md k i m st) (hik : md i k ≠ negativeInfinity) :
    (∃ st', relax k i st m = .ok st' ∧ RowDone md k i (m + 1) st' ∧
        (Active md k i m → FitsInt (sumAt md k i m)) ∧ (i = m → ¬Ends md k i)) ∨
      (∃ md', relax k i st m = .error (.found md') ∧ i = m ∧ Ends md k i ∧ FitsInt (sumAt md k i m)) ∨
      relax k i st m = .error (.halt .overflow) ∧ Active md k i m ∧ ¬FitsInt (sumAt md k i m) := by
  have hsource : st.1 k m = md k m := by rw [h.entry, if_neg fun hlt ↦ lt_irrefl m hlt.2]
  have hentry : st.1 i m = md i m := by rw [h.entry, if_neg fun hlt ↦ lt_irrefl m hlt.2]
  obtain ⟨md₁, dik⟩ := st
  obtain rfl : dik = cachedDik md k i m := h.dik
  dsimp only at hsource hentry
  -- the next state, from the new entry and the new cached distance
  have hdone (v dik' : ℤ) (hv : v = improved md k i m) (hdik : dik' = cachedDik md k i (m + 1)) :
      RowDone md k i (m + 1) (md₁.set i m v, dik') := by
    refine ⟨hdik, fun r c ↦ ?_⟩
    dsimp only
    rw [MinDist.set_apply, hv, show md₁ r c = _ from h.entry r c]
    rcases eq_or_ne r i with rfl | hr
    · rcases eq_or_ne c m with rfl | hc
      · simp
      · have hiff : c < m + 1 ↔ c < m := by omega
        simp only [hc, and_false, if_false, hiff]
    · simp only [hr, false_and, if_false]
  have hsame (hv : improved md k i m = md i m) : md₁.set i m (improved md k i m) = md₁ := by
    rw [hv, ← hentry, MinDist.set_eq_self]
  have hcached (hne : m ≠ k) : cachedDik md k i m = cachedDik md k i (m + 1) := by
    rw [cachedDik, cachedDik]
    split_ifs <;> first | rfl | omega
  by_cases hinf : md k m = negativeInfinity
  · -- no path from `k`
    have himproved : improved md k i m = md i m := if_pos (.inr hinf)
    refine .inl ⟨(md₁, cachedDik md k i m), by simp only [Lmarkpipe.relax, hsource, hinf, if_true], ?_,
      fun hactive ↦ absurd hinf hactive.2, fun heq hends ↦ hends.1.2 (heq ▸ hinf)⟩
    rw [← hsame himproved]
    refine hdone _ _ rfl ?_
    rcases eq_or_ne m k with rfl | hne
    · rw [cachedDik, cachedDik, if_neg (lt_irrefl m), if_pos (Nat.lt_succ_self m), relaxed, if_pos (.inr hinf)]
    · exact hcached hne
  have hactive : Active md k i m := ⟨hik, hinf⟩
  have himproved : improved md k i m = max (md i m) (sumAt md k i m) := if_neg (by simp [hik, hinf])
  by_cases hfits : FitsInt (sumAt md k i m)
  · have hint : int32 (cachedDik md k i m + md k m) = .ok (sumAt md k i m) := int32_eq hfits
    have hrun : relax k i (md₁, cachedDik md k i m) m =
        if sumAt md k i m > md i m then
          if i = m ∧ sumAt md k i m > 0 then .error (.found (md₁.set i m (sumAt md k i m)))
          else .ok (md₁.set i m (sumAt md k i m), if m = k then sumAt md k i m else cachedDik md k i m)
        else .ok (md₁, cachedDik md k i m) := by
      simp only [Lmarkpipe.relax, hsource, hentry, if_neg hinf, hint]
      rfl
    -- at column `k` the cached distance is the sum or stays
    have hcolumn : m = k → cachedDik md k i (m + 1) = max (md i m) (sumAt md k i m) := by
      rintro rfl
      rw [cachedDik, if_pos (Nat.lt_succ_self m), relaxed, if_neg (by simp [hik, hinf]), sumAt, cachedDik,
        if_neg (lt_irrefl m)]
    rcases lt_or_ge (md i m) (sumAt md k i m) with hgt | hle
    · rw [if_pos hgt] at hrun
      by_cases hdiag : i = m ∧ 0 < sumAt md k i m
      · rw [if_pos hdiag] at hrun
        obtain ⟨rfl, hpos⟩ := hdiag
        exact .inr (.inl ⟨_, hrun, rfl, ⟨hactive, hgt, hpos⟩, hfits⟩)
      · rw [if_neg hdiag] at hrun
        refine .inl ⟨_, hrun, hdone _ _ (himproved.trans (max_eq_right hgt.le)).symm ?_, fun _ ↦ hfits,
          fun heq hends ↦ hdiag ⟨heq, heq ▸ hends.2.2⟩⟩
        split_ifs with hmk
        · rw [hcolumn hmk, max_eq_right hgt.le]
        · exact hcached hmk
    · rw [if_neg (not_lt.2 hle)] at hrun
      refine .inl ⟨_, hrun, ?_, fun _ ↦ hfits, fun heq hends ↦ by subst heq; exact hle.not_gt hends.2.1⟩
      rw [← hsame (himproved.trans (max_eq_left hle))]
      refine hdone _ _ rfl ?_
      rcases eq_or_ne m k with rfl | hne
      · rw [hcolumn rfl, max_eq_left hle, cachedDik, if_neg (lt_irrefl m)]
      · exact hcached hne
  · have hint : int32 (cachedDik md k i m + md k m) = .error .overflow := if_neg hfits
    refine .inr (.inr ⟨?_, hactive, hfits⟩)
    simp only [Lmarkpipe.relax, hsource, if_neg hinf, hint]
    rfl

/-- **The loop over `j`.** It gets through the row, or ends at the diagonal, or at a sum that does not
fit. -/
theorem rowDone_foldlM (hik : md i k ≠ negativeInfinity) (m : ℕ) :
    (∃ st, (List.range m).foldlM (relax k i) (md, md i k) = .ok st ∧ RowDone md k i m st ∧
        RowFits md k i m ∧ (i < m → ¬Ends md k i)) ∨
      (∃ md', (List.range m).foldlM (relax k i) (md, md i k) = .error (.found md') ∧ i < m ∧ Ends md k i ∧
        RowFits md k i (i + 1)) ∨
      (List.range m).foldlM (relax k i) (md, md i k) = .error (.halt .overflow) ∧
        ∃ j < m, Active md k i j ∧ ¬FitsInt (sumAt md k i j) ∧ (i < j → ¬Ends md k i) := by
  induction m with
  | zero =>
    refine .inl ⟨_, rfl, ⟨rfl, fun r c ↦ by simp⟩, fun j hj ↦ absurd hj (Nat.not_lt_zero j), fun h ↦ ?_⟩
    exact absurd h (Nat.not_lt_zero i)
  | succ m ih =>
    rw [foldlM_range_succ]
    obtain ⟨st, hrun, hdone, hfits, hends⟩ | ⟨md', hrun, hlt, hends, hfits⟩ | ⟨hrun, j, hj, hover⟩ := ih
    · rw [hrun]
      show _ ∨ (∃ md', relax k i st m = _ ∧ _) ∨ relax k i st m = _ ∧ _
      have hfits' (hm : Active md k i m → FitsInt (sumAt md k i m)) : RowFits md k i (m + 1) := by
        intro j hj
        rcases Nat.lt_succ_iff_lt_or_eq.1 hj with hj | rfl
        · exact hfits j hj
        · exact hm
      obtain ⟨st', hstep, hdone', hm, hnot⟩ | ⟨md', hstep, rfl, hend, hm⟩ | ⟨hstep, hactive, hover⟩ :=
        hdone.step hik
      · refine .inl ⟨st', hstep, hdone', hfits' hm, fun hi ↦ ?_⟩
        rcases Nat.lt_succ_iff_lt_or_eq.1 hi with hi | rfl
        · exact hends hi
        · exact hnot rfl
      · exact .inr (.inl ⟨md', hstep, Nat.lt_succ_self i, hend, hfits' fun _ ↦ hm⟩)
      · exact .inr (.inr ⟨hstep, m, Nat.lt_succ_self m, hactive, hover, hends⟩)
    · rw [hrun]
      exact .inr (.inl ⟨md', rfl, by omega, hends, hfits⟩)
    · rw [hrun]
      exact .inr (.inr ⟨rfl, j, by omega, hover⟩)

/-- **A row** of a stage. -/
theorem relaxRow_spec (md : MinDist) (k : ℕ) (hi : i < n) :
    (∃ md', relaxRow n k md i = .ok md' ∧
        (∀ r c, md' r c = if r = i ∧ c < n then improved md k i c else md r c) ∧
        RowFits md k i n ∧ ¬Ends md k i) ∨
      (∃ md', relaxRow n k md i = .error (.found md') ∧ Ends md k i ∧ RowFits md k i (i + 1)) ∨
      relaxRow n k md i = .error (.halt .overflow) ∧
        ∃ j < n, Active md k i j ∧ ¬FitsInt (sumAt md k i j) ∧ (i < j → ¬Ends md k i) := by
  rw [relaxRow]
  split_ifs with hik
  · refine .inl ⟨md, rfl, fun r c ↦ ?_, fun j _ hactive ↦ absurd hik hactive.1, fun h ↦ h.1.1 hik⟩
    split_ifs with h
    · rw [improved, if_pos (.inl hik), h.1]
    · rfl
  · obtain ⟨st, hrun, hdone, hfits, hends⟩ | ⟨md', hrun, -, hends, hfits⟩ | ⟨hrun, hover⟩ :=
      rowDone_foldlM hik n
    · exact .inl ⟨st.1, by rw [hrun]; rfl, hdone.entry, hfits, hends hi⟩
    · exact .inr (.inl ⟨md', by rw [hrun]; rfl, hends, hfits⟩)
    · exact .inr (.inr ⟨by rw [hrun]; rfl, hover⟩)

/-- What the loop over `i` leaves: the first rows are improved. -/
def StageDone (n : ℕ) (md : MinDist) (k m : ℕ) (md' : MinDist) : Prop :=
  ∀ r c, md' r c = if r < m ∧ c < n then improved md k r c else md r c

/-- The rows of `k` and of the operation to come are as before the stage, when the search has not ended. -/
theorem StageDone.same (h : StageDone n md k m md') (hends : ∀ i < m, ¬Ends md k i) (c : ℕ) :
    md' k c = md k c ∧ md' m c = md m c := by
  refine ⟨?_, by rw [h, if_neg fun hlt ↦ lt_irrefl m hlt.1]⟩
  rw [h]
  split_ifs with hlt
  · exact improved_self (not_lt.1 fun hpos ↦ hends k hlt.1 (ends_self hpos)) c
  · rfl

/-- **The loop over `i`.** -/
theorem stageDone_foldlM (md : MinDist) (k : ℕ) (hm : m ≤ n) :
    (∃ md', (List.range m).foldlM (relaxRow n k) md = .ok md' ∧ StageDone n md k m md' ∧
        (∀ i < m, RowFits md k i n) ∧ ∀ i < m, ¬Ends md k i) ∨
      (∃ md', (List.range m).foldlM (relaxRow n k) md = .error (.found md') ∧
        ∃ i < m, Ends md k i ∧ RowFits md k i (i + 1) ∧ ∀ i' < i, RowFits md k i' n) ∨
      (List.range m).foldlM (relaxRow n k) md = .error (.halt .overflow) ∧
        ∃ i < m, ∃ j < n, Active md k i j ∧ ¬FitsInt (sumAt md k i j) ∧ (i < j → ¬Ends md k i) ∧
          ∀ i' < i, ¬Ends md k i' := by
  induction m with
  | zero =>
    exact .inl ⟨md, rfl, fun r c ↦ by simp, fun i hi ↦ absurd hi (Nat.not_lt_zero i),
      fun i hi ↦ absurd hi (Nat.not_lt_zero i)⟩
  | succ m ih =>
    rw [foldlM_range_succ]
    obtain ⟨md₁, hrun, hdone, hfits, hends⟩ | ⟨md', hrun, i, hi, hend⟩ | ⟨hrun, i, hi, hover⟩ := ih (by omega)
    · rw [hrun]
      show (∃ md', relaxRow n k md₁ m = _ ∧ _) ∨ (∃ md', relaxRow n k md₁ m = _ ∧ _) ∨
        relaxRow n k md₁ m = _ ∧ _
      -- row `m` sees the table as it was before the stage
      have hactive (j : ℕ) : Active md₁ k m j ↔ Active md k m j := by
        rw [Active, Active, (hdone.same hends j).1, (hdone.same hends k).2]
      have hrelaxed : relaxed md₁ k m k = relaxed md k m k := by
        rw [relaxed, relaxed, (hdone.same hends k).1, (hdone.same hends k).2]
      have hsum (j : ℕ) : sumAt md₁ k m j = sumAt md k m j := by
        rw [sumAt, sumAt, cachedDik, cachedDik, hrelaxed, (hdone.same hends j).1, (hdone.same hends k).2]
      have himproved (j : ℕ) : improved md₁ k m j = improved md k m j := by
        rw [improved, improved, hsum, (hdone.same hends j).1, (hdone.same hends k).2, (hdone.same hends j).2]
      have hend : Ends md₁ k m ↔ Ends md k m := by
        rw [Ends, Ends, hactive, hsum, (hdone.same hends m).2]
      have hrow (b : ℕ) : RowFits md₁ k m b ↔ RowFits md k m b := by simp only [RowFits, hactive, hsum]
      have hnext (b : ℕ) (hb : b < m + 1) {P : ℕ → Prop} (hP : ∀ i < m, P i) (hPm : P m) : P b := by
        rcases Nat.lt_succ_iff_lt_or_eq.1 hb with hb | rfl
        · exact hP b hb
        · exact hPm
      obtain ⟨md', hrow', hentry, hfit, hnot⟩ | ⟨md', hrow', hend', hfit⟩ | ⟨hrow', j, hj, hact, hover, hnot⟩ :=
        relaxRow_spec md₁ k (show m < n by omega)
      · refine .inl ⟨md', hrow', fun r c ↦ ?_, fun i hi ↦ hnext i hi hfits ((hrow n).1 hfit),
          fun i hi ↦ hnext i hi hends fun h ↦ hnot (hend.2 h)⟩
        rw [hentry, hdone, himproved]
        rcases eq_or_ne r m with rfl | hr
        · simp
        · have hiff : r < m + 1 ↔ r < m := by omega
          simp only [hr, false_and, if_false, hiff]
      · exact .inr (.inl ⟨md', hrow', m, Nat.lt_succ_self m, hend.1 hend', (hrow _).1 hfit, hfits⟩)
      · rw [hactive, hsum, hend] at *
        exact .inr (.inr ⟨hrow', m, Nat.lt_succ_self m, j, hj, hact, hover, hnot, hends⟩)
    · rw [hrun]
      exact .inr (.inl ⟨md', rfl, i, by omega, hend⟩)
    · rw [hrun]
      exact .inr (.inr ⟨rfl, i, by omega, hover⟩)

end Stage

/-! ### All stages -/

section Search

variable {cb : Cb} {opArray : List ℕ} {ii : ℤ} {b i j k n : ℕ} {v w : ℤ} {md md' : MinDist}

/-- What the table holds is at least what any path gives. -/
theorem IsHeld.le_of_held {t : ℤ} (h : IsHeld cb opArray ii b i j v)
    (ht : Held cb opArray ii b i j t) : t ≤ v :=
  h.2 (Set.mem_insert_of_mem _ ht)

/-- It is what some path gives, unless there is none. -/
theorem IsHeld.held (h : IsHeld cb opArray ii b i j v) (hv : v ≠ negativeInfinity) :
    Held cb opArray ii b i j v :=
  h.1.resolve_left hv

/-- `NEGATIVE_INFINITY` says that there is none. -/
theorem IsHeld.not_held (h : IsHeld cb opArray ii b i j negativeInfinity) {t : ℤ} :
    ¬Held cb opArray ii b i j t :=
  fun ht ↦ ht.keeps.not_ge (h.le_of_held ht)

theorem IsHeld.ge (h : IsHeld cb opArray ii b i j v) : negativeInfinity ≤ v :=
  h.2 (Set.mem_insert _ _)

/-- A stage adds the paths through one more inner operation. -/
theorem IsHeld.relaxed (h : IsHeld cb opArray ii k i j (md i j))
    (h₁ : IsHeld cb opArray ii k i k (md i k)) (h₂ : IsHeld cb opArray ii k k j (md k j)) :
    IsHeld cb opArray ii (k + 1) i j (relaxed md k i j) := by
  have hsucc : {t | Held cb opArray ii (k + 1) i j t} = {t | Held cb opArray ii k i j t ∨
      ∃ t₁ t₂, Held cb opArray ii k i k t₁ ∧ Held cb opArray ii k k j t₂ ∧
        negativeInfinity < t ∧ t₁ + t₂ = t} := Set.ext fun t ↦ joined_succ
  rw [IsHeld, hsucc, Lmarkpipe.relaxed]
  split_ifs with hinf
  · -- no path leads through `k`
    have hnone : ∀ t₁ t₂, Held cb opArray ii k i k t₁ → ¬Held cb opArray ii k k j t₂ := by
      intro t₁ t₂ ht₁ ht₂
      rcases hinf with hinf | hinf
      · exact IsHeld.not_held (hinf ▸ h₁) ht₁
      · exact IsHeld.not_held (hinf ▸ h₂) ht₂
    refine ⟨h.1.imp_right .inl, fun t ht ↦ h.2 (ht.imp_right fun ht ↦ ?_)⟩
    exact ht.resolve_right fun ⟨t₁, t₂, ht₁, ht₂, _⟩ ↦ hnone t₁ t₂ ht₁ ht₂
  · rw [not_or] at hinf
    have hge := h.ge
    constructor
    · rcases le_or_gt (md i k + md k j) (md i j) with hle | hlt
      · rw [max_eq_left hle]
        exact h.1.imp_right .inl
      · rw [max_eq_right hlt.le]
        exact .inr (.inr ⟨_, _, h₁.held hinf.1, h₂.held hinf.2, hge.trans_lt hlt, rfl⟩)
    · rintro t (rfl | ht | ⟨t₁, t₂, ht₁, ht₂, -, rfl⟩)
      · exact hge.trans (le_max_left _ _)
      · exact (h.le_of_held ht).trans (le_max_left _ _)
      · exact (add_le_add (h₁.le_of_held ht₁) (h₂.le_of_held ht₂)).trans (le_max_right _ _)

/-- The table before stage `b`. -/
structure TableAt (cb : Cb) (opArray : List ℕ) (ii : ℤ) (b : ℕ) (md : MinDist) : Prop where
  held : ∀ i < opArray.length, ∀ j < opArray.length, IsHeld cb opArray ii b i j (md i j)
  diag : ∀ i < b, md i i ≤ 0

/-! ### The sums of a stage -/

/-- The entry that is read early is at least the one in the table. -/
theorem le_cachedDik (md : MinDist) (k i j : ℕ) : md i k ≤ cachedDik md k i j := by
  rw [cachedDik, Lmarkpipe.relaxed]
  split_ifs
  · exact le_rfl
  · exact le_max_left _ _
  · exact le_rfl

/-- The entry for `(i, k)` that the inner loop uses is one of a step or of the step before. -/
theorem TableAt.cachedDik (h : TableAt cb opArray ii k md) (hk : k < opArray.length)
    (hi : i < opArray.length) (j : ℕ) :
    IsHeld cb opArray ii (if k < j then k + 1 else k) i k (cachedDik md k i j) := by
  rw [Lmarkpipe.cachedDik]
  split_ifs
  · exact (h.held i hi k hk).relaxed (h.held i hi k hk) (h.held k hk k hk)
  · exact h.held i hi k hk

/-- The sum that comes up is the greatest of those that can. -/
theorem TableAt.isGreatest_sums (h : TableAt cb opArray ii k md) (hk : k < opArray.length)
    (hi : i < opArray.length) (hj : j < opArray.length) (hactive : Active md k i j) :
    IsGreatest (sums cb opArray ii k i j) (sumAt md k i j) := by
  have hdik := h.cachedDik hk hi j
  have hne : Lmarkpipe.cachedDik md k i j ≠ negativeInfinity := by
    have hle := le_cachedDik md k i j
    have hge := (h.held i hi k hk).ge
    exact (lt_of_lt_of_le (lt_of_le_of_ne hge hactive.1.symm) hle).ne'
  refine ⟨⟨_, _, hdik.held hne, (h.held k hk j hj).held hactive.2, rfl⟩, ?_⟩
  rintro t ⟨t₁, t₂, ht₁, ht₂, rfl⟩
  exact add_le_add (hdik.le_of_held ht₁) ((h.held k hk j hj).le_of_held ht₂)

/-- A path through `k` is seen by the inner loop. -/
theorem TableAt.active (h : TableAt cb opArray ii k md) (hk : k < opArray.length)
    (hi : i < opArray.length) (hj : j < opArray.length) {t : ℤ} (ht : t ∈ sums cb opArray ii k i j) :
    Active md k i j := by
  obtain ⟨t₁, t₂, ht₁, ht₂, -⟩ := ht
  have hik : ∃ t, Held cb opArray ii k i k t := by
    split_ifs at ht₁
    · obtain ht₁ | ⟨s, -, hs, -⟩ := joined_succ.1 ht₁
      · exact ⟨t₁, ht₁⟩
      · exact ⟨s, hs⟩
    · exact ⟨t₁, ht₁⟩
  obtain ⟨t, ht⟩ := hik
  exact ⟨fun hinf ↦ IsHeld.not_held (hinf ▸ h.held i hi k hk) ht,
    fun hinf ↦ IsHeld.not_held (hinf ▸ h.held k hk j hj) ht₂⟩

/-- No sum is too small, since nothing at `NEGATIVE_INFINITY` or below is held. -/
theorem TableAt.sumsFit_iff (h : TableAt cb opArray ii k md) (hk : k < opArray.length)
    (hi : i < opArray.length) (hj : j < opArray.length) :
    SumsFit cb opArray ii k i j ↔ (Active md k i j → FitsInt (sumAt md k i j)) := by
  constructor
  · exact fun hfits hactive ↦ hfits _ (h.isGreatest_sums hk hi hj hactive).1
  · intro hfits t ht
    have hactive := h.active hk hi hj ht
    have hle := (h.isGreatest_sums hk hi hj hactive).2 ht
    have hfit := hfits hactive
    obtain ⟨t₁, t₂, ht₁, ht₂, rfl⟩ := ht
    have hgt₁ := ht₁.keeps
    have hgt₂ := ht₂.keeps
    rw [negativeInfinity] at hgt₁ hgt₂
    exact ⟨by omega, hle.trans hfit.2⟩

/-- The sweep over `j` stops exactly where a cycle is found. -/
theorem TableAt.ends_iff (h : TableAt cb opArray ii k md) (hk : k < opArray.length)
    (hi : i < opArray.length) : Ends md k i ↔ FindsCycle cb opArray ii k i := by
  constructor
  · rintro ⟨hactive, hgt, hpos⟩
    exact ⟨_, (h.isGreatest_sums hk hi hi hactive).1, hpos, fun t ht ↦ ((h.held i hi i hi).le_of_held ht).trans_lt hgt⟩
  · rintro ⟨t, ht, hpos, hgt⟩
    have hactive := h.active hk hi hi ht
    have hle := (h.isGreatest_sums hk hi hi hactive).2 ht
    refine ⟨hactive, lt_of_lt_of_le ?_ hle, hpos.trans_le hle⟩
    obtain heq | hheld := (h.held i hi i hi).1
    · rw [heq, negativeInfinity]
      omega
    · exact hgt _ hheld

/-- A cycle that is found is one that the table can hold. -/
theorem FindsCycle.held (h : FindsCycle cb opArray ii k i) (hk : k < opArray.length) :
    ∃ i t, Held cb opArray ii opArray.length i i t ∧ 0 < t := by
  obtain ⟨t, ⟨t₁, t₂, ht₁, ht₂, rfl⟩, hpos, -⟩ := h
  have hjoin {s : ℤ} (hs : Held cb opArray ii k i k s) (hsum : 0 < s + t₂) :
      ∃ i t, Held cb opArray ii opArray.length i i t ∧ 0 < t :=
    ⟨i, _, .join hk hs ht₂ (lt_trans (by decide) hsum), hsum⟩
  split_ifs at ht₁
  · obtain ht₁ | ⟨s₁, s₂, hs₁, hs₂, -, rfl⟩ := joined_succ.1 ht₁
    · exact hjoin ht₁ hpos
    · -- either the cycle from `k` to itself is positive, or it can be left out
      rcases lt_or_ge 0 s₂ with hpos₂ | hle
      · exact ⟨k, s₂, hs₂.mono hk.le, hpos₂⟩
      · exact hjoin hs₁ (by omega)
  · exact hjoin ht₁ hpos

/-! ### The stages -/

/-- **One stage.** It leaves the table of the next stage, or finds a cycle, or meets a sum that does not
fit. -/
theorem TableAt.relaxAll (h : TableAt cb opArray ii k md) (hk : k < opArray.length) :
    (∃ md', relaxAll opArray.length md k = .ok md' ∧ TableAt cb opArray ii (k + 1) md' ∧
        ∀ i < opArray.length, (∀ j < opArray.length, SumsFit cb opArray ii k i j) ∧
          ¬FindsCycle cb opArray ii k i) ∨
      (∃ md', Lmarkpipe.relaxAll opArray.length md k = .error (.found md') ∧ ∃ i < opArray.length,
        FindsCycle cb opArray ii k i ∧ ∀ i' < opArray.length, ∀ j < opArray.length,
          ¬(i < i' ∨ i = i' ∧ i' < j) → SumsFit cb opArray ii k i' j) ∨
      Lmarkpipe.relaxAll opArray.length md k = .error (.halt .overflow) ∧ ∃ i < opArray.length,
        ∃ j < opArray.length, ¬SumsFit cb opArray ii k i j ∧ ∀ i' < opArray.length,
          i' < i ∨ i' = i ∧ i < j → ¬FindsCycle cb opArray ii k i' := by
  have hfits {i m : ℕ} (hi : i < opArray.length) (hm : m ≤ opArray.length) (hrow : RowFits md k i m) :
      ∀ j < m, SumsFit cb opArray ii k i j :=
    fun j hj ↦ (h.sumsFit_iff hk hi (hj.trans_le hm)).2 (hrow j hj)
  have hends {i : ℕ} (hi : i < opArray.length) : Ends md k i ↔ FindsCycle cb opArray ii k i := h.ends_iff hk hi
  obtain ⟨md', hrun, hdone, hrows, hnot⟩ | ⟨md', hrun, i, hi, hend, hrow, hrows⟩ |
    ⟨hrun, i, hi, j, hj, hactive, hover, hnot, hnots⟩ := stageDone_foldlM md k (le_refl opArray.length)
  · refine .inl ⟨md', hrun, ⟨fun i hi j hj ↦ ?_, fun i hi ↦ ?_⟩, fun i hi ↦
      ⟨hfits hi le_rfl (hrows i hi), fun hfinds ↦ hnot i hi ((hends hi).2 hfinds)⟩⟩
    all_goals have hle : md k k ≤ 0 := not_lt.1 fun hpos ↦ hnot k hk (ends_self hpos)
    · rw [hdone, if_pos ⟨hi, hj⟩, improved_of_nonpos hle]
      exact (h.held i hi j hj).relaxed (h.held i hi k hk) (h.held k hk j hj)
    · have hi' : i < opArray.length := by omega
      have hle' : md i i ≤ 0 := by
        rcases Nat.lt_succ_iff_lt_or_eq.1 hi with hlt | rfl
        · exact h.diag i hlt
        · exact hle
      rw [hdone, if_pos ⟨hi', hi'⟩, improved]
      split_ifs with hinf
      · exact hle'
      · rw [not_or] at hinf
        refine max_le hle' (not_lt.1 fun hpos ↦ hnot i hi' ⟨hinf, ?_, hpos⟩)
        omega
  · refine .inr (.inl ⟨md', hrun, i, hi, (hends hi).1 hend, fun i' hi' j hj hbefore ↦ ?_⟩)
    rcases lt_trichotomy i' i with hlt | rfl | hgt
    · exact hfits hi' le_rfl (hrows i' hlt) j hj
    · exact hfits hi' hi' hrow j (by omega)
    · exact absurd (.inl hgt) hbefore
  · refine .inr (.inr ⟨hrun, i, hi, j, hj, fun hfit ↦ hover ((h.sumsFit_iff hk hi hj).1 hfit hactive), ?_⟩)
    rintro i' hi' (hlt | ⟨rfl, hlt⟩) hfinds
    · exact hnots i' hlt ((hends hi').2 hfinds)
    · exact hnot hlt ((hends hi').2 hfinds)

/-- **The loop over `k`.** -/
theorem tableAt_foldlM (h : TableAt cb opArray ii 0 md) {m : ℕ} (hm : m ≤ opArray.length) :
    (∃ md', (List.range m).foldlM (Lmarkpipe.relaxAll opArray.length) md = .ok md' ∧
        TableAt cb opArray ii m md' ∧ ∀ k < m, ∀ i < opArray.length,
          (∀ j < opArray.length, SumsFit cb opArray ii k i j) ∧ ¬FindsCycle cb opArray ii k i) ∨
      (∃ md', (List.range m).foldlM (Lmarkpipe.relaxAll opArray.length) md = .error (.found md') ∧
        ∃ k < m, ∃ i < opArray.length, FindsCycle cb opArray ii k i ∧ ∀ k' i', i' < opArray.length →
          ∀ j < opArray.length, ¬Before k i k' i' j → SumsFit cb opArray ii k' i' j) ∨
      (List.range m).foldlM (Lmarkpipe.relaxAll opArray.length) md = .error (.halt .overflow) ∧
        ∃ k < m, ∃ i < opArray.length, ∃ j < opArray.length, ¬SumsFit cb opArray ii k i j ∧
          ∀ k' i', i' < opArray.length → Before k' i' k i j → ¬FindsCycle cb opArray ii k' i' := by
  induction m with
  | zero => exact .inl ⟨md, rfl, h, fun k hk ↦ absurd hk (Nat.not_lt_zero k)⟩
  | succ m ih =>
    rw [foldlM_range_succ]
    obtain ⟨md₁, hrun, htable, hall⟩ | ⟨md', hrun, k, hk, hfinds⟩ | ⟨hrun, k, hk, hover⟩ := ih (by omega)
    · rw [hrun]
      show (∃ md', Lmarkpipe.relaxAll _ md₁ m = _ ∧ _) ∨ (∃ md', Lmarkpipe.relaxAll _ md₁ m = _ ∧ _) ∨
        Lmarkpipe.relaxAll _ md₁ m = _ ∧ _
      obtain ⟨md', hstage, htable', hfits⟩ | ⟨md', hstage, i, hi, hfinds, hfits⟩ |
        ⟨hstage, i, hi, j, hj, hover, hnot⟩ := htable.relaxAll (by omega)
      · refine .inl ⟨md', hstage, htable', fun k hk ↦ ?_⟩
        rcases Nat.lt_succ_iff_lt_or_eq.1 hk with hk | rfl
        · exact hall k hk
        · exact hfits
      · refine .inr (.inl ⟨md', hstage, m, Nat.lt_succ_self m, i, hi, hfinds, fun k' i' hi' j hj hbefore ↦ ?_⟩)
        rw [Before, not_or] at hbefore
        rcases lt_or_eq_of_le (not_lt.1 hbefore.1) with hlt | rfl
        · exact (hall k' hlt i' hi').1 j hj
        · exact hfits i' hi' j hj fun hlt ↦ hbefore.2 ⟨rfl, hlt⟩
      · refine .inr (.inr ⟨hstage, m, Nat.lt_succ_self m, i, hi, j, hj, hover, ?_⟩)
        rintro k' i' hi' (hlt | ⟨rfl, hlt⟩)
        · exact (hall k' hlt i' hi').2
        · exact hnot i' hi' hlt
    · rw [hrun]
      exact .inr (.inl ⟨md', rfl, k, by omega, hfinds⟩)
    · rw [hrun]
      exact .inr (.inr ⟨rfl, k, by omega, hover⟩)

/-! ### The table at the start -/

/-- The intervals that a list of dependences asks for. -/
def intervals (cb : Cb) (toOp : ℕ) (ii : ℤ) (l : List ℕ) : Set ℤ :=
  {t | ∃ k ∈ l, (cb.dep k).toOp = toOp ∧ (cb.dep k).ignore = false ∧
    (cb.dep k).minDelay - ii * (cb.dep k).omega = t}

/-- A dependence to the operation is checked when its interval is computed. -/
theorem checked_maxInterval (cb : Cb) (toOp : ℕ) (ii v : ℤ) (k : ℕ) :
    Checked ((cb.dep k).toOp = toOp ∧ !(cb.dep k).ignore →
      FitsInt (ii * (cb.dep k).omega) ∧ FitsInt ((cb.dep k).minDelay - ii * (cb.dep k).omega))
      (maxInterval cb toOp ii v k) := by
  rw [maxInterval]
  split_ifs with hdep
  · refine .congr (imp_iff_right hdep).symm ((checked_int32 _).bind fun product hproduct ↦ ?_)
    obtain ⟨-, rfl⟩ := int32_eq_ok.1 hproduct
    exact .congr (iff_of_eq (and_true _)) ((checked_int32 _).bind fun _ _ ↦ .ok _)
  · exact .congr (iff_of_true trivial fun h ↦ absurd h hdep) (.ok v)

/-- `Lpipe_max_time_interval` is checked for the intervals of all dependences between the two. -/
theorem checked_maxTimeInterval {o o' : ℕ} (ho : (cb.oper o).ignore = false)
    (ho' : (cb.oper o').ignore = false) : Checked (IntervalsFit cb o o' ii) (maxTimeInterval cb o o' ii) := by
  rw [maxTimeInterval]
  simp only [ho, ho', Bool.false_eq_true, if_false]
  exact .foldlM fun action _ v ↦ .foldlM fun k _ v ↦ checked_maxInterval cb o' ii v k

/-- A dependence asks for its interval. -/
theorem maxInterval_spec {toOp : ℕ} {w : ℤ} (hrun : maxInterval cb toOp ii v k = .ok w) {S : Set ℤ}
    (hv : IsGreatest S v) : IsGreatest (S ∪ intervals cb toOp ii [k]) w := by
  rw [maxInterval] at hrun
  split_ifs at hrun with hdep
  · obtain ⟨product, hproduct, hrun⟩ := Run.bind_eq_ok.1 hrun
    obtain ⟨-, rfl⟩ := int32_eq_ok.1 hproduct
    obtain ⟨interval, hinterval, hrun⟩ := Run.bind_eq_ok.1 hrun
    obtain ⟨-, rfl⟩ := int32_eq_ok.1 hinterval
    obtain rfl := Except.ok.inj hrun
    split_ifs with hgt
    · refine ⟨.inr ⟨k, List.mem_singleton_self k, hdep.1, by simpa using hdep.2, rfl⟩, ?_⟩
      rintro t (ht | ⟨k', hk', -, -, rfl⟩)
      · exact (hv.2 ht).trans hgt.le
      · rw [List.mem_singleton.1 hk']
    · refine ⟨.inl hv.1, ?_⟩
      rintro t (ht | ⟨k', hk', -, -, rfl⟩)
      · exact hv.2 ht
      · rw [List.mem_singleton.1 hk']
        exact not_lt.1 hgt
  · obtain rfl := Except.ok.inj hrun
    refine ⟨.inl hv.1, ?_⟩
    rintro t (ht | ⟨k', hk', hto, hignore, -⟩)
    · exact hv.2 ht
    · rw [List.mem_singleton.1 hk'] at hto hignore
      exact absurd ⟨hto, by simp [hignore]⟩ hdep

/-- The loop over dependences takes the greatest of the intervals. -/
theorem foldlM_maxInterval {toOp : ℕ} (l : List ℕ) {w : ℤ}
    (hrun : l.foldlM (maxInterval cb toOp ii) v = .ok w) {S : Set ℤ} (hv : IsGreatest S v) :
    IsGreatest (S ∪ intervals cb toOp ii l) w := by
  induction l generalizing S v with
  | nil =>
    obtain rfl := Except.ok.inj hrun
    simpa [intervals] using hv
  | cons k l ih =>
    rw [List.foldlM_cons] at hrun
    obtain ⟨v₁, hfirst, hrest⟩ := Run.bind_eq_ok.1 hrun
    have hset : S ∪ intervals cb toOp ii (k :: l) =
        S ∪ intervals cb toOp ii [k] ∪ intervals cb toOp ii l := by
      rw [Set.union_assoc]
      refine congrArg (S ∪ ·) (Set.ext fun t ↦ ?_)
      simp only [intervals, Set.mem_union, Set.mem_ofPred_eq, List.exists_mem_cons_iff,
        List.not_mem_nil, false_and, exists_false, or_false]
    rw [hset]
    exact ih hrest (maxInterval_spec hfirst hv)

/-- What `Lpipe_max_time_interval` returns. -/
theorem maxTimeInterval_spec (hi : i < opArray.length) (hj : j < opArray.length)
    (hrun : maxTimeInterval cb opArray[i] opArray[j] ii = .ok v) :
    IsHeld cb opArray ii 0 i j v ∧ IntervalsFit cb opArray[i] opArray[j] ii := by
  have hfold : ∀ (actions : List RegAction) (S : Set ℤ) (v w : ℤ), IsGreatest S v →
      actions.foldlM (fun interval action ↦ action.depOut.foldlM (maxInterval cb opArray[j] ii) interval) v =
        .ok w →
      IsGreatest (S ∪ {t | ∃ action ∈ actions, t ∈ intervals cb opArray[j] ii action.depOut}) w := by
    intro actions
    induction actions with
    | nil =>
      intro S v w hv hrun
      obtain rfl := Except.ok.inj hrun
      simpa using hv
    | cons action actions ih =>
      intro S v w hv hrun
      rw [List.foldlM_cons] at hrun
      obtain ⟨v₁, hfirst, hrest⟩ := Run.bind_eq_ok.1 hrun
      have hset : S ∪ {t | ∃ a ∈ action :: actions, t ∈ intervals cb opArray[j] ii a.depOut} =
          S ∪ intervals cb opArray[j] ii action.depOut ∪
            {t | ∃ a ∈ actions, t ∈ intervals cb opArray[j] ii a.depOut} := by
        rw [Set.union_assoc]
        refine congrArg (S ∪ ·) (Set.ext fun t ↦ ?_)
        simp only [Set.mem_union, Set.mem_ofPred_eq, List.exists_mem_cons_iff]
      rw [hset]
      exact ih _ _ _ (foldlM_maxInterval _ hfirst hv) hrest
  have hfits : IntervalsFit cb opArray[i] opArray[j] ii := by
    have hignore : (cb.oper opArray[i]).ignore = false ∧ (cb.oper opArray[j]).ignore = false := by
      rw [maxTimeInterval] at hrun
      split_ifs at hrun with ho ho'
      exact ⟨Bool.eq_false_iff.2 ho, Bool.eq_false_iff.2 ho'⟩
    exact (checked_maxTimeInterval hignore.1 hignore.2).of_ok hrun
  rw [maxTimeInterval] at hrun
  split_ifs at hrun
  have hgreatest := hfold (cb.oper opArray[i]).actions {negativeInfinity} negativeInfinity _
    isGreatest_singleton hrun
  have hheld : ∀ t, Held cb opArray ii 0 i j t ↔
      (∃ action ∈ (cb.oper opArray[i]).actions, t ∈ intervals cb opArray[j] ii action.depOut) ∧
        negativeInfinity < t := fun t ↦
    joined_zero.trans (and_congr_left fun _ ↦ ⟨fun ⟨_, _, h⟩ ↦ h, fun h ↦ ⟨hi, hj, h⟩⟩)
  refine ⟨⟨?_, ?_⟩, hfits⟩
  · rcases eq_or_ne v negativeInfinity with rfl | hne
    · exact .inl rfl
    · refine .inr ((hheld v).2 ⟨hgreatest.1.resolve_left hne, ?_⟩)
      exact lt_of_le_of_ne (hgreatest.2 (.inl rfl)) hne.symm
  · rintro t (rfl | ht)
    · exact hgreatest.2 (.inl rfl)
    · exact hgreatest.2 (.inr ((hheld t).1 ht).1)

/-- One row of the table before the sweeps. -/
theorem initRow_spec (i : Fin opArray.length) {l : List (Fin opArray.length)}
    (hrun : l.foldlM (fun md j ↦ do
      let interval ← maxTimeInterval cb (opArray.get i) (opArray.get j) ii
      pure (MinDist.set md i j interval)) md = .ok md') :
    (∀ j ∈ l, maxTimeInterval cb (opArray.get i) (opArray.get j) ii = .ok (md' i j)) ∧
      ∀ (r c : Fin opArray.length), (r ≠ i ∨ c ∉ l) → md' r c = md r c := by
  induction l generalizing md with
  | nil => exact ⟨fun j hj ↦ absurd hj List.not_mem_nil, fun r c _ ↦ by rw [← Except.ok.inj hrun]⟩
  | cons j l ih =>
    rw [List.foldlM_cons] at hrun
    obtain ⟨md₁, hset, hrest⟩ := Run.bind_eq_ok.1 hrun
    obtain ⟨interval, hinterval, hset⟩ := Run.bind_eq_ok.1 hset
    obtain rfl := Except.ok.inj hset
    obtain ⟨hdone, hframe⟩ := ih hrest
    refine ⟨fun j' hj' ↦ ?_, fun r c hrc ↦ ?_⟩
    · rcases Decidable.em (j' ∈ l) with hin | hout
      · exact hdone j' hin
      · obtain rfl := (List.mem_cons.1 hj').resolve_right hout
        rw [hframe i j' (.inr hout), MinDist.set_apply, if_pos ⟨rfl, rfl⟩]
        exact hinterval
    · rw [hframe r c (hrc.imp_right fun h hin ↦ h (List.mem_cons_of_mem j hin)), MinDist.set_apply,
        if_neg]
      rintro ⟨hr, hc⟩
      obtain h | h := hrc
      · exact h (Fin.ext hr)
      · exact h (Fin.ext hc ▸ List.mem_cons_self)

/-- The table before the sweeps has the intervals of the single dependences. -/
theorem initMinDist_spec (hrun : initMinDist cb opArray ii = .ok md) :
    TableAt cb opArray ii 0 md ∧ ∀ o ∈ opArray, ∀ o' ∈ opArray, IntervalsFit cb o o' ii := by
  suffices h : ∀ (l : List (Fin opArray.length)) (md₀ md : MinDist), l.foldlM (fun md i ↦
      (List.finRange opArray.length).foldlM (fun md j ↦ do
        let interval ← maxTimeInterval cb (opArray.get i) (opArray.get j) ii
        pure (md.set i j interval)) md) md₀ = .ok md →
      (∀ i ∈ l, ∀ j, maxTimeInterval cb (opArray.get i) (opArray.get j) ii = .ok (md i j)) ∧
        ∀ (r c : Fin opArray.length), r ∉ l → md r c = md₀ r c by
    obtain ⟨hall, -⟩ := h _ _ _ hrun
    have hentry (i j : ℕ) (hi : i < opArray.length) (hj : j < opArray.length) :=
      maxTimeInterval_spec hi hj (hall ⟨i, hi⟩ (List.mem_finRange _) ⟨j, hj⟩)
    refine ⟨⟨fun i hi j hj ↦ (hentry i j hi hj).1, fun i hi ↦ absurd hi (Nat.not_lt_zero i)⟩, ?_⟩
    intro o ho o' ho'
    obtain ⟨i, hi, rfl⟩ := List.mem_iff_getElem.1 ho
    obtain ⟨j, hj, rfl⟩ := List.mem_iff_getElem.1 ho'
    exact (hentry i j hi hj).2
  intro l
  induction l with
  | nil =>
    intro md₀ md hrun
    exact ⟨fun i hi ↦ absurd hi List.not_mem_nil, fun r c _ ↦ by rw [← Except.ok.inj hrun]⟩
  | cons i l ih =>
    intro md₀ md hrun
    rw [List.foldlM_cons] at hrun
    obtain ⟨md₁, hrow, hrest⟩ := Run.bind_eq_ok.1 hrun
    obtain ⟨hdone, hframe⟩ := initRow_spec i hrow
    obtain ⟨hall, hrestframe⟩ := ih md₁ md hrest
    refine ⟨fun i' hi' j ↦ ?_, fun r c hr ↦ ?_⟩
    · rcases Decidable.em (i' ∈ l) with hin | hout
      · exact hall i' hin j
      · obtain rfl := (List.mem_cons.1 hi').resolve_right hout
        rw [hrestframe i' j hout]
        exact hdone j (List.mem_finRange j)
    · rw [List.mem_cons, not_or] at hr
      rw [hrestframe r c hr.2, hframe r c (.inl hr.1)]

/-- **`Lpipe_build_MinDist`** that returns 0 leaves the greatest totals that the table can hold; that it
returns 1 is for a cycle whose total is positive and can be held. Every `int` fits. -/
theorem buildMinDist_spec {r : ℤ × MinDist} (hrun : buildMinDist cb opArray ii = .ok r) :
    DistancesFit cb opArray ii ∧ ((r.1 = 0 ∧ TableAt cb opArray ii opArray.length r.2) ∨
      (r.1 = 1 ∧ ∃ i t, Held cb opArray ii opArray.length i i t ∧ 0 < t)) := by
  rw [buildMinDist] at hrun
  split_ifs at hrun
  obtain ⟨size, hsize, hrun⟩ := Run.bind_eq_ok.1 hrun
  obtain ⟨hfits, -⟩ := int32_eq_ok.1 hsize
  obtain ⟨md, hinit, hrun⟩ := Run.bind_eq_ok.1 hrun
  obtain ⟨htable, hintervals⟩ := initMinDist_spec hinit
  obtain ⟨md', hfold, htable', hall⟩ | ⟨md', hfold, k, hk, i, hi, hfinds, hall⟩ | ⟨hfold, -⟩ :=
    tableAt_foldlM htable le_rfl
  · rw [hfold] at hrun
    obtain rfl := Except.ok.inj hrun
    exact ⟨⟨hfits, hintervals, fun k hk i hi j hj _ ↦ (hall k hk i hi).1 j hj⟩, .inl ⟨rfl, htable'⟩⟩
  · rw [hfold] at hrun
    obtain rfl := Except.ok.inj hrun
    refine ⟨⟨hfits, hintervals, fun k' hk' i' hi' j hj hnot ↦ hall k' i' hi' j hj fun hbefore ↦ ?_⟩,
      .inr ⟨rfl, hfinds.held hk⟩⟩
    exact hnot k hk i hi hbefore hfinds
  · rw [hfold] at hrun
    cases hrun

/-- **It returns** exactly when every `int` fits. -/
theorem buildMinDist_returns_iff (hignore : ∀ o ∈ opArray, (cb.oper o).ignore = false) (hii : ii ≠ 0) :
    (∃ r, buildMinDist cb opArray ii = .ok r) ↔ DistancesFit cb opArray ii := by
  refine ⟨fun ⟨r, hrun⟩ ↦ (buildMinDist_spec hrun).1, fun hfit ↦ ?_⟩
  have hinit : Checked (∀ i ∈ List.finRange opArray.length, ∀ j ∈ List.finRange opArray.length,
      IntervalsFit cb (opArray.get i) (opArray.get j) ii) (initMinDist cb opArray ii) :=
    .foldlM fun i _ md ↦ .foldlM fun j _ md ↦ .congr (iff_of_eq (and_true _)) <|
      (checked_maxTimeInterval (hignore _ (opArray.get_mem i)) (hignore _ (opArray.get_mem j))).bind fun _ _ ↦ .ok _
  obtain ⟨md, hmd⟩ := hinit.exists_ok fun i _ j _ ↦ hfit.interval _ (opArray.get_mem i) _ (opArray.get_mem j)
  have hsize : int32 (opArray.length * opArray.length) = .ok ((opArray.length : ℤ) * opArray.length) :=
    int32_eq hfit.size
  rw [buildMinDist, if_neg hii, hsize, Run.ok_bind, hmd, Run.ok_bind]
  obtain ⟨md', hfold, -⟩ | ⟨md', hfold, -⟩ | ⟨-, k, hk, i, hi, j, hj, hover, hnot⟩ :=
    tableAt_foldlM (initMinDist_spec hmd).1 le_rfl
  · exact ⟨_, by rw [hfold]; rfl⟩
  · exact ⟨_, by rw [hfold]; rfl⟩
  · exact absurd (hfit.sum k hk i hi j hj fun k' _ i' hi' hbefore ↦ hnot k' i' hi' hbefore) hover

/-! ### The graph -/

/-- Edges are between the operations of the array. -/
theorem depEdge_range (i j : ℕ) (t : ℤ) (h : DepEdge cb opArray ii i j t) :
    i < opArray.length ∧ j < opArray.length :=
  ⟨h.1, h.2.1⟩

/-- There are finitely many dependences from one operation to another. -/
theorem finite_depEdge (i j : ℕ) : {t | DepEdge cb opArray ii i j t}.Finite := by
  refine Set.Finite.subset (s := (fun k ↦ (cb.dep k).minDelay - ii * (cb.dep k).omega) ''
    {k | k ∈ (cb.oper (opArray.getD i 0)).actions.flatMap RegAction.depOut})
    (.image _ (List.finite_toSet _)) ?_
  rintro t ⟨hi, hj, action, haction, k, hk, -, -, rfl⟩
  refine ⟨k, List.mem_flatMap.2 ⟨action, ?_, hk⟩, rfl⟩
  rwa [List.getD_eq_getElem?_getD, List.getElem?_eq_getElem hi]

/-- Without a positive cycle in the table, all that it holds fits. -/
theorem held_fits (hfit : DistancesFit cb opArray ii) (h : TableAt cb opArray ii opArray.length md) {t : ℤ}
    (ht : Held cb opArray ii opArray.length i j t) : FitsInt t := by
  have hnone : ∀ k < opArray.length, ∀ i, ¬FindsCycle cb opArray ii k i := by
    intro k hk i hfinds
    obtain ⟨r, t, ht, hpos⟩ := hfinds.held hk
    have hr := (ht.total.range depEdge_range).1
    exact hpos.not_ge (((h.held r hr r hr).le_of_held ht).trans (h.diag r hr))
  cases ht with
  | edge hedge _ =>
    obtain ⟨hi, hj, action, haction, k, hk, hto, hignore, rfl⟩ := hedge
    exact (hfit.interval _ (List.getElem_mem hi) _ (List.getElem_mem hj) action haction k hk
      ⟨hto, by simp [hignore]⟩).2
  | @join _ k _ _ _ _ hk h₁ h₂ _ =>
    have hi := (h₁.total.range depEdge_range).1
    have hj := (h₂.total.range depEdge_range).2
    refine hfit.sum k hk i hi j hj (fun k' hk' i' _ _ ↦ hnone k' hk' i') _ ⟨_, _, ?_, h₂, rfl⟩
    split_ifs
    · exact h₁.mono (Nat.le_succ k)
    · exact h₁

end Search

end OpenImpact.Lmarkpipe
