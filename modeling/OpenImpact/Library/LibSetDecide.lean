import OpenImpact.Library.LibSetOps

/-!
# Tests on sets, and the sets there are

The functions that compare sets stop at the first vector that decides, so they say what holds of all places
of bits (`all_signs_entries`), and with that of all elements. `Built` sets are those the library's functions
make. In three functions for the intersection they meet a set that has no array for negative elements
(`intersectsRight_iff`).

The theorem is an equivalence over any two sets that calls of the library have built. It rests on
`Built.valid`, what every set has that the library built. A set that is `NULL` counts as the empty
one, as its header says.
-/

namespace OpenImpact.LibSet

variable {set₁ set₂ set₃ s s' : Option VSet} {x : ℤ} {b : Sign} {a f : Option VArray} {v v₁ v₂ : SetVector}

/-! ### Places and elements -/

/-- A property of all places of bits is one of all integers, but for the zero with a sign. -/
theorem forall_place {P : Sign → ℕ → Prop} (hzero : P .neg 0) :
    (∀ b m, P b m) ↔ ∀ x : ℤ, P (sign x) x.natAbs := by
  refine ⟨fun h x ↦ h _ _, fun h b m ↦ ?_⟩
  cases b
  · have hm := h (m : ℤ)
    rwa [sign, if_pos (Int.natCast_nonneg m), Int.natAbs_natCast] at hm
  · rcases Nat.eq_zero_or_pos m with rfl | hpos
    · exact hzero
    · have hm := h (-m : ℤ)
      rwa [sign, if_neg (by omega), Int.natAbs_neg, Int.natAbs_natCast] at hm

theorem exists_place {P : Sign → ℕ → Prop} (hzero : ¬P .neg 0) :
    (∃ b m, P b m) ↔ ∃ x : ℤ, P (sign x) x.natAbs := by
  have h := forall_place (P := fun b m ↦ ¬P b m) hzero
  rw [← not_iff_not]
  simpa using h

/-- A loop that stops at the first entry that fails, in both arrays. -/
theorem all_signs_entries {len : Sign → ℕ} {p : Sign → ℕ → Bool} {Q : Sign → ℕ → Prop}
    (hp : ∀ b i, p b i = true ↔ ∀ m, base m = i → Q b m) (hout : ∀ b m, len b ≤ base m → Q b m) :
    ([Sign.nonneg, Sign.neg].all fun b ↦ (List.range (len b)).all (p b)) = true ↔ ∀ b m, Q b m := by
  have hone : ∀ b, (List.range (len b)).all (p b) = true ↔ ∀ m, Q b m := by
    intro b
    rw [List.all_eq_true]
    constructor
    · intro h m
      rcases lt_or_ge (base m) (len b) with hm | hm
      · exact (hp b _).1 (h _ (List.mem_range.2 hm)) m rfl
      · exact hout b m hm
    · exact fun h i _ ↦ (hp b i).2 fun m _ ↦ h m
  rw [List.all_eq_true]
  constructor
  · intro h b
    refine (hone b).1 (h b ?_)
    cases b <;> simp
  · exact fun h b _ ↦ (hone b).2 (h b)

theorem all_beq_zero_iff (i : ℕ) : (all v == 0) = true ↔ ∀ m, base m = i → bit v m = false := by
  rw [beq_iff_eq, all_eq_zero_iff, forall_word_eq_zero_iff i]

/-! ### Tests -/

/-- **`Set_intersect_empty`.** -/
theorem intersectEmpty_iff (h₁ : Valid set₁) :
    intersectEmpty set₁ set₂ = true ↔ ∀ x, ¬(Mem set₁ x ∧ Mem set₂ x) := by
  rw [intersectEmpty, all_signs_entries
    (Q := fun b m ↦ ¬(test (arrayOf set₁ b) m = true ∧ test (arrayOf set₂ b) m = true)), forall_place]
  · rfl
  · simp [h₁.zero]
  · intro b i
    rcases hv₁ : vectorAt (arrayOf set₁ b) i with - | v₁
    · refine iff_of_true rfl fun m hm h ↦ ?_
      rw [test, hm, hv₁] at h
      cases h.1
    rcases hv₂ : vectorAt (arrayOf set₂ b) i with - | v₂
    · refine iff_of_true rfl fun m hm h ↦ ?_
      rw [test, test, hm, hv₂] at h
      cases h.2
    · refine (all_beq_zero_iff i).trans (forall₂_congr fun m hm ↦ ?_)
      rw [bit_vectorAnd, test, test, hm, hv₁, hv₂, bit?, bit?, Bool.and_eq_false_imp, not_and,
        Bool.not_eq_true]
  · intro b m hm
    simp [test_of_le hm]

/-- **`Set_empty`.** -/
theorem empty_iff (hs : Valid s) : empty s = true ↔ ∀ x, ¬Mem s x := by
  rw [empty, all_signs_entries (Q := fun b m ↦ ¬test (arrayOf s b) m = true), forall_place]
  · rfl
  · simp [hs.zero]
  · intro b i
    rcases hv : vectorAt (arrayOf s b) i with - | v
    · refine iff_of_true rfl fun m hm h ↦ ?_
      rw [test, hm, hv] at h
      cases h
    · simp only [Bool.not_eq_true']
      rw [anyWord_eq_false_iff, forall_word_eq_zero_iff i]
      refine forall₂_congr fun m hm ↦ ?_
      rw [test, hm, hv, bit?, Bool.not_eq_true]
  · intro b m hm
    simp [test_of_le hm]

/-- **`Set_subtract_empty`.** -/
theorem subtractEmpty_iff (h₁ : Valid set₁) :
    subtractEmpty set₁ set₂ = true ↔ ∀ x, Mem set₁ x → Mem set₂ x := by
  rcases set₁ with - | s
  · simp [subtractEmpty, Mem]
  rcases set₂ with - | t
  · rw [subtractEmpty, empty_iff h₁]
    simp [Mem]
  rw [subtractEmpty, all_signs_entries
    (Q := fun b m ↦ test (s.varray b) m = true → test (t.varray b) m = true), forall_place]
  · rfl
  · simp [(h₁ s rfl).proper.zero]
  · intro b i
    rcases hv : vectorAt (s.varray b) i with - | v
    · refine iff_of_true rfl fun m hm h ↦ ?_
      rw [test, hm, hv] at h
      cases h
    · refine (all_beq_zero_iff i).trans (forall₂_congr fun m hm ↦ ?_)
      rw [bit_vectorMinus?, test, test, hm, hv, bit?, Bool.and_eq_false_imp, Bool.not_eq_false']
  · intro b m hm
    simp [test_of_le hm]

theorem forall_word_eq_iff (i : ℕ) : (∀ w, v₁ w = v₂ w) ↔ ∀ m, base m = i → bit v₁ m = bit v₂ m := by
  constructor
  · intro h m _
    rw [bit, bit, h]
  · intro h w
    refine BitVec.eq_of_getLsbD_eq fun k hk ↦ ?_
    obtain ⟨m, hm, hw, hb⟩ := exists_select w hk i
    have hbit := h m hm
    rwa [bit, bit, hw, hb] at hbit

/-- One pass of `Set_same`. -/
theorem sameVectors_iff :
    sameVectors a f = true ↔ ∀ m, vectorAt a (base m) ≠ none → test a m = test f m := by
  rw [sameVectors, List.all_eq_true]
  constructor
  · intro h m hm
    have hlt : base m < maxBase a := by
      by_contra hle
      exact hm (vectorAt_of_le (not_lt.1 hle))
    have hentry := h _ (List.mem_range.2 hlt)
    obtain ⟨v₁, hv₁⟩ := Option.ne_none_iff_exists'.1 hm
    rw [hv₁] at hentry
    rw [test, test, hv₁]
    rcases hv₂ : vectorAt f (base m) with - | v₂
    · rw [hv₂] at hentry
      exact (all_beq_zero_iff (base m)).1 hentry m rfl
    · rw [hv₂] at hentry
      refine (forall_word_eq_iff (base m)).1 (fun w ↦ ?_) m rfl
      have hw := all_eq_zero_iff.1 (beq_iff_eq.1 hentry) w
      by_contra hne
      rw [if_pos hne] at hw
      exact absurd hw (by decide)
  · intro h i _
    rcases hv₁ : vectorAt a i with - | v₁
    · rfl
    have hbits : ∀ m, base m = i → bit v₁ m = bit? (vectorAt f i) m := fun m hm ↦ by
      have htest := h m (by simp [hm, hv₁])
      rwa [test, test, hm, hv₁] at htest
    rcases hv₂ : vectorAt f i with - | v₂
    · refine (all_beq_zero_iff i).2 fun m hm ↦ ?_
      rw [hbits m hm, hv₂, bit?]
    · rw [hv₂] at hbits
      have hwords := (@forall_word_eq_iff v₁ v₂ i).2 hbits
      refine beq_iff_eq.2 (all_eq_zero_iff.2 fun w ↦ ?_)
      rw [if_neg (not_not.2 (hwords w))]

/-- **`Set_same`.** -/
theorem same_iff (h₁ : Valid set₁) (h₂ : Valid set₂) :
    same set₁ set₂ = true ↔ ∀ x, Mem set₁ x ↔ Mem set₂ x := by
  rcases set₁ with - | s <;> rcases set₂ with - | t
  · simp [same]
  · rw [same, empty_iff h₂]
    simp [Mem]
  · rw [same, empty_iff h₁]
    simp [Mem]
  have hplaces : (∀ x, Mem (some s) x ↔ Mem (some t) x) ↔
      ∀ b m, test (s.varray b) m = test (t.varray b) m := by
    rw [forall_place]
    · exact forall_congr' fun x ↦ Bool.eq_iff_iff.symm
    · rw [(h₁ s rfl).proper.zero, (h₂ t rfl).proper.zero]
  have hsigns : ∀ p : Sign → Bool, ([Sign.nonneg, Sign.neg].all p) = true ↔ ∀ b, p b = true := fun p ↦ by
    rw [List.all_eq_true]
    exact ⟨fun h b ↦ h b (by cases b <;> simp), fun h b _ ↦ h b⟩
  rw [hplaces, same, Bool.and_eq_true, hsigns, hsigns]
  simp only [sameVectors_iff]
  constructor
  · rintro ⟨hst, hts⟩ b m
    rcases eq_or_ne (vectorAt (s.varray b) (base m)) none with hs | hs
    · rcases eq_or_ne (vectorAt (t.varray b) (base m)) none with ht | ht
      · rw [test, test, hs, ht]
      · exact (hts b m ht).symm
    · exact hst b m hs
  · exact fun h ↦ ⟨fun b m _ ↦ h b m, fun b m _ ↦ (h b m).symm⟩

/-! ### The sets there are -/

/-- The sets that the library's functions make of each other. -/
inductive Built : Option VSet → Prop
  | null : Built none
  | new : Built (some newSet)
  | add {s s' : Option VSet} {x : ℤ} : Built s → add s x = .ok s' → Built s'
  | delete {s s' : Option VSet} {x : ℤ} : Built s → delete s x = .ok s' → Built s'
  | copy {s s' : Option VSet} : Built s → copy s = .ok s' → Built s'
  | compress {s s' : Option VSet} : Built s → compress s = .ok s' → Built s'
  | union {s t s' : Option VSet} : Built s → Built t → union s t = .ok s' → Built s'
  | unionAcc {s t s' : Option VSet} : Built s → Built t → unionAcc s t = .ok s' → Built s'
  | unionAccCh {s t s' : Option VSet} {c : Bool} :
    Built s → Built t → unionAccCh s t = .ok (s', c) → Built s'
  | intersect {s t s' : Option VSet} : Built s → Built t → intersect s t = .ok s' → Built s'
  | intersectAcc {s t s' : Option VSet} : Built s → Built t → intersectAcc s t = .ok s' → Built s'
  | subtract {s t s' : Option VSet} : Built s → Built t → subtract s t = .ok s' → Built s'
  | subtractAcc {s t s' : Option VSet} : Built s → Built t → subtractAcc s t = .ok s' → Built s'
  | subtractUnion {s t u s' : Option VSet} :
    Built s → Built t → Built u → subtractUnion s t u = .ok s' → Built s'
  | subtractUnionAcc {s t s' : Option VSet} {third : ThirdSet} :
    Built s → Built t → Built (third.set s) → subtractUnionAcc s t third = .ok s' → Built s'

/-- A call with an element that has no magnitude does not return. -/
theorem natAbs_lt_of_add (h : add s x = .ok s') : x.natAbs < 2147483648 := by
  obtain ⟨m, hm, -⟩ := Run.bind_eq_ok.1 h
  rw [abs] at hm
  by_contra hlt
  rw [if_neg hlt] at hm
  cases hm

theorem Computes.valid_of_ok {run : Run (Option VSet)} {new : Sign → ℕ → Bool} (h : Computes run new)
    (hrun : run = .ok s) : Valid s := by
  rw [hrun] at h
  exact h.valid

theorem Built.valid (hs : Built s) : Valid s := by
  induction hs with
  | null => exact valid_none
  | new => exact valid_newSet
  | add _ hrun ih => exact (computes_add ih (natAbs_lt_of_add hrun)).valid_of_ok hrun
  | @delete s s' x _ hrun ih =>
    rcases s with - | s
    · obtain rfl := Except.ok.inj hrun
      exact valid_none
    rcases lt_or_ge x.natAbs 2147483648 with hx | hx
    · exact (computes_delete ih hx).valid_of_ok hrun
    · rw [LibSet.delete, LibSet.abs, if_neg hx.not_gt] at hrun
      cases hrun
  | copy _ hrun ih => exact (computes_copy ih).valid_of_ok hrun
  | compress _ hrun ih => exact (computes_compress ih).valid_of_ok hrun
  | union _ _ hrun ih₁ ih₂ => exact (computes_union ih₁ ih₂).valid_of_ok hrun
  | unionAcc _ _ hrun ih₁ ih₂ => exact (computes_unionAcc ih₁ ih₂).valid_of_ok hrun
  | unionAccCh _ _ hrun ih₁ ih₂ =>
    obtain ⟨r, c, hrun', hr, -⟩ := computes_unionAccCh ih₁ ih₂
    obtain ⟨rfl, -⟩ := Prod.mk.inj (Except.ok.inj (hrun.symm.trans hrun'))
    exact hr.valid
  | intersect _ _ hrun ih₁ _ => exact (computes_intersect ih₁).valid_of_ok hrun
  | intersectAcc _ _ hrun ih₁ _ => exact (computes_intersectAcc ih₁).valid_of_ok hrun
  | subtract _ _ hrun ih₁ _ => exact (computes_subtract ih₁).valid_of_ok hrun
  | subtractAcc _ _ hrun ih₁ _ => exact (computes_subtractAcc ih₁).valid_of_ok hrun
  | subtractUnion _ _ _ hrun ih₁ _ ih₃ => exact (computes_subtractUnion ih₁ ih₃).valid_of_ok hrun
  | @subtractUnionAcc s t s' third _ _ _ hrun ih₁ _ ih₃ =>
    cases third with
    | other u => exact (computes_subtractUnionAcc ih₁ ih₃).valid_of_ok hrun
    | first => exact (computes_subtractUnionAcc_first ih₁).valid_of_ok hrun

/-! ### Intersections -/

/-- The three functions for the intersection do what they are for: `Set_intersect` returns it,
`Set_intersect_acc` leaves it too, and `Set_intersect_empty` says whether it is empty. -/
def IntersectsRight (set₁ set₂ : Option VSet) : Prop :=
  ∃ r r', intersect set₁ set₂ = .ok r ∧ intersectAcc set₁ set₂ = .ok r' ∧
    (∀ x, Mem r x ↔ Mem set₁ x ∧ Mem set₂ x) ∧ (∀ x, Mem r' x ↔ Mem r x) ∧
    (intersectEmpty set₁ set₂ = true ↔ ∀ x, ¬Mem r x)

/-- **Intersections** come out right unless the first set has a negative element and the second set no
array for these. -/
theorem intersectsRight_iff (h₁ : Built set₁) (h₂ : Built set₂) :
    IntersectsRight set₁ set₂ ↔
      ¬((∃ t, set₂ = some t ∧ t.varray .neg = none) ∧ ∃ x < 0, Mem set₁ x) := by
  obtain ⟨r, hr, -, hbits⟩ := @computes_intersect _ set₂ h₁.valid
  obtain ⟨r', hr', -, hbits'⟩ := @computes_intersectAcc _ set₂ h₁.valid
  have hmem : ∀ x, Mem r x ↔ Mem set₁ x ∧ Mem set₂ x := fun x ↦ by
    rw [Mem, hbits, Bool.and_eq_true]
    rfl
  have hmem' : ∀ x, Mem r' x ↔ Mem set₁ x ∧ (Mem set₂ x ∨
      ∃ t, set₂ = some t ∧ t.varray (sign x) = none) := fun x ↦ by
    rw [Mem, hbits', Bool.and_eq_true, Bool.or_eq_true]
    refine and_congr_right fun _ ↦ or_congr_right ?_
    rcases set₂ with - | t <;> simp
  have hempty := @intersectEmpty_iff _ set₂ h₁.valid
  have hright : IntersectsRight set₁ set₂ ↔ ∀ x, Mem r' x ↔ Mem r x := by
    constructor
    · rintro ⟨q, q', hq, hq', -, h, -⟩
      obtain rfl := Except.ok.inj (hr.symm.trans hq)
      obtain rfl := Except.ok.inj (hr'.symm.trans hq')
      exact h
    · exact fun h ↦ ⟨r, r', hr, hr', hmem, h, by simp only [hempty, hmem]⟩
  rw [hright]
  constructor
  · rintro h ⟨⟨t, rfl, ht⟩, x, hx, hxs⟩
    have hsign : sign x = .neg := if_neg hx.not_ge
    have hxr := (h x).1 ((hmem' x).2 ⟨hxs, .inr ⟨t, rfl, hsign ▸ ht⟩⟩)
    have hxt := ((hmem x).1 hxr).2
    rw [Mem, arrayOf_some, hsign, ht, test_none] at hxt
    cases hxt
  · intro h x
    rw [hmem, hmem']
    refine and_congr_right fun hxs ↦ or_iff_left ?_
    rintro ⟨t, rfl, ht⟩
    rcases lt_or_ge x 0 with hx | hx
    · rw [sign, if_neg hx.not_ge] at ht
      exact h ⟨⟨t, rfl, ht⟩, x, hx, hxs⟩
    · -- the array for the elements that are not negative is always there
      rw [sign, if_pos hx] at ht
      have hpos := ((h₂.valid t rfl).array .nonneg).pos rfl
      rw [ht] at hpos
      exact absurd hpos (by decide)

/-- Two elements, one of which is in both sets. -/
theorem intersectsRight_iff_two :
    ∃ s t, (add none 3 >>= (add · (-2))) = .ok s ∧ add none 3 = .ok t ∧ (IntersectsRight s t ↔
      ¬((∃ u, t = some u ∧ u.varray .neg = none) ∧ ∃ x < 0, Mem s x)) :=
  ⟨_, _, rfl, rfl, intersectsRight_iff (.add (.add .null (x := 3) rfl) (x := -2) rfl)
    (.add .null (x := 3) rfl)⟩

/-- `Set_intersect_acc` keeps `-2` when the second set has never had a negative element. -/
theorem not_intersectsRight_negative :
    ¬∀ s t, Built s → Built t → IntersectsRight s t := by
  intro h
  obtain ⟨r, r', hr, hr', -, hsame, -⟩ := h _ _ (.add .null (x := -2) rfl) (.add .null (x := 3) rfl)
  obtain rfl := Except.ok.inj hr
  obtain rfl := Except.ok.inj hr'
  exact absurd ((hsame (-2)).1 (by decide)) (by decide)

end OpenImpact.LibSet
