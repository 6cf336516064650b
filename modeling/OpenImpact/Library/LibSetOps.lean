import OpenImpact.Library.LibSetLaws
import Mathlib.Data.Int.Order.Basic

/-!
# The operations on sets

For sets that the library's functions have built, each function returns without an access outside an
array, and what it returns denotes the operation on sets of integers it is named for. The exception is
`Set_intersect_acc`, which skips an array that the second set does not have.
-/

namespace OpenImpact.LibSet

variable {set₁ set₂ set₃ s : Option VSet} {x y : ℤ} {new : Sign → ℕ → Bool} {b : Sign} {i j n : ℕ}
  {a f t : Option VArray}

/-! ### What a set denotes -/

/-- `x` is an element. -/
def Mem (s : Option VSet) (x : ℤ) : Prop := test (arrayOf s (sign x)) x.natAbs = true

instance decidableMem (s : Option VSet) (x : ℤ) : Decidable (Mem s x) := inferInstanceAs (Decidable (_ = true))

/-- There is no zero with a sign, and each magnitude is that of an `int`. -/
structure Proper (new : Sign → ℕ → Bool) : Prop where
  zero : new .neg 0 = false
  lt : ∀ b m, new b m = true → m < 2147483648

/-- Fewer elements are still within the range. -/
theorem Proper.mono {new' : Sign → ℕ → Bool} (h : Proper new) (hle : ∀ b m, new' b m = true → new b m = true) :
    Proper new' :=
  ⟨Bool.eq_false_iff.2 fun h0 ↦ Bool.false_ne_true (h.zero.symm.trans (hle _ _ h0)),
    fun b m hm ↦ h.lt b m (hle b m hm)⟩

/-- So are those of two sets together. -/
theorem Proper.or {new' : Sign → ℕ → Bool} (h : Proper new) (h' : Proper new') :
    Proper fun b m ↦ new b m || new' b m :=
  ⟨by rw [h.zero, h'.zero]; rfl, fun b m hm ↦ (Bool.or_eq_true_iff.1 hm).elim (h.lt b m) (h'.lt b m)⟩

/-- The arrays have the lengths that `EnlargeVArray` gives them, and bits for `int`s only. -/
structure VSet.WF (s : VSet) : Prop where
  array : ∀ b, IsArray b (s.varray b)
  proper : Proper fun b m ↦ test (s.varray b) m

/-- A set that may be `NULL`. -/
def Valid (s : Option VSet) : Prop := ∀ v, s = some v → v.WF

@[simp] theorem arrayOf_some (s : VSet) (b : Sign) : arrayOf (some s) b = s.varray b := rfl

@[simp] theorem arrayOf_none (b : Sign) : arrayOf none b = none := rfl

@[simp] theorem test_none (m : ℕ) : test none m = false := by
  rw [test, vectorAt_of_le (Nat.zero_le _), bit?]

theorem valid_none : Valid none := fun _ h ↦ nomatch h

/-- The elements of a set are within the range. -/
theorem Valid.proper (hs : Valid s) : Proper fun b m ↦ test (arrayOf s b) m := by
  rcases s with - | s
  · exact ⟨test_none 0, fun b m hm ↦ absurd hm (by simp)⟩
  · exact (hs s rfl).proper

/-- Zero is not kept as a negative number. -/
theorem Valid.zero (hs : Valid s) : test (arrayOf s .neg) 0 = false := hs.proper.zero

/-- The run returns a set whose bits are `new`. -/
def Computes (run : Run (Option VSet)) (new : Sign → ℕ → Bool) : Prop :=
  ∃ r, run = .ok r ∧ Valid r ∧ ∀ b m, test (arrayOf r b) m = new b m

/-- The elements of the result of an operation. -/
theorem Computes.mem (h : Computes (.ok s) new) (x : ℤ) : Mem s x ↔ new (sign x) x.natAbs = true := by
  obtain ⟨r, hr, -, hnew⟩ := h
  obtain rfl := Except.ok.inj hr
  rw [Mem, hnew]

/-- The result is a set again. -/
theorem Computes.valid (h : Computes (.ok s) new) : Valid s := by
  obtain ⟨r, hr, hv, -⟩ := h
  exact Except.ok.inj hr ▸ hv

/-- A set without an operation. -/
theorem computes_ok (hs : Valid s) : Computes (.ok s) fun b m ↦ test (arrayOf s b) m :=
  ⟨s, rfl, hs, fun _ _ ↦ rfl⟩

/-- The elements may be described in another way. -/
theorem Computes.congr {run : Run (Option VSet)} {new' : Sign → ℕ → Bool} (h : Computes run new)
    (heq : ∀ b m, new b m = new' b m) : Computes run new' := by
  obtain ⟨r, hr, hv, hnew⟩ := h
  exact ⟨r, hr, hv, fun b m ↦ (hnew b m).trans (heq b m)⟩

/-- **A set made array by array.** -/
theorem computes_forSigns {f : Sign → Run (Option VArray)}
    (hf : ∀ b, ∃ n a, f b = .ok a ∧ Sized b n a ∧ ∀ m, test a m = new b m) (hnew : Proper new) :
    Computes (forSigns f) new := by
  obtain ⟨_, a, hrun, ha, hbits⟩ := hf .nonneg
  obtain ⟨_, a', hrun', ha', hbits'⟩ := hf .neg
  refine ⟨some ⟨fun b ↦ b.casesOn a a'⟩, ?_, fun v hv ↦ ?_, fun b m ↦ ?_⟩
  · rw [forSigns, hrun, Run.ok_bind, hrun', Run.ok_bind]
    refine congrArg (fun varray ↦ (.ok (some ⟨varray⟩) : Run (Option VSet))) (funext fun b ↦ ?_)
    cases b <;> rfl
  · obtain rfl := Option.some.inj hv
    refine ⟨fun b ↦ ?_, hnew.mono fun b m hm ↦ ?_⟩ <;> cases b
    · exact ha.toIsArray
    · exact ha'.toIsArray
    · exact (hbits m).symm.trans hm
    · exact (hbits' m).symm.trans hm
  · cases b
    · exact hbits m
    · exact hbits' m

theorem sized_newSet (b : Sign) : Sized b 0 (newSet.varray b) := ⟨isArray_newSet b, Nat.zero_le _⟩

/-! ### Intersections -/

/-- **`Set_intersect`.** -/
theorem computes_intersect (h₁ : Valid set₁) :
    Computes (intersect set₁ set₂) fun b m ↦ test (arrayOf set₁ b) m && test (arrayOf set₂ b) m := by
  rcases set₁ with - | s
  · exact ⟨none, rfl, valid_none, by simp⟩
  rcases set₂ with - | t
  · exact ⟨none, rfl, valid_none, by simp⟩
  rw [intersect]
  refine computes_forSigns (fun b ↦ ⟨0, ?_⟩) (h₁.proper.mono fun b m h ↦ (Bool.and_eq_true_iff.1 h).1)
  simp only [arrayOf_some]
  rcases s.varray b with - | varray₁
  · exact ⟨_, rfl, sized_newSet b, by simp⟩
  rcases t.varray b with - | varray₂
  · exact ⟨_, rfl, sized_newSet b, by simp⟩
  refine foldlM_range _ (sized_newSet b) (fun i _ a ha hat ↦ ?_) fun m hm ↦ by simp [test_of_le hm]
  rw [vectorAt_newSet] at hat
  simp only [test]
  rcases hv₁ : vectorAt (some varray₁) i with - | v₁
  · exact writes_ok ha fun m hm ↦ by simp [hat, hm, hv₁, bit?]
  rcases hv₂ : vectorAt (some varray₂) i with - | v₂
  · exact writes_ok ha fun m hm ↦ by simp [hat, hm, hv₂, bit?]
  exact writes_keep ha hat fun m hm ↦ by simp [hm, hv₁, hv₂, bit?]

/-- **`Set_intersect_acc`** leaves an array as it is when the second set has none for that sign. -/
theorem computes_intersectAcc (h₁ : Valid set₁) :
    Computes (intersectAcc set₁ set₂) fun b m ↦ test (arrayOf set₁ b) m &&
      (test (arrayOf set₂ b) m || (set₂.any fun t ↦ (t.varray b).isNone)) := by
  rcases set₁ with - | s
  · exact ⟨none, rfl, valid_none, by simp⟩
  rcases set₂ with - | t
  · exact ⟨none, rfl, valid_none, by simp⟩
  rw [intersectAcc]
  refine computes_forSigns (fun b ↦ ⟨maxBase (s.varray b), ?_⟩)
    (h₁.proper.mono fun b m h ↦ (Bool.and_eq_true_iff.1 h).1)
  have hs := ((h₁ s rfl).array b).sized
  simp only [arrayOf_some, Option.any_some]
  rcases hv : s.varray b with - | varray₁
  · exact ⟨_, rfl, hv ▸ hs, by simp⟩
  rw [hv] at hs
  rcases t.varray b with - | varray₂
  · exact ⟨_, rfl, hs, by simp⟩
  refine foldlM_range (some varray₁) hs (fun i hi a ha hat ↦ ?_) fun m hm ↦ by simp [test_of_le hm]
  have hmax : i < maxBase a := hi.trans_le ha.le
  simp only [test, Option.isNone_some, Bool.or_false]
  rcases hv₁ : vectorAt a i with - | v₁
  · exact writes_ok ha fun m hm ↦ by simp [hv₁, hm, ← hat, bit?]
  rw [hv₁] at hat
  rcases hv₂ : vectorAt (some varray₂) i with - | v₂
  · exact writes_store ha hmax fun m hm ↦ by simp [hm, hv₂, bit?]
  simp only
  split_ifs with hall
  · exact writes_store ha hmax fun m hm ↦ by simp [hm, hv₂, ← hat, bit?]
  · refine writes_store ha hmax fun m hm ↦ ?_
    have hzero := bit?_none_eq (all_eq_zero_iff.1 (not_not.1 hall)) m
    rw [bit_vectorAnd] at hzero
    rw [hm, hv₂, ← hat]
    exact hzero.symm

/-! ### Elements -/

/-- A new set is a set. -/
theorem valid_newSet : Valid (some newSet) := fun v hv ↦ by
  obtain rfl := Option.some.inj hv
  exact ⟨isArray_newSet, ⟨test_newSet _ _, fun b m hm ↦ absurd hm (by simp)⟩⟩

/-- So is a set that is made if there is none. -/
theorem valid_getD (hs : Valid s) : (s.getD newSet).WF := by
  rcases s with - | s
  · exact valid_newSet _ rfl
  · exact hs s rfl

/-- It has the same elements. -/
theorem test_getD (s : Option VSet) (b : Sign) (m : ℕ) :
    test ((s.getD newSet).varray b) m = test (arrayOf s b) m := by
  rcases s with - | s
  · simp
  · rfl

/-- The place of an element in the arrays is that of no other one. -/
theorem place_inj (hsign : sign x = sign y) (habs : x.natAbs = y.natAbs) : x = y := by
  simp only [sign] at hsign
  split_ifs at hsign <;> omega

/-- Sign and magnitude determine the element. -/
theorem place_eq_iff : sign x = sign y ∧ x.natAbs = y.natAbs ↔ x = y :=
  ⟨fun h ↦ place_inj h.1 h.2, fun h ↦ h ▸ ⟨rfl, rfl⟩⟩

/-- Replacing one array of a set. -/
theorem computes_update {s : VSet} (hs : s.WF) {b : Sign} {a : Option VArray} (ha : IsArray b a)
    (hnew : ∀ m, test a m = new b m) (hrest : ∀ b', b' ≠ b → ∀ m, test (s.varray b') m = new b' m)
    (hproper : Proper new) : Computes (.ok (some ⟨Function.update s.varray b a⟩)) new := by
  have htest : ∀ b' m, test (Function.update s.varray b a b') m = new b' m := by
    intro b' m
    rcases eq_or_ne b' b with rfl | hb
    · rw [Function.update_self, hnew]
    · rw [Function.update_of_ne hb, hrest b' hb]
  refine ⟨_, rfl, fun v hv ↦ ?_, htest⟩
  obtain rfl := Option.some.inj hv
  refine ⟨fun b' ↦ ?_, hproper.mono fun b' m hm ↦ (htest b' m).symm.trans hm⟩
  rcases eq_or_ne b' b with rfl | hb
  · simpa using ha
  · simpa [Function.update_of_ne hb] using hs.array b'

/-- The vector and the place in it determine the bit. -/
theorem base_mod_eq (h : base i = base j) (hmod : i % 256 = j % 256) : i = j := by
  simp only [base] at h
  omega

/-- **`Set_add`.** -/
theorem computes_add (hs : Valid s) (hx : x.natAbs < 2147483648) :
    Computes (add s x) fun b m ↦ decide (b = sign x ∧ m = x.natAbs) || test (arrayOf s b) m := by
  have hset := valid_getD hs
  obtain ⟨a₁, hgrow, ha₁, hi, hat₁⟩ := grow_eq (hset.array (sign x)).sized (base x.natAbs)
  obtain ⟨a₂, hstore, hmax, hat₂⟩ := store_eq hi
    (some (setBit ((vectorAt a₁ (base x.natAbs)).getD newVector) x.natAbs))
  rw [add, abs, if_pos hx]
  simp only [Run.pure_eq_ok, Run.ok_bind, hgrow, load_eq hi, hstore]
  refine computes_update hset (ha₁.of_maxBase hmax).toIsArray (fun m ↦ ?_) (fun b hb m ↦ ?_) ?_
  · have hold : test (arrayOf s (sign x)) m = test a₁ m := by
      rw [← test_getD, test, test, hat₁]
    rw [hold, test, hat₂, test]
    split_ifs with hm
    · rw [bit?, bit_setBit, ← hm]
      have heq : m % 256 = x.natAbs % 256 ↔ m = x.natAbs := ⟨base_mod_eq hm, fun h ↦ h ▸ rfl⟩
      rcases vectorAt a₁ (base m) with - | v <;> simp [heq, bit?]
    · have hne : m ≠ x.natAbs := fun h ↦ hm (h ▸ rfl)
      simp [hne]
  · simp [hb, test_getD]
  · refine Proper.or ⟨decide_eq_false ?_, fun b m hm ↦ ?_⟩ hs.proper
    · rintro ⟨h, h0⟩
      rw [Int.natAbs_eq_zero.1 h0.symm] at h
      exact absurd h (by decide)
    · exact (of_decide_eq_true hm).2 ▸ hx

/-- **`Set_delete`.** -/
theorem computes_delete (hs : Valid s) (hx : x.natAbs < 2147483648) :
    Computes (delete s x) fun b m ↦ decide ¬(b = sign x ∧ m = x.natAbs) && test (arrayOf s b) m := by
  rcases s with - | s
  · exact ⟨none, rfl, valid_none, by simp⟩
  have hset := hs s rfl
  rw [delete, abs, if_pos hx]
  simp only [Run.pure_eq_ok, Run.ok_bind, arrayOf_some]
  rcases hv : vectorAt (s.varray (sign x)) (base x.natAbs) with - | v
  · refine (computes_ok hs).congr fun b m ↦ ?_
    rcases Classical.em (b = sign x ∧ m = x.natAbs) with ⟨rfl, rfl⟩ | hne
    · simp [test, hv, bit?]
    · simp [hne]
  have hi : base x.natAbs < maxBase (s.varray (sign x)) := by
    by_contra hlt
    rw [vectorAt_of_le (not_lt.1 hlt)] at hv
    cases hv
  obtain ⟨a, hstore, hmax, hat⟩ := store_eq hi (some (clearBit v x.natAbs))
  simp only [hstore, Run.ok_bind]
  refine computes_update hset (((hset.array _).sized).of_maxBase hmax).toIsArray (fun m ↦ ?_)
    (fun b hb m ↦ by simp [hb]) (hset.proper.mono fun b m h ↦ (Bool.and_eq_true_iff.1 h).2)
  rw [test, hat, test]
  split_ifs with hm
  · have heq : m % 256 = x.natAbs % 256 ↔ m = x.natAbs := ⟨base_mod_eq hm, fun h ↦ h ▸ rfl⟩
    rw [bit?, bit_clearBit, hm, hv]
    simp [heq, bit?]
  · have hne : m ≠ x.natAbs := fun h ↦ hm (h ▸ rfl)
    simp [hne]

/-- **`Set_in`.** -/
theorem setIn_eq (hx : x.natAbs < 2147483648) : ∃ r, setIn s x = .ok r ∧ (r = true ↔ Mem s x) := by
  rcases s with - | s
  · exact ⟨false, rfl, by simp [Mem]⟩
  rw [setIn, abs, if_pos hx, Mem, test]
  simp only [Run.pure_eq_ok, Run.ok_bind, arrayOf_some]
  rcases vectorAt (s.varray (sign x)) (base x.natAbs) with - | v
  · exact ⟨false, rfl, by simp [bit?]⟩
  · exact ⟨_, rfl, by rw [readBit_eq, bit?]⟩

/-! ### Unions -/

/-- Copying the vectors of an array. -/
theorem copyVectors_eq (ht : Sized b n t) (hle : maxBase f ≤ n) (hnone : ∀ j, vectorAt t j = none) :
    ∃ r, copyVectors f t = .ok r ∧ Sized b n r ∧ ∀ m, test r m = test f m := by
  refine foldlM_range f ht (fun i hi a ha hat ↦ ?_) fun m hm ↦ ?_
  · rw [hnone] at hat
    rcases hv : vectorAt f i with - | v
    · exact writes_ok ha fun m hm ↦ by rw [hat, test, hm, hv]
    · exact writes_store ha ((hi.trans_le hle).trans_le ha.le) fun m hm ↦ by rw [test, hm, hv]
  · rw [test_of_le hm, test, hnone, bit?]

/-- Adding the vectors of another array. -/
theorem orVectors_eq (ht : Sized b n t) (hle : maxBase f ≤ n) :
    ∃ r, orVectors f t = .ok r ∧ Sized b n r ∧ ∀ m, test r m = (test t m || test f m) := by
  refine foldlM_range f ht (fun i hi a ha hat ↦ ?_) fun m hm ↦ by simp [test_of_le hm]
  have hmax : i < maxBase a := (hi.trans_le hle).trans_le ha.le
  simp only [test]
  rcases hv : vectorAt f i with - | v
  · exact writes_ok ha fun m hm ↦ by simp [hat, hm, hv, bit?]
  · simp only [load_eq hmax, Run.ok_bind, hat]
    refine writes_store ha hmax fun m hm ↦ ?_
    rw [hm, hv]
    rcases vectorAt t i with - | w <;> simp [bit?]

/-- **`Set_union`.** -/
theorem computes_union (h₁ : Valid set₁) (h₂ : Valid set₂) :
    Computes (union set₁ set₂) fun b m ↦ test (arrayOf set₁ b) m || test (arrayOf set₂ b) m := by
  refine computes_forSigns (fun b ↦ ?_) (h₁.proper.or h₂.proper)
  obtain ⟨t, hreserve, ht, hnone⟩ := reserve_eq b (max (maxBase (arrayOf set₁ b)) (maxBase (arrayOf set₂ b)))
  obtain ⟨t₁, hcopy, ht₁, hbits₁⟩ := copyVectors_eq ht (le_max_left _ _) hnone
  obtain ⟨t₂, hor, ht₂, hbits₂⟩ := orVectors_eq ht₁ (le_max_right (maxBase (arrayOf set₁ b)) _)
  exact ⟨_, t₂, by rw [hreserve, Run.ok_bind, hcopy, Run.ok_bind, hor], ht₂,
    fun m ↦ by rw [hbits₂, hbits₁]⟩

/-- One vector of `Set_union_acc`. -/
theorem writes_unionAcc (set₂ : Option VSet) {i : ℕ} {a : Option VArray} (ha : Sized b 0 a)
    (hat : vectorAt a i = vectorAt ((set₁.getD newSet).varray b) i) :
    Writes b 0 a i (fun m ↦ test (arrayOf set₁ b) m || test (arrayOf set₂ b) m)
      (match vectorAt (arrayOf set₂ b) i with
        | none => return a
        | some fv =>
          if anyWord fv then do
            let t ← grow a i
            match ← load t i with
            | none => store t i (some fv)
            | some tv => store t i (some (vectorOr tv fv))
          else return a) := by
  have hold : ∀ m, base m = i → bit? (vectorAt a i) m = test (arrayOf set₁ b) m := fun m hm ↦ by
    rw [hat, ← test_getD, test, hm]
  rcases hv : vectorAt (arrayOf set₂ b) i with - | fv
  · refine writes_ok ha fun m hm ↦ ?_
    have hnone : test (arrayOf set₂ b) m = false := by rw [test, hm, hv, bit?]
    rw [hold m hm, hnone, Bool.or_false]
  have hnew : ∀ m, base m = i → test (arrayOf set₂ b) m = bit fv m := fun m hm ↦ by
    rw [test, hm, hv, bit?]
  simp only
  split_ifs with hany
  · refine writes_grow ha fun a' ha' hi hat' ↦ ?_
    rw [load_eq hi, Run.ok_bind, hat']
    rcases hw : vectorAt a i with - | tv
    · exact writes_store ha' hi fun m hm ↦ by rw [← hold m hm, hnew m hm, hw]; simp [bit?]
    · exact writes_store ha' hi fun m hm ↦ by rw [← hold m hm, hnew m hm, hw]; simp [bit?]
  · refine writes_ok ha fun m hm ↦ ?_
    have hzero := bit?_none_eq (anyWord_eq_false_iff.1 (Bool.eq_false_iff.2 hany)) m
    rw [hold m hm, hnew m hm, hzero, Bool.or_false]

/-- **`Set_union_acc`.** -/
theorem computes_unionAcc (h₁ : Valid set₁) (h₂ : Valid set₂) :
    Computes (unionAcc set₁ set₂) fun b m ↦ test (arrayOf set₁ b) m || test (arrayOf set₂ b) m := by
  refine computes_forSigns (fun b ↦ ⟨0, ?_⟩) (h₁.proper.or h₂.proper)
  have hinit : Sized b 0 ((set₁.getD newSet).varray b) := ⟨(valid_getD h₁).array b, Nat.zero_le _⟩
  obtain ⟨r, hrun, hr, hbits⟩ := foldlM_vectors
    (List.nodup_reverse.2 (List.nodup_range (n := maxBase (arrayOf set₂ b)))) hinit
    fun i _ a ha hat ↦ writes_unionAcc set₂ ha hat
  refine ⟨r, hrun, hr, fun m ↦ ?_⟩
  rw [hbits m, test_getD]
  split_ifs with hm
  · rfl
  · rw [List.mem_reverse, List.mem_range, not_lt] at hm
    rw [test_of_le hm, Bool.or_false]

/-- **One entry of `Set_union_acc_ch`.** -/
theorem unionAccChEntry_eq {st : Option VArray × Bool} (ha : Sized b n st.1) (i : ℕ) :
    ∃ st', unionAccChEntry f st i = .ok st' ∧ Sized b n st'.1 ∧
      (∀ j, j ≠ i → vectorAt st'.1 j = vectorAt st.1 j) ∧
      (∀ m, base m = i → test st'.1 m = (test st.1 m || test f m)) ∧
      (st'.2 = true ↔ st.2 = true ∨ ∃ m, base m = i ∧ test f m = true ∧ test st.1 m = false) := by
  have hold : ∀ m, base m = i → test st.1 m = bit? (vectorAt st.1 i) m := fun m hm ↦ by rw [test, hm]
  have hf : ∀ m, base m = i → test f m = bit? (vectorAt f i) m := fun m hm ↦ by rw [test, hm]
  have hsame : (∀ m, base m = i → test f m = false) → unionAccChEntry f st i = .ok st →
      ∃ st', unionAccChEntry f st i = .ok st' ∧ Sized b n st'.1 ∧
      (∀ j, j ≠ i → vectorAt st'.1 j = vectorAt st.1 j) ∧
      (∀ m, base m = i → test st'.1 m = (test st.1 m || test f m)) ∧
      (st'.2 = true ↔ st.2 = true ∨ ∃ m, base m = i ∧ test f m = true ∧ test st.1 m = false) := by
    refine fun hzero hrun ↦ ⟨st, hrun, ha, fun _ _ ↦ rfl, fun m hm ↦ by simp [hzero m hm], .inl, ?_⟩
    rintro (h | ⟨m, hm, h, -⟩)
    · exact h
    · rw [hzero m hm] at h
      cases h
  rcases hv : vectorAt f i with - | fv
  · exact hsame (fun m hm ↦ by rw [hf m hm, hv, bit?]) (by rw [unionAccChEntry, hv, Run.pure_eq_ok])
  have hbit : ∀ m, base m = i → test f m = bit fv m := fun m hm ↦ by rw [hf m hm, hv, bit?]
  rcases eq_or_ne (all fv) 0 with hall | hall
  · refine hsame (fun m hm ↦ ?_) (by simp only [unionAccChEntry, hv, ne_eq, hall, not_true, if_false, Run.pure_eq_ok])
    rw [hbit m hm, bit?_none_eq (all_eq_zero_iff.1 hall)]
  obtain ⟨t, hgrow, ht, hi, hat⟩ := grow_eq ha i
  rw [unionAccChEntry, hv]
  simp only [hall, ne_eq, not_false_eq_true, if_true, hgrow, Run.ok_bind, load_eq hi, hat]
  rcases htv : vectorAt st.1 i with - | tv
  · obtain ⟨t', hstore, ht', hframe, hnew⟩ := @writes_store _ (some fv) _ _ _ (bit fv) ht hi
      fun m _ ↦ rfl
    refine ⟨(t', true), by rw [hstore]; rfl, ht', fun j hj ↦ (hframe j hj).trans (hat j), fun m hm ↦ ?_,
      fun _ ↦ .inr ?_, fun _ ↦ rfl⟩
    · rw [hnew m hm, hold m hm, hbit m hm, htv, bit?, Bool.false_or]
    · have hany : anyWord fv = true := by
        rw [← Bool.not_eq_false, anyWord_eq_false_iff, ← all_eq_zero_iff]
        exact hall
      obtain ⟨m, hm, h⟩ := (anyWord_iff i).1 hany
      exact ⟨m, hm, (hbit m hm).trans h, by rw [hold m hm, htv, bit?]⟩
  · obtain ⟨t', hstore, ht', hframe, hnew⟩ := @writes_store _ (some (vectorOr tv fv)) _ _ _
      (fun m ↦ bit tv m || bit fv m) ht hi fun m _ ↦ bit_vectorOr ..
    refine ⟨(t', if st.2 = false then gains tv fv else st.2), by simp only [hstore, Run.ok_bind]; rfl, ht',
      fun j hj ↦ (hframe j hj).trans (hat j), fun m hm ↦ ?_, ?_⟩
    · rw [hnew m hm, hold m hm, hbit m hm, htv, bit?]
    · have hgains : gains tv fv = true ↔ ∃ m, base m = i ∧ test f m = true ∧ test st.1 m = false := by
        rw [gains_iff i]
        refine exists_congr fun m ↦ and_congr_right fun hm ↦ ?_
        rw [hbit m hm, hold m hm, htv, bit?]
      rw [← hgains]
      rcases st.2 <;> simp

/-- **The loop of `Set_union_acc_ch`** for one sign. -/
theorem unionAccChVectors_eq (ha : Sized b n a) (change : Bool) :
    ∃ r c, unionAccChVectors f (a, change) = .ok (r, c) ∧ Sized b n r ∧
      (∀ m, test r m = (test a m || test f m)) ∧
      (c = true ↔ change = true ∨ ∃ m, test f m = true ∧ test a m = false) := by
  have hstep : ∀ done i rest, List.range (maxBase f) = done ++ i :: rest → ∀ {st : Option VArray × Bool},
      (Sized b n st.1 ∧ (∀ j, j ∉ done → vectorAt st.1 j = vectorAt a j) ∧
        (∀ m, base m ∈ done → test st.1 m = (test a m || test f m)) ∧
        (st.2 = true ↔ change = true ∨ ∃ m, base m ∈ done ∧ test f m = true ∧ test a m = false)) →
      ∃ st', unionAccChEntry f st i = .ok st' ∧
        Sized b n st'.1 ∧ (∀ j, j ∉ done ++ [i] → vectorAt st'.1 j = vectorAt a j) ∧
        (∀ m, base m ∈ done ++ [i] → test st'.1 m = (test a m || test f m)) ∧
        (st'.2 = true ↔ change = true ∨ ∃ m, base m ∈ done ++ [i] ∧ test f m = true ∧ test a m = false) := by
    rintro done i rest hl st ⟨hst, hrest, hdone, hchange⟩
    have hi : i ∉ done := fun hin ↦ by
      have hnodup : (List.range (maxBase f)).Nodup := List.nodup_range
      rw [hl, List.nodup_append] at hnodup
      exact hnodup.2.2 i hin i List.mem_cons_self rfl
    have hold : ∀ m, base m = i → test st.1 m = test a m := fun m hm ↦ by
      rw [test, hm, hrest i hi, test, hm]
    obtain ⟨st', hrun, hst', hframe, hnew, hchange'⟩ := unionAccChEntry_eq (f := f) hst i
    refine ⟨st', hrun, hst', fun j hj ↦ ?_, fun m hm ↦ ?_, ?_⟩
    · rw [List.mem_append, not_or, List.mem_singleton] at hj
      rw [hframe j hj.2, hrest j hj.1]
    · rcases List.mem_append.1 hm with hm | hm
      · rw [test, hframe _ fun heq ↦ hi (heq ▸ hm)]
        exact hdone m hm
      · rw [hnew m (List.mem_singleton.1 hm), hold m (List.mem_singleton.1 hm)]
    · have hlast : (∃ m, base m = i ∧ test f m = true ∧ test st.1 m = false) ↔
          ∃ m, base m = i ∧ test f m = true ∧ test a m = false :=
        exists_congr fun m ↦ and_congr_right fun hm ↦ by rw [hold m hm]
      rw [hchange', hchange, hlast, or_assoc, ← exists_or]
      refine or_congr_right (exists_congr fun m ↦ ?_)
      rw [List.mem_append, List.mem_singleton, or_and_right]
  obtain ⟨st, hrun, hst, hrest, hdone, hchange⟩ := Run.foldlM_prefix hstep (a := (a, change))
    ⟨ha, fun _ _ ↦ rfl, fun m hm ↦ absurd hm List.not_mem_nil, by simp⟩
  refine ⟨st.1, st.2, hrun, hst, fun m ↦ ?_, ?_⟩
  · rcases lt_or_ge (base m) (maxBase f) with hm | hm
    · exact hdone m (List.mem_range.2 hm)
    · rw [test, hrest _ fun h ↦ (List.mem_range.1 h).not_ge hm, test_of_le hm, Bool.or_false, test]
  · rw [hchange]
    refine or_congr_right (exists_congr fun m ↦ ⟨fun h ↦ h.2, fun h ↦ ⟨?_, h⟩⟩)
    rcases lt_or_ge (base m) (maxBase f) with hm | hm
    · exact List.mem_range.2 hm
    · rw [test_of_le hm] at h
      cases h.1

/-- **`Set_union_acc_ch`**, whose `*change` is 1 if the set has gained an element. -/
theorem computes_unionAccCh (h₁ : Valid set₁) (h₂ : Valid set₂) :
    ∃ r c, unionAccCh set₁ set₂ = .ok (r, c) ∧
      (Computes (.ok r) fun b m ↦ test (arrayOf set₁ b) m || test (arrayOf set₂ b) m) ∧
      (c = true ↔ ∃ b m, test (arrayOf set₂ b) m = true ∧ test (arrayOf set₁ b) m = false) := by
  have hset := valid_getD h₁
  obtain ⟨a, c, hrun, ha, hnew, hc⟩ := unionAccChVectors_eq (f := arrayOf set₂ .nonneg)
    (hset.array .nonneg).sized false
  obtain ⟨a', c', hrun', ha', hnew', hc'⟩ := unionAccChVectors_eq (f := arrayOf set₂ .neg)
    (hset.array .neg).sized c
  refine ⟨some ⟨fun b ↦ b.casesOn a a'⟩, c', ?_, ⟨_, rfl, fun v hv ↦ ?_,
    fun b m ↦ ?_⟩, ?_⟩
  · rw [unionAccCh]
    simp only [hrun, Run.ok_bind, hrun']
    refine congrArg (fun varray ↦ (.ok (some ⟨varray⟩, c') : Run (Option VSet × Bool))) (funext fun b ↦ ?_)
    cases b <;> rfl
  · obtain rfl := Option.some.inj hv
    simp only [test_getD] at hnew hnew'
    refine ⟨fun b ↦ ?_, (h₁.proper.or h₂.proper).mono fun b m hm ↦ ?_⟩ <;> cases b
    · exact ha.toIsArray
    · exact ha'.toIsArray
    · exact (hnew m).symm.trans hm
    · exact (hnew' m).symm.trans hm
  · cases b
    · exact (hnew m).trans (by rw [test_getD])
    · exact (hnew' m).trans (by rw [test_getD])
  · rw [hc', hc]
    simp only [test_getD, Bool.false_eq_true, false_or]
    constructor
    · rintro (h | h)
      · exact ⟨.nonneg, h⟩
      · exact ⟨.neg, h⟩
    · rintro ⟨b, h⟩
      cases b
      · exact .inl h
      · exact .inr h

/-! ### Copies -/

/-- The loop of a copy has room for all entries. -/
theorem enlarge_newSet (hf : IsArray b f) :
    ∃ t, enlargeVArray (maxBase f - 1) (newSet.varray b) = .ok t ∧ Sized b (maxBase f) t ∧
      ∀ j, vectorAt t j = none := by
  have hdvd := hf.dvd
  have hlen : maxBase (newSet.varray b) ≤ 8 := by
    cases b <;> decide
  rcases Nat.eq_zero_or_pos (maxBase f) with hzero | hpos
  · obtain rfl : b = .neg := by
      cases b
      · exact absurd (hf.pos rfl) (by omega)
      · rfl
    rw [hzero]
    exact ⟨some [], rfl, ⟨⟨Nat.dvd_zero 8, fun h ↦ nomatch h⟩, le_rfl⟩, fun _ ↦ rfl⟩
  obtain ⟨k, hk⟩ := Nat.exists_eq_succ_of_ne_zero hpos.ne'
  have hcast : (maxBase f : ℤ) - 1 = (k : ℤ) := by omega
  obtain ⟨t, hrun, hmax, hat⟩ := @enlargeVArray_eq (newSet.varray b) k (by omega)
  rw [hcast]
  exact ⟨t, hrun, ⟨⟨by omega, fun _ ↦ by omega⟩, by omega⟩, fun j ↦ (hat j).trans (vectorAt_newSet b j)⟩

/-- **`Set_copy`.** -/
theorem computes_copy (hs : Valid s) : Computes (copy s) fun b m ↦ test (arrayOf s b) m := by
  rcases s with - | s
  · exact computes_ok valid_none
  rw [copy]
  refine computes_forSigns (fun b ↦ ⟨maxBase (s.varray b), ?_⟩) hs.proper
  have ha := (hs s rfl).array b
  simp only [arrayOf_some]
  rcases hf : s.varray b with - | f
  · exact ⟨_, rfl, sized_newSet b, by simp⟩
  rw [hf] at ha
  obtain ⟨t, hrun, ht, hnone⟩ := enlarge_newSet ha
  obtain ⟨r, hcopy, hr, hbits⟩ := copyVectors_eq ht le_rfl hnone
  exact ⟨r, by simp only [hrun, Run.ok_bind, hcopy], hr, hbits⟩

/-- **`Set_compress`.** -/
theorem computes_compress (hs : Valid s) : Computes (compress s) fun b m ↦ test (arrayOf s b) m := by
  rcases s with - | s
  · exact computes_ok valid_none
  rw [compress]
  refine computes_forSigns (fun b ↦ ⟨maxBase (s.varray b), ?_⟩) hs.proper
  have ha := (hs s rfl).array b
  simp only [arrayOf_some]
  rcases hf : s.varray b with - | f
  · exact ⟨_, rfl, sized_newSet b, by simp⟩
  rw [hf] at ha
  obtain ⟨t, hrun, ht, hnone⟩ := enlarge_newSet ha
  simp only [hrun, Run.ok_bind]
  refine foldlM_range (some f) ht (fun i hi a ha hat ↦ ?_) fun m hm ↦ by rw [test_of_le hm, test, hnone, bit?]
  rw [hnone] at hat
  rcases hv : vectorAt (some f) i with - | v
  · exact writes_ok ha fun m hm ↦ by rw [hat, test, hm, hv]
  simp only
  split_ifs with hall
  · exact writes_store ha (hi.trans_le ha.le) fun m hm ↦ by rw [test, hm, hv]
  · refine writes_ok ha fun m hm ↦ ?_
    rw [hat, test, hm, hv, bit?, bit?, bit?_none_eq (all_eq_zero_iff.1 (not_not.1 hall))]

/-! ### Differences -/

/-- **`Set_subtract`.** -/
theorem computes_subtract (h₁ : Valid set₁) :
    Computes (subtract set₁ set₂) fun b m ↦ test (arrayOf set₁ b) m && !test (arrayOf set₂ b) m := by
  rcases set₁ with - | s
  · exact ⟨none, rfl, valid_none, by simp⟩
  rcases set₂ with - | t
  · rw [subtract]
    exact (computes_union h₁ valid_none).congr fun b m ↦ by simp
  rw [subtract]
  refine computes_forSigns (fun b ↦ ⟨0, ?_⟩) (h₁.proper.mono fun b m h ↦ (Bool.and_eq_true_iff.1 h).1)
  refine foldlM_range _ (sized_newSet b) (fun i _ a ha hat ↦ ?_) fun m hm ↦ by simp [test_of_le hm]
  rw [vectorAt_newSet] at hat
  simp only [test, arrayOf_some]
  rcases hv : vectorAt (s.varray b) i with - | v
  · exact writes_ok ha fun m hm ↦ by simp [hat, hm, hv, bit?]
  · exact writes_keep ha hat fun m hm ↦ by rw [bit_vectorMinus?, hm, hv, bit?]

/-- Taking the vectors of another array away. -/
theorem minusVectors_eq (ha : Sized b n a) :
    ∃ r, minusVectors f a = .ok r ∧ Sized b n r ∧ ∀ m, test r m = (test a m && !test f m) := by
  have hn := ha.le
  obtain ⟨r, hrun, hr, hbits⟩ : ∃ r, minusVectors f a = .ok r ∧ Sized b (maxBase a) r ∧
      ∀ m, test r m = (test a m && !test f m) := by
    refine foldlM_range a ha.toIsArray.sized (fun i hi a' ha' hat ↦ ?_) fun m hm ↦ by simp [test_of_le hm]
    simp only [test]
    rw [hat]
    rcases hv : vectorAt a i with - | v
    · exact writes_ok ha' fun m hm ↦ by simp [hat, hm, hv, bit?]
    rcases hw : vectorAt f i with - | w
    · exact writes_ok ha' fun m hm ↦ by simp [hat, hm, hv, hw, bit?]
    · exact writes_store ha' (hi.trans_le ha'.le) fun m hm ↦ by simp [hm, hv, hw, bit?]
  exact ⟨r, hrun, ⟨hr.toIsArray, hn.trans hr.le⟩, hbits⟩

/-- **`Set_subtract_acc`.** -/
theorem computes_subtractAcc (h₁ : Valid set₁) :
    Computes (subtractAcc set₁ set₂) fun b m ↦ test (arrayOf set₁ b) m && !test (arrayOf set₂ b) m := by
  rcases set₁ with - | s
  · exact ⟨none, rfl, valid_none, by simp⟩
  rcases set₂ with - | t
  · exact (computes_ok h₁).congr fun b m ↦ by simp
  rw [subtractAcc]
  exact computes_forSigns (fun b ↦ ⟨_, minusVectors_eq ((h₁ s rfl).array b).sized⟩)
    (h₁.proper.mono fun b m h ↦ (Bool.and_eq_true_iff.1 h).1)

/-- Copying what is not in another array. -/
theorem copyMinus_eq (ht : Sized b n t) (hle : maxBase a ≤ n) (hnone : ∀ j, vectorAt t j = none) :
    ∃ r, copyMinus a f t = .ok r ∧ Sized b n r ∧ ∀ m, test r m = (test a m && !test f m) := by
  refine foldlM_range a ht (fun i hi a' ha' hat ↦ ?_) fun m hm ↦ ?_
  · rw [hnone] at hat
    simp only [test]
    rcases hv : vectorAt a i with - | v
    · exact writes_ok ha' fun m hm ↦ by simp [hat, hm, hv, bit?]
    simp only
    split_ifs with hall
    · refine writes_store ha' ((hi.trans_le hle).trans_le ha'.le) fun m hm ↦ ?_
      rw [bit?, bit_vectorMinus?, hm, hv, bit?]
    · refine writes_ok ha' fun m hm ↦ ?_
      have hzero := bit?_none_eq (all_eq_zero_iff.1 (not_not.1 hall)) m
      rw [bit_vectorMinus?] at hzero
      rw [hat, hm, hv, bit?, bit?, hzero]
  · rw [test, hnone, test_of_le hm]
    rfl

/-- **`Set_subtract_union`.** -/
theorem computes_subtractUnion (h₁ : Valid set₁) (h₃ : Valid set₃) :
    Computes (subtractUnion set₁ set₂ set₃) fun b m ↦
      test (arrayOf set₁ b) m && !test (arrayOf set₂ b) m || test (arrayOf set₃ b) m := by
  rcases set₁ with - | s
  · rw [subtractUnion]
    exact (computes_union h₃ valid_none).congr fun b m ↦ by simp
  rcases set₃ with - | u
  · rw [subtractUnion]
    exact (computes_subtract h₁).congr fun b m ↦ by simp
  rcases set₂ with - | t
  · rw [subtractUnion]
    exact (computes_union h₁ h₃).congr fun b m ↦ by simp
  rw [subtractUnion]
  refine computes_forSigns (fun b ↦ ?_)
    ((h₁.proper.mono fun b m h ↦ (Bool.and_eq_true_iff.1 h).1).or h₃.proper)
  obtain ⟨r, hreserve, hr, hnone⟩ := reserve_eq b (max (maxBase (s.varray b)) (maxBase (u.varray b)))
  obtain ⟨r₁, hrun₁, hr₁, hbits₁⟩ := copyMinus_eq hr (le_max_left _ _) hnone
  obtain ⟨r₂, hrun₂, hr₂, hbits₂⟩ := orVectors_eq hr₁ (le_max_right (maxBase (s.varray b)) _)
  exact ⟨_, r₂, by rw [hreserve, Run.ok_bind, hrun₁, Run.ok_bind, hrun₂], hr₂,
    fun m ↦ by rw [hbits₂, hbits₁, arrayOf_some, arrayOf_some, arrayOf_some]⟩

/-- Enlarging an array keeps its vectors. -/
theorem makeRoom_eq {max : ℕ} (ha : IsArray b a) (hmax : 8 ∣ max) :
    ∃ r, makeRoom a max = .ok r ∧ Sized b max r ∧ ∀ j, vectorAt r j = vectorAt a j := by
  rw [makeRoom]
  split_ifs with hlt
  · obtain ⟨k, rfl⟩ := Nat.exists_eq_succ_of_ne_zero (Nat.ne_of_gt (Nat.zero_lt_of_lt hlt))
    have hcast : ((k.succ : ℕ) : ℤ) - 1 = (k : ℤ) := by omega
    obtain ⟨r, hrun, hmax, hat⟩ := @enlargeVArray_eq a k (by omega)
    exact ⟨r, by rw [hcast, hrun], ⟨⟨by omega, fun _ ↦ by omega⟩, by omega⟩, hat⟩
  · exact ⟨a, rfl, ⟨ha, not_lt.1 hlt⟩, fun _ ↦ rfl⟩

/-- **`Set_subtract_union_acc`**, where `set1` and `set3` are different objects. -/
theorem computes_subtractUnionAcc (h₁ : Valid set₁) (h₃ : Valid set₃) :
    Computes (subtractUnionAcc set₁ set₂ (.other set₃)) fun b m ↦
      test (arrayOf set₁ b) m && !test (arrayOf set₂ b) m || test (arrayOf set₃ b) m := by
  rcases set₁ with - | s
  · simp only [subtractUnionAcc, ThirdSet.set]
    exact (computes_union h₃ valid_none).congr fun b m ↦ by simp
  rcases set₃ with - | u
  · simp only [subtractUnionAcc, ThirdSet.set]
    exact (computes_subtractAcc h₁).congr fun b m ↦ by simp
  rcases set₂ with - | t
  · simp only [subtractUnionAcc, ThirdSet.set]
    exact (computes_unionAcc h₁ h₃).congr fun b m ↦ by simp
  simp only [subtractUnionAcc, ThirdSet.set, ThirdSet.varray]
  refine computes_forSigns (fun b ↦ ⟨maxBase (u.varray b), ?_⟩)
    ((h₁.proper.mono fun b m h ↦ (Bool.and_eq_true_iff.1 h).1).or h₃.proper)
  obtain ⟨r, hroom, hr, hat⟩ := makeRoom_eq ((h₁ s rfl).array b) ((h₃ u rfl).array b).dvd
  obtain ⟨r₁, hrun₁, hr₁, hbits₁⟩ := minusVectors_eq (f := t.varray b) hr
  obtain ⟨r₂, hrun₂, hr₂, hbits₂⟩ := orVectors_eq hr₁ le_rfl
  refine ⟨r₂, by rw [hroom, Run.ok_bind, hrun₁, Run.ok_bind, hrun₂], hr₂, fun m ↦ ?_⟩
  rw [hbits₂, hbits₁, test, hat]
  rfl

/-- **`Set_subtract_union_acc`** with `set1` as `set3`. Only the difference is left to be added. -/
theorem computes_subtractUnionAcc_first (h₁ : Valid set₁) :
    Computes (subtractUnionAcc set₁ set₂ .first) fun b m ↦
      test (arrayOf set₁ b) m && !test (arrayOf set₂ b) m := by
  rcases set₁ with - | s
  · simp only [subtractUnionAcc, ThirdSet.set]
    exact (computes_union valid_none valid_none).congr fun b m ↦ by simp
  rcases set₂ with - | t
  · simp only [subtractUnionAcc, ThirdSet.set]
    exact (computes_unionAcc h₁ h₁).congr fun b m ↦ by simp
  simp only [subtractUnionAcc, ThirdSet.set, ThirdSet.varray]
  refine computes_forSigns (fun b ↦ ?_) (h₁.proper.mono fun b m h ↦ (Bool.and_eq_true_iff.1 h).1)
  obtain ⟨r, hroom, hr, hat⟩ := makeRoom_eq ((h₁ s rfl).array b) ((h₁ s rfl).array b).dvd
  obtain ⟨r₁, hrun₁, hr₁, hbits₁⟩ := minusVectors_eq (f := t.varray b) hr
  obtain ⟨r₂, hrun₂, hr₂, hbits₂⟩ := orVectors_eq hr₁.toIsArray.sized le_rfl
  refine ⟨_, r₂, by rw [hroom, Run.ok_bind, hrun₁, Run.ok_bind, hrun₂], hr₂, fun m ↦ ?_⟩
  rw [hbits₂, Bool.or_self, hbits₁, test, hat]
  rfl

end OpenImpact.LibSet
