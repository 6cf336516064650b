import OpenImpact.Library.LibSet
import Mathlib.Data.List.Nodup
import Mathlib.Data.Fintype.Basic
import Mathlib.Tactic.FinCases

/-!
# What the functions on sets compute

Every loop of `libset` writes the entry it is at and no other one, so the bits of the array it leaves are
known as soon as those of one entry are (`foldlM_vectors`). Each function is then one line of arithmetic on
bits away from the operation on sets it is named for.
-/

namespace OpenImpact.LibSet

variable {a f t init : Option VArray} {v v₁ v₂ : SetVector} {o : Option SetVector} {i j m n : ℕ}

/-! ### Bits -/

/-- The bit of a vector for the magnitude `m`. -/
def bit (v : SetVector) (m : ℕ) : Bool := (v (wordSelect m)).getLsbD (bitSelect m)

/-- The bit of a vector that may be `NULL`. -/
def bit? : Option SetVector → ℕ → Bool
  | none, _ => false
  | some v, m => bit v m

/-- The bit of an array for the magnitude `m`. -/
def test (a : Option VArray) (m : ℕ) : Bool := bit? (vectorAt a (base m)) m

theorem bitSelect_lt (m : ℕ) : bitSelect m < 32 := Nat.mod_lt _ (by decide)

/-- A place in a vector is that of one magnitude. -/
theorem exists_select (w : Fin 8) {k : ℕ} (hk : k < 32) (i : ℕ) :
    ∃ m, base m = i ∧ wordSelect m = w ∧ bitSelect m = k := by
  have hw := w.isLt
  refine ⟨i * 256 + w * 32 + k, ?_, Fin.ext ?_, ?_⟩
  · rw [base]
    omega
  · show (i * 256 + w * 32 + k) % 256 / 32 = w
    omega
  · rw [bitSelect]
    omega

/-- A shifted 1 has one bit. -/
theorem getLsbD_one_shiftLeft {k j : ℕ} (hk : k < 32) : (1#32 <<< k).getLsbD j = decide (j = k) := by
  rw [BitVec.getLsbD_shiftLeft, BitVec.getLsbD_one]
  rcases lt_trichotomy j k with h | rfl | h
  · simp [h, h.ne]
  · simp [hk]
  · simp [h.ne', h.not_gt]
    omega

/-- The test of one bit of a word. -/
theorem and_shiftLeft_ne_zero (w : BitVec 32) {k : ℕ} (hk : k < 32) :
    (w &&& 1#32 <<< k != 0) = w.getLsbD k := by
  rw [Bool.eq_iff_iff, bne_iff_ne]
  constructor
  · intro h
    by_contra hbit
    refine h (BitVec.eq_of_getLsbD_eq fun j _ ↦ ?_)
    rw [BitVec.getLsbD_and, getLsbD_one_shiftLeft hk]
    rcases eq_or_ne j k with rfl | hne
    · simp [Bool.eq_false_iff.2 hbit]
    · simp [hne]
  · intro hbit h
    have := congrArg (BitVec.getLsbD · k) h
    simp [BitVec.getLsbD_and, getLsbD_one_shiftLeft hk, hbit] at this

/-- `Set_in` of a vector is its bit. -/
theorem readBit_eq (v : SetVector) (m : ℕ) : readBit v m = bit v m :=
  and_shiftLeft_ne_zero _ (bitSelect_lt m)

/-- The word and the place in it determine a bit of a vector. -/
theorem select_inj (hword : wordSelect i = wordSelect j) (hbit : bitSelect i = bitSelect j) :
    i % 256 = j % 256 := by
  have := congrArg Fin.val hword
  simp only [wordSelect] at this
  simp only [bitSelect] at hbit
  omega

/-- Setting a bit changes this bit. -/
theorem bit_setBit (v : SetVector) (m i : ℕ) :
    bit (setBit v m) i = (decide (i % 256 = m % 256) || bit v i) := by
  rw [bit, setBit]
  rcases eq_or_ne (wordSelect i) (wordSelect m) with hword | hword
  · rw [hword, Function.update_self, BitVec.getLsbD_or, getLsbD_one_shiftLeft (bitSelect_lt m), bit, hword,
      Bool.or_comm]
    congr 1
    rw [decide_eq_decide]
    refine ⟨fun h ↦ select_inj hword h, fun h ↦ ?_⟩
    rw [bitSelect, bitSelect, h]
  · rw [Function.update_of_ne hword, bit]
    have hne : i % 256 ≠ m % 256 := fun h ↦ hword (by rw [wordSelect, wordSelect]; exact Fin.ext (by simp [h]))
    simp [hne]

/-- So does clearing it. -/
theorem bit_clearBit (v : SetVector) (m i : ℕ) :
    bit (clearBit v m) i = (decide (i % 256 ≠ m % 256) && bit v i) := by
  rw [bit, clearBit]
  rcases eq_or_ne (wordSelect i) (wordSelect m) with hword | hword
  · rw [hword, Function.update_self, BitVec.getLsbD_and, BitVec.getLsbD_not,
      getLsbD_one_shiftLeft (bitSelect_lt m), bit, hword, Bool.and_comm]
    congr 1
    rw [decide_eq_true (bitSelect_lt i), Bool.true_and, ← decide_not, decide_eq_decide, not_iff_not]
    refine ⟨fun h ↦ select_inj hword h, fun h ↦ ?_⟩
    rw [bitSelect, bitSelect, h]
  · rw [Function.update_of_ne hword, bit]
    have hne : i % 256 ≠ m % 256 := fun h ↦ hword (by rw [wordSelect, wordSelect]; exact Fin.ext (by simp [h]))
    simp [hne]

/-- A new vector is empty. -/
@[simp] theorem bit_newVector (m : ℕ) : bit newVector m = false := by simp [bit, newVector]

/-- The intersection of vectors, bit by bit. -/
@[simp] theorem bit_vectorAnd (v₁ v₂ : SetVector) (m : ℕ) :
    bit (vectorAnd v₁ v₂) m = (bit v₁ m && bit v₂ m) := by
  simp [bit, vectorAnd]

/-- Their union. -/
@[simp] theorem bit_vectorOr (v₁ v₂ : SetVector) (m : ℕ) :
    bit (vectorOr v₁ v₂) m = (bit v₁ m || bit v₂ m) := by
  simp [bit, vectorOr]

/-- Their difference. -/
@[simp] theorem bit_vectorMinus (v₁ v₂ : SetVector) (m : ℕ) :
    bit (vectorMinus v₁ v₂) m = (bit v₁ m && !bit v₂ m) := by
  simp [bit, vectorMinus, bitSelect_lt]

/-- The difference with a vector that may be missing. -/
@[simp] theorem bit_vectorMinus? (v₁ : SetVector) (o : Option SetVector) (m : ℕ) :
    bit (vectorMinus? v₁ o) m = (bit v₁ m && !bit? o m) := by
  cases o <;> simp [vectorMinus?, bit?]

/-- A vector is zero when it has no bit. -/
theorem forall_word_eq_zero_iff (i : ℕ) : (∀ w, v w = 0) ↔ ∀ m, base m = i → bit v m = false := by
  constructor
  · intro h m _
    rw [bit, h]
    exact BitVec.getLsbD_zero
  · intro h w
    refine BitVec.eq_of_getLsbD_eq fun k hk ↦ ?_
    obtain ⟨m, hm, hw, hb⟩ := exists_select w hk i
    have := h m hm
    rw [bit, hw, hb] at this
    rw [this]
    exact BitVec.getLsbD_zero.symm

/-- The test for zero tests all words. -/
theorem all_eq_zero_iff : all v = 0 ↔ ∀ w, v w = 0 := by
  simp only [all, BitVec.ofNat_eq_ofNat, BitVec.or_eq_zero_iff]
  constructor
  · rintro ⟨⟨⟨h0, h1⟩, h2, h3⟩, ⟨h4, h5⟩, h6, h7⟩ w
    fin_cases w <;> assumption
  · intro h
    simp [h]

theorem anyWord_eq_false_iff : anyWord v = false ↔ ∀ w, v w = 0 := by
  simp only [anyWord, Bool.or_eq_false_iff, bne_eq_false_iff_eq]
  constructor
  · rintro ⟨⟨⟨⟨⟨⟨⟨h0, h1⟩, h2⟩, h3⟩, h4⟩, h5⟩, h6⟩, h7⟩ w
    fin_cases w <;> assumption
  · intro h
    simp [h]

/-- A vector that is kept has a bit that is set. -/
theorem anyWord_iff (i : ℕ) : anyWord v = true ↔ ∃ m, base m = i ∧ bit v m = true := by
  rw [← not_iff_not, Bool.not_eq_true, anyWord_eq_false_iff, forall_word_eq_zero_iff i]
  simp

/-- A word of `fv` has a bit that `tv` lacks. -/
theorem gains_iff {tv fv : SetVector} (i : ℕ) :
    gains tv fv = true ↔ ∃ m, base m = i ∧ bit fv m = true ∧ bit tv m = false := by
  have hany : gains tv fv = anyWord (vectorMinus fv tv) := by
    simp only [gains, anyWord, vectorMinus, BitVec.and_comm]
  rw [hany, anyWord_iff i]
  simp

/-- A vector without bits reads as no vector. -/
theorem bit?_none_eq (hv : ∀ w, v w = 0) (m : ℕ) : bit v m = false :=
  (forall_word_eq_zero_iff (base m)).1 hv m rfl

/-! ### Arrays -/

/-- What holds of a set's array for the sign `b` at any time. -/
structure IsArray (b : Sign) (a : Option VArray) : Prop where
  dvd : 8 ∣ maxBase a
  pos : b = .nonneg → 0 < maxBase a

/-- Behind the array there is no vector. -/
theorem vectorAt_of_le (h : maxBase a ≤ i) : vectorAt a i = none := by
  rw [vectorAt, List.getElem?_eq_none h, Option.join_none]

/-- So no bit there is set. -/
theorem test_of_le (h : maxBase a ≤ base m) : test a m = false := by
  rw [test, vectorAt_of_le h, bit?]

/-- A load within the array. -/
theorem load_eq (h : i < maxBase a) : load a i = .ok (vectorAt a i) := by
  have h' : i < (a.getD []).length := h
  rw [load, vectorAt, List.getElem?_eq_getElem h']
  rfl

/-- A store within the array changes one vector. -/
theorem store_eq (h : i < maxBase a) (o : Option SetVector) :
    ∃ a', store a i o = .ok a' ∧ maxBase a' = maxBase a ∧
      ∀ j, vectorAt a' j = if j = i then o else vectorAt a j := by
  have h' : i < (a.getD []).length := h
  refine ⟨some ((a.getD []).set i o), if_pos h, List.length_set, fun j ↦ ?_⟩
  rw [vectorAt, vectorAt, Option.getD_some, List.getElem?_set]
  rcases eq_or_ne i j with rfl | hne
  · rw [if_pos rfl, if_pos h', if_pos rfl, Option.join_some]
  · rw [if_neg hne, if_neg hne.symm]

/-- Enlarging keeps the vectors. -/
theorem enlargeVArray_eq {size : ℕ} (h : maxBase a ≤ (size / 8 + 1) * 8) :
    ∃ a', enlargeVArray size a = .ok a' ∧ maxBase a' = (size / 8 + 1) * 8 ∧
      ∀ j, vectorAt a' j = vectorAt a j := by
  have hsize : (((size : ℤ) / 8 + 1) * 8).toNat = (size / 8 + 1) * 8 := by omega
  refine ⟨some (a.getD [] ++ newVArray ((size / 8 + 1) * 8 - maxBase a)), ?_, ?_, fun j ↦ ?_⟩
  · rw [enlargeVArray, hsize]
    exact if_pos h
  · rw [maxBase, Option.getD_some, List.length_append, newVArray, List.length_replicate]
    exact Nat.add_sub_cancel' h
  · rw [vectorAt, Option.getD_some, vectorAt]
    rcases lt_or_ge j (a.getD []).length with hj | hj
    · rw [List.getElem?_append_left hj]
    · rw [List.getElem?_append_right hj, newVArray, List.getElem?_replicate, List.getElem?_eq_none hj]
      split_ifs <;> rfl

/-- The array has at least `n` entries as well. -/
structure Sized (b : Sign) (n : ℕ) (a : Option VArray) : Prop extends IsArray b a where
  le : n ≤ maxBase a

variable {b : Sign}

theorem Sized.of_maxBase (ha : Sized b n a) {a' : Option VArray} (h : maxBase a' = maxBase a) :
    Sized b n a' :=
  ⟨⟨h ▸ ha.dvd, fun hb ↦ h ▸ ha.pos hb⟩, h ▸ ha.le⟩

theorem IsArray.sized (ha : IsArray b a) : Sized b (maxBase a) a := ⟨ha, le_rfl⟩

/-- A grown array has room for the vector, and those it had. -/
theorem grow_eq (ha : Sized b n a) (i : ℕ) :
    ∃ a', grow a i = .ok a' ∧ Sized b n a' ∧ i < maxBase a' ∧ ∀ j, vectorAt a' j = vectorAt a j := by
  have hn := ha.le
  rcases lt_or_ge i (maxBase a) with hi | hi
  · exact ⟨a, if_neg hi.not_ge, ha, hi, fun _ ↦ rfl⟩
  · obtain ⟨a', hrun, hmax, hat⟩ := @enlargeVArray_eq a i (by omega)
    refine ⟨a', ?_, ⟨⟨by omega, fun _ ↦ by omega⟩, by omega⟩, by omega, hat⟩
    rw [grow, if_pos hi, hrun]

/-- The array of a new set. -/
theorem isArray_newSet (b : Sign) : IsArray b (newSet.varray b) := by
  cases b
  · exact ⟨Nat.dvd_refl 8, fun _ ↦ by decide⟩
  · exact ⟨Nat.dvd_zero 8, fun h ↦ nomatch h⟩

/-- A new set has no vectors. -/
@[simp] theorem vectorAt_newSet (b : Sign) (i : ℕ) : vectorAt (newSet.varray b) i = none := by
  cases b
  · show ((newVArray 8)[i]?).join = none
    rw [newVArray, List.getElem?_replicate]
    split_ifs <;> rfl
  · rfl

/-- So it is empty. -/
@[simp] theorem test_newSet (b : Sign) (m : ℕ) : test (newSet.varray b) m = false := by
  rw [test, vectorAt_newSet, bit?]

/-- The array of a new set with room for `max` entries. -/
theorem reserve_eq (b : Sign) (max : ℕ) :
    ∃ a, reserve b max = .ok a ∧ Sized b max a ∧ ∀ j, vectorAt a j = none := by
  have hnew := isArray_newSet b
  have hlen : maxBase (newSet.varray b) ≤ 8 := by
    cases b <;> decide
  rcases max with - | max
  · refine ⟨newSet.varray b, ?_, ⟨hnew, Nat.zero_le _⟩, vectorAt_newSet b⟩
    cases b <;> rfl
  obtain ⟨a, hrun, hmax, hat⟩ := @enlargeVArray_eq (newSet.varray b) max (by omega)
  have hcast : ((max + 1 : ℕ) : ℤ) - 1 = (max : ℤ) := by omega
  have ha : Sized b (max + 1) a := ⟨⟨by omega, fun _ ↦ by omega⟩, by omega⟩
  cases b
  · rw [reserve]
    split_ifs with h
    · rw [hcast]
      exact ⟨a, hrun, ha, fun j ↦ (hat j).trans (vectorAt_newSet _ j)⟩
    · have h8 : maxBase (newSet.varray .nonneg) = 8 := rfl
      exact ⟨_, rfl, ⟨hnew, by omega⟩, vectorAt_newSet _⟩
  · rw [reserve, if_pos (Nat.succ_pos _), hcast]
    exact ⟨a, hrun, ha, fun j ↦ (hat j).trans (vectorAt_newSet _ j)⟩

/-! ### Loops -/

/-- A run writes the entry `i` of `a`, whose bits are then `new`, and no other one. -/
def Writes (b : Sign) (n : ℕ) (a : Option VArray) (i : ℕ) (new : ℕ → Bool) (run : Run (Option VArray)) :
    Prop :=
  ∃ a', run = .ok a' ∧ Sized b n a' ∧ (∀ j, j ≠ i → vectorAt a' j = vectorAt a j) ∧
    ∀ m, base m = i → test a' m = new m

section Writes

variable {new : ℕ → Bool}

/-- Storing a vector writes its bits. -/
theorem writes_store (ha : Sized b n a) (hi : i < maxBase a) (hnew : ∀ m, base m = i → bit? o m = new m) :
    Writes b n a i new (store a i o) := by
  obtain ⟨a', hrun, hmax, hat⟩ := store_eq hi o
  refine ⟨a', hrun, ha.of_maxBase hmax, fun j hj ↦ by rw [hat, if_neg hj], fun m hm ↦ ?_⟩
  rw [test, hat, if_pos hm, hnew m hm]

/-- Nothing has to be written where the bits are right. -/
theorem writes_ok (ha : Sized b n a) (hnew : ∀ m, base m = i → bit? (vectorAt a i) m = new m) :
    Writes b n a i new (.ok a) :=
  ⟨a, rfl, ha, fun _ _ ↦ rfl, fun m hm ↦ by rw [test, hm, hnew m hm]⟩

/-- Writing after the array has been made longer. -/
theorem writes_grow (ha : Sized b n a) {k : Option VArray → Run (Option VArray)}
    (hk : ∀ a', Sized b n a' → i < maxBase a' → vectorAt a' i = vectorAt a i → Writes b n a' i new (k a')) :
    Writes b n a i new (grow a i >>= k) := by
  obtain ⟨a₁, hgrow, ha₁, hi, hat⟩ := grow_eq ha i
  obtain ⟨a', hrun, hP, hframe, hnew⟩ := hk a₁ ha₁ hi (hat i)
  exact ⟨a', by rw [hgrow, Run.ok_bind, hrun], hP, fun j hj ↦ (hframe j hj).trans (hat j), hnew⟩

/-- A vector goes to a new set only if it has an element. -/
theorem writes_keep (ha : Sized b n a) (hnone : vectorAt a i = none)
    (hnew : ∀ m, base m = i → bit v m = new m) : Writes b n a i new (keep a i v) := by
  rw [keep]
  split_ifs with hall
  · exact writes_grow ha fun a' ha' hi _ ↦ writes_store ha' hi hnew
  · refine writes_ok ha fun m hm ↦ ?_
    rw [hnone, bit?, ← hnew m hm]
    exact (bit?_none_eq (all_eq_zero_iff.1 (not_not.1 hall)) m).symm

/-- **A loop over entries** that writes the one it is at, and no other. Each entry is as the loop found
it until its turn. -/
theorem foldlM_vectors {body : Option VArray → ℕ → Run (Option VArray)} {l : List ℕ} (hl : l.Nodup)
    (hinit : Sized b n init)
    (hbody : ∀ i ∈ l, ∀ a, Sized b n a → vectorAt a i = vectorAt init i → Writes b n a i new (body a i)) :
    ∃ r, l.foldlM body init = .ok r ∧ Sized b n r ∧
      ∀ m, test r m = if base m ∈ l then new m else test init m := by
  have hstep : ∀ done i rest, l = done ++ i :: rest → ∀ {a}, (Sized b n a ∧
      (∀ j, j ∉ done → vectorAt a j = vectorAt init j) ∧ ∀ m, base m ∈ done → test a m = new m) →
      ∃ a', body a i = .ok a' ∧ Sized b n a' ∧ (∀ j, j ∉ done ++ [i] → vectorAt a' j = vectorAt init j) ∧
        ∀ m, base m ∈ done ++ [i] → test a' m = new m := by
    rintro done i rest rfl a ⟨hP, hrest, hdone⟩
    have hi : i ∉ done := fun hin ↦ by
      rw [List.nodup_append] at hl
      exact hl.2.2 i hin i List.mem_cons_self rfl
    obtain ⟨a', hrun, hP', hframe, hnew⟩ := hbody i (by simp) a hP (hrest i hi)
    refine ⟨a', hrun, hP', fun j hj ↦ ?_, fun m hm ↦ ?_⟩
    · rw [List.mem_append, not_or, List.mem_singleton] at hj
      rw [hframe j hj.2, hrest j hj.1]
    · rcases List.mem_append.1 hm with hm | hm
      · have hne : base m ≠ i := fun heq ↦ hi (heq ▸ hm)
        rw [test, hframe _ hne]
        exact hdone m hm
      · exact hnew m (List.mem_singleton.1 hm)
  obtain ⟨r, hrun, hP, hrest, hdone⟩ := Run.foldlM_prefix hstep
    ⟨hinit, fun _ _ ↦ rfl, fun m hm ↦ absurd hm List.not_mem_nil⟩
  refine ⟨r, hrun, hP, fun m ↦ ?_⟩
  split_ifs with hm
  · exact hdone m hm
  · rw [test, hrest _ hm]
    rfl

/-- The same for a loop over all entries of an array `f`, when past its end there is nothing to write. -/
theorem foldlM_range {body : Option VArray → ℕ → Run (Option VArray)} (f : Option VArray)
    (hinit : Sized b n init)
    (hbody : ∀ i < maxBase f, ∀ a, Sized b n a → vectorAt a i = vectorAt init i →
      Writes b n a i new (body a i))
    (hout : ∀ m, maxBase f ≤ base m → test init m = new m) :
    ∃ r, (List.range (maxBase f)).foldlM body init = .ok r ∧ Sized b n r ∧ ∀ m, test r m = new m := by
  obtain ⟨r, hrun, hP, hr⟩ := foldlM_vectors List.nodup_range hinit fun i hi ↦
    hbody i (List.mem_range.1 hi)
  refine ⟨r, hrun, hP, fun m ↦ ?_⟩
  rw [hr m]
  split_ifs with hm
  · rfl
  · exact hout m (le_of_not_gt fun h ↦ hm (List.mem_range.2 h))

end Writes

end OpenImpact.LibSet
