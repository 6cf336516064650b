import OpenImpact.Library.LibSetDecide
import Mathlib.Algebra.BigOperators.Fin
import Mathlib.Algebra.Order.BigOperators.Group.Finset
import Mathlib.Data.Set.Card
import Mathlib.Order.Interval.Finset.SuccPred
import Mathlib.Data.Int.Interval

/-!
# Listing the elements of a set

`Set_2array` lists the elements by array, vector, word and bit. An iterator holds the place after the next
element, which it has already found; as long as that element stays in the set, its word is not zero, so
the search goes on at the right bit whatever has been deleted behind it (`Pending.setNext`).

`Set_size` and `Set_2array` count in `int`, so both fail on a set of `2^31` elements or more, while the
iterator does not count. The main result is `enumerates_iff`; it rests on `Built.valid` for the sets there
are and says nothing about a caller that adds elements during the iteration.
-/

namespace OpenImpact.LibSet

variable {s : Option VSet} {x : ℤ} {b : Sign} {a : Option VArray} {v : SetVector} {m : ℕ}

/-! ### The source's functions -/

/-- `(b == 0) ? 1 : -1`. -/
def Sign.factor : Sign → ℤ
  | .nonneg => 1
  | .neg => -1

/-- The loop over the bits of a word from `j` on, four at a time. -/
def wordElements (sign : ℤ) (start : ℕ) : ℕ → BitVec 32 → ℕ → List ℤ
  | 0, _, _ => []
  | n + 1, value, j =>
    (if value &&& 1 != 0 then [sign * ↑(start + j)] else []) ++
      (if value &&& 2 != 0 then [sign * ↑(start + j + 1)] else []) ++
      (if value &&& 4 != 0 then [sign * ↑(start + j + 2)] else []) ++
      (if value &&& 8 != 0 then [sign * ↑(start + j + 3)] else []) ++
      wordElements sign start n (value >>> 4) (j + 4)

/-- The entries of `buf` in the order in which the loops of `Set_2array` come to them. -/
def entries (set : Option VSet) : List ℤ :=
  [Sign.nonneg, Sign.neg].flatMap fun b ↦
    (List.range (maxBase (arrayOf set b))).flatMap fun l ↦
      match vectorAt (arrayOf set b) l with
      | none => []
      | some v => (List.finRange 8).flatMap fun i ↦
        wordElements b.factor (l <<< 8 + 32 * i.val) 8 (v i) 0

/-- `buf[k++] = element`, where the entries before `k` have been written. -/
def writeEntry (buf : List ℤ) (element : ℤ) : Run (List ℤ) := do
  let _ ← int32 (buf.length + 1)
  return buf ++ [element]

/-- `Set_2array`: what it writes to `buf`. It returns the number of entries. -/
def toArray (set : Option VSet) : Run (List ℤ) := (entries set).foldlM writeEntry []

/-- `SetIterator`. The set it is for may change from one call to the next. -/
structure SetIterator where
  currentVarray : ℕ
  currentBase : ℕ
  currentBit : ℕ
  nxt : ℤ
  finis : ℤ

/-- The loop over the bits of a word, with the number of bits left. It says whether it has found one. -/
def scanBits (w : BitVec 32) : ℕ → ℕ → ℕ → Bool × ℕ
  | 0, _, bi => (false, bi)
  | n + 1, bit, bi => if w &&& 1#32 <<< bit != 0 then (true, bi) else scanBits w n (bit + 1) (bi + 1)

/-- `val[wo]`. -/
def wordAt (v : SetVector) (wo : ℕ) : BitVec 32 := if h : wo < 8 then v ⟨wo, h⟩ else 0

/-- The loop over the words of a vector, with the number of words left. -/
def scanWords (v : SetVector) : ℕ → ℕ → ℕ → Bool × ℕ
  | 0, _, bi => (false, bi)
  | n + 1, wo, bi =>
    if wordAt v wo ≠ 0 then
      match scanBits (wordAt v wo) (32 - bi % 32) (bi % 32) bi with
      | (true, bi) => (true, bi)
      | (false, bi) => scanWords v n (wo + 1) bi
    else scanWords v n (wo + 1) (bi + 32)

/-- `while (bo < mo[va])`, with the number of vectors left. -/
def scanBases (a : Option VArray) : ℕ → ℕ → ℕ → Bool × ℕ × ℕ
  | 0, bo, bi => (false, bo, bi)
  | n + 1, bo, bi =>
    match vectorAt a bo with
    | none => scanBases a n (bo + 1) 0
    | some val =>
      match scanWords val (8 - bi / 32) (bi / 32) bi with
      | (true, bi) => (true, bo, bi)
      | (false, _) => scanBases a n (bo + 1) 0

/-- `while (va < 2)`, over the arrays left: the place found, with the index of its array. -/
def scanArrays (set : VSet) : List Sign → ℕ → ℕ → ℕ → ℕ × ℕ × ℕ
  | [], va, bo, bi => (va, bo, bi)
  | b :: l, va, bo, bi =>
    match scanBases (set.varray b) (maxBase (set.varray b) - bo) bo bi with
    | (true, bo, bi) => (va, bo, bi)
    | (false, _, bi) => scanArrays set l (va + 1) 0 bi

/-- The arrays from the index `va` on. -/
def arraysFrom (va : ℕ) : List Sign := [Sign.nonneg, Sign.neg].drop va

/-- `Set_next_FOUND`. -/
def SetIterator.moveTo (si : SetIterator) : ℕ × ℕ × ℕ → SetIterator
  | (va, bo, bi) => { si with
      nxt := (if va ≠ 0 then -1 else 1) * ↑(bo <<< 8 + bi)
      currentVarray := va
      currentBase := bo
      currentBit := bi + 1 }

/-- `Set_next`: what it returns, and the iterator. -/
def setNext (set : Option VSet) (si : SetIterator) : ℤ × SetIterator :=
  match set with
  | none => (si.finis, { si with nxt := si.finis })
  | some set =>
    if si.currentVarray < 2 then
      (si.nxt, si.moveTo (scanArrays set (arraysFrom si.currentVarray) si.currentVarray si.currentBase
        si.currentBit))
    else (si.finis, { si with nxt := si.finis })

/-- `Set_iterator`. The first `nxt` is not read. -/
def setIterator (set : Option VSet) (finis : ℤ) : SetIterator :=
  match set with
  | none => ⟨2, 0, 0, finis, finis⟩
  | some set => (setNext (some set) ⟨0, 0, 0, finis, finis⟩).2

/-- `Set_exhausted`. -/
def exhausted (set : Option VSet) (si : SetIterator) : Bool := !(set.isSome && si.currentVarray < 2)

/-- A caller that takes elements until there are no more, and after each one deletes some of those it has
had: what it has had in the end. -/
def consume (deletes : List ℤ → List ℤ) : ℕ → Option VSet → SetIterator → List ℤ → Run (List ℤ)
  | 0, _, _, _ => .error .outOfFuel
  | fuel + 1, set, si, had =>
    if exhausted set si then return had
    else do
      let (x, si) := setNext set si
      let set ← (deletes (had ++ [x])).foldlM delete set
      consume deletes fuel set si (had ++ [x])

/-! ### The elements in order -/

/-- The elements for one sign from the magnitude `p` on. -/
def elementsFrom (s : Option VSet) (b : Sign) (p : ℕ) : List ℤ :=
  ((List.range' p (256 * maxBase (arrayOf s b) - p)).filter (test (arrayOf s b))).map
    fun m : ℕ ↦ b.factor * (m : ℤ)

/-- The elements of a set. -/
def elements (s : Option VSet) : List ℤ := elementsFrom s .nonneg 0 ++ elementsFrom s .neg 0

/-- What is read from the bit `p` on are the elements whose bits come from there. -/
theorem mem_elementsFrom {p : ℕ} : x ∈ elementsFrom s b p ↔
    ∃ m, p ≤ m ∧ test (arrayOf s b) m = true ∧ b.factor * m = x := by
  simp only [elementsFrom, List.mem_map, List.mem_filter, List.mem_range'_1]
  constructor
  · rintro ⟨m, ⟨⟨hp, -⟩, hm⟩, rfl⟩
    exact ⟨m, hp, hm, rfl⟩
  · rintro ⟨m, hp, hm, rfl⟩
    have hlt : base m < maxBase (arrayOf s b) := by
      by_contra hle
      rw [test_of_le (not_lt.1 hle)] at hm
      exact nomatch hm
    rw [base] at hlt
    exact ⟨m, ⟨⟨hp, by omega⟩, hm⟩, rfl⟩

/-- A number is its magnitude with its sign. -/
theorem factor_sign (x : ℤ) : (sign x).factor * x.natAbs = x := by
  rw [sign]
  split_ifs with h <;> simp only [Sign.factor] <;> omega

/-- A place and the element it is for. -/
theorem sign_factor_mul {m : ℕ} (h : b = .neg → m ≠ 0) :
    sign (b.factor * m) = b ∧ (b.factor * m).natAbs = m := by
  cases b
  · exact ⟨if_pos (by simp only [Sign.factor]; omega), by simp only [Sign.factor]; omega⟩
  · have hm := h rfl
    exact ⟨if_neg (by simp only [Sign.factor]; omega), by simp only [Sign.factor]; omega⟩

/-- Zero is kept in the array for the numbers that are not negative. -/
theorem Valid.ne_zero (hs : Valid s) (hm : test (arrayOf s b) m = true) : b = .neg → m ≠ 0 := by
  rintro rfl rfl
  rw [hs.zero] at hm
  exact nomatch hm

/-- **The enumeration has exactly the elements of the set.** -/
theorem mem_elements (hs : Valid s) : x ∈ elements s ↔ Mem s x := by
  rw [elements, List.mem_append, mem_elementsFrom, mem_elementsFrom]
  constructor
  · rintro (⟨m, -, hm, rfl⟩ | ⟨m, -, hm, rfl⟩) <;>
    · obtain ⟨hsign, habs⟩ := sign_factor_mul (hs.ne_zero hm)
      rwa [Mem, hsign, habs]
  · intro hx
    rcases hb : sign x with - | - <;> rw [Mem, hb] at hx
    · exact .inl ⟨_, Nat.zero_le _, hx, hb ▸ factor_sign x⟩
    · exact .inr ⟨_, Nat.zero_le _, hx, hb ▸ factor_sign x⟩

theorem factor_mul_injective (b : Sign) : Function.Injective fun m : ℕ ↦ b.factor * (m : ℤ) := by
  intro m n h
  cases b <;> simp only [Sign.factor] at h <;> omega

/-- Each element is enumerated once. -/
theorem nodup_elements (hs : Valid s) : (elements s).Nodup := by
  have hone : ∀ b, (elementsFrom s b 0).Nodup := fun b ↦ by
    exact ((List.nodup_range').filter _).map (factor_mul_injective b)
  refine List.nodup_append.2 ⟨hone _, hone _, fun x hx y hy hxy ↦ ?_⟩
  obtain ⟨m, -, hm, rfl⟩ := mem_elementsFrom.1 hx
  obtain ⟨n, -, hn, rfl⟩ := mem_elementsFrom.1 hy
  have hn0 := hs.ne_zero hn rfl
  simp only [Sign.factor] at hxy
  omega

/-! ### `Set_2array` -/

/-- Reading a word four bits at a time finds its bits in order. -/
theorem wordElements_eq (sgn : ℤ) (start n : ℕ) (w : BitVec 32) (j : ℕ) :
    wordElements sgn start n w j =
      ((List.range (4 * n)).filter w.getLsbD).map fun k ↦ sgn * ↑(start + j + k) := by
  induction n generalizing w j with
  | zero => rfl
  | succ n ih =>
    have hrange : List.range (4 * (n + 1)) = [0, 1, 2, 3] ++ (List.range (4 * n)).map (4 + ·) := by
      rw [show 4 * (n + 1) = 4 + 4 * n by omega, List.range_add]
      rfl
    have h0 : (w &&& 1 != 0) = w.getLsbD 0 := and_shiftLeft_ne_zero w (k := 0) (by decide)
    have h1 : (w &&& 2 != 0) = w.getLsbD 1 := and_shiftLeft_ne_zero w (k := 1) (by decide)
    have h2 : (w &&& 4 != 0) = w.getLsbD 2 := and_shiftLeft_ne_zero w (k := 2) (by decide)
    have h3 : (w &&& 8 != 0) = w.getLsbD 3 := and_shiftLeft_ne_zero w (k := 3) (by decide)
    have hshift : (w >>> 4).getLsbD = w.getLsbD ∘ (4 + ·) := by
      funext k
      exact BitVec.getLsbD_ushiftRight ..
    rw [wordElements, ih, h0, h1, h2, h3, hrange, List.filter_append, List.map_append, List.filter_map,
      List.map_map, hshift]
    have htail : (fun k ↦ sgn * ((start + (j + 4) + k : ℕ) : ℤ)) =
        (fun k ↦ sgn * ((start + j + k : ℕ) : ℤ)) ∘ fun k ↦ 4 + k := by
      funext k
      simp only [Function.comp_apply]
      congr 2
      omega
    rw [htail]
    refine congrArg (· ++ _) ?_
    simp only [List.filter_cons, List.filter_nil]
    generalize w.getLsbD 0 = b₀, w.getLsbD 1 = b₁, w.getLsbD 2 = b₂, w.getLsbD 3 = b₃
    rcases b₀ <;> rcases b₁ <;> rcases b₂ <;> rcases b₃ <;> rfl

/-- Counting in blocks of `k`. -/
theorem range_mul (k n : ℕ) :
    List.range (k * n) = (List.range n).flatMap fun l ↦ (List.range k).map (k * l + ·) := by
  induction n with
  | zero => rfl
  | succ n ih =>
    rw [Nat.mul_succ, List.range_add, ih, List.range_succ, List.flatMap_append]
    simp

/-- The places of a vector, word by word. -/
theorem range_words :
    List.range 256 = (List.finRange 8).flatMap fun i ↦ (List.range 32).map (32 * i.val + ·) := by
  rw [show 256 = 32 * 8 from rfl, range_mul, show List.range 8 = (List.finRange 8).map Fin.val from rfl,
    List.flatMap_map]

/-- The bits of a vector are those of its words. -/
theorem bit_word (v : SetVector) (i : Fin 8) (l : ℕ) {k : ℕ} (hk : k < 32) :
    bit v (256 * l + (32 * i + k)) = (v i).getLsbD k := by
  have hi := i.isLt
  have hword : wordSelect (256 * l + (32 * i + k)) = i := Fin.ext (by
    show (256 * l + (32 * i + k)) % 256 / 32 = i
    omega)
  have hbit : bitSelect (256 * l + (32 * i + k)) = k := by
    rw [bitSelect]
    omega
  rw [bit, hword, hbit]

/-- The elements that the vector at `l` has. -/
theorem filter_vector (a : Option VArray) (l : ℕ) :
    ((List.range 256).map (256 * l + ·)).filter (test a) =
      match vectorAt a l with
      | none => []
      | some v => (List.finRange 8).flatMap fun i ↦
          ((List.range 32).filter (v i).getLsbD).map fun k ↦ 256 * l + (32 * i + k) := by
  have htest : ∀ k < 256, test a (256 * l + k) = bit? (vectorAt a l) (256 * l + k) := fun k hk ↦ by
    rw [test, show base (256 * l + k) = l by rw [base]; omega]
  rcases hv : vectorAt a l with - | v
  · refine List.filter_eq_nil_iff.2 fun m hm ↦ ?_
    obtain ⟨k, hk, rfl⟩ := List.mem_map.1 hm
    rw [htest k (List.mem_range.1 hk), hv, bit?]
    exact Bool.false_ne_true
  · simp only
    rw [range_words, List.map_flatMap, List.filter_flatMap]
    refine List.flatMap_congr fun i _ ↦ ?_
    rw [List.map_map, List.filter_map]
    refine congrArg (List.map _) (List.filter_congr fun k hk ↦ ?_)
    have hk := List.mem_range.1 hk
    have hi := i.isLt
    simp only [Function.comp_apply]
    rw [htest _ (by omega), hv, bit?, bit_word v i l hk]

/-- The loops of `Set_2array` come to each element once. -/
theorem entries_eq (s : Option VSet) : entries s = elements s := by
  have hone : ∀ b, ((List.range (maxBase (arrayOf s b))).flatMap fun l ↦
      match vectorAt (arrayOf s b) l with
      | none => []
      | some v => (List.finRange 8).flatMap fun i ↦
        wordElements b.factor (l <<< 8 + 32 * i.val) 8 (v i) 0) = elementsFrom s b 0 := by
    intro b
    rw [elementsFrom, Nat.sub_zero, ← List.range_eq_range', range_mul, List.filter_flatMap,
      List.map_flatMap]
    refine List.flatMap_congr fun l _ ↦ ?_
    rw [filter_vector]
    rcases vectorAt (arrayOf s b) l with - | v
    · rfl
    simp only
    rw [List.map_flatMap]
    refine List.flatMap_congr fun i _ ↦ ?_
    rw [wordElements_eq, List.map_map]
    refine List.map_congr_left fun k _ ↦ ?_
    simp only [Function.comp_apply, Nat.shiftLeft_eq]
    congr 2
    omega
  simp only [entries, List.flatMap_cons, List.flatMap_nil, List.append_nil, hone, elements]

/-- Writing elements behind a buffer, as long as the index is an `int`. -/
theorem foldlM_writeEntry_eq_ok {l buf r : List ℤ} (hbuf : buf.length ≤ 2147483647) :
    l.foldlM writeEntry buf = .ok r ↔ buf.length + l.length ≤ 2147483647 ∧ r = buf ++ l := by
  induction l generalizing buf with
  | nil =>
    rw [List.foldlM_nil, List.append_nil]
    exact ⟨fun h ↦ ⟨hbuf, (Except.ok.inj h).symm⟩, fun h ↦ congrArg Except.ok h.2.symm⟩
  | cons x l ih =>
    have hlen : (buf ++ [x]).length = buf.length + 1 := List.length_append
    rw [List.foldlM_cons, Run.bind_eq_ok, List.length_cons, List.append_cons]
    constructor
    · rintro ⟨next, hnext, hrun⟩
      obtain ⟨n, hn, hnext⟩ := Run.bind_eq_ok.1 hnext
      obtain rfl := Except.ok.inj hnext
      have hrange := (int32_eq_ok.1 hn).1
      obtain ⟨hle, rfl⟩ := (ih (by omega)).1 hrun
      exact ⟨by omega, rfl⟩
    · rintro ⟨hle, rfl⟩
      refine ⟨_, ?_, (ih (by omega)).2 ⟨by omega, rfl⟩⟩
      rw [writeEntry, int32_eq (by omega), Run.ok_bind]
      rfl

/-- **`Set_2array`** lists the elements, if there are not too many to count. -/
theorem toArray_eq_ok {l : List ℤ} :
    toArray s = .ok l ↔ (elements s).length ≤ 2147483647 ∧ l = elements s := by
  rw [toArray, foldlM_writeEntry_eq_ok (Nat.zero_le _), entries_eq, List.length_nil, Nat.zero_add,
    List.nil_append]

/-! ### `Set_size` -/

/-- A step on the counts of the words that adds `n` to their sum, and that cannot fail as long as the sum is
in the range of `int`. -/
def Adds (f : (Fin 8 → ℤ) → Run (Fin 8 → ℤ)) (n : ℕ) : Prop :=
  ∀ counts, (∀ w, 0 ≤ counts w) →
    ((∑ w, counts w) + (n : ℤ) ≤ 2147483647 → ∃ c, f counts = .ok c) ∧
      ∀ c, f counts = .ok c → (∀ w, 0 ≤ c w) ∧ ∑ w, c w = (∑ w, counts w) + (n : ℤ)

theorem adds_pure : Adds pure 0 := by
  refine fun counts hcounts ↦ ⟨fun _ ↦ ⟨counts, rfl⟩, fun c hc ↦ ?_⟩
  obtain rfl := Except.ok.inj hc
  exact ⟨hcounts, by rw [Nat.cast_zero, add_zero]⟩

/-- The counts of two parts add up. -/
theorem Adds.bind {f g : (Fin 8 → ℤ) → Run (Fin 8 → ℤ)} {n k : ℕ} (hf : Adds f n) (hg : Adds g k) :
    Adds (fun counts ↦ f counts >>= g) (n + k) := by
  intro counts hcounts
  obtain ⟨hrun, hsum⟩ := hf counts hcounts
  constructor
  · intro hle
    obtain ⟨next, hnext⟩ := hrun (by omega)
    obtain ⟨hpos, hnextSum⟩ := hsum next hnext
    obtain ⟨c, hc⟩ := (hg next hpos).1 (by omega)
    exact ⟨c, Run.bind_eq_ok.2 ⟨next, hnext, hc⟩⟩
  · intro c hc
    obtain ⟨next, hnext, hc⟩ := Run.bind_eq_ok.1 hc
    obtain ⟨hpos, hnextSum⟩ := hsum next hnext
    obtain ⟨hposc, hcSum⟩ := (hg next hpos).2 c hc
    exact ⟨hposc, by omega⟩

/-- The counts of a loop add up. -/
theorem Adds.foldlM {α : Type} {f : (Fin 8 → ℤ) → α → Run (Fin 8 → ℤ)} {n : α → ℕ} (l : List α)
    (h : ∀ a ∈ l, Adds (f · a) (n a)) : Adds (fun counts ↦ l.foldlM f counts) (l.map n).sum := by
  induction l with
  | nil => exact adds_pure
  | cons a l ih =>
    obtain ⟨ha, hl⟩ := List.forall_mem_cons.1 h
    simp only [List.foldlM_cons, List.map_cons, List.sum_cons]
    exact ha.bind (ih hl)

/-- One test of a bit counts it. -/
theorem adds_addBit (vc : SetVector) {j : ℕ} (hj : j < 32) (i : Fin 8) :
    Adds (addBit vc j · i) ((vc i).getLsbD j).toNat := by
  intro counts hcounts
  have hle : counts i ≤ ∑ w, counts w :=
    Finset.single_le_sum (fun w _ ↦ hcounts w) (Finset.mem_univ i)
  have hi := hcounts i
  simp only [addBit, and_shiftLeft_ne_zero _ hj]
  constructor
  · intro hsum
    exact ⟨_, by rw [int32_eq (by omega), Run.ok_bind]; rfl⟩
  · intro c hc
    obtain ⟨n, hn, hc⟩ := Run.bind_eq_ok.1 hc
    obtain ⟨-, rfl⟩ := int32_eq_ok.1 hn
    obtain rfl := Except.ok.inj hc
    refine ⟨fun w ↦ ?_, ?_⟩
    · rw [Function.update_apply]
      split_ifs
      · omega
      · exact hcounts w
    · rw [Finset.sum_update_of_mem (Finset.mem_univ i), ← Finset.add_sum_erase _ _ (Finset.mem_univ i),
        Finset.sdiff_singleton_eq_erase]
      omega

/-- Counting the bits that are set. -/
theorem sum_map_toNat (p : ℕ → Bool) (l : List ℕ) :
    (l.map fun j ↦ (p j).toNat).sum = (l.filter p).length := by
  induction l with
  | nil => rfl
  | cons j l ih =>
    rw [List.map_cons, List.sum_cons, List.filter_cons, ih]
    rcases p j with - | - <;> simp [Nat.add_comm]

/-- The bits of a vector, counted word by word and not bit by bit. -/
theorem adds_countVector (vc : SetVector) : Adds (countVector vc)
    ((List.finRange 8).map fun w ↦ ((List.range 32).filter (vc w).getLsbD).length).sum := by
  have h := Adds.foldlM (List.range 32) fun j hj ↦
    Adds.foldlM (List.finRange 8) fun i _ ↦ adds_addBit vc (List.mem_range.1 hj) i
  have hcomm := Multiset.sum_map_sum_map (List.range 32 : Multiset ℕ) (List.finRange 8 : Multiset (Fin 8))
    (f := fun j i ↦ ((vc i).getLsbD j).toNat)
  simp only [Multiset.map_coe, Multiset.sum_coe, sum_map_toNat] at hcomm
  rw [hcomm] at h
  exact h

/-- The bits of the vectors are the elements. -/
theorem length_elementsFrom (s : Option VSet) (b : Sign) : (elementsFrom s b 0).length =
    ((List.range (maxBase (arrayOf s b))).map fun i ↦ match vectorAt (arrayOf s b) i with
      | none => 0
      | some v => ((List.finRange 8).map fun w ↦
          ((List.range 32).filter (v w).getLsbD).length).sum).sum := by
  rw [elementsFrom, Nat.sub_zero, ← List.range_eq_range', range_mul, List.filter_flatMap,
    List.length_map, List.length_flatMap]
  refine congrArg List.sum (List.map_congr_left fun l _ ↦ ?_)
  rw [filter_vector]
  rcases vectorAt (arrayOf s b) l with - | v
  · rfl
  simp only
  rw [List.length_flatMap]
  exact congrArg List.sum (List.map_congr_left fun i _ ↦ List.length_map _)

/-- `Set_size` counts the elements of both arrays. -/
theorem adds_countWords (set : VSet) :
    Adds (fun counts ↦ [Sign.nonneg, Sign.neg].foldlM (fun counts b ↦
      (List.range (maxBase (set.varray b))).foldlM (fun counts i ↦
        match vectorAt (set.varray b) i with
        | none => return counts
        | some vc => countVector vc counts) counts) counts) (elements (some set)).length := by
  have h := Adds.foldlM [Sign.nonneg, Sign.neg] fun b _ ↦
    Adds.foldlM (f := fun counts i ↦
        match vectorAt (set.varray b) i with
        | none => return counts
        | some vc => countVector vc counts) (n := fun i ↦ match vectorAt (set.varray b) i with
      | none => 0
      | some v => ((List.finRange 8).map fun w ↦
          ((List.range 32).filter (v w).getLsbD).length).sum) (List.range (maxBase (set.varray b)))
      fun i _ ↦ by
        rcases vectorAt (set.varray b) i with - | vc
        · exact adds_pure
        · exact adds_countVector vc
  have hlen : (elements (some set)).length =
      ([Sign.nonneg, Sign.neg].map fun b ↦ (elementsFrom (some set) b 0).length).sum := by
    simp [elements]
  rw [hlen]
  simp only [length_elementsFrom]
  exact h

/-- **`Set_size`** counts the elements, if there are not too many to count. -/
theorem size_eq_ok {n : ℤ} :
    size s = .ok n ↔ (elements s).length ≤ 2147483647 ∧ n = (elements s).length := by
  rcases s with - | set
  · rw [size]
    exact ⟨fun h ↦ ⟨Nat.zero_le _, (Except.ok.inj h).symm⟩, fun h ↦ congrArg Except.ok h.2.symm⟩
  obtain ⟨hrun, hsum⟩ := adds_countWords set (fun _ ↦ 0) fun _ ↦ le_rfl
  simp only [Finset.sum_const_zero, zero_add, Fin.sum_univ_eight] at hrun hsum
  rw [size]
  constructor
  · intro h
    obtain ⟨c, hc, h⟩ := Run.bind_eq_ok.1 h
    obtain ⟨-, htotal⟩ := hsum c hc
    simp only [Run.bind_eq_ok, int32_eq_ok] at h
    obtain ⟨_, ⟨-, rfl⟩, _, ⟨-, rfl⟩, _, ⟨-, rfl⟩, _, ⟨-, rfl⟩, _, ⟨-, rfl⟩, _, ⟨-, rfl⟩, hrange, rfl⟩ := h
    omega
  · rintro ⟨hle, rfl⟩
    obtain ⟨c, hc⟩ := hrun (by omega)
    obtain ⟨hpos, htotal⟩ := hsum c hc
    have h₀ := hpos 0
    have h₁ := hpos 1
    have h₂ := hpos 2
    have h₃ := hpos 3
    have h₄ := hpos 4
    have h₅ := hpos 5
    have h₆ := hpos 6
    have h₇ := hpos 7
    refine Run.bind_eq_ok.2 ⟨c, hc, ?_⟩
    rw [int32_eq (by omega), Run.ok_bind, int32_eq (by omega), Run.ok_bind, int32_eq (by omega), Run.ok_bind,
      int32_eq (by omega), Run.ok_bind, int32_eq (by omega), Run.ok_bind, int32_eq (by omega), Run.ok_bind,
      int32_eq (by omega)]
    exact congrArg Except.ok (by omega)

/-! ### Scanning -/

/-- What a scan of `f` from `lo` to `hi` returns. -/
def FirstFrom (f : ℕ → Bool) (lo hi : ℕ) : Bool × ℕ → Prop
  | (true, r) => lo ≤ r ∧ r < hi ∧ f r = true ∧ ∀ k, lo ≤ k → k < r → f k = false
  | (false, r) => r = hi ∧ ∀ k, lo ≤ k → k < hi → f k = false

/-- A scan that goes on from a later place has missed nothing. -/
theorem FirstFrom.extend {f : ℕ → Bool} {lo mid hi : ℕ} {r : Bool × ℕ} (h : FirstFrom f mid hi r)
    (hle : lo ≤ mid) (hnone : ∀ k, lo ≤ k → k < mid → f k = false) : FirstFrom f lo hi r := by
  have hboth : ∀ e, (∀ k, mid ≤ k → k < e → f k = false) → ∀ k, lo ≤ k → k < e → f k = false := by
    intro e he k hk hlt
    rcases lt_or_ge k mid with hkm | hkm
    · exact hnone k hk hkm
    · exact he k hkm hlt
  rcases r with ⟨- | -, r⟩
  · exact ⟨h.1, hboth _ h.2⟩
  · exact ⟨hle.trans h.1, h.2.1, h.2.2.1, hboth _ h.2.2.2⟩

/-- The scan of a word stops at its first bit that is set. -/
theorem scanBits_spec {w : BitVec 32} {f : ℕ → Bool} {n bit : ℕ} (bi : ℕ) (hn : bit + n ≤ 32)
    (hf : ∀ k < n, f (bi + k) = w.getLsbD (bit + k)) : FirstFrom f bi (bi + n) (scanBits w n bit bi) := by
  induction n generalizing bit bi with
  | zero => exact ⟨rfl, fun k hk hlt ↦ absurd hlt hk.not_gt⟩
  | succ n ih =>
    have h0 := hf 0 (Nat.succ_pos n)
    rw [Nat.add_zero, Nat.add_zero] at h0
    rw [scanBits, and_shiftLeft_ne_zero w (show bit < 32 by omega), ← h0]
    split_ifs with hfound
    · exact ⟨le_rfl, by omega, hfound, fun k hk hlt ↦ absurd hlt hk.not_gt⟩
    · have hnext := ih (bi + 1) (show bit + 1 + n ≤ 32 by omega) fun k hk ↦ by
        have h := hf (k + 1) (by omega)
        rwa [← Nat.add_assoc, ← Nat.add_assoc, Nat.add_right_comm, Nat.add_right_comm bit] at h
      rw [show bi + 1 + n = bi + (n + 1) by omega] at hnext
      refine hnext.extend (Nat.le_succ bi) fun k hk hlt ↦ ?_
      rw [show k = bi by omega]
      exact Bool.eq_false_iff.2 hfound

/-- A search may start in the middle of a word only if the word is not zero. -/
def Resumes (v : SetVector) (bi : ℕ) : Prop := 32 ∣ bi ∨ wordAt v (bi / 32) ≠ 0

/-- A bit of a vector is in the word of its index. -/
theorem bit_wordAt (v : SetVector) {k : ℕ} (hk : k < 256) :
    bit v k = (wordAt v (k / 32)).getLsbD (k % 32) := by
  rw [bit, wordAt, dif_pos (by omega), bitSelect, Nat.mod_eq_of_lt hk]
  congr 2
  exact Fin.ext (by simp [wordSelect, Nat.mod_eq_of_lt hk])

/-- **A scan of a vector** from a place where it may start. -/
theorem scanWords_spec {n wo bi : ℕ} (hn : wo + n = 8) (hwo : wo = bi / 32) (hbi : bi ≤ 256)
    (hr : Resumes v bi) : FirstFrom (bit v) bi 256 (scanWords v n wo bi) := by
  induction n generalizing wo bi with
  | zero => exact ⟨by omega, fun k hk hlt ↦ absurd (hk.trans_lt hlt) (by omega)⟩
  | succ n ih =>
    have hword : ∀ k, bi ≤ k → k < 32 * (wo + 1) → bit v k = (wordAt v wo).getLsbD (k % 32) := by
      intro k hk hlt
      rw [bit_wordAt v (by omega), show k / 32 = wo by omega]
    rw [scanWords]
    split_ifs with hzero
    · have hscan := @scanBits_spec (wordAt v wo) (bit v) (32 - bi % 32) (bi % 32) bi (by omega) fun k hk ↦ by
          rw [hword _ (by omega) (by omega)]
          congr 1
          omega
      rcases hres : scanBits (wordAt v wo) (32 - bi % 32) (bi % 32) bi with ⟨- | -, r⟩ <;> rw [hres] at hscan
      · -- the rest of the word is zero
        obtain ⟨rfl, hnone⟩ := hscan
        exact (ih (by omega) (by omega) (by omega) (.inl (by omega))).extend (by omega) hnone
      · obtain ⟨hle, hlt, hfound, hnone⟩ := hscan
        exact ⟨hle, by omega, hfound, hnone⟩
    · rw [not_not] at hzero
      -- a zero word is passed over only from its start on
      have hstart : 32 ∣ bi := hr.resolve_right fun hne ↦ hne (hwo ▸ hzero)
      refine (@ih (wo + 1) (bi + 32) (by omega) (by omega) (by omega) (.inl (by omega))).extend (by omega)
        fun k hk hlt ↦ ?_
      rw [hword k hk (by omega), hzero]
      exact BitVec.getLsbD_zero

/-- Offsets of whole vectors do not change the bit in a vector. -/
theorem bit_add (v : SetVector) (bo k : ℕ) : bit v (256 * bo + k) = bit v k := by
  have h : (256 * bo + k) % 256 = k % 256 := by omega
  simp only [bit, bitSelect, wordSelect, h]

/-- What a scan of `n` vectors from the bit `bi` of the vector `bo` on returns. -/
def FirstPlace (a : Option VArray) (n bo bi : ℕ) : Bool × ℕ × ℕ → Prop
  | (true, bo', bi') => bi' < 256 ∧ bo' < bo + n ∧
    FirstFrom (test a) (256 * bo + bi) (256 * (bo + n)) (true, 256 * bo' + bi')
  | (false, _, bi') => (bi' = 0 ∨ n = 0 ∧ bi' = bi) ∧
    ∀ k, 256 * bo + bi ≤ k → k < 256 * (bo + n) → test a k = false

/-- A vector without further elements is passed over. -/
theorem FirstPlace.skip {n bo bi : ℕ} {r : Bool × ℕ × ℕ} (h : FirstPlace a n (bo + 1) 0 r) (hbi : bi ≤ 256)
    (hnone : ∀ k, bi ≤ k → k < 256 → test a (256 * bo + k) = false) : FirstPlace a (n + 1) bo bi r := by
  have hgap : ∀ k, 256 * bo + bi ≤ k → k < 256 * (bo + 1) → test a k = false := fun k hk hlt ↦ by
    have := hnone (k - 256 * bo) (by omega) (by omega)
    rwa [show 256 * bo + (k - 256 * bo) = k by omega] at this
  rcases r with ⟨- | -, bo', bi'⟩
  · obtain ⟨hzero, hrest⟩ := h
    refine ⟨.inl (hzero.elim id And.right), fun k hk hlt ↦ ?_⟩
    rcases lt_or_ge k (256 * (bo + 1)) with hk' | hk'
    · exact hgap k hk hk'
    · exact hrest k (by omega) (by omega)
  · obtain ⟨h₁, h₂, h₃⟩ := h
    rw [show bo + 1 + n = bo + (n + 1) by omega] at h₃
    exact ⟨h₁, by omega, h₃.extend (by omega) fun k hk hlt ↦ hgap k hk (by omega)⟩

/-- **A scan of an array** from a place where it may start. -/
theorem scanBases_spec {n bo bi : ℕ} (hbi : bi ≤ 256) (hr : ∀ v, vectorAt a bo = some v → Resumes v bi) :
    FirstPlace a n bo bi (scanBases a n bo bi) := by
  induction n generalizing bo bi with
  | zero => exact ⟨.inr ⟨rfl, rfl⟩, fun k hk hlt ↦ absurd hlt (by omega)⟩
  | succ n ih =>
    have hnext := @ih (bo + 1) 0 (Nat.zero_le _) fun v _ ↦ .inl (Nat.dvd_zero 32)
    have htest : ∀ k < 256, test a (256 * bo + k) = bit? (vectorAt a bo) k := fun k hk ↦ by
      rw [test, show base (256 * bo + k) = bo by rw [base]; omega]
      rcases vectorAt a bo with - | v
      · rfl
      · exact bit_add v bo k
    rcases hv : vectorAt a bo with - | v
    · rw [scanBases, hv]
      refine hnext.skip hbi fun k _ hlt ↦ ?_
      rw [htest k hlt, hv, bit?]
    rw [hv] at htest
    have hscan := @scanWords_spec v (8 - bi / 32) (bi / 32) bi (by omega) rfl hbi
      (hr v hv)
    rcases hres : scanWords v (8 - bi / 32) (bi / 32) bi with ⟨- | -, r⟩ <;> rw [hres] at hscan
    · simp only [scanBases, hv, hres]
      refine hnext.skip hbi fun k hk hlt ↦ ?_
      rw [htest k hlt]
      exact hscan.2 k hk hlt
    · obtain ⟨hle, hlt, hfound, hnone⟩ := hscan
      simp only [scanBases, hv, hres]
      refine ⟨hlt, by omega, by omega, by omega, (htest r hlt).trans hfound, fun k hk hkr ↦ ?_⟩
      have hk' := htest (k - 256 * bo) (by omega)
      rw [show 256 * bo + (k - 256 * bo) = k by omega] at hk'
      exact hk'.trans (hnone _ (by omega) (by omega))

/-! ### The iterator -/

/-- Without a bit from `p` on there is nothing left to read. -/
theorem elementsFrom_eq_nil {p : ℕ}
    (h : ∀ k, p ≤ k → k < 256 * maxBase (arrayOf s b) → test (arrayOf s b) k = false) :
    elementsFrom s b p = [] := by
  rw [elementsFrom, List.map_eq_nil_iff, List.filter_eq_nil_iff]
  intro k hk
  rw [List.mem_range'_1] at hk
  rw [h k hk.1 (by omega)]
  exact Bool.false_ne_true

/-- The first bit from `p` on is the next element. -/
theorem elementsFrom_eq_cons {p r : ℕ}
    (h : FirstFrom (test (arrayOf s b)) p (256 * maxBase (arrayOf s b)) (true, r)) :
    elementsFrom s b p = b.factor * r :: elementsFrom s b (r + 1) := by
  obtain ⟨hle, hlt, hfound, hnone⟩ := h
  have hsplit : List.range' p (256 * maxBase (arrayOf s b) - p) =
      List.range' p (r - p) ++ r :: List.range' (r + 1) (256 * maxBase (arrayOf s b) - (r + 1)) := by
    rw [← List.range'_succ, show 256 * maxBase (arrayOf s b) - p =
      (r - p) + (256 * maxBase (arrayOf s b) - (r + 1) + 1) by omega, ← List.range'_append_1,
      show p + (r - p) = r by omega]
  have hskip : (List.range' p (r - p)).filter (test (arrayOf s b)) = [] :=
    List.filter_eq_nil_iff.2 fun k hk ↦ by
      rw [List.mem_range'_1] at hk
      rw [hnone k hk.1 (by omega)]
      exact Bool.false_ne_true
  rw [elementsFrom, hsplit, List.filter_append, hskip, List.nil_append, List.filter_cons_of_pos hfound,
    List.map_cons]
  rfl

/-- The sign of the array with the index `va`. -/
def signAt (va : ℕ) : Sign := if va = 0 then .nonneg else .neg

/-- The elements from a place of an array on, and those of the arrays after it. -/
def remaining (s : Option VSet) : ℕ → ℕ → List ℤ
  | 0, p => elementsFrom s .nonneg p ++ elementsFrom s .neg 0
  | 1, p => elementsFrom s .neg p
  | _, _ => []

/-- What the scan of one array finds. -/
theorem scanBases_elements {set : VSet} {bo bi : ℕ} (hbi : bi ≤ 256)
    (hbo : bo < maxBase (set.varray b) ∨ bi = 0)
    (hr : ∀ v, vectorAt (set.varray b) bo = some v → Resumes v bi) :
    match scanBases (set.varray b) (maxBase (set.varray b) - bo) bo bi with
    | (true, bo', bi') => bi' < 256 ∧ test (set.varray b) (256 * bo' + bi') = true ∧
      elementsFrom (some set) b (256 * bo + bi) =
        b.factor * ↑(256 * bo' + bi') :: elementsFrom (some set) b (256 * bo' + bi' + 1)
    | (false, _, bi') => bi' = 0 ∧ elementsFrom (some set) b (256 * bo + bi) = [] := by
  have hscan := scanBases_spec (n := maxBase (set.varray b) - bo) hbi hr
  rcases hres : scanBases (set.varray b) (maxBase (set.varray b) - bo) bo bi with ⟨- | -, bo', bi'⟩ <;>
    rw [hres] at hscan
  · obtain ⟨hzero, hnone⟩ := hscan
    refine ⟨by omega, elementsFrom_eq_nil fun k hk hlt ↦ hnone k hk ?_⟩
    rw [arrayOf_some] at hlt
    omega
  · obtain ⟨hlt, hbo', hfirst⟩ := hscan
    have hle := hfirst.1
    rw [show bo + (maxBase (set.varray b) - bo) = maxBase (set.varray b) by omega] at hfirst
    exact ⟨hlt, hfirst.2.2.1, elementsFrom_eq_cons hfirst⟩

/-- An iterator that has the elements `l` still to return. The first of them has been found, and stands
before the place the iterator is at. -/
def Pending (s : Option VSet) (si : SetIterator) (l : List ℤ) : Prop :=
  si.currentVarray = 2 ∧ l = [] ∨
    ∃ set bi, s = some set ∧ si.currentVarray < 2 ∧ si.currentBit = bi + 1 ∧ bi < 256 ∧
      test (set.varray (signAt si.currentVarray)) (256 * si.currentBase + bi) = true ∧
      si.nxt = (signAt si.currentVarray).factor * ↑(256 * si.currentBase + bi) ∧
      l = si.nxt :: remaining s si.currentVarray (256 * si.currentBase + bi + 1)

/-- A cursor that is moved to a bit that is set has this element and those behind it before it. -/
theorem pending_moveTo {set : VSet} {va bo bi : ℕ} (si : SetIterator) (hva : va < 2) (hbi : bi < 256)
    (htest : test (set.varray (signAt va)) (256 * bo + bi) = true) :
    Pending (some set) (si.moveTo (va, bo, bi))
      ((signAt va).factor * ↑(256 * bo + bi) :: remaining (some set) va (256 * bo + bi + 1)) := by
  have hnxt : (if va ≠ 0 then -1 else 1) * ((bo <<< 8 + bi : ℕ) : ℤ) =
      (signAt va).factor * ((256 * bo + bi : ℕ) : ℤ) := by
    rw [Nat.shiftLeft_eq, signAt, Nat.mul_comm]
    split_ifs <;> first | rfl | omega
  exact .inr ⟨set, bi, rfl, hva, rfl, hbi, htest, hnxt, by rw [SetIterator.moveTo, hnxt]⟩

/-- The search from a place in the array of negative elements. -/
theorem pending_scan_neg {set : VSet} {bo bi : ℕ} (si : SetIterator) (hbi : bi ≤ 256)
    (hbo : bo < maxBase (set.varray .neg) ∨ bi = 0)
    (hr : ∀ v, vectorAt (set.varray .neg) bo = some v → Resumes v bi) :
    Pending (some set) (si.moveTo (scanArrays set [.neg] 1 bo bi))
      (elementsFrom (some set) .neg (256 * bo + bi)) := by
  have hscan := scanBases_elements hbi hbo hr
  rcases hres : scanBases (set.varray .neg) (maxBase (set.varray .neg) - bo) bo bi with
    ⟨- | -, bo', bi'⟩ <;> rw [hres] at hscan <;> simp only [scanArrays, hres]
  · exact .inl ⟨rfl, hscan.2⟩
  · obtain ⟨hlt, htest, hcons⟩ := hscan
    rw [hcons]
    exact pending_moveTo si Nat.one_lt_two hlt htest

/-- **`Set_next` finds the next element** from a place where the search may start. -/
theorem pending_setNext {set : VSet} {si : SetIterator} (hva : si.currentVarray < 2)
    (hbi : si.currentBit ≤ 256)
    (hbo : si.currentBase < maxBase (set.varray (signAt si.currentVarray)) ∨ si.currentBit = 0)
    (hr : ∀ v, vectorAt (set.varray (signAt si.currentVarray)) si.currentBase = some v →
      Resumes v si.currentBit) :
    (setNext (some set) si).1 = si.nxt ∧ Pending (some set) (setNext (some set) si).2
      (remaining (some set) si.currentVarray (256 * si.currentBase + si.currentBit)) := by
  rw [setNext, if_pos hva]
  refine ⟨rfl, ?_⟩
  obtain ⟨va, bo, bi, nxt, finis⟩ := si
  simp only at hva hbi hbo hr ⊢
  rcases va with - | _ | va
  · have hscan := scanBases_elements (b := .nonneg) hbi hbo hr
    simp only [arraysFrom, List.drop_zero, scanArrays, remaining]
    rcases hres : scanBases (set.varray .nonneg) (maxBase (set.varray .nonneg) - bo) bo bi with
      ⟨- | -, bo', bi'⟩ <;> rw [hres] at hscan
    · obtain ⟨rfl, hnil⟩ := hscan
      rw [hnil, List.nil_append]
      exact pending_scan_neg _ (Nat.zero_le _) (.inr rfl) fun v _ ↦ .inl (Nat.dvd_zero 32)
    · obtain ⟨hlt, htest, hcons⟩ := hscan
      rw [hcons]
      exact pending_moveTo _ Nat.zero_lt_two hlt htest
  · exact pending_scan_neg _ hbi hbo hr
  · omega

/-- **`Set_iterator`** has all elements still to return. -/
theorem pending_setIterator (s : Option VSet) (finis : ℤ) : Pending s (setIterator s finis) (elements s) := by
  rcases s with - | set
  · exact .inl ⟨rfl, rfl⟩
  · exact (@pending_setNext _ ⟨0, 0, 0, finis, finis⟩ Nat.zero_lt_two (Nat.zero_le _) (.inr rfl)
      fun v _ ↦ .inl (Nat.dvd_zero 32)).2

/-- **`Set_next`** returns the first of the elements that are left. -/
theorem Pending.setNext {si : SetIterator} {l : List ℤ} (h : Pending s si (x :: l)) :
    exhausted s si = false ∧ (LibSet.setNext s si).1 = x ∧ Pending s (LibSet.setNext s si).2 l := by
  obtain ⟨-, hnil⟩ | ⟨set, bi, rfl, hva, hbit, hbi, htest, -, hl⟩ := h
  · cases hnil
  obtain ⟨rfl, rfl⟩ := List.cons.inj hl
  have hbo : si.currentBase < maxBase (set.varray (signAt si.currentVarray)) := by
    by_contra hle
    have hb : base (256 * si.currentBase + bi) = si.currentBase := by
      rw [base]
      omega
    rw [test_of_le (by rw [hb]; exact not_lt.1 hle)] at htest
    cases htest
  have hr : ∀ v, vectorAt (set.varray (signAt si.currentVarray)) si.currentBase = some v →
      Resumes v si.currentBit := by
    intro v hv
    rw [test, show base (256 * si.currentBase + bi) = si.currentBase by rw [base]; omega, hv, bit?, bit_add,
      bit_wordAt v hbi] at htest
    rw [hbit]
    rcases Nat.decEq ((bi + 1) % 32) 0 with hne | heq
    · -- the word still has the element's bit
      refine .inr fun hzero ↦ ?_
      rw [show (bi + 1) / 32 = bi / 32 by omega] at hzero
      rw [hzero] at htest
      simp at htest
    · exact .inl (Nat.dvd_of_mod_eq_zero heq)
  have hnext := pending_setNext hva (by omega) (.inl hbo) hr
  rw [hbit, ← Nat.add_assoc] at hnext
  refine ⟨?_, hnext⟩
  simp [exhausted, hva]

/-- A cursor with nothing before it says that the set is exhausted. -/
theorem Pending.exhausted {si : SetIterator} (h : Pending s si []) : LibSet.exhausted s si = true := by
  obtain ⟨hva, -⟩ | ⟨set, bi, -, -, -, -, -, -, hl⟩ := h
  · simp [LibSet.exhausted, hva]
  · exact nomatch hl

/-! ### Deleting behind the iterator -/

/-- Deleting does not move the arrays. -/
theorem maxBase_delete {s' : Option VSet} (h : delete s x = .ok s') (b : Sign) :
    maxBase (arrayOf s' b) = maxBase (arrayOf s b) := by
  rcases s with - | set
  · obtain rfl := Except.ok.inj h
    rfl
  obtain ⟨m, -, h⟩ := Run.bind_eq_ok.1 h
  rcases hv : vectorAt (set.varray (sign x)) (base m) with - | v <;> simp only [hv] at h
  · obtain rfl := Except.ok.inj h
    rfl
  obtain ⟨a, hstore, h⟩ := Run.bind_eq_ok.1 h
  obtain rfl := Except.ok.inj h
  rcases eq_or_ne b (sign x) with rfl | hb
  · have hlt : base m < maxBase (set.varray (sign x)) := by
      by_contra hle
      rw [vectorAt_of_le (not_lt.1 hle)] at hv
      exact nomatch hv
    obtain ⟨a', hstore', hmax, -⟩ := store_eq hlt (some (clearBit v m))
    obtain rfl := Except.ok.inj (hstore.symm.trans hstore')
    simpa using hmax
  · simp [hb]

/-- Deleting leaves a set. -/
theorem exists_of_delete {set : VSet} {s' : Option VSet} (h : delete (some set) x = .ok s') :
    ∃ set', s' = some set' := by
  obtain ⟨m, -, h⟩ := Run.bind_eq_ok.1 h
  rcases hv : vectorAt (set.varray (sign x)) (base m) with - | v <;> simp only [hv] at h
  · exact ⟨set, (Except.ok.inj h).symm⟩
  · obtain ⟨a, -, h⟩ := Run.bind_eq_ok.1 h
    exact ⟨_, (Except.ok.inj h).symm⟩

/-- Deleting an element leaves the places of the others as they are. -/
theorem test_delete {s' : Option VSet} (hs : Valid s) (hx : x.natAbs < 2147483648) (h : delete s x = .ok s')
    (hne : b.factor * m ≠ x) : test (arrayOf s' b) m = test (arrayOf s b) m := by
  obtain ⟨r, hr, -, hbits⟩ := computes_delete hs hx
  obtain rfl := Except.ok.inj (h.symm.trans hr)
  have hplace : ¬(b = sign x ∧ m = x.natAbs) := by
    rintro ⟨rfl, rfl⟩
    exact hne (factor_sign x)
  rw [hbits]
  simp [hplace]

/-- Deleting an element that has been passed changes nothing that is still to be read. -/
theorem elementsFrom_delete {s' : Option VSet} {p : ℕ} (hs : Valid s) (hx : x.natAbs < 2147483648)
    (h : delete s x = .ok s') (hmem : x ∉ elementsFrom s b p) : elementsFrom s' b p = elementsFrom s b p := by
  rw [elementsFrom, elementsFrom, maxBase_delete h]
  refine congrArg _ (List.filter_congr fun k hk ↦ ?_)
  rcases eq_or_ne (b.factor * (k : ℤ)) x with rfl | hne
  · -- the place of `x`, which has no bit
    have hk₁ := (List.mem_range'_1.1 hk).1
    have hold : test (arrayOf s b) k = false := Bool.eq_false_iff.2 fun htest ↦
      hmem (mem_elementsFrom.2 ⟨k, hk₁, htest, rfl⟩)
    obtain ⟨r, hr, -, hbits⟩ := computes_delete hs hx
    obtain rfl := Except.ok.inj (h.symm.trans hr)
    rw [hbits]
    simp only [hold, Bool.and_false]
  · exact test_delete hs hx h hne

/-- So the cursor has the same elements before it. -/
theorem Pending.delete {s' : Option VSet} {si : SetIterator} {l : List ℤ} (hP : Pending s si l)
    (hs : Valid s) (hx : x.natAbs < 2147483648) (h : LibSet.delete s x = .ok s') (hmem : x ∉ l) :
    Pending s' si l := by
  obtain hend | ⟨set, bi, rfl, hva, hbit, hbi, htest, hnxt, rfl⟩ := hP
  · exact .inl hend
  obtain ⟨set', rfl⟩ := exists_of_delete h
  rw [List.mem_cons, not_or] at hmem
  have htest' := (test_delete hs hx h (hnxt ▸ Ne.symm hmem.1)).trans htest
  refine .inr ⟨set', bi, rfl, hva, hbit, hbi, htest', hnxt, congrArg (si.nxt :: ·) ?_⟩
  have hrest := hmem.2
  generalize si.currentVarray = va at hva hrest
  rcases va with - | _ | va
  · simp only [remaining, List.mem_append, not_or] at hrest ⊢
    rw [elementsFrom_delete hs hx h hrest.1, elementsFrom_delete hs hx h hrest.2]
  · exact (elementsFrom_delete hs hx h hrest).symm
  · rfl

/-- The same after any number of such deletions. -/
theorem Pending.deletes {si : SetIterator} {l : List ℤ} {ds : List ℤ} (hP : Pending s si l) (hs : Valid s)
    (hds : ∀ x ∈ ds, x.natAbs < 2147483648 ∧ x ∉ l) :
    ∃ s', ds.foldlM LibSet.delete s = .ok s' ∧ Valid s' ∧ Pending s' si l := by
  induction ds generalizing s with
  | nil => exact ⟨s, rfl, hs, hP⟩
  | cons x ds ih =>
    rw [List.forall_mem_cons] at hds
    obtain ⟨⟨hx, hmem⟩, hds⟩ := hds
    obtain ⟨s₁, hrun, hs₁, -⟩ := computes_delete hs hx
    obtain ⟨s', hruns, hs', hP'⟩ := ih (hP.delete hs hx hrun hmem) hs₁ hds
    exact ⟨s', by rw [List.foldlM_cons, hrun, Run.ok_bind, hruns], hs', hP'⟩

/-- **A whole iteration**, by induction on what is left. -/
theorem consume_spec {deletes : List ℤ → List ℤ} (hdeletes : ∀ had, ∀ x ∈ deletes had, x ∈ had)
    {si : SetIterator} {had l : List ℤ} {fuel : ℕ} (hs : Valid s) (hP : Pending s si l)
    (hnodup : (had ++ l).Nodup) (hint : ∀ x ∈ had ++ l, x.natAbs < 2147483648) (hfuel : l.length < fuel) :
    consume deletes fuel s si had = .ok (had ++ l) := by
  induction l generalizing s si had fuel with
  | nil =>
    obtain ⟨fuel, rfl⟩ := Nat.exists_eq_succ_of_ne_zero (Nat.ne_of_gt hfuel)
    rw [consume, if_pos hP.exhausted, List.append_nil]
    rfl
  | cons e l ih =>
    obtain ⟨fuel, rfl⟩ := Nat.exists_eq_succ_of_ne_zero (Nat.ne_of_gt (Nat.zero_lt_of_lt hfuel))
    obtain ⟨hexhausted, he, hP'⟩ := hP.setNext
    rw [List.append_cons] at hnodup hint
    have hdisjoint := (List.nodup_append.1 hnodup).2.2
    obtain ⟨s', hrun, hs', hP''⟩ := Pending.deletes hP' hs fun x hx ↦
      ⟨hint x (List.mem_append_left _ (hdeletes _ x hx)),
        fun hl ↦ hdisjoint x (hdeletes _ x hx) x hl rfl⟩
    have hrest := ih hs' hP'' hnodup hint (Nat.lt_of_succ_lt_succ hfuel)
    rw [consume, hexhausted, List.append_cons]
    simp only [Bool.false_eq_true, if_false, he, hrun, Run.ok_bind]
    exact hrest

/-- `Set_size` counts the elements, `Set_2array` writes as many entries, each element once, and an iterator
gives the same elements in the same order, also to a caller that deletes elements it has had. -/
def Enumerates (s : Option VSet) (finis : ℤ) (deletes : List ℤ → List ℤ) : Prop :=
  ∃ l : List ℤ, size s = .ok l.length ∧ toArray s = .ok l ∧ l.Nodup ∧ (∀ x, x ∈ l ↔ Mem s x) ∧
    ∃ fuel, consume deletes fuel s (setIterator s finis) [] = .ok l

/-- The enumeration is as long as the set is large. -/
theorem ncard_mem (hs : Valid s) : {x | Mem s x}.ncard = (elements s).length := by
  have hset : {x | Mem s x} = ↑(elements s).toFinset := by
    ext x
    rw [List.coe_toFinset, Set.mem_ofPred_eq, Set.mem_ofPred_eq, mem_elements hs]
  rw [hset, Set.ncard_coe_finset, List.toFinset_card_of_nodup (nodup_elements hs)]

/-- **Listing the elements** works if and only if there are fewer than `2^31` of them. -/
theorem enumerates_iff (hs : Built s) (finis : ℤ) {deletes : List ℤ → List ℤ}
    (hdeletes : ∀ had, ∀ x ∈ deletes had, x ∈ had) :
    Enumerates s finis deletes ↔ {x | Mem s x}.ncard ≤ 2147483647 := by
  have hv := hs.valid
  rw [ncard_mem hv]
  constructor
  · rintro ⟨l, hsize, -⟩
    exact (size_eq_ok.1 hsize).1
  · intro hle
    refine ⟨elements s, size_eq_ok.2 ⟨hle, rfl⟩, toArray_eq_ok.2 ⟨hle, rfl⟩, nodup_elements hv,
      fun x ↦ mem_elements hv, (elements s).length + 1, ?_⟩
    refine consume_spec hdeletes hv (pending_setIterator s finis) (nodup_elements hv) (fun x hx ↦ ?_)
      (Nat.lt_succ_self _)
    exact hv.proper.lt _ _ ((mem_elements hv).1 hx)

/-- Two elements, each deleted as soon as it has been had. -/
theorem enumerates_iff_deleting :
    ∃ s, (add none 5 >>= (add · (-300))) = .ok s ∧ Enumerates s (-1) id :=
  ⟨_, rfl, (enumerates_iff (.add (.add .null (x := 5) rfl) (x := -300) rfl) (-1) fun _ _ h ↦ h).2 (by
    rw [ncard_mem (Built.valid (.add (.add .null (x := 5) rfl) (x := -300) rfl))]
    decide +kernel)⟩

/-- The numbers below `n`, added one after the other. -/
theorem exists_built_lt {n : ℕ} (hn : n ≤ 2147483648) :
    ∃ s, Built s ∧ ∀ x, Mem s x ↔ 0 ≤ x ∧ x < n := by
  induction n with
  | zero => exact ⟨none, .null, fun x ↦ by simp [Mem]⟩
  | succ n ih =>
    obtain ⟨s, hs, hmem⟩ := ih (by omega)
    obtain ⟨r, hrun, -, hbits⟩ := computes_add hs.valid (x := n) (by omega)
    refine ⟨r, .add hs hrun, fun x ↦ ?_⟩
    have hx : Mem r x ↔ x = n ∨ Mem s x := by
      rw [Mem, hbits, Bool.or_eq_true, decide_eq_true_iff, place_eq_iff]
      rfl
    rw [hx, hmem]
    omega

/-- With all `int`s that are not negative the counts leave the range of `int`. -/
theorem not_enumerates_nonneg :
    ∃ s, Built s ∧ (∀ x, Mem s x ↔ 0 ≤ x ∧ x ≤ 2147483647) ∧ ¬Enumerates s (-1) id := by
  obtain ⟨s, hs, hmem⟩ := exists_built_lt le_rfl
  refine ⟨s, hs, fun x ↦ (hmem x).trans (and_congr_right fun _ ↦ Int.lt_add_one_iff (b := 2147483647)), ?_⟩
  rintro ⟨l, hsize, -⟩
  have hle := (size_eq_ok.1 hsize).1
  have hset : {x | Mem s x} = ↑(Finset.Ico (0 : ℤ) 2147483648) := by
    ext x
    rw [Finset.coe_Ico]
    exact hmem x
  rw [← ncard_mem hs.valid, hset, Set.ncard_coe_finset, Int.card_Ico] at hle
  omega

end OpenImpact.LibSet
