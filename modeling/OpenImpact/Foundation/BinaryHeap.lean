import Mathlib.Data.Finset.Image
import Mathlib.Logic.Equiv.Basic
import Mathlib.Order.Interval.Finset.Nat

/-!
# Binary heaps by position

The contents `f` of the positions `1, …, n` of a complete binary tree, where `i / 2` is the parent of
`i`. What a swap does to the order on the way up (`UpOrder.swap`) and on the way down
(`DownFrom.swap`), and that it keeps the contents (`contents_swap`), for any order `above` in which
"not above" is transitive. A heap that is built from its last parent on is one `HeapFrom` there.
-/

namespace OpenImpact.Foundation.BinaryHeap

variable {α : Type*} {above : α → α → Prop} {k n i j c : ℕ} {f : ℕ → α}

/-- No position is above its parent. -/
def IsHeap (above : α → α → Prop) (n : ℕ) (f : ℕ → α) : Prop :=
  ∀ i, 2 ≤ i → i ≤ n → ¬above (f i) (f (i / 2))

/-- The order on the way up: only position `j` may be above its parent. -/
structure UpOrder (above : α → α → Prop) (n : ℕ) (f : ℕ → α) (j : ℕ) : Prop where
  order : ∀ i, 2 ≤ i → i ≤ n → i ≠ j → ¬above (f i) (f (i / 2))
  /-- The children of `j` are not above the parent of `j`. -/
  grand : 2 ≤ j → ∀ c, c ≤ n → c / 2 = j → ¬above (f c) (f (j / 2))

/-- The order on the way down: only the children of position `j` may be above it. -/
structure DownOrder (above : α → α → Prop) (n : ℕ) (f : ℕ → α) (j : ℕ) : Prop where
  order : ∀ i, 2 ≤ i → i ≤ n → i / 2 ≠ j → ¬above (f i) (f (i / 2))
  /-- The children of `j` are not above the parent of `j`. -/
  grand : 2 ≤ j → ∀ c, c ≤ n → c / 2 = j → ¬above (f c) (f (j / 2))

/-- No position is above its parent, where the parent is at `k` or behind. -/
def HeapFrom (above : α → α → Prop) (k n : ℕ) (f : ℕ → α) : Prop :=
  ∀ i, k ≤ i / 2 → i ≤ n → ¬above (f i) (f (i / 2))

/-- The order on the way down, for the parents at `k` or behind. -/
structure DownFrom (above : α → α → Prop) (k n : ℕ) (f : ℕ → α) (j : ℕ) : Prop where
  order : ∀ i, k ≤ i / 2 → i ≤ n → i / 2 ≠ j → ¬above (f i) (f (i / 2))
  /-- The children of `j` are not above the parent of `j`. -/
  grand : k ≤ j / 2 → ∀ c, c ≤ n → c / 2 = j → ¬above (f c) (f (j / 2))

/-! ### Steps -/

section

variable (hasymm : ∀ x y, above x y → ¬above y x)
  (htrans : ∀ x y z, ¬above x y → ¬above y z → ¬above x z)

include hasymm htrans in
/-- **A swap with the parent** takes the exception one level up. -/
theorem UpOrder.swap (h : UpOrder above n f j) (hj : 2 ≤ j) (hab : above (f j) (f (j / 2))) :
    UpOrder above n (f ∘ Equiv.swap j (j / 2)) (j / 2) := by
  have hself : (f ∘ Equiv.swap j (j / 2)) j = f (j / 2) := by simp
  have hparent : (f ∘ Equiv.swap j (j / 2)) (j / 2) = f j := by simp
  have hother : ∀ i, i ≠ j → i ≠ j / 2 → (f ∘ Equiv.swap j (j / 2)) i = f i := fun i hij hip ↦ by
    simp [Equiv.swap_apply_of_ne_of_ne hij hip]
  refine ⟨fun i hi hin hip ↦ ?_, fun hj2 c hc hcp ↦ ?_⟩
  · by_cases hij : i = j
    · rw [hij, hself, hparent]
      exact hasymm _ _ hab
    rw [hother i hij hip]
    by_cases hchild : i / 2 = j
    · rw [hchild, hself]
      exact h.grand hj i hin hchild
    by_cases hsibling : i / 2 = j / 2
    · rw [hsibling, hparent]
      exact htrans _ _ _ (hsibling ▸ h.order i hi hin hij) (hasymm _ _ hab)
    · rw [hother _ hchild hsibling]
      exact h.order i hi hin hij
  · have hup : (f ∘ Equiv.swap j (j / 2)) (j / 2 / 2) = f (j / 2 / 2) :=
      hother _ (by omega) (by omega)
    rw [hup]
    by_cases hcj : c = j
    · rw [hcj, hself]
      exact h.order (j / 2) hj2 (by omega) (by omega)
    · rw [hother c hcj (by omega)]
      exact htrans _ _ _ (hcp ▸ h.order c (by omega) hc hcj) (h.order (j / 2) hj2 (by omega) (by omega))

theorem UpOrder.isHeap (h : UpOrder above n f j) (hdone : 2 ≤ j → ¬above (f j) (f (j / 2))) :
    IsHeap above n f := by
  intro i hi hin
  by_cases hij : i = j
  · exact hij ▸ hdone (hij ▸ hi)
  · exact h.order i hi hin hij

include hasymm in
/-- **A swap with the child that no other child is above** takes the exception one level down. -/
theorem DownFrom.swap (h : DownFrom above k n f j) (hkj : k ≤ j) (hj : 1 ≤ j) (hcj : c / 2 = j)
    (hab : above (f c) (f j)) (hbest : ∀ d, d ≤ n → d / 2 = j → ¬above (f d) (f c)) (hcn : c ≤ n) :
    DownFrom above k n (f ∘ Equiv.swap c j) c := by
  have hchild : (f ∘ Equiv.swap c j) c = f j := by simp
  have hself : (f ∘ Equiv.swap c j) j = f c := by simp
  have hother : ∀ i, i ≠ c → i ≠ j → (f ∘ Equiv.swap c j) i = f i := fun i hic hij ↦ by
    simp [Equiv.swap_apply_of_ne_of_ne hic hij]
  refine ⟨fun i hi hin hic ↦ ?_, fun _ d hd hdc ↦ ?_⟩
  · rcases eq_or_ne i c with heq | hne
    · rw [heq, hcj, hchild, hself]
      exact hasymm _ _ hab
    rcases eq_or_ne (i / 2) j with hsibling | hother_parent
    · rw [hsibling, hself, hother i hne (by omega)]
      exact hbest i hin hsibling
    rcases eq_or_ne i j with rfl | hij
    · rw [hself, hother _ (by omega) hother_parent]
      exact h.grand hi c hcn hcj
    · rw [hother i hne hij, hother _ hic hother_parent]
      exact h.order i hi hin hother_parent
  · rw [hcj, hself, hother d (by omega) (by omega)]
    exact hdc ▸ h.order d (by omega) hd (by omega)

theorem DownFrom.heapFrom (h : DownFrom above k n f j)
    (hdone : ∀ d, d ≤ n → d / 2 = j → ¬above (f d) (f j)) : HeapFrom above k n f := by
  intro i hi hin
  rcases eq_or_ne (i / 2) j with hij | hij
  · exact hij ▸ hdone i hin hij
  · exact h.order i hi hin hij

theorem heapFrom_one : HeapFrom above 1 n f ↔ IsHeap above n f :=
  ⟨fun h i hi hin ↦ h i (by omega) hin, fun h i hi hin ↦ h i (by omega) hin⟩

theorem downFrom_one : DownFrom above 1 n f j ↔ DownOrder above n f j :=
  ⟨fun h ↦ ⟨fun i hi ↦ h.order i (by omega), fun hj ↦ h.grand (by omega)⟩,
    fun h ↦ ⟨fun i hi ↦ h.order i (by omega), fun hj ↦ h.grand (by omega)⟩⟩

/-- The order below the last parents is empty. -/
theorem heapFrom_half (above : α → α → Prop) (n : ℕ) (f : ℕ → α) :
    HeapFrom above (n / 2 + 1) n f := by
  intro i hi hin
  omega

/-- One more parent, which its children may be above. -/
theorem HeapFrom.downFrom (h : HeapFrom above (k + 1) n f) (hk : 1 ≤ k) : DownFrom above k n f k :=
  ⟨fun i hi hin hne ↦ h i (by omega) hin, fun hle ↦ by omega⟩

include hasymm in
/-- The swap on the way down in a whole heap. -/
theorem DownOrder.swap (h : DownOrder above n f j) (hj : 1 ≤ j) (hcj : c / 2 = j)
    (hab : above (f c) (f j)) (hbest : ∀ d, d ≤ n → d / 2 = j → ¬above (f d) (f c)) (hcn : c ≤ n) :
    DownOrder above n (f ∘ Equiv.swap c j) c :=
  downFrom_one.1 ((downFrom_one.2 h).swap hasymm hj hj hcj hab hbest hcn)

theorem DownOrder.isHeap (h : DownOrder above n f j)
    (hdone : ∀ d, d ≤ n → d / 2 = j → ¬above (f d) (f j)) : IsHeap above n f :=
  heapFrom_one.1 ((downFrom_one.2 h).heapFrom hdone)

include hasymm htrans in
/-- **Nothing is above the top.** -/
theorem IsHeap.not_above_top (h : IsHeap above n f) (hi : 1 ≤ i) (hin : i ≤ n) :
    ¬above (f i) (f 1) := by
  induction i using Nat.strong_induction_on with
  | _ i ih =>
    by_cases hone : i = 1
    · rw [hone]
      exact fun hab ↦ hasymm _ _ hab hab
    · exact htrans _ _ _ (h i (by omega) hin) (ih (i / 2) (by omega) (by omega) (by omega))

end

/-! ### Growing and shrinking -/

/-- A new last position may be above its parent. -/
theorem IsHeap.upOrder (h : IsHeap above n f) (x : α) :
    UpOrder above (n + 1) (Function.update f (n + 1) x) (n + 1) := by
  refine ⟨fun i hi hin hne ↦ ?_, fun _ c hc hcn ↦ ?_⟩
  · rw [Function.update_of_ne hne, Function.update_of_ne (by omega)]
    exact h i hi (by omega)
  · omega

/-- After the last position is put on top, its children may be above it. -/
theorem IsHeap.downOrder (h : IsHeap above (n + 1) f) :
    DownOrder above n (Function.update f 1 (f (n + 1))) 1 := by
  refine ⟨fun i hi hin hne ↦ ?_, fun hone ↦ ?_⟩
  · rw [Function.update_of_ne (by omega), Function.update_of_ne hne]
    exact h i hi (by omega)
  · omega

/-! ### Contents -/

/-- The contents of the positions, with multiplicity. -/
def contents (n : ℕ) (f : ℕ → α) : Multiset α := (Finset.Icc 1 n).val.map f

@[simp] theorem contents_zero (f : ℕ → α) : contents 0 f = 0 := rfl

theorem contents_congr {g : ℕ → α} (h : ∀ i, 1 ≤ i → i ≤ n → f i = g i) :
    contents n f = contents n g :=
  Multiset.map_congr rfl fun i hi ↦ by
    obtain ⟨h₁, h₂⟩ := Finset.mem_Icc.1 (show i ∈ Finset.Icc 1 n from hi)
    exact h i h₁ h₂

theorem contents_succ (n : ℕ) (f : ℕ → α) : contents (n + 1) f = f (n + 1) ::ₘ contents n f := by
  have hnot : n + 1 ∉ Finset.Icc 1 n := by simp
  have hIcc : Finset.Icc 1 (n + 1) = Finset.cons (n + 1) (Finset.Icc 1 n) hnot := by
    ext i
    simp only [Finset.mem_Icc, Finset.mem_cons]
    omega
  rw [contents, hIcc, Finset.cons_val, Multiset.map_cons]
  rfl

theorem mem_contents {x : α} : x ∈ contents n f ↔ ∃ i, (1 ≤ i ∧ i ≤ n) ∧ f i = x := by
  simp [contents]

/-- **A swap keeps the contents.** -/
theorem contents_swap (hi : 1 ≤ i) (hin : i ≤ n) (hj : 1 ≤ j) (hjn : j ≤ n) :
    contents n (f ∘ Equiv.swap i j) = contents n f := by
  have hperm : (Finset.Icc 1 n).map (Equiv.swap i j).toEmbedding = Finset.Icc 1 n := by
    refine Finset.map_perm fun k hk ↦ ?_
    rcases Equiv.swap_apply_ne_self_iff.1 hk with ⟨-, rfl | rfl⟩
    · exact Finset.mem_coe.2 (Finset.mem_Icc.2 ⟨hi, hin⟩)
    · exact Finset.mem_coe.2 (Finset.mem_Icc.2 ⟨hj, hjn⟩)
  calc contents n (f ∘ Equiv.swap i j)
      = ((Finset.Icc 1 n).map (Equiv.swap i j).toEmbedding).val.map f := by
        rw [Finset.map_val, Multiset.map_map]
        rfl
    _ = contents n f := by rw [hperm, contents]

/-- **Putting the last on top** removes what was there. -/
theorem contents_pop (n : ℕ) (f : ℕ → α) :
    contents (n + 1) f = f 1 ::ₘ contents n (Function.update f 1 (f (n + 1))) := by
  rcases Nat.eq_zero_or_pos n with rfl | hn
  · rw [contents_succ]
    rfl
  · have hone : (f ∘ Equiv.swap 1 (n + 1)) (n + 1) = f 1 := by simp
    rw [← contents_swap (i := 1) (j := n + 1) le_rfl (by omega) (by omega) le_rfl, contents_succ, hone]
    congr 1
    refine contents_congr fun i hi hin ↦ ?_
    by_cases hi1 : i = 1
    · simp [hi1]
    · simp [hi1, Equiv.swap_apply_of_ne_of_ne hi1 (by omega : i ≠ n + 1)]

end OpenImpact.Foundation.BinaryHeap
