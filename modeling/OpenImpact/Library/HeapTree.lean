import OpenImpact.Library.Heap

/-!
# The tree of a heap in memory

`Linked H addr f`: the nodes of `H` are a complete binary tree, position `i` at address `addr i` with
contents `f i`. The walk along the digits of the size ends at the parent of the last node, and of the
next one (`Linked.findParent`). Swaps, a new last node and its removal keep a linked tree.
-/

namespace OpenImpact.Heaps

open Foundation.BinaryHeap

variable {W E : Type} {H : Heap W E} {addr : ℕ → Addr} {f : ℕ → W × E} {n i j b c : ℕ}

/-! ### The tree in memory -/

/-- The pointer to position `j` of a tree with `n` nodes. -/
def link (addr : ℕ → Addr) (n j : ℕ) : Option Addr := if 1 ≤ j ∧ j ≤ n then some (addr j) else none

/-- The node at position `i` of a tree with `n` nodes. -/
def nodeAt (addr : ℕ → Addr) (n : ℕ) (f : ℕ → W × E) (i : ℕ) : HeapNode W E :=
  ⟨(f i).1, (f i).2, link addr n (i / 2), link addr n (2 * i), link addr n (2 * i + 1)⟩

/-- The nodes of `H` are the complete binary tree of `H.size` nodes with position `i` at address
`addr i`. -/
structure Linked (H : Heap W E) (addr : ℕ → Addr) (f : ℕ → W × E) : Prop where
  heap : H.heap = link addr H.size 1
  node : ∀ i, 1 ≤ i → i ≤ H.size → H.mem (addr i) = some (nodeAt addr H.size f i)
  inj : ∀ i j, 1 ≤ i → i ≤ H.size → 1 ≤ j → j ≤ H.size → addr i = addr j → i = j
  lt_fresh : ∀ i, 1 ≤ i → i ≤ H.size → addr i < H.fresh
  /-- Nothing else is allocated. -/
  only : ∀ a node, H.mem a = some node → ∃ i, (1 ≤ i ∧ i ≤ H.size) ∧ addr i = a

theorem link_of_le (hj : 1 ≤ j) (hjn : j ≤ n) : link addr n j = some (addr j) := if_pos ⟨hj, hjn⟩

theorem link_of_lt (hj : n < j) : link addr n j = none := if_neg (by omega)

@[simp] theorem link_zero : link addr n 0 = none := if_neg (by omega)

theorem Linked.deref (h : Linked H addr f) (hi : 1 ≤ i) (hin : i ≤ H.size) :
    H.deref (some (addr i)) = .ok (nodeAt addr H.size f i) := by
  simp only [Heap.deref, h.node i hi hin]
  rfl

/-! ### Finding the place -/

/-- Up to thirty binary digits are counted. -/
theorem countBits_eq {size k : ℕ} (hle : 2 ^ k ≤ size) (hlt : size < 2 ^ (k + 1)) (shifts pt : ℕ)
    (hpt : pt ≤ k + 1) :
    countBits size shifts pt = if k + 1 < pt + shifts then .ok (k + 1) else .error .overflow := by
  induction shifts generalizing pt with
  | zero => rw [if_neg (by omega), countBits]; rfl
  | succ shifts ih =>
    rw [countBits, Nat.one_shiftLeft]
    by_cases hk : pt = k + 1
    · rw [if_neg (by rw [hk]; omega), if_pos (by omega), hk]
      rfl
    · have hpow : 2 ^ pt ≤ 2 ^ k := Nat.pow_le_pow_right (by omega) (by omega)
      rw [if_pos (hpow.trans hle), ih (pt + 1) (by omega)]
      exact if_congr (by omega) rfl rfl

/-- The digits of `size` from the highest on are the turns from the top to its parent. -/
theorem Linked.walkDown (h : Linked H addr f) (size : ℕ) (hsize : size / 2 ≤ H.size) (pt : ℕ)
    (hone : 1 ≤ size / 2 ^ (pt + 1)) :
    walkDown H size (pt + 1) (some (addr (size / 2 ^ (pt + 1)))) = .ok (some (addr (size / 2))) := by
  induction pt with
  | zero => rw [Heaps.walkDown]; rfl
  | succ pt ih =>
    have hhalf : size / 2 ^ (pt + 1 + 1) = size / 2 ^ (pt + 1) / 2 := by
      rw [Nat.div_div_eq_div_mul, ← pow_succ]
    have hup : size / 2 ^ (pt + 1) ≤ size / 2 :=
      Nat.div_le_div_left (Nat.le_self_pow (by omega) 2) (by omega)
    rw [Heaps.walkDown, h.deref hone (by omega), Run.ok_bind, Nat.testBit_eq_decide_div_mod_eq,
      nodeAt]
    by_cases hbit : size / 2 ^ (pt + 1) % 2 = 1
    · have hnext : 2 * (size / 2 ^ (pt + 1 + 1)) + 1 = size / 2 ^ (pt + 1) := by omega
      simp only [hbit, decide_true, if_true]
      rw [hnext, link_of_le (by omega) (by omega)]
      exact ih (by omega)
    · have hnext : 2 * (size / 2 ^ (pt + 1 + 1)) = size / 2 ^ (pt + 1) := by omega
      simp only [hbit, decide_false, Bool.false_eq_true, if_false]
      rw [hnext, link_of_le (by omega) (by omega)]
      exact ih (by omega)

/-- **The digits of the size lead to the parent**, for the last node and for the next one. -/
theorem Linked.findParent (h : Linked H addr f) {size : ℕ} (htwo : 2 ≤ size)
    (hsize : size ≤ H.size + 1) (hfits : size < 2 ^ 30) :
    findParent H size = .ok (some (addr (size / 2))) := by
  obtain ⟨k, hk⟩ : ∃ k, Nat.log2 size = k + 1 := Nat.exists_eq_succ_of_ne_zero fun hzero ↦ by
    have := (Nat.log2_lt (by omega)).1 (hzero ▸ Nat.lt_succ_self _ : Nat.log2 size < 1)
    omega
  have hlt : size < 2 ^ (k + 1 + 1) := (Nat.log2_lt (by omega)).1 (by omega)
  have hle : 2 ^ (k + 1) ≤ size := (Nat.le_log2 (by omega)).1 hk.ge
  have hk30 : k + 1 < 30 := hk ▸ (Nat.log2_lt (by omega)).2 hfits
  have htop : size / 2 ^ (k + 1) = 1 := by
    have h₁ : size / 2 ^ (k + 1) < 2 := Nat.div_lt_of_lt_mul (by rw [← pow_succ]; exact hlt)
    have h₂ : 1 ≤ size / 2 ^ (k + 1) := (Nat.one_le_div_iff (Nat.two_pow_pos _)).2 hle
    omega
  rw [Heaps.findParent, countBits_eq hle hlt 31 0 (by omega), if_pos (by omega), Run.ok_bind, h.heap,
    link_of_le le_rfl (by omega)]
  have hwalk := h.walkDown size (by omega) k (by omega)
  rwa [htop] at hwalk

theorem findParent_one : findParent H 1 = .ok H.heap := by
  rw [findParent, countBits_eq (k := 0) (by omega) (by omega) 31 0 (by omega), if_pos (by omega)]
  rfl

/-- From `2 ^ 30` on the digits are not counted to the end. -/
theorem findParent_overflow {size : ℕ} (hsize : 2 ^ 30 ≤ size) :
    findParent H size = .error .overflow := by
  have hlog : 30 ≤ Nat.log2 size := (Nat.le_log2 (by omega)).2 hsize
  rw [findParent, countBits_eq ((Nat.le_log2 (by omega)).1 le_rfl) ((Nat.log2_lt (by omega)).1
    (Nat.lt_succ_self _)) 31 0 (by omega), if_neg (by omega)]
  rfl

/-! ### Swapping -/

/-- `Heap_NodeSwap` swaps the contents of two positions. -/
theorem Linked.nodeSwap (h : Linked H addr f) (hi : 1 ≤ i) (hin : i ≤ H.size) (hj : 1 ≤ j)
    (hjn : j ≤ H.size) (hij : i ≠ j) :
    ∃ H', nodeSwap H (addr i) (addr j) = .ok H' ∧ Linked H' addr (f ∘ Equiv.swap i j) ∧
      H'.size = H.size ∧ H'.dir = H.dir := by
  refine ⟨(H.set (addr i) { nodeAt addr H.size f i with weight := (f j).1, element := (f j).2 }).set
    (addr j) { nodeAt addr H.size f j with weight := (f i).1, element := (f i).2 }, ?_, ?_, rfl, rfl⟩
  · rw [Heaps.nodeSwap, h.deref hi hin, Run.ok_bind, h.deref hj hjn]
    rfl
  have hne : addr i ≠ addr j := fun heq ↦ hij (h.inj i j hi hin hj hjn heq)
  refine ⟨h.heap, fun k hk hkn ↦ ?_, h.inj, h.lt_fresh, fun a node hnode ↦ ?_⟩
  · by_cases hkj : k = j
    · rw [hkj, Heap.set_mem_self, nodeAt]
      simp [nodeAt]
    have hkj' : addr k ≠ addr j := fun heq ↦ hkj (h.inj k j hk hkn hj hjn heq)
    rw [Heap.set_mem_of_ne _ hkj']
    by_cases hki : k = i
    · rw [hki, Heap.set_mem_self, nodeAt]
      simp [nodeAt]
    · have hki' : addr k ≠ addr i := fun heq ↦ hki (h.inj k i hk hkn hi hin heq)
      rw [Heap.set_mem_of_ne _ hki', h.node k hk hkn]
      simp [nodeAt, Equiv.swap_apply_of_ne_of_ne hki hkj]
  · by_cases haj : a = addr j
    · exact ⟨j, ⟨hj, hjn⟩, haj.symm⟩
    by_cases hai : a = addr i
    · exact ⟨i, ⟨hi, hin⟩, hai.symm⟩
    · refine h.only a node ?_
      rwa [Heap.set_mem_of_ne _ haj, Heap.set_mem_of_ne _ hai] at hnode

/-! ### The last node -/

theorem link_grow {a : Addr} (hj : j ≠ n + 1) :
    link (Function.update addr (n + 1) a) (n + 1) j = link addr n j := by
  by_cases hn : 1 ≤ j ∧ j ≤ n
  · rw [link, if_pos (by omega), link, if_pos hn, Function.update_of_ne hj]
  · rw [link, if_neg (by omega), link, if_neg hn]

theorem link_shrink (hj : j ≠ n + 1) : link addr (n + 1) j = link addr n j :=
  if_congr (by omega) rfl rfl

/-- The parent of the new last node gets one more child. -/
theorem nodeAt_grow {a : Addr} (x : W × E) (hin : i ≤ n) :
    nodeAt (Function.update addr (n + 1) a) (n + 1) (Function.update f (n + 1) x) i =
      if (n + 1) / 2 = i then
        if (n + 1).testBit 0 then { nodeAt addr n f i with right := some a }
        else { nodeAt addr n f i with left := some a }
      else nodeAt addr n f i := by
  have hnew : link (Function.update addr (n + 1) a) (n + 1) (n + 1) = some a := by
    rw [link_of_le (by omega) le_rfl, Function.update_self]
  rw [nodeAt, Function.update_of_ne (by omega), link_grow (j := i / 2) (by omega)]
  by_cases hpar : (n + 1) / 2 = i
  · rw [if_pos hpar, Nat.testBit_zero]
    by_cases hodd : (n + 1) % 2 = 1
    · rw [show 2 * i + 1 = n + 1 by omega, hnew, link_grow (by omega)]
      simp [hodd, nodeAt]
    · rw [show 2 * i = n + 1 by omega, hnew, link_grow (by omega)]
      simp only [hodd, decide_false, Bool.false_eq_true, if_false, nodeAt]
      rw [show 2 * i = n + 1 by omega]
  · rw [if_neg hpar, link_grow (by omega), link_grow (by omega), nodeAt]

/-- The parent of the removed last node loses a child. -/
theorem nodeAt_shrink (hin : i ≤ n) :
    nodeAt addr n f i =
      if (n + 1) / 2 = i then
        if (n + 1).testBit 0 then { nodeAt addr (n + 1) f i with right := none }
        else { nodeAt addr (n + 1) f i with left := none }
      else nodeAt addr (n + 1) f i := by
  have hlast : link addr n (n + 1) = none := link_of_lt (by omega)
  rw [nodeAt, nodeAt, link_shrink (j := i / 2) (by omega)]
  by_cases hpar : (n + 1) / 2 = i
  · rw [if_pos hpar, Nat.testBit_zero]
    by_cases hodd : (n + 1) % 2 = 1
    · rw [show 2 * i + 1 = n + 1 by omega, hlast, link_shrink (j := 2 * i) (by omega)]
      simp [hodd]
    · rw [show 2 * i = n + 1 by omega, hlast, link_shrink (j := n + 1 + 1) (by omega)]
      simp only [hodd, decide_false, Bool.false_eq_true, if_false]
  · rw [if_neg hpar, link_shrink (by omega), link_shrink (by omega)]

/-- **A new last node**, linked to its parent. -/
theorem Linked.grow (h : Linked H addr f) (hpos : 1 ≤ H.size) (x : W × E) {parent : HeapNode W E}
    (hparent : parent = if (H.size + 1).testBit 0 then
        { nodeAt addr H.size f ((H.size + 1) / 2) with right := some H.fresh }
      else { nodeAt addr H.size f ((H.size + 1) / 2) with left := some H.fresh }) :
    Linked (({ H with size := H.size + 1, fresh := H.fresh + 1 }.set (addr ((H.size + 1) / 2)) parent).set
      H.fresh ⟨x.1, x.2, some (addr ((H.size + 1) / 2)), none, none⟩)
      (Function.update addr (H.size + 1) H.fresh) (Function.update f (H.size + 1) x) := by
  have hnew : ∀ i, 1 ≤ i → i ≤ H.size → addr i ≠ H.fresh := fun i hi hin ↦ (h.lt_fresh i hi hin).ne
  have hold : ∀ i, i ≤ H.size → Function.update addr (H.size + 1) H.fresh i = addr i := fun i hi ↦
    Function.update_of_ne (by omega) _ _
  have hself : Function.update addr (H.size + 1) H.fresh (H.size + 1) = H.fresh :=
    Function.update_self ..
  refine ⟨?_, fun k hk hkn ↦ ?_, fun i j hi hin hj hjn heq ↦ ?_, fun i hi hin ↦ ?_,
    fun a node hnode ↦ ?_⟩
  · exact h.heap.trans (link_grow (by omega)).symm
  · simp only [Heap.set_size] at hkn ⊢
    rcases hkn.lt_or_eq with hlt | rfl
    · rw [hold k (by omega), Heap.set_mem_of_ne _ (hnew k hk (by omega)),
        nodeAt_grow x (by omega : k ≤ H.size)]
      by_cases hpk : (H.size + 1) / 2 = k
      · rw [if_pos hpk, ← hpk, Heap.set_mem_self, hparent]
      · have hne : addr k ≠ addr ((H.size + 1) / 2) := fun heq ↦
          hpk (h.inj k _ hk (by omega) (by omega) (by omega) heq).symm
        rw [if_neg hpk, Heap.set_mem_of_ne _ hne]
        exact h.node k hk (by omega)
    · rw [hself, Heap.set_mem_self, nodeAt, Function.update_self, link_grow (by omega),
        link_of_le (by omega) (by omega), link_of_lt (by omega), link_of_lt (by omega)]
  · simp only [Heap.set_size] at hin hjn
    rcases hin.lt_or_eq with hi' | rfl <;> rcases hjn.lt_or_eq with hj' | rfl
    · rw [hold i (by omega), hold j (by omega)] at heq
      exact h.inj i j hi (by omega) hj (by omega) heq
    · rw [hold i (by omega), hself] at heq
      exact absurd heq (hnew i hi (by omega))
    · rw [hold j (by omega), hself] at heq
      exact absurd heq.symm (hnew j hj (by omega))
    · rfl
  · simp only [Heap.set_size, Heap.set_fresh] at hin ⊢
    rcases hin.lt_or_eq with hi' | rfl
    · rw [hold i (by omega)]
      exact (h.lt_fresh i hi (by omega)).trans (Nat.lt_succ_self _)
    · rw [hself]
      exact Nat.lt_succ_self _
  · simp only [Heap.set_size]
    by_cases ha : a = H.fresh
    · exact ⟨H.size + 1, ⟨by omega, le_rfl⟩, hself.trans ha.symm⟩
    rw [Heap.set_mem_of_ne _ ha] at hnode
    by_cases hap : a = addr ((H.size + 1) / 2)
    · exact ⟨(H.size + 1) / 2, ⟨by omega, by omega⟩, (hold _ (by omega)).trans hap.symm⟩
    rw [Heap.set_mem_of_ne _ hap] at hnode
    obtain ⟨i, ⟨hi, hin⟩, heq⟩ := h.only a node hnode
    exact ⟨i, ⟨hi, by omega⟩, (hold i hin).trans heq⟩

/-- **The only node** of a new tree. -/
theorem Linked.first (h : Linked H addr f) (hsize : H.size = 0) (x : W × E) :
    Linked ({ H with heap := some H.fresh, size := 1, fresh := H.fresh + 1 }.set H.fresh
      ⟨x.1, x.2, none, none, none⟩) (Function.update addr 1 H.fresh) (Function.update f 1 x) := by
  have hone : ∀ i, 1 ≤ i → i ≤ 1 → Function.update addr 1 H.fresh i = H.fresh := fun i hi hin ↦ by
    rw [le_antisymm hin hi, Function.update_self]
  refine ⟨?_, fun k hk hkn ↦ ?_, fun i j hi hin hj hjn _ ↦ le_antisymm (hin.trans hj) (hjn.trans hi),
    fun i hi hin ↦ (hone i hi hin).trans_lt (Nat.lt_succ_self _), fun a node hnode ↦ ?_⟩
  · rw [Heap.set_heap, Heap.set_size, link_of_le le_rfl le_rfl, Function.update_self]
  · obtain rfl : k = 1 := le_antisymm hkn hk
    rw [hone 1 le_rfl le_rfl, Heap.set_mem_self, Heap.set_size]
    simp [nodeAt, link]
  · by_cases ha : a = H.fresh
    · exact ⟨1, ⟨le_rfl, le_rfl⟩, (hone 1 le_rfl le_rfl).trans ha.symm⟩
    · rw [Heap.set_mem_of_ne _ ha] at hnode
      obtain ⟨i, ⟨hi, hin⟩, -⟩ := h.only a node hnode
      omega

/-- Removing the only node. -/
theorem Linked.clear (h : Linked H addr f) (hsize : H.size = 1) (g : ℕ → W × E) :
    Linked (Heap.free { H with heap := none, size := 0 } (addr 1)) addr g := by
  refine ⟨rfl, fun i hi hin ↦ ?_, fun i j hi hin ↦ ?_, fun i hi hin ↦ ?_, fun a node hnode ↦ ?_⟩
  · exact absurd (hi.trans hin) (Nat.not_succ_le_zero 0)
  · exact absurd (hi.trans hin) (Nat.not_succ_le_zero 0)
  · exact absurd (hi.trans hin) (Nat.not_succ_le_zero 0)
  · have ha : a ≠ addr 1 := fun heq ↦ by simp [heq, Heap.free] at hnode
    have hold : H.mem a = some node := by
      rw [← hnode]
      exact (Function.update_of_ne ha _ _).symm
    obtain ⟨i, ⟨hi, hin⟩, rfl⟩ := h.only a node hold
    exact absurd (by rw [le_antisymm (hsize ▸ hin) hi]) ha

section

variable {parent : HeapNode W E} (h : Linked H addr f) (hsize : H.size = n + 1) (hpos : 1 ≤ n)
  (hparent : parent = if (n + 1).testBit 0 then
      { nodeAt addr (n + 1) f ((n + 1) / 2) with right := none }
    else { nodeAt addr (n + 1) f ((n + 1) / 2) with left := none })

include h hsize hpos hparent

/-- Without its last child, the parent fits the tree without the last node. -/
theorem Linked.detach (hi : 1 ≤ i) (hin : i ≤ n) :
    (H.set (addr ((n + 1) / 2)) parent).mem (addr i) = some (nodeAt addr n f i) := by
  rw [nodeAt_shrink hin]
  by_cases hpi : (n + 1) / 2 = i
  · rw [if_pos hpi, ← hpi, Heap.set_mem_self, hparent]
  · have hne : addr i ≠ addr ((n + 1) / 2) := fun heq ↦
      hpi (h.inj i _ hi (by omega) (by omega) (by omega) heq).symm
    rw [if_neg hpi, Heap.set_mem_of_ne _ hne, h.node i hi (by omega), hsize]

/-- **Removing the last node**, whose contents replace those of the top. -/
theorem Linked.shrink {top : HeapNode W E}
    (htop : top = { nodeAt addr n f 1 with weight := (f (n + 1)).1, element := (f (n + 1)).2 }) :
    Linked (Heap.free { (H.set (addr ((n + 1) / 2)) parent).set (addr 1) top with size := n }
      (addr (n + 1))) addr (Function.update f 1 (f (n + 1))) := by
  have hne : ∀ i, 1 ≤ i → i ≤ n → addr i ≠ addr (n + 1) := fun i hi hin heq ↦ by
    have := h.inj i (n + 1) hi (by omega) (by omega) (by omega) heq
    omega
  refine ⟨?_, fun k hk hkn ↦ ?_, fun i j hi hin hj hjn heq ↦ ?_, fun i hi hin ↦ ?_,
    fun a node hnode ↦ ?_⟩
  · refine h.heap.trans ?_
    rw [hsize, link_shrink (by omega)]
    rfl
  · change k ≤ n at hkn
    show Function.update ((H.set (addr ((n + 1) / 2)) parent).set (addr 1) top).mem (addr (n + 1)) none
      (addr k) = some (nodeAt addr n (Function.update f 1 (f (n + 1))) k)
    rw [Function.update_of_ne (hne k hk hkn)]
    by_cases hk1 : k = 1
    · subst hk1
      rw [Heap.set_mem_self, htop, nodeAt, nodeAt, Function.update_self]
    · have hk1' : addr k ≠ addr 1 := fun heq ↦ hk1 (h.inj k 1 hk (by omega) le_rfl (by omega) heq)
      rw [Heap.set_mem_of_ne _ hk1', h.detach hsize hpos hparent hk hkn, nodeAt, nodeAt,
        Function.update_of_ne hk1]
  · change i ≤ n at hin
    change j ≤ n at hjn
    exact h.inj i j hi (by omega) hj (by omega) heq
  · change i ≤ n at hin
    exact h.lt_fresh i hi (by omega)
  · change Function.update ((H.set (addr ((n + 1) / 2)) parent).set (addr 1) top).mem (addr (n + 1))
      none a = some node at hnode
    show ∃ i, (1 ≤ i ∧ i ≤ n) ∧ addr i = a
    have han : a ≠ addr (n + 1) := fun heq ↦ by simp [heq] at hnode
    rw [Function.update_of_ne han] at hnode
    by_cases ha1 : a = addr 1
    · exact ⟨1, ⟨le_rfl, hpos⟩, ha1.symm⟩
    rw [Heap.set_mem_of_ne _ ha1] at hnode
    by_cases hap : a = addr ((n + 1) / 2)
    · exact ⟨(n + 1) / 2, ⟨by omega, by omega⟩, hap.symm⟩
    rw [Heap.set_mem_of_ne _ hap] at hnode
    obtain ⟨i, ⟨hi, hin⟩, rfl⟩ := h.only a node hnode
    refine ⟨i, ⟨hi, ?_⟩, rfl⟩
    have : i ≠ n + 1 := fun heq ↦ han (by rw [heq])
    omega

end

end OpenImpact.Heaps
