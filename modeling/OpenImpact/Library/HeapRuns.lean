import OpenImpact.Library.HeapTree

/-!
# The heap as a priority queue

A heap `Represents` a multiset of weighted elements: a complete binary tree in heap order. Every call
changes the multiset as a priority queue does (`Represents.insert`, `Represents.extractTop`) as long as
there are fewer than `2 ^ 30` elements; with more of them `1 << pt` leaves the range of `int`
(`runOps_iff`).

The theorem is over every sequence of calls, in both directions and for weights of any linear order,
and rests on `Foundation.BinaryHeap` for the order in the tree. The weights of the source are of
type `double`; a NaN, which is in no linear order, is left out. So are the routines that dispose of
elements.
-/

namespace OpenImpact.Heaps

open Foundation.BinaryHeap

variable {W E : Type} [LinearOrder W] {H : Heap W E} {addr : ℕ → Addr} {f : ℕ → W × E} {n i j b c : ℕ}

/-! ### Restoring the order -/

/-- The order of the weights, on elements with their weights. -/
def AboveBy (dir : Dir) (x y : W × E) : Prop := Above dir x.1 y.1

theorem aboveBy_asymm (dir : Dir) (x y : W × E) (h : AboveBy dir x y) : ¬AboveBy dir y x := by
  cases dir <;> exact lt_asymm h

theorem not_aboveBy_trans (dir : Dir) (x y z : W × E) (hxy : ¬AboveBy dir x y)
    (hyz : ¬AboveBy dir y z) : ¬AboveBy dir x z := by
  cases dir
  · exact not_lt.2 ((not_lt.1 hxy).trans (not_lt.1 hyz))
  · exact not_lt.2 ((not_lt.1 hyz).trans (not_lt.1 hxy))

/-- `H` is a complete binary tree in heap order with the elements `s`. -/
def Represents (H : Heap W E) (s : Multiset (W × E)) : Prop :=
  ∃ addr f, Linked H addr f ∧ IsHeap (AboveBy H.dir) H.size f ∧ contents H.size f = s

/-- **The loops of `Heap_Insert`** restore the order above the new node. -/
theorem Linked.siftUp (fuel : ℕ) (h : Linked H addr f) (hup : UpOrder (AboveBy H.dir) H.size f j)
    (hj : 1 ≤ j) (hjn : j ≤ H.size) (hfuel : j ≤ fuel) :
    ∃ H', siftUp (f j).1 fuel H (some (addr j)) = .ok H' ∧ Represents H' (contents H.size f) ∧
      H'.dir = H.dir ∧ H'.size = H.size := by
  induction fuel generalizing H f j with
  | zero => omega
  | succ fuel ih =>
    rw [Heaps.siftUp, h.deref hj hjn, Run.ok_bind, nodeAt]
    by_cases htwo : 2 ≤ j
    · rw [link_of_le (by omega) (by omega)]
      simp only
      rw [h.deref (by omega) (by omega), Run.ok_bind, nodeAt]
      by_cases habove : AboveBy H.dir (f j) (f (j / 2))
      · rw [if_pos (show Above H.dir (f j).1 (f (j / 2)).1 from habove)]
        obtain ⟨H₁, hrun, hlinked, hsize, hdir⟩ := h.nodeSwap hj hjn (j := j / 2) (by omega) (by omega)
          (by omega)
        rw [hrun, Run.ok_bind]
        have hup' := hup.swap (aboveBy_asymm H.dir) (not_aboveBy_trans H.dir) htwo habove
        obtain ⟨H', hrun', hrep, hdir', hsize'⟩ := ih hlinked (hdir ▸ hsize ▸ hup') (by omega)
          (by omega) (by omega)
        refine ⟨H', ?_, ?_, hdir'.trans hdir, hsize'.trans hsize⟩
        · simpa using hrun'
        · rwa [hsize, contents_swap hj hjn (by omega) (by omega)] at hrep
      · rw [if_neg (show ¬Above H.dir (f j).1 (f (j / 2)).1 from habove)]
        exact ⟨H, rfl, ⟨addr, f, h, hup.isHeap fun _ ↦ habove, rfl⟩, rfl, rfl⟩
    · rw [show j / 2 = 0 by omega, link_zero]
      exact ⟨H, rfl, ⟨addr, f, h, hup.isHeap fun h2 ↦ absurd h2 htwo, rfl⟩, rfl, rfl⟩

/-- The choice between position `c` and position `b`. -/
theorem Linked.choose (h : Linked H addr f) (dir : Dir) (hc : 1 ≤ c) (hb : 1 ≤ b) (hbn : b ≤ H.size) :
    ∃ d, choose dir H (link addr H.size c) (addr b) = .ok (addr d) ∧
      (d = b ∧ (c ≤ H.size → ¬AboveBy dir (f c) (f b)) ∨
        d = c ∧ c ≤ H.size ∧ AboveBy dir (f c) (f b)) := by
  by_cases hcn : c ≤ H.size
  · by_cases habove : AboveBy dir (f c) (f b)
    · refine ⟨c, ?_, .inr ⟨rfl, hcn, habove⟩⟩
      simp only [Heaps.choose, link_of_le hc hcn, h.deref hc hcn, h.deref hb hbn, Run.ok_bind, nodeAt]
      rw [if_pos (show Above dir (f c).1 (f b).1 from habove)]
      rfl
    · refine ⟨b, ?_, .inl ⟨rfl, fun _ ↦ habove⟩⟩
      simp only [Heaps.choose, link_of_le hc hcn, h.deref hc hcn, h.deref hb hbn, Run.ok_bind, nodeAt]
      rw [if_neg (show ¬Above dir (f c).1 (f b).1 from habove)]
      rfl
  · refine ⟨b, ?_, .inl ⟨rfl, fun h ↦ absurd h hcn⟩⟩
    rw [link_of_lt (by omega)]
    rfl

/-- **`HeapifyMax` and `HeapifyMin`** restore the order below the top. -/
theorem Linked.heapify (fuel : ℕ) (h : Linked H addr f)
    (hdown : DownOrder (AboveBy H.dir) H.size f j) (hj : 1 ≤ j) (hjn : j ≤ H.size)
    (hfuel : H.size < fuel + j) :
    ∃ H', heapify H.dir fuel H (addr j) = .ok H' ∧ Represents H' (contents H.size f) ∧
      H'.dir = H.dir ∧ H'.size = H.size := by
  induction fuel generalizing H f j with
  | zero => omega
  | succ fuel ih =>
    rw [Heaps.heapify, h.deref hj hjn, Run.ok_bind, nodeAt]
    obtain ⟨l, hl, hleft⟩ := h.choose H.dir (c := 2 * j) (by omega) hj hjn
    have hln : 1 ≤ l ∧ l ≤ H.size := by rcases hleft with ⟨rfl, -⟩ | ⟨rfl, hin, -⟩ <;> omega
    obtain ⟨m, hm, hright⟩ := h.choose H.dir (c := 2 * j + 1) (by omega) hln.1 hln.2
    simp only [hl, hm, Run.ok_bind]
    have hself : ¬AboveBy H.dir (f l) (f l) := fun hab ↦ aboveBy_asymm _ _ _ hab hab
    by_cases hmj : m = j
    · -- neither child belongs above: the loop ends
      subst hmj
      rw [if_neg (by simp)]
      refine ⟨H, rfl, ⟨addr, f, h, hdown.isHeap fun d hd hdm ↦ ?_, rfl⟩, rfl, rfl⟩
      rcases hright with ⟨rfl, hr⟩ | ⟨hbad, -⟩
      · rcases hleft with ⟨-, hl'⟩ | ⟨hbad, -⟩
        · rcases (by omega : d = 2 * m ∨ d = 2 * m + 1) with rfl | rfl
          · exact hl' hd
          · exact hr hd
        · omega
      · omega
    · -- `m` is the child that the other one does not belong above
      have hmn : m / 2 = j ∧ m ≤ H.size ∧ AboveBy H.dir (f m) (f j) ∧
          ∀ d, d ≤ H.size → d / 2 = j → ¬AboveBy H.dir (f d) (f m) := by
        rcases hright with ⟨rfl, hr⟩ | ⟨rfl, hmn, hml⟩
        · obtain ⟨rfl, hlin, hlj⟩ := hleft.resolve_left fun hbad ↦ hmj hbad.1
          refine ⟨by omega, hlin, hlj, fun d hd hdj ↦ ?_⟩
          rcases (by omega : d = 2 * j ∨ d = 2 * j + 1) with rfl | rfl
          · exact hself
          · exact hr hd
        · have hlm : ¬AboveBy H.dir (f l) (f (2 * j + 1)) := aboveBy_asymm _ _ _ hml
          have hothers : ∀ d, d ≤ H.size → d / 2 = j → d ≠ 2 * j + 1 →
              ¬AboveBy H.dir (f d) (f (2 * j + 1)) := fun d hd hdj hne ↦ by
            obtain rfl : d = 2 * j := by omega
            rcases hleft with ⟨rfl, hl'⟩ | ⟨rfl, -, -⟩
            · exact not_aboveBy_trans _ _ _ _ (hl' hd) hlm
            · exact hlm
          refine ⟨by omega, hmn, ?_, fun d hd hdj ↦ ?_⟩
          · rcases hleft with ⟨rfl, -⟩ | ⟨rfl, -, hlj⟩
            · exact hml
            · by_contra hnot
              exact not_aboveBy_trans _ _ _ _ hnot (aboveBy_asymm _ _ _ hlj) hml
          · by_cases hdm : d = 2 * j + 1
            · exact hdm ▸ fun hab ↦ aboveBy_asymm _ _ _ hab hab
            · exact hothers d hd hdj hdm
      obtain ⟨hmj2, hmn, hab, hbest⟩ := hmn
      have hne : addr m ≠ addr j := fun heq ↦ hmj (h.inj m j (by omega) hmn hj hjn heq)
      obtain ⟨H₁, hrun, hlinked, hsize, hdir⟩ := h.nodeSwap hj hjn (j := m) (by omega) hmn (Ne.symm hmj)
      have hdown' := hdown.swap (aboveBy_asymm H.dir) hj hmj2 hab hbest hmn
      rw [Equiv.swap_comm] at hlinked
      rw [if_pos hne, hrun, Run.ok_bind]
      obtain ⟨H', hrun', hrep, hdir', hsize'⟩ := ih hlinked (hdir ▸ hsize ▸ hdown') (by omega)
        (by omega) (by omega)
      refine ⟨H', hdir ▸ hrun', ?_, hdir'.trans hdir, hsize'.trans hsize⟩
      rwa [hsize, contents_swap (by omega) hmn hj hjn] at hrep

/-! ### Calls -/

variable {s : Multiset (W × E)}

/-- **`Heap_Insert`** adds one element. -/
theorem Represents.insert (h : Represents H s) (hfits : H.size + 1 < 2 ^ 30) (element : E)
    (weight : W) :
    ∃ H', insert H element weight = .ok H' ∧ Represents H' ((weight, element) ::ₘ s) ∧
      H'.dir = H.dir ∧ H'.size = H.size + 1 := by
  obtain ⟨addr, f, hlinked, hheap, rfl⟩ := h
  have hcontents : contents (H.size + 1) (Function.update f (H.size + 1) (weight, element)) =
      (weight, element) ::ₘ contents H.size f := by
    rw [contents_succ, Function.update_self]
    exact congrArg _ (contents_congr fun i _ hin ↦ Function.update_of_ne (by omega) _ _)
  have hup := hheap.upOrder (weight, element)
  by_cases hzero : H.size = 0
  · rw [Heaps.insert, hzero, findParent_one, Run.ok_bind, if_pos rfl]
    have hfirst := hlinked.first hzero (weight, element)
    rw [hzero] at hup hcontents
    obtain ⟨H', hrun, hrep, hdir, hsize⟩ := hfirst.siftUp 1 hup le_rfl le_rfl le_rfl
    refine ⟨H', ?_, ?_, hdir, hsize⟩
    · simpa using hrun
    · exact hcontents ▸ hrep
  · rw [Heaps.insert, hlinked.findParent (by omega) le_rfl hfits, Run.ok_bind, if_neg (by omega)]
    simp only
    rw [hlinked.deref (by omega) (by omega), Run.ok_bind]
    have hgrow := hlinked.grow (by omega) (weight, element) rfl
    obtain ⟨H', hrun, hrep, hdir, hsize⟩ := hgrow.siftUp (H.size + 1) hup (by omega) le_rfl le_rfl
    refine ⟨H', ?_, ?_, hdir, hsize⟩
    · simpa using hrun
    · exact hcontents ▸ hrep

theorem insert_overflow (hsize : 2 ^ 30 ≤ H.size + 1) (element : E) (weight : W) :
    insert H element weight = .error .overflow := by
  rw [Heaps.insert, findParent_overflow hsize]
  rfl

/-- What a call to a priority queue with the elements `s` returns and leaves. -/
inductive QueueStep (dir : Dir) : Multiset (W × E) → Op W E → Option E → Multiset (W × E) → Prop
  | insert (s : Multiset (W × E)) (element : E) (weight : W) :
    QueueStep dir s (.insert element weight) none ((weight, element) ::ₘ s)
  | empty : QueueStep dir 0 .extractTop none 0
  | extractTop {x : W × E} {s : Multiset (W × E)} (htop : ∀ y ∈ x ::ₘ s, ¬Above dir y.1 x.1) :
    QueueStep dir (x ::ₘ s) .extractTop (some x.2) s

/-- **`Heap_ExtractTop`** removes one element that no other belongs above. -/
theorem Represents.extractTop (h : Represents H s) (hfits : H.size < 2 ^ 30) :
    ∃ ret H' s', extractTop H = .ok (ret, H') ∧ QueueStep H.dir s .extractTop ret s' ∧
      Represents H' s' ∧ H'.dir = H.dir ∧ H'.size = H.size - 1 := by
  obtain ⟨addr, f, hlinked, hheap, rfl⟩ := h
  by_cases hzero : H.size = 0
  · refine ⟨none, H, 0, ?_, ?_, ⟨addr, f, hlinked, hheap, by rw [hzero]; rfl⟩, rfl, by omega⟩
    · rw [Heaps.extractTop, if_pos (by omega)]
      rfl
    · rw [hzero]
      exact .empty
  obtain ⟨n, hn⟩ : ∃ n, H.size = n + 1 := Nat.exists_eq_succ_of_ne_zero hzero
  have hstep : QueueStep H.dir (contents H.size f) .extractTop (some (f 1).2)
      (contents n (Function.update f 1 (f (n + 1)))) := by
    rw [hn, contents_pop]
    refine .extractTop fun y hy ↦ ?_
    rw [← contents_pop, ← hn] at hy
    obtain ⟨i, ⟨hi, hin⟩, rfl⟩ := mem_contents.1 hy
    exact hheap.not_above_top (aboveBy_asymm H.dir) (not_aboveBy_trans H.dir) hi hin
  have htop : H.heap = some (addr 1) := by rw [hlinked.heap, link_of_le le_rfl (by omega)]
  rw [Heaps.extractTop, if_neg (by omega), htop, hlinked.deref le_rfl (by omega), Run.ok_bind]
  -- the last node takes the place of the top, unless it is the top
  by_cases hone : n = 0
  · subst hone
    rw [hn, findParent_one, Run.ok_bind, htop]
    refine ⟨_, _, _, rfl, hn ▸ hstep, ⟨addr, f, hlinked.clear hn f, fun i hi hin ↦ ?_, rfl⟩, rfl, rfl⟩
    exact absurd (hi.trans hin) (Nat.not_succ_le_zero 1)
  · have hpos : 1 ≤ n := Nat.pos_of_ne_zero hone
    -- the last bit tells which child of its parent the last node is
    have hlast : (if (n + 1).testBit 0 then (nodeAt addr (n + 1) f ((n + 1) / 2)).right
        else (nodeAt addr (n + 1) f ((n + 1) / 2)).left) = some (addr (n + 1)) := by
      rw [Nat.testBit_zero, ← link_of_le (by omega : 1 ≤ n + 1) le_rfl]
      by_cases hodd : (n + 1) % 2 = 1
      · rw [if_pos (decide_eq_true hodd), nodeAt, show 2 * ((n + 1) / 2) + 1 = n + 1 by omega]
      · rw [if_neg (by simpa using hodd), nodeAt, show 2 * ((n + 1) / 2) = n + 1 by omega]
    have hup : (nodeAt addr (n + 1) f (n + 1)).p = some (addr ((n + 1) / 2)) :=
      link_of_le (by omega) (by omega)
    rw [hn] at hfits ⊢
    rw [hlinked.findParent (by omega) (by omega) hfits, Run.ok_bind]
    simp only
    rw [if_neg (by omega), hlinked.deref (by omega) (by omega), Run.ok_bind, hn, hlast]
    simp only
    rw [hlinked.deref (by omega) (by omega), Run.ok_bind, hn, hup, hlinked.deref (by omega) (by omega),
      Run.ok_bind, hn, Option.getD_some]
    generalize hparent : (if (n + 1).testBit 0 then
      { nodeAt addr (n + 1) f ((n + 1) / 2) with right := none }
      else { nodeAt addr (n + 1) f ((n + 1) / 2) with left := none }) = parent
    have hroot : (H.set (addr ((n + 1) / 2)) parent).deref (H.set (addr ((n + 1) / 2)) parent).heap =
        .ok (nodeAt addr n f 1) := by
      rw [Heap.set_heap, htop, Heap.deref, hlinked.detach hn hpos hparent.symm le_rfl hpos]
      rfl
    rw [hroot, Run.ok_bind]
    -- the heap without its last node is in order but for the top
    have hdown : DownOrder (AboveBy H.dir) n (Function.update f 1 (f (n + 1))) 1 :=
      IsHeap.downOrder (hn ▸ hheap)
    have hshrink := hlinked.shrink hn hpos hparent.symm rfl
    obtain ⟨H₂, hH₂⟩ : ∃ H₂ : Heap W E, H₂ = Heap.free
      { (H.set (addr ((n + 1) / 2)) parent).set (addr 1)
          { nodeAt addr n f 1 with weight := (f (n + 1)).1, element := (f (n + 1)).2 } with size := n }
      (addr (n + 1)) := ⟨_, rfl⟩
    have hdir₂ : H₂.dir = H.dir := by rw [hH₂]; rfl
    have hsize₂ : H₂.size = n := by rw [hH₂]; rfl
    rw [← hH₂] at hshrink
    obtain ⟨H', hrun, hrep, hdir, hsize⟩ := hshrink.heapify n (j := 1) (by rwa [hdir₂, hsize₂]) le_rfl
      (by omega) (by omega)
    refine ⟨some (f 1).2, H', _, ?_, hn ▸ hstep, hsize₂ ▸ hrep, hdir.trans hdir₂, hsize.trans hsize₂⟩
    have hfree : (Heap.free { (H.set (addr ((n + 1) / 2)) parent).set (addr 1)
        { nodeAt addr n f 1 with
          weight := (nodeAt addr (n + 1) f (n + 1)).weight
          element := (nodeAt addr (n + 1) f (n + 1)).element } with
        size := H.size - 1 } (addr (n + 1))) = H₂ := by
      rw [hH₂, hn]
      rfl
    simp only [Heap.set_size]
    rw [hfree]
    cases hd : H₂.dir <;> rw [hd] at hrun
    · rw [heapifyMax, hsize₂, hrun]
      rfl
    · rw [heapifyMin, hsize₂, hrun]
      rfl

/-! ### Sequences of calls -/

/-- A run of a priority queue from the elements `s`, with what its calls return. -/
inductive QueueRun (dir : Dir) :
    Multiset (W × E) → List (Op W E) → List (Option E) → Multiset (W × E) → Prop
  | nil (s : Multiset (W × E)) : QueueRun dir s [] [] s
  | cons {s s₁ s₂ : Multiset (W × E)} {op : Op W E} {ret : Option E} {ops : List (Op W E)}
    {rets : List (Option E)} (hstep : QueueStep dir s op ret s₁) (hrest : QueueRun dir s₁ ops rets s₂) :
    QueueRun dir s (op :: ops) (ret :: rets) s₂

/-- From `n` elements on, no call takes the number of elements to `2 ^ 30`. -/
def Fits : ℕ → List (Op W E) → Prop
  | _, [] => True
  | n, .insert _ _ :: ops => n + 1 < 2 ^ 30 ∧ Fits (n + 1) ops
  | n, .extractTop :: ops => Fits (n - 1) ops

/-- The run of a priority queue, and a heap that represents its elements, with a walk along the digits
of the size that reaches a node. -/
def QueueKept (dir : Dir) (s : Multiset (W × E)) (ops : List (Op W E)) (rets : List (Option E))
    (H : Heap W E) : Prop :=
  ∃ s', QueueRun dir s ops rets s' ∧ Represents H s' ∧ H.dir = dir ∧
    (2 ≤ H.size → ∃ p node, findParent H H.size = .ok (some p) ∧ H.mem p = some node)

theorem Represents.runOps (h : Represents H s) (hsize : H.size < 2 ^ 30) {ops : List (Op W E)}
    (hfits : Fits H.size ops) :
    ∃ rets H', runOps H ops = .ok (rets, H') ∧ QueueKept H.dir s ops rets H' := by
  induction ops generalizing H s with
  | nil =>
    refine ⟨[], H, rfl, s, .nil s, h, rfl, fun htwo ↦ ?_⟩
    obtain ⟨addr, f, hlinked, -, -⟩ := h
    exact ⟨_, _, hlinked.findParent htwo (by omega) hsize,
      hlinked.node (H.size / 2) (by omega) (by omega)⟩
  | cons op ops ih =>
    obtain ⟨ret, H₁, s₁, hop, hstep, hrep, hdir, hrest, hsize₁⟩ : ∃ ret H₁ s₁, runOp H op = .ok (ret, H₁) ∧
        QueueStep H.dir s op ret s₁ ∧ Represents H₁ s₁ ∧ H₁.dir = H.dir ∧ Fits H₁.size ops ∧
        H₁.size < 2 ^ 30 := by
      cases op with
      | insert element weight =>
        obtain ⟨H₁, hrun, hrep, hdir, hsize₁⟩ := h.insert hfits.1 element weight
        refine ⟨none, H₁, _, ?_, .insert s element weight, hrep, hdir, hsize₁ ▸ hfits.2, ?_⟩
        · rw [runOp, hrun]
          rfl
        · rw [hsize₁]
          exact hfits.1
      | extractTop =>
        obtain ⟨ret, H₁, s₁, hrun, hstep, hrep, hdir, hsize₁⟩ := h.extractTop hsize
        exact ⟨ret, H₁, s₁, hrun, hstep, hrep, hdir, hsize₁ ▸ hfits, by omega⟩
    obtain ⟨rets, H', hrun, s', hqueue, hrep', hdir', hpath⟩ := ih hrep hsize₁ hrest
    rw [hdir] at hqueue hdir'
    refine ⟨ret :: rets, H', ?_, s', .cons hstep hqueue, hrep', hdir', hpath⟩
    rw [Heaps.runOps, hop, Run.ok_bind]
    simp only
    rw [hrun]
    rfl

/-- Calls that return never took the number of elements to `2 ^ 30`. -/
theorem Represents.fits (h : Represents H s) (hsize : H.size < 2 ^ 30) {ops : List (Op W E)}
    {rets : List (Option E)} {H' : Heap W E} (hrun : Heaps.runOps H ops = .ok (rets, H')) :
    Fits H.size ops := by
  induction ops generalizing H s rets H' with
  | nil => trivial
  | cons op ops ih =>
    rw [Heaps.runOps] at hrun
    obtain ⟨⟨ret, H₁⟩, hop, hrest⟩ := Run.bind_eq_ok.1 hrun
    obtain ⟨⟨rets₁, H₂⟩, hops, -⟩ := Run.bind_eq_ok.1 hrest
    cases op with
    | insert element weight =>
      by_cases hover : 2 ^ 30 ≤ H.size + 1
      · rw [runOp, insert_overflow hover] at hop
        exact nomatch hop
      · obtain ⟨H₃, hins, hrep, -, hsize₁⟩ := h.insert (not_le.1 hover) element weight
        rw [runOp, hins] at hop
        obtain ⟨-, rfl⟩ := Prod.mk.inj (Except.ok.inj hop)
        exact ⟨not_le.1 hover, hsize₁ ▸ ih hrep (hsize₁ ▸ not_le.1 hover) hops⟩
    | extractTop =>
      obtain ⟨ret₁, H₃, s₁, hext, -, hrep, -, hsize₁⟩ := h.extractTop hsize
      rw [runOp, hext] at hop
      obtain ⟨-, rfl⟩ := Prod.mk.inj (Except.ok.inj hop)
      have hrest := ih hrep (by omega) hops
      rwa [hsize₁] at hrest

omit [LinearOrder W] in
theorem not_fits_replicate (element : E) (weight : W) (k : ℕ) (hn : n < 2 ^ 30) (hk : 2 ^ 30 ≤ n + k) :
    ¬Fits n (List.replicate k (Op.insert element weight)) := by
  induction k generalizing n with
  | zero => omega
  | succ k ih =>
    rw [List.replicate_succ]
    exact fun h ↦ ih h.1 (by omega) h.2

section

variable [Inhabited W] [Inhabited E]

theorem represents_create (dir : Dir) : Represents (create dir : Heap W E) 0 := by
  refine ⟨id, fun _ ↦ default, ⟨rfl, fun i hi hin ↦ ?_, fun i j hi hin ↦ ?_, fun i hi hin ↦ ?_,
    fun a node hnode ↦ nomatch hnode⟩, fun i hi hin ↦ ?_, rfl⟩
  · exact absurd (hi.trans hin) (Nat.not_succ_le_zero 0)
  · exact absurd (hi.trans hin) (Nat.not_succ_le_zero 0)
  · exact absurd (hi.trans hin) (Nat.not_succ_le_zero 0)
  · exact absurd (hi.trans hin) (Nat.not_succ_le_zero 1)

/-- **A heap is a priority queue** through every sequence of calls, exactly when there are always fewer
than `2 ^ 30` elements. -/
theorem runOps_iff (dir : Dir) (ops : List (Op W E)) :
    (∃ rets H, runOps (create dir) ops = .ok (rets, H) ∧ QueueKept dir 0 ops rets H) ↔ Fits 0 ops := by
  constructor
  · rintro ⟨rets, H, hrun, -⟩
    exact (represents_create dir).fits (Nat.two_pow_pos _) hrun
  · intro hfits
    exact (represents_create dir).runOps (Nat.two_pow_pos _) hfits

end

example : (runOps (create .min) [.insert 'a' (3 : ℤ), .insert 'b' 5, .insert 'c' 1, .extractTop,
    .extractTop, .extractTop, .extractTop]).toOption.map Prod.fst =
      some [none, none, none, some 'c', some 'a', some 'b', none] := by decide

/-- The insertion that makes `2 ^ 30` elements shifts `1` by `31` digits. -/
theorem not_runOps_full : ¬∃ rets H, runOps (create .max)
    (List.replicate (2 ^ 30) (Op.insert () (0 : ℤ))) = .ok (rets, H) ∧
      QueueKept .max 0 (List.replicate (2 ^ 30) (Op.insert () (0 : ℤ))) rets H := by
  rintro ⟨rets, H, hrun, -⟩
  exact not_fits_replicate () 0 (2 ^ 30) (Nat.two_pow_pos _) (by omega)
    ((represents_create .max).fits (Nat.two_pow_pos _) hrun)

end OpenImpact.Heaps
