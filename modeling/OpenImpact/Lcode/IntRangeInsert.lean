import OpenImpact.Foundation.Minterm
import OpenImpact.Lcode.IntRange
import Mathlib.Data.Set.Image
import Mathlib.Tactic.Push

/-!
# Inserting an interval

One pass of the loop of `IR_add_disj_nodes` refines the current node along the part of the interval
that lies up to its upper end (`disjStep_spec`), and hands on an interval that starts past it. So a
whole insertion refines the node list along the interval, in the sense of
`Foundation.RefinesAlong`, and keeps the nodes increasing and inside the width
(`addDisjNodes_spec`).
-/

namespace OpenImpact.IR

open Foundation

/-! ### Nodes as sets -/

/-- The register values of a node. -/
def Node.cell (n : Node) : Set ℕ := Set.Icc n.lower n.upper

@[simp] theorem Node.mem_cell {n : Node} {x : ℕ} : x ∈ n.cell ↔ n.lower ≤ x ∧ x ≤ n.upper :=
  Set.mem_Icc

/-- A node's set of values determines its ends. -/
theorem Node.ends_of_cell_eq {n : Node} {lo hi : ℕ} (hle : lo ≤ hi)
    (heq : n.cell = Set.Icc lo hi) : n.lower = lo ∧ n.upper = hi := by
  have hv := n.valid
  have h₁ := Node.mem_cell.1 (heq ▸ Set.left_mem_Icc.2 hle)
  have h₂ := Node.mem_cell.1 (heq ▸ Set.right_mem_Icc.2 hle)
  have h₃ : n.lower ∈ Set.Icc lo hi := heq ▸ Node.mem_cell.2 ⟨le_rfl, hv⟩
  have h₄ : n.upper ∈ Set.Icc lo hi := heq ▸ Node.mem_cell.2 ⟨hv, le_rfl⟩
  rw [Set.mem_Icc] at h₃ h₄
  omega

/-- The cells of a node list. -/
def cells (nodes : List Node) : Set (Set ℕ) := Node.cell '' {n | n ∈ nodes}

@[simp] theorem cells_nil : cells [] = ∅ := by simp [cells]

theorem cells_append (l₁ l₂ : List Node) : cells (l₁ ++ l₂) = cells l₁ ∪ cells l₂ := by
  rw [cells, cells, cells, ← Set.image_union]
  congr 1
  ext n
  simp

theorem cells_cons (n : Node) (l : List Node) : cells (n :: l) = cells [n] ∪ cells l :=
  cells_append [n] l

theorem mem_sUnion_cells {nodes : List Node} {x : ℕ} :
    x ∈ ⋃₀ cells nodes ↔ ∃ n ∈ nodes, n.lower ≤ x ∧ x ≤ n.upper := by
  simp only [cells, Set.sUnion_image, Set.mem_iUnion, Set.mem_ofPred_eq, Node.mem_cell, exists_prop]

/-- Strictly increasing nodes with room between their ends: increasing and disjoint. -/
def Increasing (nodes : List Node) : Prop := nodes.Pairwise fun a b ↦ a.upper < b.lower

/-- The nodes lie inside `[lo, hi]`. -/
def Within (nodes : List Node) (lo hi : ℕ) : Prop := ∀ n ∈ nodes, lo ≤ n.lower ∧ n.upper ≤ hi

theorem Within.mono {nodes : List Node} {lo hi lo' hi' : ℕ} (h : Within nodes lo hi)
    (hlo : lo' ≤ lo) (hhi : hi ≤ hi') : Within nodes lo' hi' :=
  fun n hn ↦ ⟨hlo.trans (h n hn).1, (h n hn).2.trans hhi⟩

theorem Within.append {l₁ l₂ : List Node} {lo hi : ℕ} (h₁ : Within l₁ lo hi)
    (h₂ : Within l₂ lo hi) : Within (l₁ ++ l₂) lo hi := fun n hn ↦
  (List.mem_append.1 hn).elim (h₁ n) (h₂ n)

theorem Increasing.append {l₁ l₂ : List Node} {lo₁ m lo₂ hi₂ : ℕ} (h₁ : Increasing l₁)
    (h₂ : Increasing l₂) (hw₁ : Within l₁ lo₁ m) (hw₂ : Within l₂ lo₂ hi₂) (hm : m < lo₂) :
    Increasing (l₁ ++ l₂) :=
  List.pairwise_append.2 ⟨h₁, h₂, fun a ha b hb ↦
    (hw₁ a ha).2.trans_lt (hm.trans_le (hw₂ b hb).1)⟩

/-- A refinement of interval lists, checked end by end. -/
theorem refinesAlong_of_ends {old new : List Node} {S : Set ℕ}
    (hpart : ∀ n ∈ new, (∃ o ∈ old, o.lower ≤ n.lower ∧ n.upper ≤ o.upper) ∨
      ∀ o ∈ old, n.upper < o.lower ∨ o.upper < n.lower)
    (hres : ∀ n ∈ new, n.cell ⊆ S ∨ ∀ x ∈ n.cell, x ∉ S)
    (hcov : ∀ x, (∃ n ∈ new, n.lower ≤ x ∧ x ≤ n.upper) ↔
      (∃ o ∈ old, o.lower ≤ x ∧ x ≤ o.upper) ∨ x ∈ S) :
    RefinesAlong (cells old) (cells new) S := by
  refine ⟨?_, ?_, ?_⟩
  · rintro _ ⟨n, hn, rfl⟩
    rcases hpart n hn with ⟨o, ho, hlo, hhi⟩ | hfresh
    · exact .inl ⟨o.cell, ⟨o, ho, rfl⟩, Set.Icc_subset_Icc hlo hhi⟩
    · refine .inr (Set.disjoint_left.2 fun x hx hxo ↦ ?_)
      obtain ⟨o, ho, hox⟩ := mem_sUnion_cells.1 hxo
      rw [Node.mem_cell] at hx
      rcases hfresh o ho with h | h <;> omega
  · rintro _ ⟨n, hn, rfl⟩
    exact (hres n hn).imp_right Set.disjoint_left.2
  · ext x
    rw [Set.mem_union, mem_sUnion_cells, mem_sUnion_cells, hcov]

/-! ### One pass of the loop -/

@[simp] theorem newNode_of_le {lower upper : ℕ} (h : lower ≤ upper) :
    newNode lower upper = .ok ⟨lower, upper, h⟩ := dif_pos h

@[simp] theorem dec_of_pos {x : ℕ} (h : 0 < x) : dec x = .ok (x - 1) := if_pos h

@[simp] theorem inc_of_lt {bits x : ℕ} (h : x < rangeMax bits) : inc bits x = .ok (x + 1) :=
  if_pos h

/-- Past its lower end a node is really split. -/
theorem splitNode_of_lt {orig : Node} {v : ℕ} (hlo : orig.lower < v) (hhi : v ≤ orig.upper) :
    splitNode orig v = .ok (⟨orig.lower, v - 1, by omega⟩, some ⟨v, orig.upper, hhi⟩) := by
  rw [splitNode, dif_neg (by omega), newNode_of_le hhi, dec_of_pos (by omega)]
  rfl

/-- What a pass at `node` must deliver: the nodes it leaves behind refine `node` along the part of
the interval up to `node.upper`, and what it hands on starts past `node.upper`. -/
def StepSpec (lower upper : ℕ) (node : Node) : DisjStep → Prop
  | .break nodes => upper ≤ node.upper ∧ Increasing nodes ∧
      Within nodes (min lower node.lower) node.upper ∧
      RefinesAlong (cells [node]) (cells nodes) (Set.Icc lower upper)
  | .next visited lower' => node.upper < lower' ∧ lower' ≤ upper ∧
      lower' = max lower (node.upper + 1) ∧ Increasing visited ∧
      Within visited (min lower node.lower) node.upper ∧
      RefinesAlong (cells [node]) (cells visited) (Set.Icc lower upper ∩ Set.Iic node.upper)

/-- Leaving one more node behind, before everything the pass handles. -/
theorem StepSpec.cons {lower₀ upper : ℕ} {node node₀ new : Node} {s : DisjStep} {S : Set ℕ}
    (h : StepSpec node.lower upper node s) (hnew : new.upper + 1 = node.lower)
    (hupper : node.upper = node₀.upper) (hlo : min lower₀ node₀.lower ≤ new.lower)
    (hlower : lower₀ ≤ node.lower) (hS : Set.Icc lower₀ upper = S ∪ Set.Icc node.lower upper)
    (hSnew : S ⊆ Set.Iic new.upper)
    (href : ∀ {T : Set ℕ} {nodes : List Node}, T ⊆ Set.Ici node.lower →
      RefinesAlong (cells [node]) (cells nodes) T →
        RefinesAlong (cells [node₀]) (cells (new :: nodes)) (S ∪ T)) :
    StepSpec lower₀ upper node₀ (s.cons new) := by
  have hv := node.valid
  have hnv := new.valid
  have hwithin : ∀ {nodes : List Node}, Within nodes (min node.lower node.lower) node.upper →
      Within (new :: nodes) (min lower₀ node₀.lower) node₀.upper := by
    intro nodes hw n hn
    rcases List.mem_cons.1 hn with rfl | hn
    · omega
    · have := hw n hn
      omega
  have hincr : ∀ {nodes : List Node}, Increasing nodes →
      Within nodes (min node.lower node.lower) node.upper → Increasing (new :: nodes) := by
    intro nodes hi hw
    refine List.pairwise_cons.2 ⟨fun n hn ↦ ?_, hi⟩
    have := hw n hn
    omega
  cases s with
  | «break» nodes =>
    obtain ⟨hup, hi, hw, hr⟩ := h
    refine ⟨hupper ▸ hup, hincr hi hw, hwithin hw, ?_⟩
    rw [hS]
    exact href (fun x hx ↦ hx.1) hr
  | next visited lower' =>
    obtain ⟨hlt, hle, heq, hi, hw, hr⟩ := h
    refine ⟨hupper ▸ hlt, hle, by omega, hincr hi hw, hwithin hw, ?_⟩
    have hinter : Set.Icc lower₀ upper ∩ Set.Iic node₀.upper =
        S ∪ Set.Icc node.lower upper ∩ Set.Iic node.upper := by
      rw [hS, Set.union_inter_distrib_right, hupper]
      congr 1
      refine Set.inter_eq_left.2 fun x hx ↦ ?_
      have := hSnew hx
      simp only [Set.mem_Iic] at this ⊢
      omega
    rw [hinter]
    exact href (fun x hx ↦ hx.1.1) hr

theorem disjStepAt_spec {bits upper : ℕ} {node : Node} (hle : node.lower ≤ upper)
    (hmax : upper ≤ rangeMax bits) (hnode : node.upper ≤ rangeMax bits) :
    ∃ s, disjStepAt bits upper node = .ok s ∧ StepSpec node.lower upper node s := by
  have hv := node.valid
  rcases lt_trichotomy node.upper upper with hlt | heq | hgt
  · refine ⟨.next [node] (node.upper + 1), ?_, ?_⟩
    · rw [disjStepAt, if_pos hlt, inc_of_lt (by omega)]
      rfl
    · refine ⟨by omega, by omega, by omega, List.pairwise_singleton _ _, by simp [Within], ?_⟩
      refine refinesAlong_of_ends ?_ ?_ ?_ <;> simp [Set.subset_def] <;> grind
  · refine ⟨.break [node], ?_, ?_⟩
    · rw [disjStepAt, if_neg (by omega), if_neg (by omega)]
      rfl
    · refine ⟨by omega, List.pairwise_singleton _ _, by simp [Within], ?_⟩
      refine refinesAlong_of_ends ?_ ?_ ?_ <;> simp [Set.subset_def] <;> grind
  · refine ⟨.break [⟨node.lower, upper, hle⟩, ⟨upper + 1, node.upper, hgt⟩], ?_, ?_⟩
    · rw [disjStepAt, if_neg (by omega), if_pos hgt, inc_of_lt (by omega), Run.ok_bind,
        splitNode_of_lt (by omega) (by omega)]
      rfl
    · refine ⟨by omega, by simp [Increasing], by simp [Within]; omega, ?_⟩
      refine refinesAlong_of_ends ?_ ?_ ?_ <;> simp [Set.subset_def] <;> grind

theorem disjStep_spec {bits lower upper : ℕ} {node : Node} (hle : lower ≤ upper)
    (hmax : upper ≤ rangeMax bits) (hnode : node.upper ≤ rangeMax bits) :
    ∃ s, disjStep bits lower upper node = .ok s ∧ StepSpec lower upper node s := by
  have hv := node.valid
  by_cases hskip : node.upper < lower
  · refine ⟨.next [node] lower, by rw [disjStep, if_pos hskip]; rfl, ?_⟩
    refine ⟨hskip, hle, by omega, List.pairwise_singleton _ _, by simp [Within], ?_⟩
    refine refinesAlong_of_ends ?_ ?_ ?_ <;> simp [Set.subset_def] <;> grind
  rcases lt_trichotomy lower node.lower with hlt | rfl | hgt
  · by_cases hbefore : upper < node.lower
    · refine ⟨.break [⟨lower, upper, hle⟩, node], ?_, ?_⟩
      · rw [disjStep, if_neg hskip, if_pos hlt, if_pos hbefore, newNode_of_le hle]
        rfl
      · refine ⟨by omega, by simp [Increasing, hbefore], by simp [Within]; omega, ?_⟩
        refine refinesAlong_of_ends ?_ ?_ ?_ <;> simp [Set.subset_def] <;> grind
    · -- the part before the node becomes a node of its own, the rest starts at its lower end
      obtain ⟨s, hs, hspec⟩ := disjStepAt_spec (not_lt.1 hbefore) hmax hnode
      let new : Node := ⟨lower, node.lower - 1, by omega⟩
      refine ⟨s.cons new, ?_, ?_⟩
      · rw [disjStep, if_neg hskip, if_pos hlt, if_neg hbefore, dec_of_pos (by omega), Run.ok_bind,
          newNode_of_le (by omega), Run.ok_bind, hs]
        rfl
      · have hfresh : RefinesAlong (cells []) (cells [new]) (Set.Icc lower new.upper) := by
          refine refinesAlong_of_ends ?_ ?_ ?_ <;> simp [Set.subset_def, new]
          exact .inl fun _ h₁ h₂ ↦ ⟨h₁, h₂⟩
        have hnew : new.upper = node.lower - 1 := rfl
        refine hspec.cons (S := Set.Icc lower new.upper) (by omega) rfl (by simp [new]) hlt.le ?_
          Set.Icc_subset_Iic_self fun {T nodes} hT hr ↦ ?_
        · ext x
          simp only [Set.mem_Icc, Set.mem_union, hnew]
          omega
        · rw [cells_cons new, ← Set.empty_union (cells [node]), ← cells_nil]
          refine hfresh.union hr (U := Set.Iio node.lower) ?_ ?_
          · rw [cells_nil, Set.sUnion_empty, Set.empty_union]
            intro x hx
            simp only [Set.mem_Icc, hnew] at hx
            exact Set.mem_Iio.2 (by omega)
          · refine Set.union_subset (fun x hx ↦ ?_) (fun x hx ↦ ?_)
            · obtain ⟨n, hn, hx⟩ := mem_sUnion_cells.1 hx
              obtain rfl := List.mem_singleton.1 hn
              exact fun hlt ↦ absurd (Set.mem_Iio.1 hlt) (by omega)
            · exact fun hlt ↦ absurd (Set.mem_Iio.1 hlt) (not_lt.2 (hT hx))
  · rw [disjStep, if_neg hskip, if_neg (lt_irrefl _), if_neg (lt_irrefl _)]
    exact disjStepAt_spec hle hmax hnode
  · -- the node is cut at the interval's lower end, and the upper part is handled there
    have hlo : lower ≤ node.upper := not_lt.1 hskip
    let orig : Node := ⟨node.lower, lower - 1, by omega⟩
    let new : Node := ⟨lower, node.upper, hlo⟩
    obtain ⟨s, hs, hspec⟩ := disjStepAt_spec (show new.lower ≤ upper from hle) hmax hnode
    have hcut : RefinesAlong (cells [node]) (cells [orig, new]) ∅ := by
      refine refinesAlong_of_ends ?_ ?_ ?_ <;> simp [orig, new] <;> grind
    refine ⟨s.cons orig, ?_, ?_⟩
    · rw [disjStep, if_neg hskip, if_neg (by omega), if_pos hgt, splitNode_of_lt hgt hlo,
        Run.ok_bind]
      simp only
      rw [hs]
      rfl
    · refine hspec.cons (S := ∅) ?_ rfl (by simp [orig]) le_rfl (Set.empty_union _).symm
        (Set.empty_subset _) fun {T nodes} hT hr ↦ ?_
      · simp only [orig, new]
        omega
      · rw [cells_cons orig]
        rw [cells_cons orig] at hcut
        refine hcut.of_cut ((refinesAlong_empty _).union hr (U := Set.Iio lower) ?_ ?_)
        · rw [Set.union_empty]
          intro x hx
          obtain ⟨n, hn, hx⟩ := mem_sUnion_cells.1 hx
          obtain rfl := List.mem_singleton.1 hn
          simp only [orig] at hx
          exact Set.mem_Iio.2 (by omega)
        · refine Set.union_subset (fun x hx ↦ ?_) (fun x hx ↦ ?_)
          · obtain ⟨n, hn, hx⟩ := mem_sUnion_cells.1 hx
            obtain rfl := List.mem_singleton.1 hn
            exact fun hlt ↦ absurd (Set.mem_Iio.1 hlt) (not_lt.2 hx.1)
          · exact fun hlt ↦ absurd (Set.mem_Iio.1 hlt) (not_lt.2 (hT hx))

/-! ### A whole insertion -/

/-- The loop, from any cursor position: by induction on the nodes after the cursor, each pass
refining its own node and handing the part of the interval above it to the next. -/
theorem addDisjLoop_spec {bits upper : ℕ} (hmax : upper ≤ rangeMax bits) {nodes : List Node}
    {lo lower : ℕ} (hle : lower ≤ upper) (hlo : lo ≤ lower) (hinc : Increasing nodes)
    (hw : Within nodes lo (rangeMax bits)) :
    ∃ nodes', addDisjLoop bits upper lower nodes = .ok nodes' ∧ Increasing nodes' ∧
      Within nodes' lo (rangeMax bits) ∧
      RefinesAlong (cells nodes) (cells nodes') (Set.Icc lower upper) := by
  induction nodes generalizing lo lower with
  | nil =>
    refine ⟨[⟨lower, upper, hle⟩], by rw [addDisjLoop, newNode_of_le hle]; rfl,
      List.pairwise_singleton _ _, by simp [Within]; omega, ?_⟩
    refine refinesAlong_of_ends ?_ ?_ ?_ <;> simp [Set.subset_def]
    exact .inl fun _ h₁ h₂ ↦ ⟨h₁, h₂⟩
  | cons node rest ih =>
    obtain ⟨hnode, hrest⟩ := List.pairwise_cons.1 hinc
    have hbounds := hw node List.mem_cons_self
    have hv := node.valid
    have hwrest : Within rest (node.upper + 1) (rangeMax bits) := fun n hn ↦
      ⟨hnode n hn, (hw n (List.mem_cons_of_mem _ hn)).2⟩
    obtain ⟨step, hstep, hspec⟩ := disjStep_spec hle hmax hbounds.2
    -- everything this pass touches is at most `node.upper`, everything after it is above
    have hlow : ⋃₀ cells [node] ⊆ Set.Iic node.upper := fun x hxc ↦ by
      obtain ⟨n, hn, hx⟩ := mem_sUnion_cells.1 hxc
      obtain rfl := List.mem_singleton.1 hn
      exact hx.2
    have hhigh : ⋃₀ cells rest ⊆ (Set.Iic node.upper)ᶜ := fun x hx hxu ↦ by
      obtain ⟨n, hn, hx⟩ := mem_sUnion_cells.1 hx
      have := hnode n hn
      simp only [Set.mem_Iic] at hxu
      omega
    rw [addDisjLoop, hstep, Run.ok_bind, cells_cons]
    cases step with
    | «break» nodes =>
      obtain ⟨hup, hi, hwn, hr⟩ := hspec
      have hwn' : Within nodes lo node.upper := hwn.mono (by omega) le_rfl
      refine ⟨nodes ++ rest, rfl, hi.append hrest hwn' hwrest (by omega),
        (hwn'.mono le_rfl hbounds.2).append (hwrest.mono (by omega) le_rfl), ?_⟩
      rw [cells_append, ← Set.union_empty (Set.Icc lower upper)]
      refine hr.union (refinesAlong_empty _) (Set.union_subset hlow fun x hx ↦ ?_)
        (Set.union_subset hhigh (Set.empty_subset _))
      exact Set.mem_Iic.2 (hx.2.trans hup)
    | next visited lower' =>
      obtain ⟨hlt, hle', heq, hi, hwv, hr⟩ := hspec
      obtain ⟨tail, htail, hit, hwt, hrt⟩ :=
        ih hle' (by omega) hrest hwrest
      have hwv' : Within visited lo node.upper := hwv.mono (by omega) le_rfl
      refine ⟨visited ++ tail, by simp [htail], hi.append hit hwv' hwt (by omega),
        (hwv'.mono le_rfl hbounds.2).append (hwt.mono (by omega) le_rfl), ?_⟩
      have hS : Set.Icc lower upper =
          Set.Icc lower upper ∩ Set.Iic node.upper ∪ Set.Icc lower' upper := by
        ext x
        simp only [Set.mem_Icc, Set.mem_union, Set.mem_inter_iff, Set.mem_Iic]
        omega
      rw [cells_append, hS]
      refine hr.union hrt (Set.union_subset hlow Set.inter_subset_right)
        (Set.union_subset hhigh fun x hx hxu ↦ ?_)
      simp only [Set.mem_Icc, Set.mem_Iic] at hx hxu
      omega

/-- Increasing nodes inside the width. -/
structure Range.WF (range : Range) : Prop where
  increasing : Increasing range.nodeList
  within : Within range.nodeList 0 (rangeMax range.bits)

/-- **One insertion refines the nodes along its interval**, and no interval computation leaves the
width. -/
theorem addDisjNodes_spec {range : Range} (hwf : range.WF) {lower upper : ℕ} (hle : lower ≤ upper)
    (hmax : upper ≤ rangeMax range.bits) :
    ∃ range', addDisjNodes range lower upper = .ok range' ∧ range'.bits = range.bits ∧
      range'.WF ∧
      RefinesAlong (cells range.nodeList) (cells range'.nodeList) (Set.Icc lower upper) := by
  obtain ⟨nodes', hrun, hi, hw, hr⟩ :=
    addDisjLoop_spec hmax hle (Nat.zero_le lower) hwf.increasing hwf.within
  refine ⟨{ range with nodeList := nodes' }, ?_, rfl, ⟨hi, hw⟩, hr⟩
  rw [addDisjNodes, if_neg (not_lt.2 hle)]
  split
  · next hnil =>
    rw [hnil, addDisjLoop, newNode_of_le hle] at hrun
    rw [newNode_of_le hle]
    cases hrun
    rfl
  · rw [hrun]
    rfl

/-- An interval that misses every node becomes a node of its own, and the others stay. -/
theorem addDisjLoop_of_disjoint (bits : ℕ) {upper : ℕ} {nodes : List Node} {lower : ℕ}
    (hle : lower ≤ upper) (hdis : ∀ n ∈ nodes, n.upper < lower ∨ upper < n.lower) :
    ∃ nodes', addDisjLoop bits upper lower nodes = .ok nodes' ∧
      cells nodes' = insert (Set.Icc lower upper) (cells nodes) := by
  induction nodes with
  | nil =>
    refine ⟨[⟨lower, upper, hle⟩], by rw [addDisjLoop, newNode_of_le hle]; rfl, ?_⟩
    simp [cells, Node.cell]
  | cons node rest ih =>
    have hv := node.valid
    obtain ⟨tail, htail, hcells⟩ := ih fun n hn ↦ hdis n (List.mem_cons_of_mem _ hn)
    rcases hdis node List.mem_cons_self with hlt | hlt
    · refine ⟨node :: tail, ?_, ?_⟩
      · rw [addDisjLoop, disjStep, if_pos hlt]
        simp [htail]
      · rw [cells_cons, hcells, cells_cons node rest, Set.union_insert]
    · refine ⟨⟨lower, upper, hle⟩ :: node :: rest, ?_, ?_⟩
      · rw [addDisjLoop, disjStep, if_neg (by omega), if_pos (by omega), if_pos hlt,
          newNode_of_le hle]
        rfl
      · rw [cells_cons, Set.insert_eq]
        congr 1
        simp [cells, Node.cell]

end OpenImpact.IR
