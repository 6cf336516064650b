import OpenImpact.Library.Bdd
import Mathlib.Data.List.Basic

/-!
# Cubes of a diagram and nodes of a domain

The cubes that `I_BDD_minterms` lists are disjoint and make up the function (`minterms_spec`): at a node
the array has a 2 for its variable, and the cubes of the two branches are told apart by the digit that
replaces it. The nodes of `I_BDD_new_mutex_domain` stand for consecutive intervals of codes (`Splits`), so
they are disjoint and leave no code out, for all sizes for which `1 << vars` is an `int`
(`bddsRight_iff`).

The package of diagrams is a parameter: `bddAnd` is any function that computes a conjunction, and a
diagram is any ordered one (`IsBdd`). Sharing of nodes and reference counts have no effect on what
is computed and are left out. The number of minterms is not bounded here, as in the source.
-/

namespace OpenImpact.Bdds

variable {dd : DdManager} {list : List ℕ} {a : ℕ → Bool}

/-! ### Minterms -/

/-- The cubes are disjoint, and are those of a function. -/
structure CubesOf (cubes : List (List ℕ)) (p : (ℕ → Bool) → Prop) : Prop where
  disjoint : cubes.Pairwise fun c d ↦ ∀ a, ¬(InCube c a ∧ InCube d a)
  cover : ∀ a, (∃ c ∈ cubes, InCube c a) ↔ p a

theorem inCube_set {index v : ℕ} (hlist : list[index]? = some 2) (hv : v ≠ 2) :
    InCube (list.set index v) a ↔ InCube list a ∧ (a index).toNat = v := by
  have hlt : index < list.length := (List.getElem?_eq_some_iff.1 hlist).1
  constructor
  · intro h
    have hself := (h index v (by simp [hlt])).resolve_left hv
    refine ⟨fun i w hw ↦ ?_, hself.symm⟩
    rcases eq_or_ne i index with rfl | hne
    · exact .inl (Option.some.inj (hw.symm.trans hlist))
    · exact h i w (by rwa [List.getElem?_set_ne hne.symm])
  · rintro ⟨h, hself⟩ i w hw
    rcases eq_or_ne i index with rfl | hne
    · rw [List.getElem?_set_self hlt] at hw
      exact .inr ((Option.some.inj hw).symm.trans hself.symm)
    · rw [List.getElem?_set_ne hne.symm] at hw
      exact h i w hw

theorem set_two {index : ℕ} (hlist : list[index]? = some 2) : list.set index 2 = list := by
  refine List.ext_getElem? fun i ↦ ?_
  rcases eq_or_ne i index with rfl | hne
  · rw [hlist, List.getElem?_set_self (List.getElem?_eq_some_iff.1 hlist).1]
  · rw [List.getElem?_set_ne hne.symm]

/-- The cubes of the two branches together. -/
theorem CubesOf.append {l₀ l₁ : List (List ℕ)} {p₀ p₁ : (ℕ → Bool) → Prop} (h₀ : CubesOf l₀ p₀)
    (h₁ : CubesOf l₁ p₁) (hne : ∀ a, p₀ a → ¬p₁ a) : CubesOf (l₀ ++ l₁) fun a ↦ p₀ a ∨ p₁ a := by
  refine ⟨List.pairwise_append.2 ⟨h₀.disjoint, h₁.disjoint, fun c hc d hd a ⟨hca, hda⟩ ↦ ?_⟩,
    fun a ↦ ?_⟩
  · exact hne a ((h₀.cover a).1 ⟨c, hc, hca⟩) ((h₁.cover a).1 ⟨d, hd, hda⟩)
  · rw [← h₀.cover, ← h₁.cover]
    simp only [List.mem_append, or_and_right, exists_or]

/-- **`I_BDD_minterms_aux`** adds the cubes of a node inside the cube of the array, and leaves the array as
it was. -/
theorem mintermsAux_spec {n : DdNode} (hbdd : dd.IsBdd n) (hbackground : dd.background ≠ 1)
    (hlist : ∀ i ∈ n.support, list[i]? = some 2) (comp : Bool) (mins : List (List ℕ)) :
    ∃ cubes, mintermsAux dd comp n list mins = .ok (list, mins ++ cubes) ∧
      CubesOf cubes fun a ↦ InCube list a ∧ (comp ^^ n.eval a) = true := by
  induction n generalizing list comp mins with
  | const value =>
    obtain rfl : value = 1 := hbdd
    cases comp with
    | false =>
      refine ⟨[list], ?_, List.pairwise_singleton _ _, fun a ↦ by simp [DdNode.eval]⟩
      simp [mintermsAux, hbackground.symm]
    | true =>
      refine ⟨[], ?_, List.Pairwise.nil, fun a ↦ by simp [DdNode.eval]⟩
      simp [mintermsAux]
  | node index tComp t eComp e iht ihe =>
    obtain ⟨-, ht, he, hlevel⟩ := hbdd
    have hself : list[index]? = some 2 := hlist index List.mem_cons_self
    have hbelow : ∀ v, ∀ i ∈ t.support ++ e.support, (list.set index v)[i]? = some 2 := by
      intro v i hi
      have hne : index ≠ i := fun heq ↦ (hlevel i hi).ne (congrArg dd.perm heq)
      rw [List.getElem?_set_ne hne]
      exact hlist i (List.mem_cons_of_mem _ hi)
    obtain ⟨cubes₀, hrun₀, hcubes₀⟩ := ihe he (fun i hi ↦ hbelow 0 i (List.mem_append_right _ hi))
      (eComp ^^ comp) mins
    obtain ⟨cubes₁, hrun₁, hcubes₁⟩ := iht ht (fun i hi ↦ hbelow 1 i (List.mem_append_left _ hi))
      (tComp ^^ comp) (mins ++ cubes₀)
    refine ⟨cubes₀ ++ cubes₁, ?_, ?_⟩
    · have hlt : ¬list.length ≤ index := not_le.2 (List.getElem?_eq_some_iff.1 hself).1
      simp only [mintermsAux, if_neg hlt, hrun₀, Run.ok_bind, List.set_set, hrun₁, set_two hself,
        List.append_assoc]
    · have happend := hcubes₀.append hcubes₁ fun a h₀ h₁ ↦ by
        have hzero := ((inCube_set hself (by decide)).1 h₀.1).2
        have hone := ((inCube_set hself (by decide)).1 h₁.1).2
        omega
      refine ⟨happend.disjoint, fun a ↦ (happend.cover a).trans ?_⟩
      rw [inCube_set hself (by decide), inCube_set hself (by decide)]
      cases ha : a index with
      | true => simp [DdNode.eval, ha, Bool.xor_left_comm]
      | false => simp [DdNode.eval, ha, Bool.xor_left_comm]

/-- **`I_BDD_minterms`** returns disjoint cubes that make up the function. -/
theorem minterms_spec {f : Edge} (hbdd : dd.IsBdd f.node) (hbackground : dd.background ≠ 1) :
    ∃ cubes, minterms dd f = .ok cubes ∧ CubesOf cubes fun a ↦ f.eval a = true := by
  have hindex : ∀ n : DdNode, dd.IsBdd n → ∀ i ∈ n.support, i < dd.size := by
    intro n hn
    induction n with
    | const => exact fun i hi ↦ absurd hi List.not_mem_nil
    | node index _ t _ e iht ihe =>
      obtain ⟨hlt, ht, he, -⟩ := hn
      refine List.forall_mem_cons.2 ⟨hlt, fun i hi ↦ ?_⟩
      exact (List.mem_append.1 hi).elim (iht ht i) (ihe he i)
  have hlist : ∀ i ∈ f.node.support, (List.replicate dd.size 2)[i]? = some 2 := fun i hi ↦ by
    simp [hindex _ hbdd i hi]
  obtain ⟨cubes, hrun, hcubes⟩ := mintermsAux_spec hbdd hbackground hlist f.comp []
  refine ⟨cubes, ?_, hcubes.disjoint, fun a ↦ (hcubes.cover a).trans (and_iff_right fun i v hv ↦ ?_)⟩
  · rw [minterms, hrun]
    rfl
  · exact .inl (List.eq_of_mem_replicate (List.mem_of_getElem? hv))

/-! ### Intervals of codes -/

/-- Nodes for consecutive intervals of codes, from `lo` to below `hi`. -/
inductive Splits (code : (ℕ → Bool) → ℕ) : List Edge → ℕ → ℕ → Prop
  | nil (lo) : Splits code [] lo lo
  | cons {node nodes lo mid hi} (hnode : ∀ a, node.eval a = true ↔ lo ≤ code a ∧ code a < mid)
    (hlt : lo < mid) (hsplits : Splits code nodes mid hi) : Splits code (node :: nodes) lo hi

variable {code : (ℕ → Bool) → ℕ} {nodes : List Edge} {lo hi : ℕ}

/-- Some node has an assignment if its code is in the whole interval. -/
theorem Splits.exists_iff (h : Splits code nodes lo hi) :
    lo ≤ hi ∧ ((∃ node ∈ nodes, node.eval a = true) ↔ lo ≤ code a ∧ code a < hi) := by
  induction h with
  | nil lo => exact ⟨le_rfl, by simp⟩
  | @cons node nodes lo mid hi hnode hlt _ ih =>
    obtain ⟨hle, hiff⟩ := ih
    refine ⟨hlt.le.trans hle, ?_⟩
    rw [List.exists_mem_cons_iff, hnode, hiff]
    omega

theorem Splits.pairwise (h : Splits code nodes lo hi) :
    nodes.Pairwise fun f g ↦ ∀ a, ¬(f.eval a = true ∧ g.eval a = true) := by
  induction h with
  | nil lo => exact List.Pairwise.nil
  | @cons node nodes lo mid hi hnode hlt hsplits ih =>
    refine List.pairwise_cons.2 ⟨fun g hg a ⟨hf, hga⟩ ↦ ?_, ih⟩
    have hmid := ((hsplits.exists_iff (a := a)).2.1 ⟨g, hg, hga⟩).1
    exact absurd ((hnode a).1 hf).2 (not_lt.2 hmid)

theorem Splits.satisfiable (h : Splits code nodes lo hi) (hcode : ∀ c < hi, ∃ a, code a = c) :
    ∀ node ∈ nodes, ∃ a, node.eval a = true := by
  induction h with
  | nil lo => exact fun _ h ↦ absurd h List.not_mem_nil
  | @cons node nodes lo mid hi hnode hlt hsplits ih =>
    refine List.forall_mem_cons.2 ⟨?_, ih hcode⟩
    have hle := (hsplits.exists_iff (a := fun _ ↦ false)).1
    obtain ⟨a, ha⟩ := hcode lo (hlt.trans_le hle)
    exact ⟨a, (hnode a).2 (by omega)⟩

/-! ### Domains -/

/-- Functions that exclude each other and leave nothing out, none of them empty. -/
structure MutexDomain (nodes : List Edge) : Prop where
  satisfiable : ∀ node ∈ nodes, ∃ a, node.eval a = true
  disjoint : nodes.Pairwise fun f g ↦ ∀ a, ¬(f.eval a = true ∧ g.eval a = true)
  exhaustive : ∀ a, ∃ node ∈ nodes, node.eval a = true

theorem countVars_eq (shbuf vars : ℕ) : countVars shbuf vars = vars + shbuf.size := by
  induction shbuf, vars using countVars.induct with
  | case1 vars => rw [countVars, if_pos rfl, Nat.size_zero, add_zero]
  | case2 shbuf vars hne ih =>
    rw [countVars, if_neg hne, ih, Nat.shiftRight_one]
    have hbit : Nat.bit shbuf.bodd shbuf.div2 = shbuf := Nat.bit_bodd_div2 shbuf
    have hsize := Nat.size_bit (hbit.symm ▸ hne)
    rw [hbit, Nat.div2_val] at hsize
    omega

variable {bddAnd : Edge → Edge → Edge} {base vars : ℕ}

/-- The code of an assignment in the new variables. -/
def codeOf (base vars : ℕ) (a : ℕ → Bool) : ℕ := Nat.ofBits fun j : Fin vars ↦ a (base + j)

theorem exists_codeOf (base : ℕ) {c : ℕ} (hc : c < 2 ^ vars) : ∃ a, codeOf base vars a = c := by
  refine ⟨fun i ↦ c.testBit (i - base), ?_⟩
  simp only [codeOf, Nat.add_sub_cancel_left]
  rw [Nat.ofBits_testBit, Nat.mod_eq_of_lt hc]

theorem domainNodes_length (ddVar : ℕ → Edge) {n : ℕ} (ctr extra : ℕ) :
    (domainNodes bddAnd ddVar vars n ctr extra).length = n := by
  induction n generalizing ctr extra with
  | zero => rfl
  | succ n ih =>
    rw [domainNodes]
    split_ifs
    · rw [List.length_cons, ih]
    · rw [List.length_cons, ih]

section

variable (hand : ∀ f g a, (bddAnd f g).eval a = (f.eval a && g.eval a))

include hand

/-- The node of an element asks for the digits of its code from the first variable on. -/
theorem codeNode_eval (ctr j n : ℕ) (f : Edge) :
    (codeNode bddAnd (fun j ↦ bddVar (base + j)) ctr j n f).eval a = true ↔
      f.eval a = true ∧ ∀ k, j ≤ k → k < j + n → a (base + k) = ctr.testBit k := by
  induction n generalizing j f with
  | zero => simp [codeNode]; omega
  | succ n ih =>
    have hbit : ((if ctr.testBit j then bddVar (base + j) else cuddNot (bddVar (base + j))).eval a =
        true) ↔ a (base + j) = ctr.testBit j := by
      cases ctr.testBit j <;> cases ha : a (base + j) <;>
        simp [bddVar, cuddNot, Edge.eval, DdNode.eval, ha]
    rw [codeNode, ih, hand, Bool.and_eq_true, hbit]
    constructor
    · rintro ⟨⟨hj, hf⟩, hall⟩
      refine ⟨hf, fun k hjk hk ↦ ?_⟩
      rcases hjk.eq_or_lt with rfl | hlt
      · exact hj
      · exact hall k hlt (by omega)
    · rintro ⟨hf, hall⟩
      exact ⟨⟨hall j le_rfl (by omega), hf⟩, fun k hjk hk ↦ hall k (by omega) (by omega)⟩

/-- The codes of an element: those with its digits from `start` on. -/
theorem codeNode_eval_iff {ctr start : ℕ} (hstart : start ≤ vars) (hctr : ctr < 2 ^ vars) :
    (codeNode bddAnd (fun j ↦ bddVar (base + j)) ctr start (vars - start) one).eval a = true ↔
      codeOf base vars a >>> start = ctr >>> start := by
  rw [codeNode_eval hand]
  have hlt : codeOf base vars a < 2 ^ vars := Nat.ofBits_lt_two_pow _
  have hbit : ∀ k, k < vars → (codeOf base vars a).testBit k = a (base + k) := fun k hk ↦
    Nat.testBit_ofBits_lt _ k hk
  constructor
  · rintro ⟨-, hall⟩
    refine Nat.eq_of_testBit_eq fun i ↦ ?_
    rw [Nat.testBit_shiftRight, Nat.testBit_shiftRight]
    rcases lt_or_ge (start + i) vars with hi | hi
    · rw [hbit _ hi]
      exact hall (start + i) (by omega) (by omega)
    · have hpow : 2 ^ vars ≤ 2 ^ (start + i) := Nat.pow_le_pow_right (by decide) hi
      rw [Nat.testBit_lt_two_pow (hlt.trans_le hpow), Nat.testBit_lt_two_pow (hctr.trans_le hpow)]
  · intro heq
    refine ⟨rfl, fun k hk hkv ↦ ?_⟩
    have hdigit := congrArg (fun n ↦ n.testBit (k - start)) heq
    simp only [Nat.testBit_shiftRight] at hdigit
    rwa [show start + (k - start) = k by omega, hbit k (by omega)] at hdigit

/-- The nodes split the codes from `ctr` on: two for each of the first elements while codes are left
over, and then one. -/
theorem domainNodes_splits {n ctr extra : ℕ} (hextra : extra ≤ n) (heven : 0 < extra → ctr % 2 = 0)
    (hbound : ctr + n + extra ≤ 2 ^ vars) (hvars : 0 < vars) :
    Splits (codeOf base vars) (domainNodes bddAnd (fun j ↦ bddVar (base + j)) vars n ctr extra) ctr
      (ctr + n + extra) := by
  induction n generalizing ctr extra with
  | zero =>
    obtain rfl : extra = 0 := by omega
    exact .nil ctr
  | succ n ih =>
    rw [domainNodes]
    rcases Nat.eq_zero_or_pos extra with rfl | hpos
    · rw [if_neg (lt_irrefl 0), if_neg (lt_irrefl 0)]
      have hrest := ih (Nat.zero_le n) (by simp : 0 < 0 → (ctr + 1) % 2 = 0) (by omega)
      rw [show ctr + 1 + n + 0 = ctr + (n + 1) + 0 by omega] at hrest
      refine .cons (fun a ↦ ?_) (Nat.lt_succ_self ctr) hrest
      rw [codeNode_eval_iff hand (Nat.zero_le vars) (by omega), Nat.shiftRight_zero, Nat.shiftRight_zero]
      omega
    · rw [if_pos hpos, if_pos hpos]
      have hparity := heven hpos
      have hrest := ih (by omega : extra - 1 ≤ n) (by omega : 0 < extra - 1 → (ctr + 1 + 1) % 2 = 0)
        (by omega)
      rw [show ctr + 1 + 1 + n + (extra - 1) = ctr + (n + 1) + extra by omega] at hrest
      refine .cons (fun a ↦ ?_) (by omega) hrest
      rw [codeNode_eval_iff hand hvars (by omega), Nat.shiftRight_one, Nat.shiftRight_one]
      omega

/-- **`I_BDD_new_mutex_domain`** fills in a domain of the size that is asked for, unless there are too many
variables for `1 << vars`. -/
theorem newMutexDomain_spec (dd : DdManager) {size : ℕ} (hsize : 1 ≤ size) :
    (∃ nodes dd', newMutexDomain bddAnd dd size = .ok (nodes, dd') ∧ nodes.length = size ∧
        MutexDomain nodes) ↔ size ≤ 2 ^ 30 := by
  rcases hsize.eq_or_lt with rfl | htwo
  · refine iff_of_true ⟨[one], dd, rfl, rfl, ?_, List.pairwise_singleton _ _, fun _ ↦ ?_⟩ (by decide)
    · exact List.forall_mem_singleton.2 ⟨fun _ ↦ false, rfl⟩
    · exact ⟨one, List.mem_singleton_self one, rfl⟩
  · rw [newMutexDomain, if_neg (by omega), if_neg (by omega), countVars_eq, zero_add]
    simp only [Nat.one_shiftLeft]
    set v := (size - 1).size with hv
    have hlt : size - 1 < 2 ^ v := Nat.lt_size_self _
    have hvars : 0 < v := Nat.lt_size.2 (by omega)
    have hge : 2 ^ (v - 1) ≤ size - 1 := Nat.lt_size.1 (by omega)
    have hdouble : 2 ^ v = 2 * 2 ^ (v - 1) := by rw [← pow_succ', Nat.sub_add_cancel hvars]
    have hint : 2 ^ v ≥ 2 ^ 31 ↔ ¬size ≤ 2 ^ 30 := by
      have hsize30 : 30 < v ↔ 2 ^ 30 ≤ size - 1 := Nat.lt_size
      rw [ge_iff_le, Nat.pow_le_pow_iff_right (by decide)]
      omega
    rcases em (size ≤ 2 ^ 30) with hfit | hfit
    · rw [if_neg (hint.not.2 (not_not.2 hfit))]
      refine iff_of_true ⟨_, _, rfl, domainNodes_length _ _ _, ?_⟩ hfit
      have hsplits : Splits (codeOf dd.size v)
          (domainNodes bddAnd (fun j ↦ bddVar (dd.size + j)) v size 0 (2 ^ v - size)) 0
          (0 + size + (2 ^ v - size)) :=
        domainNodes_splits hand (by omega) (by simp) (by omega) hvars
      rw [show 0 + size + (2 ^ v - size) = 2 ^ v by omega] at hsplits
      refine ⟨hsplits.satisfiable fun c hc ↦ exists_codeOf dd.size hc, hsplits.pairwise, fun a ↦ ?_⟩
      exact hsplits.exists_iff.2.2 ⟨Nat.zero_le _, Nat.ofBits_lt_two_pow _⟩
    · rw [if_pos (hint.2 hfit)]
      exact iff_of_false (fun ⟨_, _, hrun, _⟩ ↦ nomatch hrun) hfit

end

/-- What the two functions are to do: a domain of a size, and the cubes of a diagram. -/
def BddsRight (bddAnd : Edge → Edge → Edge) (dd : DdManager) (size : ℕ) (f : Edge) : Prop :=
  (∃ nodes dd', newMutexDomain bddAnd dd size = .ok (nodes, dd') ∧ nodes.length = size ∧
    MutexDomain nodes) ∧
  ∃ cubes, minterms dd f = .ok cubes ∧ CubesOf cubes fun a ↦ f.eval a = true

/-- **Domains and minterms** are right for every manager and every diagram, up to the sizes for which
`1 << vars` leaves the range of `int`. -/
theorem bddsRight_iff (hand : ∀ f g a, (bddAnd f g).eval a = (f.eval a && g.eval a)) {size : ℕ}
    (hsize : 1 ≤ size) {f : Edge} (hbdd : dd.IsBdd f.node) (hbackground : dd.background ≠ 1) :
    BddsRight bddAnd dd size f ↔ size ≤ 2 ^ 30 := by
  rw [BddsRight, newMutexDomain_spec hand dd hsize, and_iff_left (minterms_spec hbdd hbackground)]

/-! ### A conjunction -/

/-- The node of a variable: without one if the edges are the same, and with a regular "then" edge. -/
def mkNode (index : ℕ) (t e : Edge) : Edge :=
  if t = e then t
  else ⟨t.comp, .node index false t.node (e.comp ^^ t.comp) e.node⟩

/-- `f` in place of the constant 1 below a node, which is the conjunction of a node with a function of
variables below its own. -/
def conjBelow (f : Edge) (comp : Bool) : DdNode → Edge
  | .const value => if (comp ^^ decide (value = 1)) = true then f else cuddNot one
  | .node index tComp t eComp e =>
    mkNode index (conjBelow f (tComp ^^ comp) t) (conjBelow f (eComp ^^ comp) e)

theorem mkNode_eval (index : ℕ) (t e : Edge) :
    (mkNode index t e).eval a = if a index then t.eval a else e.eval a := by
  rw [mkNode]
  split_ifs with heq hindex hindex
  · rfl
  · rw [heq]
  · simp [Edge.eval, DdNode.eval, hindex]
  · simp [Edge.eval, DdNode.eval, hindex, Bool.xor_left_comm]

theorem conjBelow_eval (f : Edge) (comp : Bool) (n : DdNode) :
    (conjBelow f comp n).eval a = (f.eval a && (comp ^^ n.eval a)) := by
  induction n generalizing comp with
  | const value =>
    rw [conjBelow, DdNode.eval]
    split_ifs with h
    · rw [h, Bool.and_true]
    · rw [Bool.not_eq_true] at h
      rw [h, Bool.and_false]
      rfl
  | node index tComp t eComp e iht ihe =>
    rw [conjBelow, mkNode_eval, iht, ihe, DdNode.eval]
    split_ifs <;> simp [Bool.xor_left_comm]

/-- A domain of three elements, in new variables behind two others, and a diagram with a complemented
edge. -/
theorem bddsRight_iff_three :
    BddsRight (fun f g ↦ conjBelow f g.comp g.node) ⟨2, id, 0⟩ 3
      ⟨true, .node 0 false (.node 1 false (.const 1) true (.const 1)) true (.const 1)⟩ := by
  refine (bddsRight_iff (fun f g a ↦ conjBelow_eval f g.comp g.node) (by decide) ?_ (by decide)).2
    (by decide)
  simp [DdManager.IsBdd, DdNode.support]

/-- With more than `2 ^ 31` elements there are 32 variables. -/
theorem not_bddsRight_large :
    ¬BddsRight (fun f g ↦ conjBelow f g.comp g.node) ⟨0, id, 0⟩ 2147483649 one := by
  rintro ⟨hdomain, -⟩
  have hle := (newMutexDomain_spec (fun f g a ↦ conjBelow_eval f g.comp g.node) _ (by decide)).1 hdomain
  exact absurd hle (by decide)

end OpenImpact.Bdds
