import Mathlib.Data.List.Nodup
import Mathlib.Data.Finset.Card
import Mathlib.Data.Finset.Range
import Mathlib.Logic.Function.Basic

/-!
# Doubly linked lists in a heap

`Heap.Chain h p l n`: the nodes of `l` stand in the heap one after the other, each linked to its
neighbours, the first one back to `p` and the last one on to `n`. A chain splits and joins where its
list does (`chain_append`), and depends on its own nodes only (`Chain.congr`); `Chain.link` puts a new
node between two chains.
-/

namespace OpenImpact.Foundation

/-- An address in the heap. -/
abbrev Addr := ℕ

/-- A node with its links. -/
structure Node (γ : Type) where
  prev : Option Addr
  next : Option Addr
  val : γ
  deriving DecidableEq

/-- The nodes allocated and not freed. Addresses from `fresh` on have not been used. -/
structure Heap (γ : Type) where
  node : Addr → Option (Node γ)
  fresh : Addr

namespace Heap

variable {γ : Type}

def empty : Heap γ := ⟨fun _ ↦ none, 0⟩

def set (h : Heap γ) (a : Addr) (b : Node γ) : Heap γ :=
  { h with node := Function.update h.node a (some b) }

def alloc (h : Heap γ) (b : Node γ) : Heap γ := { h.set h.fresh b with fresh := h.fresh + 1 }

def free (h : Heap γ) (a : Addr) : Heap γ := { h with node := Function.update h.node a none }

/-- `if (a) a->next = m`, which needs `a` to point to a node. -/
def setNext (a : Option Addr) (m : Addr) (h : Heap γ) : Option (Heap γ) :=
  match a with
  | none => some h
  | some a => (h.node a).map fun b ↦ h.set a { b with next := some m }

/-- `if (a) a->prev = m`. -/
def setPrev (a : Option Addr) (m : Addr) (h : Heap γ) : Option (Heap γ) :=
  match a with
  | none => some h
  | some a => (h.node a).map fun b ↦ h.set a { b with prev := some m }

/-- `if (a) *a = f (*a)`. -/
def modify (a : Option Addr) (f : Node γ → Node γ) (h : Heap γ) : Option (Heap γ) :=
  match a with
  | none => some h
  | some a => (h.node a).map fun b ↦ h.set a (f b)

/-- `if (a) a->next = m`, for an `m` that may be `NULL`. -/
def linkNext (a m : Option Addr) (h : Heap γ) : Option (Heap γ) :=
  h.modify a fun b ↦ { b with next := m }

/-- `if (a) a->prev = m`, for an `m` that may be `NULL`. -/
def linkPrev (a m : Option Addr) (h : Heap γ) : Option (Heap γ) :=
  h.modify a fun b ↦ { b with prev := m }

/-- Setting `next` in an element is linking to another one. -/
theorem setNext_eq_linkNext (a : Option Addr) (m : Addr) (h : Heap γ) :
    h.setNext a m = h.linkNext a (some m) := by
  cases a <;> rfl

/-- So is setting `prev`. -/
theorem setPrev_eq_linkPrev (a : Option Addr) (m : Addr) (h : Heap γ) :
    h.setPrev a m = h.linkPrev a (some m) := by
  cases a <;> rfl

/-- The two directions are linked in either order. -/
theorem linkPrev_linkNext_comm (a b m n : Option Addr) (h : Heap γ) :
    (h.linkPrev a m).bind (linkNext b n) = (h.linkNext b n).bind (linkPrev a m) := by
  cases a with
  | none => exact (Option.bind_fun_some (h.linkNext b n)).symm
  | some a =>
    cases b with
    | none => exact Option.bind_fun_some (h.linkPrev (some a) m)
    | some b =>
      rcases eq_or_ne a b with rfl | hne
      · cases ha : h.node a <;> simp [linkPrev, linkNext, modify, ha, set]
      · cases ha : h.node a <;> cases hb : h.node b <;>
          simp [linkPrev, linkNext, modify, ha, hb, set, hne, hne.symm,
            Function.update_comm hne]

@[simp] theorem set_node_self (h : Heap γ) (a : Addr) (b : Node γ) :
    (h.set a b).node a = some b := Function.update_self ..

theorem set_node_of_ne (h : Heap γ) {a a' : Addr} (hne : a' ≠ a) (b : Node γ) :
    (h.set a b).node a' = h.node a' := Function.update_of_ne hne _ _

@[simp] theorem set_fresh (h : Heap γ) (a : Addr) (b : Node γ) : (h.set a b).fresh = h.fresh := rfl

theorem free_node_of_ne (h : Heap γ) {a a' : Addr} (hne : a' ≠ a) :
    (h.free a).node a' = h.node a' := Function.update_of_ne hne _ _

@[simp] theorem free_fresh (h : Heap γ) (a : Addr) : (h.free a).fresh = h.fresh := rfl

/-! ### Chains -/

/-- The address of the first node, or `n`. -/
def headAddr (n : Option Addr) : List (Addr × γ) → Option Addr
  | [] => n
  | x :: _ => some x.1

/-- The address of the last node, or `p`. -/
def lastAddr (p : Option Addr) : List (Addr × γ) → Option Addr
  | [] => p
  | x :: l => lastAddr (some x.1) l

@[simp] theorem headAddr_nil (n : Option Addr) : headAddr n ([] : List (Addr × γ)) = n := rfl

@[simp] theorem headAddr_cons (n : Option Addr) (x : Addr × γ) (l : List (Addr × γ)) :
    headAddr n (x :: l) = some x.1 := rfl

@[simp] theorem lastAddr_nil (p : Option Addr) : lastAddr p ([] : List (Addr × γ)) = p := rfl

@[simp] theorem lastAddr_cons (p : Option Addr) (x : Addr × γ) (l : List (Addr × γ)) :
    lastAddr p (x :: l) = lastAddr (some x.1) l := rfl

/-- The first address of two lists. -/
@[simp] theorem headAddr_append (n : Option Addr) (l₁ l₂ : List (Addr × γ)) :
    headAddr n (l₁ ++ l₂) = headAddr (headAddr n l₂) l₁ := by
  cases l₁ <;> rfl

/-- The last address of two lists. -/
@[simp] theorem lastAddr_append (p : Option Addr) (l₁ l₂ : List (Addr × γ)) :
    lastAddr p (l₁ ++ l₂) = lastAddr (lastAddr p l₁) l₂ := by
  induction l₁ generalizing p with
  | nil => rfl
  | cons x l₁ ih => exact ih _

/-- Only an empty list has no last address. -/
theorem lastAddr_eq_none {l : List (Addr × γ)} : lastAddr none l = none ↔ l = [] := by
  rcases l.eq_nil_or_concat with rfl | ⟨l, x, rfl⟩
  · simp
  · rw [List.concat_eq_append, lastAddr_append]
    simp

/-- The nodes of `l`, linked. -/
def Chain (h : Heap γ) : Option Addr → List (Addr × γ) → Option Addr → Prop
  | _, [], _ => True
  | p, x :: l, n => h.node x.1 = some ⟨p, headAddr n l, x.2⟩ ∧ h.Chain (some x.1) l n

variable {h h' : Heap γ} {p n : Option Addr} {l l₁ l₂ : List (Addr × γ)} {x : Addr × γ}

/-- Two lists that are linked one behind the other. -/
theorem chain_append :
    h.Chain p (l₁ ++ l₂) n ↔ h.Chain p l₁ (headAddr n l₂) ∧ h.Chain (lastAddr p l₁) l₂ n := by
  induction l₁ generalizing p with
  | nil => simp [Chain]
  | cons x l₁ ih => simp [Chain, ih, and_assoc]

/-- A node of a chain, with its links. -/
theorem Chain.node (hc : h.Chain p (l₁ ++ x :: l₂) n) :
    h.node x.1 = some ⟨lastAddr p l₁, headAddr n l₂, x.2⟩ :=
  (chain_append.1 hc).2.1

/-- A list only depends on its own elements. -/
theorem Chain.congr (hc : h.Chain p l n) (heq : ∀ y ∈ l, h'.node y.1 = h.node y.1) :
    h'.Chain p l n := by
  induction l generalizing p with
  | nil => trivial
  | cons x l ih =>
    rw [List.forall_mem_cons] at heq
    exact ⟨heq.1.trans hc.1, ih hc.2 heq.2⟩

/-- The first node determines what follows it. -/
theorem Chain.eq_of_headAddr (h₁ : h.Chain p l₁ none) (h₂ : h.Chain p l₂ none)
    (heq : headAddr none l₁ = headAddr none l₂) : l₁ = l₂ := by
  induction l₁ generalizing p l₂ with
  | nil =>
    cases l₂ with
    | nil => rfl
    | cons y l₂ => cases heq
  | cons x l₁ ih =>
    cases l₂ with
    | nil => cases heq
    | cons y l₂ =>
      have haddr : x.1 = y.1 := Option.some.inj heq
      have hnode := h₁.1.symm.trans (haddr ▸ h₂.1)
      obtain ⟨-, hnext, hval⟩ := Node.mk.inj (Option.some.inj hnode)
      rw [ih h₁.2 (haddr ▸ h₂.2) hnext, Prod.ext haddr hval]

/-- The last node determines what comes before it. -/
theorem Chain.eq_of_lastAddr (h₁ : h.Chain none l₁ n) (h₂ : h.Chain none l₂ n)
    (heq : lastAddr none l₁ = lastAddr none l₂) : l₁ = l₂ := by
  induction l₁ using List.reverseRecOn generalizing l₂ n with
  | nil => exact (lastAddr_eq_none.1 heq.symm).symm
  | append_singleton l₁ x ih =>
    rcases l₂.eq_nil_or_concat with rfl | ⟨l₂, y, rfl⟩
    · rw [lastAddr_append] at heq
      cases heq
    · rw [List.concat_eq_append] at h₂ heq ⊢
      rw [lastAddr_append, lastAddr_append] at heq
      have haddr : x.1 = y.1 := Option.some.inj heq
      have hnode := h₁.node.symm.trans (haddr ▸ h₂.node)
      obtain ⟨hprev, -, hval⟩ := Node.mk.inj (Option.some.inj hnode)
      obtain rfl : x = y := Prod.ext haddr hval
      rw [ih (chain_append.1 h₁).1 (chain_append.1 h₂).1 hprev]

/-- A chain has no more nodes than have been allocated. -/
theorem length_le_fresh (hnodup : (l.map Prod.fst).Nodup) (hfresh : ∀ y ∈ l, y.1 < h.fresh) :
    l.length ≤ h.fresh := by
  have hsub : (l.map Prod.fst).toFinset ⊆ Finset.range h.fresh := fun a ha ↦ by
    obtain ⟨y, hy, rfl⟩ := List.mem_map.1 (List.mem_toFinset.1 ha)
    exact Finset.mem_range.2 (hfresh y hy)
  have hcard := Finset.card_le_card hsub
  rwa [List.toFinset_card_of_nodup hnodup, List.length_map, Finset.card_range] at hcard

/-- Linking the last node of a chain on to `m`, or to nothing. -/
theorem Chain.linkNext (hc : h.Chain none l n) (hnodup : (l.map Prod.fst).Nodup)
    (m : Option Addr) :
    ∃ h', h.linkNext (lastAddr none l) m = some h' ∧ h'.Chain none l m ∧
      h'.fresh = h.fresh ∧ ∀ a, a ∉ l.map Prod.fst → h'.node a = h.node a := by
  rcases l.eq_nil_or_concat with rfl | ⟨l, x, rfl⟩
  · exact ⟨h, rfl, trivial, rfl, fun _ _ ↦ rfl⟩
  · rw [List.concat_eq_append] at hc hnodup ⊢
    have hx := hc.node
    rw [chain_append] at hc
    refine ⟨h.set x.1 ⟨lastAddr none l, m, x.2⟩, ?_, chain_append.2 ⟨?_, ?_⟩, rfl,
      fun a ha ↦ ?_⟩
    · simp only [lastAddr_append, lastAddr_cons, lastAddr_nil, Heap.linkNext, Heap.modify, hx,
        Option.map_some]
    · refine hc.1.congr fun y hy ↦ set_node_of_ne _ ?_ _
      rw [List.map_append, List.map_cons, List.map_nil, List.nodup_append] at hnodup
      exact hnodup.2.2 y.1 (List.mem_map_of_mem hy) x.1 List.mem_cons_self
    · exact ⟨set_node_self .., trivial⟩
    · refine set_node_of_ne _ ?_ _
      rintro rfl
      exact ha (by simp)

/-- Linking the first node of a chain back to `m`, or to nothing. -/
theorem Chain.linkPrev (hc : h.Chain p l none) (hnodup : (l.map Prod.fst).Nodup)
    (m : Option Addr) :
    ∃ h', h.linkPrev (headAddr none l) m = some h' ∧ h'.Chain m l none ∧
      h'.fresh = h.fresh ∧ ∀ a, a ∉ l.map Prod.fst → h'.node a = h.node a := by
  cases l with
  | nil => exact ⟨h, rfl, trivial, rfl, fun _ _ ↦ rfl⟩
  | cons x l =>
    rw [List.map_cons, List.nodup_cons] at hnodup
    refine ⟨h.set x.1 ⟨m, headAddr none l, x.2⟩, ?_, ⟨set_node_self .., ?_⟩, rfl,
      fun a ha ↦ ?_⟩
    · simp only [headAddr_cons, Heap.linkPrev, Heap.modify, hc.1, Option.map_some]
    · refine hc.2.congr fun y hy ↦ set_node_of_ne _ ?_ _
      intro heq
      exact hnodup.1 (heq ▸ List.mem_map_of_mem hy)
    · refine set_node_of_ne _ ?_ _
      rintro rfl
      exact ha (by simp)

/-- Linking the last node of a chain on to `m`. -/
theorem Chain.setNext (hc : h.Chain none l n) (hnodup : (l.map Prod.fst).Nodup) (m : Addr) :
    ∃ h', h.setNext (lastAddr none l) m = some h' ∧ h'.Chain none l (some m) ∧
      h'.fresh = h.fresh ∧ ∀ a, a ∉ l.map Prod.fst → h'.node a = h.node a := by
  rw [setNext_eq_linkNext]
  exact hc.linkNext hnodup (some m)

/-- Linking the first node of a chain back to `m`. -/
theorem Chain.setPrev (hc : h.Chain p l none) (hnodup : (l.map Prod.fst).Nodup) (m : Addr) :
    ∃ h', h.setPrev (headAddr none l) m = some h' ∧ h'.Chain (some m) l none ∧
      h'.fresh = h.fresh ∧ ∀ a, a ∉ l.map Prod.fst → h'.node a = h.node a := by
  rw [setPrev_eq_linkPrev]
  exact hc.linkPrev hnodup (some m)

/-- What linking a new node `m` between two chains needs. -/
structure Linkable (h : Heap γ) (l₁ l₂ : List (Addr × γ)) (m : Addr) (v : γ) : Prop where
  left : ∃ n, h.Chain none l₁ n
  right : ∃ p, h.Chain p l₂ none
  nodup : ((l₁ ++ (m, v) :: l₂).map Prod.fst).Nodup
  node : h.node m = some ⟨lastAddr none l₁, headAddr none l₂, v⟩

variable {m : Addr} {v : γ}

/-- The list with a new element between its two parts. -/
theorem Linkable.linked (hl : Linkable h l₁ l₂ m v) (hleft : h'.Chain none l₁ (some m))
    (hright : h'.Chain (some m) l₂ none) (hnode : h'.node m = h.node m) :
    h'.Chain none (l₁ ++ (m, v) :: l₂) none :=
  chain_append.2 ⟨hleft, hnode.trans hl.node, hright⟩

/-- The new element is in neither part, and the parts have none in common. -/
theorem Linkable.notMem (hl : Linkable h l₁ l₂ m v) :
    m ∉ l₁.map Prod.fst ∧ m ∉ l₂.map Prod.fst ∧
      ∀ y, y ∈ l₁.map Prod.fst → y ∉ l₂.map Prod.fst := by
  have hnodup := hl.nodup
  rw [List.map_append, List.map_cons, List.nodup_append, List.nodup_cons] at hnodup
  obtain ⟨-, ⟨hm, -⟩, hdisj⟩ := hnodup
  exact ⟨fun h ↦ hdisj m h m List.mem_cons_self rfl, hm,
    fun y hy hy' ↦ hdisj y hy y (List.mem_cons_of_mem _ hy') rfl⟩

/-- **Linking a new node between two chains**, from the left. -/
theorem Linkable.setNext_setPrev (hl : Linkable h l₁ l₂ m v) :
    ∃ h₁ h₂, h.setNext (lastAddr none l₁) m = some h₁ ∧
      h₁.setPrev (headAddr none l₂) m = some h₂ ∧ h₂.fresh = h.fresh ∧
      h₂.Chain none (l₁ ++ (m, v) :: l₂) none := by
  obtain ⟨n, hleft⟩ := hl.left
  obtain ⟨p, hright⟩ := hl.right
  obtain ⟨hm₁, hm₂, hdisj⟩ := hl.notMem
  have hnodup := hl.nodup
  rw [List.map_append, List.map_cons, List.nodup_append, List.nodup_cons] at hnodup
  obtain ⟨h₁, hset₁, hleft₁, hfresh₁, hframe₁⟩ := hleft.setNext hnodup.1 m
  have hright₁ : h₁.Chain p l₂ none := hright.congr fun y hy ↦
    hframe₁ _ fun hy' ↦ hdisj _ hy' (List.mem_map_of_mem hy)
  obtain ⟨h₂, hset₂, hright₂, hfresh₂, hframe₂⟩ := hright₁.setPrev hnodup.2.1.2 m
  refine ⟨h₁, h₂, hset₁, hset₂, hfresh₂.trans hfresh₁, hl.linked ?_ hright₂ ?_⟩
  · exact hleft₁.congr fun y hy ↦ hframe₂ _ (hdisj _ (List.mem_map_of_mem hy))
  · exact (hframe₂ m hm₂).trans (hframe₁ m hm₁)

/-- **Linking a new node between two chains**, from the right. -/
theorem Linkable.setPrev_setNext (hl : Linkable h l₁ l₂ m v) :
    ∃ h₁ h₂, h.setPrev (headAddr none l₂) m = some h₁ ∧
      h₁.setNext (lastAddr none l₁) m = some h₂ ∧ h₂.fresh = h.fresh ∧
      h₂.Chain none (l₁ ++ (m, v) :: l₂) none := by
  obtain ⟨n, hleft⟩ := hl.left
  obtain ⟨p, hright⟩ := hl.right
  obtain ⟨hm₁, hm₂, hdisj⟩ := hl.notMem
  have hnodup := hl.nodup
  rw [List.map_append, List.map_cons, List.nodup_append, List.nodup_cons] at hnodup
  obtain ⟨h₁, hset₁, hright₁, hfresh₁, hframe₁⟩ := hright.setPrev hnodup.2.1.2 m
  have hleft₁ : h₁.Chain none l₁ n := hleft.congr fun y hy ↦
    hframe₁ _ (hdisj _ (List.mem_map_of_mem hy))
  obtain ⟨h₂, hset₂, hleft₂, hfresh₂, hframe₂⟩ := hleft₁.setNext hnodup.1 m
  refine ⟨h₁, h₂, hset₁, hset₂, hfresh₂.trans hfresh₁, hl.linked hleft₂ ?_ ?_⟩
  · exact hright₁.congr fun y hy ↦ hframe₂ _ fun hy' ↦ hdisj _ hy' (List.mem_map_of_mem hy)
  · exact (hframe₂ m hm₁).trans (hframe₁ m hm₂)

/-! ### Taking out, and putting in at the ends -/

/-- **Taking a node out of a chain**: its neighbours are linked to each other. -/
theorem Chain.unlink (hc : h.Chain none (l₁ ++ x :: l₂) none)
    (hnodup : ((l₁ ++ x :: l₂).map Prod.fst).Nodup) :
    ∃ h₁ h₂, h.linkNext (lastAddr none l₁) (headAddr none l₂) = some h₁ ∧
      h₁.linkPrev (headAddr none l₂) (lastAddr none l₁) = some h₂ ∧
      h₂.Chain none (l₁ ++ l₂) none ∧ h₂.fresh = h.fresh ∧
      ∀ a, a ∉ (l₁ ++ l₂).map Prod.fst → h₂.node a = h.node a := by
  rw [List.map_append, List.map_cons, List.nodup_append, List.nodup_cons] at hnodup
  obtain ⟨hnodup₁, ⟨-, hnodup₂⟩, hdisj⟩ := hnodup
  have hapart {a : Addr} (h₁ : a ∈ l₁.map Prod.fst) (h₂ : a ∈ l₂.map Prod.fst) : False :=
    hdisj a h₁ a (List.mem_cons_of_mem _ h₂) rfl
  obtain ⟨hleft, -, hright⟩ := chain_append.1 hc
  obtain ⟨h₁, hset₁, hleft₁, hfresh₁, hframe₁⟩ := hleft.linkNext hnodup₁ (headAddr none l₂)
  have hright₁ : h₁.Chain (some x.1) l₂ none := hright.congr fun y hy ↦
    hframe₁ _ fun hy' ↦ hapart hy' (List.mem_map_of_mem hy)
  obtain ⟨h₂, hset₂, hright₂, hfresh₂, hframe₂⟩ := hright₁.linkPrev hnodup₂ (lastAddr none l₁)
  refine ⟨h₁, h₂, hset₁, hset₂, chain_append.2 ⟨?_, hright₂⟩, hfresh₂.trans hfresh₁, fun a ha ↦ ?_⟩
  · exact hleft₁.congr fun y hy ↦ hframe₂ _ (hapart (List.mem_map_of_mem hy))
  · rw [List.map_append, List.mem_append, not_or] at ha
    exact (hframe₂ a ha.2).trans (hframe₁ a ha.1)

/-- Another value for a node. -/
theorem Chain.setVal (hc : h.Chain p (l₁ ++ x :: l₂) n)
    (hnodup : ((l₁ ++ x :: l₂).map Prod.fst).Nodup) (w : γ) :
    (h.set x.1 ⟨lastAddr p l₁, headAddr n l₂, w⟩).Chain p (l₁ ++ (x.1, w) :: l₂) n := by
  rw [List.map_append, List.map_cons, List.nodup_append, List.nodup_cons] at hnodup
  obtain ⟨hleft, -, hright⟩ := chain_append.1 hc
  refine chain_append.2 ⟨?_, set_node_self .., ?_⟩
  · refine hleft.congr fun y hy ↦ set_node_of_ne _ ?_ _
    exact hnodup.2.2 y.1 (List.mem_map_of_mem hy) x.1 List.mem_cons_self
  · refine hright.congr fun y hy ↦ set_node_of_ne _ ?_ _
    exact fun heq ↦ hnodup.2.1.1 (heq ▸ List.mem_map_of_mem hy)

/-- **Putting a node in front of a chain**, whatever its links were. -/
theorem Chain.push (hc : h.Chain none l none) (hnodup : ((x :: l).map Prod.fst).Nodup) :
    ∃ h', (h.set x.1 ⟨none, headAddr none l, x.2⟩).linkPrev (headAddr none l) (some x.1) = some h' ∧
      h'.Chain none (x :: l) none ∧ h'.fresh = h.fresh ∧
      ∀ a, a ∉ (x :: l).map Prod.fst → h'.node a = h.node a := by
  rw [List.map_cons, List.nodup_cons] at hnodup
  have hset : (h.set x.1 ⟨none, headAddr none l, x.2⟩).Chain none l none := hc.congr fun y hy ↦ by
    refine set_node_of_ne _ ?_ _
    intro heq
    exact hnodup.1 (heq ▸ List.mem_map_of_mem hy)
  obtain ⟨h', hlink, hc', hfresh, hframe⟩ := hset.linkPrev hnodup.2 (some x.1)
  refine ⟨h', hlink, ⟨(hframe x.1 hnodup.1).trans (set_node_self ..), hc'⟩, hfresh, fun a ha ↦ ?_⟩
  rw [List.map_cons, List.mem_cons, not_or] at ha
  exact (hframe a ha.2).trans (set_node_of_ne _ ha.1 _)

/-- **Putting a new node behind a chain.** -/
theorem Chain.append (hc : h.Chain none l none) (hnodup : (l.map Prod.fst).Nodup)
    (hx : x.1 ∉ l.map Prod.fst) (hnode : h.node x.1 = some ⟨lastAddr none l, none, x.2⟩) :
    ∃ h', h.linkNext (lastAddr none l) (some x.1) = some h' ∧ h'.Chain none (l ++ [x]) none ∧
      h'.fresh = h.fresh ∧ ∀ a, a ∉ l.map Prod.fst → h'.node a = h.node a := by
  obtain ⟨h', hlink, hc', hfresh, hframe⟩ := hc.linkNext hnodup (some x.1)
  exact ⟨h', hlink, chain_append.2 ⟨hc', (hframe x.1 hx).trans hnode, trivial⟩, hfresh, hframe⟩

end Heap

end OpenImpact.Foundation
