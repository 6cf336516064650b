import Mathlib.Logic.Relation
import Mathlib.Data.Set.Insert
import Mathlib.Data.List.Infix

/-!
# Blocking in a search for simple paths

The bookkeeping of a depth-first search that lists the simple paths to a target: a vertex from which
the search came back empty-handed stays blocked, and waits at its successors until one of them is
released. The invariant `Blocking.Inv` says that a blocked vertex off the stack has no way to the
target past the stack, and that a release never reaches down the stack.
-/

namespace OpenImpact

/-- Which vertices are blocked, and which ones wait at a vertex. -/
@[ext] structure Blocking (α : Type*) where
  blocked : Set α
  waiting : α → Set α

namespace Blocking

variable {α : Type*} {succ : α → Set α} {target : α} {b b' : Blocking α} {stack : List α} {v : α}

/-- A release of the first vertex reaches the second. -/
def Wakes (b : Blocking α) (w v : α) : Prop :=
  v ∈ b.waiting w

/-- The invariant of the search, with its stack from the top down. -/
structure Inv (succ : α → Set α) (target : α) (stack : List α) (b : Blocking α) : Prop where
  waiting_eq : ∀ w ∉ b.blocked, b.waiting w = ∅
  onStack : ∀ u ∈ stack, u ∈ b.blocked
  target : target ∉ stack → target ∉ b.blocked
  waits : ∀ v ∈ b.blocked, v ∉ stack → ∀ w ∈ succ v, w ∈ b.blocked ∧ v ∈ b.waiting w
  wakes : ∀ y rest, (y :: rest) <:+ stack → ∀ z, Relation.TransGen b.Wakes y z → z ∉ y :: rest
  nodup : stack.Nodup

/-- A vertex that is not blocked goes on the stack. -/
theorem Inv.push (h : Inv succ target stack b) (hv : v ∉ b.blocked) :
    Inv succ target (v :: stack) { b with blocked := insert v b.blocked } where
  waiting_eq w hw := h.waiting_eq w fun hb ↦ hw (Set.mem_insert_of_mem v hb)
  onStack u hu := by
    rcases List.mem_cons.1 hu with rfl | hu
    · exact Set.mem_insert u _
    · exact Set.mem_insert_of_mem v (h.onStack u hu)
  target ht := by
    rw [List.mem_cons, not_or] at ht
    rw [Set.mem_insert_iff, not_or]
    exact ⟨ht.1, h.target ht.2⟩
  waits u hu hout w hw := by
    rw [List.mem_cons, not_or] at hout
    obtain ⟨hb, hwait⟩ := h.waits u (Set.mem_of_mem_insert_of_ne hu hout.1) hout.2 w hw
    exact ⟨Set.mem_insert_of_mem v hb, hwait⟩
  wakes y rest hsuffix z hz := by
    rcases List.suffix_cons_iff.1 hsuffix with heq | hsuffix
    · -- Nothing waits at the new vertex.
      obtain ⟨rfl, rfl⟩ := List.cons.inj heq
      have hempty : ∀ x, ¬Wakes b y x := fun x hx ↦ by
        rw [Wakes, h.waiting_eq y hv] at hx
        exact hx
      obtain ⟨x, hx, -⟩ := Relation.TransGen.head'_iff.1 hz
      exact absurd hx (hempty x)
    · exact h.wakes y rest hsuffix z hz
  nodup := List.nodup_cons.2 ⟨fun hmem ↦ hv (h.onStack v hmem), h.nodup⟩

/-- A chain through a new wait at successors of `v` passes `v`. -/
theorem transGen_wait {S : Set α} {y z : α}
    (h : Relation.TransGen
      (Wakes { b with waiting := fun w ↦ {u | u ∈ b.waiting w ∨ w ∈ S ∧ u = v} }) y z) :
    Relation.TransGen b.Wakes y z ∨ z = v ∨ Relation.TransGen b.Wakes v z := by
  induction h with
  | single hyz =>
    rcases hyz with hyz | ⟨-, rfl⟩
    · exact Or.inl (.single hyz)
    · exact Or.inr (Or.inl rfl)
  | tail _ hxz ih =>
    rcases hxz with hxz | ⟨-, rfl⟩
    · rcases ih with ih | rfl | ih
      · exact Or.inl (ih.tail hxz)
      · exact Or.inr (Or.inr (.single hxz))
      · exact Or.inr (Or.inr (ih.tail hxz))
    · exact Or.inr (Or.inl rfl)

/-- The vertex on top leaves the stack blocked and waits at its successors, which are blocked too. -/
theorem Inv.wait (h : Inv succ target (v :: stack) b) (hv : v ≠ target)
    (hsucc : ∀ w ∈ succ v, w ∈ b.blocked) :
    Inv succ target stack
      { b with waiting := fun w ↦ {u | u ∈ b.waiting w ∨ w ∈ succ v ∧ u = v} } where
  waiting_eq w hw := by
    ext u
    rw [Set.mem_ofPred_eq, h.waiting_eq w hw]
    simp only [Set.mem_empty_iff_false, false_or, iff_false, not_and]
    exact fun hmem ↦ absurd (hsucc w hmem) hw
  onStack u hu := h.onStack u (List.mem_cons_of_mem v hu)
  target ht := h.target (by
    rw [List.mem_cons, not_or]
    exact ⟨hv.symm, ht⟩)
  waits u hu hout w hw := by
    by_cases heq : u = v
    · subst heq
      exact ⟨hsucc w hw, Or.inr ⟨hw, rfl⟩⟩
    · obtain ⟨hb, hwait⟩ := h.waits u hu (by
        rw [List.mem_cons, not_or]
        exact ⟨heq, hout⟩) w hw
      exact ⟨hb, Or.inl hwait⟩
  wakes y rest hsuffix z hz hmem := by
    obtain ⟨hvout, -⟩ := List.nodup_cons.1 h.nodup
    have hstack : z ∈ stack := hsuffix.subset hmem
    rcases transGen_wait hz with hz | rfl | hz
    · exact h.wakes y rest (hsuffix.trans (List.suffix_cons v stack)) z hz hmem
    · exact hvout hstack
    · exact h.wakes v stack List.suffix_rfl z hz (List.mem_cons_of_mem v hstack)
  nodup := (List.nodup_cons.1 h.nodup).2

/-- What a release from some roots does: it unblocks vertices that it reaches, nobody waits at them
any more, and those who did are unblocked too. The lists of other vertices are as before. -/
structure Released (roots : Set α) (b b' : Blocking α) : Prop where
  blocked : b'.blocked ⊆ b.blocked
  waiting : ∀ x, b'.waiting x ⊆ b.waiting x
  waiting_of_mem : ∀ x ∈ b'.blocked, b'.waiting x = b.waiting x
  waiting_of_notMem : ∀ x ∉ b.blocked, b'.waiting x = b.waiting x
  released : ∀ x ∈ b.blocked, x ∉ b'.blocked →
    b'.waiting x = ∅ ∧ ∀ u ∈ b.waiting x, u ∉ b'.blocked
  reached : ∀ x ∈ b.blocked, x ∉ b'.blocked → ∃ r ∈ roots, Relation.ReflTransGen b.Wakes r x

/-- The vertex on top is released and leaves the stack. -/
theorem Inv.release (h : Inv succ target (v :: stack) b) (hr : Released {v} b b')
    (hv : v ∉ b'.blocked) : Inv succ target stack b' where
  waiting_eq w hw := by
    by_cases hb : w ∈ b.blocked
    · exact (hr.released w hb hw).1
    · rw [hr.waiting_of_notMem w hb, h.waiting_eq w hb]
  onStack u hu := by
    by_contra hfree
    obtain ⟨r, rfl, hreach⟩ := hr.reached u (h.onStack u (List.mem_cons_of_mem v hu)) hfree
    rcases Relation.reflTransGen_iff_eq_or_transGen.1 hreach with rfl | hreach
    · exact (List.nodup_cons.1 h.nodup).1 hu
    · exact h.wakes r stack List.suffix_rfl u hreach (List.mem_cons_of_mem r hu)
  target ht hb := by
    by_cases heq : target = v
    · exact hv (heq ▸ hb)
    · exact h.target (by rw [List.mem_cons, not_or]; exact ⟨heq, ht⟩) (hr.blocked hb)
  waits u hu hout w hw := by
    have hne : u ≠ v := fun heq ↦ hv (heq ▸ hu)
    obtain ⟨hb, hwait⟩ := h.waits u (hr.blocked hu) (by
      rw [List.mem_cons, not_or]
      exact ⟨hne, hout⟩) w hw
    by_cases hfree : w ∈ b'.blocked
    · exact ⟨hfree, by rwa [hr.waiting_of_mem w hfree]⟩
    · exact absurd hu ((hr.released w hb hfree).2 u hwait)
  wakes y rest hsuffix z hz :=
    h.wakes y rest (hsuffix.trans (List.suffix_cons v stack)) z
      (Relation.TransGen.mono (fun x _ hx ↦ hr.waiting x hx) _ _ hz)
  nodup := (List.nodup_cons.1 h.nodup).2

theorem Released.refl (roots : Set α) (b : Blocking α) : Released roots b b :=
  ⟨subset_rfl, fun _ ↦ subset_rfl, fun _ _ ↦ rfl, fun _ _ ↦ rfl, fun _ h hn ↦ absurd h hn,
    fun _ h hn ↦ absurd h hn⟩

/-- A release of `v` under way, from `b` to `b'`: `v` is unblocked, and those that waited at it are
unblocked or still on its list. -/
structure Releasing (v : α) (b b' : Blocking α) : Prop where
  mem : v ∈ b.blocked
  notMem : v ∉ b'.blocked
  blocked : b'.blocked ⊆ b.blocked
  waiting : ∀ x, b'.waiting x ⊆ b.waiting x
  waiting_of_mem : ∀ x ∈ b'.blocked, b'.waiting x = b.waiting x
  waiting_of_notMem : ∀ x ∉ b.blocked, b'.waiting x = b.waiting x
  released : ∀ x ∈ b.blocked, x ∉ b'.blocked → x ≠ v →
    b'.waiting x = ∅ ∧ ∀ u ∈ b.waiting x, u ∉ b'.blocked
  reached : ∀ x ∈ b.blocked, x ∉ b'.blocked → Relation.ReflTransGen b.Wakes v x
  self : ∀ u ∈ b.waiting v, u ∈ b'.waiting v ∨ u ∉ b'.blocked

/-- A vertex is unblocked. -/
def unblock (b : Blocking α) (v : α) : Blocking α :=
  { b with blocked := b.blocked \ {v} }

/-- A vertex no longer waits at another. -/
def wake (b : Blocking α) (w v : α) : Blocking α :=
  { b with waiting := fun x ↦ {u | u ∈ b.waiting x ∧ ¬(x = w ∧ u = v)} }

theorem releasing_unblock (hv : v ∈ b.blocked) : Releasing v b (b.unblock v) where
  mem := hv
  notMem h := h.2 rfl
  blocked := (fun _ h ↦ h.1)
  waiting _ := subset_rfl
  waiting_of_mem _ _ := rfl
  waiting_of_notMem _ _ := rfl
  released x hx hx' hne := absurd ⟨hx, hne⟩ hx'
  reached x hx hx' := by
    by_cases hne : x = v
    · rw [hne]
    · exact absurd ⟨hx, hne⟩ hx'
  self _ hu := Or.inl hu

/-- The next vertex on the list of `v` is taken off it and released, unless it is free already. -/
theorem Releasing.step {b₁ b₂ : Blocking α} {u : α} (h : Releasing v b b₁) (hu : u ∈ b.waiting v)
    (hr : Released {u} (b₁.wake v u) b₂) (hfree : u ∉ b₂.blocked) : Releasing v b b₂ := by
  have hsub : ∀ x, (b₁.wake v u).waiting x ⊆ b₁.waiting x := fun x y hy ↦ hy.1
  have hwake : ∀ x ≠ v, (b₁.wake v u).waiting x = b₁.waiting x := fun x hx ↦
    Set.ext fun y ↦ ⟨fun hy ↦ hy.1, fun hy ↦ ⟨hy, fun heq ↦ hx heq.1⟩⟩
  have hb₂ : b₂.blocked ⊆ b₁.blocked := hr.blocked
  refine ⟨h.mem, fun hv ↦ h.notMem (hb₂ hv), hb₂.trans h.blocked,
    fun x ↦ ((hr.waiting x).trans (hsub x)).trans (h.waiting x), fun x hx ↦ ?_, fun x hx ↦ ?_,
    fun x hx hx₂ hne ↦ ?_, fun x hx hx₂ ↦ ?_, fun y hy ↦ ?_⟩
  · have hne : x ≠ v := fun heq ↦ h.notMem (heq ▸ hb₂ hx)
    rw [hr.waiting_of_mem x hx, hwake x hne, h.waiting_of_mem x (hb₂ hx)]
  · have hne : x ≠ v := fun heq ↦ hx (heq ▸ h.mem)
    rw [hr.waiting_of_notMem x fun hx₁ ↦ hx (h.blocked hx₁), hwake x hne, h.waiting_of_notMem x hx]
  · by_cases hx₁ : x ∈ b₁.blocked
    · obtain ⟨hempty, hall⟩ := hr.released x hx₁ hx₂
      rw [hwake x hne, h.waiting_of_mem x hx₁] at hall
      exact ⟨hempty, hall⟩
    · obtain ⟨hempty, hall⟩ := h.released x hx hx₁ hne
      exact ⟨by rw [hr.waiting_of_notMem x hx₁, hwake x hne, hempty],
        fun y hy hyb ↦ hall y hy (hb₂ hyb)⟩
  · by_cases hx₁ : x ∈ b₁.blocked
    · obtain ⟨r, rfl, hreach⟩ := hr.reached x hx₁ hx₂
      have hle : (b₁.wake v r).Wakes ≤ b.Wakes := fun y _ hy ↦ h.waiting y (hsub y hy)
      exact (Relation.ReflTransGen.mono hle _ _ hreach).head hu
    · exact h.reached x hx hx₁
  · by_cases heq : y = u
    · exact Or.inr (heq ▸ hfree)
    · rcases h.self y hy with hy | hy
      · refine Or.inl ?_
        rw [hr.waiting_of_notMem v h.notMem]
        exact ⟨hy, fun hyu ↦ heq hyu.2⟩
      · exact Or.inr fun hy₂ ↦ hy (hb₂ hy₂)

/-- With nobody left on the list of `v` the release is done. -/
theorem Releasing.finish (h : Releasing v b b') (hempty : b'.waiting v = ∅) :
    Released {v} b b' where
  blocked := h.blocked
  waiting := h.waiting
  waiting_of_mem := h.waiting_of_mem
  waiting_of_notMem := h.waiting_of_notMem
  released x hx hx' := by
    by_cases hne : x = v
    · subst hne
      refine ⟨hempty, fun u hu ↦ (h.self u hu).resolve_left fun hmem ↦ ?_⟩
      rw [hempty] at hmem
      exact hmem
    · exact h.released x hx hx' hne
  reached x hx hx' := ⟨v, rfl, h.reached x hx hx'⟩

end Blocking

end OpenImpact
