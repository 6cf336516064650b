import OpenImpact.Library.HeapRuns

/-!
# Emptying a heap

A heap that is emptied with `Heap_ExtractTop` gives its elements in the order of their weights
(`Represents.drain`).
-/

namespace OpenImpact.Heaps

variable {W E : Type} [LinearOrder W] {H : Heap W E} {s : Multiset (W × E)}

/-- `while ((element = Heap_ExtractTop (heap)) != NULL)`, with the elements in turn. -/
def drain : ℕ → Heap W E → Run (List E)
  | 0, _ => .error .outOfFuel
  | n + 1, H => do
    let (top, H) ← extractTop H
    match top with
    | none => .ok []
    | some element => do
      let elements ← drain n H
      .ok (element :: elements)

/-- **Emptying a `HEAP_MIN`** gives all of its elements, the least weight first. -/
theorem Represents.drain (h : Represents H s) (hdir : H.dir = .min) (hsize : H.size < 2 ^ 30) {n : ℕ}
    (hn : H.size < n) :
    ∃ xs : List (W × E), Heaps.drain n H = .ok (xs.map Prod.snd) ∧ (xs : Multiset (W × E)) = s ∧
      xs.Pairwise fun x y ↦ x.1 ≤ y.1 := by
  induction n generalizing H s with
  | zero => exact absurd hn (Nat.not_lt_zero _)
  | succ n ih =>
    obtain ⟨ret, H', s', hrun, hstep, hrep, hdir', hsize'⟩ := h.extractTop hsize
    rw [Heaps.drain, hrun, Run.ok_bind]
    cases hstep with
    | empty => exact ⟨[], rfl, rfl, .nil⟩
    | @extractTop x _ htop =>
      have hpos : 1 ≤ H.size := by
        by_contra hzero
        rw [Heaps.extractTop, if_pos (by omega)] at hrun
        cases hrun
      obtain ⟨xs, hxs, hperm, hsorted⟩ :=
        ih hrep (hdir'.trans hdir) (by omega) (by omega)
      refine ⟨x :: xs, by simp [hxs], ?_, List.pairwise_cons.2 ⟨fun y hy ↦ ?_, hsorted⟩⟩
      · rw [← Multiset.cons_coe, hperm]
      · have hmem : y ∈ x ::ₘ s' := Multiset.mem_cons_of_mem (hperm ▸ Multiset.mem_coe.2 hy)
        have := htop y hmem
        rw [hdir] at this
        exact not_lt.1 this

end OpenImpact.Heaps
