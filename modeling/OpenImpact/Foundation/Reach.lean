import Mathlib.Data.Nat.Notation

/-!
# Runs whose steps all meet a condition

The states a system reaches when every call made in a state meets a condition there and returns.
-/

namespace OpenImpact

variable {σ ι ε : Type*} {step : σ → ι → Except ε σ} {C D : σ → ι → Prop} {start s : σ}

/-- `s` is reached from `start` by calls that meet `C` and return. -/
inductive Reach (step : σ → ι → Except ε σ) (C : σ → ι → Prop) (start : σ) : σ → Prop
  | start : Reach step C start start
  | call {s s' : σ} {i : ι} : Reach step C start s → C s i → step s i = .ok s' →
      Reach step C start s'

namespace Reach

/-- What the first state has and every call keeps, every reached state has. -/
theorem inv {P : σ → Prop} (h : Reach step C start s) (hstart : P start)
    (hcall : ∀ {s i s'}, P s → C s i → step s i = .ok s' → P s') : P s := by
  induction h with
  | start => exact hstart
  | call _ hC hstep ih => exact hcall ih hC hstep

/-- Calls made one after the other, each of them after a test that the condition holds, reach a state. -/
theorem foldlM_checked {s' : σ} {check : σ → ι → Bool} {e : ε} {calls : List ι}
    (hcheck : ∀ i ∈ calls, ∀ s, check s i = true → C s i) (hs : Reach step C start s)
    (hrun : calls.foldlM (fun s i ↦ if check s i then step s i else .error e) s = .ok s') :
    calls.foldlM step s = .ok s' ∧ Reach step C start s' := by
  induction calls generalizing s with
  | nil =>
    obtain rfl := Except.ok.inj hrun
    exact ⟨rfl, hs⟩
  | cons i calls ih =>
    obtain ⟨hi, hrest⟩ := List.forall_mem_cons.1 hcheck
    rw [List.foldlM_cons] at hrun ⊢
    by_cases hc : check s i = true
    · rw [if_pos hc] at hrun
      cases hstep : step s i with
      | error e' =>
        rw [hstep] at hrun
        cases hrun
      | ok s₁ =>
        rw [hstep] at hrun
        exact ih hrest (hs.call (hi s hc) hstep) hrun
    · rw [if_neg hc] at hrun
      cases hrun

end Reach

end OpenImpact
