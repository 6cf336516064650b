import OpenImpact.Library.CExpr

/-!
# Runs that only an integer stops

`Run.Yields` is what is said of a run whose integers may leave their range: that nothing else stops it,
and what is known of its value. There is a rule for each way in which the modelled functions are put
together, so that a function is treated along its definition. Which integers fit is not said.
-/

namespace OpenImpact.Run

variable {α β ι : Type} {x : Run α} {P Q : α → Prop}

/-- The run returns a value with `P`, or an integer leaves its range. -/
def Yields (x : Run α) (P : α → Prop) : Prop :=
  (∀ a, x = .ok a → P a) ∧ ∀ e, x = .error e → e = .overflow

/-- A run that returns a value at once. -/
theorem Yields.ok {a : α} (h : P a) : Yields (.ok a) P :=
  ⟨fun _ ha ↦ Except.ok.inj ha ▸ h, fun _ he ↦ (nomatch he)⟩

/-- An `int` expression is what this notion allows to fail. -/
theorem yields_int32 (n : ℤ) : Yields (int32 n) fun _ ↦ True := by
  rw [int32]
  split_ifs
  · exact .ok trivial
  · exact ⟨fun _ _ ↦ trivial, fun _ he ↦ (Except.error.inj he).symm⟩

/-- What is known of the values from elsewhere can be used for them. -/
theorem Yields.of_ok (h : x.Yields P) (hQ : ∀ a, x = .ok a → Q a) : x.Yields Q :=
  ⟨hQ, h.2⟩

/-- Less may be said of the values. -/
theorem Yields.mono (h : x.Yields P) (hPQ : ∀ a, P a → Q a) : x.Yields Q :=
  h.of_ok fun a ha ↦ hPQ a (h.1 a ha)

/-- Runs in a row, the second for each value that the first can have. -/
theorem Yields.bind {R : β → Prop} {f : α → Run β} (h : x.Yields P)
    (hf : ∀ a, x = .ok a → P a → (f a).Yields R) : (x >>= f).Yields R := by
  cases x with
  | ok a => exact hf a rfl (h.1 a rfl)
  | error e =>
    rw [error_bind, h.2 e rfl]
    exact ⟨fun _ ha ↦ (nomatch ha), fun _ he ↦ (Except.error.inj he).symm⟩

/-- A loop, with what holds while the rounds `l` are left. -/
theorem Yields.foldlM {f : α → ι → Run α} {P : List ι → α → Prop} {l : List ι} {a : α}
    (hstep : ∀ i l a, P (i :: l) a → (f a i).Yields (P l)) (h : P l a) :
    (l.foldlM f a).Yields (P []) := by
  induction l generalizing a with
  | nil => exact .ok h
  | cons i l ih =>
    rw [List.foldlM_cons]
    exact (hstep i l a h).bind fun b _ hb ↦ ih hb

/-- A loop whose rounds all keep `P`. -/
theorem Yields.foldlM_keeps {f : α → ι → Run α} {l : List ι} {a : α}
    (hstep : ∀ i ∈ l, ∀ a, P a → (f a i).Yields P) (h : P a) : (l.foldlM f a).Yields P :=
  (Yields.foldlM (P := fun rest a ↦ (∀ i ∈ rest, i ∈ l) ∧ P a)
    (fun i _ a h ↦ (hstep i (h.1 i List.mem_cons_self) a h.2).mono fun _ hb ↦
      ⟨fun j hj ↦ h.1 j (List.mem_cons_of_mem i hj), hb⟩) ⟨fun _ hi ↦ hi, h⟩).mono fun _ hb ↦ hb.2

end OpenImpact.Run
