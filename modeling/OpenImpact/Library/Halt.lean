import Mathlib.Data.Nat.Notation

/-!
# How a run of the code stops early

The C functions modelled here do not return error values: a broken precondition ends the process in
`L_punt` or `I_punt`, and an access outside its object or an integer leaving its range has no result
worth modelling. A modelled function therefore runs in `Run`, and a theorem that such a run equals
`.ok _` says that none of these happens.
-/

namespace OpenImpact

/-- The ways a run stops without returning. -/
inductive Halt where
  /-- `L_punt` / `I_punt`, with the message's format string as the source has it. -/
  | punt (msg : String)
  /-- A `NULL` dereference or an access outside an object. -/
  | fault
  /-- An integer computation left the range it is meant to stay in. -/
  | overflow
  /-- A recursion went deeper than its fuel. Results about a run say that this does not happen. -/
  | outOfFuel
  deriving DecidableEq, Repr

/-- Runs of the modelled code. -/
abbrev Run := Except Halt

namespace Run

variable {α β : Type}

@[simp] theorem ok_bind (a : α) (f : α → Run β) : ((Except.ok a : Run α) >>= f) = f a := rfl

@[simp] theorem error_bind (e : Halt) (f : α → Run β) :
    ((Except.error e : Run α) >>= f) = Except.error e := rfl

@[simp] theorem pure_eq_ok (a : α) : (pure a : Run α) = Except.ok a := rfl

@[simp] theorem map_ok (f : α → β) (a : α) : f <$> (Except.ok a : Run α) = Except.ok (f a) := rfl

/-- Peeling one step off a run that returned. -/
theorem bind_eq_ok {x : Run α} {f : α → Run β} {b : β} :
    (x >>= f) = .ok b ↔ ∃ a, x = .ok a ∧ f a = .ok b := by
  cases x with
  | error e => simp
  | ok a => simp

/-- A run that stops stops at one of its steps. -/
theorem bind_eq_error {x : Run α} {f : α → Run β} {e : Halt} :
    (x >>= f) = .error e ↔ x = .error e ∨ ∃ a, x = .ok a ∧ f a = .error e := by
  cases x with
  | error e => simp
  | ok a => simp

theorem map_eq_ok {x : Run α} {f : α → β} {b : β} : f <$> x = .ok b ↔ ∃ a, x = .ok a ∧ f a = b := by
  cases x with
  | error e => exact ⟨fun h ↦ (nomatch (show (Except.error e : Run β) = .ok b from h)), by simp⟩
  | ok a => simp

/-- Continuations need to agree only on what the first step can return. -/
theorem bind_congr {x : Run α} {f g : α → Run β} (h : ∀ a, x = .ok a → f a = g a) :
    (x >>= f) = (x >>= g) := by
  cases x with
  | error e => rfl
  | ok a => exact h a rfl

/-- What the steps of a loop establish and later steps keep holds after the loop. -/
theorem foldlM_spec {ι : Type} {f : α → ι → Run α} {R : α → α → Prop} {P : ι → α → Prop}
    (hrefl : ∀ a, R a a) (htrans : ∀ {a b c}, R a b → R b c → R a c)
    (hkeep : ∀ {a b i}, R a b → P i a → P i b) {l : List ι}
    (hstep : ∀ i ∈ l, ∀ {a b}, f a i = .ok b → R a b ∧ P i b) {a b : α}
    (h : l.foldlM f a = .ok b) : R a b ∧ ∀ i ∈ l, P i b := by
  induction l generalizing a with
  | nil =>
    obtain rfl : a = b := Except.ok.inj h
    exact ⟨hrefl a, fun i hi ↦ absurd hi List.not_mem_nil⟩
  | cons i l ih =>
    rw [List.foldlM_cons] at h
    obtain ⟨c, hc, hrest⟩ := bind_eq_ok.1 h
    obtain ⟨hR, hP⟩ := hstep i List.mem_cons_self hc
    obtain ⟨hR', hall⟩ := ih (fun j hj ↦ hstep j (List.mem_cons_of_mem i hj)) hrest
    refine ⟨htrans hR hR', fun j hj ↦ ?_⟩
    rcases List.mem_cons.1 hj with rfl | hj
    · exact hkeep hR' hP
    · exact hall j hj

/-- A loop returns when every step does, with what the steps made so far establish. -/
theorem foldlM_prefix {ι : Type} {f : α → ι → Run α} {P : List ι → α → Prop} {l : List ι}
    (hstep : ∀ done i rest, l = done ++ i :: rest → ∀ {a}, P done a →
      ∃ b, f a i = .ok b ∧ P (done ++ [i]) b) {a : α} (ha : P [] a) :
    ∃ b, l.foldlM f a = .ok b ∧ P l b := by
  suffices h : ∀ rest done a, l = done ++ rest → P done a →
      ∃ b, rest.foldlM f a = .ok b ∧ P l b from h l [] a rfl ha
  intro rest
  induction rest with
  | nil =>
    rintro done a rfl hP
    exact ⟨a, rfl, by rwa [List.append_nil]⟩
  | cons i rest ih =>
    intro done a hl hP
    obtain ⟨c, hc, hPc⟩ := hstep done i rest hl hP
    obtain ⟨b, hb, hPb⟩ := ih (done ++ [i]) c (by rw [hl, List.append_assoc]; rfl) hPc
    exact ⟨b, by rw [List.foldlM_cons, hc, ok_bind, hb], hPb⟩

/-- What every step of a loop keeps holds after the loop. -/
theorem foldlM_keeps {ι : Type} {f : α → ι → Run α} {P : α → Prop} {l : List ι}
    (hstep : ∀ i ∈ l, ∀ {a b}, P a → f a i = .ok b → P b) {a b : α} (ha : P a)
    (h : l.foldlM f a = .ok b) : P b :=
  (foldlM_spec (R := fun a b ↦ P a → P b) (P := fun _ _ ↦ True) (fun _ ↦ id)
    (fun hab hbc ha ↦ hbc (hab ha)) (fun _ _ ↦ trivial)
    (fun i hi _ _ hrun ↦ ⟨fun ha ↦ hstep i hi ha hrun, trivial⟩) h).1 ha

end Run

end OpenImpact
