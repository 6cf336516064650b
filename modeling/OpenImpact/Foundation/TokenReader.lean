import Mathlib.Data.List.Basic

/-!
# Readers of an input

A reader takes tokens off an input and returns a value, or stops with an error. What it does on an
input is put together from what its steps do: `Reads` when it returns, `Fails` when it stops, and
`ReadsIff` when a condition tells which, with rules for sequences and for a counted loop over a list of
encoded items.
-/

namespace OpenImpact

/-- A reader of an input of tokens `τ` that may stop with an `ε`. -/
abbrev TokenReader (τ ε α : Type) := StateT (List τ) (Except ε) α

namespace TokenReader

variable {τ ε α β σ : Type}

/-- On the input `inp` the reader returns `a` and leaves `out`. -/
def Reads (p : TokenReader τ ε α) (inp : List τ) (a : α) (out : List τ) : Prop :=
  p.run inp = .ok (a, out)

/-- On the input `inp` the reader stops. -/
def Fails (p : TokenReader τ ε α) (inp : List τ) : Prop :=
  ∃ e, p.run inp = .error e

/-- On the input `inp` the reader returns `a` and leaves `out` if `P` holds, and stops if not. -/
def ReadsIff (P : Prop) (p : TokenReader τ ε α) (inp : List τ) (a : α) (out : List τ) : Prop :=
  (P → Reads p inp a out) ∧ (¬ P → Fails p inp)

theorem Reads.pure (a : α) (inp : List τ) : Reads (Pure.pure a : TokenReader τ ε α) inp a inp := rfl

theorem Reads.lift {x : Except ε α} {a : α} (h : x = .ok a) (inp : List τ) :
    Reads (StateT.lift x) inp a inp := by
  subst h
  rfl

theorem Fails.lift {x : Except ε α} {e : ε} (h : x = .error e) (inp : List τ) :
    Fails (StateT.lift x) inp := by
  subst h
  exact ⟨e, rfl⟩

theorem Reads.bind {p : TokenReader τ ε α} {f : α → TokenReader τ ε β} {inp mid out : List τ} {a : α} {b : β}
    (h : Reads p inp a mid) (hf : Reads (f a) mid b out) : Reads (p >>= f) inp b out := by
  rw [Reads, StateT.run_bind, show p.run inp = _ from h]
  exact hf

theorem Fails.bind {p : TokenReader τ ε α} (f : α → TokenReader τ ε β) {inp : List τ} (h : Fails p inp) :
    Fails (p >>= f) inp := by
  obtain ⟨e, he⟩ := h
  exact ⟨e, by rw [StateT.run_bind, he]; rfl⟩

theorem Reads.bind_fails {p : TokenReader τ ε α} {f : α → TokenReader τ ε β} {inp mid : List τ} {a : α}
    (h : Reads p inp a mid) (hf : Fails (f a) mid) : Fails (p >>= f) inp := by
  obtain ⟨e, he⟩ := hf
  exact ⟨e, by rw [StateT.run_bind, show p.run inp = _ from h]; exact he⟩

theorem Fails.not_reads {p : TokenReader τ ε α} {inp out : List τ} {a : α} (h : Fails p inp) :
    ¬ Reads p inp a out := by
  obtain ⟨e, he⟩ := h
  rw [Reads, he]
  exact nofun

section Iff

variable {P Q : Prop} {p : TokenReader τ ε α} {f : α → TokenReader τ ε β} {inp mid out : List τ} {a : α} {b : β}

theorem Reads.readsIff (h : Reads p inp a out) (hP : P) : ReadsIff P p inp a out :=
  ⟨fun _ ↦ h, fun hn ↦ absurd hP hn⟩

theorem Fails.readsIff (h : Fails p inp) (hP : ¬ P) : ReadsIff P p inp a out :=
  ⟨fun hp ↦ absurd hp hP, fun _ ↦ h⟩

theorem ReadsIff.congr (h : ReadsIff P p inp a out) (hPQ : Q ↔ P) : ReadsIff Q p inp a out :=
  ⟨fun hQ ↦ h.1 (hPQ.1 hQ), fun hQ ↦ h.2 fun hP ↦ hQ (hPQ.2 hP)⟩

theorem Reads.bind_iff (h : Reads p inp a mid) (hf : ReadsIff P (f a) mid b out) :
    ReadsIff P (p >>= f) inp b out :=
  ⟨fun hP ↦ h.bind (hf.1 hP), fun hP ↦ h.bind_fails (hf.2 hP)⟩

theorem ReadsIff.bind (h : ReadsIff P p inp a mid) (hf : P → ReadsIff Q (f a) mid b out) :
    ReadsIff (P ∧ Q) (p >>= f) inp b out := by
  refine ⟨fun hPQ ↦ (h.1 hPQ.1).bind ((hf hPQ.1).1 hPQ.2), fun hPQ ↦ ?_⟩
  rcases Classical.em P with hP | hP
  · exact (h.1 hP).bind_fails ((hf hP).2 fun hQ ↦ hPQ ⟨hP, hQ⟩)
  · exact (h.2 hP).bind f

theorem ReadsIff.bind_reads (h : ReadsIff P p inp a mid) (hf : P → Reads (f a) mid b out) :
    ReadsIff P (p >>= f) inp b out :=
  ((h.bind (Q := True) fun hP ↦ (hf hP).readsIff trivial)).congr (and_iff_left trivial).symm

end Iff

/-! ### Counted loops -/

section Loop

variable {f : σ → ℕ → TokenReader τ ε σ} {enc : α → List τ} {s : List α → σ} {l : List α}

/-- A loop that reads an item a round, or stops at the items without `P`, reads the whole list of
them, or stops when one lacks `P`. -/
theorem ReadsIff.foldlM_range {P : α → Prop}
    (hstep : ∀ done x tail, l = done ++ x :: tail →
      ∀ inp, ReadsIff (P x) (f (s done) done.length) (enc x ++ inp) (s (done ++ [x])) inp)
    (out : List τ) :
    ReadsIff (∀ x ∈ l, P x) ((List.range l.length).foldlM f (s [])) (l.flatMap enc ++ out) (s l)
      out := by
  suffices h : ∀ tail done, l = done ++ tail →
      ReadsIff (∀ x ∈ tail, P x) ((List.range' done.length tail.length).foldlM f (s done))
        (tail.flatMap enc ++ out) (s l) out by
    rw [List.range_eq_range']
    exact h l [] rfl
  intro tail
  induction tail with
  | nil =>
    rintro done rfl
    rw [List.append_nil]
    exact (Reads.pure _ _).readsIff fun x hx ↦ absurd hx List.not_mem_nil
  | cons x tail ih =>
    intro done hl
    rw [List.length_cons, List.range'_succ, List.foldlM_cons, List.flatMap_cons, List.append_assoc]
    have hrest := ih (done ++ [x]) (by rw [hl, List.append_assoc]; rfl)
    rw [List.length_append, List.length_singleton] at hrest
    exact ((hstep done x tail hl _).bind fun _ ↦ hrest).congr List.forall_mem_cons

/-- A loop that reads an item a round reads the whole list of them. -/
theorem Reads.foldlM_range
    (hstep : ∀ done x tail, l = done ++ x :: tail →
      ∀ inp, Reads (f (s done) done.length) (enc x ++ inp) (s (done ++ [x])) inp)
    (out : List τ) :
    Reads ((List.range l.length).foldlM f (s [])) (l.flatMap enc ++ out) (s l) out :=
  (ReadsIff.foldlM_range (P := fun _ ↦ True)
    (fun done x tail hl inp ↦ (hstep done x tail hl inp).readsIff trivial) out).1
    fun _ _ ↦ trivial

end Loop

end TokenReader

end OpenImpact
