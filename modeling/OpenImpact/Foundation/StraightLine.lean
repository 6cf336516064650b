import Mathlib.Data.List.Basic

/-!
# Rewriting straight-line programs

A straight-line program is a list of operations with a step function. A rewriting of it keeps its run if
each operation is replaced by one that does the same step in the state that it meets there, or is
dropped where its step does nothing. What is asked of an operation in the state that it meets (`Meets`)
goes along, so that rewritings compose.
-/

namespace OpenImpact.Foundation

variable {σ α : Type*} {step : σ → α → σ} {P : σ → α → Prop} {o o' : α} {os os' os'' : List α} {s : σ}

/-- `P` holds of every operation in the state that it meets. -/
def Meets (step : σ → α → σ) (P : σ → α → Prop) : List α → σ → Prop
  | [], _ => True
  | o :: os, s => P s o ∧ Meets step P os (step s o)

/-- Nothing is to be met by no operations. -/
@[simp] theorem meets_nil : Meets step P [] s := trivial

/-- What the first operation is to meet, and the others after it. -/
@[simp] theorem meets_cons : Meets step P (o :: os) s ↔ P s o ∧ Meets step P os (step s o) := Iff.rfl

/-- What holds at every state holds along the run. -/
theorem meets_of_forall (h : ∀ s, ∀ o ∈ os, P s o) : Meets step P os s := by
  induction os generalizing s with
  | nil => trivial
  | cons o os ih =>
    exact ⟨h s o List.mem_cons_self, ih fun s o ho ↦ h s o (List.mem_cons_of_mem _ ho)⟩

/-- The second program ends where the first one does, and `P` goes along. -/
structure Rewrites (step : σ → α → σ) (P : σ → α → Prop) (os os' : List α) (s : σ) : Prop where
  meets : Meets step P os' s
  run : os'.foldl step s = os.foldl step s

namespace Rewrites

/-- Operations are rewritten to themselves. -/
theorem refl (h : Meets step P os s) : Rewrites step P os os s := ⟨h, rfl⟩

/-- Two rewritings are one. -/
theorem trans (h : Rewrites step P os os' s) (h' : Rewrites step P os' os'' s) :
    Rewrites step P os os'' s :=
  ⟨h'.meets, h'.run.trans h.run⟩

/-- An operation is replaced. -/
theorem replace (hP : P s o') (hstep : step s o' = step s o) (h : Rewrites step P os os' (step s o)) :
    Rewrites step P (o :: os) (o' :: os') s where
  meets := ⟨hP, hstep.symm ▸ h.meets⟩
  run := by rw [List.foldl_cons, List.foldl_cons, hstep, h.run]

/-- An operation in front that is not changed. -/
theorem cons (hP : P s o) (h : Rewrites step P os os' (step s o)) :
    Rewrites step P (o :: os) (o :: os') s :=
  h.replace hP rfl

end Rewrites

/-! ### Passes that use a fact

A pass takes the operations in turn. For one that establishes a fact it goes through the operations
after it: some it skips, at some it stops, and the others it rewrites, knowing the operations in
between. It is sound if the operations in between have not touched the fact wherever it rewrites. -/

/-- What a pass does after an operation. -/
structure Rule (ε α : Type) where
  /-- Whether an operation is passed over, after the operations in between. -/
  skip : List α → α → Bool
  /-- Whether the pass ends, after the operations in between. -/
  stop : List α → Bool
  /-- The new operation and the number of changes. -/
  rewrite : α → Except ε (α × ℕ)

variable {ε α : Type} {step : σ → α → σ} {P : σ → α → Prop} {s : σ}

/-- The inner loop, over the operations after the one that establishes the fact. -/
def Rule.sweep (r : Rule ε α) : List α → List α → Except ε (List α × ℕ)
  | _, [] => .ok ([], 0)
  | between, b :: rest =>
    if r.skip between b then do
      let (rest', n) ← r.sweep (between ++ [b]) rest
      .ok (b :: rest', n)
    else if r.stop between then .ok (b :: rest, 0)
    else do
      let (b', n) ← r.rewrite b
      let (rest', n') ← r.sweep (between ++ [b']) rest
      .ok (b' :: rest', n + n')

/-- The outer loop, with the operations before, nearest first, and the number of operations left. -/
def sweepLoop (start : List α → α → List α → Except ε (Option (Rule ε α))) :
    List α → ℕ → List α → Except ε (List α × ℕ)
  | _, 0, ops => .ok (ops, 0)
  | _, _ + 1, [] => .ok ([], 0)
  | prevs, n + 1, a :: rest => do
    match ← start prevs a rest with
    | none =>
      let (rest', c) ← sweepLoop start (a :: prevs) n rest
      .ok (a :: rest', c)
    | some r =>
      let (rest₁, c) ← r.sweep [] rest
      let (rest', c') ← sweepLoop start (a :: prevs) n rest₁
      .ok (a :: rest', c + c')

section Loop

variable {start : List α → α → List α → Except ε (Option (Rule ε α))} {prevs rest rest' : List α}
  {a : α} {n c : ℕ}

/-- An operation at which no rule starts is passed by. -/
theorem sweepLoop_of_none (h : start prevs a rest = .ok none) :
    sweepLoop start prevs (n + 1) (a :: rest) =
      sweepLoop start (a :: prevs) n rest >>= fun r ↦ .ok (a :: r.1, r.2) := by
  rw [sweepLoop, h]
  rfl

/-- A rule that starts at an operation is swept over what follows it. -/
theorem sweepLoop_of_some {r : Rule ε α} (h : start prevs a rest = .ok (some r))
    (hsweep : r.sweep [] rest = .ok (rest', c)) :
    sweepLoop start prevs (n + 1) (a :: rest) =
      sweepLoop start (a :: prevs) n rest' >>= fun r' ↦ .ok (a :: r'.1, c + r'.2) := by
  rw [sweepLoop, h]
  show (r.sweep [] rest >>= fun r₁ ↦ sweepLoop start (a :: prevs) n r₁.1 >>= fun r' ↦
    .ok (a :: r'.1, r₁.2 + r'.2)) = _
  rw [hsweep]
  rfl

/-- An error of the start is one of the loop. -/
theorem sweepLoop_of_error {e : ε} (h : start prevs a rest = .error e) :
    sweepLoop start prevs (n + 1) (a :: rest) = .error e := by
  rw [sweepLoop, h]
  rfl

end Loop

/-- Every operation that the inner loop rewrites satisfies `Q`. -/
def Rule.Fits (Q : α → Prop) (r : Rule ε α) : List α → List α → Prop
  | _, [] => True
  | between, b :: rest =>
    if r.skip between b then r.Fits Q (between ++ [b]) rest
    else if r.stop between then True
    else Q b ∧ ∀ b' n, r.rewrite b = .ok (b', n) → r.Fits Q (between ++ [b']) rest

/-- Every operation that the pass rewrites after `a` satisfies `Q a`. -/
def LoopFits (start : List α → α → List α → Except ε (Option (Rule ε α))) (Q : α → α → Prop) :
    List α → ℕ → List α → Prop
  | _, 0, _ => True
  | _, _ + 1, [] => True
  | prevs, n + 1, a :: rest =>
    (start prevs a rest = .ok none → LoopFits start Q (a :: prevs) n rest) ∧
      ∀ r, start prevs a rest = .ok (some r) → r.Fits (Q a) [] rest ∧
        ∀ rest' c, r.sweep [] rest = .ok (rest', c) → LoopFits start Q (a :: prevs) n rest'

section Fits

variable {start : List α → α → List α → Except ε (Option (Rule ε α))} {Q : α → α → Prop}
  {prevs rest rest' : List α} {a : α} {n c : ℕ}

/-- The condition at an operation where no rule starts is the one of the rest. -/
theorem loopFits_of_none (hstart : start prevs a rest = .ok none)
    (h : LoopFits start Q (a :: prevs) n rest) : LoopFits start Q prevs (n + 1) (a :: rest) :=
  ⟨fun _ ↦ h, fun r hr ↦ by rw [hstart] at hr; cases hr⟩

/-- The condition at one where a rule starts: the sweep fits, and the loop over what it leaves. -/
theorem loopFits_of_some {r : Rule ε α} (hstart : start prevs a rest = .ok (some r))
    (hfits : r.Fits (Q a) [] rest) (hsweep : r.sweep [] rest = .ok (rest', c))
    (h : LoopFits start Q (a :: prevs) n rest') : LoopFits start Q prevs (n + 1) (a :: rest) := by
  refine ⟨fun hnone ↦ ?_, fun r' hr ↦ ?_⟩
  · cases hstart.symm.trans hnone
  · cases hstart.symm.trans hr
    refine ⟨hfits, fun rest₁ c₁ hsweep' ↦ ?_⟩
    cases hsweep.symm.trans hsweep'
    exact h

/-- A condition on the operations alone is met along every sweep. -/
theorem Rule.fits_of_forall {Q : α → Prop} (r : Rule ε α) {os : List α} (hQ : ∀ b ∈ os, Q b)
    (between : List α) : r.Fits Q between os := by
  induction os generalizing between with
  | nil => trivial
  | cons b os ih =>
    obtain ⟨hb, hos⟩ := List.forall_mem_cons.1 hQ
    rw [Rule.Fits]
    split_ifs
    · exact ih hos _
    · exact ⟨hb, fun b' _ _ ↦ ih hos _⟩

end Fits

/-- A rule after `a` rests on a fact that `a` establishes and that only some operations touch. -/
structure Rule.Sound (step : σ → α → σ) (P : σ → α → Prop) (Q : α → Prop) (r : Rule ε α) (a : α)
    (F : σ → Prop) (touches : α → Prop) : Prop where
  start : ∀ s, P s a → F (step s a)
  keep : ∀ s o, P s o → ¬ touches o → F s → F (step s o)
  rewrite : ∀ between b b' n s, r.skip between b = false → r.stop between = false →
    r.rewrite b = .ok (b', n) → Q b → P s b → ((∀ p ∈ between, ¬ touches p) → F s) →
      P s b' ∧ step s b' = step s b

/-- The first part returns, and then the second with its value. -/
theorem except_bind_eq_ok {β γ : Type} {x : Except ε β} {f : β → Except ε γ} {c : γ} :
    (x >>= f) = .ok c ↔ ∃ b, x = .ok b ∧ f b = .ok c := by
  cases x with
  | error e => simp [bind, Except.bind]
  | ok b => simp [bind, Except.bind]

section Sweep

variable {r : Rule ε α} {a o : α} {os os' : List α} {Q : α → Prop} {F : σ → Prop}
  {touches : α → Prop}

/-- A fact that holds unless an operation since then has touched it, after one more operation. -/
theorem Rule.Sound.untouched_append (hr : r.Sound step P Q a F touches) (ho : P s o)
    (h : (∀ p ∈ os, ¬ touches p) → F s) : (∀ p ∈ os ++ [o], ¬ touches p) → F (step s o) :=
  fun hnone ↦ hr.keep s o ho (hnone o (by simp)) (h fun p hp ↦ hnone p (List.mem_append_left _ hp))

/-- **The inner loop** keeps the run of the operations after the one that establishes the fact. -/
theorem Rule.Sound.rewrites_sweep (hr : r.Sound step P Q a F touches) {between : List α} {n : ℕ}
    (hmeets : Meets step P os s) (hs : (∀ p ∈ between, ¬ touches p) → F s)
    (hfits : r.Fits Q between os) (h : r.sweep between os = .ok (os', n)) :
    Rewrites step P os os' s := by
  induction os generalizing between os' n s with
  | nil => cases h; exact Rewrites.refl trivial
  | cons b rest ih =>
    rw [Rule.sweep] at h
    rw [Rule.Fits] at hfits
    obtain ⟨hb, hmeets⟩ := hmeets
    split_ifs at h hfits with hskip hstop
    · obtain ⟨⟨rest', c⟩, hsweep, h⟩ := except_bind_eq_ok.1 h
      cases h
      exact (ih hmeets (hr.untouched_append hb hs) hfits hsweep).cons hb
    · cases h
      exact Rewrites.refl ⟨hb, hmeets⟩
    · obtain ⟨⟨b', c⟩, hrw, h⟩ := except_bind_eq_ok.1 h
      obtain ⟨⟨rest', c'⟩, hsweep, h⟩ := except_bind_eq_ok.1 h
      cases h
      rw [Bool.not_eq_true] at hskip hstop
      obtain ⟨hP, hstep⟩ := hr.rewrite between b b' c s hskip hstop hrw hfits.1 hb hs
      -- the new operation is the one in between for the operations that follow
      have hnext := hr.untouched_append hP hs
      rw [hstep] at hnext
      exact (ih hmeets hnext (hfits.2 b' c hrw) hsweep).replace hP hstep

/-- **A pass** whose rules are sound keeps the run of the program. -/
theorem rewrites_sweepLoop {start : List α → α → List α → Except ε (Option (Rule ε α))}
    {Q : α → α → Prop}
    (hsound : ∀ prevs a rest r, start prevs a rest = .ok (some r) →
      ∃ F touches, r.Sound step P (Q a) a F touches)
    {prevs : List α} {n c : ℕ} (hmeets : Meets step P os s) (hfits : LoopFits start Q prevs n os)
    (h : sweepLoop start prevs n os = .ok (os', c)) : Rewrites step P os os' s := by
  induction n generalizing prevs os os' c s with
  | zero => cases h; exact Rewrites.refl hmeets
  | succ n ih =>
    cases os with
    | nil => cases h; exact Rewrites.refl trivial
    | cons a rest =>
      obtain ⟨ha, hmeets⟩ := hmeets
      rw [sweepLoop] at h
      rw [LoopFits] at hfits
      obtain ⟨choice, hstart, h⟩ := except_bind_eq_ok.1 h
      cases choice with
      | none =>
        obtain ⟨⟨rest', c'⟩, hloop, h⟩ := except_bind_eq_ok.1 h
        cases h
        exact (ih hmeets (hfits.1 hstart) hloop).cons ha
      | some r =>
        obtain ⟨⟨rest₁, c₁⟩, hsweep, h⟩ := except_bind_eq_ok.1 h
        obtain ⟨⟨rest', c'⟩, hloop, h⟩ := except_bind_eq_ok.1 h
        cases h
        obtain ⟨F, touches, hr⟩ := hsound prevs a rest r hstart
        obtain ⟨hfit, hnext⟩ := hfits.2 r hstart
        have hinner := hr.rewrites_sweep hmeets (fun _ ↦ hr.start s ha) hfit hsweep
        exact (hinner.trans (ih hinner.meets (hnext rest₁ c₁ hsweep) hloop)).cons ha

/-- What every rewriting keeps of an operation, the inner loop keeps of all of them. -/
theorem Rule.forall_sweep {R : α → Prop} {between : List α} {n : ℕ}
    (hrw : ∀ b b' c, R b → r.rewrite b = .ok (b', c) → R b') (hos : ∀ o ∈ os, R o)
    (h : r.sweep between os = .ok (os', n)) : ∀ o ∈ os', R o := by
  induction os generalizing between os' n with
  | nil => cases h; exact hos
  | cons b rest ih =>
    obtain ⟨hb, hrest⟩ := List.forall_mem_cons.1 hos
    rw [Rule.sweep] at h
    split_ifs at h
    · obtain ⟨⟨rest', c⟩, hsweep, h⟩ := except_bind_eq_ok.1 h
      cases h
      exact List.forall_mem_cons.2 ⟨hb, ih hrest hsweep⟩
    · cases h
      exact hos
    · obtain ⟨⟨b', c⟩, hb', h⟩ := except_bind_eq_ok.1 h
      obtain ⟨⟨rest', c'⟩, hsweep, h⟩ := except_bind_eq_ok.1 h
      cases h
      exact List.forall_mem_cons.2 ⟨hrw b b' c hb hb', ih hrest hsweep⟩

/-- A property that the rules keep is one of the operations that the loop returns. -/
theorem forall_sweepLoop {start : List α → α → List α → Except ε (Option (Rule ε α))} {R : α → Prop}
    (hrw : ∀ prevs a rest r, start prevs a rest = .ok (some r) →
      ∀ b b' c, R b → r.rewrite b = .ok (b', c) → R b')
    {prevs : List α} {n c : ℕ} (hos : ∀ o ∈ os, R o) (h : sweepLoop start prevs n os = .ok (os', c)) :
    ∀ o ∈ os', R o := by
  induction n generalizing prevs os os' c with
  | zero => cases h; exact hos
  | succ n ih =>
    cases os with
    | nil => cases h; exact hos
    | cons a rest =>
      obtain ⟨ha, hrest⟩ := List.forall_mem_cons.1 hos
      rw [sweepLoop] at h
      obtain ⟨choice, hstart, h⟩ := except_bind_eq_ok.1 h
      cases choice with
      | none =>
        obtain ⟨⟨rest', c'⟩, hloop, h⟩ := except_bind_eq_ok.1 h
        cases h
        exact List.forall_mem_cons.2 ⟨ha, ih hrest hloop⟩
      | some r =>
        obtain ⟨⟨rest₁, c₁⟩, hsweep, h⟩ := except_bind_eq_ok.1 h
        obtain ⟨⟨rest', c'⟩, hloop, h⟩ := except_bind_eq_ok.1 h
        cases h
        have hrest₁ := Rule.forall_sweep (hrw prevs a rest r hstart) hrest hsweep
        exact List.forall_mem_cons.2 ⟨ha, ih hrest₁ hloop⟩

/-- A pass that keeps `R` rewrites only what it may if `R` is enough for that. -/
theorem loopFits_of_forall {start : List α → α → List α → Except ε (Option (Rule ε α))}
    {Q : α → α → Prop} {R : α → Prop}
    (hrw : ∀ prevs a rest r, start prevs a rest = .ok (some r) →
      ∀ b b' c, R b → r.rewrite b = .ok (b', c) → R b')
    (hQ : ∀ a b, R b → Q a b) {prevs : List α} {n : ℕ} (hos : ∀ o ∈ os, R o) :
    LoopFits start Q prevs n os := by
  induction n generalizing prevs os with
  | zero => trivial
  | succ n ih =>
    cases os with
    | nil => trivial
    | cons a rest =>
      obtain ⟨-, hrest⟩ := List.forall_mem_cons.1 hos
      refine ⟨fun _ ↦ ih hrest, fun r hstart ↦ ⟨r.fits_of_forall (fun b hb ↦ hQ a b (hrest b hb)) [],
        fun rest' c hsweep ↦ ih ?_⟩⟩
      exact Rule.forall_sweep (hrw prevs a rest r hstart) hrest hsweep

/-- A pass of which nothing is asked. -/
theorem loopFits_trivial {start : List α → α → List α → Except ε (Option (Rule ε α))} {prevs : List α}
    {n : ℕ} : LoopFits start (fun _ _ ↦ True) prevs n os :=
  loopFits_of_forall (R := fun _ ↦ True) (fun _ _ _ _ _ _ _ _ _ _ ↦ trivial) (fun _ _ _ ↦ trivial)
    fun _ _ ↦ trivial

end Sweep

end OpenImpact.Foundation
