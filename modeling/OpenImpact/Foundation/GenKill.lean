import OpenImpact.Foundation.Sweep
import Mathlib.Logic.Relation

/-!
# Gen and kill

Equations that give a node what it generates, and what comes from its neighbours less what it kills.
Sweeps from sets that are below what is generated end with what the paths say
(`GenKill.sweeps_spec`): an element is at a node when a path leads from there to a node that generates it,
and no node before that one kills it.
-/

namespace OpenImpact.Foundation

variable {ν σ β : Type*} [DecidableEq ν] [DecidableEq β] {changed : σ → σ → Bool}
  {upd : (ν → σ) → ν → σ} {key : σ → Finset β} {adj : ν → List ν} {gen kill : ν → Finset β}
  {l : List ν} {s init : ν → σ}

/-- The set of a node in a round is what its neighbours have, less what it kills, and what it
generates. -/
structure GenKill (changed : σ → σ → Bool) (upd : (ν → σ) → ν → σ) (key : σ → Finset β)
    (adj : ν → List ν) (gen kill : ν → Finset β) : Prop where
  keyed : Sweep.Keyed changed upd key
  mem_upd : ∀ s v x, x ∈ key (upd s v) ↔ x ∈ gen v ∨ (∃ a ∈ adj v, x ∈ key (s a)) ∧ x ∉ kill v

/-- A path along which an element is not killed, to a node that generates it. -/
def GenPath (adj : ν → List ν) (gen kill : ν → Finset β) (x : β) (v : ν) : Prop :=
  ∃ m, x ∈ gen m ∧ Relation.ReflTransGen (fun a b ↦ b ∈ adj a ∧ x ∉ kill a) v m

omit [DecidableEq ν] [DecidableEq β] in
theorem GenPath.mem (hadj : ∀ v ∈ l, ∀ a ∈ adj v, a ∈ l) {U : Finset β} (hgen : ∀ v ∈ l, gen v ⊆ U)
    {v : ν} {x : β} (hv : v ∈ l) (hx : GenPath adj gen kill x v) : x ∈ U := by
  obtain ⟨m, hm, hpath⟩ := hx
  induction hpath using Relation.ReflTransGen.head_induction_on with
  | refl => exact hgen m hv hm
  | @head a b hab _ ih => exact ih (hadj a hv b hab.1)

namespace GenKill

/-- The sets in the sweeps: they grow, and hold only what the paths say. -/
structure Climbs (upd : (ν → σ) → ν → σ) (key : σ → Finset β) (adj : ν → List ν)
    (gen kill : ν → Finset β) (l : List ν) (s : ν → σ) : Prop where
  ascends : Sweep.Ascends (· ⊆ ·) key upd l s
  sound : ∀ v ∈ l, ∀ x ∈ key (s v), GenPath adj gen kill x v

variable (h : GenKill changed upd key adj gen kill)

include h

omit [DecidableEq ν] [DecidableEq β] in
theorem mono {s t : ν → σ} (hst : ∀ w, key (s w) ⊆ key (t w)) (v : ν) :
    key (upd s v) ⊆ key (upd t v) := by
  intro x hx
  rw [h.mem_upd] at hx ⊢
  exact hx.imp_right fun ⟨⟨a, ha, hxa⟩, hkill⟩ ↦ ⟨⟨a, ha, hst a hxa⟩, hkill⟩

omit [DecidableEq ν] [DecidableEq β] in
theorem sound_upd (hadj : ∀ v ∈ l, ∀ a ∈ adj v, a ∈ l) (hs : Climbs upd key adj gen kill l s) {v : ν}
    (hv : v ∈ l) {x : β} (hx : x ∈ key (upd s v)) : GenPath adj gen kill x v := by
  rcases (h.mem_upd s v x).1 hx with hgen | ⟨⟨a, ha, hxa⟩, hkill⟩
  · exact ⟨v, hgen, .refl⟩
  · obtain ⟨m, hm, hpath⟩ := hs.sound a (hadj v hv a ha) x hxa
    exact ⟨m, hm, hpath.head ⟨ha, hkill⟩⟩

omit [DecidableEq β] in
theorem climbs_update (hadj : ∀ v ∈ l, ∀ a ∈ adj v, a ∈ l) (hs : Climbs upd key adj gen kill l s)
    {v : ν} (hv : v ∈ l) : Climbs upd key adj gen kill l (Function.update s v (upd s v)) := by
  refine ⟨hs.ascends.update (fun _ ↦ subset_rfl) (fun hab hbc ↦ hab.trans hbc)
    (fun _ _ hst w _ ↦ h.mono hst w) hv, fun w hw x hx ↦ ?_⟩
  rcases eq_or_ne w v with rfl | hne
  · rw [Function.update_self] at hx
    exact h.sound_upd hadj hs hw hx
  · rw [Function.update_of_ne hne] at hx
    exact hs.sound w hw x hx

omit [DecidableEq ν] [DecidableEq β] in
theorem climbs_init (hinit : ∀ v ∈ l, key (init v) ⊆ gen v) : Climbs upd key adj gen kill l init :=
  ⟨fun v hv x hx ↦ (h.mem_upd init v x).2 (.inl (hinit v hv hx)),
    fun v hv _ hx ↦ ⟨v, hinit v hv hx, .refl⟩⟩

omit [DecidableEq ν] [DecidableEq β] in
/-- In a solution, an element that is generated is at every node with a path to it. -/
theorem mem_of_genPath (hadj : ∀ v ∈ l, ∀ a ∈ adj v, a ∈ l) (hsol : ∀ v ∈ l, s v = upd s v) {v : ν}
    {x : β} (hv : v ∈ l) (hx : GenPath adj gen kill x v) : x ∈ key (s v) := by
  obtain ⟨m, hm, hpath⟩ := hx
  induction hpath using Relation.ReflTransGen.head_induction_on with
  | refl =>
    rw [hsol m hv, h.mem_upd]
    exact .inl hm
  | @head a b hab _ ih =>
    rw [hsol a hv, h.mem_upd]
    exact .inr ⟨⟨b, hab.1, ih (hadj a hv b hab.1)⟩, hab.2⟩

/-- **The sweeps** end with the equations solved, by what the paths say. -/
theorem sweeps_spec (hadj : ∀ v ∈ l, ∀ a ∈ adj v, a ∈ l) (hinit : ∀ v ∈ l, key (init v) ⊆ gen v)
    {U : Finset β} (hgen : ∀ v ∈ l, gen v ⊆ U) {n : ℕ} (hn : l.length * U.card < n) :
    ∃ s, Sweep.sweeps changed upd l n init = some s ∧ (∀ v ∈ l, s v = upd s v) ∧
      ∀ v ∈ l, ∀ x, x ∈ key (s v) ↔ GenPath adj gen kill x v := by
  have hupd : ∀ s, ∀ v ∈ l, Climbs upd key adj gen kill l s →
      Climbs upd key adj gen kill l (Function.update s v (upd s v)) :=
    fun s v hv hs ↦ h.climbs_update hadj hs hv
  have hroom : Sweep.Lowers changed upd key l (Climbs upd key adj gen kill l) (Sweep.roomSum U l) :=
    h.keyed.lowers_roomSum fun s hs ↦ ⟨hs.ascends, fun v hv x hx ↦
      (h.sound_upd hadj hs hv hx).mem hadj hgen hv⟩
  have hstart := h.climbs_init hinit
  obtain ⟨s, hrun⟩ := h.keyed.exists_sweeps hupd hroom hstart
    ((Sweep.roomSum_le U fun w ↦ key (init w)).trans_lt hn)
  obtain ⟨hs, hsol⟩ := h.keyed.sweeps_solves hupd hstart hrun
  exact ⟨s, hrun, hsol, fun v hv x ↦ ⟨hs.sound v hv x, h.mem_of_genPath hadj hsol hv⟩⟩

end GenKill

end OpenImpact.Foundation
