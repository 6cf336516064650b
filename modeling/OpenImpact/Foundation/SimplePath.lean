import Mathlib.Data.List.Nodup
import Mathlib.Data.List.Perm.Subperm
import Mathlib.Data.Set.Card

/-!
# Simple paths along arcs

The paths of a directed graph with parallel arcs that visit no vertex twice, and their enumeration by
depth-first search. A path names each arc by its number among the arcs out of its source.
-/

namespace OpenImpact

variable {α : Type*} [DecidableEq α]

section

variable (out : α → List α) (ok : α → Bool) (target : α)

/-- A path along arcs from a vertex to the target: the number and the target of each arc. -/
def IsArcPath : α → List (ℕ × α) → Prop
  | v, [] => v = target
  | v, (i, w) :: p => (out v)[i]? = some w ∧ IsArcPath w p

/-- A path that visits no vertex twice and goes to vertices that are `ok` only. -/
structure IsSimplePath (v : α) (p : List (ℕ × α)) : Prop where
  isArcPath : IsArcPath out target v p
  nodup : (v :: p.map Prod.snd).Nodup
  ok : ∀ w ∈ p.map Prod.snd, ok w = true

/-- The rest of a simple path, past the vertices on a stack. -/
def IsSimpleTail : List α → α → List (ℕ × α) → Prop
  | _, v, [] => v = target
  | st, v, (i, w) :: p =>
    v ≠ target ∧ (out v)[i]? = some w ∧ ok w = true ∧ w ∉ v :: st ∧ IsSimpleTail (v :: st) w p

/-- The simple paths shorter than a number of arcs, past the vertices on a stack. -/
def simplePaths : ℕ → List α → α → List (List (ℕ × α))
  | 0, _, _ => []
  | n + 1, st, v =>
    if v = target then [[]]
    else (out v).zipIdx.flatMap fun a ↦
      if ok a.1 = true ∧ a.1 ∉ v :: st then
        (simplePaths n (v :: st) a.1).map fun p ↦ (a.2, a.1) :: p
      else []

end

variable {out : α → List α} {ok : α → Bool} {target : α}

theorem mem_simplePaths {n : ℕ} {st : List α} {v : α} {p : List (ℕ × α)} :
    p ∈ simplePaths out ok target n st v ↔
      p.length < n ∧ IsSimpleTail out ok target st v p := by
  induction n generalizing st v p with
  | zero => simp [simplePaths]
  | succ n ih =>
    rw [simplePaths]
    by_cases hv : v = target
    · cases p with
      | nil => simp [hv, IsSimpleTail]
      | cons a p => simp [hv, IsSimpleTail]
    · rw [if_neg hv]
      cases p with
      | nil =>
        simp only [List.mem_flatMap, IsSimpleTail, hv, and_false, iff_false, not_exists, not_and]
        intro a _
        split_ifs <;> simp
      | cons a p =>
        obtain ⟨i, w⟩ := a
        simp only [List.mem_flatMap, IsSimpleTail]
        constructor
        · rintro ⟨⟨w', i'⟩, ha, hp⟩
          split_ifs at hp with hok
          · obtain ⟨p', hp', heq⟩ := List.mem_map.1 hp
            obtain ⟨⟨rfl, rfl⟩, rfl⟩ : (i' = i ∧ w' = w) ∧ p' = p := by simpa using heq
            obtain ⟨hlen, htail⟩ := ih.1 hp'
            rw [List.mem_zipIdx_iff_getElem?] at ha
            exact ⟨by simpa using hlen, hv, by simpa using ha, hok.1, hok.2, htail⟩
          · cases hp
        · rintro ⟨hlen, -, hi, hok, hout, htail⟩
          refine ⟨(w, i), by rw [List.mem_zipIdx_iff_getElem?]; simpa using hi, ?_⟩
          rw [if_pos ⟨hok, hout⟩]
          exact List.mem_map.2 ⟨p, ih.2 ⟨by simpa using hlen, htail⟩, rfl⟩

theorem nodup_simplePaths (n : ℕ) (st : List α) (v : α) :
    (simplePaths out ok target n st v).Nodup := by
  induction n generalizing st v with
  | zero => exact List.nodup_nil
  | succ n ih =>
    rw [simplePaths]
    split_ifs with hv
    · exact List.nodup_singleton _
    · refine List.nodup_flatMap.2 ⟨fun a _ ↦ ?_, ?_⟩
      · split_ifs
        · exact (ih _ _).map fun p q h ↦ (List.cons.inj h).2
        · exact List.nodup_nil
      · -- Paths along different arcs differ in the number of their first arc.
        have hidx : ((out v).zipIdx.map Prod.snd).Nodup := by
          rw [List.zipIdx_map_snd]
          exact List.nodup_range'
        refine (List.pairwise_map.1 hidx).imp fun {a b} hne ↦ ?_
        rw [Function.onFun, List.disjoint_left]
        intro p hp hq
        split_ifs at hp hq
        · obtain ⟨p', -, rfl⟩ := List.mem_map.1 hp
          obtain ⟨q', -, heq⟩ := List.mem_map.1 hq
          exact hne (Prod.mk.inj (List.cons.inj heq).1).1.symm
        all_goals simp_all

omit [DecidableEq α] in
/-- A simple path, seen from its first vertex. -/
theorem isSimpleTail_iff {st : List α} {v : α} {p : List (ℕ × α)} :
    IsSimpleTail out ok target st v p ↔
      IsSimplePath out ok target v p ∧ ∀ w ∈ p.map Prod.snd, w ∉ st := by
  induction p generalizing st v with
  | nil =>
    simp only [IsSimpleTail, List.map_nil, List.not_mem_nil, false_imp_iff, implies_true, and_true]
    exact ⟨fun h ↦ ⟨h, by simp, by simp⟩, fun h ↦ h.isArcPath⟩
  | cons a p ih =>
    obtain ⟨i, w⟩ := a
    rw [IsSimpleTail, ih]
    constructor
    · rintro ⟨hv, hi, hok, hw, ⟨hpath, hnodup, hoks⟩, hout⟩
      rw [List.mem_cons, not_or] at hw
      refine ⟨⟨⟨hi, hpath⟩, ?_, ?_⟩, ?_⟩
      · rw [List.map_cons, List.nodup_cons]
        refine ⟨?_, hnodup⟩
        rw [List.mem_cons, not_or]
        exact ⟨Ne.symm hw.1, fun hmem ↦ hout v hmem List.mem_cons_self⟩
      · exact List.forall_mem_cons.2 ⟨hok, hoks⟩
      · exact List.forall_mem_cons.2
          ⟨hw.2, fun x hx hst ↦ hout x hx (List.mem_cons_of_mem v hst)⟩
    · rintro ⟨⟨⟨hi, hpath⟩, hnodup, hoks⟩, hout⟩
      rw [List.map_cons] at hnodup hoks hout
      obtain ⟨hvout, hnodup'⟩ := List.nodup_cons.1 hnodup
      obtain ⟨hok, hoks'⟩ := List.forall_mem_cons.1 hoks
      obtain ⟨hw, hout'⟩ := List.forall_mem_cons.1 hout
      rw [List.mem_cons, not_or] at hvout
      refine ⟨?_, hi, hok, ?_, ⟨hpath, hnodup', hoks'⟩, fun x hx hst ↦ ?_⟩
      · -- The path ends at the target, so it does not start there too.
        rintro rfl
        have hend : ∀ {x : α} {q : List (ℕ × α)}, IsArcPath out v x q →
            v ∈ x :: q.map Prod.snd := by
          intro x q hq
          induction q generalizing x with
          | nil => exact hq ▸ List.mem_cons_self
          | cons b q ihq => exact List.mem_cons_of_mem _ (ihq hq.2)
        rcases List.mem_cons.1 (hend hpath) with heq | hmem
        · exact hvout.1 heq
        · exact hvout.2 hmem
      · rw [List.mem_cons, not_or]
        exact ⟨Ne.symm hvout.1, hw⟩
      · rcases List.mem_cons.1 hst with rfl | hst
        · exact hvout.2 hx
        · exact hout' x hx hst

/-- With more arcs than vertices that are `ok`, the enumeration is complete. -/
theorem mem_simplePaths_iff {region : List α} {n : ℕ} {v : α} {p : List (ℕ × α)}
    (hregion : ∀ w, ok w = true → w ∈ region) (hn : region.length < n) :
    p ∈ simplePaths out ok target n [] v ↔ IsSimplePath out ok target v p := by
  rw [mem_simplePaths, isSimpleTail_iff]
  constructor
  · exact fun h ↦ h.2.1
  · refine fun h ↦ ⟨?_, h, fun w _ ↦ List.not_mem_nil⟩
    have hsub : (p.map Prod.snd).Subperm region :=
      (List.nodup_cons.1 h.nodup).2.subperm fun w hw ↦ hregion w (h.ok w hw)
    have hle := hsub.length_le
    rw [List.length_map] at hle
    omega

/-- The number of simple paths. -/
theorem encard_isSimplePath {region : List α} {n : ℕ} {v : α}
    (hregion : ∀ w, ok w = true → w ∈ region) (hn : region.length < n) :
    {p | IsSimplePath out ok target v p}.encard = (simplePaths out ok target n [] v).length := by
  have heq : {p | IsSimplePath out ok target v p} =
      ((simplePaths out ok target n [] v).toFinset : Set (List (ℕ × α))) := by
    ext p
    rw [List.coe_toFinset]
    exact (mem_simplePaths_iff hregion hn).symm
  rw [heq, Set.encard_coe_eq_coe_finsetCard, List.toFinset_card_of_nodup (nodup_simplePaths n [] v)]

end OpenImpact
