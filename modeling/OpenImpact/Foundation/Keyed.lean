import Mathlib.Data.List.Nodup

/-!
# Lists of records with a key

Looking up and replacing the record with a given key, in lists where no two records have the same.
-/

namespace OpenImpact

theorem nodup_map_concat {α β : Type*} {f : α → β} {l : List α} {a : α} (h : (l.map f).Nodup)
    (ha : f a ∉ l.map f) : ((l ++ [a]).map f).Nodup := by
  rw [List.map_append, List.map_singleton, ← List.concat_eq_append]
  exact h.concat ha

variable {α : Type} (key : α → ℕ)

/-- The record with a key. -/
def getKey (l : List α) (k : ℕ) : Option α := l.find? fun a ↦ key a == k

/-- Replace the record with the key of `a` by `a`. -/
def setKey (l : List α) (a : α) : List α := l.map fun b ↦ if key b = key a then a else b

variable {key} {l pre post : List α} {a b : α} {k : ℕ}

theorem mem_of_getKey (h : getKey key l k = some a) : a ∈ l := List.mem_of_find?_eq_some h

theorem key_of_getKey (h : getKey key l k = some a) : key a = k := by
  simpa using List.find?_some h

variable (key) in
theorem getKey_append_cons (h : key a ∉ pre.map key) :
    getKey key (pre ++ a :: post) (key a) = some a := by
  have hpre : pre.find? (fun b ↦ key b == key a) = none := by
    rw [List.find?_eq_none]
    intro b hb
    simp only [beq_iff_eq]
    exact fun he ↦ h (he ▸ List.mem_map_of_mem hb)
  rw [getKey, List.find?_append, hpre, Option.none_or, List.find?_cons_of_pos (by simp)]

theorem getKey_isSome : (getKey key l k).isSome ↔ k ∈ l.map key := by
  simp [getKey, List.mem_map]

@[simp] theorem map_key_setKey (l : List α) (a : α) : (setKey key l a).map key = l.map key := by
  rw [setKey, List.map_map]
  refine List.map_congr_left fun b _ ↦ ?_
  simp only [Function.comp_apply]
  split_ifs with h
  · exact h.symm
  · rfl

theorem setKey_of_not_mem (h : key a ∉ l.map key) : setKey key l a = l := by
  refine List.map_congr_left (fun b hb ↦ if_neg fun he ↦ h ?_) |>.trans (List.map_id l)
  exact he ▸ List.mem_map_of_mem hb

variable (key) in
theorem setKey_append_cons (hl : ((pre ++ a :: post).map key).Nodup) (hkey : key b = key a) :
    setKey key (pre ++ a :: post) b = pre ++ b :: post := by
  rw [List.map_append, List.map_cons, List.nodup_middle, List.nodup_cons, ← hkey] at hl
  have hpre : setKey key pre b = pre :=
    setKey_of_not_mem fun h ↦ hl.1 (List.mem_append_left _ h)
  have hpost : setKey key post b = post :=
    setKey_of_not_mem fun h ↦ hl.1 (List.mem_append_right _ h)
  calc setKey key (pre ++ a :: post) b
      = setKey key pre b ++ b :: setKey key post b := by
        simp only [setKey, List.map_append, List.map_cons, if_pos hkey.symm]
    _ = pre ++ b :: post := by rw [hpre, hpost]

end OpenImpact
