import OpenImpact.Lcode.RmapExtent

/-!
# The walks in terms of offsets

The array of a resource map starts at `map_start_offset`, which moves when the map grows. Here the
walks are about the offsets, which do not.
-/

namespace OpenImpact.Rmap

/-! ### Moving resources along the map -/

/-- The resources of `A`, `k` words later. -/
def shiftBy (k : ℤ) (A : Set (ℤ × ℕ)) : Set (ℤ × ℕ) :=
  {p | (p.1 - k, p.2) ∈ A}

/-- Two shifts are one. -/
theorem shiftBy_shiftBy (k l : ℤ) (A : Set (ℤ × ℕ)) :
    shiftBy k (shiftBy l A) = shiftBy (k + l) A := by
  ext p
  simp only [shiftBy, Set.mem_ofPred_eq, sub_sub]

/-- A shift by nothing. -/
theorem shiftBy_zero (A : Set (ℤ × ℕ)) : shiftBy 0 A = A := by
  ext p
  simp only [shiftBy, Set.mem_ofPred_eq, sub_zero]

/-- A shift keeps what is disjoint. -/
theorem disjoint_shiftBy (k : ℤ) {A B : Set (ℤ × ℕ)} :
    Disjoint (shiftBy k A) (shiftBy k B) ↔ Disjoint A B := by
  simp only [Set.disjoint_left]
  constructor
  · intro h p hA hB
    exact h (show (p.1 + k, p.2) ∈ shiftBy k A by simpa [shiftBy] using hA)
      (by simpa [shiftBy] using hB)
  · exact fun h p hA hB ↦ h hA hB

/-- The bits of a usage move with its address. -/
theorem shiftBy_bits (k : ℤ) (addr : ℕ → ℤ) (u : Usage) :
    shiftBy k (u.bits addr) = u.bits fun o ↦ addr o + k := by
  ext p
  simp only [shiftBy, Usage.bits, Set.mem_ofPred_eq, sub_eq_iff_eq_add]

/-- A map and its tables may be shifted together. -/
theorem reserved_shiftBy {A : Set (ℤ × ℕ)} {us : List (Set (ℤ × ℕ))} (k : ℤ) (h : Reserved A us) :
    Reserved (shiftBy k A) (us.map (shiftBy k)) :=
  h.image _ rfl (fun _ _ ↦ rfl) (disjoint_shiftBy k).2

variable {s : Cb} {m : Cells} {addr : ℕ → ℤ} {us : List Usage} {L : List (Set (ℤ × ℕ))}

/-- What is held is the map at its start offset. -/
theorem held_eq_shiftBy (h : s.mapArray = some m) : s.held = shiftBy s.mapStartOffset m.bits := by
  ext p
  simp only [Cb.held, Cells.bits, shiftBy, Set.mem_ofPred_eq, Cb.word_of_array h]

/-! ### The walks -/

/-- All usages are within the initialised part of the map. -/
def Cb.Within (s : Cb) (addr : ℕ → ℤ) (us : List Usage) : Prop :=
  ∀ u ∈ us, s.minInitOffset ≤ addr u.mapOffset ∧ addr u.mapOffset ≤ s.maxInitOffset

/-- The words of usages in the window can be loaded. -/
theorem Cb.Inv.loads (h : s.Inv m) (hus : s.Within addr us) :
    Loads m (fun o ↦ addr o - s.mapStartOffset) us := by
  intro u hu
  obtain ⟨hlo, hhi⟩ := hus u hu
  exact Option.isSome_iff_exists.1
    (h.isSome_word (by rwa [sub_add_cancel]) (by rwa [sub_add_cancel]))

/-- Whether usages are free does not depend on where the map starts. -/
theorem free_iff (h : s.mapArray = some m) :
    Free m.bits (fun o ↦ addr o - s.mapStartOffset) us ↔ Free s.held addr us := by
  refine forall₂_congr fun u _ ↦ ?_
  rw [held_eq_shiftBy h, ← disjoint_shiftBy s.mapStartOffset, shiftBy_bits]
  simp only [sub_add_cancel]

/-- A map with the same words allocated and initialised keeps the invariant. -/
theorem Cb.Inv.of_sameShape (h : s.Inv m) {m' : Cells} (hshape : SameShape m m') :
    Cb.Inv { s with mapArray := some m' } m' where
  array := rfl
  length := by rw [hshape.length_eq]; exact h.length
  end_eq := h.end_eq
  spans := h.spans
  size_ge := h.size_ge
  size_mod := h.size_mod
  start_mod := h.start_mod
  min_mod := h.min_mod
  max_mod := h.max_mod
  start_le := h.start_le
  min_le := h.min_le
  max_le := h.max_le
  isSome_iff o := by
    rw [← h.isSome_iff, Cb.word_of_array rfl, Cb.word_of_array h.array, hshape.isSome_eq]

/-- The tables in terms of the words of the map. -/
theorem reserved_bits (h : s.mapArray = some m) (hres : Reserved s.held L) :
    Reserved m.bits (L.map (shiftBy (-s.mapStartOffset))) := by
  have hshift := reserved_shiftBy (-s.mapStartOffset) hres
  rwa [held_eq_shiftBy h, shiftBy_shiftBy, neg_add_cancel, shiftBy_zero] at hshift

/-- And back. -/
theorem reserved_held (h : s.mapArray = some m)
    (hres : Reserved m.bits (L.map (shiftBy (-s.mapStartOffset)))) : Reserved s.held L := by
  have hshift := reserved_shiftBy s.mapStartOffset hres
  have hback : (L.map (shiftBy (-s.mapStartOffset))).map (shiftBy s.mapStartOffset) = L := by
    rw [List.map_map]
    refine (List.map_congr_left fun A _ ↦ ?_).trans L.map_id
    rw [Function.comp_apply, shiftBy_shiftBy, add_neg_cancel, shiftBy_zero, id]
  rwa [← held_eq_shiftBy h, hback] at hshift

/-- The usages, moved to the start of the map. -/
theorem map_bits (us : List Usage) (k : ℤ) :
    us.map (Usage.bits fun o ↦ addr o - k) = (us.map (Usage.bits addr)).map (shiftBy (-k)) := by
  rw [List.map_map]
  refine List.map_congr_left fun u _ ↦ ?_
  rw [Function.comp_apply, shiftBy_bits]
  rfl

/-- Committing free usages that do not overlap adds them to what the map holds. -/
theorem Cb.Inv.commit (h : s.Inv m) (hus : s.Within addr us) (hfree : Free s.held addr us)
    (hpair : (us.map (Usage.bits addr)).Pairwise Disjoint) (hres : Reserved s.held L) :
    ∃ m', walkUsages commitWord (fun o ↦ addr o - s.mapStartOffset) us m = .ok m' ∧
      Cb.Inv { s with mapArray := some m' } m' ∧
      Reserved (Cb.held { s with mapArray := some m' }) (us.map (Usage.bits addr) ++ L) := by
  have hpair' : (us.map (Usage.bits fun o ↦ addr o - s.mapStartOffset)).Pairwise Disjoint := by
    rw [map_bits]
    exact hpair.map _ fun _ _ ↦ (disjoint_shiftBy _).2
  obtain ⟨m', hm', hshape, hres'⟩ := walkUsages_commitWord (h.loads hus)
    ((free_iff h.array).2 hfree) hpair' (reserved_bits h.array hres)
  refine ⟨m', hm', h.of_sameShape hshape, reserved_held rfl ?_⟩
  rwa [map_bits, ← List.map_append] at hres'

/-- Releasing usages the map holds takes them off it. -/
theorem Cb.Inv.release (h : s.Inv m) (hus : s.Within addr us)
    (hres : Reserved s.held (us.map (Usage.bits addr) ++ L)) :
    ∃ m', walkUsages releaseWord (fun o ↦ addr o - s.mapStartOffset) us m = .ok m' ∧
      Cb.Inv { s with mapArray := some m' } m' ∧
      Reserved (Cb.held { s with mapArray := some m' }) L := by
  have hres' := reserved_bits h.array hres
  rw [List.map_append, ← map_bits] at hres'
  obtain ⟨m', hm', hshape, hrest⟩ := walkUsages_releaseWord (h.loads hus) hres'
  exact ⟨m', hm', h.of_sameShape hshape, reserved_held rfl hrest⟩

/-! ### Tables -/

/-- Usages of options of different choices, and of one option, take no resource twice. -/
structure SMTable.Apart (addr : ℕ → ℤ) (t : SMTable) : Prop where
  option : ∀ c ∈ t.choices, ∀ o ∈ c.options,
    o.usages.Pairwise fun u v ↦ Disjoint (u.bits addr) (v.bits addr)
  choice : t.choices.Pairwise fun c d ↦ ∀ o ∈ c.options, ∀ o' ∈ d.options,
    ∀ u ∈ o.usages, ∀ v ∈ o'.usages, Disjoint (u.bits addr) (v.bits addr)

/-- The choices `ids` of one option per choice fit what is free of the map and the slot bounds. -/
structure SMTable.Fits (t : SMTable) (held : Set (ℤ × ℕ)) (addr : ℕ → ℤ) (minSlot maxSlot : ℕ)
    (ids : List ℕ) : Prop where
  selects : Selects t.choices ids
  free : Free held addr (picked t.choices ids)
  slot : ∃ i, ids[t.slotChoice]? = some i ∧ SlotFits t.slotOptions minSlot maxSlot i

/-- A usage that is picked is one of an option of a choice. -/
theorem mem_picked {cs : List SMChoice} {ids : List ℕ} {u : Usage} (h : u ∈ picked cs ids) :
    ∃ c ∈ cs, ∃ o ∈ c.options, u ∈ o.usages := by
  induction cs generalizing ids with
  | nil => simp [picked] at h
  | cons c cs ih =>
    cases ids with
    | nil => simp [picked] at h
    | cons i is =>
      rw [picked, List.mem_append] at h
      rcases h with h | h
      · cases ho : c.options[i]? with
        | none => simp [ho] at h
        | some o =>
          rw [ho, Option.elim_some] at h
          exact ⟨c, List.mem_cons_self, o, List.mem_of_getElem? ho, h⟩
      · obtain ⟨d, hd, o, ho, hu⟩ := ih h
        exact ⟨d, List.mem_cons_of_mem c hd, o, ho, hu⟩

/-- The usages of an option that is chosen are picked. -/
theorem mem_picked_of_getElem? {cs : List SMChoice} {ids : List ℕ} {k i : ℕ} {c : SMChoice}
    {o : SMOption} {u : Usage} (hc : cs[k]? = some c) (hi : ids[k]? = some i)
    (ho : c.options[i]? = some o) (hu : u ∈ o.usages) : u ∈ picked cs ids := by
  induction cs generalizing ids k with
  | nil => simp at hc
  | cons d cs ih =>
    cases ids with
    | nil => simp at hi
    | cons j is =>
      rw [picked, List.mem_append]
      cases k with
      | zero =>
        obtain rfl : d = c := by simpa using hc
        obtain rfl : j = i := by simpa using hi
        rw [ho]
        exact Or.inl hu
      | succ k => exact Or.inr (ih (by simpa using hc) (by simpa using hi))

/-- The usages of any selection from a table whose usages are apart do not overlap. -/
theorem SMTable.Apart.picked {t : SMTable} (h : t.Apart addr) (ids : List ℕ) :
    ((picked t.choices ids).map (Usage.bits addr)).Pairwise Disjoint := by
  obtain ⟨hoption, hchoice⟩ := h
  rw [List.pairwise_map]
  generalize t.choices = cs at hoption hchoice
  induction cs generalizing ids with
  | nil => simp [Rmap.picked]
  | cons c cs ih =>
    cases ids with
    | nil => simp [Rmap.picked]
    | cons i is =>
      rw [List.pairwise_cons] at hchoice
      rw [Rmap.picked, List.pairwise_append]
      refine ⟨?_, ih is (fun d hd ↦ hoption d (List.mem_cons_of_mem c hd)) hchoice.2, ?_⟩
      · cases ho : c.options[i]? with
        | none => simp
        | some o => exact hoption c List.mem_cons_self o (List.mem_of_getElem? ho)
      · intro u hu v hv
        obtain ⟨d, hd, o', ho', hv'⟩ := mem_picked hv
        cases ho : c.options[i]? with
        | none => simp [ho] at hu
        | some o =>
          rw [ho, Option.elim_some] at hu
          exact hchoice.1 d hd o (List.mem_of_getElem? ho) o' ho' u hu v hv'

/-- Where two offsets have one word only if they had one before, usages that were apart are. -/
theorem SMTable.Apart.of_imp {t : SMTable} {addr' : ℕ → ℤ} (h : t.Apart addr)
    (himp : ∀ a b, addr' a = addr' b → addr a = addr b) : t.Apart addr' := by
  have hbits : ∀ u v : Usage, Disjoint (u.bits addr) (v.bits addr) →
      Disjoint (u.bits addr') (v.bits addr') := by
    intro u v huv
    rw [Set.disjoint_left] at huv ⊢
    rintro ⟨i, b⟩ ⟨hi, hu⟩ ⟨hi', hv⟩
    exact huv (show (addr u.mapOffset, b) ∈ u.bits addr from ⟨rfl, hu⟩)
      ⟨himp _ _ (hi.symm.trans hi'), hv⟩
  exact ⟨fun c hc o ho ↦ (h.option c hc o ho).imp fun {u v} ↦ hbits u v,
    h.choice.imp fun {c d} hcd o ho o' ho' u hu v hv ↦ hbits u v (hcd o ho o' ho' u hu v hv)⟩

/-- There is an option for each choice. -/
theorem Selects.getElem? {cs : List SMChoice} {ids : List ℕ} (h : Selects cs ids) {k : ℕ}
    (hk : k < cs.length) : ∃ i, ids[k]? = some i := by
  induction cs generalizing ids k with
  | nil => simp at hk
  | cons c cs ih =>
    obtain ⟨i, is, rfl, -, his⟩ := h
    cases k with
    | zero => exact ⟨i, rfl⟩
    | succ k => simpa using ih his (by simpa using hk)

/-- All usages of a table are within the initialised part of the map. -/
def Cb.WithinAll (s : Cb) (addr : ℕ → ℤ) (t : SMTable) : Prop :=
  ∀ c ∈ t.choices, ∀ o ∈ c.options, s.Within addr o.usages

/-- The usages picked are in the window if all usages of the table are. -/
theorem Cb.WithinAll.picked {t : SMTable} (h : s.WithinAll addr t) (ids : List ℕ) :
    s.Within addr (picked t.choices ids) := by
  intro u hu
  obtain ⟨c, hc, o, ho, hu'⟩ := mem_picked hu
  exact h c hc o ho u hu'

/-- Choosing finds a selection that fits, if there is one. -/
theorem Cb.Inv.choose (h : s.Inv m) {t : SMTable} (hwithin : s.WithinAll addr t)
    (hlen : ∀ c ∈ t.choices, c.options.length ≤ 65536) (minSlot maxSlot : ℕ) :
    ∃ r, chooseChoices m (fun o ↦ addr o - s.mapStartOffset) t minSlot maxSlot 0 0 t.choices =
        .ok r ∧
      (∀ slot ids, r = some (slot, ids) → t.Fits s.held addr minSlot maxSlot ids) ∧
      (r = none → ¬∃ ids, t.Fits s.held addr minSlot maxSlot ids) := by
  obtain ⟨c, hc, hslots⟩ := t.exists_slotChoice
  obtain ⟨r, hr, hchosen⟩ := chooseChoices_eq (t := t) minSlot maxSlot 0 0
    (fun c hc o ho ↦ h.loads (hwithin c hc o ho)) hlen fun j d hj hd ↦ by
      obtain rfl : j = t.slotChoice := by omega
      obtain rfl : c = d := Option.some.inj (hc.symm.trans hd)
      exact hslots.ge
  refine ⟨r, hr, fun slot ids hsome ↦ ?_, fun hnone ↦ ?_⟩
  · obtain ⟨hselects, hfree, hslot⟩ := hchosen.some slot ids hsome
    obtain ⟨i, hi⟩ := hselects.getElem? (List.getElem?_eq_some_iff.1 hc).1
    exact ⟨hselects, (free_iff h.array).1 hfree, i, hi, hslot t.slotChoice i (Nat.zero_add _) hi⟩
  · rintro ⟨ids, hselects, hfree, i, hi, hslot⟩
    refine hchosen.none hnone ids hselects ((free_iff h.array).2 hfree) fun j i' hj hi' ↦ ?_
    obtain rfl : j = t.slotChoice := by omega
    obtain rfl : i = i' := Option.some.inj (hi.symm.trans hi')
    exact hslot

end OpenImpact.Rmap
