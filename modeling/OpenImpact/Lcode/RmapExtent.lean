import OpenImpact.Lcode.RmapGrow

/-!
# Growing keeps the map

Creating, resizing and initialising the map keeps `Cb.Inv` and every word that was in use, and what
it initialises is free.
-/

namespace OpenImpact.Rmap

/-! ### The four-at-a-time loops -/

/-- Filling four words at a time. -/
theorem fill4_eq {m : Cells} {i : ℤ} {n : ℕ} (hi : 0 ≤ i) (hn : i + 4 * n ≤ m.length) :
    ∃ m', fill4 i n m = .ok m' ∧ m'.length = m.length ∧
      ∀ j, m'.word j = if i ≤ j ∧ j < i + 4 * n then some 0 else m.word j := by
  induction n generalizing i m with
  | zero => exact ⟨m, rfl, rfl, fun j ↦ by simp⟩
  | succ n ih =>
    push_cast at hn
    obtain ⟨m₁, h₁, hl₁, hw₁⟩ := Cells.store_eq (m := m) (i := i) 0 (by omega)
    obtain ⟨m₂, h₂, hl₂, hw₂⟩ := Cells.store_eq (m := m₁) (i := i + 1) 0 (by omega)
    obtain ⟨m₃, h₃, hl₃, hw₃⟩ := Cells.store_eq (m := m₂) (i := i + 2) 0 (by omega)
    obtain ⟨m₄, h₄, hl₄, hw₄⟩ := Cells.store_eq (m := m₃) (i := i + 3) 0 (by omega)
    obtain ⟨m', h', hl', hw'⟩ := ih (m := m₄) (i := i + 4) (by omega) (by omega)
    refine ⟨m', by simp only [fill4, h₁, h₂, h₃, h₄, h', Run.ok_bind], by omega, fun j ↦ ?_⟩
    simp only [hw', hw₄, hw₃, hw₂, hw₁]
    push_cast
    split_ifs <;> first | rfl | omega

/-- Copying one word. -/
theorem copy1_eq {old m : Cells} {i : ℤ} (shift : ℤ) (hold : (old.word i).isSome = true)
    (hi : 0 ≤ shift + i ∧ shift + i < m.length) :
    ∃ m', copy1 old shift i m = .ok m' ∧ m'.length = m.length ∧
      ∀ j, m'.word j = if j = shift + i then old.word i else m.word j := by
  obtain ⟨w, hw⟩ := Option.isSome_iff_exists.1 hold
  obtain ⟨m', hm', hlen, hword⟩ := Cells.store_eq w hi
  refine ⟨m', ?_, hlen, fun j ↦ by rw [hword, hw]⟩
  rw [copy1, Cells.load, hw, deref_some, Run.ok_bind, hm']

/-- Copying four words at a time. -/
theorem copy4_eq {old m : Cells} (shift i : ℤ) (n : ℕ)
    (hold : ∀ j, i ≤ j → j < i + 4 * n → (old.word j).isSome = true) (hi : 0 ≤ shift + i)
    (hn : shift + i + 4 * n ≤ m.length) :
    ∃ m', copy4 old shift i n m = .ok m' ∧ m'.length = m.length ∧
      ∀ j, m'.word j =
        if shift + i ≤ j ∧ j < shift + i + 4 * n then old.word (j - shift) else m.word j := by
  induction n generalizing i m with
  | zero => exact ⟨m, rfl, rfl, fun j ↦ by simp⟩
  | succ n ih =>
    push_cast at hn hold
    obtain ⟨m₁, h₁, hl₁, hw₁⟩ := copy1_eq (m := m) shift
      (hold i (by omega) (by omega)) (by omega)
    obtain ⟨m₂, h₂, hl₂, hw₂⟩ := copy1_eq (m := m₁) shift
      (hold (i + 1) (by omega) (by omega)) (by omega)
    obtain ⟨m₃, h₃, hl₃, hw₃⟩ := copy1_eq (m := m₂) shift
      (hold (i + 2) (by omega) (by omega)) (by omega)
    obtain ⟨m₄, h₄, hl₄, hw₄⟩ := copy1_eq (m := m₃) shift
      (hold (i + 3) (by omega) (by omega)) (by omega)
    obtain ⟨m', h', hl', hw'⟩ := ih (m := m₄) (i + 4)
      (fun j hj hj' ↦ hold j (by omega) (by omega)) (by omega) (by omega)
    refine ⟨m', by simp only [copy4, h₁, h₂, h₃, h₄, h', Run.ok_bind], by omega, fun j ↦ ?_⟩
    simp only [hw', hw₄, hw₃, hw₂, hw₁]
    push_cast
    split_ifs <;> first | rfl | omega | (congr 1; omega)

/-! ### The invariant -/

namespace Cb

/-- The word for offset `o`, if it is in the map and initialised. -/
def word (s : Cb) (o : ℤ) : Option (BitVec 32) :=
  s.mapArray.bind fun m ↦ m.word (o - s.mapStartOffset)

/-- The resources in use: pairs of an offset and a bit set in its word. -/
def held (s : Cb) : Set (ℤ × ℕ) :=
  {p | ∃ w, s.word p.1 = some w ∧ w.getLsbD p.2 = true}

/-- The array `m` covers the offsets from `map_start_offset` to `map_end_offset`, and of these the
ones from `min_init_offset` to `max_init_offset` are initialised. -/
structure Inv (s : Cb) (m : Cells) : Prop where
  array : s.mapArray = some m
  length : (m.length : ℤ) = s.mapArraySize
  end_eq : s.mapEndOffset = s.mapStartOffset + s.mapArraySize - 1
  spans : Spans s.mapStartOffset s.mapArraySize
  size_ge : 32 ≤ s.mapArraySize
  size_mod : s.mapArraySize % 4 = 0
  start_mod : s.mapStartOffset % 4 = 0
  min_mod : s.minInitOffset % 4 = 0
  max_mod : (s.maxInitOffset + 1) % 4 = 0
  start_le : s.mapStartOffset ≤ s.minInitOffset
  min_le : s.minInitOffset ≤ s.maxInitOffset + 1
  max_le : s.maxInitOffset ≤ s.mapEndOffset
  isSome_iff : ∀ o, (s.word o).isSome = true ↔ s.minInitOffset ≤ o ∧ o ≤ s.maxInitOffset

/-- `s'` has the words of `s`, and otherwise free ones only. -/
structure Extends (s s' : Cb) : Prop where
  word_eq : ∀ {o w}, s.word o = some w → s'.word o = some w
  word_new : ∀ {o w}, s.word o = none → s'.word o = some w → w = 0

namespace Extends

variable {s s' s'' : Cb}

/-- A map extends itself. -/
theorem refl (s : Cb) : s.Extends s := ⟨id, fun h h' ↦ by simp [h] at h'⟩

theorem trans (h : s.Extends s') (h' : s'.Extends s'') : s.Extends s'' := by
  refine ⟨fun hw ↦ h'.word_eq (h.word_eq hw), fun {o w} hno hw ↦ ?_⟩
  cases hmid : s'.word o with
  | none => exact h'.word_new hmid hw
  | some w' =>
    obtain rfl : w' = w := Option.some.inj ((h'.word_eq hmid).symm.trans hw)
    exact h.word_new hno hmid

/-- A map with the same words holds the same. -/
theorem of_word_eq (h : ∀ o, s'.word o = s.word o) : s.Extends s' :=
  ⟨fun hw ↦ (h _).trans hw, fun hno hw ↦ by rw [h, hno] at hw; cases hw⟩

/-- An extended map holds the same bits. -/
theorem held_eq (h : s.Extends s') : s'.held = s.held := by
  ext ⟨o, b⟩
  constructor
  · rintro ⟨w, hw, hb⟩
    cases hs : s.word o with
    | none =>
      obtain rfl : w = 0 := h.word_new hs hw
      simp at hb
    | some w' =>
      obtain rfl : w' = w := Option.some.inj ((h.word_eq hs).symm.trans hw)
      exact ⟨w', hs, hb⟩
  · rintro ⟨w, hw, hb⟩
    exact ⟨w, h.word_eq hw, hb⟩

end Extends

variable {s : Cb} {m : Cells}

/-- The words of a map are those of its array, from the start offset on. -/
theorem word_of_array (h : s.mapArray = some m) (o : ℤ) :
    s.word o = m.word (o - s.mapStartOffset) := by
  rw [word, h, Option.bind_some]

/-- The words within the initialised range can be read. -/
theorem Inv.isSome_word (h : s.Inv m) {i : ℤ} (hi : s.minInitOffset ≤ i + s.mapStartOffset)
    (hi' : i + s.mapStartOffset ≤ s.maxInitOffset) : (m.word i).isSome = true := by
  have ho := (h.isSome_iff (i + s.mapStartOffset)).2 ⟨hi, hi'⟩
  rwa [word_of_array h.array, Int.add_sub_cancel] at ho

/-- Those outside have not been stored. -/
theorem Inv.word_eq_none (h : s.Inv m) {i : ℤ}
    (hi : ¬(s.minInitOffset ≤ i + s.mapStartOffset ∧ i + s.mapStartOffset ≤ s.maxInitOffset)) :
    m.word i = none := by
  have ho := mt (h.isSome_iff (i + s.mapStartOffset)).1 hi
  rw [word_of_array h.array, Int.add_sub_cancel] at ho
  simpa using ho

end Cb

/-! ### Resizing -/

/-- What the resizing functions do: only the extent of the array changes. -/
structure Resized (s s' : Cb) (m' : Cells) (start size : ℤ) : Prop where
  inv : s'.Inv m'
  start_eq : s'.mapStartOffset = start
  size_eq : s'.mapArraySize = size
  min_eq : s'.minInitOffset = s.minInitOffset
  max_eq : s'.maxInitOffset = s.maxInitOffset
  ext : s.Extends s'

section Resize

variable {s : Cb} {m : Cells}

/-- A larger array with the initialised words at their new places. -/
theorem Cb.Inv.resized (h : s.Inv m) {m' : Cells} {start size : ℤ}
    (hstart : start ≤ s.mapStartOffset)
    (hend : s.mapStartOffset + s.mapArraySize ≤ start + size) (hstart_mod : start % 4 = 0)
    (hsize_mod : size % 4 = 0) (hspans : Spans start size) (hlen : (m'.length : ℤ) = size)
    (hword : ∀ j, m'.word j =
      if s.minInitOffset ≤ j + start ∧ j + start ≤ s.maxInitOffset then
        m.word (j - (s.mapStartOffset - start)) else none) :
    Resized s { s with
      mapArray := some m', mapArraySize := size, mapStartOffset := start,
      mapEndOffset := start + size - 1 } m' start size := by
  have hsize := h.size_ge
  have hend_eq := h.end_eq
  have hmax := h.max_le
  have hmin := h.start_le
  have hword' : ∀ o, Cb.word { s with
      mapArray := some m', mapArraySize := size, mapStartOffset := start,
      mapEndOffset := start + size - 1 } o = s.word o := by
    intro o
    rw [Cb.word_of_array rfl, Cb.word_of_array h.array, hword]
    split_ifs with ho
    · rw [sub_sub_sub_cancel_right]
    · exact (h.word_eq_none (by simpa using ho)).symm
  exact {
    inv := {
      array := rfl
      length := hlen
      end_eq := rfl
      spans := hspans
      size_ge := by dsimp only; omega
      size_mod := hsize_mod
      start_mod := hstart_mod
      min_mod := h.min_mod
      max_mod := h.max_mod
      start_le := hstart.trans hmin
      min_le := h.min_le
      max_le := by dsimp only; omega
      isSome_iff := fun o ↦ by rw [hword']; exact h.isSome_iff o }
    start_eq := rfl
    size_eq := rfl
    min_eq := rfl
    max_eq := rfl
    ext := .of_word_eq hword' }

/-- The number of rounds of a loop that goes by four. -/
theorem trips_cast {a b : ℤ} (h : a ≤ b + 1) (hmod : (b + 1 - a) % 4 = 0) :
    4 * (trips a b : ℤ) = b + 1 - a := by
  rw [trips]
  omega

/-- `malloc` of an array within `int`. -/
theorem mallocWords_eq {msg : String} {n : ℤ} (h : n * 4 ≤ 2147483647) :
    mallocWords msg n = .ok (List.replicate n.toNat none) := if_pos h

/-- Growing at the end copies the map to a longer array. -/
theorem expandMapEndOffset_eq (offset : ℤ) (h : s.Inv m)
    (hspans : Spans s.mapStartOffset
      (cover (offset + 1 - s.mapStartOffset) 31 (s.mapArraySize * 2))) :
    ∃ s' m', expandMapEndOffset s offset = .ok s' ∧
      Resized s s' m' s.mapStartOffset
        (cover (offset + 1 - s.mapStartOffset) 31 (s.mapArraySize * 2)) := by
  generalize hsize' : cover (offset + 1 - s.mapStartOffset) 31 (s.mapArraySize * 2) = size at *
  have hsize := h.size_ge
  have hend := h.end_eq
  have hmax := h.max_le
  have hmin := h.start_le
  have hmm := h.min_le
  obtain ⟨hlo, hhi, hmalloc⟩ := hspans
  have hle : s.mapArraySize * 2 ≤ size := by
    rw [← hsize']
    exact le_cover _ _ (by omega)
  have hdouble : doubleUntil (fun n ↦ do
      let next ← int32 (s.mapStartOffset + n)
      .ok (decide (offset < next))) 32 (s.mapArraySize * 2) = .ok size := by
    rw [← hsize']
    refine doubleUntil_eq (by omega) (width_le_cover (by omega) (by omega)) (by omega)
      fun k hk hk' ↦ ?_
    rw [int32_eq (by omega), Run.ok_bind]
    exact congrArg Except.ok (decide_eq_decide.2 (by omega))
  have htrips := trips_cast (a := s.minInitOffset - s.mapStartOffset)
    (b := s.maxInitOffset - s.mapStartOffset) (by omega)
    (by have := h.min_mod; have := h.max_mod; omega)
  obtain ⟨m', hm', hlen, hword⟩ := copy4_eq 0 (s.minInitOffset - s.mapStartOffset)
    (trips (s.minInitOffset - s.mapStartOffset) (s.maxInitOffset - s.mapStartOffset))
    (m := List.replicate size.toNat none)
    (fun j hj hj' ↦ h.isSome_word (by omega) (by omega)) (by omega)
    (by rw [List.length_replicate]; omega)
  rw [List.length_replicate] at hlen
  refine ⟨_, m', ?_, h.resized le_rfl (by omega) h.start_mod ?_ ⟨hlo, hhi, hmalloc⟩ (by omega)
    fun j ↦ ?_⟩
  · rw [expandMapEndOffset, int32_eq (by omega), Run.ok_bind, hdouble, Run.ok_bind,
      mallocWords_eq hmalloc, Run.ok_bind, h.array, deref_some, Run.ok_bind, int32_eq (by omega),
      Run.ok_bind, int32_eq (by omega), Run.ok_bind, hm', Run.ok_bind, if_neg (by omega),
      int32_eq (by omega), Run.ok_bind]
  · rw [← hsize']
    exact cover_mod _ _ (by have := h.size_mod; omega)
  · rw [hword, Cells.word_replicate]
    split_ifs <;> first | omega | rfl | simp

/-- Growing at the start copies it behind new words. -/
theorem expandMapStartOffset_eq (h : s.Inv m) {offset size : ℤ}
    (hsize' : cover (s.mapStartOffset + s.mapArraySize - offset) 31 (s.mapArraySize * 2) = size)
    (hspans : Spans (s.mapStartOffset + s.mapArraySize - size) size) :
    ∃ s' m', expandMapStartOffset s offset = .ok s' ∧
      Resized s s' m' (s.mapStartOffset + s.mapArraySize - size) size := by
  have hsize := h.size_ge
  have hend := h.end_eq
  have hmax := h.max_le
  have hmin := h.start_le
  have hmm := h.min_le
  obtain ⟨hlo', hhi', -⟩ := h.spans
  obtain ⟨hlo, hhi, hmalloc⟩ := hspans
  have hle : s.mapArraySize * 2 ≤ size := by
    rw [← hsize']
    exact le_cover _ _ (by omega)
  have hmod : size % 4 = 0 := by
    rw [← hsize']
    exact cover_mod _ _ (by have := h.size_mod; omega)
  have hdouble : doubleUntil (fun n ↦ do
      let start ← int32 (s.mapStartOffset + s.mapArraySize - n)
      .ok (decide (start ≤ offset))) 32 (s.mapArraySize * 2) = .ok size := by
    rw [← hsize']
    refine doubleUntil_eq (by omega) (width_le_cover (by omega) (by omega)) (by omega)
      fun k hk hk' ↦ ?_
    rw [int32_eq (by omega), Run.ok_bind]
    exact congrArg Except.ok (decide_eq_decide.2 (by omega))
  have htrips := trips_cast (a := s.minInitOffset - s.mapStartOffset)
    (b := s.maxInitOffset - s.mapStartOffset) (by omega)
    (by have := h.min_mod; have := h.max_mod; omega)
  have hnext : s.mapEndOffset + 1 = s.mapStartOffset + s.mapArraySize := by omega
  obtain ⟨m', hm', hlen, hword⟩ := copy4_eq
    (s.mapStartOffset - (s.mapStartOffset + s.mapArraySize - size))
    (s.minInitOffset - s.mapStartOffset)
    (trips (s.minInitOffset - s.mapStartOffset) (s.maxInitOffset - s.mapStartOffset))
    (m := List.replicate size.toNat none)
    (fun j hj hj' ↦ h.isSome_word (by omega) (by omega)) (by omega)
    (by rw [List.length_replicate]; omega)
  rw [List.length_replicate] at hlen
  have hresized : Resized s _ m' (s.mapStartOffset + s.mapArraySize - size) size := h.resized
    (by omega) (by omega) (by have := h.start_mod; have := h.size_mod; omega) hmod
    ⟨hlo, hhi, hmalloc⟩ (by omega) fun j ↦ by
      rw [hword, Cells.word_replicate]
      split_ifs <;> first | omega | rfl
  refine ⟨_, m', ?_, hresized⟩
  rw [expandMapStartOffset, hnext, int32_eq (by omega), Run.ok_bind, int32_eq (by omega),
    Run.ok_bind, hdouble, Run.ok_bind, int32_eq (by omega), Run.ok_bind, mallocWords_eq hmalloc,
    Run.ok_bind, h.array, deref_some, Run.ok_bind, int32_eq (by omega), Run.ok_bind, int32_eq (by omega),
    Run.ok_bind, int32_eq (by omega), Run.ok_bind, hm', Run.ok_bind, if_neg (by omega)]
  rw [show s.mapStartOffset + s.mapArraySize - size + size - 1 = s.mapEndOffset by omega]

end Resize

/-! ### Initialising -/

section Init

variable {s : Cb} {m : Cells}

/-- What the initialising functions do: the interval of initialised words grows over free ones. -/
structure Grown (s s' : Cb) (m' : Cells) (start size min max : ℤ) : Prop where
  inv : s'.Inv m'
  start_eq : s'.mapStartOffset = start
  size_eq : s'.mapArraySize = size
  min_eq : s'.minInitOffset = min
  max_eq : s'.maxInitOffset = max
  ext : s.Extends s'

/-- The array after an initialisation loop from offset `a` to offset `b`. -/
theorem Cb.Inv.filled (h : s.Inv m) {m' : Cells} {a b lo hi : ℤ} (hlen : m'.length = m.length)
    (hword : ∀ j, m'.word j =
      if a ≤ j + s.mapStartOffset ∧ j + s.mapStartOffset ≤ b then some 0 else m.word j)
    (hlo_mod : lo % 4 = 0) (hhi_mod : (hi + 1) % 4 = 0) (hlo : s.mapStartOffset ≤ lo)
    (hhi : hi ≤ s.mapEndOffset) (hle : lo ≤ hi + 1)
    (hnew : ∀ o, a ≤ o → o ≤ b → ¬(s.minInitOffset ≤ o ∧ o ≤ s.maxInitOffset))
    (hcover : ∀ o, lo ≤ o ∧ o ≤ hi ↔
      (a ≤ o ∧ o ≤ b) ∨ (s.minInitOffset ≤ o ∧ o ≤ s.maxInitOffset)) :
    Grown s { s with mapArray := some m', minInitOffset := lo, maxInitOffset := hi } m'
      s.mapStartOffset s.mapArraySize lo hi := by
  have hword' : ∀ o, Cb.word { s with
      mapArray := some m', minInitOffset := lo, maxInitOffset := hi } o =
        if a ≤ o ∧ o ≤ b then some 0 else s.word o := by
    intro o
    rw [Cb.word_of_array rfl, Cb.word_of_array h.array, hword]
    simp only [sub_add_cancel]
  exact {
    inv := {
      array := rfl
      length := by rw [hlen]; exact h.length
      end_eq := h.end_eq
      spans := h.spans
      size_ge := h.size_ge
      size_mod := h.size_mod
      start_mod := h.start_mod
      min_mod := hlo_mod
      max_mod := hhi_mod
      start_le := hlo
      min_le := hle
      max_le := hhi
      isSome_iff := fun o ↦ by
        rw [hword', hcover, ← h.isSome_iff]
        split_ifs with ho
        · simp [ho]
        · simp [ho] }
    start_eq := rfl
    size_eq := rfl
    min_eq := rfl
    max_eq := rfl
    ext := {
      word_eq := fun {o w} hw ↦ by
        rw [hword', if_neg fun ho ↦ hnew o ho.1 ho.2 ((h.isSome_iff o).1 (by simp [hw])), hw]
      word_new := fun {o w} hno hw ↦ by
        rw [hword', hno] at hw
        split_ifs at hw
        exact (Option.some.inj hw).symm } }

/-- The size of an array of `size` words from offset `start` on after room was made for
`maxUsageOffset` at its end. -/
def sizeForMax (start size maxUsageOffset : ℤ) : ℤ :=
  if start + size ≤ maxUsageOffset then
    cover (maxUsageOffset - maxUsageOffset % 4 + 8 - start) 31 (size * 2)
  else size

/-- An offset the array is to cover is not near the largest `int`. -/
theorem int32_newMax (h : s.Inv m) {offset : ℤ}
    (hspans : Spans s.mapStartOffset (sizeForMax s.mapStartOffset s.mapArraySize offset))
    (hle : s.mapStartOffset ≤ offset + 4) :
    int32 (offset - offset % 4 + 7) = .ok (offset - offset % 4 + 7) := by
  have hsize := h.size_ge
  have hend := h.end_eq
  have hmod := h.start_mod
  have hmod' := h.size_mod
  obtain ⟨hlo, hhi, hmalloc⟩ := h.spans
  rw [sizeForMax] at hspans
  split_ifs at hspans with hlt
  · obtain ⟨hlo', hhi', hmalloc'⟩ := hspans
    have hcov := width_le_cover (by omega) hmalloc'
    exact int32_eq (by omega)
  · exact int32_eq (by omega)

/-- The map has room up to an offset at its end. -/
theorem makeRoomAtEnd_eq (h : s.Inv m) {offset : ℤ}
    (hspans : Spans s.mapStartOffset (sizeForMax s.mapStartOffset s.mapArraySize offset))
    (hmax : s.maxInitOffset ≤ offset + 3) :
    ∃ s' m' hi, makeRoomAtEnd s offset (offset - offset % 4 + 7) = .ok (s', hi) ∧
      Resized s s' m' s.mapStartOffset (sizeForMax s.mapStartOffset s.mapArraySize offset) ∧
      offset ≤ hi ∧ s.maxInitOffset ≤ hi ∧ hi ≤ s'.mapEndOffset ∧ (hi + 1) % 4 = 0 := by
  have hend := h.end_eq
  have hmod := h.start_mod
  have hmod' := h.size_mod
  have hkeep : Resized s s m s.mapStartOffset s.mapArraySize := ⟨h, rfl, rfl, rfl, rfl, .refl s⟩
  rw [sizeForMax] at hspans ⊢
  split_ifs at hspans ⊢ with hlt
  · obtain ⟨s', m', hrun, hs'⟩ := expandMapEndOffset_eq (offset - offset % 4 + 7) h (by
      rw [show offset - offset % 4 + 7 + 1 - s.mapStartOffset =
        offset - offset % 4 + 8 - s.mapStartOffset by ring]
      exact hspans)
    rw [show offset - offset % 4 + 7 + 1 - s.mapStartOffset =
      offset - offset % 4 + 8 - s.mapStartOffset by ring] at hs'
    have hcov := width_le_cover (by have := h.size_ge; omega) hspans.2.2
    have hend' := hs'.inv.end_eq
    rw [hs'.start_eq, hs'.size_eq] at hend'
    refine ⟨s', m', offset - offset % 4 + 7, ?_, hs', by omega, by omega, by omega, by omega⟩
    rw [makeRoomAtEnd, if_pos (by omega), if_neg (by omega), hrun, Run.ok_bind]
  · rw [makeRoomAtEnd]
    split_ifs with hroom
    · exact ⟨s, m, _, rfl, hkeep, by omega, h.max_le, le_rfl, by omega⟩
    · omega
    · exact ⟨s, m, _, rfl, hkeep, by omega, by omega, by omega, by omega⟩

/-- The words up to this offset are initialised. -/
theorem initForMaxUsage_eq (h : s.Inv m) {offset : ℤ}
    (hspans : Spans s.mapStartOffset (sizeForMax s.mapStartOffset s.mapArraySize offset))
    (hmax : s.maxInitOffset ≤ offset + 3) :
    ∃ s' m' hi, initForMaxUsage s offset = .ok s' ∧
      Grown s s' m' s.mapStartOffset (sizeForMax s.mapStartOffset s.mapArraySize offset)
        s.minInitOffset hi ∧ offset ≤ hi := by
  obtain ⟨s₁, m₁, hi, hroom, hs₁, hoff, hle, hhi, hmod⟩ := makeRoomAtEnd_eq h hspans hmax
  have hinv := hs₁.inv
  obtain ⟨hlo', hhi', hmalloc'⟩ := hinv.spans
  have hend := hinv.end_eq
  have hlen := hinv.length
  have hstart := hinv.start_le
  have hmin := hinv.min_le
  have hmax_mod := hinv.max_mod
  have hstart_eq := hs₁.start_eq
  have hmax_eq := hs₁.max_eq
  have htrips := trips_cast (a := s₁.maxInitOffset + 1 - s₁.mapStartOffset)
    (b := hi - s₁.mapStartOffset) (by omega) (by omega)
  obtain ⟨m', hm', hlen', hword⟩ := fill4_eq (m := m₁)
    (i := s₁.maxInitOffset + 1 - s₁.mapStartOffset)
    (n := trips (s₁.maxInitOffset + 1 - s₁.mapStartOffset) (hi - s₁.mapStartOffset))
    (by omega) (by omega)
  have hgrown := hinv.filled hlen' (a := s₁.maxInitOffset + 1) (b := hi)
    (fun j ↦ by rw [hword]; congr 1; simp only [eq_iff_iff]; omega) hinv.min_mod hmod
    hinv.start_le hhi (by omega) (by omega) (by omega)
  refine ⟨_, m', hi, ?_, ⟨hgrown.inv, hstart_eq, hs₁.size_eq, hs₁.min_eq, rfl,
    hs₁.ext.trans hgrown.ext⟩, hoff⟩
  rw [initForMaxUsage, int32_newMax h hspans (by have := h.start_le; have := h.min_le; omega),
    Run.ok_bind, hroom, Run.ok_bind]
  dsimp only
  rw [int32_eq (by omega), Run.ok_bind, int32_eq (by omega), Run.ok_bind, hinv.array, deref_some,
    Run.ok_bind, hm', Run.ok_bind]

/-- The size of an array of `size` words from offset `start` on after room was made for
`minUsageOffset` at its start. -/
def sizeForMin (start size minUsageOffset : ℤ) : ℤ :=
  if minUsageOffset < start then
    cover (start + size - (minUsageOffset - minUsageOffset % 4 - 4)) 31 (size * 2)
  else size

/-- The map has room from an offset at its start. -/
theorem makeRoomAtStart_eq (h : s.Inv m) {offset : ℤ}
    (hspans : Spans
      (s.mapStartOffset + s.mapArraySize - sizeForMin s.mapStartOffset s.mapArraySize offset)
      (sizeForMin s.mapStartOffset s.mapArraySize offset))
    (hmin : offset ≤ s.minInitOffset) :
    ∃ s' m' lo, makeRoomAtStart s offset (offset - offset % 4 - 4) = .ok (s', lo) ∧
      Resized s s' m'
        (s.mapStartOffset + s.mapArraySize - sizeForMin s.mapStartOffset s.mapArraySize offset)
        (sizeForMin s.mapStartOffset s.mapArraySize offset) ∧
      lo ≤ offset ∧ lo ≤ s.minInitOffset ∧ s'.mapStartOffset ≤ lo ∧ lo % 4 = 0 := by
  have hend := h.end_eq
  have hmod := h.start_mod
  have hkeep : Resized s s m (s.mapStartOffset + s.mapArraySize - s.mapArraySize) s.mapArraySize :=
    ⟨h, by omega, rfl, rfl, rfl, .refl s⟩
  rw [sizeForMin] at hspans ⊢
  split_ifs at hspans ⊢ with hlt
  · obtain ⟨s', m', hrun, hs'⟩ := expandMapStartOffset_eq h rfl hspans
    have hcov := width_le_cover (by have := h.size_ge; omega) hspans.2.2
    have hstart' := hs'.start_eq
    refine ⟨s', m', offset - offset % 4 - 4, ?_, hs', by omega, by omega, by omega, by omega⟩
    rw [makeRoomAtStart, if_pos (by omega), if_neg (by omega), hrun, Run.ok_bind]
  · rw [makeRoomAtStart]
    split_ifs with hroom
    · exact ⟨s, m, _, rfl, hkeep, by omega, h.start_le, le_rfl, by omega⟩
    · omega
    · exact ⟨s, m, _, rfl, hkeep, by omega, by omega, by omega, by omega⟩

/-- The words from this offset on are initialised. -/
theorem initForMinUsage_eq (h : s.Inv m) {offset : ℤ}
    (hspans : Spans
      (s.mapStartOffset + s.mapArraySize - sizeForMin s.mapStartOffset s.mapArraySize offset)
      (sizeForMin s.mapStartOffset s.mapArraySize offset))
    (hmin : offset ≤ s.minInitOffset) (hint : -2147483648 ≤ offset - offset % 4 - 4) :
    ∃ s' m' lo, initForMinUsage s offset = .ok s' ∧
      Grown s s' m'
        (s.mapStartOffset + s.mapArraySize - sizeForMin s.mapStartOffset s.mapArraySize offset)
        (sizeForMin s.mapStartOffset s.mapArraySize offset) lo s.maxInitOffset ∧ lo ≤ offset := by
  obtain ⟨s₁, m₁, lo, hroom, hs₁, hoff, hle, hlo, hmod⟩ := makeRoomAtStart_eq h hspans hmin
  have hinv := hs₁.inv
  obtain ⟨hlo', hhi', hmalloc'⟩ := hinv.spans
  have hend := hinv.end_eq
  have hlen := hinv.length
  have hmax := hinv.max_le
  have hmm := hinv.min_le
  have hmin_mod := hinv.min_mod
  have hmin_eq := hs₁.min_eq
  have htrips := trips_cast (a := lo - s₁.mapStartOffset)
    (b := s₁.minInitOffset - 1 - s₁.mapStartOffset) (by omega) (by omega)
  obtain ⟨m', hm', hlen', hword⟩ := fill4_eq (m := m₁) (i := lo - s₁.mapStartOffset)
    (n := trips (lo - s₁.mapStartOffset) (s₁.minInitOffset - 1 - s₁.mapStartOffset))
    (by omega) (by omega)
  have hgrown := hinv.filled (a := lo) (b := s₁.minInitOffset - 1) hlen'
    (fun j ↦ by rw [hword]; congr 1; simp only [eq_iff_iff]; omega) hmod hinv.max_mod hlo
    hinv.max_le (by omega) (by omega) (by omega)
  refine ⟨_, m', lo, ?_, ⟨hgrown.inv, hs₁.start_eq, hs₁.size_eq, rfl, hs₁.max_eq,
    hs₁.ext.trans hgrown.ext⟩, hoff⟩
  have hub : offset ≤ 2147483647 := by
    have := h.max_le
    have := h.min_le
    have := h.spans.2.1
    have := h.end_eq
    omega
  rw [initForMinUsage, int32_eq (by omega), Run.ok_bind, hroom, Run.ok_bind]
  dsimp only
  rw [int32_eq (by omega), Run.ok_bind, int32_eq (by omega), Run.ok_bind, hinv.array, deref_some,
    Run.ok_bind, hm', Run.ok_bind]

end Init

/-! ### Creating -/

/-- A map without words holds nothing. -/
theorem held_eq_empty_of_word {s : Cb} (h : ∀ o, s.word o = none) : s.held = ∅ :=
  Set.eq_empty_of_forall_notMem fun _ ⟨_, hw, _⟩ ↦ by rw [h] at hw; cases hw

/-- The map `SM_create_map` makes before it initialises it. -/
theorem inv_created {start size : ℤ} (hspans : Spans start size) (hsize : 32 ≤ size)
    (hstart_mod : start % 4 = 0) (hsize_mod : size % 4 = 0) :
    Cb.Inv ⟨some (List.replicate size.toNat none), size, start, start + size - 1, start + 4,
      start + 3⟩ (List.replicate size.toNat none) where
  array := rfl
  length := by rw [List.length_replicate, Int.toNat_of_nonneg (by omega)]
  end_eq := rfl
  spans := hspans
  size_ge := hsize
  size_mod := hsize_mod
  start_mod := hstart_mod
  min_mod := by dsimp only; omega
  max_mod := by dsimp only; omega
  start_le := by dsimp only; omega
  min_le := by dsimp only; omega
  max_le := by dsimp only; omega
  isSome_iff o := by
    rw [Cb.word_of_array rfl, Cells.word_replicate]
    simp only [Option.isSome_none, Bool.false_eq_true, false_iff]
    omega

/-- A new map covers the offsets that it is made for, and holds nothing. -/
theorem createMap_eq (minOffset maxOffset : ℤ) (hle : minOffset - minOffset % 4 ≤ maxOffset + 4)
    (hspans : Spans (minOffset - minOffset % 4 - 4)
      (cover (maxOffset + 1 - (minOffset - minOffset % 4 - 4)) 31 32)) :
    ∃ s' m', createMap minOffset maxOffset = .ok s' ∧ s'.Inv m' ∧
      s'.mapStartOffset = minOffset - minOffset % 4 - 4 ∧
      s'.minInitOffset = minOffset - minOffset % 4 ∧ maxOffset ≤ s'.maxInitOffset ∧
      s'.held = ∅ := by
  generalize hsize' : cover (maxOffset + 1 - (minOffset - minOffset % 4 - 4)) 31 32 = size at *
  generalize hstart : minOffset - minOffset % 4 - 4 = start at *
  obtain ⟨hlo, hhi, hmalloc⟩ := hspans
  have hge : 32 ≤ size := by
    rw [← hsize']
    exact le_cover _ _ (by omega)
  have hcov : maxOffset + 1 - start ≤ size := by
    rw [← hsize']
    exact width_le_cover le_rfl (by omega)
  have hmod : size % 4 = 0 := by
    rw [← hsize']
    exact cover_mod _ _ (by omega)
  have hdouble : doubleUntil (fun n ↦ do
      let next ← int32 (start + n)
      .ok (decide (maxOffset < next))) 32 32 = .ok size := by
    rw [← hsize']
    refine doubleUntil_eq (by omega) (by omega) (by omega) fun k hk hk' ↦ ?_
    rw [int32_eq (by omega), Run.ok_bind]
    exact congrArg Except.ok (decide_eq_decide.2 (by omega))
  have hinv := inv_created ⟨hlo, hhi, hmalloc⟩ hge (by omega) hmod
  have hroom : sizeForMax start size maxOffset = size := if_neg (by omega)
  obtain ⟨s', m', hi, hrun, hs', hoff⟩ := initForMaxUsage_eq hinv
    (by rw [hroom]; exact ⟨hlo, hhi, hmalloc⟩) (by dsimp only; omega)
  have hheld : s'.held = ∅ := by
    rw [hs'.ext.held_eq]
    exact held_eq_empty_of_word fun o ↦ by rw [Cb.word_of_array rfl, Cells.word_replicate]
  refine ⟨s', m', ?_, hs'.inv, hs'.start_eq, ?_, ?_, hheld⟩
  · rw [createMap, hstart, int32_eq (by omega), Run.ok_bind, hdouble, Run.ok_bind,
      mallocWords_eq hmalloc, Run.ok_bind, int32_eq (by omega), Run.ok_bind]
    dsimp only
    rw [int32_eq (by omega), Run.ok_bind, ← hrun]
    congr 2 <;> omega
  · rw [hs'.min_eq]
    dsimp only
    omega
  · rw [hs'.max_eq]
    exact hoff

end OpenImpact.Rmap
