import OpenImpact.Library.BlockSparseArray
import Mathlib.Algebra.Order.Group.Int
import Mathlib.Tactic.Ring

/-!
# Blocks

A block that starts and ends at a multiple of `BLOCK_SIZE` within the range of `int` (`Block.WF`), the
entries that a list of them holds (`valueAt`), and the range that `AllocateData` gives to a request.
-/

namespace OpenImpact.BlockSparseArray

open Foundation

variable {V : Type} {b : Block V}

/-- The greatest multiple of `BLOCK_SIZE` that is an `int`. -/
def maxEnd : ℤ := 2147483616

/-- The index after the block's last one. -/
def Block.endAt (b : Block V) : ℤ := b.firstIndex + b.length

/-- A block in use. -/
structure Block.WF (b : Block V) : Prop where
  nonneg : 0 ≤ b.firstIndex
  first_dvd : blockSize ∣ b.firstIndex
  length_dvd : blockSize ∣ b.length
  pos : 0 < b.length
  end_le : b.endAt ≤ maxEnd
  data : (b.data.length : ℤ) = b.length

/-- The arithmetic of a block. -/
theorem Block.WF.bounds (hb : b.WF) : 0 ≤ b.firstIndex ∧ b.firstIndex % 32 = 0 ∧
    b.endAt % 32 = 0 ∧ b.firstIndex + 32 ≤ b.endAt ∧ b.endAt ≤ 2147483616 := by
  have h₁ : (32 : ℤ) ∣ b.firstIndex := hb.first_dvd
  have h₂ : (32 : ℤ) ∣ b.length := hb.length_dvd
  have h₃ : b.endAt ≤ 2147483616 := hb.end_le
  have h₄ := hb.nonneg
  have h₅ := hb.pos
  rw [Block.endAt] at h₃ ⊢
  omega

theorem Block.WF.endIndex_eq (hb : b.WF) : b.endIndex = .ok b.endAt := by
  obtain ⟨h₁, -, -, h₂, h₃⟩ := hb.bounds
  exact int32_eq (show -2147483648 ≤ b.endAt ∧ b.endAt ≤ 2147483647 by omega)

/-- The block has an entry for the index. -/
def Block.Contains (b : Block V) (i : ℤ) : Prop := b.firstIndex ≤ i ∧ i < b.endAt

/-- The entry for an index. -/
def Block.read (b : Block V) (i : ℤ) : Option V :=
  if b.firstIndex ≤ i then b.data[(i - b.firstIndex).toNat]?.join else none

theorem Block.WF.read_eq_none (hb : b.WF) {i : ℤ} (h : ¬b.Contains i) : b.read i = none := by
  rw [Block.read]
  split_ifs with hi
  · have hend : b.firstIndex + b.length ≤ i := not_lt.1 fun hlt ↦ h ⟨hi, hlt⟩
    have hdata := hb.data
    rw [List.getElem?_eq_none (by omega), Option.join_none]
  · rfl

/-- A value's index is within the range of `int`. -/
theorem Block.WF.int32_index (hb : b.WF) {i : ℤ} (hi : b.read i ≠ none) : int32 i = .ok i := by
  have hcon : b.Contains i := not_not.1 fun hcon ↦ hi (hb.read_eq_none hcon)
  have hbounds := hb.bounds
  have hfirst := hcon.1
  have hend := hcon.2
  exact int32_eq (by omega)

theorem Block.WF.index (hb : b.WF) {i : ℤ} (h : b.Contains i) :
    0 ≤ i - b.firstIndex ∧ i - b.firstIndex < b.data.length := by
  have hlt : i < b.firstIndex + b.length := h.2
  rw [hb.data]
  have := h.1
  omega

/-! ### Entries of a list of blocks -/

/-- The entry for an index in the blocks of a list. -/
def valueAt (l : List (Addr × Block V)) (i : ℤ) : Option V := l.findSome? fun x ↦ x.2.read i

@[simp] theorem valueAt_nil (i : ℤ) : valueAt ([] : List (Addr × Block V)) i = none := rfl

@[simp] theorem valueAt_cons (x : Addr × Block V) (l : List (Addr × Block V)) (i : ℤ) :
    valueAt (x :: l) i = (x.2.read i).or (valueAt l i) := by
  rw [valueAt, List.findSome?_cons]
  cases x.2.read i <;> rfl

@[simp] theorem valueAt_append (l₁ l₂ : List (Addr × Block V)) (i : ℤ) :
    valueAt (l₁ ++ l₂) i = (valueAt l₁ i).or (valueAt l₂ i) := List.findSome?_append

theorem valueAt_eq_none {l : List (Addr × Block V)} {i : ℤ} (hwf : ∀ x ∈ l, x.2.WF)
    (h : ∀ x ∈ l, ¬x.2.Contains i) : valueAt l i = none :=
  List.findSome?_eq_none_iff.2 fun x hx ↦ (hwf x hx).read_eq_none (h x hx)

/-! ### Requests -/

theorem blockIndex_eq {i : ℤ} (hi : 0 ≤ i) : blockIndex i = i - i % 32 := by
  rw [blockIndex, blockSize, Int.tmod_eq_emod_of_nonneg hi]

/-- The padded length reaches to the first block boundary after the request. -/
theorem blockLength_spec {i l : ℤ} (hi : 0 ≤ i) (hl : 1 ≤ l) (h : i + l ≤ maxEnd) :
    ∃ n, blockLength i l = .ok n ∧ (blockIndex i + n) % 32 = 0 ∧ i + l ≤ blockIndex i + n ∧
      blockIndex i + n < i + l + 32 := by
  rw [maxEnd] at h
  refine ⟨32 - (i + l - 1) % 32 + l - 1 + i % 32, ?_, ?_⟩
  · rw [blockLength, int32_eq (by omega), Run.ok_bind, blockSize,
      Int.tmod_eq_emod_of_nonneg (by omega), Int.tmod_eq_emod_of_nonneg hi, int32_eq (by omega),
      Run.ok_bind, int32_eq (by omega)]
  · rw [blockIndex_eq hi]
    omega

/-- `AllocateData` gives a block of `NULL`s, from the block boundary before the request to the one
after it. -/
theorem allocateData_spec (b : Block V) {i l : ℤ} (hi : 0 ≤ i) (hl : 1 ≤ l) (h : i + l ≤ maxEnd) :
    ∃ b', allocateData b i l = .ok b' ∧ b'.WF ∧ b'.firstIndex = blockIndex i ∧ i + l ≤ b'.endAt ∧
      b'.endAt < i + l + 32 ∧ ∀ j, b'.read j = none := by
  obtain ⟨n, hn, hmod, hle, hlt⟩ := blockLength_spec hi hl h
  have hidx := blockIndex_eq hi
  rw [maxEnd] at h
  have hrun : allocateData b i l = .ok { b with
      firstIndex := blockIndex i, length := n, data := List.replicate n.toNat none } := by
    rw [allocateData, hn, Run.ok_bind, Run.pure_eq_ok]
  refine ⟨_, hrun, ⟨?_, ?_, ?_, ?_, ?_, ?_⟩, rfl, hle, hlt, fun j ↦ ?_⟩
  · show 0 ≤ blockIndex i
    omega
  · show (32 : ℤ) ∣ blockIndex i
    omega
  · show (32 : ℤ) ∣ n
    omega
  · show 0 < n
    omega
  · show blockIndex i + n ≤ 2147483616
    omega
  · show ((List.replicate n.toNat (none : Option V)).length : ℤ) = n
    rw [List.length_replicate]
    omega
  · rw [Block.read]
    split_ifs
    · rw [List.getElem?_replicate]
      split_ifs <;> rfl
    · rfl

end OpenImpact.BlockSparseArray
