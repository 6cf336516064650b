import Mathlib.Data.BitVec
import Mathlib.Tactic.Linarith

/-!
# Division by a power of two with shifts and masks

An arithmetic shift rounds toward negative infinity, and division toward zero. To a negative dividend
`2^k - 1` is added first, which is its sign mask and `2^k - 1`.
-/

namespace OpenImpact.Foundation

/-- Rounding up, in terms of rounding down. -/
theorem tdiv_eq_ediv_of_neg {b n : ℤ} (hb : b < 0) (hn : 0 < n) : b.tdiv n = (b + (n - 1)) / n := by
  have hneg : b.tdiv n = -(-b / n) := by
    rw [← Int.tdiv_eq_ediv_of_nonneg (by omega : 0 ≤ -b), Int.neg_tdiv, neg_neg]
  have hmul := Int.mul_ediv_add_emod (-b) n
  have hlo := Int.emod_nonneg (-b) hn.ne'
  have hhi := Int.emod_lt_of_pos (-b) hn
  rw [hneg]
  symm
  refine Int.ediv_eq_iff_of_pos hn |>.2 ⟨?_, ?_⟩
  · linarith
  · linarith

variable {w : ℕ}

/-- The lower part of a number. -/
theorem toInt_setWidth_bmod {v : ℕ} (x : BitVec w) (hv : v ≤ w) :
    (x.setWidth v).toInt = x.toInt.bmod (2 ^ v) := by
  rw [BitVec.toInt_setWidth, BitVec.toInt_eq_toNat_bmod]
  exact (Int.bmod_bmod_of_dvd (Nat.pow_dvd_pow 2 hv)).symm

/-- The sign mask of a number, cut down to `x`. -/
theorem sshiftRight_and (b x : BitVec w) :
    b.sshiftRight (w - 1) &&& x = if b.toInt < 0 then x else 0 := by
  ext i hi
  have hsign : (b.sshiftRight (w - 1))[i] = b.msb := by
    rw [BitVec.getElem_sshiftRight]
    split_ifs with h
    · obtain rfl : i = 0 := by omega
      rw [BitVec.msb_eq_getLsbD_last, ← BitVec.getLsbD_eq_getElem h, Nat.add_zero]
    · rfl
  rw [BitVec.getElem_and, hsign, BitVec.msb_eq_toInt]
  split_ifs with h <;> simp [h]

/-- What is added to round toward zero. -/
def roundUp (b : BitVec w) (k : ℕ) : BitVec w :=
  b + if b.toInt < 0 then BitVec.ofNat w (2 ^ k - 1) else 0

theorem toInt_roundUp (b : BitVec w) {k : ℕ} (hk : k + 1 < w) :
    (roundUp b k).toInt = b.toInt + if b.toInt < 0 then 2 ^ k - 1 else 0 := by
  have hlo := b.le_toInt
  have hpow : (2 : ℤ) ^ k * 2 ≤ 2 ^ (w - 1) := by
    rw [← pow_succ]
    exact pow_le_pow_right₀ (by decide) (by omega)
  have hw : (2 : ℤ) ^ (w - 1) * 2 = 2 ^ w := by rw [← pow_succ, Nat.sub_add_cancel (by omega)]
  have hpos : (0 : ℤ) < 2 ^ k := by positivity
  rw [roundUp]
  split_ifs with h
  · have hmask : (BitVec.ofNat w (2 ^ k - 1)).toInt = 2 ^ k - 1 := by
      rw [BitVec.toInt_ofNat', Nat.cast_sub Nat.one_le_two_pow]
      push_cast
      exact Int.bmod_eq_of_le_mul_two (by push_cast; omega) (by push_cast; omega)
    rw [BitVec.toInt_add, hmask]
    exact Int.bmod_eq_of_le_mul_two (by push_cast; omega) (by push_cast; omega)
  · rw [add_zero, add_zero]

/-- **A signed division** is a shift of the rounded dividend. -/
theorem toInt_sshiftRight_roundUp (b : BitVec w) {k : ℕ} (hk : k + 1 < w) :
    ((roundUp b k).sshiftRight k).toInt = b.toInt.tdiv (2 ^ k) := by
  have hpos : (0 : ℤ) < 2 ^ k := by positivity
  rw [BitVec.toInt_sshiftRight, toInt_roundUp b hk, Int.shiftRight_eq_div_pow]
  push_cast
  split_ifs with h
  · rw [tdiv_eq_ediv_of_neg h hpos]
  · rw [Int.tdiv_eq_ediv_of_nonneg (not_lt.1 h), add_zero]

theorem ofInt_sub (x y : ℤ) : BitVec.ofInt w (x - y) = BitVec.ofInt w x - BitVec.ofInt w y := by
  rw [eq_sub_iff_add_eq, ← BitVec.ofInt_add, sub_add_cancel]

theorem and_not (x y : BitVec w) : x &&& ~~~y = x - (x &&& y) := by
  have hdisjoint : (x &&& ~~~y) &&& (x &&& y) = 0#w := by
    ext i hi
    cases h : y[i] <;> simp [h]
  have hor : (x &&& ~~~y) ||| (x &&& y) = x := by
    ext i hi
    cases h : y[i] <;> simp [h]
  rw [eq_sub_iff_add_eq, BitVec.add_eq_or_of_and_eq_zero _ _ hdisjoint, hor]

/-- A mask for a multiple of a power of two, rounded down. -/
theorem and_neg_two_pow (x : BitVec w) {k : ℕ} (hk : k < w) :
    x &&& -BitVec.ofNat w (2 ^ k) = BitVec.ofInt w (x.toInt - x.toInt % 2 ^ k) := by
  have hpow : 2 ^ k < 2 ^ w := Nat.pow_lt_pow_right (by decide) hk
  have hmask : x &&& (BitVec.ofNat w (2 ^ k) - 1#w) = BitVec.ofInt w (x.toInt % 2 ^ k) := by
    have hmod : x.toInt % 2 ^ k = (x.toNat % 2 ^ k : ℕ) := by
      rw [BitVec.toInt_eq_toNat_bmod, ← Int.emod_emod_of_dvd _ (pow_dvd_pow (2 : ℤ) hk.le)]
      have hw : ((2 : ℤ) ^ w) = ((2 ^ w : ℕ) : ℤ) := by push_cast; rfl
      rw [hw, Int.bmod_emod, ← hw, Int.emod_emod_of_dvd _ (pow_dvd_pow (2 : ℤ) hk.le)]
      push_cast
      rfl
    have hone : BitVec.ofNat w (2 ^ k) - 1#w = BitVec.ofNat w (2 ^ k - 1) := by
      rw [sub_eq_iff_eq_add, ← BitVec.ofNat_add, Nat.sub_add_cancel Nat.one_le_two_pow]
    have hlt : 2 ^ k - 1 < 2 ^ w := by omega
    rw [hmod, hone, BitVec.ofInt_natCast]
    refine BitVec.eq_of_toNat_eq ?_
    rw [BitVec.toNat_and, BitVec.toNat_ofNat, BitVec.toNat_ofNat, Nat.mod_eq_of_lt hlt,
      Nat.and_two_pow_sub_one_eq_mod,
      Nat.mod_eq_of_lt ((Nat.mod_le x.toNat (2 ^ k)).trans_lt x.isLt)]
  have hneg : -BitVec.ofNat w (2 ^ k) = ~~~(BitVec.ofNat w (2 ^ k) - 1#w) := by
    rw [← BitVec.not_neg, BitVec.not_not]
  rw [hneg, and_not, hmask, ofInt_sub, BitVec.ofInt_toInt]

/-- **A signed remainder** is what is left of the dividend without the multiple. -/
theorem sub_roundUp_and (b : BitVec w) {k : ℕ} (hk : k + 1 < w) :
    b - (roundUp b k &&& -BitVec.ofNat w (2 ^ k)) = BitVec.ofInt w (b.toInt.tmod (2 ^ k)) := by
  rw [and_neg_two_pow _ (by omega)]
  have hdiv := toInt_sshiftRight_roundUp b hk
  rw [BitVec.toInt_sshiftRight, Int.shiftRight_eq_div_pow] at hdiv
  push_cast at hdiv
  have hx := Int.mul_ediv_add_emod (roundUp b k).toInt (2 ^ k)
  have hb := Int.mul_tdiv_add_tmod b.toInt (2 ^ k)
  have htmod : b.toInt.tmod (2 ^ k) =
      b.toInt - ((roundUp b k).toInt - (roundUp b k).toInt % 2 ^ k) := by
    rw [hdiv] at hx
    linarith
  rw [htmod, ofInt_sub b.toInt, BitVec.ofInt_toInt]

end OpenImpact.Foundation
