import OpenImpact.Library.MdSymbol
import OpenImpact.Library.SymbolTableCorrect

/-!
# The size of a symbol table

`hash_size` is doubled as an `int`, so a table can be made larger only while it has fewer than `2^30` chains.
`Sized` bounds the size of a table that has not had to be made larger than that (`roomFor_spec`), and only
additions change it (`SameSize`).
-/

namespace OpenImpact.MdSymbol

open Foundation SymbolTable Libmd

variable {t : Table Entry} {name : Name}

/-- So many symbols a table can have when one is added, by the expected size that it was made with. -/
def limit (expectedSize : ℤ) : ℕ := if expectedSize ≤ 536870912 then 805306368 else 1610612736

/-- A table as it comes from one with the expected size: it can be doubled while it has at most `2^29`
chains, and is three quarters full at most. -/
structure Sized (expectedSize : ℤ) (t : Table Entry) : Prop where
  size : ∃ k, 5 ≤ k ∧ t.hashSize = 2 ^ k ∧ t.resizeSize = 3 * 2 ^ (k - 2) ∧
    (if expectedSize ≤ 536870912 then k ≤ 30 else k = 31)
  count : t.symbolCount ≤ t.resizeSize

/-- The table after a step that leaves the array as it is. -/
structure SameSize (t t' : Table Entry) : Prop where
  hashSize : t'.hashSize = t.hashSize
  resizeSize : t'.resizeSize = t.resizeSize

theorem SameSize.trans {t₁ t₂ t₃ : Table Entry} (h : SameSize t₁ t₂) (h' : SameSize t₂ t₃) :
    SameSize t₁ t₃ :=
  ⟨h'.hashSize.trans h.hashSize, h'.resizeSize.trans h.resizeSize⟩

theorem Sized.congr {expectedSize : ℤ} {t' : Table Entry} (h : Sized expectedSize t) (hs : SameSize t t')
    (hcount : t'.symbolCount ≤ t.symbolCount) : Sized expectedSize t' where
  size := by
    rw [hs.hashSize, hs.resizeSize]
    exact h.size
  count := by
    rw [hs.resizeSize]
    exact hcount.trans h.count

theorem sameSize_newSymbol {t' : Table Entry} {e : Entry} {a : Addr}
    (h : newSymbol t e = .ok (t', a)) : SameSize t t' := by
  obtain ⟨t₁, happend, h⟩ := Run.bind_eq_ok.1 h
  obtain ⟨symbols, -, happend⟩ := Run.bind_eq_ok.1 happend
  obtain rfl := Except.ok.inj happend
  obtain ⟨rfl, -⟩ := Prod.mk.inj (Except.ok.inj h)
  exact ⟨rfl, rfl⟩

theorem sameSize_enterHash {t' : Table Entry} {msg : String} {a : Addr}
    (h : enterHash msg t a name = .ok t') : SameSize t t' := by
  obtain ⟨hashHead, -, h⟩ := Run.bind_eq_ok.1 h
  obtain ⟨r, -, h⟩ := Run.bind_eq_ok.1 h
  cases r with
  | some b => cases h
  | none =>
    obtain ⟨p, -, h⟩ := Run.bind_eq_ok.1 h
    obtain rfl := Except.ok.inj h
    exact ⟨rfl, rfl⟩

theorem sameSize_renameSymbol {t' : Table Entry} {a : Addr} (h : renameSymbol t a name = .ok t') :
    SameSize t t' := by
  obtain ⟨s, -, h⟩ := Run.bind_eq_ok.1 h
  obtain ⟨p, -, h⟩ := Run.bind_eq_ok.1 h
  obtain ⟨symbols, -, h⟩ := Run.bind_eq_ok.1 h
  exact ⟨(sameSize_enterHash h).hashSize, (sameSize_enterHash h).resizeSize⟩

theorem sameSize_deleteSymbol {t' : Table Entry} {a : Addr} (h : deleteSymbol t a = .ok t') :
    SameSize t t' := by
  obtain ⟨s, -, h⟩ := Run.bind_eq_ok.1 h
  obtain ⟨p, -, h⟩ := Run.bind_eq_ok.1 h
  obtain ⟨t₁, hunlink, h⟩ := Run.bind_eq_ok.1 h
  obtain rfl := Except.ok.inj h
  obtain ⟨s', -, hunlink⟩ := Run.bind_eq_ok.1 hunlink
  obtain ⟨symbols, -, hunlink⟩ := Run.bind_eq_ok.1 hunlink
  obtain ⟨symbols', -, hunlink⟩ := Run.bind_eq_ok.1 hunlink
  obtain rfl := Except.ok.inj hunlink
  exact ⟨rfl, rfl⟩

theorem resizeSize_pow {k : ℕ} (hk : 5 ≤ k) : 2 ^ k - 2 ^ k >>> 2 = 3 * 2 ^ (k - 2) := by
  obtain ⟨n, rfl⟩ := Nat.exists_eq_add_of_le hk
  rw [Nat.shiftRight_eq_div_pow, show 5 + n = (3 + n) + 2 by omega, pow_add, Nat.mul_div_cancel _ (by decide),
    Nat.add_sub_cancel]
  omega

/-- **`MD_new_symbol_table`.** -/
theorem sized_newSymbolTable {expectedSize : ℤ} (h : newSymbolTable expectedSize = .ok t) :
    Sized expectedSize t := by
  rw [newSymbolTable, newTable] at h
  generalize hsize : (if expectedSize < 0 then 0 else expectedSize) = size at h
  split_ifs at h with hbig
  obtain ⟨k, hk, hk5, hmin, hleast⟩ :=
    @doubleUntil_spec (size * 2).toNat 31 5 (by omega)
  obtain ⟨n, hn, h⟩ := Run.bind_eq_ok.1 h
  obtain rfl : 2 ^ k = n := Except.ok.inj (hk.symm.trans hn)
  obtain rfl := Except.ok.inj h
  refine ⟨⟨k, hk5, rfl, resizeSize_pow hk5, ?_⟩, Nat.zero_le _⟩
  split_ifs with hle
  · -- at most `2^30` chains are asked for
    by_contra hgt
    have hpow : 2 ^ 30 ≤ 2 ^ (k - 1) := Nat.pow_le_pow_right (by decide) (by omega)
    have hlt := hleast (by omega)
    split_ifs at hsize <;> omega
  · -- more than `2^30`, and fewer than `2^31`
    have hge : 30 < k := by
      by_contra hlt
      have hpow : 2 ^ k ≤ 2 ^ 30 := Nat.pow_le_pow_right (by decide) (by omega)
      split_ifs at hsize <;> omega
    by_contra hne
    have hpow : 2 ^ 31 ≤ 2 ^ (k - 1) := Nat.pow_le_pow_right (by decide) (by omega)
    have hlt := hleast (by omega)
    omega

/-- The size as an `int`, of a table that can still be doubled. -/
theorem hashSizeInt_eq {k : ℕ} (hk : k ≤ 30) (h : t.hashSize = 2 ^ k) : hashSizeInt t = 2 ^ k := by
  have hlt : 2 ^ k < 2 ^ 31 := Nat.pow_lt_pow_right Nat.one_lt_two (by omega)
  have hnat : (BitVec.ofNat 32 (2 ^ k)).toNat = 2 ^ k := by
    rw [BitVec.toNat_ofNat, Nat.mod_eq_of_lt (by omega)]
  rw [hashSizeInt, h, BitVec.toInt_eq_toNat_of_lt (by omega), hnat]
  exact Int.natCast_pow 2 k

theorem limit_le (expectedSize : ℤ) : limit expectedSize ≤ 1610612736 := by
  rw [limit]
  split_ifs <;> omega

/-- **`MD_resize_symbol_table`**, for a table that is three quarters full. -/
theorem resizeSymbolTable_spec {expectedSize : ℤ} {live : List (Addr × Entry)}
    (ht : Represents Entry.hashVal t live) (hs : Sized expectedSize t) (hfull : t.symbolCount = t.resizeSize)
    (hlt : t.symbolCount < limit expectedSize) :
    ∃ t', resizeSymbolTable t = .ok t' ∧ Represents Entry.hashVal t' live ∧
      Sized expectedSize t' ∧ t'.symbolCount < t'.resizeSize := by
  obtain ⟨k, hk5, hsize, hresize, hk⟩ := hs.size
  obtain ⟨t', hrun, hl', hcount'⟩ := resizeTable_spec ht.toLinked
  obtain ⟨hsize', hresize'⟩ := resizeTable_sizes hrun
  have hk29 : k ≤ 29 ∧ expectedSize ≤ 536870912 := by
    rw [hfull, hresize, limit] at hlt
    split_ifs at hlt hk with hle
    · refine ⟨?_, hle⟩
      by_contra hgt
      obtain rfl : k = 30 := by omega
      exact absurd hlt (by decide)
    · rw [hk] at hlt
      exact absurd hlt (by decide)
  have hint : int32 (hashSizeInt t * 2) = .ok (2 ^ k * 2) := by
    have hpow : (2 : ℤ) ^ k ≤ 2 ^ 29 := pow_le_pow_right₀ (by decide) hk29.1
    have hpos : (0 : ℤ) < 2 ^ k := pow_pos (by decide) k
    rw [hashSizeInt_eq (by omega) hsize]
    exact int32_eq (by omega)
  have hmul : t.hashSize * 2 = 2 ^ (k + 1) := by rw [hsize, pow_succ]
  rw [hmul] at hsize' hresize'
  rw [resizeSize_pow (by omega)] at hresize'
  refine ⟨t', ?_, ⟨hl', hcount'.trans ht.count⟩, ⟨⟨k + 1, by omega, hsize', hresize', ?_⟩, ?_⟩, ?_⟩
  · rw [resizeSymbolTable, hint, Run.ok_bind, hrun]
  · rw [if_pos hk29.2]
    omega
  all_goals
    have hdouble : 2 ^ (k + 1 - 2) = 2 ^ (k - 2) * 2 := by
      rw [show k + 1 - 2 = (k - 2) + 1 by omega, pow_succ]
    have hpos : 0 < 2 ^ (k - 2) := Nat.two_pow_pos (k - 2)
    rw [hcount', hfull, hresize, hresize', hdouble]
    omega

/-- **A full table is doubled** before a symbol is added. -/
theorem roomFor_spec {expectedSize : ℤ} {live : List (Addr × Entry)} (ht : Represents Entry.hashVal t live)
    (hs : Sized expectedSize t) (hlt : t.symbolCount < limit expectedSize) :
    ∃ t', (if t.symbolCount ≥ t.resizeSize then resizeSymbolTable t else .ok t) = .ok t' ∧
      Represents Entry.hashVal t' live ∧ Sized expectedSize t' ∧ t'.symbolCount < t'.resizeSize := by
  split_ifs with hfull
  · exact resizeSymbolTable_spec ht hs (le_antisymm hs.count hfull) hlt
  · exact ⟨t, rfl, ht, hs, not_le.1 hfull⟩

/-- **A full table of the largest size** cannot be doubled: `hash_size * 2` is no `int`. -/
theorem roomFor_overflow {expectedSize : ℤ} (hs : Sized expectedSize t)
    (hge : limit expectedSize ≤ t.symbolCount) :
    (if t.symbolCount ≥ t.resizeSize then resizeSymbolTable t else .ok t) = .error .overflow := by
  obtain ⟨k, -, hsize, hresize, hk⟩ := hs.size
  have hcount := hs.count
  rw [hresize] at hcount
  obtain ⟨hfull, hout⟩ : t.resizeSize ≤ limit expectedSize ∧
      ¬(-2147483648 ≤ hashSizeInt t * 2 ∧ hashSizeInt t * 2 ≤ 2147483647) := by
    rw [limit] at hge ⊢
    split_ifs at hk hge ⊢ with hle
    · -- `2^30` chains
      obtain rfl : k = 30 := by
        by_contra hne
        have hpow : 2 ^ (k - 2) ≤ 2 ^ 27 := Nat.pow_le_pow_right (by decide) (by omega)
        omega
      refine ⟨hresize.le, ?_⟩
      rw [hashSizeInt_eq le_rfl hsize]
      decide
    · -- `2^31` chains, and as an `int` this is negative
      subst hk
      refine ⟨hresize.le, ?_⟩
      rw [hashSizeInt, hsize]
      decide
  rw [if_pos (hfull.trans hge), resizeSymbolTable, int32, if_neg hout]
  rfl

end OpenImpact.MdSymbol
