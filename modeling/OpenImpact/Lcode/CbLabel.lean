import Mathlib.Data.Int.Notation
import Mathlib.Data.List.TakeWhile

/-!
# The names of control blocks

`M_cb_label_name` and `M_is_cb_label` of the machines: a label is a prefix, the id in decimal and the name
of the function, which `sprintf` writes and `sscanf` reads with the same format. The prefix is `cb`, and
`Lcb` for the SPARC.

A name is read back as its function and id (`isCbLabel_cbLabelName`) if the function's name is one word that
does not begin with a digit, since `%d` reads all digits there are and `%s` stops at a blank. Ids are integers
of any size, and the arrays of 512 characters are taken to be long enough.
-/

namespace OpenImpact.HashTbl

/-- `isspace`. -/
def isspace (c : Char) : Bool :=
  c.toNat = 32 || 9 ≤ c.toNat && c.toNat ≤ 13

/-- `%d` of `sprintf`. -/
def printInt (i : ℤ) : List Char :=
  if i < 0 then '-' :: Nat.toDigits 10 i.natAbs else Nat.toDigits 10 i.natAbs

/-- The number that the digits in front make, and what is behind them. -/
def scanDigits (l : List Char) : Option (ℕ × List Char) :=
  if l.takeWhile Char.isDigit = [] then none
  else some (Nat.ofDigitChars 10 (l.takeWhile Char.isDigit) 0, l.dropWhile Char.isDigit)

/-- `%d` of `sscanf`. -/
def scanInt (l : List Char) : Option (ℤ × List Char) :=
  let l := l.dropWhile isspace
  if l.head? = some '-' then (scanDigits l.tail).map fun p ↦ (-p.1, p.2)
  else if l.head? = some '+' then (scanDigits l.tail).map fun p ↦ (p.1, p.2)
  else (scanDigits l).map fun p ↦ (p.1, p.2)

/-- `%s` of `sscanf`. -/
def scanWord (l : List Char) : Option (List Char) :=
  let word := (l.dropWhile isspace).takeWhile fun c ↦ !isspace c
  if word = [] then none else some word

/-- `M_cb_label_name`, of a machine with a prefix. -/
def cbLabelName (labelPrefix fn : List Char) (cb : ℤ) : List Char :=
  labelPrefix ++ (printInt cb ++ fn)

/-- `M_is_cb_label`: the name of the function and the id of the block. -/
def isCbLabel (labelPrefix label : List Char) : Option (List Char × ℤ) :=
  if labelPrefix.isPrefixOf label then do
    let p ← scanInt (label.drop labelPrefix.length)
    let fn ← scanWord p.2
    some (fn, p.1)
  else none

/-- The name of a function: one word that does not begin with a digit. -/
structure IsFnName (fn : List Char) : Prop where
  ne_nil : fn ≠ []
  not_isspace : ∀ c ∈ fn, isspace c = false
  not_isDigit : ∀ c, fn.head? = some c → c.isDigit = false

variable {fn : List Char}

theorem isspace_of_isDigit {c : Char} (h : c.isDigit = true) : isspace c = false := by
  obtain ⟨hlo, hhi⟩ : 48 ≤ c.val ∧ c.val ≤ 57 := by simpa [Char.isDigit] using h
  have hlo : 48 ≤ c.toNat := hlo
  have hhi : c.toNat ≤ 57 := hhi
  simp only [isspace, Bool.or_eq_false_iff, Bool.and_eq_false_iff, decide_eq_false_iff_not]
  omega

theorem scanDigits_toDigits (h : IsFnName fn) (n : ℕ) :
    scanDigits (Nat.toDigits 10 n ++ fn) = some (n, fn) := by
  have hdigits : ∀ c ∈ Nat.toDigits 10 n, c.isDigit = true := fun c hc ↦
    Nat.isDigit_of_mem_toDigits (by decide) (by decide) hc
  obtain ⟨c, cs, rfl⟩ := List.exists_cons_of_ne_nil h.ne_nil
  have hc : c.isDigit = false := h.not_isDigit c rfl
  have htake : (Nat.toDigits 10 n ++ c :: cs).takeWhile Char.isDigit = Nat.toDigits 10 n := by
    rw [List.takeWhile_append_of_pos hdigits, List.takeWhile_cons_of_neg (by simp [hc]), List.append_nil]
  have hdrop : (Nat.toDigits 10 n ++ c :: cs).dropWhile Char.isDigit = c :: cs := by
    rw [List.dropWhile_append_of_pos hdigits, List.dropWhile_cons_of_neg (by simp [hc])]
  rw [scanDigits, htake, hdrop, if_neg Nat.toDigits_ne_nil,
    Nat.ofDigitChars_toDigits (by decide) (by decide)]

/-- `%d` reads back what it has written in front of a name. -/
theorem scanInt_printInt (h : IsFnName fn) (i : ℤ) : scanInt (printInt i ++ fn) = some (i, fn) := by
  rw [printInt]
  split_ifs with hi
  · have hdrop : ('-' :: Nat.toDigits 10 i.natAbs ++ fn).dropWhile isspace =
        '-' :: (Nat.toDigits 10 i.natAbs ++ fn) := List.dropWhile_cons_of_neg (by decide)
    rw [scanInt, hdrop, List.head?_cons, if_pos rfl, List.tail_cons, scanDigits_toDigits h,
      Option.map_some]
    congr 2
    omega
  · obtain ⟨d, ds, hds⟩ := List.exists_cons_of_ne_nil (Nat.toDigits_ne_nil (n := i.natAbs) (b := 10))
    have hd : d.isDigit = true :=
      Nat.isDigit_of_mem_toDigits (by decide) (by decide) (hds ▸ List.mem_cons_self)
    have hdrop : (Nat.toDigits 10 i.natAbs ++ fn).dropWhile isspace = Nat.toDigits 10 i.natAbs ++ fn := by
      rw [hds, List.cons_append, List.dropWhile_cons_of_neg (by simp [isspace_of_isDigit hd])]
    have hhead : (Nat.toDigits 10 i.natAbs ++ fn).head? = some d := by rw [hds]; rfl
    have hminus : ¬some d = some '-' := by
      rintro heq
      rw [Option.some.inj heq] at hd
      exact absurd hd (by decide)
    have hplus : ¬some d = some '+' := by
      rintro heq
      rw [Option.some.inj heq] at hd
      exact absurd hd (by decide)
    rw [scanInt, hdrop, hhead, if_neg hminus, if_neg hplus, scanDigits_toDigits h, Option.map_some]
    congr 2
    omega

theorem scanWord_fn (h : IsFnName fn) : scanWord fn = some fn := by
  obtain ⟨c, cs, rfl⟩ := List.exists_cons_of_ne_nil h.ne_nil
  have hdrop : (c :: cs).dropWhile isspace = c :: cs :=
    List.dropWhile_cons_of_neg (by simp [h.not_isspace c List.mem_cons_self])
  have htake : (c :: cs).takeWhile (fun c ↦ !isspace c) = c :: cs :=
    List.takeWhile_eq_self_iff.2 fun x hx ↦ by simp [h.not_isspace x hx]
  rw [scanWord, hdrop, htake, if_neg (List.cons_ne_nil _ _)]

/-- **A name is read back** as the function and the id that it was made of. -/
theorem isCbLabel_cbLabelName (labelPrefix : List Char) (h : IsFnName fn) (cb : ℤ) :
    isCbLabel labelPrefix (cbLabelName labelPrefix fn cb) = some (fn, cb) := by
  have hdrop : (cbLabelName labelPrefix fn cb).drop labelPrefix.length = printInt cb ++ fn :=
    List.drop_left
  rw [isCbLabel, if_pos (by simp [cbLabelName]), hdrop, scanInt_printInt h]
  show (scanWord fn).bind _ = _
  rw [scanWord_fn h]
  rfl

end OpenImpact.HashTbl
