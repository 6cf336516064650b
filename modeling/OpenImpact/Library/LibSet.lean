import OpenImpact.Library.CExpr
import Mathlib.Data.Int.Notation
import Mathlib.Logic.Function.Basic
import Mathlib.Algebra.GroupWithZero.Nat

/-!
# Sets of integers as bit vectors

`libset` keeps the elements that are not negative in one array of 256-bit vectors and the magnitudes of
the negative ones in another. Each array has a length of its own, a vector is allocated with its first
element, and the array for the negative ones with the first of these.

An access outside an array is `Halt.fault` here, and so is a copy into an array that is too short. The
functions that work in place return the new value of their first set; where it matters that two arguments
are the same object, the call says so (`ThirdSet`).
-/

namespace OpenImpact

namespace LibSet

/-- The index `b` of the two arrays. -/
inductive Sign where
  | nonneg
  | neg
  deriving DecidableEq

/-- `Set_Vector`. -/
abbrev SetVector := Fin 8 → BitVec 32

/-- The vectors of a set for one sign, `NULL` where there is none. -/
abbrev VArray := List (Option SetVector)

/-- `_Set`: its arrays, each of which may be `NULL`. -/
@[ext]
structure VSet where
  varray : Sign → Option VArray

/-- `max_base`, the length of an array. -/
def maxBase (a : Option VArray) : ℕ := (a.getD []).length

/-- The vector at `i`, or `NULL` where there is no array, `i` is not below its length, or the entry is
`NULL`. -/
def vectorAt (a : Option VArray) (i : ℕ) : Option SetVector := (a.getD [])[i]?.join

/-- `varray[i]`. -/
def load (a : Option VArray) (i : ℕ) : Run (Option SetVector) :=
  match (a.getD [])[i]? with
  | some v => return v
  | none => .error .fault

/-- `varray[i] = v`. -/
def store (a : Option VArray) (i : ℕ) (v : Option SetVector) : Run (Option VArray) :=
  if i < maxBase a then return some ((a.getD []).set i v) else .error .fault

/-! ### Vectors -/

/-- `NewVArray`. -/
def newVArray (size : ℕ) : VArray := List.replicate size none

/-- `EnlargeVArray`, which copies all entries of the old array. -/
def enlargeVArray (size : ℤ) (a : Option VArray) : Run (Option VArray) :=
  let newSize := ((size / 8 + 1) * 8).toNat
  if maxBase a ≤ newSize then return some (a.getD [] ++ newVArray (newSize - maxBase a))
  else .error .fault

/-- Room for the entry `i`. -/
def grow (a : Option VArray) (i : ℕ) : Run (Option VArray) :=
  if maxBase a ≤ i then enlargeVArray i a else return a

/-- `NewVector`. -/
def newVector : SetVector := fun _ ↦ 0

/-- `all`, by which the loops tell that a vector has an element. -/
def all (t : SetVector) : BitVec 32 :=
  ((t 0 ||| t 1) ||| (t 2 ||| t 3)) ||| ((t 4 ||| t 5) ||| (t 6 ||| t 7))

/-- `t0 || … || t7`. -/
def anyWord (t : SetVector) : Bool :=
  t 0 != 0 || t 1 != 0 || t 2 != 0 || t 3 != 0 || t 4 != 0 || t 5 != 0 || t 6 != 0 || t 7 != 0

def vectorAnd (v₁ v₂ : SetVector) : SetVector := fun w ↦ v₁ w &&& v₂ w

def vectorOr (v₁ v₂ : SetVector) : SetVector := fun w ↦ v₁ w ||| v₂ w

def vectorMinus (v₁ v₂ : SetVector) : SetVector := fun w ↦ v₁ w &&& ~~~v₂ w

/-- What a difference has of `v₁`, where the second set may have no vector. -/
def vectorMinus? (v₁ : SetVector) : Option SetVector → SetVector
  | none => v₁
  | some v₂ => vectorMinus v₁ v₂

/-! ### Elements -/

/-- `SIGN`. -/
def sign (element : ℤ) : Sign := if 0 ≤ element then .nonneg else .neg

/-- `ABS`, which the smallest `int` does not have. -/
def abs (element : ℤ) : Run ℕ :=
  if element.natAbs < 2147483648 then return element.natAbs else .error .overflow

/-- `Set_BASE`. -/
def base (m : ℕ) : ℕ := m / 256

/-- `Set_WORD_SELECT` of `Set_INDEX`. -/
def wordSelect (m : ℕ) : Fin 8 := ⟨m % 256 / 32, by omega⟩

/-- `Set_BIT_SELECT` of `Set_INDEX`. -/
def bitSelect (m : ℕ) : ℕ := m % 256 % 32

/-- `ReadBit`. -/
def readBit (v : SetVector) (m : ℕ) : Bool := v (wordSelect m) &&& 1#32 <<< bitSelect m != 0

/-- `SetBit`. -/
def setBit (v : SetVector) (m : ℕ) : SetVector :=
  Function.update v (wordSelect m) (v (wordSelect m) ||| 1#32 <<< bitSelect m)

/-- `ClearBit`. -/
def clearBit (v : SetVector) (m : ℕ) : SetVector :=
  Function.update v (wordSelect m) (v (wordSelect m) &&& ~~~(1#32 <<< bitSelect m))

/-! ### Sets -/

/-- `NewSet`. -/
def newSet : VSet where
  varray
    | .nonneg => some (newVArray 8)
    | .neg => none

/-- `set->varray[b]`, for a loop over the entries of a set that may be `NULL`. -/
def arrayOf (set : Option VSet) (b : Sign) : Option VArray := set.bind (·.varray b)

/-- `for (b = 0; b < 2; b++)`, where each array is made on its own. -/
def forSigns (f : Sign → Run (Option VArray)) : Run (Option VSet) := do
  let a ← f .nonneg
  let a' ← f .neg
  return some ⟨fun b ↦ match b with | .nonneg => a | .neg => a'⟩

/-- `Set_in`. -/
def setIn (set : Option VSet) (element : ℤ) : Run Bool :=
  match set with
  | none => return false
  | some set => do
    let m ← abs element
    match vectorAt (set.varray (sign element)) (base m) with
    | none => return false
    | some v => return readBit v m

/-- `Set_add`. -/
def add (set : Option VSet) (element : ℤ) : Run (Option VSet) := do
  let set := set.getD newSet
  let b := sign element
  let m ← abs element
  let a ← grow (set.varray b) (base m)
  let v ← load a (base m)
  let a ← store a (base m) (some (setBit (v.getD newVector) m))
  return some ⟨Function.update set.varray b a⟩

/-- `Set_delete`. -/
def delete (set : Option VSet) (element : ℤ) : Run (Option VSet) :=
  match set with
  | none => return none
  | some set => do
    let b := sign element
    let m ← abs element
    match vectorAt (set.varray b) (base m) with
    | none => return some set
    | some v => do
      let a ← store (set.varray b) (base m) (some (clearBit v m))
      return some ⟨Function.update set.varray b a⟩

/-- The loop that copies the vectors of `f` to `t`. -/
def copyVectors (f t : Option VArray) : Run (Option VArray) :=
  (List.range (maxBase f)).foldlM (fun t i ↦
    match vectorAt f i with
    | none => return t
    | some fv => store t i (some fv)) t

/-- The loop that adds the vectors of `f` to `t`. -/
def orVectors (f t : Option VArray) : Run (Option VArray) :=
  (List.range (maxBase f)).foldlM (fun t i ↦
    match vectorAt f i with
    | none => return t
    | some fv => do
      let tv ← load t i
      store t i (some (vectorOr (tv.getD newVector) fv))) t

/-- `Set_copy`. -/
def copy (set : Option VSet) : Run (Option VSet) :=
  match set with
  | none => return none
  | some set => forSigns fun b ↦
    match set.varray b with
    | none => return newSet.varray b
    | some f => do
      let t ← enlargeVArray (maxBase (some f) - 1) (newSet.varray b)
      copyVectors (some f) t

/-- A new set's array with room for `max` entries. -/
def reserve (b : Sign) (max : ℕ) : Run (Option VArray) :=
  match b with
  | .nonneg => if 8 < max then enlargeVArray (max - 1) (newSet.varray b) else return newSet.varray b
  | .neg => if 0 < max then enlargeVArray (max - 1) (newSet.varray b) else return newSet.varray b

/-- `Set_union`. -/
def union (set₁ set₂ : Option VSet) : Run (Option VSet) :=
  forSigns fun b ↦ do
    let t ← reserve b (max (maxBase (arrayOf set₁ b)) (maxBase (arrayOf set₂ b)))
    let t ← copyVectors (arrayOf set₁ b) t
    orVectors (arrayOf set₂ b) t

/-- `Set_union_acc`. -/
def unionAcc (set₁ set₂ : Option VSet) : Run (Option VSet) :=
  forSigns fun b ↦
    (List.range (maxBase (arrayOf set₂ b))).reverse.foldlM (fun t i ↦
      match vectorAt (arrayOf set₂ b) i with
      | none => return t
      | some fv =>
        if anyWord fv then do
          let t ← grow t i
          match ← load t i with
          | none => store t i (some fv)
          | some tv => store t i (some (vectorOr tv fv))
        else return t) ((set₁.getD newSet).varray b)

/-- One word has a bit that the other lacks. -/
def gains (tv fv : SetVector) : Bool :=
  ~~~tv 0 &&& fv 0 != 0 || ~~~tv 1 &&& fv 1 != 0 || ~~~tv 2 &&& fv 2 != 0 || ~~~tv 3 &&& fv 3 != 0 ||
    ~~~tv 4 &&& fv 4 != 0 || ~~~tv 5 &&& fv 5 != 0 || ~~~tv 6 &&& fv 6 != 0 || ~~~tv 7 &&& fv 7 != 0

/-- The body of the loop of `Set_union_acc_ch`, with `*change`. -/
def unionAccChEntry (f : Option VArray) (st : Option VArray × Bool) (i : ℕ) : Run (Option VArray × Bool) :=
  match vectorAt f i with
  | none => return st
  | some fv =>
    if all fv ≠ 0 then do
      let t ← grow st.1 i
      match ← load t i with
      | none => do
        let t ← store t i (some fv)
        return (t, true)
      | some tv => do
        let t ← store t i (some (vectorOr tv fv))
        return (t, if st.2 = false then gains tv fv else st.2)
    else return st

/-- The loop for one sign. -/
def unionAccChVectors (f : Option VArray) (st : Option VArray × Bool) : Run (Option VArray × Bool) :=
  (List.range (maxBase f)).foldlM (unionAccChEntry f) st

/-- `Set_union_acc_ch`. -/
def unionAccCh (set₁ set₂ : Option VSet) : Run (Option VSet × Bool) := do
  let set := set₁.getD newSet
  let (a, change) ← unionAccChVectors (arrayOf set₂ .nonneg) (set.varray .nonneg, false)
  let (a', change) ← unionAccChVectors (arrayOf set₂ .neg) (set.varray .neg, change)
  return (some ⟨fun b ↦ match b with | .nonneg => a | .neg => a'⟩, change)

/-- `if (all)`: a vector with elements goes to the new set's array. -/
def keep (t : Option VArray) (i : ℕ) (v : SetVector) : Run (Option VArray) :=
  if all v ≠ 0 then do
    let t ← grow t i
    store t i (some v)
  else return t

/-- `Set_intersect`. -/
def intersect (set₁ set₂ : Option VSet) : Run (Option VSet) :=
  match set₁, set₂ with
  | some set₁, some set₂ => forSigns fun b ↦
    match set₁.varray b, set₂.varray b with
    | some varray₁, some varray₂ =>
      (List.range (maxBase (some varray₁))).foldlM (fun t i ↦
        match vectorAt (some varray₁) i, vectorAt (some varray₂) i with
        | some v₁, some v₂ => keep t i (vectorAnd v₁ v₂)
        | _, _ => return t) (newSet.varray b)
    | _, _ => return newSet.varray b
  | _, _ => return none

/-- `Set_dispose`. -/
def dispose (_set : Option VSet) : Run (Option VSet) := return none

/-- `Set_intersect_acc`. -/
def intersectAcc (set₁ set₂ : Option VSet) : Run (Option VSet) :=
  match set₁, set₂ with
  | none, _ => return none
  | some set₁, none => dispose (some set₁)
  | some set₁, some set₂ => forSigns fun b ↦
    match set₁.varray b, set₂.varray b with
    | some varray₁, some varray₂ =>
      (List.range (maxBase (some varray₁))).foldlM (fun a i ↦
        match vectorAt a i with
        | none => return a
        | some v₁ =>
          match vectorAt (some varray₂) i with
          | none => store a i none
          | some v₂ =>
            if all (vectorAnd v₁ v₂) ≠ 0 then store a i (some (vectorAnd v₁ v₂))
            else store a i none) (some varray₁)
    | varray₁, _ => return varray₁

/-- `Set_intersect_empty`. -/
def intersectEmpty (set₁ set₂ : Option VSet) : Bool :=
  [Sign.nonneg, Sign.neg].all fun b ↦
    (List.range (maxBase (arrayOf set₁ b))).all fun i ↦
      match vectorAt (arrayOf set₁ b) i, vectorAt (arrayOf set₂ b) i with
      | some v₁, some v₂ => all (vectorAnd v₁ v₂) == 0
      | _, _ => true

/-- `Set_subtract`. -/
def subtract (set₁ set₂ : Option VSet) : Run (Option VSet) :=
  match set₁, set₂ with
  | none, _ => return none
  | some set₁, none => union (some set₁) none
  | some set₁, some set₂ => forSigns fun b ↦
    (List.range (maxBase (set₁.varray b))).foldlM (fun t i ↦
      match vectorAt (set₁.varray b) i with
      | none => return t
      | some v₁ => keep t i (vectorMinus? v₁ (vectorAt (set₂.varray b) i))) (newSet.varray b)

/-- The loop that takes the vectors of `f` from those of `a`. -/
def minusVectors (f a : Option VArray) : Run (Option VArray) :=
  (List.range (maxBase a)).foldlM (fun a i ↦
    match vectorAt a i, vectorAt f i with
    | some v₁, some v₂ => store a i (some (vectorMinus v₁ v₂))
    | _, _ => return a) a

/-- `Set_subtract_acc`. -/
def subtractAcc (set₁ set₂ : Option VSet) : Run (Option VSet) :=
  match set₁, set₂ with
  | none, _ => return none
  | some set₁, none => return some set₁
  | some set₁, some set₂ => forSigns fun b ↦ minusVectors (set₂.varray b) (set₁.varray b)

/-- `Set_empty`. -/
def empty (set : Option VSet) : Bool :=
  [Sign.nonneg, Sign.neg].all fun b ↦
    (List.range (maxBase (arrayOf set b))).all fun i ↦
      match vectorAt (arrayOf set b) i with
      | none => true
      | some v => !anyWord v

/-- `Set_subtract_empty`. -/
def subtractEmpty (set₁ set₂ : Option VSet) : Bool :=
  match set₁, set₂ with
  | none, _ => true
  | some set₁, none => empty (some set₁)
  | some set₁, some set₂ => [Sign.nonneg, Sign.neg].all fun b ↦
    (List.range (maxBase (set₁.varray b))).all fun i ↦
      match vectorAt (set₁.varray b) i with
      | none => true
      | some v₁ => all (vectorMinus? v₁ (vectorAt (set₂.varray b) i)) == 0

/-- The loop of `Set_subtract_union` that copies the difference to `t`. -/
def copyMinus (a f t : Option VArray) : Run (Option VArray) :=
  (List.range (maxBase a)).foldlM (fun t i ↦
    match vectorAt a i with
    | none => return t
    | some v₁ =>
      if all (vectorMinus? v₁ (vectorAt f i)) ≠ 0 then store t i (some (vectorMinus? v₁ (vectorAt f i)))
      else return t) t

/-- `Set_subtract_union`. -/
def subtractUnion (set₁ set₂ set₃ : Option VSet) : Run (Option VSet) :=
  match set₁, set₃, set₂ with
  | none, _, _ => union set₃ none
  | some set₁, none, _ => subtract (some set₁) set₂
  | some set₁, some set₃, none => union (some set₁) (some set₃)
  | some set₁, some set₃, some set₂ => forSigns fun b ↦ do
    let t ← reserve b (max (maxBase (set₁.varray b)) (maxBase (set₃.varray b)))
    let t ← copyMinus (set₁.varray b) (set₂.varray b) t
    orVectors (set₃.varray b) t

/-- `set1`'s array with room for the entries of `set3`'s. -/
def makeRoom (a : Option VArray) (max : ℕ) : Run (Option VArray) :=
  if maxBase a < max then enlargeVArray (max - 1) a else return a

/-- The third argument of `Set_subtract_union_acc`, which may be the first one itself. -/
inductive ThirdSet where
  | other (set₃ : Option VSet)
  | first

/-- What it is when the function is called. -/
def ThirdSet.set (set₁ : Option VSet) : ThirdSet → Option VSet
  | other set₃ => set₃
  | first => set₁

/-- `varray3`, where `a` is `varray1` as it is now. -/
def ThirdSet.varray (set₃ : VSet) (b : Sign) (a : Option VArray) : ThirdSet → Option VArray
  | other _ => set₃.varray b
  | first => a

/-- `Set_subtract_union_acc`. The difference is made in place before the vectors of `set3` are read. -/
def subtractUnionAcc (set₁ set₂ : Option VSet) (third : ThirdSet) : Run (Option VSet) :=
  match set₁, third.set set₁, set₂ with
  | none, set₃, _ => union set₃ none
  | some set₁, none, _ => subtractAcc (some set₁) set₂
  | some set₁, some set₃, none => unionAcc (some set₁) (some set₃)
  | some set₁, some set₃, some set₂ => forSigns fun b ↦ do
    let a ← makeRoom (set₁.varray b) (maxBase (set₃.varray b))
    let a ← minusVectors (set₂.varray b) a
    orVectors (third.varray set₃ b a) a

/-- `Set_compress`. -/
def compress (set : Option VSet) : Run (Option VSet) :=
  match set with
  | none => return none
  | some set => forSigns fun b ↦
    match set.varray b with
    | none => return newSet.varray b
    | some varray₁ => do
      let t ← enlargeVArray (maxBase (some varray₁) - 1) (newSet.varray b)
      (List.range (maxBase (some varray₁))).foldlM (fun t i ↦
        match vectorAt (some varray₁) i with
        | none => return t
        | some v₁ => if all v₁ ≠ 0 then store t i (some v₁) else return t) t

/-- One pass of `Set_same`: the vectors of `f` are those of `g`, and none is only in `f`. -/
def sameVectors (f g : Option VArray) : Bool :=
  (List.range (maxBase f)).all fun i ↦
    match vectorAt f i, vectorAt g i with
    | none, _ => true
    | some v₁, none => all v₁ == 0
    | some v₁, some v₂ => all (fun w ↦ if v₁ w ≠ v₂ w then 1 else 0) == 0

/-- `Set_same`. -/
def same (set₁ set₂ : Option VSet) : Bool :=
  match set₁, set₂ with
  | none, none => true
  | none, some set₂ => empty (some set₂)
  | some set₁, none => empty (some set₁)
  | some set₁, some set₂ =>
    ([Sign.nonneg, Sign.neg].all fun b ↦ sameVectors (set₁.varray b) (set₂.varray b)) &&
      [Sign.nonneg, Sign.neg].all fun b ↦ sameVectors (set₂.varray b) (set₁.varray b)

/-- `b1 += ((vc[0] & mask) != 0)`, and the same for the other words and their counts. -/
def addBit (vc : SetVector) (j : ℕ) (counts : Fin 8 → ℤ) (w : Fin 8) : Run (Fin 8 → ℤ) := do
  let n ← int32 (counts w + (vc w &&& 1#32 <<< j != 0).toNat)
  return Function.update counts w n

/-- What a vector adds to the counts. -/
def countVector (vc : SetVector) (counts : Fin 8 → ℤ) : Run (Fin 8 → ℤ) :=
  (List.range 32).foldlM (fun counts j ↦ (List.finRange 8).foldlM (addBit vc j) counts) counts

/-- The loops of `Set_size`, which leave the counts `b1` to `b8`. -/
def countWords (set : VSet) : Run (Fin 8 → ℤ) :=
  [Sign.nonneg, Sign.neg].foldlM (fun counts b ↦
    (List.range (maxBase (set.varray b))).foldlM (fun counts i ↦
      match vectorAt (set.varray b) i with
      | none => return counts
      | some vc => countVector vc counts) counts) fun _ ↦ 0

/-- `Set_size`. -/
def size (set : Option VSet) : Run ℤ :=
  match set with
  | none => return 0
  | some set => do
    let b ← countWords set
    let b₁₂ ← int32 (b 0 + b 1)
    let b₃₄ ← int32 (b 2 + b 3)
    let first ← int32 (b₁₂ + b₃₄)
    let b₅₆ ← int32 (b 4 + b 5)
    let b₇₈ ← int32 (b 6 + b 7)
    let second ← int32 (b₅₆ + b₇₈)
    int32 (first + second)

end LibSet

end OpenImpact
