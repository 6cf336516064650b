import OpenImpact.Library.CExpr
import OpenImpact.Foundation.Reservation
import Mathlib.Order.BooleanAlgebra.Set

/-!
# Resource maps

The core of `sm_rmap.c` and `sm_modulo_rmap.c`: one option is chosen for every choice of a
reservation table by testing the words of the resource map, and the chosen options are committed to
the map or released from it. The two files differ in where a usage's word is in the map, which is a
parameter `addr` of the walks here.
-/

namespace OpenImpact.Rmap

/-! ### Reservation tables -/

/-- `SM_Usage`. -/
structure Usage where
  resourcesUsed : BitVec 32
  mapOffset : ℕ
  deriving DecidableEq, Repr

/-- `SM_Option`: the usages between `first_usage` and `last_usage`. -/
structure SMOption where
  usages : List Usage
  ne_nil : usages ≠ []

/-- `SM_Choice`: the options between `first_option` and `last_option`. -/
structure SMChoice where
  options : List SMOption
  ne_nil : options ≠ []

/-- `SM_Table`, as `SM_build_tables` makes it: the slot choice is one of the choices and each of its
options has a slot, and no usage is past `max_usage_offset`, an `unsigned short`. -/
structure SMTable where
  choices : List SMChoice
  slotChoice : ℕ
  slotOptions : List ℕ
  maxUsageOffset : ℕ
  exists_slotChoice : ∃ c, choices[slotChoice]? = some c ∧ slotOptions.length = c.options.length
  mapOffset_le : ∀ c ∈ choices, ∀ o ∈ c.options, ∀ u ∈ o.usages, u.mapOffset ≤ maxUsageOffset
  maxUsageOffset_lt : maxUsageOffset < 65536

/-! ### The words of the map -/

/-- An allocated `unsigned int` array. A word is `none` until it is first stored. -/
abbrev Cells := List (Option (BitVec 32))

namespace Cells

/-- The word at index `i`, if there is one and it was stored. -/
def word (m : Cells) (i : ℤ) : Option (BitVec 32) :=
  if 0 ≤ i then (m[i.toNat]?).join else none

def load (m : Cells) (i : ℤ) : Run (BitVec 32) :=
  deref (m.word i)

def store (m : Cells) (i : ℤ) (w : BitVec 32) : Run Cells :=
  if 0 ≤ i ∧ i < m.length then .ok (m.set i.toNat (some w)) else .error .fault

theorem word_eq_none {m : Cells} {i : ℤ} (h : ¬(0 ≤ i ∧ i < m.length)) : m.word i = none := by
  rw [word]
  split_ifs with hi
  · rw [List.getElem?_eq_none (by omega), Option.join_none]
  · rfl

/-- A stored word changes its own index only. -/
theorem store_eq {m : Cells} {i : ℤ} (w : BitVec 32) (hi : 0 ≤ i ∧ i < m.length) :
    ∃ m', m.store i w = .ok m' ∧ m'.length = m.length ∧
      ∀ j, m'.word j = if j = i then some w else m.word j := by
  refine ⟨_, if_pos hi, List.length_set, fun j ↦ ?_⟩
  simp only [word, List.getElem?_set]
  by_cases hj : j = i
  · subst hj
    simp [hi.1, show j.toNat < m.length by omega]
  · by_cases hj0 : 0 ≤ j
    · simp [hj, hj0, show i.toNat ≠ j.toNat by omega]
    · simp [hj, hj0]

theorem word_replicate (n : ℕ) (i : ℤ) : Cells.word (List.replicate n none) i = none := by
  rw [word]
  split_ifs
  · rw [List.getElem?_replicate]
    split_ifs <;> rfl
  · rfl

/-- The resources in use: pairs of an index and a bit set in its word. -/
def bits (m : Cells) : Set (ℤ × ℕ) :=
  {p | ∃ w, m.word p.1 = some w ∧ w.getLsbD p.2 = true}

end Cells

/-- The resources one usage takes: bits of its mask, in the word at its address. -/
def Usage.bits (addr : ℕ → ℤ) (u : Usage) : Set (ℤ × ℕ) :=
  {p | p.1 = addr u.mapOffset ∧ u.resourcesUsed.getLsbD p.2 = true}

/-! ### Choosing options -/

/-- The innermost loop: whether `usage_ptr` is not `NULL` after it. -/
def usagesAvail (m : Cells) (addr : ℕ → ℤ) : List Usage → Run Bool
  | [] => .ok true
  | u :: us => do
    let contents ← m.load (addr u.mapOffset)
    if contents &&& u.resourcesUsed ≠ 0 then .ok false else usagesAvail m addr us

/-- The option loop of one choice. The result is `option_id` and `slot`, and `none` where the
function returns -1. `slots` is what is left at `slot_options_ptr`. -/
def chooseOption (m : Cells) (addr : ℕ → ℤ) (minSlot maxSlot : ℕ) (isSlotChoice : Bool) :
    ℕ → ℕ → List ℕ → List SMOption → Run (Option (ℕ × ℕ))
  | _, _, _, [] => .ok none
  | optionId, slot, slots, o :: os => do
    let avail ← usagesAvail m addr o.usages
    if isSlotChoice then
      if avail then do
        let slot ← deref slots.head?
        if slot < minSlot ∨ slot > maxSlot then
          chooseOption m addr minSlot maxSlot isSlotChoice ((optionId + 1) % 65536) slot slots.tail
            os
        else
          .ok (some (optionId, slot))
      else
        chooseOption m addr minSlot maxSlot isSlotChoice ((optionId + 1) % 65536) slot slots.tail os
    else
      if avail then
        .ok (some (optionId, slot))
      else
        chooseOption m addr minSlot maxSlot isSlotChoice ((optionId + 1) % 65536) slot slots os

/-- The choice loop, from choice `k` on. The result is the slot and `choices_made`. -/
def chooseChoices (m : Cells) (addr : ℕ → ℤ) (t : SMTable) (minSlot maxSlot : ℕ) :
    ℕ → ℕ → List SMChoice → Run (Option (ℕ × List ℕ))
  | _, slot, [] => .ok (some (slot, []))
  | k, slot, c :: cs => do
    match ← chooseOption m addr minSlot maxSlot (k == t.slotChoice) 0 slot t.slotOptions
      c.options with
    | none => .ok none
    | some (optionId, slot) =>
      match ← chooseChoices m addr t minSlot maxSlot (k + 1) slot cs with
      | none => .ok none
      | some (slot, ids) => .ok (some (slot, optionId :: ids))

/-! ### Committing and releasing options -/

/-- Replacing the word of each usage in turn. -/
def walkUsages (f : BitVec 32 → BitVec 32 → Run (BitVec 32)) (addr : ℕ → ℤ) :
    List Usage → Cells → Run Cells
  | [], m => .ok m
  | u :: us, m => do
    let contents ← m.load (addr u.mapOffset)
    let contents ← f contents u.resourcesUsed
    let m ← m.store (addr u.mapOffset) contents
    walkUsages f addr us m

/-- Replacing the words of the chosen option of each choice in turn. -/
def walkChoices (f : BitVec 32 → BitVec 32 → Run (BitVec 32)) (addr : ℕ → ℤ) :
    List SMChoice → List ℕ → Cells → Run Cells
  | [], _, m => .ok m
  | c :: cs, ids, m => do
    let optionId ← deref ids.head?
    let o ← deref c.options[optionId]?
    let m ← walkUsages f addr o.usages m
    walkChoices f addr cs ids.tail m

/-- What the commit loops do to a word. -/
def commitWord (contents used : BitVec 32) : Run (BitVec 32) :=
  .ok (contents ||| used)

/-- What the release loops do to a word. -/
def releaseWord (contents used : BitVec 32) : Run (BitVec 32) :=
  if contents &&& used ≠ used then .error (.punt "SM_release_choices: Resources already free!")
  else .ok (contents ^^^ used)

/-! ### What the walks are about -/

/-- The usages of the options `ids` chooses. -/
def picked : List SMChoice → List ℕ → List Usage
  | c :: cs, i :: ids => (c.options[i]?.elim [] SMOption.usages) ++ picked cs ids
  | _, _ => []

/-- `ids` chooses an option of each choice. -/
def Selects : List SMChoice → List ℕ → Prop
  | [], ids => ids = []
  | c :: cs, ids => ∃ i is, ids = i :: is ∧ i < c.options.length ∧ Selects cs is

end OpenImpact.Rmap
