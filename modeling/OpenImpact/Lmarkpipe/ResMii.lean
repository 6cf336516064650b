import OpenImpact.Lcode.Rmap
import Mathlib.Data.List.MinMax
import Mathlib.Data.Finset.Lattice.Fold
import Mathlib.Data.Fin.VecNotation
import Mathlib.Data.Fintype.Basic
import Mathlib.Data.Nat.Cast.Order.Ring
import Mathlib.Order.Lattice.Nat

/-!
# The resource bound on the initiation interval

`l_mii.c` counts how often each resource is used by the operations of a loop body. Every operation is
added with one of its alternatives, which should be one that leaves the lowest maximum. The maximum of
an alternative starts from the maximum of the alternatives before it, so the first alternative is always
taken (`updateUsageCount_eq_ok`).

The main result is `isLowest_updateUsageCount_iff`. The counts are of type `int`, so the function also
fails where a resource is used once more than an `int` can say; nothing is claimed about the vector of an
operation without alternatives, for which the source copies an array that is not initialised.
-/

namespace OpenImpact.Lmarkpipe

open Rmap

/-- The sizes in the machine description: `num_resources`, which `lmdes` and `sm_mdes` both have, and
`map_width`. -/
structure ResMdes where
  numResources : ℕ
  mapWidth : ℕ

/-- The usage count of every resource. The counts are `int`s (`IsInts`). -/
abbrev RuCount (mdes : ResMdes) := Fin mdes.numResources → ℕ

/-- The choices of `alt->table`, between `first_choice` and `last_choice`. -/
abbrev Alt := List SMChoice

/-- `MAX_RESOURCES_PER_OPTION`. -/
def maxResourcesPerOption : ℕ := 256

/-! ### The source's functions -/

/-- The loop of `RU_build_resource_array` over the bits of one mask. -/
def buildBits (maxResources mapOffset : ℕ) : ℕ → BitVec 32 → List ℕ → Run (List ℕ)
  | 0, _, entries => .ok entries
  | counter + 1, res, entries =>
    if res &&& 1 = 1 then
      let entries := entries ++ [32 - (counter + 1) + 32 * mapOffset]
      if entries.length ≥ maxResources then
        .error (.punt "RU_build_resource_array: max resources per option exceeded")
      else buildBits maxResources mapOffset counter (res >>> 1) entries
    else buildBits maxResources mapOffset counter (res >>> 1) entries

/-- `RU_build_resource_array`. -/
def buildResourceArray (mdes : ResMdes) (option : SMOption) (maxResources : ℕ) : Run (List ℕ) :=
  option.usages.foldlM (fun entries usage ↦
    buildBits maxResources (usage.mapOffset % mdes.mapWidth) 32 usage.resourcesUsed entries) []

section Functions

variable {mdes : ResMdes}

/-- The body of the loop that looks for the highest usage of an option's resources. -/
def maxResCount (current : RuCount mdes) (optionMaxResCount : ℤ) (resource : ℕ) : Run ℤ :=
  if h : resource < mdes.numResources then
    pure (if optionMaxResCount < current ⟨resource, h⟩ then (current ⟨resource, h⟩ : ℤ)
      else optionMaxResCount)
  else .error (.punt ("RU_update_usage_count (1): " ++
    "Attempting to access resource %d which is larger than num resources %d."))

/-- The body of the loop over the options of a choice, on `best_option` and
`choice_max_res_count`. -/
def chooseBest (current : RuCount mdes) (st : Option SMOption × ℤ) (option : SMOption) :
    Run (Option SMOption × ℤ) := do
  let resources ← buildResourceArray mdes option maxResourcesPerOption
  let optionMaxResCount ← resources.foldlM (maxResCount current) (-1)
  pure (if st.2 = -1 ∨ optionMaxResCount < st.2 then (some option, optionMaxResCount) else st)

/-- `current_ru_count[resource]++`. -/
def commitResource (current : RuCount mdes) (resource : ℕ) : Run (RuCount mdes) :=
  if h : resource < mdes.numResources then do
    let count ← int32 (current ⟨resource, h⟩ + 1)
    pure (Function.update current ⟨resource, h⟩ count.toNat)
  else .error (.punt ("RU_update_usage_count (2): " ++
    "Attempting to access resource %d which is larger than num resources %d."))

/-- The body of the loop over the choices of an alternative. -/
def commitChoice (current : RuCount mdes) (choice : SMChoice) : Run (RuCount mdes) := do
  let (bestOption, _) ← choice.options.foldlM (chooseBest current) (none, -1)
  let bestOption ← deref bestOption
  let resources ← buildResourceArray mdes bestOption maxResourcesPerOption
  resources.foldlM commitResource current

/-- The variables that live through the loop over the alternatives. -/
structure AltSearch (mdes : ResMdes) where
  altMaxResCount : ℤ
  maxResCount : ℤ
  minRuCount : Option (RuCount mdes)

/-- The body of the loop over the alternatives. -/
def chooseAlt (ruCount : RuCount mdes) (st : AltSearch mdes) (alt : Alt) : Run (AltSearch mdes) := do
  let current ← alt.foldlM commitChoice ruCount
  let altMaxResCount := (List.finRange mdes.numResources).foldl
    (fun m index ↦ if m = -1 ∨ (current index : ℤ) > m then (current index : ℤ) else m)
    st.altMaxResCount
  if st.maxResCount = -1 ∨ altMaxResCount < st.maxResCount then
    pure ⟨altMaxResCount, altMaxResCount, some current⟩
  else pure { st with altMaxResCount := altMaxResCount }

/-- `RU_update_usage_count`, for an operation with the alternatives `alts`. -/
def updateUsageCount (alts : List Alt) (ruCount : RuCount mdes) : Run (RuCount mdes) := do
  let st ← alts.foldlM (chooseAlt ruCount) ⟨-1, -1, none⟩
  deref st.minRuCount

end Functions

/-! ### The selection that is meant -/

/-- The resources of an option: the places of the bits of its masks, without the time component. -/
def resources (mdes : ResMdes) (option : SMOption) : List ℕ :=
  option.usages.flatMap fun usage ↦ ((List.range 32).filter usage.resourcesUsed.getLsbD).map
    (· + 32 * (usage.mapOffset % mdes.mapWidth))

section Selection

variable {mdes : ResMdes}

/-- How often a resource is used. -/
def countAt (current : RuCount mdes) (resource : ℕ) : ℕ :=
  if h : resource < mdes.numResources then current ⟨resource, h⟩ else 0

/-- The highest usage of a resource of the option. -/
def optionUsage (current : RuCount mdes) (option : SMOption) : ℕ :=
  (resources mdes option).toFinset.sup (countAt current)

/-- A choice is made: its first option with the lowest maximum is added. -/
def takeChoice (current : RuCount mdes) (choice : SMChoice) : RuCount mdes :=
  match choice.options.argmin (optionUsage current) with
  | some option => fun index ↦ current index + (resources mdes option).count (index : ℕ)
  | none => current

/-- What an alternative makes of a usage vector. -/
def altUsage (ruCount : RuCount mdes) (alt : Alt) : RuCount mdes :=
  alt.foldl takeChoice ruCount

/-- The highest usage of a resource. -/
def maxUsage (ruCount : RuCount mdes) : ℕ := Finset.univ.sup ruCount

/-- The counts are in the range of `int`. -/
def IsInts (ruCount : RuCount mdes) : Prop := ∀ index, ruCount index ≤ 2147483647

/-- What the selection should return: the vector of an alternative with the lowest maximum. -/
def IsLowest (alts : List Alt) (ruCount : RuCount mdes) (r : Run (RuCount mdes)) : Prop :=
  ∃ alt ∈ alts, r = .ok (altUsage ruCount alt) ∧
    ∀ alt' ∈ alts, maxUsage (altUsage ruCount alt) ≤ maxUsage (altUsage ruCount alt')

end Selection

/-- The resources of an option exist and are fewer than `MAX_RESOURCES_PER_OPTION`. -/
def Fits (mdes : ResMdes) (option : SMOption) : Prop :=
  (resources mdes option).length < maxResourcesPerOption ∧
    ∀ r ∈ resources mdes option, r < mdes.numResources

/-- The options of an alternative have it so, and the counts that it leads to are `int`s. -/
structure AltFits {mdes : ResMdes} (ruCount : RuCount mdes) (alt : Alt) : Prop where
  options : ∀ choice ∈ alt, ∀ option ∈ choice.options, Fits mdes option
  ints : IsInts (altUsage ruCount alt)

/-- Every usage is of a resource, as the structure of a machine description requires. -/
def UsesResources (alts : List Alt) : Prop :=
  ∀ alt ∈ alts, ∀ choice ∈ alt, ∀ option ∈ choice.options, ∀ usage ∈ option.usages,
    usage.resourcesUsed ≠ 0

/-! ### The resources of an option -/

section BuildResourceArray

/-- The low bit is tested with a mask. -/
theorem and_one_eq_one {w : BitVec 32} : w &&& 1 = 1 ↔ w.getLsbD 0 = true := by
  rw [BitVec.getLsbD, Nat.testBit_zero, decide_eq_true_iff, ← BitVec.toNat_inj, BitVec.toNat_and]
  exact (Nat.and_one_is_mod w.toNat).congr_left

/-- The bits of a mask that are still to be looked at. -/
def bitsFrom (mapOffset counter : ℕ) (res : BitVec 32) : List ℕ :=
  ((List.range counter).filter res.getLsbD).map fun b ↦ 32 - counter + b + 32 * mapOffset

/-- The bits of a word, one shift at a time. -/
theorem bitsFrom_succ {mapOffset counter : ℕ} (hcounter : counter + 1 ≤ 32) (res : BitVec 32) :
    bitsFrom mapOffset (counter + 1) res =
      (if res.getLsbD 0 = true then [32 - (counter + 1) + 32 * mapOffset] else []) ++
        bitsFrom mapOffset counter (res >>> 1) := by
  have hshift : (fun b ↦ (res >>> 1).getLsbD b) = fun b ↦ res.getLsbD (b + 1) := by
    funext b
    rw [BitVec.getLsbD_ushiftRight, Nat.add_comm]
  have hrest : bitsFrom mapOffset counter (res >>> 1) =
      (((List.range counter).map Nat.succ).filter res.getLsbD).map
        fun b ↦ 32 - (counter + 1) + b + 32 * mapOffset := by
    rw [bitsFrom, List.filter_map, List.map_map]
    refine congrArg₂ List.map (funext fun b ↦ ?_) (congrArg (List.filter · _) hshift)
    simp only [Function.comp_apply]
    omega
  rw [hrest, bitsFrom, List.range_succ_eq_map, List.filter_cons]
  split_ifs <;> simp

/-- The inner loop appends the bits of a word, or punts when the array is full. -/
theorem buildBits_eq {maxResources mapOffset counter : ℕ} (hcounter : counter ≤ 32) (res : BitVec 32)
    {entries : List ℕ} (hentries : entries.length < maxResources) :
    buildBits maxResources mapOffset counter res entries =
      if (entries ++ bitsFrom mapOffset counter res).length < maxResources then
        .ok (entries ++ bitsFrom mapOffset counter res)
      else .error (.punt "RU_build_resource_array: max resources per option exceeded") := by
  induction counter generalizing res entries with
  | zero => simp [buildBits, bitsFrom, hentries]
  | succ counter ih =>
    have ih' := fun {entries} ↦ @ih (by omega) (res >>> 1) entries
    rw [bitsFrom_succ hcounter, buildBits]
    simp only [and_one_eq_one, ge_iff_le]
    cases hbit : res.getLsbD 0 with
    | false => simpa using ih' hentries
    | true =>
      simp only [if_true]
      split_ifs with hfull hfits hfits
      · -- the array is full, so the rest cannot fit
        rw [← List.append_assoc, List.length_append] at hfits
        omega
      · rfl
      · rw [ih' (by omega), List.append_assoc, if_pos hfits]
      · rw [ih' (by omega), List.append_assoc, if_neg hfits]

/-- The bits of a word of the map, as numbers of resources. -/
theorem bitsFrom_eq (mapOffset : ℕ) (res : BitVec 32) :
    bitsFrom mapOffset 32 res =
      ((List.range 32).filter res.getLsbD).map (· + 32 * mapOffset) :=
  List.map_congr_left fun b _ ↦ by rw [Nat.sub_self, Nat.zero_add]

/-- The array holds the resources of the option if there is room for them, and the end mark. -/
theorem buildResourceArray_eq (mdes : ResMdes) (option : SMOption) {maxResources : ℕ}
    (hmax : 0 < maxResources) :
    buildResourceArray mdes option maxResources =
      if (resources mdes option).length < maxResources then .ok (resources mdes option)
      else .error (.punt "RU_build_resource_array: max resources per option exceeded") := by
  suffices h : ∀ (usages : List Usage) (entries : List ℕ), entries.length < maxResources →
      usages.foldlM (fun entries usage ↦ buildBits maxResources (usage.mapOffset % mdes.mapWidth) 32
        usage.resourcesUsed entries) entries =
      if (entries ++ usages.flatMap fun usage ↦
          bitsFrom (usage.mapOffset % mdes.mapWidth) 32 usage.resourcesUsed).length < maxResources then
        .ok (entries ++ usages.flatMap fun usage ↦
          bitsFrom (usage.mapOffset % mdes.mapWidth) 32 usage.resourcesUsed)
      else .error (.punt "RU_build_resource_array: max resources per option exceeded") by
    have hall := h option.usages [] hmax
    simp only [bitsFrom_eq, List.nil_append] at hall
    exact hall
  intro usages
  induction usages with
  | nil => intro entries hentries; simp [hentries]
  | cons usage usages ih =>
    intro entries hentries
    rw [List.foldlM_cons, buildBits_eq le_rfl _ hentries, List.flatMap_cons, ← List.append_assoc]
    split_ifs with hfits hall hall
    · rw [Run.ok_bind, ih _ hfits, if_pos hall]
    · rw [Run.ok_bind, ih _ hfits, if_neg hall]
    · rw [List.length_append] at hall
      omega
    · rfl

end BuildResourceArray

/-! ### The selection within one alternative -/

section Alternative

variable {mdes : ResMdes} {current ruCount : RuCount mdes} {option : SMOption} {choice : SMChoice}
  {alt : Alt}

/-- The loop over the resources of an option finds the highest count, and faults at a number out of
range. -/
theorem foldlM_maxResCount_eq_ok {m m' : ℤ} {l : List ℕ} :
    l.foldlM (maxResCount current) m = .ok m' ↔ (∀ r ∈ l, r < mdes.numResources) ∧
      m' = if l = [] then m else max m (l.toFinset.sup (countAt current) : ℕ) := by
  induction l generalizing m with
  | nil => simp [eq_comm]
  | cons r l ih =>
    rw [List.foldlM_cons, maxResCount, List.forall_mem_cons]
    rcases lt_or_ge r mdes.numResources with hr | hr
    · have hcount : countAt current r = current ⟨r, hr⟩ := dif_pos hr
      have hmax : (if m < (current ⟨r, hr⟩ : ℤ) then (current ⟨r, hr⟩ : ℤ) else m) =
          max m (countAt current r) := by
        rw [hcount]
        split_ifs <;> omega
      rw [dif_pos hr, hmax, Run.pure_eq_ok, Run.ok_bind, ih, and_iff_right hr, List.toFinset_cons,
        Finset.sup_insert, if_neg (List.cons_ne_nil r l)]
      refine and_congr_right fun _ ↦ Eq.congr_right ?_
      rcases eq_or_ne l [] with rfl | hl
      · simp
      · rw [if_neg hl, max_assoc]
        exact congrArg (max m) (Nat.cast_max _ _).symm
    · simp [hr.not_gt]

/-- An option that fits has its highest usage found. -/
theorem optionMax_eq_ok {m : ℤ} (huses : ∀ usage ∈ option.usages, usage.resourcesUsed ≠ 0) :
    (buildResourceArray mdes option maxResourcesPerOption >>= fun resources ↦
      resources.foldlM (maxResCount current) (-1)) = .ok m ↔
      Fits mdes option ∧ m = optionUsage current option := by
  have hne : resources mdes option ≠ [] := by
    obtain ⟨usage, hmem⟩ := List.exists_mem_of_ne_nil _ option.ne_nil
    obtain ⟨b, hb⟩ : ∃ b, usage.resourcesUsed.getLsbD b = true := by
      by_contra hnone
      refine huses usage hmem (BitVec.eq_of_getLsbD_eq fun b _ ↦ ?_)
      exact (Bool.eq_false_iff.2 fun hb ↦ hnone ⟨b, hb⟩).trans BitVec.getLsbD_zero.symm
    have hlt : b < 32 := BitVec.lt_of_getLsbD hb
    refine List.ne_nil_of_mem (a := b + 32 * (usage.mapOffset % mdes.mapWidth)) ?_
    exact List.mem_flatMap.2 ⟨usage, hmem, List.mem_map.2
      ⟨b, List.mem_filter.2 ⟨List.mem_range.2 hlt, hb⟩, rfl⟩⟩
  rw [buildResourceArray_eq mdes option (by decide), Fits]
  split_ifs with hlen
  · rw [Run.ok_bind, foldlM_maxResCount_eq_ok, if_neg hne, and_iff_right hlen, optionUsage,
      max_eq_right (by omega)]
  · simp [hlen]

/-- One option of a choice: it replaces the best one so far exactly if its usage is lower. -/
theorem chooseBest_eq_ok {st st' : Option SMOption × ℤ}
    (huses : ∀ usage ∈ option.usages, usage.resourcesUsed ≠ 0) :
    chooseBest current st option = .ok st' ↔ Fits mdes option ∧
      st' = if st.2 = -1 ∨ (optionUsage current option : ℤ) < st.2 then
        (some option, (optionUsage current option : ℤ)) else st := by
  have hmax := fun m ↦ @optionMax_eq_ok mdes current option m huses
  have hsplit : chooseBest current st option =
      (buildResourceArray mdes option maxResourcesPerOption >>= fun resources ↦
        resources.foldlM (maxResCount current) (-1)) >>= fun m ↦
          pure (if st.2 = -1 ∨ m < st.2 then (some option, m) else st) := by
    rw [chooseBest, bind_assoc]
  rw [hsplit, Run.bind_eq_ok]
  constructor
  · rintro ⟨m, hm, hst⟩
    obtain ⟨hfits, rfl⟩ := (hmax m).1 hm
    exact ⟨hfits, (Except.ok.inj hst).symm⟩
  · rintro ⟨hfits, rfl⟩
    exact ⟨_, (hmax _).2 ⟨hfits, rfl⟩, rfl⟩

/-- The option that is best so far, with its highest usage. -/
def bestSoFar (current : RuCount mdes) (l : List SMOption) : Option SMOption × ℤ :=
  match l.argmin (optionUsage current) with
  | some option => (some option, (optionUsage current option : ℤ))
  | none => (none, -1)

/-- The best of the options so far, one option later. -/
theorem bestSoFar_concat (current : RuCount mdes) (l : List SMOption) (option : SMOption) :
    bestSoFar current (l ++ [option]) =
      if (bestSoFar current l).2 = -1 ∨ (optionUsage current option : ℤ) < (bestSoFar current l).2 then
        (some option, (optionUsage current option : ℤ)) else bestSoFar current l := by
  rw [bestSoFar, bestSoFar, List.argmin_concat]
  cases l.argmin (optionUsage current) with
  | none => simp
  | some best =>
    have hne : (optionUsage current best : ℤ) ≠ -1 := by omega
    simp only [hne, false_or, Nat.cast_lt]
    split_ifs <;> rfl

/-- **The options of a choice**: the first with the lowest maximum is found. -/
theorem chooseBest_options {l : List SMOption} {st : Option SMOption × ℤ}
    (huses : ∀ option ∈ l, ∀ usage ∈ option.usages, usage.resourcesUsed ≠ 0) :
    l.foldlM (chooseBest current) (none, -1) = .ok st ↔
      (∀ option ∈ l, Fits mdes option) ∧ st = bestSoFar current l := by
  induction l using List.reverseRecOn generalizing st with
  | nil => simp [bestSoFar, eq_comm]
  | append_singleton l option ih =>
    have ih' := fun st ↦ @ih st fun o ho ↦ huses o (List.mem_append_left _ ho)
    rw [List.foldlM_append, Run.bind_eq_ok]
    simp only [List.foldlM_cons, List.foldlM_nil, List.forall_mem_append, List.forall_mem_singleton]
    constructor
    · rintro ⟨st₁, hst₁, hrun⟩
      obtain ⟨hall, rfl⟩ := (ih' st₁).1 hst₁
      obtain ⟨st₂, hst₂, hrun⟩ := Run.bind_eq_ok.1 hrun
      obtain ⟨hfits, rfl⟩ := (chooseBest_eq_ok (huses option (by simp))).1 hst₂
      exact ⟨⟨hall, hfits⟩, (Except.ok.inj hrun).symm.trans (bestSoFar_concat ..).symm⟩
    · rintro ⟨⟨hall, hfits⟩, rfl⟩
      refine ⟨_, (ih' _).2 ⟨hall, rfl⟩, ?_⟩
      rw [(chooseBest_eq_ok (huses option (by simp))).2 ⟨hfits, rfl⟩, bestSoFar_concat]
      rfl

/-- Adding one to a count returns exactly if the resource is one of the machine and the count has room.
-/
theorem commitResource_eq_ok {resource : ℕ} (h : resource < mdes.numResources) {r : RuCount mdes} :
    commitResource current resource = .ok r ↔ current ⟨resource, h⟩ < 2147483647 ∧
      r = Function.update current ⟨resource, h⟩ (current ⟨resource, h⟩ + 1) := by
  have hcast : ((current ⟨resource, h⟩ : ℤ) + 1).toNat = current ⟨resource, h⟩ + 1 := by omega
  rw [commitResource, dif_pos h, Run.bind_eq_ok]
  constructor
  · rintro ⟨count, hcount, hrun⟩
    obtain ⟨hrange, rfl⟩ := int32_eq_ok.1 hcount
    rw [hcast] at hrun
    exact ⟨by omega, (Except.ok.inj hrun).symm⟩
  · rintro ⟨hlt, rfl⟩
    exact ⟨_, int32_eq (by omega), by rw [hcast]; rfl⟩

/-- **The resources of an option** are counted if the new counts are still `int`s. -/
theorem foldlM_commitResource_eq_ok {l : List ℕ} (hall : ∀ r ∈ l, r < mdes.numResources)
    (hints : IsInts current) {r : RuCount mdes} :
    l.foldlM commitResource current = .ok r ↔
      IsInts r ∧ r = fun index ↦ current index + l.count (index : ℕ) := by
  induction l generalizing current r with
  | nil =>
    refine ⟨fun h ↦ ?_, fun h ↦ congrArg Except.ok h.2.symm⟩
    obtain rfl := Except.ok.inj h
    exact ⟨hints, rfl⟩
  | cons b l ih =>
    obtain ⟨hb, hall⟩ := List.forall_mem_cons.1 hall
    have hcount : (fun index ↦ Function.update current ⟨b, hb⟩ (current ⟨b, hb⟩ + 1) index +
        l.count (index : ℕ)) = fun index ↦ current index + (b :: l).count (index : ℕ) := by
      funext index
      rw [List.count_cons, Function.update_apply]
      rcases eq_or_ne index ⟨b, hb⟩ with rfl | hne
      · simp
        omega
      · have hne' : b ≠ index := fun heq ↦ hne (Fin.ext heq.symm)
        simp [hne, hne']
    have hints' (hlt : current ⟨b, hb⟩ < 2147483647) :
        IsInts (Function.update current ⟨b, hb⟩ (current ⟨b, hb⟩ + 1)) := by
      intro index
      rw [Function.update_apply]
      split_ifs
      · omega
      · exact hints index
    rw [List.foldlM_cons, Run.bind_eq_ok]
    constructor
    · rintro ⟨next, hnext, hrun⟩
      obtain ⟨hlt, rfl⟩ := (commitResource_eq_ok hb).1 hnext
      rw [← hcount]
      exact (ih hall (hints' hlt)).1 hrun
    · rintro ⟨hr, rfl⟩
      have hlt : current ⟨b, hb⟩ < 2147483647 := by
        have hle : current ⟨b, hb⟩ + (b :: l).count b ≤ 2147483647 := hr ⟨b, hb⟩
        rw [List.count_cons_self] at hle
        omega
      rw [← hcount] at hr ⊢
      exact ⟨_, (commitResource_eq_ok hb).2 ⟨hlt, rfl⟩, (ih hall (hints' hlt)).2 ⟨hr, rfl⟩⟩

/-- **A choice** is made as it is meant to be. -/
theorem commitChoice_eq_ok {r : RuCount mdes}
    (huses : ∀ option ∈ choice.options, ∀ usage ∈ option.usages, usage.resourcesUsed ≠ 0)
    (hints : IsInts current) :
    commitChoice current choice = .ok r ↔
      (∀ option ∈ choice.options, Fits mdes option) ∧ IsInts r ∧ r = takeChoice current choice := by
  obtain ⟨best, hbest⟩ : ∃ best, choice.options.argmin (optionUsage current) = some best :=
    Option.ne_none_iff_exists'.1 fun hnone ↦ choice.ne_nil (List.argmin_eq_none.1 hnone)
  have hmem := List.argmin_mem hbest
  have hcommit : ∀ hfits : Fits mdes best, (do
      let bestOption ← deref (bestSoFar current choice.options).1
      let resources ← buildResourceArray mdes bestOption maxResourcesPerOption
      resources.foldlM commitResource current) = .ok r ↔
        IsInts r ∧ r = takeChoice current choice := by
    intro hfits
    rw [takeChoice, bestSoFar, hbest, deref_some, Run.ok_bind, buildResourceArray_eq mdes _ (by decide),
      if_pos hfits.1, Run.ok_bind, foldlM_commitResource_eq_ok hfits.2 hints]
  rw [commitChoice, Run.bind_eq_ok]
  constructor
  · rintro ⟨st, hst, hrun⟩
    obtain ⟨hall, rfl⟩ := (chooseBest_options huses).1 hst
    exact ⟨hall, (hcommit (hall best hmem)).1 hrun⟩
  · rintro ⟨hall, hr⟩
    exact ⟨_, (chooseBest_options huses).2 ⟨hall, rfl⟩, (hcommit (hall best hmem)).2 hr⟩

/-- Taking an option never lowers a count. -/
theorem le_takeChoice (current : RuCount mdes) (choice : SMChoice) (index : Fin mdes.numResources) :
    current index ≤ takeChoice current choice index := by
  rw [takeChoice]
  cases choice.options.argmin (optionUsage current) with
  | none => exact le_rfl
  | some option => exact Nat.le_add_right _ _

/-- Nor does taking an alternative. -/
theorem le_altUsage (ruCount : RuCount mdes) (alt : Alt) (index : Fin mdes.numResources) :
    ruCount index ≤ altUsage ruCount alt index := by
  induction alt generalizing ruCount with
  | nil => exact le_rfl
  | cons choice alt ih => exact (le_takeChoice ruCount choice index).trans (ih _)

/-- **An alternative** leads to the vector it is meant to. -/
theorem foldlM_commitChoice_eq_ok {r : RuCount mdes}
    (huses : ∀ choice ∈ alt, ∀ option ∈ choice.options, ∀ usage ∈ option.usages,
      usage.resourcesUsed ≠ 0) (hints : IsInts ruCount) :
    alt.foldlM commitChoice ruCount = .ok r ↔
      AltFits ruCount alt ∧ r = altUsage ruCount alt := by
  induction alt generalizing ruCount with
  | nil =>
    refine ⟨fun h ↦ ?_, fun h ↦ congrArg Except.ok h.2.symm⟩
    obtain rfl := Except.ok.inj h
    exact ⟨⟨fun _ hchoice ↦ absurd hchoice List.not_mem_nil, hints⟩, rfl⟩
  | cons choice alt ih =>
    obtain ⟨hchoice, hrest⟩ := List.forall_mem_cons.1 huses
    rw [List.foldlM_cons, Run.bind_eq_ok]
    constructor
    · rintro ⟨current, hcurrent, hrun⟩
      obtain ⟨hfits, hcur, rfl⟩ := (commitChoice_eq_ok hchoice hints).1 hcurrent
      obtain ⟨hall, rfl⟩ := (ih hrest hcur).1 hrun
      exact ⟨⟨List.forall_mem_cons.2 ⟨hfits, hall.options⟩, hall.ints⟩, rfl⟩
    · rintro ⟨hall, rfl⟩
      obtain ⟨hfits, hoptions⟩ := List.forall_mem_cons.1 hall.options
      have hcur : IsInts (takeChoice ruCount choice) := fun index ↦
        (le_altUsage _ alt index).trans (hall.ints index)
      exact ⟨_, (commitChoice_eq_ok hchoice hints).2 ⟨hfits, hcur, rfl⟩,
        (ih hrest hcur).2 ⟨⟨hoptions, hall.ints⟩, rfl⟩⟩

end Alternative

/-! ### The selection among the alternatives -/

section Alternatives

variable {mdes : ResMdes} {ruCount : RuCount mdes} {alt first : Alt} {rest : List Alt}
  {st st' : AltSearch mdes} {v : RuCount mdes}

/-- The loop for the highest count starts at -1, which no count is. -/
theorem foldl_max_eq (current : RuCount mdes) {m : ℤ} (hm : -1 ≤ m)
    (l : List (Fin mdes.numResources)) :
    l.foldl (fun m index ↦ if m = -1 ∨ (current index : ℤ) > m then (current index : ℤ) else m) m =
      if l = [] then m else max m (l.toFinset.sup current : ℕ) := by
  induction l generalizing m with
  | nil => rfl
  | cons index l ih =>
    have hmax : (if m = -1 ∨ (current index : ℤ) > m then (current index : ℤ) else m) =
        max m (current index) := by
      split_ifs <;> omega
    rw [List.foldl_cons, hmax, ih (hm.trans (le_max_left _ _)), List.toFinset_cons,
      Finset.sup_insert, if_neg (List.cons_ne_nil index l)]
    rcases eq_or_ne l [] with rfl | hl
    · simp
    · rw [if_neg hl, max_assoc]
      exact congrArg (max m) (Nat.cast_max _ _).symm

/-- The maximum that an alternative is compared with is carried over from those before it. -/
theorem altMax_eq (current : RuCount mdes) {m : ℤ} (hm : -1 ≤ m) (hpos : 0 < mdes.numResources) :
    (List.finRange mdes.numResources).foldl
      (fun m index ↦ if m = -1 ∨ (current index : ℤ) > m then (current index : ℤ) else m) m =
      max m (maxUsage current) := by
  have hne : List.finRange mdes.numResources ≠ [] :=
    List.ne_nil_of_mem (List.mem_finRange (⟨0, hpos⟩ : Fin mdes.numResources))
  have huniv : (List.finRange mdes.numResources).toFinset = Finset.univ :=
    Finset.eq_univ_iff_forall.2 fun index ↦ List.mem_toFinset.2 (List.mem_finRange index)
  rw [foldl_max_eq current hm, if_neg hne, huniv, maxUsage]

/-- What holds once an alternative is taken: no maximum that is still to come is below it. -/
structure Taken (v : RuCount mdes) (st : AltSearch mdes) : Prop where
  vector : st.minRuCount = some v
  nonneg : 0 < mdes.numResources → 0 ≤ st.maxResCount
  carried : 0 < mdes.numResources → st.maxResCount ≤ st.altMaxResCount

/-- Without resources there is only one vector. -/
theorem vector_unique (h : mdes.numResources = 0) (v w : RuCount mdes) : v = w :=
  funext fun index ↦ absurd index.isLt (by omega)

/-- If the code returns with an alternative, the resources of the options fit and no count overflows.
-/
theorem altFits_of_chooseAlt (huses : ∀ choice ∈ alt, ∀ option ∈ choice.options,
      ∀ usage ∈ option.usages, usage.resourcesUsed ≠ 0) (hints : IsInts ruCount)
    (hrun : chooseAlt ruCount st alt = .ok st') : AltFits ruCount alt := by
  obtain ⟨current, hcurrent, -⟩ := Run.bind_eq_ok.1 hrun
  exact ((foldlM_commitChoice_eq_ok huses hints).1 hcurrent).1

/-- The first alternative is taken. -/
theorem chooseAlt_first (huses : ∀ choice ∈ alt, ∀ option ∈ choice.options,
      ∀ usage ∈ option.usages, usage.resourcesUsed ≠ 0) (hints : IsInts ruCount)
    (hfits : AltFits ruCount alt) :
    ∃ st, chooseAlt ruCount ⟨-1, -1, none⟩ alt = .ok st ∧ Taken (altUsage ruCount alt) st := by
  rw [chooseAlt, (foldlM_commitChoice_eq_ok huses hints).2 ⟨hfits, rfl⟩, Run.ok_bind]
  simp only [true_or, if_true]
  refine ⟨_, rfl, rfl, fun hpos ↦ ?_, fun _ ↦ le_rfl⟩
  rw [altMax_eq _ le_rfl hpos]
  exact (Int.natCast_nonneg _).trans (le_max_right _ _)

/-- No later one is taken. -/
theorem Taken.chooseAlt (h : Taken v st) (huses : ∀ choice ∈ alt, ∀ option ∈ choice.options,
      ∀ usage ∈ option.usages, usage.resourcesUsed ≠ 0) (hints : IsInts ruCount)
    (hfits : AltFits ruCount alt) :
    ∃ st', chooseAlt ruCount st alt = .ok st' ∧ Taken v st' := by
  rw [Lmarkpipe.chooseAlt, (foldlM_commitChoice_eq_ok huses hints).2 ⟨hfits, rfl⟩, Run.ok_bind]
  rcases Nat.eq_zero_or_pos mdes.numResources with hzero | hpos
  · have hnone : 0 < mdes.numResources → False := fun hpos ↦ hpos.ne' hzero
    simp only
    split_ifs
    · exact ⟨_, rfl, congrArg some (vector_unique hzero _ _), fun hpos ↦ (hnone hpos).elim,
        fun hpos ↦ (hnone hpos).elim⟩
    · exact ⟨_, rfl, h.vector, fun hpos ↦ (hnone hpos).elim, fun hpos ↦ (hnone hpos).elim⟩
  · have hnonneg := h.nonneg hpos
    have hcarried := h.carried hpos
    rw [altMax_eq _ (by omega) hpos]
    have hkeep : ¬(st.maxResCount = -1 ∨
        max st.altMaxResCount (maxUsage (altUsage ruCount alt) : ℤ) < st.maxResCount) := by
      omega
    rw [if_neg hkeep]
    exact ⟨_, rfl, h.vector, fun _ ↦ hnonneg, fun _ ↦ hcarried.trans (le_max_left _ _)⟩

/-- The loop over the alternatives keeps the vector of the one that was chosen so far. -/
theorem Taken.foldlM (h : Taken v st) (huses : UsesResources rest) (hints : IsInts ruCount)
    (hfits : ∀ alt ∈ rest, AltFits ruCount alt) :
    ∃ st', rest.foldlM (Lmarkpipe.chooseAlt ruCount) st = .ok st' ∧ Taken v st' := by
  induction rest generalizing st with
  | nil => exact ⟨st, rfl, h⟩
  | cons alt rest ih =>
    obtain ⟨hua, hur⟩ := List.forall_mem_cons.1 huses
    obtain ⟨hfa, hfr⟩ := List.forall_mem_cons.1 hfits
    obtain ⟨st₁, hrun, h₁⟩ := h.chooseAlt hua hints hfa
    obtain ⟨st', hrest, h'⟩ := ih h₁ hur hfr
    exact ⟨st', by rw [List.foldlM_cons, hrun, Run.ok_bind, hrest], h'⟩

/-- **`RU_update_usage_count`** returns what the first alternative leads to. -/
theorem updateUsageCount_eq_ok (huses : UsesResources (first :: rest)) (hints : IsInts ruCount) :
    updateUsageCount (first :: rest) ruCount = .ok v ↔
      (∀ alt ∈ first :: rest, AltFits ruCount alt) ∧ v = altUsage ruCount first := by
  have hok (hfits : ∀ alt ∈ first :: rest, AltFits ruCount alt) :
      updateUsageCount (first :: rest) ruCount = .ok (altUsage ruCount first) := by
    obtain ⟨hua, hur⟩ := List.forall_mem_cons.1 huses
    obtain ⟨hfa, hfr⟩ := List.forall_mem_cons.1 hfits
    obtain ⟨st, hrun, h⟩ := chooseAlt_first hua hints hfa
    obtain ⟨st', hrest, h'⟩ := h.foldlM hur hints hfr
    rw [updateUsageCount, List.foldlM_cons, hrun, Run.ok_bind, hrest, Run.ok_bind, h'.vector,
      deref_some]
  refine ⟨fun hrun ↦ ?_, fun ⟨hfits, hv⟩ ↦ hv ▸ hok hfits⟩
  obtain ⟨st, hst, -⟩ := Run.bind_eq_ok.1 hrun
  have hfits := (Run.foldlM_spec (R := fun _ _ ↦ True) (P := fun alt _ ↦ AltFits ruCount alt)
    (fun _ ↦ trivial) (fun _ _ ↦ trivial) (fun _ h ↦ h)
    (fun alt halt _ _ hstep ↦ ⟨trivial, altFits_of_chooseAlt (huses alt halt) hints hstep⟩) hst).2
  exact ⟨hfits, Except.ok.inj (hrun.symm.trans (hok hfits))⟩

/-- **The selection is the one that is meant** if and only if the resources of all options fit, no count
leaves the range of `int` and no alternative has a lower maximum than the first. -/
theorem isLowest_updateUsageCount_iff (alts : List Alt) (hne : alts ≠ []) (huses : UsesResources alts)
    (ruCount : RuCount mdes) (hints : IsInts ruCount) :
    IsLowest alts ruCount (updateUsageCount alts ruCount) ↔
      (∀ alt ∈ alts, AltFits ruCount alt) ∧
        ∀ alt ∈ alts, maxUsage (altUsage ruCount (alts.head hne)) ≤ maxUsage (altUsage ruCount alt) := by
  obtain ⟨first, rest, rfl⟩ := List.exists_cons_of_ne_nil hne
  rw [List.head_cons]
  constructor
  · rintro ⟨alt, -, hrun, hlowest⟩
    obtain ⟨hfits, heq⟩ := (updateUsageCount_eq_ok huses hints).1 hrun
    exact ⟨hfits, heq ▸ hlowest⟩
  · rintro ⟨hfits, hlowest⟩
    exact ⟨first, List.mem_cons_self, (updateUsageCount_eq_ok huses hints).2 ⟨hfits, rfl⟩, hlowest⟩

/-- An alternative with one option, which uses resource `b`. -/
def oneResource (b : ℕ) : Alt :=
  [⟨[⟨[⟨1 <<< b, 0⟩], List.cons_ne_nil _ _⟩], List.cons_ne_nil _ _⟩]

/-- Resource 0 of two is used once. -/
def busy : RuCount ⟨2, 1⟩ := ![1, 0]

/-- The alternatives of the example use resources. -/
theorem usesResources_oneResource : UsesResources [oneResource 0, oneResource 1] := by
  simp [UsesResources, oneResource]

/-- The counts of the example are `int`s. -/
theorem isInts_busy : IsInts busy :=
  Fin.forall_fin_two.2 ⟨by decide, by decide⟩

/-- The first of two alternatives with equal resources is kept. -/
theorem isLowest_updateUsageCount_iff_busy :
    IsLowest [oneResource 0, oneResource 1] busy
      (updateUsageCount [oneResource 0, oneResource 1] busy) ↔
    (∀ alt ∈ [oneResource 0, oneResource 1], AltFits busy alt) ∧
      ∀ alt ∈ [oneResource 0, oneResource 1],
        maxUsage (altUsage busy (oneResource 0)) ≤ maxUsage (altUsage busy alt) :=
  isLowest_updateUsageCount_iff _ (List.cons_ne_nil _ _) usesResources_oneResource busy isInts_busy

/-- With the second alternative no resource is used twice, but the first is taken. -/
theorem not_isLowest_busy :
    ¬IsLowest [oneResource 0, oneResource 1] busy
      (updateUsageCount [oneResource 0, oneResource 1] busy) := by
  rintro ⟨alt, -, hrun, hlowest⟩
  obtain ⟨-, heq⟩ := (updateUsageCount_eq_ok usesResources_oneResource isInts_busy).1 hrun
  have hle := hlowest (oneResource 1) (by simp)
  rw [heq] at hle
  exact absurd hle (by decide)

end Alternatives

end OpenImpact.Lmarkpipe
