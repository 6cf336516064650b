import OpenImpact.Foundation.Keyed
import OpenImpact.Library.CExpr
import Mathlib.Data.List.DropRight
import Mathlib.Logic.Function.Basic

/-!
# Machine descriptions

The data of `md.c` and the operations that build it. A pointer to a section or an entry is an id that
is not used again; a pointer to a field declaration is its section with its `field_index`, one to a
field is its entry with that index. An element array ends at `max_element_index`, a requirement array
at `max_require_index`. Spare room in arrays and hash tables is left out, as are running out of memory
and what no operation here reads: the name of the md, the descriptions of requirements and the user's
extensions.
-/

namespace OpenImpact.Libmd

/-- The bytes of a string without its terminator. -/
abbrev Name := List UInt8

/-- `MD_FIELD_TYPE`. -/
inductive FieldType
  | required
  | optional
  deriving DecidableEq, Repr

/-- `MD_Element_Req`: the type of a required element. `link` has the sections it may lead to. -/
inductive ElementReq
  | int
  | double
  | string
  | block
  | link (link : List ℕ)
  deriving DecidableEq, Repr

/-- `MD_Element`, with doubles in `D`. -/
inductive Element (D : Type)
  | int (i : BitVec 32)
  | double (d : D)
  | string (s : Name)
  | link (l : ℕ)
  | block (b : List UInt8)
  deriving DecidableEq, Repr

/-- `MD_Field`: its elements up to `max_element_index`, `none` for `NULL`. -/
abbrev Field (D : Type) := List (Option (Element D))

/-- `MD_Field_Decl`. The starred requirement is always the last one. -/
structure FieldDecl where
  fieldIndex : ℕ
  name : Name
  type : FieldType
  require : List ElementReq
  kleeneStarred : Bool

/-- `MD_Entry`. -/
structure Entry (D : Type) where
  id : ℕ
  name : Name
  field : ℕ → Option (Field D)

/-- `MD_Section`, with `max_field_index + 1` in `numFieldIndex`. -/
structure Section (D : Type) where
  id : ℕ
  name : Name
  fieldDecls : List FieldDecl
  numFieldIndex : ℕ
  entries : List (Entry D)

/-- `MD`, with the next ids. -/
structure Md (D : Type) where
  sections : List (Section D)
  nextSection : ℕ
  nextEntry : ℕ

variable {D : Type}

/-! ### Following pointers -/

/-- The field declaration at a field index. -/
def Section.fieldDecl? (s : Section D) (index : ℕ) : Option FieldDecl :=
  getKey FieldDecl.fieldIndex s.fieldDecls index

/-- The section a pointer to a section leads to. -/
def Md.section? (md : Md D) (id : ℕ) : Option (Section D) := getKey Section.id md.sections id

/-- The section of the entry that a pointer to an entry leads to. -/
def Md.sectionOf? (md : Md D) (entry : ℕ) : Option (Section D) :=
  md.sections.find? fun s ↦ s.entries.any fun e ↦ e.id == entry

/-- Replace a section. -/
def Md.setSection (md : Md D) (s : Section D) : Md D :=
  { md with sections := setKey Section.id md.sections s }

/-- Replace a field declaration. -/
def Section.setFieldDecl (s : Section D) (d : FieldDecl) : Section D :=
  { s with fieldDecls := setKey FieldDecl.fieldIndex s.fieldDecls d }

/-- Replace an entry. -/
def Section.setEntry (s : Section D) (e : Entry D) : Section D :=
  { s with entries := setKey Entry.id s.entries e }

/-- Replace a field. -/
def Entry.setField (e : Entry D) (index : ℕ) (f : Option (Field D)) : Entry D :=
  { e with field := Function.update e.field index f }

/-! ### Symbol tables and arrays -/

/-- Stop with a message if the condition holds. -/
def puntIf (c : Prop) [Decidable c] (msg : String) : Run Unit :=
  if c then .error (.punt msg) else .ok ()

theorem puntIf_pos {c : Prop} [Decidable c] {msg : String} (h : c) :
    puntIf c msg = .error (.punt msg) := if_pos h

theorem puntIf_neg {c : Prop} [Decidable c] {msg : String} (h : ¬ c) : puntIf c msg = .ok () :=
  if_neg h

theorem puntIf_eq_ok {c : Prop} [Decidable c] {msg : String} {u : Unit} :
    puntIf c msg = .ok u ↔ ¬ c := by
  rw [puntIf]
  split_ifs with h <;> simp [h]

/-- What `MD_new_symbol_table` checks. -/
def newSymbolTable (expectedSize : ℤ) : Run Unit :=
  puntIf (expectedSize > 1000000000) "MD_Symbol_Table: unreasonable expected_size (%u)"

/-- `MD_add_symbol` on a table with the names given; returns the new `symbol_count`. -/
def addSymbol (names : List Name) (name : Name) : Run ℤ := do
  puntIf (name ∈ names) "%s: cannot add '%s', already in table!"
  int32 (names.length + 1)

/-- What `MD_resize_field_arrays` checks when there is no array yet: that `(max_index | 1) + 3` is a
positive size. -/
def resizeFieldArrays (maxIndex : ℤ) : Run Unit :=
  puntIf ((if maxIndex % 2 = 0 then maxIndex + 1 else maxIndex) + 3 ≤ 0)
    "MD_resize_field_arrays: new_array_size (%i) must be > current size (%i)"

/-- The size of a requirement or element array with room for an index: `MD_resize_element_array`
rounds up to a multiple of four, and so do the steps `(index | 1) + 3` of `MD_new_element_req`. -/
def arraySize (index : ℕ) : Run ℤ := int32 ((index ||| 3 : ℕ) + 1)

/-- The largest array size an `int` holds. -/
def maxArraySize : ℕ := 2147483644

theorem or_three (n : ℕ) : n ||| 3 = n / 4 * 4 + 3 := by
  have hlow : ∀ r < 4, r ||| 3 = 3 := by decide
  calc n ||| 3 = (2 ^ 2 * (n / 4) + n % 4) ||| 3 := by rw [show 2 ^ 2 * (n / 4) + n % 4 = n by omega]
    _ = 2 ^ 2 * (n / 4) ||| (n % 4 ||| 3) := by
      rw [Nat.two_pow_add_eq_or_of_lt (by omega), Nat.or_assoc]
    _ = 2 ^ 2 * (n / 4) ||| 3 := by rw [hlow _ (by omega)]
    _ = n / 4 * 4 + 3 := by
      rw [← Nat.two_pow_add_eq_or_of_lt (by omega)]
      omega

theorem arraySize_eq_ok {index : ℕ} {n : ℤ} (h : arraySize index = .ok n) :
    index < maxArraySize := by
  obtain ⟨hle, -⟩ := int32_eq_ok.1 h
  rw [or_three] at hle
  rw [maxArraySize]
  omega

theorem exists_arraySize {index : ℕ} (h : index < maxArraySize) : ∃ n, arraySize index = .ok n := by
  rw [maxArraySize] at h
  refine ⟨_, int32_eq_ok.2 ⟨?_, rfl⟩⟩
  rw [or_three]
  omega

/-- Set the element at an index. -/
def Field.set (f : Field D) (index : ℕ) (e : Element D) : Field D :=
  if index < f.length then List.set f index (some e)
  else f ++ List.replicate (index - f.length) none ++ [some e]

theorem Field.set_length (f : Field D) (x : Element D) : f.set f.length x = f ++ [some x] := by
  rw [Field.set, if_neg (Nat.lt_irrefl _), Nat.sub_self, List.replicate_zero, List.append_nil]

/-- The next available field index in `MD_new_field_decl`. -/
def Section.nextFieldIndex (s : Section D) : ℕ :=
  ((List.range s.numFieldIndex).find? fun i ↦ (s.fieldDecl? i).isNone).getD s.numFieldIndex

/-! ### Building -/

/-- `MD_new_md`. -/
def newMd (numSections : ℤ) : Run (Md D) := do
  puntIf (numSections > 1000000000) "MD_new_md: unreasonable num_sections (%u)"
  newSymbolTable numSections
  .ok ⟨[], 0, 0⟩

namespace Md

variable (md : Md D)

/-- `MD_new_section`. -/
def newSection (name : Name) (numEntries numFields : ℤ) : Run (Md D × ℕ) := do
  newSymbolTable numEntries
  newSymbolTable numFields
  (if numFields ≠ 0 then resizeFieldArrays numFields else .ok ())
  let _ ← addSymbol (md.sections.map Section.name) name
  .ok ({ md with
          sections := md.sections ++ [⟨md.nextSection, name, [], 0, []⟩]
          nextSection := md.nextSection + 1 }, md.nextSection)

/-- `MD_new_entry`. -/
def newEntry (sec : ℕ) (name : Name) : Run (Md D × ℕ) := do
  let s ← deref (md.section? sec)
  let _ ← addSymbol (s.entries.map Entry.name) name
  let md := md.setSection { s with entries := s.entries ++ [⟨md.nextEntry, name, fun _ ↦ none⟩] }
  .ok ({ md with nextEntry := md.nextEntry + 1 }, md.nextEntry)

/-- `MD_rename_entry`. The symbol is taken out of the hash table before the name is looked up. -/
def renameEntry (entry : ℕ) (newName : Name) : Run (Md D) := do
  let s ← deref (md.sectionOf? entry)
  let e ← deref (getKey Entry.id s.entries entry)
  puntIf (newName ∈ (s.entries.filter fun e ↦ e.id != entry).map Entry.name)
    "%s: cannot rename to '%s', already in table!"
  .ok (md.setSection (s.setEntry { e with name := newName }))

/-- `MD_new_field_decl`. -/
def newFieldDecl (sec : ℕ) (name : Name) (type : FieldType) : Run (Md D × ℕ) := do
  let s ← deref (md.section? sec)
  let newIndex := s.nextFieldIndex
  let _ ← addSymbol (s.fieldDecls.map FieldDecl.name) name
  .ok (md.setSection { s with
          fieldDecls := s.fieldDecls ++ [⟨newIndex, name, type, [], false⟩]
          numFieldIndex := max s.numFieldIndex (newIndex + 1) }, newIndex)

/-- `MD_new_element_req` with the type filled in by its caller. -/
def newElementReq (sec decl : ℕ) (index : ℤ) (req : ElementReq) : Run (Md D) := do
  let s ← deref (md.section? sec)
  let d ← deref (s.fieldDecl? decl)
  puntIf (index < d.require.length)
    "%s(%s->*->%s[%i]):\n  Element %i already required to be '%s'!"
  puntIf (d.require.length < index)
    "%s(%s->*->%s[%i]):\n  Specify requirements for elements before %i first!"
  puntIf (d.kleeneStarred = true)
    "%s(%s->*->%s[%i]):\n  Cannot specify requirements after a kleene starred requirement!"
  let _ ← arraySize index.toNat
  .ok (md.setSection (s.setFieldDecl { d with require := d.require ++ [req] }))

/-- `MD_require_int`. -/
def requireInt (sec decl : ℕ) (elementIndex : ℤ) : Run (Md D) :=
  md.newElementReq sec decl elementIndex .int

/-- `MD_require_double`. -/
def requireDouble (sec decl : ℕ) (elementIndex : ℤ) : Run (Md D) :=
  md.newElementReq sec decl elementIndex .double

/-- `MD_require_string`. -/
def requireString (sec decl : ℕ) (elementIndex : ℤ) : Run (Md D) :=
  md.newElementReq sec decl elementIndex .string

/-- `MD_require_block`. -/
def requireBlock (sec decl : ℕ) (elementIndex : ℤ) : Run (Md D) :=
  md.newElementReq sec decl elementIndex .block

/-- `MD_require_multi_target_link`, which reads the names of the sections. Their number is passed in an
`int`. -/
def requireMultiTargetLink (sec decl : ℕ) (elementIndex : ℤ) (sections : List ℕ) : Run (Md D) := do
  let _ ← int32 sections.length
  let md' ← md.newElementReq sec decl elementIndex (.link sections)
  puntIf (sections = []) "MD_require_multi_target_link: invalid array size (%i)."
  let _ ← sections.mapM fun id ↦ deref (md.section? id)
  .ok md'

/-- `MD_require_link`. -/
def requireLink (sec decl : ℕ) (elementIndex : ℤ) (target : ℕ) : Run (Md D) := do
  let md' ← md.newElementReq sec decl elementIndex (.link [target])
  let _ ← deref (md.section? target)
  .ok md'

/-- `MD_kleene_star_requirement`. -/
def kleeneStarRequirement (sec decl : ℕ) (elementIndex : ℤ) : Run (Md D) := do
  let s ← deref (md.section? sec)
  let d ← deref (s.fieldDecl? decl)
  puntIf (elementIndex < 0 ∨ (d.require.length : ℤ) - 1 < elementIndex)
    ("MD_kleene_star_requirement(%s->*->%s[%i]:\n  Invalid element " ++
      "index %i (the max valid index is %i).")
  puntIf (elementIndex ≠ d.require.length - 1)
    ("MD_kleene_star_requirement(%s->*->%s[%i]:\n  Only the last " ++
      "requirment (%i) may be kleene starred.")
  puntIf (d.kleeneStarred = true)
    "MD_kleene_star_requirement(%s->*->%s[%i]:\n  Requirement already kleene starred."
  .ok (md.setSection (s.setFieldDecl { d with kleeneStarred := true }))

/-- `MD_new_field`, given a declaration of the entry's own section. -/
def newField (entry decl : ℕ) (numElements : ℤ) : Run (Md D) := do
  let s ← deref (md.sectionOf? entry)
  let e ← deref (getKey Entry.id s.entries entry)
  let d ← deref (s.fieldDecl? decl)
  puntIf ((e.field d.fieldIndex).isSome = true)
    "%s, entry %s: Cannot create field '%s', already exists!"
  puntIf (numElements < 0) "%s, entry %s, creating field %i: num_elements (%i) must be >= 0"
  let _ ← (if numElements > 0 then arraySize (numElements - 1).toNat else .ok 0)
  .ok (md.setSection (s.setEntry (e.setField d.fieldIndex (some []))))

/-- The common code of `_MD_set_int`, `_MD_set_double`, `_MD_set_string`, `_MD_set_block` and
`_MD_set_link`. -/
def setElement (msg : String) (entry decl : ℕ) (index : ℤ) (x : Element D) : Run (Md D) := do
  let s ← deref (md.sectionOf? entry)
  let e ← deref (getKey Entry.id s.entries entry)
  let f ← deref (e.field decl)
  puntIf (index < 0) msg
  let _ ← arraySize index.toNat
  .ok (md.setSection (s.setEntry (e.setField decl (some (f.set index.toNat x)))))

/-- `_MD_set_int`. -/
def setInt (entry decl : ℕ) (index : ℤ) (value : BitVec 32) : Run (Md D) :=
  md.setElement "MD_set_int (%s->%s->%s[%d]): Invalid index (%d)\n" entry decl index (.int value)

/-- `_MD_set_double`. -/
def setDouble (entry decl : ℕ) (index : ℤ) (value : D) : Run (Md D) :=
  md.setElement "MD_set_double (%s->%s->%s[%d]): Invalid index (%d)\n" entry decl index
    (.double value)

/-- `_MD_set_string`. -/
def setString (entry decl : ℕ) (index : ℤ) (value : Name) : Run (Md D) :=
  md.setElement "MD_set_string (%s->%s->%s[%d]): Invalid index (%d)\n" entry decl index
    (.string value)

/-- `_MD_set_block`; the size of the block is an `unsigned int`. -/
def setBlock (entry decl : ℕ) (index : ℤ) (value : List UInt8) : Run (Md D) :=
  if value.length < 2 ^ 32 then
    md.setElement "MD_set_block (%s->%s->%s[%d]): Invalid index (%d)\n" entry decl index
      (.block value)
  else .error .overflow

/-- `_MD_set_link`. -/
def setLink (entry decl : ℕ) (index : ℤ) (value : ℕ) : Run (Md D) :=
  md.setElement "MD_set_link (%s->%s->%s[%d]):\n  Invalid index (%d)\n" entry decl index
    (.link value)

/-! ### Deleting -/

/-- `MD_delete_element`. -/
def deleteElement (entry decl index : ℕ) : Run (Md D) := do
  let s ← deref (md.sectionOf? entry)
  let e ← deref (getKey Entry.id s.entries entry)
  let f ← deref (e.field decl)
  match f[index]? with
  | some (some _) =>
    .ok (md.setSection (s.setEntry
      (e.setField decl (some ((List.set f index none).rdropWhile Option.isNone)))))
  | _ => .ok md

/-- `MD_delete_field`. -/
def deleteField (entry decl : ℕ) : Run (Md D) := do
  let s ← deref (md.sectionOf? entry)
  let e ← deref (getKey Entry.id s.entries entry)
  let _ ← deref (e.field decl)
  .ok (md.setSection (s.setEntry (e.setField decl none)))

/-- `MD_delete_field_decl`. -/
def deleteFieldDecl (sec decl : ℕ) : Run (Md D) := do
  let s ← deref (md.section? sec)
  let d ← deref (s.fieldDecl? decl)
  .ok (md.setSection { s with
    fieldDecls := s.fieldDecls.filter fun d ↦ d.fieldIndex != decl
    entries := s.entries.map fun e ↦ e.setField d.fieldIndex none })

/-- `MD_delete_entry`. -/
def deleteEntry (entry : ℕ) : Run (Md D) := do
  let s ← deref (md.sectionOf? entry)
  .ok (md.setSection { s with entries := s.entries.filter fun e ↦ e.id != entry })

/-- `MD_delete_section`. -/
def deleteSection (sec : ℕ) : Run (Md D) := do
  let _ ← deref (md.section? sec)
  .ok { md with sections := md.sections.filter fun s ↦ s.id != sec }

end Md

/-- A call of an operation that changes an md. -/
inductive Op (D : Type)
  | newSection (name : Name) (numEntries numFields : ℤ)
  | newEntry (sec : ℕ) (name : Name)
  | renameEntry (entry : ℕ) (newName : Name)
  | newFieldDecl (sec : ℕ) (name : Name) (type : FieldType)
  | requireInt (sec decl : ℕ) (elementIndex : ℤ)
  | requireDouble (sec decl : ℕ) (elementIndex : ℤ)
  | requireString (sec decl : ℕ) (elementIndex : ℤ)
  | requireBlock (sec decl : ℕ) (elementIndex : ℤ)
  | requireLink (sec decl : ℕ) (elementIndex : ℤ) (target : ℕ)
  | requireMultiTargetLink (sec decl : ℕ) (elementIndex : ℤ) (sections : List ℕ)
  | kleeneStarRequirement (sec decl : ℕ) (elementIndex : ℤ)
  | newField (entry decl : ℕ) (numElements : ℤ)
  | setInt (entry decl : ℕ) (index : ℤ) (value : BitVec 32)
  | setDouble (entry decl : ℕ) (index : ℤ) (value : D)
  | setString (entry decl : ℕ) (index : ℤ) (value : Name)
  | setBlock (entry decl : ℕ) (index : ℤ) (value : List UInt8)
  | setLink (entry decl : ℕ) (index : ℤ) (value : ℕ)
  | deleteElement (entry decl index : ℕ)
  | deleteField (entry decl : ℕ)
  | deleteFieldDecl (sec decl : ℕ)
  | deleteEntry (entry : ℕ)
  | deleteSection (sec : ℕ)

/-- What a call does. -/
def Md.step (md : Md D) : Op D → Run (Md D)
  | .newSection name numEntries numFields => Prod.fst <$> md.newSection name numEntries numFields
  | .newEntry sec name => Prod.fst <$> md.newEntry sec name
  | .renameEntry entry newName => md.renameEntry entry newName
  | .newFieldDecl sec name type => Prod.fst <$> md.newFieldDecl sec name type
  | .requireInt sec decl i => md.requireInt sec decl i
  | .requireDouble sec decl i => md.requireDouble sec decl i
  | .requireString sec decl i => md.requireString sec decl i
  | .requireBlock sec decl i => md.requireBlock sec decl i
  | .requireLink sec decl i target => md.requireLink sec decl i target
  | .requireMultiTargetLink sec decl i sections => md.requireMultiTargetLink sec decl i sections
  | .kleeneStarRequirement sec decl i => md.kleeneStarRequirement sec decl i
  | .newField entry decl n => md.newField entry decl n
  | .setInt entry decl i value => md.setInt entry decl i value
  | .setDouble entry decl i value => md.setDouble entry decl i value
  | .setString entry decl i value => md.setString entry decl i value
  | .setBlock entry decl i value => md.setBlock entry decl i value
  | .setLink entry decl i value => md.setLink entry decl i value
  | .deleteElement entry decl i => md.deleteElement entry decl i
  | .deleteField entry decl => md.deleteField entry decl
  | .deleteFieldDecl sec decl => md.deleteFieldDecl sec decl
  | .deleteEntry entry => md.deleteEntry entry
  | .deleteSection sec => md.deleteSection sec

end OpenImpact.Libmd
