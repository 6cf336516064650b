import OpenImpact.Library.Md
import Mathlib.Data.Nat.Digits.Defs

/-!
# Writing machine descriptions

`MD_write_md`. It first numbers the symbols and then prints the md, so each pointer it follows is
replaced by the number of its symbol. What it prints is a text of the `Contents` of the md: the names,
declarations and values in their order, with links as numbers.
-/

namespace OpenImpact.Libmd

variable {D : Type}

/-! ### What fprintf prints -/

/-- The bytes of an ASCII string. -/
def ascii (s : String) : List UInt8 := s.toList.map Char.toUInt8

/-- The newline. -/
def nl : UInt8 := 10

/-- The space. -/
def sp : UInt8 := 32

/-- A lower-case hex digit. -/
def hexDigit (d : ℕ) : UInt8 :=
  if d < 10 then '0'.toUInt8 + d.toUInt8 else 'a'.toUInt8 + (d - 10).toUInt8

/-- `%x`. -/
def hex (n : ℕ) : List UInt8 :=
  if n = 0 then ['0'.toUInt8] else (Nat.digits 16 n).reverse.map hexDigit

/-- How `printf` writes doubles with `%0.16g`, and `strtod`, which returns no value unless it takes the
whole string. The laws are about the texts `%0.16g` produces. -/
structure DoubleFormat (D : Type) where
  print : D → List UInt8
  strtod : List UInt8 → Option D
  print_ne_nil : ∀ d, print d ≠ []
  length_print : ∀ d, (print d).length ≤ 32
  sp_notMem_print : ∀ d, sp ∉ print d
  nl_notMem_print : ∀ d, nl ∉ print d
  zero_notMem_print : ∀ d, 0 ∉ print d

/-! ### Contents -/

/-- What a field declaration says, with sections by their number in a link requirement. -/
structure DeclContents where
  name : Name
  type : FieldType
  require : List ElementReq
  kleeneStarred : Bool
  deriving DecidableEq

/-- What an entry holds: its fields, each with the number of its declaration, and in them entries by
their number in the md. -/
structure EntryContents (D : Type) where
  name : Name
  fields : List (ℕ × Field D)
  deriving DecidableEq

/-- What a section holds. -/
structure SectionContents (D : Type) where
  name : Name
  decls : List DeclContents
  entries : List (EntryContents D)
  deriving DecidableEq

/-- What an md holds. -/
abbrev Contents (D : Type) := List (SectionContents D)

namespace Md

variable (md : Md D)

/-- The entries of all sections. -/
def entries : List (Entry D) := md.sections.flatMap Section.entries

/-- The `symbol_id` that `MD_write_md` gives to a section. -/
def sectionSymbolId (id : ℕ) : Option ℕ := md.sections.findIdx? fun s ↦ s.id == id

/-- The `symbol_id` that `MD_write_md` gives to an entry. -/
def entrySymbolId (id : ℕ) : Option ℕ := md.entries.findIdx? fun e ↦ e.id == id

/-- The number of a section in the md. -/
def sectionIndex (id : ℕ) : ℕ := md.sections.findIdx fun s ↦ s.id == id

/-- The number of an entry in the md. -/
def entryIndex (id : ℕ) : ℕ := md.entries.findIdx fun e ↦ e.id == id

/-- A requirement, with sections by number. -/
def reqContents : ElementReq → ElementReq
  | .link ids => .link (ids.map md.sectionIndex)
  | r => r

/-- An element, with entries by number. -/
def elementContents : Element D → Element D
  | .link id => .link (md.entryIndex id)
  | x => x

/-- The elements of a field. -/
def fieldContents (f : Field D) : Field D := f.map (Option.map md.elementContents)

/-- What a declaration says. -/
def declContents (d : FieldDecl) : DeclContents :=
  ⟨d.name, d.type, d.require.map md.reqContents, d.kleeneStarred⟩

/-- What an entry of a section holds. -/
def entryContents (s : Section D) (e : Entry D) : EntryContents D :=
  ⟨e.name, s.fieldDecls.zipIdx.filterMap fun d ↦
    (e.field d.1.fieldIndex).map fun f ↦ (d.2, md.fieldContents f)⟩

/-- What a section holds. -/
def sectionContents (s : Section D) : SectionContents D :=
  ⟨s.name, s.fieldDecls.map md.declContents, s.entries.map (md.entryContents s)⟩

/-- What an md holds. -/
def contents : Contents D := md.sections.map md.sectionContents

end Md

/-! ### The format -/

/-- A line of the comment at the beginning of the file. -/
def printComment (s : String) : List UInt8 := ascii "// " ++ ascii s ++ [nl]

/-- The comment at the beginning of the file. -/
def banner : List UInt8 :=
  printComment "*** DO NOT EDIT MANUALLY! ***" ++
    printComment "This is an automatically-generated LMDES file, created from an HMDES" ++
    printComment "file. Edit the HMDES file that was compiled to create this file."

/-- The line with two numbers. -/
def printPair (m n : ℕ) : List UInt8 := hex m ++ sp :: hex n ++ [nl]

/-- The name of a section with its numbers of entries and declarations. -/
def printSectionHeader (name : Name) (entryCount declCount : ℕ) : List UInt8 :=
  name ++ nl :: printPair entryCount declCount

/-- The header of a field declaration. -/
def printDeclHeader (name : Name) (type : FieldType) (requireCount : ℕ) (starred : Bool) :
    List UInt8 :=
  let typeMarker := match type with
    | .required => 'R'.toUInt8
    | .optional => 'O'.toUInt8
  let kleeneMarker := if starred then '*'.toUInt8 else '-'.toUInt8
  name ++ nl :: typeMarker :: sp :: hex requireCount ++ [sp, kleeneMarker, nl]

/-- A requirement. -/
def printReq : ElementReq → List UInt8
  | .int => ['I'.toUInt8, nl]
  | .double => ['D'.toUInt8, nl]
  | .string => ['S'.toUInt8, nl]
  | .block => ['B'.toUInt8, nl]
  | .link link => 'L'.toUInt8 :: sp :: hex link.length ++ link.flatMap (fun id ↦ sp :: hex id) ++ [nl]

/-- An element, `none` for `NULL`. -/
def printElement (F : DoubleFormat D) : Option (Element D) → List UInt8
  | none => ['-'.toUInt8, nl]
  | some (.int i) =>
    if i.toInt < 0 then 'I'.toUInt8 :: '-'.toUInt8 :: hex (-i).toNat ++ [nl]
    else 'I'.toUInt8 :: hex i.toNat ++ [nl]
  | some (.double d) => 'D'.toUInt8 :: F.print d ++ [nl]
  | some (.string s) => 'S'.toUInt8 :: s ++ [nl]
  | some (.block b) => 'B'.toUInt8 :: hex b.length ++ sp :: b ++ [nl]
  | some (.link id) => 'L'.toUInt8 :: hex id ++ [nl]

/-! ### MD_write_md -/

/-- Print the items of a list one after the other. -/
def writeList {α : Type} (write : α → Run (List UInt8)) : List α → Run (List UInt8)
  | [] => .ok []
  | a :: l => do
    let text ← write a
    let rest ← writeList write l
    .ok (text ++ rest)

section Writer

variable (F : DoubleFormat D) (md : Md D)

/-- Print the section and entries' names, in the first loop over the sections. -/
def writeHeader (s : Section D) : List UInt8 :=
  printSectionHeader s.name s.entries.length s.fieldDecls.length ++
    s.entries.flatMap (fun e ↦ e.name ++ [nl]) ++ [nl]

/-- Print a requirement. -/
def writeReq : ElementReq → Run (List UInt8)
  | .link ids => do
    let ids ← ids.mapM fun id ↦ deref (md.sectionSymbolId id)
    .ok (printReq (.link ids))
  | r => .ok (printReq r)

/-- Print a field declaration. -/
def writeFieldDecl (d : FieldDecl) : Run (List UInt8) := do
  let reqs ← writeList (writeReq md) d.require
  .ok (printDeclHeader d.name d.type d.require.length d.kleeneStarred ++ reqs ++ [nl])

/-- Print an element. -/
def writeElement : Option (Element D) → Run (List UInt8)
  | some (.link id) => do
    let id ← deref (md.entrySymbolId id)
    .ok (printElement F (some (.link id)))
  | x => .ok (printElement F x)

/-- Print the field of an entry for a declaration, which has the `symbol_id` given, if the entry has
one. The elements after the last one assigned are left out. -/
def writeField (e : Entry D) (d : FieldDecl × ℕ) : Run (List UInt8) :=
  match e.field d.1.fieldIndex with
  | none => .ok []
  | some f => do
    let f := f.rdropWhile Option.isNone
    let elements ← writeList (writeElement F md) f
    .ok (printPair d.2 f.length ++ elements ++ [nl])

/-- Print an entry. -/
def writeEntry (s : Section D) (e : Entry D) : Run (List UInt8) := do
  let fieldCount := (List.range s.numFieldIndex).countP fun i ↦ (e.field i).isSome
  let fields ← writeList (writeField F md e) s.fieldDecls.zipIdx
  .ok (hex fieldCount ++ [nl, nl] ++ fields)

/-- Print the declarations and fields of a section, in the second loop over the sections. -/
def writeBody (s : Section D) : Run (List UInt8) := do
  let decls ← writeList (writeFieldDecl md) s.fieldDecls
  let entries ← writeList (writeEntry F md s) s.entries
  .ok (printSectionHeader s.name s.entries.length s.fieldDecls.length ++ decls ++ entries ++ [nl])

/-- `MD_write_md`. -/
def writeMd : Run (List UInt8) := do
  let totalEntryCount ← md.sections.foldlM (fun n s ↦ int32 (n + s.entries.length)) 0
  let bodies ← writeList (writeBody F md) md.sections
  .ok (banner ++ printPair md.sections.length totalEntryCount.toNat ++ [nl] ++
    md.sections.flatMap writeHeader ++ [nl] ++ bodies ++ [nl])

end Writer

/-! ### The text of contents -/

section Encode

variable (F : DoubleFormat D)

/-- The text of a section's header. -/
def encodeHeader (s : SectionContents D) : List UInt8 :=
  printSectionHeader s.name s.entries.length s.decls.length ++
    s.entries.flatMap (fun e ↦ e.name ++ [nl]) ++ [nl]

/-- The text of a declaration. -/
def encodeDecl (d : DeclContents) : List UInt8 :=
  printDeclHeader d.name d.type d.require.length d.kleeneStarred ++ d.require.flatMap printReq ++ [nl]

/-- The text of a field. -/
def encodeField (f : ℕ × Field D) : List UInt8 :=
  printPair f.1 f.2.length ++ f.2.flatMap (printElement F) ++ [nl]

/-- The text of an entry. -/
def encodeEntry (e : EntryContents D) : List UInt8 :=
  hex e.fields.length ++ [nl, nl] ++ e.fields.flatMap (encodeField F)

/-- The text of a section. -/
def encodeBody (s : SectionContents D) : List UInt8 :=
  printSectionHeader s.name s.entries.length s.decls.length ++ s.decls.flatMap encodeDecl ++
    s.entries.flatMap (encodeEntry F) ++ [nl]

/-- The number of entries. -/
def Contents.entryCount (c : Contents D) : ℕ := (c.map fun s ↦ s.entries.length).sum

/-- The text of an md. -/
def encode (c : Contents D) : List UInt8 :=
  banner ++ printPair c.length c.entryCount ++ [nl] ++ c.flatMap encodeHeader ++ [nl] ++
    c.flatMap (encodeBody F) ++ [nl]

end Encode

end OpenImpact.Libmd
