import OpenImpact.Library.CExpr
import OpenImpact.Library.SymbolTable
import OpenImpact.Library.Md

/-!
# The symbol tables of machine descriptions

The tables of `md.c`, in which a symbol can be renamed. `symbol_id`, which only the writer uses, is left
out, and the pool of symbols is there. `hash_size` and `symbol_count` are of type `int`: a table with `2^30`
chains or more cannot be doubled.
-/

namespace OpenImpact.MdSymbol

open Foundation SymbolTable Libmd

/-- The fields of `MD_Symbol` that are no links. -/
structure Entry where
  name : Name
  hashVal : BitVec 32
  data : Option Addr
  deriving DecidableEq

/-- `MD_hash_string`. -/
def hashString (name : Name) : BitVec 32 :=
  name.foldl (fun hashVal ch ↦ hashVal + (hashVal <<< 4) + BitVec.ofNat 32 ch.toNat) 0

/-- `MD_new_symbol_table`. -/
def newSymbolTable (expectedSize : ℤ) : Run (Table Entry) :=
  newTable "MD_Symbol_Table: unreasonable expected_size (%u)" expectedSize

/-- The comparison of the loops over a chain. -/
def sameName (name : Name) (s : Symbol Entry) : Run Bool :=
  .ok (s.entry.hashVal = hashString name ∧ s.entry.name = name)

/-- "Check that this symbol's name is not already in the symbol table", and its chain then starts with the
symbol. -/
def enterHash (msg : String) (t : Table Entry) (symbol : Addr) (name : Name) : Run (Table Entry) := do
  let i := hashIndex t.hashMask (hashString name)
  let hashHead ← readHash t.hash i
  let checkSymbol ← searchHash (sameName name) t.symbols t.symbols.fuel hashHead
  match checkSymbol with
  | some _ => .error (.punt msg)
  | none => do
    let (symbols, hash) ← pushHash t.symbols t.hash symbol i
    .ok { t with symbols := symbols, hash := hash }

/-- `hash_size` as the `int` that the table keeps. For an expected size above `2^29` a new table has `2^31`
chains, and this is the smallest `int`. -/
def hashSizeInt (t : Table Entry) : ℤ := (BitVec.ofNat 32 t.hashSize).toInt

/-- `MD_resize_symbol_table`. -/
def resizeSymbolTable (t : Table Entry) : Run (Table Entry) := do
  -- `new_hash_size = table->hash_size * 2`
  let _ ← int32 (hashSizeInt t * 2)
  resizeTable Entry.hashVal t

/-- `MD_add_symbol`. -/
def addSymbol (t : Table Entry) (name : Name) (data : Option Addr) : Run (Table Entry × Addr) := do
  let t ← (if t.symbolCount ≥ t.resizeSize then resizeSymbolTable t else .ok t)
  let (t, symbol) ← newSymbol t ⟨name, hashString name, data⟩
  let t ← enterHash "%s: cannot add '%s', already in table!" t symbol name
  -- `symbol_count + 1`
  let _ ← int32 (t.symbolCount + 1)
  .ok ({ t with symbolCount := t.symbolCount + 1 }, symbol)

/-- `MD_rename_symbol`. -/
def renameSymbol (t : Table Entry) (symbol : Addr) (newName : Name) : Run (Table Entry) := do
  let s ← t.symbols.get symbol
  let (symbols, hash) ← unlinkHash t.symbols t.hash symbol (hashIndex t.hashMask s.entry.hashVal)
  let symbols ← symbols.modify (some symbol) fun s ↦
    { s with entry := { s.entry with name := newName, hashVal := hashString newName } }
  enterHash "%s: cannot rename to '%s', already in table!"
    { t with symbols := symbols, hash := hash } symbol newName

/-- `_MD_find_symbol_data`. -/
def findSymbolData (t : Table Entry) (name : Name) : Run (Option Addr) := do
  let hashHead ← readHash t.hash (hashIndex t.hashMask (hashString name))
  let symbol ← searchHash (sameName name) t.symbols t.symbols.fuel hashHead
  match symbol with
  | none => .ok none
  | some symbol => do
    let s ← t.symbols.get symbol
    .ok s.entry.data

/-- `MD_delete_symbol`. What the free routine does with the data is outside the table. -/
def deleteSymbol (t : Table Entry) (symbol : Addr) : Run (Table Entry) := do
  let s ← t.symbols.get symbol
  let (symbols, hash) ← unlinkHash t.symbols t.hash symbol (hashIndex t.hashMask s.entry.hashVal)
  let t ← unlinkSymbol { t with symbols := symbols, hash := hash } symbol
  .ok { t with symbols := t.symbols.free symbol, symbolCount := t.symbolCount - 1 }

/-- The calls that change a table. -/
inductive Call where
  | add (name : Name) (data : Option Addr)
  | rename (symbol : Addr) (newName : Name)
  | delete (symbol : Addr)
  deriving DecidableEq

/-- One call, and the symbol that an addition returns. -/
def call (t : Table Entry) : Call → Run (Table Entry × Option Addr)
  | .add name data => do
    let (t, symbol) ← addSymbol t name data
    .ok (t, some symbol)
  | .rename symbol newName => do
    let t ← renameSymbol t symbol newName
    .ok (t, none)
  | .delete symbol => do
    let t ← deleteSymbol t symbol
    .ok (t, none)

/-- Calls in turn. -/
def runCalls (t : Table Entry) : List Call → Run (Table Entry × List (Option Addr))
  | [] => .ok (t, [])
  | c :: cs => do
    let (t, r) ← call t c
    let (t, rs) ← runCalls t cs
    .ok (t, r :: rs)

end OpenImpact.MdSymbol
