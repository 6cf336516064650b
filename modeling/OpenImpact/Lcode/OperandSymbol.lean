import OpenImpact.Library.SymbolTable

/-!
# The operand symbol table

`l_operand_symbol.c`. Symbols are for pointers to operands, and an operand does not change while it is in
the table. Pointers fit an `int`.
-/

namespace OpenImpact.OperandSymbol

open Foundation SymbolTable

/-- `L_Operand`, with `value` as `value.init`, whose `u` is also `value.r`. -/
structure Operand where
  type : BitVec 8
  ctype : BitVec 8
  ptype : BitVec 8
  u : BitVec 32
  l : BitVec 32
  deriving DecidableEq

/-- What the memory at a pointer is when it is read as an `L_Operand`. -/
abbrev Operands := Addr → Option Operand

/-- The fields of `OPERAND_Symbol` that are no links. -/
structure Entry where
  value : Addr
  hashVal : BitVec 32
  data : Option Addr
  deriving DecidableEq

/-- An operand behind a pointer. -/
def readOperand (opds : Operands) (opd : Option Addr) : Run Operand :=
  match opd.bind opds with
  | none => .error .fault
  | some o => .ok o

/-- `OPERAND_Hash_Value`, which is `value.r`: what it makes of the types is not used. -/
def hashValue (opd : Operand) : BitVec 32 := opd.u

/-- `OPERAND_new_symbol_table`. -/
def newSymbolTable (expectedSize : ℤ) : Run (Table Entry) :=
  newTable "OPERAND_Symbol_Table: unreasonable expected_size (%u)" expectedSize

section Calls

variable (opds : Operands)

/-- The comparison of `OPERAND_find_symbol_data`. -/
def sameOperand (opd : Operand) (s : Symbol Entry) : Run Bool := do
  let tableOpd ← readOperand opds s.entry.value
  .ok (tableOpd = opd)

/-- The comparison of `OPERAND_add_symbol` and `OPERAND_find_symbol`. -/
def sameHashAndOperand (opd : Operand) (s : Symbol Entry) : Run Bool :=
  if s.entry.hashVal = hashValue opd then sameOperand opds opd s else .ok false

/-- `OPERAND_add_symbol`. -/
def addSymbol (t : Table Entry) (opd : Addr) (data : Option Addr) : Run (Table Entry × Addr) := do
  -- `OPERAND_resize_symbol_table`
  let t ← resizeIfFull Entry.hashVal t
  let o ← readOperand opds opd
  let i := hashIndex t.hashMask (hashValue o)
  let hashHead ← readHash t.hash i
  let checkSymbol ← searchHash (sameHashAndOperand opds o) t.symbols t.symbols.fuel hashHead
  match checkSymbol with
  | some _ => .error (.punt "%s: cannot add operand, already in table!")
  | none => do
    let (t, symbol) ← newSymbol t ⟨opd, hashValue o, data⟩
    let (symbols, hash) ← pushHash t.symbols t.hash symbol i
    .ok ({ t with symbols := symbols, hash := hash, symbolCount := t.symbolCount + 1 }, symbol)

/-- `OPERAND_find_symbol`. -/
def findSymbol (t : Table Entry) (opd : Addr) : Run (Option Addr) := do
  let o ← readOperand opds opd
  let hashHead ← readHash t.hash (hashIndex t.hashMask (hashValue o))
  searchHash (sameHashAndOperand opds o) t.symbols t.symbols.fuel hashHead

/-- `OPERAND_find_symbol_data`. -/
def findSymbolData (t : Table Entry) (opd : Addr) : Run (Option Addr) := do
  let o ← readOperand opds opd
  let hashHead ← readHash t.hash (hashIndex t.hashMask (hashValue o))
  let symbol ← searchHash (sameOperand opds o) t.symbols t.symbols.fuel hashHead
  match symbol with
  | none => .ok none
  | some symbol => do
    let s ← t.symbols.get symbol
    .ok s.entry.data

/-- `OPERAND_delete_symbol`. What the free routine does with the data is outside the table. -/
def deleteSymbol (t : Table Entry) (symbol : Addr) : Run (Table Entry) := do
  let s ← t.symbols.get symbol
  -- the hash value is that of the data
  let o ← readOperand opds s.entry.data
  let i := hashIndex t.hashMask (hashValue o)
  let (symbols, hash) ← unlinkHash t.symbols t.hash symbol i
  let t ← unlinkSymbol { t with symbols := symbols, hash := hash } symbol
  .ok { t with symbols := t.symbols.free symbol, symbolCount := t.symbolCount - 1 }

/-- The calls that use a table. -/
inductive Call where
  | add (opd : Addr) (data : Option Addr)
  | delete (symbol : Addr)
  | find (opd : Addr)
  | findData (opd : Addr)
  deriving DecidableEq

/-- What a call returns. -/
inductive Result where
  | symbol (a : Option Addr)
  | data (d : Option Addr)
  | unit
  deriving DecidableEq

/-- One call. -/
def call (t : Table Entry) : Call → Run (Table Entry × Result)
  | .add opd data => do
    let (t, symbol) ← addSymbol opds t opd data
    .ok (t, .symbol symbol)
  | .delete symbol => do
    let t ← deleteSymbol opds t symbol
    .ok (t, .unit)
  | .find opd => do
    let symbol ← findSymbol opds t opd
    .ok (t, .symbol symbol)
  | .findData opd => do
    let data ← findSymbolData opds t opd
    .ok (t, .data data)

/-- Calls in turn. -/
def runCalls (t : Table Entry) : List Call → Run (Table Entry × List Result)
  | [] => .ok (t, [])
  | c :: cs => do
    let (t, r) ← call opds t c
    let (t, rs) ← runCalls t cs
    .ok (t, r :: rs)

end Calls

end OpenImpact.OperandSymbol
