import OpenImpact.Foundation.DoublyLinked
import OpenImpact.Library.Halt

/-!
# Symbol tables

What the symbol tables of `md.c` and `l_operand_symbol.c` have in common: symbols in the order in which
they were added, and the same symbols in hash chains. The array of the chains doubles when it is three
quarters full. `malloc` and `L_alloc` do not fail; the code punts when they do. Sizes are natural numbers
here; where a run can be long enough for them to leave the range of `int`, the functions of the module in
question check that (`MdSymbol.resizeSymbolTable`).
-/

namespace OpenImpact.SymbolTable

open Foundation

variable {γ : Type}

/-- A symbol: its own fields and its links. There is one table, so `table` is left out. -/
structure Symbol (γ : Type) where
  entry : γ
  nextHash : Option Addr
  prevHash : Option Addr
  nextSymbol : Option Addr
  prevSymbol : Option Addr
  deriving DecidableEq

/-- The symbols allocated and not freed. -/
structure Symbols (γ : Type) where
  node : Addr → Option (Symbol γ)
  fresh : Addr

/-- A table with its symbols. `hashSize` is the size of the array and `hashMask` one less; the `int` fields
for them hold the same bits, as long as the size is below `2^32`. -/
structure Table (γ : Type) where
  symbols : Symbols γ
  hash : List (Option Addr)
  hashSize : ℕ
  hashMask : ℕ
  resizeSize : ℕ
  headSymbol : Option Addr
  tailSymbol : Option Addr
  symbolCount : ℕ

namespace Symbols

/-- `*a`. -/
def get (h : Symbols γ) (a : Addr) : Run (Symbol γ) :=
  match h.node a with
  | none => .error .fault
  | some s => .ok s

def set (h : Symbols γ) (a : Addr) (s : Symbol γ) : Symbols γ :=
  { h with node := Function.update h.node a (some s) }

/-- `if (a) *a = f (*a)`. -/
def modify (h : Symbols γ) (a : Option Addr) (f : Symbol γ → Symbol γ) : Run (Symbols γ) :=
  match a with
  | none => .ok h
  | some a => do
    let s ← h.get a
    .ok (h.set a (f s))

/-- `L_alloc`. -/
def alloc (h : Symbols γ) (s : Symbol γ) : Symbols γ :=
  { h.set h.fresh s with fresh := h.fresh + 1 }

/-- `L_free`. -/
def free (h : Symbols γ) (a : Addr) : Symbols γ :=
  { h with node := Function.update h.node a none }

/-- Loops over the symbols get this much fuel. -/
def fuel (h : Symbols γ) : ℕ := h.fresh + 1

end Symbols

/-- `hash_val & hash_mask`. -/
def hashIndex (hashMask : ℕ) (hashVal : BitVec 32) : ℕ := hashVal.toNat &&& hashMask

/-- `table->hash[i]`. -/
def readHash (hash : List (Option Addr)) (i : ℕ) : Run (Option Addr) :=
  match hash[i]? with
  | none => .error .fault
  | some a => .ok a

/-- `table->hash[i] = a`. -/
def writeHash (hash : List (Option Addr)) (i : ℕ) (a : Option Addr) : Run (List (Option Addr)) :=
  if i < hash.length then .ok (hash.set i a) else .error .fault

/-- The loop that doubles `hash_size`. -/
def doubleUntil (minSize : ℕ) : ℕ → ℕ → Run ℕ
  | 0, _ => .error .outOfFuel
  | fuel + 1, hashSize =>
    if hashSize < minSize then doubleUntil minSize fuel (hashSize <<< 1) else .ok hashSize

/-- A table without symbols. -/
def emptyTable (hashSize : ℕ) : Table γ where
  symbols := ⟨fun _ ↦ none, 0⟩
  hash := List.replicate hashSize none
  hashSize := hashSize
  hashMask := hashSize - 1
  resizeSize := hashSize - hashSize >>> 2
  headSymbol := none
  tailSymbol := none
  symbolCount := 0

/-- A new table, with the message for a size that is too large. -/
def newTable (msg : String) (expectedSize : ℤ) : Run (Table γ) := do
  let expectedSize := if expectedSize < 0 then 0 else expectedSize
  if expectedSize > 1000000000 then .error (.punt msg)
  else do
    let hashSize ← doubleUntil (expectedSize * 2).toNat 32 32
    .ok (emptyTable hashSize)

/-- "Add symbol to head of linked list." -/
def pushHash (h : Symbols γ) (hash : List (Option Addr)) (symbol : Addr) (i : ℕ) :
    Run (Symbols γ × List (Option Addr)) := do
  let hashHead ← readHash hash i
  let h ← h.modify (some symbol) fun s ↦ { s with nextHash := hashHead, prevHash := none }
  let h ← h.modify hashHead fun s ↦ { s with prevHash := some symbol }
  let hash ← writeHash hash i (some symbol)
  .ok (h, hash)

/-- `if (prev_hash == NULL) table->hash[i] = next_hash`. -/
def unlinkHead (hash : List (Option Addr)) (i : ℕ) (s : Symbol γ) : Run (List (Option Addr)) :=
  if s.prevHash = none then writeHash hash i s.nextHash else .ok hash

/-- "Remove symbol from hash table", where the chain is taken to be that of `i`. -/
def unlinkHash (h : Symbols γ) (hash : List (Option Addr)) (symbol : Addr) (i : ℕ) :
    Run (Symbols γ × List (Option Addr)) := do
  let s ← h.get symbol
  let hash ← unlinkHead hash i s
  let h ← h.modify s.prevHash fun s' ↦ { s' with nextHash := s.nextHash }
  let h ← h.modify s.nextHash fun s' ↦ { s' with prevHash := s.prevHash }
  .ok (h, hash)

/-- "Add to linked list of symbols", for a symbol whose links there are set. -/
def appendSymbol (t : Table γ) (symbol : Addr) : Run (Table γ) := do
  let headSymbol := if t.tailSymbol = none then some symbol else t.headSymbol
  let symbols ← t.symbols.modify t.tailSymbol fun s ↦ { s with nextSymbol := some symbol }
  .ok { t with symbols := symbols, headSymbol := headSymbol, tailSymbol := some symbol }

/-- "Remove symbol from symbol list." -/
def unlinkSymbol (t : Table γ) (symbol : Addr) : Run (Table γ) := do
  let s ← t.symbols.get symbol
  let headSymbol := if s.prevSymbol = none then s.nextSymbol else t.headSymbol
  let symbols ← t.symbols.modify s.prevSymbol fun s' ↦ { s' with nextSymbol := s.nextSymbol }
  let tailSymbol := if s.nextSymbol = none then s.prevSymbol else t.tailSymbol
  let symbols ← symbols.modify s.nextSymbol fun s' ↦ { s' with prevSymbol := s.prevSymbol }
  .ok { t with symbols := symbols, headSymbol := headSymbol, tailSymbol := tailSymbol }

/-- The loops over a hash chain: the first symbol with the property. -/
def searchHash (p : Symbol γ → Run Bool) (h : Symbols γ) : ℕ → Option Addr → Run (Option Addr)
  | _, none => .ok none
  | 0, some _ => .error .outOfFuel
  | fuel + 1, some symbol => do
    let s ← h.get symbol
    let found ← p s
    if found then .ok (some symbol) else searchHash p h fuel s.nextHash

/-- A new symbol at the end of the list, not yet in a hash chain. -/
def newSymbol (t : Table γ) (entry : γ) : Run (Table γ × Addr) := do
  let symbol := t.symbols.fresh
  let symbols := t.symbols.alloc {
    entry := entry
    nextHash := none
    prevHash := none
    nextSymbol := none
    prevSymbol := t.tailSymbol }
  let t ← appendSymbol { t with symbols := symbols } symbol
  .ok (t, symbol)

section Resize

variable (hashVal : γ → BitVec 32)

/-- The loop over the symbols when the table is resized. -/
def rehash (newHashMask : ℕ) : ℕ → Option Addr → Symbols γ → List (Option Addr) →
    Run (Symbols γ × List (Option Addr))
  | _, none, h, newHash => .ok (h, newHash)
  | 0, some _, _, _ => .error .outOfFuel
  | fuel + 1, some symbol, h, newHash => do
    let s ← h.get symbol
    let (h, newHash) ← pushHash h newHash symbol (hashIndex newHashMask (hashVal s.entry))
    let s ← h.get symbol
    rehash newHashMask fuel s.nextSymbol h newHash

/-- "Doubles the symbol table hash array size." -/
def resizeTable (t : Table γ) : Run (Table γ) := do
  let newHashSize := t.hashSize * 2
  let newHashMask := newHashSize - 1
  let (symbols, hash) ← rehash hashVal newHashMask t.symbols.fuel t.headSymbol t.symbols
    (List.replicate newHashSize none)
  .ok { t with
    symbols := symbols
    hash := hash
    hashSize := newHashSize
    hashMask := newHashMask
    resizeSize := newHashSize - newHashSize >>> 2 }

/-- "Increase symbol table size if necessary." -/
def resizeIfFull (t : Table γ) : Run (Table γ) :=
  if t.symbolCount ≥ t.resizeSize then resizeTable hashVal t else .ok t

end Resize

end OpenImpact.SymbolTable
