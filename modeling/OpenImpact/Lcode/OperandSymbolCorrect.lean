import OpenImpact.Lcode.OperandSymbol
import OpenImpact.Library.SymbolTableCorrect

/-!
# What the operand symbol table holds

All calls keep the table and answer by its symbols (`served_runCalls`), except that the deletion of the
first symbol of a chain writes to the chain of the data, taken for an operand.

The theorem is about runs from a new table, and rests on `Represents` of the symbol table that this
one is an instance of, with the operands behind the addresses as a parameter. `RunFits` is the
condition of a run: an operand that is added is not there yet, and the data of a symbol that is
first in its chain hash to that chain when it is deleted. What happens to data when a symbol is
deleted is up to the caller.
-/

namespace OpenImpact.OperandSymbol

open Foundation SymbolTable

/-- The table holds the symbols of the list, each for another operand. -/
structure IsTable (opds : Operands) (t : Table Entry) (live : List (Addr × Entry)) : Prop
    extends Represents Entry.hashVal t live where
  entry : ∀ x ∈ live, ∃ o, opds x.2.value = some o ∧ x.2.hashVal = hashValue o
  distinct : (live.map fun x ↦ opds x.2.value).Nodup

section Spec

variable {opds : Operands} {t : Table Entry} {live pre post : List (Addr × Entry)}
  {x y : Addr × Entry} {o : Operand} {opd : Addr}

theorem readOperand_eq_ok (ho : opds opd = some o) : readOperand opds (some opd) = .ok o := by
  rw [readOperand, Option.bind_some, ho]

/-- Symbols for one operand are one symbol. -/
theorem IsTable.eq_of_operand (ht : IsTable opds t live) (hx : x ∈ live) (hy : y ∈ live)
    (heq : opds x.2.value = opds y.2.value) : x = y :=
  List.inj_on_of_nodup_map ht.distinct hx hy heq

theorem sameOperand_eq (ht : IsTable opds t live) (hx : x ∈ live) {s : Symbol Entry}
    (hs : s.entry = x.2) : sameOperand opds o s = .ok (decide (opds x.2.value = some o)) := by
  obtain ⟨o', ho', -⟩ := ht.entry x hx
  rw [sameOperand, hs, readOperand_eq_ok ho', Run.ok_bind, ho']
  exact congrArg Except.ok (decide_eq_decide.2 Option.some_inj.symm)

theorem sameHashAndOperand_eq (ht : IsTable opds t live) (hx : x ∈ live) {s : Symbol Entry}
    (hs : s.entry = x.2) :
    sameHashAndOperand opds o s = .ok (decide (opds x.2.value = some o)) := by
  rw [sameHashAndOperand, sameOperand_eq ht hx hs]
  split_ifs with hsame
  · rfl
  · refine congrArg Except.ok (decide_eq_false fun ho ↦ hsame ?_).symm
    obtain ⟨o', ho', hval⟩ := ht.entry x hx
    rw [hs, hval, Option.some.inj (ho'.symm.trans ho)]

/-- **The search** for an operand finds its symbol. -/
theorem search_eq (ht : IsTable opds t live) {p : Symbol Entry → Run Bool}
    (hp : ∀ x ∈ live, ∀ s : Symbol Entry, s.entry = x.2 →
      p s = .ok (decide (opds x.2.value = some o))) :
    ∃ hashHead r, readHash t.hash (hashIndex t.hashMask (hashValue o)) = .ok hashHead ∧
      searchHash p t.symbols t.symbols.fuel hashHead = .ok r ∧
      ∀ a, r = some a ↔ ∃ e, (a, e) ∈ live ∧ opds e.value = some o := by
  obtain ⟨hashHead, r, hread, hsearch, hsome, hnone⟩ := searchHash_spec ht.toLinked
    (q := fun e : Entry ↦ decide (opds e.value = some o)) (v := hashValue o) hp fun x hx hq ↦ by
      obtain ⟨o', ho', hval⟩ := ht.entry x hx
      rw [hval, Option.some.inj (ho'.symm.trans (of_decide_eq_true hq))]
  refine ⟨hashHead, r, hread, hsearch, fun a ↦ ⟨fun ha ↦ ?_, ?_⟩⟩
  · obtain ⟨e, hmem, hq⟩ := hsome a ha
    exact ⟨e, hmem, of_decide_eq_true hq⟩
  · rintro ⟨e, hmem, ho⟩
    cases r with
    | none => exact absurd ho (of_decide_eq_false (hnone rfl _ hmem))
    | some a' =>
      obtain ⟨e', hmem', hq⟩ := hsome a' rfl
      have heq := ht.eq_of_operand hmem' hmem ((of_decide_eq_true hq).trans ho.symm)
      exact congrArg some (congrArg Prod.fst heq)

/-- **`OPERAND_find_symbol`.** -/
theorem findSymbol_spec (ht : IsTable opds t live) (ho : opds opd = some o) :
    ∃ r, findSymbol opds t opd = .ok r ∧
      ∀ a, r = some a ↔ ∃ e, (a, e) ∈ live ∧ opds e.value = some o := by
  obtain ⟨hashHead, r, hread, hsearch, hspec⟩ := search_eq (o := o) ht fun x hx s hs ↦
    sameHashAndOperand_eq ht hx hs
  refine ⟨r, ?_, hspec⟩
  rw [findSymbol, readOperand_eq_ok ho, Run.ok_bind, hread, Run.ok_bind, hsearch]

/-- **`OPERAND_find_symbol_data`.** -/
theorem findSymbolData_spec (ht : IsTable opds t live) (ho : opds opd = some o) :
    ∃ d, findSymbolData opds t opd = .ok d ∧
      (∀ x ∈ live, opds x.2.value = some o → d = x.2.data) ∧
      ((∀ x ∈ live, opds x.2.value ≠ some o) → d = none) := by
  obtain ⟨hashHead, r, hread, hsearch, hspec⟩ := search_eq (o := o) ht fun x hx s hs ↦
    sameOperand_eq ht hx hs
  simp only [findSymbolData, readOperand_eq_ok ho, Run.ok_bind, hread, hsearch]
  cases r with
  | none =>
    refine ⟨none, rfl, fun x hx hxo ↦ ?_, fun _ ↦ rfl⟩
    exact absurd ((hspec x.1).2 ⟨x.2, hx, hxo⟩) (Option.some_ne_none _).symm
  | some a =>
    obtain ⟨e, hmem, he⟩ := (hspec a).1 rfl
    obtain ⟨s, hs, rfl⟩ := ht.node hmem
    refine ⟨s.entry.data, ?_, fun x hx hxo ↦ ?_, fun hnone ↦ absurd he (hnone _ hmem)⟩
    · simp only [get_of_node hs, Run.ok_bind]
    · rw [ht.eq_of_operand hx hmem (hxo.trans he.symm)]

/-- **`OPERAND_add_symbol`**, for an operand that is not in the table. -/
theorem addSymbol_spec (ht : IsTable opds t live) (ho : opds opd = some o) (data : Option Addr)
    (hnew : ∀ x ∈ live, opds x.2.value ≠ some o) :
    ∃ t' a, addSymbol opds t opd data = .ok (t', a) ∧
      IsTable opds t' (live ++ [(a, ⟨opd, hashValue o, data⟩)]) := by
  obtain ⟨t₀, hresize, hr₀⟩ := resizeIfFull_spec ht.toRepresents
  have ht₀ : IsTable opds t₀ live := { hr₀ with entry := ht.entry, distinct := ht.distinct }
  obtain ⟨hashHead, r, hread, hsearch, hspec⟩ := search_eq (o := o) ht₀ fun x hx s hs ↦
    sameHashAndOperand_eq ht₀ hx hs
  have hr : r = none := by
    cases r with
    | none => rfl
    | some a =>
      obtain ⟨e, hmem, he⟩ := (hspec a).1 rfl
      exact absurd he (hnew _ hmem)
  subst hr
  obtain ⟨t₁, h₂, hash₂, hsymbol, -, hmask, hpush, hr₂⟩ := add_spec hr₀ ⟨opd, hashValue o, data⟩
  rw [Table.index, hmask] at hpush
  refine ⟨_, t₀.symbols.fresh, ?_, { hr₂ with entry := ?_, distinct := ?_ }⟩
  · simp only [addSymbol, hresize, Run.ok_bind, readOperand_eq_ok ho, hread, hsearch, hsymbol, hpush]
  · intro x hx
    obtain hx | hx := List.mem_append.1 hx
    · exact ht.entry x hx
    · rw [List.mem_singleton.1 hx]
      exact ⟨o, ho, rfl⟩
  · rw [List.map_append, List.nodup_append]
    refine ⟨ht.distinct, List.nodup_singleton _, fun a ha b hb ↦ ?_⟩
    obtain ⟨x, hx, rfl⟩ := List.mem_map.1 ha
    rw [List.mem_singleton.1 hb]
    exact fun heq ↦ hnew x hx (heq.trans ho)

/-- The index that the deletion of a symbol uses is that of its chain, where it is used. -/
def DataFits (opds : Operands) (t : Table Entry) (a : Addr) : Prop :=
  ∀ s, t.symbols.node a = some s → ∃ p d, s.entry.data = some p ∧ opds p = some d ∧
    (s.prevHash = none →
      hashIndex t.hashMask (hashValue d) = hashIndex t.hashMask s.entry.hashVal)

/-- **`OPERAND_delete_symbol`**, with data that fit. -/
theorem deleteSymbol_spec (ht : IsTable opds t (pre ++ x :: post)) (hfit : DataFits opds t x.1) :
    ∃ t', deleteSymbol opds t x.1 = .ok t' ∧ IsTable opds t' (pre ++ post) := by
  obtain ⟨s, hs, hentry⟩ := ht.node (List.mem_append_right pre List.mem_cons_self)
  obtain ⟨p, d, hdata, hd, hindex⟩ := hfit s hs
  obtain ⟨h₁, hash₁, t₂, hhash, hlist, hr₂⟩ := delete_spec ht.toRepresents
    (i := hashIndex t.hashMask (hashValue d)) fun s' hs' hprev ↦ by
      obtain rfl := Option.some.inj (hs.symm.trans hs')
      rw [hindex hprev, hentry, Table.index]
  have hsublist : (pre ++ post).Sublist (pre ++ x :: post) :=
    (List.sublist_cons_self x post).append_left pre
  refine ⟨_, ?_, { hr₂ with entry := ?_, distinct := ?_ }⟩
  · simp only [deleteSymbol, get_of_node hs, Run.ok_bind, hdata, readOperand_eq_ok hd, hhash, hlist]
  · exact fun y hy ↦ ht.entry y (hsublist.subset hy)
  · exact ht.distinct.sublist (hsublist.map _)

end Spec

/-! ### Runs -/

section Runs

variable (opds : Operands)

/-- What a call needs of its caller: operands behind the pointers, an operand that is new, a symbol that is
in the table. -/
def CallOk (live : List (Addr × Entry)) : Call → Prop
  | .add opd _ => ∃ o, opds opd = some o ∧ ∀ x ∈ live, opds x.2.value ≠ some o
  | .delete symbol => symbol ∈ live.map Prod.fst
  | .find opd => (opds opd).isSome
  | .findData opd => (opds opd).isSome

/-- What a deletion needs of the data. -/
def DeleteFits (t : Table Entry) : Call → Prop
  | .delete symbol => DataFits opds t symbol
  | _ => True

/-- The symbols after a call, by what it was and what it returned. -/
def after (live : List (Addr × Entry)) : Call → Result → List (Addr × Entry)
  | .add opd data, .symbol (some a) =>
    live ++ [(a, ⟨opd, (opds opd).elim 0 hashValue, data⟩)]
  | .delete symbol, _ => live.filter fun x ↦ x.1 ≠ symbol
  | _, _ => live

/-- What a call is to return. -/
def ResultOk (live : List (Addr × Entry)) : Call → Result → Prop
  | .add _ _, .symbol (some a) => a ∉ live.map Prod.fst
  | .delete _, .unit => True
  | .find opd, .symbol r => ∀ a, r = some a ↔ ∃ e, (a, e) ∈ live ∧ opds e.value = opds opd
  | .findData opd, .data d => (∀ x ∈ live, opds x.2.value = opds opd → d = x.2.data) ∧
      ((∀ x ∈ live, opds x.2.value ≠ opds opd) → d = none)
  | _, _ => False

/-- The calls return what they are to return, and leave the symbols of the last list. -/
inductive Served : List (Addr × Entry) → List Call → List Result → List (Addr × Entry) → Prop
  | nil (live) : Served live [] [] live
  | cons {live c cs r rs live'} : ResultOk opds live c r → Served (after opds live c r) cs rs live' →
      Served live (c :: cs) (r :: rs) live'

/-- Every call of a run finds what it needs. -/
def RunFits : Table Entry → List (Addr × Entry) → List Call → Prop
  | _, _, [] => True
  | t, live, c :: cs => CallOk opds live c ∧ DeleteFits opds t c ∧
      match call opds t c with
      | .ok (t', r) => RunFits t' (after opds live c r) cs
      | .error _ => True

variable {opds} {t : Table Entry} {live : List (Addr × Entry)}

/-- **One call.** -/
theorem call_spec (ht : IsTable opds t live) {c : Call} (hok : CallOk opds live c)
    (hfit : DeleteFits opds t c) :
    ∃ t' r, call opds t c = .ok (t', r) ∧ ResultOk opds live c r ∧
      IsTable opds t' (after opds live c r) := by
  cases c with
  | add opd data =>
    obtain ⟨o, ho, hnew⟩ := hok
    obtain ⟨t', a, hrun, ht'⟩ := addSymbol_spec ht ho data hnew
    refine ⟨t', .symbol (some a), ?_, ?_, ?_⟩
    · rw [call, hrun, Run.ok_bind]
    · have hnodup := ht'.nodup
      rw [List.map_append, List.nodup_append] at hnodup
      exact fun hmem ↦ hnodup.2.2 a hmem a List.mem_cons_self rfl
    · rwa [after, ho]
  | delete symbol =>
    obtain ⟨x, hx, rfl⟩ := List.mem_map.1 hok
    obtain ⟨pre, post, rfl⟩ := List.append_of_mem hx
    obtain ⟨t', hrun, ht'⟩ := deleteSymbol_spec ht hfit
    refine ⟨t', .unit, ?_, trivial, ?_⟩
    · rw [call, hrun, Run.ok_bind]
    · rw [after, filter_addr_ne ht.nodup]
      exact ht'
  | find opd =>
    obtain ⟨o, ho⟩ := Option.isSome_iff_exists.1 hok
    obtain ⟨r, hrun, hspec⟩ := findSymbol_spec ht ho
    refine ⟨t, .symbol r, ?_, ?_, ht⟩
    · rw [call, hrun, Run.ok_bind]
    · rwa [ResultOk, ho]
  | findData opd =>
    obtain ⟨o, ho⟩ := Option.isSome_iff_exists.1 hok
    obtain ⟨d, hrun, hspec⟩ := findSymbolData_spec ht ho
    refine ⟨t, .data d, ?_, ?_, ht⟩
    · rw [call, hrun, Run.ok_bind]
    · rwa [ResultOk, ho]

/-- Calls from any table. -/
theorem served_of_isTable (ht : IsTable opds t live) {calls : List Call}
    (hfit : RunFits opds t live calls) :
    ∃ t' rs live', runCalls opds t calls = .ok (t', rs) ∧ Served opds live calls rs live' ∧
      IsTable opds t' live' := by
  induction calls generalizing t live with
  | nil => exact ⟨t, [], live, rfl, .nil live, ht⟩
  | cons c cs ih =>
    obtain ⟨hok, hdelete, hrest⟩ := hfit
    obtain ⟨t₁, r, hcall, hresult, ht₁⟩ := call_spec ht hok hdelete
    rw [hcall] at hrest
    obtain ⟨t', rs, live', hrun, hserved, ht'⟩ := ih ht₁ hrest
    refine ⟨t', r :: rs, live', ?_, .cons hresult hserved, ht'⟩
    rw [runCalls, hcall, Run.ok_bind]
    dsimp only
    rw [hrun, Run.ok_bind]

/-- **Any calls from a new table** return what they are to return and leave a table of the symbols that are
left, if every deletion finds data that fit. -/
theorem served_runCalls {expectedSize : ℤ} (hnew : newSymbolTable expectedSize = .ok t)
    {calls : List Call} (hfit : RunFits opds t [] calls) :
    ∃ t' rs live, runCalls opds t calls = .ok (t', rs) ∧ Served opds [] calls rs live ∧
      IsTable opds t' live := by
  have hle : expectedSize ≤ 1000000000 := by
    by_contra hgt
    have hsize : (if expectedSize < 0 then 0 else expectedSize) = expectedSize := if_neg (by omega)
    rw [newSymbolTable, newTable, hsize, if_pos (by omega)] at hnew
    cases hnew
  obtain ⟨t₀, ht₀, hr⟩ : ∃ t₀, newSymbolTable expectedSize = .ok t₀ ∧
      Represents Entry.hashVal t₀ [] := newTable_spec hle
  obtain rfl := Except.ok.inj (ht₀.symm.trans hnew)
  exact served_of_isTable { hr with
    entry := fun x hx ↦ absurd hx List.not_mem_nil
    distinct := List.nodup_nil } hfit

/-- Operands at the addresses 1, 2 and 3, the first two with hash values of one chain. -/
def chainedOperands : Operands
  | 1 => some ⟨0, 0, 0, 1, 0⟩
  | 2 => some ⟨0, 0, 0, 33, 0⟩
  | 3 => some ⟨0, 0, 0, 7, 0⟩
  | _ => none

/-- Two operands of one chain, the first one with other data. It is deleted from behind the second one, and
then the second one is. -/
def chainedCalls : List Call :=
  [.add 1 (some 3), .add 2 (some 2), .findData 1, .delete 0, .find 1, .find 2, .delete 1, .find 2]

theorem served_runCalls_chained :
    ∃ t' rs live, runCalls chainedOperands (emptyTable 32) chainedCalls = .ok (t', rs) ∧
      Served chainedOperands [] chainedCalls rs live ∧ IsTable chainedOperands t' live := by
  have hnew : newSymbolTable 0 = .ok (emptyTable 32) := rfl
  refine served_runCalls hnew (And.intro ⟨_, rfl, fun x hx ↦ absurd hx List.not_mem_nil⟩
    (And.intro trivial ?_))
  refine And.intro ⟨_, rfl, fun x hx ↦ ?_⟩ (And.intro trivial ?_)
  · obtain rfl := List.mem_singleton.1 hx
    decide
  refine And.intro rfl (And.intro trivial ?_)
  refine And.intro (.head _) (And.intro ?_ ?_)
  · rintro s hs
    cases hs
    exact ⟨3, _, rfl, rfl, fun hprev ↦ nomatch hprev⟩
  refine And.intro rfl (And.intro trivial (And.intro rfl (And.intro trivial ?_)))
  refine And.intro (.head _) (And.intro ?_ ?_)
  · rintro s hs
    cases hs
    exact ⟨2, _, rfl, rfl, fun _ ↦ rfl⟩
  exact And.intro rfl (And.intro trivial trivial)

/-- Two operands with hash values `1` and `2`, at the addresses `1` and `2`. -/
def twoOperands : Operands
  | 1 => some ⟨0, 0, 0, 1, 0⟩
  | 2 => some ⟨0, 0, 0, 2, 0⟩
  | _ => none

/-- An operand is added with another one as data, deleted and looked up. -/
def otherData : List Call := [.add 1 (some 2), .delete 0, .find 1]

/-- The deletion leaves the chain of the operand with the symbol that it frees; and with data that are
`NULL` it reads them as an operand. -/
theorem not_runCalls_otherData :
    newSymbolTable 0 = .ok (emptyTable 32) ∧
      runCalls twoOperands (emptyTable 32) otherData = .error .fault ∧
      runCalls twoOperands (emptyTable 32) [.add 1 none, .delete 0] = .error .fault :=
  ⟨rfl, rfl, rfl⟩

end Runs

end OpenImpact.OperandSymbol
