import Mathlib.Data.Nat.Digits.Defs
import OpenImpact.Library.MdSymbolSize

/-!
# Symbol tables as insertion-ordered maps

`OrderedMap` is the map: symbols with names and data, in the order in which they were added. `implements_runCalls`
says that after any additions, renamings and deletions whose calls find what they need (`CallOk`) the table
implements it: the list of contents, the chains and their links are right, and `_MD_find_symbol_data` answers by
the current names.

The theorem rests on two invariants. `Implements`, for the names, the chains and the list, needs no bound. `Sized`
says that `hash_size` is an `int`; an addition keeps it only when it finds fewer symbols than `limit`, since a
table of `2^30` chains cannot be doubled (`not_implements_addNumbers`). That `malloc` and `L_alloc` give memory is
not claimed.
-/

namespace OpenImpact.MdSymbol

open Foundation SymbolTable Libmd

/-! ### The map -/

/-- Symbols with their names and data. -/
abbrev OrderedMap := List (Addr × Name × Option Addr)

namespace OrderedMap

/-- What a call needs: a name that no symbol has, or no other one, and a symbol that is there. -/
def CallOk (m : OrderedMap) : Call → Prop
  | .add name _ => ∀ x ∈ m, x.2.1 ≠ name
  | .rename symbol newName => symbol ∈ m.map Prod.fst ∧ ∀ x ∈ m, x.1 ≠ symbol → x.2.1 ≠ newName
  | .delete symbol => symbol ∈ m.map Prod.fst

/-- The map after a call, with the symbol that an addition returned. -/
def after (m : OrderedMap) : Call → Option Addr → OrderedMap
  | .add name data, some a => m ++ [(a, name, data)]
  | .rename symbol newName, _ =>
    m.map fun x ↦ if x.1 = symbol then (x.1, newName, x.2.2) else x
  | .delete symbol, _ => m.filter fun x ↦ x.1 ≠ symbol
  | _, _ => m

/-- The map after calls that returned these symbols. An addition returns a symbol that was not there. -/
inductive Run : OrderedMap → List Call → List (Option Addr) → OrderedMap → Prop
  | nil (m) : Run m [] [] m
  | cons {m c cs r rs m'} (hok : m.CallOk c)
      (hadd : ∀ name data, c = .add name data → ∃ a, r = some a ∧ a ∉ m.map Prod.fst)
      (hrest : Run (m.after c r) cs rs m') : Run m (c :: cs) (r :: rs) m'

end OrderedMap

/-- The symbol with its fields. -/
def toEntry (x : Addr × Name × Option Addr) : Addr × Entry :=
  (x.1, ⟨x.2.1, hashString x.2.1, x.2.2⟩)

/-- The table implements the map: no two symbols have the same name. -/
structure Implements (t : Table Entry) (m : OrderedMap) : Prop
    extends Represents Entry.hashVal t (m.map toEntry) where
  names : (m.map fun x ↦ x.2.1).Nodup

section Spec

variable {t : Table Entry} {m pre post : OrderedMap} {x y : Addr × Name × Option Addr} {name : Name}

theorem map_fst_toEntry : (m.map toEntry).map Prod.fst = m.map Prod.fst := by
  rw [List.map_map]
  rfl

/-- **`_MD_find_symbol_data`.** -/
theorem findSymbolData_spec (ht : Implements t m) (name : Name) :
    ∃ d, findSymbolData t name = .ok d ∧ (∀ x ∈ m, x.2.1 = name → d = x.2.2) ∧
      ((∀ x ∈ m, x.2.1 ≠ name) → d = none) := by
  obtain ⟨hashHead, r, hread, hsearch, hsome, hnone⟩ := searchHash_spec ht.toLinked
    (p := sameName name) (q := fun e : Entry ↦ decide (e.hashVal = hashString name ∧ e.name = name))
    (v := hashString name) (fun x hx s hs ↦ by rw [sameName, hs])
    (fun x hx hq ↦ (of_decide_eq_true hq).1)
  simp only [findSymbolData, hread, hsearch, Run.ok_bind]
  cases r with
  | none =>
    have habsent (x : Addr × Name × Option Addr) (hx : x ∈ m) : x.2.1 ≠ name := fun hname ↦ by
      have hq := of_decide_eq_false (hnone rfl (toEntry x) (List.mem_map_of_mem hx))
      exact hq ⟨congrArg hashString hname, hname⟩
    exact ⟨none, rfl, fun x hx hname ↦ absurd hname (habsent x hx), fun _ ↦ rfl⟩
  | some a =>
    obtain ⟨e, hmem, hq⟩ := hsome a rfl
    obtain ⟨y, hy, heq⟩ := List.mem_map.1 hmem
    have hname : y.2.1 = name := by
      have := (of_decide_eq_true hq).2
      rwa [← congrArg (fun p : Addr × Entry ↦ p.2.name) heq] at this
    obtain ⟨s, hs, hentry⟩ := ht.node hmem
    refine ⟨y.2.2, ?_, fun x hx hxname ↦ ?_, fun hno ↦ absurd hname (hno y hy)⟩
    · simp only [get_of_node hs, Run.ok_bind, hentry]
      exact congrArg Except.ok (congrArg (fun p : Addr × Entry ↦ p.2.data) heq.symm)
    · rw [List.inj_on_of_nodup_map ht.names hx hy (hxname.trans hname.symm)]

/-- A symbol enters the hash chains under a name that is not there. -/
theorem enterHash_spec (msg : String) {live : List (Addr × Entry)} {hashed : Set (Addr × Entry)}
    {z : Addr × Entry} (hl : Linked Entry.hashVal t live hashed)
    (hnew : ∀ x ∈ hashed, x.2.name ≠ z.2.name) (hz : z ∈ live) (hnot : z ∉ hashed)
    (hval : z.2.hashVal = hashString z.2.name) :
    ∃ t', enterHash msg t z.1 z.2.name = .ok t' ∧
      Linked Entry.hashVal t' live (insert z hashed) ∧ t'.symbolCount = t.symbolCount := by
  obtain ⟨hashHead, r, hread, hsearch, hsome, -⟩ := searchHash_spec hl (p := sameName z.2.name)
    (q := fun e : Entry ↦ decide (e.hashVal = hashString z.2.name ∧ e.name = z.2.name))
    (v := hashString z.2.name) (fun x hx s hs ↦ by rw [sameName, hs])
    (fun x hx hq ↦ (of_decide_eq_true hq).1)
  have hr : r = none := by
    cases r with
    | none => rfl
    | some a =>
      obtain ⟨e, hmem, hq⟩ := hsome a rfl
      exact absurd (of_decide_eq_true hq).2 (hnew _ hmem)
  subst hr
  obtain ⟨h', hash', hpush, hl'⟩ := pushHash_spec hl hz hnot
  rw [Table.index, hval] at hpush
  refine ⟨_, ?_, hl', rfl⟩
  simp only [enterHash, hread, hsearch, Run.ok_bind, hpush]

/-- **`MD_add_symbol`**, under a name that no symbol has, in a table with room. -/
theorem addSymbol_spec {expectedSize : ℤ} (ht : Implements t m) (hs : Sized expectedSize t)
    (data : Option Addr) (hnew : ∀ x ∈ m, x.2.1 ≠ name) (hlt : m.length < limit expectedSize) :
    ∃ t' a, addSymbol t name data = .ok (t', a) ∧ Implements t' (m ++ [(a, name, data)]) ∧
      Sized expectedSize t' := by
  have hcount : t.symbolCount = m.length := ht.count.trans (List.length_map _)
  obtain ⟨t₀, hresize, hr₀, hs₀, hroom⟩ := roomFor_spec ht.toRepresents hs (hcount ▸ hlt)
  have hcount₀ : t₀.symbolCount = m.length := hr₀.count.trans (List.length_map _)
  obtain ⟨t₁, hsymbol, hl₁, hne, hcount₁, -⟩ :=
    newSymbol_spec hr₀.toLinked ⟨name, hashString name, data⟩
  obtain ⟨t₂, henter, hl₂, hcount₂⟩ := enterHash_spec
    "%s: cannot add '%s', already in table!" hl₁
    (fun z hz ↦ by
      obtain ⟨x, hx, rfl⟩ := List.mem_map.1 hz
      exact hnew x hx)
    (List.mem_append_right _ List.mem_cons_self) (fun hmem ↦ hne _ hmem rfl) rfl
  have hset : insert (t₀.symbols.fresh, ⟨name, hashString name, data⟩) {y | y ∈ m.map toEntry} =
      {y | y ∈ (m ++ [(t₀.symbols.fresh, name, data)]).map toEntry} := by
    ext y
    simp [toEntry, or_comm]
  rw [hset] at hl₂
  have hcount' : t₂.symbolCount = m.length := hcount₂.trans (hcount₁.trans hcount₀)
  have hint : int32 ((t₂.symbolCount : ℤ) + 1) = .ok ((t₂.symbolCount : ℤ) + 1) := by
    have hle := limit_le expectedSize
    exact int32_eq (by omega)
  have hsame := (sameSize_newSymbol hsymbol).trans (sameSize_enterHash henter)
  refine ⟨{ t₂ with symbolCount := t₂.symbolCount + 1 }, t₀.symbols.fresh, ?_,
    { (List.map_append (f := toEntry) ▸ hl₂ :
        Linked Entry.hashVal t₂ ((m ++ [(t₀.symbols.fresh, name, data)]).map toEntry) _) with
      count := ?_, names := ?_ }, ⟨?_, ?_⟩⟩
  · rw [addSymbol, hresize, Run.ok_bind, hsymbol, Run.ok_bind]
    dsimp only
    rw [henter, Run.ok_bind, hint, Run.ok_bind]
  · rw [List.length_map, List.length_append]
    dsimp only
    rw [hcount']
    rfl
  · rw [List.map_append, List.nodup_append]
    refine ⟨ht.names, List.nodup_singleton _, fun n hn n' hn' ↦ ?_⟩
    obtain ⟨x, hx, rfl⟩ := List.mem_map.1 hn
    rw [List.mem_singleton.1 hn']
    exact hnew x hx
  · dsimp only
    rw [hsame.hashSize, hsame.resizeSize]
    exact hs₀.size
  · dsimp only
    rw [hsame.resizeSize, hcount', ← hcount₀]
    exact hroom

/-- Symbols of the map at one address are one symbol. -/
theorem Implements.eq_of_addr (ht : Implements t m) (hx : x ∈ m) (hy : y ∈ m) (heq : x.1 = y.1) :
    x = y :=
  List.inj_on_of_nodup_map (map_fst_toEntry (m := m) ▸ ht.nodup) hx hy heq

/-- **`MD_rename_symbol`**, to a name that no other symbol has. -/
theorem renameSymbol_spec (ht : Implements t (pre ++ x :: post))
    (hnew : ∀ y ∈ pre ++ x :: post, y.1 ≠ x.1 → y.2.1 ≠ name) :
    ∃ t', renameSymbol t x.1 name = .ok t' ∧ Implements t' (pre ++ (x.1, name, x.2.2) :: post) := by
  have hx : x ∈ pre ++ x :: post := List.mem_append_right pre List.mem_cons_self
  have hmem : toEntry x ∈ (pre ++ x :: post).map toEntry := List.mem_map_of_mem hx
  obtain ⟨s, hs, hentry⟩ := ht.node hmem
  obtain ⟨h₁, hash₁, hunlink, hl₁⟩ := unlinkHash_spec ht.toLinked hmem
    (i := hashIndex t.hashMask s.entry.hashVal) fun _ _ _ ↦ by rw [hentry, Table.index]
  obtain ⟨s₁, hs₁, hentry₁⟩ := hl₁.node hmem
  rw [List.map_append, List.map_cons] at hl₁
  rw [diff_middle (hl₁.nodup.of_map _), ← List.map_append] at hl₁
  -- the other symbols
  have hother {y : Addr × Name × Option Addr} (hy : y ∈ pre ++ post) :
      y ∈ pre ++ x :: post ∧ y.1 ≠ x.1 := by
    have hsub := ((List.sublist_cons_self x post).append_left pre).subset hy
    refine ⟨hsub, fun heq ↦ ?_⟩
    have hnodup := ht.names.of_map _
    rw [List.nodup_middle, List.nodup_cons] at hnodup
    exact hnodup.1 (ht.eq_of_addr hsub hx heq ▸ hy)
  have hnotMem {w : Name × Option Addr} : toEntry (x.1, w) ∉ {y | y ∈ (pre ++ post).map toEntry} := by
    intro hw
    obtain ⟨y, hy, heq⟩ := List.mem_map.1 hw
    have haddr : (toEntry y).1 = x.1 := congrArg Prod.fst heq
    exact (hother hy).2 haddr
  have hl₂ := setEntry_spec hl₁ (hnotMem (w := x.2)) hs₁
    { s₁.entry with name := name, hashVal := hashString name }
  have hz : ((toEntry x).1, { s₁.entry with name := name, hashVal := hashString name }) =
      toEntry (x.1, name, x.2.2) := by
    rw [hentry₁]
    rfl
  rw [hz] at hl₂
  obtain ⟨t₂, henter, hl₃, hcount⟩ := enterHash_spec (z := toEntry (x.1, name, x.2.2))
    "%s: cannot rename to '%s', already in table!" hl₂
    (fun z hz ↦ by
      obtain ⟨y, hy, rfl⟩ := List.mem_map.1 hz
      exact hnew y (hother hy).1 (hother hy).2)
    (List.mem_append_right _ List.mem_cons_self) hnotMem rfl
  rw [List.map_append, insert_middle, ← List.map_cons, ← List.map_append] at hl₃
  refine ⟨t₂, ?_, { hl₃ with count := ?_, names := ?_ }⟩
  · have hs' : t.symbols.node x.1 = some s := hs
    have hs₁' : h₁.node x.1 = some s₁ := hs₁
    have hunlink' : unlinkHash t.symbols t.hash x.1 (hashIndex t.hashMask s.entry.hashVal) =
        .ok (h₁, hash₁) := hunlink
    simp only [renameSymbol, get_of_node hs', Run.ok_bind, hunlink', Symbols.modify,
      get_of_node hs₁']
    exact henter
  · have hlength := ht.count
    rw [hcount, List.length_map, List.length_append, List.length_cons]
    rw [List.length_map, List.length_append, List.length_cons] at hlength
    exact hlength
  · have hnodup := ht.names
    rw [List.map_append, List.map_cons, List.nodup_middle, List.nodup_cons, ← List.map_append]
      at hnodup ⊢
    refine ⟨fun hmem ↦ ?_, hnodup.2⟩
    obtain ⟨y, hy, heq⟩ := List.mem_map.1 hmem
    exact hnew y (hother hy).1 (hother hy).2 heq

/-- **`MD_delete_symbol`.** -/
theorem deleteSymbol_spec (ht : Implements t (pre ++ x :: post)) :
    ∃ t', deleteSymbol t x.1 = .ok t' ∧ Implements t' (pre ++ post) := by
  have hmem : toEntry x ∈ (pre ++ x :: post).map toEntry :=
    List.mem_map_of_mem (List.mem_append_right pre List.mem_cons_self)
  obtain ⟨s, hs, hentry⟩ := ht.node hmem
  have hr := ht.toRepresents
  rw [List.map_append, List.map_cons] at hr
  obtain ⟨h₁, hash₁, t₂, hhash, hlist, hr₂⟩ := delete_spec hr
    (i := hashIndex t.hashMask s.entry.hashVal) fun _ _ _ ↦ by rw [hentry, Table.index]
  rw [← List.map_append] at hr₂
  refine ⟨_, ?_, { hr₂ with names := ?_ }⟩
  · have hs' : t.symbols.node x.1 = some s := hs
    have hhash' : unlinkHash t.symbols t.hash x.1 (hashIndex t.hashMask s.entry.hashVal) =
        .ok (h₁, hash₁) := hhash
    have hlist' : unlinkSymbol { t with symbols := h₁, hash := hash₁ } x.1 = .ok t₂ := hlist
    simp only [deleteSymbol, get_of_node hs', Run.ok_bind, hhash', hlist']
    rfl
  · exact ht.names.sublist (((List.sublist_cons_self x post).append_left pre).map _)

end Spec

/-! ### Runs -/

/-- Every call meets a condition on the symbols that it finds. -/
def CallsAlong (p : OrderedMap → Call → Prop) : Table Entry → OrderedMap → List Call → Prop
  | _, _, [] => True
  | t, m, c :: cs => p m c ∧
      match call t c with
      | .ok (t', r) => CallsAlong p t' (m.after c r) cs
      | .error _ => True

instance OrderedMap.CallOk.decidable (m : OrderedMap) : ∀ c, Decidable (m.CallOk c)
  | .add name _ => inferInstanceAs (Decidable (∀ x ∈ m, x.2.1 ≠ name))
  | .rename symbol newName => inferInstanceAs
      (Decidable (symbol ∈ m.map Prod.fst ∧ ∀ x ∈ m, x.1 ≠ symbol → x.2.1 ≠ newName))
  | .delete symbol => inferInstanceAs (Decidable (symbol ∈ m.map Prod.fst))

instance CallsAlong.decidable (p : OrderedMap → Call → Prop) [∀ m c, Decidable (p m c)] :
    ∀ t m cs, Decidable (CallsAlong p t m cs)
  | _, _, [] => inferInstanceAs (Decidable True)
  | t, m, c :: cs =>
    haveI : Decidable (match call t c with
        | .ok (t', r) => CallsAlong p t' (m.after c r) cs
        | .error _ => True) :=
      match call t c with
      | .ok (t', r) => CallsAlong.decidable p t' (m.after c r) cs
      | .error _ => inferInstanceAs (Decidable True)
    inferInstanceAs (Decidable (p m c ∧ _))

/-- The table need not be made larger than `2^30` chains, or than the `2^31` that it starts with. -/
def Fits (expectedSize : ℤ) (m : OrderedMap) : Call → Prop
  | .add _ _ => m.length < limit expectedSize
  | _ => True

instance Fits.decidable (expectedSize : ℤ) (m : OrderedMap) : ∀ c, Decidable (Fits expectedSize m c)
  | .add _ _ => inferInstanceAs (Decidable (m.length < limit expectedSize))
  | .rename _ _ | .delete _ => inferInstanceAs (Decidable True)

section Runs

variable {t : Table Entry} {m : OrderedMap} {expectedSize : ℤ}

/-- The table after a step that leaves its array as it is and adds no symbol. -/
theorem Implements.sized (ht : Implements t m) (hs : Sized expectedSize t) {t' : Table Entry} {m' : OrderedMap}
    (hsame : SameSize t t') (ht' : Implements t' m') (hle : m'.length ≤ m.length) : Sized expectedSize t' := by
  refine hs.congr hsame ?_
  rw [ht.count, ht'.count, List.length_map, List.length_map]
  exact hle

/-- **One call.** -/
theorem call_spec (ht : Implements t m) (hs : Sized expectedSize t) {c : Call} (hok : m.CallOk c)
    (hfits : Fits expectedSize m c) :
    ∃ t' r, call t c = .ok (t', r) ∧ Implements t' (m.after c r) ∧ Sized expectedSize t' ∧
      ∀ name data, c = .add name data → ∃ a, r = some a ∧ a ∉ m.map Prod.fst := by
  cases c with
  | add name data =>
    obtain ⟨t', a, hrun, ht', hs'⟩ := addSymbol_spec ht hs data hok hfits
    refine ⟨t', some a, ?_, ht', hs', fun _ _ _ ↦ ⟨a, rfl, fun hmem ↦ ?_⟩⟩
    · rw [call, hrun, Run.ok_bind]
    · have hnodup := ht'.nodup
      rw [map_fst_toEntry, List.map_append, List.nodup_append] at hnodup
      exact hnodup.2.2 a hmem a List.mem_cons_self rfl
  | rename symbol newName =>
    obtain ⟨hmem, hnew⟩ := hok
    obtain ⟨x, hx, rfl⟩ := List.mem_map.1 hmem
    obtain ⟨pre, post, rfl⟩ := List.append_of_mem hx
    obtain ⟨t', hrun, ht'⟩ := renameSymbol_spec ht hnew
    have hs' := ht.sized hs (sameSize_renameSymbol hrun) ht' (by simp)
    refine ⟨t', none, by rw [call, hrun, Run.ok_bind], ?_, hs', fun _ _ h ↦ nomatch h⟩
    have hother {l : OrderedMap} (hl : ∀ y ∈ l, y.1 ≠ x.1) :
        (l.map fun y ↦ if y.1 = x.1 then (y.1, newName, y.2.2) else y) = l := by
      conv_rhs => rw [← List.map_id l]
      exact List.map_congr_left fun y hy ↦ if_neg (hl y hy)
    have hnodup := ht.nodup
    rw [map_fst_toEntry, List.map_append, List.map_cons, List.nodup_append, List.nodup_cons] at hnodup
    rw [OrderedMap.after, List.map_append, List.map_cons, if_pos rfl,
      hother fun y hy ↦ hnodup.2.2 y.1 (List.mem_map_of_mem hy) x.1 List.mem_cons_self,
      hother fun y hy heq ↦ hnodup.2.1.1 (heq ▸ List.mem_map_of_mem hy)]
    exact ht'
  | delete symbol =>
    obtain ⟨x, hx, rfl⟩ := List.mem_map.1 hok
    obtain ⟨pre, post, rfl⟩ := List.append_of_mem hx
    obtain ⟨t', hrun, ht'⟩ := deleteSymbol_spec ht
    have hs' := ht.sized hs (sameSize_deleteSymbol hrun) ht' (by simp)
    refine ⟨t', none, by rw [call, hrun, Run.ok_bind], ?_, hs', fun _ _ h ↦ nomatch h⟩
    have hnodup := ht.nodup
    rw [map_fst_toEntry] at hnodup
    rw [OrderedMap.after, filter_addr_ne hnodup]
    exact ht'

/-- Calls from any table. -/
theorem implements_of_implements (ht : Implements t m) (hs : Sized expectedSize t) {calls : List Call}
    (hok : CallsAlong OrderedMap.CallOk t m calls) (hfits : CallsAlong (Fits expectedSize) t m calls) :
    ∃ t' rs m', runCalls t calls = .ok (t', rs) ∧ OrderedMap.Run m calls rs m' ∧ Implements t' m' := by
  induction calls generalizing t m with
  | nil => exact ⟨t, [], m, rfl, .nil m, ht⟩
  | cons c cs ih =>
    obtain ⟨hcall, hrest⟩ := hok
    obtain ⟨hfit, hfits⟩ := hfits
    obtain ⟨t₁, r, hrun₁, ht₁, hs₁, hadd⟩ := call_spec ht hs hcall hfit
    rw [hrun₁] at hrest hfits
    obtain ⟨t', rs, m', hrun, hmap, ht'⟩ := ih ht₁ hs₁ hrest hfits
    refine ⟨t', r :: rs, m', ?_, .cons hcall hadd hmap, ht'⟩
    rw [runCalls, hrun₁, Run.ok_bind]
    simp only [hrun, Run.ok_bind]

/-- **Calls from a new table** leave one that implements the map, and in it every name is found that a symbol
has, and no other, when no addition finds more symbols than the chains can be doubled for. -/
theorem implements_runCalls (hsize : expectedSize ≤ 1000000000) :
    ∃ t, newSymbolTable expectedSize = .ok t ∧ ∀ calls, CallsAlong OrderedMap.CallOk t [] calls →
      CallsAlong (Fits expectedSize) t [] calls →
      ∃ t' rs m, runCalls t calls = .ok (t', rs) ∧ OrderedMap.Run [] calls rs m ∧ Implements t' m ∧
        ∀ name, ∃ d, findSymbolData t' name = .ok d ∧ (∀ x ∈ m, x.2.1 = name → d = x.2.2) ∧
          ((∀ x ∈ m, x.2.1 ≠ name) → d = none) := by
  obtain ⟨t, hnew, hr⟩ : ∃ t, newSymbolTable expectedSize = .ok t ∧
      Represents Entry.hashVal t [] := newTable_spec hsize
  refine ⟨t, hnew, fun calls hok hfits ↦ ?_⟩
  have ht : Implements t [] := { hr with names := List.nodup_nil }
  obtain ⟨t', rs, m, hrun, hmap, ht'⟩ := implements_of_implements ht (sized_newSymbolTable hnew) hok hfits
  exact ⟨t', rs, m, hrun, hmap, ht', findSymbolData_spec ht'⟩

/-! ### Long runs -/

/-- A number in decimal digits, the last one first. -/
def decimal (i : ℕ) : Name := (Nat.digits 10 i).map fun d ↦ UInt8.ofNat (48 + d)

theorem decimal_injective : Function.Injective decimal := by
  have hdigits (i : ℕ) : (decimal i).map (fun ch ↦ ch.toNat - 48) = Nat.digits 10 i := by
    rw [decimal, List.map_map]
    conv_rhs => rw [← List.map_id (Nat.digits 10 i)]
    refine List.map_congr_left fun d hd ↦ ?_
    have hlt : d < 10 := Nat.digits_lt_base (by decide) hd
    have hch : (UInt8.ofNat (48 + d)).toNat = 48 + d := by
      rw [UInt8.toNat_ofNat', Nat.mod_eq_of_lt (by omega)]
    rw [Function.comp_apply, hch, Nat.add_sub_cancel_left]
    rfl
  intro i j hij
  rw [← Nat.ofDigits_digits 10 i, ← Nat.ofDigits_digits 10 j, ← hdigits i, ← hdigits j, hij]

/-- Symbols are added that are named by so many numbers from one on. -/
def addNumbers : ℕ → ℕ → List Call
  | _, 0 => []
  | i, n + 1 => .add (decimal i) none :: addNumbers (i + 1) n

/-- The table is doubled, a symbol is renamed, the first and the last are deleted, and names are used again. -/
def doublesTable : List Call :=
  addNumbers 0 30 ++ [.rename 12 [97], .delete 0, .delete 29, .add (decimal 12) (some 7), .rename 12 (decimal 0)]

set_option maxRecDepth 4000 in
theorem implements_runCalls_doublesTable :
    ∃ t, newSymbolTable 0 = .ok t ∧
      ∃ t' rs m, runCalls t doublesTable = .ok (t', rs) ∧ OrderedMap.Run [] doublesTable rs m ∧ Implements t' m ∧
        ∀ name, ∃ d, findSymbolData t' name = .ok d ∧ (∀ x ∈ m, x.2.1 = name → d = x.2.2) ∧
          ((∀ x ∈ m, x.2.1 ≠ name) → d = none) := by
  obtain ⟨t, hnew, hruns⟩ := implements_runCalls (by decide : (0 : ℤ) ≤ 1000000000)
  obtain rfl : emptyTable 32 = t := Except.ok.inj hnew
  exact ⟨emptyTable 32, hnew, hruns doublesTable (by decide +kernel) (by decide +kernel)⟩

theorem callOk_decimal {i : ℕ} (hnames : ∀ x ∈ m, ∃ j < i, x.2.1 = decimal j) :
    m.CallOk (.add (decimal i) none) := by
  intro x hx heq
  obtain ⟨j, hj, hxj⟩ := hnames x hx
  exact hj.ne (decimal_injective (hxj.symm.trans heq))

/-- **The names of numbers**, added until the table is full: the next addition overflows. -/
theorem runCalls_addNumbers {i n : ℕ} (ht : Implements t m) (hs : Sized expectedSize t) (hlength : m.length = i)
    (hnames : ∀ x ∈ m, ∃ j < i, x.2.1 = decimal j) (hn : i + n = limit expectedSize) :
    CallsAlong OrderedMap.CallOk t m (addNumbers i (n + 1)) ∧
      runCalls t (addNumbers i (n + 1)) = .error .overflow := by
  induction n generalizing i t m with
  | zero =>
    have hcall : call t (.add (decimal i) none) = .error .overflow := by
      have hcount : t.symbolCount = m.length := ht.count.trans (List.length_map _)
      rw [call, addSymbol, roomFor_overflow hs (by omega)]
      rfl
    refine ⟨⟨callOk_decimal hnames, ?_⟩, ?_⟩
    · rw [hcall]
      trivial
    · rw [addNumbers, runCalls, hcall]
      rfl
  | succ n ih =>
    have hfits : Fits expectedSize m (.add (decimal i) none) := by
      rw [Fits]
      omega
    obtain ⟨t₁, r, hrun, ht₁, hs₁, hadd⟩ := call_spec ht hs (callOk_decimal hnames) hfits
    obtain ⟨a, rfl, -⟩ := hadd _ _ rfl
    rw [OrderedMap.after] at ht₁
    have hnames₁ : ∀ x ∈ m ++ [(a, decimal i, none)], ∃ j < i + 1, x.2.1 = decimal j := by
      intro x hx
      rcases List.mem_append.1 hx with hx | hx
      · obtain ⟨j, hj, hxj⟩ := hnames x hx
        exact ⟨j, hj.trans (Nat.lt_succ_self i), hxj⟩
      · rw [List.mem_singleton.1 hx]
        exact ⟨i, Nat.lt_succ_self i, rfl⟩
    obtain ⟨hok₁, hrun₁⟩ := ih ht₁ hs₁ (by rw [List.length_append, hlength]; rfl) hnames₁ (by omega)
    refine ⟨⟨callOk_decimal hnames, ?_⟩, ?_⟩
    · rw [hrun]
      exact hok₁
    · rw [addNumbers, runCalls, hrun, Run.ok_bind]
      simp only [hrun₁]
      rfl

/-- A table of 32 chains is doubled while symbols are added, and with `2^30` chains and 805306368 symbols it
cannot be doubled again. -/
theorem not_implements_addNumbers :
    ∃ t, newSymbolTable 0 = .ok t ∧ CallsAlong OrderedMap.CallOk t [] (addNumbers 0 805306369) ∧
      ¬∃ t' rs, runCalls t (addNumbers 0 805306369) = .ok (t', rs) := by
  have hnew : newSymbolTable 0 = .ok (emptyTable 32) := rfl
  have hr : Represents Entry.hashVal (emptyTable 32) [] := represents_emptyTable 5
  have ht : Implements (emptyTable 32) [] := { hr with names := List.nodup_nil }
  obtain ⟨hok, hrun⟩ := runCalls_addNumbers (i := 0) (n := 805306368) ht (sized_newSymbolTable hnew) rfl
    (fun x hx ↦ absurd hx List.not_mem_nil) rfl
  refine ⟨emptyTable 32, hnew, hok, ?_⟩
  rintro ⟨t', rs, h⟩
  rw [hrun] at h
  cases h

end Runs

end OpenImpact.MdSymbol
