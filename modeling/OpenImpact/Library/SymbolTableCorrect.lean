import OpenImpact.Library.SymbolTable
import Mathlib.Data.Nat.Bitwise
import Mathlib.Data.Set.Insert

/-!
# What a symbol table holds

`Linked`: the symbols of a list, linked in the list's order, and in the hash chains those of a set, each in
the chain of its index. One lemma for each of the changes that the tables' functions are made of.
-/

namespace OpenImpact.SymbolTable

open Foundation

variable {γ : Type}

/-! ### The two lists as heaps of nodes -/

/-- A symbol as a node of its hash chain. -/
def hashNode (s : Symbol γ) : Node γ := ⟨s.prevHash, s.nextHash, s.entry⟩

/-- A symbol as a node of the contents list. -/
def listNode (s : Symbol γ) : Node γ := ⟨s.prevSymbol, s.nextSymbol, s.entry⟩

/-- The symbols as nodes. -/
def Symbols.view (V : Symbol γ → Node γ) (h : Symbols γ) : Heap γ :=
  ⟨fun a ↦ (h.node a).map V, h.fresh⟩

section View

variable {V : Symbol γ → Node γ} {h h' : Symbols γ} {a : Addr} {s : Symbol γ} {b : Node γ}

theorem view_node : (h.view V).node a = some b ↔ ∃ s, h.node a = some s ∧ V s = b :=
  Option.map_eq_some_iff

@[simp] theorem view_fresh : (h.view V).fresh = h.fresh := rfl

theorem get_of_node (hs : h.node a = some s) : h.get a = .ok s := by
  rw [Symbols.get, hs]

theorem view_set : (h.set a s).view V = (h.view V).set a (V s) := by
  rw [Symbols.view, Heap.set]
  refine congrArg (Heap.mk · h.fresh) (funext fun a' ↦ ?_)
  rcases eq_or_ne a' a with rfl | hne
  · simp [Symbols.set]
  · simp [Symbols.set, Symbols.view, Function.update_of_ne hne]

theorem view_alloc : (h.alloc s).view V = (h.view V).alloc (V s) :=
  congrArg (fun v : Heap γ ↦ ({ v with fresh := h.fresh + 1 } : Heap γ)) (view_set (V := V))

theorem view_free : (h.free a).view V = (h.view V).free a := by
  rw [Symbols.view, Heap.free]
  refine congrArg (Heap.mk · h.fresh) (funext fun a' ↦ ?_)
  rcases eq_or_ne a' a with rfl | hne
  · simp [Symbols.free]
  · simp [Symbols.free, Symbols.view, Function.update_of_ne hne]

/-- A change of the symbol that one of the lists shows and the other does not. -/
theorem modify_of_view {W : Symbol γ → Node γ} {o : Option Addr} {f : Symbol γ → Symbol γ}
    {g : Node γ → Node γ} {v : Heap γ} (hV : ∀ s, V (f s) = g (V s))
    (hW : ∀ s, W (f s) = W s) (hmod : (h.view V).modify o g = some v) :
    ∃ h', h.modify o f = .ok h' ∧ h'.view V = v ∧ h'.view W = h.view W := by
  cases o with
  | none => exact ⟨h, rfl, Option.some.inj hmod, rfl⟩
  | some a =>
    obtain ⟨b, hb, rfl⟩ := Option.map_eq_some_iff.1 hmod
    obtain ⟨s, hs, rfl⟩ := view_node.1 hb
    refine ⟨h.set a (f s), ?_, ?_, ?_⟩
    · rw [Symbols.modify, get_of_node hs, Run.ok_bind]
    · rw [view_set, hV]
    · rw [view_set, hW]
      refine congrArg (Heap.mk · h.fresh) (Function.update_eq_self_iff.2 ?_)
      exact (view_node.2 ⟨s, hs, rfl⟩).symm

end View

/-! ### Hash chains -/

/-- The array of the chains, the links in them, and which symbols they hold. -/
structure HashChains (idx : γ → ℕ) (v : Heap γ) (hash : List (Option Addr)) (hashed : Set (Addr × γ))
    (chains : ℕ → List (Addr × γ)) : Prop where
  head : ∀ i < hash.length, hash[i]? = some (Heap.headAddr none (chains i))
  linked : ∀ i, v.Chain none (chains i) none
  nodup : ∀ i, ((chains i).map Prod.fst).Nodup
  mem : ∀ i x, x ∈ chains i ↔ x ∈ hashed ∧ idx x.2 = i

section Chains

variable {idx : γ → ℕ} {v v' : Heap γ} {hash hash' : List (Option Addr)}
  {hashed hashed' : Set (Addr × γ)} {chains : ℕ → List (Addr × γ)} {l : List (Addr × γ)} {i : ℕ}

/-- A change in one chain. -/
theorem HashChains.update (hc : HashChains idx v hash hashed chains)
    (hlen : hash'.length = hash.length) (hset : ∀ j ≠ i, hash'[j]? = hash[j]?)
    (hframe : ∀ j ≠ i, ∀ y ∈ chains j, v'.node y.1 = v.node y.1)
    (hhead : i < hash.length → hash'[i]? = some (Heap.headAddr none l))
    (hlinked : v'.Chain none l none) (hnodup : (l.map Prod.fst).Nodup)
    (hmem : ∀ y, y ∈ l ↔ y ∈ hashed' ∧ idx y.2 = i)
    (hother : ∀ y, idx y.2 ≠ i → (y ∈ hashed' ↔ y ∈ hashed)) :
    HashChains idx v' hash' hashed' (Function.update chains i l) where
  head j hj := by
    rw [hlen] at hj
    rcases eq_or_ne j i with rfl | hne
    · rw [Function.update_self, hhead hj]
    · rw [Function.update_of_ne hne, hset j hne, hc.head j hj]
  linked j := by
    rcases eq_or_ne j i with rfl | hne
    · rwa [Function.update_self]
    · rw [Function.update_of_ne hne]
      exact (hc.linked j).congr (hframe j hne)
  nodup j := by
    rcases eq_or_ne j i with rfl | hne
    · rwa [Function.update_self]
    · rw [Function.update_of_ne hne]
      exact hc.nodup j
  mem j y := by
    rcases eq_or_ne j i with rfl | hne
    · rw [Function.update_self]
      exact hmem y
    · rw [Function.update_of_ne hne, hc.mem]
      refine and_congr_left fun hj ↦ (hother y ?_).symm
      rwa [hj]

/-- A change of nodes that no chain has. -/
theorem HashChains.congr (hc : HashChains idx v hash hashed chains)
    (hframe : ∀ y ∈ hashed, v'.node y.1 = v.node y.1) : HashChains idx v' hash hashed chains where
  head := hc.head
  linked i := (hc.linked i).congr fun y hy ↦ hframe y ((hc.mem i y).1 hy).1
  nodup := hc.nodup
  mem := hc.mem

end Chains

/-! ### Tables -/

/-- A symbol's index. -/
def Table.index (hashVal : γ → BitVec 32) (t : Table γ) (e : γ) : ℕ :=
  hashIndex t.hashMask (hashVal e)

/-- The symbols of `live` in the contents list, and those of `hashed` in the hash chains. -/
structure Linked (hashVal : γ → BitVec 32) (t : Table γ) (live : List (Addr × γ))
    (hashed : Set (Addr × γ)) : Prop where
  nodup : (live.map Prod.fst).Nodup
  fresh : ∀ x ∈ live, x.1 < t.symbols.fresh
  isLive : ∀ a s, t.symbols.node a = some s → a ∈ live.map Prod.fst
  list : (t.symbols.view listNode).Chain none live none
  head : t.headSymbol = Heap.headAddr none live
  tail : t.tailSymbol = Heap.lastAddr none live
  subset : ∀ x ∈ hashed, x ∈ live
  hash : ∃ chains, HashChains (t.index hashVal) (t.symbols.view hashNode) t.hash hashed chains
  length : t.hash.length = t.hashSize
  size : ∃ k, t.hashSize = 2 ^ k
  mask : t.hashMask = t.hashSize - 1

section Linked

variable {hashVal : γ → BitVec 32} {t t' : Table γ} {live pre post : List (Addr × γ)}
  {hashed : Set (Addr × γ)} {x y : Addr × γ}

theorem hashIndex_lt {k : ℕ} (v : BitVec 32) : hashIndex (2 ^ k - 1) v < 2 ^ k := by
  rw [hashIndex, Nat.and_two_pow_sub_one_eq_mod]
  exact Nat.mod_lt _ (Nat.two_pow_pos k)

theorem Linked.index_lt (hl : Linked hashVal t live hashed) (v : BitVec 32) :
    hashIndex t.hashMask v < t.hash.length := by
  obtain ⟨k, hk⟩ := hl.size
  rw [hl.length, hl.mask, hk]
  exact hashIndex_lt v

/-- Symbols of the table at one address are one symbol. -/
theorem Linked.eq_of_addr (hl : Linked hashVal t live hashed) (hx : x ∈ live) (hy : y ∈ live)
    (heq : x.1 = y.1) : x = y :=
  List.inj_on_of_nodup_map hl.nodup hx hy heq

/-- A symbol in the list and in memory. -/
theorem Linked.node (hl : Linked hashVal t live hashed) (hx : x ∈ live) :
    ∃ s, t.symbols.node x.1 = some s ∧ s.entry = x.2 := by
  obtain ⟨pre, post, rfl⟩ := List.append_of_mem hx
  obtain ⟨s, hs, hview⟩ := view_node.1 hl.list.node
  exact ⟨s, hs, congrArg Node.val hview⟩

theorem readHash_of_chains {idx : γ → ℕ} {v : Heap γ} {hash : List (Option Addr)}
    {chains : ℕ → List (Addr × γ)} {i : ℕ} (hc : HashChains idx v hash hashed chains)
    (hi : i < hash.length) : readHash hash i = .ok (Heap.headAddr none (chains i)) := by
  rw [readHash, hc.head i hi]

/-- A change of hash links and of the array. -/
theorem Linked.of_hash {h' : Symbols γ} {hash' : List (Option Addr)} {hashed' : Set (Addr × γ)}
    {chains' : ℕ → List (Addr × γ)} (hl : Linked hashVal t live hashed)
    (hlist : h'.view listNode = t.symbols.view listNode) (hlen : hash'.length = t.hash.length)
    (hsub : ∀ x ∈ hashed', x ∈ live)
    (hc : HashChains (t.index hashVal) (h'.view hashNode) hash' hashed' chains') :
    Linked hashVal { t with symbols := h', hash := hash' } live hashed' where
  nodup := hl.nodup
  fresh x hx := (hl.fresh x hx).trans_eq (congrArg Heap.fresh hlist).symm
  isLive a s hs := by
    have hnode : (h'.view listNode).node a = some (listNode s) := view_node.2 ⟨s, hs, rfl⟩
    rw [hlist] at hnode
    obtain ⟨s', hs', -⟩ := view_node.1 hnode
    exact hl.isLive a s' hs'
  list := hlist.symm ▸ hl.list
  head := hl.head
  tail := hl.tail
  subset := hsub
  hash := ⟨chains', hc⟩
  length := hlen.trans hl.length
  size := hl.size
  mask := hl.mask

/-- **A symbol is put in front of its chain.** -/
theorem pushHash_spec (hl : Linked hashVal t live hashed) (hx : x ∈ live) (hnot : x ∉ hashed) :
    ∃ h' hash', pushHash t.symbols t.hash x.1 (t.index hashVal x.2) = .ok (h', hash') ∧
      Linked hashVal { t with symbols := h', hash := hash' } live (insert x hashed) := by
  obtain ⟨chains, hc⟩ := hl.hash
  have hi := hl.index_lt (hashVal x.2)
  rw [← Table.index] at hi
  generalize hidx : t.index hashVal x.2 = i at hi ⊢
  have hsub : ∀ y ∈ insert x hashed, y ∈ live := by
    rintro y (rfl | hy)
    · exact hx
    · exact hl.subset y hy
  -- no chain has the symbol
  have hfresh {j : ℕ} {y : Addr × γ} (hy : y ∈ chains j) : y.1 ≠ x.1 := fun heq ↦ by
    have hmem := ((hc.mem j y).1 hy).1
    exact hnot (hl.eq_of_addr (hl.subset y hmem) hx heq ▸ hmem)
  have hnodup : ((x :: chains i).map Prod.fst).Nodup := by
    rw [List.map_cons, List.nodup_cons]
    refine ⟨fun hmem ↦ ?_, hc.nodup i⟩
    obtain ⟨y, hy, heq⟩ := List.mem_map.1 hmem
    exact hfresh hy heq
  obtain ⟨v', hlink, hchain, -, hframe⟩ := (hc.linked i).push hnodup
  obtain ⟨s, hs, hentry⟩ := hl.node hx
  -- the symbol's own links, then that of the old head
  obtain ⟨h₁, hmod₁, hview₁, hlist₁⟩ := modify_of_view (h := t.symbols) (V := hashNode)
    (W := listNode) (o := some x.1)
    (f := fun s ↦ { s with nextHash := Heap.headAddr none (chains i), prevHash := none })
    (g := fun b ↦ ⟨none, Heap.headAddr none (chains i), b.val⟩) (fun _ ↦ rfl)
    (fun _ ↦ rfl) (Option.map_eq_some_iff.2 ⟨_, view_node.2 ⟨s, hs, rfl⟩, rfl⟩)
  have hval : (hashNode s).val = x.2 := hentry
  dsimp only at hview₁
  rw [hval] at hview₁
  rw [← hview₁] at hlink
  obtain ⟨h₂, hmod₂, hview₂, hlist₂⟩ := modify_of_view (W := listNode)
    (f := fun s ↦ { s with prevHash := some x.1 }) (fun _ ↦ rfl) (fun _ ↦ rfl) hlink
  refine ⟨h₂, t.hash.set i (some x.1), ?_, ?_⟩
  · rw [pushHash, readHash_of_chains hc hi, Run.ok_bind, hmod₁, Run.ok_bind, hmod₂, Run.ok_bind,
      writeHash, if_pos hi, Run.ok_bind]
  · refine hl.of_hash (hlist₂.trans hlist₁) List.length_set hsub
      (hview₂ ▸ hc.update (i := i) (l := x :: chains i) List.length_set
        (fun j hj ↦ List.getElem?_set_ne hj.symm) (fun j hj y hy ↦ hframe y.1 fun hmem ↦ ?_)
        (fun hlt ↦ ?_) hchain hnodup (fun y ↦ ?_) fun y hy ↦ ?_)
    · rw [List.map_cons, List.mem_cons] at hmem
      obtain heq | hmem := hmem
      · exact hfresh hy heq
      · obtain ⟨z, hz, heq⟩ := List.mem_map.1 hmem
        have hyz := hl.eq_of_addr (hl.subset y ((hc.mem j y).1 hy).1)
          (hl.subset z ((hc.mem i z).1 hz).1) heq.symm
        subst hyz
        exact hj (((hc.mem j y).1 hy).2.symm.trans ((hc.mem i y).1 hz).2)
    · rw [List.getElem?_set_self hlt]
      rfl
    · rw [List.mem_cons, hc.mem, Set.mem_insert_iff]
      constructor
      · rintro (rfl | ⟨hmem, hj⟩)
        · exact ⟨.inl rfl, hidx⟩
        · exact ⟨.inr hmem, hj⟩
      · rintro ⟨rfl | hmem, hj⟩
        · exact .inl rfl
        · exact .inr ⟨hmem, hj⟩
    · rw [Set.mem_insert_iff]
      refine or_iff_right fun hyx ↦ hy ?_
      rw [hyx]
      exact hidx

/-- The loop over the symbols, after those of `done`. -/
theorem rehash_spec {done rest : List (Addr × γ)} {fuel : ℕ}
    (hl : Linked hashVal t (done ++ rest) {y | y ∈ done}) (hfuel : rest.length ≤ fuel) :
    ∃ h' hash', rehash hashVal t.hashMask fuel (Heap.headAddr none rest) t.symbols t.hash =
        .ok (h', hash') ∧
      Linked hashVal { t with symbols := h', hash := hash' } (done ++ rest)
        {y | y ∈ done ++ rest} := by
  induction rest generalizing done t fuel with
  | nil =>
    rw [List.append_nil] at hl ⊢
    refine ⟨t.symbols, t.hash, ?_, hl⟩
    cases fuel <;> rfl
  | cons x rest ih =>
    obtain ⟨fuel, rfl⟩ := Nat.exists_eq_add_of_lt hfuel
    have hx : x ∈ done ++ x :: rest := List.mem_append_right _ List.mem_cons_self
    have hnot : x ∉ {y | y ∈ done} := fun hmem ↦ by
      have hnodup := hl.nodup
      rw [List.map_append, List.map_cons, List.nodup_append] at hnodup
      exact hnodup.2.2 x.1 (List.mem_map_of_mem hmem) x.1 List.mem_cons_self rfl
    obtain ⟨s, hs, hentry⟩ := hl.node hx
    obtain ⟨h₁, hash₁, hpush, hl₁⟩ := pushHash_spec hl hx hnot
    obtain ⟨s₁, hs₁, hview₁⟩ := view_node.1 hl₁.list.node
    have hnext : s₁.nextSymbol = Heap.headAddr none rest := congrArg Node.next hview₁
    have hset : insert x {y | y ∈ done} = {y | y ∈ done ++ [x]} := by
      ext y
      simp [or_comm]
    rw [hset, List.append_cons] at hl₁
    obtain ⟨h₂, hash₂, hrun, hl₂⟩ := ih hl₁ (Nat.le_of_succ_le_succ hfuel)
    refine ⟨h₂, hash₂, ?_, by rwa [List.append_cons]⟩
    rw [Heap.headAddr_cons, rehash, get_of_node hs, Run.ok_bind, hentry]
    rw [Table.index] at hpush
    rw [hpush, Run.ok_bind]
    dsimp only at hs₁ hrun ⊢
    rw [get_of_node hs₁, Run.ok_bind, hnext, hrun]

/-- The symbols of the list are no more than have been allocated. -/
theorem Linked.length_le_fuel (hl : Linked hashVal t live hashed) :
    live.length ≤ t.symbols.fuel :=
  (Heap.length_le_fresh (h := t.symbols.view listNode) hl.nodup hl.fresh).trans (Nat.le_succ _)

/-- **Doubling.** -/
theorem resizeTable_spec (hl : Linked hashVal t live {y | y ∈ live}) :
    ∃ t', resizeTable hashVal t = .ok t' ∧ Linked hashVal t' live {y | y ∈ live} ∧
      t'.symbolCount = t.symbolCount := by
  obtain ⟨k, hk⟩ := hl.size
  let t₀ : Table γ := { t with
    hash := List.replicate (t.hashSize * 2) none
    hashSize := t.hashSize * 2
    hashMask := t.hashSize * 2 - 1
    resizeSize := t.hashSize * 2 - (t.hashSize * 2) >>> 2 }
  have hempty : Linked hashVal t₀ ([] ++ live) {y | y ∈ ([] : List (Addr × γ))} :=
    { hl with
      subset := fun x hx ↦ absurd hx List.not_mem_nil
      hash := ⟨fun _ ↦ [], {
        head := fun i hi ↦ by
          rw [List.length_replicate] at hi
          rw [List.getElem?_replicate_of_lt hi, Heap.headAddr_nil]
        linked := fun i ↦ trivial
        nodup := fun i ↦ List.nodup_nil
        mem := fun i x ↦ by simp }⟩
      length := List.length_replicate
      size := ⟨k + 1, by rw [pow_succ, ← hk]⟩
      mask := rfl }
  obtain ⟨h', hash', hrun, hl'⟩ := rehash_spec hempty hl.length_le_fuel
  rw [← hl.head] at hrun
  refine ⟨_, ?_, hl', rfl⟩
  rw [resizeTable]
  dsimp only
  rw [hrun]
  rfl

theorem resizeTable_sizes (h : resizeTable hashVal t = .ok t') :
    t'.hashSize = t.hashSize * 2 ∧ t'.resizeSize = t.hashSize * 2 - (t.hashSize * 2) >>> 2 := by
  obtain ⟨p, -, h⟩ := Run.bind_eq_ok.1 h
  obtain rfl := Except.ok.inj h
  exact ⟨rfl, rfl⟩

/-- The loop over a chain, from any of its symbols. -/
theorem searchHash_chain {h : Symbols γ} {p : Symbol γ → Run Bool} {q : Addr × γ → Bool}
    {a : Option Addr} {l : List (Addr × γ)} {fuel : ℕ} (hchain : (h.view hashNode).Chain a l none)
    (hp : ∀ x ∈ l, ∀ s : Symbol γ, s.entry = x.2 → p s = .ok (q x)) (hfuel : l.length ≤ fuel) :
    searchHash p h fuel (Heap.headAddr none l) = .ok ((l.find? q).map Prod.fst) := by
  induction l generalizing a fuel with
  | nil => cases fuel <;> rfl
  | cons x l ih =>
    obtain ⟨fuel, rfl⟩ := Nat.exists_eq_add_of_lt hfuel
    rw [List.forall_mem_cons] at hp
    obtain ⟨s, hs, hview⟩ := view_node.1 hchain.1
    have hnext : s.nextHash = Heap.headAddr none l := congrArg Node.next hview
    rw [Heap.headAddr_cons, searchHash, get_of_node hs, Run.ok_bind,
      hp.1 s (congrArg Node.val hview), Run.ok_bind, List.find?_cons, hnext,
      ih hchain.2 hp.2 (Nat.le_of_succ_le_succ hfuel)]
    cases q x <;> rfl

/-- **The search of a chain** for a property of symbols with one hash value: it finds a symbol if there is
one among those that are in the chains. -/
theorem searchHash_spec {p : Symbol γ → Run Bool} {q : γ → Bool} {v : BitVec 32}
    (hl : Linked hashVal t live hashed)
    (hp : ∀ x ∈ hashed, ∀ s : Symbol γ, s.entry = x.2 → p s = .ok (q x.2))
    (hq : ∀ x ∈ hashed, q x.2 = true → hashVal x.2 = v) :
    ∃ hashHead r, readHash t.hash (hashIndex t.hashMask v) = .ok hashHead ∧
      searchHash p t.symbols t.symbols.fuel hashHead = .ok r ∧
      (∀ a, r = some a → ∃ e, (a, e) ∈ hashed ∧ q e = true) ∧
      (r = none → ∀ x ∈ hashed, q x.2 = false) := by
  obtain ⟨chains, hc⟩ := hl.hash
  let i := hashIndex t.hashMask v
  have hsub : ∀ x ∈ chains i, x ∈ hashed := fun x hx ↦ ((hc.mem i x).1 hx).1
  have hfuel : (chains i).length ≤ t.symbols.fuel := by
    refine (Heap.length_le_fresh (h := t.symbols.view listNode) (hc.nodup i) fun y hy ↦ ?_).trans
      (Nat.le_succ _)
    exact hl.fresh y (hl.subset y (hsub y hy))
  refine ⟨_, _, readHash_of_chains hc (hl.index_lt v), searchHash_chain (hc.linked i)
    (q := fun x ↦ q x.2) (fun x hx ↦ hp x (hsub x hx)) hfuel, fun a ha ↦ ?_, fun hnone x hx ↦ ?_⟩
  · obtain ⟨x, hfind, rfl⟩ := Option.map_eq_some_iff.1 ha
    exact ⟨x.2, hsub x (List.mem_of_find?_eq_some hfind),
      List.find?_some (p := fun x : Addr × γ ↦ q x.2) hfind⟩
  · rw [Option.map_eq_none_iff, List.find?_eq_none] at hnone
    by_contra hqx
    rw [Bool.not_eq_false] at hqx
    refine hnone x ((hc.mem i x).2 ⟨hx, ?_⟩) hqx
    rw [Table.index, hq x hx hqx]

/-- **A new symbol**, in the contents list. -/
theorem newSymbol_spec (hl : Linked hashVal t live hashed) (e : γ) :
    ∃ t', newSymbol t e = .ok (t', t.symbols.fresh) ∧
      Linked hashVal t' (live ++ [(t.symbols.fresh, e)]) hashed ∧
      (∀ x ∈ live, x.1 ≠ t.symbols.fresh) ∧ t'.symbolCount = t.symbolCount ∧
      t'.hashMask = t.hashMask := by
  have hne : ∀ x ∈ live, x.1 ≠ t.symbols.fresh := fun x hx ↦ (hl.fresh x hx).ne
  have hnotMem : t.symbols.fresh ∉ live.map Prod.fst := fun hmem ↦ by
    obtain ⟨x, hx, heq⟩ := List.mem_map.1 hmem
    exact hne x hx heq
  let s₀ : Symbol γ := ⟨e, none, none, none, t.tailSymbol⟩
  have hframe {V : Symbol γ → Node γ} : ∀ x ∈ live,
      ((t.symbols.alloc s₀).view V).node x.1 = (t.symbols.view V).node x.1 := fun x hx ↦ by
    rw [view_alloc]
    exact Heap.set_node_of_ne _ (hne x hx) _
  have hnode : ((t.symbols.alloc s₀).view listNode).node t.symbols.fresh =
      some ⟨Heap.lastAddr none live, none, e⟩ := by
    rw [view_alloc, ← hl.tail]
    exact Heap.set_node_self ..
  -- the new node is linked behind the tail; the chains are seen through the other view and stay
  obtain ⟨v', hlink, hchain, hfresh, hframe'⟩ := (hl.list.congr hframe).append
    (x := (t.symbols.fresh, e)) hl.nodup hnotMem hnode
  obtain ⟨h', hmod, hview, hhash⟩ := modify_of_view (W := hashNode)
    (f := fun s ↦ { s with nextSymbol := some t.symbols.fresh }) (fun _ ↦ rfl) (fun _ ↦ rfl) hlink
  rw [← hl.tail] at hmod
  refine ⟨{ t with
    symbols := h'
    headSymbol := if t.tailSymbol = none then some t.symbols.fresh else t.headSymbol
    tailSymbol := some t.symbols.fresh }, ?_, ?_, hne, rfl, rfl⟩
  · simp only [newSymbol, appendSymbol]
    rw [hmod]
    rfl
  · exact {
      nodup := by
        rw [List.map_append, List.nodup_append]
        refine ⟨hl.nodup, List.nodup_singleton _, fun a ha b hb ↦ ?_⟩
        obtain ⟨x, hx, rfl⟩ := List.mem_map.1 ha
        rw [List.mem_singleton.1 hb]
        exact hne x hx
      fresh := fun x hx ↦ by
        have hlt : h'.fresh = t.symbols.fresh + 1 := (congrArg Heap.fresh hview).trans hfresh
        rw [hlt]
        obtain hx | hx := List.mem_append.1 hx
        · exact (hl.fresh x hx).trans (Nat.lt_succ_self _)
        · rw [List.mem_singleton.1 hx]
          exact Nat.lt_succ_self _
      isLive := fun a s hs ↦ by
        rw [List.map_append, List.mem_append]
        rcases eq_or_ne a t.symbols.fresh with rfl | hnew
        · exact .inr List.mem_cons_self
        · have hold : (h'.view hashNode).node a = some (hashNode s) := view_node.2 ⟨s, hs, rfl⟩
          rw [hhash, view_alloc] at hold
          obtain ⟨s', hs', -⟩ := view_node.1
            ((Heap.set_node_of_ne (t.symbols.view hashNode) hnew _).symm.trans hold)
          exact .inl (hl.isLive a s' hs')
      list := hview.symm ▸ hchain
      head := by
        dsimp only
        rw [hl.tail, Heap.headAddr_append]
        cases live with
        | nil => rfl
        | cons y l =>
          rw [if_neg (mt Heap.lastAddr_eq_none.1 (List.cons_ne_nil y l))]
          exact hl.head
      tail := by
        rw [Heap.lastAddr_append]
        rfl
      subset := fun x hx ↦ List.mem_append_left _ (hl.subset x hx)
      hash := by
        obtain ⟨chains, hc⟩ := hl.hash
        refine ⟨chains, ?_⟩
        rw [hhash]
        exact hc.congr fun y hy ↦ hframe y (hl.subset y hy)
      length := hl.length
      size := hl.size
      mask := hl.mask }

/-- The array of the chains when a symbol is taken out of the chain of `j`. -/
theorem unlinkHead_spec {hash : List (Option Addr)} {i j : ℕ} {s : Symbol γ} {l₁ l₂ : List (Addr × γ)}
    (hprev : s.prevHash = Heap.lastAddr none l₁) (hnext : s.nextHash = Heap.headAddr none l₂)
    (hi : s.prevHash = none → i = j) (hlt : j < hash.length)
    (hhead : hash[j]? = some (Heap.headAddr none (l₁ ++ x :: l₂))) :
    ∃ hash', unlinkHead hash i s = .ok hash' ∧ hash'.length = hash.length ∧
      (∀ k ≠ j, hash'[k]? = hash[k]?) ∧ hash'[j]? = some (Heap.headAddr none (l₁ ++ l₂)) := by
  rcases eq_or_ne l₁ [] with rfl | hnil
  · rw [Heap.lastAddr_nil] at hprev
    refine ⟨hash.set j s.nextHash, ?_, List.length_set, fun k hk ↦ List.getElem?_set_ne hk.symm, ?_⟩
    · rw [unlinkHead, if_pos hprev, hi hprev, writeHash, if_pos hlt]
    · rw [List.getElem?_set_self hlt, hnext, List.nil_append]
  · refine ⟨hash, ?_, rfl, fun k _ ↦ rfl, ?_⟩
    · rw [unlinkHead, if_neg]
      rwa [hprev, Heap.lastAddr_eq_none]
    · obtain ⟨y, l, rfl⟩ := List.exists_cons_of_ne_nil hnil
      exact hhead

/-- **A symbol is taken out of its chain.** -/
theorem unlinkHash_spec {i : ℕ} (hl : Linked hashVal t live hashed) (hx : x ∈ hashed)
    (hi : ∀ s, t.symbols.node x.1 = some s → s.prevHash = none → i = t.index hashVal x.2) :
    ∃ h' hash', unlinkHash t.symbols t.hash x.1 i = .ok (h', hash') ∧
      Linked hashVal { t with symbols := h', hash := hash' } live (hashed \ {x}) := by
  obtain ⟨chains, hc⟩ := hl.hash
  have hlt := hl.index_lt (hashVal x.2)
  rw [← Table.index] at hlt
  generalize hidx : t.index hashVal x.2 = j at hi hlt
  obtain ⟨l₁, l₂, hsplit⟩ := List.append_of_mem ((hc.mem j x).2 ⟨hx, hidx⟩)
  have hchain := hsplit ▸ hc.linked j
  have hnodup := hsplit ▸ hc.nodup j
  obtain ⟨s, hs, hview⟩ := view_node.1 hchain.node
  have hprev : s.prevHash = Heap.lastAddr none l₁ := congrArg Node.prev hview
  have hnext : s.nextHash = Heap.headAddr none l₂ := congrArg Node.next hview
  -- two links are written, through the view of the chains; the contents list stays
  obtain ⟨v₁, v₂, hlink₁, hlink₂, hchain', -, hframe⟩ := hchain.unlink hnodup
  obtain ⟨h₁, hmod₁, hview₁, hlist₁⟩ := modify_of_view (W := listNode)
    (f := fun s' ↦ { s' with nextHash := s.nextHash }) (fun _ ↦ hnext ▸ rfl) (fun _ ↦ rfl) hlink₁
  rw [← hview₁] at hlink₂
  obtain ⟨h₂, hmod₂, hview₂, hlist₂⟩ := modify_of_view (W := listNode)
    (f := fun s' ↦ { s' with prevHash := s.prevHash }) (fun _ ↦ hprev ▸ rfl) (fun _ ↦ rfl) hlink₂
  rw [← hprev] at hmod₁
  rw [← hnext] at hmod₂
  obtain ⟨hash', hwrite, hlen, hother, hhead⟩ := unlinkHead_spec hprev hnext (hi s hs) hlt
    (hsplit ▸ hc.head j hlt)
  have hnotMem : x.1 ∉ (l₁ ++ l₂).map Prod.fst := by
    rw [List.map_append, List.map_cons, List.nodup_append, List.nodup_cons] at hnodup
    rw [List.map_append, List.mem_append]
    rintro (hmem | hmem)
    · exact hnodup.2.2 x.1 hmem x.1 List.mem_cons_self rfl
    · exact hnodup.2.1.1 hmem
  have hchains {y : Addr × γ} : y ∈ l₁ ++ l₂ ↔ y ∈ chains j ∧ y ≠ x := by
    rw [hsplit, List.mem_append, List.mem_append, List.mem_cons]
    constructor
    · intro hy
      refine ⟨hy.imp_right .inr, ?_⟩
      rintro rfl
      exact hnotMem (List.mem_map_of_mem (List.mem_append.2 hy))
    · rintro ⟨hy | rfl | hy, hne⟩
      · exact .inl hy
      · exact absurd rfl hne
      · exact .inr hy
  refine ⟨h₂, hash', ?_, ?_⟩
  · rw [unlinkHash, get_of_node hs, Run.ok_bind, hwrite, Run.ok_bind, hmod₁, Run.ok_bind, hmod₂,
      Run.ok_bind]
  · refine hl.of_hash (hlist₂.trans hlist₁) hlen (fun y hy ↦ hl.subset y hy.1)
      (hview₂ ▸ hc.update (l := l₁ ++ l₂) hlen hother (fun k hk y hy ↦ ?_) (fun _ ↦ hhead) hchain' ?_
        (fun y ↦ ?_) fun y hy ↦ ?_)
    · refine hframe y.1 fun hmem ↦ ?_
      obtain ⟨z, hz, heq⟩ := List.mem_map.1 hmem
      have hzj := (hc.mem j z).1 (hchains.1 hz).1
      have hyz := hl.eq_of_addr (hl.subset y ((hc.mem k y).1 hy).1) (hl.subset z hzj.1) heq.symm
      subst hyz
      exact hk (((hc.mem k y).1 hy).2.symm.trans hzj.2)
    · rw [List.map_append, List.map_cons, List.nodup_append, List.nodup_cons] at hnodup
      rw [List.map_append, List.nodup_append]
      exact ⟨hnodup.1, hnodup.2.1.2, fun a ha b hb ↦
        hnodup.2.2 a ha b (List.mem_cons_of_mem _ hb)⟩
    · rw [hchains, hc.mem, Set.mem_sdiff, Set.mem_singleton_iff]
      exact and_right_comm
    · rw [Set.mem_sdiff, Set.mem_singleton_iff]
      refine and_iff_left fun hyx ↦ hy ?_
      rw [hyx]
      exact hidx

/-- **A symbol is taken out of the contents list** and freed. -/
theorem unlinkSymbol_spec (hl : Linked hashVal t (pre ++ x :: post) hashed) (hx : x ∉ hashed) :
    ∃ t', unlinkSymbol t x.1 = .ok t' ∧
      Linked hashVal { t' with symbols := t'.symbols.free x.1 } (pre ++ post) hashed ∧
      t'.symbolCount = t.symbolCount ∧ t'.hashMask = t.hashMask := by
  obtain ⟨s, hs, hview⟩ := view_node.1 hl.list.node
  have hprev : s.prevSymbol = Heap.lastAddr none pre := congrArg Node.prev hview
  have hnext : s.nextSymbol = Heap.headAddr none post := congrArg Node.next hview
  have hnodup := hl.nodup
  -- the same two writes through the view of the contents list; the chains stay
  obtain ⟨v₁, v₂, hlink₁, hlink₂, hchain, hfresh, hframe⟩ := hl.list.unlink hnodup
  obtain ⟨h₁, hmod₁, hview₁, hhash₁⟩ := modify_of_view (W := hashNode)
    (f := fun s' ↦ { s' with nextSymbol := s.nextSymbol }) (fun _ ↦ hnext ▸ rfl) (fun _ ↦ rfl)
    hlink₁
  rw [← hview₁] at hlink₂
  obtain ⟨h₂, hmod₂, hview₂, hhash₂⟩ := modify_of_view (W := hashNode)
    (f := fun s' ↦ { s' with prevSymbol := s.prevSymbol }) (fun _ ↦ hprev ▸ rfl) (fun _ ↦ rfl)
    hlink₂
  rw [← hprev] at hmod₁
  rw [← hnext] at hmod₂
  rw [List.map_append, List.map_cons, List.nodup_append, List.nodup_cons] at hnodup
  have hnotMem : x.1 ∉ (pre ++ post).map Prod.fst := by
    rw [List.map_append, List.mem_append]
    rintro (hmem | hmem)
    · exact hnodup.2.2 x.1 hmem x.1 List.mem_cons_self rfl
    · exact hnodup.2.1.1 hmem
  have hne {y : Addr × γ} (hy : y ∈ pre ++ post) : y.1 ≠ x.1 := fun heq ↦
    hnotMem (heq ▸ List.mem_map_of_mem hy)
  have hsub : ∀ y ∈ hashed, y ∈ pre ++ post := fun y hy ↦ by
    obtain hmem | hmem := List.mem_append.1 (hl.subset y hy)
    · exact List.mem_append_left _ hmem
    · obtain rfl | hmem := List.mem_cons.1 hmem
      · exact absurd hy hx
      · exact List.mem_append_right _ hmem
  refine ⟨{ t with
    symbols := h₂
    headSymbol := if s.prevSymbol = none then s.nextSymbol else t.headSymbol
    tailSymbol := if s.nextSymbol = none then s.prevSymbol else t.tailSymbol }, ?_, ?_, rfl, rfl⟩
  · rw [unlinkSymbol, get_of_node hs, Run.ok_bind]
    dsimp only
    rw [hmod₁, Run.ok_bind, hmod₂, Run.ok_bind]
  · exact {
      nodup := by
        rw [List.map_append, List.nodup_append]
        exact ⟨hnodup.1, hnodup.2.1.2, fun a ha b hb ↦
          hnodup.2.2 a ha b (List.mem_cons_of_mem _ hb)⟩
      fresh := fun y hy ↦ by
        have hlt := hl.fresh y (List.mem_append.2 ((List.mem_append.1 hy).imp_right
          (List.mem_cons_of_mem _)))
        exact hlt.trans_eq ((congrArg Heap.fresh hview₂).trans hfresh).symm
      isLive := fun a s' hs' ↦ by
        have hfree : (h₂.free x.1).node a = some s' := hs'
        rcases eq_or_ne a x.1 with rfl | hnew
        · exact absurd ((Function.update_self ..).symm.trans hfree) (Option.some_ne_none s').symm
        · have hold : (h₂.view hashNode).node a = some (hashNode s') :=
            view_node.2 ⟨s', (Function.update_of_ne hnew _ _).symm.trans hfree, rfl⟩
          rw [hhash₂, hhash₁] at hold
          obtain ⟨s₀, hs₀, -⟩ := view_node.1 hold
          have hmem := hl.isLive a s₀ hs₀
          rw [List.map_append, List.map_cons, List.mem_append, List.mem_cons] at hmem
          rw [List.map_append, List.mem_append]
          exact hmem.imp_right fun h ↦ h.resolve_left hnew
      list := by
        rw [view_free, hview₂]
        exact hchain.congr fun y hy ↦ Heap.free_node_of_ne _ (hne hy)
      head := by
        rw [hprev, hnext]
        cases pre with
        | nil => rfl
        | cons y l =>
          rw [if_neg (mt Heap.lastAddr_eq_none.1 (List.cons_ne_nil y l))]
          exact hl.head
      tail := by
        rw [hprev, hnext, Heap.lastAddr_append]
        cases post with
        | nil => rfl
        | cons y l => exact hl.tail.trans (Heap.lastAddr_append ..)
      subset := hsub
      hash := by
        obtain ⟨chains, hc⟩ := hl.hash
        refine ⟨chains, ?_⟩
        rw [view_free, hhash₂, hhash₁]
        exact hc.congr fun y hy ↦ Heap.free_node_of_ne _ (hne (hsub y hy))
      length := hl.length
      size := hl.size
      mask := hl.mask }

/-- **Other fields** for a symbol that no chain has. -/
theorem setEntry_spec {s : Symbol γ} (hl : Linked hashVal t (pre ++ x :: post) hashed)
    (hx : x ∉ hashed) (hs : t.symbols.node x.1 = some s) (e : γ) :
    Linked hashVal { t with symbols := t.symbols.set x.1 { s with entry := e } }
      (pre ++ (x.1, e) :: post) hashed := by
  have haddr : (pre ++ (x.1, e) :: post).map Prod.fst = (pre ++ x :: post).map Prod.fst := by
    simp only [List.map_append, List.map_cons]
  have hnotHashed {y : Addr × γ} (hy : y ∈ hashed) : y.1 ≠ x.1 := fun heq ↦ by
    have hyx := hl.eq_of_addr (hl.subset y hy) (List.mem_append_right _ List.mem_cons_self) heq
    exact hx (hyx ▸ hy)
  obtain ⟨s', hs', hview⟩ := view_node.1 hl.list.node
  obtain rfl := Option.some.inj (hs'.symm.trans hs)
  have hlinks : listNode { s' with entry := e } =
      ⟨Heap.lastAddr none pre, Heap.headAddr none post, e⟩ := by
    have hprev : s'.prevSymbol = Heap.lastAddr none pre := congrArg Node.prev hview
    have hnext : s'.nextSymbol = Heap.headAddr none post := congrArg Node.next hview
    rw [listNode, hprev, hnext]
  exact {
    nodup := haddr ▸ hl.nodup
    fresh := fun y hy ↦ by
      have hmem := List.mem_map_of_mem (f := Prod.fst) hy
      rw [haddr] at hmem
      obtain ⟨z, hz, heq⟩ := List.mem_map.1 hmem
      exact heq ▸ hl.fresh z hz
    isLive := fun a s₁ hs₁ ↦ by
      rw [haddr]
      rcases eq_or_ne a x.1 with rfl | hne
      · exact List.mem_map_of_mem (List.mem_append_right _ List.mem_cons_self)
      · exact hl.isLive a s₁ ((Function.update_of_ne hne _ _).symm.trans hs₁)
    list := by
      rw [view_set, hlinks]
      exact hl.list.setVal hl.nodup e
    head := by
      rw [hl.head]
      cases pre <;> rfl
    tail := by
      rw [hl.tail, Heap.lastAddr_append, Heap.lastAddr_append]
      rfl
    subset := fun y hy ↦ by
      have hne : y ≠ x := fun heq ↦ hx (heq ▸ hy)
      rw [List.mem_append, List.mem_cons]
      obtain hmem | hmem := List.mem_append.1 (hl.subset y hy)
      · exact .inl hmem
      · exact .inr (.inr ((List.mem_cons.1 hmem).resolve_left hne))
    hash := by
      obtain ⟨chains, hc⟩ := hl.hash
      refine ⟨chains, ?_⟩
      rw [view_set]
      exact hc.congr fun y hy ↦ Heap.set_node_of_ne _ (hnotHashed hy) _
    length := hl.length
    size := hl.size
    mask := hl.mask }

end Linked

/-- The table holds the symbols of the list. -/
structure Represents (hashVal : γ → BitVec 32) (t : Table γ) (live : List (Addr × γ)) : Prop
    extends Linked hashVal t live {y | y ∈ live} where
  count : t.symbolCount = live.length

section Represents

variable {hashVal : γ → BitVec 32} {t : Table γ} {live pre post : List (Addr × γ)} {x : Addr × γ}

/-- The loop that doubles the size returns the least power of two that is large enough. -/
theorem doubleUntil_spec {minSize fuel k : ℕ} (h : minSize < 2 ^ (k + fuel)) :
    ∃ j, doubleUntil minSize (fuel + 1) (2 ^ k) = .ok (2 ^ j) ∧ k ≤ j ∧ minSize ≤ 2 ^ j ∧
      (k < j → 2 ^ (j - 1) < minSize) := by
  induction fuel generalizing k with
  | zero =>
    rw [Nat.add_zero] at h
    refine ⟨k, ?_, le_rfl, h.le, fun hlt ↦ absurd hlt (lt_irrefl k)⟩
    rw [doubleUntil, if_neg h.not_gt]
  | succ fuel ih =>
    rw [doubleUntil]
    split_ifs with hlt
    · rw [Nat.shiftLeft_eq, pow_one, ← pow_succ]
      obtain ⟨j, hrun, hkj, hmin, hleast⟩ := ih (k := k + 1) (by rwa [Nat.add_right_comm])
      refine ⟨j, hrun, by omega, hmin, fun _ ↦ ?_⟩
      rcases hkj.eq_or_lt with rfl | hkj
      · exact hlt
      · exact hleast hkj
    · exact ⟨k, rfl, le_rfl, not_lt.1 hlt, fun hkk ↦ absurd hkk (lt_irrefl k)⟩

theorem represents_emptyTable (k : ℕ) : Represents hashVal (emptyTable (2 ^ k)) [] where
  nodup := List.nodup_nil
  fresh x hx := absurd hx List.not_mem_nil
  isLive a s hs := nomatch hs
  list := trivial
  head := rfl
  tail := rfl
  subset x hx := hx
  hash := ⟨fun _ ↦ [], {
    head := fun i hi ↦ by
      rw [emptyTable, List.length_replicate] at hi
      rw [emptyTable, List.getElem?_replicate_of_lt hi, Heap.headAddr_nil]
    linked := fun i ↦ trivial
    nodup := fun i ↦ List.nodup_nil
    mem := fun i x ↦ by simp }⟩
  length := List.length_replicate
  size := ⟨k, rfl⟩
  mask := rfl
  count := rfl

/-- **A new table**, for any expected size up to a billion. -/
theorem newTable_spec {msg : String} {expectedSize : ℤ} (h : expectedSize ≤ 1000000000) :
    ∃ t : Table γ, newTable msg expectedSize = .ok t ∧ Represents hashVal t [] := by
  have hle : (if expectedSize < 0 then 0 else expectedSize) ≤ 1000000000 := by
    split_ifs <;> omega
  rw [newTable]
  generalize (if expectedSize < 0 then 0 else expectedSize) = size at hle ⊢
  obtain ⟨k, hk, -⟩ := @doubleUntil_spec (size * 2).toNat 31 5 (by omega)
  refine ⟨_, ?_, represents_emptyTable k⟩
  rw [if_neg (by omega)]
  exact congrArg (· >>= fun hashSize ↦ Except.ok (emptyTable hashSize)) hk

/-- **Doubling a full table.** -/
theorem resizeIfFull_spec (hr : Represents hashVal t live) :
    ∃ t', resizeIfFull hashVal t = .ok t' ∧ Represents hashVal t' live := by
  rw [resizeIfFull]
  split_ifs
  · obtain ⟨t', hrun, hl, hcount⟩ := resizeTable_spec hr.toLinked
    exact ⟨t', hrun, ⟨hl, hcount.trans hr.count⟩⟩
  · exact ⟨t, rfl, hr⟩

/-- The symbols of a list without one of them. -/
theorem diff_middle {α : Type} {l₁ l₂ : List α} {a : α} (h : (l₁ ++ a :: l₂).Nodup) :
    {y | y ∈ l₁ ++ a :: l₂} \ {a} = {y | y ∈ l₁ ++ l₂} := by
  have ha : a ∉ l₁ ++ l₂ := fun hmem ↦ by
    rw [List.nodup_middle, List.nodup_cons] at h
    exact h.1 hmem
  ext y
  rw [Set.mem_sdiff, Set.mem_singleton_iff, Set.mem_ofPred_eq, Set.mem_ofPred_eq, List.mem_append,
    List.mem_append, List.mem_cons]
  constructor
  · rintro ⟨hy | rfl | hy, hne⟩
    · exact .inl hy
    · exact absurd rfl hne
    · exact .inr hy
  · intro hy
    refine ⟨hy.imp_right .inr, ?_⟩
    rintro rfl
    exact ha (List.mem_append.2 hy)

/-- A list without the symbol at one address. -/
theorem filter_addr_ne {β : Type} {l₁ l₂ : List (Addr × β)} {z : Addr × β}
    (h : ((l₁ ++ z :: l₂).map Prod.fst).Nodup) :
    (l₁ ++ z :: l₂).filter (fun y ↦ y.1 ≠ z.1) = l₁ ++ l₂ := by
  rw [List.map_append, List.map_cons, List.nodup_append, List.nodup_cons] at h
  have h₁ : l₁.filter (fun y ↦ y.1 ≠ z.1) = l₁ := List.filter_eq_self.2 fun y hy ↦
    decide_eq_true (h.2.2 y.1 (List.mem_map_of_mem hy) z.1 List.mem_cons_self)
  have h₂ : l₂.filter (fun y ↦ y.1 ≠ z.1) = l₂ := List.filter_eq_self.2 fun y hy ↦
    decide_eq_true fun heq ↦ h.2.1.1 (heq ▸ List.mem_map_of_mem hy)
  rw [List.filter_append, List.filter_cons_of_neg (by simp), h₁, h₂]

/-- The symbols of a list with one more. -/
theorem insert_middle {α : Type} {l₁ l₂ : List α} {a : α} :
    insert a {y | y ∈ l₁ ++ l₂} = {y | y ∈ l₁ ++ a :: l₂} := by
  ext y
  rw [Set.mem_insert_iff, Set.mem_ofPred_eq, Set.mem_ofPred_eq, List.mem_append, List.mem_append,
    List.mem_cons]
  exact or_left_comm

/-- **A symbol is added**: to the contents list, then to the hash chains. -/
theorem add_spec (hr : Represents hashVal t live) (e : γ) :
    ∃ t₁ h₂ hash₂, newSymbol t e = .ok (t₁, t.symbols.fresh) ∧
      Linked hashVal t₁ (live ++ [(t.symbols.fresh, e)]) {y | y ∈ live} ∧
      t₁.hashMask = t.hashMask ∧
      pushHash t₁.symbols t₁.hash t.symbols.fresh (t₁.index hashVal e) = .ok (h₂, hash₂) ∧
      Represents hashVal { t₁ with
        symbols := h₂
        hash := hash₂
        symbolCount := t₁.symbolCount + 1 } (live ++ [(t.symbols.fresh, e)]) := by
  obtain ⟨t₁, hnew, hl₁, hne, hcount, hmask⟩ := newSymbol_spec hr.toLinked e
  obtain ⟨h₂, hash₂, hpush, hl₂⟩ := pushHash_spec hl₁
    (List.mem_append_right live List.mem_cons_self) fun hmem ↦ hne _ hmem rfl
  have hset : insert (t.symbols.fresh, e) {y | y ∈ live ++ []} =
      {y | y ∈ live ++ [(t.symbols.fresh, e)]} := insert_middle
  rw [List.append_nil] at hset
  rw [hset] at hl₂
  refine ⟨t₁, h₂, hash₂, hnew, hl₁, hmask, hpush, { hl₂ with count := ?_ }⟩
  rw [List.length_append, ← hr.count, ← hcount]
  rfl

/-- **A symbol is deleted**: from its chain, then from the contents list. -/
theorem delete_spec {i : ℕ} (hr : Represents hashVal t (pre ++ x :: post))
    (hi : ∀ s, t.symbols.node x.1 = some s → s.prevHash = none → i = t.index hashVal x.2) :
    ∃ h₁ hash₁ t₂, unlinkHash t.symbols t.hash x.1 i = .ok (h₁, hash₁) ∧
      unlinkSymbol { t with symbols := h₁, hash := hash₁ } x.1 = .ok t₂ ∧
      Represents hashVal { t₂ with
        symbols := t₂.symbols.free x.1
        symbolCount := t₂.symbolCount - 1 } (pre ++ post) := by
  obtain ⟨h₁, hash₁, hhash, hl₁⟩ := unlinkHash_spec hr.toLinked
    (List.mem_append_right pre List.mem_cons_self) hi
  obtain ⟨t₂, hlist, hl₂, hcount, -⟩ := unlinkSymbol_spec hl₁ fun h ↦ h.2 rfl
  rw [diff_middle (hr.nodup.of_map _)] at hl₂
  refine ⟨h₁, hash₁, t₂, hhash, hlist, { hl₂ with count := ?_ }⟩
  rw [hcount]
  have hlength := hr.count
  rw [List.length_append, List.length_cons] at hlength
  rw [List.length_append]
  dsimp only
  omega

end Represents

end OpenImpact.SymbolTable
