import OpenImpact.Library.IListSeq

/-!
# Runs of calls on lists

Every list represents its sequence after every call of a run, and no two lists share an element
(`Sim.runCalls`). One call is `Sim.exec`, which goes through the calls and uses one lemma for each kind: calls
on one list, calls that insert, calls that move a cursor and return the pointer there.
-/

namespace OpenImpact.IList

open Foundation

variable {γ : Type} {l : ListRec γ} {q : Seq γ} {xs ys : List (Addr × γ)} {x y : Addr × γ} {a : Addr} {ptr : γ}

/-! ### One list changes -/

variable {s s' : Lists γ} {t : Seqs γ} {v w : ℕ}

/-- A list and its sequence, with elements that no other list has. -/
theorem Sim.update (h : Sim s t) {list : ListPtr γ} {q : Option (Seq γ)} (hlist : HoldsPtr list q)
    (hapart : ∀ q' w r, q = some q' → w ≠ v → t w = some r →
      ∀ a ∈ q'.elems.map Prod.fst, a ∉ r.elems.map Prod.fst) :
    Sim (Function.update s v list) (Function.update t v q) := by
  refine ⟨fun w ↦ ?_, fun u w q₁ r hne hq₁ hr a ha hra ↦ ?_⟩
  · rcases eq_or_ne w v with rfl | hw
    · rwa [Function.update_self, Function.update_self]
    · rw [Function.update_of_ne hw, Function.update_of_ne hw]
      exact h.holds w
  · rcases eq_or_ne u v with rfl | hu
    · rw [Function.update_self] at hq₁
      rw [Function.update_of_ne hne.symm] at hr
      exact hapart q₁ w r hq₁ hne.symm hr a ha hra
    · rw [Function.update_of_ne hu] at hq₁
      rcases eq_or_ne w v with rfl | hw
      · rw [Function.update_self] at hr
        exact hapart r u q₁ hr hu hq₁ a hra ha
      · rw [Function.update_of_ne hw] at hr
        exact h.apart u w q₁ r hne hq₁ hr a ha hra

/-- The elements of the list stay the same or get fewer. -/
theorem Sim.update_subset (h : Sim s t) {list : ListPtr γ} {q : Option (Seq γ)}
    (hlist : HoldsPtr list q)
    (hsub : ∀ q', q = some q' → ∃ q₀, t v = some q₀ ∧ q'.elems ⊆ q₀.elems) :
    Sim (Function.update s v list) (Function.update t v q) :=
  h.update hlist fun q' w r hq hwv hr a ha hra ↦ by
    obtain ⟨q₀, hq₀, hsub⟩ := hsub q' hq
    exact h.apart v w q₀ r hwv.symm hq₀ hr a (List.map_subset _ hsub ha) hra

/-- A new element at an unused address. -/
theorem Sim.update_insert (h : Sim s t) {l : ListRec γ} {q : Seq γ} (hlist : Holds l q)
    (ha : Unused t a) (hsub : ∀ b ∈ q.elems.map Prod.fst, b = a ∨
      b ∈ (Seq.orNew (t v)).elems.map Prod.fst) :
    Sim (Function.update s v (some l)) (Function.update t v (some q)) :=
  h.update (.live hlist) fun q' w r hq hwv hr b hb hrb ↦ by
    obtain rfl := Option.some.inj hq
    rcases hsub b hb with rfl | hb
    · exact ha w r hr hrb
    · cases htv : t v with
      | none =>
        rw [htv] at hb
        exact absurd hb List.not_mem_nil
      | some q₀ =>
        rw [htv] at hb
        exact h.apart v w q₀ r hwv.symm htv hr b hb hrb

/-- The calls that move a cursor and return the pointer there. -/
theorem Sim.assignPtr (h : Sim s t) {level : ℕ} {c : Seq γ → Option Addr}
    {r : ListPtr γ → Run (ListPtr γ × Option γ)} (hnone : r none = .ok (none, none))
    (hsome : ∀ l q, t v = some q → Holds l q → MovesTo l q level (c q) (r (some l))) :
    ∃ s', assignPtr s v (r (s v)) = .ok (s', (moveSeq t v level c).2) ∧
      Sim s' (moveSeq t v level c).1 := by
  have hv := h.holds v
  cases hs : s v with
  | none =>
    cases ht : t v with
    | some q => rw [hs, ht] at hv; cases hv
    | none =>
      simp only [IList.assignPtr, moveSeq, ht, hnone, Run.ok_bind]
      refine ⟨_, rfl, ?_⟩
      rwa [← hs, Function.update_eq_self]
  | some l =>
    cases ht : t v with
    | none => rw [hs, ht] at hv; cases hv
    | some q =>
      rw [hs, ht] at hv
      cases hv with
      | live hholds =>
      obtain ⟨hrun, hholds'⟩ := hsome l q ht hholds
      simp only [IList.assignPtr, moveSeq, ht, hrun, Run.ok_bind]
      refine ⟨_, rfl, h.update_subset (.live hholds') fun q' hq' ↦ ⟨q, ht, ?_⟩⟩
      obtain rfl := Option.some.inj hq'
      exact List.Subset.refl _

/-- The other calls on one list, which may be `NULL`. -/
theorem Sim.assign (h : Sim s t) {r : ListPtr γ → Run (ListPtr γ)} {f : Seq γ → Option (Seq γ)}
    (hnone : r none = .ok none)
    (hsome : ∀ l q, t v = some q → Holds l q → ∃ list, r (some l) = .ok list ∧ HoldsPtr list (f q))
    (hsub : ∀ q q', f q = some q' → q'.elems ⊆ q.elems) :
    ∃ s', assign s v (r (s v)) = .ok (s', .done) ∧
      Sim s' (Function.update t v ((t v).bind f)) := by
  have hv := h.holds v
  cases hs : s v with
  | none =>
    cases ht : t v with
    | some q => rw [hs, ht] at hv; cases hv
    | none =>
      simp only [IList.assign, hnone, Run.ok_bind]
      exact ⟨_, rfl, h.update_subset .null fun q' hq' ↦ nomatch hq'⟩
  | some l =>
    cases ht : t v with
    | none => rw [hs, ht] at hv; cases hv
    | some q =>
      rw [hs, ht] at hv
      cases hv with
      | live hholds =>
      obtain ⟨list, hrun, hlist⟩ := hsome l q ht hholds
      simp only [IList.assign, hrun, Run.ok_bind]
      exact ⟨_, rfl, h.update_subset hlist fun q' hq' ↦ ⟨q, ht, hsub q q' hq'⟩⟩

/-- The calls that insert an element. -/
theorem Sim.assign_insert (h : Sim s t) {run : Run (ListPtr γ)} {l' : ListRec γ} {q : Seq γ}
    (hrun : run = .ok (some l')) (hholds : Holds l' q) (ha : Unused t a)
    (hsub : ∀ b ∈ q.elems.map Prod.fst, b = a ∨ b ∈ (Seq.orNew (t v)).elems.map Prod.fst) :
    ∃ s', IList.assign s v run = .ok (s', .done) ∧ Sim s' (Function.update t v (some q)) := by
  rw [IList.assign, hrun]
  exact ⟨_, rfl, h.update_insert hholds ha hsub⟩

theorem Seq.erase_subset {q q' : Seq γ} {c : Addr} (h : q.erase c = some q') : q'.elems ⊆ q.elems := by
  rw [Seq.erase] at h
  split_ifs at h
  obtain rfl := Option.some.inj h
  exact List.filter_subset_self _

/-- The addresses after an insertion at a cursor. -/
theorem Seq.mem_insertPrev {b : Addr} {level : ℕ}
    (h : b ∈ (q.insertPrev (a, ptr) level).elems.map Prod.fst) : b = a ∨ b ∈ q.elems.map Prod.fst := by
  rw [Seq.insertPrev] at h
  split at h
  · next c hc =>
    rw [← List.takeWhile_append_dropWhile (l := q.elems) (p := fun x ↦ decide (x.1 ≠ c))]
    simp only [Seq.before, Seq.rest, List.map_append, List.map_cons, List.mem_append,
      List.mem_cons] at h ⊢
    tauto
  · simp only [Seq.insertLast, List.map_append, List.map_cons, List.map_nil, List.mem_append,
      List.mem_singleton] at h
    tauto

theorem Seq.mem_insertNext {b : Addr} {level : ℕ}
    (h : b ∈ (q.insertNext (a, ptr) level).elems.map Prod.fst) : b = a ∨ b ∈ q.elems.map Prod.fst := by
  rw [Seq.insertNext] at h
  split at h
  · next c hc =>
    rw [← List.takeWhile_append_dropWhile (l := q.elems) (p := fun x ↦ decide (x.1 ≠ c))]
    rw [← List.take_append_drop 1 (q.elems.dropWhile fun x ↦ decide (x.1 ≠ c))]
    simp only [Seq.before, Seq.rest, List.map_append, List.map_cons, List.mem_append,
      List.mem_cons] at h ⊢
    tauto
  · simp only [Seq.insertLast, List.map_append, List.map_cons, List.map_nil, List.mem_append,
      List.mem_singleton] at h
    tauto

theorem insertAt_orNew (add : ListRec γ → Addr → γ → Addr → Run (ListRec γ)) (list : ListPtr γ) (ptr : γ)
    (a : Addr) (level : ℕ) :
    insertAt add list ptr a level = insertAt add (some (orNew list)) ptr a level := by
  cases list <;> rfl

/-- The addresses of a live list are no new one. -/
theorem Unused.orNew (ha : Unused t a) (v : ℕ) : a ∉ (Seq.orNew (t v)).elems.map Prod.fst := by
  cases ht : t v with
  | none => exact List.not_mem_nil
  | some q => exact ha v q ht

theorem Seq.mem_append {q r : Option (Seq γ)} {q' : Seq γ} {b : Addr} (h : Seq.append q r = some q')
    (hb : b ∈ q'.elems.map Prod.fst) :
    (∃ q₀, q = some q₀ ∧ b ∈ q₀.elems.map Prod.fst) ∨
      ∃ r₀, r = some r₀ ∧ b ∈ r₀.elems.map Prod.fst := by
  cases q with
  | none => exact .inr ⟨q', h, hb⟩
  | some q =>
    cases r with
    | none =>
      rw [Seq.append] at h
      split_ifs at h
      exact .inl ⟨q', h, hb⟩
    | some r =>
      rw [Seq.append] at h
      split_ifs at h
      · exact .inr ⟨q', h, hb⟩
      · obtain rfl := Option.some.inj h
        rw [List.map_append, List.mem_append] at hb
        exact hb.imp (fun hb ↦ ⟨q, rfl, hb⟩) fun hb ↦ ⟨r, rfl, hb⟩

theorem HoldsPtr.exists_of_ne_none {list : ListPtr γ} {q : Option (Seq γ)} (h : HoldsPtr list q)
    (hne : q ≠ none) : ∃ l q', list = some l ∧ q = some q' ∧ Holds l q' := by
  cases h with
  | null => exact absurd rfl hne
  | @live l q h => exact ⟨l, q, rfl, rfl, h⟩

theorem Sim.exec_append [DecidableEq γ] (h : Sim s t) (hne : v ≠ w) (hfits : CallFits t (.append v w)) :
    ∃ s', exec s (.append v w) = .ok (s', .done) ∧ Sim s' (execSeq t (.append v w)).1 := by
  obtain ⟨list, hrun, hlist⟩ := (h.holds v).append (h.holds w) (fun q r hq hr ↦ h.apart v w q r hne hq hr)
    hfits
  have hgone : Sim (Function.update s w none) (Function.update t w none) :=
    h.update_subset .null fun q hq ↦ by cases hq
  rw [IList.exec, IList.assign, hrun]
  refine ⟨_, rfl, hgone.update hlist fun q u r hq huv hr a ha hra ↦ ?_⟩
  rcases eq_or_ne u w with rfl | huw
  · rw [Function.update_self] at hr
    cases hr
  · rw [Function.update_of_ne huw] at hr
    rcases Seq.mem_append hq ha with ⟨q₀, hq₀, ha₀⟩ | ⟨r₀, hr₀, ha₀⟩
    · exact h.apart v u q₀ r huv.symm hq₀ hr a ha₀ hra
    · exact h.apart w u r₀ r huw.symm hr₀ hr a ha₀ hra

theorem Sim.exec_registerNewPtr [DecidableEq γ] (h : Sim s t) (hne : t v ≠ none)
    (hfits : CallFits t (.registerNewPtr v)) :
    ∃ s', exec s (.registerNewPtr v) = .ok (s', (execSeq t (.registerNewPtr v)).2) ∧
      Sim s' (execSeq t (.registerNewPtr v)).1 := by
  obtain ⟨l, q, hs, ht, hholds⟩ := (h.holds v).exists_of_ne_none hne
  obtain ⟨l', hrun, hrep, hcur⟩ := hholds.rep.registerNewPtr
  have hcount := int32_succ (hfits q ht)
  rw [← hholds.cursors] at hcount
  have hexec : exec s (.registerNewPtr v) =
      .ok (Function.update s v (some l'), .level l.current.length) := by
    rw [IList.exec, hs, hrun, Run.ok_bind]
    dsimp only
    rw [hcount, Run.ok_bind]
  rw [hexec, execSeq, ht, Option.elim_some, Option.map_some, ← hholds.cursors]
  refine ⟨_, rfl, h.update_subset (.live ⟨hrep, ?_, ?_⟩) fun q' hq' ↦ ⟨q, ht, ?_⟩⟩
  · rw [hcur, hholds.cursors]
  · obtain rfl := Option.some.inj (Prod.mk.inj (Except.ok.inj hrun)).1
    exact hholds.owned
  · obtain rfl := Option.some.inj hq'
    exact List.Subset.refl _

/-- The cursor at a valid level. -/
theorem Holds.getCurrent_eq (h : Holds l q) {level : ℕ} (hlt : level < q.cursors.length) :
    getCurrent l level = .ok (q.cursors[level]?.getD none) := by
  rw [getCurrent, h.cursors, List.getElem?_eq_getElem hlt]
  rfl

theorem Sim.exec_copyCurrentPtr [DecidableEq γ] (h : Sim s t) {toLevel fromLevel : ℕ} (hne : t v ≠ none)
    (hto : ValidLevel t v toLevel) (hfrom : ValidLevel t v fromLevel) :
    ∃ s', exec s (.copyCurrentPtr v toLevel fromLevel) = .ok (s', .done) ∧
      Sim s' (execSeq t (.copyCurrentPtr v toLevel fromLevel)).1 := by
  obtain ⟨l, q, hs, ht, hholds⟩ := (h.holds v).exists_of_ne_none hne
  have hmem : ∀ a, q.cursors[fromLevel]?.getD none = some a → a ∈ q.elems.map Prod.fst := by
    intro a ha
    refine hholds.rep.current a (hholds.cursors ▸ List.mem_of_getElem? (i := fromLevel) ?_)
    rw [List.getElem?_eq_getElem (hfrom q ht)] at ha ⊢
    exact congrArg some ha
  simp only [IList.exec, execSeq, hs, ht, IList.assign, copyCurrentPtr, hholds.getCurrent_eq (hto q ht),
    hholds.getCurrent_eq (hfrom q ht), Run.ok_bind]
  refine ⟨_, rfl, h.update_subset (.live (hholds.setCurrent hmem)) fun q' hq' ↦ ⟨q, ht, ?_⟩⟩
  obtain rfl := Option.some.inj hq'
  exact List.Subset.refl _

theorem Sim.exec_start [DecidableEq γ] (h : Sim s t) {level : ℕ} (hlevel : ValidLevel t v level) :
    ∃ s', exec s (.start v level) = .ok (s', .done) ∧ Sim s' (execSeq t (.start v level)).1 := by
  have hsome : ∀ l q, t v = some q → Holds l q → ∃ list, start (some l) level = .ok list ∧
      HoldsPtr list (some (q.setCursor level none)) := by
    intro l q ht hholds
    refine ⟨some (IList.setCurrent l level none), ?_, .live (hholds.setCurrent fun a ha ↦ by cases ha)⟩
    rw [IList.start, hholds.getCurrent_eq (hlevel q ht)]
    rfl
  have hstart := h.assign (v := v) (r := fun list ↦ start list level) rfl hsome fun q q' hq' ↦ by
    obtain rfl := Option.some.inj hq'
    exact List.Subset.refl _
  rw [← Function.comp_def some, ← Option.map_eq_bind] at hstart
  exact hstart

/-- **One call** returns what its sequence says, and the lists represent the sequences after it. -/
theorem Sim.exec [DecidableEq γ] (h : Sim s t) {c : Call γ} (hproper : Proper t c)
    (hfits : CallFits t c) :
    ∃ s', exec s c = .ok (s', (execSeq t c).2) ∧ Sim s' (execSeq t c).1 := by
  cases c with
  | insertFirst v ptr a =>
    obtain ⟨l', hadd, hholds⟩ := (h.holds v).orNew.addFirst (hproper.orNew v) hfits ptr
    refine h.assign_insert (by rw [IList.insertFirst, hadd]; rfl) hholds hproper fun b hb ↦ ?_
    exact List.mem_cons.1 hb
  | insertLast v ptr a =>
    obtain ⟨l', hadd, hholds⟩ := (h.holds v).orNew.addLast (hproper.orNew v) hfits ptr
    refine h.assign_insert (by rw [IList.insertLast, hadd]; rfl) hholds hproper fun b hb ↦ ?_
    simp only [Seq.insertLast, List.map_append, List.map_cons, List.map_nil, List.mem_append,
      List.mem_singleton] at hb
    exact hb.symm
  | insertPrev v ptr a level =>
    obtain ⟨ha, hlt⟩ := hproper
    obtain ⟨l', hadd, hholds⟩ := (h.holds v).orNew.insertPrev hlt (ha.orNew v) hfits ptr
    refine h.assign_insert ?_ hholds ha fun b ↦ Seq.mem_insertPrev
    rwa [IList.insertPrev, insertAt_orNew]
  | insertNext v ptr a level =>
    obtain ⟨ha, hlt⟩ := hproper
    obtain ⟨l', hadd, hholds⟩ := (h.holds v).orNew.insertNext hlt (ha.orNew v) hfits ptr
    refine h.assign_insert ?_ hholds ha fun b ↦ Seq.mem_insertNext
    rwa [IList.insertNext, insertAt_orNew]
  | deleteCurrent v level =>
    refine h.assign (r := fun list ↦ deleteCurrent list level) rfl
      (fun l q ht hholds ↦ hholds.deleteCurrent (hproper q ht)) fun q q' hq' ↦ ?_
    split at hq'
    · exact Seq.erase_subset hq'
    · rw [Option.some.inj hq']
      exact List.Subset.refl _
  | remove v ptr =>
    refine h.assign (r := fun list ↦ remove list ptr) rfl
      (fun l q ht hholds ↦ hholds.remove (hproper q ht)) fun q q' hq' ↦ ?_
    split at hq'
    · exact Seq.erase_subset hq'
    · rw [Option.some.inj hq']
      exact List.Subset.refl _
  | append v w => exact h.exec_append hproper hfits
  | registerNewPtr v => exact h.exec_registerNewPtr hproper hfits
  | copyCurrentPtr v toLevel fromLevel => exact h.exec_copyCurrentPtr hproper.1 hproper.2.1 hproper.2.2
  | start v level => exact h.exec_start hproper
  | first v level =>
    exact h.assignPtr (r := fun list ↦ first list level) rfl fun l q ht hholds ↦
      hholds.first (hproper q ht) (hfits q ht)
  | last v level =>
    exact h.assignPtr (r := fun list ↦ last list level) rfl fun l q ht hholds ↦
      hholds.last (hproper q ht)
  | next v level =>
    exact h.assignPtr (r := fun list ↦ next list level) rfl fun l q ht hholds ↦
      hholds.next (hproper q ht)
  | prev v level =>
    exact h.assignPtr (r := fun list ↦ prev list level) rfl fun l q ht hholds ↦
      hholds.prev (hproper q ht) (hfits q ht)

theorem Sim.nodup (h : Sim s t) (ht : t v = some q) : (q.elems.map Prod.fst).Nodup := by
  obtain ⟨l, q', -, hq', hholds⟩ := (h.holds v).exists_of_ne_none (by simp [ht])
  obtain rfl := Option.some.inj (ht.symm.trans hq')
  exact hholds.rep.nodup

/-- A run keeps the lists and the sequences together. -/
theorem Sim.runCalls [DecidableEq γ] (h : Sim s t) {cs : List (Call γ)} (hproper : AllAlong Proper t cs)
    (hfits : AllAlong CallFits t cs) :
    ∃ s', runCalls s cs = .ok (s', (runSeqs t cs).2) ∧ Sim s' (runSeqs t cs).1 := by
  induction cs generalizing s t with
  | nil => exact ⟨s, rfl, h⟩
  | cons c cs ih =>
    obtain ⟨s₁, hexec, hsim⟩ := h.exec hproper.1 hfits.1
    obtain ⟨s', hrun, hsim'⟩ := ih hsim hproper.2 hfits.2
    refine ⟨s', ?_, hsim'⟩
    simp only [IList.runCalls, hexec, Run.ok_bind, hrun]
    rfl

end OpenImpact.IList
