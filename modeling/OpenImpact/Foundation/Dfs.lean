import Mathlib.Data.Finset.Card
import Mathlib.Data.List.Chain
import Mathlib.Data.List.Nodup
import Mathlib.Data.Set.Insert
import Mathlib.Logic.Relation

/-!
# Depth-first traversals

A recursive depth-first traversal of a graph given by the arcs out of each node, `out`, and the node
an arc leads to, `dst`. Two descriptions are related here.

* `Scan` is the traversal itself, without any state: scanning the arcs of a node, with the nodes on
  the recursion stack and the nodes seen so far, produces a list of `Event`s. Everything about
  depth-first order (preorder, postorder, tree arcs, back arcs) is a fact about such lists.
* `Visitor.visit` is a traversal program: a state with a mark per node, and an action per event. It
  runs on a fuel argument, and `visit_eq` says that with enough fuel it returns, and that its final
  state is the fold of its actions over the events of a `Scan`.

So a client states what its actions do to its state and takes the order of the events from here.
-/

namespace OpenImpact.Foundation.Dfs

/-- What happens during a traversal, in order. An arc comes with the node it was looked at from. -/
inductive Event (α ε : Type*) where
  /-- The arc leads to a node not seen before, which is entered. -/
  | enter (c : α) (e : ε)
  /-- The arc leads to a node on the recursion stack. -/
  | back (c : α) (e : ε)
  /-- The arc leads to a node that was left already. -/
  | cross (c : α) (e : ε)
  /-- All arcs of the node have been looked at. -/
  | leave (v : α)

variable {α ε : Type*} (out : α → List ε) (dst : ε → α)

/-- Scanning arcs of the node `c`, with the recursion stack `g` and the seen nodes `V`: the arcs, the
events, and the nodes seen at the end. -/
inductive Scan : α → List α → Set α → List ε → List (Event α ε) → Set α → Prop
  | done {c g V} : Scan c g V [] [] V
  | back {c g V e es evs V'} (hg : dst e ∈ g) (hV : dst e ∈ V) (h : Scan c g V es evs V') :
      Scan c g V (e :: es) (.back c e :: evs) V'
  | cross {c g V e es evs V'} (hg : dst e ∉ g) (hV : dst e ∈ V) (h : Scan c g V es evs V') :
      Scan c g V (e :: es) (.cross c e :: evs) V'
  | tree {c g V e es evs₁ V₁ evs₂ V₂} (hV : dst e ∉ V)
      (h₁ : Scan (dst e) (dst e :: g) (insert (dst e) V) (out (dst e)) evs₁ V₁)
      (h₂ : Scan c g V₁ es evs₂ V₂) :
      Scan c g V (e :: es) (.enter c e :: (evs₁ ++ .leave (dst e) :: evs₂)) V₂

variable {out dst}

/-! ### Orders -/

/-- The nodes entered, in order. -/
def entered (dst : ε → α) (evs : List (Event α ε)) : List α :=
  evs.filterMap fun
    | .enter _ e => some (dst e)
    | _ => none

/-- The nodes left, in order. -/
def left (evs : List (Event α ε)) : List α :=
  evs.filterMap fun
    | .leave v => some v
    | _ => none

section Simp
variable (c : α) (e : ε) (v : α) (evs evs' : List (Event α ε))

@[simp] theorem entered_nil : entered dst ([] : List (Event α ε)) = [] := rfl
@[simp] theorem entered_enter :
    entered dst (.enter c e :: evs) = dst e :: entered dst evs := rfl
@[simp] theorem entered_back : entered dst (.back c e :: evs) = entered dst evs := rfl
@[simp] theorem entered_cross : entered dst (.cross c e :: evs) = entered dst evs := rfl
@[simp] theorem entered_leave :
    entered dst ((.leave v : Event α ε) :: evs) = entered dst evs := rfl
@[simp] theorem entered_append : entered dst (evs ++ evs') = entered dst evs ++ entered dst evs' :=
  List.filterMap_append ..

@[simp] theorem left_nil : left ([] : List (Event α ε)) = [] := rfl
@[simp] theorem left_enter : left (.enter c e :: evs) = left evs := rfl
@[simp] theorem left_back : left (.back c e :: evs) = left evs := rfl
@[simp] theorem left_cross : left (.cross c e :: evs) = left evs := rfl
@[simp] theorem left_leave : left ((.leave v : Event α ε) :: evs) = v :: left evs := rfl
@[simp] theorem left_append : left (evs ++ evs') = left evs ++ left evs' :=
  List.filterMap_append ..

end Simp

/-- The tree arcs of a traversal, as a relation on nodes. -/
def TreeArc (dst : ε → α) (evs : List (Event α ε)) (x y : α) : Prop :=
  ∃ e, .enter x e ∈ evs ∧ dst e = y

/-- Ancestors in the tree of a traversal, with every node its own ancestor. -/
def Ancestor (dst : ε → α) (evs : List (Event α ε)) : α → α → Prop :=
  Relation.ReflTransGen (TreeArc dst evs)

theorem TreeArc.mono {evs evs' : List (Event α ε)} (h : ∀ ev ∈ evs, ev ∈ evs') {x y : α}
    (hxy : TreeArc dst evs x y) : TreeArc dst evs' x y :=
  hxy.imp fun _ he ↦ ⟨h _ he.1, he.2⟩

theorem Ancestor.mono {evs evs' : List (Event α ε)} (h : ∀ ev ∈ evs, ev ∈ evs') {x y : α}
    (hxy : Ancestor dst evs x y) : Ancestor dst evs' x y :=
  Relation.ReflTransGen.mono (fun _ _ ↦ TreeArc.mono h) _ _ hxy

section ScanFacts

variable {c : α} {g : List α} {V V' : Set α} {es : List ε} {evs : List (Event α ε)}

/-- Scanning is deterministic. -/
theorem Scan.unique (h : Scan out dst c g V es evs V') {evs' : List (Event α ε)} {V'' : Set α}
    (h' : Scan out dst c g V es evs' V'') : evs = evs' ∧ V' = V'' := by
  induction h generalizing evs' V'' with
  | done =>
    cases h'
    exact ⟨rfl, rfl⟩
  | back hg hV _ ih =>
    cases h' with
    | back _ _ h' =>
      obtain ⟨rfl, rfl⟩ := ih h'
      exact ⟨rfl, rfl⟩
    | cross hg' => exact absurd hg hg'
    | tree hV' => exact absurd hV hV'
  | cross hg hV _ ih =>
    cases h' with
    | back hg' => exact absurd hg' hg
    | cross _ _ h' =>
      obtain ⟨rfl, rfl⟩ := ih h'
      exact ⟨rfl, rfl⟩
    | tree hV' => exact absurd hV hV'
  | tree hV _ _ ih₁ ih₂ =>
    cases h' with
    | back _ hV' => exact absurd hV' hV
    | cross _ hV' => exact absurd hV' hV
    | tree _ h₁' h₂' =>
      obtain ⟨rfl, rfl⟩ := ih₁ h₁'
      obtain ⟨rfl, rfl⟩ := ih₂ h₂'
      exact ⟨rfl, rfl⟩

/-- The nodes seen at the end are those seen before and those entered. -/
theorem Scan.mem_iff (h : Scan out dst c g V es evs V') {v : α} :
    v ∈ V' ↔ v ∈ V ∨ v ∈ entered dst evs := by
  induction h with
  | done => simp
  | back _ _ _ ih => simpa using ih
  | cross _ _ _ ih => simpa using ih
  | tree _ _ _ ih₁ ih₂ =>
    rw [ih₂, ih₁]
    simp only [Set.mem_insert_iff, entered_enter, entered_append, entered_leave, List.mem_cons,
      List.mem_append]
    tauto

theorem Scan.notMem_of_entered (h : Scan out dst c g V es evs V') {v : α}
    (hv : v ∈ entered dst evs) : v ∉ V := by
  induction h with
  | done => simp at hv
  | back _ _ _ ih => exact ih hv
  | cross _ _ _ ih => exact ih hv
  | tree hV h₁ h₂ ih₁ ih₂ =>
    simp only [entered_enter, entered_append, entered_leave, List.mem_cons, List.mem_append] at hv
    rcases hv with rfl | hv | hv
    · exact hV
    · exact fun hmem ↦ ih₁ hv (.inr hmem)
    · exact fun hmem ↦ ih₂ hv (h₁.mem_iff.2 (.inl (.inr hmem)))

/-- Every node is entered at most once. -/
theorem Scan.nodup_entered (h : Scan out dst c g V es evs V') : (entered dst evs).Nodup := by
  induction h with
  | done => exact List.nodup_nil
  | back _ _ _ ih => exact ih
  | cross _ _ _ ih => exact ih
  | @tree c g V e es evs₁ V₁ evs₂ V₂ hV h₁ h₂ ih₁ ih₂ =>
    rw [entered_enter, entered_append, entered_leave, List.nodup_cons, List.nodup_append,
      List.mem_append]
    have hd : dst e ∉ entered dst evs₁ := fun h ↦ h₁.notMem_of_entered h (Set.mem_insert _ _)
    have hd₂ : dst e ∉ entered dst evs₂ := fun h ↦
      h₂.notMem_of_entered h (h₁.mem_iff.2 (.inl (Set.mem_insert _ _)))
    refine ⟨fun h ↦ h.elim hd hd₂, ih₁, ih₂, ?_⟩
    rintro v hv₁ _ hv₂ rfl
    exact h₂.notMem_of_entered hv₂ (h₁.mem_iff.2 (.inr hv₁))

/-- What is entered is left, and conversely. -/
theorem Scan.left_perm (h : Scan out dst c g V es evs V') :
    (left evs).Perm (entered dst evs) := by
  induction h with
  | done => exact .nil
  | back _ _ _ ih => exact ih
  | cross _ _ _ ih => exact ih
  | tree _ _ _ ih₁ ih₂ =>
    simp only [left_enter, left_append, left_leave, entered_enter, entered_append, entered_leave]
    exact List.perm_middle.trans ((ih₁.append ih₂).cons _)

/-- The last node left hangs at an arc scanned. -/
theorem Scan.exists_of_getLast?_left (h : Scan out dst c g V es evs V') {v : α}
    (hv : (left evs).getLast? = some v) : ∃ e ∈ es, dst e = v := by
  induction h with
  | done => simp at hv
  | back _ _ _ ih =>
    obtain ⟨e, he, hdst⟩ := ih hv
    exact ⟨e, List.mem_cons_of_mem _ he, hdst⟩
  | cross _ _ _ ih =>
    obtain ⟨e, he, hdst⟩ := ih hv
    exact ⟨e, List.mem_cons_of_mem _ he, hdst⟩
  | @tree c g V a es evs₁ V₁ evs₂ V₂ _ _ _ _ ih₂ =>
    rw [left_enter, left_append, left_leave, List.getLast?_append, List.getLast?_cons] at hv
    cases hlast : (left evs₂).getLast? with
    | none =>
      obtain rfl : dst a = v := by simpa [hlast] using hv
      exact ⟨a, List.mem_cons_self, rfl⟩
    | some w =>
      obtain rfl : w = v := by simpa [hlast] using hv
      obtain ⟨e, he, hdst⟩ := ih₂ hlast
      exact ⟨e, List.mem_cons_of_mem _ he, hdst⟩

/-- The targets of the arcs scanned have been seen at the end. -/
theorem Scan.dst_mem (h : Scan out dst c g V es evs V') {e : ε} (he : e ∈ es) : dst e ∈ V' := by
  induction h with
  | done => simp at he
  | back _ hV h ih =>
    rcases List.mem_cons.1 he with rfl | he
    · exact h.mem_iff.2 (.inl hV)
    · exact ih he
  | cross _ hV h ih =>
    rcases List.mem_cons.1 he with rfl | he
    · exact h.mem_iff.2 (.inl hV)
    · exact ih he
  | tree _ h₁ h₂ _ ih₂ =>
    rcases List.mem_cons.1 he with rfl | he
    · exact h₂.mem_iff.2 (.inl (h₁.mem_iff.2 (.inl (Set.mem_insert _ _))))
    · exact ih₂ he

/-- The arcs out of an entered node lead to nodes seen at the end. -/
theorem Scan.dst_mem_of_entered (h : Scan out dst c g V es evs V') {v : α}
    (hv : v ∈ entered dst evs) {e : ε} (he : e ∈ out v) : dst e ∈ V' := by
  induction h with
  | done => simp at hv
  | back _ _ _ ih => exact ih hv
  | cross _ _ _ ih => exact ih hv
  | tree hV h₁ h₂ ih₁ ih₂ =>
    simp only [entered_enter, entered_append, entered_leave, List.mem_cons, List.mem_append] at hv
    rcases hv with rfl | hv | hv
    · exact h₂.mem_iff.2 (.inl (h₁.dst_mem he))
    · exact h₂.mem_iff.2 (.inl (ih₁ hv))
    · exact ih₂ hv

/-- Tree arcs are arcs. -/
theorem Scan.mem_out_of_enter (h : Scan out dst c g V es evs V') (hes : ∀ e ∈ es, e ∈ out c)
    {x : α} {e : ε} (he : .enter x e ∈ evs) : e ∈ out x := by
  induction h with
  | done => simp at he
  | back _ _ _ ih =>
    exact ih (fun e' he' ↦ hes e' (List.mem_cons_of_mem _ he')) (by simpa using he)
  | cross _ _ _ ih =>
    exact ih (fun e' he' ↦ hes e' (List.mem_cons_of_mem _ he')) (by simpa using he)
  | tree _ _ _ ih₁ ih₂ =>
    simp only [List.mem_cons, List.mem_append, Event.enter.injEq, reduceCtorEq, false_or] at he
    rcases he with ⟨rfl, rfl⟩ | he | he
    · exact hes _ List.mem_cons_self
    · exact ih₁ (fun _ h ↦ h) he
    · exact ih₂ (fun e' he' ↦ hes e' (List.mem_cons_of_mem _ he')) he

/-- The entered nodes descend from the node scanned. -/
theorem Scan.ancestor_of_entered (h : Scan out dst c g V es evs V') {v : α}
    (hv : v ∈ entered dst evs) : Ancestor dst evs c v := by
  induction h with
  | done => simp at hv
  | back _ _ _ ih => exact (ih hv).mono fun _ h ↦ List.mem_cons_of_mem _ h
  | cross _ _ _ ih => exact (ih hv).mono fun _ h ↦ List.mem_cons_of_mem _ h
  | @tree c g V e es evs₁ V₁ evs₂ V₂ _ _ _ ih₁ ih₂ =>
    have hstep : TreeArc dst (.enter c e :: (evs₁ ++ .leave (dst e) :: evs₂)) c (dst e) :=
      ⟨e, List.mem_cons_self, rfl⟩
    simp only [entered_enter, entered_append, entered_leave, List.mem_cons, List.mem_append] at hv
    rcases hv with rfl | hv | hv
    · exact .single hstep
    · refine .head hstep ((ih₁ hv).mono fun _ h ↦ ?_)
      exact List.mem_cons_of_mem _ (List.mem_append_left _ h)
    · exact (ih₂ hv).mono fun _ h ↦
        List.mem_cons_of_mem _ (List.mem_append_right _ (List.mem_cons_of_mem _ h))

theorem mem_entered_of_enter {x : α} {e : ε} (h : .enter x e ∈ evs) : dst e ∈ entered dst evs :=
  List.mem_filterMap.2 ⟨_, h, rfl⟩

theorem exists_enter_of_mem {v : α} (h : v ∈ entered dst evs) :
    ∃ x e, .enter x e ∈ evs ∧ dst e = v := by
  obtain ⟨ev, hev, hsome⟩ := List.mem_filterMap.1 h
  cases ev with
  | enter x e => exact ⟨x, e, hev, by simpa using hsome⟩
  | back => simp at hsome
  | cross => simp at hsome
  | leave => simp at hsome

/-! ### Preorder -/

/-- A node is entered after its parent in the tree. -/
theorem Scan.sublist_of_enter (h : Scan out dst c g V es evs V') {x : α} {e : ε}
    (he : .enter x e ∈ evs) : x = c ∨ [x, dst e].Sublist (entered dst evs) := by
  induction h with
  | done => simp at he
  | back _ _ _ ih => exact ih (by simpa using he)
  | cross _ _ _ ih => exact ih (by simpa using he)
  | @tree c g V a es evs₁ V₁ evs₂ V₂ _ h₁ _ ih₁ ih₂ =>
    rw [entered_enter, entered_append, entered_leave]
    simp only [List.mem_cons, List.mem_append, Event.enter.injEq, reduceCtorEq, false_or] at he
    rcases he with ⟨rfl, rfl⟩ | he | he
    · exact .inl rfl
    · refine .inr ?_
      rcases ih₁ he with rfl | hsub
      · exact (List.singleton_sublist.2
          (List.mem_append_left _ (mem_entered_of_enter he))).cons_cons _
      · exact (hsub.trans (List.sublist_append_left _ _)).cons _
    · exact (ih₂ he).imp_right fun hsub ↦ (hsub.trans (List.sublist_append_right _ _)).cons _

/-- **An arc that leads forward in preorder leads to a descendant.** -/
theorem Scan.ancestor_of_arc (h : Scan out dst c g V es evs V') {x : α} (hx : x ∈ entered dst evs)
    {e : ε} (he : e ∈ out x) :
    dst e ∈ V ∨ [dst e, x].Sublist (entered dst evs) ∨ Ancestor dst evs x (dst e) := by
  induction h with
  | done => simp at hx
  | back _ _ _ ih =>
    exact (ih hx).imp_right (.imp_right (.mono fun _ h ↦ List.mem_cons_of_mem _ h))
  | cross _ _ _ ih =>
    exact (ih hx).imp_right (.imp_right (.mono fun _ h ↦ List.mem_cons_of_mem _ h))
  | @tree c g V a es evs₁ V₁ evs₂ V₂ _ h₁ h₂ ih₁ ih₂ =>
    have hmono₁ : ∀ ev ∈ evs₁, ev ∈ .enter c a :: (evs₁ ++ .leave (dst a) :: evs₂) :=
      fun _ h ↦ List.mem_cons_of_mem _ (List.mem_append_left _ h)
    have hmono₂ : ∀ ev ∈ evs₂, ev ∈ .enter c a :: (evs₁ ++ .leave (dst a) :: evs₂) :=
      fun _ h ↦ List.mem_cons_of_mem _ (List.mem_append_right _ (List.mem_cons_of_mem _ h))
    simp only [entered_enter, entered_append, entered_leave, List.mem_cons, List.mem_append] at hx ⊢
    rcases hx with rfl | hx | hx
    · rcases h₁.mem_iff.1 (h₁.dst_mem he) with (heq | hV) | hin
      · exact .inr (.inr (heq ▸ .refl))
      · exact .inl hV
      · exact .inr (.inr ((h₁.ancestor_of_entered hin).mono hmono₁))
    · rcases ih₁ hx with (heq | hV) | hsub | hanc
      · rw [heq]
        exact .inr (.inl ((List.singleton_sublist.2 (List.mem_append_left _ hx)).cons_cons _))
      · exact .inl hV
      · exact .inr (.inl ((hsub.trans (List.sublist_append_left _ _)).cons _))
      · exact .inr (.inr (hanc.mono hmono₁))
    · rcases ih₂ hx with hV₁ | hsub | hanc
      · rcases h₁.mem_iff.1 hV₁ with (heq | hV) | hin
        · rw [heq]
          exact .inr (.inl ((List.singleton_sublist.2 (List.mem_append_right _ hx)).cons_cons _))
        · exact .inl hV
        · exact .inr (.inl (.cons _ ((List.singleton_sublist.2 hin).append
            (List.singleton_sublist.2 hx))))
      · exact .inr (.inl ((hsub.trans (List.sublist_append_right _ _)).cons _))
      · exact .inr (.inr (hanc.mono hmono₂))

/-- In preorder, `b` comes right after `a`: its parent is an ancestor of `a`. -/
def Follows (dst : ε → α) (evs : List (Event α ε)) (a b : α) : Prop :=
  ∃ p, TreeArc dst evs p b ∧ Ancestor dst evs p a

/-- **Preorder backtracks along the tree.** The parent of the next node entered is an ancestor of the
last one. `E` are the events of the whole traversal, and `a` is the last node entered before. -/
theorem Scan.isChain_follows (h : Scan out dst c g V es evs V') {E : List (Event α ε)}
    (hE : ∀ ev ∈ evs, ev ∈ E) {a : α} (ha : Ancestor dst E c a) :
    List.IsChain (Follows dst E) (a :: entered dst evs) := by
  induction h generalizing a with
  | done => exact .singleton _
  | back _ _ _ ih => exact ih (fun ev hev ↦ hE ev (List.mem_cons_of_mem _ hev)) ha
  | cross _ _ _ ih => exact ih (fun ev hev ↦ hE ev (List.mem_cons_of_mem _ hev)) ha
  | @tree c g V e es evs₁ V₁ evs₂ V₂ _ h₁ h₂ ih₁ ih₂ =>
    have hE₁ : ∀ ev ∈ evs₁, ev ∈ E := fun ev hev ↦
      hE ev (List.mem_cons_of_mem _ (List.mem_append_left _ hev))
    have hE₂ : ∀ ev ∈ evs₂, ev ∈ E := fun ev hev ↦
      hE ev (List.mem_cons_of_mem _ (List.mem_append_right _ (List.mem_cons_of_mem _ hev)))
    have harc : TreeArc dst E c (dst e) := ⟨e, hE _ List.mem_cons_self, rfl⟩
    rw [entered_enter, entered_append, entered_leave, List.isChain_cons_cons, ← List.cons_append]
    refine ⟨⟨c, harc, ha⟩, ?_⟩
    -- the subtree is a chain, and everything in it descends from `c`
    have hlast : ∀ x ∈ (dst e :: entered dst evs₁).getLast?, Ancestor dst E c x := by
      intro x hx
      rcases List.mem_cons.1 (List.mem_of_getLast? hx) with rfl | hx
      · exact .single harc
      · exact .head harc ((h₁.ancestor_of_entered hx).mono hE₁)
    refine List.isChain_append.2 ⟨ih₁ hE₁ .refl, (ih₂ hE₂ .refl).tail, fun x hx y hy ↦ ?_⟩
    have hchain := ih₂ hE₂ (hlast x hx)
    cases hl : entered dst evs₂ with
    | nil => simp [hl] at hy
    | cons z l =>
      rw [hl] at hy hchain
      obtain rfl : z = y := by simpa using hy
      exact (List.isChain_cons_cons.1 hchain).1

/-! ### Postorder -/

/-- The arcs scanned lead to stack nodes, to nodes left before, or to nodes left during the scan. -/
theorem Scan.mem_left_of_mem (h : Scan out dst c g V es evs V') {e : ε} (he : e ∈ es) :
    .back c e ∈ evs ∨ dst e ∈ V ∧ dst e ∉ g ∨ dst e ∈ left evs := by
  induction h with
  | done => simp at he
  | back _ _ _ ih =>
    rcases List.mem_cons.1 he with rfl | he
    · exact .inl List.mem_cons_self
    · exact (ih he).imp_left (List.mem_cons_of_mem _)
  | cross hg hV _ ih =>
    rcases List.mem_cons.1 he with rfl | he
    · exact .inr (.inl ⟨hV, hg⟩)
    · exact (ih he).imp_left (List.mem_cons_of_mem _)
  | @tree c g V a es evs₁ V₁ evs₂ V₂ _ h₁ _ _ ih₂ =>
    simp only [left_enter, left_append, left_leave, List.mem_append, List.mem_cons]
    rcases List.mem_cons.1 he with rfl | he
    · exact .inr (.inr (.inr (.inl rfl)))
    · rcases ih₂ he with hb | ⟨hV₁, hg⟩ | hl
      · exact .inl (.inr (.inr (.inr hb)))
      · rcases h₁.mem_iff.1 hV₁ with (heq | hV) | hin
        · exact .inr (.inr (.inr (.inl heq)))
        · exact .inr (.inl ⟨hV, hg⟩)
        · exact .inr (.inr (.inl (h₁.left_perm.mem_iff.2 hin)))
      · exact .inr (.inr (.inr (.inr hl)))

/-- **An arc that is not a back arc leads backward in postorder.** -/
theorem Scan.sublist_left_of_arc (h : Scan out dst c g V es evs V') {x : α}
    (hx : x ∈ entered dst evs) {e : ε} (he : e ∈ out x) :
    .back x e ∈ evs ∨ dst e ∈ V ∧ dst e ∉ g ∨ [dst e, x].Sublist (left evs) := by
  induction h with
  | done => simp at hx
  | back _ _ _ ih => exact (ih hx).imp_left (List.mem_cons_of_mem _)
  | cross _ _ _ ih => exact (ih hx).imp_left (List.mem_cons_of_mem _)
  | @tree c g V a es evs₁ V₁ evs₂ V₂ _ h₁ h₂ ih₁ ih₂ =>
    rw [left_enter, left_append, left_leave]
    simp only [entered_enter, entered_append, entered_leave, List.mem_cons, List.mem_append] at hx
    have hback₁ : ∀ ev ∈ evs₁, ev ∈ .enter c a :: (evs₁ ++ .leave (dst a) :: evs₂) :=
      fun _ h ↦ List.mem_cons_of_mem _ (List.mem_append_left _ h)
    have hstack : dst e ∈ insert (dst a) V ∧ dst e ∉ dst a :: g → dst e ∈ V ∧ dst e ∉ g := by
      rintro ⟨hV, hg⟩
      rw [List.mem_cons, not_or] at hg
      exact ⟨hV.resolve_left hg.1, hg.2⟩
    rcases hx with rfl | hx | hx
    · rcases h₁.mem_left_of_mem he with hb | hV | hl
      · exact .inl (hback₁ _ hb)
      · exact .inr (.inl (hstack hV))
      · exact .inr (.inr ((List.singleton_sublist.2 hl).append
          (List.singleton_sublist.2 List.mem_cons_self)))
    · rcases ih₁ hx with hb | hV | hsub
      · exact .inl (hback₁ _ hb)
      · exact .inr (.inl (hstack hV))
      · exact .inr (.inr (hsub.trans (List.sublist_append_left _ _)))
    · have hxl : x ∈ dst a :: left evs₂ := List.mem_cons_of_mem _ (h₂.left_perm.mem_iff.2 hx)
      rcases ih₂ hx with hb | ⟨hV₁, hg⟩ | hsub
      · exact .inl (List.mem_cons_of_mem _ (List.mem_append_right _ (List.mem_cons_of_mem _ hb)))
      · rcases h₁.mem_iff.1 hV₁ with (heq | hV) | hin
        · rw [heq]
          exact .inr (.inr (((List.singleton_sublist.2 (h₂.left_perm.mem_iff.2 hx)).cons_cons
            _).trans (List.sublist_append_right _ _)))
        · exact .inr (.inl ⟨hV, hg⟩)
        · exact .inr (.inr ((List.singleton_sublist.2 (h₁.left_perm.mem_iff.2 hin)).append
            (List.singleton_sublist.2 hxl)))
      · exact .inr (.inr ((hsub.cons _).trans (List.sublist_append_right _ _)))

/-- A back arc leads to a node that was on the stack before, or to an ancestor of its source. -/
theorem Scan.ancestor_of_back (h : Scan out dst c g V es evs V') {x : α} {e : ε}
    (hb : .back x e ∈ evs) :
    (x = c ∨ x ∈ entered dst evs) ∧ (dst e ∈ g ∨ Ancestor dst evs (dst e) x) := by
  induction h with
  | done => simp at hb
  | @back c g V a es evs V' hg _ _ ih =>
    simp only [List.mem_cons, Event.back.injEq] at hb
    rcases hb with ⟨rfl, rfl⟩ | hb
    · exact ⟨.inl rfl, .inl hg⟩
    · exact ⟨(ih hb).1, (ih hb).2.imp_right (.mono fun _ h ↦ List.mem_cons_of_mem _ h)⟩
  | cross _ _ _ ih =>
    have hb' := ih (by simpa using hb)
    exact ⟨hb'.1, hb'.2.imp_right (.mono fun _ h ↦ List.mem_cons_of_mem _ h)⟩
  | @tree c g V a es evs₁ V₁ evs₂ V₂ _ h₁ h₂ ih₁ ih₂ =>
    have hmono₁ : ∀ ev ∈ evs₁, ev ∈ .enter c a :: (evs₁ ++ .leave (dst a) :: evs₂) :=
      fun _ h ↦ List.mem_cons_of_mem _ (List.mem_append_left _ h)
    have hmono₂ : ∀ ev ∈ evs₂, ev ∈ .enter c a :: (evs₁ ++ .leave (dst a) :: evs₂) :=
      fun _ h ↦ List.mem_cons_of_mem _ (List.mem_append_right _ (List.mem_cons_of_mem _ h))
    simp only [entered_enter, entered_append, entered_leave, List.mem_cons, List.mem_append]
    simp only [List.mem_cons, List.mem_append, reduceCtorEq, false_or] at hb
    rcases hb with hb | hb
    · obtain ⟨hx, hd⟩ := ih₁ hb
      refine ⟨.inr (hx.imp_right .inl), ?_⟩
      rcases hd with hd | hd
      · rcases List.mem_cons.1 hd with heq | hd
        · rw [heq]
          refine .inr ?_
          rcases hx with rfl | hx
          · exact .refl
          · exact (h₁.ancestor_of_entered hx).mono hmono₁
        · exact .inl hd
      · exact .inr (hd.mono hmono₁)
    · obtain ⟨hx, hd⟩ := ih₂ hb
      exact ⟨hx.imp_right fun h ↦ .inr (.inr h), hd.imp_right (.mono hmono₂)⟩

end ScanFacts

/-! ### Renaming arcs -/

section Map

variable {ε' : Type*} {out' : α → List ε'} {dst' : ε' → α} {f : ε → ε'}

/-- An event with its arc renamed. -/
def Event.map (f : ε → ε') : Event α ε → Event α ε'
  | .enter c e => .enter c (f e)
  | .back c e => .back c (f e)
  | .cross c e => .cross c (f e)
  | .leave v => .leave v

theorem entered_map (hdst : ∀ e, dst' (f e) = dst e) (evs : List (Event α ε)) :
    entered dst' (evs.map (Event.map f)) = entered dst evs := by
  induction evs with
  | nil => rfl
  | cons ev evs ih => cases ev <;> simp [Event.map, ih, hdst]

theorem back_mem_map (hf : Function.Injective f) {evs : List (Event α ε)} {x : α} {e : ε} :
    .back x (f e) ∈ evs.map (Event.map f) ↔ .back x e ∈ evs := by
  refine ⟨fun h ↦ ?_, fun h ↦ List.mem_map.2 ⟨_, h, rfl⟩⟩
  obtain ⟨ev, hev, heq⟩ := List.mem_map.1 h
  cases ev with
  | back c e' =>
    obtain ⟨rfl, hfe⟩ : c = x ∧ f e' = f e := by simpa [Event.map] using heq
    exact hf hfe ▸ hev
  | enter => simp [Event.map] at heq
  | cross => simp [Event.map] at heq
  | leave => simp [Event.map] at heq

/-- A scan of renamed arcs is a scan of the arcs. -/
theorem Scan.exists_of_map (hout : ∀ v, out' v = (out v).map f) (hdst : ∀ e, dst' (f e) = dst e)
    {c : α} {g : List α} {V V' : Set α} {es' : List ε'} {evs' : List (Event α ε')}
    (h : Scan out' dst' c g V es' evs' V') {es : List ε} (hes : es' = es.map f) :
    ∃ evs, evs' = evs.map (Event.map f) ∧ Scan out dst c g V es evs V' := by
  induction h generalizing es with
  | done =>
    obtain rfl := List.map_eq_nil_iff.1 hes.symm
    exact ⟨[], rfl, .done⟩
  | back hg hV _ ih =>
    obtain ⟨e, es, rfl, rfl, rfl⟩ := List.map_eq_cons_iff.1 hes.symm
    obtain ⟨evs, rfl, hscan⟩ := ih rfl
    rw [hdst] at hg hV
    exact ⟨.back _ e :: evs, rfl, .back hg hV hscan⟩
  | cross hg hV _ ih =>
    obtain ⟨e, es, rfl, rfl, rfl⟩ := List.map_eq_cons_iff.1 hes.symm
    obtain ⟨evs, rfl, hscan⟩ := ih rfl
    rw [hdst] at hg hV
    exact ⟨.cross _ e :: evs, rfl, .cross hg hV hscan⟩
  | tree hV _ _ ih₁ ih₂ =>
    obtain ⟨e, es, rfl, rfl, rfl⟩ := List.map_eq_cons_iff.1 hes.symm
    obtain ⟨evs₁, rfl, hscan₁⟩ := ih₁ (hout _)
    obtain ⟨evs₂, rfl, hscan₂⟩ := ih₂ rfl
    rw [hdst] at hV hscan₁
    refine ⟨.enter _ e :: (evs₁ ++ .leave (dst e) :: evs₂), ?_, .tree hV hscan₁ hscan₂⟩
    simp [Event.map, hdst]

end Map

variable (out dst)

/-! ### Programs -/

/-- The actions of a traversal program on its state. -/
structure Visitor (α ε σ : Type*) where
  marked : σ → α → Bool
  enter : α → ε → σ → σ
  pass : α → ε → σ → σ
  leave : α → σ → σ

namespace Visitor

variable {σ : Type*} (vis : Visitor α ε σ)

/-- The action for an event. -/
def handle (st : σ) : Event α ε → σ
  | .enter c e => vis.enter c e st
  | .back c e => vis.pass c e st
  | .cross c e => vis.pass c e st
  | .leave v => vis.leave v st

/-- What is done with one arc, given how a node is visited. -/
def arcStep {m : Type _ → Type*} [Monad m] (visit : α → σ → m σ) (c : α) (st : σ) (e : ε) : m σ :=
  if vis.marked st (dst e) then pure (vis.pass c e st)
  else do
    let st ← visit (dst e) (vis.enter c e st)
    pure (vis.leave (dst e) st)

/-- The program: go through the arcs of `c`, entering the unmarked nodes. `stuck` is the outcome
without fuel. -/
def visit {m : Type _ → Type*} [Monad m] (stuck : m σ) : ℕ → α → σ → m σ
  | 0, _, _ => stuck
  | fuel + 1, c, st => (out c).foldlM (vis.arcStep dst (visit stuck fuel) c) st

/-- The marks behave: entering marks the node entered, and nothing else changes what is marked. -/
structure Marks : Prop where
  enter : ∀ c e st v, vis.marked (vis.enter c e st) v = true ↔ v = dst e ∨ vis.marked st v = true
  pass : ∀ c e st v, vis.marked (vis.pass c e st) v = true ↔ vis.marked st v = true
  leave : ∀ v st w, vis.marked st v = true →
    (vis.marked (vis.leave v st) w = true ↔ vis.marked st w = true)

variable {vis out dst} {m : Type _ → Type*} [Monad m] [LawfulMonad m]

/-- **A scan of the program is a scan.** All targets lie in `U`, where the marks are the nodes seen.
`R` bounds the nodes not seen yet; entering one of them spends one unit of fuel. The induction is on
the fuel, and for one fuel on the arcs. -/
theorem Marks.foldlM_arcStep (hm : vis.Marks dst) (stuck : m σ) {U : Set α}
    (hU : ∀ v ∈ U, ∀ e ∈ out v, dst e ∈ U) [DecidableEq α] {fuel : ℕ} {es : List ε} {c : α}
    {g : List α} {V : Set α} {s : σ} {R : Finset α} (hes : ∀ e ∈ es, dst e ∈ U)
    (hR : ∀ v ∈ U, v ∉ V → v ∈ R) (hfuel : R.card ≤ fuel) (hg : ∀ v ∈ g, v ∈ V)
    (hst : ∀ v ∈ U, vis.marked s v = true ↔ v ∈ V) :
    ∃ evs V', Scan out dst c g V es evs V' ∧
      es.foldlM (vis.arcStep dst (vis.visit out dst stuck fuel) c) s =
        pure (evs.foldl vis.handle s) ∧
      (∀ v ∈ U, vis.marked (evs.foldl vis.handle s) v = true ↔ v ∈ V') ∧ V ⊆ V' := by
  induction fuel using Nat.strongRecOn generalizing es c g V s R with
  | ind fuel ihfuel =>
  induction es generalizing V s with
  | nil => exact ⟨[], V, .done, rfl, hst, subset_rfl⟩
  | cons e es ih =>
    have hrest : ∀ e' ∈ es, dst e' ∈ U := fun e' he' ↦ hes e' (List.mem_cons_of_mem _ he')
    rw [List.foldlM_cons, arcStep]
    by_cases hV : dst e ∈ V
    · obtain ⟨evs, V', hscan, hrun, hmark, hsub⟩ := ih hrest hR hg
        (fun v hv ↦ (hm.pass c e s v).trans (hst v hv))
      rw [if_pos ((hst _ (hes e List.mem_cons_self)).2 hV), pure_bind]
      by_cases hmem : dst e ∈ g
      · exact ⟨.back c e :: evs, V', .back hmem hV hscan, hrun, hmark, hsub⟩
      · exact ⟨.cross c e :: evs, V', .cross hmem hV hscan, hrun, hmark, hsub⟩
    · have hdU : dst e ∈ U := hes e List.mem_cons_self
      have hdR : dst e ∈ R := hR _ hdU hV
      have hcard := Finset.card_erase_add_one hdR
      obtain ⟨fuel', rfl⟩ : ∃ fuel', fuel = fuel' + 1 := ⟨fuel - 1, by omega⟩
      obtain ⟨evs₁, V₁, hscan₁, hrun₁, hmark₁, hsub₁⟩ :=
        ihfuel fuel' (Nat.lt_succ_self _) (c := dst e) (g := dst e :: g) (V := insert (dst e) V)
          (s := vis.enter c e s) (R := R.erase (dst e)) (hU _ hdU)
          (fun v hv hnot ↦ Finset.mem_erase.2 ⟨fun h ↦ hnot (.inl h), hR v hv fun h ↦ hnot (.inr h)⟩)
          (by omega)
          (fun v hv ↦ (List.mem_cons.1 hv).imp id (hg v))
          (fun v hv ↦ (hm.enter c e s v).trans (or_congr_right (hst v hv)))
      have hsubV : V ⊆ V₁ := (Set.subset_insert _ _).trans hsub₁
      have hdV₁ : dst e ∈ V₁ := hsub₁ (Set.mem_insert _ _)
      obtain ⟨evs₂, V₂, hscan₂, hrun₂, hmark₂, hsub₂⟩ :=
        ih (V := V₁) (s := vis.leave (dst e) (evs₁.foldl vis.handle (vis.enter c e s))) hrest
          (fun v hv hnot ↦ hR v hv fun h ↦ hnot (hsubV h)) (fun v hv ↦ hsubV (hg v hv))
          (fun v hv ↦ (hm.leave _ _ v ((hmark₁ _ hdU).2 hdV₁)).trans (hmark₁ v hv))
      refine ⟨.enter c e :: (evs₁ ++ .leave (dst e) :: evs₂), V₂, .tree hV hscan₁ hscan₂, ?_, ?_,
        hsubV.trans hsub₂⟩
      · rw [if_neg fun h ↦ hV ((hst _ hdU).1 h), visit, hrun₁, pure_bind, pure_bind, hrun₂]
        simp only [List.foldl_cons, List.foldl_append, handle]
      · simpa only [List.foldl_cons, List.foldl_append, handle] using hmark₂

/-- **A run of the program.** Started on a root, the only marked node, with as much fuel as there are
nodes, it returns, and does what the events of a traversal say. -/
theorem Marks.visit_eq (hm : vis.Marks dst) (stuck : m σ) [DecidableEq α] {nodes : Finset α}
    (hclosed : ∀ v ∈ nodes, ∀ e ∈ out v, dst e ∈ nodes) {r : α} (hr : r ∈ nodes) {fuel : ℕ}
    (hfuel : nodes.card ≤ fuel) {st : σ} (hst : ∀ v ∈ nodes, vis.marked st v = true ↔ v = r) :
    ∃ evs V, Scan out dst r [r] {r} (out r) evs V ∧
      vis.visit out dst stuck fuel r st = pure (evs.foldl vis.handle st) ∧
      ∀ v ∈ nodes, vis.marked (evs.foldl vis.handle st) v = true ↔ v ∈ V := by
  have hcard := Finset.card_erase_add_one hr
  obtain ⟨fuel', rfl⟩ : ∃ fuel', fuel = fuel' + 1 := ⟨fuel - 1, by omega⟩
  obtain ⟨evs, V, hscan, hrun, hmark, -⟩ := hm.foldlM_arcStep stuck (U := {v | v ∈ nodes}) hclosed
    (c := r) (g := [r]) (V := {r}) (hclosed r hr)
    (fun v hv hne ↦ Finset.mem_erase.2 ⟨hne, hv⟩) (by omega : (nodes.erase r).card ≤ fuel')
    (fun v hv ↦ List.mem_singleton.1 hv) hst
  exact ⟨evs, V, hscan, hrun, hmark⟩

end Visitor

end OpenImpact.Foundation.Dfs
