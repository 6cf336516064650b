import OpenImpact.Foundation.Reach
import OpenImpact.Library.Md
import Mathlib.Data.List.Flatten

/-!
# Machine descriptions built by the operations

What holds of every md that calls of the operations build: ids, names and field indices are unique,
fields belong to declarations, and the last element of a field is set.
-/

namespace OpenImpact.Libmd

variable {D : Type}

/-- An md that calls of the operations build from a new one. -/
abbrev Md.Built (md : Md D) : Prop := Reach Md.step (fun _ _ ↦ True) ⟨[], 0, 0⟩ md

/-! ### The invariant -/

/-- The array of a field is counted by an `int`, its last element is set, and the sizes of its blocks
are `unsigned int`s. -/
structure Field.Wf (f : Field D) : Prop where
  length_le : f.length ≤ maxArraySize
  last : f.getLast? ≠ some none
  block : ∀ b, some (Element.block b) ∈ f → b.length < 2 ^ 32

/-- A link requirement leads somewhere, and a starred requirement is there. -/
structure FieldDecl.Wf (d : FieldDecl) : Prop where
  length_require : d.require.length ≤ maxArraySize
  link : ∀ ids, ElementReq.link ids ∈ d.require → ids ≠ [] ∧ ids.length ≤ 2147483647
  starred : d.kleeneStarred = true → d.require ≠ []

/-- Field indices and names are unique, and entries have fields for declared indices only. -/
structure Section.Wf (s : Section D) : Prop where
  nodup_index : (s.fieldDecls.map FieldDecl.fieldIndex).Nodup
  lt_numFieldIndex : ∀ d ∈ s.fieldDecls, d.fieldIndex < s.numFieldIndex
  nodup_decls : (s.fieldDecls.map FieldDecl.name).Nodup
  length_decls : s.fieldDecls.length ≤ 2147483647
  decls : ∀ d ∈ s.fieldDecls, d.Wf
  nodup_entries : (s.entries.map Entry.name).Nodup
  length_entries : s.entries.length ≤ 2147483647
  declared : ∀ e ∈ s.entries, ∀ i f, e.field i = some f → i ∈ s.fieldDecls.map FieldDecl.fieldIndex
  fields : ∀ e ∈ s.entries, ∀ i f, e.field i = some f → f.Wf

/-- Ids and names are unique, and the next ids are new. -/
structure Md.Wf (md : Md D) : Prop where
  nodup_ids : (md.sections.map Section.id).Nodup
  lt_nextSection : ∀ s ∈ md.sections, s.id < md.nextSection
  nodup_names : (md.sections.map Section.name).Nodup
  length_sections : md.sections.length ≤ 2147483647
  nodup_entryIds : ((md.sections.flatMap Section.entries).map Entry.id).Nodup
  lt_nextEntry : ∀ e ∈ md.sections.flatMap Section.entries, e.id < md.nextEntry
  sections : ∀ s ∈ md.sections, s.Wf

/-! ### Replacing a part -/

namespace Md.Wf

variable {md : Md D} {s s' : Section D}

/-- Entries of a section have ids of their own. -/
theorem nodup_ids_section (h : md.Wf) (hs : s ∈ md.sections) : (s.entries.map Entry.id).Nodup := by
  obtain ⟨pre, post, hsplit⟩ := List.append_of_mem hs
  have hnodup := h.nodup_entryIds
  rw [hsplit, List.flatMap_append, List.flatMap_cons, List.map_append, List.map_append] at hnodup
  exact (List.nodup_append.1 (List.nodup_append.1 hnodup).2.1).1

/-- Numbers in the middle are replaced by some of them and by new ones, which are not below `n`. -/
theorem nodup_append_replace {A B C B' new : List ℕ} {n : ℕ} (h : (A ++ (B ++ C)).Nodup)
    (hlt : ∀ i ∈ A ++ (B ++ C), i < n) (hnew : new.Nodup) (hle : ∀ i ∈ new, n ≤ i)
    (hsub : B'.Sublist (B ++ new)) : (A ++ (B' ++ C)).Nodup := by
  have hall : (A ++ (B ++ C) ++ new).Nodup :=
    List.nodup_append.2 ⟨h, hnew, fun i hi j hj heq ↦ by
      have := hlt i hi
      have := hle j hj
      omega⟩
  have hperm : (A ++ (B ++ C) ++ new).Perm (A ++ (B ++ new ++ C)) := by
    rw [List.append_assoc, List.append_assoc, List.append_assoc]
    exact (List.perm_append_comm.append_left B).append_left A
  exact (hperm.nodup hall).sublist ((List.Sublist.refl A).append (hsub.append (.refl C)))

/-- The section is replaced in its place. -/
theorem sections_setSection (h : md.Wf) (hs : s ∈ md.sections) (hid : s'.id = s.id) :
    ∃ pre post, md.sections = pre ++ s :: post ∧
      (md.setSection s').sections = pre ++ s' :: post := by
  obtain ⟨pre, post, hsplit⟩ := List.append_of_mem hs
  have hnodup := h.nodup_ids
  rw [hsplit] at hnodup
  refine ⟨pre, post, hsplit, ?_⟩
  rw [Md.setSection, hsplit]
  exact setKey_append_cons Section.id hnodup hid

/-- Replacing a section by one with no other entries than some of its own and new ones. -/
theorem setSection (h : md.Wf) (hs : s ∈ md.sections) (s' : Section D) (hid : s'.id = s.id)
    (hname : s'.name = s.name) {new : List ℕ} (hnew : new.Nodup) (hle : ∀ i ∈ new, md.nextEntry ≤ i)
    (hids : (s'.entries.map Entry.id).Sublist (s.entries.map Entry.id ++ new)) {n : ℕ}
    (hnext : md.nextEntry ≤ n) (hlt : ∀ i ∈ new, i < n) (hwf : s'.Wf) :
    ({ md.setSection s' with nextEntry := n } : Md D).Wf := by
  obtain ⟨pre, post, hsplit, hset⟩ := h.sections_setSection hs hid
  have hids' := h.nodup_ids
  have hnames := h.nodup_names
  have hlen := h.length_sections
  have hentries := h.nodup_entryIds
  rw [hsplit] at hids' hnames hlen hentries
  have hmem : ∀ t ∈ (md.setSection s').sections, t = s' ∨ t ∈ md.sections := fun t ht ↦ by
    rw [hset, List.mem_append, List.mem_cons] at ht
    rw [hsplit, List.mem_append, List.mem_cons]
    tauto
  constructor
  · show ((md.setSection s').sections.map Section.id).Nodup
    rw [hset, List.map_append, List.map_cons, hid, ← List.map_cons, ← List.map_append]
    exact hids'
  · show ∀ t ∈ (md.setSection s').sections, t.id < md.nextSection
    intro t ht
    rcases hmem t ht with rfl | ht
    · rw [hid]
      exact h.lt_nextSection s hs
    · exact h.lt_nextSection t ht
  · show ((md.setSection s').sections.map Section.name).Nodup
    rw [hset, List.map_append, List.map_cons, hname, ← List.map_cons, ← List.map_append]
    exact hnames
  · show (md.setSection s').sections.length ≤ _
    rw [hset]
    simpa using hlen
  · show (((md.setSection s').sections.flatMap Section.entries).map Entry.id).Nodup
    rw [List.flatMap_append, List.flatMap_cons, List.map_append, List.map_append] at hentries
    rw [hset, List.flatMap_append, List.flatMap_cons, List.map_append, List.map_append]
    refine nodup_append_replace hentries (fun i hi ↦ ?_) hnew hle hids
    -- the ids in use are those of entries, which are below the next id
    rw [← List.map_append, ← List.map_append, ← List.flatMap_cons, ← List.flatMap_append, ← hsplit] at hi
    obtain ⟨e, he, rfl⟩ := List.mem_map.1 hi
    exact h.lt_nextEntry e he
  · show ∀ e ∈ (md.setSection s').sections.flatMap Section.entries, e.id < n
    intro e hflat
    have hbelow : ∀ t ∈ md.sections, ∀ i ∈ t.entries.map Entry.id, i < md.nextEntry := by
      intro t ht i hi
      obtain ⟨e, he, rfl⟩ := List.mem_map.1 hi
      exact h.lt_nextEntry e (List.mem_flatMap.2 ⟨t, ht, he⟩)
    obtain ⟨t, ht, he⟩ := List.mem_flatMap.1 hflat
    rcases hmem t ht with rfl | ht
    · rcases List.mem_append.1 (hids.subset (List.mem_map_of_mem he)) with hi | hi
      · exact (hbelow s hs _ hi).trans_le hnext
      · exact hlt _ hi
    · exact (hbelow t ht _ (List.mem_map_of_mem he)).trans_le hnext
  · show ∀ t ∈ (md.setSection s').sections, t.Wf
    intro t ht
    rcases hmem t ht with rfl | ht
    · exact hwf
    · exact h.sections t ht

/-- Replacing a section by one with no other entries. -/
theorem setSection_same (h : md.Wf) (hs : s ∈ md.sections) (hid : s'.id = s.id)
    (hname : s'.name = s.name)
    (hids : (s'.entries.map Entry.id).Sublist (s.entries.map Entry.id)) (hwf : s'.Wf) :
    (md.setSection s').Wf :=
  h.setSection hs s' hid hname List.nodup_nil (fun _ hi ↦ nomatch hi)
    (hids.trans (List.sublist_append_left _ [])) (Nat.le_refl _) (fun _ hi ↦ nomatch hi) hwf

/-- A section that is found is one of the description. -/
theorem mem_of_section? {id : ℕ} (hs : md.section? id = some s) : s ∈ md.sections := mem_of_getKey hs

/-- So is the section of an entry. -/
theorem mem_of_sectionOf? {id : ℕ} (hs : md.sectionOf? id = some s) : s ∈ md.sections :=
  List.mem_of_find?_eq_some hs

end Md.Wf

namespace Section.Wf

variable {s : Section D}

/-- Replacing a declaration by one with the same index and name. -/
theorem setFieldDecl (h : s.Wf) {d d' : FieldDecl} (hd : d ∈ s.fieldDecls)
    (hindex : d'.fieldIndex = d.fieldIndex) (hname : d'.name = d.name) (hwf : d'.Wf) :
    (s.setFieldDecl d').Wf := by
  obtain ⟨pre, post, hsplit⟩ := List.append_of_mem hd
  have hset : (s.setFieldDecl d').fieldDecls = pre ++ d' :: post := by
    have hnodup := h.nodup_index
    rw [hsplit] at hnodup
    rw [Section.setFieldDecl, hsplit]
    exact setKey_append_cons FieldDecl.fieldIndex hnodup hindex
  have hmap : ∀ {β : Type} (g : FieldDecl → β), g d' = g d →
      (s.setFieldDecl d').fieldDecls.map g = s.fieldDecls.map g := by
    intro β g hg
    rw [hset, hsplit, List.map_append, List.map_append, List.map_cons, List.map_cons, hg]
  have hmem : ∀ t ∈ (s.setFieldDecl d').fieldDecls, t = d' ∨ t ∈ s.fieldDecls := by
    intro t ht
    rw [hset, List.mem_append, List.mem_cons] at ht
    rw [hsplit, List.mem_append, List.mem_cons]
    tauto
  constructor
  · rw [hmap _ hindex]
    exact h.nodup_index
  · intro t ht
    rcases hmem t ht with rfl | ht
    · rw [hindex]
      exact h.lt_numFieldIndex d hd
    · exact h.lt_numFieldIndex t ht
  · rw [hmap _ hname]
    exact h.nodup_decls
  · have := h.length_decls
    rw [hsplit] at this
    rw [hset]
    simpa using this
  · intro t ht
    rcases hmem t ht with rfl | ht
    · exact hwf
    · exact h.decls t ht
  · exact h.nodup_entries
  · exact h.length_entries
  · intro e he i f hf
    rw [hmap _ hindex]
    exact h.declared e he i f hf
  · exact h.fields

/-- Replacing an entry. -/
theorem setEntry (h : s.Wf) (hids : (s.entries.map Entry.id).Nodup) {e e' : Entry D}
    (he : e ∈ s.entries) (hid : e'.id = e.id)
    (hname : e'.name = e.name ∨ ∀ t ∈ s.entries, t.id ≠ e.id → t.name ≠ e'.name)
    (hdecl : ∀ i f, e'.field i = some f → i ∈ s.fieldDecls.map FieldDecl.fieldIndex ∧ f.Wf) :
    (s.setEntry e').Wf := by
  obtain ⟨pre, post, hsplit⟩ := List.append_of_mem he
  have hset : (s.setEntry e').entries = pre ++ e' :: post := by
    have hnodup := hids
    rw [hsplit] at hnodup
    rw [Section.setEntry, hsplit]
    exact setKey_append_cons Entry.id hnodup hid
  have hmem : ∀ t ∈ (s.setEntry e').entries, t = e' ∨ t ∈ s.entries := by
    intro t ht
    rw [hset, List.mem_append, List.mem_cons] at ht
    rw [hsplit, List.mem_append, List.mem_cons]
    tauto
  have hnames := h.nodup_entries
  rw [hsplit, List.map_append, List.map_cons, List.nodup_middle, List.nodup_cons] at hids hnames
  refine ⟨h.nodup_index, h.lt_numFieldIndex, h.nodup_decls, h.length_decls, h.decls, ?_, ?_,
    fun t ht i f hf ↦ ?_, fun t ht i f hf ↦ ?_⟩
  · rw [hset, List.map_append, List.map_cons, List.nodup_middle, List.nodup_cons]
    refine ⟨?_, hnames.2⟩
    rcases hname with hname | hname
    · rw [hname]
      exact hnames.1
    · rw [← List.map_append]
      intro hmem
      obtain ⟨t, ht, heq⟩ := List.mem_map.1 hmem
      have hts : t ∈ s.entries := by
        rw [hsplit, List.mem_append, List.mem_cons]
        rcases List.mem_append.1 ht with ht | ht
        · exact Or.inl ht
        · exact Or.inr (Or.inr ht)
      refine hname t hts (fun hid ↦ hids.1 ?_) heq
      rw [← hid, ← List.map_append]
      exact List.mem_map_of_mem ht
  · have := h.length_entries
    rw [hsplit] at this
    rw [hset]
    simpa using this
  · rcases hmem t ht with rfl | ht
    · exact (hdecl i f hf).1
    · exact h.declared t ht i f hf
  · rcases hmem t ht with rfl | ht
    · exact (hdecl i f hf).2
    · exact h.fields t ht i f hf

/-- Replacing an entry keeps the ids. -/
theorem map_id_setEntry (s : Section D) (e : Entry D) :
    (s.setEntry e).entries.map Entry.id = s.entries.map Entry.id := map_key_setKey s.entries e

/-- Setting a field, or clearing one. -/
theorem setField (h : s.Wf) (hids : (s.entries.map Entry.id).Nodup) {e : Entry D}
    (he : e ∈ s.entries) {i : ℕ} {f : Option (Field D)}
    (hf : ∀ g, f = some g → i ∈ s.fieldDecls.map FieldDecl.fieldIndex ∧ g.Wf) :
    (s.setEntry (e.setField i f)).Wf := by
  refine h.setEntry hids he rfl (Or.inl rfl) fun j g hg ↦ ?_
  replace hg : Function.update e.field i f j = some g := hg
  rcases eq_or_ne j i with rfl | hji
  · rw [Function.update_self] at hg
    exact hf g hg
  · rw [Function.update_of_ne hji] at hg
    exact ⟨h.declared e he j g hg, h.fields e he j g hg⟩

end Section.Wf

/-! ### Fields -/

namespace Field.Wf

variable {f : Field D}

theorem nil : Field.Wf ([] : Field D) := ⟨Nat.zero_le _, nofun, fun _ h ↦ nomatch h⟩

/-- Setting an element keeps a field well formed. -/
theorem set (h : f.Wf) {i : ℕ} (hi : i < maxArraySize) {x : Element D}
    (hx : ∀ b, x = .block b → b.length < 2 ^ 32) : (f.set i x).Wf := by
  rw [Field.set]
  split_ifs with hlt
  · refine ⟨by rw [List.length_set]; exact h.length_le, ?_, fun b hb ↦ ?_⟩
    · have hlast := h.last
      rw [List.getLast?_eq_getElem?] at hlast ⊢
      rw [List.length_set, List.getElem?_set]
      split_ifs
      · intro hnone
        cases hnone
      · exact hlast
    · rcases List.mem_or_eq_of_mem_set hb with hb | hb
      · exact h.block b hb
      · exact hx b (Option.some.inj hb).symm
  · refine ⟨?_, by simp, fun b hb ↦ ?_⟩
    · simp only [List.length_append, List.length_replicate, List.length_singleton]
      omega
    · rcases List.mem_append.1 hb with hb | hb
      · rcases List.mem_append.1 hb with hb | hb
        · exact h.block b hb
        · cases (List.mem_replicate.1 hb).2
      · exact hx b (Option.some.inj (List.mem_singleton.1 hb)).symm

/-- So does deleting one, with the empty elements at the end. -/
theorem delete (h : f.Wf) (i : ℕ) :
    Field.Wf ((List.set f i none).rdropWhile Option.isNone) := by
  have hinit := List.rdropWhile_prefix Option.isNone (List.set f i none)
  refine ⟨?_, fun hlast ↦ ?_, fun b hb ↦ ?_⟩
  · have := hinit.length_le
    rw [List.length_set] at this
    exact this.trans h.length_le
  · obtain ⟨ys, hys⟩ := List.getLast?_eq_some_iff.1 hlast
    have hne : (List.set f i none).rdropWhile Option.isNone ≠ [] := by simp [hys]
    have := List.rdropWhile_last_not Option.isNone _ hne
    simp [hys] at this
  · rcases List.mem_or_eq_of_mem_set (hinit.subset hb) with hb | hb
    · exact h.block b hb
    · exact absurd hb nofun

end Field.Wf

/-! ### What the operations keep -/

/-- A new symbol has a new name, and there is a number for it. -/
theorem addSymbol_eq_ok {names : List Name} {name : Name} {n : ℤ} (h : addSymbol names name = .ok n) :
    name ∉ names ∧ names.length < 2147483647 := by
  obtain ⟨u, hdup, hint⟩ := Run.bind_eq_ok.1 h
  have := (int32_eq_ok.1 hint).1
  exact ⟨puntIf_eq_ok.1 hdup, by omega⟩

namespace Md.Wf

variable {md md' : Md D}

theorem new : Md.Wf (⟨[], 0, 0⟩ : Md D) :=
  ⟨List.nodup_nil, nofun, List.nodup_nil, Nat.zero_le _, List.nodup_nil, nofun, nofun⟩

/-- A new section keeps the description well formed. -/
theorem newSection (h : md.Wf) {name : Name} {a b : ℤ} {r : Md D × ℕ}
    (hrun : md.newSection name a b = .ok r) : r.1.Wf := by
  obtain ⟨_, -, hrun⟩ := Run.bind_eq_ok.1 hrun
  obtain ⟨_, -, hrun⟩ := Run.bind_eq_ok.1 hrun
  obtain ⟨_, -, hrun⟩ := Run.bind_eq_ok.1 hrun
  obtain ⟨n, hadd, hrun⟩ := Run.bind_eq_ok.1 hrun
  obtain rfl := Except.ok.inj hrun
  obtain ⟨hname, hlen⟩ := addSymbol_eq_ok hadd
  rw [List.length_map] at hlen
  have hflat : (md.sections ++ [(⟨md.nextSection, name, [], 0, []⟩ : Section D)]).flatMap
      Section.entries = md.sections.flatMap Section.entries := by
    rw [List.flatMap_append, List.flatMap_singleton, List.append_nil]
  constructor
  · refine nodup_map_concat h.nodup_ids fun hi ↦ ?_
    obtain ⟨s, hs, hid⟩ := List.mem_map.1 hi
    exact absurd (h.lt_nextSection s hs) (by rw [hid]; exact Nat.lt_irrefl _)
  · intro s hs
    rcases List.mem_append.1 hs with hs | hs
    · exact Nat.lt_succ_of_lt (h.lt_nextSection s hs)
    · rw [List.mem_singleton.1 hs]
      exact Nat.lt_succ_self _
  · exact nodup_map_concat h.nodup_names hname
  · show (md.sections ++ [_]).length ≤ _
    rw [List.length_append, List.length_singleton]
    omega
  · exact hflat ▸ h.nodup_entryIds
  · exact hflat ▸ h.lt_nextEntry
  · intro s hs
    rcases List.mem_append.1 hs with hs | hs
    · exact h.sections s hs
    · rw [List.mem_singleton.1 hs]
      exact ⟨List.nodup_nil, nofun, List.nodup_nil, Nat.zero_le _, nofun, List.nodup_nil,
        Nat.zero_le _, nofun, nofun⟩

/-- So does a new entry. -/
theorem newEntry (h : md.Wf) {sec : ℕ} {name : Name} {r : Md D × ℕ}
    (hrun : md.newEntry sec name = .ok r) : r.1.Wf := by
  obtain ⟨s, hs, hrun⟩ := Run.bind_eq_ok.1 hrun
  obtain ⟨n, hadd, hrun⟩ := Run.bind_eq_ok.1 hrun
  obtain rfl := Except.ok.inj hrun
  obtain ⟨hname, hlen⟩ := addSymbol_eq_ok hadd
  have hmem := mem_of_section? (deref_eq_ok.1 hs)
  have hwf := h.sections s hmem
  rw [List.length_map] at hlen
  refine h.setSection hmem { s with entries := s.entries ++ [⟨md.nextEntry, name, fun _ ↦ none⟩] }
    rfl rfl (List.nodup_singleton md.nextEntry) (fun i hi ↦ (List.mem_singleton.1 hi).ge)
    (by rw [List.map_append]; exact List.Sublist.refl _) (Nat.le_succ _)
    (fun i hi ↦ (List.mem_singleton.1 hi).trans_lt (Nat.lt_succ_self _)) ?_
  have hentry : ∀ e ∈ s.entries ++ [(⟨md.nextEntry, name, fun _ ↦ none⟩ : Entry D)], ∀ i f,
      e.field i = some f → e ∈ s.entries := by
    intro e he i f hf
    rcases List.mem_append.1 he with he | he
    · exact he
    · rw [List.mem_singleton.1 he] at hf
      exact absurd hf nofun
  refine ⟨hwf.nodup_index, hwf.lt_numFieldIndex, hwf.nodup_decls, hwf.length_decls, hwf.decls, ?_,
    ?_, fun e he i f hf ↦ hwf.declared e (hentry e he i f hf) i f hf,
    fun e he i f hf ↦ hwf.fields e (hentry e he i f hf) i f hf⟩
  · exact nodup_map_concat hwf.nodup_entries hname
  · show (s.entries ++ [_]).length ≤ _
    rw [List.length_append, List.length_singleton]
    omega

/-- So does renaming an entry. -/
theorem renameEntry (h : md.Wf) {entry : ℕ} {newName : Name}
    (hrun : md.renameEntry entry newName = .ok md') : md'.Wf := by
  obtain ⟨s, hs, hrun⟩ := Run.bind_eq_ok.1 hrun
  obtain ⟨e, he, hrun⟩ := Run.bind_eq_ok.1 hrun
  obtain ⟨u, hdup, hrun⟩ := Run.bind_eq_ok.1 hrun
  obtain rfl := Except.ok.inj hrun
  have hmem := mem_of_sectionOf? (deref_eq_ok.1 hs)
  have hwf := h.sections s hmem
  have hid := key_of_getKey (deref_eq_ok.1 he)
  have he := mem_of_getKey (deref_eq_ok.1 he)
  refine h.setSection_same hmem rfl rfl
    ((Section.Wf.map_id_setEntry s _).symm ▸ List.Sublist.refl _)
    (hwf.setEntry (h.nodup_ids_section hmem) he rfl (Or.inr fun t ht hne heq ↦ ?_) fun i f hf ↦
      ⟨hwf.declared e he i f hf, hwf.fields e he i f hf⟩)
  refine puntIf_eq_ok.1 hdup (List.mem_map.2 ⟨t, List.mem_filter.2 ⟨ht, ?_⟩, heq⟩)
  rw [← hid]
  exact bne_iff_ne.2 hne

/-- So does a new declaration, behind those of the section. -/
theorem newFieldDecl (h : md.Wf) {sec : ℕ} {name : Name} {type : FieldType} {r : Md D × ℕ}
    (hrun : md.newFieldDecl sec name type = .ok r) : r.1.Wf := by
  obtain ⟨s, hs, hrun⟩ := Run.bind_eq_ok.1 hrun
  obtain ⟨n, hadd, hrun⟩ := Run.bind_eq_ok.1 hrun
  obtain rfl := Except.ok.inj hrun
  obtain ⟨hname, hlen⟩ := addSymbol_eq_ok hadd
  have hmem := mem_of_section? (deref_eq_ok.1 hs)
  have hwf := h.sections s hmem
  rw [List.length_map] at hlen
  -- the index is that of no declaration
  have hfree : s.nextFieldIndex ∉ s.fieldDecls.map FieldDecl.fieldIndex := by
    rw [Section.nextFieldIndex]
    cases hfind : (List.range s.numFieldIndex).find? fun i ↦ (s.fieldDecl? i).isNone with
    | some i =>
      have hnone := List.find?_some hfind
      rw [← getKey_isSome, Option.getD_some]
      simpa [Section.fieldDecl?] using hnone
    | none =>
      rw [Option.getD_none]
      intro hi
      obtain ⟨d, hd, hi⟩ := List.mem_map.1 hi
      exact absurd (hwf.lt_numFieldIndex d hd) (by omega)
  refine h.setSection_same hmem rfl rfl (List.Sublist.refl _) ?_
  refine ⟨?_, fun d hd ↦ ?_, ?_, ?_, fun d hd ↦ ?_, hwf.nodup_entries, hwf.length_entries,
    fun e he i f hf ↦ ?_, hwf.fields⟩
  · exact nodup_map_concat hwf.nodup_index hfree
  · rcases List.mem_append.1 hd with hd | hd
    · exact (hwf.lt_numFieldIndex d hd).trans_le (le_max_left _ _)
    · rw [List.mem_singleton.1 hd]
      exact (Nat.lt_succ_self _).trans_le (le_max_right _ _)
  · exact nodup_map_concat hwf.nodup_decls hname
  · show (s.fieldDecls ++ [_]).length ≤ _
    rw [List.length_append, List.length_singleton]
    omega
  · rcases List.mem_append.1 hd with hd | hd
    · exact hwf.decls d hd
    · rw [List.mem_singleton.1 hd]
      exact ⟨Nat.zero_le _, nofun, nofun⟩
  · rw [List.map_append]
    exact List.mem_append_left _ (hwf.declared e he i f hf)

/-- So does a requirement on an element. -/
theorem newElementReq (h : md.Wf) {sec decl : ℕ} {index : ℤ} {req : ElementReq}
    (hreq : ∀ ids, req = .link ids → ids ≠ [] ∧ ids.length ≤ 2147483647)
    (hrun : md.newElementReq sec decl index req = .ok md') : md'.Wf := by
  obtain ⟨s, hs, hrun⟩ := Run.bind_eq_ok.1 hrun
  obtain ⟨d, hd, hrun⟩ := Run.bind_eq_ok.1 hrun
  obtain ⟨_, hge, hrun⟩ := Run.bind_eq_ok.1 hrun
  obtain ⟨_, hle, hrun⟩ := Run.bind_eq_ok.1 hrun
  obtain ⟨_, hstar, hrun⟩ := Run.bind_eq_ok.1 hrun
  obtain ⟨n, hsize, hrun⟩ := Run.bind_eq_ok.1 hrun
  obtain rfl := Except.ok.inj hrun
  have hmem := mem_of_section? (deref_eq_ok.1 hs)
  have hd := mem_of_getKey (deref_eq_ok.1 hd)
  have hwf := (h.sections s hmem).decls d hd
  have hlt := arraySize_eq_ok hsize
  have hge := puntIf_eq_ok.1 hge
  have hle := puntIf_eq_ok.1 hle
  refine h.setSection_same hmem rfl rfl (List.Sublist.refl _)
    ((h.sections s hmem).setFieldDecl hd rfl rfl ⟨?_, fun ids hids ↦ ?_, fun _ ↦ ?_⟩)
  · rw [List.length_append, List.length_singleton]
    omega
  · rcases List.mem_append.1 hids with hids | hids
    · exact hwf.link ids hids
    · exact hreq ids (List.mem_singleton.1 hids).symm
  · exact List.append_ne_nil_of_right_ne_nil _ (List.cons_ne_nil _ _)

/-- So does one of links to several sections. -/
theorem requireMultiTargetLink (h : md.Wf) {sec decl : ℕ} {index : ℤ} {sections : List ℕ}
    (hrun : md.requireMultiTargetLink sec decl index sections = .ok md') : md'.Wf := by
  obtain ⟨_, hint, hrun⟩ := Run.bind_eq_ok.1 hrun
  obtain ⟨md1, hreq, hrun⟩ := Run.bind_eq_ok.1 hrun
  obtain ⟨_, hne, hrun⟩ := Run.bind_eq_ok.1 hrun
  obtain ⟨_, -, hrun⟩ := Run.bind_eq_ok.1 hrun
  obtain rfl := Except.ok.inj hrun
  have hint := (int32_eq_ok.1 hint).1
  refine h.newElementReq (fun ids hids ↦ ?_) hreq
  obtain rfl := ElementReq.link.inj hids
  exact ⟨puntIf_eq_ok.1 hne, by omega⟩

/-- And one of links to a section. -/
theorem requireLink (h : md.Wf) {sec decl target : ℕ} {index : ℤ}
    (hrun : md.requireLink sec decl index target = .ok md') : md'.Wf := by
  obtain ⟨md1, hreq, hrun⟩ := Run.bind_eq_ok.1 hrun
  obtain ⟨_, -, hrun⟩ := Run.bind_eq_ok.1 hrun
  obtain rfl := Except.ok.inj hrun
  refine h.newElementReq (fun ids hids ↦ ?_) hreq
  obtain rfl := ElementReq.link.inj hids
  exact ⟨List.cons_ne_nil _ _, by rw [List.length_singleton]; decide⟩

/-- And a starred one. -/
theorem kleeneStarRequirement (h : md.Wf) {sec decl : ℕ} {index : ℤ}
    (hrun : md.kleeneStarRequirement sec decl index = .ok md') : md'.Wf := by
  obtain ⟨s, hs, hrun⟩ := Run.bind_eq_ok.1 hrun
  obtain ⟨d, hd, hrun⟩ := Run.bind_eq_ok.1 hrun
  obtain ⟨_, hrange, hrun⟩ := Run.bind_eq_ok.1 hrun
  obtain ⟨_, -, hrun⟩ := Run.bind_eq_ok.1 hrun
  obtain ⟨_, -, hrun⟩ := Run.bind_eq_ok.1 hrun
  obtain rfl := Except.ok.inj hrun
  have hmem := mem_of_section? (deref_eq_ok.1 hs)
  have hd := mem_of_getKey (deref_eq_ok.1 hd)
  have hwf := (h.sections s hmem).decls d hd
  have hrange := puntIf_eq_ok.1 hrange
  refine h.setSection_same hmem rfl rfl (List.Sublist.refl _)
    ((h.sections s hmem).setFieldDecl hd rfl rfl ⟨hwf.length_require, hwf.link, fun _ hnil ↦ ?_⟩)
  have hnil : d.require = [] := hnil
  rw [hnil, List.length_nil] at hrange
  omega

/-- A new field is empty, and of a declaration of its section. -/
theorem newField (h : md.Wf) {entry decl : ℕ} {n : ℤ}
    (hrun : md.newField entry decl n = .ok md') : md'.Wf := by
  obtain ⟨s, hs, hrun⟩ := Run.bind_eq_ok.1 hrun
  obtain ⟨e, he, hrun⟩ := Run.bind_eq_ok.1 hrun
  obtain ⟨d, hd, hrun⟩ := Run.bind_eq_ok.1 hrun
  obtain ⟨_, -, hrun⟩ := Run.bind_eq_ok.1 hrun
  obtain ⟨_, -, hrun⟩ := Run.bind_eq_ok.1 hrun
  obtain ⟨_, -, hrun⟩ := Run.bind_eq_ok.1 hrun
  obtain rfl := Except.ok.inj hrun
  have hmem := mem_of_sectionOf? (deref_eq_ok.1 hs)
  refine h.setSection_same hmem rfl rfl
    ((Section.Wf.map_id_setEntry s _).symm ▸ List.Sublist.refl _)
    ((h.sections s hmem).setField (h.nodup_ids_section hmem) (mem_of_getKey (deref_eq_ok.1 he))
      fun g hg ↦ ⟨List.mem_map_of_mem (mem_of_getKey (deref_eq_ok.1 hd)), ?_⟩)
  obtain rfl := Option.some.inj hg
  exact Field.Wf.nil

/-- Replacing a field of an entry. -/
theorem replaceField (h : md.Wf) {entry decl : ℕ} {s : Section D} {e : Entry D} {f : Field D}
    (hs : deref (md.sectionOf? entry) = .ok s) (he : deref (getKey Entry.id s.entries entry) = .ok e)
    (hf : deref (e.field decl) = .ok f) {g : Option (Field D)} (hg : ∀ g', g = some g' → f.Wf → g'.Wf) :
    (md.setSection (s.setEntry (e.setField decl g))).Wf := by
  have hmem := mem_of_sectionOf? (deref_eq_ok.1 hs)
  have he := mem_of_getKey (deref_eq_ok.1 he)
  have hf := deref_eq_ok.1 hf
  have hwf := h.sections s hmem
  exact h.setSection_same hmem rfl rfl
    ((Section.Wf.map_id_setEntry s _).symm ▸ List.Sublist.refl _)
    (hwf.setField (h.nodup_ids_section hmem) he fun g' hg' ↦
      ⟨hwf.declared e he decl f hf, hg g' hg' (hwf.fields e he decl f hf)⟩)

/-- Setting an element keeps the description well formed. -/
theorem setElement (h : md.Wf) {msg : String} {entry decl : ℕ} {index : ℤ} {x : Element D}
    (hx : ∀ b, x = .block b → b.length < 2 ^ 32)
    (hrun : md.setElement msg entry decl index x = .ok md') : md'.Wf := by
  obtain ⟨s, hs, hrun⟩ := Run.bind_eq_ok.1 hrun
  obtain ⟨e, he, hrun⟩ := Run.bind_eq_ok.1 hrun
  obtain ⟨f, hf, hrun⟩ := Run.bind_eq_ok.1 hrun
  obtain ⟨_, -, hrun⟩ := Run.bind_eq_ok.1 hrun
  obtain ⟨n, hsize, hrun⟩ := Run.bind_eq_ok.1 hrun
  obtain rfl := Except.ok.inj hrun
  refine h.replaceField hs he hf fun g hg hwf ↦ ?_
  obtain rfl := Option.some.inj hg
  exact hwf.set (arraySize_eq_ok hsize) hx

/-- A block has fewer than `2 ^ 32` bytes. -/
theorem setBlock (h : md.Wf) {entry decl : ℕ} {index : ℤ} {b : List UInt8}
    (hrun : md.setBlock entry decl index b = .ok md') : md'.Wf := by
  rw [Md.setBlock] at hrun
  split_ifs at hrun with hlt
  exact h.setElement (fun b' hb ↦ Element.block.inj hb ▸ hlt) hrun

/-- Deleting an element keeps the description well formed. -/
theorem deleteElement (h : md.Wf) {entry decl index : ℕ}
    (hrun : md.deleteElement entry decl index = .ok md') : md'.Wf := by
  obtain ⟨s, hs, hrun⟩ := Run.bind_eq_ok.1 hrun
  obtain ⟨e, he, hrun⟩ := Run.bind_eq_ok.1 hrun
  obtain ⟨f, hf, hrun⟩ := Run.bind_eq_ok.1 hrun
  split at hrun
  · obtain rfl := Except.ok.inj hrun
    refine h.replaceField hs he hf fun g hg hwf ↦ ?_
    obtain rfl := Option.some.inj hg
    exact hwf.delete index
  · obtain rfl := Except.ok.inj hrun
    exact h

/-- So does deleting a field. -/
theorem deleteField (h : md.Wf) {entry decl : ℕ} (hrun : md.deleteField entry decl = .ok md') :
    md'.Wf := by
  obtain ⟨s, hs, hrun⟩ := Run.bind_eq_ok.1 hrun
  obtain ⟨e, he, hrun⟩ := Run.bind_eq_ok.1 hrun
  obtain ⟨f, hf, hrun⟩ := Run.bind_eq_ok.1 hrun
  obtain rfl := Except.ok.inj hrun
  exact h.replaceField hs he hf nofun

/-- So does deleting a declaration, with the fields of all entries for it. -/
theorem deleteFieldDecl (h : md.Wf) {sec decl : ℕ} (hrun : md.deleteFieldDecl sec decl = .ok md') :
    md'.Wf := by
  obtain ⟨s, hs, hrun⟩ := Run.bind_eq_ok.1 hrun
  obtain ⟨d, hd, hrun⟩ := Run.bind_eq_ok.1 hrun
  obtain rfl := Except.ok.inj hrun
  have hmem := mem_of_section? (deref_eq_ok.1 hs)
  have hwf := h.sections s hmem
  have hindex := key_of_getKey (deref_eq_ok.1 hd)
  have hfilter : (s.fieldDecls.filter fun d ↦ d.fieldIndex != decl).Sublist s.fieldDecls :=
    List.filter_sublist
  have hids : (s.entries.map fun e ↦ e.setField d.fieldIndex none).map Entry.id =
      s.entries.map Entry.id := by
    rw [List.map_map]
    rfl
  have hnames : (s.entries.map fun e ↦ e.setField d.fieldIndex none).map Entry.name =
      s.entries.map Entry.name := by
    rw [List.map_map]
    rfl
  -- a field that is left is at another index
  have hleft : ∀ e ∈ s.entries.map (fun e ↦ e.setField d.fieldIndex none), ∀ i f,
      e.field i = some f → i ≠ decl ∧ ∃ e' ∈ s.entries, e'.field i = some f := by
    intro e he i f hf
    obtain ⟨e', he', rfl⟩ := List.mem_map.1 he
    replace hf : Function.update e'.field d.fieldIndex none i = some f := hf
    rcases eq_or_ne i d.fieldIndex with rfl | hi
    · rw [Function.update_self] at hf
      exact absurd hf nofun
    · rw [Function.update_of_ne hi] at hf
      exact ⟨fun h ↦ hi (h.trans hindex.symm), e', he', hf⟩
  refine h.setSection_same hmem rfl rfl (hids ▸ List.Sublist.refl _) ?_
  refine ⟨(hfilter.map _).nodup hwf.nodup_index, fun t ht ↦ hwf.lt_numFieldIndex t (hfilter.subset ht),
    (hfilter.map _).nodup hwf.nodup_decls, hfilter.length_le.trans hwf.length_decls,
    fun t ht ↦ hwf.decls t (hfilter.subset ht), hnames ▸ hwf.nodup_entries,
    (List.length_map _).trans_le hwf.length_entries, fun e he i f hf ↦ ?_, fun e he i f hf ↦ ?_⟩
  · obtain ⟨hi, e', he', hf'⟩ := hleft e he i f hf
    obtain ⟨t, ht, rfl⟩ := List.mem_map.1 (hwf.declared e' he' i f hf')
    exact List.mem_map.2 ⟨t, List.mem_filter.2 ⟨ht, bne_iff_ne.2 hi⟩, rfl⟩
  · obtain ⟨-, e', he', hf'⟩ := hleft e he i f hf
    exact hwf.fields e' he' i f hf'

/-- So does deleting an entry. -/
theorem deleteEntry (h : md.Wf) {entry : ℕ} (hrun : md.deleteEntry entry = .ok md') : md'.Wf := by
  obtain ⟨s, hs, hrun⟩ := Run.bind_eq_ok.1 hrun
  obtain rfl := Except.ok.inj hrun
  have hmem := mem_of_sectionOf? (deref_eq_ok.1 hs)
  have hwf := h.sections s hmem
  have hfilter : (s.entries.filter fun e ↦ e.id != entry).Sublist s.entries := List.filter_sublist
  refine h.setSection_same hmem rfl rfl (hfilter.map _) ?_
  exact ⟨hwf.nodup_index, hwf.lt_numFieldIndex, hwf.nodup_decls, hwf.length_decls, hwf.decls,
    (hfilter.map _).nodup hwf.nodup_entries, hfilter.length_le.trans hwf.length_entries,
    fun e he ↦ hwf.declared e (hfilter.subset he), fun e he ↦ hwf.fields e (hfilter.subset he)⟩

/-- So does deleting a section with its entries. -/
theorem deleteSection (h : md.Wf) {sec : ℕ} (hrun : md.deleteSection sec = .ok md') : md'.Wf := by
  obtain ⟨s, hs, hrun⟩ := Run.bind_eq_ok.1 hrun
  obtain rfl := Except.ok.inj hrun
  have hfilter : (md.sections.filter fun s ↦ s.id != sec).Sublist md.sections := List.filter_sublist
  have hflat : ((md.sections.filter fun s ↦ s.id != sec).flatMap Section.entries).Sublist
      (md.sections.flatMap Section.entries) := hfilter.flatMap _
  exact ⟨(hfilter.map _).nodup h.nodup_ids, fun t ht ↦ h.lt_nextSection t (hfilter.subset ht),
    (hfilter.map _).nodup h.nodup_names, hfilter.length_le.trans h.length_sections,
    (hflat.map _).nodup h.nodup_entryIds, fun e he ↦ h.lt_nextEntry e (hflat.subset he),
    fun t ht ↦ h.sections t (hfilter.subset ht)⟩

/-- Every call keeps the invariant. -/
theorem step (h : md.Wf) {op : Op D} (hrun : md.step op = .ok md') : md'.Wf := by
  have hnolink : ∀ r : ElementReq, (∀ ids, r ≠ .link ids) →
      ∀ ids, r = .link ids → ids ≠ [] ∧ ids.length ≤ 2147483647 :=
    fun r hr ids hids ↦ absurd hids (hr ids)
  cases op with
  | newSection name a b =>
    obtain ⟨r, hr, rfl⟩ := Run.map_eq_ok.1 hrun
    exact h.newSection hr
  | newEntry sec name =>
    obtain ⟨r, hr, rfl⟩ := Run.map_eq_ok.1 hrun
    exact h.newEntry hr
  | renameEntry entry newName => exact h.renameEntry hrun
  | newFieldDecl sec name type =>
    obtain ⟨r, hr, rfl⟩ := Run.map_eq_ok.1 hrun
    exact h.newFieldDecl hr
  | requireInt sec decl i => exact h.newElementReq (hnolink .int nofun) hrun
  | requireDouble sec decl i => exact h.newElementReq (hnolink .double nofun) hrun
  | requireString sec decl i => exact h.newElementReq (hnolink .string nofun) hrun
  | requireBlock sec decl i => exact h.newElementReq (hnolink .block nofun) hrun
  | requireLink sec decl i target => exact h.requireLink hrun
  | requireMultiTargetLink sec decl i sections => exact h.requireMultiTargetLink hrun
  | kleeneStarRequirement sec decl i => exact h.kleeneStarRequirement hrun
  | newField entry decl n => exact h.newField hrun
  | setInt entry decl i value => exact h.setElement (x := .int value) nofun hrun
  | setDouble entry decl i value => exact h.setElement (x := .double value) nofun hrun
  | setString entry decl i value => exact h.setElement (x := .string value) nofun hrun
  | setBlock entry decl i value => exact h.setBlock hrun
  | setLink entry decl i value => exact h.setElement (x := .link value) nofun hrun
  | deleteElement entry decl i => exact h.deleteElement hrun
  | deleteField entry decl => exact h.deleteField hrun
  | deleteFieldDecl sec decl => exact h.deleteFieldDecl hrun
  | deleteEntry entry => exact h.deleteEntry hrun
  | deleteSection sec => exact h.deleteSection hrun

end Md.Wf

/-- A list of calls builds an md. -/
theorem Md.Built.foldlM {md md' : Md D} (h : md.Built) (ops : List (Op D))
    (hrun : ops.foldlM Md.step md = .ok md') : md'.Built := by
  induction ops generalizing md with
  | nil => exact Except.ok.inj hrun ▸ h
  | cons op ops ih =>
    rw [List.foldlM_cons] at hrun
    obtain ⟨md1, hstep, hrun⟩ := Run.bind_eq_ok.1 hrun
    exact ih (h.call trivial hstep) hrun

/-- What the calls of the library build is well formed. -/
theorem Md.Built.wf {md : Md D} (h : md.Built) : md.Wf :=
  Reach.inv h Md.Wf.new fun hwf _ hstep ↦ hwf.step hstep

end OpenImpact.Libmd
