import OpenImpact.Library.MdWrite
import Mathlib.Data.List.Range

/-!
# The md with given contents

`Contents.toMd` is the md that holds given contents with every pointer the number of what it leads to.
The operations that `MD_read_md` calls build it up from the empty one: each adds one piece to the
contents.
-/

namespace OpenImpact.Libmd

variable {D : Type}

/-- The declaration with given contents and field index. -/
def DeclContents.toDecl (d : DeclContents) (i : ℕ) : FieldDecl :=
  ⟨i, d.name, d.type, d.require, d.kleeneStarred⟩

/-- The entry with given contents and id. -/
def EntryContents.toEntry (e : EntryContents D) (i : ℕ) : Entry D :=
  ⟨i, e.name, fun k ↦ e.fields.lookup k⟩

/-- The declarations with given contents. -/
def toDecls (ds : List DeclContents) : List FieldDecl := ds.zipIdx.map fun d ↦ d.1.toDecl d.2

/-- The entries with given contents, from the first one's id on. -/
def toEntries (n : ℕ) (es : List (EntryContents D)) : List (Entry D) :=
  (es.zipIdx n).map fun e ↦ e.1.toEntry e.2

/-- The section with given contents and id, and the id of its first entry. -/
def SectionContents.toSection (s : SectionContents D) (i n : ℕ) : Section D where
  id := i
  name := s.name
  fieldDecls := toDecls s.decls
  numFieldIndex := s.decls.length
  entries := toEntries n s.entries

/-- The sections with given contents, from the first one's id and the id of its first entry on. -/
def Contents.toSections : ℕ → ℕ → Contents D → List (Section D)
  | _, _, [] => []
  | i, n, s :: c => s.toSection i n :: toSections (i + 1) (n + s.entries.length) c

/-- The md with given contents. -/
def Contents.toMd (c : Contents D) : Md D := ⟨Contents.toSections 0 0 c, c.length, c.entryCount⟩

/-! ### Ids and names -/

namespace Contents

@[simp] theorem entryCount_nil : entryCount ([] : Contents D) = 0 := rfl

@[simp] theorem entryCount_cons (s : SectionContents D) (c : Contents D) :
    entryCount (s :: c) = s.entries.length + entryCount c := List.sum_cons

@[simp] theorem entryCount_append (c c' : Contents D) :
    entryCount (c ++ c') = entryCount c + entryCount c' := by
  rw [entryCount, List.map_append, List.sum_append]
  rfl

/-- The sections of a list of contents, one part after the other. -/
theorem toSections_append (i n : ℕ) (c c' : Contents D) :
    toSections i n (c ++ c') =
      toSections i n c ++ toSections (i + c.length) (n + c.entryCount) c' := by
  induction c generalizing i n with
  | nil => rfl
  | cons s c ih =>
    rw [List.cons_append, toSections, ih, toSections, List.length_cons, entryCount_cons,
      List.cons_append, Nat.add_right_comm i 1, Nat.add_assoc n, Nat.add_assoc i]

/-- The ids of sections are consecutive. -/
theorem map_id_toSections (i n : ℕ) (c : Contents D) :
    (toSections i n c).map Section.id = List.range' i c.length := by
  induction c generalizing i n with
  | nil => rfl
  | cons s c ih =>
    rw [toSections, List.map_cons, ih, List.length_cons, List.range'_succ]
    rfl

/-- The sections have the names of the contents. -/
theorem map_name_toSections (i n : ℕ) (c : Contents D) :
    (toSections i n c).map Section.name = c.map SectionContents.name := by
  induction c generalizing i n with
  | nil => rfl
  | cons s c ih =>
    rw [toSections, List.map_cons, ih]
    rfl

end Contents

/-- The declaration behind `ds` has the number of those before it as its index. -/
theorem toDecls_append (ds dt : List DeclContents) (d : DeclContents) :
    toDecls (ds ++ d :: dt) = toDecls ds ++ d.toDecl ds.length ::
      (dt.zipIdx (ds.length + 1)).map fun d ↦ d.1.toDecl d.2 := by
  rw [toDecls, List.zipIdx_append, List.zipIdx_cons, List.map_append, List.map_cons, Nat.zero_add]
  rfl

/-- The indices of declarations are consecutive. -/
theorem map_fieldIndex_toDecls (ds : List DeclContents) :
    (toDecls ds).map FieldDecl.fieldIndex = List.range ds.length := by
  rw [toDecls, List.map_map, List.range_eq_range', ← List.zipIdx_map_snd]
  rfl

/-- The declarations have the names of the contents. -/
theorem map_name_toDecls (ds : List DeclContents) :
    (toDecls ds).map FieldDecl.name = ds.map DeclContents.name := by
  rw [toDecls, List.map_map]
  conv_rhs => rw [← List.zipIdx_map_fst 0 ds, List.map_map]
  rfl

/-- The entry behind `es` has the number of entries before it as its id. -/
theorem toEntries_append (n : ℕ) (es et : List (EntryContents D)) (e : EntryContents D) :
    toEntries n (es ++ e :: et) = toEntries n es ++ e.toEntry (n + es.length) ::
      toEntries (n + es.length + 1) et := by
  rw [toEntries, List.zipIdx_append, List.zipIdx_cons, List.map_append, List.map_cons]
  rfl

/-- The ids of entries are consecutive. -/
theorem map_id_toEntries (n : ℕ) (es : List (EntryContents D)) :
    (toEntries n es).map Entry.id = List.range' n es.length := by
  rw [toEntries, List.map_map, ← List.zipIdx_map_snd]
  rfl

/-- The entries have the names of the contents. -/
theorem map_name_toEntries (n : ℕ) (es : List (EntryContents D)) :
    (toEntries n es).map Entry.name = es.map EntryContents.name := by
  rw [toEntries, List.map_map]
  conv_rhs => rw [← List.zipIdx_map_fst n es, List.map_map]
  rfl

/-! ### The section and the entry with a number -/

section Parts

variable {pre post : Contents D} {s : SectionContents D}

/-- One section between those before and those behind it. -/
theorem Contents.toSections_split (pre post : Contents D) (s : SectionContents D) :
    Contents.toSections 0 0 (pre ++ s :: post) =
      Contents.toSections 0 0 pre ++ s.toSection pre.length pre.entryCount ::
        Contents.toSections (pre.length + 1) (pre.entryCount + s.entries.length) post := by
  rw [Contents.toSections_append, Nat.zero_add, Nat.zero_add, Contents.toSections]

/-- Sections have ids of their own. -/
theorem Contents.nodup_sectionIds (c : Contents D) : (c.toMd.sections.map Section.id).Nodup := by
  rw [Contents.toMd, Contents.map_id_toSections]
  exact List.nodup_range'

/-- The section with the index of `s` is that of `s`. -/
theorem Contents.section?_toMd (pre post : Contents D) (s : SectionContents D) :
    (Contents.toMd (pre ++ s :: post)).section? pre.length =
      some (s.toSection pre.length pre.entryCount) := by
  rw [Md.section?, Contents.toMd, Contents.toSections_split]
  refine getKey_append_cons Section.id (a := s.toSection pre.length pre.entryCount) ?_
  rw [Contents.map_id_toSections, List.mem_range'_1]
  show ¬ (0 ≤ pre.length ∧ pre.length < 0 + pre.length)
  omega

/-- Replacing this section replaces its contents, if there are as many entries as before. -/
theorem Contents.setSection_toMd (pre post : Contents D) (s s' : SectionContents D)
    (h : s'.entries.length = s.entries.length) :
    (Contents.toMd (pre ++ s :: post)).setSection (s'.toSection pre.length pre.entryCount) =
      Contents.toMd (pre ++ s' :: post) := by
  have hnodup := Contents.nodup_sectionIds (pre ++ s :: post)
  rw [Contents.toMd, Contents.toSections_split] at hnodup
  have hset := setKey_append_cons Section.id hnodup
    (b := s'.toSection pre.length pre.entryCount) rfl
  rw [← h] at hset
  rw [Md.setSection, Contents.toMd, Contents.toMd, Contents.toSections_split,
    Contents.toSections_split, ← h, hset]
  simp only [List.length_append, List.length_cons, Contents.entryCount_append,
    Contents.entryCount_cons, h]

/-- An entry of `s` is found in the section of `s`. -/
theorem Contents.sectionOf?_toMd {k : ℕ} (hk : k < s.entries.length) :
    (Contents.toMd (pre ++ s :: post)).sectionOf? (pre.entryCount + k) =
      some (s.toSection pre.length pre.entryCount) := by
  have hpre : ∀ (i n : ℕ) (c : Contents D), ∀ t ∈ Contents.toSections i n c,
      ∀ e ∈ t.entries, e.id < n + c.entryCount := by
    intro i n c
    induction c generalizing i n with
    | nil => exact fun t ht ↦ absurd ht List.not_mem_nil
    | cons s c ih =>
      intro t ht e he
      rw [Contents.entryCount_cons]
      rcases List.mem_cons.1 ht with rfl | ht
      · have := List.mem_map_of_mem (f := Entry.id) he
        rw [SectionContents.toSection, map_id_toEntries, List.mem_range'_1] at this
        omega
      · have := ih (i + 1) (n + s.entries.length) t ht e he
        omega
  have hnone : (Contents.toSections 0 0 pre).find? (fun t ↦ t.entries.any fun e ↦
      e.id == pre.entryCount + k) = none := by
    rw [List.find?_eq_none]
    intro t ht
    rw [List.any_eq_true]
    rintro ⟨e, he, hid⟩
    have := hpre 0 0 pre t ht e he
    rw [beq_iff_eq] at hid
    omega
  have hmem : pre.entryCount + k ∈ (s.toSection pre.length pre.entryCount).entries.map Entry.id := by
    rw [SectionContents.toSection, map_id_toEntries, List.mem_range'_1]
    omega
  obtain ⟨e, he, hid⟩ := List.mem_map.1 hmem
  rw [Md.sectionOf?, Contents.toMd, Contents.toSections_split, List.find?_append, hnone,
    Option.none_or, List.find?_cons_of_pos]
  exact List.any_eq_true.2 ⟨e, he, by rw [hid, beq_self_eq_true]⟩

/-- The declaration with the index of `d` is that of `d`. -/
theorem SectionContents.fieldDecl?_toSection {ds dt : List DeclContents} {d : DeclContents}
    (hs : s.decls = ds ++ d :: dt) (i n : ℕ) :
    (s.toSection i n).fieldDecl? ds.length = some (d.toDecl ds.length) := by
  rw [Section.fieldDecl?, SectionContents.toSection, hs, toDecls_append]
  refine getKey_append_cons FieldDecl.fieldIndex (a := d.toDecl ds.length) ?_
  rw [map_fieldIndex_toDecls, List.mem_range]
  exact Nat.lt_irrefl _

/-- Replacing this declaration replaces its contents. -/
theorem SectionContents.setFieldDecl_toSection {ds dt : List DeclContents} {d : DeclContents}
    (hs : s.decls = ds ++ d :: dt) (d' : DeclContents) (i n : ℕ) :
    (s.toSection i n).setFieldDecl (d'.toDecl ds.length) =
      { s with decls := ds ++ d' :: dt }.toSection i n := by
  have hnodup : ((toDecls s.decls).map FieldDecl.fieldIndex).Nodup := by
    rw [map_fieldIndex_toDecls]
    exact List.nodup_range
  rw [hs, toDecls_append] at hnodup
  rw [Section.setFieldDecl, SectionContents.toSection, SectionContents.toSection, hs]
  simp only [toDecls_append, List.length_append, List.length_cons]
  rw [setKey_append_cons FieldDecl.fieldIndex hnodup (b := d'.toDecl ds.length) rfl]

/-- The entry with the id of `e` is that of `e`. -/
theorem SectionContents.getKey_entries {es et : List (EntryContents D)} {e : EntryContents D}
    (hs : s.entries = es ++ e :: et) (i n : ℕ) :
    getKey Entry.id (s.toSection i n).entries (n + es.length) =
      some (e.toEntry (n + es.length)) := by
  rw [SectionContents.toSection, hs, toEntries_append]
  refine getKey_append_cons Entry.id (a := e.toEntry (n + es.length)) ?_
  rw [map_id_toEntries, List.mem_range'_1]
  show ¬ (n ≤ n + es.length ∧ n + es.length < n + es.length)
  omega

/-- Replacing this entry replaces its contents. -/
theorem SectionContents.setEntry_toSection {es et : List (EntryContents D)}
    {e e' : EntryContents D} (hs : s.entries = es ++ e :: et) (i n : ℕ) :
    (s.toSection i n).setEntry (e'.toEntry (n + es.length)) =
      { s with entries := es ++ e' :: et }.toSection i n := by
  have hnodup : ((toEntries n s.entries).map Entry.id).Nodup := by
    rw [map_id_toEntries]
    exact List.nodup_range'
  rw [hs, toEntries_append] at hnodup
  rw [Section.setEntry, SectionContents.toSection, SectionContents.toSection, hs]
  simp only [toEntries_append]
  rw [setKey_append_cons Entry.id hnodup (b := e'.toEntry (n + es.length)) rfl]

end Parts

/-! ### Operations on an md with given contents -/

section Ops

variable (pre post : Contents D) {s : SectionContents D} {name : Name}

/-- A new description has no contents. -/
theorem newMd_eq {n : ℤ} (h : n ≤ 1000000000) : (newMd n : Run (Md D)) = .ok (Contents.toMd []) := by
  rw [newMd, puntIf_neg (by omega), newSymbolTable, puntIf_neg (by omega)]
  rfl

/-- A new symbol gets the next id. -/
theorem addSymbol_eq {names : List Name} (hname : name ∉ names) (hlen : names.length < 2147483647) :
    addSymbol names name = .ok (names.length + 1) := by
  rw [addSymbol, puntIf_neg hname, Run.ok_bind, int32_eq (by omega)]

/-- `MD_new_section` adds an empty section behind the others. -/
theorem newSection_toMd {c : Contents D} {n m : ℤ} (hn : n ≤ 1000000000) (hm : m ≤ 1000000000)
    (hpos : 0 ≤ m) (hname : name ∉ c.map SectionContents.name) (hlen : c.length < 2147483647) :
    c.toMd.newSection name n m = .ok (Contents.toMd (c ++ [⟨name, [], []⟩]), c.length) := by
  have hresize : (if m ≠ 0 then resizeFieldArrays m else .ok ()) = .ok () := by
    split_ifs with h
    · exact puntIf_neg (by split_ifs <;> omega)
    · rfl
  have hadd : addSymbol (c.toMd.sections.map Section.name) name = .ok (c.length + 1) := by
    rw [Contents.toMd, Contents.map_name_toSections,
      addSymbol_eq hname (by rwa [List.length_map]), List.length_map]
  rw [Md.newSection, newSymbolTable, puntIf_neg (by omega), newSymbolTable, puntIf_neg (by omega),
    hresize, hadd]
  simp only [Run.ok_bind, Contents.toMd, Contents.toSections_append, List.length_append,
    Contents.entryCount_append, Nat.zero_add]
  rfl

/-- `MD_new_entry` adds an entry without fields to the last section. -/
theorem newEntry_toMd (hname : name ∉ s.entries.map EntryContents.name)
    (hlen : s.entries.length < 2147483647) :
    (Contents.toMd (pre ++ [s])).newEntry pre.length name =
      .ok (Contents.toMd (pre ++ [{ s with entries := s.entries ++ [⟨name, []⟩] }]),
        Contents.entryCount (pre ++ [s])) := by
  have hadd : addSymbol ((s.toSection pre.length pre.entryCount).entries.map Entry.name) name =
      .ok (s.entries.length + 1) := by
    rw [SectionContents.toSection, map_name_toEntries,
      addSymbol_eq hname (by rwa [List.length_map]), List.length_map]
  have hnodup := Contents.nodup_sectionIds (pre ++ [s])
  rw [Contents.toMd, Contents.toSections_split] at hnodup
  have hset := setKey_append_cons Section.id hnodup
    (b := { s.toSection pre.length pre.entryCount with
        entries := (s.toSection pre.length pre.entryCount).entries ++
          [⟨Contents.entryCount (pre ++ [s]), name, fun _ ↦ none⟩] }) rfl
  have hsection : SectionContents.toSection ⟨s.name, s.decls, s.entries ++ [⟨name, []⟩]⟩ pre.length
      pre.entryCount = { s.toSection pre.length pre.entryCount with
        entries := (s.toSection pre.length pre.entryCount).entries ++
          [⟨Contents.entryCount (pre ++ [s]), name, fun _ ↦ none⟩] } := by
    simp only [SectionContents.toSection, toEntries_append, Contents.entryCount_append,
      Contents.entryCount_cons, Contents.entryCount_nil, Nat.add_zero]
    rfl
  rw [Md.newEntry, Contents.section?_toMd, deref_some, Run.ok_bind, hadd, Run.ok_bind]
  simp only [Md.setSection, Contents.toMd, Contents.toSections_split, hsection] at hset ⊢
  rw [hset]
  simp [Contents.toSections, Nat.add_assoc]

/-- The next declaration goes behind those that exist. -/
theorem nextFieldIndex_toSection (s : SectionContents D) (i n : ℕ) :
    (s.toSection i n).nextFieldIndex = s.decls.length := by
  have hnone : (List.range s.decls.length).find? (fun k ↦
      ((s.toSection i n).fieldDecl? k).isNone) = none := by
    rw [List.find?_eq_none]
    intro k hk
    have hmem : k ∈ (toDecls s.decls).map FieldDecl.fieldIndex := by
      rwa [map_fieldIndex_toDecls]
    rw [Option.isNone_iff_eq_none, ← ne_eq, Option.ne_none_iff_isSome]
    exact getKey_isSome.2 hmem
  exact (congrArg (Option.getD · s.decls.length) hnone :)

/-- `MD_new_field_decl` adds a declaration without requirements. -/
theorem newFieldDecl_toMd (type : FieldType) (hname : name ∉ s.decls.map DeclContents.name)
    (hlen : s.decls.length < 2147483647) :
    (Contents.toMd (pre ++ s :: post)).newFieldDecl pre.length name type =
      .ok (Contents.toMd (pre ++ { s with decls := s.decls ++ [⟨name, type, [], false⟩] } :: post),
        s.decls.length) := by
  have hadd : addSymbol ((s.toSection pre.length pre.entryCount).fieldDecls.map FieldDecl.name)
      name = .ok (s.decls.length + 1) := by
    rw [SectionContents.toSection, map_name_toDecls,
      addSymbol_eq hname (by rwa [List.length_map]), List.length_map]
  have hset := Contents.setSection_toMd pre post s
    { s with decls := s.decls ++ [⟨name, type, [], false⟩] } rfl
  rw [Md.newFieldDecl, Contents.section?_toMd, deref_some, Run.ok_bind, hadd, Run.ok_bind, ← hset,
    nextFieldIndex_toSection]
  simp only [SectionContents.toSection, toDecls_append, List.length_append, List.length_singleton,
    Nat.max_eq_right (Nat.le_succ _)]
  rfl

/-- A requirement goes behind the others of the last declaration. -/
theorem newElementReq_toMd {ds : List DeclContents} {d : DeclContents} (req : ElementReq)
    (hs : s.decls = ds ++ [d]) (hstar : d.kleeneStarred = false)
    (hlen : d.require.length < maxArraySize) :
    (Contents.toMd (pre ++ s :: post)).newElementReq pre.length ds.length d.require.length req =
      .ok (Contents.toMd (pre ++
        { s with decls := ds ++ [{ d with require := d.require ++ [req] }] } :: post)) := by
  obtain ⟨n, hn⟩ := exists_arraySize hlen
  have hdecl := SectionContents.setFieldDecl_toSection hs
    { d with require := d.require ++ [req] } pre.length pre.entryCount
  have hset := Contents.setSection_toMd pre post s
    { s with decls := ds ++ [{ d with require := d.require ++ [req] }] } rfl
  have hreq : (d.toDecl ds.length).require = d.require := rfl
  rw [Md.newElementReq, Contents.section?_toMd, deref_some, Run.ok_bind,
    SectionContents.fieldDecl?_toSection hs, deref_some, Run.ok_bind,
    puntIf_neg (by rw [hreq]; omega), Run.ok_bind, puntIf_neg (by rw [hreq]; omega), Run.ok_bind,
    puntIf_neg (by simp [DeclContents.toDecl, hstar]), Run.ok_bind, Int.toNat_natCast, hn, ← hset,
    ← hdecl]
  rfl

/-- So does a requirement of links to several sections that exist. -/
theorem requireMultiTargetLink_toMd {ds : List DeclContents} {d : DeclContents} {link : List ℕ}
    (hs : s.decls = ds ++ [d]) (hstar : d.kleeneStarred = false)
    (hlen : d.require.length < maxArraySize) (hne : link ≠ []) (hint : link.length ≤ 2147483647)
    (hlink : ∀ id ∈ link, id < (pre ++ s :: post).length) :
    (Contents.toMd (pre ++ s :: post)).requireMultiTargetLink pre.length ds.length
        d.require.length link =
      .ok (Contents.toMd (pre ++
        { s with decls := ds ++ [{ d with require := d.require ++ [.link link] }] } :: post)) := by
  have hmap : ∃ l, (link.mapM fun id ↦
      deref ((Contents.toMd (pre ++ s :: post)).section? id)) = .ok l := by
    clear hne hint
    induction link with
    | nil => exact ⟨[], rfl⟩
    | cons id link ih =>
      obtain ⟨l, hl⟩ := ih fun id hid ↦ hlink id (List.mem_cons_of_mem _ hid)
      have hsec : ((Contents.toMd (pre ++ s :: post)).section? id).isSome := by
        rw [Md.section?, getKey_isSome, Contents.toMd, Contents.map_id_toSections,
          List.mem_range'_1]
        have := hlink id List.mem_cons_self
        omega
      obtain ⟨t, ht⟩ := Option.isSome_iff_exists.1 hsec
      exact ⟨t :: l, by rw [List.mapM_cons, ht, deref_some, Run.ok_bind, hl]; rfl⟩
  obtain ⟨l, hl⟩ := hmap
  rw [Md.requireMultiTargetLink, int32_eq (by omega), Run.ok_bind,
    newElementReq_toMd pre post _ hs hstar hlen, Run.ok_bind, puntIf_neg hne, Run.ok_bind, hl]
  rfl

/-- The last requirement of the last declaration is starred. -/
theorem kleeneStarRequirement_toMd {ds : List DeclContents} {d : DeclContents}
    (hs : s.decls = ds ++ [d]) (hstar : d.kleeneStarred = false) (hne : d.require ≠ []) :
    (Contents.toMd (pre ++ s :: post)).kleeneStarRequirement pre.length ds.length
        (d.require.length - 1) =
      .ok (Contents.toMd (pre ++
        { s with decls := ds ++ [{ d with kleeneStarred := true }] } :: post)) := by
  have hpos := List.length_pos_iff.2 hne
  have hdecl := SectionContents.setFieldDecl_toSection hs
    { d with kleeneStarred := true } pre.length pre.entryCount
  have hset := Contents.setSection_toMd pre post s
    { s with decls := ds ++ [{ d with kleeneStarred := true }] } rfl
  have hreq : (d.toDecl ds.length).require = d.require := rfl
  rw [Md.kleeneStarRequirement, Contents.section?_toMd, deref_some, Run.ok_bind,
    SectionContents.fieldDecl?_toSection hs, deref_some, Run.ok_bind,
    puntIf_neg (by rw [hreq]; omega), Run.ok_bind, puntIf_neg (by rw [hreq]; omega), Run.ok_bind,
    puntIf_neg (by simp [DeclContents.toDecl, hstar]), ← hset, ← hdecl]
  rfl

/-- Looking up a field that has been added last. -/
theorem update_lookup {fields : List (ℕ × Field D)} {k : ℕ} (f : Field D)
    (hk : k ∉ fields.map Prod.fst) :
    Function.update (fun i ↦ fields.lookup i) k (some f) =
      fun i ↦ (fields ++ [(k, f)]).lookup i := by
  funext i
  rw [List.lookup_append]
  rcases eq_or_ne i k with rfl | hik
  · have hnone : fields.lookup i = none := by
      rw [List.lookup_eq_none_iff]
      exact fun p hp ↦ by simpa using fun he : i = p.1 ↦ hk (he ▸ List.mem_map_of_mem hp)
    rw [Function.update_self, hnone, Option.none_or, List.lookup_cons_self]
  · have hnone : [(k, f)].lookup i = none := by
      rw [List.lookup_cons, beq_false_of_ne hik]
      rfl
    rw [Function.update_of_ne hik, hnone, Option.or_none]

/-- Looking up the last field when it has been replaced. -/
theorem update_lookup_append {fields : List (ℕ × Field D)} {k : ℕ} (f f' : Field D)
    (hk : k ∉ fields.map Prod.fst) :
    Function.update (fun i ↦ (fields ++ [(k, f)]).lookup i) k (some f') =
      fun i ↦ (fields ++ [(k, f')]).lookup i := by
  rw [← update_lookup f hk, Function.update_idem, update_lookup f' hk]

/-- Replacing the fields of an entry. -/
theorem setEntry_setField {es et : List (EntryContents D)} {e : EntryContents D} {k : ℕ}
    {f : Field D} {fields : List (ℕ × Field D)} (hs : s.entries = es ++ e :: et)
    (hfields : Function.update (fun i ↦ e.fields.lookup i) k (some f) = fun i ↦ fields.lookup i) :
    (Contents.toMd (pre ++ s :: post)).setSection
        ((s.toSection pre.length pre.entryCount).setEntry
          ((e.toEntry (pre.entryCount + es.length)).setField k (some f))) =
      Contents.toMd (pre ++ { s with entries := es ++ ⟨e.name, fields⟩ :: et } :: post) := by
  have hentry : (e.toEntry (pre.entryCount + es.length)).setField k (some f) =
      EntryContents.toEntry ⟨e.name, fields⟩ (pre.entryCount + es.length) := by
    rw [Entry.setField, EntryContents.toEntry, EntryContents.toEntry, hfields]
  rw [hentry, SectionContents.setEntry_toSection hs]
  exact Contents.setSection_toMd pre post s _ (by rw [hs]; simp)

/-- `MD_new_field` adds a field without elements to an entry. -/
theorem newField_toMd (es et : List (EntryContents D)) {e : EntryContents D} {k : ℕ} {n : ℤ}
    (hs : s.entries = es ++ e :: et) (hk : k < s.decls.length) (hnew : k ∉ e.fields.map Prod.fst)
    (hpos : 0 ≤ n) (hn : n ≤ maxArraySize) :
    (Contents.toMd (pre ++ s :: post)).newField (pre.entryCount + es.length) k n =
      .ok (Contents.toMd (pre ++
        { s with entries := es ++ ⟨e.name, e.fields ++ [(k, [])]⟩ :: et } :: post)) := by
  have hle : es.length < s.entries.length := by rw [hs]; simp
  obtain ⟨ds, d, dt, hdecls, rfl⟩ : ∃ ds d dt, s.decls = ds ++ d :: dt ∧ ds.length = k :=
    ⟨s.decls.take k, s.decls[k], s.decls.drop (k + 1),
      by rw [List.getElem_cons_drop, List.take_append_drop], by rw [List.length_take]; omega⟩
  have hnone : (e.toEntry (pre.entryCount + es.length)).field ds.length = none := by
    rw [EntryContents.toEntry]
    refine List.lookup_eq_none_iff.2 ?_
    exact fun p hp ↦ by simpa using fun he : ds.length = p.1 ↦ hnew (he ▸ List.mem_map_of_mem hp)
  have hsize : ∃ r, (if n > 0 then arraySize (n - 1).toNat else .ok 0) = .ok r := by
    split_ifs with h
    · exact exists_arraySize (by omega)
    · exact ⟨0, rfl⟩
  obtain ⟨r, hr⟩ := hsize
  rw [Md.newField, Contents.sectionOf?_toMd hle, deref_some, Run.ok_bind,
    SectionContents.getKey_entries hs, deref_some, Run.ok_bind,
    SectionContents.fieldDecl?_toSection hdecls, deref_some, Run.ok_bind]
  have hindex : (d.toDecl ds.length).fieldIndex = ds.length := rfl
  rw [puntIf_neg (by rw [hindex, hnone]; simp), Run.ok_bind, puntIf_neg (Int.not_lt.2 hpos),
    Run.ok_bind, hr, Run.ok_bind, hindex, setEntry_setField pre post hs (update_lookup [] hnew)]

/-- Setting an element of the last field of an entry. -/
theorem setElement_toMd (es et : List (EntryContents D)) (fields : List (ℕ × Field D))
    {e : EntryContents D} {k i : ℕ} {f : Field D} (msg : String) (x : Element D)
    (hs : s.entries = es ++ ⟨e.name, fields ++ [(k, f)]⟩ :: et) (hnew : k ∉ fields.map Prod.fst)
    (hi : i < maxArraySize) :
    (Contents.toMd (pre ++ s :: post)).setElement msg (pre.entryCount + es.length) k i x =
      .ok (Contents.toMd (pre ++
        { s with entries := es ++ ⟨e.name, fields ++ [(k, f.set i x)]⟩ :: et } :: post)) := by
  have hle : es.length < s.entries.length := by rw [hs]; simp
  have hfield : (EntryContents.toEntry ⟨e.name, fields ++ [(k, f)]⟩
      (pre.entryCount + es.length)).field k = some f := by
    show (fields ++ [(k, f)]).lookup k = some f
    rw [← congrFun (update_lookup f hnew) k, Function.update_self]
  obtain ⟨n, hn⟩ := exists_arraySize hi
  rw [Md.setElement, Contents.sectionOf?_toMd hle, deref_some, Run.ok_bind,
    SectionContents.getKey_entries hs, deref_some, Run.ok_bind, hfield, deref_some, Run.ok_bind,
    puntIf_neg (by omega), Run.ok_bind, Int.toNat_natCast, hn, Run.ok_bind,
    setEntry_setField pre post hs (update_lookup_append f _ hnew)]

end Ops

end OpenImpact.Libmd
