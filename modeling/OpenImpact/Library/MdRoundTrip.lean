import OpenImpact.Library.MdWriteContents

/-!
# Writing and reading back machine descriptions

What `MD_write_md` prints of a built md, `MD_read_md` takes back exactly if no link leads to something
deleted, the sizes are within the reader's limits, and no field has an unset element below its last
one: the writer prints `-` for an unset element, which the reader does not know.

`roundTrips_iff` is for every md that the calls of the library build, and says that the contents are
the same, entries in their order included. It rests on one lemma for each part of the grammar, that
the reader reads just what the writer prints there (`ReadsIff`), over the combinators of
`Foundation.TokenReader`. The text of a `double` is a parameter: what is needed of it is that the
one that is printed is read back (`DoubleFormat`). Comments and white space that the writer does not
make are left out.
-/

namespace OpenImpact.Libmd

open TokenReader

variable {D : Type}

/-! ### The contents of a built md are consistent -/

section Consistent

variable {md : Md D} {s : Section D} {e : Entry D}

/-- What a declaration says of sections is about sections of the text. -/
theorem consistent_declContents {d : FieldDecl} (hwf : d.Wf) (hlive : ∀ r ∈ d.require, r.Live md) :
    (md.declContents d).Consistent md.sections.length := by
  refine ⟨(List.length_map _).trans_le hwf.length_require, fun r' hr' ↦ ?_, fun hstar hnil ↦
    hwf.starred hstar (List.map_eq_nil_iff.1 hnil)⟩
  obtain ⟨r, hr, rfl⟩ := List.mem_map.1 hr'
  cases r with
  | link ids =>
    obtain ⟨hne, hlen⟩ := hwf.link ids hr
    refine ⟨fun hnil ↦ hne (List.map_eq_nil_iff.1 hnil), (List.length_map _).trans_le hlen, ?_⟩
    intro i hi
    obtain ⟨id, hid, rfl⟩ := List.mem_map.1 hi
    exact findIdx_key_lt (hlive _ hr id hid)
  | _ => trivial

/-- What an entry says of entries and fields is about those of the text. -/
theorem consistent_entryContents (hwf : s.Wf) (he : e ∈ s.entries)
    (hlive : ∀ i f, e.field i = some f → ∀ x, some x ∈ f → x.Live md) :
    (md.entryContents s e).Consistent md.entries.length s.fieldDecls.length := by
  have hfield : ∀ p ∈ (md.entryContents s e).fields, p.1 < s.fieldDecls.length ∧
      ∃ i f, e.field i = some f ∧ p.2 = md.fieldContents f := by
    intro p hp
    obtain ⟨d, hd, hp⟩ := List.mem_filterMap.1 hp
    obtain ⟨f, hf, rfl⟩ := Option.map_eq_some_iff.1 hp
    exact ⟨by simpa using List.snd_lt_of_mem_zipIdx hd, _, f, hf, rfl⟩
  have hsorted : s.fieldDecls.zipIdx.Pairwise fun a b ↦ a.2 < b.2 := by
    rw [← List.pairwise_map, List.zipIdx_map_snd]
    exact List.pairwise_lt_range'
  constructor
  · rw [Md.entryContents, List.pairwise_map, List.pairwise_filterMap]
    refine hsorted.imp fun hlt p hp q hq ↦ ?_
    obtain ⟨f, -, rfl⟩ := Option.map_eq_some_iff.1 hp
    obtain ⟨g, -, rfl⟩ := Option.map_eq_some_iff.1 hq
    exact hlt
  · exact fun p hp ↦ (hfield p hp).1
  · intro p hp
    obtain ⟨-, i, f, hf, hp⟩ := hfield p hp
    rw [hp]
    exact (List.length_map _).trans_le (hwf.fields e he i f hf).length_le
  · intro p hp x hx
    obtain ⟨-, i, f, hf, hp⟩ := hfield p hp
    rw [hp] at hx
    obtain ⟨y, hy, hxy⟩ := List.mem_map.1 hx
    obtain ⟨z, rfl, rfl⟩ := Option.map_eq_some_iff.1 hxy
    cases z with
    | link id => exact findIdx_key_lt (hlive i f hf _ hy)
    | block b => exact (hwf.fields e he i f hf).block b hy
    | _ => trivial

/-- Contents of a well-formed md have no reference that leads out of them. -/
theorem consistent_contents (hwf : md.Wf) (hlinked : md.Linked)
    (hcount : md.entries.length ≤ 2147483647) : md.contents.Consistent := by
  have hlen : md.contents.length = md.sections.length := List.length_map _
  refine ⟨?_, hlen.trans_le hwf.length_sections, (entryCount_contents md).trans_le hcount, ?_⟩
  · rw [Md.contents, List.map_map]
    exact hwf.nodup_names
  · rw [hlen, entryCount_contents]
    intro t ht
    obtain ⟨s, hs, rfl⟩ := List.mem_map.1 ht
    have hswf := hwf.sections s hs
    obtain ⟨hdecls, hentries⟩ := hlinked s hs
    constructor
    · rw [Md.sectionContents, List.map_map]
      exact hswf.nodup_decls
    · rw [Md.sectionContents, List.map_map]
      exact hswf.nodup_entries
    · exact (List.length_map _).trans_le hswf.length_decls
    · exact (List.length_map _).trans_le hswf.length_entries
    · intro d' hd'
      obtain ⟨d, hd, rfl⟩ := List.mem_map.1 hd'
      exact consistent_declContents (hswf.decls d hd) (hdecls d hd)
    · intro e' he'
      obtain ⟨e, he, rfl⟩ := List.mem_map.1 he'
      rw [show (md.sectionContents s).decls.length = s.fieldDecls.length from List.length_map _]
      exact consistent_entryContents hswf he (hentries e he)

end Consistent

/-! ### The contents of the md with given contents -/

section ToMd

variable {c : Contents D} {s : SectionContents D}

/-- An element with a number is at this index if the numbers are those of a range. -/
theorem findIdx_key_range {α : Type} {key : α → ℕ} {l : List α} {n i : ℕ}
    (h : l.map key = List.range n) (hi : i < n) : l.findIdx (fun a ↦ key a == i) = i := by
  have hlen : l.length = n := by
    rw [← List.length_map key, h, List.length_range]
  have hkey : ∀ j (hj : j < l.length), key l[j] = j := fun j hj ↦ by
    have := congrArg (·[j]?) h
    simpa [hj, hlen ▸ hj] using this
  rw [List.findIdx_eq (by omega)]
  refine ⟨by rw [hkey, beq_self_eq_true], fun j hj ↦ ?_⟩
  rw [hkey]
  exact beq_eq_false_iff_ne.2 (Nat.ne_of_lt hj)

/-- The sections read are numbered from 0 on. -/
theorem map_id_sections_toMd (c : Contents D) :
    c.toMd.sections.map Section.id = List.range c.length := by
  rw [Contents.toMd, Contents.map_id_toSections, List.range_eq_range']

/-- So are the entries, across all sections. -/
theorem map_id_entries_toSections (i n : ℕ) (c : Contents D) :
    ((Contents.toSections i n c).flatMap Section.entries).map Entry.id =
      List.range' n c.entryCount := by
  induction c generalizing i n with
  | nil => rfl
  | cons s c ih =>
    rw [Contents.toSections, List.flatMap_cons, List.map_append, ih, Contents.entryCount_cons,
      SectionContents.toSection, map_id_toEntries, List.range'_append_1]

/-- A requirement is read back. -/
theorem reqContents_toMd {r : ElementReq} (h : r.Consistent c.length) :
    c.toMd.reqContents r = r := by
  cases r with
  | link ids =>
    have hids : ids.map c.toMd.sectionIndex = ids :=
      (List.map_congr_left fun id hid ↦
        findIdx_key_range (map_id_sections_toMd c) (h.2.2 id hid)).trans (List.map_id ids)
    rw [Md.reqContents, hids]
  | _ => rfl

/-- An element is read back. -/
theorem elementContents_toMd {x : Element D} (h : x.Consistent c.entryCount) :
    c.toMd.elementContents x = x := by
  cases x with
  | link id =>
    rw [Md.elementContents, Md.entryIndex, findIdx_key_range _ h]
    rw [Md.entries, Contents.toMd, map_id_entries_toSections, List.range_eq_range']
  | _ => rfl

/-- The fields of an entry, looked up in the order of the declarations, are the fields. -/
theorem filterMap_lookup {fields : List (ℕ × Field D)} (n : ℕ) :
    ∀ a, (fields.map Prod.fst).Pairwise (· < ·) →
      (∀ f ∈ fields, a ≤ f.1 ∧ f.1 < a + n) →
      (List.range' a n).filterMap (fun i ↦ (fields.lookup i).map (Prod.mk i)) = fields := by
  induction n generalizing fields with
  | zero =>
    intro a _ hfields
    cases fields with
    | nil => rfl
    | cons f fields =>
      have := hfields f List.mem_cons_self
      omega
  | succ n ih =>
    intro a hsorted hfields
    rw [List.range'_succ]
    have hnone : ∀ {i} {l : List (ℕ × Field D)}, (∀ f ∈ l, i < f.1) → l.lookup i = none := by
      intro i l hl
      refine List.lookup_eq_none_iff.2 fun f hf ↦ ?_
      simpa using Nat.ne_of_lt (hl f hf)
    cases fields with
    | nil => simp
    | cons f rest =>
      rw [List.map_cons, List.pairwise_cons] at hsorted
      have hrest : ∀ g ∈ rest, f.1 < g.1 := fun g hg ↦ hsorted.1 g.1 (List.mem_map_of_mem hg)
      have hf := hfields f List.mem_cons_self
      rcases Nat.eq_or_lt_of_le hf.1 with rfl | hlt
      · rw [List.filterMap_cons_some (b := f) (by rw [List.lookup_cons_self]; rfl)]
        congr 1
        refine (List.filterMap_congr fun i hi ↦ ?_).trans
          (ih (f.1 + 1) hsorted.2 fun g hg ↦ ⟨hrest g hg, by
            have := hfields g (List.mem_cons_of_mem _ hg)
            omega⟩)
        rw [List.lookup_cons, beq_false_of_ne (by rw [List.mem_range'_1] at hi; omega)]
      · rw [List.filterMap_cons_none]
        · refine ih (a + 1) ?_ fun g hg ↦ ?_
          · rw [List.map_cons, List.pairwise_cons]
            exact hsorted
          · have := hfields g hg
            rcases List.mem_cons.1 hg with rfl | hg
            · omega
            · have := hrest g hg
              omega
        · rw [hnone fun g hg ↦ ?_]
          · rfl
          · rcases List.mem_cons.1 hg with rfl | hg
            · exact hlt
            · exact hlt.trans (hrest g hg)

/-- An entry is read back. -/
theorem entryContents_toMd {e : EntryContents D} (i j n : ℕ)
    (h : e.Consistent c.entryCount s.decls.length) :
    c.toMd.entryContents (s.toSection i n) (e.toEntry j) = e := by
  have hfields : ∀ p ∈ e.fields, c.toMd.fieldContents p.2 = p.2 := fun p hp ↦ by
    refine (List.map_congr_left fun x hx ↦ ?_).trans (List.map_id p.2)
    cases x with
    | none => rfl
    | some y => exact congrArg some (elementContents_toMd (h.elements p hp y hx))
  have hzip : (s.toSection i n).fieldDecls.zipIdx.map (fun d ↦ (d.1.fieldIndex, d.2)) =
      (List.range' 0 s.decls.length).map fun k ↦ (k, k) := by
    have hdecls : (s.toSection i n).fieldDecls = toDecls s.decls := rfl
    rw [hdecls, toDecls, ← List.zipIdx_map_snd, List.map_map]
    refine List.ext_getElem (by simp) fun k hk hk' ↦ ?_
    simp [DeclContents.toDecl]
  have hmap : (s.toSection i n).fieldDecls.zipIdx.filterMap (fun d ↦
        ((e.toEntry j).field d.1.fieldIndex).map fun f ↦ (d.2, c.toMd.fieldContents f)) =
      e.fields := by
    calc (s.toSection i n).fieldDecls.zipIdx.filterMap (fun d ↦
          ((e.toEntry j).field d.1.fieldIndex).map fun f ↦ (d.2, c.toMd.fieldContents f))
        = ((s.toSection i n).fieldDecls.zipIdx.map fun d ↦ (d.1.fieldIndex, d.2)).filterMap
            fun p ↦ (e.fields.lookup p.1).map fun f ↦ (p.2, c.toMd.fieldContents f) := by
          rw [List.filterMap_map]
          rfl
      _ = (List.range' 0 s.decls.length).filterMap fun k ↦
            (e.fields.lookup k).map fun f ↦ (k, c.toMd.fieldContents f) := by
          rw [hzip, List.filterMap_map]
          rfl
      _ = ((List.range' 0 s.decls.length).filterMap fun k ↦
            (e.fields.lookup k).map (Prod.mk k)).map
              fun p ↦ (p.1, c.toMd.fieldContents p.2) := by
          rw [List.map_filterMap]
          simp only [Option.map_map]
          rfl
      _ = e.fields := by
          rw [filterMap_lookup _ 0 h.sorted_fields fun f hf ↦
            ⟨Nat.zero_le _, by rw [Nat.zero_add]; exact h.lt_decls f hf⟩]
          exact (List.map_congr_left fun p hp ↦ by rw [hfields p hp]; rfl).trans
            (List.map_id _)
  rw [Md.entryContents, hmap]
  rfl

/-- A section is read back. -/
theorem sectionContents_toMd (i n : ℕ) (h : s.Consistent c.length c.entryCount) :
    c.toMd.sectionContents (s.toSection i n) = s := by
  have hdecls : (toDecls s.decls).map c.toMd.declContents = s.decls := by
    rw [toDecls, List.map_map]
    conv_rhs => rw [← List.zipIdx_map_fst 0 s.decls]
    refine List.map_congr_left fun d hd ↦ ?_
    have hmem : d.1 ∈ s.decls := List.fst_mem_of_mem_zipIdx hd
    have hreq : d.1.require.map c.toMd.reqContents = d.1.require :=
      (List.map_congr_left fun r hr ↦ reqContents_toMd ((h.decls d.1 hmem).require r hr)).trans
        (List.map_id _)
    simp only [Function.comp_apply, DeclContents.toDecl, Md.declContents, hreq]
  have hentries : (toEntries n s.entries).map (c.toMd.entryContents (s.toSection i n)) =
      s.entries := by
    rw [toEntries, List.map_map]
    conv_rhs => rw [← List.zipIdx_map_fst n s.entries]
    refine List.map_congr_left fun e he ↦ ?_
    exact entryContents_toMd i e.2 n (h.entries e.1 (List.fst_mem_of_mem_zipIdx he))
  rw [Md.sectionContents]
  simp only [SectionContents.toSection] at hentries ⊢
  rw [hdecls, hentries]

/-- What is made of contents has these contents, which is the half of the round trip without texts. -/
theorem contents_toMd (h : c.Consistent) : c.toMd.contents = c := by
  have hmap : ∀ (i n : ℕ) (c' : Contents D), (∀ s ∈ c', s ∈ c) →
      (Contents.toSections i n c').map c.toMd.sectionContents = c' := by
    intro i n c' hsub
    induction c' generalizing i n with
    | nil => rfl
    | cons s c' ih =>
      rw [Contents.toSections, List.map_cons,
        sectionContents_toMd i n (h.sections s (hsub s List.mem_cons_self)),
        ih _ _ fun t ht ↦ hsub t (List.mem_cons_of_mem _ ht)]
  exact hmap 0 0 c fun s hs ↦ hs

end ToMd

/-! ### The round trip -/

/-- What is written of the md is read back without a punt, to an md with the same contents. -/
def Md.RoundTrips (F : DoubleFormat D) (md : Md D) : Prop :=
  ∃ text md' rest, writeMd F md = .ok text ∧ Reads (readMd F) text md' rest ∧
    md'.contents = md.contents

/-- No link leads to something deleted, the entries can be counted, and the reader takes the
contents: no element is unset below the last one of its field, and nothing is larger than its limits. -/
def Md.Portable (md : Md D) : Prop :=
  md.Linked ∧ md.entries.length ≤ 2147483647 ∧ md.contents.Fits

/-- A built md whose names and strings are lines, and whose doubles are read as they were written,
comes back exactly when it is portable. -/
theorem roundTrips_iff (F : DoubleFormat D) {md : Md D} (hbuilt : md.Built)
    (htext : md.contents.IsText F) : md.RoundTrips F ↔ md.Portable := by
  constructor
  · rintro ⟨text, md', rest, hwrite, hread, -⟩
    obtain ⟨hlinked, hcount⟩ := linked_of_writeMd hbuilt.wf hwrite
    obtain rfl := Except.ok.inj ((writeMd_eq hbuilt.wf hlinked hcount).symm.trans hwrite)
    refine ⟨hlinked, hcount, ?_⟩
    by_contra hfits
    exact ((readMd_iff (consistent_contents hbuilt.wf hlinked hcount) htext).2 hfits).not_reads hread
  · rintro ⟨hlinked, hcount, hfits⟩
    have hcons := consistent_contents hbuilt.wf hlinked hcount
    exact ⟨_, _, _, writeMd_eq hbuilt.wf hlinked hcount, (readMd_iff hcons htext).1 hfits,
      contents_toMd hcons⟩

/-! ### A small md -/

/-- The doubles 0 and 1, which are printed as `0` and `1`. -/
def zeroOne : DoubleFormat Bool where
  print b := if b then ['1'.toUInt8] else ['0'.toUInt8]
  strtod s :=
    if s = ['1'.toUInt8] then some true else if s = ['0'.toUInt8] then some false else none
  print_ne_nil := by decide
  length_print := by decide
  sp_notMem_print := by decide
  nl_notMem_print := by decide
  zero_notMem_print := by decide

/-- A section with one entry, whose only field has the elements given. -/
def oneField (f : Field Bool) : Md Bool :=
  Contents.toMd [⟨ascii "A", [⟨ascii "f", .optional, [], false⟩], [⟨ascii "x", [(0, f)]⟩]⟩]

/-- One entry with one empty field is built by the calls of the library. -/
theorem built_oneField : (oneField []).Built := by
  have hentry : (Contents.toMd [⟨ascii "A", [⟨ascii "f", .optional, [], false⟩],
      [⟨ascii "x", []⟩]⟩] : Md Bool).Built := Md.Built.foldlM Reach.start
    [.newSection (ascii "A") 0 0, .newEntry 0 (ascii "x"), .newFieldDecl 0 (ascii "f") .optional] rfl
  refine hentry.call (i := .newField 0 0 0) trivial ?_
  exact newField_toMd [] [] [] []
    (s := ⟨ascii "A", [⟨ascii "f", .optional, [], false⟩], [⟨ascii "x", []⟩]⟩)
    rfl (by decide) (by decide) (by decide) (by decide)

/-- So is the entry with another element set, if the call for it returns. -/
theorem Md.Built.setElement {f : Field Bool} (h : (oneField f).Built) {i : ℕ} {x : Element Bool}
    {msg : String} (op : Op Bool) (hi : i < maxArraySize)
    (hop : (oneField f).step op = (oneField f).setElement msg 0 0 i x) :
    (oneField (f.set i x)).Built := by
  refine h.call (i := op) trivial (hop.trans ?_)
  exact setElement_toMd [] [] [] [] []
    (s := ⟨ascii "A", [⟨ascii "f", .optional, [], false⟩], [⟨ascii "x", [(0, f)]⟩]⟩)
    (e := ⟨ascii "x", []⟩) msg x rfl List.not_mem_nil hi

/-- No element of the example links to an entry that is gone. -/
theorem linked_oneField {f : Field Bool} (hf : ∀ x, some x ∈ f → x.Live (oneField f)) :
    (oneField f).Linked := by
  intro s hs
  obtain rfl := List.mem_singleton.1 hs
  refine ⟨fun d hd r hr ↦ ?_, fun e he i g hg x hx ↦ ?_⟩
  · obtain rfl := List.mem_singleton.1 hd
    exact absurd hr List.not_mem_nil
  · obtain rfl := List.mem_singleton.1 he
    replace hg : [(0, f)].lookup i = some g := hg
    rw [List.lookup_cons, List.lookup_nil] at hg
    split at hg
    · exact hf x (Option.some.inj hg ▸ hx)
    · exact absurd hg nofun

/-- The elements of the example are texts the reader takes. -/
theorem isText_oneField {f : Field Bool}
    (hf : ∀ x, some x ∈ (oneField f).fieldContents f → x.IsText zeroOne) :
    (oneField f).contents.IsText zeroOne := by
  intro s hs
  obtain rfl := List.mem_singleton.1 hs
  refine ⟨(by decide : IsLine (ascii "A")), fun d hd ↦ ?_, fun e he ↦ ?_⟩
  · obtain rfl := List.mem_singleton.1 hd
    exact (by decide : IsLine (ascii "f"))
  · obtain rfl := List.mem_singleton.1 he
    refine ⟨(by decide : IsLine (ascii "x")), fun g hg x hx ↦ ?_⟩
    obtain rfl := List.mem_singleton.1 hg
    exact hf x hx

/-- An element that is unset below the last one stops the reader, though every link leads to an
entry. -/
theorem not_roundTrips_unset : ∃ md : Md Bool, md.Built ∧ md.contents.IsText zeroOne ∧ md.Linked ∧
    ¬ md.RoundTrips zeroOne := by
  refine ⟨oneField [none, some (Element.int 5)], built_oneField.setElement (i := 1) (x := .int 5)
    (.setInt 0 0 1 5) (by decide) rfl, isText_oneField ?_, linked_oneField ?_, ?_⟩
  · rintro x hx
    obtain rfl : x = .int 5 := by simpa [Md.fieldContents, Md.elementContents] using hx
    trivial
  · rintro x hx
    obtain rfl : x = .int 5 := by simpa using hx
    trivial
  · rintro ⟨text, md', rest, hwrite, hread, -⟩
    have hround : (writeMd zeroOne (oneField [none, some (Element.int 5)]) >>= fun text ↦
        (readMd zeroOne).run text) = .error (.punt "MD_read_md: Uknown element type '%c'.") := rfl
    rw [hwrite, Run.ok_bind, show (readMd zeroOne).run text = _ from hread] at hround
    cases hround

/-- Elements of every type come back: the least `int`, a double, a string, a link and a block with a
newline in it. -/
theorem roundTrips_iff_elements : (oneField [some (Element.int (BitVec.intMin 32)),
    some (.double true), some (.string (ascii "a b")), some (.link 0),
    some (.block [10, 0, 255])]).RoundTrips zeroOne := by
  have hint := built_oneField.setElement (i := 0) (x := .int (BitVec.intMin 32))
    (.setInt 0 0 0 (BitVec.intMin 32)) (by decide) rfl
  have hdouble := hint.setElement (i := 1) (.setDouble 0 0 1 true) (by decide) rfl
  have hstring := hdouble.setElement (i := 2) (.setString 0 0 2 (ascii "a b")) (by decide) rfl
  have hlink := hstring.setElement (i := 3) (.setLink 0 0 3 0) (by decide) rfl
  have hbuilt : (oneField [some (Element.int (BitVec.intMin 32)), some (.double true),
      some (.string (ascii "a b")), some (.link 0), some (.block [10, 0, 255])]).Built :=
    hlink.setElement (i := 4) (.setBlock 0 0 4 [10, 0, 255]) (by decide) rfl
  refine (roundTrips_iff zeroOne hbuilt (isText_oneField ?_)).2 ⟨linked_oneField ?_, by decide, ?_⟩
  · intro x hx
    simp only [Md.fieldContents, List.map_cons, List.map_nil, Option.map_some, List.mem_cons,
      Option.some.injEq, List.not_mem_nil, or_false, Md.elementContents] at hx
    rcases hx with rfl | rfl | rfl | rfl | rfl
    · trivial
    · exact (by decide : zeroOne.strtod (zeroOne.print true) = some true)
    · exact (by decide : IsLine (ascii "a b"))
    · trivial
    · trivial
  · intro x hx
    simp only [List.mem_cons, Option.some.injEq, List.not_mem_nil, or_false] at hx
    rcases hx with rfl | rfl | rfl | rfl | rfl
    · trivial
    · trivial
    · trivial
    · exact List.mem_singleton.2 rfl
    · trivial
  · refine ⟨by decide, fun s hs ↦ ?_, fun s hs ↦ ?_⟩
    · obtain rfl := List.mem_singleton.1 hs
      refine ⟨by decide, by decide, fun e he ↦ ?_⟩
      obtain rfl := List.mem_singleton.1 he
      decide
    · obtain rfl := List.mem_singleton.1 hs
      refine ⟨fun d hd ↦ ?_, fun e he g hg x hx ↦ ?_⟩
      · obtain rfl := List.mem_singleton.1 hd
        decide
      · obtain rfl := List.mem_singleton.1 he
        obtain rfl := List.mem_singleton.1 hg
        simp only [Md.fieldContents, List.map_cons, List.map_nil, Option.map_some, List.mem_cons,
          List.not_mem_nil, or_false, Md.elementContents] at hx
        rcases hx with rfl | rfl | rfl | rfl | rfl
        · exact ⟨_, rfl, trivial⟩
        · exact ⟨_, rfl, trivial⟩
        · exact ⟨_, rfl, (by decide : Name.Fits (ascii "a b"))⟩
        · exact ⟨_, rfl, trivial⟩
        · exact ⟨_, rfl, (by decide : [10, 0, 255].length ≤ maxBufSize)⟩

end OpenImpact.Libmd
