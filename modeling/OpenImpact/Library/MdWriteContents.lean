import OpenImpact.Library.MdBuilt
import OpenImpact.Library.MdReadContents

/-!
# Writing the text of contents

On an md that the operations built, `MD_write_md` prints the text of its contents if every link leads to
an entry or section that is still there and the entries can be counted by an `int`, and has no result
if not.
-/

namespace OpenImpact.Libmd

variable {D : Type}

/-! ### Links that lead somewhere -/

/-- The sections a requirement names are in the md. -/
def ElementReq.Live (md : Md D) : ElementReq → Prop
  | .link ids => ∀ id ∈ ids, id ∈ md.sections.map Section.id
  | _ => True

/-- The entry an element names is in the md. -/
def Element.Live (md : Md D) : Element D → Prop
  | .link id => id ∈ md.entries.map Entry.id
  | _ => True

/-- No link or link requirement leads to something deleted. -/
def Md.Linked (md : Md D) : Prop :=
  ∀ s ∈ md.sections, (∀ d ∈ s.fieldDecls, ∀ r ∈ d.require, r.Live md) ∧
    ∀ e ∈ s.entries, ∀ i f, e.field i = some f → ∀ x, some x ∈ f → x.Live md

/-! ### Numbers of symbols -/

section Index

variable {α : Type} {key : α → ℕ} {l : List α} {k : ℕ}

/-- The place of a key in a list. -/
theorem findIdx?_key (h : k ∈ l.map key) :
    l.findIdx? (fun a ↦ key a == k) = some (l.findIdx fun a ↦ key a == k) := by
  obtain ⟨a, ha, hk⟩ := List.mem_map.1 h
  exact List.findIdx?_eq_some_iff_findIdx_eq.2
    ⟨List.findIdx_lt_length.2 ⟨a, ha, by rw [hk, beq_self_eq_true]⟩, rfl⟩

/-- A key with a place is in the list. -/
theorem mem_of_findIdx?_key {i : ℕ} (h : l.findIdx? (fun a ↦ key a == k) = some i) :
    k ∈ l.map key := by
  obtain ⟨a, ha, hk⟩ := List.findIdx_lt_length.1
    (lt_of_eq_of_lt (List.findIdx?_eq_some_iff_findIdx_eq.1 h).2
      (List.findIdx?_eq_some_iff_findIdx_eq.1 h).1)
  exact List.mem_map.2 ⟨a, ha, beq_iff_eq.1 hk⟩

/-- The place is within the list. -/
theorem findIdx_key_lt (h : k ∈ l.map key) : l.findIdx (fun a ↦ key a == k) < l.length :=
  (List.findIdx?_eq_some_iff_findIdx_eq.1 (findIdx?_key h)).1

end Index

/-! ### Lists -/

section WriteList

variable {α : Type} {write : α → Run (List UInt8)} {text : α → List UInt8} {l : List α}

/-- Writing a list writes its elements one after the other. -/
theorem writeList_eq (h : ∀ a ∈ l, write a = .ok (text a)) : writeList write l = .ok (l.flatMap text) := by
  induction l with
  | nil => rfl
  | cons a l ih =>
    rw [writeList, h a List.mem_cons_self, Run.ok_bind,
      ih fun b hb ↦ h b (List.mem_cons_of_mem _ hb), Run.ok_bind, List.flatMap_cons]

/-- A list that is written has elements that can be. -/
theorem writeList_eq_ok {t : List UInt8} (h : writeList write l = .ok t) :
    ∀ a ∈ l, ∃ t, write a = .ok t := by
  induction l generalizing t with
  | nil => exact fun a ha ↦ absurd ha List.not_mem_nil
  | cons a l ih =>
    obtain ⟨t1, h1, h⟩ := Run.bind_eq_ok.1 h
    obtain ⟨t2, h2, -⟩ := Run.bind_eq_ok.1 h
    intro b hb
    rcases List.mem_cons.1 hb with rfl | hb
    · exact ⟨t1, h1⟩
    · exact ih h2 b hb

/-- Leaving elements out before or while writing. -/
theorem flatMap_filterMap {β : Type} (g : α → Option β) (h : β → List UInt8) (l : List α) :
    (l.filterMap g).flatMap h = l.flatMap fun a ↦ ((g a).map h).getD [] := by
  induction l with
  | nil => rfl
  | cons a l ih =>
    rw [List.flatMap_cons, ← ih]
    cases hg : g a with
    | none => rw [List.filterMap_cons_none hg]; rfl
    | some b => rw [List.filterMap_cons_some hg, List.flatMap_cons]; rfl

end WriteList

/-! ### The writer -/

section Writer

variable {F : DoubleFormat D} {md : Md D} {s : Section D} {e : Entry D}

/-- A requirement is written as its contents are printed, if what it links to exists. -/
theorem writeReq_eq {r : ElementReq} (h : r.Live md) :
    writeReq md r = .ok (printReq (md.reqContents r)) := by
  cases r with
  | link ids =>
    have hids : (ids.mapM fun id ↦ deref (md.sectionSymbolId id)) =
        (.ok (ids.map md.sectionIndex) : Run (List ℕ)) := by
      induction ids with
      | nil => rfl
      | cons id ids ih =>
        rw [List.mapM_cons, Md.sectionSymbolId, findIdx?_key (h id List.mem_cons_self), deref_some,
          Run.ok_bind, ih fun i hi ↦ h i (List.mem_cons_of_mem _ hi)]
        rfl
    rw [writeReq, hids]
    rfl
  | _ => rfl

/-- What is written exists. -/
theorem live_of_writeReq {r : ElementReq} {t : List UInt8} (h : writeReq md r = .ok t) : r.Live md := by
  cases r with
  | link ids =>
    obtain ⟨l, hl, -⟩ := Run.bind_eq_ok.1 h
    clear h
    induction ids generalizing l with
    | nil => exact fun id hid ↦ absurd hid List.not_mem_nil
    | cons id ids ih =>
      rw [List.mapM_cons] at hl
      obtain ⟨k, hk, hl⟩ := Run.bind_eq_ok.1 hl
      obtain ⟨l', hl', -⟩ := Run.bind_eq_ok.1 hl
      intro i hi
      rcases List.mem_cons.1 hi with rfl | hi
      · exact mem_of_findIdx?_key (deref_eq_ok.1 hk)
      · exact ih l' hl' i hi
  | _ => trivial

/-- A declaration is written as its contents are printed. -/
theorem writeFieldDecl_eq {d : FieldDecl} (h : ∀ r ∈ d.require, r.Live md) :
    writeFieldDecl md d = .ok (encodeDecl (md.declContents d)) := by
  rw [writeFieldDecl, writeList_eq fun r hr ↦ writeReq_eq (h r hr), Run.ok_bind, encodeDecl,
    Md.declContents, List.flatMap_map, List.length_map]

/-- So is an element. -/
theorem writeElement_eq {x : Option (Element D)} (h : ∀ y, x = some y → y.Live md) :
    writeElement F md x = .ok (printElement F (x.map md.elementContents)) := by
  cases x with
  | none => rfl
  | some y =>
    cases y with
    | link id =>
      rw [writeElement, Md.entrySymbolId, findIdx?_key (h _ rfl)]
      rfl
    | _ => rfl

/-- An element that is written exists. -/
theorem live_of_writeElement {y : Element D} {t : List UInt8}
    (h : writeElement F md (some y) = .ok t) : y.Live md := by
  cases y with
  | link id =>
    obtain ⟨k, hk, -⟩ := Run.bind_eq_ok.1 h
    exact mem_of_findIdx?_key (deref_eq_ok.1 hk)
  | _ => trivial

/-- All elements of a field are assigned up to the last one. -/
theorem rdropWhile_field {f : Field D} (h : f.Wf) : f.rdropWhile Option.isNone = f := by
  rw [List.rdropWhile_eq_self_iff]
  intro hne hnone
  refine h.last ?_
  rw [List.getLast?_eq_some_getLast hne, Option.isNone_iff_eq_none.1 hnone]

/-- A field is written as its contents are printed, if the entry has it. -/
theorem writeField_eq (hwf : ∀ i f, e.field i = some f → f.Wf)
    (h : ∀ i f, e.field i = some f → ∀ x, some x ∈ f → x.Live md) (d : FieldDecl × ℕ) :
    writeField F md e d = .ok ((((e.field d.1.fieldIndex).map fun f ↦
      (d.2, md.fieldContents f)).map (encodeField F)).getD []) := by
  rw [writeField]
  cases hf : e.field d.1.fieldIndex with
  | none => rfl
  | some f =>
    simp only
    rw [rdropWhile_field (hwf _ f hf), writeList_eq fun x hx ↦ writeElement_eq fun y hy ↦
      h _ f hf y (hy ▸ hx), Run.ok_bind]
    simp only [Option.map_some, Option.getD_some, encodeField, Md.fieldContents, List.length_map,
      List.flatMap_map]

/-- The number of fields that the writer counts. -/
theorem fieldCount_eq (md : Md D) (hwf : s.Wf) (he : e ∈ s.entries) :
    ((List.range s.numFieldIndex).countP fun i ↦ (e.field i).isSome) =
      (md.entryContents s e).fields.length := by
  have hperm : ((List.range s.numFieldIndex).filter fun i ↦ (e.field i).isSome).Perm
      ((s.fieldDecls.map FieldDecl.fieldIndex).filter fun i ↦ (e.field i).isSome) := by
    rw [List.perm_ext_iff_of_nodup (List.nodup_range.filter _) (hwf.nodup_index.filter _)]
    intro i
    rw [List.mem_filter, List.mem_filter, List.mem_range]
    refine ⟨fun ⟨_, hi⟩ ↦ ⟨?_, hi⟩, fun ⟨hmem, hi⟩ ↦ ⟨?_, hi⟩⟩
    · obtain ⟨f, hf⟩ := Option.isSome_iff_exists.1 hi
      exact hwf.declared e he i f hf
    · obtain ⟨d, hd, rfl⟩ := List.mem_map.1 hmem
      exact hwf.lt_numFieldIndex d hd
  calc (List.range s.numFieldIndex).countP (fun i ↦ (e.field i).isSome)
      = (s.fieldDecls.map FieldDecl.fieldIndex).countP fun i ↦ (e.field i).isSome := by
        rw [List.countP_eq_length_filter, hperm.length_eq, List.countP_eq_length_filter]
    _ = (md.entryContents s e).fields.length := by
        rw [Md.entryContents, List.length_filterMap_eq_countP, List.countP_map]
        conv_lhs => rw [← List.zipIdx_map_fst 0 s.fieldDecls, List.countP_map]
        refine List.countP_congr fun d _ ↦ ?_
        simp

/-- An entry is written as its contents are printed. -/
theorem writeEntry_eq (hwf : s.Wf) (he : e ∈ s.entries)
    (h : ∀ i f, e.field i = some f → ∀ x, some x ∈ f → x.Live md) :
    writeEntry F md s e = .ok (encodeEntry F (md.entryContents s e)) := by
  rw [writeEntry, writeList_eq fun d _ ↦ writeField_eq (hwf.fields e he) h d]
  simp only [Run.ok_bind]
  rw [fieldCount_eq md hwf he, encodeEntry]
  simp only [Md.entryContents, flatMap_filterMap]

/-- So is a section. -/
theorem writeBody_eq (hwf : s.Wf) (hdecls : ∀ d ∈ s.fieldDecls, ∀ r ∈ d.require, r.Live md)
    (hentries : ∀ e ∈ s.entries, ∀ i f, e.field i = some f → ∀ x, some x ∈ f → x.Live md) :
    writeBody F md s = .ok (encodeBody F (md.sectionContents s)) := by
  rw [writeBody, writeList_eq fun d hd ↦ writeFieldDecl_eq (hdecls d hd), Run.ok_bind,
    writeList_eq fun e he ↦ writeEntry_eq hwf he (hentries e he), Run.ok_bind, encodeBody]
  simp only [Md.sectionContents, List.length_map, List.flatMap_map]

/-- The sum of the numbers of entries, if it fits an `int`. -/
theorem totalEntryCount_eq_ok {l : List (Section D)} {a b : ℤ} :
    l.foldlM (fun n s ↦ int32 (n + s.entries.length)) a = .ok b → 0 ≤ a →
      b = a + ((l.flatMap Section.entries).length : ℕ) ∧ (b ≤ 2147483647 ∨ l = []) := by
  induction l generalizing a with
  | nil =>
    intro h _
    obtain rfl := Except.ok.inj h
    exact ⟨(Int.add_zero a).symm, Or.inr rfl⟩
  | cons s l ih =>
    intro h ha
    rw [List.foldlM_cons] at h
    obtain ⟨n, hn, h⟩ := Run.bind_eq_ok.1 h
    obtain ⟨hle, rfl⟩ := int32_eq_ok.1 hn
    obtain ⟨hb, hmax⟩ := ih h (by omega)
    rw [List.flatMap_cons, List.length_append]
    refine ⟨by omega, Or.inl ?_⟩
    rcases hmax with hmax | rfl
    · exact hmax
    · rw [List.flatMap_nil, List.length_nil] at hb
      omega

/-- It fits if the total does. -/
theorem totalEntryCount_eq {l : List (Section D)} {a : ℕ}
    (h : a + (l.flatMap Section.entries).length ≤ 2147483647) :
    l.foldlM (fun n s ↦ int32 (n + s.entries.length)) (a : ℤ) =
      .ok (a + (l.flatMap Section.entries).length : ℕ) := by
  induction l generalizing a with
  | nil => rfl
  | cons s l ih =>
    rw [List.flatMap_cons, List.length_append, ← Nat.add_assoc] at h ⊢
    rw [List.foldlM_cons, int32_eq (by omega), Run.ok_bind]
    exact_mod_cast ih h

/-- The number of entries of the contents. -/
theorem entryCount_contents (md : Md D) : md.contents.entryCount = md.entries.length := by
  rw [Contents.entryCount, Md.contents, List.map_map, Md.entries, List.length_flatMap]
  congr 1
  exact List.map_congr_left fun s _ ↦ List.length_map _

/-- The writer prints the text of the contents. -/
theorem writeMd_eq (hwf : md.Wf) (hlinked : md.Linked) (hcount : md.entries.length ≤ 2147483647) :
    writeMd F md = .ok (encode F md.contents) := by
  have htotal := totalEntryCount_eq (l := md.sections) (a := 0) (by rwa [Nat.zero_add])
  rw [Nat.cast_zero, Nat.zero_add] at htotal
  have hheader : ∀ s, writeHeader s = encodeHeader (md.sectionContents s) := fun s ↦ by
    simp only [writeHeader, encodeHeader, Md.sectionContents, List.length_map, List.flatMap_map,
      Md.entryContents]
  have hheaders : md.sections.flatMap writeHeader = md.contents.flatMap encodeHeader := by
    rw [Md.contents, List.flatMap_map]
    exact congrArg md.sections.flatMap (funext hheader)
  have hbodies : md.sections.flatMap (fun s ↦ encodeBody F (md.sectionContents s)) =
      md.contents.flatMap (encodeBody F) := by
    rw [Md.contents, List.flatMap_map]
  have hlen : md.contents.length = md.sections.length := List.length_map _
  rw [writeMd, htotal, Run.ok_bind, writeList_eq fun s hs ↦ writeBody_eq (hwf.sections s hs)
    (hlinked s hs).1 (hlinked s hs).2, Run.ok_bind, hheaders, hbodies, encode,
    entryCount_contents, hlen, Int.toNat_natCast]
  rfl

/-- What the writer has a result on. -/
theorem linked_of_writeMd (hwf : md.Wf) {t : List UInt8} (h : writeMd F md = .ok t) :
    md.Linked ∧ md.entries.length ≤ 2147483647 := by
  obtain ⟨n, htotal, h⟩ := Run.bind_eq_ok.1 h
  obtain ⟨bodies, hbodies, -⟩ := Run.bind_eq_ok.1 h
  refine ⟨fun s hs ↦ ?_, ?_⟩
  · obtain ⟨t, hbody⟩ := writeList_eq_ok hbodies s hs
    obtain ⟨decls, hdecls, hbody⟩ := Run.bind_eq_ok.1 hbody
    obtain ⟨entries, hentries, -⟩ := Run.bind_eq_ok.1 hbody
    refine ⟨fun d hd r hr ↦ ?_, fun e he i f hf x hx ↦ ?_⟩
    · obtain ⟨t, ht⟩ := writeList_eq_ok hdecls d hd
      obtain ⟨reqs, hreqs, -⟩ := Run.bind_eq_ok.1 ht
      obtain ⟨t, ht⟩ := writeList_eq_ok hreqs r hr
      exact live_of_writeReq ht
    · obtain ⟨t, ht⟩ := writeList_eq_ok hentries e he
      obtain ⟨fields, hfields, -⟩ := Run.bind_eq_ok.1 ht
      obtain ⟨d, hd, rfl⟩ := List.mem_map.1 ((hwf.sections s hs).declared e he i f hf)
      obtain ⟨k, hk⟩ : ∃ k, (d, k) ∈ s.fieldDecls.zipIdx := by
        have hd' := hd
        rw [← List.zipIdx_map_fst 0 s.fieldDecls] at hd'
        obtain ⟨⟨d', k⟩, hk, rfl⟩ := List.mem_map.1 hd'
        exact ⟨k, hk⟩
      obtain ⟨t, ht⟩ := writeList_eq_ok hfields (d, k) hk
      rw [writeField, hf] at ht
      obtain ⟨elements, helements, -⟩ := Run.bind_eq_ok.1 ht
      rw [rdropWhile_field ((hwf.sections s hs).fields e he _ f hf)] at helements
      obtain ⟨t, ht⟩ := writeList_eq_ok helements (some x) hx
      exact live_of_writeElement ht
  · obtain ⟨hn, hmax⟩ := totalEntryCount_eq_ok htotal (Int.le_refl 0)
    rw [Int.zero_add] at hn
    rcases hmax with hmax | hnil
    · rw [Md.entries]
      omega
    · rw [Md.entries, hnil]
      exact Nat.zero_le _

end Writer

end OpenImpact.Libmd
