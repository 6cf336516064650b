import OpenImpact.Library.MdContents
import OpenImpact.Library.MdRead
import Mathlib.Data.List.Perm.Subperm

/-!
# Reading the text of contents

What `MD_read_md` does on the text of contents that are consistent: it builds the md that holds them
if they fit its limits and no field has an unset element, and stops if not.
-/

namespace OpenImpact.Libmd

open TokenReader

variable {D : Type}

/-! ### Consistent contents -/

/-- The sections a requirement names exist, and there are some. -/
def ElementReq.Consistent (sections : ℕ) : ElementReq → Prop
  | .link ids => ids ≠ [] ∧ ids.length ≤ 2147483647 ∧ ∀ id ∈ ids, id < sections
  | _ => True

/-- What the operations see to in a declaration. -/
structure DeclContents.Consistent (sections : ℕ) (d : DeclContents) : Prop where
  length_require : d.require.length ≤ maxArraySize
  require : ∀ r ∈ d.require, r.Consistent sections
  starred : d.kleeneStarred = true → d.require ≠ []

/-- The entry an element names exists, and the size of a block is an `unsigned int`. -/
def Element.Consistent (entries : ℕ) : Element D → Prop
  | .link id => id < entries
  | .block b => b.length < 2 ^ 32
  | _ => True

/-- What the operations see to in an entry. -/
structure EntryContents.Consistent (entries decls : ℕ) (e : EntryContents D) : Prop where
  sorted_fields : (e.fields.map Prod.fst).Pairwise (· < ·)
  lt_decls : ∀ f ∈ e.fields, f.1 < decls
  length_field : ∀ f ∈ e.fields, f.2.length ≤ maxArraySize
  elements : ∀ f ∈ e.fields, ∀ x, some x ∈ f.2 → x.Consistent entries

/-- The fields of an entry are of different declarations. -/
theorem EntryContents.Consistent.nodup_fields {entries decls : ℕ} {e : EntryContents D}
    (h : e.Consistent entries decls) : (e.fields.map Prod.fst).Nodup :=
  h.sorted_fields.imp fun hlt ↦ Nat.ne_of_lt hlt

/-- What the operations see to in a section. -/
structure SectionContents.Consistent (sections entries : ℕ) (s : SectionContents D) : Prop where
  nodup_decls : (s.decls.map DeclContents.name).Nodup
  nodup_entries : (s.entries.map EntryContents.name).Nodup
  length_decls : s.decls.length ≤ 2147483647
  length_entries : s.entries.length ≤ 2147483647
  decls : ∀ d ∈ s.decls, d.Consistent sections
  entries : ∀ e ∈ s.entries, e.Consistent entries s.decls.length

/-- What the operations see to in an md, and that the entries can be counted. -/
structure Contents.Consistent (c : Contents D) : Prop where
  nodup_sections : (c.map SectionContents.name).Nodup
  length_sections : c.length ≤ 2147483647
  entryCount_le : c.entryCount ≤ 2147483647
  sections : ∀ s ∈ c, s.Consistent c.length c.entryCount

/-! ### Contents that print as lines -/

/-- A string is a line, and a double is what is read of its text. -/
def Element.IsText (F : DoubleFormat D) : Element D → Prop
  | .string s => IsLine s
  | .double d => F.strtod (F.print d) = some d
  | _ => True

/-- The names and values of an entry are text. -/
def EntryContents.IsText (F : DoubleFormat D) (e : EntryContents D) : Prop :=
  IsLine e.name ∧ ∀ f ∈ e.fields, ∀ x, some x ∈ f.2 → x.IsText F

/-- The names and values of a section are text. -/
def SectionContents.IsText (F : DoubleFormat D) (s : SectionContents D) : Prop :=
  IsLine s.name ∧ (∀ d ∈ s.decls, IsLine d.name) ∧ ∀ e ∈ s.entries, e.IsText F

/-- All names and values are text. -/
def Contents.IsText (F : DoubleFormat D) (c : Contents D) : Prop := ∀ s ∈ c, s.IsText F

/-! ### Contents the reader takes -/

/-- A read buffer can hold the string and two more bytes. -/
def Name.Fits (s : Name) : Prop := s.length + 2 ≤ maxBufSize

instance (s : Name) : Decidable (Name.Fits s) :=
  inferInstanceAs (Decidable (s.length + 2 ≤ maxBufSize))

/-- A read buffer can hold a string or a block. -/
def Element.Fits : Element D → Prop
  | .string s => Name.Fits s
  | .block b => b.length ≤ maxBufSize
  | _ => True

/-- An element that is set and fits. -/
def ElementFits (x : Option (Element D)) : Prop := ∃ y, x = some y ∧ y.Fits

/-- Every element up to the last one is set and fits. -/
def EntryContents.Fits (e : EntryContents D) : Prop := ∀ f ∈ e.fields, ∀ x ∈ f.2, ElementFits x

/-- The first loop over the sections takes the section: its tables are not sized for more than a
billion symbols. -/
def SectionContents.HeaderFits (s : SectionContents D) : Prop :=
  Name.Fits s.name ∧ (s.entries.length ≤ 1000000000 ∧ s.decls.length ≤ 1000000000) ∧
    ∀ e ∈ s.entries, Name.Fits e.name

/-- The second loop over the sections takes the section. -/
def SectionContents.BodyFits (s : SectionContents D) : Prop :=
  (∀ d ∈ s.decls, Name.Fits d.name) ∧ ∀ e ∈ s.entries, e.Fits

/-- The reader takes the contents. -/
def Contents.Fits (c : Contents D) : Prop :=
  c.length ≤ 1000000000 ∧ (∀ s ∈ c, s.HeaderFits) ∧ ∀ s ∈ c, s.BodyFits

/-! ### Numbers -/

/-- A number within `int` is read back with its sign. -/
theorem toInt_ofNat {n : ℕ} (h : n ≤ 2147483647) : (BitVec.ofNat 32 n).toInt = n := by
  rw [BitVec.toInt_eq_toNat_cond, BitVec.toNat_ofNat, Nat.mod_eq_of_lt (by omega),
    if_pos (by omega)]

/-- A loop up to a number within `int`. -/
theorem rounds_ofNat {n : ℕ} (h : n ≤ 2147483647) : rounds (BitVec.ofNat 32 n) = List.range n := by
  rw [rounds, toInt_ofNat h, Int.toNat_natCast]

/-- An id below the number of entries is found. -/
theorem at?_ofNat {n i : ℕ} (hi : i < n) (hn : n ≤ 2147483647) :
    at? (List.range n) (BitVec.ofNat 32 i) = some i := by
  rw [at?, toInt_ofNat (by omega), if_neg (by omega), Int.toNat_natCast, List.getElem?_range hi]

/-! ### Elements -/

section Elements

variable {F : DoubleFormat D} {pre post : Contents D} {s : SectionContents D}
  {es et : List (EntryContents D)} {e : EntryContents D} {k n : ℕ} {fields : List (ℕ × Field D)}
  {done : Field D}

/-- The md after setting one more element. -/
def withField (pre post : Contents D) (s : SectionContents D) (es et : List (EntryContents D))
    (name : Name) (fields : List (ℕ × Field D)) : Md D :=
  Contents.toMd (pre ++ { s with entries := es ++ ⟨name, fields⟩ :: et } :: post)

/-- The next element of a field. -/
theorem setElement_withField {name : Name} (msg : String) (x : Element D)
    (hnew : k ∉ fields.map Prod.fst) (hlen : done.length < maxArraySize) :
    (withField pre post s es et name (fields ++ [(k, done)])).setElement msg
        (pre.entryCount + es.length) k done.length x =
      .ok (withField pre post s es et name (fields ++ [(k, done ++ [some x])])) := by
  rw [← Field.set_length]
  exact setElement_toMd pre post es et fields (e := ⟨name, []⟩) msg x rfl hnew hlen

/-- What is read behind the first character of a line. -/
theorem readElement_of_rest {P : Prop} {entryArray : List ℕ} {entry : ℕ} {md md' : Md D} {i : ℕ}
    {ch : UInt8} {text inp : List UInt8}
    (h : ReadsIff P (readElementRest F entryArray entry k md i (some ch)) (text ++ nl :: inp) md'
      (nl :: inp)) :
    ReadsIff P (readElement F entryArray entry k md i) (ch :: (text ++ nl :: inp)) md' inp :=
  (reads_getc _ _).bind_iff (h.bind_reads fun _ ↦ (reads_readNl _).bind (Reads.pure _ _))

/-- **An element is read back**, if it fits. -/
theorem readElement_iff {name : Name} (hn : n ≤ 2147483647) (hnew : k ∉ fields.map Prod.fst)
    (hlen : done.length < maxArraySize) (x : Option (Element D))
    (hx : ∀ y, x = some y → y.Consistent n ∧ y.IsText F) (inp : List UInt8) :
    ReadsIff (ElementFits x)
      (readElement F (List.range n) (pre.entryCount + es.length) k
        (withField pre post s es et name (fields ++ [(k, done)])) done.length)
      (printElement F x ++ inp)
      (withField pre post s es et name (fields ++ [(k, done ++ [x])])) inp := by
  have hset : ∀ (msg : String) (y : Element D) (inp : List UInt8), Reads (call
      ((withField pre post s es et name (fields ++ [(k, done)])).setElement msg
        (pre.entryCount + es.length) k done.length y)) inp
      (withField pre post s es et name (fields ++ [(k, done ++ [some y])])) inp :=
    fun msg y inp ↦ Reads.lift (setElement_withField msg y hnew hlen) inp
  cases x with
  | none =>
    -- an element that is not set is written as a dash, which the reader punts on
    refine Fails.readsIff ?_ (fun h ↦ nomatch h.choose_spec.1)
    exact (reads_getc _ _).bind_fails ((Fails.lift rfl _).bind _)
  | some y =>
    obtain ⟨hcons, htext⟩ := hx y rfl
    have hfits : ElementFits (some y) ↔ y.Fits :=
      ⟨fun ⟨z, hz, hfit⟩ ↦ Option.some.inj hz ▸ hfit, fun h ↦ ⟨y, rfl, h⟩⟩
    refine ReadsIff.congr ?_ hfits
    -- one case for each type of element; only strings and blocks can be too long
    cases y with
    | int i =>
      have hread : Reads readInt ((if i.toInt < 0 then '-'.toUInt8 :: hex (-i).toNat
          else hex i.toNat) ++ nl :: inp) i (nl :: inp) := by
        split_ifs with hneg
        · have := reads_readInt_neg (-i).toNat (delim_nl inp)
          rwa [BitVec.ofNat_toNat, BitVec.setWidth_eq, BitVec.neg_neg] at this
        · have := reads_readInt i.toNat (delim_nl inp)
          rwa [BitVec.ofNat_toNat, BitVec.setWidth_eq] at this
      have hprint : printElement F (some (.int i)) ++ inp = 'I'.toUInt8 ::
          ((if i.toInt < 0 then '-'.toUInt8 :: hex (-i).toNat else hex i.toNat) ++ nl :: inp) := by
        rw [printElement]
        split_ifs <;> simp
      rw [hprint]
      refine readElement_of_rest ?_
      rw [readElementRest, if_pos rfl]
      exact (hread.bind (hset _ _ _)).readsIff trivial
    | double d =>
      have hprint : printElement F (some (.double d)) ++ inp =
          'D'.toUInt8 :: (F.print d ++ nl :: inp) := by simp [printElement]
      rw [hprint]
      refine readElement_of_rest ?_
      rw [readElementRest, if_neg (by decide), if_pos rfl]
      exact ((reads_readDouble F htext inp).bind (hset _ _ _)).readsIff trivial
    | string v =>
      have hprint : printElement F (some (.string v)) ++ inp = 'S'.toUInt8 :: (v ++ nl :: inp) := by
        simp [printElement]
      have hread : ReadsIff (Name.Fits v) readString (v ++ nl :: inp) v (nl :: inp) :=
        ⟨fun h ↦ reads_readString htext h inp, fun h ↦ fails_readString htext (Nat.not_le.1 h) inp⟩
      rw [hprint]
      refine readElement_of_rest ?_
      rw [readElementRest, if_neg (by decide), if_neg (by decide), if_pos rfl]
      exact hread.bind_reads fun _ ↦ hset _ _ _
    | block b =>
      have hprint : printElement F (some (.block b)) ++ inp =
          'B'.toUInt8 :: ((hex b.length ++ sp :: b) ++ nl :: inp) := by simp [printElement]
      have hsize : (BitVec.ofNat 32 b.length).toNat = b.length := by
        rw [BitVec.toNat_ofNat, Nat.mod_eq_of_lt hcons]
      have hread : ReadsIff (b.length ≤ maxBufSize) (readBlock b.length) (b ++ nl :: inp) b
          (nl :: inp) :=
        ⟨fun h ↦ reads_readBlock h _, fun h ↦ fails_readBlock (Nat.not_le.1 h) _⟩
      rw [hprint]
      refine readElement_of_rest ?_
      rw [readElementRest, if_neg (by decide), if_neg (by decide), if_neg (by decide), if_pos rfl,
        List.append_assoc, List.cons_append]
      refine (reads_readInt _ (delim_sp _)).bind_iff ((reads_readSp _).bind_iff ?_)
      rw [hsize]
      refine hread.bind_reads fun h ↦ ?_
      rw [Md.setBlock, if_pos (show b.length < 2 ^ 32 from hcons)]
      exact hset _ _ _
    | link id =>
      have hprint : printElement F (some (.link id)) ++ inp = 'L'.toUInt8 :: (hex id ++ nl :: inp) := by
        simp [printElement]
      rw [hprint]
      refine readElement_of_rest ?_
      rw [readElementRest, if_neg (by decide), if_neg (by decide), if_neg (by decide),
        if_neg (by decide), if_pos rfl]
      refine ((reads_readInt id (delim_nl inp)).bind ?_).readsIff trivial
      exact (Reads.lift (by rw [at?_ofNat hcons hn, deref_some]) _).bind (hset _ _ _)

/-- A field is read back, if its elements fit. -/
theorem readField_iff {name : Name} {f : ℕ × Field D} (hn : n ≤ 2147483647)
    (hdecls : s.decls.length ≤ 2147483647) (hf : f.1 < s.decls.length)
    (hnew : f.1 ∉ fields.map Prod.fst) (hlen : f.2.length ≤ maxArraySize)
    (hx : ∀ y, some y ∈ f.2 → y.Consistent n ∧ y.IsText F) (i : ℕ) (inp : List UInt8) :
    ReadsIff (∀ x ∈ f.2, ElementFits x)
      (readField F (List.range n) (List.range s.decls.length) (pre.entryCount + es.length)
        (withField pre post s es et name fields) i)
      (encodeField F f ++ inp) (withField pre post s es et name (fields ++ [f])) inp := by
  have hmax : maxArraySize ≤ 2147483647 := by decide
  have htext : encodeField F f ++ inp =
      hex f.1 ++ sp :: (hex f.2.length ++ nl :: (f.2.flatMap (printElement F) ++ nl :: inp)) := by
    simp [encodeField, printPair]
  rw [htext]
  refine (reads_readInt _ (delim_sp _)).bind_iff ((reads_readInt_sp _ (delim_nl _)).bind_iff
    ((reads_readNl _).bind_iff ?_))
  refine (Reads.lift (a := f.1) (by rw [at?_ofNat hf hdecls, deref_some]) _).bind_iff ?_
  rw [toInt_ofNat (by omega), rounds_ofNat (by omega)]
  have hfield := newField_toMd pre post es et (n := f.2.length)
    (s := { s with entries := es ++ ⟨name, fields⟩ :: et }) (e := ⟨name, fields⟩) rfl hf hnew
    (Int.natCast_nonneg _) (Int.ofNat_le.2 hlen)
  refine (Reads.lift hfield _).bind_iff ?_
  refine ReadsIff.bind_reads (ReadsIff.foldlM_range
    (s := fun done ↦ withField pre post s es et name (fields ++ [(f.1, done)])) ?_ _)
    fun _ ↦ (reads_readNl _).bind (Reads.pure _ _)
  intro done x tail hl inp
  have hlt : done.length < maxArraySize := by
    rw [hl, List.length_append, List.length_cons] at hlen
    omega
  refine readElement_iff hn hnew hlt x (fun y hy ↦ hx y ?_) inp
  rw [hl, ← hy]
  exact List.mem_append_right _ List.mem_cons_self

/-- There are no more fields than declarations. -/
theorem length_fields_le (h : (fields.map Prod.fst).Nodup) (hlt : ∀ f ∈ fields, f.1 < n) :
    fields.length ≤ n := by
  have hsub : fields.map Prod.fst ⊆ List.range n := fun i hi ↦ by
    obtain ⟨f, hf, rfl⟩ := List.mem_map.1 hi
    exact List.mem_range.2 (hlt f hf)
  simpa using (List.subperm_of_subset h hsub).length_le

/-- An entry is read back, if its fields fit. -/
theorem readEntry_iff (pre post : Contents D) (s : SectionContents D)
    (es et : List (EntryContents D)) (hn : n ≤ 2147483647) (hdecls : s.decls.length ≤ 2147483647)
    (hlt : pre.entryCount + es.length < n) (he : e.Consistent n s.decls.length)
    (htext : e.IsText F) (i : ℕ) (inp : List UInt8) :
    ReadsIff e.Fits
      (readEntry F (List.range n) (List.range s.decls.length)
        (withField pre post s es et e.name [], pre.entryCount + es.length) i)
      (encodeEntry F e ++ inp)
      (withField pre post s es et e.name e.fields, pre.entryCount + es.length + 1) inp := by
  have hcount := length_fields_le he.nodup_fields he.lt_decls
  have henc : encodeEntry F e ++ inp =
      hex e.fields.length ++ nl :: nl :: (e.fields.flatMap (encodeField F) ++ inp) := by
    simp [encodeEntry]
  rw [henc]
  refine (Reads.lift (by rw [List.getElem?_range hlt, deref_some]) _).bind_iff
    ((reads_readInt _ (delim_nl _)).bind_iff ((reads_readNl _).bind_iff
      ((reads_readNl _).bind_iff ?_)))
  rw [rounds_ofNat (by omega)]
  refine ReadsIff.bind_reads (ReadsIff.foldlM_range
    (s := fun done ↦ withField pre post s es et e.name done) ?_ _) fun _ ↦ Reads.pure _ _
  intro done f tail hl inp
  have hmem : f ∈ e.fields := by
    rw [hl]
    exact List.mem_append_right _ List.mem_cons_self
  have hnew : f.1 ∉ done.map Prod.fst := by
    have := he.nodup_fields
    rw [hl, List.map_append, List.map_cons, List.nodup_middle, List.nodup_cons] at this
    exact fun h ↦ this.1 (List.mem_append_left _ h)
  exact readField_iff hn hdecls (he.lt_decls f hmem) hnew (he.length_field f hmem)
    (fun y hy ↦ ⟨he.elements f hmem y hy, htext.2 f hmem y hy⟩) _ inp

end Elements

/-! ### Declarations -/

section Decls

variable {pre post : Contents D} {name : Name} {entries : List (EntryContents D)}
  {ds : List DeclContents} {d : DeclContents} {reqs : List ElementReq}

/-- The md after reading a part of the declarations of a section. -/
def withDecls (pre post : Contents D) (name : Name) (entries : List (EntryContents D))
    (ds : List DeclContents) : Md D :=
  Contents.toMd (pre ++ ⟨name, ds, entries⟩ :: post)

/-- A requirement is read by its first character. -/
theorem readReq_of_rest {sectionArray : List ℕ} {sec decl : ℕ} {md md' : Md D} {i : ℕ} {ch : UInt8}
    {inp : List UInt8} (text : List UInt8)
    (h : Reads (readReqRest sectionArray sec decl md i (some ch)) (text ++ nl :: inp) md'
      (nl :: inp)) :
    Reads (readReq sectionArray sec decl md i) (ch :: (text ++ nl :: inp)) md' inp :=
  (reads_getc _ _).bind (h.bind ((reads_readNl _).bind (Reads.pure _ _)))

/-- The sections that a requirement links to. -/
theorem reads_readTargets {n : ℕ} (hn : n ≤ 2147483647) {ids : List ℕ} (hids : ∀ id ∈ ids, id < n)
    (inp : List UInt8) :
    Reads ((List.range ids.length).foldlM (readTarget (List.range n)) [])
      (ids.flatMap (fun id ↦ sp :: hex id) ++ nl :: inp) ids (nl :: inp) := by
  -- each number ends at the space before the next one or at the newline
  suffices h : ∀ rest done i, ids = done ++ rest →
      Reads ((List.range' i rest.length).foldlM (readTarget (List.range n)) done)
        (rest.flatMap (fun id ↦ sp :: hex id) ++ nl :: inp) ids (nl :: inp) by
    rw [List.range_eq_range' (n := ids.length)]
    exact h ids [] 0 rfl
  intro rest
  induction rest with
  | nil =>
    rintro done i rfl
    rw [List.append_nil]
    exact Reads.pure _ _
  | cons id rest ih =>
    intro done i hl
    have hlt : id < n := hids id (by rw [hl]; exact List.mem_append_right _ List.mem_cons_self)
    have hdelim : Delim (rest.flatMap (fun id ↦ sp :: hex id) ++ nl :: inp) := by
      cases rest with
      | nil => exact delim_nl _
      | cons id' rest => exact delim_sp _
    rw [List.length_cons, List.range'_succ, List.foldlM_cons, List.flatMap_cons, List.append_assoc,
      List.cons_append]
    refine Reads.bind (a := done ++ [id]) ?_ (ih (done ++ [id]) (i + 1) (by rw [hl]; simp))
    refine (reads_readInt_sp id hdelim).bind ?_
    exact (Reads.lift (by rw [at?_ofNat hlt hn, deref_some]) _).bind (Reads.pure _ _)

/-- A requirement is read back. -/
theorem reads_readReq {n : ℕ} {type : FieldType} (hn : (pre ++ ⟨name, ds, entries⟩ :: post).length = n)
    (hmax : n ≤ 2147483647) (hlen : reqs.length < maxArraySize) {r : ElementReq}
    (hr : r.Consistent n) (inp : List UInt8) :
    Reads (readReq (List.range n) pre.length ds.length
        (withDecls pre post name entries (ds ++ [⟨d.name, type, reqs, false⟩])) reqs.length)
      (printReq r ++ inp)
      (withDecls pre post name entries (ds ++ [⟨d.name, type, reqs ++ [r], false⟩])) inp := by
  have hnew : ∀ (r : ElementReq), (withDecls pre post name entries
      (ds ++ [⟨d.name, type, reqs, false⟩])).newElementReq pre.length ds.length reqs.length r =
      .ok (withDecls pre post name entries (ds ++ [⟨d.name, type, reqs ++ [r], false⟩])) :=
    fun r ↦ newElementReq_toMd pre post (d := ⟨d.name, type, reqs, false⟩) r rfl rfl hlen
  cases r with
  | int => exact readReq_of_rest [] (Reads.lift (hnew .int) _)
  | double => exact readReq_of_rest [] (Reads.lift (hnew .double) _)
  | string => exact readReq_of_rest [] (Reads.lift (hnew .string) _)
  | block => exact readReq_of_rest [] (Reads.lift (hnew .block) _)
  | link ids =>
    obtain ⟨hne, hint, hids⟩ := hr
    have hprint : printReq (.link ids) ++ inp = 'L'.toUInt8 ::
        ((sp :: hex ids.length ++ ids.flatMap fun id ↦ sp :: hex id) ++ nl :: inp) := by
      simp [printReq]
    rw [hprint]
    refine readReq_of_rest _ ?_
    rw [readReqRest, if_neg (by decide), if_neg (by decide), if_neg (by decide),
      if_neg (by decide), if_pos rfl, List.append_assoc, List.cons_append]
    have hdelim : Delim (ids.flatMap (fun id ↦ sp :: hex id) ++ nl :: inp) := by
      obtain ⟨id, rest, rfl⟩ := List.exists_cons_of_ne_nil hne
      exact delim_sp _
    refine (reads_readInt_sp _ hdelim).bind ?_
    refine (Reads.lift (puntIf_neg (by rw [toInt_ofNat hint]; omega)) _).bind ?_
    rw [rounds_ofNat hint]
    refine (reads_readTargets hmax hids inp).bind ?_
    have hlink : ∀ id ∈ ids, id < (pre ++
        (⟨name, ds ++ [⟨d.name, type, reqs, false⟩], entries⟩ : SectionContents D) ::
          post).length := fun id hid ↦ by
      have := hids id hid
      rw [← hn] at this
      simpa using this
    have hreq := requireMultiTargetLink_toMd pre post
      (s := ⟨name, ds ++ [⟨d.name, type, reqs, false⟩], entries⟩)
      (d := ⟨d.name, type, reqs, false⟩) rfl rfl hlen hne hint hlink
    exact Reads.lift hreq _

/-- A line is read back exactly if the buffer can hold it. -/
theorem readString_iff {s : Name} (hs : IsLine s) (inp : List UInt8) :
    ReadsIff (Name.Fits s) readString (s ++ nl :: inp) s (nl :: inp) :=
  ⟨fun h ↦ reads_readString hs h inp, fun h ↦ fails_readString hs (Nat.not_le.1 h) inp⟩

/-- A declaration is read back exactly if its name fits. -/
theorem readFieldDecl_iff {n : ℕ} (hn : (pre ++ ⟨name, ds, entries⟩ :: post).length = n)
    (hmax : n ≤ 2147483647) (hd : d.Consistent n) (hname : d.name ∉ ds.map DeclContents.name)
    (hlen : ds.length < 2147483647) (hline : IsLine d.name) (i : ℕ) (inp : List UInt8) :
    ReadsIff (Name.Fits d.name)
      (readFieldDecl (List.range n) pre.length
        (withDecls pre post name entries ds, List.range ds.length) i)
      (encodeDecl d ++ inp)
      (withDecls pre post name entries (ds ++ [d]), List.range (ds ++ [d]).length) inp := by
  have hsize : maxArraySize ≤ 2147483647 := by decide
  have hint : d.require.length ≤ 2147483647 := hd.length_require.trans hsize
  obtain ⟨typeMarker, htype, hprint⟩ : ∃ ch, fieldTypeOf (some ch) = .ok d.type ∧
      printDeclHeader d.name d.type d.require.length d.kleeneStarred = d.name ++ nl :: ch :: sp ::
        hex d.require.length ++
          [sp, if d.kleeneStarred then '*'.toUInt8 else '-'.toUInt8, nl] := by
    cases d.type with
    | required => exact ⟨_, rfl, rfl⟩
    | optional => exact ⟨_, rfl, rfl⟩
  have hstarred : kleeneStarredOf (some (if d.kleeneStarred then '*'.toUInt8 else '-'.toUInt8)) =
      .ok d.kleeneStarred := by
    cases d.kleeneStarred <;> rfl
  have htext : encodeDecl d ++ inp = d.name ++ nl :: typeMarker :: sp :: (hex d.require.length ++
      sp :: (if d.kleeneStarred then '*'.toUInt8 else '-'.toUInt8) :: nl ::
        (d.require.flatMap printReq ++ nl :: inp)) := by
    rw [encodeDecl, hprint]
    simp
  rw [htext]
  refine (readString_iff hline _).bind_reads fun _ ↦ (reads_readNl _).bind ((reads_getc _ _).bind
    ((Reads.lift htype _).bind ((reads_readInt_sp _ (delim_sp _)).bind ((reads_readSp _).bind
      ((reads_getc _ _).bind ((Reads.lift hstarred _).bind ((reads_readNl _).bind ?_)))))))
  have hnew := newFieldDecl_toMd pre post (s := ⟨name, ds, entries⟩) d.type hname hlen
  refine (Reads.lift hnew _).bind ?_
  rw [rounds_ofNat hint, toInt_ofNat hint]
  refine Reads.bind (Reads.foldlM_range (s := fun reqs ↦
    withDecls pre post name entries (ds ++ [⟨d.name, d.type, reqs, false⟩])) ?_ _) ?_
  · intro done r tail hl inp
    have hmem : r ∈ d.require := by
      rw [hl]
      exact List.mem_append_right _ List.mem_cons_self
    have hlt : done.length < maxArraySize := by
      have := hd.length_require
      rw [hl, List.length_append, List.length_cons] at this
      omega
    exact reads_readReq (by simpa using hn) hmax hlt (hd.require r hmem) inp
  · refine (reads_readNl _).bind ?_
    have hstar : (if d.kleeneStarred then
        (withDecls pre post name entries
          (ds ++ [⟨d.name, d.type, d.require, false⟩])).kleeneStarRequirement pre.length ds.length
            (d.require.length - 1)
        else .ok (withDecls pre post name entries (ds ++ [⟨d.name, d.type, d.require, false⟩]))) =
        .ok (withDecls pre post name entries (ds ++ [d])) := by
      split_ifs with h
      · have := kleeneStarRequirement_toMd pre post
          (s := ⟨name, ds ++ [⟨d.name, d.type, d.require, false⟩], entries⟩)
          (d := ⟨d.name, d.type, d.require, false⟩) rfl rfl (hd.starred h)
        rw [← h] at this
        exact this
      · rw [Bool.not_eq_true] at h
        rw [← h]
    refine (Reads.lift hstar _).bind ?_
    rw [List.length_append, List.length_singleton, List.range_succ]
    exact Reads.pure _ _

end Decls

/-! ### Sections -/

/-- An entry before its fields are read. -/
def EntryContents.skeleton (e : EntryContents D) : EntryContents D := ⟨e.name, []⟩

/-- A section after the first loop over the sections. -/
def SectionContents.skeleton (s : SectionContents D) : SectionContents D :=
  ⟨s.name, [], s.entries.map EntryContents.skeleton⟩

/-- There are as many entries before their fields are read. -/
theorem entryCount_map_skeleton (c : Contents D) :
    Contents.entryCount (c.map SectionContents.skeleton) = c.entryCount := by
  rw [Contents.entryCount, List.map_map, Contents.entryCount]
  congr 1
  exact List.map_congr_left fun s _ ↦ List.length_map _

section Sections

variable {F : DoubleFormat D} {pre post c : Contents D} {s : SectionContents D} {n : ℕ}

/-- A section is made exactly if the sizes are in range. -/
theorem newSection_iff {name : Name} {a b : ℕ} (hname : name ∉ c.map SectionContents.name)
    (hlen : c.length < 2147483647) (inp : List UInt8) :
    ReadsIff (a ≤ 1000000000 ∧ b ≤ 1000000000) (call (c.toMd.newSection name a b)) inp
      (Contents.toMd (c ++ [⟨name, [], []⟩]), c.length) inp := by
  refine ⟨fun h ↦ Reads.lift (newSection_toMd (by omega) (by omega) (by omega) hname hlen) inp,
    fun h ↦ ?_⟩
  rcases Nat.lt_or_ge 1000000000 a with ha | ha
  · refine Fails.lift (e := .punt "MD_Symbol_Table: unreasonable expected_size (%u)") ?_ inp
    rw [Md.newSection, newSymbolTable, puntIf_pos (by omega)]
    rfl
  · refine Fails.lift (e := .punt "MD_Symbol_Table: unreasonable expected_size (%u)") ?_ inp
    rw [Md.newSection, newSymbolTable, puntIf_neg (by omega), newSymbolTable,
      puntIf_pos (by omega)]
    rfl

/-- The name of an entry is read back exactly if it fits. -/
theorem readEntryName_iff (pre : Contents D) (name : Name) (ds : List DeclContents)
    {es : List (EntryContents D)} {e : EntryContents D} (hname : e.name ∉ es.map EntryContents.name)
    (hlen : es.length < 2147483647) (hlt : pre.entryCount + es.length < n) (hline : IsLine e.name)
    (i : ℕ) (inp : List UInt8) :
    ReadsIff (Name.Fits e.name)
      (readEntryName n pre.length (Contents.toMd (pre ++ [⟨name, ds, es⟩]),
        List.range (pre.entryCount + es.length)) i)
      (e.name ++ nl :: inp)
      (Contents.toMd (pre ++ [⟨name, ds, es ++ [e.skeleton]⟩]),
        List.range (pre.entryCount + (es.length + 1))) inp := by
  have hnew := newEntry_toMd pre (s := ⟨name, ds, es⟩) hname hlen
  rw [Contents.entryCount_append, Contents.entryCount_cons, Contents.entryCount_nil,
    Nat.add_zero] at hnew
  refine (readString_iff hline _).bind_reads fun _ ↦ (reads_readNl _).bind
    ((Reads.lift hnew _).bind ?_)
  refine (Reads.lift (if_pos (by rwa [List.length_range])) _).bind ?_
  rw [← Nat.add_assoc, List.range_succ]
  exact Reads.pure _ _

/-- The first part of a section, with its declarations and the names of its entries. -/
theorem readHeader_iff {m : ℕ} (hcons : s.Consistent m n)
    (hname : s.name ∉ pre.map SectionContents.name) (hpre : pre.length < 2147483647)
    (hcount : pre.entryCount + s.entries.length ≤ n) (htext : s.IsText F) (i : ℕ)
    (inp : List UInt8) :
    ReadsIff s.HeaderFits
      (readHeader n (Contents.toMd (pre.map SectionContents.skeleton), List.range pre.length,
        List.range pre.entryCount) i)
      (encodeHeader s ++ inp)
      (Contents.toMd ((pre ++ [s]).map SectionContents.skeleton), List.range (pre ++ [s]).length,
        List.range (Contents.entryCount (pre ++ [s]))) inp := by
  have henc : encodeHeader s ++ inp = s.name ++ nl :: (hex s.entries.length ++ sp ::
      (hex s.decls.length ++ nl :: (s.entries.flatMap (fun e ↦ e.name ++ [nl]) ++ nl :: inp))) := by
    simp [encodeHeader, printSectionHeader, printPair]
  have hskel : s.name ∉ (pre.map SectionContents.skeleton).map SectionContents.name := by
    rwa [List.map_map]
  have hlen : (pre.map SectionContents.skeleton).length = pre.length := List.length_map _
  have hentries := entryCount_map_skeleton pre
  rw [henc]
  refine (readString_iff htext.1 _).bind fun _ ↦ (reads_readNl _).bind_iff
    ((reads_readInt _ (delim_sp _)).bind_iff ((reads_readInt_sp _ (delim_nl _)).bind_iff
      ((reads_readNl _).bind_iff ?_)))
  rw [toInt_ofNat hcons.length_entries, toInt_ofNat hcons.length_decls,
    rounds_ofNat hcons.length_entries]
  refine (newSection_iff hskel (by rwa [hlen]) _).bind fun _ ↦ ?_
  rw [hlen]
  refine ReadsIff.bind_reads (ReadsIff.foldlM_range (s := fun done ↦
    (Contents.toMd (pre.map SectionContents.skeleton ++
      [⟨s.name, [], done.map EntryContents.skeleton⟩]),
      List.range (pre.entryCount + done.length))) ?_ _) fun _ ↦ ?_
  · intro done e tail hl inp
    have hnodup := hcons.nodup_entries
    have hcount' := hcons.length_entries
    rw [hl, List.length_append, List.length_cons] at hcount hcount'
    rw [hl, List.map_append, List.map_cons, List.nodup_middle, List.nodup_cons] at hnodup
    have hmem : e ∈ s.entries := by
      rw [hl]
      exact List.mem_append_right _ List.mem_cons_self
    have hread := readEntryName_iff (n := n) (e := e) (pre.map SectionContents.skeleton) s.name []
      (show e.name ∉ (done.map EntryContents.skeleton).map EntryContents.name by
        rw [List.map_map]; exact fun h ↦ hnodup.1 (List.mem_append_left _ h))
      (by rw [List.length_map]; omega) (by rw [List.length_map, hentries]; omega)
      (htext.2.2 e hmem).1 done.length inp
    rw [List.length_map, hentries, List.length_map] at hread
    rw [List.append_assoc, List.singleton_append, List.map_append, List.length_append]
    exact hread
  · refine (reads_readNl _).bind ?_
    rw [List.map_append, List.length_append, List.length_singleton, List.range_succ,
      Contents.entryCount_append, Contents.entryCount_cons, Contents.entryCount_nil, Nat.add_zero]
    exact Reads.pure _ _

/-- The entries of a section. -/
theorem readBody_iff (F : DoubleFormat D) (pre post : Contents D) (hn : (pre ++ s :: post).length = n) {m : ℕ}
    (hm : Contents.entryCount (pre ++ s :: post) = m) (hmax : n ≤ 2147483647)
    (hmax' : m ≤ 2147483647) (hcons : s.Consistent n m) (htext : s.IsText F)
    (hfits : s.HeaderFits) (inp : List UInt8) :
    ReadsIff s.BodyFits
      (readBody F (List.range n) (List.range m)
        (Contents.toMd (pre ++ s.skeleton :: post.map SectionContents.skeleton), pre.entryCount)
        pre.length)
      (encodeBody F s ++ inp)
      (Contents.toMd (pre ++ s :: post.map SectionContents.skeleton),
        pre.entryCount + s.entries.length) inp := by
  have henc : encodeBody F s ++ inp = s.name ++ nl :: (hex s.entries.length ++ sp ::
      (hex s.decls.length ++ nl :: (s.decls.flatMap encodeDecl ++
        (s.entries.flatMap (encodeEntry F) ++ nl :: inp)))) := by
    simp [encodeBody, printSectionHeader, printPair]
  have hlt : pre.length < n := by
    rw [← hn, List.length_append, List.length_cons]
    omega
  rw [henc]
  refine (reads_readString htext.1 hfits.1 _).bind_iff ((reads_readNl _).bind_iff
    ((reads_readInt _ (delim_sp _)).bind_iff ((reads_readInt_sp _ (delim_nl _)).bind_iff
      ((reads_readNl _).bind_iff ?_))))
  refine (Reads.lift (by rw [List.getElem?_range hlt, deref_some]) _).bind_iff ?_
  refine (Reads.lift (by rw [Contents.section?_toMd, deref_some]) _).bind_iff ?_
  refine (Reads.lift (puntIf_neg fun h ↦ h rfl) _).bind_iff ?_
  -- first the declarations are read, and then the entries into the section that has them
  rw [rounds_ofNat hcons.length_entries, rounds_ofNat hcons.length_decls]
  refine ReadsIff.bind (ReadsIff.foldlM_range (s := fun done ↦
    (withDecls pre (post.map SectionContents.skeleton) s.name
      (s.entries.map EntryContents.skeleton) done, List.range done.length)) ?_ _) fun _ ↦ ?_
  · intro done d tail hl inp
    have hmem : d ∈ s.decls := by
      rw [hl]
      exact List.mem_append_right _ List.mem_cons_self
    have hnodup := hcons.nodup_decls
    have hcount := hcons.length_decls
    rw [hl, List.length_append, List.length_cons] at hcount
    rw [hl, List.map_append, List.map_cons, List.nodup_middle, List.nodup_cons] at hnodup
    exact readFieldDecl_iff (by simpa using hn) hmax (hcons.decls d hmem)
      (fun h ↦ hnodup.1 (List.mem_append_left _ h)) (by omega) (htext.2.1 d hmem) _ inp
  · refine ReadsIff.bind_reads (ReadsIff.foldlM_range (s := fun done ↦
      (Contents.toMd (pre ++ ⟨s.name, s.decls, done ++
        (s.entries.drop done.length).map EntryContents.skeleton⟩ ::
          post.map SectionContents.skeleton), pre.entryCount + done.length)) ?_ _) fun _ ↦ ?_
    · intro done e tail hl inp
      have hmem : e ∈ s.entries := by
        rw [hl]
        exact List.mem_append_right _ List.mem_cons_self
      have hlt : pre.entryCount + done.length < m := by
        rw [← hm, Contents.entryCount_append, Contents.entryCount_cons, hl, List.length_append,
          List.length_cons]
        omega
      have hread := readEntry_iff pre (post.map SectionContents.skeleton) s done
        (tail.map EntryContents.skeleton) hmax' hcons.length_decls hlt
        (hcons.entries e hmem) (htext.2.2 e hmem) done.length inp
      have hdrop : s.entries.drop done.length = e :: tail := by rw [hl, List.drop_left]
      have hdrop' : s.entries.drop (done.length + 1) = tail := by
        rw [← List.drop_drop, hdrop]
        rfl
      rw [hdrop, List.length_append, List.length_singleton, hdrop', List.append_assoc,
        List.singleton_append]
      exact hread
    · refine (reads_readNl _).bind ?_
      rw [List.drop_length, List.map_nil, List.append_nil]
      exact Reads.pure _ _

/-- **What is written is read back** exactly if it fits. -/
theorem readMd_iff (hcons : c.Consistent) (htext : c.IsText F) :
    ReadsIff c.Fits (readMd F) (encode F c) c.toMd [nl] := by
  obtain ⟨d, ds, hdigits⟩ := exists_hexDigits c.length
  -- the number of sections does not begin another comment
  have hslash : hexDigit d ≠ '/'.toUInt8 := by
    have hall : ∀ d < 16, hexDigit d ≠ '/'.toUInt8 := by decide
    exact hall d (lt_of_mem_hexDigits (hdigits ▸ List.mem_cons_self))
  have henc : encode F c = banner ++ (hex c.length ++ sp :: (hex c.entryCount ++ nl :: nl ::
      (c.flatMap encodeHeader ++ nl :: (c.flatMap (encodeBody F) ++ [nl])))) := by
    simp [encode, printPair]
  have hcomment : Reads readConsumeComments (encode F c) () (hex c.length ++ sp ::
      (hex c.entryCount ++ nl :: nl :: (c.flatMap encodeHeader ++
        nl :: (c.flatMap (encodeBody F) ++ [nl])))) := by
    rw [henc, hex_eq, hdigits, List.map_cons, List.cons_append]
    exact reads_consumeComments hslash _
  refine hcomment.bind_iff ((reads_readInt _ (delim_sp _)).bind_iff
    ((reads_readInt_sp _ (delim_nl _)).bind_iff ((reads_readNl _).bind_iff
      ((reads_readNl _).bind_iff ?_))))
  rw [toInt_ofNat hcons.length_sections, toInt_ofNat hcons.entryCount_le,
    rounds_ofNat hcons.length_sections]
  have hsize : (BitVec.ofNat 32 c.entryCount).toNat = c.entryCount := by
    have := hcons.entryCount_le
    rw [BitVec.toNat_ofNat, Nat.mod_eq_of_lt (by omega)]
  -- `MD_new_md` has a limit of its own on the number of sections
  have hmd : ∀ inp, ReadsIff (c.length ≤ 1000000000) (call (newMd (c.length : ℤ) : Run (Md D))) inp
      (Contents.toMd []) inp := by
    refine fun inp ↦ ⟨fun h ↦ Reads.lift (newMd_eq (by omega)) inp, fun h ↦
      Fails.lift (e := .punt "MD_new_md: unreasonable num_sections (%u)") ?_ inp⟩
    rw [newMd, puntIf_pos (by omega)]
    rfl
  refine (hmd _).bind fun _ ↦ ?_
  refine (Reads.lift (puntIf_neg (by omega)) _).bind_iff ?_
  refine (Reads.lift (puntIf_neg (by omega)) _).bind_iff ?_
  rw [hsize]
  refine ReadsIff.bind (ReadsIff.foldlM_range (s := fun done ↦
    (Contents.toMd (done.map SectionContents.skeleton), List.range done.length,
      List.range (Contents.entryCount done))) ?_ _) fun hheaders ↦ ?_
  · intro done s tail hl inp
    have hmem : s ∈ c := by
      rw [hl]
      exact List.mem_append_right _ List.mem_cons_self
    have hnodup := hcons.nodup_sections
    have hlen := hcons.length_sections
    have hcount : Contents.entryCount done + s.entries.length ≤ c.entryCount := by
      rw [hl, Contents.entryCount_append, Contents.entryCount_cons]
      omega
    rw [hl, List.length_append, List.length_cons] at hlen
    rw [hl, List.map_append, List.map_cons, List.nodup_middle, List.nodup_cons] at hnodup
    exact readHeader_iff (hcons.sections s hmem) (fun h ↦ hnodup.1 (List.mem_append_left _ h))
      (by omega) hcount (htext s hmem) _ inp
  · refine (reads_readNl _).bind_iff ?_
    refine ReadsIff.bind_reads (ReadsIff.foldlM_range (s := fun done ↦
      (Contents.toMd (done ++ (c.drop done.length).map SectionContents.skeleton),
        Contents.entryCount done)) ?_ _) fun _ ↦ ?_
    · intro done s tail hl inp
      have hmem : s ∈ c := by
        rw [hl]
        exact List.mem_append_right _ List.mem_cons_self
      have hdrop : c.drop done.length = s :: tail := by rw [hl, List.drop_left]
      have hdrop' : c.drop (done.length + 1) = tail := by
        rw [← List.drop_drop, hdrop]
        rfl
      have hread := readBody_iff F done tail (n := c.length) (by rw [hl])
        (congrArg Contents.entryCount hl.symm) hcons.length_sections hcons.entryCount_le
        (hcons.sections s hmem) (htext s hmem) (hheaders s hmem) inp
      rw [hdrop, List.length_append, List.length_singleton, hdrop', List.append_assoc,
        List.singleton_append, Contents.entryCount_append, Contents.entryCount_cons,
        Contents.entryCount_nil, Nat.add_zero]
      exact hread
    · rw [List.drop_length, List.map_nil, List.append_nil]
      exact Reads.pure _ _

end Sections

end OpenImpact.Libmd
