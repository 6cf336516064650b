import OpenImpact.Foundation.TokenReader
import OpenImpact.Library.MdWrite

/-!
# Reading machine descriptions

`MD_read_md` and the routines that read its tokens. `int` values are two's complement words. A read
buffer doubles its size while an `int` can hold it, so `maxBufSize` is the most it gets to; the size it
has at a time is left out.
-/

namespace OpenImpact.Libmd

variable {D : Type}

/-- A reader of a file. -/
abbrev Reader := TokenReader UInt8 Halt

/-- A call that reads nothing. -/
abbrev call {α : Type} (x : Run α) : Reader α := StateT.lift x

/-- The last size `MD_resize_buf` gives a buffer: the next one, 2^31, is negative as an `int`. -/
def maxBufSize : ℕ := 2 ^ 30

/-! ### Tokens -/

/-- `getc`, `none` for `EOF`. -/
def getc : Reader (Option UInt8) := fun inp ↦ .ok (inp.head?, inp.tail)

/-- The loop of `MD_read_consume_comments`, from inside of a comment or before a line. -/
def consumeLines : Bool → List UInt8 → List UInt8
  | true, [] => []
  | true, ch :: inp => consumeLines (ch != nl) inp
  | false, a :: b :: inp =>
    if a = '/'.toUInt8 then
      if b = '/'.toUInt8 then consumeLines true inp else b :: inp
    else a :: b :: inp
  | false, [a] => if a = '/'.toUInt8 then [] else [a]
  | false, [] => []

/-- `MD_read_consume_comments`. -/
def readConsumeComments : Reader Unit := fun inp ↦ .ok ((), consumeLines false inp)

/-- A nibble, assuming ascii; as an `unsigned int` a negative one is not in range either. -/
def nibble (ch : UInt8) : Option ℕ :=
  let n : ℤ := if 'a'.toNat ≤ ch.toNat then 10 + ch.toNat - 'a'.toNat else ch.toNat - '0'.toNat
  if 0 ≤ n ∧ n ≤ 15 then some n.toNat else none

/-- The loop of `MD_read_int` over the nibbles after the first. -/
def readNibbles : BitVec 32 → List UInt8 → Run (BitVec 32 × List UInt8)
  | value, [] => .ok (value, [])
  | value, ch :: inp =>
    if ch = sp ∨ ch = nl then .ok (value, ch :: inp)
    else match nibble ch with
      | some n => readNibbles ((value <<< 4) + BitVec.ofNat 32 n) inp
      | none => .error (.punt "MD_read_int: int expected not '%c'")

/-- The nibbles of `MD_read_int`. -/
def readMagnitude : List UInt8 → Run (BitVec 32 × List UInt8)
  | [] => .error (.punt "MD_read_int: unexpected EOF")
  | ch :: inp =>
    match nibble ch with
    | some n => readNibbles (BitVec.ofNat 32 n) inp
    | none => .error (.punt "MD_read_int: int expected not '%c'")

/-- `MD_read_int`. -/
def readInt : Reader (BitVec 32) := fun inp ↦
  match inp.dropWhile (· == sp) with
  | [] => .error (.punt "MD_read_int: unexpected EOF")
  | ch :: inp =>
    if ch = '-'.toUInt8 then do
      let r ← readMagnitude inp
      .ok (-r.1, r.2)
    else readMagnitude (ch :: inp)

/-- `MD_read_double`. -/
def readDouble (F : DoubleFormat D) : Reader D := fun inp ↦
  match inp.dropWhile (· == sp) with
  | [] => .error (.punt "MD_read_double: unexpected EOF")
  | ch :: inp => do
    let buf := ch :: inp.takeWhile fun ch ↦ ch != sp && ch != nl
    puntIf (maxBufSize < buf.length + 2) "MD_resize_buf: out of memory (size %i)"
    match F.strtod (buf.takeWhile (· != 0)) with
    | some value => .ok (value, inp.dropWhile fun ch ↦ ch != sp && ch != nl)
    | none => .error (.punt "MD_read_double: double expected not '%s'!")

/-- `MD_read_string`. -/
def readString : Reader Name := fun inp ↦ do
  let buf := inp.takeWhile (· != nl)
  let inp := inp.dropWhile (· != nl)
  puntIf (maxBufSize < buf.length + 2) "MD_resize_buf: out of memory (size %i)"
  puntIf (inp = [] ∧ buf = []) "MD_read_string: unexpected EOF"
  .ok (buf.takeWhile (· != 0), inp)

/-- `MD_read_block`. -/
def readBlock (blockSize : ℕ) : Reader (List UInt8) := fun inp ↦ do
  puntIf (maxBufSize < blockSize) "MD_resize_buf: out of memory (size %i)"
  puntIf (inp.length < blockSize) "MD_read_block: unexpected EOF"
  .ok (inp.take blockSize, inp.drop blockSize)

/-- `MD_read_nl`. -/
def readNl : Reader Unit
  | [] => .error (.punt "MD_read_nl: unexpected EOF")
  | ch :: inp =>
    if ch = nl then .ok ((), inp) else .error (.punt "MD_read_nl: newline expected not '%c'!")

/-- `MD_read_sp`. -/
def readSp : Reader Unit
  | [] => .error (.punt "MD_read_sp: unexpected EOF")
  | ch :: inp =>
    if ch = sp then .ok ((), inp) else .error (.punt "MD_read_sp: space expected not '%c'!")

/-! ### Reading what was printed -/

open TokenReader

/-- The rest of a file where a number ends. -/
def Delim (inp : List UInt8) : Prop := ∃ ch rest, inp = ch :: rest ∧ (ch = sp ∨ ch = nl)

/-- A blank ends a number. -/
@[simp] theorem delim_sp (inp : List UInt8) : Delim (sp :: inp) := ⟨sp, inp, rfl, Or.inl rfl⟩

/-- So does the end of a line. -/
@[simp] theorem delim_nl (inp : List UInt8) : Delim (nl :: inp) := ⟨nl, inp, rfl, Or.inr rfl⟩

/-- A hexadecimal digit is read back. -/
theorem nibble_hexDigit : ∀ d < 16, nibble (hexDigit d) = some d := by decide

/-- A digit is neither a blank nor a sign. -/
theorem hexDigit_ne : ∀ d < 16, hexDigit d ≠ sp ∧ hexDigit d ≠ nl ∧ hexDigit d ≠ '-'.toUInt8 := by
  decide

/-- The digits of a number from the first on, at least one. -/
def hexDigits (n : ℕ) : List ℕ := if n = 0 then [0] else (Nat.digits 16 n).reverse

/-- `%x` prints the digits of a number from the first on. -/
theorem hex_eq (n : ℕ) : hex n = (hexDigits n).map hexDigit := by
  rw [hex, hexDigits]
  split_ifs with h
  · rfl
  · rfl

theorem lt_of_mem_hexDigits {n d : ℕ} (h : d ∈ hexDigits n) : d < 16 := by
  rw [hexDigits] at h
  split_ifs at h with hn
  · rw [List.mem_singleton.1 h]
    decide
  · exact Nat.digits_lt_base (by decide) (List.mem_reverse.1 h)

/-- The digits make the number again. -/
theorem foldl_hexDigits (n : ℕ) : (hexDigits n).foldl (fun v d ↦ 16 * v + d) 0 = n := by
  rw [hexDigits]
  split_ifs with h
  · exact h.symm
  · rw [List.foldl_reverse]
    conv_rhs => rw [← Nat.ofDigits_digits 16 n, Nat.ofDigits_eq_foldr]
    simp only [Nat.cast_id, Nat.add_comm]

/-- There is at least one digit. -/
theorem exists_hexDigits (n : ℕ) : ∃ d ds, hexDigits n = d :: ds := by
  refine List.exists_cons_of_ne_nil ?_
  rw [hexDigits]
  split_ifs with h
  · exact List.cons_ne_nil _ _
  · rw [Ne, List.reverse_eq_nil_iff, Nat.digits_eq_nil_iff_eq_zero]
    exact h

/-- Digits are read up to the character that ends the number. -/
theorem readNibbles_append {ds : List ℕ} (hds : ∀ d ∈ ds, d < 16) {inp : List UInt8}
    (hinp : Delim inp) (v : ℕ) :
    readNibbles (BitVec.ofNat 32 v) (ds.map hexDigit ++ inp) =
      .ok (BitVec.ofNat 32 (ds.foldl (fun v d ↦ 16 * v + d) v), inp) := by
  induction ds generalizing v with
  | nil =>
    obtain ⟨ch, rest, rfl, hch⟩ := hinp
    exact if_pos hch
  | cons d ds ih =>
    have hd := hds d List.mem_cons_self
    have hshift : BitVec.ofNat 32 v <<< 4 + BitVec.ofNat 32 d = BitVec.ofNat 32 (16 * v + d) := by
      apply BitVec.eq_of_toNat_eq
      simp [Nat.shiftLeft_eq]
      omega
    obtain ⟨hsp, hnl, -⟩ := hexDigit_ne d hd
    rw [List.map_cons, List.cons_append, readNibbles, if_neg (by simp [hsp, hnl]),
      nibble_hexDigit d hd]
    simp only [hshift]
    exact ih (fun d hd ↦ hds d (List.mem_cons_of_mem _ hd)) _

/-- A printed magnitude is read back, modulo `2 ^ 32`. -/
theorem readMagnitude_hex (n : ℕ) {inp : List UInt8} (hinp : Delim inp) :
    readMagnitude (hex n ++ inp) = .ok (BitVec.ofNat 32 n, inp) := by
  obtain ⟨d, ds, hn⟩ := exists_hexDigits n
  have hlt : ∀ k ∈ d :: ds, k < 16 := fun k hk ↦ lt_of_mem_hexDigits (n := n) (hn ▸ hk)
  have hval := foldl_hexDigits n
  rw [hn, List.foldl_cons, Nat.mul_zero, Nat.zero_add] at hval
  rw [hex_eq, hn, List.map_cons, List.cons_append, readMagnitude,
    nibble_hexDigit d (hlt d List.mem_cons_self)]
  simp only
  rw [readNibbles_append (fun k hk ↦ hlt k (List.mem_cons_of_mem _ hk)) hinp, hval]

/-- So is a printed integer. -/
theorem reads_readInt (n : ℕ) {inp : List UInt8} (hinp : Delim inp) :
    Reads readInt (hex n ++ inp) (BitVec.ofNat 32 n) inp := by
  obtain ⟨d, ds, hn⟩ := exists_hexDigits n
  obtain ⟨hsp, -, hneg⟩ := hexDigit_ne d (lt_of_mem_hexDigits (hn ▸ List.mem_cons_self))
  have hread := readMagnitude_hex n hinp
  rw [hex_eq, hn, List.map_cons, List.cons_append] at hread ⊢
  show readInt _ = _
  rw [readInt, List.dropWhile_cons_of_neg (by simpa using hsp)]
  simp only [if_neg hneg]
  exact hread

/-- Blanks in front of an integer are passed. -/
theorem readInt_sp (inp : List UInt8) : readInt (sp :: inp) = readInt inp := by
  rw [readInt, readInt, List.dropWhile_cons_of_pos (by simp)]

theorem reads_readInt_sp (n : ℕ) {inp : List UInt8} (hinp : Delim inp) :
    Reads readInt (sp :: (hex n ++ inp)) (BitVec.ofNat 32 n) inp := by
  show readInt _ = _
  rw [readInt_sp]
  exact reads_readInt n hinp

/-- And an integer with a sign. -/
theorem reads_readInt_neg (n : ℕ) {inp : List UInt8} (hinp : Delim inp) :
    Reads readInt ('-'.toUInt8 :: (hex n ++ inp)) (-BitVec.ofNat 32 n) inp := by
  show readInt _ = _
  rw [readInt, List.dropWhile_cons_of_neg (by decide)]
  simp only [if_pos, readMagnitude_hex n hinp]
  rfl

theorem reads_getc (ch : UInt8) (inp : List UInt8) : Reads getc (ch :: inp) (some ch) inp := rfl

theorem reads_readNl (inp : List UInt8) : Reads readNl (nl :: inp) () inp := rfl

theorem reads_readSp (inp : List UInt8) : Reads readSp (sp :: inp) () inp := rfl

/-- A string that is a line of its own: without newline and `NUL`. -/
def IsLine (s : Name) : Prop := nl ∉ s ∧ 0 ∉ s

instance (s : Name) : Decidable (IsLine s) := inferInstanceAs (Decidable (nl ∉ s ∧ 0 ∉ s))

/-- What is taken up to a character that does not belong to it. -/
theorem takeWhile_append_cons {p : UInt8 → Bool} {s : List UInt8} (hs : ∀ c ∈ s, p c = true)
    {ch : UInt8} (hch : p ch = false) (inp : List UInt8) :
    (s ++ ch :: inp).takeWhile p = s := by
  rw [List.takeWhile_append_of_pos hs, List.takeWhile_cons_of_neg (by simp [hch]), List.append_nil]

/-- What is left from this character on. -/
theorem dropWhile_append_cons {p : UInt8 → Bool} {s : List UInt8} (hs : ∀ c ∈ s, p c = true)
    {ch : UInt8} (hch : p ch = false) (inp : List UInt8) :
    (s ++ ch :: inp).dropWhile p = ch :: inp := by
  rw [List.dropWhile_append_of_pos hs, List.dropWhile_cons_of_neg (by simp [hch])]

theorem takeWhile_ne_zero {s : List UInt8} (h : 0 ∉ s) : s.takeWhile (· != 0) = s := by
  refine List.takeWhile_eq_self_iff.2 fun c hc ↦ ?_
  simpa using fun he : c = 0 ↦ h (he ▸ hc)

/-- A string ends with its line, if there is memory for it. -/
theorem readString_line {s : Name} (hs : nl ∉ s) (inp : List UInt8) :
    readString (s ++ nl :: inp) = (do
      puntIf (maxBufSize < s.length + 2) "MD_resize_buf: out of memory (size %i)"
      .ok (s.takeWhile (· != 0), nl :: inp)) := by
  have hline : ∀ c ∈ s, (c != nl) = true := fun c hc ↦ by
    simpa using fun he : c = nl ↦ hs (he ▸ hc)
  have hstop : (nl != nl) = false := by decide
  rw [readString]
  simp only [takeWhile_append_cons hline hstop, dropWhile_append_cons hline hstop,
    List.cons_ne_nil, false_and]
  rfl

/-- A line is read back if the buffer can hold it. -/
theorem reads_readString {s : Name} (hs : IsLine s) (hlen : s.length + 2 ≤ maxBufSize)
    (inp : List UInt8) : Reads readString (s ++ nl :: inp) s (nl :: inp) := by
  show readString _ = _
  rw [readString_line hs.1, puntIf_neg (Nat.not_lt.2 hlen), takeWhile_ne_zero hs.2]
  rfl

/-- A longer one is punted on. -/
theorem fails_readString {s : Name} (hs : IsLine s) (hlen : maxBufSize < s.length + 2)
    (inp : List UInt8) : Fails readString (s ++ nl :: inp) := by
  have h := readString_line hs.1 inp
  rw [puntIf_pos hlen] at h
  exact ⟨_, h⟩

/-- A block is read back if the buffer can hold it. -/
theorem reads_readBlock {b : List UInt8} (hlen : b.length ≤ maxBufSize) (inp : List UInt8) :
    Reads (readBlock b.length) (b ++ inp) b inp := by
  show readBlock _ _ = _
  rw [readBlock, puntIf_neg (Nat.not_lt.2 hlen), puntIf_neg (by rw [List.length_append]; omega),
    List.take_left, List.drop_left]
  rfl

/-- A longer one is punted on. -/
theorem fails_readBlock {b : List UInt8} (hlen : maxBufSize < b.length) (inp : List UInt8) :
    Fails (readBlock b.length) inp := by
  have h : readBlock b.length inp = .error (.punt "MD_resize_buf: out of memory (size %i)") := by
    rw [readBlock, puntIf_pos hlen]
    rfl
  exact ⟨_, h⟩

/-- A printed `double` is read back if the format reads what it prints. -/
theorem reads_readDouble (F : DoubleFormat D) {d : D} (hd : F.strtod (F.print d) = some d)
    (inp : List UInt8) : Reads (readDouble F) (F.print d ++ nl :: inp) d (nl :: inp) := by
  obtain ⟨ch, s, hs⟩ := List.exists_cons_of_ne_nil (F.print_ne_nil d)
  have hmem : ∀ c ∈ ch :: s, (c != sp) = true ∧ (c != nl) = true := fun c hc ↦ by
    have hsp := F.sp_notMem_print d
    have hnl := F.nl_notMem_print d
    rw [hs] at hsp hnl
    exact ⟨bne_iff_ne.2 fun he ↦ hsp (he ▸ hc), bne_iff_ne.2 fun he ↦ hnl (he ▸ hc)⟩
  have htail : ∀ c ∈ s, (c != sp && c != nl) = true := fun c hc ↦ by
    rw [(hmem c (List.mem_cons_of_mem _ hc)).1, (hmem c (List.mem_cons_of_mem _ hc)).2]
    rfl
  have hlen := F.length_print d
  have hzero := takeWhile_ne_zero (F.zero_notMem_print d)
  rw [hs] at hlen hzero hd
  show readDouble F _ = _
  rw [hs, List.cons_append, readDouble,
    List.dropWhile_cons_of_neg (by simpa using (hmem ch List.mem_cons_self).1)]
  simp only
  rw [takeWhile_append_cons htail (by decide), dropWhile_append_cons htail (by decide),
    puntIf_neg (by rw [maxBufSize]; omega), hzero, hd]
  rfl

/-- The comments that the writer makes are skipped. -/
theorem consumeLines_printComment {s : String} (hs : nl ∉ ascii s) (inp : List UInt8) :
    consumeLines false (printComment s ++ inp) = consumeLines false inp := by
  have hline : ∀ l : List UInt8, nl ∉ l →
      consumeLines true (l ++ nl :: inp) = consumeLines false inp := by
    intro l hl
    induction l with
    | nil => rfl
    | cons ch l ih =>
      rw [List.mem_cons, not_or] at hl
      rw [List.cons_append, consumeLines, bne_iff_ne.2 (Ne.symm hl.1)]
      exact ih hl.2
  have htext : printComment s ++ inp =
      '/'.toUInt8 :: '/'.toUInt8 :: (sp :: ascii s ++ nl :: inp) := by
    rw [printComment, List.append_assoc, List.append_assoc]
    rfl
  rw [htext, consumeLines, if_pos rfl, if_pos rfl]
  exact hline _ (by rw [List.mem_cons, not_or]; exact ⟨by decide, hs⟩)

/-- The banner is skipped as a whole. -/
theorem reads_consumeComments {ch : UInt8} (h : ch ≠ '/'.toUInt8) (inp : List UInt8) :
    Reads readConsumeComments (banner ++ ch :: inp) () (ch :: inp) := by
  have hstop : consumeLines false (ch :: inp) = ch :: inp := by
    cases inp with
    | nil => exact if_neg h
    | cons b inp => exact if_neg h
  have hbanner : consumeLines false (banner ++ ch :: inp) = ch :: inp := by
    rw [banner, List.append_assoc, List.append_assoc, consumeLines_printComment (by decide),
      consumeLines_printComment (by decide), consumeLines_printComment (by decide), hstop]
  show Except.ok ((), _) = _
  rw [hbanner]

/-! ### MD_read_md -/

/-- The number of rounds of a loop up to an `int`. -/
def rounds (n : BitVec 32) : List ℕ := List.range n.toInt.toNat

/-- The element of an array at an `int` index, of those that were written. -/
def at? (l : List ℕ) (i : BitVec 32) : Option ℕ := if i.toInt < 0 then none else l[i.toInt.toNat]?

/-- The type a field type marker stands for. -/
def fieldTypeOf (typeMarker : Option UInt8) : Run FieldType :=
  if typeMarker = some 'R'.toUInt8 then .ok .required
  else if typeMarker = some 'O'.toUInt8 then .ok .optional
  else .error (.punt "MD_read_md: Unknown field decl type '%c'")

/-- What a kleene marker stands for. -/
def kleeneStarredOf (kleeneMarker : Option UInt8) : Run Bool :=
  if kleeneMarker = some '*'.toUInt8 then .ok true
  else if kleeneMarker = some '-'.toUInt8 then .ok false
  else .error (.punt "MD_read_md: Unknown kleene marker '%c'")

/-- Read the name of an entry in the first loop over the sections. -/
def readEntryName (entryArraySize sec : ℕ) (st : Md D × List ℕ) (_ : ℕ) :
    Reader (Md D × List ℕ) := do
  let name ← readString
  readNl
  let r ← call (st.1.newEntry sec name)
  call (if st.2.length < entryArraySize then .ok () else .error .fault)
  return (r.1, st.2 ++ [r.2])

/-- Read the header of a section in the first loop over the sections. -/
def readHeader (entryArraySize : ℕ) (st : Md D × List ℕ × List ℕ) (_ : ℕ) :
    Reader (Md D × List ℕ × List ℕ) := do
  let name ← readString
  readNl
  let entryCount ← readInt
  let fieldDeclCount ← readInt
  readNl
  let r ← call (st.1.newSection name entryCount.toInt fieldDeclCount.toInt)
  let entries ← (rounds entryCount).foldlM (readEntryName entryArraySize r.2) (r.1, st.2.2)
  readNl
  return (entries.1, st.2.1 ++ [r.2], entries.2)

/-- Read a target of a link requirement. -/
def readTarget (sectionArray : List ℕ) (targets : List ℕ) (_ : ℕ) : Reader (List ℕ) := do
  let targetIndex ← readInt
  let target ← call (deref (at? sectionArray targetIndex))
  return targets ++ [target]

/-- Read the rest of a requirement after its marker and define it. -/
def readReqRest (sectionArray : List ℕ) (sec decl : ℕ) (md : Md D) (requireIndex : ℕ)
    (requireMarker : Option UInt8) : Reader (Md D) :=
  if requireMarker = some 'I'.toUInt8 then call (md.requireInt sec decl requireIndex)
  else if requireMarker = some 'D'.toUInt8 then call (md.requireDouble sec decl requireIndex)
  else if requireMarker = some 'S'.toUInt8 then call (md.requireString sec decl requireIndex)
  else if requireMarker = some 'B'.toUInt8 then call (md.requireBlock sec decl requireIndex)
  else if requireMarker = some 'L'.toUInt8 then do
    let targetCount ← readInt
    call (puntIf (targetCount.toInt < 0) "MD_read_md: Out of memory (size %i)")
    let targets ← (rounds targetCount).foldlM (readTarget sectionArray) []
    call (md.requireMultiTargetLink sec decl requireIndex targets)
  else call (.error (.punt "MD_read_md: Unknown requirement type '%c'"))

/-- Read a requirement. -/
def readReq (sectionArray : List ℕ) (sec decl : ℕ) (md : Md D) (requireIndex : ℕ) :
    Reader (Md D) := do
  let requireMarker ← getc
  let md ← readReqRest sectionArray sec decl md requireIndex requireMarker
  readNl
  return md

/-- Read a field declaration. -/
def readFieldDecl (sectionArray : List ℕ) (sec : ℕ) (st : Md D × List ℕ) (_ : ℕ) :
    Reader (Md D × List ℕ) := do
  let name ← readString
  readNl
  let typeMarker ← getc
  let type ← call (fieldTypeOf typeMarker)
  let requireCount ← readInt
  readSp
  let kleeneMarker ← getc
  let kleeneStarred ← call (kleeneStarredOf kleeneMarker)
  readNl
  let r ← call (st.1.newFieldDecl sec name type)
  let md ← (rounds requireCount).foldlM (readReq sectionArray sec r.2) r.1
  readNl
  let md ← call (if kleeneStarred then md.kleeneStarRequirement sec r.2 (requireCount.toInt - 1)
    else .ok md)
  return (md, st.2 ++ [r.2])

/-- Read the rest of an element after its marker and set it. -/
def readElementRest (F : DoubleFormat D) (entryArray : List ℕ) (entry decl : ℕ) (md : Md D)
    (elementIndex : ℕ) (typeMarker : Option UInt8) : Reader (Md D) :=
  if typeMarker = some 'I'.toUInt8 then do
    let intValue ← readInt
    call (md.setInt entry decl elementIndex intValue)
  else if typeMarker = some 'D'.toUInt8 then do
    let doubleValue ← readDouble F
    call (md.setDouble entry decl elementIndex doubleValue)
  else if typeMarker = some 'S'.toUInt8 then do
    let value ← readString
    call (md.setString entry decl elementIndex value)
  else if typeMarker = some 'B'.toUInt8 then do
    let blockSize ← readInt
    readSp
    let value ← readBlock blockSize.toNat
    call (md.setBlock entry decl elementIndex value)
  else if typeMarker = some 'L'.toUInt8 then do
    let linkIndex ← readInt
    let link ← call (deref (at? entryArray linkIndex))
    call (md.setLink entry decl elementIndex link)
  else call (.error (.punt "MD_read_md: Uknown element type '%c'."))

/-- Read an element. -/
def readElement (F : DoubleFormat D) (entryArray : List ℕ) (entry decl : ℕ) (md : Md D)
    (elementIndex : ℕ) : Reader (Md D) := do
  let typeMarker ← getc
  let md ← readElementRest F entryArray entry decl md elementIndex typeMarker
  readNl
  return md

/-- Read a field of an entry. -/
def readField (F : DoubleFormat D) (entryArray fieldDeclArray : List ℕ) (entry : ℕ) (md : Md D)
    (_ : ℕ) : Reader (Md D) := do
  let fieldIndex ← readInt
  let elementCount ← readInt
  readNl
  let decl ← call (deref (at? fieldDeclArray fieldIndex))
  let md ← call (md.newField entry decl elementCount.toInt)
  let md ← (rounds elementCount).foldlM (readElement F entryArray entry decl) md
  readNl
  return md

/-- Read the fields of an entry. -/
def readEntry (F : DoubleFormat D) (entryArray fieldDeclArray : List ℕ) (st : Md D × ℕ) (_ : ℕ) :
    Reader (Md D × ℕ) := do
  let entry ← call (deref entryArray[st.2]?)
  let fieldCount ← readInt
  readNl
  readNl
  let md ← (rounds fieldCount).foldlM (readField F entryArray fieldDeclArray entry) st.1
  return (md, st.2 + 1)

/-- Read the field declarations and the entries of a section in the second loop over the sections. -/
def readBody (F : DoubleFormat D) (sectionArray entryArray : List ℕ) (st : Md D × ℕ)
    (sectionIndex : ℕ) : Reader (Md D × ℕ) := do
  let name ← readString
  readNl
  let entryCount ← readInt
  let fieldDeclCount ← readInt
  readNl
  let sec ← call (deref sectionArray[sectionIndex]?)
  let s ← call (deref (st.1.section? sec))
  call (puntIf (name ≠ s.name) "Section '%s' expected, not '%s'!")
  let decls ← (rounds fieldDeclCount).foldlM (readFieldDecl sectionArray sec) (st.1, [])
  let r ← (rounds entryCount).foldlM (readEntry F entryArray decls.2) (decls.1, st.2)
  readNl
  return r

/-- `MD_read_md`. -/
def readMd (F : DoubleFormat D) : Reader (Md D) := do
  readConsumeComments
  let sectionArraySize ← readInt
  let entryArraySize ← readInt
  readNl
  readNl
  let md ← call (newMd sectionArraySize.toInt)
  call (puntIf (sectionArraySize.toInt < 0) "MD_read_md: out of memory (size %i).")
  call (puntIf (entryArraySize.toInt < 0) "MD_read_md: out of memory (size %i).")
  let st ← (rounds sectionArraySize).foldlM (readHeader entryArraySize.toNat) (md, [], [])
  readNl
  let r ← (rounds sectionArraySize).foldlM (readBody F st.2.1 st.2.2) (st.1, 0)
  return r.1

end OpenImpact.Libmd
