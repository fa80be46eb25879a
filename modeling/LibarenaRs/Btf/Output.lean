import LibarenaRs.Btf.Sections

/-!
# What the script writes

The new section is again a well-formed one, the rewritten file again an object
that holds it: the old bytes stay, but for the two header fields that place the
section.
-/

namespace LibarenaRs.Btf

open LibarenaRs.Memory LibarenaRs.Regex

theorem encode_new {kind : Kind} {name new : Text} (needed : newName kind name = some new) :
    ∀ c ∈ new, plainChar c = true := by
  have tested : kind ≠ .int → new = sanitize name := by
    intro notInt
    rw [sanitize_eq]
    cases kind <;> simp_all [newName, underscored]
  by_cases isInt : kind = .int
  · subst isInt
    exact plain_of_rename needed
  · rw [tested isInt]
    exact plain_of_sanitize name

theorem Record.newName?_eq_some {strings : Bytes} {record : Record} {new : Text}
    (needed : record.newName? strings = some new) :
    record.nameOff ≠ 0 ∧ ∃ name, decode (record.name strings) = .ok name ∧
      newName record.kind name = some new := by
  unfold Record.newName? at needed
  by_cases zero : record.nameOff = 0
  · rw [if_pos zero] at needed
    cases needed
  · rw [if_neg zero] at needed
    cases decoded : decode (record.name strings) with
    | error error => rw [decoded] at needed; cases needed
    | ok name =>
        rw [decoded] at needed
        exact ⟨zero, name, rfl, needed⟩

theorem Record.inNew {strings : Bytes} {record : Record} {new : Text}
    (needed : record.newName? strings = some new) : 0 ∉ encode new := by
  obtain ⟨-, name, -, needs⟩ := Record.newName?_eq_some needed
  exact encode_plain (encode_new needs)

namespace Blob

theorem mem_newNames {blob : Blob} {name : Text} :
    name ∈ blob.newNames ↔ ∃ record ∈ blob.records, record.newName? blob.strings = some name := by
  rw [newNames, mem_insertKeys]
  simp [wanted]

/-- The offset of a stored name. -/
def newOff (blob : Blob) (name : Text) : Nat :=
  place stored blob.strings.length blob.newNames name

/-- The table with the new names still has room. -/
def Fits (blob : Blob) : Prop := blob.strings.length + blob.appendix.length < 2 ^ 32

theorem hasString_newOff {blob : Blob} {name : Text} (asked : name ∈ blob.newNames) :
    HasString (blob.strings ++ blob.appendix) (blob.newOff name) (encode name) := by
  obtain ⟨front, back, split, start⟩ :=
    place_split stored asked blob.strings.length
  obtain ⟨record, -, needed⟩ := mem_newNames.mp asked
  refine HasString.of_split back (Record.inNew needed) ?_
  rw [newOff, start, appendix, split, ← List.drop_drop, List.drop_left' rfl,
    List.append_assoc, List.drop_left' rfl, stored]
  simp

theorem newOff_lt {blob : Blob} (fits : blob.Fits) {name : Text} (asked : name ∈ blob.newNames) :
    blob.newOff name < 2 ^ 32 :=
  Nat.lt_trans (place_lt stored asked _ (stored_ne_nil name)) fits

theorem newOff_ge {blob : Blob} {name : Text} (asked : name ∈ blob.newNames) :
    blob.strings.length ≤ blob.newOff name := by
  obtain ⟨front, -, -, start⟩ := place_split stored asked blob.strings.length
  rw [newOff, start]
  omega

theorem renamed_nameOff {blob : Blob} (fits : blob.Fits) {record : Record}
    (membership : record ∈ blob.records) {name : Text}
    (needed : record.newName? blob.strings = some name) :
    (record.renamed blob.strings blob.newNames).nameOff.toNat = blob.newOff name := by
  have asked : name ∈ blob.newNames := mem_newNames.mpr ⟨record, membership, needed⟩
  simp only [Record.renamed, needed]
  exact UInt32.toNat_ofNat_of_lt' (newOff_lt fits asked)

theorem renamed_eq_self {strings : Bytes} {names : List Text} {record : Record}
    (kept : record.newName? strings = none) : record.renamed strings names = record := by
  simp [Record.renamed, kept]

theorem length_typesBytes_renamed (strings : Bytes) (names : List Text) (records : List Record) :
    (typesBytes (records.map (Record.renamed strings names))).length =
      (typesBytes records).length := by
  induction records with
  | nil => rfl
  | cons record records inductionHypothesis =>
      simp only [List.map_cons, typesBytes, List.flatMap_cons, List.length_append,
        Record.length_bytes_renamed]
      simpa [typesBytes] using inductionHypothesis

/-- The section with the new names: only name offsets and the strings differ. -/
def renamed (blob : Blob) (fits : blob.Fits) : Blob where
  version := blob.version
  flags := blob.flags
  hdrLen := blob.hdrLen
  typeOff := blob.typeOff
  strOff := blob.strOff
  beforeTypes := blob.beforeTypes
  records := blob.records.map (Record.renamed blob.strings blob.newNames)
  beforeStrings := blob.beforeStrings
  strings := blob.strings ++ blob.appendix
  typesPlace := blob.typesPlace
  typesFit := by
    rw [length_typesBytes_renamed]
    exact blob.typesFit
  stringsPlace := by
    rw [length_typesBytes_renamed]
    exact blob.stringsPlace
  stringsFit := by
    rw [List.length_append]
    exact fits
  named := by
    intro record membership nonzero
    obtain ⟨original, inOriginal, rfl⟩ := List.mem_map.mp membership
    cases needed : original.newName? blob.strings with
    | none =>
        rw [renamed_eq_self needed] at nonzero ⊢
        obtain ⟨rest, split⟩ := (hasString_of_mem (blob.named original inOriginal nonzero)).append
          blob.appendix |>.split
        rw [split]
        simp
    | some name =>
        rw [renamed_nameOff fits inOriginal needed]
        obtain ⟨rest, split⟩ :=
          (hasString_newOff (mem_newNames.mpr ⟨original, inOriginal, needed⟩)).split
        rw [split]
        simp

end Blob

namespace Object

/-- The header of the `.BTF` section. -/
def header (object : Object) : Shdr := sectionHeader object.buf object.index

def align (object : Object) : Nat := max object.header.sh_addralign 1

def pad (object : Object) : Nat :=
  (object.align - object.buf.length % object.align) % object.align

/-- Where the grown section is put: behind the file, aligned. -/
def newOffset (object : Object) : Nat := object.buf.length + object.pad

theorem align_dvd_newOffset (object : Object) : object.align ∣ object.newOffset := by
  have positive : 0 < object.align := Nat.lt_of_lt_of_le Nat.one_pos (Nat.le_max_right _ _)
  have split := Nat.div_add_mod object.buf.length object.align
  have small := Nat.mod_lt object.buf.length positive
  unfold newOffset pad
  by_cases aligned : object.buf.length % object.align = 0
  · rw [aligned, Nat.sub_zero, Nat.mod_self, Nat.add_zero]
    exact Nat.dvd_of_mod_eq_zero aligned
  · rw [Nat.mod_eq_of_lt (by omega)]
    refine ⟨object.buf.length / object.align + 1, ?_⟩
    rw [Nat.mul_add, Nat.mul_one]
    omega

section Patch

variable (object : Object) (payload : Bytes)

/-- The file with the new section behind it. -/
def extended : Bytes := object.buf ++ List.replicate object.pad 0 ++ payload

/-- The file that is written. -/
def output : Bytes :=
  patch (patch (object.extended payload) (object.header.base + 24) (leBytes 8 object.newOffset))
    (object.header.base + 32) (leBytes 8 payload.length)

theorem base_inside : object.header.base + 64 ≤ object.buf.length :=
  object.elf.headerInside object.inTable

theorem length_extended :
    (object.extended payload).length = object.newOffset + payload.length := by
  simp only [extended, List.length_append, List.length_replicate, newOffset]

theorem first_inside : object.header.base + 24 + (leBytes 8 object.newOffset).length ≤
    (object.extended payload).length := by
  have inside := object.base_inside
  rw [length_extended, length_leBytes, newOffset]
  omega

theorem second_inside : object.header.base + 32 + (leBytes 8 payload.length).length ≤
    (patch (object.extended payload) (object.header.base + 24)
      (leBytes 8 object.newOffset)).length := by
  have inside := object.base_inside
  rw [length_patch (object.first_inside payload), length_extended, length_leBytes, newOffset]
  omega

theorem length_output : (object.output payload).length = object.newOffset + payload.length := by
  rw [output, length_patch (object.second_inside payload),
    length_patch (object.first_inside payload), length_extended]

/-- Every old byte but the sixteen of the two header fields is still there. -/
theorem getElem?_output {i : Nat} (old : i < object.buf.length)
    (outside : i < object.header.base + 24 ∨ object.header.base + 40 ≤ i) :
    (object.output payload)[i]? = object.buf[i]? := by
  rw [output, getElem?_patch_of_outside (object.second_inside payload)
      (by rw [length_leBytes]; omega),
    getElem?_patch_of_outside (object.first_inside payload) (by rw [length_leBytes]; omega),
    extended, List.append_assoc, List.getElem?_append_left old]

theorem slice_output {start length : Nat} (inside : start + length ≤ object.buf.length)
    (apart : start + length ≤ object.header.base + 24 ∨ object.header.base + 40 ≤ start) :
    slice (object.output payload) start length = slice object.buf start length := by
  apply List.ext_getElem?
  intro i
  rw [getElem?_slice, getElem?_slice]
  by_cases within : i < length
  · rw [if_pos within, if_pos within]
    exact object.getElem?_output payload (by omega) (by omega)
  · rw [if_neg within, if_neg within]

theorem field_output {width offset : Nat} (inside : offset + width ≤ object.buf.length)
    (apart : offset + width ≤ object.header.base + 24 ∨ object.header.base + 40 ≤ offset) :
    field width (object.output payload) offset = field width object.buf offset := by
  rw [field, field, object.slice_output payload inside apart]

theorem newOffset_output (small : object.newOffset < 2 ^ 64) :
    field 8 (object.output payload) (object.header.base + 24) = object.newOffset := by
  have kept : slice (object.output payload) (object.header.base + 24) 8 =
      leBytes 8 object.newOffset := by
    rw [output, slice_patch_of_apart (object.second_inside payload) (by left; omega)]
    have written := slice_patch (object.first_inside payload)
    rw [length_leBytes] at written
    exact written
  rw [field, kept, leNat_leBytes small]

theorem newSize_output (small : payload.length < 2 ^ 64) :
    field 8 (object.output payload) (object.header.base + 32) = payload.length := by
  have written := slice_patch (object.second_inside payload)
  rw [length_leBytes] at written
  rw [field, output, written, leNat_leBytes small]

theorem payload_output :
    slice (object.output payload) object.newOffset payload.length = payload := by
  have inside := object.base_inside
  have behind : object.buf.length ≤ object.newOffset := Nat.le_add_right _ _
  rw [output, slice_patch_of_apart (object.second_inside payload)
      (by rw [length_leBytes]; omega),
    slice_patch_of_apart (object.first_inside payload) (by rw [length_leBytes]; omega), extended]
  have starts : (object.buf ++ List.replicate object.pad 0).length = object.newOffset := by
    simp [newOffset]
  have part := slice_part _ payload [] starts rfl
  rw [List.append_nil] at part
  exact part

theorem base_eq : object.header.base = shoff object.buf + object.index * 64 := rfl

theorem shoff_output : shoff (object.output payload) = shoff object.buf := by
  have inside := object.base_inside
  have base := object.base_eq
  have start := object.elf.headerFirst
  exact object.field_output payload (by omega) (by omega)

theorem shnum_output : shnum (object.output payload) = shnum object.buf := by
  have inside := object.base_inside
  have base := object.base_eq
  have start := object.elf.headerFirst
  exact object.field_output payload (by omega) (by omega)

theorem shstrndx_output : shstrndx (object.output payload) = shstrndx object.buf := by
  have inside := object.base_inside
  have base := object.base_eq
  have start := object.elf.headerFirst
  exact object.field_output payload (by omega) (by omega)

/-- The names and alignments of all headers are as before. -/
theorem sectionHeader_output {i : Nat} (inTable : i < shnum object.buf) :
    (sectionHeader (object.output payload) i).sh_name = (sectionHeader object.buf i).sh_name ∧
      (sectionHeader (object.output payload) i).sh_addralign =
        (sectionHeader object.buf i).sh_addralign := by
  have inside := object.elf.headerInside inTable
  have base := object.base_eq
  simp only [sectionHeader, object.shoff_output]
  constructor
  · apply object.field_output payload (by omega)
    rcases Nat.lt_trichotomy i object.index with before | same | behind <;> omega
  · apply object.field_output payload (by omega)
    rcases Nat.lt_trichotomy i object.index with before | same | behind <;> omega

/-- The places and sizes of the other sections are as before. -/
theorem sectionHeader_output_of_ne {i : Nat} (inTable : i < shnum object.buf)
    (other : i ≠ object.index) :
    sectionHeader (object.output payload) i = sectionHeader object.buf i := by
  have inside := object.elf.headerInside inTable
  have base := object.base_eq
  have kept : ∀ width offset, offset + width ≤ 64 →
      field width (object.output payload) (shoff object.buf + i * 64 + offset) =
        field width object.buf (shoff object.buf + i * 64 + offset) := by
    intro width offset small
    apply object.field_output payload (by omega)
    rcases Nat.lt_or_gt_of_ne other with before | behind <;> omega
  simp only [sectionHeader, object.shoff_output]
  rw [← Nat.add_zero (shoff object.buf + i * 64), kept 4 0 (by omega), Nat.add_zero,
    kept 8 24 (by omega), kept 8 32 (by omega), kept 8 48 (by omega)]

/-- The `.BTF` section is not the one of the section names. -/
theorem index_ne_shstrndx : shstrndx object.buf ≠ object.index := by
  intro same
  have size : 24 ≤ object.header.sh_size := by
    have lengths := congrArg List.length object.payload
    rw [length_slice object.inside] at lengths
    change object.header.sh_size = _ at lengths
    rw [lengths]
    simp only [Blob.bytes, Blob.header, List.length_append, length_leBytes, List.length_cons,
      List.length_nil]
    omega
  have first : slice object.buf object.header.sh_offset 1 = [0x9F] := by
    have whole : slice (slice object.buf object.header.sh_offset object.header.sh_size) 0 1 =
        slice object.blob.bytes 0 1 := congrArg (fun bytes => slice bytes 0 1) object.payload
    rw [slice_slice (by omega)] at whole
    exact whole
  have nul := object.elf.firstName.2
  rw [nameTable, same] at nul
  rw [show sectionHeader object.buf object.index = object.header from rfl, first] at nul
  cases nul

theorem nameTable_output : nameTable (object.output payload) = nameTable object.buf := by
  rw [nameTable, object.shstrndx_output,
    object.sectionHeader_output_of_ne payload object.elf.strndx object.index_ne_shstrndx]
  rfl

/-- What lies in the section names is as before. -/
theorem slice_names {start length : Nat} (low : (nameTable object.buf).sh_offset ≤ start)
    (high : start + length ≤ (nameTable object.buf).sh_offset + (nameTable object.buf).sh_size) :
    slice (object.output payload) start length = slice object.buf start length := by
  have names := object.elf.namesInside
  have apart := object.elf.namesApart
  have base := object.base_eq
  have inTable := object.inTable
  exact object.slice_output payload (by omega) (by omega)

theorem hasName_output {i : Nat} (inTable : i < shnum object.buf) :
    HasString (object.output payload) ((nameTable (object.output payload)).sh_offset +
      (sectionHeader (object.output payload) i).sh_name) (sectionName object.buf i) := by
  have stands := object.elf.hasName inTable
  have within := (object.elf.named i inTable).2
  rw [object.nameTable_output, (object.sectionHeader_output payload inTable).1]
  exact ⟨stands.1, by rw [object.slice_names payload (by omega) (by omega)]; exact stands.2⟩

theorem sectionName_output {i : Nat} (inTable : i < shnum object.buf) :
    sectionName (object.output payload) i = sectionName object.buf i :=
  (object.hasName_output payload inTable).stringAt

theorem elf_output : Elf (object.output payload) := by
  have inside := object.base_inside
  have base := object.base_eq
  have start := object.elf.headerFirst
  have table := object.elf.tableInside
  have names := object.elf.namesInside
  have grown : object.buf.length ≤ (object.output payload).length := by
    rw [length_output, newOffset]
    omega
  refine ⟨?_, ?_, ?_, ?_, ?_, ?_, ?_, ?_, ?_⟩
  · rw [object.slice_output payload (by omega) (by omega)]
    exact object.elf.ident
  · rw [object.field_output payload (by omega) (by omega)]
    exact object.elf.entsize
  · rw [object.shoff_output]
    exact start
  · rw [object.shoff_output, object.shnum_output]
    omega
  · rw [object.shstrndx_output, object.shnum_output]
    exact object.elf.strndx
  · rw [object.nameTable_output]
    omega
  · rw [object.nameTable_output, object.shoff_output, object.shnum_output]
    exact object.elf.namesApart
  · rw [object.nameTable_output]
    refine ⟨object.elf.firstName.1, ?_⟩
    have nonempty := object.elf.firstName.1
    rw [object.slice_names payload (Nat.le_refl _) (by omega)]
    exact object.elf.firstName.2
  · intro i inTable
    rw [object.shnum_output] at inTable
    obtain ⟨rest, split⟩ := (object.hasName_output payload inTable).split
    refine ⟨by rw [split]; simp, ?_⟩
    rw [object.sectionName_output payload inTable, object.nameTable_output,
      (object.sectionHeader_output payload inTable).1]
    exact (object.elf.named i inTable).2

end Patch

/-- The new section fits: its strings, its place and so its size. -/
structure Fits (object : Object) : Prop where
  strings : object.blob.Fits
  place : object.newOffset < 2 ^ 64

theorem length_bytes_lt (blob : Blob) : blob.bytes.length < 2 ^ 64 := by
  have header := blob.hdrLen.toNat_lt
  have types := blob.typeOff.toNat_lt
  have strings := blob.strOff.toNat_lt
  have typesPlace := blob.typesPlace
  have stringsPlace := blob.stringsPlace
  have stringsFit := blob.stringsFit
  simp only [Blob.bytes, Blob.header, List.length_append, length_leBytes, List.length_cons,
    List.length_nil]
  omega

theorem header_output (object : Object) (payload : Bytes) (place : object.newOffset < 2 ^ 64)
    (small : payload.length < 2 ^ 64) :
    sectionHeader (object.output payload) object.index =
      { object.header with sh_offset := object.newOffset, sh_size := payload.length } := by
  have kept := object.sectionHeader_output payload object.inTable
  have start := object.newOffset_output payload place
  have size := object.newSize_output payload small
  simp only [sectionHeader, header, object.shoff_output] at kept start size ⊢
  rw [kept.1, kept.2, start, size]

/-- The object after the rewrite. -/
def rewritten (object : Object) (fits : object.Fits) : Object :=
  let payload := (object.blob.renamed fits.strings).bytes
  have moved := object.header_output payload fits.place (length_bytes_lt _)
  { buf := object.output payload
    elf := object.elf_output payload
    index := object.index
    inTable := by
      rw [object.shnum_output]
      exact object.inTable
    isBtf := by
      rw [object.sectionName_output payload object.inTable]
      exact object.isBtf
    isFirst := by
      intro i before
      rw [object.sectionName_output payload (Nat.lt_trans before object.inTable)]
      exact object.isFirst i before
    blob := object.blob.renamed fits.strings
    inside := by
      rw [moved]
      exact Nat.le_of_eq (object.length_output payload).symm
    payload := by
      rw [moved]
      exact object.payload_output payload }

end Object

end LibarenaRs.Btf
