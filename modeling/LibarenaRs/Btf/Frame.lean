import LibarenaRs.Btf.Correctness
import Mathlib.Data.List.Forall2

/-!
# What a rename changes and what it keeps

Of the old file only the two header fields that place the section change; of
the section only the offsets of the names that are replaced, and what is
appended to the strings.
-/

namespace LibarenaRs.Btf

open LibarenaRs.Memory LibarenaRs.Regex

/-- A record before and after, in sections with the given strings; `newOff` says
where each new name is. -/
structure RecordRewritten (strings newStrings : Bytes) (newOff : Text → Nat)
    (old new : Record) : Prop where
  kind : new.kind = old.kind
  info : new.info = old.info
  sizeType : new.sizeType = old.sizeType
  extra : new.extra = old.extra
  kept : old.newName? strings = none → new.nameOff = old.nameOff
  resolves : ∀ name, old.newName? strings = some name →
    new.nameOff.toNat = newOff name ∧ strings.length ≤ newOff name ∧
      HasString newStrings (newOff name) (encode name)

/-- A section before and after. -/
structure SectionRewritten (old new : Blob) : Prop where
  version : new.version = old.version
  flags : new.flags = old.flags
  hdrLen : new.hdrLen = old.hdrLen
  typeOff : new.typeOff = old.typeOff
  strOff : new.strOff = old.strOff
  beforeTypes : new.beforeTypes = old.beforeTypes
  beforeStrings : new.beforeStrings = old.beforeStrings
  records : List.Forall₂ (RecordRewritten old.strings new.strings old.newOff)
    old.records new.records
  strings : new.strings = old.strings ++ old.newNames.flatMap stored
  distinct : old.newNames.Nodup
  needed : ∀ name, name ∈ old.newNames ↔
    ∃ record ∈ old.records, record.newName? old.strings = some name
  strings_kept : ∀ offset name, HasString old.strings offset name →
    HasString new.strings offset name

/-- A file before and after. -/
structure FileRewritten (old new : Object) : Prop where
  bytes : ∀ i < old.buf.length, (i < old.header.base + 24 ∨ old.header.base + 40 ≤ i) →
    new.buf[i]? = old.buf[i]?
  found : elf_find_section new.buf ".BTF".toList =
    .ok { old.header with sh_offset := old.newOffset, sh_size := new.blob.bytes.length }
  behind : old.buf.length ≤ old.newOffset
  aligned : old.align ∣ old.newOffset
  payload : slice new.buf old.newOffset new.blob.bytes.length = new.blob.bytes
  section_ : SectionRewritten old.blob new.blob

theorem Record.rewritten_renamed {blob : Blob} (fits : blob.Fits) {record : Record}
    (membership : record ∈ blob.records) :
    RecordRewritten blob.strings (blob.strings ++ blob.appendix) blob.newOff record
      (record.renamed blob.strings blob.newNames) := by
  cases needed : record.newName? blob.strings with
  | none =>
      rw [Blob.renamed_eq_self needed]
      exact ⟨rfl, rfl, rfl, rfl, fun _ => rfl, fun name found => by rw [needed] at found; cases found⟩
  | some new =>
      have asked : new ∈ blob.newNames := Blob.mem_newNames.mpr ⟨record, membership, needed⟩
      have offset := Blob.renamed_nameOff fits membership needed
      have same : ∀ name, record.newName? blob.strings = some name → name = new := by
        intro name found
        rw [needed] at found
        exact (Option.some.inj found).symm
      refine ⟨?_, ?_, ?_, record.renamed_extra _ _, ?_, ?_⟩
      · simp [Record.renamed, needed]
      · simp [Record.renamed, needed]
      · simp [Record.renamed, needed]
      · intro none
        rw [needed] at none
        cases none
      · intro name found
        rw [same name found]
        exact ⟨offset, Blob.newOff_ge asked, Blob.hasString_newOff asked⟩

theorem Blob.rewritten_renamed (blob : Blob) (fits : blob.Fits) :
    SectionRewritten blob (blob.renamed fits) where
  version := rfl
  flags := rfl
  hdrLen := rfl
  typeOff := rfl
  strOff := rfl
  beforeTypes := rfl
  beforeStrings := rfl
  records := by
    change List.Forall₂ _ blob.records (blob.records.map _)
    rw [List.forall₂_map_right_iff, List.forall₂_same]
    exact fun record membership => Record.rewritten_renamed fits membership
  strings := rfl
  distinct := insertKeys_nodup List.nodup_nil _
  needed := fun name => Blob.mem_newNames
  strings_kept := fun offset name stands => stands.append _

namespace Object

/-- The script goes through: the names it decodes are UTF-8, and what it has to
write fits in its fields. -/
def Accepted (object : Object) : Prop := object.Decodes ∧ (object.Renames → object.Fits)

theorem namesDecode_output (object : Object) (payload : Bytes)
    (decodes : NamesDecode object.buf object.index) :
    NamesDecode (object.output payload) object.index := by
  intro i before
  rw [object.sectionName_output payload (Nat.lt_trans before object.inTable)]
  exact decodes i before

theorem fileRewritten (object : Object) (decodes : object.Decodes) (fits : object.Fits) :
    FileRewritten object (object.rewritten fits) where
  bytes := fun i old outside => object.getElem?_output _ old outside
  found := by
    rw [(object.rewritten fits).find_eq (object.namesDecode_output _ decodes.sections),
      ← object.header_output _ fits.place (length_bytes_lt _)]
    rfl
  behind := Nat.le_add_right _ _
  aligned := object.align_dvd_newOffset
  payload := object.payload_output _
  section_ := object.blob.rewritten_renamed fits.strings

end Object

theorem Object.raises_of_not_accepted (object : Object) (refused : ¬object.Accepted) :
    ∃ error, main object.buf = .error error := by
  apply object.main_raises
  by_cases decodes : object.Decodes
  · right
    by_contra fits
    exact refused ⟨decodes, fun needs => by_contra fun unfit => fits ⟨needs, unfit⟩⟩
  · exact Or.inl decodes

/-- On every object the script either refuses the file and leaves it alone, or
goes through each record once and leaves a file that is unchanged, if no type
needs a new name, and otherwise the object with the renamed section. -/
theorem btf_rename_rewrites (object : Object) :
    (object.Accepted →
      ∃ outcome, main object.buf = .ok outcome ∧
        outcome.visited.reverse = object.blob.boundaries ∧
        (¬object.Renames → fileAfter object.buf = object.buf) ∧
        (object.Renames → ∃ after : Object,
          after.buf = fileAfter object.buf ∧ FileRewritten object after)) ∧
    (¬object.Accepted →
      (∃ error, main object.buf = .error error) ∧ fileAfter object.buf = object.buf) := by
  constructor
  · rintro ⟨decodes, room⟩
    by_cases needs : object.Renames
    · have fits := room needs
      have ran := object.main_rewritten decodes needs fits
      refine ⟨_, ran, List.reverse_reverse _, fun kept => absurd needs kept, fun _ => ?_⟩
      refine ⟨object.rewritten fits, ?_, object.fileRewritten decodes fits⟩
      rw [fileAfter, ran]
      rfl
    · have ran := object.main_unchanged decodes needs
      refine ⟨_, ran, List.reverse_reverse _, fun _ => ?_, fun renames => absurd renames needs⟩
      rw [fileAfter, ran]
      rfl
  · intro refused
    obtain ⟨error, raised⟩ := object.raises_of_not_accepted refused
    refine ⟨⟨error, raised⟩, ?_⟩
    rw [fileAfter, raised]

/-- A section header of the sample files. -/
def sampleHeader (name offset size : Nat) : Bytes :=
  leBytes 4 name ++ List.replicate 20 0 ++ leBytes 8 offset ++ leBytes 8 size ++
    List.replicate 8 0 ++ leBytes 8 1 ++ List.replicate 8 0

/-- An object with three sections, the last one the given `.BTF`. -/
def sampleFile (payload : Bytes) : Bytes :=
  [0x7F, 0x45, 0x4C, 0x46, 2, 1] ++ List.replicate 34 0 ++ leBytes 8 64 ++ List.replicate 10 0 ++
    leBytes 2 64 ++ leBytes 2 3 ++ leBytes 2 1 ++
    sampleHeader 0 0 0 ++ sampleHeader 6 256 16 ++ sampleHeader 1 272 payload.length ++
    encode "\x00.BTF\x00.shstrtab\x00".toList ++ payload

/-- A section with one forward declaration, of a name of one byte. -/
def sampleBlob (byte : UInt8) : Blob where
  version := 1
  flags := 0
  hdrLen := 24
  typeOff := 0
  strOff := 12
  beforeTypes := []
  records := [⟨.fwd, 1, 0x07000000, 0, [], by decide, rfl⟩]
  beforeStrings := []
  strings := [0, byte, 0]
  typesPlace := rfl
  typesFit := by decide
  stringsPlace := rfl
  stringsFit := by simp
  named := by simp

def undecodable : Object where
  buf := sampleFile (sampleBlob 0xFF).bytes
  elf := by constructor <;> decide +kernel
  index := 2
  inTable := by decide +kernel
  isBtf := by decide +kernel
  isFirst := by decide +kernel
  blob := sampleBlob 0xFF
  inside := by decide +kernel
  payload := by decide +kernel

/-- A type whose name is no identifier, and a run that does not rename it: the
name is not UTF-8, decoding it raises and the file stays as it is. -/
theorem btf_rename_undecodable :
    (∃ record ∈ undecodable.blob.records, record.kind = .fwd ∧ record.nameOff ≠ 0 ∧
      ∀ ident, IsIdent ident → encode ident ≠ record.name undecodable.blob.strings) ∧
    main undecodable.buf = .error .unicodeDecodeError ∧
    fileAfter undecodable.buf = undecodable.buf := by
  have raised : main undecodable.buf = .error .unicodeDecodeError := by decide +kernel
  refine ⟨⟨_, List.mem_singleton.mpr rfl, rfl, by decide, ?_⟩, raised, ?_⟩
  · intro ident _ same
    have decoded := decode_encode ident
    rw [same] at decoded
    have fails : decode (stringAt [0, 0xFF, 0] 1) = .error .unicodeDecodeError := by
      decide +kernel
    exact absurd (fails.symm.trans decoded) (by simp)
  · rw [fileAfter, raised]

end LibarenaRs.Btf
