import LibarenaRs.Btf.Naming
import LibarenaRs.Memory.Interning

/-!
# The `.BTF` section and the object that holds it

Types are records of nineteen kinds whose length follows from kind and `vlen`
as the kernel defines them.  A `Blob` is a well-formed section: it cannot be
built with a record of another length, or with a name outside the strings.
-/

namespace LibarenaRs.Btf

open LibarenaRs.Memory LibarenaRs.Regex

inductive Kind where
  | int | ptr | array | struct | union | enum | fwd | typedef | volatile | const
  | restrict | func | funcProto | var | datasec | float | declTag | typeTag | enum64
  deriving DecidableEq, Repr

def Kind.code : Kind → Nat
  | .int => 1 | .ptr => 2 | .array => 3 | .struct => 4 | .union => 5 | .enum => 6
  | .fwd => 7 | .typedef => 8 | .volatile => 9 | .const => 10 | .restrict => 11
  | .func => 12 | .funcProto => 13 | .var => 14 | .datasec => 15 | .float => 16
  | .declTag => 17 | .typeTag => 18 | .enum64 => 19

/-- The bytes after `struct btf_type`: `btf_array`, `btf_member`, `btf_enum`,
`btf_param`, `btf_var`, `btf_var_secinfo`, `btf_decl_tag` and `btf_enum64`. -/
def Kind.extraLength (vlen : Nat) : Kind → Nat
  | .int | .var | .declTag => 4
  | .array => 12
  | .struct | .union | .datasec | .enum64 => vlen * 12
  | .enum | .funcProto => vlen * 8
  | .ptr | .fwd | .typedef | .volatile | .const | .restrict | .func | .float | .typeTag => 0

/-- One type, with the bytes after its `struct btf_type`. -/
structure Record where
  kind : Kind
  nameOff : UInt32
  info : UInt32
  sizeType : UInt32
  extra : Bytes
  info_kind : (info.toNat >>> 24) &&& 0x1F = kind.code
  extra_length : extra.length = kind.extraLength (info.toNat &&& 0xFFFF)

def Record.bytes (record : Record) : Bytes :=
  leBytes 4 record.nameOff.toNat ++ leBytes 4 record.info.toNat ++
    leBytes 4 record.sizeType.toNat ++ record.extra

theorem Record.length_bytes (record : Record) :
    record.bytes.length = 12 + record.extra.length := by
  simp only [bytes, List.length_append, length_leBytes]

def Record.name (strings : Bytes) (record : Record) : Bytes :=
  stringAt strings record.nameOff.toNat

abbrev typesBytes (records : List Record) : Bytes := records.flatMap Record.bytes

structure Blob where
  version : UInt8
  flags : UInt8
  hdrLen : UInt32
  typeOff : UInt32
  strOff : UInt32
  beforeTypes : Bytes
  records : List Record
  beforeStrings : Bytes
  strings : Bytes
  typesPlace : hdrLen.toNat + typeOff.toNat = 24 + beforeTypes.length
  typesFit : (typesBytes records).length < 2 ^ 32
  stringsPlace : hdrLen.toNat + strOff.toNat =
    24 + beforeTypes.length + (typesBytes records).length + beforeStrings.length
  stringsFit : strings.length < 2 ^ 32
  named : ∀ record ∈ records, record.nameOff ≠ 0 → 0 ∈ strings.drop record.nameOff.toNat

/-- The first 24 bytes. -/
def Blob.header (blob : Blob) : Bytes :=
  leBytes 2 0xEB9F ++ [blob.version, blob.flags] ++ leBytes 4 blob.hdrLen.toNat ++
    leBytes 4 blob.typeOff.toNat ++ leBytes 4 (typesBytes blob.records).length ++
    leBytes 4 blob.strOff.toNat ++ leBytes 4 blob.strings.length

def Blob.bytes (blob : Blob) : Bytes :=
  blob.header ++ blob.beforeTypes ++ typesBytes blob.records ++ blob.beforeStrings ++
    blob.strings

/-- The places where the records start, for types from `start`. -/
def boundaries : Nat → List Record → List Nat
  | _, [] => []
  | start, record :: records => start :: boundaries (start + record.bytes.length) records

/-- The name with an underscore for every character outside `[A-Za-z0-9_]`. -/
def underscored (name : Text) : Text := name.map fun c => if identChar c then c else '_'

/-- The new name a type of this kind and name needs: the canonical name of a Rust
integer, the underscored name elsewhere where the test of the script fails. -/
def newName : Kind → Text → Option Text
  | .int, name => RENAME.lookup name
  | .datasec, _ => none
  | .declTag, _ => none
  | _, name => if valid_ident name then none else some (underscored name)

def Record.newName? (strings : Bytes) (record : Record) : Option Text :=
  if record.nameOff = 0 then none
  else
    match decode (record.name strings) with
    | .ok name => newName record.kind name
    | .error _ => none

/-- The name, if there is one, is UTF-8. -/
def Record.Decodes (strings : Bytes) (record : Record) : Prop :=
  record.nameOff ≠ 0 → ∃ name, decode (record.name strings) = .ok name

/-- How a name is stored. -/
def stored (name : Text) : Bytes := encode name ++ [0]

/-- The names that the records need, in order, with repetitions. -/
def wanted (strings : Bytes) (records : List Record) : List Text :=
  records.filterMap (Record.newName? strings)

def Blob.newNames (blob : Blob) : List Text := insertKeys [] (wanted blob.strings blob.records)

/-- The strings to append: each new name once. -/
def Blob.appendix (blob : Blob) : Bytes := blob.newNames.flatMap stored

/-- The record with the offset of its new name, if it needs one. -/
def Record.renamed (strings : Bytes) (names : List Text) (record : Record) : Record :=
  match record.newName? strings with
  | none => record
  | some name => { record with nameOff := UInt32.ofNat (place stored strings.length names name) }

/-- What an ELF64 field of the file holds. -/
def field (width : Nat) (buf : Bytes) (offset : Nat) : Nat := leNat (slice buf offset width)

def shoff (buf : Bytes) : Nat := field 8 buf 0x28

def shnum (buf : Bytes) : Nat := field 2 buf 0x3C

def shstrndx (buf : Bytes) : Nat := field 2 buf 0x3E

/-- Header `i` of the section header table. -/
def sectionHeader (buf : Bytes) (i : Nat) : Shdr :=
  let base := shoff buf + i * 64
  ⟨base, field 4 buf base, field 8 buf (base + 24), field 8 buf (base + 32),
    field 8 buf (base + 48)⟩

/-- The section that holds the section names. -/
def nameTable (buf : Bytes) : Shdr := sectionHeader buf (shstrndx buf)

def sectionName (buf : Bytes) (i : Nat) : Bytes :=
  stringAt buf ((nameTable buf).sh_offset + (sectionHeader buf i).sh_name)

/-- A little-endian ELF64 object: its section headers and its section names. -/
structure Elf (buf : Bytes) : Prop where
  ident : slice buf 0 6 = [0x7F, 0x45, 0x4C, 0x46, 2, 1]
  entsize : field 2 buf 0x3A = 64
  headerFirst : 64 ≤ shoff buf
  tableInside : shoff buf + shnum buf * 64 ≤ buf.length
  strndx : shstrndx buf < shnum buf
  namesInside : (nameTable buf).sh_offset + (nameTable buf).sh_size ≤ buf.length
  namesApart : (nameTable buf).sh_offset + (nameTable buf).sh_size ≤ shoff buf ∨
    shoff buf + shnum buf * 64 ≤ (nameTable buf).sh_offset
  firstName : 0 < (nameTable buf).sh_size ∧ slice buf (nameTable buf).sh_offset 1 = [0]
  named : ∀ i < shnum buf,
    0 ∈ buf.drop ((nameTable buf).sh_offset + (sectionHeader buf i).sh_name) ∧
      (sectionHeader buf i).sh_name + (sectionName buf i).length < (nameTable buf).sh_size

/-- An object with a well-formed `.BTF` section: the first section of that name. -/
structure Object where
  buf : Bytes
  elf : Elf buf
  index : Nat
  inTable : index < shnum buf
  isBtf : sectionName buf index = encode ".BTF".toList
  isFirst : ∀ i < index, sectionName buf i ≠ encode ".BTF".toList
  blob : Blob
  inside : (sectionHeader buf index).sh_offset + (sectionHeader buf index).sh_size ≤ buf.length
  payload : slice buf (sectionHeader buf index).sh_offset (sectionHeader buf index).sh_size = blob.bytes

end LibarenaRs.Btf
