import LibarenaRs.Memory.Bytes
import LibarenaRs.Regex.Matcher

/-!
# The script `btf_rename.py`

A file is a list of bytes and a `str` a list of characters.  What Python raises
is the error of `Except`; the script writes the file in its last step only.
-/

namespace LibarenaRs.Btf

open LibarenaRs.Memory LibarenaRs.Regex

inductive PyError where
  | assertionError
  | structError
  | valueError
  | indexError
  | keyError
  | unicodeDecodeError
  deriving DecidableEq, Repr

/-- One field of `struct.unpack_from` -/
def unpackFrom (width : Nat) (buf : Bytes) (offset : Nat) : Except PyError Nat :=
  if offset + width ≤ buf.length then .ok (leNat (slice buf offset width))
  else .error .structError

/-- One field of `struct.pack_into` -/
def packInto (width : Nat) (buf : Bytes) (offset value : Nat) : Except PyError Bytes :=
  if value < 256 ^ width ∧ offset + width ≤ buf.length then
    .ok (patch buf offset (leBytes width value))
  else .error .structError

/-- `buf.index(b"\0", start)` -/
def indexNul (buf : Bytes) (start : Nat) : Except PyError Nat :=
  match (buf.drop start).idxOf? 0 with
  | some found => .ok (start + found)
  | none => .error .valueError

/-- `bytes.decode()`, strict UTF-8 -/
def decode (bytes : Bytes) : Except PyError Text :=
  match bytes.toByteArray.utf8Decode? with
  | some chars => .ok chars.toList
  | none => .error .unicodeDecodeError

/-- `str.encode()` -/
def encode (name : Text) : Bytes := name.flatMap String.utf8EncodeChar

def RENAME : List (Text × Text) :=
  [("u8".toList, "unsigned char".toList),
   ("u16".toList, "unsigned short".toList),
   ("u32".toList, "unsigned int".toList),
   ("u64".toList, "unsigned long long".toList),
   ("usize".toList, "unsigned long".toList),
   ("i8".toList, "signed char".toList),
   ("i16".toList, "short".toList),
   ("i32".toList, "int".toList),
   ("i64".toList, "long long".toList),
   ("isize".toList, "long".toList)]

def BTF_KIND_INT : Nat := 1

/-- Extra bytes after `struct btf_type`, `none` where they depend on `vlen`. -/
def FIXED_EXTRA : List (Nat × Option Nat) :=
  [(1, some 4), (2, some 0), (3, some 12), (4, none), (5, none), (6, none), (7, some 0),
   (8, some 0), (9, some 0), (10, some 0), (11, some 0), (12, some 0), (13, none),
   (14, some 4), (15, none), (16, some 0), (17, some 4), (18, some 0), (19, none)]

def PER_VLEN : List (Nat × Nat) :=
  [(4, 12), (6, 8), (13, 8), (15, 12), (19, 12), (5, 12)]

/-- What `shdr(i)` returns. -/
structure Shdr where
  base : Nat
  sh_name : Nat
  sh_offset : Nat
  sh_size : Nat
  sh_addralign : Nat
  deriving DecidableEq, Repr

def shdr (buf : Bytes) (e_shoff e_shentsize i : Nat) : Except PyError Shdr := do
  let base := e_shoff + i * e_shentsize
  let sh_name ← unpackFrom 4 buf base
  let sh_offset ← unpackFrom 8 buf (base + 24)
  let sh_size ← unpackFrom 8 buf (base + 32)
  let sh_addralign ← unpackFrom 8 buf (base + 48)
  return ⟨base, sh_name, sh_offset, sh_size, sh_addralign⟩

/-- The string from `start` up to the next NUL, decoded. -/
def readName (buf : Bytes) (start : Nat) : Except PyError Text := do
  let finish ← indexNul buf start
  decode (slice buf start (finish - start))

/-- The loop over the section headers, from header `i` with `left` to go. -/
def findSection (buf : Bytes) (want : Text) (e_shoff e_shentsize stroff : Nat) :
    Nat → Nat → Except PyError Shdr
  | _, 0 => .error .keyError
  | i, left + 1 => do
      let header ← shdr buf e_shoff e_shentsize i
      let name ← readName buf (stroff + header.sh_name)
      if name = want then return header
      else findSection buf want e_shoff e_shentsize stroff (i + 1) left

def checkElf (buf : Bytes) : Except PyError Unit :=
  if slice buf 0 4 = [0x7F, 0x45, 0x4C, 0x46] then
    match buf.drop 4 with
    | [] => .error .indexError
    | [2] => .error .indexError
    | 2 :: 1 :: _ => .ok ()
    | _ => .error .assertionError
  else .error .assertionError

def elf_find_section (buf : Bytes) (want : Text) : Except PyError Shdr := do
  checkElf buf
  let e_shoff ← unpackFrom 8 buf 0x28
  let e_shentsize ← unpackFrom 2 buf 0x3A
  let e_shnum ← unpackFrom 2 buf 0x3C
  let e_shstrndx ← unpackFrom 2 buf 0x3E
  let strings ← shdr buf e_shoff e_shentsize e_shstrndx
  findSection buf want e_shoff e_shentsize strings.sh_offset 0 e_shnum

def identStart (c : Char) : Bool := c.isAlpha || c == '_'

def identChar (c : Char) : Bool := c.isAlphanum || c == '_'

/-- `^[A-Za-z_][A-Za-z0-9_]*$` -/
def validIdent : Pattern :=
  .cat [.textStart, .chr identStart, .star true (.chr identChar), .textEnd]

def valid_ident (name : Text) : Bool := (validIdent.matchStart name).isSome

/-- `re.sub(r"[^A-Za-z0-9_]", "_", name)` -/
def sanitize (name : Text) : Text :=
  (Pattern.chr fun c => !identChar c).sub (fun _ => ['_']) name

/-- The variables of the type walk, and a log of the positions it was at, latest first. -/
structure Walk where
  data : Bytes
  new_strings : Bytes
  appended : List (Text × Nat)
  renamed : Nat
  sanitized : Nat
  visited : List Nat
  deriving DecidableEq, Repr

def intern (str_len : Nat) (walk : Walk) (name : Text) : Nat × Walk :=
  match walk.appended.lookup name with
  | some offset => (offset, walk)
  | none =>
      let offset := str_len + walk.new_strings.length
      (offset, { walk with
        appended := walk.appended ++ [(name, offset)]
        new_strings := walk.new_strings ++ encode name ++ [0] })

/-- `struct.pack_into("<I", data, pos, intern(name))` -/
def rename (str_len pos : Nat) (walk : Walk) (name : Text) : Except PyError Walk := do
  let (offset, walk) := intern str_len walk name
  let data ← packInto 4 walk.data pos offset
  return { walk with data := data }

/-- The number of bytes after the twelve of `struct btf_type`. -/
def extraOf (kind vlen : Nat) : Except PyError Nat :=
  match (FIXED_EXTRA.lookup kind).join with
  | some extra => .ok extra
  | none =>
      match PER_VLEN.lookup kind with
      | some each => .ok (vlen * each)
      | none => .error .keyError

/-- The two branches of the walk that give a type a new name. -/
def renameType (str_len pos kind : Nat) (name : Text) (walk : Walk) : Except PyError Walk :=
  match if kind = BTF_KIND_INT then RENAME.lookup name else none with
  | some canonical => do
      let walk ← rename str_len pos walk canonical
      return { walk with renamed := walk.renamed + 1 }
  | none =>
      if kind ∉ [15, 17, BTF_KIND_INT] ∧ ¬valid_ident name then do
        let walk ← rename str_len pos walk (sanitize name)
        return { walk with sanitized := walk.sanitized + 1 }
      else return walk

/-- `if name_off: …` -/
def nameType (str_base str_len pos kind name_off : Nat) (walk : Walk) : Except PyError Walk :=
  if name_off ≠ 0 then do
    let name ← readName walk.data (str_base + name_off)
    renameType str_len pos kind name walk
  else return walk

/-- One iteration of the type walk: how many bytes follow the `btf_type`. -/
def visitType (str_base str_len pos : Nat) (walk : Walk) : Except PyError (Nat × Walk) := do
  let name_off ← unpackFrom 4 walk.data pos
  let info ← unpackFrom 4 walk.data (pos + 4)
  let _ ← unpackFrom 4 walk.data (pos + 8)
  let kind := (info >>> 24) &&& 0x1F
  let vlen := info &&& 0xFFFF
  let walk := { walk with visited := pos :: walk.visited }
  let walk ← nameType str_base str_len pos kind name_off walk
  let extra ← extraOf kind vlen
  return (extra, walk)

/-- `while pos < end` -/
def walkTypes (str_base str_len finish pos : Nat) (walk : Walk) : Except PyError Walk :=
  if pos < finish then
    match visitType str_base str_len pos walk with
    | .error error => .error error
    | .ok (extra, walk) => walkTypes str_base str_len finish (pos + (12 + extra)) walk
  else .ok walk
termination_by finish - pos
decreasing_by omega

/-- What a run that does not raise does: the bytes it writes, if it writes, and
the numbers it prints. -/
structure Outcome where
  written : Option Bytes
  renamed : Nat
  sanitized : Nat
  visited : List Nat
  deriving DecidableEq, Repr

/-- Append the grown section at the end of the file, aligned, and repoint its header. -/
def appendSection (buf : Bytes) (header : Shdr) (data : Bytes) : Except PyError Bytes := do
  let align := max header.sh_addralign 1
  let pad := (align - buf.length % align) % align
  let new_off := buf.length + pad
  let buf := buf ++ List.replicate pad 0 ++ data
  let buf ← packInto 8 buf (header.base + 24) new_off
  packInto 8 buf (header.base + 32) data.length

/-- `main` after the walk -/
def finish (buf : Bytes) (header : Shdr) (str_base str_len : Nat) (walk : Walk) :
    Except PyError Outcome :=
  if walk.renamed = 0 ∧ walk.sanitized = 0 then return ⟨none, 0, 0, walk.visited⟩
  else if str_base + str_len ≠ walk.data.length then throw .assertionError
  else do
    let data ← packInto 4 (walk.data ++ walk.new_strings) 20 (str_len + walk.new_strings.length)
    let written ← appendSection buf header data
    return ⟨some written, walk.renamed, walk.sanitized, walk.visited⟩

def main (buf : Bytes) : Except PyError Outcome := do
  let header ← elf_find_section buf ".BTF".toList
  let data := slice buf header.sh_offset header.sh_size
  let magic ← unpackFrom 2 data 0
  let _version ← unpackFrom 1 data 2
  let _flags ← unpackFrom 1 data 3
  let hdr_len ← unpackFrom 4 data 4
  let type_off ← unpackFrom 4 data 8
  let type_len ← unpackFrom 4 data 12
  let str_off ← unpackFrom 4 data 16
  let str_len ← unpackFrom 4 data 20
  if magic ≠ 0xEB9F then throw .assertionError
  let types_base := hdr_len + type_off
  let str_base := hdr_len + str_off
  let walk ← walkTypes str_base str_len (types_base + type_len) types_base ⟨data, [], [], 0, 0, []⟩
  finish buf header str_base str_len walk

/-- The file after the script ran. -/
def fileAfter (buf : Bytes) : Bytes :=
  match main buf with
  | .ok outcome => outcome.written.getD buf
  | .error _ => buf

end LibarenaRs.Btf
