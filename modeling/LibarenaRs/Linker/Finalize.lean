import LibarenaRs.Linker.DebugLinkage
import LibarenaRs.Linker.ReturnTypes

/-!
# bpf_finalize

The last pass in front of `llc`, from the text of a module to the text of a module.
Its stages are functions of their own, in the order of the script.
-/

namespace LibarenaRs.Linker

open LibarenaRs.Regex LibarenaRs.Llvm

/-! ## Metadata -/

/-- What is put behind the equals sign of a new node. -/
inductive Node where
  | basic (name : Text) (size : Nat) (encoding : Text)
  | pointer
  | subroutine (types : List (Option Nat))
  | subprogram (name file : Text) (type : Nat)
  deriving DecidableEq, Repr

def printId (id : Nat) : Text := '!' :: printNat id

def Node.print : Node → Text
  | .basic name size encoding =>
      "!DIBasicType(name: \"".toList ++ name ++ "\", size: ".toList ++ printNat size ++
        ", encoding: ".toList ++ encoding ++ [')']
  | .pointer =>
      "!DIDerivedType(tag: DW_TAG_pointer_type, baseType: null, size: 64)".toList
  | .subroutine types =>
      "!DISubroutineType(types: !\x7b".toList ++
        List.intercalate ", ".toList (types.map fun type => (type.map printId).getD "null".toList) ++
        "\x7d)".toList
  | .subprogram name file type =>
      "!DISubprogram(name: \"".toList ++ name ++ "\", scope: ".toList ++ file ++
        ", file: ".toList ++ file ++ ", type: ".toList ++ printId type ++
        ", flags: DIFlagPrototyped, spFlags: DISPFlagOptimized)".toList

/-- The counter, the new nodes and the ids that were put behind a `!dbg`. -/
structure Added where
  next : Nat
  nodes : List (Nat × Node)
  attached : List Nat

def md (body : Node) (added : Added) : Nat × Added :=
  (added.next, ⟨added.next + 1, added.nodes ++ [(added.next, body)], added.attached⟩)

def signedType (irType : Text) : Option (Text × Nat) :=
  if irType = "i1".toList ∨ irType = "i8".toList then some ("char".toList, 8)
  else if irType = "i16".toList then some ("short".toList, 16)
  else if irType = "i32".toList then some ("int".toList, 32)
  else if irType = "i64".toList then some ("long long".toList, 64)
  else if irType = "i128".toList then some ("__int128".toList, 128)
  else none

/-- The node for a parameter or return type, if it has one. -/
def typeNode (irType : Text) : Option Node :=
  match signedType irType with
  | some (name, bits) => some (.basic name bits "DW_ATE_signed".toList)
  | none =>
      if irType = "ptr".toList ∨ "ptr ".toList <+: irType then some .pointer
      else if irType = "float".toList then some (.basic irType 32 "DW_ATE_float".toList)
      else if irType = "double".toList then some (.basic irType 64 "DW_ATE_float".toList)
      else none

def diType (irType : Text) (added : Added) : Option Nat × Added :=
  match typeNode irType with
  | some node => ((md node added).1, (md node added).2)
  | none => (none, added)

def paramAttrs : List Text :=
  ["noundef".toList, "zeroext".toList, "signext".toList, "noalias".toList, "nonnull".toList,
    "readonly".toList, "readnone".toList, "nocapture".toList, "dso_local".toList,
    "extern_weak".toList, "local_unnamed_addr".toList, "unnamed_addr".toList]

/-- The first word of a parameter that is no attribute. -/
def stripAttrs (parameter : Text) : Text :=
  ((splitWords parameter).filter fun word =>
    !paramAttrs.contains word && !"captures(".toList.isPrefixOf word &&
      !"align".toList.isPrefixOf word).head?.getD []

/-- `text.split(',')` -/
def splitComma : Text → List Text
  | [] => [[]]
  | c :: rest =>
      if c = ',' then [] :: splitComma rest
      else
        match splitComma rest with
        | [] => [[c]]
        | piece :: others => (c :: piece) :: others

/-- The parameters that get a type. -/
def parameterTypes (args : Text) : List Text :=
  if strip args = [] then []
  else (((splitComma args).map strip).filter fun a => a ≠ [] ∧ a ≠ "...".toList).map stripAttrs

/-- The types one behind the other, with the state passed along. -/
def diTypes : List Text → Added → List (Option Nat) × Added
  | [], added => ([], added)
  | irType :: others, added =>
      let (type, added) := diType irType added
      let (types, added) := diTypes others added
      (type :: types, added)

def returnType (ret : Text) (added : Added) : Option Nat × Added :=
  if ret ≠ "void".toList then diType ret added else (none, added)

def subprogramFor (file name ret args : Text) (added : Added) : Nat × Added :=
  let (type, added) := returnType ret added
  let (types, added) := diTypes (parameterTypes args) added
  let (signature, added) := md (.subroutine (type :: types)) added
  md (.subprogram name file signature) added

/-- A node that goes behind a `!dbg`. -/
def attach (file name ret args : Text) (added : Added) : Nat × Added :=
  let (id, added) := subprogramFor file name ret args added
  (id, { added with attached := added.attached ++ [id] })

/-- `!\d+` -/
def idRe : Pattern := .cat [.lit ['!'], .plus true (.chr Char.isDigit)]

/-- `int(digits)` -/
def readNat (digits : Text) : Nat := Nat.ofDigitChars 10 digits 0

/-- The counter starts behind the greatest id. -/
def nextId (text : Text) : Nat :=
  (((idRe.findIter text).map fun m => readNat (m.text.drop 1)).max?.getD 0) + 1

/-- `(!\d+) = !DIFile\(` -/
def fileRe : Pattern := .cat [.group 1 idRe, .lit " = !DIFile(".toList]

def diFile (text : Text) : Text := ((fileRe.search text).map fun m => m.group 1).getD "!0".toList

/-! ## Late calls -/

/-- `(?:[^,()]|\([^()]*\))*` -/
def argRe : Pattern :=
  .star true (.alt (.chr fun c => c != ',' && c != '(' && c != ')')
    (.cat [.lit ['('], .star true (.chr fun c => c != '(' && c != ')'), .lit [')']]))

/-- `\s*` -/
def blanksRe : Pattern := .star true (.chr isSpace)

/-- `(?:tail\s+)?` -/
def tailRe : Pattern := .opt (.cat [.lit "tail".toList, .plus true (.chr isSpace)])

/-- `(?:tail\s+)?call void @llvm\.(?:memcpy|memmove)(?:\.inline)?\.p0\.p0\.i64\((ptrA),\s*(ptrA),\s*(i64A),\s*i1[^)]*\)` -/
def memcpyRe : Pattern :=
  .cat [tailRe, .lit "call void @llvm.".toList,
    .alt (.lit "memcpy".toList) (.lit "memmove".toList), .opt (.lit ".inline".toList),
    .lit ".p0.p0.i64(".toList, .group 1 (.cat [.lit "ptr".toList, argRe]), .lit [','], blanksRe,
    .group 2 (.cat [.lit "ptr".toList, argRe]), .lit [','], blanksRe,
    .group 3 (.cat [.lit "i64".toList, argRe]), .lit [','], blanksRe,
    .lit "i1".toList, .star true (.chr fun c => c != ')'), .lit [')']]

/-- `call void @name(\1, \2, \3)` -/
def glueCall (name : Text) (m : Match) : Text :=
  "call void @".toList ++ name ++ ['('] ++ m.group 1 ++ ", ".toList ++ m.group 2 ++
    ", ".toList ++ m.group 3 ++ [')']

/-- The characters of `[A-Za-z0-9_.]`. -/
def dottedChar (c : Char) : Bool := c.isAlphanum || c == '_' || c == '.'

/-- `^(?!define|declare)([^\n]*?)(?<![A-Za-z0-9_.])@old\b` -/
def memcmpRe (old : Text) : Pattern :=
  .cat [.lineStart, .notAhead (.alt (.lit "define".toList) (.lit "declare".toList)),
    .group 1 anyInLine, .notBehind dottedChar, .lit ('@' :: old), .wordBoundary]

def lateCompare (old text : Text) : Text :=
  (memcmpRe old).sub (fun m => m.group 1 ++ "@bpf_arena_memcmp".toList) text

def lateCalls (text : Text) : Text :=
  lateCompare "bcmp".toList (lateCompare "memcmp".toList
    (memcpyRe.sub (glueCall "bpf_arena_memcpy".toList) text))

/-! ## Traps -/

/-- `call void @llvm\.trap\(\)` -/
def plainTrapRe : Pattern := .lit "call void @llvm.trap()".toList

/-- `(?:tail\s+)?call void @llvm\.trap\(\)` -/
def trapCallRe : Pattern := .cat [tailRe, plainTrapRe]

def throwCall (cookie : Int) : Text :=
  "call void @bpf_throw(i64 ".toList ++ printInt cookie ++ [')']

/-- `^declare\s[^\n]*@bpf_throw\(` -/
def throwDeclRe : Pattern :=
  .cat [.lineStart, .lit "declare".toList, .chr isSpace, .star true (.chr fun c => c != '\n'),
    .lit "@bpf_throw(".toList]

/-- `^declare\s[^\n]*#(\d+)\s+section` -/
def sharedGroupRe : Pattern :=
  .cat [.lineStart, .lit "declare".toList, .chr isSpace, .star true (.chr fun c => c != '\n'),
    .lit ['#'], .group 1 (.plus true (.chr Char.isDigit)), .plus true (.chr isSpace),
    .lit "section".toList]

/-- The reference to the attribute group of some sectioned declaration. -/
def attrRef (text : Text) : Text :=
  match sharedGroupRe.search text with
  | some m => " #".toList ++ m.group 1
  | none => []

def throwDeclaration (id : Nat) (attributes : Text) : Text :=
  "declare !dbg ".toList ++ printId id ++ " void @bpf_throw(i64)".toList ++ attributes ++
    " section \".ksyms\"".toList

/-- The text with its traps thrown, and the declaration to add. -/
def throwTraps (cookie : Option Int) (file attributes text : Text) (added : Added) :
    Text × List Text × Added :=
  match cookie with
  | none => (text, [], added)
  | some cookie =>
      if (plainTrapRe.search text).isSome then
        let thrown := trapCallRe.sub (fun _ => throwCall cookie) text
        if (throwDeclRe.search thrown).isSome then (thrown, [], added)
        else
          let (id, added) := attach file "bpf_throw".toList "void".toList "i64".toList added
          (thrown, [throwDeclaration id attributes], added)
      else (text, [], added)

/-! ## Declarations -/

def definedNames (text : Text) : List Text := (defineRe.findIter text).map fun m => m.group 1

/-- `^declare\s[^\n]*\n(?:[ \t]+section[^\n]*\n)?` -/
def declareRe : Pattern :=
  .cat [.lineStart, .lit "declare".toList, .chr isSpace, .star true (.chr fun c => c != '\n'),
    .lit ['\n'], .opt (.cat [.plus true (.chr fun c => c == ' ' || c == '\t'),
      .lit "section".toList, .star true (.chr fun c => c != '\n'), .lit ['\n']])]

/-- Declarations of the names that are defined are dropped. -/
def dropIn (defined : List Text) (m : Match) : Text :=
  match symbolRe.search m.text with
  | some found => if defined.contains (found.group 1) then [] else m.text
  | none => m.text

def dropDefined (text : Text) : Text := declareRe.sub (dropIn (definedNames text)) text

/-- `^declare\s+((?:[a-z_]+\s+)*?)([\w.]+(?:\s+addrspace\(\d+\))?)\s+@([A-Za-z0-9_.$]+)\(([^)]*)\)([^\n]*)$` -/
def declRe : Pattern :=
  .cat [.lineStart, .lit "declare".toList, .plus true (.chr isSpace),
    .group 1 (.star false (.cat [.plus true (.chr fun c => c.isLower || c == '_'),
      .plus true (.chr isSpace)])),
    .group 2 (.cat [.plus true (.chr fun c => isWord c || c == '.'),
      .opt (.cat [.plus true (.chr isSpace), .lit "addrspace(".toList,
        .plus true (.chr Char.isDigit), .lit [')']])]),
    .plus true (.chr isSpace), .lit ['@'], .group 3 (.plus true (.chr symbolChar)), .lit ['('],
    .group 4 (.star true (.chr fun c => c != ')')), .lit [')'],
    .group 5 (.star true (.chr fun c => c != '\n')), .lineEnd]

/-- A declaration that is left as it is. -/
def untagged (name line : Text) : Bool :=
  "llvm.".toList.isPrefixOf name || name == "rust_eh_personality".toList ||
    decide ("section \"".toList <:+: line) || decide ("!dbg".toList <:+: line)

def tagDeclare (file : Text) (m : Match) (added : Added) : Text × Added :=
  if untagged (m.group 3) m.text then (m.text, added)
  else
    let (id, added) := attach file (m.group 3) (m.group 2) (m.group 4) added
    ("declare !dbg ".toList ++ printId id ++ ' ' :: m.group 1 ++ m.group 2 ++ " @".toList ++
      m.group 3 ++ '(' :: m.group 4 ++ ')' :: m.group 5 ++ " section \".ksyms\"".toList, added)

/-- `re.sub` with a function that changes some state. -/
def renderState {State : Type} (replace : Match → State → Text × State) :
    List Piece → State → Text × State
  | [], state => ([], state)
  | .plain c :: pieces, state =>
      let (text, state) := renderState replace pieces state
      (c :: text, state)
  | .hit m :: pieces, state =>
      let (first, state) := replace m state
      let (text, state) := renderState replace pieces state
      (first ++ text, state)

def tagDeclares (file text : Text) (added : Added) : Text × Added :=
  renderState (tagDeclare file) (declRe.scan [] text 0) added

/-! ## The whole pass -/

/-- `\bnoreturn\b` -/
def noreturnRe : Pattern := .cat [.wordBoundary, .lit "noreturn".toList, .wordBoundary]

/-- `^(attributes #\d+ = \{)\s*\}$` -/
def emptyGroupRe : Pattern :=
  .cat [.lineStart, .group 1 (.cat [.lit "attributes #".toList, .plus true (.chr Char.isDigit),
    .lit " = \x7b".toList]), blanksRe, .lit ['}'], .lineEnd]

def stripNoreturn (text : Text) : Text :=
  emptyGroupRe.sub (fun m => m.group 1 ++ " nounwind \x7d".toList) (noreturnRe.sub (fun _ => []) text)

/-- `^(attributes\s)` -/
def attributesRe : Pattern := .cat [.lineStart, .lit "attributes".toList, .chr isSpace]

/-- New declarations go in front of the first attribute group. -/
def addDeclares (extra : List Text) (text : Text) : Text :=
  if extra = [] then text
  else attributesRe.subFirst (fun m => joinLines extra ++ "\n\n".toList ++ m.text) text

/-- `str.rstrip()` -/
def rstrip (text : Text) : Text := (text.reverse.dropWhile isSpace).reverse

theorem rstrip_blanks {text blanks : Text} (white : ∀ c ∈ blanks, isSpace c = true) :
    rstrip (text ++ blanks) = rstrip text := by
  rw [rstrip, rstrip, List.reverse_append, List.dropWhile_append_of_pos]
  exact fun c member => white c (List.mem_reverse.mp member)

def nodeLine (node : Nat × Node) : Text := printId node.1 ++ " = ".toList ++ node.2.print

def emit (nodes : List (Nat × Node)) (text : Text) : Text :=
  if nodes = [] then text
  else rstrip text ++ '\n' :: joinLines (nodes.map nodeLine) ++ ['\n']

/-- `^\s+(?:%\S+\s*=\s*)?invoke\s` -/
def invokeRe : Pattern :=
  .cat [.lineStart, .plus true (.chr isSpace),
    .opt (.cat [.lit ['%'], .plus true (.chr nonSpace), blanksRe, .lit ['='], blanksRe]),
    .lit "invoke".toList, .chr isSpace]

structure Finalized where
  text : Text
  added : Added

/-- Up to the traps: the text, the declarations to add, and the state. -/
def replaced (cookie : Option Int) (text : Text) : Text × List Text × Added :=
  throwTraps cookie (diFile text) (attrRef text) (lateCalls text) ⟨nextId text, [], []⟩

/-- Up to the declarations. -/
def tagged (cookie : Option Int) (text : Text) : Text × Added :=
  tagDeclares (diFile text) (dropDefined (replaced cookie text).1) (replaced cookie text).2.2

/-- Up to the returns. -/
def returned (cookie : Option Int) (text : Text) : Text :=
  zeroReturns (internalLinkage (stripNoreturn (tagged cookie text).1))

/-- The whole script; it exits on a module with an `invoke`. -/
def finalize (cookie : Option Int) (text : Text) : Option Finalized :=
  if (invokeRe.search text).isSome then none
  else
    some ⟨emit (tagged cookie text).2.nodes
      (addDeclares (replaced cookie text).2.1 (returned cookie text)), (tagged cookie text).2⟩

end LibarenaRs.Linker
