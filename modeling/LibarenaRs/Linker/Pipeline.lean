import LibarenaRs.Btf.AnyFile
import LibarenaRs.Linker.LowerMem
import LibarenaRs.Linker.SymbolLists
import LibarenaRs.Linker.Unreachable

/-!
# A link

`main` of the linker.  The tools of LLVM, the passes of the user and the files that are
read are those of any host; the scripts of the linker are the ones modelled here.
-/

namespace LibarenaRs.Linker

open LibarenaRs.Memory LibarenaRs.Regex LibarenaRs.Llvm

/-! ## Numbers of the scripts -/

def digitValue (c : Char) : Option Nat :=
  if c.isDigit then some (c.toNat - 48)
  else if c.isLower then some (c.toNat - 87)
  else if c.isUpper then some (c.toNat - 55)
  else none

/-- Digits of a base behind others; an underscore may stand in front of each. -/
def readDigits (base : Nat) : Text → Nat → Option Nat
  | [], read => some read
  | '_' :: c :: rest, read =>
      match digitValue c with
      | some digit => if digit < base then readDigits base rest (read * base + digit) else none
      | none => none
  | c :: rest, read =>
      match digitValue c with
      | some digit => if digit < base then readDigits base rest (read * base + digit) else none
      | none => none

/-- Without a prefix a number is decimal, and starts with 0 only if it is zero. -/
def readUnsigned : Text → Option Nat
  | [] => none
  | '_' :: _ => none
  | '0' :: [] => some 0
  | '0' :: mark :: rest =>
      if mark = 'x' ∨ mark = 'X' then if rest = [] then none else readDigits 16 rest 0
      else if mark = 'o' ∨ mark = 'O' then if rest = [] then none else readDigits 8 rest 0
      else if mark = 'b' ∨ mark = 'B' then if rest = [] then none else readDigits 2 rest 0
      else (readDigits 10 (mark :: rest) 0).filter fun number => number = 0
  | digits => readDigits 10 digits 0

/-- The white space of C. -/
def cSpace (c : Char) : Bool := c == ' ' || (9 ≤ c.toNat && c.toNat ≤ 13)

/-- Outside of ASCII white space counts as a blank, and a decimal digit of any script as the
one of its value. -/
def asciiNumeral (decimal : Char → Option Nat) (c : Char) : Char :=
  if c.toNat < 128 then c
  else if isSpace c then ' '
  else ((decimal c).map fun digit => Char.ofNat (48 + digit)).getD '?'

/-- `int(text, 0)`, where `decimal` says which characters outside of ASCII are digits. -/
def pyInt (decimal : Char → Option Nat) (text : Text) : Option Int :=
  let numeral := (text.map (asciiNumeral decimal)).dropWhile cSpace
  match (numeral.reverse.dropWhile cSpace).reverse with
  | '-' :: digits => (readUnsigned digits).map fun number => -(number : Int)
  | '+' :: digits => (readUnsigned digits).map fun number => (number : Int)
  | digits => (readUnsigned digits).map fun number => (number : Int)

/-! ## The source -/

/-- Everything outside the linker.  A program that cannot be run, or fails, has no answer. -/
structure Host where
  args : List Text
  env : Text → Option Text
  /-- `fs::read_to_string` of a response file. -/
  response : Text → Except Text Text
  readText : Text → Option Text
  read : Text → Option Bytes
  present : Text → Bool
  /-- `/proc/config.gz`, if there is one: whether it asks for the ORC unwinder. -/
  config : Option Bool
  /-- `llvm-ar x`: the names and contents of the members. -/
  ar : Text → Option (List (Text × Bytes))
  nm : List Bytes → Option Text
  link : List Bytes → Option Bytes
  dis : Bytes → Option Text
  internalize : List Text → Text → Option Bytes
  optimize : List Text → Text → Option Bytes
  /-- The decimal digits outside of ASCII that the Python at hand knows. -/
  decimal : Char → Option Nat
  /-- What `keep_syms` prints, if anything, where `argparse` takes words for options. -/
  options : Surroundings → Text → Option Text
  /-- A pass of the user's, by its path. -/
  pass : Text → Text → Option Text
  llc : Text → Text → Option Bytes
  objcopy : Bytes → Option Bytes

inductive Death where
  | message (text : Text)
  | failed (program : Text)
  deriving DecidableEq, Repr

def run {Answer : Type} (program : Text) : Option Answer → Except Death Answer
  | some answer => .ok answer
  | none => .error (.failed program)

def isBitcode (bytes : Bytes) : Bool := [0x42, 0x43, 0xC0, 0xDE].isPrefixOf bytes

def isArchive (bytes : Bytes) : Bool :=
  [0x21, 0x3C, 0x61, 0x72, 0x63, 0x68, 0x3E, 0x0A].isPrefixOf bytes

/-- The bitcode members of an archive, by their names. -/
def extract (host : Host) (archive : Text) : Except Death (List Bytes) := do
  let members ← run "llvm-ar".toList (host.ar archive)
  let bitcode := members.filter fun member => isBitcode member.2
  return (bitcode.mergeSort fun first second => decide (first.1 ≤ second.1)).map Prod.snd

/-- The bitcode of one input; what is neither bitcode nor an archive is skipped. -/
def gather (host : Host) (input : Text) : Except Death (List Bytes) :=
  match host.read input with
  | none => .ok []
  | some bytes =>
      if isBitcode bytes then .ok [bytes]
      else if isArchive bytes then extract host input
      else .ok []

def gatherAll (host : Host) : List Text → Except Death (List Bytes)
  | [] => .ok []
  | input :: inputs => do
      let here ← gather host input
      let others ← gatherAll host inputs
      return here ++ others

/-- `Path::join` with a relative path. -/
def joinPath (directory file : Text) : Text :=
  if directory = [] ∨ directory.getLast? = some '/' then directory ++ file
  else directory ++ '/' :: file

def noArchive : Text :=
  "libarena_c.a not found in any -L directory: is libarena-rs a dependency (its build.rs produces it)?".toList

/-- The first archive of libarena on the search path. -/
def arenaArchive (host : Host) (libDirs : List Text) : Except Death Text :=
  match (libDirs.map fun directory => joinPath directory "libarena_c.a".toList).find? host.present with
  | some archive => .ok archive
  | none => .error (.message noArchive)

/-- The bitcode of the inputs, and that of libarena. -/
def bitcodes (host : Host) (opts : Opts) : Except Death (List Bytes × List Bytes) := do
  let rust ← gatherAll host opts.inputs
  let archive ← arenaArchive host opts.libDirs
  let arena ← extract host archive
  if rust = [] ∨ arena = [] then .error (.message "no bitcode inputs".toList) else .ok (rust, arena)

/-- The passes that a variable names, between colons. -/
def passes (host : Host) (name : Text) : List Text :=
  (((envv host.env name).getD []).splitOn ':').filter fun path => path ≠ []

def runPasses (host : Host) : List Text → Text → Except Death Text
  | [], text => .ok text
  | path :: paths, text => do
      let text ← run "python3".toList (host.pass path text)
      runPasses host paths text

def trapCookie (host : Host) : Text := (envv host.env "TRAP_COOKIE".toList).getD "0xC0DED".toList

/-- `auto` throws unless the kernel is known to have no ORC unwinder. -/
def trapMode (host : Host) : Text :=
  let mode := (envv host.env "TRAP_MODE".toList).getD
    (if (envv host.env "LIBARENA_VMLINUX_H".toList).isNone then "auto".toList else "throw".toList)
  if mode = "auto".toList then
    if host.config = some false then "ret".toList else "throw".toList
  else mode

/-- `trap_to_ret`, if the mode asks for it. -/
def trapStage (host : Host) (text : Text) : Except Death Text :=
  if trapMode host = "ret".toList then do
    let cookie ← run "python3".toList (pyInt host.decimal (trapCookie host))
    return trapToRet cookie text
  else .ok text

/-- `bpf_finalize`, with a cookie if the mode asks for it. -/
def finalStage (host : Host) (text : Text) : Except Death Text :=
  if trapMode host = "throw".toList then do
    let cookie ← run "python3".toList (pyInt host.decimal (trapCookie host))
    let out ← run "python3".toList (finalize (some cookie) text)
    return out.text
  else do
    let out ← run "python3".toList (finalize none text)
    return out.text

/-- The files between the tools. -/
structure Built where
  rust : List Bytes
  arena : List Bytes
  nm : Text
  linked : Text
  kept : List Text
  lowered : Text
  internalized : Text
  marks : List Text
  optimized : Text
  trapped : Text
  final : Text
  object : Bytes

def surroundings (host : Host) (opts : Opts) (nm : Text) : Surroundings where
  env := host.env
  exported := opts.exportSymbols.map fun path => (host.readText path).getD []
  nm := nm

/-- The keep list, as words. -/
def keepStage (host : Host) (around : Surroundings) (linked : Text) : Except Death (List Text) :=
  match around.keep linked with
  | some kept => .ok kept
  | none => do
      let printed ← run "python3".toList (host.options around linked)
      return splitWhitespace printed

/-- The words of what `force_inline` prints. -/
def marks (forced : ForceInline) : List Text :=
  splitWhitespace ([' '].intercalate forced.args ++ ['\n'])

/-- `main` up to the code generator. -/
def build (host : Host) (opts : Opts) : Except Death Built := do
  let (rust, arena) ← bitcodes host opts
  let nm ← run "llvm-nm".toList (host.nm arena)
  let around := surroundings host opts nm
  let bitcode ← run "llvm-link".toList (host.link (rust ++ arena))
  let linked ← run "llvm-dis".toList (host.dis bitcode)
  let kept ← keepStage host around linked
  let lowered ← runPasses host (passes host "ARENA_PRE_PASSES".toList) (lowerMem linked)
  let internal ← run "opt".toList (host.internalize kept lowered)
  let internalized ← run "llvm-dis".toList (host.dis internal)
  let forced := around.forced kept internalized
  let inlined ← run "opt".toList (host.optimize (marks forced) forced.out)
  let printed ← run "llvm-dis".toList (host.dis inlined)
  let optimized ← runPasses host (passes host "ARENA_POST_PASSES".toList) printed
  let trapped ← trapStage host optimized
  let final ← finalStage host trapped
  let object ← run "llc".toList (host.llc opts.cpu final)
  return {
    rust, arena, nm, linked, kept, lowered, internalized
    marks := marks forced
    optimized, trapped, final, object }

/-- What a link leaves on the disk: the file it is to write, and its directory of files. -/
structure Disk where
  output : Option Bytes
  temps : Bool

/-- `objcopy` to the output, and `btf_rename` in place. -/
def finish (host : Host) (disk : Disk) (built : Built) : Except Death Unit × Disk :=
  match host.objcopy built.object with
  | none => (.error (.failed "llvm-objcopy".toList), { disk with temps := true })
  | some object =>
      match Btf.main object with
      | .error _ => (.error (.failed "python3".toList), ⟨some object, true⟩)
      | .ok _ =>
          (.ok (), ⟨some (Btf.fileAfter object),
            (envv host.env "ARENA_LINKER_KEEP_TEMPS".toList).isSome⟩)

/-- `main` -/
def main (host : Host) (disk : Disk) : Except Death Unit × Disk :=
  match parseArgs host.response host.args with
  | .error reason => (.error (.message reason), disk)
  | .ok parsed =>
      match build host parsed.opts with
      | .error death => (.error death, { disk with temps := true })
      | .ok built => finish host disk built

/-! ## Stages -/

theorem run_ok {Answer : Type} {program : Text} {answered : Option Answer} {answer : Answer}
    (ran : run program answered = .ok answer) : answered = some answer := by
  cases answered with
  | none => cases ran
  | some other =>
      cases ran
      rfl

/-- The input brings this bitcode: it is that file, or an archive with such a member. -/
def Supplies (host : Host) (input : Text) (bitcode : Bytes) : Prop :=
  isBitcode bitcode = true ∧
    (host.read input = some bitcode ∨
      ∃ archive members, host.read input = some archive ∧ isArchive archive = true ∧
        host.ar input = some members ∧ bitcode ∈ members.map Prod.snd)

theorem mem_extract {host : Host} {archive : Text} {members : List Bytes}
    (extracted : extract host archive = .ok members) :
    ∃ listed, host.ar archive = some listed ∧
      ∀ bitcode, bitcode ∈ members ↔ isBitcode bitcode = true ∧ bitcode ∈ listed.map Prod.snd := by
  obtain ⟨listed, answered, returned⟩ := Btf.ok_of_bind extracted
  refine ⟨listed, run_ok answered, ?_⟩
  intro bitcode
  cases returned
  rw [List.mem_map, List.mem_map]
  constructor
  · rintro ⟨member, among, rfl⟩
    have filtered := List.mem_filter.mp (List.mem_mergeSort.mp among)
    exact ⟨filtered.2, member, filtered.1, rfl⟩
  · rintro ⟨starts, member, among, rfl⟩
    exact ⟨member, List.mem_mergeSort.mpr (List.mem_filter.mpr ⟨among, starts⟩), rfl⟩

theorem not_isArchive {bytes : Bytes} (bitcode : isBitcode bytes = true) :
    isArchive bytes = false := by
  cases bytes with
  | nil => rfl
  | cons byte bytes =>
      simp only [isBitcode, isArchive, List.isPrefixOf, Bool.and_eq_true, beq_iff_eq] at *
      rw [← bitcode.1]
      rfl

theorem mem_gather {host : Host} {input : Text} {members : List Bytes}
    (gathered : gather host input = .ok members) (bitcode : Bytes) :
    bitcode ∈ members ↔ Supplies host input bitcode := by
  unfold gather at gathered
  unfold Supplies
  split at gathered
  · rename_i absent
    cases gathered
    simp [absent]
  · rename_i bytes present
    split at gathered
    · rename_i starts
      cases gathered
      rw [present, List.mem_singleton]
      constructor
      · rintro rfl
        exact ⟨starts, Or.inl rfl⟩
      · rintro ⟨-, same | ⟨archive, members, same, isArchive_, -⟩⟩
        · exact (Option.some.inj same).symm
        · rw [← Option.some.inj same, not_isArchive starts] at isArchive_
          cases isArchive_
    · rename_i other
      have apart : isBitcode bitcode = true → some bytes ≠ some bitcode := by
        rintro starts same
        rw [Option.some.inj same] at other
        exact other starts
      split at gathered
      · rename_i archive
        obtain ⟨listed, answered, iff⟩ := mem_extract gathered
        rw [iff, present, answered]
        constructor
        · rintro ⟨starts, among⟩
          exact ⟨starts, Or.inr ⟨bytes, listed, rfl, archive, rfl, among⟩⟩
        · rintro ⟨starts, same | ⟨_, members, -, -, same, among⟩⟩
          · exact absurd same (apart starts)
          · rw [Option.some.inj same]
            exact ⟨starts, among⟩
      · rename_i noArchive
        cases gathered
        rw [present]
        constructor
        · intro member
          cases member
        · rintro ⟨starts, same | ⟨archive, _, same, isArchive_, -⟩⟩
          · exact absurd same (apart starts)
          · rw [← Option.some.inj same] at isArchive_
            exact absurd isArchive_ noArchive

theorem mem_gatherAll {host : Host} {inputs : List Text} {members : List Bytes}
    (gathered : gatherAll host inputs = .ok members) (bitcode : Bytes) :
    bitcode ∈ members ↔ ∃ input ∈ inputs, Supplies host input bitcode := by
  induction inputs generalizing members with
  | nil =>
      cases gathered
      simp
  | cons input inputs inductionHypothesis =>
      obtain ⟨here, first, gathered⟩ := Btf.ok_of_bind gathered
      obtain ⟨others, later, returned⟩ := Btf.ok_of_bind gathered
      cases returned
      rw [List.mem_append, mem_gather first, inductionHypothesis later, List.exists_mem_cons_iff]

theorem arenaArchive_ok {host : Host} {libDirs : List Text} {archive : Text}
    (found : arenaArchive host libDirs = .ok archive) :
    host.present archive = true ∧
      ∃ directory ∈ libDirs, archive = joinPath directory "libarena_c.a".toList := by
  unfold arenaArchive at found
  split at found
  · rename_i first isFirst
    cases found
    have member := List.mem_of_find?_eq_some isFirst
    obtain ⟨directory, among, same⟩ := List.mem_map.mp member
    exact ⟨List.find?_some isFirst, directory, among, same.symm⟩
  · cases found

theorem isSymbol_of_defineRe {text : Text} {m : Match} (member : m ∈ defineRe.findIter text) :
    IsSymbol (m.group 1) := by
  apply Pattern.good_of_mem_findIter (by decide) _ member
  simpa [defineRe, anyInLine, symbolRe, Pattern.Grabs, Pattern.cat, Pattern.plus]
    using ⟨rfl, fun word => Pattern.words_plus_chr.mp⟩

theorem black_forceAttribute {name : Text} (symbol : IsSymbol name) :
    Black whiteSpace (forceAttribute name) := by
  have opening : "--force-attribute=".toList.any whiteSpace = false := by decide
  have closing : ":alwaysinline".toList.any whiteSpace = false := by decide
  exact (black_whiteSpace symbol.black).surround opening closing

/-- The words that `opt` gets are the arguments that `force_inline` prints. -/
theorem marks_forceInline (keepFile text : Text) :
    marks (forceInline keepFile text) = (forceInline keepFile text).args := by
  rw [marks, splitWhitespace]
  apply fields_intercalate (by decide) (by decide)
  intro word member
  simp only [forceInline, List.mem_map, List.mem_filter] at member
  obtain ⟨name, ⟨⟨m, found, rfl⟩, -⟩, rfl⟩ := member
  exact black_forceAttribute (isSymbol_of_defineRe found)

theorem not_marked {around : Surroundings} {kept : List Text} {internalized listed name : Text}
    (member : listed ∈ kept ++ arenaSyms around.nm) (word : name ∈ splitWords listed) :
    forceAttribute name ∉ marks (around.forced kept internalized) := by
  intro marked
  rw [Surroundings.forced, marks_forceInline] at marked
  simp only [forceInline, List.mem_map, List.mem_filter] at marked
  obtain ⟨other, ⟨-, free⟩, same⟩ := marked
  rw [forceAttribute_injective same] at free
  have read := around.mem_noinlineFile.mpr ⟨listed, member, word⟩
  simp [read] at free

theorem runPasses_nil {host : Host} {name before after : Text} (none_ : passes host name = [])
    (ran : runPasses host (passes host name) before = .ok after) : after = before := by
  rw [none_] at ran
  cases ran
  rfl

theorem finalStage_ok {host : Host} {text final : Text} (ran : finalStage host text = .ok final) :
    ∃ cookie out, finalize cookie text = some out ∧ out.text = final ∧
      (trapMode host = "throw".toList →
        ∃ number, pyInt host.decimal (trapCookie host) = some number ∧ cookie = some number) ∧
      (trapMode host ≠ "throw".toList → cookie = none) := by
  unfold finalStage at ran
  split at ran
  · rename_i throws
    obtain ⟨number, isNumber, ran⟩ := Btf.ok_of_bind ran
    obtain ⟨out, finished, returned⟩ := Btf.ok_of_bind ran
    cases returned
    exact ⟨some number, out, run_ok finished, rfl, fun _ => ⟨number, run_ok isNumber, rfl⟩,
      fun other => absurd throws other⟩
  · rename_i other
    obtain ⟨out, finished, returned⟩ := Btf.ok_of_bind ran
    cases returned
    exact ⟨none, out, run_ok finished, rfl, fun throws => absurd throws other, fun _ => rfl⟩

theorem not_invoke_of_finalize {cookie : Option Int} {text : Text} {out : Finalized}
    (finished : finalize cookie text = some out) : invokeRe.search text = none := by
  unfold finalize at finished
  split at finished
  · cases finished
  · rename_i absent
    exact Option.not_isSome_iff_eq_none.mp absent

/-! ## A whole run -/

/-- What holds of the files of every link that gets as far as the code generator. -/
structure Linked (host : Host) (opts : Opts) (built : Built) : Prop where
  rust : ∀ bitcode, bitcode ∈ built.rust ↔ ∃ input ∈ opts.inputs, Supplies host input bitcode
  arena : ∃ directory ∈ opts.libDirs, ∃ listed,
    host.present (joinPath directory "libarena_c.a".toList) = true ∧
    host.ar (joinPath directory "libarena_c.a".toList) = some listed ∧
    ∀ bitcode, bitcode ∈ built.arena ↔
      isBitcode bitcode = true ∧ bitcode ∈ listed.map Prod.snd
  filled : built.rust ≠ [] ∧ built.arena ≠ []
  linked : ∃ bitcode, host.link (built.rust ++ built.arena) = some bitcode ∧
    host.dis bitcode = some built.linked
  kept : ∀ listed ∈ built.kept ++ arenaSyms built.nm, ∀ name ∈ splitWords listed,
    forceAttribute name ∉ built.marks
  references : passes host "ARENA_PRE_PASSES".toList = [] →
    ∀ name ∈ references built.lowered, name ∉ Linker.lowered
  cookie : trapMode host = "ret".toList ∨ trapMode host = "throw".toList →
    (pyInt host.decimal (trapCookie host)).isSome = true
  invokes : invokeRe.search built.trapped = none
  reachable : ∀ line ∈ splitLines built.final, ¬EndsUnreachable line
  compiled : host.llc opts.cpu built.final = some built.object

theorem bitcodes_ok {host : Host} {opts : Opts} {rust arena : List Bytes}
    (gathered : bitcodes host opts = .ok (rust, arena)) :
    gatherAll host opts.inputs = .ok rust ∧
      (∃ archive, arenaArchive host opts.libDirs = .ok archive ∧ extract host archive = .ok arena) ∧
      rust ≠ [] ∧ arena ≠ [] := by
  obtain ⟨first, isRust, ran⟩ := Btf.ok_of_bind gathered
  obtain ⟨archive, found, ran⟩ := Btf.ok_of_bind ran
  obtain ⟨second, extracted, ran⟩ := Btf.ok_of_bind ran
  split at ran
  · cases ran
  · rename_i filled
    cases ran
    exact ⟨isRust, ⟨archive, found, extracted⟩, not_or.mp filled⟩

theorem linked_of_build {host : Host} {opts : Opts} {built : Built}
    (ran : build host opts = .ok built) : Linked host opts built := by
  obtain ⟨⟨rust, arena⟩, gathered, ran⟩ := Btf.ok_of_bind ran
  obtain ⟨nm, -, ran⟩ := Btf.ok_of_bind ran
  obtain ⟨bitcode, isBitcode, ran⟩ := Btf.ok_of_bind ran
  obtain ⟨linked, isLinked, ran⟩ := Btf.ok_of_bind ran
  obtain ⟨kept, -, ran⟩ := Btf.ok_of_bind ran
  obtain ⟨lowered, isLowered, ran⟩ := Btf.ok_of_bind ran
  obtain ⟨internal, -, ran⟩ := Btf.ok_of_bind ran
  obtain ⟨internalized, -, ran⟩ := Btf.ok_of_bind ran
  obtain ⟨inlined, -, ran⟩ := Btf.ok_of_bind ran
  obtain ⟨printed, -, ran⟩ := Btf.ok_of_bind ran
  obtain ⟨optimized, -, ran⟩ := Btf.ok_of_bind ran
  obtain ⟨trapped, isTrapped, ran⟩ := Btf.ok_of_bind ran
  obtain ⟨final, isFinal, ran⟩ := Btf.ok_of_bind ran
  obtain ⟨object, compiled, returned⟩ := Btf.ok_of_bind ran
  cases returned
  obtain ⟨isRust, ⟨archive, found, extracted⟩, filled⟩ := bitcodes_ok gathered
  obtain ⟨present, directory, among, rfl⟩ := arenaArchive_ok found
  obtain ⟨listed, isListed, iff⟩ := mem_extract extracted
  obtain ⟨cookie, out, finished, rfl, throws, -⟩ := finalStage_ok isFinal
  constructor
  case rust => exact mem_gatherAll isRust
  case arena => exact ⟨directory, among, listed, present, isListed, iff⟩
  case filled => exact filled
  case linked => exact ⟨bitcode, run_ok isBitcode, run_ok isLinked⟩
  case kept => exact fun listed member name word => not_marked member word
  case references =>
    intro none_ name member
    change name ∈ Linker.references lowered at member
    rw [runPasses_nil none_ isLowered] at member
    exact not_lowered_of_mem_references member
  case cookie =>
    intro mode
    cases mode with
    | inl returns =>
        rw [trapStage, if_pos returns] at isTrapped
        obtain ⟨number, isNumber, -⟩ := Btf.ok_of_bind isTrapped
        exact Option.isSome_of_eq_some (run_ok isNumber)
    | inr mode =>
        obtain ⟨number, isNumber, -⟩ := throws mode
        exact Option.isSome_of_eq_some isNumber
  case invokes => exact not_invoke_of_finalize finished
  case reachable => exact reachable_iff.mp (.of_finalize finished)
  case compiled => exact run_ok compiled

theorem finish_outcome (host : Host) (disk : Disk) (built : Built) :
    (∃ death, (finish host disk built).1 = .error death ∧
      (finish host disk built).2 = { disk with temps := true }) ∨
    ∃ object, host.objcopy built.object = some object ∧
      (finish host disk built).2.output = some (Btf.fileAfter object) ∧
      ((finish host disk built).1 = .ok () ↔ ∃ outcome, Btf.main object = .ok outcome) ∧
      ((finish host disk built).2.temps = true ↔ (finish host disk built).1 = .ok () →
        (envv host.env "ARENA_LINKER_KEEP_TEMPS".toList).isSome = true) := by
  cases copied : host.objcopy built.object with
  | none => exact Or.inl ⟨_, by rw [finish, copied], by rw [finish, copied]⟩
  | some object =>
      refine Or.inr ⟨object, rfl, ?_⟩
      cases renamed : Btf.main object with
      | error error => simp [finish, copied, renamed, Btf.fileAfter]
      | ok outcome => simp [finish, copied, renamed]

/-- The output is touched only by a link that came through every step up to `objcopy`, whose
files are as they should be, and then it is that object with its names rewritten, or as it is
if `btf_rename` fails.  A link that fails behind its arguments leaves its directory, one that
succeeds only if asked to. -/
theorem main_outcome (host : Host) (disk : Disk) :
    (∃ death, (main host disk).1 = .error death ∧ (main host disk).2.output = disk.output ∧
      ∀ parsed, parseArgs host.response host.args = .ok parsed →
        (main host disk).2.temps = true) ∨
    ∃ parsed built object, parseArgs host.response host.args = .ok parsed ∧
      build host parsed.opts = .ok built ∧ Linked host parsed.opts built ∧ host.objcopy built.object = some object ∧
      (main host disk).2.output = some (Btf.fileAfter object) ∧
      ((main host disk).1 = .ok () ↔ ∃ outcome, Btf.main object = .ok outcome) ∧
      ((main host disk).2.temps = true ↔ (main host disk).1 = .ok () →
        (envv host.env "ARENA_LINKER_KEEP_TEMPS".toList).isSome = true) := by
  cases parsing : parseArgs host.response host.args with
  | error reason =>
      have stopped : main host disk = (.error (.message reason), disk) := by rw [main, parsing]
      rw [stopped]
      exact Or.inl ⟨_, rfl, rfl, fun parsed accepted => nomatch accepted⟩
  | ok parsed =>
      cases building : build host parsed.opts with
      | error death =>
          have stopped : main host disk = (.error death, { disk with temps := true }) := by
            rw [main, parsing]
            simp only [building]
          rw [stopped]
          exact Or.inl ⟨_, rfl, rfl, fun _ _ => rfl⟩
      | ok built =>
          have finishes : main host disk = finish host disk built := by
            rw [main, parsing]
            simp only [building]
          rw [finishes]
          rcases finish_outcome host disk built with ⟨death, died, left⟩ | ⟨object, copied, left⟩
          · exact Or.inl ⟨death, died, by rw [left], fun _ _ => by rw [left]⟩
          · exact Or.inr ⟨parsed, built, object, rfl, building, linked_of_build building, copied, left⟩

end LibarenaRs.Linker
