import LibarenaRs.Regex.Fields
import Mathlib.Data.List.Induction

/-!
# The command line of the linker

`parse_args` reads words from left to right, those of response files in the place of
the file's name.  What it accepts is a sequence of items, each with its own effect.
-/

namespace LibarenaRs.Linker

open LibarenaRs.Regex

structure Opts where
  inputs : List Text
  libDirs : List Text
  exportSymbols : Option Text
  output : Text
  cpu : Text
  deriving DecidableEq, Repr

/-- The options, and the flags that were reported and ignored. -/
structure Parsed where
  opts : Opts
  ignored : List Text
  deriving DecidableEq, Repr

def Parsed.start : Parsed := ⟨⟨[], [], none, [], "v4".toList⟩, []⟩

/-- `char::is_whitespace` -/
def whiteSpace (c : Char) : Bool :=
  (9 ≤ c.toNat && c.toNat ≤ 13) || (0x2000 ≤ c.toNat && c.toNat ≤ 0x200a) ||
  [0x20, 0x85, 0xa0, 0x1680, 0x2028, 0x2029, 0x202f, 0x205f, 0x3000].contains c.toNat

/-- `str::split_whitespace` -/
def splitWhitespace (text : Text) : List Text := fields whiteSpace text

/-! ## Reading words -/

/-- The flags whose value is the next word. -/
inductive Flag where
  | output
  | libDir
  | lib
  | cpu
  | cpuFeatures
  | exportSymbols
  deriving DecidableEq, Repr

def Flag.all : List Flag := [.output, .libDir, .lib, .cpu, .cpuFeatures, .exportSymbols]

def Flag.word : Flag → Text
  | .output => "-o".toList
  | .libDir => "-L".toList
  | .lib => "-l".toList
  | .cpu => "--cpu".toList
  | .cpuFeatures => "--cpu-features".toList
  | .exportSymbols => "--export-symbols".toList

def Flag.set (value : Text) (parsed : Parsed) : Flag → Parsed
  | .output => { parsed with opts := { parsed.opts with output := value } }
  | .libDir => { parsed with opts := { parsed.opts with libDirs := parsed.opts.libDirs ++ [value] } }
  | .lib => parsed
  | .cpu => { parsed with opts := { parsed.opts with cpu := value } }
  | .cpuFeatures => parsed
  | .exportSymbols => { parsed with opts := { parsed.opts with exportSymbols := some value } }

/-- Flags that say nothing to this linker. -/
def quietFlags : List Text :=
  ["--debug".toList, "-O0".toList, "-O1".toList, "-O2".toList, "-O3".toList, "-Os".toList,
    "-Oz".toList]

/-- A word that is no flag with a value. -/
def readWord (word : Text) (parsed : Parsed) : Parsed :=
  if quietFlags.contains word then parsed
  else if "-L".toList.isPrefixOf word then Flag.libDir.set (word.drop 2) parsed
  else if "-l".toList.isPrefixOf word then parsed
  else if "--cpu=".toList.isPrefixOf word then Flag.cpu.set (word.drop 6) parsed
  else if "-".toList.isPrefixOf word then { parsed with ignored := parsed.ignored ++ [word] }
  else { parsed with opts := { parsed.opts with inputs := parsed.opts.inputs ++ [word] } }

def flagOf (word : Text) : Option Flag := Flag.all.find? fun flag => flag.word = word

def missingValue : Text := "missing argument value".toList

def parseLoop : List Text → Parsed → Except Text Parsed
  | [], parsed => .ok parsed
  | word :: words, parsed =>
      match flagOf word with
      | some flag =>
          match words with
          | [] => .error missingValue
          | value :: words => parseLoop words (flag.set value parsed)
      | none => parseLoop words (readWord word parsed)

/-- The words of the command line, given what reading a file results in. -/
def expand (files : Text → Except Text Text) : List Text → Except Text (List Text)
  | [] => .ok []
  | ('@' :: file) :: args =>
      match files file with
      | .error reason => .error (file ++ ": ".toList ++ reason)
      | .ok text => (expand files args).map (splitWhitespace text ++ ·)
  | arg :: args => (expand files args).map (arg :: ·)

def noOutput : Text := "no -o output".toList

/-- `parse_args`; an error is what the linker dies with. -/
def parseArgs (files : Text → Except Text Text) (args : List Text) : Except Text Parsed :=
  match expand files args with
  | .error reason => .error reason
  | .ok words =>
      match parseLoop words Parsed.start with
      | .error reason => .error reason
      | .ok parsed => if parsed.opts.output = [] then .error noOutput else .ok parsed

/-! ## Items -/

/-- A flag with its value, or a word for itself. -/
inductive Argument where
  | setting (flag : Flag) (value : Text)
  | plain (word : { word : Text // flagOf word = none })
  deriving DecidableEq

namespace Argument

def words : Argument → List Text
  | .setting flag value => [flag.word, value]
  | .plain word => [word.val]

def read (parsed : Parsed) : Argument → Parsed
  | .setting flag value => flag.set value parsed
  | .plain word => readWord word.val parsed

/-- The file to link that an item names. -/
def input : Argument → Option Text
  | .setting _ _ => none
  | .plain word => if "-".toList.isPrefixOf word.val then none else some word.val

def libDir : Argument → Option Text
  | .setting flag value => if flag = .libDir then some value else none
  | .plain word => if "-L".toList.isPrefixOf word.val then some (word.val.drop 2) else none

def cpu : Argument → Option Text
  | .setting flag value => if flag = .cpu then some value else none
  | .plain word => if "--cpu=".toList.isPrefixOf word.val then some (word.val.drop 6) else none

/-- The value an item gives to a flag that has no other spelling. -/
def given (wanted : Flag) : Argument → Option Text
  | .setting flag value => if flag = wanted then some value else none
  | .plain _ => none

/-- The word of an item that is reported and ignored. -/
def unknown : Argument → Option Text
  | .setting _ _ => none
  | .plain word =>
      if quietFlags.contains word.val || "-L".toList.isPrefixOf word.val ||
        "-l".toList.isPrefixOf word.val || "--cpu=".toList.isPrefixOf word.val ||
        !"-".toList.isPrefixOf word.val then none else some word.val

/-- What items say together: lists are collected, the last of single values holds. -/
def summary (items : List Argument) : Parsed where
  opts :=
    { inputs := items.filterMap input
      libDirs := items.filterMap libDir
      exportSymbols := (items.filterMap (given .exportSymbols)).getLast?
      output := (items.filterMap (given .output)).getLast?.getD []
      cpu := (items.filterMap cpu).getLast?.getD "v4".toList }
  ignored := items.filterMap unknown

end Argument

theorem flagOf_word (flag : Flag) : flagOf flag.word = some flag := by
  cases flag <;> decide

theorem parseLoop_arguments (items : List Argument) (rest : List Text) (parsed : Parsed) :
    parseLoop (items.flatMap Argument.words ++ rest) parsed =
      parseLoop rest (items.foldl Argument.read parsed) := by
  induction items generalizing parsed with
  | nil => rfl
  | cons item items inductionHypothesis =>
      rw [List.flatMap_cons, List.append_assoc, List.foldl_cons, ← inductionHypothesis]
      cases item with
      | setting flag value =>
          rw [Argument.words, List.cons_append, List.singleton_append, parseLoop, flagOf_word]
          rfl
      | plain word =>
          rw [Argument.words, List.singleton_append, parseLoop, word.property]
          rfl

/-- Any words are items, but for a flag at the end that misses its value. -/
theorem arguments_cover (words : List Text) : ∃ items : List Argument,
    words = items.flatMap Argument.words ∨
      ∃ flag : Flag, words = items.flatMap Argument.words ++ [flag.word] := by
  induction same : words.length using Nat.strong_induction_on generalizing words with
  | _ count inductionHypothesis =>
      cases words with
      | nil => exact ⟨[], Or.inl rfl⟩
      | cons word words =>
          have onward : ∀ (item : Argument) (rest : List Text), rest.length < count →
              word :: words = item.words ++ rest → ∃ items : List Argument,
                word :: words = items.flatMap Argument.words ∨
                  ∃ flag : Flag, word :: words = items.flatMap Argument.words ++ [flag.word] := by
            intro item rest shorter split
            obtain ⟨items, whole | ⟨flag, whole⟩⟩ := inductionHypothesis rest.length shorter rest rfl
            · exact ⟨item :: items, Or.inl (by rw [split, whole, List.flatMap_cons])⟩
            · refine ⟨item :: items, Or.inr ⟨flag, ?_⟩⟩
              rw [split, whole, List.flatMap_cons, List.append_assoc]
          rw [List.length_cons] at same
          cases known : flagOf word with
          | none =>
              exact onward (.plain ⟨word, known⟩) words (by omega) rfl
          | some flag =>
              have named : flag.word = word := by
                simpa using List.find?_some known
              cases words with
              | nil => exact ⟨[], Or.inr ⟨flag, by rw [named]; rfl⟩⟩
              | cons value words =>
                  rw [List.length_cons] at same
                  exact onward (.setting flag value) words (by omega)
                    (by rw [Argument.words, named]; rfl)

/-- The loop ends well on sequences of items, and does what they say one by one. -/
theorem parseLoop_iff {words : List Text} {start parsed : Parsed} :
    parseLoop words start = .ok parsed ↔
      ∃ items : List Argument, words = items.flatMap Argument.words ∧
        items.foldl Argument.read start = parsed := by
  constructor
  · intro finished
    obtain ⟨items, rfl | ⟨flag, rfl⟩⟩ := arguments_cover words
    · have read := parseLoop_arguments items [] start
      rw [List.append_nil, finished] at read
      exact ⟨items, rfl, (Except.ok.inj read).symm⟩
    · rw [parseLoop_arguments, parseLoop, flagOf_word] at finished
      cases finished
  · rintro ⟨items, rfl, rfl⟩
    have read := parseLoop_arguments items [] start
    rwa [List.append_nil] at read

/-! ## What a command line says -/

theorem filterMap_snoc {α β : Type} (wanted : α → Option β) (items : List α) (item : α) :
    (items ++ [item]).filterMap wanted = items.filterMap wanted ++ (wanted item).toList := by
  rw [List.filterMap_append]
  cases found : wanted item <;> simp [found]

theorem getLast?_append_toList {α : Type} (values : List α) (value : Option α) :
    (values ++ value.toList).getLast? = value.or values.getLast? := by
  cases value <;> simp

/-- A word that starts with a longer text than a dash starts with a dash. -/
theorem dash_of_isPrefixOf {start word : Text} (dashed : "-".toList.isPrefixOf start = true)
    (starts : start.isPrefixOf word = true) : "-".toList.isPrefixOf word = true := by
  rw [List.isPrefixOf_iff_prefix] at dashed starts ⊢
  exact dashed.trans starts

/-- Of two texts that part, a word starts with one at most. -/
theorem not_isPrefixOf_of {one two word : Text} (forward : one.isPrefixOf two = false)
    (backward : two.isPrefixOf one = false) (starts : one.isPrefixOf word = true) :
    two.isPrefixOf word = false := by
  rw [Bool.eq_false_iff, Ne, List.isPrefixOf_iff_prefix] at forward backward ⊢
  intro other
  cases List.prefix_or_prefix_of_prefix (List.isPrefixOf_iff_prefix.mp starts) other with
  | inl shorter => exact forward shorter
  | inr shorter => exact backward shorter

namespace Argument

theorem readWord_eq (parsed : Parsed) (word : { word : Text // flagOf word = none }) :
    readWord word.val parsed =
      { opts :=
          { parsed.opts with
            inputs := parsed.opts.inputs ++ (input (.plain word)).toList
            libDirs := parsed.opts.libDirs ++ (libDir (.plain word)).toList
            cpu := (cpu (.plain word)).getD parsed.opts.cpu }
        ignored := parsed.ignored ++ (unknown (.plain word)).toList } := by
  have quiet_flags : ∀ flag ∈ quietFlags, "-".toList.isPrefixOf flag = true ∧
      "-L".toList.isPrefixOf flag = false ∧ "--cpu=".toList.isPrefixOf flag = false := by
    decide
  unfold readWord input libDir cpu unknown
  cases quiet : quietFlags.contains word.val with
  | true =>
      obtain ⟨dash, library, processor⟩ := quiet_flags word.val (List.contains_iff_mem.mp quiet)
      simp only [quiet, dash, library, processor]
      simp
  | false =>
      cases library : "-L".toList.isPrefixOf word.val with
      | true =>
          have dash := dash_of_isPrefixOf (by decide) library
          have processor := @not_isPrefixOf_of _ "--cpu=".toList _ (by decide) (by decide) library
          simp only [quiet, library, dash, processor, Flag.set]
          simp
      | false =>
          cases named : "-l".toList.isPrefixOf word.val with
          | true =>
              have dash := dash_of_isPrefixOf (by decide) named
              have processor := @not_isPrefixOf_of _ "--cpu=".toList _ (by decide) (by decide) named
              simp only [quiet, library, named, dash, processor]
              simp
          | false =>
              cases processor : "--cpu=".toList.isPrefixOf word.val with
              | true =>
                  have dash := dash_of_isPrefixOf (by decide) processor
                  simp only [quiet, library, named, processor, dash, Flag.set]
                  simp
              | false =>
                  simp only [quiet, library, named, processor]
                  cases "-".toList.isPrefixOf word.val <;> simp

/-- What reading an item changes. -/
theorem read_eq (parsed : Parsed) (item : Argument) :
    read parsed item =
      { opts :=
          { inputs := parsed.opts.inputs ++ (input item).toList
            libDirs := parsed.opts.libDirs ++ (libDir item).toList
            exportSymbols := (given .exportSymbols item).or parsed.opts.exportSymbols
            output := (given .output item).getD parsed.opts.output
            cpu := (cpu item).getD parsed.opts.cpu }
        ignored := parsed.ignored ++ (unknown item).toList } := by
  cases item with
  | setting flag value =>
      cases flag <;> simp [read, Flag.set, input, libDir, cpu, given, unknown]
  | plain word =>
      exact readWord_eq parsed word

theorem summary_snoc (items : List Argument) (item : Argument) :
    summary (items ++ [item]) = read (summary items) item := by
  simp only [read_eq, summary, filterMap_snoc, getLast?_append_toList]
  cases given .output item <;> cases cpu item <;> rfl

theorem foldl_read (items : List Argument) :
    items.foldl read Parsed.start = summary items := by
  induction items using List.reverseRecOn with
  | nil => rfl
  | append_singleton items item inductionHypothesis =>
      rw [List.foldl_append, inductionHypothesis, summary_snoc, List.foldl_cons, List.foldl_nil]

end Argument

/-- A command line is accepted just when its words are items that name an output, and it
says what the items say. -/
theorem parseArgs_iff (files : Text → Except Text Text) (args : List Text) (parsed : Parsed) :
    parseArgs files args = .ok parsed ↔
      ∃ items : List Argument, expand files args = .ok (items.flatMap Argument.words) ∧
        parsed = Argument.summary items ∧ parsed.opts.output ≠ [] := by
  constructor
  · intro accepted
    unfold parseArgs at accepted
    cases expanded : expand files args with
    | error reason =>
        rw [expanded] at accepted
        cases accepted
    | ok words =>
        cases finished : parseLoop words Parsed.start with
        | error reason =>
            simp only [expanded, finished] at accepted
            cases accepted
        | ok read =>
            simp only [expanded, finished] at accepted
            split at accepted
            · cases accepted
            · rename_i named
              cases accepted
              obtain ⟨items, rfl, said⟩ := parseLoop_iff.mp finished
              exact ⟨items, rfl, said.symm.trans (Argument.foldl_read items), named⟩
  · rintro ⟨items, expanded, rfl, named⟩
    have finished := parseLoop_iff.mpr ⟨items, rfl, Argument.foldl_read items⟩
    simp only [parseArgs, expanded, finished, if_neg named]

end LibarenaRs.Linker
