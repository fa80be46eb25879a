import LibarenaRs.Linker.Arguments
import LibarenaRs.Linker.Entries
import LibarenaRs.Regex.Captures

/-!
# The linker's lists of symbols

`main` reads libarena's symbols off the output of `llvm-nm`, asks `keep_syms` for the
symbols that stay global, and gives both to `force_inline` as the functions to leave
alone.  The lists travel through files, one name a line.
-/

namespace LibarenaRs.Linker

open LibarenaRs.Regex LibarenaRs.Llvm

/-! ## The source -/

/-- What `main` finds outside: the environment, the file of `--export-symbols` if one is
named and can be read, and what `llvm-nm` prints. -/
structure Surroundings where
  env : Text → Option Text
  exported : Option Text
  nm : Text

/-- A variable that is set to nothing counts as not set. -/
def envv (env : Text → Option Text) (name : Text) : Option Text :=
  (env name).filter fun value => value ≠ []

def stripReturn (line : Text) : Text :=
  if line.getLast? = some '\r' then line.dropLast else line

/-- `str::lines`: an empty last line is none, and one that no newline ends keeps its `\r`. -/
def lines (text : Text) : List Text :=
  (splitLines text).dropLast.map stripReturn ++
    ((splitLines text).getLast?.filter fun line => line ≠ []).toList

/-- The symbol of a line of `llvm-nm`; the kind is looked for as a part of `TtWw`. -/
def nmSymbol (line : Text) : Option Text :=
  match splitWhitespace line with
  | _ :: kind :: name :: _ => if kind <:+: "TtWw".toList then some name else none
  | _ => none

def glueSymbols : List Text :=
  ["bpf_arena_memcpy".toList, "bpf_arena_memcmp".toList, "bpf_arena_memset".toList,
    "memset".toList]

def sorted (names : List Text) : List Text :=
  names.mergeSort fun first second => decide (first ≤ second)

/-- `Vec::dedup` -/
def dedup : List Text → List Text
  | name :: other :: names =>
      if name = other then dedup (other :: names) else name :: dedup (other :: names)
  | names => names

def arenaSyms (nm : Text) : List Text :=
  dedup (sorted (((lines nm).filterMap nmSymbol).filter fun name => !glueSymbols.contains name))

/-- The contents of a file that lists names. -/
def listFile (names : List Text) : Text := joinLines names ++ ['\n']

namespace Surroundings

variable (around : Surroundings)

/-- `extra` -/
def extra : List Text :=
  splitWhitespace (around.exported.getD []) ++
    splitWhitespace ((envv around.env "KEEP_EXTRA".toList).getD [])

def dropVoidGlobals : Bool :=
  (envv around.env "VOID_GLOBALS".toList).getD "internalize".toList = "internalize".toList

/-- How `keep_syms` is called, if `argparse` takes no word for an option. -/
def keepOptions : Option KeepOptions :=
  if around.extra.any (headIs (· == '-')) then none
  else
    some ⟨some (listFile (arenaSyms around.nm)), around.extra, around.dropVoidGlobals⟩

/-- The words of what `keep_syms` prints. -/
def keep (linked : Text) : Option (List Text) :=
  around.keepOptions.map fun options => splitWhitespace (listFile (keepSyms options linked))

/-- `noinline.txt` -/
def noinlineFile (kept : List Text) : Text := listFile (dedup (sorted (kept ++ arenaSyms around.nm)))

/-- What `force_inline` makes of the module that `opt` internalized. -/
def forced (kept : List Text) (internalized : Text) : ForceInline :=
  forceInline (around.noinlineFile kept) internalized

end Surroundings

/-! ## Lists through files -/

theorem mem_dedup {names : List Text} {name : Text} : name ∈ dedup names ↔ name ∈ names := by
  induction names with
  | nil => rfl
  | cons first names inductionHypothesis =>
      cases names with
      | nil => rfl
      | cons second names =>
          rw [dedup]
          split
          · rename_i same
            rw [inductionHypothesis, List.mem_cons, List.mem_cons, List.mem_cons, same]
            tauto
          · rw [List.mem_cons, inductionHypothesis, ← List.mem_cons]

theorem mem_sorted {names : List Text} {name : Text} : name ∈ sorted names ↔ name ∈ names :=
  List.mem_mergeSort

theorem fields_listFile {white : Char → Bool} (space : white '\n' = true) (names : List Text) :
    fields white (listFile names) = names.flatMap (fields white) := by
  induction names with
  | nil =>
      have alone := fields_append_white space [] []
      rwa [fields_nil] at alone
  | cons name names inductionHypothesis =>
      cases names with
      | nil =>
          rw [listFile, joinLines_singleton, fields_append_white space, fields_nil]
          simp
      | cons other names =>
          rw [listFile, joinLines_cons_cons, List.append_assoc, List.cons_append,
            fields_append_white space, ← listFile, inductionHypothesis, ← List.flatMap_cons]

theorem flatMap_fields_black {white : Char → Bool} {names : List Text}
    (black : ∀ name ∈ names, Black white name) : names.flatMap (fields white) = names := by
  induction names with
  | nil => rfl
  | cons name names inductionHypothesis =>
      rw [List.flatMap_cons, fields_black (black name List.mem_cons_self),
        inductionHypothesis fun other member => black other (List.mem_cons_of_mem _ member)]
      rfl

theorem splitWords_eq_fields (text : Text) : splitWords text = fields isSpace text := rfl

/-- What is white space for the linker is white space for the scripts, too. -/
theorem isSpace_of_whiteSpace {c : Char} (white : whiteSpace c = true) : isSpace c = true := by
  simp only [whiteSpace, isSpace, Bool.or_eq_true, Bool.and_eq_true, decide_eq_true_eq,
    List.contains_cons, List.contains_nil, beq_iff_eq, Bool.or_false] at *
  omega

theorem black_whiteSpace {word : Text} (black : Black isSpace word) : Black whiteSpace word := by
  refine ⟨black.filled, List.any_eq_false.mpr ?_⟩
  intro c member white
  have rejected := black.rejects member
  rw [isSpace_of_whiteSpace white] at rejected
  cases rejected

theorem isSpace_symbolChar {c : Char} (symbol : symbolChar c = true) : isSpace c = false := by
  rw [← Bool.not_eq_true]
  intro white
  have noWord := isWord_of_isSpace white
  rw [isWord] at noWord
  rw [symbolChar, noWord, Bool.false_or, Bool.or_eq_true, beq_iff_eq, beq_iff_eq] at symbol
  cases symbol with
  | inl dot =>
      rw [dot] at white
      cases white
  | inr dollar =>
      rw [dollar] at white
      cases white

/-- A word that a scan for symbols captures. -/
def IsSymbol (word : Text) : Prop := word ≠ [] ∧ ∀ c ∈ word, symbolChar c = true

theorem IsSymbol.black {word : Text} (symbol : IsSymbol word) : Black isSpace word := by
  refine ⟨symbol.1, List.any_eq_false.mpr ?_⟩
  intro c member
  rw [isSpace_symbolChar (symbol.2 c member)]
  exact Bool.false_ne_true

theorem isSymbol_of_sectionedRe {text : Text} {m : Match} (member : m ∈ sectionedRe.findIter text) :
    IsSymbol (m.group 1) := by
  apply Pattern.good_of_mem_findIter (by decide) _ member
  simpa [sectionedRe, keywordRe, anyInLine, symbolRe, sectionRe, contentRe, Pattern.Grabs,
    Pattern.cat, Pattern.plus] using ⟨rfl, fun word => Pattern.words_plus_chr.mp⟩

theorem isSymbol_of_globalRe {text : Text} {m : Match} (member : m ∈ globalRe.findIter text) :
    IsSymbol (m.group 1) := by
  apply Pattern.good_of_mem_findIter (by decide) _ member
  simpa [globalRe, globalNameRe, anyInLine, sectionRe, contentRe, Pattern.Grabs, Pattern.cat,
    Pattern.plus] using ⟨rfl, fun word => Pattern.words_plus_chr.mp⟩

namespace Surroundings

variable (around : Surroundings)

theorem keepOptions_eq_some {options : KeepOptions} (called : around.keepOptions = some options) :
    options = ⟨some (listFile (arenaSyms around.nm)), around.extra, around.dropVoidGlobals⟩ := by
  rw [keepOptions] at called
  split at called
  · cases called
  · exact (Option.some.inj called).symm

/-- The list of `keep_syms` survives its way through the linker's words. -/
theorem keep_eq {linked : Text} {kept : List Text} (asked : around.keep linked = some kept) :
    kept = keepSyms ⟨some (listFile (arenaSyms around.nm)), around.extra, around.dropVoidGlobals⟩
      linked := by
  obtain ⟨options, called, rfl⟩ := Option.map_eq_some_iff.mp asked
  rw [around.keepOptions_eq_some called, splitWhitespace, fields_listFile rfl]
  apply flatMap_fields_black
  intro name member
  have added_ := (mem_keepSyms.mp member).1
  simp only [added, List.mem_append, List.mem_map] at added_
  rcases added_ with ((extra | ⟨m, found, rfl⟩) | ⟨m, found, rfl⟩) | listed
  · cases List.mem_append.mp extra with
    | inl exported => exact black_of_mem_fields exported
    | inr variable_ => exact black_of_mem_fields variable_
  · exact black_whiteSpace (isSymbol_of_sectionedRe found).black
  · exact black_whiteSpace (isSymbol_of_globalRe (List.mem_of_mem_filter found)).black
  · exact black_whiteSpace (black_of_mem_fields listed)

theorem mem_nmWords {extra : List Text} {drop : Bool} {name : Text} :
    name ∈ (KeepOptions.nmWords ⟨some (listFile (arenaSyms around.nm)), extra, drop⟩) ↔
      ∃ symbol ∈ arenaSyms around.nm, name ∈ splitWords symbol := by
  change name ∈ fields isSpace (listFile (arenaSyms around.nm)) ↔ _
  rw [fields_listFile rfl, List.mem_flatMap]
  rfl

/-- What `force_inline` reads as names to leave alone. -/
theorem mem_noinlineFile {kept : List Text} {name : Text} :
    name ∈ splitWords (around.noinlineFile kept) ↔
      ∃ listed ∈ kept ++ arenaSyms around.nm, name ∈ splitWords listed := by
  rw [noinlineFile, splitWords_eq_fields, fields_listFile rfl, List.mem_flatMap]
  simp only [mem_dedup, mem_sorted]
  rfl

end Surroundings

/-- Where no word that is asked for starts like an option, the linker keeps global what the
patterns of `keep_syms` read as having a section, what it is asked for and libarena's symbols,
but for what they read as a function that returns void where those are dropped; and it has
every function inlined that `force_inline` reads and that is neither kept nor libarena's,
whether or not libarena's stay global.  A symbol stands for the words that the scripts make
of it. -/
theorem symbol_lists (around : Surroundings) (linked internalized : Module) {kept : List Text}
    (asked : around.keep linked.text = some kept) (name : Text) :
    (name ∈ kept ↔
      (name ∈ around.extra ∨ (∃ symbol ∈ arenaSyms around.nm, name ∈ splitWords symbol) ∨
        SectionFound linked name ∨ GlobalFound linked name) ∧
      (around.dropVoidGlobals = true → ¬VoidFound linked name)) ∧
    (forceAttribute name ∈ (around.forced kept internalized.text).args ↔
      (∃ header ∈ internalized.functions, ReadAs header name) ∧
      ∀ listed ∈ kept ++ arenaSyms around.nm, name ∉ splitWords listed) := by
  constructor
  · rw [around.keep_eq asked, mem_keepSyms_text, named_iff, voidNamed_iff, Found, around.mem_nmWords]
  · rw [Surroundings.forced, mem_forceInline_args, around.mem_noinlineFile]
    simp only [symbolIn_print_eq_some, not_exists, not_and]

/-- `KEEP_EXTRA=probe` and nothing else. -/
def probeAsked : Surroundings where
  env name := if name = "KEEP_EXTRA".toList then some "probe".toList else none
  exported := none
  nm := []

/-- `define i32 @helper() {` -/
def helperFunction : Header :=
  { dollarFunction with name := "helper".toList, named := by decide, returns := .int 32 }

theorem symbol_lists_probeAsked :
    forceAttribute "helper".toList ∈
      (probeAsked.forced ["probe".toList] (Module.text [.function helperFunction []])).args := by
  have asked : probeAsked.keep (Module.text [.function helperFunction []]) = some ["probe".toList] := by
    decide +kernel
  have lists := symbol_lists probeAsked [.function helperFunction []] [.function helperFunction []]
    asked "helper".toList
  refine lists.2.mpr ⟨⟨helperFunction, List.mem_singleton_self _, Or.inl ⟨?_, rfl⟩⟩, ?_⟩
  · decide
  · decide +kernel

end LibarenaRs.Linker
