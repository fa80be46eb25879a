import LibarenaRs.Linker.ForceInline
import LibarenaRs.Linker.SectionScans
import Mathlib.Data.List.Lex
import Mathlib.Data.Char

/-!
# The keep list

`keep_syms` collects the names of functions and global variables with a section
and adds those it is given.  Asked to, it takes the names of externally visible
functions that return void out again, whatever put them in.
-/

namespace LibarenaRs.Linker

open LibarenaRs.Regex LibarenaRs.Llvm

/-! ## The script -/

/-- `internal\b|private\b` -/
def localRe : Pattern :=
  .alt (.seq (.lit "internal".toList) .wordBoundary) (.seq (.lit "private".toList) .wordBoundary)

/-- `\bvoid @([A-Za-z0-9_.$]+)\(` -/
def voidSymbolRe : Pattern := .seq .wordBoundary (.seq (.lit "void ".toList) symbolRe)

/-- `^define\s(?!internal\b|private\b)[^\n]*?\bvoid @([A-Za-z0-9_.$]+)\(` -/
def voidRe : Pattern :=
  keywordRe "define".toList (.seq (.notAhead localRe) (.seq anyInLine voidSymbolRe))

structure KeepOptions where
  /-- The contents of the file, if one is named. -/
  nmList : Option Text
  extra : List Text
  dropVoidGlobals : Bool

def KeepOptions.nmWords (options : KeepOptions) : List Text :=
  (options.nmList.map splitWords).getD []

/-- Sections of this name are for the compiler only. -/
def metadataSection : Text := "llvm.metadata".toList

/-- What is added to the list, in the order in which it is added. -/
def added (options : KeepOptions) (text : Text) : List Text :=
  options.extra ++
    ((sectionedRe.findIter text).map fun m => m.group 1) ++
    (((globalRe.findIter text).filter fun m => m.group 2 != metadataSection).map
      fun m => m.group 1) ++
    options.nmWords

/-- What is taken out again. -/
def discarded (options : KeepOptions) (text : Text) : List Text :=
  if options.dropVoidGlobals then (voidRe.findIter text).map fun m => m.group 1 else []

/-- The list that the script prints, one name a line. -/
def keepSyms (options : KeepOptions) (text : Text) : List Text :=
  ((added options text).eraseDups.filter
    fun name => !(discarded options text).contains name).mergeSort fun first second =>
      decide (first ≤ second)

theorem mem_keepSyms {options : KeepOptions} {text name : Text} :
    name ∈ keepSyms options text ↔ name ∈ added options text ∧ name ∉ discarded options text := by
  rw [keepSyms, List.mem_mergeSort, List.mem_filter, List.mem_eraseDups]
  simp

/-! ## The scan for functions that return void -/

def startsWord (word text : Text) : Bool :=
  match text.dropPrefix? word with
  | some left => !headIs isWord left
  | none => false

/-- The text starts with the keyword of a linkage that hides the function. -/
def startsLocal (text : Text) : Bool :=
  startsWord "internal".toList text || startsWord "private".toList text

/-- The symbol behind `void ` at a place that starts a word. -/
def voidHere (past text : Text) : Option (Text × Text) :=
  if headIs isWord past then none else (text.dropPrefix? "void ".toList).bind symbolHere

/-- The name read from a signature line as that of a visible function that returns void. -/
def voidIn (text : Text) : Option Text :=
  if startsLocal text then none else (places voidHere [' '] text).head?.map Prod.fst

theorem isSome_run_word {word : Text} (ends : headIs isWord word.reverse = true)
    (past text : Text) :
    ((Pattern.seq (.lit word) .wordBoundary).run some ⟨past, text, []⟩).isSome =
      startsWord word text := by
  by_cases present : word <+: text
  · obtain ⟨left, rfl⟩ := present
    have behind : headIs isWord (word.reverse ++ past) = true := by
      cases reversed : word.reverse with
      | nil =>
          rw [reversed] at ends
          cases ends
      | cons c others =>
          rw [reversed] at ends
          exact ends
    rw [Pattern.run_seq, Pattern.run_lit_append, Pattern.run_wordBoundary, behind, startsWord,
      dropPrefix?_append]
    cases left with
    | nil => rfl
    | cons c left =>
        change (if (true != isWord c) = true then _ else none).isSome = !isWord c
        cases isWord c <;> rfl
  · rw [Pattern.run_seq, Pattern.run_lit_absent _ present, startsWord,
      dropPrefix?_eq_none.mpr present]
    rfl

theorem isSome_run_localRe (past text : Text) :
    (localRe.run some ⟨past, text, []⟩).isSome = startsLocal text := by
  have internal := @isSome_run_word "internal".toList (by decide) past text
  have private_ := @isSome_run_word "private".toList (by decide) past text
  rw [startsLocal, ← internal, ← private_, localRe, Pattern.run_alt]
  cases (Pattern.seq (.lit "internal".toList) .wordBoundary).run some ⟨past, text, []⟩ <;> rfl

section Run

variable {Answer : Type} {next : Cursor → Option Answer} {past text : Text}
  {groups : List (Nat × Text)}

theorem run_voidSymbolRe :
    ∃ before, voidSymbolRe.run next ⟨past, text, groups⟩ =
      match voidHere past text with
      | some place => next ⟨before, place.2, (1, place.1) :: groups⟩
      | none => none := by
  by_cases present : "void ".toList <+: text
  · obtain ⟨left, split⟩ := present
    have ahead : headIs isWord text = true := by
      rw [← split]
      rfl
    rw [voidSymbolRe, Pattern.run_seq, Pattern.run_wordBoundary, ahead, voidHere, ← split,
      dropPrefix?_append]
    cases headIs isWord past with
    | true => exact ⟨[], rfl⟩
    | false =>
        rw [if_pos (by decide), Pattern.run_seq, Pattern.run_lit_append, run_symbolRe,
          if_neg (by simp), Option.bind_some]
        cases symbolHere left with
        | none => exact ⟨[], rfl⟩
        | some place => exact ⟨_, rfl⟩
  · have nothing : voidHere past text = none := by
      rw [voidHere, dropPrefix?_eq_none.mpr present]
      split <;> rfl
    rw [nothing, voidSymbolRe, Pattern.run_seq, Pattern.run_wordBoundary]
    refine ⟨[], ?_⟩
    split
    · exact Pattern.run_lit_absent _ present
    · rfl

end Run

theorem voidHere_eq_some {past text : Text} {place : Text × Text}
    (found : voidHere past text = some place) :
    headIs isWord past = false ∧ text = "void ".toList ++ ('@' :: place.1 ++ '(' :: place.2) := by
  unfold voidHere at found
  split at found
  · cases found
  · rename_i boundary
    obtain ⟨left, stripped, symbol⟩ := Option.bind_eq_some_iff.mp found
    obtain ⟨whole, -, -⟩ := symbolHere_eq_some symbol
    exact ⟨by simpa using boundary, by rw [← whole]; exact dropPrefix?_eq_some.mp stripped⟩

theorem map_group_voidRe {line : Text} (oneLine : '\n' ∉ line) :
    (voidRe.matchAt [] line).map (fun m => m.group 1) =
      (afterKeyword "define".toList line).bind voidIn := by
  cases found : afterKeyword "define".toList line with
  | none =>
      rw [voidRe, matchAt_keywordRe_eq_none found]
      rfl
  | some rest =>
      obtain ⟨c, white, rfl⟩ := afterKeyword_eq_some found
      have clean : '\n' ∉ rest := fun member => oneLine (by simp [member])
      have start : headIs isWord (c :: ("define".toList.reverse ++ [])) = headIs isWord [' '] :=
        isWord_of_isSpace white
      rw [voidRe, matchAt_keywordRe rfl white, Pattern.run_seq, Pattern.run_notAhead,
        isSome_run_localRe, Option.bind_some, voidIn]
      cases startsLocal rest with
      | true => rfl
      | false =>
          have tried : ∀ before after, rest = before ++ after → after ≠ [] →
              (voidSymbolRe.run (wholeMatch ("define".toList ++ c :: rest))
                ⟨before.reverse ++ c :: ("define".toList.reverse ++ []), after, []⟩).map
                (fun m => m.group 1) =
              (voidHere (before.reverse ++ c :: ("define".toList.reverse ++ [])) after).bind
                fun place => some place.1 := by
            intro before after split filled
            obtain ⟨stop, ran⟩ := @run_voidSymbolRe Match
              (wholeMatch ("define".toList ++ c :: rest))
              (before.reverse ++ c :: ("define".toList.reverse ++ [])) after []
            rw [ran]
            cases here : voidHere (before.reverse ++ c :: ("define".toList.reverse ++ [])) after with
            | none => rfl
            | some place =>
                obtain ⟨-, whole⟩ := voidHere_eq_some here
                refine map_wholeMatch ?_ fun groups => (groups.lookup 1).getD []
                simp only [split, whole, List.length_append, List.length_cons]
                omega
          have first := @run_anyInLine Match (wholeMatch ("define".toList ++ c :: rest))
            (c :: ("define".toList.reverse ++ [])) rest [] _ Text voidSymbolRe voidHere
            (fun m => m.group 1) (fun place => some place.1) clean (fun past => ?_) tried
          · rw [if_neg (by simp), if_neg (by simp), Pattern.run_seq, first, findSome?_fst]
            rw [places_boundary (fun past other text same => ?_) start]
            rw [voidHere, voidHere, same]
          · obtain ⟨stop, ran⟩ := @run_voidSymbolRe Match
              (wholeMatch ("define".toList ++ c :: rest)) past [] []
            rw [ran, voidHere]
            cases headIs isWord past <;> rfl

/-- What the scan reads off the lines of a text. -/
theorem findIter_voidRe {lines : List Text} (oneLine : ∀ line ∈ lines, '\n' ∉ line)
    (more : "define".toList ∉ lines) :
    (voidRe.findIter (joinLines lines)).map (fun m => m.group 1) =
      lines.filterMap fun line => (afterKeyword "define".toList line).bind voidIn := by
  have stays := @keywordRe_stays "define".toList
    (.seq (.notAhead localRe) (.seq anyInLine voidSymbolRe)) (by decide) (by decide) lines oneLine
    more
  have perLine := Pattern.findIter_lines (by decide) oneLine stays
  change voidRe.findIter (joinLines lines) = lines.filterMap (voidRe.matchAt []) at perLine
  rw [perLine, List.map_filterMap]
  apply List.filterMap_congr
  exact fun line member => map_group_voidRe (oneLine line member)

/-! ## What is read from a module -/

/-- Whether a quote stands in one of these lines. -/
def quoteIn (lines : List Text) : Bool := lines.any (·.contains '"')

/-- The lines behind a signature. -/
def linesBehind (body : List InertLine) (back : Module) : List Text :=
  ((body ++ [closing]).map fun line => line.val) ++ Module.lines back

/-- The scan looks at the first of the lines `rest` behind `front`: no earlier
line has a section whose text runs on to this one. -/
def Reached {Reading : Type} (read : Text → Bool → Option (Reading × Bool)) (front : Module)
    (rest : List Text) : Prop :=
  openBehind '"' read false (Module.lines front) rest = false

/-- The scan for functions with a section looks at a signature line and reads this name. -/
def SectionNamed (m : Module) (name : Text) : Prop :=
  ∃ front header body back, m = front ++ .function header body :: back ∧
    Reached sectionedLine front (defineLine header :: linesBehind body back) ∧
    (sectionedIn (quoteIn (linesBehind body back)) header.print).map Prod.fst = some name

/-- The scan for global variables looks at a line and reads a section that it keeps. -/
def GlobalNamed (m : Module) (name : Text) : Prop :=
  ∃ front variable_ back, m = front ++ .global variable_ :: back ∧
    Reached globalLine front (variable_.print :: Module.lines back) ∧
    ∃ content, (globalIn (quoteIn (Module.lines back)) variable_.print).map Prod.fst =
      some (name, content) ∧ content ≠ some metadataSection

/-- The scan for functions that return void reads this name. -/
def VoidNamed (m : Module) (name : Text) : Prop :=
  ∃ header ∈ m.functions, voidIn header.print = some name

theorem sectionedFind_defineLine (header : Header) (later : Bool) :
    sectionedFind (defineLine header) later = sectionedIn later header.print := by
  rw [sectionedFind, show afterKeyword "define".toList (defineLine header) = some header.print from
    afterKeyword_append "define".toList header.print, Option.bind_some]

theorem sectionedFind_eq_none {line : Text} (word : firstWord line ≠ "define".toList)
    (later : Bool) : sectionedFind line later = none := by
  rw [sectionedFind, afterKeyword_eq_none (by decide) word]
  rfl

theorem globalIn_eq_none {line : Text} (noSign : headIs (· == '@') line = false) (later : Bool) :
    globalIn later line = none := by
  cases line with
  | nil => rfl
  | cons c rest =>
      have different : c ≠ '@' := by simpa [headIs] using noSign
      have nothing : globalHere (c :: rest) = none := by
        unfold globalHere
        split
        · rename_i equality
          exact absurd (List.cons.inj equality).1 different
        · rfl
      rw [globalIn, nothing]
      rfl

theorem mem_sectioned {m : Module} {name : Text} :
    name ∈ (sectionedRe.findIter m.text).map (fun m => m.group 1) ↔ SectionNamed m name := by
  rw [Module.text, findIter_sectionedRe (fun line member => Module.oneLine member)
    (define_not_mem_lines m), mem_visit]
  constructor
  · rintro ⟨before, line, after, closed, split, reached, read⟩
    obtain ⟨front, item, back, inFront, behind, rfl, inItem, rfl, rfl⟩ := flatMap_split split
    obtain ⟨found, isFound, same⟩ := Option.map_eq_some_iff.mp read
    have word : firstWord line = "define".toList := by
      by_contra different
      rw [sectionedFind_eq_none different] at isFound
      cases isFound
    rcases Item.line_cases inItem with ⟨header, body, rfl, rfl, rfl, rfl⟩ |
      ⟨variable_, -, -, rfl, -⟩ | ⟨different, -⟩
    · rw [List.append_nil] at reached
      refine ⟨front, header, body, back, rfl, reached, ?_⟩
      rw [sectionedFind_defineLine] at isFound
      exact Option.map_eq_some_iff.mpr ⟨found, isFound, (Prod.mk.inj same).1⟩
    · obtain ⟨rest, isGlobal⟩ := firstWord_global variable_
      rw [isGlobal] at word
      exact absurd (List.cons.inj word).1 (by decide)
    · exact absurd word different
  · rintro ⟨front, header, body, back, rfl, reached, read⟩
    obtain ⟨found, isFound, rfl⟩ := Option.map_eq_some_iff.mp read
    refine ⟨Module.lines front, defineLine header, linesBehind body back, found.2.isSome, ?_,
      reached, ?_⟩
    · simp [Module.lines, Item.lines, linesBehind]
    · rw [← sectionedFind_defineLine] at isFound
      exact Option.map_eq_some_iff.mpr ⟨found, isFound, rfl⟩

theorem mem_kept_globals {m : Module} {name : Text} :
    name ∈ ((globalRe.findIter m.text).filter fun m => m.group 2 != metadataSection).map
      (fun m => m.group 1) ↔ GlobalNamed m name := by
  have values : ∀ m : Match, (m.group 2 != metadataSection) = true ↔
      (globalValue m).2 ≠ some metadataSection := by
    intro m
    rw [bne_iff_ne, globalValue]
    by_cases newline : (m.group 2).contains '\n' = true
    · have different : m.group 2 ≠ metadataSection := by
        intro same
        rw [same] at newline
        exact absurd newline (by decide)
      simp [different]
    · rw [if_neg newline]
      simp
  have visited : (∃ content, (name, content) ∈ (globalRe.findIter m.text).map globalValue ∧
      content ≠ some metadataSection) ↔ GlobalNamed m name := by
    rw [Module.text, findIter_globalRe fun line member => Module.oneLine member]
    simp only [mem_visit]
    constructor
    · rintro ⟨content, ⟨before, line, after, closed, split, reached, read⟩, kept⟩
      obtain ⟨front, item, back, inFront, behind, rfl, inItem, rfl, rfl⟩ := flatMap_split split
      obtain ⟨found, isFound, same⟩ := Option.map_eq_some_iff.mp read
      have sign : headIs (· == '@') line = true := by
        by_contra noSign
        rw [globalIn_eq_none (by simpa using noSign)] at isFound
        cases isFound
      rcases Item.line_cases inItem with ⟨header, body, -, -, rfl, -⟩ |
        ⟨variable_, rfl, rfl, rfl, rfl⟩ | ⟨-, noSign⟩
      · cases sign
      · rw [List.append_nil] at reached
        exact ⟨front, variable_, back, rfl, reached, content,
          Option.map_eq_some_iff.mpr ⟨found, isFound, (Prod.mk.inj same).1⟩, kept⟩
      · rw [noSign] at sign
        cases sign
    · rintro ⟨front, variable_, back, rfl, reached, content, read, kept⟩
      obtain ⟨found, isFound, same⟩ := Option.map_eq_some_iff.mp read
      refine ⟨content, ⟨Module.lines front, variable_.print, Module.lines back, found.2.isSome, ?_,
        reached, ?_⟩, kept⟩
      · simp [Module.lines, Item.lines]
      · exact Option.map_eq_some_iff.mpr ⟨found, isFound, by rw [same]⟩
  rw [← visited]
  simp only [List.mem_map, List.mem_filter, values]
  constructor
  · rintro ⟨found, ⟨member, kept⟩, rfl⟩
    exact ⟨_, ⟨found, member, rfl⟩, kept⟩
  · rintro ⟨content, ⟨found, member, same⟩, kept⟩
    obtain ⟨rfl, rfl⟩ := Prod.mk.inj same
    exact ⟨found, ⟨member, kept⟩, rfl⟩

theorem mem_void {m : Module} {name : Text} :
    name ∈ (voidRe.findIter m.text).map (fun m => m.group 1) ↔ VoidNamed m name := by
  rw [Module.text, findIter_voidRe (fun line member => Module.oneLine member)
    (define_not_mem_lines m), filterMap_define, List.mem_filterMap]
  rfl

/-- The name is put into the list. -/
def Named (options : KeepOptions) (m : Module) (name : Text) : Prop :=
  name ∈ options.extra ∨ name ∈ options.nmWords ∨ SectionNamed m name ∨ GlobalNamed m name

theorem mem_keepSyms_text {options : KeepOptions} {m : Module} {name : Text} :
    name ∈ keepSyms options m.text ↔
      Named options m name ∧ (options.dropVoidGlobals = true → ¬VoidNamed m name) := by
  have put : name ∈ added options m.text ↔ Named options m name := by
    rw [added, List.mem_append, List.mem_append, List.mem_append, mem_sectioned, mem_kept_globals,
      Named]
    tauto
  have taken : name ∈ discarded options m.text ↔
      options.dropVoidGlobals = true ∧ VoidNamed m name := by
    rw [discarded]
    cases options.dropVoidGlobals with
    | false => simp
    | true => simp only [if_true, mem_void, true_and]
  rw [mem_keepSyms, put, taken, not_and]

end LibarenaRs.Linker
