import LibarenaRs.Linker.Allocation
import LibarenaRs.Regex.Rewriting

/-!
# The ids that a module defines

A node `!N = …` is a line of its own, and the stages of `bpf_finalize` leave the
start of such a line alone.  Each replacement is read as something that settles
the line it is in; what a stage can lose or uncover is marked.
-/

namespace LibarenaRs.Linker

open LibarenaRs.Regex LibarenaRs.Llvm

/-! ## Reading a line -/

/-- The id that a line defines. -/
def nodeId : Text → Option Nat
  | '!' :: rest =>
      if rest.takeWhile Char.isDigit ≠ [] ∧ " =".toList <+: rest.dropWhile Char.isDigit then
        some (readNat (rest.takeWhile Char.isDigit))
      else none
  | _ => none

/-- The ids that a text defines, in order. -/
def definedIds (text : Text) : List Nat := (splitLines text).filterMap nodeId

/-- No line of a module is like this: the word `declare` alone, or a node or the id of a
declaration that a word `noreturn` hides. -/
def Stray (line : Text) : Prop :=
  line = "declare".toList ∨ "noreturn!".toList <+: line ∨
    (∃ digits rest, line = '!' :: (digits ++ (" n".toList ++ rest)) ∧ digits ≠ [] ∧
      digits.all Char.isDigit = true) ∨
    "declare noreturn!".toList <+: line ∨ "declare !dbg noreturn!".toList <+: line

inductive Mark where
  | node (id : Nat)
  | hidden
  | bare
  deriving DecidableEq

def nodeMarks : Text → List Mark
  | '!' :: rest =>
      if rest.takeWhile Char.isDigit = [] then []
      else if " =".toList <+: rest.dropWhile Char.isDigit then
        [.node (readNat (rest.takeWhile Char.isDigit))]
      else if " n".toList <+: rest.dropWhile Char.isDigit then [.hidden]
      else []
  | _ => []

def stemMarks (line : Text) : List Mark :=
  (if "noreturn!".toList <+: line then [.hidden] else []) ++ nodeMarks line

def lineMarks (line : Text) : List Mark :=
  (if line = "declare".toList then [.bare] else []) ++ stemMarks line

/-- A node among the marks. -/
def Mark.id? : Mark → Option Nat
  | .node id => some id
  | .hidden | .bare => none

def lineIds (line : Text) : List Nat := (nodeId line).toList

theorem lineIds_eq (line : Text) : lineIds line = (stemMarks line).filterMap Mark.id? := by
  have hidden : ((if "noreturn!".toList <+: line then [Mark.hidden] else []).filterMap Mark.id?) =
      [] := by
    split <;> rfl
  rw [stemMarks, List.filterMap_append, hidden, List.nil_append, lineIds]
  unfold nodeId nodeMarks
  split
  · split
    · rename_i rest both
      rw [if_neg both.1, if_pos both.2]
      rfl
    · rename_i rest neither
      split
      · rfl
      · rename_i filled
        rw [if_neg fun equals => neither ⟨filled, equals⟩]
        split <;> rfl
  · rfl

theorem stemMarks_eq (line : Text) :
    stemMarks line = (lineMarks line).filterMap fun mark => if mark = .bare then none else some mark := by
  have kept : ∀ mark ∈ stemMarks line, mark ≠ .bare := by
    intro mark member
    rcases List.mem_append.mp member with first | second
    · split at first
      · rw [List.mem_singleton.mp first]
        decide
      · cases first
    · unfold nodeMarks at second
      split at second
      · split at second
        · cases second
        · split at second
          · rw [List.mem_singleton.mp second]
            simp
          · split at second
            · rw [List.mem_singleton.mp second]
              decide
            · cases second
      · cases second
  have same : (stemMarks line).filterMap (fun mark => if mark = .bare then none else some mark) =
      stemMarks line := by
    calc (stemMarks line).filterMap (fun mark => if mark = .bare then none else some mark)
        = (stemMarks line).filterMap some :=
          List.filterMap_congr fun mark member => if_neg (kept mark member)
      _ = stemMarks line := List.filterMap_some
  rw [lineMarks, List.filterMap_append, same]
  split <;> rfl

theorem definedIds_eq (text : Text) : definedIds text = readFrom lineIds [] text := by
  rw [readFrom_nil, definedIds, List.filterMap_eq_flatMap_toList]
  rfl

/-! ## Words that settle a line -/

/-- The characters of the words that the start of a marked line is made of. -/
def markLetters : Text := "declare !dbg noreturn! =".toList

/-- A word that is no part of the start of a marked line. -/
structure Breaks (word : Text) : Prop where
  oneLine : '\n' ∉ word
  foreign : ∃ c ∈ word, c ∉ markLetters
  plain : '!' ∉ word ∧ '=' ∉ word ∧ 'n' ∉ word
  starts : headIs Char.isDigit word = false

theorem Breaks.ne_nil {word : Text} (breaks : Breaks word) : word ≠ [] := by
  rintro rfl
  obtain ⟨c, member, -⟩ := breaks.foreign
  cases member

/-- The end of such a word reaches into no mark. -/
theorem prefix_of_breaks {word mark : Text} {last : Char} (ends : word.getLast? = some last)
    (lastAbsent : last ∉ mark) (within : word ⊆ markLetters)
    (foreign : ∃ c ∈ mark, c ∉ markLetters) (front more : Text) :
    word <+: front ++ (mark ++ more) ↔ word <+: front := by
  obtain ⟨c, inMark, absent⟩ := foreign
  have apart : Apart word mark :=
    apart_of_last ends lastAbsent inMark fun member => absent (within member)
  exact ⟨apart.prefix_left, fun starts => starts.trans (List.prefix_append front _)⟩

theorem nodeMarks_breaks {word : Text} (breaks : Breaks word) (front more : Text) :
    nodeMarks (front ++ (word ++ more)) = nodeMarks front := by
  have stops : headIs Char.isDigit (word ++ more) = false := by
    have starts := breaks.starts
    cases shape : word with
    | nil => exact absurd shape breaks.ne_nil
    | cons c rest => rwa [shape] at starts
  cases front with
  | nil =>
      cases shape : word with
      | nil => exact absurd shape breaks.ne_nil
      | cons c rest =>
          have different : c ≠ '!' := fun same => breaks.plain.1 (by simp [shape, same])
          have none_ : nodeMarks (c :: (rest ++ more)) = [] := by
            unfold nodeMarks
            split
            · rename_i same
              exact absurd (List.cons.inj same).1 different
            · rfl
          exact none_
  | cons c front =>
      by_cases sign : c = '!'
      · subst sign
        have equals := @prefix_of_breaks " =".toList _ _ rfl breaks.plain.2.1 (by decide)
          breaks.foreign
        have hides := @prefix_of_breaks " n".toList _ _ rfl breaks.plain.2.2 (by decide)
          breaks.foreign
        rw [List.cons_append, nodeMarks, nodeMarks, takeWhile_append_stops stops,
          dropWhile_append_stops stops]
        simp only [equals, hides]
      · have none_ : ∀ rest, nodeMarks (c :: rest) = [] := by
          intro rest
          unfold nodeMarks
          split
          · rename_i same
            exact absurd (List.cons.inj same).1 sign
          · rfl
        rw [List.cons_append, none_, none_]

theorem stemMarks_settles {word : Text} (breaks : Breaks word) : Settles stemMarks stemMarks word := by
  intro front more
  have hides := @prefix_of_breaks "noreturn!".toList _ _ rfl breaks.plain.1 (by decide)
    breaks.foreign front more
  simp only [stemMarks, hides, nodeMarks_breaks breaks]

theorem lineMarks_settles {word : Text} (breaks : Breaks word) : Settles lineMarks stemMarks word := by
  intro front more
  have longer : front ++ (word ++ more) ≠ "declare".toList := by
    intro same
    obtain ⟨c, member, absent⟩ := breaks.foreign
    have within : c ∈ "declare".toList := by
      rw [← same]
      simp [member]
    have all : "declare".toList ⊆ markLetters := by decide
    exact absent (all within)
  rw [lineMarks, if_neg longer, List.nil_append, stemMarks_settles breaks]

theorem lineIds_settles {word : Text} (breaks : Breaks word) : Settles lineIds lineIds word := by
  intro front more
  rw [lineIds_eq, lineIds_eq, stemMarks_settles breaks]

/-- What the three readings share. -/
structure Reads {Token : Type} (marks stem : Text → List Token) : Prop where
  settles : ∀ {word}, Breaks word → Settles marks stem word
  blank : ∀ c line, isSpace c = true → marks (c :: line) = []
  empty : marks [] = []
  stemEmpty : stem [] = []

theorem stemMarks_of_head {line : Text} (plain : headIs (fun c => c == '!' || c == 'n') line = false) :
    stemMarks line = [] := by
  cases line with
  | nil => rfl
  | cons c line =>
      have different : c ≠ '!' ∧ c ≠ 'n' := by simpa [headIs] using plain
      have noPrefix : ¬"noreturn!".toList <+: c :: line := by
        rintro ⟨more, same⟩
        exact different.2 (List.cons.inj same).1.symm
      rw [stemMarks, if_neg noPrefix]
      unfold nodeMarks
      split
      · rename_i same
        exact absurd (List.cons.inj same).1 different.1
      · rfl

theorem reads_stemMarks : Reads stemMarks stemMarks where
  settles := stemMarks_settles
  blank c line white := by
    apply stemMarks_of_head
    have notSign : c ≠ '!' := by rintro rfl; cases white
    have notLetter : c ≠ 'n' := by rintro rfl; cases white
    simp [headIs, notSign, notLetter]
  empty := rfl
  stemEmpty := rfl

theorem reads_lineMarks : Reads lineMarks stemMarks where
  settles := lineMarks_settles
  blank c line white := by
    have notKeyword : c :: line ≠ "declare".toList := by
      intro same
      rw [(List.cons.inj same).1] at white
      cases white
    rw [lineMarks, if_neg notKeyword, List.nil_append, reads_stemMarks.blank c line white]
  empty := rfl
  stemEmpty := rfl

theorem reads_lineIds : Reads lineIds lineIds where
  settles := lineIds_settles
  blank c line white := by rw [lineIds_eq, reads_stemMarks.blank c line white]; rfl
  empty := rfl
  stemEmpty := rfl

/-! ## Calls -/

/-- What may stand in front of a call. -/
def Opening (text : Text) : Prop :=
  text = [] ∨ ∃ blanks, text = "tail".toList ++ blanks ∧ ∀ c ∈ blanks, isSpace c = true

theorem tailRe_reaches {start stop : Cursor} (reached : tailRe.Reaches start stop) :
    ∃ opening, Opening opening ∧ start.rest = opening ++ stop.rest ∧ stop.groups = start.groups := by
  have kept : stop.groups = start.groups := reached.groups rfl
  rcases reached with ⟨_, ⟨rest, split, rfl⟩, _, ⟨c, left, here, white, rfl⟩, loop⟩ | rfl
  · obtain ⟨read, more, all⟩ := Pattern.star_chr_reaches loop
    change rest = c :: left at here
    change left = read ++ stop.rest at more
    refine ⟨"tail".toList ++ c :: read, Or.inr ⟨c :: read, rfl, ?_⟩, ?_, kept⟩
    · intro d member
      rcases List.mem_cons.mp member with rfl | later
      · exact white
      · exact all d later
    · rw [split, here, more, List.append_assoc]
      rfl
  · exact ⟨[], Or.inl rfl, rfl, rfl⟩

theorem trapCallRe_match {past rest : Text} {m : Match}
    (found : trapCallRe.matchAt past rest = some m) :
    ∃ opening, Opening opening ∧ m.text = opening ++ "call void @llvm.trap()".toList := by
  obtain ⟨stop, ⟨middle, tail, left, split, rfl⟩, whole, -, -⟩ := Pattern.matchAt_eq_some found
  obtain ⟨opening, opened, start, -⟩ := tailRe_reaches tail
  refine ⟨opening, opened, ?_⟩
  change rest = opening ++ middle.rest at start
  change rest = m.text ++ left at whole
  rw [start, split, ← List.append_assoc] at whole
  exact (List.append_cancel_right whole).symm

/-- The parts of a matched call: what stands in front of the operands, the operands, the
blanks in front of the last ones, and what is thrown away. -/
structure MemcpyParts (m : Match) where
  opening : Text
  name : Text
  blanks : Text
  moreBlanks : Text
  lastBlanks : Text
  flags : Text
  opened : Opening opening
  oneLine : '\n' ∉ name
  white : ∀ c ∈ blanks ++ moreBlanks ++ lastBlanks, isSpace c = true
  pointer : ∃ rest, m.group 2 = 'p' :: rest
  length : ∃ rest, m.group 3 = 'i' :: rest
  text : m.text = opening ++ ("call void @llvm.".toList ++ (name ++ (m.group 1 ++ ([','] ++
    (blanks ++ (m.group 2 ++ ([','] ++ (moreBlanks ++ (m.group 3 ++ ([','] ++
      (lastBlanks ++ ("i1".toList ++ (flags ++ [')'])))))))))))))

theorem lit_reaches {word : Text} {start stop : Cursor}
    (reached : (Pattern.lit word).Reaches start stop) :
    start.rest = word ++ stop.rest ∧ stop.groups = start.groups := by
  obtain ⟨rest, split, rfl⟩ := reached
  exact ⟨split, rfl⟩

/-- A group of a word and an operand. -/
theorem operand_reaches {index : Nat} {word : Text} {start stop : Cursor}
    (reached : (Pattern.group index (.cat [.lit word, argRe])).Reaches start stop) :
    ∃ read, start.rest = (word ++ read) ++ stop.rest ∧
      stop.groups = (index, word ++ read) :: start.groups := by
  obtain ⟨inner, ⟨middle, ⟨left, split, rfl⟩, operand⟩, same, read, whole, groups⟩ :=
    Pattern.Reaches.group (by rfl) reached
  obtain ⟨more, rest, -⟩ := operand.read
  change left = more ++ inner.rest at rest
  have parts : read = word ++ more := by
    apply (List.append_left_inj stop.rest).mp
    rw [← whole, split, rest, same, List.append_assoc]
  subst parts
  exact ⟨more, whole, groups⟩

theorem blanks_reaches {start stop : Cursor} (reached : blanksRe.Reaches start stop) :
    ∃ read, start.rest = read ++ stop.rest ∧ (∀ c ∈ read, isSpace c = true) ∧
      stop.groups = start.groups := by
  obtain ⟨read, split, white⟩ := Pattern.star_chr_reaches reached
  exact ⟨read, split, white, reached.groups rfl⟩

theorem memcpyRe_match {past rest : Text} {m : Match} (found : memcpyRe.matchAt past rest = some m) :
    Nonempty (MemcpyParts m) := by
  obtain ⟨stop, reached, whole, -, groups⟩ := Pattern.matchAt_eq_some found
  obtain ⟨_, tail, _, call, _, name, _, inline, _, spaces, _, first, _, comma, _, white, _, second,
    _, moreComma, _, moreWhite, _, third, _, lastComma, _, lastWhite, _, flag, _, flags, closes⟩ :=
    reached
  obtain ⟨opening, opened, tailSplit, tailGroups⟩ := tailRe_reaches tail
  obtain ⟨callSplit, callGroups⟩ := lit_reaches call
  obtain ⟨word, nameSplit, nameLine⟩ := @Pattern.Reaches.read_avoids _ '\n' (by decide) _ _ name
  obtain ⟨suffix, inlineSplit, inlineLine⟩ := @Pattern.Reaches.read_avoids _ '\n' (by decide) _ _ inline
  obtain ⟨spacesSplit, spacesGroups⟩ := lit_reaches spaces
  obtain ⟨one, firstSplit, firstGroups⟩ := operand_reaches first
  obtain ⟨commaSplit, commaGroups⟩ := lit_reaches comma
  obtain ⟨blanks, whiteSplit, isWhite, whiteGroups⟩ := blanks_reaches white
  obtain ⟨two, secondSplit, secondGroups⟩ := operand_reaches second
  obtain ⟨moreCommaSplit, moreCommaGroups⟩ := lit_reaches moreComma
  obtain ⟨moreBlanks, moreWhiteSplit, moreIsWhite, moreWhiteGroups⟩ := blanks_reaches moreWhite
  obtain ⟨three, thirdSplit, thirdGroups⟩ := operand_reaches third
  obtain ⟨lastCommaSplit, lastCommaGroups⟩ := lit_reaches lastComma
  obtain ⟨lastBlanks, lastWhiteSplit, lastIsWhite, lastWhiteGroups⟩ := blanks_reaches lastWhite
  obtain ⟨flagSplit, flagGroups⟩ := lit_reaches flag
  obtain ⟨thrown, flagsSplit, -⟩ := Pattern.star_chr_reaches flags
  have flagsGroups := flags.groups rfl
  obtain ⟨closeSplit, closeGroups⟩ := lit_reaches closes
  have nameGroups := name.groups rfl
  have inlineGroups := inline.groups rfl
  have noted : m.groups = [(3, "i64".toList ++ three), (2, "ptr".toList ++ two),
      (1, "ptr".toList ++ one)] := by
    rw [groups, closeGroups, flagsGroups, flagGroups, lastWhiteGroups, lastCommaGroups, thirdGroups,
      moreWhiteGroups, moreCommaGroups, secondGroups, whiteGroups, commaGroups, firstGroups,
      spacesGroups, inlineGroups, nameGroups, callGroups, tailGroups]
  have firstGroup : m.group 1 = "ptr".toList ++ one := by rw [Match.group, noted]; rfl
  have secondGroup : m.group 2 = "ptr".toList ++ two := by rw [Match.group, noted]; rfl
  have thirdGroup : m.group 3 = "i64".toList ++ three := by rw [Match.group, noted]; rfl
  change rest = opening ++ _ at tailSplit
  refine ⟨⟨opening, word ++ suffix ++ ".p0.p0.i64(".toList, blanks, moreBlanks, lastBlanks, thrown,
    opened, ?_, ?_, ⟨_, secondGroup⟩, ⟨_, thirdGroup⟩, ?_⟩⟩
  · simp only [List.mem_append, not_or]
    exact ⟨⟨nameLine, inlineLine⟩, by decide⟩
  · intro c member
    rcases List.mem_append.mp member with member | inLast
    · rcases List.mem_append.mp member with inFirst | inSecond
      · exact isWhite c inFirst
      · exact moreIsWhite c inSecond
    · exact lastIsWhite c inLast
  · apply (List.append_left_inj stop.rest).mp
    rw [← whole, tailSplit, callSplit, nameSplit, inlineSplit, spacesSplit, firstSplit, commaSplit,
      whiteSplit, secondSplit, moreCommaSplit, moreWhiteSplit, thirdSplit, lastCommaSplit,
      lastWhiteSplit, flagSplit, flagsSplit, closeSplit, firstGroup, secondGroup, thirdGroup]
    simp only [List.append_assoc]

/-! ## The stages in front of the declarations -/

section Stages

variable {Token : Type} {marks stem : Text → List Token}

theorem silent_blanks (reads : Reads marks stem) {blanks word : Text}
    (white : ∀ c ∈ blanks, isSpace c = true) (breaks : Breaks word) (back : Text) :
    readBehind marks (blanks ++ (word ++ back)) = readBehind marks back := by
  have blankLine : ∀ line, (∀ c ∈ line, isSpace c = true) → marks line = [] ∧ stem line = [] := by
    intro line white
    cases line with
    | nil => exact ⟨reads.empty, reads.stemEmpty⟩
    | cons c line =>
        have first := white c (by simp)
        refine ⟨reads.blank c line first, ?_⟩
        rw [← reads.settles breaks (c :: line) []]
        exact reads.blank c _ first
  have inLines : ∀ blanks line, (∀ c ∈ blanks, isSpace c = true) → (∀ c ∈ line, isSpace c = true) →
      readFrom marks line (blanks ++ (word ++ back)) = readBehind marks back := by
    intro blanks
    induction blanks with
    | nil =>
        intro line _ white
        rw [List.nil_append, readFrom_settled (reads.settles breaks) breaks.oneLine,
          (blankLine line white).2, List.nil_append]
    | cons c blanks inductionHypothesis =>
        intro line white lineWhite
        have later : ∀ d ∈ blanks, isSpace d = true := fun d member => white d (by simp [member])
        by_cases newline : c = '\n'
        · rw [List.cons_append, readFrom, if_pos newline, (blankLine line lineWhite).1,
            List.nil_append]
          exact inductionHypothesis [] later (by simp)
        · rw [List.cons_append, readFrom, if_neg newline]
          apply inductionHypothesis _ later
          intro d member
          rcases List.mem_append.mp member with before | last
          · exact lineWhite d before
          · rw [List.mem_singleton.mp last]
            exact white c (by simp)
  induction blanks with
  | nil => exact readBehind_line breaks.oneLine back
  | cons c blanks inductionHypothesis =>
      have later : ∀ d ∈ blanks, isSpace d = true := fun d member => white d (by simp [member])
      by_cases newline : c = '\n'
      · rw [List.cons_append, readBehind, if_pos newline]
        exact inLines blanks [] later (by simp)
      · rw [List.cons_append, readBehind, if_neg newline]
        exact inductionHypothesis later

theorem breaks_call : Breaks "call void @".toList :=
  ⟨by decide, ⟨'v', by decide, by decide⟩, by decide, by decide⟩

theorem breaks_tail : Breaks "tail".toList :=
  ⟨by decide, ⟨'i', by decide, by decide⟩, by decide, by decide⟩

/-- A single character that is in no word at the start of a marked line. -/
theorem breaks_char {c : Char} (foreign : c ∉ markLetters) (inLine : c ≠ '\n')
    (noDigit : c.isDigit = false) : Breaks [c] where
  oneLine member := inLine (List.mem_singleton.mp member).symm
  foreign := ⟨c, by simp, foreign⟩
  plain := by
    have sign : c ≠ '!' := by rintro rfl; exact foreign (by decide)
    have equals : c ≠ '=' := by rintro rfl; exact foreign (by decide)
    have letter : c ≠ 'n' := by rintro rfl; exact foreign (by decide)
    simp [sign.symm, equals.symm, letter.symm]
  starts := noDigit

/-- A call with its opening settles the line it starts in. -/
theorem quiet_opening (reads : Reads marks stem) {opening word : Text} (opened : Opening opening)
    (breaks : Breaks word) : Quiet marks stem (opening ++ word) := by
  rcases opened with rfl | ⟨blanks, rfl, white⟩
  · exact (reads.settles breaks).quiet breaks.oneLine
  · rw [List.append_assoc]
    apply ((reads.settles breaks_tail).quiet breaks_tail.oneLine).append
    intro back
    rw [List.append_assoc]
    exact silent_blanks reads white breaks back

/-- A word of one line behind a settling one. -/
theorem quiet_line (reads : Reads marks stem) {word more : Text} (breaks : Breaks word)
    (oneLine : '\n' ∉ more) : Quiet marks stem (word ++ more) :=
  ((reads.settles breaks).quiet breaks.oneLine).append (readBehind_line oneLine)

theorem printInt_oneLine (cookie : Int) : '\n' ∉ printInt cookie := by
  have digits : ∀ n, '\n' ∉ printNat n := fun n =>
    not_newline_of_printable (printable_printNat n)
  cases cookie with
  | ofNat n => exact digits n
  | negSucc n => simpa [printInt] using digits (n + 1)

theorem readFrom_trapCall (reads : Reads marks stem) (cookie : Int) (text : Text) :
    readFrom marks [] (trapCallRe.sub (fun _ => throwCall cookie) text) = readFrom marks [] text := by
  apply @Pattern.related_of_sub _ _ _
    fun first second => readFrom marks [] first = readFrom marks [] second
  · exact fun text => rfl
  · exact fun first second => first.trans second
  · intro past m rest back split found
    obtain ⟨opening, opened, shape⟩ := trapCallRe_match found
    have call := (quiet_opening reads opened breaks_call).append
      (@readBehind_line _ marks "llvm.trap()".toList (by decide))
    have thrown : Quiet marks stem
        ("call void @".toList ++ ("bpf_throw(i64 ".toList ++ printInt cookie ++ [')'])) := by
      apply quiet_line reads breaks_call
      simp only [List.mem_append, not_or]
      exact ⟨⟨by decide, printInt_oneLine cookie⟩, by decide⟩
    have same := thrown.same call past.reverse back []
    rw [List.append_assoc opening] at same
    rw [shape]
    exact same

theorem memcmpRe_match {old past rest : Text} {m : Match}
    (found : (memcmpRe old).matchAt past rest = some m) : m.text = m.group 1 ++ ('@' :: old) := by
  obtain ⟨stop, ⟨_, ⟨-, rfl⟩, _, ⟨-, rfl⟩, _, inFront, _, ⟨-, rfl⟩, _, symbol, boundary⟩, whole, -,
    groups⟩ := Pattern.matchAt_eq_some found
  obtain ⟨-, rfl⟩ := boundary
  obtain ⟨-, -, -, read, split, noted⟩ := Pattern.Reaches.group (by rfl) inFront
  obtain ⟨symbolSplit, symbolGroups⟩ := lit_reaches symbol
  have group : m.group 1 = read := by
    rw [Match.group, groups, symbolGroups, noted]
    rfl
  change rest = read ++ _ at split
  rw [split, symbolSplit, ← List.append_assoc] at whole
  rw [group]
  exact (List.append_cancel_right whole).symm

theorem readFrom_lateCompare (reads : Reads marks stem) {old : Text} (oneLine : '\n' ∉ old)
    (text : Text) :
    readFrom marks [] (lateCompare old text) = readFrom marks [] text := by
  apply @Pattern.related_of_sub _ _ _
    fun first second => readFrom marks [] first = readFrom marks [] second
  · exact fun text => rfl
  · exact fun first second => first.trans second
  · intro past m rest back split found
    have sign := @breaks_char '@' (by decide) (by decide) rfl
    have before := quiet_line reads sign oneLine
    have after := @quiet_line _ _ _ reads _ "bpf_arena_memcmp".toList sign (by decide)
    have same := after.same before (past.reverse ++ m.group 1) back []
    rw [memcmpRe_match found]
    simp only [List.append_assoc] at same ⊢
    exact same

/-- A replaced call loses what stands in its flags. -/
theorem memcpy_reading (reads : Reads marks stem) {m : Match} (parts : MemcpyParts m) :
    ∃ lost, ∀ front back, ∃ kept,
      readFrom marks [] (front ++ (m.text ++ back)) = kept ++ (lost ++ readBehind marks back) ∧
      readFrom marks [] (front ++ (glueCall "bpf_arena_memcpy".toList m ++ back)) =
        kept ++ readBehind marks back := by
  obtain ⟨two, pointer⟩ := parts.pointer
  obtain ⟨three, length⟩ := parts.length
  have comma := @breaks_char ',' (by decide) (by decide) rfl
  have closing := @breaks_char ')' (by decide) (by decide) rfl
  have letterP := @breaks_char 'p' (by decide) (by decide) rfl
  have letterI := @breaks_char 'i' (by decide) (by decide) rfl
  have commas := readBehind_append (reads.settles comma) comma.oneLine
  have closings := readBehind_append (reads.settles closing) closing.oneLine
  have white : ∀ c ∈ parts.blanks, isSpace c = true := fun c member => parts.white c (by simp [member])
  have moreWhite : ∀ c ∈ parts.moreBlanks, isSpace c = true :=
    fun c member => parts.white c (by simp [member])
  have second : ∀ back, readBehind marks (parts.blanks ++ 'p' :: back) = readBehind marks back :=
    silent_blanks reads white letterP
  have third : ∀ back, readBehind marks (parts.moreBlanks ++ 'i' :: back) = readBehind marks back :=
    silent_blanks reads moreWhite letterI
  refine ⟨readBehind marks (parts.lastBlanks ++ ("i1".toList ++ parts.flags) ++ [')']),
    fun front back => ⟨readFrom marks [] (front ++ "call void @".toList) ++
      (readBehind marks (m.group 1 ++ [',']) ++
        (readBehind marks (two ++ [',']) ++ readBehind marks (three ++ [',']))), ?_, ?_⟩⟩
  · have quiet := quiet_opening reads parts.opened breaks_call
    have short := (reads.settles breaks_call).quiet breaks_call.oneLine
    have flags := closings (parts.lastBlanks ++ ("i1".toList ++ parts.flags)) back
    have text : front ++ (m.text ++ back) =
        front ++ ((parts.opening ++ "call void @".toList) ++ ("llvm.".toList ++ (parts.name ++
          (m.group 1 ++ ([','] ++ (parts.blanks ++ 'p' :: (two ++ ([','] ++
            (parts.moreBlanks ++ 'i' :: (three ++ ([','] ++
              ((parts.lastBlanks ++ ("i1".toList ++ parts.flags)) ++ ([')'] ++ back))))))))))))) := by
      rw [parts.text, pointer, length]
      simp only [List.append_assoc, List.cons_append]
      rfl
    rw [text, quiet.same short, readFrom_append (reads.settles breaks_call) breaks_call.oneLine,
      readBehind_line (by decide), readBehind_line parts.oneLine, commas, second, commas, third,
      commas, flags]
    simp only [List.append_assoc]
  · have text : front ++ (glueCall "bpf_arena_memcpy".toList m ++ back) =
        front ++ ("call void @".toList ++ ("bpf_arena_memcpy(".toList ++ (m.group 1 ++ ([','] ++
          (" p".toList ++ (two ++ ([','] ++ (" i".toList ++ (three ++ ([')'] ++ back)))))))))) := by
      unfold glueCall
      rw [pointer, length]
      simp only [List.append_assoc, List.cons_append]
      rfl
    have last := readBehind_words (reads.settles closing) closing.oneLine (reads.settles comma)
      comma.oneLine three
    rw [text, readFrom_append (reads.settles breaks_call) breaks_call.oneLine,
      @readBehind_line _ marks "bpf_arena_memcpy(".toList (by decide), commas,
      @readBehind_line _ marks " p".toList (by decide), commas,
      @readBehind_line _ marks " i".toList (by decide), closings, last]
    simp only [List.append_assoc]

/-- The calls lose nothing exactly if none of them does. -/
theorem readFrom_memcpyRe (reads : Reads marks stem) (text : Text) :
    (readFrom marks [] (memcpyRe.sub (glueCall "bpf_arena_memcpy".toList) text)).Sublist
        (readFrom marks [] text) ∧
      (readFrom marks [] (memcpyRe.sub (glueCall "bpf_arena_memcpy".toList) text) =
          readFrom marks [] text ↔
        ∀ m ∈ memcpyRe.findIter text, readFrom marks [] (glueCall "bpf_arena_memcpy".toList m) =
          readFrom marks [] m.text) := by
  apply Pattern.sublist_of_sub
  intro past m rest back found
  obtain ⟨parts⟩ := memcpyRe_match found
  obtain ⟨lost, reading⟩ := memcpy_reading reads parts
  obtain ⟨kept, before, after⟩ := reading past.reverse back
  obtain ⟨alone, whole, glue⟩ := reading [] []
  rw [List.append_nil, List.nil_append, readBehind, List.append_nil] at whole glue
  rw [before, after, whole, glue]
  refine ⟨(List.sublist_append_right _ _).append_left kept, ?_⟩
  rw [List.append_cancel_left_eq, List.self_eq_append_left, List.self_eq_append_right]

theorem readFrom_lateCalls (reads : Reads marks stem) (text : Text) :
    readFrom marks [] (lateCalls text) =
      readFrom marks [] (memcpyRe.sub (glueCall "bpf_arena_memcpy".toList) text) := by
  unfold lateCalls
  rw [readFrom_lateCompare reads (by decide), readFrom_lateCompare reads (by decide)]

theorem readFrom_throwTraps (reads : Reads marks stem) (cookie : Option Int)
    (file attributes text : Text) (added : Added) :
    readFrom marks [] (throwTraps cookie file attributes text added).1 = readFrom marks [] text := by
  cases cookie with
  | none => rfl
  | some cookie =>
      by_cases traps : (plainTrapRe.search text).isSome = true
      · rw [throwTraps_some traps]
        split
        · exact readFrom_trapCall reads cookie text
        · exact readFrom_trapCall reads cookie text
      · have same : throwTraps (some cookie) file attributes text added = (text, [], added) :=
          if_neg traps
        rw [same]

end Stages

/-! ## Declarations -/

theorem declareRe_match {past rest : Text} {m : Match} (found : declareRe.matchAt past rest = some m) :
    atLineStart past = true ∧ ∃ blank line more, isSpace blank = true ∧ '\n' ∉ line ∧
      m.text = "declare".toList ++ blank :: (line ++ '\n' :: more) ∧
      (more = [] ∨ ∃ c section_, isSpace c = true ∧ '\n' ∉ c :: section_ ∧
        more = c :: section_ ++ ['\n']) := by
  obtain ⟨stop, ⟨_, ⟨startsLine, rfl⟩, _, keyword, _, ⟨blank, left, split, white, rfl⟩, _, loop, _,
    newline, optional⟩, whole, -, -⟩ := Pattern.matchAt_eq_some found
  obtain ⟨keywordSplit, -⟩ := lit_reaches keyword
  obtain ⟨line, lineSplit, clean⟩ := Pattern.star_chr_reaches loop
  obtain ⟨newlineSplit, -⟩ := lit_reaches newline
  change rest = _ at keywordSplit
  change left = _ at lineSplit
  have noNewline : ∀ {read : Text}, (∀ c ∈ read, (c != '\n') = true) → '\n' ∉ read := by
    intro read all member
    simpa using all _ member
  refine ⟨startsLine, blank, line, ?_⟩
  rcases optional with ⟨_, ⟨_, ⟨c, others, here, accepted, rfl⟩, blanks⟩, _, section_, _, tail, last⟩ | rfl
  · obtain ⟨read, blanksSplit, blanksAll⟩ := Pattern.star_chr_reaches blanks
    obtain ⟨sectionSplit, -⟩ := lit_reaches section_
    obtain ⟨behind, tailSplit, tailClean⟩ := Pattern.star_chr_reaches tail
    obtain ⟨lastSplit, -⟩ := lit_reaches last
    change others = _ at blanksSplit
    have isBlank : ∀ {d : Char}, (d == ' ' || d == '\t') = true → isSpace d = true ∧ d ≠ '\n' := by
      intro d holds
      rw [Bool.or_eq_true, beq_iff_eq, beq_iff_eq] at holds
      rcases holds with rfl | rfl <;> decide
    refine ⟨c :: (read ++ ("section".toList ++ behind)) ++ ['\n'], white, noNewline clean, ?_,
      Or.inr ⟨c, _, (isBlank accepted).1, ?_, rfl⟩⟩
    · apply (List.append_left_inj stop.rest).mp
      rw [← whole, keywordSplit, split, lineSplit, newlineSplit, here, blanksSplit, sectionSplit,
        tailSplit, lastSplit]
      simp only [List.append_assoc, List.cons_append, List.nil_append]
    · intro member
      rcases List.mem_cons.mp member with first | later
      · exact (isBlank accepted).2 first.symm
      · rcases List.mem_append.mp later with inBlanks | later
        · exact (isBlank (blanksAll _ inBlanks)).2 rfl
        · rcases List.mem_append.mp later with inWord | inTail
          · exact absurd inWord (by decide)
          · exact noNewline tailClean inTail
  · refine ⟨[], white, noNewline clean, ?_, Or.inl rfl⟩
    apply (List.append_left_inj stop.rest).mp
    rw [← whole, keywordSplit, split, lineSplit, newlineSplit]
    simp only [List.append_assoc, List.cons_append, List.nil_append]

theorem readFrom_newline {Token : Type} {marks : Text → List Token} {inner : Text}
    (oneLine : '\n' ∉ inner) (rest : Text) :
    readFrom marks [] (inner ++ '\n' :: rest) = marks inner ++ readFrom marks [] rest := by
  rw [readFrom_line oneLine, readFrom, if_pos rfl]
  rfl

theorem stemMarks_keyword {c : Char} (letter : c ≠ '!') (other : c ≠ 'n') (line : Text) :
    stemMarks (c :: line) = [] :=
  stemMarks_of_head (by simp [headIs, letter, other])

theorem dropIn_cases (defined : List Text) (m : Match) :
    dropIn defined m = [] ∨ dropIn defined m = m.text := by
  unfold dropIn
  split
  · split
    · exact Or.inl rfl
    · exact Or.inr rfl
  · exact Or.inr rfl

/-- Whole lines are matched. -/
theorem declareRe_lines {past rest : Text} {m : Match} (found : declareRe.matchAt past rest = some m) :
    atLineStart past = true ∧ ∃ lines, m.text = lines ++ ['\n'] := by
  obtain ⟨startsLine, blank, line, more, -, -, shape, optional⟩ := declareRe_match found
  refine ⟨startsLine, ?_⟩
  rcases optional with rfl | ⟨c, section_, -, -, rfl⟩
  · exact ⟨_, by rw [shape, ← List.cons_append, ← List.append_assoc]⟩
  · exact ⟨"declare".toList ++ blank :: (line ++ '\n' :: (c :: section_)), by rw [shape]; simp⟩

theorem readFrom_dropDefined {text : Text} (noBare : .bare ∉ readFrom lineMarks [] text) :
    readFrom stemMarks [] (dropDefined text) = readFrom stemMarks [] text := by
  apply @Pattern.related_of_sub _ _ _
    fun first second => readFrom stemMarks [] first = readFrom stemMarks [] second
  · exact fun text => rfl
  · exact fun first second => first.trans second
  · intro past m rest back split found
    obtain ⟨startsLine, blank, line, more, white, clean, shape, optional⟩ := declareRe_match found
    have atStart : atLineStart past.reverse.reverse = true := by rwa [List.reverse_reverse]
    rcases dropIn_cases (definedNames text) m with gone | stays
    · obtain ⟨read, reading⟩ := @readFrom_lineStart _ stemMarks _ atStart
      rw [gone, reading, reading, List.nil_append]
      congr 1
      have inLine : blank ≠ '\n' := by
        rintro rfl
        obtain ⟨read, reading⟩ := @readFrom_lineStart _ lineMarks _ atStart
        apply noBare
        have whole : text = past.reverse ++ ("declare".toList ++ '\n' :: (line ++ '\n' :: more ++ rest)) := by
          rw [split, shape]
          simp only [List.append_assoc, List.cons_append]
        rw [whole, reading, readFrom_newline (by decide)]
        apply List.mem_append_right
        apply List.mem_append_left
        decide
      have first : '\n' ∉ "declare".toList ++ blank :: line := by
        simp only [List.mem_append, List.mem_cons, not_or]
        exact ⟨by decide, fun same => inLine same.symm, clean⟩
      have lines : m.text ++ back = ("declare".toList ++ blank :: line) ++ '\n' :: (more ++ back) := by
        rw [shape]
        simp only [List.append_assoc, List.cons_append]
      have keyword : stemMarks ("declare".toList ++ blank :: line) = [] :=
        stemMarks_keyword (by decide) (by decide) _
      rw [lines, readFrom_newline first, keyword, List.nil_append]
      rcases optional with rfl | ⟨c, section_, space, inSection, rfl⟩
      · rfl
      · have indented := reads_stemMarks.blank c section_ space
        rw [List.append_assoc, List.singleton_append, readFrom_newline inSection, indented,
          List.nil_append]
    · rw [stays]

/-- The parts of a declaration that the pattern takes apart. -/
structure DeclParts (m : Match) where
  blanks : Text
  moreBlanks : Text
  noSign : '!' ∉ blanks ++ (m.group 1 ++ (m.group 2 ++ moreBlanks))
  text : m.text = "declare".toList ++ (blanks ++ (m.group 1 ++ (m.group 2 ++ (moreBlanks ++
    (['@'] ++ (m.group 3 ++ (['('] ++ (m.group 4 ++ ([')'] ++ m.group 5)))))))))
  symbol : Unsigned (m.group 3)
  oneLine : '\n' ∉ m.group 5

theorem declRe_match {past rest : Text} {m : Match} (found : declRe.matchAt past rest = some m) :
    atLineStart past = true ∧ Nonempty (DeclParts m) := by
  obtain ⟨stop, ⟨_, ⟨startsLine, rfl⟩, _, keyword, _, blanks, _, pre, _, ret, _, moreBlanks, _, sign,
    _, name, _, opens, _, args, _, closes, _, post, ends⟩, whole, -, groups⟩ :=
    Pattern.matchAt_eq_some found
  obtain ⟨-, rfl⟩ := ends
  obtain ⟨keywordSplit, keywordGroups⟩ := lit_reaches keyword
  obtain ⟨white, whiteSplit, whiteClean⟩ := @Pattern.Reaches.read_avoids _ '!' (by decide) _ _ blanks
  have whiteGroups := blanks.groups (by rfl)
  obtain ⟨one, oneSplit, oneGroups, oneClean⟩ :=
    @Pattern.Reaches.group_avoids _ _ '!' (by rfl) (by decide) _ _ pre
  obtain ⟨two, twoSplit, twoGroups, twoClean⟩ :=
    @Pattern.Reaches.group_avoids _ _ '!' (by rfl) (by decide) _ _ ret
  obtain ⟨moreWhite, moreSplit, moreClean⟩ :=
    @Pattern.Reaches.read_avoids _ '!' (by decide) _ _ moreBlanks
  have moreGroups := moreBlanks.groups (by rfl)
  obtain ⟨signSplit, signGroups⟩ := lit_reaches sign
  obtain ⟨three, threeSplit, threeGroups, threeLine⟩ :=
    @Pattern.Reaches.group_avoids _ _ '\n' (by rfl) (by decide) _ _ name
  obtain ⟨otherThree, -, otherThreeGroups, threeClean⟩ :=
    @Pattern.Reaches.group_avoids _ _ '!' (by rfl) (by decide) _ _ name
  obtain rfl : three = otherThree := by
    rw [threeGroups] at otherThreeGroups
    exact congrArg Prod.snd (List.cons.inj otherThreeGroups).1
  obtain ⟨opensSplit, opensGroups⟩ := lit_reaches opens
  obtain ⟨-, -, -, four, fourSplit, fourGroups⟩ := Pattern.Reaches.group (by rfl) args
  obtain ⟨closesSplit, closesGroups⟩ := lit_reaches closes
  obtain ⟨five, fiveSplit, fiveGroups, fiveClean⟩ :=
    @Pattern.Reaches.group_avoids _ _ '\n' (by rfl) (by decide) _ _ post
  have noted : m.groups = [(5, five), (4, four), (3, three), (2, two), (1, one)] := by
    rw [groups, fiveGroups, closesGroups, fourGroups, opensGroups, threeGroups, signGroups,
      moreGroups, twoGroups, oneGroups, whiteGroups, keywordGroups]
  have first : m.group 1 = one := by rw [Match.group, noted]; rfl
  have second : m.group 2 = two := by rw [Match.group, noted]; rfl
  have third : m.group 3 = three := by rw [Match.group, noted]; rfl
  have fourth : m.group 4 = four := by rw [Match.group, noted]; rfl
  have fifth : m.group 5 = five := by rw [Match.group, noted]; rfl
  change rest = _ at keywordSplit
  refine ⟨startsLine, ⟨white, moreWhite, ?_, ?_, by rw [third]; exact ⟨threeLine, threeClean⟩,
    by rwa [fifth]⟩⟩
  · rw [first, second]
    simp only [List.mem_append, not_or]
    exact ⟨whiteClean, oneClean, twoClean, moreClean⟩
  · apply (List.append_left_inj stop.rest).mp
    rw [← whole, keywordSplit, whiteSplit, oneSplit, twoSplit, moreSplit, signSplit, threeSplit,
      opensSplit, fourSplit, closesSplit, fiveSplit, first, second, third, fourth, fifth]
    simp only [List.append_assoc]

/-- Whole lines are dropped, so nothing is read that was not. -/
theorem readFrom_dropDefined_sublist {Token : Type} {marks : Text → List Token} (text : Text) :
    (readFrom marks [] (dropDefined text)).Sublist (readFrom marks [] text) := by
  apply @Pattern.related_of_sub _ _ _
    fun first second => (readFrom marks [] first).Sublist (readFrom marks [] second)
  · exact fun text => List.Sublist.refl _
  · exact fun first second => first.trans second
  · intro past m rest back split found
    obtain ⟨startsLine, lines, ends⟩ := declareRe_lines found
    have atStart : atLineStart past.reverse.reverse = true := by rwa [List.reverse_reverse]
    obtain ⟨read, reading⟩ := @readFrom_lineStart _ marks _ atStart
    rcases dropIn_cases (definedNames text) m with gone | stays
    · rw [gone, reading, reading, ends, List.append_assoc, List.singleton_append,
        readFrom_append_newline, List.nil_append]
      exact (List.sublist_append_right _ _).append_left read
    · rw [stays]

/-- The declarations that are dropped, with what follows them. -/
def droppedDeclares (text : Text) : List Text :=
  ((declareRe.findIter text).filter fun m => dropIn (definedNames text) m = []).map Match.text

/-- What is read stands on a line that is kept or in a declaration that is dropped. -/
theorem readFrom_dropDefined_perm {Token : Type} {marks : Text → List Token} (empty : marks [] = [])
    (text : Text) :
    (readFrom marks [] text).Perm (readFrom marks [] (dropDefined text) ++
      (droppedDeclares text).flatMap (readFrom marks [])) := by
  rw [droppedDeclares, List.flatMap_map]
  refine @Pattern.scan_induction declareRe (fun past rest pieces =>
    (readFrom marks (lineSoFar past) rest).Perm
      (readFrom marks (lineSoFar past) (pieces.flatMap (Piece.render (dropIn (definedNames text)))) ++
        ((pieces.filterMap Piece.hit?).filter fun m => dropIn (definedNames text) m = []).flatMap
          fun m => readFrom marks [] m.text)) ?_ ?_ ?_ [] text
  · intro past
    simp
  · intro past c rest _ inductionHypothesis
    rw [List.flatMap_cons, Piece.render, List.singleton_append]
    by_cases newline : c = '\n'
    · subst newline
      rw [readFrom, readFrom, if_pos rfl, if_pos rfl, List.append_assoc]
      exact inductionHypothesis.append_left _
    · rw [readFrom, readFrom, if_neg newline, if_neg newline, ← lineSoFar_cons newline]
      exact inductionHypothesis
  · intro past m rest found inductionHypothesis
    obtain ⟨startsLine, lines, whole⟩ := declareRe_lines found
    have behind : lineSoFar (m.text.reverse ++ past) = [] := by
      rw [whole, List.reverse_append]
      rfl
    have read : ∀ back, readFrom marks [] (m.text ++ back) =
        readFrom marks [] m.text ++ readFrom marks [] back := by
      intro back
      rw [whole, List.append_assoc, List.singleton_append, readFrom_append_newline,
        readFrom_append_newline, readFrom, empty, List.append_nil]
    rw [behind] at inductionHypothesis
    rw [lineSoFar_atLineStart startsLine, read, List.flatMap_cons, Piece.render]
    change List.Perm _ (_ ++ List.flatMap _ (List.filter _ (m :: _)))
    rcases dropIn_cases (definedNames text) m with gone | stays
    · rw [gone, List.nil_append, List.filter_cons_of_pos (by simpa using gone), List.flatMap_cons]
      exact (inductionHypothesis.append_left _).trans (List.perm_append_comm_assoc _ _ _)
    · have kept : dropIn (definedNames text) m ≠ [] := by
        rw [stays, whole]
        simp
      rw [stays, read, List.filter_cons_of_neg (by simpa using kept), List.append_assoc]
      exact inductionHypothesis.append_left _

/-- What a reading finds needs the sign of a node. -/
def Signed {Token : Type} (marks : Text → List Token) : Prop :=
  ∀ line, '!' ∉ line → marks line = []

theorem signed_stemMarks : Signed stemMarks := by
  intro line noSign
  have noPrefix : ¬"noreturn!".toList <+: line := fun starts => noSign (starts.subset (by decide))
  rw [stemMarks, if_neg noPrefix]
  unfold nodeMarks
  split
  · exact absurd List.mem_cons_self noSign
  · rfl

section Tagging

variable {Token : Type} {marks : Text → List Token}

theorem readFrom_signless (signed : Signed marks) {text : Text} (noSign : '!' ∉ text) {line : Text}
    (lineClean : '!' ∉ line) : readFrom marks line text = [] := by
  induction text generalizing line with
  | nil => exact signed line lineClean
  | cons c text inductionHypothesis =>
      have later : '!' ∉ text := fun member => noSign (List.mem_cons_of_mem _ member)
      by_cases newline : c = '\n'
      · rw [readFrom, if_pos newline, signed line lineClean, List.nil_append]
        exact inductionHypothesis later (by simp)
      · rw [readFrom, if_neg newline]
        apply inductionHypothesis later
        simp only [List.mem_append, List.mem_singleton, not_or]
        exact ⟨lineClean, fun same => noSign (same ▸ List.mem_cons_self)⟩

/-- Behind the id of a tag only its own line is read. -/
theorem readFrom_tag (signed : Signed marks) {tag : Text} {tokens : List Token}
    (first : ∀ more, marks (tag ++ ' ' :: more) = tokens) {text : Text} (noSign : '!' ∉ text)
    (more : Text) : readFrom marks (tag ++ ' ' :: more) text = tokens := by
  induction text generalizing more with
  | nil => exact first more
  | cons c text inductionHypothesis =>
      have later : '!' ∉ text := fun member => noSign (List.mem_cons_of_mem _ member)
      by_cases newline : c = '\n'
      · rw [readFrom, if_pos newline, first, readFrom_signless signed later (by simp), List.append_nil]
      · rw [readFrom, if_neg newline, List.append_assoc, List.cons_append]
        exact inductionHypothesis later (more ++ [c])

def tagStart : Text := "declare !dbg ".toList

/-- The start of a declaration that gets this id. -/
def tagOf (id : Nat) : Text := tagStart ++ printId id

theorem tagOf_oneLine (id : Nat) : '\n' ∉ tagOf id := by
  intro member
  rcases List.mem_append.mp member with word | digits
  · exact absurd word (by decide)
  · exact printId_oneLine id digits

/-- The declaration with the id. -/
def taggedMatch (id : Nat) (m : Match) : Text :=
  tagOf id ++ ' ' :: m.group 1 ++ m.group 2 ++ " @".toList ++ m.group 3 ++ '(' :: m.group 4 ++
    ')' :: m.group 5 ++ " section \".ksyms\"".toList

theorem tagDeclare_untagged {file : Text} {m : Match} (kept : untagged (m.group 3) m.text = true)
    (added : Added) : tagDeclare file m added = (m.text, added) := if_pos kept

theorem tagDeclare_tagged {file : Text} {m : Match} (kept : ¬untagged (m.group 3) m.text = true)
    (added : Added) : tagDeclare file m added =
      (taggedMatch (attach file (m.group 3) (m.group 2) (m.group 4) added).1 m,
        (attach file (m.group 3) (m.group 2) (m.group 4) added).2) := if_neg kept

/-- What the pass may put in the place of a declaration. -/
def Tags (ids : List Nat) (m : Match) (word : Text) : Prop :=
  word = m.text ∨ ∃ id ∈ ids, word = taggedMatch id m

theorem attached_subset_attach (file name ret args : Text) (added : Added) :
    added.attached ⊆ (attach file name ret args added).2.attached := by
  rw [attach_eq, (extends_subprogramFor file name ret args added).attached]
  exact List.subset_append_left _ _

/-- What is attached stays noted. -/
theorem attached_subset_renderState (file : Text) (pieces : List Piece) (added : Added) :
    added.attached ⊆ (renderState (tagDeclare file) pieces added).2.attached := by
  apply @renderState_keeps _ (tagDeclare file) fun state => added.attached ⊆ state.attached
  · intro m _ state before
    by_cases kept : untagged (m.group 3) m.text = true
    · rw [tagDeclare_untagged kept]
      exact before
    · rw [tagDeclare_tagged kept]
      exact List.Subset.trans before (attached_subset_attach _ _ _ _ state)
  · exact List.Subset.refl _

/-- Each tag carries an id that is noted. -/
theorem renders_tagDeclare (file : Text) (pieces : List Piece) (added : Added) {ids : List Nat}
    (noted : (renderState (tagDeclare file) pieces added).2.attached ⊆ ids) :
    Renders (Tags ids) pieces (renderState (tagDeclare file) pieces added).1 := by
  induction pieces generalizing added with
  | nil => exact .nil
  | cons piece pieces inductionHypothesis =>
      cases piece with
      | plain c => exact .plain (inductionHypothesis added noted)
      | hit m =>
          change Renders (Tags ids) _ ((tagDeclare file m added).1 ++
            (renderState (tagDeclare file) pieces (tagDeclare file m added).2).1)
          apply Renders.hit _ (inductionHypothesis _ noted)
          by_cases kept : untagged (m.group 3) m.text = true
          · left
            rw [tagDeclare_untagged kept]
          · right
            have grows := attached_subset_renderState file pieces (tagDeclare file m added).2
            refine ⟨(attach file (m.group 3) (m.group 2) (m.group 4) added).1, ?_, ?_⟩
            · apply noted
              apply grows
              rw [tagDeclare_tagged kept, attach_eq]
              exact List.mem_append_right _ (List.mem_singleton_self _)
            · rw [tagDeclare_tagged kept]

/-- The tags are all that is read anew. -/
theorem readFrom_tagDeclares [DecidableEq Token] (reads : Reads marks marks) (signed : Signed marks)
    {carried : Nat → List Token} (tags : ∀ id more, marks (tagOf id ++ ' ' :: more) = carried id)
    (file text : Text) (added : Added) :
    (readFrom marks [] (tagDeclares file text added).1).filter
        (· ∉ (tagDeclares file text added).2.attached.flatMap carried) =
      (readFrom marks [] text).filter
        (· ∉ (tagDeclares file text added).2.attached.flatMap carried) := by
  have rendered := renders_tagDeclare file (declRe.scan [] text 0) added (List.Subset.refl _)
  change Renders _ _ (tagDeclares file text added).1 at rendered
  change Renders (Tags (tagDeclares file text added).2.attached) _ _ at rendered
  generalize (tagDeclares file text added).2.attached = ids at rendered ⊢
  apply @Pattern.related_of_renders _ _ _
    (fun first second => (readFrom marks [] first).filter (· ∉ ids.flatMap carried) =
      (readFrom marks [] second).filter (· ∉ ids.flatMap carried))
    (fun text => rfl) (fun first second => first.trans second) _ _ rendered
  rintro past m rest word back split found (rfl | ⟨id, among, rfl⟩)
  · rfl
  · obtain ⟨startsLine, ⟨parts⟩⟩ := declRe_match found
    have sign := @breaks_char '@' (by decide) (by decide) rfl
    have closing := @breaks_char ')' (by decide) (by decide) rfl
    have atStart : atLineStart past.reverse.reverse = true := by rwa [List.reverse_reverse]
    obtain ⟨read, reading⟩ := @readFrom_lineStart _ marks _ atStart
    have noSign := parts.noSign
    simp only [List.mem_append, not_or] at noSign
    have before : m.text ++ back = ("declare".toList ++ (parts.blanks ++ (m.group 1 ++ (m.group 2 ++
        parts.moreBlanks)))) ++ (['@'] ++ ((m.group 3 ++ (['('] ++ m.group 4)) ++
          ([')'] ++ (m.group 5 ++ back)))) := by
      rw [parts.text]
      simp only [List.append_assoc]
    have after : taggedMatch id m ++ back =
        ((tagOf id ++ [' ']) ++ (m.group 1 ++ (m.group 2 ++ [' ']))) ++ (['@'] ++
          ((m.group 3 ++ (['('] ++ m.group 4)) ++ ([')'] ++
            ((m.group 5 ++ " section \".ksyms\"".toList) ++ back)))) := by
      unfold taggedMatch
      simp only [List.append_assoc, List.cons_append]
      rfl
    have lastLine : '\n' ∉ m.group 5 ++ " section \".ksyms\"".toList := by
      simp only [List.mem_append, not_or]
      exact ⟨parts.oneLine, by decide⟩
    have opening : '!' ∉ ("declare".toList ++ (parts.blanks ++ (m.group 1 ++ (m.group 2 ++
        parts.moreBlanks)))) ++ ['@'] := by
      simp only [List.mem_append, not_or]
      exact ⟨⟨by decide, noSign⟩, by decide⟩
    have newOpening : '!' ∉ (m.group 1 ++ (m.group 2 ++ [' '])) ++ ['@'] := by
      simp only [List.mem_append, not_or]
      exact ⟨⟨noSign.2.1, noSign.2.2.1, by decide⟩, by decide⟩
    have tagLine : '\n' ∉ tagOf id ++ [' '] := by
      simp only [List.mem_append, not_or]
      exact ⟨tagOf_oneLine id, by decide⟩
    have tag : readFrom marks [] (((tagOf id ++ [' ']) ++ (m.group 1 ++ (m.group 2 ++ [' ']))) ++
        ['@']) = carried id := by
      rw [List.append_assoc (tagOf id ++ [' ']), readFrom_line tagLine]
      exact readFrom_tag signed (tags id) newOpening []
    have gone : (carried id).filter (· ∉ ids.flatMap carried) = [] := by
      rw [List.filter_eq_nil_iff]
      intro token member fresh
      exact absurd (List.mem_flatMap.mpr ⟨id, among, member⟩) (by simpa using fresh)
    rw [reading, reading, before, after, readFrom_append (reads.settles sign) sign.oneLine, tag,
      readFrom_append (reads.settles sign) sign.oneLine, readFrom_signless signed opening (by simp),
      readBehind_append (reads.settles closing) closing.oneLine,
      readBehind_append (reads.settles closing) closing.oneLine,
      readBehind_line lastLine, readBehind_line parts.oneLine, List.nil_append]
    simp only [List.filter_append, gone, List.nil_append]

end Tagging

theorem stemMarks_tag (id : Nat) (more : Text) : stemMarks (tagOf id ++ ' ' :: more) = [] :=
  stemMarks_of_head rfl

/-- No tag is a node. -/
theorem stemMarks_tagDeclares (file text : Text) (added : Added) :
    readFrom stemMarks [] (tagDeclares file text added).1 = readFrom stemMarks [] text := by
  have read := readFrom_tagDeclares reads_stemMarks signed_stemMarks stemMarks_tag file text added
  simpa using read

end LibarenaRs.Linker
