import LibarenaRs.Linker.Headers

/-!
# force_inline

The pass that asks `opt` to inline every function but those in a keep file.  It
takes `noinline` out of the attribute groups and reads the functions off their
signature lines.
-/

namespace LibarenaRs.Linker

open LibarenaRs.Regex LibarenaRs.Llvm

/-! ## The script -/

/-- `str.split()` -/
def splitWords (text : Text) : List Text :=
  (text.splitBy fun c d => !isSpace c && !isSpace d).filter fun word => !word.any isSpace

/-- `(attributes #\d+ = \{[^}]*?) ?\bnoinline\b` -/
def noinlineBody : Pattern :=
  .cat [
    .group 1 (.cat [.lit "attributes #".toList, .plus true (.chr Char.isDigit),
      .lit " = \x7b".toList, .star false (.chr fun c => c != '}')]),
    .opt (.chr fun c => c == ' '), .wordBoundary, .lit "noinline".toList, .wordBoundary]

/-- `^(attributes #\d+ = \{[^}]*?) ?\bnoinline\b` -/
def noinlineRe : Pattern := .seq .lineStart noinlineBody

/-- `^define\s[^\n]*?@([A-Za-z0-9_.$]+)\(` -/
def defineRe : Pattern :=
  .cat [.lineStart, .lit "define".toList, .chr isSpace, anyInLine, symbolRe]

/-- The argument that marks one function. -/
def forceAttribute (name : Text) : Text :=
  "--force-attribute=".toList ++ name ++ ":alwaysinline".toList

structure ForceInline where
  out : Text
  args : List Text

/-- The whole script, from the contents of its input file and its keep file. -/
def forceInline (keepFile text : Text) : ForceInline :=
  let keep := splitWords keepFile
  let stripped := noinlineRe.sub (fun m => m.group 1) text
  let names := (defineRe.findIter stripped).map fun m => m.group 1
  ⟨stripped, (names.filter fun name => !keep.contains name).map forceAttribute⟩

/-! ## The scan -/

theorem map_group_defineRe {line : Text} (oneLine : '\n' ∉ line) :
    (defineRe.matchAt [] line).map (fun m => m.group 1) =
      (afterKeyword "define".toList line).bind symbolIn := by
  cases found : afterKeyword "define".toList line with
  | none =>
      rw [show defineRe = keywordRe "define".toList (.seq anyInLine symbolRe) from rfl,
        matchAt_keywordRe_eq_none found]
      rfl
  | some rest =>
      obtain ⟨c, white, rfl⟩ := afterKeyword_eq_some found
      have clean : '\n' ∉ rest := fun member => oneLine (by simp [member])
      have judged : ∀ past name left, (∃ before, rest = before ++ left) →
          (wholeMatch ("define".toList ++ c :: rest) ⟨'(' :: past, left ++ [], [(1, name)]⟩).map
            (fun m => m.group 1) = some (name, left).1 := by
        rintro past name left ⟨before, rfl⟩
        refine map_wholeMatch ?_ fun groups => (groups.lookup 1).getD []
        simp only [List.append_nil, List.length_append, List.length_cons]
        omega
      have first := @run_anyInLine_symbolRe Match (wholeMatch ("define".toList ++ c :: rest))
        (c :: "define".toList.reverse) rest [] Text (fun m => m.group 1) (fun place => some place.1)
        clean [] rfl judged
      rw [List.append_nil] at first
      rw [show defineRe = keywordRe "define".toList (.seq anyInLine symbolRe) from rfl,
        matchAt_keywordRe rfl white, List.append_nil, Pattern.run_seq, first]
      exact findSome?_fst (symbolPlaces rest)

/-- What the scan reads off the lines of a text. -/
theorem findIter_defineRe {lines : List Text} (oneLine : ∀ line ∈ lines, '\n' ∉ line)
    (more : "define".toList ∉ lines) :
    (defineRe.findIter (joinLines lines)).map (fun m => m.group 1) =
      lines.filterMap fun line => (afterKeyword "define".toList line).bind symbolIn := by
  have stays := @keywordRe_stays "define".toList (.seq anyInLine symbolRe) (by decide) (by decide)
    lines oneLine more
  have perLine := Pattern.findIter_lines (by decide) oneLine stays
  change defineRe.findIter (joinLines lines) = lines.filterMap (defineRe.matchAt []) at perLine
  rw [perLine, List.map_filterMap]
  apply List.filterMap_congr
  exact fun line member => map_group_defineRe (oneLine line member)

/-! ## The attribute groups -/

/-- The first group starts with the keyword. -/
theorem noinlineBody_reaches {past text : Text} {stop : Cursor}
    (reached : noinlineBody.Reaches ⟨past, text, []⟩ stop) :
    ∃ read left, text = "attributes #".toList ++ read ++ left ∧
      stop.groups = [(1, "attributes #".toList ++ read)] := by
  obtain ⟨_, ⟨inner, ⟨_, ⟨rest, split, rfl⟩, more⟩, rfl⟩, tail⟩ := reached
  obtain ⟨read, splitMore, -⟩ := Pattern.Reaches.read more
  change text = "attributes #".toList ++ rest at split
  change rest = read ++ inner.rest at splitMore
  have groups : inner.groups = [] := by
    obtain ⟨_, ⟨_, ⟨c, left, -, -, rfl⟩, digits⟩, _, ⟨left', -, rfl⟩, others⟩ := more
    have kept : ∀ {accepts : Char → Bool} {greedy : Bool} {start stop : Cursor},
        (Pattern.star greedy (.chr accepts)).Reaches start stop → stop.groups = start.groups := by
      intro accepts greedy start stop loop
      induction loop with
      | refl => rfl
      | tail _ step same =>
          obtain ⟨⟨d, after, -, -, rfl⟩, -⟩ := step
          exact same
    rw [kept others]
    exact kept digits
  refine ⟨read, inner.rest, by rw [split, splitMore, List.append_assoc], ?_⟩
  have group : (inner.close 1 text).groups = [(1, "attributes #".toList ++ read)] := by
    have whole : text = ("attributes #".toList ++ read) ++ inner.rest := by
      rw [split, splitMore, List.append_assoc]
    have length : text.length - inner.rest.length = ("attributes #".toList ++ read).length := by
      rw [whole, List.length_append, Nat.add_sub_cancel]
    rw [Cursor.close, length, groups, whole, List.take_left]
  rw [← group]
  obtain ⟨_, optional, _, ⟨-, rfl⟩, _, ⟨_, -, rfl⟩, -, rfl⟩ := tail
  rcases optional with ⟨c, left, -, -, rfl⟩ | same
  · rfl
  · obtain rfl := same
    rfl

/-- A line that is changed was and stays an attribute group. -/
theorem subLine_noinlineRe {line : Text} (oneLine : '\n' ∉ line) :
    noinlineRe.subLine (fun m => m.group 1) line = line ∨
      firstWord line = "attributes".toList ∧
        firstWord (noinlineRe.subLine (fun m => m.group 1) line) = "attributes".toList ∧
        '\n' ∉ noinlineRe.subLine (fun m => m.group 1) line := by
  rw [Pattern.subLine]
  cases found : noinlineRe.matchAt [] line with
  | none => exact Or.inl rfl
  | some m =>
      right
      obtain ⟨stop, ⟨_, ⟨-, rfl⟩, reached⟩, split, -, groups⟩ := Pattern.matchAt_eq_some found
      obtain ⟨read, left, whole, first⟩ := noinlineBody_reaches reached
      have group : m.group 1 = "attributes #".toList ++ read := by
        rw [Match.group, groups, first]
        rfl
      have word : ∀ rest, firstWord ("attributes #".toList ++ rest) = "attributes".toList :=
        fun rest => @firstWord_append "attributes".toList (by decide) ' ' (by decide) ('#' :: rest)
      change firstWord line = _ ∧ firstWord (m.group 1 ++ line.drop m.text.length) = _ ∧
        '\n' ∉ m.group 1 ++ line.drop m.text.length
      refine ⟨by rw [whole, List.append_assoc, word], by rw [group, List.append_assoc, word], ?_⟩
      intro member
      apply oneLine
      rcases List.mem_append.mp member with inGroup | inRest
      · rw [whole]
        rw [group] at inGroup
        exact List.mem_append_left _ inGroup
      · exact List.mem_of_mem_drop inRest

/-- White space in front of a newline or not, the first word is that of the line. -/
theorem firstWord_joinLines (line : Text) (after : List Text) :
    firstWord (joinLines (line :: after)) = firstWord line := by
  cases after with
  | nil => rfl
  | cons other others =>
      rw [joinLines_cons_cons, firstWord, firstWord, List.takeWhile_append]
      split
      · rename_i whole
        have all : line.takeWhile (fun c => !isSpace c) = line :=
          (List.takeWhile_prefix _).eq_of_length whole
        rw [all, List.takeWhile_cons_of_neg (by decide), List.append_nil]
      · rfl

theorem noinlineRe_stays (m : Module) :
    ∀ before line after, m.lines = before ++ line :: after → ∀ past stop,
      noinlineBody.Reaches ⟨past, joinLines (line :: after), []⟩ stop →
      ¬Pattern.Crosses ⟨past, joinLines (line :: after), []⟩ stop := by
  intro before line after places past stop reached
  have member : line ∈ m.lines := by
    rw [places]
    simp
  obtain ⟨item, -, inside⟩ := List.mem_flatMap.mp member
  have attributes : firstWord line = "attributes".toList := by
    obtain ⟨read, left, whole, -⟩ := noinlineBody_reaches reached
    rw [← firstWord_joinLines line after, whole, List.append_assoc]
    exact @firstWord_append "attributes".toList (by decide) ' ' (by decide) ('#' :: (read ++ left))
  cases item with
  | attributeGroup group =>
      -- the brace at the end of the line is never read
      obtain rfl := List.mem_singleton.mp inside
      have clean := not_newline_of_printable group.printable_print
      obtain ⟨content, rest, closed⟩ : ∃ content rest, group.print = content ++ ['}'] ∧
          joinLines (group.print :: after) = content ++ '}' :: rest := by
        refine ⟨"attributes #".toList ++ printNat group.index ++ " = \x7b".toList ++
          group.content.val, ?_⟩
        cases after with
        | nil => exact ⟨[], rfl, rfl⟩
        | cons other others =>
            refine ⟨'\n' :: joinLines (other :: others), rfl, ?_⟩
            rw [joinLines_cons_cons]
            unfold AttributeGroup.print
            rw [List.append_assoc]
            rfl
      rw [closed.2] at reached ⊢
      apply reached.not_crosses (by decide)
      intro member
      exact clean (by rw [closed.1]; exact List.mem_append_left _ member)
  | function header body =>
      rcases List.mem_cons.mp inside with rfl | later
      · rw [firstWord_defineLine] at attributes
        exact absurd attributes (by decide)
      · obtain ⟨inner, -, rfl⟩ := List.mem_map.mp later
        exact absurd attributes fun same => inner.property.2.2 (by simp [same])
  | declaration metadata header =>
      rw [List.mem_singleton.mp inside, firstWord_declareLine] at attributes
      exact absurd attributes (by decide)
  | global variable_ =>
      obtain ⟨rest, word⟩ := firstWord_global variable_
      rw [List.mem_singleton.mp inside, word] at attributes
      exact absurd (List.cons.inj attributes).1 (by decide)
  | other other =>
      rw [List.mem_singleton.mp inside] at attributes
      exact absurd attributes fun same => other.property.2.2 (by simp [same])

/-- The scan sees the same lines as before the groups changed. -/
theorem stripped_lines (m : Module) :
    (((m.lines.map (noinlineRe.subLine fun m => m.group 1)).filterMap fun line =>
        (afterKeyword "define".toList line).bind symbolIn) =
      m.functions.filterMap fun header => symbolIn header.print) := by
  rw [← filterMap_define, List.filterMap_map]
  apply List.filterMap_congr
  intro line member
  rcases subLine_noinlineRe (Module.oneLine member) with same | ⟨before, after, -⟩
  · rw [Function.comp_apply, same]
  · rw [Function.comp_apply, afterKeyword_eq_none (by decide) (by rw [after]; decide),
      afterKeyword_eq_none (by decide) (by rw [before]; decide)]

/-- The names the script reads, in the order of the functions. -/
theorem forceInline_args (keepFile : Text) (m : Module) :
    (forceInline keepFile m.text).args =
      ((m.functions.filterMap fun header => symbolIn header.print).filter
        fun name => !(splitWords keepFile).contains name).map forceAttribute := by
  have strip := @Pattern.sub_lines noinlineBody m.lines (by decide)
    (fun line member => Module.oneLine member) (noinlineRe_stays m) fun m => m.group 1
  change noinlineRe.sub _ m.text = _ at strip
  have oneLine : ∀ line ∈ m.lines.map (noinlineRe.subLine fun m => m.group 1), '\n' ∉ line := by
    intro line member
    obtain ⟨old, oldMember, rfl⟩ := List.mem_map.mp member
    rcases subLine_noinlineRe (Module.oneLine oldMember) with same | ⟨-, -, clean⟩
    · rw [same]
      exact Module.oneLine oldMember
    · exact clean
  have more : "define".toList ∉ m.lines.map (noinlineRe.subLine fun m => m.group 1) := by
    intro member
    obtain ⟨old, oldMember, equal⟩ := List.mem_map.mp member
    rcases subLine_noinlineRe (Module.oneLine oldMember) with same | ⟨-, word, -⟩
    · rw [same] at equal
      rw [equal] at oldMember
      exact define_not_mem_lines m oldMember
    · rw [equal] at word
      exact absurd word (by decide)
  have names := findIter_defineRe oneLine more
  rw [stripped_lines] at names
  rw [← names]
  change (((defineRe.findIter (noinlineRe.sub _ m.text)).map _).filter _).map _ = _
  rw [strip]
  rfl

theorem forceAttribute_injective : Function.Injective forceAttribute := by
  intro first second same
  unfold forceAttribute at same
  exact List.append_cancel_left (List.append_cancel_right same)

/-- A function is marked exactly if its name is read and not in the keep file. -/
theorem mem_forceInline_args {keepFile : Text} {m : Module} {name : Text} :
    forceAttribute name ∈ (forceInline keepFile m.text).args ↔
      (∃ header ∈ m.functions, symbolIn header.print = some name) ∧
        name ∉ splitWords keepFile := by
  rw [forceInline_args, List.mem_map_of_injective forceAttribute_injective, List.mem_filter,
    List.mem_filterMap]
  simp

/-! ## When the right functions are marked -/

/-- The functions marked are those defined and not kept. -/
def MarksExactly (m : Module) (keepFile : Text) : Prop :=
  ∀ name, forceAttribute name ∈ (forceInline keepFile m.text).args ↔
    (∃ header ∈ m.functions, header.name = name) ∧ name ∉ splitWords keepFile

/-- The signature line is read as this name: its own, or one that stands elsewhere. -/
def ReadAs (header : Header) (name : Text) : Prop :=
  (header.SymbolFirst ∧ header.name = name) ∨ header.stray = some name

theorem symbolIn_print_eq_some {header : Header} {name : Text} :
    symbolIn header.print = some name ↔ ReadAs header name := by
  rw [header.symbolIn_print, ReadAs]
  by_cases first : header.SymbolFirst
  · rw [if_pos first, header.stray_eq_none_of_symbolFirst first]
    simp [first]
  · rw [if_neg first]
    simp [first]

/-- The right functions are marked exactly if every function that is not kept is
read from some signature line, and everything read from elsewhere on a signature
line is a function or is kept. -/
theorem force_inline_marksExactly_iff (m : Module) (keepFile : Text) :
    MarksExactly m keepFile ↔
      (∀ header ∈ m.functions, header.name ∉ splitWords keepFile →
        ∃ other ∈ m.functions, ReadAs other header.name) ∧
      ∀ header ∈ m.functions, ∀ name, header.stray = some name →
        name ∉ splitWords keepFile → ∃ other ∈ m.functions, other.name = name := by
  simp only [MarksExactly, mem_forceInline_args, symbolIn_print_eq_some]
  constructor
  · intro marked
    constructor
    · intro header member free
      exact ((marked header.name).mpr ⟨⟨header, member, rfl⟩, free⟩).1
    · intro header member name found free
      exact ((marked name).mp ⟨⟨header, member, Or.inr found⟩, free⟩).1
  · rintro ⟨complete, sound⟩ name
    constructor
    · rintro ⟨⟨header, member, own | found⟩, free⟩
      · exact ⟨⟨header, member, own.2⟩, free⟩
      · exact ⟨sound header member name found free, free⟩
    · rintro ⟨⟨header, member, rfl⟩, free⟩
      exact ⟨complete header member free, free⟩

/-- `define void @"a$b"() {` -/
def dollarFunction : Header where
  linkage := .external
  qualifiers := []
  returns := .void
  name := "a$b".toList
  named := by decide
  parameters := .empty
  attributes := .empty
  sectionName := none
  trailer := .brace

/-- A name between quotes is not marked. -/
theorem force_inline_quoted :
    ¬MarksExactly [.function dollarFunction []] [] := by
  intro marked
  have defined := (marked "a$b".toList).mpr ⟨⟨dollarFunction, List.mem_cons_self, rfl⟩, by decide⟩
  have nothing : (forceInline [] (Module.text [.function dollarFunction []])).args = [] := by
    decide
  rw [nothing] at defined
  cases defined

end LibarenaRs.Linker
