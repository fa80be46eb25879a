import LibarenaRs.Linker.NodeLines

/-!
# The stages behind the declarations

The word `noreturn` goes, empty groups and internal functions get their words,
returns are written, and declarations and nodes are added.  A reading that starts
at a sign no white space hides follows a text through all of them.
-/

namespace LibarenaRs.Linker

open LibarenaRs.Regex LibarenaRs.Llvm

/-! ## The word that is taken out -/

/-- The rest of a text with the word taken out. -/
def withoutNoreturn (past text : Text) : Text :=
  (noreturnRe.scan past text 0).flatMap (Piece.render fun _ => [])

theorem noreturnRe_match {past text : Text} {m : Match}
    (found : noreturnRe.matchAt past text = some m) :
    m.text = "noreturn".toList ∧ headIs isWord past = false ∧ ∃ left,
      text = "noreturn".toList ++ left ∧ headIs isWord left = false := by
  obtain ⟨stop, ⟨_, ⟨before, rfl⟩, middle, word, behind, rfl⟩, whole, -, -⟩ :=
    Pattern.matchAt_eq_some found
  obtain ⟨left, split, rfl⟩ := word
  change text = "noreturn".toList ++ left at split
  change text = m.text ++ left at whole
  subst split
  refine ⟨(List.append_cancel_right whole).symm, ?_, left, rfl, ?_⟩
  · have letter : headIs isWord ("noreturn".toList ++ left) = true := rfl
    change (headIs isWord past != headIs isWord ("noreturn".toList ++ left)) = true at before
    rw [letter] at before
    simpa using before
  · change (headIs isWord ("noreturn".toList.reverse ++ past) != headIs isWord left) = true at behind
    have letter : headIs isWord ("noreturn".toList.reverse ++ past) = true := rfl
    rw [letter] at behind
    simpa using behind

/-- A character stays, or the word starts here. -/
theorem withoutNoreturn_cases (past : Text) (c : Char) (rest : Text) :
    withoutNoreturn past (c :: rest) = c :: withoutNoreturn (c :: past) rest ∨
      (headIs isWord past = false ∧ ∃ left, c :: rest = "noreturn".toList ++ left ∧
        headIs isWord left = false ∧
        withoutNoreturn past (c :: rest) = withoutNoreturn ("noreturn".toList.reverse ++ past) left) := by
  cases found : noreturnRe.matchAt past (c :: rest) with
  | none =>
      left
      simp only [withoutNoreturn, Pattern.scan, found]
      rfl
  | some m =>
      right
      obtain ⟨text, before, left, split, behind⟩ := noreturnRe_match found
      refine ⟨before, left, split, behind, ?_⟩
      have filled : m.text ≠ [] := by simp [text]
      rw [split, ← text] at found
      rw [split, ← text, withoutNoreturn, Pattern.scan_hit filled found]
      rfl

theorem withoutNoreturn_keeps {c : Char} (other : c ≠ 'n') (past rest : Text) :
    withoutNoreturn past (c :: rest) = c :: withoutNoreturn (c :: past) rest := by
  rcases withoutNoreturn_cases past c rest with kept | ⟨-, left, split, -, -⟩
  · exact kept
  · exact absurd (List.cons.inj split).1 other

theorem withoutNoreturn_behindWord {past : Text} (word : headIs isWord past = true) (c : Char)
    (rest : Text) : withoutNoreturn past (c :: rest) = c :: withoutNoreturn (c :: past) rest := by
  rcases withoutNoreturn_cases past c rest with kept | ⟨before, -⟩
  · exact kept
  · rw [word] at before
    cases before

theorem isWord_of_isDigit {c : Char} (digit : c.isDigit = true) : isWord c = true := by
  simp [isWord, Char.isAlphanum, digit]

/-- A text without the first letter of the word stays. -/
theorem withoutNoreturn_append {front : Text} (free : 'n' ∉ front) (past rest : Text) :
    withoutNoreturn past (front ++ rest) = front ++ withoutNoreturn (front.reverse ++ past) rest := by
  induction front generalizing past with
  | nil => rfl
  | cons c front inductionHypothesis =>
      rw [List.mem_cons, not_or] at free
      rw [List.cons_append, withoutNoreturn_keeps (Ne.symm free.1), inductionHypothesis free.2]
      simp

/-- What comes first is no digit if it was none. -/
theorem withoutNoreturn_noDigit {text : Text} (noDigit : headIs Char.isDigit text = false)
    (past : Text) : headIs Char.isDigit (withoutNoreturn past text) = false := by
  cases text with
  | nil => rfl
  | cons c rest =>
      rcases withoutNoreturn_cases past c rest with kept | ⟨-, left, -, behind, gone⟩
      · rw [kept]
        exact noDigit
      · rw [gone]
        cases left with
        | nil => rfl
        | cons d left =>
            have noWord : isWord d = false := behind
            have other : d ≠ 'n' := by
              rintro rfl
              cases noWord
            rw [withoutNoreturn_keeps other]
            change d.isDigit = false
            by_contra digit
            rw [isWord_of_isDigit (by simpa using digit)] at noWord
            cases noWord

/-- Digits at the start stay, and nothing joins them. -/
theorem digits_withoutNoreturn (past text : Text) :
    (withoutNoreturn past text).takeWhile Char.isDigit = text.takeWhile Char.isDigit ∧
      (withoutNoreturn past text).dropWhile Char.isDigit =
        withoutNoreturn ((text.takeWhile Char.isDigit).reverse ++ past)
          (text.dropWhile Char.isDigit) := by
  have digits : (text.takeWhile Char.isDigit).all Char.isDigit = true := List.all_takeWhile
  have free : 'n' ∉ text.takeWhile Char.isDigit :=
    fun member => absurd (List.all_eq_true.mp digits _ member) (by decide)
  have stops : headIs Char.isDigit (text.dropWhile Char.isDigit) = false := by
    cases shape : text.dropWhile Char.isDigit with
    | nil => rfl
    | cons d more =>
        have rejected := @List.head?_dropWhile_not _ Char.isDigit text
        rw [shape] at rejected
        change d.isDigit = false
        simpa using rejected
  have newStops := withoutNoreturn_noDigit stops ((text.takeWhile Char.isDigit).reverse ++ past)
  have read : withoutNoreturn past text = text.takeWhile Char.isDigit ++
      withoutNoreturn ((text.takeWhile Char.isDigit).reverse ++ past)
        (text.dropWhile Char.isDigit) := by
    nth_rewrite 1 [← @List.takeWhile_append_dropWhile _ Char.isDigit text]
    exact withoutNoreturn_append free _ _
  have none_ := takeWhile_append_stops newStops []
  have all := dropWhile_append_stops newStops []
  rw [List.nil_append, List.takeWhile_nil] at none_
  rw [List.nil_append, List.dropWhile_nil, List.nil_append] at all
  constructor
  · rw [read, List.takeWhile_append_of_pos (List.all_eq_true.mp digits), none_, List.append_nil]
  · rw [read, List.dropWhile_append_of_pos (List.all_eq_true.mp digits), all]

/-- A word that stands at the start afterwards stood there, or the word that goes cut it at a
place between characters of no word. -/
theorem prefix_of_withoutNoreturn {word past text : Text}
    (starts : word <+: withoutNoreturn past text) :
    word <+: text ∨ ∃ front back left, word = front ++ back ∧ back ≠ [] ∧
      text = front ++ ("noreturn".toList ++ left) ∧ headIs isWord (front.reverse ++ past) = false ∧
      headIs isWord left = false ∧ ∃ behind, back <+: withoutNoreturn behind left := by
  induction word generalizing past text with
  | nil => exact Or.inl (List.nil_prefix)
  | cons c word inductionHypothesis =>
      cases text with
      | nil => exact absurd starts (by rintro ⟨more, same⟩; cases same)
      | cons d rest =>
          rcases withoutNoreturn_cases past d rest with kept | ⟨before, left, split, behind, gone⟩
          · rw [kept, List.cons_prefix_cons] at starts
            obtain ⟨rfl, starts⟩ := starts
            rcases inductionHypothesis starts with whole |
              ⟨front, back, left, parts, filled, split, before, behind, onward⟩
            · exact Or.inl (List.cons_prefix_cons.mpr ⟨rfl, whole⟩)
            · refine Or.inr ⟨c :: front, back, left, by rw [parts]; rfl, filled,
                by rw [split]; rfl, ?_, behind, onward⟩
              simpa using before
          · rw [gone] at starts
            exact Or.inr ⟨[], c :: word, left, rfl, List.cons_ne_nil _ _, split, before, behind, _,
              starts⟩

theorem withoutNoreturn_subset (past text : Text) : withoutNoreturn past text ⊆ text := by
  have general := @Pattern.scan_induction noreturnRe
    (fun past text pieces => pieces.flatMap (Piece.render fun _ => []) ⊆ text)
    (fun past => List.Subset.refl _)
    (fun past c rest _ inductionHypothesis => List.cons_subset_cons c inductionHypothesis)
    (fun past m rest found inductionHypothesis =>
      fun c member => List.mem_append_right _ (inductionHypothesis member))
  exact general past text

section Stages

variable {Token : Type} {marks : Text → List Token}

/-- Where no line reads otherwise without the word, the text does not. -/
theorem readFrom_noreturnRe {text : Text}
    (each : ∀ line ∈ splitLines text, marks (withoutNoreturn [] line) = marks line) :
    readFrom marks [] (noreturnRe.sub (fun _ => []) text) = readFrom marks [] text := by
  have clean : ∀ line ∈ splitLines text, '\n' ∉ line := fun line => oneLine_of_mem_splitLines
  have stays : noreturnRe.inLine = true := by decide
  have perLine := Pattern.sub_joinLines stays (fun _ => []) (splitLines text)
  have newClean : ∀ line ∈ (splitLines text).map (noreturnRe.sub fun _ => []), '\n' ∉ line := by
    intro line member newline
    obtain ⟨old, among, rfl⟩ := List.mem_map.mp member
    exact clean old among (withoutNoreturn_subset [] old newline)
  rw [joinLines_splitLines] at perLine
  rw [perLine, readFrom_joinLines (by simpa using splitLines_ne_nil text) newClean, readFrom_nil,
    List.flatMap_map]
  exact List.flatMap_congr each

/-! ## The groups and the flags -/

theorem breaks_attributes : Breaks "attributes #".toList :=
  ⟨by decide, ⟨'#', by decide, by decide⟩, by decide, by decide⟩

theorem readFrom_emptyGroupRe (reads : Reads marks marks) (text : Text) :
    readFrom marks [] (emptyGroupRe.sub (fun m => m.group 1 ++ " nounwind \x7d".toList) text) =
      readFrom marks [] text := by
  apply @Pattern.related_of_sub _ _ _
    fun first second => readFrom marks [] first = readFrom marks [] second
  · exact fun text => rfl
  · exact fun first second => first.trans second
  · intro past m rest back split found
    obtain ⟨stop, ⟨_, ⟨-, rfl⟩, _, opening, _, blanks, _, brace, ends⟩, whole, -, groups⟩ :=
      Pattern.matchAt_eq_some found
    obtain ⟨-, rfl⟩ := ends
    obtain ⟨_, ⟨_, keyword, digits⟩, same, read, readSplit, readGroups⟩ :=
      Pattern.Reaches.group (by rfl) opening
    obtain ⟨keywordSplit, -⟩ := lit_reaches keyword
    obtain ⟨number, numberSplit, numberClean⟩ := @Pattern.Reaches.read_avoids _ '\n' (by decide) _ _ digits
    obtain ⟨white, whiteSplit, isWhite, whiteGroups⟩ := blanks_reaches blanks
    obtain ⟨braceSplit, braceGroups⟩ := lit_reaches brace
    have group : m.group 1 = "attributes #".toList ++ number := by
      have noted : m.group 1 = read := by
        rw [Match.group, groups, braceGroups, whiteGroups, readGroups]
        rfl
      rw [noted]
      apply (List.append_left_inj _).mp
      rw [← readSplit, keywordSplit, numberSplit, same, List.append_assoc]
    have text : m.text = "attributes #".toList ++ (number ++ (white ++ ['}'])) := by
      apply (List.append_left_inj stop.rest).mp
      change m.text ++ rest = _ at keywordSplit
      rw [← whole, keywordSplit, numberSplit, ← same, whiteSplit, braceSplit]
      simp only [List.append_assoc]
    have brace_ := @breaks_char '}' (by decide) (by decide) rfl
    have settled := (reads.settles breaks_attributes).quiet breaks_attributes.oneLine
    have before : Quiet marks marks ("attributes #".toList ++ (number ++ (white ++ ['}']))) := by
      apply settled.append
      intro back
      rw [List.append_assoc, readBehind_line numberClean, List.append_assoc]
      exact silent_blanks reads isWhite brace_ back
    have after : Quiet marks marks
        ("attributes #".toList ++ (number ++ " nounwind \x7d".toList)) := by
      apply settled.append
      apply readBehind_line
      simp only [List.mem_append, not_or]
      exact ⟨numberClean, by decide⟩
    have shown := after.same before past.reverse back []
    rw [text, group, List.append_assoc "attributes #".toList]
    exact shown

theorem readFrom_stripNoreturn (reads : Reads marks marks) {text : Text}
    (each : ∀ line ∈ splitLines text, marks (withoutNoreturn [] line) = marks line) :
    readFrom marks [] (stripNoreturn text) = readFrom marks [] text := by
  rw [stripNoreturn, readFrom_emptyGroupRe reads, readFrom_noreturnRe each]

theorem linkageRe_match {id past rest : Text} {m : Match}
    (found : (linkageRe id).matchAt past rest = some m) :
    m.group 1 = m.text ∧ ∃ more, '\n' ∉ more ∧
      m.text = (id ++ " = distinct !DISubprogram".toList) ++ (['('] ++ more) := by
  obtain ⟨stop, ⟨middle, grouped, blocked⟩, whole, -, groups⟩ := Pattern.matchAt_eq_some found
  obtain ⟨-, rfl⟩ := blocked
  obtain ⟨inner, ⟨_, head, _, loop, mark⟩, same, read, readSplit, readGroups⟩ :=
    Pattern.Reaches.group (by rfl) grouped
  obtain ⟨headSplit, -⟩ := lit_reaches head
  obtain ⟨between, loopSplit, all⟩ := Pattern.star_chr_reaches loop
  obtain ⟨markSplit, -⟩ := lit_reaches mark
  have text : m.text = read := by
    apply (List.append_left_inj _).mp
    exact whole.symm.trans readSplit
  have group : m.group 1 = read := by
    rw [Match.group, groups, readGroups]
    rfl
  refine ⟨group.trans text.symm, between ++ "spFlags: ".toList, ?_, ?_⟩
  · simp only [List.mem_append, not_or]
    exact ⟨fun member => by simpa using all _ member, by decide⟩
  · apply (List.append_left_inj stop.rest).mp
    rw [← whole]
    change rest = _ at headSplit
    have opening : " = distinct !DISubprogram(".toList = " = distinct !DISubprogram".toList ++ ['('] := by
      decide
    rw [headSplit, loopSplit, markSplit, ← same, nodeHead, opening]
    simp only [List.append_assoc]

theorem readFrom_internalLinkage (reads : Reads marks marks) (text : Text) :
    readFrom marks [] (internalLinkage text) = readFrom marks [] text := by
  have each : ∀ (ids : List Text) text, readFrom marks [] (ids.foldl (fun text id =>
      (linkageRe id).sub (fun m => m.group 1 ++ "DISPFlagLocalToUnit | ".toList) text) text) =
        readFrom marks [] text := by
    intro ids
    induction ids with
    | nil => exact fun text => rfl
    | cons id ids inductionHypothesis =>
        intro text
        rw [List.foldl_cons, inductionHypothesis]
        apply @Pattern.related_of_sub _ _ _
          fun first second => readFrom marks [] first = readFrom marks [] second
        · exact fun text => rfl
        · exact fun first second => first.trans second
        · intro past m rest back split found
          obtain ⟨group, more, clean, shape⟩ := linkageRe_match found
          have opening := @breaks_char '(' (by decide) (by decide) rfl
          have wordClean : '\n' ∉ more ++ "DISPFlagLocalToUnit | ".toList := by
            simp only [List.mem_append, not_or]
            exact ⟨clean, by decide⟩
          have same := (quiet_line reads opening wordClean).same
            (quiet_line reads opening clean)
            (past.reverse ++ (id ++ " = distinct !DISubprogram".toList)) back []
          rw [group, shape]
          simp only [List.append_assoc] at same ⊢
          exact same
  exact each (debugIds text) text

/-! ## The returns -/

theorem oneLine_zeroReturn {type : Text} (oneLine : '\n' ∉ type) : '\n' ∉ zeroReturn type := by
  unfold zeroReturn
  repeat' split
  · decide
  all_goals
    simp only [List.mem_append, not_or]
    exact ⟨⟨by decide, oneLine⟩, by decide⟩

theorem unreachableRe_indent {line : Text} {m : Match}
    (found : unreachableRe.matchStart line = some m) :
    ∃ c more rest, m.group 1 = c :: more ∧ line = c :: rest ∧ isSpace c = true := by
  obtain ⟨stop, ⟨_, ⟨-, rfl⟩, _, indent, _, word, _, boundary, _, tail, ends⟩, -, -, groups⟩ :=
    Pattern.matchAt_eq_some found
  obtain ⟨-, rfl⟩ := ends
  obtain ⟨-, rfl⟩ := boundary
  obtain ⟨_, ⟨_, ⟨c, left, here, white, rfl⟩, loop⟩, same, read, readSplit, readGroups⟩ :=
    Pattern.Reaches.group (by rfl) indent
  obtain ⟨-, wordGroups⟩ := lit_reaches word
  obtain ⟨-, -, -, behind, -, tailGroups⟩ := Pattern.Reaches.group (by rfl) tail
  obtain ⟨more, moreSplit, -⟩ := Pattern.star_chr_reaches loop
  change line = c :: left at here
  change left = more ++ _ at moreSplit
  change line = _ at readSplit
  have parts : read = c :: more := by
    apply (List.append_left_inj _).mp
    rw [← readSplit, here, moreSplit, same]
    rfl
  refine ⟨c, more, left, ?_, here, white⟩
  rw [Match.group, groups, tailGroups, wordGroups, readGroups, ← parts]
  rfl

theorem zeroLine_spec (blank : ∀ c line, isSpace c = true → marks (c :: line) = [])
    {type line : Text} (typeLine : '\n' ∉ type) (oneLine : '\n' ∉ line) :
    '\n' ∉ (zeroLine type line).line ∧ marks (zeroLine type line).line = marks line := by
  unfold zeroLine
  cases found : unreachableRe.matchStart line with
  | none => exact ⟨oneLine, rfl⟩
  | some m =>
      have metaClean : '\n' ∉ ((debugRe.search (m.group 2)).map fun found => found.group 1).getD [] := by
        cases searched : debugRe.search (m.group 2) with
        | none => simp
        | some other =>
            obtain ⟨read, rest, split, matched⟩ := Pattern.matchAt_of_search searched
            intro member
            apply oneLine
            apply Pattern.group_subset found 2
            rw [split]
            exact List.mem_append_right _ (Pattern.group_subset matched 1 member)
      have indentClean : '\n' ∉ m.group 1 := fun member => oneLine (Pattern.group_subset found 1 member)
      obtain ⟨c, more, rest, indent, here, white⟩ := unreachableRe_indent found
      refine ⟨?_, ?_⟩
      · simp only [Emitted.line, List.mem_append, not_or]
        exact ⟨⟨indentClean, oneLine_zeroReturn typeLine⟩, metaClean⟩
      · simp only [Emitted.line, indent, here, List.cons_append]
        rw [blank _ _ white, blank _ _ white]

/-- The loop changes no line that is read. -/
theorem zeroLoop_spec (blank : ∀ c line, isSpace c = true → marks (c :: line) = [])
    {type : Text} (typeLine : '\n' ∉ type) {lines : List (Unit × Text)}
    (oneLine : ∀ line ∈ lines, '\n' ∉ line.2) :
    (∀ line ∈ (zeroLoop type lines).map fun emitted => emitted.2.line, '\n' ∉ line) ∧
      ((zeroLoop type lines).map fun emitted => emitted.2.line).flatMap marks =
        lines.flatMap fun line => marks line.2 := by
  induction lines generalizing type with
  | nil => exact ⟨by simp [zeroLoop], rfl⟩
  | cons line lines inductionHypothesis =>
      obtain ⟨owner, line⟩ := line
      have lineClean := oneLine (owner, line) List.mem_cons_self
      have current : '\n' ∉ (headerType line).getD type := by
        cases read : headerType line with
        | none => exact typeLine
        | some found =>
            obtain ⟨m, matched, rfl⟩ := Option.map_eq_some_iff.mp read
            exact fun member => lineClean (Pattern.group_subset matched 1 member)
      obtain ⟨first, ids⟩ := zeroLine_spec blank current lineClean
      obtain ⟨later, laterIds⟩ := inductionHypothesis current
        fun other member => oneLine other (List.mem_cons_of_mem _ member)
      rw [zeroLoop, List.map_cons, List.flatMap_cons, List.flatMap_cons, laterIds, ids]
      refine ⟨?_, rfl⟩
      intro other member
      rcases List.mem_cons.mp member with rfl | inside
      · exact first
      · exact later other inside

theorem readFrom_zeroReturns (blank : ∀ c line, isSpace c = true → marks (c :: line) = [])
    (text : Text) :
    readFrom marks [] (zeroReturns text) = readFrom marks [] text := by
  have oneLine : ∀ line ∈ (splitLines text).map fun line => ((), line), '\n' ∉ line.2 := by
    intro line member
    obtain ⟨inner, among, rfl⟩ := List.mem_map.mp member
    exact oneLine_of_mem_splitLines among
  obtain ⟨clean, ids⟩ := @zeroLoop_spec _ _ blank "void".toList (by decide) _ oneLine
  have filled : ((zeroLoop "void".toList ((splitLines text).map fun line => ((), line))).map
      fun emitted => emitted.2.line) ≠ [] := by
    cases shape : splitLines text with
    | nil => exact absurd shape (splitLines_ne_nil text)
    | cons line others => simp [zeroLoop]
  rw [zeroReturns, readFrom_joinLines filled clean, ids, readFrom_nil, List.flatMap_map]

/-! ## What is added -/

/-- Only the new declarations are read anew. -/
theorem readFrom_addDeclares [DecidableEq Token] {extra : List Text}
    (oneLine : ∀ line ∈ extra, '\n' ∉ line) (empty : marks [] = []) {fresh : List Token}
    (added : ∀ line ∈ extra, marks line ⊆ fresh) (text : Text) :
    (readFrom marks [] (addDeclares extra text)).filter (· ∉ fresh) =
      (readFrom marks [] text).filter (· ∉ fresh) := by
  by_cases none_ : extra = []
  · rw [addDeclares, if_pos none_]
  · have gone : (readFrom marks [] (joinLines extra)).filter (· ∉ fresh) = [] := by
      rw [readFrom_joinLines none_ oneLine, List.filter_eq_nil_iff]
      intro token member
      obtain ⟨line, among, inLine⟩ := List.mem_flatMap.mp member
      simpa using added line among inLine
    rw [addDeclares, if_neg none_]
    apply @Pattern.related_of_renders _ _ _
      (fun first second => (readFrom marks [] first).filter (· ∉ fresh) =
        (readFrom marks [] second).filter (· ∉ fresh))
      (fun text => rfl) (fun first second => first.trans second) _ _ (renders_renderFirst _ _)
    rintro past m rest word back - found (rfl | rfl)
    · obtain ⟨stop, ⟨_, ⟨startsLine, rfl⟩, -⟩, -, -, -⟩ := Pattern.matchAt_eq_some found
      have atStart : atLineStart past.reverse.reverse = true := by rwa [List.reverse_reverse]
      obtain ⟨read, reading⟩ := @readFrom_lineStart _ marks _ atStart
      have text : (joinLines extra ++ "\n\n".toList ++ m.text) ++ back =
          joinLines extra ++ '\n' :: ([] ++ '\n' :: (m.text ++ back)) := by
        rw [show "\n\n".toList = ['\n', '\n'] from rfl]
        simp
      rw [reading, reading, text, readFrom_append_newline, readFrom_append_newline, readFrom, empty,
        List.nil_append]
      simp only [List.filter_append, gone, List.nil_append]
    · rfl

/-- White space at the end of a line does not change what is read. -/
def Trims (marks : Text → List Token) : Prop :=
  ∀ line blanks, (∀ c ∈ blanks, isSpace c = true) → marks (line ++ blanks) = marks line

theorem prefix_append_blanks {word blanks : Text} {last : Char} (ends : word.getLast? = some last)
    (black : isSpace last = false) (white : ∀ c ∈ blanks, isSpace c = true) (line : Text) :
    word <+: line ++ blanks ↔ word <+: line := by
  refine ⟨?_, fun starts => starts.trans (List.prefix_append line blanks)⟩
  rintro ⟨rest, split⟩
  rcases List.append_eq_append_iff.mp split with ⟨more, whole, -⟩ | ⟨more, whole, tail⟩
  · exact ⟨more, whole.symm⟩
  · -- the last character would be white space
    by_cases empty : more = []
    · exact ⟨[], by rw [whole, empty, List.append_nil, List.append_nil]⟩
    · rw [whole, List.getLast?_append_of_ne_nil line empty] at ends
      have space := white last (by
        rw [tail]
        exact List.mem_append_left _ (List.mem_of_getLast? ends))
      rw [black] at space
      cases space

theorem noDigit_of_blanks {blanks : Text} (white : ∀ c ∈ blanks, isSpace c = true) :
    headIs Char.isDigit blanks = false := by
  cases blanks with
  | nil => rfl
  | cons c rest =>
      have first := white c List.mem_cons_self
      change c.isDigit = false
      cases digit : c.isDigit with
      | false => rfl
      | true =>
          have printed := @printable_of_isAlphanum c (by simp [Char.isAlphanum, digit])
          rw [isSpace_of_printable printed, beq_iff_eq] at first
          subst first
          cases digit

theorem readFrom_append_blanks (trims : Trims marks) (empty : marks [] = []) {blanks : Text}
    (white : ∀ c ∈ blanks, isSpace c = true) (text line : Text) :
    readFrom marks line (text ++ blanks) = readFrom marks line text := by
  have blankEnd : ∀ blanks, (∀ c ∈ blanks, isSpace c = true) → ∀ line,
      readFrom marks line blanks = marks line := by
    intro blanks
    induction blanks with
    | nil => exact fun _ line => rfl
    | cons c blanks inductionHypothesis =>
        intro white line
        have later := inductionHypothesis fun d member => white d (List.mem_cons_of_mem _ member)
        by_cases newline : c = '\n'
        · rw [readFrom, if_pos newline, later, empty, List.append_nil]
        · rw [readFrom, if_neg newline, later]
          apply trims
          intro d member
          rw [List.mem_singleton.mp member]
          exact white c List.mem_cons_self
  have same := @readFrom_congr _ marks blanks []
    (blankEnd blanks white) text line
  rwa [List.append_nil] at same

theorem rstrip_append (text : Text) :
    ∃ blanks, text = rstrip text ++ blanks ∧ ∀ c ∈ blanks, isSpace c = true := by
  have parts := @List.takeWhile_append_dropWhile _ isSpace text.reverse
  refine ⟨(text.reverse.takeWhile isSpace).reverse, ?_, ?_⟩
  · rw [rstrip, ← List.reverse_append, parts, List.reverse_reverse]
  · intro c member
    exact List.all_eq_true.mp List.all_takeWhile c (List.mem_reverse.mp member)

theorem nodeLine_oneLine {node : Nat × Node} (plain : node.2.Plain) : '\n' ∉ nodeLine node := by
  unfold nodeLine
  simp only [List.mem_append, not_or]
  exact ⟨⟨printId_oneLine node.1, by decide⟩, plain.oneLine⟩

/-- The new nodes stand behind everything else. -/
theorem readFrom_emit (trims : Trims marks) (empty : marks [] = []) {nodes : List (Nat × Node)}
    (plain : ∀ node ∈ nodes, node.2.Plain) (text : Text) :
    readFrom marks [] (emit nodes text) =
      readFrom marks [] text ++ nodes.flatMap fun node => marks (nodeLine node) := by
  by_cases none_ : nodes = []
  · rw [emit, if_pos none_, none_, List.flatMap_nil, List.append_nil]
  · obtain ⟨blanks, split, white⟩ := rstrip_append text
    have stripped : readFrom marks [] (rstrip text) = readFrom marks [] text := by
      nth_rewrite 2 [split]
      rw [readFrom_append_blanks trims empty white]
    have clean : ∀ line ∈ nodes.map nodeLine, '\n' ∉ line := by
      intro line member
      obtain ⟨node, among, rfl⟩ := List.mem_map.mp member
      exact nodeLine_oneLine (plain node among)
    have last : readFrom marks [] (joinLines (nodes.map nodeLine) ++ ['\n']) =
        nodes.flatMap fun node => marks (nodeLine node) := by
      rw [readFrom_append_blanks trims empty (by simp [isSpace]),
        readFrom_joinLines (by simpa using none_) clean, List.flatMap_map]
    have text : emit nodes text =
        rstrip text ++ '\n' :: (joinLines (nodes.map nodeLine) ++ ['\n']) := by
      rw [emit, if_neg none_, List.append_assoc]
      rfl
    rw [text, readFrom_append_newline, stripped, last]

end Stages

end LibarenaRs.Linker
