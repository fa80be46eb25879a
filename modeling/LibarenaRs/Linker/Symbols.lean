import LibarenaRs.Llvm.Module
import LibarenaRs.Regex.Anchored

/-!
# Where the scripts see a symbol

All scripts find the name on a signature line as `@`, characters of
`[A-Za-z0-9_.$]` and a parenthesis, at the first place that has these.
-/

namespace LibarenaRs.Linker

open LibarenaRs.Regex LibarenaRs.Llvm

/-- `[^\n]*?` -/
def anyInLine : Pattern := .star false (.chr fun c => c != '\n')

/-- `@([A-Za-z0-9_.$]+)\(` -/
def symbolRe : Pattern := .cat [.lit ['@'], .group 1 (.plus true (.chr symbolChar)), .lit ['(']]

/-- A run of symbol characters and the text behind it, which must be a parenthesis. -/
def closeSymbol : Text → Text → Option (Text × Text)
  | c :: name, '(' :: left => some (c :: name, left)
  | _, _ => none

/-- The symbol that starts here, and the text behind its parenthesis. -/
def symbolHere : Text → Option (Text × Text)
  | '@' :: rest => closeSymbol (rest.takeWhile symbolChar) (rest.dropWhile symbolChar)
  | _ => none

/-- What is found in a text from left to right, given the text read before and
what is found right here. -/
def places {Found : Type} (here : Text → Text → Option Found) : Text → Text → List Found
  | _, [] => []
  | past, c :: rest => (here past (c :: rest)).toList ++ places here (c :: past) rest

/-- All symbols in a text, from left to right. -/
def symbolPlaces : Text → List (Text × Text)
  | [] => []
  | c :: rest => (symbolHere (c :: rest)).toList ++ symbolPlaces rest

/-- Where the text before does not matter, it does not matter at all. -/
theorem places_past {Found : Type} (here : Text → Option Found) (past other text : Text) :
    places (fun _ text => here text) past text = places (fun _ text => here text) other text := by
  induction text generalizing past other with
  | nil => rfl
  | cons c rest inductionHypothesis =>
      rw [places, places, inductionHypothesis (c :: past) (c :: other)]

/-- What is found is found at some place. -/
theorem mem_places {Found : Type} {here : Text → Text → Option Found} {past text : Text}
    {found : Found} :
    found ∈ places here past text ↔ ∃ before after, text = before ++ after ∧ after ≠ [] ∧
      here (before.reverse ++ past) after = some found := by
  induction text generalizing past with
  | nil =>
      constructor
      · intro member
        cases member
      · rintro ⟨before, after, split, filled, -⟩
        exact absurd (List.append_eq_nil_iff.mp split.symm).2 filled
  | cons c rest inductionHypothesis =>
      rw [places, List.mem_append, Option.mem_toList, inductionHypothesis]
      constructor
      · rintro (first | ⟨before, after, split, filled, later⟩)
        · exact ⟨[], c :: rest, rfl, by simp, first⟩
        · exact ⟨c :: before, after, by rw [split]; rfl, filled, by simpa using later⟩
      · rintro ⟨before, after, split, filled, found⟩
        cases before with
        | nil =>
            rw [List.nil_append] at split
            exact Or.inl (by rw [split]; simpa using found)
        | cons d before =>
            obtain ⟨rfl, tail⟩ := List.cons.inj split
            exact Or.inr ⟨before, after, tail, filled, by simpa using found⟩

/-- Places in a first part of the text come first. -/
theorem places_append {Found : Type} (here : Text → Text → Option Found) (past before after : Text) :
    ∃ front, places here past (before ++ after) =
        front ++ places here (before.reverse ++ past) after ∧
      ∀ found ∈ front, ∃ start more, before = start ++ more ∧ more ≠ [] ∧
        here (start.reverse ++ past) (more ++ after) = some found := by
  induction before generalizing past with
  | nil => exact ⟨[], rfl, fun found member => by cases member⟩
  | cons c before inductionHypothesis =>
      obtain ⟨front, split, inFront⟩ := inductionHypothesis (c :: past)
      refine ⟨(here past (c :: (before ++ after))).toList ++ front, ?_, ?_⟩
      · rw [List.cons_append, places, split]
        simp
      · intro found member
        rcases List.mem_append.mp member with first | later
        · exact ⟨[], c :: before, rfl, by simp, by simpa using first⟩
        · obtain ⟨start, more, whole, filled, isFound⟩ := inFront found later
          exact ⟨c :: start, more, by rw [whole]; rfl, filled, by simpa using isFound⟩

theorem places_symbolHere (past text : Text) :
    places (fun _ text => symbolHere text) past text = symbolPlaces text := by
  induction text generalizing past with
  | nil => rfl
  | cons c rest inductionHypothesis => rw [places, symbolPlaces, inductionHypothesis]

/-- The first symbol. -/
def symbolIn (text : Text) : Option Text := (symbolPlaces text).head?.map Prod.fst

theorem closeSymbol_of_ne {d : Char} (different : d ≠ '(') (name tail : Text) :
    closeSymbol name (d :: tail) = none := by
  unfold closeSymbol
  split
  · rename_i equality
    exact absurd (List.cons.inj equality).1 different
  · rfl

theorem closeSymbol_eq_some {word tail : Text} {place : Text × Text}
    (found : closeSymbol word tail = some place) :
    word = place.1 ∧ word ≠ [] ∧ tail = '(' :: place.2 := by
  unfold closeSymbol at found
  split at found
  · cases found
    exact ⟨rfl, by simp, rfl⟩
  · cases found

theorem symbolHere_eq_some {text name left : Text} (found : symbolHere text = some (name, left)) :
    text = '@' :: name ++ '(' :: left ∧ name ≠ [] ∧ ∀ c ∈ name, symbolChar c = true := by
  unfold symbolHere at found
  split at found
  · rename_i rest
    obtain ⟨word, filled, tail⟩ := closeSymbol_eq_some found
    simp only at word tail
    subst word
    refine ⟨?_, filled, fun d member => List.all_eq_true.mp List.all_takeWhile d member⟩
    rw [List.cons_append, ← tail, List.takeWhile_append_dropWhile]
  · cases found

theorem symbolHere_at (rest : Text) :
    symbolHere ('@' :: rest) =
      closeSymbol (rest.takeWhile symbolChar) (rest.dropWhile symbolChar) := rfl

theorem symbolHere_of_ne {c : Char} (different : c ≠ '@') (rest : Text) :
    symbolHere (c :: rest) = none := by
  unfold symbolHere
  split
  · rename_i equality
    cases equality
    exact absurd rfl different
  · rfl

/-- What stops a symbol without closing it does not change where symbols are. -/
theorem symbolHere_append {text tail : Text} (filled : text ≠ [])
    (stops : headIs (fun c => symbolChar c || c == '(') tail = false) :
    symbolHere (text ++ tail) = (symbolHere text).map fun place => (place.1, place.2 ++ tail) := by
  obtain ⟨notSymbol, notParen⟩ : headIs symbolChar tail = false ∧
      ∀ word, closeSymbol word tail = none := by
    cases tail with
    | nil =>
        refine ⟨rfl, fun word => ?_⟩
        cases word <;> rfl
    | cons c rest =>
        simp only [headIs, Bool.or_eq_false_iff, beq_eq_false_iff_ne] at stops
        exact ⟨stops.1, fun word => closeSymbol_of_ne stops.2 word rest⟩
  cases text with
  | nil => exact absurd rfl filled
  | cons c inner =>
      by_cases sign : c = '@'
      · subst sign
        rw [List.cons_append, symbolHere_at, symbolHere_at, takeWhile_append_stops notSymbol,
          dropWhile_append_stops notSymbol]
        cases inner.dropWhile symbolChar with
        | nil =>
            rw [List.nil_append, notParen]
            cases inner.takeWhile symbolChar <;> rfl
        | cons d more =>
            by_cases closes : d = '('
            · subst closes
              cases inner.takeWhile symbolChar <;> rfl
            · rw [List.cons_append, closeSymbol_of_ne closes, closeSymbol_of_ne closes]
              rfl
      · rw [List.cons_append, symbolHere_of_ne sign, symbolHere_of_ne sign]
        rfl

theorem findSome?_fst {First Second : Type} (found : List (First × Second)) :
    (found.findSome? fun place => some place.1) = found.head?.map Prod.fst := by
  cases found <;> rfl

/-! ## What the symbol pattern does -/

section Run

variable {Answer : Type} {next : Cursor → Option Answer} {past text : Text}
  {groups : List (Nat × Text)}

theorem run_symbolRe :
    symbolRe.run next ⟨past, text, groups⟩ =
      match symbolHere text with
      | some (name, left) =>
          next ⟨('@' :: name ++ ['(']).reverse ++ past, left, (1, name) :: groups⟩
      | none => none := by
  cases text with
  | nil => rfl
  | cons c rest =>
      by_cases sign : c = '@'
      · subst sign
        have paren : ∀ past d more groups, symbolChar d = true →
            (Pattern.cat [.lit ['(']]).run next ⟨past, d :: more, groups⟩ = none := by
          intro past d more groups accepted
          apply Pattern.run_lit_absent
          rintro ⟨others, same⟩
          cases same
          exact absurd accepted (by decide)
        rw [symbolRe, Pattern.run_cat_cons, show '@' :: rest = ['@'] ++ rest from rfl,
          Pattern.run_lit_append, Pattern.run_cat_cons, Pattern.run_group_plus_maximal paren,
          List.singleton_append, symbolHere_at]
        cases word : rest.takeWhile symbolChar with
        | nil => rfl
        | cons d name =>
            rw [if_neg (by simp)]
            cases tail : rest.dropWhile symbolChar with
            | nil => rfl
            | cons e left =>
                by_cases closes : e = '('
                · subst closes
                  rw [Pattern.run_cat_cons, show '(' :: left = ['('] ++ left from rfl,
                    Pattern.run_lit_append]
                  simp [closeSymbol]
                · rw [closeSymbol_of_ne closes]
                  apply Pattern.run_lit_absent
                  rintro ⟨others, same⟩
                  cases same
                  exact closes rfl
      · rw [symbolHere_of_ne sign]
        apply Pattern.run_lit_absent
        rintro ⟨others, same⟩
        cases same
        exact sign rfl

/-- The pattern behind `[^\n]*?` is tried at each place of the line in turn. -/
theorem run_anyInLine_tail {Found Reading : Type} {pattern : Pattern}
    {here : Text → Text → Option Found} {read : Answer → Reading}
    {judge : Found → Option Reading} (oneLine : '\n' ∉ text) {tail : Text}
    (stops : headIs (· != '\n') tail = false)
    (atEnd : ∀ past, pattern.run next ⟨past, tail, groups⟩ = none)
    (tried : ∀ before after, text = before ++ after → after ≠ [] →
      (pattern.run next ⟨before.reverse ++ past, after ++ tail, groups⟩).map read =
        (here (before.reverse ++ past) after).bind judge) :
    (anyInLine.run (pattern.run next) ⟨past, text ++ tail, groups⟩).map read =
      (places here past text).findSome? judge := by
  rw [anyInLine, Pattern.run_star_chr]
  induction text generalizing past with
  | nil =>
      have stuck : Pattern.repeatChr (pattern.run next) (· != '\n') false groups past tail =
          none := by
        cases tail with
        | nil => simp [Pattern.repeatChr, atEnd]
        | cons c rest =>
            have newline : (c != '\n') = false := stops
            simp [Pattern.repeatChr, atEnd, newline]
      rw [List.nil_append, stuck]
      rfl
  | cons c rest inductionHypothesis =>
      have different : c ≠ '\n' := fun equality => oneLine (by simp [equality])
      have later := @inductionHypothesis (c :: past)
        (fun member => oneLine (List.mem_cons_of_mem _ member)) (by
          intro before after split filled
          have shifted := tried (c :: before) after (by rw [split]; rfl) filled
          simpa using shifted)
      have first := tried [] (c :: rest) rfl (by simp)
      have accepted : (c != '\n') = true := by simpa using different
      simp only [List.reverse_nil, List.nil_append, List.cons_append] at first
      simp only [List.cons_append, Pattern.repeatChr, accepted, if_true, Bool.false_eq_true,
        if_false, places, List.findSome?_append]
      cases found : here past (c :: rest) with
      | none =>
          rw [found, Option.bind_none, Option.map_eq_none_iff] at first
          simp only [first, Option.toList_none, List.findSome?_nil, Option.none_or]
          exact later
      | some place =>
          rw [found, Option.bind_some] at first
          simp only [Option.toList_some, List.findSome?_cons, List.findSome?_nil, ← first]
          cases pattern.run next ⟨past, c :: (rest ++ tail), groups⟩ with
          | none => simpa using later
          | some value => rfl

theorem run_anyInLine {Found Reading : Type} {pattern : Pattern}
    {here : Text → Text → Option Found} {read : Answer → Reading}
    {judge : Found → Option Reading} (oneLine : '\n' ∉ text)
    (atEnd : ∀ past, pattern.run next ⟨past, [], groups⟩ = none)
    (tried : ∀ before after, text = before ++ after → after ≠ [] →
      (pattern.run next ⟨before.reverse ++ past, after, groups⟩).map read =
        (here (before.reverse ++ past) after).bind judge) :
    (anyInLine.run (pattern.run next) ⟨past, text, groups⟩).map read =
      (places here past text).findSome? judge := by
  have withTail := @run_anyInLine_tail Answer next past text groups _ _ pattern here read judge
    oneLine [] rfl atEnd (by
      intro before after split filled
      rw [List.append_nil]
      exact tried before after split filled)
  rwa [List.append_nil] at withTail

/-- The continuation is asked at each symbol in turn. -/
theorem run_anyInLine_symbolRe {Reading : Type} {read : Answer → Reading}
    {judge : Text × Text → Option Reading} (oneLine : '\n' ∉ text) {tail : Text}
    (stops : headIs (· != '\n') tail = false)
    (judged : ∀ past name left, (∃ before, text = before ++ left) →
      (next ⟨'(' :: past, left ++ tail, (1, name) :: groups⟩).map read = judge (name, left)) :
    (anyInLine.run (symbolRe.run next) ⟨past, text ++ tail, groups⟩).map read =
      (symbolPlaces text).findSome? judge := by
  have closed : headIs (fun c => symbolChar c || c == '(') tail = false := by
    cases tail with
    | nil => rfl
    | cons c rest =>
        have newline : c = '\n' := by simpa [headIs] using stops
        rw [newline]
        rfl
  rw [← places_symbolHere past]
  apply run_anyInLine_tail oneLine stops
  · intro past
    rw [run_symbolRe]
    cases tail with
    | nil => rfl
    | cons c rest =>
        have newline : c = '\n' := by simpa [headIs] using stops
        rw [newline, symbolHere_of_ne (by decide)]
  · intro before after split filled
    rw [run_symbolRe, symbolHere_append filled closed]
    cases found : symbolHere after with
    | none => rfl
    | some place =>
        obtain ⟨name, left⟩ := place
        obtain ⟨whole, -, -⟩ := symbolHere_eq_some found
        have behind : ('@' :: name ++ ['(']).reverse ++ (before.reverse ++ past) =
            '(' :: (('@' :: name).reverse ++ (before.reverse ++ past)) := by
          simp
        simp only [Option.map_some, behind]
        exact judged _ name left ⟨before ++ ('@' :: name ++ ['(']), by rw [split, whole]; simp⟩

end Run

/-! ## Lines that start with a keyword -/

/-- `^keyword\s` and more -/
def keywordRe (keyword : Text) (tail : Pattern) : Pattern :=
  .seq .lineStart (.seq (.lit keyword) (.seq (.chr isSpace) tail))

/-- The text behind the keyword and one white space. -/
def afterKeyword (keyword line : Text) : Option Text :=
  match line.dropPrefix? keyword with
  | some (c :: rest) => if isSpace c then some rest else none
  | _ => none

theorem afterKeyword_append (keyword rest : Text) :
    afterKeyword keyword (keyword ++ ' ' :: rest) = some rest := by
  rw [afterKeyword, dropPrefix?_append]
  rfl

theorem afterKeyword_eq_some {keyword line rest : Text}
    (found : afterKeyword keyword line = some rest) :
    ∃ c, isSpace c = true ∧ line = keyword ++ c :: rest := by
  unfold afterKeyword at found
  split at found
  · rename_i c text stripped
    split at found
    · rename_i white
      cases found
      exact ⟨c, white, dropPrefix?_eq_some.mp stripped⟩
    · cases found
  · cases found

/-- Lines that follow do not matter, unless the line is the keyword alone. -/
theorem afterKeyword_line {keyword line tail : Text} (oneLine : '\n' ∉ keyword)
    (stops : headIs (· != '\n') tail = false) (more : line ≠ keyword) :
    afterKeyword keyword (line ++ tail) = (afterKeyword keyword line).map (· ++ tail) := by
  rw [afterKeyword, afterKeyword, dropPrefix?_line oneLine stops]
  cases found : line.dropPrefix? keyword with
  | none => rfl
  | some rest =>
      cases rest with
      | nil =>
          rw [dropPrefix?_eq_some, List.append_nil] at found
          exact absurd found more
      | cons c rest =>
          simp only [Option.map_some, List.cons_append]
          split <;> rfl

/-- The word in front of a white space. -/
theorem firstWord_append {word : Text} (closed : word.all (fun c => !isSpace c) = true) {c : Char}
    (white : isSpace c = true) (rest : Text) : firstWord (word ++ c :: rest) = word :=
  takeWhile_stop closed (by simp [white])

theorem afterKeyword_eq_none {keyword line : Text}
    (closed : keyword.all (fun c => !isSpace c) = true) (different : firstWord line ≠ keyword) :
    afterKeyword keyword line = none := by
  cases found : afterKeyword keyword line with
  | none => rfl
  | some rest =>
      obtain ⟨c, white, rfl⟩ := afterKeyword_eq_some found
      exact absurd (firstWord_append closed white rest) different

section Keyword

variable {keyword : Text} {tail : Pattern}

/-- What a match is once the pattern has been read. -/
def wholeMatch (text : Text) (after : Cursor) : Option Match :=
  if after.rest.length < text.length then
    some ⟨text.take (text.length - after.rest.length), after.groups⟩
  else none

theorem map_wholeMatch {Reading : Type} {text : Text} {after : Cursor}
    (progress : after.rest.length < text.length) (read : List (Nat × Text) → Reading) :
    (wholeMatch text after).map (fun m => read m.groups) = some (read after.groups) := by
  rw [wholeMatch, if_pos progress]
  rfl

theorem matchAt_keywordRe_eq_none {past line : Text}
    (absent : afterKeyword keyword line = none) :
    (keywordRe keyword tail).matchAt past line = none := by
  rw [Pattern.matchAt_eq_none_iff]
  rintro stop ⟨_, ⟨-, rfl⟩, _, ⟨rest, split, rfl⟩, _, ⟨c, left, whole, white, rfl⟩, -⟩
  have here : line = keyword ++ c :: left := by
    rw [← show rest = c :: left from whole]
    exact split
  rw [afterKeyword, dropPrefix?_eq_some.mpr here] at absent
  simp [white] at absent

theorem matchAt_keywordRe {past : Text} (startsLine : atLineStart past = true) {c : Char}
    (white : isSpace c = true) (rest : Text) :
    (keywordRe keyword tail).matchAt past (keyword ++ c :: rest) =
      tail.run (wholeMatch (keyword ++ c :: rest)) ⟨c :: (keyword.reverse ++ past), rest, []⟩ := by
  change (keywordRe keyword tail).run (wholeMatch (keyword ++ c :: rest))
    ⟨past, keyword ++ c :: rest, []⟩ = _
  rw [keywordRe, Pattern.run_seq, Pattern.run_lineStart, if_pos startsLine, Pattern.run_seq,
    Pattern.run_lit_append, Pattern.run_seq, Pattern.run_chr_cons, if_pos white]

/-- What a match leaves of the text. -/
theorem map_wholeMatch_drop {Reading : Type} {total part rest past : Text}
    {groups : List (Nat × Text)} (split : total = part ++ rest) (filled : part ≠ [])
    (read : List (Nat × Text) → Reading) :
    (wholeMatch total ⟨past, rest, groups⟩).map
      (fun m => (read m.groups, total.drop m.text.length)) = some (read groups, rest) := by
  have shorter : rest.length < total.length := by
    have positive := List.length_pos_of_ne_nil filled
    rw [split, List.length_append]
    omega
  rw [wholeMatch, if_pos shorter, Option.map_some, split, List.length_append,
    Nat.add_sub_cancel, List.take_left, List.drop_left]

/-- No line consists of the keyword alone, so the white space is not a newline. -/
theorem keywordRe_stays (tailInLine : tail.avoids '\n' = true) (keywordInLine : '\n' ∉ keyword)
    {lines : List Text} (oneLine : ∀ line ∈ lines, '\n' ∉ line) (more : keyword ∉ lines) :
    ∀ before line after, lines = before ++ line :: after → ∀ past stop,
      (Pattern.seq (.lit keyword) (.seq (.chr isSpace) tail)).Reaches
        ⟨past, joinLines (line :: after), []⟩ stop →
      ¬Pattern.Crosses ⟨past, joinLines (line :: after), []⟩ stop := by
  rintro before line after rfl past stop ⟨_, ⟨rest, split, rfl⟩, _, ⟨c, left, whole, white, rfl⟩,
    reached⟩ ⟨read, crossing, newline⟩
  have text : joinLines (line :: after) = keyword ++ c :: left := by
    rw [← show rest = c :: left from whole]
    exact split
  obtain ⟨tailRead, tailSplit, clean⟩ := reached.read_avoids tailInLine
  have readSplit : read = keyword ++ c :: tailRead := by
    apply @List.append_cancel_right _ _ stop.rest
    rw [← show joinLines (line :: after) = read ++ stop.rest from crossing, text,
      show left = tailRead ++ stop.rest from tailSplit]
    simp
  have white' : c = '\n' := by
    rw [readSplit] at newline
    simp only [List.mem_append, List.mem_cons, keywordInLine, clean, or_false, false_or] at newline
    exact newline.symm
  subst white'
  -- the line ends where the keyword does
  have same : line = keyword := by
    have lineClean := oneLine line (by simp)
    cases after with
    | nil =>
        rw [joinLines_singleton] at text
        rw [text] at lineClean
        exact absurd (by simp) lineClean
    | cons other others =>
        rw [joinLines_cons_cons] at text
        have words := congrArg (List.takeWhile (· != '\n')) text
        have plain : ∀ word : Text, '\n' ∉ word → word.all (· != '\n') = true := by
          intro word clean
          rw [List.all_eq_true]
          intro d member
          have different : d ≠ '\n' := fun equality => clean (equality ▸ member)
          simpa using different
        rwa [takeWhile_stop (plain line lineClean) (by decide),
          takeWhile_stop (plain keyword keywordInLine) (by decide)] at words
  exact more (by simp [same])

end Keyword

end LibarenaRs.Linker
