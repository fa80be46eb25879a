import LibarenaRs.Linker.ForceInline
import LibarenaRs.Linker.NodeLines
import LibarenaRs.Regex.RunOn
import Mathlib.Data.List.TakeWhile

/-!
# The declarations that are dropped

`lower_mem` and `bpf_finalize` both end by dropping the declarations of functions that
the module defines.  On the lines of a text that is a loop: it looks at the lines that
declare something, and takes the line behind one with it if that continues it.
-/

namespace LibarenaRs.Linker

open LibarenaRs.Regex LibarenaRs.Llvm

/-! ## The first symbol -/

theorem group_symbolRe (past text : Text) :
    ((symbolRe.scan past text 0).filterMap Piece.hit?).head?.map (fun m => m.group 1) =
      symbolIn text := by
  induction text generalizing past with
  | nil => rfl
  | cons c rest inductionHypothesis =>
      have ran := @run_symbolRe _ (wholeMatch (c :: rest)) past (c :: rest) []
      change symbolRe.matchAt past (c :: rest) = _ at ran
      cases here : symbolHere (c :: rest) with
      | none =>
          rw [here] at ran
          simp only [Pattern.scan, ran, symbolIn, symbolPlaces, here, Option.toList_none,
            List.nil_append, List.filterMap_cons, Piece.hit?]
          exact inductionHypothesis (c :: past)
      | some place =>
          obtain ⟨name, left⟩ := place
          obtain ⟨shape, -, -⟩ := symbolHere_eq_some here
          have progress : left.length < (c :: rest).length := by
            rw [shape]
            simp
            omega
          rw [here] at ran
          simp only [wholeMatch, if_pos progress] at ran
          simp only [Pattern.scan, ran, symbolIn, symbolPlaces, here, Option.toList_some,
            List.singleton_append, List.filterMap_cons, Piece.hit?, List.head?_cons,
            Option.map_some]
          rfl

theorem search_symbolRe (text : Text) :
    (symbolRe.search text).map (fun m => m.group 1) = symbolIn text := group_symbolRe [] text

/-- A symbol stands in one line. -/
theorem symbolIn_newline (line rest : Text) :
    symbolIn (line ++ '\n' :: rest) = (symbolIn line).or (symbolIn rest) := by
  induction line with
  | nil =>
      rw [List.nil_append, symbolIn, symbolPlaces, symbolHere_of_ne (by decide)]
      rfl
  | cons c line inductionHypothesis =>
      have first := @symbolHere_append (c :: line) ('\n' :: rest) (List.cons_ne_nil _ _) rfl
      rw [List.cons_append] at first
      unfold symbolIn at *
      rw [List.cons_append, symbolPlaces, symbolPlaces, first]
      cases here : symbolHere (c :: line) with
      | none => exact inductionHypothesis
      | some place => rfl

/-! ## Lines -/

def blank (c : Char) : Bool := c == ' ' || c == '\t'

/-- A line that declares something. -/
def declares (line : Text) : Bool := (afterKeyword "declare".toList line).isSome

/-- A line that can be the second one of a declaration. -/
def continues (line : Text) : Bool :=
  !(line.takeWhile blank).isEmpty && "section".toList.isPrefixOf (line.dropWhile blank)

/-- The loop over the lines.  The last line has no newline behind it and stays. -/
def dropLines (defined : List Text) : List Text → List Text
  | line :: next :: rest =>
      if !declares line then line :: dropLines defined (next :: rest)
      else if continues next && !rest.isEmpty then
        if ((symbolIn line).or (symbolIn next)).any defined.contains then dropLines defined rest
        else line :: next :: dropLines defined rest
      else if (symbolIn line).any defined.contains then dropLines defined (next :: rest)
      else line :: dropLines defined (next :: rest)
  | lines => lines

/-- `[ \t]+section[^\n]*\n` -/
def continuationRe : Pattern :=
  .cat [.plus true (.chr fun c => c == ' ' || c == '\t'), .lit "section".toList,
    .star true (.chr fun c => c != '\n'), .lit ['\n']]

theorem declareRe_eq : declareRe = keywordRe "declare".toList
    (.cat [.star true (.chr fun c => c != '\n'), .lit ['\n'], .opt continuationRe]) := rfl

section Run

variable {Answer : Type} {next : Cursor → Option Answer} {past line tail : Text}
  {groups : List (Nat × Text)}

theorem run_newline (rest : Text) : (Pattern.lit ['\n']).run next ⟨past, '\n' :: rest, groups⟩ =
    next ⟨'\n' :: past, rest, groups⟩ :=
  Pattern.run_lit_append next ['\n'] rest past groups

/-- `[^\n]*` up to a newline reads the rest of the line. -/
theorem run_restOfLine (oneLine : '\n' ∉ line) (ends : headIs (· != '\n') tail = false)
    (others : List Pattern) :
    (Pattern.cat (.star true (.chr fun c => c != '\n') :: .lit ['\n'] :: others)).run next
        ⟨past, line ++ tail, groups⟩ =
      (Pattern.cat (.lit ['\n'] :: others)).run next ⟨line.reverse ++ past, tail, groups⟩ := by
  have stuck : ∀ past c rest, (c != '\n') = true →
      (Pattern.cat (.lit ['\n'] :: others)).run next ⟨past, c :: rest, groups⟩ = none := by
    intro past c rest other
    rw [Pattern.run_cat_cons]
    apply Pattern.run_lit_absent
    rintro ⟨left, same⟩
    rw [← (List.cons.inj same).1] at other
    exact absurd other (by decide)
  have all : ∀ c ∈ line, (c != '\n') = true := by
    intro c member
    exact bne_iff_ne.mpr fun same => oneLine (same ▸ member)
  rw [Pattern.run_cat_cons, Pattern.run_star_maximal stuck, takeWhile_append_stops ends,
    dropWhile_append_stops ends, List.takeWhile_eq_self_iff.mpr all,
    List.dropWhile_eq_nil_iff.mpr all, List.nil_append]

/-- The pattern reads a line that continues up to its end. -/
theorem run_continuationRe (oneLine : '\n' ∉ line) (ends : headIs (· != '\n') tail = false) :
    continuationRe.run next ⟨past, line ++ tail, groups⟩ =
      if continues line then
        (Pattern.lit ['\n']).run next ⟨line.reverse ++ past, tail, groups⟩
      else none := by
  let word : Pattern :=
    .cat [.lit "section".toList, .star true (.chr fun c => c != '\n'), .lit ['\n']]
  have noBlank : headIs blank tail = false := by
    cases tail with
    | nil => rfl
    | cons c tail =>
        obtain rfl : c = '\n' := by simpa [headIs] using ends
        rfl
  have stuck : ∀ past c rest, blank c = true →
      word.run next ⟨past, c :: rest, groups⟩ = none := by
    intro past c rest isBlank
    apply (Pattern.run_cat_cons _ _ _ _).trans
    apply Pattern.run_lit_absent
    rintro ⟨others, same⟩
    rw [← (List.cons.inj same).1] at isBlank
    exact absurd isBlank (by decide)
  have opens : continuationRe.run next ⟨past, line ++ tail, groups⟩ =
      if (line ++ tail).takeWhile blank = [] then none
      else word.run next ⟨((line ++ tail).takeWhile blank).reverse ++ past,
          (line ++ tail).dropWhile blank, groups⟩ :=
    (Pattern.run_cat_cons _ _ _ _).trans (Pattern.run_plus_maximal stuck)
  rw [opens, takeWhile_append_stops noBlank, dropWhile_append_stops noBlank, continues]
  have split := @List.takeWhile_append_dropWhile _ blank line
  cases blanks : line.takeWhile blank with
  | nil => rfl
  | cons c read =>
      rw [if_neg (List.cons_ne_nil c read)]
      rw [blanks] at split
      apply (Pattern.run_cat_cons _ _ _ _).trans
      by_cases keyword : "section".toList <+: line.dropWhile blank
      · obtain ⟨left, shape⟩ := keyword
        have clean : '\n' ∉ left := by
          intro member
          apply oneLine
          rw [← split, ← shape]
          exact List.mem_append_right _ (List.mem_append_right _ member)
        have found : "section".toList.isPrefixOf (line.dropWhile blank) = true :=
          List.isPrefixOf_iff_prefix.mpr ⟨left, shape⟩
        have back : ("section".toList ++ left).reverse ++ ((c :: read).reverse ++ past) =
            line.reverse ++ past := by
          rw [shape, ← List.append_assoc, ← List.reverse_append, split]
        rw [found, ← shape, List.append_assoc, Pattern.run_lit_append, run_restOfLine clean ends,
          ← List.append_assoc, ← List.reverse_append, back]
        rfl
      · have absent : ¬"section".toList <+: line.dropWhile blank ++ tail := by
          have line_ := @dropPrefix?_line "section".toList (line.dropWhile blank) tail (by decide) ends
          rw [dropPrefix?_eq_none.mpr keyword] at line_
          exact dropPrefix?_eq_none.mp line_
        have none_ : "section".toList.isPrefixOf (line.dropWhile blank) = false := by
          rw [← Bool.not_eq_true, List.isPrefixOf_iff_prefix]
          exact keyword
        rw [none_, Bool.and_false]
        exact Pattern.run_lit_absent _ absent

end Run

/-! ## One declaration -/

/-- The text of the second line of a declaration, if the lines behind the first have one. -/
def continuation : List Text → Text
  | next :: _ :: _ => if continues next then next ++ ['\n'] else []
  | _ => []

theorem wholeMatch_append {part rest past : Text} {groups : List (Nat × Text)}
    (filled : part ≠ []) :
    wholeMatch (part ++ rest) ⟨past, rest, groups⟩ = some ⟨part, groups⟩ := by
  have shorter : rest.length < (part ++ rest).length := by
    have positive := List.length_pos_of_ne_nil filled
    rw [List.length_append]
    omega
  rw [wholeMatch, if_pos shorter, List.length_append, Nat.add_sub_cancel, List.take_left]

theorem matchAt_declareRe {past line : Text} {behind : List Text}
    (startsLine : atLineStart past = true) (isDeclaration : declares line = true)
    (oneLine : ∀ other ∈ line :: behind, '\n' ∉ other) (filled : behind ≠ []) :
    declareRe.matchAt past (joinLines (line :: behind)) =
      some ⟨line ++ '\n' :: continuation behind, []⟩ := by
  obtain ⟨left, found⟩ := Option.isSome_iff_exists.mp isDeclaration
  obtain ⟨space, white, shape⟩ := afterKeyword_eq_some found
  have clean : '\n' ∉ left := by
    intro member
    apply oneLine line List.mem_cons_self
    rw [shape]
    exact List.mem_append_right _ (List.mem_cons_of_mem _ member)
  have whole : joinLines (line :: behind) =
      "declare".toList ++ space :: (left ++ '\n' :: joinLines behind) := by
    cases behind with
    | nil => exact absurd rfl filled
    | cons next rest =>
        rw [joinLines_cons_cons, shape, List.append_assoc]
        rfl
  have ended : ∀ more rest past, joinLines behind = more ++ rest →
      wholeMatch ("declare".toList ++ space :: (left ++ '\n' :: joinLines behind))
          ⟨past, rest, []⟩ = some ⟨line ++ '\n' :: more, []⟩ := by
    intro more rest past split
    have parts : "declare".toList ++ space :: (left ++ '\n' :: joinLines behind) =
        (line ++ '\n' :: more) ++ rest := by
      rw [split, shape]
      simp only [List.append_assoc, List.cons_append]
    rw [parts]
    exact wholeMatch_append (List.append_ne_nil_of_right_ne_nil _ (List.cons_ne_nil _ _))
  rw [whole, declareRe_eq, matchAt_keywordRe startsLine white, run_restOfLine clean rfl,
    Pattern.run_cat_cons, run_newline]
  apply (Pattern.run_opt _ _ _).trans
  cases behind with
  | nil => exact absurd rfl filled
  | cons next rest =>
      have cleanNext := oneLine next (by simp)
      cases rest with
      | nil =>
          have last : ∀ {Answer : Type} (goOn : Cursor → Option Answer) (past : Text),
              continuationRe.run goOn ⟨past, next, []⟩ = none := by
            intro Answer goOn past
            have alone := @run_continuationRe _ goOn past next [] [] cleanNext rfl
            rw [List.append_nil] at alone
            rw [alone]
            split <;> rfl
          rw [joinLines_singleton] at ended ⊢
          rw [last]
          exact ended [] _ _ rfl
      | cons other rest =>
          rw [joinLines_cons_cons] at ended ⊢
          rw [run_continuationRe cleanNext rfl, run_newline, continuation]
          by_cases more : continues next = true
          · rw [if_pos more, if_pos more, ended (next ++ ['\n']) _ _ (by simp)]
            rfl
          · rw [if_neg more, if_neg more]
            exact ended [] _ _ rfl

theorem afterKeyword_undeclared {line tail : Text} (other : declares line = false)
    (filled : line ≠ "declare".toList) (ends : headIs (· != '\n') tail = false) :
    afterKeyword "declare".toList (line ++ tail) = none := by
  rw [declares, Option.isSome_eq_false_iff, Option.isNone_iff_eq_none] at other
  rw [afterKeyword_line (by decide) ends filled, other]
  rfl

theorem matchAt_undeclared {past line tail : Text} (other : declares line = false)
    (filled : line ≠ "declare".toList) (ends : headIs (· != '\n') tail = false) :
    declareRe.matchAt past (line ++ tail) = none := by
  rw [declareRe_eq]
  exact matchAt_keywordRe_eq_none (afterKeyword_undeclared other filled ends)

theorem matchAt_last {past line : Text} (oneLine : '\n' ∉ line) :
    declareRe.matchAt past line = none := by
  cases found : declareRe.matchAt past line with
  | none => rfl
  | some m =>
      obtain ⟨-, space, read, more, -, -, shape, -⟩ := declareRe_match found
      obtain ⟨stop, -, split, -⟩ := Pattern.matchAt_eq_some found
      have inside : '\n' ∈ m.text := by
        rw [shape]
        simp
      exact absurd (split ▸ List.mem_append_left _ inside) oneLine

/-- Whether a declaration goes hangs on its first symbol. -/
theorem dropIn_eq (defined : List Text) (text : Text) (groups : List (Nat × Text)) :
    dropIn defined ⟨text, groups⟩ =
      if (symbolIn text).any defined.contains then [] else text := by
  rw [dropIn, ← search_symbolRe]
  cases symbolRe.search text <;> rfl

/-! ## The whole text -/

/-- What the substitution makes of the lines behind this text. -/
def dropFrom (defined : List Text) (past : Text) (lines : List Text) : Text :=
  (declareRe.scan past (joinLines lines) 0).flatMap (Piece.render (dropIn defined))

theorem dropFrom_copied {defined : List Text} {past line : Text} {behind : List Text}
    (oneLine : '\n' ∉ line) (filled : behind ≠ [])
    (absent : declareRe.matchAt past (joinLines (line :: behind)) = none) :
    dropFrom defined past (line :: behind) =
      line ++ '\n' :: dropFrom defined ('\n' :: (line.reverse ++ past)) behind := by
  cases behind with
  | nil => exact absurd rfl filled
  | cons next rest =>
      rw [joinLines_cons_cons] at absent
      have copied : declareRe.scan past (line ++ '\n' :: joinLines (next :: rest)) 0 =
          (line ++ ['\n']).map .plain ++
            declareRe.scan ('\n' :: (line.reverse ++ past)) (joinLines (next :: rest)) 0 :=
        Pattern.scan_unmatched oneLine absent
      rw [dropFrom, joinLines_cons_cons, copied, List.flatMap_append, Pattern.flatMap_render_plain,
        List.append_assoc]
      rfl

theorem dropFrom_declaration {defined : List Text} {past read : Text} {lines behind : List Text}
    {groups : List (Nat × Text)} (split : joinLines lines = read ++ joinLines behind)
    (filled : read ≠ [])
    (found : declareRe.matchAt past (joinLines lines) = some ⟨read, groups⟩) :
    dropFrom defined past lines = (if (symbolIn read).any defined.contains then [] else read) ++
      dropFrom defined (read.reverse ++ past) behind := by
  rw [split] at found
  have hit := @Pattern.scan_hit declareRe past (joinLines behind) ⟨read, groups⟩ filled found
  rw [dropFrom, split, hit, List.flatMap_cons, Piece.render, dropIn_eq]
  rfl

theorem symbolIn_ended (line : Text) : symbolIn (line ++ ['\n']) = symbolIn line := by
  rw [symbolIn_newline]
  exact Option.or_none

/-- A declaration of one line. -/
theorem dropFrom_one {defined : List Text} {past line next : Text} {rest : List Text}
    (startsLine : atLineStart past = true) (isDeclaration : declares line = true)
    (oneLine : ∀ other ∈ line :: next :: rest, '\n' ∉ other)
    (alone : (continues next && !rest.isEmpty) = false) :
    ∃ back, atLineStart back = true ∧ dropFrom defined past (line :: next :: rest) =
      (if (symbolIn line).any defined.contains then [] else line ++ ['\n']) ++
        dropFrom defined back (next :: rest) := by
  have found := matchAt_declareRe startsLine isDeclaration oneLine (List.cons_ne_nil _ _)
  have noMore : continuation (next :: rest) = [] := by
    cases rest with
    | nil => rfl
    | cons other rest =>
        rw [List.isEmpty_cons, Bool.not_false, Bool.and_true] at alone
        rw [continuation, alone]
        rfl
  rw [noMore] at found
  have split : joinLines (line :: next :: rest) = (line ++ ['\n']) ++ joinLines (next :: rest) := by
    rw [joinLines_cons_cons, List.append_assoc]
    rfl
  refine ⟨(line ++ ['\n']).reverse ++ past, ?_, ?_⟩
  · rw [List.reverse_append]
    rfl
  · rw [dropFrom_declaration split (by simp) found, symbolIn_ended]

/-- A declaration of two lines. -/
theorem dropFrom_two {defined : List Text} {past line next : Text} {rest : List Text}
    (startsLine : atLineStart past = true) (isDeclaration : declares line = true)
    (oneLine : ∀ other ∈ line :: next :: rest, '\n' ∉ other)
    (both : (continues next && !rest.isEmpty) = true) :
    ∃ back, atLineStart back = true ∧ dropFrom defined past (line :: next :: rest) =
      (if ((symbolIn line).or (symbolIn next)).any defined.contains then []
        else line ++ '\n' :: (next ++ ['\n'])) ++ dropFrom defined back rest := by
  have found := matchAt_declareRe startsLine isDeclaration oneLine (List.cons_ne_nil _ _)
  rw [Bool.and_eq_true] at both
  cases rest with
  | nil => exact absurd both.2 (by decide)
  | cons other rest =>
      have more : continuation (next :: other :: rest) = next ++ ['\n'] := if_pos both.1
      rw [more] at found
      have split : joinLines (line :: next :: other :: rest) =
          (line ++ '\n' :: (next ++ ['\n'])) ++ joinLines (other :: rest) := by
        rw [joinLines_cons_cons, joinLines_cons_cons]
        simp only [List.append_assoc, List.cons_append, List.nil_append]
      refine ⟨(line ++ '\n' :: (next ++ ['\n'])).reverse ++ past, ?_, ?_⟩
      · rw [← List.cons_append, ← List.append_assoc, List.reverse_append]
        rfl
      · rw [dropFrom_declaration split (by simp) found, symbolIn_newline, symbolIn_ended]

theorem dropLines_ne_nil (defined : List Text) {lines : List Text} (filled : lines ≠ []) :
    dropLines defined lines ≠ [] := by
  fun_induction dropLines defined lines with
  | case1 | case3 | case5 => exact List.cons_ne_nil _ _
  | case2 line next rest _ both _ inductionHypothesis =>
      apply inductionHypothesis
      rintro rfl
      simp at both
  | case4 line next rest _ _ _ inductionHypothesis =>
      exact inductionHypothesis (List.cons_ne_nil _ _)
  | case6 => exact filled

theorem joinLines_dropLines (defined : List Text) {lines : List Text} (line : Text)
    (filled : lines ≠ []) :
    joinLines (line :: dropLines defined lines) =
      line ++ '\n' :: joinLines (dropLines defined lines) := by
  cases shape : dropLines defined lines with
  | nil => exact absurd shape (dropLines_ne_nil defined filled)
  | cons first rest => exact joinLines_cons_cons line first rest

theorem dropFrom_last (defined : List Text) {past line : Text} (oneLine : '\n' ∉ line) :
    dropFrom defined past [line] = line := by
  have copied : declareRe.scan past (line ++ []) 0 =
      line.map .plain ++ declareRe.scan (line.reverse ++ past) [] 0 := by
    apply Pattern.scan_plain
    intro start c stop split
    apply matchAt_last
    rw [List.append_nil]
    intro member
    apply oneLine
    rw [split]
    exact List.mem_append_right _ member
  rw [List.append_nil] at copied
  rw [dropFrom, joinLines_singleton, copied, List.flatMap_append, Pattern.flatMap_render_plain]
  exact List.append_nil line

theorem dropFrom_eq (defined : List Text) {lines : List Text} {past : Text}
    (startsLine : atLineStart past = true) (oneLine : ∀ line ∈ lines, '\n' ∉ line)
    (noBare : "declare".toList ∉ lines) :
    dropFrom defined past lines = joinLines (dropLines defined lines) := by
  fun_induction dropLines defined lines generalizing past with
  | case1 line next rest other inductionHypothesis =>
      rw [Bool.not_eq_true'] at other
      have later := @inductionHypothesis ('\n' :: (line.reverse ++ past)) rfl
        (fun line member => oneLine line (List.mem_cons_of_mem _ member))
        (fun member => noBare (List.mem_cons_of_mem _ member))
      have absent : declareRe.matchAt past (joinLines (line :: next :: rest)) = none := by
        rw [joinLines_cons_cons]
        apply matchAt_undeclared other _ rfl
        rintro rfl
        exact noBare List.mem_cons_self
      rw [dropFrom_copied (oneLine line List.mem_cons_self) (List.cons_ne_nil _ _) absent, later,
        joinLines_dropLines _ _ (List.cons_ne_nil _ _)]
  | case2 line next rest isDeclaration both gone inductionHypothesis =>
      rw [Bool.not_eq_true', Bool.not_eq_false] at isDeclaration
      obtain ⟨back, backStarts, shape⟩ :=
        @dropFrom_two defined _ _ _ _ startsLine isDeclaration oneLine both
      have later := inductionHypothesis backStarts
        (fun line member => oneLine line (List.mem_cons_of_mem _ (List.mem_cons_of_mem _ member)))
        (fun member => noBare (List.mem_cons_of_mem _ (List.mem_cons_of_mem _ member)))
      rw [shape, if_pos gone, later, List.nil_append]
  | case3 line next rest isDeclaration both stays inductionHypothesis =>
      rw [Bool.not_eq_true', Bool.not_eq_false] at isDeclaration
      obtain ⟨back, backStarts, shape⟩ :=
        @dropFrom_two defined _ _ _ _ startsLine isDeclaration oneLine both
      have later := inductionHypothesis backStarts
        (fun line member => oneLine line (List.mem_cons_of_mem _ (List.mem_cons_of_mem _ member)))
        (fun member => noBare (List.mem_cons_of_mem _ (List.mem_cons_of_mem _ member)))
      have filled : rest ≠ [] := by
        rintro rfl
        simp at both
      rw [shape, if_neg stays, later, joinLines_cons_cons, joinLines_dropLines _ _ filled]
      simp only [List.append_assoc, List.cons_append, List.nil_append]
  | case4 line next rest isDeclaration alone gone inductionHypothesis =>
      rw [Bool.not_eq_true', Bool.not_eq_false] at isDeclaration
      rw [Bool.not_eq_true] at alone
      obtain ⟨back, backStarts, shape⟩ :=
        @dropFrom_one defined _ _ _ _ startsLine isDeclaration oneLine alone
      have later := inductionHypothesis backStarts
        (fun line member => oneLine line (List.mem_cons_of_mem _ member))
        (fun member => noBare (List.mem_cons_of_mem _ member))
      rw [shape, if_pos gone, later, List.nil_append]
  | case5 line next rest isDeclaration alone stays inductionHypothesis =>
      rw [Bool.not_eq_true', Bool.not_eq_false] at isDeclaration
      rw [Bool.not_eq_true] at alone
      obtain ⟨back, backStarts, shape⟩ :=
        @dropFrom_one defined _ _ _ _ startsLine isDeclaration oneLine alone
      have later := inductionHypothesis backStarts
        (fun line member => oneLine line (List.mem_cons_of_mem _ member))
        (fun member => noBare (List.mem_cons_of_mem _ member))
      rw [shape, if_neg stays, later, joinLines_dropLines _ _ (List.cons_ne_nil _ _)]
      simp only [List.append_assoc, List.cons_append, List.nil_append]
  | case6 lines short =>
      cases lines with
      | nil => rfl
      | cons line rest =>
          cases rest with
          | nil => exact dropFrom_last defined (oneLine line List.mem_cons_self)
          | cons next rest => exact absurd rfl (short line next rest)

/-! ## The text of a module -/

/-- Only declarations start with the keyword. -/
theorem firstWord_undeclared {item : Item} {line : Text} (member : line ∈ item.lines) :
    firstWord line ≠ "declare".toList ∨
      ∃ metadata header, item = .declaration metadata header ∧ line = declareLine metadata.val header := by
  cases item with
  | function header body =>
      left
      rcases List.mem_cons.mp member with rfl | later
      · rw [firstWord_defineLine]
        decide
      · obtain ⟨inner, -, rfl⟩ := List.mem_map.mp later
        exact fun same => inner.property.2.2 (by rw [same]; decide)
  | declaration metadata header => exact Or.inr ⟨metadata, header, rfl, List.mem_singleton.mp member⟩
  | global variable_ =>
      left
      obtain ⟨rest, word⟩ := firstWord_global variable_
      rw [List.mem_singleton.mp member]
      intro same
      exact absurd (List.cons.inj (word.symm.trans same)).1 (by decide)
  | attributeGroup group =>
      left
      rw [List.mem_singleton.mp member, firstWord_group]
      decide
  | other inner =>
      left
      rw [List.mem_singleton.mp member]
      exact fun same => inner.property.2.2 (by rw [same]; decide)

theorem declare_not_mem_lines (m : Module) : "declare".toList ∉ m.lines := by
  intro member
  obtain ⟨item, -, inside⟩ := List.mem_flatMap.mp member
  rcases firstWord_undeclared inside with different | ⟨metadata, header, -, same⟩
  · exact different (by decide)
  · have whole : "declare ".toList ++ (metadata.val ++ header.print) = "declare".toList :=
      (List.append_assoc _ _ _).symm.trans same.symm
    have longer : "declare ".toList <+: "declare".toList := ⟨_, whole⟩
    exact absurd longer (by decide)

theorem definedNames_text (m : Module) :
    definedNames m.text = m.functions.filterMap fun header => symbolIn header.print := by
  rw [← filterMap_define]
  exact findIter_defineRe (fun line member => Module.oneLine member) (define_not_mem_lines m)

/-- From a module exactly those declarations go whose first symbol is read off a function,
each with the line behind it if that continues it; every other line stays in its place, and
the last one in any case. -/
theorem dropDefined_text (m : Module) :
    dropDefined m.text =
      joinLines (dropLines (m.functions.filterMap fun header => symbolIn header.print) m.lines) := by
  rw [← definedNames_text]
  exact dropFrom_eq _ rfl (fun line member => Module.oneLine member) (declare_not_mem_lines m)

end LibarenaRs.Linker
