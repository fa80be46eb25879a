import Mathlib.Data.List.TakeWhile
import LibarenaRs.Linker.Headers
import LibarenaRs.Regex.RunOn

/-!
# Where the keep list sees a section

The text of a section is taken up to the next quote, which may stand on a later
line.
-/

namespace LibarenaRs.Linker

open LibarenaRs.Regex LibarenaRs.Llvm

/-! ## The patterns -/

/-- `[^"]+`, in a group if one is named -/
def contentRe : Option Nat → Pattern
  | none => .plus true (.chr (· != '"'))
  | some index => .group index (.plus true (.chr (· != '"')))

/-- `\bsection "[^"]+"` -/
def sectionRe (index : Option Nat) : Pattern :=
  .cat [.wordBoundary, .lit "section \"".toList, contentRe index, .lit ['"']]

/-- `^define\s[^\n]*?@([A-Za-z0-9_.$]+)\([^\n]*?\bsection "[^"]+"` -/
def sectionedRe : Pattern :=
  keywordRe "define".toList
    (.seq anyInLine (.seq symbolRe (.seq anyInLine (sectionRe none))))

/-- `@([A-Za-z0-9_.$]+) = ` -/
def globalNameRe : Pattern :=
  .cat [.lit ['@'], .group 1 (.plus true (.chr symbolChar)), .lit " = ".toList]

/-- `^@([A-Za-z0-9_.$]+) = [^\n]*?\bsection "([^"]+)"` -/
def globalRe : Pattern :=
  .seq .lineStart (.seq globalNameRe (.seq anyInLine (sectionRe (some 2))))

/-! ## What they read -/

/-- The text behind `section "`, at a place that starts a word. -/
def sectionHere (past text : Text) : Option Text :=
  if headIs isWord past then none else text.dropPrefix? "section \"".toList

/-- A nonempty text up to the next quote, and the text behind. -/
def quoted (text : Text) : Option (Text × Text) :=
  match text.takeWhile (· != '"'), text.dropWhile (· != '"') with
  | c :: word, _ :: rest => some (c :: word, rest)
  | _, _ => none

/-- The same from the rest of a line alone, if it is known whether a later line
has a quote: what the line gives, and its text behind the quote if it has one. -/
def quoteBehind (later : Bool) (left : Text) : Option (Text × Option Text) :=
  if headIs (· == '"') left then none
  else match left.dropWhile (· != '"') with
    | _ :: rest => some (left.takeWhile (· != '"'), some rest)
    | [] => if later then some (left, none) else none

/-- The first section in a text. -/
def sectionIn (later : Bool) (past text : Text) : Option (Text × Option Text) :=
  (places sectionHere past text).findSome? (quoteBehind later)

/-- The first symbol that has a section behind it. -/
def sectionedIn (later : Bool) (text : Text) : Option (Text × Option Text) :=
  (symbolPlaces text).findSome? fun place =>
    (sectionIn later ['('] place.2).map fun found => (place.1, found.2)

/-- The symbol at the start of a global variable, and the text behind ` = `. -/
def globalHere : Text → Option (Text × Text)
  | '@' :: rest =>
      if rest.takeWhile symbolChar = [] then none
      else ((rest.dropWhile symbolChar).dropPrefix? " = ".toList).map fun left =>
        (rest.takeWhile symbolChar, left)
  | _ => none

/-- The name of a global variable and the text of its section if that ends on the line. -/
def globalIn (later : Bool) (line : Text) : Option ((Text × Option Text) × Option Text) :=
  (globalHere line).bind fun place =>
    (sectionIn later [' '] place.2).map fun found =>
      ((place.1, found.2.map fun _ => found.1), found.2)

/-! ## Quotes -/

/-- The whole text between the quotes. -/
def wholeContent (after : List Text) : Text × Option Text → Text
  | (content, some _) => content
  | (content, none) => content ++ '\n' :: (joinLines after).takeWhile (· != '"')

theorem quoted_append {left : Text} (after : List Text) :
    quoted (left ++ Pattern.tailOf after) =
      (quoteBehind (after.any (·.contains '"')) left).map fun found =>
        (wholeContent after found, Pattern.resume '"' after found.2) := by
  have split := @List.takeWhile_append_dropWhile _ (· != '"') left
  rw [quoteBehind]
  cases rest : left.dropWhile (· != '"') with
  | cons d more =>
      have stopped : d = '"' := by
        have head := @List.head?_dropWhile_not _ (· != '"') left
        rw [rest] at head
        simpa using head
      subst stopped
      rw [rest] at split
      have all := @List.all_takeWhile _ (· != '"') left
      have taken : (left ++ Pattern.tailOf after).takeWhile (· != '"') =
          left.takeWhile (· != '"') := by
        nth_rewrite 1 [← split]
        rw [List.append_assoc]
        exact takeWhile_stop all (by decide)
      have dropped : (left ++ Pattern.tailOf after).dropWhile (· != '"') =
          '"' :: (more ++ Pattern.tailOf after) := by
        nth_rewrite 1 [← split]
        rw [List.append_assoc]
        exact dropWhile_stop all (by decide)
      rw [quoted, taken, dropped]
      cases left with
      | nil => cases rest
      | cons c left =>
          by_cases quote : c = '"'
          · subst quote
            rfl
          · have different : (c != '"') = true := by simpa using quote
            have head : headIs (· == '"') (c :: left) = false := by simpa [headIs] using quote
            have first : (c :: left).takeWhile (· != '"') = c :: left.takeWhile (· != '"') :=
              List.takeWhile_cons_of_pos different
            rw [head, first]
            rfl
  | nil =>
      rw [rest, List.append_nil] at split
      have all := @List.all_takeWhile _ (· != '"') left
      rw [split] at all
      have head : headIs (· == '"') left = false := by
        cases left with
        | nil => rfl
        | cons c left =>
            rw [List.all_cons, Bool.and_eq_true] at all
            simpa [headIs] using all.1
      have all' : ∀ c ∈ left, (c != '"') = true := List.all_eq_true.mp all
      rw [head, quoted, List.takeWhile_append_of_pos all', List.dropWhile_append_of_pos all']
      cases open_ : after.any (·.contains '"') with
      | false =>
          have none_ : (Pattern.tailOf after).dropWhile (· != '"') = [] := by
            rw [List.dropWhile_eq_nil_iff]
            intro c member
            have different : c ≠ '"' := by
              rintro rfl
              have later : after.any (·.contains '"') = true := by
                cases after with
                | nil => cases member
                | cons other others =>
                    rcases List.mem_cons.mp member with newline | inside
                    · cases newline
                    · obtain ⟨line, inLines, inLine⟩ := Pattern.mem_of_joinLines inside (by decide)
                      exact List.any_eq_true.mpr ⟨line, inLines, List.contains_iff_mem.mpr inLine⟩
              rw [later] at open_
              cases open_
            simpa using different
          rw [none_]
          cases left ++ (Pattern.tailOf after).takeWhile (· != '"') <;> rfl
      | true =>
          obtain ⟨line, inLines, inLine⟩ := List.any_eq_true.mp open_
          obtain ⟨more, rest⟩ := Pattern.dropWhile_at_closer
            (Pattern.mem_joinLines inLines (List.contains_iff_mem.mp inLine))
          cases after with
          | nil => cases inLines
          | cons other others =>
              have taken : (Pattern.tailOf (other :: others)).takeWhile (· != '"') =
                  '\n' :: (joinLines (other :: others)).takeWhile (· != '"') :=
                List.takeWhile_cons_of_pos (by decide)
              have dropped : (Pattern.tailOf (other :: others)).dropWhile (· != '"') =
                  '"' :: more := by
                rw [Pattern.tailOf, List.dropWhile_cons_of_pos (by decide), rest]
                exact fun same => by cases same
              rw [taken, dropped]
              simp only [if_true, Bool.false_eq_true, if_false, Option.map_some, wholeContent,
                Pattern.resume, rest, List.tail_cons]
              cases left <;> rfl

theorem sectionHere_eq_some {past text left : Text} (found : sectionHere past text = some left) :
    text = "section \"".toList ++ left := by
  unfold sectionHere at found
  split at found
  · cases found
  · exact dropPrefix?_eq_some.mp found

theorem quoteBehind_eq_some {later : Bool} {left content rest : Text}
    (found : quoteBehind later left = some (content, some rest)) : left = content ++ '"' :: rest := by
  have split := @List.takeWhile_append_dropWhile _ (· != '"') left
  rw [quoteBehind] at found
  cases open_ : headIs (· == '"') left with
  | true =>
      rw [open_] at found
      cases found
  | false =>
      rw [open_] at found
      cases behind : left.dropWhile (· != '"') with
      | nil =>
          rw [behind] at found
          cases later <;> cases found
      | cons d more =>
          have stopped : d = '"' := by
            have head := @List.head?_dropWhile_not _ (· != '"') left
            rw [behind] at head
            simpa using head
          rw [behind] at found split
          rw [stopped] at split
          cases found
          exact split.symm

theorem quoteBehind_runsOn {later : Bool} {left content : Text}
    (found : quoteBehind later left = some (content, none)) :
    later = true ∧ content = left ∧ '"' ∉ left := by
  rw [quoteBehind] at found
  cases open_ : headIs (· == '"') left with
  | true =>
      rw [open_] at found
      cases found
  | false =>
      rw [open_] at found
      cases behind : left.dropWhile (· != '"') with
      | nil =>
          rw [behind] at found
          cases later with
          | false => cases found
          | true =>
              cases found
              refine ⟨rfl, rfl, fun member => ?_⟩
              have all := List.dropWhile_eq_nil_iff.mp behind '"' member
              cases all
      | cons d more =>
          rw [behind] at found
          cases found

/-- The section that is read stands in the text. -/
theorem sectionIn_eq_some {later : Bool} {past text : Text} {found : Text × Option Text}
    (isFound : sectionIn later past text = some found) :
    ∃ before left, text = before ++ "section \"".toList ++ left ∧
      quoteBehind later left = some found := by
  obtain ⟨left, member, behind⟩ := List.exists_of_findSome?_eq_some isFound
  obtain ⟨before, after, split, -, here⟩ := mem_places.mp member
  exact ⟨before, left, by rw [split, sectionHere_eq_some here, List.append_assoc], behind⟩

theorem suffix_of_quoted {text content rest : Text} (found : quoted text = some (content, rest)) :
    ∃ part, text = part ++ rest := by
  unfold quoted at found
  split at found
  · rename_i c word d left taken dropped
    cases found
    have split := @List.takeWhile_append_dropWhile _ (· != '"') text
    rw [taken, dropped] at split
    exact ⟨c :: word ++ [d], by rw [← split]; simp⟩
  · cases found

/-! ## What the patterns do -/

/-- What the content pattern records. -/
def recorded (content : Text) : Option Nat → List (Nat × Text) → List (Nat × Text)
  | none, groups => groups
  | some index, groups => (index, content) :: groups

section Run

variable {Answer : Type} {next : Cursor → Option Answer} {past text : Text}
  {groups : List (Nat × Text)} {index : Option Nat}

theorem run_contentRe
    (stuck : ∀ past c rest groups, (c != '"') = true → next ⟨past, c :: rest, groups⟩ = none) :
    (contentRe index).run next ⟨past, text, groups⟩ =
      if text.takeWhile (· != '"') = [] then none
      else next ⟨(text.takeWhile (· != '"')).reverse ++ past, text.dropWhile (· != '"'),
        recorded (text.takeWhile (· != '"')) index groups⟩ := by
  cases index with
  | none => exact Pattern.run_plus_maximal fun past c rest => stuck past c rest groups
  | some index => exact Pattern.run_group_plus_maximal stuck

theorem run_sectionRe :
    ∃ before, (sectionRe index).run next ⟨past, text, groups⟩ =
      match (sectionHere past text).bind quoted with
      | some found => next ⟨before, found.2, recorded found.1 index groups⟩
      | none => none := by
  have ahead : ∀ left, "section \"".toList ++ left = text → headIs isWord text = true := by
    rintro left rfl
    rfl
  by_cases present : "section \"".toList <+: text
  · obtain ⟨left, split⟩ := present
    have stripped : text.dropPrefix? "section \"".toList = some left :=
      dropPrefix?_eq_some.mpr split.symm
    rw [sectionRe, Pattern.run_cat_cons, Pattern.run_wordBoundary, ahead left split, sectionHere]
    by_cases inWord : headIs isWord past = true
    · rw [inWord]
      exact ⟨[], rfl⟩
    · rw [Bool.not_eq_true] at inWord
      rw [inWord, stripped, if_pos (by decide), ← split, Pattern.run_cat_cons, Pattern.run_lit_append,
        Pattern.run_cat_cons, run_contentRe]
      · simp only [Bool.false_eq_true, if_false, Option.bind_some, quoted]
        cases left.takeWhile (· != '"') with
        | nil => exact ⟨[], rfl⟩
        | cons c word =>
            rw [if_neg (by simp)]
            cases rest : left.dropWhile (· != '"') with
            | nil => exact ⟨[], rfl⟩
            | cons d more =>
                have stopped : d = '"' := by
                  have head := @List.head?_dropWhile_not _ (· != '"') left
                  rw [rest] at head
                  simpa using head
                rw [stopped, Pattern.run_cat_cons, show '"' :: more = ['"'] ++ more from rfl,
                  Pattern.run_lit_append]
                exact ⟨_, rfl⟩
      · intro past c rest groups different
        apply Pattern.run_lit_absent
        rintro ⟨others, same⟩
        cases same
        exact absurd different (by decide)
  · have nothing : sectionHere past text = none := by
      rw [sectionHere]
      split
      · rfl
      · exact dropPrefix?_eq_none.mpr present
    rw [nothing, sectionRe, Pattern.run_cat_cons, Pattern.run_wordBoundary]
    refine ⟨[], ?_⟩
    split
    · rw [Pattern.run_cat_cons]
      exact Pattern.run_lit_absent _ present
    · rfl

theorem tailOf_stops (after : List Text) :
    headIs (· != '\n') (Pattern.tailOf after) = false := by
  cases after <;> rfl

theorem sectionHere_append (after : List Text) :
    sectionHere past (text ++ Pattern.tailOf after) =
      (sectionHere past text).map (· ++ Pattern.tailOf after) := by
  rw [sectionHere, sectionHere, dropPrefix?_line (by decide) (tailOf_stops after)]
  split <;> rfl

/-- The first section behind a place of a line. -/
theorem run_anyInLine_sectionRe {Reading : Type} {read : Answer → Reading}
    (value : Text × Text → Reading) (oneLine : '\n' ∉ text) (after : List Text)
    (judged : ∀ past content rest,
      (∃ part, text ++ Pattern.tailOf after = part ++ rest) →
      (next ⟨past, rest, recorded content index groups⟩).map read = some (value (content, rest))) :
    (anyInLine.run ((sectionRe index).run next) ⟨past, text ++ Pattern.tailOf after, groups⟩).map
        read =
      (sectionIn (after.any (·.contains '"')) past text).map fun found =>
        value (wholeContent after found, Pattern.resume '"' after found.2) := by
  have each : (anyInLine.run ((sectionRe index).run next)
      ⟨past, text ++ Pattern.tailOf after, groups⟩).map read =
      (places sectionHere past text).findSome? fun left =>
        (quoteBehind (after.any (·.contains '"')) left).map fun found =>
          value (wholeContent after found, Pattern.resume '"' after found.2) := by
    apply run_anyInLine_tail oneLine (tailOf_stops after)
    · intro past
      obtain ⟨before, ran⟩ := @run_sectionRe Answer next past (Pattern.tailOf after) groups index
      have nothing : sectionHere past (Pattern.tailOf after) = none := by
        have ended := @sectionHere_append past [] after
        rw [List.nil_append] at ended
        rw [ended, sectionHere]
        split <;> rfl
      rw [ran, nothing]
      rfl
    · intro before left split filled
      obtain ⟨_, ran⟩ := @run_sectionRe Answer next (before.reverse ++ past)
        (left ++ Pattern.tailOf after) groups index
      rw [ran, sectionHere_append]
      cases found : sectionHere (before.reverse ++ past) left with
      | none => rfl
      | some inner =>
          rw [Option.map_some, Option.bind_some, Option.bind_some, quoted_append]
          cases behind : quoteBehind (after.any (·.contains '"')) inner with
          | none => rfl
          | some pair =>
              have isQuoted := @quoted_append inner after
              rw [behind] at isQuoted
              obtain ⟨part, rest⟩ := suffix_of_quoted isQuoted
              apply judged
              refine ⟨before ++ "section \"".toList ++ part, ?_⟩
              rw [split, sectionHere_eq_some found, List.append_assoc, List.append_assoc,
                List.append_assoc, List.append_assoc, rest]
  rw [each, sectionIn, List.map_findSome?]
  rfl

end Run

/-! ## Reading the lines -/

/-- Only whether a word ends in front of the place matters. -/
theorem places_boundary {Found : Type} {here : Text → Text → Option Found}
    (boundary : ∀ past other text, headIs isWord past = headIs isWord other →
      here past text = here other text)
    {past other : Text} (same : headIs isWord past = headIs isWord other) (text : Text) :
    places here past text = places here other text := by
  induction text generalizing past other with
  | nil => rfl
  | cons c rest inductionHypothesis =>
      rw [places, places, boundary past other _ same, @inductionHypothesis (c :: past) (c :: other) rfl]

theorem sectionIn_boundary {past other : Text} (same : headIs isWord past = headIs isWord other)
    (later : Bool) (text : Text) : sectionIn later past text = sectionIn later other text := by
  rw [sectionIn, sectionIn, places_boundary (fun past other text same => ?_) same]
  rw [sectionHere, sectionHere, same]

/-- The signature of a function whose line has a section. -/
def sectionedFind (line : Text) (later : Bool) : Option (Text × Option Text) :=
  (afterKeyword "define".toList line).bind (sectionedIn later)

theorem sectionedRe_resume {past line : Text} (startsLine : atLineStart past = true)
    (oneLine : '\n' ∉ line) (more : line ≠ "define".toList) (after : List Text) :
    (sectionedRe.matchAt past (joinLines (line :: after))).map
      (fun m => (m.group 1, (joinLines (line :: after)).drop m.text.length)) =
    (sectionedFind line (after.any (·.contains '"'))).map fun found =>
      (found.1, Pattern.resume '"' after found.2) := by
  have follows := @afterKeyword_line "define".toList line _ (by decide) (tailOf_stops after) more
  rw [Pattern.joinLines_cons, sectionedRe, sectionedFind]
  cases found : afterKeyword "define".toList line with
  | none =>
      rw [found] at follows
      rw [matchAt_keywordRe_eq_none follows]
      rfl
  | some rest =>
      obtain ⟨c, white, rfl⟩ := afterKeyword_eq_some found
      have clean : '\n' ∉ rest := fun member => oneLine (by simp [member])
      rw [List.append_assoc, List.cons_append, matchAt_keywordRe startsLine white,
        Pattern.run_seq]
      have judged : ∀ before name left, (∃ part, rest = part ++ left) →
          (((Pattern.seq anyInLine (sectionRe none)).run
              (wholeMatch ("define".toList ++ c :: (rest ++ Pattern.tailOf after))))
            ⟨'(' :: before, left ++ Pattern.tailOf after, [(1, name)]⟩).map
            (fun m => (m.group 1,
              ("define".toList ++ c :: (rest ++ Pattern.tailOf after)).drop m.text.length)) =
          (sectionIn (after.any (·.contains '"')) ['('] left).map fun found =>
            (name, Pattern.resume '"' after found.2) := by
        rintro before name left ⟨part, rfl⟩
        have leftClean : '\n' ∉ left := fun member => clean (List.mem_append_right _ member)
        rw [Pattern.run_seq, @run_anyInLine_sectionRe Match
          (wholeMatch ("define".toList ++ c :: (part ++ left ++ Pattern.tailOf after)))
          ('(' :: before) left [(1, name)] none _ _ (fun found => (name, found.2)) leftClean after]
        · rw [@sectionIn_boundary ('(' :: before) ['('] rfl]
        · rintro past content behind ⟨inner, split⟩
          have whole : "define".toList ++ c :: (part ++ left ++ Pattern.tailOf after) =
              ("define".toList ++ c :: (part ++ inner)) ++ behind := by
            rw [List.append_assoc, split]
            simp
          exact map_wholeMatch_drop whole (by simp) fun groups => (groups.lookup 1).getD []
      have scanned := @run_anyInLine_symbolRe Match
        ((Pattern.seq anyInLine (sectionRe none)).run
          (wholeMatch ("define".toList ++ c :: (rest ++ Pattern.tailOf after))))
        (c :: ("define".toList.reverse ++ past)) rest [] _ _
        (fun place => (sectionIn (after.any (·.contains '"')) ['('] place.2).map fun found =>
          (place.1, Pattern.resume '"' after found.2)) clean _ (tailOf_stops after) judged
      rw [Option.bind_some, sectionedIn, List.map_findSome?]
      refine scanned.trans ?_
      congr 1
      funext place
      simp only [Function.comp_apply, Option.map_map]
      rfl

/-- The name a match of the pattern for global variables has, and the text of
its section if that stands on one line. -/
def globalValue (m : Match) : Text × Option Text :=
  (m.group 1, if (m.group 2).contains '\n' then none else some (m.group 2))

theorem globalHere_line {line : Text} (after : List Text) :
    globalHere (line ++ Pattern.tailOf after) =
      (globalHere line).map fun place => (place.1, place.2 ++ Pattern.tailOf after) := by
  have stops : headIs symbolChar (Pattern.tailOf after) = false := by
    cases after <;> rfl
  cases line with
  | nil => cases after <;> rfl
  | cons c rest =>
      rw [List.cons_append]
      unfold globalHere
      split
      · rename_i inner equality
        obtain ⟨rfl, rfl⟩ := List.cons.inj equality
        rw [takeWhile_append_stops stops, dropWhile_append_stops stops,
          dropPrefix?_line (by decide) (tailOf_stops after)]
        simp only
        split
        · rfl
        · cases (rest.dropWhile symbolChar).dropPrefix? " = ".toList <;> rfl
      · rename_i other
        have different : c ≠ '@' := fun equality => other _ (by rw [equality])
        split
        · rename_i inner equality
          exact absurd (List.cons.inj equality).1 different
        · rfl

theorem globalHere_eq_some {text : Text} {place : Text × Text} (found : globalHere text = some place) :
    text = '@' :: (place.1 ++ " = ".toList ++ place.2) := by
  unfold globalHere at found
  split at found
  · rename_i rest
    split at found
    · cases found
    · obtain ⟨left, stripped, rfl⟩ := Option.map_eq_some_iff.mp found
      rw [List.append_assoc, ← dropPrefix?_eq_some.mp stripped, List.takeWhile_append_dropWhile]
  · cases found

theorem run_globalNameRe {Answer : Type} {next : Cursor → Option Answer} {past text : Text}
    {groups : List (Nat × Text)} :
    ∃ before, globalNameRe.run next ⟨past, text, groups⟩ =
      match globalHere text with
      | some place => next ⟨' ' :: before, place.2, (1, place.1) :: groups⟩
      | none => none := by
  by_cases sign : ['@'] <+: text
  · obtain ⟨rest, rfl⟩ := sign
    rw [globalNameRe, Pattern.run_cat_cons, Pattern.run_lit_append, Pattern.run_cat_cons,
      Pattern.run_group_plus_maximal, List.singleton_append]
    · unfold globalHere
      simp only
      split
      · exact ⟨[], rfl⟩
      · by_cases present : " = ".toList <+: rest.dropWhile symbolChar
        · obtain ⟨left, split⟩ := present
          rw [← split, Pattern.run_cat_cons, Pattern.run_lit_append, dropPrefix?_append]
          exact ⟨_, rfl⟩
        · rw [dropPrefix?_eq_none.mpr present]
          exact ⟨[], Pattern.run_lit_absent _ present⟩
    · intro past c rest groups accepted
      apply Pattern.run_lit_absent
      rintro ⟨others, same⟩
      cases same
      exact absurd accepted (by decide)
  · have nothing : globalHere text = none := by
      unfold globalHere
      split
      · exact absurd ⟨_, rfl⟩ sign
      · rfl
    rw [nothing]
    exact ⟨[], Pattern.run_lit_absent _ sign⟩

theorem globalRe_resume {past line : Text} (startsLine : atLineStart past = true)
    (oneLine : '\n' ∉ line) (after : List Text) :
    (globalRe.matchAt past (joinLines (line :: after))).map
      (fun m => (globalValue m, (joinLines (line :: after)).drop m.text.length)) =
    (globalIn (after.any (·.contains '"')) line).map fun found =>
      (found.1, Pattern.resume '"' after found.2) := by
  have follows := @globalHere_line line after
  rw [Pattern.joinLines_cons, globalIn]
  obtain ⟨before, ran⟩ := @run_globalNameRe Match
    ((Pattern.seq anyInLine (sectionRe (some 2))).run (wholeMatch (line ++ Pattern.tailOf after)))
    past (line ++ Pattern.tailOf after) []
  change (globalRe.run (wholeMatch (line ++ Pattern.tailOf after))
    ⟨past, line ++ Pattern.tailOf after, []⟩).map _ = _
  rw [globalRe, Pattern.run_seq, Pattern.run_lineStart, if_pos startsLine, Pattern.run_seq, ran,
    follows]
  cases found : globalHere line with
  | none => rfl
  | some place =>
      obtain ⟨name, left⟩ := place
      have split := globalHere_eq_some found
      simp only [Option.map_some, Option.bind_some]
      have leftClean : '\n' ∉ left := fun member => oneLine (by rw [split]; simp [member])
      have scanned := @run_anyInLine_sectionRe Match (wholeMatch (line ++ Pattern.tailOf after))
        (' ' :: before) left [(1, name)] (some 2) _
        (fun m => (globalValue m, (line ++ Pattern.tailOf after).drop m.text.length))
        (fun found => ((name, if found.1.contains '\n' then none else some found.1), found.2))
        leftClean after (by
          rintro past content behind ⟨inner, cut⟩
          have whole : line ++ Pattern.tailOf after =
              ('@' :: (name ++ " = ".toList ++ inner)) ++ behind := by
            rw [split, List.cons_append, List.append_assoc _ left, cut]
            simp
          exact map_wholeMatch_drop whole (by simp) fun groups =>
            ((groups.lookup 1).getD [],
              if ((groups.lookup 2).getD []).contains '\n' then none
              else some ((groups.lookup 2).getD [])))
      rw [Pattern.run_seq, scanned, Option.map_map, @sectionIn_boundary (' ' :: before) [' '] rfl]
      cases sectioned : sectionIn (after.any (·.contains '"')) [' '] left with
      | none => rfl
      | some found =>
          obtain ⟨inFront, inner, whole, behind⟩ := sectionIn_eq_some sectioned
          obtain ⟨content, rest⟩ := found
          cases rest with
          | none => simp [wholeContent]
          | some rest =>
              have clean : '\n' ∉ content := by
                intro member
                apply leftClean
                rw [whole, quoteBehind_eq_some behind]
                simp [member]
              simp [wholeContent, clean]

section Lines

variable {lines : List Text} (oneLine : ∀ line ∈ lines, '\n' ∉ line)

/-- What a line gives to the scan for functions, and whether it closes the section. -/
def sectionedLine (line : Text) (later : Bool) : Option (Text × Bool) :=
  (sectionedFind line later).map fun found => (found.1, found.2.isSome)

def globalLine (line : Text) (later : Bool) : Option ((Text × Option Text) × Bool) :=
  (globalIn later line).map fun found => (found.1, found.2.isSome)

theorem sectionIn_suffix {later : Bool} {past text content left : Text}
    (found : sectionIn later past text = some (content, some left)) : left <:+ text := by
  obtain ⟨before, inner, split, behind⟩ := sectionIn_eq_some found
  exact ⟨before ++ "section \"".toList ++ content ++ ['"'], by
    rw [split, quoteBehind_eq_some behind]
    simp⟩

theorem sectionIn_later {later : Bool} {past text content : Text}
    (found : sectionIn later past text = some (content, none)) : later = true := by
  obtain ⟨_, _, -, behind⟩ := sectionIn_eq_some found
  exact (quoteBehind_runsOn behind).1

theorem suffix_of_symbolPlaces {text : Text} {place : Text × Text}
    (member : place ∈ symbolPlaces text) : place.2 <:+ text := by
  rw [← places_symbolHere []] at member
  obtain ⟨before, after, split, -, here⟩ := mem_places.mp member
  obtain ⟨whole, -, -⟩ := symbolHere_eq_some here
  exact ⟨before ++ ('@' :: place.1 ++ ['(']), by rw [split, whole]; simp⟩

theorem sectionedFind_eq_some {line : Text} {later : Bool} {name : Text} {left : Option Text}
    (found : sectionedFind line later = some (name, left)) :
    ∃ text content, text <:+ line ∧ sectionIn later ['('] text = some (content, left) := by
  obtain ⟨rest, starts, found⟩ := Option.bind_eq_some_iff.mp found
  obtain ⟨place, member, found⟩ := List.exists_of_findSome?_eq_some found
  obtain ⟨⟨content, left⟩, sectioned, same⟩ := Option.map_eq_some_iff.mp found
  cases same
  obtain ⟨c, -, split⟩ := afterKeyword_eq_some starts
  refine ⟨place.2, content, (suffix_of_symbolPlaces member).trans ?_, sectioned⟩
  exact ⟨"define".toList ++ [c], by rw [split]; simp⟩

theorem globalIn_eq_some {line : Text} {later : Bool} {value : Text × Option Text}
    {left : Option Text} (found : globalIn later line = some (value, left)) :
    ∃ text content, text <:+ line ∧ sectionIn later [' '] text = some (content, left) := by
  obtain ⟨place, here, found⟩ := Option.bind_eq_some_iff.mp found
  obtain ⟨⟨content, left⟩, sectioned, same⟩ := Option.map_eq_some_iff.mp found
  cases same
  refine ⟨place.2, content, ?_, sectioned⟩
  exact ⟨'@' :: (place.1 ++ " = ".toList), by rw [globalHere_eq_some here]; simp⟩

include oneLine

theorem findIter_sectionedRe (more : "define".toList ∉ lines) :
    (sectionedRe.findIter (joinLines lines)).map (fun m => m.group 1) =
      visit '"' sectionedLine false lines := by
  apply Pattern.findIter_visit (by decide) _ oneLine
  apply Pattern.readsLines_of_resume
  · intro past line after startsLine places
    have member : line ∈ lines := places.subset List.mem_cons_self
    exact sectionedRe_resume startsLine (oneLine line member)
      (fun same => more (same ▸ member)) after
  · intro line later name left found
    obtain ⟨text, content, suffix_, sectioned⟩ := sectionedFind_eq_some found
    exact (sectionIn_suffix sectioned).trans suffix_
  · intro line later name found
    obtain ⟨text, content, -, sectioned⟩ := sectionedFind_eq_some found
    exact sectionIn_later sectioned

theorem findIter_globalRe :
    (globalRe.findIter (joinLines lines)).map globalValue = visit '"' globalLine false lines := by
  apply Pattern.findIter_visit (by decide) _ oneLine
  apply Pattern.readsLines_of_resume
  · intro past line after startsLine places
    exact globalRe_resume startsLine (oneLine line (places.subset List.mem_cons_self)) after
  · intro line later value left found
    obtain ⟨text, content, suffix_, sectioned⟩ := globalIn_eq_some found
    exact (sectionIn_suffix sectioned).trans suffix_
  · intro line later value found
    obtain ⟨text, content, -, sectioned⟩ := globalIn_eq_some found
    exact sectionIn_later sectioned

end Lines

end LibarenaRs.Linker
