import LibarenaRs.Regex.Anchored

/-!
# Anchored patterns that may run on to a later line

A pattern `^…` that ends at a closing character may run over line ends when the
line does not hold one.  The lines it runs over are not looked at.
-/

namespace LibarenaRs.Regex

variable {Reading : Type} (closer : Char) (read : Text → Bool → Option (Reading × Bool))

/-- What is read from lines: `read` says what a line gives and whether it closes,
from the line and whether a later line has the closing character.  The state
tells whether an earlier line is still open. -/
def visit : Bool → List Text → List Reading
  | _, [] => []
  | true, line :: after => visit (!line.contains closer) after
  | false, line :: after =>
      match read line (after.any (·.contains closer)) with
      | none => visit false after
      | some (reading, closed) => reading :: visit (!closed) after

/-- Whether some line is open behind the lines `before`, in front of `rest`. -/
def openBehind : Bool → List Text → List Text → Bool
  | state, [], _ => state
  | true, line :: before, rest => openBehind (!line.contains closer) before rest
  | false, line :: before, rest =>
      openBehind
        (match read line ((before ++ rest).any (·.contains closer)) with
        | some (_, false) => true
        | _ => false) before rest

variable {closer read}

theorem mem_visit {state : Bool} {lines : List Text} {reading : Reading} :
    reading ∈ visit closer read state lines ↔
      ∃ before line after closed, lines = before ++ line :: after ∧
        openBehind closer read state before (line :: after) = false ∧
        read line (after.any (·.contains closer)) = some (reading, closed) := by
  induction lines generalizing state with
  | nil => simp [visit]
  | cons line lines inductionHypothesis =>
      cases state with
      | true =>
          rw [visit, inductionHypothesis]
          constructor
          · rintro ⟨before, other, after, closed, rfl, free, found⟩
            exact ⟨line :: before, other, after, closed, rfl, free, found⟩
          · rintro ⟨before, other, after, closed, split, free, found⟩
            cases before with
            | nil => cases free
            | cons head before =>
                obtain ⟨rfl, rfl⟩ := List.cons.inj split
                exact ⟨before, other, after, closed, rfl, free, found⟩
      | false =>
          have step : ∀ before rest, before ++ rest = lines →
              openBehind closer read false (line :: before) rest =
                openBehind closer read
                  (match read line (lines.any (·.contains closer)) with
                  | some (_, false) => true
                  | _ => false) before rest := by
            intro before rest same
            rw [openBehind, same]
          cases first : read line (lines.any (·.contains closer)) with
          | none =>
              rw [visit, first]
              simp only [inductionHypothesis]
              constructor
              · rintro ⟨before, other, after, closed, rfl, free, found⟩
                refine ⟨line :: before, other, after, closed, rfl, ?_, found⟩
                rw [step before (other :: after) rfl, first]
                exact free
              · rintro ⟨before, other, after, closed, split, free, found⟩
                cases before with
                | nil =>
                    obtain ⟨rfl, rfl⟩ := List.cons.inj split
                    rw [first] at found
                    cases found
                | cons head before =>
                    obtain ⟨rfl, rfl⟩ := List.cons.inj split
                    rw [step before (other :: after) rfl, first] at free
                    exact ⟨before, other, after, closed, rfl, free, found⟩
          | some pair =>
              obtain ⟨value, closes⟩ := pair
              have next : (match some (value, closes) with
                  | some (_, false) => true
                  | _ => false) = !closes := by
                cases closes <;> rfl
              rw [visit, first]
              simp only [List.mem_cons, inductionHypothesis]
              constructor
              · rintro (rfl | ⟨before, other, after, closed, rfl, free, found⟩)
                · exact ⟨[], line, lines, closes, rfl, rfl, first⟩
                · refine ⟨line :: before, other, after, closed, rfl, ?_, found⟩
                  rw [step before (other :: after) rfl, first, next]
                  exact free
              · rintro ⟨before, other, after, closed, split, free, found⟩
                cases before with
                | nil =>
                    obtain ⟨rfl, rfl⟩ := List.cons.inj split
                    rw [first] at found
                    cases found
                    exact Or.inl rfl
                | cons head before =>
                    obtain ⟨rfl, rfl⟩ := List.cons.inj split
                    rw [step before (other :: after) rfl, first, next] at free
                    exact Or.inr ⟨before, other, after, closed, rfl, free, found⟩

namespace Pattern

/-- From each of the lines on, the pattern does what `read` says. -/
structure ReadsLines (pattern : Pattern) (value : Match → Reading) (closer : Char)
    (read : Text → Bool → Option (Reading × Bool)) (lines : List Text) : Prop where
  absent : ∀ past line after, atLineStart past = true → line :: after <:+ lines →
    read line (after.any (·.contains closer)) = none →
    pattern.matchAt past (joinLines (line :: after)) = none
  closed : ∀ past line after reading, atLineStart past = true → line :: after <:+ lines →
    read line (after.any (·.contains closer)) = some (reading, true) →
    ∃ m more, pattern.matchAt past (joinLines (line :: after)) = some m ∧ value m = reading ∧
      line = m.text ++ more
  runsOn : ∀ past line after reading, atLineStart past = true → line :: after <:+ lines →
    read line (after.any (·.contains closer)) = some (reading, false) →
    after.any (·.contains closer) = true ∧
    ∃ m, pattern.matchAt past (joinLines (line :: after)) = some m ∧ value m = reading ∧
      m.text = line ++ '\n' :: ((joinLines after).takeWhile (· != closer) ++ [closer])

theorem ReadsLines.tail {pattern : Pattern} {value : Match → Reading} {line : Text}
    {lines : List Text} (reads : pattern.ReadsLines value closer read (line :: lines)) :
    pattern.ReadsLines value closer read lines where
  absent past other after startsLine places :=
    reads.absent past other after startsLine (places.trans (List.suffix_cons _ _))
  closed past other after reading startsLine places :=
    reads.closed past other after reading startsLine (places.trans (List.suffix_cons _ _))
  runsOn past other after reading startsLine places :=
    reads.runsOn past other after reading startsLine (places.trans (List.suffix_cons _ _))

section MidLine

variable {body : Pattern} {past line : Text}

theorem midLine_append (midLine : atLineStart past = false) (oneLine : '\n' ∉ line) :
    atLineStart (line.reverse ++ past) = false := by
  cases reversed : line.reverse with
  | nil => exact midLine
  | cons d others =>
      have member : d ∈ line := List.mem_reverse.mp (by simp [reversed])
      have different : d ≠ '\n' := fun equality => oneLine (equality ▸ member)
      simp [atLineStart, headIs, different]

theorem midLine_of_filled (filled : line ≠ []) (oneLine : '\n' ∉ line) (past : Text) :
    atLineStart (line.reverse ++ past) = false := by
  cases line with
  | nil => exact absurd rfl filled
  | cons c rest =>
      have different : c ≠ '\n' := fun equality => oneLine (by simp [equality])
      rw [List.reverse_cons, List.append_assoc]
      apply midLine_append
      · simp [atLineStart, headIs, different]
      · exact fun member => oneLine (List.mem_cons_of_mem _ member)

/-- Up to the end of the line nothing starts. -/
theorem scan_midLine (midLine : atLineStart past = false) (oneLine : '\n' ∉ line) :
    (seq lineStart body).scan past line 0 = line.map .plain := by
  have copied : (seq lineStart body).scan past (line ++ []) 0 =
      line.map .plain ++ (seq lineStart body).scan (line.reverse ++ past) [] 0 := by
    apply scan_plain
    intro start c stop split
    apply matchAt_seq_lineStart
    apply midLine_append midLine
    exact fun member => oneLine (by rw [split]; exact List.mem_append_left _ member)
  simpa [scan] using copied

theorem scan_midLine_newline (midLine : atLineStart past = false) (oneLine : '\n' ∉ line)
    (rest : Text) :
    (seq lineStart body).scan past (line ++ '\n' :: rest) 0 =
      (line ++ ['\n']).map .plain ++
        (seq lineStart body).scan ('\n' :: (line.reverse ++ past)) rest 0 := by
  have copied : (seq lineStart body).scan past ((line ++ ['\n']) ++ rest) 0 =
      (line ++ ['\n']).map .plain ++
        (seq lineStart body).scan ((line ++ ['\n']).reverse ++ past) rest 0 := by
    apply scan_plain
    intro start c stop split
    apply matchAt_seq_lineStart
    apply midLine_append midLine
    intro member
    -- the newline is the last of these characters
    rcases List.append_eq_append_iff.mp split with ⟨more, whole, last⟩ | ⟨more, whole, last⟩
    · cases more with
      | nil => exact oneLine (by rwa [whole, List.append_nil] at member)
      | cons d more =>
          have lengths := congrArg List.length last
          simp at lengths
    · exact oneLine (by rw [whole]; exact List.mem_append_left _ member)
  simpa using copied

/-- A line at whose start nothing matches is copied. -/
theorem scan_copied {tail : Text} (oneLine : '\n' ∉ line)
    (absent : (seq lineStart body).matchAt past (line ++ tail) = none) :
    (seq lineStart body).scan past (line ++ tail) 0 =
      line.map .plain ++ (seq lineStart body).scan (line.reverse ++ past) tail 0 := by
  apply scan_plain
  intro start c stop split
  by_cases first : start = []
  · rw [split, first] at absent
    rw [first]
    exact absent
  · apply matchAt_seq_lineStart
    apply midLine_of_filled first
    exact fun member => oneLine (by rw [split]; exact List.mem_append_left _ member)

/-- And its newline with it. -/
theorem scan_unmatched {rest : Text} (oneLine : '\n' ∉ line)
    (absent : (seq lineStart body).matchAt past (line ++ '\n' :: rest) = none) :
    (seq lineStart body).scan past (line ++ '\n' :: rest) 0 =
      (line ++ ['\n']).map .plain ++
        (seq lineStart body).scan ('\n' :: (line.reverse ++ past)) rest 0 := by
  have newline : (seq lineStart body).matchAt (line.reverse ++ past) ('\n' :: rest) = none := by
    by_cases empty : line = []
    · rwa [empty] at absent ⊢
    · exact matchAt_seq_lineStart (midLine_of_filled empty oneLine past)
  rw [scan_copied oneLine absent, scan, newline, List.map_append, List.append_assoc]
  rfl

end MidLine

/-- The lines that follow, with the newline in front of them. -/
def tailOf : List Text → Text
  | [] => []
  | after => '\n' :: joinLines after

theorem joinLines_cons (line : Text) (after : List Text) :
    joinLines (line :: after) = line ++ tailOf after := by
  cases after with
  | nil => simp [tailOf]
  | cons other others => rfl

theorem mem_joinLines {lines : List Text} {line : Text} {c : Char} (member : line ∈ lines)
    (inside : c ∈ line) : c ∈ joinLines lines := by
  induction lines with
  | nil => cases member
  | cons first others inductionHypothesis =>
      rw [joinLines_cons]
      rcases List.mem_cons.mp member with rfl | later
      · exact List.mem_append_left _ inside
      · apply List.mem_append_right
        cases others with
        | nil => cases later
        | cons other others => exact List.mem_cons_of_mem _ (inductionHypothesis later)

theorem mem_of_joinLines {lines : List Text} {c : Char} (member : c ∈ joinLines lines)
    (inLine : c ≠ '\n') : ∃ line ∈ lines, c ∈ line := by
  induction lines with
  | nil => cases member
  | cons first others inductionHypothesis =>
      rw [joinLines_cons] at member
      rcases List.mem_append.mp member with inFirst | later
      · exact ⟨first, List.mem_cons_self, inFirst⟩
      · cases others with
        | nil => cases later
        | cons other others =>
            rcases List.mem_cons.mp later with newline | inside
            · exact absurd newline inLine
            · obtain ⟨line, among, inLine⟩ := inductionHypothesis inside
              exact ⟨line, List.mem_cons_of_mem _ among, inLine⟩

/-- Behind what is passed stands the closing character. -/
theorem dropWhile_at_closer {text : Text} {closer : Char} (member : closer ∈ text) :
    ∃ more, text.dropWhile (· != closer) = closer :: more := by
  have split := @List.takeWhile_append_dropWhile _ (· != closer) text
  cases rest : text.dropWhile (· != closer) with
  | nil =>
      rw [rest, List.append_nil] at split
      have all := @List.all_takeWhile _ (· != closer) text
      rw [split] at all
      simpa using List.all_eq_true.mp all closer member
  | cons d more =>
      have stopped := @List.head?_dropWhile_not _ (· != closer) text
      rw [rest] at stopped
      have same : d = closer := by simpa using stopped
      exact ⟨more, by rw [same]⟩

/-- The text up to the closing character. -/
theorem split_at_closer {text : Text} {closer : Char} (member : closer ∈ text) :
    ∃ more, text = text.takeWhile (· != closer) ++ closer :: more := by
  obtain ⟨more, rest⟩ := dropWhile_at_closer member
  exact ⟨more, by rw [← rest, List.takeWhile_append_dropWhile]⟩

/-- Behind a place in the middle of a line come the lines that follow. -/
theorem filterMap_scan_tail {body : Pattern} {past line : Text} {after : List Text}
    {value : Match → Reading} {readings : List Reading} (midLine : atLineStart past = false)
    (oneLine : '\n' ∉ line)
    (follows : ∀ past, atLineStart past = true →
      (((seq lineStart body).scan past (joinLines after) 0).filterMap Piece.hit?).map value =
        readings) :
    (((seq lineStart body).scan past (line ++ tailOf after) 0).filterMap Piece.hit?).map value =
      readings := by
  cases after with
  | nil =>
      rw [tailOf, List.append_nil, scan_midLine midLine oneLine, filterMap_hit_plain]
      exact follows [] rfl
  | cons other others =>
      change (((seq lineStart body).scan past (line ++ '\n' :: joinLines (other :: others))
        0).filterMap Piece.hit?).map value = readings
      rw [scan_midLine_newline midLine oneLine, List.filterMap_append, filterMap_hit_plain,
        List.nil_append]
      exact follows _ rfl

/-- Where the text goes on behind a match: in the line, or behind the closing
character on a later line. -/
def resume (closer : Char) (after : List Text) : Option Text → Text
  | some left => left ++ tailOf after
  | none => ((joinLines after).dropWhile (· != closer)).tail

/-- A pattern reads lines if it is known what it leaves of the text. -/
theorem readsLines_of_resume {pattern : Pattern} {value : Match → Reading} {lines : List Text}
    {find : Text → Bool → Option (Reading × Option Text)}
    (same : ∀ past line after, atLineStart past = true → line :: after <:+ lines →
      (pattern.matchAt past (joinLines (line :: after))).map
        (fun m => (value m, (joinLines (line :: after)).drop m.text.length)) =
      (find line (after.any (·.contains closer))).map
        fun found => (found.1, resume closer after found.2))
    (inLine : ∀ {line later reading left}, find line later = some (reading, some left) →
      left <:+ line)
    (later : ∀ {line later reading}, find line later = some (reading, none) → later = true) :
    pattern.ReadsLines value closer
      (fun line later => (find line later).map fun found => (found.1, found.2.isSome)) lines where
  absent past line after startsLine places absent := by
    have equal := same past line after startsLine places
    rw [Option.map_eq_none_iff] at absent
    rw [absent] at equal
    simpa using equal
  closed past line after reading startsLine places found := by
    have equal := same past line after startsLine places
    obtain ⟨⟨value_, rest⟩, isFound, agree⟩ := Option.map_eq_some_iff.mp found
    cases rest with
    | none => cases agree
    | some left =>
        cases agree
        rw [isFound] at equal
        obtain ⟨m, matched, agree⟩ := Option.map_eq_some_iff.mp equal
        obtain ⟨rfl, dropped⟩ := Prod.mk.inj agree
        obtain ⟨part, split⟩ := inLine isFound
        obtain ⟨stop, -, whole, -⟩ := matchAt_eq_some matched
        refine ⟨m, left, matched, rfl, ?_⟩
        rw [whole, List.drop_left] at dropped
        rw [joinLines_cons, ← split, dropped, resume, List.append_assoc] at whole
        rw [← split, List.append_cancel_right whole]
  runsOn past line after reading startsLine places found := by
    have equal := same past line after startsLine places
    obtain ⟨⟨value_, rest⟩, isFound, agree⟩ := Option.map_eq_some_iff.mp found
    cases rest with
    | some left => cases agree
    | none =>
        cases agree
        have open_ := later isFound
        refine ⟨open_, ?_⟩
        obtain ⟨other, member, inside⟩ := List.any_eq_true.mp open_
        obtain ⟨more, rest⟩ := dropWhile_at_closer
          (mem_joinLines member (List.contains_iff_mem.mp inside))
        rw [isFound] at equal
        obtain ⟨m, matched, agree⟩ := Option.map_eq_some_iff.mp equal
        obtain ⟨rfl, dropped⟩ := Prod.mk.inj agree
        obtain ⟨stop, -, whole, -⟩ := matchAt_eq_some matched
        refine ⟨m, matched, rfl, ?_⟩
        rw [whole, List.drop_left, resume, rest, List.tail_cons] at dropped
        have split : joinLines (line :: after) =
            (line ++ '\n' :: ((joinLines after).takeWhile (· != closer) ++ [closer])) ++ more := by
          cases after with
          | nil => cases member
          | cons first others =>
              have text := @List.takeWhile_append_dropWhile _ (· != closer)
                (joinLines (first :: others))
              rw [rest] at text
              rw [joinLines_cons_cons]
              nth_rewrite 1 [← text]
              simp
        rw [dropped] at whole
        exact List.append_cancel_right (whole.symm.trans split)

/-- `re.finditer` reads the lines as `visit` does. -/
theorem findIter_visit {body : Pattern} {value : Match → Reading} (newlineFree : closer ≠ '\n')
    {lines : List Text} (reads : (seq lineStart body).ReadsLines value closer read lines)
    (oneLine : ∀ line ∈ lines, '\n' ∉ line) :
    ((seq lineStart body).findIter (joinLines lines)).map value = visit closer read false lines := by
  have both : (∀ past, atLineStart past = true →
      (((seq lineStart body).scan past (joinLines lines) 0).filterMap Piece.hit?).map value =
        visit closer read false lines) ∧
      ∀ past more, atLineStart past = false →
        joinLines lines = (joinLines lines).takeWhile (· != closer) ++ closer :: more →
        (((seq lineStart body).scan past more 0).filterMap Piece.hit?).map value =
          visit closer read true lines := by
    induction lines with
    | nil =>
        constructor
        · exact fun past startsLine => rfl
        · intro past more midLine split
          cases split
    | cons line after inductionHypothesis =>
        obtain ⟨fromStart, fromMiddle⟩ :=
          inductionHypothesis reads.tail
            fun other member => oneLine other (List.mem_cons_of_mem _ member)
        have lineClean := oneLine line (by simp)
        constructor
        · intro past startsLine
          cases found : read line (after.any (·.contains closer)) with
          | none =>
              have absent := reads.absent past line after startsLine (List.suffix_refl _) found
              have state : visit closer read false (line :: after) =
                  visit closer read false after := by
                rw [visit, found]
              rw [state]
              rw [joinLines_cons] at absent ⊢
              cases line with
              | cons c rest =>
                  have different : c ≠ '\n' := fun equality => lineClean (by simp [equality])
                  rw [List.cons_append] at absent ⊢
                  rw [scan, absent]
                  refine filterMap_scan_tail ?_ ?_ fromStart
                  · simp [atLineStart, headIs, different]
                  · exact fun member => lineClean (List.mem_cons_of_mem _ member)
              | nil =>
                  cases after with
                  | nil => exact fromStart past startsLine
                  | cons other others =>
                      rw [List.nil_append, tailOf] at absent ⊢
                      · rw [scan, absent]
                        exact fromStart _ rfl
                      · simp
                      · simp
          | some pair =>
              obtain ⟨reading, closes⟩ := pair
              cases closes with
              | true =>
                  obtain ⟨m, more, matched, rfl, split⟩ :=
                    reads.closed past line after reading startsLine (List.suffix_refl _) found
                  obtain ⟨-, -, -, filled, -⟩ := matchAt_eq_some matched
                  have clean : '\n' ∉ m.text :=
                    fun member => lineClean (by rw [split]; exact List.mem_append_left _ member)
                  have moreClean : '\n' ∉ more :=
                    fun member => lineClean (by rw [split]; exact List.mem_append_right _ member)
                  have state : visit closer read false (line :: after) =
                      value m :: visit closer read false after := by
                    rw [visit, found]
                    rfl
                  have text : joinLines (line :: after) = m.text ++ (more ++ tailOf after) := by
                    rw [joinLines_cons, split, List.append_assoc]
                  rw [text] at matched ⊢
                  rw [state, scan_hit filled matched]
                  exact congrArg (value m :: ·)
                    (filterMap_scan_tail (midLine_of_filled filled clean past) moreClean fromStart)
              | false =>
                  obtain ⟨later, m, matched, rfl, split⟩ :=
                    reads.runsOn past line after reading startsLine (List.suffix_refl _) found
                  obtain ⟨other, member, inside⟩ := List.any_eq_true.mp later
                  obtain ⟨more, rest⟩ := split_at_closer
                    (mem_joinLines member (List.contains_iff_mem.mp inside))
                  have state : visit closer read false (line :: after) =
                      value m :: visit closer read true after := by
                    rw [visit, found]
                    rfl
                  have text : joinLines (line :: after) = m.text ++ more := by
                    cases after with
                    | nil => cases member
                    | cons first others =>
                        rw [joinLines_cons_cons, rest, split]
                        simp
                  have filled : m.text ≠ [] := by
                    rw [split]
                    simp
                  have midLine : atLineStart (m.text.reverse ++ past) = false := by
                    rw [split]
                    simp [atLineStart, headIs, newlineFree]
                  rw [text] at matched ⊢
                  rw [state, scan_hit filled matched]
                  exact congrArg (value m :: ·) (fromMiddle _ more midLine rest)
        · intro past more midLine split
          have state : visit closer read true (line :: after) =
              visit closer read (!line.contains closer) after := rfl
          rw [state]
          by_cases inside : closer ∈ line
          · obtain ⟨left, whole⟩ := split_at_closer inside
            have same : more = left ++ tailOf after := by
              have text : joinLines (line :: after) =
                  line.takeWhile (· != closer) ++ closer :: (left ++ tailOf after) := by
                rw [joinLines_cons]
                nth_rewrite 1 [whole]
                simp
              rw [text, takeWhile_stop List.all_takeWhile (by simp)] at split
              exact (List.cons.inj (List.append_cancel_left split)).2.symm
            have leftClean : '\n' ∉ left :=
              fun member => lineClean (by rw [whole]; simp [member])
            rw [List.contains_iff_mem.mpr inside, same]
            exact filterMap_scan_tail midLine leftClean fromStart
          · have open_ : line.contains closer = false := by simpa using inside
            rw [open_]
            cases after with
            | nil =>
                rw [joinLines_singleton] at split
                exact absurd (by rw [split]; simp) inside
            | cons other others =>
                apply fromMiddle past more midLine
                have all : ∀ c ∈ line ++ ['\n'], (c != closer) = true := by
                  intro c member
                  rcases List.mem_append.mp member with inLine | newline
                  · have different : c ≠ closer := fun equality => inside (equality ▸ inLine)
                    simpa using different
                  · rw [List.mem_singleton.mp newline]
                    simpa using newlineFree.symm
                have text : joinLines (line :: other :: others) =
                    (line ++ ['\n']) ++ joinLines (other :: others) := by
                  rw [joinLines_cons_cons]
                  simp
                rw [text, List.takeWhile_append_of_pos all,
                  List.append_assoc (line ++ ['\n'])] at split
                exact List.append_cancel_left split
  exact both.1 [] rfl

end Pattern

end LibarenaRs.Regex
