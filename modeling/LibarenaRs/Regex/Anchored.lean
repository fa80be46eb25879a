import LibarenaRs.Regex.Restrict

/-!
# Patterns anchored at line starts

A pattern `^…` that does not leave the line it starts in is a function of the
line: a scan of a text looks at each line once.
-/

namespace LibarenaRs.Regex

/-- A line start inside a text is the start of one of its lines. -/
theorem joinLines_at_lineStart {lines : List Text} (oneLine : ∀ line ∈ lines, '\n' ∉ line)
    {read left : Text} (split : joinLines lines = read ++ left) (nonempty : left ≠ [])
    (startsLine : atLineStart read.reverse = true) :
    ∃ before line after, lines = before ++ line :: after ∧ left = joinLines (line :: after) := by
  have endsWithNewline : ∀ text : Text, text ≠ [] → atLineStart text.reverse = true →
      '\n' ∈ text := by
    intro text filled lineStart
    cases reversed : text.reverse with
    | nil => exact absurd (List.reverse_eq_nil_iff.mp reversed) filled
    | cons d others =>
        rw [reversed] at lineStart
        have newline : d = '\n' := by simpa [atLineStart, headIs] using lineStart
        apply List.mem_reverse.mp
        rw [reversed, newline]
        exact List.mem_cons_self
  induction lines generalizing read with
  | nil =>
      obtain ⟨-, empty⟩ := List.append_eq_nil_iff.mp split.symm
      exact absurd empty nonempty
  | cons line others inductionHypothesis =>
      by_cases atStart : read = []
      · subst atStart
        exact ⟨[], line, others, rfl, by rw [split]; rfl⟩
      have newline := endsWithNewline read atStart startsLine
      cases others with
      | nil =>
          have inside : '\n' ∈ line := by
            rw [joinLines_singleton] at split
            rw [split]
            exact List.mem_append_left _ newline
          exact absurd inside (oneLine line (by simp))
      | cons other others =>
          rw [joinLines_cons_cons] at split
          rcases List.append_eq_append_iff.mp split with ⟨more, whole, rest⟩ | ⟨more, whole, rest⟩
          · -- the newline behind the first line has been read
            cases more with
            | nil =>
                rw [List.append_nil] at whole
                rw [whole] at newline
                exact absurd newline (oneLine line (by simp))
            | cons d more =>
                rw [List.cons_append, List.cons.injEq] at rest
                obtain ⟨rfl, rest⟩ := rest
                have later : atLineStart more.reverse = true := by
                  cases reversed : more.reverse with
                  | nil => rfl
                  | cons e _ =>
                      rw [whole, List.reverse_append, List.reverse_cons, reversed] at startsLine
                      simpa [atLineStart, headIs] using startsLine
                obtain ⟨before, found, after, lines, left⟩ := inductionHypothesis
                  (fun line member => oneLine line (List.mem_cons_of_mem _ member)) rest later
                exact ⟨line :: before, found, after, by rw [lines]; rfl, left⟩
          · have inside : '\n' ∈ line := by
              rw [whole]
              exact List.mem_append_left _ newline
            exact absurd inside (oneLine line (by simp))

namespace Pattern

theorem not_crosses_of_oneLine {pattern : Pattern} {past line : Text} (oneLine : '\n' ∉ line)
    {stop : Cursor} : pattern.Reaches ⟨past, line, []⟩ stop → ¬Crosses ⟨past, line, []⟩ stop := by
  rintro - ⟨read, split, newline⟩
  apply oneLine
  rw [show line = read ++ stop.rest from split]
  exact List.mem_append_left _ newline

/-- What an anchored pattern does with one line. -/
def subLine (pattern : Pattern) (replace : Match → Text) (line : Text) : Text :=
  match pattern.matchAt [] line with
  | some m => replace m ++ line.drop m.text.length
  | none => line

section Anchored

variable {body : Pattern} {lines : List Text}

theorem scan_restrict (oneLine : ∀ line ∈ lines, '\n' ∉ line)
    (stays : ∀ before line after, lines = before ++ line :: after → ∀ past stop,
      body.Reaches ⟨past, joinLines (line :: after), []⟩ stop →
      ¬Crosses ⟨past, joinLines (line :: after), []⟩ stop) :
    (seq lineStart body).scan [] (joinLines lines) 0 =
      (seq lineStart body.restrict).scan [] (joinLines lines) 0 := by
  apply scan_congr
  intro read c left split
  rw [List.append_nil]
  by_cases startsLine : atLineStart read.reverse = true
  · obtain ⟨before, line, after, places, rest⟩ :=
      joinLines_at_lineStart oneLine split (by simp) startsLine
    rw [rest]
    apply @matchAt_restrict (seq lineStart body)
    rintro stop ⟨middle, ⟨-, rfl⟩, reached⟩
    exact stays before line after places _ stop reached
  · rw [Bool.not_eq_true] at startsLine
    rw [matchAt_seq_lineStart startsLine, matchAt_seq_lineStart startsLine]

theorem matchAt_restrict_line {line : Text} (oneLine : '\n' ∉ line) :
    (seq lineStart body.restrict).matchAt [] line = (seq lineStart body).matchAt [] line := by
  symm
  apply @matchAt_restrict (seq lineStart body)
  exact fun stop => not_crosses_of_oneLine oneLine

theorem scan_seq_lineStart {line : Text} (oneLine : '\n' ∉ line) :
    (seq lineStart body.restrict).scan [] line 0 =
      match (seq lineStart body).matchAt [] line with
      | some m => .hit m :: (line.drop m.text.length).map .plain
      | none => line.map .plain := by
  rw [← matchAt_restrict_line oneLine]
  exact scan_anchored oneLine fun past rest midLine => matchAt_seq_lineStart midLine

/-- `re.finditer` looks at each line once. -/
theorem findIter_lines (inLine : body.restrict.inLine = true)
    (oneLine : ∀ line ∈ lines, '\n' ∉ line)
    (stays : ∀ before line after, lines = before ++ line :: after → ∀ past stop,
      body.Reaches ⟨past, joinLines (line :: after), []⟩ stop →
      ¬Crosses ⟨past, joinLines (line :: after), []⟩ stop) :
    (seq lineStart body).findIter (joinLines lines) =
      lines.filterMap ((seq lineStart body).matchAt []) := by
  rw [findIter, scan_restrict oneLine stays]
  have perLine := @findIter_joinLines (seq lineStart body.restrict) inLine lines
  rw [findIter] at perLine
  rw [perLine, List.filterMap_eq_flatMap_toList]
  apply List.flatMap_congr
  intro line member
  rw [findIter, scan_seq_lineStart (oneLine line member)]
  cases (seq lineStart body).matchAt [] line with
  | some m =>
      have rest := filterMap_hit_plain (line.drop m.text.length)
      exact congrArg (m :: ·) rest
  | none => exact filterMap_hit_plain line

/-- `re.sub` changes each line by itself. -/
theorem sub_lines (inLine : body.restrict.inLine = true)
    (oneLine : ∀ line ∈ lines, '\n' ∉ line)
    (stays : ∀ before line after, lines = before ++ line :: after → ∀ past stop,
      body.Reaches ⟨past, joinLines (line :: after), []⟩ stop →
      ¬Crosses ⟨past, joinLines (line :: after), []⟩ stop) (replace : Match → Text) :
    (seq lineStart body).sub replace (joinLines lines) =
      joinLines (lines.map ((seq lineStart body).subLine replace)) := by
  rw [sub, scan_restrict oneLine stays]
  have perLine := @sub_joinLines (seq lineStart body.restrict) inLine replace lines
  rw [sub] at perLine
  rw [perLine]
  congr 1
  apply List.map_congr_left
  intro line member
  rw [sub, scan_seq_lineStart (oneLine line member), subLine]
  cases (seq lineStart body).matchAt [] line with
  | some m =>
      have rest := flatMap_render_plain replace (line.drop m.text.length)
      exact congrArg (replace m ++ ·) rest
  | none => exact flatMap_render_plain replace line

end Anchored

/-- The pattern never reads this character. -/
def avoids (d : Char) : Pattern → Bool
  | .lit word => !word.contains d
  | .chr accepts => !accepts d
  | .seq first second => first.avoids d && second.avoids d
  | .alt first second => first.avoids d && second.avoids d
  | .star _ body => body.avoids d
  | .group _ body => body.avoids d
  | _ => true

theorem Reaches.read_avoids {pattern : Pattern} {d : Char} (avoided : pattern.avoids d = true)
    {start stop : Cursor} (reached : pattern.Reaches start stop) :
    ∃ read, start.rest = read ++ stop.rest ∧ d ∉ read := by
  induction pattern generalizing start stop with
  | empty =>
      obtain rfl := reached
      exact ⟨[], rfl, by simp⟩
  | lit word =>
      obtain ⟨rest, split, rfl⟩ := reached
      exact ⟨word, split, by simpa [avoids] using avoided⟩
  | chr accepts =>
      obtain ⟨c, rest, split, accepted, rfl⟩ := reached
      refine ⟨[c], split, ?_⟩
      rintro member
      rw [← List.mem_singleton.mp member] at accepted
      simp [avoids, accepted] at avoided
  | seq first second firstRead secondRead =>
      rw [avoids, Bool.and_eq_true] at avoided
      obtain ⟨middle, before, after⟩ := reached
      obtain ⟨read, split, clean⟩ := firstRead avoided.1 before
      obtain ⟨more, splitMore, cleanMore⟩ := secondRead avoided.2 after
      exact ⟨read ++ more, by rw [split, splitMore, List.append_assoc], by simp [clean, cleanMore]⟩
  | alt first second firstRead secondRead =>
      rw [avoids, Bool.and_eq_true] at avoided
      rcases reached with before | after
      · exact firstRead avoided.1 before
      · exact secondRead avoided.2 after
  | star greedy body bodyRead =>
      induction reached with
      | refl => exact ⟨[], rfl, by simp⟩
      | tail _ step inductionHypothesis =>
          obtain ⟨read, split, clean⟩ := inductionHypothesis
          obtain ⟨more, splitMore, cleanMore⟩ := bodyRead avoided step.1
          exact ⟨read ++ more, by rw [split, splitMore, List.append_assoc],
            by simp [clean, cleanMore]⟩
  | group index body bodyRead =>
      obtain ⟨inner, before, rfl⟩ := reached
      obtain ⟨read, split, clean⟩ := bodyRead avoided before
      exact ⟨read, split, clean⟩
  | textStart | textEnd | lineStart | lineEnd | wordBoundary | notBehind | notAhead =>
      obtain ⟨-, rfl⟩ := reached
      exact ⟨[], rfl, by simp⟩

/-- A character that is never read holds the match back. -/
theorem Reaches.not_crosses {pattern : Pattern} {d : Char} (avoided : pattern.avoids d = true)
    {past before after : Text} (guarded : '\n' ∉ before) {stop : Cursor}
    (reached : pattern.Reaches ⟨past, before ++ d :: after, []⟩ stop) :
    ¬Crosses ⟨past, before ++ d :: after, []⟩ stop := by
  obtain ⟨read, split, clean⟩ := reached.read_avoids avoided
  rintro ⟨crossing, splitCrossing, newline⟩
  change before ++ d :: after = read ++ stop.rest at split
  change before ++ d :: after = crossing ++ stop.rest at splitCrossing
  obtain rfl : crossing = read := List.append_cancel_right (splitCrossing.symm.trans split)
  rcases List.append_eq_append_iff.mp split with ⟨more, whole, rest⟩ | ⟨more, whole, rest⟩
  · cases more with
    | nil => exact guarded (by rwa [whole, List.append_nil] at newline)
    | cons e more =>
        rw [List.cons_append, List.cons.injEq] at rest
        exact clean (by rw [whole, rest.1]; simp)
  · exact guarded (by rw [whole]; exact List.mem_append_left _ newline)

end Pattern

end LibarenaRs.Regex
