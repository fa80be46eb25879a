import LibarenaRs.Regex.Lines

/-!
# Patterns that could cross a line but do not

Classes such as `\s` or `[^}]` accept a newline.  Where no way of matching reads
one, such a pattern gives the same answer as the pattern without newlines in its
classes, and that one stays in the line.
-/

namespace LibarenaRs.Regex

namespace Pattern

/-- The pattern with the newline taken out of every class. -/
def restrict : Pattern → Pattern
  | .chr accepts => .chr fun c => accepts c && c != '\n'
  | .seq first second => .seq first.restrict second.restrict
  | .alt first second => .alt first.restrict second.restrict
  | .star greedy body => .star greedy body.restrict
  | .group index body => .group index body.restrict
  | .notBehind accepts => .notBehind accepts
  | .notAhead body => .notAhead body
  | .empty => .empty
  | .lit word => .lit word
  | .textStart => .textStart
  | .textEnd => .textEnd
  | .lineStart => .lineStart
  | .lineEnd => .lineEnd
  | .wordBoundary => .wordBoundary

/-- Only continuations at places the pattern reaches matter. -/
theorem run_congr {pattern : Pattern} {Answer : Type} {first second : Cursor → Option Answer}
    {start : Cursor} (agree : ∀ stop, pattern.Reaches start stop → first stop = second stop) :
    pattern.run first start = pattern.run second start := by
  induction pattern generalizing Answer start with
  | empty => exact agree start rfl
  | lit word =>
      by_cases present : word <+: start.rest
      · obtain ⟨past, text, groups⟩ := start
        obtain ⟨rest, rfl⟩ := present
        rw [run_lit_append, run_lit_append]
        exact agree _ ⟨rest, rfl, rfl⟩
      · rw [run_lit_absent _ present, run_lit_absent _ present]
  | chr accepts =>
      obtain ⟨past, text, groups⟩ := start
      cases text with
      | nil => rfl
      | cons c rest =>
          rw [run_chr_cons, run_chr_cons]
          by_cases accepted : accepts c = true
          · rw [if_pos accepted, if_pos accepted]
            exact agree _ ⟨c, rest, rfl, accepted, rfl⟩
          · rw [if_neg accepted, if_neg accepted]
  | seq before after beforeCongr afterCongr =>
      apply beforeCongr
      intro middle reached
      apply afterCongr
      exact fun stop finished => agree stop ⟨middle, reached, finished⟩
  | alt before after beforeCongr afterCongr =>
      rw [run_alt, run_alt, beforeCongr fun stop reached => agree stop (Or.inl reached),
        afterCongr fun stop reached => agree stop (Or.inr reached)]
  | star greedy body bodyCongr =>
      have loop : ∀ fuel middle, (star greedy body).Reaches start middle →
          repeatBody body.run greedy first fuel middle =
            repeatBody body.run greedy second fuel middle := by
        intro fuel
        induction fuel with
        | zero => exact fun middle path => agree middle path
        | succ fuel inductionHypothesis =>
            intro middle path
            have again : body.run (fun after =>
                if after.rest.length < middle.rest.length then
                  repeatBody body.run greedy first fuel after else none) middle =
              body.run (fun after =>
                if after.rest.length < middle.rest.length then
                  repeatBody body.run greedy second fuel after else none) middle := by
              apply bodyCongr
              intro after reached
              by_cases progress : after.rest.length < middle.rest.length
              · rw [if_pos progress, if_pos progress]
                exact inductionHypothesis after (path.tail ⟨reached, progress⟩)
              · rw [if_neg progress, if_neg progress]
            rw [repeatBody, repeatBody, again, agree middle path]
      exact loop _ start .refl
  | group index body bodyCongr =>
      apply bodyCongr
      exact fun stop reached => agree _ ⟨stop, reached, rfl⟩
  | notAhead body _ =>
      rw [run_notAhead, run_notAhead]
      cases ahead : body.run some start with
      | some stop => rfl
      | none =>
          have blocked : ∀ other, ¬body.Reaches start other := by
            intro other reached
            have failed := run_eq_none_iff.mp ahead other reached
            cases failed
          simpa using agree start ⟨blocked, rfl⟩
  | notBehind accepts =>
      rw [run_notBehind, run_notBehind]
      cases behind : headIs accepts start.past with
      | true => rfl
      | false => simpa using agree start ⟨behind, rfl⟩
  | textStart | textEnd | lineStart | lineEnd | wordBoundary =>
      simp only [run_textStart, run_textEnd, run_lineStart, run_lineEnd, run_wordBoundary]
      split
      · rename_i holds
        exact agree start ⟨holds, rfl⟩
      · rfl

theorem reaches_of_restrict {pattern : Pattern} {start stop : Cursor}
    (reached : pattern.restrict.Reaches start stop) : pattern.Reaches start stop := by
  induction pattern generalizing start stop with
  | chr accepts =>
      obtain ⟨c, rest, split, accepted, rfl⟩ := reached
      rw [Bool.and_eq_true] at accepted
      exact ⟨c, rest, split, accepted.1, rfl⟩
  | seq first second firstWider secondWider =>
      obtain ⟨middle, before, after⟩ := reached
      exact ⟨middle, firstWider before, secondWider after⟩
  | alt first second firstWider secondWider =>
      rcases reached with before | after
      · exact Or.inl (firstWider before)
      · exact Or.inr (secondWider after)
  | star greedy body bodyWider =>
      apply Relation.ReflTransGen.mono _ _ _ reached
      exact fun before after step => ⟨bodyWider step.1, step.2⟩
  | group index body bodyWider =>
      obtain ⟨inner, before, rfl⟩ := reached
      exact ⟨inner, bodyWider before, rfl⟩
  | empty | lit | notAhead | notBehind | textStart | textEnd | lineStart | lineEnd | wordBoundary =>
      exact reached

/-- A newline lies between the two places. -/
def Crosses (start stop : Cursor) : Prop := ∃ read, start.rest = read ++ stop.rest ∧ '\n' ∈ read

theorem Crosses.before {pattern : Pattern} {start middle stop : Cursor}
    (reached : pattern.Reaches start middle) (crosses : Crosses middle stop) :
    Crosses start stop := by
  obtain ⟨read, split, -⟩ := reached.read
  obtain ⟨more, splitMore, newline⟩ := crosses
  exact ⟨read ++ more, by rw [split, splitMore, List.append_assoc],
    List.mem_append_right _ newline⟩

theorem Crosses.after {pattern : Pattern} {start middle stop : Cursor}
    (crosses : Crosses start middle) (reached : pattern.Reaches middle stop) :
    Crosses start stop := by
  obtain ⟨read, split, newline⟩ := crosses
  obtain ⟨more, splitMore, -⟩ := reached.read
  exact ⟨read ++ more, by rw [split, splitMore, List.append_assoc],
    List.mem_append_left _ newline⟩

/-- Where the continuation fails at every place behind a newline, newlines need
not be read. -/
theorem run_restrict {pattern : Pattern} {Answer : Type} {next : Cursor → Option Answer}
    {start : Cursor}
    (fails : ∀ stop, pattern.Reaches start stop → Crosses start stop → next stop = none) :
    pattern.run next start = pattern.restrict.run next start := by
  induction pattern generalizing Answer start with
  | chr accepts =>
      obtain ⟨past, text, groups⟩ := start
      cases text with
      | nil => rfl
      | cons c rest =>
          simp only [restrict, run_chr_cons]
          by_cases newline : c = '\n'
          · subst newline
            by_cases accepted : accepts '\n' = true
            · have silent : next ⟨'\n' :: past, rest, groups⟩ = none :=
                fails _ ⟨'\n', rest, rfl, accepted, rfl⟩ ⟨['\n'], rfl, by simp⟩
              simp [silent]
            · simp [accepted]
          · simp [newline]
  | seq first second firstRestrict secondRestrict =>
      have split : first.run (second.run next) start =
          first.restrict.run (second.run next) start := by
        apply firstRestrict
        intro middle reached crosses
        rw [run_eq_none_iff]
        exact fun stop finished => fails stop ⟨middle, reached, finished⟩ (crosses.after finished)
      change first.run (second.run next) start =
        first.restrict.run (second.restrict.run next) start
      rw [split]
      apply run_congr
      intro middle reached
      have wider := reaches_of_restrict reached
      apply secondRestrict
      exact fun stop finished crosses =>
        fails stop ⟨middle, wider, finished⟩ (crosses.before wider)
  | alt first second firstRestrict secondRestrict =>
      simp only [restrict, run_alt]
      rw [firstRestrict fun stop reached => fails stop (Or.inl reached),
        secondRestrict fun stop reached => fails stop (Or.inr reached)]
  | star greedy body bodyRestrict =>
      have loop : ∀ fuel middle, (star greedy body).Reaches start middle →
          repeatBody body.run greedy next fuel middle =
            repeatBody body.restrict.run greedy next fuel middle := by
        intro fuel
        induction fuel with
        | zero => exact fun middle path => rfl
        | succ fuel inductionHypothesis =>
            intro middle path
            have silent : ∀ after, body.Reaches middle after →
                after.rest.length < middle.rest.length → Crosses middle after →
                repeatBody body.run greedy next fuel after = none := by
              intro after reached progress crosses
              cases found : repeatBody body.run greedy next fuel after with
              | none => rfl
              | some answer =>
                  obtain ⟨stop, finish, ended⟩ := repeatBody_sound body.explores found
                  have whole : (star greedy body).Reaches start stop :=
                    (path.tail ⟨reached, progress⟩).trans finish
                  have crossed := (@Crosses.after (star greedy body) _ _ _ crosses finish).before path
                  rw [fails stop whole crossed] at ended
                  cases ended
            have first : body.run (fun after =>
                if after.rest.length < middle.rest.length then
                  repeatBody body.run greedy next fuel after else none) middle =
              body.restrict.run (fun after =>
                if after.rest.length < middle.rest.length then
                  repeatBody body.run greedy next fuel after else none) middle := by
              apply bodyRestrict
              intro after reached crosses
              by_cases progress : after.rest.length < middle.rest.length
              · rw [if_pos progress]
                exact silent after reached progress crosses
              · exact if_neg progress
            have second : body.restrict.run (fun after =>
                if after.rest.length < middle.rest.length then
                  repeatBody body.run greedy next fuel after else none) middle =
              body.restrict.run (fun after =>
                if after.rest.length < middle.rest.length then
                  repeatBody body.restrict.run greedy next fuel after else none) middle := by
              apply run_congr
              intro after reached
              by_cases progress : after.rest.length < middle.rest.length
              · rw [if_pos progress, if_pos progress]
                exact inductionHypothesis after
                  (path.tail ⟨reaches_of_restrict reached, progress⟩)
              · rw [if_neg progress, if_neg progress]
            rw [repeatBody, repeatBody, first, second]
      exact loop _ start .refl
  | group index body bodyRestrict =>
      apply bodyRestrict
      exact fun stop reached crosses => fails _ ⟨stop, reached, rfl⟩ crosses
  | empty | lit | notAhead | notBehind | textStart | textEnd | lineStart | lineEnd | wordBoundary =>
      rfl

/-- Where no way of matching reads a newline, the restricted pattern does the same. -/
theorem matchAt_restrict {pattern : Pattern} {past rest : Text}
    (stays : ∀ stop, pattern.Reaches ⟨past, rest, []⟩ stop → ¬Crosses ⟨past, rest, []⟩ stop) :
    pattern.matchAt past rest = pattern.restrict.matchAt past rest := by
  apply run_restrict
  exact fun stop reached crosses => absurd crosses (stays stop reached)

end Pattern

end LibarenaRs.Regex
