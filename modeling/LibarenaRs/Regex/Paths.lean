import LibarenaRs.Regex.Equations
import Mathlib.Logic.Relation

/-!
# What a pattern can match

`Reaches` is the set of places where a pattern can stop, without any order.
The matcher explores exactly these: it answers with the continuation's answer
at one of them, and gives up only when the continuation fails at all of them.
-/

namespace LibarenaRs.Regex

namespace Pattern

def Reaches : Pattern → Cursor → Cursor → Prop
  | .empty, start, stop => stop = start
  | .lit word, start, stop => ∃ rest, start.rest = word ++ rest ∧ stop = start.move word rest
  | .chr accepts, start, stop =>
      ∃ c rest, start.rest = c :: rest ∧ accepts c = true ∧ stop = start.move [c] rest
  | .seq first second, start, stop =>
      ∃ middle, first.Reaches start middle ∧ second.Reaches middle stop
  | .alt first second, start, stop => first.Reaches start stop ∨ second.Reaches start stop
  | .star _ body, start, stop =>
      Relation.ReflTransGen
        (fun before after => body.Reaches before after ∧
          after.rest.length < before.rest.length) start stop
  | .group index body, start, stop =>
      ∃ inner, body.Reaches start inner ∧ stop = inner.close index start.rest
  | .textStart, start, stop => start.past.isEmpty = true ∧ stop = start
  | .textEnd, start, stop =>
      (start.rest.isEmpty || start.rest == ['\n']) = true ∧ stop = start
  | .lineStart, start, stop => atLineStart start.past = true ∧ stop = start
  | .lineEnd, start, stop => atLineEnd start.rest = true ∧ stop = start
  | .wordBoundary, start, stop =>
      (headIs isWord start.past != headIs isWord start.rest) = true ∧ stop = start
  | .notAhead body, start, stop => (∀ other, ¬body.Reaches start other) ∧ stop = start
  | .notBehind accepts, start, stop => headIs accepts start.past = false ∧ stop = start

/-- The body of a repetition, as far as the loop cares. -/
structure Explores (body : Pattern) : Prop where
  sound : ∀ {Answer : Type} (next : Cursor → Option Answer) start answer,
    body.run next start = some answer →
      ∃ stop, body.Reaches start stop ∧ next stop = some answer
  complete : ∀ {Answer : Type} (next : Cursor → Option Answer) start,
    body.run next start = none → ∀ stop, body.Reaches start stop → next stop = none

theorem repeatBody_sound {body : Pattern} (explores : body.Explores) {Answer : Type}
    {greedy : Bool} {next : Cursor → Option Answer} {fuel : Nat} {start : Cursor}
    {answer : Answer} (found : repeatBody body.run greedy next fuel start = some answer) :
    ∃ stop, (star greedy body).Reaches start stop ∧ next stop = some answer := by
  induction fuel generalizing start with
  | zero => exact ⟨start, .refl, found⟩
  | succ fuel inductionHypothesis =>
      have here : next start = some answer →
          ∃ stop, (star greedy body).Reaches start stop ∧ next stop = some answer :=
        fun success => ⟨start, .refl, success⟩
      have again : body.run (fun after =>
          if after.rest.length < start.rest.length then
            repeatBody body.run greedy next fuel after
          else none) start = some answer →
          ∃ stop, (star greedy body).Reaches start stop ∧ next stop = some answer := by
        intro success
        obtain ⟨middle, reached, continued⟩ := explores.sound _ _ _ success
        by_cases progress : middle.rest.length < start.rest.length
        · rw [if_pos progress] at continued
          obtain ⟨stop, path, ended⟩ := inductionHypothesis continued
          exact ⟨stop, .head ⟨reached, progress⟩ path, ended⟩
        · rw [if_neg progress] at continued
          cases continued
      cases greedy with
      | true =>
          rcases eq_some_of_orElse found with success | success
          · exact again success
          · exact here success
      | false =>
          rcases eq_some_of_orElse found with success | success
          · exact here success
          · exact again success

theorem none_of_orElse {Answer : Type} {first second : Option Answer}
    (failed : (first <|> second) = none) : first = none ∧ second = none := by
  cases first with
  | none => exact ⟨rfl, by simpa using failed⟩
  | some value => simp at failed

theorem repeatBody_complete {body : Pattern} (explores : body.Explores) {Answer : Type}
    {greedy : Bool} {next : Cursor → Option Answer} {fuel : Nat} {start stop : Cursor}
    (enough : start.rest.length ≤ fuel)
    (failed : repeatBody body.run greedy next fuel start = none)
    (path : (star greedy body).Reaches start stop) : next stop = none := by
  induction fuel generalizing start with
  | zero =>
      rcases Relation.ReflTransGen.cases_head path with rfl | ⟨middle, step, -⟩
      · exact failed
      · have progress := step.2
        omega
  | succ fuel inductionHypothesis =>
      have parts : body.run (fun after =>
          if after.rest.length < start.rest.length then
            repeatBody body.run greedy next fuel after
          else none) start = none ∧ next start = none := by
        cases greedy with
        | true => exact none_of_orElse failed
        | false => exact (none_of_orElse failed).symm
      rcases Relation.ReflTransGen.cases_head path with rfl | ⟨middle, step, others⟩
      · exact parts.2
      · have continued := explores.complete _ _ parts.1 middle step.1
        rw [if_pos step.2] at continued
        exact inductionHypothesis (by have progress := step.2; omega) continued others

/-- The matcher explores exactly the places a pattern reaches. -/
theorem explores (pattern : Pattern) : pattern.Explores := by
  induction pattern with
  | empty =>
      refine ⟨fun next start answer found => ⟨start, rfl, found⟩, ?_⟩
      rintro Answer next start failed stop rfl
      exact failed
  | lit word =>
      refine ⟨?_, ?_⟩
      · intro Answer next start answer found
        obtain ⟨rest, split, ended⟩ := run_lit_eq_some next found
        exact ⟨_, ⟨rest, split, rfl⟩, ended⟩
      · rintro Answer next ⟨past, text, groups⟩ failed stop ⟨rest, split, rfl⟩
        simp only at split
        subst split
        rw [run_lit_append] at failed
        exact failed
  | chr accepts =>
      refine ⟨?_, ?_⟩
      · rintro Answer next ⟨past, text, groups⟩ answer found
        cases text with
        | nil => cases found
        | cons c rest =>
            rw [run_chr_cons] at found
            by_cases accepted : accepts c = true
            · rw [if_pos accepted] at found
              exact ⟨_, ⟨c, rest, rfl, accepted, rfl⟩, found⟩
            · rw [if_neg accepted] at found
              cases found
      · rintro Answer next ⟨past, text, groups⟩ failed stop ⟨c, rest, split, accepted, rfl⟩
        simp only at split
        subst split
        rw [run_chr_cons, if_pos accepted] at failed
        exact failed
  | seq first second firstExplores secondExplores =>
      refine ⟨?_, ?_⟩
      · intro Answer next start answer found
        obtain ⟨middle, reached, continued⟩ := firstExplores.sound _ _ _ found
        obtain ⟨stop, finished, ended⟩ := secondExplores.sound _ _ _ continued
        exact ⟨stop, ⟨middle, reached, finished⟩, ended⟩
      · rintro Answer next start failed stop ⟨middle, reached, finished⟩
        have continued := firstExplores.complete _ _ failed middle reached
        exact secondExplores.complete _ _ continued stop finished
  | alt first second firstExplores secondExplores =>
      refine ⟨?_, ?_⟩
      · intro Answer next start answer found
        rcases eq_some_of_orElse found with success | success
        · obtain ⟨stop, reached, ended⟩ := firstExplores.sound _ _ _ success
          exact ⟨stop, .inl reached, ended⟩
        · obtain ⟨stop, reached, ended⟩ := secondExplores.sound _ _ _ success
          exact ⟨stop, .inr reached, ended⟩
      · rintro Answer next start failed stop (reached | reached)
        · exact firstExplores.complete _ _ (none_of_orElse failed).1 stop reached
        · exact secondExplores.complete _ _ (none_of_orElse failed).2 stop reached
  | star greedy body bodyExplores =>
      exact ⟨fun next start answer found => repeatBody_sound bodyExplores found,
        fun next start failed stop path =>
          repeatBody_complete bodyExplores (Nat.le_refl _) failed path⟩
  | group index body bodyExplores =>
      refine ⟨?_, ?_⟩
      · intro Answer next start answer found
        obtain ⟨inner, reached, ended⟩ := bodyExplores.sound _ _ _ found
        exact ⟨_, ⟨inner, reached, rfl⟩, ended⟩
      · rintro Answer next start failed stop ⟨inner, reached, rfl⟩
        exact bodyExplores.complete _ _ failed inner reached
  | notAhead body bodyExplores =>
      refine ⟨?_, ?_⟩
      · intro Answer next start answer found
        rw [run_notAhead] at found
        cases ahead : body.run some start with
        | some stop => simp [ahead] at found
        | none =>
            simp only [ahead, Option.isSome_none, Bool.false_eq_true, if_false] at found
            refine ⟨start, ⟨fun other reached => ?_, rfl⟩, found⟩
            cases bodyExplores.complete _ _ ahead other reached
      · rintro Answer next start failed stop ⟨blocked, rfl⟩
        rw [run_notAhead] at failed
        cases ahead : body.run some stop with
        | some other =>
            obtain ⟨reachedStop, reached, -⟩ := bodyExplores.sound _ _ _ ahead
            exact absurd reached (blocked reachedStop)
        | none => simpa [ahead] using failed
  | notBehind accepts =>
      refine ⟨?_, ?_⟩
      · intro Answer next start answer found
        rw [run_notBehind] at found
        cases behind : headIs accepts start.past with
        | true => simp [behind] at found
        | false => exact ⟨start, ⟨behind, rfl⟩, by simpa [behind] using found⟩
      · rintro Answer next start failed stop ⟨behind, rfl⟩
        simpa [behind] using failed
  | textStart | textEnd | lineStart | lineEnd | wordBoundary =>
      refine ⟨?_, ?_⟩
      · intro Answer next start answer found
        simp only [run_textStart, run_textEnd, run_lineStart, run_lineEnd,
          run_wordBoundary] at found
        split at found
        · rename_i holds
          exact ⟨start, ⟨holds, rfl⟩, found⟩
        · cases found
      · rintro Answer next start failed stop ⟨holds, rfl⟩
        simpa [holds] using failed

theorem run_eq_some {pattern : Pattern} {Answer : Type} {next : Cursor → Option Answer}
    {start : Cursor} {answer : Answer} (found : pattern.run next start = some answer) :
    ∃ stop, pattern.Reaches start stop ∧ next stop = some answer :=
  pattern.explores.sound next start answer found

theorem run_eq_none_iff {pattern : Pattern} {Answer : Type}
    {next : Cursor → Option Answer} {start : Cursor} :
    pattern.run next start = none ↔ ∀ stop, pattern.Reaches start stop → next stop = none := by
  constructor
  · exact pattern.explores.complete next start
  · intro fails
    cases found : pattern.run next start with
    | none => rfl
    | some answer =>
        obtain ⟨stop, reached, ended⟩ := run_eq_some found
        rw [fails stop reached] at ended
        cases ended

/-- A pattern reads forward: the text it took moved from ahead to behind. -/
theorem Reaches.read {pattern : Pattern} {start stop : Cursor}
    (reached : pattern.Reaches start stop) :
    ∃ read, start.rest = read ++ stop.rest ∧ stop.past = read.reverse ++ start.past := by
  induction pattern generalizing start stop with
  | empty =>
      obtain rfl := reached
      exact ⟨[], rfl, rfl⟩
  | lit word =>
      obtain ⟨rest, split, rfl⟩ := reached
      exact ⟨word, split, rfl⟩
  | chr accepts =>
      obtain ⟨c, rest, split, -, rfl⟩ := reached
      exact ⟨[c], split, rfl⟩
  | seq first second firstRead secondRead =>
      obtain ⟨middle, before, after⟩ := reached
      obtain ⟨read, split, past⟩ := firstRead before
      obtain ⟨more, splitMore, pastMore⟩ := secondRead after
      exact ⟨read ++ more, by rw [split, splitMore, List.append_assoc],
        by rw [pastMore, past, List.reverse_append, List.append_assoc]⟩
  | alt first second firstRead secondRead =>
      rcases reached with before | after
      · exact firstRead before
      · exact secondRead after
  | star greedy body bodyRead =>
      induction reached with
      | refl => exact ⟨[], rfl, rfl⟩
      | tail _ step inductionHypothesis =>
          obtain ⟨read, split, past⟩ := inductionHypothesis
          obtain ⟨more, splitMore, pastMore⟩ := bodyRead step.1
          exact ⟨read ++ more, by rw [split, splitMore, List.append_assoc],
            by rw [pastMore, past, List.reverse_append, List.append_assoc]⟩
  | group index body bodyRead =>
      obtain ⟨inner, before, rfl⟩ := reached
      obtain ⟨read, split, past⟩ := bodyRead before
      exact ⟨read, split, past⟩
  | notAhead body _ =>
      obtain ⟨-, rfl⟩ := reached
      exact ⟨[], rfl, rfl⟩
  | textStart | textEnd | lineStart | lineEnd | wordBoundary | notBehind =>
      obtain ⟨-, rfl⟩ := reached
      exact ⟨[], rfl, rfl⟩

/-- A loop over a class reads characters of the class. -/
theorem star_chr_reaches {accepts : Char → Bool} {greedy : Bool} {start stop : Cursor}
    (reached : (star greedy (chr accepts)).Reaches start stop) :
    ∃ read, start.rest = read ++ stop.rest ∧ ∀ c ∈ read, accepts c = true := by
  induction reached with
  | refl => exact ⟨[], rfl, by simp⟩
  | tail _ step inductionHypothesis =>
      obtain ⟨read, split, all⟩ := inductionHypothesis
      obtain ⟨⟨c, rest, here, accepted, rfl⟩, -⟩ := step
      refine ⟨read ++ [c], by rw [split, here, List.append_assoc]; rfl, ?_⟩
      intro d member
      rcases List.mem_append.mp member with before | last
      · exact all d before
      · rw [List.mem_singleton.mp last]
        exact accepted

/-- And any number of them. -/
theorem reaches_star_chr {accepts : Char → Bool} {greedy : Bool} {past read rest : Text}
    {groups : List (Nat × Text)} (all : ∀ c ∈ read, accepts c = true) :
    (star greedy (chr accepts)).Reaches ⟨past, read ++ rest, groups⟩
      ⟨read.reverse ++ past, rest, groups⟩ := by
  induction read generalizing past with
  | nil => exact .refl
  | cons c read inductionHypothesis =>
      have later := @inductionHypothesis (c :: past) fun d member =>
        all d (List.mem_cons_of_mem _ member)
      have here : (chr accepts).Reaches ⟨past, c :: (read ++ rest), groups⟩
          ⟨c :: past, read ++ rest, groups⟩ := ⟨c, _, rfl, all c List.mem_cons_self, rfl⟩
      rw [List.reverse_cons, List.append_assoc]
      exact .head ⟨here, Nat.lt_succ_self _⟩ later

end Pattern

end LibarenaRs.Regex
