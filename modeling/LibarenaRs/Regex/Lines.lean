import Mathlib.Data.List.Forall2
import LibarenaRs.Regex.Scanning

/-!
# Patterns that stay in a line

A pattern that never reads a newline sees a text as a list of lines: whether
and how it matches at a place depends on that line only, so scanning the text
is scanning the lines one by one.
-/

namespace LibarenaRs.Regex

/-- `'\n'.join(lines)` -/
def joinLines : List Text → Text
  | [] => []
  | [line] => line
  | line :: others => line ++ '\n' :: joinLines others

@[simp]
theorem joinLines_nil : joinLines [] = [] := rfl

@[simp]
theorem joinLines_singleton (line : Text) : joinLines [line] = line := rfl

theorem joinLines_cons_cons (line other : Text) (others : List Text) :
    joinLines (line :: other :: others) = line ++ '\n' :: joinLines (other :: others) := rfl

/-- `text.split('\n')` -/
def splitLines : Text → List Text
  | [] => [[]]
  | c :: text =>
      if c = '\n' then [] :: splitLines text
      else
        match splitLines text with
        | [] => [[c]]
        | line :: others => (c :: line) :: others

theorem splitLines_ne_nil (text : Text) : splitLines text ≠ [] := by
  cases text with
  | nil => simp [splitLines]
  | cons c text =>
      simp only [splitLines]
      split
      · simp
      · split <;> simp

theorem splitLines_append_newline {line : Text} (inLine : '\n' ∉ line) (rest : Text) :
    splitLines (line ++ '\n' :: rest) = line :: splitLines rest := by
  induction line with
  | nil => simp [splitLines]
  | cons c line inductionHypothesis =>
      have different : c ≠ '\n' := fun equality => inLine (by simp [equality])
      have tail := inductionHypothesis fun membership => inLine (List.mem_cons_of_mem _ membership)
      simp only [List.cons_append, splitLines, if_neg different, tail]

theorem splitLines_line {line : Text} (inLine : '\n' ∉ line) : splitLines line = [line] := by
  induction line with
  | nil => rfl
  | cons c line inductionHypothesis =>
      have different : c ≠ '\n' := fun equality => inLine (by simp [equality])
      have tail := inductionHypothesis fun membership => inLine (List.mem_cons_of_mem _ membership)
      simp only [splitLines, if_neg different, tail]

/-- Splitting what was joined gives the lines back. -/
theorem splitLines_joinLines {lines : List Text} (nonempty : lines ≠ [])
    (inLines : ∀ line ∈ lines, '\n' ∉ line) : splitLines (joinLines lines) = lines := by
  induction lines with
  | nil => exact absurd rfl nonempty
  | cons line others inductionHypothesis =>
      have first := inLines line (by simp)
      cases others with
      | nil => exact splitLines_line first
      | cons other others =>
          rw [joinLines_cons_cons, splitLines_append_newline first,
            inductionHypothesis (by simp)
              fun line membership => inLines line (List.mem_cons_of_mem _ membership)]

theorem joinLines_splitLines (text : Text) : joinLines (splitLines text) = text := by
  induction text with
  | nil => rfl
  | cons c text inductionHypothesis =>
      cases shape : splitLines text with
      | nil => exact absurd shape (splitLines_ne_nil text)
      | cons line others =>
          rw [shape] at inductionHypothesis
          by_cases newline : c = '\n'
          · rw [splitLines, if_pos newline, shape, joinLines_cons_cons, inductionHypothesis, newline]
            rfl
          · rw [splitLines, if_neg newline, shape]
            cases others with
            | nil => rw [← inductionHypothesis]; rfl
            | cons other others => rw [← inductionHypothesis]; rfl

theorem oneLine_of_mem_splitLines {text line : Text} (member : line ∈ splitLines text) :
    '\n' ∉ line := by
  induction text generalizing line with
  | nil =>
      rw [List.mem_singleton.mp member]
      simp
  | cons c text inductionHypothesis =>
      by_cases newline : c = '\n'
      · rw [splitLines, if_pos newline] at member
        rcases List.mem_cons.mp member with rfl | later
        · simp
        · exact inductionHypothesis later
      · rw [splitLines, if_neg newline] at member
        cases shape : splitLines text with
        | nil => exact absurd shape (splitLines_ne_nil text)
        | cons first others =>
            rw [shape] at member inductionHypothesis
            rcases List.mem_cons.mp member with rfl | later
            · have firstClean := inductionHypothesis List.mem_cons_self
              simpa using ⟨fun same => newline same.symm, firstClean⟩
            · exact inductionHypothesis (List.mem_cons_of_mem _ later)

/-- As many lines with the same text are the same lines. -/
theorem eq_of_joinLines_eq {first second : List Text} (length : first.length = second.length)
    (firstLines : ∀ line ∈ first, '\n' ∉ line) (secondLines : ∀ line ∈ second, '\n' ∉ line)
    (same : joinLines first = joinLines second) : first = second := by
  by_cases empty : first = []
  · subst empty
    exact (List.eq_nil_of_length_eq_zero length.symm).symm
  · have filled : second ≠ [] := by
      rintro rfl
      exact empty (List.eq_nil_of_length_eq_zero length)
    rw [← splitLines_joinLines empty firstLines, same, splitLines_joinLines filled secondLines]

/-- What holds of a text line by line, where each line was changed by itself. -/
theorem kept_lines_iff {Tag : Type} {tagged : List (Tag × Text)} {change : Text → Text}
    (oneLine : ∀ entry ∈ tagged, '\n' ∉ change entry.2) (kept : Tag × Text → Text → Prop) :
    (∃ lines, joinLines ((tagged.map Prod.snd).map change) = joinLines lines ∧
        (∀ line ∈ lines, '\n' ∉ line) ∧ List.Forall₂ kept tagged lines) ↔
      ∀ entry ∈ tagged, kept entry (change entry.2) := by
  have changed : ∀ line ∈ (tagged.map Prod.snd).map change, '\n' ∉ line := by
    intro line member
    rw [List.map_map, List.mem_map] at member
    obtain ⟨entry, among, rfl⟩ := member
    exact oneLine entry among
  have perLine : List.Forall₂ kept tagged ((tagged.map Prod.snd).map change) ↔
      ∀ entry ∈ tagged, kept entry (change entry.2) := by
    rw [List.map_map, List.forall₂_map_right_iff, List.forall₂_same]
    rfl
  rw [← perLine]
  constructor
  · rintro ⟨lines, same, clean, held⟩
    have lengths : ((tagged.map Prod.snd).map change).length = lines.length := by
      rw [List.length_map, List.length_map, held.length_eq]
    rwa [eq_of_joinLines_eq lengths changed clean same]
  · exact fun held => ⟨_, rfl, changed, held⟩

namespace Pattern

/-- The pattern cannot read a newline, and does not ask for the ends of the text. -/
def inLine : Pattern → Bool
  | .empty => true
  | .lit word => !word.contains '\n'
  | .chr accepts => !accepts '\n'
  | .seq first second => first.inLine && second.inLine
  | .alt first second => first.inLine && second.inLine
  | .star _ body => body.inLine
  | .group _ body => body.inLine
  | .textStart => false
  | .textEnd => false
  | .lineStart => true
  | .lineEnd => true
  | .wordBoundary => true
  | .notAhead body => body.inLine
  | .notBehind accepts => !accepts '\n'

/-- The cursor `outer` stands where `inner` stands, with more text around. -/
structure Beside (before after : Text) (inner outer : Cursor) : Prop where
  past : outer.past = inner.past ++ before
  rest : outer.rest = inner.rest ++ after
  groups : outer.groups = inner.groups

theorem Beside.move {before after : Text} {inner outer : Cursor}
    (beside : Beside before after inner outer) (read innerRest outerRest : Text)
    (rests : outerRest = innerRest ++ after) :
    Beside before after (inner.move read innerRest) (outer.move read outerRest) :=
  ⟨by simp [Cursor.move, beside.past], rests, beside.groups⟩

theorem Beside.close {before after : Text} {inner outer : Cursor}
    (beside : Beside before after inner outer) (index : Nat) {innerStart outerStart : Text}
    (starts : outerStart = innerStart ++ after)
    (progress : inner.rest.length ≤ innerStart.length) :
    Beside before after (inner.close index innerStart) (outer.close index outerStart) := by
  refine ⟨beside.past, beside.rest, ?_⟩
  have length : outerStart.length - outer.rest.length =
      innerStart.length - inner.rest.length := by
    rw [starts, beside.rest, List.length_append, List.length_append]
    omega
  simp only [Cursor.close, beside.groups]
  rw [length, starts, List.take_append_of_le_length (Nat.sub_le _ _)]

theorem headIs_append {accepts : Char → Bool} {text boundary : Text}
    (rejects : headIs accepts boundary = false) :
    headIs accepts (text ++ boundary) = headIs accepts text := by
  cases text with
  | nil => exact rejects
  | cons c text => rfl

theorem headIs_of_atLineStart {accepts : Char → Bool} {boundary : Text}
    (atBoundary : atLineStart boundary = true) (rejects : accepts '\n' = false) :
    headIs accepts boundary = false := by
  cases boundary with
  | nil => rfl
  | cons c boundary =>
      have newline : c = '\n' := by simpa [atLineStart, headIs] using atBoundary
      simp [headIs, newline, rejects]

theorem headIs_of_atLineEnd {accepts : Char → Bool} {boundary : Text}
    (atBoundary : atLineEnd boundary = true) (rejects : accepts '\n' = false) :
    headIs accepts boundary = false :=
  headIs_of_atLineStart atBoundary rejects

theorem atLineStart_append {past boundary : Text} (atBoundary : atLineStart boundary = true) :
    atLineStart (past ++ boundary) = atLineStart past := by
  cases past with
  | nil => exact atBoundary
  | cons c past => rfl

/-- More fuel than text does not change a repetition. -/
theorem repeatBody_fuel {Answer : Type} (body : Pattern) (greedy : Bool)
    (next : Cursor → Option Answer) {fuel : Nat} {cursor : Cursor}
    (enough : cursor.rest.length ≤ fuel) :
    repeatBody body.run greedy next (fuel + 1) cursor =
      repeatBody body.run greedy next fuel cursor := by
  induction fuel generalizing cursor with
  | zero =>
      have stuck : body.run (fun after =>
          if after.rest.length < cursor.rest.length then
            repeatBody body.run greedy next 0 after
          else none) cursor = none := by
        rw [run_eq_none_iff]
        intro stop _
        exact if_neg (by omega)
      simp only [repeatBody] at stuck ⊢
      rw [stuck]
      cases greedy <;> simp
  | succ fuel inductionHypothesis =>
      have same : (fun after : Cursor =>
          if after.rest.length < cursor.rest.length then
            repeatBody body.run greedy next (fuel + 1) after
          else none) = fun after : Cursor =>
          if after.rest.length < cursor.rest.length then
            repeatBody body.run greedy next fuel after
          else none := by
        funext after
        by_cases progress : after.rest.length < cursor.rest.length
        · rw [if_pos progress, if_pos progress]
          exact inductionHypothesis (by omega)
        · rw [if_neg progress, if_neg progress]
      rw [repeatBody, repeatBody, same]

/-- Whether a pattern matches does not depend on what is kept of the match. -/
theorem isSome_run_some (body : Pattern) (cursor : Cursor) :
    (body.run some cursor).isSome = (body.run (fun _ => some ()) cursor).isSome := by
  have fails : body.run some cursor = none ↔ body.run (fun _ => some ()) cursor = none := by
    rw [run_eq_none_iff, run_eq_none_iff]
    simp
  cases first : body.run some cursor with
  | none => rw [fails.mp first]; rfl
  | some stop =>
      cases second : body.run (fun _ => some ()) cursor with
      | none => rw [fails.mpr second] at first; cases first
      | some _ => rfl

/-- In a line, a pattern that stays in lines does not see the text around. -/
theorem run_local {pattern : Pattern} (stays : pattern.inLine = true) {before after : Text}
    (startsLine : atLineStart before = true) (endsLine : atLineEnd after = true)
    {Answer : Type} {inner outer : Cursor} {nextInner nextOuter : Cursor → Option Answer}
    (beside : Beside before after inner outer)
    (agree : ∀ innerStop outerStop, Beside before after innerStop outerStop →
      innerStop.rest.length ≤ inner.rest.length →
      nextOuter outerStop = nextInner innerStop) :
    pattern.run nextOuter outer = pattern.run nextInner inner := by
  induction pattern generalizing Answer inner outer with
  | empty => exact agree inner outer beside (Nat.le_refl _)
  | lit word =>
      by_cases present : word <+: inner.rest
      · obtain ⟨rest, split⟩ := present
        obtain ⟨innerPast, innerText, innerGroups⟩ := inner
        obtain ⟨outerPast, outerText, outerGroups⟩ := outer
        simp only at split
        subst split
        have outerSplit : outerText = word ++ (rest ++ after) := by
          rw [← List.append_assoc]
          exact beside.rest
        rw [outerSplit, run_lit_append, run_lit_append]
        exact agree _ _ (beside.move word rest (rest ++ after) rfl) (by simp)
      · have outerAbsent : ¬word <+: outer.rest := by
          rw [beside.rest]
          rintro ⟨rest, split⟩
          rcases List.append_eq_append_iff.mp split with
            ⟨middle, innerSplit, -⟩ | ⟨middle, wordSplit, afterSplit⟩
          · exact present ⟨middle, innerSplit.symm⟩
          · cases middle with
            | nil => exact present ⟨[], by simpa using wordSplit⟩
            | cons c middle =>
                have newline : c = '\n' := by
                  rw [afterSplit] at endsLine
                  simpa [atLineEnd, headIs] using endsLine
                have member : '\n' ∈ word := by simp [wordSplit, newline]
                simp [inLine, member] at stays
        rw [run_lit_absent _ present, run_lit_absent _ outerAbsent]
  | chr accepts =>
      obtain ⟨innerPast, innerText, innerGroups⟩ := inner
      obtain ⟨outerPast, outerText, outerGroups⟩ := outer
      have rejects : accepts '\n' = false := by simpa [inLine] using stays
      have outerSplit : outerText = innerText ++ after := beside.rest
      cases innerText with
      | nil =>
          rw [outerSplit, List.nil_append, run_chr_nil]
          cases after with
          | nil => rfl
          | cons c rest =>
              have newline : c = '\n' := by simpa [atLineEnd, headIs] using endsLine
              simp [newline, rejects]
      | cons c innerText =>
          subst outerSplit
          simp only [List.cons_append, run_chr_cons]
          by_cases accepted : accepts c = true
          · rw [if_pos accepted, if_pos accepted]
            exact agree _ _ (beside.move [c] innerText (innerText ++ after) rfl) (by simp)
          · rw [if_neg accepted, if_neg accepted]
  | seq first second firstLocal secondLocal =>
      simp only [inLine, Bool.and_eq_true] at stays
      refine firstLocal stays.1 beside fun innerMiddle outerMiddle middle progress => ?_
      exact secondLocal stays.2 middle fun innerStop outerStop stop more =>
        agree innerStop outerStop stop (by omega)
  | alt first second firstLocal secondLocal =>
      simp only [inLine, Bool.and_eq_true] at stays
      rw [run_alt, run_alt, firstLocal stays.1 beside agree, secondLocal stays.2 beside agree]
  | star greedy body bodyLocal =>
      have loop : ∀ fuel innerStart outerStart, Beside before after innerStart outerStart →
          innerStart.rest.length ≤ inner.rest.length → innerStart.rest.length ≤ fuel →
          repeatBody body.run greedy nextOuter (fuel + after.length + 1) outerStart =
            repeatBody body.run greedy nextInner (fuel + 1) innerStart := by
        intro fuel
        induction fuel with
        | zero =>
            intro innerStart outerStart start bound enough
            have again : body.run (fun stop =>
                if stop.rest.length < outerStart.rest.length then
                  repeatBody body.run greedy nextOuter (0 + after.length) stop
                else none) outerStart = body.run (fun stop =>
                if stop.rest.length < innerStart.rest.length then
                  repeatBody body.run greedy nextInner 0 stop
                else none) innerStart := by
              refine bodyLocal stays start fun innerStop outerStop stop progress => ?_
              have noInner : ¬innerStop.rest.length < innerStart.rest.length := by omega
              have noOuter : ¬outerStop.rest.length < outerStart.rest.length := by
                rw [stop.rest, start.rest, List.length_append, List.length_append]
                omega
              rw [if_neg noOuter, if_neg noInner]
            rw [repeatBody, repeatBody, again, agree innerStart outerStart start bound]
        | succ fuel inductionHypothesis =>
            intro innerStart outerStart start bound enough
            have again : body.run (fun stop =>
                if stop.rest.length < outerStart.rest.length then
                  repeatBody body.run greedy nextOuter (fuel + after.length + 1) stop
                else none) outerStart = body.run (fun stop =>
                if stop.rest.length < innerStart.rest.length then
                  repeatBody body.run greedy nextInner (fuel + 1) stop
                else none) innerStart := by
              refine bodyLocal stays start fun innerStop outerStop stop progress => ?_
              have lengths : outerStop.rest.length < outerStart.rest.length ↔
                  innerStop.rest.length < innerStart.rest.length := by
                rw [stop.rest, start.rest, List.length_append, List.length_append]
                omega
              by_cases shorter : innerStop.rest.length < innerStart.rest.length
              · rw [if_pos shorter, if_pos (lengths.mpr shorter)]
                exact inductionHypothesis innerStop outerStop stop (by omega) (by omega)
              · rw [if_neg shorter, if_neg (by rw [lengths]; exact shorter)]
            rw [Nat.add_right_comm fuel 1, repeatBody, repeatBody, again,
              agree innerStart outerStart start bound]
      have total : outer.rest.length = inner.rest.length + after.length := by
        rw [beside.rest, List.length_append]
      change repeatBody body.run greedy nextOuter outer.rest.length outer =
        repeatBody body.run greedy nextInner inner.rest.length inner
      rw [← repeatBody_fuel body greedy nextOuter (Nat.le_refl _),
        ← repeatBody_fuel body greedy nextInner (Nat.le_refl _), total]
      exact loop _ inner outer beside (Nat.le_refl _) (Nat.le_refl _)
  | group index body bodyLocal =>
      refine bodyLocal stays beside fun innerStop outerStop stop progress => ?_
      exact agree _ _ (stop.close index beside.rest progress) progress
  | textStart => cases stays
  | textEnd => cases stays
  | lineStart =>
      rw [run_lineStart, run_lineStart, beside.past, atLineStart_append startsLine,
        agree inner outer beside (Nat.le_refl _)]
  | lineEnd =>
      have same : atLineEnd outer.rest = atLineEnd inner.rest := by
        rw [beside.rest]
        exact @atLineStart_append inner.rest after endsLine
      rw [run_lineEnd, run_lineEnd, same, agree inner outer beside (Nat.le_refl _)]
  | wordBoundary =>
      rw [run_wordBoundary, run_wordBoundary, beside.past, beside.rest,
        headIs_append (headIs_of_atLineStart startsLine (by decide)),
        headIs_append (headIs_of_atLineEnd endsLine (by decide)),
        agree inner outer beside (Nat.le_refl _)]
  | notAhead body bodyLocal =>
      have same : (body.run some outer).isSome = (body.run some inner).isSome := by
        rw [isSome_run_some, isSome_run_some, bodyLocal stays beside fun _ _ _ _ => rfl]
      rw [run_notAhead, run_notAhead, same, agree inner outer beside (Nat.le_refl _)]
  | notBehind accepts =>
      have rejects : accepts '\n' = false := by simpa [inLine] using stays
      rw [run_notBehind, run_notBehind, beside.past,
        headIs_append (headIs_of_atLineStart startsLine rejects),
        agree inner outer beside (Nat.le_refl _)]

theorem matchAt_local {pattern : Pattern} (stays : pattern.inLine = true)
    (before after : Text) (startsLine : atLineStart before = true)
    (endsLine : atLineEnd after = true) (past rest : Text) :
    pattern.matchAt (past ++ before) (rest ++ after) = pattern.matchAt past rest := by
  refine run_local stays startsLine endsLine ⟨rfl, rfl, rfl⟩
    fun innerStop outerStop stop progress => ?_
  simp only at progress
  have lengths : (rest ++ after).length - outerStop.rest.length =
      rest.length - innerStop.rest.length := by
    rw [stop.rest, List.length_append, List.length_append]
    omega
  have shorter : outerStop.rest.length < (rest ++ after).length ↔
      innerStop.rest.length < rest.length := by
    rw [stop.rest, List.length_append, List.length_append]
    omega
  rw [lengths, List.take_append_of_le_length (Nat.sub_le _ _), stop.groups]
  simp only [shorter]

theorem scan_local {pattern : Pattern} (stays : pattern.inLine = true)
    (before after : Text) (startsLine : atLineStart before = true)
    (endsLine : atLineEnd after = true) (past rest : Text) {skip : Nat}
    (bound : skip ≤ rest.length) :
    pattern.scan (past ++ before) (rest ++ after) skip =
      pattern.scan past rest skip ++
        pattern.scan (rest.reverse ++ past ++ before) after 0 := by
  induction rest generalizing past skip with
  | nil =>
      obtain rfl : skip = 0 := by simpa using bound
      rfl
  | cons c rest inductionHypothesis =>
      have tail : ∀ count ≤ rest.length,
          pattern.scan (c :: (past ++ before)) (rest ++ after) count =
            pattern.scan (c :: past) rest count ++
              pattern.scan ((c :: rest).reverse ++ past ++ before) after 0 := by
        intro count countBound
        simpa using inductionHypothesis (c :: past) countBound
      cases skip with
      | succ skip => exact tail skip (by simpa using bound)
      | zero =>
          have here := matchAt_local stays before after startsLine endsLine past (c :: rest)
          simp only [List.cons_append] at here
          simp only [List.cons_append, scan, here]
          cases found : pattern.matchAt past (c :: rest) with
          | none => simp only [List.cons_append, tail 0 (Nat.zero_le _)]
          | some m =>
              obtain ⟨stop, -, split, -, -⟩ := matchAt_eq_some found
              have lengths := congrArg List.length split
              simp only [List.length_cons, List.length_append] at lengths
              simp only [List.cons_append, tail (m.text.length - 1) (by omega)]

/-- At a line start the past does not matter. -/
theorem scan_of_atLineStart {pattern : Pattern} (stays : pattern.inLine = true)
    {before : Text} (startsLine : atLineStart before = true) (text : Text) :
    pattern.scan before text 0 = pattern.scan [] text 0 := by
  have local_ := scan_local stays before [] startsLine rfl [] text (Nat.zero_le _)
  simpa [scan] using local_

theorem scan_line {pattern : Pattern} (stays : pattern.inLine = true) (line rest : Text) :
    pattern.scan [] (line ++ '\n' :: rest) 0 =
      pattern.scan [] line 0 ++ .plain '\n' :: pattern.scan [] rest 0 := by
  have first := scan_local stays [] ('\n' :: rest) rfl (by rfl) [] line (Nat.zero_le _)
  have newline : pattern.matchAt (line.reverse ++ []) ('\n' :: rest) = none := by
    have atEnd := matchAt_local stays [] ('\n' :: rest) rfl (by rfl) line.reverse []
    rw [List.nil_append] at atEnd
    rw [atEnd, matchAt_nil]
  simp only [List.append_nil] at first newline
  rw [first]
  simp only [scan, newline]
  rw [scan_of_atLineStart stays (show atLineStart ('\n' :: line.reverse) = true from rfl)]

theorem findIter_joinLines {pattern : Pattern} (stays : pattern.inLine = true)
    (lines : List Text) :
    pattern.findIter (joinLines lines) = lines.flatMap pattern.findIter := by
  induction lines with
  | nil => rfl
  | cons line others inductionHypothesis =>
      cases others with
      | nil => simp
      | cons other others =>
          rw [joinLines_cons_cons, List.flatMap_cons, ← inductionHypothesis, findIter,
            scan_line stays, List.filterMap_append]
          rfl

theorem sub_joinLines {pattern : Pattern} (stays : pattern.inLine = true)
    (replace : Match → Text) (lines : List Text) :
    pattern.sub replace (joinLines lines) = joinLines (lines.map (pattern.sub replace)) := by
  induction lines with
  | nil => rfl
  | cons line others inductionHypothesis =>
      cases others with
      | nil => rfl
      | cons other others =>
          rw [joinLines_cons_cons, List.map_cons, List.map_cons, joinLines_cons_cons,
            ← List.map_cons, ← inductionHypothesis, sub, scan_line stays, List.flatMap_append]
          rfl

/-- A pattern that starts at a line start finds at most one match in a line. -/
theorem scan_anchored {pattern : Pattern} {line : Text} (inOneLine : '\n' ∉ line)
    (anchored : ∀ past rest, atLineStart past = false → pattern.matchAt past rest = none) :
    pattern.scan [] line 0 =
      match pattern.matchAt [] line with
      | some m => .hit m :: (line.drop m.text.length).map .plain
      | none => line.map .plain := by
  have silent : ∀ past rest, atLineStart past = false → '\n' ∉ rest →
      pattern.scan past rest 0 = rest.map .plain := by
    intro past rest midLine inRest
    have copied : pattern.scan past (rest ++ []) 0 =
        rest.map .plain ++ pattern.scan (rest.reverse ++ past) [] 0 :=
      scan_plain fun start c stop split => anchored _ _ (by
        cases reversed : start.reverse with
        | nil => exact midLine
        | cons d others =>
            have member : d ∈ rest := by
              rw [split]
              exact List.mem_append_left _ (List.mem_reverse.mp (by simp [reversed]))
            have different : d ≠ '\n' := fun equality => inRest (equality ▸ member)
            simp [atLineStart, headIs, different])
    simpa [scan] using copied
  cases line with
  | nil => rw [matchAt_nil]; rfl
  | cons c rest =>
      have different : c ≠ '\n' := fun equality => inOneLine (by simp [equality])
      have inRest : '\n' ∉ rest := fun membership => inOneLine (List.mem_cons_of_mem _ membership)
      cases found : pattern.matchAt [] (c :: rest) with
      | none =>
          simp only [scan, found, List.map_cons]
          rw [silent [c] rest (by simp [atLineStart, headIs, different]) inRest]
      | some m =>
          obtain ⟨stop, -, split, nonempty, -⟩ := matchAt_eq_some found
          rw [split] at found ⊢
          rw [scan_hit nonempty found]
          simp only [List.drop_left]
          congr 1
          apply silent
          · cases reversed : m.text.reverse with
            | nil => exact absurd (List.reverse_eq_nil_iff.mp reversed) nonempty
            | cons d others =>
                have member : d ∈ c :: rest := by
                  rw [split]
                  exact List.mem_append_left _ (List.mem_reverse.mp (by simp [reversed]))
                have newline : d ≠ '\n' := fun equality => inOneLine (equality ▸ member)
                simp [atLineStart, headIs, newline]
          · intro membership
            exact inOneLine (by rw [split]; exact List.mem_append_right _ membership)

theorem matchAt_seq_lineStart {body : Pattern} {past rest : Text}
    (midLine : atLineStart past = false) : (seq lineStart body).matchAt past rest = none := by
  simp [matchAt, midLine]

end Pattern

end LibarenaRs.Regex
