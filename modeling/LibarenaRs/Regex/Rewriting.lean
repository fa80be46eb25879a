import LibarenaRs.Regex.Anchored

/-!
# Rewriting seen through the lines

A substitution is a chain of single replacements, from the last match to the
first one, so that what is in front of a replacement is still the old text.
What a reader takes from the lines of a text changes only where one of these
replacements is seen.
-/

namespace LibarenaRs.Regex

/-! ## Chains of replacements -/

/-- What the pieces become when each hit is replaced by a word allowed for it. -/
inductive Renders (allowed : Match → Text → Prop) : List Piece → Text → Prop
  | nil : Renders allowed [] []
  | plain {c : Char} {pieces : List Piece} {out : Text} :
      Renders allowed pieces out → Renders allowed (.plain c :: pieces) (c :: out)
  | hit {m : Match} {pieces : List Piece} {word out : Text} :
      allowed m word → Renders allowed pieces out → Renders allowed (.hit m :: pieces) (word ++ out)

theorem renders_render (replace : Match → Text) (pieces : List Piece) :
    Renders (fun m word => word = replace m) pieces (pieces.flatMap (Piece.render replace)) := by
  induction pieces with
  | nil => exact .nil
  | cons piece pieces inductionHypothesis =>
      cases piece with
      | plain c => exact .plain inductionHypothesis
      | hit m => exact .hit rfl inductionHypothesis

theorem renders_renderFirst (replace : Match → Text) (pieces : List Piece) :
    Renders (fun m word => word = replace m ∨ word = m.text) pieces (renderFirst replace pieces) := by
  have copied : ∀ pieces, Renders (fun m word => word = replace m ∨ word = m.text) pieces
      (pieces.flatMap (Piece.render Match.text)) := by
    intro pieces
    induction pieces with
    | nil => exact .nil
    | cons piece pieces inductionHypothesis =>
        cases piece with
        | plain c => exact .plain inductionHypothesis
        | hit m => exact .hit (Or.inr rfl) inductionHypothesis
  induction pieces with
  | nil => exact .nil
  | cons piece pieces inductionHypothesis =>
      cases piece with
      | plain c => exact .plain inductionHypothesis
      | hit m => exact .hit (Or.inl rfl) (copied pieces)

namespace Pattern

/-- A scan goes from character to character, and from behind a match on. -/
theorem scan_induction {pattern : Pattern} {motive : Text → Text → List Piece → Prop}
    (nil : ∀ past, motive past [] [])
    (plain : ∀ past c rest, pattern.matchAt past (c :: rest) = none →
      motive (c :: past) rest (pattern.scan (c :: past) rest 0) →
      motive past (c :: rest) (.plain c :: pattern.scan (c :: past) rest 0))
    (hit : ∀ past m rest, pattern.matchAt past (m.text ++ rest) = some m →
      motive (m.text.reverse ++ past) rest (pattern.scan (m.text.reverse ++ past) rest 0) →
      motive past (m.text ++ rest) (.hit m :: pattern.scan (m.text.reverse ++ past) rest 0))
    (past text : Text) : motive past text (pattern.scan past text 0) := by
  induction length : text.length using Nat.strongRecOn generalizing past text with
  | ind bound inductionHypothesis =>
      cases text with
      | nil => exact nil past
      | cons c rest =>
          cases found : pattern.matchAt past (c :: rest) with
          | none =>
              have pieces : pattern.scan past (c :: rest) 0 =
                  .plain c :: pattern.scan (c :: past) rest 0 := by
                simp only [scan, found]
              rw [pieces]
              apply plain _ _ _ found
              apply inductionHypothesis rest.length _ _ _ rfl
              rw [← length]
              exact Nat.lt_succ_self _
          | some m =>
              obtain ⟨stop, -, whole, filled, -⟩ := matchAt_eq_some found
              rw [whole] at found length ⊢
              rw [scan_hit filled found]
              apply hit _ _ _ found
              apply inductionHypothesis stop.rest.length _ _ _ rfl
              have positive := List.length_pos_of_ne_nil filled
              rw [← length, List.length_append]
              omega

section Chain

variable {pattern : Pattern} {text : Text}

/-- What every single replacement respects, all of them do. -/
theorem related_of_renders {allowed : Match → Text → Prop} {rel : Text → Text → Prop}
    (refl : ∀ text, rel text text)
    (trans : ∀ {first second third}, rel first second → rel second third → rel first third)
    (step : ∀ past m rest word back, text = past.reverse ++ (m.text ++ rest) →
      pattern.matchAt past (m.text ++ rest) = some m → allowed m word →
      rel (past.reverse ++ (word ++ back)) (past.reverse ++ (m.text ++ back)))
    {out : Text} (rendered : Renders allowed (pattern.scan [] text 0) out) : rel out text := by
  have general := @scan_induction pattern
    (fun past rest pieces => text = past.reverse ++ rest → ∀ out, Renders allowed pieces out →
      rel (past.reverse ++ out) (past.reverse ++ rest))
    (by
      rintro past - out ⟨⟩
      exact refl _)
    (by
      intro past c rest _ inductionHypothesis split out rendered
      cases rendered with
      | plain later =>
          have onward := inductionHypothesis (by rw [split]; simp) _ later
          simpa using onward)
    (by
      intro past m rest found inductionHypothesis split out rendered
      cases rendered with
      | @hit _ _ word out isAllowed later =>
          have onward := inductionHypothesis (by rw [split]; simp) _ later
          rw [List.reverse_append, List.reverse_reverse, List.append_assoc,
            List.append_assoc] at onward
          exact trans (step past m rest word out split found isAllowed) onward)
    [] text
  exact general rfl out rendered

theorem related_of_sub {replace : Match → Text} {rel : Text → Text → Prop}
    (refl : ∀ text, rel text text)
    (trans : ∀ {first second third}, rel first second → rel second third → rel first third)
    (step : ∀ past m rest back, text = past.reverse ++ (m.text ++ rest) →
      pattern.matchAt past (m.text ++ rest) = some m →
      rel (past.reverse ++ (replace m ++ back)) (past.reverse ++ (m.text ++ back))) :
    rel (pattern.sub replace text) text := by
  apply related_of_renders refl trans _ (renders_render replace _)
  rintro past m rest word back split found rfl
  exact step past m rest back split found

/-- Reading less after each replacement, one reads as much at the end exactly if one
does after every one of them. -/
theorem sublist_of_sub {Token : Type} {replace : Match → Text} {read : Text → List Token}
    {keeps : Match → Prop}
    (step : ∀ past m rest back, pattern.matchAt past (m.text ++ rest) = some m →
      (read (past.reverse ++ (replace m ++ back))).Sublist
        (read (past.reverse ++ (m.text ++ back))) ∧
      (read (past.reverse ++ (replace m ++ back)) = read (past.reverse ++ (m.text ++ back)) ↔
        keeps m)) :
    (read (pattern.sub replace text)).Sublist (read text) ∧
      (read (pattern.sub replace text) = read text ↔ ∀ m ∈ pattern.findIter text, keeps m) := by
  have general := @scan_induction pattern
    (fun past rest pieces =>
      (read (past.reverse ++ pieces.flatMap (Piece.render replace))).Sublist
        (read (past.reverse ++ rest)) ∧
      (read (past.reverse ++ pieces.flatMap (Piece.render replace)) = read (past.reverse ++ rest) ↔
        ∀ m ∈ pieces.filterMap Piece.hit?, keeps m))
    (by
      intro past
      exact ⟨List.Sublist.refl _, by simp⟩)
    (by
      intro past c rest _ inductionHypothesis
      simpa [Piece.render, Piece.hit?] using inductionHypothesis)
    (by
      rintro past m rest found ⟨less, same⟩
      obtain ⟨here, kept⟩ := step past m rest
        ((pattern.scan (m.text.reverse ++ past) rest 0).flatMap (Piece.render replace)) found
      rw [List.reverse_append, List.reverse_reverse, List.append_assoc, List.append_assoc] at less same
      have hits : ∀ pieces, (Piece.hit m :: pieces).filterMap Piece.hit? =
          m :: pieces.filterMap Piece.hit? := fun _ => rfl
      rw [List.flatMap_cons, hits, List.forall_mem_cons, ← same, ← kept]
      refine ⟨here.trans less, fun whole => ?_, fun both => both.1.trans both.2⟩
      have first := here.antisymm (whole ▸ less)
      exact ⟨first, first ▸ whole⟩)
    [] text
  exact general

end Chain

/-! ## What a path keeps -/

/-- The pattern has no group. -/
def groupless : Pattern → Bool
  | .seq first second => first.groupless && second.groupless
  | .alt first second => first.groupless && second.groupless
  | .star _ body => body.groupless
  | .group _ _ => false
  | _ => true

theorem Reaches.groups {pattern : Pattern} (plain : pattern.groupless = true)
    {start stop : Cursor} (reached : pattern.Reaches start stop) : stop.groups = start.groups := by
  induction pattern generalizing start stop with
  | seq first second firstKeeps secondKeeps =>
      rw [groupless, Bool.and_eq_true] at plain
      obtain ⟨middle, before, after⟩ := reached
      rw [secondKeeps plain.2 after, firstKeeps plain.1 before]
  | alt first second firstKeeps secondKeeps =>
      rw [groupless, Bool.and_eq_true] at plain
      rcases reached with before | after
      · exact firstKeeps plain.1 before
      · exact secondKeeps plain.2 after
  | star greedy body bodyKeeps =>
      induction reached with
      | refl => rfl
      | tail _ step inductionHypothesis => rw [bodyKeeps plain step.1, inductionHypothesis]
  | group index body => cases plain
  | lit word =>
      obtain ⟨rest, -, rfl⟩ := reached
      rfl
  | chr accepts =>
      obtain ⟨c, rest, -, -, rfl⟩ := reached
      rfl
  | empty =>
      obtain rfl := reached
      rfl
  | textStart | textEnd | lineStart | lineEnd | wordBoundary | notAhead | notBehind =>
      obtain ⟨-, rfl⟩ := reached
      rfl

/-- What is read inside of a group is noted. -/
theorem Reaches.group {index : Nat} {body : Pattern} (plain : body.groupless = true)
    {start stop : Cursor} (reached : (group index body).Reaches start stop) :
    ∃ inner, body.Reaches start inner ∧ stop.rest = inner.rest ∧ ∃ read,
      start.rest = read ++ stop.rest ∧ stop.groups = (index, read) :: start.groups := by
  obtain ⟨inner, reached, rfl⟩ := reached
  obtain ⟨read, split, -⟩ := reached.read
  refine ⟨inner, reached, rfl, read, split, ?_⟩
  rw [Cursor.close, reached.groups plain, split, List.length_append, Nat.add_sub_cancel,
    List.take_left]

theorem Reaches.group_avoids {index : Nat} {body : Pattern} {d : Char}
    (plain : body.groupless = true) (avoided : body.avoids d = true) {start stop : Cursor}
    (reached : (Pattern.group index body).Reaches start stop) :
    ∃ read, start.rest = read ++ stop.rest ∧ stop.groups = (index, read) :: start.groups ∧
      d ∉ read := by
  obtain ⟨-, -, -, read, split, noted⟩ := reached.group plain
  obtain ⟨other, same, clean⟩ := @Reaches.read_avoids (.group index body) d avoided _ _ reached
  rw [split] at same
  exact ⟨read, split, noted, (List.append_left_inj stop.rest).mp same ▸ clean⟩

/-- A group holds text that was read. -/
theorem Reaches.groups_subset {pattern : Pattern} {start stop : Cursor}
    (reached : pattern.Reaches start stop) :
    ∀ entry ∈ stop.groups, entry ∈ start.groups ∨ entry.2 ⊆ start.rest := by
  induction pattern generalizing start stop with
  | seq first second firstNotes secondNotes =>
      obtain ⟨middle, before, after⟩ := reached
      obtain ⟨read, split, -⟩ := before.read
      intro entry member
      rcases secondNotes after entry member with earlier | inside
      · exact firstNotes before entry earlier
      · exact Or.inr fun c found => by rw [split]; exact List.mem_append_right _ (inside found)
  | alt first second firstNotes secondNotes =>
      rcases reached with before | after
      · exact firstNotes before
      · exact secondNotes after
  | star greedy body bodyNotes =>
      induction reached with
      | refl => exact fun entry member => Or.inl member
      | @tail middle last path step inductionHypothesis =>
          obtain ⟨read, split, -⟩ := @Reaches.read (.star greedy body) _ _ path
          intro entry member
          rcases bodyNotes step.1 entry member with earlier | inside
          · exact inductionHypothesis entry earlier
          · exact Or.inr fun c found => by rw [split]; exact List.mem_append_right _ (inside found)
  | group index body bodyNotes =>
      obtain ⟨inner, before, rfl⟩ := reached
      intro entry member
      rcases List.mem_cons.mp member with rfl | earlier
      · exact Or.inr (List.take_subset _ _)
      · exact bodyNotes before entry earlier
  | lit word =>
      obtain ⟨rest, -, rfl⟩ := reached
      exact fun entry member => Or.inl member
  | chr accepts =>
      obtain ⟨c, rest, -, -, rfl⟩ := reached
      exact fun entry member => Or.inl member
  | empty =>
      obtain rfl := reached
      exact fun entry member => Or.inl member
  | textStart | textEnd | lineStart | lineEnd | wordBoundary | notAhead | notBehind =>
      obtain ⟨-, rfl⟩ := reached
      exact fun entry member => Or.inl member

theorem group_subset {pattern : Pattern} {past rest : Text} {m : Match}
    (found : pattern.matchAt past rest = some m) (index : Nat) : m.group index ⊆ rest := by
  obtain ⟨stop, reached, -, -, groups⟩ := matchAt_eq_some found
  unfold Match.group
  cases shape : m.groups.lookup index with
  | none => exact List.nil_subset _
  | some value =>
      obtain ⟨before, after, split, -⟩ := List.lookup_eq_some_iff.mp shape
      rcases reached.groups_subset (index, value) (by rw [← groups, split]; simp) with none_ | inside
      · cases none_
      · exact inside

/-- A hit of a scan is a match somewhere in the text. -/
theorem matchAt_of_mem_scan {pattern : Pattern} {past text : Text} {m : Match}
    (member : Piece.hit m ∈ pattern.scan past text 0) :
    ∃ read rest, text = read ++ (m.text ++ rest) ∧
      pattern.matchAt (read.reverse ++ past) (m.text ++ rest) = some m := by
  have general := @scan_induction pattern
    (fun past text pieces => .hit m ∈ pieces → ∃ read rest, text = read ++ (m.text ++ rest) ∧
      pattern.matchAt (read.reverse ++ past) (m.text ++ rest) = some m)
    (by
      intro past member
      cases member)
    (by
      intro past c rest _ inductionHypothesis member
      rcases List.mem_cons.mp member with same | later
      · cases same
      · obtain ⟨read, left, split, found⟩ := inductionHypothesis later
        exact ⟨c :: read, left, by rw [split]; rfl, by simpa using found⟩)
    (by
      intro past hit rest found inductionHypothesis member
      rcases List.mem_cons.mp member with same | later
      · cases same
        exact ⟨[], rest, rfl, found⟩
      · obtain ⟨read, left, split, matched⟩ := inductionHypothesis later
        exact ⟨hit.text ++ read, left, by rw [split, List.append_assoc], by simpa using matched⟩)
    past text
  exact general member

theorem matchAt_of_search {pattern : Pattern} {text : Text} {m : Match}
    (found : pattern.search text = some m) :
    ∃ read rest, text = read ++ (m.text ++ rest) ∧
      pattern.matchAt read.reverse (m.text ++ rest) = some m := by
  obtain ⟨piece, member, isHit⟩ := List.mem_filterMap.mp (List.mem_of_mem_head? found)
  cases piece with
  | plain c => cases isHit
  | hit other =>
      cases isHit
      have place := matchAt_of_mem_scan member
      simpa using place

end Pattern

/-! ## Reading the lines of a text -/

section Reading

variable {Token : Type} (marks : Text → List Token)

/-- What is read from a text when `line` stands in front of it in the first line. -/
def readFrom (line : Text) : Text → List Token
  | [] => marks line
  | c :: text => if c = '\n' then marks line ++ readFrom [] text else readFrom (line ++ [c]) text

/-- What is read from the lines behind the first one. -/
def readBehind : Text → List Token
  | [] => []
  | c :: text => if c = '\n' then readFrom marks [] text else readBehind text

/-- From here on the rest of a line says no more than what is in front of it. -/
def Settles (stem : Text → List Token) (word : Text) : Prop :=
  ∀ front more, marks (front ++ (word ++ more)) = stem front

variable {marks}

theorem readFrom_eq (line text : Text) :
    readFrom marks line text =
      match splitLines text with
      | [] => []
      | first :: others => marks (line ++ first) ++ others.flatMap marks := by
  induction text generalizing line with
  | nil => simp [readFrom, splitLines]
  | cons c text inductionHypothesis =>
      cases shape : splitLines text with
      | nil => exact absurd shape (splitLines_ne_nil text)
      | cons first others =>
          by_cases newline : c = '\n'
          · simp [readFrom, splitLines, newline, inductionHypothesis, shape]
          · simp [readFrom, splitLines, newline, inductionHypothesis, shape]

theorem readFrom_nil (text : Text) : readFrom marks [] text = (splitLines text).flatMap marks := by
  rw [readFrom_eq]
  cases shape : splitLines text with
  | nil => exact absurd shape (splitLines_ne_nil text)
  | cons first others => rfl

theorem readFrom_lines (text : Text) : readFrom (fun line => [line]) [] text = splitLines text := by
  rw [readFrom_nil, List.flatMap_singleton']

theorem readFrom_joinLines {lines : List Text} (filled : lines ≠ [])
    (oneLine : ∀ line ∈ lines, '\n' ∉ line) :
    readFrom marks [] (joinLines lines) = lines.flatMap marks := by
  rw [readFrom_nil, splitLines_joinLines filled oneLine]

/-- Behind a newline the reading starts again. -/
theorem readFrom_append_newline (front line text : Text) :
    readFrom marks line (front ++ '\n' :: text) =
      readFrom marks line front ++ readFrom marks [] text := by
  induction front generalizing line with
  | nil => simp [readFrom]
  | cons c front inductionHypothesis =>
      by_cases newline : c = '\n'
      · simp only [List.cons_append, readFrom, if_pos newline, inductionHypothesis,
          List.append_assoc]
      · simp only [List.cons_append, readFrom, if_neg newline, inductionHypothesis]

theorem readFrom_line {inner : Text} (oneLine : '\n' ∉ inner) (line text : Text) :
    readFrom marks line (inner ++ text) = readFrom marks (line ++ inner) text := by
  induction inner generalizing line with
  | nil => rw [List.nil_append, List.append_nil]
  | cons c inner inductionHypothesis =>
      have different : c ≠ '\n' := fun same => oneLine (by simp [same])
      rw [List.cons_append, readFrom, if_neg different,
        inductionHypothesis fun member => oneLine (List.mem_cons_of_mem _ member), List.append_assoc]
      rfl

theorem readBehind_line {inner : Text} (oneLine : '\n' ∉ inner) (text : Text) :
    readBehind marks (inner ++ text) = readBehind marks text := by
  induction inner with
  | nil => rfl
  | cons c inner inductionHypothesis =>
      have different : c ≠ '\n' := fun same => oneLine (by simp [same])
      rw [List.cons_append, readBehind, if_neg different]
      exact inductionHypothesis fun member => oneLine (List.mem_cons_of_mem _ member)

/-- What is read alike behind every line is read alike behind every text. -/
theorem readFrom_congr {first second : Text}
    (same : ∀ line, readFrom marks line first = readFrom marks line second) (front line : Text) :
    readFrom marks line (front ++ first) = readFrom marks line (front ++ second) := by
  induction front generalizing line with
  | nil => exact same line
  | cons c front inductionHypothesis =>
      by_cases newline : c = '\n'
      · simp only [List.cons_append, readFrom, if_pos newline, inductionHypothesis]
      · simp only [List.cons_append, readFrom, if_neg newline, inductionHypothesis]

/-- A text in front that ends where a line starts. -/
theorem readFrom_lineStart {front : Text} (startsLine : atLineStart front.reverse = true) :
    ∃ read, ∀ text, readFrom marks [] (front ++ text) = read ++ readFrom marks [] text := by
  cases reversed : front.reverse with
  | nil =>
      obtain rfl := List.reverse_eq_nil_iff.mp reversed
      exact ⟨[], fun text => rfl⟩
  | cons c before =>
      rw [reversed] at startsLine
      have newline : c = '\n' := by simpa [atLineStart, headIs] using startsLine
      have shape : front = before.reverse ++ ['\n'] := by
        rw [← List.reverse_reverse front, reversed, newline, List.reverse_cons]
      refine ⟨readFrom marks [] before.reverse, fun text => ?_⟩
      rw [shape, List.append_assoc]
      exact readFrom_append_newline _ _ _

/-- What stands on the line so far. -/
def lineSoFar (past : Text) : Text := (past.takeWhile (· != '\n')).reverse

theorem lineSoFar_cons {c : Char} (other : c ≠ '\n') (past : Text) :
    lineSoFar (c :: past) = lineSoFar past ++ [c] := by
  rw [lineSoFar, List.takeWhile_cons, if_pos (by simpa using other), List.reverse_cons]
  rfl

theorem lineSoFar_atLineStart {past : Text} (startsLine : atLineStart past = true) :
    lineSoFar past = [] := by
  cases past with
  | nil => rfl
  | cons c past =>
      have newline : c = '\n' := by simpa [atLineStart, headIs] using startsLine
      rw [newline]
      rfl

section Settled

variable {stem : Text → List Token} {word : Text}

theorem readFrom_settled (settles : Settles marks stem word) (oneLine : '\n' ∉ word)
    (line text : Text) :
    readFrom marks line (word ++ text) = stem line ++ readBehind marks text := by
  have general : ∀ more, readFrom marks (line ++ (word ++ more)) text =
      stem line ++ readBehind marks text := by
    induction text with
    | nil => exact fun more => by rw [readFrom, readBehind, settles, List.append_nil]
    | cons c text inductionHypothesis =>
        intro more
        by_cases newline : c = '\n'
        · rw [readFrom, readBehind, if_pos newline, if_pos newline, settles]
        · have onward := inductionHypothesis (more ++ [c])
          rw [readFrom, readBehind, if_neg newline, if_neg newline, ← onward]
          simp
  rw [readFrom_line oneLine, ← general [], List.append_nil]

/-- Behind a settling word the rest is read by itself. -/
theorem readFrom_append (settles : Settles marks stem word) (oneLine : '\n' ∉ word)
    (front line text : Text) :
    readFrom marks line (front ++ (word ++ text)) =
      readFrom marks line (front ++ word) ++ readBehind marks text := by
  induction front generalizing line with
  | nil =>
      have closed := readFrom_settled settles oneLine line []
      rw [List.append_nil] at closed
      rw [List.nil_append, List.nil_append, readFrom_settled settles oneLine, closed, readBehind,
        List.append_nil]
  | cons c front inductionHypothesis =>
      by_cases newline : c = '\n'
      · simp only [List.cons_append, readFrom, if_pos newline, inductionHypothesis,
          List.append_assoc]
      · simp only [List.cons_append, readFrom, if_neg newline, inductionHypothesis]

theorem readBehind_append (settles : Settles marks stem word) (oneLine : '\n' ∉ word)
    (front text : Text) :
    readBehind marks (front ++ (word ++ text)) =
      readBehind marks (front ++ word) ++ readBehind marks text := by
  induction front with
  | nil =>
      have closed := @readBehind_line _ marks _ oneLine []
      rw [List.append_nil] at closed
      rw [List.nil_append, List.nil_append, readBehind_line oneLine, closed, readBehind,
        List.nil_append]
  | cons c front inductionHypothesis =>
      by_cases newline : c = '\n'
      · rw [List.cons_append, List.cons_append, readBehind, readBehind, if_pos newline,
          if_pos newline]
        exact readFrom_append settles oneLine front [] text
      · rw [List.cons_append, List.cons_append, readBehind, readBehind, if_neg newline,
          if_neg newline, inductionHypothesis]

/-- Two settling words at the end say the same. -/
theorem readFrom_words {other : Text} (settles : Settles marks stem word) (oneLine : '\n' ∉ word)
    (otherSettles : Settles marks stem other) (otherLine : '\n' ∉ other) (front line : Text) :
    readFrom marks line (front ++ word) = readFrom marks line (front ++ other) := by
  have closed := fun line => readFrom_settled settles oneLine line []
  have otherClosed := fun line => readFrom_settled otherSettles otherLine line []
  simp only [List.append_nil] at closed otherClosed
  apply readFrom_congr
  intro line
  rw [closed, otherClosed]

theorem readBehind_words {other : Text} (settles : Settles marks stem word) (oneLine : '\n' ∉ word)
    (otherSettles : Settles marks stem other) (otherLine : '\n' ∉ other) (front : Text) :
    readBehind marks (front ++ word) = readBehind marks (front ++ other) := by
  have closed := @readBehind_line _ marks _ oneLine []
  have otherClosed := @readBehind_line _ marks _ otherLine []
  rw [List.append_nil] at closed otherClosed
  induction front with
  | nil => exact closed.trans otherClosed.symm
  | cons c front inductionHypothesis =>
      by_cases newline : c = '\n'
      · rw [List.cons_append, List.cons_append, readBehind, readBehind, if_pos newline,
          if_pos newline]
        exact readFrom_words settles oneLine otherSettles otherLine front []
      · rw [List.cons_append, List.cons_append, readBehind, readBehind, if_neg newline,
          if_neg newline, inductionHypothesis]

end Settled

/-! ## Quiet texts -/

/-- The text settles the line it starts in, and its other lines say nothing. -/
def Quiet (marks stem : Text → List Token) (text : Text) : Prop :=
  ∀ line back, readFrom marks line (text ++ back) = stem line ++ readBehind marks back

section Quiet

variable {stem : Text → List Token} {first second : Text}

theorem Settles.quiet (settles : Settles marks stem first) (oneLine : '\n' ∉ first) :
    Quiet marks stem first := readFrom_settled settles oneLine

theorem Quiet.append (quiet : Quiet marks stem first)
    (silent : ∀ back, readBehind marks (second ++ back) = readBehind marks back) :
    Quiet marks stem (first ++ second) := by
  intro line back
  rw [List.append_assoc, quiet, silent]

/-- Quiet texts are not told apart. -/
theorem Quiet.same (quiet : Quiet marks stem first) (otherQuiet : Quiet marks stem second)
    (front back line : Text) :
    readFrom marks line (front ++ (first ++ back)) =
      readFrom marks line (front ++ (second ++ back)) := by
  apply readFrom_congr
  intro line
  rw [quiet, otherQuiet]

end Quiet

end Reading

/-- Reading less from each line. -/
theorem readFrom_filterMap {Token Other : Type} {marks : Text → List Token}
    {others : Text → List Other} {choose : Token → Option Other}
    (each : ∀ line, others line = (marks line).filterMap choose) (line text : Text) :
    readFrom others line text = (readFrom marks line text).filterMap choose := by
  induction text generalizing line with
  | nil => exact each line
  | cons c text inductionHypothesis =>
      by_cases newline : c = '\n'
      · rw [readFrom, readFrom, if_pos newline, if_pos newline, List.filterMap_append, each,
          inductionHypothesis]
      · rw [readFrom, readFrom, if_neg newline, if_neg newline, inductionHypothesis]

end LibarenaRs.Regex
