import LibarenaRs.Regex.Matcher

/-!
# Running the matcher symbolically

One equation for each operator.  Repetition of a single character class is the
common loop; it is restated by recursion on the text to come.
-/

namespace LibarenaRs.Regex

variable {Answer : Type}

theorem eq_some_of_orElse {first second : Option Answer} {answer : Answer}
    (found : (first <|> second) = some answer) :
    first = some answer ∨ second = some answer := by
  cases first with
  | none => exact .inr (by simpa using found)
  | some value => exact .inl (by simpa using found)

variable (next : Cursor → Option Answer)

/-! ## Runs of a class -/

section Span

variable {accepts : Char → Bool} {word : Text} {stop : Char} {tail : Text}

theorem takeWhile_stop (all : word.all accepts = true) (rejected : accepts stop = false) :
    (word ++ stop :: tail).takeWhile accepts = word := by
  induction word with
  | nil => simp [rejected]
  | cons c word inductionHypothesis =>
      rw [List.all_cons, Bool.and_eq_true] at all
      rw [List.cons_append, List.takeWhile_cons, if_pos all.1, inductionHypothesis all.2]

theorem dropWhile_stop (all : word.all accepts = true) (rejected : accepts stop = false) :
    (word ++ stop :: tail).dropWhile accepts = stop :: tail := by
  induction word with
  | nil => simp [rejected]
  | cons c word inductionHypothesis =>
      rw [List.all_cons, Bool.and_eq_true] at all
      rw [List.cons_append, List.dropWhile_cons, if_pos all.1, inductionHypothesis all.2]

/-- A character of the word that is not accepted stops the run. -/
theorem dropWhile_inside (rejected : word.all accepts = false) (left : Text) :
    ∃ c rest, (word ++ left).dropWhile accepts = c :: rest ∧ c ∈ word ∧ accepts c = false := by
  induction word with
  | nil => cases rejected
  | cons c word inductionHypothesis =>
      by_cases accepted : accepts c = true
      · rw [List.all_cons, accepted, Bool.true_and] at rejected
        obtain ⟨d, rest, stopped, member, refused⟩ := inductionHypothesis rejected
        exact ⟨d, rest, by rw [List.cons_append, List.dropWhile_cons, if_pos accepted, stopped],
          List.mem_cons_of_mem _ member, refused⟩
      · rw [Bool.not_eq_true] at accepted
        exact ⟨c, word ++ left, by simp [accepted], by simp, accepted⟩

theorem takeWhile_append_stops {tail : Text} (stops : headIs accepts tail = false) (text : Text) :
    (text ++ tail).takeWhile accepts = text.takeWhile accepts := by
  induction text with
  | nil =>
      cases tail with
      | nil => rfl
      | cons c tail => exact List.takeWhile_cons_of_neg (by simpa [headIs] using stops)
  | cons c text inductionHypothesis =>
      rw [List.cons_append, List.takeWhile_cons, List.takeWhile_cons, inductionHypothesis]

theorem dropWhile_append_stops {tail : Text} (stops : headIs accepts tail = false) (text : Text) :
    (text ++ tail).dropWhile accepts = text.dropWhile accepts ++ tail := by
  induction text with
  | nil =>
      cases tail with
      | nil => rfl
      | cons c tail =>
          have rejected : accepts c = false := stops
          simp [rejected]
  | cons c text inductionHypothesis =>
      rw [List.cons_append, List.dropWhile_cons, List.dropWhile_cons, inductionHypothesis]
      split <;> rfl

end Span

/-! ## Prefixes -/

theorem dropPrefix?_eq_some {word text rest : Text} :
    text.dropPrefix? word = some rest ↔ text = word ++ rest := by
  rw [List.dropPrefix?_eq_some_iff]
  constructor
  · rintro ⟨copy, split, same⟩
    rw [split, eq_of_beq same]
  · intro split
    exact ⟨word, split, beq_self_eq_true word⟩

theorem dropPrefix?_append (word rest : Text) : (word ++ rest).dropPrefix? word = some rest :=
  dropPrefix?_eq_some.mpr rfl

theorem dropPrefix?_eq_none {word text : Text} :
    text.dropPrefix? word = none ↔ ¬word <+: text := by
  rw [← Option.not_isSome_iff_eq_none, Option.isSome_iff_exists, not_iff_not]
  constructor
  · rintro ⟨rest, found⟩
    exact ⟨rest, (dropPrefix?_eq_some.mp found).symm⟩
  · rintro ⟨rest, rfl⟩
    exact ⟨rest, dropPrefix?_append word rest⟩

/-- A word ends before a text that starts with none of its characters. -/
theorem dropPrefix?_stops {word text tail : Text} (stops : headIs word.contains tail = false) :
    (text ++ tail).dropPrefix? word = (text.dropPrefix? word).map (· ++ tail) := by
  cases found : text.dropPrefix? word with
  | some rest =>
      rw [dropPrefix?_eq_some.mp found, List.append_assoc]
      exact dropPrefix?_append word (rest ++ tail)
  | none =>
      rw [dropPrefix?_eq_none] at found
      rw [Option.map_none, dropPrefix?_eq_none]
      rintro ⟨rest, split⟩
      rcases List.append_eq_append_iff.mp split with ⟨more, whole, -⟩ | ⟨more, whole, left⟩
      · exact found ⟨more, whole.symm⟩
      · cases more with
        | nil => exact found ⟨[], by rw [whole]; simp⟩
        | cons c more =>
            rw [left, List.cons_append] at stops
            have absent : c ∉ word := by simpa [headIs] using stops
            exact absent (by rw [whole]; simp)

/-- A word without newlines ends before the next line. -/
theorem dropPrefix?_line {word text tail : Text} (oneLine : '\n' ∉ word)
    (stops : headIs (· != '\n') tail = false) :
    (text ++ tail).dropPrefix? word = (text.dropPrefix? word).map (· ++ tail) := by
  apply dropPrefix?_stops
  cases tail with
  | nil => rfl
  | cons c tail =>
      have newline : c = '\n' := by simpa [headIs] using stops
      simpa [headIs, newline] using oneLine

namespace Pattern

@[simp]
theorem run_empty (cursor : Cursor) : empty.run next cursor = next cursor := rfl

@[simp]
theorem run_seq (first second : Pattern) (cursor : Cursor) :
    (seq first second).run next cursor = first.run (second.run next) cursor := rfl

@[simp]
theorem run_alt (first second : Pattern) (cursor : Cursor) :
    (alt first second).run next cursor =
      (first.run next cursor <|> second.run next cursor) := rfl

@[simp]
theorem run_group (index : Nat) (body : Pattern) (cursor : Cursor) :
    (group index body).run next cursor =
      body.run (fun after => next (after.close index cursor.rest)) cursor := rfl

@[simp]
theorem run_opt (body : Pattern) (cursor : Cursor) :
    body.opt.run next cursor = (body.run next cursor <|> next cursor) := rfl

@[simp]
theorem run_plus (greedy : Bool) (body : Pattern) (cursor : Cursor) :
    (plus greedy body).run next cursor =
      body.run ((star greedy body).run next) cursor := rfl

@[simp]
theorem run_cat_nil (cursor : Cursor) : (cat []).run next cursor = next cursor := rfl

@[simp]
theorem run_cat_cons (first : Pattern) (others : List Pattern) (cursor : Cursor) :
    (cat (first :: others)).run next cursor =
      first.run ((cat others).run next) cursor := by
  cases others <;> rfl

theorem run_lit_append (word rest past : Text) (groups : List (Nat × Text)) :
    (lit word).run next ⟨past, word ++ rest, groups⟩ =
      next ⟨word.reverse ++ past, rest, groups⟩ := by
  simp only [run, dropPrefix?_append, Cursor.move]

theorem run_lit_absent {word : Text} {cursor : Cursor}
    (absent : ¬word <+: cursor.rest) : (lit word).run next cursor = none := by
  simp only [run, dropPrefix?_eq_none.mpr absent]

theorem run_lit_eq_some {word : Text} {cursor : Cursor} {answer : Answer}
    (found : (lit word).run next cursor = some answer) :
    ∃ rest, cursor.rest = word ++ rest ∧ next (cursor.move word rest) = some answer := by
  by_cases present : word <+: cursor.rest
  · obtain ⟨rest, split⟩ := present
    refine ⟨rest, split.symm, ?_⟩
    obtain ⟨past, text, groups⟩ := cursor
    simp only at split
    rw [← split, run_lit_append] at found
    exact found
  · rw [run_lit_absent next present] at found
    cases found

@[simp]
theorem run_chr_nil (accepts : Char → Bool) (past : Text) (groups : List (Nat × Text)) :
    (chr accepts).run next ⟨past, [], groups⟩ = none := rfl

@[simp]
theorem run_chr_cons (accepts : Char → Bool) (past rest : Text) (c : Char)
    (groups : List (Nat × Text)) :
    (chr accepts).run next ⟨past, c :: rest, groups⟩ =
      if accepts c then next ⟨c :: past, rest, groups⟩ else none := rfl

@[simp]
theorem run_lineStart (cursor : Cursor) :
    lineStart.run next cursor = if atLineStart cursor.past then next cursor else none := rfl

@[simp]
theorem run_lineEnd (cursor : Cursor) :
    lineEnd.run next cursor = if atLineEnd cursor.rest then next cursor else none := rfl

@[simp]
theorem run_textStart (cursor : Cursor) :
    textStart.run next cursor = if cursor.past.isEmpty then next cursor else none := rfl

@[simp]
theorem run_textEnd (cursor : Cursor) :
    textEnd.run next cursor =
      if cursor.rest.isEmpty || cursor.rest == ['\n'] then next cursor else none := rfl

@[simp]
theorem run_wordBoundary (cursor : Cursor) :
    wordBoundary.run next cursor =
      if headIs isWord cursor.past != headIs isWord cursor.rest then next cursor
      else none := rfl

@[simp]
theorem run_notAhead (body : Pattern) (cursor : Cursor) :
    (notAhead body).run next cursor =
      if (body.run some cursor).isSome then none else next cursor := rfl

@[simp]
theorem run_notBehind (accepts : Char → Bool) (cursor : Cursor) :
    (notBehind accepts).run next cursor =
      if headIs accepts cursor.past then none else next cursor := rfl

/-- Repetition of one character class, by recursion on the text to come. -/
def repeatChr (accepts : Char → Bool) (greedy : Bool) (groups : List (Nat × Text)) :
    Text → Text → Option Answer
  | past, [] => next ⟨past, [], groups⟩
  | past, c :: rest =>
      let again := if accepts c then repeatChr accepts greedy groups (c :: past) rest else none
      if greedy then again <|> next ⟨past, c :: rest, groups⟩
      else next ⟨past, c :: rest, groups⟩ <|> again

theorem run_star_chr (accepts : Char → Bool) (greedy : Bool) (past rest : Text)
    (groups : List (Nat × Text)) :
    (star greedy (chr accepts)).run next ⟨past, rest, groups⟩ =
      repeatChr next accepts greedy groups past rest := by
  change repeatBody (chr accepts).run greedy next rest.length ⟨past, rest, groups⟩ = _
  induction rest generalizing past with
  | nil => rfl
  | cons c rest inductionHypothesis =>
      simp only [repeatChr, List.length_cons, repeatBody, run_chr_cons,
        Nat.lt_add_one, if_true]
      rw [inductionHypothesis]

variable {next} {accepts : Char → Bool} {greedy : Bool} {groups : List (Nat × Text)}

/-- The loop succeeds when the continuation succeeds where the loop can stop. -/
theorem repeatChr_ne_none {past read left : Text}
    (allAccepted : ∀ c ∈ read, accepts c = true)
    (found : next ⟨read.reverse ++ past, left, groups⟩ ≠ none) :
    repeatChr next accepts greedy groups past (read ++ left) ≠ none := by
  induction read generalizing past with
  | nil =>
      cases left with
      | nil => exact found
      | cons c left =>
          have here : next ⟨past, c :: left, groups⟩ ≠ none := found
          cases greedy <;> simp [repeatChr, here]
  | cons c read inductionHypothesis =>
      have later := @inductionHypothesis (c :: past)
        (fun d membership => allAccepted d (List.mem_cons_of_mem _ membership))
        (by simpa using found)
      have accepted := allAccepted c (by simp)
      cases greedy <;> simp [repeatChr, accepted, later]

/-- A lazy loop stops at the first place where the continuation succeeds. -/
theorem repeatChr_lazy {past read left : Text} {answer : Answer}
    (allAccepted : ∀ c ∈ read, accepts c = true)
    (found : next ⟨read.reverse ++ past, left, groups⟩ = some answer)
    (earlier : ∀ start c stop, read = start ++ c :: stop →
      next ⟨start.reverse ++ past, c :: (stop ++ left), groups⟩ = none) :
    repeatChr next accepts false groups past (read ++ left) = some answer := by
  induction read generalizing past with
  | nil =>
      cases left with
      | nil => exact found
      | cons c left =>
          have here : next ⟨past, c :: left, groups⟩ = some answer := found
          simp [repeatChr, here]
  | cons c read inductionHypothesis =>
      have here : next ⟨past, c :: (read ++ left), groups⟩ = none :=
        earlier [] c read rfl
      have later := @inductionHypothesis (c :: past)
        (fun d membership => allAccepted d (List.mem_cons_of_mem _ membership))
        (by simpa using found)
        (fun start d stop split => by
          have shifted := earlier (c :: start) d stop (by rw [split]; rfl)
          simpa using shifted)
      simp [repeatChr, here, allAccepted c (by simp), later]

/-- A greedy loop over a maximal run of the class succeeds at the end of the run
if the continuation does. -/
theorem repeatChr_greedy {past read left : Text} {answer : Answer}
    (allAccepted : ∀ c ∈ read, accepts c = true)
    (stops : headIs accepts left = false)
    (found : next ⟨read.reverse ++ past, left, groups⟩ = some answer) :
    repeatChr next accepts true groups past (read ++ left) = some answer := by
  induction read generalizing past with
  | nil =>
      cases left with
      | nil => exact found
      | cons c left =>
          have here : next ⟨past, c :: left, groups⟩ = some answer := found
          have rejected : accepts c = false := stops
          simp [repeatChr, here, rejected]
  | cons c read inductionHypothesis =>
      have later := @inductionHypothesis (c :: past)
        (fun d membership => allAccepted d (List.mem_cons_of_mem _ membership))
        (by simpa using found)
      simp [repeatChr, allAccepted c (by simp), later]

/-- Where a successful loop stopped. -/
theorem repeatChr_eq_some {past rest : Text} {answer : Answer}
    (found : repeatChr next accepts greedy groups past rest = some answer) :
    ∃ read left, rest = read ++ left ∧ (∀ c ∈ read, accepts c = true) ∧
      next ⟨read.reverse ++ past, left, groups⟩ = some answer := by
  by_contra absent
  push Not at absent
  induction rest generalizing past with
  | nil => exact absent [] [] rfl (by simp) found
  | cons c rest inductionHypothesis =>
      have here : next ⟨past, c :: rest, groups⟩ ≠ some answer :=
        absent [] (c :: rest) rfl (by simp)
      by_cases accepted : accepts c = true
      · have later : repeatChr next accepts greedy groups (c :: past) rest ≠ some answer := by
          intro success
          refine inductionHypothesis success ?_
          intro read left split allAccepted
          have shifted := absent (c :: read) left (by rw [split]; rfl)
            (by simpa [accepted] using allAccepted)
          simpa using shifted
        simp only [repeatChr, accepted, if_true] at found
        cases greedy with
        | true =>
            rcases eq_some_of_orElse found with success | success
            · exact later success
            · exact here success
        | false =>
            rcases eq_some_of_orElse found with success | success
            · exact here success
            · exact later success
      · simp only [repeatChr, accepted, Bool.false_eq_true, if_false] at found
        cases greedy <;> simp at found <;> exact here found

/-- Where the continuation cannot start inside the class, the loop reads all of
the class that is there. -/
theorem run_star_maximal {past text : Text}
    (stuck : ∀ past c rest, accepts c = true → next ⟨past, c :: rest, groups⟩ = none) :
    (star greedy (chr accepts)).run next ⟨past, text, groups⟩ =
      next ⟨(text.takeWhile accepts).reverse ++ past, text.dropWhile accepts, groups⟩ := by
  rw [run_star_chr]
  induction text generalizing past with
  | nil => rfl
  | cons c text inductionHypothesis =>
      by_cases accepted : accepts c = true
      · have here := stuck past c text accepted
        have later := @inductionHypothesis (c :: past)
        simp only [repeatChr, here, accepted, if_true, later, List.takeWhile_cons,
          List.dropWhile_cons, List.reverse_cons, List.append_assoc, List.singleton_append]
        cases greedy <;> simp
      · simp only [repeatChr, accepted, List.takeWhile_cons, List.dropWhile_cons]
        cases greedy <;> simp

theorem run_plus_maximal {past text : Text}
    (stuck : ∀ past c rest, accepts c = true → next ⟨past, c :: rest, groups⟩ = none) :
    (plus greedy (chr accepts)).run next ⟨past, text, groups⟩ =
      if text.takeWhile accepts = [] then none
      else next ⟨(text.takeWhile accepts).reverse ++ past, text.dropWhile accepts, groups⟩ := by
  cases text with
  | nil => rfl
  | cons c rest =>
      rw [run_plus, run_chr_cons]
      by_cases accepted : accepts c = true
      · rw [if_pos accepted, run_star_maximal stuck]
        simp [accepted]
      · simp [accepted]

/-- `(…+)` with a continuation that cannot start inside the class. -/
theorem run_group_plus_maximal {index : Nat} {past text : Text}
    (stuck : ∀ past c rest groups, accepts c = true → next ⟨past, c :: rest, groups⟩ = none) :
    (group index (plus greedy (chr accepts))).run next ⟨past, text, groups⟩ =
      if text.takeWhile accepts = [] then none
      else next ⟨(text.takeWhile accepts).reverse ++ past, text.dropWhile accepts,
        (index, text.takeWhile accepts) :: groups⟩ := by
  have read : text.take (text.length - (text.dropWhile accepts).length) =
      text.takeWhile accepts := by
    have lengths := congrArg List.length (@List.takeWhile_append_dropWhile _ accepts text)
    rw [List.length_append] at lengths
    rw [← lengths, Nat.add_sub_cancel]
    exact (List.prefix_iff_eq_take.mp (List.takeWhile_prefix accepts)).symm
  rw [run_group, run_plus_maximal]
  · simp only [Cursor.close, read]
  · intro before c rest accepted
    exact stuck before c rest _ accepted

end Pattern

end LibarenaRs.Regex
