import LibarenaRs.Regex.Paths

/-!
# Scanning a text for matches

A scan is determined by where matches start: text in which no match starts is
copied, and a match is one piece.
-/

namespace LibarenaRs.Regex

namespace Pattern

theorem matchAt_nil (pattern : Pattern) (past : Text) : pattern.matchAt past [] = none := by
  rw [matchAt, run_eq_none_iff]
  intro stop _
  exact if_neg (Nat.not_lt_zero _)

theorem matchAt_eq_some {pattern : Pattern} {past rest : Text} {m : Match}
    (found : pattern.matchAt past rest = some m) :
    ∃ stop, pattern.Reaches ⟨past, rest, []⟩ stop ∧ rest = m.text ++ stop.rest ∧
      m.text ≠ [] ∧ m.groups = stop.groups := by
  obtain ⟨stop, reached, ended⟩ := run_eq_some found
  by_cases progress : stop.rest.length < rest.length
  · rw [if_pos progress] at ended
    obtain rfl := Option.some.inj ended
    obtain ⟨read, split, -⟩ := reached.read
    simp only at split
    have text : rest.take (rest.length - stop.rest.length) = read := by
      rw [split, List.length_append, Nat.add_sub_cancel, List.take_left']
      rfl
    refine ⟨stop, reached, ?_, ?_, rfl⟩
    · simp only [text]
      exact split
    · simp only [text]
      rintro rfl
      rw [split] at progress
      simp at progress
  · rw [if_neg progress] at ended
    cases ended

theorem matchAt_eq_none_iff {pattern : Pattern} {past rest : Text} :
    pattern.matchAt past rest = none ↔
      ∀ stop, pattern.Reaches ⟨past, rest, []⟩ stop → stop.rest = rest := by
  rw [matchAt, run_eq_none_iff]
  refine forall₂_congr fun stop reached => ?_
  obtain ⟨read, split, -⟩ := reached.read
  simp only at split
  constructor
  · intro noProgress
    by_cases empty : read = []
    · rw [split, empty]
      rfl
    · have positive := List.length_pos_iff.mpr empty
      have progress : stop.rest.length < rest.length := by
        rw [split, List.length_append]
        omega
      rw [if_pos progress] at noProgress
      cases noProgress
  · intro same
    rw [same]
    exact if_neg (Nat.lt_irrefl _)

theorem isSome_matchAt {pattern : Pattern} {past rest : Text} {stop : Cursor}
    (reached : pattern.Reaches ⟨past, rest, []⟩ stop) (progress : stop.rest.length < rest.length) :
    (pattern.matchAt past rest).isSome = true := by
  rw [Option.isSome_iff_ne_none]
  intro none_
  rw [matchAt_eq_none_iff.mp none_ stop reached] at progress
  exact Nat.lt_irrefl _ progress

/-- A text that is read whole and in one way, or not at all. -/
theorem matchAt_of_reaches_iff {pattern : Pattern} {past text rest : Text}
    {groups : List (Nat × Text)} {condition : Prop} [Decidable condition] (filled : text ≠ [])
    (reaches : ∀ {stop : Cursor}, pattern.Reaches ⟨past, text ++ rest, []⟩ stop ↔
      condition ∧ stop = ⟨text.reverse ++ past, rest, groups⟩) :
    pattern.matchAt past (text ++ rest) = if condition then some ⟨text, groups⟩ else none := by
  split
  · next holds =>
      have some_ : (pattern.matchAt past (text ++ rest)).isSome = true := by
        apply isSome_matchAt (reaches.mpr ⟨holds, rfl⟩)
        have positive := List.length_pos_of_ne_nil filled
        change rest.length < _
        rw [List.length_append]
        omega
      obtain ⟨⟨read, kept⟩, found⟩ := Option.isSome_iff_exists.mp some_
      obtain ⟨stop, path, whole, -, same⟩ := matchAt_eq_some found
      obtain ⟨-, rfl⟩ := reaches.mp path
      obtain rfl : text = read := List.append_cancel_right whole
      obtain rfl : kept = groups := same
      exact found
  · next fails =>
      rw [matchAt_eq_none_iff]
      intro stop path
      exact absurd (reaches.mp path).1 fails

theorem scan_skip (pattern : Pattern) (past read rest : Text) :
    pattern.scan past (read ++ rest) read.length = pattern.scan (read.reverse ++ past) rest 0 := by
  induction read generalizing past with
  | nil => rfl
  | cons c read inductionHypothesis =>
      simp only [List.cons_append, List.length_cons, scan]
      rw [inductionHypothesis]
      simp

/-- A match takes its text in one piece. -/
theorem scan_hit {pattern : Pattern} {past rest : Text} {m : Match}
    (nonempty : m.text ≠ []) (found : pattern.matchAt past (m.text ++ rest) = some m) :
    pattern.scan past (m.text ++ rest) 0 =
      .hit m :: pattern.scan (m.text.reverse ++ past) rest 0 := by
  cases text : m.text with
  | nil => exact absurd text nonempty
  | cons c read =>
      rw [text] at found
      simp only [List.cons_append] at found
      simp only [List.cons_append, scan, found, text, List.length_cons, Nat.add_sub_cancel]
      rw [scan_skip]
      simp

/-- Text in which no match starts is copied. -/
theorem scan_plain {pattern : Pattern} {past read rest : Text}
    (quiet : ∀ start c stop, read = start ++ c :: stop →
      pattern.matchAt (start.reverse ++ past) (c :: (stop ++ rest)) = none) :
    pattern.scan past (read ++ rest) 0 =
      read.map .plain ++ pattern.scan (read.reverse ++ past) rest 0 := by
  induction read generalizing past with
  | nil => rfl
  | cons c read inductionHypothesis =>
      have here : pattern.matchAt past (c :: (read ++ rest)) = none := quiet [] c read rfl
      simp only [List.cons_append, scan, here, List.map_cons]
      rw [inductionHypothesis]
      · simp
      · intro start d stop split
        have shifted := quiet (c :: start) d stop (by rw [split]; rfl)
        simpa using shifted

/-- Patterns that match alike at every position of a text scan it alike. -/
theorem scan_congr {first second : Pattern} {past rest : Text} {skip : Nat}
    (agree : ∀ read c left, rest = read ++ c :: left →
      first.matchAt (read.reverse ++ past) (c :: left) =
        second.matchAt (read.reverse ++ past) (c :: left)) :
    first.scan past rest skip = second.scan past rest skip := by
  induction rest generalizing past skip with
  | nil => cases skip <;> rfl
  | cons c rest inductionHypothesis =>
      have tail : ∀ count, first.scan (c :: past) rest count = second.scan (c :: past) rest count := by
        intro count
        apply inductionHypothesis
        intro read d left split
        have shifted := agree (c :: read) d left (by rw [split]; rfl)
        simpa using shifted
      cases skip with
      | zero =>
          have here : first.matchAt past (c :: rest) = second.matchAt past (c :: rest) :=
            agree [] c rest rfl
          simp only [scan, here, tail]
      | succ skip => exact tail skip

theorem flatMap_render_plain (replace : Match → Text) (text : Text) :
    (text.map Piece.plain).flatMap (Piece.render replace) = text := by
  induction text with
  | nil => rfl
  | cons c text inductionHypothesis => simp [Piece.render, inductionHypothesis]

theorem filterMap_hit_plain (text : Text) :
    (text.map Piece.plain).filterMap Piece.hit? = [] := by
  induction text with
  | nil => rfl
  | cons c text inductionHypothesis => simp [Piece.hit?]

/-- Replacing single characters of a class is a map. -/
theorem sub_chr (accepts : Char → Bool) (replacement : Char) (text : Text) :
    (chr accepts).sub (fun _ => [replacement]) text =
      text.map fun c => if accepts c then replacement else c := by
  have general : ∀ past, ((chr accepts).scan past text 0).flatMap
      (Piece.render fun _ => [replacement]) =
        text.map fun c => if accepts c then replacement else c := by
    induction text with
    | nil => intro past; rfl
    | cons c text inductionHypothesis =>
        intro past
        by_cases accepted : accepts c = true
        · have found : (chr accepts).matchAt past (c :: text) = some ⟨[c], []⟩ := by
            simp [matchAt, accepted]
          simp only [scan, found, List.length_singleton, Nat.sub_self, List.flatMap_cons,
            Piece.render, inductionHypothesis, List.map_cons, if_pos accepted]
          rfl
        · have missed : (chr accepts).matchAt past (c :: text) = none := by
            simp [matchAt, accepted]
          simp only [scan, missed, List.flatMap_cons, Piece.render, inductionHypothesis,
            List.map_cons, if_neg accepted]
          rfl
  exact general []

end Pattern

end LibarenaRs.Regex
