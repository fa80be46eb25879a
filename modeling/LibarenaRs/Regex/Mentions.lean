import LibarenaRs.Regex.Rewriting

/-!
# Words behind a mark

A symbol is written as a mark and a word.  A pattern that renames one symbol renames
it wherever it is mentioned, and leaves all other mentions where they are.
-/

namespace LibarenaRs.Regex

/-- The words behind a mark, from left to right.  A character that blocks hides the mark
behind it. -/
def mentions (blocks : Char → Bool) (mark : Char) : Text → Text → List Text
  | _, [] => []
  | past, c :: rest =>
      (if c = mark ∧ headIs blocks past = false then [rest.takeWhile isWord] else []) ++
        mentions blocks mark (c :: past) rest

/-- The name of a symbol is one word. -/
structure OneWord (word : Text) : Prop where
  filled : word ≠ []
  all : word.all isWord = true

namespace OneWord

variable {word after : Text}

theorem isWord (oneWord : OneWord word) {c : Char} (member : c ∈ word) :
    Regex.isWord c = true :=
  List.all_eq_true.mp oneWord.all c member

theorem last (oneWord : OneWord word) (past : Text) :
    ∃ c before, Regex.isWord c = true ∧ word.reverse ++ past = c :: before := by
  cases reversed : word.reverse with
  | nil => exact absurd (List.reverse_eq_nil_iff.mp reversed) oneWord.filled
  | cons c before =>
      have member : c ∈ word := List.mem_reverse.mp (reversed ▸ List.mem_cons_self)
      exact ⟨c, before ++ past, oneWord.isWord member, rfl⟩

theorem takeWhile (oneWord : OneWord word) (ends : headIs Regex.isWord after = false) :
    (word ++ after).takeWhile Regex.isWord = word := by
  rw [List.takeWhile_append_of_pos fun c member => oneWord.isWord member]
  cases after with
  | nil => exact List.append_nil word
  | cons c after =>
      rw [List.takeWhile_cons_of_neg (by simpa [headIs] using ends)]
      exact List.append_nil word

end OneWord

theorem headIs_of_takeWhile {accepts : Char → Bool} {text : Text} :
    text.takeWhile accepts = [] ↔ headIs accepts text = false := by
  cases text with
  | nil => simp [headIs]
  | cons c text => cases here : accepts c <;> simp [headIs, here]

section Mentions

variable {blocks : Char → Bool} {mark : Char}

/-- Only what stands directly in front of the text matters. -/
theorem mentions_past {past other : Text} (same : headIs blocks past = headIs blocks other)
    (text : Text) : mentions blocks mark past text = mentions blocks mark other text := by
  induction text generalizing past other with
  | nil => rfl
  | cons c rest inductionHypothesis =>
      rw [mentions, mentions, same]
      congr 1
      exact inductionHypothesis rfl

theorem mentions_unmarked {inner : Text} (unmarked : mark ∉ inner) (past rest : Text) :
    mentions blocks mark past (inner ++ rest) = mentions blocks mark (inner.reverse ++ past) rest := by
  induction inner generalizing past with
  | nil => rfl
  | cons c inner inductionHypothesis =>
      rw [List.mem_cons, not_or] at unmarked
      rw [List.cons_append, mentions, if_neg fun here => unmarked.1 here.1.symm,
        List.nil_append, inductionHypothesis unmarked.2]
      congr 1
      simp

/-- A text is read part by part. -/
theorem mentions_append (past first second : Text)
    (ends : headIs isWord second = false) :
    mentions blocks mark past (first ++ second) =
      mentions blocks mark past first ++ mentions blocks mark (first.reverse ++ past) second := by
  have cut : ∀ text : Text, (text ++ second).takeWhile isWord = text.takeWhile isWord := by
    intro text
    rw [List.takeWhile_append, headIs_of_takeWhile.mpr ends, List.append_nil]
    split
    · next whole => exact ((List.takeWhile_prefix isWord).eq_of_length whole).symm
    · rfl
  induction first generalizing past with
  | nil => rfl
  | cons c first inductionHypothesis =>
      rw [List.cons_append, mentions, mentions, inductionHypothesis, cut, List.append_assoc,
        List.reverse_cons, List.append_assoc]
      rfl

/-- `(?<![blocks])mark word\b` -/
def Pattern.mention (blocks : Char → Bool) (mark : Char) (word : Text) : Pattern :=
  .cat [.notBehind blocks, .lit (mark :: word), .wordBoundary]

variable {word : Text}

theorem matchAt_mention {past rest : Text} {m : Match} (oneWord : OneWord word)
    (found : (Pattern.mention blocks mark word).matchAt past rest = some m) :
    headIs blocks past = false ∧ m.text = mark :: word ∧
      ∃ after, rest = mark :: word ++ after ∧ headIs isWord after = false := by
  obtain ⟨stop, ⟨_, ⟨free, rfl⟩, _, ⟨after, split, rfl⟩, boundary, rfl⟩, whole, -, -⟩ :=
    Pattern.matchAt_eq_some found
  obtain ⟨c, before, isLast, reversed⟩ := oneWord.last (mark :: past)
  have ends : headIs isWord after = false := by
    have passed : (mark :: word).reverse ++ past = c :: before := by
      rw [List.reverse_cons, List.append_assoc]
      exact reversed
    have different : (headIs isWord ((mark :: word).reverse ++ past) != headIs isWord after) = true :=
      boundary
    rw [passed] at different
    simpa [headIs, isLast] using different
  refine ⟨free, ?_, after, split, ends⟩
  exact (List.append_left_inj after).mp (whole.symm.trans split)

theorem mention_here {past after : Text} (oneWord : OneWord word)
    (free : headIs blocks past = false) (ends : headIs isWord after = false) :
    ((Pattern.mention blocks mark word).matchAt past (mark :: word ++ after)).isSome = true := by
  obtain ⟨c, before, isLast, reversed⟩ := oneWord.last (mark :: past)
  have boundary : (headIs isWord ((mark :: word).reverse ++ past) != headIs isWord after) = true := by
    rw [List.reverse_cons, List.append_assoc, List.singleton_append, reversed, ends]
    simpa [headIs] using isLast
  apply @Pattern.isSome_matchAt _ _ _ ⟨(mark :: word).reverse ++ past, after, []⟩
  · exact ⟨_, ⟨free, rfl⟩, _, ⟨after, rfl, rfl⟩, boundary, rfl⟩
  · simp only [List.length_append, List.length_cons]
    omega

/-! ## Renaming -/

def rename (old new word : Text) : Text := if word = old then new else word

theorem foldl_rename_of_ne {pairs : List (Text × Text)} {word : Text}
    (different : ∀ pair ∈ pairs, word ≠ pair.1) :
    pairs.foldl (fun word pair => rename pair.1 pair.2 word) word = word := by
  induction pairs with
  | nil => rfl
  | cons pair pairs inductionHypothesis =>
      rw [List.foldl_cons, rename, if_neg (different pair List.mem_cons_self)]
      exact inductionHypothesis fun other member => different other (List.mem_cons_of_mem _ member)

/-- The references of the text with one symbol renamed are its references, renamed. -/
theorem mentions_sub (covers : ∀ c, isWord c = true → blocks c = true)
    (unmarked : isWord mark = false) {old new : Text} (oldWord : OneWord old)
    (newWord : OneWord new) (text : Text) :
    mentions blocks mark [] ((Pattern.mention blocks mark old).sub (fun _ => mark :: new) text) =
      (mentions blocks mark [] text).map (rename old new) := by
  have apart : ∀ {word : Text}, OneWord word → mark ∉ word := fun oneWord member =>
    Bool.false_ne_true (unmarked.symm.trans (oneWord.isWord member))
  have blocked : ∀ {word : Text}, OneWord word → ∀ past, headIs blocks (word.reverse ++ past) =
      true := by
    intro word oneWord past
    obtain ⟨c, before, isLast, same⟩ := oneWord.last past
    rw [same]
    exact covers c isLast
  have general := @Pattern.scan_induction (Pattern.mention blocks mark old)
    (fun past rest pieces =>
      (pieces.flatMap (Piece.render fun _ => mark :: new)).takeWhile isWord =
        rest.takeWhile isWord ∧
      ∀ other, headIs blocks other = headIs blocks past →
        mentions blocks mark other (pieces.flatMap (Piece.render fun _ => mark :: new)) =
          (mentions blocks mark past rest).map (rename old new))
    (fun past => ⟨rfl, fun _ _ => rfl⟩)
    (by
      rintro past c rest none_ ⟨sameWord, sameMentions⟩
      constructor
      · rw [List.flatMap_cons, Piece.render, List.singleton_append, List.takeWhile_cons,
          List.takeWhile_cons, sameWord]
      · intro other same
        rw [List.flatMap_cons, Piece.render, List.singleton_append, mentions, mentions, same,
          sameWord, List.map_append, sameMentions (c :: other) rfl]
        congr 1
        by_cases here : c = mark ∧ headIs blocks past = false
        · have kept : rest.takeWhile isWord ≠ old := by
            intro found
            obtain ⟨rfl, free⟩ := here
            have split : rest = old ++ rest.dropWhile isWord := by
              rw [← found, List.takeWhile_append_dropWhile]
            have ends : headIs isWord (rest.dropWhile isWord) = false := by
              cases left : rest.dropWhile isWord with
              | nil => rfl
              | cons d after =>
                  have stops := List.head_dropWhile_not isWord (l := rest) (by simp [left])
                  simpa [left, headIs] using stops
            have isHit : ((Pattern.mention blocks c old).matchAt past (c :: old ++
                rest.dropWhile isWord)).isSome = true := mention_here oldWord free ends
            rw [List.cons_append, ← split, none_] at isHit
            cases isHit
          rw [if_pos here, List.map_singleton, rename, if_neg kept]
        · rw [if_neg here, List.map_nil])
    (by
      rintro past m rest found ⟨sameWord, sameMentions⟩
      obtain ⟨free, isOld, after, split, ends⟩ := matchAt_mention oldWord found
      rw [isOld] at split sameWord sameMentions ⊢
      obtain rfl := List.append_cancel_left split
      have ended := headIs_of_takeWhile.mp (sameWord.trans (headIs_of_takeWhile.mpr ends))
      constructor
      · rw [List.flatMap_cons, Piece.render, List.cons_append, List.cons_append,
          List.takeWhile_cons_of_neg (by simp [unmarked]),
          List.takeWhile_cons_of_neg (by simp [unmarked])]
      · intro other same
        rw [List.flatMap_cons, Piece.render, List.cons_append, List.cons_append, mentions, mentions,
          if_pos ⟨rfl, same.trans free⟩, if_pos ⟨rfl, free⟩, newWord.takeWhile ended,
          oldWord.takeWhile ends, mentions_unmarked (apart newWord), mentions_unmarked (apart oldWord),
          sameMentions, List.map_append, List.map_singleton, rename, if_pos rfl]
        · rw [List.reverse_cons, List.append_assoc]
          rfl
        · rw [blocked newWord, List.reverse_cons, List.append_assoc, blocked oldWord])
    [] text
  exact general.2 [] rfl

end Mentions

end LibarenaRs.Regex
