import Mathlib.Data.List.SplitBy
import Mathlib.Data.List.TakeWhile
import LibarenaRs.Regex.Lines

/-!
# Fields

A text is cut into the longest words without white space.  What counts as white space
differs between the languages of the scripts and of the linker.
-/

namespace LibarenaRs.Regex

variable {white : Char → Bool}

def fields (white : Char → Bool) (text : Text) : List Text :=
  (text.splitBy fun c d => !white c && !white d).filter fun word => !word.any white

/-- A word of its own: not empty, and no white space in it. -/
structure Black (white : Char → Bool) (word : Text) : Prop where
  filled : word ≠ []
  all : word.any white = false

theorem Black.rejects {word : Text} (black : Black white word) {c : Char} (member : c ∈ word) :
    white c = false := by
  cases here : white c with
  | false => rfl
  | true =>
      have some_ : word.any white = true := List.any_eq_true.mpr ⟨c, member, here⟩
      rw [black.all] at some_
      cases some_

theorem Black.surround {before word after : Text} (black : Black white word)
    (first : before.any white = false) (last : after.any white = false) :
    Black white (before ++ word ++ after) := by
  constructor
  · exact List.append_ne_nil_of_left_ne_nil (List.append_ne_nil_of_right_ne_nil _ black.filled) _
  · rw [List.any_append, List.any_append, first, black.all, last]
    rfl

/-- White space in front of a text is split off in one way. -/
theorem split_white {spaces others first second : Text} (allWhite : ∀ c ∈ spaces, white c = true)
    (othersWhite : ∀ c ∈ others, white c = true) (inFirst : headIs white first = false)
    (inSecond : headIs white second = false) (same : spaces ++ first = others ++ second) :
    spaces = others ∧ first = second := by
  have read := congrArg (List.takeWhile white) same
  rw [takeWhile_append_stops inFirst, takeWhile_append_stops inSecond,
    List.takeWhile_eq_self_iff.mpr allWhite, List.takeWhile_eq_self_iff.mpr othersWhite] at read
  subst read
  exact ⟨rfl, List.append_cancel_left same⟩

/-- And so is the white space behind one. -/
theorem split_white_end {spaces others first second : Text}
    (allWhite : ∀ c ∈ spaces, white c = true) (othersWhite : ∀ c ∈ others, white c = true)
    (inFirst : headIs white first.reverse = false) (inSecond : headIs white second.reverse = false)
    (same : first ++ spaces = second ++ others) : first = second ∧ spaces = others := by
  have reversed := congrArg List.reverse same
  rw [List.reverse_append, List.reverse_append] at reversed
  obtain ⟨behind, front⟩ := split_white (fun c member => allWhite c (List.mem_reverse.mp member))
    (fun c member => othersWhite c (List.mem_reverse.mp member)) inFirst inSecond reversed
  exact ⟨List.reverse_injective front, List.reverse_injective behind⟩

theorem black_of_mem_fields {text word : Text} (member : word ∈ fields white text) :
    Black white word := by
  rw [fields, List.mem_filter] at member
  exact ⟨List.ne_nil_of_mem_splitBy member.1, by simpa using member.2⟩

theorem fields_black {word : Text} (black : Black white word) : fields white word = [word] := by
  have chain : word.IsChain fun c d => (!white c && !white d) = true := by
    apply List.Pairwise.isChain
    apply List.pairwise_of_forall_mem_list
    intro c first d second
    rw [black.rejects first, black.rejects second]
    rfl
  rw [fields, List.splitBy_of_isChain black.filled chain, List.filter_cons_of_pos]
  · rfl
  · simp [black.all]

theorem fields_append_white {c : Char} (space : white c = true) (first second : Text) :
    fields white (first ++ c :: second) = fields white first ++ fields white second := by
  have cut : ∀ text : Text, fields white (text ++ c :: second) =
      fields white text ++ fields white (c :: second) := by
    intro text
    rw [fields, List.splitBy_append_cons, List.filter_append]
    · rfl
    · intro d _
      simp [space]
  have alone : fields white [c] = [] := by
    simp [fields, List.splitBy, List.splitBy.loop, space]
  have skipped : fields white ([c] ++ second) = fields white [c] ++ fields white second := by
    rw [fields, List.splitBy_append, List.filter_append]
    · rfl
    · intro d member e _
      obtain rfl : c = d := by simpa using member
      simp [space]
  rw [cut, show c :: second = [c] ++ second from rfl, skipped, alone, List.nil_append]

theorem fields_nil : fields white [] = [] := rfl

/-- White space in front of a text does not count. -/
theorem fields_white_append {spaces : Text} (allWhite : ∀ c ∈ spaces, white c = true)
    (text : Text) : fields white (spaces ++ text) = fields white text := by
  induction spaces with
  | nil => rfl
  | cons c spaces inductionHypothesis =>
      have behind := fields_append_white (allWhite c List.mem_cons_self) [] (spaces ++ text)
      rw [List.cons_append, ← List.nil_append (c :: _), behind, fields_nil, List.nil_append]
      exact inductionHypothesis fun d member => allWhite d (List.mem_cons_of_mem _ member)

/-- Nor does it behind a text. -/
theorem fields_append_spaces {spaces : Text} (allWhite : ∀ c ∈ spaces, white c = true)
    (text : Text) : fields white (text ++ spaces) = fields white text := by
  cases spaces with
  | nil => rw [List.append_nil]
  | cons c spaces =>
      have later := fields_white_append
        (fun d member => allWhite d (List.mem_cons_of_mem c member)) ([] : Text)
      rw [List.append_nil] at later
      rw [fields_append_white (allWhite c List.mem_cons_self), later, fields_nil, List.append_nil]

/-- A word in front of white space is the first. -/
theorem fields_word_append {word spaces : Text} (black : Black white word) (filled : spaces ≠ [])
    (allWhite : ∀ c ∈ spaces, white c = true) (text : Text) :
    fields white (word ++ (spaces ++ text)) = word :: fields white text := by
  cases spaces with
  | nil => exact absurd rfl filled
  | cons c spaces =>
      have skipped := fields_white_append
        (fun d member => allWhite d (List.mem_cons_of_mem c member)) text
      rw [List.cons_append, fields_append_white (allWhite c List.mem_cons_self), fields_black black,
        skipped]
      rfl

/-- Words that are written with white space behind each are read again, in front of any
text. -/
theorem fields_flatMap_append {sep : Char} (space : white sep = true) {words : List Text}
    (black : ∀ word ∈ words, Black white word) (text : Text) :
    fields white ((words.flatMap fun word => word ++ [sep]) ++ text) =
      words ++ fields white text := by
  induction words with
  | nil => rfl
  | cons word words inductionHypothesis =>
      rw [List.flatMap_cons, List.append_assoc, List.append_assoc, List.singleton_append,
        fields_append_white space, fields_black (black word List.mem_cons_self),
        inductionHypothesis fun other member => black other (List.mem_cons_of_mem _ member)]
      rfl

/-- The last word of a text ends as the text does. -/
theorem fields_snoc {c : Char} (black : white c = false) (text : Text) :
    ∃ words word, fields white (text ++ [c]) = words ++ [word ++ [c]] := by
  have word_ : ∀ read : Text, (∀ d ∈ read, white d = false) →
      fields white (read ++ [c]) = [read ++ [c]] := by
    intro read all
    apply fields_black
    constructor
    · exact List.append_ne_nil_of_right_ne_nil _ (List.cons_ne_nil c [])
    · rw [List.any_eq_false]
      intro d member
      rw [Bool.not_eq_true]
      rcases List.mem_append.mp member with inside | last
      · exact all d inside
      · rw [List.mem_singleton.mp last]
        exact black
  have split := @List.takeWhile_append_dropWhile _ (fun d => !white d) text.reverse
  have read : ∀ d ∈ (text.reverse.takeWhile fun d => !white d).reverse, white d = false := by
    intro d member
    simpa using List.mem_takeWhile_imp (List.mem_reverse.mp member)
  have whole : text = (text.reverse.dropWhile fun d => !white d).reverse ++
      (text.reverse.takeWhile fun d => !white d).reverse := by
    rw [← List.reverse_append, split, List.reverse_reverse]
  generalize (text.reverse.takeWhile fun d => !white d).reverse = last at whole read
  rw [whole, List.append_assoc]
  cases before : text.reverse.dropWhile fun d => !white d with
  | nil => exact ⟨[], last, word_ last read⟩
  | cons d before_ =>
      have space : white d = true := by
        have filled : text.reverse.dropWhile (fun d => !white d) ≠ [] := by simp [before]
        have head := List.head_dropWhile_not (fun d => !white d) filled
        simpa [before] using head
      refine ⟨fields white before_.reverse, last, ?_⟩
      rw [List.reverse_cons, List.append_assoc, List.singleton_append, fields_append_white space,
        word_ last read]


/-- The same with the white space between the words, and some behind the last. -/
theorem fields_intercalate {white : Char → Bool} {sep last : Char} (space : white sep = true)
    (ends : white last = true) {words : List Text} (black : ∀ word ∈ words, Black white word) :
    fields white ([sep].intercalate words ++ [last]) = words := by
  induction words with
  | nil =>
      have alone := fields_append_white ends [] []
      rwa [fields_nil] at alone
  | cons word words inductionHypothesis =>
      have first := fields_black (black word List.mem_cons_self)
      have later := inductionHypothesis fun other member => black other (List.mem_cons_of_mem _ member)
      cases words with
      | nil =>
          rw [List.intercalate_singleton, fields_append_white ends, first, fields_nil]
          rfl
      | cons other words =>
          rw [List.intercalate_cons_cons, List.append_assoc, List.append_assoc,
            List.singleton_append, fields_append_white space, first, later]
          rfl

end LibarenaRs.Regex
