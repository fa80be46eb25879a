import LibarenaRs.Regex.Paths

/-!
# The words of a pattern

A pattern without assertions and groups reads its words wherever they stand: where it
can stop is a matter of which words of its language the text starts with.
-/

namespace LibarenaRs.Regex

theorem Cursor.move_move (start : Cursor) (first second between rest : Text) :
    (start.move first between).move second rest = start.move (first ++ second) rest := by
  simp [Cursor.move]

/-- A text is split in one way at the first place of a character. -/
theorem split_first {c : Char} {first second before after : Text} (inFirst : c ∉ first)
    (inSecond : c ∉ second) (same : first ++ c :: before = second ++ c :: after) :
    first = second ∧ before = after := by
  rcases List.append_eq_append_iff.mp same with ⟨more, rfl, rest⟩ | ⟨more, rfl, rest⟩
  · cases more with
    | nil => exact ⟨(List.append_nil first).symm, (List.cons.inj rest).2⟩
    | cons d more =>
        obtain ⟨rfl, -⟩ := List.cons.inj rest
        exact absurd (by simp) inSecond
  · cases more with
    | nil => exact ⟨List.append_nil second, (List.cons.inj rest).2.symm⟩
    | cons d more =>
        obtain ⟨rfl, -⟩ := List.cons.inj rest
        exact absurd (by simp) inFirst

namespace Pattern

/-- Neither assertions nor groups. -/
def free : Pattern → Bool
  | .empty | .lit _ | .chr _ => true
  | .seq first second => first.free && second.free
  | .alt first second => first.free && second.free
  | .star _ body => body.free
  | _ => false

/-- The language of a free pattern. -/
def Words : Pattern → Text → Prop
  | .empty, word => word = []
  | .lit other, word => word = other
  | .chr accepts, word => ∃ c, accepts c = true ∧ word = [c]
  | .seq first second, word =>
      ∃ front back, first.Words front ∧ second.Words back ∧ word = front ++ back
  | .alt first second, word => first.Words word ∨ second.Words word
  | .star _ body, word =>
      ∃ parts : List Text, (∀ part ∈ parts, part ≠ [] ∧ body.Words part) ∧ word = parts.flatten
  | _, _ => False

theorem star_reaches_iff {greedy : Bool} {body : Pattern}
    (reads : ∀ {start stop : Cursor}, body.Reaches start stop ↔
      ∃ word rest, body.Words word ∧ start.rest = word ++ rest ∧ stop = start.move word rest)
    {start stop : Cursor} :
    (star greedy body).Reaches start stop ↔
      ∃ word rest, (star greedy body).Words word ∧ start.rest = word ++ rest ∧
        stop = start.move word rest := by
  constructor
  · intro reached
    induction reached with
    | refl => exact ⟨[], start.rest, ⟨[], by simp, rfl⟩, rfl, rfl⟩
    | tail _ step inductionHypothesis =>
        obtain ⟨_, middle, ⟨parts, all, rfl⟩, split, rfl⟩ := inductionHypothesis
        obtain ⟨part, rest, isWord, last, rfl⟩ := reads.mp step.1
        have filled : part ≠ [] := by
          rintro rfl
          have shorter := step.2
          rw [last] at shorter
          exact Nat.lt_irrefl _ shorter
        change middle = part ++ rest at last
        refine ⟨(parts ++ [part]).flatten, rest, ⟨parts ++ [part], ?_, rfl⟩, ?_, ?_⟩
        · intro other member
          rcases List.mem_append.mp member with earlier | same
          · exact all other earlier
          · rw [List.mem_singleton.mp same]
            exact ⟨filled, isWord⟩
        · rw [split, last]
          simp
        · rw [Cursor.move_move]
          simp
  · rintro ⟨_, rest, ⟨parts, all, rfl⟩, split, rfl⟩
    induction parts generalizing start with
    | nil =>
        have same : start.move [] rest = start := by
          rw [Cursor.move, ← show start.rest = rest from split]
          rfl
        rw [List.flatten_nil, same]
        exact .refl
    | cons part parts inductionHypothesis =>
        obtain ⟨filled, isWord⟩ := all part List.mem_cons_self
        have onward : (star greedy body).Reaches (start.move part (parts.flatten ++ rest))
            ((start.move part (parts.flatten ++ rest)).move parts.flatten rest) :=
          inductionHypothesis (fun other member => all other (List.mem_cons_of_mem _ member)) rfl
        rw [Cursor.move_move] at onward
        refine Relation.ReflTransGen.head ⟨reads.mpr ⟨part, _, isWord, ?_, rfl⟩, ?_⟩ onward
        · rw [split, List.flatten_cons, List.append_assoc]
        · have positive := List.length_pos_of_ne_nil filled
          rw [split]
          simp only [Cursor.move, List.flatten_cons, List.length_append]
          omega

/-- A free pattern stops behind a word of its language. -/
theorem reaches_iff_words {pattern : Pattern} (isFree : pattern.free = true)
    {start stop : Cursor} :
    pattern.Reaches start stop ↔
      ∃ word rest, pattern.Words word ∧ start.rest = word ++ rest ∧
        stop = start.move word rest := by
  induction pattern generalizing start stop with
  | empty =>
      constructor
      · rintro rfl
        exact ⟨[], stop.rest, rfl, rfl, rfl⟩
      · rintro ⟨_, rest, rfl, split, rfl⟩
        rw [Cursor.move, ← show start.rest = rest from split]
        rfl
  | lit other =>
      constructor
      · rintro ⟨rest, split, rfl⟩
        exact ⟨other, rest, rfl, split, rfl⟩
      · rintro ⟨_, rest, rfl, split, rfl⟩
        exact ⟨rest, split, rfl⟩
  | chr accepts =>
      constructor
      · rintro ⟨c, rest, split, accepted, rfl⟩
        exact ⟨[c], rest, ⟨c, accepted, rfl⟩, split, rfl⟩
      · rintro ⟨_, rest, ⟨c, accepted, rfl⟩, split, rfl⟩
        exact ⟨c, rest, split, accepted, rfl⟩
  | seq first second firstReads secondReads =>
      rw [free, Bool.and_eq_true] at isFree
      constructor
      · rintro ⟨_, before, after⟩
        obtain ⟨front, middle, isFront, split, rfl⟩ := (firstReads isFree.1).mp before
        obtain ⟨back, rest, isBack, last, rfl⟩ := (secondReads isFree.2).mp after
        change middle = back ++ rest at last
        refine ⟨front ++ back, rest, ⟨front, back, isFront, isBack, rfl⟩, ?_, ?_⟩
        · rw [split, last, List.append_assoc]
        · rw [Cursor.move_move]
      · rintro ⟨_, rest, ⟨front, back, isFront, isBack, rfl⟩, split, rfl⟩
        refine ⟨start.move front (back ++ rest), (firstReads isFree.1).mpr ?_,
          (secondReads isFree.2).mpr ?_⟩
        · exact ⟨front, _, isFront, by rw [split, List.append_assoc], rfl⟩
        · exact ⟨back, rest, isBack, rfl, (Cursor.move_move ..).symm⟩
  | alt first second firstReads secondReads =>
      rw [free, Bool.and_eq_true] at isFree
      constructor
      · rintro (reached | reached)
        · obtain ⟨word, rest, isWord, split, rfl⟩ := (firstReads isFree.1).mp reached
          exact ⟨word, rest, Or.inl isWord, split, rfl⟩
        · obtain ⟨word, rest, isWord, split, rfl⟩ := (secondReads isFree.2).mp reached
          exact ⟨word, rest, Or.inr isWord, split, rfl⟩
      · rintro ⟨word, rest, isWord | isWord, split, rfl⟩
        · exact Or.inl ((firstReads isFree.1).mpr ⟨word, rest, isWord, split, rfl⟩)
        · exact Or.inr ((secondReads isFree.2).mpr ⟨word, rest, isWord, split, rfl⟩)
  | star greedy body bodyReads => exact star_reaches_iff (bodyReads isFree)
  | group | textStart | textEnd | lineStart | lineEnd | wordBoundary | notAhead | notBehind =>
      cases isFree

/-- A group around a free pattern keeps the word it read. -/
theorem group_reaches_iff {index : Nat} {body : Pattern} (isFree : body.free = true)
    {start stop : Cursor} :
    (group index body).Reaches start stop ↔
      ∃ word rest, body.Words word ∧ start.rest = word ++ rest ∧
        stop = ⟨word.reverse ++ start.past, rest, (index, word) :: start.groups⟩ := by
  have closed : ∀ {word rest : Text}, start.rest = word ++ rest →
      (start.move word rest).close index start.rest =
        ⟨word.reverse ++ start.past, rest, (index, word) :: start.groups⟩ := by
    intro word rest split
    simp [Cursor.close, Cursor.move, split]
  constructor
  · rintro ⟨_, reached, rfl⟩
    obtain ⟨word, rest, isWord, split, rfl⟩ := (reaches_iff_words isFree).mp reached
    exact ⟨word, rest, isWord, split, closed split⟩
  · rintro ⟨word, rest, isWord, split, rfl⟩
    refine ⟨start.move word rest, ?_, (closed split).symm⟩
    exact (reaches_iff_words isFree).mpr ⟨word, rest, isWord, split, rfl⟩

/-- The words of a repeated class. -/
theorem words_star_chr {greedy : Bool} {accepts : Char → Bool} {word : Text} :
    (star greedy (chr accepts)).Words word ↔ ∀ c ∈ word, accepts c = true := by
  constructor
  · rintro ⟨parts, all, rfl⟩ c member
    obtain ⟨part, among, inside⟩ := List.mem_flatten.mp member
    obtain ⟨-, d, accepted, rfl⟩ := all part among
    rwa [List.mem_singleton.mp inside]
  · intro all
    refine ⟨word.map fun c => [c], ?_, ?_⟩
    · intro part member
      obtain ⟨c, among, rfl⟩ := List.mem_map.mp member
      exact ⟨List.cons_ne_nil c [], c, all c among, rfl⟩
    · induction word with
      | nil => rfl
      | cons c word inductionHypothesis =>
          rw [List.map_cons, List.flatten_cons,
            ← inductionHypothesis fun d member => all d (List.mem_cons_of_mem _ member)]
          rfl

/-- The words of a class that is repeated at least once. -/
theorem words_plus_chr {greedy : Bool} {accepts : Char → Bool} {word : Text} :
    (plus greedy (chr accepts)).Words word ↔ word ≠ [] ∧ ∀ c ∈ word, accepts c = true := by
  constructor
  · rintro ⟨_, more, ⟨c, accepted, rfl⟩, loop, rfl⟩
    refine ⟨List.cons_ne_nil c more, ?_⟩
    intro d member
    rcases List.mem_cons.mp member with rfl | later
    · exact accepted
    · exact words_star_chr.mp loop d later
  · rintro ⟨filled, all⟩
    cases word with
    | nil => exact absurd rfl filled
    | cons c word =>
        exact ⟨[c], word, ⟨c, all c List.mem_cons_self, rfl⟩,
          words_star_chr.mpr fun d member => all d (List.mem_cons_of_mem _ member), rfl⟩

end Pattern

end LibarenaRs.Regex
