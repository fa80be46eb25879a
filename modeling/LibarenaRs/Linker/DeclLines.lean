import LibarenaRs.Linker.LateStages

/-!
# The ids that declarations carry

A declaration `declare !dbg !N …` carries the id of its prototype.  The pass puts
ids of its own in front of declarations; those that stand there already stay.
-/

namespace LibarenaRs.Linker

open LibarenaRs.Regex LibarenaRs.Llvm

/-! ## Reading a line -/

def tagWord : Text := "declare !dbg !".toList

/-- The id that a declaration carries. -/
def attachedId (line : Text) : Option Nat :=
  if tagWord <+: line ∧ (line.drop tagWord.length).takeWhile Char.isDigit ≠ [] then
    some (readNat ((line.drop tagWord.length).takeWhile Char.isDigit))
  else none

/-- The ids that the declarations of a text carry, in order. -/
def attachedIds (text : Text) : List Nat := (splitLines text).filterMap attachedId

def lineAttached (line : Text) : List Nat := (attachedId line).toList

theorem attachedIds_eq (text : Text) : attachedIds text = readFrom lineAttached [] text := by
  rw [readFrom_nil, attachedIds, List.filterMap_eq_flatMap_toList]
  rfl

/-- The lines that carry an id only when the word `noreturn` is taken out. -/
def veilMarks (line : Text) : List Unit :=
  if "declare noreturn!".toList <+: line ∨ "declare !dbg noreturn!".toList <+: line then [()] else []

theorem lineAttached_tagWord (rest : Text) :
    lineAttached (tagWord ++ rest) =
      if rest.takeWhile Char.isDigit = [] then []
      else [readNat (rest.takeWhile Char.isDigit)] := by
  have starts : tagWord <+: tagWord ++ rest := List.prefix_append _ _
  rw [lineAttached, attachedId, List.drop_left]
  by_cases empty : rest.takeWhile Char.isDigit = []
  · rw [if_neg (fun both => both.2 empty), if_pos empty]
    rfl
  · rw [if_pos ⟨starts, empty⟩, if_neg empty]
    rfl

theorem lineAttached_other {line : Text} (other : ¬tagWord <+: line) : lineAttached line = [] := by
  rw [lineAttached, attachedId, if_neg fun both => other both.1]
  rfl

/-- Both readings need a word with its sign at the start. -/
theorem not_prefix_of_blank {c : Char} (white : isSpace c = true) {rest : Text} (line : Text) :
    ¬('d' :: rest <+: c :: line) := by
  intro starts
  obtain ⟨rfl, -⟩ := List.cons_prefix_cons.mp starts
  cases white

theorem reads_lineAttached : Reads lineAttached lineAttached where
  settles {word} breaks front more := by
    have stops : headIs Char.isDigit (word ++ more) = false := by
      have starts := breaks.starts
      cases shape : word with
      | nil => exact absurd shape breaks.ne_nil
      | cons c rest => rwa [shape] at starts
    have same := @prefix_of_breaks tagWord _ '!' rfl breaks.plain.1 (by decide) breaks.foreign
    by_cases starts : tagWord <+: front
    · obtain ⟨rest, rfl⟩ := starts
      rw [List.append_assoc, lineAttached_tagWord, lineAttached_tagWord, takeWhile_append_stops stops]
    · rw [lineAttached_other starts, lineAttached_other fun longer => starts ((same front more).mp longer)]
  blank c line white := lineAttached_other (not_prefix_of_blank white line)
  empty := rfl
  stemEmpty := rfl

theorem reads_veilMarks : Reads veilMarks veilMarks where
  settles {word} breaks front more := by
    have first := @prefix_of_breaks "declare noreturn!".toList _ '!' rfl breaks.plain.1 (by decide)
      breaks.foreign
    have second := @prefix_of_breaks "declare !dbg noreturn!".toList _ '!' rfl breaks.plain.1
      (by decide) breaks.foreign
    simp only [veilMarks, first, second]
  blank c line white :=
    if_neg fun either => either.elim (not_prefix_of_blank white line) (not_prefix_of_blank white line)
  empty := rfl
  stemEmpty := rfl

theorem signed_lineAttached : Signed lineAttached := fun line noSign =>
  lineAttached_other fun starts => noSign (starts.subset (by decide))

theorem signed_veilMarks : Signed veilMarks := fun line noSign =>
  if_neg fun either => either.elim (fun starts => noSign (starts.subset (by decide)))
    fun starts => noSign (starts.subset (by decide))

theorem tagOf_eq (id : Nat) : tagOf id = tagWord ++ printNat id := by
  have split : tagWord = tagStart ++ ['!'] := by decide
  rw [split, tagOf, List.append_assoc]
  rfl

/-- A tag carries its id. -/
theorem lineAttached_tagOf (id : Nat) (rest : Text) : lineAttached (tagOf id ++ ' ' :: rest) = [id] := by
  have value : readNat (printNat id) = id := by simp [readNat, printNat]
  have filled : printNat id ≠ [] := Nat.toDigits_ne_nil
  rw [tagOf_eq, List.append_assoc, lineAttached_tagWord,
    takeWhile_stop (isDigit_printNat id) (by decide), if_neg filled, value]

theorem veilMarks_tagOf (id : Nat) (rest : Text) : veilMarks (tagOf id ++ rest) = [] := by
  have starts : tagWord <+: tagOf id ++ rest := by
    rw [tagOf_eq, List.append_assoc]
    exact List.prefix_append _ _
  apply if_neg
  rintro (veil | veil)
  · rcases List.prefix_or_prefix_of_prefix starts veil with within | within <;>
      exact absurd within (by decide)
  · rcases List.prefix_or_prefix_of_prefix starts veil with within | within <;>
      exact absurd within (by decide)

theorem trims_lineAttached : Trims lineAttached := by
  intro line blanks white
  by_cases starts : tagWord <+: line
  · obtain ⟨rest, rfl⟩ := starts
    rw [List.append_assoc, lineAttached_tagWord, lineAttached_tagWord,
      takeWhile_append_stops (noDigit_of_blanks white)]
  · have same := @prefix_append_blanks tagWord _ '!' rfl (by decide) white line
    rw [lineAttached_other starts, lineAttached_other fun longer => starts (same.mp longer)]

/-! ## The word that is taken out -/

/-- The places of the word at which both neighbours are in no word. -/
theorem tagWord_gaps {front back : Text} (parts : tagWord = front ++ back) (filled : back ≠ [])
    (before : headIs isWord front.reverse = false) (behind : headIs isWord back = false) :
    (front = "declare ".toList ∨ front = "declare !dbg ".toList) ∧ ∃ rest, back = '!' :: rest := by
  have gaps : ∀ n < tagWord.length, headIs isWord (tagWord.take n).reverse = false →
      headIs isWord (tagWord.drop n) = false →
        (tagWord.take n = "declare ".toList ∨ tagWord.take n = "declare !dbg ".toList) ∧
          (tagWord.drop n).head? = some '!' := by
    decide
  have first : tagWord.take front.length = front := by rw [parts, List.take_left]
  have rest : tagWord.drop front.length = back := by rw [parts, List.drop_left]
  have shorter : front.length < tagWord.length := by
    have positive := List.length_pos_of_ne_nil filled
    rw [parts, List.length_append]
    omega
  have found := gaps front.length shorter (by rwa [first]) (by rwa [rest])
  rw [first, rest] at found
  exact ⟨found.1, List.head?_eq_some_iff.mp found.2⟩

/-- A line that no word veils carries what it did. -/
theorem lineAttached_withoutNoreturn {line : Text} (clear : veilMarks line = []) :
    lineAttached (withoutNoreturn [] line) = lineAttached line := by
  by_cases starts : tagWord <+: line
  · obtain ⟨rest, rfl⟩ := starts
    rw [withoutNoreturn_append (by decide), lineAttached_tagWord, lineAttached_tagWord,
      (digits_withoutNoreturn _ rest).1]
  · rw [lineAttached_other starts]
    apply lineAttached_other
    intro shown
    rcases prefix_of_withoutNoreturn shown with whole |
      ⟨front, back, left, parts, filled, rfl, before, behind, past, onward⟩
    · exact starts whole
    · -- what stands behind the word is its last sign
      have head : ∀ c rest, back = c :: rest → ∃ more, left = c :: more := by
        rintro c rest rfl
        cases left with
        | nil =>
            obtain ⟨more, same⟩ := onward
            cases same
        | cons d left =>
            have other : d ≠ 'n' := by
              rintro rfl
              cases behind
            rw [withoutNoreturn_keeps other, List.cons_prefix_cons] at onward
            exact ⟨left, by rw [onward.1]⟩
      have gap : headIs isWord back = false := by
        cases back with
        | nil => rfl
        | cons c rest =>
            obtain ⟨more, rfl⟩ := head c rest rfl
            exact behind
      rw [List.append_nil] at before
      obtain ⟨places, rest, rfl⟩ := tagWord_gaps parts filled before gap
      obtain ⟨more, rfl⟩ := head '!' rest rfl
      have veiled : "declare noreturn!".toList <+: front ++ ("noreturn".toList ++ '!' :: more) ∨
          "declare !dbg noreturn!".toList <+: front ++ ("noreturn".toList ++ '!' :: more) := by
        rcases places with rfl | rfl
        · exact Or.inl ⟨more, rfl⟩
        · exact Or.inr ⟨more, rfl⟩
      rw [veilMarks, if_pos veiled] at clear
      cases clear

end LibarenaRs.Linker
