import LibarenaRs.Linker.ReturnTypes
import LibarenaRs.Llvm.Attributes
import LibarenaRs.Regex.RunOn
import Mathlib.Data.List.TakeWhile

/-!
# The type on the signature line of a function

What the pattern for types reads follows from the shape of the signature: a blank must stand
somewhere in front of the last word of the type, and the printed name must have plain
characters up to its first parenthesis.
-/

namespace LibarenaRs.Llvm

open LibarenaRs.Regex LibarenaRs.Linker

theorem nonSpace_of_bareChar {c : Char} (bare : bareChar c = true) : nonSpace c = true := by
  rw [nonSpace, isSpace_of_printable (printable_of_bareChar bare), Bool.not_eq_true', beq_eq_false_iff_ne]
  rintro rfl
  cases bare

theorem nonSpace_of_isDigit {c : Char} (digit : c.isDigit = true) : nonSpace c = true := by
  apply nonSpace_of_bareChar
  rw [bareChar, Char.isAlphanum, digit, Bool.or_true, Bool.true_or, Bool.true_or, Bool.true_or]

/-- A text whose last character is no white space. -/
def EndsBlack (text : Text) : Prop := ∃ front c, text = front ++ [c] ∧ nonSpace c = true

theorem EndsBlack.append {word : Text} (ends : EndsBlack word) (text : Text) :
    EndsBlack (text ++ word) := by
  obtain ⟨front, c, rfl, black⟩ := ends
  exact ⟨text ++ front, c, (List.append_assoc _ _ _).symm, black⟩

theorem endsBlack_of_all {text : Text} (filled : text ≠ []) (black : ∀ c ∈ text, nonSpace c = true) :
    EndsBlack text :=
  ⟨text.dropLast, text.getLast filled, (List.dropLast_append_getLast filled).symm,
    black _ (List.getLast_mem filled)⟩

theorem endsBlack_printNat (n : Nat) : EndsBlack (printNat n) :=
  endsBlack_of_all Nat.toDigits_ne_nil fun c member =>
    nonSpace_of_isDigit (List.all_eq_true.mp (isDigit_printNat n) c member)

theorem endsBlack_printName {name : Text} (named : name ≠ []) : EndsBlack (printName name) := by
  by_cases quoted : needsQuotes name = true
  · rw [printName, if_pos quoted]
    exact ⟨'"' :: name.flatMap escapeChar, '"', rfl, by decide⟩
  · rw [printName, if_neg quoted]
    rw [needsQuotes, Bool.or_eq_true, not_or, Bool.not_eq_true', Bool.not_eq_false] at quoted
    exact endsBlack_of_all named fun c member =>
      nonSpace_of_bareChar (List.all_eq_true.mp quoted.2 c member)

/-- Types end with no white space. -/
theorem IrType.endsBlack_print (type : IrType) : EndsBlack type.print := by
  have closed : ∀ {c : Char}, nonSpace c = true → EndsBlack [c] := fun black => ⟨[], _, rfl, black⟩
  have word : ∀ {text : Text}, text ≠ [] ∧ text.all nonSpace = true → EndsBlack text :=
    fun black => endsBlack_of_all black.1 (List.all_eq_true.mp black.2)
  cases type with
  | void => exact word (by decide)
  | int bits => exact (endsBlack_printNat bits).append ['i']
  | ptr space =>
      rw [IrType.print, printPtr]
      split
      · exact word (by decide)
      · exact (@closed ')' (by decide)).append _
  | floating kind => cases kind <;> exact word (by decide)
  | array count element =>
      rw [IrType.print, ← List.cons_append]
      exact (@closed ']' (by decide)).append _
  | vector scalable count element => exact (@closed '>' (by decide)).append _
  | struct packed fields =>
      cases packed with
      | true =>
          rw [IrType.print, if_pos rfl, ← List.cons_append]
          exact (@closed '>' (by decide)).append _
      | false =>
          rw [IrType.print, if_neg Bool.false_ne_true]
          cases IrType.printAll fields with
          | nil => exact word (by decide)
          | cons first others =>
              rw [printFields]
              · exact (show EndsBlack " \x7d".toList from ⟨[' '], '}', by decide, by decide⟩).append _
              · exact List.cons_ne_nil first others
  | named name =>
      rw [IrType.print]
      cases name with
      | nil => exact word (by decide)
      | cons c name => exact (endsBlack_printName (List.cons_ne_nil c name)).append ['%']
  | numbered index => exact (endsBlack_printNat index).append ['%']

end LibarenaRs.Llvm

namespace LibarenaRs.Linker

open LibarenaRs.Regex LibarenaRs.Llvm

theorem typeIn_cons (c : Char) (rest : Text) :
    typeIn (c :: rest) = ((typeHere (c :: rest)).map Prod.fst).or (typeIn rest) := by
  rw [typeIn, places, places_past typeHere [c] [], typeIn]
  cases typeHere (c :: rest) <;> rfl

/-- No type starts behind a word. -/
theorem typeIn_word {word : Text} (black : ∀ c ∈ word, nonSpace c = true) (tail : Text) :
    typeIn (word ++ tail) = typeIn tail := by
  induction word with
  | nil => rfl
  | cons c word inductionHypothesis =>
      have inWord : isSpace c = false := by simpa [nonSpace] using black c List.mem_cons_self
      rw [List.cons_append, typeIn_cons, typeHere, inWord, if_neg Bool.false_ne_true,
        inductionHypothesis fun d member => black d (List.mem_cons_of_mem c member)]
      rfl

/-- No `@` behind the next white space, no type. -/
theorem closeType_clear {front behind : Text} {blank : Char} (white : isSpace blank = true)
    (clear : '@' ∉ front) (behindClear : headIs (· == '@') behind = false) (word : Text) :
    closeType word ((front ++ blank :: behind).dropWhile nonSpace) = none := by
  have stops : ¬nonSpace blank = true := by rw [nonSpace, white]; decide
  have refuse : ∀ (d : Char) (rest : Text), headIs (· == '@') rest = false →
      closeType word (d :: rest) = none := by
    intro d rest refused
    unfold closeType
    split
    · rename_i same
      obtain ⟨-, rfl⟩ := List.cons.inj same
      cases refused
    · rfl
  induction front with
  | nil =>
      rw [List.nil_append, List.dropWhile_cons_of_neg stops]
      exact refuse blank behind behindClear
  | cons c front inductionHypothesis =>
      have frontClear : '@' ∉ front := fun member => clear (List.mem_cons_of_mem _ member)
      rw [List.cons_append]
      by_cases inWord : nonSpace c = true
      · rw [List.dropWhile_cons_of_pos inWord]
        exact inductionHypothesis frontClear
      · rw [List.dropWhile_cons_of_neg inWord]
        apply refuse
        cases front with
        | nil =>
            have different : blank ≠ '@' := by rintro rfl; cases white
            simpa [headIs] using different
        | cons d front =>
            have different : d ≠ '@' := fun equality => frontClear (by simp [equality])
            simpa [headIs] using different

/-- No type without a sign behind it. -/
theorem closeType_absent {text : Text} (clear : '@' ∉ text) (word : Text) :
    closeType word text = none := by
  unfold closeType
  split
  · exact absurd (List.mem_cons_of_mem _ List.mem_cons_self) clear
  · rfl

theorem typeHere_absent {c : Char} {text : Text}
    (clear : '@' ∉ text.dropWhile nonSpace) : typeHere (c :: text) = none := by
  rw [typeHere, closeType_absent clear]
  split <;> rfl

theorem typeIn_absent {text : Text} (clear : '@' ∉ text) : typeIn text = none := by
  induction text with
  | nil => rfl
  | cons c text inductionHypothesis =>
      have rest : '@' ∉ text := fun member => clear (List.mem_cons_of_mem c member)
      rw [typeIn_cons, typeHere_absent fun member => rest ((List.dropWhile_suffix _).subset member),
        inductionHypothesis rest]
      rfl

theorem typeIn_sign {tail : Text} (clear : '@' ∉ tail) : typeIn (' ' :: '@' :: tail) = none := by
  have rest : '@' ∉ tail.dropWhile nonSpace := fun member =>
    clear ((List.dropWhile_suffix _).subset member)
  rw [typeIn_cons, typeHere_absent, typeIn_cons, typeHere_absent rest, typeIn_absent clear]
  · rfl
  · rwa [List.dropWhile_cons_of_pos (by decide)]

/-- Only the last white space in front of a word and a symbol counts. -/
theorem typeIn_front {front word : Text} {blank : Char} (white : isSpace blank = true)
    (clear : '@' ∉ front) (wordClear : '@' ∉ word) (filled : word ≠ []) (tail : Text) :
    typeIn (front ++ blank :: (word ++ tail)) = typeIn (blank :: (word ++ tail)) := by
  have behindClear : headIs (· == '@') (word ++ tail) = false := by
    cases word with
    | nil => exact absurd rfl filled
    | cons c word =>
        have different : c ≠ '@' := fun equality => wordClear (by simp [equality])
        simpa [headIs] using different
  induction front with
  | nil => rfl
  | cons c front inductionHypothesis =>
      have frontClear : '@' ∉ front := fun member => clear (List.mem_cons_of_mem _ member)
      have nothing : typeHere (c :: (front ++ blank :: (word ++ tail))) = none := by
        rw [typeHere, closeType_clear white frontClear behindClear]
        split <;> rfl
      rw [List.cons_append, typeIn_cons, nothing, inductionHypothesis frontClear]
      rfl

/-- White space, a word, a blank and a sign: the word is the type if the symbol can be read. -/
theorem typeIn_here {word : Text} {blank : Char} (white : isSpace blank = true) (filled : word ≠ [])
    (black : ∀ c ∈ word, nonSpace c = true) (tail : Text) :
    typeIn (blank :: (word ++ ' ' :: '@' :: tail)) =
      if (closeSymbol (tail.takeWhile quotedChar) (tail.dropWhile quotedChar)).isSome then some word
      else typeIn (' ' :: '@' :: tail) := by
  have all : word.all nonSpace = true := List.all_eq_true.mpr black
  have here : typeHere (blank :: (word ++ ' ' :: '@' :: tail)) =
      (closeSymbol (tail.takeWhile quotedChar) (tail.dropWhile quotedChar)).map
        fun place => (word, place.2) := by
    rw [typeHere, if_pos white, takeWhile_stop all (by decide), dropWhile_stop all (by decide),
      closeType, if_neg filled]
  rw [typeIn_cons, here, typeIn_word black]
  cases closeSymbol (tail.takeWhile quotedChar) (tail.dropWhile quotedChar) <;> rfl

end LibarenaRs.Linker

namespace LibarenaRs.Llvm.Header

open LibarenaRs.Regex LibarenaRs.Linker

variable (header : Header)

/-- The printed name has only characters of `[A-Za-z0-9_.$"]` up to its first parenthesis. -/
def Readable : Prop := ((printName header.name).takeWhile (· != '(')).all quotedChar = true

instance : Decidable header.Readable := inferInstanceAs (Decidable (_ = _))

/-- More than one word stands in front of the symbol. -/
def Qualified : Prop := header.lead ≠ [] ∨ header.returns.print.any isSpace = true

instance : Decidable header.Qualified := inferInstanceAs (Decidable (_ ∨ _))

/-- The last word of the type. -/
def lastWord : Text := (header.returns.print.reverse.takeWhile nonSpace).reverse

/-- What stands behind the sign of the symbol. -/
def symbolTail : Text := printName header.name ++ '(' :: header.after

/-- What the signature line gives as the type of the function, by its shape.  Another sign
than the symbol's, as in a quoted attribute, leaves it to the pattern. -/
def reading : Option Text :=
  if '@' ∈ header.before then typeIn header.print
  else if header.Qualified ∧ header.Readable then some header.lastWord
  else if '@' ∈ header.symbolTail then typeIn (' ' :: '@' :: header.symbolTail)
  else none

theorem readable_iff :
    (closeSymbol (header.symbolTail.takeWhile quotedChar)
      (header.symbolTail.dropWhile quotedChar)).isSome = true ↔ header.Readable := by
  have noParenthesis : quotedChar '(' = false := by decide
  have first : ∃ c rest, printName header.name = c :: rest ∧ c ≠ '(' := by
    by_cases quoted : needsQuotes header.name = true
    · exact ⟨'"', _, by rw [printName, if_pos quoted]; rfl, by decide⟩
    · rw [printName, if_neg quoted]
      rw [needsQuotes, Bool.or_eq_true, not_or, Bool.not_eq_true', Bool.not_eq_false] at quoted
      cases shape : header.name with
      | nil => exact absurd shape header.named
      | cons c rest =>
          refine ⟨c, rest, rfl, ?_⟩
          rintro rfl
          rw [shape, List.all_cons, Bool.and_eq_true] at quoted
          exact absurd quoted.2.1 (by decide)
  have before : header.symbolTail.takeWhile (· != '(') =
      (printName header.name).takeWhile (· != '(') := by
    rw [symbolTail, takeWhile_append_stops (by rfl)]
  have rest : ∃ more, header.symbolTail =
      (printName header.name).takeWhile (· != '(') ++ '(' :: more := by
    have member : '(' ∈ header.symbolTail := by simp [symbolTail]
    obtain ⟨more, dropped⟩ := Pattern.dropWhile_at_closer member
    have split := @List.takeWhile_append_dropWhile _ (· != '(') header.symbolTail
    rw [before, dropped] at split
    exact ⟨more, split.symm⟩
  obtain ⟨more, split⟩ := rest
  rw [Readable]
  constructor
  · intro some_
    obtain ⟨place, closed⟩ := Option.isSome_iff_exists.mp some_
    obtain ⟨-, -, closes⟩ := closeSymbol_eq_some closed
    have cut := @List.takeWhile_append_dropWhile _ quotedChar header.symbolTail
    rw [closes] at cut
    have clean : ∀ c ∈ header.symbolTail.takeWhile quotedChar, (c != '(') = true := by
      intro c member
      apply bne_iff_ne.mpr
      rintro rfl
      have accepted := List.mem_takeWhile_imp member
      rw [noParenthesis] at accepted
      cases accepted
    have same : (printName header.name).takeWhile (· != '(') =
        header.symbolTail.takeWhile quotedChar := by
      rw [← before]
      conv_lhs => rw [← cut]
      exact takeWhile_stop (List.all_eq_true.mpr clean) (by rfl)
    rw [same]
    exact List.all_takeWhile
  · intro all
    obtain ⟨c, others, name, different⟩ := first
    have accepted : (c != '(') = true := bne_iff_ne.mpr different
    rw [split, takeWhile_stop all noParenthesis, dropWhile_stop all noParenthesis, name,
      List.takeWhile_cons, if_pos accepted]
    rfl

theorem lastWord_ne_nil : header.lastWord ≠ [] := by
  obtain ⟨front, c, shape, black⟩ := header.returns.endsBlack_print
  rw [lastWord, shape, List.reverse_append, List.reverse_singleton, List.singleton_append,
    List.takeWhile_cons, if_pos black]
  simp

theorem lastWord_black : ∀ c ∈ header.lastWord, nonSpace c = true := by
  intro c member
  exact List.mem_takeWhile_imp (List.mem_reverse.mp member)

variable {header}

/-- What is qualified has white space in front of the last word of the type. -/
theorem before_split (qualified : header.Qualified) :
    ∃ front blank, isSpace blank = true ∧ header.before = front ++ blank :: header.lastWord := by
  have split := @List.takeWhile_append_dropWhile _ nonSpace header.returns.print.reverse
  have mirrored := congrArg List.reverse split
  rw [List.reverse_append, List.reverse_reverse, ← lastWord] at mirrored
  cases shape : header.returns.print.reverse.dropWhile nonSpace with
  | nil =>
      -- the type is one word, so a word stands in front of it
      rw [shape, List.reverse_nil, List.nil_append] at mirrored
      have oneWord : header.returns.print.any isSpace = false := by
        rw [List.any_eq_false]
        intro c member
        have black := List.dropWhile_eq_nil_iff.mp shape c (List.mem_reverse.mpr member)
        rwa [nonSpace, Bool.not_eq_true', ← Bool.not_eq_true] at black
      have lead : header.lead ≠ [] := by
        rcases qualified with lead | returns
        · exact lead
        · rw [oneWord] at returns
          cases returns
      obtain ⟨text, ends⟩ := header.lead_ends.resolve_left lead
      refine ⟨text, ' ', by decide, ?_⟩
      rw [before, ends, mirrored, List.append_assoc]
      rfl
  | cons blank more =>
      have stopped := @List.head?_dropWhile_not _ nonSpace header.returns.print.reverse
      rw [shape] at stopped mirrored
      refine ⟨header.lead ++ more.reverse, blank, by simpa [nonSpace] using stopped, ?_⟩
      rw [before, ← mirrored]
      simp

theorem before_black (bare : ¬header.Qualified) : ∀ c ∈ header.before, nonSpace c = true := by
  intro c member
  rw [Qualified, not_or, not_not] at bare
  rw [before, bare.1, List.nil_append] at member
  rw [nonSpace, Bool.not_eq_true']
  exact Bool.eq_false_iff.mpr (List.any_eq_false.mp (Bool.eq_false_iff.mpr bare.2) c member)

/-- The shape of the signature says what is read. -/
theorem typeIn_print (header : Header) : typeIn header.print = header.reading := by
  have print : header.print = header.before ++ ' ' :: '@' :: header.symbolTail := by
    unfold Header.print symbolTail
    simp
  have behind : typeIn (' ' :: '@' :: header.symbolTail) =
      if '@' ∈ header.symbolTail then typeIn (' ' :: '@' :: header.symbolTail) else none := by
    split
    · rfl
    · rename_i clear
      exact typeIn_sign clear
  by_cases quoted : '@' ∈ header.before
  · rw [reading, if_pos quoted]
  · rw [reading, if_neg quoted, print, ← behind]
    by_cases qualified : header.Qualified
    · obtain ⟨front, blank, white, split⟩ := before_split qualified
      have clear := quoted
      rw [split, List.mem_append, List.mem_cons, not_or, not_or] at clear
      rw [split, List.append_assoc, List.cons_append,
        typeIn_front white clear.1 clear.2.2 header.lastWord_ne_nil,
        typeIn_here white header.lastWord_ne_nil header.lastWord_black]
      simp only [header.readable_iff, qualified, true_and]
    · rw [typeIn_word (before_black qualified), if_neg fun both => qualified both.1]

end LibarenaRs.Llvm.Header
