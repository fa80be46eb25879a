import LibarenaRs.Llvm.Attributes
import LibarenaRs.Regex.Insertion

/-!
# Subprogram nodes and the functions they describe

A `DISubprogram` node prints its `spFlags` between its other fields.  The flags of
a line are what stands behind the first such field outside of quotes.
-/

namespace LibarenaRs.Llvm

open LibarenaRs.Regex

/-! ## Flags -/

/-- In the order in which the printer goes through the bits. -/
inductive SpFlag where
  | virtual | pureVirtual | localToUnit | definition | optimized | pure_ | elemental | recursive
  | mainSubprogram | deleted | objCDirect
  deriving DecidableEq, Repr

def SpFlag.rank : SpFlag → Nat
  | .virtual => 0
  | .pureVirtual => 1
  | .localToUnit => 2
  | .definition => 3
  | .optimized => 4
  | .pure_ => 5
  | .elemental => 6
  | .recursive => 7
  | .mainSubprogram => 8
  | .deleted => 9
  | .objCDirect => 10

def SpFlag.print : SpFlag → Text
  | .virtual => "DISPFlagVirtual".toList
  | .pureVirtual => "DISPFlagPureVirtual".toList
  | .localToUnit => "DISPFlagLocalToUnit".toList
  | .definition => "DISPFlagDefinition".toList
  | .optimized => "DISPFlagOptimized".toList
  | .pure_ => "DISPFlagPure".toList
  | .elemental => "DISPFlagElemental".toList
  | .recursive => "DISPFlagRecursive".toList
  | .mainSubprogram => "DISPFlagMainSubprogram".toList
  | .deleted => "DISPFlagDeleted".toList
  | .objCDirect => "DISPFlagObjCDirect".toList

structure SpFlags where
  flags : List SpFlag
  ordered : flags.Pairwise fun first second => first.rank < second.rank

/-- What is printed between the bars; no flag at all is a zero. -/
def SpFlags.words (spFlags : SpFlags) : List Text :=
  if spFlags.flags = [] then ["0".toList] else spFlags.flags.map SpFlag.print

def bar : Text := " | ".toList

def SpFlags.print (spFlags : SpFlags) : Text := List.intercalate bar spFlags.words

/-- What may stand in a field without quotes and parentheses. -/
def fieldChar (c : Char) : Bool := c != ',' && c != ')'

/-- `text.split(' | ')` -/
def splitBar : Text → List Text
  | [] => [[]]
  | ' ' :: '|' :: ' ' :: rest => [] :: splitBar rest
  | c :: rest =>
      match splitBar rest with
      | [] => [[c]]
      | word :: others => (c :: word) :: others

theorem splitBar_ne_nil (text : Text) : splitBar text ≠ [] := by
  fun_cases splitBar text <;> simp

theorem splitBar_cons {c : Char} (different : c ≠ ' ') (rest : Text) :
    ∃ word others, splitBar rest = word :: others ∧ splitBar (c :: rest) = (c :: word) :: others := by
  obtain ⟨word, others, split⟩ := List.exists_cons_of_ne_nil (splitBar_ne_nil rest)
  refine ⟨word, others, split, ?_⟩
  rw [splitBar.eq_3 c rest (by
    rintro more rfl
    exact absurd rfl different), split]

theorem splitBar_word {word : Text} (solid : ' ' ∉ word) (rest : Text) :
    splitBar (word ++ (bar ++ rest)) = word :: splitBar rest ∧ splitBar word = [word] := by
  induction word with
  | nil => exact ⟨rfl, rfl⟩
  | cons c word inductionHypothesis =>
      have different : c ≠ ' ' := fun same => solid (by simp [same])
      obtain ⟨inFront, alone⟩ := inductionHypothesis fun member => solid (List.mem_cons_of_mem _ member)
      constructor
      · obtain ⟨first, others, split, whole⟩ := splitBar_cons different (word ++ (bar ++ rest))
        rw [inFront] at split
        obtain ⟨rfl, rfl⟩ := List.cons.inj split
        exact whole
      · obtain ⟨first, others, split, whole⟩ := splitBar_cons different word
        rw [alone] at split
        obtain ⟨rfl, rfl⟩ := List.cons.inj split
        exact whole

theorem splitBar_intercalate {words : List Text} (filled : words ≠ [])
    (solid : ∀ word ∈ words, ' ' ∉ word) : splitBar (List.intercalate bar words) = words := by
  induction words with
  | nil => exact absurd rfl filled
  | cons word others inductionHypothesis =>
      cases others with
      | nil =>
          rw [List.intercalate_singleton]
          exact (splitBar_word (solid word (by simp)) []).2
      | cons other others =>
          rw [List.intercalate_cons_cons, List.append_assoc,
            (splitBar_word (solid word (by simp)) _).1,
            inductionHypothesis (by simp) fun inner member => solid inner (List.mem_cons_of_mem _ member)]

theorem SpFlags.words_cases (spFlags : SpFlags) {word : Text} (member : word ∈ spFlags.words) :
    word = "0".toList ∨ ∃ flag ∈ spFlags.flags, word = flag.print := by
  unfold words at member
  split at member
  · exact Or.inl (List.mem_singleton.mp member)
  · obtain ⟨flag, among, rfl⟩ := List.mem_map.mp member
    exact Or.inr ⟨flag, among, rfl⟩

theorem SpFlags.words_ne_nil (spFlags : SpFlags) : spFlags.words ≠ [] := by
  unfold words
  split
  · simp
  · rename_i filled
    simpa using filled

theorem SpFlags.words_solid (spFlags : SpFlags) {word : Text} (member : word ∈ spFlags.words) :
    word.all isWord = true := by
  rcases spFlags.words_cases member with rfl | ⟨flag, -, rfl⟩
  · decide
  · cases flag <;> decide

theorem SpFlags.print_chars (spFlags : SpFlags) :
    spFlags.print.all (fun c => isWord c || c == ' ' || c == '|') = true := by
  apply all_intercalate (by decide)
  intro word member
  have solid := spFlags.words_solid member
  rw [List.all_eq_true] at solid ⊢
  intro c inside
  simp [solid c inside]

theorem SpFlags.not_mem_print (spFlags : SpFlags) {c : Char}
    (absent : (isWord c || c == ' ' || c == '|') = false) : c ∉ spFlags.print := by
  intro member
  have accepted := List.all_eq_true.mp spFlags.print_chars c member
  rw [absent] at accepted
  cases accepted

/-- The text behind the first word of the flags. -/
theorem SpFlags.print_split (spFlags : SpFlags) :
    ∃ word others rest, spFlags.words = word :: others ∧ spFlags.print = word ++ rest := by
  obtain ⟨word, others, split⟩ := List.exists_cons_of_ne_nil spFlags.words_ne_nil
  cases others with
  | nil => exact ⟨word, [], [], split, by rw [print, split]; simp⟩
  | cons other others =>
      exact ⟨word, other :: others, bar ++ List.intercalate bar (other :: others), split, by
        rw [print, split, List.intercalate_cons_cons, List.append_assoc]⟩

/-- No other flag starts like this one. -/
theorem SpFlag.localToUnit_prefix {flag : SpFlag} {rest : Text}
    (starts : SpFlag.localToUnit.print <+: flag.print ++ rest) : flag = .localToUnit := by
  obtain ⟨more, same⟩ := starts
  have long : 9 ≤ flag.print.length := by cases flag <;> decide
  have letters := congrArg (List.take 9) same
  rw [List.take_append_of_le_length (by decide), List.take_append_of_le_length long] at letters
  cases flag with
  | localToUnit => rfl
  | virtual | pureVirtual | definition | optimized | pure_ | elemental | recursive
  | mainSubprogram | deleted | objCDirect => exact absurd letters (by decide)

theorem SpFlags.localToUnit_prefix_iff (spFlags : SpFlags) (rest : Text) :
    SpFlag.localToUnit.print <+: spFlags.print ++ rest ↔
      spFlags.flags.head? = some .localToUnit := by
  obtain ⟨word, others, tail, split, printed⟩ := spFlags.print_split
  rw [printed, List.append_assoc]
  cases shape : spFlags.flags with
  | nil =>
      have zero : word = "0".toList := by
        rw [words, if_pos shape] at split
        exact (List.cons.inj split).1.symm
      rw [zero]
      constructor
      · rintro ⟨more, same⟩
        cases (List.cons.inj same).1
      · intro none_
        cases none_
  | cons flag flags =>
      have first : word = flag.print := by
        rw [words, if_neg (by simp [shape]), shape, List.map_cons] at split
        exact (List.cons.inj split).1.symm
      rw [first]
      constructor
      · intro starts
        rw [SpFlag.localToUnit_prefix starts]
        rfl
      · intro same
        rw [Option.some.inj same]
        exact List.prefix_append _ _

/-! ## The flags of a line -/

def spMark : Text := "spFlags: ".toList

/-- The text behind the first mark that no quotes stand around. -/
def behindMark (mark : Text) : Bool → Text → Option Text
  | _, [] => none
  | quoted, c :: rest =>
      if quoted = false ∧ mark <+: c :: rest then some ((c :: rest).drop mark.length)
      else behindMark mark (quoted ^^ (c == '"')) rest

/-- The flags that stand on a line. -/
def flagsOf (line : Text) : Option (List Text) :=
  (behindMark spMark false line).map fun text => splitBar (text.takeWhile fieldChar)

/-- Whether the text behind is inside of quotes. -/
def quotedBehind (quoted : Bool) (text : Text) : Bool :=
  text.foldl (fun quoted c => quoted ^^ (c == '"')) quoted

/-- Quotes stand around each mark between the pieces, and not behind the last one. -/
def Hidden : Bool → Text → List Text → Prop
  | quoted, piece, [] => quotedBehind quoted piece = false
  | quoted, piece, next :: rest => quotedBehind quoted piece = true ∧ Hidden true next rest

section Marks

variable {mark : Text}

theorem quotedBehind_append (quoted : Bool) (first second : Text) :
    quotedBehind quoted (first ++ second) = quotedBehind (quotedBehind quoted first) second :=
  List.foldl_append

theorem quotedBehind_unquoted {text : Text} (unquoted : '"' ∉ text) (quoted : Bool) :
    quotedBehind quoted text = quoted := by
  induction text generalizing quoted with
  | nil => rfl
  | cons c rest inductionHypothesis =>
      have different : (c == '"') = false := by
        simpa using fun same : c = '"' => unquoted (by simp [same])
      have later := inductionHypothesis (fun member => unquoted (List.mem_cons_of_mem _ member)) quoted
      rw [quotedBehind, List.foldl_cons, different, Bool.xor_false]
      exact later

/-- No mark is found where none stands. -/
theorem behindMark_append {text rest : Text} {quoted : Bool}
    (free : ∀ front back, text = front ++ back → back ≠ [] → ¬mark <+: back ++ rest) :
    behindMark mark quoted (text ++ rest) = behindMark mark (quotedBehind quoted text) rest := by
  induction text generalizing quoted with
  | nil => rfl
  | cons c text inductionHypothesis =>
      have here := free [] (c :: text) rfl (by simp)
      rw [List.cons_append] at here ⊢
      rw [behindMark, if_neg fun both => here both.2]
      exact inductionHypothesis fun front back split => free (c :: front) back (by rw [split]; rfl)

/-- Inside of quotes a text without quotes is passed. -/
theorem behindMark_quoted {text : Text} (unquoted : '"' ∉ text) (rest : Text) :
    behindMark mark true (text ++ rest) = behindMark mark true rest := by
  induction text with
  | nil => rfl
  | cons c text inductionHypothesis =>
      have different : (c == '"') = false := by
        simpa using fun same : c = '"' => unquoted (by simp [same])
      rw [List.cons_append, behindMark, if_neg (by simp), different]
      exact inductionHypothesis fun member => unquoted (List.mem_cons_of_mem _ member)

/-- Hidden marks are passed. -/
theorem behindMark_hidden (unbordered : Unbordered mark) (filled : mark ≠ [])
    (unquoted : '"' ∉ mark) {quoted : Bool} {piece : Text} {pieces : List Text}
    (hidden : Hidden quoted piece pieces) (free : ∀ inner ∈ piece :: pieces, ¬mark <:+: inner)
    (rest : Text) :
    behindMark mark quoted (piece ++ (marked mark pieces ++ (mark ++ rest))) = some rest := by
  have passes {inner : Text} (markless : ¬mark <:+: inner) (tail : Text) (front back : Text)
      (split : inner = front ++ back) (backFilled : back ≠ []) : ¬mark <+: back ++ (mark ++ tail) := by
    intro starts
    obtain ⟨more, whole⟩ := unbordered.prefix_left backFilled starts
    exact markless ⟨front, more, by rw [split, ← whole, List.append_assoc]⟩
  induction pieces generalizing quoted piece with
  | nil =>
      have here : quotedBehind quoted piece = false := hidden
      rw [marked, List.flatMap_nil, List.nil_append,
        behindMark_append (passes (free piece (by simp)) rest), here]
      cases mark with
      | nil => exact absurd rfl filled
      | cons c mark =>
          rw [List.cons_append, behindMark, if_pos ⟨rfl, List.prefix_append (c :: mark) rest⟩]
          exact congrArg some List.drop_left
  | cons next others inductionHypothesis =>
      obtain ⟨here, later⟩ := hidden
      rw [marked_cons, List.append_assoc, behindMark_append (passes (free piece (by simp)) _), here,
        behindMark_quoted unquoted, List.append_assoc]
      exact inductionHypothesis later fun inner member => free inner (List.mem_cons_of_mem _ member)

/-- A word without quotes hides and uncovers nothing. -/
theorem Hidden.grown {guard word : Text} (unquoted : '"' ∉ word) {quoted : Bool} {piece : Text}
    {before after : List Text} (hidden : Hidden quoted piece before)
    (grown : List.Forall₂ (Grown guard word) before after) : Hidden quoted piece after := by
  induction grown generalizing quoted piece with
  | nil => exact hidden
  | @cons next next' others others' here _ inductionHypothesis =>
      obtain ⟨first, later⟩ := hidden
      refine ⟨first, ?_⟩
      have still := inductionHypothesis later
      rcases here with rfl | ⟨-, rfl⟩
      · exact still
      · have same : quotedBehind true (word ++ next) = quotedBehind true next := by
          rw [quotedBehind_append, quotedBehind_unquoted unquoted]
        cases others' with
        | nil => exact same.trans still
        | cons other others' => exact ⟨same.trans still.1, still.2⟩

end Marks

/-! ## Nodes -/

/-- The marks of a text all stand inside of quotes, and the quotes are closed. -/
def Covered (text : Text) : Prop := Hidden false (cut spMark text 0).1 (cut spMark text 0).2

structure Subprogram where
  index : Nat
  isDistinct : Bool
  /-- The fields in front of the flags. -/
  front : Printed
  covered : Covered front.val
  flags : SpFlags
  /-- The fields behind the flags, with the closing parenthesis. -/
  back : Printed
  ends : headIs (fun c => !fieldChar c) back.val = true

namespace Subprogram

/-- `!N = distinct !DISubprogram(` -/
def opening (node : Subprogram) : Text :=
  '!' :: (printNat node.index ++ (" = ".toList ++
    ((if node.isDistinct then "distinct ".toList else []) ++ "!DISubprogram(".toList)))

def print (node : Subprogram) : Text :=
  node.opening ++ (node.front.val ++ (spMark ++ (node.flags.print ++ node.back.val)))

/-- The text in front of the first mark, with the opening, and the pieces behind it. -/
def firstPiece (node : Subprogram) : Text := node.opening ++ (cut spMark node.front.val 0).1

def frontPieces (node : Subprogram) : List Text := (cut spMark node.front.val 0).2

/-- The text of the flags and of what stands behind them, in pieces. -/
def flagsPiece (node : Subprogram) : Text := (cut spMark (node.flags.print ++ node.back.val) 0).1

def backPieces (node : Subprogram) : List Text :=
  (cut spMark (node.flags.print ++ node.back.val) 0).2

end Subprogram

theorem spMark_unbordered : Unbordered spMark :=
  @unbordered_of_last "spFlags:".toList ' ' (by decide)

theorem printNat_not_mem {n : Nat} {c : Char} (noDigit : c.isDigit = false) : c ∉ printNat n := by
  intro member
  have digit := List.all_eq_true.mp (isDigit_printNat n) c member
  rw [noDigit] at digit
  cases digit

namespace Subprogram

variable (node : Subprogram)

theorem opening_chars {c : Char} (noDigit : c.isDigit = false)
    (absent : c ∉ "! = distinct !DISubprogram(".toList) : c ∉ node.opening := by
  unfold opening
  intro member
  have letters : "! = distinct !DISubprogram(".toList =
      '!' :: (" = ".toList ++ ("distinct ".toList ++ "!DISubprogram(".toList)) := rfl
  rw [letters] at absent
  simp only [List.mem_cons, List.mem_append, not_or] at absent member
  obtain ⟨noMark, noEqual, noDistinct, noWord⟩ := absent
  rcases member with first | digits | equal | distinct_ | word
  · exact noMark first
  · exact printNat_not_mem noDigit digits
  · exact noEqual equal
  · split at distinct_
    · exact noDistinct distinct_
    · cases distinct_
  · exact noWord word

theorem opening_apart : Apart node.opening spMark := by
  have ends : node.opening.getLast? = some '(' := by
    unfold opening
    rw [← List.cons_append, ← List.append_assoc, ← List.append_assoc]
    exact List.getLast?_append_of_ne_nil _ (by decide)
  exact apart_of_last ends (by decide) (by decide : ':' ∈ spMark)
    (node.opening_chars (by decide) (by decide))

theorem frontPieces_spec :
    node.firstPiece ++ marked spMark node.frontPieces = node.opening ++ node.front.val ∧
      ∀ inner ∈ node.firstPiece :: node.frontPieces, ¬spMark <:+: inner := by
  obtain ⟨whole, free⟩ := cut_spec (by decide : spMark ≠ []) _ node.front.val (Nat.le_refl _)
  refine ⟨by rw [firstPiece, frontPieces, List.append_assoc, whole], ?_⟩
  intro inner member
  rcases List.mem_cons.mp member with rfl | later
  · intro inside
    have inFront := (@infix_inserted node.opening _ (by
      intro front back text split filled starts
      obtain ⟨noEnd, noMark⟩ := node.opening_apart front back split filled
      rcases List.prefix_or_prefix_of_prefix starts ⟨_, rfl⟩ with shorter | longer
      · exact noMark shorter
      · exact noEnd longer) _).mp inside
    exact free _ (by simp) inFront
  · exact free inner (List.mem_cons_of_mem _ later)

theorem backPieces_spec :
    node.flagsPiece ++ marked spMark node.backPieces = node.flags.print ++ node.back.val ∧
      ∀ inner ∈ node.flagsPiece :: node.backPieces, ¬spMark <:+: inner :=
  cut_spec (by decide) _ _ (Nat.le_refl _)

/-- The line, in pieces. -/
theorem print_pieces :
    node.print = node.firstPiece ++
      marked spMark (node.frontPieces ++ node.flagsPiece :: node.backPieces) := by
  rw [marked_append, marked_cons, node.backPieces_spec.1, ← List.append_assoc,
    node.frontPieces_spec.1, print, List.append_assoc]

theorem hidden_front : Hidden false node.firstPiece node.frontPieces := by
  have covered := node.covered
  have unquoted := quotedBehind_unquoted
    (node.opening_chars (c := '"') (by decide) (by decide)) false
  have same : quotedBehind false node.firstPiece =
      quotedBehind false (cut spMark node.front.val 0).1 := by
    rw [firstPiece, quotedBehind_append, unquoted]
  rw [frontPieces]
  unfold Covered at covered
  cases shape : (cut spMark node.front.val 0).2 with
  | nil =>
      rw [shape] at covered
      exact same.trans covered
  | cons next rest =>
      rw [shape] at covered
      exact ⟨same.trans covered.1, covered.2⟩

/-- The flags and the character that ends them stand in one piece. -/
theorem flagsPiece_split :
    ∃ stop more, fieldChar stop = false ∧ node.flagsPiece = node.flags.print ++ stop :: more := by
  have ends := node.ends
  have whole := node.backPieces_spec.1
  cases shape : node.back.val with
  | nil =>
      rw [shape] at ends
      cases ends
  | cons stop rest =>
      rw [shape] at ends whole
      have closes : fieldChar stop = false := by simpa [headIs] using ends
      have apart : Apart (node.flags.print ++ [stop]) spMark := by
        apply @apart_of_last _ _ stop ':' (by simp)
        · intro member
          have field : fieldChar stop = true :=
            List.all_eq_true.mp (by decide : spMark.all fieldChar = true) stop member
          rw [closes] at field
          cases field
        · decide
        · intro member
          rcases List.mem_append.mp member with inFlags | atEnd
          · exact node.flags.not_mem_print (by decide) inFlags
          · rw [← List.mem_singleton.mp atEnd] at closes
            cases closes
      have starts : node.flags.print ++ [stop] <+:
          node.flagsPiece ++ marked spMark node.backPieces := by
        rw [whole]
        exact ⟨rest, by simp⟩
      obtain ⟨more, split⟩ := prefix_of_marked apart starts
      exact ⟨stop, more, closes, by rw [← split]; simp⟩

/-- What is read from the line, also when words stand behind some hidden marks and
in front of the flags. -/
theorem flagsOf_pieces {front back : List Text} {inserted : Text}
    (hidden : Hidden false node.firstPiece front)
    (free : ∀ inner ∈ node.firstPiece :: front, ¬spMark <:+: inner)
    (fields : inserted.all fieldChar = true) :
    flagsOf (node.firstPiece ++ marked spMark (front ++ (inserted ++ node.flagsPiece) :: back)) =
      some (splitBar (inserted ++ node.flags.print)) := by
  obtain ⟨stop, more, closes, split⟩ := node.flagsPiece_split
  have line : node.firstPiece ++ marked spMark (front ++ (inserted ++ node.flagsPiece) :: back) =
      node.firstPiece ++ (marked spMark front ++ (spMark ++
        ((inserted ++ node.flags.print) ++ stop :: (more ++ marked spMark back)))) := by
    rw [marked_append, marked_cons, split]
    simp
  have flags : node.flags.print.all fieldChar = true := by
    rw [List.all_eq_true]
    intro c member
    by_contra closed
    have outside : (isWord c || c == ' ' || c == '|') = false := by
      simp only [fieldChar, Bool.and_eq_true, bne_iff_ne, not_and_or, not_not] at closed
      rcases closed with rfl | rfl <;> decide
    exact node.flags.not_mem_print outside member
  rw [flagsOf, line, behindMark_hidden spMark_unbordered (by decide) (by decide) hidden free,
    Option.map_some, takeWhile_stop (by rw [List.all_append, fields, flags]; rfl) closes]

end Subprogram

theorem SpFlags.splitBar_print (spFlags : SpFlags) : splitBar spFlags.print = spFlags.words :=
  splitBar_intercalate spFlags.words_ne_nil fun word member blank => by
    have solid := List.all_eq_true.mp (spFlags.words_solid member) ' ' blank
    exact absurd solid (by decide)

theorem Subprogram.printable_print (node : Subprogram) : node.print.all printable = true := by
  have opening : node.opening.all printable = true := by
    unfold opening
    rw [List.all_cons, List.all_append, printable_printNat, List.all_append, List.all_append]
    cases node.isDistinct <;> decide
  have flags : node.flags.print.all printable = true := by
    rw [List.all_eq_true]
    intro c member
    have accepted := List.all_eq_true.mp node.flags.print_chars c member
    simp only [Bool.or_eq_true, beq_iff_eq] at accepted
    rcases accepted with (word | rfl) | rfl
    · exact printable_of_isWord word
    · decide
    · decide
  rw [print, List.all_append, List.all_append, List.all_append, List.all_append, opening,
    node.front.property, flags, node.back.property]
  decide

theorem Subprogram.inert (node : Subprogram) : Inert node.print := by
  have starts : ∃ rest, node.print = '!' :: rest := ⟨_, rfl⟩
  obtain ⟨rest, line⟩ := starts
  refine ⟨not_newline_of_printable node.printable_print, by rw [line]; rfl, ?_⟩
  have word : firstWord node.print = '!' :: rest.takeWhile fun c => !isSpace c := by
    rw [line]
    exact List.takeWhile_cons_of_pos (by decide)
  rw [word]
  simp

/-! ## Functions and their attachments -/

/-- A number as it is written, with zeros in front or without. -/
@[ext]
structure DebugId where
  digits : Text
  filled : digits ≠ []
  numeric : digits.all Char.isDigit = true

def DebugId.ofNat (index : Nat) : DebugId where
  digits := printNat index
  filled := Nat.toDigits_ne_nil
  numeric := isDigit_printNat index

def DebugId.print (id : DebugId) : Text := '!' :: id.digits

def idHere : Text → Option DebugId
  | '!' :: more =>
      if filled : more.takeWhile Char.isDigit = [] then none
      else some ⟨more.takeWhile Char.isDigit, filled, List.all_takeWhile⟩
  | _ => none

/-- The id behind `!dbg` and white space. -/
def debugHere (text : Text) : Option DebugId :=
  match text.dropPrefix? "!dbg".toList with
  | some rest => if headIs isSpace rest then idHere (rest.dropWhile isSpace) else none
  | none => none

/-- The id of the last attachment. -/
def lastDebug : Text → Option DebugId
  | [] => none
  | c :: rest => (lastDebug rest).or (debugHere (c :: rest))

/-- Attachments of other kinds. -/
structure Attachments where
  text : Printed
  spaced : headIs Char.isDigit text.val = false
  quiet : lastDebug (text.val ++ " \x7b".toList) = none

structure DebugFunction where
  /-- The trailer goes up to the attachments. -/
  header : Header
  debug : Option Nat
  attachments : Attachments
  body : List InertLine
  /-- No qualifier looks like the linkage. -/
  plainLinkage : "internal ".toList <+: (header.before ++ [' ']).dropWhile isSpace →
    header.linkage = .internal

namespace DebugFunction

def debugText (function : DebugFunction) : Text :=
  match function.debug with
  | none => []
  | some index => " !dbg ".toList ++ (DebugId.ofNat index).print

theorem printable_debugText (function : DebugFunction) :
    function.debugText.all printable = true := by
  unfold debugText
  split
  · rfl
  · rw [List.all_append, DebugId.print, List.all_cons]
    rename_i index _
    have digits := printable_printNat index
    rw [show (DebugId.ofNat index).digits = printNat index from rfl, digits]
    decide

/-- The trailer with the attachments and the opening brace. -/
def trailer (function : DebugFunction) : Printed :=
  ⟨function.header.trailer.val ++ (function.debugText ++
    (function.attachments.text.val ++ " \x7b".toList)), by
    rw [List.all_append, List.all_append, List.all_append, function.header.trailer.property,
      function.printable_debugText, function.attachments.text.property]
    decide⟩

def signature (function : DebugFunction) : Header := { function.header with trailer := function.trailer }

end DebugFunction

inductive DebugItem where
  | function (function : DebugFunction)
  | subprogram (node : Subprogram)
  | plain (item : Item) (other : ∀ header body, item ≠ .function header body)

def DebugItem.item : DebugItem → Item
  | .function found => .function found.signature found.body
  | .subprogram node => .other ⟨node.print, node.inert⟩
  | .plain item _ => item

/-- A module with its functions and the nodes that describe them. -/
abbrev DebugModule := List DebugItem

namespace DebugModule

def plain (m : DebugModule) : Module := m.map DebugItem.item

def functions (m : DebugModule) : List DebugFunction :=
  m.filterMap fun
    | .function found => some found
    | _ => none

def subprograms (m : DebugModule) : List Subprogram :=
  m.filterMap fun
    | .subprogram node => some node
    | _ => none

/-- The node describes an internal function. -/
def Attached (m : DebugModule) (node : Subprogram) : Prop :=
  ∃ function ∈ m.functions, function.header.linkage = .internal ∧
    function.debug = some node.index

end DebugModule

end LibarenaRs.Llvm
