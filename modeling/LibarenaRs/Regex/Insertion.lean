import Mathlib.Data.List.Forall2
import LibarenaRs.Regex.Anchored

/-!
# Inserting behind a mark

`(head[^\n]*?mark)(?!guard)` finds, behind a head, the first mark that no guard
follows.  A text is seen as the pieces between its marks: a scan walks along the
pieces and is armed by a head.
-/

namespace LibarenaRs.Regex

/-! ## Words in joined texts -/

/-- No end of the word and the mark start alike. -/
def Apart (word mark : Text) : Prop :=
  ∀ front back, word = front ++ back → back ≠ [] → ¬back <+: mark ∧ ¬mark <+: back

/-- No end of the mark starts it again. -/
def Unbordered (mark : Text) : Prop :=
  ∀ front back, mark = front ++ back → front ≠ [] → back ≠ [] → ¬back <+: mark

/-- A word without some character of the mark, and whose last one is not in the mark. -/
theorem apart_of_last {word mark : Text} {last c : Char} (ends : word.getLast? = some last)
    (lastAbsent : last ∉ mark) (inMark : c ∈ mark) (absent : c ∉ word) : Apart word mark := by
  intro front back split filled
  have lastInBack : last ∈ back := by
    rw [split, List.getLast?_append_of_ne_nil _ filled] at ends
    exact List.mem_of_getLast? ends
  constructor
  · rintro ⟨more, rfl⟩
    exact lastAbsent (List.mem_append_left _ lastInBack)
  · rintro ⟨more, whole⟩
    exact absent (by simp [split, ← whole, inMark])

/-- A mark whose first character is not in the word. -/
theorem apart_of_first {word mark rest : Text} {first : Char} (starts : mark = first :: rest)
    (absent : first ∉ word) : Apart word mark := by
  intro front back split filled
  constructor
  · intro inMark
    cases back with
    | nil => exact filled rfl
    | cons c back =>
        rw [starts] at inMark
        obtain ⟨rfl, -⟩ := List.cons_prefix_cons.mp inMark
        exact absent (by simp [split])
  · rintro ⟨more, whole⟩
    exact absent (by simp [split, ← whole, starts])

/-- A mark whose last character stands only there. -/
theorem unbordered_of_last {front : Text} {last : Char} (once : last ∉ front) :
    Unbordered (front ++ [last]) := by
  intro start back split filled backFilled
  rintro ⟨more, whole⟩
  have ends : back.getLast? = some last := by
    rw [← List.getLast?_append_of_ne_nil start backFilled, ← split]
    simp
  have lengths := congrArg List.length split
  have positive := List.length_pos_of_ne_nil filled
  rw [List.length_append, List.length_append] at lengths
  have inFront : back <+: front := by
    rcases List.append_eq_append_iff.mp whole with ⟨rest, shape, -⟩ | ⟨rest, shape, tail⟩
    · exact ⟨rest, shape.symm⟩
    · have longer := congrArg List.length shape
      rw [List.length_append] at longer
      cases rest with
      | nil => exact ⟨[], by rw [shape, List.append_nil]; simp⟩
      | cons c rest =>
          have one : [last].length = (c :: rest).length + more.length := by
            rw [tail, List.length_append]
          rw [List.length_cons] at longer one
          rw [List.length_singleton] at lengths
          omega
  exact once (inFront.subset (List.mem_of_getLast? ends))

/-- A word that starts in front of a mark ends there. -/
theorem Apart.prefix_left {word mark : Text} (apart : Apart word mark) {text rest : Text}
    (starts : word <+: text ++ (mark ++ rest)) : word <+: text := by
  obtain ⟨left, split⟩ := starts
  rcases List.append_eq_append_iff.mp split with ⟨more, whole, -⟩ | ⟨more, whole, tail⟩
  · exact ⟨more, whole.symm⟩
  · by_cases empty : more = []
    · rw [empty, List.append_nil] at whole
      exact ⟨[], by rw [List.append_nil, whole]⟩
    · obtain ⟨noEnd, noMark⟩ := apart text more whole empty
      rcases @List.prefix_or_prefix_of_prefix _ _ (mark ++ rest) _ ⟨left, tail.symm⟩
        ⟨rest, rfl⟩ with shorter | longer
      · exact absurd shorter noEnd
      · exact absurd longer noMark

/-- A mark in front of another mark is in the text. -/
theorem Unbordered.prefix_left {mark : Text} (unbordered : Unbordered mark) {text rest : Text}
    (filled : text ≠ []) (starts : mark <+: text ++ (mark ++ rest)) : mark <+: text := by
  obtain ⟨left, split⟩ := starts
  rcases List.append_eq_append_iff.mp split with ⟨more, whole, -⟩ | ⟨more, whole, tail⟩
  · exact ⟨more, whole.symm⟩
  · by_cases empty : more = []
    · rw [empty, List.append_nil] at whole
      exact ⟨[], by rw [List.append_nil, whole]⟩
    · rcases @List.prefix_or_prefix_of_prefix _ _ (mark ++ rest) _ ⟨left, tail.symm⟩
        ⟨rest, rfl⟩ with shorter | longer
      · exact absurd shorter (unbordered text more whole filled empty)
      · have lengths := congrArg List.length whole
        have bound := longer.length_le
        have positive := List.length_pos_of_ne_nil filled
        rw [List.length_append] at lengths
        omega

/-- The pieces behind the first one, each behind a mark. -/
def marked (mark : Text) (pieces : List Text) : Text := pieces.flatMap fun piece => mark ++ piece

theorem marked_cons (mark piece : Text) (pieces : List Text) :
    marked mark (piece :: pieces) = mark ++ (piece ++ marked mark pieces) := by
  rw [marked, List.flatMap_cons, List.append_assoc]
  rfl

theorem marked_append (mark : Text) (first second : List Text) :
    marked mark (first ++ second) = marked mark first ++ marked mark second := List.flatMap_append

section Marks

variable {mark : Text}

/-- The marks of joined pieces are those between them. -/
theorem mark_between (unbordered : Unbordered mark) {piece : Text}
    {pieces : List Text} (free : ∀ inner ∈ piece :: pieces, ¬mark <:+: inner)
    {front back : Text} (split : piece ++ marked mark pieces = front ++ (mark ++ back)) :
    ∃ before next after, pieces = before ++ next :: after ∧ back = next ++ marked mark after := by
  induction pieces generalizing piece front with
  | nil =>
      refine absurd ?_ (free piece (by simp))
      rw [marked, List.flatMap_nil, List.append_nil] at split
      exact ⟨front, back, by rw [split, List.append_assoc]⟩
  | cons next after inductionHypothesis =>
      rw [marked_cons] at split
      have pieceFree := free piece (by simp)
      have onward : ∀ front', next ++ marked mark after = front' ++ (mark ++ back) →
          ∃ before found rest, next :: after = before ++ found :: rest ∧
            back = found ++ marked mark rest := by
        intro front' inside
        obtain ⟨before, found, rest, places, tail⟩ := inductionHypothesis
          (fun inner member => free inner (List.mem_cons_of_mem _ member)) inside
        exact ⟨next :: before, found, rest, by rw [places]; rfl, tail⟩
      rcases List.append_eq_append_iff.mp split with ⟨more, whole, tail⟩ | ⟨more, whole, tail⟩
      · -- the front reaches behind the piece
        rcases List.append_eq_append_iff.mp tail with ⟨far, markSplit, inside⟩ | ⟨far, markSplit, inside⟩
        · exact onward far inside
        · by_cases atMark : more = []
          · rw [atMark, List.nil_append] at tail
            exact ⟨[], next, after, rfl, (List.append_cancel_left tail).symm⟩
          · by_cases none_ : far = []
            · rw [none_, List.nil_append] at inside
              exact onward [] inside.symm
            · have starts : mark <+: far ++ (next ++ marked mark after) := ⟨back, inside⟩
              have ends := unbordered more far markSplit atMark none_
              rcases @List.prefix_or_prefix_of_prefix _ _
                (far ++ (next ++ marked mark after)) _ starts ⟨_, rfl⟩ with longer | shorter
              · have lengths := congrArg List.length markSplit
                have bound := longer.length_le
                have positive := List.length_pos_of_ne_nil atMark
                rw [List.length_append] at lengths
                omega
              · exact absurd shorter ends
      · by_cases none_ : more = []
        · rw [none_, List.nil_append] at tail
          exact ⟨[], next, after, rfl, List.append_cancel_left tail⟩
        · have starts : mark <+: more ++ (mark ++ (next ++ marked mark after)) :=
            ⟨back, tail⟩
          obtain ⟨rest, inPiece⟩ := unbordered.prefix_left none_ starts
          exact absurd ⟨front, rest, by rw [whole, ← inPiece, List.append_assoc]⟩ pieceFree

end Marks

/-! ## The pattern -/

/-- `(head[^\n]*?mark)(?!guard)` -/
def insertRe (head mark guard : Text) : Pattern :=
  .seq (.group 1 (.cat [.lit head, .star false (.chr fun c => c != '\n'), .lit mark]))
    (.notAhead (.lit guard))

section Pattern_

variable {head mark guard : Text}

theorem inLine_insertRe (inHead : '\n' ∉ head) (inMark : '\n' ∉ mark) (inGuard : '\n' ∉ guard) :
    (insertRe head mark guard).inLine = true := by
  simp [insertRe, Pattern.cat, Pattern.inLine, inHead, inMark, inGuard]

theorem run_markEnd {Answer : Type} (next : Cursor → Option Answer) (past text whole : Text)
    (groups : List (Nat × Text)) :
    (Pattern.lit mark).run (fun after =>
        (Pattern.notAhead (.lit guard)).run next (after.close 1 whole)) ⟨past, text, groups⟩ =
      match text.dropPrefix? mark with
      | some back =>
          if guard <+: back then none
          else next (Cursor.close ⟨mark.reverse ++ past, back, groups⟩ 1 whole)
      | none => none := by
  cases found : text.dropPrefix? mark with
  | none => exact Pattern.run_lit_absent _ (dropPrefix?_eq_none.mp found)
  | some back =>
      rw [dropPrefix?_eq_some] at found
      rw [found, Pattern.run_lit_append, Pattern.run_notAhead]
      have ahead : ((Pattern.lit guard).run some
          (Cursor.close ⟨mark.reverse ++ past, back, groups⟩ 1 whole)).isSome = true ↔
          guard <+: back := by
        constructor
        · intro guarded
          obtain ⟨stop, ran⟩ := Option.isSome_iff_exists.mp guarded
          obtain ⟨rest, split, -⟩ := Pattern.run_lit_eq_some _ ran
          exact ⟨rest, split.symm⟩
        · rintro ⟨rest, rfl⟩
          rw [Cursor.close, Pattern.run_lit_append]
          rfl
      by_cases guarded : guard <+: back
      · simp only [if_pos (ahead.mpr guarded), if_pos guarded]
      · simp only [if_neg (mt ahead.mp guarded), if_neg guarded]

/-- Without an open mark behind it a head is not matched. -/
theorem matchAt_insertRe_none {past text : Text}
    (guarded : ∀ front back, text = head ++ (front ++ (mark ++ back)) → guard <+: back) :
    (insertRe head mark guard).matchAt past text = none := by
  rw [Pattern.matchAt_eq_none_iff]
  rintro stop ⟨_, ⟨inner, ⟨_, ⟨rest, split, rfl⟩, _, loop, ⟨back, found, rfl⟩⟩, rfl⟩, blocked, -⟩
  obtain ⟨read, splitLoop, -⟩ := Pattern.star_chr_reaches loop
  obtain ⟨left, whole⟩ := guarded read back (by
    rw [← found]
    exact split.trans (congrArg (head ++ ·) splitLoop))
  exact absurd ⟨left, whole.symm, rfl⟩ (blocked _)

/-- A head is matched up to the first open mark behind it. -/
theorem matchAt_insertRe {past front back : Text} (oneLine : '\n' ∉ front) (filled : head ≠ [])
    (isOpen : ¬guard <+: back)
    (earlier : ∀ start c stop left, front = start ++ c :: stop →
      c :: (stop ++ (mark ++ back)) = mark ++ left → guard <+: left) :
    (insertRe head mark guard).matchAt past (head ++ (front ++ (mark ++ back))) =
      some ⟨head ++ (front ++ mark), [(1, head ++ (front ++ mark))]⟩ := by
  have whole : head ++ (front ++ (mark ++ back)) = (head ++ (front ++ mark)) ++ back := by simp
  have group : (head ++ (front ++ (mark ++ back))).take
      ((head ++ (front ++ (mark ++ back))).length - back.length) = head ++ (front ++ mark) := by
    rw [whole, List.length_append, Nat.add_sub_cancel, List.take_left]
  have shorter : back.length < (head ++ (front ++ (mark ++ back))).length := by
    have positive := List.length_pos_of_ne_nil filled
    rw [List.length_append, List.length_append, List.length_append]
    omega
  rw [Pattern.matchAt, insertRe, Pattern.run_seq, Pattern.run_group, Pattern.run_cat_cons,
    Pattern.run_lit_append, Pattern.run_cat_cons, Pattern.run_star_chr]
  apply Pattern.repeatChr_lazy
  · intro c member
    have different : c ≠ '\n' := fun same => oneLine (same ▸ member)
    simpa using different
  · refine (run_markEnd _ _ _ _ _).trans ?_
    rw [dropPrefix?_append]
    simp only [if_neg isOpen, Cursor.close, group]
    rw [if_pos shorter]
  · intro start c stop split
    refine (run_markEnd _ _ _ _ _).trans ?_
    cases found : (c :: (stop ++ (mark ++ back))).dropPrefix? mark with
    | none => rfl
    | some left =>
        have guarded := earlier start c stop left split (dropPrefix?_eq_some.mp found)
        simp only [if_pos guarded]

end Pattern_

/-! ## The scan -/

/-- A head arms the scan, and the first open piece behind it gets the word. -/
def insertRest (head guard word : Text) : Bool → List Text → List Text
  | _, [] => []
  | armed, piece :: rest =>
      if armed ∧ ¬guard <+: piece then
        (word ++ piece) :: insertRest head guard word (decide (head <:+: piece)) rest
      else piece :: insertRest head guard word (armed || decide (head <:+: piece)) rest

/-- What the words must not share. -/
structure Separate (head mark guard : Text) : Prop where
  filled : head ≠ []
  oneLine : '\n' ∉ mark
  headApart : Apart head mark
  markApart : Apart mark head
  guardApart : Apart guard mark
  unbordered : Unbordered mark

/-- The first place of a word. -/
theorem first_infix {word text : Text} (inside : word <:+: text) :
    ∃ front back, text = front ++ (word ++ back) ∧
      ∀ start c stop, front = start ++ c :: stop → ¬word <+: c :: (stop ++ (word ++ back)) := by
  induction text with
  | nil =>
      obtain ⟨front, back, split⟩ := inside
      refine ⟨[], back, ?_, by simp⟩
      simp only [List.append_eq_nil_iff] at split
      simp [split]
  | cons c text inductionHypothesis =>
      by_cases here : word <+: c :: text
      · obtain ⟨back, split⟩ := here
        exact ⟨[], back, split.symm, by simp⟩
      · rcases List.infix_cons_iff.mp inside with starts | later
        · exact absurd starts here
        · obtain ⟨front, back, split, first⟩ := inductionHypothesis later
          refine ⟨c :: front, back, by rw [split]; rfl, ?_⟩
          intro start d stop cut
          cases start with
          | nil =>
              obtain ⟨rfl, rfl⟩ := List.cons.inj cut
              rwa [← split]
          | cons e start => exact first start d stop (List.cons.inj cut).2

section Scan

variable {head mark guard word : Text}

theorem insertRest_guarded {pieces : List Text} (guarded : ∀ piece ∈ pieces, guard <+: piece)
    (armed : Bool) : insertRest head guard word armed pieces = pieces := by
  induction pieces generalizing armed with
  | nil => rfl
  | cons piece rest inductionHypothesis =>
      rw [insertRest, if_neg fun both => both.2 (guarded piece (by simp)),
        inductionHypothesis fun inner member => guarded inner (List.mem_cons_of_mem _ member)]

theorem insertRest_armed {closed : List Text} (guarded : ∀ piece ∈ closed, guard <+: piece)
    {next : Text} (isOpen : ¬guard <+: next) (rest : List Text) :
    insertRest head guard word true (closed ++ next :: rest) =
      closed ++ (word ++ next) ::
        insertRest head guard word (decide (head <:+: next)) rest := by
  induction closed with
  | nil => exact if_pos ⟨rfl, isOpen⟩
  | cons piece closed inductionHypothesis =>
      rw [List.cons_append, insertRest, if_neg fun both => both.2 (guarded piece (by simp)),
        Bool.true_or, inductionHypothesis fun inner member =>
          guarded inner (List.mem_cons_of_mem _ member)]
      rfl

/-- The pieces up to the first open one. -/
theorem guarded_or_open (guard : Text) (pieces : List Text) :
    (∀ piece ∈ pieces, guard <+: piece) ∨
      ∃ closed next rest, pieces = closed ++ next :: rest ∧
        (∀ piece ∈ closed, guard <+: piece) ∧ ¬guard <+: next := by
  induction pieces with
  | nil => exact Or.inl (by simp)
  | cons piece pieces inductionHypothesis =>
      by_cases here : guard <+: piece
      · rcases inductionHypothesis with all | ⟨closed, next, rest, split, guarded, isOpen⟩
        · exact Or.inl fun inner member => by
            rcases List.mem_cons.mp member with rfl | later
            · exact here
            · exact all inner later
        · refine Or.inr ⟨piece :: closed, next, rest, by rw [split]; rfl, ?_, isOpen⟩
          intro inner member
          rcases List.mem_cons.mp member with rfl | later
          · exact here
          · exact guarded inner later
      · exact Or.inr ⟨[], piece, pieces, rfl, by simp, here⟩

theorem prefix_of_marked {other : Text} (apart : Apart other mark) {text : Text}
    {pieces : List Text} (starts : other <+: text ++ marked mark pieces) : other <+: text := by
  cases pieces with
  | nil => rwa [marked, List.flatMap_nil, List.append_nil] at starts
  | cons next rest =>
      rw [marked_cons] at starts
      exact apart.prefix_left starts

variable {piece : Text} {pieces : List Text}

/-- Where every mark is guarded, nothing is matched. -/
theorem scan_guarded (separate : Separate head mark guard)
    (free : ∀ inner ∈ piece :: pieces, ¬mark <:+: inner)
    (guarded : ∀ inner ∈ pieces, guard <+: inner) (past : Text) :
    (insertRe head mark guard).scan past (piece ++ marked mark pieces) 0 =
      (piece ++ marked mark pieces).map .plain := by
  have plain := @Pattern.scan_plain (insertRe head mark guard) past
    (piece ++ marked mark pieces) [] (by
      intro start c stop split
      apply matchAt_insertRe_none
      intro front back found
      rw [List.append_nil] at found
      have whole : piece ++ marked mark pieces = (start ++ (head ++ front)) ++ (mark ++ back) := by
        rw [split, found]
        simp
      obtain ⟨before, next, after, places, rfl⟩ := mark_between separate.unbordered free whole
      obtain ⟨rest, inNext⟩ := guarded next (by rw [places]; simp)
      exact ⟨rest ++ marked mark after, by rw [← inNext, List.append_assoc]⟩)
  rw [List.append_nil] at plain
  rw [plain, Pattern.scan, List.append_nil]

/-- No match starts in a text without a head. -/
theorem scan_headless (separate : Separate head mark guard) {text : Text}
    {rest : List Text} {tail : Text} (shape : tail = marked mark rest)
    (headless : ∀ start c stop, text = start ++ c :: stop → ¬head <+: c :: stop) (past : Text) :
    (insertRe head mark guard).scan past (text ++ tail) 0 =
      text.map .plain ++ (insertRe head mark guard).scan (text.reverse ++ past) tail 0 := by
  apply Pattern.scan_plain
  intro start c stop split
  apply matchAt_insertRe_none
  intro front back found
  have starts : head <+: (c :: stop) ++ marked mark rest := ⟨_, by rw [← shape]; exact found.symm⟩
  exact absurd (prefix_of_marked separate.headApart starts) (headless start c stop split)

/-- The scan passes a piece without a head and the mark behind it. -/
theorem scan_piece (separate : Separate head mark guard) (headless : ¬head <:+: piece)
    (next : Text) (rest : List Text) (past : Text) :
    (insertRe head mark guard).scan past (piece ++ marked mark (next :: rest)) 0 =
      (piece ++ mark).map .plain ++
        (insertRe head mark guard).scan (mark.reverse ++ (piece.reverse ++ past))
          (next ++ marked mark rest) 0 := by
  have inPiece := @scan_headless head mark guard separate piece (next :: rest) _ rfl (by
    rintro start c stop split ⟨back, starts⟩
    exact headless ⟨start, back, by rw [split, ← starts, List.append_assoc]⟩) past
  have inMark := @Pattern.scan_plain (insertRe head mark guard) (piece.reverse ++ past) mark
    (next ++ marked mark rest) (by
      intro start c stop split
      apply matchAt_insertRe_none
      intro front back found
      obtain ⟨noMark, noHead⟩ := separate.markApart start (c :: stop) split (by simp)
      have starts : head <+: (c :: stop) ++ (next ++ marked mark rest) := ⟨_, found.symm⟩
      rcases List.prefix_or_prefix_of_prefix starts ⟨_, rfl⟩ with shorter | longer
      · exact absurd shorter noHead
      · exact absurd longer noMark)
  rw [inPiece, marked_cons, inMark, List.map_append, List.append_assoc]

/-- A head in a piece is matched up to the first open mark. -/
theorem scan_head (separate : Separate head mark guard) {piece : Text} {closed : List Text}
    {next : Text} {rest : List Text} (inside : head <:+: piece)
    (clean : ∀ inner ∈ piece :: (closed ++ next :: rest), ¬mark <:+: inner ∧ '\n' ∉ inner)
    (guarded : ∀ inner ∈ closed, guard <+: inner) (isOpen : ¬guard <+: next) (past : Text) :
    ∃ front found after, piece ++ marked mark closed = front ++ found ∧
      (insertRe head mark guard).scan past (piece ++ marked mark (closed ++ next :: rest)) 0 =
        front.map .plain ++ .hit ⟨found ++ mark, [(1, found ++ mark)]⟩ ::
          (insertRe head mark guard).scan after (next ++ marked mark rest) 0 := by
  obtain ⟨front, back, split, first⟩ := first_infix inside
  have free : ∀ inner ∈ back :: (closed ++ next :: rest), ¬mark <:+: inner := by
    intro inner member
    rcases List.mem_cons.mp member with rfl | later
    · rintro ⟨left, right, whole⟩
      exact (clean piece (by simp)).1 ⟨front ++ (head ++ left), right, by rw [split, ← whole]; simp⟩
    · exact (clean inner (List.mem_cons_of_mem _ later)).1
  have oneLine : '\n' ∉ back ++ marked mark closed := by
    intro member
    rcases List.mem_append.mp member with inBack | inClosed
    · exact (clean piece (by simp)).2 (by rw [split]; simp [inBack])
    · obtain ⟨inner, among, inPiece⟩ := List.mem_flatMap.mp inClosed
      rcases List.mem_append.mp inPiece with inMark | inInner
      · exact separate.oneLine inMark
      · exact (clean inner (by simp [among])).2 inInner
  have behind : ¬guard <+: next ++ marked mark rest :=
    fun starts => isOpen (prefix_of_marked separate.guardApart starts)
  have whole : back ++ marked mark (closed ++ next :: rest) =
      (back ++ marked mark closed) ++ (mark ++ (next ++ marked mark rest)) := by
    rw [marked_append, marked_cons, List.append_assoc]
  have matched := @matchAt_insertRe head mark guard (front.reverse ++ past)
    (back ++ marked mark closed) (next ++ marked mark rest) oneLine separate.filled behind (by
      intro start c stop left cut found
      have place : back ++ marked mark (closed ++ next :: rest) = start ++ (mark ++ left) := by
        rw [whole, cut, ← found]
        simp
      obtain ⟨before, reached, after, places, rfl⟩ := mark_between separate.unbordered free place
      -- what is found in front of the open mark is closed
      have among : reached ∈ closed := by
        rcases List.append_eq_append_iff.mp places with ⟨more, -, tail⟩ | ⟨more, shape, -⟩
        · have longer : (reached ++ marked mark after).length ≤
              (next ++ marked mark rest).length := by
            cases more with
            | nil =>
                obtain ⟨rfl, rfl⟩ := List.cons.inj tail
                exact Nat.le_refl _
            | cons d more =>
                have rest_ : rest = more ++ reached :: after := (List.cons.inj tail).2
                rw [rest_, marked_append, marked_cons]
                simp only [List.length_append]
                omega
          have lengths := congrArg List.length found
          simp only [List.length_cons, List.length_append] at lengths longer
          omega
        · cases more with
          | nil =>
              have lengths := congrArg List.length found
              rw [shape, List.append_nil] at places
              obtain ⟨rfl, rfl⟩ := List.cons.inj (List.append_cancel_left places)
              simp only [List.length_cons, List.length_append] at lengths
              omega
          | cons d more =>
              rw [shape, List.append_assoc] at places
              rw [shape, (List.cons.inj (List.append_cancel_left places)).1]
              simp
      obtain ⟨more, inReached⟩ := guarded reached among
      exact ⟨more ++ marked mark after, by rw [← inReached, List.append_assoc]⟩)
  refine ⟨front, head ++ (back ++ marked mark closed),
    (head ++ ((back ++ marked mark closed) ++ mark)).reverse ++ (front.reverse ++ past), ?_, ?_⟩
  · rw [split]
    simp
  · have text : piece ++ marked mark (closed ++ next :: rest) =
        front ++ (head ++ ((back ++ marked mark closed) ++
          (mark ++ (next ++ marked mark rest)))) := by
      rw [split, ← whole]
      simp
    have passed := @Pattern.scan_plain (insertRe head mark guard) past front
      (head ++ ((back ++ marked mark closed) ++ (mark ++ (next ++ marked mark rest)))) (by
        intro start c stop cut
        apply matchAt_insertRe_none
        intro inFront left found
        have starts : head <+: (c :: (stop ++ (head ++ back))) ++
            marked mark (closed ++ next :: rest) := by
          refine ⟨_, found.symm.trans ?_⟩
          rw [← whole]
          simp
        exact absurd (prefix_of_marked separate.headApart starts) (first start c stop cut))
    have hit := @Pattern.scan_hit (insertRe head mark guard) (front.reverse ++ past)
      (next ++ marked mark rest)
      ⟨head ++ ((back ++ marked mark closed) ++ mark),
        [(1, head ++ ((back ++ marked mark closed) ++ mark))]⟩
      (by simp [separate.filled]) (by simpa using matched)
    rw [text, passed]
    simp only [List.append_assoc] at hit ⊢
    rw [hit]

/-- The scan of a text is that of its pieces. -/
theorem scan_insertRe (separate : Separate head mark guard) :
    ∀ (size : Nat) (past piece : Text) (pieces : List Text), pieces.length ≤ size →
      (∀ inner ∈ piece :: pieces, ¬mark <:+: inner ∧ '\n' ∉ inner) →
      ((insertRe head mark guard).scan past (piece ++ marked mark pieces) 0).flatMap
          (Piece.render fun m => m.group 1 ++ word) =
        piece ++ marked mark (insertRest head guard word (decide (head <:+: piece)) pieces) := by
  intro size
  induction size with
  | zero =>
      intro past piece pieces bound clean
      obtain rfl := List.eq_nil_of_length_eq_zero (Nat.le_zero.mp bound)
      rw [scan_guarded separate (fun inner member => (clean inner member).1) (by simp),
        Pattern.flatMap_render_plain]
      rfl
  | succ size inductionHypothesis =>
      intro past piece pieces bound clean
      by_cases inside : head <:+: piece
      · rw [decide_eq_true inside]
        rcases guarded_or_open guard pieces with
          guarded | ⟨closed, next, rest, rfl, guarded, isOpen⟩
        · rw [scan_guarded separate (fun inner member => (clean inner member).1) guarded,
            Pattern.flatMap_render_plain, insertRest_guarded guarded]
        · obtain ⟨front, found, after, split, scanned⟩ :=
            scan_head separate inside clean guarded isOpen past
          have later := inductionHypothesis after next rest
            (by rw [List.length_append, List.length_cons] at bound; omega)
            fun inner member => clean inner (by
              rcases List.mem_cons.mp member with rfl | inRest
              · simp
              · simp [inRest])
          rw [scanned, List.flatMap_append, Pattern.flatMap_render_plain, List.flatMap_cons, later,
            insertRest_armed guarded isOpen, marked_append, marked_cons, ← List.append_assoc piece,
            split]
          change front ++ ((found ++ mark ++ word) ++ _) = _
          simp
      · rw [decide_eq_false inside]
        cases pieces with
        | nil =>
            rw [scan_guarded separate (fun inner member => (clean inner member).1) (by simp),
              Pattern.flatMap_render_plain]
            rfl
        | cons next rest =>
            have later := inductionHypothesis (mark.reverse ++ (piece.reverse ++ past)) next rest
              (by simpa using bound) fun inner member => clean inner (List.mem_cons_of_mem _ member)
            rw [scan_piece separate inside, List.flatMap_append, Pattern.flatMap_render_plain, later,
              insertRest, if_neg (by simp), Bool.false_or, marked_cons, List.append_assoc]

theorem sub_insertRe (separate : Separate head mark guard)
    (clean : ∀ inner ∈ piece :: pieces, ¬mark <:+: inner ∧ '\n' ∉ inner) :
    (insertRe head mark guard).sub (fun m => m.group 1 ++ word) (piece ++ marked mark pieces) =
      piece ++ marked mark (insertRest head guard word (decide (head <:+: piece)) pieces) :=
  scan_insertRe separate pieces.length [] piece pieces (Nat.le_refl _) clean

end Scan

/-! ## The pieces of a text -/

/-- The text up to its first mark, and the pieces behind; `skip` characters of a mark
remain to be passed. -/
def cut (mark : Text) : Text → Nat → Text × List Text
  | [], _ => ([], [])
  | _ :: rest, skip + 1 => cut mark rest skip
  | c :: rest, 0 =>
      if mark <+: c :: rest then
        ([], (cut mark rest (mark.length - 1)).1 :: (cut mark rest (mark.length - 1)).2)
      else (c :: (cut mark rest 0).1, (cut mark rest 0).2)

theorem cut_skip (mark read rest : Text) : cut mark (read ++ rest) read.length = cut mark rest 0 := by
  induction read with
  | nil => rfl
  | cons c read inductionHypothesis => exact inductionHypothesis

theorem cut_mark {mark : Text} (filled : mark ≠ []) (rest : Text) :
    cut mark (mark ++ rest) 0 = ([], (cut mark rest 0).1 :: (cut mark rest 0).2) := by
  cases mark with
  | nil => exact absurd rfl filled
  | cons c mark =>
      have here : (c :: mark) <+: c :: (mark ++ rest) := List.prefix_append (c :: mark) rest
      rw [List.cons_append, cut, if_pos here, List.length_cons, Nat.add_sub_cancel, cut_skip]

/-- The pieces make up the text, and hold no mark. -/
theorem cut_spec {mark : Text} (filled : mark ≠ []) :
    ∀ (size : Nat) (text : Text), text.length ≤ size →
      (cut mark text 0).1 ++ marked mark (cut mark text 0).2 = text ∧
        ∀ inner ∈ (cut mark text 0).1 :: (cut mark text 0).2, ¬mark <:+: inner := by
  intro size
  induction size with
  | zero =>
      intro text bound
      obtain rfl := List.eq_nil_of_length_eq_zero (Nat.le_zero.mp bound)
      refine ⟨rfl, ?_⟩
      intro inner member inside
      rw [List.mem_singleton.mp member] at inside
      exact filled (List.infix_nil.mp inside)
  | succ size inductionHypothesis =>
      intro text bound
      by_cases starts : mark <+: text
      · obtain ⟨rest, rfl⟩ := starts
        have positive := List.length_pos_of_ne_nil filled
        obtain ⟨whole, free⟩ := inductionHypothesis rest (by
          rw [List.length_append] at bound
          omega)
        rw [cut_mark filled]
        refine ⟨?_, ?_⟩
        · rw [List.nil_append, marked_cons, whole]
        · intro inner member
          rcases List.mem_cons.mp member with rfl | later
          · intro inside
            exact filled (List.infix_nil.mp inside)
          · exact free inner later
      · cases text with
        | nil =>
            refine ⟨rfl, ?_⟩
            intro inner member inside
            rw [List.mem_singleton.mp member] at inside
            exact filled (List.infix_nil.mp inside)
        | cons c rest =>
            obtain ⟨whole, free⟩ := inductionHypothesis rest (by simpa using bound)
            rw [cut, if_neg starts]
            refine ⟨by rw [List.cons_append, whole], ?_⟩
            intro inner member
            rcases List.mem_cons.mp member with rfl | later
            · intro inside
              rcases List.infix_cons_iff.mp inside with here | inRest
              · exact starts (here.trans ⟨marked mark (cut mark rest 0).2, by
                  rw [List.cons_append, whole]⟩)
              · exact free _ (by simp) inRest
            · exact free inner (List.mem_cons_of_mem _ later)

/-! ## Several heads -/

section Heads

variable {Id : Type} (head : Id → Text) (mark guard word : Text)

/-- The heads that stand in a stretch of text. -/
abbrev Stretch (Id : Type) := Id → Bool

def headsIn (piece : Text) : Stretch Id := fun id => decide (head id <:+: piece)

def Stretch.join (first second : Stretch Id) : Stretch Id := fun id => first id || second id

/-- The stretches between open marks, the first one begun with some heads. -/
def stretches (begun : Stretch Id) : List Text → List (Stretch Id)
  | [] => [begun]
  | next :: rest =>
      if guard <+: next then stretches (begun.join (headsIn head next)) rest
      else begun :: stretches (headsIn head next) rest

def joinFirst (stretch : Stretch Id) : List (Stretch Id) → List (Stretch Id)
  | [] => [stretch]
  | next :: rest => stretch.join next :: rest

/-- A scan for one head takes away the open mark behind each stretch with that head. -/
def clear (id : Id) : List (Stretch Id) → List (Stretch Id)
  | [] => []
  | [last] => [last]
  | stretch :: next :: rest =>
      if stretch id then joinFirst stretch (clear id (next :: rest))
      else stretch :: clear id (next :: rest)

/-- One of the scans finds its head behind the last open mark. -/
def Reached : List Id → List (Stretch Id) → Prop
  | [], _ => False
  | id :: ids, found =>
      (∃ last ∈ found.getLast?, last id = true) ∨ Reached ids (clear id found)

instance decidableReached : (ids : List Id) → (found : List (Stretch Id)) →
    Decidable (Reached ids found)
  | [], _ => isFalse id
  | id :: ids, found =>
      have := decidableReached ids (clear id found)
      inferInstanceAs (Decidable (_ ∨ _))

/-- The scans for some heads, one behind the other. -/
def insertAll (piece : Text) (ids : List Id) (pieces : List Text) : List Text :=
  ids.foldl (fun pieces id => insertRest (head id) guard word (headsIn head piece id) pieces) pieces

end Heads

section Runs

variable {Id : Type} {head : Id → Text} {mark guard word : Text}

theorem stretches_ne_nil (begun : Stretch Id) (pieces : List Text) :
    stretches head guard begun pieces ≠ [] := by
  induction pieces generalizing begun with
  | nil => simp [stretches]
  | cons next rest inductionHypothesis =>
      rw [stretches]
      split
      · exact inductionHypothesis _
      · simp

theorem clear_cons {id : Id} {stretch : Stretch Id} {others : List (Stretch Id)}
    (filled : others ≠ []) :
    clear id (stretch :: others) =
      if stretch id then joinFirst stretch (clear id others) else stretch :: clear id others := by
  cases others with
  | nil => exact absurd rfl filled
  | cons next rest => rfl

theorem stretches_join (begun more : Stretch Id) (pieces : List Text) :
    stretches head guard (begun.join more) pieces =
      joinFirst begun (stretches head guard more pieces) := by
  induction pieces generalizing more with
  | nil => rfl
  | cons next rest inductionHypothesis =>
      have joined : (begun.join more).join (headsIn head next) =
          begun.join (more.join (headsIn head next)) := by
        funext id
        exact Bool.or_assoc _ _ _
      rw [stretches, stretches]
      split
      · rw [joined, inductionHypothesis]
      · rfl

/-- The inserted word is a guard, and neither a mark nor a head starts in it. -/
structure Inserted (head : Id → Text) (mark guard word : Text) : Prop where
  guards : guard <+: word
  oneLine : '\n' ∉ word
  markless : ∀ front back text, word = front ++ back → back ≠ [] → ¬mark <+: back ++ text
  headless : ∀ id front back text, word = front ++ back → back ≠ [] → ¬head id <+: back ++ text

theorem starts_outside {other rest : Text} {first : Char} (starts : other = first :: rest)
    (absent : first ∉ word) (front back text : Text) (split : word = front ++ back)
    (filled : back ≠ []) : ¬other <+: back ++ text := by
  cases back with
  | nil => exact absurd rfl filled
  | cons c back =>
      rw [starts]
      intro inBack
      obtain ⟨rfl, -⟩ := List.cons_prefix_cons.mp inBack
      exact absent (by simp [split])

/-- A word that does not start in the inserted one is where it was. -/
theorem infix_inserted {other : Text}
    (absent : ∀ front back text, word = front ++ back → back ≠ [] → ¬other <+: back ++ text)
    (piece : Text) : other <:+: word ++ piece ↔ other <:+: piece := by
  have general : ∀ front back, word = front ++ back →
      (other <:+: back ++ piece ↔ other <:+: piece) := by
    intro front back split
    induction back generalizing front with
    | nil => rw [List.nil_append]
    | cons c back inductionHypothesis =>
        have later := inductionHypothesis (front ++ [c]) (by rw [split]; simp)
        rw [List.cons_append, List.infix_cons_iff, later]
        exact or_iff_right (absent front (c :: back) piece split (by simp))
  exact general [] word rfl

theorem headsIn_inserted (inserted : Inserted head mark guard word) (piece : Text) :
    headsIn head (word ++ piece) = headsIn head piece := by
  funext id
  exact decide_eq_decide.mpr (infix_inserted (inserted.headless id) piece)

/-- What one scan does to the stretches. -/
theorem stretches_insertRest (inserted : Inserted head mark guard word) (id : Id)
    (begun : Stretch Id) (pieces : List Text) :
    stretches head guard begun (insertRest (head id) guard word (begun id) pieces) =
      clear id (stretches head guard begun pieces) := by
  induction pieces generalizing begun with
  | nil => rfl
  | cons next rest inductionHypothesis =>
      have filled := @stretches_ne_nil _ head guard (headsIn head next) rest
      by_cases guarded : guard <+: next
      · have here := inductionHypothesis (begun.join (headsIn head next))
        rw [insertRest, if_neg fun both => both.2 guarded, stretches, if_pos guarded, stretches,
          if_pos guarded]
        exact here
      · have here := inductionHypothesis (headsIn head next)
        cases armed : begun id with
        | true =>
            have word_ : guard <+: word ++ next := inserted.guards.trans (List.prefix_append _ _)
            rw [insertRest, if_pos ⟨rfl, guarded⟩, stretches, if_pos word_,
              headsIn_inserted inserted, stretches_join, stretches, if_neg guarded,
              clear_cons filled, if_pos armed, ← here]
            rfl
        | false =>
            rw [insertRest, if_neg (by simp), stretches, if_neg guarded, stretches,
              if_neg guarded, clear_cons filled, if_neg (by simp [armed]), ← here]
            rfl

/-- Whether the scan is armed behind some pieces. -/
theorem insertRest_append (id : Id) (begun : Stretch Id) (front : List Text) (next : Text)
    (back : List Text) :
    ∃ last ∈ (stretches head guard begun front).getLast?, ∃ after,
      insertRest (head id) guard word (begun id) (front ++ next :: back) =
        insertRest (head id) guard word (begun id) front ++
          (if last id ∧ ¬guard <+: next then word ++ next else next) :: after ∧
      ∃ armed, after = insertRest (head id) guard word armed back := by
  induction front generalizing begun with
  | nil =>
      by_cases fires : begun id = true ∧ ¬guard <+: next
      · refine ⟨begun, rfl, insertRest (head id) guard word (decide (head id <:+: next)) back, ?_, _,
          rfl⟩
        simp only [List.nil_append, if_pos fires]
        exact if_pos fires
      · refine ⟨begun, rfl,
          insertRest (head id) guard word (begun id || decide (head id <:+: next)) back, ?_, _, rfl⟩
        simp only [List.nil_append, if_neg fires]
        exact if_neg fires
  | cons piece front inductionHypothesis =>
      have filled := @stretches_ne_nil _ head guard (headsIn head piece) front
      rw [List.cons_append, insertRest, stretches]
      by_cases guarded : guard <+: piece
      · obtain ⟨last, found, after, split, form⟩ :=
          inductionHypothesis (begun.join (headsIn head piece))
        rw [if_pos guarded, if_neg fun both => both.2 guarded, insertRest,
          if_neg fun both => both.2 guarded]
        exact ⟨last, found, after, congrArg (piece :: ·) split, form⟩
      · obtain ⟨last, found, after, split, form⟩ := inductionHypothesis (headsIn head piece)
        have last_ : (begun :: stretches head guard (headsIn head piece) front).getLast? =
            (stretches head guard (headsIn head piece) front).getLast? := by
          rw [List.getLast?_cons_of_ne_nil filled]
        rw [if_neg guarded, last_, insertRest]
        cases armed : begun id with
        | true =>
            rw [if_pos ⟨rfl, guarded⟩, if_pos ⟨rfl, guarded⟩]
            exact ⟨last, found, after, congrArg ((word ++ piece) :: ·) split, form⟩
        | false =>
            rw [if_neg (by simp), if_neg (by simp)]
            exact ⟨last, found, after, congrArg (piece :: ·) split, form⟩

/-- A piece gets the word at most once. -/
def Grown (guard word before after : Text) : Prop :=
  after = before ∨ ¬guard <+: before ∧ after = word ++ before

theorem Grown.trans (inserted : Inserted head mark guard word) {first second third : Text}
    (before : Grown guard word first second) (after : Grown guard word second third) :
    Grown guard word first third := by
  rcases before with rfl | ⟨isOpen, rfl⟩
  · exact after
  · rcases after with rfl | ⟨stillOpen, -⟩
    · exact Or.inr ⟨isOpen, rfl⟩
    · exact absurd (inserted.guards.trans (List.prefix_append _ _)) stillOpen

/-- A word that does not start in the inserted one is where it was. -/
theorem Grown.infix_iff {other before after : Text}
    (absent : ∀ front back text, word = front ++ back → back ≠ [] → ¬other <+: back ++ text)
    (grown : Grown guard word before after) : other <:+: after ↔ other <:+: before := by
  rcases grown with rfl | ⟨-, rfl⟩
  · rfl
  · exact infix_inserted absent before

theorem Grown.oneLine (inserted : Inserted head mark guard word) {before after : Text}
    (grown : Grown guard word before after) (inLine : '\n' ∉ before) : '\n' ∉ after := by
  rcases grown with rfl | ⟨-, rfl⟩
  · exact inLine
  · intro newline
    rcases List.mem_append.mp newline with inWord | inBefore
    · exact inserted.oneLine inWord
    · exact inLine inBefore

theorem grown_insertRest (id : Id) (armed : Bool) (pieces : List Text) :
    List.Forall₂ (Grown guard word) pieces (insertRest (head id) guard word armed pieces) := by
  induction pieces generalizing armed with
  | nil => exact .nil
  | cons piece rest inductionHypothesis =>
      rw [insertRest]
      split
      · rename_i fires
        exact .cons (Or.inr ⟨fires.2, rfl⟩) (inductionHypothesis _)
      · exact .cons (Or.inl rfl) (inductionHypothesis _)

theorem grown_trans (inserted : Inserted head mark guard word) {first second third : List Text}
    (before : List.Forall₂ (Grown guard word) first second)
    (after : List.Forall₂ (Grown guard word) second third) :
    List.Forall₂ (Grown guard word) first third := by
  induction before generalizing third with
  | nil => exact after
  | cons here _ inductionHypothesis =>
      cases after with
      | cons next others => exact .cons (here.trans inserted next) (inductionHypothesis others)

/-- With one stretch some head has to stand in it. -/
theorem reached_singleton {ids : List Id} {stretch : Stretch Id} :
    Reached ids [stretch] ↔ ∃ id ∈ ids, stretch id = true := by
  induction ids with
  | nil => simp [Reached]
  | cons id ids inductionHypothesis =>
      rw [Reached, show clear id [stretch] = [stretch] from rfl, inductionHypothesis]
      simp

theorem grown_insertAll (inserted : Inserted head mark guard word) (piece : Text) (ids : List Id)
    (pieces : List Text) :
    List.Forall₂ (Grown guard word) pieces (insertAll head guard word piece ids pieces) := by
  induction ids generalizing pieces with
  | nil => exact List.forall₂_same.mpr fun _ _ => Or.inl rfl
  | cons id ids inductionHypothesis =>
      exact grown_trans inserted (grown_insertRest id _ pieces) (inductionHypothesis _)

/-- The scans reach a piece exactly if it is open and reached. -/
theorem insertAll_split (inserted : Inserted head mark guard word) (piece : Text) (ids : List Id)
    (front : List Text) (next : Text) (back : List Text) :
    ∃ front' next' back', insertAll head guard word piece ids (front ++ next :: back) =
        front' ++ next' :: back' ∧
      List.Forall₂ (Grown guard word) front front' ∧ List.Forall₂ (Grown guard word) back back' ∧
      (Reached ids (stretches head guard (headsIn head piece) front) ∧ ¬guard <+: next →
        next' = word ++ next) ∧
      (¬(Reached ids (stretches head guard (headsIn head piece) front) ∧ ¬guard <+: next) →
        next' = next) := by
  have same (pieces : List Text) : List.Forall₂ (Grown guard word) pieces pieces :=
    List.forall₂_same.mpr fun _ _ => Or.inl rfl
  induction ids generalizing front next back with
  | nil =>
      refine ⟨front, next, back, rfl, same front, same back, fun reached => ?_, fun _ => rfl⟩
      exact absurd reached.1 id
  | cons id ids inductionHypothesis =>
      obtain ⟨last, found, after, split, armed, rfl⟩ :=
        @insertRest_append _ head guard word id (headsIn head piece) front next back
      have before := @grown_insertRest _ head guard word id (headsIn head piece id) front
      have behind := @grown_insertRest _ head guard word id armed back
      have cleared := stretches_insertRest inserted id (headsIn head piece) front
      obtain ⟨front', next', back', whole, inFront, inBack, reaches, misses⟩ := inductionHypothesis
        (insertRest (head id) guard word (headsIn head piece id) front)
        (if last id ∧ ¬guard <+: next then word ++ next else next)
        (insertRest (head id) guard word armed back)
      rw [cleared] at reaches misses
      have here : (∃ last ∈ (stretches head guard (headsIn head piece) front).getLast?,
          last id = true) ↔ last id = true := by
        constructor
        · rintro ⟨other, member, yes⟩
          obtain rfl := Option.mem_unique member found
          exact yes
        · exact fun yes => ⟨last, found, yes⟩
      refine ⟨front', next', back', ?_, grown_trans inserted before inFront,
        grown_trans inserted behind inBack, ?_, ?_⟩
      · rw [← whole, insertAll, List.foldl_cons, split]
        rfl
      · rintro ⟨reached, isOpen⟩
        rw [Reached, here] at reached
        by_cases now : last id = true
        · -- the word that was inserted guards the piece
          rw [if_pos ⟨now, isOpen⟩] at misses
          exact misses fun both => both.2 (inserted.guards.trans (List.prefix_append _ _))
        · rw [if_neg fun both => now both.1] at reaches
          exact reaches ⟨reached.resolve_left now, isOpen⟩
      · intro missed
        rw [Reached, here] at missed
        by_cases now : last id = true ∧ ¬guard <+: next
        · exact absurd ⟨Or.inl now.1, now.2⟩ missed
        · rw [if_neg now] at misses
          exact misses fun both => missed ⟨Or.inr both.1, both.2⟩

theorem exists_of_mem_right {First Second : Type} {related : First → Second → Prop}
    {firsts : List First} {seconds : List Second} (all : List.Forall₂ related firsts seconds)
    {second : Second} (member : second ∈ seconds) : ∃ first ∈ firsts, related first second := by
  induction all with
  | nil => cases member
  | cons here _ inductionHypothesis =>
      rcases List.mem_cons.mp member with rfl | later
      · exact ⟨_, by simp, here⟩
      · obtain ⟨first, among, found⟩ := inductionHypothesis later
        exact ⟨first, List.mem_cons_of_mem _ among, found⟩

/-- A run of scans over a text is one over its pieces. -/
theorem foldl_sub_insertRe (inserted : Inserted head mark guard word)
    (separate : ∀ id, Separate (head id) mark guard) (ids : List Id) {piece : Text}
    {pieces : List Text} (clean : ∀ inner ∈ piece :: pieces, ¬mark <:+: inner ∧ '\n' ∉ inner) :
    ids.foldl (fun text id =>
        (insertRe (head id) mark guard).sub (fun m => m.group 1 ++ word) text)
        (piece ++ marked mark pieces) =
      piece ++ marked mark (insertAll head guard word piece ids pieces) := by
  induction ids generalizing pieces with
  | nil => rfl
  | cons id ids inductionHypothesis =>
      have grown := @grown_insertRest _ head guard word id (headsIn head piece id) pieces
      have still : ∀ inner ∈
          piece :: insertRest (head id) guard word (headsIn head piece id) pieces,
          ¬mark <:+: inner ∧ '\n' ∉ inner := by
        intro inner member
        rcases List.mem_cons.mp member with rfl | later
        · exact clean inner (by simp)
        · obtain ⟨before, among, growth⟩ := exists_of_mem_right grown later
          obtain ⟨free, oneLine⟩ := clean before (List.mem_cons_of_mem _ among)
          exact ⟨mt (growth.infix_iff inserted.markless).mp free, growth.oneLine inserted oneLine⟩
      rw [List.foldl_cons, sub_insertRe (separate id) clean]
      exact inductionHypothesis still

end Runs

end LibarenaRs.Regex
