import Mathlib.Data.List.Forall2
import LibarenaRs.Linker.ForceInline
import LibarenaRs.Llvm.Attributes

/-!
# The attribute groups behind force_inline

The strip takes the first word `noinline` out of a group that no brace stands in
front of, wherever that word stands.
-/

namespace LibarenaRs.Linker

open LibarenaRs.Regex LibarenaRs.Llvm

/-! ## The word that is struck -/

/-- What stands behind a word `noinline` right here, or behind a blank and the word. -/
def wordHere (past text : Text) : Option Text :=
  match text.dropPrefix? " noinline".toList with
  | some left => if headIs isWord left then none else some left
  | none =>
      match text.dropPrefix? "noinline".toList with
      | some left => if headIs isWord past || headIs isWord left then none else some left
      | none => none

/-- The text without the first such word in front of a closing brace. -/
def strike : Text → Text → Option Text
  | _, [] => none
  | past, c :: rest =>
      match wordHere past (c :: rest) with
      | some left => some left
      | none => if c = '}' then none else (strike (c :: past) rest).map fun kept => c :: kept

/-- ` ?\bnoinline\b` -/
def noinlineWord : Pattern :=
  .cat [.opt (.chr fun c => c == ' '), .wordBoundary, .lit "noinline".toList, .wordBoundary]

section Run

variable {Answer : Type} {next : Cursor → Option Answer} {past text : Text}
  {groups : List (Nat × Text)}

theorem run_word :
    (Pattern.cat [.wordBoundary, .lit "noinline".toList, .wordBoundary]).run next
        ⟨past, text, groups⟩ =
      match text.dropPrefix? "noinline".toList with
      | some left =>
          if headIs isWord past || headIs isWord left then none
          else next ⟨"noinline".toList.reverse ++ past, left, groups⟩
      | none => none := by
  rw [Pattern.run_cat_cons, Pattern.run_wordBoundary]
  cases found : text.dropPrefix? "noinline".toList with
  | none =>
      rw [Pattern.run_cat_cons, Pattern.run_lit_absent _ (dropPrefix?_eq_none.mp found), ite_self]
  | some left =>
      rw [dropPrefix?_eq_some] at found
      rw [found, Pattern.run_cat_cons, Pattern.run_lit_append, Pattern.run_cat_cons,
        Pattern.run_wordBoundary, Pattern.run_cat_nil]
      have here : headIs isWord ("noinline".toList ++ left) = true := rfl
      have behind : headIs isWord ("noinline".toList.reverse ++ past) = true := rfl
      rw [here, behind]
      cases headIs isWord past with
      | true => rfl
      | false => cases followed : headIs isWord left <;> simp [followed]

theorem run_noinlineWord :
    ∃ before, noinlineWord.run next ⟨past, text, groups⟩ =
      match wordHere past text with
      | some left => next ⟨before, left, groups⟩
      | none => none := by
  rw [noinlineWord, Pattern.run_cat_cons, Pattern.run_opt, run_word, wordHere]
  cases found : text.dropPrefix? " noinline".toList with
  | some left =>
      rw [dropPrefix?_eq_some] at found
      have absent : text.dropPrefix? "noinline".toList = none := by
        rw [dropPrefix?_eq_none, found]
        rintro ⟨more, same⟩
        cases (List.cons.inj same).1
      have blank : text = ' ' :: ("noinline".toList ++ left) := found
      refine ⟨"noinline".toList.reverse ++ ' ' :: past, ?_⟩
      have closed : headIs isWord (' ' :: past) = false := rfl
      rw [absent, blank, Pattern.run_chr_cons, if_pos (by decide), run_word, dropPrefix?_append,
        closed]
      cases followed : headIs isWord left <;> simp [followed]
  | none =>
      have noBlank : (Pattern.chr fun c => c == ' ').run
          ((Pattern.cat [.wordBoundary, .lit "noinline".toList, .wordBoundary]).run next)
          ⟨past, text, groups⟩ = none := by
        cases text with
        | nil => rfl
        | cons c rest =>
            rw [Pattern.run_chr_cons]
            by_cases blank : (c == ' ') = true
            · obtain rfl := eq_of_beq blank
              have absent : rest.dropPrefix? "noinline".toList = none := by
                rw [dropPrefix?_eq_none] at found ⊢
                rintro ⟨more, same⟩
                exact found ⟨more, by rw [← same]; rfl⟩
              rw [if_pos blank, run_word, absent]
            · rw [if_neg blank]
      rw [noBlank]
      refine ⟨"noinline".toList.reverse ++ past, ?_⟩
      cases text.dropPrefix? "noinline".toList with
      | none => rfl
      | some left =>
          by_cases closed : (headIs isWord past || headIs isWord left) = true
          · simp only [if_pos closed]
            rfl
          · simp only [if_neg closed]
            rfl

end Run

theorem strike_nil (past : Text) : strike past [] = none := rfl

/-- The loop in front of the word stops at the first place that has one. -/
theorem map_run_strike {whole : Text} {front past text : Text} (split : whole = front ++ text)
    (filled : front ≠ []) :
    ((Pattern.star false (.chr fun c => c != '}')).run
        (fun after => noinlineWord.run (wholeMatch whole) (after.close 1 whole))
        ⟨past, text, []⟩).map (fun m => m.group 1 ++ whole.drop m.text.length) =
      (strike past text).map (front ++ ·) := by
  have here : ∀ front past text, whole = front ++ text → front ≠ [] →
      (noinlineWord.run (wholeMatch whole)
        (Cursor.close ⟨past, text, []⟩ 1 whole)).map
        (fun m => m.group 1 ++ whole.drop m.text.length) =
      (wordHere past text).map (front ++ ·) := by
    intro front past text split filled
    have group : Cursor.close ⟨past, text, []⟩ 1 whole = ⟨past, text, [(1, front)]⟩ := by
      rw [Cursor.close, split, List.length_append, Nat.add_sub_cancel, List.take_left]
    obtain ⟨before, ran⟩ := @run_noinlineWord _ (wholeMatch whole) past text [(1, front)]
    rw [group, ran]
    cases found : wordHere past text with
    | none => rfl
    | some left =>
        obtain ⟨read, whole_⟩ : ∃ read, text = read ++ left := by
          unfold wordHere at found
          split at found
          · rename_i rest stripped
            split at found
            · cases found
            · cases found
              exact ⟨_, dropPrefix?_eq_some.mp stripped⟩
          · split at found
            · rename_i rest stripped
              split at found
              · cases found
              · cases found
                exact ⟨_, dropPrefix?_eq_some.mp stripped⟩
            · cases found
        have matched := @map_wholeMatch_drop _ whole (front ++ read) left before [(1, front)]
          (by rw [split, whole_, List.append_assoc]) (by simp [filled])
          fun groups => (groups.lookup 1).getD []
        cases made : wholeMatch whole ⟨before, left, [(1, front)]⟩ with
        | none =>
            rw [made] at matched
            cases matched
        | some m =>
            rw [made, Option.map_some, Option.some.injEq, Prod.mk.injEq] at matched
            have group : m.group 1 = front := matched.1
            simp only [made, Option.map_some, group, matched.2]
  rw [Pattern.run_star_chr]
  induction text generalizing front past with
  | nil =>
      have none_ : noinlineWord.run (wholeMatch whole) (Cursor.close ⟨past, [], []⟩ 1 whole) =
          none := by
        have first := here front past [] split filled
        rwa [show wordHere past [] = none from rfl, Option.map_none,
          Option.map_eq_none_iff] at first
      exact congrArg (Option.map _) none_
  | cons c rest inductionHypothesis =>
      have first := here front past (c :: rest) split filled
      have later := @inductionHypothesis (front ++ [c]) (c :: past) (by rw [split]; simp) (by simp)
      rw [Pattern.repeatChr, strike]
      cases found : wordHere past (c :: rest) with
      | some left =>
          rw [found, Option.map_some] at first
          obtain ⟨m, ran, same⟩ := Option.map_eq_some_iff.mp first
          simp [ran, ← same]
      | none =>
          rw [found, Option.map_none, Option.map_eq_none_iff] at first
          by_cases brace : c = '}'
          · subst brace
            simp [first]
          · have accepted : (c != '}') = true := by simpa using brace
            simp only [Bool.false_eq_true, if_false, first, accepted, if_true, if_neg brace]
            refine later.trans ?_
            rw [Option.map_map]
            congr 1
            funext kept
            simp

/-! ## Where the word is struck -/

theorem wordHere_cons {c : Char} (different : c ≠ ' ') (past rest : Text) :
    wordHere past (c :: rest) =
      match (c :: rest).dropPrefix? "noinline".toList with
      | some left => if headIs isWord past || headIs isWord left then none else some left
      | none => none := by
  have absent : (c :: rest).dropPrefix? " noinline".toList = none := by
    rw [dropPrefix?_eq_none]
    rintro ⟨more, same⟩
    exact different (List.cons.inj same).1.symm
  rw [wordHere, absent]

theorem wordHere_blank (past rest : Text) :
    wordHere past (' ' :: rest) =
      match rest.dropPrefix? "noinline".toList with
      | some left => if headIs isWord left then none else some left
      | none => none := by
  have word : " noinline".toList = ' ' :: "noinline".toList := rfl
  rw [wordHere]
  cases found : rest.dropPrefix? "noinline".toList with
  | some left =>
      rw [dropPrefix?_eq_some] at found
      have here : (' ' :: rest).dropPrefix? " noinline".toList = some left := by
        rw [dropPrefix?_eq_some, found, word]
        rfl
      rw [here]
  | none =>
      rw [dropPrefix?_eq_none] at found
      have here : (' ' :: rest).dropPrefix? " noinline".toList = none := by
        rw [dropPrefix?_eq_none, word]
        exact fun starts => found (List.cons_prefix_cons.mp starts).2
      have alone : (' ' :: rest).dropPrefix? "noinline".toList = none := by
        rw [dropPrefix?_eq_none]
        rintro ⟨more, same⟩
        cases (List.cons.inj same).1
      rw [here, alone]

/-- A blank ends the word. -/
theorem wordHere_append (past : Text) {text : Text} (filled : text ≠ []) (tail : Text) :
    wordHere past (text ++ ' ' :: tail) = (wordHere past text).map (· ++ ' ' :: tail) := by
  have stops : headIs isWord (' ' :: tail) = false := rfl
  have ends : ∀ inner : Text, (inner ++ ' ' :: tail).dropPrefix? "noinline".toList =
      (inner.dropPrefix? "noinline".toList).map (· ++ ' ' :: tail) :=
    fun inner => dropPrefix?_stops rfl
  cases text with
  | nil => exact absurd rfl filled
  | cons c rest =>
      by_cases blank : c = ' '
      · subst blank
        rw [List.cons_append, wordHere_blank, wordHere_blank, ends]
        cases rest.dropPrefix? "noinline".toList with
        | none => rfl
        | some left =>
            simp only [Option.map_some, Pattern.headIs_append stops]
            split <;> rfl
      · rw [List.cons_append, wordHere_cons blank, wordHere_cons blank, ← List.cons_append, ends]
        cases (c :: rest).dropPrefix? "noinline".toList with
        | none => rfl
        | some left =>
            simp only [Option.map_some, Pattern.headIs_append stops]
            split <;> rfl

/-- In front of a blank the text is struck on its own. -/
theorem strike_append (past text tail : Text) :
    strike past (text ++ ' ' :: tail) =
      match strike past text with
      | some kept => some (kept ++ ' ' :: tail)
      | none =>
          if '}' ∈ text then none
          else (strike (text.reverse ++ past) (' ' :: tail)).map fun kept => text ++ kept := by
  induction text generalizing past with
  | nil =>
      rw [strike_nil, if_neg (by simp)]
      exact Option.map_id'.symm
  | cons c rest inductionHypothesis =>
      have here := wordHere_append past (List.cons_ne_nil c rest) tail
      rw [List.cons_append] at here
      rw [List.cons_append, strike, here, strike]
      cases wordHere past (c :: rest) with
      | some left => rfl
      | none =>
          by_cases brace : c = '}'
          · simp [brace]
          · simp only [Option.map_none, if_neg brace, inductionHypothesis]
            cases strike (c :: past) rest with
            | some kept => rfl
            | none =>
                have different : '}' ≠ c := fun same => brace same.symm
                by_cases inside : '}' ∈ rest
                · simp [inside]
                · simp [inside, different, Function.comp_def]

theorem wordHere_eq_some {past text left : Text} (found : wordHere past text = some left) :
    headIs isWord left = false ∧
      (text = ' ' :: ("noinline".toList ++ left) ∨
        text = "noinline".toList ++ left ∧ headIs isWord past = false) := by
  unfold wordHere at found
  split at found
  · rename_i rest stripped
    split at found
    · cases found
    · rename_i closed
      cases found
      exact ⟨by simpa using closed, Or.inl (dropPrefix?_eq_some.mp stripped)⟩
  · split at found
    · rename_i rest stripped
      split at found
      · cases found
      · rename_i closed
        cases found
        rw [Bool.or_eq_true, not_or] at closed
        exact ⟨by simpa using closed.2,
          Or.inr ⟨dropPrefix?_eq_some.mp stripped, by simpa using closed.1⟩⟩
    · cases found

theorem wordHere_word {past after : Text} (opens : headIs isWord past = false)
    (closes : headIs isWord after = false) :
    wordHere past ("noinline".toList ++ after) = some after := by
  have split : "noinline".toList ++ after = 'n' :: ("oinline".toList ++ after) := rfl
  rw [split, wordHere_cons (by decide), ← split, dropPrefix?_append, opens]
  simp [closes]

theorem strike_eq_none_iff {past text : Text} :
    strike past text = none ↔ ∀ before after, text = before ++ ("noinline".toList ++ after) →
      '}' ∉ before → headIs isWord (before.reverse ++ past) = false →
      headIs isWord after = true := by
  induction text generalizing past with
  | nil => simp [strike]
  | cons c rest inductionHypothesis =>
      rw [strike]
      cases found : wordHere past (c :: rest) with
      | some left =>
          obtain ⟨closes, blank | ⟨bare, opens⟩⟩ := wordHere_eq_some found
          · simp only [reduceCtorEq, false_iff, not_forall]
            exact ⟨[' '], left, by rw [blank]; rfl, by decide, rfl, by simp [closes]⟩
          · simp only [reduceCtorEq, false_iff, not_forall]
            exact ⟨[], left, by rw [bare]; rfl, by simp, opens, by simp [closes]⟩
      | none =>
          have notHere : ∀ after, c :: rest = "noinline".toList ++ after →
              headIs isWord past = false → headIs isWord after = true := by
            intro after split opens
            by_contra closes
            rw [split, wordHere_word opens (by simpa using closes)] at found
            cases found
          by_cases brace : c = '}'
          · simp only [if_pos brace, true_iff]
            intro before after split clean opens
            cases before with
            | nil => exact notHere after split opens
            | cons d before =>
                rw [brace] at split
                exact absurd (by simp [(List.cons.inj split).1.symm]) clean
          · rw [if_neg brace, Option.map_eq_none_iff, inductionHypothesis]
            constructor
            · intro later before after split clean opens
              cases before with
              | nil => exact notHere after split opens
              | cons d before =>
                  obtain ⟨rfl, tail⟩ := List.cons.inj split
                  exact later before after tail (fun member => clean (List.mem_cons_of_mem _ member))
                    (by simpa using opens)
            · intro all before after split clean opens
              have different : '}' ≠ c := fun same => brace same.symm
              exact all (c :: before) after (by rw [split]; rfl) (by simp [different, clean])
                (by simpa using opens)

/-- A struck text keeps what stands around the word. -/
theorem strike_eq_some {past text kept : Text} (found : strike past text = some kept) :
    ∃ before word after, text = before ++ (word ++ after) ∧ kept = before ++ after ∧
      (word = " noinline".toList ∨ word = "noinline".toList) := by
  induction text generalizing past kept with
  | nil => cases found
  | cons c rest inductionHypothesis =>
      rw [strike] at found
      split at found
      · rename_i left here
        cases found
        obtain ⟨-, blank | ⟨bare, -⟩⟩ := wordHere_eq_some here
        · exact ⟨[], _, kept, blank, rfl, Or.inl rfl⟩
        · exact ⟨[], _, kept, bare, rfl, Or.inr rfl⟩
      · split at found
        · cases found
        · obtain ⟨tail, later, rfl⟩ := Option.map_eq_some_iff.mp found
          obtain ⟨before, word, after, split, rest_, form⟩ := inductionHypothesis later
          exact ⟨c :: before, word, after, by rw [split]; rfl, by rw [rest_]; rfl, form⟩

/-! ## Groups -/

/-- The word stands in the text, with no closing brace in front of it. -/
def HidesWord (text : Text) : Prop :=
  ∃ before after, text = before ++ ("noinline".toList ++ after) ∧ '}' ∉ before ∧
    headIs isWord before.reverse = false ∧ headIs isWord after = false

theorem strike_blank_eq_none_iff {past text : Text} :
    strike past (' ' :: text) = none ↔ ¬HidesWord text := by
  have opens (before : Text) : headIs isWord ((' ' :: before).reverse ++ past) =
      headIs isWord before.reverse := by
    rw [List.reverse_cons, List.append_assoc]
    exact Pattern.headIs_append rfl
  rw [strike_eq_none_iff]
  constructor
  · rintro none_ ⟨before, after, rfl, clean, start, stop⟩
    have closed := none_ (' ' :: before) after rfl (by simpa using clean) (by rw [opens, start])
    rw [stop] at closed
    cases closed
  · intro free before after split clean start
    cases before with
    | nil => cases (List.cons.inj split).1
    | cons d before =>
        obtain ⟨rfl, tail⟩ := List.cons.inj split
        by_contra stop
        refine free ⟨before, after, tail, fun member => clean (List.mem_cons_of_mem _ member), ?_,
          by simpa using stop⟩
        rw [← opens, start]

/-- Of the bare words only `noinline` itself is the word. -/
theorem not_hidesWord_enum {name : Keyword} (different : Attribute.enum name ≠ .noinline) :
    ¬HidesWord name.val := by
  rintro ⟨before, after, split, -, start, stop⟩
  have words := name.property.2
  rw [split, List.all_append, List.all_append, Bool.and_eq_true, Bool.and_eq_true] at words
  have noneBefore : before = [] := by
    cases reversed : before.reverse with
    | nil => exact List.reverse_eq_nil_iff.mp reversed
    | cons d others =>
        have member : d ∈ before := List.mem_reverse.mp (by rw [reversed]; simp)
        rw [reversed] at start
        have word := List.all_eq_true.mp words.1 d member
        rw [show isWord d = false from start] at word
        cases word
  have noneAfter : after = [] := by
    cases after with
    | nil => rfl
    | cons d others =>
        have word := List.all_eq_true.mp words.2.2 d (by simp)
        rw [show isWord d = false from stop] at word
        cases word
  apply different
  rw [noneBefore, noneAfter, List.append_nil, List.nil_append] at split
  exact congrArg Attribute.enum (Subtype.ext split)

/-- A struck attribute cannot be taken for the whole one. -/
theorem struck_ne {entry : Attribute} (different : entry ≠ .noinline) {past kept : Text}
    (struck : strike past (' ' :: entry.print) = some kept) (rest other : Text) :
    kept ++ rest ≠ (' ' :: entry.print) ++ other := by
  obtain ⟨name, rfl⟩ | ⟨front, last, ends, noLetter, noBlank⟩ := entry.print_ends
  · have unstruck : strike past (' ' :: (Attribute.enum name).print) = none :=
      strike_blank_eq_none_iff.mpr (not_hidesWord_enum different)
    rw [unstruck] at struck
    cases struck
  · obtain ⟨before, word, after, split, rfl, form⟩ := strike_eq_some struck
    let letter : Char → Bool := fun c => c.isAlpha || c == ' '
    have letters : word.all letter = true := by
      rcases form with rfl | rfl <;> decide
    have stopped : letter last = false := by simp [letter, noLetter, noBlank]
    -- the last character stands behind the word
    have inside : after.all letter = false := by
      rw [Bool.eq_false_iff]
      intro all
      have behind : (word ++ after).all letter = true := by rw [List.all_append, letters, all]; rfl
      have whole : before ++ (word ++ after) = (' ' :: front) ++ [last] := by
        rw [← split, ends]
        rfl
      rcases List.append_eq_append_iff.mp whole with ⟨more, -, tail⟩ | ⟨more, -, tail⟩
      · rw [tail, List.all_append, Bool.and_eq_true, List.all_cons, stopped] at behind
        cases behind.2
      · cases more with
        | nil =>
            rw [← List.nil_append (word ++ after), ← tail, List.all_cons, stopped] at behind
            cases behind
        | cons d more =>
            have lengths := congrArg List.length tail
            have positive : 0 < word.length := by rcases form with rfl | rfl <;> decide
            simp only [List.length_cons, List.length_nil, List.length_append] at lengths
            omega
    intro same
    rw [split, List.append_assoc, List.append_assoc, List.append_assoc] at same
    have tails := congrArg (fun text => (text.takeWhile letter).length)
      (List.append_cancel_left same)
    obtain ⟨d, more, stop, member, refused⟩ := dropWhile_inside inside []
    have cut : ∀ tail : Text, ((after ++ tail).takeWhile letter).length =
        (after.takeWhile letter).length := by
      intro tail
      rw [List.takeWhile_append, if_neg]
      intro whole
      have all := (List.takeWhile_prefix letter).eq_of_length whole
      rw [← all, List.all_takeWhile] at inside
      cases inside
    have positive : 0 < word.length := by rcases form with rfl | rfl <;> decide
    simp only [cut] at tails
    rw [List.takeWhile_append_of_pos (List.all_eq_true.mp letters), List.length_append, cut]
      at tails
    omega

/-- In front of `noinline`, or anywhere if it is not there, no attribute hides the word
and no closing brace hides the attribute. -/
def Clear : List Attribute → Prop
  | [] => True
  | first :: others =>
      first = .noinline ∨ ¬HidesWord first.print ∧
        (('}' ∈ first.print → .noinline ∉ others) ∧ ('}' ∉ first.print → Clear others))

theorem printAttributes_blank (attributes : List Attribute) :
    ∃ rest, printAttributes attributes ++ ['}'] = ' ' :: rest := by
  cases attributes with
  | nil => exact ⟨['}'], rfl⟩
  | cons first others => exact ⟨_, by rw [printAttributes_cons]; rfl⟩

theorem strike_attributes (past : Text) (first : Attribute) (others : List Attribute) :
    strike past (printAttributes (first :: others) ++ ['}']) =
      match strike past (' ' :: first.print) with
      | some kept => some (kept ++ (printAttributes others ++ ['}']))
      | none =>
          if '}' ∈ first.print then none
          else (strike ((' ' :: first.print).reverse ++ past)
            (printAttributes others ++ ['}'])).map fun kept => (' ' :: first.print) ++ kept := by
  obtain ⟨rest, blank⟩ := printAttributes_blank others
  rw [printAttributes_cons, List.append_assoc, blank, strike_append]
  simp

/-- A group that holds `noinline` is longer than without it. -/
theorem printAttributes_without_iff {attributes : List Attribute} :
    printAttributes attributes ++ ['}'] =
        printAttributes (without .noinline attributes) ++ ['}'] ↔
      .noinline ∉ attributes := by
  constructor
  · intro same member
    have shorter : ∀ list : List Attribute, (printAttributes (without .noinline list)).length +
        list.count .noinline ≤ (printAttributes list).length := by
      intro list
      induction list with
      | nil => exact Nat.le_refl _
      | cons first others inductionHypothesis =>
          rw [without] at inductionHypothesis ⊢
          rw [printAttributes_cons, List.length_append, List.count_cons, List.length_cons]
          by_cases word : first = .noinline
          · rw [List.filter_cons_of_neg (by simpa using word), if_pos (by simpa using word)]
            omega
          · rw [List.filter_cons_of_pos (by simpa using word), if_neg (by simpa using word),
              printAttributes_cons, List.length_append, List.length_cons]
            omega
    have bound := shorter attributes
    rw [← List.append_cancel_right same] at bound
    have positive := List.count_pos_iff.mpr member
    omega
  · intro absent
    rw [without_of_not_mem absent]

/-- The content that is left is that of the other attributes. -/
theorem strike_attributes_iff {attributes : List Attribute} (nodup : attributes.Nodup)
    (past : Text) :
    (strike past (printAttributes attributes ++ ['}'])).getD (printAttributes attributes ++ ['}']) =
        printAttributes (without .noinline attributes) ++ ['}'] ↔
      Clear attributes := by
  induction attributes generalizing past with
  | nil => exact ⟨fun _ => trivial, fun _ => rfl⟩
  | cons first others inductionHypothesis =>
      obtain ⟨fresh, nodup⟩ := List.nodup_cons.mp nodup
      rw [strike_attributes, Clear]
      by_cases word : first = .noinline
      · subst word
        have struck : strike past (' ' :: Attribute.noinline.print) = some [] := by
          have here : wordHere past (' ' :: Attribute.noinline.print) = some [] :=
            wordHere_blank past _
          rw [strike, here]
        have rest : without .noinline (Attribute.noinline :: others) = others := by
          rw [without, List.filter_cons_of_neg (by simp)]
          exact without_of_not_mem fresh
        rw [struck, rest]
        simp
      · have without_ : without .noinline (first :: others) = first :: without .noinline others := by
          rw [without, List.filter_cons_of_pos (by simpa using word)]
          rfl
        have split (rest : List Attribute) : printAttributes (first :: rest) ++ ['}'] =
            (' ' :: first.print) ++ (printAttributes rest ++ ['}']) := by
          rw [printAttributes_cons, List.append_assoc]
        rw [without_, split, split]
        simp only [word, false_or]
        cases struck : strike past (' ' :: first.print) with
        | some kept =>
            have hidden : HidesWord first.print := by
              by_contra free
              rw [strike_blank_eq_none_iff.mpr free] at struck
              cases struck
            simp only [Option.getD_some, hidden, not_true_eq_false, false_and, iff_false]
            exact struck_ne word struck _ _
        | none =>
            have free := strike_blank_eq_none_iff.mp struck
            by_cases brace : '}' ∈ first.print
            · simp only [free, brace, not_true_eq_false, false_implies, and_true, true_implies,
                not_false_eq_true, true_and, if_true, Option.getD_none, List.append_cancel_left_eq]
              exact printAttributes_without_iff
            · rw [if_neg brace]
              simp only [free, brace, not_false_eq_true, true_implies, true_and, false_implies]
              rw [← inductionHypothesis nodup ((' ' :: first.print).reverse ++ past)]
              cases strike ((' ' :: first.print).reverse ++ past) (printAttributes others ++ ['}']) with
              | none => exact List.append_right_inj _
              | some kept => exact List.append_right_inj _

/-- What stands in front of the attributes of a group. -/
def groupHead (index : Nat) : Text := "attributes #".toList ++ printNat index ++ " = \x7b".toList

theorem AttributeGroup.print_eq (group : AttributeGroup) :
    group.print = groupHead group.index ++ (group.content.val ++ ['}']) := by
  unfold AttributeGroup.print groupHead
  simp

theorem run_groupHead {Answer : Type} (next : Cursor → Option Answer) (index : Nat) (text : Text) :
    (Pattern.cat [.lit "attributes #".toList, .plus true (.chr Char.isDigit),
        .lit " = \x7b".toList, .star false (.chr fun c => c != '}')]).run next
        ⟨[], groupHead index ++ text, []⟩ =
      (Pattern.star false (.chr fun c => c != '}')).run next
        ⟨(groupHead index).reverse, text, []⟩ := by
  have stuck : ∀ past c rest, Char.isDigit c = true →
      (Pattern.cat [.lit " = \x7b".toList, .star false (.chr fun c => c != '}')]).run next
        ⟨past, c :: rest, []⟩ = none := by
    intro past c rest digit
    apply Pattern.run_lit_absent
    rintro ⟨more, same⟩
    have blank : ' ' :: ("= \x7b".toList ++ more) = c :: rest := same
    rw [← (List.cons.inj blank).1] at digit
    exact absurd digit (by decide)
  have behind : " = \x7b".toList ++ text = ' ' :: ("= \x7b".toList ++ text) := rfl
  have filled : printNat index ≠ [] := Nat.toDigits_ne_nil
  unfold groupHead
  rw [List.append_assoc, List.append_assoc, Pattern.run_cat_cons, Pattern.run_lit_append,
    Pattern.run_cat_cons, Pattern.run_plus_maximal stuck, behind,
    takeWhile_stop (isDigit_printNat index) (by decide),
    dropWhile_stop (isDigit_printNat index) (by decide), if_neg filled, ← behind,
    Pattern.run_cat_cons, Pattern.run_lit_append, List.reverse_append, List.reverse_append,
    List.append_nil]
  rfl

/-- What the strip makes of a group. -/
theorem subLine_group (group : AttributeGroup) :
    noinlineRe.subLine (fun m => m.group 1) group.print =
      groupHead group.index ++
        (strike (groupHead group.index).reverse (group.content.val ++ ['}'])).getD
          (group.content.val ++ ['}']) := by
  have line := AttributeGroup.print_eq group
  have matched : (noinlineRe.matchAt [] group.print).map
      (fun m => m.group 1 ++ group.print.drop m.text.length) =
      (strike (groupHead group.index).reverse (group.content.val ++ ['}'])).map
        (groupHead group.index ++ ·) := by
    have filled : groupHead group.index ≠ [] :=
      List.append_ne_nil_of_right_ne_nil _ (by decide)
    have opened := run_groupHead
      (fun after => noinlineWord.run (wholeMatch group.print) (after.close 1 group.print))
      group.index (group.content.val ++ ['}'])
    rw [← line] at opened
    rw [← @map_run_strike _ _ (groupHead group.index).reverse _ line filled, ← opened]
    rfl
  rw [Pattern.subLine]
  cases found : noinlineRe.matchAt [] group.print with
  | none =>
      rw [found, Option.map_none, eq_comm, Option.map_eq_none_iff] at matched
      rw [matched]
      exact line
  | some m =>
      rw [found, Option.map_some] at matched
      obtain ⟨kept, struck, same⟩ := Option.map_eq_some_iff.mp matched.symm
      rw [struck]
      exact same.symm

/-! ## Lines -/

/-- The lines of an item, with the attribute group they are. -/
def Item.grouped : Item → List (Option AttributeGroup × Text)
  | .attributeGroup group => [(some group, group.print)]
  | item => item.lines.map fun line => (none, line)

theorem grouped_of_ne {item : Item} (other : ∀ group, item ≠ .attributeGroup group) :
    Item.grouped item = item.lines.map fun line => (none, line) := by
  cases item with
  | attributeGroup group => exact absurd rfl (other group)
  | function | declaration | global | other => rfl

theorem mem_grouped_of_ne {item : Item} (other : ∀ group, item ≠ .attributeGroup group)
    {group? : Option AttributeGroup} {line : Text} :
    (group?, line) ∈ Item.grouped item ↔ group? = none ∧ line ∈ item.lines := by
  rw [grouped_of_ne other, List.mem_map]
  constructor
  · rintro ⟨found, member, same⟩
    cases same
    exact ⟨rfl, member⟩
  · rintro ⟨rfl, member⟩
    exact ⟨line, member, rfl⟩

/-- The lines of a module, with the attribute groups they are. -/
def grouped (m : Module) : List (Option AttributeGroup × Text) := m.flatMap Item.grouped

def attributeGroups (m : Module) : List AttributeGroup :=
  m.filterMap fun
    | .attributeGroup group => some group
    | _ => none

theorem map_grouped (m : Module) : (grouped m).map Prod.snd = m.lines := by
  induction m with
  | nil => rfl
  | cons item others inductionHypothesis =>
      have first : (Item.grouped item).map Prod.snd = item.lines := by
        cases item with
        | attributeGroup group => rfl
        | function | declaration | global | other =>
            rw [grouped_of_ne (by simp), List.map_map]
            exact List.map_id' _
      rw [grouped, List.flatMap_cons, List.map_append, first, ← grouped, inductionHypothesis]
      rfl

theorem mem_grouped_some {m : Module} {group : AttributeGroup} {line : Text} :
    (some group, line) ∈ grouped m ↔ group ∈ attributeGroups m ∧ line = group.print := by
  simp only [grouped, attributeGroups, List.mem_flatMap, List.mem_filterMap]
  constructor
  · rintro ⟨item, member, inside⟩
    cases item with
    | attributeGroup found =>
        cases List.mem_singleton.mp inside
        exact ⟨⟨_, member, rfl⟩, rfl⟩
    | function | declaration | global | other =>
        cases ((mem_grouped_of_ne (by simp)).mp inside).1
  · rintro ⟨⟨item, member, selected⟩, rfl⟩
    cases item with
    | attributeGroup found =>
        cases selected
        exact ⟨_, member, List.mem_singleton.mpr rfl⟩
    | function | declaration | global | other => cases selected

/-- Only groups start with that word. -/
theorem firstWord_of_mem_grouped {m : Module} {line : Text} (member : (none, line) ∈ grouped m) :
    firstWord line ≠ "attributes".toList := by
  obtain ⟨item, -, inside⟩ := List.mem_flatMap.mp member
  have inLines (other : ∀ group, item ≠ .attributeGroup group) : line ∈ item.lines :=
    ((mem_grouped_of_ne other).mp inside).2
  cases item with
  | attributeGroup group => cases List.mem_singleton.mp inside
  | function header body =>
      rcases List.mem_cons.mp (inLines (by simp)) with rfl | later
      · rw [firstWord_defineLine]
        decide
      · obtain ⟨inner, -, rfl⟩ := List.mem_map.mp later
        exact fun same => inner.property.2.2 (by simp [same])
  | declaration metadata header =>
      rw [List.mem_singleton.mp (inLines (by simp)), firstWord_declareLine]
      decide
  | global variable_ =>
      obtain ⟨rest, word⟩ := firstWord_global variable_
      rw [List.mem_singleton.mp (inLines (by simp)), word]
      exact fun same => absurd (List.cons.inj same).1 (by decide)
  | other other =>
      rw [List.mem_singleton.mp (inLines (by simp))]
      exact fun same => other.property.2.2 (by simp [same])

/-! ## What is kept -/

/-- The line of a group lists the other attributes, at least one; other lines are as
they were. -/
def LineKept (sets : AttributeGroup → AttributeSet) (before : Option AttributeGroup × Text)
    (after : Text) : Prop :=
  match before.1 with
  | none => after = before.2
  | some group => ∃ remaining : AttributeSet,
      remaining.attributes = without .noinline (sets group).attributes ∧
        after = AttributeGroup.print ⟨group.index, remaining.content⟩

/-- The groups of the module, with these attributes, lose `noinline` and nothing else. -/
def KeepsGroups (m : Module) (sets : AttributeGroup → AttributeSet) (out : Text) : Prop :=
  ∃ lines, out = joinLines lines ∧ (∀ line ∈ lines, '\n' ∉ line) ∧
    List.Forall₂ (LineKept sets) (grouped m) lines

theorem without_eq_nil_iff (set : AttributeSet) :
    without .noinline set.attributes = [] ↔ set.attributes = [.noinline] := by
  constructor
  · intro nothing
    have all : ∀ entry ∈ set.attributes, entry = .noinline := by
      intro entry member
      have removed := List.filter_eq_nil_iff.mp nothing entry member
      simpa using removed
    cases shape : set.attributes with
    | nil => exact absurd shape set.filled
    | cons first others =>
        have nodup := set.nodup
        rw [shape] at all nodup
        cases others with
        | nil => rw [all first (by simp)]
        | cons second others =>
            have same : first = second := (all first (by simp)).trans (all second (by simp)).symm
            exact absurd (by simp [same]) (List.nodup_cons.mp nodup).1
  · intro alone
    rw [alone]
    exact List.filter_cons_of_neg (by simp)

/-- When the line of a group is kept. -/
theorem groupLineKept_iff {sets : AttributeGroup → AttributeSet} {group : AttributeGroup}
    (described : group.content = (sets group).content) (line : Text) :
    LineKept sets (some group, line) (noinlineRe.subLine (fun m => m.group 1) group.print) ↔
      (sets group).attributes ≠ [.noinline] ∧ Clear (sets group).attributes := by
  have content : group.content.val = printAttributes (sets group).attributes :=
    congrArg Subtype.val described
  have struck := strike_attributes_iff (sets group).nodup (groupHead group.index).reverse
  have printed (remaining : AttributeSet)
      (rest : remaining.attributes = without .noinline (sets group).attributes) :
      AttributeGroup.print ⟨group.index, remaining.content⟩ = groupHead group.index ++
        (printAttributes (without .noinline (sets group).attributes) ++ ['}']) := by
    rw [AttributeGroup.print_eq, ← rest]
    rfl
  rw [subLine_group, content, ← struck, ne_eq, ← without_eq_nil_iff]
  constructor
  · rintro ⟨remaining, rest, same⟩
    rw [printed remaining rest] at same
    refine ⟨?_, List.append_cancel_left same⟩
    rw [← rest]
    exact remaining.filled
  · rintro ⟨filled, same⟩
    refine ⟨⟨_, filled, (sets group).nodup.filter _⟩, rfl, ?_⟩
    rw [same, printed _ rfl]

/-- The strip works line by line. -/
theorem keepsGroups_iff (m : Module) (keepFile : Text) (sets : AttributeGroup → AttributeSet) :
    KeepsGroups m sets (forceInline keepFile m.text).out ↔
      ∀ entry ∈ grouped m,
        LineKept sets entry (noinlineRe.subLine (fun m => m.group 1) entry.2) := by
  have strip := @Pattern.sub_lines noinlineBody m.lines (by decide)
    (fun line member => Module.oneLine member) (noinlineRe_stays m) fun m => m.group 1
  have out : (forceInline keepFile m.text).out =
      joinLines (m.lines.map (noinlineRe.subLine fun m => m.group 1)) := strip
  have oneLine : ∀ entry ∈ grouped m,
      '\n' ∉ noinlineRe.subLine (fun m => m.group 1) entry.2 := by
    intro entry member
    have inLines : entry.2 ∈ m.lines := by
      rw [← map_grouped]
      exact List.mem_map_of_mem member
    rcases subLine_noinlineRe (Module.oneLine inLines) with same | ⟨-, -, clean⟩
    · rw [same]
      exact Module.oneLine inLines
    · exact clean
  rw [KeepsGroups, out, ← map_grouped]
  exact kept_lines_iff oneLine (LineKept sets)

/-- The groups lose `noinline` and nothing else exactly if none of them is `noinline`
alone and in none of them something hides it. -/
theorem force_inline_keepsGroups_iff (m : Module) (keepFile : Text)
    (sets : AttributeGroup → AttributeSet)
    (described : ∀ group ∈ attributeGroups m, group.content = (sets group).content) :
    KeepsGroups m sets (forceInline keepFile m.text).out ↔
      ∀ group ∈ attributeGroups m,
        (sets group).attributes ≠ [.noinline] ∧ Clear (sets group).attributes := by
  rw [keepsGroups_iff]
  constructor
  · intro kept group member
    have here := kept (some group, group.print) (mem_grouped_some.mpr ⟨member, rfl⟩)
    exact (groupLineKept_iff (described group member) _).mp here
  · rintro clear ⟨group | group, line⟩ member
    · have inLines : line ∈ m.lines := by
        rw [← map_grouped]
        exact List.mem_map_of_mem member
      rcases subLine_noinlineRe (Module.oneLine inLines) with same | ⟨word, -, -⟩
      · exact same
      · exact absurd word (firstWord_of_mem_grouped member)
    · obtain ⟨inModule, rfl⟩ := mem_grouped_some.mp member
      exact (groupLineKept_iff (described group inModule) _).mpr (clear group inModule)

instance (text : Text) : Decidable (HidesWord text) :=
  decidable_of_iff (strike [] (' ' :: text) ≠ none) (by rw [ne_eq, strike_blank_eq_none_iff, not_not])

/-- The word in a string attribute is struck in place of the attribute. -/
example : ¬Clear [.string "cold noinline".toList [], .noinline] := by
  rintro (same | ⟨free, -⟩)
  · cases same
  · exact free (by decide)

/-- A module that is one group. -/
def groupModule (set : AttributeSet) : Module := [.attributeGroup ⟨0, set.content⟩]

/-- `{ noinline "a"="b" }` -/
def twoAttributes : AttributeSet :=
  ⟨[.noinline, .string "a".toList "b".toList], by decide, by decide⟩

theorem force_inline_keepsGroups_two :
    KeepsGroups (groupModule twoAttributes) (fun _ => twoAttributes)
      (forceInline [] (groupModule twoAttributes).text).out :=
  (force_inline_keepsGroups_iff _ _ _ (by
    intro group member
    rw [List.mem_singleton.mp member])).mpr fun _ _ => ⟨by decide, Or.inl rfl⟩

/-- `{ noinline }` -/
def oneAttribute : AttributeSet := ⟨[.noinline], by decide, by decide⟩

/-- The only group becomes empty. -/
theorem force_inline_keepsGroups_alone :
    ¬KeepsGroups (groupModule oneAttribute) (fun _ => oneAttribute)
      (forceInline [] (groupModule oneAttribute).text).out := by
  intro kept
  rw [keepsGroups_iff] at kept
  have here := kept (some ⟨0, oneAttribute.content⟩, _) (List.mem_singleton.mpr rfl)
  have clear := (@groupLineKept_iff (fun _ => oneAttribute) ⟨0, oneAttribute.content⟩ rfl _).mp here
  exact clear.1 rfl

end LibarenaRs.Linker
