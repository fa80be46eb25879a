import LibarenaRs.Regex.Captures
import LibarenaRs.Linker.LowerMem
import LibarenaRs.Linker.TrapText

/-!
# Which memory calls are lowered

An operand may hold anything with its parentheses closed.  The pattern for operands
reads exactly those whose parentheses stand side by side and never in one another, and
a call with any other operand stays as it is.
-/

namespace LibarenaRs.Linker

open LibarenaRs.Regex LibarenaRs.Llvm

/-! ## Parentheses -/

/-- How many parentheses are open behind a character; none if it closes one too many, or
is a comma outside of all. -/
def levelBehind (level : Nat) (c : Char) : Option Nat :=
  if c = '(' then some (level + 1)
  else if c = ')' then if level = 0 then none else some (level - 1)
  else if c = ',' ∧ level = 0 then none
  else some level

def levels : Nat → Text → Option Nat
  | level, [] => some level
  | level, c :: text => (levelBehind level c).bind fun level => levels level text

/-- The most parentheses open at once. -/
def deepest : Nat → Text → Nat
  | level, [] => level
  | level, c :: text => max level (deepest ((levelBehind level c).getD level) text)

theorem levels_append (level : Nat) (first second : Text) :
    levels level (first ++ second) = (levels level first).bind fun level => levels level second := by
  induction first generalizing level with
  | nil => rfl
  | cons c first inductionHypothesis =>
      rw [List.cons_append, levels, levels, Option.bind_assoc]
      congr 1
      funext behind
      exact inductionHypothesis behind

theorem deepest_append {level middle : Nat} {first : Text} (closed : levels level first = some middle)
    (second : Text) :
    deepest level (first ++ second) = max (deepest level first) (deepest middle second) := by
  induction first generalizing level with
  | nil =>
      obtain rfl : level = middle := Option.some.inj closed
      rw [List.nil_append, deepest, max_eq_right]
      cases second with
      | nil => exact Nat.le_refl _
      | cons c second => exact Nat.le_max_left _ _
  | cons c first inductionHypothesis =>
      rw [levels] at closed
      obtain ⟨behind, moves, later⟩ := Option.bind_eq_some_iff.mp closed
      rw [List.cons_append, deepest, deepest, moves, Option.getD_some, inductionHypothesis later,
        max_assoc]

theorem levels_plain {level : Nat} {text : Text}
    (plain : ∀ c ∈ text, c ≠ '(' ∧ c ≠ ')' ∧ (c = ',' → level ≠ 0)) :
    levels level text = some level ∧ deepest level text = level := by
  induction text with
  | nil => exact ⟨rfl, rfl⟩
  | cons c text inductionHypothesis =>
      obtain ⟨opens, closes, comma⟩ := plain c List.mem_cons_self
      have here : levelBehind level c = some level := by
        rw [levelBehind, if_neg opens, if_neg closes, if_neg fun both => comma both.1 both.2]
      obtain ⟨same, deep⟩ := inductionHypothesis fun d member =>
        plain d (List.mem_cons_of_mem _ member)
      exact ⟨by rw [levels, here, Option.bind_some, same],
        by rw [deepest, here, Option.getD_some, deep, max_self]⟩

/-- A group without parentheses inside. -/
theorem levels_group {inner : Text} (plain : ∀ c ∈ inner, c ≠ '(' ∧ c ≠ ')') :
    levels 0 ('(' :: (inner ++ [')'])) = some 0 ∧ deepest 0 ('(' :: (inner ++ [')'])) = 1 := by
  obtain ⟨same, deep⟩ := @levels_plain 1 inner fun c member =>
    ⟨(plain c member).1, (plain c member).2, fun _ => Nat.one_ne_zero⟩
  have opens : levelBehind 0 '(' = some 1 := rfl
  constructor
  · rw [levels, opens, Option.bind_some, levels_append, same]
    rfl
  · rw [deepest, opens, Option.getD_some, deepest_append same, deep]
    rfl

/-- Inside of a flat group the next parenthesis closes it. -/
theorem group_closes {text : Text} (closed : levels 1 text = some 0) (flat : deepest 1 text ≤ 1) :
    ∃ inner rest, text = inner ++ ')' :: rest ∧ (∀ c ∈ inner, c ≠ '(' ∧ c ≠ ')') ∧
      levels 0 rest = some 0 ∧ deepest 0 rest ≤ 1 := by
  induction text with
  | nil => cases closed
  | cons c text inductionHypothesis =>
      rw [deepest, Nat.max_le] at flat
      by_cases closes : c = ')'
      · subst closes
        exact ⟨[], text, rfl, by simp, closed, flat.2⟩
      · have notOpen : c ≠ '(' := by
          rintro rfl
          have deep : 2 ≤ deepest 2 text := by
            cases text with
            | nil => exact Nat.le_refl _
            | cons d text => exact Nat.le_max_left _ _
          exact absurd flat.2 (Nat.not_le.mpr deep)
        have here : levelBehind 1 c = some 1 := by
          rw [levelBehind, if_neg notOpen, if_neg closes, if_neg fun both => absurd both.2 (by decide)]
        rw [levels, here, Option.bind_some] at closed
        rw [here] at flat
        obtain ⟨inner, rest, rfl, plain, later⟩ := inductionHypothesis closed flat.2
        refine ⟨c :: inner, rest, rfl, ?_, later⟩
        intro d member
        rcases List.mem_cons.mp member with rfl | inside
        · exact ⟨notOpen, closes⟩
        · exact plain d inside

/-! ## What the operand pattern reads -/

/-- The pieces of an operand: a character, or a group without groups inside. -/
theorem argBody_words {part : Text} :
    (Pattern.alt (.chr fun c => c != ',' && c != '(' && c != ')')
      (.cat [.lit ['('], .star true (.chr fun c => c != '(' && c != ')'), .lit [')']])).Words part ↔
      (∃ c, (c ≠ ',' ∧ c ≠ '(' ∧ c ≠ ')') ∧ part = [c]) ∨
        ∃ inner, (∀ c ∈ inner, c ≠ '(' ∧ c ≠ ')') ∧ part = '(' :: (inner ++ [')']) := by
  apply or_congr
  · simp only [Pattern.Words, Bool.and_eq_true, bne_iff_ne, ne_eq, and_assoc]
  · constructor
    · rintro ⟨_, _, rfl, ⟨inner, _, loop, rfl, rfl⟩, rfl⟩
      refine ⟨inner, ?_, rfl⟩
      intro c member
      simpa using Pattern.words_star_chr.mp loop c member
    · rintro ⟨inner, plain, rfl⟩
      refine ⟨['('], inner ++ [')'], rfl, ⟨inner, [')'], ?_, rfl, rfl⟩, rfl⟩
      exact Pattern.words_star_chr.mpr fun c member => by simpa using plain c member

/-- The pattern for an operand reads the operands with flat parentheses. -/
theorem argRe_words {text : Text} :
    argRe.Words text ↔ levels 0 text = some 0 ∧ deepest 0 text ≤ 1 := by
  constructor
  · rintro ⟨parts, all, rfl⟩
    induction parts with
    | nil => exact ⟨rfl, Nat.zero_le _⟩
    | cons part parts inductionHypothesis =>
        have flat : levels 0 part = some 0 ∧ deepest 0 part ≤ 1 := by
          rcases argBody_words.mp (all part List.mem_cons_self).2 with
            ⟨c, plain, rfl⟩ | ⟨inner, plain, rfl⟩
          · have stays := @levels_plain 0 [c] fun d member => by
              rw [List.mem_singleton.mp member]
              exact ⟨plain.2.1, plain.2.2, fun comma => absurd comma plain.1⟩
            exact ⟨stays.1, stays.2.le.trans (Nat.zero_le _)⟩
          · exact ⟨(levels_group plain).1, (levels_group plain).2.le⟩
        obtain ⟨closed, deep⟩ := inductionHypothesis fun other member =>
          all other (List.mem_cons_of_mem _ member)
        constructor
        · rw [List.flatten_cons, levels_append, flat.1, Option.bind_some, closed]
        · rw [List.flatten_cons, deepest_append flat.1]
          exact max_le flat.2 deep
  · rintro ⟨closed, flat⟩
    -- piece by piece, the text that is left gets shorter
    induction length : text.length using Nat.strong_induction_on generalizing text with
    | _ size inductionHypothesis =>
        cases text with
        | nil => exact ⟨[], by simp, rfl⟩
        | cons c text =>
            have cut : ∀ part rest : Text, c :: text = part ++ rest → part ≠ [] →
                (Pattern.alt (.chr fun c => c != ',' && c != '(' && c != ')')
                  (.cat [.lit ['('], .star true (.chr fun c => c != '(' && c != ')'),
                    .lit [')']])).Words part →
                levels 0 rest = some 0 → deepest 0 rest ≤ 1 → argRe.Words (c :: text) := by
              intro part rest split filled isPart restClosed restFlat
              have shorter : rest.length < size := by
                have positive := List.length_pos_of_ne_nil filled
                rw [← length, split, List.length_append]
                omega
              obtain ⟨parts, all, rfl⟩ :=
                inductionHypothesis rest.length shorter restClosed restFlat rfl
              refine ⟨part :: parts, ?_, split⟩
              intro other member
              rcases List.mem_cons.mp member with rfl | later
              · exact ⟨filled, isPart⟩
              · exact all other later
            have moves := closed
            rw [levels] at moves
            rw [deepest, Nat.max_le] at flat
            by_cases opens : c = '('
            · subst opens
              obtain ⟨inner, rest, rfl, plain, restClosed, restFlat⟩ := group_closes moves flat.2
              refine cut ('(' :: (inner ++ [')'])) rest (by simp) (List.cons_ne_nil _ _) ?_
                restClosed restFlat
              exact argBody_words.mpr (Or.inr ⟨inner, plain, rfl⟩)
            · have closes : c ≠ ')' := by
                rintro rfl
                cases moves
              have comma : c ≠ ',' := by
                rintro rfl
                cases moves
              have here : levelBehind 0 c = some 0 := by
                rw [levelBehind, if_neg opens, if_neg closes, if_neg fun both => comma both.1]
              rw [here] at moves flat
              exact cut [c] text rfl (List.cons_ne_nil _ _)
                (argBody_words.mpr (Or.inl ⟨c, ⟨comma, opens, closes⟩, rfl⟩)) moves flat.2

/-! ## Calls -/

structure Operand where
  text : Text
  closed : levels 0 text = some 0

/-- No parentheses inside of parentheses. -/
def Operand.Flat (operand : Operand) : Prop := deepest 0 operand.text ≤ 1

instance (operand : Operand) : Decidable operand.Flat := inferInstanceAs (Decidable (_ ≤ _))

/-- The comma behind an operand is the first one outside of its parentheses. -/
theorem operand_split {first second before after : Text} (firstClosed : levels 0 first = some 0)
    (secondClosed : levels 0 second = some 0)
    (same : first ++ ',' :: before = second ++ ',' :: after) : first = second ∧ before = after := by
  have comma : ∀ {inner more rest : Text}, levels 0 inner = some 0 →
      levels 0 (inner ++ ',' :: more) ≠ some 0 := by
    intro inner more rest closed whole
    rw [levels_append, closed] at whole
    cases whole
  rcases List.append_eq_append_iff.mp same with ⟨more, rfl, rest⟩ | ⟨more, rfl, rest⟩
  · cases more with
    | nil => exact ⟨(List.append_nil first).symm, (List.cons.inj rest).2⟩
    | cons c more =>
        obtain ⟨rfl, -⟩ := List.cons.inj rest
        exact absurd secondClosed (@comma first more [] firstClosed)
  · cases more with
    | nil => exact ⟨List.append_nil second, (List.cons.inj rest).2.symm⟩
    | cons c more =>
        obtain ⟨rfl, -⟩ := List.cons.inj rest
        exact absurd firstClosed (@comma second more [] secondClosed)

/-- An operand, its comma and its blank are read in one way or not at all. -/
theorem memOperand_reaches {index : Nat} {word : Text} {tail : Pattern}
    (starts : ∀ {start stop : Cursor}, tail.Reaches start stop → headIs isSpace start.rest = false)
    {past : Text} {groups : List (Nat × Text)} (operand : Operand) {next : Text}
    (black : headIs isSpace next = false) {stop : Cursor} :
    (Pattern.seq (.group index (.cat [.lit word, argRe]))
      (.seq (.lit [',']) (.seq blanksRe tail))).Reaches
        ⟨past, word ++ operand.text ++ ',' :: ' ' :: next, groups⟩ stop ↔
      operand.Flat ∧ tail.Reaches ⟨(word ++ operand.text ++ [',', ' ']).reverse ++ past, next,
        (index, word ++ operand.text) :: groups⟩ stop := by
  have isFree : (Pattern.cat [.lit word, argRe]).free = true := rfl
  constructor
  · rintro ⟨_, operandRead, _, ⟨rest, commaSplit, rfl⟩, _, blanks, later⟩
    obtain ⟨_, behind, ⟨front, inner, isFront, isOperand, rfl⟩, split, rfl⟩ :=
      (Pattern.group_reaches_iff isFree).mp operandRead
    obtain rfl : word = front := Eq.symm isFront
    obtain ⟨closed, flat⟩ := argRe_words.mp isOperand
    change behind = ',' :: rest at commaSplit
    change word ++ operand.text ++ ',' :: ' ' :: next = word ++ inner ++ behind at split
    rw [commaSplit, List.append_assoc, List.append_assoc, List.append_cancel_left_eq] at split
    obtain ⟨rfl, rfl⟩ := operand_split operand.closed closed split
    obtain ⟨spaces, left, white, split, rfl⟩ := (Pattern.reaches_iff_words rfl).mp blanks
    have allWhite := Pattern.words_star_chr.mp white
    change ' ' :: next = spaces ++ left at split
    have noBlank := starts later
    cases spaces with
    | nil =>
        change headIs isSpace left = false at noBlank
        rw [← show ' ' :: next = left from split] at noBlank
        cases noBlank
    | cons c spaces =>
        obtain ⟨rfl, others⟩ := List.cons.inj split
        cases spaces with
        | cons d spaces =>
            obtain rfl : next = d :: (spaces ++ left) := others
            exact absurd (allWhite d (by simp)) (by simp [show isSpace d = false from black])
        | nil =>
            obtain rfl : next = left := others
            refine ⟨flat, ?_⟩
            simpa [Cursor.move] using later
  · rintro ⟨flat, later⟩
    refine ⟨_, (Pattern.group_reaches_iff isFree).mpr ⟨word ++ operand.text, ',' :: ' ' :: next,
      ⟨word, operand.text, rfl, argRe_words.mpr ⟨operand.closed, flat⟩, rfl⟩, rfl, rfl⟩,
      _, ⟨' ' :: next, rfl, rfl⟩, _, (Pattern.reaches_iff_words rfl).mpr ⟨[' '], next, ?_, rfl, rfl⟩, ?_⟩
    · exact Pattern.words_star_chr.mpr (by simp [isSpace])
    · simpa [Cursor.move] using later

/-- `i1[^)]*\)` -/
def volatileRe : Pattern :=
  .cat [.lit "i1".toList, .star true (.chr fun c => c != ')'), .lit [')']]

/-- The three operands and the flag, the second operand of the given type. -/
def operandsRe (second : Text) : Pattern :=
  .cat [.group 1 (.cat [.lit "ptr".toList, argRe]), .lit [','], blanksRe,
    .group 2 (.cat [.lit second, argRe]), .lit [','], blanksRe,
    .group 3 (.cat [.lit "i64".toList, argRe]), .lit [','], blanksRe, volatileRe]

theorem operand_starts {index : Nat} {word : Text} {tail : Pattern} (filled : word ≠ [])
    (black : headIs isSpace word = false) {start stop : Cursor}
    (reached : (Pattern.seq (.group index (.cat [.lit word, argRe])) tail).Reaches start stop) :
    headIs isSpace start.rest = false := by
  obtain ⟨_, ⟨_, ⟨_, ⟨rest, split, -⟩, -⟩, -⟩, -⟩ := reached
  rw [split]
  cases word with
  | nil => exact absurd rfl filled
  | cons c word => exact black

theorem volatile_starts {start stop : Cursor} (reached : volatileRe.Reaches start stop) :
    headIs isSpace start.rest = false := by
  obtain ⟨_, ⟨rest, split, -⟩, -⟩ := reached
  rw [split]
  rfl

theorem volatile_reaches {past flag rest : Text} {groups : List (Nat × Text)}
    (inside : ')' ∉ flag) {stop : Cursor} :
    volatileRe.Reaches ⟨past, "i1".toList ++ flag ++ ')' :: rest, groups⟩ stop ↔
      stop = ⟨("i1".toList ++ flag ++ [')']).reverse ++ past, rest, groups⟩ := by
  rw [Pattern.reaches_iff_words rfl]
  constructor
  · rintro ⟨_, left, ⟨_, _, rfl, ⟨read, _, loop, rfl, rfl⟩, rfl⟩, split, rfl⟩
    have clean : ')' ∉ read := by
      intro member
      simpa using Pattern.words_star_chr.mp loop _ member
    change "i1".toList ++ flag ++ ')' :: rest = "i1".toList ++ (read ++ [')']) ++ left at split
    rw [List.append_assoc, List.append_assoc, List.append_cancel_left_eq, List.append_assoc,
      List.singleton_append] at split
    obtain ⟨rfl, rfl⟩ := split_first inside clean split
    simp [Cursor.move]
  · rintro rfl
    refine ⟨"i1".toList ++ flag ++ [')'], rest, ⟨_, _, rfl, ⟨flag, [')'], ?_, rfl, rfl⟩, ?_⟩,
      by simp, rfl⟩
    · apply Pattern.words_star_chr.mpr
      intro c member
      have different : c ≠ ')' := fun same => inside (same ▸ member)
      simpa using different
    · rw [List.append_assoc]

/-- The operands of a call behind its parenthesis. -/
structure MemOperands where
  first : Operand
  second : Operand
  third : Operand
  flag : Text
  inside : ')' ∉ flag

def MemOperands.Flat (operands : MemOperands) : Prop :=
  operands.first.Flat ∧ operands.second.Flat ∧ operands.third.Flat

instance (operands : MemOperands) : Decidable operands.Flat := inferInstanceAs (Decidable (_ ∧ _))

def MemOperands.print (operands : MemOperands) (second : Text) : Text :=
  "ptr".toList ++ operands.first.text ++ ',' :: ' ' :: (second ++ operands.second.text ++
    ',' :: ' ' :: ("i64".toList ++ operands.third.text ++
      ',' :: ' ' :: ("i1".toList ++ operands.flag ++ [')'])))

/-- What the pattern keeps of them. -/
def MemOperands.groups (operands : MemOperands) (second : Text) : List (Nat × Text) :=
  [(3, "i64".toList ++ operands.third.text), (2, second ++ operands.second.text),
    (1, "ptr".toList ++ operands.first.text)]

/-- The operands are read whole and in one way, or not at all. -/
theorem operandsRe_reaches {second : Text} (filled : second ≠ [])
    (black : headIs isSpace second = false) (operands : MemOperands) {past rest : Text}
    {stop : Cursor} :
    (operandsRe second).Reaches ⟨past, operands.print second ++ rest, []⟩ stop ↔
      operands.Flat ∧ stop =
        ⟨(operands.print second).reverse ++ past, rest, operands.groups second⟩ := by
  have shape : operands.print second ++ rest =
      "ptr".toList ++ operands.first.text ++ ',' :: ' ' :: (second ++ operands.second.text ++
        ',' :: ' ' :: ("i64".toList ++ operands.third.text ++
          ',' :: ' ' :: ("i1".toList ++ operands.flag ++ ')' :: rest))) := by
    simp [MemOperands.print]
  have behind : ∀ {word : Text}, word ≠ [] → headIs isSpace word = false → ∀ more,
      headIs isSpace (word ++ more) = false := by
    intro word isFilled isBlack more
    cases word with
    | nil => exact absurd rfl isFilled
    | cons c word => exact isBlack
  rw [shape]
  refine Iff.trans (memOperand_reaches (operand_starts filled black) operands.first
    (by rw [List.append_assoc]; exact behind filled black _)) ?_
  rw [MemOperands.Flat, and_assoc]
  apply and_congr Iff.rfl
  refine Iff.trans (memOperand_reaches (operand_starts (by decide) (by decide)) operands.second
    (by rw [List.append_assoc]; rfl)) ?_
  rw [and_assoc]
  apply and_congr Iff.rfl
  refine Iff.trans (memOperand_reaches volatile_starts operands.third
    (by rw [List.append_assoc]; rfl)) ?_
  apply and_congr Iff.rfl
  rw [volatile_reaches operands.inside]
  simp [MemOperands.print, MemOperands.groups]

/-! ## Intrinsics -/

inductive Intrinsic where
  | memcpy
  | memmove
  | memset
  deriving DecidableEq, Repr

namespace Intrinsic

def name : Intrinsic → Text
  | .memcpy => "memcpy".toList
  | .memmove => "memmove".toList
  | .memset => "memset".toList

/-- The types in the name, and the parenthesis. -/
def types : Intrinsic → Text
  | .memcpy | .memmove => ".p0.p0.i64(".toList
  | .memset => ".p0.i64(".toList

/-- The type of the second operand. -/
def second : Intrinsic → Text
  | .memcpy | .memmove => "ptr".toList
  | .memset => "i8".toList

def pattern : Intrinsic → Pattern
  | .memcpy | .memmove => memcpyRe
  | .memset => memsetRe

def glue : Intrinsic → Text
  | .memcpy | .memmove => "bpf_arena_memcpy".toList
  | .memset => "bpf_arena_memset".toList

/-- The names that a pattern takes. -/
def names : Intrinsic → Pattern
  | .memcpy | .memmove => .alt (.lit "memcpy".toList) (.lit "memmove".toList)
  | .memset => .lit "memset".toList

/-- The pattern up to the types. -/
def lead (intrinsic : Intrinsic) : Pattern :=
  .cat [tailRe, .lit "call void @llvm.".toList, intrinsic.names, .opt (.lit ".inline".toList)]

theorem lead_free (intrinsic : Intrinsic) : intrinsic.lead.free = true := by
  cases intrinsic <;> rfl

theorem lead_avoids (intrinsic : Intrinsic) : intrinsic.lead.avoids '(' = true := by
  cases intrinsic <;> decide

theorem lead_clean (intrinsic : Intrinsic) {word : Text} (isLead : intrinsic.lead.Words word) :
    '(' ∉ word :=
  Pattern.clean_of_words intrinsic.lead_free intrinsic.lead_avoids isLead

theorem types_split (intrinsic : Intrinsic) :
    ∃ types, intrinsic.types = types ++ ['('] ∧ '(' ∉ types := by
  cases intrinsic with
  | memcpy => exact ⟨".p0.p0.i64".toList, by decide, by decide⟩
  | memmove => exact ⟨".p0.p0.i64".toList, by decide, by decide⟩
  | memset => exact ⟨".p0.i64".toList, by decide, by decide⟩

theorem pattern_eq (intrinsic : Intrinsic) : intrinsic.pattern =
    .seq tailRe (.seq (.lit "call void @llvm.".toList) (.seq intrinsic.names
      (.seq (.opt (.lit ".inline".toList)) (.seq (.lit intrinsic.types)
        (operandsRe intrinsic.second))))) := by
  cases intrinsic <;> rfl

theorem pattern_reaches (intrinsic : Intrinsic) {start stop : Cursor} :
    intrinsic.pattern.Reaches start stop ↔
      ∃ front rest, intrinsic.lead.Words front ∧ start.rest = front ++ intrinsic.types ++ rest ∧
        (operandsRe intrinsic.second).Reaches (start.move (front ++ intrinsic.types) rest) stop := by
  have cut : intrinsic.pattern.Reaches start stop ↔
      ∃ middle, intrinsic.lead.Reaches start middle ∧
        ∃ last, (Pattern.lit intrinsic.types).Reaches middle last ∧
          (operandsRe intrinsic.second).Reaches last stop := by
    rw [pattern_eq]
    constructor
    · rintro ⟨a, first, b, call, c, name, d, inline, e, types, others⟩
      exact ⟨d, ⟨a, first, b, call, c, name, inline⟩, e, types, others⟩
    · rintro ⟨d, ⟨a, first, b, call, c, name, inline⟩, e, types, others⟩
      exact ⟨a, first, b, call, c, name, d, inline, e, types, others⟩
  rw [cut]
  constructor
  · rintro ⟨_, leads, _, ⟨rest, split, rfl⟩, later⟩
    obtain ⟨front, middle, isLead, whole, rfl⟩ :=
      (Pattern.reaches_iff_words intrinsic.lead_free).mp leads
    obtain rfl : middle = intrinsic.types ++ rest := split
    refine ⟨front, rest, isLead, by rw [whole, List.append_assoc], ?_⟩
    rwa [Cursor.move_move] at later
  · rintro ⟨front, rest, isLead, whole, later⟩
    refine ⟨start.move front (intrinsic.types ++ rest), ?_, _, ⟨rest, rfl, rfl⟩, ?_⟩
    · exact (Pattern.reaches_iff_words intrinsic.lead_free).mpr
        ⟨front, _, isLead, by rw [whole, List.append_assoc], rfl⟩
    · rwa [Cursor.move_move]

end Intrinsic

/-- A call of an intrinsic as `llvm-dis` prints it. -/
structure MemCall where
  intrinsic : Intrinsic
  tail : Bool
  inline : Bool
  operands : MemOperands

namespace MemCall

def lead (call : MemCall) : Text :=
  (if call.tail then "tail ".toList else []) ++ ("call void @llvm.".toList ++
    (call.intrinsic.name ++ if call.inline then ".inline".toList else []))

def print (call : MemCall) : Text :=
  call.lead ++ call.intrinsic.types ++ call.operands.print call.intrinsic.second

theorem tail_words (tail : Bool) : tailRe.Words (if tail then "tail ".toList else []) := by
  cases tail with
  | false => exact Or.inr rfl
  | true =>
      refine Or.inl ⟨"tail".toList, [' '], rfl, ⟨[' '], [], ⟨' ', by decide, rfl⟩, ?_, rfl⟩, ?_⟩
      · exact Pattern.words_star_chr.mpr (by simp)
      · decide

theorem names_words (intrinsic : Intrinsic) : intrinsic.names.Words intrinsic.name := by
  cases intrinsic with
  | memcpy => exact Or.inl rfl
  | memmove => exact Or.inr rfl
  | memset => exact rfl

theorem inline_words (inline : Bool) :
    (Pattern.opt (.lit ".inline".toList)).Words (if inline then ".inline".toList else []) := by
  cases inline with
  | false => exact Or.inr rfl
  | true => exact Or.inl rfl

theorem lead_words (call : MemCall) : call.intrinsic.lead.Words call.lead :=
  ⟨if call.tail then "tail ".toList else [],
    "call void @llvm.".toList ++ (call.intrinsic.name ++ if call.inline then ".inline".toList else []),
    tail_words call.tail,
    ⟨"call void @llvm.".toList, call.intrinsic.name ++ if call.inline then ".inline".toList else [],
      rfl, ⟨call.intrinsic.name, if call.inline then ".inline".toList else [],
        names_words call.intrinsic, inline_words call.inline, rfl⟩, rfl⟩, rfl⟩

/-- The call is read whole and in one way, or not at all. -/
theorem pattern_reaches_iff (call : MemCall) {past rest : Text} {stop : Cursor} :
    call.intrinsic.pattern.Reaches ⟨past, call.print ++ rest, []⟩ stop ↔
      call.operands.Flat ∧ stop = ⟨call.print.reverse ++ past, rest,
        call.operands.groups call.intrinsic.second⟩ := by
  have filled : call.intrinsic.second ≠ [] := by
    cases call.intrinsic <;> decide
  have black : headIs isSpace call.intrinsic.second = false := by
    cases call.intrinsic <;> rfl
  have operands := @operandsRe_reaches _ filled black call.operands
    ((call.lead ++ call.intrinsic.types).reverse ++ past) rest stop
  have shape : call.print ++ rest = call.lead ++ call.intrinsic.types ++
      (call.operands.print call.intrinsic.second ++ rest) := by
    rw [print, List.append_assoc]
  have reversed : (call.operands.print call.intrinsic.second).reverse ++
      ((call.lead ++ call.intrinsic.types).reverse ++ past) = call.print.reverse ++ past := by
    simp [print]
  rw [reversed] at operands
  rw [← operands, Intrinsic.pattern_reaches]
  constructor
  · rintro ⟨front, left, isLead, whole, later⟩
    change call.print ++ rest = _ at whole
    obtain ⟨types, same, clean⟩ := call.intrinsic.types_split
    have first : '(' ∉ call.lead ++ types ∧ '(' ∉ front ++ types := by
      simp only [List.mem_append, not_or]
      exact ⟨⟨call.intrinsic.lead_clean call.lead_words, clean⟩,
        call.intrinsic.lead_clean isLead, clean⟩
    have split : call.lead ++ types ++ '(' :: (call.operands.print call.intrinsic.second ++ rest) =
        front ++ types ++ '(' :: left := by
      have both := shape.symm.trans whole
      rw [same] at both
      simpa using both
    obtain ⟨sameFront, rfl⟩ := split_first first.1 first.2 split
    obtain rfl := List.append_cancel_right sameFront
    exact later
  · intro later
    exact ⟨call.lead, _, call.lead_words, shape, later⟩

/-- A call is found exactly if its operands are flat, and then they are kept in order. -/
theorem matchAt_print (call : MemCall) (past rest : Text) :
    call.intrinsic.pattern.matchAt past (call.print ++ rest) =
      if call.operands.Flat then
        some ⟨call.print, call.operands.groups call.intrinsic.second⟩
      else none := by
  have filled : call.print ≠ [] := by
    obtain ⟨types, same, -⟩ := call.intrinsic.types_split
    simp [print, same]
  exact Pattern.matchAt_of_reaches_iff filled call.pattern_reaches_iff

/-- The call of the glue with the same operands. -/
def lowered (call : MemCall) : Text :=
  "call void @".toList ++ call.intrinsic.glue ++ ['('] ++
    ("ptr".toList ++ call.operands.first.text) ++ ", ".toList ++
    (call.intrinsic.second ++ call.operands.second.text) ++ ", ".toList ++
    ("i64".toList ++ call.operands.third.text) ++ [')']

theorem glueCall_groups (call : MemCall) (text : Text) :
    glueCall call.intrinsic.glue ⟨text, call.operands.groups call.intrinsic.second⟩ =
      call.lowered := rfl

end MemCall

/-! ## Calls in a text -/

def callText : Text := "call void @llvm.".toList

def tailText (tail : Bool) : Text := if tail then "tail ".toList else []

theorem MemCall.print_tail (call : MemCall) (tail : call.tail = true) :
    call.print = tailText true ++ MemCall.print { call with tail := false } := by
  rw [MemCall.print, MemCall.print, MemCall.lead, MemCall.lead, tail, if_pos rfl,
    if_neg Bool.false_ne_true, tailText, if_pos rfl]
  simp only [List.append_assoc, List.nil_append]

theorem Intrinsic.matchAt_opening {intrinsic : Intrinsic} {past text : Text} {m : Match}
    (found : intrinsic.pattern.matchAt past text = some m) :
    ∃ opening more, Opening opening ∧ text = opening ++ (callText ++ more) := by
  obtain ⟨stop, path, -⟩ := Pattern.matchAt_eq_some found
  rw [Intrinsic.pattern_eq] at path
  obtain ⟨middle, tail, _, ⟨rest, split, rfl⟩, -⟩ := path
  obtain ⟨opening, opened, whole, -⟩ := tailRe_reaches tail
  exact ⟨opening, rest, opened, whole.trans (congrArg _ split)⟩

theorem opening_behind {before opening : Text} {tail : Bool} (opened : Opening opening)
    (same : before ++ opening = tailText tail) : opening = [] ∨ before = [] := by
  rcases opened with rfl | ⟨blanks, rfl, -⟩
  · exact Or.inl rfl
  · right
    cases tail with
    | false => exact absurd same (by simp [tailText])
    | true =>
        have word : "tail".toList = ['t', 'a', 'i', 'l'] := by decide
        have whole : tailText true = ['t', 'a', 'i', 'l', ' '] := by decide
        rw [whole, word] at same
        match before, same with
        | [], _ => rfl
        | [c], same => simp at same
        | c :: d :: before, same =>
            have lengths := congrArg List.length same
            simp only [List.length_append, List.length_cons, List.length_nil] at lengths
            omega

theorem opening_across {c : Char} {stop opening : Text} (opened : Opening opening)
    (same : opening = c :: stop ++ tailText true) : False := by
  rcases opened with rfl | ⟨blanks, rfl, white⟩
  · cases same
  · have word : "tail".toList = ['t', 'a', 'i', 'l'] := by decide
    have whole : tailText true = ['t', 'a', 'i', 'l', ' '] := by decide
    rw [whole, word] at same
    obtain rfl : 't' = c := (List.cons.inj same).1
    have blanksOut : blanks.filter (fun c => !isSpace c) = [] := by
      rw [List.filter_eq_nil_iff]
      intro d member
      simp [white d member]
    have black : isSpace 't' = false ∧ isSpace 'a' = false ∧ isSpace 'i' = false ∧
        isSpace 'l' = false := by decide
    have letters := congrArg (fun text => (text.filter fun c => !isSpace c).length) same
    simp only [List.filter_append, blanksOut, List.length_append, List.filter_cons, black.1,
      black.2.1, black.2.2.1, black.2.2.2] at letters
    simp at letters
    omega

/-- The call stands alone in the text: no other call of an intrinsic starts there, and what
is in front of it does not end like one. -/
structure Alone (front : Text) (call : MemCall) (rest : Text) : Prop where
  once : ∀ before after, front ++ (call.print ++ rest) = before ++ (callText ++ after) →
    before = front ++ tailText call.tail
  apart : call.tail = false → ¬"tail".toList <:+ rstrip front

namespace Alone

variable {front rest : Text} {call : MemCall}

theorem start_eq (alone : Alone front call rest) {intrinsic : Intrinsic} {start here : Text}
    {m : Match} (split : front ++ (call.print ++ rest) = start ++ here)
    (found : intrinsic.pattern.matchAt start.reverse here = some m) :
    ∃ opening, Opening opening ∧ start ++ opening = front ++ tailText call.tail := by
  obtain ⟨opening, more, opened, shape⟩ := Intrinsic.matchAt_opening found
  refine ⟨opening, opened, alone.once (start ++ opening) more ?_⟩
  rw [split, shape, List.append_assoc]

/-- Nothing is found in front of the call. -/
theorem quiet_front (alone : Alone front call rest) {intrinsic : Intrinsic} {start stop : Text}
    {c : Char} (split : front = start ++ c :: stop) :
    intrinsic.pattern.matchAt start.reverse (c :: (stop ++ (call.print ++ rest))) = none := by
  cases found : intrinsic.pattern.matchAt start.reverse (c :: (stop ++ (call.print ++ rest))) with
  | none => rfl
  | some m =>
      obtain ⟨opening, opened, same⟩ := alone.start_eq (by rw [split]; simp) found
      have cut : opening = c :: stop ++ tailText call.tail := by
        apply @List.append_cancel_left _ start
        rw [same, split, List.append_assoc]
      cases tail : call.tail with
      | true => exact (opening_across opened (tail ▸ cut)).elim
      | false =>
          rw [tail] at cut
          rcases opened with rfl | ⟨blanks, rfl, white⟩
          · cases cut
          · apply absurd _ (alone.apart tail)
            have whole : front = start ++ "tail".toList ++ blanks := by
              rw [split, List.append_assoc, cut]
              simp [tailText]
            rw [whole, rstrip_blanks white]
            exact ⟨start, by simp [rstrip, isSpace]⟩

/-- Behind the start of the call nothing is found but the call without its `tail`. -/
theorem quiet_behind (alone : Alone front call rest) {intrinsic : Intrinsic}
    {between here : Text} {m : Match} (inside : between ≠ [])
    (split : call.print ++ rest = between ++ here)
    (found : intrinsic.pattern.matchAt (front ++ between).reverse here = some m) :
    between = tailText call.tail := by
  obtain ⟨opening, opened, same⟩ := @start_eq _ _ _ alone _ (front ++ between) _ _
    (by rw [split, List.append_assoc]) found
  rw [List.append_assoc] at same
  have cut := List.append_cancel_left same
  rcases opening_behind opened cut with rfl | rfl
  · rwa [List.append_nil] at cut
  · exact absurd rfl inside

/-- A call that stands alone becomes a call of the glue with the same operands in the same
order, or nothing changes: that depends on its parentheses only. -/
theorem sub_pattern (alone : Alone front call rest) :
    call.intrinsic.pattern.sub (glueCall call.intrinsic.glue) (front ++ (call.print ++ rest)) =
      front ++ ((if call.operands.Flat then call.lowered else call.print) ++ rest) := by
  have inFront : call.intrinsic.pattern.scan [] (front ++ (call.print ++ rest)) 0 =
      front.map .plain ++ call.intrinsic.pattern.scan front.reverse (call.print ++ rest) 0 := by
    rw [Pattern.scan_plain, List.append_nil]
    intro start c stop split
    rw [List.append_nil]
    exact alone.quiet_front split
  have long : call.print.length > 5 := by
    rw [MemCall.print, MemCall.lead]
    have word : 5 < "call void @llvm.".toList.length := by decide
    simp only [List.length_append]
    omega
  have short : (tailText call.tail).length ≤ 5 := by
    cases call.tail <;> decide
  have found := call.matchAt_print front.reverse rest
  rw [Pattern.sub, inFront, List.flatMap_append, Pattern.flatMap_render_plain]
  congr 1
  by_cases flat : call.operands.Flat
  · rw [if_pos flat] at found ⊢
    have behind : call.intrinsic.pattern.scan (call.print.reverse ++ front.reverse) rest 0 =
        rest.map .plain := by
      have copied := @Pattern.scan_plain call.intrinsic.pattern
        (call.print.reverse ++ front.reverse) rest [] (by
          intro start c stop split
          rw [List.append_nil]
          cases hit : call.intrinsic.pattern.matchAt
              (start.reverse ++ (call.print.reverse ++ front.reverse)) (c :: stop) with
          | none => rfl
          | some m =>
              have reversed : start.reverse ++ (call.print.reverse ++ front.reverse) =
                  (front ++ (call.print ++ start)).reverse := by simp
              rw [reversed] at hit
              have filled : call.print ++ start ≠ [] := by
                intro none_
                rw [(List.append_eq_nil_iff.mp none_).1] at long
                exact absurd long (by decide)
              have same := alone.quiet_behind filled (by rw [split]; simp) hit
              have lengths := congrArg List.length same
              rw [List.length_append] at lengths
              omega)
      simpa [Pattern.scan] using copied
    have filled : call.print ≠ [] := List.ne_nil_of_length_pos (by omega)
    have hit : call.intrinsic.pattern.scan front.reverse (call.print ++ rest) 0 =
        .hit ⟨call.print, call.operands.groups call.intrinsic.second⟩ ::
          call.intrinsic.pattern.scan (call.print.reverse ++ front.reverse) rest 0 :=
      @Pattern.scan_hit _ _ _ ⟨call.print, _⟩ filled found
    rw [hit, behind, List.flatMap_cons, Pattern.flatMap_render_plain, Piece.render,
      MemCall.glueCall_groups]
  · rw [if_neg flat] at found ⊢
    have copied := @Pattern.scan_plain call.intrinsic.pattern front.reverse (call.print ++ rest) [] (by
      intro start c stop split
      rw [List.append_nil]
      cases hit : call.intrinsic.pattern.matchAt (start.reverse ++ front.reverse) (c :: stop) with
      | none => rfl
      | some m =>
          by_cases atCall : start = []
          · rw [atCall, List.nil_append] at split
            rw [atCall, ← split] at hit
            exact absurd (hit.symm.trans found) (by simp)
          · rw [← List.reverse_append] at hit
            have same := alone.quiet_behind atCall split hit
            cases tail : call.tail with
            | false =>
                rw [tail] at same
                exact absurd same atCall
            | true =>
                -- the call without its `tail` has the same operands
                have bare := MemCall.matchAt_print { call with tail := false }
                  (front ++ start).reverse rest
                rw [if_neg flat] at bare
                rw [call.print_tail tail, same, tail, List.append_assoc] at split
                rw [← List.append_cancel_left split] at hit
                exact absurd (hit.symm.trans bare) (by simp))
    rw [List.append_nil] at copied
    rw [copied, List.flatMap_append, Pattern.flatMap_render_plain]
    simp [Pattern.scan]

/-- `call void @llvm.memset.p0.i64(ptr align 8 %d, i8 0, i64 8, i1 false)` -/
def zeroFill : MemCall where
  intrinsic := .memset
  tail := false
  inline := false
  operands := ⟨⟨" align 8 %d".toList, by decide⟩, ⟨" 0".toList, by decide⟩,
    ⟨" 8".toList, by decide⟩, " false".toList, by decide⟩

theorem zeroFill_alone : Alone "  ".toList zeroFill [] where
  once := by
    have only : ∀ place ≤ ("  ".toList ++ (zeroFill.print ++ [])).length,
        callText.isPrefixOf (("  ".toList ++ (zeroFill.print ++ [])).drop place) = true →
          place = 2 := by decide
    intro before after split
    have place := only before.length (by rw [split, List.length_append]; omega) (by
      rw [split, List.drop_left, List.isPrefixOf_iff_prefix]
      exact ⟨after, rfl⟩)
    have front : before = ("  ".toList ++ (zeroFill.print ++ [])).take before.length := by
      rw [split, List.take_left]
    rw [front, place]
    rfl
  apart := by
    intro _
    decide

theorem sub_pattern_zeroFill :
    memsetRe.sub (glueCall "bpf_arena_memset".toList) ("  ".toList ++ (zeroFill.print ++ [])) =
      "  ".toList ++ (zeroFill.lowered ++ []) :=
  zeroFill_alone.sub_pattern

end Alone

end LibarenaRs.Linker
