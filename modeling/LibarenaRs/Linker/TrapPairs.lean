import LibarenaRs.Linker.TrapText

/-!
# A second run of `trap_to_ret`

The pass looks at pairs of lines, and what it writes can stand beside any other line
without making a new pair.  So one run leaves no pair that another would rewrite.
-/

namespace LibarenaRs.Linker

open LibarenaRs.Regex LibarenaRs.Llvm

theorem headerType_of_indent {line : Text} {c : Char} {rest : Text}
    (starts : line.dropWhile isSpace = c :: rest) (other : c ≠ 'd') : headerType line = none := by
  have absent : afterKeyword "define".toList line = none := by
    cases found : afterKeyword "define".toList line with
    | none => rfl
    | some left =>
        obtain ⟨space, -, rfl⟩ := afterKeyword_eq_some found
        rw [show "define".toList ++ space :: left = 'd' :: ("efine".toList ++ space :: left) from
          rfl, List.dropWhile_cons_of_neg (by decide)] at starts
        exact absurd (List.cons.inj starts).1.symm other
  have failed := @matchAt_keywordRe_eq_none "define".toList (.seq anyInLine typeRe) [] line absent
  rw [headerType, show headerRe.matchStart line = none from failed]
  rfl

theorem headerType_of_trapCall {line : Text} (trap : trapCall line = true) :
    headerType line = none := by
  obtain ⟨rest, tail | call⟩ := trapCall_starts trap
  · exact headerType_of_indent tail (by decide)
  · have word : trapText = 'c' :: "all void @llvm.trap()".toList := by decide
    rw [word, List.cons_append] at call
    exact headerType_of_indent call (by decide)

/-- What kind of type a trap can be rewritten for does not hang on the cookie. -/
theorem trapReturn_eq_none {cookie other : Int} {type : Option Text}
    (unwritten : trapReturn cookie type = none) : trapReturn other type = none := by
  cases type with
  | none => rfl
  | some type =>
      rw [trapReturn] at *
      split at unwritten
      · cases unwritten
      · rename_i notVoid
        split at unwritten
        · cases unwritten
        · rename_i notInt
          rw [if_neg notVoid, if_neg notInt]

theorem trapReturn_eq_some {cookie : Int} {type : Option Text} {instruction : Text}
    (written : trapReturn cookie type = some instruction) :
    (∃ rest, instruction = 'r' :: 'e' :: rest) ∧ '\n' ∉ instruction := by
  cases type with
  | none => cases written
  | some type =>
      rw [trapReturn] at written
      split at written
      · obtain rfl := Option.some.inj written
        exact ⟨⟨"t void".toList, by decide⟩, by decide⟩
      · split at written
        · rename_i isInt
          obtain rfl := Option.some.inj written
          obtain ⟨digits, rfl, -, all⟩ := intRe_fullMatch.mp isInt
          refine ⟨⟨"t ".toList ++ 'i' :: digits ++ ' ' :: printInt cookie, rfl⟩, ?_⟩
          have inDigits : '\n' ∉ digits := by
            intro member
            exact absurd (List.all_eq_true.mp all '\n' member) (by decide)
          simp only [List.mem_append, List.mem_cons, not_or]
          exact ⟨⟨by decide, by decide, inDigits⟩, by decide, printInt_oneLine cookie⟩
        · cases written

theorem trapLines_pair {cookie : Int} {current : Option Text} {line next instruction : Text}
    {rest : List Text} (pair : (trapCall line && startsUnreachable next) = true)
    (written : trapReturn cookie ((headerType line).or current) = some instruction) :
    trapLines cookie current (line :: next :: rest) =
      ("  ".toList ++ instruction) :: trapLines cookie ((headerType line).or current) rest := by
  simp only [trapLines, List.map_cons, trapLoop, if_pos pair, written, Emitted.line,
    List.append_nil]

theorem trapLines_stuck {cookie : Int} {current : Option Text} {line next : Text}
    {rest : List Text}
    (stuck : (trapCall line && startsUnreachable next) = false ∨
      trapReturn cookie ((headerType line).or current) = none) :
    trapLines cookie current (line :: next :: rest) =
      line :: trapLines cookie ((headerType line).or current) (next :: rest) := by
  cases pair : (trapCall line && startsUnreachable next) with
  | false => simp only [trapLines, List.map_cons, trapLoop, pair, Bool.false_eq_true, if_false,
      Emitted.line]
  | true =>
      have unwritten := stuck.resolve_left (by simp [pair])
      simp only [trapLines, List.map_cons, trapLoop, pair, if_true, unwritten, Emitted.line]

/-- The first line of the output is the first of the input, or ends no pair. -/
theorem head_trapLines {cookie : Int} {current : Option Text} {first : Text} {rest : List Text} :
    ∃ line others, trapLines cookie current (first :: rest) = line :: others ∧
      (line = first ∨ startsUnreachable line = false) := by
  cases rest with
  | nil => exact ⟨first, [], rfl, Or.inl rfl⟩
  | cons next rest =>
      cases pair : (trapCall first && startsUnreachable next) with
      | false => exact ⟨first, _, trapLines_stuck (Or.inl pair), Or.inl rfl⟩
      | true =>
          cases written : trapReturn cookie ((headerType first).or current) with
          | none => exact ⟨first, _, trapLines_stuck (Or.inr written), Or.inl rfl⟩
          | some instruction =>
              obtain ⟨⟨more, rfl⟩, -⟩ := trapReturn_eq_some written
              exact ⟨_, _, trapLines_pair pair written, Or.inr (loops_pass_ret more).2⟩

/-- A line that the first run leaves in place the second leaves in place. -/
theorem trapLines_left {cookie other : Int} {current : Option Text} {line next : Text}
    {rest : List Text}
    (stuck : (trapCall line && startsUnreachable next) = false ∨
      trapReturn cookie ((headerType line).or current) = none)
    (later : ∀ type, trapLines other type (trapLines cookie type (next :: rest)) =
      trapLines cookie type (next :: rest)) :
    trapLines other current (trapLines cookie current (line :: next :: rest)) =
      trapLines cookie current (line :: next :: rest) := by
  obtain ⟨first, others, shape, kept⟩ :=
    @head_trapLines cookie ((headerType line).or current) next rest
  have again := later ((headerType line).or current)
  rw [shape] at again
  rw [trapLines_stuck stuck, shape]
  have still : (trapCall line && startsUnreachable first) = false ∨
      trapReturn other ((headerType line).or current) = none := by
    rcases stuck with noPair | unwritten
    · rcases kept with same | noEnd
      · rw [same]
        exact Or.inl noPair
      · rw [noEnd, Bool.and_false]
        exact Or.inl rfl
    · exact Or.inr (trapReturn_eq_none unwritten)
  rw [trapLines_stuck still, again]

/-- A second run over the lines of the first copies them. -/
theorem trapLines_settled (cookie other : Int) : ∀ (current : Option Text) (lines : List Text),
    trapLines other current (trapLines cookie current lines) = trapLines cookie current lines
  | _, [] => rfl
  | _, [_] => rfl
  | current, line :: next :: rest => by
      cases pair : (trapCall line && startsUnreachable next) with
      | false =>
          exact trapLines_left (Or.inl pair) fun type => trapLines_settled _ _ type (next :: rest)
      | true =>
          cases written : trapReturn cookie ((headerType line).or current) with
          | none =>
              exact trapLines_left (Or.inr written)
                fun type => trapLines_settled _ _ type (next :: rest)
          | some instruction =>
              obtain ⟨⟨more, rfl⟩, -⟩ := trapReturn_eq_some written
              have starts : ("  ".toList ++ 'r' :: 'e' :: more).dropWhile isSpace =
                  'r' :: 'e' :: more := by
                rw [dropWhile_indent, List.dropWhile_cons_of_neg (by decide)]
              have noHeader := headerType_of_indent starts (by decide)
              have trap := headerType_of_trapCall ((Bool.and_eq_true _ _).mp pair).1
              rw [trapLines_pair pair written, trapLines_copy (Or.inl (loops_pass_ret more).1),
                noHeader, trap, Option.none_or, trapLines_settled cookie other current rest]

theorem oneLine_trapLines {cookie : Int} : ∀ {current : Option Text} {lines : List Text},
    (∀ line ∈ lines, '\n' ∉ line) → ∀ line ∈ trapLines cookie current lines, '\n' ∉ line
  | _, [], _ => fun _ member => nomatch member
  | _, [_], oneLine => oneLine
  | current, line :: next :: rest, oneLine => by
      have first := oneLine line List.mem_cons_self
      have behind : ∀ other ∈ next :: rest, '\n' ∉ other :=
        fun other member => oneLine other (List.mem_cons_of_mem _ member)
      have copied : trapLines cookie current (line :: next :: rest) =
            line :: trapLines cookie ((headerType line).or current) (next :: rest) →
          ∀ other ∈ trapLines cookie current (line :: next :: rest), '\n' ∉ other := by
        intro shape other member
        rw [shape] at member
        rcases List.mem_cons.mp member with rfl | later
        · exact first
        · exact oneLine_trapLines behind other later
      cases pair : (trapCall line && startsUnreachable next) with
      | false => exact copied (trapLines_stuck (Or.inl pair))
      | true =>
          cases written : trapReturn cookie ((headerType line).or current) with
          | none => exact copied (trapLines_stuck (Or.inr written))
          | some instruction =>
              intro other member
              rw [trapLines_pair pair written] at member
              rcases List.mem_cons.mp member with rfl | later
              · simp only [List.mem_append, not_or]
                exact ⟨by decide, (trapReturn_eq_some written).2⟩
              · exact oneLine_trapLines
                  (fun other member => behind other (List.mem_cons_of_mem _ member)) other later

/-- On any text a second run changes nothing, whatever the cookies. -/
theorem trapToRet_settled (cookie other : Int) (text : Text) :
    trapToRet other (trapToRet cookie text) = trapToRet cookie text := by
  have oneLine : ∀ line ∈ trapLines cookie none (splitLines text), '\n' ∉ line :=
    oneLine_trapLines fun line member => oneLine_of_mem_splitLines member
  have filled : trapLines cookie none (splitLines text) ≠ [] := by
    cases lines : splitLines text with
    | nil => exact absurd lines (splitLines_ne_nil text)
    | cons first rest =>
        obtain ⟨line, others, shape, -⟩ := @head_trapLines cookie none first rest
        rw [shape]
        exact List.cons_ne_nil _ _
  change joinLines (trapLines other none (splitLines (joinLines (trapLines cookie none
    (splitLines text))))) = joinLines (trapLines cookie none (splitLines text))
  rw [splitLines_joinLines filled oneLine, trapLines_settled]

end LibarenaRs.Linker
