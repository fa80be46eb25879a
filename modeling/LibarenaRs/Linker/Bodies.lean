import Mathlib.Data.List.TakeWhile
import LibarenaRs.Flow.Ends
import LibarenaRs.Linker.NodeLines
import LibarenaRs.Linker.TypedReturns

/-!
# Function bodies as blocks

The lines of a body as `llvm-dis` prints them, with the traps and the unreachable
ends told apart from the lines that the passes only copy.
-/

namespace LibarenaRs.Linker

open LibarenaRs.Regex LibarenaRs.Llvm LibarenaRs.Flow

/-! ## Lines -/

def trapText : Text := "call void @llvm.trap()".toList

/-- A line in which no call of a trap stands or starts. -/
def Calm (line : Text) : Prop := ¬trapText <:+: line ∧ ¬"tail".toList <:+ rstrip line

instance (line : Text) : Decidable (Calm line) := inferInstanceAs (Decidable (_ ∧ _))

/-- A line that is copied. -/
def PlainLine : Type :=
  { line : Text // Inert line ∧ Calm line ∧ startsUnreachable line = false }

instance : DecidableEq PlainLine := inferInstanceAs (DecidableEq (Subtype _))

structure TrapLine where
  tail : Bool
  /-- Attributes and metadata. -/
  suffix : Printed
  calm : Calm suffix.val

structure StopLine where
  /-- Metadata. -/
  suffix : Printed
  calm : Calm ("  unreachable".toList ++ suffix.val)
  ends : headIs isWord suffix.val = false

/-- An operand of a `ret` with the line it stands in. -/
inductive Returned where
  | written (line : PlainLine)
  | cookie (type : IrType) (cookie : Int)
  | zero (type : IrType) (stop : StopLine)

/-- The dialect of the bodies: lines, and names of functions.  A label is the lines in
front of its block. -/
abbrev llvm : Alphabet where
  Op := PlainLine
  Trap := TrapLine
  Stop := StopLine
  Jump := { lines : List PlainLine // lines ≠ [] }
  Operand := Returned
  Label := List PlainLine
  Name := Text
  Value := Int

inductive BodyLine where
  | plain (line : PlainLine)
  | trap (line : TrapLine)
  | throw (line : TrapLine) (cookie : Int)
  | stop (line : StopLine)
  | ret (operand : Returned)

def instrLine : Instr llvm → BodyLine
  | .op line => .plain line
  | .call _ line => .plain line
  | .trap line => .trap line
  | .throw line cookie => .throw line cookie

def exitLines : Exit llvm → List BodyLine
  | .ret operand => [.ret operand]
  | .jump jump => jump.val.map .plain
  | .unreachable stop => [.stop stop]

def codeLines (code : Code llvm) : List BodyLine := code.body.map instrLine ++ exitLines code.exit

def blockLines (block : Block llvm) : List BodyLine :=
  block.label.map .plain ++ codeLines block.code

def routineLines (routine : Routine llvm) : List BodyLine := routine.flatMap blockLines

/-- The metadata that a `ret` takes over. -/
def StopLine.debug (stop : StopLine) : Text :=
  ((debugRe.search stop.suffix.val).map fun found => found.group 1).getD []

def TrapLine.print (line : TrapLine) : Text :=
  "  ".toList ++ ((if line.tail then "tail ".toList else []) ++ (trapText ++ line.suffix.val))

def StopLine.print (line : StopLine) : Text := "  unreachable".toList ++ line.suffix.val

def Returned.print : Returned → Text
  | .written line => line.val
  | .cookie type value => "  ".toList ++ (cookieReturn value type).getD []
  | .zero type stop => "  ".toList ++ zeroReturnOf type ++ stop.debug

def BodyLine.print : BodyLine → Text
  | .plain line => line.val
  | .trap line => line.print
  | .throw line cookie => "  ".toList ++ (throwCall cookie ++ line.suffix.val)
  | .stop line => line.print
  | .ret operand => operand.print

/-! ## What the loops see of a line -/

theorem infix_of_trapCall {line : Text} (trap : trapCall line = true) : trapText <:+: line := by
  rw [trapCall, Option.isSome_iff_exists] at trap
  obtain ⟨m, found⟩ := trap
  obtain ⟨stop, ⟨_, ⟨-, rfl⟩, middle, spaces, before, optional, call⟩, -, -, -⟩ :=
    Pattern.matchAt_eq_some found
  obtain ⟨read, split, -⟩ := spaces.read
  obtain ⟨more, moreSplit, -⟩ := optional.read
  obtain ⟨last, -⟩ := lit_reaches call
  refine ⟨read ++ more, stop.rest, ?_⟩
  rw [List.append_assoc, List.append_assoc, show line = read ++ middle.rest from split, moreSplit,
    last]
  rfl

theorem trapCall_calm {line : Text} (calm : Calm line) : trapCall line = false := by
  rw [Bool.eq_false_iff]
  exact fun trap => calm.1 (infix_of_trapCall trap)

/-- Behind the indent of a trap stands `tail` or the call. -/
theorem trapCall_starts {line : Text} (trap : trapCall line = true) :
    ∃ rest, line.dropWhile isSpace = 't' :: rest ∨
      line.dropWhile isSpace = trapText ++ rest := by
  rw [trapCall, Option.isSome_iff_exists] at trap
  obtain ⟨m, found⟩ := trap
  obtain ⟨stop, ⟨_, ⟨-, rfl⟩, middle, spaces, before, optional, ⟨rest, call, -⟩⟩, -, -, -⟩ :=
    Pattern.matchAt_eq_some found
  obtain ⟨read, split, white⟩ := Pattern.star_chr_reaches spaces
  change line = read ++ middle.rest at split
  rw [split, List.dropWhile_append_of_pos white]
  rcases optional with ⟨_, ⟨left, tail, rfl⟩, -⟩ | same
  · refine ⟨"ail".toList ++ left, Or.inl ?_⟩
    rw [tail, show "tail".toList ++ left = 't' :: ("ail".toList ++ left) from rfl,
      List.dropWhile_cons_of_neg (by decide)]
  · obtain rfl := same
    refine ⟨rest, Or.inr ?_⟩
    rw [call, show "call void @llvm.trap()".toList ++ rest =
      'c' :: ("all void @llvm.trap()".toList ++ rest) from rfl,
      List.dropWhile_cons_of_neg (by decide)]
    rfl

theorem indent_white : ∀ c ∈ "  ".toList, isSpace c = true :=
  List.all_eq_true.mp (by decide)

theorem dropWhile_indent (rest : Text) :
    ("  ".toList ++ rest).dropWhile isSpace = rest.dropWhile isSpace :=
  List.dropWhile_append_of_pos indent_white

/-- An indented line that does not start with `t` or `u`, nor with the call of a trap. -/
theorem loops_pass {rest : Text} {c : Char} (black : isSpace c = false)
    (different : c ≠ 't' ∧ c ≠ 'u') (noTrap : ¬trapText <+: c :: rest) :
    trapCall ("  ".toList ++ c :: rest) = false ∧
      startsUnreachable ("  ".toList ++ c :: rest) = false := by
  have dropped : ("  ".toList ++ c :: rest).dropWhile isSpace = c :: rest := by
    rw [dropWhile_indent, List.dropWhile_cons_of_neg (by simp [black])]
  constructor
  · rw [Bool.eq_false_iff]
    intro trap
    obtain ⟨left, tail | call⟩ := trapCall_starts trap
    · rw [dropped] at tail
      exact different.1 (List.cons.inj tail).1
    · rw [dropped] at call
      exact noTrap ⟨left, call.symm⟩
  · rw [Bool.eq_false_iff]
    intro starts
    obtain ⟨left, same⟩ := startsUnreachable_eq_true starts
    rw [dropped] at same
    exact different.2 (List.cons.inj same).1

theorem loops_pass_throw (line : TrapLine) (cookie : Int) :
    trapCall (BodyLine.throw line cookie).print = false ∧
      startsUnreachable (BodyLine.throw line cookie).print = false := by
  have call : "call void @bpf_throw(i64 ".toList = 'c' :: ("all void @".toList ++
      'b' :: "pf_throw(i64 ".toList) := by decide
  have starts : throwCall cookie ++ line.suffix.val = 'c' :: ("all void @".toList ++
      'b' :: ("pf_throw(i64 ".toList ++ (printInt cookie ++ ([')'] ++ line.suffix.val)))) := by
    calc throwCall cookie ++ line.suffix.val
        = "call void @bpf_throw(i64 ".toList ++
            (printInt cookie ++ ([')'] ++ line.suffix.val)) := by
          unfold throwCall
          simp only [List.append_assoc]
      _ = ('c' :: ("all void @".toList ++ 'b' :: "pf_throw(i64 ".toList)) ++
            (printInt cookie ++ ([')'] ++ line.suffix.val)) := congrArg (· ++ _) call
      _ = _ := by simp only [List.append_assoc, List.cons_append]
  rw [BodyLine.print, starts]
  apply loops_pass rfl (by decide)
  rintro ⟨rest, same⟩
  have trap : trapText = 'c' :: ("all void @".toList ++ 'l' :: "lvm.trap()".toList) := by decide
  rw [trap, List.cons_append, List.cons.injEq, List.append_assoc, List.append_cancel_left_eq,
    List.cons_append, List.cons.injEq] at same
  exact absurd same.2.1 (by decide)

/-- A returned value is printed behind `ret`. -/
theorem cookieReturn_starts (cookie : Int) (type : IrType) :
    cookieReturn cookie type = none ∨
      ∃ rest, cookieReturn cookie type = some ('r' :: 'e' :: rest) := by
  cases type with
  | void | int => exact Or.inr ⟨_, rfl⟩
  | ptr | floating | array | vector | struct | named | numbered => exact Or.inl rfl

theorem zeroReturnOf_starts (type : IrType) : ∃ rest, zeroReturnOf type = 'r' :: 'e' :: rest := by
  cases type <;> exact ⟨_, rfl⟩

theorem loops_pass_ret (rest : Text) :
    trapCall ("  ".toList ++ 'r' :: 'e' :: rest) = false ∧
      startsUnreachable ("  ".toList ++ 'r' :: 'e' :: rest) = false := by
  apply loops_pass rfl (by decide)
  rintro ⟨more, same⟩
  exact absurd (List.cons.inj same).1 (by decide)

/-- No blank at the end of the word is stripped from behind it. -/
theorem prefix_rstrip {word : Text} (black : ∀ c ∈ word, isSpace c = false) (rest : Text) :
    word <+: rstrip (word ++ rest) := by
  rw [rstrip, ← List.reverse_suffix, List.reverse_reverse, List.reverse_append]
  rw [List.dropWhile_append]
  split
  · have kept : word.reverse.dropWhile isSpace = word.reverse := by
      cases shape : word.reverse with
      | nil => rfl
      | cons c others =>
          have member : c ∈ word := List.mem_reverse.mp (shape ▸ List.mem_cons_self)
          exact List.dropWhile_cons_of_neg (by simp [black c member])
    rw [kept]
  · exact List.suffix_append _ _

theorem StopLine.print_eq (stop : StopLine) :
    stop.print = "  ".toList ++ ("unreachable".toList ++ stop.suffix.val) := by
  have words : "  unreachable".toList = "  ".toList ++ "unreachable".toList := by decide
  unfold StopLine.print
  rw [words, List.append_assoc]

theorem unreachable_eq (rest : Text) :
    "unreachable".toList ++ rest = 'u' :: ("nreachable".toList ++ rest) := by
  have word : "unreachable".toList = 'u' :: "nreachable".toList := by decide
  rw [word, List.cons_append]

theorem unreachable_black : ∀ c ∈ "unreachable".toList, isSpace c = false := by
  intro c member
  have all : ("unreachable".toList.all fun c => !isSpace c) = true := by decide
  exact Bool.not_eq_true' _ ▸ List.all_eq_true.mp all c member

theorem startsUnreachable_stop (stop : StopLine) : startsUnreachable stop.print = true := by
  have dropped : stop.print.dropWhile isSpace = "unreachable".toList ++ stop.suffix.val := by
    rw [stop.print_eq, dropWhile_indent, unreachable_eq, List.dropWhile_cons_of_neg (by decide)]
  rw [startsUnreachable, strip, dropped, List.isPrefixOf_iff_prefix]
  exact prefix_rstrip unreachable_black stop.suffix.val

theorem trapCall_trap (line : TrapLine) : trapCall line.print = true := by
  have call : ∀ past, (Pattern.lit trapText).Reaches ⟨past, trapText ++ line.suffix.val, []⟩
      ⟨trapText.reverse ++ past, line.suffix.val, []⟩ := fun past => ⟨_, rfl, rfl⟩
  have spaces : ∀ rest, (Pattern.star true (.chr isSpace)).Reaches ⟨[], "  ".toList ++ rest, []⟩
      ⟨"  ".toList.reverse ++ [], rest, []⟩ := fun rest => Pattern.reaches_star_chr indent_white
  have tail : ∀ past rest, (Pattern.opt (.cat [.lit "tail".toList, .plus true (.chr isSpace)])).Reaches
      ⟨past, "tail".toList ++ ' ' :: rest, []⟩ ⟨' ' :: ("tail".toList.reverse ++ past), rest, []⟩ :=
    fun past rest => Or.inl ⟨_, ⟨_, rfl, rfl⟩, _, ⟨' ', rest, rfl, rfl, rfl⟩, .refl⟩
  have reached : ∃ past, trapRe.Reaches ⟨[], line.print, []⟩ ⟨past, line.suffix.val, []⟩ := by
    unfold TrapLine.print
    cases line.tail with
    | false => exact ⟨_, _, ⟨rfl, rfl⟩, _, spaces _, _, Or.inr rfl, call _⟩
    | true =>
        have word : "tail ".toList = "tail".toList ++ [' '] := by decide
        rw [if_pos rfl, word, List.append_assoc]
        exact ⟨_, _, ⟨rfl, rfl⟩, _, spaces _, _, tail _ _, call _⟩
  obtain ⟨past, reached⟩ := reached
  apply Pattern.isSome_matchAt reached
  unfold TrapLine.print
  simp only [List.length_append]
  have positive : 0 < trapText.length := by decide
  omega

/-- The loop of `bpf_finalize` changes only lines that it reads as unreachable. -/
theorem zeroLine_pass {type line : Text} (passes : startsUnreachable line = false) :
    zeroLine type line = .copied line := by
  rw [zeroLine]
  cases found : unreachableRe.matchStart line with
  | none => rfl
  | some m =>
      obtain ⟨stop, ⟨_, ⟨-, rfl⟩, _, indent, _, ⟨rest, split, rfl⟩, -⟩, -, -, -⟩ :=
        Pattern.matchAt_eq_some found
      obtain ⟨inner, ⟨_, ⟨c, left, here, white, rfl⟩, loop⟩, rfl⟩ := indent
      obtain ⟨more, moreSplit, allWhite⟩ := Pattern.star_chr_reaches loop
      have whole : line = (c :: more) ++ ("unreachable".toList ++ rest) := by
        rw [show line = c :: left from here, show left = more ++ inner.rest from moreSplit,
          show inner.rest = "unreachable".toList ++ rest from split]
        rfl
      have blank : ∀ d ∈ c :: more, isSpace d = true := by
        intro d member
        rcases List.mem_cons.mp member with rfl | later
        · exact white
        · exact allWhite d later
      rw [startsUnreachable, strip, whole, List.dropWhile_append_of_pos blank, unreachable_eq,
        List.dropWhile_cons_of_neg (by decide), ← unreachable_eq] at passes
      have starts := @prefix_rstrip "unreachable".toList unreachable_black rest
      rw [← List.isPrefixOf_iff_prefix] at starts
      exact absurd (starts.symm.trans passes) (by decide)

section Unreachable

variable {Answer : Type} {next : Cursor → Option Answer} {suffix : Text}

/-- The end of the pattern, at the end of a line. -/
theorem run_lineTail (oneLine : '\n' ∉ suffix) {past : Text} {groups : List (Nat × Text)} :
    (Pattern.cat [.group 2 (.star true (.chr fun c => c != '\n')), .textEnd]).run next
      ⟨past, suffix, groups⟩ = next ⟨suffix.reverse ++ past, [], (2, suffix) :: groups⟩ := by
  have all : ∀ c ∈ suffix, (c != '\n') = true := by
    intro c member
    rw [bne_iff_ne]
    rintro rfl
    exact oneLine member
  have stuck : ∀ past c rest, (c != '\n') = true →
      (Pattern.cat [.textEnd]).run next (Cursor.close ⟨past, c :: rest, groups⟩ 2 suffix) =
        none := by
    intro past c rest other
    rw [bne_iff_ne] at other
    rw [Pattern.run_cat_cons, Pattern.run_textEnd]
    apply if_neg
    simp only [Cursor.close, List.isEmpty_cons, Bool.false_or, beq_iff_eq]
    exact fun same => other (List.cons.inj same).1
  rw [Pattern.run_cat_cons, Pattern.run_group, Pattern.run_star_maximal stuck,
    List.takeWhile_eq_self_iff.mpr all, List.dropWhile_eq_nil_iff.mpr all, Pattern.run_cat_cons,
    Pattern.run_textEnd]
  simp only [Cursor.close, List.isEmpty_nil, Bool.true_or, if_true, Pattern.run_cat_nil,
    List.length_nil, Nat.sub_zero, List.take_length]

theorem run_unreachableRe (oneLine : '\n' ∉ suffix) (ends : headIs isWord suffix = false) :
    ∃ past, unreachableRe.run next ⟨[], "  ".toList ++ ("unreachable".toList ++ suffix), []⟩ =
      next ⟨past, [], [(2, suffix), (1, "  ".toList)]⟩ := by
  have black : headIs isSpace ("unreachable".toList ++ suffix) = false := by
    rw [unreachable_eq]
    rfl
  have stuck : ∀ past c rest groups, isSpace c = true →
      (Pattern.cat [.lit "unreachable".toList, .wordBoundary,
        .group 2 (.star true (.chr fun c => c != '\n')), .textEnd]).run next
          ⟨past, c :: rest, groups⟩ = none := by
    intro past c rest groups blank
    rw [Pattern.run_cat_cons]
    apply Pattern.run_lit_absent
    rintro ⟨more, same⟩
    rw [unreachable_eq] at same
    rw [← (List.cons.inj same).1] at blank
    cases blank
  have indent : ("  ".toList ++ ("unreachable".toList ++ suffix)).takeWhile isSpace =
        "  ".toList ∧
      ("  ".toList ++ ("unreachable".toList ++ suffix)).dropWhile isSpace =
        "unreachable".toList ++ suffix := by
    rw [takeWhile_append_stops black, dropWhile_append_stops black,
      List.takeWhile_eq_self_iff.mpr indent_white, List.dropWhile_eq_nil_iff.mpr indent_white]
    exact ⟨rfl, rfl⟩
  have boundary : (headIs isWord ("unreachable".toList.reverse ++ ("  ".toList.reverse ++ [])) !=
      headIs isWord suffix) = true := by
    rw [ends]
    rfl
  refine ⟨suffix.reverse ++ ("unreachable".toList.reverse ++ ("  ".toList.reverse ++ [])), ?_⟩
  rw [unreachableRe, Pattern.run_cat_cons, Pattern.run_textStart]
  simp only [List.isEmpty_nil, if_true]
  rw [Pattern.run_cat_cons, Pattern.run_group_plus_maximal stuck, indent.1, indent.2,
    if_neg (by decide), Pattern.run_cat_cons, Pattern.run_lit_append, Pattern.run_cat_cons,
    Pattern.run_wordBoundary]
  simp only [boundary, if_true]
  exact run_lineTail oneLine

end Unreachable

theorem zeroLine_stop (type : Text) (stop : StopLine) :
    zeroLine type stop.print = .ret "  ".toList (zeroReturn type) stop.debug := by
  have oneLine : '\n' ∉ stop.suffix.val := not_newline_of_printable stop.suffix.property
  obtain ⟨past, ran⟩ := @run_unreachableRe Match (wholeMatch stop.print) _ oneLine stop.ends
  have shorter : 0 < stop.print.length := by
    rw [stop.print_eq, List.length_append]
    exact Nat.add_pos_left (by decide) _
  have read : (unreachableRe.matchStart stop.print).map (fun m => m.groups) =
      some [(2, stop.suffix.val), (1, "  ".toList)] := by
    have anchored : unreachableRe.matchStart stop.print =
        unreachableRe.run (wholeMatch stop.print) ⟨[], stop.print, []⟩ := rfl
    rw [anchored]
    refine Eq.trans (congrArg (Option.map _) ?_) (@map_wholeMatch _ stop.print
      ⟨past, [], [(2, stop.suffix.val), (1, "  ".toList)]⟩ shorter id)
    rw [← ran, ← stop.print_eq]
  obtain ⟨m, found, groups⟩ := Option.map_eq_some_iff.mp read
  rw [zeroLine, found]
  simp only [Match.group, groups]
  rfl

end LibarenaRs.Linker
