import LibarenaRs.Linker.Bodies

/-!
# What the trap passes write

On a module whose functions are printed from blocks, `trap_to_ret` and the stages of
`bpf_finalize` for traps and unreachable ends write the text of a module again: that
of the same functions with a pass run over their code.
-/

namespace LibarenaRs.Linker

open LibarenaRs.Regex LibarenaRs.Llvm LibarenaRs.Flow

/-! ## Modules of blocks -/

/-- Code in which no pass has inserted anything yet. -/
structure Source (code : Code llvm) : Prop where
  instrs : ∀ trap value, Instr.throw trap value ∉ code.body
  exit : ∀ operand, code.exit = .ret operand → ∃ line, operand = Returned.written line

structure BlockFunction where
  header : Header
  /-- The loops read the function's own type off its signature line. -/
  readable : header.reading = some header.returns.print
  calm : Calm (defineLine header)
  blocks : Routine llvm
  source : ∀ block ∈ blocks, Source block.code

structure OtherItem where
  item : Item
  noBody : ∀ header body, item ≠ .function header body
  quiet : ∀ line ∈ item.lines, Calm line ∧ startsUnreachable line = false

inductive BlockItem where
  | function (found : BlockFunction)
  | other (item : OtherItem)

/-- A pass over the code of a function. -/
abbrev Pass := Header → Code llvm → Code llvm

theorem indented_inert {rest : Text} (oneLine : '\n' ∉ rest) : Inert ("  ".toList ++ rest) := by
  have blanks : "  ".toList = [' ', ' '] := by decide
  have noWord : firstWord ("  ".toList ++ rest) = [] := by
    rw [blanks]
    rfl
  refine ⟨?_, ?_, by rw [noWord]; decide⟩
  · rw [List.mem_append, not_or]
    exact ⟨by decide, oneLine⟩
  · rw [blanks]
    rfl

theorem StopLine.debug_oneLine (stop : StopLine) : '\n' ∉ stop.debug := by
  rw [debug]
  cases found : debugRe.search stop.suffix.val with
  | none => exact List.not_mem_nil
  | some m =>
      obtain ⟨read, rest, split, matched⟩ := Pattern.matchAt_of_search found
      intro member
      apply not_newline_of_printable stop.suffix.property
      rw [split]
      exact List.mem_append_right _ (Pattern.group_subset matched 1 member)

theorem cookieReturn_oneLine (cookie : Int) (type : IrType) :
    '\n' ∉ (cookieReturn cookie type).getD [] := by
  cases type with
  | void => exact (by decide : '\n' ∉ "ret void".toList)
  | int bits =>
      have word : '\n' ∉ (IrType.int bits).print :=
        not_newline_of_printable (IrType.int bits).printable_print
      simp only [cookieReturn, Option.getD_some, List.mem_append, List.mem_cons, not_or]
      exact ⟨⟨by decide, word⟩, by decide, printInt_oneLine cookie⟩
  | ptr | floating | array | vector | struct | named | numbered => exact List.not_mem_nil

theorem zeroReturnOf_oneLine (type : IrType) : '\n' ∉ zeroReturnOf type := by
  have word : '\n' ∉ type.print := not_newline_of_printable type.printable_print
  have value : '\n' ∉ zeroValue type := by
    unfold zeroValue
    split <;> decide
  have ret : '\n' ∉ "ret ".toList ++ type.print ++ ' ' :: zeroValue type := by
    simp only [List.mem_append, List.mem_cons, not_or]
    exact ⟨⟨by decide, word⟩, by decide, value⟩
  cases type with
  | void => exact (by decide : '\n' ∉ "ret void".toList)
  | int | ptr | floating | array | vector | struct | named | numbered => exact ret

theorem BodyLine.inert (line : BodyLine) : Inert line.print := by
  have oneLine : ∀ suffix : Printed, '\n' ∉ suffix.val := fun suffix =>
    not_newline_of_printable suffix.property
  cases line with
  | plain line => exact line.property.1
  | trap line =>
      apply indented_inert
      cases line.tail <;>
        simp only [List.mem_append, not_or] <;>
        exact ⟨by decide, by decide, oneLine line.suffix⟩
  | throw line cookie =>
      apply indented_inert
      unfold throwCall
      simp only [List.mem_append, not_or]
      exact ⟨⟨⟨by decide, printInt_oneLine cookie⟩, by decide⟩, oneLine line.suffix⟩
  | stop line =>
      rw [BodyLine.print, line.print_eq]
      apply indented_inert
      rw [List.mem_append, not_or]
      exact ⟨by decide, oneLine line.suffix⟩
  | ret operand =>
      cases operand with
      | written line => exact line.property.1
      | cookie type value => exact indented_inert (cookieReturn_oneLine value type)
      | zero type stop =>
          rw [BodyLine.print, Returned.print, List.append_assoc]
          apply indented_inert
          rw [List.mem_append, not_or]
          exact ⟨zeroReturnOf_oneLine type, stop.debug_oneLine⟩

def BodyLine.line (line : BodyLine) : InertLine := ⟨line.print, line.inert⟩

def BlockFunction.lines (pass : Pass) (function : BlockFunction) : List BodyLine :=
  routineLines (Routine.map (pass function.header) function.blocks)

def BlockItem.item (pass : Pass) : BlockItem → Item
  | .function found => .function found.header ((found.lines pass).map BodyLine.line)
  | .other item => item.item

namespace BlockModule

def module (pass : Pass) (m : List BlockItem) : Module := m.map (BlockItem.item pass)

def text (pass : Pass) (m : List BlockItem) : Text := (module pass m).text

def functions (m : List BlockItem) : List BlockFunction :=
  m.filterMap fun
    | .function found => some found
    | .other _ => none

/-- The functions by their names. -/
def program (pass : Pass) (m : List BlockItem) : Program llvm := fun name =>
  ((functions m).find? fun function => function.header.name = name).map fun function =>
    Routine.map (pass function.header) function.blocks

end BlockModule

/-! ## The passes -/

def keeping : Pass := fun _ code => code

/-- `trap_to_ret` -/
def returning (cookie : Int) : Pass := fun header code =>
  match cookieReturn cookie header.returns with
  | some _ => code.returning (.cookie header.returns cookie)
  | none => code

/-- The traps of `bpf_finalize`. -/
def throwing (cookie : Int) : Pass := fun _ code => code.throwing cookie

/-- The unreachable ends of `bpf_finalize`. -/
def closingWith (pass : Pass) : Pass := fun header code =>
  (pass header code).closing (.zero header.returns)

def BodyLine.throwing (cookie : Int) : BodyLine → BodyLine
  | .trap line => .throw line cookie
  | line => line

def BodyLine.closing (type : IrType) : BodyLine → BodyLine
  | .stop line => .ret (.zero type line)
  | line => line

def returningLines (operand : Returned) : List BodyLine → List BodyLine
  | .trap _ :: .stop _ :: lines => .ret operand :: returningLines operand lines
  | line :: lines => line :: returningLines operand lines
  | [] => []

/-! ## The passes on printed code -/

theorem routineLines_cons (block : Block llvm) (blocks : Routine llvm) :
    routineLines (block :: blocks) = blockLines block ++ routineLines blocks :=
  List.flatMap_cons

theorem routineLines_map (change : BodyLine → BodyLine) (pass : Code llvm → Code llvm)
    (plain : ∀ line, change (.plain line) = .plain line)
    (code : ∀ code, codeLines (pass code) = (codeLines code).map change) (routine : Routine llvm) :
    routineLines (Routine.map pass routine) = (routineLines routine).map change := by
  have copied : ∀ lines : List PlainLine,
      (lines.map BodyLine.plain).map change = lines.map BodyLine.plain := by
    intro lines
    rw [List.map_map]
    exact List.map_congr_left fun line _ => plain line
  induction routine with
  | nil => rfl
  | cons block blocks inductionHypothesis =>
      have first : blockLines { block with code := pass block.code } =
          (blockLines block).map change := by
        rw [blockLines, blockLines, List.map_append, copied, code]
      rw [routineLines_cons, List.map_append, ← first, ← inductionHypothesis]
      rfl

theorem codeLines_throwing (cookie : Int) (code : Code llvm) :
    codeLines (code.throwing cookie) = (codeLines code).map (BodyLine.throwing cookie) := by
  have ends : (exitLines code.exit).map (BodyLine.throwing cookie) = exitLines code.exit := by
    cases code.exit with
    | ret operand => rfl
    | unreachable stop => rfl
    | jump jump =>
        rw [exitLines, List.map_map]
        rfl
  unfold codeLines Code.throwing
  rw [List.map_append, ends, List.map_map, List.map_map]
  congr 1
  apply List.map_congr_left
  intro instr _
  cases instr <;> rfl

theorem codeLines_closing (type : IrType) (code : Code llvm) :
    codeLines (code.closing (.zero type)) = (codeLines code).map (BodyLine.closing type) := by
  have ends : exitLines (code.exit.closing (.zero type)) =
      (exitLines code.exit).map (BodyLine.closing type) := by
    cases code.exit with
    | ret operand => rfl
    | unreachable stop => rfl
    | jump jump =>
        unfold Exit.closing exitLines
        rw [List.map_map]
        rfl
  unfold codeLines Code.closing
  rw [List.map_append, ends, List.map_map]
  congr 1
  apply List.map_congr_left
  intro instr _
  cases instr <;> rfl

theorem returningLines_plain (operand : Returned) (plain : List PlainLine)
    (lines : List BodyLine) :
    returningLines operand (plain.map .plain ++ lines) =
      plain.map .plain ++ returningLines operand lines := by
  induction plain with
  | nil => rfl
  | cons line plain inductionHypothesis => exact congrArg (List.cons _) inductionHypothesis

theorem returningLines_code (operand : Returned) (code : Code llvm) (lines : List BodyLine) :
    returningLines operand (codeLines code ++ lines) =
      codeLines (code.returning operand) ++ returningLines operand lines := by
  obtain ⟨body, exit⟩ := code
  unfold codeLines Code.returning
  rw [List.append_assoc]
  induction body with
  | nil =>
      cases exit with
      | ret written => rfl
      | unreachable stop => rfl
      | jump jump => exact returningLines_plain operand jump.val lines
  | cons instr body inductionHypothesis =>
      cases instr with
      | op line => exact congrArg (List.cons _) inductionHypothesis
      | call callee line => exact congrArg (List.cons _) inductionHypothesis
      | throw trap value => exact congrArg (List.cons _) inductionHypothesis
      | trap trap =>
          cases body with
          | cons other others =>
              cases other <;> exact congrArg (List.cons _) inductionHypothesis
          | nil =>
              cases exit with
              | ret written => rfl
              | unreachable stop => rfl
              | jump jump =>
                  -- a jump has a line, and it is a plain one
                  obtain ⟨targets, filled⟩ := jump
                  cases targets with
                  | nil => exact absurd rfl filled
                  | cons target targets => exact congrArg (List.cons _) inductionHypothesis

theorem routineLines_returning (operand : Returned) (routine : Routine llvm) :
    routineLines (Routine.map (Code.returning operand) routine) =
      returningLines operand (routineLines routine) := by
  induction routine with
  | nil => rfl
  | cons block blocks inductionHypothesis =>
      rw [routineLines_cons, blockLines, List.append_assoc, returningLines_plain,
        returningLines_code, ← inductionHypothesis, ← List.append_assoc]
      rfl

/-! ## The loop of trap_to_ret -/

theorem trapReturn_print (cookie : Int) (type : IrType) :
    trapReturn cookie (some type.print) = cookieReturn cookie type := by
  cases written : trapReturn cookie (some type.print) with
  | some instruction => exact ((trapReturn_fits written type).mpr rfl).symm
  | none =>
      have kept : ¬∃ instruction, trapReturn cookie (some type.print) = some instruction := by
        simp [written]
      rw [trapReturn_isSome, not_or] at kept
      cases type with
      | void => exact absurd rfl kept.1
      | int bits => exact absurd (intRe_fullMatch_print.mpr ⟨bits, rfl⟩) kept.2
      | ptr | floating | array | vector | struct | named | numbered => rfl

theorem BodyLine.loops (line : BodyLine) :
    (∃ trap, line = .trap trap) ∨ (∃ stop, line = .stop stop) ∨
      (trapCall line.print = false ∧ startsUnreachable line.print = false) := by
  cases line with
  | plain line => exact Or.inr (Or.inr ⟨trapCall_calm line.property.2.1, line.property.2.2⟩)
  | trap line => exact Or.inl ⟨line, rfl⟩
  | throw line cookie => exact Or.inr (Or.inr (loops_pass_throw line cookie))
  | stop line => exact Or.inr (Or.inl ⟨line, rfl⟩)
  | ret operand =>
      refine Or.inr (Or.inr ?_)
      cases operand with
      | written line => exact ⟨trapCall_calm line.property.2.1, line.property.2.2⟩
      | cookie type value =>
          rw [BodyLine.print, Returned.print]
          rcases cookieReturn_starts value type with none_ | ⟨rest, some_⟩
          · rw [none_]
            decide
          · rw [some_]
            exact loops_pass_ret rest
      | zero type stop =>
          obtain ⟨rest, starts⟩ := zeroReturnOf_starts type
          rw [BodyLine.print, Returned.print, starts, List.append_assoc]
          exact loops_pass_ret _

theorem trapCall_stop (stop : StopLine) : trapCall stop.print = false := by
  rw [Bool.eq_false_iff]
  intro trap
  exact absurd ((startsUnreachable_stop stop).symm.trans
    (not_startsUnreachable_of_trapCall trap)) (by decide)

/-- What `trap_to_ret` makes of lines, with the type it carries to them. -/
def trapLines (cookie : Int) (current : Option Text) (lines : List Text) : List Text :=
  (trapLoop cookie current (lines.map fun line => ((), line))).map fun emitted => emitted.2.line

/-- What `bpf_finalize` makes of lines. -/
def zeroLines (current : Text) (lines : List Text) : List Text :=
  (zeroLoop current (lines.map fun line => ((), line))).map fun emitted => emitted.2.line

/-- The first line is no end of a pair. -/
def Unpaired (lines : List Text) : Prop := ∀ line ∈ lines.head?, startsUnreachable line = false

theorem trapLines_copy {cookie : Int} {current : Option Text} {line : Text} {rest : List Text}
    (copied : trapCall line = false ∨ Unpaired rest) :
    trapLines cookie current (line :: rest) =
      line :: trapLines cookie ((headerType line).or current) rest := by
  cases rest with
  | nil => rfl
  | cons next rest =>
      have noPair : (trapCall line && startsUnreachable next) = false := by
        rcases copied with noTrap | unpaired
        · rw [noTrap, Bool.false_and]
        · rw [unpaired next rfl, Bool.and_false]
      have noPair' : ¬(trapCall line && startsUnreachable next) = true := by simp [noPair]
      simp only [trapLines, List.map_cons, trapLoop, if_neg noPair']
      rfl

theorem trapLines_body (cookie : Int) (type : IrType) (lines : List BodyLine) {rest : List Text}
    (unpaired : Unpaired rest) :
    trapLines cookie (some type.print) (lines.map BodyLine.print ++ rest) =
      (match cookieReturn cookie type with
        | some _ => returningLines (.cookie type cookie) lines
        | none => lines).map BodyLine.print ++ trapLines cookie (some type.print) rest := by
  have noHeader : ∀ line : BodyLine, headerType line.print = none :=
    fun line => headerType_inert line.line
  induction lines using returningLines.induct with
  | case1 trap stop lines inductionHypothesis =>
      have pair : (trapCall (BodyLine.trap trap).print &&
          startsUnreachable (BodyLine.stop stop).print) = true := by
        rw [show trapCall (BodyLine.trap trap).print = true from trapCall_trap trap,
          show startsUnreachable (BodyLine.stop stop).print = true from
            startsUnreachable_stop stop]
        rfl
      have stopped : trapLines cookie (some type.print)
          ((BodyLine.stop stop).print :: (lines.map BodyLine.print ++ rest)) =
          (BodyLine.stop stop).print ::
            trapLines cookie (some type.print) (lines.map BodyLine.print ++ rest) := by
        have noTrap : trapCall (BodyLine.stop stop).print = false := trapCall_stop stop
        rw [trapLines_copy (Or.inl noTrap), noHeader]
        rfl
      cases written : cookieReturn cookie type with
      | none =>
          rw [written] at inductionHypothesis
          have kept : trapLines cookie (some type.print) ((BodyLine.trap trap).print ::
              ((BodyLine.stop stop).print :: (lines.map BodyLine.print ++ rest))) =
              (BodyLine.trap trap).print :: trapLines cookie (some type.print)
                ((BodyLine.stop stop).print :: (lines.map BodyLine.print ++ rest)) := by
            simp only [trapLines, List.map_cons, trapLoop, if_pos pair, noHeader,
              Option.none_or, trapReturn_print, written]
            rfl
          rw [List.map_cons, List.map_cons, List.cons_append, List.cons_append, kept, stopped,
            inductionHypothesis]
          rfl
      | some instruction =>
          rw [written] at inductionHypothesis
          have returned : trapLines cookie (some type.print) ((BodyLine.trap trap).print ::
              ((BodyLine.stop stop).print :: (lines.map BodyLine.print ++ rest))) =
              (BodyLine.ret (.cookie type cookie)).print :: trapLines cookie (some type.print)
                (lines.map BodyLine.print ++ rest) := by
            have line : (BodyLine.ret (.cookie type cookie)).print =
                "  ".toList ++ instruction ++ [] := by
              rw [BodyLine.print, Returned.print, written, List.append_nil]
              rfl
            simp only [trapLines, List.map_cons, trapLoop, if_pos pair, noHeader,
              Option.none_or, trapReturn_print, written, Emitted.line, line]
          rw [List.map_cons, List.map_cons, List.cons_append, List.cons_append, returned,
            inductionHypothesis]
          rfl
  | case2 line lines noPair inductionHypothesis =>
      have copied : trapCall line.print = false ∨ Unpaired (lines.map BodyLine.print ++ rest) := by
        rcases line.loops with ⟨trap, rfl⟩ | ⟨stop, rfl⟩ | passes
        · cases lines with
          | nil => exact Or.inr unpaired
          | cons next lines =>
              refine Or.inr ?_
              rintro _ ⟨⟩
              rcases next.loops with ⟨other, rfl⟩ | ⟨stop, rfl⟩ | passes
              · exact not_startsUnreachable_of_trapCall (trapCall_trap other)
              · exact absurd rfl (noPair trap stop lines rfl)
              · exact passes.2
        · exact Or.inl (trapCall_stop stop)
        · exact Or.inl passes.1
      have step : returningLines (.cookie type cookie) (line :: lines) =
          line :: returningLines (.cookie type cookie) lines := by
        rw [returningLines]
        exact noPair
      rw [List.map_cons, List.cons_append, trapLines_copy copied, noHeader, Option.none_or,
        inductionHypothesis]
      cases cookieReturn cookie type with
      | none => rfl
      | some instruction =>
          simp only [step]
          rfl
  | case3 =>
      cases cookieReturn cookie type <;> rfl

namespace BlockModule

theorem lines_cons (pass : Pass) (item : BlockItem) (m : List BlockItem) :
    (module pass (item :: m)).lines = (item.item pass).lines ++ (module pass m).lines :=
  List.flatMap_cons

theorem lines_function (pass : Pass) (function : BlockFunction) :
    (BlockItem.item pass (.function function)).lines = defineLine function.header ::
      ((function.lines pass).map BodyLine.print ++ [closing.val]) := by
  rw [BlockItem.item, Item.lines, List.map_append, List.map_map]
  rfl

theorem lines_returning (cookie : Int) (function : BlockFunction) :
    function.lines (returning cookie) =
      match cookieReturn cookie function.header.returns with
      | some _ => returningLines (.cookie function.header.returns cookie)
          (function.lines keeping)
      | none => function.lines keeping := by
  have kept : ∀ routine : Routine llvm, Routine.map (fun code => code) routine = routine :=
    fun routine => List.map_id' routine
  rw [BlockFunction.lines, BlockFunction.lines]
  cases written : cookieReturn cookie function.header.returns with
  | none =>
      have same : returning cookie function.header = keeping function.header := by
        funext code
        simp only [returning, written, keeping]
      rw [same]
  | some instruction =>
      have same : returning cookie function.header =
          Code.returning (A := llvm) (.cookie function.header.returns cookie) := by
        funext code
        simp only [returning, written]
      rw [same, routineLines_returning, show keeping function.header = fun code => code from rfl,
        kept]

/-- The loop runs the pass over the functions and copies the other lines. -/
theorem trapLines_module (cookie : Int) (current : Option Text) (m : List BlockItem) :
    trapLines cookie current (module keeping m).lines = (module (returning cookie) m).lines := by
  induction m generalizing current with
  | nil => rfl
  | cons item m inductionHypothesis =>
      rw [lines_cons, lines_cons]
      cases item with
      | function function =>
          have first : trapCall (defineLine function.header) = false :=
            trapCall_calm function.calm
          have type : (headerType (defineLine function.header)).or current =
              some function.header.returns.print := by
            rw [headerType_defineLine, function.readable]
            rfl
          have last : Unpaired ([closing.val] ++ (module keeping m).lines) := by
            rintro _ ⟨⟩
            decide
          rw [lines_function, lines_function, List.cons_append, trapLines_copy (Or.inl first),
            type, List.append_assoc, trapLines_body cookie _ _ last, List.singleton_append,
            trapLines_copy (Or.inl (by decide)), inductionHypothesis, lines_returning]
          simp only [List.cons_append, List.append_assoc, List.nil_append]
      | other other =>
          have copied : ∀ lines rest current, (∀ line ∈ lines, Calm line) →
              (∀ current, trapLines cookie current rest = (module (returning cookie) m).lines) →
              trapLines cookie current (lines ++ rest) =
                lines ++ (module (returning cookie) m).lines := by
            intro lines rest current calm later
            induction lines generalizing current with
            | nil => exact later current
            | cons line lines tail =>
                rw [List.cons_append, trapLines_copy
                  (Or.inl (trapCall_calm (calm line List.mem_cons_self))),
                  tail _ fun other member => calm other (List.mem_cons_of_mem _ member)]
                rfl
          exact copied other.item.lines _ current (fun line member => (other.quiet line member).1)
            fun current => inductionHypothesis current

/-! ## The last loop of bpf_finalize -/

theorem zeroLines_cons (current line : Text) (rest : List Text) :
    zeroLines current (line :: rest) = (zeroLine ((headerType line).getD current) line).line ::
      zeroLines ((headerType line).getD current) rest := rfl

theorem zeroLine_body (type : IrType) (line : BodyLine) :
    (zeroLine type.print line.print).line = (line.closing type).print := by
  rcases line.loops with ⟨trap, rfl⟩ | ⟨stop, rfl⟩ | passes
  · have passes := not_startsUnreachable_of_trapCall (trapCall_trap trap)
    rw [show (BodyLine.trap trap).print = trap.print from rfl, zeroLine_pass passes]
    rfl
  · rw [show (BodyLine.stop stop).print = stop.print from rfl, zeroLine_stop, Emitted.line,
      zeroReturn_print]
    rfl
  · rw [zeroLine_pass passes.2, Emitted.line]
    cases line with
    | stop stop => exact absurd ((startsUnreachable_stop stop).symm.trans passes.2) (by decide)
    | plain | trap | throw | ret => rfl

theorem zeroLines_body (type : IrType) (lines : List BodyLine) (rest : List Text) :
    zeroLines type.print (lines.map BodyLine.print ++ rest) =
      (lines.map (BodyLine.closing type)).map BodyLine.print ++ zeroLines type.print rest := by
  induction lines with
  | nil => rfl
  | cons line lines inductionHypothesis =>
      have noHeader : headerType line.print = none := headerType_inert line.line
      rw [List.map_cons, List.cons_append, zeroLines_cons, noHeader, Option.getD_none,
        inductionHypothesis, zeroLine_body]
      rfl

theorem lines_closing (pass : Pass) (function : BlockFunction) :
    function.lines (closingWith pass) =
      (function.lines pass).map (BodyLine.closing function.header.returns) := by
  have parts : Routine.map (closingWith pass function.header) function.blocks =
      Routine.map (Code.closing (A := llvm) (.zero function.header.returns))
        (Routine.map (pass function.header) function.blocks) := by
    rw [Routine.map, Routine.map, Routine.map, List.map_map]
    rfl
  rw [BlockFunction.lines, parts]
  exact routineLines_map _ _ (fun _ => rfl) (codeLines_closing _) _

theorem zeroLines_module (pass : Pass) (current : Text) (m : List BlockItem) :
    zeroLines current (module pass m).lines = (module (closingWith pass) m).lines := by
  induction m generalizing current with
  | nil => rfl
  | cons item m inductionHypothesis =>
      rw [lines_cons, lines_cons]
      cases item with
      | function function =>
          have type : (headerType (defineLine function.header)).getD current =
              function.header.returns.print := by
            rw [headerType_defineLine, function.readable]
            rfl
          have first : (zeroLine function.header.returns.print
              (defineLine function.header)).line = defineLine function.header := by
            rw [zeroLine_pass]
            · rfl
            · rw [Bool.eq_false_iff]
              intro starts
              obtain ⟨rest, same⟩ := startsUnreachable_eq_true starts
              have word : defineLine function.header =
                  'd' :: ("efine ".toList ++ function.header.print) := rfl
              rw [word, List.dropWhile_cons_of_neg (by decide)] at same
              exact absurd (List.cons.inj same).1 (by decide)
          have last : (headerType closing.val).getD function.header.returns.print =
              function.header.returns.print := by
            rw [headerType_inert]
            rfl
          rw [lines_function, lines_function, List.cons_append, zeroLines_cons, type, first,
            List.append_assoc, zeroLines_body, List.singleton_append, zeroLines_cons, last,
            inductionHypothesis, lines_closing, zeroLine_pass (by decide)]
          simp only [List.cons_append, List.append_assoc]
          rfl
      | other other =>
          have copied : ∀ lines rest current,
              (∀ line ∈ lines, startsUnreachable line = false) →
              (∀ current, zeroLines current rest = (module (closingWith pass) m).lines) →
              zeroLines current (lines ++ rest) =
                lines ++ (module (closingWith pass) m).lines := by
            intro lines rest current quiet later
            induction lines generalizing current with
            | nil => exact later current
            | cons line lines tail =>
                rw [List.cons_append, zeroLines_cons,
                  zeroLine_pass (quiet line List.mem_cons_self),
                  tail _ fun other member => quiet other (List.mem_cons_of_mem _ member)]
                rfl
          exact copied other.item.lines _ current (fun line member => (other.quiet line member).2)
            fun current => inductionHypothesis current

theorem splitLines_text (pass : Pass) {m : List BlockItem} (filled : m ≠ []) :
    splitLines (text pass m) = (module pass m).lines := by
  apply Module.splitLines_text
  rw [module, ne_eq, List.map_eq_nil_iff]
  exact filled

/-! ## Traps that throw -/

end BlockModule

theorem prefix_line {word after rest : Text} (oneLine : '\n' ∉ word)
    (stops : headIs (· != '\n') rest = false) (starts : word <+: after ++ rest) :
    word <+: after := by
  have inLine := @dropPrefix?_line word after rest oneLine stops
  by_contra absent
  rw [dropPrefix?_eq_none.mpr absent, Option.map_none, dropPrefix?_eq_none] at inLine
  exact inLine starts

theorem trapText_oneLine : '\n' ∉ trapText := by decide

/-- No call of a trap starts in a calm line, in whatever line it would end. -/
theorem calm_no_call {line start after rest opening : Text} (calm : Calm line)
    (split : line = start ++ after) (stops : headIs (· != '\n') rest = false)
    (opened : Opening opening) : ¬opening ++ trapText <+: after ++ rest := by
  have noTrap : ∀ before behind, line = before ++ behind → ¬trapText <+: behind ++ rest := by
    intro before behind parts starts
    obtain ⟨more, rfl⟩ := prefix_line trapText_oneLine stops starts
    exact calm.1 ⟨before, more, by rw [parts, List.append_assoc]⟩
  rcases opened with rfl | ⟨blanks, rfl, white⟩
  · exact noTrap start after split
  · rintro ⟨more, same⟩
    have tail : "tail".toList <+: after := by
      apply prefix_line (by decide) stops
      exact ⟨blanks ++ (trapText ++ more), by rw [← same]; simp only [List.append_assoc]⟩
    obtain ⟨behind, rfl⟩ := tail
    rw [List.append_assoc, List.append_assoc, List.append_assoc, List.append_cancel_left_eq] at same
    rcases List.append_eq_append_iff.mp same with ⟨left, inLine, call⟩ | ⟨left, inBlanks, call⟩
    · exact noTrap (start ++ ("tail".toList ++ blanks)) left (by
        rw [split, inLine]
        simp only [List.append_assoc]) ⟨more, call⟩
    · -- the line ends with `tail` and blanks
      apply calm.2
      have blank : ∀ c ∈ behind, isSpace c = true := fun c member =>
        white c (inBlanks ▸ List.mem_append_left _ member)
      rw [split, ← List.append_assoc, rstrip_blanks blank]
      exact ⟨start, by simp [rstrip, isSpace]⟩

theorem trapCallRe_prefix {past rest : Text} {m : Match}
    (found : trapCallRe.matchAt past rest = some m) :
    ∃ opening more, Opening opening ∧ m.text = opening ++ trapText ∧
      rest = (opening ++ trapText) ++ more := by
  obtain ⟨opening, opened, shape⟩ := trapCallRe_match found
  obtain ⟨stop, -, whole, -⟩ := Pattern.matchAt_eq_some found
  exact ⟨opening, stop.rest, opened, shape, by rw [whole, shape]; rfl⟩

theorem scan_calm {line past rest : Text} (calm : Calm line)
    (stops : headIs (· != '\n') rest = false) :
    trapCallRe.scan past (line ++ rest) 0 =
      line.map .plain ++ trapCallRe.scan (line.reverse ++ past) rest 0 := by
  apply Pattern.scan_plain
  intro start c stop split
  cases found : trapCallRe.matchAt (start.reverse ++ past) (c :: (stop ++ rest)) with
  | none => rfl
  | some m =>
      obtain ⟨opening, more, opened, -, starts⟩ := trapCallRe_prefix found
      exact absurd ⟨more, starts.symm⟩ (calm_no_call calm split stops opened)

/-- A match starts with `tail` or with the call. -/
theorem opening_head {opening more : Text} {c : Char} {rest : Text} (opened : Opening opening)
    (starts : c :: rest = (opening ++ trapText) ++ more) :
    (opening = [] ∧ c = 'c') ∨ (opening ≠ [] ∧ c = 't') := by
  rcases opened with rfl | ⟨blanks, rfl, -⟩
  · exact Or.inl ⟨rfl, (List.cons.inj starts).1⟩
  · refine Or.inr ⟨by simp, ?_⟩
    rw [List.append_assoc, List.append_assoc] at starts
    exact (List.cons.inj starts).1

theorem matchAt_other {past rest : Text} {c : Char} (other : c ≠ 'c' ∧ c ≠ 't') :
    trapCallRe.matchAt past (c :: rest) = none := by
  cases found : trapCallRe.matchAt past (c :: rest) with
  | none => rfl
  | some m =>
      obtain ⟨opening, more, opened, -, starts⟩ := trapCallRe_prefix found
      rcases opening_head opened starts with ⟨-, call⟩ | ⟨-, tail⟩
      · exact absurd call other.1
      · exact absurd tail other.2

/-- The call in a trap line is matched, with its `tail`. -/
theorem matchAt_trap (line : TrapLine) (past rest : Text) :
    ∃ m, trapCallRe.matchAt past
      (((if line.tail then "tail ".toList else []) ++ trapText) ++ rest) = some m ∧
      m.text = (if line.tail then "tail ".toList else []) ++ trapText := by
  have word : "tail ".toList = "tail".toList ++ [' '] := by decide
  have call : ∀ past, plainTrapRe.Reaches ⟨past, trapText ++ rest, []⟩
      ⟨trapText.reverse ++ past, rest, []⟩ := fun past => ⟨_, rfl, rfl⟩
  have tail : ∀ past rest, tailRe.Reaches ⟨past, "tail".toList ++ ' ' :: rest, []⟩
      ⟨' ' :: ("tail".toList.reverse ++ past), rest, []⟩ :=
    fun past rest => Or.inl ⟨_, ⟨_, rfl, rfl⟩, _, ⟨' ', rest, rfl, rfl, rfl⟩, .refl⟩
  have positive : 0 < trapText.length := by decide
  cases line.tail with
  | false =>
      have matched := @Pattern.isSome_matchAt trapCallRe past (trapText ++ rest) _
        ⟨_, Or.inr rfl, call past⟩ (by simp only [List.length_append]; omega)
      obtain ⟨m, found⟩ := Option.isSome_iff_exists.mp matched
      refine ⟨m, found, ?_⟩
      obtain ⟨opening, more, opened, shape, starts⟩ := trapCallRe_prefix found
      rcases opening_head (c := 'c') opened starts with ⟨rfl, -⟩ | ⟨-, different⟩
      · exact shape
      · exact absurd different (by decide)
  | true =>
      rw [if_pos rfl, word, List.append_assoc, List.append_assoc, List.singleton_append]
      have matched := @Pattern.isSome_matchAt trapCallRe past
        ("tail".toList ++ ' ' :: (trapText ++ rest)) _ ⟨_, tail past _, call _⟩
        (by simp only [List.length_append, List.length_cons]; omega)
      obtain ⟨m, found⟩ := Option.isSome_iff_exists.mp matched
      refine ⟨m, found, ?_⟩
      obtain ⟨opening, more, opened, shape, starts⟩ := trapCallRe_prefix found
      rcases opened with rfl | ⟨blanks, rfl, white⟩
      · exact absurd (List.cons.inj starts).1 (by decide)
      · rw [List.append_assoc, List.append_assoc, List.append_cancel_left_eq] at starts
        have blank : blanks = [' '] := by
          have black : headIs isSpace (trapText ++ more) = false := rfl
          have read := congrArg (List.takeWhile isSpace) starts
          rw [takeWhile_append_stops black, List.takeWhile_eq_self_iff.mpr white] at read
          exact read.symm
        rw [shape, blank, List.append_assoc]

/-- A line, and what becomes of it when traps throw. -/
inductive Thrown (cookie : Int) : Text → Text → Prop
  | calm {line : Text} : Calm line → Thrown cookie line line
  | trap (line : TrapLine) :
      Thrown cookie line.print (BodyLine.throw line cookie).print

theorem scan_thrown {cookie : Int} {line thrown : Text} (becomes : Thrown cookie line thrown)
    {past rest : Text} (stops : headIs (· != '\n') rest = false) :
    (trapCallRe.scan past (line ++ rest) 0).flatMap (Piece.render fun _ => throwCall cookie) =
      thrown ++ (trapCallRe.scan (line.reverse ++ past) rest 0).flatMap
        (Piece.render fun _ => throwCall cookie) := by
  cases becomes with
  | calm calm => rw [scan_calm calm stops, List.flatMap_append, Pattern.flatMap_render_plain]
  | trap line =>
      obtain ⟨m, found, shape⟩ := matchAt_trap line ("  ".toList.reverse ++ past)
        (line.suffix.val ++ rest)
      have filled : m.text ≠ [] := by
        rw [shape]
        exact List.append_ne_nil_of_right_ne_nil _ (by decide)
      have parts : line.print ++ rest = "  ".toList ++ (m.text ++ (line.suffix.val ++ rest)) := by
        unfold TrapLine.print
        rw [shape]
        simp only [List.append_assoc]
      have blanks : trapCallRe.scan past ("  ".toList ++ (m.text ++ (line.suffix.val ++ rest))) 0 =
          "  ".toList.map .plain ++ trapCallRe.scan ("  ".toList.reverse ++ past)
            (m.text ++ (line.suffix.val ++ rest)) 0 := by
        apply Pattern.scan_plain
        intro start c stop split
        have blank : c ∈ "  ".toList := by
          rw [split]
          exact List.mem_append_right _ List.mem_cons_self
        apply matchAt_other
        rcases List.mem_cons.mp blank with rfl | last
        · decide
        · rw [List.mem_singleton.mp last]
          decide
      rw [← shape] at found
      have behind : ((("  ".toList ++ m.text) ++ line.suffix.val).reverse ++ past) =
          line.suffix.val.reverse ++ (m.text.reverse ++ ("  ".toList.reverse ++ past)) := by
        simp only [List.reverse_append, List.append_assoc]
      have whole : line.print = ("  ".toList ++ m.text) ++ line.suffix.val := by
        unfold TrapLine.print
        rw [shape]
        simp only [List.append_assoc]
      rw [parts, blanks, List.flatMap_append, Pattern.flatMap_render_plain,
        Pattern.scan_hit filled found, List.flatMap_cons, scan_calm line.calm stops,
        List.flatMap_append, Pattern.flatMap_render_plain, whole, behind]
      simp only [BodyLine.print, Piece.render, List.append_assoc]

theorem sub_thrown {cookie : Int} {lines thrown : List Text}
    (become : List.Forall₂ (Thrown cookie) lines thrown) :
    trapCallRe.sub (fun _ => throwCall cookie) (joinLines lines) = joinLines thrown := by
  have general : ∀ past, (trapCallRe.scan past (joinLines lines) 0).flatMap
      (Piece.render fun _ => throwCall cookie) = joinLines thrown := by
    induction become with
    | nil => exact fun past => rfl
    | @cons line other lines others here later inductionHypothesis =>
        intro past
        rw [Pattern.joinLines_cons, Pattern.joinLines_cons]
        cases later with
        | nil =>
            rw [show Pattern.tailOf [] = [] from rfl, scan_thrown here rfl]
            rfl
        | @cons next nextOther lines others following rest =>
            have newline : trapCallRe.scan (line.reverse ++ past)
                ('\n' :: joinLines (next :: lines)) 0 = .plain '\n' ::
                  trapCallRe.scan ('\n' :: (line.reverse ++ past)) (joinLines (next :: lines)) 0 := by
              rw [Pattern.scan, matchAt_other (by decide)]
            rw [show Pattern.tailOf (next :: lines) = '\n' :: joinLines (next :: lines) from rfl,
              scan_thrown here rfl, newline, List.flatMap_cons, inductionHypothesis]
            rfl
  exact general []

end LibarenaRs.Linker

namespace LibarenaRs.Linker.BlockModule

open LibarenaRs.Regex LibarenaRs.Llvm LibarenaRs.Flow

theorem trapToRet_text (cookie : Int) {m : List BlockItem} (filled : m ≠ []) :
    trapToRet cookie (text keeping m) = text (returning cookie) m := by
  rw [trapToRet, splitLines_text keeping filled]
  exact congrArg joinLines (trapLines_module cookie none m)

theorem zeroReturns_text (pass : Pass) {m : List BlockItem} (filled : m ≠ []) :
    zeroReturns (text pass m) = text (closingWith pass) m := by
  rw [zeroReturns, splitLines_text pass filled]
  exact congrArg joinLines (zeroLines_module pass "void".toList m)

/-- The lines of code that nothing was inserted into yet. -/
theorem source_line {code : Code llvm} (source : Source code) {line : BodyLine}
    (member : line ∈ codeLines code) (cookie : Int) :
    Thrown cookie line.print (line.throwing cookie).print := by
  have plain : ∀ line : PlainLine, Thrown cookie line.val line.val := fun line =>
    .calm line.property.2.1
  rcases List.mem_append.mp member with inBody | atExit
  · obtain ⟨instr, among, rfl⟩ := List.mem_map.mp inBody
    cases instr with
    | op line => exact plain line
    | call callee line => exact plain line
    | trap trap => exact .trap trap
    | throw trap value => exact absurd among (source.instrs trap value)
  · cases exit : code.exit with
    | ret operand =>
        rw [exit] at atExit
        obtain ⟨written, rfl⟩ := source.exit operand exit
        rw [List.mem_singleton.mp atExit]
        exact plain written
    | jump jump =>
        rw [exit] at atExit
        obtain ⟨target, -, rfl⟩ := List.mem_map.mp atExit
        exact plain target
    | unreachable stop =>
        rw [exit] at atExit
        rw [List.mem_singleton.mp atExit]
        exact .calm stop.calm

theorem lines_throwing (cookie : Int) (function : BlockFunction) :
    function.lines (throwing cookie) =
      (function.lines keeping).map (BodyLine.throwing cookie) := by
  have kept : Routine.map (keeping function.header) function.blocks = function.blocks :=
    List.map_id' function.blocks
  rw [BlockFunction.lines, BlockFunction.lines, kept]
  exact routineLines_map _ _ (fun _ => rfl) (codeLines_throwing cookie) function.blocks

/-- The substitution runs the pass over the functions. -/
theorem thrown_module (cookie : Int) (m : List BlockItem) :
    List.Forall₂ (Thrown cookie) (module keeping m).lines (module (throwing cookie) m).lines := by
  have same : ∀ {lines : List Text}, (∀ line ∈ lines, Calm line) →
      List.Forall₂ (Thrown cookie) lines lines := fun calm =>
    List.forall₂_same.mpr fun line member => .calm (calm line member)
  induction m with
  | nil => exact .nil
  | cons item m inductionHypothesis =>
      rw [lines_cons, lines_cons]
      refine List.rel_append ?_ inductionHypothesis
      cases item with
      | other other => exact same fun line member => (other.quiet line member).1
      | function function =>
          rw [lines_function, lines_function]
          refine .cons (.calm function.calm) (List.rel_append ?_ (same ?_))
          · rw [lines_throwing, List.map_map, List.forall₂_map_left_iff,
              List.forall₂_map_right_iff, List.forall₂_same]
            intro line member
            have kept : Routine.map (keeping function.header) function.blocks =
                function.blocks := List.map_id' function.blocks
            rw [BlockFunction.lines, kept, routineLines, List.mem_flatMap] at member
            obtain ⟨block, among, inBlock⟩ := member
            rcases List.mem_append.mp inBlock with inLabel | inCode
            · obtain ⟨label, -, rfl⟩ := List.mem_map.mp inLabel
              exact .calm label.property.2.1
            · exact source_line (function.source block among) inCode cookie
          · intro line member
            rw [List.mem_singleton.mp member]
            decide

theorem trapsThrown_text (cookie : Int) (m : List BlockItem) :
    trapCallRe.sub (fun _ => throwCall cookie) (text keeping m) = text (throwing cookie) m :=
  sub_thrown (thrown_module cookie m)

end LibarenaRs.Linker.BlockModule
