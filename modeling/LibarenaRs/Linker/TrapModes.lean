import LibarenaRs.Linker.TrapText
import Mathlib.Algebra.Ring.Int.Defs

/-!
# The two trap modes

A module traps through `bpf_throw`, or through a return from the entry.  Whatever its
lines mean, both texts run as the module did with a trap that ends the program by the
cookie.
-/

namespace LibarenaRs.Linker

open LibarenaRs.Regex LibarenaRs.Llvm LibarenaRs.Flow

/-- What the lines of a module mean to whoever runs it. -/
structure Reading (Frame Memory : Type) where
  effect : PlainLine → Frame → Memory → Frame × Memory
  enter : PlainLine → Frame → Memory → Frame
  leave : PlainLine → Int → Frame → Frame
  target : { lines : List PlainLine // lines ≠ [] } → Frame → List PlainLine
  value : PlainLine → Frame → Int

variable {Frame Memory : Type}

/-- The constants that the passes print are read by their types. -/
def Reading.returned (reading : Reading Frame Memory) : Returned → Frame → Int
  | .written line, frame => reading.value line frame
  | .cookie (.int bits) cookie, _ => cookie % 2 ^ bits
  | .cookie _ _, _ => 0
  | .zero _ _, _ => 0

def Reading.meaning (reading : Reading Frame Memory) (trapped : Option Int) :
    Meaning llvm Frame Memory where
  effect := reading.effect
  enter := reading.enter
  leave := reading.leave
  target := reading.target
  value := reading.returned
  trapped := trapped

/-- The cookie is a constant of the type that the entry returns. -/
structure Representable (cookie : Int) (bits : Nat) : Prop where
  nonneg : 0 ≤ cookie
  fits : cookie < 2 ^ bits
  register : bits ≤ 64

namespace BlockModule

/-- Only the entry traps, and there in front of `unreachable`: what is left when all Rust
code was inlined into it. -/
structure Inlined (m : List BlockItem) (entry : BlockFunction) : Prop where
  paired : ∀ block ∈ entry.blocks, block.code.Paired
  calls : ∀ function ∈ functions m, ∀ block ∈ function.blocks,
    block.code.CallsFree (program keeping m)

theorem program_eq {pass : Pass} {m : List BlockItem} {name : Text} {function : BlockFunction}
    (found : (functions m).find? (fun function => function.header.name = name) = some function) :
    program pass m name = some (Routine.map (pass function.header) function.blocks) :=
  congrArg (Option.map _) found

theorem program_inv {pass : Pass} {m : List BlockItem} {name : Text} {routine : Routine llvm}
    (known : program pass m name = some routine) :
    ∃ function ∈ functions m,
      (functions m).find? (fun function => function.header.name = name) = some function ∧
        routine = Routine.map (pass function.header) function.blocks := by
  obtain ⟨function, found, same⟩ := Option.map_eq_some_iff.mp known
  exact ⟨function, List.mem_of_find?_eq_some found, found, same.symm⟩

theorem map_keeping (header : Header) (routine : Routine llvm) :
    Routine.map (keeping header) routine = routine :=
  List.map_id' routine

theorem program_throwing (cookie : Int) (m : List BlockItem) (name : Text) :
    program (throwing cookie) m name =
      (program keeping m name).map (Routine.map (Code.throwing cookie)) := by
  rw [program, program, Option.map_map]
  congr 1
  funext function
  rw [Function.comp_apply, map_keeping]
  rfl

theorem program_closing {pass : Pass} {m : List BlockItem} {name : Text}
    {routine : Routine llvm} (known : program pass m name = some routine) :
    ∃ operand, program (closingWith pass) m name =
      some (Routine.map (Code.closing operand) routine) := by
  obtain ⟨function, -, found, rfl⟩ := program_inv known
  refine ⟨.zero function.header.returns, ?_⟩
  rw [program_eq found, Routine.map, Routine.map, Routine.map, List.map_map]
  rfl

/-- What never traps is not touched. -/
theorem program_returning {m : List BlockItem} {name : Text} {routine : Routine llvm}
    (cookie : Int) (known : program keeping m name = some routine)
    (free : Routine.Free routine) : program (returning cookie) m name = some routine := by
  obtain ⟨function, -, found, rfl⟩ := program_inv known
  rw [map_keeping] at free ⊢
  rw [program_eq found]
  apply congrArg some
  cases value : cookieReturn cookie function.header.returns with
  | none =>
      have kept : returning cookie function.header = id := by
        funext code
        rw [returning, value]
        rfl
      rw [kept]
      exact List.map_id function.blocks
  | some line =>
      have changed : returning cookie function.header =
          Code.returning (Returned.cookie function.header.returns cookie) := by
        funext code
        rw [returning, value]
      rw [changed]
      exact free.returning _

theorem closing_seen (meaning : Meaning llvm Frame Memory) (pass : Pass) (m : List BlockItem)
    (fuel : Nat) (name : Text) (frame : Frame) (memory : Memory)
    (moves : (execute meaning (program pass m) fuel name frame memory).seen ≠ none) :
    (execute meaning (program (closingWith pass) m) fuel name frame memory).seen =
      (execute meaning (program pass m) fuel name frame memory).seen := by
  cases known : program pass m name with
  | none =>
      exact absurd (@execute_unknown llvm _ _ _ _ _ _ known _ _ _) moves
  | some routine =>
      obtain ⟨operand, became⟩ := program_closing known
      apply execute_seen (fun pass => ∃ operand, pass = Code.closing operand) ⟨operand, rfl⟩ known became fuel frame memory _ moves
      intro point _ under
      exact closing_refines (fun name routine => program_closing) fuel under

theorem throwing_seen (reading : Reading Frame Memory) (cookie : Int) (m : List BlockItem)
    (fuel : Nat) (name : Text) (frame : Frame) (memory : Memory)
    (moves : (execute (reading.meaning (some cookie)) (program keeping m) fuel name frame
      memory).seen ≠ none) :
    (execute (reading.meaning none) (program (throwing cookie) m) fuel name frame memory).seen =
      (execute (reading.meaning (some cookie)) (program keeping m) fuel name frame
        memory).seen := by
  cases known : program keeping m name with
  | none =>
      exact absurd (@execute_unknown llvm _ _ _ _ _ _ known _ _ _) moves
  | some routine =>
      have became : program (throwing cookie) m name =
          some (Routine.map (Code.throwing cookie) routine) := by
        rw [program_throwing, known]
        rfl
      apply execute_seen (· = Code.throwing cookie) rfl known became fuel frame
        memory _ moves
      intro point _ under
      have aborts : (reading.meaning (some cookie)).trapped = some cookie := rfl
      exact throwing_refines aborts (program_throwing cookie m) none fuel under

theorem returning_seen (reading : Reading Frame Memory) {cookie : Int} {bits : Nat}
    (representable : Representable cookie bits) {m : List BlockItem} {name : Text}
    {entry : BlockFunction}
    (found : (functions m).find? (fun function => function.header.name = name) = some entry)
    (returns : entry.header.returns = .int bits) (inlined : Inlined m entry)
    (fuel : Nat) (frame : Frame) (memory : Memory)
    (moves : (execute (reading.meaning (some cookie)) (program keeping m) fuel name frame
      memory).seen ≠ none) :
    (execute (reading.meaning none) (program (returning cookie) m) fuel name frame memory).seen =
      (execute (reading.meaning (some cookie)) (program keeping m) fuel name frame
        memory).seen := by
  have changed : returning cookie entry.header =
      Code.returning (Returned.cookie (.int bits) cookie) := by
    funext code
    rw [returning, returns]
    rfl
  have known : program keeping m name = some entry.blocks := by
    rw [program_eq found, map_keeping]
  have became : program (returning cookie) m name =
      some (Routine.map (Code.returning (Returned.cookie (.int bits) cookie)) entry.blocks) := by
    rw [program_eq found, changed]
  have calls : ∀ name routine, program keeping m name = some routine →
      ∀ block ∈ routine, block.code.CallsFree (program keeping m) := by
    intro other routine known
    obtain ⟨function, member, -, rfl⟩ := program_inv known
    rw [map_keeping]
    exact inlined.calls function member
  apply execute_seen (· = Code.returning (Returned.cookie (.int bits) cookie)) rfl known
    became fuel frame memory _ moves
  intro point entered under
  obtain ⟨block, first, rfl⟩ := Option.map_eq_some_iff.mp entered
  have entryCalls := calls name entry.blocks known
  have inside : block ∈ entry.blocks := List.mem_of_mem_head? first
  have steady : Steady (program keeping m)
      (⟨⟨entry.blocks, block.code, frame⟩, [], memory⟩ : State llvm Frame Memory) := by
    constructor
    · exact ⟨⟨entryCalls block inside, inlined.paired block inside⟩,
        fun other member => ⟨entryCalls other member, inlined.paired other member⟩⟩
    · intro caller waiting
      cases waiting
    · trivial
  have aborts : (reading.meaning (some cookie)).trapped = some cookie := rfl
  have value : ∀ frame, (reading.meaning (some cookie)).value
      (Returned.cookie (.int bits) cookie) frame = cookie := fun frame =>
    Int.emod_eq_of_lt representable.nonneg representable.fits
  exact returning_refines aborts value calls (fun name routine => program_returning cookie) none
    fuel under steady

/-- Both trap modes write modules that run as the source does, whose traps end the program
by the cookie. -/
theorem trap_modes_agree (reading : Reading Frame Memory) {cookie : Int} {bits : Nat}
    (representable : Representable cookie bits) {m : List BlockItem} {name : Text}
    {entry : BlockFunction}
    (found : (functions m).find? (fun function => function.header.name = name) = some entry)
    (returns : entry.header.returns = .int bits) (inlined : Inlined m entry) :
    zeroReturns (trapToRet cookie (text keeping m)) = text (closingWith (returning cookie)) m ∧
    zeroReturns (trapCallRe.sub (fun _ => throwCall cookie) (text keeping m)) =
      text (closingWith (throwing cookie)) m ∧
    ∀ fuel frame memory,
      (execute (reading.meaning (some cookie)) (program keeping m) fuel name frame
        memory).seen ≠ none →
      (execute (reading.meaning none) (program (closingWith (returning cookie)) m) fuel name
          frame memory).seen =
        (execute (reading.meaning (some cookie)) (program keeping m) fuel name frame
          memory).seen ∧
      (execute (reading.meaning none) (program (closingWith (throwing cookie)) m) fuel name
          frame memory).seen =
        (execute (reading.meaning (some cookie)) (program keeping m) fuel name frame
          memory).seen := by
  have filled : m ≠ [] := by
    rintro rfl
    cases found
  refine ⟨?_, ?_, ?_⟩
  · rw [trapToRet_text cookie filled]
    exact zeroReturns_text (returning cookie) filled
  · rw [trapsThrown_text cookie m]
    exact zeroReturns_text (throwing cookie) filled
  · intro fuel frame memory moves
    have returned := returning_seen reading representable found returns inlined fuel frame memory
      moves
    have thrown := throwing_seen reading cookie m fuel name frame memory moves
    constructor
    · rw [closing_seen _ (returning cookie) m fuel name frame memory (returned ▸ moves), returned]
    · rw [closing_seen _ (throwing cookie) m fuel name frame memory (thrown ▸ moves), thrown]

/-! ### A panicking program -/

/-- `define noundef i64 @entry() {` -/
def panicHeader : Header where
  linkage := .external
  qualifiers := [⟨"noundef".toList, by decide⟩]
  returns := .int 64
  name := "entry".toList
  named := by decide
  parameters := .empty
  attributes := .empty
  sectionName := none
  trailer := .brace

/-- `store i32 1, ptr @state` -/
def panicStore : PlainLine :=
  ⟨"  store i32 1, ptr @state".toList, by decide, by decide, by decide⟩

def panicTrap : TrapLine := ⟨true, .empty, by decide⟩

def panicStop : StopLine := ⟨.empty, by decide, by decide⟩

def panicBlock : Block llvm := ⟨[], ⟨[.op panicStore, .trap panicTrap], .unreachable panicStop⟩⟩

theorem panicBlock_source : ∀ block ∈ [panicBlock], Source block.code := by
  intro block member
  obtain rfl := List.mem_singleton.mp member
  constructor
  · intro trap value thrown
    cases thrown with
    | tail _ later =>
        cases later with
        | tail _ none => cases none
  · intro operand returns
    cases returns

def panicFunction : BlockFunction where
  header := panicHeader
  readable := by decide
  calm := by decide
  blocks := [panicBlock]
  source := panicBlock_source

/-- The memory counts the stores. -/
def countStores : Reading Unit Nat where
  effect := fun _ _ stores => ((), stores + 1)
  enter := fun _ _ _ => ()
  leave := fun _ _ _ => ()
  target := fun jump _ => jump.val
  value := fun _ _ => 0

theorem panicFunction_inlined : Inlined [.function panicFunction] panicFunction := by
  constructor
  · intro block member before trap after split
    obtain rfl := List.mem_singleton.mp member
    match before, split with
    | [_], same =>
        obtain rfl : [] = after := (List.cons.inj (List.cons.inj same).2).2
        exact ⟨rfl, panicStop, rfl⟩
    | _ :: _ :: before, same =>
        exact absurd (List.cons.inj (List.cons.inj same).2).2 (by simp)
  · intro function among block member callee op called
    obtain rfl := List.mem_singleton.mp among
    obtain rfl := List.mem_singleton.mp member
    cases called with
    | tail _ later =>
        cases later with
        | tail _ none => cases none

theorem trap_modes_agree_panic :
    (execute (countStores.meaning none)
      (program (closingWith (returning 0xC0DED)) [.function panicFunction]) 2 "entry".toList ()
      0).seen = some (some 0xC0DED, 1) ∧
    (execute (countStores.meaning none)
      (program (closingWith (throwing 0xC0DED)) [.function panicFunction]) 2 "entry".toList ()
      0).seen = some (some 0xC0DED, 1) :=
  have representable : Representable 0xC0DED 64 := ⟨by decide, by decide, by decide⟩
  (trap_modes_agree countStores representable (by rfl) (by rfl) panicFunction_inlined).2.2 2 () 0
    (by decide)

end BlockModule

end LibarenaRs.Linker
