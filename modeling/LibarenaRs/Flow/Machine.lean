import Mathlib.Data.List.Forall2

/-!
# A machine for blocks, calls and abnormal ends

A routine is a list of labelled blocks.  What its instructions do to the frame of
the running routine and to the memory is left open; the machine only knows calls,
jumps, returns, traps, and what ends the whole program.
-/

namespace LibarenaRs.Flow

/-- What programs are written with. -/
structure Alphabet where
  Op : Type
  Trap : Type
  Stop : Type
  Jump : Type
  Operand : Type
  Label : Type
  Name : Type
  Value : Type

inductive Instr (A : Alphabet) where
  | op (op : A.Op)
  | call (callee : A.Name) (op : A.Op)
  | trap (trap : A.Trap)
  /-- Ends the program with this value, whichever routine runs. -/
  | throw (trap : A.Trap) (value : A.Value)

inductive Exit (A : Alphabet) where
  | ret (operand : A.Operand)
  | jump (jump : A.Jump)
  | unreachable (stop : A.Stop)

/-- A block from some instruction on. -/
structure Code (A : Alphabet) where
  body : List (Instr A)
  exit : Exit A

structure Block (A : Alphabet) where
  label : A.Label
  code : Code A

/-- The first block is the entry. -/
abbrev Routine (A : Alphabet) := List (Block A)

abbrev Program (A : Alphabet) := A.Name → Option (Routine A)

/-- What the instructions mean. -/
structure Meaning (A : Alphabet) (Frame Memory : Type) where
  effect : A.Op → Frame → Memory → Frame × Memory
  /-- The frame of the callee. -/
  enter : A.Op → Frame → Memory → Frame
  /-- The caller's frame with the result bound. -/
  leave : A.Op → A.Value → Frame → Frame
  target : A.Jump → Frame → A.Label
  value : A.Operand → Frame → A.Value
  /-- What a trap ends the program with, if it may run. -/
  trapped : Option A.Value

variable {A : Alphabet} {Frame Memory : Type}

/-- Where a routine stands. -/
structure Point (A : Alphabet) (Frame : Type) where
  routine : Routine A
  code : Code A
  frame : Frame

structure State (A : Alphabet) (Frame Memory : Type) where
  point : Point A Frame
  /-- The suspended routines, the latest first, with the calls they wait in. -/
  callers : List (A.Op × Point A Frame)
  memory : Memory

inductive Outcome (A : Alphabet) (Frame Memory : Type) where
  | next (state : State A Frame Memory)
  | halted (value : A.Value) (memory : Memory)
  | stuck

def begins (routine : Routine A) (frame : Frame) : Option (Point A Frame) :=
  routine.head?.map fun block => ⟨routine, block.code, frame⟩

def jumps [DecidableEq A.Label] (routine : Routine A) (label : A.Label) (frame : Frame) :
    Option (Point A Frame) :=
  (routine.find? fun block => block.label = label).map fun block => ⟨routine, block.code, frame⟩

section Machine

variable [DecidableEq A.Label] (meaning : Meaning A Frame Memory) (program : Program A)

def leaves (value : A.Value) (memory : Memory) :
    List (A.Op × Point A Frame) → Outcome A Frame Memory
  | [] => .halted value memory
  | (op, point) :: callers =>
      .next ⟨{ point with frame := meaning.leave op value point.frame }, callers, memory⟩

def step (state : State A Frame Memory) : Outcome A Frame Memory :=
  match state.point.code with
  | ⟨.op op :: body, exit⟩ =>
      let (frame, memory) := meaning.effect op state.point.frame state.memory
      .next ⟨⟨state.point.routine, ⟨body, exit⟩, frame⟩, state.callers, memory⟩
  | ⟨.call callee op :: body, exit⟩ =>
      match (program callee).bind (begins · (meaning.enter op state.point.frame state.memory)) with
      | none => .stuck
      | some point =>
          .next ⟨point, (op, { state.point with code := ⟨body, exit⟩ }) :: state.callers,
            state.memory⟩
  | ⟨.trap _ :: _, _⟩ =>
      match meaning.trapped with
      | none => .stuck
      | some value => .halted value state.memory
  | ⟨.throw _ value :: _, _⟩ => .halted value state.memory
  | ⟨[], .ret operand⟩ =>
      leaves meaning (meaning.value operand state.point.frame) state.memory state.callers
  | ⟨[], .jump jump⟩ =>
      match jumps state.point.routine (meaning.target jump state.point.frame)
          state.point.frame with
      | none => .stuck
      | some point => .next { state with point := point }
  | ⟨[], .unreachable _⟩ => .stuck

def run : Nat → State A Frame Memory → Outcome A Frame Memory
  | 0, state => .next state
  | fuel + 1, state =>
      match step meaning program state with
      | .next state => run fuel state
      | ended => ended

/-- The program started at one of its routines. -/
def execute (fuel : Nat) (name : A.Name) (frame : Frame) (memory : Memory) :
    Outcome A Frame Memory :=
  match (program name).bind (begins · frame) with
  | none => .stuck
  | some point => run meaning program fuel ⟨point, [], memory⟩

end Machine

/-! ## Refinement -/

/-- The second machine does what the first one does, up to where it is stuck. -/
def Outcome.Refines (related : State A Frame Memory → State A Frame Memory → Prop) :
    Outcome A Frame Memory → Outcome A Frame Memory → Prop
  | .next state, outcome => ∃ other, outcome = .next other ∧ related state other
  | .halted value memory, outcome => outcome = .halted value memory
  | .stuck, _ => True

theorem Outcome.Refines.mono {first second : State A Frame Memory → State A Frame Memory → Prop}
    {outcome other : Outcome A Frame Memory} (refines : outcome.Refines first other)
    (weaker : ∀ state, outcome = .next state → ∀ other, first state other → second state other) :
    outcome.Refines second other := by
  cases outcome with
  | next state =>
      obtain ⟨reached, same, related⟩ := refines
      exact ⟨reached, same, weaker state rfl reached related⟩
  | halted value memory => exact refines
  | stuck => trivial

/-- Nothing of a run that is stuck; else the memory, and the value it has ended with if it
has ended. -/
def Outcome.seen : Outcome A Frame Memory → Option (Option A.Value × Memory)
  | .next state => some (none, state.memory)
  | .halted value memory => some (some value, memory)
  | .stuck => none

theorem Outcome.Refines.seen {related : State A Frame Memory → State A Frame Memory → Prop}
    {outcome other : Outcome A Frame Memory} (refines : outcome.Refines related other)
    (sameMemory : ∀ state other, related state other → other.memory = state.memory)
    (moves : outcome.seen ≠ none) : other.seen = outcome.seen := by
  cases outcome with
  | next state =>
      obtain ⟨reached, rfl, still⟩ := refines
      rw [Outcome.seen, Outcome.seen, sameMemory state reached still]
  | halted value memory =>
      rw [show other = .halted value memory from refines]
  | stuck => exact absurd rfl moves

section Runs

variable [DecidableEq A.Label] {meaning meaning' : Meaning A Frame Memory}
  {program program' : Program A}

theorem run_refines {related : State A Frame Memory → State A Frame Memory → Prop}
    (simulates : ∀ state other, related state other →
      (step meaning program state).Refines related (step meaning' program' other))
    (fuel : Nat) {state other : State A Frame Memory} (start : related state other) :
    (run meaning program fuel state).Refines related (run meaning' program' fuel other) := by
  induction fuel generalizing state other with
  | zero => exact ⟨other, rfl, start⟩
  | succ fuel inductionHypothesis =>
      have stepped := simulates state other start
      rw [run, run]
      cases moved : step meaning program state with
      | next reached =>
          rw [moved] at stepped
          obtain ⟨reachedOther, same, still⟩ := stepped
          rw [same]
          exact inductionHypothesis still
      | halted value memory =>
          rw [moved] at stepped
          rw [show step meaning' program' other = .halted value memory from stepped]
          rfl
      | stuck => trivial

/-- What a step can do, other than end the program. -/
theorem step_eq_next {state next : State A Frame Memory}
    (moved : step meaning program state = .next next) :
    (∃ op body exit frame memory, state.point.code = ⟨.op op :: body, exit⟩ ∧
      next = ⟨⟨state.point.routine, ⟨body, exit⟩, frame⟩, state.callers, memory⟩) ∨
    (∃ callee op body exit routine block frame,
      state.point.code = ⟨.call callee op :: body, exit⟩ ∧ program callee = some routine ∧
      block ∈ routine ∧
      next = ⟨⟨routine, block.code, frame⟩,
        (op, { state.point with code := ⟨body, exit⟩ }) :: state.callers, state.memory⟩) ∨
    (∃ op point callers frame, state.callers = (op, point) :: callers ∧
      next = ⟨{ point with frame := frame }, callers, state.memory⟩) ∨
    ∃ block ∈ state.point.routine, ∃ frame,
      next = { state with point := ⟨state.point.routine, block.code, frame⟩ } := by
  obtain ⟨⟨routine, ⟨body, exit⟩, frame⟩, callers, memory⟩ := state
  cases body with
  | nil =>
      cases exit with
      | ret operand =>
          cases callers with
          | nil => cases moved
          | cons caller callers =>
              cases moved
              exact Or.inr (Or.inr (Or.inl ⟨_, _, callers, _, rfl, rfl⟩))
      | jump jump =>
          simp only [step] at moved
          cases found : routine.find? fun block => block.label = meaning.target jump frame with
          | none =>
              rw [jumps, found] at moved
              cases moved
          | some block =>
              rw [jumps, found] at moved
              cases moved
              exact Or.inr (Or.inr (Or.inr ⟨block, List.mem_of_find?_eq_some found, frame, rfl⟩))
      | unreachable stop => cases moved
  | cons instr body =>
      cases instr with
      | op op =>
          cases moved
          exact Or.inl ⟨op, body, exit, _, _, rfl, rfl⟩
      | call callee op =>
          simp only [step] at moved
          cases known : program callee with
          | none =>
              rw [known] at moved
              cases moved
          | some entered =>
              rw [known] at moved
              cases entered with
              | nil => cases moved
              | cons block blocks =>
                  cases moved
                  exact Or.inr (Or.inl ⟨callee, op, body, exit, block :: blocks, block, _, rfl,
                    known, List.mem_cons_self, rfl⟩)
      | trap trap =>
          simp only [step] at moved
          cases trapped : meaning.trapped with
          | none =>
              rw [trapped] at moved
              cases moved
          | some value =>
              rw [trapped] at moved
              cases moved
      | throw trap value => cases moved

end Runs

/-! ## Passes over code -/

def Code.cons (instr : Instr A) (code : Code A) : Code A := ⟨instr :: code.body, code.exit⟩

def Routine.map (pass : Code A → Code A) (routine : Routine A) : Routine A :=
  List.map (fun block => { block with code := pass block.code }) routine

def Point.map (pass : Code A → Code A) (point : Point A Frame) : Point A Frame :=
  ⟨Routine.map pass point.routine, pass point.code, point.frame⟩

/-- The point of the same routine behind one of these passes. -/
def Point.Under (passes : (Code A → Code A) → Prop) (point other : Point A Frame) : Prop :=
  ∃ pass, passes pass ∧ other = point.map pass

/-- The same state, each routine behind one of these passes. -/
structure State.Under (passes : (Code A → Code A) → Prop) (state other : State A Frame Memory) :
    Prop where
  point : state.point.Under passes other.point
  callers : List.Forall₂ (fun caller other => other.1 = caller.1 ∧ caller.2.Under passes other.2)
    state.callers other.callers
  memory : other.memory = state.memory

/-- The pass changes only what ends a routine other than by a return or a jump. -/
structure Local (pass : Code A → Code A) : Prop where
  op : ∀ op body exit, pass ⟨.op op :: body, exit⟩ = (pass ⟨body, exit⟩).cons (.op op)
  call : ∀ callee op body exit,
    pass ⟨.call callee op :: body, exit⟩ = (pass ⟨body, exit⟩).cons (.call callee op)
  ret : ∀ operand, pass ⟨[], .ret operand⟩ = ⟨[], .ret operand⟩
  jump : ∀ jump, pass ⟨[], .jump jump⟩ = ⟨[], .jump jump⟩

theorem begins_map (pass : Code A → Code A) (routine : Routine A) (frame : Frame) :
    begins (Routine.map pass routine) frame = (begins routine frame).map (Point.map pass) := by
  cases routine <;> rfl

theorem jumps_map [DecidableEq A.Label] (pass : Code A → Code A) (routine : Routine A) (label : A.Label)
    (frame : Frame) :
    jumps (Routine.map pass routine) label frame =
      (jumps routine label frame).map (Point.map pass) := by
  have found : (Routine.map pass routine).find? (fun block => block.label = label) =
      (routine.find? fun block => block.label = label).map fun block =>
        { block with code := pass block.code } := by
    rw [Routine.map, List.find?_map]
    rfl
  rw [jumps, jumps, found, Option.map_map, Option.map_map]
  rfl

/-- What ends a routine here, or the program. -/
def Code.Ends (code : Code A) : Prop :=
  (∃ trap body, code.body = .trap trap :: body) ∨
    (∃ trap value body, code.body = .throw trap value :: body) ∨
    ∃ stop, code = ⟨[], .unreachable stop⟩

/-- The same meaning, up to that of a trap. -/
def Meaning.withTrapped (meaning : Meaning A Frame Memory) (trapped : Option A.Value) :
    Meaning A Frame Memory :=
  { meaning with trapped := trapped }

variable [DecidableEq A.Label] {meaning : Meaning A Frame Memory} {program program' : Program A}

/-- Away from the ends local passes move along with the program. -/
theorem State.Under.step_refines {passes : (Code A → Code A) → Prop}
    (unchanged : ∀ pass, passes pass → Local pass) {trapped : Option A.Value}
    {state other : State A Frame Memory} (under : state.Under passes other)
    (ends : state.point.code.Ends →
      (step meaning program state).Refines (State.Under passes)
        (step (meaning.withTrapped trapped) program' other))
    (called : ∀ callee op body, state.point.code.body = .call callee op :: body →
      ∀ routine, program callee = some routine →
        ∃ pass, passes pass ∧ program' callee = some (Routine.map pass routine)) :
    (step meaning program state).Refines (State.Under passes)
      (step (meaning.withTrapped trapped) program' other) := by
  obtain ⟨⟨routine, ⟨body, exit⟩, frame⟩, callers, memory⟩ := state
  obtain ⟨otherPoint, otherCallers, otherMemory⟩ := other
  obtain ⟨⟨pass, among, samePoint⟩, waiting, sameMemory⟩ := under
  obtain rfl : otherPoint = ⟨Routine.map pass routine, pass ⟨body, exit⟩, frame⟩ := samePoint
  obtain rfl : otherMemory = memory := sameMemory
  have local_ := unchanged pass among
  cases body with
  | nil =>
      cases exit with
      | ret operand =>
          simp only [step, local_.ret]
          cases waiting with
          | nil => exact rfl
          | @cons caller otherCaller callers otherCallers resumes later =>
              obtain ⟨sameOp, callerPass, callerAmong, samePoint⟩ := resumes
              obtain ⟨op, point⟩ := otherCaller
              obtain rfl : op = caller.1 := sameOp
              obtain rfl : point = caller.2.map callerPass := samePoint
              exact ⟨_, rfl, ⟨callerPass, callerAmong, rfl⟩, later, rfl⟩
      | jump jump =>
          simp only [step, local_.jump]
          cases found : jumps routine (meaning.target jump frame) frame with
          | none => trivial
          | some point =>
              have mapped : jumps (Routine.map pass routine)
                  ((meaning.withTrapped trapped).target jump frame) frame =
                  some (point.map pass) := by
                rw [jumps_map]
                exact congrArg (Option.map _) found
              rw [mapped]
              exact ⟨_, rfl, ⟨pass, among, rfl⟩, waiting, rfl⟩
      | unreachable stop => exact ends (Or.inr (Or.inr ⟨stop, rfl⟩))
  | cons instr body =>
      cases instr with
      | op op =>
          simp only [step, local_.op, Code.cons]
          exact ⟨_, rfl, ⟨pass, among, rfl⟩, waiting, rfl⟩
      | call callee op =>
          have same := called callee op body rfl
          simp only [step, local_.call, Code.cons]
          cases known : program callee with
          | none => trivial
          | some routine' =>
              obtain ⟨calleePass, calleeAmong, found⟩ := same routine' known
              rw [found]
              simp only [Option.bind_some, begins_map]
              cases entered : begins routine' (meaning.enter op frame otherMemory) with
              | none => trivial
              | some point =>
                  rw [show (meaning.withTrapped trapped).enter op frame otherMemory =
                    meaning.enter op frame otherMemory from rfl, entered]
                  exact ⟨_, rfl, ⟨calleePass, calleeAmong, rfl⟩,
                    .cons ⟨rfl, pass, among, rfl⟩ waiting, rfl⟩
      | trap trap => exact ends (Or.inl ⟨trap, body, rfl⟩)
      | throw trap value => exact ends (Or.inr (Or.inl ⟨trap, value, body, rfl⟩))

theorem execute_unknown {name : A.Name} (unknown : program name = none) {fuel : Nat}
    {frame : Frame} {memory : Memory} :
    (execute meaning program fuel name frame memory).seen = none := by
  simp only [execute, unknown, Option.bind_none]
  rfl

/-- What the machine does behind a pass, the program does. -/
theorem execute_seen (passes : (Code A → Code A) → Prop) {meaning' : Meaning A Frame Memory}
    {pass : Code A → Code A} (among : passes pass) {name : A.Name} {routine : Routine A}
    (known : program name = some routine)
    (became : program' name = some (Routine.map pass routine))
    (fuel : Nat) (frame : Frame) (memory : Memory)
    (runs : ∀ point, begins routine frame = some point →
      (State.Under passes ⟨point, [], memory⟩ ⟨point.map pass, [], memory⟩) →
      (run meaning program fuel ⟨point, [], memory⟩).Refines (State.Under passes)
        (run meaning' program' fuel ⟨point.map pass, [], memory⟩))
    (moves : (execute meaning program fuel name frame memory).seen ≠ none) :
    (execute meaning' program' fuel name frame memory).seen =
      (execute meaning program fuel name frame memory).seen := by
  simp only [execute, known, became, Option.bind_some, begins_map] at moves ⊢
  cases entered : begins routine frame with
  | none =>
      rw [entered] at moves
      exact absurd rfl moves
  | some point =>
      rw [entered] at moves
      have refines := runs point entered ⟨⟨pass, among, rfl⟩, .nil, rfl⟩
      exact refines.seen (fun _ _ under => under.memory) moves

end LibarenaRs.Flow
