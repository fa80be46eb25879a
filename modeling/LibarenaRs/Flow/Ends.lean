import LibarenaRs.Flow.Machine

/-!
# Three ways to end a routine

A trap can be made to end the program by a value, or to end its routine by a return;
code that is never reached can be made to return.  The second one is right only where
a return from the routine ends the program, and that is where nothing calls it.
-/

namespace LibarenaRs.Flow

variable {A : Alphabet} {Frame Memory : Type}

/-! ## The passes -/

def Instr.throwing (value : A.Value) : Instr A → Instr A
  | .trap mark => .throw mark value
  | instr => instr

/-- Every trap throws. -/
def Code.throwing (value : A.Value) (code : Code A) : Code A :=
  ⟨code.body.map (Instr.throwing value), code.exit⟩

def returnsFrom (operand : A.Operand) : List (Instr A) → Exit A → Code A
  | [], exit => ⟨[], exit⟩
  | .trap trap :: body, exit =>
      match body, exit with
      | [], .unreachable _ => ⟨[], .ret operand⟩
      | body, exit => (returnsFrom operand body exit).cons (.trap trap)
  | .op op :: body, exit => (returnsFrom operand body exit).cons (.op op)
  | .call callee op :: body, exit => (returnsFrom operand body exit).cons (.call callee op)
  | .throw trap value :: body, exit => (returnsFrom operand body exit).cons (.throw trap value)

/-- A trap in front of what is unreachable returns. -/
def Code.returning (operand : A.Operand) (code : Code A) : Code A :=
  returnsFrom operand code.body code.exit

def Exit.closing (operand : A.Stop → A.Operand) : Exit A → Exit A
  | .unreachable stop => .ret (operand stop)
  | exit => exit

/-- What is unreachable returns. -/
def Code.closing (operand : A.Stop → A.Operand) (code : Code A) : Code A :=
  ⟨code.body, code.exit.closing operand⟩

theorem local_throwing (value : A.Value) : Local (Code.throwing value) where
  op := fun _ _ _ => rfl
  call := fun _ _ _ _ => rfl
  ret := fun _ => rfl
  jump := fun _ => rfl

theorem local_returning (operand : A.Operand) : Local (Code.returning operand) where
  op := fun _ _ _ => rfl
  call := fun _ _ _ _ => rfl
  ret := fun _ => rfl
  jump := fun _ => rfl

theorem local_closing (operand : A.Stop → A.Operand) : Local (Code.closing operand) where
  op := fun _ _ _ => rfl
  call := fun _ _ _ _ => rfl
  ret := fun _ => rfl
  jump := fun _ => rfl

/-! ## Code without traps -/

def Code.Free (code : Code A) : Prop := ∀ trap, .trap trap ∉ code.body

def Routine.Free (routine : Routine A) : Prop := ∀ block ∈ routine, block.code.Free

/-- Behind every trap stands nothing but `unreachable`. -/
def Code.Paired (code : Code A) : Prop :=
  ∀ before trap after, code.body = before ++ .trap trap :: after →
    after = [] ∧ ∃ stop, code.exit = .unreachable stop

/-- No routine that is called here has a trap. -/
def Code.CallsFree (program : Program A) (code : Code A) : Prop :=
  ∀ callee op, .call callee op ∈ code.body →
    ∀ routine, program callee = some routine → routine.Free

theorem Code.Free.paired {code : Code A} (free : code.Free) : code.Paired := by
  intro before trap after split
  exact absurd (split ▸ List.mem_append_right before List.mem_cons_self) (free trap)

theorem Code.Free.returning {code : Code A} (free : code.Free) (operand : A.Operand) :
    code.returning operand = code := by
  obtain ⟨body, exit⟩ := code
  rw [Code.returning]
  induction body with
  | nil => rfl
  | cons instr body inductionHypothesis =>
      have later : returnsFrom operand body exit = ⟨body, exit⟩ :=
        inductionHypothesis fun trap member => free trap (List.mem_cons_of_mem _ member)
      cases instr with
      | op op => exact congrArg (Code.cons _) later
      | call callee op => exact congrArg (Code.cons _) later
      | trap trap => exact absurd List.mem_cons_self (free trap)
      | throw trap value => exact congrArg (Code.cons _) later

theorem Routine.Free.returning {routine : Routine A} (free : Routine.Free routine)
    (operand : A.Operand) : Routine.map (Code.returning operand) routine = routine := by
  rw [Routine.map]
  refine Eq.trans (List.map_congr_left ?_) (List.map_id routine)
  intro block member
  rw [(free block member).returning operand]
  rfl

/-- What holds of the code at a point and of every block of its routine. -/
structure Point.All (holds : Code A → Prop) (point : Point A Frame) : Prop where
  code : holds point.code
  routine : ∀ block ∈ point.routine, holds block.code

/-- Every routine but the one the program was started at is free of traps. -/
def Guarded : Point A Frame → List (A.Op × Point A Frame) → Prop
  | _, [] => True
  | point, (_, caller) :: callers => point.All Code.Free ∧ Guarded caller callers

/-- What the code of a running program is like. -/
structure Steady (program : Program A) (state : State A Frame Memory) : Prop where
  point : state.point.All fun code => code.CallsFree program ∧ code.Paired
  callers : ∀ caller ∈ state.callers,
    caller.2.All fun code => code.CallsFree program ∧ code.Paired
  guarded : Guarded state.point state.callers

theorem Point.All.tail {holds : Code A → Prop} {point : Point A Frame} {instr : Instr A}
    {body : List (Instr A)} {exit : Exit A} (all : point.All holds)
    (here : point.code = ⟨instr :: body, exit⟩) (closed : holds ⟨instr :: body, exit⟩ →
      holds ⟨body, exit⟩) (frame : Frame) :
    Point.All holds (⟨point.routine, ⟨body, exit⟩, frame⟩ : Point A Frame) :=
  ⟨closed (here ▸ all.code), all.routine⟩

theorem Code.Free.tail {instr : Instr A} {body : List (Instr A)} {exit : Exit A}
    (free : Code.Free ⟨instr :: body, exit⟩) : Code.Free ⟨body, exit⟩ :=
  fun trap member => free trap (List.mem_cons_of_mem _ member)

theorem Code.Paired.tail {instr : Instr A} {body : List (Instr A)} {exit : Exit A}
    (paired : Code.Paired ⟨instr :: body, exit⟩) : Code.Paired ⟨body, exit⟩ :=
  fun before trap after split =>
    paired (instr :: before) trap after (congrArg (List.cons instr) split)

theorem Code.CallsFree.tail {program : Program A} {instr : Instr A} {body : List (Instr A)}
    {exit : Exit A} (calls : Code.CallsFree program ⟨instr :: body, exit⟩) :
    Code.CallsFree program ⟨body, exit⟩ :=
  fun callee op member => calls callee op (List.mem_cons_of_mem _ member)

theorem Guarded.move {point moved : Point A Frame} {callers : List (A.Op × Point A Frame)}
    (guarded : Guarded point callers) (free : point.All Code.Free → moved.All Code.Free) :
    Guarded moved callers := by
  cases callers with
  | nil => trivial
  | cons caller callers => exact ⟨free guarded.1, guarded.2⟩

section Run

variable [DecidableEq A.Label] {meaning : Meaning A Frame Memory} {program program' : Program A}

theorem Steady.step (calls : ∀ name routine, program name = some routine →
      ∀ block ∈ routine, block.code.CallsFree program)
    {state next : State A Frame Memory} (steady : Steady program state)
    (moved : step meaning program state = .next next) : Steady program next := by
  rcases step_eq_next moved with ⟨op, body, exit, frame, memory, here, rfl⟩ |
    ⟨callee, op, body, exit, routine, block, frame, here, known, member, rfl⟩ |
    ⟨op, point, callers, frame, waiting, rfl⟩ | ⟨block, member, frame, rfl⟩
  · exact ⟨steady.point.tail here (And.imp Code.CallsFree.tail Code.Paired.tail) frame,
      steady.callers, steady.guarded.move fun all => all.tail here Code.Free.tail frame⟩
  · have entered : Routine.Free routine := by
      have inFront := steady.point.code.1
      rw [here] at inFront
      exact inFront callee op List.mem_cons_self routine known
    have free : Point.All Code.Free (⟨routine, block.code, frame⟩ : Point A Frame) :=
      ⟨entered block member, entered⟩
    have waits := steady.point.tail here (And.imp Code.CallsFree.tail Code.Paired.tail)
      state.point.frame
    constructor
    · exact ⟨⟨calls callee routine known block member, (entered block member).paired⟩,
        fun other inside => ⟨calls callee routine known other inside,
          (entered other inside).paired⟩⟩
    · intro caller inside
      rcases List.mem_cons.mp inside with rfl | later
      · exact waits
      · exact steady.callers caller later
    · exact ⟨free, steady.guarded.move fun all =>
        all.tail here Code.Free.tail state.point.frame⟩
  · have guarded := steady.guarded
    have suspended := steady.callers
    rw [waiting] at guarded suspended
    have resumed := suspended (op, point) List.mem_cons_self
    exact ⟨⟨resumed.code, resumed.routine⟩,
      fun caller inside => suspended caller (List.mem_cons_of_mem _ inside),
      guarded.2.move fun all => ⟨all.code, all.routine⟩⟩
  · exact ⟨⟨steady.point.routine block member, steady.point.routine⟩, steady.callers,
      steady.guarded.move fun all => ⟨all.routine block member, all.routine⟩⟩

/-! ## The passes keep what the program does -/

/-- A trap that throws does what a trap did. -/
theorem throwing_refines {value : A.Value} (aborts : meaning.trapped = some value)
    (same : ∀ name, program' name = (program name).map (Routine.map (Code.throwing value)))
    (trapped : Option A.Value) (fuel : Nat) {state other : State A Frame Memory}
    (under : state.Under (· = Code.throwing value) other) :
    (run meaning program fuel state).Refines (State.Under (· = Code.throwing value))
      (run (meaning.withTrapped trapped) program' fuel other) := by
  apply run_refines _ fuel under
  intro state other under
  refine State.Under.step_refines ?_ under ?_ ?_
  · rintro _ rfl
    exact local_throwing value
  · obtain ⟨⟨routine, ⟨body, exit⟩, frame⟩, callers, memory⟩ := state
    obtain ⟨otherPoint, otherCallers, otherMemory⟩ := other
    obtain ⟨⟨_, rfl, samePoint⟩, waiting, sameMemory⟩ := under
    obtain rfl : otherPoint = Point.map (Code.throwing value) ⟨routine, ⟨body, exit⟩, frame⟩ :=
      samePoint
    obtain rfl : otherMemory = memory := sameMemory
    rintro (⟨trap, after, here⟩ | ⟨trap, thrown, after, here⟩ | ⟨stop, here⟩)
    · obtain rfl : body = .trap trap :: after := here
      simp only [step, aborts]
      exact rfl
    · obtain rfl : body = .throw trap thrown :: after := here
      exact rfl
    · cases here
      trivial
  · intro callee _ _ _ routine known
    exact ⟨_, rfl, by rw [same, known]; rfl⟩

/-- What is unreachable can return, as no program that runs gets there. -/
theorem closing_refines
    (same : ∀ name routine, program name = some routine →
      ∃ operand, program' name = some (Routine.map (Code.closing operand) routine))
    (fuel : Nat) {state other : State A Frame Memory}
    (under : state.Under (fun pass => ∃ operand, pass = Code.closing operand) other) :
    (run meaning program fuel state).Refines
      (State.Under fun pass => ∃ operand, pass = Code.closing operand)
      (run meaning program' fuel other) := by
  apply run_refines _ fuel under
  intro state other under
  refine @State.Under.step_refines _ _ _ _ meaning program program' _ ?_ meaning.trapped _ _
    under ?_ ?_
  · rintro _ ⟨operand, rfl⟩
    exact local_closing operand
  · obtain ⟨⟨routine, ⟨body, exit⟩, frame⟩, callers, memory⟩ := state
    obtain ⟨otherPoint, otherCallers, otherMemory⟩ := other
    obtain ⟨⟨_, ⟨operand, rfl⟩, samePoint⟩, waiting, sameMemory⟩ := under
    obtain rfl : otherPoint = Point.map (Code.closing operand) ⟨routine, ⟨body, exit⟩, frame⟩ :=
      samePoint
    obtain rfl : otherMemory = memory := sameMemory
    rintro (⟨trap, after, here⟩ | ⟨trap, thrown, after, here⟩ | ⟨stop, here⟩)
    · obtain rfl : body = .trap trap :: after := here
      simp only [step, Point.map, Code.closing, Meaning.withTrapped]
      cases meaning.trapped with
      | none => trivial
      | some value => exact rfl
    · obtain rfl : body = .throw trap thrown :: after := here
      exact rfl
    · cases here
      trivial
  · intro callee _ _ _ routine known
    obtain ⟨operand, found⟩ := same callee routine known
    exact ⟨_, ⟨operand, rfl⟩, found⟩

/-- A trap that returns does what a trap did, where only what the program was started at
has traps. -/
theorem returning_refines {operand : A.Operand} {value : A.Value}
    (aborts : meaning.trapped = some value)
    (returns : ∀ frame, meaning.value operand frame = value)
    (calls : ∀ name routine, program name = some routine →
      ∀ block ∈ routine, block.code.CallsFree program)
    (free : ∀ name routine, program name = some routine → routine.Free →
      program' name = some routine)
    (trapped : Option A.Value) (fuel : Nat) {state other : State A Frame Memory}
    (under : state.Under (· = Code.returning operand) other) (steady : Steady program state) :
    (run meaning program fuel state).Refines (State.Under (· = Code.returning operand))
      (run (meaning.withTrapped trapped) program' fuel other) := by
  have simulated : (run meaning program fuel state).Refines
      (fun state other => state.Under (· = Code.returning operand) other ∧ Steady program state)
      (run (meaning.withTrapped trapped) program' fuel other) := by
    apply run_refines _ fuel ⟨under, steady⟩
    rintro state other ⟨under, steady⟩
    have stepped : (step meaning program state).Refines
        (State.Under (· = Code.returning operand))
        (step (meaning.withTrapped trapped) program' other) := by
      refine State.Under.step_refines ?_ under ?_ ?_
      · rintro _ rfl
        exact local_returning operand
      · obtain ⟨⟨routine, ⟨body, exit⟩, frame⟩, callers, memory⟩ := state
        obtain ⟨otherPoint, otherCallers, otherMemory⟩ := other
        obtain ⟨⟨_, rfl, samePoint⟩, waiting, sameMemory⟩ := under
        obtain rfl : otherPoint =
          Point.map (Code.returning operand) ⟨routine, ⟨body, exit⟩, frame⟩ := samePoint
        obtain rfl : otherMemory = memory := sameMemory
        rintro (⟨trap, after, here⟩ | ⟨trap, thrown, after, here⟩ | ⟨stop, here⟩)
        · -- the trap is the last instruction, and nothing waits for its routine
          obtain rfl : body = .trap trap :: after := here
          obtain ⟨rfl, stop, unreached⟩ := steady.point.code.2 [] trap after rfl
          obtain rfl : exit = .unreachable stop := unreached
          cases waiting with
          | nil =>
              simp only [step, aborts]
              exact congrArg (Outcome.halted · otherMemory) (returns frame)
          | cons resumes later => exact absurd List.mem_cons_self (steady.guarded.1.code trap)
        · obtain rfl : body = .throw trap thrown :: after := here
          exact rfl
        · cases here
          trivial
      · intro callee op body here routine known
        have called := steady.point.code.1 callee op (here ▸ List.mem_cons_self) routine known
        exact ⟨_, rfl, by rw [free callee routine known called, called.returning]⟩
    exact stepped.mono fun reached moved other under => ⟨under, steady.step calls moved⟩
  exact simulated.mono fun reached _ other both => both.1

end Run

end LibarenaRs.Flow
