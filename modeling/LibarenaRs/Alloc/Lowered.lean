import LibarenaRs.Alloc.Correctness
import LibarenaRs.Glue.Exhaustion

/-!
# The allocator over the glue

In a linked program `copy_nonoverlapping` and `write_bytes` are calls of the glue, whose
loops draw from one budget for the whole run.  A budget that is used up costs contents,
and never the books.
-/

namespace LibarenaRs.Alloc

open LibarenaRs.Glue LibarenaRs.Memory

/-! ## One call of the glue -/

/-- Memory and budget behind `bpf_arena_memcpy`. -/
def glueCopy (memory : UInt64 → UInt8) (budget : Nat) (source target count : UInt64) :
    (UInt64 → UInt8) × Nat :=
  let machine := (bpf_arena_memcpy mayGoto 0 target source count ⟨memory, budget, [], []⟩).2
  (machine.memory, machine.budget)

/-- Memory and budget behind `bpf_arena_memset`. -/
def glueFill (memory : UInt64 → UInt8) (budget : Nat) (target : UInt64) (byte : UInt8)
    (count : UInt64) : (UInt64 → UInt8) × Nat :=
  let machine := (bpf_arena_memset mayGoto 0 target byte count ⟨memory, budget, [], []⟩).2
  (machine.memory, machine.budget)

section OneCall

variable {memory : UInt64 → UInt8} {budget : Nat} {source target count address : UInt64}
  {byte : UInt8}

theorem exists_index (inside : InRange target count address) :
    ∃ i < count.toNat, address = target + UInt64.ofNat i := by
  obtain ⟨lower, upper⟩ := inside
  refine ⟨address.toNat - target.toNat, by omega, ?_⟩
  apply UInt64.toNat_inj.mp
  have size := address.toNat_lt
  rw [toNat_add_ofNat (by omega)]
  omega

theorem glueCopy_budget : (glueCopy memory budget source target count).2 = budget - count.toNat := by
  obtain ⟨_, -, -, -, -, left⟩ :=
    @bpf_arena_memcpy_mayGoto ⟨memory, budget, [], []⟩ target source count
  exact left

theorem glueCopy_outside (fits : Fits target count) (outside : ¬InRange target count address) :
    (glueCopy memory budget source target count).1 address = memory address := by
  obtain ⟨indices, -, bounded, -, moved, -⟩ :=
    @bpf_arena_memcpy_mayGoto ⟨memory, budget, [], []⟩ target source count
  change (bpf_arena_memcpy mayGoto 0 target source count ⟨memory, budget, [], []⟩).2.memory
    address = memory address
  rw [moved.memory]
  apply sequentialCopy_frame
  rintro move member rfl
  obtain ⟨i, iMember, rfl⟩ := List.mem_map.mp member
  exact outside (inRange_add_ofNat fits (bounded i iMember))

/-- With enough budget the loops do what core's copy does. -/
theorem glueCopy_enough (targetFits : Fits target count) (sourceFits : Fits source count)
    (enough : count.toNat ≤ budget) :
    (glueCopy memory budget source target count).1 = copied memory source target count := by
  have moved := bpf_arena_memcpy_moved mayGoto target source count ⟨memory, budget, [], []⟩
    targetFits sourceFits (passes_mayGoto enough)
  funext address
  by_cases inside : InRange target count address
  · obtain ⟨i, below, rfl⟩ := exists_index inside
    have fits : target.toNat + i < 2 ^ 64 := by
      unfold Fits at targetFits
      omega
    rw [copied_inside below fits]
    exact moved.copied i below
  · rw [glueCopy_outside targetFits inside]
    exact (if_neg inside).symm

theorem glueFill_budget : (glueFill memory budget target byte count).2 = budget - count.toNat := by
  have made := @fillBytes_mayGoto count 0 ⟨memory, budget, [], []⟩ target byte
  rw [UInt64.toNat_zero, Nat.sub_zero] at made
  exact made.2

theorem glueFill_eq :
    (glueFill memory budget target byte count).1 address =
      if address ∈ (List.range' 0 (min count.toNat budget)).map (fun k => target + UInt64.ofNat k)
      then byte else memory address := by
  have made := @fillBytes_mayGoto count 0 ⟨memory, budget, [], []⟩ target byte
  rw [UInt64.toNat_zero, Nat.sub_zero] at made
  exact made.1.memory address

theorem glueFill_outside (fits : Fits target count) (outside : ¬InRange target count address) :
    (glueFill memory budget target byte count).1 address = memory address := by
  rw [glueFill_eq, if_neg]
  intro member
  obtain ⟨i, among, rfl⟩ := List.mem_map.mp member
  have below := (List.mem_range'_1.mp among).2
  exact outside (inRange_add_ofNat fits (by omega))

theorem glueFill_enough (fits : Fits target count) (enough : count.toNat ≤ budget) :
    (glueFill memory budget target byte count).1 = filled memory target byte count := by
  funext address
  by_cases inside : InRange target count address
  · obtain ⟨i, below, rfl⟩ := exists_index inside
    have member : i ∈ List.range' 0 (min count.toNat budget) :=
      List.mem_range'_1.mpr ⟨Nat.zero_le i, by omega⟩
    rw [glueFill_eq, if_pos (List.mem_map_of_mem member)]
    exact (if_pos inside).symm
  · rw [glueFill_outside fits inside]
    exact (if_neg inside).symm

end OneCall

/-! ## Runs -/

section Execution

variable (cast : AddressSpaceCast) (high : Nat)

/-- Executions against the same buddy allocators, with the budget before and behind. -/
def LoweredRuns {Result : Type} : Calls Result → World → Nat → Result → World → Nat → Prop
  | .done value, world, budget, result, after, left =>
      result = value ∧ after = world ∧ left = budget
  | .malloc size continuation, world, budget, result, after, left =>
      ∃ answer memory, Answers cast high world size answer memory ∧
        LoweredRuns (continuation answer) ⟨memory, .malloc size answer :: world.events⟩ budget
          result after left
  | .free address continuation, world, budget, result, after, left =>
      ∃ memory, KeepsBlocks cast (outstanding (.free address :: world.events)) world.memory
          memory ∧
        LoweredRuns (continuation ()) ⟨memory, .free address :: world.events⟩ budget result after
          left
  | .copy source target count continuation, world, budget, result, after, left =>
      LoweredRuns (continuation ())
        ⟨(glueCopy world.memory budget source target count).1, world.events⟩
        (glueCopy world.memory budget source target count).2 result after left
  | .fill target byte count continuation, world, budget, result, after, left =>
      LoweredRuns (continuation ())
        ⟨(glueFill world.memory budget target byte count).1, world.events⟩
        (glueFill world.memory budget target byte count).2 result after left

/-- The steps of a client as before, with the glue underneath. -/
inductive LoweredStep : State → Nat → Operation → UInt64 → State → Nat → Prop where
  | alloc {world live layout pointer after budget left} :
      LoweredRuns cast high (alloc cast layout) world budget pointer after left →
      LoweredStep ⟨world, live⟩ budget (.alloc layout) pointer
        ⟨after, receive pointer layout live⟩ left
  | alloc_zeroed {world live layout pointer after budget left} :
      LoweredRuns cast high (alloc_zeroed cast layout) world budget pointer after left →
      LoweredStep ⟨world, live⟩ budget (.alloc_zeroed layout) pointer
        ⟨after, receive pointer layout live⟩ left
  | realloc {world earlier later pointer layout new_layout new_pointer after budget left} :
      new_layout.align = layout.align →
      LoweredRuns cast high (realloc cast pointer layout new_layout) world budget new_pointer
        after left →
      LoweredStep ⟨world, earlier ++ ⟨pointer, layout⟩ :: later⟩ budget
        (.realloc pointer layout new_layout) new_pointer
        ⟨after, if new_pointer = 0 then earlier ++ ⟨pointer, layout⟩ :: later
          else ⟨new_pointer, new_layout⟩ :: (earlier ++ later)⟩ left
  | dealloc {world earlier later pointer layout after budget left} :
      LoweredRuns cast high (dealloc cast pointer layout) world budget () after left →
      LoweredStep ⟨world, earlier ++ ⟨pointer, layout⟩ :: later⟩ budget
        (.dealloc pointer layout) 0 ⟨after, earlier ++ later⟩ left
  | write {world live memory budget} :
      (∀ address, (∀ allocation ∈ live, ¬allocation.Holds address) →
        memory address = world.memory address) →
      LoweredStep ⟨world, live⟩ budget .write 0 ⟨{ world with memory := memory }, live⟩ budget

end Execution

/-- The iterations that an operation asks for. -/
def asked (operation : Operation) (pointer : UInt64) : Nat :=
  match operation with
  | .alloc_zeroed layout => if pointer = 0 then 0 else layout.size.toNat
  | .realloc _ layout new_layout =>
      if pointer = 0 then 0 else min layout.size.toNat new_layout.size.toNat
  | _ => 0

/-- States of a run that starts with a budget: what is left of it, and the iterations that
the run asked for. -/
inductive LoweredReachable (cast : AddressSpaceCast) (high start : Nat) :
    State → Nat → Nat → Prop where
  | initial {memory} : LoweredReachable cast high start ⟨⟨memory, []⟩, []⟩ start 0
  | step {before budget total operation pointer after left} :
      LoweredReachable cast high start before budget total →
      LoweredStep cast high before budget operation pointer after left →
      LoweredReachable cast high start after left (total + asked operation pointer)

/-! ## What a run can do -/

section Inversion

variable {cast : AddressSpaceCast} {high : Nat} {First Second : Type} {world after : World}
  {budget left : Nat}

theorem loweredRuns_bind {calls : Calls First} {next : First → Calls Second} {result : Second} :
    LoweredRuns cast high (calls >>= next) world budget result after left ↔
      ∃ middleResult middle rest, LoweredRuns cast high calls world budget middleResult middle rest ∧
        LoweredRuns cast high (next middleResult) middle rest result after left := by
  change LoweredRuns cast high (calls.bind next) world budget result after left ↔ _
  induction calls generalizing world budget with
  | done first =>
      constructor
      · exact fun run => ⟨first, world, budget, ⟨rfl, rfl, rfl⟩, run⟩
      · rintro ⟨_, _, _, ⟨rfl, rfl, rfl⟩, run⟩
        exact run
  | malloc size continuation inductionHypothesis =>
      constructor
      · rintro ⟨answer, memory, answers, run⟩
        obtain ⟨middleResult, middle, rest, start, finish⟩ := (inductionHypothesis answer).mp run
        exact ⟨middleResult, middle, rest, ⟨answer, memory, answers, start⟩, finish⟩
      · rintro ⟨middleResult, middle, rest, ⟨answer, memory, answers, start⟩, finish⟩
        exact ⟨answer, memory, answers,
          (inductionHypothesis answer).mpr ⟨middleResult, middle, rest, start, finish⟩⟩
  | free address continuation inductionHypothesis =>
      constructor
      · rintro ⟨memory, keeps, run⟩
        obtain ⟨middleResult, middle, rest, start, finish⟩ := (inductionHypothesis ()).mp run
        exact ⟨middleResult, middle, rest, ⟨memory, keeps, start⟩, finish⟩
      · rintro ⟨middleResult, middle, rest, ⟨memory, keeps, start⟩, finish⟩
        exact ⟨memory, keeps,
          (inductionHypothesis ()).mpr ⟨middleResult, middle, rest, start, finish⟩⟩
  | copy source target count continuation inductionHypothesis => exact inductionHypothesis ()
  | fill target byte count continuation inductionHypothesis => exact inductionHypothesis ()

/-- Programs that neither copy nor fill. -/
def Calls.Plain {Result : Type} : Calls Result → Prop
  | .done _ => True
  | .malloc _ continuation => ∀ answer, (continuation answer).Plain
  | .free _ continuation => (continuation ()).Plain
  | .copy .. => False
  | .fill .. => False

theorem loweredRuns_plain {calls : Calls First} (plain : calls.Plain) {result : First} :
    LoweredRuns cast high calls world budget result after left ↔
      Runs cast high calls world result after ∧ left = budget := by
  induction calls generalizing world with
  | done value =>
      constructor
      · rintro ⟨rfl, rfl, rfl⟩
        exact ⟨.done, rfl⟩
      · rintro ⟨run, rfl⟩
        cases run
        exact ⟨rfl, rfl, rfl⟩
  | malloc size continuation inductionHypothesis =>
      constructor
      · rintro ⟨answer, memory, answers, run⟩
        obtain ⟨rest, same⟩ := (inductionHypothesis answer (plain answer)).mp run
        exact ⟨.malloc answers rest, same⟩
      · rintro ⟨run, same⟩
        cases run with
        | malloc answers rest =>
            exact ⟨_, _, answers, (inductionHypothesis _ (plain _)).mpr ⟨rest, same⟩⟩
  | free address continuation inductionHypothesis =>
      constructor
      · rintro ⟨memory, keeps, run⟩
        obtain ⟨rest, same⟩ := (inductionHypothesis () plain).mp run
        exact ⟨.free keeps rest, same⟩
      · rintro ⟨run, same⟩
        cases run with
        | free keeps rest =>
            exact ⟨_, keeps, (inductionHypothesis () plain).mpr ⟨rest, same⟩⟩
  | copy source target count continuation _ => exact absurd plain id
  | fill target byte count continuation _ => exact absurd plain id

theorem plain_alloc (layout : Layout) : (alloc cast layout).Plain := by
  intro answer
  change (if answer = 0 then Calls.done 0 else Calls.done (cast.cast_kern answer)).Plain
  split <;> trivial

theorem plain_dealloc (pointer : UInt64) (layout : Layout) : (dealloc cast pointer layout).Plain :=
  trivial

theorem loweredRuns_alloc {layout : Layout} {pointer : UInt64} :
    LoweredRuns cast high (alloc cast layout) world budget pointer after left ↔
      Runs cast high (alloc cast layout) world pointer after ∧ left = budget :=
  loweredRuns_plain (plain_alloc layout)

theorem loweredRuns_dealloc {layout : Layout} {pointer : UInt64} {result : Unit} :
    LoweredRuns cast high (dealloc cast pointer layout) world budget result after left ↔
      Runs cast high (dealloc cast pointer layout) world result after ∧ left = budget :=
  loweredRuns_plain (plain_dealloc pointer layout)

theorem loweredRuns_alloc_zeroed {layout : Layout} {pointer : UInt64} :
    LoweredRuns cast high (alloc_zeroed cast layout) world budget pointer after left ↔
      ∃ middle, Runs cast high (alloc cast layout) world pointer middle ∧
        (pointer = 0 → after = middle ∧ left = budget) ∧
        (pointer ≠ 0 →
          after = ⟨(glueFill middle.memory budget pointer 0 layout.size).1, middle.events⟩ ∧
          left = (glueFill middle.memory budget pointer 0 layout.size).2) := by
  unfold alloc_zeroed
  rw [loweredRuns_bind]
  simp only [loweredRuns_alloc]
  constructor
  · rintro ⟨answer, middle, rest, ⟨start, rfl⟩, finish⟩
    by_cases failed : answer = 0
    · rw [if_neg (not_not.mpr failed)] at finish
      obtain ⟨rfl, rfl, rfl⟩ := finish
      exact ⟨after, start, fun _ => ⟨rfl, rfl⟩, fun served => absurd failed served⟩
    · rw [if_pos failed] at finish
      obtain ⟨rfl, rfl, rfl⟩ := finish
      exact ⟨middle, start, fun zero => absurd zero failed, fun _ => ⟨rfl, rfl⟩⟩
  · rintro ⟨middle, start, whenNull, whenServed⟩
    refine ⟨pointer, middle, budget, ⟨start, rfl⟩, ?_⟩
    by_cases failed : pointer = 0
    · rw [if_neg (not_not.mpr failed)]
      obtain ⟨rfl, rfl⟩ := whenNull failed
      exact ⟨rfl, rfl, rfl⟩
    · rw [if_pos failed]
      obtain ⟨rfl, rfl⟩ := whenServed failed
      exact ⟨rfl, rfl, rfl⟩

theorem loweredRuns_realloc {old pointer : UInt64} {layout new_layout : Layout} :
    LoweredRuns cast high (realloc cast old layout new_layout) world budget pointer after left ↔
      ∃ middle, Runs cast high (alloc cast new_layout) world pointer middle ∧
        (pointer = 0 → after = middle ∧ left = budget) ∧
        (pointer ≠ 0 →
          Runs cast high (dealloc cast old layout)
            ⟨(glueCopy middle.memory budget old pointer (min layout.size new_layout.size)).1,
              middle.events⟩ () after ∧
          left = (glueCopy middle.memory budget old pointer
            (min layout.size new_layout.size)).2) := by
  unfold realloc
  rw [loweredRuns_bind]
  simp only [loweredRuns_alloc]
  constructor
  · rintro ⟨answer, middle, rest, ⟨start, rfl⟩, finish⟩
    by_cases failed : answer = 0
    · rw [if_neg (not_not.mpr failed)] at finish
      obtain ⟨rfl, rfl, rfl⟩ := finish
      exact ⟨after, start, fun _ => ⟨rfl, rfl⟩, fun served => absurd failed served⟩
    · rw [if_pos failed] at finish
      obtain ⟨memory, keeps, rfl, rfl, rfl⟩ := finish
      exact ⟨middle, start, fun zero => absurd zero failed,
        fun _ => ⟨runs_dealloc.mpr ⟨memory, keeps, rfl⟩, rfl⟩⟩
  · rintro ⟨middle, start, whenNull, whenServed⟩
    refine ⟨pointer, middle, budget, ⟨start, rfl⟩, ?_⟩
    by_cases failed : pointer = 0
    · rw [if_neg (not_not.mpr failed)]
      obtain ⟨rfl, rfl⟩ := whenNull failed
      exact ⟨rfl, rfl, rfl⟩
    · rw [if_pos failed]
      obtain ⟨released, rfl⟩ := whenServed failed
      obtain ⟨memory, keeps, rfl⟩ := runs_dealloc.mp released
      exact ⟨memory, keeps, rfl, rfl, rfl⟩

end Inversion

/-! ## One step -/

section OneStep

variable {cast : AddressSpaceCast} {high budget left : Nat}

/-- The bytes of a live allocation do not wrap. -/
theorem Invariant.fits (window : Window cast high) {state : State}
    (invariant : Invariant cast high state) {pointer : UInt64} {layout : Layout}
    (member : ⟨pointer, layout⟩ ∈ state.live) {count : UInt64}
    (inside : count.toNat ≤ layout.size.toNat) : Fits pointer count := by
  obtain ⟨-, served⟩ := invariant.served window ⟨pointer, layout⟩ member
  obtain ⟨block, -, -, size, fits⟩ := served.block
  unfold Fits
  simp only at size fits
  omega

theorem holds_of_inRange {pointer count address : UInt64} {layout : Layout}
    (inside : count.toNat ≤ layout.size.toNat) (inRange : InRange pointer count address) :
    (Allocation.mk pointer layout).Holds address :=
  ⟨inRange.1, by simpa using Nat.lt_of_lt_of_le inRange.2 (Nat.add_le_add_left inside _)⟩

/-- Whatever the budget, a step keeps the books and the bytes of all other allocations. -/
theorem LoweredStep.safe (window : Window cast high) {before after : State}
    {operation : Operation} {pointer : UInt64} (invariant : Invariant cast high before)
    (step : LoweredStep cast high before budget operation pointer after left) :
    Invariant cast high after ∧ Framed before operation after ∧
      left = budget - asked operation pointer := by
  cases step with
  | alloc run =>
      obtain ⟨plain, rfl⟩ := loweredRuns_alloc.mp run
      obtain ⟨allocated, kept⟩ := step_alloc window invariant plain
      exact ⟨allocated, fun _ allocation member _ => kept allocation member, rfl⟩
  | @alloc_zeroed world live layout _ after _ _ run =>
      obtain ⟨middle, start, whenNull, whenServed⟩ := loweredRuns_alloc_zeroed.mp run
      obtain ⟨allocated, kept⟩ := step_alloc window invariant start
      by_cases failed : pointer = 0
      · obtain ⟨rfl, rfl⟩ := whenNull failed
        refine ⟨allocated, fun _ allocation member _ => kept allocation member, ?_⟩
        rw [asked, if_pos failed, Nat.sub_zero]
      · obtain ⟨rfl, rfl⟩ := whenServed failed
        refine ⟨allocated.memory _, ?_, ?_⟩
        · intro _ allocation member _ address holds
          have fresh := (allocated.received window failed).2 allocation member address holds
          have fits : Fits pointer layout.size :=
            allocated.fits window (by rw [receive, if_neg failed]; simp) (Nat.le_refl _)
          change (glueFill middle.memory budget pointer 0 layout.size).1 address = _
          rw [glueFill_outside fits fun inside => fresh inside]
          exact kept allocation member address holds
        · rw [glueFill_budget, asked, if_neg failed]
  | @realloc world earlier later old layout new_layout _ after _ _ sameAlign run =>
      obtain ⟨middle, start, whenNull, whenServed⟩ := loweredRuns_realloc.mp run
      obtain ⟨allocated, kept⟩ := step_alloc window invariant start
      by_cases failed : pointer = 0
      · obtain ⟨rfl, rfl⟩ := whenNull failed
        unfold receive at allocated
        rw [if_pos failed] at allocated
        simp only [if_pos failed]
        refine ⟨allocated, fun _ allocation member _ => kept allocation member, ?_⟩
        rw [asked, if_pos failed, Nat.sub_zero]
      · obtain ⟨released, rfl⟩ := whenServed failed
        have fresh := (allocated.received window failed).2
        unfold receive at allocated
        rw [if_neg failed] at allocated
        obtain ⟨freed, keptAfter⟩ := step_dealloc (⟨pointer, new_layout⟩ :: earlier)
          (allocated.memory _) released
        simp only [if_neg failed]
        have within : (min layout.size new_layout.size).toNat ≤ new_layout.size.toNat := by
          rw [toNat_min]
          exact Nat.min_le_right _ _
        refine ⟨freed, ?_, ?_⟩
        · intro _ allocation member survives address holds
          have other : allocation ∈ earlier ++ later := by
            apply (List.mem_cons.mp survives).resolve_left
            rintro rfl
            exact fresh _ member address holds holds
          have fits := allocated.fits window List.mem_cons_self within
          calc after.memory address
              = (glueCopy middle.memory budget old pointer
                  (min layout.size new_layout.size)).1 address :=
                keptAfter allocation (List.mem_cons_of_mem _ other) address holds
            _ = middle.memory address := by
                apply glueCopy_outside fits
                exact fun inside => fresh allocation member address holds
                  (holds_of_inRange within inside)
            _ = world.memory address := kept allocation member address holds
        · rw [glueCopy_budget, toNat_min, asked, if_neg failed]
  | dealloc run =>
      obtain ⟨plain, rfl⟩ := loweredRuns_dealloc.mp run
      obtain ⟨freed, kept⟩ := step_dealloc _ invariant plain
      exact ⟨freed, fun _ allocation _ survives => kept allocation survives, rfl⟩
  | write unchanged =>
      exact ⟨invariant.memory _, fun noWrite => absurd rfl noWrite, rfl⟩

/-- With enough budget a step is one of the abstract steps. -/
theorem LoweredStep.refines (window : Window cast high) {before after : State}
    {operation : Operation} {pointer : UInt64} (invariant : Invariant cast high before)
    (step : LoweredStep cast high before budget operation pointer after left)
    (enough : asked operation pointer ≤ budget) :
    Step cast high before operation pointer after := by
  cases step with
  | alloc run => exact .alloc (loweredRuns_alloc.mp run).1
  | @alloc_zeroed world live layout _ after _ _ run =>
      apply Step.alloc_zeroed
      obtain ⟨middle, start, whenNull, whenServed⟩ := loweredRuns_alloc_zeroed.mp run
      refine runs_alloc_zeroed.mpr ⟨middle, start, ?_⟩
      by_cases failed : pointer = 0
      · rw [if_pos failed]
        exact (whenNull failed).1
      · rw [asked, if_neg failed] at enough
        have allocated := (step_alloc window invariant start).1
        have fits : Fits pointer layout.size :=
          allocated.fits window (by rw [receive, if_neg failed]; simp) (Nat.le_refl _)
        rw [if_neg failed, (whenServed failed).1, glueFill_enough fits enough]
  | @realloc world earlier later old layout new_layout _ after _ _ sameAlign run =>
      apply Step.realloc sameAlign
      obtain ⟨middle, start, whenNull, whenServed⟩ := loweredRuns_realloc.mp run
      refine runs_realloc.mpr ⟨middle, start, fun zero => (whenNull zero).1, ?_⟩
      intro served
      rw [asked, if_neg served, ← toNat_min] at enough
      have allocated := (step_alloc window invariant start).1
      have targetFits : Fits pointer (min layout.size new_layout.size) := by
        apply allocated.fits window (by rw [receive, if_neg served]; exact List.mem_cons_self)
        rw [toNat_min]
        exact Nat.min_le_right _ _
      have sourceFits : Fits old (min layout.size new_layout.size) := by
        apply invariant.fits window (List.mem_append_right _ List.mem_cons_self)
        rw [toNat_min]
        exact Nat.min_le_left _ _
      rw [← glueCopy_enough targetFits sourceFits enough]
      exact (whenServed served).1
  | dealloc run => exact .dealloc (loweredRuns_dealloc.mp run).1
  | write unchanged => exact .write unchanged

end OneStep

/-! ## Runs of any length -/

theorem LoweredReachable.invariant {cast : AddressSpaceCast} {high start : Nat}
    (window : Window cast high) {state : State} {budget total : Nat}
    (reached : LoweredReachable cast high start state budget total) :
    Invariant cast high state ∧ budget = start - total ∧
      (total ≤ start → Reachable cast high state) := by
  induction reached with
  | initial => exact ⟨.initial _, rfl, fun _ => .initial⟩
  | @step before budget total operation pointer after left earlier step inductionHypothesis =>
      obtain ⟨invariant, spent, refined⟩ := inductionHypothesis
      obtain ⟨kept, -, left_⟩ := step.safe window invariant
      refine ⟨kept, by rw [left_, spent, Nat.sub_sub], ?_⟩
      intro enough
      have fewer : total ≤ start := Nat.le_of_add_right_le enough
      exact .step (refined fewer) (step.refines window invariant (by omega))

end LibarenaRs.Alloc
