import LibarenaRs.Alloc.Semantics

/-!
# Inverting runs of the allocator

For each program of the crate, all that a run of it can do.
-/

namespace LibarenaRs.Alloc

variable {cast : AddressSpaceCast} {high : Nat} {First Second : Type}
  {world after : World}

theorem runs_bind {calls : Calls First} {next : First → Calls Second} {result : Second} :
    Runs cast high (calls >>= next) world result after ↔
      ∃ middleResult middle, Runs cast high calls world middleResult middle ∧
        Runs cast high (next middleResult) middle result after := by
  change Runs cast high (calls.bind next) world result after ↔ _
  constructor
  · intro run
    induction calls generalizing world with
    | done first => exact ⟨first, world, .done, run⟩
    | malloc size continuation inductionHypothesis =>
        cases run with
        | malloc answers rest =>
            obtain ⟨middleResult, middle, start, finish⟩ := inductionHypothesis _ rest
            exact ⟨middleResult, middle, .malloc answers start, finish⟩
    | free address continuation inductionHypothesis =>
        cases run with
        | free keeps rest =>
            obtain ⟨middleResult, middle, start, finish⟩ := inductionHypothesis _ rest
            exact ⟨middleResult, middle, .free keeps start, finish⟩
    | copy source target count continuation inductionHypothesis =>
        cases run with
        | copy rest =>
            obtain ⟨middleResult, middle, start, finish⟩ := inductionHypothesis _ rest
            exact ⟨middleResult, middle, .copy start, finish⟩
    | fill target byte count continuation inductionHypothesis =>
        cases run with
        | fill rest =>
            obtain ⟨middleResult, middle, start, finish⟩ := inductionHypothesis _ rest
            exact ⟨middleResult, middle, .fill start, finish⟩
  · rintro ⟨middleResult, middle, start, finish⟩
    induction start with
    | done => exact finish
    | malloc answers _ inductionHypothesis => exact .malloc answers (inductionHypothesis finish)
    | free keeps _ inductionHypothesis => exact .free keeps (inductionHypothesis finish)
    | copy _ inductionHypothesis => exact .copy (inductionHypothesis finish)
    | fill _ inductionHypothesis => exact .fill (inductionHypothesis finish)

@[simp]
theorem runs_pure {first result : First} :
    Runs cast high (pure first) world result after ↔ result = first ∧ after = world := by
  constructor
  · intro run
    cases run
    exact ⟨rfl, rfl⟩
  · rintro ⟨rfl, rfl⟩
    exact .done

/-- All a run of `alloc` can do. -/
theorem runs_alloc {layout : Layout} {pointer : UInt64} :
    Runs cast high (alloc cast layout) world pointer after ↔
      ∃ answer memory, Answers cast high world (request_size layout) answer memory ∧
        pointer = (if answer = 0 then 0 else cast.cast_kern answer) ∧
        after = ⟨memory, .malloc (request_size layout) answer :: world.events⟩ := by
  unfold alloc arena_malloc arena_malloc_internal
  rw [runs_bind]
  constructor
  · rintro ⟨answer, middle, start, finish⟩
    cases start with
    | malloc answers rest =>
        cases rest
        refine ⟨_, _, answers, ?_⟩
        by_cases failed : answer = 0
        · simpa [failed] using finish
        · simpa [failed] using finish
  · rintro ⟨answer, memory, answers, rfl, rfl⟩
    refine ⟨answer, _, .malloc answers .done, ?_⟩
    by_cases failed : answer = 0
    · simp [failed]
    · simp [failed]

/-- All a run of `dealloc` can do. -/
theorem runs_dealloc {layout : Layout} {pointer : UInt64} {result : Unit} :
    Runs cast high (dealloc cast pointer layout) world result after ↔
      ∃ memory, KeepsBlocks cast
          (outstanding (.free (cast.cast_user pointer) :: world.events)) world.memory memory ∧
        after = ⟨memory, .free (cast.cast_user pointer) :: world.events⟩ := by
  unfold dealloc arena_free arena_free_u64
  constructor
  · intro run
    cases run with
    | free keeps rest =>
        cases rest
        exact ⟨_, keeps, rfl⟩
  · rintro ⟨memory, keeps, rfl⟩
    exact .free keeps .done

theorem runs_copy {source target count : UInt64} {result : Unit} :
    Runs cast high (copy_nonoverlapping source target count) world result after ↔
      after = ⟨copied world.memory source target count, world.events⟩ := by
  unfold copy_nonoverlapping
  constructor
  · intro run
    cases run with
    | copy rest =>
        cases rest
        rfl
  · rintro rfl
    exact .copy .done

theorem runs_fill {target count : UInt64} {byte : UInt8} {result : Unit} :
    Runs cast high (write_bytes target byte count) world result after ↔
      after = ⟨filled world.memory target byte count, world.events⟩ := by
  unfold write_bytes
  constructor
  · intro run
    cases run with
    | fill rest =>
        cases rest
        rfl
  · rintro rfl
    exact .fill .done

/-- All a run of `alloc_zeroed` can do. -/
theorem runs_alloc_zeroed {layout : Layout} {pointer : UInt64} :
    Runs cast high (alloc_zeroed cast layout) world pointer after ↔
      ∃ middle, Runs cast high (alloc cast layout) world pointer middle ∧
        after = if pointer = 0 then middle
          else ⟨filled middle.memory pointer 0 layout.size, middle.events⟩ := by
  unfold alloc_zeroed
  rw [runs_bind]
  constructor
  · rintro ⟨answer, middle, start, finish⟩
    by_cases failed : answer = 0
    · simp only [failed, ne_eq, not_true_eq_false, if_false, runs_pure] at finish
      obtain ⟨rfl, rfl⟩ := finish
      exact ⟨after, by simpa [failed] using start, by simp⟩
    · simp only [ne_eq, failed, not_false_eq_true, if_true, runs_bind, runs_fill,
        runs_pure] at finish
      obtain ⟨-, _, rfl, rfl, rfl⟩ := finish
      exact ⟨middle, start, by simp [failed]⟩
  · rintro ⟨middle, start, rfl⟩
    refine ⟨pointer, middle, start, ?_⟩
    by_cases failed : pointer = 0
    · simp [failed]
    · simp only [ne_eq, failed, not_false_eq_true, if_true, if_false, runs_bind, runs_fill,
        runs_pure]
      exact ⟨(), _, rfl, trivial, rfl⟩

/-- All a run of `realloc` can do. -/
theorem runs_realloc {old pointer : UInt64} {layout new_layout : Layout} :
    Runs cast high (realloc cast old layout new_layout) world pointer after ↔
      ∃ middle, Runs cast high (alloc cast new_layout) world pointer middle ∧
        (pointer = 0 → after = middle) ∧
        (pointer ≠ 0 → Runs cast high (dealloc cast old layout)
          ⟨copied middle.memory old pointer (min layout.size new_layout.size),
            middle.events⟩ () after) := by
  unfold realloc
  rw [runs_bind]
  constructor
  · rintro ⟨answer, middle, start, finish⟩
    by_cases failed : answer = 0
    · simp only [failed, ne_eq, not_true_eq_false, if_false, runs_pure] at finish
      obtain ⟨rfl, rfl⟩ := finish
      exact ⟨after, by simpa [failed] using start, by simp, by simp⟩
    · simp only [ne_eq, failed, not_false_eq_true, if_true, runs_bind, runs_copy,
        runs_pure] at finish
      obtain ⟨_, _, rfl, _, _, released, rfl, rfl⟩ := finish
      exact ⟨middle, start, fun zero => absurd zero failed, fun _ => released⟩
  · rintro ⟨middle, start, whenNull, whenServed⟩
    refine ⟨pointer, middle, start, ?_⟩
    by_cases failed : pointer = 0
    · simp [failed, whenNull failed]
    · simp only [ne_eq, failed, not_false_eq_true, if_true, runs_bind, runs_copy, runs_pure]
      exact ⟨(), _, rfl, (), after, whenServed failed, trivial, rfl⟩

end LibarenaRs.Alloc
