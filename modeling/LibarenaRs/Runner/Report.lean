import LibarenaRs.Runner.Verdict
import Mathlib.Data.List.Forall2
import Mathlib.Data.List.Induction

/-!
# What the runner accepts and reports

The command line is pairs of `-k` and a value, and the object; the values go into a
buffer of 1024 bytes.  Every test of the object gets one line.
-/

namespace LibarenaRs.Runner

variable {Object Kernel : Type}

/-! ## The command line -/

def optionWords (values : List CString) : List CString :=
  values.flatMap fun value => [['-', 'k'], value]

/-- What libbpf gets as the kernel's configuration. -/
def config (values : List CString) : CString := values.flatMap fun value => value ++ ['\n']

theorem readOptions_object (kconfig path : CString) :
    readOptions kconfig [path] = .ok (kconfig, [path]) := by
  unfold readOptions
  split
  · rename_i two
    cases two
  · rfl

theorem readOptions_option {kconfig value : CString} {rest : List CString}
    (room : kconfig.length + value.length + 1 < 1024) :
    readOptions kconfig (['-', 'k'] :: value :: rest) =
      readOptions (kconfig ++ value ++ ['\n']) rest := by
  rw [readOptions, if_neg (by omega)]

theorem readOptions_words {kconfig path : CString} {values : List CString}
    (room : kconfig.length + (config values).length < 1024) :
    readOptions kconfig (optionWords values ++ [path]) =
      .ok (kconfig ++ config values, [path]) := by
  induction values generalizing kconfig with
  | nil =>
      change readOptions kconfig [path] = .ok (kconfig ++ [], [path])
      rw [readOptions_object, List.append_nil]
  | cons value values inductionHypothesis =>
      have split : config (value :: values) = value ++ ['\n'] ++ config values := rfl
      rw [split, List.length_append, List.length_append, List.length_singleton] at room
      change readOptions kconfig (['-', 'k'] :: value :: (optionWords values ++ [path])) = _
      rw [readOptions_option (by omega), inductionHypothesis]
      · rw [split]
        simp only [List.append_assoc]
      · rw [List.length_append, List.length_append, List.length_singleton]
        omega

/-- What the loop leaves is the object alone only behind pairs that fit. -/
theorem words_of_readOptions {kconfig whole path : CString} {argv : List CString}
    (small : kconfig.length < 1024) (accepted : readOptions kconfig argv = .ok (whole, [path])) :
    ∃ values, argv = optionWords values ++ [path] ∧ whole = kconfig ++ config values ∧
      whole.length < 1024 := by
  fun_induction readOptions kconfig argv with
  | case1 => cases accepted
  | case2 kconfig value rest room inductionHypothesis =>
      have fits : (kconfig ++ value ++ ['\n']).length < 1024 := by
        rw [List.length_append, List.length_append, List.length_singleton]
        omega
      obtain ⟨values, rfl, rfl, bound⟩ := inductionHypothesis fits accepted
      refine ⟨value :: values, rfl, ?_, bound⟩
      simp [config]
  | case3 kconfig argv =>
      cases accepted
      exact ⟨[], rfl, (List.append_nil _).symm, small⟩

/-! ## The reset -/

def resetName : CString := "arena_buddy_reset".toList

/-- The last program of the object with the name of the reset. -/
def IsReset (programs : List Program) (reset : Program) : Prop :=
  reset.name = resetName ∧ ∃ before after, programs = before ++ reset :: after ∧
    ∀ prog ∈ after, prog.name ≠ resetName

theorem findReset_append (programs : List Program) (last : Program) :
    findReset (programs ++ [last]) =
      if last.name = resetName then some last else findReset programs := by
  rw [findReset, List.foldl_append]
  rfl

theorem findReset_eq_find (programs : List Program) :
    findReset programs = programs.reverse.find? fun prog => prog.name = resetName := by
  induction programs using List.reverseRecOn with
  | nil => rfl
  | append_singleton programs last inductionHypothesis =>
      rw [findReset_append, List.reverse_append, List.reverse_singleton, List.singleton_append,
        List.find?_cons, inductionHypothesis]
      by_cases named : last.name = resetName
      · rw [if_pos named, decide_eq_true named]
      · rw [if_neg named, decide_eq_false named]

theorem findReset_eq_some {programs : List Program} {reset : Program} :
    findReset programs = some reset ↔ IsReset programs reset := by
  rw [findReset_eq_find, List.find?_eq_some_iff_append, IsReset]
  constructor
  · rintro ⟨named, after, before, split, others⟩
    have whole := congrArg List.reverse split
    rw [List.reverse_reverse, List.reverse_append, List.reverse_cons, List.append_assoc] at whole
    refine ⟨by simpa using named, before.reverse, after.reverse, whole, ?_⟩
    intro prog member
    simpa using others prog (List.mem_reverse.mp member)
  · rintro ⟨named, before, after, rfl, others⟩
    refine ⟨by simpa using named, after.reverse, before.reverse, by simp, ?_⟩
    intro prog member
    simpa using others prog (List.mem_reverse.mp member)

theorem run_prog_passes {host : Host Object Kernel} {prog : Program} {stale : Int32}
    {kernel : Kernel} :
    (run_prog host prog stale kernel).1 = 0 ∧ (run_prog host prog stale kernel).2.1 = 0 ↔
      (host.test_run prog kernel).1.Passed := by
  rw [run_prog]
  by_cases failed : (host.test_run prog kernel).1.err = 0
  · simp [failed, Outcome.Passed, toInt32_eq_zero]
  · simp [failed, Outcome.Passed]

theorem run_prog_kernel {host : Host Object Kernel} {prog : Program} {stale : Int32}
    {kernel : Kernel} :
    (run_prog host prog stale kernel).2.2 = (host.test_run prog kernel).2 := by
  rw [run_prog]
  by_cases failed : (host.test_run prog kernel).1.err = 0 <;> simp [failed]

/-- The tests start exactly behind pairs that fit, the object, and a reset that passes. -/
theorem start_iff {host : Host Object Kernel} {argv : List CString} {kernel : Kernel}
    {started : Started Kernel} :
    start host argv kernel = .ok started ↔
      ∃ values path obj reset, argv = optionWords values ++ [path] ∧
        (config values).length < 1024 ∧ host.open_file path (config values) = some obj ∧
        host.load obj = 0 ∧ IsReset (host.programs obj) reset ∧
        (host.test_run reset kernel).1.Passed ∧
        started = ⟨host.programs obj, (host.test_run reset kernel).2, 0⟩ := by
  constructor
  · intro succeeded
    unfold start at succeeded
    cases read : readOptions [] argv with
    | error complaint =>
        rw [read] at succeeded
        cases succeeded
    | ok parsed =>
        obtain ⟨kconfig, arguments⟩ := parsed
        simp only [read, bind, Except.bind] at succeeded
        split at succeeded
        · rename_i path
          split at succeeded
          · rename_i obj opened
            split at succeeded
            · cases succeeded
            · rename_i loaded
              split at succeeded
              · rename_i reset found
                split at succeeded
                · cases succeeded
                · rename_i passed
                  rw [not_or, not_not, not_not] at passed
                  rw [run_prog_kernel, passed.2] at succeeded
                  obtain ⟨values, words, rfl, room⟩ := words_of_readOptions (by decide) read
                  exact ⟨values, path, obj, reset, words, room, opened, not_not.mp loaded,
                    findReset_eq_some.mp found, run_prog_passes.mp passed,
                    (Except.ok.inj succeeded).symm⟩
              · cases succeeded
          · cases succeeded
        · cases succeeded
  · rintro ⟨values, path, obj, reset, rfl, room, opened, loaded, isReset, passed, rfl⟩
    have read : readOptions [] (optionWords values ++ [path]) = .ok (config values, [path]) := by
      rw [readOptions_words (by simpa using room)]
      rfl
    have found := findReset_eq_some.mpr isReset
    obtain ⟨err, retval⟩ := run_prog_passes.mpr passed
    simp only [start, read, bind, Except.bind, opened, loaded, found]
    rw [if_neg (not_not.mpr rfl), if_neg (not_or.mpr ⟨not_not.mpr err, not_not.mpr retval⟩),
      run_prog_kernel, retval]

/-! ## The report -/

/-- The line is about that program, and says how it ended.  Without a return value the line
has what an earlier program left. -/
def Line.Reports (prog : Program) (outcome : Outcome) : Line → Prop
  | .ok name => name = prog.name ∧ outcome.Passed
  | .fail name err ret => name = prog.name ∧ err = outcome.err ∧
      (err = 0 → ret = outcome.retval.toInt32 ∧ ret ≠ 0)

def Line.failed : Line → Bool
  | .ok _ => false
  | .fail _ _ _ => true

theorem Line.Reports.failed_iff {prog : Program} {outcome : Outcome} {line : Line}
    (reports : line.Reports prog outcome) : line.failed = true ↔ ¬outcome.Passed := by
  cases line with
  | ok name => simp [Line.failed, reports.2]
  | fail name err ret =>
      obtain ⟨-, same, value⟩ := reports
      simp only [Line.failed, true_iff]
      rintro ⟨noError, zero⟩
      obtain ⟨isValue, nonzero⟩ := value (same.trans noError)
      rw [isValue, zero] at nonzero
      exact nonzero rfl

def tests (programs : List Program) : List Program := programs.filter fun prog => prog.IsTest

theorem length_outcomes (host : Host Object Kernel) (programs : List Program) (kernel : Kernel) :
    (outcomes host programs kernel).length = (tests programs).length := by
  induction programs generalizing kernel with
  | nil => rfl
  | cons prog programs inductionHypothesis =>
      by_cases isTest : prog.IsTest
      · simp [outcomes, tests, isTest, inductionHypothesis]
      · simp [outcomes, tests, isTest, inductionHypothesis]

/-- One test adds its line. -/
theorem runTest_line {host : Host Object Kernel} {prog : Program} (isTest : prog.IsTest)
    (tally : Tally Kernel) :
    (runTest host tally prog).ran = tally.ran + 1 ∧
      ∃ line, (runTest host tally prog).printed = tally.printed ++ [line] ∧
        line.Reports prog (host.test_run prog tally.kernel).1 := by
  rw [runTest, if_neg (not_not.mpr isTest)]
  dsimp only
  have passes := @run_prog_passes _ _ host prog tally.retval tally.kernel
  by_cases passed : (host.test_run prog tally.kernel).1.Passed
  · obtain ⟨err, retval⟩ := passes.mpr passed
    rw [if_neg (not_or.mpr ⟨not_not.mpr err, not_not.mpr retval⟩)]
    exact ⟨rfl, _, rfl, rfl, passed⟩
  · rw [if_pos (not_and_or.mp (mt passes.mp passed))]
    refine ⟨rfl, _, rfl, rfl, ?_⟩
    rw [Outcome.Passed, not_and] at passed
    rw [run_prog]
    by_cases failed : (host.test_run prog tally.kernel).1.err = 0
    · simp [failed, passed failed, toInt32_eq_zero]
    · simp [failed]

theorem runTest_foldl (host : Host Object Kernel) (programs : List Program) (tally : Tally Kernel) :
    (programs.foldl (runTest host) tally).ran =
        tally.ran + Int32.ofNat (tests programs).length ∧
      ∃ lines, (programs.foldl (runTest host) tally).printed = tally.printed ++ lines ∧
        List.Forall₂ (fun test line => line.Reports test.1 test.2)
          ((tests programs).zip (outcomes host programs tally.kernel)) lines := by
  induction programs generalizing tally with
  | nil => exact ⟨(Int32.add_zero _).symm, [], (List.append_nil _).symm, List.Forall₂.nil⟩
  | cons prog programs inductionHypothesis =>
      by_cases isTest : prog.IsTest
      · obtain ⟨ran, line, printed, reports⟩ := @runTest_line _ _ host prog isTest tally
        obtain ⟨count, lines, more, others⟩ := inductionHypothesis (runTest host tally prog)
        have kept : tests (prog :: programs) = prog :: tests programs := by simp [tests, isTest]
        rw [(runTest_test isTest tally).1] at others
        rw [List.foldl_cons, count, more, ran, printed, kept, outcomes, if_pos isTest,
          List.length_cons, Int32.ofNat_add]
        refine ⟨?_, line :: lines, by simp, .cons reports others⟩
        rw [Int32.add_assoc, Int32.add_comm 1]
        rfl
      · have dropped : tests (prog :: programs) = tests programs := by simp [tests, isTest]
        rw [List.foldl_cons, runTest_other isTest, dropped, outcomes, if_neg isTest]
        exact inductionHypothesis tally

theorem countP_failed {runs : List (Program × Outcome)} {lines : List Line}
    (reports : List.Forall₂ (fun test line => Line.Reports test.1 test.2 line) runs lines) :
    lines.countP Line.failed = (runs.map Prod.snd).countP fun outcome => ¬outcome.Passed := by
  induction reports with
  | nil => rfl
  | cons first others inductionHypothesis =>
      rw [List.countP_cons, List.map_cons, List.countP_cons, inductionHypothesis]
      congr 1
      simp only [first.failed_iff, decide_eq_true_eq]

/-- Every test of the object is run once, in the order of the object, and has one line, and
the counters are those of the lines. -/
theorem runTests_report (host : Host Object Kernel) (started : Started Kernel) :
    (runTests host started).ran = Int32.ofNat (runTests host started).printed.length ∧
      (runTests host started).failures =
        Int32.ofNat ((runTests host started).printed.countP Line.failed) ∧
      (runTests host started).printed.length = (tests started.programs).length ∧
      List.Forall₂ (fun test line => line.Reports test.1 test.2)
        ((tests started.programs).zip (outcomes host started.programs started.kernel))
        (runTests host started).printed := by
  obtain ⟨count, lines, printed, reports⟩ :=
    runTest_foldl host started.programs ⟨started.kernel, started.retval, 0, 0, []⟩
  have failures :=
    failures_foldl host started.programs ⟨started.kernel, started.retval, 0, 0, []⟩
  have one := length_outcomes host started.programs started.kernel
  have many : lines.length = (tests started.programs).length := by
    rw [← reports.length_eq, List.length_zip, one, Nat.min_self]
  rw [List.nil_append] at printed
  rw [Int32.zero_add] at count failures
  rw [runTests, printed, count, failures, many, countP_failed reports,
    List.map_snd_zip (Nat.le_of_eq one)]
  exact ⟨rfl, rfl, rfl, reports⟩

end LibarenaRs.Runner
