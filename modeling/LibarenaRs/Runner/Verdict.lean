import Mathlib.Data.List.Basic

/-!
# The runner's verdict

`src/tools/runner/runner.c` resets the arena, runs every program whose name starts
with `test_` and returns the number of failures.  A process keeps the low eight bits
of that number, and `make test` looks at nothing else.
-/

namespace LibarenaRs.Runner

/-! ## The source -/

/-- A C string, one character a byte, without the closing zero. -/
abbrev CString := List Char

structure Program where
  name : CString
  fd : Int32
  deriving DecidableEq, Repr

/-- The error of `bpf_prog_test_run_opts` and the `retval` it leaves in the options. -/
structure Outcome where
  err : Int32
  retval : UInt32
  deriving DecidableEq, Repr

/-- libbpf and the kernel behind it; a program's run may change the kernel's state. -/
structure Host (Object Kernel : Type) where
  open_file : CString → CString → Option Object
  load : Object → Int32
  programs : Object → List Program
  test_run : Program → Kernel → Outcome × Kernel
  /-- What `retval` holds before anything is stored in it. -/
  uninitialized : Int32

/-- What is written to stderr before the runner gives up with status 2. -/
inductive Complaint where
  | tooManyOptions
  | usage
  | openFailed
  | loadFailed (err : Int32)
  | noReset
  | buddyInitFailed (err ret : Int32)
  deriving DecidableEq, Repr

inductive Line where
  | fail (name : CString) (err ret : Int32)
  | ok (name : CString)
  deriving DecidableEq, Repr

variable {Object Kernel : Type}

/-- The error, and `retval` behind the call: it is left alone where there is an error. -/
def run_prog (host : Host Object Kernel) (prog : Program) (retval : Int32) (kernel : Kernel) :
    Int32 × Int32 × Kernel :=
  let (opts, after) := host.test_run prog kernel
  if opts.err ≠ 0 then (opts.err, retval, after) else (0, opts.retval.toInt32, after)

/-- The loop over `-k`: the options so far and the arguments behind them. -/
def readOptions (kconfig : CString) : List CString → Except Complaint (CString × List CString)
  | ['-', 'k'] :: value :: rest =>
      if value.length + 1 ≥ 1024 - kconfig.length then .error .tooManyOptions
      else readOptions (kconfig ++ value ++ ['\n']) rest
  | arguments => .ok (kconfig, arguments)

/-- The last program of that name. -/
def findReset (programs : List Program) : Option Program :=
  programs.foldl (fun reset prog =>
    if prog.name = "arena_buddy_reset".toList then some prog else reset) none

/-- What stands when the arena has been reset. -/
structure Started (Kernel : Type) where
  programs : List Program
  kernel : Kernel
  retval : Int32

/-- `main` up to the call of `arena_buddy_reset`. -/
def start (host : Host Object Kernel) (argv : List CString) (kernel : Kernel) :
    Except Complaint (Started Kernel) := do
  let (kconfig, arguments) ← readOptions [] argv
  let [path] := arguments | .error .usage
  let some obj := host.open_file path kconfig | .error .openFailed
  let err := host.load obj
  if err ≠ 0 then .error (.loadFailed err) else
  let some reset := findReset (host.programs obj) | .error .noReset
  let (err, retval, after) := run_prog host reset host.uninitialized kernel
  if err ≠ 0 ∨ retval ≠ 0 then .error (.buddyInitFailed err retval)
  else .ok ⟨host.programs obj, after, retval⟩

/-- The variables of the second loop. -/
structure Tally (Kernel : Type) where
  kernel : Kernel
  retval : Int32
  ran : Int32
  failures : Int32
  printed : List Line

/-- The program is one that the second loop runs. -/
def Program.IsTest (prog : Program) : Prop := prog.name.take 5 = "test_".toList

instance (prog : Program) : Decidable prog.IsTest := inferInstanceAs (Decidable (_ = _))

/-- The body of the second loop.  The counters are C's `int`, and wrap. -/
def runTest (host : Host Object Kernel) (tally : Tally Kernel) (prog : Program) : Tally Kernel :=
  if ¬prog.IsTest then tally else
  let (err, retval, after) := run_prog host prog tally.retval tally.kernel
  if err ≠ 0 ∨ retval ≠ 0 then
    ⟨after, retval, tally.ran + 1, tally.failures + 1,
      tally.printed ++ [.fail prog.name err retval]⟩
  else ⟨after, retval, tally.ran + 1, tally.failures, tally.printed ++ [.ok prog.name]⟩

def runTests (host : Host Object Kernel) (started : Started Kernel) : Tally Kernel :=
  started.programs.foldl (runTest host) ⟨started.kernel, started.retval, 0, 0, []⟩

def main (host : Host Object Kernel) (argv : List CString) (kernel : Kernel) : Int32 :=
  match start host argv kernel with
  | .error _ => 2
  | .ok started => (runTests host started).failures

/-- What the parent of the process sees. -/
def exitStatus (returned : Int32) : Nat := returned.toUInt32.toNat % 256

/-! ## What the tests did -/

/-- The program ran, and returned 0. -/
def Outcome.Passed (outcome : Outcome) : Prop := outcome.err = 0 ∧ outcome.retval = 0

instance (outcome : Outcome) : Decidable outcome.Passed := inferInstanceAs (Decidable (_ ∧ _))

/-- The outcomes of the tests, each run on the kernel that the test before left. -/
def outcomes (host : Host Object Kernel) : List Program → Kernel → List Outcome
  | [], _ => []
  | prog :: rest, kernel =>
      if prog.IsTest then
        (host.test_run prog kernel).1 :: outcomes host rest (host.test_run prog kernel).2
      else outcomes host rest kernel

/-- How many tests fail. -/
def failing (host : Host Object Kernel) (started : Started Kernel) : Nat :=
  (outcomes host started.programs started.kernel).countP fun outcome => ¬outcome.Passed

/-- Every program whose name starts with `test_` passes. -/
def AllPass (host : Host Object Kernel) (started : Started Kernel) : Prop :=
  ∀ outcome ∈ outcomes host started.programs started.kernel, outcome.Passed

theorem allPass_iff (host : Host Object Kernel) (started : Started Kernel) :
    AllPass host started ↔ failing host started = 0 := by
  rw [failing, List.countP_eq_zero]
  apply forall₂_congr
  intro outcome member
  simp

/-! ## The counter -/

theorem toInt32_eq_zero {value : UInt32} : value.toInt32 = 0 ↔ value = 0 := by
  constructor
  · exact congrArg Int32.toUInt32
  · exact congrArg UInt32.toInt32

/-- The loop counts a test exactly if it did not pass. -/
theorem runTest_test {host : Host Object Kernel} {prog : Program} (isTest : prog.IsTest)
    (tally : Tally Kernel) :
    (runTest host tally prog).kernel = (host.test_run prog tally.kernel).2 ∧
      (runTest host tally prog).failures =
        if (host.test_run prog tally.kernel).1.Passed then tally.failures
        else tally.failures + 1 := by
  rw [runTest, if_neg (not_not.mpr isTest), run_prog]
  by_cases failed : (host.test_run prog tally.kernel).1.err = 0
  · by_cases zero : (host.test_run prog tally.kernel).1.retval = 0
    · simp [failed, zero, Outcome.Passed]
    · have nonzero := mt toInt32_eq_zero.mp zero
      simp [failed, zero, nonzero, Outcome.Passed]
  · simp [failed, Outcome.Passed]

theorem runTest_other {host : Host Object Kernel} {prog : Program} (other : ¬prog.IsTest)
    (tally : Tally Kernel) : runTest host tally prog = tally := if_pos other

theorem failures_foldl (host : Host Object Kernel) (programs : List Program)
    (tally : Tally Kernel) :
    (programs.foldl (runTest host) tally).failures = tally.failures + Int32.ofNat
      ((outcomes host programs tally.kernel).countP fun outcome => ¬outcome.Passed) := by
  induction programs generalizing tally with
  | nil => exact (Int32.add_zero _).symm
  | cons prog rest inductionHypothesis =>
      rw [List.foldl_cons, inductionHypothesis, outcomes]
      by_cases isTest : prog.IsTest
      · obtain ⟨kernel, failures⟩ := @runTest_test _ _ host prog isTest tally
        rw [if_pos isTest, kernel, failures, List.countP_cons]
        by_cases passed : (host.test_run prog tally.kernel).1.Passed
        · simp [passed]
        · simp only [passed, if_false, not_false_eq_true, decide_true, if_true, Int32.ofNat_add]
          rw [Int32.add_assoc, Int32.add_comm 1]
          rfl
      · rw [runTest_other isTest, if_neg isTest]

/-- The runner returns the number of failing tests, as far as an `int` holds it. -/
theorem main_started {host : Host Object Kernel} {argv : List CString} {kernel : Kernel}
    {started : Started Kernel} (succeeded : start host argv kernel = .ok started) :
    main host argv kernel = Int32.ofNat (failing host started) := by
  rw [main, succeeded]
  exact (failures_foldl host started.programs _).trans (Int32.zero_add _)

theorem exitStatus_ofNat (count : Nat) : exitStatus (Int32.ofNat count) = count % 256 := by
  change (UInt32.ofNat count).toNat % 256 = count % 256
  rw [UInt32.toNat_ofNat']
  exact Nat.mod_mod_of_dvd count (by decide)

theorem exitStatus_main {host : Host Object Kernel} {argv : List CString} {kernel : Kernel}
    {started : Started Kernel} (succeeded : start host argv kernel = .ok started) :
    exitStatus (main host argv kernel) = failing host started % 256 := by
  rw [main_started succeeded, exitStatus_ofNat]

/-! ## Soundness -/

/-- Status 0 means that the tests pass, and only that. -/
def Sound (host : Host Object Kernel) (argv : List CString) (kernel : Kernel)
    (started : Started Kernel) : Prop :=
  exitStatus (main host argv kernel) = 0 ↔ AllPass host started

/-- Behind a successful reset the verdict is sound unless the failing tests are a
positive multiple of 256. -/
theorem main_sound_iff {host : Host Object Kernel} {argv : List CString} {kernel : Kernel}
    {started : Started Kernel} (succeeded : start host argv kernel = .ok started) :
    Sound host argv kernel started ↔
      (256 ∣ failing host started → failing host started = 0) := by
  rw [Sound, exitStatus_main succeeded, allPass_iff, ← Nat.dvd_iff_mod_eq_zero]
  constructor
  · exact fun sound => sound.mp
  · intro rarely
    refine ⟨rarely, ?_⟩
    intro none_
    rw [none_]
    exact Nat.dvd_zero 256

/-- An object with a reset and some copies of one test, all with the same outcome. -/
def copies (count : Nat) (outcome : Outcome) : Host Unit Unit where
  open_file _ _ := some ()
  load _ := 0
  programs _ := ⟨"arena_buddy_reset".toList, 3⟩ :: List.replicate count ⟨"test_one".toList, 4⟩
  test_run prog _ := (if prog.fd = 3 then ⟨0, 0⟩ else outcome, ())
  uninitialized := 0

theorem main_sound_one :
    start (copies 1 ⟨0, 1⟩) ["object".toList] () =
        .ok ⟨(copies 1 ⟨0, 1⟩).programs (), (), 0⟩ ∧
      Sound (copies 1 ⟨0, 1⟩) ["object".toList] () ⟨(copies 1 ⟨0, 1⟩).programs (), (), 0⟩ :=
  ⟨by rfl, (main_sound_iff (by rfl)).mpr (by decide)⟩

theorem start_copies (count : Nat) (outcome : Outcome) :
    start (copies count outcome) ["object".toList] () =
      .ok ⟨(copies count outcome).programs (), (), 0⟩ := by
  have found : findReset ((copies count outcome).programs ()) =
      some ⟨"arena_buddy_reset".toList, 3⟩ := by
    change List.foldl _ (some _) (List.replicate count _) = _
    induction count with
    | zero => rfl
    | succ count inductionHypothesis => exact inductionHypothesis
  have loaded : (copies count outcome).load () = 0 := rfl
  unfold start
  simp only [loaded, found]
  rfl

theorem failing_copies (count : Nat) {outcome : Outcome} (failed : ¬outcome.Passed) :
    failing (copies count outcome) ⟨(copies count outcome).programs (), (), 0⟩ = count := by
  have made (rest : Nat) : outcomes (copies count outcome)
      (List.replicate rest ⟨"test_one".toList, 4⟩) () = List.replicate rest outcome := by
    induction rest with
    | zero => rfl
    | succ rest inductionHypothesis =>
        rw [List.replicate_succ, outcomes, if_pos (by decide)]
        exact congrArg (outcome :: ·) inductionHypothesis
  change ((outcomes _ (List.replicate count _) ()).countP _) = count
  rw [made count, List.countP_replicate, if_pos (by simpa using failed)]

/-- All of 256 tests fail, and the status is 0. -/
theorem main_sound_wraps :
    ¬∀ started, start (copies 256 ⟨0, 1⟩) ["object".toList] () = .ok started →
      Sound (copies 256 ⟨0, 1⟩) ["object".toList] () started := by
  intro sound
  have started := start_copies 256 ⟨0, 1⟩
  have verdict := sound _ started
  have count := @failing_copies 256 ⟨0, 1⟩ (by decide)
  rw [Sound, exitStatus_main started, allPass_iff, count] at verdict
  exact absurd (verdict.mp (by decide)) (by decide)

end LibarenaRs.Runner
