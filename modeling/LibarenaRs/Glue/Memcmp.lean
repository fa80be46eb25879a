import LibarenaRs.Glue.Memcpy
import LibarenaRs.Memory.Lexicographic

/-!
# `bpf_arena_memcmp` is the order of unsigned bytes

The loop stops at the first difference, so its answer is the sign of the
lexicographic comparison of the two byte sequences.
-/

namespace LibarenaRs.Glue

open LibarenaRs.Memory

variable {Budget : Type*}

/-- The unsigned values of `count` bytes from index `i` on. -/
def bytesFrom (memory : Memory) (base : UInt64) (i count : Nat) : List Nat :=
  (List.range' i count).map fun k => (memory (base + UInt64.ofNat k)).toNat

/-- The `n` bytes from `base`. -/
def bytesAt (memory : Memory) (base n : UInt64) : List Nat := bytesFrom memory base 0 n.toNat

theorem bytesFrom_succ (memory : Memory) (base : UInt64) (i count : Nat) :
    bytesFrom memory base i (count + 1) =
      (memory (base + UInt64.ofNat i)).toNat :: bytesFrom memory base (i + 1) count := by
  rw [bytesFrom, List.range'_succ, List.map_cons, bytesFrom]

theorem length_bytesFrom (memory : Memory) (base : UInt64) (i count : Nat) :
    (bytesFrom memory base i count).length = count := by
  rw [bytesFrom, List.length_map, List.length_range']

/-- What a comparison leaves behind: it only reads. -/
structure OnlyRead (before after : Machine Budget) : Prop where
  memory : after.memory = before.memory
  stores : after.stores = before.stores

/-- One iteration that is not stopped. -/
theorem compareBytes_step (canLoop : CanLoop Budget) {a b n i : UInt64}
    {machine : Machine Budget} (below : i < n) (continues : (canLoop machine.budget).1 = true) :
    compareBytes canLoop a b n i machine =
      let read : Machine Budget :=
        { machine with
          budget := (canLoop machine.budget).2
          loads := (b + i) :: (a + i) :: machine.loads }
      if machine.memory (a + i) ≠ machine.memory (b + i) then
        (some (if machine.memory (a + i) < machine.memory (b + i) then -1 else 1), .bound, read)
      else compareBytes canLoop a b n (i + 1) read := by
  rw [compareBytes, if_pos below]
  simp only [continues, if_true]
  rfl

/-- From index `i` on the loop answers with the sign of what is left. -/
theorem compareBytes_sign (canLoop : CanLoop Budget) (a b n i : UInt64)
    (machine : Machine Budget)
    (passes : Passes canLoop machine.budget (n.toNat - i.toNat)) :
    (compareBytes canLoop a b n i machine).1.getD 0 =
        lexSign (bytesFrom machine.memory a i.toNat (n.toNat - i.toNat))
          (bytesFrom machine.memory b i.toNat (n.toNat - i.toNat)) ∧
      (compareBytes canLoop a b n i machine).2.1 = .bound ∧
      OnlyRead machine (compareBytes canLoop a b n i machine).2.2 := by
  induction remaining : n.toNat - i.toNat generalizing i machine with
  | zero =>
      have done : ¬i < n := by
        rw [UInt64.lt_iff_toNat_lt]
        omega
      rw [compareBytes, if_neg done]
      exact ⟨rfl, rfl, rfl, rfl⟩
  | succ count inductionHypothesis =>
      have below : i < n := UInt64.lt_iff_toNat_lt.mpr (by omega)
      rw [remaining] at passes
      have successor := toNat_add_one_of_lt below
      have remainingTail : n.toNat - (i + 1).toNat = count := by omega
      rw [compareBytes_step canLoop below passes.1, bytesFrom_succ, bytesFrom_succ,
        UInt64.ofNat_toNat]
      by_cases different : machine.memory (a + i) ≠ machine.memory (b + i)
      · have values : (machine.memory (a + i)).toNat ≠ (machine.memory (b + i)).toNat :=
          fun same => different (UInt8.toNat_inj.mp same)
        simp only [if_pos different, true_and]
        refine ⟨?_, rfl, rfl⟩
        simp only [lexSign, Option.getD_some, if_pos values, UInt8.lt_iff_toNat_lt]
      · simp only [if_neg different]
        have same : machine.memory (a + i) = machine.memory (b + i) := not_not.mp different
        have tail := inductionHypothesis (i + 1)
          { machine with
            budget := (canLoop machine.budget).2
            loads := (b + i) :: (a + i) :: machine.loads }
          (by rw [remainingTail]; exact passes.2) remainingTail
        rw [successor] at tail
        rw [same, lexSign_cons_self]
        exact ⟨tail.1, tail.2.1, tail.2.2.memory, tail.2.2.stores⟩

/-- The answer of a comparison of `n` bytes that is never stopped early. -/
theorem bpf_arena_memcmp_sign (canLoop : CanLoop Budget) (a b n : UInt64)
    (machine : Machine Budget) (passes : Passes canLoop machine.budget n.toNat) :
    (bpf_arena_memcmp canLoop 0 a b n machine).1 =
        lexSign (bytesAt machine.memory a n) (bytesAt machine.memory b n) ∧
      OnlyRead machine (bpf_arena_memcmp canLoop 0 a b n machine).2.2 := by
  have run := compareBytes_sign canLoop a b n 0 machine (by simpa using passes)
  simp only [UInt64.toNat_zero, Nat.sub_zero] at run
  exact ⟨run.1, run.2.2⟩

theorem length_bytesAt (memory : Memory) (base other n : UInt64) :
    (bytesAt memory base n).length = (bytesAt memory other n).length := by
  rw [bytesAt, bytesAt, length_bytesFrom, length_bytesFrom]

/-- With `zero = 0` and a `can_loop` that holds for all `n` iterations the answer
is the lexicographic order of the unsigned bytes, and nothing is written.  So on
one memory the answer changes its sign with the order of the arguments, and it is
transitive. -/
theorem bpf_arena_memcmp_lexicographic (canLoop : CanLoop Budget) (a b n : UInt64)
    (machine : Machine Budget) (passes : Passes canLoop machine.budget n.toNat) :
    let answer := fun a b (machine : Machine Budget) => (bpf_arena_memcmp canLoop 0 a b n machine).1
    let ready := fun other : Machine Budget =>
      other.memory = machine.memory ∧ Passes canLoop other.budget n.toNat
    (answer a b machine = 0 ↔ bytesAt machine.memory a n = bytesAt machine.memory b n) ∧
      (answer a b machine = -1 ↔ bytesAt machine.memory a n < bytesAt machine.memory b n) ∧
      (answer a b machine = 1 ↔ bytesAt machine.memory b n < bytesAt machine.memory a n) ∧
      OnlyRead machine (bpf_arena_memcmp canLoop 0 a b n machine).2.2 ∧
      (∀ other, ready other → answer b a other = -answer a b machine) ∧
      ∀ c other last, ready other → ready last →
        (answer a b machine ≤ 0 → answer b c other ≤ 0 → answer a c last ≤ 0) ∧
        (answer a b machine = -1 → answer b c other = -1 → answer a c last = -1) := by
  intro answer ready
  obtain ⟨sign, onlyRead⟩ := bpf_arena_memcmp_sign canLoop a b n machine passes
  have signs : ∀ x y other, ready other →
      answer x y other = lexSign (bytesAt machine.memory x n) (bytesAt machine.memory y n) := by
    intro x y other isReady
    rw [← isReady.1]
    exact (bpf_arena_memcmp_sign canLoop x y n other isReady.2).1
  have lengths : ∀ x y, (bytesAt machine.memory x n).length = (bytesAt machine.memory y n).length :=
    fun x y => length_bytesAt machine.memory x y n
  have first : answer a b machine = _ := sign
  rw [first]
  refine ⟨lexSign_eq_zero (lengths a b), lexSign_eq_neg_one (lengths a b),
    lexSign_eq_one (lengths a b), onlyRead, ?_, ?_⟩
  · intro other isReady
    rw [signs b a other isReady]
    exact lexSign_swap (lengths a b)
  · intro c other last otherReady lastReady
    rw [signs b c other otherReady, signs a c last lastReady]
    constructor
    · rw [lexSign_nonpos (lengths a b), lexSign_nonpos (lengths b c), lexSign_nonpos (lengths a c)]
      exact le_trans
    · rw [lexSign_eq_neg_one (lengths a b), lexSign_eq_neg_one (lengths b c),
        lexSign_eq_neg_one (lengths a c)]
      exact lt_trans

/-- Four bytes compared with the four behind them. -/
theorem bpf_arena_memcmp_numbered :
    (bpf_arena_memcmp (fun budget => (true, budget)) 0 0x1000 0x1004 4 numbered).1 = -1 :=
  (bpf_arena_memcmp_lexicographic _ 0x1000 0x1004 4 numbered (passes_unlimited _)).2.1.mpr
    (by decide)

end LibarenaRs.Glue
