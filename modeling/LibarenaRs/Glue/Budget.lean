import LibarenaRs.Glue.Memcmp

/-!
# When the loop budget runs out

The kernel's `may_goto` gives all loops of a program one budget.  A routine whose
loop finds it used up returns as if it were done; what it has done by then is
what the budget allowed.
-/

namespace LibarenaRs.Glue

open LibarenaRs.Memory

/-- `may_goto` -/
def mayGoto : CanLoop Nat
  | 0 => (false, 0)
  | left + 1 => (true, left)

theorem mayGoto_succ (left : Nat) : mayGoto (left + 1) = (true, left) := rfl

theorem passes_mayGoto {budget count : Nat} (enough : count ≤ budget) :
    Passes mayGoto budget count := by
  induction count generalizing budget with
  | zero => trivial
  | succ count inductionHypothesis =>
      obtain ⟨left, rfl⟩ := Nat.exists_eq_add_of_le' (Nat.le_of_add_left_le enough)
      have fewer : count ≤ left := by omega
      exact ⟨rfl, inductionHypothesis fewer⟩

section Stopped

variable {dst src n i : UInt64} {machine : Machine Nat}

theorem not_lt_of_remaining (remaining : n.toNat - i.toNat = 0) : ¬i < n := by
  rw [UInt64.lt_iff_toNat_lt]
  omega

theorem lt_of_remaining {count : Nat} (remaining : n.toNat - i.toNat = count + 1) : i < n :=
  UInt64.lt_iff_toNat_lt.mpr (by omega)

theorem remaining_tail {count : Nat} (remaining : n.toNat - i.toNat = count + 1) :
    n.toNat - (i + 1).toNat = count := by
  have successor := toNat_add_one_of_lt (lt_of_remaining remaining)
  omega

/-! ## Copies -/

theorem copyForward_mayGoto :
    Copied machine (copyForward mayGoto dst src n i machine).2
        (moves dst src (List.range' i.toNat (min (n.toNat - i.toNat) machine.budget))) ∧
      (copyForward mayGoto dst src n i machine).2.budget =
        machine.budget - (n.toNat - i.toNat) := by
  induction remaining : n.toNat - i.toNat generalizing i machine with
  | zero =>
      rw [copyForward, if_neg (not_lt_of_remaining remaining), Nat.zero_min]
      exact ⟨Copied.refl machine, rfl⟩
  | succ count inductionHypothesis =>
      have below := lt_of_remaining remaining
      rw [copyForward, if_pos below]
      cases budget : machine.budget with
      | zero => exact ⟨⟨rfl, rfl, rfl⟩, (Nat.zero_sub _).symm⟩
      | succ left =>
          have tail := @inductionHypothesis (i + 1)
            ((machine.spend left).copyByte (dst + i) (src + i)) (remaining_tail remaining)
          rw [toNat_add_one_of_lt below] at tail
          rw [mayGoto_succ, Nat.add_sub_add_right, Nat.add_min_add_right, List.range'_succ]
          have kept : ((machine.spend left).copyByte (dst + i) (src + i)).budget = left := rfl
          rw [kept] at tail
          refine ⟨?_, tail.2⟩
          simpa [moves] using tail.1.step

/-- The indices that are copied when going down: the last ones. -/
theorem copyBackward_mayGoto :
    Copied machine (copyBackward mayGoto dst src n i machine).2
        (moves dst src
          ((List.range (n.toNat - i.toNat)).reverse.take machine.budget)) ∧
      (copyBackward mayGoto dst src n i machine).2.budget =
        machine.budget - (n.toNat - i.toNat) := by
  induction remaining : n.toNat - i.toNat generalizing i machine with
  | zero =>
      rw [copyBackward, if_neg (not_lt_of_remaining remaining), List.range_zero, List.reverse_nil,
        List.take_nil]
      exact ⟨Copied.refl machine, rfl⟩
  | succ count inductionHypothesis =>
      have below := lt_of_remaining remaining
      have size := n.toNat_lt
      have index : n - 1 - i = UInt64.ofNat count := by
        rw [ofNat_toNat_sub below, remaining, Nat.add_sub_cancel]
      have guardHolds : ¬UInt64.ofNat count ≥ n := by
        rw [ge_iff_le, UInt64.le_iff_toNat_le,
          UInt64.toNat_ofNat_of_lt' (by simp only [UInt64.size]; omega)]
        omega
      rw [copyBackward, if_pos below]
      cases budget : machine.budget with
      | zero => exact ⟨⟨rfl, rfl, rfl⟩, (Nat.zero_sub _).symm⟩
      | succ left =>
          have tail := @inductionHypothesis (i + 1)
            ((machine.spend left).copyByte (dst + UInt64.ofNat count) (src + UInt64.ofNat count))
            (remaining_tail remaining)
          simp only [mayGoto_succ, if_true, index, if_neg guardHolds, Nat.add_sub_add_right,
            List.range_succ, List.reverse_append, List.reverse_singleton, List.singleton_append,
            List.take_succ_cons]
          exact ⟨tail.1.step, tail.2⟩

/-! ## Fills -/

/-- From `before` to `after` the bytes at these indices were set, and nothing else. -/
structure Filled (before after : Machine Nat) (s : UInt64) (c : UInt8) (indices : List Nat) :
    Prop where
  memory : ∀ address, after.memory address =
    if address ∈ indices.map (fun k => s + UInt64.ofNat k) then c else before.memory address
  stores : after.stores = (indices.map fun k => s + UInt64.ofNat k).reverse ++ before.stores

theorem Filled.refl (machine : Machine Nat) (s : UInt64) (c : UInt8) : Filled machine machine s c [] :=
  ⟨fun address => by simp, rfl⟩

theorem Filled.step {before after : Machine Nat} {budget k : Nat} {s : UInt64} {c : UInt8}
    {indices : List Nat}
    (rest : Filled ((before.spend budget).store (s + UInt64.ofNat k) c) after s c indices) :
    Filled before after s c (k :: indices) := by
  constructor
  · intro address
    rw [rest.memory]
    by_cases later : address ∈ indices.map fun k => s + UInt64.ofNat k
    · rw [if_pos later, List.map_cons, if_pos (List.mem_cons_of_mem _ later)]
    · rw [if_neg later, List.map_cons]
      by_cases here : address = s + UInt64.ofNat k
      · rw [here, if_pos List.mem_cons_self]
        exact Function.update_self _ _ _
      · rw [if_neg fun member => (List.mem_cons.mp member).elim here later]
        exact Function.update_of_ne here _ _
  · rw [rest.stores]
    simp [Machine.store, Machine.spend]

theorem fillBytes_mayGoto {s : UInt64} {c : UInt8} :
    Filled machine (fillBytes mayGoto s c n i machine).2 s c
        (List.range' i.toNat (min (n.toNat - i.toNat) machine.budget)) ∧
      (fillBytes mayGoto s c n i machine).2.budget = machine.budget - (n.toNat - i.toNat) := by
  induction remaining : n.toNat - i.toNat generalizing i machine with
  | zero =>
      rw [fillBytes, if_neg (not_lt_of_remaining remaining), Nat.zero_min]
      exact ⟨Filled.refl machine s c, rfl⟩
  | succ count inductionHypothesis =>
      have below := lt_of_remaining remaining
      rw [fillBytes, if_pos below]
      cases budget : machine.budget with
      | zero =>
          rw [Nat.min_zero, List.range'_zero]
          exact ⟨⟨(Filled.refl machine s c).memory, rfl⟩, (Nat.zero_sub _).symm⟩
      | succ left =>
          have index : s + UInt64.ofNat i.toNat = s + i := by
            rw [UInt64.ofNat_toNat]
          have tail := @inductionHypothesis (i + 1)
            ((machine.spend left).store (s + UInt64.ofNat i.toNat) c) (remaining_tail remaining)
          rw [toNat_add_one_of_lt below] at tail
          rw [mayGoto_succ, Nat.add_sub_add_right, Nat.add_min_add_right, List.range'_succ, ← index]
          exact ⟨tail.1.step, tail.2⟩

/-! ## Comparisons -/

theorem compareBytes_mayGoto {a b : UInt64} :
    (compareBytes mayGoto a b n i machine).1.getD 0 =
        lexSign ((bytesFrom machine.memory a i.toNat (n.toNat - i.toNat)).take machine.budget)
          ((bytesFrom machine.memory b i.toNat (n.toNat - i.toNat)).take machine.budget) ∧
      (compareBytes mayGoto a b n i machine).2.2.budget =
        machine.budget - compared (bytesFrom machine.memory a i.toNat (n.toNat - i.toNat))
          (bytesFrom machine.memory b i.toNat (n.toNat - i.toNat)) := by
  induction remaining : n.toNat - i.toNat generalizing i machine with
  | zero =>
      rw [compareBytes, if_neg (not_lt_of_remaining remaining)]
      exact ⟨by simp [bytesFrom, lexSign], rfl⟩
  | succ count inductionHypothesis =>
      have below := lt_of_remaining remaining
      rw [bytesFrom_succ, bytesFrom_succ, UInt64.ofNat_toNat]
      cases budget : machine.budget with
      | zero =>
          rw [compareBytes, if_pos below, budget]
          exact ⟨rfl, (Nat.zero_sub _).symm⟩
      | succ left =>
          have continues : (mayGoto machine.budget).1 = true := by
            rw [budget]
            rfl
          have spent : (mayGoto machine.budget).2 = left := by
            rw [budget]
            rfl
          rw [compareBytes_step mayGoto below continues, spent]
          by_cases different : machine.memory (a + i) ≠ machine.memory (b + i)
          · have values : (machine.memory (a + i)).toNat ≠ (machine.memory (b + i)).toNat :=
              fun same => different (UInt8.toNat_inj.mp same)
            simp only [if_pos different]
            refine ⟨?_, ?_⟩
            · simp only [List.take_succ_cons, lexSign, Option.getD_some, if_pos values,
                UInt8.lt_iff_toNat_lt]
            · rw [compared, if_pos values, Nat.add_sub_cancel]
          · simp only [if_neg different]
            have same : machine.memory (a + i) = machine.memory (b + i) := not_not.mp different
            have tail := @inductionHypothesis (i + 1)
              { machine with budget := left, loads := (b + i) :: (a + i) :: machine.loads }
              (remaining_tail remaining)
            rw [toNat_add_one_of_lt below] at tail
            rw [same, List.take_succ_cons, List.take_succ_cons, lexSign_cons_self,
              compared_cons_self, Nat.add_sub_add_right]
            exact tail

end Stopped

end LibarenaRs.Glue
