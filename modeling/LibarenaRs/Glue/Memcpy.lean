import LibarenaRs.Glue.Loops
import LibarenaRs.Memory.SequentialCopy
import Mathlib.Data.List.Nodup
import Mathlib.Data.List.Range

/-!
# `bpf_arena_memcpy` is `memmove`

Both loops are sequences of one-byte moves.  Going up when the target lies
below the source, and down otherwise, no byte is read after it was written, so
the sequence has the effect of one simultaneous copy whatever the overlap.
-/

namespace LibarenaRs.Glue

open LibarenaRs.Memory

variable {Budget : Type*}

/-- `can_loop` is true the next `count` times it is asked. -/
def Passes (canLoop : CanLoop Budget) : Budget → Nat → Prop
  | _, 0 => True
  | budget, count + 1 =>
      (canLoop budget).1 = true ∧ Passes canLoop (canLoop budget).2 count

/-- The address lies in the `length` bytes from `base`. -/
def InRange (base length address : UInt64) : Prop :=
  base.toNat ≤ address.toNat ∧ address.toNat < base.toNat + length.toNat

/-- The `length` bytes from `base` do not wrap around the address space. -/
def Fits (base length : UInt64) : Prop :=
  base.toNat + length.toNat ≤ 2 ^ 64

/-- The byte moves of a copy that visits the given indices in order. -/
def moves (dst src : UInt64) (indices : List Nat) : List (UInt64 × UInt64) :=
  indices.map fun i => (dst + UInt64.ofNat i, src + UInt64.ofNat i)

/-- From `before` to `after` exactly these moves were carried out and logged. -/
structure Copied (before after : Machine Budget)
    (steps : List (UInt64 × UInt64)) : Prop where
  memory : after.memory = sequentialCopy steps before.memory
  loads : after.loads = (steps.map Prod.snd).reverse ++ before.loads
  stores : after.stores = (steps.map Prod.fst).reverse ++ before.stores

theorem Copied.refl (machine : Machine Budget) : Copied machine machine [] :=
  ⟨rfl, rfl, rfl⟩

theorem Copied.step {before after : Machine Budget}
    {steps : List (UInt64 × UInt64)} {budget : Budget} {target source : UInt64}
    (rest : Copied ((before.spend budget).copyByte target source) after steps) :
    Copied before after ((target, source) :: steps) := by
  refine ⟨rest.memory, ?_, ?_⟩
  · rw [rest.loads]
    simp [Machine.copyByte, Machine.load, Machine.store, Machine.spend]
  · rw [rest.stores]
    simp [Machine.copyByte, Machine.load, Machine.store, Machine.spend]

theorem ofNat_toNat_sub {n i : UInt64} (below : i < n) :
    n - 1 - i = UInt64.ofNat (n.toNat - i.toNat - 1) := by
  have bound := UInt64.lt_iff_toNat_lt.mp below
  have size := n.toNat_lt
  have positive : 1 ≤ n := UInt64.le_iff_toNat_le.mpr (by simp only [UInt64.toNat_one]; omega)
  have predecessor : (n - 1).toNat = n.toNat - 1 := by
    rw [UInt64.toNat_sub_of_le _ _ positive, UInt64.toNat_one]
  apply UInt64.toNat_inj.mp
  rw [UInt64.toNat_sub_of_le _ _ (UInt64.le_iff_toNat_le.mpr (by omega)), predecessor,
    UInt64.toNat_ofNat_of_lt' (by simp only [UInt64.size]; omega)]
  omega

theorem copyForward_copied (canLoop : CanLoop Budget) (dst src n i : UInt64)
    (machine : Machine Budget)
    (passes : Passes canLoop machine.budget (n.toNat - i.toNat)) :
    (copyForward canLoop dst src n i machine).1 = .bound ∧
      Copied machine (copyForward canLoop dst src n i machine).2
        (moves dst src (List.range' i.toNat (n.toNat - i.toNat))) := by
  induction remaining : n.toNat - i.toNat generalizing i machine with
  | zero =>
      have done : ¬i < n := by
        rw [UInt64.lt_iff_toNat_lt]
        omega
      rw [copyForward, if_neg done]
      exact ⟨rfl, Copied.refl machine⟩
  | succ count inductionHypothesis =>
      have below : i < n := UInt64.lt_iff_toNat_lt.mpr (by omega)
      rw [remaining] at passes
      have successor := toNat_add_one_of_lt below
      have remainingTail : n.toNat - (i + 1).toNat = count := by omega
      rw [copyForward, if_pos below]
      simp only [passes.1, if_true]
      have tail := inductionHypothesis (i + 1)
        ((machine.spend (canLoop machine.budget).2).copyByte (dst + i) (src + i))
        (by rw [remainingTail]; exact passes.2) remainingTail
      refine ⟨tail.1, ?_⟩
      rw [successor] at tail
      simpa [moves, List.range'_succ] using tail.2.step

theorem copyBackward_copied (canLoop : CanLoop Budget) (dst src n i : UInt64)
    (machine : Machine Budget)
    (passes : Passes canLoop machine.budget (n.toNat - i.toNat)) :
    (copyBackward canLoop dst src n i machine).1 = .bound ∧
      Copied machine (copyBackward canLoop dst src n i machine).2
        (moves dst src (List.range (n.toNat - i.toNat)).reverse) := by
  induction remaining : n.toNat - i.toNat generalizing i machine with
  | zero =>
      have done : ¬i < n := by
        rw [UInt64.lt_iff_toNat_lt]
        omega
      rw [copyBackward, if_neg done]
      exact ⟨rfl, Copied.refl machine⟩
  | succ count inductionHypothesis =>
      have below : i < n := UInt64.lt_iff_toNat_lt.mpr (by omega)
      rw [remaining] at passes
      have successor := toNat_add_one_of_lt below
      have size := n.toNat_lt
      have remainingTail : n.toNat - (i + 1).toNat = count := by omega
      have index : n - 1 - i = UInt64.ofNat count := by
        rw [ofNat_toNat_sub below, remaining, Nat.add_sub_cancel]
      -- The counter never passes `n`, so `n - 1 - i` cannot wrap.
      have guardHolds : ¬UInt64.ofNat count ≥ n := by
        rw [ge_iff_le, UInt64.le_iff_toNat_le,
          UInt64.toNat_ofNat_of_lt' (by simp only [UInt64.size]; omega)]
        omega
      rw [copyBackward, if_pos below]
      simp only [passes.1, if_true, index, if_neg guardHolds]
      have tail := inductionHypothesis (i + 1)
        ((machine.spend (canLoop machine.budget).2).copyByte
          (dst + UInt64.ofNat count) (src + UInt64.ofNat count))
        (by rw [remainingTail]; exact passes.2) remainingTail
      refine ⟨tail.1, ?_⟩
      simpa [moves, List.range_succ] using tail.2.step

theorem toNat_add_ofNat {base length : UInt64} (fits : Fits base length) {i : Nat}
    (below : i < length.toNat) :
    (base + UInt64.ofNat i).toNat = base.toNat + i := by
  unfold Fits at fits
  have size := length.toNat_lt
  rw [UInt64.toNat_add, UInt64.toNat_ofNat_of_lt' (by simp only [UInt64.size]; omega)]
  exact Nat.mod_eq_of_lt (by omega)

theorem inRange_add_ofNat {base length : UInt64} (fits : Fits base length) {i : Nat}
    (below : i < length.toNat) : InRange base length (base + UInt64.ofNat i) := by
  have address := toNat_add_ofNat fits below
  exact ⟨by omega, by omega⟩

/-- Indices below the length name different bytes of a range that does not wrap. -/
theorem add_ofNat_injective {base length : UInt64} (fits : Fits base length) {i j : Nat}
    (iBelow : i < length.toNat) (jBelow : j < length.toNat)
    (equality : base + UInt64.ofNat i = base + UInt64.ofNat j) : i = j := by
  have values := congrArg UInt64.toNat equality
  rw [toNat_add_ofNat fits iBelow, toNat_add_ofNat fits jBelow] at values
  omega

theorem moves_targets_nodup {dst src n : UInt64} (dstFits : Fits dst n)
    {indices : List Nat} (bounded : ∀ i ∈ indices, i < n.toNat)
    (distinct : indices.Nodup) :
    ((moves dst src indices).map Prod.fst).Nodup := by
  simp only [moves, List.map_map, Function.comp_def]
  exact distinct.map_on fun i iMember j jMember equality =>
    add_ofNat_injective dstFits (bounded i iMember) (bounded j jMember) equality

/-- Rising indices with the target below the source: each write falls short of
everything still to be read. -/
theorem readsBeforeWrites_ascending {dst src n : UInt64} (dstFits : Fits dst n)
    (srcFits : Fits src n) (direction : dst < src) :
    ReadsBeforeWrites (moves dst src (List.range' 0 n.toNat)) := by
  unfold ReadsBeforeWrites moves
  rw [List.pairwise_map]
  refine List.Pairwise.imp_of_mem ?_ List.pairwise_lt_range'
  intro i j iMember jMember ascending equality
  simp only [List.mem_range'_1] at iMember jMember
  have values := congrArg UInt64.toNat equality
  rw [toNat_add_ofNat dstFits (by omega), toNat_add_ofNat srcFits (by omega)] at values
  have below := UInt64.lt_iff_toNat_lt.mp direction
  omega

/-- Falling indices with the target at or above the source. -/
theorem readsBeforeWrites_descending {dst src n : UInt64} (dstFits : Fits dst n)
    (srcFits : Fits src n) (direction : ¬dst < src) :
    ReadsBeforeWrites (moves dst src (List.range n.toNat).reverse) := by
  unfold ReadsBeforeWrites moves
  rw [List.pairwise_map, List.pairwise_reverse]
  refine List.Pairwise.imp_of_mem ?_ List.pairwise_lt_range
  intro i j iMember jMember ascending equality
  simp only [List.mem_range] at iMember jMember
  have values := congrArg UInt64.toNat equality
  rw [toNat_add_ofNat dstFits jMember, toNat_add_ofNat srcFits iMember] at values
  rw [UInt64.lt_iff_toNat_lt] at direction
  omega

/-- What a copy of `n` bytes from `src` to `dst` must do, overlap or not. -/
structure Moved (before after : Machine Budget) (dst src n : UInt64) : Prop where
  copied : ∀ i : Nat, i < n.toNat →
    after.memory (dst + UInt64.ofNat i) = before.memory (src + UInt64.ofNat i)
  frame : ∀ address, ¬InRange dst n address →
    after.memory address = before.memory address
  loads : ∃ logged, after.loads = logged ++ before.loads ∧
    ∀ address ∈ logged, InRange src n address
  stores : ∃ logged, after.stores = logged ++ before.stores ∧
    ∀ address ∈ logged, InRange dst n address

/-- Any order of the `n` indices that reads before it writes is a `memmove`. -/
theorem Copied.moved {before after : Machine Budget} {dst src n : UInt64}
    (dstFits : Fits dst n) (srcFits : Fits src n) {indices : List Nat}
    (complete : ∀ i, i ∈ indices ↔ i < n.toNat) (distinct : indices.Nodup)
    (readsFirst : ReadsBeforeWrites (moves dst src indices))
    (copied : Copied before after (moves dst src indices)) :
    Moved before after dst src n := by
  have bounded : ∀ i ∈ indices, i < n.toNat := fun i => (complete i).mp
  refine ⟨?_, ?_, ⟨_, copied.loads, ?_⟩, ⟨_, copied.stores, ?_⟩⟩
  · intro i below
    rw [copied.memory]
    exact sequentialCopy_target readsFirst (moves_targets_nodup dstFits bounded distinct) _
      (List.mem_map.mpr ⟨i, (complete i).mpr below, rfl⟩)
  · intro address outside
    rw [copied.memory]
    apply sequentialCopy_frame
    rintro move membership rfl
    obtain ⟨i, iMember, rfl⟩ := List.mem_map.mp membership
    exact outside (inRange_add_ofNat dstFits (bounded i iMember))
  · intro address membership
    simp only [moves, List.mem_reverse, List.mem_map, exists_exists_and_eq_and] at membership
    obtain ⟨i, iMember, rfl⟩ := membership
    exact inRange_add_ofNat srcFits (bounded i iMember)
  · intro address membership
    simp only [moves, List.mem_reverse, List.mem_map, exists_exists_and_eq_and] at membership
    obtain ⟨i, iMember, rfl⟩ := membership
    exact inRange_add_ofNat dstFits (bounded i iMember)

section Unlimited

variable (canLoop : CanLoop Budget) (dst src n : UInt64) (machine : Machine Budget)

theorem bpf_arena_memcpy_bound (passes : Passes canLoop machine.budget n.toNat) :
    (bpf_arena_memcpy canLoop 0 dst src n machine).1 = .bound := by
  unfold bpf_arena_memcpy
  split
  · exact (copyForward_copied canLoop dst src n 0 machine (by simpa using passes)).1
  · exact (copyBackward_copied canLoop dst src n 0 machine (by simpa using passes)).1

/-- Each direction reads in front of what it writes. -/
theorem bpf_arena_memcpy_moved (dstFits : Fits dst n) (srcFits : Fits src n)
    (passes : Passes canLoop machine.budget n.toNat) :
    Moved machine (bpf_arena_memcpy canLoop 0 dst src n machine).2 dst src n := by
  unfold bpf_arena_memcpy
  split
  · rename_i direction
    have run := copyForward_copied canLoop dst src n 0 machine (by simpa using passes)
    simp only [UInt64.toNat_zero, Nat.sub_zero] at run
    exact run.2.moved dstFits srcFits (by simp [List.mem_range'_1])
      List.nodup_range' (readsBeforeWrites_ascending dstFits srcFits direction)
  · rename_i direction
    have run := copyBackward_copied canLoop dst src n 0 machine (by simpa using passes)
    simp only [UInt64.toNat_zero, Nat.sub_zero] at run
    exact run.2.moved dstFits srcFits (by simp)
      (List.nodup_reverse.mpr List.nodup_range)
      (readsBeforeWrites_descending dstFits srcFits direction)

end Unlimited

/-- With `zero = 0` and a `can_loop` that holds for all `n` iterations the copy
completes through the loop bound and is a `memmove` of `n` bytes. -/
theorem bpf_arena_memcpy_memmove (canLoop : CanLoop Budget) (dst src n : UInt64)
    (machine : Machine Budget) (dstFits : Fits dst n) (srcFits : Fits src n)
    (passes : Passes canLoop machine.budget n.toNat) :
    (bpf_arena_memcpy canLoop 0 dst src n machine).1 = .bound ∧
      Moved machine (bpf_arena_memcpy canLoop 0 dst src n machine).2 dst src n :=
  ⟨bpf_arena_memcpy_bound canLoop dst src n machine passes,
    bpf_arena_memcpy_moved canLoop dst src n machine dstFits srcFits passes⟩

theorem passes_unlimited (count : Nat) :
    Passes (fun budget : Unit => (true, budget)) () count := by
  induction count with
  | zero => trivial
  | succ count inductionHypothesis => exact ⟨rfl, inductionHypothesis⟩

/-- Every byte holds the low byte of its address. -/
def numbered : Machine Unit := ⟨fun address => address.toUInt8, (), [], []⟩

/-- Sixteen bytes moved up by four, over their own tail. -/
theorem bpf_arena_memcpy_memmove_overlapping :
    (bpf_arena_memcpy (fun budget => (true, budget)) 0 0x1004 0x1000 16 numbered).1 = .bound ∧
      Moved numbered
        (bpf_arena_memcpy (fun budget => (true, budget)) 0 0x1004 0x1000 16 numbered).2
        0x1004 0x1000 16 :=
  bpf_arena_memcpy_memmove _ _ _ _ numbered (by unfold Fits; decide) (by unfold Fits; decide)
    (passes_unlimited _)

end LibarenaRs.Glue
