import Mathlib.Data.List.Perm.Subperm
import LibarenaRs.Glue.Budget
import Mathlib.Algebra.Ring.Nat

/-!
# Runs of the memory routines on one budget

Between two calls the program does with the memory what it likes, and other loops
of it may use up iterations.  Every call returns.  It has done its work exactly if
what was left of the budget was enough for it.
-/

namespace LibarenaRs.Glue

open LibarenaRs.Memory

inductive Call where
  | memcpy (dst src n : UInt64)
  | arenaMemset (s : UInt64) (c : UInt8) (n : UInt64)
  | memset (s : UInt64) (c : Int32) (n : UInt64)
  | memcmp (a b n : UInt64)
  deriving DecidableEq, Repr

namespace Call

/-- The machine behind the call, and what a comparison answers. -/
def run (machine : Machine Nat) : Call → Option Int × Machine Nat
  | .memcpy dst src n => (none, (bpf_arena_memcpy mayGoto 0 dst src n machine).2)
  | .arenaMemset s c n => (none, (bpf_arena_memset mayGoto 0 s c n machine).2)
  | .memset s c n => (none, (Glue.memset mayGoto 0 s c n machine).2.2)
  | .memcmp a b n =>
      let (answer, _, after) := bpf_arena_memcmp mayGoto 0 a b n machine
      (some answer, after)

/-- This address was written from `before` to `after`. -/
def Wrote (before after : Machine Nat) (address : UInt64) : Prop :=
  ∃ logged, after.stores = logged ++ before.stores ∧ address ∈ logged

/-- All `n` bytes at `base` were written. -/
def WroteAll (before after : Machine Nat) (base n : UInt64) : Prop :=
  ∀ i < n.toNat, Wrote before after (base + UInt64.ofNat i)

/-- All bytes of a fill were written, and hold its value. -/
def FillDone (before after : Machine Nat) (s : UInt64) (c : UInt8) (n : UInt64) : Prop :=
  WroteAll before after s n ∧ ∀ i < n.toNat, after.memory (s + UInt64.ofNat i) = c

/-- The call has processed all of its bytes. -/
def Complete (before : Machine Nat) (call : Call) : Prop :=
  match call with
  | .memcpy dst src n =>
      WroteAll before (call.run before).2 dst n ∧
        (Fits dst n → Fits src n → Moved before (call.run before).2 dst src n)
  | .arenaMemset s c n => FillDone before (call.run before).2 s c n
  | .memset s c n => FillDone before (call.run before).2 s c.toUInt32.toUInt8 n
  | .memcmp a b n =>
      (call.run before).1 = some 0 → bytesAt before.memory a n = bytesAt before.memory b n

/-- The iterations of the call on an unlimited budget. -/
def cost (memory : Memory) : Call → Nat
  | .memcpy _ _ n => n.toNat
  | .arenaMemset _ _ n => n.toNat
  | .memset _ _ n => n.toNat
  | .memcmp a b n => compared (bytesAt memory a n) (bytesAt memory b n)

/-- The iterations the call must have; an answer that the bytes are equal needs
none where they are. -/
def need (memory : Memory) (call : Call) : Nat :=
  match call with
  | .memcmp a b n =>
      if bytesAt memory a n = bytesAt memory b n then 0 else call.cost memory
  | _ => call.cost memory

end Call

/-! ## Writes that are missing -/

theorem add_ofNat_cancel {base : UInt64} {i j n : Nat} (iBelow : i < n) (jBelow : j < n)
    (bounded : n < 2 ^ 64) (same : base + UInt64.ofNat i = base + UInt64.ofNat j) : i = j := by
  have indices := (UInt64.add_right_inj base).mp same
  have values := congrArg UInt64.toNat indices
  rwa [UInt64.toNat_ofNat_of_lt' (by simp only [UInt64.size]; omega),
    UInt64.toNat_ofNat_of_lt' (by simp only [UInt64.size]; omega)] at values

/-- Fewer indices than bytes leave a byte out. -/
theorem not_wroteAll {before after : Machine Nat} {base n : UInt64} {indices : List Nat}
    (stores : after.stores =
      (indices.map fun k => base + UInt64.ofNat k).reverse ++ before.stores)
    (bounded : ∀ k ∈ indices, k < n.toNat) (few : indices.length < n.toNat) :
    ¬Call.WroteAll before after base n := by
  intro all
  have covered : List.range n.toNat ⊆ indices := by
    intro i member
    have below := List.mem_range.mp member
    obtain ⟨logged, split, inLog⟩ := all i below
    have same := List.append_cancel_right (stores.symm.trans split)
    rw [← same, List.mem_reverse, List.mem_map] at inLog
    obtain ⟨k, among, address⟩ := inLog
    rwa [← add_ofNat_cancel (bounded k among) below n.toNat_lt address]
  have count := (List.subperm_of_subset List.nodup_range covered).length_le
  rw [List.length_range] at count
  omega

theorem wroteAll {before after : Machine Nat} {base n : UInt64} {indices : List Nat}
    (stores : after.stores =
      (indices.map fun k => base + UInt64.ofNat k).reverse ++ before.stores)
    (complete : ∀ i < n.toNat, i ∈ indices) : Call.WroteAll before after base n := by
  intro i below
  refine ⟨_, stores, ?_⟩
  rw [List.mem_reverse]
  exact List.mem_map_of_mem (complete i below)

theorem moves_fst (dst src : UInt64) (indices : List Nat) :
    (moves dst src indices).map Prod.fst = indices.map fun k => dst + UInt64.ofNat k := by
  rw [moves, List.map_map]
  rfl

/-! ## One call -/

section OneCall

variable {machine : Machine Nat}

/-- The bytes a copy moves, in the order of the source. -/
theorem bpf_arena_memcpy_mayGoto (dst src n : UInt64) :
    ∃ indices : List Nat, indices.length = min n.toNat machine.budget ∧
      (∀ k ∈ indices, k < n.toNat) ∧
      (n.toNat ≤ machine.budget → ∀ i < n.toNat, i ∈ indices) ∧
      Copied machine (bpf_arena_memcpy mayGoto 0 dst src n machine).2 (moves dst src indices) ∧
      (bpf_arena_memcpy mayGoto 0 dst src n machine).2.budget = machine.budget - n.toNat := by
  unfold bpf_arena_memcpy
  split
  · have made := @copyForward_mayGoto dst src n 0 machine
    rw [UInt64.toNat_zero, Nat.sub_zero] at made
    refine ⟨_, List.length_range', ?_, ?_, made.1, made.2⟩
    · intro k member
      have range := (List.mem_range'_1.mp member).2
      omega
    · intro enough i below
      rw [Nat.min_eq_left enough]
      exact List.mem_range'_1.mpr ⟨Nat.zero_le i, by omega⟩
  · have made := @copyBackward_mayGoto dst src n 0 machine
    rw [UInt64.toNat_zero, Nat.sub_zero] at made
    refine ⟨_, ?_, ?_, ?_, made.1, made.2⟩
    · rw [List.length_take, List.length_reverse, List.length_range, Nat.min_comm]
    · intro k member
      exact List.mem_range.mp (List.mem_reverse.mp (List.mem_of_mem_take member))
    · intro enough i below
      have whole : (List.range n.toNat).reverse.take machine.budget =
          (List.range n.toNat).reverse := by
        apply List.take_of_length_le
        rwa [List.length_reverse, List.length_range]
      rw [whole, List.mem_reverse]
      exact List.mem_range.mpr below

/-- What a fill does on a budget. -/
theorem fillDone_iff (s : UInt64) (c : UInt8) (n : UInt64) :
    (Call.FillDone machine (fillBytes mayGoto s c n 0 machine).2 s c n ↔
        n.toNat ≤ machine.budget) ∧
      (fillBytes mayGoto s c n 0 machine).2.budget = machine.budget - n.toNat := by
  have made := @fillBytes_mayGoto n 0 machine s c
  rw [UInt64.toNat_zero, Nat.sub_zero] at made
  refine ⟨?_, made.2⟩
  constructor
  · rintro ⟨all, -⟩
    by_contra short
    refine not_wroteAll made.1.stores ?_ ?_ all
    · intro k member
      have range := (List.mem_range'_1.mp member).2
      omega
    · rw [List.length_range']
      omega
  · intro enough
    have complete : ∀ i < n.toNat, i ∈ List.range' 0 (min n.toNat machine.budget) := by
      intro i below
      rw [Nat.min_eq_left enough]
      exact List.mem_range'_1.mpr ⟨Nat.zero_le i, by omega⟩
    refine ⟨wroteAll made.1.stores complete, ?_⟩
    intro i below
    rw [made.1.memory, if_pos (List.mem_map_of_mem (complete i below))]

theorem bpf_arena_memcmp_mayGoto (a b n : UInt64) :
    (bpf_arena_memcmp mayGoto 0 a b n machine).1 =
        lexSign ((bytesAt machine.memory a n).take machine.budget)
          ((bytesAt machine.memory b n).take machine.budget) ∧
      (bpf_arena_memcmp mayGoto 0 a b n machine).2.2.budget =
        machine.budget - compared (bytesAt machine.memory a n) (bytesAt machine.memory b n) := by
  have made := @compareBytes_mayGoto n 0 machine a b
  rw [UInt64.toNat_zero, Nat.sub_zero] at made
  exact made

namespace Call

theorem budget_run (call : Call) :
    (call.run machine).2.budget = machine.budget - call.cost machine.memory := by
  cases call with
  | memcpy dst src n =>
      obtain ⟨_, -, -, -, -, budget⟩ := @bpf_arena_memcpy_mayGoto machine dst src n
      exact budget
  | arenaMemset s c n => exact (fillDone_iff s c n).2
  | memset s c n => exact (fillDone_iff s _ n).2
  | memcmp a b n => exact (bpf_arena_memcmp_mayGoto a b n).2

/-- A call is complete exactly if the budget has the iterations it needs. -/
theorem complete_iff (call : Call) :
    call.Complete machine ↔ call.need machine.memory ≤ machine.budget := by
  cases call with
  | memcpy dst src n =>
      obtain ⟨indices, length, bounded, complete, copied, -⟩ :=
        @bpf_arena_memcpy_mayGoto machine dst src n
      have stores := copied.stores
      rw [moves_fst] at stores
      constructor
      · rintro ⟨all, -⟩
        by_contra short
        have missing : ¬n.toNat ≤ machine.budget := short
        exact not_wroteAll stores bounded (by omega) all
      · intro enough
        refine ⟨wroteAll stores (complete enough), ?_⟩
        intro dstFits srcFits
        exact bpf_arena_memcpy_moved mayGoto dst src n machine dstFits srcFits
          (passes_mayGoto enough)
  | arenaMemset s c n => exact (fillDone_iff s c n).1
  | memset s c n => exact (fillDone_iff s _ n).1
  | memcmp a b n =>
      have lengths := length_bytesAt machine.memory a b n
      have cut : ((bytesAt machine.memory a n).take machine.budget).length =
          ((bytesAt machine.memory b n).take machine.budget).length := by
        rw [List.length_take, List.length_take, lengths]
      have equal : (Call.memcmp a b n).Complete machine ↔
          ((bytesAt machine.memory a n).take machine.budget =
              (bytesAt machine.memory b n).take machine.budget →
            bytesAt machine.memory a n = bytesAt machine.memory b n) := by
        rw [← lexSign_eq_zero cut, ← (bpf_arena_memcmp_mayGoto a b n).1]
        exact imp_congr_left ⟨Option.some.inj, congrArg some⟩
      rw [equal, take_eq_take_iff lengths, need]
      by_cases same : bytesAt machine.memory a n = bytesAt machine.memory b n
      · simp [same]
      · rw [if_neg same]
        simp only [same, false_or, imp_false, Nat.not_lt]
        rfl

end Call

end OneCall

/-! ## Runs -/

/-- A call, with the memory the program has made for it and the iterations that
other loops took since the call before. -/
structure Event where
  spent : Nat
  memory : Memory
  call : Call

def Event.start (budget : Nat) (event : Event) : Machine Nat :=
  ⟨event.memory, budget - event.spent, [], []⟩

/-- Every call of the run has processed all of its bytes when it returns. -/
def AllComplete : Nat → List Event → Prop
  | _, [] => True
  | budget, event :: rest =>
      event.call.Complete (event.start budget) ∧
        AllComplete (event.call.run (event.start budget)).2.budget rest

/-- The iterations of a part of a run. -/
def total (events : List Event) : Nat :=
  (events.map fun event => event.spent + event.call.cost event.memory).sum

/-- Every call of a run is complete exactly if, behind everything that ran before
it, the budget has the iterations it needs. -/
theorem memory_routines_complete_iff (budget : Nat) (events : List Event) :
    AllComplete budget events ↔
      ∀ front event back, events = front ++ event :: back →
        event.call.need event.memory ≤ budget - (total front + event.spent) := by
  induction events generalizing budget with
  | nil =>
      constructor
      · rintro - front event back split
        cases front <;> cases split
      · exact fun _ => trivial
  | cons first rest inductionHypothesis =>
      rw [AllComplete, Call.complete_iff, Call.budget_run, inductionHypothesis]
      constructor
      · rintro ⟨enough, later⟩ front event back split
        cases front with
        | nil =>
            obtain ⟨rfl, rfl⟩ := List.cons.inj split
            simpa [total, Event.start] using enough
        | cons head front =>
            obtain ⟨rfl, tail⟩ := List.cons.inj split
            have bound := later front event back tail
            simp only [Event.start, total, List.map_cons, List.sum_cons] at bound ⊢
            omega
      · intro enough
        constructor
        · simpa [total, Event.start] using enough [] first rest rfl
        · intro front event back split
          have bound := enough (first :: front) event back (by rw [split]; rfl)
          simp only [Event.start, total, List.map_cons, List.sum_cons] at bound ⊢
          omega

/-- A copy of the one byte that is 1. -/
def byteCopy : Event where
  spent := 0
  memory := fun address => if address = 0x2000 then 1 else 0
  call := .memcpy 0x1000 0x2000 1

/-- With no iteration left the byte at the target stays 0. -/
theorem memory_routines_exhausted :
    ¬AllComplete 0 [byteCopy] ∧ (byteCopy.call.run (byteCopy.start 0)).2.memory 0x1000 = 0 := by
  constructor
  · intro complete
    have enough := (Call.complete_iff _).mp complete.1
    exact absurd enough (by decide)
  · obtain ⟨indices, length, -, -, copied, -⟩ :=
      @bpf_arena_memcpy_mayGoto (byteCopy.start 0) 0x1000 0x2000 1
    have nothing : indices = [] := List.eq_nil_of_length_eq_zero length
    rw [nothing] at copied
    exact congrFun copied.memory 0x1000

end LibarenaRs.Glue
