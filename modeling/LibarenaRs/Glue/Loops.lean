import Mathlib.Algebra.Group.Nat.Defs
import Mathlib.Logic.Function.Basic

/-!
# The glue's byte loops

`csrc/arena_glue.bpf.c`, lines 26 to 82.  Addresses and counters are `u64`.
The loops consult libarena's `can_loop` before every iteration, so the model
takes it as an oracle on a budget state; the base `zero` of every counter is
libarena's variable of that name.  Loads and stores are logged.
-/

namespace LibarenaRs.Glue

abbrev Memory := UInt64 → UInt8

/-- `can_loop`: whether another iteration may start, and the budget left. -/
abbrev CanLoop (Budget : Type*) := Budget → Bool × Budget

structure Machine (Budget : Type*) where
  memory : Memory
  budget : Budget
  /-- Addresses read and written, latest first. -/
  loads : List UInt64
  stores : List UInt64

/-- Why a loop ended. -/
inductive Exit where
  /-- The counter reached `n`. -/
  | bound
  /-- `can_loop` was false. -/
  | canLoop
  /-- The `k >= n` check of the backward walk broke out. -/
  | guard
  deriving DecidableEq, Repr

variable {Budget : Type*}

def Machine.load (machine : Machine Budget) (address : UInt64) :
    UInt8 × Machine Budget :=
  (machine.memory address, { machine with loads := address :: machine.loads })

def Machine.store (machine : Machine Budget) (address : UInt64) (byte : UInt8) :
    Machine Budget :=
  { machine with
    memory := Function.update machine.memory address byte
    stores := address :: machine.stores }

def Machine.spend (machine : Machine Budget) (budget : Budget) : Machine Budget :=
  { machine with budget := budget }

/-- One assignment `target[…] = source[…]` of a byte. -/
def Machine.copyByte (machine : Machine Budget) (target source : UInt64) :
    Machine Budget :=
  let (byte, loaded) := machine.load source
  loaded.store target byte

theorem toNat_add_one_of_lt {i n : UInt64} (below : i < n) :
    (i + 1).toNat = i.toNat + 1 := by
  have bound := UInt64.lt_iff_toNat_lt.mp below
  have size := n.toNat_lt
  rw [UInt64.toNat_add]
  exact Nat.mod_eq_of_lt (by simp only [UInt64.toNat_one]; omega)

/-- The measure of every loop below. -/
theorem remaining_decreases {i n : UInt64} (below : i < n) :
    n.toNat - (i + 1).toNat < n.toNat - i.toNat := by
  have step := toNat_add_one_of_lt below
  have bound := UInt64.lt_iff_toNat_lt.mp below
  omega

/-- The loop of the `dst < src` branch of `bpf_arena_memcpy`. -/
def copyForward (canLoop : CanLoop Budget) (dst src n i : UInt64)
    (machine : Machine Budget) : Exit × Machine Budget :=
  if i < n then
    let (continues, budget) := canLoop machine.budget
    if continues then
      copyForward canLoop dst src n (i + 1)
        ((machine.spend budget).copyByte (dst + i) (src + i))
    else (.canLoop, machine.spend budget)
  else (.bound, machine)
termination_by n.toNat - i.toNat
decreasing_by exact remaining_decreases (by assumption)

/-- The loop of the other branch.  The `asm volatile` barrier leaves `k` as it is. -/
def copyBackward (canLoop : CanLoop Budget) (dst src n i : UInt64)
    (machine : Machine Budget) : Exit × Machine Budget :=
  if i < n then
    let (continues, budget) := canLoop machine.budget
    if continues then
      let k := n - 1 - i
      if k ≥ n then (.guard, machine.spend budget)
      else
        copyBackward canLoop dst src n (i + 1)
          ((machine.spend budget).copyByte (dst + k) (src + k))
    else (.canLoop, machine.spend budget)
  else (.bound, machine)
termination_by n.toNat - i.toNat
decreasing_by exact remaining_decreases (by assumption)

def bpf_arena_memcpy (canLoop : CanLoop Budget) (zero dst src n : UInt64)
    (machine : Machine Budget) : Exit × Machine Budget :=
  if dst < src then copyForward canLoop dst src n zero machine
  else copyBackward canLoop dst src n zero machine

/-- The loop of `bpf_arena_memcmp`: `some` carries the early `return`. -/
def compareBytes (canLoop : CanLoop Budget) (a b n i : UInt64)
    (machine : Machine Budget) : Option Int × Exit × Machine Budget :=
  if i < n then
    let (continues, budget) := canLoop machine.budget
    if continues then
      let (x, machine) := (machine.spend budget).load (a + i)
      let (y, machine) := machine.load (b + i)
      if x ≠ y then (some (if x < y then -1 else 1), .bound, machine)
      else compareBytes canLoop a b n (i + 1) machine
    else (none, .canLoop, machine.spend budget)
  else (none, .bound, machine)
termination_by n.toNat - i.toNat
decreasing_by exact remaining_decreases (by assumption)

def bpf_arena_memcmp (canLoop : CanLoop Budget) (zero a b n : UInt64)
    (machine : Machine Budget) : Int × Exit × Machine Budget :=
  let (early, exit, machine) := compareBytes canLoop a b n zero machine
  (early.getD 0, exit, machine)

/-- The fill loop that `memset` and `bpf_arena_memset` share. -/
def fillBytes (canLoop : CanLoop Budget) (s : UInt64) (c : UInt8) (n i : UInt64)
    (machine : Machine Budget) : Exit × Machine Budget :=
  if i < n then
    let (continues, budget) := canLoop machine.budget
    if continues then
      fillBytes canLoop s c n (i + 1) ((machine.spend budget).store (s + i) c)
    else (.canLoop, machine.spend budget)
  else (.bound, machine)
termination_by n.toNat - i.toNat
decreasing_by exact remaining_decreases (by assumption)

/-- `memset`: the `int` argument is cut to its low byte, the pointer returned. -/
def memset (canLoop : CanLoop Budget) (zero s : UInt64) (c : Int32) (n : UInt64)
    (machine : Machine Budget) : UInt64 × Exit × Machine Budget :=
  (s, fillBytes canLoop s c.toUInt32.toUInt8 n zero machine)

def bpf_arena_memset (canLoop : CanLoop Budget) (zero s : UInt64) (c : UInt8)
    (n : UInt64) (machine : Machine Budget) : Exit × Machine Budget :=
  fillBytes canLoop s c n zero machine

end LibarenaRs.Glue
