import LibarenaRs.Alloc.Calls

/-!
# Runs of the allocator

The buddy allocator is any party that keeps its contract: it may answer a
request with 0 or with any block that meets the contract, and it may rewrite
memory that lies in no outstanding block.  A client holds the allocations it
was given and follows the rules of `GlobalAlloc`.
-/

namespace LibarenaRs.Alloc

/-- The bottom 32 bits, which name a byte of the arena. -/
def low (address : UInt64) : Nat := address.toNat % 2 ^ 32

/-- The arena lies in the 4 GiB window with the upper half `high`; the casts
keep the lower half, and the cast back restores the upper one. -/
structure Window (cast : AddressSpaceCast) (high : Nat) : Prop where
  cast_kern_low : ∀ u, low (cast.cast_kern u) = low u
  cast_user_high : ∀ p, low p ≠ 0 → (cast.cast_user p).toNat = high * 2 ^ 32 + low p

/-- A block of the buddy allocator, by its user-form address. -/
structure Block where
  base : UInt64
  bytes : Nat

def Block.Contains (block : Block) (address : Nat) : Prop :=
  block.base.toNat ≤ address ∧ address < block.base.toNat + block.bytes

def Block.Disjoint (first second : Block) : Prop :=
  ∀ address, ¬(first.Contains address ∧ second.Contains address)

/-- A block the buddy allocator may hand out for a request. -/
structure Block.Granted (high : Nat) (request : UInt64) (block : Block) : Prop where
  bytes_eq : block.bytes = blockSize request
  aligned : block.bytes ∣ block.base.toNat
  low_ne_zero : low block.base ≠ 0
  window : ∀ address, block.Contains address →
    high * 2 ^ 32 ≤ address ∧ address < high * 2 ^ 32 + 2 ^ 32

/-- A call to one of the two C symbols, with the answer of the first. -/
inductive Event where
  | malloc (size answer : UInt64)
  | free (address : UInt64)

/-- Blocks handed out and not freed since; the log has the latest call first. -/
def outstanding : List Event → List Block
  | [] => []
  | .malloc size answer :: earlier =>
      if answer = 0 then outstanding earlier
      else ⟨answer, blockSize size⟩ :: outstanding earlier
  | .free address :: earlier =>
      (outstanding earlier).filter fun block => block.base ≠ address

structure World where
  memory : UInt64 → UInt8
  events : List Event

section Execution

variable (cast : AddressSpaceCast) (high : Nat)

/-- The byte at this kernel-view address belongs to the block. -/
def Block.Holds (block : Block) (address : UInt64) : Prop :=
  (cast.cast_kern block.base).toNat ≤ address.toNat ∧
    address.toNat < (cast.cast_kern block.base).toNat + block.bytes

/-- The bytes of these blocks are what they were. -/
def KeepsBlocks (blocks : List Block) (before after : UInt64 → UInt8) : Prop :=
  ∀ block ∈ blocks, ∀ address, block.Holds cast address → after address = before address

/-- The contract of `arena_malloc_internal`. -/
structure Answers (world : World) (size answer : UInt64) (memory : UInt64 → UInt8) :
    Prop where
  block : answer ≠ 0 → Block.Granted high size ⟨answer, blockSize size⟩ ∧
    ∀ other ∈ outstanding world.events, Block.Disjoint ⟨answer, blockSize size⟩ other
  keeps : KeepsBlocks cast (outstanding world.events) world.memory memory

def copied (memory : UInt64 → UInt8) (source target count : UInt64) : UInt64 → UInt8 :=
  fun address =>
    if target.toNat ≤ address.toNat ∧ address.toNat < target.toNat + count.toNat then
      memory (source + (address - target))
    else memory address

def filled (memory : UInt64 → UInt8) (target : UInt64) (byte : UInt8) (count : UInt64) :
    UInt64 → UInt8 :=
  fun address =>
    if target.toNat ≤ address.toNat ∧ address.toNat < target.toNat + count.toNat then byte
    else memory address

/-- `Runs calls before result after`: one execution against some buddy allocator
that keeps its contract. -/
inductive Runs {Result : Type} : Calls Result → World → Result → World → Prop where
  | done {result world} : Runs (.done result) world result world
  | malloc {size continuation world answer memory result after} :
      Answers cast high world size answer memory →
      Runs (continuation answer) ⟨memory, .malloc size answer :: world.events⟩ result after →
      Runs (.malloc size continuation) world result after
  | free {address continuation world memory result after} :
      KeepsBlocks cast (outstanding (.free address :: world.events)) world.memory memory →
      Runs (continuation ()) ⟨memory, .free address :: world.events⟩ result after →
      Runs (.free address continuation) world result after
  | copy {source target count continuation world result after} :
      Runs (continuation ()) ⟨copied world.memory source target count, world.events⟩
        result after →
      Runs (.copy source target count continuation) world result after
  | fill {target byte count continuation world result after} :
      Runs (continuation ()) ⟨filled world.memory target byte count, world.events⟩
        result after →
      Runs (.fill target byte count continuation) world result after

/-- An allocation the client holds: the kernel-view pointer and its layout. -/
structure Allocation where
  pointer : UInt64
  layout : Layout

def Allocation.Holds (allocation : Allocation) (address : UInt64) : Prop :=
  allocation.pointer.toNat ≤ address.toNat ∧
    address.toNat < allocation.pointer.toNat + allocation.layout.size.toNat

structure State where
  world : World
  live : List Allocation

inductive Operation where
  | alloc (layout : Layout)
  | alloc_zeroed (layout : Layout)
  | realloc (pointer : UInt64) (layout new_layout : Layout)
  | dealloc (pointer : UInt64) (layout : Layout)
  /-- The client writes into memory it holds. -/
  | write

/-- The client's books after it received `pointer`. -/
def receive (pointer : UInt64) (layout : Layout) (live : List Allocation) :
    List Allocation :=
  if pointer = 0 then live else ⟨pointer, layout⟩ :: live

/-- One operation of a client that obeys the contract of `GlobalAlloc`, with
the pointer it got back (0 where there is none). -/
inductive Step : State → Operation → UInt64 → State → Prop where
  | alloc {world live layout pointer after} :
      Runs cast high (alloc cast layout) world pointer after →
      Step ⟨world, live⟩ (.alloc layout) pointer ⟨after, receive pointer layout live⟩
  | alloc_zeroed {world live layout pointer after} :
      Runs cast high (alloc_zeroed cast layout) world pointer after →
      Step ⟨world, live⟩ (.alloc_zeroed layout) pointer ⟨after, receive pointer layout live⟩
  | realloc {world earlier later pointer layout new_layout new_pointer after} :
      new_layout.align = layout.align →
      Runs cast high (realloc cast pointer layout new_layout) world new_pointer after →
      Step ⟨world, earlier ++ ⟨pointer, layout⟩ :: later⟩
        (.realloc pointer layout new_layout) new_pointer
        ⟨after, if new_pointer = 0 then earlier ++ ⟨pointer, layout⟩ :: later
          else ⟨new_pointer, new_layout⟩ :: (earlier ++ later)⟩
  | dealloc {world earlier later pointer layout after} :
      Runs cast high (dealloc cast pointer layout) world () after →
      Step ⟨world, earlier ++ ⟨pointer, layout⟩ :: later⟩ (.dealloc pointer layout) 0
        ⟨after, earlier ++ later⟩
  | write {world live memory} :
      (∀ address, (∀ allocation ∈ live, ¬allocation.Holds address) →
        memory address = world.memory address) →
      Step ⟨world, live⟩ .write 0 ⟨{ world with memory := memory }, live⟩

/-- States of a run of any length that starts without allocations. -/
inductive Reachable : State → Prop where
  | initial {memory} : Reachable ⟨⟨memory, []⟩, []⟩
  | step {before operation pointer after} :
      Reachable before → Step cast high before operation pointer after → Reachable after

end Execution

end LibarenaRs.Alloc
