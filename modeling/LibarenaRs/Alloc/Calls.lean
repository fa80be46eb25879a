import LibarenaRs.Alloc.Layout

/-!
# The allocator as a client of the buddy allocator

`src/raw.rs`, `src/cast.rs` and `src/arena_alloc.rs` on the BPF target.  The
functions of the crate are programs over the two C symbols they call and over
the two block operations of core's default methods.
-/

namespace LibarenaRs.Alloc

/-- A program that calls out of the crate, and continues with the answer. -/
inductive Calls (Result : Type) where
  | done (result : Result)
  | malloc (size : UInt64) (continuation : UInt64 → Calls Result)
  | free (address : UInt64) (continuation : Unit → Calls Result)
  | copy (source target count : UInt64) (continuation : Unit → Calls Result)
  | fill (target : UInt64) (byte : UInt8) (count : UInt64)
      (continuation : Unit → Calls Result)

namespace Calls

variable {First Second : Type}

protected def bind : Calls First → (First → Calls Second) → Calls Second
  | .done result, next => next result
  | .malloc size continuation, next => .malloc size fun u => (continuation u).bind next
  | .free address continuation, next => .free address fun u => (continuation u).bind next
  | .copy source target count continuation, next =>
      .copy source target count fun u => (continuation u).bind next
  | .fill target byte count continuation, next =>
      .fill target byte count fun u => (continuation u).bind next

instance : Monad Calls where
  pure := .done
  bind := Calls.bind

end Calls

def arena_malloc_internal (size : UInt64) : Calls UInt64 := .malloc size .done

def arena_free_u64 (address : UInt64) : Calls Unit := .free address .done

def copy_nonoverlapping (source target count : UInt64) : Calls Unit :=
  .copy source target count .done

def write_bytes (target : UInt64) (byte : UInt8) (count : UInt64) : Calls Unit :=
  .fill target byte count .done

/-- The two `addr_space_cast` instructions. -/
structure AddressSpaceCast where
  cast_kern : UInt64 → UInt64
  cast_user : UInt64 → UInt64

section Crate

variable (cast : AddressSpaceCast)

def arena_malloc (size : UInt64) : Calls UInt64 := do
  let ua ← arena_malloc_internal size
  if ua = 0 then
    return 0
  return cast.cast_kern ua

def arena_free (ptr : UInt64) : Calls Unit :=
  arena_free_u64 (cast.cast_user ptr)

/-- `GlobalAlloc::alloc` -/
def alloc (layout : Layout) : Calls UInt64 :=
  arena_malloc cast (request_size layout)

/-- `GlobalAlloc::dealloc` -/
def dealloc (ptr : UInt64) (_layout : Layout) : Calls Unit :=
  arena_free cast ptr

/-- core's default `GlobalAlloc::alloc_zeroed` -/
def alloc_zeroed (layout : Layout) : Calls UInt64 := do
  let size := layout.size
  let ptr ← alloc cast layout
  if ptr ≠ 0 then
    write_bytes ptr 0 size
  return ptr

/-- core's default `GlobalAlloc::realloc`.  The caller vouches that `new_size`
makes a layout with the old alignment, so it comes in as that layout. -/
def realloc (ptr : UInt64) (layout new_layout : Layout) : Calls UInt64 := do
  let new_ptr ← alloc cast new_layout
  if new_ptr ≠ 0 then
    copy_nonoverlapping ptr new_ptr (min layout.size new_layout.size)
    dealloc cast ptr layout
  return new_ptr

end Crate

end LibarenaRs.Alloc
