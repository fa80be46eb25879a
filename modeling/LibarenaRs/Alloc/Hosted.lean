import LibarenaRs.Alloc.Semantics

/-!
# The hosted stand-in

Off the BPF target `src/raw.rs` takes its blocks from `posix_memalign`, with a
power-of-two size and that size, but at most 4096, as alignment.
-/

namespace LibarenaRs.Alloc

/-! ## The source -/

/-- `usize::next_power_of_two`; beyond the largest power it wraps to 0. -/
def next_power_of_two (n : UInt64) : UInt64 := UInt64.ofNat (2 ^ Nat.clog 2 n.toNat)

/-- `posix_memalign` as seen from one call: the block it makes for an alignment
and a size, or an error. -/
abbrev Memalign := UInt64 → UInt64 → Option Block

namespace Hosted

def arena_malloc_internal (posix_memalign : Memalign) (size : UInt64) : UInt64 :=
  let sz := next_power_of_two (max size 16)
  match posix_memalign (min sz 4096) sz with
  | none => 0
  | some block => block.base

/-- Without the target's instruction the casts return their argument. -/
def casts : AddressSpaceCast := ⟨id, id⟩

end Hosted

/-- The result of a program whose requests are answered by a function. -/
def Calls.eval {Result : Type} (malloc : UInt64 → UInt64) : Calls Result → Result
  | .done result => result
  | .malloc size continuation => (continuation (malloc size)).eval malloc
  | .free _ continuation => (continuation ()).eval malloc
  | .copy _ _ _ continuation => (continuation ()).eval malloc
  | .fill _ _ _ continuation => (continuation ()).eval malloc

def Hosted.alloc (posix_memalign : Memalign) (layout : Layout) : UInt64 :=
  (Alloc.alloc Hosted.casts layout).eval (Hosted.arena_malloc_internal posix_memalign)

/-! ## What is assumed and what is promised -/

/-- A successful call returns a fresh block of the requested size at a multiple of
the requested alignment. -/
def Honest (live : List Block) (posix_memalign : Memalign) : Prop :=
  ∀ align size block, posix_memalign align size = some block →
    block.bytes = size.toNat ∧ align.toNat ∣ block.base.toNat ∧
      block.base.toNat + block.bytes ≤ 2 ^ 64 ∧ ∀ other ∈ live, block.Disjoint other

/-- The block comes from the host. -/
def HandedOut (posix_memalign : Memalign) (block : Block) : Prop :=
  ∃ align size, posix_memalign align size = some block

/-- Whatever the host does, an allocation is null or has its layout. -/
def AllocContract (layout : Layout) : Prop :=
  ∀ live posix_memalign, Honest live posix_memalign →
    let pointer := Hosted.alloc posix_memalign layout
    pointer = 0 ∨ layout.align.toNat ∣ pointer.toNat ∧
      ∃ block, HandedOut posix_memalign block ∧ block.base = pointer ∧
        layout.size.toNat ≤ block.bytes

/-- Whatever the host does, a request of this many bytes is answered with 0 or with
a block of the buddy allocator's size and alignment. -/
def MallocContract (request : UInt64) : Prop :=
  ∀ live posix_memalign, Honest live posix_memalign →
    let address := Hosted.arena_malloc_internal posix_memalign request
    address = 0 ∨ blockSize request ∣ address.toNat ∧
      ∃ block, HandedOut posix_memalign block ∧ block.base = address ∧
        block.bytes = blockSize request

/-! ## The sizes that are asked for -/

theorem toNat_max_sixteen (request : UInt64) : (max request 16).toNat = max request.toNat 16 := by
  have maximum : max request 16 = if request ≤ 16 then 16 else request := rfl
  rw [maximum]
  split
  · rename_i small
    exact (max_eq_right (UInt64.le_iff_toNat_le.mp small)).symm
  · rename_i large
    rw [UInt64.le_iff_toNat_le] at large
    exact (max_eq_left (Nat.le_of_not_le large)).symm

theorem toNat_next_power_of_two {request : UInt64} (bounded : request.toNat ≤ 2 ^ 63) :
    (next_power_of_two (max request 16)).toNat = blockSize request := by
  have exponent : Nat.clog 2 (max request.toNat 16) ≤ 63 :=
    Nat.clog_le_of_le_pow (max_le bounded (by decide))
  have small : 2 ^ Nat.clog 2 (max request.toNat 16) < 2 ^ 64 :=
    Nat.pow_lt_pow_right (by decide) (by omega)
  rw [next_power_of_two, toNat_max_sixteen, blockSize]
  exact UInt64.toNat_ofNat_of_lt' small

theorem toNat_cap (size : UInt64) : (min size 4096).toNat = min size.toNat 4096 := by
  have minimum : min size 4096 = if size ≤ 4096 then size else 4096 := rfl
  rw [minimum]
  split
  · rename_i small
    exact (min_eq_left (UInt64.le_iff_toNat_le.mp small)).symm
  · rename_i large
    rw [UInt64.le_iff_toNat_le] at large
    exact (min_eq_right (Nat.le_of_not_le large)).symm

theorem blockSize_le_of_le {request : UInt64} {exponent : Nat} (large : 4 ≤ exponent)
    (bounded : request.toNat ≤ 2 ^ exponent) : blockSize request ≤ 2 ^ exponent := by
  apply blockSize_least
  exact max_le bounded (Nat.pow_le_pow_right (by decide : 0 < 2) large)

/-- A power of two up to 4096 divides 4096. -/
theorem two_pow_dvd_page {exponent : Nat} (small : 2 ^ exponent ≤ 4096) : 2 ^ exponent ∣ 4096 := by
  have order : exponent ≤ 12 := (Nat.pow_le_pow_iff_right (a := 2) (by decide)).mp small
  exact pow_dvd_pow 2 order

theorem cap_dvd_page (request : UInt64) : min (blockSize request) 4096 ∣ 4096 := by
  rcases Nat.le_total (blockSize request) 4096 with small | large
  · rw [min_eq_left small]
    exact two_pow_dvd_page small
  · rw [min_eq_right large]

/-- What the host is asked for, and what it answers. -/
theorem arena_malloc_internal_cases {live : List Block} {posix_memalign : Memalign}
    (honest : Honest live posix_memalign) {request : UInt64} (bounded : request.toNat ≤ 2 ^ 63) :
    Hosted.arena_malloc_internal posix_memalign request = 0 ∨
      ∃ block, HandedOut posix_memalign block ∧
        Hosted.arena_malloc_internal posix_memalign request = block.base ∧
        block.bytes = blockSize request ∧ min (blockSize request) 4096 ∣ block.base.toNat := by
  rw [Hosted.arena_malloc_internal]
  cases answer : posix_memalign (min (next_power_of_two (max request 16)) 4096)
      (next_power_of_two (max request 16)) with
  | none => exact Or.inl rfl
  | some block =>
      obtain ⟨bytes, aligned, -, -⟩ := honest _ _ block answer
      rw [toNat_next_power_of_two bounded] at bytes
      rw [toNat_cap, toNat_next_power_of_two bounded] at aligned
      exact Or.inr ⟨block, ⟨_, _, answer⟩, rfl, bytes, aligned⟩

/-- A host that puts every block at 4096 and no block at a larger multiple. -/
def page : Memalign := fun align size =>
  if align.toNat ∣ 4096 ∧ 4096 + size.toNat ≤ 2 ^ 64 then some ⟨4096, size.toNat⟩ else none

theorem honest_page : Honest [] page := by
  intro align size block answer
  unfold page at answer
  split at answer
  · rename_i fits
    cases answer
    exact ⟨rfl, fits.1, fits.2, fun other member => by cases member⟩
  · cases answer

theorem arena_malloc_internal_page {request : UInt64} (bounded : request.toNat ≤ 2 ^ 63) :
    Hosted.arena_malloc_internal page request = 4096 := by
  have size : blockSize request ≤ 2 ^ 63 := blockSize_le_of_le (by decide) bounded
  have served : page (min (next_power_of_two (max request 16)) 4096)
      (next_power_of_two (max request 16)) = some ⟨4096, blockSize request⟩ := by
    rw [page, toNat_cap, toNat_next_power_of_two bounded, if_pos]
    exact ⟨cap_dvd_page request, by omega⟩
  rw [Hosted.arena_malloc_internal, served]

/-! ## When the contracts hold -/

theorem mallocContract_iff {request : UInt64} (bounded : request.toNat ≤ 2 ^ 63) :
    MallocContract request ↔ request.toNat ≤ 4096 := by
  constructor
  · intro contract
    have answer := contract [] page honest_page
    rw [arena_malloc_internal_page bounded] at answer
    rcases answer with null | ⟨aligned, -⟩
    · cases null
    · have size : blockSize request ≤ 4096 := Nat.le_of_dvd (by decide) aligned
      have served := le_blockSize request
      omega
  · intro small live posix_memalign honest
    rcases arena_malloc_internal_cases honest bounded with null | ⟨block, handedOut, address, bytes,
      aligned⟩
    · exact Or.inl null
    · have size : blockSize request ≤ 4096 :=
        @blockSize_le_of_le request 12 (by decide) small
      rw [min_eq_left size] at aligned
      rw [address]
      exact Or.inr ⟨aligned, block, handedOut, rfl, bytes⟩

/-- An allocation is the block for its request. -/
theorem hosted_alloc (posix_memalign : Memalign) (layout : Layout) :
    Hosted.alloc posix_memalign layout =
      Hosted.arena_malloc_internal posix_memalign (request_size layout) := by
  change (if Hosted.arena_malloc_internal posix_memalign (request_size layout) = 0 then
    Calls.done 0 else Calls.done _).eval _ = _
  split
  · rename_i null
    exact null.symm
  · rfl

theorem request_size_bounded (layout : Layout) : (request_size layout).toNat ≤ 2 ^ 63 := by
  have fits := layout.size_fits
  rw [request_size_toNat]
  omega

theorem allocContract_iff (layout : Layout) :
    AllocContract layout ↔ layout.align.toNat ≤ 4096 := by
  have bounded := request_size_bounded layout
  constructor
  · intro contract
    have answer := contract [] page honest_page
    rw [hosted_alloc, arena_malloc_internal_page bounded] at answer
    rcases answer with null | ⟨aligned, -⟩
    · cases null
    · exact Nat.le_of_dvd (by decide) aligned
  · intro small live posix_memalign honest
    simp only [hosted_alloc]
    rcases arena_malloc_internal_cases honest bounded with null | ⟨block, handedOut, address, bytes,
      aligned⟩
    · exact Or.inl null
    · obtain ⟨exponent, power⟩ := layout.align_powerOfTwo
      have divides : layout.align.toNat ∣ min (blockSize (request_size layout)) 4096 := by
        rcases Nat.le_total (blockSize (request_size layout)) 4096 with block_ | page_
        · rw [min_eq_left block_]
          exact align_dvd_blockSize layout
        · rw [min_eq_right page_, power]
          exact two_pow_dvd_page (by rwa [← power])
      rw [address]
      refine Or.inr ⟨divides.trans aligned, block, handedOut, rfl, ?_⟩
      rw [bytes]
      exact size_le_blockSize layout

/-- Both functions keep the buddy allocator's contract exactly up to the size of a
page; the alignment of an allocation alone is kept up to that alignment. -/
theorem hosted_contract_iff (layout : Layout) :
    ((AllocContract layout ∧ MallocContract (request_size layout)) ↔
        max layout.size.toNat layout.align.toNat ≤ 4096) ∧
      (AllocContract layout ↔ layout.align.toNat ≤ 4096) := by
  refine ⟨?_, allocContract_iff layout⟩
  rw [allocContract_iff, mallocContract_iff (request_size_bounded layout), request_size_toNat]
  constructor
  · exact fun both => both.2
  · exact fun small => ⟨(le_max_right _ _).trans small, small⟩

/-- One byte at a multiple of 8192. -/
def wideLayout : Layout := ⟨1, 8192, ⟨13, rfl⟩, by decide⟩

theorem hosted_contract_wide : ¬AllocContract wideLayout := by
  rw [allocContract_iff]
  decide

end LibarenaRs.Alloc
