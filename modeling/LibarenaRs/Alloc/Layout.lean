import Mathlib.Data.Nat.Log
import Mathlib.Data.Nat.Prime.Basic
import Mathlib.Algebra.Order.Ring.Nat

/-!
# Layouts and buddy blocks

`src/arena_alloc.rs`.  A `usize` of the BPF target is a `u64`.  The alignment
of an allocation rests on one fact: of two powers of two the smaller divides
the larger, and a block is at least as large as the requested alignment.
-/

namespace LibarenaRs.Alloc

/-- What `Layout::from_size_align` accepts: a power of two, and a size that
still fits `isize::MAX` when rounded up to it. -/
structure Layout where
  size : UInt64
  align : UInt64
  align_powerOfTwo : ∃ exponent, align.toNat = 2 ^ exponent
  size_fits : size.toNat + align.toNat ≤ 2 ^ 63

/-- `ArenaAlloc::request_size` -/
def request_size (layout : Layout) : UInt64 :=
  let size := layout.size
  let align := layout.align
  let sz := if size > align then size else align
  if sz = 0 then 1 else sz

/-- Bytes of the buddy block that serves a request: the least power of two that
is at least the request and at least 16. -/
def blockSize (request : UInt64) : Nat :=
  2 ^ Nat.clog 2 (max request.toNat 16)

theorem Layout.align_pos (layout : Layout) : 0 < layout.align.toNat := by
  obtain ⟨exponent, power⟩ := layout.align_powerOfTwo
  rw [power]
  exact Nat.two_pow_pos exponent

/-- The zero guard of the source is never needed for a valid layout. -/
theorem request_size_toNat (layout : Layout) :
    (request_size layout).toNat = max layout.size.toNat layout.align.toNat := by
  have positive := layout.align_pos
  unfold request_size
  by_cases larger : layout.size > layout.align
  · have order := UInt64.lt_iff_toNat_lt.mp larger
    have nonzero : layout.size ≠ 0 := by
      rintro equality
      rw [equality, UInt64.toNat_zero] at order
      omega
    simp only [if_pos larger, if_neg nonzero]
    omega
  · have order : layout.size.toNat ≤ layout.align.toNat := by
      rw [gt_iff_lt, UInt64.lt_iff_toNat_lt] at larger
      omega
    have nonzero : layout.align ≠ 0 := by
      rintro equality
      rw [equality, UInt64.toNat_zero] at positive
      omega
    simp only [if_neg larger, if_neg nonzero]
    omega

theorem le_blockSize (request : UInt64) : max request.toNat 16 ≤ blockSize request :=
  Nat.le_pow_clog (by decide) _

/-- No smaller power of two serves the request. -/
theorem blockSize_least (request : UInt64) {exponent : Nat}
    (serves : max request.toNat 16 ≤ 2 ^ exponent) : blockSize request ≤ 2 ^ exponent :=
  Nat.pow_le_pow_right (by decide) (Nat.clog_le_of_le_pow serves)

theorem size_le_blockSize (layout : Layout) :
    layout.size.toNat ≤ blockSize (request_size layout) := by
  have served := le_blockSize (request_size layout)
  rw [request_size_toNat] at served
  omega

theorem align_dvd_blockSize (layout : Layout) :
    layout.align.toNat ∣ blockSize (request_size layout) := by
  obtain ⟨exponent, power⟩ := layout.align_powerOfTwo
  have requested : 2 ^ exponent ≤ (request_size layout).toNat := by
    rw [request_size_toNat, ← power]
    exact le_max_right _ _
  have order : 2 ^ exponent ≤ blockSize (request_size layout) :=
    requested.trans ((le_max_left _ 16).trans (le_blockSize _))
  rw [power]
  exact pow_dvd_pow 2 ((Nat.pow_le_pow_iff_right (a := 2) (by decide)).mp order)

end LibarenaRs.Alloc
