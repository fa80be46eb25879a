import LibarenaRs.Alloc.Semantics
import Mathlib.Tactic.Ring

/-!
# A block seen through the two casts

Everything about pointers follows from two facts: a granted block has one user
form, which the casts exchange with the kernel-view pointer, and a kernel-view
byte of the block has the lower half of a user-form byte of the block.
-/

namespace LibarenaRs.Alloc

variable {cast : AddressSpaceCast} {high : Nat} {request : UInt64} {block : Block}

theorem blockSize_pos (request : UInt64) : 0 < blockSize request :=
  Nat.two_pow_pos _

namespace Block.Granted

theorem bytes_pos (granted : block.Granted high request) : 0 < block.bytes := by
  rw [granted.bytes_eq]
  exact blockSize_pos request

theorem base_eq (granted : block.Granted high request) :
    block.base.toNat = high * 2 ^ 32 + low block.base := by
  have window := granted.window block.base.toNat
    ⟨le_rfl, Nat.lt_add_of_pos_right granted.bytes_pos⟩
  unfold low
  omega

theorem low_add_bytes_le (granted : block.Granted high request) :
    low block.base + block.bytes ≤ 2 ^ 32 := by
  have positive := granted.bytes_pos
  have base := granted.base_eq
  have window := granted.window (block.base.toNat + block.bytes - 1) ⟨by omega, by omega⟩
  omega

theorem bytes_dvd_window (granted : block.Granted high request) :
    block.bytes ∣ 2 ^ 32 := by
  have inWindow := granted.low_add_bytes_le
  rw [granted.bytes_eq] at inWindow ⊢
  unfold blockSize at inWindow ⊢
  have order : 2 ^ Nat.clog 2 (max request.toNat 16) ≤ 2 ^ 32 := by omega
  exact pow_dvd_pow 2 ((Nat.pow_le_pow_iff_right (a := 2) (by decide)).mp order)

theorem bytes_dvd_cast_kern (window : Window cast high)
    (granted : block.Granted high request) :
    block.bytes ∣ (cast.cast_kern block.base).toNat := by
  have lowDivides : block.bytes ∣ low block.base :=
    (Nat.dvd_mod_iff granted.bytes_dvd_window).mpr granted.aligned
  rw [← window.cast_kern_low] at lowDivides
  exact (Nat.dvd_mod_iff granted.bytes_dvd_window).mp lowDivides

theorem cast_kern_ne_zero (window : Window cast high)
    (granted : block.Granted high request) : cast.cast_kern block.base ≠ 0 := by
  intro equality
  have lowZero := window.cast_kern_low block.base
  rw [equality] at lowZero
  exact granted.low_ne_zero lowZero.symm

/-- Casting a granted block to the kernel view and back gives its user form. -/
theorem cast_user_cast_kern (window : Window cast high)
    (granted : block.Granted high request) :
    cast.cast_user (cast.cast_kern block.base) = block.base := by
  have lowEquality := window.cast_kern_low block.base
  apply UInt64.toNat_inj.mp
  rw [window.cast_user_high _ (by rw [lowEquality]; exact granted.low_ne_zero),
    lowEquality, granted.base_eq]

/-- The kernel view of the block does not wrap. -/
theorem cast_kern_add_bytes_le (window : Window cast high)
    (granted : block.Granted high request) :
    (cast.cast_kern block.base).toNat + block.bytes ≤ 2 ^ 64 := by
  have lowEquality := window.cast_kern_low block.base
  have inWindow := granted.low_add_bytes_le
  have size := (cast.cast_kern block.base).toNat_lt
  rw [← lowEquality] at inWindow
  unfold low at inWindow
  omega

theorem contains_of_holds (window : Window cast high)
    (granted : block.Granted high request) {address : UInt64}
    (holds : block.Holds cast address) :
    block.Contains (high * 2 ^ 32 + low address) := by
  obtain ⟨lower, upper⟩ := holds
  have lowEquality := window.cast_kern_low block.base
  have inWindow := granted.low_add_bytes_le
  have base := granted.base_eq
  unfold Block.Contains
  unfold low at *
  omega

end Block.Granted

/-- Disjoint blocks stay disjoint in the kernel view. -/
theorem Block.Disjoint.kernel {first second : Block} {otherRequest : UInt64}
    (disjoint : first.Disjoint second) (window : Window cast high)
    (firstGranted : first.Granted high request)
    (secondGranted : second.Granted high otherRequest) (address : UInt64) :
    ¬(first.Holds cast address ∧ second.Holds cast address) := by
  rintro ⟨inFirst, inSecond⟩
  exact disjoint _ ⟨firstGranted.contains_of_holds window inFirst,
    secondGranted.contains_of_holds window inSecond⟩

theorem Block.Disjoint.symm {first second : Block} (disjoint : first.Disjoint second) :
    second.Disjoint first :=
  fun address both => disjoint address ⟨both.2, both.1⟩

theorem Block.Disjoint.base_ne {first second : Block} (disjoint : first.Disjoint second)
    (firstPositive : 0 < first.bytes) (secondPositive : 0 < second.bytes) :
    first.base ≠ second.base := by
  intro equality
  apply disjoint first.base.toNat
  refine ⟨⟨le_rfl, by omega⟩, ?_⟩
  rw [equality]
  exact ⟨le_rfl, by omega⟩

end LibarenaRs.Alloc
