import Mathlib.Algebra.Group.Nat.Defs
import Mathlib.Data.List.Basic

/-!
# Slices, patches and little-endian fields of a byte buffer

A buffer is read by slices and written by patches of known length.  A slice
that does not meet a patch, or lies in front of what is appended, is unchanged.
-/

namespace LibarenaRs.Memory

abbrev Bytes := List UInt8

variable {α : Type*}

/-- `buf[offset:offset + length]` -/
def slice (buf : List α) (offset length : Nat) : List α := (buf.drop offset).take length

/-- The buffer with `values` written over what was there. -/
def patch (buf : List α) (offset : Nat) (values : List α) : List α :=
  buf.take offset ++ values ++ buf.drop (offset + values.length)

theorem length_slice {buf : List α} {offset length : Nat}
    (inside : offset + length ≤ buf.length) : (slice buf offset length).length = length := by
  simp only [slice, List.length_take, List.length_drop]
  omega

theorem length_patch {buf values : List α} {offset : Nat}
    (inside : offset + values.length ≤ buf.length) :
    (patch buf offset values).length = buf.length := by
  simp only [patch, List.length_append, List.length_take, List.length_drop]
  omega

theorem getElem?_slice (buf : List α) (offset length i : Nat) :
    (slice buf offset length)[i]? = if i < length then buf[offset + i]? else none := by
  simp only [slice, List.getElem?_take, List.getElem?_drop]

/-- A patch changes only the places it covers. -/
theorem getElem?_patch_of_outside {buf values : List α} {offset i : Nat}
    (inside : offset + values.length ≤ buf.length)
    (outside : i < offset ∨ offset + values.length ≤ i) :
    (patch buf offset values)[i]? = buf[i]? := by
  have taken : (buf.take offset).length = offset := by
    rw [List.length_take]
    omega
  rcases outside with before | after
  · rw [patch, List.append_assoc, List.getElem?_append_left (by omega), List.getElem?_take_of_lt before]
  · rw [patch, List.getElem?_append_right (by rw [List.length_append]; omega),
      List.getElem?_drop, List.length_append, taken]
    congr 1
    omega

theorem slice_patch {buf values : List α} {offset : Nat}
    (inside : offset + values.length ≤ buf.length) :
    slice (patch buf offset values) offset values.length = values := by
  have taken : (buf.take offset).length = offset := by
    rw [List.length_take]
    omega
  rw [slice, patch, List.append_assoc, List.drop_left' taken, List.take_left' rfl]

theorem slice_patch_of_apart {buf values : List α} {offset start length : Nat}
    (inside : offset + values.length ≤ buf.length)
    (apart : start + length ≤ offset ∨ offset + values.length ≤ start) :
    slice (patch buf offset values) start length = slice buf start length := by
  apply List.ext_getElem?
  intro i
  rw [getElem?_slice, getElem?_slice]
  by_cases within : i < length
  · rw [if_pos within, if_pos within]
    exact getElem?_patch_of_outside inside (by omega)
  · rw [if_neg within, if_neg within]

/-- The slice of a part whose place is known. -/
theorem slice_part (front part back : List α) {start length : Nat}
    (starts : front.length = start) (lengths : part.length = length) :
    slice (front ++ part ++ back) start length = part := by
  rw [slice, List.append_assoc, List.drop_left' starts, List.take_left' lengths]

theorem slice_slice {buf : List α} {offset length start count : Nat}
    (within : start + count ≤ length) :
    slice (slice buf offset length) start count = slice buf (offset + start) count := by
  apply List.ext_getElem?
  intro i
  simp only [getElem?_slice]
  by_cases inside : i < count
  · rw [if_pos inside, if_pos inside, if_pos (by omega), Nat.add_assoc]
  · rw [if_neg inside, if_neg inside]

theorem patch_part (front old new back : List α) {start : Nat}
    (starts : front.length = start) (lengths : old.length = new.length) :
    patch (front ++ old ++ back) start new = front ++ new ++ back := by
  rw [patch, List.append_assoc front old back, List.take_left' starts, ← List.drop_drop,
    List.drop_left' starts, List.drop_left' lengths]

/-- The number a little-endian field holds. -/
def leNat : Bytes → Nat
  | [] => 0
  | byte :: bytes => byte.toNat + 256 * leNat bytes

/-- The little-endian field of `width` bytes that holds `n`. -/
def leBytes : Nat → Nat → Bytes
  | 0, _ => []
  | width + 1, n => UInt8.ofNat n :: leBytes width (n / 256)

@[simp]
theorem length_leBytes (width n : Nat) : (leBytes width n).length = width := by
  induction width generalizing n with
  | zero => rfl
  | succ width inductionHypothesis => simp [leBytes, inductionHypothesis]

theorem leNat_leBytes {width n : Nat} (fits : n < 256 ^ width) : leNat (leBytes width n) = n := by
  induction width generalizing n with
  | zero => simp only [leBytes, leNat]; omega
  | succ width inductionHypothesis =>
      have rest : n / 256 < 256 ^ width := by
        rw [Nat.pow_succ] at fits
        omega
      have low : (UInt8.ofNat n).toNat = n % 256 := UInt8.toNat_ofNat'
      rw [leBytes, leNat, inductionHypothesis rest, low]
      omega

/-- A NUL-terminated string stands at the offset. -/
def HasString (buf : Bytes) (offset : Nat) (name : Bytes) : Prop :=
  0 ∉ name ∧ slice buf offset (name.length + 1) = name ++ [0]

/-- The bytes from the offset up to the first NUL. -/
def stringAt (buf : Bytes) (offset : Nat) : Bytes := (buf.drop offset).takeWhile (· != 0)

theorem HasString.split {buf : Bytes} {offset : Nat} {name : Bytes}
    (stands : HasString buf offset name) : ∃ rest, buf.drop offset = name ++ 0 :: rest := by
  refine ⟨(buf.drop offset).drop (name.length + 1), ?_⟩
  calc buf.drop offset
      = slice buf offset (name.length + 1) ++ (buf.drop offset).drop (name.length + 1) :=
        (List.take_append_drop _ _).symm
    _ = name ++ 0 :: (buf.drop offset).drop (name.length + 1) := by
        rw [stands.2, List.append_assoc, List.singleton_append]

theorem HasString.of_split {buf : Bytes} {offset : Nat} {name : Bytes} (rest : Bytes) (inName : 0 ∉ name)
    (split : buf.drop offset = name ++ 0 :: rest) : HasString buf offset name := by
  refine ⟨inName, ?_⟩
  rw [slice, split, List.take_append, List.take_of_length_le (Nat.le_succ _)]
  simp

theorem HasString.stringAt {buf : Bytes} {offset : Nat} {name : Bytes}
    (stands : HasString buf offset name) : stringAt buf offset = name := by
  obtain ⟨rest, split⟩ := stands.split
  rw [Memory.stringAt, split, List.takeWhile_append_of_pos]
  · simp
  · intro byte membership
    have nonzero : byte ≠ 0 := fun equality => stands.1 (equality ▸ membership)
    simpa using nonzero

theorem HasString.inside {buf : Bytes} {offset : Nat} {name : Bytes}
    (stands : HasString buf offset name) : offset + name.length + 1 ≤ buf.length := by
  obtain ⟨rest, split⟩ := stands.split
  have lengths := congrArg List.length split
  simp only [List.length_drop, List.length_append, List.length_cons] at lengths
  omega

theorem HasString.append {buf : Bytes} {offset : Nat} {name : Bytes}
    (stands : HasString buf offset name) (more : Bytes) : HasString (buf ++ more) offset name := by
  obtain ⟨rest, split⟩ := stands.split
  have bound := stands.inside
  refine HasString.of_split (rest ++ more) stands.1 ?_
  rw [List.drop_append_of_le_length (by omega), split, List.append_assoc]
  rfl

/-- A string keeps its place in a buffer behind other bytes. -/
theorem HasString.behind {strings : Bytes} {offset : Nat} {name : Bytes}
    (stands : HasString strings offset name) (front : Bytes) {base : Nat}
    (starts : front.length = base) : HasString (front ++ strings) (base + offset) name := by
  obtain ⟨rest, split⟩ := stands.split
  refine HasString.of_split rest stands.1 ?_
  rw [← List.drop_drop, List.drop_left' starts, split]

theorem HasString.slice_eq {buf : Bytes} {offset : Nat} {name : Bytes}
    (stands : HasString buf offset name) : slice buf offset name.length = name := by
  obtain ⟨rest, split⟩ := stands.split
  rw [slice, split, List.take_left]

theorem hasString_of_mem {buf : Bytes} {offset : Nat} (terminated : 0 ∈ buf.drop offset) :
    HasString buf offset (stringAt buf offset) := by
  obtain ⟨name, rest, split, inName⟩ := List.eq_append_cons_of_mem terminated
  have stands := HasString.of_split rest inName split
  rw [stands.stringAt]
  exact stands

end LibarenaRs.Memory
