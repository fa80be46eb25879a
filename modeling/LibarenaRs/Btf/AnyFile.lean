import LibarenaRs.Btf.Rename

/-!
# What the script does to any file

Whatever the bytes of a file, well formed or not, the script leaves the file alone or
appends to it: the old bytes stay but for the two words of one section header, and the
appended section is the old one with some words of the walk written over.
-/

namespace LibarenaRs.Btf

open LibarenaRs.Memory LibarenaRs.Regex

theorem ok_of_bind {Error First Second : Type} {first : Except Error First}
    {next : First → Except Error Second} {answer : Second} (ran : first >>= next = .ok answer) :
    ∃ middle, first = .ok middle ∧ next middle = .ok answer := by
  cases first with
  | error error => cases ran
  | ok middle => exact ⟨middle, rfl, ran⟩

/-- Only words at these positions were written over. -/
structure Touched (old new : Bytes) (positions : List Nat) : Prop where
  length : new.length = old.length
  kept : ∀ i, (∀ pos ∈ positions, i < pos ∨ pos + 4 ≤ i) → new[i]? = old[i]?

theorem Touched.refl (data : Bytes) (positions : List Nat) : Touched data data positions :=
  ⟨rfl, fun _ _ => rfl⟩

theorem Touched.trans {first second third : Bytes} {earlier later : List Nat}
    (before : Touched first second earlier) (after : Touched second third later)
    (more : earlier ⊆ later) : Touched first third later := by
  refine ⟨after.length.trans before.length, ?_⟩
  intro i apart
  rw [after.kept i apart, before.kept i fun pos member => apart pos (more member)]

/-- Positions of a walk so far, the latest first: twelve bytes apart, from `first` on. -/
structure Spaced (first pos : Nat) (visited : List Nat) : Prop where
  apart : visited.Pairwise fun later earlier => earlier + 12 ≤ later
  behind : ∀ other ∈ visited, first ≤ other ∧ other + 12 ≤ pos

theorem Spaced.visit {first pos next : Nat} {visited : List Nat} (spaced : Spaced first pos visited)
    (reached : first ≤ pos) (further : pos + 12 ≤ next) : Spaced first next (pos :: visited) := by
  constructor
  · exact List.pairwise_cons.mpr ⟨fun other member => (spaced.behind other member).2, spaced.apart⟩
  · intro other member
    cases List.mem_cons.mp member with
    | inl same => exact ⟨by omega, by omega⟩
    | inr earlier =>
        have bounds := spaced.behind other earlier
        exact ⟨bounds.1, by omega⟩

end LibarenaRs.Btf
