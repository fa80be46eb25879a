import Mathlib.Logic.Function.Basic
import Mathlib.Data.List.Basic

/-!
# Copying one cell at a time

A loop that copies cell by cell reads the store it is changing.  It still has
the effect of one simultaneous assignment as long as no cell is read after an
earlier step wrote it.  The order of the steps is the only thing that matters,
so both directions of an overlapping block copy are instances.
-/

namespace LibarenaRs.Memory

variable {Cell Value : Type*} [DecidableEq Cell]

/-- Run the moves `(target, source)` in order, each on the store left by the
previous one. -/
def sequentialCopy : List (Cell × Cell) → (Cell → Value) → Cell → Value
  | [], store => store
  | (target, source) :: moves, store =>
      sequentialCopy moves (Function.update store target (store source))

/-- No move reads a cell that an earlier move wrote. -/
def ReadsBeforeWrites (moves : List (Cell × Cell)) : Prop :=
  moves.Pairwise fun earlier later => earlier.1 ≠ later.2

@[simp]
theorem sequentialCopy_nil (store : Cell → Value) :
    sequentialCopy [] store = store := rfl

@[simp]
theorem sequentialCopy_cons (target source : Cell)
    (moves : List (Cell × Cell)) (store : Cell → Value) :
    sequentialCopy ((target, source) :: moves) store =
      sequentialCopy moves (Function.update store target (store source)) := rfl

/-- A cell that no move targets keeps its value. -/
theorem sequentialCopy_frame (moves : List (Cell × Cell)) (store : Cell → Value)
    (cell : Cell) (untouched : ∀ move ∈ moves, move.1 ≠ cell) :
    sequentialCopy moves store cell = store cell := by
  induction moves generalizing store with
  | nil => rfl
  | cons move moves inductionHypothesis =>
      obtain ⟨target, source⟩ := move
      rw [sequentialCopy_cons, inductionHypothesis _ fun later membership =>
        untouched later (List.mem_cons_of_mem _ membership)]
      have distinct : cell ≠ target := (untouched (target, source) (by simp)).symm
      rw [Function.update_of_ne distinct]

/-- Every target receives what its source held before the first move. -/
theorem sequentialCopy_target {moves : List (Cell × Cell)}
    (readsFirst : ReadsBeforeWrites moves)
    (targetsDistinct : (moves.map Prod.fst).Nodup) (store : Cell → Value)
    {move : Cell × Cell} (membership : move ∈ moves) :
    sequentialCopy moves store move.1 = store move.2 := by
  induction moves generalizing store with
  | nil => simp at membership
  | cons head moves inductionHypothesis =>
      obtain ⟨target, source⟩ := head
      have readsTail := List.pairwise_cons.mp readsFirst
      have distinctTail := List.nodup_cons.mp targetsDistinct
      rw [sequentialCopy_cons]
      rcases List.mem_cons.mp membership with equality | inTail
      · subst equality
        have untouched : ∀ later ∈ moves, later.1 ≠ target := by
          intro later laterMembership equality
          exact distinctTail.1 (List.mem_map.mpr ⟨later, laterMembership, equality⟩)
        rw [sequentialCopy_frame moves _ target untouched, Function.update_self]
      · rw [inductionHypothesis readsTail.2 distinctTail.2 _ inTail]
        have unread : move.2 ≠ target := (readsTail.1 move inTail).symm
        rw [Function.update_of_ne unread]

end LibarenaRs.Memory
