import Mathlib.Data.List.Lex
import Mathlib.Order.Lattice

/-!
# Sign of a lexicographic comparison

A comparison of two sequences of one length that stops at their first difference
and answers with a sign decides the lexicographic order.
-/

namespace LibarenaRs.Memory

variable {Value : Type*} [LinearOrder Value]

/-- -1, 0 or 1 by the first difference, 0 where one of the sequences ends. -/
def lexSign : List Value → List Value → Int
  | x :: xs, y :: ys => if x ≠ y then (if x < y then -1 else 1) else lexSign xs ys
  | _, _ => 0

theorem lexSign_cons_self (x : Value) (xs ys : List Value) :
    lexSign (x :: xs) (x :: ys) = lexSign xs ys := by
  simp [lexSign]

theorem lexSign_cons_of_lt {x y : Value} (below : x < y) (xs ys : List Value) :
    lexSign (x :: xs) (y :: ys) = -1 := by
  simp [lexSign, below, below.ne]

theorem lexSign_cons_of_gt {x y : Value} (above : y < x) (xs ys : List Value) :
    lexSign (x :: xs) (y :: ys) = 1 := by
  simp [lexSign, above.not_gt, above.ne']

/-- The sign is that of the lexicographic order. -/
theorem lexSign_cases {xs ys : List Value} (same : xs.length = ys.length) :
    (xs < ys ∧ lexSign xs ys = -1) ∨ (xs = ys ∧ lexSign xs ys = 0) ∨
      (ys < xs ∧ lexSign xs ys = 1) := by
  induction xs generalizing ys with
  | nil =>
      cases ys with
      | nil => exact Or.inr (Or.inl ⟨rfl, rfl⟩)
      | cons y ys => cases same
  | cons x xs inductionHypothesis =>
      cases ys with
      | nil => cases same
      | cons y ys =>
          rcases lt_trichotomy x y with below | rfl | above
          · apply Or.inl
            exact ⟨List.cons_lt_cons_iff.mpr (Or.inl below), lexSign_cons_of_lt below xs ys⟩
          · rw [lexSign_cons_self]
            have tails : xs.length = ys.length := by simpa using same
            rcases inductionHypothesis tails with ⟨less, sign⟩ | ⟨rfl, sign⟩ | ⟨greater, sign⟩
            · exact Or.inl ⟨List.cons_lt_cons_iff.mpr (Or.inr ⟨rfl, less⟩), sign⟩
            · exact Or.inr (Or.inl ⟨rfl, sign⟩)
            · exact Or.inr (Or.inr ⟨List.cons_lt_cons_iff.mpr (Or.inr ⟨rfl, greater⟩), sign⟩)
          · apply Or.inr
            apply Or.inr
            exact ⟨List.cons_lt_cons_iff.mpr (Or.inl above), lexSign_cons_of_gt above xs ys⟩

section SameLength

variable {xs ys zs : List Value}

theorem lexSign_eq_zero (same : xs.length = ys.length) : lexSign xs ys = 0 ↔ xs = ys := by
  rcases lexSign_cases same with ⟨less, sign⟩ | ⟨equal, sign⟩ | ⟨greater, sign⟩
  · simp [sign, less.ne]
  · exact iff_of_true sign equal
  · simp [sign, greater.ne']

theorem lexSign_eq_neg_one (same : xs.length = ys.length) : lexSign xs ys = -1 ↔ xs < ys := by
  rcases lexSign_cases same with ⟨less, sign⟩ | ⟨rfl, sign⟩ | ⟨greater, sign⟩
  · simp [sign, less]
  · simp [sign]
  · simp [sign, greater.not_gt]

theorem lexSign_eq_one (same : xs.length = ys.length) : lexSign xs ys = 1 ↔ ys < xs := by
  rcases lexSign_cases same with ⟨less, sign⟩ | ⟨rfl, sign⟩ | ⟨greater, sign⟩
  · simp [sign, less.not_gt]
  · simp [sign]
  · simp [sign, greater]

theorem lexSign_swap (same : xs.length = ys.length) : lexSign ys xs = -lexSign xs ys := by
  rcases lexSign_cases same with ⟨less, sign⟩ | ⟨rfl, sign⟩ | ⟨greater, sign⟩
  · rw [sign, (lexSign_eq_one same.symm).mpr less, Int.neg_neg]
  · rw [sign, Int.neg_zero]
  · rw [sign, (lexSign_eq_neg_one same.symm).mpr greater]

theorem lexSign_nonpos (same : xs.length = ys.length) : lexSign xs ys ≤ 0 ↔ xs ≤ ys := by
  rcases lexSign_cases same with ⟨less, sign⟩ | ⟨rfl, sign⟩ | ⟨greater, sign⟩
  · simp [sign, less.le]
  · simp [sign]
  · simp [sign, greater]

end SameLength

/-! ## How far a comparison looks -/

/-- The positions up to the first difference, that one included. -/
def compared : List Value → List Value → Nat
  | x :: xs, y :: ys => if x ≠ y then 1 else compared xs ys + 1
  | _, _ => 0

theorem compared_cons_self (x : Value) (xs ys : List Value) :
    compared (x :: xs) (x :: ys) = compared xs ys + 1 := by
  simp [compared]

/-- A comparison cut off early finds no difference if it does not get to the first. -/
theorem take_eq_take_iff {xs ys : List Value} (same : xs.length = ys.length) (count : Nat) :
    xs.take count = ys.take count ↔ xs = ys ∨ count < compared xs ys := by
  induction count generalizing xs ys with
  | zero =>
      cases xs with
      | nil =>
          have empty : ys = [] := List.eq_nil_of_length_eq_zero same.symm
          simp [empty]
      | cons x xs =>
          cases ys with
          | nil => cases same
          | cons y ys =>
              have positive : 0 < compared (x :: xs) (y :: ys) := by
                rw [compared]
                split <;> omega
              simp [positive]
  | succ count inductionHypothesis =>
      cases xs with
      | nil =>
          have empty : ys = [] := List.eq_nil_of_length_eq_zero same.symm
          simp [empty]
      | cons x xs =>
          cases ys with
          | nil => cases same
          | cons y ys =>
              have tails : xs.length = ys.length := by simpa using same
              rw [List.take_succ_cons, List.take_succ_cons, List.cons.injEq,
                inductionHypothesis tails]
              by_cases equal : x = y
              · rw [equal, compared_cons_self]
                simp
              · simp [equal, compared]

end LibarenaRs.Memory
