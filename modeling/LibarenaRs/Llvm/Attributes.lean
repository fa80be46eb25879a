import LibarenaRs.Llvm.Module

/-!
# Attributes in a group

A group lists its attributes between blanks.  It is never empty when it is printed,
and an empty one is refused when it is read.
-/

namespace LibarenaRs.Llvm

open LibarenaRs.Regex

/-- A word of letters, digits and underscores. -/
def Keyword : Type := { word : Text // word ≠ [] ∧ word.all isWord = true }

instance : DecidableEq Keyword := inferInstanceAs (DecidableEq { _word : Text // _ })

instance : DecidableEq Printed := inferInstanceAs (DecidableEq { _text : Text // _ })

inductive Attribute where
  | enum (name : Keyword)
  /-- `alignstack=16` -/
  | number (name : Keyword) (amount : Nat)
  /-- `memory(read)` -/
  | call (name : Keyword) (arguments : Printed)
  /-- `"key"="value"`; an empty value is not printed. -/
  | string (key value : Text)
  deriving DecidableEq

def Attribute.print : Attribute → Text
  | .enum name => name.val
  | .number name amount => name.val ++ '=' :: printNat amount
  | .call name arguments => name.val ++ '(' :: (arguments.val ++ [')'])
  | .string key value => if value = [] then quote key else quote key ++ '=' :: quote value

def Attribute.noinline : Attribute := .enum ⟨"noinline".toList, by decide⟩

/-- Each attribute behind a blank, and one more blank. -/
def printAttributes (attributes : List Attribute) : Text :=
  (attributes.flatMap fun entry => ' ' :: entry.print) ++ [' ']

theorem printAttributes_cons (first : Attribute) (others : List Attribute) :
    printAttributes (first :: others) = (' ' :: first.print) ++ printAttributes others := by
  rw [printAttributes, printAttributes, List.flatMap_cons, List.append_assoc]

theorem printable_of_isWord {c : Char} (word : isWord c = true) : printable c = true := by
  rw [isWord, Bool.or_eq_true, beq_iff_eq] at word
  rcases word with word | rfl
  · exact printable_of_isAlphanum word
  · decide

theorem Keyword.printable_val (name : Keyword) : name.val.all printable = true := by
  rw [List.all_eq_true]
  intro c member
  exact printable_of_isWord (List.all_eq_true.mp name.property.2 c member)

theorem all_printable_quote (text : Text) : (quote text).all printable = true := by
  rw [List.all_eq_true]
  exact fun c member => printable_quote member

theorem Attribute.printable_print (entry : Attribute) : entry.print.all printable = true := by
  cases entry with
  | enum name => exact name.printable_val
  | number name amount =>
      rw [print, List.all_append, name.printable_val, List.all_cons, printable_printNat]
      decide
  | call name arguments =>
      rw [print, List.all_append, name.printable_val, List.all_cons, List.all_append,
        arguments.property]
      decide
  | string key value =>
      rw [print]
      split
      · exact all_printable_quote key
      · rw [List.all_append, List.all_cons, all_printable_quote, all_printable_quote]
        decide

theorem printable_printAttributes (attributes : List Attribute) :
    (printAttributes attributes).all printable = true := by
  induction attributes with
  | nil => decide
  | cons first others inductionHypothesis =>
      rw [printAttributes_cons, List.all_append, List.all_cons, first.printable_print,
        inductionHypothesis]
      decide

/-- What a group holds. -/
structure AttributeSet where
  attributes : List Attribute
  filled : attributes ≠ []
  nodup : attributes.Nodup

def AttributeSet.content (set : AttributeSet) : Printed :=
  ⟨printAttributes set.attributes, printable_printAttributes set.attributes⟩

/-- All attributes but this one. -/
def without (entry : Attribute) (attributes : List Attribute) : List Attribute :=
  attributes.filter fun other => other ≠ entry

theorem without_of_not_mem {entry : Attribute} {attributes : List Attribute}
    (absent : entry ∉ attributes) : without entry attributes = attributes := by
  rw [without, List.filter_eq_self]
  intro other member
  have different : other ≠ entry := fun same => absent (same ▸ member)
  simpa using different

theorem printNat_ends (n : Nat) : ∃ front last, printNat n = front ++ [last] ∧
    last.isDigit = true := by
  have filled : printNat n ≠ [] := Nat.toDigits_ne_nil
  refine ⟨(printNat n).dropLast, (printNat n).getLast filled,
    (List.dropLast_append_getLast filled).symm, ?_⟩
  exact Nat.isDigit_of_mem_toDigits (by decide) (by decide) (List.getLast_mem filled)

/-- An attribute that is no bare word ends with no letter and no blank. -/
theorem Attribute.print_ends (entry : Attribute) :
    (∃ name, entry = .enum name) ∨
      ∃ front last, entry.print = front ++ [last] ∧ last.isAlpha = false ∧ last ≠ ' ' := by
  cases entry with
  | enum name => exact Or.inl ⟨name, rfl⟩
  | number name amount =>
      obtain ⟨front, last, split, digit⟩ := printNat_ends amount
      refine Or.inr ⟨name.val ++ '=' :: front, last, by simp [print, split], ?_, ?_⟩
      · apply Bool.eq_false_iff.mpr
        intro letter
        have bounds := Char.isDigit_iff_toNat.mp digit
        change 48 ≤ last.toNat ∧ last.toNat ≤ 57 at bounds
        have letters := toNat_of_isAlpha letter
        omega
      · rintro rfl
        exact absurd digit (by decide)
  | call name arguments =>
      exact Or.inr ⟨name.val ++ '(' :: arguments.val, ')', by simp [print], by decide, by decide⟩
  | string key value =>
      by_cases empty : value = []
      · refine Or.inr ⟨'"' :: key.flatMap escapeChar, '"', ?_, by decide, by decide⟩
        rw [print, if_pos empty]
        rfl
      · refine Or.inr ⟨quote key ++ '=' :: '"' :: value.flatMap escapeChar, '"', ?_, by decide,
          by decide⟩
        rw [print, if_neg empty]
        simp [quote]

end LibarenaRs.Llvm
