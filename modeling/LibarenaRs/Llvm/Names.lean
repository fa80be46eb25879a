import LibarenaRs.Regex.Matcher

/-!
# Symbol names as LLVM prints them

A name of letters, digits, `-`, `.` and `_` that does not start with a digit
stands bare.  Every other name stands between double quotes, with two backslashes for
one and with quotes and all bytes outside printable ASCII as hexadecimal escapes.
-/

namespace LibarenaRs.Llvm

open LibarenaRs.Regex

def bareChar (c : Char) : Bool := c.isAlphanum || c == '-' || c == '.' || c == '_'

def needsQuotes (name : Text) : Bool := headIs Char.isDigit name || !name.all bareChar

/-- Printable ASCII, as `isPrint` of the printer has it. -/
def printable (c : Char) : Bool := 32 ≤ c.toNat && c.toNat ≤ 126

def hexDigit (digit : Nat) : Char := Char.ofNat (if digit < 10 then 48 + digit else 55 + digit)

def escapeByte (byte : UInt8) : Text :=
  ['\\', hexDigit (byte.toNat / 16), hexDigit (byte.toNat % 16)]

def escapeChar (c : Char) : Text :=
  if c = '\\' then ['\\', '\\']
  else if printable c && c != '"' then [c]
  else (String.utf8EncodeChar c).flatMap escapeByte

/-- `printEscapedString` between quotes -/
def quote (text : Text) : Text := '"' :: (text.flatMap escapeChar ++ ['"'])

/-- `printLLVMName`, without the sigil -/
def printName (name : Text) : Text := if needsQuotes name then quote name else name

/-- The characters of `[A-Za-z0-9_.$]`. -/
def symbolChar (c : Char) : Bool := c.isAlphanum || c == '_' || c == '.' || c == '$'

/-- A name that is printed bare and has no `-`. -/
def PlainName (name : Text) : Prop :=
  name ≠ [] ∧ headIs Char.isDigit name = false ∧ name.all (fun c => bareChar c && c != '-') = true

instance (name : Text) : Decidable (PlainName name) :=
  inferInstanceAs (Decidable (_ ∧ _ ∧ _))

/-! ## Printed text is printable -/

theorem toNat_hexDigit {digit : Nat} (bound : digit < 16) :
    (hexDigit digit).toNat = if digit < 10 then 48 + digit else 55 + digit := by
  have small : ∀ digit < 16, (hexDigit digit).toNat =
      if digit < 10 then 48 + digit else 55 + digit := by
    decide
  exact small digit bound

theorem printable_hexDigit {digit : Nat} (bound : digit < 16) :
    printable (hexDigit digit) = true ∧ hexDigit digit ≠ '"' := by
  have code := toNat_hexDigit bound
  have range : 48 ≤ (hexDigit digit).toNat ∧ (hexDigit digit).toNat ≤ 70 := by
    rw [code]
    split <;> omega
  constructor
  · simp only [printable, Bool.and_eq_true, decide_eq_true_eq]
    omega
  · intro equality
    rw [equality] at range
    exact absurd range.1 (by decide)

theorem printable_escapeByte {byte : UInt8} {c : Char} (member : c ∈ escapeByte byte) :
    printable c = true ∧ c ≠ '"' := by
  have bound : byte.toNat < 256 := byte.toNat_lt
  simp only [escapeByte, List.mem_cons, List.not_mem_nil, or_false] at member
  rcases member with rfl | rfl | rfl
  · decide
  · exact printable_hexDigit (by omega)
  · exact printable_hexDigit (by omega)

theorem printable_escapeChar {c d : Char} (member : d ∈ escapeChar c) :
    printable d = true ∧ d ≠ '"' := by
  rw [escapeChar] at member
  split at member
  · simp only [List.mem_cons, List.not_mem_nil, or_false, or_self] at member
    subst member
    decide
  · split at member
    case isTrue kept =>
      rw [List.mem_singleton.mp member]
      simpa only [Bool.and_eq_true, bne_iff_ne] using kept
    case isFalse =>
      obtain ⟨byte, -, member⟩ := List.mem_flatMap.mp member
      exact printable_escapeByte member

theorem printable_quote {text : Text} {c : Char} (member : c ∈ quote text) :
    printable c = true := by
  simp only [quote, List.mem_cons, List.mem_append, List.mem_flatMap, List.not_mem_nil,
    or_false] at member
  rcases member with rfl | ⟨d, -, member⟩ | rfl
  · decide
  · exact (printable_escapeChar member).1
  · decide

theorem printable_of_isAlphanum {c : Char} (word : c.isAlphanum = true) : printable c = true := by
  simp only [printable, Bool.and_eq_true, decide_eq_true_eq]
  rcases Bool.or_eq_true_iff.mp word with letter | digit
  · have bounds := toNat_of_isAlpha letter
    omega
  · have bounds := Char.isDigit_iff_toNat.mp digit
    change 48 ≤ c.toNat ∧ c.toNat ≤ 57 at bounds
    omega

theorem printable_of_bareChar {c : Char} (bare : bareChar c = true) : printable c = true := by
  simp only [bareChar, Bool.or_eq_true, beq_iff_eq] at bare
  rcases bare with ((word | rfl) | rfl) | rfl
  · exact printable_of_isAlphanum word
  · decide
  · decide
  · decide

theorem printable_printName (name : Text) : (printName name).all printable = true := by
  rw [List.all_eq_true]
  intro c member
  rw [printName] at member
  split at member
  · exact printable_quote member
  · rename_i bare
    simp only [needsQuotes, Bool.or_eq_true, not_or, Bool.not_eq_true, Bool.not_eq_false',
      List.all_eq_true] at bare
    exact printable_of_bareChar (bare.2 c member)

theorem not_newline_of_printable {text : Text} (allPrintable : text.all printable = true) :
    '\n' ∉ text := by
  intro member
  have printed := List.all_eq_true.mp allPrintable '\n' member
  exact absurd printed (by decide)

/-- Of the printable characters only the blank is white space. -/
theorem isSpace_of_printable {c : Char} (printed : printable c = true) :
    isSpace c = (c == ' ') := by
  simp only [printable, Bool.and_eq_true, decide_eq_true_eq] at printed
  have codes : c = ' ' ↔ c.toNat = 32 :=
    ⟨fun equality => by rw [equality]; rfl, fun code => Char.toNat_inj.mp code⟩
  rw [Bool.eq_iff_iff, beq_iff_eq, codes]
  simp only [isSpace, Bool.or_eq_true, Bool.and_eq_true, decide_eq_true_eq,
    List.contains_eq_mem, List.mem_cons, List.not_mem_nil, or_false]
  omega

theorem isWord_of_isSpace {c : Char} (white : isSpace c = true) : isWord c = false := by
  rw [Bool.eq_false_iff]
  intro word
  have printed : printable c = true := by
    rw [isWord, Bool.or_eq_true, beq_iff_eq] at word
    rcases word with word | rfl
    · exact printable_of_isAlphanum word
    · decide
  rw [isSpace_of_printable printed, beq_iff_eq] at white
  rw [white] at word
  exact absurd word (by decide)

/-! ## Plain names -/

theorem PlainName.printName {name : Text} (plain : PlainName name) : printName name = name := by
  obtain ⟨-, digitFree, bare⟩ := plain
  have allBare : name.all bareChar = true := by
    rw [List.all_eq_true] at bare ⊢
    intro c member
    exact (Bool.and_eq_true_iff.mp (bare c member)).1
  rw [Llvm.printName, needsQuotes, digitFree, allBare]
  rfl

theorem symbolChar_of_plain {c : Char} (plain : (bareChar c && c != '-') = true) :
    symbolChar c = true := by
  simp only [bareChar, symbolChar, Bool.and_eq_true, Bool.or_eq_true, beq_iff_eq,
    bne_iff_ne] at plain ⊢
  tauto

theorem PlainName.all_symbolChar {name : Text} (plain : PlainName name) :
    name.all symbolChar = true := by
  have bare := plain.2.2
  rw [List.all_eq_true] at bare ⊢
  exact fun c member => symbolChar_of_plain (bare c member)

end LibarenaRs.Llvm
