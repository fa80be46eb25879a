import LibarenaRs.Btf.Rename
import LibarenaRs.Regex.Scanning

/-!
# The naming rule

An identifier is a letter or underscore followed by letters, digits and
underscores.  The script tests it with `$`, which also stands before a last
newline, and repairs names by substitution, which keeps a leading digit.
-/

namespace LibarenaRs.Btf

open LibarenaRs.Memory LibarenaRs.Regex

/-- A C identifier, over the whole name. -/
def IsIdent : Text → Prop
  | [] => False
  | c :: rest => identStart c = true ∧ ∀ d ∈ rest, identChar d = true

instance (name : Text) : Decidable (IsIdent name) :=
  match name with
  | [] => inferInstanceAs (Decidable False)
  | c :: rest =>
      decidable_of_iff (identStart c = true ∧ rest.all identChar = true) (by simp [IsIdent])

theorem identChar_iff {c : Char} : identChar c = true ↔ identStart c = true ∨ c.isDigit = true := by
  simp only [identStart, identChar, Char.isAlphanum, Bool.or_eq_true]
  tauto

theorem toNat_of_identStart {c : Char} (start : identStart c = true) :
    65 ≤ c.toNat ∧ c.toNat ≤ 122 := by
  simp only [identStart, Bool.or_eq_true, beq_iff_eq] at start
  rcases start with letter | underscore
  · have bounds := toNat_of_isAlpha letter
    omega
  · rw [underscore]
    decide

theorem toNat_of_isDigit {c : Char} (digit : c.isDigit = true) : 48 ≤ c.toNat ∧ c.toNat ≤ 57 :=
  Char.isDigit_iff_toNat.mp digit

theorem identStart_of_isDigit {c : Char} (digit : c.isDigit = true) : identStart c = false := by
  cases started : identStart c with
  | false => rfl
  | true =>
      have letter := toNat_of_identStart started
      have number := toNat_of_isDigit digit
      omega

/-- What the anchored pattern accepts: `$` lets a last newline pass. -/
theorem valid_ident_iff {name : Text} :
    valid_ident name = true ↔ IsIdent name ∨ ∃ ident, IsIdent ident ∧ name = ident ++ ['\n'] := by
  rw [valid_ident, Option.isSome_iff_ne_none]
  constructor
  · intro matched
    obtain ⟨m, found⟩ := Option.ne_none_iff_exists'.mp matched
    cases name with
    | nil => rw [Pattern.matchStart, Pattern.matchAt_nil] at found; cases found
    | cons c rest =>
        simp only [Pattern.matchStart, Pattern.matchAt, validIdent, Pattern.run_cat_cons,
          Pattern.run_textStart, List.isEmpty_nil, if_true, Pattern.run_chr_cons,
          Option.ite_none_right_eq_some, Pattern.run_star_chr] at found
        obtain ⟨start, found⟩ := found
        obtain ⟨read, left, split, accepted, ended⟩ := Pattern.repeatChr_eq_some found
        simp only [Pattern.run_cat_cons, Pattern.run_textEnd, Pattern.run_cat_nil,
          Option.ite_none_right_eq_some, Bool.or_eq_true, List.isEmpty_iff, beq_iff_eq] at ended
        rcases ended.1 with empty | newline
        · left
          exact ⟨start, by simpa [split, empty] using accepted⟩
        · right
          exact ⟨c :: read, ⟨start, accepted⟩, by rw [split, newline]; rfl⟩
  · have matches_ : ∀ c rest left, IsIdent (c :: rest) → (left = [] ∨ left = ['\n']) →
        validIdent.matchStart (c :: (rest ++ left)) ≠ none := by
      intro c rest left ident ended
      simp only [Pattern.matchStart, Pattern.matchAt, validIdent, Pattern.run_cat_cons,
        Pattern.run_textStart, List.isEmpty_nil, if_true, Pattern.run_chr_cons, ident.1,
        Pattern.run_star_chr]
      apply Pattern.repeatChr_ne_none ident.2
      rcases ended with empty | newline
      · simp [empty]
      · simp [newline]
    rintro (ident | ⟨name, ident, rfl⟩)
    · cases name with
      | nil => exact ident.elim
      | cons c rest => simpa using matches_ c rest [] ident (Or.inl rfl)
    · cases name with
      | nil => exact ident.elim
      | cons c rest => exact matches_ c rest ['\n'] ident (Or.inr rfl)

theorem sanitize_eq (name : Text) :
    sanitize name = name.map fun c => if identChar c then c else '_' := by
  rw [sanitize, Pattern.sub_chr]
  apply List.map_congr_left
  intro c _
  cases identChar c <;> rfl

theorem identChar_sanitize {name : Text} {c : Char} (membership : c ∈ sanitize name) :
    identChar c = true := by
  rw [sanitize_eq] at membership
  obtain ⟨original, -, rfl⟩ := List.mem_map.mp membership
  by_cases kept : identChar original = true
  · rw [if_pos kept]
    exact kept
  · rw [if_neg kept]
    decide

/-- The substitution repairs a name unless it is empty or starts with a digit. -/
theorem isIdent_sanitize_iff {name : Text} :
    IsIdent (sanitize name) ↔ ∃ c rest, name = c :: rest ∧ c.isDigit = false := by
  cases name with
  | nil => simp [sanitize_eq, IsIdent]
  | cons c rest =>
      have tail : ∀ d ∈ (rest.map fun c => if identChar c then c else '_'), identChar d = true := by
        rw [← sanitize_eq]
        exact fun d => identChar_sanitize
      rw [sanitize_eq, List.map_cons, IsIdent]
      constructor
      · intro ident
        refine ⟨c, rest, rfl, ?_⟩
        cases digit : c.isDigit with
        | false => rfl
        | true =>
            rw [if_pos (identChar_iff.mpr (Or.inr digit)), identStart_of_isDigit digit] at ident
            cases ident.1
      · rintro ⟨d, others, split, digit⟩
        obtain ⟨rfl, rfl⟩ := List.cons.inj split
        refine ⟨?_, tail⟩
        by_cases kept : identChar c = true
        · rw [if_pos kept]
          rcases identChar_iff.mp kept with start | isDigit
          · exact start
          · rw [digit] at isDigit
            cases isDigit
        · rw [if_neg kept]
          decide

theorem decode_encode (name : Text) : decode (encode name) = .ok name := by
  have bytes : (encode name).toByteArray = name.utf8Encode := rfl
  rw [decode, bytes, List.utf8Decode?_utf8Encode]

theorem encode_of_decode {bytes : Bytes} {name : Text} (decoded : decode bytes = .ok name) :
    encode name = bytes := by
  unfold decode at decoded
  split at decoded
  · rename_i chars found
    obtain rfl := Except.ok.inj decoded
    have valid : bytes.toByteArray.utf8Decode?.isSome = true := by simp [found]
    have again := ByteArray.utf8Encode_get_utf8Decode? (b := bytes.toByteArray) (h := valid)
    simp only [found, Option.get_some] at again
    have lists := congrArg (fun buf : ByteArray => buf.data.toList) again
    simpa [encode, List.utf8Encode, List.data_toByteArray] using lists
  · cases decoded

/-- The characters of the names the script writes. -/
def plainChar (c : Char) : Bool := identChar c || c == ' '

theorem encode_plain {name : Text} (plain : ∀ c ∈ name, plainChar c = true) :
    0 ∉ encode name := by
  intro membership
  obtain ⟨c, inName, byte⟩ := List.mem_flatMap.mp membership
  have bounds : 0 < c.toNat ∧ c.toNat ≤ 127 := by
    have kept := plain c inName
    simp only [plainChar, Bool.or_eq_true, beq_iff_eq] at kept
    rcases kept with ident | blank
    · rcases identChar_iff.mp ident with start | digit
      · have letter := toNat_of_identStart start
        omega
      · have number := toNat_of_isDigit digit
        omega
    · rw [blank]
      decide
  have one : c.utf8Size = 1 := Char.utf8Size_eq_one_iff.mpr (UInt32.le_iff_toNat_le.mpr bounds.2)
  rw [String.utf8EncodeChar_eq_singleton one, List.mem_singleton] at byte
  have zero := congrArg UInt8.toNat byte
  rw [UInt32.toNat_toUInt8] at zero
  have value : c.val.toNat = c.toNat := rfl
  rw [value] at zero
  change 0 = c.toNat % 2 ^ 8 at zero
  omega

theorem mem_of_lookup {name canonical : Text} (found : RENAME.lookup name = some canonical) :
    (name, canonical) ∈ RENAME := by
  obtain ⟨front, back, split, -⟩ := List.lookup_eq_some_iff.mp found
  rw [split]
  simp

theorem plain_of_rename {name canonical : Text} (found : RENAME.lookup name = some canonical) :
    ∀ c ∈ canonical, plainChar c = true := by
  have all : (RENAME.all fun entry => entry.2.all plainChar) = true := by decide
  exact List.all_eq_true.mp (List.all_eq_true.mp all _ (mem_of_lookup found))

/-- No canonical name is renamed again. -/
theorem lookup_canonical {name canonical : Text} (found : RENAME.lookup name = some canonical) :
    RENAME.lookup canonical = none := by
  have all : (RENAME.all fun entry => (RENAME.lookup entry.2).isNone) = true := by decide
  exact Option.isNone_iff_eq_none.mp (List.all_eq_true.mp all _ (mem_of_lookup found))

theorem plain_of_sanitize (name : Text) : ∀ c ∈ sanitize name, plainChar c = true := by
  intro c membership
  simp [plainChar, identChar_sanitize membership]

end LibarenaRs.Btf
