import LibarenaRs.Regex.Fields
import LibarenaRs.Regex.Captures
import LibarenaRs.Linker.Allocation
import LibarenaRs.Linker.Dropping

/-!
# The declarations that get a prototype

What a module declares and does not define is a kfunc: `bpf_finalize` puts it in a section
and describes it by what it reads off the line.  It reads a line only if the return type and
what stands in front of it are plain words, and the parameters only up to the first
parenthesis that closes.
-/

namespace LibarenaRs.Linker

open LibarenaRs.Regex LibarenaRs.Llvm

/-! ## Legible declarations -/

/-- The characters of `[a-z_]`. -/
def lowerChar (c : Char) : Bool := c.isLower || c == '_'

/-- The characters of `[\w.]`. -/
def typeChar (c : Char) : Bool := isWord c || c == '.'

/-- Types that are printed as a word, and pointers. -/
def scalar : IrType → Bool
  | .void | .int _ | .ptr _ | .floating _ => true
  | _ => false

/-- As `llvm-dis` prints it: attachments come first, the qualifiers are given word by word,
and no symbol stands in front of the name. -/
structure Orderly (metadata : Printed) (header : Header) : Prop where
  attached : metadata.val = [] ∨ headIs (· == '!') metadata.val = true
  words : ∀ qualifier ∈ header.qualifiers, Black isSpace qualifier.val
  noSymbol : '@' ∉ metadata.val ++ header.before

/-- What the pattern for declarations reads. -/
structure Legible (header : Header) : Prop where
  qualifiers : ∀ qualifier ∈ header.qualifiers, qualifier.val.all lowerChar = true
  returns : scalar header.returns = true
  name : PlainName header.name

instance (header : Header) : Decidable (Legible header) :=
  decidable_of_iff ((∀ qualifier ∈ header.qualifiers, qualifier.val.all lowerChar = true) ∧
    scalar header.returns = true ∧ PlainName header.name)
    ⟨fun ⟨qualifiers, returns, name⟩ => ⟨qualifiers, returns, name⟩,
      fun legible => ⟨legible.qualifiers, legible.returns, legible.name⟩⟩

/-! ## One reading of a declaration -/

/-- `(?:[a-z_]+\s+)*?` -/
def wordsRe : Pattern :=
  .star false (.cat [.plus true (.chr fun c => c.isLower || c == '_'), .plus true (.chr isSpace)])

/-- `[\w.]+(?:\s+addrspace\(\d+\))?` -/
def returnRe : Pattern :=
  .cat [.plus true (.chr fun c => isWord c || c == '.'),
    .opt (.cat [.plus true (.chr isSpace), .lit "addrspace(".toList,
      .plus true (.chr Char.isDigit), .lit [')']])]

/-- Where a declaration is cut. -/
@[ext]
structure Cut where
  blanks : Text
  words : Text
  returns : Text
  gap : Text
  name : Text
  args : Text
  post : Text

namespace Cut

def print (cut : Cut) : Text :=
  "declare".toList ++ (cut.blanks ++ (cut.words ++ (cut.returns ++ (cut.gap ++ '@' ::
    (cut.name ++ '(' :: (cut.args ++ ')' :: cut.post))))))

def groups (cut : Cut) : List (Nat × Text) :=
  [(5, cut.post), (4, cut.args), (3, cut.name), (2, cut.returns), (1, cut.words)]

structure Fits (cut : Cut) : Prop where
  blanks : cut.blanks ≠ [] ∧ ∀ c ∈ cut.blanks, isSpace c = true
  words : wordsRe.Words cut.words
  returns : returnRe.Words cut.returns
  gap : cut.gap ≠ [] ∧ ∀ c ∈ cut.gap, isSpace c = true
  name : cut.name ≠ [] ∧ ∀ c ∈ cut.name, symbolChar c = true
  args : ')' ∉ cut.args
  post : '\n' ∉ cut.post

end Cut

theorem declRe_eq : declRe =
    .seq .lineStart (.seq (.lit "declare".toList) (.seq (.plus true (.chr isSpace))
      (.seq (.group 1 wordsRe) (.seq (.group 2 returnRe) (.seq (.plus true (.chr isSpace))
        (.seq (.lit ['@']) (.seq (.group 3 (.plus true (.chr symbolChar))) (.seq (.lit ['('])
          (.seq (.group 4 (.star true (.chr fun c => c != ')'))) (.seq (.lit [')'])
            (.seq (.group 5 (.star true (.chr fun c => c != '\n'))) .lineEnd))))))))))) := rfl

/-- The pattern stops behind the declarations that can be cut up, at the end of a line. -/
theorem declRe_reaches {past text : Text} {stop : Cursor} :
    declRe.Reaches ⟨past, text, []⟩ stop ↔
      ∃ (cut : Cut) (rest : Text), cut.Fits ∧ atLineStart past = true ∧ atLineEnd rest = true ∧
        text = cut.print ++ rest ∧ stop = ⟨cut.print.reverse ++ past, rest, cut.groups⟩ := by
  have without : ∀ {d : Char} {word : Text},
      (Pattern.star true (.chr fun c => c != d)).Words word ↔ d ∉ word := by
    intro d word
    rw [Pattern.words_star_chr]
    constructor
    · intro all member
      simpa using all d member
    · intro absent c member
      exact bne_iff_ne.mpr fun same => absent (same ▸ member)
  rw [declRe_eq]
  constructor
  · rintro ⟨_, ⟨starts, rfl⟩, _, ⟨text, rfl, rfl⟩, _, first, _, second, _, third, _, fourth, _,
      ⟨_, symbol, rfl⟩, _, fifth, _, ⟨_, opens, rfl⟩, _, sixth, _, ⟨_, closes, rfl⟩, _, seventh,
      ends, rfl⟩
    obtain ⟨blanks, _, isBlanks, split, rfl⟩ := (Pattern.reaches_iff_words rfl).mp first
    obtain rfl : text = _ := split
    obtain ⟨words, _, isWords, split, rfl⟩ := (Pattern.group_reaches_iff rfl).mp second
    obtain rfl := split
    obtain ⟨returns, _, isReturns, split, rfl⟩ := (Pattern.group_reaches_iff rfl).mp third
    obtain rfl := split
    obtain ⟨gap, _, isGap, split, rfl⟩ := (Pattern.reaches_iff_words rfl).mp fourth
    obtain rfl := split
    obtain rfl := symbol
    obtain ⟨name, _, isName, split, rfl⟩ := (Pattern.group_reaches_iff rfl).mp fifth
    obtain rfl := split
    obtain rfl := opens
    obtain ⟨args, _, isArgs, split, rfl⟩ := (Pattern.group_reaches_iff rfl).mp sixth
    obtain rfl := split
    obtain rfl := closes
    obtain ⟨post, rest, isPost, split, rfl⟩ := (Pattern.group_reaches_iff rfl).mp seventh
    obtain rfl := split
    refine ⟨⟨blanks, words, returns, gap, name, args, post⟩, rest, ?_, starts, ends, ?_, ?_⟩
    · exact ⟨Pattern.words_plus_chr.mp isBlanks, isWords, isReturns,
        Pattern.words_plus_chr.mp isGap, Pattern.words_plus_chr.mp isName, without.mp isArgs,
        without.mp isPost⟩
    · unfold Cut.print
      generalize "declare".toList = word
      simp only [List.append_assoc, List.cons_append, List.nil_append]
    · unfold Cut.print Cut.groups Cursor.move
      generalize "declare".toList = word
      simp only [List.append_assoc, List.cons_append, List.nil_append, List.reverse_append,
        List.reverse_cons, List.reverse_nil]
  · rintro ⟨cut, rest, fits, starts, ends, rfl, rfl⟩
    have shape : cut.print ++ rest = "declare".toList ++ (cut.blanks ++ (cut.words ++
        (cut.returns ++ (cut.gap ++ (['@'] ++ (cut.name ++ (['('] ++ (cut.args ++
          ([')'] ++ (cut.post ++ rest)))))))))) := by
      unfold Cut.print
      generalize "declare".toList = word
      simp only [List.append_assoc, List.cons_append, List.nil_append]
    refine ⟨_, ⟨starts, rfl⟩, _, ⟨_, shape, rfl⟩, _,
      (Pattern.reaches_iff_words rfl).mpr
        ⟨cut.blanks, _, Pattern.words_plus_chr.mpr fits.blanks, rfl, rfl⟩, _,
      (Pattern.group_reaches_iff rfl).mpr ⟨cut.words, _, fits.words, rfl, rfl⟩, _,
      (Pattern.group_reaches_iff rfl).mpr ⟨cut.returns, _, fits.returns, rfl, rfl⟩, _,
      (Pattern.reaches_iff_words rfl).mpr
        ⟨cut.gap, _, Pattern.words_plus_chr.mpr fits.gap, rfl, rfl⟩, _, ⟨_, rfl, rfl⟩, _,
      (Pattern.group_reaches_iff rfl).mpr
        ⟨cut.name, _, Pattern.words_plus_chr.mpr fits.name, rfl, rfl⟩, _, ⟨_, rfl, rfl⟩, _,
      (Pattern.group_reaches_iff rfl).mpr ⟨cut.args, _, without.mpr fits.args, rfl, rfl⟩, _,
      ⟨_, rfl, rfl⟩, _,
      (Pattern.group_reaches_iff rfl).mpr ⟨cut.post, rest, without.mpr fits.post, rfl, rfl⟩, ends, ?_⟩
    unfold Cut.print Cut.groups Cursor.move
    generalize "declare".toList = word
    simp only [List.append_assoc, List.cons_append, List.nil_append, List.reverse_append,
      List.reverse_cons, List.reverse_nil]

/-! ## Words and types -/

theorem black_of_typeChar {c : Char} (word : typeChar c = true) : isSpace c = false := by
  cases white : isSpace c with
  | false => rfl
  | true =>
      rw [typeChar, isWord_of_isSpace white, Bool.false_or, beq_iff_eq] at word
      rw [word] at white
      exact absurd white (by decide)

theorem typeChar_of_lowerChar {c : Char} (lower : lowerChar c = true) : typeChar c = true := by
  rw [lowerChar, Bool.or_eq_true] at lower
  rw [typeChar, isWord]
  rcases lower with letter | same
  · have alpha : c.isAlpha = true := Bool.or_eq_true_iff.mpr (Or.inr letter)
    rw [Char.isAlphanum, alpha]
    rfl
  · rw [same]
    simp

theorem black_of_all {accepts : Char → Bool} {word : Text} (filled : word ≠ [])
    (all : ∀ c ∈ word, accepts c = true)
    (black : ∀ c, accepts c = true → isSpace c = false) : Black isSpace word := by
  refine ⟨filled, List.any_eq_false.mpr ?_⟩
  intro c member
  rw [black c (all c member)]
  exact Bool.false_ne_true

/-- The words in front of a return type. -/
theorem wordsRe_words {text : Text} (read : wordsRe.Words text) :
    ∃ words : List Text, (∀ word ∈ words, word.all lowerChar = true) ∧
      ∀ rest, fields isSpace (text ++ rest) = words ++ fields isSpace rest := by
  obtain ⟨parts, all, rfl⟩ := read
  induction parts with
  | nil => exact ⟨[], by simp, fun rest => rfl⟩
  | cons part parts inductionHypothesis =>
      obtain ⟨words, lower, reads⟩ := inductionHypothesis fun other member =>
        all other (List.mem_cons_of_mem _ member)
      obtain ⟨-, word, spaces, isWord, isSpaces, rfl⟩ := all part List.mem_cons_self
      obtain ⟨filled, letters⟩ := Pattern.words_plus_chr.mp isWord
      obtain ⟨apart, white⟩ := Pattern.words_plus_chr.mp isSpaces
      have black : Black isSpace word :=
        black_of_all filled letters fun c lower => black_of_typeChar (typeChar_of_lowerChar lower)
      refine ⟨word :: words, ?_, ?_⟩
      · intro other member
        rcases List.mem_cons.mp member with rfl | later
        · exact List.all_eq_true.mpr letters
        · exact lower other later
      · intro rest
        rw [List.flatten_cons, List.append_assoc, List.append_assoc,
          fields_word_append black apart white, reads]
        rfl

/-- A return type is a word, or a word and an address space. -/
theorem returnRe_words {text : Text} (read : returnRe.Words text) :
    ∃ word : Text, (word ≠ [] ∧ ∀ c ∈ word, typeChar c = true) ∧
      (text = word ∨ ∃ spaces space : Text, (spaces ≠ [] ∧ ∀ c ∈ spaces, isSpace c = true) ∧
        '(' ∈ space ∧ (∀ c ∈ space, typeChar c = true ∨ c = '(' ∨ c = ')') ∧
        text = word ++ (spaces ++ space)) := by
  obtain ⟨word, more, isRead, optional, rfl⟩ := read
  refine ⟨word, Pattern.words_plus_chr.mp isRead, ?_⟩
  rcases optional with ⟨spaces, _, isSpaces, ⟨_, _, rfl, ⟨digits, _, isDigits, rfl, rfl⟩, rfl⟩, rfl⟩ |
    rfl
  · refine Or.inr ⟨spaces, _, Pattern.words_plus_chr.mp isSpaces, ?_, ?_, rfl⟩
    · exact List.mem_append_left _ (by decide)
    · intro c member
      rcases List.mem_append.mp member with inWord | later
      · have all : ("addrspace(".toList.all fun c => typeChar c || c == '(') = true := by decide
        rcases Bool.or_eq_true_iff.mp (List.all_eq_true.mp all c inWord) with letter | same
        · exact Or.inl letter
        · exact Or.inr (Or.inl (beq_iff_eq.mp same))
      · rcases List.mem_append.mp later with digit | last
        · have numeric := (Pattern.words_plus_chr.mp isDigits).2 c digit
          left
          rw [typeChar, isWord, Char.isAlphanum, numeric]
          simp
        · exact Or.inr (Or.inr (List.mem_singleton.mp last))
  · exact Or.inl (List.append_nil word)

def addressSpace (space : Nat) : Text := "addrspace(".toList ++ printNat space ++ [')']

theorem print_ptr {space : Nat} (other : space ≠ 0) :
    (IrType.ptr space).print = "ptr".toList ++ ' ' :: addressSpace space := by
  have regroup : ∀ {whole first second digits : Text}, whole = first ++ ' ' :: second →
      whole ++ digits ++ [')'] = first ++ ' ' :: (second ++ digits ++ [')']) := by
    rintro _ first second digits rfl
    simp
  have printed : (IrType.ptr space).print = "ptr addrspace(".toList ++ printNat space ++ [')'] :=
    if_neg other
  exact printed.trans (regroup (by decide))

theorem typeChar_of_isDigit {c : Char} (digit : c.isDigit = true) : typeChar c = true := by
  rw [typeChar, isWord, Char.isAlphanum, digit]
  simp

theorem printNat_black (n : Nat) : Black isSpace (printNat n) := by
  have filled : printNat n ≠ [] := by
    obtain ⟨front, last, shape, -⟩ := printNat_ends n
    rw [shape]
    exact List.append_ne_nil_of_right_ne_nil _ (List.cons_ne_nil last [])
  apply black_of_all filled (List.all_eq_true.mp (isDigit_printNat n))
  exact fun c digit => black_of_typeChar (typeChar_of_isDigit digit)

theorem addressSpace_black (space : Nat) : Black isSpace (addressSpace space) :=
  (printNat_black space).surround (by decide) (by decide)

theorem black_of_bareChar {c : Char} (bare : bareChar c = true) : isSpace c = false := by
  by_cases dash : c = '-'
  · subst dash
    decide
  · apply black_of_typeChar
    rw [bareChar, beq_false_of_ne dash, Bool.or_false] at bare
    rw [typeChar, isWord]
    revert bare
    cases c.isAlphanum <;> cases c == '.' <;> cases c == '_' <;> decide

/-- Scalars are words, except for pointers into an address space. -/
theorem scalar_print {type : IrType} (plain : scalar type = true) :
    (∀ c ∈ type.print, typeChar c = true) ∨ ∃ space, space ≠ 0 ∧ type = .ptr space := by
  have closed : ∀ {word : Text}, word.all typeChar = true → ∀ c ∈ word, typeChar c = true :=
    List.all_eq_true.mp
  cases type with
  | void => exact Or.inl (closed (by decide))
  | int bits =>
      left
      intro c member
      rcases List.mem_cons.mp member with rfl | digit
      · decide
      · exact typeChar_of_isDigit (List.all_eq_true.mp (isDigit_printNat bits) c digit)
  | ptr space =>
      by_cases default : space = 0
      · subst default
        exact Or.inl (closed (by decide))
      · exact Or.inr ⟨space, default, rfl⟩
  | floating kind => cases kind <;> exact Or.inl (closed (by decide))
  | array | vector | struct | named | numbered => cases plain

/-- Other types end in a word that no pattern for types reads. -/
theorem compound_print {type : IrType} (compound : scalar type = false) :
    ∃ (words : List Text) (word : Text) (c : Char), fields isSpace type.print = words ++ [word] ∧
      c ∈ word ∧ typeChar c = false ∧ c ≠ '(' ∧ c ≠ ')' := by
  have closing : ∀ c : Char, (isSpace c = false ∧ typeChar c = false ∧ c ≠ '(' ∧ c ≠ ')') →
      (∃ front, type.print = front ++ [c]) →
      ∃ (words : List Text) (word : Text) (c : Char), fields isSpace type.print = words ++ [word] ∧
        c ∈ word ∧ typeChar c = false ∧ c ≠ '(' ∧ c ≠ ')' := by
    rintro c ⟨black, foreign⟩ ⟨front, shape⟩
    obtain ⟨words, word, split⟩ := fields_snoc black front
    exact ⟨words, word ++ [c], c, by rw [shape, split], List.mem_append_right _ (by simp), foreign⟩
  have single : Black isSpace type.print → '%' ∈ type.print →
      ∃ (words : List Text) (word : Text) (c : Char), fields isSpace type.print = words ++ [word] ∧
        c ∈ word ∧ typeChar c = false ∧ c ≠ '(' ∧ c ≠ ')' :=
    fun black member => ⟨[], type.print, '%', fields_black black, member, by decide⟩
  cases type with
  | void | int | ptr | floating => cases compound
  | array count element =>
      exact closing ']' (by decide)
        ⟨'[' :: (printNat count ++ " x ".toList ++ element.print), rfl⟩
  | vector scalable count element => exact closing '>' (by decide) ⟨_, rfl⟩
  | struct packed parts =>
      cases packed with
      | true => exact closing '>' (by decide) ⟨'<' :: printFields (IrType.printAll parts), rfl⟩
      | false =>
          apply closing '}' (by decide)
          have ends : " \x7d".toList = [' ', '}'] := by decide
          have empty : "{}".toList = ['{', '}'] := by decide
          rw [IrType.print, if_neg Bool.false_ne_true]
          cases IrType.printAll parts with
          | nil => exact ⟨['{'], empty⟩
          | cons first others =>
              rw [printFields, ends]
              · exact ⟨_ ++ [' '], (List.append_assoc _ [' '] ['}']).symm⟩
              · exact List.cons_ne_nil first others
  | named name =>
      by_cases quoted : needsQuotes name = true
      · apply closing '"' (by decide)
        rw [IrType.print, printName, if_pos quoted]
        exact ⟨'%' :: '"' :: name.flatMap escapeChar, rfl⟩
      · have bare : name.all bareChar = true := by
          cases all : name.all bareChar with
          | true => rfl
          | false => exact absurd (by rw [needsQuotes, all]; exact Bool.or_true _) quoted
        have shape : (IrType.named name).print = '%' :: name := by
          rw [IrType.print, printName, if_neg quoted]
        apply single
        · rw [shape]
          refine ⟨List.cons_ne_nil '%' name, ?_⟩
          have none_ : name.any isSpace = false := by
            rw [List.any_eq_false]
            intro c member
            rw [black_of_bareChar (List.all_eq_true.mp bare c member)]
            exact Bool.false_ne_true
          rw [List.any_cons, none_]
          decide
        · exact List.mem_cons_self
  | numbered index =>
      apply single _ List.mem_cons_self
      have digits := printNat_black index
      exact ⟨List.cons_ne_nil _ _, by rw [IrType.print, List.any_cons, digits.all]; decide⟩

/-! ## A declaration is cut in one way -/

/-- The words in front of the type. -/
def leadWords (header : Header) : List Text :=
  (if header.linkage = .external then [] else [header.linkage.keyword]) ++
    header.qualifiers.map fun qualifier => qualifier.val

theorem keyword_lower {linkage : Linkage} (printed : linkage ≠ .external) :
    Black isSpace linkage.keyword ∧ linkage.keyword.all lowerChar = true := by
  have closed : ∀ {word : Text}, word ≠ [] ∧ word.any isSpace = false ∧ word.all lowerChar = true →
      Black isSpace word ∧ word.all lowerChar = true :=
    fun ⟨filled, black, lower⟩ => ⟨⟨filled, black⟩, lower⟩
  cases linkage with
  | external => exact absurd rfl printed
  | internal | private_ | weak | weakOdr | linkonce | linkonceOdr | availableExternally | externWeak
  | common | appending => exact closed (by decide)

theorem lead_eq (header : Header) :
    header.lead = (leadWords header).flatMap fun word => word ++ [' '] := by
  rw [Header.lead, leadWords, List.flatMap_append, List.flatMap_map]
  congr 1
  cases header.linkage <;> simp [Linkage.print]

section Lead

variable {metadata : Printed} {header : Header}

theorem leadWords_black (orderly : Orderly metadata header) :
    ∀ word ∈ leadWords header, Black isSpace word := by
  intro word member
  rcases List.mem_append.mp member with first | later
  · by_cases default : header.linkage = .external
    · rw [if_pos default] at first
      cases first
    · rw [if_neg default] at first
      rw [List.mem_singleton.mp first]
      exact (keyword_lower default).1
  · obtain ⟨qualifier, among, rfl⟩ := List.mem_map.mp later
    exact orderly.words qualifier among

theorem fields_before (orderly : Orderly metadata header) :
    fields isSpace header.before = leadWords header ++ fields isSpace header.returns.print := by
  rw [Header.before, lead_eq]
  exact fields_flatMap_append rfl (leadWords_black orderly) _

end Lead

/-- The cut of a declaration without attachments. -/
def headerCut (header : Header) : Cut where
  blanks := [' ']
  words := header.lead
  returns := header.returns.print
  gap := [' ']
  name := printName header.name
  args := header.after.takeWhile (· != ')')
  post := (header.after.dropWhile (· != ')')).tail

theorem ends_black {front word : Text} (black : Black isSpace word) :
    headIs isSpace (front ++ word).reverse = false := by
  rw [List.reverse_append]
  cases reversed : word.reverse with
  | nil => exact absurd (List.reverse_eq_nil_iff.mp reversed) black.filled
  | cons c others => exact black.rejects (List.mem_reverse.mp (by rw [reversed]; exact List.mem_cons_self))

/-- What is read in front of the symbol starts with a word. -/
theorem cut_starts {cut : Cut} (fits : cut.Fits) :
    ∃ c rest, cut.words ++ cut.returns = c :: rest ∧ typeChar c = true := by
  obtain ⟨parts, all, split⟩ := fits.words
  cases parts with
  | nil =>
      obtain ⟨word, ⟨filled, letters⟩, same⟩ := returnRe_words fits.returns
      cases word with
      | nil => exact absurd rfl filled
      | cons c word =>
          have letter := letters c List.mem_cons_self
          rw [split]
          rcases same with same | ⟨spaces, space, -, -, -, same⟩
          · exact ⟨c, word, same, letter⟩
          · exact ⟨c, word ++ (spaces ++ space), same, letter⟩
  | cons part parts =>
      obtain ⟨-, word, spaces, isWord, -, rfl⟩ := all part List.mem_cons_self
      obtain ⟨filled, letters⟩ := Pattern.words_plus_chr.mp isWord
      cases word with
      | nil => exact absurd rfl filled
      | cons c word =>
          refine ⟨c, _, by rw [split]; rfl, typeChar_of_lowerChar (letters c List.mem_cons_self)⟩

section Front

variable {metadata : Printed} {header : Header} {cut : Cut}

/-- The words of what is read as a type. -/
theorem fields_returns (fits : cut.Fits) :
    ∃ word : Text, (Black isSpace word ∧ ∀ c ∈ word, typeChar c = true) ∧
      ((cut.returns = word ∧ fields isSpace cut.returns = [word]) ∨
        ∃ spaces space : Text, (∀ c ∈ spaces, isSpace c = true) ∧ Black isSpace space ∧
          '(' ∈ space ∧ (∀ c ∈ space, typeChar c = true ∨ c = '(' ∨ c = ')') ∧
          cut.returns = word ++ (spaces ++ space) ∧ fields isSpace cut.returns = [word, space]) := by
  obtain ⟨word, ⟨filled, letters⟩, shape⟩ := returnRe_words fits.returns
  have black : Black isSpace word := black_of_all filled letters fun c => black_of_typeChar
  refine ⟨word, ⟨black, letters⟩, ?_⟩
  rcases shape with same | ⟨spaces, space, ⟨apart, white⟩, opens, chars, same⟩
  · exact Or.inl ⟨same, by rw [same, fields_black black]⟩
  · have spaceBlack : Black isSpace space := by
      refine ⟨List.ne_nil_of_mem opens, List.any_eq_false.mpr ?_⟩
      intro c member
      rw [Bool.not_eq_true]
      rcases chars c member with letter | rfl | rfl
      · exact black_of_typeChar letter
      · decide
      · decide
    refine Or.inr ⟨spaces, space, white, spaceBlack, opens, chars, same, ?_⟩
    rw [same, fields_word_append black apart white, fields_black spaceBlack]

theorem fields_scalar {type : IrType} (plain : scalar type = true) :
    ((∀ c ∈ type.print, typeChar c = true) ∧ fields isSpace type.print = [type.print]) ∨
      ∃ space, type.print = "ptr".toList ++ ' ' :: addressSpace space ∧
        fields isSpace type.print = ["ptr".toList, addressSpace space] := by
  rcases scalar_print plain with letters | ⟨space, other, rfl⟩
  · have black := black_of_all type.print_ne_nil letters fun c => black_of_typeChar
    exact Or.inl ⟨letters, fields_black black⟩
  · have word : Black isSpace "ptr".toList := ⟨by decide, by decide⟩
    refine Or.inr ⟨space, print_ptr other, ?_⟩
    rw [print_ptr other]
    exact (fields_append_white rfl _ _).trans
      (congr_arg₂ _ (fields_black word) (fields_black (addressSpace_black space)))

theorem opens_addressSpace (space : Nat) : '(' ∈ addressSpace space :=
  List.mem_append_left _ (List.mem_append_left _ (by decide))

/-- What is read in front of the symbol is a scalar behind plain words. -/
theorem front_words (orderly : Orderly metadata header) (fits : cut.Fits)
    (same : header.before ++ [' '] = cut.words ++ cut.returns ++ cut.gap) :
    (∀ word ∈ leadWords header, word.all lowerChar = true) ∧ scalar header.returns = true ∧
      fields isSpace header.returns.print = fields isSpace cut.returns := by
  obtain ⟨words, lower, reads⟩ := wordsRe_words fits.words
  obtain ⟨word, ⟨-, letters⟩, shape⟩ := fields_returns fits
  have spaces : leadWords header ++ fields isSpace header.returns.print =
      words ++ fields isSpace cut.returns := by
    have both := congrArg (fields isSpace) same
    rwa [fields_append_spaces fits.gap.2, fields_append_spaces (by simp [isSpace]), reads,
      fields_before orderly] at both
  -- the last word decides which type it is
  have noParenthesis : '(' ∉ word := fun member => absurd (letters _ member) (by decide)
  cases plain : scalar header.returns with
  | false =>
      obtain ⟨front, last, c, print, member, foreign, opens, closes⟩ := compound_print plain
      rw [print, ← List.append_assoc] at spaces
      rcases shape with ⟨-, read⟩ | ⟨_, space, -, -, -, chars, -, read⟩
      · rw [read] at spaces
        obtain rfl := List.singleton_inj.mp (List.append_inj' spaces rfl).2
        rw [letters c member] at foreign
        cases foreign
      · rw [read, show [word, space] = [word] ++ [space] from rfl, ← List.append_assoc] at spaces
        obtain rfl := List.singleton_inj.mp (List.append_inj' spaces rfl).2
        rcases chars c member with letter | same | same
        · rw [letter] at foreign
          cases foreign
        · exact absurd same opens
        · exact absurd same closes
  | true =>
      suffices ends : leadWords header = words ∧
          fields isSpace header.returns.print = fields isSpace cut.returns by
        exact ⟨ends.1 ▸ lower, rfl, ends.2⟩
      rcases fields_scalar plain with ⟨chars, print⟩ | ⟨index, -, print⟩
      · have none_ : '(' ∉ header.returns.print := fun member =>
          absurd (chars _ member) (by decide)
        rcases shape with ⟨-, read⟩ | ⟨_, space, -, -, opens, -, -, read⟩
        · rw [print, read] at spaces ⊢
          exact List.append_inj' spaces rfl
        · rw [print, read, show [word, space] = [word] ++ [space] from rfl,
            ← List.append_assoc] at spaces
          rw [List.singleton_inj.mp (List.append_inj' spaces rfl).2] at none_
          exact absurd opens none_
      · have opens := opens_addressSpace index
        rcases shape with ⟨-, read⟩ | ⟨_, space, -, -, -, -, -, read⟩
        · have cut_ : ∀ first last : Text, [first, last] = [first] ++ [last] := fun _ _ => rfl
          rw [print, read, cut_, ← List.append_assoc] at spaces
          rw [List.singleton_inj.mp (List.append_inj' spaces rfl).2] at opens
          exact absurd opens noParenthesis
        · rw [print, read] at spaces ⊢
          exact List.append_inj' spaces rfl

/-- And the text is cut at the words. -/
theorem front_texts (orderly : Orderly metadata header) (fits : cut.Fits)
    (same : header.before ++ [' '] = cut.words ++ cut.returns ++ cut.gap) :
    cut.words = header.lead ∧ cut.returns = header.returns.print ∧ cut.gap = [' '] := by
  obtain ⟨-, plain, types⟩ := front_words orderly fits same
  obtain ⟨word, ⟨black, -⟩, shape⟩ := fields_returns fits
  have blank : ∀ c ∈ [' '], isSpace c = true := by simp [isSpace]
  rcases fields_scalar plain with ⟨-, print⟩ | ⟨index, printed, print⟩
  · rcases shape with ⟨whole, read⟩ | ⟨_, _, -, -, -, -, -, read⟩
    · rw [print, read] at types
      have type := List.singleton_inj.mp types
      rw [Header.before, whole, type] at same
      obtain ⟨front, gap⟩ := split_white_end blank fits.gap.2 (ends_black black) (ends_black black) same
      exact ⟨(List.append_cancel_right front).symm, whole.trans type.symm, gap.symm⟩
    · rw [print, read] at types
      cases (List.cons.inj types).2
  · rcases shape with ⟨-, read⟩ | ⟨spaces, space, white, ended, -, -, whole, read⟩
    · rw [print, read] at types
      cases (List.cons.inj types).2
    · rw [print, read] at types
      obtain ⟨first, later⟩ := List.cons.inj types
      obtain rfl := List.singleton_inj.mp later
      have regrouped : header.lead ++ word ++ [' '] ++ addressSpace index ++ [' '] =
          cut.words ++ word ++ spaces ++ addressSpace index ++ cut.gap := by
        rw [Header.before, whole, printed, first] at same
        simpa only [List.append_assoc, List.cons_append, List.nil_append] using same
      obtain ⟨front, gap⟩ :=
        split_white_end blank fits.gap.2 (ends_black ended) (ends_black ended) regrouped
      obtain ⟨lead, between⟩ := split_white_end blank white (ends_black black) (ends_black black)
        (List.append_cancel_right front)
      refine ⟨(List.append_cancel_right lead).symm, ?_, gap.symm⟩
      rw [whole, printed, first, ← between]
      rfl

end Front

section Back

variable {header : Header} {cut : Cut} {rest tail : Text}

theorem newline_not_mem_after (header : Header) : '\n' ∉ header.after := by
  intro member
  apply not_newline_of_printable header.printable_print
  rw [Header.print]
  exact List.mem_append_right _ (List.mem_cons_of_mem _ member)

theorem after_split (header : Header) : ')' ∈ header.after ∧
    header.after = (headerCut header).args ++ ')' :: (headerCut header).post := by
  have member : ')' ∈ header.after := by simp [Header.after]
  obtain ⟨more, dropped⟩ := Pattern.dropWhile_at_closer member
  have split := @List.takeWhile_append_dropWhile _ (· != ')') header.after
  refine ⟨member, ?_⟩
  rw [headerCut, dropped, List.tail_cons, ← dropped, split]

/-- A name is read if it is printed without quotes, and as it is printed. -/
theorem back_name (fits : cut.Fits) {before after : Text}
    (same : printName header.name ++ '(' :: before = cut.name ++ '(' :: after) :
    PlainName header.name ∧ cut.name = printName header.name ∧ before = after := by
  obtain ⟨filled, symbols⟩ := fits.name
  have bare : needsQuotes header.name = false := by
    cases quoted : needsQuotes header.name with
    | false => rfl
    | true =>
        rw [printName, quoted, if_pos rfl, quote, List.cons_append] at same
        cases shape : cut.name with
        | nil => exact absurd shape filled
        | cons c others =>
            rw [shape] at same symbols
            have symbol := symbols c List.mem_cons_self
            rw [← (List.cons.inj same).1] at symbol
            exact absurd symbol (by decide)
  have printed : printName header.name = header.name := by
    rw [printName, bare]
    rfl
  rw [needsQuotes, Bool.or_eq_false_iff, Bool.not_eq_false'] at bare
  have chars := List.all_eq_true.mp bare.2
  rw [printed] at same ⊢
  obtain ⟨name, rfl⟩ := split_first (fun member => absurd (chars _ member) (by decide))
    (fun member => absurd (symbols _ member) (by decide)) same
  refine ⟨⟨header.named, bare.1, List.all_eq_true.mpr ?_⟩, name.symm, rfl⟩
  intro c member
  rw [Bool.and_eq_true, bne_iff_ne]
  refine ⟨chars c member, ?_⟩
  rintro rfl
  exact absurd (symbols '-' (name ▸ member)) (by decide)

theorem back_texts (fits : cut.Fits) (restEnds : atLineEnd rest = true)
    (tailEnds : atLineEnd tail = true)
    (same : header.after ++ tail = cut.args ++ ')' :: (cut.post ++ rest)) :
    cut.args = (headerCut header).args ∧ cut.post = (headerCut header).post ∧ rest = tail := by
  have line : ∀ {text : Text}, '\n' ∉ text → ∀ c ∈ text, (c != '\n') = true :=
    fun oneLine c member => bne_iff_ne.mpr fun same => oneLine (same ▸ member)
  have clean : ')' ∉ (headerCut header).args := by
    intro member
    simpa using List.mem_takeWhile_imp member
  rw [(after_split header).2, List.append_assoc, List.cons_append] at same
  obtain ⟨args, behind⟩ := split_first clean fits.args same
  have postLine : '\n' ∉ (headerCut header).post := by
    intro member
    apply newline_not_mem_after header
    rw [(after_split header).2]
    exact List.mem_append_right _ (List.mem_cons_of_mem _ member)
  obtain ⟨post, ends⟩ := split_white (line postLine) (line fits.post)
    (Pattern.headIs_of_atLineEnd tailEnds rfl) (Pattern.headIs_of_atLineEnd restEnds rfl) behind
  exact ⟨args.symm, post.symm, ends.symm⟩

end Back

/-! ## The match of a declaration -/

theorem print_starts (type : IrType) : headIs isSpace type.print = false := by
  cases type with
  | void | int | array | named | numbered => rfl
  | ptr space =>
      rw [IrType.print, printPtr]
      split <;> rfl
  | floating kind => cases kind <;> rfl
  | vector scalable count element => cases scalable <;> rfl
  | struct packed parts =>
      rw [IrType.print]
      cases packed with
      | true => rfl
      | false => cases IrType.printAll parts <;> rfl

section Declared

variable {metadata : Printed} {header : Header}

theorem before_starts (orderly : Orderly metadata header) : headIs isSpace header.before = false := by
  have black := leadWords_black orderly
  rw [Header.before, lead_eq]
  cases words : leadWords header with
  | nil => exact print_starts header.returns
  | cons word others =>
      have first := black word (words ▸ List.mem_cons_self)
      cases word with
      | nil => exact absurd rfl first.filled
      | cons c word => exact first.rejects List.mem_cons_self

theorem print_headerCut (header : Header) : (headerCut header).print = declareLine [] header := by
  have keyword : "declare ".toList = "declare".toList ++ [' '] := by decide
  have symbol : " @".toList = [' ', '@'] := by decide
  have regroup : ∀ {word lead returns name args post first second : Text}, first = word ++ [' '] →
      second = [' ', '@'] →
      word ++ ([' '] ++ (lead ++ (returns ++ ([' '] ++ '@' ::
        (name ++ '(' :: (args ++ ')' :: post)))))) =
        first ++ [] ++ (lead ++ returns ++ second ++ name ++ '(' :: (args ++ ')' :: post)) := by
    rintro word lead returns name args post _ _ rfl rfl
    simp
  have printed : (headerCut header).print = "declare".toList ++ ([' '] ++ (header.lead ++
      (header.returns.print ++ ([' '] ++ '@' :: (printName header.name ++ '(' ::
        ((headerCut header).args ++ ')' :: (headerCut header).post)))))) := rfl
  have whole : declareLine [] header = "declare ".toList ++ [] ++ (header.lead ++
      header.returns.print ++ " @".toList ++ printName header.name ++ '(' :: header.after) := rfl
  have split := (after_split header).2
  rw [split] at whole
  exact printed.trans ((regroup keyword symbol).trans whole.symm)

theorem lead_words (orderly : Orderly metadata header)
    (lower : ∀ word ∈ leadWords header, word.all lowerChar = true) :
    wordsRe.Words header.lead := by
  refine ⟨(leadWords header).map fun word => word ++ [' '], ?_, ?_⟩
  · intro part member
    obtain ⟨word, among, rfl⟩ := List.mem_map.mp member
    refine ⟨List.append_ne_nil_of_right_ne_nil _ (List.cons_ne_nil ' ' []), word, [' '], ?_, ?_, rfl⟩
    · exact Pattern.words_plus_chr.mpr
        ⟨(leadWords_black orderly word among).filled, List.all_eq_true.mp (lower word among)⟩
    · exact Pattern.words_plus_chr.mpr ⟨List.cons_ne_nil ' ' [], by simp [isSpace]⟩
  · rw [lead_eq, List.flatMap_def]

theorem returns_words {type : IrType} (plain : scalar type = true) : returnRe.Words type.print := by
  rcases scalar_print plain with letters | ⟨space, other, rfl⟩
  · exact ⟨type.print, [], Pattern.words_plus_chr.mpr ⟨type.print_ne_nil, letters⟩, Or.inr rfl,
      (List.append_nil _).symm⟩
  · have digits := printNat_black space
    have blank : (Pattern.plus true (.chr isSpace)).Words [' '] :=
      Pattern.words_plus_chr.mpr ⟨List.cons_ne_nil ' ' [], by simp [isSpace]⟩
    have number : (Pattern.plus true (.chr Char.isDigit)).Words (printNat space) :=
      Pattern.words_plus_chr.mpr ⟨digits.filled, List.all_eq_true.mp (isDigit_printNat space)⟩
    have word : (Pattern.plus true (.chr typeChar)).Words "ptr".toList :=
      Pattern.words_plus_chr.mpr ⟨by decide, List.all_eq_true.mp (by decide)⟩
    have closed : ∀ {keyword : Text}, (Pattern.cat [.plus true (.chr isSpace), .lit keyword,
        .plus true (.chr Char.isDigit), .lit [')']]).Words
          (' ' :: (keyword ++ printNat space ++ [')'])) := by
      intro keyword
      rw [List.append_assoc]
      exact ⟨[' '], keyword ++ (printNat space ++ [')']), blank,
        ⟨keyword, printNat space ++ [')'], rfl, ⟨printNat space, [')'], number, rfl, rfl⟩, rfl⟩, rfl⟩
    rw [print_ptr other]
    exact ⟨"ptr".toList, ' ' :: addressSpace space, word, Or.inl closed, rfl⟩

theorem headerCut_fits (orderly : Orderly metadata header) (legible : Legible header) :
    (headerCut header).Fits where
  blanks := ⟨List.cons_ne_nil ' ' [], by simp [headerCut, isSpace]⟩
  words := by
    apply lead_words orderly
    intro word member
    rcases List.mem_append.mp member with first | later
    · by_cases default : header.linkage = .external
      · rw [if_pos default] at first
        cases first
      · rw [if_neg default] at first
        rw [List.mem_singleton.mp first]
        exact (keyword_lower default).2
    · obtain ⟨qualifier, among, rfl⟩ := List.mem_map.mp later
      exact legible.qualifiers qualifier among
  returns := returns_words legible.returns
  gap := ⟨List.cons_ne_nil ' ' [], by simp [headerCut, isSpace]⟩
  name := by
    change printName header.name ≠ [] ∧ _
    rw [legible.name.printName]
    refine ⟨header.named, ?_⟩
    change ∀ c ∈ printName header.name, _
    rw [legible.name.printName]
    exact List.all_eq_true.mp legible.name.all_symbolChar
  args := by
    intro member
    simpa using List.mem_takeWhile_imp member
  post := by
    intro member
    apply newline_not_mem_after header
    rw [(after_split header).2]
    exact List.mem_append_right _ (List.mem_cons_of_mem _ member)

/-- The text of a declaration, cut at its first symbol. -/
theorem declareLine_symbol (metadata : Text) (header : Header) (tail : Text) :
    declareLine metadata header ++ tail = "declare".toList ++ ([' '] ++
      (metadata ++ header.before ++ [' ']) ++ '@' ::
        (printName header.name ++ '(' :: (header.after ++ tail))) := by
  have keyword : "declare ".toList = "declare".toList ++ [' '] := by decide
  have symbol : " @".toList = [' ', '@'] := by decide
  have regroup : ∀ {word first second before name after : Text}, first = word ++ [' '] →
      second = [' ', '@'] →
      first ++ metadata ++ (before ++ second ++ name ++ '(' :: after) ++ tail =
        word ++ ([' '] ++ (metadata ++ before ++ [' ']) ++ '@' :: (name ++ '(' :: (after ++ tail))) := by
    rintro word _ _ before name after rfl rfl
    simp
  have whole : declareLine metadata header = "declare ".toList ++ metadata ++
      (header.before ++ " @".toList ++ printName header.name ++ '(' :: header.after) := rfl
  rw [whole]
  exact regroup keyword symbol

theorem cut_symbol (cut : Cut) (rest : Text) :
    cut.print ++ rest = "declare".toList ++ (cut.blanks ++ (cut.words ++ cut.returns ++ cut.gap) ++
      '@' :: (cut.name ++ '(' :: (cut.args ++ ')' :: (cut.post ++ rest)))) := by
  unfold Cut.print
  generalize "declare".toList = word
  simp only [List.append_assoc, List.cons_append]

theorem front_clean {cut : Cut} (fits : cut.Fits) :
    '@' ∉ cut.blanks ++ (cut.words ++ cut.returns ++ cut.gap) := by
  have white : ∀ {spaces : Text}, (∀ c ∈ spaces, isSpace c = true) → '@' ∉ spaces :=
    fun all member => absurd (all _ member) (by decide)
  simp only [List.mem_append, not_or]
  exact ⟨white fits.blanks.2,
    ⟨Pattern.clean_of_words rfl (by decide) fits.words,
      Pattern.clean_of_words rfl (by decide) fits.returns⟩, white fits.gap.2⟩

/-- The pattern reads an orderly declaration whole and in one way, or not at all. -/
theorem declRe_reaches_declared (orderly : Orderly metadata header) {past tail : Text}
    (starts : atLineStart past = true) (ends : atLineEnd tail = true) {stop : Cursor} :
    declRe.Reaches ⟨past, declareLine metadata.val header ++ tail, []⟩ stop ↔
      (metadata.val = [] ∧ Legible header) ∧
        stop = ⟨(declareLine [] header).reverse ++ past, tail, (headerCut header).groups⟩ := by
  rw [declRe_reaches]
  constructor
  · rintro ⟨cut, rest, fits, -, restEnds, same, rfl⟩
    rw [declareLine_symbol, cut_symbol] at same
    have noSymbol : '@' ∉ [' '] ++ (metadata.val ++ header.before ++ [' ']) := by
      have absent := orderly.noSymbol
      simp only [List.mem_append, List.mem_singleton, not_or] at absent ⊢
      exact ⟨by decide, absent, by decide⟩
    obtain ⟨front, back⟩ := split_first noSymbol (front_clean fits) (List.append_cancel_left same)
    obtain ⟨c, others, shape, letter⟩ := cut_starts fits
    have starts_ : headIs isSpace (metadata.val ++ header.before ++ [' ']) = false := by
      have before := before_starts orderly
      rcases orderly.attached with bare | mark
      · rw [bare, List.nil_append]
        cases shape : header.before with
        | nil => exact absurd shape (List.append_ne_nil_of_right_ne_nil _ header.returns.print_ne_nil)
        | cons d more => rwa [shape] at before
      · cases shape : metadata.val with
        | nil => rw [shape] at mark; cases mark
        | cons d more =>
            rw [shape] at mark
            obtain rfl : d = '!' := beq_iff_eq.mp mark
            rfl
    obtain ⟨blanks, front⟩ := split_white (by simp [isSpace]) fits.blanks.2 starts_
      (by rw [shape]; exact black_of_typeChar letter) front
    have bare : metadata.val = [] := by
      rcases orderly.attached with bare | mark
      · exact bare
      · cases inside : metadata.val with
        | nil => rfl
        | cons d more =>
            rw [inside, shape] at front
            rw [inside] at mark
            obtain rfl : d = '!' := beq_iff_eq.mp mark
            rw [← (List.cons.inj front).1] at letter
            exact absurd letter (by decide)
    rw [bare, List.nil_append] at front
    obtain ⟨lower, plain, -⟩ := front_words orderly fits front
    obtain ⟨words, returns, gap⟩ := front_texts orderly fits front
    obtain ⟨named, name, back⟩ := back_name fits back
    obtain ⟨args, post, rfl⟩ := back_texts fits restEnds ends back
    have whole : cut = headerCut header := Cut.ext blanks.symm words returns gap name args post
    refine ⟨⟨bare, ?_, plain, named⟩, by rw [whole, print_headerCut]⟩
    intro qualifier among
    exact lower _ (List.mem_append_right _ (List.mem_map_of_mem among))
  · rintro ⟨⟨bare, legible⟩, rfl⟩
    refine ⟨headerCut header, tail, headerCut_fits orderly legible, starts, ends, ?_, ?_⟩
    · rw [bare, print_headerCut]
    · rw [print_headerCut]

theorem declareLine_ne_nil (metadata : Text) (header : Header) : declareLine metadata header ≠ [] := by
  intro none_
  have whole := declareLine_symbol metadata header []
  rw [none_] at whole
  have symbol : '@' ∈ ([] : Text) ++ [] := by
    rw [whole]
    exact List.mem_append_right _ (List.mem_append_right _ List.mem_cons_self)
  cases symbol

theorem matchAt_declared (orderly : Orderly metadata header) {past tail : Text}
    (starts : atLineStart past = true) (ends : atLineEnd tail = true) :
    declRe.matchAt past (declareLine metadata.val header ++ tail) =
      if metadata.val = [] ∧ Legible header then
        some ⟨declareLine metadata.val header, (headerCut header).groups⟩
      else none := by
  apply Pattern.matchAt_of_reaches_iff (declareLine_ne_nil _ header)
  intro stop
  rw [declRe_reaches_declared orderly starts ends]
  constructor
  · rintro ⟨readable, rfl⟩
    exact ⟨readable, by rw [readable.1]⟩
  · rintro ⟨readable, rfl⟩
    exact ⟨readable, by rw [readable.1]⟩

end Declared

/-! ## Line by line -/

theorem matchAt_declRe_undeclared {past line tail : Text} (other : declares line = false)
    (filled : line ≠ "declare".toList) (ends : atLineEnd tail = true) :
    declRe.matchAt past (line ++ tail) = none := by
  cases found : declRe.matchAt past (line ++ tail) with
  | none => rfl
  | some m =>
      obtain ⟨stop, path, -⟩ := Pattern.matchAt_eq_some found
      obtain ⟨cut, rest, fits, -, -, split, -⟩ := declRe_reaches.mp path
      have absent := afterKeyword_undeclared other filled (Pattern.headIs_of_atLineEnd ends rfl)
      cases blanks : cut.blanks with
      | nil => exact absurd blanks fits.blanks.1
      | cons c others =>
          have white := fits.blanks.2 c (blanks ▸ List.mem_cons_self)
          rw [split, cut_symbol, blanks, List.cons_append, List.cons_append, afterKeyword,
            dropPrefix?_append] at absent
          simp [white] at absent

/-- Whatever stands around the line, the same is found at its start, and nothing else. -/
structure Standing (line : Text) : Prop where
  oneLine : '\n' ∉ line
  same : ∀ {past tail : Text}, atLineStart past = true → atLineEnd tail = true →
    declRe.matchAt past (line ++ tail) = declRe.matchAt [] line
  whole : ∀ {m : Match}, declRe.matchAt [] line = some m → m.text = line

/-- What a line becomes. -/
def tagLine (file line : Text) (added : Added) : Text × Added :=
  ((declRe.matchAt [] line).map fun m => tagDeclare file m added).getD (line, added)

def tagLines (file : Text) : List Text → Added → List Text × Added
  | [], added => ([], added)
  | line :: lines, added =>
      let (line, added) := tagLine file line added
      let (lines, added) := tagLines file lines added
      (line :: lines, added)

theorem renderState_plain {State : Type} (replace : Match → State → Text × State) (text : Text)
    (pieces : List Piece) (state : State) :
    renderState replace (text.map .plain ++ pieces) state =
      (text ++ (renderState replace pieces state).1, (renderState replace pieces state).2) := by
  induction text with
  | nil => rfl
  | cons c text inductionHypothesis =>
      rw [List.map_cons, List.cons_append, renderState, inductionHypothesis]
      rfl

theorem renderState_hit {State : Type} (replace : Match → State → Text × State) (m : Match)
    (pieces : List Piece) (state : State) :
    renderState replace (.hit m :: pieces) state =
      ((replace m state).1 ++ (renderState replace pieces (replace m state).2).1,
        (renderState replace pieces (replace m state).2).2) := rfl

theorem matchAt_newline (past rest : Text) : declRe.matchAt past ('\n' :: rest) = none :=
  @matchAt_declRe_undeclared past [] ('\n' :: rest) rfl (by decide) rfl

theorem atLineEnd_tailOf (lines : List Text) : atLineEnd (Pattern.tailOf lines) = true := by
  cases lines <;> rfl

theorem tagLines_cons (file line : Text) (lines : List Text) (added : Added) :
    tagLines file (line :: lines) added =
      ((tagLine file line added).1 :: (tagLines file lines (tagLine file line added).2).1,
        (tagLines file lines (tagLine file line added).2).2) := rfl

/-- The substitution goes from line to line and hands the state on. -/
theorem renderState_lines (file : Text) {lines : List Text} (standing : ∀ line ∈ lines, Standing line)
    {past : Text} (starts : atLineStart past = true) (added : Added) :
    renderState (tagDeclare file) (declRe.scan past (joinLines lines) 0) added =
      (joinLines (tagLines file lines added).1, (tagLines file lines added).2) := by
  induction lines generalizing past added with
  | nil => rfl
  | cons line lines inductionHypothesis =>
      have stands := standing line List.mem_cons_self
      have behind : ∀ added, renderState (tagDeclare file)
          (declRe.scan (line.reverse ++ past) (Pattern.tailOf lines) 0) added =
            (Pattern.tailOf (tagLines file lines added).1, (tagLines file lines added).2) := by
        intro added
        have later := @inductionHypothesis
          (fun other member => standing other (List.mem_cons_of_mem _ member))
          ('\n' :: (line.reverse ++ past)) rfl added
        cases lines with
        | nil => rfl
        | cons next rest =>
            have newline : declRe.scan (line.reverse ++ past) (Pattern.tailOf (next :: rest)) 0 =
                .plain '\n' ::
                  declRe.scan ('\n' :: (line.reverse ++ past)) (joinLines (next :: rest)) 0 := by
              change declRe.scan _ ('\n' :: joinLines (next :: rest)) 0 = _
              rw [Pattern.scan, matchAt_newline]
            rw [newline, renderState, later]
            rfl
      have same := stands.same starts (atLineEnd_tailOf lines)
      rw [Pattern.joinLines_cons, tagLines_cons, Pattern.joinLines_cons]
      cases found : declRe.matchAt [] line with
      | none =>
          rw [found] at same
          have copied : tagLine file line added = (line, added) := by rw [tagLine, found]; rfl
          have pieces : declRe.scan past (line ++ Pattern.tailOf lines) 0 =
              line.map .plain ++ declRe.scan (line.reverse ++ past) (Pattern.tailOf lines) 0 :=
            Pattern.scan_copied stands.oneLine same
          rw [pieces, renderState_plain, behind, copied]
      | some m =>
          rw [found] at same
          have replaced : tagLine file line added = tagDeclare file m added := by
            rw [tagLine, found]
            rfl
          obtain ⟨-, -, -, filled, -⟩ := Pattern.matchAt_eq_some found
          obtain rfl := stands.whole found
          rw [Pattern.scan_hit filled same, renderState_hit, behind, replaced]

/-! ## The text of a module -/

/-- The parameters as they are read, up to the first parenthesis that closes. -/
def readParameters (header : Header) : Text := header.parameters.val.takeWhile (· != ')')

/-- The declaration with its prototype and its section. -/
def taggedLine (id : Nat) (header : Header) : Text :=
  declareLine ("!dbg ".toList ++ printId id ++ [' ']) header ++ " section \".ksyms\"".toList

/-- Which declarations are tagged. -/
def Tagged (metadata : Printed) (header : Header) : Prop :=
  (metadata.val = [] ∧ Legible header) ∧
    untagged header.name (declareLine metadata.val header) = false

instance (metadata : Printed) (header : Header) : Decidable (Tagged metadata header) :=
  inferInstanceAs (Decidable (_ ∧ _))

def tagItem (file : Text) (added : Added) : Item → List Text × Added
  | .declaration metadata header =>
      if Tagged metadata header then
        let (id, added) := attach file header.name header.returns.print (readParameters header) added
        ([taggedLine id header], added)
      else ([declareLine metadata.val header], added)
  | item => (item.lines, added)

def tagItems (file : Text) : Module → Added → List Text × Added
  | [], added => ([], added)
  | item :: items, added =>
      let (lines, added) := tagItem file added item
      let (others, added) := tagItems file items added
      (lines ++ others, added)

theorem args_eq (header : Header) : (headerCut header).args = readParameters header := by
  have shape : header.after = header.parameters.val ++
      ')' :: (header.attributes.val ++ printSection header.sectionName ++ header.trailer.val) := by
    rw [Header.after]
    simp only [List.append_assoc, List.cons_append, List.nil_append]
  rw [headerCut, shape, takeWhile_append_stops (by rfl)]
  rfl

section Tag

variable {file : Text} {metadata : Printed} {header : Header}

theorem matchAt_alone (orderly : Orderly metadata header) :
    declRe.matchAt [] (declareLine metadata.val header) =
      if metadata.val = [] ∧ Legible header then
        some ⟨declareLine metadata.val header, (headerCut header).groups⟩
      else none := by
  have alone := @matchAt_declared _ _ orderly [] [] rfl rfl
  rwa [List.append_nil] at alone

theorem standing_declared (orderly : Orderly metadata header)
    (oneLine : '\n' ∉ declareLine metadata.val header) :
    Standing (declareLine metadata.val header) where
  oneLine := oneLine
  same starts ends := (matchAt_declared orderly starts ends).trans (matchAt_alone orderly).symm
  whole found := by
    rw [matchAt_alone orderly] at found
    split at found
    · rw [← Option.some.inj found]
    · cases found

/-- The tagged line has the prototype where attachments stand, and the section behind. -/
theorem tagged_text (id : Nat) (header : Header) :
    "declare !dbg ".toList ++ printId id ++ ' ' :: (headerCut header).words ++
      (headerCut header).returns ++ " @".toList ++ (headerCut header).name ++
      '(' :: (headerCut header).args ++ ')' :: (headerCut header).post ++
      " section \".ksyms\"".toList = taggedLine id header := by
  have keyword : "declare !dbg ".toList = "declare ".toList ++ "!dbg ".toList := by decide
  have regroup : ∀ {whole first second number lead returns symbol name args post section_ : Text},
      whole = first ++ second →
      whole ++ number ++ ' ' :: lead ++ returns ++ symbol ++ name ++ '(' :: args ++ ')' :: post ++
        section_ =
      first ++ (second ++ number ++ [' ']) ++
        (lead ++ returns ++ symbol ++ name ++ '(' :: (args ++ ')' :: post)) ++ section_ := by
    rintro _ first second number lead returns symbol name args post section_ rfl
    simp
  have whole : taggedLine id header = "declare ".toList ++ ("!dbg ".toList ++ printId id ++ [' ']) ++
      (header.lead ++ header.returns.print ++ " @".toList ++ printName header.name ++
        '(' :: header.after) ++ " section \".ksyms\"".toList := rfl
  have split := (after_split header).2
  rw [split] at whole
  exact (regroup keyword).trans whole.symm

theorem headerCut_name (header : Header) : (headerCut header).name = printName header.name := rfl

/-- What becomes of a declaration that is read. -/
theorem tagDeclare_cut (file line : Text) (header : Header) (added : Added) :
    tagDeclare file ⟨line, (headerCut header).groups⟩ added =
      if untagged (headerCut header).name line then (line, added)
      else
        (taggedLine (attach file (headerCut header).name header.returns.print
            (readParameters header) added).1 header,
          (attach file (headerCut header).name header.returns.print (readParameters header)
            added).2) := by
  rw [← tagged_text, ← args_eq]
  rfl

theorem tagLine_declared (orderly : Orderly metadata header) (added : Added) :
    tagItem file added (.declaration metadata header) =
      ([(tagLine file (declareLine metadata.val header) added).1],
        (tagLine file (declareLine metadata.val header) added).2) := by
  rw [tagLine, matchAt_alone orderly]
  by_cases readable : metadata.val = [] ∧ Legible header
  · rw [if_pos readable, Option.map_some, Option.getD_some, tagDeclare_cut, headerCut_name,
      readable.2.name.printName]
    by_cases kept : untagged header.name (declareLine metadata.val header) = true
    · have not_ : ¬Tagged metadata header := fun tagged => absurd (tagged.2.symm.trans kept) (by decide)
      rw [if_pos kept, tagItem, if_neg not_]
    · have tagged : Tagged metadata header := ⟨readable, Bool.not_eq_true _ ▸ kept⟩
      rw [if_neg kept, tagItem, if_pos tagged]
  · have not_ : ¬Tagged metadata header := fun tagged => readable tagged.1
    rw [if_neg readable, tagItem, if_neg not_]
    rfl

end Tag

theorem matchAt_firstWord {past line tail : Text} (different : firstWord line ≠ "declare".toList)
    (ends : atLineEnd tail = true) : declRe.matchAt past (line ++ tail) = none := by
  have absent : declares line = false := by
    rw [declares, afterKeyword_eq_none (by decide) different]
    rfl
  apply matchAt_declRe_undeclared absent _ ends
  rintro rfl
  exact different (by decide)

theorem standing_undeclared {line : Text} (different : firstWord line ≠ "declare".toList)
    (oneLine : '\n' ∉ line) : Standing line ∧ declRe.matchAt [] line = none := by
  have alone : declRe.matchAt [] line = none := by
    have nothing := @matchAt_firstWord [] line [] different rfl
    rwa [List.append_nil] at nothing
  refine ⟨⟨oneLine, ?_, ?_⟩, alone⟩
  · intro past tail _ ends
    rw [matchAt_firstWord different ends, alone]
  · intro m found
    rw [alone] at found
    cases found

theorem tagLines_undeclared {file : Text} {lines : List Text}
    (quiet : ∀ line ∈ lines, declRe.matchAt [] line = none) (added : Added) :
    tagLines file lines added = (lines, added) := by
  induction lines with
  | nil => rfl
  | cons line lines inductionHypothesis =>
      have kept : tagLine file line added = (line, added) := by
        rw [tagLine, quiet line List.mem_cons_self]
        rfl
      rw [tagLines_cons, kept,
        inductionHypothesis fun other member => quiet other (List.mem_cons_of_mem _ member)]

theorem tagLines_append (file : Text) (first second : List Text) (added : Added) :
    tagLines file (first ++ second) added =
      ((tagLines file first added).1 ++ (tagLines file second (tagLines file first added).2).1,
        (tagLines file second (tagLines file first added).2).2) := by
  induction first generalizing added with
  | nil => rfl
  | cons line first inductionHypothesis =>
      rw [List.cons_append, tagLines_cons, tagLines_cons, inductionHypothesis]
      rfl

/-- The declarations of a module are orderly. -/
def OrderlyModule (m : Module) : Prop :=
  ∀ metadata header, Item.declaration metadata header ∈ m → Orderly metadata header

theorem standing_lines {m : Module} (orderly : OrderlyModule m) : ∀ line ∈ m.lines, Standing line := by
  intro line member
  have oneLine := Module.oneLine member
  obtain ⟨item, among, inside⟩ := List.mem_flatMap.mp member
  rcases firstWord_undeclared inside with different | ⟨metadata, header, rfl, rfl⟩
  · exact (standing_undeclared different oneLine).1
  · exact standing_declared (orderly metadata header among) oneLine

theorem tagLines_item {file : Text} {m : Module} (orderly : OrderlyModule m) {item : Item}
    (among : item ∈ m) (added : Added) :
    tagLines file item.lines added = tagItem file added item := by
  have others : (∀ metadata header, item ≠ .declaration metadata header) →
      tagLines file item.lines added = (item.lines, added) := by
    intro other
    apply tagLines_undeclared
    intro line inside
    have oneLine : '\n' ∉ line := Module.oneLine (List.mem_flatMap.mpr ⟨item, among, inside⟩)
    rcases firstWord_undeclared inside with different | ⟨metadata, header, same, -⟩
    · exact (standing_undeclared different oneLine).2
    · exact absurd same (other metadata header)
  cases item with
  | declaration metadata header =>
      rw [tagLine_declared (orderly metadata header among)]
      rfl
  | function header body => exact others fun _ _ => nofun
  | global variable_ => exact others fun _ _ => nofun
  | attributeGroup group => exact others fun _ _ => nofun
  | other line => exact others fun _ _ => nofun

theorem tagLines_items {file : Text} {m : Module} (orderly : OrderlyModule m) {items : Module}
    (among : items ⊆ m) (added : Added) :
    tagLines file items.lines added = tagItems file items added := by
  induction items generalizing added with
  | nil => rfl
  | cons item items inductionHypothesis =>
      have first := @tagLines_item file m orderly item (among List.mem_cons_self)
      have later := inductionHypothesis fun other member => among (List.mem_cons_of_mem _ member)
      rw [Module.lines, List.flatMap_cons, tagLines_append, first]
      rw [Module.lines] at later
      rw [later]
      rfl

/-- In the text of a module the declarations that are legible and not set apart get their
prototypes, one behind the other, and no other line changes. -/
theorem tagDeclares_text {m : Module} (orderly : OrderlyModule m) (file : Text) (added : Added) :
    tagDeclares file m.text added =
      (joinLines (tagItems file m added).1, (tagItems file m added).2) := by
  rw [← tagLines_items orderly (List.Subset.refl m)]
  exact renderState_lines file (standing_lines orderly) rfl added

/-- `declare ptr @bpf_find(ptr captures(none), i64)` -/
def kfunc : Header where
  linkage := .external
  qualifiers := []
  returns := .ptr 0
  name := "bpf_find".toList
  named := by decide
  parameters := ⟨"ptr captures(none), i64".toList, by decide⟩
  attributes := .empty
  sectionName := none
  trailer := .empty

theorem orderly_kfunc : OrderlyModule [.declaration .empty kfunc] := by
  intro metadata header member
  obtain ⟨rfl, rfl⟩ := Item.declaration.inj (List.mem_singleton.mp member)
  exact ⟨Or.inl rfl, fun qualifier among => (nomatch among), by decide⟩

theorem tagDeclares_text_kfunc :
    (tagDeclares "!0".toList (Module.text [.declaration .empty kfunc]) ⟨1, [], []⟩).1 =
      "declare !dbg !4 ptr @bpf_find(ptr captures(none), i64) section \".ksyms\"".toList := by
  rw [tagDeclares_text orderly_kfunc]
  decide

end LibarenaRs.Linker
