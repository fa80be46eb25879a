import LibarenaRs.Linker.Prototypes
import Mathlib.Data.List.Forall2
import Mathlib.Data.List.Nodup

/-!
# What a prototype says of its declaration

The prototype of a kfunc has a type for each piece between the commas that was read.  For
scalars that is one for each parameter, as far as the parameters were read.
-/

namespace LibarenaRs.Linker

open LibarenaRs.Regex LibarenaRs.Llvm

/-! ## Parameters -/

/-- The first word of a scalar. -/
def typeWord : IrType → Text
  | .ptr _ => "ptr".toList
  | type => type.print

/-- A parameter of a scalar type with the attributes that are printed behind it. -/
structure Parameter where
  type : IrType
  plain : scalar type = true
  attributes : List Printed
  noComma : ∀ mark ∈ attributes, ',' ∉ mark.val

namespace Parameter

def print (parameter : Parameter) : Text :=
  parameter.type.print ++ parameter.attributes.flatMap fun mark => ' ' :: mark.val

/-- The parameters up to the first with a parenthesis that closes, and that one. -/
def reached : List Parameter → List Parameter
  | [] => []
  | parameter :: others =>
      if ')' ∈ parameter.print then [parameter] else parameter :: reached others

/-- And what is read of them. -/
def pieces : List Parameter → List Text
  | [] => []
  | parameter :: others =>
      if ')' ∈ parameter.print then [parameter.print.takeWhile (· != ')')]
      else parameter.print :: pieces others

end Parameter

theorem takeWhile_of_not_mem {text : Text} {c : Char} (absent : c ∉ text) (more : Text) :
    (text ++ more).takeWhile (· != c) = text ++ more.takeWhile (· != c) :=
  List.takeWhile_append_of_pos fun _ member => bne_iff_ne.mpr fun same => absent (same ▸ member)

def isAttribute (word : Text) : Bool :=
  paramAttrs.contains word || "captures(".toList.isPrefixOf word || "align".toList.isPrefixOf word

/-- A text whose first word is a type. -/
def Starts (word text : Text) : Prop :=
  isAttribute word = false ∧ word ≠ "...".toList ∧ ∃ more, fields isSpace text = word :: more

theorem Starts.blank {word text : Text} (starts : Starts word text) : Starts word (' ' :: text) := by
  obtain ⟨plain, dots, more, read⟩ := starts
  have white : ∀ c ∈ [' '], isSpace c = true := by simp [isSpace]
  have skipped := fields_white_append white text
  exact ⟨plain, dots, more, skipped.trans read⟩

theorem Starts.stripAttrs {word text : Text} (starts : Starts word text) :
    stripAttrs text = word := by
  obtain ⟨plain, -, more, read⟩ := starts
  have kept : (!paramAttrs.contains word && !"captures(".toList.isPrefixOf word &&
      !"align".toList.isPrefixOf word) = true := by
    rw [isAttribute, Bool.or_eq_false_iff, Bool.or_eq_false_iff] at plain
    rw [plain.1.1, plain.1.2, plain.2]
    rfl
  rw [Linker.stripAttrs, show splitWords text = word :: more from read, List.filter_cons, if_pos kept]
  rfl

theorem Starts.counted {word text : Text} (starts : Starts word text) :
    text ≠ [] ∧ text ≠ "...".toList := by
  obtain ⟨-, dots, more, read⟩ := starts
  constructor
  · rintro rfl
    cases read
  · rintro rfl
    have alone : fields isSpace "...".toList = ["...".toList] :=
      fields_black ⟨by decide, by decide⟩
    rw [alone] at read
    exact dots (List.cons.inj read).1.symm

/-- No attribute starts like an integer type. -/
theorem isAttribute_int (rest : Text) : isAttribute ('i' :: rest) = false := by
  have others : paramAttrs.all (fun word => !word.isEmpty && !headIs (· == 'i') word) = true := by
    decide
  have noPrefix : ∀ {word : Text}, (!word.isEmpty && !headIs (· == 'i') word) = true →
      word.isPrefixOf ('i' :: rest) = false := by
    intro word different
    cases word with
    | nil => cases different
    | cons c word =>
        have other : (c == 'i') = false := by simpa [headIs] using different
        rw [List.isPrefixOf, other]
        rfl
  have notListed : paramAttrs.contains ('i' :: rest) = false := by
    rw [← Bool.not_eq_true, List.contains_iff_mem]
    intro member
    have different := List.all_eq_true.mp others _ member
    simp [headIs] at different
  rw [isAttribute, notListed, noPrefix (by decide), noPrefix (by decide)]
  rfl

/-- A scalar is printed as its first word, with a blank behind it if there is more. -/
structure Opens (word : Text) (rest : Text) : Prop where
  filled : word ≠ []
  letters : ∀ c ∈ word, typeChar c = true
  plain : isAttribute word = false
  dots : word ≠ "...".toList
  apart : rest = [] ∨ ∃ more, rest = ' ' :: more

theorem typeWord_opens {type : IrType} (plain : scalar type = true) :
    ∃ rest, type.print = typeWord type ++ rest ∧ Opens (typeWord type) rest ∧ ',' ∉ rest := by
  have closed : ∀ {word : Text}, (word ≠ [] ∧ word.all typeChar = true ∧ isAttribute word = false ∧
      word ≠ "...".toList) → ∀ {rest}, (rest = [] ∨ ∃ more, rest = ' ' :: more) →
      Opens word rest := by
    rintro word ⟨filled, letters, other, dots⟩ rest apart
    exact ⟨filled, List.all_eq_true.mp letters, other, dots, apart⟩
  have whole : type.print = typeWord type → Opens (typeWord type) [] →
      ∃ rest, type.print = typeWord type ++ rest ∧ Opens (typeWord type) rest ∧ ',' ∉ rest := by
    intro same opens
    exact ⟨[], by rw [same, List.append_nil], opens, List.not_mem_nil⟩
  cases type with
  | void => exact whole rfl (closed (by decide) (Or.inl rfl))
  | int bits =>
      apply whole rfl
      refine ⟨List.cons_ne_nil _ _, ?_, isAttribute_int _, ?_, Or.inl rfl⟩
      · intro c member
        rcases List.mem_cons.mp member with rfl | digit
        · decide
        · exact typeChar_of_isDigit (List.all_eq_true.mp (isDigit_printNat bits) c digit)
      · have dots : "...".toList = ['.', '.', '.'] := by decide
        rw [dots]
        exact fun same => absurd (List.cons.inj same).1 (by decide)
  | ptr space =>
      by_cases default : space = 0
      · subst default
        exact whole rfl (closed (by decide) (Or.inl rfl))
      · have pointer : Opens "ptr".toList (' ' :: addressSpace space) :=
          closed (by decide) (Or.inr ⟨addressSpace space, rfl⟩)
        have number : ',' ∉ printNat space := printNat_not_mem (by decide)
        have keyword : ',' ∉ "addrspace(".toList := by decide
        have noComma : ',' ∉ ' ' :: addressSpace space := by
          unfold addressSpace
          simp only [List.mem_cons, List.mem_append, List.not_mem_nil, or_false, not_or]
          exact ⟨by decide, ⟨keyword, number⟩, by decide⟩
        have word : typeWord (.ptr space) = "ptr".toList := rfl
        rw [word]
        exact ⟨' ' :: addressSpace space, print_ptr default, pointer, noComma⟩
  | floating kind =>
      apply whole rfl
      cases kind <;> exact closed (by decide) (Or.inl rfl)
  | array | vector | struct | named | numbered => cases plain

section Opens

variable {word rest : Text}

theorem Opens.black (opens : Opens word rest) : Black isSpace word :=
  black_of_all opens.filled opens.letters fun _ => black_of_typeChar

theorem Opens.starts (opens : Opens word rest) : Starts word (word ++ rest) := by
  refine ⟨opens.plain, opens.dots, ?_⟩
  rcases opens.apart with rfl | ⟨more, rfl⟩
  · exact ⟨[], by rw [List.append_nil, fields_black opens.black]⟩
  · refine ⟨fields isSpace more, ?_⟩
    rw [fields_append_white rfl, fields_black opens.black]
    rfl

/-- More words, or fewer, do not change the first. -/
theorem Opens.append {marks : Text} (opens : Opens word rest)
    (apart : marks = [] ∨ ∃ more, marks = ' ' :: more) : Opens word (rest ++ marks) := by
  refine ⟨opens.filled, opens.letters, opens.plain, opens.dots, ?_⟩
  rcases opens.apart with rfl | ⟨more, rfl⟩
  · exact apart
  · exact Or.inr ⟨more ++ marks, rfl⟩

theorem Opens.takeWhile (opens : Opens word rest) :
    Opens word (rest.takeWhile (· != ')')) ∧
      (word ++ rest).takeWhile (· != ')') = word ++ rest.takeWhile (· != ')') := by
  constructor
  · refine ⟨opens.filled, opens.letters, opens.plain, opens.dots, ?_⟩
    rcases opens.apart with rfl | ⟨more, rfl⟩
    · exact Or.inl rfl
    · exact Or.inr ⟨more.takeWhile (· != ')'), rfl⟩
  · apply takeWhile_of_not_mem
    exact fun member => absurd (opens.letters _ member) (by decide)

end Opens

namespace Parameter

theorem opens (parameter : Parameter) : ∃ rest, parameter.print = typeWord parameter.type ++ rest ∧
    Opens (typeWord parameter.type) rest ∧ ',' ∉ rest := by
  obtain ⟨rest, shape, opens, noComma⟩ := typeWord_opens parameter.plain
  refine ⟨_, by rw [print, shape, List.append_assoc], opens.append ?_, ?_⟩
  · cases parameter.attributes with
    | nil => exact Or.inl rfl
    | cons mark others => exact Or.inr ⟨_, rfl⟩
  · intro member
    rcases List.mem_append.mp member with inType | later
    · exact noComma inType
    · obtain ⟨mark, among, inside⟩ := List.mem_flatMap.mp later
      rcases List.mem_cons.mp inside with blank | inMark
      · exact absurd blank (by decide)
      · exact parameter.noComma mark among inMark

end Parameter

/-! ## The nodes of a prototype -/

/-- A type has a node of its own, or none and no id. -/
def Describes (nodes : List (Nat × Node)) (type : Option Node) (id : Option Nat) : Prop :=
  (type = none ∧ id = none) ∨ ∃ node i, type = some node ∧ id = some i ∧ (i, node) ∈ nodes

/-- What stands at an id: a function of this name with these types, one for each parameter. -/
def Prototype (nodes : List (Nat × Node)) (id : Nat) (name : Text) (returns : Option Node)
    (parameters : List (Option Node)) : Prop :=
  ∃ file signature type types, (id, .subprogram name file signature) ∈ nodes ∧
    (signature, .subroutine (type :: types)) ∈ nodes ∧ Describes nodes returns type ∧
    List.Forall₂ (Describes nodes) parameters types

theorem Describes.mono {nodes more : List (Nat × Node)} (grows : nodes ⊆ more)
    {type : Option Node} {id : Option Nat} (described : Describes nodes type id) :
    Describes more type id := by
  rcases described with none_ | ⟨node, i, same, given, member⟩
  · exact Or.inl none_
  · exact Or.inr ⟨node, i, same, given, grows member⟩

/-- Ids are given once and in order. -/
structure Numbered (added : Added) : Prop where
  below : ∀ node ∈ added.nodes, node.1 < added.next
  once : (added.nodes.map Prod.fst).Nodup

/-- From one state to a later one. -/
structure Grows (before after : Added) : Prop where
  nodes : before.nodes ⊆ after.nodes
  numbered : Numbered before → Numbered after

theorem Grows.refl (added : Added) : Grows added added := ⟨List.Subset.refl _, id⟩

theorem Grows.trans {first second third : Added} (before : Grows first second)
    (after : Grows second third) : Grows first third :=
  ⟨List.Subset.trans before.nodes after.nodes, fun numbered => after.numbered (before.numbered numbered)⟩

section Nodes

variable {added : Added}

end Nodes

/-- An id has one node. -/
theorem Numbered.unique {added : Added} (numbered : Numbered added) {id : Nat} {first second : Node}
    (one : (id, first) ∈ added.nodes) (other : (id, second) ∈ added.nodes) : first = second :=
  (Prod.ext_iff.mp (List.inj_on_of_nodup_map numbered.once one other rfl)).2

/-- What stands at an id has one number of parameters. -/
theorem Prototype.length_eq {added : Added} (numbered : Numbered added) {id : Nat}
    {name otherName : Text} {returns otherReturns : Option Node} {parameters others : List (Option Node)}
    (one : Prototype added.nodes id name returns parameters)
    (other : Prototype added.nodes id otherName otherReturns others) :
    parameters.length = others.length := by
  obtain ⟨file, signature, type, types, subprogram, subroutine, -, each⟩ := one
  obtain ⟨file', signature', type', types', subprogram', subroutine', -, each'⟩ := other
  have same := numbered.unique subprogram subprogram'
  injection same with _ _ sameSignature
  subst sameSignature
  have sameTypes := numbered.unique subroutine subroutine'
  injection sameTypes with both
  rw [each.length_eq, each'.length_eq, (List.cons.inj both).2]

/-- `i64` -/
def offset : Parameter := ⟨.int 64, rfl, [], fun _ member => (nomatch member)⟩

end LibarenaRs.Linker
