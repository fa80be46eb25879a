import LibarenaRs.Llvm.Names
import LibarenaRs.Regex.Lines

/-!
# The text of a module

What `llvm-dis` writes, as far as the scripts look at it: lines, each of them
the head of a function, a line in a function, a declaration, a global variable,
an attribute group or something else.  No line holds a newline.
-/

namespace LibarenaRs.Llvm

open LibarenaRs.Regex

/-! ## Types -/

inductive FloatKind where
  | half | bfloat | float | double | fp128 | x86Fp80 | ppcFp128
  deriving DecidableEq, Repr

def FloatKind.print : FloatKind → Text
  | .half => "half".toList
  | .bfloat => "bfloat".toList
  | .float => "float".toList
  | .double => "double".toList
  | .fp128 => "fp128".toList
  | .x86Fp80 => "x86_fp80".toList
  | .ppcFp128 => "ppc_fp128".toList

inductive IrType where
  | void
  | int (bits : Nat)
  /-- Space 0 is the default and is not printed. -/
  | ptr (space : Nat)
  | floating (kind : FloatKind)
  | array (count : Nat) (element : IrType)
  | vector (scalable : Bool) (count : Nat) (element : IrType)
  | struct (packed : Bool) (fields : List IrType)
  | named (name : Text)
  | numbered (index : Nat)

def printNat (n : Nat) : Text := Nat.toDigits 10 n

def printPtr (space : Nat) : Text :=
  if space = 0 then "ptr".toList else "ptr addrspace(".toList ++ printNat space ++ [')']

/-- The fields of a structure, given their texts. -/
def printFields : List Text → Text
  | [] => "{}".toList
  | fields => "\x7b ".toList ++ List.intercalate ", ".toList fields ++ " \x7d".toList

mutual

def IrType.print : IrType → Text
  | .void => "void".toList
  | .int bits => 'i' :: printNat bits
  | .ptr space => printPtr space
  | .floating kind => kind.print
  | .array count element => '[' :: (printNat count ++ " x ".toList ++ element.print ++ [']'])
  | .vector scalable count element =>
      (if scalable then "<vscale x ".toList else "<".toList) ++ printNat count ++
        " x ".toList ++ element.print ++ ['>']
  | .struct packed fields =>
      if packed then '<' :: (printFields (IrType.printAll fields) ++ ['>'])
      else printFields (IrType.printAll fields)
  | .named name => '%' :: printName name
  | .numbered index => '%' :: printNat index

def IrType.printAll : List IrType → List Text
  | [] => []
  | field :: others => field.print :: IrType.printAll others

end

theorem IrType.print_ne_nil (type : IrType) : type.print ≠ [] := by
  cases type with
  | void => decide
  | ptr space =>
      rw [IrType.print, printPtr]
      split <;> simp
  | floating kind => cases kind <;> decide
  | vector scalable count element => cases scalable <;> simp [IrType.print]
  | struct packed fields =>
      rw [IrType.print]
      cases packed with
      | true => simp
      | false => cases IrType.printAll fields <;> simp [printFields]
  | int | array | named | numbered => simp [IrType.print]

/-! ## Heads of functions -/

inductive Linkage where
  | external | internal | private_ | weak | weakOdr | linkonce | linkonceOdr
  | availableExternally | externWeak | common | appending
  deriving DecidableEq, Repr

def Linkage.keyword : Linkage → Text
  | .external => []
  | .internal => "internal".toList
  | .private_ => "private".toList
  | .weak => "weak".toList
  | .weakOdr => "weak_odr".toList
  | .linkonce => "linkonce".toList
  | .linkonceOdr => "linkonce_odr".toList
  | .availableExternally => "available_externally".toList
  | .externWeak => "extern_weak".toList
  | .common => "common".toList
  | .appending => "appending".toList

/-- The keyword and its blank; the default linkage prints nothing. -/
def Linkage.print : Linkage → Text
  | .external => []
  | linkage => linkage.keyword ++ [' ']

/-- Visible outside of the module. -/
def Linkage.visible : Linkage → Bool
  | .internal | .private_ => false
  | _ => true

/-- Text of printable characters. -/
def Printed : Type := { text : Text // text.all printable = true }

def Printed.empty : Printed := ⟨[], rfl⟩

/-- The brace in front of a body. -/
def Printed.brace : Printed := ⟨" \x7b".toList, by decide⟩

/-- Sections have names. -/
def SectionName : Type := { name : Text // name ≠ [] }

/-- ` section "…"` -/
def printSection : Option SectionName → Text
  | none => []
  | some sectionName => " section ".toList ++ quote sectionName.val

/-- A function's signature line without its first keyword. -/
structure Header where
  linkage : Linkage
  /-- Preemption specifier, visibility, calling convention, return attributes. -/
  qualifiers : List Printed
  returns : IrType
  name : Text
  named : name ≠ []
  /-- What stands between the parentheses. -/
  parameters : Printed
  /-- What stands between the parameters and the section. -/
  attributes : Printed
  sectionName : Option SectionName
  /-- What stands behind the section, the opening brace of a body included. -/
  trailer : Printed

namespace Header

/-- What stands in front of the type. -/
def lead (header : Header) : Text :=
  header.linkage.print ++ header.qualifiers.flatMap fun qualifier => qualifier.val ++ [' ']

/-- What stands in front of the symbol. -/
def before (header : Header) : Text := header.lead ++ header.returns.print

/-- What stands behind the symbol and its parenthesis. -/
def after (header : Header) : Text :=
  header.parameters.val ++ [')'] ++ header.attributes.val ++ printSection header.sectionName ++
    header.trailer.val

def print (header : Header) : Text :=
  header.before ++ " @".toList ++ printName header.name ++ '(' :: header.after

/-- What stands in front of the type ends with a blank. -/
theorem lead_ends (header : Header) :
    header.lead = [] ∨ ∃ text, header.lead = text ++ [' '] := by
  rw [lead]
  rcases List.eq_nil_or_concat header.qualifiers with none_ | ⟨others, last, split⟩
  · rw [none_, List.flatMap_nil, List.append_nil]
    cases linkage : header.linkage with
    | external => exact Or.inl rfl
    | _ => exact Or.inr ⟨_, rfl⟩
  · right
    rw [split]
    simp only [List.concat_eq_append, List.flatMap_append, List.flatMap_cons, List.flatMap_nil,
      List.append_nil]
    exact ⟨header.linkage.print ++ (others.flatMap (fun qualifier => qualifier.val ++ [' ']) ++
      last.val), by simp⟩

end Header

/-! ## Lines -/

/-- The text up to the first white space. -/
def firstWord (line : Text) : Text := line.takeWhile fun c => !isSpace c

/-- A line that starts no function, declaration, global variable or attribute group. -/
def Inert (line : Text) : Prop :=
  '\n' ∉ line ∧ headIs (· == '@') line = false ∧
    firstWord line ∉ ["define".toList, "declare".toList, "attributes".toList]

instance (line : Text) : Decidable (Inert line) := inferInstanceAs (Decidable (_ ∧ _ ∧ _))

def InertLine : Type := { line : Text // Inert line }

structure Global where
  name : Text
  named : name ≠ []
  /-- Linkage, type, initializer and what else stands in front of the section. -/
  definition : Printed
  sectionName : Option SectionName
  trailer : Printed

def Global.print (global : Global) : Text :=
  '@' :: (printName global.name ++ " = ".toList ++ global.definition.val ++
    printSection global.sectionName ++ global.trailer.val)

/-- `attributes #N = { … }` -/
structure AttributeGroup where
  index : Nat
  content : Printed

def AttributeGroup.print (group : AttributeGroup) : Text :=
  "attributes #".toList ++ printNat group.index ++ " = \x7b".toList ++ group.content.val ++ ['}']

/-- The line behind the last one of a body. -/
def closing : InertLine := ⟨['}'], by decide⟩

inductive Item where
  | function (header : Header) (body : List InertLine)
  | declaration (metadata : Printed) (header : Header)
  | global (variable_ : Global)
  | attributeGroup (group : AttributeGroup)
  | other (line : InertLine)

def defineLine (header : Header) : Text := "define ".toList ++ header.print

/-- Metadata attachments of a declaration stand in front of its signature. -/
def declareLine (metadata : Text) (header : Header) : Text :=
  "declare ".toList ++ metadata ++ header.print

def Item.lines : Item → List Text
  | .function header body => defineLine header :: (body ++ [closing]).map fun line => line.val
  | .declaration metadata header => [declareLine metadata.val header]
  | .global variable_ => [variable_.print]
  | .attributeGroup group => [group.print]
  | .other line => [line.val]

/-- A module in the order of its text. -/
abbrev Module := List Item

namespace Module

def lines (m : Module) : List Text := m.flatMap Item.lines

def text (m : Module) : Text := joinLines m.lines

def functions (m : Module) : List Header :=
  m.filterMap fun
    | .function header _ => some header
    | _ => none

def globals (m : Module) : List Global :=
  m.filterMap fun
    | .global variable_ => some variable_
    | _ => none

end Module

/-! ## Every line is one line -/

theorem isDigit_printNat (n : Nat) : (printNat n).all Char.isDigit = true := by
  rw [List.all_eq_true]
  exact fun c member => Nat.isDigit_of_mem_toDigits (by decide) (by decide) member

theorem printNat_injective {first second : Nat} (same : printNat first = printNat second) :
    first = second := by
  have value := congrArg (Nat.ofDigitChars 10 · 0) same
  simpa [printNat] using value

theorem printable_printNat (n : Nat) : (printNat n).all printable = true := by
  rw [List.all_eq_true]
  intro c member
  have digit := List.all_eq_true.mp (isDigit_printNat n) c member
  exact printable_of_isAlphanum (by simp [Char.isAlphanum, digit])

theorem printable_printPtr (space : Nat) : (printPtr space).all printable = true := by
  rw [printPtr]
  split
  · decide
  · rw [List.all_append, List.all_append, printable_printNat]
    decide

theorem all_intercalate {accepts : Char → Bool} {separator : Text}
    (separators : separator.all accepts = true) {texts : List Text}
    (inner : ∀ text ∈ texts, text.all accepts = true) :
    (List.intercalate separator texts).all accepts = true := by
  induction texts with
  | nil => rfl
  | cons text others inductionHypothesis =>
      cases others with
      | nil => simpa using inner text (by simp)
      | cons other others =>
          have first := inner text (by simp)
          have later := inductionHypothesis fun text member => inner text (by simp [member])
          rw [List.intercalate_cons_cons, List.all_append, List.all_append, first, separators,
            later]
          rfl

theorem printable_printFields {fields : List Text}
    (inner : ∀ text ∈ fields, text.all printable = true) :
    (printFields fields).all printable = true := by
  cases fields with
  | nil => decide
  | cons first others =>
      have separated := @all_intercalate printable ", ".toList (by decide) _ inner
      rw [printFields, List.all_append, List.all_append, separated]
      · decide
      · simp

mutual

theorem IrType.printable_print : (type : IrType) → type.print.all printable = true
  | .void => by decide
  | .int bits => by
      rw [IrType.print, List.all_cons, printable_printNat]
      decide
  | .ptr space => by
      rw [IrType.print]
      exact printable_printPtr space
  | .floating kind => by cases kind <;> decide
  | .array count element => by
      have inner := element.printable_print
      simp only [IrType.print, List.all_cons, List.all_append, printable_printNat, inner]
      decide
  | .vector scalable count element => by
      have inner := element.printable_print
      cases scalable <;>
        simp only [IrType.print, List.all_append, printable_printNat, inner] <;> decide
  | .struct packed fields => by
      have inner := printable_printFields (IrType.printable_printAll fields)
      cases packed with
      | true =>
          simp only [IrType.print, if_true, List.all_cons, List.all_append, inner]
          decide
      | false => simpa only [IrType.print, Bool.false_eq_true, if_false] using inner
  | .named name => by
      rw [IrType.print, List.all_cons, printable_printName]
      decide
  | .numbered index => by
      rw [IrType.print, List.all_cons, printable_printNat]
      decide

theorem IrType.printable_printAll : (fields : List IrType) →
    ∀ text ∈ IrType.printAll fields, text.all printable = true
  | [], text, member => by simp [IrType.printAll] at member
  | field :: others, text, member => by
      rw [IrType.printAll, List.mem_cons] at member
      rcases member with rfl | later
      · exact field.printable_print
      · exact IrType.printable_printAll others text later

end

theorem Linkage.printable_print (linkage : Linkage) : linkage.print.all printable = true := by
  cases linkage <;> decide

theorem printable_printSection (sectionName : Option SectionName) :
    (printSection sectionName).all printable = true := by
  cases sectionName with
  | none => rfl
  | some named =>
      rw [List.all_eq_true]
      intro c member
      rcases List.mem_append.mp member with keyword | quoted
      · exact List.all_eq_true.mp (by decide : " section ".toList.all printable = true) c keyword
      · exact printable_quote quoted

namespace Header

variable (header : Header)

theorem printable_lead : header.lead.all printable = true := by
  have words : (header.qualifiers.flatMap fun qualifier => qualifier.val ++ [' ']).all
      printable = true := by
    rw [List.all_eq_true]
    intro c member
    rw [List.mem_flatMap] at member
    obtain ⟨qualifier, -, member⟩ := member
    rcases List.mem_append.mp member with inside | blank
    · exact List.all_eq_true.mp qualifier.property c inside
    · rw [List.mem_singleton.mp blank]
      decide
  rw [lead, List.all_append, header.linkage.printable_print, words]
  rfl

theorem printable_before : header.before.all printable = true := by
  rw [before, List.all_append, header.printable_lead, header.returns.printable_print]
  rfl

theorem printable_after : header.after.all printable = true := by
  simp only [after, List.all_append, header.parameters.property, header.attributes.property,
    header.trailer.property, printable_printSection]
  decide

theorem printable_print : header.print.all printable = true := by
  rw [print, List.all_append, List.all_append, List.all_append, List.all_cons,
    printable_before, printable_after, printable_printName]
  decide

end Header

theorem printable_defineLine (header : Header) : (defineLine header).all printable = true := by
  unfold defineLine
  rw [List.all_append, header.printable_print]
  decide

theorem Global.printable_print (global : Global) : global.print.all printable = true := by
  unfold Global.print
  rw [List.all_cons, List.all_append, List.all_append, List.all_append, List.all_append,
    printable_printName, global.definition.property, printable_printSection,
    global.trailer.property]
  decide

theorem AttributeGroup.printable_print (group : AttributeGroup) :
    group.print.all printable = true := by
  unfold AttributeGroup.print
  rw [List.all_append, List.all_append, List.all_append, List.all_append, printable_printNat,
    group.content.property]
  decide

theorem Item.oneLine {item : Item} {line : Text} (member : line ∈ item.lines) : '\n' ∉ line := by
  cases item with
  | function header body =>
      rcases List.mem_cons.mp member with rfl | inside
      · exact not_newline_of_printable (printable_defineLine header)
      · obtain ⟨inner, -, rfl⟩ := List.mem_map.mp inside
        exact inner.property.1
  | declaration metadata header =>
      rw [List.mem_singleton.mp member]
      apply not_newline_of_printable
      unfold declareLine
      rw [List.all_append, List.all_append, metadata.property, header.printable_print]
      decide
  | global variable_ =>
      rw [List.mem_singleton.mp member]
      exact not_newline_of_printable variable_.printable_print
  | attributeGroup group =>
      rw [List.mem_singleton.mp member]
      exact not_newline_of_printable group.printable_print
  | other line =>
      rw [List.mem_singleton.mp member]
      exact line.property.1

theorem Module.oneLine {m : Module} {line : Text} (member : line ∈ m.lines) : '\n' ∉ line := by
  obtain ⟨item, -, inside⟩ := List.mem_flatMap.mp member
  exact item.oneLine inside

end LibarenaRs.Llvm
