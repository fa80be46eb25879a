import LibarenaRs.Linker.Symbols

/-!
# Signature lines

What the scripts find on the lines of a module that start with `define`.
-/

namespace LibarenaRs.Linker

open LibarenaRs.Regex LibarenaRs.Llvm

/-! ## First words -/

theorem firstWord_defineLine (header : Header) :
    firstWord (defineLine header) = "define".toList :=
  @firstWord_append "define".toList (by decide) ' ' (by decide) header.print

theorem firstWord_declareLine (metadata : Text) (header : Header) :
    firstWord (declareLine metadata header) = "declare".toList := by
  have blank : declareLine metadata header =
      "declare".toList ++ ' ' :: (metadata ++ header.print) := by
    unfold declareLine
    simp
  rw [blank]
  exact firstWord_append (by decide) (by decide) _

theorem firstWord_group (group : AttributeGroup) :
    firstWord group.print = "attributes".toList := by
  have blank : group.print = "attributes".toList ++
      ' ' :: ('#' :: (printNat group.index ++ " = \x7b".toList ++ group.content.val ++ ['}'])) := by
    unfold AttributeGroup.print
    simp
  rw [blank]
  exact firstWord_append (by decide) (by decide) _

theorem firstWord_global (variable_ : Global) :
    ∃ rest, firstWord variable_.print = '@' :: rest :=
  ⟨_, List.takeWhile_cons_of_pos (by decide)⟩

/-- The lines with this first word are the signatures of functions. -/
theorem Item.filterMap_define {Reading : Type} (read : Text → Option Reading) (item : Item) :
    (item.lines.filterMap fun line => (afterKeyword "define".toList line).bind read) =
      match item with
      | .function header _ => (read header.print).toList
      | _ => [] := by
  have silent : ∀ {line : Text}, firstWord line ≠ "define".toList →
      (afterKeyword "define".toList line).bind read = none := by
    intro line different
    rw [afterKeyword_eq_none (by decide) different]
    rfl
  cases item with
  | function header body =>
      have rest : (((body ++ [closing]).map fun line => line.val).filterMap fun line =>
          (afterKeyword "define".toList line).bind read) = [] := by
        rw [List.filterMap_eq_nil_iff]
        intro line member
        obtain ⟨inner, -, rfl⟩ := List.mem_map.mp member
        apply silent
        intro same
        exact inner.property.2.2 (by simp [same])
      have first : afterKeyword "define".toList (defineLine header) = some header.print :=
        afterKeyword_append "define".toList header.print
      rw [Item.lines, List.filterMap_cons, first, Option.bind_some, rest]
      cases readHeader : read header.print <;> simp [readHeader]
  | declaration metadata header =>
      rw [Item.lines, List.filterMap_cons, silent, List.filterMap_nil]
      rw [firstWord_declareLine]
      decide
  | global variable_ =>
      rw [Item.lines, List.filterMap_cons, silent, List.filterMap_nil]
      obtain ⟨rest, word⟩ := firstWord_global variable_
      rw [word]
      exact fun same => absurd (List.cons.inj same).1 (by decide)
  | attributeGroup group =>
      rw [Item.lines, List.filterMap_cons, silent, List.filterMap_nil]
      rw [firstWord_group]
      decide
  | other line =>
      rw [Item.lines, List.filterMap_cons, silent, List.filterMap_nil]
      intro same
      exact line.property.2.2 (by simp [same])

theorem filterMap_define {Reading : Type} (read : Text → Option Reading) (m : Module) :
    (m.lines.filterMap fun line => (afterKeyword "define".toList line).bind read) =
      m.functions.filterMap fun header => read header.print := by
  induction m with
  | nil => rfl
  | cons item others inductionHypothesis =>
      have first := Item.filterMap_define read item
      rw [Module.lines, List.flatMap_cons, List.filterMap_append, first, ← Module.lines,
        inductionHypothesis]
      cases item with
      | function header body =>
          simp only [Module.functions, List.filterMap_cons]
          cases read header.print <;> rfl
      | declaration | global | attributeGroup | other => rfl

/-- No line of a module is the bare keyword. -/
theorem define_not_mem_lines (m : Module) : "define".toList ∉ m.lines := by
  intro member
  obtain ⟨item, -, inside⟩ := List.mem_flatMap.mp member
  cases item with
  | function header body =>
      rcases List.mem_cons.mp inside with same | later
      · unfold defineLine at same
        have lengths := congrArg List.length same
        simp at lengths
      · obtain ⟨inner, -, same⟩ := List.mem_map.mp later
        exact inner.property.2.2 (by rw [same]; decide)
  | declaration metadata header =>
      have word := firstWord_declareLine metadata.val header
      rw [← List.mem_singleton.mp inside] at word
      exact absurd word (by decide)
  | global variable_ =>
      obtain ⟨rest, word⟩ := firstWord_global variable_
      rw [← List.mem_singleton.mp inside] at word
      exact absurd (List.cons.inj word).1 (by decide)
  | attributeGroup group =>
      have word := firstWord_group group
      rw [← List.mem_singleton.mp inside] at word
      exact absurd word (by decide)
  | other line =>
      have inert := line.property.2.2
      rw [← List.mem_singleton.mp inside] at inert
      exact inert (by decide)

/-! ## Places in the text -/

/-- A line in a list of items stands in one of them. -/
theorem flatMap_split {Part Line : Type} {lines : Part → List Line} {items : List Part}
    {before after : List Line} {line : Line} (split : items.flatMap lines = before ++ line :: after) :
    ∃ front item back inFront behind, items = front ++ item :: back ∧
      lines item = inFront ++ line :: behind ∧ before = front.flatMap lines ++ inFront ∧
      after = behind ++ back.flatMap lines := by
  induction items generalizing before with
  | nil => cases before <;> cases split
  | cons item others inductionHypothesis =>
      rw [List.flatMap_cons] at split
      rcases List.append_eq_append_iff.mp split with ⟨more, whole, tail⟩ | ⟨more, whole, tail⟩
      · obtain ⟨front, found, back, inFront, behind, places, inItem, first, last⟩ :=
          inductionHypothesis tail
        refine ⟨item :: front, found, back, inFront, behind, by rw [places]; rfl, inItem, ?_, last⟩
        rw [whole, first, List.flatMap_cons, List.append_assoc]
      · cases more with
        | nil =>
            obtain ⟨front, found, back, inFront, behind, places, inItem, first, last⟩ :=
              @inductionHypothesis [] tail.symm
            refine ⟨item :: front, found, back, inFront, behind, by rw [places]; rfl, inItem, ?_,
              last⟩
            rw [List.append_nil] at whole
            rw [List.flatMap_cons, List.append_assoc, ← first, whole, List.append_nil]
        | cons first more =>
            obtain ⟨rfl, rest⟩ := List.cons.inj tail
            exact ⟨[], item, others, before, more, rfl, whole, rfl, rest⟩

/-- Which lines start functions and global variables. -/
theorem Item.line_cases {item : Item} {inFront behind : List Text} {line : Text}
    (split : item.lines = inFront ++ line :: behind) :
    (∃ header body, item = .function header body ∧ inFront = [] ∧ line = defineLine header ∧
      behind = (body ++ [closing]).map fun line => line.val) ∨
    (∃ variable_, item = .global variable_ ∧ inFront = [] ∧ line = variable_.print ∧ behind = []) ∨
    firstWord line ≠ "define".toList ∧ headIs (· == '@') line = false := by
  have only : ∀ {text : Text}, [text] = inFront ++ line :: behind →
      inFront = [] ∧ line = text ∧ behind = [] := by
    intro text same
    cases inFront with
    | nil =>
        obtain ⟨rfl, rest⟩ := List.cons.inj same
        exact ⟨rfl, rfl, rest.symm⟩
    | cons first others =>
        have rest := (List.cons.inj same).2
        cases others <;> cases rest
  cases item with
  | function header body =>
      cases inFront with
      | nil =>
          obtain ⟨rfl, rfl⟩ := List.cons.inj split
          exact Or.inl ⟨header, body, rfl, rfl, rfl, rfl⟩
      | cons first others =>
          have member : line ∈ (body ++ [closing]).map fun line => line.val := by
            rw [(List.cons.inj split).2]
            simp
          obtain ⟨inner, -, rfl⟩ := List.mem_map.mp member
          obtain ⟨-, noSign, word⟩ := inner.property
          exact Or.inr (Or.inr ⟨fun same => word (by simp [same]), noSign⟩)
  | declaration metadata header =>
      obtain ⟨-, rfl, -⟩ := only split
      refine Or.inr (Or.inr ⟨?_, rfl⟩)
      rw [firstWord_declareLine]
      decide
  | global variable_ =>
      obtain ⟨rfl, rfl, rfl⟩ := only split
      exact Or.inr (Or.inl ⟨variable_, rfl, rfl, rfl, rfl⟩)
  | attributeGroup group =>
      obtain ⟨-, rfl, -⟩ := only split
      refine Or.inr (Or.inr ⟨?_, rfl⟩)
      rw [firstWord_group]
      decide
  | other inner =>
      obtain ⟨-, rfl, -⟩ := only split
      obtain ⟨-, noSign, word⟩ := inner.property
      exact Or.inr (Or.inr ⟨fun same => word (by simp [same]), noSign⟩)

/-! ## Symbols on a signature line -/

theorem symbolPlaces_blank (rest : Text) : symbolPlaces (' ' :: rest) = symbolPlaces rest := by
  rw [symbolPlaces, symbolHere_of_ne (by decide)]
  rfl

theorem symbolPlaces_append_blank (text rest : Text) :
    symbolPlaces (text ++ ' ' :: rest) =
      (symbolPlaces text).map (fun place => (place.1, place.2 ++ ' ' :: rest)) ++
        symbolPlaces rest := by
  induction text with
  | nil => exact symbolPlaces_blank rest
  | cons c text inductionHypothesis =>
      have here := @symbolHere_append (c :: text) (' ' :: rest) (by simp) rfl
      rw [List.cons_append] at here
      rw [List.cons_append, symbolPlaces, here, inductionHypothesis, symbolPlaces]
      cases symbolHere (c :: text) <;> simp

/-- A printed name that is not plain has a character that ends a symbol. -/
theorem printName_stops {name : Text} (named : name ≠ []) (odd : ¬PlainName name) (rest : Text) :
    ∃ d more, (printName name ++ rest).dropWhile symbolChar = d :: more ∧ d ≠ '(' ∧ d ≠ ' ' := by
  rw [printName]
  by_cases quoted : needsQuotes name = true
  · rw [if_pos quoted]
    exact ⟨'"', _, rfl, by decide, by decide⟩
  · -- a bare name that is not plain has a `-`
    rw [if_neg quoted]
    simp only [needsQuotes, Bool.or_eq_true, not_or, Bool.not_eq_true,
      Bool.not_eq_false'] at quoted
    have dash : name.all symbolChar = false := by
      rw [Bool.eq_false_iff]
      intro symbols
      apply odd
      refine ⟨named, quoted.1, ?_⟩
      rw [List.all_eq_true] at symbols ⊢
      intro c member
      have bare := List.all_eq_true.mp quoted.2 c member
      have accepted := symbols c member
      have different : c ≠ '-' := by
        rintro rfl
        exact absurd accepted (by decide)
      simp [bare, different]
    obtain ⟨d, more, stopped, member, -⟩ := dropWhile_inside dash rest
    have bare := List.all_eq_true.mp quoted.2 d member
    refine ⟨d, more, stopped, ?_, ?_⟩
    · rintro rfl
      exact absurd bare (by decide)
    · rintro rfl
      exact absurd bare (by decide)

/-- The symbol right behind an `@`, if its name is plain. -/
theorem symbolHere_printName (name after : Text) (named : name ≠ []) :
    symbolHere ('@' :: (printName name ++ '(' :: after)) =
      if PlainName name then some (name, after) else none := by
  rw [symbolHere_at]
  by_cases plain : PlainName name
  · rw [if_pos plain, plain.printName, takeWhile_stop plain.all_symbolChar (by decide),
      dropWhile_stop plain.all_symbolChar (by decide)]
    cases name with
    | nil => exact absurd rfl named
    | cons c name => rfl
  · obtain ⟨d, more, stopped, different, -⟩ := printName_stops named plain ('(' :: after)
    rw [if_neg plain, stopped, closeSymbol_of_ne different]

end LibarenaRs.Linker

namespace LibarenaRs.Llvm.Header

open LibarenaRs.Regex LibarenaRs.Linker

variable (header : Header)

/-- The function's own symbol is the first on its line: its name is plain and
no symbol stands in front of it. -/
def SymbolFirst : Prop := symbolIn header.before = none ∧ PlainName header.name

instance : Decidable header.SymbolFirst := inferInstanceAs (Decidable (_ ∧ _))

/-- A symbol read from the signature line that is not the function's own, as in
a quoted name or in a return or parameter attribute. -/
def stray : Option Text :=
  match symbolIn header.before with
  | some name => some name
  | none =>
      if PlainName header.name then none
      else symbolIn (printName header.name ++ '(' :: header.after)

theorem symbolPlaces_print :
    symbolPlaces header.print =
      (symbolPlaces header.before).map
        (fun place => (place.1, place.2 ++ " @".toList ++ printName header.name ++
          '(' :: header.after)) ++
      ((if PlainName header.name then [(header.name, header.after)] else []) ++
        symbolPlaces (printName header.name ++ '(' :: header.after)) := by
  have blank : header.print = header.before ++ ' ' ::
      ('@' :: (printName header.name ++ '(' :: header.after)) := by
    unfold print
    simp
  rw [blank, symbolPlaces_append_blank, symbolPlaces,
    symbolHere_printName header.name header.after header.named]
  by_cases plain : PlainName header.name
  · simp [plain]
  · simp [plain]

/-- The first symbol on a signature line. -/
theorem symbolIn_print :
    symbolIn header.print = if header.SymbolFirst then some header.name else header.stray := by
  rw [symbolIn, symbolPlaces_print, stray]
  unfold SymbolFirst
  cases inFront : symbolPlaces header.before with
  | nil =>
      have clear : symbolIn header.before = none := by
        rw [symbolIn, inFront]
        rfl
      by_cases plain : PlainName header.name
      · simp [clear, plain]
      · simp [plain, symbolIn, inFront]
  | cons place others =>
      have first : symbolIn header.before = some place.1 := by
        rw [symbolIn, inFront]
        rfl
      simp [first]

theorem stray_eq_none_of_symbolFirst (first : header.SymbolFirst) : header.stray = none := by
  rw [stray, first.1]
  simp [first.2]

end LibarenaRs.Llvm.Header
