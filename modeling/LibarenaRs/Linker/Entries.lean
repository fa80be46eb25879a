import LibarenaRs.Linker.KeepSyms

/-!
# Which entries the keep list holds

A signature line or a global variable is read as its own name if nothing in front
of it on its line looks like what the script searches.
-/

namespace LibarenaRs.Llvm

open LibarenaRs.Regex

def IrType.isVoid : IrType → Bool
  | .void => true
  | _ => false

theorem IrType.print_of_isVoid {type : IrType} (void : type.isVoid = true) :
    type.print = "void".toList := by
  cases type with
  | void => rfl
  | _ => cases void

theorem escapeChar_cases (c : Char) :
    escapeChar c = [c] ∨ ∃ rest, escapeChar c = '\\' :: rest := by
  rw [escapeChar]
  split
  · exact Or.inr ⟨_, rfl⟩
  · split
    · exact Or.inl rfl
    · have length := String.length_utf8EncodeChar c
      have positive := Char.utf8Size_pos c
      cases encoded : String.utf8EncodeChar c with
      | nil =>
          rw [encoded, List.length_nil] at length
          omega
      | cons byte others => exact Or.inr ⟨_, rfl⟩

theorem escaped_ne_nil {text : Text} (filled : text ≠ []) : text.flatMap escapeChar ≠ [] := by
  cases text with
  | nil => exact absurd rfl filled
  | cons c text => rcases escapeChar_cases c with same | ⟨rest, same⟩ <;> simp [same]

theorem quote_not_mem_escaped (text : Text) : '"' ∉ text.flatMap escapeChar := by
  intro member
  obtain ⟨c, -, inside⟩ := List.mem_flatMap.mp member
  exact (printable_escapeChar inside).2 rfl

/-- Text without escapes is the text itself. -/
theorem eq_of_escaped {text escaped : Text} (same : text.flatMap escapeChar = escaped)
    (plain : '\\' ∉ escaped) : text = escaped := by
  induction text generalizing escaped with
  | nil => exact same
  | cons c text inductionHypothesis =>
      rw [List.flatMap_cons] at same
      rcases escapeChar_cases c with kept | ⟨rest, escape⟩
      · rw [kept, List.singleton_append] at same
        rw [← same, List.mem_cons, not_or] at plain
        rw [← same, ← inductionHypothesis rfl plain.2]
      · rw [escape] at same
        exact absurd (by simp [← same]) plain

end LibarenaRs.Llvm

namespace LibarenaRs.Linker

open LibarenaRs.Regex LibarenaRs.Llvm

/-! ## Sections -/

theorem quoteBehind_quote {name : Text} (named : name ≠ []) (rest : Text) (later : Bool) :
    quoteBehind later (name.flatMap escapeChar ++ '"' :: rest) =
      some (name.flatMap escapeChar, some rest) := by
  have quoteFree : (name.flatMap escapeChar).all (· != '"') = true := by
    rw [List.all_eq_true]
    intro c member
    have different : c ≠ '"' := fun same => quote_not_mem_escaped name (same ▸ member)
    simpa using different
  have open_ : headIs (· == '"') (name.flatMap escapeChar ++ '"' :: rest) = false := by
    cases escaped : name.flatMap escapeChar with
    | nil => exact absurd escaped (escaped_ne_nil named)
    | cons c others =>
        rw [escaped, List.all_cons, Bool.and_eq_true] at quoteFree
        simpa [headIs] using quoteFree.1
  rw [quoteBehind, open_, dropWhile_stop quoteFree (by decide), takeWhile_stop quoteFree (by decide)]
  rfl

theorem printSection_some (sectionName : SectionName) (rest : Text) :
    printSection (some sectionName) ++ rest =
      ' ' :: ("section \"".toList ++ (sectionName.val.flatMap escapeChar ++ '"' :: rest)) := by
  unfold printSection quote
  simp

/-- A section behind a text is read, unless one in the text is read first. -/
theorem sectionIn_print (past text rest : Text) (sectionName : SectionName) (later : Bool) :
    (sectionIn later past (text ++ (printSection (some sectionName) ++ rest))).isSome = true := by
  rw [sectionIn, List.findSome?_isSome_iff]
  refine ⟨sectionName.val.flatMap escapeChar ++ '"' :: rest, ?_, ?_⟩
  · rw [mem_places]
    refine ⟨text ++ [' '], "section \"".toList ++ (sectionName.val.flatMap escapeChar ++ '"' :: rest),
      ?_, by simp, ?_⟩
    · rw [printSection_some]
      simp
    · rw [sectionHere, dropPrefix?_append, List.reverse_append]
      rfl
  · rw [quoteBehind_quote sectionName.property]
    rfl

/-- A section that starts in front of another stands there as a whole. -/
theorem sectionHere_front {past more rest left : Text} (filled : more ≠ [])
    (found : sectionHere past (more ++ ("section \"".toList ++ rest)) = some left) :
    (sectionHere past more).isSome = true := by
  unfold sectionHere at found ⊢
  split at found
  · cases found
  · rename_i boundary
    rw [if_neg boundary]
    have cut := dropPrefix?_eq_some.mp found
    rcases List.append_eq_append_iff.mp cut with ⟨middle, keyword, tail⟩ | ⟨middle, keyword, -⟩
    · cases middle with
      | nil =>
          rw [List.append_nil] at keyword
          rw [← keyword, dropPrefix?_eq_some.mpr (List.append_nil _).symm]
          rfl
      | cons c middle =>
          -- the keyword has its first letter only once
          have letter : c = 's' := (List.cons.inj tail).1.symm
          cases more with
          | nil => exact absurd rfl filled
          | cons d more =>
              have inKeyword : 's' ∈ "ection \"".toList := by
                rw [show "ection \"".toList = more ++ c :: middle from (List.cons.inj keyword).2,
                  letter]
                simp
              exact absurd inKeyword (by decide)
    · rw [keyword, dropPrefix?_append]
      rfl

end LibarenaRs.Linker

namespace LibarenaRs.Llvm.Header

open LibarenaRs.Regex LibarenaRs.Linker

variable (header : Header)

/-- The scan for functions with a section reads the function's own name. -/
def SectionFirst : Prop := header.SymbolFirst ∧ header.sectionName.isSome = true

instance : Decidable header.SectionFirst := inferInstanceAs (Decidable (_ ∧ _))

/-- A symbol with a text like a section behind it that the scan reads from a
signature line it does not read as its own. -/
def sectionStray (later : Bool) : Option Text :=
  if header.SectionFirst then none else (sectionedIn later header.print).map Prod.fst

theorem sectionedIn_print {header : Header} (first : header.SectionFirst) (later : Bool) :
    (sectionedIn later header.print).map Prod.fst = some header.name := by
  obtain ⟨⟨clear, plain⟩, sectioned⟩ := first
  obtain ⟨sectionName, named⟩ := Option.isSome_iff_exists.mp sectioned
  have nothing : symbolPlaces header.before = [] := by
    rw [symbolIn, Option.map_eq_none_iff, List.head?_eq_none_iff] at clear
    exact clear
  have read := sectionIn_print ['('] (header.parameters.val ++ [')'] ++ header.attributes.val)
    header.trailer.val sectionName later
  obtain ⟨found, isFound⟩ := Option.isSome_iff_exists.mp read
  have after : header.after = header.parameters.val ++ [')'] ++ header.attributes.val ++
      (printSection (some sectionName) ++ header.trailer.val) := by
    rw [Header.after, named, List.append_assoc (_ ++ header.attributes.val)]
  rw [← after] at isFound
  rw [sectionedIn, symbolPlaces_print, nothing, if_pos plain, List.map_nil, List.nil_append,
    List.singleton_append, List.findSome?_cons, isFound]
  rfl

/-- The signature line is read as this name by the scan for functions with a section. -/
def SectionedAs (later : Bool) (name : Text) : Prop :=
  (header.SectionFirst ∧ header.name = name) ∨ header.sectionStray later = some name

theorem sectionedAs_iff {header : Header} {later : Bool} {name : Text} :
    header.SectionedAs later name ↔
      (sectionedIn later header.print).map Prod.fst = some name := by
  rw [SectionedAs, sectionStray]
  by_cases first : header.SectionFirst
  · rw [if_pos first, sectionedIn_print first]
    simp [first]
  · rw [if_neg first]
    simp [first]

/-- The scan for visible functions that return void reads the function's own name. -/
def VoidFirst : Prop :=
  startsLocal header.print = false ∧ header.returns.isVoid = true ∧ PlainName header.name ∧
    places voidHere [' '] header.lead = []

instance : Decidable header.VoidFirst := inferInstanceAs (Decidable (_ ∧ _))

/-- A symbol behind `void ` that the scan reads elsewhere on a signature line. -/
def voidStray : Option Text := if header.VoidFirst then none else voidIn header.print

/-- The keyword of a local linkage starts the line. -/
theorem startsLocal_of_not_visible {header : Header} (hidden : header.linkage.visible = false) :
    startsLocal header.print = true := by
  have keyword_ : header.linkage.print = header.linkage.keyword ++ [' '] ∧
      (header.linkage.keyword = "internal".toList ∨ header.linkage.keyword = "private".toList) := by
    cases linkage : header.linkage with
    | internal => exact ⟨rfl, Or.inl rfl⟩
    | private_ => exact ⟨rfl, Or.inr rfl⟩
    | _ => rw [linkage] at hidden; cases hidden
  obtain ⟨blank, local_⟩ := keyword_
  obtain ⟨rest, split⟩ : ∃ rest, header.print = header.linkage.keyword ++ ' ' :: rest := by
    unfold print before lead
    rw [blank]
    exact ⟨_, by simp only [List.append_assoc, List.singleton_append]; rfl⟩
  generalize header.linkage.keyword = keyword at split local_
  have word : startsWord keyword header.print = true := by
    rw [startsWord, split, dropPrefix?_append]
    rfl
  rw [startsLocal]
  rcases local_ with rfl | rfl
  · rw [word]
    rfl
  · rw [word, Bool.or_true]

theorem VoidFirst.visible {header : Header} (first : header.VoidFirst) :
    header.linkage.visible = true := by
  cases visible : header.linkage.visible with
  | true => rfl
  | false =>
      have hidden := startsLocal_of_not_visible visible
      rw [first.1] at hidden
      cases hidden

/-- A `void ` in front of the type does not reach into the type. -/
theorem voidHere_lead {start more rest : Text} {place : Text × Text} (filled : more ≠ [])
    (ends : ∃ text, start ++ more = text ++ [' '])
    (found : voidHere (start.reverse ++ [' ']) (more ++ 'v' :: rest) = some place) :
    (voidHere (start.reverse ++ [' ']) more).isSome = true := by
  obtain ⟨inner, rfl⟩ : ∃ inner, more = inner ++ [' '] := by
    obtain ⟨text, split⟩ := ends
    rcases List.eq_nil_or_concat more with none_ | ⟨inner, last, rfl⟩
    · exact absurd none_ filled
    · rw [List.concat_eq_append, ← List.append_assoc] at split
      have last_ := (List.append_inj' split rfl).2
      rw [List.concat_eq_append, last_]
      exact ⟨inner, rfl⟩
  unfold voidHere at found ⊢
  split at found
  · cases found
  · rename_i boundary
    obtain ⟨left, stripped, symbol⟩ := Option.bind_eq_some_iff.mp found
    have split := dropPrefix?_eq_some.mp stripped
    have cut : inner ++ ' ' :: 'v' :: rest = "void".toList ++ ' ' :: left := by
      simpa using split
    rw [if_neg boundary]
    rcases List.append_eq_append_iff.mp cut with ⟨middle, whole, tail⟩ | ⟨middle, whole, tail⟩
    · cases middle with
      | nil =>
          rw [List.nil_append, List.cons.injEq] at tail
          rw [← tail.2, symbolHere_of_ne (by decide)] at symbol
          cases symbol
      | cons c middle =>
          -- no blank in the keyword
          rw [List.cons_append, List.cons.injEq] at tail
          have blank : ' ' ∈ "void".toList := by
            rw [whole, tail.1]
            simp
          exact absurd blank (by decide)
    · cases middle with
      | nil =>
          rw [List.nil_append, List.cons.injEq] at tail
          rw [tail.2, symbolHere_of_ne (by decide)] at symbol
          cases symbol
      | cons c middle =>
          rw [List.cons_append, List.cons.injEq] at tail
          obtain ⟨rfl, rfl⟩ := tail
          have inFront : inner ++ [' '] = "void ".toList ++ (middle ++ [' ']) := by
            rw [whole]
            simp
          have filledMiddle : middle ≠ [] := by
            rintro rfl
            rw [List.nil_append, symbolHere_of_ne (by decide)] at symbol
            cases symbol
          rw [@symbolHere_append middle (' ' :: 'v' :: rest) filledMiddle rfl] at symbol
          rw [inFront, dropPrefix?_append, Option.bind_some,
            @symbolHere_append middle [' '] filledMiddle rfl, Option.isSome_map]
          cases here : symbolHere middle with
          | none =>
              rw [here] at symbol
              cases symbol
          | some place => rfl

theorem voidIn_print {header : Header} (first : header.VoidFirst) :
    voidIn header.print = some header.name := by
  obtain ⟨visible, void, plain, clear⟩ := first
  have text : header.print =
      header.lead ++ 'v' :: ("oid ".toList ++ '@' :: (printName header.name ++ '(' :: header.after)) := by
    unfold print before
    rw [IrType.print_of_isVoid void]
    simp
  obtain ⟨front, split, inFront⟩ := places_append voidHere [' '] header.lead
    ('v' :: ("oid ".toList ++ '@' :: (printName header.name ++ '(' :: header.after)))
  have nothing : front = [] := by
    rw [List.eq_nil_iff_forall_not_mem]
    intro place member
    obtain ⟨start, more, whole, filled, found⟩ := inFront place member
    have ends : ∃ text, start ++ more = text ++ [' '] := by
      rcases header.lead_ends with empty | ends
      · rw [empty] at whole
        exact absurd (List.append_eq_nil_iff.mp whole.symm).2 filled
      · rwa [← whole]
    obtain ⟨earlier, here⟩ := Option.isSome_iff_exists.mp (voidHere_lead filled ends found)
    have listed : earlier ∈ places voidHere [' '] header.lead :=
      mem_places.mpr ⟨start, more, whole, filled, here⟩
    rw [clear] at listed
    cases listed
  have boundary : headIs isWord (header.lead.reverse ++ [' ']) = false := by
    rcases header.lead_ends with empty | ⟨text, ends⟩
    · rw [empty]
      rfl
    · rw [ends, List.reverse_append]
      rfl
  have here : voidHere (header.lead.reverse ++ [' '])
      ('v' :: ("oid ".toList ++ '@' :: (printName header.name ++ '(' :: header.after))) =
      some (header.name, header.after) := by
    have stripped := dropPrefix?_append "void ".toList
      ('@' :: (printName header.name ++ '(' :: header.after))
    change List.dropPrefix? ('v' :: ("oid ".toList ++ _)) _ = _ at stripped
    rw [voidHere, boundary, stripped, if_neg (by simp), Option.bind_some,
      symbolHere_printName header.name header.after header.named, if_pos plain]
  rw [voidIn, visible, text, split, nothing, places, here]
  rfl

/-- The signature line is read as this name by the scan for functions that return void. -/
def VoidAs (name : Text) : Prop :=
  (header.VoidFirst ∧ header.name = name) ∨ header.voidStray = some name

theorem voidAs_iff {header : Header} {name : Text} :
    header.VoidAs name ↔ voidIn header.print = some name := by
  rw [VoidAs, voidStray]
  by_cases first : header.VoidFirst
  · rw [if_pos first, voidIn_print first]
    simp [first]
  · rw [if_neg first]
    simp [first]

end LibarenaRs.Llvm.Header

namespace LibarenaRs.Llvm.Global

open LibarenaRs.Regex LibarenaRs.Linker

variable (global : Global)

/-- What stands behind the name and ` = `. -/
def value : Text :=
  global.definition.val ++ (printSection global.sectionName ++ global.trailer.val)

/-- Its own section is the first that can be read from its line. -/
def SectionFirst : Prop :=
  global.sectionName.isSome = true ∧ places sectionHere [' '] (global.definition.val ++ [' ']) = []

instance : Decidable global.SectionFirst := inferInstanceAs (Decidable (_ ∧ _))

theorem globalHere_print :
    globalHere global.print =
      if PlainName global.name then some (global.name, global.value) else none := by
  have text : global.print =
      '@' :: (printName global.name ++ (" = ".toList ++ global.value)) := by
    unfold print value
    simp only [List.append_assoc]
  rw [text, globalHere]
  by_cases plain : PlainName global.name
  · rw [if_pos plain, plain.printName,
      show " = ".toList ++ global.value = ' ' :: ("= ".toList ++ global.value) from rfl,
      takeWhile_stop plain.all_symbolChar (by decide),
      dropWhile_stop plain.all_symbolChar (by decide), if_neg plain.1,
      show ' ' :: ("= ".toList ++ global.value) = " = ".toList ++ global.value from rfl,
      dropPrefix?_append]
    rfl
  · obtain ⟨d, more, stopped, -, different⟩ :=
      printName_stops global.named plain (" = ".toList ++ global.value)
    have absent : (d :: more).dropPrefix? " = ".toList = none := by
      rw [dropPrefix?_eq_none]
      rintro ⟨rest, same⟩
      cases same
      exact different rfl
    rw [if_neg plain, stopped, absent]
    split <;> rfl

/-- The own section is read if it is first. -/
theorem sectionIn_value {global : Global} (first : global.SectionFirst) (later : Bool) :
    ∃ sectionName, global.sectionName = some sectionName ∧
      sectionIn later [' '] global.value =
        some (sectionName.val.flatMap escapeChar, some global.trailer.val) := by
  obtain ⟨sectioned, clear⟩ := first
  obtain ⟨sectionName, named⟩ := Option.isSome_iff_exists.mp sectioned
  refine ⟨sectionName, named, ?_⟩
  let rest := sectionName.val.flatMap escapeChar ++ '"' :: global.trailer.val
  have text : global.value = (global.definition.val ++ [' ']) ++ ("section \"".toList ++ rest) := by
    rw [value, named, printSection_some]
    simp [rest]
  obtain ⟨front, split, inFront⟩ := places_append sectionHere [' ']
    (global.definition.val ++ [' ']) ("section \"".toList ++ rest)
  have nothing : front = [] := by
    rw [List.eq_nil_iff_forall_not_mem]
    intro left member
    obtain ⟨start, more, whole, filled, found⟩ := inFront left member
    obtain ⟨earlier, here⟩ := Option.isSome_iff_exists.mp (sectionHere_front filled found)
    have listed : earlier ∈ places sectionHere [' '] (global.definition.val ++ [' ']) :=
      mem_places.mpr ⟨start, more, whole, filled, here⟩
    rw [clear] at listed
    cases listed
  have here : sectionHere ((global.definition.val ++ [' ']).reverse ++ [' '])
      ("section \"".toList ++ rest) = some rest := by
    rw [sectionHere, dropPrefix?_append, List.reverse_append]
    rfl
  have own : places sectionHere ((global.definition.val ++ [' ']).reverse ++ [' '])
      ("section \"".toList ++ rest) =
      (sectionHere ((global.definition.val ++ [' ']).reverse ++ [' '])
        ("section \"".toList ++ rest)).toList ++
        places sectionHere ('s' :: ((global.definition.val ++ [' ']).reverse ++ [' ']))
          ("ection \"".toList ++ rest) := rfl
  rw [sectionIn, text, split, nothing, own, here, List.nil_append, Option.toList_some,
    List.singleton_append, List.findSome?_cons, quoteBehind_quote sectionName.property]

/-- The name between the quotes, if the scan reads one that ends on the line. -/
def sectionRead (later : Bool) : Option (Option Text) :=
  (sectionIn later [' '] global.value).map fun found => found.2.map fun _ => found.1

/-- The scan for global variables keeps the variable: for its own section, or for
a text like a section elsewhere on its line. -/
def Kept (later : Bool) : Prop :=
  (global.SectionFirst ∧ ∃ sectionName, global.sectionName = some sectionName ∧
      sectionName.val ≠ metadataSection) ∨
    ¬global.SectionFirst ∧ ∃ content, global.sectionRead later = some content ∧
      content ≠ some metadataSection

theorem kept_iff {global : Global} {later : Bool} {name : Text} :
    (∃ content, (globalIn later global.print).map Prod.fst = some (name, content) ∧
      content ≠ some metadataSection) ↔
      PlainName global.name ∧ global.name = name ∧ global.Kept later := by
  rw [globalIn, globalHere_print]
  by_cases plain : PlainName global.name
  · have read : (((some (global.name, global.value)).bind fun place =>
        (sectionIn later [' '] place.2).map fun found =>
          ((place.1, found.2.map fun _ => found.1), found.2)).map Prod.fst) =
        (global.sectionRead later).map fun content => (global.name, content) := by
      simp only [Option.bind_some, sectionRead, Option.map_map]
      rfl
    have kept : global.Kept later ↔ ∃ content, global.sectionRead later = some content ∧
        content ≠ some metadataSection := by
      by_cases first : global.SectionFirst
      · obtain ⟨sectionName, named, isRead⟩ := sectionIn_value first later
        have content : global.sectionRead later = some (some (sectionName.val.flatMap escapeChar)) := by
          rw [sectionRead, isRead]
          rfl
        have escaped : sectionName.val.flatMap escapeChar = metadataSection ↔
            sectionName.val = metadataSection := by
          constructor
          · intro same
            exact eq_of_escaped same (by decide)
          · intro same
            rw [same]
            decide
        simp [Kept, first, named, content, escaped]
      · simp [Kept, first]
    rw [if_pos plain, read, kept]
    simp only [Option.map_eq_some_iff, Prod.mk.injEq, plain, true_and]
    constructor
    · rintro ⟨content, ⟨found, isRead, rfl, rfl⟩, different⟩
      exact ⟨rfl, found, isRead, different⟩
    · rintro ⟨rfl, content, isRead, different⟩
      exact ⟨content, ⟨content, isRead, rfl, rfl⟩, different⟩
  · rw [if_neg plain]
    simp [plain]

end LibarenaRs.Llvm.Global

namespace LibarenaRs.Linker

open LibarenaRs.Regex LibarenaRs.Llvm

/-! ## What the list holds -/

/-- A function that other modules see and that returns void. -/
def VisibleVoid (header : Header) : Prop :=
  header.linkage.visible = true ∧ header.returns.isVoid = true

/-- The list holds every function and every global variable with a section and the
names asked for, but functions that return void only for their section. -/
structure KeepsEntries (m : Module) (options : KeepOptions) : Prop where
  functions : ∀ header ∈ m.functions, header.sectionName.isSome = true →
    header.name ∈ keepSyms options m.text
  globals : ∀ global ∈ m.globals, ∀ sectionName, global.sectionName = some sectionName →
    sectionName.val ≠ metadataSection → global.name ∈ keepSyms options m.text
  listed : ∀ name ∈ options.nmWords,
    (∀ header ∈ m.functions, header.name = name → ¬VisibleVoid header) →
    name ∈ keepSyms options m.text
  dropped : options.dropVoidGlobals = true → ∀ header ∈ m.functions, VisibleVoid header →
    header.sectionName = none → header.name ∉ keepSyms options m.text

/-- Some signature line that the scan looks at is read as this name, for the
function's own section or for a text like one. -/
def SectionFound (m : Module) (name : Text) : Prop :=
  ∃ front header body back, m = front ++ .function header body :: back ∧
    Reached sectionedLine front (defineLine header :: linesBehind body back) ∧
    header.SectionedAs (quoteIn (linesBehind body back)) name

/-- Some global variable that the scan looks at has this name, bare, and is kept. -/
def GlobalFound (m : Module) (name : Text) : Prop :=
  ∃ front variable_ back, m = front ++ .global variable_ :: back ∧
    Reached globalLine front (variable_.print :: Module.lines back) ∧
    PlainName variable_.name ∧ variable_.name = name ∧
    variable_.Kept (quoteIn (Module.lines back))

/-- Some signature line is read as this name of a visible function that returns void. -/
def VoidFound (m : Module) (name : Text) : Prop := ∃ header ∈ m.functions, header.VoidAs name

/-- The name is asked for or found. -/
def Found (options : KeepOptions) (m : Module) (name : Text) : Prop :=
  name ∈ options.extra ∨ name ∈ options.nmWords ∨ SectionFound m name ∨ GlobalFound m name

theorem named_iff {options : KeepOptions} {m : Module} {name : Text} :
    Named options m name ↔ Found options m name := by
  simp only [Named, Found, SectionNamed, SectionFound, GlobalNamed, GlobalFound,
    Header.sectionedAs_iff, Global.kept_iff]

theorem voidNamed_iff {m : Module} {name : Text} : VoidNamed m name ↔ VoidFound m name := by
  simp only [VoidNamed, VoidFound, Header.voidAs_iff]

/-- The list holds the right names exactly if everything with a section is found,
and the names read as those of visible functions that return void are names of
such functions without a section, all that are found among them. -/
theorem keep_syms_keepsEntries_iff (m : Module) (options : KeepOptions) :
    KeepsEntries m options ↔
      (∀ header ∈ m.functions, header.sectionName.isSome = true → Found options m header.name ∧
        (options.dropVoidGlobals = true → ¬VoidFound m header.name)) ∧
      (∀ global ∈ m.globals, ∀ sectionName, global.sectionName = some sectionName →
        sectionName.val ≠ metadataSection → Found options m global.name ∧
        (options.dropVoidGlobals = true → ¬VoidFound m global.name)) ∧
      (∀ name ∈ options.nmWords,
        (∀ header ∈ m.functions, header.name = name → ¬VisibleVoid header) →
        options.dropVoidGlobals = true → ¬VoidFound m name) ∧
      (options.dropVoidGlobals = true → ∀ header ∈ m.functions, VisibleVoid header →
        header.sectionName = none → Found options m header.name → VoidFound m header.name) := by
  have member : ∀ {name}, name ∈ keepSyms options m.text ↔
      Found options m name ∧ (options.dropVoidGlobals = true → ¬VoidFound m name) := by
    intro name
    rw [mem_keepSyms_text, named_iff, voidNamed_iff]
  constructor
  · rintro ⟨functions, globals, listed, dropped⟩
    refine ⟨?_, ?_, ?_, ?_⟩
    · exact fun header among sectioned => member.mp (functions header among sectioned)
    · exact fun global among sectionName named different =>
        member.mp (globals global among sectionName named different)
    · exact fun name word outside => (member.mp (listed name word outside)).2
    · intro drop header among void unsectioned found
      by_contra absent
      exact dropped drop header among void unsectioned (member.mpr ⟨found, fun _ => absent⟩)
  · rintro ⟨functions, globals, listed, dropped⟩
    constructor
    · exact fun header among sectioned => member.mpr (functions header among sectioned)
    · exact fun global among sectionName named different =>
        member.mpr (globals global among sectionName named different)
    · exact fun name word outside =>
        member.mpr ⟨Or.inr (Or.inl word), listed name word outside⟩
    · intro drop header among void unsectioned inList
      obtain ⟨found, absent⟩ := member.mp inList
      exact absent drop (dropped drop header among void unsectioned found)

/-- `define i32 @"a$b"() section "syscall" {` -/
def quotedProgram : Header :=
  { dollarFunction with
    returns := .int 32
    sectionName := some ⟨"syscall".toList, by decide⟩ }

/-- A program whose name is printed between quotes is not found. -/
theorem keep_syms_quoted : ¬KeepsEntries [.function quotedProgram []] ⟨none, [], false⟩ := by
  intro keeps
  have kept := keeps.functions quotedProgram List.mem_cons_self rfl
  have nothing : added ⟨none, [], false⟩ (Module.text [.function quotedProgram []]) = [] := by
    decide
  rw [mem_keepSyms, nothing] at kept
  cases kept.1

end LibarenaRs.Linker
