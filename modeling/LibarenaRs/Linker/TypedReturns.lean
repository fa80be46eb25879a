import LibarenaRs.Linker.Finalize
import LibarenaRs.Linker.TypeShapes

/-!
# Inserted returns have the type of their function

Each `ret` that the two passes insert into the body of a function has the type
that was read off the last signature line that could be read.  It is the type of
the function exactly if that word is the function's return type.
-/

namespace LibarenaRs.Llvm

open LibarenaRs.Regex

/-- The lines of an item, those of a body with the function they stand in. -/
def Item.owned : Item → List (Option Header × Text)
  | .function header body =>
      (none, defineLine header) ::
        (body.map (fun line => (some header, line.val)) ++ [(none, closing.val)])
  | item => item.lines.map fun line => (none, line)

def Module.owned (m : Module) : List (Option Header × Text) := m.flatMap Item.owned

theorem Item.map_owned (item : Item) : item.owned.map Prod.snd = item.lines := by
  cases item with
  | function header body =>
      simp only [owned, lines, List.map_cons, List.map_append, List.map_map, List.map_nil]
      rfl
  | declaration | global | attributeGroup | other => rfl

theorem Module.map_owned (m : Module) : m.owned.map Prod.snd = m.lines := by
  induction m with
  | nil => rfl
  | cons item others inductionHypothesis =>
      rw [owned, lines, List.flatMap_cons, List.flatMap_cons, List.map_append, item.map_owned,
        ← owned, ← lines, inductionHypothesis]

/-- An owned line stands in the body of its owner. -/
theorem Module.owned_split {m : Module} {before rest : List (Option Header × Text)}
    {header : Header} {line : Text} (split : m.owned = before ++ (some header, line) :: rest) :
    ∃ first body last bodyBefore inner bodyAfter,
      m = first ++ .function header body :: last ∧ body = bodyBefore ++ inner :: bodyAfter ∧
      inner.val = line ∧
      before = Module.owned first ++ (none, defineLine header) ::
        bodyBefore.map (fun line => (some header, line.val)) ∧
      rest = bodyAfter.map (fun line => (some header, line.val)) ++ (none, closing.val) ::
        Module.owned last := by
  induction m generalizing before with
  | nil =>
      have lengths := congrArg List.length split
      simp [owned] at lengths
  | cons item others inductionHypothesis =>
      rw [owned, List.flatMap_cons, ← owned] at split
      rcases List.append_eq_append_iff.mp split with ⟨more, whole, tail⟩ | ⟨more, whole, tail⟩
      · obtain ⟨first, body, last, bodyBefore, inner, bodyAfter, places, inBody, same, inFront,
          behind⟩ := inductionHypothesis tail
        refine ⟨item :: first, body, last, bodyBefore, inner, bodyAfter, by rw [places]; rfl,
          inBody, same, ?_, behind⟩
        rw [whole, inFront, owned, owned, List.flatMap_cons, List.append_assoc]
      · cases more with
        | nil =>
            obtain ⟨first, body, last, bodyBefore, inner, bodyAfter, places, inBody, same,
              inFront, behind⟩ := @inductionHypothesis [] tail.symm
            exact absurd (congrArg List.length inFront) (by simp)
        | cons owner more =>
            rw [List.cons_append, List.cons.injEq] at tail
            obtain ⟨rfl, tail⟩ := tail
            have unowned : ∀ lines : List Text,
                (some header, line) ∉ lines.map fun line => ((none : Option Header), line) := by
              intro lines member
              obtain ⟨other, -, same⟩ := List.mem_map.mp member
              cases same
            have member : (some header, line) ∈ item.owned := by
              rw [whole]
              simp
            cases item with
            | function other body =>
                cases before with
                | nil => cases (List.cons.inj whole).1
                | cons opening before =>
                    obtain ⟨rfl, inner⟩ := List.cons.inj whole
                    rcases List.append_eq_append_iff.mp inner with
                      ⟨left, cut, closing_⟩ | ⟨left, cut, closing_⟩
                    · cases left with
                      | nil => cases (List.cons.inj closing_).1
                      | cons d left =>
                          rw [List.cons_append, List.cons.injEq] at closing_
                          simp at closing_
                    · cases left with
                      | nil => cases (List.cons.inj closing_).1
                      | cons d left =>
                          rw [List.cons_append, List.cons.injEq] at closing_
                          obtain ⟨rfl, rest_⟩ := closing_
                          obtain ⟨bodyBefore, bodyRest, rfl, beforeSame, restSame⟩ :=
                            List.map_eq_append_iff.mp cut
                          obtain ⟨line_, bodyAfter, rfl, owner_, afterSame⟩ :=
                            List.map_eq_cons_iff.mp restSame
                          cases owner_
                          refine ⟨[], _, others, bodyBefore, line_, bodyAfter, rfl, rfl, rfl, ?_, ?_⟩
                          · rw [← beforeSame]
                            rfl
                          · rw [tail, rest_, ← afterSame, List.append_assoc]
                            rfl
            | declaration | global | attributeGroup | other => exact absurd member (unowned _)

end LibarenaRs.Llvm

namespace LibarenaRs.Linker

open LibarenaRs.Regex LibarenaRs.Llvm

/-! ## The state of the loops -/

/-- The type carried along behind these lines. -/
def typeAfter (current : Option Text) (lines : List Text) : Option Text :=
  lines.foldl (fun type line => (headerType line).or type) current

/-- The type that the nearest signature gives, from the last one upwards. -/
def nearestType (headers : List Header) : Option Text :=
  headers.reverse.findSome? Header.reading

theorem nearestType_append (headers : List Header) (header : Header) :
    nearestType (headers ++ [header]) = header.reading.or (nearestType headers) := by
  rw [nearestType, nearestType, List.reverse_append, List.findSome?_append, List.reverse_singleton,
    List.findSome?_singleton]

theorem nearestType_cons (header : Header) (headers : List Header) :
    nearestType (header :: headers) = (nearestType headers).or header.reading := by
  rw [nearestType, nearestType, List.reverse_cons, List.findSome?_append, List.findSome?_singleton]

theorem startsUnreachable_eq_true {line : Text} (starts : startsUnreachable line = true) :
    ∃ rest, line.dropWhile isSpace = 'u' :: rest := by
  rw [startsUnreachable, List.isPrefixOf_iff_prefix] at starts
  obtain ⟨more, split⟩ := starts
  have whole : strip line <+: line.dropWhile isSpace := by
    have suffix_ := @List.dropWhile_suffix _ (line.dropWhile isSpace).reverse isSpace
    rw [strip, ← List.reverse_suffix, List.reverse_reverse]
    exact suffix_
  obtain ⟨tail, rest⟩ := whole
  rw [← split] at rest
  exact ⟨_, rest.symm⟩

theorem not_startsUnreachable_of_trapCall {line : Text} (trap : trapCall line = true) :
    startsUnreachable line = false := by
  rw [trapCall, Option.isSome_iff_exists] at trap
  obtain ⟨m, found⟩ := trap
  obtain ⟨stop, ⟨_, ⟨-, rfl⟩, _, spaces, _, optional, ⟨rest, call, -⟩⟩, -, -, -⟩ :=
    Pattern.matchAt_eq_some found
  obtain ⟨read, split, white⟩ := Pattern.star_chr_reaches spaces
  -- behind the white space stands `tail` or `call`
  obtain ⟨c, left, next, different⟩ : ∃ c left, line = read ++ c :: left ∧ (c = 't' ∨ c = 'c') := by
    rcases optional with ⟨_, ⟨rest, tail, rfl⟩, -⟩ | same
    · exact ⟨'t', _, by rw [show line = read ++ _ from split, tail]; rfl, Or.inl rfl⟩
    · obtain rfl := same
      exact ⟨'c', _, by rw [show line = read ++ _ from split, call]; rfl, Or.inr rfl⟩
  rw [Bool.eq_false_iff]
  intro starts
  obtain ⟨more, dropped⟩ := startsUnreachable_eq_true starts
  rw [next, List.dropWhile_append_of_pos white] at dropped
  rcases different with rfl | rfl
  · rw [List.dropWhile_cons_of_neg (by decide)] at dropped
    exact absurd (List.cons.inj dropped).1 (by decide)
  · rw [List.dropWhile_cons_of_neg (by decide)] at dropped
    exact absurd (List.cons.inj dropped).1 (by decide)

theorem headerType_of_startsUnreachable {line : Text} (starts : startsUnreachable line = true) :
    headerType line = none := by
  obtain ⟨rest, dropped⟩ := startsUnreachable_eq_true starts
  have absent : afterKeyword "define".toList line = none := by
    cases found : afterKeyword "define".toList line with
    | none => rfl
    | some left =>
        obtain ⟨c, -, rfl⟩ := afterKeyword_eq_some found
        rw [show "define".toList ++ c :: left = 'd' :: ("efine".toList ++ c :: left) from rfl,
          List.dropWhile_cons_of_neg (by decide)] at dropped
        exact absurd (List.cons.inj dropped).1 (by decide)
  have failed := @matchAt_keywordRe_eq_none "define".toList (.seq anyInLine typeRe) [] line absent
  rw [headerType, show headerRe.matchStart line = none from failed]
  rfl

section Loops

variable {Owner : Type}

/-- A trap in front of an `unreachable`, where the type carried to it can be returned. -/
def TrapSite (cookie : Int) (current : Option Text) (lines : List (Owner × Text)) (owner : Owner)
    (instruction : Text) : Prop :=
  ∃ before line nextOwner next rest,
    lines = before ++ (owner, line) :: (nextOwner, next) :: rest ∧
    trapCall line = true ∧ startsUnreachable next = true ∧
    trapReturn cookie (typeAfter current (before.map Prod.snd ++ [line])) = some instruction

/-- A site is at the first line or behind it. -/
theorem trapSite_cons {cookie : Int} {current : Option Text} {first owner : Owner} {line : Text}
    {rest : List (Owner × Text)} {instruction : Text} :
    TrapSite cookie current ((first, line) :: rest) owner instruction ↔
      (owner = first ∧ trapCall line = true ∧
        trapReturn cookie ((headerType line).or current) = some instruction ∧
        ∃ nextOwner next others, rest = (nextOwner, next) :: others ∧
          startsUnreachable next = true) ∨
      TrapSite cookie ((headerType line).or current) rest owner instruction := by
  constructor
  · rintro ⟨before, trapLine, o, n, left, split, trap, follows, written⟩
    cases before with
    | nil =>
        obtain ⟨head, rfl⟩ := List.cons.inj split
        cases head
        exact Or.inl ⟨rfl, trap, written, o, n, left, rfl, follows⟩
    | cons head before =>
        obtain ⟨rfl, rfl⟩ := List.cons.inj split
        exact Or.inr ⟨before, trapLine, o, n, left, rfl, trap, follows, written⟩
  · rintro (⟨rfl, trap, written, o, n, left, rfl, follows⟩ |
      ⟨before, trapLine, o, n, left, rfl, trap, follows, written⟩)
    · exact ⟨[], line, o, n, left, rfl, trap, follows, written⟩
    · exact ⟨(first, line) :: before, trapLine, o, n, left, rfl, trap, follows, written⟩

/-- `trap_to_ret` inserts its `ret`s exactly at the sites. -/
theorem mem_trapLoop_ret {cookie : Int} {current : Option Text} {lines : List (Owner × Text)}
    {owner : Owner} {indent instruction metadata : Text} :
    (owner, Emitted.ret indent instruction metadata) ∈ trapLoop cookie current lines ↔
      TrapSite cookie current lines owner instruction ∧ indent = "  ".toList ∧ metadata = [] := by
  induction current, lines using trapLoop.induct cookie with
  | case1 current =>
      simp [trapLoop, TrapSite]
  | case2 current first line =>
      have noSite : ¬TrapSite cookie current [(first, line)] owner instruction := by
        rintro ⟨before, line, nextOwner, next, rest, split, -⟩
        have lengths := congrArg List.length split
        simp at lengths
        omega
      simp [trapLoop, noSite]
  | case3 current first line nextFirst next rest type pair instruction_ written
      inductionHypothesis =>
      -- the pair is consumed; its second line is neither a trap nor a signature
      have written' : trapReturn cookie ((headerType line).or current) = some instruction_ := written
      have both := pair
      rw [Bool.and_eq_true] at both
      have silent := headerType_of_startsUnreachable both.2
      have noTrap : trapCall next = false := by
        rw [Bool.eq_false_iff]
        intro trap
        rw [not_startsUnreachable_of_trapCall trap] at both
        cases both.2
      rw [trapLoop, if_pos pair]
      simp only [written', List.mem_cons, Prod.mk.injEq, Emitted.ret.injEq]
      rw [show ((owner, Emitted.ret indent instruction metadata) ∈
        trapLoop cookie ((headerType line).or current) rest ↔ _) from inductionHypothesis,
        trapSite_cons, trapSite_cons, silent, noTrap, both.1, written']
      simp only [Option.none_or, Bool.false_eq_true, false_and, and_false, false_or,
        Option.some.injEq, true_and, List.cons.injEq, Prod.mk.injEq]
      constructor
      · rintro (⟨rfl, rfl, rfl, rfl⟩ | ⟨site, form⟩)
        · exact ⟨Or.inl ⟨rfl, rfl, nextFirst, next, rest, ⟨⟨rfl, rfl⟩, rfl⟩, both.2⟩, rfl, rfl⟩
        · exact ⟨Or.inr site, form⟩
      · rintro ⟨⟨rfl, rfl, -⟩ | site, rfl, rfl⟩
        · exact Or.inl ⟨rfl, rfl, rfl, rfl⟩
        · exact Or.inr ⟨site, rfl, rfl⟩
  | case4 current first line nextFirst next rest type pair unwritten inductionHypothesis =>
      have unwritten' : trapReturn cookie ((headerType line).or current) = none := unwritten
      rw [trapLoop, if_pos pair]
      simp only [unwritten', List.mem_cons, Prod.mk.injEq, reduceCtorEq, and_false, false_or]
      rw [show ((owner, Emitted.ret indent instruction metadata) ∈
        trapLoop cookie ((headerType line).or current) ((nextFirst, next) :: rest) ↔ _) from
        inductionHypothesis, @trapSite_cons _ cookie current first, unwritten']
      simp only [reduceCtorEq, false_and, and_false, false_or]
      exact Iff.rfl
  | case5 current first line nextFirst next rest type noPair inductionHypothesis =>
      rw [trapLoop, if_neg noPair]
      simp only [List.mem_cons, Prod.mk.injEq, reduceCtorEq, and_false, false_or]
      rw [show ((owner, Emitted.ret indent instruction metadata) ∈
        trapLoop cookie ((headerType line).or current) ((nextFirst, next) :: rest) ↔ _) from
        inductionHypothesis, @trapSite_cons _ cookie current first]
      have noHead : ¬(trapCall line = true ∧ ∃ nextOwner following others,
          (nextFirst, next) :: rest = (nextOwner, following) :: others ∧
            startsUnreachable following = true) := by
        rintro ⟨trap, o, n, others, same, follows⟩
        cases same
        exact noPair (by simp [trap, follows])
      constructor
      · rintro ⟨site, form⟩
        exact ⟨Or.inr site, form⟩
      · rintro ⟨⟨-, trap, -, follows⟩ | site, form⟩
        · exact absurd ⟨trap, follows⟩ noHead
        · exact ⟨site, form⟩

/-- `bpf_finalize` inserts its `ret`s exactly for the `unreachable`s, with the type
carried to them. -/
theorem mem_zeroLoop_ret {current : Text} {lines : List (Owner × Text)} {owner : Owner}
    {instruction : Text} :
    (∃ indent metadata, (owner, Emitted.ret indent instruction metadata) ∈ zeroLoop current lines) ↔
      ∃ before line rest type, lines = before ++ (owner, line) :: rest ∧
        (unreachableRe.matchStart line).isSome = true ∧
        typeAfter (some current) (before.map Prod.snd ++ [line]) = some type ∧
        instruction = zeroReturn type := by
  induction lines generalizing current with
  | nil => simp [zeroLoop]
  | cons first rest inductionHypothesis =>
      obtain ⟨firstOwner, line⟩ := first
      have next : (headerType line).or (some current) =
          some ((headerType line).getD current) := by
        cases headerType line <;> rfl
      have atHead : (∃ indent metadata, (owner, Emitted.ret indent instruction metadata) =
          (firstOwner, zeroLine ((headerType line).getD current) line)) ↔
          owner = firstOwner ∧ (unreachableRe.matchStart line).isSome = true ∧
            instruction = zeroReturn ((headerType line).getD current) := by
        rw [zeroLine]
        cases unreachableRe.matchStart line with
        | none => simp
        | some m => simp
      constructor
      · rintro ⟨indent, metadata, member⟩
        rw [zeroLoop, List.mem_cons] at member
        rcases member with here | later
        · obtain ⟨rfl, site, written⟩ := atHead.mp ⟨indent, metadata, here⟩
          exact ⟨[], line, rest, _, rfl, site, next, written⟩
        · obtain ⟨before, siteLine, left, type, rfl, site, carried, written⟩ :=
            inductionHypothesis.mp ⟨indent, metadata, later⟩
          refine ⟨(firstOwner, line) :: before, siteLine, left, type, rfl, site, ?_, written⟩
          simpa [typeAfter, next] using carried
      · rintro ⟨before, siteLine, left, type, split, site, carried, written⟩
        cases before with
        | nil =>
            obtain ⟨head, rfl⟩ := List.cons.inj split
            cases head
            rw [show typeAfter (some current) ([].map Prod.snd ++ [line]) =
              some ((headerType line).getD current) from next] at carried
            obtain rfl := Option.some.inj carried
            obtain ⟨indent, metadata, here⟩ := atHead.mpr ⟨rfl, site, written⟩
            exact ⟨indent, metadata, by rw [zeroLoop, ← here]; simp⟩
        | cons head before =>
            obtain ⟨rfl, rfl⟩ := List.cons.inj split
            have carried' : typeAfter (some ((headerType line).getD current))
                (before.map Prod.snd ++ [siteLine]) = some type := by
              simpa [typeAfter, next] using carried
            obtain ⟨indent, metadata, later⟩ := inductionHypothesis.mpr
              ⟨before, siteLine, left, type, rfl, site, carried', written⟩
            exact ⟨indent, metadata, by rw [zeroLoop]; exact List.mem_cons_of_mem _ later⟩

end Loops

/-! ## The type at a site -/

theorem headerType_defineLine (header : Header) :
    headerType (defineLine header) = header.reading := by
  have found : afterKeyword "define".toList (defineLine header) = some header.print :=
    afterKeyword_append "define".toList header.print
  rw [headerType_eq (not_newline_of_printable (printable_defineLine header)), found]
  exact header.typeIn_print

theorem headerType_inert (line : InertLine) : headerType line.val = none := by
  rw [headerType_eq line.property.1, afterKeyword_eq_none (by decide)]
  · rfl
  · exact fun same => line.property.2.2 (by simp [same])

theorem typeAfter_append (current : Option Text) (first second : List Text) :
    typeAfter current (first ++ second) = typeAfter (typeAfter current first) second :=
  List.foldl_append

theorem typeAfter_inert (current : Option Text) (lines : List InertLine) :
    typeAfter current (lines.map fun line => line.val) = current := by
  induction lines generalizing current with
  | nil => rfl
  | cons line lines inductionHypothesis =>
      rw [List.map_cons, typeAfter, List.foldl_cons, headerType_inert]
      exact inductionHypothesis current

/-- Behind a module stands the type of its last signature that gives one. -/
theorem typeAfter_lines (current : Option Text) (m : Module) :
    typeAfter current m.lines = (nearestType m.functions).or current := by
  induction m generalizing current with
  | nil => rfl
  | cons item others inductionHypothesis =>
      rw [Module.lines, List.flatMap_cons, typeAfter_append, ← Module.lines, inductionHypothesis]
      have silent : ∀ {line : Text}, '\n' ∉ line → firstWord line ≠ "define".toList →
          typeAfter current [line] = current := by
        intro line oneLine different
        change (headerType line).or current = current
        rw [headerType_eq oneLine, afterKeyword_eq_none (by decide) different]
        rfl
      cases item with
      | function header body =>
          have first : typeAfter current (Item.function header body).lines =
              header.reading.or current := by
            rw [Item.lines, ← List.singleton_append, typeAfter_append, typeAfter_inert]
            exact congrArg (Option.or · current) (headerType_defineLine header)
          rw [first, ← Option.or_assoc, ← nearestType_cons]
          rfl
      | declaration metadata header =>
          rw [Item.lines, silent (@Item.oneLine (.declaration metadata header) _
            (List.mem_singleton_self _))]
          · rfl
          · rw [firstWord_declareLine]
            decide
      | global variable_ =>
          rw [Item.lines, silent (not_newline_of_printable variable_.printable_print)]
          · rfl
          · obtain ⟨rest, word⟩ := firstWord_global variable_
            rw [word]
            exact fun same => absurd (List.cons.inj same).1 (by decide)
      | attributeGroup group =>
          rw [Item.lines, silent (not_newline_of_printable group.printable_print)]
          · rfl
          · rw [firstWord_group]
            decide
      | other line =>
          rw [Item.lines, silent line.property.1]
          · rfl
          · exact fun same => line.property.2.2 (by simp [same])

/-- The type carried to a line of a body. -/
theorem typeAfter_body (current : Option Text) (first : Module) (header : Header)
    (bodyBefore : List InertLine) (line : InertLine) :
    typeAfter current (((Module.owned first ++ (none, defineLine header) ::
      bodyBefore.map (fun line => (some header, line.val))).map Prod.snd) ++ [line.val]) =
      (nearestType (first.functions ++ [header])).or current := by
  have inBody : ((bodyBefore.map fun line => (some header, line.val)).map Prod.snd) ++ [line.val] =
      (bodyBefore ++ [line]).map fun line => line.val := by
    simp
  rw [List.map_append, Module.map_owned, List.map_cons, List.append_assoc, List.cons_append,
    inBody, typeAfter_append, typeAfter_lines, ← List.singleton_append, typeAfter_append,
    typeAfter_inert, nearestType_append, Option.or_assoc]
  exact congrArg (Option.or · _) (headerType_defineLine header)

/-! ## Words and types -/

/-- `i` and digits -/
theorem intRe_fullMatch {type : Text} :
    intRe.fullMatch type = true ↔
      ∃ digits, type = 'i' :: digits ∧ digits ≠ [] ∧ digits.all Char.isDigit = true := by
  cases type with
  | nil =>
      constructor
      · intro matched
        cases matched
      · rintro ⟨digits, same, -⟩
        cases same
  | cons c digits =>
      by_cases sign : c = 'i'
      · subst sign
        have stuck : ∀ past d rest, Char.isDigit d = true →
            (fun after : Cursor => if after.rest.isEmpty then some () else none)
              ⟨past, d :: rest, []⟩ = none := fun past d rest digit => rfl
        have ran : intRe.run (fun after => if after.rest.isEmpty then some () else none)
            ⟨[], 'i' :: digits, []⟩ =
            if digits.takeWhile Char.isDigit = [] then none
            else if (digits.dropWhile Char.isDigit).isEmpty then some () else none := by
          rw [intRe, Pattern.run_cat_cons, show 'i' :: digits = ['i'] ++ digits from rfl,
            Pattern.run_lit_append]
          exact Pattern.run_plus_maximal stuck
        have split := @List.takeWhile_append_dropWhile _ Char.isDigit digits
        rw [Pattern.fullMatch, ran]
        constructor
        · intro matched
          refine ⟨digits, rfl, ?_, ?_⟩
          · rintro rfl
            cases matched
          · by_cases rest : (digits.dropWhile Char.isDigit).isEmpty = true
            · rw [List.isEmpty_iff.mp rest, List.append_nil] at split
              rw [← split]
              exact List.all_takeWhile
            · rw [if_neg rest] at matched
              split at matched <;> cases matched
        · rintro ⟨others, same, filled, all⟩
          obtain rfl := (List.cons.inj same).2
          have rest := @List.dropWhile_append_of_pos _ Char.isDigit digits []
            (List.all_eq_true.mp all)
          rw [List.append_nil, List.dropWhile_nil] at rest
          rw [rest, List.append_nil] at split
          rw [split, rest, if_neg filled]
          rfl
      · have failed : intRe.run (fun after => if after.rest.isEmpty then some () else none)
            ⟨[], c :: digits, []⟩ = none := by
          apply Pattern.run_lit_absent
          rintro ⟨rest, same⟩
          cases same
          exact sign rfl
        rw [Pattern.fullMatch, failed]
        constructor
        · intro matched
          cases matched
        · rintro ⟨others, same, -⟩
          exact absurd (List.cons.inj same).1 sign

/-- Each kind of type starts with its own character; only `void` with a `v` and
only integers with an `i`. -/
theorem IrType.head_print (type : IrType) :
    type = .void ∨ (∃ bits, type = .int bits) ∨
      headIs (fun c => c == 'v' || c == 'i') type.print = false := by
  cases type with
  | void => exact Or.inl rfl
  | int bits => exact Or.inr (Or.inl ⟨bits, rfl⟩)
  | ptr space =>
      right; right
      rw [IrType.print, printPtr]
      split <;> rfl
  | floating kind => cases kind <;> exact Or.inr (Or.inr rfl)
  | vector scalable count element => cases scalable <;> exact Or.inr (Or.inr rfl)
  | struct packed fields =>
      right; right
      rw [IrType.print]
      cases packed with
      | true => rfl
      | false => cases IrType.printAll fields <;> rfl
  | array | named | numbered => exact Or.inr (Or.inr rfl)

theorem IrType.print_eq_void {type : IrType} (same : type.print = "void".toList) :
    type = .void := by
  rcases IrType.head_print type with void | ⟨bits, rfl⟩ | other
  · exact void
  · exact absurd (List.cons.inj same).1 (by decide)
  · rw [same] at other
    cases other

theorem IrType.print_eq_int {type : IrType} {rest : Text} (same : type.print = 'i' :: rest) :
    ∃ bits, type = .int bits := by
  rcases IrType.head_print type with rfl | int | other
  · exact absurd (List.cons.inj same).1 (by decide)
  · exact int
  · rw [same] at other
    cases other

theorem intRe_fullMatch_print {type : IrType} :
    intRe.fullMatch type.print = true ↔ ∃ bits, type = .int bits := by
  rw [intRe_fullMatch]
  constructor
  · rintro ⟨digits, same, -⟩
    exact IrType.print_eq_int same
  · rintro ⟨bits, rfl⟩
    refine ⟨printNat bits, by rw [IrType.print], Nat.toDigits_ne_nil, ?_⟩
    rw [List.all_eq_true]
    exact fun c member => List.all_eq_true.mp (isDigit_printNat _) c member

/-! ## The returns that fit -/

/-- The `ret` for a trap in a function that returns this type. -/
def cookieReturn (cookie : Int) : IrType → Option Text
  | .void => some "ret void".toList
  | .int bits => some ("ret ".toList ++ (IrType.int bits).print ++ ' ' :: printInt cookie)
  | _ => none

def zeroValue : IrType → Text
  | .int _ => "0".toList
  | .ptr _ => "null".toList
  | _ => "zeroinitializer".toList

/-- The `ret` of the zero value of this type. -/
def zeroReturnOf : IrType → Text
  | .void => "ret void".toList
  | type => "ret ".toList ++ type.print ++ ' ' :: zeroValue type

/-- What stands behind the last blank. -/
theorem append_blank_inj {first second word other : Text} (closed : ' ' ∉ word)
    (otherClosed : ' ' ∉ other) (same : first ++ ' ' :: word = second ++ ' ' :: other) :
    first = second := by
  have clean : ∀ text : Text, ' ' ∉ text → text.reverse.all (· != ' ') = true := by
    intro text absent
    rw [List.all_eq_true]
    intro c member
    have different : c ≠ ' ' := fun equality => absent (equality ▸ List.mem_reverse.mp member)
    simpa using different
  have mirrored := congrArg List.reverse same
  simp only [List.reverse_append, List.reverse_cons, List.append_assoc,
    List.singleton_append] at mirrored
  have words := congrArg (List.takeWhile (· != ' ')) mirrored
  rw [takeWhile_stop (clean word closed) (by decide),
    takeWhile_stop (clean other otherClosed) (by decide)] at words
  rw [List.reverse_inj.mp words] at same
  exact List.append_cancel_right same

theorem ret_ne_void {type value : Text} : "ret ".toList ++ type ++ ' ' :: value ≠ "ret void".toList := by
  intro same
  rw [List.append_assoc, show "ret void".toList = "ret ".toList ++ "void".toList from rfl] at same
  have blank : ' ' ∈ "void".toList := by
    rw [← List.append_cancel_left same]
    simp
  exact absurd blank (by decide)

theorem trapReturn_fits {cookie : Int} {carried : Text} {instruction : Text}
    (written : trapReturn cookie (some carried) = some instruction) (type : IrType) :
    cookieReturn cookie type = some instruction ↔ carried = type.print := by
  rw [trapReturn] at written
  split at written
  · rename_i void
    obtain rfl := Option.some.inj written
    rw [void]
    constructor
    · intro fits
      cases type with
      | void => rfl
      | int bits => exact absurd (Option.some.inj fits) ret_ne_void
      | ptr | floating | array | vector | struct | named | numbered => cases fits
    · intro same
      rw [IrType.print_eq_void same.symm]
      rfl
  · rename_i notVoid
    split at written
    · rename_i int
      obtain rfl := Option.some.inj written
      constructor
      · intro fits
        cases type with
        | void => exact absurd (Option.some.inj fits).symm ret_ne_void
        | int bits =>
            have same := List.append_cancel_right (Option.some.inj fits)
            exact (List.append_cancel_left same).symm
        | ptr | floating | array | vector | struct | named | numbered => cases fits
      · rintro rfl
        obtain ⟨bits, rfl⟩ := intRe_fullMatch_print.mp int
        rfl
    · cases written

theorem isPrefixOf_ptr {type : IrType} :
    "ptr".toList.isPrefixOf type.print = true ↔ ∃ space, type = .ptr space := by
  constructor
  · intro starts
    cases type with
    | ptr space => exact ⟨space, rfl⟩
    | floating kind => cases kind <;> exact absurd starts (by decide)
    | vector scalable count element => cases scalable <;> cases starts
    | struct packed fields =>
        rw [IrType.print] at starts
        cases packed with
        | true => cases starts
        | false => cases printed : IrType.printAll fields <;> rw [printed] at starts <;> cases starts
    | void | int | array | named | numbered => cases starts
  · rintro ⟨space, rfl⟩
    rw [IrType.print, printPtr]
    split <;> rfl

theorem zeroReturn_print (type : IrType) : zeroReturn type.print = zeroReturnOf type := by
  have int : intRe.fullMatch type.print = true ↔ ∃ bits, type = .int bits := intRe_fullMatch_print
  have ptr : "ptr".toList.isPrefixOf type.print = true ↔ ∃ space, type = .ptr space :=
    isPrefixOf_ptr
  have void : type.print = "void".toList → type = .void := IrType.print_eq_void
  unfold zeroReturn
  cases type with
  | void => rfl
  | int bits =>
      rw [if_neg (fun same => nomatch void same), if_pos (int.mpr ⟨bits, rfl⟩)]
      rfl
  | ptr space =>
      rw [if_neg (fun same => nomatch void same), if_neg (by simp [int]),
        if_pos (ptr.mpr ⟨space, rfl⟩)]
      rfl
  | floating | array | vector | struct | named | numbered =>
      rw [if_neg (fun same => nomatch void same), if_neg (by simp [int]),
        if_neg (fun starts => nomatch ptr.mp starts)]
      rfl

theorem zeroReturn_fits {carried : Text} (type : IrType) :
    zeroReturn carried = zeroReturnOf type ↔ carried = type.print := by
  constructor
  · intro fits
    have form : ∀ type : IrType, type = .void ∨
        ∃ value, ' ' ∉ value ∧ zeroReturnOf type = "ret ".toList ++ type.print ++ ' ' :: value := by
      intro type
      cases type with
      | void => exact Or.inl rfl
      | int | ptr | floating | array | vector | struct | named | numbered =>
          exact Or.inr ⟨_, by simp only [zeroValue]; decide, rfl⟩
    have carriedForm : carried = "void".toList ∧ zeroReturn carried = "ret void".toList ∨
        ∃ value, ' ' ∉ value ∧ zeroReturn carried = "ret ".toList ++ carried ++ ' ' :: value := by
      unfold zeroReturn
      split
      · rename_i void
        exact Or.inl ⟨void, rfl⟩
      · split
        · exact Or.inr ⟨"0".toList, by decide, rfl⟩
        · split
          · exact Or.inr ⟨"null".toList, by decide, rfl⟩
          · exact Or.inr ⟨"zeroinitializer".toList, by decide, rfl⟩
    rcases carriedForm with ⟨rfl, void⟩ | ⟨value, closed, ret⟩
    · rcases form type with rfl | ⟨other, -, otherRet⟩
      · rfl
      · rw [void, otherRet] at fits
        exact absurd fits.symm ret_ne_void
    · rcases form type with rfl | ⟨other, otherClosed, otherRet⟩
      · rw [ret] at fits
        exact absurd fits ret_ne_void
      · rw [ret, otherRet] at fits
        exact List.append_cancel_left (append_blank_inj closed otherClosed fits)
  · rintro rfl
    exact zeroReturn_print type

/-! ## When every inserted return fits -/

def HasTrap (body : List InertLine) : Prop :=
  ∃ before line next after, body = before ++ line :: next :: after ∧
    trapCall line.val = true ∧ startsUnreachable next.val = true

def HasUnreachable (body : List InertLine) : Prop :=
  ∃ line ∈ body, (unreachableRe.matchStart line.val).isSome = true

/-- Every `ret` inserted into a function has the function's return type.  The module is the
one that the loop of each pass is given. -/
def ReturnsTyped (cookie : Int) (m : Module) : Prop :=
  (∀ header indent instruction metadata,
    (some header, Emitted.ret indent instruction metadata) ∈ trapLoop cookie none m.owned →
      cookieReturn cookie header.returns = some instruction) ∧
  ∀ header indent instruction metadata,
    (some header, Emitted.ret indent instruction metadata) ∈ zeroLoop "void".toList m.owned →
      instruction = zeroReturnOf header.returns

/-- Where `trap_to_ret` inserts something in a function. -/
theorem trapSite_owned {cookie : Int} {m : Module} {header : Header} {instruction : Text} :
    TrapSite cookie none m.owned (some header) instruction ↔
      ∃ first body last, m = first ++ .function header body :: last ∧ HasTrap body ∧
        trapReturn cookie (nearestType (Module.functions first ++ [header])) =
          some instruction := by
  constructor
  · rintro ⟨before, line, nextOwner, next, rest, split, trap, follows, written⟩
    obtain ⟨first, body, last, bodyBefore, inner, bodyAfter, rfl, rfl, rfl, rfl, behind⟩ :=
      Module.owned_split split
    rw [typeAfter_body, Option.or_none] at written
    refine ⟨first, _, last, rfl, ?_, written⟩
    cases bodyAfter with
    | nil =>
        obtain ⟨closes, -⟩ := List.cons.inj behind
        cases closes
        exact absurd follows (by decide)
    | cons nextInner others =>
        obtain ⟨inside, -⟩ := List.cons.inj behind
        cases inside
        exact ⟨bodyBefore, inner, nextInner, others, rfl, trap, follows⟩
  · rintro ⟨first, body, last, rfl, ⟨before, line, next, after, rfl, trap, follows⟩, written⟩
    refine ⟨Module.owned first ++ (none, defineLine header) ::
      before.map (fun line => (some header, line.val)), line.val, some header, next.val,
      after.map (fun line => (some header, line.val)) ++ (none, closing.val) :: Module.owned last,
      ?_, trap, follows, by rw [typeAfter_body, Option.or_none]; exact written⟩
    simp [Module.owned, Item.owned]

/-- Where `bpf_finalize` inserts something in a function. -/
theorem zeroSite_owned {m : Module} {header : Header} {type : Text} :
    (∃ before line rest, m.owned = before ++ (some header, line) :: rest ∧
      (unreachableRe.matchStart line).isSome = true ∧
      typeAfter (some "void".toList) (before.map Prod.snd ++ [line]) = some type) ↔
      ∃ first body last, m = first ++ .function header body :: last ∧ HasUnreachable body ∧
        (nearestType (Module.functions first ++ [header])).getD "void".toList = type := by
  constructor
  · rintro ⟨before, line, rest, split, site, carried⟩
    obtain ⟨first, body, last, bodyBefore, inner, bodyAfter, rfl, rfl, rfl, rfl, -⟩ :=
      Module.owned_split split
    rw [typeAfter_body, Option.or_some] at carried
    exact ⟨first, _, last, rfl, ⟨inner, by simp, site⟩, Option.some.inj carried⟩
  · rintro ⟨first, body, last, rfl, ⟨line, member, site⟩, carried⟩
    obtain ⟨before, after, rfl⟩ := List.append_of_mem member
    refine ⟨Module.owned first ++ (none, defineLine header) ::
      before.map (fun line => (some header, line.val)), line.val,
      after.map (fun line => (some header, line.val)) ++ (none, closing.val) :: Module.owned last,
      ?_, site, by rw [typeAfter_body, Option.or_some, carried]⟩
    simp [Module.owned, Item.owned]

theorem trapReturn_isSome {cookie : Int} {type : Text} :
    (∃ instruction, trapReturn cookie (some type) = some instruction) ↔
      type = "void".toList ∨ intRe.fullMatch type = true := by
  constructor
  · rintro ⟨instruction, written⟩
    rw [trapReturn] at written
    split at written
    · rename_i void
      exact Or.inl void
    · split at written
      · rename_i int
        exact Or.inr int
      · cases written
  · intro rewritable
    by_cases void : type = "void".toList
    · exact ⟨_, by rw [trapReturn, if_pos void]⟩
    · have int := rewritable.resolve_left void
      exact ⟨_, by rw [trapReturn, if_neg void, if_pos int]⟩

/-! ## The passes on the text of a module -/

section Owners

variable {Owner Other : Type} (rename : Owner → Other)

theorem trapLoop_map (cookie : Int) (current : Option Text) (lines : List (Owner × Text)) :
    trapLoop cookie current (lines.map fun line => (rename line.1, line.2)) =
      (trapLoop cookie current lines).map fun emitted => (rename emitted.1, emitted.2) := by
  induction current, lines using trapLoop.induct cookie with
  | case1 current => rfl
  | case2 current owner line => rfl
  | case3 current owner line nextOwner next rest type pair instruction written
      inductionHypothesis =>
      have written' : trapReturn cookie ((headerType line).or current) = some instruction := written
      simp only [List.map_cons, trapLoop, if_pos pair, written']
      exact congrArg _ inductionHypothesis
  | case4 current owner line nextOwner next rest type pair unwritten inductionHypothesis =>
      have unwritten' : trapReturn cookie ((headerType line).or current) = none := unwritten
      simp only [List.map_cons, trapLoop, if_pos pair, unwritten']
      exact congrArg _ inductionHypothesis
  | case5 current owner line nextOwner next rest type noPair inductionHypothesis =>
      simp only [List.map_cons, trapLoop, if_neg noPair]
      exact congrArg _ inductionHypothesis

theorem zeroLoop_map (current : Text) (lines : List (Owner × Text)) :
    zeroLoop current (lines.map fun line => (rename line.1, line.2)) =
      (zeroLoop current lines).map fun emitted => (rename emitted.1, emitted.2) := by
  induction lines generalizing current with
  | nil => rfl
  | cons line lines inductionHypothesis =>
      simp only [List.map_cons, zeroLoop, inductionHypothesis]

end Owners

theorem Module.splitLines_text {m : Module} (filled : m ≠ []) : splitLines m.text = m.lines := by
  apply splitLines_joinLines
  · cases m with
    | nil => exact absurd rfl filled
    | cons item others => cases item <;> simp [Module.lines, Item.lines]
  · exact fun line member => Module.oneLine member

theorem Module.unowned (m : Module) :
    (m.lines.map fun line => ((), line)) = m.owned.map fun line => ((), line.2) := by
  rw [← m.map_owned, List.map_map]
  rfl

/-- What `trap_to_ret` writes for a module, line by line. -/
theorem trapToRet_text (cookie : Int) {m : Module} (filled : m ≠ []) :
    trapToRet cookie m.text =
      joinLines ((trapLoop cookie none m.owned).map fun emitted => emitted.2.line) := by
  rw [trapToRet, Module.splitLines_text filled, Module.unowned,
    trapLoop_map (fun _ : Option Header => ()), List.map_map]
  rfl

/-- What the last loop of `bpf_finalize` writes for a module, line by line. -/
theorem zeroReturns_text {m : Module} (filled : m ≠ []) :
    zeroReturns m.text =
      joinLines ((zeroLoop "void".toList m.owned).map fun emitted => emitted.2.line) := by
  rw [zeroReturns, Module.splitLines_text filled, Module.unowned,
    zeroLoop_map (fun _ : Option Header => ()), List.map_map]
  rfl

/-- What stands in front of the last loop of `bpf_finalize`. -/
def reaching (cookie : Option Int) (text : Text) : Text :=
  internalLinkage (stripNoreturn (tagged cookie text).1)

/-- `bpf_finalize` writes what the loop makes of the module that reaches it, with the
declarations and the nodes that it adds. -/
theorem finalize_reaching {cookie : Option Int} {text : Text} {out : Finalized} {m : Module}
    (ran : finalize cookie text = some out) (reaches : reaching cookie text = m.text)
    (filled : m ≠ []) :
    out.text = emit out.added.nodes (addDeclares (replaced cookie text).2.1
      (joinLines ((zeroLoop "void".toList m.owned).map fun emitted => emitted.2.line))) := by
  rw [finalize] at ran
  split at ran
  · cases ran
  · obtain rfl := Option.some.inj ran
    rw [← zeroReturns_text filled, ← reaches]
    rfl

/-- Every insertion fits exactly if the nearest signature that gives a type gives the
function's own: in front of a trap as far as it could be returned, in front of an
`unreachable` with `void` where none gives one. -/
theorem returnsTyped_iff (cookie : Int) (m : Module) :
    ReturnsTyped cookie m ↔
      ∀ first header body last, m = first ++ .function header body :: last →
        (HasTrap body → ∀ type, nearestType (Module.functions first ++ [header]) = some type →
          type = "void".toList ∨ intRe.fullMatch type = true → type = header.returns.print) ∧
        (HasUnreachable body →
          (nearestType (Module.functions first ++ [header])).getD "void".toList =
            header.returns.print) := by
  constructor
  · rintro ⟨traps, zeros⟩ first header body last places
    constructor
    · intro site type carried rewritable
      obtain ⟨instruction, written⟩ := (@trapReturn_isSome cookie type).mpr rewritable
      have inserted : TrapSite cookie none m.owned (some header) instruction :=
        trapSite_owned.mpr ⟨first, body, last, places, site, by rw [carried, written]⟩
      have fits := traps header _ instruction _ (mem_trapLoop_ret.mpr ⟨inserted, rfl, rfl⟩)
      exact (trapReturn_fits written header.returns).mp fits
    · intro site
      obtain ⟨before, line, rest, split, unreachable, type_⟩ :=
        zeroSite_owned.mpr ⟨first, body, last, places, site, rfl⟩
      obtain ⟨indent, metadata, member⟩ := mem_zeroLoop_ret.mpr
        ⟨before, line, rest, _, split, unreachable, type_, rfl⟩
      have fits := zeros header indent _ metadata member
      exact (zeroReturn_fits header.returns).mp fits
  · intro carried
    constructor
    · intro header indent instruction metadata member
      obtain ⟨site, -, -⟩ := mem_trapLoop_ret.mp member
      obtain ⟨first, body, last, places, trap, written⟩ := trapSite_owned.mp site
      cases type : nearestType (Module.functions first ++ [header]) with
      | none =>
          rw [type] at written
          cases written
      | some word =>
          rw [type] at written
          have rewritable := trapReturn_isSome.mp ⟨instruction, written⟩
          exact (trapReturn_fits written header.returns).mpr
            ((carried first header body last places).1 trap word type rewritable)
    · intro header indent instruction metadata member
      obtain ⟨before, line, rest, type, split, unreachable, type_, rfl⟩ :=
        mem_zeroLoop_ret.mp ⟨indent, metadata, member⟩
      obtain ⟨first, body, last, places, site, found⟩ :=
        zeroSite_owned.mp ⟨before, line, rest, split, unreachable, type_⟩
      rw [← found, (carried first header body last places).2 site]
      exact zeroReturn_print header.returns

/-- `define i64 @prog() {` -/
def bareHeader : Header where
  linkage := .external
  qualifiers := []
  returns := .int 64
  name := "prog".toList
  named := by decide
  parameters := .empty
  attributes := .empty
  sectionName := none
  trailer := .brace

def unreachableLine : InertLine := ⟨"  unreachable".toList, by decide⟩

/-- Without a word in front of the type the line is not read, and an integer
function gets a `ret void`. -/
theorem returnsTyped_unqualified :
    ¬ReturnsTyped 0xC0DED [.function bareHeader [unreachableLine]] := by
  rintro ⟨-, zeros⟩
  have inserted : zeroLoop "void".toList
      (Module.owned [.function bareHeader [unreachableLine]]) =
      [(none, .copied "define i64 @prog() \x7b".toList),
        (some bareHeader, .ret "  ".toList "ret void".toList []),
        (none, .copied "\x7d".toList)] := by
    rfl
  have fits := zeros bareHeader "  ".toList "ret void".toList [] (by rw [inserted]; simp)
  exact absurd fits (by decide)

end LibarenaRs.Linker
