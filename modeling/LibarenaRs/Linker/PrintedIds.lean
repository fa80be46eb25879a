import LibarenaRs.Linker.NodeLines

/-!
# The ids that a text shows

The counter starts behind the greatest id in the text.  The line of a new node shows
its own id and then those that the node mentions.
-/

namespace LibarenaRs.Linker

open LibarenaRs.Regex LibarenaRs.Llvm

/-- The ids that a text shows, in order. -/
def printedIds (text : Text) : List Nat :=
  (idRe.findIter text).map fun m => readNat (m.text.drop 1)

/-! ## Finding an id -/

theorem idRe_reaches {start stop : Cursor} (reached : idRe.Reaches start stop) :
    ∃ digits, start.rest = ('!' :: digits) ++ stop.rest ∧ digits.all Char.isDigit = true ∧
      digits ≠ [] := by
  obtain ⟨_, sign, _, ⟨c, left, here, digit, rfl⟩, loop⟩ := reached
  obtain ⟨signSplit, -⟩ := lit_reaches sign
  obtain ⟨read, split, all⟩ := Pattern.star_chr_reaches loop
  change left = _ at split
  refine ⟨c :: read, ?_, ?_, by simp⟩
  · rw [signSplit, here, split]
    rfl
  · rw [List.all_cons, digit, List.all_eq_true.mpr all]
    rfl

theorem idRe_match {past rest : Text} {m : Match} (found : idRe.matchAt past rest = some m) :
    ∃ digits, m.text = '!' :: digits ∧ digits.all Char.isDigit = true := by
  obtain ⟨stop, reached, whole, -, -⟩ := Pattern.matchAt_eq_some found
  obtain ⟨digits, split, all, -⟩ := idRe_reaches reached
  refine ⟨digits, ?_, all⟩
  apply (List.append_left_inj stop.rest).mp
  exact whole.symm.trans split

theorem idRe_matchAt {past digits rest : Text} (all : digits.all Char.isDigit = true)
    (filled : digits ≠ []) (stops : headIs Char.isDigit rest = false) :
    idRe.matchAt past ('!' :: (digits ++ rest)) = some ⟨'!' :: digits, []⟩ := by
  cases digits with
  | nil => exact absurd rfl filled
  | cons c digits =>
      rw [List.all_cons, Bool.and_eq_true] at all
      have whole : '!' :: (c :: digits ++ rest) = ['!'] ++ (c :: (digits ++ rest)) := rfl
      rw [Pattern.matchAt, idRe, whole, Pattern.run_cat_cons, Pattern.run_lit_append,
        Pattern.run_cat_cons, Pattern.run_plus, Pattern.run_chr_cons, if_pos all.1,
        Pattern.run_star_chr]
      apply Pattern.repeatChr_greedy (List.all_eq_true.mp all.2) stops
      have shorter : rest.length < (['!'] ++ c :: (digits ++ rest)).length := by
        simp only [List.length_append, List.length_cons]
        omega
      have read : (['!'] ++ c :: (digits ++ rest)).take
          ((['!'] ++ c :: (digits ++ rest)).length - rest.length) = '!' :: c :: digits := by
        have split : ['!'] ++ c :: (digits ++ rest) = ('!' :: c :: digits) ++ rest := rfl
        rw [split, List.length_append, Nat.add_sub_cancel, List.take_left]
      rw [Pattern.run_cat_nil, if_pos shorter, read]

theorem idRe_matchAt_none {past text : Text} (noId : ∀ digits rest, text ≠ '!' :: (digits ++ rest) ∨
    digits = [] ∨ ¬digits.all Char.isDigit = true) : idRe.matchAt past text = none := by
  cases found : idRe.matchAt past text with
  | none => rfl
  | some m =>
      obtain ⟨stop, reached, -, -, -⟩ := Pattern.matchAt_eq_some found
      obtain ⟨digits, split, all, filled⟩ := idRe_reaches reached
      rcases noId digits stop.rest with other | empty | noDigit
      · exact absurd split other
      · exact absurd empty filled
      · exact absurd all noDigit

/-- Each id in the text is found. -/
theorem mem_findIter_idRe {before digits rest : Text} (all : digits.all Char.isDigit = true)
    (filled : digits ≠ []) (stops : headIs Char.isDigit rest = false) :
    ∃ m ∈ idRe.findIter (before ++ '!' :: (digits ++ rest)), m.text = '!' :: digits := by
  have general := @Pattern.scan_induction idRe
    (fun past text pieces => ∀ before, text = before ++ '!' :: (digits ++ rest) →
      ∃ m ∈ pieces.filterMap Piece.hit?, m.text = '!' :: digits)
    (by
      intro past before split
      have lengths := congrArg List.length split
      simp at lengths)
    (by
      intro past c text missed inductionHypothesis before split
      cases before with
      | nil =>
          obtain ⟨rfl, rfl⟩ := List.cons.inj split
          rw [idRe_matchAt all filled stops] at missed
          cases missed
      | cons d before =>
          obtain ⟨m, member, text⟩ := inductionHypothesis before (List.cons.inj split).2
          exact ⟨m, by simpa [Piece.hit?] using member, text⟩)
    (by
      intro past m text found inductionHypothesis before split
      obtain ⟨read, shape, numeric⟩ := idRe_match found
      cases before with
      | nil =>
          rw [split, List.nil_append, idRe_matchAt all filled stops] at found
          exact ⟨m, by simp [Piece.hit?], by rw [← Option.some.inj found]⟩
      | cons d before =>
          rw [shape] at split
          obtain ⟨rfl, behind⟩ := List.cons.inj split
          -- the sign is behind the digits of the match
          rcases List.append_eq_append_iff.mp behind with ⟨more, whole, tail⟩ | ⟨more, whole, tail⟩
          · obtain ⟨other, member, same⟩ := inductionHypothesis more tail
            exact ⟨other, by simpa [Piece.hit?] using Or.inr member, same⟩
          · cases more with
            | nil =>
                obtain ⟨other, member, same⟩ := inductionHypothesis [] tail.symm
                exact ⟨other, by simpa [Piece.hit?] using Or.inr member, same⟩
            | cons e more =>
                obtain rfl := (List.cons.inj tail).1
                have digit := List.all_eq_true.mp numeric '!' (by simp [whole])
                cases digit)
  exact general [] _ before rfl

theorem lt_nextId {before digits rest : Text} (all : digits.all Char.isDigit = true)
    (filled : digits ≠ []) (stops : headIs Char.isDigit rest = false) :
    readNat digits < nextId (before ++ '!' :: (digits ++ rest)) := by
  obtain ⟨m, member, text⟩ := @mem_findIter_idRe before digits rest all filled stops
  have value : readNat digits ∈ (idRe.findIter (before ++ '!' :: (digits ++ rest))).map
      fun m => readNat (m.text.drop 1) :=
    List.mem_map.mpr ⟨m, member, by rw [text]; rfl⟩
  exact Nat.lt_succ_of_le (List.le_max?_getD_of_mem value)

theorem infix_of_mem_joinLines {lines : List Text} {line : Text} (member : line ∈ lines) :
    ∃ before after, joinLines lines = before ++ (line ++ after) := by
  induction lines with
  | nil => cases member
  | cons first others inductionHypothesis =>
      rw [Pattern.joinLines_cons]
      rcases List.mem_cons.mp member with rfl | later
      · exact ⟨[], Pattern.tailOf others, rfl⟩
      · obtain ⟨before, after, split⟩ := inductionHypothesis later
        cases others with
        | nil => cases later
        | cons other others =>
            refine ⟨first ++ '\n' :: before, after, ?_⟩
            rw [Pattern.tailOf, split, List.append_assoc]
            · rfl
            · simp

theorem definedIds_lt {text : Text} {id : Nat} (member : id ∈ definedIds text) : id < nextId text := by
  obtain ⟨line, among, defines⟩ := List.mem_filterMap.mp member
  obtain ⟨before, after, split⟩ := infix_of_mem_joinLines among
  rw [joinLines_splitLines] at split
  unfold nodeId at defines
  split at defines
  · rename_i rest
    split at defines
    · rename_i node
      obtain rfl := Option.some.inj defines
      obtain ⟨left, equals⟩ := node.2
      have parts := @List.takeWhile_append_dropWhile _ Char.isDigit rest
      have text_ : text = before ++ '!' :: (rest.takeWhile Char.isDigit ++
          (rest.dropWhile Char.isDigit ++ after)) := by
        rw [split, ← List.append_assoc (rest.takeWhile Char.isDigit), parts]
        rfl
      rw [text_]
      apply lt_nextId List.all_takeWhile node.1
      rw [← equals]
      rfl
    · cases defines
  · cases defines

theorem fileRe_match {past rest : Text} {m : Match} (found : fileRe.matchAt past rest = some m) :
    ∃ digits left, m.group 1 = '!' :: digits ∧ rest = '!' :: (digits ++ ' ' :: left) ∧
      digits.all Char.isDigit = true ∧ digits ≠ [] := by
  obtain ⟨stop, ⟨_, grouped, word⟩, -, -, groups⟩ := Pattern.matchAt_eq_some found
  obtain ⟨wordSplit, wordGroups⟩ := lit_reaches word
  obtain ⟨inner, reached, same, read, split, noted⟩ := Pattern.Reaches.group (by rfl) grouped
  obtain ⟨digits, idSplit, all, filled⟩ := idRe_reaches reached
  have group : m.group 1 = read := by
    rw [Match.group, groups, wordGroups, noted]
    rfl
  change rest = _ at split idSplit
  rw [← same] at idSplit
  have parts : read = '!' :: digits := (List.append_left_inj _).mp (split.symm.trans idSplit)
  exact ⟨digits, "= !DIFile(".toList ++ stop.rest, by rw [group, parts], by
    rw [idSplit, wordSplit]
    rfl, all, filled⟩

/-- The id of the file is below the counter. -/
theorem diFile_spec (text : Text) :
    readNat ((diFile text).drop 1) < nextId text ∧ FileId (diFile text) := by
  unfold diFile
  cases found : fileRe.search text with
  | none => exact ⟨Nat.succ_pos _, ['0'], by decide, by decide, by decide⟩
  | some m =>
      obtain ⟨read, rest, split, matched⟩ := Pattern.matchAt_of_search found
      obtain ⟨digits, left, group, shape, all, filled⟩ := fileRe_match matched
      rw [Option.map_some, Option.getD_some, group]
      refine ⟨?_, digits, rfl, filled, all⟩
      rw [split, shape]
      exact lt_nextId all filled rfl

/-! ## Pieces of a line -/

/-- The ids in a text that stands behind another one. -/
def idsBehind (past text : Text) : List Nat :=
  ((idRe.scan past text 0).filterMap Piece.hit?).map fun m => readNat (m.text.drop 1)

theorem printedIds_eq (text : Text) : printedIds text = idsBehind [] text := rfl

theorem idsBehind_plain {past : Text} {c : Char} {rest : Text}
    (missed : idRe.matchAt past (c :: rest) = none) :
    idsBehind past (c :: rest) = idsBehind (c :: past) rest := by
  simp only [idsBehind, Pattern.scan, missed]
  rfl

/-- A piece of a line that shows no id, whatever stands behind it. -/
def Hides (word : Text) : Prop :=
  ∀ past rest, idsBehind past (word ++ rest) = idsBehind (word.reverse ++ past) rest

/-- A piece of a line that shows these ids, unless a digit follows. -/
def Shows (word : Text) (ids : List Nat) : Prop :=
  ∀ past rest, headIs Char.isDigit rest = false →
    idsBehind past (word ++ rest) = ids ++ idsBehind (word.reverse ++ past) rest

section Pieces

variable {first second : Text} {ids others : List Nat}

theorem Shows.printedIds (shown : Shows first ids) : printedIds first = ids := by
  have alone := shown [] [] rfl
  rw [List.append_nil] at alone
  rw [printedIds_eq, alone]
  exact List.append_nil ids

theorem Hides.shows (hidden : Hides first) : Shows first [] := fun past rest _ => hidden past rest

theorem Hides.append (hidden : Hides first) (onward : Hides second) : Hides (first ++ second) := by
  intro past rest
  rw [List.append_assoc, hidden, onward, List.reverse_append, List.append_assoc]

theorem Hides.append_shows (hidden : Hides first) (onward : Shows second ids) :
    Shows (first ++ second) ids := by
  intro past rest stops
  rw [List.append_assoc, hidden, onward _ rest stops, List.reverse_append, List.append_assoc]

theorem Shows.append (shown : Shows first ids) (onward : Shows second others)
    (noDigit : headIs Char.isDigit second = false) : Shows (first ++ second) (ids ++ others) := by
  intro past rest stops
  have apart : headIs Char.isDigit (second ++ rest) = false := by
    cases second with
    | nil => exact stops
    | cons c second => exact noDigit
  rw [List.append_assoc, shown past _ apart, onward _ rest stops, List.reverse_append,
    List.append_assoc, List.append_assoc]

theorem Shows.append_hides (shown : Shows first ids) (onward : Hides second)
    (noDigit : headIs Char.isDigit second = false) : Shows (first ++ second) ids := by
  have both := shown.append onward.shows noDigit
  rwa [List.append_nil] at both

end Pieces

theorem hides_unsigned {word : Text} (unsigned : '!' ∉ word) : Hides word := by
  intro past rest
  induction word generalizing past with
  | nil => rfl
  | cons c word inductionHypothesis =>
      rw [List.mem_cons, not_or] at unsigned
      have missed : idRe.matchAt past (c :: (word ++ rest)) = none :=
        idRe_matchAt_none fun digits left => Or.inl fun same =>
          unsigned.1 (List.cons.inj same).1.symm
      rw [List.cons_append, idsBehind_plain missed, inductionHypothesis unsigned.2]
      simp

/-- A sign in front of something else than a number. -/
theorem hides_sign {c : Char} {word : Text} (noDigit : c.isDigit = false) (unsigned : '!' ∉ c :: word) :
    Hides ('!' :: c :: word) := by
  intro past rest
  have missed : idRe.matchAt past ('!' :: (c :: word ++ rest)) = none := by
    apply idRe_matchAt_none
    intro digits left
    cases digits with
    | nil => exact Or.inr (Or.inl rfl)
    | cons d digits =>
        by_cases same : '!' :: (c :: word ++ rest) = '!' :: (d :: digits ++ left)
        · obtain rfl := (List.cons.inj (List.cons.inj same).2).1
          right; right
          rw [List.all_cons, noDigit]
          exact Bool.false_ne_true
        · exact Or.inl same
  rw [List.cons_append, idsBehind_plain missed, hides_unsigned unsigned]
  simp

theorem shows_id {digits : Text} (all : digits.all Char.isDigit = true) (filled : digits ≠ []) :
    Shows ('!' :: digits) [readNat digits] := by
  intro past rest stops
  have found := @idRe_matchAt past _ _ all filled stops
  have hit := @Pattern.scan_hit idRe past rest ⟨'!' :: digits, []⟩ (List.cons_ne_nil _ _) found
  rw [idsBehind, hit]
  rfl

theorem shows_printId (id : Nat) : Shows (printId id) [id] := by
  have value : readNat (printNat id) = id := by simp [readNat, printNat]
  have shown := shows_id (isDigit_printNat id) Nat.toDigits_ne_nil
  rwa [value] at shown

theorem FileId.shows {file : Text} (fileId : FileId file) :
    Shows file [readNat (file.drop 1)] ∧ headIs Char.isDigit file = false := by
  obtain ⟨digits, rfl, filled, all⟩ := fileId
  exact ⟨shows_id all filled, rfl⟩

/-- The types of a signature, one behind the other. -/
theorem shows_types (types : List (Option Nat)) :
    Shows (List.intercalate ", ".toList
      (types.map fun type => (type.map printId).getD "null".toList)) (types.filterMap id) := by
  have one : ∀ type : Option Nat, Shows ((type.map printId).getD "null".toList) type.toList := by
    intro type
    cases type with
    | none => exact (hides_unsigned (by decide)).shows
    | some id => exact shows_printId id
  induction types with
  | nil => exact (hides_unsigned (by decide)).shows
  | cons type others inductionHypothesis =>
      cases others with
      | nil =>
          have alone := one type
          rw [List.map_singleton, List.intercalate_singleton]
          cases type <;> exact alone
      | cons next others =>
          rw [List.map_cons, List.map_cons, List.intercalate_cons_cons, List.append_assoc]
          have comma : Hides ", ".toList := hides_unsigned (by decide)
          have whole := (one type).append (comma.append_shows inductionHypothesis) rfl
          cases type <;> exact whole

/-! ## The line of a node -/

/-- A node shows what it mentions. -/
theorem Node.Plain.shows {node : Node} (plain : node.Plain) : Shows node.print node.mentions := by
  cases node with
  | basic name size encoding =>
      have opening : Hides "!DIBasicType(name: \"".toList :=
        @hides_sign 'D' "IBasicType(name: \"".toList (by decide) (by decide)
      have sizeWord : Hides "\", size: ".toList := hides_unsigned (by decide)
      have encodingWord : Hides ", encoding: ".toList := hides_unsigned (by decide)
      have digits : Hides (printNat size) := hides_unsigned fun member =>
        absurd (List.all_eq_true.mp (isDigit_printNat size) _ member) (by decide)
      exact ((((((opening.append (hides_unsigned plain.1.2)).append sizeWord).append digits).append
        encodingWord).append (hides_unsigned plain.2.2)).append (hides_unsigned (by decide))).shows
  | pointer =>
      exact (@hides_sign 'D'
        "IDerivedType(tag: DW_TAG_pointer_type, baseType: null, size: 64)".toList (by decide)
        (by decide)).shows
  | subroutine types =>
      have split : "!DISubroutineType(types: !\x7b".toList =
          ('!' :: 'D' :: "ISubroutineType(types: ".toList) ++ ['!', '\x7b'] := by
        decide
      have opening : Hides "!DISubroutineType(types: !\x7b".toList := by
        rw [split]
        exact (hides_sign (by decide) (by decide)).append (hides_sign (by decide) (by decide))
      exact (opening.append_shows (shows_types types)).append_hides (hides_unsigned (by decide))
        (by decide)
  | subprogram name file type =>
      have opening : Hides "!DISubprogram(name: \"".toList :=
        @hides_sign 'D' "ISubprogram(name: \"".toList (by decide) (by decide)
      have scopeWord : Hides "\", scope: ".toList := hides_unsigned (by decide)
      have fileWord : Hides ", file: ".toList := hides_unsigned (by decide)
      have typeWord : Hides ", type: ".toList := hides_unsigned (by decide)
      have closing : Hides ", flags: DIFlagPrototyped, spFlags: DISPFlagOptimized)".toList :=
        hides_unsigned (by decide)
      obtain ⟨shown, noDigit⟩ := plain.2.shows
      have scope := ((opening.append (hides_unsigned plain.1.2)).append scopeWord).append_shows shown
      have files := (scope.append_hides fileWord (by decide)).append shown noDigit
      exact ((files.append_hides typeWord (by decide)).append (shows_printId type) rfl).append_hides
        closing (by decide)

theorem printedIds_nodeLine {node : Nat × Node} (plain : node.2.Plain) :
    printedIds (nodeLine node) = node.1 :: node.2.mentions := by
  have sign : headIs Char.isDigit node.2.print = false := by
    cases node.2 with
    | basic | pointer | subroutine | subprogram => rfl
  have equals : Hides " = ".toList := hides_unsigned (by decide)
  exact (((shows_printId node.1).append_hides equals (by decide)).append plain.shows sign).printedIds

end LibarenaRs.Linker
