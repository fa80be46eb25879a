import LibarenaRs.Regex.Words
import LibarenaRs.Linker.Metadata

/-!
# No unreachable ends

Whatever the text of the module, no line of what `bpf_finalize` writes is an
`unreachable` any more: not in the bodies, where the last loop looks, and not in what
is written behind it.
-/

namespace LibarenaRs.Linker

open LibarenaRs.Regex LibarenaRs.Llvm

/-- A line with an indented `unreachable`. -/
def EndsUnreachable (line : Text) : Prop :=
  ∃ indent rest, indent ≠ [] ∧ (∀ c ∈ indent, isSpace c = true) ∧
    line = indent ++ ("unreachable".toList ++ rest) ∧ headIs isWord rest = false

theorem dropWhile_of_endsUnreachable {line : Text} (ends : EndsUnreachable line) :
    ∃ rest, line.dropWhile isSpace = 'u' :: rest := by
  obtain ⟨indent, rest, -, white, rfl, -⟩ := ends
  have word : "unreachable".toList = 'u' :: "nreachable".toList := by decide
  refine ⟨"nreachable".toList ++ rest, ?_⟩
  rw [List.dropWhile_append_of_pos white, word]
  exact List.dropWhile_cons_of_neg (by decide)

theorem not_endsUnreachable {c : Char} (black : isSpace c = false) (other : c ≠ 'u') (rest : Text) :
    ¬EndsUnreachable (c :: rest) := by
  intro ends
  obtain ⟨left, same⟩ := dropWhile_of_endsUnreachable ends
  rw [List.dropWhile_cons_of_neg (by simp [black])] at same
  exact other (List.cons.inj same).1

theorem EndsUnreachable.append {line blanks : Text} (ends : EndsUnreachable line)
    (white : ∀ c ∈ blanks, isSpace c = true) : EndsUnreachable (line ++ blanks) := by
  obtain ⟨indent, rest, filled, spaces, rfl, stops⟩ := ends
  refine ⟨indent, rest ++ blanks, filled, spaces, by simp only [List.append_assoc], ?_⟩
  cases rest with
  | cons c rest => exact stops
  | nil =>
      cases blanks with
      | nil => rfl
      | cons c blanks =>
          have space := white c List.mem_cons_self
          change isWord c = false
          cases word : isWord c with
          | false => rfl
          | true =>
              rw [isWord_of_isSpace space] at word
              cases word

/-- The loop of `bpf_finalize` sees every such line. -/
theorem unreachableRe_finds {line : Text} (oneLine : '\n' ∉ line) (ends : EndsUnreachable line) :
    (unreachableRe.matchStart line).isSome = true := by
  obtain ⟨indent, rest, filled, white, rfl, stops⟩ := ends
  have restLine : '\n' ∉ rest := fun member => oneLine (by simp [member])
  cases indent with
  | nil => exact absurd rfl filled
  | cons c indent =>
      have spaces : (Pattern.plus true (.chr isSpace)).Words (c :: indent) := by
        refine ⟨[c], indent, ⟨c, white c List.mem_cons_self, rfl⟩, ?_, rfl⟩
        exact Pattern.words_star_chr.mpr fun d member => white d (List.mem_cons_of_mem _ member)
      have more : (Pattern.star true (.chr fun c => c != '\n')).Words rest := by
        apply Pattern.words_star_chr.mpr
        intro d member
        have different : d ≠ '\n' := fun same => restLine (same ▸ member)
        simpa using different
      have word : "unreachable".toList.reverse = 'e' :: "lbahcaernu".toList := by decide
      have boundary : (headIs isWord ("unreachable".toList.reverse ++ (c :: indent).reverse) !=
          headIs isWord rest) = true := by
        rw [word, stops]
        rfl
      refine @Pattern.isSome_matchAt _ _ _ ⟨rest.reverse ++ ("unreachable".toList.reverse ++
        ((c :: indent).reverse ++ [])), [], [(2, rest), (1, c :: indent)]⟩ ?_ ?_
      · refine ⟨_, ⟨rfl, rfl⟩, _, (Pattern.group_reaches_iff rfl).mpr
          ⟨c :: indent, "unreachable".toList ++ rest, spaces, rfl, rfl⟩, _, ⟨rest, rfl, rfl⟩, _,
          ⟨?_, rfl⟩, _, (Pattern.group_reaches_iff rfl).mpr
            ⟨rest, [], more, (List.append_nil rest).symm, rfl⟩, rfl, rfl⟩
        rw [List.append_nil]
        exact boundary
      · simp

/-! ## The lines of the output -/

open Classical in
/-- A mark for each such line. -/
noncomputable def unreachableMarks (line : Text) : List Unit :=
  if EndsUnreachable line then [()] else []

theorem unreachableMarks_eq_nil {line : Text} :
    unreachableMarks line = [] ↔ ¬EndsUnreachable line := by
  rw [unreachableMarks]
  split <;> simp_all

/-- Nothing of the text is marked. -/
def Reachable (text : Text) : Prop := readFrom unreachableMarks [] text = []

theorem reachable_iff {text : Text} :
    Reachable text ↔ ∀ line ∈ splitLines text, ¬EndsUnreachable line := by
  rw [Reachable, readFrom_nil, List.flatMap_eq_nil_iff]
  exact forall₂_congr fun line member => unreachableMarks_eq_nil

theorem reachable_joinLines {lines : List Text} (filled : lines ≠ [])
    (oneLine : ∀ line ∈ lines, '\n' ∉ line) (reached : ∀ line ∈ lines, ¬EndsUnreachable line) :
    Reachable (joinLines lines) := by
  rw [reachable_iff, splitLines_joinLines filled oneLine]
  exact reached

theorem zeroLine_reachable {type line : Text} (oneLine : '\n' ∉ line) :
    ¬EndsUnreachable (zeroLine type line).line := by
  intro ends
  unfold zeroLine at ends
  cases found : unreachableRe.matchStart line with
  | none =>
      rw [found] at ends
      have seen := unreachableRe_finds oneLine ends
      rw [found] at seen
      cases seen
  | some m =>
      rw [found] at ends
      obtain ⟨stop, ⟨_, ⟨-, rfl⟩, _, indent, _, ⟨_, -, rfl⟩, _, ⟨-, rfl⟩, _, tail, -, rfl⟩, -, -,
        groups⟩ := Pattern.matchAt_eq_some found
      obtain ⟨spaces, _, isIndent, -, rfl⟩ := (Pattern.group_reaches_iff rfl).mp indent
      obtain ⟨more, _, -, -, rfl⟩ := (Pattern.group_reaches_iff rfl).mp tail
      have group : m.group 1 = spaces := by
        rw [Match.group, groups]
        rfl
      have white : ∀ c ∈ spaces, isSpace c = true := by
        obtain ⟨_, others, ⟨c, first, rfl⟩, loop, rfl⟩ := isIndent
        intro d member
        rcases List.mem_append.mp member with here | later
        · rwa [List.mem_singleton.mp here]
        · exact Pattern.words_star_chr.mp loop d later
      obtain ⟨rest, same⟩ := dropWhile_of_endsUnreachable ends
      obtain ⟨left, starts⟩ : ∃ left, zeroReturn type = 'r' :: left := by
        have bare : "ret void".toList = 'r' :: "et void".toList := by decide
        have word : "ret ".toList = 'r' :: "et ".toList := by decide
        unfold zeroReturn
        rw [bare, word]
        split
        · exact ⟨_, rfl⟩
        · split
          · exact ⟨_, rfl⟩
          · split <;> exact ⟨_, rfl⟩
      rw [Emitted.line, group, List.append_assoc, List.dropWhile_append_of_pos white, starts,
        List.cons_append, List.dropWhile_cons_of_neg (by decide)] at same
      exact absurd (List.cons.inj same).1 (by decide)

theorem zeroLoop_reachable (type : Text) {lines : List (Unit × Text)}
    (oneLine : ∀ line ∈ lines, '\n' ∉ line.2) :
    ∀ line ∈ (zeroLoop type lines).map fun emitted => emitted.2.line, ¬EndsUnreachable line := by
  induction lines generalizing type with
  | nil => exact fun line member => absurd member List.not_mem_nil
  | cons line lines inductionHypothesis =>
      obtain ⟨owner, line⟩ := line
      intro other member
      rw [zeroLoop, List.map_cons] at member
      rcases List.mem_cons.mp member with rfl | later
      · exact zeroLine_reachable (oneLine (owner, line) List.mem_cons_self)
      · exact inductionHypothesis _ (fun line inside => oneLine line (List.mem_cons_of_mem _ inside))
          other later

theorem reachable_zeroReturns (text : Text) : Reachable (zeroReturns text) := by
  have oneLine : ∀ line ∈ (splitLines text).map fun line => ((), line), '\n' ∉ line.2 := by
    intro line member
    obtain ⟨inner, among, rfl⟩ := List.mem_map.mp member
    exact oneLine_of_mem_splitLines among
  obtain ⟨clean, -⟩ := @zeroLoop_spec _ _ reads_lineIds.blank "void".toList (by decide) _ oneLine
  apply reachable_joinLines _ clean (zeroLoop_reachable "void".toList oneLine)
  cases shape : splitLines text with
  | nil => exact absurd shape (splitLines_ne_nil text)
  | cons line others => simp [zeroLoop]

/-! ## What is written behind the loop -/

theorem unreachableMarks_nil : unreachableMarks [] = [] := by
  rw [unreachableMarks_eq_nil]
  intro ends
  obtain ⟨left, same⟩ := dropWhile_of_endsUnreachable ends
  cases same

theorem Reachable.addDeclares {extra : List Text} {text : Text}
    (added : ∀ line ∈ extra, '\n' ∉ line ∧ ¬EndsUnreachable line) (reached : Reachable text) :
    Reachable (addDeclares extra text) := by
  have silent : ∀ line ∈ extra, unreachableMarks line ⊆ [] := by
    intro line member
    rw [unreachableMarks_eq_nil.mpr (added line member).2]
    exact List.Subset.refl _
  have same := readFrom_addDeclares (fun line member => (added line member).1) unreachableMarks_nil
    silent text
  simp only [List.not_mem_nil, not_false_eq_true, decide_true, List.filter_true] at same
  exact same.trans reached

/-- White space at the end hides no line. -/
theorem unreachableMarks_append {blanks : Text} (white : ∀ c ∈ blanks, isSpace c = true)
    (text line : Text) : (readFrom unreachableMarks line text).Sublist
      (readFrom unreachableMarks line (text ++ blanks)) := by
  have grows : ∀ line blanks : Text, (∀ c ∈ blanks, isSpace c = true) →
      (unreachableMarks line).Sublist (unreachableMarks (line ++ blanks)) := by
    intro line blanks white
    by_cases ends : EndsUnreachable line
    · rw [unreachableMarks, if_pos ends, unreachableMarks, if_pos (ends.append white)]
    · rw [unreachableMarks_eq_nil.mpr ends]
      exact List.nil_sublist _
  have atEnd : ∀ blanks : Text, (∀ c ∈ blanks, isSpace c = true) → ∀ line,
      (unreachableMarks line).Sublist (readFrom unreachableMarks line blanks) := by
    intro blanks white
    induction blanks with
    | nil => exact fun line => List.Sublist.refl _
    | cons c blanks inductionHypothesis =>
        intro line
        have later := inductionHypothesis fun d member => white d (List.mem_cons_of_mem _ member)
        by_cases newline : c = '\n'
        · rw [readFrom, if_pos newline]
          exact List.sublist_append_left _ _
        · rw [readFrom, if_neg newline]
          refine (grows line [c] ?_).trans (later _)
          intro d member
          rw [List.mem_singleton.mp member]
          exact white c List.mem_cons_self
  induction text generalizing line with
  | nil => exact atEnd blanks white line
  | cons c text inductionHypothesis =>
      by_cases newline : c = '\n'
      · rw [List.cons_append, readFrom, readFrom, if_pos newline, if_pos newline]
        exact (inductionHypothesis []).append_left _
      · rw [List.cons_append, readFrom, readFrom, if_neg newline, if_neg newline]
        exact inductionHypothesis _

theorem Reachable.rstrip {text : Text} (reached : Reachable text) : Reachable (rstrip text) := by
  obtain ⟨blanks, split, white⟩ := rstrip_append text
  have less := unreachableMarks_append white (Linker.rstrip text) []
  rw [← split, show readFrom unreachableMarks [] text = [] from reached] at less
  exact List.sublist_nil.mp less

theorem Reachable.emit {nodes : List (Nat × Node)} {text : Text}
    (plain : ∀ node ∈ nodes, node.2.Plain) (reached : Reachable text) :
    Reachable (emit nodes text) := by
  by_cases empty : nodes = []
  · rwa [Linker.emit, if_pos empty]
  · have printed : Reachable (joinLines (nodes.map nodeLine)) := by
      apply reachable_joinLines (by simpa using empty)
      · intro line member
        obtain ⟨node, among, rfl⟩ := List.mem_map.mp member
        exact nodeLine_oneLine (plain node among)
      · intro line member
        obtain ⟨node, among, rfl⟩ := List.mem_map.mp member
        unfold nodeLine printId
        exact not_endsUnreachable (by decide) (by decide) _
    rw [Reachable, emit_eq empty, readFrom_append_newline, readFrom_append_newline,
      show readFrom unreachableMarks [] (Linker.rstrip text) = [] from reached.rstrip,
      show readFrom unreachableMarks [] (joinLines (nodes.map nodeLine)) = [] from printed]
    exact unreachableMarks_nil

theorem Reachable.of_finalize {cookie : Option Int} {text : Text} {out : Finalized}
    (finished : finalize cookie text = some out) : Reachable out.text := by
  rw [(finalize_eq_some finished).1]
  apply Reachable.emit (allocated_finalize finished).1.plain
  apply Reachable.addDeclares _ (reachable_zeroReturns _)
  intro line member
  refine ⟨replaced_oneLine cookie text line member, ?_⟩
  obtain ⟨id, -, rfl⟩ := throwTraps_extra line member
  have word : tagStart = 'd' :: "eclare !dbg ".toList := by decide
  rw [throwDeclaration_eq, tagOf, word]
  exact not_endsUnreachable (by decide) (by decide) _

/-- Whatever the module and the trap mode, no line of the output is an `unreachable`. -/
theorem finalize_reachable (cookie : Option Int) (text : Text) :
    ∀ out ∈ finalize cookie text, ∀ line ∈ splitLines out.text, ¬EndsUnreachable line := by
  intro out finished
  exact reachable_iff.mp (.of_finalize finished)

/-- `define i32 @f() {`, an `unreachable`, `}` -/
def deadEnd : Text := "define noundef i32 @f() \x7b\n  unreachable\n\x7d\n".toList

theorem finalize_reachable_deadEnd : ∃ out, finalize none deadEnd = some out ∧
    ∀ line ∈ splitLines out.text, ¬EndsUnreachable line := by
  have some_ : (finalize none deadEnd).isSome = true := by decide +kernel
  have finished := (Option.some_get some_).symm
  exact ⟨_, finished, finalize_reachable none deadEnd _ finished⟩

end LibarenaRs.Linker
