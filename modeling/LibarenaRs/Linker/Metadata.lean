import LibarenaRs.Linker.DeclLines
import LibarenaRs.Linker.PrintedIds
import Mathlib.Data.List.Perm.Subperm

/-!
# The metadata of the output is fresh and closed

With what each stage keeps of the nodes and of the declarations, the ids of the whole
output are known: what the calls leave, the tags, and the lines of the new nodes.
-/

namespace LibarenaRs.Linker

open LibarenaRs.Regex LibarenaRs.Llvm

/-! ## The lines of nodes -/

theorem lineIds_of_ne {c : Char} (different : c ≠ '!') (line : Text) : lineIds (c :: line) = [] := by
  have none_ : nodeId (c :: line) = none := by
    unfold nodeId
    split
    · rename_i same
      exact absurd (List.cons.inj same).1 different
    · rfl
  rw [lineIds, none_]
  rfl

/-- Behind a number the equals sign of a node stays or is missing. -/
theorem equals_withoutNoreturn {past text : Text} (word : headIs isWord past = true)
    (open_ : ¬" n".toList <+: text) :
    " =".toList <+: withoutNoreturn past text ↔ " =".toList <+: text := by
  cases text with
  | nil => exact Iff.rfl
  | cons c rest =>
      rw [withoutNoreturn_behindWord word]
      change ' ' :: ['='] <+: c :: withoutNoreturn (c :: past) rest ↔ ' ' :: ['='] <+: c :: rest
      rw [List.cons_prefix_cons, List.cons_prefix_cons]
      refine and_congr_right fun blank => ?_
      cases rest with
      | nil => exact Iff.rfl
      | cons d rest =>
          have other : d ≠ 'n' := by
            rintro rfl
            exact open_ ⟨rest, by rw [← blank]; rfl⟩
          rw [withoutNoreturn_keeps other, List.cons_prefix_cons, List.cons_prefix_cons]
          simp

theorem behind_digits {text : Text} (filled : text.takeWhile Char.isDigit ≠ []) :
    headIs isWord ((text.takeWhile Char.isDigit).reverse ++ ['!']) = true := by
  cases shape : (text.takeWhile Char.isDigit).reverse with
  | nil => exact absurd (List.reverse_eq_nil_iff.mp shape) filled
  | cons c more =>
      apply isWord_of_isDigit
      have all := @List.all_takeWhile _ Char.isDigit text
      apply List.all_eq_true.mp all
      rw [← List.mem_reverse, shape]
      exact List.mem_cons_self

/-- A line in which no node is hidden defines what it did. -/
theorem lineIds_withoutNoreturn {line : Text} (noHidden : .hidden ∉ stemMarks line) :
    lineIds (withoutNoreturn [] line) = lineIds line := by
  cases line with
  | nil => rfl
  | cons c rest =>
      rcases withoutNoreturn_cases [] c rest with kept | ⟨-, left, split, behind, gone⟩
      · by_cases sign : c = '!'
        · -- the sign and the digits stay; behind them the word cannot start
          subst sign
          obtain ⟨newDigits, newRest⟩ := digits_withoutNoreturn ['!'] rest
          have same : rest.takeWhile Char.isDigit ≠ [] →
              (" =".toList <+: withoutNoreturn ((rest.takeWhile Char.isDigit).reverse ++ ['!'])
                (rest.dropWhile Char.isDigit) ↔ " =".toList <+: rest.dropWhile Char.isDigit) :=
            fun filled => equals_withoutNoreturn (behind_digits filled) fun hides => by
              apply noHidden
              have noEquals : ¬" =".toList <+: rest.dropWhile Char.isDigit := by
                rintro ⟨others, same⟩
                obtain ⟨more, whole⟩ := hides
                rw [← same] at whole
                exact absurd (List.cons.inj (List.cons.inj whole).2).1 (by decide)
              rw [stemMarks, nodeMarks, if_neg filled, if_neg noEquals, if_pos hides]
              exact List.mem_append_right _ List.mem_cons_self
          rw [kept]
          simp only [lineIds, nodeId, newDigits, newRest]
          by_cases filled : rest.takeWhile Char.isDigit = []
          · simp [filled]
          · simp only [same filled]
        · rw [kept, lineIds_of_ne sign, lineIds_of_ne sign]
      · rw [gone, (List.cons.inj split).1, lineIds_of_ne (by decide)]
        cases left with
        | nil => rfl
        | cons d left =>
            have noWord : isWord d = false := behind
            have other : d ≠ 'n' := by
              rintro rfl
              cases noWord
            rw [withoutNoreturn_keeps other]
            apply lineIds_of_ne
            rintro rfl
            apply noHidden
            have hidden : "noreturn!".toList <+: c :: rest := ⟨left, by rw [split]; rfl⟩
            rw [stemMarks, if_pos hidden]
            exact List.mem_cons_self

/-- White space at the end defines nothing. -/
theorem trims_lineIds : Trims lineIds := by
  intro line blanks white
  cases line with
  | nil =>
      cases blanks with
      | nil => rfl
      | cons c rest =>
          have sign : c ≠ '!' := by
            rintro rfl
            exact absurd (white '!' List.mem_cons_self) (by decide)
          exact lineIds_of_ne sign rest
  | cons c line =>
      by_cases sign : c = '!'
      · subst sign
        have stops := noDigit_of_blanks white
        have equals := @prefix_append_blanks " =".toList _ '=' rfl (by decide) white
        rw [List.cons_append, lineIds, lineIds, nodeId, nodeId, takeWhile_append_stops stops,
          dropWhile_append_stops stops]
        simp only [equals]
      · rw [List.cons_append, lineIds_of_ne sign, lineIds_of_ne sign]

theorem lineIds_nodeLine (node : Nat × Node) : lineIds (nodeLine node) = [node.1] := by
  have line : nodeLine node = '!' :: (printNat node.1 ++ ' ' :: ("= ".toList ++ node.2.print)) := by
    unfold nodeLine printId
    simp only [List.append_assoc, List.cons_append]
    rfl
  have digits : (printNat node.1 ++ ' ' :: ("= ".toList ++ node.2.print)).takeWhile Char.isDigit =
      printNat node.1 := takeWhile_stop (isDigit_printNat node.1) rfl
  have rest : (printNat node.1 ++ ' ' :: ("= ".toList ++ node.2.print)).dropWhile Char.isDigit =
      ' ' :: ("= ".toList ++ node.2.print) := dropWhile_stop (isDigit_printNat node.1) rfl
  have value : readNat (printNat node.1) = node.1 := by simp [readNat, printNat]
  have filled : printNat node.1 ≠ [] := Nat.toDigits_ne_nil
  rw [line, lineIds, nodeId, digits, rest, if_pos ⟨filled, ⟨_, rfl⟩⟩, value]
  rfl

theorem lineAttached_nodeLine (node : Nat × Node) : lineAttached (nodeLine node) = [] := by
  apply lineAttached_other
  rintro ⟨more, same⟩
  exact absurd (List.cons.inj same).1 (by decide)

theorem oneLine_attrRef (text : Text) : '\n' ∉ attrRef text := by
  unfold attrRef
  cases found : sharedGroupRe.search text with
  | none => simp
  | some m =>
      obtain ⟨read, rest, -, matched⟩ := Pattern.matchAt_of_search found
      obtain ⟨stop, ⟨_, ⟨-, rfl⟩, _, -, _, -, _, -, _, -, _, grouped, _, blanks, word⟩, -, -, groups⟩ :=
        Pattern.matchAt_eq_some matched
      obtain ⟨digits, -, noted, clean⟩ :=
        @Pattern.Reaches.group_avoids _ _ '\n' (by rfl) (by decide) _ _ grouped
      obtain ⟨-, wordGroups⟩ := lit_reaches word
      have group : m.group 1 = digits := by
        rw [Match.group, groups, wordGroups, blanks.groups (by rfl), noted]
        rfl
      simp only [List.mem_append, not_or, group]
      exact ⟨by decide, clean⟩

theorem throwDeclaration_eq (id : Nat) (attributes : Text) :
    throwDeclaration id attributes =
      tagOf id ++ ' ' :: ("void @bpf_throw(i64)".toList ++ attributes ++ " section \".ksyms\"".toList) := by
  unfold throwDeclaration
  simp only [List.append_assoc]
  rfl

theorem throwDeclaration_oneLine {attributes : Text} (clean : '\n' ∉ attributes) (id : Nat) :
    '\n' ∉ throwDeclaration id attributes := by
  rw [throwDeclaration_eq]
  simp only [List.mem_append, List.mem_cons, not_or]
  exact ⟨tagOf_oneLine id, by decide, ⟨by decide, clean⟩, by decide⟩

/-- The declaration that is added carries a new id. -/
theorem throwTraps_extra {cookie : Option Int} {file attributes text : Text} {added : Added} :
    ∀ line ∈ (throwTraps cookie file attributes text added).2.1,
      ∃ id ∈ (throwTraps cookie file attributes text added).2.2.attached,
        line = throwDeclaration id attributes := by
  cases cookie with
  | none => exact fun line member => absurd member List.not_mem_nil
  | some cookie =>
      by_cases traps : (plainTrapRe.search text).isSome = true
      · rw [throwTraps_some traps]
        split
        · exact fun line member => absurd member List.not_mem_nil
        · intro line member
          refine ⟨_, ?_, List.mem_singleton.mp member⟩
          rw [attach_eq]
          exact List.mem_append_right _ (List.mem_singleton_self _)
      · have same : throwTraps (some cookie) file attributes text added = (text, [], added) :=
          if_neg traps
        rw [same]
        exact fun line member => absurd member List.not_mem_nil

theorem replaced_oneLine (cookie : Option Int) (text : Text) :
    ∀ line ∈ (replaced cookie text).2.1, '\n' ∉ line := by
  intro line member
  obtain ⟨id, -, rfl⟩ := throwTraps_extra line member
  exact throwDeclaration_oneLine (oneLine_attrRef text) id

/-! ## The whole pass -/

theorem allocated_tagDeclares {file text : Text} {start : Nat} {added : Added}
    (fileId : FileId file) (allocated : Allocated file start added) (described : Described added) :
    Allocated file start (tagDeclares file text added).2 ∧
      Described (tagDeclares file text added).2 := by
  apply @renderState_keeps _ (tagDeclare file) fun added =>
    Allocated file start added ∧ Described added
  · rintro m member state ⟨holds, known⟩
    obtain ⟨read, rest, -, found⟩ := Pattern.matchAt_of_mem_scan member
    obtain ⟨-, ⟨parts⟩⟩ := declRe_match found
    by_cases kept : untagged (m.group 3) m.text = true
    · rw [tagDeclare_untagged kept]
      exact ⟨holds, known⟩
    · rw [tagDeclare_tagged kept]
      exact holds.attach fileId parts.symbol _ _
  · exact ⟨allocated, described⟩

/-- The nodes that the pass makes. -/
theorem allocated_finalize {cookie : Option Int} {text : Text} {out : Finalized}
    (finished : finalize cookie text = some out) :
    Allocated (diFile text) (nextId text) out.added ∧ Described out.added := by
  unfold finalize at finished
  split at finished
  · cases finished
  · obtain rfl := Option.some.inj finished
    have fileId := (diFile_spec text).2
    obtain ⟨thrown, described⟩ := (@allocated_init (diFile text) (nextId text)).throwTraps
      (fun filled => absurd rfl filled) fileId cookie (attrRef text) (lateCalls text)
    exact allocated_tagDeclares fileId thrown described

theorem stray_of_mark {line : Text} {mark : Mark} (member : mark ∈ lineMarks line)
    (other : mark.id? = none) : Stray line := by
  rcases List.mem_append.mp member with bare | member
  · split at bare
    · rename_i same
      exact Or.inl same
    · cases bare
  · rcases List.mem_append.mp member with hidden | node
    · split at hidden
      · rename_i starts
        exact Or.inr (Or.inl starts)
      · cases hidden
    · unfold nodeMarks at node
      split at node
      · rename_i rest _
        split at node
        · cases node
        · rename_i filled
          split at node
          · rw [List.mem_singleton.mp node] at other
            cases other
          · split at node
            · rename_i hides
              obtain ⟨left, shape⟩ := hides
              refine Or.inr (Or.inr (Or.inl ⟨rest.takeWhile Char.isDigit, left, ?_, filled,
                List.all_takeWhile⟩))
              rw [shape, List.takeWhile_append_dropWhile]
            · cases node
      · cases node

theorem stray_of_veil {line : Text} (veiled : veilMarks line ≠ []) : Stray line := by
  rw [veilMarks] at veiled
  split at veiled
  · rename_i starts
    exact Or.inr (Or.inr (Or.inr starts))
  · exact absurd rfl veiled

theorem stray_iff (line : Text) :
    Stray line ↔ (∃ mark ∈ lineMarks line, mark.id? = none) ∨ veilMarks line ≠ [] := by
  constructor
  · rintro (rfl | starts | ⟨digits, rest, rfl, filled, all⟩ | veil)
    · exact Or.inl ⟨.bare, List.mem_cons_self, rfl⟩
    · refine Or.inl ⟨.hidden, ?_, rfl⟩
      rw [lineMarks, stemMarks, if_pos starts]
      exact List.mem_append_right _ List.mem_cons_self
    · refine Or.inl ⟨.hidden, ?_, rfl⟩
      have read : (digits ++ (" n".toList ++ rest)).takeWhile Char.isDigit = digits :=
        takeWhile_stop all rfl
      have left : (digits ++ (" n".toList ++ rest)).dropWhile Char.isDigit = " n".toList ++ rest :=
        dropWhile_stop all rfl
      have noEquals : ¬" =".toList <+: " n".toList ++ rest := by
        rintro ⟨more, same⟩
        exact absurd (List.cons.inj (List.cons.inj same).2).1 (by decide)
      rw [lineMarks, stemMarks, nodeMarks, read, left, if_neg filled, if_neg noEquals,
        if_pos (List.prefix_append _ _)]
      exact List.mem_append_right _ (List.mem_append_right _ List.mem_cons_self)
    · right
      rw [veilMarks, if_pos veil]
      exact List.cons_ne_nil _ _
  · rintro (⟨mark, member, other⟩ | veiled)
    · exact stray_of_mark member other
    · exact stray_of_veil veiled

instance (line : Text) : Decidable (Stray line) := decidable_of_iff _ (stray_iff line).symm

section Whole

variable {cookie : Option Int} {text : Text} {out : Finalized}

/-- The output in front of the new nodes. -/
def beforeNodes (cookie : Option Int) (text : Text) : Text :=
  addDeclares (replaced cookie text).2.1 (returned cookie text)

theorem finalize_eq_some (finished : finalize cookie text = some out) :
    out.text = emit out.added.nodes (beforeNodes cookie text) ∧ out.added = (tagged cookie text).2 := by
  unfold finalize at finished
  split at finished
  · cases finished
  · obtain rfl := Option.some.inj finished
    exact ⟨rfl, rfl⟩

/-- A line of metadata, without the white space at its end. -/
def metadataLine (line : Text) : List Text :=
  if headIs (· == '!') line then [rstrip line] else []

def metadataLines (text : Text) : List Text := (splitLines text).flatMap metadataLine

theorem metadataLine_blank (c : Char) (line : Text) (white : isSpace c = true) :
    metadataLine (c :: line) = [] := by
  apply if_neg
  intro sign
  obtain rfl : c = '!' := by simpa [headIs] using sign
  cases white

theorem trims_metadataLine : Trims metadataLine := by
  intro line blanks white
  cases line with
  | nil =>
      cases blanks with
      | nil => rfl
      | cons c rest => exact metadataLine_blank c rest (white c List.mem_cons_self)
  | cons c line =>
      have stripped := @rstrip_blanks (c :: line) _ white
      rw [List.cons_append] at stripped ⊢
      rw [metadataLine, metadataLine, stripped]
      rfl

/-- Behind the loop over the internal functions no line of metadata changes, and only
those of the new nodes come in. -/
theorem metadataLines_finalize (finished : finalize cookie text = some out) :
    metadataLines out.text =
      metadataLines (internalLinkage (stripNoreturn (tagged cookie text).1)) ++
        out.added.nodes.map fun node => rstrip (nodeLine node) := by
  have plain := (allocated_finalize finished).1.plain
  have silent : ∀ line ∈ (replaced cookie text).2.1, metadataLine line ⊆ [] := by
    intro line member
    obtain ⟨id, -, rfl⟩ := throwTraps_extra line member
    exact List.Subset.refl _
  have extra := readFrom_addDeclares (replaced_oneLine cookie text) rfl silent
    (returned cookie text)
  simp only [List.not_mem_nil, not_false_eq_true, decide_true, List.filter_true] at extra
  have lines : ∀ text, metadataLines text = readFrom metadataLine [] text :=
    fun text => (readFrom_nil text).symm
  have new : (out.added.nodes.flatMap fun node => metadataLine (nodeLine node)) =
      out.added.nodes.map fun node => rstrip (nodeLine node) := List.flatMap_pure_eq_map _ _
  rw [lines, lines, (finalize_eq_some finished).1, readFrom_emit trims_metadataLine rfl plain, new,
    beforeNodes, extra, returned, readFrom_zeroReturns metadataLine_blank]

/-- In front of the new nodes stand those that the calls leave. -/
theorem definedIds_beforeNodes (cookie : Option Int) (regular : ∀ line ∈ splitLines text, ¬Stray line) :
    readFrom lineIds [] (beforeNodes cookie text) =
      readFrom lineIds [] (memcpyRe.sub (glueCall "bpf_arena_memcpy".toList) text) := by
  have noMark : ∀ mark : Mark, mark.id? = none → mark ∉ readFrom lineMarks [] text := by
    intro mark other member
    rw [readFrom_nil] at member
    obtain ⟨line, among, inLine⟩ := List.mem_flatMap.mp member
    exact regular line among (stray_of_mark inLine other)
  have thrown : readFrom lineMarks [] (replaced cookie text).1 = readFrom lineMarks [] (lateCalls text) :=
    readFrom_throwTraps reads_lineMarks _ _ _ _ _
  have thrownIds : readFrom lineIds [] (replaced cookie text).1 = readFrom lineIds [] (lateCalls text) :=
    readFrom_throwTraps reads_lineIds _ _ _ _ _
  have called := (readFrom_memcpyRe reads_lineMarks text).1
  rw [← readFrom_lateCalls reads_lineMarks, ← thrown] at called
  have kept : readFrom stemMarks [] (tagged cookie text).1 =
      readFrom stemMarks [] (replaced cookie text).1 := by
    rw [tagged, stemMarks_tagDeclares,
      readFrom_dropDefined fun member => noMark .bare rfl (called.subset member)]
  have noHidden : ∀ line ∈ splitLines (tagged cookie text).1, .hidden ∉ stemMarks line := by
    intro line among hidden
    have member : Mark.hidden ∈ readFrom stemMarks [] (tagged cookie text).1 := by
      rw [readFrom_nil]
      exact List.mem_flatMap.mpr ⟨line, among, hidden⟩
    rw [kept, readFrom_filterMap stemMarks_eq] at member
    obtain ⟨mark, among, chosen⟩ := List.mem_filterMap.mp member
    split at chosen
    · cases chosen
    · obtain rfl := Option.some.inj chosen
      exact noMark .hidden rfl (called.subset among)
  have silent : ∀ line ∈ (replaced cookie text).2.1, lineIds line ⊆ [] := by
    intro line member
    obtain ⟨id, -, rfl⟩ := throwTraps_extra line member
    have keyword : lineIds (throwDeclaration id (attrRef text)) = [] := lineIds_of_ne (by decide) _
    rw [keyword]
    exact List.Subset.refl _
  have extra := readFrom_addDeclares (replaced_oneLine cookie text) reads_lineIds.empty silent
    (returned cookie text)
  simp only [List.not_mem_nil, not_false_eq_true, decide_true, List.filter_true] at extra
  have ids := readFrom_filterMap lineIds_eq []
  rw [beforeNodes, extra, returned, readFrom_zeroReturns reads_lineIds.blank,
    readFrom_internalLinkage reads_lineIds, readFrom_stripNoreturn reads_lineIds
    fun line among => lineIds_withoutNoreturn (noHidden line among), ids, kept, ← ids, thrownIds,
    readFrom_lateCalls reads_lineIds]

/-- What the stages up to the tags leave is part of what was there. -/
theorem readFrom_untagged_sublist {Token : Type} {marks : Text → List Token}
    (reads : Reads marks marks) (cookie : Option Int) (text : Text) :
    (readFrom marks [] (dropDefined (replaced cookie text).1)).Sublist (readFrom marks [] text) := by
  have thrown : readFrom marks [] (replaced cookie text).1 = readFrom marks [] (lateCalls text) :=
    readFrom_throwTraps reads _ _ _ _ _
  have called := (readFrom_memcpyRe reads text).1
  rw [← readFrom_lateCalls reads, ← thrown] at called
  exact (readFrom_dropDefined_sublist _).trans called

/-- The tags hide no id behind the word that is taken out. -/
theorem veilMarks_tagged (cookie : Option Int) (regular : ∀ line ∈ splitLines text, ¬Stray line) :
    ∀ line ∈ splitLines (tagged cookie text).1, veilMarks line = [] := by
  have none_ : readFrom veilMarks [] text = [] := by
    rw [readFrom_nil, List.flatMap_eq_nil_iff]
    intro line member
    by_contra veiled
    exact regular line member (stray_of_veil veiled)
  have tags := readFrom_tagDeclares reads_veilMarks signed_veilMarks
    (fun id more => veilMarks_tagOf id (' ' :: more)) (diFile text)
    (dropDefined (replaced cookie text).1) (replaced cookie text).2.2
  have left := readFrom_untagged_sublist reads_veilMarks cookie text
  rw [none_, List.sublist_nil] at left
  rw [left] at tags
  have silent : readFrom veilMarks [] (tagged cookie text).1 = [] := by
    rw [tagged]
    simpa using tags
  rwa [readFrom_nil, List.flatMap_eq_nil_iff] at silent

/-- Behind the tags stand only ids that stood there before. -/
theorem attachedIds_beforeNodes (cookie : Option Int)
    (regular : ∀ line ∈ splitLines text, ¬Stray line) :
    ((readFrom lineAttached [] (beforeNodes cookie text)).filter
      (· ∉ (tagged cookie text).2.attached)).Sublist (readFrom lineAttached [] text) := by
  have tags := readFrom_tagDeclares reads_lineAttached signed_lineAttached lineAttached_tagOf
    (diFile text) (dropDefined (replaced cookie text).1) (replaced cookie text).2.2
  rw [List.flatMap_singleton'] at tags
  have added : ∀ line ∈ (replaced cookie text).2.1,
      lineAttached line ⊆ (tagged cookie text).2.attached := by
    intro line member
    obtain ⟨id, among, rfl⟩ := throwTraps_extra line member
    rw [throwDeclaration_eq, lineAttached_tagOf]
    intro other inside
    rw [List.mem_singleton.mp inside]
    exact attached_subset_renderState _ _ _ among
  have extra := readFrom_addDeclares (replaced_oneLine cookie text) reads_lineAttached.empty added
    (returned cookie text)
  have same : readFrom lineAttached [] (returned cookie text) =
      readFrom lineAttached [] (tagged cookie text).1 := by
    rw [returned, readFrom_zeroReturns reads_lineAttached.blank, readFrom_internalLinkage reads_lineAttached,
      readFrom_stripNoreturn reads_lineAttached fun line among =>
        lineAttached_withoutNoreturn (veilMarks_tagged cookie regular line among)]
  rw [beforeNodes, extra, same, tagged, tags]
  exact List.filter_sublist.trans (readFrom_untagged_sublist reads_lineAttached cookie text)

end Whole

/-! ## The lines of the new nodes -/

/-- What stands behind the equals sign of a node. -/
def nodeBody (line : Text) : Text := (line.dropWhile (· != '=')).drop 2

/-- The lines of the output that define what the input does not. -/
def addedLines (text out : Text) : List Text :=
  (splitLines out).filter fun line => (nodeId line).any fun id => id ∉ definedIds text

def basicWord : Text := "!DIBasicType(".toList

def pointerWord : Text := "!DIDerivedType(tag: DW_TAG_pointer_type,".toList

def subprogramWord : Text := "!DISubprogram(".toList

/-- `null`, or one of the basic or pointer types in these lines. -/
def TypeIn (lines : List Text) (type : Text) : Prop :=
  type = "null".toList ∨ ∃ line ∈ lines, ∃ id, nodeId line = some id ∧ type = printId id ∧
    (basicWord <+: nodeBody line ∨ pointerWord <+: nodeBody line)

def signatureLine (types : List Text) : Text :=
  "!DISubroutineType(types: !\x7b".toList ++ List.intercalate ", ".toList types ++ "\x7d)".toList

def typeField (type : Nat) : Text := ", type: ".toList ++ printId type ++ [',']

/-- The type of a subprogram is a signature in these lines, of such types. -/
def Chained (lines : List Text) (line : Text) : Prop :=
  ∃ type, typeField type <:+: line ∧ ∃ signature ∈ lines, nodeId signature = some type ∧
    ∃ types, nodeBody signature = signatureLine types ∧ ∀ type ∈ types, TypeIn lines type

theorem nodeId_nodeLine (node : Nat × Node) : nodeId (nodeLine node) = some node.1 := by
  have ids := lineIds_nodeLine node
  rw [lineIds] at ids
  exact Option.toList_eq_singleton_iff.mp ids

theorem nodeBody_nodeLine (node : Nat × Node) : nodeBody (nodeLine node) = node.2.print := by
  have front : ∀ c ∈ printId node.1 ++ [' '], (c != '=') = true := by
    intro c member
    rcases List.mem_append.mp member with inId | blank
    · rcases List.mem_cons.mp inId with rfl | digit
      · rfl
      · have isDigit := List.all_eq_true.mp (isDigit_printNat node.1) c digit
        rw [bne_iff_ne]
        rintro rfl
        cases isDigit
    · rw [List.mem_singleton.mp blank]
      rfl
  have line : nodeLine node = (printId node.1 ++ [' ']) ++ '=' :: ' ' :: node.2.print := by
    unfold nodeLine
    simp only [List.append_assoc]
    rfl
  rw [nodeBody, line, List.dropWhile_append_of_pos front, List.dropWhile_cons_of_neg (by decide)]
  rfl

theorem subprogram_of_word {node : Node} (starts : subprogramWord <+: node.print) :
    ∃ name file type, node = .subprogram name file type := by
  have other : ∀ word : Text, word <+: node.print → ¬(word <+: subprogramWord) →
      ¬(subprogramWord <+: word) → False := by
    intro word begins first second
    rcases List.prefix_or_prefix_of_prefix begins starts with within | within
    · exact first within
    · exact second within
  cases node with
  | basic name size encoding =>
      refine (other "!DIBasicType(name: \"".toList ?_ (by decide) (by decide)).elim
      unfold Node.print
      simp only [List.append_assoc]
      exact List.prefix_append _ _
  | pointer => exact (other _ (List.prefix_refl _) (by decide) (by decide)).elim
  | subroutine types =>
      refine (other "!DISubroutineType(types: !\x7b".toList ?_ (by decide) (by decide)).elim
      unfold Node.print
      simp only [List.append_assoc]
      exact List.prefix_append _ _
  | subprogram name file type => exact ⟨name, file, type, rfl⟩

/-- The nodes around a grounded one chain its line. -/
theorem Grounded.chained {file : Text} {nodes : List (Nat × Node)} {lines : List Text}
    (shown : ∀ node ∈ nodes, nodeLine node ∈ lines) {id : Nat} {name named : Text} {type : Nat}
    (grounded : Grounded file nodes (.subprogram name named type)) :
    Chained lines (nodeLine (id, .subprogram name named type)) := by
  obtain ⟨-, types, member, among⟩ := grounded
  refine ⟨type, ?_, _, shown _ member, nodeId_nodeLine _,
    types.map fun type => (type.map printId).getD "null".toList, nodeBody_nodeLine _, ?_⟩
  · refine ⟨printId id ++ (" = ".toList ++ ("!DISubprogram(name: \"".toList ++ (name ++
      ("\", scope: ".toList ++ (named ++ (", file: ".toList ++ named)))))),
      " flags: DIFlagPrototyped, spFlags: DISPFlagOptimized)".toList, ?_⟩
    unfold nodeLine Node.print typeField
    simp only [List.append_assoc]
    rfl
  · intro printed inside
    obtain ⟨type, inTypes, rfl⟩ := List.mem_map.mp inside
    cases type with
    | none => exact Or.inl rfl
    | some id =>
        obtain ⟨node, inNodes, isType⟩ := among _ inTypes id rfl
        refine Or.inr ⟨_, shown _ inNodes, id, nodeId_nodeLine _, rfl, ?_⟩
        rw [nodeBody_nodeLine]
        cases node with
        | basic name size encoding =>
            left
            unfold Node.print
            simp only [List.append_assoc]
            exact (by decide : basicWord <+: "!DIBasicType(name: \"".toList).trans (List.prefix_append _ _)
        | pointer =>
            right
            change pointerWord <+: Node.pointer.print
            decide
        | subroutine | subprogram => cases isType

/-! ## What is added -/

/-- The declaration of `bpf_throw` is added. -/
def Throws (cookie : Option Int) (text : Text) : Prop :=
  cookie.isSome = true ∧ (plainTrapRe.search (lateCalls text)).isSome = true ∧
    (throwDeclRe.search (replaced cookie text).1).isSome = false

/-- A prototype is added for `bpf_throw` or for a declaration that is not left as it is. -/
def Adds (cookie : Option Int) (text : Text) : Prop :=
  Throws cookie text ∨ ∃ m ∈ declRe.findIter (dropDefined (replaced cookie text).1),
    untagged (m.group 3) m.text = false

theorem attach_ne_nil (file name ret args : Text) (added : Added) :
    (attach file name ret args added).2.nodes ≠ [] := by
  rw [attach_eq, subprogramFor_eq]
  exact List.ne_nil_of_mem (md_mem _)

theorem nodes_replaced (cookie : Option Int) (text : Text) :
    (replaced cookie text).2.2.nodes = [] ↔ ¬Throws cookie text := by
  cases cookie with
  | none => exact ⟨fun _ throws => Bool.false_ne_true throws.1, fun _ => rfl⟩
  | some cookie =>
      by_cases traps : (plainTrapRe.search (lateCalls text)).isSome = true
      · have thrown := @throwTraps_some (diFile text) ⟨nextId text, [], []⟩ cookie (attrRef text) _ traps
        rw [← replaced] at thrown
        by_cases declared : (throwDeclRe.search
            (trapCallRe.sub (fun _ => throwCall cookie) (lateCalls text))).isSome = true
        · rw [if_pos declared] at thrown
          rw [Throws, thrown]
          exact ⟨fun _ throws => by rw [declared] at throws; exact absurd throws.2.2 (by decide),
            fun _ => rfl⟩
        · rw [if_neg declared] at thrown
          rw [Throws, thrown]
          refine ⟨fun empty => absurd empty (attach_ne_nil (diFile text) "bpf_throw".toList
            "void".toList "i64".toList ⟨nextId text, [], []⟩), fun none_ => ?_⟩
          exact absurd ⟨rfl, traps, by simpa using declared⟩ none_
      · have same : replaced (some cookie) text = (lateCalls text, [], ⟨nextId text, [], []⟩) :=
          if_neg traps
        rw [same]
        exact ⟨fun _ throws => traps throws.2.1, fun _ => rfl⟩

theorem nodes_renderState (file : Text) (pieces : List Piece) (added : Added) :
    (renderState (tagDeclare file) pieces added).2.nodes = [] ↔
      added.nodes = [] ∧ ∀ m, .hit m ∈ pieces → untagged (m.group 3) m.text = true := by
  induction pieces generalizing added with
  | nil => exact ⟨fun empty => ⟨empty, fun m member => by cases member⟩, fun both => both.1⟩
  | cons piece pieces inductionHypothesis =>
      cases piece with
      | plain c =>
          rw [show (renderState (tagDeclare file) (.plain c :: pieces) added).2 =
            (renderState (tagDeclare file) pieces added).2 from rfl, inductionHypothesis]
          simp
      | hit m =>
          rw [show (renderState (tagDeclare file) (.hit m :: pieces) added).2 =
            (renderState (tagDeclare file) pieces (tagDeclare file m added).2).2 from rfl,
            inductionHypothesis]
          by_cases kept : untagged (m.group 3) m.text = true
          · rw [tagDeclare_untagged kept]
            simp [kept]
          · rw [tagDeclare_tagged kept]
            constructor
            · exact fun both => absurd both.1 (attach_ne_nil _ _ _ _ _)
            · exact fun both => absurd (both.2 m List.mem_cons_self) kept

section Output

variable {cookie : Option Int} {text : Text} {out : Finalized}

/-- Nodes are made exactly if something is added. -/
theorem nodes_eq_nil_iff (finished : finalize cookie text = some out) :
    out.added.nodes = [] ↔ ¬Adds cookie text := by
  rw [(finalize_eq_some finished).2, tagged, tagDeclares, nodes_renderState, nodes_replaced, Adds,
    not_or]
  refine and_congr_right fun _ => ⟨?_, ?_⟩
  · rintro all ⟨m, member, tagged_⟩
    obtain ⟨piece, inScan, isHit⟩ := List.mem_filterMap.mp member
    cases piece with
    | plain c => cases isHit
    | hit other =>
        cases isHit
        rw [all m inScan] at tagged_
        cases tagged_
  · intro none_ m member
    by_contra tagged_
    exact none_ ⟨m, List.mem_filterMap.mpr ⟨_, member, rfl⟩, by simpa using tagged_⟩

/-- The ids of the output: what the calls leave, and the new nodes. -/
theorem definedIds_finalize (regular : ∀ line ∈ splitLines text, ¬Stray line)
    (finished : finalize cookie text = some out) :
    definedIds out.text =
      definedIds (memcpyRe.sub (glueCall "bpf_arena_memcpy".toList) text) ++
        out.added.nodes.map Prod.fst := by
  have plain := (allocated_finalize finished).1.plain
  rw [definedIds_eq, (finalize_eq_some finished).1, readFrom_emit trims_lineIds reads_lineIds.empty plain,
    definedIds_beforeNodes cookie regular, definedIds_eq]
  simp only [lineIds_nodeLine]
  exact congrArg _ (List.flatMap_pure_eq_map _ _)

theorem emit_eq {nodes : List (Nat × Node)} (filled : nodes ≠ []) (text : Text) :
    emit nodes text = rstrip text ++ '
' :: (joinLines (nodes.map nodeLine) ++ ['
']) := by
  rw [emit, if_neg filled, List.append_assoc]
  rfl

theorem splitLines_newline (front text : Text) :
    splitLines (front ++ '
' :: text) = splitLines front ++ splitLines text := by
  rw [← readFrom_lines, ← readFrom_lines, ← readFrom_lines, readFrom_append_newline]

/-- A line is that of a new node, or it defines what the text in front defines. -/
theorem splitLines_emit {nodes : List (Nat × Node)} (plain : ∀ node ∈ nodes, node.2.Plain)
    (text : Text) :
    (∀ node ∈ nodes, nodeLine node ∈ splitLines (emit nodes text)) ∧
      ∀ line ∈ splitLines (emit nodes text), (∃ node ∈ nodes, line = nodeLine node) ∨
        ∀ id, nodeId line = some id → id ∈ definedIds text := by
  by_cases none_ : nodes = []
  · subst none_
    refine ⟨by simp, fun line member => Or.inr fun id defines => ?_⟩
    exact List.mem_filterMap.mpr ⟨line, member, defines⟩
  · have clean : ∀ line ∈ nodes.map nodeLine, '
' ∉ line := by
      intro line member
      obtain ⟨node, among, rfl⟩ := List.mem_map.mp member
      exact nodeLine_oneLine (plain node among)
    have lines : splitLines (emit nodes text) =
        splitLines (rstrip text) ++ (nodes.map nodeLine ++ [[]]) := by
      rw [emit_eq none_, splitLines_newline, splitLines_newline,
        splitLines_joinLines (by simpa using none_) clean]
      rfl
    rw [lines]
    constructor
    · intro node member
      exact List.mem_append_right _ (List.mem_append_left _ (List.mem_map_of_mem member))
    · intro line member
      rcases List.mem_append.mp member with before | member
      · right
        intro id defines
        obtain ⟨blanks, split, white⟩ := rstrip_append text
        have same := readFrom_append_blanks trims_lineIds reads_lineIds.empty white (rstrip text) []
        rw [← split, ← definedIds_eq, ← definedIds_eq] at same
        rw [same]
        exact List.mem_filterMap.mpr ⟨line, before, defines⟩
      · rcases List.mem_append.mp member with new | last
        · obtain ⟨node, among, rfl⟩ := List.mem_map.mp new
          exact Or.inl ⟨node, among, rfl⟩
        · right
          rw [List.mem_singleton.mp last]
          intro id defines
          cases defines

/-- A tag carries an id of a new node, or one that stood there. -/
theorem attachedIds_finalize (regular : ∀ line ∈ splitLines text, ¬Stray line)
    (finished : finalize cookie text = some out) :
    ((attachedIds out.text).filter (· ∉ out.added.attached)).Sublist (attachedIds text) := by
  have plain := (allocated_finalize finished).1.plain
  obtain ⟨shape, added⟩ := finalize_eq_some finished
  have silent : (out.added.nodes.flatMap fun node => lineAttached (nodeLine node)) = [] :=
    List.flatMap_eq_nil_iff.mpr fun node _ => lineAttached_nodeLine node
  rw [attachedIds_eq, attachedIds_eq, shape, readFrom_emit trims_lineAttached reads_lineAttached.empty
    plain, silent, List.append_nil, added]
  exact attachedIds_beforeNodes cookie regular

/-- The new nodes are numbered behind all ids of the text. -/
theorem nextId_le_of_new (finished : finalize cookie text = some out) {id : Nat}
    (new : id ∈ out.added.nodes.map Prod.fst) : nextId text ≤ id := by
  rw [(allocated_finalize finished).1.ids] at new
  exact (List.mem_range'_1.mp new).1

theorem new_not_defined (finished : finalize cookie text = some out) {id : Nat}
    (new : id ∈ out.added.nodes.map Prod.fst) : id ∉ definedIds text :=
  fun known => absurd (definedIds_lt known) (Nat.not_lt.mpr (nextId_le_of_new finished new))

/-- An id in front of theirs is one that the calls leave. -/
theorem defined_of_lt_nextId (regular : ∀ line ∈ splitLines text, ¬Stray line)
    (finished : finalize cookie text = some out) {id : Nat} (below : id < nextId text)
    (member : id ∈ definedIds out.text) :
    id ∈ definedIds (memcpyRe.sub (glueCall "bpf_arena_memcpy".toList) text) := by
  rw [definedIds_finalize regular finished] at member
  rcases List.mem_append.mp member with before | new
  · exact before
  · exact absurd (nextId_le_of_new finished new) (Nat.not_le.mpr below)

/-- The added lines are those of the new nodes. -/
theorem mem_addedLines (regular : ∀ line ∈ splitLines text, ¬Stray line)
    (finished : finalize cookie text = some out) {line : Text} :
    line ∈ addedLines text out.text ↔ ∃ node ∈ out.added.nodes, line = nodeLine node := by
  have allocated := (allocated_finalize finished).1
  have less := (readFrom_memcpyRe reads_lineIds text).1
  rw [← definedIds_beforeNodes cookie regular, ← definedIds_eq, ← definedIds_eq] at less
  obtain ⟨shown, others⟩ := splitLines_emit allocated.plain (beforeNodes cookie text)
  rw [← (finalize_eq_some finished).1] at shown others
  rw [addedLines, List.mem_filter]
  constructor
  · rintro ⟨among, new⟩
    rcases others line among with node | old
    · exact node
    · cases defines : nodeId line with
      | none =>
          rw [defines] at new
          cases new
      | some id =>
          rw [defines] at new
          exact absurd (less.subset (old id defines)) (by simpa using new)
  · rintro ⟨node, member, rfl⟩
    refine ⟨shown node member, ?_⟩
    have fresh : node.1 ∉ definedIds text := new_not_defined finished (List.mem_map_of_mem member)
    rw [nodeId_nodeLine]
    simpa using fresh

/-! ## Fresh and closed -/

/-- What the text of the output has to satisfy. -/
structure FreshAndClosed (text out : Text) : Prop where
  unique : (definedIds out).Nodup
  kept : definedIds text ⊆ definedIds out
  /-- What a declaration carries without a node, one of the input carried. -/
  attached : ((attachedIds out).filter (· ∉ definedIds out)).Sublist (attachedIds text)
  mentioned : ∀ line ∈ addedLines text out, printedIds line ⊆ definedIds out
  chains : ∀ line ∈ addedLines text out, subprogramWord <+: nodeBody line →
    Chained (addedLines text out) line

/-- The line of a new subprogram shows the id of the file. -/
theorem file_defined (regular : ∀ line ∈ splitLines text, ¬Stray line)
    (finished : finalize cookie text = some out) (adds : Adds cookie text)
    (mentioned : ∀ line ∈ addedLines text out.text, printedIds line ⊆ definedIds out.text) :
    readNat ((diFile text).drop 1) ∈ definedIds text := by
  obtain ⟨allocated, described⟩ := allocated_finalize finished
  have filled : out.added.nodes ≠ [] := fun empty => (nodes_eq_nil_iff finished).mp empty adds
  obtain ⟨id, name, file, type, member⟩ := described filled
  obtain ⟨rfl, -⟩ := allocated.grounded _ member
  have shown := mentioned _ ((mem_addedLines regular finished).mpr ⟨_, member, rfl⟩)
  rw [printedIds_nodeLine (allocated.plain _ member)] at shown
  have named := shown (List.mem_cons_of_mem _ List.mem_cons_self)
  have left := defined_of_lt_nextId regular finished (diFile_spec text).1 named
  have less := (readFrom_memcpyRe reads_lineIds text).1
  simp only [← definedIds_eq] at less
  exact less.subset left

section Kept

variable (regular : ∀ line ∈ splitLines text, ¬Stray line) (finished : finalize cookie text = some out)
  (ids : definedIds out.text = definedIds text ++ out.added.nodes.map Prod.fst)

include finished ids

theorem nodup_definedIds (unique : (definedIds text).Nodup) : (definedIds out.text).Nodup := by
  rw [ids, List.nodup_append]
  refine ⟨unique, ?_, ?_⟩
  · rw [(allocated_finalize finished).1.ids]
    exact List.nodup_range'
  · rintro id before _ new rfl
    exact new_not_defined finished new before

include regular

/-- What a tag carries is defined, so what is not defined stood there. -/
theorem attachedIds_sublist :
    ((attachedIds out.text).filter (· ∉ definedIds out.text)).Sublist (attachedIds text) := by
  have known : ∀ id ∈ out.added.attached, id ∈ definedIds out.text := by
    intro id member
    rw [ids]
    exact List.mem_append_right _ ((allocated_finalize finished).1.attached id member)
  have narrower : (attachedIds out.text).filter (· ∉ definedIds out.text) =
      ((attachedIds out.text).filter (· ∉ out.added.attached)).filter
        (· ∉ definedIds out.text) := by
    rw [List.filter_filter]
    apply List.filter_congr
    intro id _
    by_cases defined : id ∈ definedIds out.text
    · simp [defined]
    · simp [defined, mt (known id) defined]
  rw [narrower]
  exact List.filter_sublist.trans (attachedIds_finalize regular finished)

/-- A new line shows its own id, those of other new nodes and that of the file. -/
theorem printedIds_defined (file : Adds cookie text → readNat ((diFile text).drop 1) ∈ definedIds text) :
    ∀ line ∈ addedLines text out.text, printedIds line ⊆ definedIds out.text := by
  obtain ⟨allocated, -⟩ := allocated_finalize finished
  have inOutput : ∀ id ∈ out.added.nodes.map Prod.fst, id ∈ definedIds out.text := by
    intro id member
    rw [ids]
    exact List.mem_append_right _ member
  intro line member id shown
  obtain ⟨node, among, rfl⟩ := (mem_addedLines regular finished).mp member
  rw [printedIds_nodeLine (allocated.plain node among)] at shown
  rcases List.mem_cons.mp shown with rfl | mentioned
  · exact inOutput _ (List.mem_map_of_mem among)
  · rcases (allocated.grounded node among).mentions mentioned with new | rfl
    · exact inOutput id new
    · have adds : Adds cookie text := by
        by_contra nothing
        rw [(nodes_eq_nil_iff finished).mpr nothing] at among
        cases among
      rw [ids]
      exact List.mem_append_left _ (file adds)

end Kept

/-- From the line of a new subprogram the chain goes over new lines. -/
theorem chained_addedLines (regular : ∀ line ∈ splitLines text, ¬Stray line)
    (finished : finalize cookie text = some out) :
    ∀ line ∈ addedLines text out.text, subprogramWord <+: nodeBody line →
      Chained (addedLines text out.text) line := by
  have lines := @mem_addedLines _ _ _ regular finished
  intro line member starts
  obtain ⟨node, among, rfl⟩ := lines.mp member
  rw [nodeBody_nodeLine] at starts
  obtain ⟨id, node⟩ := node
  obtain ⟨name, named, type, rfl⟩ := subprogram_of_word starts
  exact ((allocated_finalize finished).1.grounded _ among).chained
    fun node inNodes => lines.mpr ⟨node, inNodes, rfl⟩

/-- The metadata is fresh and closed exactly if no node is lost in the flags of a call,
and the id that is taken for the file is one of a node if anything is added. -/
theorem finalize_freshAndClosed_iff (regular : ∀ line ∈ splitLines text, ¬Stray line)
    (unique : (definedIds text).Nodup) (finished : finalize cookie text = some out) :
    FreshAndClosed text out.text ↔
      (∀ m ∈ memcpyRe.findIter text,
        definedIds (glueCall "bpf_arena_memcpy".toList m) = definedIds m.text) ∧
      (Adds cookie text → readNat ((diFile text).drop 1) ∈ definedIds text) := by
  obtain ⟨less, same⟩ := readFrom_memcpyRe reads_lineIds text
  simp only [← definedIds_eq] at less same
  rw [← same]
  constructor
  · intro closed
    refine ⟨?_, fun adds => file_defined regular finished adds closed.mentioned⟩
    -- a text that defines fewer ids without losing one defines the same
    apply less.eq_of_length_le
    apply List.Subperm.length_le
    apply List.subperm_of_subset unique
    exact fun id member =>
      defined_of_lt_nextId regular finished (definedIds_lt member) (closed.kept member)
  · rintro ⟨whole, file⟩
    have ids := definedIds_finalize regular finished
    rw [whole] at ids
    constructor
    case unique => exact nodup_definedIds finished ids unique
    case kept =>
      rw [ids]
      exact List.subset_append_left _ _
    case attached => exact attachedIds_sublist regular finished ids
    case mentioned => exact printedIds_defined regular finished ids file
    case chains => exact chained_addedLines regular finished

/-- A declaration, a trap, and the node of a file. -/
def trapFile : Text := joinLines [
  "declare void @f(i64)".toList,
  "define void @g() \x7b".toList,
  "  call void @llvm.trap()".toList,
  "\x7d".toList,
  "attributes #0 = \x7b nounwind \x7d".toList,
  "!0 = !DIFile(filename: \"a\", directory: \"\")".toList, []]

def trapFileOut : Text := joinLines [
  "declare !dbg !6 void @f(i64) section \".ksyms\"".toList,
  "define void @g() \x7b".toList,
  "  call void @bpf_throw(i64 7)".toList,
  "\x7d".toList,
  "declare !dbg !3 void @bpf_throw(i64) section \".ksyms\"".toList, [],
  "attributes #0 = \x7b nounwind \x7d".toList,
  "!0 = !DIFile(filename: \"a\", directory: \"\")".toList,
  "!1 = !DIBasicType(name: \"long long\", size: 64, encoding: DW_ATE_signed)".toList,
  "!2 = !DISubroutineType(types: !\x7bnull, !1\x7d)".toList,
  "!3 = !DISubprogram(name: \"bpf_throw\", scope: !0, file: !0, type: !2, ".toList ++
    "flags: DIFlagPrototyped, spFlags: DISPFlagOptimized)".toList,
  "!4 = !DIBasicType(name: \"long long\", size: 64, encoding: DW_ATE_signed)".toList,
  "!5 = !DISubroutineType(types: !\x7bnull, !4\x7d)".toList,
  "!6 = !DISubprogram(name: \"f\", scope: !0, file: !0, type: !5, ".toList ++
    "flags: DIFlagPrototyped, spFlags: DISPFlagOptimized)".toList, []]

theorem finalize_trapFile :
    (finalize (some 7) trapFile).map Finalized.text = some trapFileOut := by
  decide +kernel

theorem finalize_freshAndClosed_trapFile :
    ∃ out, finalize (some 7) trapFile = some out ∧ out.text = trapFileOut ∧
      FreshAndClosed trapFile out.text := by
  obtain ⟨out, finished, text⟩ := Option.map_eq_some_iff.mp finalize_trapFile
  have regular : ∀ line ∈ splitLines trapFile, ¬Stray line := by decide +kernel
  have unique : (definedIds trapFile).Nodup := by decide +kernel
  have noCalls : memcpyRe.findIter trapFile = [] := by decide +kernel
  have file : readNat ((diFile trapFile).drop 1) ∈ definedIds trapFile := by decide +kernel
  refine ⟨out, finished, text, (finalize_freshAndClosed_iff regular unique finished).mpr ⟨?_, fun _ => file⟩⟩
  rw [noCalls]
  exact fun m member => absurd member List.not_mem_nil

/-- A string with the words of a node stands in front of the node of the file. -/
def quotedFile : Text := joinLines [
  "@s = constant [13 x i8] c\"!7 = !DIFile(\"".toList,
  "declare void @f()".toList,
  "!0 = !DIFile(filename: \"a\", directory: \"\")".toList, []]

def quotedFileOut : Text := joinLines [
  "@s = constant [13 x i8] c\"!7 = !DIFile(\"".toList,
  "declare !dbg !9 void @f() section \".ksyms\"".toList,
  "!0 = !DIFile(filename: \"a\", directory: \"\")".toList,
  "!8 = !DISubroutineType(types: !\x7bnull\x7d)".toList,
  "!9 = !DISubprogram(name: \"f\", scope: !7, file: !7, type: !8, ".toList ++
    "flags: DIFlagPrototyped, spFlags: DISPFlagOptimized)".toList, []]

theorem finalize_quotedFile :
    (finalize none quotedFile).map Finalized.text = some quotedFileOut := by
  decide +kernel

/-- The new nodes then mention an id that nothing defines. -/
theorem finalize_freshAndClosed_quoted :
    (definedIds quotedFile).Nodup ∧
      "!0 = !DIFile(filename: \"a\", directory: \"\")".toList ∈ splitLines quotedFile ∧
      ∃ out, finalize none quotedFile = some out ∧ out.text = quotedFileOut ∧
        ¬FreshAndClosed quotedFile out.text := by
  obtain ⟨out, finished, text⟩ := Option.map_eq_some_iff.mp finalize_quotedFile
  refine ⟨by decide +kernel, by decide +kernel, out, finished, text, fun closed => ?_⟩
  rw [text] at closed
  have mentioned : ∀ line ∈ addedLines quotedFile quotedFileOut,
      ∀ id ∈ printedIds line, id ∈ definedIds quotedFileOut := closed.mentioned
  exact absurd mentioned (by decide +kernel)

end Output

end LibarenaRs.Linker
