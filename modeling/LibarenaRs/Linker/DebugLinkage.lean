import LibarenaRs.Linker.Noinline
import LibarenaRs.Llvm.Subprograms
import LibarenaRs.Regex.RunOn

/-!
# The linkage of subprogram nodes

`bpf_finalize` collects the ids attached to internal functions and gives each of
their nodes one more flag, in one substitution over the whole text for each id.
-/

namespace LibarenaRs.Linker

open LibarenaRs.Regex LibarenaRs.Llvm

/-! ## The loop -/

/-- `!dbg\s+(!\d+)` -/
def attachmentRe : Pattern :=
  .cat [.lit "!dbg".toList, .plus true (.chr isSpace),
    .group 1 (.cat [.lit ['!'], .plus true (.chr Char.isDigit)])]

/-- `define\s+internal\s` -/
def internalRe : Pattern :=
  .cat [.lit "define".toList, .plus true (.chr isSpace), .lit "internal".toList, .chr isSpace]

def debugIdBody : Pattern :=
  .cat [internalRe, .star true (.chr fun c => c != '\n'), attachmentRe]

/-- `^define\s+internal\s[^\n]*!dbg\s+(!\d+)` -/
def debugIdRe : Pattern := .seq .lineStart debugIdBody

def nodeHead (id : Text) : Text := id ++ " = distinct !DISubprogram(".toList

def localFlag : Text := "DISPFlagLocalToUnit".toList

/-- `(id = distinct !DISubprogram\([^\n]*?spFlags: )(?!DISPFlagLocalToUnit)` -/
def linkageRe (id : Text) : Pattern := insertRe (nodeHead id) "spFlags: ".toList localFlag

def debugIds (text : Text) : List Text := (debugIdRe.findIter text).map fun m => m.group 1

def internalLinkage (text : Text) : Text :=
  (debugIds text).foldl (fun text id =>
    (linkageRe id).sub (fun m => m.group 1 ++ "DISPFlagLocalToUnit | ".toList) text) text

/-! ## Reading an attachment -/

theorem debugHere_of_ne {c : Char} (different : c ≠ '!') (rest : Text) :
    debugHere (c :: rest) = none := by
  have absent : (c :: rest).dropPrefix? "!dbg".toList = none := by
    rw [dropPrefix?_eq_none]
    rintro ⟨more, same⟩
    exact different (List.cons.inj same).1.symm
  rw [debugHere, absent]

theorem idHere_of_ne {c : Char} (different : c ≠ '!') (rest : Text) : idHere (c :: rest) = none := by
  unfold idHere
  split
  · rename_i same
    exact absurd (List.cons.inj same).1 different
  · rfl

section Run

variable {whole : Text} {past text : Text} {groups : List (Nat × Text)}

theorem run_idHere (bound : text.length ≤ whole.length) :
    ((Pattern.group 1 (.cat [.lit ['!'], .plus true (.chr Char.isDigit)])).run (wholeMatch whole)
        ⟨past, text, groups⟩).map (fun m => m.group 1) = (idHere text).map DebugId.print := by
  rw [Pattern.run_group, Pattern.run_cat_cons]
  by_cases sign : ['!'] <+: text
  · obtain ⟨more, rfl⟩ := sign
    rw [Pattern.run_lit_append, Pattern.run_cat_cons, Pattern.run_plus]
    cases digits : more.takeWhile Char.isDigit with
    | nil =>
        have none_ : idHere (['!'] ++ more) = none := dif_pos digits
        rw [none_]
        cases more with
        | nil => rfl
        | cons c rest =>
            have closed : Char.isDigit c = false := by
              by_contra digit
              rw [List.takeWhile_cons_of_pos (by simpa using digit)] at digits
              cases digits
            rw [Pattern.run_chr_cons, closed]
            rfl
    | cons c read =>
        obtain ⟨left, split, stops⟩ : ∃ left, more = c :: (read ++ left) ∧
            headIs Char.isDigit left = false := by
          refine ⟨more.dropWhile Char.isDigit, ?_, ?_⟩
          · rw [← List.cons_append, ← digits, List.takeWhile_append_dropWhile]
          · cases behind : more.dropWhile Char.isDigit with
            | nil => rfl
            | cons d others =>
                have rejected := List.head?_dropWhile_not Char.isDigit more
                rw [behind] at rejected
                change d.isDigit = false
                simpa using rejected
        have all : (c :: read).all Char.isDigit = true := by
          rw [← digits]
          exact List.all_takeWhile
        rw [List.all_cons, Bool.and_eq_true] at all
        have group : (['!'] ++ more).take ((['!'] ++ more).length - left.length) = '!' :: c :: read := by
          have whole_ : ['!'] ++ more = ('!' :: c :: read) ++ left := by rw [split]; rfl
          rw [whole_, List.length_append, Nat.add_sub_cancel, List.take_left]
        have shorter : left.length < whole.length := by
          rw [split] at bound
          simp only [List.length_append, List.length_cons] at bound
          omega
        have ran := @Pattern.repeatChr_greedy _
          (fun after => wholeMatch whole (after.close 1 (['!'] ++ more))) Char.isDigit groups
          (c :: (['!'].reverse ++ past)) read left
          ⟨whole.take (whole.length - left.length), (1, '!' :: c :: read) :: groups⟩
          (List.all_eq_true.mp all.2) stops (by
            simp only [Cursor.close, group]
            exact if_pos shorter)
        have id_ : (idHere (['!'] ++ more)).map DebugId.print = some ('!' :: c :: read) := by
          have filled : more.takeWhile Char.isDigit ≠ [] := by simp [digits]
          have here : idHere (['!'] ++ more) =
            some ⟨more.takeWhile Char.isDigit, filled, List.all_takeWhile⟩ := dif_neg filled
          rw [here]
          exact congrArg (fun digits => some ('!' :: digits)) digits
        have start : (Pattern.chr Char.isDigit).run
            ((Pattern.star true (.chr Char.isDigit)).run
              (fun after => wholeMatch whole (after.close 1 (['!'] ++ more))))
            ⟨['!'].reverse ++ past, more, groups⟩ =
              some ⟨whole.take (whole.length - left.length), (1, '!' :: c :: read) :: groups⟩ := by
          rw [← ran, ← Pattern.run_star_chr]
          nth_rewrite 2 [split]
          rw [Pattern.run_chr_cons, if_pos all.1]
        rw [id_]
        exact congrArg (Option.map fun m => Match.group m 1) start
  · rw [Pattern.run_lit_absent _ sign]
    cases text with
    | nil => rfl
    | cons c rest =>
        have different : c ≠ '!' := by
          rintro rfl
          exact sign ⟨rest, rfl⟩
        rw [idHere_of_ne different]
        rfl

theorem run_attachmentRe (bound : text.length ≤ whole.length) :
    (attachmentRe.run (wholeMatch whole) ⟨past, text, groups⟩).map (fun m => m.group 1) =
      (debugHere text).map DebugId.print := by
  rw [debugHere]
  cases found : text.dropPrefix? "!dbg".toList with
  | none =>
      unfold attachmentRe
      rw [Pattern.run_cat_cons, Pattern.run_lit_absent _ (dropPrefix?_eq_none.mp found)]
      rfl
  | some rest =>
      rw [dropPrefix?_eq_some] at found
      have shorter : (rest.dropWhile isSpace).length ≤ whole.length := by
        have dropped := (List.dropWhile_sublist (p := isSpace) (l := rest)).length_le
        rw [found, List.length_append] at bound
        omega
      rw [attachmentRe, found, Pattern.run_cat_cons, Pattern.run_lit_append, Pattern.run_cat_cons,
        Pattern.run_plus_maximal]
      · cases rest with
        | nil => rfl
        | cons c more =>
            by_cases white : isSpace c = true
            · have starts : headIs isSpace (c :: more) = true := white
              rw [List.takeWhile_cons_of_pos white, if_neg (by simp), Pattern.run_cat_cons]
              simp only [if_pos starts]
              exact run_idHere shorter
            · have starts : ¬headIs isSpace (c :: more) = true := white
              rw [List.takeWhile_cons_of_neg white, if_pos rfl]
              simp only [if_neg starts]
              rfl
      · intro past c more white
        rw [Pattern.run_cat_cons, Pattern.run_group, Pattern.run_cat_cons]
        apply Pattern.run_lit_absent
        rintro ⟨others, same⟩
        obtain rfl := (List.cons.inj same).1
        cases white

/-- The loop finds the last attachment. -/
theorem run_lastDebug (oneLine : '\n' ∉ text) (bound : text.length ≤ whole.length) :
    ((Pattern.star true (.chr fun c => c != '\n')).run (attachmentRe.run (wholeMatch whole))
        ⟨past, text, groups⟩).map (fun m => m.group 1) = (lastDebug text).map DebugId.print := by
  rw [Pattern.run_star_chr]
  induction text generalizing past with
  | nil => exact run_attachmentRe bound
  | cons c rest inductionHypothesis =>
      have here := @run_attachmentRe whole past (c :: rest) groups bound
      have later := @inductionHypothesis (c :: past)
        (fun member => oneLine (List.mem_cons_of_mem _ member)) (by
          rw [List.length_cons] at bound
          omega)
      have accepted : (c != '\n') = true := by
        simpa using fun same : c = '\n' => oneLine (by simp [same])
      rw [Pattern.repeatChr, lastDebug, if_pos rfl, if_pos accepted]
      cases found : lastDebug rest with
      | some id =>
          rw [found, Option.map_some] at later
          obtain ⟨m, ran, same⟩ := Option.map_eq_some_iff.mp later
          rw [ran]
          exact congrArg some same
      | none =>
          rw [found, Option.map_none, Option.map_eq_none_iff] at later
          rw [later]
          exact here

theorem run_internalRe {Answer : Type} {next : Cursor → Option Answer} {blank : Char}
    (white : isSpace blank = true) (rest : Text) :
    ∃ before, internalRe.run next ⟨past, "define".toList ++ blank :: rest, groups⟩ =
      match afterKeyword "internal".toList (rest.dropWhile isSpace) with
      | some behind => next ⟨before, behind, groups⟩
      | none => none := by
  have opened : internalRe.run next ⟨past, "define".toList ++ blank :: rest, groups⟩ =
      (Pattern.cat [.lit "internal".toList, .chr isSpace]).run next
        ⟨(blank :: rest.takeWhile isSpace).reverse ++ ("define".toList.reverse ++ past),
          rest.dropWhile isSpace, groups⟩ := by
    rw [internalRe, Pattern.run_cat_cons, Pattern.run_lit_append, Pattern.run_cat_cons,
      Pattern.run_plus_maximal, List.takeWhile_cons_of_pos white, List.dropWhile_cons_of_pos white,
      if_neg (by simp)]
    · intro past c more white
      rw [Pattern.run_cat_cons]
      apply Pattern.run_lit_absent
      rintro ⟨others, same⟩
      obtain rfl := (List.cons.inj same).1
      cases white
  rw [opened, Pattern.run_cat_cons, afterKeyword]
  cases found : (rest.dropWhile isSpace).dropPrefix? "internal".toList with
  | none => exact ⟨[], Pattern.run_lit_absent _ (dropPrefix?_eq_none.mp found)⟩
  | some behind =>
      rw [dropPrefix?_eq_some] at found
      rw [found, Pattern.run_lit_append, Pattern.run_cat_cons]
      cases behind with
      | nil => exact ⟨[], rfl⟩
      | cons c behind =>
          refine ⟨c :: ("internal".toList.reverse ++ ((blank :: rest.takeWhile isSpace).reverse ++
            ("define".toList.reverse ++ past))), ?_⟩
          rw [Pattern.run_chr_cons, Pattern.run_cat_nil]
          by_cases white : isSpace c = true
          · simp only [if_pos white]
          · simp only [if_neg white]

end Run

/-! ## Reading the signature lines -/

/-- The id that is collected from the signature. -/
def readId (function : DebugFunction) : Option DebugId :=
  if function.header.linkage = .internal then lastDebug function.signature.print else none

theorem lastDebug_append {text : Text} (plain : '!' ∉ text) (rest : Text) :
    lastDebug (text ++ rest) = lastDebug rest := by
  induction text with
  | nil => rfl
  | cons c text inductionHypothesis =>
      have different : c ≠ '!' := fun same => plain (by simp [same])
      rw [List.cons_append, lastDebug, debugHere_of_ne different, Option.or_none]
      exact inductionHypothesis fun member => plain (List.mem_cons_of_mem _ member)

/-- The signature up to the sign of its symbol. -/
theorem signature_print (function : DebugFunction) :
    ∃ rest, function.signature.print = (function.header.before ++ [' ']) ++ '@' :: rest := by
  refine ⟨printName function.header.name ++ '(' :: function.signature.after, ?_⟩
  have line : function.signature.print = function.header.before ++
      (" @".toList ++ (printName function.header.name ++ '(' :: function.signature.after)) := by
    unfold Header.print
    rw [List.append_assoc, List.append_assoc]
    rfl
  rw [line, List.append_assoc]
  rfl

theorem afterKeyword_internal (function : DebugFunction) :
    afterKeyword "internal".toList (function.signature.print.dropWhile isSpace) =
      if function.header.linkage = .internal then
        some (function.signature.print.drop "internal ".toList.length)
      else none := by
  obtain ⟨rest, line⟩ := signature_print function
  have dropped : function.signature.print.dropWhile isSpace =
      (function.header.before ++ [' ']).dropWhile isSpace ++ '@' :: rest := by
    rw [line]
    exact dropWhile_append_stops rfl _
  by_cases internal : function.header.linkage = .internal
  · have opening : ∃ more, function.signature.print = "internal".toList ++ ' ' :: more := by
      refine ⟨(function.header.qualifiers.flatMap fun qualifier => qualifier.val ++ [' ']) ++
        function.header.returns.print ++ ([' '] ++ '@' :: rest), ?_⟩
      rw [line, Header.before, Header.lead, internal]
      simp only [List.append_assoc]
      rfl
    obtain ⟨more, whole⟩ := opening
    rw [if_pos internal, whole]
    have start : ("internal".toList ++ ' ' :: more).dropWhile isSpace =
        "internal".toList ++ ' ' :: more := rfl
    rw [start, afterKeyword_append]
    rfl
  · rw [if_neg internal]
    cases found : afterKeyword "internal".toList (function.signature.print.dropWhile isSpace) with
    | none => rfl
    | some behind =>
        obtain ⟨c, white, split⟩ := afterKeyword_eq_some found
        have printed : printable c = true := by
          apply List.all_eq_true.mp function.signature.printable_print
          have member : c ∈ function.signature.print.dropWhile isSpace := by
            rw [split]
            simp
          exact (List.dropWhile_sublist _).subset member
        rw [isSpace_of_printable printed, beq_iff_eq] at white
        subst white
        refine absurd (function.plainLinkage ?_) internal
        rw [dropped] at split
        have apart : Apart "internal ".toList ['@'] :=
          apart_of_first rfl (by decide)
        exact apart.prefix_left ⟨behind, by rw [List.singleton_append, split]; rfl⟩

/-- The id that is read behind the first keyword. -/
def idBehind (rest : Text) : Option Text :=
  (afterKeyword "internal".toList (rest.dropWhile isSpace)).bind fun behind =>
    (lastDebug behind).map DebugId.print

theorem idBehind_signature (function : DebugFunction) :
    idBehind function.signature.print = (readId function).map DebugId.print := by
  rw [idBehind, afterKeyword_internal, readId]
  by_cases internal : function.header.linkage = .internal
  · have split : function.signature.print =
        "internal ".toList ++ function.signature.print.drop "internal ".toList.length := by
      obtain ⟨rest, whole⟩ := signature_print function
      rw [whole, Header.before, Header.lead, internal]
      rfl
    rw [if_pos internal, if_pos internal, Option.bind_some]
    nth_rewrite 2 [split]
    rw [lastDebug_append (by decide)]
  · rw [if_neg internal, if_neg internal]
    rfl

theorem debugIdBody_starts {past text : Text} {stop : Cursor}
    (reached : debugIdBody.Reaches ⟨past, text, []⟩ stop) :
    ∃ rest, afterKeyword "define".toList text = some rest := by
  obtain ⟨_, ⟨_, ⟨rest, split, rfl⟩, _, ⟨_, ⟨c, left, whole, white, rfl⟩, -⟩, -⟩, -⟩ := reached
  have here : text = "define".toList ++ c :: left := by
    rw [← show rest = c :: left from whole]
    exact split
  refine ⟨left, ?_⟩
  rw [here, afterKeyword, dropPrefix?_append]
  simp only [if_pos white]

/-- What is read from a line. -/
theorem matchAt_debugIdRe {line : Text} (oneLine : '\n' ∉ line) :
    (debugIdRe.matchAt [] line).map (fun m => m.group 1) =
      (afterKeyword "define".toList line).bind idBehind := by
  cases found : afterKeyword "define".toList line with
  | none =>
      have none_ : debugIdRe.matchAt [] line = none := by
        rw [Pattern.matchAt_eq_none_iff]
        rintro stop ⟨_, ⟨-, rfl⟩, reached⟩
        obtain ⟨rest, starts⟩ := debugIdBody_starts reached
        rw [found] at starts
        cases starts
      rw [none_]
      rfl
  | some rest =>
      obtain ⟨c, white, split⟩ := afterKeyword_eq_some found
      obtain ⟨before, opened⟩ := @run_internalRe [] [] _
        ((Pattern.star true (.chr fun c => c != '\n')).run
          (attachmentRe.run (wholeMatch line))) _ white rest
      have started : debugIdRe.matchAt [] line =
          internalRe.run ((Pattern.star true (.chr fun c => c != '\n')).run
            (attachmentRe.run (wholeMatch line))) ⟨[], line, []⟩ := rfl
      rw [started]
      nth_rewrite 2 [split]
      rw [opened, Option.bind_some, idBehind]
      cases behind : afterKeyword "internal".toList (rest.dropWhile isSpace) with
      | none => rfl
      | some left =>
          obtain ⟨d, -, shape⟩ := afterKeyword_eq_some behind
          have inside : left <:+ line := by
            have dropped := @List.dropWhile_suffix _ rest isSpace
            rw [shape] at dropped
            rw [split]
            exact ((List.suffix_append ("internal".toList ++ [d]) left).trans
              (by simpa using dropped)).trans (List.suffix_append ("define".toList ++ [c]) rest |>.trans
                (by simp))
          exact run_lastDebug (fun member => oneLine (inside.subset member)) inside.length_le

theorem lastDebug_behind {rest : Text} {id : DebugId} (found : lastDebug rest = some id)
    (text : Text) : lastDebug (text ++ rest) = some id := by
  induction text with
  | nil => exact found
  | cons c text inductionHypothesis =>
      rw [List.cons_append, lastDebug, inductionHypothesis]
      rfl

/-- An id in front of a text without attachments. -/
theorem lastDebug_attachment (id : DebugId) {tail : Text} (quiet : lastDebug tail = none)
    (stops : headIs Char.isDigit tail = false) :
    lastDebug ("!dbg ".toList ++ (id.print ++ tail)) = some id := by
  have digits : '!' ∉ id.digits := fun member =>
    absurd (List.all_eq_true.mp id.numeric '!' member) (by decide)
  have noName : debugHere ('!' :: (id.digits ++ tail)) = none := by
    cases shape : id.digits with
    | nil => exact absurd shape id.filled
    | cons c others =>
        have absent : ('!' :: (c :: others ++ tail)).dropPrefix? "!dbg".toList = none := by
          rw [dropPrefix?_eq_none]
          rintro ⟨more, same⟩
          obtain rfl : 'd' = c := (List.cons.inj (List.cons.inj same).2).1
          exact absurd (List.all_eq_true.mp id.numeric 'd' (by simp [shape])) (by decide)
        rw [debugHere, absent]
  have later : lastDebug ("dbg ".toList ++ (id.print ++ tail)) = none := by
    rw [lastDebug_append (by decide), DebugId.print, List.cons_append, lastDebug,
      lastDebug_append digits, quiet, noName]
    rfl
  have here : debugHere ("!dbg".toList ++ ' ' :: (id.print ++ tail)) = some id := by
    have taken : (id.digits ++ tail).takeWhile Char.isDigit = id.digits := by
      have all := @List.takeWhile_append_of_pos _ Char.isDigit id.digits []
        (List.all_eq_true.mp id.numeric)
      rw [takeWhile_append_stops stops]
      simpa using all
    have filled : (id.digits ++ tail).takeWhile Char.isDigit ≠ [] := by
      rw [taken]
      exact id.filled
    have found : idHere ('!' :: (id.digits ++ tail)) = some id := by
      rw [idHere, dif_neg filled]
      exact congrArg some (DebugId.ext taken)
    rw [debugHere, dropPrefix?_append]
    exact found
  have split : "!dbg ".toList ++ (id.print ++ tail) =
      '!' :: ("dbg ".toList ++ (id.print ++ tail)) := rfl
  rw [split, lastDebug, later]
  exact here

theorem signature_ends (function : DebugFunction) :
    ∃ front, function.signature.print = front ++ (function.debugText ++
      (function.attachments.text.val ++ " \x7b".toList)) := by
  refine ⟨function.header.before ++ " @".toList ++ printName function.header.name ++ '(' ::
    (function.header.parameters.val ++ [')'] ++ function.header.attributes.val ++
      printSection function.header.sectionName ++ function.header.trailer.val), ?_⟩
  unfold Header.print Header.after
  have trailer : function.signature.trailer.val = function.header.trailer.val ++
      (function.debugText ++ (function.attachments.text.val ++ " \x7b".toList)) := rfl
  rw [trailer]
  simp only [List.append_assoc, List.cons_append]
  rfl

/-- The id of an attachment is collected. -/
theorem readId_of_debug {function : DebugFunction} (internal : function.header.linkage = .internal)
    {index : Nat} (attached : function.debug = some index) :
    readId function = some (DebugId.ofNat index) := by
  obtain ⟨front, line⟩ := signature_ends function
  have text : function.debugText = [' '] ++ ("!dbg ".toList ++ (DebugId.ofNat index).print) := by
    rw [DebugFunction.debugText, attached]
    rfl
  have stops : headIs Char.isDigit (function.attachments.text.val ++ " \x7b".toList) = false := by
    have spaced := function.attachments.spaced
    cases shape : function.attachments.text.val with
    | nil => rfl
    | cons c rest => rwa [shape] at spaced
  rw [readId, if_pos internal, line, text, List.append_assoc, List.append_assoc]
  apply lastDebug_behind
  apply lastDebug_behind
  exact lastDebug_attachment _ function.attachments.quiet stops

/-! ## The ids of a module -/

/-- The ids that are collected from a module. -/
def readIds (m : DebugModule) : List DebugId := m.functions.filterMap readId

/-- A text that is read before some character is in front of it. -/
theorem read_in_front {read left before after : Text} {d : Char}
    (split : before ++ d :: after = read ++ left) (clean : d ∉ read) : read <+: before := by
  rcases List.append_eq_append_iff.mp split with ⟨more, whole, rest⟩ | ⟨more, whole, rest⟩
  · cases more with
    | nil => exact ⟨[], by rw [whole]; simp⟩
    | cons e more =>
        obtain ⟨rfl, -⟩ := List.cons.inj rest
        exact absurd (by simp [whole]) clean
  · exact ⟨more, whole.symm⟩

/-- The lines that start with the keyword are signatures. -/
theorem mem_plain_lines {m : DebugModule} {line : Text} (member : line ∈ m.plain.lines)
    (starts : firstWord line = "define".toList) :
    ∃ function ∈ m.functions, line = defineLine function.signature := by
  obtain ⟨item, inPlain, inside⟩ := List.mem_flatMap.mp member
  obtain ⟨debugItem, inModule, rfl⟩ := List.mem_map.mp inPlain
  obtain ⟨inFront, behind, split⟩ := List.append_of_mem inside
  rcases Item.line_cases split with ⟨header, body, shape, -, rfl, -⟩ |
    ⟨variable_, -, -, rfl, -⟩ | ⟨different, -⟩
  · cases debugItem with
    | function found =>
        cases shape
        exact ⟨found, List.mem_filterMap.mpr ⟨_, inModule, rfl⟩, rfl⟩
    | subprogram node => cases shape
    | plain other noFunction => exact absurd shape (noFunction header body)
  · obtain ⟨rest, word⟩ := firstWord_global variable_
    rw [word] at starts
    cases starts
  · exact absurd starts different

theorem functions_plain (m : DebugModule) :
    m.plain.functions = m.functions.map DebugFunction.signature := by
  induction m with
  | nil => rfl
  | cons item others inductionHypothesis =>
      have later : Module.functions (others.map DebugItem.item) =
          (DebugModule.functions others).map DebugFunction.signature := inductionHypothesis
      cases item with
      | function found => exact congrArg (found.signature :: ·) later
      | subprogram node => exact later
      | plain other noFunction =>
          cases other with
          | function header body => exact absurd rfl (noFunction header body)
          | declaration | global | attributeGroup | other => exact later

/-- The line goes up to its brace, and its symbol stands behind the linkage. -/
theorem signature_shape (function : DebugFunction) (after : List Text) :
    ∃ front back content rest,
      joinLines (defineLine function.signature :: after) = front ++ '@' :: back ∧
      joinLines (defineLine function.signature :: after) = content ++ '{' :: rest ∧
      '\n' ∉ front ∧ '\n' ∉ content ∧ headIs (· != '\n') rest = false := by
  have clean := not_newline_of_printable (printable_defineLine function.signature)
  obtain ⟨more, symbol⟩ := signature_print function
  obtain ⟨start, ending⟩ := signature_ends function
  rw [Pattern.joinLines_cons]
  refine ⟨"define ".toList ++ (function.header.before ++ [' ']), more ++ Pattern.tailOf after,
    "define ".toList ++ (start ++ (function.debugText ++
      (function.attachments.text.val ++ [' ']))), Pattern.tailOf after, ?_, ?_, ?_, ?_, ?_⟩
  · unfold defineLine
    rw [symbol]
    simp
  · unfold defineLine
    rw [ending]
    simp
  · intro member
    apply clean
    unfold defineLine
    rw [symbol]
    simp only [List.mem_append] at member ⊢
    tauto
  · intro member
    apply clean
    unfold defineLine
    rw [ending]
    simp only [List.mem_append] at member ⊢
    rcases member with keyword | first | second | third | blank
    · exact Or.inl keyword
    · exact Or.inr (Or.inl first)
    · exact Or.inr (Or.inr (Or.inl second))
    · exact Or.inr (Or.inr (Or.inr (Or.inl third)))
    · cases List.mem_singleton.mp blank
  · cases after <;> rfl

theorem debugIdBody_stays (m : DebugModule) :
    ∀ before line after, m.plain.lines = before ++ line :: after → ∀ past stop,
      debugIdBody.Reaches ⟨past, joinLines (line :: after), []⟩ stop →
      ¬Pattern.Crosses ⟨past, joinLines (line :: after), []⟩ stop := by
  intro before line after places past stop reached
  obtain ⟨rest, starts⟩ := debugIdBody_starts reached
  have word : firstWord line = "define".toList := by
    obtain ⟨c, white, split⟩ := afterKeyword_eq_some starts
    rw [← firstWord_joinLines line after, split]
    exact firstWord_append (by decide) white rest
  obtain ⟨function, -, rfl⟩ := mem_plain_lines (by rw [places]; simp) word
  obtain ⟨front, back, content, behind, atSymbol, atBrace, frontClean, contentClean, ends⟩ :=
    signature_shape function after
  obtain ⟨middle, inHead, last, loop, attachment⟩ := reached
  -- the first part does not get to the symbol, the last one not over the brace
  obtain ⟨first, firstSplit, firstAvoids⟩ :=
    inHead.read_avoids (d := '@') (by decide)
  obtain ⟨second, secondSplit, secondClean⟩ := loop.read_avoids (d := '\n') (by decide)
  obtain ⟨third, thirdSplit, thirdAvoids⟩ := attachment.read_avoids (d := '{') (by decide)
  change joinLines (defineLine function.signature :: after) = first ++ middle.rest at firstSplit
  rintro ⟨read, crossing, newline⟩
  change joinLines (defineLine function.signature :: after) = read ++ stop.rest at crossing
  have parts : read = (first ++ second) ++ third := by
    apply @List.append_cancel_right _ _ stop.rest
    rw [← crossing, firstSplit, secondSplit, thirdSplit]
    simp
  have firstClean : '\n' ∉ first := fun member =>
    frontClean ((read_in_front (by rw [← atSymbol, firstSplit]) firstAvoids).subset member)
  have inThird : '\n' ∈ third := by
    rw [parts] at newline
    simpa [firstClean, secondClean] using newline
  have whole : content ++ '{' :: behind = (first ++ second) ++ (third ++ stop.rest) := by
    rw [← atBrace, firstSplit, secondSplit, thirdSplit]
    simp
  rcases List.append_eq_append_iff.mp whole with ⟨more, shape, tail⟩ | ⟨more, shape, tail⟩
  · cases more with
    | nil =>
        cases third with
        | nil => cases inThird
        | cons d third =>
            obtain ⟨rfl, -⟩ := List.cons.inj tail
            exact thirdAvoids (by simp)
    | cons brace more =>
        obtain ⟨rfl, rest_⟩ := List.cons.inj tail
        cases more with
        | nil =>
            -- behind the brace there is no attachment
            obtain ⟨_, ⟨left, opens, -⟩, -⟩ := attachment
            have sign : behind = "!dbg".toList ++ left := rest_.trans (thirdSplit.symm.trans opens)
            rw [sign] at ends
            cases ends
        | cons d more =>
            rw [rest_] at ends
            have newline_ : d = '\n' := by simpa [headIs] using ends
            subst newline_
            have inRead : '\n' ∈ first ++ second := by
              rw [shape]
              simp
            rcases List.mem_append.mp inRead with inFirst | inSecond
            · exact firstClean inFirst
            · exact secondClean inSecond
  · have inContent := read_in_front (by rw [tail]) thirdAvoids
    exact contentClean (by rw [shape]; exact List.mem_append_right _ (inContent.subset inThird))

theorem debugIds_text (m : DebugModule) :
    debugIds m.plain.text = (readIds m).map DebugId.print := by
  have found := @Pattern.findIter_lines debugIdBody m.plain.lines (by decide)
    (fun line member => Module.oneLine member) (debugIdBody_stays m)
  have perLine : ∀ line ∈ m.plain.lines, (debugIdRe.matchAt [] line).map (fun m => m.group 1) =
      (afterKeyword "define".toList line).bind idBehind :=
    fun line member => matchAt_debugIdRe (Module.oneLine member)
  calc debugIds m.plain.text
      = (m.plain.lines.filterMap (debugIdRe.matchAt [])).map fun m => m.group 1 :=
        congrArg (List.map fun m => Match.group m 1) found
    _ = m.plain.lines.filterMap fun line => (afterKeyword "define".toList line).bind idBehind := by
        rw [List.map_filterMap]
        exact List.filterMap_congr perLine
    _ = m.plain.functions.filterMap fun header => idBehind header.print :=
        filterMap_define idBehind m.plain
    _ = (readIds m).map DebugId.print := by
        rw [functions_plain, List.filterMap_map, readIds, List.map_filterMap]
        exact List.filterMap_congr fun function _ => idBehind_signature function

/-! ## The words of the substitution -/

def headOf (id : DebugId) : Text := nodeHead id.print

def localWord : Text := "DISPFlagLocalToUnit | ".toList

theorem headOf_not_mem {id : DebugId} {c : Char} (noDigit : c.isDigit = false)
    (absent : c ∉ "! = distinct !DISubprogram(".toList) : c ∉ headOf id := by
  have letters : "! = distinct !DISubprogram(".toList =
      '!' :: " = distinct !DISubprogram(".toList := rfl
  rw [letters, List.mem_cons, not_or] at absent
  intro member
  rcases List.mem_append.mp member with sign | word
  · rcases List.mem_cons.mp sign with first | digit
    · exact absent.1 first
    · rw [List.all_eq_true.mp id.numeric c digit] at noDigit
      cases noDigit
  · exact absent.2 word

theorem separate_headOf (id : DebugId) : Separate (headOf id) spMark localFlag where
  filled := by simp [headOf, nodeHead, DebugId.print]
  oneLine := by decide
  headApart := @apart_of_last _ _ '(' ':' (by
      unfold headOf nodeHead
      rw [List.getLast?_append_of_ne_nil _ (by decide)]
      rfl)
    (by decide) (by decide) (headOf_not_mem (by decide) (by decide))
  markApart := @apart_of_first _ _ _ '!' rfl (by decide)
  guardApart := @apart_of_last _ _ 't' ':' rfl (by decide) (by decide) (by decide)
  unbordered := spMark_unbordered

theorem inserted_headOf : Inserted headOf spMark localFlag localWord where
  guards := ⟨" | ".toList, rfl⟩
  oneLine := by decide
  markless := @starts_outside _ _ _ 's' rfl (by decide)
  headless := fun id => @starts_outside _ _ _ '!' rfl (by decide)

/-- The substitutions for some ids. -/
def insertFlag (ids : List DebugId) (text : Text) : Text :=
  ids.foldl (fun text id =>
    (insertRe (headOf id) spMark localFlag).sub (fun m => m.group 1 ++ localWord) text) text

theorem internalLinkage_lines (m : DebugModule) :
    internalLinkage m.plain.text = joinLines (m.plain.lines.map (insertFlag (readIds m))) := by
  have perLine : ∀ (ids : List DebugId) (lines : List Text),
      insertFlag ids (joinLines lines) = joinLines (lines.map (insertFlag ids)) := by
    intro ids
    induction ids with
    | nil => exact fun lines => congrArg joinLines (List.map_id' lines).symm
    | cons id ids inductionHypothesis =>
        intro lines
        have stays := @inLine_insertRe (headOf id) spMark localFlag
          (headOf_not_mem (by decide) (by decide)) (by decide) (by decide)
        have first := Pattern.sub_joinLines stays (fun m => m.group 1 ++ localWord) lines
        rw [insertFlag, List.foldl_cons, first]
        refine (inductionHypothesis _).trans ?_
        rw [List.map_map]
        rfl
  have loop : internalLinkage m.plain.text = insertFlag (readIds m) m.plain.text := by
    rw [internalLinkage, debugIds_text, List.foldl_map]
    rfl
  rw [loop]
  exact perLine _ _

/-! ## What happens to a node -/

/-- Some collected id reaches the flags: the node's line in front of them is cut at the
marks that stand inside of quotes, those that the flag follows apart; a substitution
that finds its id in a stretch takes the open mark behind it, and the next one for the
same stretch goes on to the mark behind. -/
def Chosen (m : DebugModule) (node : Subprogram) : Prop :=
  Reached (readIds m)
    (stretches headOf localFlag (headsIn headOf node.firstPiece) node.frontPieces)

instance (m : DebugModule) (node : Subprogram) : Decidable (Chosen m node) :=
  decidableReached _ _

theorem flagsPiece_guarded (node : Subprogram) :
    localFlag <+: node.flagsPiece ↔ node.flags.flags.head? = some .localToUnit := by
  rw [← node.flags.localToUnit_prefix_iff node.back.val, ← node.backPieces_spec.1]
  constructor
  · exact fun starts => starts.trans (List.prefix_append _ _)
  · exact prefix_of_marked
      (@apart_of_last _ _ 't' ':' rfl (by decide) (by decide) (by decide))

theorem insertFlag_pieces (ids : List DebugId) {piece : Text} {pieces : List Text}
    (free : ∀ inner ∈ piece :: pieces, ¬spMark <:+: inner)
    (oneLine : '\n' ∉ piece ++ marked spMark pieces) :
    insertFlag ids (piece ++ marked spMark pieces) =
      piece ++ marked spMark (insertAll headOf localFlag localWord piece ids pieces) := by
  apply foldl_sub_insertRe inserted_headOf separate_headOf
  intro inner member
  refine ⟨free inner member, fun newline => oneLine ?_⟩
  rcases List.mem_cons.mp member with rfl | later
  · exact List.mem_append_left _ newline
  · exact List.mem_append_right _ (List.mem_flatMap.mpr
      ⟨inner, later, List.mem_append_right _ newline⟩)

theorem insertFlag_oneLine (ids : List DebugId) {line : Text} (oneLine : '\n' ∉ line) :
    '\n' ∉ insertFlag ids line := by
  obtain ⟨whole, free⟩ := cut_spec (by decide : spMark ≠ []) _ line (Nat.le_refl _)
  rw [← whole] at oneLine
  rw [← whole, insertFlag_pieces ids free oneLine]
  intro newline
  rcases List.mem_append.mp newline with inFirst | inMarked
  · exact oneLine (List.mem_append_left _ inFirst)
  · obtain ⟨inner, member, inside⟩ := List.mem_flatMap.mp inMarked
    obtain ⟨before, among, grown⟩ := exists_of_mem_right
      (grown_insertAll inserted_headOf _ ids _) member
    rcases List.mem_append.mp inside with inMark | inInner
    · exact absurd inMark (by decide)
    · refine grown.oneLine inserted_headOf (fun inBefore => oneLine ?_) inInner
      exact List.mem_append_right _ (List.mem_flatMap.mpr
        ⟨before, among, List.mem_append_right _ inBefore⟩)

/-- The flags that stand on the line of a node behind the substitutions. -/
theorem flagsOf_insertFlag (m : DebugModule) (node : Subprogram) :
    flagsOf (insertFlag (readIds m) node.print) =
      if Chosen m node ∧ node.flags.flags.head? ≠ some .localToUnit then
        some (localFlag :: node.flags.words)
      else some node.flags.words := by
  have oneLine := not_newline_of_printable node.printable_print
  obtain ⟨front, next, back, split, inFront, -, reaches, misses⟩ :=
    insertAll_split inserted_headOf node.firstPiece (readIds m) node.frontPieces node.flagsPiece
      node.backPieces
  have free : ∀ inner ∈ node.firstPiece :: (node.frontPieces ++ node.flagsPiece :: node.backPieces),
      ¬spMark <:+: inner := by
    rw [← List.cons_append]
    intro inner member
    rcases List.mem_append.mp member with before | behind
    · exact node.frontPieces_spec.2 inner before
    · exact node.backPieces_spec.2 inner behind
  have still : ∀ inner ∈ node.firstPiece :: front, ¬spMark <:+: inner := by
    intro inner member
    rcases List.mem_cons.mp member with rfl | later
    · exact node.frontPieces_spec.2 _ (by simp)
    · obtain ⟨before, among, grown⟩ := exists_of_mem_right inFront later
      exact mt (grown.infix_iff inserted_headOf.markless).mp
        (node.frontPieces_spec.2 _ (List.mem_cons_of_mem _ among))
  have hidden := node.hidden_front.grown (by decide) inFront
  rw [node.print_pieces] at oneLine ⊢
  rw [insertFlag_pieces _ free oneLine, split]
  by_cases chosen : Chosen m node ∧ node.flags.flags.head? ≠ some .localToUnit
  · have next_ := reaches ⟨chosen.1, mt (flagsPiece_guarded node).mp chosen.2⟩
    have read := @Subprogram.flagsOf_pieces node front back localWord hidden still (by decide)
    have words : splitBar (localWord ++ node.flags.print) = localFlag :: node.flags.words := by
      have word : localWord = localFlag ++ bar := rfl
      rw [word, List.append_assoc, (splitBar_word (by decide) _).1, node.flags.splitBar_print]
    rw [if_pos chosen, next_, read, words]
  · have next_ := misses fun both => chosen ⟨both.1, mt (flagsPiece_guarded node).mpr both.2⟩
    have read := @Subprogram.flagsOf_pieces node front back [] hidden still rfl
    rw [List.nil_append, List.nil_append] at read
    rw [if_neg chosen, next_, read, node.flags.splitBar_print]

theorem headOf_infix_append {id : DebugId} {text : Text} (plain : '!' ∉ text) (rest : Text) :
    headOf id <:+: text ++ rest ↔ headOf id <:+: rest :=
  infix_inserted (starts_outside rfl plain) rest

/-- The digits of an id end in front of the blank. -/
theorem headOf_prefix_opening (id : DebugId) (index : Nat) (isDistinct : Bool) (rest : Text) :
    headOf id <+: '!' :: ((printNat index ++ (" = ".toList ++
        (if isDistinct then "distinct ".toList else []))) ++
      ('!' :: ("DISubprogram(".toList ++ rest))) ↔
      id = DebugId.ofNat index ∧ isDistinct = true := by
  have line : ∀ more, '!' :: ((printNat index ++ (" = ".toList ++
        (if isDistinct then "distinct ".toList else []))) ++ more) =
      '!' :: (printNat index ++ ' ' :: ("= ".toList ++
        ((if isDistinct then "distinct ".toList else []) ++ more))) := by
    intro more
    simp only [List.append_assoc]
    rfl
  have head : headOf id = '!' :: (id.digits ++ ' ' :: "= distinct !DISubprogram(".toList) := rfl
  rw [line, head, List.cons_prefix_cons, and_iff_right rfl]
  constructor
  · rintro ⟨left, same⟩
    have sides : id.digits ++ ' ' :: ("= distinct !DISubprogram(".toList ++ left) =
        printNat index ++ ' ' :: ("= ".toList ++
          ((if isDistinct then "distinct ".toList else []) ++
            ('!' :: ("DISubprogram(".toList ++ rest)))) := by
      rw [← same]
      simp only [List.append_assoc, List.cons_append]
    have digits : id.digits = printNat index := by
      rw [← takeWhile_stop id.numeric (show Char.isDigit ' ' = false from rfl), sides,
        takeWhile_stop (isDigit_printNat index) rfl]
    rw [digits] at sides
    refine ⟨DebugId.ext digits, ?_⟩
    cases isDistinct with
    | true => rfl
    | false =>
        have behind := (List.cons.inj (List.append_cancel_left sides)).2
        exact absurd (List.cons.inj (List.cons.inj (List.cons.inj behind).2).2).1 (by decide)
  · rintro ⟨rfl, rfl⟩
    refine ⟨rest, ?_⟩
    rw [List.append_assoc]
    rfl

/-- Ids are not confused: no other id is found at the start of a node. -/
theorem headOf_infix_opening (id : DebugId) (node : Subprogram) (rest : Text) :
    headOf id <:+: node.opening ++ rest ↔
      (id = DebugId.ofNat node.index ∧ node.isDistinct = true) ∨ headOf id <:+: rest := by
  have noHead : ¬headOf id <+: '!' :: ("DISubprogram(".toList ++ rest) := by
    rintro ⟨others, same⟩
    cases shape : id.digits with
    | nil => exact id.filled shape
    | cons c digits =>
        have head : headOf id = '!' :: c :: (digits ++ " = distinct !DISubprogram(".toList) := by
          rw [headOf, nodeHead, DebugId.print, shape]
          rfl
        rw [head] at same
        obtain rfl : c = 'D' := (List.cons.inj (List.cons.inj same).2).1
        exact absurd (List.all_eq_true.mp id.numeric 'D' (by simp [shape])) (by decide)
  have split : node.opening ++ rest = '!' :: ((printNat node.index ++ (" = ".toList ++
      (if node.isDistinct then "distinct ".toList else []))) ++
        ('!' :: ("DISubprogram(".toList ++ rest))) := by
    unfold Subprogram.opening
    simp only [List.append_assoc, List.cons_append]
    rfl
  have middle : '!' ∉ printNat node.index ++ (" = ".toList ++
      (if node.isDistinct then "distinct ".toList else [])) := by
    intro member
    rcases List.mem_append.mp member with digits | word
    · exact printNat_not_mem (by decide) digits
    · revert word
      split <;> decide
  rw [split, List.infix_cons_iff, headOf_infix_append middle, List.infix_cons_iff,
    headOf_infix_append (by decide), or_iff_right noHead]
  refine or_congr_left ?_
  exact headOf_prefix_opening id node.index node.isDistinct _

/-- A node with no mark and no head inside of its quoted texts is reached by its own id. -/
theorem chosen_iff_of_plain (m : DebugModule) (node : Subprogram) (noMark : node.frontPieces = [])
    (noHead : ∀ id ∈ readIds m, ¬headOf id <:+: node.front.val) :
    Chosen m node ↔ node.isDistinct = true ∧ DebugId.ofNat node.index ∈ readIds m := by
  have whole := node.frontPieces_spec.1
  rw [noMark, marked, List.flatMap_nil, List.append_nil] at whole
  rw [Chosen, noMark, stretches, reached_singleton]
  simp only [headsIn, decide_eq_true_eq, whole, headOf_infix_opening]
  constructor
  · rintro ⟨id, member, ⟨rfl, distinct_⟩ | inFront⟩
    · exact ⟨distinct_, member⟩
    · exact absurd inFront (noHead id member)
  · rintro ⟨distinct_, member⟩
    exact ⟨_, member, Or.inl ⟨rfl, distinct_⟩⟩

/-- Without stray ids the collected ids are those of the attached nodes. -/
theorem mem_readIds_iff {m : DebugModule} (index : Nat)
    (noStray : ∀ function ∈ m.functions, function.debug = none → readId function = none) :
    DebugId.ofNat index ∈ readIds m ↔
      ∃ function ∈ m.functions, function.header.linkage = .internal ∧
        function.debug = some index := by
  rw [readIds, List.mem_filterMap]
  constructor
  · rintro ⟨function, member, read⟩
    have internal : function.header.linkage = .internal := by
      by_contra other
      rw [readId, if_neg other] at read
      cases read
    cases shape : function.debug with
    | none =>
        rw [noStray function member shape] at read
        cases read
    | some found =>
        rw [readId_of_debug internal shape] at read
        have digits := congrArg DebugId.digits (Option.some.inj read)
        exact ⟨function, member, internal, by rw [shape, printNat_injective digits]⟩
  · rintro ⟨function, member, internal, attached⟩
    exact ⟨function, member, readId_of_debug internal attached⟩

/-! ## When the linkages agree -/

/-- The lines of an item, with the node that they are. -/
def DebugItem.described : DebugItem → List (Option Subprogram × Text)
  | .subprogram node => [(some node, node.print)]
  | item => item.item.lines.map fun line => (none, line)

/-- The lines of a module, with the nodes that they are. -/
def described (m : DebugModule) : List (Option Subprogram × Text) :=
  m.flatMap DebugItem.described

theorem map_described (m : DebugModule) : (described m).map Prod.snd = m.plain.lines := by
  induction m with
  | nil => rfl
  | cons item others inductionHypothesis =>
      have first : (DebugItem.described item).map Prod.snd = item.item.lines := by
        cases item with
        | subprogram node => rfl
        | function | plain =>
            rw [DebugItem.described, List.map_map]
            · exact List.map_id' _
            · simp
      rw [described, List.flatMap_cons, List.map_append, first, ← described, inductionHypothesis]
      rfl

theorem mem_described_some {m : DebugModule} {node : Subprogram} {line : Text} :
    (some node, line) ∈ described m ↔ node ∈ m.subprograms ∧ line = node.print := by
  simp only [described, DebugModule.subprograms, List.mem_flatMap, List.mem_filterMap]
  constructor
  · rintro ⟨item, member, inside⟩
    cases item with
    | subprogram found =>
        cases List.mem_singleton.mp inside
        exact ⟨⟨_, member, rfl⟩, rfl⟩
    | function | plain =>
        obtain ⟨other, -, same⟩ := List.mem_map.mp inside
        cases same
  · rintro ⟨⟨item, member, selected⟩, rfl⟩
    cases item with
    | subprogram found =>
        cases selected
        exact ⟨_, member, List.mem_singleton.mpr rfl⟩
    | function | plain => cases selected

/-- A node of an internal function has the flag once and its other flags as they were;
the flags of any other node are as they were. -/
def FlagsKept (m : DebugModule) (node : Subprogram) (after : Option (List Text)) : Prop :=
  (m.Attached node → ∃ words, after = some words ∧ words.count localFlag = 1 ∧
    (words.filter fun word => word ≠ localFlag) =
      node.flags.words.filter fun word => word ≠ localFlag) ∧
  (¬m.Attached node → after = some node.flags.words)

def NodeKept (m : DebugModule) (before : Option Subprogram × Text) (after : Text) : Prop :=
  match before.1 with
  | none => True
  | some node => FlagsKept m node (flagsOf after)

/-- The output has the lines of the module, and every node has the linkage of its
function. -/
def LinkageAgrees (m : DebugModule) (out : Text) : Prop :=
  ∃ lines, out = joinLines lines ∧ (∀ line ∈ lines, '\n' ∉ line) ∧
    List.Forall₂ (NodeKept m) (described m) lines

theorem print_eq_localFlag {flag : SpFlag} : flag.print = localFlag ↔ flag = .localToUnit := by
  constructor
  · intro same
    exact @SpFlag.localToUnit_prefix flag [] (by
      rw [List.append_nil, same]
      exact List.prefix_refl _)
  · rintro rfl
    rfl

/-- The flag is among the words at most once. -/
theorem count_words (flags : SpFlags) :
    flags.words.count localFlag = if .localToUnit ∈ flags.flags then 1 else 0 := by
  have nodup : flags.flags.Nodup := flags.ordered.imp fun {first second} ranks same => by
    rw [same] at ranks
    exact Nat.lt_irrefl _ ranks
  by_cases empty : flags.flags = []
  · rw [SpFlags.words, if_pos empty, if_neg (by simp [empty])]
    rfl
  · have each : (fun flag : SpFlag => flag.print == localFlag) = fun flag => flag == .localToUnit := by
      funext flag
      rw [Bool.eq_iff_iff, beq_iff_eq, beq_iff_eq]
      exact print_eq_localFlag
    rw [SpFlags.words, if_neg empty, List.count, List.countP_map, Function.comp_def, each]
    exact nodup.count

theorem flagsKept_iff (m : DebugModule) (node : Subprogram) :
    FlagsKept m node (flagsOf (insertFlag (readIds m) node.print)) ↔
      node.flags.flags.head? = some .localToUnit ∨
        (Chosen m node ↔ m.Attached node ∧ .localToUnit ∉ node.flags.flags) := by
  have count := count_words node.flags
  rw [flagsOf_insertFlag]
  by_cases first : node.flags.flags.head? = some .localToUnit
  · have present : .localToUnit ∈ node.flags.flags := List.mem_of_mem_head? first
    rw [if_pos present] at count
    rw [if_neg fun both => both.2 first]
    exact iff_of_true ⟨fun _ => ⟨_, rfl, count, rfl⟩, fun _ => rfl⟩ (Or.inl first)
  · rw [or_iff_right first]
    by_cases chosen : Chosen m node
    · -- the flag is added in front of the words
      have added : (localFlag :: node.flags.words).count localFlag =
          node.flags.words.count localFlag + 1 := List.count_cons_self
      rw [if_pos ⟨chosen, first⟩, iff_true_left chosen]
      constructor
      · rintro ⟨inside, outside⟩
        have attached : m.Attached node := by
          by_contra free
          have lengths := congrArg List.length (Option.some.inj (outside free))
          rw [List.length_cons] at lengths
          omega
        refine ⟨attached, fun present => ?_⟩
        obtain ⟨words, same, once, -⟩ := inside attached
        rw [← Option.some.inj same, added, count, if_pos present] at once
        cases once
      · rintro ⟨attached, absent⟩
        rw [if_neg absent] at count
        refine ⟨fun _ => ⟨_, rfl, by rw [added, count], ?_⟩, fun free => absurd attached free⟩
        exact List.filter_cons_of_neg (by simp)
    · rw [if_neg fun both => chosen both.1, iff_false_left chosen]
      constructor
      · rintro ⟨inside, -⟩ ⟨attached, absent⟩
        obtain ⟨words, same, once, -⟩ := inside attached
        rw [← Option.some.inj same, count, if_neg absent] at once
        cases once
      · intro covered
        refine ⟨fun attached => ⟨_, rfl, ?_, rfl⟩, fun _ => rfl⟩
        have present : .localToUnit ∈ node.flags.flags := by
          by_contra absent
          exact covered ⟨attached, absent⟩
        rw [count, if_pos present]

theorem linkageAgrees_iff (m : DebugModule) :
    LinkageAgrees m (internalLinkage m.plain.text) ↔
      ∀ node ∈ m.subprograms, FlagsKept m node (flagsOf (insertFlag (readIds m) node.print)) := by
  have oneLine : ∀ entry ∈ described m, '\n' ∉ insertFlag (readIds m) entry.2 := by
    intro entry member
    apply insertFlag_oneLine
    apply Module.oneLine (m := m.plain)
    rw [← map_described]
    exact List.mem_map_of_mem member
  have kept := kept_lines_iff oneLine (NodeKept m)
  rw [map_described, ← internalLinkage_lines] at kept
  rw [LinkageAgrees, kept]
  constructor
  · intro all node member
    exact all (some node, node.print) (mem_described_some.mpr ⟨member, rfl⟩)
  · rintro all ⟨node | node, line⟩ member
    · trivial
    · obtain ⟨among, rfl⟩ := mem_described_some.mp member
      exact all node among

/-- The linkages agree exactly if each node has the flag in front, or is reached by the
substitutions when it has to get the flag and not reached otherwise. -/
theorem internalLinkage_agrees_iff (m : DebugModule) :
    LinkageAgrees m (internalLinkage m.plain.text) ↔
      ∀ node ∈ m.subprograms, node.flags.flags.head? = some .localToUnit ∨
        (Chosen m node ↔ m.Attached node ∧ .localToUnit ∉ node.flags.flags) := by
  rw [linkageAgrees_iff]
  exact forall₂_congr fun node _ => flagsKept_iff m node

/-- Where the quoted texts hold no mark, no head of a node and no attachment, the linkages
agree exactly if no node of an internal function has the flag behind another one. -/
theorem internalLinkage_agrees_of_plain (m : DebugModule)
    (noStray : ∀ function ∈ m.functions, function.debug = none → readId function = none)
    (plain : ∀ node ∈ m.subprograms, node.isDistinct = true ∧ node.frontPieces = [] ∧
      ∀ id ∈ readIds m, ¬headOf id <:+: node.front.val) :
    LinkageAgrees m (internalLinkage m.plain.text) ↔
      ∀ node ∈ m.subprograms, m.Attached node →
        .localToUnit ∈ node.flags.flags → node.flags.flags.head? = some .localToUnit := by
  rw [linkageAgrees_iff]
  refine forall₂_congr fun node member => ?_
  obtain ⟨distinct_, noMark, noHead⟩ := plain node member
  have chosen : Chosen m node ↔ m.Attached node := by
    rw [chosen_iff_of_plain m node noMark noHead, and_iff_right distinct_,
      mem_readIds_iff node.index noStray]
    rfl
  rw [flagsKept_iff, chosen]
  constructor
  · rintro (first | agree) attached present
    · exact first
    · exact absurd present (agree.mp attached).2
  · intro ordered
    by_cases first : node.flags.flags.head? = some .localToUnit
    · exact Or.inl first
    · refine Or.inr ⟨fun attached => ⟨attached, fun present => ?_⟩, And.left⟩
      exact first (ordered attached present)

/-- `define internal void @f() !dbg !0 {` -/
def internalFunction : DebugFunction where
  header :=
    { linkage := .internal
      qualifiers := []
      returns := .void
      name := ['f']
      named := by decide
      parameters := .empty
      attributes := .empty
      sectionName := none
      trailer := .empty }
  debug := some 0
  attachments := ⟨.empty, rfl, by decide⟩
  body := []
  plainLinkage := fun _ => rfl

/-- `!0 = distinct !DISubprogram(spFlags: DISPFlagVirtual | DISPFlagLocalToUnit)` -/
def virtualNode : Subprogram where
  index := 0
  isDistinct := true
  front := .empty
  covered := rfl
  flags := ⟨[.virtual, .localToUnit], by decide⟩
  back := ⟨[')'], rfl⟩
  ends := rfl

def virtualModule : DebugModule := [.function internalFunction, .subprogram virtualNode]

/-- Behind another flag the flag is not seen, and is printed twice. -/
theorem internalLinkage_agrees_virtual :
    ¬LinkageAgrees virtualModule (internalLinkage virtualModule.plain.text) := by
  have noStray : ∀ function ∈ virtualModule.functions, function.debug = none →
      readId function = none := by
    intro function member absent
    rw [List.mem_singleton.mp member] at absent
    cases absent
  have plain : ∀ node ∈ virtualModule.subprograms, node.isDistinct = true ∧ node.frontPieces = [] ∧
      ∀ id ∈ readIds virtualModule, ¬headOf id <:+: node.front.val := by
    intro node member
    rw [List.mem_singleton.mp member]
    refine ⟨rfl, rfl, fun id _ inside => ?_⟩
    exact (separate_headOf id).filled (List.infix_nil.mp inside)
  rw [internalLinkage_agrees_of_plain virtualModule noStray plain]
  intro ordered
  have attached : virtualModule.Attached virtualNode :=
    ⟨internalFunction, List.mem_singleton.mpr rfl, rfl, rfl⟩
  have first := ordered virtualNode (List.mem_singleton.mpr rfl) attached (by decide)
  cases first

end LibarenaRs.Linker
