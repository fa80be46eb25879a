import LibarenaRs.Linker.Headers

/-!
# The return type that two passes carry along

`trap_to_ret` and the last loop of `bpf_finalize` read the return type off each
signature line they can read and use it until the next one.  Each line carries
its owner here, the function it stands in; the passes do not look at it.
-/

namespace LibarenaRs.Linker

open LibarenaRs.Regex LibarenaRs.Llvm

/-! ## The passes -/

/-- The characters of `[A-Za-z0-9_.$"]`. -/
def quotedChar (c : Char) : Bool := symbolChar c || c == '"'

def nonSpace (c : Char) : Bool := !isSpace c

/-- `\s(\S+)\s@[A-Za-z0-9_.$"]+\(` -/
def typeRe : Pattern :=
  .cat [.chr isSpace, .group 1 (.plus true (.chr nonSpace)), .chr isSpace, .lit ['@'],
    .plus true (.chr quotedChar), .lit ['(']]

/-- `^define\s.*?\s(\S+)\s@[A-Za-z0-9_.$"]+\(` -/
def headerRe : Pattern :=
  .cat [.textStart, .lit "define".toList, .chr isSpace, anyInLine, typeRe]

/-- The type that a signature line is read as. -/
def headerType (line : Text) : Option Text := (headerRe.matchStart line).map fun m => m.group 1

/-- `^\s*(?:tail\s+)?call void @llvm\.trap\(\)` -/
def trapRe : Pattern :=
  .cat [.textStart, .star true (.chr isSpace),
    .opt (.cat [.lit "tail".toList, .plus true (.chr isSpace)]),
    .lit "call void @llvm.trap()".toList]

/-- `i\d+` -/
def intRe : Pattern := .cat [.lit ['i'], .plus true (.chr Char.isDigit)]

/-- `^(\s+)unreachable\b(.*)$` -/
def unreachableRe : Pattern :=
  .cat [.textStart, .group 1 (.plus true (.chr isSpace)), .lit "unreachable".toList,
    .wordBoundary, .group 2 (.star true (.chr fun c => c != '\n')), .textEnd]

/-- `(,\s*!dbg\s+!\d+)` -/
def debugRe : Pattern :=
  .group 1 (.cat [.lit [','], .star true (.chr isSpace), .lit "!dbg".toList,
    .plus true (.chr isSpace), .lit ['!'], .plus true (.chr Char.isDigit)])

/-- `str.strip()` -/
def strip (text : Text) : Text := ((text.dropWhile isSpace).reverse.dropWhile isSpace).reverse

def printInt : Int → Text
  | .ofNat n => printNat n
  | .negSucc n => '-' :: printNat (n + 1)

def trapCall (line : Text) : Bool := (trapRe.matchStart line).isSome

def startsUnreachable (line : Text) : Bool := "unreachable".toList.isPrefixOf (strip line)

/-- A line of the output: a line of the input, or a `ret` between its indent and
its metadata. -/
inductive Emitted where
  | copied (line : Text)
  | ret (indent instruction metadata : Text)
  deriving DecidableEq, Repr

def Emitted.line : Emitted → Text
  | .copied line => line
  | .ret indent instruction metadata => indent ++ instruction ++ metadata

/-- What `trap_to_ret` writes for a trap. -/
def trapReturn (cookie : Int) : Option Text → Option Text
  | none => none
  | some type =>
      if type = "void".toList then some "ret void".toList
      else if intRe.fullMatch type then
        some ("ret ".toList ++ type ++ ' ' :: printInt cookie)
      else none

section Loops

variable {Owner : Type}

/-- The loop of `trap_to_ret`. -/
def trapLoop (cookie : Int) : Option Text → List (Owner × Text) → List (Owner × Emitted)
  | _, [] => []
  | _, [(owner, line)] => [(owner, .copied line)]
  | current, (owner, line) :: (nextOwner, next) :: rest =>
      let type := (headerType line).or current
      if trapCall line && startsUnreachable next then
        match trapReturn cookie type with
        | some instruction =>
            (owner, .ret "  ".toList instruction []) :: trapLoop cookie type rest
        | none => (owner, .copied line) :: trapLoop cookie type ((nextOwner, next) :: rest)
      else (owner, .copied line) :: trapLoop cookie type ((nextOwner, next) :: rest)

/-- What `bpf_finalize` writes for an `unreachable`. -/
def zeroReturn (type : Text) : Text :=
  if type = "void".toList then "ret void".toList
  else if intRe.fullMatch type then "ret ".toList ++ type ++ " 0".toList
  else if "ptr".toList.isPrefixOf type then "ret ".toList ++ type ++ " null".toList
  else "ret ".toList ++ type ++ " zeroinitializer".toList

def zeroLine (type line : Text) : Emitted :=
  match unreachableRe.matchStart line with
  | none => .copied line
  | some m =>
      .ret (m.group 1) (zeroReturn type)
        (((debugRe.search (m.group 2)).map fun found => found.group 1).getD [])

/-- The last loop of `bpf_finalize`. -/
def zeroLoop : Text → List (Owner × Text) → List (Owner × Emitted)
  | _, [] => []
  | current, (owner, line) :: rest =>
      let type := (headerType line).getD current
      (owner, zeroLine type line) :: zeroLoop type rest

end Loops

/-- `trap_to_ret` from text to text. -/
def trapToRet (cookie : Int) (text : Text) : Text :=
  joinLines ((trapLoop cookie none ((splitLines text).map fun line => ((), line))).map
    fun emitted => emitted.2.line)

/-- The part of `bpf_finalize` behind the comment on `noreturn`, from text to text. -/
def zeroReturns (text : Text) : Text :=
  joinLines ((zeroLoop "void".toList ((splitLines text).map fun line => ((), line))).map
    fun emitted => emitted.2.line)

/-! ## The type on a signature line -/

/-- A word, the text behind it, a symbol in that text: the word and what stands
behind the symbol. -/
def closeType (word : Text) : Text → Option (Text × Text)
  | _ :: '@' :: more =>
      if word = [] then none
      else (closeSymbol (more.takeWhile quotedChar) (more.dropWhile quotedChar)).map
        fun place => (word, place.2)
  | _ => none

theorem closeType_nil (tail : Text) : closeType [] tail = none := by
  unfold closeType
  split <;> rfl

/-- White space, a word, white space and a symbol. -/
def typeHere : Text → Option (Text × Text)
  | [] => none
  | c :: rest =>
      if isSpace c then closeType (rest.takeWhile nonSpace) (rest.dropWhile nonSpace) else none

/-- The first word that stands in front of a symbol. -/
def typeIn (text : Text) : Option Text :=
  (places (fun _ text => typeHere text) [] text).head?.map Prod.fst

section Run

variable {Answer : Type} {next : Cursor → Option Answer} {past text : Text}
  {groups : List (Nat × Text)}

theorem run_quotedSymbol :
    ∃ before, (Pattern.cat [.plus true (.chr quotedChar), .lit ['(']]).run next
      ⟨past, text, groups⟩ =
      match closeSymbol (text.takeWhile quotedChar) (text.dropWhile quotedChar) with
      | some place => next ⟨before, place.2, groups⟩
      | none => none := by
  have stuck : ∀ past d more, quotedChar d = true →
      (Pattern.cat [.lit ['(']]).run next ⟨past, d :: more, groups⟩ = none := by
    intro past d more accepted
    apply Pattern.run_lit_absent
    rintro ⟨others, same⟩
    cases same
    exact absurd accepted (by decide)
  rw [Pattern.run_cat_cons, Pattern.run_plus_maximal stuck]
  cases text.takeWhile quotedChar with
  | nil => exact ⟨[], rfl⟩
  | cons c word =>
      rw [if_neg (by simp)]
      cases text.dropWhile quotedChar with
      | nil => exact ⟨[], rfl⟩
      | cons d left =>
          by_cases closes : d = '('
          · subst closes
            rw [Pattern.run_cat_cons, show '(' :: left = ['('] ++ left from rfl,
              Pattern.run_lit_append]
            exact ⟨_, rfl⟩
          · rw [closeSymbol_of_ne closes]
            refine ⟨[], ?_⟩
            apply Pattern.run_lit_absent
            rintro ⟨others, same⟩
            cases same
            exact closes rfl

theorem run_typeRe :
    ∃ before, typeRe.run next ⟨past, text, groups⟩ =
      match typeHere text with
      | some place => next ⟨before, place.2, (1, place.1) :: groups⟩
      | none => none := by
  cases text with
  | nil => exact ⟨[], rfl⟩
  | cons c rest =>
      rw [typeRe, Pattern.run_cat_cons, Pattern.run_chr_cons, typeHere]
      by_cases white : isSpace c = true
      · have stuck : ∀ past d more groups, nonSpace d = true →
            (Pattern.cat [.chr isSpace, .lit ['@'], .plus true (.chr quotedChar), .lit ['(']]).run
              next ⟨past, d :: more, groups⟩ = none := by
          intro past d more groups accepted
          rw [nonSpace, Bool.not_eq_true'] at accepted
          rw [Pattern.run_cat_cons, Pattern.run_chr_cons, accepted]
          rfl
        rw [if_pos white, if_pos white, Pattern.run_cat_cons,
          Pattern.run_group_plus_maximal stuck]
        cases word : rest.takeWhile nonSpace with
        | nil =>
            refine ⟨[], ?_⟩
            rw [if_pos rfl, closeType_nil]
        | cons d others =>
            rw [if_neg (by simp)]
            cases tail : rest.dropWhile nonSpace with
            | nil => exact ⟨[], rfl⟩
            | cons e more =>
                have blank : isSpace e = true := by
                  have stopped := @List.head?_dropWhile_not _ nonSpace rest
                  rw [tail] at stopped
                  simpa [nonSpace] using stopped
                rw [Pattern.run_cat_cons, Pattern.run_chr_cons, if_pos blank,
                  Pattern.run_cat_cons]
                cases more with
                | nil => exact ⟨[], rfl⟩
                | cons f left =>
                    by_cases sign : f = '@'
                    · subst sign
                      obtain ⟨before, found⟩ := @run_quotedSymbol _ next
                        ('@' :: e :: ((d :: others).reverse ++ c :: past)) left
                        ((1, d :: others) :: groups)
                      refine ⟨before, ?_⟩
                      rw [show '@' :: left = ['@'] ++ left from rfl, Pattern.run_lit_append]
                      refine found.trans ?_
                      simp only [List.singleton_append, closeType, reduceCtorEq, if_false]
                      cases closeSymbol (left.takeWhile quotedChar) (left.dropWhile quotedChar) <;>
                        rfl
                    · have none_ : closeType (d :: others) (e :: f :: left) = none := by
                        unfold closeType
                        split
                        · rename_i equality
                          simp only [List.cons.injEq] at equality
                          exact absurd equality.2.1 sign
                        · rfl
                      rw [none_]
                      refine ⟨[], ?_⟩
                      apply Pattern.run_lit_absent
                      rintro ⟨more, same⟩
                      cases same
                      exact sign rfl
      · rw [if_neg white, if_neg white]
        exact ⟨[], rfl⟩

end Run

theorem length_of_typeHere {text : Text} {place : Text × Text}
    (found : typeHere text = some place) : place.2.length < text.length := by
  cases text with
  | nil => cases found
  | cons c rest =>
      rw [typeHere] at found
      split at found
      · unfold closeType at found
        split at found
        · rename_i d more tail
          split at found
          · cases found
          · obtain ⟨symbol, closed, rfl⟩ := Option.map_eq_some_iff.mp found
            obtain ⟨-, -, paren⟩ := closeSymbol_eq_some closed
            have shorter := (@List.dropWhile_sublist _ rest nonSpace).length_le
            have shorterMore := (@List.dropWhile_sublist _ more quotedChar).length_le
            rw [tail] at shorter
            rw [paren] at shorterMore
            simp only [List.length_cons] at shorter shorterMore ⊢
            omega
        · cases found
      · cases found

/-- The signature pattern reads the first word in front of a symbol. -/
theorem headerType_eq {line : Text} (oneLine : '\n' ∉ line) :
    headerType line = (afterKeyword "define".toList line).bind typeIn := by
  have anchored : headerRe.matchStart line =
      (keywordRe "define".toList (.seq anyInLine typeRe)).matchAt [] line := rfl
  rw [headerType, anchored]
  cases found : afterKeyword "define".toList line with
  | none =>
      rw [matchAt_keywordRe_eq_none found]
      rfl
  | some rest =>
      obtain ⟨c, white, rfl⟩ := afterKeyword_eq_some found
      have clean : '\n' ∉ rest := fun member => oneLine (by simp [member])
      have tried : ∀ before after, rest = before ++ after → after ≠ [] →
          (typeRe.run (wholeMatch ("define".toList ++ c :: rest))
            ⟨before.reverse ++ c :: "define".toList.reverse, after, []⟩).map
            (fun m => m.group 1) = (typeHere after).bind fun place => some place.1 := by
        intro before after split filled
        obtain ⟨stop, ran⟩ := @run_typeRe Match (wholeMatch ("define".toList ++ c :: rest))
          (before.reverse ++ c :: "define".toList.reverse) after []
        rw [ran]
        cases place : typeHere after with
        | none => rfl
        | some place =>
            have shorter := length_of_typeHere ‹_›
            refine map_wholeMatch ?_ fun groups => (groups.lookup 1).getD []
            simp only [split, List.length_append, List.length_cons]
            omega
      have first := @run_anyInLine Match (wholeMatch ("define".toList ++ c :: rest))
        (c :: "define".toList.reverse) rest [] _ Text typeRe (fun _ text => typeHere text)
        (fun m => m.group 1) (fun place => some place.1) clean (fun past => rfl) tried
      rw [matchAt_keywordRe rfl white, List.append_nil, Pattern.run_seq, first, findSome?_fst,
        places_past typeHere _ []]
      rfl

end LibarenaRs.Linker
