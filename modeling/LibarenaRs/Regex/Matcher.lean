import Mathlib.Data.List.Infix
import Mathlib.Data.List.Basic

/-!
# A backtracking regular expression matcher

The operators of Python's `re` that search by backtracking: ordered
alternatives, greedy and lazy repetition, groups, assertions.  A pattern runs
on a cursor with a continuation for the rest of the match, so the answer is the
one the first successful path gives.  Bodies of repetitions consume text.
-/

namespace LibarenaRs.Regex

abbrev Text := List Char

inductive Pattern where
  | empty
  | lit (word : Text)
  | chr (accepts : Char → Bool)
  | seq (first second : Pattern)
  | alt (first second : Pattern)
  | star (greedy : Bool) (body : Pattern)
  | group (index : Nat) (body : Pattern)
  /-- `^` and `$` without `re.MULTILINE`. -/
  | textStart
  | textEnd
  /-- `^` and `$` with `re.MULTILINE`. -/
  | lineStart
  | lineEnd
  | wordBoundary
  | notAhead (body : Pattern)
  | notBehind (accepts : Char → Bool)

/-- Where a match stands: the text read so far (latest character first), the
text to come, and the groups closed so far (latest first). -/
structure Cursor where
  past : Text
  rest : Text
  groups : List (Nat × Text)

theorem toNat_of_isAlpha {c : Char} (letter : c.isAlpha = true) :
    (65 ≤ c.toNat ∧ c.toNat ≤ 90) ∨ 97 ≤ c.toNat ∧ c.toNat ≤ 122 := by
  rcases Bool.or_eq_true_iff.mp letter with upper | lower
  · exact Or.inl (of_decide_eq_true upper)
  · have both := Bool.and_eq_true_iff.mp lower
    exact Or.inr ⟨of_decide_eq_true both.1, of_decide_eq_true both.2⟩

/-- `\w` of ASCII text. -/
def isWord (c : Char) : Bool := c.isAlphanum || c == '_'

/-- `\s` -/
def isSpace (c : Char) : Bool :=
  (9 ≤ c.toNat && c.toNat ≤ 13) || (28 ≤ c.toNat && c.toNat ≤ 32) ||
  (0x2000 ≤ c.toNat && c.toNat ≤ 0x200a) ||
  [0x85, 0xa0, 0x1680, 0x2028, 0x2029, 0x202f, 0x205f, 0x3000].contains c.toNat

def headIs (accepts : Char → Bool) : Text → Bool
  | [] => false
  | c :: _ => accepts c

def atLineStart (past : Text) : Bool := past.isEmpty || headIs (· == '\n') past

def atLineEnd (rest : Text) : Bool := rest.isEmpty || headIs (· == '\n') rest

/-- The cursor after `read` was taken off the text to come. -/
def Cursor.move (cursor : Cursor) (read rest : Text) : Cursor :=
  ⟨read.reverse ++ cursor.past, rest, cursor.groups⟩

def Cursor.close (cursor : Cursor) (index : Nat) (start : Text) : Cursor :=
  { cursor with
    groups := (index, start.take (start.length - cursor.rest.length)) :: cursor.groups }

variable {Answer : Type}

/-- Repetition of a body that must consume text; the fuel is the length of the
text to come. -/
def repeatBody (body : (Cursor → Option Answer) → Cursor → Option Answer)
    (greedy : Bool) (next : Cursor → Option Answer) : Nat → Cursor → Option Answer
  | 0, cursor => next cursor
  | fuel + 1, cursor =>
      let again := body (fun after =>
        if after.rest.length < cursor.rest.length then
          repeatBody body greedy next fuel after
        else none) cursor
      if greedy then again <|> next cursor else next cursor <|> again

def Pattern.run : Pattern → {Answer : Type} → (Cursor → Option Answer) → Cursor →
    Option Answer
  | .empty, _, next, cursor => next cursor
  | .lit word, _, next, cursor =>
      match cursor.rest.dropPrefix? word with
      | some rest => next (cursor.move word rest)
      | none => none
  | .chr accepts, _, next, cursor =>
      match cursor.rest with
      | [] => none
      | c :: rest => if accepts c then next (cursor.move [c] rest) else none
  | .seq first second, _, next, cursor => first.run (second.run next) cursor
  | .alt first second, _, next, cursor => first.run next cursor <|> second.run next cursor
  | .star greedy body, _, next, cursor =>
      repeatBody body.run greedy next cursor.rest.length cursor
  | .group index body, _, next, cursor =>
      body.run (fun after => next (after.close index cursor.rest)) cursor
  | .textStart, _, next, cursor => if cursor.past.isEmpty then next cursor else none
  | .textEnd, _, next, cursor =>
      if cursor.rest.isEmpty || cursor.rest == ['\n'] then next cursor else none
  | .lineStart, _, next, cursor => if atLineStart cursor.past then next cursor else none
  | .lineEnd, _, next, cursor => if atLineEnd cursor.rest then next cursor else none
  | .wordBoundary, _, next, cursor =>
      if headIs isWord cursor.past != headIs isWord cursor.rest then next cursor else none
  | .notAhead body, _, next, cursor =>
      if (body.run some cursor).isSome then none else next cursor
  | .notBehind accepts, _, next, cursor =>
      if headIs accepts cursor.past then none else next cursor

/-- `p+` -/
def Pattern.plus (greedy : Bool) (body : Pattern) : Pattern := .seq body (.star greedy body)

/-- `p?` -/
def Pattern.opt (body : Pattern) : Pattern := .alt body .empty

/-- Concatenation of a list of patterns. -/
def Pattern.cat : List Pattern → Pattern
  | [] => .empty
  | [last] => last
  | first :: others => .seq first (cat others)

structure Match where
  text : Text
  groups : List (Nat × Text)
  deriving DecidableEq, Repr

/-- `m.group(index)`; the groups that the scripts ask for always took part. -/
def Match.group (m : Match) (index : Nat) : Text := (m.groups.lookup index).getD []

/-- The match that starts here, if any.  Matches consume text. -/
def Pattern.matchAt (pattern : Pattern) (past rest : Text) : Option Match :=
  pattern.run (fun after =>
    if after.rest.length < rest.length then
      some ⟨rest.take (rest.length - after.rest.length), after.groups⟩
    else none) ⟨past, rest, []⟩

/-- `re.match` -/
def Pattern.matchStart (pattern : Pattern) (text : Text) : Option Match :=
  pattern.matchAt [] text

/-- `re.fullmatch`, as a test -/
def Pattern.fullMatch (pattern : Pattern) (text : Text) : Bool :=
  (pattern.run (fun after => if after.rest.isEmpty then some () else none)
    ⟨[], text, []⟩).isSome

/-- A text cut at the matches a scan from left to right finds. -/
inductive Piece where
  | plain (c : Char)
  | hit (m : Match)
  deriving DecidableEq, Repr

/-- Scan the text; `skip` characters of a match just found remain to be passed. -/
def Pattern.scan (pattern : Pattern) : Text → Text → Nat → List Piece
  | _, [], _ => []
  | past, c :: rest, skip + 1 => pattern.scan (c :: past) rest skip
  | past, c :: rest, 0 =>
      match pattern.matchAt past (c :: rest) with
      | some m => .hit m :: pattern.scan (c :: past) rest (m.text.length - 1)
      | none => .plain c :: pattern.scan (c :: past) rest 0

def Piece.hit? : Piece → Option Match
  | .plain _ => none
  | .hit m => some m

/-- `re.finditer` -/
def Pattern.findIter (pattern : Pattern) (text : Text) : List Match :=
  (pattern.scan [] text 0).filterMap Piece.hit?

/-- `re.search` -/
def Pattern.search (pattern : Pattern) (text : Text) : Option Match :=
  (pattern.findIter text).head?

def Piece.render (replace : Match → Text) : Piece → Text
  | .plain c => [c]
  | .hit m => replace m

/-- `re.sub` with a replacement function -/
def Pattern.sub (pattern : Pattern) (replace : Match → Text) (text : Text) : Text :=
  (pattern.scan [] text 0).flatMap (Piece.render replace)

/-- Only the first hit is replaced, the others are put back. -/
def renderFirst (replace : Match → Text) : List Piece → Text
  | [] => []
  | .plain c :: pieces => c :: renderFirst replace pieces
  | .hit m :: pieces => replace m ++ pieces.flatMap (Piece.render Match.text)

/-- `re.sub` with `count=1` -/
def Pattern.subFirst (pattern : Pattern) (replace : Match → Text) (text : Text) : Text :=
  renderFirst replace (pattern.scan [] text 0)

end LibarenaRs.Regex
