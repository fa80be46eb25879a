import LibarenaRs.Regex.Rewriting
import LibarenaRs.Regex.Words

/-!
# What a group captures

A property of all words that a group can read is one of the text that a match keeps
for it, if no way through the pattern goes past the group.
-/

namespace LibarenaRs.Regex

namespace Pattern

/-- No way through the pattern goes past the group. -/
def captures (index : Nat) : Pattern → Bool
  | .seq first second => first.captures index || second.captures index
  | .alt first second => first.captures index && second.captures index
  | .group other body => other == index || body.captures index
  | _ => false

/-- The groups of this number read only words with a property. -/
def Grabs (index : Nat) (good : Text → Prop) : Pattern → Prop
  | .seq first second => first.Grabs index good ∧ second.Grabs index good
  | .alt first second => first.Grabs index good ∧ second.Grabs index good
  | .star _ body => body.Grabs index good
  | .group other body =>
      body.Grabs index good ∧
        (other = index → body.free = true ∧ ∀ word, body.Words word → good word)
  | _ => True

variable {index : Nat} {good : Text → Prop} {start stop : Cursor}

theorem lookup_close (cursor : Cursor) (other : Nat) (text : Text) :
    (cursor.close other text).groups.lookup index =
      if other = index then some (text.take (text.length - cursor.rest.length))
      else cursor.groups.lookup index := by
  rw [Cursor.close, List.lookup_cons]
  by_cases same : other = index
  · rw [if_pos same, same, beq_self_eq_true]
  · rw [if_neg same, beq_false_of_ne (Ne.symm same)]

/-- What is captured stays captured. -/
theorem Reaches.keeps_capture {pattern : Pattern} (reached : pattern.Reaches start stop)
    (known : start.groups.lookup index ≠ none) : stop.groups.lookup index ≠ none := by
  induction pattern generalizing start stop with
  | empty =>
      obtain rfl := reached
      exact known
  | lit word =>
      obtain ⟨rest, -, rfl⟩ := reached
      exact known
  | chr accepts =>
      obtain ⟨c, rest, -, -, rfl⟩ := reached
      exact known
  | seq first second firstKeeps secondKeeps =>
      obtain ⟨middle, before, after⟩ := reached
      exact secondKeeps after (firstKeeps before known)
  | alt first second firstKeeps secondKeeps =>
      cases reached with
      | inl before => exact firstKeeps before known
      | inr after => exact secondKeeps after known
  | star greedy body bodyKeeps =>
      induction reached with
      | refl => exact known
      | tail _ step inductionHypothesis => exact bodyKeeps step.1 inductionHypothesis
  | group other body bodyKeeps =>
      obtain ⟨inner, before, rfl⟩ := reached
      rw [lookup_close]
      split
      · exact Option.some_ne_none _
      · exact bodyKeeps before known
  | textStart | textEnd | lineStart | lineEnd | wordBoundary | notAhead | notBehind =>
      obtain ⟨-, rfl⟩ := reached
      exact known

theorem Reaches.captured {pattern : Pattern} (reached : pattern.Reaches start stop)
    (always : pattern.captures index = true) : stop.groups.lookup index ≠ none := by
  induction pattern generalizing start stop with
  | seq first second firstCaptured secondCaptured =>
      obtain ⟨middle, before, after⟩ := reached
      rw [captures, Bool.or_eq_true] at always
      cases always with
      | inl inFirst => exact after.keeps_capture (firstCaptured before inFirst)
      | inr inSecond => exact secondCaptured after inSecond
  | alt first second firstCaptured secondCaptured =>
      rw [captures, Bool.and_eq_true] at always
      cases reached with
      | inl before => exact firstCaptured before always.1
      | inr after => exact secondCaptured after always.2
  | group other body bodyCaptured =>
      obtain ⟨inner, before, rfl⟩ := reached
      rw [captures, Bool.or_eq_true, beq_iff_eq] at always
      rw [lookup_close]
      split
      · exact Option.some_ne_none _
      · rename_i different
        exact bodyCaptured before (always.resolve_left different)
  | empty | lit | chr | star | textStart | textEnd | lineStart | lineEnd | wordBoundary
  | notAhead | notBehind => cases always

theorem Reaches.grabbed {pattern : Pattern} (reached : pattern.Reaches start stop)
    (grabs : pattern.Grabs index good)
    (known : ∀ word, start.groups.lookup index = some word → good word) :
    ∀ word, stop.groups.lookup index = some word → good word := by
  induction pattern generalizing start stop with
  | empty =>
      obtain rfl := reached
      exact known
  | lit word =>
      obtain ⟨rest, -, rfl⟩ := reached
      exact known
  | chr accepts =>
      obtain ⟨c, rest, -, -, rfl⟩ := reached
      exact known
  | seq first second firstGrabbed secondGrabbed =>
      obtain ⟨middle, before, after⟩ := reached
      exact secondGrabbed after grabs.2 (firstGrabbed before grabs.1 known)
  | alt first second firstGrabbed secondGrabbed =>
      cases reached with
      | inl before => exact firstGrabbed before grabs.1 known
      | inr after => exact secondGrabbed after grabs.2 known
  | star greedy body bodyGrabbed =>
      induction reached with
      | refl => exact known
      | tail _ step inductionHypothesis => exact bodyGrabbed step.1 grabs inductionHypothesis
  | group other body bodyGrabbed =>
      obtain ⟨inner, before, rfl⟩ := reached
      intro word found
      rw [lookup_close] at found
      split at found
      · rename_i same
        obtain ⟨isFree, allGood⟩ := grabs.2 same
        obtain ⟨read, rest, isWord, split, rfl⟩ := (reaches_iff_words isFree).mp before
        have text : word = read := by
          rw [← Option.some.inj found, split, Cursor.move]
          simp
        rw [text]
        exact allGood read isWord
      · exact bodyGrabbed before grabs.1 known word found
  | textStart | textEnd | lineStart | lineEnd | wordBoundary | notAhead | notBehind =>
      obtain ⟨-, rfl⟩ := reached
      exact known

/-- The group of every match of a scan has the property. -/
theorem good_of_mem_findIter {pattern : Pattern} (always : pattern.captures index = true)
    (grabs : pattern.Grabs index good) {text : Text} {m : Match} (member : m ∈ pattern.findIter text) :
    good (m.group index) := by
  obtain ⟨piece, among, hit⟩ := List.mem_filterMap.mp member
  cases piece with
  | plain c => cases hit
  | hit other =>
      obtain rfl := Option.some.inj hit
      obtain ⟨read, rest, -, found⟩ := matchAt_of_mem_scan among
      obtain ⟨stop, reached, -, -, groups⟩ := matchAt_eq_some found
      rw [Match.group, groups]
      cases here : stop.groups.lookup index with
      | none => exact absurd here (reached.captured always)
      | some word => exact reached.grabbed grabs (fun word none_ => nomatch none_) word here

/-- A character that a pattern avoids is in none of its words. -/
theorem clean_of_words {pattern : Pattern} {d : Char} (isFree : pattern.free = true)
    (avoided : pattern.avoids d = true) {word : Text} (isWord : pattern.Words word) : d ∉ word := by
  have path : pattern.Reaches ⟨[], word, []⟩ ⟨word.reverse ++ [], [], []⟩ :=
    (reaches_iff_words isFree).mpr ⟨word, [], isWord, (List.append_nil word).symm, rfl⟩
  obtain ⟨read, whole, clean⟩ := path.read_avoids avoided
  obtain rfl : word = read := by simpa using whole
  exact clean

end Pattern

end LibarenaRs.Regex
