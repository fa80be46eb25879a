import LibarenaRs.Regex.Mentions
import LibarenaRs.Linker.NodeLines
import Mathlib.Data.List.Flatten

/-!
# lower_mem

The pass in front of inlining: the memory intrinsics and libcalls of a module become
calls of the glue, from the text of a module to the text of a module.
-/

namespace LibarenaRs.Linker

open LibarenaRs.Regex LibarenaRs.Llvm

/-! ## The pass -/

def mem : List Text :=
  ["memcpy".toList, "memmove".toList, "memset".toList, "memcmp".toList, "bcmp".toList]

/-- `^(define (?!internal)[^\n]*?@)name\(` -/
def weakDefineRe (name : Text) : Pattern :=
  .cat [.lineStart, .group 1 (.cat [.lit "define ".toList, .notAhead (.lit "internal".toList),
    anyInLine, .lit ['@']]), .lit name, .lit ['(']]

/-- `^(declare [^\n]*?@)name\(` -/
def weakDeclareRe (name : Text) : Pattern :=
  .cat [.lineStart, .group 1 (.cat [.lit "declare ".toList, anyInLine, .lit ['@']]),
    .lit name, .lit ['(']]

/-- The definitions of `compiler_builtins` get out of the way. -/
def setAside (text name : Text) : Text :=
  let aside := fun m : Match => m.group 1 ++ "__cb_".toList ++ name ++ ['(']
  (weakDeclareRe name).sub aside ((weakDefineRe name).sub aside text)

/-- `(?<![A-Za-z0-9_.])@memset\.\d+\b` -/
def suffixedRe : Pattern :=
  .cat [.notBehind dottedChar, .lit "@memset.".toList, .plus true (.chr Char.isDigit),
    .wordBoundary]

/-- The glue's `memset` gets its name back. -/
def restoreMemset (text : Text) : Text := suffixedRe.sub (fun _ => "@memset".toList) text

/-- `(?:tail\s+)?call void @llvm\.memset(?:\.inline)?\.p0\.i64\((ptrA),\s*(i8A),\s*(i64A),\s*i1[^)]*\)` -/
def memsetRe : Pattern :=
  .cat [tailRe, .lit "call void @llvm.".toList, .lit "memset".toList, .opt (.lit ".inline".toList),
    .lit ".p0.i64(".toList, .group 1 (.cat [.lit "ptr".toList, argRe]), .lit [','], blanksRe,
    .group 2 (.cat [.lit "i8".toList, argRe]), .lit [','], blanksRe,
    .group 3 (.cat [.lit "i64".toList, argRe]), .lit [','], blanksRe,
    .lit "i1".toList, .star true (.chr fun c => c != ')'), .lit [')']]

def lowerIntrinsics (text : Text) : Text :=
  memsetRe.sub (glueCall "bpf_arena_memset".toList)
    (memcpyRe.sub (glueCall "bpf_arena_memcpy".toList) text)

def libcalls : List (Text × Text) :=
  [("memcmp".toList, "bpf_arena_memcmp".toList), ("bcmp".toList, "bpf_arena_memcmp".toList),
    ("memcpy".toList, "bpf_arena_memcpy".toList), ("memmove".toList, "bpf_arena_memcpy".toList)]

/-- `(?<![A-Za-z0-9_.])@old\b` -/
def libcallRe (old : Text) : Pattern := .mention dottedChar '@' old

def renameLibcall (text : Text) (names : Text × Text) : Text :=
  (libcallRe names.1).sub (fun _ => '@' :: names.2) text

def renameLibcalls (text : Text) : Text := libcalls.foldl renameLibcall text

/-- The whole script. -/
def lowerMem (text : Text) : Text :=
  dropDefined (renameLibcalls (lowerIntrinsics (restoreMemset (mem.foldl setAside text))))

/-! ## References -/

/-- The symbols that are mentioned, each up to its first character that is no word's. -/
def references (text : Text) : List Text := mentions dottedChar '@' [] text

theorem dottedChar_of_isWord (c : Char) (word : isWord c = true) : dottedChar c = true := by
  rw [dottedChar]
  rw [isWord] at word
  rw [word, Bool.true_or]

theorem libcalls_oneWord : ∀ names ∈ libcalls, OneWord names.1 ∧ OneWord names.2 := by
  intro names member
  simp only [libcalls, List.mem_cons, List.not_mem_nil, or_false] at member
  rcases member with rfl | rfl | rfl | rfl <;>
    exact ⟨⟨by decide, by decide⟩, by decide, by decide⟩

theorem references_renameLibcall {names : Text × Text} (member : names ∈ libcalls) (text : Text) :
    references (renameLibcall text names) = (references text).map (rename names.1 names.2) := by
  obtain ⟨oldWord, newWord⟩ := libcalls_oneWord names member
  exact mentions_sub dottedChar_of_isWord (by decide) oldWord newWord text

/-- The libcalls that the glue does not define under their own names. -/
def lowered : List Text :=
  ["memcmp".toList, "bcmp".toList, "memcpy".toList, "memmove".toList]

/-- The symbol that stands for a libcall in the glue. -/
def glueName (name : Text) : Text :=
  if name = "memcmp".toList ∨ name = "bcmp".toList then "bpf_arena_memcmp".toList
  else if name = "memcpy".toList ∨ name = "memmove".toList then "bpf_arena_memcpy".toList
  else name

/-- One renaming behind the other comes to that. -/
theorem foldl_rename_libcalls (name : Text) :
    libcalls.foldl (fun word pair => rename pair.1 pair.2 word) name = glueName name := by
  by_cases old : name ∈ lowered
  · simp only [lowered, List.mem_cons, List.not_mem_nil, or_false] at old
    rcases old with rfl | rfl | rfl | rfl <;> decide
  · have kept : glueName name = name := by
      simp only [lowered, List.mem_cons, List.not_mem_nil, or_false, not_or] at old
      rw [glueName, if_neg (not_or.mpr ⟨old.1, old.2.1⟩), if_neg (not_or.mpr old.2.2)]
    rw [kept]
    apply foldl_rename_of_ne
    rintro pair member rfl
    have listed : ∀ pair ∈ libcalls, pair.1 ∈ lowered := by decide
    exact old (listed pair member)

theorem references_renameLibcalls (text : Text) :
    references (renameLibcalls text) = (references text).map glueName := by
  have general : ∀ some_ : List (Text × Text), some_ ⊆ libcalls → ∀ text,
      references (some_.foldl renameLibcall text) =
        (references text).map fun name =>
          some_.foldl (fun word pair => rename pair.1 pair.2 word) name := by
    intro some_ among
    induction some_ with
    | nil => exact fun text => (List.map_id' _).symm
    | cons names some_ inductionHypothesis =>
        intro text
        rw [List.foldl_cons, inductionHypothesis (List.subset_of_cons_subset among),
          references_renameLibcall (among List.mem_cons_self), List.map_map]
        rfl
  rw [renameLibcalls, general libcalls (List.Subset.refl _) text]
  exact List.map_congr_left fun name _ => foldl_rename_libcalls name

theorem glueName_not_lowered (name : Text) : glueName name ∉ lowered := by
  unfold glueName
  split
  · decide
  · split
    · decide
    · rename_i compare copy
      simp only [lowered, List.mem_cons, List.not_mem_nil, or_false]
      tauto

theorem references_lines (lines : List Text) :
    references (joinLines lines) = lines.flatMap references := by
  induction lines with
  | nil => rfl
  | cons line lines inductionHypothesis =>
      cases lines with
      | nil => rw [joinLines_singleton, List.flatMap_singleton]
      | cons other others =>
          have behind : mentions dottedChar '@' (line.reverse ++ [])
              ('\n' :: joinLines (other :: others)) = references (joinLines (other :: others)) := by
            rw [mentions, if_neg (by simp), List.nil_append]
            apply mentions_past
            rfl
          rw [joinLines_cons_cons, references, mentions_append _ _ _ (by rfl), behind,
            inductionHypothesis, List.flatMap_cons]
          rfl

/-- The references of a text are those of its lines. -/
theorem references_eq (text : Text) : references text = readFrom references [] text := by
  nth_rewrite 1 [← joinLines_splitLines text]
  rw [references_lines, readFrom_nil]

/-- The text in front of the libcalls. -/
def prepared (text : Text) : Text := lowerIntrinsics (restoreMemset (mem.foldl setAside text))

theorem references_lowerMem_sublist (text : Text) :
    (references (lowerMem text)).Sublist ((references (prepared text)).map glueName) := by
  rw [← references_renameLibcalls, references_eq, references_eq]
  exact readFrom_dropDefined_sublist _

/-- No reference to a libcall is left. -/
theorem not_lowered_of_mem_references {text name : Text} (member : name ∈ references (lowerMem text)) :
    name ∉ lowered := by
  obtain ⟨old, -, rfl⟩ := List.mem_map.mp ((references_lowerMem_sublist text).subset member)
  exact glueName_not_lowered old

/-- What is left of the references, in their order: each libcall has become the symbol that
the glue defines in its place, and only dropped declarations take references away. -/
theorem lowerMem_references (text : Text) :
    (references (lowerMem text)).Sublist ((references (prepared text)).map glueName) ∧
      ((references (prepared text)).map glueName).Perm (references (lowerMem text) ++
        (droppedDeclares (renameLibcalls (prepared text))).flatMap references) ∧
      ∀ name ∈ references (lowerMem text), name ∉ lowered := by
  refine ⟨references_lowerMem_sublist text, ?_, fun name => not_lowered_of_mem_references⟩
  have missing := @readFrom_dropDefined_perm _ references rfl (renameLibcalls (prepared text))
  rw [← references_renameLibcalls, references_eq, references_eq (lowerMem text)]
  rwa [← List.flatMap_congr fun dropped _ => references_eq dropped] at missing

/-- A call of `memcmp` that is lowered. -/
def compareCall : Text := "  %r = call i32 @memcmp(ptr %a, ptr %b, i64 8)\n".toList

example : references (lowerMem compareCall) = ["bpf_arena_memcmp".toList] := by decide +kernel

end LibarenaRs.Linker
