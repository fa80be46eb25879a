import LibarenaRs.Btf.Walk

/-!
# Finding the section

In a well-formed object every header field can be read, so the search fails
only on a name that is not UTF-8.
-/

namespace LibarenaRs.Btf

open LibarenaRs.Memory LibarenaRs.Regex

theorem unpackFrom_field {width : Nat} {buf : Bytes} {offset : Nat}
    (inside : offset + width ≤ buf.length) :
    unpackFrom width buf offset = .ok (field width buf offset) := if_pos inside

theorem Elf.headerInside {buf : Bytes} (elf : Elf buf) {i : Nat} (inTable : i < shnum buf) :
    shoff buf + i * 64 + 64 ≤ buf.length := by
  have table := elf.tableInside
  omega

theorem Elf.shdr_eq {buf : Bytes} (elf : Elf buf) {i : Nat} (inTable : i < shnum buf) :
    shdr buf (shoff buf) 64 i = .ok (sectionHeader buf i) := by
  have inside := elf.headerInside inTable
  simp only [shdr, unpackFrom_field (show shoff buf + i * 64 + 4 ≤ buf.length by omega),
    unpackFrom_field (show shoff buf + i * 64 + 24 + 8 ≤ buf.length by omega),
    unpackFrom_field (show shoff buf + i * 64 + 32 + 8 ≤ buf.length by omega),
    unpackFrom_field (show shoff buf + i * 64 + 48 + 8 ≤ buf.length by omega)]
  rfl

theorem Elf.hasName {buf : Bytes} (elf : Elf buf) {i : Nat} (inTable : i < shnum buf) :
    HasString buf ((nameTable buf).sh_offset + (sectionHeader buf i).sh_name)
      (sectionName buf i) :=
  hasString_of_mem (elf.named i inTable).1

theorem Elf.checked {buf : Bytes} (elf : Elf buf) : checkElf buf = .ok () := by
  have ident := elf.ident
  obtain ⟨b0, b1, b2, b3, b4, b5, rest, rfl⟩ :
      ∃ b0 b1 b2 b3 b4 b5 rest, buf = b0 :: b1 :: b2 :: b3 :: b4 :: b5 :: rest := by
    have lengths := congrArg List.length ident
    rcases buf with _ | ⟨b0, _ | ⟨b1, _ | ⟨b2, _ | ⟨b3, _ | ⟨b4, _ | ⟨b5, rest⟩⟩⟩⟩⟩⟩
    all_goals first | exact ⟨_, _, _, _, _, _, _, rfl⟩ | simp [slice] at lengths
  simp only [slice, List.drop_zero, List.take_succ_cons, List.take_zero, List.cons.injEq,
    and_true] at ident
  obtain ⟨rfl, rfl, rfl, rfl, rfl, rfl⟩ := ident
  rfl

/-- The names of the sections up to `last` are UTF-8. -/
def NamesDecode (buf : Bytes) (last : Nat) : Prop :=
  ∀ i < last, ∃ name, decode (sectionName buf i) = .ok name

theorem findSection_eq {buf : Bytes} (elf : Elf buf) {want : Text} {index : Nat}
    (inTable : index < shnum buf) (found : sectionName buf index = encode want)
    (first : ∀ i < index, sectionName buf i ≠ encode want) {i left : Nat}
    (counted : i + left = shnum buf) (before : i ≤ index) :
    (NamesDecode buf index →
      findSection buf want (shoff buf) 64 (nameTable buf).sh_offset i left =
        .ok (sectionHeader buf index)) ∧
    ((∃ j, i ≤ j ∧ j < index ∧ ∀ name, decode (sectionName buf j) ≠ .ok name) →
      ∃ error, findSection buf want (shoff buf) 64 (nameTable buf).sh_offset i left =
        .error error) := by
  induction left generalizing i with
  | zero => omega
  | succ left inductionHypothesis =>
      have here : i < shnum buf := by omega
      have unfolded : findSection buf want (shoff buf) 64 (nameTable buf).sh_offset i (left + 1) =
          (decode (sectionName buf i)).bind fun name =>
            if name = want then .ok (sectionHeader buf i)
            else findSection buf want (shoff buf) 64 (nameTable buf).sh_offset (i + 1) left := by
        simp only [findSection, elf.shdr_eq here, readName_eq (elf.hasName here), bind,
          Except.bind]
        cases decode (sectionName buf i) <;> rfl
      rw [unfolded]
      rcases Nat.lt_or_eq_of_le before with earlier | rfl
      · have later := inductionHypothesis (i := i + 1) (by omega) earlier
        constructor
        · intro decodes
          obtain ⟨name, decoded⟩ := decodes i earlier
          have different : name ≠ want := by
            rintro rfl
            exact first i earlier (encode_of_decode decoded).symm
          simp only [decoded, Except.bind, if_neg different]
          exact later.1 decodes
        · rintro ⟨j, low, high, fails⟩
          cases decoded : decode (sectionName buf i) with
          | error error => exact ⟨error, rfl⟩
          | ok name =>
              have different : name ≠ want := by
                rintro rfl
                exact first i earlier (encode_of_decode decoded).symm
              simp only [Except.bind, if_neg different]
              apply later.2
              refine ⟨j, ?_, high, fails⟩
              rcases Nat.lt_or_eq_of_le low with above | rfl
              · exact above
              · exact absurd decoded (fails name)
      · constructor
        · intro _
          rw [found, decode_encode]
          exact if_pos rfl
        · rintro ⟨j, low, high, -⟩
          omega

theorem Elf.elf_find_section_eq {buf : Bytes} (elf : Elf buf) (want : Text) :
    elf_find_section buf want =
      findSection buf want (shoff buf) 64 (nameTable buf).sh_offset 0 (shnum buf) := by
  have table := elf.tableInside
  have start := elf.headerFirst
  have strndx := elf.strndx
  have large : 64 ≤ buf.length := by omega
  have names : shdr buf (field 8 buf 0x28) 64 (field 2 buf 0x3E) = .ok (nameTable buf) :=
    elf.shdr_eq elf.strndx
  simp only [elf_find_section, elf.checked,
    unpackFrom_field (show 0x28 + 8 ≤ buf.length by omega),
    unpackFrom_field (show 0x3A + 2 ≤ buf.length by omega),
    unpackFrom_field (show 0x3C + 2 ≤ buf.length by omega),
    unpackFrom_field (show 0x3E + 2 ≤ buf.length by omega), elf.entsize, bind, Except.bind, names]
  rfl

namespace Object

/-- The names that the script decodes on its way are UTF-8. -/
structure Decodes (object : Object) : Prop where
  sections : NamesDecode object.buf object.index
  types : ∀ record ∈ object.blob.records, record.Decodes object.blob.strings

theorem find_eq (object : Object) (decodes : NamesDecode object.buf object.index) :
    elf_find_section object.buf ".BTF".toList = .ok (sectionHeader object.buf object.index) := by
  rw [object.elf.elf_find_section_eq]
  exact (findSection_eq object.elf object.inTable object.isBtf object.isFirst (Nat.zero_add _)
    (Nat.zero_le _)).1 decodes

theorem find_error (object : Object) (fails : ¬NamesDecode object.buf object.index) :
    ∃ error, elf_find_section object.buf ".BTF".toList = .error error := by
  rw [object.elf.elf_find_section_eq]
  apply (findSection_eq object.elf object.inTable object.isBtf object.isFirst (Nat.zero_add _)
    (Nat.zero_le _)).2
  unfold NamesDecode at fails
  push Not at fails
  obtain ⟨j, high, undecodable⟩ := fails
  exact ⟨j, Nat.zero_le _, high, undecodable⟩

end Object

end LibarenaRs.Btf
