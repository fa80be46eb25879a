import LibarenaRs.Btf.Frame
import LibarenaRs.Btf.Reading

/-!
# When the naming rule holds after a rename

The test and the repair of the script disagree with the rule on three kinds of
names: the empty one, those that start with a digit, and identifiers followed by
a newline.  Without those, and without a name the script cannot decode, one run
establishes the rule and a second changes nothing.
-/

namespace LibarenaRs.Btf

open LibarenaRs.Memory LibarenaRs.Regex

/-- The kinds whose names need not be identifiers. -/
def Kind.Exempt (kind : Kind) : Prop := kind = .int ∨ kind = .datasec ∨ kind = .declTag

/-- The naming rule, for one type. -/
structure Record.Acceptable (strings : Bytes) (record : Record) : Prop where
  ident : record.nameOff ≠ 0 → ¬record.kind.Exempt →
    ∃ name, IsIdent name ∧ record.name strings = encode name
  primitive : record.nameOff ≠ 0 → record.kind = .int →
    ∀ entry ∈ RENAME, record.name strings ≠ encode entry.1

/-- The names that the script leaves unacceptable. -/
def Unrepaired (name : Text) : Prop :=
  name = [] ∨ (∃ c rest, name = c :: rest ∧ c.isDigit = true) ∨
    ∃ ident, IsIdent ident ∧ name = ident ++ ['\n']

/-- No type that must have an identifier for a name has one of those. -/
def Object.Repairable (object : Object) : Prop :=
  ∀ record ∈ object.blob.records, record.nameOff ≠ 0 → ¬record.kind.Exempt →
    ∀ name, decode (record.name object.blob.strings) = .ok name → ¬Unrepaired name

/-- One run goes through and leaves an object whose types are acceptable, with
the names that were acceptable before; another run leaves that file as it is. -/
def Object.MeetsRule (object : Object) : Prop :=
  ∃ after : Object, (∃ outcome, main object.buf = .ok outcome) ∧
    after.buf = fileAfter object.buf ∧
    (∀ record ∈ after.blob.records, record.Acceptable after.blob.strings) ∧
    List.Forall₂ (fun old new => new.kind = old.kind ∧
      (old.nameOff ≠ 0 → old.Acceptable object.blob.strings →
        new.name after.blob.strings = old.name object.blob.strings))
      object.blob.records after.blob.records ∧
    fileAfter after.buf = after.buf

theorem encode_injective {first second : Text} (same : encode first = encode second) :
    first = second := by
  have decoded := decode_encode first
  rw [same, decode_encode] at decoded
  exact (Except.ok.inj decoded).symm

theorem not_isIdent_newline {ident : Text} : ¬IsIdent (ident ++ ['\n']) := by
  cases ident with
  | nil => decide
  | cons c rest =>
      rintro ⟨-, accepted⟩
      exact absurd (accepted '\n' (by simp)) (by decide)

/-- Names of types that are not exempt are tested with the pattern. -/
theorem newName_of_not_exempt {kind : Kind} (tested : ¬kind.Exempt) (name : Text) :
    newName kind name = if valid_ident name then none else some (underscored name) := by
  cases kind <;> first | rfl | exact absurd (by simp [Kind.Exempt]) tested

/-- Where the pattern and the repair agree with the rule. -/
theorem not_unrepaired_iff {name : Text} :
    ¬Unrepaired name ↔
      (valid_ident name = true → IsIdent name) ∧
        (valid_ident name = false → IsIdent (underscored name)) := by
  have repaired : IsIdent (underscored name) ↔ ∃ c rest, name = c :: rest ∧ c.isDigit = false := by
    rw [underscored, ← sanitize_eq]
    exact isIdent_sanitize_iff
  constructor
  · intro good
    constructor
    · intro valid
      rcases valid_ident_iff.mp valid with ident | newline
      · exact ident
      · exact absurd (Or.inr (Or.inr newline)) good
    · intro _
      rw [repaired]
      cases name with
      | nil => exact absurd (Or.inl rfl) good
      | cons c rest =>
          refine ⟨c, rest, rfl, ?_⟩
          cases digit : c.isDigit with
          | false => rfl
          | true => exact absurd (Or.inr (Or.inl ⟨c, rest, rfl, digit⟩)) good
  · rintro ⟨whenValid, whenNot⟩ bad
    cases valid : valid_ident name with
    | true =>
        have ident := whenValid valid
        rcases bad with rfl | ⟨c, rest, rfl, digit⟩ | ⟨base, -, rfl⟩
        · exact ident
        · rw [IsIdent, identStart_of_isDigit digit] at ident
          cases ident.1
        · exact not_isIdent_newline ident
    | false =>
        obtain ⟨c, rest, rfl, notDigit⟩ := repaired.mp (whenNot valid)
        rcases bad with empty | ⟨d, others, split, digit⟩ | newline
        · cases empty
        · obtain ⟨rfl, rfl⟩ := List.cons.inj split
          rw [notDigit] at digit
          cases digit
        · rw [valid_ident_iff.mpr (Or.inr newline)] at valid
          cases valid

/-- The rule for a type whose name is known. -/
theorem Record.acceptable_iff {strings : Bytes} {record : Record} {name : Text}
    (named : record.name strings = encode name) :
    record.Acceptable strings ↔
      (record.nameOff ≠ 0 → ¬record.kind.Exempt → IsIdent name) ∧
        (record.nameOff ≠ 0 → record.kind = .int → RENAME.lookup name = none) := by
  constructor
  · rintro ⟨ident, primitive⟩
    refine ⟨?_, ?_⟩
    · intro nonzero tested
      obtain ⟨other, isIdent, same⟩ := ident nonzero tested
      rw [encode_injective (named.symm.trans same)]
      exact isIdent
    · intro nonzero isInt
      rw [List.lookup_eq_none_iff]
      intro entry membership
      rw [bne_iff_ne]
      rintro rfl
      exact primitive nonzero isInt entry membership named
  · rintro ⟨ident, primitive⟩
    refine ⟨fun nonzero tested => ⟨name, ident nonzero tested, named⟩, ?_⟩
    intro nonzero isInt entry membership same
    have missing := List.lookup_eq_none_iff.mp (primitive nonzero isInt) entry membership
    rw [bne_iff_ne] at missing
    exact missing (encode_injective (named.symm.trans same))

/-- The name of a type after the run. -/
theorem Record.name_renamed {blob : Blob} (fits : blob.Fits) {record : Record}
    (membership : record ∈ blob.records) (nonzero : record.nameOff ≠ 0) :
    (record.renamed blob.strings blob.newNames).name (blob.strings ++ blob.appendix) =
      match record.newName? blob.strings with
      | none => record.name blob.strings
      | some new => encode new := by
  cases needed : record.newName? blob.strings with
  | none =>
      rw [Blob.renamed_eq_self needed]
      exact ((hasString_of_mem (blob.named record membership nonzero)).append _).stringAt
  | some new =>
      have asked := Blob.mem_newNames.mpr ⟨record, membership, needed⟩
      rw [Record.name, Blob.renamed_nameOff fits membership needed]
      exact (Blob.hasString_newOff asked).stringAt

theorem Record.kind_renamed (strings : Bytes) (names : List Text) (record : Record) :
    (record.renamed strings names).kind = record.kind := by
  unfold Record.renamed
  split <;> rfl

/-- A type before and after a run that goes through. -/
structure RecordSettled (strings newStrings : Bytes) (old new : Record) : Prop where
  kind : new.kind = old.kind
  unnamed : old.nameOff = 0 → new.nameOff = 0
  named : old.nameOff ≠ 0 → new.nameOff ≠ 0 ∧ ∃ name, decode (old.name strings) = .ok name ∧
    new.name newStrings = encode ((newName old.kind name).getD name)

theorem Record.settled_renamed {blob : Blob} (fits : blob.Fits) {record : Record}
    (membership : record ∈ blob.records) (decodes : record.Decodes blob.strings) :
    RecordSettled blob.strings (blob.strings ++ blob.appendix) record
      (record.renamed blob.strings blob.newNames) := by
  refine ⟨Record.kind_renamed _ _ _, ?_, ?_⟩
  · intro zero
    rw [Blob.renamed_eq_self (if_pos zero), zero]
  · intro nonzero
    obtain ⟨name, decoded⟩ := decodes nonzero
    have needs : record.newName? blob.strings = newName record.kind name := by
      rw [Record.newName?, if_neg nonzero, decoded]
    refine ⟨?_, name, decoded, ?_⟩
    · cases needed : record.newName? blob.strings with
      | none =>
          rw [Blob.renamed_eq_self needed]
          exact nonzero
      | some new =>
          have start := Blob.newOff_ge (Blob.mem_newNames.mpr ⟨record, membership, needed⟩)
          have inside := (hasString_of_mem (blob.named record membership nonzero)).inside
          intro zero
          have offset := Blob.renamed_nameOff fits membership needed
          rw [zero] at offset
          change 0 = _ at offset
          omega
    · rw [Record.name_renamed fits membership nonzero, needs]
      cases newName record.kind name with
      | none => exact (encode_of_decode decoded).symm
      | some new => rfl

theorem Record.settled_self {strings : Bytes} {record : Record}
    (decodes : record.Decodes strings) (kept : record.newName? strings = none) :
    RecordSettled strings strings record record := by
  refine ⟨rfl, id, ?_⟩
  intro nonzero
  obtain ⟨name, decoded⟩ := decodes nonzero
  rw [Record.newName?, if_neg nonzero, decoded] at kept
  simp only at kept
  refine ⟨nonzero, name, decoded, ?_⟩
  rw [kept]
  exact (encode_of_decode decoded).symm

/-- A type is acceptable after the run unless its name is beyond repair. -/
theorem RecordSettled.acceptable_iff {strings newStrings : Bytes} {old new : Record}
    (settled : RecordSettled strings newStrings old new) :
    new.Acceptable newStrings ↔
      (old.nameOff ≠ 0 → ¬old.kind.Exempt → ∀ name, decode (old.name strings) = .ok name →
        ¬Unrepaired name) := by
  by_cases zero : old.nameOff = 0
  · have unnamed := settled.unnamed zero
    exact ⟨fun _ nonzero => absurd zero nonzero,
      fun _ => ⟨fun nonzero => absurd unnamed nonzero, fun nonzero => absurd unnamed nonzero⟩⟩
  · obtain ⟨newNonzero, name, decoded, named⟩ := settled.named zero
    have only : ∀ other, decode (old.name strings) = .ok other → other = name := by
      intro other found
      exact Except.ok.inj (found.symm.trans decoded)
    rw [Record.acceptable_iff named, settled.kind]
    by_cases exempt : old.kind.Exempt
    · constructor
      · intro _ _ tested
        exact absurd exempt tested
      · intro _
        refine ⟨fun _ tested => absurd exempt tested, ?_⟩
        intro _ isInt
        rw [isInt]
        cases found : RENAME.lookup name with
        | none => simp [newName, found]
        | some canonical => simpa [newName, found] using lookup_canonical found
    · have notInt : old.kind ≠ .int := fun isInt => exempt (Or.inl isInt)
      have final : (IsIdent ((newName old.kind name).getD name)) ↔ ¬Unrepaired name := by
        rw [newName_of_not_exempt exempt, not_unrepaired_iff]
        cases valid : valid_ident name with
        | true => simp
        | false => simp
      constructor
      · rintro ⟨ident, -⟩ nonzero _ other found
        rw [only other found]
        exact final.mp (ident newNonzero exempt)
      · intro repaired
        refine ⟨fun _ _ => final.mpr (repaired zero exempt name decoded), ?_⟩
        intro _ isInt
        exact absurd isInt notInt

theorem RecordSettled.decodes {strings newStrings : Bytes} {old new : Record}
    (settled : RecordSettled strings newStrings old new) : new.Decodes newStrings := by
  intro nonzero
  by_cases zero : old.nameOff = 0
  · exact absurd (settled.unnamed zero) nonzero
  · obtain ⟨-, name, -, named⟩ := settled.named zero
    exact ⟨_, by rw [named, decode_encode]⟩

/-- What is acceptable keeps its name. -/
theorem Record.newName?_of_acceptable {strings : Bytes} {record : Record}
    (acceptable : record.Acceptable strings) : record.newName? strings = none := by
  unfold Record.newName?
  by_cases zero : record.nameOff = 0
  · rw [if_pos zero]
  · rw [if_neg zero]
    cases decoded : decode (record.name strings) with
    | error error => rfl
    | ok name =>
        have named := (encode_of_decode decoded).symm
        obtain ⟨ident, primitive⟩ := (Record.acceptable_iff named).mp acceptable
        by_cases isInt : record.kind = .int
        · simp only [isInt, newName]
          exact primitive zero isInt
        · by_cases exempt : record.kind.Exempt
          · rcases exempt with same | same | same
            · exact absurd same isInt
            · simp only [same, newName]
            · simp only [same, newName]
          · simp only [newName_of_not_exempt exempt]
            rw [if_pos (valid_ident_iff.mpr (Or.inl (ident zero exempt)))]

theorem RecordSettled.name_kept {strings newStrings : Bytes} {old new : Record}
    (settled : RecordSettled strings newStrings old new) (nonzero : old.nameOff ≠ 0)
    (acceptable : old.Acceptable strings) : new.name newStrings = old.name strings := by
  obtain ⟨-, name, decoded, named⟩ := settled.named nonzero
  have kept := Record.newName?_of_acceptable acceptable
  rw [Record.newName?, if_neg nonzero, decoded] at kept
  simp only at kept
  rw [named, kept]
  exact encode_of_decode decoded

theorem forall_mem_iff_of_forall₂ {α β : Type*} {relation : α → β → Prop} {first : α → Prop}
    {second : β → Prop} {olds : List α} {news : List β} (related : List.Forall₂ relation olds news)
    (pairs : ∀ old new, relation old new → (second new ↔ first old)) :
    (∀ new ∈ news, second new) ↔ ∀ old ∈ olds, first old := by
  induction related with
  | nil => simp
  | cons head _ inductionHypothesis =>
      rw [List.forall_mem_cons, List.forall_mem_cons, inductionHypothesis, pairs _ _ head]

namespace Object

/-- The object that a run leaves. -/
theorem exists_settled (object : Object) (accepted : object.Accepted) :
    ∃ after : Object, after.buf = fileAfter object.buf ∧
      NamesDecode after.buf after.index ∧
      List.Forall₂ (RecordSettled object.blob.strings after.blob.strings)
        object.blob.records after.blob.records := by
  obtain ⟨decodes, room⟩ := accepted
  by_cases needs : object.Renames
  · have fits := room needs
    refine ⟨object.rewritten fits, ?_, object.namesDecode_output _ decodes.sections, ?_⟩
    · rw [fileAfter, object.main_rewritten decodes needs fits]
      rfl
    · change List.Forall₂ _ object.blob.records (object.blob.records.map _)
      rw [List.forall₂_map_right_iff, List.forall₂_same]
      intro record membership
      exact Record.settled_renamed fits.strings membership (decodes.types record membership)
  · refine ⟨object, ?_, decodes.sections, ?_⟩
    · rw [fileAfter, object.main_unchanged decodes needs]
      rfl
    · rw [List.forall₂_same]
      intro record membership
      exact Record.settled_self (decodes.types record membership)
        (object.not_renames_iff.mp needs record membership)

theorem accepted_of_main_ok (object : Object) {outcome : Outcome}
    (ran : main object.buf = .ok outcome) : object.Accepted := by
  by_contra refused
  obtain ⟨error, raised⟩ := object.raises_of_not_accepted refused
  rw [raised] at ran
  cases ran

theorem MeetsRule.accepted {object : Object} (meets : object.MeetsRule) : object.Accepted := by
  obtain ⟨_, ⟨outcome, ran⟩, -⟩ := meets
  exact object.accepted_of_main_ok ran

theorem MeetsRule.repairable {object : Object} (meets : object.MeetsRule) :
    object.Repairable := by
  obtain ⟨left, final, -, settled⟩ := object.exists_settled meets.accepted
  obtain ⟨after, -, written, acceptable, -, -⟩ := meets
  obtain rfl := Object.eq_of_buf (written.trans final.symm)
  exact (forall_mem_iff_of_forall₂ settled fun old new pair => pair.acceptable_iff).mp acceptable

end Object

/-- The rule is established, and a second run changes nothing, exactly where the
script goes through and no name is beyond repair. -/
theorem btf_rename_meetsRule_iff (object : Object) :
    object.MeetsRule ↔ object.Accepted ∧ object.Repairable := by
  constructor
  · exact fun meets => ⟨meets.accepted, meets.repairable⟩
  · rintro ⟨accepted, repairable⟩
    obtain ⟨after, written, sections, settled⟩ := object.exists_settled accepted
    have acceptable := (forall_mem_iff_of_forall₂ settled
      fun old new pair => pair.acceptable_iff).mpr repairable
    have decodes : after.Decodes := by
      refine ⟨sections, ?_⟩
      exact (forall_mem_iff_of_forall₂ settled fun old new pair =>
        ⟨fun _ => trivial, fun _ => pair.decodes⟩).mpr fun _ _ => trivial
    have kept : ¬after.Renames := after.not_renames_iff.mpr fun record membership =>
      Record.newName?_of_acceptable (acceptable record membership)
    refine ⟨after, ?_, written, acceptable, ?_, ?_⟩
    · by_cases needs : object.Renames
      · exact ⟨_, object.main_rewritten accepted.1 needs (accepted.2 needs)⟩
      · exact ⟨_, object.main_unchanged accepted.1 needs⟩
    · exact List.Forall₂.imp (fun old new pair => ⟨pair.kind, pair.name_kept⟩) settled
    · rw [fileAfter, after.main_unchanged decodes kept]
      rfl

def digitNamed : Object where
  buf := sampleFile (sampleBlob 0x31).bytes
  elf := by constructor <;> decide +kernel
  index := 2
  inTable := by decide +kernel
  isBtf := by decide +kernel
  isFirst := by decide +kernel
  blob := sampleBlob 0x31
  inside := by decide +kernel
  payload := by decide +kernel

/-- A type named `1` keeps that name, and every run appends it once more. -/
theorem btf_rename_digit :
    ¬digitNamed.MeetsRule ∧
      fileAfter (fileAfter digitNamed.buf) ≠ fileAfter digitNamed.buf := by
  constructor
  · intro meets
    have decoded : decode (stringAt [0, 0x31, 0] 1) = .ok ['1'] := by decide +kernel
    have bad : Unrepaired ['1'] := Or.inr (Or.inl ⟨'1', [], rfl, by decide⟩)
    refine meets.repairable _ (List.mem_singleton.mpr rfl) (by decide) ?_ _ decoded bad
    rintro (same | same | same) <;> cases same
  · decide +kernel

end LibarenaRs.Btf
