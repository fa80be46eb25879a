import LibarenaRs.Btf.Output

/-!
# What `btf_rename` does to an object

The script raises on names that are not UTF-8 and on tables that outgrow their
fields, and then leaves the file alone.  Otherwise the file it leaves is the
object with the renamed section.
-/

namespace LibarenaRs.Btf

open LibarenaRs.Memory LibarenaRs.Regex

namespace Blob

def typesBase (blob : Blob) : Nat := blob.hdrLen.toNat + blob.typeOff.toNat

/-- The places of the records, in the section. -/
def boundaries (blob : Blob) : List Nat := Btf.boundaries blob.typesBase blob.records

/-- The walk after the records were gone through. -/
def walked (blob : Blob) (renamed : List Record) (names : List Text) : Walk where
  data := blob.header ++ blob.beforeTypes ++ typesBytes renamed ++
    (blob.beforeStrings ++ blob.strings)
  new_strings := names.flatMap stored
  appended := placed stored blob.strings.length names
  renamed := (blob.records.map (Record.renames blob.strings)).sum
  sanitized := (blob.records.map (Record.sanitizes blob.strings)).sum
  visited := blob.boundaries.reverse

/-- The part of `main` from the section data to the walk. -/
theorem walk_eq (blob : Blob) :
    walkTypes (blob.hdrLen.toNat + blob.strOff.toNat) blob.strings.length
      (blob.typesBase + (typesBytes blob.records).length) blob.typesBase
      ⟨blob.bytes, [], [], 0, 0, []⟩ =
      match renameRecords blob.strings [] blob.records with
      | .error error => .error error
      | .ok (renamed, names) => .ok (blob.walked renamed names) := by
  have typesPlace := blob.typesPlace
  have stringsPlace := blob.stringsPlace
  have header : blob.header.length = 24 := by simp [Blob.header]
  rw [walkTypes_records blob.strings blob.beforeStrings blob.records [] _ ⟨rfl, rfl⟩
    (blob.header ++ blob.beforeTypes) _
    (by rw [List.length_append, header, typesBase]; omega) rfl
    (by rw [typesBase]; omega) (by simp [bytes]) blob.named]
  cases renameRecords blob.strings [] blob.records with
  | error error => rfl
  | ok answer => simp [boundaries, walked]

theorem header_fields (blob : Blob) :
    unpackFrom 2 blob.bytes 0 = .ok 0xEB9F ∧
      unpackFrom 4 blob.bytes 4 = .ok blob.hdrLen.toNat ∧
      unpackFrom 4 blob.bytes 8 = .ok blob.typeOff.toNat ∧
      unpackFrom 4 blob.bytes 12 = .ok (typesBytes blob.records).length ∧
      unpackFrom 4 blob.bytes 16 = .ok blob.strOff.toNat ∧
      unpackFrom 4 blob.bytes 20 = .ok blob.strings.length := by
  have read : ∀ (front : Bytes) (width n : Nat) (back : Bytes),
      blob.bytes = front ++ leBytes width n ++ back → n < 256 ^ width →
        unpackFrom width blob.bytes front.length = .ok n := by
    intro front width n back split fits
    rw [split]
    exact unpackFrom_leBytes front back rfl fits
  let front4 := leBytes 2 0xEB9F ++ [blob.version, blob.flags]
  let front8 := front4 ++ leBytes 4 blob.hdrLen.toNat
  let front12 := front8 ++ leBytes 4 blob.typeOff.toNat
  let front16 := front12 ++ leBytes 4 (typesBytes blob.records).length
  let front20 := front16 ++ leBytes 4 blob.strOff.toNat
  refine ⟨?_, ?_, ?_, ?_, ?_, ?_⟩
  · exact read [] 2 0xEB9F _ (by simp only [bytes, header, List.append_assoc, List.nil_append]; rfl)
      (by decide)
  · exact read front4 4 _ _ (by simp only [bytes, header, front4, List.append_assoc]; rfl)
      blob.hdrLen.toNat_lt
  · exact read front8 4 _ _ (by simp only [bytes, header, front8, front4, List.append_assoc]; rfl)
      blob.typeOff.toNat_lt
  · exact read front12 4 _ _
      (by simp only [bytes, header, front12, front8, front4, List.append_assoc]; rfl)
      blob.typesFit
  · exact read front16 4 _ _
      (by simp only [bytes, header, front16, front12, front8, front4, List.append_assoc]; rfl)
      blob.strOff.toNat_lt
  · exact read front20 4 _ _
      (by simp only [bytes, header, front20, front16, front12, front8, front4,
        List.append_assoc]; rfl)
      blob.stringsFit

theorem length_bytes (blob : Blob) :
    blob.bytes.length = blob.hdrLen.toNat + blob.strOff.toNat + blob.strings.length := by
  have stringsPlace := blob.stringsPlace
  have header : blob.header.length = 24 := by simp [Blob.header]
  simp only [bytes, List.length_append, header]
  omega

/-- Extending the strings and their length field gives the renamed section. -/
theorem packInto_renamed (blob : Blob) (fits : blob.Fits) :
    packInto 4 (blob.header ++ blob.beforeTypes ++
        typesBytes (blob.records.map (Record.renamed blob.strings blob.newNames)) ++
        (blob.beforeStrings ++ blob.strings) ++ blob.appendix) 20
      (blob.strings.length + blob.appendix.length) = .ok (blob.renamed fits).bytes := by
  let front := leBytes 2 0xEB9F ++ [blob.version, blob.flags] ++ leBytes 4 blob.hdrLen.toNat ++
    leBytes 4 blob.typeOff.toNat ++ leBytes 4 (typesBytes blob.records).length ++
    leBytes 4 blob.strOff.toNat
  let back := blob.beforeTypes ++
    typesBytes (blob.records.map (Record.renamed blob.strings blob.newNames)) ++
    (blob.beforeStrings ++ blob.strings) ++ blob.appendix
  have old : blob.header ++ blob.beforeTypes ++
      typesBytes (blob.records.map (Record.renamed blob.strings blob.newNames)) ++
      (blob.beforeStrings ++ blob.strings) ++ blob.appendix =
        front ++ leBytes 4 blob.strings.length ++ back := by
    simp only [header, front, back, List.append_assoc]
  have new : (blob.renamed fits).bytes =
      front ++ leBytes 4 (blob.strings.length + blob.appendix.length) ++ back := by
    simp only [bytes, header, renamed, length_typesBytes_renamed, List.length_append, front, back,
      List.append_assoc]
  rw [old, new, packInto_leBytes front _ back (by simp [front]) (length_leBytes 4 _)]
  exact if_pos fits

theorem counts_eq_zero_iff (strings : Bytes) (records : List Record) :
    ((records.map (Record.renames strings)).sum = 0 ∧
      (records.map (Record.sanitizes strings)).sum = 0) ↔
        ∀ record ∈ records, record.newName? strings = none := by
  have one : ∀ record : Record, (record.renames strings = 0 ∧ record.sanitizes strings = 0) ↔
      record.newName? strings = none := by
    intro record
    cases needed : record.newName? strings with
    | none => simp [Record.renames, Record.sanitizes, needed]
    | some name =>
        by_cases isInt : record.kind = .int
        · simp [Record.renames, Record.sanitizes, needed, isInt]
        · simp [Record.renames, Record.sanitizes, needed, isInt]
  induction records with
  | nil => simp
  | cons record records inductionHypothesis =>
      simp only [List.map_cons, List.sum_cons, List.forall_mem_cons, ← inductionHypothesis,
        ← one record]
      omega

end Blob

namespace Object

/-- `main` once the section is found. -/
theorem main_eq (object : Object) (decodes : NamesDecode object.buf object.index) :
    main object.buf =
      match renameRecords object.blob.strings [] object.blob.records with
      | .error error => .error error
      | .ok (renamed, names) =>
          finish object.buf object.header (object.blob.hdrLen.toNat + object.blob.strOff.toNat)
            object.blob.strings.length (object.blob.walked renamed names) := by
  have place := object.blob.length_bytes
  obtain ⟨magic, hdrLen, typeOff, typeLen, strOff, strLen⟩ := object.blob.header_fields
  have large : 24 ≤ object.blob.bytes.length := by
    simp only [Blob.bytes, Blob.header, List.length_append, length_leBytes, List.length_cons,
      List.length_nil]
    omega
  have version : unpackFrom 1 object.blob.bytes 2 = .ok _ := unpackFrom_field (by omega)
  have flags : unpackFrom 1 object.blob.bytes 3 = .ok _ := unpackFrom_field (by omega)
  have walk := object.blob.walk_eq
  simp only [Blob.typesBase] at walk
  simp only [main, object.find_eq decodes, object.payload, magic, version, flags, hdrLen,
    typeOff, typeLen, strOff, strLen, bind, Except.bind, walk]
  cases renameRecords object.blob.strings [] object.blob.records with
  | error error => rfl
  | ok answer => rfl

/-- Some type needs a new name. -/
def Renames (object : Object) : Prop :=
  ∃ record ∈ object.blob.records, record.newName? object.blob.strings ≠ none

theorem not_renames_iff (object : Object) :
    ¬object.Renames ↔
      ∀ record ∈ object.blob.records, record.newName? object.blob.strings = none := by
  simp [Renames]

/-- The records that the walk leaves, where it does not raise. -/
theorem renamed_records (object : Object)
    (types : ∀ record ∈ object.blob.records, record.Decodes object.blob.strings)
    (fits : object.blob.Fits) :
    renameRecords object.blob.strings [] object.blob.records =
      .ok (object.blob.records.map (Record.renamed object.blob.strings object.blob.newNames),
        object.blob.newNames) := by
  obtain ⟨⟨renamed, names⟩, ran⟩ : ∃ answer,
      renameRecords object.blob.strings [] object.blob.records = .ok answer :=
    renameRecords_ok types fits
  obtain ⟨-, rfl, rfl⟩ := renameRecords_eq_ok ran
  exact ran

theorem finish_unchanged (object : Object) (kept : ¬object.Renames) (renamed : List Record)
    (names : List Text) (strBase strLen : Nat) :
    finish object.buf object.header strBase strLen (object.blob.walked renamed names) =
      .ok ⟨none, 0, 0, object.blob.boundaries.reverse⟩ := by
  have zero := (Blob.counts_eq_zero_iff object.blob.strings object.blob.records).mpr
    (object.not_renames_iff.mp kept)
  exact if_pos zero

theorem packInto_eq {width : Nat} {buf : Bytes} {offset value : Nat}
    (inside : offset + width ≤ buf.length) :
    packInto width buf offset value =
      if value < 256 ^ width then .ok (patch buf offset (leBytes width value))
      else .error .structError := by
  by_cases fits : value < 256 ^ width
  · rw [packInto, if_pos ⟨fits, inside⟩, if_pos fits]
  · rw [packInto, if_neg fun both => fits both.1, if_neg fits]

theorem appendSection_eq (object : Object) (data : Bytes) (small : data.length < 2 ^ 64) :
    appendSection object.buf object.header data =
      if object.newOffset < 2 ^ 64 then .ok (object.output data) else .error .structError := by
  have first := object.first_inside data
  have second := object.second_inside data
  rw [length_leBytes] at first second
  have unfolded : appendSection object.buf object.header data =
      match packInto 8 (object.extended data) (object.header.base + 24) object.newOffset with
      | .error error => .error error
      | .ok buf => packInto 8 buf (object.header.base + 32) data.length := by
    unfold appendSection
    change (packInto 8 (object.extended data) (object.header.base + 24) object.newOffset).bind _ = _
    cases packInto 8 (object.extended data) (object.header.base + 24) object.newOffset <;> rfl
  rw [unfolded, packInto_eq first]
  by_cases room : object.newOffset < 2 ^ 64
  · have width : object.newOffset < 256 ^ 8 := room
    rw [if_pos width, if_pos room]
    simp only
    rw [packInto_eq second]
    exact if_pos small
  · have width : ¬object.newOffset < 256 ^ 8 := room
    rw [if_neg width, if_neg room]

theorem finish_renamed (object : Object) (needs : object.Renames) (renamed : List Record)
    (names : List Text)
    (lengths : (typesBytes renamed).length = (typesBytes object.blob.records).length) :
    finish object.buf object.header (object.blob.hdrLen.toNat + object.blob.strOff.toNat)
      object.blob.strings.length (object.blob.walked renamed names) =
      match packInto 4 ((object.blob.walked renamed names).data ++ names.flatMap stored) 20
        (object.blob.strings.length + (names.flatMap stored).length) with
      | .error error => .error error
      | .ok data =>
          match appendSection object.buf object.header data with
          | .error error => .error error
          | .ok written => .ok ⟨some written,
              (object.blob.records.map (Record.renames object.blob.strings)).sum,
              (object.blob.records.map (Record.sanitizes object.blob.strings)).sum,
              object.blob.boundaries.reverse⟩ := by
  have nonzero := fun zero => needs.elim fun record both =>
    both.2 ((Blob.counts_eq_zero_iff object.blob.strings object.blob.records).mp zero record both.1)
  have atEnd : object.blob.hdrLen.toNat + object.blob.strOff.toNat + object.blob.strings.length =
      (object.blob.walked renamed names).data.length := by
    rw [← object.blob.length_bytes]
    simp only [Blob.walked, Blob.bytes, List.length_append, lengths]
    omega
  refine (if_neg nonzero).trans ((if_neg (not_not.mpr atEnd)).trans ?_)
  change (packInto 4 ((object.blob.walked renamed names).data ++ names.flatMap stored) 20
    (object.blob.strings.length + (names.flatMap stored).length)).bind _ = _
  cases packInto 4 ((object.blob.walked renamed names).data ++ names.flatMap stored) 20
      (object.blob.strings.length + (names.flatMap stored).length) with
  | error error => rfl
  | ok data =>
      change (appendSection object.buf object.header data).bind _ = _
      simp only
      cases appendSection object.buf object.header data <;> rfl

theorem main_unchanged (object : Object) (decodes : object.Decodes) (kept : ¬object.Renames) :
    main object.buf = .ok ⟨none, 0, 0, object.blob.boundaries.reverse⟩ := by
  have noNames : object.blob.newNames = [] := by
    apply List.eq_nil_iff_forall_not_mem.mpr
    intro name membership
    obtain ⟨record, inBlob, needed⟩ := Blob.mem_newNames.mp membership
    rw [object.not_renames_iff.mp kept record inBlob] at needed
    cases needed
  have fits : object.blob.Fits := by
    rw [Blob.Fits, Blob.appendix, noNames]
    exact object.blob.stringsFit
  rw [object.main_eq decodes.sections, object.renamed_records decodes.types fits]
  exact object.finish_unchanged kept _ _ _ _

theorem main_rewritten (object : Object) (decodes : object.Decodes) (needs : object.Renames)
    (fits : object.Fits) :
    main object.buf = .ok ⟨some (object.rewritten fits).buf,
      (object.blob.records.map (Record.renames object.blob.strings)).sum,
      (object.blob.records.map (Record.sanitizes object.blob.strings)).sum,
      object.blob.boundaries.reverse⟩ := by
  rw [object.main_eq decodes.sections, object.renamed_records decodes.types fits.strings]
  simp only
  rw [object.finish_renamed needs _ _ (Blob.length_typesBytes_renamed _ _ _)]
  have packed := object.blob.packInto_renamed fits.strings
  simp only [Blob.walked]
  rw [show object.blob.newNames.flatMap stored = object.blob.appendix from rfl, packed]
  simp only
  rw [object.appendSection_eq _ (length_bytes_lt _), if_pos fits.place]
  rfl

theorem main_of_find_error (object : Object)
    (fails : ¬NamesDecode object.buf object.index) : ∃ error, main object.buf = .error error := by
  obtain ⟨error, raised⟩ := object.find_error fails
  refine ⟨error, ?_⟩
  unfold main
  rw [raised]
  rfl

/-- Where the script raises. -/
theorem main_raises (object : Object)
    (refused : ¬object.Decodes ∨ object.Renames ∧ ¬object.Fits) :
    ∃ error, main object.buf = .error error := by
  by_cases sections : NamesDecode object.buf object.index
  · rw [object.main_eq sections]
    cases ran : renameRecords object.blob.strings [] object.blob.records with
    | error error => exact ⟨error, rfl⟩
    | ok answer =>
        obtain ⟨renamed, names⟩ := answer
        obtain ⟨types, rfl, rfl⟩ := renameRecords_eq_ok ran
        rcases refused with undecodable | ⟨needs, unfit⟩
        · exact absurd ⟨sections, types⟩ undecodable
        · simp only
          rw [object.finish_renamed needs _ _ (Blob.length_typesBytes_renamed _ _ _)]
          by_cases strings : object.blob.Fits
          · have full : ¬object.newOffset < 2 ^ 64 := fun place => unfit ⟨strings, place⟩
            have packed := object.blob.packInto_renamed strings
            simp only [Blob.walked]
            rw [show (insertKeys [] (wanted object.blob.strings object.blob.records)).flatMap
              stored = object.blob.appendix from rfl,
              show insertKeys [] (wanted object.blob.strings object.blob.records) =
                object.blob.newNames from rfl, packed]
            simp only
            rw [object.appendSection_eq _ (length_bytes_lt _), if_neg full]
            exact ⟨_, rfl⟩
          · have unpacked : ∀ buf, packInto 4 buf 20 (object.blob.strings.length +
                ((insertKeys [] (wanted object.blob.strings object.blob.records)).flatMap
                  stored).length) = .error .structError := by
              intro buf
              exact if_neg fun both => strings both.1
            rw [unpacked]
            exact ⟨_, rfl⟩
  · exact object.main_of_find_error sections

end Object

end LibarenaRs.Btf
