import LibarenaRs.Btf.Format
import Mathlib.Algebra.BigOperators.Group.List.Basic
import Mathlib.Algebra.Ring.Nat

/-!
# The type walk on well-formed types

On the bytes of a list of records the walk of the script is a walk over the
records: one iteration is one record, and the variables of the script are the
names stored so far.
-/

namespace LibarenaRs.Btf

open LibarenaRs.Memory LibarenaRs.Regex

theorem unpackFrom_leBytes (front back : Bytes) {width n offset : Nat}
    (starts : front.length = offset) (fits : n < 256 ^ width) :
    unpackFrom width (front ++ leBytes width n ++ back) offset = .ok n := by
  have inside : offset + width ≤ (front ++ leBytes width n ++ back).length := by
    simp only [List.length_append, length_leBytes]
    omega
  rw [unpackFrom, if_pos inside, slice_part front _ back starts (length_leBytes width n),
    leNat_leBytes fits]

theorem packInto_leBytes (front old back : Bytes) {width n offset : Nat}
    (starts : front.length = offset) (lengths : old.length = width) :
    packInto width (front ++ old ++ back) offset n =
      if n < 256 ^ width then .ok (front ++ leBytes width n ++ back)
      else .error .structError := by
  have inside : offset + width ≤ (front ++ old ++ back).length := by
    simp only [List.length_append]
    omega
  by_cases fits : n < 256 ^ width
  · rw [packInto, if_pos ⟨fits, inside⟩, if_pos fits,
      patch_part front old _ back starts (by rw [lengths, length_leBytes])]
  · rw [packInto, if_neg fun both => fits both.1, if_neg fits]

theorem idxOf?_append_cons {name rest : Bytes} (inName : 0 ∉ name) :
    (name ++ 0 :: rest).idxOf? 0 = some name.length := by
  induction name with
  | nil => simp [List.idxOf?_cons]
  | cons byte name inductionHypothesis =>
      have different : byte ≠ 0 := fun equality => inName (by simp [equality])
      have tail := inductionHypothesis fun membership => inName (List.mem_cons_of_mem _ membership)
      simp [List.idxOf?_cons, different, tail]

theorem readName_eq {buf : Bytes} {start : Nat} {name : Bytes}
    (stands : HasString buf start name) : readName buf start = decode name := by
  obtain ⟨rest, split⟩ := stands.split
  have found : indexNul buf start = .ok (start + name.length) := by
    rw [indexNul, split, idxOf?_append_cons stands.1]
  rw [readName, found]
  change decode (slice buf start (start + name.length - start)) = decode name
  rw [Nat.add_sub_cancel_left, stands.slice_eq]

/-- The script's tables give the lengths of the kernel. -/
theorem extraOf_code (kind : Kind) (vlen : Nat) :
    extraOf kind.code vlen = .ok (kind.extraLength vlen) := by
  cases kind <;> rfl

/-- Which name the two branches of the walk intern. -/
theorem renameType_code (strLen pos : Nat) (kind : Kind) (name : Text) (walk : Walk) :
    renameType strLen pos kind.code name walk =
      match newName kind name with
      | none => .ok walk
      | some new =>
          match rename strLen pos walk new with
          | .error error => .error error
          | .ok walk =>
              if kind = .int then .ok { walk with renamed := walk.renamed + 1 }
              else .ok { walk with sanitized := walk.sanitized + 1 } := by
  by_cases isInt : kind = .int
  · subst isInt
    have code : Kind.int.code = BTF_KIND_INT := rfl
    cases found : RENAME.lookup name with
    | none =>
        simp only [renameType, code, if_true, found, newName]
        simp
        rfl
    | some canonical =>
        simp only [renameType, code, if_true, found, newName]
        cases rename strLen pos walk canonical <;> rfl
  · have code : kind.code ≠ BTF_KIND_INT := by
      cases kind <;> first | exact absurd rfl isInt | decide
    by_cases exempt : kind.code ∈ [15, 17, BTF_KIND_INT]
    · have unnamed : newName kind name = none := by
        cases kind <;> first | rfl | exact absurd rfl isInt | exact absurd exempt (by decide)
      simp only [renameType, if_neg code, exempt, not_true, false_and, if_false, unnamed]
      rfl
    · have tested : newName kind name =
          if valid_ident name then none else some (sanitize name) := by
        rw [sanitize_eq]
        cases kind <;> first | rfl | exact absurd rfl isInt | exact absurd (by decide) exempt
      cases valid : valid_ident name with
      | true =>
          simp only [renameType, if_neg code, valid, not_true, and_false, if_false, tested, if_true]
          rfl
      | false =>
          simp only [renameType, if_neg code, exempt, not_false_iff, valid, Bool.false_eq_true,
            and_true, if_true, tested, if_false, if_neg isInt]
          cases rename strLen pos walk (sanitize name) <;> rfl

/-- The variables of the walk when `names` were interned. -/
structure Interned (strLen : Nat) (names : List Text) (walk : Walk) : Prop where
  appended : walk.appended = placed stored strLen names
  new_strings : walk.new_strings = names.flatMap stored

/-- The walk with other names interned. -/
def Walk.intern (walk : Walk) (strLen : Nat) (names : List Text) : Walk :=
  { walk with appended := placed stored strLen names, new_strings := names.flatMap stored }

theorem intern_eq {strLen : Nat} {names : List Text} {walk : Walk}
    (interned : Interned strLen names walk) (name : Text) :
    intern strLen walk name =
      (place stored strLen (insertKey names name) name,
        walk.intern strLen (insertKey names name)) := by
  unfold intern
  rw [interned.appended, lookup_placed]
  by_cases present : name ∈ names
  · simp only [if_pos present, insertKey, Walk.intern, ← interned.appended,
      ← interned.new_strings]
  · have offset : place stored strLen (names ++ [name]) name =
        strLen + (names.flatMap stored).length := place_insertKey present
    simp only [if_neg present, insertKey, Walk.intern, interned.new_strings, offset,
      placed_append_singleton, List.flatMap_append, List.flatMap_singleton]
    simp [stored]

/-- One iteration at a record. -/
def Record.rename (strings : Bytes) (names : List Text) (record : Record) :
    Except PyError (Record × List Text) :=
  if record.nameOff = 0 then .ok (record, names)
  else
    match decode (record.name strings) with
    | .error error => .error error
    | .ok name =>
        match newName record.kind name with
        | none => .ok (record, names)
        | some new =>
            let names := insertKey names new
            let offset := place stored strings.length names new
            if offset < 256 ^ 4 then .ok ({ record with nameOff := UInt32.ofNat offset }, names)
            else .error .structError

theorem rename_eq {strLen : Nat} {names : List Text} {walk : Walk}
    (interned : Interned strLen names walk) {front old back : Bytes} {pos : Nat}
    (starts : front.length = pos) (lengths : old.length = 4)
    (data : walk.data = front ++ old ++ back) (name : Text) :
    rename strLen pos walk name =
      if place stored strLen (insertKey names name) name < 256 ^ 4 then
        .ok { walk.intern strLen (insertKey names name) with
          data := front ++
            leBytes 4 (place stored strLen (insertKey names name) name) ++ back }
      else .error .structError := by
  simp only [rename, intern_eq interned]
  have sameData : (walk.intern strLen (insertKey names name)).data = front ++ old ++ back := data
  rw [sameData, packInto_leBytes front old back starts lengths]
  split <;> rfl

/-- How many integers the record renames, and how many names it sanitizes. -/
def Record.renames (strings : Bytes) (record : Record) : Nat :=
  if record.kind = .int ∧ (record.newName? strings).isSome then 1 else 0

def Record.sanitizes (strings : Bytes) (record : Record) : Nat :=
  if record.kind ≠ .int ∧ (record.newName? strings).isSome then 1 else 0

theorem visitType_record (strings : Bytes) (names : List Text) (record : Record) (walk : Walk)
    (interned : Interned strings.length names walk) {front back : Bytes} {pos strBase : Nat}
    (starts : front.length = pos) (data : walk.data = front ++ record.bytes ++ back)
    (named : record.nameOff ≠ 0 →
      HasString walk.data (strBase + record.nameOff.toNat) (record.name strings)) :
    visitType strBase strings.length pos walk =
      match record.rename strings names with
      | .error error => .error error
      | .ok (renamed, names) =>
          .ok (record.extra.length,
            { data := front ++ renamed.bytes ++ back
              new_strings := names.flatMap stored
              appended := placed stored strings.length names
              renamed := walk.renamed + record.renames strings
              sanitized := walk.sanitized + record.sanitizes strings
              visited := pos :: walk.visited }) := by
  have first : unpackFrom 4 walk.data pos = .ok record.nameOff.toNat := by
    have split : walk.data = front ++ leBytes 4 record.nameOff.toNat ++
        (leBytes 4 record.info.toNat ++ leBytes 4 record.sizeType.toNat ++ record.extra ++ back) := by
      rw [data, Record.bytes]
      simp only [List.append_assoc]
    rw [split, unpackFrom_leBytes front _ starts record.nameOff.toNat_lt]
  have second : unpackFrom 4 walk.data (pos + 4) = .ok record.info.toNat := by
    have split : walk.data = (front ++ leBytes 4 record.nameOff.toNat) ++ leBytes 4 record.info.toNat ++
        (leBytes 4 record.sizeType.toNat ++ record.extra ++ back) := by
      rw [data, Record.bytes]
      simp only [List.append_assoc]
    rw [split, unpackFrom_leBytes _ _ (by simp [starts]) record.info.toNat_lt]
  have third : unpackFrom 4 walk.data (pos + 8) = .ok record.sizeType.toNat := by
    have split : walk.data = (front ++ leBytes 4 record.nameOff.toNat ++ leBytes 4 record.info.toNat) ++
        leBytes 4 record.sizeType.toNat ++ (record.extra ++ back) := by
      rw [data, Record.bytes]
      simp only [List.append_assoc]
    rw [split, unpackFrom_leBytes _ _ (by simp [starts]) record.sizeType.toNat_lt]
  have extra : extraOf record.kind.code (record.info.toNat &&& 0xFFFF) =
      .ok record.extra.length := by
    rw [extraOf_code, record.extra_length]
  -- the fields are read; what remains is the naming of the type
  have fields : visitType strBase strings.length pos walk =
      match nameType strBase strings.length pos record.kind.code record.nameOff.toNat
        { walk with visited := pos :: walk.visited } with
      | .error error => .error error
      | .ok walk => .ok (record.extra.length, walk) := by
    simp only [visitType, first, second, third, bind, Except.bind, record.info_kind, extra]
    cases nameType strBase strings.length pos record.kind.code record.nameOff.toNat
      { walk with visited := pos :: walk.visited } <;> rfl
  rw [fields]
  by_cases zero : record.nameOff = 0
  · have unnamed : record.newName? strings = none := if_pos zero
    have noName : ¬record.nameOff.toNat ≠ 0 := by simp [zero]
    rw [nameType, if_neg noName, Record.rename, if_pos zero]
    simp only [pure, Except.pure, Record.renames, Record.sanitizes, unnamed, ← data, ← interned.appended,
      ← interned.new_strings]
    simp
  · have someName : record.nameOff.toNat ≠ 0 := fun equality => zero (UInt32.toNat_inj.mp equality)
    rw [nameType, if_pos someName, readName_eq (named zero), Record.rename, if_neg zero]
    simp only [bind, Except.bind]
    cases decoded : decode (record.name strings) with
    | error error => rfl
    | ok name =>
        have wanted : record.newName? strings = newName record.kind name := by
          rw [Record.newName?, if_neg zero, decoded]
        simp only [renameType_code]
        cases needed : newName record.kind name with
        | none =>
            simp only [Record.renames, Record.sanitizes, wanted, needed, ← data,
              ← interned.appended, ← interned.new_strings]
            simp
        | some new =>
            have split : walk.data = front ++ leBytes 4 record.nameOff.toNat ++
                (leBytes 4 record.info.toNat ++ leBytes 4 record.sizeType.toNat ++ record.extra ++
                  back) := by
              rw [data, Record.bytes]
              simp only [List.append_assoc]
            have held : Interned strings.length names { walk with visited := pos :: walk.visited } :=
              ⟨interned.appended, interned.new_strings⟩
            simp only [rename_eq held starts (length_leBytes 4 _) split]
            by_cases fits : place stored strings.length (insertKey names new) new < 256 ^ 4
            · have offset : (UInt32.ofNat (place stored strings.length (insertKey names new)
                  new)).toNat = place stored strings.length (insertKey names new) new :=
                UInt32.toNat_ofNat_of_lt' fits
              simp only [if_pos fits, Record.renames, Record.sanitizes, wanted, needed,
                Record.bytes, offset, Walk.intern]
              by_cases isInt : record.kind = .int
              · simp [isInt]
              · simp [isInt]
            · simp only [if_neg fits]

/-- The walk over a list of records. -/
def renameRecords (strings : Bytes) : List Text → List Record →
    Except PyError (List Record × List Text)
  | names, [] => .ok ([], names)
  | names, record :: records =>
      match record.rename strings names with
      | .error error => .error error
      | .ok (renamed, names) =>
          match renameRecords strings names records with
          | .error error => .error error
          | .ok (others, names) => .ok (renamed :: others, names)

theorem Record.rename_eq_ok {strings : Bytes} {names more : List Text} {record renamed : Record}
    (ran : record.rename strings names = .ok (renamed, more)) :
    record.Decodes strings ∧ more = insertKeys names (wanted strings [record]) ∧
      renamed = record.renamed strings more := by
  by_cases zero : record.nameOff = 0
  · have unnamed : record.newName? strings = none := if_pos zero
    rw [Record.rename, if_pos zero] at ran
    obtain ⟨rfl, rfl⟩ := Prod.mk.inj (Except.ok.inj ran)
    refine ⟨fun nonzero => absurd zero nonzero, ?_, ?_⟩
    · simp [wanted, unnamed]
    · simp [Record.renamed, unnamed]
  · rw [Record.rename, if_neg zero] at ran
    cases decoded : decode (record.name strings) with
    | error error => rw [decoded] at ran; cases ran
    | ok name =>
        have needs : record.newName? strings = newName record.kind name := by
          rw [Record.newName?, if_neg zero, decoded]
        rw [decoded] at ran
        refine ⟨fun _ => ⟨name, decoded⟩, ?_⟩
        cases needed : newName record.kind name with
        | none =>
            simp only [needed] at ran
            obtain ⟨rfl, rfl⟩ := Prod.mk.inj (Except.ok.inj ran)
            simp [wanted, needs, needed, Record.renamed]
        | some new =>
            simp only [needed] at ran
            by_cases fits : place stored strings.length (insertKey names new) new < 256 ^ 4
            · rw [if_pos fits] at ran
              obtain ⟨rfl, rfl⟩ := Prod.mk.inj (Except.ok.inj ran)
              simp [wanted, needs, needed, Record.renamed]
            · rw [if_neg fits] at ran
              cases ran

theorem Record.renamed_extra (strings : Bytes) (names : List Text) (record : Record) :
    (record.renamed strings names).extra = record.extra := by
  unfold Record.renamed
  split <;> rfl

theorem Record.length_bytes_renamed (strings : Bytes) (names : List Text) (record : Record) :
    (record.renamed strings names).bytes.length = record.bytes.length := by
  rw [Record.length_bytes, Record.length_bytes, Record.renamed_extra]

/-- The walk on the bytes of records is the walk over the records. -/
theorem walkTypes_records (strings between : Bytes) (records : List Record) (names : List Text)
    (walk : Walk) (interned : Interned strings.length names walk) (front : Bytes) (pos : Nat)
    {finish strBase : Nat} (starts : front.length = pos)
    (ends : finish = pos + (typesBytes records).length)
    (based : strBase = finish + between.length)
    (data : walk.data = front ++ typesBytes records ++ (between ++ strings))
    (named : ∀ record ∈ records, record.nameOff ≠ 0 → 0 ∈ strings.drop record.nameOff.toNat) :
    walkTypes strBase strings.length finish pos walk =
      match renameRecords strings names records with
      | .error error => .error error
      | .ok (renamed, names) =>
          .ok { data := front ++ typesBytes renamed ++ (between ++ strings)
                new_strings := names.flatMap stored
                appended := placed stored strings.length names
                renamed := walk.renamed + (records.map (Record.renames strings)).sum
                sanitized := walk.sanitized + (records.map (Record.sanitizes strings)).sum
                visited := (boundaries pos records).reverse ++ walk.visited } := by
  induction records generalizing names walk front pos with
  | nil =>
      have stop : ¬pos < finish := by
        rw [ends]
        simp
      rw [walkTypes, if_neg stop]
      simp only [renameRecords, ← data, ← interned.new_strings, ← interned.appended, boundaries]
      simp
  | cons record records inductionHypothesis =>
      have size : (typesBytes (record :: records)).length =
          12 + record.extra.length + (typesBytes records).length := by
        simp [Record.length_bytes]
      have continues : pos < finish := by omega
      have splitData : walk.data =
          front ++ record.bytes ++ (typesBytes records ++ (between ++ strings)) := by
        rw [data]
        simp
      have reads : record.nameOff ≠ 0 →
          HasString walk.data (strBase + record.nameOff.toNat) (record.name strings) := by
        intro nonzero
        have stands := hasString_of_mem (named record (by simp) nonzero)
        rw [data, ← List.append_assoc]
        apply HasString.behind stands
        simp only [List.length_append]
        omega
      rw [walkTypes, if_pos continues,
        visitType_record strings names record walk interned starts splitData reads]
      simp only [renameRecords]
      cases ran : record.rename strings names with
      | error error => rfl
      | ok answer =>
          obtain ⟨renamed, more⟩ := answer
          obtain ⟨-, -, rfl⟩ := Record.rename_eq_ok ran
          have width := Record.length_bytes_renamed strings more record
          have later := inductionHypothesis more
            { data := front ++ (record.renamed strings more).bytes ++
                (typesBytes records ++ (between ++ strings))
              new_strings := more.flatMap stored
              appended := placed stored strings.length more
              renamed := walk.renamed + record.renames strings
              sanitized := walk.sanitized + record.sanitizes strings
              visited := pos :: walk.visited }
            ⟨rfl, rfl⟩ (front ++ (record.renamed strings more).bytes)
            (pos + (12 + record.extra.length))
            (by rw [List.length_append, width, Record.length_bytes, starts])
            (by omega) (by simp only [List.append_assoc])
            (fun other membership => named other (List.mem_cons_of_mem _ membership))
          simp only [later]
          cases renameRecords strings more records with
          | error error => rfl
          | ok others =>
              simp [boundaries, Record.length_bytes, Nat.add_assoc]

theorem stored_ne_nil (name : Text) : stored name ≠ [] := by
  simp [stored]

/-- The offset of a name does not change as further names are stored. -/
theorem Record.renamed_stable {strings : Bytes} {names more : List Text} {record : Record}
    (grown : names <+: more) (present : ∀ name, record.newName? strings = some name → name ∈ names) :
    record.renamed strings more = record.renamed strings names := by
  unfold Record.renamed
  cases needed : record.newName? strings with
  | none => rfl
  | some name => simp only [place_stable grown (present name needed)]

theorem wanted_cons (strings : Bytes) (record : Record) (records : List Record) :
    wanted strings (record :: records) = wanted strings [record] ++ wanted strings records := by
  rw [← List.singleton_append, wanted, List.filterMap_append]
  rfl

theorem insertKeys_append (names first second : List Text) :
    insertKeys names (first ++ second) = insertKeys (insertKeys names first) second := by
  rw [insertKeys, List.foldl_append]
  rfl

theorem mem_wanted_singleton {strings : Bytes} {record : Record} {name : Text} :
    name ∈ wanted strings [record] ↔ record.newName? strings = some name := by
  simp [wanted]

/-- What a walk that does not raise did to the records. -/
theorem renameRecords_eq_ok {strings : Bytes} {names more : List Text}
    {records renamed : List Record}
    (ran : renameRecords strings names records = .ok (renamed, more)) :
    (∀ record ∈ records, record.Decodes strings) ∧
      more = insertKeys names (wanted strings records) ∧
      renamed = records.map (Record.renamed strings more) := by
  induction records generalizing names renamed with
  | nil =>
      obtain ⟨rfl, rfl⟩ := Prod.mk.inj (Except.ok.inj ran)
      simp [wanted]
  | cons record records inductionHypothesis =>
      simp only [renameRecords] at ran
      cases first : record.rename strings names with
      | error error => rw [first] at ran; cases ran
      | ok answer =>
          obtain ⟨head, middle⟩ := answer
          obtain ⟨decodes, middleNames, rfl⟩ := Record.rename_eq_ok first
          rw [first] at ran
          simp only at ran
          cases rest : renameRecords strings middle records with
          | error error => rw [rest] at ran; cases ran
          | ok answer =>
              obtain ⟨others, last⟩ := answer
              rw [rest] at ran
              obtain ⟨rfl, rfl⟩ := Prod.mk.inj (Except.ok.inj ran)
              obtain ⟨allDecode, lastNames, rfl⟩ := inductionHypothesis rest
              refine ⟨?_, ?_, ?_⟩
              · intro other membership
                rcases List.mem_cons.mp membership with equality | later
                · rw [equality]
                  exact decodes
                · exact allDecode other later
              · rw [lastNames, middleNames, wanted_cons strings record records, insertKeys_append]
              · rw [List.map_cons]
                congr 1
                symm
                apply Record.renamed_stable
                · rw [lastNames]
                  exact prefix_insertKeys _ _
                · intro name needed
                  rw [middleNames, mem_insertKeys]
                  exact Or.inr (mem_wanted_singleton.mpr needed)

/-- Decodable names whose table fits do not raise. -/
theorem renameRecords_ok {strings : Bytes} {names : List Text} {records : List Record}
    (decodes : ∀ record ∈ records, record.Decodes strings)
    (fits : strings.length + ((insertKeys names (wanted strings records)).flatMap stored).length <
      2 ^ 32) :
    ∃ answer, renameRecords strings names records = .ok answer := by
  induction records generalizing names with
  | nil => exact ⟨_, rfl⟩
  | cons record records inductionHypothesis =>
      have head : ∃ answer, record.rename strings names = .ok answer := by
        rw [Record.rename]
        by_cases zero : record.nameOff = 0
        · exact ⟨_, if_pos zero⟩
        · obtain ⟨name, decoded⟩ := decodes record (by simp) zero
          rw [if_neg zero, decoded]
          simp only
          cases needed : newName record.kind name with
          | none => exact ⟨_, rfl⟩
          | some new =>
              have asked : new ∈ wanted strings (record :: records) := by
                rw [wanted_cons, List.mem_append]
                left
                rw [mem_wanted_singleton, Record.newName?, if_neg zero, decoded]
                exact needed
              have inserted : new ∈ insertKey names new := mem_insertKey.mpr (Or.inr rfl)
              have grown : insertKey names new <+:
                  insertKeys names (wanted strings (record :: records)) := by
                have single : wanted strings [record] = [new] := by
                  simp [wanted, Record.newName?, zero, decoded, needed]
                rw [wanted_cons, insertKeys_append, single]
                exact prefix_insertKeys _ _
              have bound := place_lt stored
                (mem_insertKeys.mpr (Or.inr asked) : new ∈ insertKeys names _)
                strings.length (stored_ne_nil new)
              rw [place_stable grown inserted] at bound
              have small : place stored strings.length (insertKey names new) new < 256 ^ 4 := by
                omega
              exact ⟨_, if_pos small⟩
      obtain ⟨⟨renamed, more⟩, ran⟩ := head
      obtain ⟨-, moreNames, -⟩ := Record.rename_eq_ok ran
      rw [wanted_cons, insertKeys_append, ← moreNames] at fits
      obtain ⟨⟨others, last⟩, rest⟩ := inductionHypothesis
        (fun other membership => decodes other (List.mem_cons_of_mem _ membership)) fits
      exact ⟨(renamed :: others, last), by simp only [renameRecords, ran, rest]⟩

end LibarenaRs.Btf
