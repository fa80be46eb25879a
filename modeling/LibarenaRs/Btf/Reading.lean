import LibarenaRs.Btf.Format

/-!
# An object is determined by its bytes

The length of each record follows from its first two words, so a section has
one reading as records, and a file one reading as an object.
-/

namespace LibarenaRs.Btf

open LibarenaRs.Memory LibarenaRs.Regex

theorem Kind.code_injective {first second : Kind} (same : first.code = second.code) :
    first = second := by
  cases first <;> cases second <;> first | rfl | exact absurd same (by decide)

theorem leBytes_append_injective {first second : Nat} {firstRest secondRest : Bytes}
    (firstFits : first < 256 ^ 4) (secondFits : second < 256 ^ 4)
    (same : leBytes 4 first ++ firstRest = leBytes 4 second ++ secondRest) :
    first = second ∧ firstRest = secondRest := by
  obtain ⟨words, rests⟩ := List.append_inj same (by simp)
  have numbers := congrArg leNat words
  rw [leNat_leBytes firstFits, leNat_leBytes secondFits] at numbers
  exact ⟨numbers, rests⟩

theorem word_injective {first second : UInt32} {firstRest secondRest : Bytes}
    (same : leBytes 4 first.toNat ++ firstRest = leBytes 4 second.toNat ++ secondRest) :
    first = second ∧ firstRest = secondRest := by
  obtain ⟨numbers, rests⟩ := leBytes_append_injective first.toNat_lt second.toNat_lt same
  exact ⟨UInt32.toNat_inj.mp numbers, rests⟩

theorem Record.bytes_append_injective {first second : Record} {firstRest secondRest : Bytes}
    (same : first.bytes ++ firstRest = second.bytes ++ secondRest) :
    first = second ∧ firstRest = secondRest := by
  simp only [Record.bytes, List.append_assoc] at same
  obtain ⟨nameOff, same⟩ := word_injective same
  obtain ⟨info, same⟩ := word_injective same
  obtain ⟨sizeType, same⟩ := word_injective same
  have kinds : first.kind = second.kind := by
    apply Kind.code_injective
    rw [← first.info_kind, ← second.info_kind, info]
  have lengths : first.extra.length = second.extra.length := by
    rw [first.extra_length, second.extra_length, kinds, info]
  obtain ⟨extra, rest⟩ := List.append_inj same lengths
  refine ⟨?_, rest⟩
  cases first
  cases second
  simp only at nameOff info sizeType kinds extra
  subst nameOff info sizeType kinds extra
  rfl

theorem typesBytes_injective {first second : List Record}
    (same : typesBytes first = typesBytes second) : first = second := by
  induction first generalizing second with
  | nil =>
      cases second with
      | nil => rfl
      | cons record records =>
          have lengths := congrArg List.length same
          simp only [typesBytes, List.flatMap_nil, List.flatMap_cons, List.length_nil,
            List.length_append, Record.length_bytes] at lengths
          omega
  | cons record records inductionHypothesis =>
      cases second with
      | nil =>
          have lengths := congrArg List.length same
          simp only [typesBytes, List.flatMap_nil, List.flatMap_cons, List.length_nil,
            List.length_append, Record.length_bytes] at lengths
          omega
      | cons other others =>
          simp only [typesBytes, List.flatMap_cons] at same
          obtain ⟨rfl, rest⟩ := Record.bytes_append_injective same
          rw [inductionHypothesis rest]

theorem Blob.bytes_injective {first second : Blob} (same : first.bytes = second.bytes) :
    first = second := by
  have firstTypes := first.typesPlace
  have secondTypes := second.typesPlace
  have firstStrings := first.stringsPlace
  have secondStrings := second.stringsPlace
  simp only [Blob.bytes, Blob.header, List.append_assoc] at same
  have same := List.append_cancel_left same
  simp only [List.cons_append, List.nil_append, List.cons.injEq] at same
  obtain ⟨version, flags, same⟩ := same
  obtain ⟨hdrLen, same⟩ := word_injective same
  obtain ⟨typeOff, same⟩ := word_injective same
  obtain ⟨typesLength, same⟩ := leBytes_append_injective first.typesFit second.typesFit same
  obtain ⟨strOff, same⟩ := word_injective same
  obtain ⟨stringsLength, same⟩ := leBytes_append_injective first.stringsFit second.stringsFit same
  obtain ⟨beforeTypes, same⟩ := List.append_inj same (by rw [hdrLen, typeOff] at firstTypes; omega)
  obtain ⟨types, same⟩ := List.append_inj same typesLength
  obtain ⟨beforeStrings, strings⟩ := List.append_inj same (by
    have gaps := congrArg List.length beforeTypes
    rw [hdrLen, strOff] at firstStrings
    omega)
  have records := typesBytes_injective types
  cases first
  cases second
  simp only at version flags hdrLen typeOff strOff beforeTypes records beforeStrings strings
  subst version flags hdrLen typeOff strOff beforeTypes records beforeStrings strings
  rfl

/-- One reading of a file as an object. -/
theorem Object.eq_of_buf {first second : Object} (same : first.buf = second.buf) :
    first = second := by
  have index : first.index = second.index := by
    rcases Nat.lt_trichotomy first.index second.index with before | equal | behind
    · have other := second.isFirst _ before
      rw [← same] at other
      exact absurd first.isBtf other
    · exact equal
    · have other := first.isFirst _ behind
      rw [same] at other
      exact absurd second.isBtf other
  have blob : first.blob = second.blob := by
    apply Blob.bytes_injective
    rw [← first.payload, ← second.payload, same, index]
  cases first
  cases second
  simp only at same index blob
  subst same index blob
  rfl

end LibarenaRs.Btf
