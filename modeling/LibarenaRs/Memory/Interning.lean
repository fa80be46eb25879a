import LibarenaRs.Memory.Bytes

/-!
# Interning into an append-only table

Distinct keys are stored one after the other in the order in which they are
first asked for.  The place of a stored key never changes as the table grows.
-/

namespace LibarenaRs.Memory

variable {Key α : Type*}

/-- The keys with their places. -/
def placed (stored : Key → List α) : Nat → List Key → List (Key × Nat)
  | _, [] => []
  | base, first :: keys => (first, base) :: placed stored (base + (stored first).length) keys

theorem placed_append_singleton (stored : Key → List α) (base : Nat) (keys : List Key) (key : Key) :
    placed stored base (keys ++ [key]) =
      placed stored base keys ++ [(key, base + (keys.flatMap stored).length)] := by
  induction keys generalizing base with
  | nil => rfl
  | cons first keys inductionHypothesis =>
      simp only [List.cons_append, placed, inductionHypothesis, List.flatMap_cons,
        List.length_append, Nat.add_assoc]

variable [DecidableEq Key]

/-- The keys after one more is asked for. -/
def insertKey (keys : List Key) (key : Key) : List Key :=
  if key ∈ keys then keys else keys ++ [key]

/-- The keys after all of `asked` are asked for. -/
def insertKeys (keys asked : List Key) : List Key := asked.foldl insertKey keys

/-- Where the stored form of a key starts, in a table that starts at `base`. -/
def place (stored : Key → List α) : Nat → List Key → Key → Nat
  | base, [], _ => base
  | base, first :: keys, key =>
      if key = first then base else place stored (base + (stored first).length) keys key

theorem prefix_insertKey (keys : List Key) (key : Key) : keys <+: insertKey keys key := by
  unfold insertKey
  split
  · exact List.prefix_rfl
  · exact List.prefix_append _ _

theorem mem_insertKey {keys : List Key} {key other : Key} :
    other ∈ insertKey keys key ↔ other ∈ keys ∨ other = key := by
  unfold insertKey
  split
  · rename_i present
    constructor
    · exact Or.inl
    · rintro (old | rfl)
      · exact old
      · exact present
  · simp

theorem insertKey_nodup {keys : List Key} (distinct : keys.Nodup) (key : Key) :
    (insertKey keys key).Nodup := by
  unfold insertKey
  split
  · exact distinct
  · rename_i absent
    apply List.nodup_append.mpr
    refine ⟨distinct, by simp, ?_⟩
    intro old oldMember new newMember
    rw [List.mem_singleton.mp newMember]
    exact fun equality => absent (equality ▸ oldMember)

@[simp]
theorem insertKeys_nil (keys : List Key) : insertKeys keys [] = keys := rfl

@[simp]
theorem insertKeys_cons (keys asked : List Key) (key : Key) :
    insertKeys keys (key :: asked) = insertKeys (insertKey keys key) asked := rfl

theorem prefix_insertKeys (keys asked : List Key) : keys <+: insertKeys keys asked := by
  induction asked generalizing keys with
  | nil => exact List.prefix_rfl
  | cons key asked inductionHypothesis =>
      exact (prefix_insertKey keys key).trans (inductionHypothesis _)

theorem mem_insertKeys {keys asked : List Key} {key : Key} :
    key ∈ insertKeys keys asked ↔ key ∈ keys ∨ key ∈ asked := by
  induction asked generalizing keys with
  | nil => simp
  | cons first asked inductionHypothesis =>
      rw [insertKeys_cons, inductionHypothesis, mem_insertKey, List.mem_cons, or_assoc]

theorem insertKeys_nodup {keys : List Key} (distinct : keys.Nodup) (asked : List Key) :
    (insertKeys keys asked).Nodup := by
  induction asked generalizing keys with
  | nil => exact distinct
  | cons key asked inductionHypothesis => exact inductionHypothesis (insertKey_nodup distinct key)

variable {stored : Key → List α}

theorem place_append_of_mem {base : Nat} {keys : List Key} {key : Key} (present : key ∈ keys)
    (more : List Key) : place stored base (keys ++ more) key = place stored base keys key := by
  induction keys generalizing base with
  | nil => cases present
  | cons first keys inductionHypothesis =>
      simp only [List.cons_append, place]
      split
      · rfl
      · rename_i different
        apply inductionHypothesis
        rcases List.mem_cons.mp present with same | later
        · exact absurd same different
        · exact later

/-- Places are stable. -/
theorem place_stable {base : Nat} {keys more : List Key} {key : Key} (grown : keys <+: more)
    (present : key ∈ keys) : place stored base more key = place stored base keys key := by
  obtain ⟨others, rfl⟩ := grown
  exact place_append_of_mem present others

theorem lookup_placed [BEq Key] [LawfulBEq Key] {base : Nat} {keys : List Key} {key : Key} :
    (placed stored base keys).lookup key =
      if key ∈ keys then some (place stored base keys key) else none := by
  induction keys generalizing base with
  | nil => rfl
  | cons first keys inductionHypothesis =>
      by_cases same : key = first
      · simp [placed, place, same]
      · have unequal : (key == first) = false := by simpa using same
        simp only [placed, place, List.lookup_cons, unequal, inductionHypothesis,
          List.mem_cons, same, false_or, if_false]

theorem place_insertKey {base : Nat} {keys : List Key} {key : Key} (absent : key ∉ keys) :
    place stored base (keys ++ [key]) key = base + (keys.flatMap stored).length := by
  induction keys generalizing base with
  | nil => simp [place]
  | cons first keys inductionHypothesis =>
      have different : key ≠ first := fun equality => absent (by simp [equality])
      rw [List.cons_append, place, if_neg different,
        inductionHypothesis fun membership => absent (List.mem_cons_of_mem _ membership),
        List.flatMap_cons, List.length_append, Nat.add_assoc]

/-- At its place stands the stored form of a key. -/
theorem place_split (stored : Key → List α) {keys : List Key} {key : Key} (present : key ∈ keys) (base : Nat) :
    ∃ front back, keys.flatMap stored = front ++ stored key ++ back ∧
      place stored base keys key = base + front.length := by
  induction keys generalizing base with
  | nil => cases present
  | cons first keys inductionHypothesis =>
      by_cases same : key = first
      · refine ⟨[], keys.flatMap stored, ?_, ?_⟩
        · rw [same]
          rfl
        · rw [place, if_pos same]
          rfl
      · have later : key ∈ keys := by
          rcases List.mem_cons.mp present with equality | later
          · exact absurd equality same
          · exact later
        obtain ⟨front, back, split, start⟩ :=
          inductionHypothesis later (base + (stored first).length)
        refine ⟨stored first ++ front, back, ?_, ?_⟩
        · rw [List.flatMap_cons, split]
          simp only [List.append_assoc]
        · rw [place, if_neg same, start, List.length_append, Nat.add_assoc]

theorem place_lt (stored : Key → List α) {keys : List Key} {key : Key} (present : key ∈ keys) (base : Nat)
    (nonempty : stored key ≠ []) :
    place stored base keys key < base + (keys.flatMap stored).length := by
  obtain ⟨front, back, split, start⟩ := place_split stored present base
  have positive := List.length_pos_iff.mpr nonempty
  rw [start, split, List.length_append, List.length_append]
  omega

end LibarenaRs.Memory
