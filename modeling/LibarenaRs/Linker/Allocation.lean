import LibarenaRs.Linker.Finalize

/-!
# Allocating metadata

Ids come from a counter while the nodes of a declaration are made from the
inside out.  The invariant is about the nodes made so far: they have the ids
behind the start one after the other, and each mentions only nodes made before
and the file.
-/

namespace LibarenaRs.Linker

open LibarenaRs.Regex LibarenaRs.Llvm

/-! ## Nodes among others -/

def Node.isType : Node → Prop
  | .basic _ _ _ | .pointer => True
  | .subroutine _ | .subprogram _ _ _ => False

/-- The ids that the node's text mentions, in its order. -/
def Node.mentions : Node → List Nat
  | .basic _ _ _ | .pointer => []
  | .subroutine types => types.filterMap id
  | .subprogram _ file type => [readNat (file.drop 1), readNat (file.drop 1), type]

/-- `!` and digits -/
def FileId (file : Text) : Prop :=
  ∃ digits, file = '!' :: digits ∧ digits ≠ [] ∧ digits.all Char.isDigit = true

theorem FileId.oneLine {file : Text} (fileId : FileId file) : '\n' ∉ file := by
  obtain ⟨digits, rfl, -, all⟩ := fileId
  intro member
  rcases List.mem_cons.mp member with first | later
  · cases first
  · exact absurd (List.all_eq_true.mp all _ later) (by decide)

/-- A text that stays in its line and mentions no node. -/
def Unsigned (text : Text) : Prop := '\n' ∉ text ∧ '!' ∉ text

instance (text : Text) : Decidable (Unsigned text) := inferInstanceAs (Decidable (_ ∧ _))

/-- The texts in a node are what they stand for. -/
def Node.Plain : Node → Prop
  | .basic name _ encoding => Unsigned name ∧ Unsigned encoding
  | .pointer | .subroutine _ => True
  | .subprogram name file _ => Unsigned name ∧ FileId file

/-- A type is null or one of the types among the nodes. -/
def TypeAmong (nodes : List (Nat × Node)) (type : Option Nat) : Prop :=
  ∀ id, type = some id → ∃ node, (id, node) ∈ nodes ∧ node.isType

/-- What a node needs of the nodes around it. -/
def Grounded (file : Text) (nodes : List (Nat × Node)) : Node → Prop
  | .basic _ _ _ | .pointer => True
  | .subroutine types => ∀ type ∈ types, TypeAmong nodes type
  | .subprogram _ named type =>
      named = file ∧ ∃ types, (type, .subroutine types) ∈ nodes ∧ ∀ type ∈ types, TypeAmong nodes type

theorem TypeAmong.mono {nodes more : List (Nat × Node)} (grows : nodes ⊆ more) {type : Option Nat}
    (among : TypeAmong nodes type) : TypeAmong more type := by
  intro id same
  obtain ⟨node, member, isType⟩ := among id same
  exact ⟨node, grows member, isType⟩

theorem Grounded.mono {file : Text} {nodes more : List (Nat × Node)} (grows : nodes ⊆ more)
    {node : Node} (grounded : Grounded file nodes node) : Grounded file more node := by
  cases node with
  | basic | pointer => trivial
  | subroutine types => exact fun type member => (grounded type member).mono grows
  | subprogram name named type =>
      obtain ⟨same, types, member, among⟩ := grounded
      exact ⟨same, types, grows member, fun type inside => (among type inside).mono grows⟩

/-- A grounded node mentions nodes and the file. -/
theorem Grounded.mentions {file : Text} {nodes : List (Nat × Node)} {node : Node}
    (grounded : Grounded file nodes node) {id : Nat} (mentioned : id ∈ node.mentions) :
    id ∈ nodes.map Prod.fst ∨ id = readNat (file.drop 1) := by
  cases node with
  | basic | pointer => cases mentioned
  | subroutine types =>
      obtain ⟨type, member, same⟩ := List.mem_filterMap.mp mentioned
      obtain ⟨node, among, -⟩ := grounded type member id same
      exact Or.inl (List.mem_map_of_mem among)
  | subprogram name named type =>
      obtain ⟨rfl, types, among, -⟩ := grounded
      simp only [Node.mentions, List.mem_cons, List.not_mem_nil, or_false] at mentioned
      rcases mentioned with rfl | rfl | rfl
      · exact Or.inr rfl
      · exact Or.inr rfl
      · exact Or.inl (List.mem_map_of_mem among)

theorem printId_oneLine (id : Nat) : '\n' ∉ printId id := by
  have digits := not_newline_of_printable (printable_printNat id)
  simpa [printId] using digits

theorem Node.oneLine_subroutine (types : List (Option Nat)) :
    '\n' ∉ (Node.subroutine types).print := by
  have separated : (List.intercalate ", ".toList
      (types.map fun type => (type.map printId).getD "null".toList)).all (· != '\n') = true := by
    apply all_intercalate (by decide)
    intro text member
    obtain ⟨type, -, rfl⟩ := List.mem_map.mp member
    rw [List.all_eq_true]
    intro c inside
    have different : c ≠ '\n' := by
      rintro rfl
      cases type with
      | none => exact absurd inside (by decide)
      | some id => exact printId_oneLine id inside
    simpa using different
  unfold Node.print
  intro member
  rcases List.mem_append.mp member with member | last
  · rcases List.mem_append.mp member with first | inside
    · exact absurd first (by decide)
    · simpa using List.all_eq_true.mp separated _ inside
  · exact absurd last (by decide)

/-- Each node takes one line. -/
theorem Node.Plain.oneLine {node : Node} (plain : node.Plain) : '\n' ∉ node.print := by
  cases node with
  | basic name size encoding =>
      have digits := not_newline_of_printable (printable_printNat size)
      unfold Node.print
      simp only [List.mem_append, not_or]
      exact ⟨⟨⟨⟨⟨⟨by decide, plain.1.1⟩, by decide⟩, digits⟩, by decide⟩, plain.2.1⟩, by decide⟩
  | pointer => decide
  | subroutine types => exact Node.oneLine_subroutine types
  | subprogram name file type =>
      have fileLine := plain.2.oneLine
      unfold Node.print
      simp only [List.mem_append, not_or]
      exact ⟨⟨⟨⟨⟨⟨⟨⟨by decide, plain.1.1⟩, by decide⟩, fileLine⟩, by decide⟩, fileLine⟩, by decide⟩,
        printId_oneLine type⟩, by decide⟩

/-! ## The invariant -/

structure Allocated (file : Text) (start : Nat) (added : Added) : Prop where
  next : added.next = start + added.nodes.length
  ids : added.nodes.map Prod.fst = List.range' start added.nodes.length
  attached : ∀ id ∈ added.attached, id ∈ added.nodes.map Prod.fst
  grounded : ∀ node ∈ added.nodes, Grounded file added.nodes node.2
  plain : ∀ node ∈ added.nodes, node.2.Plain

/-- What an allocation keeps and what it adds to. -/
structure Extends (before after : Added) : Prop where
  nodes : before.nodes ⊆ after.nodes
  attached : after.attached = before.attached

theorem Extends.trans {first second third : Added} (before : Extends first second)
    (after : Extends second third) : Extends first third :=
  ⟨fun _ member => after.nodes (before.nodes member), after.attached.trans before.attached⟩

section Allocation

variable {file : Text} {start : Nat} {added : Added}

theorem allocated_init : Allocated file start ⟨start, [], []⟩ where
  next := rfl
  ids := rfl
  attached := by simp
  grounded := by simp
  plain := by simp

theorem md_extends (body : Node) : Extends added (md body added).2 :=
  ⟨List.subset_append_left _ _, rfl⟩

theorem md_mem (body : Node) : ((md body added).1, body) ∈ (md body added).2.nodes :=
  List.mem_append_right _ (List.mem_singleton.mpr rfl)

theorem extends_diType (irType : Text) (added : Added) :
    Extends added (diType irType added).2 := by
  unfold diType
  cases typeNode irType with
  | none => exact ⟨fun _ member => member, rfl⟩
  | some node => exact md_extends node

theorem extends_diTypes (irTypes : List Text) (added : Added) :
    Extends added (diTypes irTypes added).2 := by
  induction irTypes generalizing added with
  | nil => exact ⟨fun _ member => member, rfl⟩
  | cons irType others inductionHypothesis =>
      exact (extends_diType irType added).trans (inductionHypothesis _)

theorem extends_returnType (ret : Text) (added : Added) :
    Extends added (returnType ret added).2 := by
  unfold returnType
  split
  · exact extends_diType ret added
  · exact ⟨fun _ member => member, rfl⟩

theorem subprogramFor_eq (file name ret args : Text) (added : Added) :
    subprogramFor file name ret args added =
      md (.subprogram name file
        (md (.subroutine ((returnType ret added).1 ::
          (diTypes (parameterTypes args) (returnType ret added).2).1))
          (diTypes (parameterTypes args) (returnType ret added).2).2).1)
        (md (.subroutine ((returnType ret added).1 ::
          (diTypes (parameterTypes args) (returnType ret added).2).1))
          (diTypes (parameterTypes args) (returnType ret added).2).2).2 := rfl

theorem extends_subprogramFor (file name ret args : Text) (added : Added) :
    Extends added (subprogramFor file name ret args added).2 := by
  rw [subprogramFor_eq]
  exact (((extends_returnType ret added).trans (extends_diTypes _ _)).trans (md_extends _)).trans
    (md_extends _)

theorem Allocated.md (allocated : Allocated file start added) {body : Node}
    (grounded : Grounded file added.nodes body) (plain : body.Plain) :
    Allocated file start (md body added).2 where
  next := by
    change added.next + 1 = start + (added.nodes ++ [(added.next, body)]).length
    rw [List.length_append, allocated.next]
    rfl
  ids := by
    change (added.nodes ++ [(added.next, body)]).map Prod.fst =
      List.range' start (added.nodes ++ [(added.next, body)]).length
    rw [List.map_append, List.length_append, allocated.ids]
    have last := @List.range'_concat 1 start added.nodes.length
    rw [Nat.one_mul, ← allocated.next] at last
    exact last.symm
  attached id member := by
    rw [show (Linker.md body added).2.nodes = added.nodes ++ [(added.next, body)] from rfl,
      List.map_append]
    exact List.mem_append_left _ (allocated.attached id member)
  grounded node member := by
    apply Grounded.mono (md_extends body).nodes
    rcases List.mem_append.mp member with old | new
    · exact allocated.grounded node old
    · rw [List.mem_singleton.mp new]
      exact grounded
  plain node member := by
    rcases List.mem_append.mp member with old | new
    · exact allocated.plain node old
    · rw [List.mem_singleton.mp new]
      exact plain

theorem signedType_unsigned {irType name : Text} {bits : Nat}
    (found : signedType irType = some (name, bits)) : Unsigned name := by
  unfold signedType at found
  repeat' split at found
  all_goals cases found
  all_goals decide

theorem typeNode_spec {irType : Text} {node : Node} (found : typeNode irType = some node) :
    node.isType ∧ node.Plain := by
  unfold typeNode at found
  split at found
  · rename_i name bits signed
    obtain rfl := Option.some.inj found
    exact ⟨trivial, signedType_unsigned signed, by decide⟩
  · split at found
    · obtain rfl := Option.some.inj found
      exact ⟨trivial, trivial⟩
    · split at found
      · rename_i same
        obtain rfl := Option.some.inj found
        rw [same]
        exact ⟨trivial, by decide, by decide⟩
      · split at found
        · rename_i same
          obtain rfl := Option.some.inj found
          rw [same]
          exact ⟨trivial, by decide, by decide⟩
        · cases found

/-- A type takes at most one node. -/
theorem Allocated.diType (allocated : Allocated file start added) (irType : Text) :
    Allocated file start (diType irType added).2 ∧
      TypeAmong (diType irType added).2.nodes (diType irType added).1 := by
  unfold Linker.diType
  cases found : typeNode irType with
  | none => exact ⟨allocated, fun id same => by cases same⟩
  | some node =>
      obtain ⟨isType, plain⟩ := typeNode_spec found
      have grounded : Grounded file added.nodes node := by
        cases node with
        | basic | pointer => trivial
        | subroutine | subprogram => cases isType
      refine ⟨allocated.md grounded plain, ?_⟩
      rintro id same
      obtain rfl := Option.some.inj same
      exact ⟨node, md_mem node, isType⟩

theorem Allocated.diTypes (allocated : Allocated file start added) (irTypes : List Text) :
    Allocated file start (diTypes irTypes added).2 ∧
      ∀ type ∈ (diTypes irTypes added).1, TypeAmong (diTypes irTypes added).2.nodes type := by
  induction irTypes generalizing added with
  | nil => exact ⟨allocated, by simp [Linker.diTypes]⟩
  | cons irType others inductionHypothesis =>
      obtain ⟨first, among⟩ := allocated.diType irType
      obtain ⟨later, amongLater⟩ := inductionHypothesis first
      refine ⟨later, ?_⟩
      intro type member
      rcases List.mem_cons.mp member with rfl | inside
      · exact among.mono (extends_diTypes others _).nodes
      · exact amongLater type inside

theorem Allocated.returnType (allocated : Allocated file start added) (ret : Text) :
    Allocated file start (returnType ret added).2 ∧
      TypeAmong (returnType ret added).2.nodes (returnType ret added).1 := by
  unfold Linker.returnType
  split
  · exact allocated.diType ret
  · exact ⟨allocated, fun id same => by cases same⟩

/-- The nodes of one prototype: the types, the signature, the subprogram. -/
theorem Allocated.subprogramFor (allocated : Allocated file start added) (fileId : FileId file)
    {name : Text} (unsigned : Unsigned name) (ret args : Text) :
    Allocated file start (subprogramFor file name ret args added).2 ∧
      ∃ type, ((subprogramFor file name ret args added).1, .subprogram name file type) ∈
        (subprogramFor file name ret args added).2.nodes := by
  obtain ⟨first, among⟩ := allocated.returnType ret
  obtain ⟨second, amongLater⟩ := first.diTypes (parameterTypes args)
  have signature : ∀ type ∈ (Linker.returnType ret added).1 ::
      (Linker.diTypes (parameterTypes args) (Linker.returnType ret added).2).1,
      TypeAmong (Linker.diTypes (parameterTypes args) (Linker.returnType ret added).2).2.nodes
        type := by
    intro type member
    rcases List.mem_cons.mp member with rfl | inside
    · exact among.mono (extends_diTypes _ _).nodes
    · exact amongLater type inside
  have third := @Allocated.md file start _ second (.subroutine _) signature trivial
  have fourth := @Allocated.md file start _ third (.subprogram name file _)
    ⟨rfl, _, md_mem _, fun type member => (signature type member).mono (md_extends _).nodes⟩
    ⟨unsigned, fileId⟩
  rw [subprogramFor_eq]
  exact ⟨fourth, _, md_mem _⟩

/-- Each node belongs to a subprogram. -/
def Described (added : Added) : Prop :=
  added.nodes ≠ [] → ∃ id name file type, (id, Node.subprogram name file type) ∈ added.nodes

theorem attach_eq (file name ret args : Text) (added : Added) :
    attach file name ret args added =
      ((subprogramFor file name ret args added).1,
        ⟨(subprogramFor file name ret args added).2.next,
          (subprogramFor file name ret args added).2.nodes,
          (subprogramFor file name ret args added).2.attached ++
            [(subprogramFor file name ret args added).1]⟩) := rfl

theorem Allocated.attach (allocated : Allocated file start added) (fileId : FileId file)
    {name : Text} (unsigned : Unsigned name) (ret args : Text) :
    Allocated file start (attach file name ret args added).2 ∧
      Described (attach file name ret args added).2 := by
  obtain ⟨after, type, member⟩ := allocated.subprogramFor fileId unsigned ret args
  have grows := extends_subprogramFor file name ret args added
  rw [attach_eq]
  refine ⟨⟨after.next, after.ids, ?_, after.grounded, after.plain⟩, fun _ => ⟨_, _, _, _, member⟩⟩
  intro id attached
  rcases List.mem_append.mp attached with old | new
  · rw [grows.attached] at old
    exact List.map_subset _ grows.nodes (allocated.attached id old)
  · rw [List.mem_singleton.mp new]
    exact List.mem_map_of_mem member

theorem throwTraps_some {cookie : Int} {attributes text : Text}
    (traps : (plainTrapRe.search text).isSome = true) :
    throwTraps (some cookie) file attributes text added =
      if (throwDeclRe.search (trapCallRe.sub (fun _ => throwCall cookie) text)).isSome then
        (trapCallRe.sub (fun _ => throwCall cookie) text, [], added)
      else
        (trapCallRe.sub (fun _ => throwCall cookie) text,
          [throwDeclaration
            (attach file "bpf_throw".toList "void".toList "i64".toList added).1 attributes],
          (attach file "bpf_throw".toList "void".toList "i64".toList added).2) := if_pos traps

theorem Allocated.throwTraps (allocated : Allocated file start added) (described : Described added)
    (fileId : FileId file) (cookie : Option Int) (attributes text : Text) :
    Allocated file start (throwTraps cookie file attributes text added).2.2 ∧
      Described (throwTraps cookie file attributes text added).2.2 := by
  have thrown := @Allocated.attach _ _ _ allocated fileId "bpf_throw".toList (by decide) "void".toList
    "i64".toList
  cases cookie with
  | none => exact ⟨allocated, described⟩
  | some cookie =>
      by_cases traps : (plainTrapRe.search text).isSome = true
      · rw [throwTraps_some traps]
        split
        · exact ⟨allocated, described⟩
        · exact thrown
      · have none_ : Linker.throwTraps (some cookie) file attributes text added = (text, [], added) :=
          if_neg traps
        rw [none_]
        exact ⟨allocated, described⟩

/-- What every replacement keeps of the state. -/
theorem renderState_keeps {State : Type} {replace : Match → State → Text × State}
    {kept : State → Prop} {pieces : List Piece}
    (step : ∀ m, .hit m ∈ pieces → ∀ state, kept state → kept (replace m state).2) {state : State}
    (holds : kept state) : kept (renderState replace pieces state).2 := by
  induction pieces generalizing state with
  | nil => exact holds
  | cons piece pieces inductionHypothesis =>
      have later := @inductionHypothesis fun m member => step m (List.mem_cons_of_mem _ member)
      cases piece with
      | plain c => exact later holds
      | hit m => exact later (step m List.mem_cons_self state holds)

end Allocation

end LibarenaRs.Linker
