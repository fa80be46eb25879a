import LibarenaRs.Alloc.Runs
import LibarenaRs.Alloc.Views
import Mathlib.Data.List.Perm.Basic
import Mathlib.Data.UInt

/-!
# `ArenaAlloc` is a correct `GlobalAlloc`

The client's allocations and the buddy allocator's outstanding blocks are two
lists of the same things: the invariant pairs them up and keeps the blocks
disjoint.  One lemma says what a malloc does to it and one what a free does;
the four trait methods are combinations of the two.
-/

namespace LibarenaRs.Alloc

/-- Every free returns a user-form address of an earlier malloc that was not
freed in between; the log has the latest call first. -/
def FreesOutstanding : List Event → Prop
  | [] => True
  | .malloc _ _ :: earlier => FreesOutstanding earlier
  | .free address :: earlier =>
      (∃ since size older, earlier = since ++ .malloc size address :: older ∧
        address ≠ 0 ∧ ∀ event ∈ since, event ≠ .free address) ∧
      FreesOutstanding earlier

theorem exists_malloc_of_mem_outstanding {events : List Event} {block : Block}
    (membership : block ∈ outstanding events) :
    ∃ since size older, events = since ++ .malloc size block.base :: older ∧
      block.base ≠ 0 ∧ ∀ event ∈ since, event ≠ .free block.base := by
  induction events with
  | nil => simp [outstanding] at membership
  | cons event events inductionHypothesis =>
      have extend : block ∈ outstanding events → event ≠ .free block.base →
          ∃ since size older, event :: events = since ++ .malloc size block.base :: older ∧
            block.base ≠ 0 ∧ ∀ other ∈ since, other ≠ .free block.base := by
        intro earlier different
        obtain ⟨since, size, older, split, nonzero, unfreed⟩ := inductionHypothesis earlier
        refine ⟨event :: since, size, older, by rw [split]; rfl, nonzero, ?_⟩
        intro other otherMembership
        rcases List.mem_cons.mp otherMembership with rfl | inSince
        · exact different
        · exact unfreed other inSince
      cases event with
      | malloc size answer =>
          by_cases failed : answer = 0
          · exact extend (by simpa [outstanding, failed] using membership) (by simp)
          · simp only [outstanding, if_neg failed, List.mem_cons] at membership
            rcases membership with rfl | earlier
            · exact ⟨[], size, events, rfl, failed, by simp⟩
            · exact extend earlier (by simp)
      | free address =>
          simp only [outstanding, List.mem_filter, decide_eq_true_eq] at membership
          refine extend membership.1 ?_
          rintro ⟨⟩
          exact membership.2 rfl

variable {cast : AddressSpaceCast} {high : Nat}

/-- The buddy block behind an allocation. -/
def blockOf (cast : AddressSpaceCast) (allocation : Allocation) : Block :=
  ⟨cast.cast_user allocation.pointer, blockSize (request_size allocation.layout)⟩

structure Invariant (cast : AddressSpaceCast) (high : Nat) (state : State) : Prop where
  books : (state.live.map (blockOf cast)).Perm (outstanding state.world.events)
  granted : ∀ allocation ∈ state.live,
    (blockOf cast allocation).Granted high (request_size allocation.layout) ∧
      cast.cast_kern (blockOf cast allocation).base = allocation.pointer
  disjoint : state.live.Pairwise fun first second =>
    (blockOf cast first).Disjoint (blockOf cast second)
  frees : FreesOutstanding state.world.events

theorem Invariant.initial (memory : UInt64 → UInt8) :
    Invariant cast high ⟨⟨memory, []⟩, []⟩ :=
  ⟨by simp [outstanding], by simp, List.Pairwise.nil, trivial⟩

theorem Invariant.mem_outstanding {state : State} (invariant : Invariant cast high state)
    (allocation : Allocation) (membership : allocation ∈ state.live) :
    blockOf cast allocation ∈ outstanding state.world.events :=
  invariant.books.mem_iff.mp (List.mem_map_of_mem membership)

/-- The invariant does not speak about memory contents. -/
theorem Invariant.memory {world : World} {live : List Allocation}
    (invariant : Invariant cast high ⟨world, live⟩) (memory : UInt64 → UInt8) :
    Invariant cast high ⟨{ world with memory := memory }, live⟩ :=
  ⟨invariant.books, invariant.granted, invariant.disjoint, invariant.frees⟩

theorem Invariant.malloc (window : Window cast high) {world : World}
    {live : List Allocation} (invariant : Invariant cast high ⟨world, live⟩)
    {layout : Layout} {answer : UInt64} {memory : UInt64 → UInt8}
    (answers : Answers cast high world (request_size layout) answer memory) :
    Invariant cast high
      ⟨⟨memory, .malloc (request_size layout) answer :: world.events⟩,
        receive (if answer = 0 then 0 else cast.cast_kern answer) layout live⟩ := by
  by_cases failed : answer = 0
  · subst failed
    exact ⟨by simpa [receive, outstanding] using invariant.books,
      by simpa [receive] using invariant.granted,
      by simpa [receive] using invariant.disjoint, invariant.frees⟩
  · obtain ⟨granted, fresh⟩ := answers.block failed
    have nonzero := granted.cast_kern_ne_zero window
    have block : blockOf cast ⟨cast.cast_kern answer, layout⟩ =
        ⟨answer, blockSize (request_size layout)⟩ := by
      unfold blockOf
      rw [granted.cast_user_cast_kern window]
    simp only [if_neg failed, receive, if_neg nonzero]
    refine ⟨?_, ?_, ?_, invariant.frees⟩
    · simp only [outstanding, if_neg failed, List.map_cons, block]
      exact invariant.books.cons _
    · intro allocation membership
      rcases List.mem_cons.mp membership with rfl | earlier
      · rw [block]
        exact ⟨granted, rfl⟩
      · exact invariant.granted allocation earlier
    · refine List.pairwise_cons.mpr ⟨?_, invariant.disjoint⟩
      intro other membership
      rw [block]
      exact fresh _ (invariant.mem_outstanding _ membership)

theorem Invariant.bases_ne {world : World} {earlier later : List Allocation}
    {allocation : Allocation}
    (invariant : Invariant cast high ⟨world, earlier ++ allocation :: later⟩) :
    ∀ other ∈ earlier ++ later,
      (blockOf cast other).base ≠ (blockOf cast allocation).base := by
  intro other membership
  obtain ⟨-, tail, cross⟩ := List.pairwise_append.mp invariant.disjoint
  have disjoint : (blockOf cast other).Disjoint (blockOf cast allocation) := by
    rcases List.mem_append.mp membership with inEarlier | inLater
    · exact cross other inEarlier allocation (by simp)
    · exact ((List.pairwise_cons.mp tail).1 other inLater).symm
  exact disjoint.base_ne (blockSize_pos _) (blockSize_pos _)

theorem Invariant.free {world : World} {earlier later : List Allocation}
    {allocation : Allocation} (memory : UInt64 → UInt8)
    (invariant : Invariant cast high ⟨world, earlier ++ allocation :: later⟩) :
    Invariant cast high
      ⟨⟨memory, .free (cast.cast_user allocation.pointer) :: world.events⟩,
        earlier ++ later⟩ := by
  have remains : ∀ other ∈ earlier ++ later, other ∈ earlier ++ allocation :: later := by
    intro other membership
    rcases List.mem_append.mp membership with inEarlier | inLater
    · exact List.mem_append_left _ inEarlier
    · exact List.mem_append_right _ (List.mem_cons_of_mem _ inLater)
  refine ⟨?_, fun other membership => invariant.granted other (remains other membership),
    ?_, ?_, invariant.frees⟩
  · -- Only the freed block has its base, so the filter drops exactly that one.
    have filtered := invariant.books.filter
      fun block => decide (block.base ≠ cast.cast_user allocation.pointer)
    refine List.Perm.trans (.of_eq ?_) filtered
    have kept : ∀ other ∈ earlier ++ later,
        (blockOf cast other).base ≠ cast.cast_user allocation.pointer :=
      invariant.bases_ne
    have keptEarlier : ∀ block ∈ earlier.map (blockOf cast),
        decide (block.base ≠ cast.cast_user allocation.pointer) = true := by
      intro block membership
      obtain ⟨other, inEarlier, rfl⟩ := List.mem_map.mp membership
      exact decide_eq_true (kept other (List.mem_append_left _ inEarlier))
    have keptLater : ∀ block ∈ later.map (blockOf cast),
        decide (block.base ≠ cast.cast_user allocation.pointer) = true := by
      intro block membership
      obtain ⟨other, inLater, rfl⟩ := List.mem_map.mp membership
      exact decide_eq_true (kept other (List.mem_append_right _ inLater))
    rw [List.map_append, List.map_append, List.map_cons, List.filter_append,
      List.filter_eq_self.mpr keptEarlier,
      List.filter_cons_of_neg (by simp [blockOf]), List.filter_eq_self.mpr keptLater]
  · exact invariant.disjoint.sublist
      ((List.sublist_cons_self allocation later).append_left earlier)
  · exact exists_malloc_of_mem_outstanding
      (invariant.mem_outstanding allocation (by simp))

/-! ## Reading the invariant -/

theorem Invariant.holds_block {state : State} (invariant : Invariant cast high state)
    {allocation : Allocation} (membership : allocation ∈ state.live) {address : UInt64}
    (holds : allocation.Holds address) : (blockOf cast allocation).Holds cast address := by
  obtain ⟨lower, upper⟩ := holds
  have pointer := (invariant.granted allocation membership).2
  have size : allocation.layout.size.toNat ≤ (blockOf cast allocation).bytes :=
    size_le_blockSize allocation.layout
  refine ⟨?_, ?_⟩
  · rw [pointer]
    exact lower
  · rw [pointer]
    omega

/-- A change that keeps the outstanding blocks keeps every live allocation. -/
theorem Invariant.keeps {state : State} (invariant : Invariant cast high state)
    {before after : UInt64 → UInt8}
    (kept : KeepsBlocks cast (outstanding state.world.events) before after)
    {allocation : Allocation} (membership : allocation ∈ state.live) {address : UInt64}
    (holds : allocation.Holds address) : after address = before address :=
  kept _ (invariant.mem_outstanding _ membership) address
    (invariant.holds_block membership holds)

theorem Invariant.separate {state : State} (window : Window cast high)
    (invariant : Invariant cast high state) :
    state.live.Pairwise fun first second =>
      ∀ address, ¬(first.Holds address ∧ second.Holds address) := by
  refine List.Pairwise.imp_of_mem ?_ invariant.disjoint
  rintro first second firstMember secondMember disjoint address ⟨inFirst, inSecond⟩
  exact disjoint.kernel window (invariant.granted first firstMember).1
    (invariant.granted second secondMember).1 address
    ⟨invariant.holds_block firstMember inFirst, invariant.holds_block secondMember inSecond⟩

/-- What the caller of an allocation gets: alignment, and a buddy block that
starts at the pointer, does not wrap, and has the bytes asked for. -/
structure Served (cast : AddressSpaceCast) (state : State) (pointer : UInt64)
    (layout : Layout) : Prop where
  aligned : layout.align.toNat ∣ pointer.toNat
  block : ∃ block ∈ outstanding state.world.events,
    cast.cast_kern block.base = pointer ∧ layout.size.toNat ≤ block.bytes ∧
      pointer.toNat + block.bytes ≤ 2 ^ 64

theorem Invariant.served {state : State} (window : Window cast high)
    (invariant : Invariant cast high state) (allocation : Allocation)
    (membership : allocation ∈ state.live) :
    allocation.pointer ≠ 0 ∧ Served cast state allocation.pointer allocation.layout := by
  obtain ⟨granted, pointer⟩ := invariant.granted allocation membership
  refine ⟨?_, ?_, _, invariant.mem_outstanding _ membership, pointer,
    size_le_blockSize allocation.layout, ?_⟩
  · rw [← pointer]
    exact granted.cast_kern_ne_zero window
  · rw [← pointer]
    exact (align_dvd_blockSize allocation.layout).trans (granted.bytes_dvd_cast_kern window)
  · rw [← pointer]
    exact granted.cast_kern_add_bytes_le window

theorem filled_outside {memory : UInt64 → UInt8} {byte : UInt8} {pointer address : UInt64}
    {layout : Layout} (outside : ¬(Allocation.mk pointer layout).Holds address) :
    filled memory pointer byte layout.size address = memory address :=
  if_neg outside

theorem filled_inside {memory : UInt64 → UInt8} {byte : UInt8} {pointer address : UInt64}
    {layout : Layout} (inside : (Allocation.mk pointer layout).Holds address) :
    filled memory pointer byte layout.size address = byte :=
  if_pos inside

theorem toNat_min (a b : UInt64) : (min a b).toNat = min a.toNat b.toNat := by
  change (if a ≤ b then a else b).toNat = _
  by_cases order : a ≤ b
  · rw [if_pos order]
    exact (Nat.min_eq_left (UInt64.le_iff_toNat_le.mp order)).symm
  · rw [if_neg order]
    rw [UInt64.le_iff_toNat_le] at order
    exact (Nat.min_eq_right (by omega)).symm

/-- The copy of `realloc` writes only into the new allocation. -/
theorem copied_outside {memory : UInt64 → UInt8} {source pointer address size : UInt64}
    {layout : Layout} (outside : ¬(Allocation.mk pointer layout).Holds address) :
    copied memory source pointer (min size layout.size) address = memory address := by
  apply if_neg
  rintro ⟨lower, upper⟩
  rw [toNat_min] at upper
  exact outside ⟨lower, by simp only; omega⟩

theorem toNat_add_ofNat {pointer : UInt64} {i : Nat} (fits : pointer.toNat + i < 2 ^ 64) :
    (pointer + UInt64.ofNat i).toNat = pointer.toNat + i := by
  rw [UInt64.toNat_add, UInt64.toNat_ofNat_of_lt' (by simp only [UInt64.size]; omega)]
  exact Nat.mod_eq_of_lt fits

theorem copied_inside {memory : UInt64 → UInt8} {source pointer count : UInt64} {i : Nat}
    (below : i < count.toNat) (fits : pointer.toNat + i < 2 ^ 64) :
    copied memory source pointer count (pointer + UInt64.ofNat i) =
      memory (source + UInt64.ofNat i) := by
  have address := toNat_add_ofNat fits
  unfold copied
  rw [if_pos ⟨by omega, by omega⟩, UInt64.add_comm pointer, UInt64.add_sub_cancel]

/-! ## The four methods -/

/-- What one operation of the client must give it. -/
def Delivered (cast : AddressSpaceCast) (before : State) (operation : Operation)
    (pointer : UInt64) (after : State) : Prop :=
  match operation with
  | .alloc layout => pointer ≠ 0 → Served cast after pointer layout
  | .alloc_zeroed layout =>
      pointer ≠ 0 → Served cast after pointer layout ∧
        ∀ address, (Allocation.mk pointer layout).Holds address →
          after.world.memory address = 0
  | .realloc old layout new_layout =>
      (pointer ≠ 0 → Served cast after pointer new_layout ∧
        ∀ i < min layout.size.toNat new_layout.size.toNat,
          after.world.memory (pointer + UInt64.ofNat i) =
            before.world.memory (old + UInt64.ofNat i)) ∧
      (pointer = 0 → ⟨old, layout⟩ ∈ after.live)
  | .dealloc _ _ => True
  | .write => True

/-- Allocations that survive an operation other than a client write keep their bytes. -/
def Framed (before : State) (operation : Operation) (after : State) : Prop :=
  operation ≠ .write →
    ∀ allocation ∈ before.live, allocation ∈ after.live →
      ∀ address, allocation.Holds address →
        after.world.memory address = before.world.memory address

theorem step_alloc (window : Window cast high) {world after : World}
    {live : List Allocation} {layout : Layout} {pointer : UInt64}
    (invariant : Invariant cast high ⟨world, live⟩)
    (run : Runs cast high (alloc cast layout) world pointer after) :
    Invariant cast high ⟨after, receive pointer layout live⟩ ∧
      ∀ allocation ∈ live, ∀ address, allocation.Holds address →
        after.memory address = world.memory address := by
  obtain ⟨answer, memory, answers, rfl, rfl⟩ := runs_alloc.mp run
  exact ⟨invariant.malloc window answers,
    fun allocation membership address holds => invariant.keeps answers.keeps membership holds⟩

/-- What `alloc` returned is the newest of the live allocations. -/
theorem Invariant.received (window : Window cast high) {world : World}
    {live : List Allocation} {layout : Layout} {pointer : UInt64}
    (invariant : Invariant cast high ⟨world, receive pointer layout live⟩)
    (served : pointer ≠ 0) :
    Served cast ⟨world, receive pointer layout live⟩ pointer layout ∧
      ∀ allocation ∈ live, ∀ address, allocation.Holds address →
        ¬(Allocation.mk pointer layout).Holds address := by
  unfold receive at invariant ⊢
  rw [if_neg served] at invariant ⊢
  refine ⟨(invariant.served window ⟨pointer, layout⟩ (by simp)).2, ?_⟩
  intro allocation membership address holds inNew
  exact (List.pairwise_cons.mp (invariant.separate window)).1 allocation membership address
    ⟨inNew, holds⟩

theorem step_alloc_zeroed (window : Window cast high) {world after : World}
    {live : List Allocation} {layout : Layout} {pointer : UInt64}
    (invariant : Invariant cast high ⟨world, live⟩)
    (run : Runs cast high (alloc_zeroed cast layout) world pointer after) :
    Invariant cast high ⟨after, receive pointer layout live⟩ ∧
      (pointer ≠ 0 → ∀ address, (Allocation.mk pointer layout).Holds address →
        after.memory address = 0) ∧
      ∀ allocation ∈ live, ∀ address, allocation.Holds address →
        after.memory address = world.memory address := by
  obtain ⟨middle, start, rfl⟩ := runs_alloc_zeroed.mp run
  obtain ⟨allocated, kept⟩ := step_alloc window invariant start
  by_cases failed : pointer = 0
  · simp only [if_pos failed]
    exact ⟨allocated, fun served => absurd failed served, kept⟩
  · simp only [if_neg failed]
    refine ⟨allocated.memory _, fun _ address inside => filled_inside inside, ?_⟩
    intro allocation membership address holds
    have outside := (allocated.received window failed).2 allocation membership address holds
    rw [filled_outside outside]
    exact kept allocation membership address holds

theorem step_dealloc {world after : World} (earlier : List Allocation) {later : List Allocation}
    {pointer : UInt64} {layout : Layout}
    (invariant : Invariant cast high ⟨world, earlier ++ ⟨pointer, layout⟩ :: later⟩)
    (run : Runs cast high (dealloc cast pointer layout) world () after) :
    Invariant cast high ⟨after, earlier ++ later⟩ ∧
      ∀ allocation ∈ earlier ++ later, ∀ address, allocation.Holds address →
        after.memory address = world.memory address := by
  obtain ⟨memory, keeps, rfl⟩ := runs_dealloc.mp run
  have freed := invariant.free memory
  exact ⟨freed, fun allocation membership address holds =>
    freed.keeps keeps membership holds⟩

theorem step_realloc (window : Window cast high) {world after : World}
    {earlier later : List Allocation} {old pointer : UInt64} {layout new_layout : Layout}
    (invariant : Invariant cast high ⟨world, earlier ++ ⟨old, layout⟩ :: later⟩)
    (run : Runs cast high (realloc cast old layout new_layout) world pointer after)
    (served : pointer ≠ 0) :
    Invariant cast high ⟨after, ⟨pointer, new_layout⟩ :: (earlier ++ later)⟩ ∧
      (∀ i < min layout.size.toNat new_layout.size.toNat,
        after.memory (pointer + UInt64.ofNat i) = world.memory (old + UInt64.ofNat i)) ∧
      (∀ allocation ∈ earlier ++ ⟨old, layout⟩ :: later, ∀ address,
        allocation.Holds address → ¬(Allocation.mk pointer new_layout).Holds address) ∧
      ∀ allocation ∈ earlier ++ later, ∀ address, allocation.Holds address →
        after.memory address = world.memory address := by
  obtain ⟨middle, start, -, finish⟩ := runs_realloc.mp run
  obtain ⟨allocated, kept⟩ := step_alloc window invariant start
  have fresh := (allocated.received window served).2
  unfold receive at allocated
  rw [if_neg served] at allocated
  have copiedState := allocated.memory
    (copied middle.memory old pointer (min layout.size new_layout.size))
  obtain ⟨freed, keptAfter⟩ := step_dealloc (⟨pointer, new_layout⟩ :: earlier)
    copiedState (finish served)
  refine ⟨freed, ?_, fresh, ?_⟩
  · intro i below
    obtain ⟨-, newServed⟩ := freed.served window ⟨pointer, new_layout⟩ (by simp)
    obtain ⟨block, -, -, size, fits⟩ := newServed.block
    obtain ⟨-, oldServed⟩ := invariant.served window ⟨old, layout⟩ (by simp)
    obtain ⟨oldBlock, -, -, oldSize, oldFits⟩ := oldServed.block
    simp only at size fits oldSize oldFits
    have newAddress : (pointer + UInt64.ofNat i).toNat = pointer.toNat + i :=
      toNat_add_ofNat (by omega)
    have oldAddress : (old + UInt64.ofNat i).toNat = old.toNat + i :=
      toNat_add_ofNat (by omega)
    calc after.memory (pointer + UInt64.ofNat i)
        = copied middle.memory old pointer (min layout.size new_layout.size)
            (pointer + UInt64.ofNat i) :=
          keptAfter ⟨pointer, new_layout⟩ (by simp) _
            ⟨by simp only; omega, by simp only; omega⟩
      _ = middle.memory (old + UInt64.ofNat i) :=
          copied_inside (by rw [toNat_min]; exact below) (by omega)
      _ = world.memory (old + UInt64.ofNat i) :=
          kept ⟨old, layout⟩ (by simp) _ ⟨by simp only; omega, by simp only; omega⟩
  · intro allocation membership address holds
    have original : allocation ∈ earlier ++ ⟨old, layout⟩ :: later := by
      rcases List.mem_append.mp membership with inEarlier | inLater
      · exact List.mem_append_left _ inEarlier
      · exact List.mem_append_right _ (List.mem_cons_of_mem _ inLater)
    calc after.memory address
        = copied middle.memory old pointer (min layout.size new_layout.size) address :=
          keptAfter allocation (List.mem_cons_of_mem _ membership) address holds
      _ = middle.memory address := copied_outside (fresh allocation original address holds)
      _ = world.memory address := kept allocation original address holds

/-- One operation keeps the invariant and delivers what it must. -/
theorem Step.sound (window : Window cast high) {before after : State}
    {operation : Operation} {pointer : UInt64} (invariant : Invariant cast high before)
    (step : Step cast high before operation pointer after) :
    Invariant cast high after ∧ Delivered cast before operation pointer after ∧
      Framed before operation after := by
  cases step with
  | alloc run =>
      obtain ⟨allocated, kept⟩ := step_alloc window invariant run
      exact ⟨allocated, fun served => (allocated.received window served).1,
        fun _ allocation membership _ => kept allocation membership⟩
  | alloc_zeroed run =>
      obtain ⟨allocated, zeroed, kept⟩ := step_alloc_zeroed window invariant run
      exact ⟨allocated,
        fun served => ⟨(allocated.received window served).1, zeroed served⟩,
        fun _ allocation membership _ => kept allocation membership⟩
  | @realloc world earlier later old layout new_layout _ after sameAlign run =>
      by_cases failed : pointer = 0
      · obtain ⟨middle, start, whenNull, -⟩ := runs_realloc.mp run
        rw [← whenNull failed] at start
        obtain ⟨allocated, kept⟩ := step_alloc window invariant start
        unfold receive at allocated
        rw [if_pos failed] at allocated
        simp only [if_pos failed]
        exact ⟨allocated, ⟨fun served => absurd failed served, fun _ => by simp⟩,
          fun _ allocation membership _ => kept allocation membership⟩
      · obtain ⟨reallocated, copiedBytes, fresh, kept⟩ := step_realloc window invariant run failed
        simp only [if_neg failed]
        refine ⟨reallocated, ⟨fun _ => ⟨?_, copiedBytes⟩, fun zero => absurd zero failed⟩, ?_⟩
        · exact (reallocated.served window ⟨pointer, new_layout⟩ (by simp)).2
        · intro _ allocation membership survives address holds
          rcases List.mem_cons.mp survives with rfl | rest
          · exact absurd holds (fresh _ membership address holds)
          · exact kept allocation rest address holds
  | dealloc run =>
      obtain ⟨freed, kept⟩ := step_dealloc _ invariant run
      exact ⟨freed, trivial, fun _ allocation _ survives => kept allocation survives⟩
  | write unchanged =>
      exact ⟨invariant.memory _, trivial, fun noWrite => absurd rfl noWrite⟩

theorem Reachable.invariant (window : Window cast high) {state : State}
    (reachable : Reachable cast high state) : Invariant cast high state := by
  induction reachable with
  | initial => exact .initial _
  | step _ step inductionHypothesis => exact (step.sound window inductionHypothesis).1

/-- In every reachable state the live allocations are aligned, lie in their
blocks and are disjoint, and every free so far was of an outstanding block;
from it, every operation of a well-behaved client delivers what it must. -/
theorem arenaAlloc_correct (window : Window cast high) {state : State}
    (reachable : Reachable cast high state) :
    (∀ allocation ∈ state.live, allocation.pointer ≠ 0 ∧
        Served cast state allocation.pointer allocation.layout) ∧
      state.live.Pairwise (fun first second =>
        ∀ address, ¬(first.Holds address ∧ second.Holds address)) ∧
      FreesOutstanding state.world.events ∧
      ∀ operation pointer after, Step cast high state operation pointer after →
        Delivered cast state operation pointer after ∧ Framed state operation after := by
  have invariant := reachable.invariant window
  exact ⟨fun allocation membership => invariant.served window allocation membership,
    invariant.separate window, invariant.frees,
    fun operation pointer after step => (step.sound window invariant).2⟩

/-! ## A run -/

/-- The casts of an x86 kernel with the arena mapped at `1 << 44`. -/
def sampleCast : AddressSpaceCast where
  cast_kern u := UInt64.ofNat (low u)
  cast_user p := UInt64.ofNat (2 ^ 44 + low p)

theorem sampleCast_window : Window sampleCast (2 ^ 12) := by
  refine ⟨fun u => ?_, fun p _ => ?_⟩
  · have bound := Nat.mod_lt u.toNat (Nat.two_pow_pos 32)
    simp only [sampleCast, low, UInt64.toNat_ofNat']
    omega
  · have bound := Nat.mod_lt p.toNat (Nat.two_pow_pos 32)
    simp only [sampleCast, low, UInt64.toNat_ofNat']
    omega

/-- A layout with the alignment of eight bytes that all of the samples have. -/
def eightAligned (size : UInt64) (fits : size.toNat + 8 ≤ 2 ^ 63) : Layout where
  size := size
  align := 8
  align_powerOfTwo := ⟨3, by decide⟩
  size_fits := fits

def sampleLayout : Layout := eightAligned 100 (by decide)

def grownLayout : Layout := eightAligned 200 (by decide)

theorem blockSize_sample : blockSize (request_size sampleLayout) = 128 := by
  decide +kernel

theorem blockSize_grown : blockSize (request_size grownLayout) = 256 := by
  decide +kernel

/-- A block at its own alignment in the first page of the arena. -/
theorem granted_sample {layout : Layout} {bytes : Nat} {answer : UInt64}
    (size : blockSize (request_size layout) = bytes) (aligned : bytes ∣ answer.toNat)
    (lower : 2 ^ 44 < answer.toNat) (upper : answer.toNat + bytes ≤ 2 ^ 44 + 2 ^ 12) :
    Block.Granted (2 ^ 12) (request_size layout) ⟨answer, blockSize (request_size layout)⟩ := by
  rw [size]
  refine ⟨size.symm, aligned, ?_, ?_⟩
  · simp only [low]
    omega
  · rintro address ⟨start, stop⟩
    simp only at start stop
    omega

/-- Each byte holds the low byte of its address. -/
def lowBytes : UInt64 → UInt8 := UInt64.toUInt8

/-- One `alloc`, which the buddy allocator served at offset 128. -/
def servedState : State where
  world := ⟨lowBytes, [.malloc (request_size sampleLayout) (2 ^ 44 + 128)]⟩
  live := [⟨128, sampleLayout⟩]

/-- Then a `realloc` that it answered with 0. -/
def refusedState : State where
  world := ⟨lowBytes, .malloc (request_size grownLayout) 0 :: servedState.world.events⟩
  live := [⟨128, sampleLayout⟩]

/-- Then one that it served at offset 256. -/
def grownState : State where
  world := ⟨copied lowBytes 128 256 100, .free (2 ^ 44 + 128) ::
    .malloc (request_size grownLayout) (2 ^ 44 + 256) :: refusedState.world.events⟩
  live := [⟨256, grownLayout⟩]

def releasedState : State where
  world := ⟨grownState.world.memory, .free (2 ^ 44 + 256) :: grownState.world.events⟩
  live := []

theorem servedState_reachable : Reachable sampleCast (2 ^ 12) servedState := by
  have answers : Answers sampleCast (2 ^ 12) ⟨lowBytes, []⟩ (request_size sampleLayout)
      (2 ^ 44 + 128) lowBytes :=
    ⟨fun _ => ⟨granted_sample blockSize_sample (by decide) (by decide) (by decide),
      by simp [outstanding]⟩, fun _ _ _ _ => rfl⟩
  have run : Runs sampleCast (2 ^ 12) (alloc sampleCast sampleLayout) ⟨lowBytes, []⟩ 128
      servedState.world := runs_alloc.mpr ⟨_, _, answers, by decide, rfl⟩
  have step : Step sampleCast (2 ^ 12) ⟨⟨lowBytes, []⟩, []⟩ (.alloc sampleLayout) 128
      servedState := .alloc run
  exact .step .initial step

theorem refusedState_step : Step sampleCast (2 ^ 12) servedState
    (.realloc 128 sampleLayout grownLayout) 0 refusedState := by
  have answers : Answers sampleCast (2 ^ 12) servedState.world (request_size grownLayout) 0
      lowBytes := ⟨fun nonzero => absurd rfl nonzero, fun _ _ _ _ => rfl⟩
  have start : Runs sampleCast (2 ^ 12) (alloc sampleCast grownLayout) servedState.world 0
      refusedState.world := runs_alloc.mpr ⟨_, _, answers, rfl, rfl⟩
  have run : Runs sampleCast (2 ^ 12) (realloc sampleCast 128 sampleLayout grownLayout)
      servedState.world 0 refusedState.world :=
    runs_realloc.mpr ⟨_, start, fun _ => rfl, fun nonzero => absurd rfl nonzero⟩
  exact @Step.realloc sampleCast (2 ^ 12) _ [] [] _ _ _ _ _ rfl run

theorem grownState_step : Step sampleCast (2 ^ 12) refusedState
    (.realloc 128 sampleLayout grownLayout) 256 grownState := by
  have apart : ∀ other ∈ outstanding refusedState.world.events,
      Block.Disjoint ⟨2 ^ 44 + 256, blockSize (request_size grownLayout)⟩ other := by
    intro other member
    have base : (2 ^ 44 + 128 : UInt64).toNat = 2 ^ 44 + 128 := by decide
    have newBase : (2 ^ 44 + 256 : UInt64).toNat = 2 ^ 44 + 256 := by decide
    obtain ⟨-, only⟩ : ¬(2 ^ 44 + 128 : UInt64) = 0 ∧
        other = ⟨2 ^ 44 + 128, blockSize (request_size sampleLayout)⟩ := by
      simpa [refusedState, servedState, outstanding] using member
    rintro address ⟨inNew, inOld⟩
    have start := inNew.1
    have stop := inOld.2
    rw [only, blockSize_sample] at stop
    simp only [base, newBase] at start stop
    omega
  have answers : Answers sampleCast (2 ^ 12) refusedState.world (request_size grownLayout)
      (2 ^ 44 + 256) lowBytes :=
    ⟨fun _ => ⟨granted_sample blockSize_grown (by decide) (by decide) (by decide), apart⟩,
      fun _ _ _ _ => rfl⟩
  have start : Runs sampleCast (2 ^ 12) (alloc sampleCast grownLayout) refusedState.world 256
      ⟨lowBytes, .malloc (request_size grownLayout) (2 ^ 44 + 256) :: refusedState.world.events⟩ :=
    runs_alloc.mpr ⟨_, _, answers, by decide, rfl⟩
  have released : Runs sampleCast (2 ^ 12) (dealloc sampleCast 128 sampleLayout)
      ⟨copied lowBytes 128 256 100,
        .malloc (request_size grownLayout) (2 ^ 44 + 256) :: refusedState.world.events⟩ ()
      grownState.world := runs_dealloc.mpr ⟨_, fun _ _ _ _ => rfl, rfl⟩
  have run : Runs sampleCast (2 ^ 12) (realloc sampleCast 128 sampleLayout grownLayout)
      refusedState.world 256 grownState.world :=
    runs_realloc.mpr ⟨_, start, fun zero => absurd zero (by decide), fun _ => released⟩
  exact @Step.realloc sampleCast (2 ^ 12) _ [] [] _ _ _ _ _ rfl run

theorem releasedState_step : Step sampleCast (2 ^ 12) grownState (.dealloc 256 grownLayout) 0
    releasedState :=
  @Step.dealloc sampleCast (2 ^ 12) _ [] [] _ _ _
    (runs_dealloc.mpr ⟨_, fun _ _ _ _ => rfl, rfl⟩)

/-- The block stays in the client's hands when no larger one is there, moves with its
bytes when there is one, and is freed once. -/
theorem arenaAlloc_correct_sample :
    ⟨128, sampleLayout⟩ ∈ refusedState.live ∧
      Served sampleCast grownState 256 grownLayout ∧
      (∀ i < 100, grownState.world.memory (256 + UInt64.ofNat i) =
        lowBytes (128 + UInt64.ofNat i)) ∧
      FreesOutstanding releasedState.world.events := by
  have served := servedState_reachable
  have refused := Reachable.step served refusedState_step
  have grown := Reachable.step refused grownState_step
  have released := Reachable.step grown releasedState_step
  have atRefusal := (arenaAlloc_correct sampleCast_window served).2.2.2 _ _ _ refusedState_step
  have atGrowth := (arenaAlloc_correct sampleCast_window refused).2.2.2 _ _ _ grownState_step
  have delivered := atGrowth.1.1 (by decide)
  exact ⟨atRefusal.1.2 rfl, delivered.1, delivered.2,
    (arenaAlloc_correct sampleCast_window released).2.2.1⟩

end LibarenaRs.Alloc
