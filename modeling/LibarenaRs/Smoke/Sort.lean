import Mathlib.Data.UInt

/-!
# The sort of the smoke test

`test_rs_sort` fills a vector in the arena, sorts it in place by swaps and looks at the
result.  It asks for every element with `get`, and what is not there ends the inner loop.
-/

namespace LibarenaRs.Smoke

/-! ## The source -/

def nextValue (x : UInt32) : UInt32 := x * 1664525 + 1013904223

/-- The elements that are pushed, and the variable behind the last. -/
def fill : Nat → UInt32 → Array UInt32 → Array UInt32
  | 0, _, v => v
  | count + 1, x, v => fill count (nextValue x) (v.push (nextValue x % 1000))

/-- `while j > 0` -/
def sink (v : Array UInt32) : Nat → Array UInt32
  | 0 => v
  | j + 1 =>
      match v[j]?, v[j + 1]? with
      | some a, some b => if a > b then sink (v.swapIfInBounds j (j + 1)) j else v
      | _, _ => v

/-- `for i in 1..n` -/
def insertionSort (n : Nat) (v : Array UInt32) : Array UInt32 :=
  (List.range' 1 (n - 1)).foldl sink v

/-- The loop over `prev`. -/
def rises : UInt32 → List UInt32 → Bool
  | _, [] => true
  | prev, k :: rest => if k < prev then false else rises k rest

/-- What the test returns for the vector it ends with. -/
def verdict (v : Array UInt32) : Int32 :=
  if !rises 0 v.toList then 1
  else if v.isEmpty || v.size > 24 then 2
  else 0

/-- The test, for any number of elements and any first value. -/
def sortTest (count : Nat) (x : UInt32) : Int32 := verdict (insertionSort count (fill count x #[]))

def test_rs_sort : Int32 := sortTest 24 1

/-! ## The inner loop -/

variable {v : Array UInt32}

/-- The elements below this index are sorted. -/
def SortedTo (n : Nat) (v : Array UInt32) : Prop :=
  ∀ p q a b, p < q → q < n → v[p]? = some a → v[q]? = some b → a ≤ b

/-- The same, but for the element at `j`, which may be too far to the right. -/
def SortedBut (n j : Nat) (v : Array UInt32) : Prop :=
  ∀ p q a b, p < q → q < n → q ≠ j → v[p]? = some a → v[q]? = some b → a ≤ b

theorem swap_eq {j : Nat} {b : UInt32} (second : v[j + 1]? = some b) :
    ∃ low high, v.swapIfInBounds j (j + 1) = v.swap j (j + 1) low high := by
  obtain ⟨high, -⟩ := Array.getElem?_eq_some_iff.mp second
  refine ⟨Nat.lt_of_succ_lt high, high, ?_⟩
  rw [Array.swapIfInBounds_def, dif_pos (Nat.lt_of_succ_lt high), dif_pos high]

theorem getElem?_swapped {j p : Nat} {a b : UInt32} (first : v[j]? = some a)
    (second : v[j + 1]? = some b) :
    (v.swapIfInBounds j (j + 1))[p]? =
      if p = j then some b else if p = j + 1 then some a else v[p]? := by
  obtain ⟨low, high, swapped⟩ := swap_eq second
  rw [swapped, Array.getElem?_swap, ← second, ← first, Array.getElem?_eq_getElem high,
    Array.getElem?_eq_getElem low]
  by_cases here : p = j
  · simp [here]
  · by_cases next : p = j + 1
    · simp [next]
    · simp [here, next, Ne.symm here, Ne.symm next]

theorem perm_swapped {j : Nat} {b : UInt32} (second : v[j + 1]? = some b) :
    (v.swapIfInBounds j (j + 1)).Perm v := by
  obtain ⟨low, high, swapped⟩ := swap_eq second
  rw [swapped]
  exact Array.swap_perm low high

/-- A swap puts the element that is too far to the right one place to the left. -/
theorem SortedBut.swapped {n j : Nat} {a b : UInt32} (sorted : SortedBut n (j + 1) v)
    (first : v[j]? = some a) (second : v[j + 1]? = some b) (wrong : b < a) :
    SortedBut n j (v.swapIfInBounds j (j + 1)) := by
  intro p q x y before inside notHere atP atQ
  rw [getElem?_swapped first second] at atP atQ
  rw [if_neg notHere] at atQ
  by_cases right : q = j + 1
  · rw [if_pos right] at atQ
    obtain rfl := Option.some.inj atQ
    by_cases left : p = j
    · rw [if_pos left] at atP
      obtain rfl := Option.some.inj atP
      exact UInt32.le_of_lt wrong
    · rw [if_neg left, if_neg (by omega)] at atP
      exact sorted p j x a (by omega) (by omega) (by omega) atP first
  · rw [if_neg right] at atQ
    by_cases left : p = j
    · rw [if_pos left] at atP
      obtain rfl := Option.some.inj atP
      exact sorted (j + 1) q b y (by omega) inside right second atQ
    · rw [if_neg left] at atP
      by_cases next : p = j + 1
      · rw [if_pos next] at atP
        obtain rfl := Option.some.inj atP
        exact sorted j q a y (by omega) inside right first atQ
      · rw [if_neg next] at atP
        exact sorted p q x y before inside right atP atQ

/-- Where the element is not too far to the right, nothing is. -/
theorem SortedBut.sorted {n j : Nat} (sorted : SortedBut n (j + 1) v)
    (right : ∀ a b, v[j]? = some a → v[j + 1]? = some b → a ≤ b) : SortedTo n v := by
  intro p q x y before inside atP atQ
  by_cases here : q = j + 1
  · subst here
    by_cases next : p = j
    · subst next
      exact right x y atP atQ
    · have bound := (Array.getElem?_eq_some_iff.mp atQ).1
      have atJ : v[j]? = some v[j] := Array.getElem?_eq_getElem (by omega)
      exact UInt32.le_trans (sorted p j x _ (by omega) (by omega) (by omega) atP atJ)
        (right _ y atJ atQ)
  · exact sorted p q x y before inside here atP atQ

/-- The inner loop sinks the element to its place. -/
theorem sink_spec {n j : Nat} (inside : j < n) (sorted : SortedBut n j v) :
    SortedTo n (sink v j) ∧ (sink v j).Perm v ∧ ∀ k, n ≤ k → (sink v j)[k]? = v[k]? := by
  induction j generalizing v with
  | zero =>
      refine ⟨?_, Array.Perm.rfl, fun k _ => rfl⟩
      intro p q a b before inside
      exact sorted p q a b before inside (by omega)
  | succ j inductionHypothesis =>
      rw [sink]
      split
      · rename_i a b first second
        split
        · rename_i wrong
          obtain ⟨done, perm, kept⟩ :=
            inductionHypothesis (by omega) (sorted.swapped first second wrong)
          refine ⟨done, perm.trans (perm_swapped second), ?_⟩
          intro k outside
          rw [kept k outside, getElem?_swapped first second, if_neg (by omega),
            if_neg (by omega)]
        · rename_i fine
          refine ⟨sorted.sorted ?_, Array.Perm.rfl, fun k _ => rfl⟩
          intro x y atJ atNext
          rw [first] at atJ
          rw [second] at atNext
          obtain rfl := Option.some.inj atJ
          obtain rfl := Option.some.inj atNext
          exact UInt32.not_lt.mp fine
      · rename_i missing
        refine ⟨sorted.sorted ?_, Array.Perm.rfl, fun k _ => rfl⟩
        intro a b atJ atNext
        exact absurd atNext (missing a b atJ)

/-! ## The outer loop -/

theorem foldl_sink (v : Array UInt32) (count : Nat) :
    SortedTo (count + 1) ((List.range' 1 count).foldl sink v) ∧
      ((List.range' 1 count).foldl sink v).Perm v ∧
      ∀ k, count < k → ((List.range' 1 count).foldl sink v)[k]? = v[k]? := by
  induction count with
  | zero =>
      refine ⟨?_, Array.Perm.rfl, fun k _ => rfl⟩
      intro p q a b before inside
      omega
  | succ count inductionHypothesis =>
      obtain ⟨sorted, perm, kept⟩ := inductionHypothesis
      have almost : SortedBut (count + 2) (1 + count)
          ((List.range' 1 count).foldl sink v) := by
        intro p q a b before inside notLast
        exact sorted p q a b before (by omega)
      obtain ⟨done, permuted, untouched⟩ := sink_spec (by omega) almost
      rw [List.range'_1_concat, List.foldl_append, List.foldl_cons, List.foldl_nil]
      refine ⟨done, permuted.trans perm, ?_⟩
      intro k outside
      rw [untouched k (by omega), kept k (by omega)]

theorem rises_of_pairwise {prev : UInt32} {rest : List UInt32}
    (sorted : (prev :: rest).Pairwise (· ≤ ·)) : rises prev rest = true := by
  induction rest generalizing prev with
  | nil => rfl
  | cons k rest inductionHypothesis =>
      have first : prev ≤ k := (List.pairwise_cons.mp sorted).1 k List.mem_cons_self
      rw [rises, if_neg (UInt32.not_lt.mpr first)]
      exact inductionHypothesis (List.pairwise_cons.mp sorted).2

theorem rises_of_sortedTo {w : Array UInt32} (sorted : SortedTo w.size w) :
    rises 0 w.toList = true := by
  apply rises_of_pairwise
  refine List.pairwise_cons.mpr ⟨fun k _ => UInt32.le_iff_toNat_le.mpr (Nat.zero_le _), ?_⟩
  rw [List.pairwise_iff_getElem]
  intro p q low high before
  apply sorted p q _ _ before high <;> exact Array.getElem?_eq_getElem _

/-- Once all of the vector is sorted, only its size decides. -/
theorem verdict_insertionSort {n : Nat} (covered : v.size ≤ n) :
    verdict (insertionSort n v) = if v.isEmpty || v.size > 24 then 2 else 0 := by
  obtain ⟨sorted, perm, -⟩ := foldl_sink v (n - 1)
  have size : (insertionSort n v).size = v.size := perm.size_eq
  have all : SortedTo (insertionSort n v).size (insertionSort n v) := by
    intro p q a b before inside
    exact sorted p q a b before (by omega)
  rw [verdict, rises_of_sortedTo all, Array.isEmpty, Array.isEmpty, size]
  rfl

theorem size_fill (count : Nat) (x : UInt32) (v : Array UInt32) :
    (fill count x v).size = v.size + count := by
  induction count generalizing x v with
  | zero => rfl
  | succ count inductionHypothesis =>
      rw [fill, inductionHypothesis, Array.size_push]
      omega

/-- Whatever the first value, up to 24 elements pass the test. -/
theorem sortTest_passes (count : Nat) (x : UInt32) :
    sortTest count x = if count = 0 ∨ 24 < count then 2 else 0 := by
  have size : (fill count x #[]).size = count := (size_fill count x #[]).trans (Nat.zero_add _)
  rw [sortTest, verdict_insertionSort (by rw [size]), Array.isEmpty, size]
  simp only [Bool.or_eq_true, decide_eq_true_eq, gt_iff_lt]

/-- The loops sort the first `n` elements and leave the others, and no element is lost. -/
theorem insertionSort_correct (n : Nat) (v : Array UInt32) :
    SortedTo n (insertionSort n v) ∧ (insertionSort n v).Perm v ∧
      (∀ k, n ≤ k → (insertionSort n v)[k]? = v[k]?) ∧
      (v.size ≤ n → verdict (insertionSort n v) = if v.isEmpty || v.size > 24 then 2 else 0) := by
  obtain ⟨sorted, perm, kept⟩ := foldl_sink v (n - 1)
  refine ⟨?_, perm, ?_, verdict_insertionSort⟩
  · intro p q a b before inside
    exact sorted p q a b before (by omega)
  · intro k outside
    cases n with
    | zero => rfl
    | succ n => exact kept k outside

end LibarenaRs.Smoke
