import Dag.GoSortSorted

namespace Dag.GoSort

/-!
# The quicksort sorts

Both partitions of `sort/zsortinterface.go` run the same loop: `i` scans up over elements
with a property, `j` scans down over elements without it, and an out-of-place pair is swapped.
`Split` is that loop's invariant, `Split.round` what one round does to it; `partition` and
`partitionEqual` are then correct for every `Less`.  With a comparison of keys the
nearly-sorted pass and `pdqsort` itself sort their window, provided the element before the
window is no greater than the window (`Above`), which is what keeps Go's left shift from
running below `a` and what makes `partitionEqual` sound.
-/

variable {α : Type} [Inhabited α]

/-! ## Scans -/

/-- `scanUp` passes only positions with `cond` and stops at one without it, unless it passed
`j`. -/
theorem scanUp_spec (cond : Nat → Bool) (j : Nat) :
    ∀ fuel i, j + 1 - i ≤ fuel →
      (∀ k, i ≤ k → k < scanUp cond j fuel i → cond k = true) ∧
        (scanUp cond j fuel i ≤ j → cond (scanUp cond j fuel i) = false)
  | 0, i, enough => by
      simp only [scanUp]
      exact ⟨fun k lower upper => by omega, fun within => by omega⟩
  | fuel + 1, i, enough => by
      rw [scanUp]
      split
      · next passes =>
          have rest := scanUp_spec cond j fuel (i + 1) (by omega)
          refine ⟨fun k lower upper => ?_, rest.2⟩
          by_cases here : k = i
          · exact here ▸ passes.2
          · exact rest.1 k (by omega) upper
      · next stops =>
          exact ⟨fun k lower upper => by omega, fun within => by simpa [within] using stops⟩

/-- `scanDown` passes only positions with `cond` and stops at one without it, unless it went
below `i`. -/
theorem scanDown_spec (cond : Nat → Bool) {i : Nat} (start : 1 ≤ i) :
    ∀ j, (∀ k, scanDown cond i j < k → k ≤ j → cond k = true) ∧
      (i ≤ scanDown cond i j → cond (scanDown cond i j) = false)
  | 0 => by
      simp only [scanDown]
      exact ⟨fun k lower upper => by omega, fun within => by omega⟩
  | j + 1 => by
      rw [scanDown]
      split
      · next passes =>
          have rest := scanDown_spec cond start j
          refine ⟨fun k lower upper => ?_, rest.2⟩
          by_cases here : k = j + 1
          · exact here ▸ passes.2
          · exact rest.1 k lower (by omega)
      · next stops =>
          exact ⟨fun k lower upper => by omega, fun within => by simpa [within] using stops⟩

/-! ## The partition loops -/

/-- The invariant of both partition loops: `data[a+1:i]` has `cond`, `data[j+1:b]` has not. -/
structure Split (cond : α → Bool) (a b : Nat) (data : List α) (i j : Nat) : Prop where
  lower : a + 1 ≤ i
  crossed : i ≤ j + 1
  upper : j < b
  left : ∀ k, a + 1 ≤ k → k < i → cond (get data k) = true
  right : ∀ k, j < k → k < b → cond (get data k) = false

namespace Split

variable {cond : α → Bool} {a b : Nat} {data : List α} {i j : Nat}

/-- The loops start with nothing scanned. -/
theorem start (cond : α → Bool) (data : List α) (nonempty : a < b) :
    Split cond a b data (a + 1) (b - 1) :=
  ⟨le_rfl, by omega, by omega, fun k lower upper => by omega, fun k lower upper => by omega⟩

/-- The two scans of a round extend the split to where they stop; unless they crossed, they
stop at an element without `cond` and at one with it. -/
theorem scan (split : Split cond a b data i j) (up down : Nat → Bool)
    (upIs : ∀ k, up k = cond (get data k)) (downIs : ∀ k, down k = !cond (get data k))
    {i' j' : Nat} (scannedUp : scanUp up j (j + 1 - i) i = i')
    (scannedDown : scanDown down i' j = j') :
    Split cond a b data i' j' ∧ (j' < i' → j' + 1 = i') ∧
      (¬ j' < i' → i ≤ i' ∧ j' ≤ j ∧ cond (get data i') = false ∧ cond (get data j') = true) := by
  have upBounds := scanUp_bounds up j (j + 1 - i) i
  have upSpec := scanUp_spec up j (j + 1 - i) i le_rfl
  rw [scannedUp] at upBounds upSpec
  have downBounds := scanDown_bounds down i' j
  have downSpec := scanDown_spec down (i := i') (by have := split.lower; omega) j
  rw [scannedDown] at downBounds downSpec
  have crossed := split.crossed
  have lower := split.lower
  have upper := split.upper
  refine ⟨⟨by omega, by omega, by omega, fun k lowerK upperK => ?_, fun k lowerK upperK => ?_⟩,
    fun _ => by omega, fun going => ⟨by omega, by omega, ?_, ?_⟩⟩
  · by_cases before : k < i
    · exact split.left k lowerK before
    · rw [← upIs]
      exact upSpec.1 k (by omega) upperK
  · by_cases after : j < k
    · exact split.right k after upperK
    · simpa [downIs] using downSpec.1 k lowerK (by omega)
  · rw [← upIs]
    exact upSpec.2 (by omega)
  · simpa [downIs] using downSpec.2 (by omega)

/-- Swapping an element without `cond` at `i` with one with it at `j` splits the rest. -/
theorem exchange (split : Split cond a b data i j) (inside : b ≤ data.length) (ordered : i < j)
    (stopUp : cond (get data i) = false) (stopDown : cond (get data j) = true) :
    Split cond a b (GoSort.swap data i j) (i + 1) (j - 1) := by
  have lower := split.lower
  have upper := split.upper
  refine ⟨by omega, by omega, by omega, fun k lowerK upperK => ?_, fun k lowerK upperK => ?_⟩
  · rw [get_swap_eq (by omega) (by omega)]
    split_ifs with atI atJ
    · exact stopDown
    · omega
    · exact split.left k lowerK (by omega)
  · rw [get_swap_eq (by omega) (by omega)]
    split_ifs with atI atJ
    · omega
    · exact stopUp
    · exact split.right k (by omega) upperK

/-- One round of a partition loop: the two scans either cross, leaving the window split at
the crossing, or stop at an out-of-place pair, whose swap splits the rest. -/
theorem round (split : Split cond a b data i j) (inside : b ≤ data.length)
    (up down : Nat → Bool) (upIs : ∀ k, up k = cond (get data k))
    (downIs : ∀ k, down k = !cond (get data k)) {i' j' : Nat}
    (scannedUp : scanUp up j (j + 1 - i) i = i') (scannedDown : scanDown down i' j = j') :
    (j' < i' → j' + 1 = i' ∧ Split cond a b data i' j') ∧
      (¬ j' < i' → i ≤ i' ∧ i' < j' ∧ j' ≤ j ∧
        Split cond a b (swap data i' j') (i' + 1) (j' - 1)) := by
  obtain ⟨scanned, crossing, stops⟩ := split.scan up down upIs downIs scannedUp scannedDown
  refine ⟨fun exit => ⟨crossing exit, scanned⟩, fun going => ?_⟩
  obtain ⟨lower, upper, stopUp, stopDown⟩ := stops going
  have distinct : i' < j' := by
    by_contra same
    obtain rfl : i' = j' := by omega
    rw [stopUp] at stopDown
    exact Bool.false_ne_true stopDown
  exact ⟨lower, distinct, upper, scanned.exchange inside distinct stopUp stopDown⟩

end Split

/-- `partition`'s loop ends with the window split at the returned `j`, the pivot still at `a`. -/
theorem split_partitionLoop (less : α → α → Bool) {a b : Nat} {pivot : α} :
    ∀ fuel (data : List α) i j, Split (fun x => less x pivot) a b data i j → j + 1 - i < fuel →
      b ≤ data.length → get data a = pivot →
        Split (fun x => less x pivot) a b (partitionLoop less a fuel data i j).1
            ((partitionLoop less a fuel data i j).2 + 1) (partitionLoop less a fuel data i j).2 ∧
          get (partitionLoop less a fuel data i j).1 a = pivot
  | 0, _, _, _, _, enough, _, _ => absurd enough (Nat.not_lt_zero _)
  | fuel + 1, data, i, j, split, enough, inside, pivotAt => by
      rw [partitionLoop]
      have round := split.round inside (fun i => less (get data i) (get data a))
        (fun j => !less (get data j) (get data a)) (fun k => by rw [pivotAt])
        (fun k => by rw [pivotAt]) rfl rfl
      generalize scanUp (fun i => less (get data i) (get data a)) j (j + 1 - i) i = i' at round ⊢
      generalize scanDown (fun j => !less (get data j) (get data a)) i' j = j' at round ⊢
      split
      · next exit =>
          obtain ⟨crossing, split'⟩ := round.1 exit
          exact ⟨crossing ▸ split', pivotAt⟩
      · next going =>
          obtain ⟨lower, distinct, upper, split'⟩ := round.2 going
          have lowerA := split.lower
          have upperB := split.upper
          have pivotKept : get (swap data i' j') a = pivot :=
            (get_swap_of_ne (by omega) (by omega) (by omega) (by omega)).trans pivotAt
          exact split_partitionLoop less fuel _ _ _ split' (by omega) (by simpa using inside)
            pivotKept

/-- Swapping the pivot from `a` to the crossing `m` leaves the elements before `m` smaller than
the pivot and those after it not. -/
theorem Split.finish {less : α → α → Bool} {a b m : Nat} {pivot : α} {data : List α}
    (split : Split (fun x => less x pivot) a b data (m + 1) m) (pivotAt : get data a = pivot)
    (inside : b ≤ data.length) :
    get (swap data m a) m = pivot ∧
      (∀ k, a ≤ k → k < m → less (get (swap data m a) k) pivot = true) ∧
      (∀ k, m < k → k < b → less (get (swap data m a) k) pivot = false) := by
  have lower := split.lower
  have upper := split.upper
  refine ⟨?_, fun k lowerK upperK => ?_, fun k lowerK upperK => ?_⟩
  · rw [get_swap_left (by omega) (by omega), pivotAt]
  · rw [get_swap_eq (by omega) (by omega)]
    split_ifs with atM atA
    · omega
    · exact split.left m (by omega) (by omega)
    · exact split.left k (by omega) (by omega)
  · rw [get_swap_of_ne (by omega) (by omega) (by omega) (by omega)]
    exact split.right k lowerK upperK

/-- `partition` returns the position of the pivot, with every element before it smaller and
none after it smaller. -/
theorem partition_split (less : α → α → Bool) {data : List α} {a b pivot : Nat}
    (nonempty : a < b) (pivotInside : a ≤ pivot ∧ pivot < b) (inside : b ≤ data.length) :
    get (partition less data a b pivot).1 (partition less data a b pivot).2.1 = get data pivot ∧
      (∀ k, a ≤ k → k < (partition less data a b pivot).2.1 →
        less (get (partition less data a b pivot).1 k) (get data pivot) = true) ∧
      (∀ k, (partition less data a b pivot).2.1 < k → k < b →
        less (get (partition less data a b pivot).1 k) (get data pivot) = false) := by
  unfold partition
  have pivotAt : get (swap data a pivot) a = get data pivot :=
    get_swap_left (by omega) (by omega)
  have length : (swap data a pivot).length = data.length := length_swap data a pivot
  generalize swap data a pivot = data₁ at pivotAt length ⊢
  dsimp only
  have round := (Split.start (fun x => less x (get data pivot)) data₁ nonempty).round
    (by omega) (fun i => less (get data₁ i) (get data₁ a))
    (fun j => !less (get data₁ j) (get data₁ a)) (fun k => by rw [pivotAt])
    (fun k => by rw [pivotAt]) rfl rfl
  generalize scanUp (fun i => less (get data₁ i) (get data₁ a)) (b - 1)
    (b - 1 + 1 - (a + 1)) (a + 1) = i' at round ⊢
  generalize scanDown (fun j => !less (get data₁ j) (get data₁ a)) i' (b - 1) = j' at round ⊢
  split
  · next exit =>
      obtain ⟨crossing, split⟩ := round.1 exit
      exact Split.finish (crossing ▸ split) pivotAt (by omega)
  · next going =>
      obtain ⟨lower, distinct, upper, split⟩ := round.2 going
      have loop := split_partitionLoop (a := a) (b := b) less (b - a) _ _ _ split (by omega)
        (by simp; omega)
        ((get_swap_of_ne (by omega) (by omega) (by omega) (by omega)).trans pivotAt)
      have perm := (permOn_partitionLoop (a := a) (b := b) less (b - a) (swap data₁ i' j') (i' + 1)
        (j' - 1)
        (by omega) (by omega) (by omega) (by simp; omega)).1
      generalize partitionLoop less a (b - a) (swap data₁ i' j') (i' + 1) (j' - 1) = result
        at loop perm ⊢
      obtain ⟨data₂, mid⟩ := result
      have length₂ : b ≤ data₂.length := perm.inside (by simp; omega)
      exact Split.finish loop.1 loop.2 length₂

/-- `partitionEqual`'s loop ends with the window split at the returned `i`, the pivot still at
`a`. -/
theorem split_partitionEqualLoop (less : α → α → Bool) {a b : Nat} {pivot : α} :
    ∀ fuel (data : List α) i j, Split (fun x => !less pivot x) a b data i j → j + 1 - i < fuel →
      b ≤ data.length → get data a = pivot →
        Split (fun x => !less pivot x) a b (partitionEqualLoop less a fuel data i j).1
            (partitionEqualLoop less a fuel data i j).2
            ((partitionEqualLoop less a fuel data i j).2 - 1) ∧
          get (partitionEqualLoop less a fuel data i j).1 a = pivot
  | 0, _, _, _, _, enough, _, _ => absurd enough (Nat.not_lt_zero _)
  | fuel + 1, data, i, j, split, enough, inside, pivotAt => by
      rw [partitionEqualLoop]
      have round := split.round inside (fun i => !less (get data a) (get data i))
        (fun j => less (get data a) (get data j)) (fun k => by rw [pivotAt])
        (fun k => by rw [pivotAt, Bool.not_not]) rfl rfl
      generalize scanUp (fun i => !less (get data a) (get data i)) j (j + 1 - i) i = i'
        at round ⊢
      generalize scanDown (fun j => less (get data a) (get data j)) i' j = j' at round ⊢
      split
      · next exit =>
          obtain ⟨crossing, split'⟩ := round.1 exit
          obtain rfl : j' = i' - 1 := by omega
          exact ⟨split', pivotAt⟩
      · next going =>
          obtain ⟨lower, distinct, upper, split'⟩ := round.2 going
          have lowerA := split.lower
          have upperB := split.upper
          have pivotKept : get (swap data i' j') a = pivot :=
            (get_swap_of_ne (by omega) (by omega) (by omega) (by omega)).trans pivotAt
          exact split_partitionEqualLoop less fuel _ _ _ split' (by omega)
            (by simpa using inside) pivotKept

/-- `partitionEqual` keeps the pivot at `a` and returns where the elements greater than it
start: none before is greater, all after are. -/
theorem partitionEqual_split (less : α → α → Bool) {data : List α} {a b pivot : Nat}
    (nonempty : a < b) (pivotInside : a ≤ pivot ∧ pivot < b) (inside : b ≤ data.length) :
    get (partitionEqual less data a b pivot).1 a = get data pivot ∧
      a + 1 ≤ (partitionEqual less data a b pivot).2 ∧ (partitionEqual less data a b pivot).2 ≤ b ∧
      (∀ k, a + 1 ≤ k → k < (partitionEqual less data a b pivot).2 →
        less (get data pivot) (get (partitionEqual less data a b pivot).1 k) = false) ∧
      (∀ k, (partitionEqual less data a b pivot).2 ≤ k → k < b →
        less (get data pivot) (get (partitionEqual less data a b pivot).1 k) = true) := by
  unfold partitionEqual
  have pivotAt : get (swap data a pivot) a = get data pivot :=
    get_swap_left (by omega) (by omega)
  have loop := split_partitionEqualLoop (a := a) (b := b) less (b - a) (swap data a pivot)
    (a + 1) (b - 1) (Split.start _ _ nonempty) (by omega) (by simp; omega) pivotAt
  generalize partitionEqualLoop less a (b - a) (swap data a pivot) (a + 1) (b - 1) = result
    at loop ⊢
  obtain ⟨⟨lower, crossed, upper, left, right⟩, kept⟩ := loop
  refine ⟨kept, lower, by omega, fun k lowerK upperK => ?_, fun k lowerK upperK => ?_⟩
  · simpa using left k lowerK upperK
  · simpa using right k (by omega) upperK

/-! ## The nearly sorted pass -/

/-- `scanSorted` passes only positions not smaller than their left neighbour and stops at one
smaller, unless it reached `b`. -/
theorem scanSorted_spec (less : α → α → Bool) (data : List α) (b : Nat) :
    ∀ fuel i, b - i ≤ fuel →
      (∀ k, i ≤ k → k < scanSorted less data b fuel i →
          less (get data k) (get data (k - 1)) = false) ∧
        (scanSorted less data b fuel i < b →
          less (get data (scanSorted less data b fuel i))
            (get data (scanSorted less data b fuel i - 1)) = true)
  | 0, i, enough => by
      simp only [scanSorted]
      exact ⟨fun k lower upper => by omega, fun within => by omega⟩
  | fuel + 1, i, enough => by
      rw [scanSorted]
      split
      · next passes =>
          have rest := scanSorted_spec less data b fuel (i + 1) (by omega)
          refine ⟨fun k lower upper => ?_, rest.2⟩
          by_cases here : k = i
          · subst here
            simpa using passes.2
          · exact rest.1 k (by omega) upper
      · next stops =>
          exact ⟨fun k lower upper => by omega, fun within => by simpa [within] using stops⟩

section Keys

variable {β : Type} [LinearOrder β] (key : α → β)

/-- The element before `data[a:b]`, when there is one, is no greater than any element of it. -/
def Above (a b : Nat) (data : List α) : Prop :=
  0 < a → ∀ k, a ≤ k → k < b → key (get data (a - 1)) ≤ key (get data k)

variable {key}

/-- A rearrangement of the window keeps the element before it no greater. -/
theorem PermOn.above {a b : Nat} {data data' : List α} (perm : PermOn a b data data')
    (above : Above key a b data) : Above key a b data' := by
  intro positive k lower upper
  rw [perm.get_outside (.inl (by omega))]
  exact perm.forall_inside (p := fun x => key (get data (a - 1)) ≤ key x)
    (fun k lower upper => above positive k lower upper) k lower upper

/-- What holds before a window holds before a part of it. -/
theorem Above.mono {a b b' : Nat} {data : List α} (above : Above key a b data) (shorter : b' ≤ b) :
    Above key a b' data :=
  fun positive k lower upper => above positive k lower (by omega)

/-- A window sorted up to `m` whose element at `m` is no smaller than the one before is sorted
up to `m + 1`. -/
theorem SortedOn.snoc {a m : Nat} {data : List α} (sorted : SortedOn key a m data)
    (step : a < m → key (get data (m - 1)) ≤ key (get data m)) : SortedOn key a (m + 1) data := by
  intro i j lower ordered upper
  by_cases inside : j < m
  · exact sorted i j lower ordered inside
  · obtain rfl : j = m := by omega
    by_cases same : i = j
    · exact same ▸ le_rfl
    · exact (sorted i (j - 1) lower (by omega) (by omega)).trans (step (by omega))

/-- Two sorted sides of an element, the left no greater and the right no smaller than it,
make a sorted window. -/
theorem SortedOn.around {a mid b : Nat} {data : List α} (left : SortedOn key a mid data)
    (right : SortedOn key (mid + 1) b data)
    (small : ∀ k, a ≤ k → k < mid → key (get data k) ≤ key (get data mid))
    (large : ∀ k, mid < k → k < b → key (get data mid) ≤ key (get data k)) :
    SortedOn key a b data := by
  refine SortedOn.append key (m := mid + 1)
    (SortedOn.append key (m := mid) left (sortedOn_of_le key _ le_rfl)
      fun i j lowerI upperI lowerJ upperJ => ?_) right
    fun i j lowerI upperI lowerJ upperJ => ?_
  · obtain rfl : j = mid := by omega
    exact small i lowerI upperI
  · refine le_trans ?_ (large j (by omega) upperJ)
    by_cases atMid : i = mid
    · rw [atMid]
    · exact small i lowerI (by omega)

/-- A window sorted up to `i` is sorted up to `i'` when no element of `[i, i')` is smaller
than its left neighbour. -/
theorem SortedOn.extend {a i : Nat} {data : List α} (sorted : SortedOn key a i data)
    (start : a < i) :
    ∀ i', i ≤ i' → (∀ k, i ≤ k → k < i' → key (get data (k - 1)) ≤ key (get data k)) →
      SortedOn key a i' data
  | 0, ordered, _ => by
      obtain rfl : i = 0 := by omega
      exact sorted
  | n + 1, ordered, ascending => by
      by_cases same : i = n + 1
      · exact same ▸ sorted
      · exact (sorted.extend start n (by omega) fun k lower upper =>
          ascending k lower (by omega)).snoc fun _ => ascending n (by omega) (by omega)

variable (key)

/-- Go's left shift in `partialInsertionSort` runs down to index 1, but it stops at `a` when
the element before the window is no greater than the window. -/
theorem insertionShift_zero_eq {a : Nat} :
    ∀ j (data : List α), j < data.length → a ≤ j → Above key a (j + 1) data →
      insertionShift (keyLess key) 0 j data = insertionShift (keyLess key) a j data
  | 0, data, _, _, _ => rfl
  | j + 1, data, inside, lower, above => by
      rw [insertionShift, insertionShift]
      by_cases atA : a = j + 1
      · subst atA
        have settled : keyLess key (get data (j + 1)) (get data j) = false :=
          (keyLess_eq_false key).mpr (above (by omega) (j + 1) le_rfl (by omega))
        simp [settled]
      · by_cases moves : keyLess key (get data (j + 1)) (get data j) = true
        · rw [if_pos ⟨by omega, moves⟩, if_pos ⟨by omega, moves⟩]
          have swapped : PermOn a (j + 2) data (swap data (j + 1) j) :=
            PermOn.swap data ⟨by omega, by omega⟩ ⟨by omega, by omega⟩ (by omega)
          exact insertionShift_zero_eq j _ (by simp; omega) (by omega)
            ((swapped.above above).mono (by omega))
        · rw [if_neg fun both => moves both.2, if_neg fun both => moves both.2]

/-- The left shift of a round moves the element before `i` into the sorted window before it. -/
theorem leftShift_sorts {a i : Nat} {data : List α} (lower : a + 1 ≤ i) (inside : i ≤ data.length)
    (above : Above key a i data) (sorted : SortedOn key a (i - 1) data) :
    PermOn a i data (if 2 ≤ i - a then insertionShift (keyLess key) 0 (i - 1) data else data) ∧
      SortedOn key a i
        (if 2 ≤ i - a then insertionShift (keyLess key) 0 (i - 1) data else data) := by
  split
  · rw [insertionShift_zero_eq key (i - 1) data (by omega) (by omega) (above.mono (by omega))]
    refine ⟨(permOn_insertionShift _ a (i - 1) data (by omega)).mono le_rfl (by omega),
      sortedOn_insertionShift key (i - 1) data (by omega) (by omega)
        fun p q hp ordered hq exempt => ?_⟩
    by_cases atEnd : q = i - 1
    · obtain rfl : p = q := by omega
      exact le_rfl
    · exact sorted p q hp ordered (by omega)
  · exact ⟨PermOn.refl a i data, sortedOn_of_le key data (by omega)⟩

/-- The rounds of `partialInsertionSort` rearrange `data[a:b]`, and report a sorted window
only when it is. -/
theorem partialInsertionSortLoop_sorts {a b : Nat} :
    ∀ steps (data : List α) i, a + 1 ≤ i → i ≤ b → b ≤ data.length → Above key a b data →
      SortedOn key a i data →
        PermOn a b data (partialInsertionSortLoop (keyLess key) a b steps data i).1 ∧
          ((partialInsertionSortLoop (keyLess key) a b steps data i).2 = true →
            SortedOn key a b (partialInsertionSortLoop (keyLess key) a b steps data i).1)
  | 0, data, _, _, _, _, _, _ =>
      ⟨PermOn.refl a b data, fun sorted => absurd sorted Bool.false_ne_true⟩
  | steps + 1, data, i, lower, upper, inside, above, sorted => by
      rw [partialInsertionSortLoop]
      have scanned := scanSorted_spec (keyLess key) data b (b - i) i le_rfl
      have bounds := scanSorted_bounds (keyLess key) data b (b - i) i
      generalize scanSorted (keyLess key) data b (b - i) i = i' at scanned bounds ⊢
      have sorted' := sorted.extend (by omega) i' bounds.1
        fun k lower upper => (keyLess_eq_false key).mp (scanned.1 k lower upper)
      dsimp only
      by_cases done : i' = b
      · rw [if_pos done]
        subst done
        exact ⟨PermOn.refl a i' data, fun _ => sorted'⟩
      rw [if_neg done]
      by_cases few : b - a < shortestShifting
      · rw [if_pos few]
        exact ⟨PermOn.refl a b data, fun bad => by simp at bad⟩
      rw [if_neg few]
      have first : PermOn (i' - 1) b data (swap data i' (i' - 1)) :=
        PermOn.swap data ⟨by omega, by omega⟩ ⟨le_rfl, by omega⟩ inside
      have sorted₁ : SortedOn key a (i' - 1) (swap data i' (i' - 1)) :=
        (sorted'.mono key le_rfl (by omega)).of_outside key first (.inl le_rfl)
      have above₁ : Above key a b (swap data i' (i' - 1)) :=
        (first.mono (by omega) le_rfl).above above
      generalize swap data i' (i' - 1) = data₁ at first sorted₁ above₁ ⊢
      have length₁ := first.inside inside
      obtain ⟨second, sorted₂⟩ :=
        leftShift_sorts key (i := i') (by omega) (by omega) (above₁.mono (by omega)) sorted₁
      generalize (if 2 ≤ i' - a then insertionShift (keyLess key) 0 (i' - 1) data₁ else data₁)
        = data₂ at second sorted₂ ⊢
      have length₂ := second.inside length₁
      generalize shiftedRightIs : (if 2 ≤ b - i' then
        shiftRight (keyLess key) b (b - (i' + 1)) data₂ (i' + 1) else data₂) = data₃
      have third : PermOn i' b data₂ data₃ := by
        subst shiftedRightIs
        split
        · exact permOn_shiftRight _ _ data₂ (i' + 1) (by omega) length₂
        · exact PermOn.refl i' b data₂
      have before : PermOn a b data data₃ := (first.mono (by omega) le_rfl).trans
        ((second.mono le_rfl (by omega)).trans (third.mono (by omega) le_rfl))
      have rest := partialInsertionSortLoop_sorts steps data₃ i' (by omega) (by omega)
        (before.inside inside) (before.above above) (sorted₂.of_outside key third (.inl le_rfl))
      exact ⟨before.trans rest.1, rest.2⟩

/-- `partialInsertionSort` rearranges `data[a:b]` and reports a sorted window only when it is. -/
theorem partialInsertionSort_sorts {data : List α} {a b : Nat} (nonempty : a < b)
    (inside : b ≤ data.length) (above : Above key a b data) :
    PermOn a b data (partialInsertionSort (keyLess key) data a b).1 ∧
      ((partialInsertionSort (keyLess key) data a b).2 = true →
        SortedOn key a b (partialInsertionSort (keyLess key) data a b).1) :=
  partialInsertionSortLoop_sorts key maxSteps data (a + 1) le_rfl nonempty inside above
    (sortedOn_of_le key data le_rfl)

/-! ## The quicksort -/

/-- The preparation of a round rearranges `data[a:b]`, picks a pivot in it, and reports a
sorted window only when it is. -/
theorem pdqsortPrepare_sorts {data : List α} {a b : Nat} (limit : Nat)
    (wasBalanced wasPartitioned : Bool) (long : maxInsertion < b - a) (inside : b ≤ data.length)
    (above : Above key a b data) :
    PermOn a b data (pdqsortPrepare (keyLess key) data a b limit wasBalanced wasPartitioned).1 ∧
      a ≤ (pdqsortPrepare (keyLess key) data a b limit wasBalanced wasPartitioned).2.2.1 ∧
      (pdqsortPrepare (keyLess key) data a b limit wasBalanced wasPartitioned).2.2.1 < b ∧
      ((pdqsortPrepare (keyLess key) data a b limit wasBalanced wasPartitioned).2.2.2 = true →
        SortedOn key a b
          (pdqsortPrepare (keyLess key) data a b limit wasBalanced wasPartitioned).1) := by
  unfold pdqsortPrepare maxInsertion at *
  generalize brokenIs : (if wasBalanced then data else breakPatterns data a b) = data₁
  have broken : PermOn a b data data₁ := by
    subst brokenIs
    split
    · exact PermOn.refl a b data
    · exact permOn_breakPatterns inside
  dsimp only
  have pivotInside := choosePivot_mem (keyLess key) data₁ (a := a) (b := b) (by omega)
  generalize choosePivot (keyLess key) data₁ a b = chosen at pivotInside ⊢
  obtain ⟨pivot, hint⟩ := chosen
  dsimp only at pivotInside ⊢
  generalize reversedIs : (if hint = .decreasingHint then
      (reverseRange data₁ a b, b - 1 - (pivot - a), SortedHint.increasingHint)
    else (data₁, pivot, hint)) = step
  have reversed : PermOn a b data₁ step.1 ∧ a ≤ step.2.1 ∧ step.2.1 < b := by
    subst reversedIs
    split
    · exact ⟨permOn_reverseRange (by omega) (broken.inside inside),
        show a ≤ b - 1 - (pivot - a) by omega, show b - 1 - (pivot - a) < b by omega⟩
    · exact ⟨PermOn.refl a b data₁, pivotInside⟩
  obtain ⟨data₂, pivot₂, hint₂⟩ := step
  obtain ⟨reversed, pivotInside₂⟩ := reversed
  have before := broken.trans reversed
  dsimp only
  generalize nearlyIs : (if wasBalanced ∧ wasPartitioned ∧ hint₂ = .increasingHint then
      partialInsertionSort (keyLess key) data₂ a b else (data₂, false)) = result
  have nearly : PermOn a b data₂ result.1 ∧ (result.2 = true → SortedOn key a b result.1) := by
    subst nearlyIs
    split
    · exact partialInsertionSort_sorts key (by omega) (before.inside inside) (before.above above)
    · exact ⟨PermOn.refl a b data₂, fun bad => absurd bad Bool.false_ne_true⟩
  exact ⟨before.trans nearly.1, pivotInside₂.1, pivotInside₂.2, nearly.2⟩

/-- Over keys, `partition` rearranges the window around its pivot at `mid`: no greater key
before it and no smaller one after. -/
theorem partition_keys {data data₂ : List α} {a b pivot mid : Nat} {alreadyPartitioned : Bool}
    (nonempty : a < b) (pivotInside : a ≤ pivot ∧ pivot < b) (inside : b ≤ data.length)
    (result : partition (keyLess key) data a b pivot = (data₂, mid, alreadyPartitioned)) :
    PermOn a b data data₂ ∧ a ≤ mid ∧ mid < b ∧
      (∀ k, a ≤ k → k < mid → key (get data₂ k) ≤ key (get data₂ mid)) ∧
      (∀ k, mid < k → k < b → key (get data₂ mid) ≤ key (get data₂ k)) := by
  have parted := partition_split (keyLess key) nonempty pivotInside inside
  have perm := permOn_partition (keyLess key) nonempty pivotInside inside
  simp only [result] at parted perm
  obtain ⟨pivotMoved, smaller, notSmaller⟩ := parted
  refine ⟨perm.1, perm.2.1, perm.2.2, fun k lower upper => ?_, fun k lower upper => ?_⟩
  · rw [pivotMoved]
    exact ((keyLess_eq_true key).mp (smaller k lower upper)).le
  · rw [pivotMoved]
    exact (keyLess_eq_false key).mp (notSmaller k lower upper)

/-- Over keys, `partitionEqual` from a pivot no greater than the element before the window
leaves a run of keys equal to the pivot's at the front, and greater keys after it. -/
theorem partitionEqual_keys {data data₂ : List α} {a b pivot mid : Nat} (positive : 0 < a)
    (pivotInside : a ≤ pivot ∧ pivot < b) (inside : b ≤ data.length) (above : Above key a b data)
    (pivotLow : key (get data pivot) ≤ key (get data (a - 1)))
    (result : partitionEqual (keyLess key) data a b pivot = (data₂, mid)) :
    PermOn a b data data₂ ∧ a < mid ∧ mid ≤ b ∧
      (∀ k, a ≤ k → k < mid → key (get data₂ k) = key (get data pivot)) ∧
      (∀ k, mid ≤ k → k < b → key (get data pivot) < key (get data₂ k)) := by
  have equal := partitionEqual_split (keyLess key) (by omega) pivotInside inside
  have perm := permOn_partitionEqual (keyLess key) (by omega) pivotInside inside
  simp only [result] at equal perm
  obtain ⟨pivotKept, midLower, midUpper, small, large⟩ := equal
  have previous : get data (a - 1) = get data₂ (a - 1) :=
    (perm.1.get_outside (.inl (by omega))).symm
  refine ⟨perm.1, by omega, midUpper, fun k lower upper => ?_,
    fun k lower upper => (keyLess_eq_true key).mp (large k lower upper)⟩
  -- the run holds elements no smaller than the one before the window, which is no greater
  -- than the pivot, and none greater than the pivot
  refine le_antisymm ?_ ((previous ▸ pivotLow).trans
    (perm.1.above above positive k lower (by omega)))
  by_cases atA : k = a
  · rw [atA, pivotKept]
  · simpa using small k (by omega) upper

/-- `pdqsort` with `fuel` rearranges and sorts every window shorter than `fuel` whose preceding
element is no greater than the window. -/
def SortsWindows (fuel : Nat) : Prop :=
  ∀ (data : List α) (a b limit : Nat) (wasBalanced wasPartitioned : Bool), b ≤ data.length →
    b - a < fuel → Above key a b data →
      PermOn a b data (pdqsort (keyLess key) fuel data a b limit wasBalanced wasPartitioned) ∧
        SortedOn key a b (pdqsort (keyLess key) fuel data a b limit wasBalanced wasPartitioned)

section Recursion

variable {key} {fuel : Nat} (recurse : SortsWindows key fuel)
include recurse

/-- After `partitionEqual`, sorting the part past the run of elements equal to the pivot sorts
the window. -/
theorem SortsWindows.afterEqual {data : List α} {a mid b : Nat} (limit : Nat)
    (balanced partitioned : Bool) (inside : b ≤ data.length) (short : b - a ≤ fuel)
    (midInside : a < mid ∧ mid ≤ b) {pivotKey : β}
    (flat : ∀ k, a ≤ k → k < mid → key (get data k) = pivotKey)
    (large : ∀ k, mid ≤ k → k < b → pivotKey < key (get data k)) :
    PermOn a b data (pdqsort (keyLess key) fuel data mid b limit balanced partitioned) ∧
      SortedOn key a b (pdqsort (keyLess key) fuel data mid b limit balanced partitioned) := by
  have rest := recurse data mid b limit balanced partitioned inside (by omega)
    fun _ k lower upper => by
      rw [flat (mid - 1) (by omega) (by omega)]
      exact (large k lower upper).le
  refine ⟨rest.1.mono (by omega) le_rfl, SortedOn.append key (m := mid) ?_ rest.2 ?_⟩
  · intro i j lower ordered upper
    rw [rest.1.get_outside (.inl upper), rest.1.get_outside (.inl (by omega)),
      flat i lower (by omega), flat j (by omega) upper]
  · intro i j lower upper lowerJ upperJ
    rw [rest.1.get_outside (.inl upper), flat i lower upper]
    exact rest.1.forall_inside (p := fun x => pivotKey ≤ key x)
      (fun k lowerK upperK => (large k lowerK upperK).le) j lowerJ upperJ

/-- After `partition`, sorting the left side of the pivot and then the right side sorts the
window. -/
theorem SortsWindows.leftFirst {data : List α} {a mid b : Nat} (limit : Nat)
    (balanced partitioned : Bool) (inside : b ≤ data.length) (short : b - a ≤ fuel)
    (midInside : a ≤ mid ∧ mid < b) (above : Above key a b data)
    (below : ∀ k, a ≤ k → k < mid → key (get data k) ≤ key (get data mid))
    (beyond : ∀ k, mid < k → k < b → key (get data mid) ≤ key (get data k)) :
    PermOn a b data (pdqsort (keyLess key) fuel (pdqsort (keyLess key) fuel data a mid limit true
        true) (mid + 1) b limit balanced partitioned) ∧
      SortedOn key a b (pdqsort (keyLess key) fuel (pdqsort (keyLess key) fuel data a mid limit
        true true) (mid + 1) b limit balanced partitioned) := by
  have left := recurse data a mid limit true true (by omega) (by omega) (above.mono (by omega))
  generalize pdqsort (keyLess key) fuel data a mid limit true true = data₁ at left ⊢
  have right := recurse data₁ (mid + 1) b limit balanced partitioned (left.1.inside inside)
    (by omega) fun _ k lower upper => by
      rw [left.1.get_outside (.inr (by simp)), left.1.get_outside (.inr (by omega))]
      exact beyond k (by omega) upper
  generalize pdqsort (keyLess key) fuel data₁ (mid + 1) b limit balanced partitioned = data₂
    at right ⊢
  have pivotKept : get data₂ mid = get data mid := by
    rw [right.1.get_outside (.inl (by omega)), left.1.get_outside (.inr le_rfl)]
  refine ⟨(left.1.mono le_rfl (by omega)).trans (right.1.mono (by omega) le_rfl),
    SortedOn.around (left.2.of_outside key right.1 (.inl (by omega))) right.2
      (fun k lower upper => ?_) (fun k lower upper => ?_)⟩
  · rw [pivotKept, right.1.get_outside (.inl (by omega))]
    exact left.1.forall_inside (p := fun x => key x ≤ key (get data mid)) below k lower upper
  · rw [pivotKept]
    refine right.1.forall_inside (p := fun x => key (get data mid) ≤ key x)
      (fun j lowerJ upperJ => ?_) k (by omega) upper
    rw [left.1.get_outside (.inr (by omega))]
    exact beyond j (by omega) upperJ

/-- After `partition`, sorting the right side of the pivot and then the left side sorts the
window. -/
theorem SortsWindows.rightFirst {data : List α} {a mid b : Nat} (limit : Nat)
    (balanced partitioned : Bool) (inside : b ≤ data.length) (short : b - a ≤ fuel)
    (midInside : a ≤ mid ∧ mid < b) (above : Above key a b data)
    (below : ∀ k, a ≤ k → k < mid → key (get data k) ≤ key (get data mid))
    (beyond : ∀ k, mid < k → k < b → key (get data mid) ≤ key (get data k)) :
    PermOn a b data (pdqsort (keyLess key) fuel (pdqsort (keyLess key) fuel data (mid + 1) b
        limit true true) a mid limit balanced partitioned) ∧
      SortedOn key a b (pdqsort (keyLess key) fuel (pdqsort (keyLess key) fuel data (mid + 1) b
        limit true true) a mid limit balanced partitioned) := by
  have right := recurse data (mid + 1) b limit true true inside (by omega)
    fun _ k lower upper => by
      rw [show mid + 1 - 1 = mid by omega]
      exact beyond k (by omega) upper
  generalize pdqsort (keyLess key) fuel data (mid + 1) b limit true true = data₁ at right ⊢
  have left := recurse data₁ a mid limit balanced partitioned
    (by have := right.1.inside inside; omega) (by omega) fun positive k lower upper => by
      rw [right.1.get_outside (.inl (by omega)), right.1.get_outside (.inl (by omega))]
      exact above positive k lower (by omega)
  generalize pdqsort (keyLess key) fuel data₁ a mid limit balanced partitioned = data₂
    at left ⊢
  have pivotKept : get data₂ mid = get data mid := by
    rw [left.1.get_outside (.inr le_rfl), right.1.get_outside (.inl (by omega))]
  refine ⟨(right.1.mono (by omega) le_rfl).trans (left.1.mono le_rfl (by omega)),
    SortedOn.around left.2 (right.2.of_outside key left.1 (.inr (by omega)))
      (fun k lower upper => ?_) (fun k lower upper => ?_)⟩
  · rw [pivotKept]
    refine left.1.forall_inside (p := fun x => key x ≤ key (get data mid))
      (fun j lowerJ upperJ => ?_) k lower upper
    rw [right.1.get_outside (.inl (by omega))]
    exact below j lowerJ upperJ
  · rw [pivotKept, left.1.get_outside (.inr (by omega))]
    exact right.1.forall_inside (p := fun x => key (get data mid) ≤ key x)
      (fun j lowerJ upperJ => beyond j (by omega) upperJ) k (by omega) upper

end Recursion

/-- `pdqsort` with any fuel sorts the windows it has fuel for: a short window by insertion
sort, a window out of depth budget by heapsort, and otherwise one round of preparation and
partition followed by the recursive calls. -/
theorem sortsWindows : ∀ fuel, SortsWindows key fuel
  | 0 => fun _ _ _ _ _ _ _ enough _ => absurd enough (Nat.not_lt_zero _)
  | fuel + 1 => fun data a b limit wasBalanced wasPartitioned inside enough above => by
      have recurse := sortsWindows fuel
      rw [pdqsort]
      dsimp only
      by_cases tiny : b - a ≤ maxInsertion
      · rw [if_pos tiny]
        exact ⟨permOn_insertionSort _ inside, sortedOn_insertionSort key inside⟩
      rw [if_neg tiny]
      by_cases exhausted : limit = 0
      · rw [if_pos exhausted]
        exact ⟨permOn_heapSort _ (by omega) inside, sortedOn_heapSort key (by omega) inside⟩
      rw [if_neg exhausted]
      have prepared := pdqsortPrepare_sorts key limit wasBalanced wasPartitioned
        (not_le.mp tiny) inside above
      generalize pdqsortPrepare (keyLess key) data a b limit wasBalanced wasPartitioned = step
        at prepared ⊢
      obtain ⟨data₁, limit₁, pivot, sorted⟩ := step
      dsimp only at prepared ⊢
      obtain ⟨before, pivotLower, pivotUpper, sortedIf⟩ := prepared
      have length₁ := before.inside inside
      have above₁ := before.above above
      by_cases done : sorted = true
      · rw [if_pos done]
        exact ⟨before, sortedIf done⟩
      rw [if_neg done]
      by_cases equalCase : 0 < a ∧ ¬ keyLess key (get data₁ (a - 1)) (get data₁ pivot) = true
      · rw [if_pos equalCase]
        obtain ⟨positive, notLess⟩ := equalCase
        generalize result : partitionEqual (keyLess key) data₁ a b pivot = step
        obtain ⟨data₂, mid⟩ := step
        obtain ⟨perm, midLower, midUpper, flat, large⟩ := partitionEqual_keys key positive
          ⟨pivotLower, pivotUpper⟩ length₁ above₁ (by simpa using notLess) result
        have rest := recurse.afterEqual limit₁ wasBalanced wasPartitioned (perm.inside length₁)
          (by omega) ⟨midLower, midUpper⟩ flat large
        exact ⟨before.trans (perm.trans rest.1), rest.2⟩
      rw [if_neg equalCase]
      generalize result : partition (keyLess key) data₁ a b pivot = step
      obtain ⟨data₂, mid, alreadyPartitioned⟩ := step
      obtain ⟨perm, midLower, midUpper, below, beyond⟩ :=
        partition_keys key (by omega) ⟨pivotLower, pivotUpper⟩ length₁ result
      dsimp only
      have length₂ := perm.inside length₁
      have above₂ := perm.above above₁
      by_cases leftSmaller : mid - a < b - mid
      · rw [if_pos leftSmaller]
        have sides := recurse.leftFirst limit₁ (decide ((b - a) / 8 ≤ mid - a))
          alreadyPartitioned length₂ (by omega) ⟨midLower, midUpper⟩ above₂ below beyond
        exact ⟨before.trans (perm.trans sides.1), sides.2⟩
      · rw [if_neg leftSmaller]
        have sides := recurse.rightFirst limit₁ (decide ((b - a) / 8 ≤ b - mid))
          alreadyPartitioned length₂ (by omega) ⟨midLower, midUpper⟩ above₂ below beyond
        exact ⟨before.trans (perm.trans sides.1), sides.2⟩

/-- `sort.Sort` with a comparison of keys sorts the first `Len()` elements. -/
theorem sortedOn_sort {n : Nat} {data : List α} (inside : n ≤ data.length) :
    SortedOn key 0 n (sort (keyLess key) n data) := by
  unfold sort
  split
  · exact sortedOn_of_le key data (by omega)
  · exact (sortsWindows key (n + 1) data 0 n _ true true inside (by omega)
      fun positive => absurd positive (lt_irrefl 0)).2

/-- `sort.Sort` of a whole slice with a comparison of keys returns a permutation of the slice,
sorted by the keys. -/
theorem sort_sorted_perm (data : List α) :
    List.Perm (sort (keyLess key) data.length data) data ∧
      (sort (keyLess key) data.length data).Pairwise fun x y => key x ≤ key y := by
  have perm := sort_perm (keyLess key) data
  refine ⟨perm, List.pairwise_iff_getElem.mpr fun i j lowerI lowerJ ordered => ?_⟩
  have sorted := sortedOn_sort key (le_refl data.length) i j (Nat.zero_le i) ordered.le
    (perm.length_eq ▸ lowerJ)
  simpa [get, lowerI, lowerJ] using sorted

end Keys

end Dag.GoSort
