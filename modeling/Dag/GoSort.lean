import Mathlib.Data.Nat.Defs

namespace Dag.GoSort

/-!
# The pattern-defeating quicksort behind Go's `sort.Sort`

`makeManifest` orders the manifest three times with the Go standard library:
`sort.StringSlice(ms.m.Nodes).Sort()`, `sort.Sort(ms)` and `sort.Sort(sl)`.  All three go through
`sort.Sort`, which since Go 1.19 runs the pattern-defeating quicksort of
`sort/zsortinterface.go`.  This module transcribes that file function by function.

A slice is a list, `data.Less(i, j)` compares the elements stored at `i` and `j` with a
Boolean `less`, and `data.Swap(i, j)` exchanges them; every `sort.Interface` of the dag package
has that form.
Go's loops become structural recursion: a loop that runs a known number of times recurses on
that number, and the few loops without one (`siftDown`, the partition loops) carry a bound that
the proofs show is never reached.
-/

variable {α : Type} [Inhabited α]

/-- `data[i]`. -/
def get (data : List α) (i : Nat) : α :=
  data.getD i default

/-- `data.Swap(i, j)`. -/
def swap (data : List α) (i j : Nat) : List α :=
  (data.set i (get data j)).set j (get data i)

/-- `bits.Len(uint(n))`: the number of bits of `n`; the first argument bounds the recursion. -/
def bitsLenAux : Nat → Nat → Nat
  | 0, _ => 0
  | fuel + 1, n => if n = 0 then 0 else bitsLenAux fuel (n / 2) + 1

/-- `bits.Len(uint(n))`. -/
def bitsLen (n : Nat) : Nat :=
  bitsLenAux n n

/-- `maxInsertion`: slices this short are sorted by insertion. -/
def maxInsertion : Nat := 12

/-- `shortestNinther`: from this length on the pivot is a median of medians. -/
def shortestNinther : Nat := 50

/-- `maxSwaps`: the swap count of `choosePivot` on a decreasing slice. -/
def maxSwaps : Nat := 4 * 3

/-- `maxSteps` of `partialInsertionSort`. -/
def maxSteps : Nat := 5

/-- `shortestShifting` of `partialInsertionSort`. -/
def shortestShifting : Nat := 50

/-! ## Insertion sort and heapsort -/

/-- The inner loop of `insertionSort`, `for j := i; j > a && data.Less(j, j-1); j--`. -/
def insertionShift (less : α → α → Bool) (a : Nat) : Nat → List α → List α
  | 0, data => data
  | j + 1, data =>
      if a < j + 1 ∧ less (get data (j + 1)) (get data j) then
        insertionShift less a j (swap data (j + 1) j)
      else
        data

/-- `insertionSort` sorts `data[a:b]`: `for i := a + 1; i < b; i++`. -/
def insertionSort (less : α → α → Bool) (data : List α) (a b : Nat) : List α :=
  (List.range' (a + 1) (b - (a + 1))).foldl
    (fun data i => insertionShift less a i data) data

/-- The loop of `siftDown`; the root moves down at every round, so `hi` rounds suffice. -/
def siftDownLoop (less : α → α → Bool) (hi first : Nat) :
    Nat → List α → Nat → List α
  | 0, data, _ => data
  | fuel + 1, data, root =>
      if hi ≤ 2 * root + 1 then
        data
      else
        let child :=
          if 2 * root + 2 < hi ∧
              less (get data (first + (2 * root + 1))) (get data (first + (2 * root + 2))) then
            2 * root + 2
          else
            2 * root + 1
        if ¬ less (get data (first + root)) (get data (first + child)) then
          data
        else
          siftDownLoop less hi first fuel (swap data (first + root) (first + child)) child

/-- `siftDown` restores the heap property on `data[lo:hi]`, the heap rooted at `first`. -/
def siftDown (less : α → α → Bool) (data : List α) (lo hi first : Nat) : List α :=
  siftDownLoop less hi first hi data lo

/-- `heapSort` sorts `data[a:b]`: build a max-heap, then pop its top to the end. -/
def heapSort (less : α → α → Bool) (data : List α) (a b : Nat) : List α :=
  let first := a
  let lo := 0
  let hi := b - a
  let data := (List.range ((hi - 1) / 2 + 1)).reverse.foldl
    (fun data i => siftDown less data i hi first) data
  (List.range hi).reverse.foldl
    (fun data i => siftDown less (swap data first (first + i)) lo i first) data

/-! ## Pivots and partitions -/

/-- `sortedHint`. -/
inductive SortedHint where
  | unknownHint
  | increasingHint
  | decreasingHint
  deriving Repr, DecidableEq

/-- `order2` returns `a, b` ordered by `Less`, counting a swap. -/
def order2 (less : α → α → Bool) (data : List α) (a b swaps : Nat) : Nat × Nat × Nat :=
  if less (get data b) (get data a) then (b, a, swaps + 1) else (a, b, swaps)

/-- `median` of the elements at `a`, `b`, `c`, with the swap count. -/
def median (less : α → α → Bool) (data : List α) (a b c swaps : Nat) : Nat × Nat :=
  let (a, b, swaps) := order2 less data a b swaps
  let (b, _, swaps) := order2 less data b c swaps
  let (_, b, swaps) := order2 less data a b swaps
  (b, swaps)

/-- `medianAdjacent` takes the median of `a - 1`, `a`, `a + 1`. -/
def medianAdjacent (less : α → α → Bool) (data : List α) (a swaps : Nat) : Nat × Nat :=
  median less data (a - 1) a (a + 1) swaps

/-- `choosePivot` picks a pivot of `data[a:b]` and guesses whether the slice is sorted. -/
def choosePivot (less : α → α → Bool) (data : List α) (a b : Nat) : Nat × SortedHint :=
  let l := b - a
  let i := a + l / 4 * 1
  let j := a + l / 4 * 2
  let k := a + l / 4 * 3
  let (j, swaps) :=
    if 8 ≤ l then
      let (i, j, k, swaps) :=
        if shortestNinther ≤ l then
          let (i, swaps) := medianAdjacent less data i 0
          let (j, swaps) := medianAdjacent less data j swaps
          let (k, swaps) := medianAdjacent less data k swaps
          (i, j, k, swaps)
        else
          (i, j, k, 0)
      median less data i j k swaps
    else
      (j, 0)
  (j, if swaps = 0 then .increasingHint
    else if swaps = maxSwaps then .decreasingHint else .unknownHint)

/-- `reverseRange`: the loop swaps `i` and `j` while `i < j`. -/
def reverseRangeLoop : Nat → List α → Nat → Nat → List α
  | 0, data, _, _ => data
  | fuel + 1, data, i, j =>
      if i < j then reverseRangeLoop fuel (swap data i j) (i + 1) (j - 1) else data

/-- `reverseRange` reverses `data[a:b]`. -/
def reverseRange (data : List α) (a b : Nat) : List α :=
  reverseRangeLoop (b - a) data a (b - 1)

/-- `for i <= j && cond(i) { i++ }`; the first argument counts the rounds left. -/
def scanUp (cond : Nat → Bool) (j : Nat) : Nat → Nat → Nat
  | 0, i => i
  | fuel + 1, i => if i ≤ j ∧ cond i then scanUp cond j fuel (i + 1) else i

/-- `for i <= j && cond(j) { j-- }`, for `1 ≤ i` as in both partitions. -/
def scanDown (cond : Nat → Bool) (i : Nat) : Nat → Nat
  | 0 => 0
  | j + 1 => if i ≤ j + 1 ∧ cond (j + 1) then scanDown cond i j else j + 1

/-- The `for` loop of `partition`; it returns the data and `j` at the `break`. -/
def partitionLoop (less : α → α → Bool) (a : Nat) :
    Nat → List α → Nat → Nat → List α × Nat
  | 0, data, _, j => (data, j)
  | fuel + 1, data, i, j =>
      let i := scanUp (fun i => less (get data i) (get data a)) j (j + 1 - i) i
      let j := scanDown (fun j => !less (get data j) (get data a)) i j
      if j < i then (data, j) else partitionLoop less a fuel (swap data i j) (i + 1) (j - 1)

/-- `partition` moves the pivot to `mid`, the smaller elements before it and the rest after
it; the flag says the slice was already partitioned. -/
def partition (less : α → α → Bool) (data : List α) (a b pivot : Nat) :
    List α × Nat × Bool :=
  let data := swap data a pivot
  let i := a + 1
  let j := b - 1
  let i := scanUp (fun i => less (get data i) (get data a)) j (j + 1 - i) i
  let j := scanDown (fun j => !less (get data j) (get data a)) i j
  if j < i then
    (swap data j a, j, true)
  else
    let (data, j) := partitionLoop less a (b - a) (swap data i j) (i + 1) (j - 1)
    (swap data j a, j, false)

/-- The `for` loop of `partitionEqual`; it returns the data and `i` at the `break`. -/
def partitionEqualLoop (less : α → α → Bool) (a : Nat) :
    Nat → List α → Nat → Nat → List α × Nat
  | 0, data, i, _ => (data, i)
  | fuel + 1, data, i, j =>
      let i := scanUp (fun i => !less (get data a) (get data i)) j (j + 1 - i) i
      let j := scanDown (fun j => less (get data a) (get data j)) i j
      if j < i then (data, i) else partitionEqualLoop less a fuel (swap data i j) (i + 1) (j - 1)

/-- `partitionEqual` puts the elements equal to the pivot first and returns where the
greater ones start; it assumes no element is smaller than the pivot. -/
def partitionEqual (less : α → α → Bool) (data : List α) (a b pivot : Nat) :
    List α × Nat :=
  partitionEqualLoop less a (b - a) (swap data a pivot) (a + 1) (b - 1)

/-! ## Pattern breaking and the nearly sorted case -/

/-- `for i < b && !data.Less(i, i-1) { i++ }` in `partialInsertionSort`. -/
def scanSorted (less : α → α → Bool) (data : List α) (b : Nat) : Nat → Nat → Nat
  | 0, i => i
  | fuel + 1, i =>
      if i < b ∧ ¬ less (get data i) (get data (i - 1)) then scanSorted less data b fuel (i + 1) else i

/-- `for j := i + 1; j < b; j++`: shift the greater element to the right. -/
def shiftRight (less : α → α → Bool) (b : Nat) : Nat → List α → Nat → List α
  | 0, data, _ => data
  | fuel + 1, data, j =>
      if j < b ∧ less (get data j) (get data (j - 1)) then
        shiftRight less b fuel (swap data j (j - 1)) (j + 1)
      else
        data

/-- The `maxSteps` rounds of `partialInsertionSort`. -/
def partialInsertionSortLoop (less : α → α → Bool) (a b : Nat) :
    Nat → List α → Nat → List α × Bool
  | 0, data, _ => (data, false)
  | steps + 1, data, i =>
      let i := scanSorted less data b (b - i) i
      if i = b then
        (data, true)
      else if b - a < shortestShifting then
        (data, false)
      else
        let data := swap data i (i - 1)
        -- `for j := i - 1; j >= 1; j--` is the insertion loop with lower bound 0
        let data := if 2 ≤ i - a then insertionShift less 0 (i - 1) data else data
        let data := if 2 ≤ b - i then shiftRight less b (b - (i + 1)) data (i + 1) else data
        partialInsertionSortLoop less a b steps data i

/-- `partialInsertionSort` fixes a few adjacent inversions and reports whether `data[a:b]`
ended up sorted. -/
def partialInsertionSort (less : α → α → Bool) (data : List α) (a b : Nat) :
    List α × Bool :=
  partialInsertionSortLoop less a b maxSteps data (a + 1)

/-- `xorshift.Next`. -/
def xorshiftNext (r : UInt64) : UInt64 :=
  let r := r ^^^ (r <<< 13)
  let r := r ^^^ (r >>> 7)
  r ^^^ (r <<< 17)

/-- `nextPowerOfTwo`. -/
def nextPowerOfTwo (length : Nat) : Nat :=
  1 <<< bitsLen length

/-- `breakPatterns` swaps three elements of the middle with pseudo-random ones. -/
def breakPatterns (data : List α) (a b : Nat) : List α :=
  let length := b - a
  if 8 ≤ length then
    let modulus := nextPowerOfTwo length
    let idx := a + (length / 4) * 2 - 1
    let step := fun (state : List α × UInt64) (i : Nat) =>
      let random := xorshiftNext state.2
      let other := random.toNat &&& (modulus - 1)
      let other := if length ≤ other then other - length else other
      (swap state.1 (idx + i) (a + other), random)
    ((List.range 3).foldl step (data, UInt64.ofNat length)).1
  else
    data

/-! ## The quicksort -/

/-- The part of a round of `pdqsort`'s loop before the partition: break patterns after an
unbalanced partition (spending one unit of `limit`), choose the pivot, reverse a slice that
looks decreasing, and try to finish a slice that looks sorted.  It returns the data, the limit,
the pivot and whether `data[a:b]` is now sorted. -/
def pdqsortPrepare (less : α → α → Bool) (data : List α) (a b limit : Nat)
    (wasBalanced wasPartitioned : Bool) : List α × Nat × Nat × Bool :=
  let data := if wasBalanced then data else breakPatterns data a b
  let limit := if wasBalanced then limit else limit - 1
  let (pivot, hint) := choosePivot less data a b
  let (data, pivot, hint) :=
    if hint = .decreasingHint then
      (reverseRange data a b, (b - 1) - (pivot - a), SortedHint.increasingHint)
    else
      (data, pivot, hint)
  let (data, sorted) :=
    if wasBalanced ∧ wasPartitioned ∧ hint = .increasingHint then
      partialInsertionSort less data a b
    else
      (data, false)
  (data, limit, pivot, sorted)

/-- `pdqsort` sorts `data[a:b]`.  Every round of Go's `for` loop, and every recursive call,
shrinks `b - a`, so `b - a + 1` rounds of recursion suffice. -/
def pdqsort (less : α → α → Bool) :
    Nat → List α → Nat → Nat → Nat → Bool → Bool → List α
  | 0, data, _, _, _, _, _ => data
  | fuel + 1, data, a, b, limit, wasBalanced, wasPartitioned =>
      let length := b - a
      if length ≤ maxInsertion then
        insertionSort less data a b
      else if limit = 0 then
        heapSort less data a b
      else
        let (data, limit, pivot, sorted) :=
          pdqsortPrepare less data a b limit wasBalanced wasPartitioned
        if sorted then
          data
        else if 0 < a ∧ ¬ less (get data (a - 1)) (get data pivot) then
          let (data, mid) := partitionEqual less data a b pivot
          pdqsort less fuel data mid b limit wasBalanced wasPartitioned
        else
          let (data, mid, alreadyPartitioned) := partition less data a b pivot
          let leftLen := mid - a
          let rightLen := b - mid
          let balanceThreshold := length / 8
          if leftLen < rightLen then
            pdqsort less fuel (pdqsort less fuel data a mid limit true true) (mid + 1) b limit
              (decide (balanceThreshold ≤ leftLen)) alreadyPartitioned
          else
            pdqsort less fuel (pdqsort less fuel data (mid + 1) b limit true true) a mid limit
              (decide (balanceThreshold ≤ rightLen)) alreadyPartitioned

/-- `sort.Sort` on a slice whose `Len()` is `n`. -/
def sort (less : α → α → Bool) (n : Nat) (data : List α) : List α :=
  if n ≤ 1 then data else pdqsort less (n + 1) data 0 n (bitsLen n) true true

end Dag.GoSort
