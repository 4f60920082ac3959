import Mathlib.Order.Basic
import Dag.GoSortPerm

namespace Dag.GoSort

/-!
# Insertion sort and heapsort sort

The sorts of the dag package compare keys: `Less(i, j)` holds when the key of element `i` is
below the key of element `j` in a linear order (`keyLess`).  For such a comparison this module
proves that `insertionSort` and `heapSort` sort their window, `SortedOn`.  Insertion sort keeps
a window sorted except at the element being moved (`SortedExcept`); heapsort keeps the heap
order of `HeapFrom` while it builds the heap, and while it pops it keeps a heap in front of a
sorted tail of elements no smaller.
-/

variable {α : Type} {β : Type} [LinearOrder β]

/-- A `Less` that compares keys. -/
def keyLess (key : α → β) (x y : α) : Bool :=
  decide (key x < key y)

/-- `keyLess` holds when the first key is smaller. -/
@[simp] theorem keyLess_eq_true (key : α → β) {x y : α} :
    keyLess key x y = true ↔ key x < key y := by
  simp [keyLess]

/-- `keyLess` fails when the second key is no greater. -/
@[simp] theorem keyLess_eq_false (key : α → β) {x y : α} :
    keyLess key x y = false ↔ key y ≤ key x := by
  simp [keyLess]

variable [Inhabited α]

/-- `data[a:b]` is sorted by `key`. -/
def SortedOn (key : α → β) (a b : Nat) (data : List α) : Prop :=
  ∀ i j, a ≤ i → i ≤ j → j < b → key (get data i) ≤ key (get data j)

section Basics

variable (key : α → β)

/-- A window of at most one element is sorted. -/
theorem sortedOn_of_le {a b : Nat} (data : List α) (short : b ≤ a + 1) : SortedOn key a b data :=
  fun i j lower ordered upper => by
    obtain rfl : i = j := by omega
    exact le_rfl

/-- Two sorted windows side by side, every element of the first no greater than every element
of the second, make one sorted window. -/
theorem SortedOn.append {a m b : Nat} {data : List α} (left : SortedOn key a m data)
    (right : SortedOn key m b data)
    (cross : ∀ i j, a ≤ i → i < m → m ≤ j → j < b → key (get data i) ≤ key (get data j)) :
    SortedOn key a b data := by
  intro i j lower ordered upper
  by_cases inLeft : j < m
  · exact left i j lower ordered inLeft
  · by_cases inRight : m ≤ i
    · exact right i j inRight ordered upper
    · exact cross i j lower (by omega) (by omega) upper

/-- A part of a sorted window is sorted. -/
theorem SortedOn.mono {a b a' b' : Nat} {data : List α} (sorted : SortedOn key a b data)
    (lower : a ≤ a') (upper : b' ≤ b) : SortedOn key a' b' data :=
  fun i j lowerI ordered upperJ => sorted i j (by omega) ordered (by omega)

/-- A sorted window stays sorted under a rearrangement of the outside. -/
theorem SortedOn.of_outside {a b c d : Nat} {data data' : List α} (sorted : SortedOn key a b data)
    (perm : PermOn c d data data') (apart : b ≤ c ∨ d ≤ a) : SortedOn key a b data' := by
  intro i j lower ordered upper
  rw [perm.get_outside (by omega), perm.get_outside (by omega)]
  exact sorted i j lower ordered upper

end Basics

/-! ## Folds over index ranges -/

/-- An invariant of the step at each index of `range' s n` holds after the fold. -/
theorem foldl_range'_induction {γ : Type} {g : γ → Nat → γ} (P : Nat → γ → Prop) :
    ∀ (s n : Nat) (start : γ), P s start →
      (∀ i x, s ≤ i → i < s + n → P i x → P (i + 1) (g x i)) →
        P (s + n) ((List.range' s n).foldl g start)
  | s, 0, start, initial, _ => initial
  | s, n + 1, start, initial, step => by
      rw [List.range'_succ, List.foldl_cons, show s + (n + 1) = s + 1 + n by omega]
      exact foldl_range'_induction P (s + 1) n _ (step s start le_rfl (by omega) initial)
        fun i x lower upper => step i x (by omega) (by omega)

/-- An invariant of the step at each index of `range n`, taken downwards, holds after the
fold. -/
theorem foldl_range_reverse_induction {γ : Type} {g : γ → Nat → γ} (P : Nat → γ → Prop) :
    ∀ (n : Nat) (start : γ), P n start → (∀ i x, i < n → P (i + 1) x → P i (g x i)) →
      P 0 ((List.range n).reverse.foldl g start)
  | 0, start, initial, _ => initial
  | n + 1, start, initial, step => by
      rw [List.range_succ, List.reverse_append, List.reverse_singleton, List.singleton_append,
        List.foldl_cons]
      exact foldl_range_reverse_induction P n _ (step n start (by omega) initial)
        fun i x upper => step i x (by omega)

/-! ## Insertion sort -/

section Insertion

variable (key : α → β)

/-- `data[a:b]` is sorted but for pairs ending at `j`, the position of the element being
moved left. -/
def SortedExcept (a b j : Nat) (data : List α) : Prop :=
  ∀ p q, a ≤ p → p ≤ q → q < b → (j ≤ p ∨ q ≠ j) → key (get data p) ≤ key (get data q)

/-- Reading a swapped slice: the two positions trade their elements. -/
theorem get_swap_eq {data : List α} {i j : Nat} (hi : i < data.length) (hj : j < data.length)
    (k : Nat) :
    get (swap data i j) k =
      if k = i then get data j else if k = j then get data i else get data k := by
  rw [get_swap hi hj, Equiv.swap_apply_def]
  split_ifs <;> rfl

/-- Moving the element at `j + 1` one place left past a greater one keeps the window sorted
but for pairs ending at `j`. -/
theorem SortedExcept.swap {a b j : Nat} {data : List α} (before : SortedExcept key a b (j + 1) data)
    (lower : a ≤ j) (upper : j + 1 < b) (inside : b ≤ data.length)
    (inversion : key (get data (j + 1)) < key (get data j)) :
    SortedExcept key a b j (swap data (j + 1) j) := by
  have atJ : get (GoSort.swap data (j + 1) j) j = get data (j + 1) :=
    get_swap_right (by omega) (by omega)
  have atNext : get (GoSort.swap data (j + 1) j) (j + 1) = get data j :=
    get_swap_left (by omega) (by omega)
  have other : ∀ k, k ≠ j + 1 → k ≠ j → get (GoSort.swap data (j + 1) j) k = get data k :=
    fun _ => get_swap_of_ne (by omega) (by omega)
  intro p q hp ordered hq exempt
  by_cases qAtJ : q = j
  · obtain rfl : p = q := by omega
    exact le_rfl
  by_cases qAtNext : q = j + 1
  · subst qAtNext
    rw [atNext]
    by_cases pAtNext : p = j + 1
    · rw [pAtNext, atNext]
    by_cases pAtJ : p = j
    · rw [pAtJ, atJ]
      exact inversion.le
    rw [other p pAtNext pAtJ]
    exact before p j hp (by omega) (by omega) (.inr (by omega))
  rw [other q qAtNext qAtJ]
  by_cases pAtJ : p = j
  · rw [pAtJ, atJ]
    exact before (j + 1) q (by omega) (by omega) hq (.inl le_rfl)
  by_cases pAtNext : p = j + 1
  · rw [pAtNext, atNext]
    exact before j q lower (by omega) hq (.inr qAtNext)
  rw [other p pAtNext pAtJ]
  exact before p q hp ordered hq (.inr qAtNext)

/-- The inner loop of insertion sort ends with a sorted window. -/
theorem sortedOn_insertionShift {a b : Nat} :
    ∀ j (data : List α), j < b → b ≤ data.length → SortedExcept key a b j data →
      SortedOn key a b (insertionShift (keyLess key) a j data)
  | 0, data, _, _, before => fun p q hp ordered hq =>
      before p q hp ordered hq (by omega)
  | j + 1, data, upper, inside, before => by
      rw [insertionShift]
      split
      · next moves =>
          rw [keyLess_eq_true] at moves
          exact sortedOn_insertionShift j _ (by omega) (by simpa using inside)
            (before.swap key (by omega) upper inside moves.2)
      · next stays =>
          intro p q hp ordered hq
          by_cases pairEnd : q = j + 1 ∧ p < j + 1
          · obtain ⟨rfl, below⟩ := pairEnd
            have : key (get data j) ≤ key (get data (j + 1)) := by
              by_contra inverted
              exact stays ⟨by omega, by simpa using inverted⟩
            exact (before p j hp (by omega) (by omega) (by omega)).trans this
          · exact before p q hp ordered hq (by omega)

/-- `insertionSort` sorts `data[a:b]`. -/
theorem sortedOn_insertionSort {data : List α} {a b : Nat} (inside : b ≤ data.length) :
    SortedOn key a b (insertionSort (keyLess key) data a b) := by
  by_cases short : b ≤ a + 1
  · exact sortedOn_of_le key _ short
  have sorts := foldl_range'_induction (g := fun data i => insertionShift (keyLess key) a i data)
    (fun i s => PermOn a b data s ∧ SortedOn key a i s) (a + 1) (b - (a + 1)) data
    ⟨PermOn.refl a b data, sortedOn_of_le key data le_rfl⟩ fun i s lower upper invariant => by
      have length : i < s.length := by have := invariant.1.1; omega
      refine ⟨invariant.1.trans ((permOn_insertionShift _ a i s length).mono le_rfl (by omega)),
        sortedOn_insertionShift key i s (by omega) length fun p q hp ordered hq exempt => ?_⟩
      by_cases atI : q = i
      · obtain rfl : p = q := by omega
        exact le_rfl
      · exact invariant.2 p q hp ordered (by omega)
  rw [show a + 1 + (b - (a + 1)) = b by omega] at sorts
  exact sorts.2

end Insertion

/-! ## Short slices

`sort.Sort` hands a slice of at most `maxInsertion` elements to `insertionSort` and does
nothing else.  Insertion sort compares the element it moves only with elements that stood
before it in the slice, so two comparisons that agree on such pairs sort alike.  That is why a
short slice keeps, among equal keys, the order it came in: insertion sort is stable.
-/

/-- `sort.Sort` on at most `maxInsertion` elements is one insertion sort. -/
theorem sort_eq_insertionSort (less : α → α → Bool) {n : Nat} (data : List α)
    (short : n ≤ maxInsertion) : sort less n data = insertionSort less data 0 n := by
  unfold sort
  split
  · rw [insertionSort, show n - (0 + 1) = 0 by omega]
    rfl
  · rw [pdqsort]
    exact if_pos short

/-- The inner loop of `insertionSort` depends only on how the moving element compares with
the elements before it. -/
theorem insertionShift_congr {less less' : α → α → Bool} (a : Nat) :
    ∀ j (data : List α), j < data.length →
      (∀ k, a ≤ k → k < j → less (get data j) (get data k) = less' (get data j) (get data k)) →
        insertionShift less a j data = insertionShift less' a j data
  | 0, _, _, _ => rfl
  | j + 1, data, inside, agree => by
      rw [insertionShift, insertionShift]
      by_cases lower : a < j + 1
      · rw [agree j (by omega) (by omega)]
        by_cases moves : less' (get data (j + 1)) (get data j) = true
        · rw [if_pos ⟨lower, moves⟩, if_pos ⟨lower, moves⟩]
          refine insertionShift_congr a j _ (by simp; omega) fun k lowerK upperK => ?_
          rw [get_swap_right (by omega) (by omega),
            get_swap_of_ne (by omega) (by omega) (by omega) (by omega)]
          exact agree k lowerK (by omega)
        · rw [if_neg fun both => moves both.2, if_neg fun both => moves both.2]
      · rw [if_neg fun both => lower both.1, if_neg fun both => lower both.1]

/-- `insertionSort` sorts alike under two comparisons that agree whenever an element of the
window is compared with one that stood before it. -/
theorem insertionSort_congr {less less' : α → α → Bool} {data : List α} {a b : Nat}
    (inside : b ≤ data.length)
    (agree : ∀ k i, a ≤ k → k < i → i < b →
      less (get data i) (get data k) = less' (get data i) (get data k)) :
    insertionSort less data a b = insertionSort less' data a b := by
  suffices steps : ∀ n s (current : List α), PermOn a s data current → a < s → s + n ≤ b →
      (List.range' s n).foldl (fun data i => insertionShift less a i data) current =
        (List.range' s n).foldl (fun data i => insertionShift less' a i data) current by
    by_cases short : b ≤ a + 1
    · rw [insertionSort, insertionSort, show b - (a + 1) = 0 by omega]
      rfl
    · exact steps _ _ data (PermOn.refl _ _ data) (by omega) (by omega)
  intro n
  induction n with
  | zero =>
      intro _ _ _ _ _
      rfl
  | succ n inductionHypothesis =>
      intro s current reached lower upper
      have length := reached.1
      -- the moving element is the original one at `s`; the ones before it are rearranged
      have moving : get current s = get data s := reached.get_outside (.inr le_rfl)
      have same : insertionShift less a s current = insertionShift less' a s current :=
        insertionShift_congr a s current (by omega) (reached.forall_inside
          (p := fun y => less (get current s) y = less' (get current s) y)
          fun k lowerK upperK => moving ▸ agree k s lowerK upperK (by omega))
      rw [List.range'_succ, List.foldl_cons, List.foldl_cons, same]
      exact inductionHypothesis (s + 1) _ ((reached.mono le_rfl (Nat.le_succ s)).trans
        (permOn_insertionShift less' a s current (by omega))) (by omega) (by omega)

/-! ## Heapsort -/

section Heap

variable (key : α → β)

/-- The heap `data[first:first+n]` is ordered below position `lo`: every node whose parent is
at `lo` or later is no greater than its parent. -/
def HeapFrom (first lo n : Nat) (data : List α) : Prop :=
  ∀ k, 0 < k → k < n → lo ≤ (k - 1) / 2 →
    key (get data (first + k)) ≤ key (get data (first + (k - 1) / 2))

/-- A position after the root comes after its parent. -/
theorem parent_lt {k : Nat} (positive : 0 < k) : (k - 1) / 2 < k := by
  omega

/-- The parent of either child of `root` is `root`. -/
theorem parent_child {root child : Nat} (isChild : child = 2 * root + 1 ∨ child = 2 * root + 2) :
    (child - 1) / 2 = root := by
  omega

/-- A position after the root whose parent is `root` is one of its two children. -/
theorem child_of_parent {k root : Nat} (positive : 0 < k) (parentRoot : (k - 1) / 2 = root) :
    k = 2 * root + 1 ∨ k = 2 * root + 2 := by
  omega

/-- The top of a heap ordered from its root is a greatest element of the heap. -/
theorem HeapFrom.le_top {first n : Nat} {data : List α} (heap : HeapFrom key first 0 n data) :
    ∀ k, k < n → key (get data (first + k)) ≤ key (get data first) := by
  intro k
  induction k using Nat.strong_induction_on with
  | _ k inductionHypothesis =>
      intro below
      rcases Nat.eq_zero_or_pos k with rfl | positive
      · simp
      · exact (heap k positive below (Nat.zero_le _)).trans
          (inductionHypothesis _ (parent_lt positive) ((parent_lt positive).trans below))

/-- The state of `siftDown` at `root`: the heap is ordered below `lo` except between `root` and
its children, and when `root` has moved down, its children are no greater than its parent. -/
structure Sifting (first lo n root : Nat) (data : List α) : Prop where
  except : ∀ k, 0 < k → k < n → lo ≤ (k - 1) / 2 → (k - 1) / 2 ≠ root →
    key (get data (first + k)) ≤ key (get data (first + (k - 1) / 2))
  grand : lo < root → ∀ c, 0 < c → c < n → (c - 1) / 2 = root →
    key (get data (first + c)) ≤ key (get data (first + (root - 1) / 2))

variable {key} {first lo n root child : Nat} {data : List α}

/-- A root without children leaves the heap ordered. -/
theorem Sifting.leaf (sifting : Sifting key first lo n root data) (childless : n ≤ 2 * root + 1) :
    HeapFrom key first lo n data :=
  fun k positive below lower => sifting.except k positive below lower (by omega)

/-- A root no smaller than its greatest child leaves the heap ordered. -/
theorem Sifting.stop (sifting : Sifting key first lo n root data)
    (maxChild : ∀ k, 0 < k → k < n → (k - 1) / 2 = root →
      key (get data (first + k)) ≤ key (get data (first + child)))
    (settled : key (get data (first + child)) ≤ key (get data (first + root))) :
    HeapFrom key first lo n data := by
  intro k positive below lower
  by_cases parentRoot : (k - 1) / 2 = root
  · rw [parentRoot]
    exact (maxChild k positive below parentRoot).trans settled
  · exact sifting.except k positive below lower parentRoot

/-- Swapping a root with its greatest child, when that child is greater, moves the sifting
state to the child. -/
theorem Sifting.swap (sifting : Sifting key first lo n root data)
    (isChild : child = 2 * root + 1 ∨ child = 2 * root + 2) (below : child < n)
    (maxChild : ∀ k, 0 < k → k < n → (k - 1) / 2 = root →
      key (get data (first + k)) ≤ key (get data (first + child)))
    (inversion : key (get data (first + root)) < key (get data (first + child)))
    (inside : first + n ≤ data.length) :
    Sifting key first lo n child (GoSort.swap data (first + root) (first + child)) := by
  have atRoot : get (GoSort.swap data (first + root) (first + child)) (first + root) =
      get data (first + child) := get_swap_left (by omega) (by omega)
  have atChild : get (GoSort.swap data (first + root) (first + child)) (first + child) =
      get data (first + root) := get_swap_right (by omega) (by omega)
  have other : ∀ k, k ≠ root → k ≠ child →
      get (GoSort.swap data (first + root) (first + child)) (first + k) = get data (first + k) :=
    fun k notRoot notChild => get_swap_of_ne (by omega) (by omega) (by omega) (by omega)
  have rootChild : root < child := by omega
  have childParent := parent_child isChild
  constructor
  · intro k positive bound lowerK away
    by_cases isRoot : k = root
    · subst isRoot
      have parentBelow := parent_lt positive
      rw [atRoot, other _ parentBelow.ne away]
      exact sifting.grand (lowerK.trans_lt parentBelow) child ((Nat.zero_le k).trans_lt rootChild)
        below childParent
    by_cases isChild : k = child
    · subst isChild
      rw [atChild, childParent, atRoot]
      exact inversion.le
    rw [other k isRoot isChild]
    by_cases parentRoot : (k - 1) / 2 = root
    · rw [parentRoot, atRoot]
      exact maxChild k positive bound parentRoot
    · rw [other _ parentRoot away]
      exact sifting.except k positive bound lowerK parentRoot
  · intro lowerChild c positive bound parentChild
    have childBelow : child < c := parentChild ▸ parent_lt positive
    rw [childParent, atRoot, other c (rootChild.trans childBelow).ne' childBelow.ne']
    have := sifting.except c positive bound (parentChild ▸ lowerChild.le)
      (parentChild ▸ rootChild.ne')
    rwa [parentChild] at this

variable (key)

/-- `siftDown` leaves the heap ordered below `lo`. -/
theorem heapFrom_siftDownLoop :
    ∀ fuel (data : List α) root, first + n ≤ data.length → n ≤ root + fuel →
      Sifting key first lo n root data →
        HeapFrom key first lo n (siftDownLoop (keyLess key) n first fuel data root)
  | 0, data, root, _, enough, sifting => sifting.leaf (by omega)
  | fuel + 1, data, root, inside, enough, sifting => by
      rw [siftDownLoop]
      split
      · next childless => exact sifting.leaf childless
      have step : ∀ child, (child = 2 * root + 1 ∨ child = 2 * root + 2) → child < n →
          (∀ k, 0 < k → k < n → (k - 1) / 2 = root →
            key (get data (first + k)) ≤ key (get data (first + child))) →
          HeapFrom key first lo n
            (if ¬ keyLess key (get data (first + root)) (get data (first + child)) then data
              else siftDownLoop (keyLess key) n first fuel
                (swap data (first + root) (first + child)) child) := by
        intro child isChild below maxChild
        split
        · next settled =>
            exact sifting.stop maxChild (by simpa using settled)
        · next moves =>
            exact heapFrom_siftDownLoop fuel _ child (by simpa using inside) (by omega)
              (sifting.swap isChild below maxChild (by simpa using moves) inside)
      simp only
      split
      · next right =>
          refine step _ (.inr rfl) right.1 fun k positive bound parentRoot => ?_
          obtain rfl | rfl := child_of_parent positive parentRoot
          · exact ((keyLess_eq_true key).mp right.2).le
          · exact le_rfl
      · next left =>
          refine step _ (.inl rfl) (by omega) fun k positive bound parentRoot => ?_
          obtain rfl | rfl := child_of_parent positive parentRoot
          · exact le_rfl
          · simpa [bound] using left

/-- The heap-building loop of `heapSort` rearranges `data[a:b]` into a heap ordered from its
root. -/
theorem heapSort_build {data : List α} {a b : Nat} (ordered : a ≤ b) (inside : b ≤ data.length) :
    PermOn a b data ((List.range ((b - a - 1) / 2 + 1)).reverse.foldl
        (fun data i => siftDown (keyLess key) data i (b - a) a) data) ∧
      HeapFrom key a 0 (b - a) ((List.range ((b - a - 1) / 2 + 1)).reverse.foldl
        (fun data i => siftDown (keyLess key) data i (b - a) a) data) :=
  foldl_range_reverse_induction (fun i s => PermOn a b data s ∧ HeapFrom key a i (b - a) s)
    ((b - a - 1) / 2 + 1) data ⟨PermOn.refl a b data, fun k positive below lower => by omega⟩
    fun i s _ invariant => by
      have length : s.length = data.length := invariant.1.1
      refine ⟨invariant.1.trans ((permOn_siftDownLoop _ (b - a) a _ s i (by omega)).mono le_rfl
        (by omega)), heapFrom_siftDownLoop key _ s i (by omega) (by omega) ⟨?_, ?_⟩⟩
      · exact fun k positive below lower away => invariant.2 k positive below (by omega)
      · exact fun bad => absurd bad (lt_irrefl i)

/-- The state of the popping loop of `heapSort` with `i` elements left in the heap: a heap in
`data[a:a+i]`, a sorted tail `data[a+i:b]`, and no heap element above a tail element. -/
structure Popping (a b i : Nat) (data : List α) : Prop where
  heap : HeapFrom key a 0 i data
  sorted : SortedOn key (a + i) b data
  cross : ∀ p q, a ≤ p → p < a + i → a + i ≤ q → q < b → key (get data p) ≤ key (get data q)

variable {key}

/-- Swapping the top of the heap to the front of the tail leaves a heap ordered but at its new
root, and a tail one longer, sorted and above the heap. -/
theorem Popping.swapTop {a b i : Nat} {data : List α} (popping : Popping key a b (i + 1) data)
    (below : a + i < b) (inside : b ≤ data.length) :
    Sifting key a 0 i 0 (swap data a (a + i)) ∧ SortedOn key (a + i) b (swap data a (a + i)) ∧
      ∀ p q, a ≤ p → p < a + i → a + i ≤ q → q < b →
        key (get (swap data a (a + i)) p) ≤ key (get (swap data a (a + i)) q) := by
  obtain ⟨heap, sorted, cross⟩ := popping
  have top := heap.le_top
  have atFront : get (swap data a (a + i)) a = get data (a + i) :=
    get_swap_left (by omega) (by omega)
  have atEnd : get (swap data a (a + i)) (a + i) = get data a :=
    get_swap_right (by omega) (by omega)
  have outside : ∀ q, q ≠ a → q ≠ a + i → get (swap data a (a + i)) q = get data q :=
    fun q => get_swap_of_ne (by omega) (by omega)
  refine ⟨⟨fun k positive bound _ away => ?_, fun bad => absurd bad (Nat.not_lt_zero 0)⟩,
    fun p q lower ordered upper => ?_, fun p q lower upper lowerQ upperQ => ?_⟩
  · rw [outside _ (by omega) (by omega), outside _ (by omega) (by omega)]
    exact heap k positive (by omega) (Nat.zero_le _)
  · by_cases tailFront : p = a + i
    · subst tailFront
      by_cases same : q = a + i
      · rw [same]
      · rw [atEnd, outside q (by omega) same]
        exact cross a q le_rfl (by omega) (by omega) upper
    · rw [outside p (by omega) (by omega), outside q (by omega) (by omega)]
      exact sorted p q (by omega) ordered upper
  · by_cases heapFront : p = a
    · subst heapFront
      by_cases same : q = p + i
      · rw [same, atFront, atEnd]
        exact top i (by omega)
      · rw [atFront, outside q (by omega) same]
        exact cross (p + i) q (by omega) (by omega) (by omega) upperQ
    · rw [outside p heapFront (by omega)]
      by_cases same : q = a + i
      · rw [same, atEnd]
        simpa [show a + (p - a) = p by omega] using top (p - a) (by omega)
      · rw [outside q (by omega) same]
        exact cross p q lower (by omega) (by omega) upperQ

/-- One pop swaps the top of the heap to the front of the tail and sifts the new root down. -/
theorem Popping.pop {a b i : Nat} {data : List α} (popping : Popping key a b (i + 1) data)
    (below : a + i < b) (inside : b ≤ data.length) :
    PermOn a b data (siftDown (keyLess key) (swap data a (a + i)) 0 i a) ∧
      Popping key a b i (siftDown (keyLess key) (swap data a (a + i)) 0 i a) := by
  obtain ⟨sifting, sortedTail, crossTail⟩ := popping.swapTop below inside
  have swapped : PermOn a b data (swap data a (a + i)) :=
    PermOn.swap data ⟨le_rfl, by omega⟩ ⟨by omega, by omega⟩ inside
  have sifted := permOn_siftDownLoop (keyLess key) i a i (swap data a (a + i)) 0 (by simp; omega)
  have heap := heapFrom_siftDownLoop key i (swap data a (a + i)) 0 (by simp; omega) (by omega)
    sifting
  unfold siftDown
  generalize siftDownLoop (keyLess key) i a i (swap data a (a + i)) 0 = data₁ at sifted heap ⊢
  refine ⟨swapped.trans (sifted.mono le_rfl (by omega)), heap,
    sortedTail.of_outside key sifted (.inr le_rfl), fun p q lower upper lowerQ upperQ => ?_⟩
  rw [sifted.get_outside (.inr lowerQ)]
  exact sifted.forall_inside (p := fun x => key x ≤ key (get (swap data a (a + i)) q))
    (fun p lower upper => crossTail p q lower upper lowerQ upperQ) p lower upper

variable (key)

/-- `heapSort` sorts `data[a:b]`. -/
theorem sortedOn_heapSort {data : List α} {a b : Nat} (ordered : a ≤ b)
    (inside : b ≤ data.length) : SortedOn key a b (heapSort (keyLess key) data a b) := by
  unfold heapSort
  dsimp only
  have build := heapSort_build key ordered inside
  have pop := foldl_range_reverse_induction
    (g := fun data i => siftDown (keyLess key) (swap data a (a + i)) 0 i a)
    (fun i s => PermOn a b data s ∧ Popping key a b i s) (b - a) _
    ⟨build.1, build.2, sortedOn_of_le key _ (by omega), fun p q _ _ _ _ => by omega⟩
    fun i s below invariant => by
      have pop := invariant.2.pop (by omega) (invariant.1.inside inside)
      exact ⟨invariant.1.trans pop.1, pop.2⟩
  simpa using pop.2.sorted

end Heap

end Dag.GoSort
