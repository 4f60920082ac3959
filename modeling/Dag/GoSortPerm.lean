import Mathlib.Data.List.Nodup
import Mathlib.Data.List.Perm.Basic
import Mathlib.Algebra.Group.Nat.Basic
import Mathlib.Logic.Equiv.Basic
import Dag.GoSort

namespace Dag.GoSort

open scoped List

/-!
# Every run of the sort permutes the slice

Every function of `sort/zsortinterface.go` changes its slice only through `Swap`, so it
permutes the slice.  `PermOn a b data data'` says more: the positions outside `[a, b)` keep their
elements, and the positions inside are rearranged by a bijection of `Nat` that fixes the
outside.  Each function below gets one such lemma, from the index bounds of its swaps; at the
top, `sort` on the whole slice returns a permutation of it.
-/

variable {α : Type} [Inhabited α]

/-- `swap` keeps the length. -/
@[simp] theorem length_swap (data : List α) (i j : Nat) : (swap data i j).length = data.length := by
  simp [swap]

/-- Reading a swapped slice is reading the slice through the transposition. -/
theorem get_swap {data : List α} {i j : Nat} (hi : i < data.length) (hj : j < data.length)
    (k : Nat) : get (swap data i j) k = get data (Equiv.swap i j k) := by
  rw [Equiv.swap_apply_def]
  simp only [get, swap, List.getD_eq_getElem?_getD, List.getElem?_set, List.length_set]
  by_cases atJ : k = j
  · subst atJ
    simp [hj]
    split <;> simp_all
  · by_cases atI : k = i
    · subst atI
      simp [hi, Ne.symm atJ]
    · simp [Ne.symm atI, Ne.symm atJ, atI, atJ]

section Reads

variable {data : List α} {i j : Nat} (hi : i < data.length) (hj : j < data.length)
include hi hj

/-- The first swapped position holds the element of the second. -/
theorem get_swap_left : get (swap data i j) i = get data j := by
  rw [get_swap hi hj, Equiv.swap_apply_left]

/-- The second swapped position holds the element of the first. -/
theorem get_swap_right : get (swap data i j) j = get data i := by
  rw [get_swap hi hj, Equiv.swap_apply_right]

/-- A position that is neither swapped position keeps its element. -/
theorem get_swap_of_ne {k : Nat} (notI : k ≠ i) (notJ : k ≠ j) :
    get (swap data i j) k = get data k := by
  rw [get_swap hi hj, Equiv.swap_apply_of_ne_of_ne notI notJ]

end Reads

/-- `data'` is `data` with the positions in `[a, b)` rearranged among themselves. -/
def PermOn (a b : Nat) (data data' : List α) : Prop :=
  data'.length = data.length ∧
    ∃ σ : Equiv.Perm Nat, (∀ k, k < a ∨ b ≤ k → σ k = k) ∧ ∀ k, get data' k = get data (σ k)

namespace PermOn

variable {a b a' b' : Nat} {data data₁ data₂ : List α}

/-- Leaving the slice alone rearranges nothing. -/
theorem refl (a b : Nat) (data : List α) : PermOn a b data data :=
  ⟨rfl, Equiv.refl Nat, fun _ _ => rfl, fun _ => rfl⟩

/-- Two rearrangements in a row are one. -/
theorem trans (first : PermOn a b data data₁) (second : PermOn a b data₁ data₂) :
    PermOn a b data data₂ := by
  obtain ⟨length₁, σ, fixed, reads⟩ := first
  obtain ⟨length₂, τ, fixed', reads'⟩ := second
  refine ⟨length₂.trans length₁, τ.trans σ, fun k outside => ?_, fun k => ?_⟩
  · rw [Equiv.trans_apply, fixed' k outside, fixed k outside]
  · rw [reads', reads, Equiv.trans_apply]

/-- A rearrangement of a smaller window is one of a larger window. -/
theorem mono (inner : PermOn a b data data₁) (lower : a' ≤ a) (upper : b ≤ b') :
    PermOn a' b' data data₁ := by
  obtain ⟨length₁, σ, fixed, reads⟩ := inner
  exact ⟨length₁, σ, fun k outside => fixed k (by omega), reads⟩

/-- A swap of two positions of the window is a rearrangement of the window. -/
theorem swap (data : List α) {i j : Nat} (hi : a ≤ i ∧ i < b) (hj : a ≤ j ∧ j < b)
    (inside : b ≤ data.length) : PermOn a b data (GoSort.swap data i j) := by
  refine ⟨length_swap data i j, Equiv.swap i j, fun k outside => ?_,
    get_swap (by omega) (by omega)⟩
  exact Equiv.swap_apply_of_ne_of_ne (by omega) (by omega)

/-- A rearrangement keeps every bound on the length. -/
theorem inside {c : Nat} (perm : PermOn a b data data₁) (bounded : c ≤ data.length) :
    c ≤ data₁.length :=
  perm.1 ▸ bounded

/-- The positions outside the window keep their elements. -/
theorem get_outside (perm : PermOn a b data data₁) {k : Nat} (outside : k < a ∨ b ≤ k) :
    get data₁ k = get data k := by
  obtain ⟨-, σ, fixed, reads⟩ := perm
  rw [reads, fixed k outside]

/-- A bijection that fixes everything outside a window maps the window into itself. -/
theorem maps_inside {σ : Equiv.Perm Nat} (fixed : ∀ k, k < a ∨ b ≤ k → σ k = k) {k : Nat}
    (inside : a ≤ k ∧ k < b) : a ≤ σ k ∧ σ k < b := by
  by_contra escaped
  have : σ (σ k) = σ k := fixed (σ k) (by omega)
  have := σ.injective this
  omega

/-- A property of every element of the window holds after the rearrangement. -/
theorem forall_inside (perm : PermOn a b data data₁) {p : α → Prop}
    (before : ∀ k, a ≤ k → k < b → p (get data k)) :
    ∀ k, a ≤ k → k < b → p (get data₁ k) := by
  obtain ⟨-, σ, fixed, reads⟩ := perm
  intro k lower upper
  rw [reads]
  exact before (σ k) (maps_inside fixed ⟨lower, upper⟩).1 (maps_inside fixed ⟨lower, upper⟩).2

/-- A slice read back through `get` at every position is the slice. -/
theorem map_get_range (data : List α) :
    (List.range data.length).map (get data) = data := by
  apply List.ext_getElem (by simp)
  intro k lower _
  simp only [List.getElem_map, List.getElem_range, get, List.getD_eq_getElem?_getD]
  simp [List.getElem?_eq_getElem (by simpa using lower)]

/-- A rearrangement of the whole slice is a permutation of it. -/
theorem perm (whole : PermOn 0 data.length data data₁) : data₁ ~ data := by
  obtain ⟨length₁, σ, fixed, reads⟩ := whole
  have indices : (List.range data.length).map σ ~ List.range data.length := by
    refine (List.perm_ext_iff_of_nodup (List.Nodup.map σ.injective (List.nodup_range _))
      (List.nodup_range _)).mpr fun k => ?_
    simp only [List.mem_map, List.mem_range]
    constructor
    · rintro ⟨m, below, rfl⟩
      exact (maps_inside fixed ⟨Nat.zero_le m, below⟩).2
    · intro below
      refine ⟨σ.symm k, ?_, σ.apply_symm_apply k⟩
      have := maps_inside (σ := σ.symm) (a := 0) (b := data.length)
        (fun m outside => by
          have := fixed m outside
          exact σ.injective (by rw [σ.apply_symm_apply, this])) ⟨Nat.zero_le k, below⟩
      exact this.2
  calc data₁ = (List.range data.length).map (get data₁) := by rw [← length₁, map_get_range]
    _ = ((List.range data.length).map σ).map (get data) := by
        rw [List.map_map]
        exact List.map_congr_left fun k _ => reads k
    _ ~ (List.range data.length).map (get data) := indices.map _
    _ = data := map_get_range data

/-- A fold whose every step, from a rearrangement of the start, rearranges the window
rearranges the window. -/
theorem foldl {β : Type} (proj : β → List α) {g : β → Nat → β} {xs : List Nat} {start : β}
    (step : ∀ s, PermOn a b (proj start) (proj s) → ∀ x ∈ xs,
      PermOn a b (proj s) (proj (g s x))) :
    PermOn a b (proj start) (proj (xs.foldl g start)) := by
  suffices ∀ s, PermOn a b (proj start) (proj s) →
      PermOn a b (proj start) (proj (xs.foldl g s)) from this start (refl a b _)
  induction xs with
  | nil =>
      exact fun _ reached => reached
  | cons x rest inductionHypothesis =>
      intro s reached
      exact inductionHypothesis
        (fun s' reached' y member => step s' reached' y (List.mem_cons_of_mem x member)) _
        (reached.trans (step s reached x (List.mem_cons_self x rest)))

end PermOn

/-! ## Index bounds of the scans -/

/-- `scanUp` moves `i` up, at most to `j + 1`. -/
theorem scanUp_bounds (cond : Nat → Bool) (j : Nat) :
    ∀ fuel i, i ≤ scanUp cond j fuel i ∧ scanUp cond j fuel i ≤ max i (j + 1)
  | 0, i => by simp [scanUp]
  | fuel + 1, i => by
      rw [scanUp]
      split
      · have := scanUp_bounds cond j fuel (i + 1)
        omega
      · omega

/-- `scanDown` moves `j` down, not below `i - 1` when it starts at or above it. -/
theorem scanDown_bounds (cond : Nat → Bool) (i : Nat) :
    ∀ j, min (i - 1) j ≤ scanDown cond i j ∧ scanDown cond i j ≤ j
  | 0 => by simp [scanDown]
  | j + 1 => by
      rw [scanDown]
      split
      · have := scanDown_bounds cond i j
        omega
      · omega

/-- `scanSorted` moves `i` up, at most to `b`. -/
theorem scanSorted_bounds (less : α → α → Bool) (data : List α) (b : Nat) :
    ∀ fuel i, i ≤ scanSorted less data b fuel i ∧ scanSorted less data b fuel i ≤ max i b
  | 0, i => by simp [scanSorted]
  | fuel + 1, i => by
      rw [scanSorted]
      split
      · have := scanSorted_bounds less data b fuel (i + 1)
        omega
      · omega

/-- `order2` returns its two indices, so a property of both holds of its results. -/
theorem order2_mem_of {P : Nat → Prop} (less : α → α → Bool) (data : List α) {a b : Nat}
    (swaps : Nat) (ha : P a) (hb : P b) :
    P (order2 less data a b swaps).1 ∧ P (order2 less data a b swaps).2.1 := by
  unfold order2
  split <;> simp [ha, hb]

/-- `median` returns one of its three indices. -/
theorem median_mem_of {P : Nat → Prop} (less : α → α → Bool) (data : List α) {a b c : Nat}
    (swaps : Nat) (ha : P a) (hb : P b) (hc : P c) : P (median less data a b c swaps).1 := by
  have first := order2_mem_of less data swaps ha hb
  have second := order2_mem_of less data (order2 less data a b swaps).2.2 first.2 hc
  exact (order2_mem_of less data _ first.1 second.1).2

/-- The pivot of a window of at least eight elements lies in the window. -/
theorem choosePivot_mem (less : α → α → Bool) (data : List α) {a b : Nat}
    (long : 8 ≤ b - a) :
    a ≤ (choosePivot less data a b).1 ∧ (choosePivot less data a b).1 < b := by
  have adjacent : ∀ x swaps, a + 1 ≤ x → x + 1 < b →
      a ≤ (medianAdjacent less data x swaps).1 ∧ (medianAdjacent less data x swaps).1 < b :=
    fun x swaps lower upper => median_mem_of (P := fun y => a ≤ y ∧ y < b) less data swaps
      ⟨by omega, by omega⟩ ⟨by omega, by omega⟩ ⟨by omega, by omega⟩
  unfold choosePivot
  dsimp only
  rw [if_pos long]
  by_cases ninther : shortestNinther ≤ b - a
  · rw [if_pos ninther]
    exact median_mem_of (P := fun y => a ≤ y ∧ y < b) less data _
      (adjacent _ _ (by omega) (by omega)) (adjacent _ _ (by omega) (by omega))
      (adjacent _ _ (by omega) (by omega))
  · rw [if_neg ninther]
    dsimp only
    exact median_mem_of (P := fun y => a ≤ y ∧ y < b) less data _
      ⟨by omega, by omega⟩ ⟨by omega, by omega⟩ ⟨by omega, by omega⟩

/-! ## Insertion sort and heapsort -/

/-- The shifts of `insertionSort`'s inner loop stay in `[a, j]`. -/
theorem permOn_insertionShift (less : α → α → Bool) (a : Nat) :
    ∀ j (data : List α), j < data.length →
      PermOn a (j + 1) data (insertionShift less a j data)
  | 0, data, _ => PermOn.refl a 1 data
  | j + 1, data, inside => by
      rw [insertionShift]
      split
      · next moves =>
          exact (PermOn.swap data ⟨by omega, by omega⟩ ⟨by omega, by omega⟩ (by omega)).trans
            ((permOn_insertionShift less a j _ (by simp; omega)).mono le_rfl (by omega))
      · exact PermOn.refl a _ data

/-- `insertionSort` rearranges `data[a:b]`. -/
theorem permOn_insertionSort (less : α → α → Bool) {data : List α} {a b : Nat}
    (inside : b ≤ data.length) : PermOn a b data (insertionSort less data a b) := by
  refine PermOn.foldl id fun s reached i member => ?_
  rw [List.mem_range'_1] at member
  have length : s.length = data.length := reached.1
  exact (permOn_insertionShift less a i s (by omega)).mono le_rfl (by omega)

/-- The swaps of `siftDown` stay in the heap `data[first:first+hi]`. -/
theorem permOn_siftDownLoop (less : α → α → Bool) (hi first : Nat) :
    ∀ fuel (data : List α) root, first + hi ≤ data.length →
      PermOn first (first + hi) data (siftDownLoop less hi first fuel data root)
  | 0, data, _, _ => PermOn.refl _ _ data
  | fuel + 1, data, root, inside => by
      rw [siftDownLoop]
      split
      · exact PermOn.refl _ _ data
      · next below =>
          have step : ∀ child, root < child → child < hi → PermOn first (first + hi) data
              (if ¬ less (get data (first + root)) (get data (first + child)) then data
                else siftDownLoop less hi first fuel (swap data (first + root) (first + child))
                  child) := by
            intro child deeper bounded
            split
            · exact PermOn.refl _ _ data
            · exact (PermOn.swap data ⟨by omega, by omega⟩ ⟨by omega, by omega⟩ inside).trans
                (permOn_siftDownLoop less hi first fuel _ _ (by simpa using inside))
          simp only
          split
          · next right => exact step _ (by omega) right.1
          · exact step _ (by omega) (by omega)

/-- `heapSort` rearranges `data[a:b]`. -/
theorem permOn_heapSort (less : α → α → Bool) {data : List α} {a b : Nat}
    (ordered : a ≤ b) (inside : b ≤ data.length) : PermOn a b data (heapSort less data a b) := by
  unfold heapSort
  have heap : PermOn a b data ((List.range ((b - a - 1) / 2 + 1)).reverse.foldl
      (fun data i => siftDown less data i (b - a) a) data) :=
    PermOn.foldl id fun s reached i _ => by
      have length : s.length = data.length := reached.1
      exact (permOn_siftDownLoop less (b - a) a _ s i (by omega)).mono le_rfl (by omega)
  refine heap.trans (PermOn.foldl id fun s reached i member => ?_)
  rw [List.mem_reverse, List.mem_range] at member
  have length : s.length = data.length := reached.1.trans heap.1
  exact (PermOn.swap s ⟨le_rfl, by omega⟩ ⟨by omega, by omega⟩ (by omega)).trans
    ((permOn_siftDownLoop less i a _ _ 0 (by simp; omega)).mono le_rfl (by omega))

/-! ## Pattern breaking, reversal and the partitions -/

/-- The number of bits of `n` is the exponent of the power of two in `(n, 2n]`. -/
theorem two_pow_bitsLenAux_le : ∀ fuel n, n ≤ fuel → 0 < n → 2 ^ bitsLenAux fuel n ≤ 2 * n
  | 0, _, enough, positive => by omega
  | fuel + 1, n, enough, positive => by
      rw [bitsLenAux, if_neg (by omega), Nat.pow_succ]
      by_cases one : n / 2 = 0
      · rw [one]
        cases fuel <;> simp [bitsLenAux] <;> omega
      · have := two_pow_bitsLenAux_le fuel (n / 2) (by omega) (by omega)
        omega

/-- `breakPatterns` swaps inside `data[a:b]`. -/
theorem permOn_breakPatterns {data : List α} {a b : Nat} (inside : b ≤ data.length) :
    PermOn a b data (breakPatterns data a b) := by
  unfold breakPatterns
  dsimp only
  split
  · next long =>
      have power : nextPowerOfTwo (b - a) ≤ 2 * (b - a) := by
        rw [nextPowerOfTwo, Nat.shiftLeft_eq, Nat.one_mul]
        exact two_pow_bitsLenAux_le _ _ le_rfl (by omega)
      refine PermOn.foldl Prod.fst fun s reached i member => ?_
      rw [List.mem_range] at member
      have masked : ∀ r : Nat, r &&& (nextPowerOfTwo (b - a) - 1) < nextPowerOfTwo (b - a) := by
        intro r
        rw [nextPowerOfTwo, Nat.shiftLeft_eq, Nat.one_mul]
        exact Nat.and_lt_two_pow r (Nat.sub_lt (Nat.two_pow_pos _) Nat.one_pos)
      have length : s.1.length = data.length := reached.1
      refine PermOn.swap s.1 ⟨by omega, by omega⟩ ⟨by omega, ?_⟩ (by omega)
      have := masked (xorshiftNext s.2).toNat
      split <;> omega
  · exact PermOn.refl a b data

/-- The swaps of `reverseRange` stay between `i` and `j`. -/
theorem permOn_reverseRangeLoop {a b : Nat} :
    ∀ fuel (data : List α) i j, a ≤ i → j < b → b ≤ data.length →
      PermOn a b data (reverseRangeLoop fuel data i j)
  | 0, data, _, _, _, _, _ => PermOn.refl a b data
  | fuel + 1, data, i, j, lower, upper, inside => by
      rw [reverseRangeLoop]
      split
      · exact (PermOn.swap data ⟨lower, by omega⟩ ⟨by omega, upper⟩ inside).trans
          (permOn_reverseRangeLoop fuel _ _ _ (by omega) (by omega) (by simpa using inside))
      · exact PermOn.refl a b data

/-- `reverseRange` rearranges `data[a:b]`. -/
theorem permOn_reverseRange {data : List α} {a b : Nat} (nonempty : a < b)
    (inside : b ≤ data.length) : PermOn a b data (reverseRange data a b) :=
  permOn_reverseRangeLoop _ data a (b - 1) le_rfl (by omega) inside

/-- The swaps of `partition`'s loop stay in `data[a+1:b]`, and the returned `j` in `[a, b)`. -/
theorem permOn_partitionLoop (less : α → α → Bool) {a b : Nat} :
    ∀ fuel (data : List α) i j, a + 1 ≤ i → a ≤ j → j < b → b ≤ data.length →
      PermOn (a + 1) b data (partitionLoop less a fuel data i j).1 ∧
        a ≤ (partitionLoop less a fuel data i j).2 ∧ (partitionLoop less a fuel data i j).2 < b
  | 0, data, _, _, _, lower, upper, _ => ⟨PermOn.refl _ _ data, lower, upper⟩
  | fuel + 1, data, i, j, start, lower, upper, inside => by
      rw [partitionLoop]
      have up := scanUp_bounds (fun i => less (get data i) (get data a)) j (j + 1 - i) i
      generalize scanUp (fun i => less (get data i) (get data a)) j (j + 1 - i) i = i' at up ⊢
      have down := scanDown_bounds (fun j => !less (get data j) (get data a)) i' j
      generalize scanDown (fun j => !less (get data j) (get data a)) i' j = j' at down ⊢
      split
      · exact ⟨PermOn.refl _ _ data, by omega, by omega⟩
      · have rest := permOn_partitionLoop (a := a) (b := b) less fuel (swap data i' j') (i' + 1)
          (j' - 1)
          (by omega) (by omega) (by omega) (by simpa using inside)
        have swapped : PermOn (a + 1) b data (swap data i' j') :=
          PermOn.swap data ⟨by omega, by omega⟩ ⟨by omega, by omega⟩ inside
        exact ⟨swapped.trans rest.1, rest.2⟩

/-- `partition` rearranges `data[a:b]` and returns a position in it. -/
theorem permOn_partition (less : α → α → Bool) {data : List α} {a b pivot : Nat}
    (nonempty : a < b) (pivotInside : a ≤ pivot ∧ pivot < b) (inside : b ≤ data.length) :
    PermOn a b data (partition less data a b pivot).1 ∧
      a ≤ (partition less data a b pivot).2.1 ∧ (partition less data a b pivot).2.1 < b := by
  unfold partition
  have moved : PermOn a b data (swap data a pivot) :=
    PermOn.swap data ⟨le_rfl, nonempty⟩ pivotInside inside
  generalize swap data a pivot = data₁ at moved ⊢
  have length₁ := moved.inside inside
  dsimp only
  have up := scanUp_bounds (fun i => less (get data₁ i) (get data₁ a)) (b - 1)
    (b - 1 + 1 - (a + 1)) (a + 1)
  generalize scanUp (fun i => less (get data₁ i) (get data₁ a)) (b - 1)
    (b - 1 + 1 - (a + 1)) (a + 1) = i' at up ⊢
  have down := scanDown_bounds (fun j => !less (get data₁ j) (get data₁ a)) i' (b - 1)
  generalize scanDown (fun j => !less (get data₁ j) (get data₁ a)) i' (b - 1) = j' at down ⊢
  by_cases crossed : j' < i'
  · rw [if_pos crossed]
    have last : PermOn a b data₁ (swap data₁ j' a) :=
      PermOn.swap data₁ ⟨by omega, by omega⟩ ⟨le_rfl, nonempty⟩ length₁
    exact ⟨moved.trans last, show a ≤ j' by omega, show j' < b by omega⟩
  · rw [if_neg crossed]
    have swapped : PermOn a b data₁ (swap data₁ i' j') :=
      PermOn.swap data₁ ⟨by omega, by omega⟩ ⟨by omega, by omega⟩ length₁
    obtain ⟨rest, lower, upper⟩ := permOn_partitionLoop (a := a) (b := b) less (b - a)
      (swap data₁ i' j') (i' + 1) (j' - 1) (by omega) (by omega) (by omega)
      (swapped.inside length₁)
    generalize partitionLoop less a (b - a) (swap data₁ i' j') (i' + 1) (j' - 1) = r
      at rest lower upper ⊢
    obtain ⟨data₂, mid⟩ := r
    have last : PermOn a b data₂ (swap data₂ mid a) :=
      PermOn.swap data₂ ⟨lower, upper⟩ ⟨le_rfl, nonempty⟩ (rest.inside (swapped.inside length₁))
    exact ⟨moved.trans (swapped.trans ((rest.mono (Nat.le_succ a) le_rfl).trans last)), lower,
      upper⟩

/-- The swaps of `partitionEqual`'s loop stay in `data[a+1:b]`, and the returned `i` is past
`a`. -/
theorem permOn_partitionEqualLoop (less : α → α → Bool) {a b : Nat} :
    ∀ fuel (data : List α) i j, a + 1 ≤ i → a ≤ j → j < b → b ≤ data.length →
      PermOn (a + 1) b data (partitionEqualLoop less a fuel data i j).1 ∧
        a + 1 ≤ (partitionEqualLoop less a fuel data i j).2
  | 0, data, _, _, start, _, _, _ => ⟨PermOn.refl _ _ data, start⟩
  | fuel + 1, data, i, j, start, lower, upper, inside => by
      rw [partitionEqualLoop]
      have up := scanUp_bounds (fun i => !less (get data a) (get data i)) j (j + 1 - i) i
      generalize scanUp (fun i => !less (get data a) (get data i)) j (j + 1 - i) i = i' at up ⊢
      have down := scanDown_bounds (fun j => less (get data a) (get data j)) i' j
      generalize scanDown (fun j => less (get data a) (get data j)) i' j = j' at down ⊢
      split
      · exact ⟨PermOn.refl _ _ data, by omega⟩
      · have rest := permOn_partitionEqualLoop (a := a) (b := b) less fuel (swap data i' j')
          (i' + 1) (j' - 1) (by omega) (by omega) (by omega) (by simpa using inside)
        have swapped : PermOn (a + 1) b data (swap data i' j') :=
          PermOn.swap data ⟨by omega, by omega⟩ ⟨by omega, by omega⟩ inside
        exact ⟨swapped.trans rest.1, rest.2⟩

/-- `partitionEqual` rearranges `data[a:b]` and returns a position past `a`. -/
theorem permOn_partitionEqual (less : α → α → Bool) {data : List α} {a b pivot : Nat}
    (nonempty : a < b) (pivotInside : a ≤ pivot ∧ pivot < b) (inside : b ≤ data.length) :
    PermOn a b data (partitionEqual less data a b pivot).1 ∧
      a + 1 ≤ (partitionEqual less data a b pivot).2 := by
  have moved : PermOn a b data (swap data a pivot) :=
    PermOn.swap data ⟨le_rfl, nonempty⟩ pivotInside inside
  have rest := permOn_partitionEqualLoop (a := a) (b := b) less (b - a) (swap data a pivot)
    (a + 1) (b - 1) le_rfl (by omega) (by omega) (moved.inside inside)
  exact ⟨moved.trans (rest.1.mono (Nat.le_succ a) le_rfl), rest.2⟩

/-! ## The nearly sorted case and the quicksort -/

/-- The swaps of `partialInsertionSort`'s right shift stay in `[lo, b)`. -/
theorem permOn_shiftRight (less : α → α → Bool) {lo b : Nat} :
    ∀ fuel (data : List α) j, lo < j → b ≤ data.length →
      PermOn lo b data (shiftRight less b fuel data j)
  | 0, data, _, _, _ => PermOn.refl lo b data
  | fuel + 1, data, j, lower, inside => by
      rw [shiftRight]
      split
      · next moves =>
          exact (PermOn.swap data ⟨by omega, by omega⟩ ⟨by omega, by omega⟩ inside).trans
            (permOn_shiftRight less fuel _ _ (by omega) (by simpa using inside))
      · exact PermOn.refl lo b data

/-- `partialInsertionSort`'s rounds rearrange `data[0:b]`: the left shift of Go's loop runs
down to index 1, not to `a + 1`. -/
theorem permOn_partialInsertionSortLoop (less : α → α → Bool) (a b : Nat) :
    ∀ steps (data : List α) i, 1 ≤ i → i ≤ b → b ≤ data.length →
      PermOn 0 b data (partialInsertionSortLoop less a b steps data i).1
  | 0, data, _, _, _, _ => PermOn.refl 0 b data
  | steps + 1, data, i, start, upper, inside => by
      rw [partialInsertionSortLoop]
      have scanned := scanSorted_bounds less data b (b - i) i
      generalize scanSorted less data b (b - i) i = i' at scanned ⊢
      dsimp only
      by_cases done : i' = b
      · rw [if_pos done]
        exact PermOn.refl 0 b data
      rw [if_neg done]
      by_cases few : b - a < shortestShifting
      · rw [if_pos few]
        exact PermOn.refl 0 b data
      rw [if_neg few]
      have first : PermOn 0 b data (swap data i' (i' - 1)) :=
        PermOn.swap data ⟨by omega, by omega⟩ ⟨by omega, by omega⟩ inside
      generalize swap data i' (i' - 1) = data₁ at first ⊢
      have length₁ := first.inside inside
      generalize shiftedIs : (if 2 ≤ i' - a then
        insertionShift less 0 (i' - 1) data₁ else data₁) = data₂
      have second : PermOn 0 b data₁ data₂ := by
        subst shiftedIs
        split
        · exact (permOn_insertionShift less 0 (i' - 1) data₁ (by omega)).mono le_rfl (by omega)
        · exact PermOn.refl 0 b data₁
      generalize shiftedRightIs : (if 2 ≤ b - i' then
        shiftRight less b (b - (i' + 1)) data₂ (i' + 1) else data₂) = data₃
      have third : PermOn 0 b data₂ data₃ := by
        subst shiftedRightIs
        split
        · exact (permOn_shiftRight less _ data₂ (i' + 1) (by omega)
            (second.inside length₁)).mono (Nat.zero_le i') le_rfl
        · exact PermOn.refl 0 b data₂
      exact first.trans (second.trans (third.trans (permOn_partialInsertionSortLoop less a b
        steps data₃ i' (by omega) (by omega) (third.inside (second.inside length₁)))))

/-- `partialInsertionSort` rearranges `data[0:b]`. -/
theorem permOn_partialInsertionSort (less : α → α → Bool) {data : List α} {a b : Nat}
    (nonempty : a < b) (inside : b ≤ data.length) :
    PermOn 0 b data (partialInsertionSort less data a b).1 :=
  permOn_partialInsertionSortLoop less a b maxSteps data (a + 1) (by omega) (by omega) inside

/-- The preparation of a round rearranges `data[0:b]` and picks a pivot in `data[a:b]`. -/
theorem permOn_pdqsortPrepare (less : α → α → Bool) {data : List α} {a b : Nat} (limit : Nat)
    (wasBalanced wasPartitioned : Bool) (long : maxInsertion < b - a)
    (inside : b ≤ data.length) :
    PermOn 0 b data (pdqsortPrepare less data a b limit wasBalanced wasPartitioned).1 ∧
      a ≤ (pdqsortPrepare less data a b limit wasBalanced wasPartitioned).2.2.1 ∧
      (pdqsortPrepare less data a b limit wasBalanced wasPartitioned).2.2.1 < b := by
  unfold pdqsortPrepare maxInsertion at *
  generalize brokenIs : (if wasBalanced then data else breakPatterns data a b) = data₁
  have broken : PermOn a b data data₁ := by
    subst brokenIs
    split
    · exact PermOn.refl a b data
    · exact permOn_breakPatterns inside
  dsimp only
  have pivotInside := choosePivot_mem less data₁ (a := a) (b := b) (by omega)
  generalize choosePivot less data₁ a b = chosen at pivotInside ⊢
  obtain ⟨pivot, hint⟩ := chosen
  dsimp only at pivotInside ⊢
  generalize reversedIs : (if hint = .decreasingHint then
      (reverseRange data₁ a b, b - 1 - (pivot - a), SortedHint.increasingHint)
    else (data₁, pivot, hint)) = step
  have reversed : PermOn a b data₁ step.1 ∧ a ≤ step.2.1 ∧ step.2.1 < b := by
    subst reversedIs
    split
    · exact ⟨permOn_reverseRange (by omega) (broken.inside inside),
        show a ≤ b - 1 - (pivot - a) by omega, show b - 1 - (pivot - a) < b by omega⟩
    · exact ⟨PermOn.refl a b data₁, pivotInside⟩
  obtain ⟨data₂, pivot₂, hint₂⟩ := step
  obtain ⟨reversed, pivotInside₂⟩ := reversed
  dsimp only
  generalize nearlyIs : (if wasBalanced ∧ wasPartitioned ∧ hint₂ = .increasingHint then
      partialInsertionSort less data₂ a b else (data₂, false)) = result
  have nearly : PermOn 0 b data₂ result.1 := by
    subst nearlyIs
    split
    · exact permOn_partialInsertionSort less (by omega) (reversed.inside (broken.inside inside))
    · exact PermOn.refl 0 b data₂
  exact ⟨((broken.trans reversed).mono (Nat.zero_le a) le_rfl).trans nearly, pivotInside₂⟩

/-- `pdqsort` rearranges `data[0:b]`; with an arbitrary `less` its nearly-sorted pass may reach
below `a`. -/
theorem permOn_pdqsort (less : α → α → Bool) :
    ∀ fuel (data : List α) a b limit wasBalanced wasPartitioned, b ≤ data.length →
      PermOn 0 b data (pdqsort less fuel data a b limit wasBalanced wasPartitioned)
  | 0, data, _, b, _, _, _, _ => PermOn.refl 0 b data
  | fuel + 1, data, a, b, limit, wasBalanced, wasPartitioned, inside => by
      rw [pdqsort]
      dsimp only
      by_cases tiny : b - a ≤ maxInsertion
      · rw [if_pos tiny]
        exact (permOn_insertionSort less inside).mono (Nat.zero_le a) le_rfl
      rw [if_neg tiny]
      by_cases exhausted : limit = 0
      · rw [if_pos exhausted]
        exact (permOn_heapSort less (by omega) inside).mono (Nat.zero_le a) le_rfl
      rw [if_neg exhausted]
      have prepared := permOn_pdqsortPrepare less limit wasBalanced wasPartitioned
        (not_le.mp tiny) inside
      generalize pdqsortPrepare less data a b limit wasBalanced wasPartitioned = step
        at prepared ⊢
      obtain ⟨data₁, limit₁, pivot, sorted⟩ := step
      dsimp only at prepared
      obtain ⟨before, pivotInside⟩ := prepared
      have length₁ := before.inside inside
      dsimp only
      by_cases done : sorted = true
      · rw [if_pos done]
        exact before
      rw [if_neg done]
      by_cases equalCase : 0 < a ∧ ¬ less (get data₁ (a - 1)) (get data₁ pivot) = true
      · rw [if_pos equalCase]
        have equal := permOn_partitionEqual less (by omega) pivotInside length₁
        generalize partitionEqual less data₁ a b pivot = step at equal ⊢
        obtain ⟨data₂, mid⟩ := step
        exact before.trans ((equal.1.mono (Nat.zero_le a) le_rfl).trans
          (permOn_pdqsort less fuel data₂ mid b _ _ _ (equal.1.inside length₁)))
      · rw [if_neg equalCase]
        have parted := permOn_partition less (by omega) pivotInside length₁
        generalize partition less data₁ a b pivot = step at parted ⊢
        obtain ⟨data₂, mid, alreadyPartitioned⟩ := step
        dsimp only at parted
        obtain ⟨parted, midLower, midUpper⟩ := parted
        have length₂ := parted.inside length₁
        have first := before.trans (parted.mono (Nat.zero_le a) le_rfl)
        dsimp only
        split
        · have left := (permOn_pdqsort less fuel data₂ a mid limit₁ true true (by omega)).mono
            le_rfl (by omega : mid ≤ b)
          exact first.trans (left.trans (permOn_pdqsort less fuel _ (mid + 1) b _ _ _
            (left.inside length₂)))
        · have right := permOn_pdqsort less fuel data₂ (mid + 1) b limit₁ true true length₂
          exact first.trans (right.trans ((permOn_pdqsort less fuel _ a mid _ _ _
            (by have := right.inside length₂; omega)).mono le_rfl (by omega : mid ≤ b)))

/-- `sort.Sort` on a slice of `Len()` `n` rearranges its first `n` elements. -/
theorem permOn_sort (less : α → α → Bool) {n : Nat} {data : List α} (inside : n ≤ data.length) :
    PermOn 0 n data (sort less n data) := by
  unfold sort
  split
  · exact PermOn.refl 0 n data
  · exact permOn_pdqsort less _ data 0 n _ _ _ inside

/-- `sort.Sort` on a whole slice returns a permutation of it. -/
theorem sort_perm (less : α → α → Bool) (data : List α) : sort less data.length data ~ data :=
  (permOn_sort less le_rfl).perm

end Dag.GoSort
