import Mathlib.Algebra.Order.BigOperators.Group.Finset
import Mathlib.Data.Finset.Range

/-!
# Weighted slots and two-thirds quorums

Vote collectors keep one optional entry per voter, indexed `0 … n-1`, and a
running total of the weight of the voters that have an entry.  `occupied n f`
is the set of voters with an entry in `f`; the lemmas below say how it moves
when an entry is written, so that a running total can be tied to the sum of
the weights over it.

The two-thirds quorum of a total weight `T` is `T * 2 / 3 + 1` in natural
numbers: the least weight strictly above two thirds of `T`.  Two quorums drawn
from voters of total weight at most `T` share more than a third of `T`
(`third_lt_inter`), which is what makes a quorum certificate unique while at
most a third of the weight equivocates.
-/

namespace Slots

open Finset

variable {α : Type*}

/-- The indices below `n` that hold an entry. -/
def occupied (n : ℕ) (f : ℕ → Option α) : Finset ℕ :=
  (range n).filter fun i ↦ (f i).isSome

@[simp] theorem mem_occupied {n i : ℕ} {f : ℕ → Option α} :
    i ∈ occupied n f ↔ i < n ∧ (f i).isSome := by
  simp [occupied]

theorem occupied_subset_range (n : ℕ) (f : ℕ → Option α) : occupied n f ⊆ range n :=
  filter_subset _ _

@[simp] theorem occupied_none (n : ℕ) : occupied n (fun _ ↦ (none : Option α)) = ∅ := by
  ext i; simp

/-- Writing an entry below `n` adds its index. -/
theorem occupied_update_some {n j : ℕ} (hj : j < n) (f : ℕ → Option α) (a : α) :
    occupied n (Function.update f j (some a)) = insert j (occupied n f) := by
  ext i
  by_cases hij : i = j
  · subst hij; simp [hj]
  · simp [hij]

/-- Overwriting an entry leaves the occupied indices as they were. -/
theorem occupied_update_of_isSome {n j : ℕ} {f : ℕ → Option α} (hf : (f j).isSome) (a : α) :
    occupied n (Function.update f j (some a)) = occupied n f := by
  ext i
  by_cases hij : i = j
  · subst hij; simp [hf]
  · simp [Function.update_of_ne hij]

/-- The weight of the occupied indices grows by the weight of a newly written one. -/
theorem sum_occupied_update_of_none (w : ℕ → ℕ) {n j : ℕ} (hj : j < n) {f : ℕ → Option α}
    (hf : f j = none) (a : α) :
    ∑ i ∈ occupied n (Function.update f j (some a)), w i = ∑ i ∈ occupied n f, w i + w j := by
  have hnot : j ∉ occupied n f := by simp [hf]
  rw [occupied_update_some hj, sum_insert hnot, add_comm]

/-- The weight of what the occupied indices hold grows by the weight of a newly
written entry. -/
theorem sum_entries_update_of_none (w : α → ℕ) {n j : ℕ} (hj : j < n) {f : ℕ → Option α}
    (hf : f j = none) (a : α) :
    ∑ i ∈ occupied n (Function.update f j (some a)),
        ((Function.update f j (some a) i).map w).getD 0 =
      ∑ i ∈ occupied n f, ((f i).map w).getD 0 + w a := by
  have hnot : j ∉ occupied n f := by simp [hf]
  rw [occupied_update_some hj, sum_insert hnot, add_comm]
  congr 1
  · refine sum_congr rfl fun i hi ↦ ?_
    have hij : i ≠ j := fun h ↦ hnot (h ▸ hi)
    rw [Function.update_of_ne hij]
  · simp

/-- The weight of what the occupied indices hold grows with the entries. -/
theorem sum_entries_mono (w : α → ℕ) (n : ℕ) {f g : ℕ → Option α}
    (h : ∀ i a, f i = some a → g i = some a) :
    ∑ i ∈ occupied n f, ((f i).map w).getD 0 ≤ ∑ i ∈ occupied n g, ((g i).map w).getD 0 := by
  have hsub : occupied n f ⊆ occupied n g := by
    intro i hi
    obtain ⟨hin, hsome⟩ := mem_occupied.mp hi
    obtain ⟨a, ha⟩ := Option.isSome_iff_exists.mp hsome
    exact mem_occupied.mpr ⟨hin, by simp [h i a ha]⟩
  calc ∑ i ∈ occupied n f, ((f i).map w).getD 0
      = ∑ i ∈ occupied n f, ((g i).map w).getD 0 := sum_congr rfl fun i hi ↦ by
        obtain ⟨a, ha⟩ := Option.isSome_iff_exists.mp (mem_occupied.mp hi).2
        rw [ha, h i a ha]
    _ ≤ ∑ i ∈ occupied n g, ((g i).map w).getD 0 := sum_le_sum_of_subset hsub

/-- Once `n` indices below `n` are occupied, all of them are. -/
theorem isSome_of_card_occupied {n : ℕ} {f : ℕ → Option α} (h : (occupied n f).card = n)
    {i : ℕ} (hi : i < n) : (f i).isSome := by
  have hall : occupied n f = range n :=
    eq_of_subset_of_card_le (occupied_subset_range n f) (by rw [card_range, h])
  have hmem : i ∈ occupied n f := hall ▸ mem_range.mpr hi
  exact (mem_occupied.mp hmem).2

end Slots

namespace Quorum

open Finset

/-- The two-thirds quorum of a total weight: the least weight above two thirds. -/
def twoThirds (total : ℕ) : ℕ := total * 2 / 3 + 1

/-- Reaching the quorum is exceeding two thirds, without division. -/
theorem twoThirds_le_iff (total s : ℕ) : twoThirds total ≤ s ↔ total * 2 < s * 3 := by
  unfold twoThirds
  omega

/-- Exceeding the rounded-down two thirds is reaching the quorum. -/
theorem twoThirds_le_iff_div_lt (total s : ℕ) : twoThirds total ≤ s ↔ total * 2 / 3 < s := by
  unfold twoThirds
  omega

variable {ι : Type*} [DecidableEq ι]

/-- Quorum intersection: two sets of voters that each reach the quorum of `total`,
and that together weigh at most `total`, share more than a third of it. -/
theorem third_lt_inter (w : ι → ℕ) {A B : Finset ι} {total : ℕ}
    (hA : twoThirds total ≤ ∑ i ∈ A, w i) (hB : twoThirds total ≤ ∑ i ∈ B, w i)
    (hAB : ∑ i ∈ A ∪ B, w i ≤ total) : total / 3 < ∑ i ∈ A ∩ B, w i := by
  have hie : ∑ i ∈ A ∪ B, w i + ∑ i ∈ A ∩ B, w i = ∑ i ∈ A, w i + ∑ i ∈ B, w i :=
    sum_union_inter
  unfold twoThirds at hA hB
  omega

/-- Quorum intersection for voters drawn from a universe of weight `total`. -/
theorem third_lt_inter_of_subset (w : ι → ℕ) {A B U : Finset ι}
    (hA : twoThirds (∑ i ∈ U, w i) ≤ ∑ i ∈ A, w i) (hB : twoThirds (∑ i ∈ U, w i) ≤ ∑ i ∈ B, w i)
    (hAU : A ⊆ U) (hBU : B ⊆ U) : (∑ i ∈ U, w i) / 3 < ∑ i ∈ A ∩ B, w i :=
  third_lt_inter w hA hB (sum_le_sum_of_subset (union_subset hAU hBU))

end Quorum
