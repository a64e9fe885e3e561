import Mathlib.Data.Finset.Card

/-!
# Picking elements of distinct keys

The loop

    for _, x := range xs {
      if chosen[key(x)] { continue }
      chosen[key(x)] = true
      selection = append(selection, x)
      if len(selection) >= num { return selection }
    }
    return selection

skips every element whose key it has seen and returns as soon as it holds `num` elements,
which it tests only after an append: a `num` below one still gives one element, if `xs` has
any.  The loop returns the first `max num 1` elements of `firsts key [] xs`, the elements of
`xs` at the first place of their key (`pick_eq`).  Hence its result is a sublist of `xs`
with distinct keys, and of length `min (max num 1) d` for the `d` keys of `xs`.
-/

namespace Distinct

variable {α κ : Type} [DecidableEq κ] (key : α → κ)

/-- The elements of `xs` at the first place of a key that is not in `seen`. -/
def firsts : List κ → List α → List α
  | _, [] => []
  | seen, x :: xs => if key x ∈ seen then firsts seen xs else x :: firsts (key x :: seen) xs

/-- The loop, with `chosen` the keys seen so far and `selection` what it has appended. -/
def pickLoop (num : ℤ) : List κ → List α → List α → List α
  | _, selection, [] => selection
  | chosen, selection, x :: xs =>
    if key x ∈ chosen then pickLoop num chosen selection xs
    else if num ≤ ((selection ++ [x]).length : ℤ) then selection ++ [x]
    else pickLoop num (key x :: chosen) (selection ++ [x]) xs

/-- The loop from nothing chosen. -/
def pick (num : ℤ) (xs : List α) : List α :=
  pickLoop key num [] [] xs

variable {key}

/-! ## The first places of the keys -/

theorem firsts_sublist : ∀ (seen : List κ) (xs : List α), (firsts key seen xs).Sublist xs
  | _, [] => List.Sublist.slnil
  | seen, x :: xs => by
    unfold firsts
    split
    · exact (firsts_sublist seen xs).cons x
    · exact (firsts_sublist _ xs).cons_cons x

theorem not_mem_of_mem_firsts :
    ∀ {seen : List κ} {xs : List α} {y : α}, y ∈ firsts key seen xs → key y ∉ seen
  | _, [], _, h => absurd h List.not_mem_nil
  | seen, x :: xs, y, h => by
    unfold firsts at h
    split at h
    · exact not_mem_of_mem_firsts h
    · rcases List.mem_cons.mp h with rfl | h
      · assumption
      · exact fun hy ↦ not_mem_of_mem_firsts h (List.mem_cons_of_mem _ hy)

theorem nodup_map_firsts : ∀ (seen : List κ) (xs : List α), ((firsts key seen xs).map key).Nodup
  | _, [] => List.nodup_nil
  | seen, x :: xs => by
    unfold firsts
    split
    · exact nodup_map_firsts seen xs
    · rw [List.map_cons, List.nodup_cons]
      refine ⟨fun hx ↦ ?_, nodup_map_firsts _ xs⟩
      obtain ⟨y, hy, hxy⟩ := List.mem_map.mp hx
      exact not_mem_of_mem_firsts hy (hxy ▸ List.mem_cons_self)

theorem card_insert_eq_card_erase_add_one (a : κ) (t : Finset κ) :
    (insert a t).card = (t.erase a).card + 1 := by
  rw [← Finset.card_erase_add_one (Finset.mem_insert_self a t), Finset.erase_insert_eq_erase]

/-- One element for each key of `xs` outside `seen`. -/
theorem length_firsts : ∀ (seen : List κ) (xs : List α),
    (firsts key seen xs).length = ((xs.map key).toFinset \ seen.toFinset).card
  | _, [] => by simp [firsts]
  | seen, x :: xs => by
    rw [List.map_cons, List.toFinset_cons]
    unfold firsts
    by_cases hx : key x ∈ seen
    · rw [if_pos hx, Finset.insert_sdiff_of_mem _ (List.mem_toFinset.mpr hx)]
      exact length_firsts seen xs
    · rw [if_neg hx, List.length_cons, length_firsts, List.toFinset_cons, Finset.sdiff_insert,
        Finset.insert_sdiff_of_notMem _ (mt List.mem_toFinset.mp hx),
        card_insert_eq_card_erase_add_one]

/-! ## The loop -/

/-- Before its return, the loop appends to its selection what `firsts` gives, up to
`max num 1` elements. -/
theorem pickLoop_eq (num : ℤ) : ∀ (chosen : List κ) (selection xs : List α),
    (selection.length : ℤ) < max num 1 →
      pickLoop key num chosen selection xs =
        selection ++ (firsts key chosen xs).take ((max num 1).toNat - selection.length)
  | _, selection, [], _ => by simp [pickLoop, firsts]
  | chosen, selection, x :: xs, h => by
    unfold pickLoop firsts
    by_cases hx : key x ∈ chosen
    · rw [if_pos hx, if_pos hx]
      exact pickLoop_eq num chosen selection xs h
    rw [if_neg hx, if_neg hx, List.take_cons (by omega)]
    by_cases hnum : num ≤ ((selection ++ [x]).length : ℤ)
    · have hzero : (max num 1).toNat - selection.length - 1 = 0 := by
        rw [List.length_append, List.length_singleton] at hnum
        omega
      rw [if_pos hnum, hzero, List.take_zero]
    · have hlt : ((selection ++ [x]).length : ℤ) < max num 1 := by omega
      rw [if_neg hnum, pickLoop_eq num _ _ xs hlt, List.append_assoc, List.singleton_append,
        List.length_append, List.length_singleton, Nat.sub_sub]

/-- The loop returns the first `max num 1` elements of distinct keys. -/
theorem pick_eq (num : ℤ) (xs : List α) :
    pick key num xs = (firsts key [] xs).take (max num 1).toNat := by
  rw [pick, pickLoop_eq num [] [] xs (by simp)]
  rfl

theorem pick_sublist (num : ℤ) (xs : List α) : (pick key num xs).Sublist xs := by
  rw [pick_eq]
  exact (List.take_sublist _ _).trans (firsts_sublist [] xs)

theorem nodup_map_pick (num : ℤ) (xs : List α) : ((pick key num xs).map key).Nodup := by
  rw [pick_eq, List.map_take]
  exact (nodup_map_firsts [] xs).sublist (List.take_sublist _ _)

/-- The loop returns `max num 1` elements, or one for each key of `xs` if there are fewer. -/
theorem length_pick (num : ℤ) (xs : List α) :
    (pick key num xs).length = min (max num 1).toNat (xs.map key).toFinset.card := by
  rw [pick_eq, List.length_take, length_firsts, List.toFinset_nil, Finset.sdiff_empty]

end Distinct
