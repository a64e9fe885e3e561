import Mathlib.Logic.Function.Basic
import Mathlib.Data.List.Basic

/-!
# Loops that write into a map

A loop that, for each element `x` of a list that passes `P`, writes `val x` at `key x`,
as a `List.foldl` of `Function.update`.  Read at one key after the loop: a key no element
writes keeps the value it had, and a key that some element writes, where every element
writing it writes the same value, ends with that value, whatever the order of the writes.
-/

namespace FoldUpdate

variable {α κ β : Type} [DecidableEq κ]

/-- `f`, with `val x` written at `key x` when `x` passes `P`. -/
def writeIf (P : α → Prop) [DecidablePred P] (key : α → κ) (val : α → β) (f : κ → β) (x : α) :
    κ → β :=
  if P x then Function.update f (key x) (val x) else f

variable {P : α → Prop} [DecidablePred P] {key : α → κ} {val : α → β}

/-- A key no element of the list writes keeps its value. -/
theorem foldl_writeIf_of_forall {l : List α} {k : κ} (h : ∀ x ∈ l, P x → key x ≠ k)
    (f : κ → β) : l.foldl (writeIf P key val) f k = f k := by
  induction l generalizing f with
  | nil => rfl
  | cons x l ih =>
    rw [List.foldl_cons, ih (fun y hy ↦ h y (List.mem_cons_of_mem _ hy))]
    unfold writeIf
    split
    · exact Function.update_of_ne (fun hk ↦ h x List.mem_cons_self ‹_› hk.symm) _ _
    · rfl

/-- A key some element writes, where all elements writing it write `v`, ends with `v`. -/
theorem foldl_writeIf_of_exists {l : List α} {k : κ} {v : β}
    (hex : ∃ x ∈ l, P x ∧ key x = k) (hv : ∀ x ∈ l, P x → key x = k → val x = v)
    (f : κ → β) : l.foldl (writeIf P key val) f k = v := by
  induction l generalizing f with
  | nil => simp at hex
  | cons x l ih =>
    rw [List.foldl_cons]
    by_cases hl : ∃ y ∈ l, P y ∧ key y = k
    · exact ih hl (fun y hy ↦ hv y (List.mem_cons_of_mem _ hy)) _
    obtain ⟨y, hy, hPy, hky⟩ := hex
    rcases List.mem_cons.mp hy with rfl | hy
    · rw [foldl_writeIf_of_forall (fun z hz hPz hkz ↦ hl ⟨z, hz, hPz, hkz⟩)]
      unfold writeIf
      rw [if_pos hPy, ← hky, Function.update_self]
      exact hv y List.mem_cons_self hPy hky
    · exact absurd ⟨y, hy, hPy, hky⟩ hl

end FoldUpdate
