import Mathlib.Data.List.Basic
import Mathlib.Data.Int.Init

/-!
# Go slices

A Go slice as a list, with the runtime's behaviour at its edges: `xs[i]` and
`xs[i] = a` panic outside the slice with the runtime's message, `make` panics
on a negative length, and `copy(dst, src)` copies as many elements as the
shorter slice holds.  Indices are Go `int`s, so `Int`.
-/

namespace Slice

variable {α : Type}

/-- The runtime's panic for an index `i` outside a slice of length `n`; the length is left
out for a negative index. -/
def indexOutOfRange (i : ℤ) (n : ℕ) : String :=
  if i < 0 then s!"runtime error: index out of range [{i}]"
  else s!"runtime error: index out of range [{i}] with length {n}"

/-- The runtime's panic for a read through a nil pointer. -/
def nilDereference : String := "runtime error: invalid memory address or nil pointer dereference"

/-- `xs[i]`. -/
def get (xs : List α) (i : ℤ) : Except String α :=
  if h : 0 ≤ i ∧ i.toNat < xs.length then .ok (xs.get ⟨i.toNat, h.2⟩)
  else .error (indexOutOfRange i xs.length)

/-- `xs[i] = a`. -/
def set (xs : List α) (i : ℤ) (a : α) : Except String (List α) :=
  if 0 ≤ i ∧ i.toNat < xs.length then .ok (xs.set i.toNat a)
  else .error (indexOutOfRange i xs.length)

/-- `make([]T, n)`, with `z` the zero value of `T`. -/
def make (z : α) (n : ℤ) : Except String (List α) :=
  if n < 0 then .error "runtime error: makeslice: len out of range"
  else .ok (List.replicate n.toNat z)

/-- `xs[:n]` of a slice whose capacity is its length: past the capacity it panics. -/
def sliceTo (xs : List α) (n : ℤ) : Except String (List α) :=
  let cap := xs.length
  if 0 ≤ n ∧ n ≤ cap then .ok (xs.take n.toNat)
  else .error s!"runtime error: slice bounds out of range [:{n}] with capacity {cap}"

/-- `copy(dst, src)`, as the new contents of `dst`. -/
def copy (dst src : List α) : List α := src.take dst.length ++ dst.drop src.length

/-- An index inside the slice, as the `Int` the code computes it as. -/
def InRange (xs : List α) (i : ℤ) : Prop := 0 ≤ i ∧ i < xs.length

instance (xs : List α) (i : ℤ) : Decidable (InRange xs i) :=
  inferInstanceAs (Decidable (0 ≤ i ∧ i < xs.length))

theorem inRange_iff {xs : List α} {i : ℤ} : InRange xs i ↔ 0 ≤ i ∧ i.toNat < xs.length := by
  unfold InRange
  constructor
  · rintro ⟨h0, hlt⟩
    exact ⟨h0, by omega⟩
  · rintro ⟨h0, hlt⟩
    exact ⟨h0, by omega⟩

theorem get_eq_ok_iff {xs : List α} {i : ℤ} {a : α} :
    get xs i = .ok a ↔ 0 ≤ i ∧ xs[i.toNat]? = some a := by
  unfold get
  split
  · rename_i h
    simp [h.1, List.getElem?_eq_getElem h.2]
  · rename_i h
    simp only [reduceCtorEq, false_iff, not_and]
    intro h0 hget
    exact h ⟨h0, (List.getElem?_eq_some_iff.mp hget).1⟩

/-- An index inside the slice reads without a panic. -/
theorem get_ok_of_inRange {xs : List α} {i : ℤ} (h : InRange xs i) : ∃ a, get xs i = .ok a := by
  have h' := inRange_iff.mp h
  exact ⟨xs.get ⟨i.toNat, h'.2⟩, by simp [get, h']⟩

@[simp] theorem get_nil (i : ℤ) : get ([] : List α) i = .error (indexOutOfRange i 0) := by
  simp [get]

theorem set_eq_ok_iff {xs ys : List α} {i : ℤ} {a : α} :
    set xs i a = .ok ys ↔ InRange xs i ∧ ys = xs.set i.toNat a := by
  rw [inRange_iff]
  unfold set
  split
  · rename_i h
    simp [h, eq_comm]
  · rename_i h
    simp [h]

/-- An index inside the slice writes without a panic. -/
theorem set_ok_of_inRange {xs : List α} {i : ℤ} (h : InRange xs i) (a : α) :
    set xs i a = .ok (xs.set i.toNat a) :=
  set_eq_ok_iff.mpr ⟨h, rfl⟩

theorem make_of_nonneg (z : α) {n : ℤ} (h : 0 ≤ n) : make z n = .ok (List.replicate n.toNat z) := by
  simp [make, Int.not_lt.mpr h]

theorem sliceTo_of_le {xs : List α} {n : ℕ} (h : n ≤ xs.length) :
    sliceTo xs n = .ok (xs.take n) := by
  simp [sliceTo, h]

@[simp] theorem length_copy (dst src : List α) : (copy dst src).length = dst.length := by
  simp only [copy, List.length_append, List.length_take, List.length_drop]
  omega

end Slice
