import Tenderdash.Lib.Except
import Tenderdash.Lib.Slice

/-!
# A Fisher–Yates shuffle of a Go slice

The loop

    for i := 0; i < n; i++ {
      j := rand.Intn(len(xs)-i) + i
      xs[i], xs[j] = xs[j], xs[i]
    }

shuffles the first `n` places of `xs`.  The `i`-th value of `rand.Intn` is given as a draw
`draw i`, of which `Intn` returns the remainder below its bound, so that every value the
call can return is some draw.  For every choice of draws and every `n` up to the length of
the slice, the loop does not panic and ends with a permutation of the slice.
-/

namespace Slice

variable {α : Type}

/-- `rand.Intn(n)`, returning `d` reduced below `n`: a bound that is not positive panics. -/
def intn (n : ℤ) (d : ℕ) : Except String ℤ :=
  if n ≤ 0 then throw "invalid argument to Intn" else pure (d % n)

/-- `xs[i], xs[j] = xs[j], xs[i]`: both reads, then both writes, each with its bounds check. -/
def swap (xs : List α) (i j : ℤ) : Except String (List α) :=
  get xs j >>= fun a ↦ get xs i >>= fun b ↦ set xs i a >>= fun xs ↦ set xs j b

/-- The loop of the shuffle from place `i`, for `k` more places. -/
def shuffleLoop (draw : ℕ → ℕ) (i : ℕ) : ℕ → List α → Except String (List α)
  | 0, xs => pure xs
  | k + 1, xs =>
    intn (xs.length - i) (draw i) >>= fun j ↦
      swap xs i (j + i) >>= fun xs ↦ shuffleLoop draw (i + 1) k xs

/-- The shuffle of the first `n` places of `xs`. -/
def shuffle (draw : ℕ → ℕ) (n : ℕ) (xs : List α) : Except String (List α) :=
  shuffleLoop draw 0 n xs

theorem intn_of_pos {n : ℤ} (h : 0 < n) (d : ℕ) : intn n d = .ok (d % n) :=
  if_neg (Int.not_le.mpr h)

theorem perm_set_set (xs : List α) {i j : ℕ} (hi : i < xs.length) (hj : j < xs.length) :
    ((xs.set i xs[j]).set j xs[i]).Perm xs := by
  have h := (@Array.swap_perm _ xs.toArray i j hi hj).toList
  simpa [Array.swap] using h

/-- A swap of two places inside the slice does not panic and permutes it. -/
theorem swap_perm {xs : List α} {i j : ℤ} (hi : InRange xs i) (hj : InRange xs j) :
    ∃ ys, swap xs i j = .ok ys ∧ ys.Perm xs := by
  have hi' := inRange_iff.mp hi
  have hj' := inRange_iff.mp hj
  have hset : InRange (xs.set i.toNat (xs.get ⟨j.toNat, hj'.2⟩)) i :=
    inRange_iff.mpr ⟨hi'.1, by simpa using hi'.2⟩
  have hset' : InRange (xs.set i.toNat (xs.get ⟨j.toNat, hj'.2⟩)) j :=
    inRange_iff.mpr ⟨hj'.1, by simpa using hj'.2⟩
  refine ⟨_, ?_, perm_set_set xs hi'.2 hj'.2⟩
  unfold swap
  simp only [get, dif_pos hj', dif_pos hi', Except.ok_bind, set_ok_of_inRange hi,
    set_ok_of_inRange hset']
  rfl

/-- The loop from place `i` for `k` places that stay inside the slice does not panic and
permutes the slice. -/
theorem shuffleLoop_perm (draw : ℕ → ℕ) :
    ∀ (k i : ℕ) (xs : List α), i + k ≤ xs.length →
      ∃ ys, shuffleLoop draw i k xs = .ok ys ∧ ys.Perm xs
  | 0, _, xs, _ => ⟨xs, rfl, List.Perm.refl xs⟩
  | k + 1, i, xs, hk => by
    have hpos : (0 : ℤ) < xs.length - i := by omega
    have hj : InRange xs ((draw i : ℤ) % (xs.length - i) + i) := by
      have h0 := Int.emod_nonneg (draw i : ℤ) (Int.ne_of_gt hpos)
      have h1 := Int.emod_lt_of_pos (draw i : ℤ) hpos
      exact ⟨by omega, by omega⟩
    obtain ⟨ys, hs, hys⟩ := swap_perm (⟨by omega, by omega⟩ : InRange xs i) hj
    obtain ⟨zs, hl, hzs⟩ := shuffleLoop_perm draw k (i + 1) ys (by rw [hys.length_eq]; omega)
    refine ⟨zs, ?_, hzs.trans hys⟩
    rw [shuffleLoop, intn_of_pos hpos, Except.ok_bind, hs, Except.ok_bind]
    exact hl

/-- The shuffle of up to the length of the slice does not panic and permutes the slice. -/
theorem shuffle_perm (draw : ℕ → ℕ) {n : ℕ} {xs : List α} (hn : n ≤ xs.length) :
    ∃ ys, shuffle draw n xs = .ok ys ∧ ys.Perm xs :=
  shuffleLoop_perm draw n 0 xs (by omega)

/-! ## The shuffle of `math/rand`

`rand.Shuffle(n, swap)` runs the loop the other way, from place `n - 1` down to place 1,
swapping place `i` with a place drawn in `[0, i]`; with `swap` exchanging two places of a
slice of length `n` it permutes the slice too. -/

/-- The loop of `rand.Shuffle` from place `i` down to place 1, with `draw i` the value drawn
at place `i`. -/
def randShuffleLoop (draw : ℕ → ℕ) : ℕ → List α → Except String (List α)
  | 0, xs => pure xs
  | i + 1, xs =>
    intn ((i : ℤ) + 2) (draw (i + 1)) >>= fun j ↦
      swap xs ((i : ℤ) + 1) j >>= fun xs ↦ randShuffleLoop draw i xs

/-- `rand.Shuffle(n, swap)`, with `swap` exchanging places of `xs`; a negative `n` panics. -/
def randShuffle (draw : ℕ → ℕ) (n : ℤ) (xs : List α) : Except String (List α) :=
  if n < 0 then throw "invalid argument to Shuffle" else randShuffleLoop draw (n.toNat - 1) xs

theorem randShuffleLoop_perm (draw : ℕ → ℕ) :
    ∀ (i : ℕ) (xs : List α), i ≤ xs.length - 1 →
      ∃ ys, randShuffleLoop draw i xs = .ok ys ∧ ys.Perm xs
  | 0, xs, _ => ⟨xs, rfl, List.Perm.refl xs⟩
  | i + 1, xs, hi => by
    have hpos : (0 : ℤ) < (i : ℤ) + 2 := by omega
    have hj : InRange xs ((draw (i + 1) : ℤ) % ((i : ℤ) + 2)) := by
      have h0 := Int.emod_nonneg (draw (i + 1) : ℤ) (Int.ne_of_gt hpos)
      have h1 := Int.emod_lt_of_pos (draw (i + 1) : ℤ) hpos
      exact ⟨h0, by omega⟩
    obtain ⟨ys, hs, hys⟩ := swap_perm (⟨by omega, by omega⟩ : InRange xs ((i : ℤ) + 1)) hj
    obtain ⟨zs, hl, hzs⟩ := randShuffleLoop_perm draw i ys (by rw [hys.length_eq]; omega)
    refine ⟨zs, ?_, hzs.trans hys⟩
    rw [randShuffleLoop, intn_of_pos hpos, Except.ok_bind, hs, Except.ok_bind]
    exact hl

/-- `rand.Shuffle` of the whole slice does not panic and permutes it. -/
theorem randShuffle_perm (draw : ℕ → ℕ) (xs : List α) :
    ∃ ys, randShuffle draw xs.length xs = .ok ys ∧ ys.Perm xs := by
  rw [randShuffle, if_neg (by omega), Int.toNat_natCast]
  exact randShuffleLoop_perm draw _ xs (Nat.le_refl _)

/-! ## The shuffle moves places, not values -/

theorem get_map {β : Type} (f : α → β) (xs : List α) (i : ℤ) :
    get (xs.map f) i = f <$> get xs i := by
  unfold get
  by_cases h : 0 ≤ i ∧ i.toNat < xs.length
  · rw [dif_pos (by simpa using h), dif_pos h]
    simp [Functor.map, Except.map]
  · rw [dif_neg (by simpa using h), dif_neg h]
    simp [Functor.map, Except.map]

theorem set_map {β : Type} (f : α → β) (xs : List α) (i : ℤ) (a : α) :
    set (xs.map f) i (f a) = List.map f <$> set xs i a := by
  unfold set
  by_cases h : 0 ≤ i ∧ i.toNat < xs.length
  · rw [if_pos (by simpa using h), if_pos h]
    simp [Functor.map, Except.map, List.map_set]
  · rw [if_neg (by simpa using h), if_neg h]
    simp [Functor.map, Except.map]

theorem swap_map {β : Type} (f : α → β) (xs : List α) (i j : ℤ) :
    swap (xs.map f) i j = List.map f <$> swap xs i j := by
  unfold swap
  simp only [get_map, bind_map_left, set_map, map_bind]

theorem shuffleLoop_map {β : Type} (f : α → β) (draw : ℕ → ℕ) :
    ∀ (k i : ℕ) (xs : List α),
      shuffleLoop draw i k (xs.map f) = List.map f <$> shuffleLoop draw i k xs
  | 0, _, _ => by simp [shuffleLoop]
  | k + 1, i, xs => by
    simp only [shuffleLoop, List.length_map, swap_map, bind_map_left, map_bind,
      shuffleLoop_map f draw k (i + 1)]

/-- Shuffling the images is the image of the shuffle: the draws pick places only. -/
theorem shuffle_map {β : Type} (f : α → β) (draw : ℕ → ℕ) (n : ℕ) (xs : List α) :
    shuffle draw n (xs.map f) = List.map f <$> shuffle draw n xs :=
  shuffleLoop_map f draw n 0 xs

end Slice
