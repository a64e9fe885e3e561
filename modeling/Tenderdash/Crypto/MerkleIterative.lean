import Tenderdash.Crypto.Merkle

/-!
# The iterative Merkle root

`HashFromByteSlicesIterative` hashes the leaves into an array and reduces it
level by level, in place: each level pairs adjacent nodes and carries an odd
last node up unchanged, writing at `wp` what it read at `rp` and `rp + 1`.

It computes the root of `HashFromByteSlices` (`hashFromByteSlicesIterative_eq`).
The recursive tree splits at the largest power of two below the number of
nodes; pairing a level halves that power of two and keeps the split, so one
level of pairing leaves the split-point root unchanged (`rootOfNodes_pairUp`).

## What is transcribed and what is given

`levelLoop` and `reduceLoop` follow the two loops of the Go function, on a list
for the array; reads are in range, so `getD` never falls back.  The outer loop
runs on a fuel argument set to the number of leaves, which is enough: each
level has fewer nodes.  `pairUp` and `rootOfNodes` are the specification: one
level as a list function, and the split-point tree over hashed nodes.
-/

namespace Tenderdash.Merkle

section Iterative

variable (th : TreeHash)

/-- The inner loop of `HashFromByteSlicesIterative` over a level of `size`
nodes: the array after the level, and the number of nodes written. -/
def levelLoop (size : ℕ) (items : List Bytes) (rp wp : ℕ) : List Bytes × ℕ :=
  if rp < size then
    if rp + 1 < size then
      levelLoop size (items.set wp (th.innerHash (items.getD rp []) (items.getD (rp + 1) [])))
        (rp + 2) (wp + 1)
    else levelLoop size (items.set wp (items.getD rp [])) (rp + 1) (wp + 1)
  else (items, wp)
termination_by size - rp

/-- The outer loop of `HashFromByteSlicesIterative`, with a fuel bound: reduce
the first `size` nodes of the array to the root. -/
def reduceLoop : ℕ → List Bytes → ℕ → Bytes
  | 0, _, _ => th.emptyHash
  | fuel + 1, items, size =>
      match size with
      | 0 => th.emptyHash
      | 1 => items.getD 0 []
      | size + 2 =>
          let level := levelLoop th (size + 2) items 0 0
          reduceLoop fuel level.1 level.2

/-- `HashFromByteSlicesIterative`. -/
def hashFromByteSlicesIterative (input : List Bytes) : Bytes :=
  let items := input.map th.leafHash
  reduceLoop th items.length items items.length

/-- One level of the reduction: adjacent nodes paired, an odd last node carried. -/
def pairUp : List Bytes → List Bytes
  | a :: b :: rest => th.innerHash a b :: pairUp rest
  | l => l

/-- The split-point tree of `HashFromByteSlices` over nodes that are already
hashed: inner hashes only. -/
def rootOfNodes : List Bytes → Bytes
  | [] => th.emptyHash
  | [x] => x
  | a :: b :: rest =>
      th.innerHash (rootOfNodes ((a :: b :: rest).take (getSplitPoint (rest.length + 2))))
        (rootOfNodes ((a :: b :: rest).drop (getSplitPoint (rest.length + 2))))
termination_by l => l.length
decreasing_by
  all_goals
    have := getSplitPoint_bounds (n := rest.length + 2) (by omega)
    simp only [List.length_take, List.length_drop, List.length_cons]
    omega

/-! ## One level of pairing -/

@[simp] theorem pairUp_nil : pairUp th [] = [] := rfl

@[simp] theorem pairUp_singleton (x : Bytes) : pairUp th [x] = [x] := rfl

theorem length_pairUp : ∀ l : List Bytes, (pairUp th l).length = (l.length + 1) / 2
  | [] => rfl
  | [_] => by simp
  | _ :: _ :: rest => by
      rw [pairUp, List.length_cons, length_pairUp rest]
      simp only [List.length_cons]
      omega

/-- A level splits at an even boundary into the pairing of each part. -/
theorem pairUp_append_of_even : ∀ {a : List Bytes} (b : List Bytes), Even a.length →
    pairUp th (a ++ b) = pairUp th a ++ pairUp th b
  | [], _, _ => rfl
  | [_], _, h => by simp at h
  | x :: y :: rest, b, h => by
      have hrest : Even rest.length := by
        simpa [Nat.even_add_one, parity_simps] using h
      simp only [List.cons_append, pairUp, pairUp_append_of_even b hrest]

/-- The split point is the power of two with the items between it and its double. -/
theorem getSplitPoint_eq_of_bounds {n j : ℕ} (hlo : 2 ^ j < n) (hhi : n ≤ 2 ^ (j + 1)) :
    getSplitPoint n = 2 ^ j := by
  have hn : 2 ≤ n := by
    have : 1 ≤ 2 ^ j := Nat.one_le_two_pow
    omega
  obtain ⟨i, hk, hlo', hhi'⟩ := getSplitPoint_spec hn
  have hij : i = j := by
    apply le_antisymm
    · by_contra h
      have : 2 ^ (j + 1) ≤ 2 ^ i := Nat.pow_le_pow_right (by norm_num) (by omega)
      omega
    · by_contra h
      have : 2 ^ (i + 1) ≤ 2 ^ j := Nat.pow_le_pow_right (by norm_num) (by omega)
      omega
  rw [hk, hij]

theorem rootOfNodes_split {l : List Bytes} (h : 2 ≤ l.length) :
    rootOfNodes th l = th.innerHash (rootOfNodes th (l.take (getSplitPoint l.length)))
      (rootOfNodes th (l.drop (getSplitPoint l.length))) := by
  match l, h with
  | a :: b :: rest, _ => rw [rootOfNodes]; rfl

/-- Pairing a level leaves its root unchanged: by strong induction on the
number of nodes, the split point of the paired level being half the level's. -/
theorem rootOfNodes_pairUp : ∀ (n : ℕ) (l : List Bytes), l.length = n → l ≠ [] →
    rootOfNodes th (pairUp th l) = rootOfNodes th l := by
  intro n
  induction n using Nat.strong_induction_on with
  | _ n ih =>
  intro l hlen hne
  match l with
  | [] => exact absurd rfl hne
  | [x] => rfl
  | [a, b] =>
      have h2 : getSplitPoint 2 = 1 := by decide
      simp [pairUp, rootOfNodes_split th (l := [a, b]) (by simp), h2, rootOfNodes]
  | a :: b :: c :: rest =>
      set l := a :: b :: c :: rest with hl
      have h3 : 3 ≤ l.length := by simp [l]
      obtain ⟨j, hk, hlo, hhi⟩ := getSplitPoint_spec (n := l.length) (by omega)
      set k := getSplitPoint l.length with hkdef
      obtain ⟨i, rfl⟩ : ∃ i, j = i + 1 := by
        refine ⟨j - 1, ?_⟩
        by_contra h0
        rw [show j = 0 by omega] at hhi
        omega
      rw [pow_succ] at hk hlo hhi
      have hklen : (l.take k).length = k := by simp; omega
      have hpair : pairUp th l = pairUp th (l.take k) ++ pairUp th (l.drop k) := by
        rw [← @pairUp_append_of_even th (l.take k) (l.drop k) (by rw [hklen, hk]; simp),
          List.take_append_drop]
      have hhalf : (pairUp th (l.take k)).length = 2 ^ i := by
        rw [length_pairUp, hklen, hk]
        omega
      have hsplit : getSplitPoint (pairUp th l).length = 2 ^ i := by
        apply getSplitPoint_eq_of_bounds
        · rw [length_pairUp]
          omega
        · rw [length_pairUp, pow_succ]
          omega
      have hlen2 : 2 ≤ (pairUp th l).length := by
        rw [length_pairUp]
        have : 1 ≤ 2 ^ i := Nat.one_le_two_pow
        omega
      have htake : (pairUp th l).take (2 ^ i) = pairUp th (l.take k) := by
        rw [hpair, ← hhalf, List.take_left]
      have hdrop : (pairUp th l).drop (2 ^ i) = pairUp th (l.drop k) := by
        rw [hpair, ← hhalf, List.drop_left]
      have hkpos : 0 < k := by
        have : 1 ≤ 2 ^ i := Nat.one_le_two_pow
        omega
      have hklt : k < l.length := by omega
      rw [rootOfNodes_split th hlen2, hsplit, htake, hdrop,
        ih k (by omega) _ hklen (by simp [List.take_eq_nil_iff]; omega),
        ih (l.length - k) (by omega) _ (by simp) (by simp; omega),
        rootOfNodes_split th (l := l) (by omega)]

/-! ## The loops -/

theorem take_set_succ {l : List Bytes} {i : ℕ} (v : Bytes) (h : i < l.length) :
    (l.set i v).take (i + 1) = l.take i ++ [v] := by
  rw [List.take_add_one, List.getElem?_set_self h, List.take_set,
    List.set_eq_of_length_le (by simp)]
  rfl

theorem drop_take_set {l : List Bytes} {i m : ℕ} (n : ℕ) (v : Bytes) (h : i < m) :
    ((l.set i v).take n).drop m = (l.take n).drop m := by
  rw [List.take_set, List.drop_set_of_lt h]

theorem drop_take_eq_getD_cons {l : List Bytes} {rp size : ℕ} (h : rp < size)
    (hs : size ≤ l.length) : (l.take size).drop rp = l.getD rp [] :: (l.take size).drop (rp + 1) := by
  rw [List.drop_eq_getElem_cons (by simp; omega), List.getElem_take]
  simp [List.getD_eq_getElem?_getD, List.getElem?_eq_getElem (show rp < l.length by omega)]

/-- The inner loop from read position `rp` and write position `wp ≤ rp`:
it writes `pairUp` of the unread nodes after the first `wp` entries, and
leaves the array's length. -/
theorem levelLoop_spec (size : ℕ) (items : List Bytes) (rp wp : ℕ) (hw : wp ≤ rp)
    (hr : rp ≤ size) (hs : size ≤ items.length) :
    (levelLoop th size items rp wp).2 = wp + (size - rp + 1) / 2 ∧
      (levelLoop th size items rp wp).1.length = items.length ∧
      (levelLoop th size items rp wp).1.take (levelLoop th size items rp wp).2 =
        items.take wp ++ pairUp th ((items.take size).drop rp) := by
  induction items, rp, wp using levelLoop.induct th size with
  | case1 items rp wp hlt hlt2 ih =>
      rw [levelLoop, if_pos hlt, if_pos hlt2]
      obtain ⟨h₁, h₂, h₃⟩ := ih (by omega) (by omega) (by simpa using hs)
      refine ⟨by rw [h₁]; omega, by rw [h₂, List.length_set], ?_⟩
      rw [h₃, take_set_succ _ (by omega), drop_take_set _ _ (by omega),
        drop_take_eq_getD_cons hlt hs, drop_take_eq_getD_cons hlt2 hs, pairUp,
        List.append_assoc, List.singleton_append]
  | case2 items rp wp hlt hlt2 ih =>
      rw [levelLoop, if_pos hlt, if_neg hlt2]
      obtain ⟨h₁, h₂, h₃⟩ := ih (by omega) (by omega) (by simpa using hs)
      have hlast : (items.take size).drop (rp + 1) = [] := List.drop_eq_nil_of_le (by simp; omega)
      refine ⟨by rw [h₁]; omega, by rw [h₂, List.length_set], ?_⟩
      rw [h₃, take_set_succ _ (by omega), drop_take_set _ _ (by omega), hlast,
        drop_take_eq_getD_cons hlt hs, hlast, pairUp_nil, pairUp_singleton, List.append_nil]
  | case3 items rp wp hge =>
      rw [levelLoop, if_neg hge]
      have hend : (items.take size).drop rp = [] := List.drop_eq_nil_of_le (by simp; omega)
      refine ⟨by omega, rfl, ?_⟩
      rw [hend, pairUp_nil, List.append_nil]

/-- The outer loop computes the split-point root of the first `size` nodes. -/
theorem reduceLoop_spec : ∀ (fuel : ℕ) (items : List Bytes) (size : ℕ), size ≤ fuel →
    size ≤ items.length → reduceLoop th fuel items size = rootOfNodes th (items.take size) := by
  intro fuel
  induction fuel with
  | zero =>
      intro items size hf _
      rw [Nat.le_zero.mp hf, List.take_zero, reduceLoop, rootOfNodes]
  | succ fuel ih =>
      intro items size hf hs
      match size with
      | 0 => rw [List.take_zero, reduceLoop, rootOfNodes]
      | 1 =>
          obtain ⟨x, rest, rfl⟩ := List.exists_cons_of_length_pos (by omega : 0 < items.length)
          simp [reduceLoop, rootOfNodes]
      | size + 2 =>
          obtain ⟨h₁, h₂, h₃⟩ := levelLoop_spec th (size + 2) items 0 0 le_rfl (by omega) hs
          simp only [List.take_zero, List.drop_zero, List.nil_append, Nat.sub_zero] at h₁ h₃
          have hrec := ih (levelLoop th (size + 2) items 0 0).1 (levelLoop th (size + 2) items 0 0).2
            (by rw [h₁]; omega) (by rw [h₁, h₂]; omega)
          rw [h₃, rootOfNodes_pairUp th _ _ rfl (List.ne_nil_of_length_pos (by simp; omega))] at hrec
          rw [← hrec]
          rfl

/-- `HashFromByteSlices` is the split-point root of the leaf hashes. -/
theorem hashFromByteSlicesAux_eq_rootOfNodes : ∀ (fuel : ℕ) (items : List Bytes),
    items.length ≤ fuel →
      hashFromByteSlicesAux th fuel items = rootOfNodes th (items.map th.leafHash) := by
  intro fuel
  induction fuel with
  | zero =>
      intro items h
      rw [List.eq_nil_of_length_eq_zero (Nat.le_zero.mp h)]
      simp [hashFromByteSlicesAux, rootOfNodes]
  | succ fuel ih =>
      intro items h
      rcases items with _ | ⟨a, _ | ⟨b, rest⟩⟩
      · simp [hashFromByteSlicesAux, rootOfNodes]
      · simp [hashFromByteSlicesAux, rootOfNodes]
      · set l := a :: b :: rest with hl
        have h2 : 2 ≤ l.length := by simp [l]
        have hk := getSplitPoint_bounds h2
        have hmap : 2 ≤ (l.map th.leafHash).length := by simpa using h2
        rw [rootOfNodes_split th hmap, List.length_map, ← List.map_take, ← List.map_drop,
          ← ih _ (by simp; omega), ← ih _ (by simp; omega)]
        rfl

/-- The iterative root is the recursive one, for every list of items. -/
theorem hashFromByteSlicesIterative_eq (items : List Bytes) :
    hashFromByteSlicesIterative th items = hashFromByteSlices th items := by
  rw [hashFromByteSlicesIterative, reduceLoop_spec th _ _ _ le_rfl le_rfl, List.take_length,
    hashFromByteSlices, hashFromByteSlicesAux_eq_rootOfNodes th _ _ le_rfl]

end Iterative

end Tenderdash.Merkle
