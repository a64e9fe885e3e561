import Tenderdash.Types.Canonical
import Mathlib.Data.Nat.Log

/-!
# Merkle trees

`crypto/merkle`: the RFC 6962 tree over a list of byte strings, split at the
largest power of two below the number of items, and its inclusion proofs.

## What is transcribed and what is given

`getSplitPoint`, `HashFromByteSlices`, `trailsFromByteSlices` with
`FlattenAunts`, `ProofsFromByteSlices`, `computeHashFromAunts` and
`Proof.Verify` follow the Go code.  The three hashes (`leafHash`, `innerHash`,
`emptyHash`, which prefix `0x00` or `0x01` and call SHA-256) are a `TreeHash`,
so that a proof can assume of them what it needs; `TreeHash.ofCrypto` builds
them from SHA-256 as `hash.go` does.

`bits.Len` and the recursions over halves of the item list run on a fuel
argument that the entry points set to the length of the list, which is always
enough: each recursive call sees fewer items.  `computeHashFromAunts` consumes
its aunts from the last one, so it recurses on the reversed list.
-/

namespace Tenderdash.Merkle

/-- The hashes of a tree: of a leaf, of an inner node, of the empty tree. -/
structure TreeHash where
  leafHash : Bytes → Bytes
  innerHash : Bytes → Bytes → Bytes
  emptyHash : Bytes

/-- `hash.go`: `tmhash(0x00 || leaf)`, `tmhash(0x01 || left || right)`, `tmhash()`. -/
def TreeHash.ofCrypto (c : Crypto) : TreeHash :=
  ⟨fun leaf ↦ c.sha256 (0 :: leaf), fun left right ↦ c.sha256 (1 :: (left ++ right)), c.sha256 []⟩

/-! ## Splitting -/

/-- `bits.Len` with a fuel bound: the number of binary digits. -/
def bitsLenAux : ℕ → ℕ → ℕ
  | 0, _ => 0
  | fuel + 1, m => if m = 0 then 0 else bitsLenAux fuel (m / 2) + 1

/-- `bits.Len`. -/
def bitsLen (n : ℕ) : ℕ := bitsLenAux n n

/-- `getSplitPoint`: the largest power of two below `length`.  Callers pass at
least two items (the Go code panics below one). -/
def getSplitPoint (length : ℕ) : ℕ :=
  let k := 2 ^ (bitsLen length - 1)
  if k = length then k / 2 else k

theorem bitsLenAux_spec : ∀ (fuel m : ℕ), 0 < m → m ≤ fuel →
    2 ^ (bitsLenAux fuel m - 1) ≤ m ∧ m < 2 ^ bitsLenAux fuel m
  | 0, m, hm, hle => by omega
  | fuel + 1, m, hm, hle => by
      rw [bitsLenAux, if_neg (by omega)]
      by_cases hm2 : m / 2 = 0
      · have hm1 : m = 1 := by omega
        subst hm1
        cases fuel <;> simp [bitsLenAux]
      · obtain ⟨hlo, hhi⟩ := bitsLenAux_spec fuel (m / 2) (by omega) (by omega)
        set b := bitsLenAux fuel (m / 2)
        have hb : 1 ≤ b := by
          by_contra h
          rw [show b = 0 by omega, pow_zero] at hhi
          omega
        have hpow : 2 ^ b = 2 * 2 ^ (b - 1) := by
          rw [← pow_succ']
          congr 1
          omega
        rw [Nat.add_sub_cancel, pow_succ]
        omega

/-- The split point of two or more items is a power of two strictly inside. -/
theorem getSplitPoint_bounds {n : ℕ} (hn : 2 ≤ n) : 0 < getSplitPoint n ∧ getSplitPoint n < n := by
  obtain ⟨hlo, hhi⟩ := bitsLenAux_spec n n (by omega) le_rfl
  have hpos : 0 < 2 ^ (bitsLenAux n n - 1) := pow_pos (by norm_num) _
  unfold getSplitPoint bitsLen
  dsimp only
  split_ifs with heq
  · rw [heq]
    omega
  · omega

/-- The split point of two or more items is the power of two with the items
between it and its double: `2 ^ j < n ≤ 2 ^ (j + 1)`. -/
theorem getSplitPoint_spec {n : ℕ} (hn : 2 ≤ n) :
    ∃ j, getSplitPoint n = 2 ^ j ∧ 2 ^ j < n ∧ n ≤ 2 ^ (j + 1) := by
  unfold getSplitPoint bitsLen
  dsimp only
  obtain ⟨hlo, hhi⟩ := bitsLenAux_spec n n (by omega) le_rfl
  set b := bitsLenAux n n
  have hb : 2 ≤ b := by
    by_contra h
    have : 2 ^ b ≤ 2 ^ 1 := Nat.pow_le_pow_right (by norm_num) (by omega)
    omega
  split_ifs with heq
  · refine ⟨b - 2, ?_, ?_, ?_⟩
    · rw [show b - 1 = b - 2 + 1 by omega, pow_succ, Nat.mul_div_cancel _ (by norm_num)]
    · rw [← heq, show b - 1 = b - 2 + 1 by omega, pow_succ]
      have : 0 < 2 ^ (b - 2) := pow_pos (by norm_num) _
      omega
    · rw [← heq, show b - 2 + 1 = b - 1 by omega]
  · refine ⟨b - 1, rfl, by omega, ?_⟩
    rw [show b - 1 + 1 = b by omega]
    exact hhi.le

/-- Both halves of a split tree are one level shallower: their item counts have
a ceiling logarithm below the whole tree's. -/
theorem clog_split_lt {n : ℕ} (hn : 2 ≤ n) :
    Nat.clog 2 (getSplitPoint n) + 1 ≤ Nat.clog 2 n ∧
      Nat.clog 2 (n - getSplitPoint n) + 1 ≤ Nat.clog 2 n := by
  obtain ⟨j, hk, hlt, hle⟩ := getSplitPoint_spec hn
  have hclog : j < Nat.clog 2 n := (Nat.lt_clog_iff_pow_lt (by norm_num)).mpr hlt
  have hright : n - getSplitPoint n ≤ 2 ^ j := by
    rw [hk]
    rw [pow_succ] at hle
    omega
  refine ⟨?_, ?_⟩
  · rw [hk, Nat.clog_pow 2 j (by norm_num)]
    omega
  · have := Nat.clog_le_of_le_pow hright
    omega

/-! ## Roots and proofs -/

/-- `merkle.Proof`: the number of items, the item's index, its leaf hash, and
its aunts from the leaf's sibling up to the root's child. -/
structure Proof where
  total : ℤ
  index : ℤ
  leafHash : Bytes
  aunts : List Bytes
deriving DecidableEq, Repr

/-- Why `Proof.Verify` refuses. -/
inductive VerifyError where
  | totalNegative
  | indexNegative
  | invalidLeafHash (wanted got : Bytes)
  | invalidRootHash (wanted got : Bytes)
deriving DecidableEq, Repr

section Hash

variable (th : TreeHash)

/-- `HashFromByteSlices`, with a fuel bound. -/
def hashFromByteSlicesAux : ℕ → List Bytes → Bytes
  | 0, _ => th.emptyHash
  | fuel + 1, items =>
      match items with
      | [] => th.emptyHash
      | [item] => th.leafHash item
      | items =>
          let k := getSplitPoint items.length
          th.innerHash (hashFromByteSlicesAux fuel (items.take k))
            (hashFromByteSlicesAux fuel (items.drop k))

/-- `HashFromByteSlices`. -/
def hashFromByteSlices (items : List Bytes) : Bytes := hashFromByteSlicesAux th items.length items

/-- `trailsFromByteSlices` followed by `FlattenAunts` on each trail, with a fuel
bound: the root hash, and for each item its leaf hash and its aunts. -/
def trailsAux : ℕ → List Bytes → Bytes × List (Bytes × List Bytes)
  | 0, _ => (th.emptyHash, [])
  | fuel + 1, items =>
      match items with
      | [] => (th.emptyHash, [])
      | [item] => (th.leafHash item, [(th.leafHash item, [])])
      | items =>
          let k := getSplitPoint items.length
          let left := trailsAux fuel (items.take k)
          let right := trailsAux fuel (items.drop k)
          -- the left subtree's leaves take the right root as their last aunt, and back
          (th.innerHash left.1 right.1,
            left.2.map (fun t ↦ (t.1, t.2 ++ [right.1])) ++
              right.2.map (fun t ↦ (t.1, t.2 ++ [left.1])))

/-- `ProofsFromByteSlices`: the root hash and the proof of each item. -/
def proofsFromByteSlices (items : List Bytes) : Bytes × List Proof :=
  let trails := trailsAux th items.length items
  (trails.1, trails.2.mapIdx fun i t ↦ ⟨items.length, i, t.1, t.2⟩)

/-- `computeHashFromAunts`, on the aunts from the last one: the subtree of the
index is hashed with the last aunt on the side the split point puts it. -/
def computeHashFromAuntsRev (index total : ℤ) (leafHash : Bytes) : List Bytes → Option Bytes
  | [] =>
      if index ≥ total ∨ index < 0 ∨ total ≤ 0 then none
      else if total = 1 then some leafHash
      else none
  | last :: rest =>
      if index ≥ total ∨ index < 0 ∨ total ≤ 0 then none
      else if total = 1 then none
      else
        let numLeft : ℤ := getSplitPoint total.toNat
        if index < numLeft then
          (computeHashFromAuntsRev index numLeft leafHash rest).map (th.innerHash · last)
        else
          (computeHashFromAuntsRev (index - numLeft) (total - numLeft) leafHash rest).map
            (th.innerHash last ·)

/-- `computeHashFromAunts`: the root a proof computes, nothing (Go's nil) when
the proof does not fit the tree's shape. -/
def computeHashFromAunts (index total : ℤ) (leafHash : Bytes) (innerHashes : List Bytes) :
    Option Bytes :=
  computeHashFromAuntsRev th index total leafHash innerHashes.reverse

/-- `Proof.ComputeRootHash`. -/
def Proof.computeRootHash (sp : Proof) : Option Bytes :=
  computeHashFromAunts th sp.index sp.total sp.leafHash sp.aunts

/-- `Proof.Verify`: the proof's leaf hash is the leaf's, and the root it
computes is the given one (`bytes.Equal`, so a nil root equals an empty one).
The proof's index and total are not compared with anything. -/
def Proof.verify (sp : Proof) (rootHash leaf : Bytes) : Except VerifyError Unit :=
  let leafHash := th.leafHash leaf
  if sp.total < 0 then .error .totalNegative
  else if sp.index < 0 then .error .indexNegative
  else if sp.leafHash ≠ leafHash then .error (.invalidLeafHash leafHash sp.leafHash)
  else
    let computedHash := (sp.computeRootHash th).getD []
    if computedHash ≠ rootHash then .error (.invalidRootHash rootHash computedHash)
    else .ok ()

/-- What it takes for a proof to verify. -/
theorem Proof.verify_eq_ok {sp : Proof} {rootHash leaf : Bytes} :
    sp.verify th rootHash leaf = .ok () ↔
      0 ≤ sp.total ∧ 0 ≤ sp.index ∧ sp.leafHash = th.leafHash leaf ∧
        (sp.computeRootHash th).getD [] = rootHash := by
  simp only [Proof.verify]
  split_ifs <;> simp_all

/-! ## Honest proofs verify

The trail of an item computes the root: by induction on the fuel, following
the split of the items, with one lemma for each side of the split. -/

/-- At two or more items, `trailsAux` splits at `getSplitPoint`. -/
theorem trailsAux_split (fuel : ℕ) {items : List Bytes} (h : 2 ≤ items.length) :
    trailsAux th (fuel + 1) items =
      (th.innerHash (trailsAux th fuel (items.take (getSplitPoint items.length))).1
          (trailsAux th fuel (items.drop (getSplitPoint items.length))).1,
        (trailsAux th fuel (items.take (getSplitPoint items.length))).2.map
            (fun t ↦ (t.1, t.2 ++ [(trailsAux th fuel (items.drop (getSplitPoint items.length))).1])) ++
          (trailsAux th fuel (items.drop (getSplitPoint items.length))).2.map
            (fun t ↦ (t.1, t.2 ++ [(trailsAux th fuel (items.take (getSplitPoint items.length))).1]))) := by
  match items, h with
  | _ :: _ :: _, _ => rfl

/-- An index left of the split is proved in the left subtree, with the right
subtree's root as its last aunt. -/
theorem computeHashFromAunts_append_left {n i : ℕ} (hn : 2 ≤ n) (hi : i < getSplitPoint n)
    (leaf r : Bytes) (aunts : List Bytes) :
    computeHashFromAunts th i n leaf (aunts ++ [r]) =
      (computeHashFromAunts th i (getSplitPoint n) leaf aunts).map (th.innerHash · r) := by
  have hk := getSplitPoint_bounds hn
  simp only [computeHashFromAunts, List.reverse_append, List.reverse_cons, List.reverse_nil,
    List.nil_append, List.cons_append, computeHashFromAuntsRev, Int.toNat_natCast]
  rw [if_neg (by omega), if_neg (by omega), if_pos (by exact_mod_cast hi)]

/-- An index right of the split is proved in the right subtree, with the left
subtree's root as its last aunt. -/
theorem computeHashFromAunts_append_right {n i : ℕ} (hn : 2 ≤ n) (hi : getSplitPoint n ≤ i)
    (hin : i < n) (leaf l : Bytes) (aunts : List Bytes) :
    computeHashFromAunts th i n leaf (aunts ++ [l]) =
      (computeHashFromAunts th ((i - getSplitPoint n : ℕ) : ℤ) ((n - getSplitPoint n : ℕ) : ℤ)
        leaf aunts).map (th.innerHash l ·) := by
  have hk := getSplitPoint_bounds hn
  simp only [computeHashFromAunts, List.reverse_append, List.reverse_cons, List.reverse_nil,
    List.nil_append, List.cons_append, computeHashFromAuntsRev, Int.toNat_natCast]
  rw [if_neg (by omega), if_neg (by omega), if_neg (by omega), Nat.cast_sub hi,
    Nat.cast_sub hk.2.le]

/-- Completeness of the trails: with enough fuel, there is one trail per item,
holding the item's leaf hash and aunts that compute the root. -/
theorem trailsAux_complete (fuel : ℕ) : ∀ items : List Bytes, items.length ≤ fuel →
    (trailsAux th fuel items).2.length = items.length ∧
    ∀ (i : ℕ) (hi : i < items.length), ∃ aunts,
      (trailsAux th fuel items).2[i]? = some (th.leafHash items[i], aunts) ∧
      computeHashFromAunts th i items.length (th.leafHash items[i]) aunts =
        some (trailsAux th fuel items).1 := by
  induction fuel with
  | zero =>
      intro items hlen
      rw [List.eq_nil_of_length_eq_zero (Nat.le_zero.mp hlen)]
      simp [trailsAux]
  | succ fuel ih =>
      intro items hlen
      match items with
      | [] => simp [trailsAux]
      | [item] =>
          refine ⟨rfl, fun i hi ↦ ⟨[], ?_⟩⟩
          obtain rfl : i = 0 := by simpa using hi
          simp [trailsAux, computeHashFromAunts, computeHashFromAuntsRev]
      | a :: b :: rest =>
          set items := a :: b :: rest with hitems
          have h2 : 2 ≤ items.length := by simp [items]
          rw [trailsAux_split th fuel h2]
          set k := getSplitPoint items.length with hk
          have hkb := getSplitPoint_bounds h2
          have hlen_take : (items.take k).length = k := by simp; omega
          have hlen_drop : (items.drop k).length = items.length - k := by simp
          obtain ⟨hlL, hL⟩ := ih (items.take k) (by omega)
          obtain ⟨hlR, hR⟩ := ih (items.drop k) (by omega)
          refine ⟨by simp [hlL, hlR, hlen_take, hlen_drop]; omega, fun i hi ↦ ?_⟩
          by_cases hik : i < k
          · have hiL : i < (items.take k).length := by omega
            obtain ⟨aunts, hget, hcomp⟩ := hL i hiL
            have htake : (items.take k)[i] = items[i] := List.getElem_take
            rw [htake] at hget hcomp
            rw [hlen_take] at hcomp
            refine ⟨aunts ++ [(trailsAux th fuel (items.drop k)).1], ?_, ?_⟩
            · rw [List.getElem?_append_left (by simp [hlL, hlen_take, hik]), List.getElem?_map,
                hget]
              rfl
            · rw [computeHashFromAunts_append_left th h2 hik, hcomp]
              rfl
          · have hki : k ≤ i := by omega
            have hiR : i - k < (items.drop k).length := by omega
            obtain ⟨aunts, hget, hcomp⟩ := hR (i - k) hiR
            have hdrop : (items.drop k)[i - k] = items[i] := by
              simp [List.getElem_drop, Nat.add_sub_cancel' hki]
            rw [hdrop] at hget hcomp
            rw [hlen_drop] at hcomp
            refine ⟨aunts ++ [(trailsAux th fuel (items.take k)).1], ?_, ?_⟩
            · rw [List.getElem?_append_right (by simp [hlL, hlen_take]; omega), List.getElem?_map]
              simp only [List.length_map, hlL, hlen_take]
              rw [hget]
              rfl
            · rw [computeHashFromAunts_append_right th h2 hki hi, hcomp]
              rfl

/-- The trails are built over the tree `HashFromByteSlices` hashes: their root
is its hash. -/
theorem trailsAux_fst (fuel : ℕ) : ∀ items : List Bytes,
    (trailsAux th fuel items).1 = hashFromByteSlicesAux th fuel items := by
  induction fuel with
  | zero => intro items; rfl
  | succ fuel ih =>
      intro items
      match items with
      | [] => rfl
      | [item] => rfl
      | a :: b :: rest => simp only [trailsAux, hashFromByteSlicesAux, ih]

/-- An item's trail climbs one level per split, so it has at most the ceiling
logarithm of the number of items as aunts. -/
theorem trailsAux_aunts_length (fuel : ℕ) : ∀ items : List Bytes, items.length ≤ fuel →
    ∀ t ∈ (trailsAux th fuel items).2, t.2.length ≤ Nat.clog 2 items.length := by
  induction fuel with
  | zero =>
      intro items hlen
      simp [trailsAux]
  | succ fuel ih =>
      intro items hlen t ht
      match items with
      | [] => simp [trailsAux] at ht
      | [item] =>
          obtain rfl : t = (th.leafHash item, []) := by simpa [trailsAux] using ht
          simp
      | a :: b :: rest =>
          set items := a :: b :: rest with hitems
          have h2 : 2 ≤ items.length := by simp [items]
          rw [trailsAux_split th fuel h2] at ht
          obtain ⟨hcL, hcR⟩ := clog_split_lt h2
          have hkb := getSplitPoint_bounds h2
          set k := getSplitPoint items.length with hk
          rcases List.mem_append.mp ht with hL | hR
          · obtain ⟨t', ht', rfl⟩ := List.mem_map.mp hL
            have := ih (items.take k) (by simp; omega) t' ht'
            simp only [List.length_take, List.length_append, List.length_singleton] at this ⊢
            rw [min_eq_left hkb.2.le] at this
            omega
          · obtain ⟨t', ht', rfl⟩ := List.mem_map.mp hR
            have := ih (items.drop k) (by simp; omega) t' ht'
            simp only [List.length_drop, List.length_append, List.length_singleton] at this ⊢
            omega

/-- Every proof `ProofsFromByteSlices` makes is for its item's index, counts
all items, and verifies its item against the root. -/
theorem proofsFromByteSlices_verify (items : List Bytes) (i : ℕ) (hi : i < items.length) :
    ∃ sp, (proofsFromByteSlices th items).2[i]? = some sp ∧ sp.index = i ∧
      sp.total = items.length ∧ sp.verify th (proofsFromByteSlices th items).1 items[i] = .ok () := by
  obtain ⟨-, hall⟩ := trailsAux_complete th items.length items le_rfl
  obtain ⟨aunts, hget, hcomp⟩ := hall i hi
  refine ⟨⟨items.length, i, th.leafHash items[i], aunts⟩, ?_, rfl, rfl, ?_⟩
  · simp [proofsFromByteSlices, List.getElem?_mapIdx, hget]
  · have htotal : ¬ (items.length : ℤ) < 0 := by omega
    have hindex : ¬ (i : ℤ) < 0 := by omega
    simp [Proof.verify, Proof.computeRootHash, hcomp, proofsFromByteSlices, htotal, hindex]

/-- `ProofsFromByteSlices` returns the root `HashFromByteSlices` computes and
one proof per item; the proof of item `i` counts all items, has index `i`, the
item's leaf hash and at most `⌈log₂ n⌉` aunts, and verifies the item against
the root. -/
theorem proofsFromByteSlices_complete (items : List Bytes) :
    (proofsFromByteSlices th items).1 = hashFromByteSlices th items ∧
    (proofsFromByteSlices th items).2.length = items.length ∧
    ∀ (i : ℕ) (hi : i < items.length), ∃ sp, (proofsFromByteSlices th items).2[i]? = some sp ∧
      sp.total = items.length ∧ sp.index = i ∧ sp.leafHash = th.leafHash items[i] ∧
      sp.aunts.length ≤ Nat.clog 2 items.length ∧
      sp.verify th (proofsFromByteSlices th items).1 items[i] = .ok () := by
  obtain ⟨hlen, -⟩ := trailsAux_complete th items.length items le_rfl
  refine ⟨trailsAux_fst th _ items, by simp [proofsFromByteSlices, hlen], fun i hi ↦ ?_⟩
  obtain ⟨sp, hsp, hindex, htotal, hverify⟩ := proofsFromByteSlices_verify th items i hi
  have hleaf := ((Proof.verify_eq_ok th).mp hverify).2.2.1
  obtain ⟨t, ht, rfl⟩ : ∃ t, (trailsAux th items.length items).2[i]? = some t ∧
      (⟨items.length, i, t.1, t.2⟩ : Proof) = sp := by
    simpa [proofsFromByteSlices, List.getElem?_mapIdx] using hsp
  exact ⟨_, hsp, htotal, hindex, hleaf,
    trailsAux_aunts_length th _ items le_rfl t (List.mem_of_getElem? ht), hverify⟩

/-! ## Proofs bind their item

With hashes that determine their input, a proof for the item's own index and
the tree's total that verifies against the root proves that very item: by
induction on the fuel again, the last aunt of such a proof is matched, through
the inner hash, with the sibling subtree's root. -/

/-- Hashes that determine what they hash and are never empty (SHA-256 is
32 bytes, and `bytes.Equal` takes nil for empty, so an empty root would accept
a proof that computes nothing). -/
structure TreeHash.Binding (th : TreeHash) : Prop where
  leaf_inj : Function.Injective th.leafHash
  inner_inj : ∀ {a b c d}, th.innerHash a b = th.innerHash c d → a = c ∧ b = d
  leaf_ne_nil : ∀ x, th.leafHash x ≠ []
  inner_ne_nil : ∀ a b, th.innerHash a b ≠ []

/-- A proof of a one-item tree has no aunts and computes the leaf hash. -/
theorem computeHashFromAunts_one {i : ℕ} {leaf root : Bytes} {aunts : List Bytes}
    (h : computeHashFromAunts th i 1 leaf aunts = some root) : aunts = [] ∧ root = leaf := by
  rcases List.eq_nil_or_concat' aunts with rfl | ⟨init, last, rfl⟩
  · simp only [computeHashFromAunts, List.reverse_nil, computeHashFromAuntsRev] at h
    split_ifs at h
    simp_all
  · simp [computeHashFromAunts, computeHashFromAuntsRev] at h

/-- A tree of two or more items has no proof without aunts. -/
theorem computeHashFromAunts_nil {n i : ℕ} (hn : 2 ≤ n) (leaf : Bytes) :
    computeHashFromAunts th i n leaf [] = none := by
  simp only [computeHashFromAunts, List.reverse_nil, computeHashFromAuntsRev]
  split_ifs with hout hone
  · rfl
  · omega
  · rfl

/-- Soundness of the trails: with binding hashes, a leaf hash and aunts that
compute the root at an item's index and the tree's total are that item's. -/
theorem trailsAux_sound (hth : th.Binding) (fuel : ℕ) : ∀ items : List Bytes,
    items.length ≤ fuel → ∀ (i : ℕ) (hi : i < items.length) (x : Bytes) (aunts : List Bytes),
      computeHashFromAunts th i items.length (th.leafHash x) aunts =
        some (trailsAux th fuel items).1 → x = items[i] := by
  induction fuel with
  | zero =>
      intro items hlen i hi
      exact absurd (hi.trans_le hlen) (Nat.not_lt_zero _)
  | succ fuel ih =>
      intro items hlen i hi x aunts h
      match items with
      | [] => simp at hi
      | [item] =>
          obtain rfl : i = 0 := by simpa using hi
          obtain ⟨-, hleaf⟩ := computeHashFromAunts_one th h
          exact hth.leaf_inj hleaf.symm
      | a :: b :: rest =>
          set items := a :: b :: rest with hitems
          have h2 : 2 ≤ items.length := by simp [items]
          rw [trailsAux_split th fuel h2] at h
          set k := getSplitPoint items.length with hk
          have hkb := getSplitPoint_bounds h2
          have hlen_take : (items.take k).length = k := by simp; omega
          have hlen_drop : (items.drop k).length = items.length - k := by simp
          rcases List.eq_nil_or_concat' aunts with rfl | ⟨init, last, rfl⟩
          · rw [computeHashFromAunts_nil th h2] at h
            cases h
          by_cases hik : i < k
          · rw [computeHashFromAunts_append_left th h2 hik] at h
            obtain ⟨root, hroot, heq⟩ := Option.map_eq_some_iff.mp h
            obtain ⟨rfl, -⟩ := hth.inner_inj heq
            have hiL : i < (items.take k).length := by omega
            have hx := ih (items.take k) (by omega) i hiL x init (by rwa [hlen_take])
            rw [hx, List.getElem_take]
          · have hki : k ≤ i := by omega
            rw [computeHashFromAunts_append_right th h2 hki hi] at h
            obtain ⟨root, hroot, heq⟩ := Option.map_eq_some_iff.mp h
            obtain ⟨-, rfl⟩ := hth.inner_inj heq
            have hiR : i - k < (items.drop k).length := by omega
            have hx := ih (items.drop k) (by omega) (i - k) hiR x init (by rwa [hlen_drop])
            simp only [hx, List.getElem_drop, Nat.add_sub_cancel' hki]
            rfl

/-- A proof that claims an item's index and the number of items, and verifies
a leaf against the root of the items, proves that item. -/
theorem proofsFromByteSlices_sound (hth : th.Binding) (items : List Bytes) {i : ℕ}
    (hi : i < items.length) (sp : Proof) (hindex : sp.index = i) (htotal : sp.total = items.length)
    {leaf : Bytes} (h : sp.verify th (proofsFromByteSlices th items).1 leaf = .ok ()) :
    leaf = items[i] := by
  have hroot_ne : (trailsAux th items.length items).1 ≠ [] := by
    match items, hi with
    | [item], _ => exact hth.leaf_ne_nil item
    | a :: b :: rest, _ =>
        rw [List.length_cons, trailsAux_split th _ (by simp)]
        exact hth.inner_ne_nil _ _
  obtain ⟨-, -, hleaf, hroot⟩ := (Proof.verify_eq_ok th).mp h
  simp only [Proof.computeRootHash, proofsFromByteSlices] at hroot
  obtain ⟨root, hcomp⟩ : ∃ root, computeHashFromAunts th sp.index sp.total sp.leafHash sp.aunts =
      some root := by
    cases hc : computeHashFromAunts th sp.index sp.total sp.leafHash sp.aunts with
    | none => rw [hc] at hroot; exact absurd hroot.symm hroot_ne
    | some root => exact ⟨root, rfl⟩
  rw [hcomp, Option.getD_some] at hroot
  rw [hindex, htotal, hleaf, hroot] at hcomp
  exact trailsAux_sound th hth items.length items le_rfl i hi leaf sp.aunts hcomp

/-- A proof for an index inside the tree that verifies a leaf against the root
`HashFromByteSlices` computes proves the item at that index. -/
theorem hashFromByteSlices_verify_sound (hth : th.Binding) (items : List Bytes) (sp : Proof)
    (htotal : sp.total = items.length) (hindex : 0 ≤ sp.index ∧ sp.index < sp.total)
    {leaf : Bytes} (h : sp.verify th (hashFromByteSlices th items) leaf = .ok ()) :
    items[sp.index.toNat]? = some leaf := by
  have hi : sp.index.toNat < items.length := by omega
  rw [hashFromByteSlices, ← trailsAux_fst] at h
  have hleaf := proofsFromByteSlices_sound th hth items hi sp (by omega) htotal h
  rw [List.getElem?_eq_getElem hi, hleaf]

end Hash

/-! ## Hashes for the examples -/

/-- A binding stand-in for the tree hashes: the leaf tagged with `0`; the two
children tagged with `1`, after the left child's length in unary. -/
def TreeHash.tagged : TreeHash :=
  ⟨fun x ↦ 0 :: x, fun a b ↦ 1 :: (List.replicate a.length 1 ++ 0 :: (a ++ b)), [2]⟩

/-- A length in unary, closed by a `0`, is read back. -/
theorem replicate_append_zero_inj {m n : ℕ} {x y : Bytes}
    (h : List.replicate m 1 ++ 0 :: x = List.replicate n 1 ++ 0 :: y) : m = n ∧ x = y := by
  induction m generalizing n with
  | zero =>
      cases n with
      | zero => simpa using h
      | succ n => simp [List.replicate_succ] at h
  | succ m ih =>
      cases n with
      | zero => simp [List.replicate_succ] at h
      | succ n =>
          simp only [List.replicate_succ, List.cons_append, List.cons.injEq, true_and] at h
          obtain ⟨rfl, rfl⟩ := ih h
          exact ⟨rfl, rfl⟩

theorem TreeHash.tagged_binding : TreeHash.tagged.Binding where
  leaf_inj _ _ h := (List.cons.inj h).2
  inner_inj {a b c d} h := by
    obtain ⟨hlen, happ⟩ := replicate_append_zero_inj (List.cons.inj h).2
    exact List.append_inj happ hlen
  leaf_ne_nil _ := List.cons_ne_nil _ _
  inner_ne_nil _ _ := List.cons_ne_nil _ _

/-- A three-item tree: the proof of the middle item climbs two levels, with the
first item's leaf hash and then the third's as its aunts, and verifies it. -/
theorem hashFromByteSlices_verify_sound_three_items :
    (⟨3, 1, [0, 2], [[0, 1], [0, 3]]⟩ : Proof).verify TreeHash.tagged
        (hashFromByteSlices TreeHash.tagged [[1], [2], [3]]) [2] = .ok () ∧
      ([[1], [2], [3]] : List Bytes)[(1 : ℤ).toNat]? = some [2] := by
  have h : (⟨3, 1, [0, 2], [[0, 1], [0, 3]]⟩ : Proof).verify TreeHash.tagged
      (hashFromByteSlices TreeHash.tagged [[1], [2], [3]]) [2] = .ok () := by decide
  exact ⟨h, hashFromByteSlices_verify_sound TreeHash.tagged TreeHash.tagged_binding _ _ rfl
    (by decide) h⟩

/-- Injective hashes with an empty digest: the leaf `[0]` hashes to nothing,
every other leaf is tagged with `0`. -/
def TreeHash.emptyLeaf : TreeHash :=
  ⟨fun x ↦ if x = [0] then [] else 0 :: x, TreeHash.tagged.innerHash, [2]⟩

/-- Injective, domain-separated hashes are not enough: with a leaf that hashes
to the empty string, the root of `[[0]]` is empty, and a proof that computes
nothing (Go's nil root) verifies any leaf, since `bytes.Equal` takes nil for
empty. -/
theorem hashFromByteSlices_verify_sound_counterexample :
    Function.Injective TreeHash.emptyLeaf.leafHash ∧
      (∀ {a b c d}, TreeHash.emptyLeaf.innerHash a b = TreeHash.emptyLeaf.innerHash c d →
        a = c ∧ b = d) ∧
      (∀ x a b, TreeHash.emptyLeaf.leafHash x ≠ TreeHash.emptyLeaf.innerHash a b) ∧
      (⟨1, 0, [0, 1], [[]]⟩ : Proof).verify TreeHash.emptyLeaf
        (hashFromByteSlices TreeHash.emptyLeaf [[0]]) [1] = .ok () ∧
      ([[0]] : List Bytes)[(0 : ℤ).toNat]? ≠ some [1] := by
  refine ⟨?_, TreeHash.tagged_binding.inner_inj, ?_, rfl, by decide⟩
  · intro x y h
    by_cases hx : x = [0] <;> by_cases hy : y = [0] <;> simp_all [TreeHash.emptyLeaf]
  · intro x a b
    simp only [TreeHash.emptyLeaf, TreeHash.tagged]
    split_ifs <;> simp

end Tenderdash.Merkle
