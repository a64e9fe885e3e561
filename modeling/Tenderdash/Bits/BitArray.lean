import Tenderdash.Lib.Slice
import Tenderdash.Lib.Except
import Mathlib.Data.Nat.Bitwise

/-!
# Bit arrays

`libs/bits/bit_array.go`: a size `Bits` and the 64-bit words `Elems` that hold
the bits, bit `i` in word `i/64` at position `i%64`.  `NewBitArray` gives a
positive size exactly the words it needs; `FromProto` copies both fields from
the wire and checks neither against the other.

Every method indexes `Elems` by the size or by an index below it, so a bit
array whose words do not cover its size makes them panic.  The methods of a
non-nil array are in namespace `BitArray`, past the nil checks; those of a
`*BitArray` that may be nil (`none`) are in namespace `Ptr`.  The mutex is
left out, and a method that writes through its receiver returns the new array.
`MarshalJSON` and `UnmarshalJSON` are in `Bits/Json`; `String`, `Bytes`, `IsFull`
and `And` are left out: nothing modelled here calls them.

`bit` reads an array as the list of booleans it stands for, word by word and
padding included; `Tidy` is the representation invariant a caller may expect,
the words of the size with every padding bit clear.  `Not` complements whole
words, so it sets the padding bits (`not_breaks_tidy`), and `IsEmpty`, which
tests whole words, then reports a set bit that no index below the size holds.

What a well-formed array guarantees is `BitArray.WellFormed`: the methods the
peer-state handlers of the consensus reactor call on one (`SetIndex`, `Or`, `Sub`,
`Not`, `Update`) do not panic, and those that return an array return a
well-formed one.
-/

namespace Tenderdash.Bits

/-- `bits.BitArray`. -/
structure BitArray where
  bits : ℤ
  elems : List UInt64
deriving DecidableEq, Repr

/-- `uint64(1) << uint(s)` for an `int` shift count `s`: a negative count
converts to a `uint` of at least 64, and Go shifts past the width to zero. -/
def mask (s : ℤ) : UInt64 := if 0 ≤ s ∧ s < 64 then 1 <<< s.toNat.toUInt64 else 0

/-- `(bits+63)/64`, the number of words for `bits` bits, with Go's truncating
division. -/
def numWords (bits : ℤ) : ℤ := (bits + 63).tdiv 64

/-- `NewBitArray`: nil for no bits. -/
def newBitArray (bits : ℤ) : Option BitArray :=
  if bits ≤ 0 then none else some ⟨bits, List.replicate (numWords bits).toNat 0⟩

/-- `for i := 0; i < n; i++ { c[i] = f(c[i], o[i]) }`, the loop of `Or` and `Sub`. -/
def combine (f : UInt64 → UInt64 → UInt64) (c o : List UInt64) : ℕ → Except String (List UInt64)
  | 0 => pure c
  | n + 1 => do
    let c ← combine f c o n
    let x ← Slice.get c n
    let y ← Slice.get o n
    Slice.set c n (f x y)

/-- The indices `cur + j`, `j < k`, of the set bits of `w`, in increasing
order: the inner loop of `getTrueIndices`. -/
def wordIndices (w : UInt64) (cur : ℤ) : ℕ → List ℤ
  | 0 => []
  | k + 1 => wordIndices w cur k ++ (if w &&& mask k > 0 then [cur + k] else [])

/-- The loop of `getTrueIndices` over every word but the last, from bit `cur`:
the indices found and the bit it stops at. -/
def frontIndices : List UInt64 → ℤ → List ℤ × ℤ
  | [], cur => ([], cur)
  | w :: ws, cur =>
    -- `if elem == 0 { curBit += 64; continue }`
    let found := if w = 0 then [] else wordIndices w cur 64
    let rest := frontIndices ws (cur + 64)
    (found ++ rest.1, rest.2)

/-- `tmprotobits.BitArray`, the wire form: the two fields, read independently. -/
structure PbBitArray where
  bits : ℤ
  elems : List UInt64
deriving DecidableEq, Repr

/-- A wire bit array as `ToProto` sends a well-formed one: a positive size and
its words. -/
def PbBitArray.WellFormed (p : PbBitArray) : Prop := 0 < p.bits ∧ (p.elems.length : ℤ) = numWords p.bits

namespace BitArray

/-- `getIndex`. -/
def getIndex (bA : BitArray) (i : ℤ) : Except String Bool :=
  if i ≥ bA.bits then pure false else do
    let w ← Slice.get bA.elems (i.tdiv 64)
    pure (w &&& mask (i.tmod 64) > 0)

/-- `setIndex`: the array after the write, and whether `i` is below the size. -/
def setIndex (bA : BitArray) (i : ℤ) (v : Bool) : Except String (BitArray × Bool) :=
  if i ≥ bA.bits then pure (bA, false) else do
    let w ← Slice.get bA.elems (i.tdiv 64)
    let w := if v then w ||| mask (i.tmod 64) else w &&& ~~~mask (i.tmod 64)
    let elems ← Slice.set bA.elems (i.tdiv 64) w
    pure ({ bA with elems }, true)

/-- `copy`. -/
def copy (bA : BitArray) : BitArray :=
  ⟨bA.bits, Slice.copy (List.replicate bA.elems.length 0) bA.elems⟩

/-- `copyBits`: the words for `bits` bits, the first ones copied from `bA`. -/
def copyBits (bA : BitArray) (bits : ℤ) : Except String BitArray := do
  let c ← Slice.make 0 (numWords bits)
  pure ⟨bits, Slice.copy c bA.elems⟩

/-- `Or` of two non-nil arrays. -/
def or (bA o : BitArray) : Except String BitArray := do
  let c ← bA.copyBits (max bA.bits o.bits)
  let elems ← combine (· ||| ·) c.elems o.elems (min bA.elems.length o.elems.length)
  pure { c with elems }

/-- `Sub` of two non-nil arrays: `bA` and not `o`, at the size of `bA`. -/
def sub (bA o : BitArray) : Except String BitArray := do
  let c ← bA.copyBits bA.bits
  let elems ← combine (fun x y => x &&& ~~~y) c.elems o.elems (min bA.elems.length o.elems.length)
  pure { c with elems }

/-- `not`. -/
def not (bA : BitArray) : BitArray :=
  let c := bA.copy
  { c with elems := c.elems.map (~~~·) }

/-- `Update` of two non-nil arrays: `copy(bA.Elems, o.Elems)`. -/
def update (bA o : BitArray) : BitArray := { bA with elems := Slice.copy bA.elems o.elems }

/-- `getTrueIndices`. -/
def getTrueIndices (bA : BitArray) : Except String (List ℤ) := do
  -- `make([]int, 0, bA.Bits)`
  if bA.bits < 0 then throw "runtime error: makeslice: cap out of range"
  let numElems := bA.elems.length
  let front := frontIndices (bA.elems.take (numElems - 1)) 0
  let lastElem ← Slice.get bA.elems ((numElems : ℤ) - 1)
  pure (front.1 ++ wordIndices lastElem front.2 (bA.bits - front.2).toNat)

/-- `FromProto`, decoding into the receiver `bA`: the size always, the words
only if the wire has some.  On a nil message it assigns nil to its own copy of
the receiver pointer, which leaves the receiver as it was. -/
def fromProto (bA : BitArray) : Option PbBitArray → BitArray
  | none => bA
  | some p => ⟨p.bits, if p.elems.length > 0 then p.elems else bA.elems⟩

/-- `IsEmpty` of a non-nil array: no word is positive. -/
def isEmpty (bA : BitArray) : Bool := !bA.elems.any (· > 0)

/-- Bit `i` of the words, `i % 64` of word `i / 64`; a missing word reads as zero. -/
def bit (bA : BitArray) (i : ℕ) : Bool := (bA.elems.getD (i / 64) 0).toNat.testBit (i % 64)

/-- The words of the size, with every bit past the size clear. -/
structure Tidy (bA : BitArray) : Prop where
  length_elems : (bA.elems.length : ℤ) = numWords bA.bits
  padding : ∀ i : ℕ, bA.bits ≤ i → bA.bit i = false

/-- A bit array as `NewBitArray` builds it: a positive size and exactly the
words for it. -/
structure WellFormed (bA : BitArray) : Prop where
  bits_pos : 0 < bA.bits
  length_elems : (bA.elems.length : ℤ) = numWords bA.bits

instance (bA : BitArray) : Decidable bA.WellFormed :=
  decidable_of_iff (0 < bA.bits ∧ (bA.elems.length : ℤ) = numWords bA.bits)
    ⟨fun h => ⟨h.1, h.2⟩, fun h => ⟨h.1, h.2⟩⟩

end BitArray

namespace Ptr

/-- `Size`. -/
def size : Option BitArray → ℤ
  | none => 0
  | some bA => bA.bits

/-- `GetIndex`. -/
def getIndex : Option BitArray → ℤ → Except String Bool
  | none, _ => pure false
  | some bA, i => bA.getIndex i

/-- `SetIndex`: the array after the write, and whether the bit was set. -/
def setIndex : Option BitArray → ℤ → Bool → Except String (Option BitArray × Bool)
  | none, _, _ => pure (none, false)
  | some bA, i, v => (fun r => (some r.1, r.2)) <$> bA.setIndex i v

/-- `Copy`. -/
def copy : Option BitArray → Option BitArray := Option.map BitArray.copy

/-- `Or`. -/
def or : Option BitArray → Option BitArray → Except String (Option BitArray)
  | none, none => pure none
  | none, some o => pure (some o.copy)
  | some bA, none => pure (some bA.copy)
  | some bA, some o => some <$> bA.or o

/-- `Sub`. -/
def sub : Option BitArray → Option BitArray → Except String (Option BitArray)
  | some bA, some o => some <$> bA.sub o
  | _, _ => pure none

/-- `Not`. -/
def not : Option BitArray → Option BitArray := Option.map BitArray.not

/-- `Update`: the receiver after the copy. -/
def update : Option BitArray → Option BitArray → Option BitArray
  | some bA, some o => some (bA.update o)
  | bA, _ => bA

/-- `PickRandom`, with `intn` for `tmrand.Intn`. -/
def pickRandom (intn : ℕ → ℕ) : Option BitArray → Except String (ℤ × Bool)
  | none => pure (0, false)
  | some bA => do
    let trueIndices ← bA.getTrueIndices
    if trueIndices.length = 0 then pure (0, false)
    else do
      let i ← Slice.get trueIndices (intn trueIndices.length)
      pure (i, true)

/-- `ToProto`: nil for a nil array or one without words. -/
def toProto : Option BitArray → Option PbBitArray
  | some bA => if bA.elems.length = 0 then none else some ⟨bA.bits, bA.elems⟩
  | none => none

/-- A `*BitArray` that `NewBitArray` could have returned: nil, or well formed. -/
def WellFormed (p : Option BitArray) : Prop := ∀ bA, p = some bA → bA.WellFormed

instance : DecidablePred WellFormed := fun p =>
  match p with
  | none => isTrue (by simp [WellFormed])
  | some bA => decidable_of_iff bA.WellFormed (by simp [WellFormed])

end Ptr

/-! ## Arithmetic of the word index -/

/-- For a size that is not negative, `numWords` is a floor division. -/
theorem numWords_of_nonneg {bits : ℤ} (h : 0 ≤ bits) : numWords bits = (bits + 63) / 64 :=
  Int.tdiv_eq_ediv_of_nonneg (by omega)

theorem numWords_pos {bits : ℤ} (h : 0 < bits) : 0 < numWords bits := by
  rw [numWords_of_nonneg (Int.le_of_lt h)]
  omega

/-- A bit below the size lies in one of its words. -/
theorem tdiv_lt_numWords {bits i : ℤ} (h0 : 0 ≤ i) (h : i < bits) :
    0 ≤ i.tdiv 64 ∧ i.tdiv 64 < numWords bits := by
  rw [numWords_of_nonneg (by omega), Int.tdiv_eq_ediv_of_nonneg h0]
  omega

theorem numWords_mono {a b : ℤ} (h : a ≤ b) (ha : 0 ≤ a) : numWords a ≤ numWords b := by
  rw [numWords_of_nonneg ha, numWords_of_nonneg (by omega)]
  omega

/-- `newBitArray` builds what `Ptr.WellFormed` asks for. -/
theorem newBitArray_wellFormed (bits : ℤ) : Ptr.WellFormed (newBitArray bits) := by
  intro bA h
  unfold newBitArray at h
  split at h
  · cases h
  · rename_i hpos
    cases h
    have hbits : 0 < bits := by omega
    have hw := numWords_pos hbits
    exact ⟨hbits, by simp; omega⟩

/-! ## The loops -/

/-- The loop of `Or` and `Sub` does not panic while both slices cover it, and
keeps the length of the slice it writes. -/
theorem combine_ok (f : UInt64 → UInt64 → UInt64) {c o : List UInt64} {n : ℕ}
    (hc : n ≤ c.length) (ho : n ≤ o.length) :
    ∃ c', combine f c o n = .ok c' ∧ c'.length = c.length := by
  induction n with
  | zero => exact ⟨c, rfl, rfl⟩
  | succ n ih =>
    obtain ⟨c', hstep, hlen⟩ := ih (by omega) (by omega)
    have hc' : Slice.InRange c' n := ⟨by omega, by omega⟩
    obtain ⟨x, hx⟩ := Slice.get_ok_of_inRange hc'
    obtain ⟨y, hy⟩ := Slice.get_ok_of_inRange (show Slice.InRange o n from ⟨by omega, by omega⟩)
    have hset := Slice.set_ok_of_inRange hc' (f x y)
    refine ⟨c'.set n (f x y), ?_, by simp [hlen]⟩
    simp only [combine, hstep, hx, hy, hset, Int.toNat_natCast, bind, Except.bind]

namespace BitArray

variable {bA o : BitArray}

/-! ## A well-formed array never panics -/

theorem WellFormed.setIndex_ok (h : bA.WellFormed) {i : ℤ} (hi : 0 ≤ i) (v : Bool) :
    ∃ bA' b, bA.setIndex i v = .ok (bA', b) ∧ bA'.WellFormed := by
  unfold setIndex
  split
  · exact ⟨bA, false, rfl, h⟩
  · rename_i hlt
    have hw := tdiv_lt_numWords hi (show i < bA.bits by omega)
    have hin : Slice.InRange bA.elems (i.tdiv 64) := ⟨hw.1, by rw [h.length_elems]; exact hw.2⟩
    obtain ⟨w, hw'⟩ := Slice.get_ok_of_inRange hin
    refine ⟨⟨bA.bits, bA.elems.set (i.tdiv 64).toNat
      (if v then w ||| mask (i.tmod 64) else w &&& ~~~mask (i.tmod 64))⟩, true, ?_, ⟨h.bits_pos, ?_⟩⟩
    · simp only [hw', Slice.set_ok_of_inRange hin, bind, Except.bind, pure, Except.pure]
    · simpa using h.length_elems

@[simp] theorem copy_eq (bA : BitArray) : bA.copy = bA := by
  cases bA with
  | mk bits elems => simp [copy, Slice.copy]

theorem copyBits_ok (bA : BitArray) {bits : ℤ} (hbits : 0 ≤ bits) :
    bA.copyBits bits = .ok ⟨bits, Slice.copy (List.replicate (numWords bits).toNat 0) bA.elems⟩ := by
  have hw : 0 ≤ numWords bits := by rw [numWords_of_nonneg hbits]; omega
  simp [copyBits, Slice.make_of_nonneg (0 : UInt64) hw, bind, Except.bind, pure, Except.pure]

theorem WellFormed.or_ok (h : bA.WellFormed) (o : BitArray) : ∃ c, bA.or o = .ok c ∧ c.WellFormed := by
  have hpos : 0 < max bA.bits o.bits := by have := h.bits_pos; omega
  have hw := numWords_pos hpos
  have hbA := numWords_mono (show bA.bits ≤ max bA.bits o.bits by omega) (Int.le_of_lt h.bits_pos)
  have hc := copyBits_ok bA (Int.le_of_lt hpos)
  obtain ⟨elems, hcomb, hlen⟩ := combine_ok (· ||| ·)
    (c := Slice.copy (List.replicate (numWords (max bA.bits o.bits)).toNat 0) bA.elems) (o := o.elems)
    (n := min bA.elems.length o.elems.length)
    (by have := h.length_elems; simp; omega) (Nat.min_le_right _ _)
  refine ⟨⟨max bA.bits o.bits, elems⟩, ?_, ⟨hpos, ?_⟩⟩
  · simp only [or, hc, hcomb, bind, Except.bind, pure, Except.pure]
  · simp only [hlen, Slice.length_copy, List.length_replicate]
    omega

theorem WellFormed.sub_ok (h : bA.WellFormed) (o : BitArray) : ∃ c, bA.sub o = .ok c ∧ c.WellFormed := by
  have hw := numWords_pos h.bits_pos
  have hc := copyBits_ok bA (Int.le_of_lt h.bits_pos)
  obtain ⟨elems, hcomb, hlen⟩ := combine_ok (fun x y => x &&& ~~~y)
    (c := Slice.copy (List.replicate (numWords bA.bits).toNat 0) bA.elems) (o := o.elems)
    (n := min bA.elems.length o.elems.length)
    (by have := h.length_elems; simp; omega) (Nat.min_le_right _ _)
  refine ⟨⟨bA.bits, elems⟩, ?_, ⟨h.bits_pos, ?_⟩⟩
  · simp only [sub, hc, hcomb, bind, Except.bind, pure, Except.pure]
  · simp only [hlen, Slice.length_copy, List.length_replicate]
    omega

theorem WellFormed.not (h : bA.WellFormed) : bA.not.WellFormed :=
  ⟨by simpa [BitArray.not] using h.bits_pos, by simpa [BitArray.not] using h.length_elems⟩

theorem WellFormed.update (h : bA.WellFormed) (o : BitArray) : (bA.update o).WellFormed :=
  ⟨h.bits_pos, by simpa [BitArray.update] using h.length_elems⟩

/-! ## Words and bits -/

theorem toNat_mask {j : ℤ} (h0 : 0 ≤ j) (hj : j < 64) : (mask j).toNat = 2 ^ j.toNat := by
  have hj' : j.toNat < 64 := by omega
  have hmod : j.toNat.toUInt64.toNat = j.toNat := by
    rw [Nat.toUInt64, UInt64.toNat_ofNat']
    omega
  simp only [mask, if_pos (And.intro h0 hj), UInt64.toNat_shiftLeft, UInt64.reduceToNat, hmod,
    Nat.mod_eq_of_lt hj', Nat.one_shiftLeft,
    Nat.mod_eq_of_lt (Nat.pow_lt_pow_right (by decide : 1 < 2) hj')]

theorem toNat_and_mask (w : UInt64) {j : ℤ} (h0 : 0 ≤ j) (hj : j < 64) :
    (w &&& mask j).toNat = (w.toNat.testBit j.toNat).toNat * 2 ^ j.toNat := by
  rw [UInt64.toNat_and, toNat_mask h0 hj, Nat.and_two_pow]

/-- The test `w & (1 << j) > 0` of the code reads bit `j` of the word. -/
theorem and_mask_pos_iff (w : UInt64) {j : ℤ} (h0 : 0 ≤ j) (hj : j < 64) :
    w &&& mask j > 0 ↔ w.toNat.testBit j.toNat = true := by
  rw [gt_iff_lt, UInt64.lt_iff_toNat_lt, toNat_and_mask w h0 hj]
  cases w.toNat.testBit j.toNat
  · simp
  · rw [Bool.toNat_true, one_mul, UInt64.toNat_zero]
    exact iff_of_true (Nat.two_pow_pos _) rfl

theorem testBit_not (w : UInt64) {j : ℕ} (hj : j < 64) :
    (~~~w).toNat.testBit j = !w.toNat.testBit j := by
  rw [← UInt64.toNat_toBitVec, ← UInt64.toNat_toBitVec, BitVec.testBit_toNat,
    BitVec.testBit_toNat, UInt64.toBitVec_not, BitVec.getLsbD_not]
  simp [hj]

/-- At or past the size, `getIndex` reads false without touching the words. -/
theorem getIndex_of_le {i : ℤ} (hi : bA.bits ≤ i) : bA.getIndex i = .ok false := by
  rw [getIndex, if_pos hi]
  rfl

/-- `getIndex` below the size of a well-formed array reads `bit`. -/
theorem WellFormed.getIndex_eq_bit (h : bA.WellFormed) {i : ℕ} (hi : (i : ℤ) < bA.bits) :
    bA.getIndex i = .ok (bA.bit i) := by
  obtain ⟨hi0, hilt⟩ := tdiv_lt_numWords (Int.natCast_nonneg i) hi
  have hlen := h.length_elems
  have hdiv : (i : ℤ).tdiv 64 = ((i / 64 : ℕ) : ℤ) := by
    rw [Int.tdiv_eq_ediv_of_nonneg (Int.natCast_nonneg i)]
    omega
  have hmod : (i : ℤ).tmod 64 = ((i % 64 : ℕ) : ℤ) := by
    rw [Int.tmod_eq_emod_of_nonneg (Int.natCast_nonneg i)]
    omega
  have hin : i / 64 < bA.elems.length := by omega
  have hget : Slice.get bA.elems ((i / 64 : ℕ) : ℤ) = .ok bA.elems[i / 64] :=
    Slice.get_eq_ok_iff.mpr ⟨by omega, by rw [Int.toNat_natCast, List.getElem?_eq_getElem hin]⟩
  rw [getIndex, if_neg (by omega), hdiv, hmod, hget]
  simp only [bind, Except.bind, pure, Except.pure, Except.ok.injEq, bit,
    List.getD_eq_getElem _ _ hin]
  rw [Bool.eq_iff_iff, decide_eq_true_iff, and_mask_pos_iff _ (by omega) (by omega),
    Int.toNat_natCast]

/-- `w | (1 << k)` sets bit `k` of the word and no other. -/
theorem testBit_or_mask (w : UInt64) {k : ℕ} (hk : k < 64) (m : ℕ) :
    (w ||| mask k).toNat.testBit m = (w.toNat.testBit m || decide (m = k)) := by
  rw [UInt64.toNat_or, Nat.testBit_or, toNat_mask (by omega) (by omega), Int.toNat_natCast,
    Nat.testBit_two_pow]
  simp [eq_comm]

/-- Setting bit `i` below the size of a well-formed array sets that bit and no other. -/
theorem WellFormed.setIndex_true (h : bA.WellFormed) {i : ℕ} (hi : (i : ℤ) < bA.bits) :
    ∃ bA', bA.setIndex i true = .ok (bA', true) ∧ bA'.WellFormed ∧ bA'.bits = bA.bits ∧
      ∀ j, bA'.bit j = (bA.bit j || decide (j = i)) := by
  obtain ⟨hi0, hilt⟩ := tdiv_lt_numWords (Int.natCast_nonneg i) hi
  have hlen := h.length_elems
  have hdiv : (i : ℤ).tdiv 64 = ((i / 64 : ℕ) : ℤ) := by
    rw [Int.tdiv_eq_ediv_of_nonneg (Int.natCast_nonneg i)]
    omega
  have hmod : (i : ℤ).tmod 64 = ((i % 64 : ℕ) : ℤ) := by
    rw [Int.tmod_eq_emod_of_nonneg (Int.natCast_nonneg i)]
    omega
  have hin : i / 64 < bA.elems.length := by omega
  have hrange : Slice.InRange bA.elems ((i / 64 : ℕ) : ℤ) := ⟨by omega, by omega⟩
  have hget : Slice.get bA.elems ((i / 64 : ℕ) : ℤ) = .ok bA.elems[i / 64] :=
    Slice.get_eq_ok_iff.mpr ⟨by omega, by rw [Int.toNat_natCast, List.getElem?_eq_getElem hin]⟩
  let w := bA.elems[i / 64] ||| mask ((i % 64 : ℕ) : ℤ)
  refine ⟨⟨bA.bits, bA.elems.set (i / 64) w⟩, ?_, ⟨h.bits_pos, by simpa using hlen⟩, rfl,
    fun j ↦ ?_⟩
  · rw [setIndex, if_neg (by omega), hdiv, hmod, hget]
    simp only [bind, Except.bind, if_true, Slice.set_ok_of_inRange hrange, Int.toNat_natCast,
      pure, Except.pure]
    rfl
  · by_cases hw : i / 64 = j / 64
    · have hnew : (bA.elems.set (i / 64) w).getD (j / 64) 0 = w := by
        rw [← hw, List.getD_eq_getElem?_getD, List.getElem?_set_self (by omega), Option.getD_some]
      have hold : bA.elems.getD (j / 64) 0 = bA.elems[i / 64] := by
        rw [← hw, List.getD_eq_getElem _ _ hin]
      rw [bit, bit, hnew, hold, testBit_or_mask _ (Nat.mod_lt i (by decide))]
      congr 1
      exact decide_eq_decide.mpr (by omega)
    · have hji : j ≠ i := fun h ↦ hw (by rw [h])
      simp [bit, List.getD_eq_getElem?_getD, hw, hji]

/-- `Not` complements every bit of every word, those past the size included. -/
theorem bit_not {i : ℕ} (hi : i / 64 < bA.elems.length) : bA.not.bit i = !bA.bit i := by
  have hnot : bA.not.elems = bA.elems.map (~~~·) := by simp [BitArray.not]
  have hi' : i / 64 < bA.not.elems.length := by simpa [hnot] using hi
  rw [bit, bit, List.getD_eq_getElem _ _ hi', List.getD_eq_getElem _ _ hi]
  simp only [hnot, List.getElem_map]
  exact testBit_not _ (Nat.mod_lt _ (by decide))

/-- An array whose size leaves padding bits in its last word is not tidy after
`Not`: the first padding bit is set. -/
theorem not_breaks_tidy (h : bA.Tidy) (hpos : 0 < bA.bits) (hpad : bA.bits % 64 ≠ 0) :
    ¬ bA.not.Tidy := by
  intro hnot
  have hlen := h.length_elems
  rw [numWords_of_nonneg (Int.le_of_lt hpos)] at hlen
  have hin : bA.bits.toNat / 64 < bA.elems.length := by omega
  have hclear := h.padding bA.bits.toNat (by omega)
  have hbits : bA.not.bits = bA.bits := rfl
  have hset := hnot.padding bA.bits.toNat (by rw [hbits]; omega)
  rw [bit_not hin, hclear] at hset
  exact Bool.noConfusion hset

/-- One bit in one word: the array is tidy, its complement is not.  The
complement of the full one-bit array has its only bit clear, yet `IsEmpty`
sees the set padding bits. -/
theorem not_breaks_tidy_one_bit :
    (⟨1, [0]⟩ : BitArray).Tidy ∧ ¬ (⟨1, [0]⟩ : BitArray).not.Tidy ∧
      (⟨1, [1]⟩ : BitArray).not.getIndex 0 = .ok false ∧
      (⟨1, [1]⟩ : BitArray).not.isEmpty = false := by
  have h : (⟨1, [0]⟩ : BitArray).Tidy := by
    refine ⟨by decide, fun i _ ↦ ?_⟩
    rcases Nat.eq_zero_or_pos (i / 64) with h0 | h0 <;>
      simp [bit, h0, List.getD_eq_getElem?_getD]
  exact ⟨h, not_breaks_tidy h (by decide) (by decide), rfl, by decide⟩

/-! ## Decoding -/

/-- Decoding into a fresh array, as `MsgFromProto` does, copies both fields. -/
@[simp] theorem fromProto_new (p : PbBitArray) : (BitArray.mk 0 []).fromProto (some p) = ⟨p.bits, p.elems⟩ := by
  cases p with
  | mk bits elems => cases elems <;> simp [fromProto]

/-- What is decoded is well formed exactly when the wire's words are those of its size. -/
theorem fromProto_new_wellFormed_iff (p : PbBitArray) :
    ((BitArray.mk 0 []).fromProto (some p)).WellFormed ↔
      0 < p.bits ∧ (p.elems.length : ℤ) = numWords p.bits := by
  rw [fromProto_new]
  exact ⟨fun h => ⟨h.bits_pos, h.length_elems⟩, fun h => ⟨h.1, h.2⟩⟩

/-! ## An array whose words are missing panics -/

/-- Writing a bit below the size of an array with no words panics. -/
theorem setIndex_of_elems_nil (he : bA.elems = []) {i : ℤ} (hlt : i < bA.bits)
    (v : Bool) : bA.setIndex i v = .error (Slice.indexOutOfRange (i.tdiv 64) 0) := by
  simp [setIndex, Int.not_le.mpr hlt, he, bind, Except.bind]

/-- Listing the set bits of an array with no words reads its last word,
`Elems[-1]`, and panics. -/
theorem getTrueIndices_of_elems_nil (he : bA.elems = []) (hbits : 0 ≤ bA.bits) :
    bA.getTrueIndices = .error (Slice.indexOutOfRange (-1) 0) := by
  simp [getTrueIndices, Int.not_lt.mpr hbits, he, bind, Except.bind]

end BitArray

namespace Ptr

variable {p q : Option BitArray}

/-! ## The same for a `*BitArray` -/

theorem wellFormed_none : WellFormed none := by simp [WellFormed]

theorem wellFormed_some {bA : BitArray} : WellFormed (some bA) ↔ bA.WellFormed := by
  simp [WellFormed]

theorem setIndex_ok (h : WellFormed p) {i : ℤ} (hi : 0 ≤ i) (v : Bool) :
    ∃ p' b, setIndex p i v = .ok (p', b) ∧ WellFormed p' := by
  cases p with
  | none => exact ⟨none, false, rfl, wellFormed_none⟩
  | some bA =>
    obtain ⟨bA', b, hset, hwf⟩ := (wellFormed_some.mp h).setIndex_ok hi v
    exact ⟨some bA', b, by simp [setIndex, hset], wellFormed_some.mpr hwf⟩

theorem sub_ok (h : WellFormed p) (q : Option BitArray) :
    ∃ r, sub p q = .ok r ∧ WellFormed r := by
  cases p with
  | none => exact ⟨none, by cases q <;> rfl, wellFormed_none⟩
  | some bA =>
    cases q with
    | none => exact ⟨none, rfl, wellFormed_none⟩
    | some o =>
      obtain ⟨c, hc, hwf⟩ := (wellFormed_some.mp h).sub_ok o
      exact ⟨some c, by simp [sub, hc], wellFormed_some.mpr hwf⟩

/-- `Or` with a well-formed receiver does not panic, whatever the other array. -/
theorem or_some_ok {bA : BitArray} (h : bA.WellFormed) (q : Option BitArray) :
    ∃ r, or (some bA) q = .ok r := by
  cases q with
  | none => exact ⟨some bA.copy, rfl⟩
  | some o =>
    obtain ⟨c, hc, -⟩ := h.or_ok o
    exact ⟨some c, by simp [or, hc]⟩

/-- `SetIndex` below the size of an array with no words panics. -/
theorem setIndex_of_elems_nil {bA : BitArray} (he : bA.elems = []) {i : ℤ} (hlt : i < bA.bits)
    (v : Bool) : setIndex (some bA) i v = .error (Slice.indexOutOfRange (i.tdiv 64) 0) := by
  simp [setIndex, BitArray.setIndex_of_elems_nil he hlt v]

/-- `PickRandom` of the complement of an array with no words panics. -/
theorem pickRandom_not_of_elems_nil (intn : ℕ → ℕ) {bA : BitArray} (he : bA.elems = [])
    (hbits : 0 ≤ bA.bits) : pickRandom intn (not (some bA)) = .error (Slice.indexOutOfRange (-1) 0) := by
  have hnot : bA.not.getTrueIndices = .error (Slice.indexOutOfRange (-1) 0) :=
    BitArray.getTrueIndices_of_elems_nil (by simp [BitArray.not, he]) (by simpa [BitArray.not] using hbits)
  simp [pickRandom, not, hnot, bind, Except.bind]

theorem update_wellFormed (h : WellFormed p) (q : Option BitArray) : WellFormed (update p q) := by
  cases p with
  | none => cases q <;> exact h
  | some bA =>
    cases q with
    | none => exact h
    | some o => exact wellFormed_some.mpr ((wellFormed_some.mp h).update o)

end Ptr

end Tenderdash.Bits
