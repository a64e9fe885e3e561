import Mathlib
import Tenderdash.Bits.BitArray
import Tenderdash.Types.Basic

/-!
# The JSON form of a bit array

`MarshalJSON` writes a bit array as a JSON string with one byte per bit, `x` for a set
bit and `_` for a clear one, and `null` for a nil array.  `UnmarshalJSON` checks a string
against `\A"([_x]*)"\z`, builds a fresh array of that many bits with `NewBitArray`, sets
the bits marked `x`, and copies the result over its receiver; `null` empties the
receiver.

`unmarshalJSON_marshalJSON` is the round trip: a well-formed array reads back with the
same size and the same bits at every index, and marshals to the same bytes again.
Decoding never panics on the way (`unmarshalBits_spec`), but the copy does once: the
empty bit string `""` asks for `NewBitArray(0)`, which is nil, and `*bA = *bA2`
dereferences it (`unmarshalJSON_panic_iff`).
-/

namespace Tenderdash.Bits

/-- The bytes of `null`. -/
def nullBytes : Bytes := ['n', 'u', 'l', 'l'].map Char.toUInt8

/-- The byte `MarshalJSON` writes for a bit. -/
def bitDigit (b : Bool) : UInt8 := if b then 'x'.toUInt8 else '_'.toUInt8

namespace BitArray

/-- The loop of `MarshalJSON`, for the `n` bits from bit `i` on. -/
def marshalBits (bA : BitArray) (i : ℕ) : ℕ → Except String Bytes
  | 0 => pure []
  | n + 1 => do
    let b ← bA.getIndex i
    let rest ← bA.marshalBits (i + 1) n
    pure (bitDigit b :: rest)

/-- The loop of `UnmarshalJSON`: `SetIndex(i, true)` for each `x`, from bit `i` on. -/
def unmarshalBits (bA : BitArray) (i : ℕ) : Bytes → Except String BitArray
  | [] => pure bA
  | c :: cs =>
    (if c = 'x'.toUInt8 then Prod.fst <$> bA.setIndex i true else pure bA) >>=
      fun bA ↦ bA.unmarshalBits (i + 1) cs

end BitArray

namespace Ptr

/-- `MarshalJSON`: `null` for a nil array, else its bits between quotes. -/
def marshalJSON : Option BitArray → Except String Bytes
  | none => pure nullBytes
  | some bA => do
    let bits ← bA.marshalBits 0 bA.bits.toNat
    pure ('"'.toUInt8 :: (bits ++ ['"'.toUInt8]))

end Ptr

/-- `bitArrayJSONRegexp.FindStringSubmatch(b)[1]` for `\A"([_x]*)"\z`: the bytes between
the quotes, when those are all `_` or `x`.  A byte of no valid UTF-8 sequence reads as
U+FFFD, which the pattern does not match either. -/
def matchBits : Bytes → Option Bytes
  | q :: rest =>
    if q = '"'.toUInt8 ∧ rest.getLast? = some '"'.toUInt8 ∧
        ∀ c ∈ rest.dropLast, c = '_'.toUInt8 ∨ c = 'x'.toUInt8 then some rest.dropLast
    else none
  | [] => none

/-- The error `UnmarshalJSON` returns for what the pattern does not match: the pattern as
`%q` writes it, and the input. -/
def formatError (b : Bytes) : Bytes :=
  "bitArray in JSON should be a string of format \"\\\\A\\\"([_x]*)\\\"\\\\z\" but got ".toList.map
    Char.toUInt8 ++ b

namespace BitArray

/-- `UnmarshalJSON` into the array `bA`: `null` empties it, and a string of `_` and `x`
replaces it by a fresh array of that many bits.  `NewBitArray(0)` is nil, so for the empty
string `*bA = *bA2` reads through a nil pointer. -/
def unmarshalJSON (bA : BitArray) (bz : Bytes) : Except (Fault Bytes) BitArray :=
  if bz = nullBytes then pure { bA with bits := 0, elems := [] }
  else
    match matchBits bz with
    | none => .error (.error (formatError bz))
    | some bits =>
      match newBitArray bits.length with
      | none => .error (.panic Slice.nilDereference)
      | some bA2 => (bA2.unmarshalBits 0 bits).mapError .panic

/-! ## Writing -/

variable {bA r : BitArray}

theorem bitDigit_eq_x_iff (b : Bool) : bitDigit b = 'x'.toUInt8 ↔ b = true := by
  cases b <;> decide

theorem bitDigit_mem (b : Bool) : bitDigit b = '_'.toUInt8 ∨ bitDigit b = 'x'.toUInt8 := by
  cases b
  · exact .inl rfl
  · exact .inr rfl

/-- Over the bits of a well-formed array, the loop of `MarshalJSON` writes their digits. -/
theorem WellFormed.marshalBits_eq (h : bA.WellFormed) :
    ∀ (n i : ℕ), ((i + n : ℕ) : ℤ) ≤ bA.bits →
      bA.marshalBits i n = .ok ((List.range' i n).map fun j ↦ bitDigit (bA.bit j))
  | 0, i, _ => rfl
  | n + 1, i, hle => by
    rw [marshalBits, h.getIndex_eq_bit (by omega), h.marshalBits_eq n (i + 1) (by omega)]
    rfl

/-- `MarshalJSON` of a well-formed array: the digit of each bit, between quotes. -/
theorem WellFormed.marshalJSON_eq (h : bA.WellFormed) :
    Ptr.marshalJSON (some bA) = .ok ('"'.toUInt8 ::
      ((List.range' 0 bA.bits.toNat).map (fun j ↦ bitDigit (bA.bit j)) ++ ['"'.toUInt8])) := by
  have hpos := h.bits_pos
  rw [Ptr.marshalJSON, h.marshalBits_eq bA.bits.toNat 0 (by omega)]
  rfl

/-! ## Matching -/

theorem matchBits_quote {cs : Bytes} (hcs : ∀ c ∈ cs, c = '_'.toUInt8 ∨ c = 'x'.toUInt8) :
    matchBits ('"'.toUInt8 :: (cs ++ ['"'.toUInt8])) = some cs := by
  simp only [matchBits, List.getLast?_concat, List.dropLast_concat, true_and, if_pos hcs]

/-- What the pattern matches is its bits between quotes. -/
theorem eq_of_matchBits {b cs : Bytes} (h : matchBits b = some cs) :
    b = '"'.toUInt8 :: (cs ++ ['"'.toUInt8]) := by
  match b, h with
  | q :: rest, h =>
    simp only [matchBits] at h
    split at h
    · rename_i hq
      obtain ⟨rfl, hlast, -⟩ := hq
      cases h
      rw [List.dropLast_append_getLast? _ hlast]
    · cases h

theorem quote_ne_nullBytes (cs : Bytes) : '"'.toUInt8 :: cs ≠ nullBytes := fun h ↦
  absurd (congrArg List.head? h) (by rw [List.head?_cons]; decide)

/-! ## Reading -/

theorem bit_of_newBitArray {n : ℤ} (h : newBitArray n = some bA) (j : ℕ) : bA.bit j = false := by
  unfold newBitArray at h
  split at h
  · cases h
  · cases h
    simp only [bit, List.getD_eq_getElem?_getD, List.getElem?_replicate]
    split <;> simp

/-- One round of the loop of `UnmarshalJSON`: bit `i` is set when its byte is `x`, and no
other bit changes. -/
theorem WellFormed.unmarshalStep (h : bA.WellFormed) {i : ℕ} (hi : (i : ℤ) < bA.bits)
    (c : UInt8) :
    ∃ bA', (if c = 'x'.toUInt8 then Prod.fst <$> bA.setIndex i true else pure bA) = .ok bA' ∧
      bA'.WellFormed ∧ bA'.bits = bA.bits ∧
      ∀ j, bA'.bit j = (bA.bit j || decide (j = i ∧ c = 'x'.toUInt8)) := by
  by_cases hc : c = 'x'.toUInt8
  · obtain ⟨bA', hset, hwf, hbits, hbit⟩ := h.setIndex_true hi
    refine ⟨bA', by rw [if_pos hc, hset]; rfl, hwf, hbits, fun j ↦ ?_⟩
    simp [hbit, hc]
  · exact ⟨bA, by rw [if_neg hc]; rfl, h, rfl, fun j ↦ by simp [hc]⟩

/-- Byte `j - i` of the bytes from bit `i` on: the first, or one of the rest. -/
theorem getElem?_cons_sub_iff {i j : ℕ} {c x : UInt8} {cs : Bytes} :
    (i ≤ j ∧ (c :: cs)[j - i]? = some x) ↔
      (j = i ∧ c = x) ∨ (i + 1 ≤ j ∧ cs[j - (i + 1)]? = some x) := by
  rcases lt_trichotomy j i with hji | rfl | hji
  · constructor
    · rintro ⟨hle, -⟩
      omega
    · rintro (⟨rfl, -⟩ | ⟨hle, -⟩) <;> omega
  · simp
  · have hsub : j - i = j - (i + 1) + 1 := by omega
    rw [hsub, List.getElem?_cons_succ]
    constructor
    · rintro ⟨-, hx⟩
      exact .inr ⟨hji, hx⟩
    · rintro (⟨rfl, -⟩ | ⟨-, hx⟩)
      · omega
      · exact ⟨by omega, hx⟩

/-- The loop of `UnmarshalJSON` from bit `i` on, over bytes that fit the array: it never
panics, and it sets exactly the bits whose byte is `x`. -/
theorem unmarshalBits_spec :
    ∀ (cs : Bytes) {bA : BitArray} (i : ℕ), bA.WellFormed → ((i + cs.length : ℕ) : ℤ) ≤ bA.bits →
      ∃ bA', bA.unmarshalBits i cs = .ok bA' ∧ bA'.WellFormed ∧ bA'.bits = bA.bits ∧
        ∀ j, bA'.bit j = (bA.bit j || decide (i ≤ j ∧ cs[j - i]? = some 'x'.toUInt8))
  | [], bA, _, h, _ => ⟨bA, rfl, h, rfl, fun j ↦ by simp⟩
  | c :: cs, bA, i, h, hle => by
    have hlen : ((c :: cs).length : ℕ) = cs.length + 1 := rfl
    obtain ⟨bA₁, hstep, h₁, hbits₁, hbit₁⟩ := h.unmarshalStep (i := i) (by omega) c
    obtain ⟨bA', hrest, h', hbits', hbit'⟩ :=
      unmarshalBits_spec cs (i + 1) h₁ (by rw [hbits₁]; omega)
    refine ⟨bA', by rw [unmarshalBits, hstep]; exact hrest, h', hbits'.trans hbits₁, fun j ↦ ?_⟩
    rw [hbit', hbit₁, Bool.or_assoc, ← Bool.decide_or]
    congr 1
    exact decide_eq_decide.mpr getElem?_cons_sub_iff.symm

/-! ## `UnmarshalJSON` -/

theorem unmarshalJSON_null : r.unmarshalJSON nullBytes = .ok ⟨0, []⟩ := by
  rw [unmarshalJSON, if_pos rfl]
  rfl

theorem unmarshalJSON_of_matchBits_none {bz : Bytes} (hnull : bz ≠ nullBytes)
    (hm : matchBits bz = none) : r.unmarshalJSON bz = .error (.error (formatError bz)) := by
  rw [unmarshalJSON, if_neg hnull, hm]

/-- The empty bit string: `NewBitArray(0)` is nil, and copying it over the receiver panics. -/
theorem unmarshalJSON_empty :
    r.unmarshalJSON ['"'.toUInt8, '"'.toUInt8] = .error (.panic Slice.nilDereference) := by
  have hm := @matchBits_quote [] fun c hc ↦ absurd hc List.not_mem_nil
  rw [List.nil_append] at hm
  have hnew : newBitArray (([] : Bytes).length : ℤ) = none := if_pos le_rfl
  rw [unmarshalJSON, if_neg (quote_ne_nullBytes _), hm]
  dsimp only
  rw [hnew]

/-- A string of `_` and `x` of at least one bit decodes to a well-formed array of that many
bits, bit `j` set exactly when byte `j` is `x`. -/
theorem unmarshalJSON_of_matchBits {bz bits : Bytes} (hnull : bz ≠ nullBytes)
    (hm : matchBits bz = some bits) (hne : bits ≠ []) :
    ∃ bA', r.unmarshalJSON bz = .ok bA' ∧ bA'.WellFormed ∧ (bA'.bits : ℤ) = bits.length ∧
      ∀ j, bA'.bit j = decide (bits[j]? = some 'x'.toUInt8) := by
  have hpos : (0 : ℤ) < bits.length := by
    have := List.length_pos_iff.mpr hne
    omega
  obtain ⟨bA₀, hnew⟩ : ∃ bA₀, newBitArray bits.length = some bA₀ := by
    simp [newBitArray, hne]
  have h₀ : bA₀.WellFormed := newBitArray_wellFormed _ bA₀ hnew
  have hbits₀ : bA₀.bits = bits.length := by
    simp only [newBitArray, Int.not_le.mpr hpos, if_false, Option.some.injEq] at hnew
    rw [← hnew]
  obtain ⟨bA', hloop, h', hbits', hbit'⟩ :=
    unmarshalBits_spec bits 0 h₀ (by rw [hbits₀]; simp)
  refine ⟨bA', ?_, h', hbits'.trans hbits₀, fun j ↦ ?_⟩
  · rw [unmarshalJSON, if_neg hnull, hm]
    dsimp only
    rw [hnew]
    dsimp only
    rw [hloop]
    rfl
  · rw [hbit', bit_of_newBitArray hnew, Bool.false_or]
    simp

/-- The four outcomes of `UnmarshalJSON`: `null` empties the array, what the pattern does
not match is an error, the empty bit string panics, and any other bit string gives a
well-formed array. -/
theorem unmarshalJSON_cases (bz : Bytes) :
    r.unmarshalJSON bz = .ok ⟨0, []⟩ ∨ (∃ e, r.unmarshalJSON bz = .error (.error e)) ∨
      (bz = ['"'.toUInt8, '"'.toUInt8] ∧
        r.unmarshalJSON bz = .error (.panic Slice.nilDereference)) ∨
      ∃ bA', r.unmarshalJSON bz = .ok bA' ∧ bA'.WellFormed := by
  by_cases hnull : bz = nullBytes
  · exact .inl (hnull ▸ unmarshalJSON_null)
  cases hm : matchBits bz with
  | none => exact .inr (.inl ⟨_, unmarshalJSON_of_matchBits_none hnull hm⟩)
  | some bits =>
    cases bits with
    | nil =>
      have hbz : bz = ['"'.toUInt8, '"'.toUInt8] := eq_of_matchBits hm
      exact .inr (.inr (.inl ⟨hbz, hbz ▸ unmarshalJSON_empty⟩))
    | cons c cs =>
      obtain ⟨bA', hdec, h', -⟩ := unmarshalJSON_of_matchBits hnull hm (List.cons_ne_nil c cs)
      exact .inr (.inr (.inr ⟨bA', hdec, h'⟩))

/-- Whatever `UnmarshalJSON` returns is the empty array of `null` or a well-formed one. -/
theorem unmarshalJSON_ok {bz : Bytes} {bA' : BitArray} (h : r.unmarshalJSON bz = .ok bA') :
    bA' = ⟨0, []⟩ ∨ bA'.WellFormed := by
  rcases unmarshalJSON_cases (r := r) bz with hd | ⟨e, hd⟩ | ⟨-, hd⟩ | ⟨bA'', hd, h''⟩ <;>
    rw [hd] at h
  · exact .inl (Except.ok.inj h).symm
  · cases h
  · cases h
  · exact .inr (Except.ok.inj h ▸ h'')

/-- `UnmarshalJSON` panics on the empty bit string and on nothing else. -/
theorem unmarshalJSON_panic_iff (bz : Bytes) :
    (∃ msg, r.unmarshalJSON bz = .error (.panic msg)) ↔ bz = ['"'.toUInt8, '"'.toUInt8] := by
  constructor
  · rintro ⟨msg, h⟩
    rcases unmarshalJSON_cases (r := r) bz with hd | ⟨e, hd⟩ | ⟨hbz, -⟩ | ⟨bA', hd, -⟩
    · rw [hd] at h
      cases h
    · rw [hd] at h
      cases h
    · exact hbz
    · rw [hd] at h
      cases h
  · rintro rfl
    exact ⟨_, unmarshalJSON_empty⟩

/-! ## The round trip -/

/-- Reading back what `MarshalJSON` writes of a well-formed array gives an array of the same
size with the same bit at every index, which marshals to the same bytes again. -/
theorem WellFormed.unmarshalJSON_marshalJSON (h : bA.WellFormed) (r : BitArray) :
    ∃ bz, Ptr.marshalJSON (some bA) = .ok bz ∧ ∃ bA', r.unmarshalJSON bz = .ok bA' ∧
      bA'.WellFormed ∧ bA'.bits = bA.bits ∧ (∀ i : ℤ, 0 ≤ i → bA'.getIndex i = bA.getIndex i) ∧
      Ptr.marshalJSON (some bA') = .ok bz := by
  have hpos := h.bits_pos
  let digits := (List.range' 0 bA.bits.toNat).map fun j ↦ bitDigit (bA.bit j)
  have hlen : digits.length = bA.bits.toNat := by simp [digits]
  have hm : matchBits ('"'.toUInt8 :: (digits ++ ['"'.toUInt8])) = some digits :=
    matchBits_quote fun c hc ↦ by
      obtain ⟨j, -, rfl⟩ := List.mem_map.mp hc
      exact bitDigit_mem _
  have hne : digits ≠ [] := fun he ↦ by
    rw [he, List.length_nil] at hlen
    omega
  obtain ⟨bA', hdec, h', hbits', hbit'⟩ :=
    unmarshalJSON_of_matchBits (r := r) (quote_ne_nullBytes _) hm hne
  have hbits : bA'.bits = bA.bits := by
    rw [hbits', hlen]
    omega
  have hsame : ∀ j : ℕ, (j : ℤ) < bA.bits → bA'.bit j = bA.bit j := by
    intro j hj
    have hj' : j < digits.length := by omega
    rw [hbit', List.getElem?_eq_getElem hj']
    simp [digits, bitDigit_eq_x_iff]
  refine ⟨_, h.marshalJSON_eq, bA', hdec, h', hbits, fun i hi ↦ ?_, ?_⟩
  · obtain ⟨j, rfl⟩ := Int.eq_ofNat_of_zero_le hi
    by_cases hj : (j : ℤ) < bA.bits
    · rw [h'.getIndex_eq_bit (by omega), h.getIndex_eq_bit hj, hsame j hj]
    · rw [getIndex_of_le (by omega), getIndex_of_le (by omega)]
  · rw [h'.marshalJSON_eq, hbits]
    congr 3
    apply List.map_congr_left
    intro j hj
    rw [hsame j (by simp at hj; omega)]

/-- The JSON form of a bit array: a well-formed array reads back with its size and its bits,
what is read is well formed or the empty array of `null`, and exactly the empty bit string
panics. -/
theorem bitArray_json_roundtrip (r : BitArray) :
    (∀ bA : BitArray, bA.WellFormed → ∃ bz, Ptr.marshalJSON (some bA) = .ok bz ∧
      ∃ bA', r.unmarshalJSON bz = .ok bA' ∧ bA'.WellFormed ∧ bA'.bits = bA.bits ∧
        ∀ i : ℤ, 0 ≤ i → bA'.getIndex i = bA.getIndex i) ∧
    (∀ bz bA', r.unmarshalJSON bz = .ok bA' → bA' = ⟨0, []⟩ ∨ bA'.WellFormed) ∧
    ∀ bz, (∃ msg, r.unmarshalJSON bz = .error (.panic msg)) ↔ bz = ['"'.toUInt8, '"'.toUInt8] := by
  refine ⟨fun bA h ↦ ?_, fun _ _ h ↦ unmarshalJSON_ok h, unmarshalJSON_panic_iff⟩
  obtain ⟨bz, hm, bA', hd, h', hbits, hget, -⟩ := h.unmarshalJSON_marshalJSON r
  exact ⟨bz, hm, bA', hd, h', hbits, hget⟩

/-- The one-bit array with its bit set reads back; the empty bit string panics. -/
theorem bitArray_json_empty_string_panics :
    (∃ bz, Ptr.marshalJSON (some ⟨1, [1]⟩) = .ok bz ∧
      ∃ bA' : BitArray, (⟨0, []⟩ : BitArray).unmarshalJSON bz = .ok bA' ∧ bA'.WellFormed ∧
        bA'.bits = 1 ∧ ∀ i : ℤ, 0 ≤ i → bA'.getIndex i = (⟨1, [1]⟩ : BitArray).getIndex i) ∧
    ∃ msg, (⟨0, []⟩ : BitArray).unmarshalJSON ['"'.toUInt8, '"'.toUInt8] = .error (.panic msg) :=
  ⟨(bitArray_json_roundtrip ⟨0, []⟩).1 ⟨1, [1]⟩ ⟨by decide, by decide⟩,
    ((bitArray_json_roundtrip ⟨0, []⟩).2.2 _).mpr rfl⟩

end BitArray

end Tenderdash.Bits
