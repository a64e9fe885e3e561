import Mathlib.Data.List.Basic
import Tenderdash.Lib.Except

/-!
# Hexadecimal digits

Go writes a byte string as two upper-case hex digits per byte (`fmt`'s `%X`) and reads
digits of either case back (`encoding/hex`'s `DecodeString`; `net/url` reads the two digits
of an escape with the same table).  `decodeString_encodeUpper` is the round trip, and
`decodeString_eq_ok` says what a successful decode has read: digits only, two per byte.
-/

namespace Hex

/-- The upper-case digit of a value below sixteen, `"0123456789ABCDEF"[n]`. -/
def upperDigit (n : ℕ) : UInt8 :=
  if n < 10 then (48 + n).toUInt8 else (55 + n).toUInt8

/-- The value of a hex digit of either case, `reverseHexTable` (and `unhex` where `ishex`
holds); `none` for any other byte. -/
def digitValue (c : UInt8) : Option UInt8 :=
  if 48 ≤ c ∧ c ≤ 57 then some (c - 48)
  else if 97 ≤ c ∧ c ≤ 102 then some (c - 87)
  else if 65 ≤ c ∧ c ≤ 70 then some (c - 55)
  else none

/-- `fmt.Sprintf("%X", src)`: two upper-case digits per byte, the high half first. -/
def encodeUpper (src : List UInt8) : List UInt8 :=
  src.flatMap fun b ↦ [upperDigit (b.toNat / 16), upperDigit (b.toNat % 16)]

/-- The errors of `DecodeString`. -/
inductive DecodeError where
  /-- `InvalidByteError`: a byte that is not a hex digit. -/
  | invalidByte (b : UInt8)
  /-- `ErrLength`, "encoding/hex: odd length hex string". -/
  | length
deriving DecidableEq, Repr

/-- `hex.DecodeString`: two digits per byte, the high half first.  An odd last digit is
checked before the length is reported. -/
def decodeString : List UInt8 → Except DecodeError (List UInt8)
  | [] => .ok []
  | [p] =>
    match digitValue p with
    | none => .error (.invalidByte p)
    | some _ => .error .length
  | p :: q :: src =>
    match digitValue p, digitValue q with
    | none, _ => .error (.invalidByte p)
    | some _, none => .error (.invalidByte q)
    | some a, some b => ((a <<< 4 ||| b) :: ·) <$> decodeString src

/-- Each of the sixteen digits reads back as its own value. -/
theorem digitValue_upperDigit {n : ℕ} (h : n < 16) : digitValue (upperDigit n) = some n.toUInt8 := by
  rcases n with _ | _ | _ | _ | _ | _ | _ | _ | _ | _ | _ | _ | _ | _ | _ | _ | n
  all_goals first | rfl | omega

theorem isSome_digitValue_upperDigit {n : ℕ} (h : n < 16) : (digitValue (upperDigit n)).isSome := by
  rw [digitValue_upperDigit h]
  rfl

/-- Two digits below sixteen put together as `(a << 4) | b`. -/
theorem toNat_shiftLeft_or {a b : UInt8} (ha : a.toNat < 16) (hb : b.toNat < 16) :
    (a <<< 4 ||| b).toNat = a.toNat * 16 + b.toNat := by
  rw [UInt8.toNat_or, UInt8.toNat_shiftLeft]
  have h4 : (4 : UInt8).toNat % 8 = 4 := rfl
  rw [h4, Nat.mod_eq_of_lt (by rw [Nat.shiftLeft_eq]; omega),
    ← Nat.shiftLeft_add_eq_or_of_lt (by omega), Nat.shiftLeft_eq]

/-- A byte is its high half shifted up, or its low half. -/
theorem shiftLeft_or_halves (b : UInt8) :
    (b.toNat / 16).toUInt8 <<< 4 ||| (b.toNat % 16).toUInt8 = b := by
  have hb := b.toNat_lt
  apply UInt8.toNat_inj.mp
  rw [toNat_shiftLeft_or] <;> simp [Nat.toUInt8] <;> omega

theorem isSome_of_mem_encodeUpper {src : List UInt8} {c : UInt8} (h : c ∈ encodeUpper src) :
    (digitValue c).isSome := by
  obtain ⟨b, -, hc⟩ := List.mem_flatMap.mp h
  have hb := b.toNat_lt
  rcases List.mem_pair.mp hc with rfl | rfl
  · exact isSome_digitValue_upperDigit (by omega)
  · exact isSome_digitValue_upperDigit (by omega)

/-- Reading the digits `%X` writes gives the bytes back. -/
theorem decodeString_encodeUpper : ∀ src : List UInt8, decodeString (encodeUpper src) = .ok src
  | [] => rfl
  | b :: src => by
    have hb := b.toNat_lt
    have hhi := digitValue_upperDigit (n := b.toNat / 16) (by omega)
    have hlo := digitValue_upperDigit (n := b.toNat % 16) (by omega)
    have henc : encodeUpper (b :: src) =
        upperDigit (b.toNat / 16) :: upperDigit (b.toNat % 16) :: encodeUpper src := rfl
    rw [henc, decodeString, hhi, hlo]
    dsimp only
    rw [shiftLeft_or_halves, decodeString_encodeUpper src]
    rfl

/-- What a successful decode has read: hex digits only, two for each byte. -/
theorem decodeString_eq_ok : ∀ {s d : List UInt8}, decodeString s = .ok d →
    s.length = 2 * d.length ∧ ∀ c ∈ s, (digitValue c).isSome
  | [], d, h => by
    cases h
    simp
  | [p], d, h => by
    unfold decodeString at h
    split at h <;> cases h
  | p :: q :: src, d, h => by
    unfold decodeString at h
    split at h
    · cases h
    · cases h
    · rename_i a b hp hq
      obtain ⟨keys, hrest, rfl⟩ := Except.map_eq_ok.mp h
      obtain ⟨hlen, hdig⟩ := decodeString_eq_ok hrest
      refine ⟨by simp [hlen]; omega, fun c hc ↦ ?_⟩
      rcases List.mem_cons.mp hc with rfl | hc
      · simp [hp]
      rcases List.mem_cons.mp hc with rfl | hc
      · simp [hq]
      · exact hdig c hc

end Hex
