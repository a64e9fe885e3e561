import Mathlib.Data.List.Basic
import Mathlib.Tactic.Ring

/-!
# The protobuf wire format

The parts of the protobuf encoding that deterministic marshalling of flat
messages produces: base-128 varints, little-endian `fixed64` words, and fields
made of a tag (field number and wire type) followed by a varint, a `fixed64` or
a length-delimited byte string.  A message is the concatenation of its fields.

Every encoder comes with a decoder that reads it back with any bytes after it,
and the decoders are what make encodings injective: `parseFields` inverts
`encodeFields` on fields whose numbers fit a `uint64`, so two messages with
the same bytes have the same fields.

## What is a model of which code

* `encodeVarint` is the generated `encodeVarint…` helpers (a loop emitting seven
  bits per byte while `v ≥ 2^7`).  The helpers take a `uint64`, so ten bytes
  always suffice; we recurse on that bound, which keeps the encoder structurally
  recursive and evaluable by `decide`.
* `leBytes 8` is `encoding/binary.LittleEndian.PutUint64`.
* `delimited` is the varint length prefix written by a delimited writer.

The decoders are ours: no code under the modelled repository is proved about
them, they only witness injectivity.
-/

namespace Protobuf

/-- A number below `256` is the value of the byte it converts to. -/
theorem toNat_byte {n : Nat} (h : n < 256) : (UInt8.ofNat n).toNat = n :=
  UInt8.toNat_ofNat_of_lt' h

/-! ## Varints -/

/-- Base-128 varint of `v`, using at most `fuel` bytes. -/
def varintAux : Nat → Nat → List UInt8
  | 0, _ => []
  | fuel + 1, v =>
      if v < 128 then [UInt8.ofNat v] else UInt8.ofNat (v % 128 + 128) :: varintAux fuel (v / 128)

/-- The varint of a `uint64`. -/
def encodeVarint (v : Nat) : List UInt8 := varintAux 10 v

/-- Read a varint of at most `fuel` bytes, returning the value and what follows it. -/
def decodeVarintAux : Nat → List UInt8 → Option (Nat × List UInt8)
  | 0, _ => none
  | _ + 1, [] => none
  | fuel + 1, b :: rest =>
      if b.toNat < 128 then some (b.toNat, rest)
      else (decodeVarintAux fuel rest).map fun p => (b.toNat - 128 + 128 * p.1, p.2)

/-- Read a varint of at most ten bytes. -/
def decodeVarint (bs : List UInt8) : Option (Nat × List UInt8) := decodeVarintAux 10 bs

theorem decodeVarintAux_varintAux (fuel v : Nat) (rest : List UInt8)
    (hv : v < 128 ^ (fuel + 1)) :
    decodeVarintAux (fuel + 1) (varintAux (fuel + 1) v ++ rest) = some (v, rest) := by
  induction fuel generalizing v with
  | zero =>
      have hb : (UInt8.ofNat v).toNat = v := toNat_byte (by simp at hv; omega)
      simp [varintAux, decodeVarintAux, show v < 128 by simpa using hv, hb]
  | succ fuel ih =>
      by_cases hsmall : v < 128
      · have hb : (UInt8.ofNat v).toNat = v := toNat_byte (by omega)
        simp [varintAux, decodeVarintAux, hsmall, hb]
      · have hb : (UInt8.ofNat (v % 128 + 128)).toNat = v % 128 + 128 := toNat_byte (by omega)
        have hrest : v / 128 < 128 ^ (fuel + 1) := by
          rw [Nat.div_lt_iff_lt_mul (by norm_num)]
          calc v < 128 ^ (fuel + 1 + 1) := hv
            _ = 128 ^ (fuel + 1) * 128 := by ring
        have hsplit : v % 128 + 128 * (v / 128) = v := Nat.mod_add_div v 128
        rw [varintAux, if_neg hsmall, List.cons_append, decodeVarintAux, hb,
          if_neg (by omega), ih _ hrest]
        simp [hsplit]

/-- A `uint64` varint is read back, whatever follows it. -/
theorem decodeVarint_encodeVarint (v : Nat) (rest : List UInt8) (hv : v < 2 ^ 64) :
    decodeVarint (encodeVarint v ++ rest) = some (v, rest) :=
  decodeVarintAux_varintAux 9 v rest (lt_of_lt_of_le hv (by decide))

theorem varintAux_ne_nil (fuel v : Nat) : varintAux (fuel + 1) v ≠ [] := by
  unfold varintAux; split <;> simp

theorem encodeVarint_ne_nil (v : Nat) : encodeVarint v ≠ [] := varintAux_ne_nil 9 v

/-! ## Little-endian words -/

/-- The low `n` bytes of `v`, least significant first. -/
def leBytes : Nat → Nat → List UInt8
  | 0, _ => []
  | n + 1, v => UInt8.ofNat (v % 256) :: leBytes n (v / 256)

/-- The value of a little-endian byte string. -/
def leValue : List UInt8 → Nat
  | [] => 0
  | b :: bs => b.toNat + 256 * leValue bs

@[simp] theorem leBytes_length (n v : Nat) : (leBytes n v).length = n := by
  induction n generalizing v with
  | zero => rfl
  | succ n ih => simp [leBytes, ih]

theorem leValue_leBytes (n v : Nat) : leValue (leBytes n v) = v % 256 ^ n := by
  induction n generalizing v with
  | zero => simp [leBytes, leValue, Nat.mod_one]
  | succ n ih =>
      have hb : (UInt8.ofNat (v % 256)).toNat = v % 256 := toNat_byte (Nat.mod_lt _ (by norm_num))
      rw [leBytes, leValue, hb, ih, pow_succ', Nat.mod_mul]

/-- Read a little-endian word of `n` bytes. -/
def decodeLE (n : Nat) (bs : List UInt8) : Option (Nat × List UInt8) :=
  if n ≤ bs.length then some (leValue (bs.take n), bs.drop n) else none

theorem decodeLE_leBytes (n v : Nat) (rest : List UInt8) (hv : v < 256 ^ n) :
    decodeLE n (leBytes n v ++ rest) = some (v, rest) := by
  have htake : (leBytes n v ++ rest).take n = leBytes n v := List.take_left' (by simp)
  have hdrop : (leBytes n v ++ rest).drop n = rest := List.drop_left' (by simp)
  simp [decodeLE, htake, hdrop, leValue_leBytes, Nat.mod_eq_of_lt hv]

/-! ## Fields -/

/-- The payload of a field, one constructor per wire type the encoders use. -/
inductive WireValue where
  | varint (v : Nat)
  | fixed64 (v : Nat)
  | bytes (b : List UInt8)
deriving DecidableEq, Repr

/-- A field: its number and payload. -/
structure Field where
  num : Nat
  value : WireValue
deriving DecidableEq, Repr

namespace WireValue

/-- The wire type written in the low three bits of the tag. -/
def wireType : WireValue → Nat
  | varint _ => 0
  | fixed64 _ => 1
  | bytes _ => 2

/-- The payload fits the encoding: numbers are `uint64`s. -/
def Valid : WireValue → Prop
  | varint v => v < 2 ^ 64
  | fixed64 v => v < 2 ^ 64
  | bytes b => b.length < 2 ^ 64

/-- The bytes of the payload after the tag. -/
def encode : WireValue → List UInt8
  | varint v => encodeVarint v
  | fixed64 v => leBytes 8 v
  | bytes b => encodeVarint b.length ++ b

/-- Read a payload of the given wire type. -/
def decode (wt : Nat) (bs : List UInt8) : Option (WireValue × List UInt8) :=
  match wt with
  | 0 => (decodeVarint bs).map fun p => (varint p.1, p.2)
  | 1 => (decodeLE 8 bs).map fun p => (fixed64 p.1, p.2)
  | 2 => (decodeVarint bs).bind fun p =>
      if p.1 ≤ p.2.length then some (bytes (p.2.take p.1), p.2.drop p.1) else none
  | _ => none

theorem wireType_lt (w : WireValue) : w.wireType < 8 := by
  cases w <;> simp [wireType]

theorem decode_encode (w : WireValue) (hw : w.Valid) (rest : List UInt8) :
    decode w.wireType (w.encode ++ rest) = some (w, rest) := by
  cases w with
  | varint v => simp [wireType, encode, decode, decodeVarint_encodeVarint v rest hw]
  | fixed64 v =>
      have hv : v < 256 ^ 8 := by simpa [Valid] using hw
      simp [wireType, encode, decode, decodeLE_leBytes 8 v rest hv]
  | bytes b =>
      have htake : (b ++ rest).take b.length = b := List.take_left
      have hdrop : (b ++ rest).drop b.length = rest := List.drop_left
      simp [wireType, encode, decode, List.append_assoc,
        decodeVarint_encodeVarint b.length (b ++ rest) hw, htake, hdrop]

end WireValue

namespace Field

/-- The field's number and payload fit the encoding. -/
def Valid (f : Field) : Prop := f.num * 8 + 7 < 2 ^ 64 ∧ f.value.Valid

/-- Tag, then payload. -/
def encode (f : Field) : List UInt8 :=
  encodeVarint (f.num * 8 + f.value.wireType) ++ f.value.encode

/-- Read one field. -/
def decode (bs : List UInt8) : Option (Field × List UInt8) :=
  (decodeVarint bs).bind fun p =>
    (WireValue.decode (p.1 % 8) p.2).map fun q => (⟨p.1 / 8, q.1⟩, q.2)

theorem decode_encode (f : Field) (hf : f.Valid) (rest : List UInt8) :
    decode (f.encode ++ rest) = some (f, rest) := by
  obtain ⟨hnum, hval⟩ := hf
  have hw := WireValue.wireType_lt f.value
  have hmod : (f.num * 8 + f.value.wireType) % 8 = f.value.wireType := by omega
  have hdiv : (f.num * 8 + f.value.wireType) / 8 = f.num := by omega
  rw [encode, List.append_assoc, decode,
    decodeVarint_encodeVarint _ _ (by omega)]
  simp [hmod, hdiv, WireValue.decode_encode _ hval]

theorem encode_ne_nil (f : Field) : f.encode ≠ [] := by
  simp [encode, encodeVarint_ne_nil]

end Field

/-- A message: its fields, in order. -/
def encodeFields (fs : List Field) : List UInt8 := fs.flatMap Field.encode

/-- Read fields until the input is exhausted, at most `fuel` of them. -/
def parseFieldsAux : Nat → List UInt8 → Option (List Field)
  | _, [] => some []
  | 0, _ :: _ => none
  | fuel + 1, bs@(_ :: _) => (Field.decode bs).bind fun p =>
      (parseFieldsAux fuel p.2).map fun fs => p.1 :: fs

/-- Read a whole message; every field takes a byte at least, so the input's
length bounds the number of fields. -/
def parseFields (bs : List UInt8) : Option (List Field) := parseFieldsAux bs.length bs

theorem parseFieldsAux_encodeFields (fs : List Field) (hfs : ∀ f ∈ fs, f.Valid) (fuel : Nat)
    (hfuel : fs.length ≤ fuel) : parseFieldsAux fuel (encodeFields fs) = some fs := by
  induction fs generalizing fuel with
  | nil => cases fuel <;> simp [encodeFields, parseFieldsAux]
  | cons f fs ih =>
      obtain ⟨fuel, rfl⟩ : ∃ k, fuel = k + 1 := ⟨fuel - 1, by simp at hfuel; omega⟩
      have hne := Field.encode_ne_nil f
      obtain ⟨b, bs, hbs⟩ : ∃ b bs, f.encode ++ encodeFields fs = b :: bs := by
        cases h : f.encode with
        | nil => exact absurd h hne
        | cons b bs => exact ⟨b, bs ++ encodeFields fs, rfl⟩
      have hdec := Field.decode_encode f (hfs f (by simp)) (encodeFields fs)
      have htail := ih (fun g hg => hfs g (by simp [hg])) fuel (by simpa using hfuel)
      rw [hbs] at hdec
      simp only [encodeFields, List.flatMap_cons] at hbs ⊢
      rw [hbs, parseFieldsAux, hdec]
      simpa [encodeFields] using htail

/-- Fields that fit the encoding are read back from their encoding. -/
theorem parseFields_encodeFields (fs : List Field) (hfs : ∀ f ∈ fs, f.Valid) :
    parseFields (encodeFields fs) = some fs := by
  apply parseFieldsAux_encodeFields fs hfs
  induction fs with
  | nil => simp
  | cons f fs ih =>
      have := Field.encode_ne_nil f
      have hlen : 1 ≤ f.encode.length := List.length_pos_iff.mpr this
      simp only [encodeFields, List.flatMap_cons, List.length_append, List.length_cons] at ih ⊢
      have := ih (fun g hg => hfs g (by simp [hg]))
      omega

/-! ## Delimited messages -/

/-- A message prefixed by its length, as a delimited writer emits it. -/
def delimited (bs : List UInt8) : List UInt8 := encodeVarint bs.length ++ bs

/-- Read a length-prefixed message; bytes after it are ignored, as a delimited
reader reads one message. -/
def undelimited (bs : List UInt8) : Option (List UInt8) :=
  (decodeVarint bs).bind fun p => if p.1 ≤ p.2.length then some (p.2.take p.1) else none

theorem undelimited_delimited (bs : List UInt8) (h : bs.length < 2 ^ 64) :
    undelimited (delimited bs) = some bs := by
  simp [undelimited, delimited, decodeVarint_encodeVarint _ _ h]

/-! ## Reading fields back -/

/-- The payload of the last field with a given number: a reader keeps the last
value of a scalar field that occurs more than once. -/
def lookup (n : Nat) (fs : List Field) : Option WireValue :=
  (fs.reverse.find? (·.num == n)).map (·.value)

/-- A varint field's value, zero when absent. -/
def varintAt (n : Nat) (fs : List Field) : Nat :=
  match lookup n fs with
  | some (.varint v) => v
  | _ => 0

/-- A `fixed64` field's value, zero when absent. -/
def fixed64At (n : Nat) (fs : List Field) : Nat :=
  match lookup n fs with
  | some (.fixed64 v) => v
  | _ => 0

/-- A length-delimited field's bytes, if present. -/
def bytesAt (n : Nat) (fs : List Field) : Option (List UInt8) :=
  match lookup n fs with
  | some (.bytes b) => some b
  | _ => none

@[simp] theorem lookup_nil (n : Nat) : lookup n [] = none := rfl

/-- The last field with the number is in the second part if it has one. -/
@[simp] theorem lookup_append (n : Nat) (fs gs : List Field) :
    lookup n (fs ++ gs) = (lookup n gs).or (lookup n fs) := by
  simp only [lookup, List.reverse_append, List.find?_append]
  cases gs.reverse.find? (·.num == n) <;> rfl

@[simp] theorem lookup_cons (n : Nat) (f : Field) (fs : List Field) :
    lookup n (f :: fs) = (lookup n fs).or (if f.num = n then some f.value else none) := by
  rw [← List.singleton_append, lookup_append]
  by_cases h : f.num = n <;> simp [lookup, h]

/-! ## Sizes

The encoders never write more than ten bytes of varint, so a field costs at
most twenty bytes besides its payload; this bounds messages whose parts are
bounded, as the length prefix of a delimited message needs. -/

theorem varintAux_length_le : ∀ fuel v, (varintAux fuel v).length ≤ fuel
  | 0, _ => by simp [varintAux]
  | fuel + 1, v => by
      unfold varintAux
      split
      · simp
      · simpa using varintAux_length_le fuel (v / 128)

theorem encodeVarint_length_le (v : Nat) : (encodeVarint v).length ≤ 10 :=
  varintAux_length_le 10 v

theorem Field.encode_bytes_length_le (n : Nat) (b : List UInt8) :
    (Field.encode ⟨n, .bytes b⟩).length ≤ 20 + b.length := by
  have h₁ := encodeVarint_length_le (n * 8 + 2)
  have h₂ := encodeVarint_length_le b.length
  simp only [Field.encode, WireValue.encode, WireValue.wireType, List.length_append]
  omega

theorem Field.encode_length_le_of_small (f : Field) (h : ∀ b, f.value ≠ .bytes b) :
    f.encode.length ≤ 20 := by
  obtain ⟨n, w⟩ := f
  have h₁ := encodeVarint_length_le (n * 8 + w.wireType)
  cases w with
  | varint v =>
      have := encodeVarint_length_le v
      simp only [Field.encode, WireValue.encode, List.length_append]
      omega
  | fixed64 v =>
      simp only [Field.encode, WireValue.encode, List.length_append, leBytes_length]
      omega
  | bytes b => exact absurd rfl (h b)

@[simp] theorem encodeFields_nil : encodeFields [] = [] := rfl

@[simp] theorem encodeFields_append (fs gs : List Field) :
    encodeFields (fs ++ gs) = encodeFields fs ++ encodeFields gs := by
  simp [encodeFields]

@[simp] theorem encodeFields_cons (f : Field) (fs : List Field) :
    encodeFields (f :: fs) = f.encode ++ encodeFields fs := by
  simp [encodeFields]

end Protobuf
