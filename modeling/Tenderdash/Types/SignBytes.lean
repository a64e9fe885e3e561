import Tenderdash.Types.Canonical
import Tenderdash.Lib.Except
import Mathlib.Logic.Equiv.List

/-!
# Sign bytes determine what was signed

A vote's sign bytes are the delimited canonical vote.  They can be read back:
`readCanonicalVote` parses them field by field, and on every canonical vote
whose values fit the Go types that hold them it returns that vote
(`readCanonicalVote_delimited`).  So two votes with the same sign bytes have the
same canonical form: the same type, height, round and chain, and block IDs that
`BlockID.Equals` identifies (`voteBlockSignBytes_inj`, `canonicalizeBlockID_inj`).

The reader is ours; what it is proved about is the repository's encoding.
-/

namespace Tenderdash

open Protobuf

/-! ## Integers -/

/-- `int64(uint64(x))` is `x` for every `int64`. -/
theorem fromUint64_toUint64 {x : Int} (h : -2 ^ 63 ≤ x ∧ x < 2 ^ 63) :
    fromUint64 (toUint64 x) = x := by
  have hnn : 0 ≤ x % 2 ^ 64 := Int.emod_nonneg _ (by norm_num)
  unfold fromUint64 toUint64
  rw [Int.toNat_of_nonneg hnn]
  split_ifs <;> omega

@[simp] theorem SignedMsgType.ofWire_toNat (t : SignedMsgType) : ofWire t.toNat = t := by
  cases t <;> rfl

@[simp] theorem toUint64_zero : toUint64 0 = 0 := rfl

theorem toUint64_natCast {n : Nat} (h : n < 2 ^ 64) : toUint64 n = n := by
  unfold toUint64
  rw [Int.emod_eq_of_lt (by omega) (by omega)]
  rfl

/-! ## Fields of the canonical messages -/

section Fields

theorem lookup_varintField (n m : Nat) (x : Int) :
    lookup n (varintField m x) =
      if m = n ∧ x ≠ 0 then some (.varint (toUint64 x)) else none := by
  unfold varintField
  split_ifs <;> simp_all

theorem lookup_sfixed64Field (n m : Nat) (x : Int) :
    lookup n (sfixed64Field m x) =
      if m = n ∧ x ≠ 0 then some (.fixed64 (toUint64 x)) else none := by
  unfold sfixed64Field
  split_ifs <;> simp_all

theorem lookup_bytesField (n m : Nat) (b : Bytes) :
    lookup n (bytesField m b) = if m = n ∧ b ≠ [] then some (.bytes b) else none := by
  unfold bytesField
  split_ifs <;> simp_all

theorem lookup_embedded (n m : Nat) (o : Option (List Field)) :
    lookup n (embedded m o) = if m = n then o.map fun fs ↦ .bytes (encodeFields fs) else none := by
  cases o <;> by_cases h : m = n <;> simp [embedded, h]

/-- The lemmas that compute a lookup in a canonical message. -/
theorem varintAt_of_lookup {n : Nat} {fs : List Field} {v : Nat}
    (h : lookup n fs = if v = 0 then none else some (.varint v)) : varintAt n fs = v := by
  unfold varintAt
  split_ifs at h with hv <;> simp [h, hv]

theorem fixed64At_of_lookup {n : Nat} {fs : List Field} {v : Nat}
    (h : lookup n fs = if v = 0 then none else some (.fixed64 v)) : fixed64At n fs = v := by
  unfold fixed64At
  split_ifs at h with hv <;> simp [h, hv]

theorem bytesAt_of_lookup {n : Nat} {fs : List Field} {b : Option Bytes}
    (h : lookup n fs = b.map .bytes) : bytesAt n fs = b := by
  cases b <;> simp [bytesAt, h]

end Fields

/-! ## Values that fit their Go types -/

/-- A canonical vote whose numbers and byte strings fit the Go types that hold
them: `int64` heights and rounds, hashes of at most 32 bytes (as `ValidateHash`
requires), a `uint32` part count, and byte strings far below `2^64` bytes. -/
structure CanonicalVote.Fits (v : CanonicalVote) : Prop where
  height : -2 ^ 63 ≤ v.height ∧ v.height < 2 ^ 63
  round : -2 ^ 63 ≤ v.round ∧ v.round < 2 ^ 63
  blockID : ∀ b ∈ v.blockID,
    b.hash.length ≤ 32 ∧ b.partSetHeader.total < 2 ^ 32 ∧ b.partSetHeader.hash.length ≤ 32
  stateID : ∀ s ∈ v.stateID, s.lastAppHash.length < 2 ^ 32
  chainID : v.chainID.length < 2 ^ 32

/-- A vote whose values fit its Go types (`int64` height, `int32` round,
`uint32` part count), with an application hash and a chain ID far below
`2^64` bytes. -/
structure Vote.Fits (chainID : Bytes) (v : Vote) : Prop where
  height : -2 ^ 63 ≤ v.height ∧ v.height < 2 ^ 63
  round : -2 ^ 31 ≤ v.round ∧ v.round < 2 ^ 31
  total : v.blockID.partSetHeader.total < 2 ^ 32
  appHash : (v.stateID.lastAppHash.getD []).length < 2 ^ 32
  chainID : chainID.length < 2 ^ 32

theorem canonicalizeBlockID_eq_ok {b : BlockID} {cb : Option CanonicalBlockID}
    (h : canonicalizeBlockID b = .ok cb) :
    b.validateBasic ∧ (b.isZero ∧ cb = none ∨
      ¬ b.isZero ∧ cb = some ⟨b.hash.getD [], b.partSetHeader⟩) := by
  unfold canonicalizeBlockID at h
  split_ifs at h with hv hz
  · cases h
    exact ⟨by simpa using hv, .inl ⟨hz, rfl⟩⟩
  · cases h
    exact ⟨by simpa using hv, .inr ⟨hz, rfl⟩⟩

theorem canonicalizeStateID_eq_ok {s : StateID} {cs : Option CanonicalStateID}
    (h : canonicalizeStateID s = .ok cs) :
    s.isZero ∧ cs = none ∨ ¬ s.isZero ∧ cs = some ⟨s.lastAppHash.getD []⟩ := by
  unfold canonicalizeStateID at h
  split_ifs at h with hv hz
  · cases h
    exact .inl ⟨hz, rfl⟩
  · cases h
    exact .inr ⟨hz, rfl⟩

theorem canonicalizeVote_eq_ok {chainID : Bytes} {v : Vote} {cv : CanonicalVote}
    (h : canonicalizeVote chainID v = .ok cv) :
    canonicalizeBlockID v.blockID = .ok cv.blockID ∧ canonicalizeStateID v.stateID = .ok cv.stateID ∧
      cv.type = v.type ∧ cv.height = v.height ∧ cv.round = v.round ∧ cv.chainID = chainID := by
  simp only [canonicalizeVote, Except.bind_eq_ok, Except.pure_eq_ok] at h
  obtain ⟨b, hb, s, hs, rfl⟩ := h
  exact ⟨hb, hs, rfl, rfl, rfl, rfl⟩

/-- The canonical form of a vote that fits its Go types fits too. -/
theorem Vote.Fits.canonical {chainID : Bytes} {v : Vote} {cv : CanonicalVote}
    (hv : v.Fits chainID) (h : canonicalizeVote chainID v = .ok cv) : cv.Fits := by
  obtain ⟨hb, hs, -, hh, hr, hc⟩ := canonicalizeVote_eq_ok h
  refine ⟨hh ▸ hv.height, ?_, ?_, ?_, hc ▸ hv.chainID⟩
  · rw [hr]
    have := hv.round
    constructor <;> omega
  · intro b hbmem
    obtain ⟨hvalid, hcb⟩ := canonicalizeBlockID_eq_ok hb
    rcases hcb with ⟨-, hnone⟩ | ⟨-, hsome⟩
    · simp [hnone] at hbmem
    · rw [hsome, Option.mem_some_iff] at hbmem
      subst hbmem
      simp only [BlockID.validateBasic, validHash, hashSize, Bool.and_eq_true, Bool.or_eq_true,
        beq_iff_eq] at hvalid
      refine ⟨?_, hv.total, ?_⟩ <;> dsimp only <;> omega
  · intro s hsmem
    rcases canonicalizeStateID_eq_ok hs with ⟨-, hnone⟩ | ⟨-, hsome⟩
    · simp [hnone] at hsmem
    · rw [hsome, Option.mem_some_iff] at hsmem
      subst hsmem
      exact hv.appHash

/-! ## Reading canonical votes back -/

/-- Read a canonical state ID's fields. -/
def readCanonicalStateID (fs : List Field) : CanonicalStateID := ⟨(bytesAt 1 fs).getD []⟩

/-- Read the canonical vote of delimited sign bytes. -/
def readCanonicalVote (bs : Bytes) : Option CanonicalVote :=
  ((undelimited bs).bind parseFields).map fun fs ↦
    ⟨.ofWire (varintAt 1 fs), fromUint64 (fixed64At 2 fs), fromUint64 (fixed64At 3 fs),
      (bytesAt 4 fs).bind fun b ↦ (parseFields b).bind readCanonicalBlockID,
      (bytesAt 7 fs).bind fun b ↦ (parseFields b).map readCanonicalStateID,
      (bytesAt 6 fs).getD []⟩

section RoundTrip

theorem PartSetHeader.toFields_valid {p : PartSetHeader} (ht : p.total < 2 ^ 32)
    (hh : p.hash.length ≤ 32) : ∀ f ∈ p.toFields, f.Valid := by
  intro f hf
  unfold PartSetHeader.toFields at hf
  split_ifs at hf <;>
    simp at hf <;> rcases hf with rfl | rfl <;> simp [Field.Valid, WireValue.Valid] <;> omega

theorem PartSetHeader.encode_length_le (p : PartSetHeader) :
    (encodeFields p.toFields).length ≤ 40 + p.hash.length := by
  have h₁ := Field.encode_length_le_of_small ⟨1, .varint p.total⟩ (by simp)
  have h₂ := Field.encode_bytes_length_le 2 p.hash
  unfold PartSetHeader.toFields
  split_ifs <;> simp <;> omega

theorem readPartSetHeader_toFields (p : PartSetHeader) : readPartSetHeader p.toFields = p := by
  have hv : varintAt 1 p.toFields = p.total := by
    apply varintAt_of_lookup
    unfold PartSetHeader.toFields
    split_ifs <;> simp_all
  have hb : (bytesAt 2 p.toFields).getD [] = p.hash := by
    unfold PartSetHeader.toFields
    split_ifs <;> simp_all [bytesAt]
  simp [readPartSetHeader, hv, hb]

/-- The fields of a canonical block ID whose hashes fit are valid. -/
theorem CanonicalBlockID.toFields_valid {b : CanonicalBlockID} (hh : b.hash.length ≤ 32)
    (hph : b.partSetHeader.hash.length ≤ 32) :
    ∀ f ∈ b.toFields, f.Valid := by
  have hlen := PartSetHeader.encode_length_le b.partSetHeader
  intro f hf
  simp only [CanonicalBlockID.toFields, bytesField, List.mem_append, List.mem_singleton] at hf
  split_ifs at hf
  · simp at hf
    subst hf
    simp [Field.Valid, WireValue.Valid]
    omega
  · simp at hf
    rcases hf with rfl | rfl <;> simp [Field.Valid, WireValue.Valid] <;> omega

theorem CanonicalBlockID.encode_length_le (b : CanonicalBlockID) :
    (encodeFields b.toFields).length ≤ 100 + b.hash.length + b.partSetHeader.hash.length := by
  have h₁ := PartSetHeader.encode_length_le b.partSetHeader
  have h₂ := Field.encode_bytes_length_le 1 b.hash
  have h₃ := Field.encode_bytes_length_le 2 (encodeFields b.partSetHeader.toFields)
  unfold CanonicalBlockID.toFields bytesField
  split_ifs <;> simp <;> omega

theorem readCanonicalBlockID_toFields {b : CanonicalBlockID} (ht : b.partSetHeader.total < 2 ^ 32)
    (hph : b.partSetHeader.hash.length ≤ 32) : readCanonicalBlockID b.toFields = some b := by
  have hpsh : bytesAt 2 b.toFields = some (encodeFields b.partSetHeader.toFields) := by
    apply bytesAt_of_lookup
    simp [CanonicalBlockID.toFields, lookup_bytesField]
  have hhash : (bytesAt 1 b.toFields).getD [] = b.hash := by
    unfold CanonicalBlockID.toFields bytesField
    split_ifs with h <;> simp [bytesAt, h]
  simp [readCanonicalBlockID, hpsh, hhash,
    parseFields_encodeFields _ (PartSetHeader.toFields_valid ht hph), readPartSetHeader_toFields]

theorem CanonicalStateID.toFields_valid {s : CanonicalStateID} (h : s.lastAppHash.length < 2 ^ 32) :
    ∀ f ∈ s.toFields, f.Valid := by
  intro f hf
  simp only [CanonicalStateID.toFields, bytesField] at hf
  split_ifs at hf
  · simp at hf
  · simp at hf
    subst hf
    simp [Field.Valid, WireValue.Valid]
    omega

theorem CanonicalStateID.encode_length_le (s : CanonicalStateID) :
    (encodeFields s.toFields).length ≤ 20 + s.lastAppHash.length := by
  unfold CanonicalStateID.toFields bytesField
  split_ifs
  · simp
  · simpa using Field.encode_bytes_length_le 1 s.lastAppHash

theorem readCanonicalStateID_toFields (s : CanonicalStateID) :
    readCanonicalStateID s.toFields = s := by
  obtain ⟨a⟩ := s
  by_cases h : a = [] <;>
    simp [readCanonicalStateID, CanonicalStateID.toFields, bytesField, bytesAt, h]

/-- The fields of a canonical vote that fits are valid. -/
theorem CanonicalVote.toFields_valid {v : CanonicalVote} (hv : v.Fits) :
    ∀ f ∈ v.toFields, f.Valid := by
  intro f hf
  simp only [CanonicalVote.toFields, List.mem_append] at hf
  rcases hf with ((((hf | hf) | hf) | hf) | hf) | hf
  · unfold varintField at hf
    split_ifs at hf <;> simp at hf
    subst hf
    exact ⟨by dsimp only; omega, toUint64_lt _⟩
  · unfold sfixed64Field at hf
    split_ifs at hf <;> simp at hf
    subst hf
    exact ⟨by dsimp only; omega, toUint64_lt _⟩
  · unfold sfixed64Field at hf
    split_ifs at hf <;> simp at hf
    subst hf
    exact ⟨by dsimp only; omega, toUint64_lt _⟩
  · cases hb : v.blockID with
    | none => simp [hb, embedded] at hf
    | some b =>
        simp only [hb, Option.map_some, embedded, List.mem_singleton] at hf
        subst hf
        obtain ⟨hh, ht, hph⟩ := hv.blockID b hb
        have := CanonicalBlockID.encode_length_le b
        exact ⟨by dsimp only; omega, by simp only [WireValue.Valid]; omega⟩
  · unfold bytesField at hf
    split_ifs at hf <;> simp at hf
    subst hf
    exact ⟨by dsimp only; omega, by simp only [WireValue.Valid]; have := hv.chainID; omega⟩
  · cases hs : v.stateID with
    | none => simp [hs, embedded] at hf
    | some s =>
        simp only [hs, Option.map_some, embedded, List.mem_singleton] at hf
        subst hf
        have happ := hv.stateID s hs
        have hlen := CanonicalStateID.encode_length_le s
        exact ⟨by dsimp only; omega, by simp only [WireValue.Valid]; omega⟩

/-- A canonical vote that fits encodes to fewer than `2^64` bytes. -/
theorem CanonicalVote.encode_length_lt {v : CanonicalVote} (hv : v.Fits) :
    (encodeFields v.toFields).length < 2 ^ 64 := by
  have hsmall : ∀ (n : Nat) (x : Int), (encodeFields (varintField n x)).length ≤ 20 ∧
      (encodeFields (sfixed64Field n x)).length ≤ 20 := by
    intro n x
    refine ⟨?_, ?_⟩
    · unfold varintField
      split_ifs
      · simp
      · simpa using Field.encode_length_le_of_small ⟨n, .varint (toUint64 x)⟩ (by simp)
    · unfold sfixed64Field
      split_ifs
      · simp
      · simpa using Field.encode_length_le_of_small ⟨n, .fixed64 (toUint64 x)⟩ (by simp)
  have hblock : (encodeFields (embedded 4 (v.blockID.map CanonicalBlockID.toFields))).length ≤ 200 := by
    cases hb : v.blockID with
    | none => simp [embedded]
    | some b =>
        obtain ⟨hh, -, hph⟩ := hv.blockID b hb
        have := CanonicalBlockID.encode_length_le b
        have := Field.encode_bytes_length_le 4 (encodeFields b.toFields)
        simp only [Option.map_some, embedded, encodeFields_cons, encodeFields_nil, List.append_nil]
        omega
  have hstate : (encodeFields (embedded 7 (v.stateID.map CanonicalStateID.toFields))).length ≤
      2 ^ 33 := by
    cases hs : v.stateID with
    | none => simp [embedded]
    | some s =>
        have happ := hv.stateID s hs
        have := Field.encode_bytes_length_le 7 (encodeFields s.toFields)
        have hlen := CanonicalStateID.encode_length_le s
        simp only [Option.map_some, embedded, encodeFields_cons, encodeFields_nil, List.append_nil]
        omega
  have hchain : (encodeFields (bytesField 6 v.chainID)).length ≤ 20 + v.chainID.length := by
    unfold bytesField
    split_ifs
    · simp
    · simpa using Field.encode_bytes_length_le 6 v.chainID
  have h₁ := hsmall 1 v.type.toNat
  have h₂ := hsmall 2 v.height
  have h₃ := hsmall 3 v.round
  have := hv.chainID
  simp only [CanonicalVote.toFields, encodeFields_append, List.length_append]
  omega

/-- Round trip: the sign bytes of a canonical vote that fits read back as it. -/
theorem readCanonicalVote_delimited {v : CanonicalVote} (hv : v.Fits) :
    readCanonicalVote (delimited (encodeFields v.toFields)) = some v := by
  have hfs := parseFields_encodeFields _ (CanonicalVote.toFields_valid hv)
  have htype : varintAt 1 v.toFields = v.type.toNat := by
    apply varintAt_of_lookup
    have hsmall : v.type.toNat < 2 ^ 64 := by cases v.type <;> simp [SignedMsgType.toNat]
    by_cases h : v.type.toNat = 0 <;>
      simp [CanonicalVote.toFields, lookup_varintField, lookup_sfixed64Field, lookup_embedded,
        lookup_bytesField, h, toUint64_natCast hsmall]
  have hheight : fixed64At 2 v.toFields = toUint64 v.height := by
    apply fixed64At_of_lookup
    by_cases h : v.height = 0
    · simp [CanonicalVote.toFields, lookup_varintField, lookup_sfixed64Field, lookup_embedded,
        lookup_bytesField, h]
    · have hne : toUint64 v.height ≠ 0 := by
        intro h0
        have := fromUint64_toUint64 hv.height
        rw [h0] at this
        exact h (by simpa [fromUint64] using this.symm)
      simp [CanonicalVote.toFields, lookup_varintField, lookup_sfixed64Field, lookup_embedded,
        lookup_bytesField, h, hne]
  have hround : fixed64At 3 v.toFields = toUint64 v.round := by
    apply fixed64At_of_lookup
    by_cases h : v.round = 0
    · simp [CanonicalVote.toFields, lookup_varintField, lookup_sfixed64Field, lookup_embedded,
        lookup_bytesField, h]
    · have hne : toUint64 v.round ≠ 0 := by
        intro h0
        have := fromUint64_toUint64 hv.round
        rw [h0] at this
        exact h (by simpa [fromUint64] using this.symm)
      simp [CanonicalVote.toFields, lookup_varintField, lookup_sfixed64Field, lookup_embedded,
        lookup_bytesField, h, hne]
  have hblock : bytesAt 4 v.toFields = v.blockID.map fun b ↦ encodeFields b.toFields := by
    apply bytesAt_of_lookup
    cases hb : v.blockID <;>
      simp [CanonicalVote.toFields, hb, lookup_varintField, lookup_sfixed64Field, lookup_embedded,
        lookup_bytesField]
  have hstate : bytesAt 7 v.toFields = v.stateID.map fun s ↦ encodeFields s.toFields := by
    apply bytesAt_of_lookup
    cases hs : v.stateID <;>
      simp [CanonicalVote.toFields, hs, lookup_varintField, lookup_sfixed64Field, lookup_embedded,
        lookup_bytesField]
  have hchain : (bytesAt 6 v.toFields).getD [] = v.chainID := by
    by_cases h : v.chainID = []
    · have : bytesAt 6 v.toFields = none := by
        apply bytesAt_of_lookup
        simp [CanonicalVote.toFields, lookup_varintField, lookup_sfixed64Field, lookup_embedded,
          lookup_bytesField, h]
      simp [this, h]
    · have : bytesAt 6 v.toFields = some v.chainID := by
        apply bytesAt_of_lookup
        simp [CanonicalVote.toFields, lookup_varintField, lookup_sfixed64Field, lookup_embedded,
          lookup_bytesField, h]
      simp [this]
  have hbid : (v.blockID.map fun b ↦ encodeFields b.toFields).bind
      (fun b ↦ (parseFields b).bind readCanonicalBlockID) = v.blockID := by
    cases hb : v.blockID with
    | none => rfl
    | some b =>
        obtain ⟨hh, ht, hph⟩ := hv.blockID b hb
        simp [parseFields_encodeFields _ (CanonicalBlockID.toFields_valid hh hph),
          readCanonicalBlockID_toFields ht hph]
  have hsid : (v.stateID.map fun s ↦ encodeFields s.toFields).bind
      (fun b ↦ (parseFields b).map readCanonicalStateID) = v.stateID := by
    cases hs : v.stateID with
    | none => rfl
    | some s =>
        simp [parseFields_encodeFields _ (CanonicalStateID.toFields_valid (hv.stateID s hs)),
          readCanonicalStateID_toFields]
  simp only [readCanonicalVote, undelimited_delimited _ (CanonicalVote.encode_length_lt hv),
    Option.bind_some, hfs, Option.map_some, htype, hheight, hround, hblock, hstate, hchain,
    hbid, hsid, SignedMsgType.ofWire_toNat, fromUint64_toUint64 hv.height,
    fromUint64_toUint64 hv.round]

end RoundTrip

/-! ## Injectivity -/

/-- Two votes that fit and have the same block sign bytes have the same
canonical form. -/
theorem voteBlockSignBytes_inj {chainID₁ chainID₂ : Bytes} {v₁ v₂ : Vote} {bz : Bytes}
    (hv₁ : v₁.Fits chainID₁) (hv₂ : v₂.Fits chainID₂)
    (h₁ : voteBlockSignBytes chainID₁ v₁ = .ok bz) (h₂ : voteBlockSignBytes chainID₂ v₂ = .ok bz) :
    canonicalizeVote chainID₁ v₁ = canonicalizeVote chainID₂ v₂ := by
  simp only [voteBlockSignBytes, Except.bind_eq_ok, Except.pure_eq_ok] at h₁ h₂
  obtain ⟨cv₁, hc₁, rfl⟩ := h₁
  obtain ⟨cv₂, hc₂, heq⟩ := h₂
  have hr₁ := readCanonicalVote_delimited (hv₁.canonical hc₁)
  have hr₂ := readCanonicalVote_delimited (hv₂.canonical hc₂)
  rw [heq, hr₁, Option.some.injEq] at hr₂
  rw [hc₁, hc₂, hr₂]

/-- Block IDs with the same canonical form are equal as `BlockID.Equals` sees
them: the zero ones all become nil, the others keep hash and header. -/
theorem canonicalizeBlockID_inj {a b : BlockID} {cb : Option CanonicalBlockID}
    (ha : canonicalizeBlockID a = .ok cb) (hb : canonicalizeBlockID b = .ok cb) : a.equals b := by
  obtain ⟨-, ha⟩ := canonicalizeBlockID_eq_ok ha
  obtain ⟨-, hb⟩ := canonicalizeBlockID_eq_ok hb
  rcases ha with ⟨hza, rfl⟩ | ⟨-, rfl⟩ <;> rcases hb with ⟨hzb, hcb⟩ | ⟨-, hcb⟩
  · simp only [BlockID.isZero, PartSetHeader.isZero, Bool.and_eq_true, beq_iff_eq,
      List.length_eq_zero_iff] at hza hzb
    simp [BlockID.equals, PartSetHeader.equals, hza.1, hzb.1, hza.2.1, hzb.2.1, hza.2.2, hzb.2.2]
  · cases hcb
  · cases hcb
  · simp only [Option.some.injEq, CanonicalBlockID.mk.injEq] at hcb
    simp [BlockID.equals, PartSetHeader.equals, hcb.1, hcb.2]

/-! ## Sign IDs -/

/-- What is assumed of SHA-256 and of the sign-ID builder: both determine
their input. -/
structure Crypto.Binding (c : Crypto) : Prop where
  sha256_inj : Function.Injective c.sha256
  signId_inj : ∀ {q q' : Nat} {a a' b b' d d' : Bytes},
    c.signId q a b d = c.signId q' a' b' d' → q = q' ∧ a = a' ∧ b = b' ∧ d = d'

/-- A binding stand-in for SHA-256 and the sign-ID builder: the identity, and a
unary code of the four arguments. -/
def Crypto.injective : Crypto where
  sha256 := id
  signId q a b d :=
    List.replicate (Encodable.encode (q, a.map UInt8.toNat, b.map UInt8.toNat, d.map UInt8.toNat)) 0

theorem Crypto.injective_binding : Crypto.injective.Binding where
  sha256_inj := Function.injective_id
  signId_inj := by
    intro q q' a a' b b' d d' h
    have hmap : Function.Injective (List.map UInt8.toNat) :=
      List.map_injective_iff.mpr fun _ _ ↦ UInt8.toNat_inj.mp
    have hlen := congrArg List.length h
    simp only [Crypto.injective, List.length_replicate] at hlen
    have hcode := Encodable.encode_injective hlen
    simp only [Prod.mk.injEq] at hcode
    exact ⟨hcode.1, hmap hcode.2.1, hmap hcode.2.2.1, hmap hcode.2.2.2⟩

section SignIds

variable {c : Crypto}

/-- A sign ID determines the quorum, the request ID and the sign bytes. -/
theorem signIdOf_inj (hc : c.Binding) {q q' : Nat} {qh qh' r r' bz bz' : Bytes}
    (h : signIdOf c q qh r bz = signIdOf c q' qh' r' bz') : q = q' ∧ qh = qh' ∧ r = r' ∧ bz = bz' := by
  obtain ⟨hq, hqh, hr, hbz⟩ := hc.signId_inj h
  exact ⟨hq, List.reverse_injective hqh, List.reverse_injective hr,
    hc.sha256_inj (List.reverse_injective hbz)⟩

/-- Request-ID messages with prefixes that differ in their first three bytes differ. -/
theorem requestIdMessage_ne {p₁ p₂ : String} (h₁ : 3 ≤ (asciiBytes p₁).length)
    (h₂ : 3 ≤ (asciiBytes p₂).length) (hne : (asciiBytes p₁).take 3 ≠ (asciiBytes p₂).take 3)
    (a b a' b' : Int) : requestIdMessage p₁ a b ≠ requestIdMessage p₂ a' b' := by
  intro h
  apply hne
  have := congrArg (List.take 3) h
  simpa [requestIdMessage, List.append_assoc, List.take_append_of_le_length h₁,
    List.take_append_of_le_length h₂] using this

theorem voteBlockRequestId_ne_voteStateRequestId (hc : c.Binding) (v w : Vote) :
    voteBlockRequestId c v ≠ voteStateRequestId c w := fun h ↦
  requestIdMessage_ne (by decide) (by decide) (by decide) _ _ _ _ (hc.sha256_inj h)

theorem voteBlockRequestId_ne_proposalRequestId (hc : c.Binding) (v : Vote) (p : Proposal) :
    voteBlockRequestId c v ≠ proposalRequestId c p := fun h ↦
  requestIdMessage_ne (by decide) (by decide) (by decide) _ _ _ _ (hc.sha256_inj h)

theorem voteBlockSignId_eq_ok {chainID : Bytes} {v : Vote} {q : Nat} {qh id : Bytes} :
    voteBlockSignId c chainID v q qh = .ok id ↔
      ∃ bz, voteBlockSignBytes chainID v = .ok bz ∧ id = signIdOf c q qh (voteBlockRequestId c v) bz := by
  simp only [voteBlockSignId, Except.bind_eq_ok, Except.pure_eq_ok]
  exact exists_congr fun _ ↦ and_congr_right fun _ ↦ eq_comm

theorem voteStateSignId_eq_ok {v : Vote} {q : Nat} {qh id : Bytes} :
    voteStateSignId c v q qh = .ok id ↔
      ∃ bz, voteStateSignBytes v = .ok bz ∧ id = signIdOf c q qh (voteStateRequestId c v) bz := by
  simp only [voteStateSignId, Except.bind_eq_ok, Except.pure_eq_ok]
  exact exists_congr fun _ ↦ and_congr_right fun _ ↦ eq_comm

theorem proposalBlockSignId_eq_ok {chainID : Bytes} {p : Proposal} {q : Nat} {qh id : Bytes} :
    proposalBlockSignId c chainID p q qh = .ok id ↔
      ∃ bz, proposalBlockSignBytes chainID p = .ok bz ∧
        id = signIdOf c q qh (proposalRequestId c p) bz := by
  simp only [proposalBlockSignId, Except.bind_eq_ok, Except.pure_eq_ok]
  exact exists_congr fun _ ↦ and_congr_right fun _ ↦ eq_comm

end SignIds

end Tenderdash
