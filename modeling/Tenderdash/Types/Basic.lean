import Tenderdash.Lib.Protobuf

/-!
# Byte strings, identifiers and votes

The data model shared by the signer, the vote sets, the part sets and the
consensus state: block and state identifiers with the comparisons the Go code
makes on them (`types/block.go`, `types/part_set.go`), vote types
(`proto/tendermint/types/types.proto`) and the vote record (`types/vote.go`).

## Go slices

A Go `[]byte` is either `nil` or a slice, and the code tells them apart in
places (`vote.BlockID.Hash == nil`, `lss.BlockSignBytes != nil`), while
`bytes.Equal` and `len` do not.  Fields that the code ever compares with `nil`
are `Option Bytes` here, with `none` the nil slice; the others are `Bytes`.
`bytesEqual` is `bytes.Equal`: it identifies `nil` with the empty slice.

## Calls that fail

A Go call returns a value, returns an error, or panics.  `Fault ε` is the
failure side: an error of the calling package's error type `ε`, or a panic
with its message.
-/

namespace Tenderdash

/-- A byte string. -/
abbrev Bytes := List UInt8

/-- `bytes.Equal`, on slices that may be nil: a nil slice equals the empty one. -/
def bytesEqual (a b : Option Bytes) : Bool := a.getD [] == b.getD []

@[simp] theorem bytesEqual_iff {a b : Option Bytes} : bytesEqual a b ↔ a.getD [] = b.getD [] := by
  simp [bytesEqual]

/-- How a Go call fails: an error value, or a panic. -/
inductive Fault (ε : Type) where
  | error (e : ε)
  | panic (msg : String)
deriving DecidableEq, Repr

/-- `tmhash.Size`, the length of a SHA-256 digest. -/
def hashSize : Nat := 32

/-- `types.ValidateHash`: a hash is empty or a SHA-256 digest. -/
def validHash (h : Bytes) : Bool := h.length == 0 || h.length == hashSize

/-- `crypto.SmallAppHashSize`. -/
def smallAppHashSize : Nat := 20

/-- `types.ValidateAppHash`: an app hash is empty or at least twenty bytes long. -/
def validAppHash (h : Bytes) : Bool := h.length == 0 || smallAppHashSize ≤ h.length

/-! ## Vote types -/

/-- `tmproto.SignedMsgType`, the enumeration of signed message kinds. -/
inductive SignedMsgType where
  | unknown
  | prevote
  | precommit
  | proposal
deriving DecidableEq, Repr

namespace SignedMsgType

/-- The enumeration's wire value. -/
def toNat : SignedMsgType → Nat
  | unknown => 0
  | prevote => 1
  | precommit => 2
  | proposal => 32

theorem toNat_injective : Function.Injective toNat := by
  intro a b h; cases a <;> cases b <;> simp_all [toNat]

/-- `types.IsVoteTypeValid`. -/
def isVoteTypeValid : SignedMsgType → Bool
  | prevote | precommit => true
  | _ => false

end SignedMsgType

/-! ## Identifiers -/

/-- `types.PartSetHeader`: how many parts a block was split into, and the
Merkle root of the parts. -/
structure PartSetHeader where
  total : Nat
  hash : Bytes
deriving DecidableEq, Repr

namespace PartSetHeader

/-- `PartSetHeader.Equals`. -/
def equals (a b : PartSetHeader) : Bool := a.total == b.total && a.hash == b.hash

/-- `PartSetHeader.IsZero`. -/
def isZero (p : PartSetHeader) : Bool := p.total == 0 && p.hash.length == 0

/-- The protobuf fields of `tmproto.PartSetHeader` (and of its canonical form):
`uint32 total = 1; bytes hash = 2;`, each omitted when zero. -/
def toFields (p : PartSetHeader) : List Protobuf.Field :=
  (if p.total = 0 then [] else [⟨1, .varint p.total⟩]) ++
    (if p.hash = [] then [] else [⟨2, .bytes p.hash⟩])

@[simp] theorem equals_iff {a b : PartSetHeader} : a.equals b ↔ a = b := by
  cases a; cases b; simp [equals]

/-- `PartSetHeader.ValidateBasic`: the hash is empty or a SHA-256 digest. -/
def validateBasic (psh : PartSetHeader) : Except String Unit :=
  if validHash psh.hash then pure ()
  else
    let n := psh.hash.length
    throw s!"wrong Hash: expected size to be 32 bytes, got {n} bytes"

end PartSetHeader

/-- `types.BlockID`; a nil hash is the block ID of a vote for nil. -/
structure BlockID where
  hash : Option Bytes
  partSetHeader : PartSetHeader
deriving DecidableEq, Repr

namespace BlockID

/-- `BlockID.Equals`. -/
def equals (a b : BlockID) : Bool :=
  bytesEqual a.hash b.hash && a.partSetHeader.equals b.partSetHeader

/-- `BlockID.Key`: the hash followed by the marshalled part set header, the key
of the vote sets' per-block maps. -/
def key (b : BlockID) : Bytes :=
  b.hash.getD [] ++ Protobuf.encodeFields b.partSetHeader.toFields

/-- `BlockID.IsZero`. -/
def isZero (b : BlockID) : Bool := (b.hash.getD []).length == 0 && b.partSetHeader.isZero

/-- `BlockID.IsComplete`. -/
def isComplete (b : BlockID) : Bool :=
  (b.hash.getD []).length == hashSize && 0 < b.partSetHeader.total &&
    b.partSetHeader.hash.length == hashSize

/-- `BlockID.ValidateBasic`, which `BlockIDFromProto` runs. -/
def validateBasic (b : BlockID) : Bool := validHash (b.hash.getD []) && validHash b.partSetHeader.hash

/-- Equal block IDs have equal keys, so a map keyed by `key` never holds two
entries for equal block IDs. -/
theorem key_eq_of_equals {a b : BlockID} (h : a.equals b) : a.key = b.key := by
  simp only [equals, Bool.and_eq_true, bytesEqual_iff, PartSetHeader.equals_iff] at h
  simp [key, h.1, h.2]

end BlockID

/-- `types.StateID`: the application hash a vote or commit is made against. -/
structure StateID where
  lastAppHash : Option Bytes
deriving DecidableEq, Repr

namespace StateID

/-- `StateID.Equals`. -/
def equals (a b : StateID) : Bool := bytesEqual a.lastAppHash b.lastAppHash

/-- `StateID.IsZero`. -/
def isZero (s : StateID) : Bool := (s.lastAppHash.getD []).length == 0

/-- `StateID.ValidateBasic`, which `StateIDFromProto` runs. -/
def validateBasic (s : StateID) : Bool := validAppHash (s.lastAppHash.getD [])

end StateID

/-! ## Votes -/

/-- `types.Vote` (and `tmproto.Vote`, whose fields are the same): heights,
rounds and the validator index are Go integers, modelled by `Int`. -/
structure Vote where
  type : SignedMsgType
  height : Int
  round : Int
  blockID : BlockID
  stateID : StateID
  validatorProTxHash : Bytes
  validatorIndex : Int
  blockSignature : Option Bytes
  stateSignature : Option Bytes
deriving DecidableEq, Repr

end Tenderdash
