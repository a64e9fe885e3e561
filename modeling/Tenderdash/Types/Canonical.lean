import Tenderdash.Types.Basic

/-!
# Canonical forms and sign bytes

What a validator signs: the canonical form of a vote or proposal
(`types/canonical.go`), marshalled field by field as the generated code of
`proto/tendermint/types/canonical.pb.go` does and prefixed with its length
(`protoio.MarshalDelimited`), then hashed into a *sign ID* together with the
quorum and a request ID (`types/vote.go`, `types/proposal.go`).

## What is transcribed and what is given

* Canonicalisation, marshalling and the request IDs are transcribed.  The
  canonical forms fail where `BlockIDFromProto`/`StateIDFromProto` reject the
  identifier, and the Go code then panics; here they return the panic message.
* SHA-256 (`crypto.Sha256`) and the BLS sign-hash builder behind
  `crypto.SignId` live outside the repository and are the fields of `Crypto`.
* A Go `string` is a byte sequence, so a chain ID is `Bytes`.
* A `time.Time` is kept as the `google.protobuf.Timestamp` it marshals to.
-/

namespace Tenderdash

open Protobuf

/-- Two's-complement `uint64` of a Go integer, as `uint64(x)` computes it. -/
def toUint64 (x : Int) : Nat := (x % 2 ^ 64).toNat

/-- Two's-complement `uint32` of a Go integer. -/
def toUint32 (x : Int) : Nat := (x % 2 ^ 32).toNat

theorem toUint64_lt (x : Int) : toUint64 x < 2 ^ 64 := by
  unfold toUint64; omega

/-- The hash primitives the signer and the verifiers call but the repository does
not implement: `crypto.Sha256`, and `crypto.SignId` (the BLS sign hash of a
quorum type, quorum hash, request ID and message hash). -/
structure Crypto where
  sha256 : Bytes → Bytes
  signId : Nat → Bytes → Bytes → Bytes → Bytes

/-- `google.protobuf.Timestamp`, the wire form of a `time.Time`. -/
structure Timestamp where
  seconds : Int
  nanos : Int
deriving DecidableEq, Repr

namespace Timestamp

/-- `int64 seconds = 1; int32 nanos = 2;`, each omitted when zero. -/
def toFields (t : Timestamp) : List Field :=
  (if t.seconds = 0 then [] else [⟨1, .varint (toUint64 t.seconds)⟩]) ++
    (if t.nanos = 0 then [] else [⟨2, .varint (toUint64 t.nanos)⟩])

end Timestamp

/-! ## Canonical forms -/

/-- `tmproto.CanonicalBlockID`. -/
structure CanonicalBlockID where
  hash : Bytes
  partSetHeader : PartSetHeader
deriving DecidableEq, Repr

/-- `tmproto.CanonicalStateID`. -/
structure CanonicalStateID where
  lastAppHash : Bytes
deriving DecidableEq, Repr

/-- `tmproto.CanonicalVote`: a vote without its validator fields. -/
structure CanonicalVote where
  type : SignedMsgType
  height : Int
  round : Int
  blockID : Option CanonicalBlockID
  stateID : Option CanonicalStateID
  chainID : Bytes
deriving DecidableEq, Repr

/-- `tmproto.CanonicalStateVote`: what a state signature covers. -/
structure CanonicalStateVote where
  height : Int
  stateID : Option CanonicalStateID
deriving DecidableEq, Repr

/-- `tmproto.CanonicalProposal`. -/
structure CanonicalProposal where
  type : SignedMsgType
  height : Int
  round : Int
  polRound : Int
  blockID : Option CanonicalBlockID
  timestamp : Timestamp
  chainID : Bytes
deriving DecidableEq, Repr

/-- A field holding an embedded message, omitted when the pointer is nil. -/
def embedded (num : Nat) : Option (List Field) → List Field
  | none => []
  | some fs => [⟨num, .bytes (encodeFields fs)⟩]

/-- A `bytes` or `string` field, omitted when empty. -/
def bytesField (num : Nat) (b : Bytes) : List Field :=
  if b = [] then [] else [⟨num, .bytes b⟩]

/-- An `sfixed64` field, omitted when zero. -/
def sfixed64Field (num : Nat) (x : Int) : List Field :=
  if x = 0 then [] else [⟨num, .fixed64 (toUint64 x)⟩]

/-- A varint field of an integer or enumeration, omitted when zero. -/
def varintField (num : Nat) (x : Int) : List Field :=
  if x = 0 then [] else [⟨num, .varint (toUint64 x)⟩]

/-- `hash = 1; part_set_header = 2` (not nullable, so always written). -/
def CanonicalBlockID.toFields (b : CanonicalBlockID) : List Field :=
  bytesField 1 b.hash ++ [⟨2, .bytes (encodeFields b.partSetHeader.toFields)⟩]

/-- `last_app_hash = 1`. -/
def CanonicalStateID.toFields (s : CanonicalStateID) : List Field :=
  bytesField 1 s.lastAppHash

/-- `type = 1; height = 2; round = 3; block_id = 4; chain_id = 6; state_id = 7`,
in field-number order as the generated marshaller writes them. -/
def CanonicalVote.toFields (v : CanonicalVote) : List Field :=
  varintField 1 v.type.toNat ++ sfixed64Field 2 v.height ++ sfixed64Field 3 v.round ++
    embedded 4 (v.blockID.map CanonicalBlockID.toFields) ++ bytesField 6 v.chainID ++
    embedded 7 (v.stateID.map CanonicalStateID.toFields)

/-- `height = 1; state_id = 2`. -/
def CanonicalStateVote.toFields (v : CanonicalStateVote) : List Field :=
  sfixed64Field 1 v.height ++ embedded 2 (v.stateID.map CanonicalStateID.toFields)

/-- `type = 1; height = 2; round = 3; pol_round = 4; block_id = 5; timestamp = 6;
chain_id = 7`; the timestamp is not nullable and always written. -/
def CanonicalProposal.toFields (p : CanonicalProposal) : List Field :=
  varintField 1 p.type.toNat ++ sfixed64Field 2 p.height ++ sfixed64Field 3 p.round ++
    varintField 4 p.polRound ++ embedded 5 (p.blockID.map CanonicalBlockID.toFields) ++
    [⟨6, .bytes (encodeFields p.timestamp.toFields)⟩] ++ bytesField 7 p.chainID

/-- Proposals that agree up to their timestamps: `proto.Equal` once both
timestamps are set to the same instant, as `checkProposalsOnlyDifferByTimestamp`
does. -/
def CanonicalProposal.sameButTimestamp (a b : CanonicalProposal) : Bool :=
  { a with timestamp := ⟨0, 0⟩ } == { b with timestamp := ⟨0, 0⟩ }

/-! ## Reading canonical proposals back

A reader of canonical proposals by field lookup.  It agrees with the generated
`Unmarshal` on what the marshaller writes (each field once, in order), which is
all it is used for: it instantiates the signer's proposal decoder at concrete
inputs. -/

/-- The Go integer whose two's-complement `uint64` is `n`. -/
def fromUint64 (n : Nat) : Int := if n < 2 ^ 63 then n else n - 2 ^ 64

/-- The enumeration value of a wire number; unknown numbers read as `unknown`. -/
def SignedMsgType.ofWire : Nat → SignedMsgType
  | 1 => .prevote
  | 2 => .precommit
  | 32 => .proposal
  | _ => .unknown

/-- Read a part set header's fields. -/
def readPartSetHeader (fs : List Field) : PartSetHeader :=
  ⟨varintAt 1 fs, (bytesAt 2 fs).getD []⟩

/-- Read a canonical block ID's fields. -/
def readCanonicalBlockID (fs : List Field) : Option CanonicalBlockID :=
  (parseFields ((bytesAt 2 fs).getD [])).map fun psh =>
    ⟨(bytesAt 1 fs).getD [], readPartSetHeader psh⟩

/-- Read a timestamp's fields. -/
def readTimestamp (fs : List Field) : Timestamp :=
  ⟨fromUint64 (varintAt 1 fs), fromUint64 (varintAt 2 fs)⟩

/-- Read the canonical proposal of delimited sign bytes. -/
def readCanonicalProposal (bs : Bytes) : Except String CanonicalProposal :=
  match (undelimited bs).bind parseFields with
  | none => .error "unexpected EOF"
  | some fs =>
      let blockID := (bytesAt 5 fs).bind fun b => (parseFields b).bind readCanonicalBlockID
      let timestamp := ((bytesAt 6 fs).bind parseFields).map readTimestamp
      .ok ⟨.ofWire (varintAt 1 fs), fromUint64 (fixed64At 2 fs), fromUint64 (fixed64At 3 fs),
        fromUint64 (varintAt 4 fs), blockID, timestamp.getD ⟨0, 0⟩, (bytesAt 7 fs).getD []⟩

/-! ## Canonicalisation -/

/-- `CanonicalizeBlockID`: the zero block ID becomes nil; an identifier that
`BlockIDFromProto` rejects makes the Go code panic. -/
def canonicalizeBlockID (b : BlockID) : Except String (Option CanonicalBlockID) :=
  if !b.validateBasic then .error "wrong Hash"
  else if b.isZero then .ok none
  else .ok (some ⟨b.hash.getD [], b.partSetHeader⟩)

/-- `CanonicalizeStateID`: the zero state ID becomes nil. -/
def canonicalizeStateID (s : StateID) : Except String (Option CanonicalStateID) :=
  if !s.validateBasic then .error "wrong app Hash"
  else if s.isZero then .ok none
  else .ok (some ⟨s.lastAppHash.getD []⟩)

/-- `CanonicalizeVote`. -/
def canonicalizeVote (chainID : Bytes) (v : Vote) : Except String CanonicalVote := do
  let blockID ← canonicalizeBlockID v.blockID
  let stateID ← canonicalizeStateID v.stateID
  pure ⟨v.type, v.height, v.round, blockID, stateID, chainID⟩

/-- `CanonicalizeStateVote`. -/
def canonicalizeStateVote (v : Vote) : Except String CanonicalStateVote := do
  let stateID ← canonicalizeStateID v.stateID
  pure ⟨v.height, stateID⟩

/-- `tmproto.Proposal` (and `types.Proposal`). -/
structure Proposal where
  type : SignedMsgType
  height : Int
  coreChainLockedHeight : Nat
  round : Int
  polRound : Int
  blockID : BlockID
  timestamp : Timestamp
  signature : Option Bytes
deriving DecidableEq, Repr

/-- `CanonicalizeProposal`: note that the core chain-locked height is not part of
what is signed. -/
def canonicalizeProposal (chainID : Bytes) (p : Proposal) : Except String CanonicalProposal := do
  let blockID ← canonicalizeBlockID p.blockID
  pure ⟨.proposal, p.height, p.round, p.polRound, blockID, p.timestamp, chainID⟩

/-! ## Sign bytes -/

/-- `VoteBlockSignBytes`: the delimited canonical vote. -/
def voteBlockSignBytes (chainID : Bytes) (v : Vote) : Except String Bytes := do
  let pb ← canonicalizeVote chainID v
  pure (delimited (encodeFields pb.toFields))

/-- `VoteStateSignBytes`: the delimited canonical state vote. -/
def voteStateSignBytes (v : Vote) : Except String Bytes := do
  let pb ← canonicalizeStateVote v
  pure (delimited (encodeFields pb.toFields))

/-- `ProposalBlockSignBytes`: the delimited canonical proposal. -/
def proposalBlockSignBytes (chainID : Bytes) (p : Proposal) : Except String Bytes := do
  let pb ← canonicalizeProposal chainID p
  pure (delimited (encodeFields pb.toFields))

/-! ## Request and sign IDs -/

/-- The ASCII bytes of a request-ID prefix. -/
def asciiBytes (s : String) : Bytes := s.toList.map fun c => UInt8.ofNat c.toNat

/-- The message hashed into a request ID: a prefix, the height as a
little-endian `uint64` and the round as a little-endian `uint32`. -/
def requestIdMessage (pfx : String) (height round : Int) : Bytes :=
  asciiBytes pfx ++ leBytes 8 (toUint64 height) ++ leBytes 4 (toUint32 round)

section SignIds

variable (c : Crypto)

/-- `VoteBlockRequestIdProto` (and `VoteBlockRequestId`, which computes the same
from the same height and round). -/
def voteBlockRequestId (v : Vote) : Bytes := c.sha256 (requestIdMessage "dpbvote" v.height v.round)

/-- `VoteStateRequestIdProto` (and `VoteStateRequestId`). -/
def voteStateRequestId (v : Vote) : Bytes := c.sha256 (requestIdMessage "dpsvote" v.height v.round)

/-- `ProposalRequestIdProto`. -/
def proposalRequestId (p : Proposal) : Bytes :=
  c.sha256 (requestIdMessage "dpproposal" p.height p.round)

/-- The sign ID of a message: `crypto.SignId` over the byte-reversed quorum hash,
request ID and message hash (`bls12381.ReverseBytes`). -/
def signIdOf (quorumType : Nat) (quorumHash requestId signBytes : Bytes) : Bytes :=
  c.signId quorumType quorumHash.reverse requestId.reverse (c.sha256 signBytes).reverse

/-- `VoteBlockSignId`. -/
def voteBlockSignId (chainID : Bytes) (v : Vote) (quorumType : Nat) (quorumHash : Bytes) :
    Except String Bytes := do
  let bz ← voteBlockSignBytes chainID v
  pure (signIdOf c quorumType quorumHash (voteBlockRequestId c v) bz)

/-- `VoteStateSignId`. -/
def voteStateSignId (v : Vote) (quorumType : Nat) (quorumHash : Bytes) : Except String Bytes := do
  let bz ← voteStateSignBytes v
  pure (signIdOf c quorumType quorumHash (voteStateRequestId c v) bz)

/-- `ProposalBlockSignId`. -/
def proposalBlockSignId (chainID : Bytes) (p : Proposal) (quorumType : Nat) (quorumHash : Bytes) :
    Except String Bytes := do
  let bz ← proposalBlockSignBytes chainID p
  pure (signIdOf c quorumType quorumHash (proposalRequestId c p) bz)

end SignIds

end Tenderdash
