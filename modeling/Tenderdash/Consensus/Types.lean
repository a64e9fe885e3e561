import Tenderdash.Types.Commit
import Tenderdash.Types.PartSet
import Mathlib.Order.Basic
import Mathlib.Order.Lex

/-!
# The consensus state's vocabulary

`consensus/types/round_state.go`, `consensus/types/height_vote_set.go`,
`consensus/msgs.go`, `state/state.go` and `store/store.go`, as far as the
consensus state machine reads them: round steps and their order, the node's
view of the chain state, the messages and timeouts it handles, and the vote
sets of a height.

Round numbers are `int32` in Go and never come near overflow here
(`SafeAddInt32` would panic first), so they are integers.
-/

namespace Tenderdash

/-- `cstypes.RoundStepType`, in the order of its numeric values. -/
inductive RoundStepType where
  | newHeight
  | newRound
  | propose
  | prevote
  | prevoteWait
  | precommit
  | precommitWait
  | applyCommit
deriving DecidableEq, Repr

namespace RoundStepType

/-- The numeric value of a step, `0x01` to `0x08`. -/
def toNat : RoundStepType → ℕ
  | newHeight => 1
  | newRound => 2
  | propose => 3
  | prevote => 4
  | prevoteWait => 5
  | precommit => 6
  | precommitWait => 7
  | applyCommit => 8

theorem toNat_injective : Function.Injective toNat := by
  intro a b h
  cases a <;> cases b <;> simp_all [toNat]

/-- Steps compare by their numeric values, as the Go code compares them. -/
instance : LinearOrder RoundStepType := LinearOrder.lift' toNat toNat_injective

theorem le_iff_toNat_le {a b : RoundStepType} : a ≤ b ↔ a.toNat ≤ b.toNat := Iff.rfl

theorem lt_iff_toNat_lt {a b : RoundStepType} : a < b ↔ a.toNat < b.toNat := Iff.rfl

end RoundStepType

/-- The part of `sm.State` that consensus reads. -/
structure SmState where
  chainID : Bytes
  initialHeight : ℤ
  lastBlockHeight : ℤ
  lastCoreChainLockedBlockHeight : ℕ
  nextValidators : ValidatorSet
  validators : ValidatorSet
  lastValidators : ValidatorSet
  maxBlockBytes : ℤ
  appHash : Bytes

/-- `State.ValidatorsAtHeight`. -/
def SmState.validatorsAtHeight (state : SmState) (height : ℤ) : ValidatorSet :=
  if state.lastBlockHeight = height then state.lastValidators
  else if state.lastBlockHeight + 2 = height then state.nextValidators
  else state.validators

/-- The settings of `config.ConsensusConfig` that change what consensus does
(the timeout durations do not: the model keeps which timeouts were scheduled,
not when they fire). -/
structure ConsensusConfig where
  skipTimeoutCommit : Bool
  createEmptyBlocks : Bool
  createEmptyBlocksIntervalPositive : Bool

/-- `ConsensusConfig.WaitForTxs`. -/
def ConsensusConfig.waitForTxs (config : ConsensusConfig) : Bool :=
  !config.createEmptyBlocks || config.createEmptyBlocksIntervalPositive

/-- `timeoutInfo`, without its duration. -/
structure TimeoutInfo where
  height : ℤ
  round : ℤ
  step : RoundStepType
deriving DecidableEq, Repr

/-- The messages `handleMsg` handles.  A block part sent by the node itself can
be nil; one from a peer never is. -/
inductive Message where
  | proposal (proposal : Proposal)
  | blockPart (height round : ℤ) (part : Option Part)
  | vote (vote : Vote)
  | commit (commit : Commit)

/-- `msgInfo`: a message and the peer it came from, empty for the node's own. -/
structure MsgInfo where
  msg : Message
  peerID : P2PID

/-- What consensus reads of the block store: its base and height, and the app
hash in the header of each stored block. -/
structure BlockStore where
  base : ℤ
  height : ℤ
  appHash : ℤ → Option Bytes

/-! ## The vote sets of a height -/

/-- `RoundVoteSet`: both sets are nil for validators without public keys. -/
structure RoundVoteSet where
  prevotes : Option VoteSet
  precommits : Option VoteSet

/-- Why `HeightVoteSet.AddVote` refuses a vote. -/
inductive HeightVoteError where
  | unwantedRound
  | vote (e : VoteError)
deriving DecidableEq, Repr

/-- `cstypes.HeightVoteSet`: the vote sets of the rounds up to `round`, and up
to two catch-up rounds beyond it per peer. -/
structure HeightVoteSet where
  chainID : Bytes
  height : ℤ
  valSet : ValidatorSet
  round : ℤ
  roundVoteSets : ℤ → Option RoundVoteSet
  peerCatchupRounds : P2PID → List ℤ

namespace HeightVoteSet

/-- `addRound`; adding a round twice panics. -/
def addRound (hvs : HeightVoteSet) (round : ℤ) : Except String HeightVoteSet :=
  if (hvs.roundVoteSets round).isSome then .error "addRound() for an existing round"
  else if hvs.valSet.hasPublicKeys then do
    let prevotes ← newVoteSet hvs.chainID hvs.height round .prevote hvs.valSet
    let precommits ← newVoteSet hvs.chainID hvs.height round .precommit hvs.valSet
    pure { hvs with
      roundVoteSets := Function.update hvs.roundVoteSets round (some ⟨some prevotes, some precommits⟩) }
  else
    pure { hvs with roundVoteSets := Function.update hvs.roundVoteSets round (some ⟨none, none⟩) }

/-- `NewHeightVoteSet`, which `Reset`s to round 0. -/
def new (chainID : Bytes) (height : ℤ) (valSet : ValidatorSet) : Except String HeightVoteSet :=
  let hvs : HeightVoteSet := ⟨chainID, height, valSet, 0, fun _ ↦ none, fun _ ↦ []⟩
  (hvs.addRound 0).map fun hvs ↦ { hvs with round := 0 }

/-- The loop of `SetRound`: the `n` rounds from `r` on, each added unless a peer's
catch-up already did. -/
def addRounds (hvs : HeightVoteSet) (r : ℤ) : ℕ → Except String HeightVoteSet
  | 0 => .ok hvs
  | n + 1 => do
      let hvs ← if (hvs.roundVoteSets r).isSome then pure hvs else hvs.addRound r
      addRounds hvs (r + 1) n

/-- `SetRound`: track every round from the one before the current up to
`round`. -/
def setRound (hvs : HeightVoteSet) (round : ℤ) : Except String HeightVoteSet :=
  let newRound := hvs.round - 1
  if hvs.round ≠ 0 ∧ round < newRound then .error "SetRound() must increment hvs.round"
  else do
    let hvs ← hvs.addRounds newRound (round - newRound + 1).toNat
    pure { hvs with round }

/-- `Prevotes`: nil for a round not tracked. -/
def prevotes (hvs : HeightVoteSet) (round : ℤ) : Option VoteSet :=
  (hvs.roundVoteSets round).bind (·.prevotes)

/-- `Precommits`: nil for a round not tracked. -/
def precommits (hvs : HeightVoteSet) (round : ℤ) : Option VoteSet :=
  (hvs.roundVoteSets round).bind (·.precommits)

/-- `getVoteSet`; a type other than prevote and precommit panics. -/
def getVoteSet (hvs : HeightVoteSet) (round : ℤ) : SignedMsgType → Except String (Option VoteSet)
  | .prevote => .ok (hvs.prevotes round)
  | .precommit => .ok (hvs.precommits round)
  | _ => .error "Unexpected vote type"

/-- Write back the vote set of a round and vote type after a vote was added to
it (Go changes the set in place). -/
def setVoteSet (hvs : HeightVoteSet) (round : ℤ) (type : SignedMsgType) (vs : VoteSet) :
    HeightVoteSet :=
  { hvs with
    roundVoteSets := Function.update hvs.roundVoteSets round
      ((hvs.roundVoteSets round).map fun rvs ↦
        if type = .prevote then { rvs with prevotes := some vs } else { rvs with precommits := some vs }) }

section AddVote

variable (recover : List Bytes → List Bytes → Except String Bytes)
  (verify : Bytes → ℕ → Bytes → Bytes → Bytes → Vote → Except String Unit)

/-- The vote set a vote goes into, with the vote sets after finding it: for a
round not tracked, a new catch-up round of the peer, if the peer has had fewer
than two; none if it has had two. -/
def catchupVoteSet (hvs : HeightVoteSet) (vote : Vote) (peerID : P2PID) :
    Except String (Option (HeightVoteSet × VoteSet)) := do
  match ← hvs.getVoteSet vote.round vote.type with
  | some vs => pure (some (hvs, vs))
  | none =>
      let rndz := hvs.peerCatchupRounds peerID
      if rndz.length < 2 then do
        let hvs ← hvs.addRound vote.round
        match ← hvs.getVoteSet vote.round vote.type with
        | some vs => pure (some ({ hvs with
            peerCatchupRounds := Function.update hvs.peerCatchupRounds peerID (rndz ++ [vote.round]) }, vs))
        | none => throw "AddVote() on nil VoteSet"
      else pure none

/-- `AddVote`: the vote sets after the call, whether the vote was added, and the
error. -/
def addVote (hvs : HeightVoteSet) (vote : Vote) (peerID : P2PID) :
    Except String (HeightVoteSet × Bool × Option HeightVoteError) :=
  if !hvs.valSet.hasPublicKeys then .ok (hvs, false, none)
  else if !vote.type.isVoteTypeValid then .ok (hvs, false, none)
  else do
    match ← hvs.catchupVoteSet vote peerID with
    | none => pure (hvs, false, some .unwantedRound)
    | some (hvs, vs) =>
        let (vs, added, err) ← vs.addVote recover verify vote
        pure (hvs.setVoteSet vote.round vote.type vs, added, err.map .vote)

end AddVote

/-- `SetPeerMaj23`; nothing for a round not tracked. -/
def setPeerMaj23 (hvs : HeightVoteSet) (round : ℤ) (type : SignedMsgType) (peerID : P2PID)
    (blockID : BlockID) : Except String (HeightVoteSet × Option PeerMaj23Error) :=
  if !type.isVoteTypeValid then .ok (hvs, none)
  else do
    match ← hvs.getVoteSet round type with
    | none => pure (hvs, none)
    | some vs =>
        match vs.setPeerMaj23 peerID blockID with
        | .ok vs => pure (hvs.setVoteSet round type vs, none)
        | .error e => pure (hvs, some e)

/-- The downward loop of `POLInfo`, from round `r` to round 0. -/
def polInfoFrom (hvs : HeightVoteSet) : ℕ → Option (ℤ × BlockID)
  | 0 => ((hvs.prevotes 0).bind (·.twoThirdsMajority)).map ((0, ·))
  | r + 1 =>
      match (hvs.prevotes (r + 1)).bind (·.twoThirdsMajority) with
      | some blockID => some (r + 1, blockID)
      | none => polInfoFrom hvs r

/-- `POLInfo`: the last round up to `round` with a prevote majority, and its
block; -1 and the zero block ID if there is none. -/
def polInfo (hvs : HeightVoteSet) : ℤ × BlockID :=
  let none' : ℤ × BlockID := (-1, ⟨none, ⟨0, []⟩⟩)
  if hvs.round < 0 then none' else (hvs.polInfoFrom hvs.round.toNat).getD none'

end HeightVoteSet

end Tenderdash
