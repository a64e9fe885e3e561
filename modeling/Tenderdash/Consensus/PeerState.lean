import Tenderdash.Bits.BitArray
import Tenderdash.Consensus.Types

/-!
# What the consensus reactor knows of a peer

`consensus/msgs.go` decodes the messages that carry bit arrays, and
`consensus/reactor.go` keeps, for every peer, a `PeerRoundState` with the bit
arrays of the block parts and the votes it believes the peer has.  The
reactor's receive routine applies every message from the peer to it, and the
gossip routines read and set bits in it.

Only the messages that carry a bit array or set a bit are modelled:
`NewValidBlock`, `ProposalPOL`, `VoteSetBits` (decoded from the wire by
`MsgFromProto`) and `HasVote`; `NewRoundStep`, which resets the arrays, is
taken as decoded.  The other fields of `PeerRoundState` (step, start time,
whether the peer has the proposal or the commit) are left out, except where a
handler tests them.  A `*BitArray` field is a value here: where the Go code
makes two fields point at one array (`CatchupCommit = Precommits`), a write
through one is not seen through the other.  Nothing below depends on it, since
every statement is about each array on its own.

Every bit array the reactor builds itself comes from `NewBitArray`, so it is
well formed, and every handler keeps the peer state well formed when the
arrays it is given are (`PeerRoundState.WellFormed.handle`, and over a whole
run `PeerRoundState.WellFormed.run_admissible`): then none of them panics.  What
`MsgFromProto` decodes from the wire form of well-formed arrays is well formed
(`msgFromProto_wellFormed`).  But `FromProto` takes the size and the words from
the wire independently, and the checks of `ValidateBasic` look at the size
only.  A `ProposalPOL` of positive size and no words is accepted and stored, and
the next `HasVote` for that round panics (`msgFromProto_proposalPOL_panics`); a
`NewValidBlock` of the same kind makes the next block part panic
(`msgFromProto_newValidBlock_panics`).
-/

namespace Tenderdash.Consensus

open Bits

/-! ## Messages -/

/-- `types.MaxVotesCount`. -/
def maxVotesCount : ℤ := 10000

/-- `types.MaxBlockPartsCount`: `MaxBlockSizeBytes / BlockPartSizeBytes + 1`. -/
def maxBlockPartsCount : ℤ := 104857600 / 65536 + 1

/-- `tmcons.NewValidBlock`; the bit array is a nullable field. -/
structure PbNewValidBlock where
  height : ℤ
  round : ℤ
  blockPartSetHeader : PartSetHeader
  blockParts : Option PbBitArray
  isCommit : Bool
deriving DecidableEq, Repr

/-- `tmcons.ProposalPOL`. -/
structure PbProposalPOL where
  height : ℤ
  proposalPolRound : ℤ
  proposalPol : PbBitArray
deriving DecidableEq, Repr

/-- `tmcons.VoteSetBits`. -/
structure PbVoteSetBits where
  height : ℤ
  round : ℤ
  type : SignedMsgType
  blockID : BlockID
  votes : PbBitArray
deriving DecidableEq, Repr

/-- `tmcons.HasVote`. -/
structure PbHasVote where
  height : ℤ
  round : ℤ
  type : SignedMsgType
  index : ℤ
deriving DecidableEq, Repr

/-- The cases of `tmcons.Message` modelled here. -/
inductive PbMessage where
  | newValidBlock (m : PbNewValidBlock)
  | proposalPol (m : PbProposalPOL)
  | voteSetBits (m : PbVoteSetBits)
  | hasVote (m : PbHasVote)
deriving DecidableEq, Repr

/-- `NewRoundStepMessage`, as decoded; the start time is left out. -/
structure NewRoundStepMessage where
  height : ℤ
  round : ℤ
  step : RoundStepType
  lastCommitRound : ℤ
deriving DecidableEq, Repr

/-- `NewValidBlockMessage`. -/
structure NewValidBlockMessage where
  height : ℤ
  round : ℤ
  blockPartSetHeader : PartSetHeader
  blockParts : Option BitArray
  isCommit : Bool
deriving DecidableEq, Repr

/-- `ProposalPOLMessage`. -/
structure ProposalPOLMessage where
  height : ℤ
  proposalPOLRound : ℤ
  proposalPOL : Option BitArray
deriving DecidableEq, Repr

/-- `VoteSetBitsMessage`. -/
structure VoteSetBitsMessage where
  height : ℤ
  round : ℤ
  type : SignedMsgType
  blockID : BlockID
  votes : Option BitArray
deriving DecidableEq, Repr

/-- `HasVoteMessage`. -/
structure HasVoteMessage where
  height : ℤ
  round : ℤ
  type : SignedMsgType
  index : ℤ
deriving DecidableEq, Repr

/-- The messages of `consensus.Message` that the reactor applies to a peer's
state, as far as they are modelled here. -/
inductive ReactorMessage where
  | newRoundStep (m : NewRoundStepMessage)
  | newValidBlock (m : NewValidBlockMessage)
  | proposalPOL (m : ProposalPOLMessage)
  | voteSetBits (m : VoteSetBitsMessage)
  | hasVote (m : HasVoteMessage)
deriving DecidableEq, Repr

/-- `NewValidBlockMessage.ValidateBasic`. -/
def NewValidBlockMessage.validateBasic (m : NewValidBlockMessage) : Except String Unit := do
  if m.height < 0 then throw "negative Height"
  if m.round < 0 then throw "negative Round"
  m.blockPartSetHeader.validateBasic.mapError fun e => s!"wrong BlockPartSetHeader: {e}"
  let size := Ptr.size m.blockParts
  let total := m.blockPartSetHeader.total
  if size = 0 then throw "empty blockParts"
  if size ≠ total then
    throw s!"blockParts bit array size {size} not equal to BlockPartSetHeader.Total {total}"
  if size > maxBlockPartsCount then
    let max := maxBlockPartsCount
    throw s!"blockParts bit array is too big: {size}, max: {max}"

/-- `ProposalPOLMessage.ValidateBasic`. -/
def ProposalPOLMessage.validateBasic (m : ProposalPOLMessage) : Except String Unit := do
  if m.height < 0 then throw "negative Height"
  if m.proposalPOLRound < 0 then throw "negative ProposalPOLRound"
  let size := Ptr.size m.proposalPOL
  if size = 0 then throw "empty ProposalPOL bit array"
  if size > maxVotesCount then
    let max := maxVotesCount
    throw s!"proposalPOL bit array is too big: {size}, max: {max}"

/-- `VoteSetBitsMessage.ValidateBasic`; the size may be zero, for a node that
has no such votes. -/
def VoteSetBitsMessage.validateBasic (m : VoteSetBitsMessage) : Except String Unit := do
  if m.height < 0 then throw "negative Height"
  if !m.type.isVoteTypeValid then throw "invalid Type"
  if !m.blockID.validateBasic then throw "wrong BlockID: wrong Hash"
  let size := Ptr.size m.votes
  if size > maxVotesCount then
    let max := maxVotesCount
    throw s!"votes bit array is too big: {size}, max: {max}"

/-- `HasVoteMessage.ValidateBasic`. -/
def HasVoteMessage.validateBasic (m : HasVoteMessage) : Except String Unit := do
  if m.height < 0 then throw "negative Height"
  if m.round < 0 then throw "negative Round"
  if !m.type.isVoteTypeValid then throw "invalid Type"
  if m.index < 0 then throw "negative Index"

/-! What each `ValidateBasic` accepts, check by check. -/

theorem NewValidBlockMessage.validateBasic_eq_ok {m : NewValidBlockMessage} :
    m.validateBasic = .ok () ↔ 0 ≤ m.height ∧ 0 ≤ m.round ∧ m.blockPartSetHeader.validateBasic = .ok () ∧
      Ptr.size m.blockParts ≠ 0 ∧ Ptr.size m.blockParts = m.blockPartSetHeader.total ∧
      Ptr.size m.blockParts ≤ maxBlockPartsCount := by
  simp [NewValidBlockMessage.validateBasic, throw, throwThe, MonadExceptOf.throw, pure, Except.pure]

theorem ProposalPOLMessage.validateBasic_eq_ok {m : ProposalPOLMessage} :
    m.validateBasic = .ok () ↔ 0 ≤ m.height ∧ 0 ≤ m.proposalPOLRound ∧
      Ptr.size m.proposalPOL ≠ 0 ∧ Ptr.size m.proposalPOL ≤ maxVotesCount := by
  simp [ProposalPOLMessage.validateBasic, throw, throwThe, MonadExceptOf.throw, bind, Except.bind,
    pure, Except.pure]

theorem VoteSetBitsMessage.validateBasic_eq_ok {m : VoteSetBitsMessage} :
    m.validateBasic = .ok () ↔ 0 ≤ m.height ∧ m.type.isVoteTypeValid ∧ m.blockID.validateBasic ∧
      Ptr.size m.votes ≤ maxVotesCount := by
  simp [VoteSetBitsMessage.validateBasic, throw, throwThe, MonadExceptOf.throw, bind, Except.bind,
    pure, Except.pure]

theorem HasVoteMessage.validateBasic_eq_ok {m : HasVoteMessage} :
    m.validateBasic = .ok () ↔ 0 ≤ m.height ∧ 0 ≤ m.round ∧ m.type.isVoteTypeValid ∧ 0 ≤ m.index := by
  simp [HasVoteMessage.validateBasic, throw, throwThe, MonadExceptOf.throw, bind, Except.bind,
    pure, Except.pure]

/-- `Message.ValidateBasic`; `NewRoundStep` is taken as validated. -/
def ReactorMessage.validateBasic : ReactorMessage → Except String Unit
  | .newRoundStep _ => pure ()
  | .newValidBlock m => m.validateBasic
  | .proposalPOL m => m.validateBasic
  | .voteSetBits m => m.validateBasic
  | .hasVote m => m.validateBasic

/-- The decoding of a bit array in `MsgFromProto`: `pbBits := new(bits.BitArray);
pbBits.FromProto(...)`, a pointer that is never nil. -/
def decodeBits (p : Option PbBitArray) : Option BitArray := some ((BitArray.mk 0 []).fromProto p)

/-- The switch of `MsgFromProto`: each wire message to its Go message. -/
def decodeMessage : PbMessage → Except String ReactorMessage
  | .newValidBlock m => do
    m.blockPartSetHeader.validateBasic.mapError fun e => s!"parts to proto error: {e}"
    pure (.newValidBlock ⟨m.height, m.round, m.blockPartSetHeader, decodeBits m.blockParts,
      m.isCommit⟩)
  | .proposalPol m =>
    pure (.proposalPOL ⟨m.height, m.proposalPolRound, decodeBits (some m.proposalPol)⟩)
  | .voteSetBits m => do
    if !m.blockID.validateBasic then throw "voteSetBits msg to proto error: wrong Hash"
    pure (.voteSetBits ⟨m.height, m.round, m.type, m.blockID, decodeBits (some m.votes)⟩)
  | .hasVote m => pure (.hasVote ⟨m.height, m.round, m.type, m.index⟩)

/-- `MsgFromProto`, for the cases modelled: decode, then `ValidateBasic`. -/
def msgFromProto (msg : PbMessage) : Except String ReactorMessage := do
  let pb ← decodeMessage msg
  pb.validateBasic
  pure pb

/-! ## The peer's round state -/

/-- The part of `cstypes.PeerRoundState` the handlers below read or write. -/
structure PeerRoundState where
  height : ℤ
  round : ℤ
  step : RoundStepType
  proposal : Bool
  proposalBlockPartSetHeader : PartSetHeader
  proposalBlockParts : Option BitArray
  proposalPOLRound : ℤ
  proposalPOL : Option BitArray
  prevotes : Option BitArray
  precommits : Option BitArray
  lastCommitRound : ℤ
  lastPrecommits : Option BitArray
  catchupCommitRound : ℤ
  catchupCommit : Option BitArray
deriving DecidableEq, Repr

/-- The peer state `NewPeerState` starts from. -/
def newPeerRoundState : PeerRoundState :=
  ⟨0, -1, .newHeight, false, ⟨0, []⟩, none, -1, none, none, none, -1, none, -1, none⟩

/-- The vote bit arrays of a peer round state, which `getVoteBitArray` chooses among. -/
inductive VoteBits where
  | prevotes
  | precommits
  | lastPrecommits
  | catchupCommit
  | proposalPOL
deriving DecidableEq, Repr

namespace PeerRoundState

/-- The array of a vote bit array field. -/
def votes (prs : PeerRoundState) : VoteBits → Option BitArray
  | .prevotes => prs.prevotes
  | .precommits => prs.precommits
  | .lastPrecommits => prs.lastPrecommits
  | .catchupCommit => prs.catchupCommit
  | .proposalPOL => prs.proposalPOL

/-- Writing back the array of a vote bit array field, as a write through the
pointer `getVoteBitArray` returned. -/
def setVotes (prs : PeerRoundState) (f : VoteBits) (bA : Option BitArray) : PeerRoundState :=
  match f with
  | .prevotes => { prs with prevotes := bA }
  | .precommits => { prs with precommits := bA }
  | .lastPrecommits => { prs with lastPrecommits := bA }
  | .catchupCommit => { prs with catchupCommit := bA }
  | .proposalPOL => { prs with proposalPOL := bA }

@[simp] theorem votes_setVotes_self (prs : PeerRoundState) (f : VoteBits) (bA : Option BitArray) :
    (prs.setVotes f bA).votes f = bA := by
  cases f <;> rfl

@[simp] theorem votes_setVotes_ne (prs : PeerRoundState) {f g : VoteBits} (h : g ≠ f)
    (bA : Option BitArray) : (prs.setVotes f bA).votes g = prs.votes g := by
  cases f <;> cases g <;> first | rfl | exact absurd rfl h

@[simp] theorem proposalBlockParts_setVotes (prs : PeerRoundState) (f : VoteBits)
    (bA : Option BitArray) : (prs.setVotes f bA).proposalBlockParts = prs.proposalBlockParts := by
  cases f <;> rfl

/-- Every bit array of the peer state is one `NewBitArray` could have built. -/
structure WellFormed (prs : PeerRoundState) : Prop where
  proposalBlockParts : Ptr.WellFormed prs.proposalBlockParts
  proposalPOL : Ptr.WellFormed prs.proposalPOL
  prevotes : Ptr.WellFormed prs.prevotes
  precommits : Ptr.WellFormed prs.precommits
  lastPrecommits : Ptr.WellFormed prs.lastPrecommits
  catchupCommit : Ptr.WellFormed prs.catchupCommit

theorem WellFormed.votes {prs : PeerRoundState} (h : prs.WellFormed) :
    ∀ f, Ptr.WellFormed (prs.votes f)
  | .prevotes => h.prevotes
  | .precommits => h.precommits
  | .lastPrecommits => h.lastPrecommits
  | .catchupCommit => h.catchupCommit
  | .proposalPOL => h.proposalPOL

theorem WellFormed.setVotes {prs : PeerRoundState} (h : prs.WellFormed) (f : VoteBits)
    {bA : Option BitArray} (hbA : Ptr.WellFormed bA) : (prs.setVotes f bA).WellFormed := by
  cases f with
  | prevotes => exact { h with prevotes := hbA }
  | precommits => exact { h with precommits := hbA }
  | lastPrecommits => exact { h with lastPrecommits := hbA }
  | catchupCommit => exact { h with catchupCommit := hbA }
  | proposalPOL => exact { h with proposalPOL := hbA }

theorem wellFormed_newPeerRoundState : newPeerRoundState.WellFormed :=
  ⟨Ptr.wellFormed_none, Ptr.wellFormed_none, Ptr.wellFormed_none, Ptr.wellFormed_none,
    Ptr.wellFormed_none, Ptr.wellFormed_none⟩

end PeerRoundState

/-! ## The handlers -/

section Handlers

variable (prs : PeerRoundState)

/-- `CompareHRS`. -/
def compareHRS (h1 r1 : ℤ) (s1 : RoundStepType) (h2 r2 : ℤ) (s2 : RoundStepType) : ℤ :=
  if h1 < h2 then -1 else if h1 > h2 then 1
  else if r1 < r2 then -1 else if r1 > r2 then 1
  else if s1 < s2 then -1 else if s1 > s2 then 1
  else 0

/-- `getVoteBitArray`: the field that holds the peer's votes of a type at a
height and round, if the peer state tracks them. -/
def getVoteBitArray (height round : ℤ) (type : SignedMsgType) : Option VoteBits :=
  if !type.isVoteTypeValid then none
  else if prs.height = height then
    if prs.round = round ∧ type = .prevote then some .prevotes
    else if prs.round = round ∧ type = .precommit then some .precommits
    else if prs.catchupCommitRound = round then
      if type = .precommit then some .catchupCommit else none
    else if prs.proposalPOLRound = round then
      if type = .prevote then some .proposalPOL else none
    else none
  else if prs.height = height + 1 then
    if prs.lastCommitRound = round ∧ type = .precommit then some .lastPrecommits else none
  else none

/-- `setHasVote`: set the bit of the validator in the array `getVoteBitArray`
chooses, if it is not nil. -/
def setHasVote (height round : ℤ) (type : SignedMsgType) (index : ℤ) :
    Except String PeerRoundState :=
  match getVoteBitArray prs height round type with
  | none => pure prs
  | some f => do
    let r ← Ptr.setIndex (prs.votes f) index true
    pure (prs.setVotes f r.1)

/-- `ApplyNewRoundStepMessage`. -/
def applyNewRoundStepMessage (msg : NewRoundStepMessage) : PeerRoundState :=
  -- ignore duplicates or decreases
  if compareHRS msg.height msg.round msg.step prs.height prs.round prs.step ≤ 0 then prs
  else
    let prs₁ := { prs with height := msg.height, round := msg.round, step := msg.step }
    let prs₂ := if prs.height ≠ msg.height ∨ prs.round ≠ msg.round then
        { prs₁ with
          proposal := false, proposalBlockPartSetHeader := ⟨0, []⟩,
          proposalBlockParts := none, proposalPOLRound := -1, proposalPOL := none,
          prevotes := none, precommits := none }
      else prs₁
    -- the peer caught up to the round of the commit it had: keep those precommits
    let prs₃ := if prs.height = msg.height ∧ prs.round ≠ msg.round ∧
        msg.round = prs.catchupCommitRound then { prs₂ with precommits := prs.catchupCommit }
      else prs₂
    if prs.height ≠ msg.height then
      let prs₄ := if prs.height + 1 = msg.height ∧ prs.round = msg.lastCommitRound then
          { prs₃ with lastCommitRound := msg.lastCommitRound, lastPrecommits := prs₃.precommits }
        else { prs₃ with lastCommitRound := msg.lastCommitRound, lastPrecommits := none }
      { prs₄ with catchupCommitRound := -1, catchupCommit := none }
    else prs₃

/-- `SetHasProposal`, for a proposal at a height and round with the part set
header and the POL round it names. -/
def setHasProposal (height round : ℤ) (psh : PartSetHeader) (polRound : ℤ) : PeerRoundState :=
  if prs.height ≠ height ∨ prs.round ≠ round then prs
  else if prs.proposal then prs
  else
    let prs₁ := { prs with proposal := true }
    -- the parts are known already from a `NewValidBlockMessage`
    if prs.proposalBlockParts.isSome then prs₁
    else { prs₁ with
      proposalBlockPartSetHeader := psh, proposalBlockParts := newBitArray psh.total,
      proposalPOLRound := polRound, proposalPOL := none }

/-- `ApplyNewValidBlockMessage`: the peer's parts become the message's. -/
def applyNewValidBlockMessage (msg : NewValidBlockMessage) : PeerRoundState :=
  if prs.height ≠ msg.height then prs
  else if prs.round ≠ msg.round ∧ !msg.isCommit then prs
  else { prs with
    proposalBlockPartSetHeader := msg.blockPartSetHeader, proposalBlockParts := msg.blockParts }

/-- `ApplyProposalPOLMessage`: the peer's POL becomes the message's. -/
def applyProposalPOLMessage (msg : ProposalPOLMessage) : PeerRoundState :=
  if prs.height ≠ msg.height then prs
  else if prs.proposalPOLRound ≠ msg.proposalPOLRound then prs
  else { prs with proposalPOL := msg.proposalPOL }

/-- `ApplyHasVoteMessage`. -/
def applyHasVoteMessage (msg : HasVoteMessage) : Except String PeerRoundState :=
  if prs.height ≠ msg.height then pure prs
  else setHasVote prs msg.height msg.round msg.type msg.index

/-- `ApplyVoteSetBitsMessage`, with the node's own votes for the block, if any. -/
def applyVoteSetBitsMessage (msg : VoteSetBitsMessage) (ourVotes : Option BitArray) :
    Except String PeerRoundState :=
  match getVoteBitArray prs msg.height msg.round msg.type with
  | none => pure prs
  | some f =>
    match prs.votes f with
    | none => pure prs
    | some votes =>
      match ourVotes with
      | none => pure (prs.setVotes f (Ptr.update (some votes) msg.votes))
      | some _ => do
        let otherVotes ← Ptr.sub (some votes) ourVotes
        let hasVotes ← Ptr.or otherVotes msg.votes
        pure (prs.setVotes f (Ptr.update (some votes) hasVotes))

/-- `SetHasProposalBlockPart`. -/
def setHasProposalBlockPart (height round index : ℤ) : Except String PeerRoundState :=
  if prs.height ≠ height ∨ prs.round ≠ round then pure prs
  else do
    let r ← Ptr.setIndex prs.proposalBlockParts index true
    pure { prs with proposalBlockParts := r.1 }

/-- `ensureVoteBitArrays`: allocate the arrays of a height the node has
`numValidators` validators at. -/
def ensureVoteBitArrays (height numValidators : ℤ) : PeerRoundState :=
  if prs.height = height then
    { prs with
      prevotes := prs.prevotes.orElse fun _ => newBitArray numValidators
      precommits := prs.precommits.orElse fun _ => newBitArray numValidators
      catchupCommit := prs.catchupCommit.orElse fun _ => newBitArray numValidators
      proposalPOL := prs.proposalPOL.orElse fun _ => newBitArray numValidators }
  else if prs.height = height + 1 then
    { prs with lastPrecommits := prs.lastPrecommits.orElse fun _ => newBitArray numValidators }
  else prs

/-- `ensureCatchupCommitRound`. -/
def ensureCatchupCommitRound (height round numValidators : ℤ) : PeerRoundState :=
  if prs.height ≠ height then prs
  else if prs.catchupCommitRound = round then prs
  else if round = prs.round then { prs with catchupCommitRound := round, catchupCommit := prs.precommits }
  else { prs with catchupCommitRound := round, catchupCommit := newBitArray numValidators }

end Handlers

/-- What changes a peer state: a message from the peer, as the receive routine
applies it, or a step of the node's own routines. -/
inductive PeerEvent where
  /-- a message received from the peer; for `VoteSetBits`, the node's own votes -/
  | receive (m : ReactorMessage) (ourVotes : Option BitArray)
  /-- the peer has a proposal: `SetHasProposal` -/
  | proposal (height round : ℤ) (psh : PartSetHeader) (polRound : ℤ)
  /-- the peer has a block part, sent or received: `SetHasProposalBlockPart` -/
  | blockPart (height round index : ℤ)
  /-- a vote, sent or received, with the sizes of the validator sets of the
  node's height and of the one before -/
  | vote (nodeHeight numValidators lastNumValidators : ℤ) (height round : ℤ)
      (type : SignedMsgType) (index : ℤ)
  /-- the node picks a commit's precommits to send: `ensureCatchupCommitRound` -/
  | catchupCommit (height round numValidators : ℤ)

/-- The receive routine's handling of a decoded message. -/
def receive (prs : PeerRoundState) (ourVotes : Option BitArray) : ReactorMessage → Except String PeerRoundState
  | .newRoundStep m => pure (applyNewRoundStepMessage prs m)
  | .newValidBlock m => pure (applyNewValidBlockMessage prs m)
  | .proposalPOL m => pure (applyProposalPOLMessage prs m)
  | .voteSetBits m => applyVoteSetBitsMessage prs m ourVotes
  | .hasVote m => applyHasVoteMessage prs m

/-- One event on the peer state. -/
def handle (prs : PeerRoundState) : PeerEvent → Except String PeerRoundState
  | .receive m ourVotes => receive prs ourVotes m
  | .proposal height round psh polRound => pure (setHasProposal prs height round psh polRound)
  | .blockPart height round index => setHasProposalBlockPart prs height round index
  | .vote nodeHeight numValidators lastNumValidators height round type index =>
    let prs₁ := ensureVoteBitArrays prs nodeHeight numValidators
    let prs₂ := ensureVoteBitArrays prs₁ (nodeHeight - 1) lastNumValidators
    setHasVote prs₂ height round type index
  | .catchupCommit height round numValidators =>
    pure (ensureCatchupCommitRound prs height round numValidators)

/-- The arrays a message carries are well formed. -/
def ReactorMessage.WellFormed : ReactorMessage → Prop
  | .newRoundStep _ => True
  | .newValidBlock m => Ptr.WellFormed m.blockParts
  | .proposalPOL m => Ptr.WellFormed m.proposalPOL
  | .voteSetBits _ => True
  | .hasVote _ => True

/-- The events the reactor produces: messages that passed `ValidateBasic`,
with well-formed arrays, and indices that are not negative, as the validator
index of a vote and the index of a part are. -/
def PeerEvent.Admissible : PeerEvent → Prop
  | .receive m ourVotes => m.validateBasic = .ok () ∧ m.WellFormed ∧ Ptr.WellFormed ourVotes
  | .proposal .. => True
  | .blockPart _ _ index => 0 ≤ index
  | .vote _ _ _ _ _ _ index => 0 ≤ index
  | .catchupCommit .. => True

/-- A run of the peer state through a list of events. -/
inductive Run : PeerRoundState → List PeerEvent → PeerRoundState → Prop
  | nil (prs : PeerRoundState) : Run prs [] prs
  | cons {prs prs' prs'' : PeerRoundState} {e : PeerEvent} {es : List PeerEvent} :
      handle prs e = .ok prs' → Run prs' es prs'' → Run prs (e :: es) prs''

/-! ## Well-formed arrays: no handler panics -/

section WellFormed

variable {prs : PeerRoundState}

theorem PeerRoundState.WellFormed.setHasVote (h : prs.WellFormed) (height round : ℤ) (type : SignedMsgType)
    {index : ℤ} (hi : 0 ≤ index) :
    ∃ prs', setHasVote prs height round type index = .ok prs' ∧ prs'.WellFormed := by
  unfold Consensus.setHasVote
  split
  · exact ⟨prs, rfl, h⟩
  · rename_i f _
    obtain ⟨r, b, hset, hwf⟩ := Ptr.setIndex_ok (h.votes f) hi true
    exact ⟨prs.setVotes f r, by simp [hset, bind, Except.bind, pure, Except.pure], h.setVotes f hwf⟩

theorem PeerRoundState.WellFormed.applyNewRoundStepMessage (h : prs.WellFormed) (msg : NewRoundStepMessage) :
    (applyNewRoundStepMessage prs msg).WellFormed := by
  unfold Consensus.applyNewRoundStepMessage
  split_ifs <;> constructor <;>
    first
    | exact Ptr.wellFormed_none | exact h.proposalBlockParts | exact h.proposalPOL
    | exact h.prevotes | exact h.precommits | exact h.lastPrecommits | exact h.catchupCommit

theorem PeerRoundState.WellFormed.setHasProposal (h : prs.WellFormed) (height round : ℤ) (psh : PartSetHeader)
    (polRound : ℤ) : (setHasProposal prs height round psh polRound).WellFormed := by
  unfold Consensus.setHasProposal
  split_ifs
  · exact h
  · exact h
  · exact { h with }
  · exact { h with proposalBlockParts := newBitArray_wellFormed _, proposalPOL := Ptr.wellFormed_none }

theorem PeerRoundState.WellFormed.applyNewValidBlockMessage (h : prs.WellFormed) {msg : NewValidBlockMessage}
    (hm : Ptr.WellFormed msg.blockParts) : (applyNewValidBlockMessage prs msg).WellFormed := by
  unfold Consensus.applyNewValidBlockMessage
  split_ifs
  · exact h
  · exact h
  · exact { h with proposalBlockParts := hm }

theorem PeerRoundState.WellFormed.applyProposalPOLMessage (h : prs.WellFormed) {msg : ProposalPOLMessage}
    (hm : Ptr.WellFormed msg.proposalPOL) : (applyProposalPOLMessage prs msg).WellFormed := by
  unfold Consensus.applyProposalPOLMessage
  split_ifs
  · exact h
  · exact h
  · exact h.setVotes .proposalPOL hm

/-- `ApplyVoteSetBitsMessage` never panics on a well-formed peer state, whatever
the message's array: `Sub` and `Or` are taken with the peer's array as receiver,
and `Update` keeps the receiver's words. -/
theorem PeerRoundState.WellFormed.applyVoteSetBitsMessage (h : prs.WellFormed) (msg : VoteSetBitsMessage)
    (ourVotes : Option BitArray) :
    ∃ prs', applyVoteSetBitsMessage prs msg ourVotes = .ok prs' ∧ prs'.WellFormed := by
  unfold Consensus.applyVoteSetBitsMessage
  split
  · exact ⟨prs, rfl, h⟩
  · rename_i f _
    split
    · exact ⟨prs, rfl, h⟩
    · rename_i votes hvotes
      have hwf : votes.WellFormed := Ptr.wellFormed_some.mp (hvotes ▸ h.votes f)
      split
      · exact ⟨_, rfl, h.setVotes f (Ptr.update_wellFormed (Ptr.wellFormed_some.mpr hwf) msg.votes)⟩
      · rename_i o
        obtain ⟨c, hc, hcwf⟩ := hwf.sub_ok o
        obtain ⟨r, hr⟩ := Ptr.or_some_ok hcwf msg.votes
        refine ⟨prs.setVotes f (Ptr.update (some votes) r), ?_,
          h.setVotes f (Ptr.update_wellFormed (Ptr.wellFormed_some.mpr hwf) r)⟩
        simp [Ptr.sub, hc, hr, bind, Except.bind, pure, Except.pure]

theorem PeerRoundState.WellFormed.setHasProposalBlockPart (h : prs.WellFormed) (height round : ℤ) {index : ℤ}
    (hi : 0 ≤ index) :
    ∃ prs', setHasProposalBlockPart prs height round index = .ok prs' ∧ prs'.WellFormed := by
  unfold Consensus.setHasProposalBlockPart
  split_ifs
  · exact ⟨prs, rfl, h⟩
  · obtain ⟨r, b, hset, hwf⟩ := Ptr.setIndex_ok h.proposalBlockParts hi true
    exact ⟨{ prs with proposalBlockParts := r }, by simp [hset, bind, Except.bind, pure, Except.pure],
      { h with proposalBlockParts := hwf }⟩

theorem PeerRoundState.WellFormed.ensureVoteBitArrays (h : prs.WellFormed) (height numValidators : ℤ) :
    (ensureVoteBitArrays prs height numValidators).WellFormed := by
  have hnew := newBitArray_wellFormed numValidators
  have horElse : ∀ p : Option BitArray, Ptr.WellFormed p →
      Ptr.WellFormed (p.orElse fun _ => newBitArray numValidators) := by
    intro p hp
    cases p with
    | none => simpa using hnew
    | some bA => simpa using hp
  unfold Consensus.ensureVoteBitArrays
  split_ifs
  · exact ⟨h.proposalBlockParts, horElse _ h.proposalPOL, horElse _ h.prevotes,
      horElse _ h.precommits, h.lastPrecommits, horElse _ h.catchupCommit⟩
  · exact { h with lastPrecommits := horElse _ h.lastPrecommits }
  · exact h

theorem PeerRoundState.WellFormed.ensureCatchupCommitRound (h : prs.WellFormed) (height round numValidators : ℤ) :
    (ensureCatchupCommitRound prs height round numValidators).WellFormed := by
  unfold Consensus.ensureCatchupCommitRound
  split_ifs
  · exact h
  · exact h
  · exact { h with catchupCommit := h.precommits }
  · exact { h with catchupCommit := newBitArray_wellFormed numValidators }

/-- One admissible event on a well-formed peer state does not panic and leaves
it well formed. -/
theorem PeerRoundState.WellFormed.handle (h : prs.WellFormed) {e : PeerEvent} (he : e.Admissible) :
    ∃ prs', handle prs e = .ok prs' ∧ prs'.WellFormed := by
  cases e with
  | receive m ourVotes =>
    obtain ⟨hvalid, hm, -⟩ := he
    cases m with
    | newRoundStep m => exact ⟨_, rfl, h.applyNewRoundStepMessage m⟩
    | newValidBlock m => exact ⟨_, rfl, h.applyNewValidBlockMessage hm⟩
    | proposalPOL m => exact ⟨_, rfl, h.applyProposalPOLMessage hm⟩
    | voteSetBits m => exact h.applyVoteSetBitsMessage m ourVotes
    | hasVote m =>
      show ∃ prs', applyHasVoteMessage prs m = .ok prs' ∧ prs'.WellFormed
      unfold applyHasVoteMessage
      split_ifs
      · exact ⟨prs, rfl, h⟩
      · exact h.setHasVote m.height m.round m.type (HasVoteMessage.validateBasic_eq_ok.mp hvalid).2.2.2
  | proposal height round psh polRound => exact ⟨_, rfl, h.setHasProposal height round psh polRound⟩
  | blockPart height round index => exact h.setHasProposalBlockPart height round he
  | vote nodeHeight numValidators lastNumValidators height round type index =>
    exact ((h.ensureVoteBitArrays nodeHeight numValidators).ensureVoteBitArrays (nodeHeight - 1)
      lastNumValidators).setHasVote height round type he
  | catchupCommit height round numValidators =>
    exact ⟨_, rfl, h.ensureCatchupCommitRound height round numValidators⟩

/-- Admissible events run from a well-formed peer state to the end of the
list, without a panic, and leave it well formed. -/
theorem PeerRoundState.WellFormed.run_admissible (h : prs.WellFormed)
    {es : List PeerEvent} (hes : ∀ e ∈ es, e.Admissible) :
    ∃ prs', Run prs es prs' ∧ prs'.WellFormed := by
  induction es generalizing prs with
  | nil => exact ⟨prs, .nil prs, h⟩
  | cons e es ih =>
    obtain ⟨prs₁, hstep, h₁⟩ := h.handle (hes e (by simp))
    obtain ⟨prs', hrun, h'⟩ := ih h₁ (fun e' he' => hes e' (by simp [he']))
    exact ⟨prs', .cons hstep hrun, h'⟩

/-- A proposal, one of its parts, a prevote and a HasVote message for it run from the
state of a new peer to a well-formed state. -/
theorem PeerRoundState.WellFormed.run_proposal_part_votes :
    let es : List PeerEvent := [.proposal 1 0 ⟨2, List.replicate 32 1⟩ (-1), .blockPart 1 0 1,
      .vote 1 4 4 1 0 .prevote 2, .receive (.hasVote ⟨1, 0, .prevote, 3⟩) none]
    (∀ e ∈ es, e.Admissible) ∧ ∃ prs', Run newPeerRoundState es prs' ∧ prs'.WellFormed := by
  intro es
  have hes : ∀ e ∈ es, e.Admissible := by
    intro e he
    simp only [es, List.mem_cons, List.not_mem_nil, or_false] at he
    rcases he with rfl | rfl | rfl | rfl
    · trivial
    · show (0 : ℤ) ≤ 1
      decide
    · show (0 : ℤ) ≤ 2
      decide
    · exact ⟨by decide, trivial, by decide⟩
  exact ⟨hes,
    PeerRoundState.WellFormed.run_admissible PeerRoundState.wellFormed_newPeerRoundState hes⟩

end WellFormed

/-! ## Decoding -/

/-- The wire's bit arrays are well formed, where `Apply*` stores them. -/
def PbMessage.WellFormed : PbMessage → Prop
  | .newValidBlock m => ∀ p, m.blockParts = some p → p.WellFormed
  | .proposalPol m => m.proposalPol.WellFormed
  | .voteSetBits _ => True
  | .hasVote _ => True

theorem decodeBits_wellFormed {p : PbBitArray} (hp : p.WellFormed) :
    Ptr.WellFormed (decodeBits (some p)) :=
  Ptr.wellFormed_some.mpr ((BitArray.fromProto_new_wellFormed_iff p).mpr hp)

theorem msgFromProto_validateBasic {pb : PbMessage} {m : ReactorMessage} (h : msgFromProto pb = .ok m) :
    m.validateBasic = .ok () := by
  unfold msgFromProto at h
  obtain ⟨m₀, -, h⟩ := Except.bind_eq_ok.mp h
  obtain ⟨u, hu, h⟩ := Except.bind_eq_ok.mp h
  cases Except.pure_eq_ok.mp h
  exact hu

/-- A `ProposalPOL` whose array has a size up to `MaxVotesCount` and no words
passes `MsgFromProto`, and the receive routine stores its array as the peer's
POL.  A `HasVote` for a prevote of that round then sets a bit of it, and
`SetIndex` indexes the missing words: the receive routine panics. -/
theorem msgFromProto_proposalPOL_panics (prs : PeerRoundState) (n index : ℤ)
    (hheight : 0 ≤ prs.height) (hpol : 0 ≤ prs.proposalPOLRound)
    (hround : prs.round ≠ prs.proposalPOLRound) (hcatchup : prs.catchupCommitRound ≠ prs.proposalPOLRound)
    (hn : n ≤ maxVotesCount) (hindex : 0 ≤ index) (hlt : index < n) :
    msgFromProto (.proposalPol ⟨prs.height, prs.proposalPOLRound, ⟨n, []⟩⟩) =
        .ok (.proposalPOL ⟨prs.height, prs.proposalPOLRound, some ⟨n, []⟩⟩) ∧
      ¬ (n = 0 ∨ (([] : List UInt64).length : ℤ) = numWords n) ∧
      msgFromProto (.hasVote ⟨prs.height, prs.proposalPOLRound, .prevote, index⟩) =
        .ok (.hasVote ⟨prs.height, prs.proposalPOLRound, .prevote, index⟩) ∧
      ∃ prs', handle prs (.receive (.proposalPOL ⟨prs.height, prs.proposalPOLRound, some ⟨n, []⟩⟩) none) =
          .ok prs' ∧
        handle prs' (.receive (.hasVote ⟨prs.height, prs.proposalPOLRound, .prevote, index⟩) none) =
          .error (Slice.indexOutOfRange (index.tdiv 64) 0) := by
  have hpos : 0 < n := by omega
  have hn0 : n ≠ 0 := by omega
  refine ⟨?_, ?_, ?_, ?_⟩
  · simp [msgFromProto, decodeMessage, decodeBits, ReactorMessage.validateBasic,
      ProposalPOLMessage.validateBasic_eq_ok, Ptr.size, hheight, hpol, hn, hn0]
  · have := numWords_pos hpos
    simp only [List.length_nil, Nat.cast_zero, not_or]
    omega
  · simp [msgFromProto, decodeMessage, ReactorMessage.validateBasic, HasVoteMessage.validateBasic_eq_ok,
      hheight, hpol, hindex, SignedMsgType.isVoteTypeValid]
  · let prs' := { prs with proposalPOL := some ⟨n, []⟩ }
    have hget : getVoteBitArray prs' prs.height prs.proposalPOLRound .prevote = some .proposalPOL := by
      simp [getVoteBitArray, prs', hround, hcatchup, SignedMsgType.isVoteTypeValid]
    refine ⟨prs', by simp [handle, receive, applyProposalPOLMessage, prs'], ?_⟩
    have hset := Ptr.setIndex_of_elems_nil (show (⟨n, []⟩ : BitArray).elems = [] from rfl) hlt true
    simp [handle, receive, applyHasVoteMessage, prs', setHasVote, hget, PeerRoundState.votes, hset]

/-- A peer at height 1, round 1, whose proposal has POL round 0, sends a POL of
100 bits and no words, then a `HasVote` for validator 0's prevote of round 0. -/
theorem msgFromProto_proposalPOL_panics_at_pol_round_zero :
    let prs : PeerRoundState := { newPeerRoundState with height := 1, round := 1, proposalPOLRound := 0 }
    let pol : ReactorMessage := .proposalPOL ⟨1, 0, some ⟨100, []⟩⟩
    let hasVote : ReactorMessage := .hasVote ⟨1, 0, .prevote, 0⟩
    (0 ≤ prs.height ∧ 0 ≤ prs.proposalPOLRound ∧ prs.round ≠ prs.proposalPOLRound ∧
        prs.catchupCommitRound ≠ prs.proposalPOLRound) ∧
      msgFromProto (.proposalPol ⟨1, 0, ⟨100, []⟩⟩) = .ok pol ∧
      msgFromProto (.hasVote ⟨1, 0, .prevote, 0⟩) = .ok hasVote ∧
      ∃ prs', handle prs (.receive pol none) = .ok prs' ∧
        handle prs' (.receive hasVote none) = .error (Slice.indexOutOfRange 0 0) := by
  intro prs pol hasVote
  have hprs : 0 ≤ prs.height ∧ 0 ≤ prs.proposalPOLRound ∧ prs.round ≠ prs.proposalPOLRound ∧
      prs.catchupCommitRound ≠ prs.proposalPOLRound := by decide
  obtain ⟨hpol, -, hvote, hpanic⟩ := msgFromProto_proposalPOL_panics prs 100 0 hprs.1 hprs.2.1
    hprs.2.2.1 hprs.2.2.2 (by decide) (by decide) (by decide)
  exact ⟨hprs, hpol, hvote, by simpa using hpanic⟩

/-- The same with a `NewValidBlock` for the peer's height and round, whose
parts array has the size of the part set header and no words: it is stored as
the peer's parts, and the next block part the peer is known to have panics, as
does the catch-up gossip's `Not().PickRandom()` on it. -/
theorem msgFromProto_newValidBlock_panics (prs : PeerRoundState) (psh : PartSetHeader)
    (hheight : 0 ≤ prs.height) (hround : 0 ≤ prs.round) (hpsh : psh.validateBasic = .ok ())
    (htotal : 0 < psh.total) (hmax : (psh.total : ℤ) ≤ maxBlockPartsCount) (index : ℤ)
    (hlt : index < psh.total) (intn : ℕ → ℕ) :
    msgFromProto (.newValidBlock ⟨prs.height, prs.round, psh, some ⟨psh.total, []⟩, false⟩) =
        .ok (.newValidBlock ⟨prs.height, prs.round, psh, some ⟨psh.total, []⟩, false⟩) ∧
      ∃ prs', handle prs (.receive (.newValidBlock ⟨prs.height, prs.round, psh, some ⟨psh.total, []⟩,
          false⟩) none) = .ok prs' ∧
        handle prs' (.blockPart prs.height prs.round index) =
          .error (Slice.indexOutOfRange (index.tdiv 64) 0) ∧
        Ptr.pickRandom intn (Ptr.not prs'.proposalBlockParts) = .error (Slice.indexOutOfRange (-1) 0) := by
  have htotal' : psh.total ≠ 0 := by omega
  refine ⟨?_, ?_⟩
  · simp [msgFromProto, decodeMessage, decodeBits, ReactorMessage.validateBasic,
      NewValidBlockMessage.validateBasic_eq_ok, Ptr.size, hheight, hround, hpsh, hmax, htotal']
  · let prs' := { prs with proposalBlockPartSetHeader := psh, proposalBlockParts := some ⟨psh.total, []⟩ }
    have hempty : (⟨psh.total, []⟩ : BitArray).elems = [] := rfl
    refine ⟨prs', by simp [handle, receive, applyNewValidBlockMessage, prs'], ?_, ?_⟩
    · have hset := Ptr.setIndex_of_elems_nil hempty hlt true
      simp [handle, setHasProposalBlockPart, prs', hset]
    · exact Ptr.pickRandom_not_of_elems_nil intn hempty (by simp)

/-- A peer at height 1, round 0 sends a `NewValidBlock` for a header of two parts, with a
parts array of size 2 and no words; then it is known to have part 1. -/
theorem msgFromProto_newValidBlock_panics_two_parts :
    let prs : PeerRoundState := { newPeerRoundState with height := 1, round := 0 }
    let psh : PartSetHeader := ⟨2, List.replicate 32 1⟩
    let nvb : ReactorMessage := .newValidBlock ⟨1, 0, psh, some ⟨2, []⟩, false⟩
    psh.validateBasic = .ok () ∧
      msgFromProto (.newValidBlock ⟨1, 0, psh, some ⟨2, []⟩, false⟩) = .ok nvb ∧
      ∃ prs', handle prs (.receive nvb none) = .ok prs' ∧
        handle prs' (.blockPart 1 0 1) = .error (Slice.indexOutOfRange 0 0) ∧
        Ptr.pickRandom id (Ptr.not prs'.proposalBlockParts) =
          .error (Slice.indexOutOfRange (-1) 0) := by
  intro prs psh nvb
  have hpsh : psh.validateBasic = .ok () := by decide
  obtain ⟨hmsg, prs', hstore, hpart, hpick⟩ := msgFromProto_newValidBlock_panics prs psh (by decide)
    (by decide) hpsh (by decide) (by decide) 1 (by decide) id
  exact ⟨hpsh, hmsg, prs', hstore, by simpa using hpart, hpick⟩

end Tenderdash.Consensus
