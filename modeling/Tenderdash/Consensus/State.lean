import Tenderdash.Consensus.Types
import Tenderdash.Privval.File

/-!
# The consensus state machine

`consensus/state.go`: the receive routine's handlers (`handleMsg`,
`handleTimeout`, `handleTxsAvailable`) and every state function they reach,
from `enterNewRound` to `finalizeCommit` and `updateToState`, with the node's
own signer, a `FilePV`.

## What is transcribed and what is given

Each Go function is a Lean function of the same name that takes the state and
returns the state after the call, in `Except String`: an error is a panic, with
its message, after which the receive routine stops.  Go errors that a function
returns are part of its result; the handlers only log them.  The deferred
`updateRoundStep` of each `enter*` function runs after its body, as in Go.

Given, in `Env`, is what lies outside the state machine: the cryptography
(`Vote.Verify`, BLS recovery, `VerifySignatureDigest`, `SignDigest`), what the
block executor decides (`ValidateBlock`, `CreateProposalBlock`, `ApplyBlock`),
how blocks decode and hash, and the proposer of each round (the proposer
priorities are not modelled).  Left out, since no decision reads them: the WAL,
the event bus and event switch (taken to succeed), metrics, logging, timeout
durations and start times, and the evidence pool.

Three records are kept that Go keeps outside the state: the messages the node
sends itself (`internalMsgs`), the timeouts it schedules (`timeouts`), and the
requests it hands its signer (`signLog`).  The receive routine's inputs come
from the first two and from peers; the third is what the statements about
signing are about.
-/

namespace Tenderdash.Consensus

open Privval

/-- The message of a nil pointer dereference. -/
def nilDereference : String := "runtime error: invalid memory address or nil pointer dereference"

/-- What the state machine is given. -/
structure Env (Block PrivKey : Type) where
  crypto : Crypto
  signDigest : PrivKey → Bytes → Except String Bytes
  unmarshalProposal : Bytes → Except String CanonicalProposal
  verifySignatureDigest : Bytes → Bytes → Bytes → Bool
  verifyVote : Bytes → ℕ → Bytes → Bytes → Bytes → Vote → Except String Unit
  recover : List Bytes → List Bytes → Except String Bytes
  blockHash : Block → Option Bytes
  blockHeight : Block → ℤ
  blockCoreChainLockedHeight : Block → ℕ
  blockAppHash : Block → Bytes
  decodeBlock : Bytes → Except String Block
  validateBlock : SmState → Block → Except String Unit
  validateBlockChainLock : SmState → Block → Except String Unit
  validateBlockTime : SmState → Block → Except String Unit
  createProposalBlock : ℤ → SmState → Commit → Bytes → Block × PartSet
  applyBlock : SmState → BlockID → Block → Except String SmState
  nextCoreChainLockHeight : Option ℕ
  getProposer : ValidatorSet → ℤ → ℤ → Option Validator
  config : ConsensusConfig

/-- A request the node handed its signer, and whether the signer's `CheckHRS`
found it above the last HRS it signed at. -/
structure SignRecord where
  request : Request
  fresh : Bool

/-- `consensus.State`: the `RoundState`, the chain state it works from, the
block store it reads, its signer, the clock, and what it has sent. -/
structure State (Block PrivKey : Type) where
  height : ℤ
  round : ℤ
  step : RoundStepType
  validators : ValidatorSet
  proposal : Option Proposal
  proposalBlock : Option Block
  proposalBlockParts : Option PartSet
  lockedRound : ℤ
  lockedBlock : Option Block
  lockedBlockParts : Option PartSet
  commit : Option Commit
  validRound : ℤ
  validBlock : Option Block
  validBlockParts : Option PartSet
  votes : HeightVoteSet
  commitRound : ℤ
  lastPrecommits : Option VoteSet
  lastCommit : Option Commit
  lastValidators : ValidatorSet
  triggeredTimeoutPrecommit : Bool
  state : SmState
  blockStore : BlockStore
  privValidator : Option (FilePV PrivKey)
  privValidatorProTxHash : Option Bytes
  now : Timestamp
  internalMsgs : List MsgInfo
  timeouts : List TimeoutInfo
  signLog : List SignRecord

/-- Why `setProposal` refuses a proposal. -/
inductive ProposalError where
  | invalidPOLRound
  | invalidCoreHeight
  | invalidSignature
deriving DecidableEq, Repr

/-- Why `verifyCommit` refuses a commit. -/
inductive VerifyCommitError where
  | validateBasic (e : CommitError)
  | wrongAppHash
  | verify (e : CommitError)
deriving DecidableEq, Repr

/-- Why `addVote` refuses a vote. -/
inductive AddVoteError where
  | wrongAppHash
  | vote (e : HeightVoteError)
deriving DecidableEq, Repr

/-! ## Nil-safe accessors -/

/-- `PartSet.Header`: the zero header of a nil set. -/
def partSetHeader (ps : Option PartSet) : PartSetHeader := (ps.map PartSet.header).getD ⟨0, []⟩

/-- `PartSet.HasHeader`: false for a nil set. -/
def hasHeader (ps : Option PartSet) (header : PartSetHeader) : Bool :=
  match ps with
  | none => false
  | some ps => ps.header.equals header

/-- `VoteSet.TwoThirdsMajority`: none for a nil set. -/
def majorityOf (vs : Option VoteSet) : Option BlockID := vs.bind (·.twoThirdsMajority)

/-- `VoteSet.HasTwoThirdsAny`: false for a nil set. -/
def hasTwoThirdsAnyOf (vs : Option VoteSet) : Bool := vs.any (·.hasTwoThirdsAny)

/-- `VoteSet.HasTwoThirdsMajority`: false for a nil set. -/
def hasTwoThirdsMajorityOf (vs : Option VoteSet) : Bool := vs.any (·.hasTwoThirdsMajority)

/-- `VoteSet.HasAll`, on a set the callers know is not nil. -/
def hasAllOf (vs : Option VoteSet) : Bool := vs.any (·.hasAll)

/-- The length of a hash that may be nil. -/
def hashLength (hash : Option Bytes) : ℕ := (hash.getD []).length

namespace State

variable {Block PrivKey : Type}

/-- `updateRoundStep`. -/
def updateRoundStep (cs : State Block PrivKey) (round : ℤ) (step : RoundStepType) :
    State Block PrivKey :=
  { cs with round, step }

/-- `scheduleTimeout`. -/
def scheduleTimeout (cs : State Block PrivKey) (height round : ℤ) (step : RoundStepType) :
    State Block PrivKey :=
  { cs with timeouts := cs.timeouts ++ [⟨height, round, step⟩] }

/-- `sendInternalMessage`. -/
def sendInternalMessage (cs : State Block PrivKey) (mi : MsgInfo) : State Block PrivKey :=
  { cs with internalMsgs := cs.internalMsgs ++ [mi] }

/-- Record a request handed to the signer. -/
def recordSign (cs : State Block PrivKey) (pv : FilePV PrivKey) (request : Request) :
    State Block PrivKey :=
  { cs with signLog := cs.signLog ++ [⟨request, isFresh pv.lastSignState request⟩] }

/-- The lock released: `LockedRound = -1`, `LockedBlock = nil`,
`LockedBlockParts = nil`. -/
def unlock (cs : State Block PrivKey) : State Block PrivKey :=
  { cs with lockedRound := -1, lockedBlock := none, lockedBlockParts := none }

/-- `needProofBlock`: the first height, or one whose previous block changed the
app hash; a previous block missing from the store panics. -/
def needProofBlock (cs : State Block PrivKey) (height : ℤ) : Except String Bool :=
  if height = cs.state.initialHeight then .ok true
  else
    match cs.blockStore.appHash (height - 1) with
    | none => .error "needProofBlock: last block meta for height not found"
    | some appHash => .ok (cs.state.appHash != appHash)

/-- `isProposalComplete`: the proposal and its block, and the prevote majority
of its POL round if it names one. -/
def isProposalComplete (cs : State Block PrivKey) : Bool :=
  match cs.proposal, cs.proposalBlock with
  | some proposal, some _ =>
      if proposal.polRound < 0 then true
      else hasTwoThirdsMajorityOf (cs.votes.prevotes proposal.polRound)
  | _, _ => false

end State

section Machine

variable {Block PrivKey : Type} (env : Env Block PrivKey)

/-- `Block.Hash` of a block that may be nil. -/
def blockHashOf (b : Option Block) : Option Bytes := b.bind env.blockHash

/-- `Block.HashesTo`: false for an empty hash and for a nil block. -/
def hashesTo (b : Option Block) (hash : Option Bytes) : Bool :=
  hashLength hash != 0 &&
    match b with
    | none => false
    | some b => bytesEqual (env.blockHash b) hash

/-! ## Signing -/

/-- `signVote`: the vote at the node's height and round for the block, signed
by the signer under the chain state's quorum; none if the signer refused. -/
def signVote (cs : State Block PrivKey) (pv : FilePV PrivKey) (proTxHash : Bytes)
    (msgType : SignedMsgType) (hash : Option Bytes) (header : PartSetHeader) :
    Except String (State Block PrivKey × Option Vote) :=
  let valIdx : ℤ :=
    match cs.validators.getByProTxHash proTxHash with
    | some (i, _) => i
    | none => -1
  -- a vote for nil carries no state ID
  let vote : Vote := ⟨msgType, cs.height, cs.round, ⟨hash, header⟩,
    ⟨if hash.isNone then none else some cs.state.appHash⟩, proTxHash, valIdx, none, none⟩
  let quorum := cs.state.validators
  let cs := cs.recordSign pv (.vote cs.state.chainID quorum.quorumType quorum.quorumHash vote)
  match Privval.signVote env.crypto env.signDigest pv cs.state.chainID quorum.quorumType
      quorum.quorumHash vote with
  | .ok (pv, signed) =>
      .ok ({ cs with privValidator := some pv },
        some { vote with blockSignature := signed.blockSignature,
                         stateSignature := signed.stateSignature })
  | .error (.error _) => .ok (cs, none)
  | .error (.panic msg) => .error msg

/-- `signAddVote`: sign a vote and send it to the node itself, if the node has a
signer and is a validator. -/
def signAddVote (cs : State Block PrivKey) (msgType : SignedMsgType) (hash : Option Bytes)
    (header : PartSetHeader) : Except String (State Block PrivKey) :=
  match cs.privValidator, cs.privValidatorProTxHash with
  | some pv, some proTxHash =>
      if !cs.validators.hasProTxHash proTxHash then .ok cs
      else do
        let (cs, vote) ← signVote env cs pv proTxHash msgType hash header
        match vote with
        | some vote => pure (cs.sendInternalMessage ⟨.vote vote, ""⟩)
        | none => pure cs
  | _, _ => .ok cs

/-! ## Proposing -/

/-- `createProposalBlock`: a block from the executor, over the empty commit at
the first height and the last commit after it; none without a last commit or
without the node's pro-tx-hash. -/
def createProposalBlock (cs : State Block PrivKey) :
    Except String (Option (Block × Option PartSet)) :=
  if cs.privValidator.isNone then .error "entered createProposalBlock with privValidator being nil"
  else
    let commit : Option Commit :=
      if cs.height = cs.state.initialHeight then some ⟨0, 0, ⟨none, ⟨0, []⟩⟩, ⟨none⟩, [], [], []⟩
      else cs.lastCommit
    match commit, cs.privValidatorProTxHash with
    | some commit, some proTxHash =>
        let (block, parts) := env.createProposalBlock cs.height cs.state commit proTxHash
        .ok (some (block, some parts))
    | _, _ => .ok none

/-- The core chain-locked height a proposal names: the chain state's, or the
executor's next chain lock if it is higher. -/
def proposedChainLockHeight (cs : State Block PrivKey) : ℕ :=
  match env.nextCoreChainLockHeight with
  | some h => if cs.state.lastCoreChainLockedBlockHeight < h then h
      else cs.state.lastCoreChainLockedBlockHeight
  | none => cs.state.lastCoreChainLockedBlockHeight

/-- `defaultDecideProposal`: propose the valid block if there is one, else a new
block; sign the proposal and send it and the block's parts to the node itself. -/
def decideProposal (cs : State Block PrivKey) (pv : FilePV PrivKey) (height round : ℤ) :
    Except String (State Block PrivKey) := do
  let chosen ← match cs.validBlock with
    | some block => pure (some (block, cs.validBlockParts))
    | none => createProposalBlock env cs
  match chosen with
  | none => pure cs
  | some (block, blockParts) =>
      let propBlockID : BlockID := ⟨env.blockHash block, partSetHeader blockParts⟩
      let proposal : Proposal := ⟨.proposal, height, proposedChainLockHeight env cs, round,
        cs.validRound, propBlockID, cs.now, none⟩
      let vals := cs.state.validatorsAtHeight height
      -- `GetPubKey` fails for a quorum the signer has no key for
      match pv.privateKeys vals.quorumHash with
      | none => pure cs
      | some _ =>
          let cs := cs.recordSign pv (.proposal cs.state.chainID vals.quorumType vals.quorumHash proposal)
          match signProposal env.crypto env.signDigest env.unmarshalProposal pv cs.state.chainID
              vals.quorumType vals.quorumHash proposal with
          | .error (.panic msg) => throw msg
          | .error (.error _) => pure cs
          | .ok (pv, signed, _) =>
              let cs := { cs with privValidator := some pv }
              let cs := cs.sendInternalMessage ⟨.proposal { proposal with signature := signed.signature }, ""⟩
              -- one message for each part index below the total
              let total := (blockParts.map PartSet.total).getD 0
              pure { cs with
                internalMsgs := cs.internalMsgs ++ (List.range total).map fun i ↦
                  ⟨.blockPart cs.height cs.round (blockParts.bind (·.parts i)), ""⟩ }

/-- The part of `enterPropose` after the timeout is scheduled: propose if the
node has a signer, is a validator, and is the round's proposer. -/
def proposeIfProposer (cs : State Block PrivKey) (height round : ℤ) :
    Except String (State Block PrivKey) :=
  match cs.privValidator, cs.privValidatorProTxHash with
  | some pv, some proTxHash =>
      if !cs.validators.hasProTxHash proTxHash then .ok cs
      else
        match env.getProposer cs.validators cs.height cs.round with
        | none => .error nilDereference
        | some proposer =>
            if bytesEqual (some proposer.proTxHash) (some proTxHash) then
              decideProposal env cs pv height round
            else .ok cs
  | _, _ => .ok cs

/-! ## Prevoting -/

/-- `defaultDoPrevote`: the locked block if locked, else the proposal block if
the executor accepts it, else nil. -/
def doPrevote (cs : State Block PrivKey) (allowOldBlocks : Bool) :
    Except String (State Block PrivKey) :=
  match cs.lockedBlock with
  | some _ => signAddVote env cs .prevote (blockHashOf env cs.lockedBlock) (partSetHeader cs.lockedBlockParts)
  | none =>
      match cs.proposalBlock with
      | none => signAddVote env cs .prevote none ⟨0, []⟩
      | some block =>
          if (env.validateBlock cs.state block).toBool &&
              (env.validateBlockChainLock cs.state block).toBool &&
              (allowOldBlocks || (env.validateBlockTime cs.state block).toBool) then
            signAddVote env cs .prevote (env.blockHash block) (partSetHeader cs.proposalBlockParts)
          else signAddVote env cs .prevote none ⟨0, []⟩

/-- `enterPrevote`. -/
def enterPrevote (cs : State Block PrivKey) (height round : ℤ) (allowOldBlocks : Bool) :
    Except String (State Block PrivKey) :=
  if cs.height ≠ height ∨ round < cs.round ∨ (cs.round = round ∧ .prevote ≤ cs.step) then .ok cs
  else do
    let cs ← doPrevote env cs allowOldBlocks
    pure (cs.updateRoundStep round .prevote)

/-- `enterPrevoteWait`: it panics without +2/3 prevotes for anything. -/
def enterPrevoteWait (cs : State Block PrivKey) (height round : ℤ) :
    Except String (State Block PrivKey) :=
  if cs.height ≠ height ∨ round < cs.round ∨ (cs.round = round ∧ .prevoteWait ≤ cs.step) then .ok cs
  else if !hasTwoThirdsAnyOf (cs.votes.prevotes round) then
    .error "entering prevote wait step, but prevotes does not have any +2/3 votes"
  else .ok ((cs.scheduleTimeout height round .prevoteWait).updateRoundStep round .prevoteWait)

/-! ## Precommitting -/

/-- The body of `enterPrecommit`: precommit nil without a polka; unlock on a
polka for nil; relock on a polka for the locked block; lock on a polka for the
proposal block; otherwise unlock, prepare to fetch the polka's block, and
precommit nil. -/
def lockAndPrecommit (cs : State Block PrivKey) (round : ℤ) :
    Except String (State Block PrivKey) :=
  match majorityOf (cs.votes.prevotes round) with
  | none => signAddVote env cs .precommit none ⟨0, []⟩
  | some blockID =>
      if cs.votes.polInfo.1 < round then .error "this POLRound should be round but got polRound"
      else if hashLength blockID.hash = 0 then
        let cs := if cs.lockedBlock.isNone then cs else cs.unlock
        signAddVote env cs .precommit none ⟨0, []⟩
      else if hashesTo env cs.lockedBlock blockID.hash then
        signAddVote env { cs with lockedRound := round } .precommit blockID.hash blockID.partSetHeader
      else if hashesTo env cs.proposalBlock blockID.hash then
        match cs.proposalBlock.map (env.validateBlock cs.state) with
        | some (.error err) => .error ("precommit step; +2/3 prevoted for an invalid block: " ++ err)
        | _ =>
            signAddVote env { cs with lockedRound := round, lockedBlock := cs.proposalBlock,
                                      lockedBlockParts := cs.proposalBlockParts }
              .precommit blockID.hash blockID.partSetHeader
      else
        let cs := cs.unlock
        let cs := if !hasHeader cs.proposalBlockParts blockID.partSetHeader then
            { cs with proposalBlock := none,
                      proposalBlockParts := some (PartSet.newPartSetFromHeader blockID.partSetHeader) }
          else cs
        signAddVote env cs .precommit none ⟨0, []⟩

/-- `enterPrecommit`. -/
def enterPrecommit (cs : State Block PrivKey) (height round : ℤ) :
    Except String (State Block PrivKey) :=
  if cs.height ≠ height ∨ round < cs.round ∨ (cs.round = round ∧ .precommit ≤ cs.step) then .ok cs
  else do
    let cs ← lockAndPrecommit env cs round
    pure (cs.updateRoundStep round .precommit)

/-- `enterPrecommitWait`: it schedules the precommit timeout once per round and
leaves the step as it is; it panics without +2/3 precommits for anything. -/
def enterPrecommitWait (cs : State Block PrivKey) (height round : ℤ) :
    Except String (State Block PrivKey) :=
  if cs.height ≠ height ∨ round < cs.round ∨ (cs.round = round ∧ cs.triggeredTimeoutPrecommit) then
    .ok cs
  else if !hasTwoThirdsAnyOf (cs.votes.precommits round) then
    .error "entering precommit wait step, but precommits does not have any +2/3 votes"
  else .ok { cs.scheduleTimeout height round .precommitWait with triggeredTimeoutPrecommit := true }

/-! ## Committing -/

/-- `updateProposalBlockAndPartsBeforeCommit`: take the locked block if it is the
one committed; if the proposal block is not, wait for the committed block's
parts. -/
def updateProposalBlockAndPartsBeforeCommit (cs : State Block PrivKey) (blockID : BlockID) :
    State Block PrivKey :=
  let cs := if hashesTo env cs.lockedBlock blockID.hash then
      { cs with proposalBlock := cs.lockedBlock, proposalBlockParts := cs.lockedBlockParts }
    else cs
  if !hashesTo env cs.proposalBlock blockID.hash && !hasHeader cs.proposalBlockParts blockID.partSetHeader then
    { cs with proposalBlock := none,
              proposalBlockParts := some (PartSet.newPartSetFromHeader blockID.partSetHeader) }
  else cs

/-- `BlockStore.SaveBlock`: blocks are stored one height after the other, each
with its complete part set. -/
def saveBlock (store : BlockStore) (block : Option Block) (parts : Option PartSet) :
    Except String BlockStore :=
  match block, parts with
  | none, _ => .error "BlockStore can only save a non-nil block"
  | some block, parts =>
      let height := env.blockHeight block
      if 0 < store.base ∧ height ≠ store.height + 1 then
        .error "BlockStore can only save contiguous blocks"
      else
        match parts with
        | none => .error nilDereference
        | some parts =>
            if !parts.isComplete then .error "BlockStore can only save complete block part sets"
            else .ok ⟨if store.base = 0 then height else store.base, height,
              Function.update store.appHash height (some (env.blockAppHash block))⟩

/-- The `switch` of `updateToState` that sets the last precommits and commit. -/
def lastCommitFor (cs : State Block PrivKey) (state : SmState) (commit : Option Commit) :
    Except String (Option VoteSet × Option Commit) :=
  if state.lastBlockHeight = 0 then .ok (none, none)
  else if -1 < cs.commitRound ∧ commit.isNone then
    match cs.votes.precommits cs.commitRound with
    | some precommits =>
        if !precommits.hasTwoThirdsMajority then
          .error "wanted to form a commit, but precommits didn't have 2/3+"
        else do
          let lastCommit ← precommits.makeCommit
          pure (some precommits, some lastCommit)
    | none => .error "wanted to form a commit, but precommits didn't have 2/3+"
  else
    match commit, cs.lastCommit with
    | some commit, _ => .ok (cs.votes.precommits cs.commitRound, some commit)
    | none, none => .error "last commit cannot be empty after initial block"
    | none, some _ => .ok (cs.lastPrecommits, cs.lastCommit)

/-- `updateToState`: move to the height after the chain state's last block, at
round 0 and step `newHeight`, with everything of the old height cleared; a
chain state that is not ahead of the one held changes nothing. -/
def updateToState (cs : State Block PrivKey) (state : SmState) (commit : Option Commit) :
    Except String (State Block PrivKey) :=
  if -1 < cs.commitRound ∧ 0 < cs.height ∧ cs.height ≠ state.lastBlockHeight then
    .error "updateToState() expected state height of cs.Height but found state.LastBlockHeight"
  else if 0 < cs.state.lastBlockHeight ∧ cs.state.lastBlockHeight + 1 ≠ cs.height then
    .error "inconsistent cs.state.LastBlockHeight+1 vs cs.Height"
  else if 0 < cs.state.lastBlockHeight ∧ cs.height = cs.state.initialHeight then
    .error "inconsistent cs.state.LastBlockHeight, expected 0 for initial height"
  else if state.lastBlockHeight ≤ cs.state.lastBlockHeight then .ok cs
  else do
    let (lastPrecommits, lastCommit) ← lastCommitFor cs state commit
    let height := if state.lastBlockHeight + 1 = 1 then state.initialHeight else state.lastBlockHeight + 1
    let votes ← HeightVoteSet.new state.chainID height state.validators
    pure { cs with
      height, round := 0, step := .newHeight
      validators := state.validators
      proposal := none, proposalBlock := none, proposalBlockParts := none
      lockedRound := -1, lockedBlock := none, lockedBlockParts := none
      validRound := -1, validBlock := none, validBlockParts := none
      commit := none, votes, commitRound := -1
      lastPrecommits, lastCommit
      lastValidators := state.lastValidators
      triggeredTimeoutPrecommit := false
      state }

/-- `applyCommit`: store the block with the commit, have the executor apply it,
move to the next height and schedule its round 0.  A block the executor
refuses leaves the state at the commit step. -/
def applyCommit (cs : State Block PrivKey) (commit : Option Commit) :
    Except String (State Block PrivKey) := do
  let blockStore ← match commit with
    | some _ => saveBlock env cs.blockStore cs.proposalBlock cs.proposalBlockParts
    | none => pure cs.blockStore
  let cs := { cs with blockStore }
  match cs.proposalBlock with
  | none => throw nilDereference
  | some block =>
      match env.applyBlock cs.state ⟨env.blockHash block, partSetHeader cs.proposalBlockParts⟩ block with
      | .error _ => pure cs
      | .ok state => do
          let cs ← updateToState cs state commit
          pure (cs.scheduleTimeout cs.height 0 .newHeight)

/-- `finalizeCommit`: at the commit step, with the committed block and its
parts, apply it; a missing majority, block or part set panics. -/
def finalizeCommit (cs : State Block PrivKey) (height : ℤ) : Except String (State Block PrivKey) :=
  if cs.height ≠ height ∨ cs.step ≠ .applyCommit then .ok cs
  else
    match majorityOf (cs.votes.precommits cs.commitRound) with
    | none => .error "cannot finalize commit; commit does not have 2/3 majority"
    | some blockID =>
        if !hasHeader cs.proposalBlockParts blockID.partSetHeader then
          .error "expected ProposalBlockParts header to be commit header"
        else
          match cs.proposalBlock with
          | none => .error "cannot finalize commit; proposal block does not hash to commit hash"
          | some block =>
              if !hashesTo env (some block) blockID.hash then
                .error "cannot finalize commit; proposal block does not hash to commit hash"
              else
                match env.validateBlock cs.state block with
                | .error err => .error ("+2/3 committed an invalid block: " ++ err)
                | .ok () =>
                    if cs.blockStore.height < env.blockHeight block then do
                      let seenCommit ← match cs.votes.precommits cs.commitRound with
                        | some precommits => precommits.makeCommit
                        | none => throw nilDereference
                      applyCommit env cs (some seenCommit)
                    else applyCommit env cs none

/-- `tryFinalizeCommit`: finalize once the block of a majority for a block is
there. -/
def tryFinalizeCommit (cs : State Block PrivKey) (height : ℤ) : Except String (State Block PrivKey) :=
  if cs.height ≠ height then .error "tryFinalizeCommit() cs.Height vs height"
  else
    match majorityOf (cs.votes.precommits cs.commitRound) with
    | none => .ok cs
    | some blockID =>
        if hashLength blockID.hash = 0 then .ok cs
        else if !hashesTo env cs.proposalBlock blockID.hash then .ok cs
        else finalizeCommit env cs height

/-- `enterCommit`: move to the commit step in the current round, remembering
the round of the majority. -/
def enterCommit (cs : State Block PrivKey) (height commitRound : ℤ) :
    Except String (State Block PrivKey) :=
  if cs.height ≠ height ∨ .applyCommit ≤ cs.step then .ok cs
  else
    match majorityOf (cs.votes.precommits commitRound) with
    | none => .error "RunActionCommit() expects +2/3 precommits"
    | some blockID =>
        let cs := updateProposalBlockAndPartsBeforeCommit env cs blockID
        let cs := { cs.updateRoundStep cs.round .applyCommit with commitRound }
        tryFinalizeCommit env cs height

/-! ## New rounds -/

/-- `enterPropose`: schedule the propose timeout and propose if it is the node's
turn; then, if the proposal is complete, prevote. -/
def enterPropose (cs : State Block PrivKey) (height round : ℤ) : Except String (State Block PrivKey) :=
  if cs.height ≠ height ∨ round < cs.round ∨ (cs.round = round ∧ .propose ≤ cs.step) then .ok cs
  else do
    let cs := cs.scheduleTimeout height round .propose
    let cs ← proposeIfProposer env cs height round
    -- deferred: the step, then prevote at once on a complete proposal
    let cs := cs.updateRoundStep round .propose
    if cs.isProposalComplete then enterPrevote env cs height cs.round false else pure cs

/-- `enterNewRound`: move to the round, clear a later round's proposal, track
the next round's votes, and propose (or wait for transactions in round 0). -/
def enterNewRound (cs : State Block PrivKey) (height round : ℤ) : Except String (State Block PrivKey) :=
  if cs.height ≠ height ∨ round < cs.round ∨ (cs.round = round ∧ cs.step ≠ .newHeight) then .ok cs
  -- `IncrementProposerPriority` panics on an empty set
  else if cs.round < round ∧ cs.validators.validators = [] then .error "empty validator set"
  else do
    let cs := cs.updateRoundStep round .newRound
    let cs := if round = 0 then cs
      else { cs with proposal := none, proposalBlock := none, proposalBlockParts := none }
    let votes ← cs.votes.setRound (round + 1)
    let cs := { cs with votes, triggeredTimeoutPrecommit := false }
    let waitForTxs ← if env.config.waitForTxs && round = 0 then (cs.needProofBlock height).map (!·)
      else pure false
    if waitForTxs then
      pure (if env.config.createEmptyBlocksIntervalPositive then cs.scheduleTimeout height round .newRound
        else cs)
    else enterPropose env cs height round

/-! ## Commits from peers -/

/-- `addCommit`: take the commit's block, move to the commit step and apply the
block (it returns `added = false` whatever happens). -/
def addCommit (cs : State Block PrivKey) (commit : Commit) : Except String (State Block PrivKey) := do
  let cs := updateProposalBlockAndPartsBeforeCommit env cs commit.blockID
  let cs := { cs.updateRoundStep cs.round .applyCommit with commitRound := commit.round }
  let cs ← applyCommit env cs (some commit)
  if env.config.skipTimeoutCommit then enterNewRound env cs cs.height 0 else pure cs

/-- `verifyCommit`: whether a peer's commit is one to apply.  It reads the
proposal's block ID, the proposal block and its parts without checking that
they are there. -/
def verifyCommit (cs : State Block PrivKey) (commit : Commit) :
    Except String (Bool × Option VerifyCommitError) :=
  match commit.validateBasic with
  | .error e => .ok (false, some (.validateBasic e))
  | .ok () =>
      if commit.height + 1 = cs.height then .ok (false, none)
      else if commit.height ≠ cs.height then .ok (false, none)
      else if commit.blockID.hash.isSome && !bytesEqual commit.stateID.lastAppHash (some cs.state.appHash) then
        .ok (false, some .wrongAppHash)
      else
        match cs.proposal with
        | none => .error nilDereference
        | some proposal =>
            match cs.validators.verifyCommit env.crypto env.verifySignatureDigest cs.state.chainID
                proposal.blockID ⟨some cs.state.appHash⟩ cs.height commit with
            | .error (.panic msg) => .error msg
            | .error (.error e) => .ok (false, some (.verify e))
            | .ok () =>
                if !hasHeader cs.proposalBlockParts commit.blockID.partSetHeader then
                  .error "expected ProposalBlockParts header to be commit header"
                else
                  match cs.proposalBlock with
                  | none => .error "cannot finalize commit; proposal block does not hash to commit hash"
                  | some block =>
                      if !hashesTo env (some block) commit.blockID.hash then
                        .error "cannot finalize commit; proposal block does not hash to commit hash"
                      else
                        match env.validateBlock cs.state block with
                        | .error err => .error ("+2/3 committed an invalid block: " ++ err)
                        | .ok () => .ok (true, none)

/-- `tryAddCommit`: verify a peer's commit, keep it, and apply it unless the node
has not passed the propose step. -/
def tryAddCommit (cs : State Block PrivKey) (commit : Commit) :
    Except String (State Block PrivKey × Bool × Option VerifyCommitError) :=
  if cs.commit.isSome then .ok (cs, false, none)
  else do
    let (verified, err) ← verifyCommit env cs commit
    if !verified || err.isSome then pure (cs, verified, err)
    else
      let cs := { cs with commit := some commit }
      if cs.step ≤ .propose then pure (cs, false, none)
      else do
        let cs ← addCommit env cs commit
        pure (cs, false, none)

/-! ## Proposals and block parts -/

/-- `defaultSetProposal`: the first valid proposal of the node's height and
round, signed by the round's proposer. -/
def setProposal (cs : State Block PrivKey) (proposal : Proposal) :
    Except String (State Block PrivKey × Option ProposalError) :=
  if cs.proposal.isSome then .ok (cs, none)
  else if proposal.height ≠ cs.height ∨ proposal.round ≠ cs.round then .ok (cs, none)
  else if proposal.polRound < -1 ∨ (0 ≤ proposal.polRound ∧ proposal.round ≤ proposal.polRound) then
    .ok (cs, some .invalidPOLRound)
  else if proposal.coreChainLockedHeight < cs.state.lastCoreChainLockedBlockHeight then
    .ok (cs, some .invalidCoreHeight)
  else
    match proposalBlockSignId env.crypto cs.state.chainID proposal cs.state.validators.quorumType
        cs.state.validators.quorumHash with
    | .error msg => .error msg
    | .ok signId =>
        match env.getProposer cs.validators cs.height cs.round with
        | none => .error nilDereference
        | some proposer =>
            if !env.verifySignatureDigest proposer.pubKey signId (proposal.signature.getD []) then
              .ok (cs, some .invalidSignature)
            else
              let cs := { cs with proposal := some proposal }
              let parts := PartSet.newPartSetFromHeader proposal.blockID.partSetHeader
              .ok (if cs.proposalBlockParts.isNone then { cs with proposalBlockParts := some parts }
                else cs, none)

/-- The error of a block whose core chain-locked height is not the proposal's. -/
def chainLockMismatch (blockHeight proposalHeight : ℕ) : String :=
  s!"core chain lock height of block {blockHeight} does not match proposal {proposalHeight}"

/-- What `addProposalBlockPart` does with a complete part set: decode the block,
take it as the proposal block, and move on (to the valid block, prevote and
precommit, or the commit it was waiting for). -/
def completeProposalBlock (cs : State Block PrivKey) (parts : PartSet) (height : ℤ)
    (fromReplay : Bool) : Except String (State Block PrivKey × Bool × Option String) := do
  let bz ← parts.readAll
  match env.decodeBlock bz with
  | .error err => pure (cs, true, some err)
  | .ok block =>
      match cs.proposal.filter (·.coreChainLockedHeight != env.blockCoreChainLockedHeight block) with
      | some proposal =>
          pure (cs, true, some (chainLockMismatch (env.blockCoreChainLockedHeight block)
            proposal.coreChainLockedHeight))
      | none =>
          let cs := { cs with proposalBlock := some block }
          match cs.commit with
          | some commit => do
              let cs ← addCommit env cs commit
              pure (cs, false, none)
          | none =>
              let majority := majorityOf (cs.votes.prevotes cs.round)
              -- the valid block of the round, if the polka is for this block
              let cs := match majority with
                | some blockID =>
                    if !blockID.isZero && cs.validRound < cs.round &&
                        hashesTo env cs.proposalBlock blockID.hash then
                      { cs with validRound := cs.round, validBlock := cs.proposalBlock,
                                validBlockParts := cs.proposalBlockParts }
                    else cs
                | none => cs
              if cs.step ≤ .propose && cs.isProposalComplete then do
                let cs ← enterPrevote env cs height cs.round fromReplay
                if majority.isSome then do
                  let cs ← enterPrecommit env cs height cs.round
                  pure (cs, true, none)
                else pure (cs, true, none)
              else if cs.step = .applyCommit then do
                let cs ← tryFinalizeCommit env cs height
                pure (cs, true, none)
              else pure (cs, true, none)

/-- `addProposalBlockPart`: add a part of the node's height to the proposal's
part set. -/
def addProposalBlockPart (cs : State Block PrivKey) (height _round : ℤ) (part : Option Part)
    (fromReplay : Bool) : Except String (State Block PrivKey × Bool × Option String) :=
  if cs.height ≠ height then .ok (cs, false, none)
  else
    match cs.proposalBlockParts, part with
    | none, _ => .ok (cs, false, none)
    | some _, none => .error nilDereference
    | some parts, some part =>
        let (parts, added, err) := parts.addPart (Merkle.TreeHash.ofCrypto env.crypto) part
        let cs := { cs with proposalBlockParts := some parts }
        match err with
        | some e => .ok (cs, added, some e.message)
        | none =>
            if cs.state.maxBlockBytes < parts.byteSize then
              let size := parts.byteSize
              let maxBytes := cs.state.maxBlockBytes
              .ok (cs, added,
                some s!"total size of proposal block parts exceeds maximum block bytes ({size} > {maxBytes})")
            else if added && parts.isComplete then completeProposalBlock env cs parts height fromReplay
            else .ok (cs, added, none)

/-! ## Votes -/

/-- What a prevote majority changes in `addVote`: a later polka in a round up to
the current one for another block releases the lock; a polka for a block in the
current round makes the proposal block the valid block, or clears it. -/
def polkaUpdates (cs : State Block PrivKey) (voteRound : ℤ) (blockID : BlockID) :
    State Block PrivKey :=
  let cs := if cs.lockedBlock.isSome ∧ cs.lockedRound < voteRound ∧ voteRound ≤ cs.round ∧
      !hashesTo env cs.lockedBlock blockID.hash then cs.unlock
    else cs
  if hashLength blockID.hash ≠ 0 ∧ cs.validRound < voteRound ∧ voteRound = cs.round then
    let cs := if hashesTo env cs.proposalBlock blockID.hash then
        { cs with validRound := voteRound, validBlock := cs.proposalBlock,
                  validBlockParts := cs.proposalBlockParts }
      else { cs with proposalBlock := none }
    if !hasHeader cs.proposalBlockParts blockID.partSetHeader then
      { cs with proposalBlockParts := some (PartSet.newPartSetFromHeader blockID.partSetHeader) }
    else cs
  else cs

/-- The transitions `addVote` makes after adding a prevote: a round skip on
+2/3 of a later round, precommit or wait in the current round, or a prevote once
the proposal's POL round completes it. -/
def addedPrevote (cs : State Block PrivKey) (height : ℤ) (vote : Vote) :
    Except String (State Block PrivKey) :=
  let prevotes := cs.votes.prevotes vote.round
  let cs := match majorityOf prevotes with
    | some blockID => polkaUpdates env cs vote.round blockID
    | none => cs
  if cs.round < vote.round ∧ hasTwoThirdsAnyOf prevotes then enterNewRound env cs height vote.round
  else if cs.round = vote.round ∧ .prevote ≤ cs.step then
    match majorityOf prevotes with
    | some blockID =>
        if cs.isProposalComplete || hashLength blockID.hash = 0 then
          enterPrecommit env cs height vote.round
        else if hasTwoThirdsAnyOf prevotes then enterPrevoteWait cs height vote.round
        else .ok cs
    | none => if hasTwoThirdsAnyOf prevotes then enterPrevoteWait cs height vote.round else .ok cs
  else if cs.proposal.any fun p ↦ 0 ≤ p.polRound ∧ p.polRound = vote.round then
    if cs.isProposalComplete then enterPrevote env cs height cs.round false else .ok cs
  else .ok cs

/-- The transitions `addVote` makes after adding a precommit: on a majority,
catch up to its round, precommit, and commit a block or wait on nil; on +2/3 for
anything in a round not behind, catch up and wait. -/
def addedPrecommit (cs : State Block PrivKey) (height : ℤ) (vote : Vote) :
    Except String (State Block PrivKey) :=
  let precommits := cs.votes.precommits vote.round
  match majorityOf precommits with
  | some blockID => do
      let cs ← enterNewRound env cs height vote.round
      let cs ← enterPrecommit env cs height vote.round
      if hashLength blockID.hash ≠ 0 then do
        let cs ← enterCommit env cs height vote.round
        if env.config.skipTimeoutCommit && hasAllOf precommits then enterNewRound env cs cs.height 0
        else pure cs
      else enterPrecommitWait cs height vote.round
  | none =>
      if cs.round ≤ vote.round ∧ hasTwoThirdsAnyOf precommits then do
        let cs ← enterNewRound env cs height vote.round
        enterPrecommitWait cs height vote.round
      else .ok cs

/-- A precommit of the previous height, added to the last precommits while the
node waits at the new height; with all of them in, skip the commit timeout if
so configured. -/
def addLastPrecommit (cs : State Block PrivKey) (vote : Vote) :
    Except String (State Block PrivKey × Bool × Option AddVoteError) :=
  if cs.step ≠ .newHeight then .ok (cs, false, none)
  else
    match cs.lastPrecommits with
    | none => .ok (cs, false, none)
    | some lastPrecommits => do
        let (lastPrecommits, added, err) ← lastPrecommits.addVote env.recover env.verifyVote vote
        let cs := { cs with lastPrecommits := some lastPrecommits }
        let err := err.map (.vote ∘ .vote)
        if !added then pure (cs, added, err)
        else if env.config.skipTimeoutCommit && lastPrecommits.hasAll then do
          let cs ← enterNewRound env cs cs.height 0
          pure (cs, added, err)
        else pure (cs, added, err)

/-- `addVote`: add a vote of the node's height to its vote sets and make the
transitions it allows. -/
def addVote (cs : State Block PrivKey) (vote : Vote) (peerID : P2PID) :
    Except String (State Block PrivKey × Bool × Option AddVoteError) :=
  if vote.height + 1 = cs.height ∧ vote.type = .precommit then addLastPrecommit env cs vote
  else if vote.height ≠ cs.height then .ok (cs, false, none)
  else if !cs.validators.hasPublicKeys then .ok (cs, false, none)
  else if vote.blockID.hash.isSome && !bytesEqual vote.stateID.lastAppHash (some cs.state.appHash) then
    .ok (cs, false, some .wrongAppHash)
  else do
    let height := cs.height
    let (votes, added, err) ← cs.votes.addVote env.recover env.verifyVote vote peerID
    let cs := { cs with votes }
    let err := err.map .vote
    if !added then pure (cs, added, err)
    else
      match vote.type with
      | .prevote => do
          let cs ← addedPrevote env cs height vote
          pure (cs, added, err)
      | .precommit => do
          let cs ← addedPrecommit env cs height vote
          pure (cs, added, err)
      | _ => throw "unexpected vote type"

/-! ## The receive routine -/

/-- `handleMsg`; the errors of the handlers are only logged. -/
def handleMsg (cs : State Block PrivKey) (mi : MsgInfo) (fromReplay : Bool) :
    Except String (State Block PrivKey) :=
  match mi.msg with
  | .proposal proposal => (setProposal env cs proposal).map (·.1)
  | .blockPart height round part => (addProposalBlockPart env cs height round part fromReplay).map (·.1)
  | .vote vote => (addVote env cs vote mi.peerID).map (·.1)
  | .commit commit => (tryAddCommit env cs commit).map (·.1)

/-- `handleTimeout`: a timeout that is not behind the node moves it on. -/
def handleTimeout (cs : State Block PrivKey) (ti : TimeoutInfo) : Except String (State Block PrivKey) :=
  if ti.height ≠ cs.height ∨ ti.round < cs.round ∨ (ti.round = cs.round ∧ ti.step < cs.step) then .ok cs
  else
    match ti.step with
    | .newHeight => enterNewRound env cs ti.height 0
    | .newRound => enterPropose env cs ti.height 0
    | .propose => enterPrevote env cs ti.height ti.round false
    | .prevoteWait => enterPrecommit env cs ti.height ti.round
    | .precommitWait => do
        let cs ← enterPrecommit env cs ti.height ti.round
        enterNewRound env cs ti.height (ti.round + 1)
    | _ => .error "invalid timeout step"

/-- `handleTxsAvailable`: in round 0, leave the commit wait, or propose. -/
def handleTxsAvailable (cs : State Block PrivKey) : Except String (State Block PrivKey) :=
  if cs.round ≠ 0 then .ok cs
  else
    match cs.step with
    | .newHeight => do
        if ← cs.needProofBlock cs.height then pure cs
        else pure (cs.scheduleTimeout cs.height 0 .newRound)
    | .newRound => enterPropose env cs cs.height 0
    | _ => .ok cs

/-- A peer's `VoteSetMaj23Message`, which the reactor applies to the vote sets
of the node's height. -/
def setPeerMaj23 (cs : State Block PrivKey) (height round : ℤ) (type : SignedMsgType)
    (peerID : P2PID) (blockID : BlockID) : Except String (State Block PrivKey) :=
  if cs.height ≠ height then .ok cs
  else do
    let (votes, _) ← cs.votes.setPeerMaj23 round type peerID blockID
    pure { cs with votes }

end Machine

end Tenderdash.Consensus
