import Tenderdash.Types.Canonical
import Tenderdash.VoteSet.Basic

/-!
# Commits

`types/block.go` and `types/validator_set.go`: a commit is the threshold
signature of a quorum over one precommit, the canonical vote of the commit.
`Commit.ValidateBasic` checks its shape, `ValidatorSet.VerifyCommit` checks it
against a block and state ID and the set's threshold public key, and
`VoteSet.MakeCommit` builds one from a vote set that reached a majority.

Signature checking is `PubKey.VerifySignatureDigest`, a parameter here as in
the evidence and proposal checks.
-/

namespace Tenderdash

/-- `types.SignatureSize`, the size of a BLS12-381 signature. -/
def signatureSize : ℕ := 96

/-- `types.Commit`. -/
structure Commit where
  height : ℤ
  round : ℤ
  blockID : BlockID
  stateID : StateID
  quorumHash : Bytes
  thresholdBlockSignature : Bytes
  thresholdStateSignature : Bytes
deriving DecidableEq, Repr

/-- Why a commit is refused. -/
inductive CommitError where
  | negativeHeight
  | negativeRound
  | nilBlock
  | blockSignatureSize (received : ℕ)
  | stateSignatureSize (received : ℕ)
  | wrongHeight (expected actual : ℤ)
  | wrongBlockID
  | wrongStateID
  | incorrectBlockSignature
  | incorrectStateSignature
deriving DecidableEq, Repr

/-- The fixed text of each error. -/
def CommitError.message : CommitError → String
  | negativeHeight => "negative Height"
  | negativeRound => "negative Round"
  | nilBlock => "commit cannot be for nil block"
  | blockSignatureSize _ => "block threshold signature is wrong size"
  | stateSignatureSize _ => "state threshold signature is wrong size"
  | wrongHeight _ _ => "Invalid commit -- wrong height"
  | wrongBlockID => "invalid commit -- wrong block ID"
  | wrongStateID => "invalid commit -- wrong state ID"
  | incorrectBlockSignature => "incorrect threshold block signature"
  | incorrectStateSignature => "incorrect threshold state signature"

namespace Commit

/-- `Commit.ValidateBasic`. -/
def validateBasic (commit : Commit) : Except CommitError Unit :=
  if commit.height < 0 then .error .negativeHeight
  else if commit.round < 0 then .error .negativeRound
  else if 1 ≤ commit.height then
    if commit.blockID.isZero then .error .nilBlock
    else if commit.thresholdBlockSignature.length ≠ signatureSize then
      .error (.blockSignatureSize commit.thresholdBlockSignature.length)
    else if commit.thresholdStateSignature.length ≠ signatureSize then
      .error (.stateSignatureSize commit.thresholdStateSignature.length)
    else .ok ()
  else .ok ()

/-- `GetCanonicalVote`: the precommit the threshold signatures are over, with no
validator and no signatures. -/
def getCanonicalVote (commit : Commit) : Vote :=
  ⟨.precommit, commit.height, commit.round, commit.blockID, commit.stateID, [], 0, none, none⟩

variable (c : Crypto)

/-- `CanonicalVoteVerifySignId`. -/
def canonicalVoteVerifySignId (commit : Commit) (chainID : Bytes) (quorumType : ℕ)
    (quorumHash : Bytes) : Except String Bytes :=
  voteBlockSignId c chainID commit.getCanonicalVote quorumType quorumHash

/-- `CanonicalVoteStateSignId`. -/
def canonicalVoteStateSignId (commit : Commit) (quorumType : ℕ) (quorumHash : Bytes) :
    Except String Bytes :=
  voteStateSignId c commit.getCanonicalVote quorumType quorumHash

end Commit

/-- `ValidatorSet.VerifyCommit`: the commit is at the height, for the block and
state, and both threshold signatures verify under the set's threshold key.  A
sign ID that cannot be built panics. -/
def ValidatorSet.verifyCommit (c : Crypto) (verifySignatureDigest : Bytes → Bytes → Bytes → Bool)
    (vals : ValidatorSet) (chainID : Bytes) (blockID : BlockID) (stateID : StateID) (height : ℤ)
    (commit : Commit) : Except (Fault CommitError) Unit :=
  if height ≠ commit.height then .error (.error (.wrongHeight height commit.height))
  else if !blockID.equals commit.blockID then .error (.error .wrongBlockID)
  else if !stateID.equals commit.stateID then .error (.error .wrongStateID)
  else
    match commit.canonicalVoteVerifySignId c chainID vals.quorumType vals.quorumHash with
    | .error msg => .error (.panic msg)
    | .ok blockSignId =>
        if !verifySignatureDigest vals.thresholdPublicKey blockSignId commit.thresholdBlockSignature then
          .error (.error .incorrectBlockSignature)
        else
          match commit.canonicalVoteStateSignId c vals.quorumType vals.quorumHash with
          | .error msg => .error (.panic msg)
          | .ok stateSignId =>
              if !verifySignatureDigest vals.thresholdPublicKey stateSignId
                  commit.thresholdStateSignature then
                .error (.error .incorrectStateSignature)
              else .ok ()

/-- `VoteSet.MakeCommit`: the majority block and state with the recovered
threshold signatures; it panics on a prevote set and before a majority. -/
def VoteSet.makeCommit (vs : VoteSet) : Except String Commit :=
  if vs.signedMsgType ≠ .precommit then .error "Cannot MakeCommit() unless VoteSet.Type is PrecommitType"
  else
    match vs.maj23, vs.stateMaj23, vs.thresholdBlockSig, vs.thresholdStateSig with
    | none, _, _, _ => .error "Cannot MakeCommit() unless a blockhash has +2/3"
    | some _, none, _, _ => .error "Cannot MakeCommit() unless a stateMaj23 has been set"
    | some _, some _, none, _ =>
        .error "Cannot MakeCommit() unless a thresholdBlockSig has been created"
    | some _, some _, some _, none =>
        .error "Cannot MakeCommit() unless a thresholdStateSig has been created"
    | some blockID, some stateID, some blockSig, some stateSig =>
        .ok ⟨vs.height, vs.round, blockID, stateID, vs.valSet.quorumHash, blockSig, stateSig⟩

end Tenderdash
