import Tenderdash.Types.ValidatorSet
import Tenderdash.Lib.Quorum
import Tenderdash.Lib.Except

/-!
# Vote sets

`types/vote_set.go`: the votes of one height, round and vote type, collected
from validators.  A vote set keeps five parallel structures:

* `votes`, the canonical vote of each validator, with `votesBitArray` marking
  who has one and `sum` their voting power;
* `votesByBlock`, for each block key, the votes for that block with their own
  bit array and sum, and a flag saying whether a peer claimed a +2/3 majority
  for it;
* `maj23` and `stateMaj23`, the first block (and its state) to reach the
  quorum, with the threshold signatures recovered at that moment;
* `peerMaj23s`, the block each peer claimed a majority for.

## What is transcribed and what is given

`addVote`, `getVote`, `addVerifiedVote` (split here into its three stages),
`recoverThresholdSigs`, `SetPeerMaj23` and the majority queries follow the Go
code branch by branch.  Go slices of one slot per validator are functions on
indices, of which only the indices of validators are ever written.  Given are
the signature check `Vote.Verify`, as `verify`, and the BLS
`RecoverThresholdSignatureFromShares`, as `recover`: the vote set treats both
as black boxes.  `AddVote(nil)` is left out: votes are values here.
-/

namespace Tenderdash

/-- `blockVotes`: the votes for one block key. -/
structure BlockVotes where
  peerMaj23 : Bool
  bitArray : ℕ → Bool
  votes : ℕ → Option Vote
  sum : ℕ

namespace BlockVotes

/-- `newBlockVotes`. -/
def new (peerMaj23 : Bool) : BlockVotes := ⟨peerMaj23, fun _ ↦ false, fun _ ↦ none, 0⟩

/-- `blockVotes.addVerifiedVote`: only a validator's first vote for the block counts. -/
def addVerifiedVote (vs : BlockVotes) (vote : Vote) (votingPower : ℕ) : BlockVotes :=
  let valIndex := vote.validatorIndex.toNat
  match vs.votes valIndex with
  | none =>
      { vs with
        bitArray := Function.update vs.bitArray valIndex true
        votes := Function.update vs.votes valIndex (some vote)
        sum := vs.sum + votingPower }
  | some _ => vs

/-- `blockVotes.getByIndex`, on an entry that may be missing. -/
def getByIndex : Option BlockVotes → ℕ → Option Vote
  | none, _ => none
  | some vs, index => vs.votes index

@[simp] theorem new_votes (peerMaj23 : Bool) (i : ℕ) : (new peerMaj23).votes i = none := rfl

@[simp] theorem new_sum (peerMaj23 : Bool) : (new peerMaj23).sum = 0 := rfl

@[simp] theorem new_peerMaj23 (peerMaj23 : Bool) : (new peerMaj23).peerMaj23 = peerMaj23 := rfl

/-- Adding a validator's first vote for the block. -/
theorem addVerifiedVote_of_none {vs : BlockVotes} {vote : Vote} (votingPower : ℕ)
    (h : vs.votes vote.validatorIndex.toNat = none) :
    vs.addVerifiedVote vote votingPower =
      { vs with
        bitArray := Function.update vs.bitArray vote.validatorIndex.toNat true
        votes := Function.update vs.votes vote.validatorIndex.toNat (some vote)
        sum := vs.sum + votingPower } := by
  simp [addVerifiedVote, h]

end BlockVotes

/-- `P2PID`, a peer's node ID. -/
abbrev P2PID := String

/-- `types.VoteSet`. -/
structure VoteSet where
  chainID : Bytes
  height : ℤ
  round : ℤ
  signedMsgType : SignedMsgType
  valSet : ValidatorSet
  votesBitArray : ℕ → Bool
  votes : ℕ → Option Vote
  sum : ℕ
  maj23 : Option BlockID
  stateMaj23 : Option StateID
  thresholdBlockSig : Option Bytes
  thresholdStateSig : Option Bytes
  votesByBlock : Bytes → Option BlockVotes
  peerMaj23s : P2PID → Option BlockID

/-- `NewVoteSet`; a height of zero, or validators without public keys, panic. -/
def newVoteSet (chainID : Bytes) (height round : ℤ) (signedMsgType : SignedMsgType)
    (valSet : ValidatorSet) : Except String VoteSet :=
  if height = 0 then .error "Cannot make VoteSet for height == 0, doesn't make sense."
  else if !valSet.hasPublicKeys then
    .error "Cannot make VoteSet when the validator set doesn't have public keys."
  else
    .ok { chainID, height, round, signedMsgType, valSet
          votesBitArray := fun _ ↦ false
          votes := fun _ ↦ none
          sum := 0
          maj23 := none
          stateMaj23 := none
          thresholdBlockSig := none
          thresholdStateSig := none
          votesByBlock := fun _ ↦ none
          peerMaj23s := fun _ ↦ none }

/-- The errors `AddVote` returns, each wrapping the sentinel error the callers
test for. -/
inductive VoteError where
  | negativeIndex
  | emptyProTxHash
  | unexpectedStep (height round : ℤ) (type : SignedMsgType) (gotHeight gotRound : ℤ)
      (gotType : SignedMsgType)
  | validatorNotFound (index : ℤ) (size : ℕ)
  | proTxHashMismatch (proTxHash lookupProTxHash : Bytes) (index : ℤ)
  | nonDeterministicSignature (existing vote : Vote)
  | verifyFailed (msg : String)
  | conflictingVotes (voteA voteB : Vote)
deriving DecidableEq, Repr

/-- The sentinel error each `AddVote` error wraps (`types/vote.go`). -/
def VoteError.sentinel : VoteError → String
  | negativeIndex | validatorNotFound .. => "invalid validator index"
  | emptyProTxHash | proTxHashMismatch .. => "invalid validator pro_tx_hash"
  | unexpectedStep .. => "unexpected step"
  | nonDeterministicSignature .. => "non-deterministic signature"
  | verifyFailed msg => msg
  | conflictingVotes .. => "conflicting votes"

/-- The error `SetPeerMaj23` returns when a peer names a second block. -/
structure PeerMaj23Error where
  peerID : P2PID
  blockID : BlockID
  existing : BlockID
deriving DecidableEq, Repr

namespace VoteSet

/-- `TotalVotingPower()*2/3 + 1`, the quorum `addVerifiedVote` counts against. -/
def quorum (vs : VoteSet) : ℕ := Quorum.twoThirds vs.valSet.totalVotingPower

/-- The checks `addVote` makes before looking for an earlier vote: a validator
index and pro-tx-hash, the set's height, round and type, and a validator at the
index whose pro-tx-hash is the vote's. -/
def validateVote (vs : VoteSet) (vote : Vote) : Except VoteError Validator :=
  if vote.validatorIndex < 0 then .error .negativeIndex
  else if vote.validatorProTxHash.length = 0 then .error .emptyProTxHash
  else if vote.height ≠ vs.height ∨ vote.round ≠ vs.round ∨ vote.type ≠ vs.signedMsgType then
    .error (.unexpectedStep vs.height vs.round vs.signedMsgType vote.height vote.round vote.type)
  else
    match vs.valSet.getByIndex vote.validatorIndex with
    | none => .error (.validatorNotFound vote.validatorIndex vs.valSet.size)
    | some val =>
        if vote.validatorProTxHash ≠ val.proTxHash then
          .error (.proTxHashMismatch vote.validatorProTxHash val.proTxHash vote.validatorIndex)
        else .ok val

/-- `getVote`: the validator's vote for the block key, in `.votes` or in the
block's entry. -/
def getVote (vs : VoteSet) (valIndex : ℕ) (blockKey : Bytes) : Option Vote :=
  match vs.votes valIndex with
  | some existing =>
      if existing.blockID.key = blockKey then some existing
      else BlockVotes.getByIndex (vs.votesByBlock blockKey) valIndex
  | none => BlockVotes.getByIndex (vs.votesByBlock blockKey) valIndex

/-- `maj23 != nil && maj23.Key() == blockKey`. -/
def isMaj23Key (vs : VoteSet) (blockKey : Bytes) : Bool :=
  match vs.maj23 with
  | some b => b.key == blockKey
  | none => false

/-- The first stage of `addVerifiedVote`: a validator's first vote goes into
`.votes` and counts towards `sum`; a later one is the conflicting vote, and
replaces the first only if it is for the majority block. -/
def recordVote (vs : VoteSet) (vote : Vote) (blockKey : Bytes) (votingPower : ℕ) :
    Except String (VoteSet × Option Vote) :=
  let valIndex := vote.validatorIndex.toNat
  match vs.votes valIndex with
  | some existing =>
      if existing.blockID.equals vote.blockID then
        .error "addVerifiedVote does not expect duplicate votes"
      else if vs.isMaj23Key blockKey then
        .ok ({ vs with
                votes := Function.update vs.votes valIndex (some vote)
                votesBitArray := Function.update vs.votesBitArray valIndex true },
              some existing)
      else .ok (vs, some existing)
  | none =>
      .ok ({ vs with
              votes := Function.update vs.votes valIndex (some vote)
              votesBitArray := Function.update vs.votesBitArray valIndex true
              sum := vs.sum + votingPower },
            none)

/-- The second stage of `addVerifiedVote`: the block's entry the vote goes into,
created for a first vote; none when the vote conflicts and no peer asked to
track the block. -/
def trackedBlockVotes (vs : VoteSet) (blockKey : Bytes) (conflicting : Option Vote) :
    Option BlockVotes :=
  match vs.votesByBlock blockKey with
  | some bv => if conflicting.isSome && !bv.peerMaj23 then none else some bv
  | none => if conflicting.isSome then none else some (BlockVotes.new false)

section Recover

variable (recover : List Bytes → List Bytes → Except String Bytes)

/-- `recoverThresholdSigs`: the threshold signatures of the block's votes, in
validator order; the state signature only for a majority on a block. -/
def recoverThresholdSigs (vs : VoteSet) (bv : BlockVotes) : Except String VoteSet :=
  if vs.valSet.size < 2 then
    .error "attempting to recover a threshold signature with only 1 vote"
  else do
    let signed := (List.range vs.valSet.size).filterMap bv.votes
    let blsIDs := signed.map (·.validatorProTxHash)
    let thresholdBlockSig ← (recover (signed.map (·.blockSignature.getD [])) blsIDs).mapError
      ("error recovering threshold block sig: " ++ ·)
    let vs := { vs with thresholdBlockSig := some thresholdBlockSig }
    if vs.maj23.any (·.hash.isSome) then
      let thresholdStateSig ← (recover (signed.map (·.stateSignature.getD [])) blsIDs).mapError
        ("error recovering threshold state sig: " ++ ·)
      pure { vs with thresholdStateSig := some thresholdStateSig }
    else pure vs

/-- The third stage of `addVerifiedVote`, when the vote took its block across
the quorum and no majority was seen before: record the majority and its state,
recover the threshold signatures (or copy the lone validator's), and copy the
block's votes into `.votes`.  A failed recovery panics. -/
def reachQuorum (vs : VoteSet) (vote : Vote) (bv : BlockVotes) : Except String VoteSet :=
  let vs := { vs with maj23 := some vote.blockID, stateMaj23 := some vote.stateID }
  let signed := if 1 < vs.valSet.size then recoverThresholdSigs recover vs bv
    else .ok { vs with thresholdBlockSig := vote.blockSignature,
                       thresholdStateSig := vote.stateSignature }
  signed.map fun vs ↦ { vs with votes := fun i ↦ (bv.votes i).or (vs.votes i) }

/-- `addVerifiedVote`: whether the vote was added to its block's entry, and the
validator's conflicting vote if any. -/
def addVerifiedVote (vs : VoteSet) (vote : Vote) (blockKey : Bytes) (votingPower : ℕ) :
    Except String (VoteSet × Bool × Option Vote) := do
  let (vs, conflicting) ← vs.recordVote vote blockKey votingPower
  match vs.trackedBlockVotes blockKey conflicting with
  | none => return (vs, false, conflicting)
  | some bv =>
      let origSum := bv.sum
      let bv := bv.addVerifiedVote vote votingPower
      let vs := { vs with votesByBlock := Function.update vs.votesByBlock blockKey (some bv) }
      -- only the first block to cross the quorum becomes the majority
      let reached := if origSum < vs.quorum && vs.quorum ≤ bv.sum && vs.maj23.isNone then
          reachQuorum recover vs vote bv
        else pure vs
      reached.map fun vs ↦ (vs, true, conflicting)

variable (verify : Bytes → ℕ → Bytes → Bytes → Bytes → Vote → Except String Unit)

/-- `addVote`: the vote set after the call, whether the vote was added, and the
error.  An error before `addVerifiedVote` leaves the set as it was; a conflicting
vote is reported after the set was updated. -/
def addVote (vs : VoteSet) (vote : Vote) : Except String (VoteSet × Bool × Option VoteError) :=
  match vs.validateVote vote with
  | .error e => .ok (vs, false, some e)
  | .ok val =>
      match vs.getVote vote.validatorIndex.toNat vote.blockID.key with
      | some existing =>
          if bytesEqual existing.blockSignature vote.blockSignature &&
              bytesEqual existing.stateSignature vote.stateSignature then
            .ok (vs, false, none)
          else .ok (vs, false, some (.nonDeterministicSignature existing vote))
      | none =>
          match verify vs.chainID vs.valSet.quorumType vs.valSet.quorumHash val.pubKey
              val.proTxHash vote with
          | .error msg => .ok (vs, false, some (.verifyFailed msg))
          | .ok () => do
              let (vs', added, conflicting) ←
                vs.addVerifiedVote recover vote vote.blockID.key val.votingPower
              match conflicting with
              | some c => return (vs', added, some (.conflictingVotes c vote))
              | none =>
                  if added then return (vs', added, none)
                  else throw "Expected to add non-conflicting vote"

end Recover

/-- `SetPeerMaj23`: track the block a peer claims a majority for.  A peer that
names a second block is refused. -/
def setPeerMaj23 (vs : VoteSet) (peerID : P2PID) (blockID : BlockID) :
    Except PeerMaj23Error VoteSet :=
  let blockKey := blockID.key
  match vs.peerMaj23s peerID with
  | some existing =>
      if existing.equals blockID then .ok vs else .error ⟨peerID, blockID, existing⟩
  | none =>
      let vs := { vs with peerMaj23s := Function.update vs.peerMaj23s peerID (some blockID) }
      match vs.votesByBlock blockKey with
      | some bv =>
          if bv.peerMaj23 then .ok vs
          else .ok { vs with
            votesByBlock := Function.update vs.votesByBlock blockKey (some { bv with peerMaj23 := true }) }
      | none =>
          .ok { vs with votesByBlock := Function.update vs.votesByBlock blockKey (some (BlockVotes.new true)) }

/-! ## Queries -/

/-- `HasTwoThirdsMajority`. -/
def hasTwoThirdsMajority (vs : VoteSet) : Bool := vs.maj23.isSome

/-- `IsCommit`. -/
def isCommit (vs : VoteSet) : Bool := vs.signedMsgType == .precommit && vs.maj23.isSome

/-- `HasTwoThirdsAny`: more than two thirds of the power voted, for anything. -/
def hasTwoThirdsAny (vs : VoteSet) : Bool := vs.sum > vs.valSet.totalVotingPower * 2 / 3

/-- `HasAll`. -/
def hasAll (vs : VoteSet) : Bool := vs.sum == vs.valSet.totalVotingPower

/-- `TwoThirdsMajority`: the majority block, if any. -/
def twoThirdsMajority (vs : VoteSet) : Option BlockID := vs.maj23

/-- `GetByIndex`: the canonical vote of a validator. -/
def getByIndex (vs : VoteSet) (valIndex : ℕ) : Option Vote := vs.votes valIndex

/-- `BitArrayByBlockID`. -/
def bitArrayByBlockID (vs : VoteSet) (blockID : BlockID) : Option (ℕ → Bool) :=
  (vs.votesByBlock blockID.key).map (·.bitArray)

/-! ## What each operation does

One lemma per function, saying everything a successful call can have done;
the invariant proofs cite these and never unfold the functions. -/

theorem validateVote_eq_ok {vs : VoteSet} {vote : Vote} {val : Validator}
    (h : vs.validateVote vote = .ok val) :
    vs.valSet.getByIndex vote.validatorIndex = some val ∧ vote.validatorProTxHash = val.proTxHash := by
  unfold validateVote at h
  split_ifs at h
  split at h
  · cases h
  · rename_i hval
    split_ifs at h with hne
    cases h
    exact ⟨hval, not_not.mp hne⟩

theorem getVote_eq_none {vs : VoteSet} {i : ℕ} {k : Bytes} (h : vs.getVote i k = none) :
    (∀ e, vs.votes i = some e → e.blockID.key ≠ k) ∧
      BlockVotes.getByIndex (vs.votesByBlock k) i = none := by
  unfold getVote at h
  cases he : vs.votes i with
  | none => simp_all
  | some e =>
      rw [he] at h
      by_cases hk : e.blockID.key = k
      · simp [hk] at h
      · simp only [hk, if_false] at h
        exact ⟨fun e' he' ↦ by cases he'; exact hk, h⟩

theorem recordVote_eq_ok {vs vs' : VoteSet} {vote : Vote} {k : Bytes} {p : ℕ} {c : Option Vote}
    (h : vs.recordVote vote k p = .ok (vs', c)) :
    (vs.votes vote.validatorIndex.toNat = none ∧ c = none ∧
        vs' = { vs with
          votes := Function.update vs.votes vote.validatorIndex.toNat (some vote)
          votesBitArray := Function.update vs.votesBitArray vote.validatorIndex.toNat true
          sum := vs.sum + p }) ∨
      (∃ e, vs.votes vote.validatorIndex.toNat = some e ∧ c = some e ∧ vs.isMaj23Key k ∧
        vs' = { vs with
          votes := Function.update vs.votes vote.validatorIndex.toNat (some vote)
          votesBitArray := Function.update vs.votesBitArray vote.validatorIndex.toNat true }) ∨
      (∃ e, vs.votes vote.validatorIndex.toNat = some e ∧ c = some e ∧ vs' = vs) := by
  unfold recordVote at h
  cases he : vs.votes vote.validatorIndex.toNat with
  | none =>
      simp only [he, Except.ok.injEq, Prod.mk.injEq] at h
      exact .inl ⟨rfl, h.2.symm, h.1.symm⟩
  | some e =>
      simp only [he] at h
      split_ifs at h with heq hkey
      · simp only [Except.ok.injEq, Prod.mk.injEq] at h
        exact .inr (.inl ⟨e, rfl, h.2.symm, hkey, h.1.symm⟩)
      · simp only [Except.ok.injEq, Prod.mk.injEq] at h
        exact .inr (.inr ⟨e, rfl, h.2.symm, h.1.symm⟩)

theorem trackedBlockVotes_eq_some {vs : VoteSet} {k : Bytes} {c : Option Vote} {bv : BlockVotes}
    (h : vs.trackedBlockVotes k c = some bv) :
    vs.votesByBlock k = some bv ∨
      (vs.votesByBlock k = none ∧ c = none ∧ bv = BlockVotes.new false) := by
  unfold trackedBlockVotes at h
  split at h
  · rename_i bv' hbv
    split_ifs at h
    cases h
    exact .inl hbv
  · rename_i hbv
    split_ifs at h with hc
    cases h
    exact .inr ⟨hbv, Option.not_isSome_iff_eq_none.mp hc, rfl⟩

/-- Only a conflicting vote can be turned away from its block's entry. -/
theorem trackedBlockVotes_eq_none {vs : VoteSet} {k : Bytes} {c : Option Vote}
    (h : vs.trackedBlockVotes k c = none) : c.isSome := by
  unfold trackedBlockVotes at h
  split at h
  · split_ifs at h with hc
    exact (Bool.and_eq_true_iff.mp hc).1
  · split_ifs at h with hc
    exact hc

theorem isMaj23Key_iff {vs : VoteSet} {k : Bytes} :
    vs.isMaj23Key k ↔ ∃ b, vs.maj23 = some b ∧ b.key = k := by
  unfold isMaj23Key
  cases vs.maj23 <;> simp

section Recover

variable {recover : List Bytes → List Bytes → Except String Bytes}

theorem recoverThresholdSigs_eq_ok {vs vs' : VoteSet} {bv : BlockVotes}
    (h : recoverThresholdSigs recover vs bv = .ok vs') :
    ∃ blockSig stateSig, vs' = { vs with thresholdBlockSig := blockSig,
                                         thresholdStateSig := stateSig } := by
  unfold recoverThresholdSigs at h
  split_ifs at h
  simp only [Except.bind_eq_ok] at h
  obtain ⟨blockSig, -, hrest⟩ := h
  split_ifs at hrest
  · simp only [Except.bind_eq_ok, Except.pure_eq_ok] at hrest
    obtain ⟨stateSig, -, rfl⟩ := hrest
    exact ⟨some blockSig, some stateSig, rfl⟩
  · cases hrest
    exact ⟨some blockSig, vs.thresholdStateSig, rfl⟩

theorem reachQuorum_eq_ok {vs vs' : VoteSet} {vote : Vote} {bv : BlockVotes}
    (h : reachQuorum recover vs vote bv = .ok vs') :
    ∃ blockSig stateSig, vs' = { vs with
      maj23 := some vote.blockID
      stateMaj23 := some vote.stateID
      thresholdBlockSig := blockSig
      thresholdStateSig := stateSig
      votes := fun i ↦ (bv.votes i).or (vs.votes i) } := by
  unfold reachQuorum at h
  simp only [Except.map_eq_fmap, Except.map_eq_ok] at h
  obtain ⟨vs₁, h₁, rfl⟩ := h
  split_ifs at h₁
  · obtain ⟨blockSig, stateSig, rfl⟩ := recoverThresholdSigs_eq_ok h₁
    exact ⟨blockSig, stateSig, rfl⟩
  · cases h₁
    exact ⟨vote.blockSignature, vote.stateSignature, rfl⟩

/-- What a successful `addVerifiedVote` did: recorded the vote, then either
stopped, or added it to its block's entry and, if the block just crossed the
quorum with no majority seen before, made it the majority. -/
theorem addVerifiedVote_eq_ok {vs vs' : VoteSet} {vote : Vote} {k : Bytes} {p : ℕ}
    {added : Bool} {c : Option Vote}
    (h : vs.addVerifiedVote recover vote k p = .ok (vs', added, c)) :
    ∃ vs₁, vs.recordVote vote k p = .ok (vs₁, c) ∧
      ((vs₁.trackedBlockVotes k c = none ∧ vs' = vs₁ ∧ added = false) ∨
        ∃ bv, vs₁.trackedBlockVotes k c = some bv ∧ added = true ∧
          ((bv.sum < vs₁.quorum ∧ vs₁.quorum ≤ (bv.addVerifiedVote vote p).sum ∧
              vs₁.maj23 = none ∧
              reachQuorum recover { vs₁ with
                votesByBlock := Function.update vs₁.votesByBlock k (some (bv.addVerifiedVote vote p)) }
                vote (bv.addVerifiedVote vote p) = .ok vs') ∨
            (¬ (bv.sum < vs₁.quorum ∧ vs₁.quorum ≤ (bv.addVerifiedVote vote p).sum ∧
                vs₁.maj23 = none) ∧
              vs' = { vs₁ with
                votesByBlock := Function.update vs₁.votesByBlock k
                  (some (bv.addVerifiedVote vote p)) }))) := by
  simp only [addVerifiedVote, Except.bind_eq_ok] at h
  obtain ⟨⟨vs₁, c₁⟩, hrec, hrest⟩ := h
  split at hrest
  · rename_i hnone
    simp only [Except.pure_eq_ok, Prod.mk.injEq] at hrest
    obtain ⟨rfl, rfl, rfl⟩ := hrest
    exact ⟨_, hrec, .inl ⟨hnone, rfl, rfl⟩⟩
  · rename_i bv hbv
    simp only [Except.map_eq_fmap, Except.map_eq_ok, Prod.mk.injEq] at hrest
    obtain ⟨vs₂, h₂, rfl, rfl, rfl⟩ := hrest
    refine ⟨vs₁, hrec, .inr ⟨bv, hbv, rfl, ?_⟩⟩
    split_ifs at h₂ with hcross
    · simp only [Bool.and_eq_true, decide_eq_true_eq, Option.isNone_iff_eq_none] at hcross
      exact .inl ⟨hcross.1.1, hcross.1.2, hcross.2, h₂⟩
    · simp only [Bool.and_eq_true, decide_eq_true_eq, Option.isNone_iff_eq_none] at hcross
      cases h₂
      exact .inr ⟨fun h ↦ hcross ⟨⟨h.1, h.2.1⟩, h.2.2⟩, rfl⟩

variable {verify : Bytes → ℕ → Bytes → Bytes → Bytes → Vote → Except String Unit}

/-- What a successful `addVote` did: nothing, or it passed the checks, found no
earlier vote of the validator for the block, and ran `addVerifiedVote`. -/
theorem addVote_eq_ok {vs vs' : VoteSet} {vote : Vote} {added : Bool} {err : Option VoteError}
    (h : vs.addVote recover verify vote = .ok (vs', added, err)) :
    vs' = vs ∨
      ∃ val c, vs.validateVote vote = .ok val ∧
        vs.getVote vote.validatorIndex.toNat vote.blockID.key = none ∧
        vs.addVerifiedVote recover vote vote.blockID.key val.votingPower = .ok (vs', added, c) := by
  unfold addVote at h
  split at h
  · simp only [Except.ok.injEq, Prod.mk.injEq] at h
    exact .inl h.1.symm
  · rename_i val hval
    split at h
    · split_ifs at h <;> simp only [Except.ok.injEq, Prod.mk.injEq] at h <;> exact .inl h.1.symm
    · rename_i hget
      split at h
      · simp only [Except.ok.injEq, Prod.mk.injEq] at h
        exact .inl h.1.symm
      · simp only [Except.bind_eq_ok] at h
        obtain ⟨⟨vs₁, added₁, c⟩, hadd, hrest⟩ := h
        refine .inr ⟨val, c, hval, hget, ?_⟩
        split at hrest
        · simp only [Except.pure_eq_ok, Prod.mk.injEq] at hrest
          rw [hadd, hrest.1, hrest.2.1]
        · split_ifs at hrest
          simp only [Except.pure_eq_ok, Prod.mk.injEq] at hrest
          rw [hadd, hrest.1, hrest.2.1]

/-- A conflicting vote finds no entry to go into unless a peer claimed its block. -/
theorem trackedBlockVotes_of_conflicting (vs : VoteSet) (k : Bytes) (e : Vote)
    (huntracked : ∀ bv, vs.votesByBlock k = some bv → bv.peerMaj23 = false) :
    vs.trackedBlockVotes k (some e) = none := by
  unfold trackedBlockVotes
  cases hbv : vs.votesByBlock k with
  | none => rfl
  | some bv => simp [huntracked bv hbv]

/-- A validator that voted for another block votes for the majority block, which
no peer claimed: `AddVote` reports the conflict and that the vote was not added,
but the vote has replaced the validator's first one in `votes`. -/
theorem addVote_conflicting_overwrites_votes {vs : VoteSet} {vote existing : Vote}
    {val : Validator} (hval : vs.validateVote vote = .ok val)
    (hexisting : vs.votes vote.validatorIndex.toNat = some existing)
    (hother : existing.blockID.key ≠ vote.blockID.key)
    (hnotin : BlockVotes.getByIndex (vs.votesByBlock vote.blockID.key) vote.validatorIndex.toNat =
      none)
    (hverify : verify vs.chainID vs.valSet.quorumType vs.valSet.quorumHash val.pubKey val.proTxHash
      vote = .ok ())
    (hmaj : vs.isMaj23Key vote.blockID.key)
    (huntracked : ∀ bv, vs.votesByBlock vote.blockID.key = some bv → bv.peerMaj23 = false) :
    vs.addVote recover verify vote =
      .ok ({ vs with
              votes := Function.update vs.votes vote.validatorIndex.toNat (some vote)
              votesBitArray := Function.update vs.votesBitArray vote.validatorIndex.toNat true },
            false, some (.conflictingVotes existing vote)) := by
  have hget : vs.getVote vote.validatorIndex.toNat vote.blockID.key = none := by
    simp [getVote, hexisting, hother, hnotin]
  have hequals : existing.blockID.equals vote.blockID = false :=
    Bool.eq_false_iff.mpr fun h ↦ hother (BlockID.key_eq_of_equals h)
  have hrecord : vs.recordVote vote vote.blockID.key val.votingPower =
      .ok ({ vs with
              votes := Function.update vs.votes vote.validatorIndex.toNat (some vote)
              votesBitArray := Function.update vs.votesBitArray vote.validatorIndex.toNat true },
            some existing) := by
    simp [recordVote, hexisting, hequals, hmaj]
  have htracked := trackedBlockVotes_of_conflicting
    { vs with
      votes := Function.update vs.votes vote.validatorIndex.toNat (some vote)
      votesBitArray := Function.update vs.votesBitArray vote.validatorIndex.toNat true }
    vote.blockID.key existing huntracked
  simp only [addVote, hval, hget, hverify, addVerifiedVote, hrecord, htracked, Except.ok_bind]
  rfl

/-- An `AddVote` that did not add the vote left the set as it was, but for one
case: the validator's held vote is for another block and the vote is for the
majority block, which no peer claimed.  The vote has then replaced the held one
in `votes`, and nothing else changed. -/
theorem addVote_not_added_atomic {vs vs' : VoteSet} {vote : Vote} {err : Option VoteError}
    (h : vs.addVote recover verify vote = .ok (vs', false, err)) :
    vs' = vs ∨ ∃ existing, vs.votes vote.validatorIndex.toNat = some existing ∧
      existing.blockID.key ≠ vote.blockID.key ∧ vs.isMaj23Key vote.blockID.key ∧
      vs' = { vs with
        votes := Function.update vs.votes vote.validatorIndex.toNat (some vote)
        votesBitArray := Function.update vs.votesBitArray vote.validatorIndex.toNat true } := by
  rcases addVote_eq_ok h with rfl | ⟨val, c, -, hget, hadd⟩
  · exact .inl rfl
  obtain ⟨vs₁, hrec, hrest⟩ := addVerifiedVote_eq_ok hadd
  obtain ⟨hnone, rfl⟩ : vs₁.trackedBlockVotes vote.blockID.key c = none ∧ vs' = vs₁ := by
    rcases hrest with ⟨hnone, hvs, -⟩ | ⟨_, _, hadded, -⟩
    · exact ⟨hnone, hvs⟩
    · cases hadded
  rcases recordVote_eq_ok hrec with ⟨-, rfl, -⟩ | ⟨e, he, -, hmaj, rfl⟩ | ⟨e, -, -, rfl⟩
  · simpa using trackedBlockVotes_eq_none hnone
  · exact .inr ⟨e, he, (getVote_eq_none hget).1 e he, hmaj, rfl⟩
  · exact .inl rfl

/-- Four validators of power one and block B the majority: validator 0, whose
vote for block A is held, votes for B.  `AddVote` does not add it, and the set
it returns is the one with the vote for B in `votes[0]`. -/
theorem addVote_not_added_atomic_at_majority :
    let vals : ValidatorSet :=
      ⟨[⟨List.replicate 32 1, [1], 1⟩, ⟨List.replicate 32 2, [2], 1⟩,
        ⟨List.replicate 32 3, [3], 1⟩, ⟨List.replicate 32 4, [4], 1⟩], [], 100, [7], true⟩
    let blockA : BlockID := ⟨some (List.replicate 32 1), ⟨1, List.replicate 32 1⟩⟩
    let blockB : BlockID := ⟨some (List.replicate 32 2), ⟨1, List.replicate 32 2⟩⟩
    let prevote (b : BlockID) : Vote :=
      ⟨.prevote, 1, 0, b, ⟨none⟩, List.replicate 32 1, 0, some [1], some [2]⟩
    let vs : VoteSet :=
      ⟨[], 1, 0, .prevote, vals, Function.update (fun _ ↦ false) 0 true,
        Function.update (fun _ ↦ none) 0 (some (prevote blockA)), 3, some blockB, none, none, none,
        fun _ ↦ some (BlockVotes.new false), fun _ ↦ none⟩
    ∃ vs' err, vs.addVote (fun _ _ ↦ .ok []) (fun _ _ _ _ _ _ ↦ .ok ()) (prevote blockB) =
        .ok (vs', false, err) ∧
      (vs' = vs ∨ ∃ existing, vs.votes 0 = some existing ∧
        existing.blockID.key ≠ blockB.key ∧ vs.isMaj23Key blockB.key ∧
        vs' = { vs with
          votes := Function.update vs.votes 0 (some (prevote blockB))
          votesBitArray := Function.update vs.votesBitArray 0 true }) := by
  intro vals blockA blockB prevote vs
  have h : vs.addVote (fun _ _ ↦ .ok []) (fun _ _ _ _ _ _ ↦ .ok ()) (prevote blockB) =
      .ok ({ vs with
              votes := Function.update vs.votes 0 (some (prevote blockB))
              votesBitArray := Function.update vs.votesBitArray 0 true },
            false, some (.conflictingVotes (prevote blockA) (prevote blockB))) :=
    addVote_conflicting_overwrites_votes rfl rfl (by decide) rfl rfl rfl fun _ h ↦ by cases h; rfl
  exact ⟨_, _, h, addVote_not_added_atomic h⟩

end Recover

/-- What a successful `SetPeerMaj23` did: at most one block entry changed, by
being created empty or flagged as claimed by a peer. -/
theorem setPeerMaj23_eq_ok {vs vs' : VoteSet} {peerID : P2PID} {blockID : BlockID}
    (h : vs.setPeerMaj23 peerID blockID = .ok vs') :
    vs'.valSet = vs.valSet ∧ vs'.votes = vs.votes ∧ vs'.votesBitArray = vs.votesBitArray ∧
      vs'.sum = vs.sum ∧ vs'.maj23 = vs.maj23 ∧ vs'.stateMaj23 = vs.stateMaj23 ∧
      ∀ k, vs'.votesByBlock k = vs.votesByBlock k ∨
        (vs.votesByBlock k = none ∧ vs'.votesByBlock k = some (BlockVotes.new true)) ∨
        ∃ bv, vs.votesByBlock k = some bv ∧ vs'.votesByBlock k = some { bv with peerMaj23 := true } := by
  unfold setPeerMaj23 at h
  split at h
  · split_ifs at h
    cases h
    exact ⟨rfl, rfl, rfl, rfl, rfl, rfl, fun _ ↦ .inl rfl⟩
  · dsimp only at h
    split at h
    · rename_i bv hbv
      split_ifs at h
      · cases h
        exact ⟨rfl, rfl, rfl, rfl, rfl, rfl, fun _ ↦ .inl rfl⟩
      · cases h
        refine ⟨rfl, rfl, rfl, rfl, rfl, rfl, fun k ↦ ?_⟩
        by_cases hk : k = blockID.key
        · subst hk
          exact .inr (.inr ⟨bv, hbv, by simp⟩)
        · exact .inl (by simp [hk])
    · rename_i hbv
      cases h
      refine ⟨rfl, rfl, rfl, rfl, rfl, rfl, fun k ↦ ?_⟩
      by_cases hk : k = blockID.key
      · subst hk
        exact .inr (.inl ⟨hbv, by simp⟩)
      · exact .inl (by simp [hk])

end VoteSet

end Tenderdash
