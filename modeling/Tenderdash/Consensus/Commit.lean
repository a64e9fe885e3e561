import Tenderdash.Consensus.State
import Tenderdash.Lib.Except

/-!
# Commits from peers

`verifyCommit` and `tryAddCommit` of `consensus/state.go`, which `handleMsg` runs
on every `CommitMessage`; the reactor checks only `Commit.ValidateBasic` before
it queues one.

What `verifyCommit` checks when it accepts a commit is `verifyCommit_eq_ok_true`:
the proposal block is there, hashes to the commit's block, its parts have the
commit's header, and the validator set accepted the commit at the node's height.
But it reads `rs.Proposal.BlockID` without asking whether there is a proposal,
and panics where the proposal block or its parts are not the commit's.  Every
height starts without a proposal (`updateToState_proposal`), so a peer's commit
for the node's height that overtakes the proposal stops the node
(`handleMsg_commit_before_proposal_panics`).
-/

namespace Tenderdash.Consensus

/-- A commit that gets past the checks `verifyCommit` makes of it alone: it
passes `ValidateBasic`, is at the node's height, and names the node's app hash
if it names a block hash. -/
structure CommitFor {Block PrivKey : Type} (cs : State Block PrivKey) (commit : Commit) : Prop where
  validateBasic : commit.validateBasic = .ok ()
  height : commit.height = cs.height
  appHash : commit.blockID.hash = none ∨ commit.stateID.lastAppHash = some cs.state.appHash

section VerifyCommit

variable {Block PrivKey : Type} (env : Env Block PrivKey) {cs : State Block PrivKey} {commit : Commit}

/-- The app-hash check of `verifyCommit` passes. -/
theorem CommitFor.appHash_check (h : CommitFor cs commit) :
    (commit.blockID.hash.isSome && !bytesEqual commit.stateID.lastAppHash
      (some cs.state.appHash)) = false := by
  rcases h.appHash with hnone | hsame
  · simp [hnone]
  · simp [hsame]

/-- Without a proposal, a commit for the node's height dereferences the nil
proposal. -/
theorem verifyCommit_of_proposal_none (h : CommitFor cs commit) (hp : cs.proposal = none) :
    verifyCommit env cs commit = .error nilDereference := by
  simp [verifyCommit, h.validateBasic, h.height, h.appHash_check, hp]

end VerifyCommit

section TryAddCommit

variable {Block PrivKey : Type} (env : Env Block PrivKey) {cs : State Block PrivKey} {commit : Commit}

/-- A panic of `verifyCommit` is a panic of `tryAddCommit` while the node holds
no commit. -/
theorem tryAddCommit_of_verifyCommit_error {msg : String} (hc : cs.commit = none)
    (h : verifyCommit env cs commit = .error msg) : tryAddCommit env cs commit = .error msg := by
  simp [tryAddCommit, hc, h, bind, Except.bind]

end TryAddCommit

section Heights

variable {Block PrivKey : Type} {cs cs' : State Block PrivKey} {state : SmState} {seen : Option Commit}

/-- `updateToState` either leaves the state as it is or starts a height with no
proposal and no commit. -/
theorem updateToState_proposal (h : updateToState cs state seen = .ok cs') :
    cs' = cs ∨ (cs'.proposal = none ∧ cs'.commit = none) := by
  unfold updateToState at h
  split_ifs at h
  · exact .inl (Except.ok.inj h).symm
  all_goals
    obtain ⟨_, -, h⟩ := Except.bind_eq_ok.mp h
    obtain ⟨_, -, h⟩ := Except.bind_eq_ok.mp h
    rw [← Except.ok.inj h]
    exact .inr ⟨rfl, rfl⟩

end Heights

section Panic

variable {Block PrivKey : Type} (env : Env Block PrivKey)

/-- A commit message from a peer, for the node's height, that arrives before the
proposal panics the node: `verifyCommit` dereferences the nil proposal. -/
theorem handleMsg_commit_before_proposal_panics (cs : State Block PrivKey) (commit : Commit)
    (peerID : P2PID) (fromReplay : Bool) (hnew : cs.proposal = none ∧ cs.commit = none)
    (hc : CommitFor cs commit) :
    handleMsg env cs ⟨.commit commit, peerID⟩ fromReplay = .error nilDereference := by
  have hverify := verifyCommit_of_proposal_none env hc hnew.1
  have htry := tryAddCommit_of_verifyCommit_error env hnew.2 hverify
  simp [handleMsg, htry, Except.map]

/-- At the first height, before any proposal: a peer's commit for height 1 with
a block ID, the genesis app hash and signatures of the right size. -/
theorem handleMsg_commit_before_proposal_panics_at_genesis :
    let vals : ValidatorSet := ⟨[], [], 0, [], true⟩
    let genesis : SmState := ⟨[], 1, 0, 0, vals, vals, vals, 1048576, []⟩
    let cs : State Unit Unit := ⟨1, 0, .newHeight, vals, none, none, none, -1, none, none, none,
      -1, none, none, ⟨[], 1, vals, 0, fun _ ↦ none, fun _ ↦ []⟩, -1, none, none, vals, false,
      genesis, ⟨0, 0, fun _ ↦ none⟩, none, none, ⟨0, 0⟩, [], [], []⟩
    let commit : Commit := ⟨1, 0, ⟨some (List.replicate 32 1), ⟨1, List.replicate 32 2⟩⟩,
      ⟨some []⟩, [], List.replicate 96 3, List.replicate 96 4⟩
    let env : Env Unit Unit := ⟨⟨id, fun _ _ _ d ↦ d⟩, fun _ d ↦ .ok d, readCanonicalProposal,
      fun _ _ _ ↦ true, fun _ _ _ _ _ _ ↦ .ok (), fun _ _ ↦ .ok [], fun _ ↦ none, fun _ ↦ 1,
      fun _ ↦ 0, fun _ ↦ [], fun _ ↦ .ok (), fun _ _ ↦ .ok (), fun _ _ ↦ .ok (), fun _ _ ↦ .ok (),
      fun _ _ _ _ ↦ ((), PartSet.newPartSetFromHeader ⟨0, []⟩), fun s _ _ ↦ .ok s, none,
      fun _ _ _ ↦ none, ⟨false, true, false⟩⟩
    (cs.proposal = none ∧ cs.commit = none) ∧ CommitFor cs commit ∧
      handleMsg env cs ⟨.commit commit, "peer"⟩ false = .error nilDereference := by
  intro vals genesis cs commit env
  have hc : CommitFor cs commit := ⟨by decide, rfl, .inr rfl⟩
  exact ⟨⟨rfl, rfl⟩, hc,
    handleMsg_commit_before_proposal_panics env cs commit "peer" false ⟨rfl, rfl⟩ hc⟩

end Panic

end Tenderdash.Consensus
