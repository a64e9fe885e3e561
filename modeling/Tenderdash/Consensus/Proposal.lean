import Tenderdash.Consensus.State
import Tenderdash.Types.SignBytes

/-!
# Proposals and their parts

`defaultDecideProposal`, `defaultSetProposal` and `addProposalBlockPart` of
`consensus/state.go`: the proposer of a round signs a proposal for a block and sends
it with the block's parts, and a peer at the same height and round takes the proposal
in and then the parts, one by one, until it can decode the block.

A peer that awaits the proposal (`Awaits`) takes it when the proposer's signature
verifies (`setProposal_eq_accept`), and adds the parts as they arrive in order
(`PartSet.Delivered`) with no error until the last (`handleMsg_parts_delivered`).  With
the last part it decodes the block and compares the block's core chain-locked height
with the proposal's.

The proposer takes that height from `proposedChainLockHeight`, its chain state and the
executor's next chain lock, whatever block it proposes.  A fresh block is built with
the same height, but a valid block from an earlier round keeps the height it was built
with.  When the two differ, every peer takes the proposal and refuses the block at its
last part (`decideProposal_validBlock_last_part_refused`).
-/

namespace Tenderdash.Consensus

open Privval

section Machine

variable {Block PrivKey : Type} (env : Env Block PrivKey)

/-- A peer that awaits the proposal of the node's round: at the node's height and round,
with the node's chain state, and without a proposal or its parts. -/
structure Awaits (cs peer : State Block PrivKey) : Prop where
  height : peer.height = cs.height
  round : peer.round = cs.round
  state : peer.state = cs.state
  proposal : peer.proposal = none
  parts : peer.proposalBlockParts = none

theorem le_proposedChainLockHeight (cs : State Block PrivKey) :
    cs.state.lastCoreChainLockedBlockHeight ≤ proposedChainLockHeight env cs := by
  unfold proposedChainLockHeight
  split
  · split_ifs with h
    · exact h.le
    · exact le_rfl
  · exact le_rfl

/-! ## The proposer -/

section Decide

variable {cs cs' : State Block PrivKey} {pv : FilePV PrivKey} {b : Block} {ps : PartSet}
  {height round : ℤ}

/-- What `decideProposal` sends when the node holds a valid block: nothing, or the
proposal for the valid block, signed, and then each of the block's parts. -/
theorem decideProposal_validBlock (hvalid : cs.validBlock = some b)
    (hparts : cs.validBlockParts = some ps) (h : decideProposal env cs pv height round = .ok cs') :
    cs'.internalMsgs = cs.internalMsgs ∨
      ∃ sig bz, proposalBlockSignBytes cs.state.chainID
          ⟨.proposal, height, proposedChainLockHeight env cs, round, cs.validRound,
            ⟨env.blockHash b, ps.header⟩, cs.now, none⟩ = .ok bz ∧
        cs'.internalMsgs = cs.internalMsgs ++
          ⟨.proposal ⟨.proposal, height, proposedChainLockHeight env cs, round, cs.validRound,
            ⟨env.blockHash b, ps.header⟩, cs.now, sig⟩, ""⟩ ::
          (List.range ps.total).map fun i ↦ ⟨.blockPart cs.height cs.round (ps.parts i), ""⟩ := by
  simp only [decideProposal, hvalid, hparts, pure_bind] at h
  split at h
  · exact .inl (by rw [← Except.ok.inj h])
  · split at h
    · cases h
    · exact .inl (by rw [← Except.ok.inj h]; rfl)
    · rename_i signed _ hsign
      obtain ⟨bz, hbz, -, -⟩ := signProposal_eq_ok env.crypto env.signDigest env.unmarshalProposal hsign
      refine .inr ⟨signed.signature, bz, by simpa [State.recordSign, partSetHeader] using hbz, ?_⟩
      rw [← Except.ok.inj h]
      simp [State.sendInternalMessage, State.recordSign, partSetHeader]

/-- Once `decideProposal` has sent a proposal for the valid block, the proposal names the
block, the recomputed chain-locked height and the valid round, and the block's parts
follow it. -/
theorem decideProposal_validBlock_sends (hvalid : cs.validBlock = some b)
    (hparts : cs.validBlockParts = some ps) (h : decideProposal env cs pv height round = .ok cs')
    {p : Proposal} {rest : List MsgInfo}
    (hsent : cs'.internalMsgs = cs.internalMsgs ++ ⟨.proposal p, ""⟩ :: rest) :
    ∃ sig bz, p = ⟨.proposal, height, proposedChainLockHeight env cs, round, cs.validRound,
        ⟨env.blockHash b, ps.header⟩, cs.now, sig⟩ ∧
      proposalBlockSignBytes cs.state.chainID p = .ok bz ∧
      rest = (List.range ps.total).map fun i ↦ ⟨.blockPart cs.height cs.round (ps.parts i), ""⟩ := by
  rcases decideProposal_validBlock env hvalid hparts h with hsame | ⟨sig, bz, hbz, hmsgs⟩
  · have hlen := congrArg List.length (hsame.symm.trans hsent)
    simp at hlen
  · rw [hmsgs, List.append_cancel_left_eq, List.cons.injEq] at hsent
    obtain ⟨hmsg, hrest⟩ := hsent
    simp only [MsgInfo.mk.injEq, Message.proposal.injEq, and_true] at hmsg
    subst hmsg
    exact ⟨sig, bz, rfl, hbz, hrest.symm⟩

end Decide

/-! ## The peer -/

section Receive

variable {cs peer : State Block PrivKey} {ps : PartSet}

/-- A peer that awaits the proposal takes one for its height and round with a valid POL
round and chain-locked height, signed by the round's proposer, and starts a part set for
the proposal's header. -/
theorem setProposal_eq_accept (hw : Awaits cs peer) {p : Proposal} {proposer : Validator}
    (hheight : p.height = cs.height) (hround : p.round = cs.round)
    (hpol : -1 ≤ p.polRound ∧ p.polRound < p.round)
    (hcore : cs.state.lastCoreChainLockedBlockHeight ≤ p.coreChainLockedHeight)
    (hbytes : ∃ bz, proposalBlockSignBytes cs.state.chainID p = .ok bz)
    (hproposer : env.getProposer peer.validators peer.height peer.round = some proposer)
    (hsig : ∀ signId, proposalBlockSignId env.crypto cs.state.chainID p
      cs.state.validators.quorumType cs.state.validators.quorumHash = .ok signId →
      env.verifySignatureDigest proposer.pubKey signId (p.signature.getD []) = true) :
    setProposal env peer p = .ok ({ peer with
      proposal := some p
      proposalBlockParts := some (PartSet.newPartSetFromHeader p.blockID.partSetHeader) }, none) := by
  obtain ⟨bz, hbz⟩ := hbytes
  have hid : proposalBlockSignId env.crypto cs.state.chainID p cs.state.validators.quorumType
      cs.state.validators.quorumHash = .ok (signIdOf env.crypto cs.state.validators.quorumType
        cs.state.validators.quorumHash (proposalRequestId env.crypto p) bz) :=
    proposalBlockSignId_eq_ok.mpr ⟨bz, hbz, rfl⟩
  have hproposer' := hproposer
  rw [hw.height, hw.round] at hproposer'
  simp [setProposal, hw.proposal, hw.height, hw.round, hw.state, hw.parts, hheight, hround,
    not_lt.mpr hcore, hid, hproposer', hsig _ hid]
  omega

variable {th : Merkle.TreeHash} {height : ℤ}

/-- A part that arrives in order before the last is added with no error. -/
theorem addProposalBlockPart_delivered (peer : State Block PrivKey) (round : ℤ) (fromReplay : Bool)
    (hth : th = Merkle.TreeHash.ofCrypto env.crypto)
    (hps : PartSet.Inv th ps) (hc : ps.isComplete) (hheight : peer.height = height)
    {q : PartSet} (hq : peer.proposalBlockParts = some q) {k : ℕ}
    (hd : PartSet.Delivered th ps q k) (hk : k + 1 < ps.total)
    (hbytes : (ps.byteSize : ℤ) ≤ peer.state.maxBlockBytes) :
    ∃ q', PartSet.Delivered th ps q' (k + 1) ∧
      addProposalBlockPart env peer height round (ps.parts k) fromReplay =
        .ok ({ peer with proposalBlockParts := some q' }, true, none) := by
  subst hth
  obtain ⟨part, hpart, hadd, hd'⟩ := hd.addPart_next hps hc (show k < ps.total by omega)
  have hsize : ¬peer.state.maxBlockBytes < ((q.insertPart part).byteSize : ℤ) := by
    have := hd'.byteSize_le hps
    omega
  refine ⟨_, hd', ?_⟩
  simp [addProposalBlockPart, hheight, hq, hpart, hadd, hsize, hd'.isComplete_eq_false hk]

/-- The last part completes the set, and the block it decodes to is refused when its core
chain-locked height is not the proposal's. -/
theorem addProposalBlockPart_last (peer : State Block PrivKey) (round : ℤ) (fromReplay : Bool)
    (hth : th = Merkle.TreeHash.ofCrypto env.crypto)
    (hps : PartSet.Inv th ps) {bz : Bytes} (hread : ps.readAll = .ok bz) {b : Block}
    (hdecode : env.decodeBlock bz = .ok b) (hheight : peer.height = height) {q : PartSet}
    (hq : peer.proposalBlockParts = some q) (hd : PartSet.Delivered th ps q (ps.total - 1))
    (hbytes : (ps.byteSize : ℤ) ≤ peer.state.maxBlockBytes) {p : Proposal}
    (hprop : peer.proposal = some p)
    (hcore : env.blockCoreChainLockedHeight b ≠ p.coreChainLockedHeight) :
    addProposalBlockPart env peer height round (ps.parts (ps.total - 1)) fromReplay =
      .ok ({ peer with proposalBlockParts := some ps }, true,
        some (chainLockMismatch (env.blockCoreChainLockedHeight b) p.coreChainLockedHeight)) := by
  subst hth
  obtain ⟨hc, hpos⟩ := PartSet.isComplete_of_readAll hread
  obtain ⟨part, hpart, hadd, hd'⟩ := hd.addPart_next hps hc (show ps.total - 1 < ps.total by omega)
  have hfull : q.insertPart part = ps := by
    rw [Nat.sub_add_cancel hpos] at hd'
    exact hd'.eq hps
  have hsize : ¬peer.state.maxBlockBytes < (ps.byteSize : ℤ) := not_lt.mpr hbytes
  simp [addProposalBlockPart, completeProposalBlock, hheight, hq, hpart, hadd, hfull, hsize, hc,
    hread, hdecode, hprop, Option.filter, Ne.symm hcore]

/-- The peer's receive routine adds the parts below `k` as they arrive in order, with a
part set started from the header, and holds them then. -/
theorem handleMsg_parts_delivered (peer : State Block PrivKey) (round : ℤ) (fromReplay : Bool)
    (hth : th = Merkle.TreeHash.ofCrypto env.crypto)
    (hps : PartSet.Inv th ps) (hc : ps.isComplete) (hheight : peer.height = height)
    (hq : peer.proposalBlockParts = some (PartSet.newPartSetFromHeader ps.header))
    (hbytes : (ps.byteSize : ℤ) ≤ peer.state.maxBlockBytes) {k : ℕ} (hk : k < ps.total) :
    ∃ q, PartSet.Delivered th ps q k ∧
      ((List.range k).map fun i ↦ (⟨.blockPart height round (ps.parts i), ""⟩ : MsgInfo)).foldlM
        (fun c mi ↦ handleMsg env c mi fromReplay) peer = .ok { peer with proposalBlockParts := some q } := by
  induction k with
  | zero =>
      refine ⟨_, PartSet.delivered_newPartSetFromHeader ps, ?_⟩
      rw [← hq]
      rfl
  | succ k ih =>
      obtain ⟨q, hd, hrun⟩ := ih (by omega)
      obtain ⟨q', hd', hstep⟩ := addProposalBlockPart_delivered env
        { peer with proposalBlockParts := some q } round fromReplay hth hps hc hheight rfl hd hk hbytes
      refine ⟨q', hd', ?_⟩
      rw [List.range_succ, List.map_append, List.foldlM_append, hrun]
      simp [handleMsg, hstep, Except.map]

end Receive

/-! ## A re-proposed valid block -/

/-- A proposer that holds a valid block proposes it with the core chain-locked height it
computes afresh.  A peer that awaits the proposal, with the proposer's chain state and
the round's proposer verifying the signature, takes the proposal and every part but the
last; the last part completes the block, which it refuses when the block's chain-locked
height is not the recomputed one. -/
theorem decideProposal_validBlock_last_part_refused {cs cs' peer : State Block PrivKey}
    {pv : FilePV PrivKey} {b : Block} {ps : PartSet} {bz : Bytes} {p : Proposal}
    {rest : List MsgInfo} {proposer : Validator}
    (hvalid : cs.validBlock = some b) (hparts : cs.validBlockParts = some ps)
    (hinv : PartSet.Inv (Merkle.TreeHash.ofCrypto env.crypto) ps) (hread : ps.readAll = .ok bz)
    (hdecode : env.decodeBlock bz = .ok b) (hbytes : (ps.byteSize : ℤ) ≤ cs.state.maxBlockBytes)
    (hpol : -1 ≤ cs.validRound ∧ cs.validRound < cs.round)
    (hdecide : decideProposal env cs pv cs.height cs.round = .ok cs')
    (hsent : cs'.internalMsgs = cs.internalMsgs ++ ⟨.proposal p, ""⟩ :: rest)
    (hpeer : Awaits cs peer)
    (hproposer : env.getProposer peer.validators peer.height peer.round = some proposer)
    (hsig : ∀ signId, proposalBlockSignId env.crypto cs.state.chainID p
      cs.state.validators.quorumType cs.state.validators.quorumHash = .ok signId →
      env.verifySignatureDigest proposer.pubKey signId (p.signature.getD []) = true)
    (hcore : env.blockCoreChainLockedHeight b ≠ proposedChainLockHeight env cs) :
    rest = (List.range ps.total).map (fun i ↦ ⟨.blockPart cs.height cs.round (ps.parts i), ""⟩) ∧
      ∃ peer', (⟨.proposal p, ""⟩ :: (List.range (ps.total - 1)).map
          (fun i ↦ ⟨.blockPart cs.height cs.round (ps.parts i), ""⟩)).foldlM
          (fun c mi ↦ handleMsg env c mi false) peer = .ok peer' ∧
        peer'.proposal = some p ∧
        addProposalBlockPart env peer' cs.height cs.round (ps.parts (ps.total - 1)) false =
          .ok ({ peer' with proposalBlockParts := some ps }, true,
            some (chainLockMismatch (env.blockCoreChainLockedHeight b)
              (proposedChainLockHeight env cs))) := by
  obtain ⟨hc, hpos⟩ := PartSet.isComplete_of_readAll hread
  obtain ⟨sig, bz', hp, hbz, hrest⟩ := decideProposal_validBlock_sends env hvalid hparts hdecide hsent
  have hheader : p.blockID.partSetHeader = ps.header := by rw [hp]
  have hcoreEq : p.coreChainLockedHeight = proposedChainLockHeight env cs := by rw [hp]
  have haccept := setProposal_eq_accept env hpeer (by rw [hp]) (by rw [hp]) (by rw [hp]; exact hpol)
    (by rw [hcoreEq]; exact le_proposedChainLockHeight env cs) ⟨bz', hbz⟩ hproposer hsig
  rw [hheader] at haccept
  have hbytes' : (ps.byteSize : ℤ) ≤ peer.state.maxBlockBytes := by rw [hpeer.state]; exact hbytes
  obtain ⟨q, hd, hrun⟩ := handleMsg_parts_delivered env
    { peer with proposal := some p, proposalBlockParts := some (PartSet.newPartSetFromHeader ps.header) }
    cs.round false rfl hinv hc hpeer.height rfl hbytes' (k := ps.total - 1) (by omega)
  have hlast := addProposalBlockPart_last env { peer with proposal := some p, proposalBlockParts := some q }
    cs.round false rfl hinv hread hdecode hpeer.height rfl hd hbytes' rfl (hcoreEq ▸ hcore)
  rw [hcoreEq] at hlast
  refine ⟨hrest, _, ?_, rfl, hlast⟩
  rw [List.foldlM_cons]
  simp only [handleMsg, haccept, Except.map]
  exact hrun

/-- A proposer at height 1, round 1, holds a valid block of two parts whose core
chain-locked height is 5, while the executor's next chain lock is at 6: it proposes the
block at 6, and a peer takes the proposal and the first part and refuses the block at the
second. -/
theorem decideProposal_validBlock_last_part_refused_after_new_chain_lock :
    let crypto : Crypto := ⟨fun d ↦ (d ++ List.replicate 32 0).take 32, fun _ _ _ d ↦ d⟩
    let th := Merkle.TreeHash.ofCrypto crypto
    let data := PartSet.newPartSetFromData th [1, 2] 1
    let ps := (PartSet.newPartSetFromHeader data.header).addParts th ([0, 1].filterMap data.parts)
    let vals : ValidatorSet := ⟨[], [], 0, [], true⟩
    let env : Env Unit Unit := ⟨crypto, fun _ d ↦ .ok d, readCanonicalProposal, fun _ _ _ ↦ true,
      fun _ _ _ _ _ _ ↦ .ok (), fun _ _ ↦ .ok [], fun _ ↦ some (List.replicate 32 7), fun _ ↦ 1,
      fun _ ↦ 5, fun _ ↦ [], fun _ ↦ .ok (), fun _ _ ↦ .ok (), fun _ _ ↦ .ok (), fun _ _ ↦ .ok (),
      fun _ _ _ _ ↦ ((), PartSet.newPartSetFromHeader ⟨0, []⟩), fun s _ _ ↦ .ok s, some 6,
      fun _ _ _ ↦ some ⟨[1], [2], 10⟩, ⟨false, true, false⟩⟩
    let state : SmState := ⟨[], 1, 0, 0, vals, vals, vals, 1048576, []⟩
    let pv : FilePV Unit := ⟨fun _ ↦ some (), ⟨0, 0, 0, none, none, none, none⟩⟩
    let cs : State Unit Unit := ⟨1, 1, .propose, vals, none, none, none, -1, none, none, none,
      0, some (), some ps, ⟨[], 1, vals, 0, fun _ ↦ none, fun _ ↦ []⟩, -1, none, none, vals, false,
      state, ⟨0, 0, fun _ ↦ none⟩, some pv, some [1], ⟨0, 0⟩, [], [], []⟩
    let peer : State Unit Unit :=
      { cs with validRound := -1, validBlock := none, validBlockParts := none, privValidator := none }
    ∃ cs' p rest, decideProposal env cs pv 1 1 = .ok cs' ∧
      cs'.internalMsgs = ⟨.proposal p, ""⟩ :: rest ∧ ps.total = 2 ∧
      env.blockCoreChainLockedHeight () = 5 ∧ proposedChainLockHeight env cs = 6 ∧
      ∃ peer', (⟨.proposal p, ""⟩ :: (List.range (ps.total - 1)).map
          (fun i ↦ ⟨.blockPart 1 1 (ps.parts i), ""⟩)).foldlM
          (fun c mi ↦ handleMsg env c mi false) peer = .ok peer' ∧
        peer'.proposal = some p ∧
        addProposalBlockPart env peer' 1 1 (ps.parts (ps.total - 1)) false =
          .ok ({ peer' with proposalBlockParts := some ps }, true,
            some (chainLockMismatch (env.blockCoreChainLockedHeight ())
              (proposedChainLockHeight env cs))) := by
  intro crypto th data ps vals env state pv cs peer
  obtain ⟨cs', hcs', hlen⟩ := Except.exists_eq_ok_of_toOption_map
    (show (decideProposal env cs pv 1 1).toOption.map (·.internalMsgs.length) = some 3 by decide)
  rcases decideProposal_validBlock env rfl rfl hcs' with hsame | ⟨sig, bz, -, hmsgs⟩
  · rw [hsame] at hlen
    cases hlen
  · obtain ⟨-, peer', hrun, hprop, hlast⟩ := decideProposal_validBlock_last_part_refused env rfl rfl
      ((PartSet.inv_newPartSetFromHeader _).addParts _) (show ps.readAll = .ok [1, 2] by decide) rfl
      (by decide) (by decide) hcs' hmsgs (show Awaits cs peer from ⟨rfl, rfl, rfl, rfl, rfl⟩) rfl
      (fun _ _ ↦ rfl) (by decide)
    exact ⟨cs', _, _, hcs', hmsgs, by decide, rfl, by decide, peer', hrun, hprop, hlast⟩

end Machine

end Tenderdash.Consensus
