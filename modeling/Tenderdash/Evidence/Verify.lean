import Tenderdash.Privval.File
import Tenderdash.Types.SignBytes
import Tenderdash.Types.ValidatorSet

/-!
# Duplicate-vote evidence

`evidence/verify.go`: `VerifyDuplicateVote` accepts two votes of one validator,
at one height, round and type, for different blocks, both with a block
signature that verifies under the validator's key.  Accepted evidence slashes
the validator.

## What is proved

A validator whose votes all come from one file-backed signer cannot be
slashed (`filePV_not_slashable`), whatever the requests and the signer's
starting state, provided its signatures cannot be forged and SHA-256 and the
sign-ID builder are injective.  The argument:

* a block signature that verifies was made on the block sign ID of a vote the
  signer signed afresh (unforgeability), and a sign ID determines the sign
  bytes and tells a vote's block signature apart from its state signature and
  from a proposal's (`Crypto.Binding`);
* sign bytes determine the canonical vote (`voteBlockSignBytes_inj`), so the
  evidence's votes are at the HRS of those requests;
* the signer signs afresh at most once per HRS (`run_pairwise`), so both votes
  come from one request, and their block IDs are equal, which
  `VerifyDuplicateVote` refuses.

Restarts that reload the persisted sign state change nothing here: the signer
persists its state before it answers (`saveSigned`), so a restarted signer
continues from the state the run has reached.
-/

namespace Tenderdash

/-- `types.DuplicateVoteEvidence`; its timestamp is not read by verification. -/
structure DuplicateVoteEvidence where
  voteA : Vote
  voteB : Vote
  totalVotingPower : Int
  validatorPower : Int
deriving DecidableEq, Repr

/-- Why `VerifyDuplicateVote` refuses evidence. -/
inductive DuplicateVoteError where
  | notAValidator (proTxHash : Bytes)
  | hrsMismatch
  | proTxHashMismatch
  | sameBlockIDs
  | proTxHashPubKeyMismatch
  | validatorPowerMismatch
  | totalVotingPowerMismatch
  | invalidSignatureA
  | invalidSignatureB
deriving DecidableEq, Repr

/-- The fixed text of each error (the Go messages also print the values). -/
def DuplicateVoteError.message : DuplicateVoteError → String
  | notAValidator _ => "was not a validator at height"
  | hrsMismatch => "h/r/s does not match"
  | proTxHashMismatch => "validator proTxHashes do not match"
  | sameBlockIDs => "block IDs are the same - not a real duplicate vote"
  | proTxHashPubKeyMismatch => "proTxHash doesn't match pubkey"
  | validatorPowerMismatch => "validator power from evidence and our validator set does not match"
  | totalVotingPowerMismatch =>
      "total voting power from the evidence and our validator set does not match"
  | invalidSignatureA => "verifying VoteA: invalid block signature"
  | invalidSignatureB => "verifying VoteB: invalid state signature"

namespace Privval

/-! ## What the signer signs -/

/-- The digests a request hands to `SignDigest` when it is signed afresh: a
vote's block sign ID, and its state sign ID unless it is for nil; a proposal's
sign ID. -/
def Request.signIds (c : Crypto) : Request → List Bytes
  | .vote chainID quorumType quorumHash v =>
      (voteBlockSignId c chainID v quorumType quorumHash).toOption.toList ++
        if v.blockID.hash.isSome then (voteStateSignId c v quorumType quorumHash).toOption.toList
        else []
  | .proposal chainID quorumType quorumHash p =>
      (proposalBlockSignId c chainID p quorumType quorumHash).toOption.toList

section Signer

variable {c : Crypto}

/-- A vote's block sign ID is among the digests of a request only if the request
is a vote with the same block sign bytes: the request ID tells a block sign ID
apart from a state sign ID and from a proposal's. -/
theorem voteBlockSignId_mem_signIds (hc : c.Binding) {chainID : Bytes} {v : Vote} {q : Nat}
    {qh id : Bytes} {r : Request} (hid : voteBlockSignId c chainID v q qh = .ok id)
    (hmem : id ∈ r.signIds c) :
    ∃ chainID' q' qh' w bz, r = .vote chainID' q' qh' w ∧
      voteBlockSignBytes chainID v = .ok bz ∧ voteBlockSignBytes chainID' w = .ok bz := by
  obtain ⟨bz, hbz, rfl⟩ := voteBlockSignId_eq_ok.mp hid
  cases r with
  | vote chainID' q' qh' w =>
      simp only [Request.signIds, List.mem_append, Except.mem_toOption_toList] at hmem
      rcases hmem with hblock | hstate
      · obtain ⟨bz', hbz', heq⟩ := voteBlockSignId_eq_ok.mp hblock
        obtain ⟨-, -, -, rfl⟩ := signIdOf_inj hc heq
        exact ⟨chainID', q', qh', w, bz, rfl, hbz, hbz'⟩
      · split_ifs at hstate with hnil
        · obtain ⟨bz', -, heq⟩ := voteStateSignId_eq_ok.mp (Except.mem_toOption_toList.mp hstate)
          exact absurd (signIdOf_inj hc heq).2.2.1 (voteBlockRequestId_ne_voteStateRequestId hc v w)
        · simp at hstate
  | proposal chainID' q' qh' p =>
      simp only [Request.signIds, Except.mem_toOption_toList] at hmem
      obtain ⟨bz', -, heq⟩ := proposalBlockSignId_eq_ok.mp hmem
      exact absurd (signIdOf_inj hc heq).2.2.1 (voteBlockRequestId_ne_proposalRequestId hc v p)

/-- Votes at one height, round and type are signed at one HRS. -/
theorem Request.hrs_vote_eq {chainID₁ chainID₂ : Bytes} {q₁ q₂ : Nat} {qh₁ qh₂ : Bytes}
    {v w : Vote} (hh : v.height = w.height) (hr : v.round = w.round) (ht : v.type = w.type) :
    (Request.vote chainID₁ q₁ qh₁ v).hrs = (Request.vote chainID₂ q₂ qh₂ w).hrs := by
  simp [Request.hrs, Request.height, Request.round, Request.step, hh, hr, ht]

end Signer

section Run

variable (c : Crypto) {PrivKey : Type} (signDigest : PrivKey → Bytes → Except String Bytes)
  (unmarshalProposal : Bytes → Except String CanonicalProposal)

/-- A run serves only the requests it is given. -/
theorem run_request_mem (pv : FilePV PrivKey) (rs : List Request) :
    ∀ s ∈ (run c signDigest unmarshalProposal pv rs).2, s.request ∈ rs := by
  induction rs generalizing pv with
  | nil => simp [run]
  | cons r rs ih =>
      unfold run
      split
      · rename_i pv₁ resp _
        intro s hs
        rcases List.mem_cons.mp hs with rfl | hs
        · exact List.mem_cons_self
        · exact List.mem_cons_of_mem r (ih pv₁ s hs)
      · exact fun s hs ↦ List.mem_cons_of_mem r (ih pv s hs)

/-- Two entries of a run signed afresh at one HRS are one entry: the HRSs
signed afresh strictly increase along the run. -/
theorem run_fresh_eq_of_hrs_eq (pv : FilePV PrivKey) (rs : List Request) {a b : Signed}
    (ha : a ∈ (run c signDigest unmarshalProposal pv rs).2)
    (hb : b ∈ (run c signDigest unmarshalProposal pv rs).2) (hfa : a.fresh = true)
    (hfb : b.fresh = true) (h : a.request.hrs = b.request.hrs) : a = b := by
  have hinc : (((run c signDigest unmarshalProposal pv rs).2.filter (·.fresh)).map
      (·.request.hrs)).Pairwise (· < ·) := by
    rw [List.pairwise_map]
    refine ((run_pairwise c signDigest unmarshalProposal pv rs).filter _).imp_of_mem
      fun {_ y} _ hy hxy ↦ hxy.1 ?_
    simpa using (List.mem_filter.mp hy).2
  exact List.inj_on_of_nodup_map (hinc.imp ne_of_lt) (List.mem_filter.mpr ⟨ha, hfa⟩)
    (List.mem_filter.mpr ⟨hb, hfb⟩) h

end Run

end Privval

namespace Evidence

open Privval

section Verify

variable (c : Crypto) (verifySignatureDigest : Bytes → Bytes → Bytes → Bool)

/-- `VerifyDuplicateVote`, with `PubKey.VerifySignatureDigest` as
`verifySignatureDigest pubKey signId signature`.  Computing a sign ID panics
where the vote's block ID cannot be canonicalised. -/
def verifyDuplicateVote (e : DuplicateVoteEvidence) (chainID : Bytes) (valSet : ValidatorSet) :
    Except (Fault DuplicateVoteError) Unit :=
  match valSet.getByProTxHash e.voteA.validatorProTxHash with
  | none => .error (.error (.notAValidator e.voteA.validatorProTxHash))
  | some (_, val) =>
      if e.voteA.height ≠ e.voteB.height ∨ e.voteA.round ≠ e.voteB.round ∨
          e.voteA.type ≠ e.voteB.type then .error (.error .hrsMismatch)
      else if e.voteA.validatorProTxHash ≠ e.voteB.validatorProTxHash then
        .error (.error .proTxHashMismatch)
      else if e.voteA.blockID.equals e.voteB.blockID then .error (.error .sameBlockIDs)
      else if val.proTxHash ≠ e.voteA.validatorProTxHash then
        .error (.error .proTxHashPubKeyMismatch)
      else if (val.votingPower : Int) ≠ e.validatorPower then .error (.error .validatorPowerMismatch)
      else if (valSet.totalVotingPower : Int) ≠ e.totalVotingPower then
        .error (.error .totalVotingPowerMismatch)
      else
        match voteBlockSignId c chainID e.voteA valSet.quorumType valSet.quorumHash with
        | .error msg => .error (.panic msg)
        | .ok signIdA =>
            if !verifySignatureDigest val.pubKey signIdA (e.voteA.blockSignature.getD []) then
              .error (.error .invalidSignatureA)
            else
              match voteBlockSignId c chainID e.voteB valSet.quorumType valSet.quorumHash with
              | .error msg => .error (.panic msg)
              | .ok signIdB =>
                  if !verifySignatureDigest val.pubKey signIdB (e.voteB.blockSignature.getD []) then
                    .error (.error .invalidSignatureB)
                  else .ok ()

/-- What accepted evidence shows: a validator of the set, two votes at one
height, round and type with block IDs that differ, and block signatures that
verify under its key. -/
theorem verifyDuplicateVote_eq_ok {e : DuplicateVoteEvidence} {chainID : Bytes}
    {valSet : ValidatorSet}
    (h : verifyDuplicateVote c verifySignatureDigest e chainID valSet = .ok ()) :
    ∃ i val, valSet.getByProTxHash e.voteA.validatorProTxHash = some (i, val) ∧
      e.voteA.height = e.voteB.height ∧ e.voteA.round = e.voteB.round ∧
      e.voteA.type = e.voteB.type ∧ e.voteA.blockID.equals e.voteB.blockID = false ∧
      ∃ signIdA signIdB,
        voteBlockSignId c chainID e.voteA valSet.quorumType valSet.quorumHash = .ok signIdA ∧
        verifySignatureDigest val.pubKey signIdA (e.voteA.blockSignature.getD []) = true ∧
        voteBlockSignId c chainID e.voteB valSet.quorumType valSet.quorumHash = .ok signIdB ∧
        verifySignatureDigest val.pubKey signIdB (e.voteB.blockSignature.getD []) = true := by
  unfold verifyDuplicateVote at h
  split at h
  · cases h
  · rename_i i val hval
    split_ifs at h with hhrs hpro hsame
    split at h
    · cases h
    · rename_i signIdA hA
      split_ifs at h with hsigA
      split at h
      · cases h
      · rename_i signIdB hB
        split_ifs at h with hsigB
        simp only [not_or, not_not] at hhrs
        exact ⟨i, val, hval, hhrs.1, hhrs.2.1, hhrs.2.2, by simpa using hsame, signIdA, signIdB,
          hA, by simpa using hsigA, hB, by simpa using hsigB⟩

end Verify

/-! ## No slashing of an honest signer -/

section Slashing

variable (c : Crypto) (verifySignatureDigest : Bytes → Bytes → Bytes → Bool)

/-- Unforgeability of a key over a run of the signer that holds it: a signature
verifies under the key only on a digest the signer signed afresh in the run. -/
def SignedOnlyIn (pubKey : Bytes) (entries : List Signed) : Prop :=
  ∀ digest sig, verifySignatureDigest pubKey digest sig = true →
    ∃ s ∈ entries, s.fresh = true ∧ digest ∈ s.request.signIds c

variable {c verifySignatureDigest}

/-- A vote whose block signature verifies has the canonical form of a vote the
signer signed afresh. -/
theorem canonical_of_verified (hc : c.Binding) {pubKey : Bytes} {entries : List Signed}
    (hkey : SignedOnlyIn c verifySignatureDigest pubKey entries)
    (hfits : ∀ s ∈ entries, ∀ chainID q qh w, s.request = .vote chainID q qh w → w.Fits chainID)
    {chainID : Bytes} {v : Vote} (hv : v.Fits chainID) {q : Nat} {qh id sig : Bytes}
    (hid : voteBlockSignId c chainID v q qh = .ok id)
    (hsig : verifySignatureDigest pubKey id sig = true) :
    ∃ s ∈ entries, s.fresh = true ∧ ∃ chainID' q' qh' w cv, s.request = .vote chainID' q' qh' w ∧
      canonicalizeVote chainID v = .ok cv ∧ canonicalizeVote chainID' w = .ok cv := by
  obtain ⟨s, hs, hfresh, hmem⟩ := hkey id sig hsig
  obtain ⟨chainID', q', qh', w, bz, hreq, hbz, hbz'⟩ := voteBlockSignId_mem_signIds hc hid hmem
  have hcanon := voteBlockSignBytes_inj hv (hfits s hs chainID' q' qh' w hreq) hbz hbz'
  obtain ⟨cv, hcv, -⟩ : ∃ cv, canonicalizeVote chainID v = .ok cv ∧ _ := by
    simpa only [voteBlockSignBytes, Except.bind_eq_ok, Except.pure_eq_ok] using hbz
  exact ⟨s, hs, hfresh, chainID', q', qh', w, cv, hreq, hcv, hcanon ▸ hcv⟩

variable {PrivKey : Type} (signDigest : PrivKey → Bytes → Except String Bytes)
  (unmarshalProposal : Bytes → Except String CanonicalProposal)

/-- An honest file-backed signer cannot be slashed: over any run of requests from
any starting state, if the validator's signatures cannot be forged, sign IDs
are binding and the votes fit their Go types, no evidence of two of its votes
passes `VerifyDuplicateVote`. -/
theorem filePV_not_slashable (hc : c.Binding) (pv : FilePV PrivKey) (rs : List Request)
    (pubKey : Bytes)
    (hkey : SignedOnlyIn c verifySignatureDigest pubKey (run c signDigest unmarshalProposal pv rs).2)
    (hfits : ∀ chainID q qh v, Request.vote chainID q qh v ∈ rs → v.Fits chainID)
    (e : DuplicateVoteEvidence) (chainID : Bytes) (valSet : ValidatorSet)
    (hval : ∀ i val, valSet.getByProTxHash e.voteA.validatorProTxHash = some (i, val) →
      val.pubKey = pubKey)
    (hA : e.voteA.Fits chainID) (hB : e.voteB.Fits chainID) :
    verifyDuplicateVote c verifySignatureDigest e chainID valSet ≠ .ok () := by
  intro h
  obtain ⟨i, val, hget, hh, hr, ht, hne, idA, idB, hidA, hsigA, hidB, hsigB⟩ :=
    verifyDuplicateVote_eq_ok c verifySignatureDigest h
  rw [hval i val hget] at hsigA hsigB
  have hfits' : ∀ s ∈ (run c signDigest unmarshalProposal pv rs).2, ∀ chainID q qh w,
      s.request = .vote chainID q qh w → w.Fits chainID := fun s hs chainID q qh w hreq ↦
    hfits chainID q qh w (hreq ▸ run_request_mem c signDigest unmarshalProposal pv rs s hs)
  obtain ⟨sA, hsA, hfA, chainA, qA, qhA, wA, cvA, hreqA, hcA, hcA'⟩ :=
    canonical_of_verified hc hkey hfits' hA hidA hsigA
  obtain ⟨sB, hsB, hfB, chainB, qB, qhB, wB, cvB, hreqB, hcB, hcB'⟩ :=
    canonical_of_verified hc hkey hfits' hB hidB hsigB
  obtain ⟨hbA, -, htA, hhA, hrA, -⟩ := canonicalizeVote_eq_ok hcA
  obtain ⟨-, -, htA', hhA', hrA', -⟩ := canonicalizeVote_eq_ok hcA'
  obtain ⟨hbB, -, htB, hhB, hrB, -⟩ := canonicalizeVote_eq_ok hcB
  obtain ⟨-, -, htB', hhB', hrB', -⟩ := canonicalizeVote_eq_ok hcB'
  have hhrs : sA.request.hrs = sB.request.hrs := by
    rw [hreqA, hreqB]
    exact Request.hrs_vote_eq (by rw [← hhA', hhA, hh, ← hhB, hhB'])
      (by rw [← hrA', hrA, hr, ← hrB, hrB']) (by rw [← htA', htA, ht, ← htB, htB'])
  have hsame := run_fresh_eq_of_hrs_eq c signDigest unmarshalProposal pv rs hsA hsB hfA hfB hhrs
  rw [hsame, hreqB] at hreqA
  obtain ⟨rfl, -, -, rfl⟩ := Request.vote.inj hreqA
  have hcv : cvA = cvB := Except.ok.inj (hcA'.symm.trans hcB')
  rw [hcv] at hbA
  rw [canonicalizeBlockID_inj hbA hbB] at hne
  exact Bool.false_ne_true hne.symm

theorem filePV_not_slashable_prevote :
    let pv : FilePV Unit := ⟨fun _ ↦ some (), ⟨0, 0, stepNone, none, none, none, none⟩⟩
    let vote (hash : Bytes) (sig : Option Bytes) : Vote :=
      ⟨.prevote, 1, 0, ⟨some hash, ⟨1, hash⟩⟩, ⟨some (List.replicate 32 7)⟩, [1], 0, sig, none⟩
    let rs := [Request.vote [] 0 [] (vote (List.replicate 32 1) none),
      Request.vote [] 0 [] (vote (List.replicate 32 2) none)]
    let entries := (run Crypto.injective (fun _ d ↦ .ok d) readCanonicalProposal pv rs).2
    entries.map (·.fresh) = [true] ∧ verifyDuplicateVote Crypto.injective
        (fun _ d _ ↦ decide (∃ s ∈ entries, s.fresh = true ∧ d ∈ s.request.signIds Crypto.injective))
        ⟨vote (List.replicate 32 1) (some [0]), vote (List.replicate 32 2) (some [0]), 1, 1⟩ []
        ⟨[⟨[1], [9], 1⟩], [], 0, [], true⟩ ≠ .ok () := by
  intro pv vote rs entries
  have hfits (hash : Bytes) (sig : Option Bytes) : (vote hash sig).Fits [] := by
    refine ⟨?_, ?_, ?_, ?_, by decide⟩ <;> simp only [vote] <;> decide
  refine ⟨by decide +kernel, ?_⟩
  refine filePV_not_slashable (fun _ d ↦ .ok d) readCanonicalProposal Crypto.injective_binding pv rs
    [9] (fun _ _ h ↦ of_decide_eq_true h) ?_ _ [] _ ?_ (hfits _ _) (hfits _ _)
  · intro chainID q qh v hmem
    simp only [rs, List.mem_cons, Request.vote.injEq, List.not_mem_nil, or_false] at hmem
    rcases hmem with ⟨rfl, -, -, rfl⟩ | ⟨rfl, -, -, rfl⟩ <;> exact hfits _ _
  · intro i val h
    have hget : ValidatorSet.getByProTxHash ⟨[⟨[1], [9], 1⟩], [], 0, [], true⟩ [1] =
        some (0, ⟨[1], [9], 1⟩) := by decide
    rw [show (vote (List.replicate 32 1) (some [0])).validatorProTxHash = [1] from rfl, hget] at h
    cases h
    rfl

end Slashing

end Evidence

end Tenderdash
