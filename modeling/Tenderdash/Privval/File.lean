import Tenderdash.Types.Canonical
import Mathlib.Data.Prod.Lex
import Tenderdash.Lib.Except

/-!
# The file-backed private validator

`privval/file.go`: a signer that refuses to sign twice for one height, round
and step (*HRS*).  It keeps the last HRS it signed at, with the sign bytes and
signatures it produced there, in `FilePVLastSignState`, and for each request

* refuses an HRS below the last one (`CheckHRS`),
* at the last HRS hands back the stored signature if the request's sign bytes
  are the stored ones (for a proposal, also if they differ only in the
  timestamp), and refuses otherwise,
* above it signs afresh and records the new HRS (`saveSigned`).

## What is transcribed and what is given

`checkHRS`, `signVote`, `signProposal`, `saveSigned` and
`checkProposalsOnlyDifferByTimestamp` follow the Go functions branch by branch,
with the errors and panic messages they produce.  Given are what the
repository does not implement or only generates:

* the BLS signing of a digest, `signDigest` (`crypto.PrivKey.SignDigest`);
* the generated `UnmarshalDelimited` into a `CanonicalProposal`,
  `unmarshalProposal`, which fails where the Go code would panic.

Two simplifications, both outside what a signing request can influence:
writing the state file (`LastSignState.Save`) is taken to succeed, and the
key file is reduced to the map from quorum hashes to private keys that signing
reads.  A request that fails leaves the signer as it was: every error and
panic of the Go functions happens before `saveSigned`.
-/

namespace Tenderdash.Privval

/-! ## Steps and errors -/

/-- The signer's steps (`int8`): `stepNone` marks the initial state. -/
def stepNone : Int := 0
/-- A proposal is signed at step 1. -/
def stepPropose : Int := 1
/-- A prevote is signed at step 2. -/
def stepPrevote : Int := 2
/-- A precommit is signed at step 3. -/
def stepPrecommit : Int := 3

/-- `voteToStep`: only prevotes and precommits are votes; anything else panics. -/
def voteToStep : SignedMsgType → Except String Int
  | .prevote => .ok stepPrevote
  | .precommit => .ok stepPrecommit
  | _ => .error "Unknown vote type"

theorem voteToStep_eq_ok {t : SignedMsgType} {s : Int} (h : voteToStep t = .ok s) :
    s = stepPrevote ∨ s = stepPrecommit := by
  cases t <;> simp only [voteToStep, reduceCtorEq, Except.ok.injEq] at h
  · exact .inl h.symm
  · exact .inr h.symm

/-- The errors the signer returns, with the values its messages print. -/
inductive SignError where
  | heightRegression (got last : Int)
  | roundRegression (height got last : Int)
  | stepRegression (height round got last : Int)
  | noSignBytes
  | conflictingData
  | stateIDWithoutBlockID (height round : Int)
  | noPrivateKey (quorumHash : Bytes)
  | signDigestFailed (msg : String)
deriving DecidableEq, Repr

/-- The text of each error, as `fmt.Errorf` formats it. -/
def SignError.message : SignError → String
  | heightRegression got last => s!"height regression. Got {got}, last height {last}"
  | roundRegression height got last =>
      s!"round regression at height {height}. Got {got}, last round {last}"
  | stepRegression height round got last =>
      s!"step regression at height {height} round {round}. Got {got}, last step {last}"
  | noSignBytes => "no SignBytes found"
  | conflictingData => "conflicting data"
  | stateIDWithoutBlockID height round =>
      "error : vote should not have a state ID set if the block ID for the round " ++
        s!"({height}/{round}) is not set"
  | noPrivateKey _ => "file private validator could not sign vote for quorum hash"
  | signDigestFailed msg => msg

/-- The errors of the double-sign guard: a regression reported by `CheckHRS`, a
request at the last HRS with nothing stored, and sign bytes other than the
stored ones. -/
def SignError.GuardsHRS : SignError → Prop
  | heightRegression .. | roundRegression .. | stepRegression .. | noSignBytes | conflictingData =>
      True
  | stateIDWithoutBlockID .. | noPrivateKey _ | signDigestFailed _ => False

/-- A failing call of the signer. -/
abbrev SignFault := Fault SignError

/-- Run a computation that the Go code would let panic. -/
def panicking {α : Type} : Except String α → Except SignFault α
  | .ok a => .ok a
  | .error msg => .error (.panic msg)

@[simp] theorem panicking_ok {α : Type} (a : α) : panicking (.ok a) = .ok a := rfl

/-! ## The last sign state -/

/-- `FilePVLastSignState`: the last HRS signed at, and what was signed there. -/
structure FilePVLastSignState where
  height : Int
  round : Int
  step : Int
  blockSignature : Option Bytes
  blockSignBytes : Option Bytes
  stateSignature : Option Bytes
  stateSignBytes : Option Bytes
deriving DecidableEq, Repr

/-- A height, round and step, ordered lexicographically. -/
abbrev HRS := Int ×ₗ Int ×ₗ Int

/-- The HRS of a height, a round and a step. -/
def mkHRS (height round step : Int) : HRS := toLex (height, toLex (round, step))

theorem mkHRS_lt_mkHRS {h r s h' r' s' : Int} :
    mkHRS h r s < mkHRS h' r' s' ↔ h < h' ∨ h = h' ∧ (r < r' ∨ r = r' ∧ s < s') := by
  simp [mkHRS, Prod.Lex.toLex_lt_toLex]

theorem mkHRS_inj {h r s h' r' s' : Int} :
    mkHRS h r s = mkHRS h' r' s' ↔ h = h' ∧ r = r' ∧ s = s' := by
  simp [mkHRS]

namespace FilePVLastSignState

/-- The HRS of the state. -/
def hrs (lss : FilePVLastSignState) : HRS := mkHRS lss.height lss.round lss.step

/-- `CheckHRS`: an error on a regression, `true` when the HRS is the last one
and there is a signature to reuse, `false` when the HRS is new. -/
def checkHRS (lss : FilePVLastSignState) (height round step : Int) : Except SignFault Bool :=
  if lss.height > height then .error (.error (.heightRegression height lss.height))
  else if lss.height = height then
    if lss.round > round then .error (.error (.roundRegression height round lss.round))
    else if lss.round = round then
      if lss.step > step then .error (.error (.stepRegression height round step lss.step))
      else if lss.step = step then
        if lss.blockSignBytes.isSome then
          if lss.blockSignature.isNone then
            .error (.panic "pv: BlockID Signature is nil but BlockSignBytes is not!")
          else .ok true
        else if lss.stateSignBytes.isSome then
          if lss.stateSignature.isNone then
            .error (.panic "pv: StateID Signature is nil but StateSignBytes is not!")
          else .ok true
        else .error (.error .noSignBytes)
      else .ok false
    else .ok false
  else .ok false

/-- Above the last HRS, `CheckHRS` reports a new HRS. -/
theorem checkHRS_of_lt {lss : FilePVLastSignState} {height round step : Int}
    (hlt : lss.hrs < mkHRS height round step) : lss.checkHRS height round step = .ok false := by
  rw [hrs, mkHRS_lt_mkHRS] at hlt
  unfold checkHRS
  rcases hlt with hh | ⟨rfl, hr | ⟨rfl, hs⟩⟩
  · rw [if_neg (by omega), if_neg (by omega)]
  · rw [if_neg (lt_irrefl _), if_pos rfl, if_neg (by omega), if_neg (by omega)]
  · rw [if_neg (lt_irrefl _), if_pos rfl, if_neg (lt_irrefl _), if_pos rfl, if_neg (by omega),
      if_neg (by omega)]

/-- Below the last HRS, `CheckHRS` returns a regression error. -/
theorem checkHRS_error_of_lt {lss : FilePVLastSignState} {height round step : Int}
    (hlt : mkHRS height round step < lss.hrs) :
    ∃ e, lss.checkHRS height round step = .error (.error e) := by
  rw [hrs, mkHRS_lt_mkHRS] at hlt
  unfold checkHRS
  rcases hlt with hh | ⟨rfl, hr | ⟨rfl, hs⟩⟩
  · exact ⟨_, if_pos hh⟩
  · rw [if_neg (lt_irrefl _), if_pos rfl, if_pos hr]
    exact ⟨_, rfl⟩
  · rw [if_neg (lt_irrefl _), if_pos rfl, if_neg (lt_irrefl _), if_pos rfl, if_pos hs]
    exact ⟨_, rfl⟩

/-- At the last HRS, `CheckHRS` returns the stored signature or an error, never a new HRS. -/
theorem checkHRS_self (lss : FilePVLastSignState) :
    lss.checkHRS lss.height lss.round lss.step ≠ .ok false := by
  unfold checkHRS
  rw [if_neg (lt_irrefl _), if_pos rfl, if_neg (lt_irrefl _), if_pos rfl, if_neg (lt_irrefl _),
    if_pos rfl]
  split_ifs <;> simp

/-- `CheckHRS` lets a request through as new exactly when its HRS is above the
last one. -/
theorem checkHRS_eq_ok_false_iff (lss : FilePVLastSignState) (height round step : Int) :
    lss.checkHRS height round step = .ok false ↔ lss.hrs < mkHRS height round step := by
  refine ⟨fun h ↦ ?_, checkHRS_of_lt⟩
  rcases lt_trichotomy lss.hrs (mkHRS height round step) with hlt | heq | hgt
  · exact hlt
  · rw [hrs, mkHRS_inj] at heq
    obtain ⟨rfl, rfl, rfl⟩ := heq
    exact absurd h (checkHRS_self lss)
  · obtain ⟨e, he⟩ := checkHRS_error_of_lt hgt
    rw [he] at h
    cases h

/-- `CheckHRS` offers the stored signature only at the last HRS. -/
theorem hrs_eq_of_checkHRS_eq_ok_true {lss : FilePVLastSignState} {height round step : Int}
    (h : lss.checkHRS height round step = .ok true) : lss.hrs = mkHRS height round step := by
  rcases lt_trichotomy lss.hrs (mkHRS height round step) with hlt | heq | hgt
  · rw [checkHRS_of_lt hlt] at h
    cases h
  · exact heq
  · obtain ⟨e, he⟩ := checkHRS_error_of_lt hgt
    rw [he] at h
    cases h

/-- `saveSigned`: the state after signing afresh at an HRS. -/
def saveSigned (height round step : Int) (blockSignBytes blockSig : Bytes)
    (stateSignBytes stateSig : Option Bytes) : FilePVLastSignState :=
  ⟨height, round, step, some blockSig, some blockSignBytes, stateSig, stateSignBytes⟩

/-- Right after signing, `CheckHRS` at the same HRS offers the stored signature. -/
@[simp] theorem checkHRS_saveSigned (height round step : Int) (blockSignBytes blockSig : Bytes)
    (stateSignBytes stateSig : Option Bytes) :
    (saveSigned height round step blockSignBytes blockSig stateSignBytes stateSig).checkHRS
      height round step = .ok true := by
  simp [saveSigned, checkHRS]

end FilePVLastSignState

/-- `FilePV`: the private keys by quorum hash, and the last sign state. -/
structure FilePV (PrivKey : Type) where
  privateKeys : Bytes → Option PrivKey
  lastSignState : FilePVLastSignState

section Signing

variable {PrivKey : Type} (c : Crypto) (signDigest : PrivKey → Bytes → Except String Bytes)
  (unmarshalProposal : Bytes → Except String CanonicalProposal)

/-- `checkProposalsOnlyDifferByTimestamp`: the stored proposal's timestamp, and
whether the two sign bytes encode proposals that differ at most in their
timestamps.  Bytes that do not decode make the Go code panic. -/
def checkProposalsOnlyDifferByTimestamp (lastSignBytes newSignBytes : Bytes) :
    Except SignFault (Timestamp × Bool) := do
  let lastProposal ← panicking (unmarshalProposal lastSignBytes)
  let newProposal ← panicking (unmarshalProposal newSignBytes)
  pure (lastProposal.timestamp, lastProposal.sameButTimestamp newProposal)

/-- Sign a digest with the key of a quorum. -/
def signWith (pv : FilePV PrivKey) (quorumHash digest : Bytes) : Except SignFault Bytes :=
  match pv.privateKeys quorumHash with
  | none => .error (.error (.noPrivateKey quorumHash))
  | some privKey =>
      match signDigest privKey digest with
      | .ok sig => .ok sig
      | .error msg => .error (.error (.signDigestFailed msg))

/-- The first check of `signVote`: a vote for nil carries no state ID. -/
def checkStateIDOfNilVote (vote : Vote) : Except SignFault Unit :=
  if vote.blockID.hash.isNone && vote.stateID.lastAppHash.isSome then
    .error (.error (.stateIDWithoutBlockID vote.height vote.round))
  else .ok ()

/-- The re-signing branch of `signVote`: a crash between signing and the WAL
can make consensus ask again at the same HRS; the stored signatures are handed
back if both sign bytes are the stored ones. -/
def reuseVoteSignatures (lss : FilePVLastSignState) (blockSignBytes stateSignBytes : Bytes)
    (vote : Vote) : Except SignFault Vote :=
  if bytesEqual (some blockSignBytes) lss.blockSignBytes &&
      bytesEqual (some stateSignBytes) lss.stateSignBytes then
    .ok { vote with blockSignature := lss.blockSignature, stateSignature := lss.stateSignature }
  else .error (.error .conflictingData)

/-- The state signature of a fresh vote: none for a vote for nil. -/
def signStateOfVote (pv : FilePV PrivKey) (quorumHash stateSignId : Bytes) (vote : Vote) :
    Except SignFault (Option Bytes) :=
  if vote.blockID.hash.isSome then some <$> signWith signDigest pv quorumHash stateSignId
  else pure none

/-- The fresh branch of `signVote`: sign the block ID, and the state ID unless
the vote is for nil, then `saveSigned`. -/
def signVoteFresh (pv : FilePV PrivKey) (quorumHash : Bytes) (step : Int)
    (blockSignId stateSignId blockSignBytes stateSignBytes : Bytes) (vote : Vote) :
    Except SignFault (FilePV PrivKey × Vote) := do
  let sigBlock ← signWith signDigest pv quorumHash blockSignId
  let sigState ← signStateOfVote signDigest pv quorumHash stateSignId vote
  let lss' := FilePVLastSignState.saveSigned vote.height vote.round step blockSignBytes sigBlock
    (some stateSignBytes) sigState
  return ({ pv with lastSignState := lss' },
    { vote with blockSignature := some sigBlock, stateSignature := sigState })

/-- `FilePV.signVote`: the signer after the request, and the vote with its
signatures set. -/
def signVote (pv : FilePV PrivKey) (chainID : Bytes) (quorumType : Nat) (quorumHash : Bytes)
    (vote : Vote) : Except SignFault (FilePV PrivKey × Vote) := do
  let step ← panicking (voteToStep vote.type)
  checkStateIDOfNilVote vote
  let sameHRS ← pv.lastSignState.checkHRS vote.height vote.round step
  let blockSignId ← panicking (voteBlockSignId c chainID vote quorumType quorumHash)
  let stateSignId ← panicking (voteStateSignId c vote quorumType quorumHash)
  let blockSignBytes ← panicking (voteBlockSignBytes chainID vote)
  let stateSignBytes ← panicking (voteStateSignBytes vote)
  if sameHRS then
    let signed ← reuseVoteSignatures pv.lastSignState blockSignBytes stateSignBytes vote
    return (pv, signed)
  signVoteFresh signDigest pv quorumHash step blockSignId stateSignId blockSignBytes
    stateSignBytes vote

/-- The re-signing branch of `signProposal`: the stored sign bytes are handed
back as the signature (sic) if the sign bytes are the stored ones, and so is the
stored timestamp if the two proposals differ only in their timestamps. -/
def reuseProposalSignature (lss : FilePVLastSignState) (blockSignBytes : Bytes)
    (proposal : Proposal) : Except SignFault Proposal := do
  if bytesEqual (some blockSignBytes) lss.blockSignBytes then
    return { proposal with signature := lss.blockSignBytes }
  let (timestamp, onlyTime) ← checkProposalsOnlyDifferByTimestamp unmarshalProposal
    (lss.blockSignBytes.getD []) blockSignBytes
  if onlyTime then
    return { proposal with timestamp := timestamp, signature := lss.blockSignBytes }
  throw (.error .conflictingData)

/-- The fresh branch of `signProposal`: sign, then `saveSigned` with no state
signature. -/
def signProposalFresh (pv : FilePV PrivKey) (quorumHash blockSignId blockSignBytes : Bytes)
    (proposal : Proposal) : Except SignFault (FilePV PrivKey × Proposal) := do
  let blockSig ← signWith signDigest pv quorumHash blockSignId
  let lss' := FilePVLastSignState.saveSigned proposal.height proposal.round stepPropose
    blockSignBytes blockSig none none
  return ({ pv with lastSignState := lss' }, { proposal with signature := some blockSig })

/-- `FilePV.signProposal`: the signer after the request, the proposal with its
signature (and possibly its timestamp) set, and the proposal's sign ID. -/
def signProposal (pv : FilePV PrivKey) (chainID : Bytes) (quorumType : Nat) (quorumHash : Bytes)
    (proposal : Proposal) : Except SignFault (FilePV PrivKey × Proposal × Bytes) := do
  let sameHRS ← pv.lastSignState.checkHRS proposal.height proposal.round stepPropose
  let blockSignId ← panicking (proposalBlockSignId c chainID proposal quorumType quorumHash)
  let blockSignBytes ← panicking (proposalBlockSignBytes chainID proposal)
  if sameHRS then
    let signed ← reuseProposalSignature unmarshalProposal pv.lastSignState blockSignBytes proposal
    return (pv, signed, blockSignId)
  let (pv', signed) ← signProposalFresh signDigest pv quorumHash blockSignId blockSignBytes proposal
  return (pv', signed, blockSignId)

/-! ## Requests and runs -/

/-- A request to the signer, with the chain and quorum it names. -/
inductive Request where
  | vote (chainID : Bytes) (quorumType : Nat) (quorumHash : Bytes) (vote : Vote)
  | proposal (chainID : Bytes) (quorumType : Nat) (quorumHash : Bytes) (proposal : Proposal)
deriving DecidableEq

/-- What a successful request hands back: the signed vote, or the signed proposal
with its sign ID. -/
inductive Response where
  | vote (vote : Vote)
  | proposal (proposal : Proposal) (signId : Bytes)

namespace Request

/-- The step a request is signed at; a vote of another type panics in
`voteToStep` and is given the initial step. -/
def step : Request → Int
  | vote _ _ _ v => match voteToStep v.type with
    | .ok s => s
    | .error _ => stepNone
  | proposal _ _ _ _ => stepPropose

/-- The height a request is signed at. -/
def height : Request → Int
  | vote _ _ _ v => v.height
  | proposal _ _ _ p => p.height

/-- The round a request is signed at. -/
def round : Request → Int
  | vote _ _ _ v => v.round
  | proposal _ _ _ p => p.round

/-- The HRS of a request. -/
def hrs (r : Request) : Int ×ₗ Int ×ₗ Int := toLex (r.height, toLex (r.round, r.step))

end Request

/-- `SignVote`/`SignProposal` on the signer. -/
def perform (pv : FilePV PrivKey) : Request → Except SignFault (FilePV PrivKey × Response)
  | .vote chainID quorumType quorumHash v =>
      (signVote c signDigest pv chainID quorumType quorumHash v).map fun p => (p.1, .vote p.2)
  | .proposal chainID quorumType quorumHash p =>
      (signProposal c signDigest unmarshalProposal pv chainID quorumType quorumHash p).map
        fun q => (q.1, .proposal q.2.1 q.2.2)

/-- A successful request as the run records it: the request, the response, and
whether the signer signed afresh (`CheckHRS` found a new HRS and `saveSigned`
ran) rather than handing back a stored signature. -/
structure Signed where
  request : Request
  response : Response
  fresh : Bool

/-- Whether `CheckHRS` finds a request's HRS new. -/
def isFresh (lss : FilePVLastSignState) (r : Request) : Bool :=
  match lss.checkHRS r.height r.round r.step with
  | .ok false => true
  | _ => false

/-- Serve requests one after the other; a failed request leaves the signer as it
was.  The final signer, and the successful requests in order. -/
def run (pv : FilePV PrivKey) : List Request → FilePV PrivKey × List Signed
  | [] => (pv, [])
  | r :: rs =>
      match perform c signDigest unmarshalProposal pv r with
      | .ok (pv', resp) =>
          let rest := run pv' rs
          (rest.1, ⟨r, resp, isFresh pv.lastSignState r⟩ :: rest.2)
      | .error _ => run pv rs

/-! ## What one request does -/

theorem panicking_eq_ok {α : Type} {x : Except String α} {a : α} :
    panicking x = .ok a ↔ x = .ok a := by
  cases x <;> simp [panicking]

theorem reuseVoteSignatures_eq_ok {lss : FilePVLastSignState} {blockSignBytes stateSignBytes : Bytes}
    {vote vote' : Vote} (h : reuseVoteSignatures lss blockSignBytes stateSignBytes vote = .ok vote') :
    lss.blockSignBytes.getD [] = blockSignBytes ∧ lss.stateSignBytes.getD [] = stateSignBytes ∧
      vote' = { vote with blockSignature := lss.blockSignature,
                          stateSignature := lss.stateSignature } := by
  unfold reuseVoteSignatures at h
  split at h
  · rename_i heq
    simp only [Bool.and_eq_true, bytesEqual_iff, Option.getD_some] at heq
    exact ⟨heq.1.symm, heq.2.symm, (Except.ok.inj h).symm⟩
  · cases h

theorem signVoteFresh_eq_ok {pv pv' : FilePV PrivKey} {quorumHash : Bytes} {step : Int}
    {blockSignId stateSignId blockSignBytes stateSignBytes : Bytes} {vote vote' : Vote}
    (h : signVoteFresh signDigest pv quorumHash step blockSignId stateSignId blockSignBytes
      stateSignBytes vote = .ok (pv', vote')) :
    ∃ sigBlock sigState, signWith signDigest pv quorumHash blockSignId = .ok sigBlock ∧
      pv' = { pv with lastSignState := (FilePVLastSignState.saveSigned vote.height vote.round step
        blockSignBytes sigBlock (some stateSignBytes) sigState) } ∧
      vote' = { vote with blockSignature := some sigBlock, stateSignature := sigState } := by
  simp only [signVoteFresh, Except.bind_eq_ok, Except.pure_eq_ok, Prod.mk.injEq] at h
  obtain ⟨sigBlock, hblock, sigState, -, hpv, hvote⟩ := h
  exact ⟨sigBlock, sigState, hblock, hpv.symm, hvote.symm⟩

/-- What a successful `signVote` did: either it handed back the stored
signatures at the last HRS, or it signed at a new HRS and recorded it. -/
theorem signVote_eq_ok {pv pv' : FilePV PrivKey} {chainID : Bytes} {quorumType : Nat}
    {quorumHash : Bytes} {vote vote' : Vote}
    (h : signVote c signDigest pv chainID quorumType quorumHash vote = .ok (pv', vote')) :
    ∃ step blockSignBytes stateSignBytes, voteToStep vote.type = .ok step ∧
      voteBlockSignBytes chainID vote = .ok blockSignBytes ∧
      voteStateSignBytes vote = .ok stateSignBytes ∧
      ((pv.lastSignState.checkHRS vote.height vote.round step = .ok true ∧ pv' = pv ∧
          reuseVoteSignatures pv.lastSignState blockSignBytes stateSignBytes vote = .ok vote') ∨
        (pv.lastSignState.checkHRS vote.height vote.round step = .ok false ∧
          ∃ blockSignId sigBlock sigState,
            voteBlockSignId c chainID vote quorumType quorumHash = .ok blockSignId ∧
            signWith signDigest pv quorumHash blockSignId = .ok sigBlock ∧
            pv' = { pv with lastSignState := (FilePVLastSignState.saveSigned vote.height
              vote.round step blockSignBytes sigBlock (some stateSignBytes) sigState) } ∧
            vote' = { vote with blockSignature := some sigBlock, stateSignature := sigState })) := by
  simp only [signVote, Except.bind_eq_ok] at h
  obtain ⟨step, hstep, _, _, sameHRS, hsame, blockSignId, hbid, _, _, blockSignBytes, hbsb,
    stateSignBytes, hssb, hbranch⟩ := h
  rw [panicking_eq_ok] at hstep hbid hbsb hssb
  refine ⟨step, blockSignBytes, stateSignBytes, hstep, hbsb, hssb, ?_⟩
  by_cases hs : sameHRS = true
  · simp only [hs, if_true, Except.bind_eq_ok, Except.pure_eq_ok, Prod.mk.injEq] at hbranch
    obtain ⟨signed, hsigned, hpv, hvote⟩ := hbranch
    exact .inl ⟨hs ▸ hsame, hpv.symm, hvote ▸ hsigned⟩
  · simp only [hs, Bool.false_eq_true, if_false] at hbranch
    obtain ⟨sigBlock, sigState, hblock, hpv, hvote⟩ := signVoteFresh_eq_ok signDigest hbranch
    exact .inr ⟨by simpa [hs] using hsame, blockSignId, sigBlock, sigState, hbid, hblock, hpv,
      hvote⟩

/-- Sign bytes of two proposals that decode to proposals differing at most in
their timestamps. -/
def OnlyTimestampDiffers (a b : Bytes) : Prop :=
  ∃ pa pb, unmarshalProposal a = .ok pa ∧ unmarshalProposal b = .ok pb ∧ pa.sameButTimestamp pb

theorem checkProposalsOnlyDifferByTimestamp_eq_ok {a b : Bytes} {t : Timestamp}
    (h : checkProposalsOnlyDifferByTimestamp unmarshalProposal a b = .ok (t, true)) :
    OnlyTimestampDiffers unmarshalProposal a b := by
  simp only [checkProposalsOnlyDifferByTimestamp, Except.bind_eq_ok, panicking_eq_ok,
    Except.pure_eq_ok, Prod.mk.injEq] at h
  obtain ⟨pa, ha, pb, hb, -, hsame⟩ := h
  exact ⟨pa, pb, ha, hb, hsame⟩

theorem reuseProposalSignature_eq_ok {lss : FilePVLastSignState} {blockSignBytes : Bytes}
    {proposal proposal' : Proposal}
    (h : reuseProposalSignature unmarshalProposal lss blockSignBytes proposal = .ok proposal') :
    (lss.blockSignBytes.getD [] = blockSignBytes ∨
      OnlyTimestampDiffers unmarshalProposal (lss.blockSignBytes.getD []) blockSignBytes) ∧
    ∃ timestamp, proposal' = { proposal with timestamp := timestamp,
                                             signature := lss.blockSignBytes } ∧
      (timestamp = proposal.timestamp ∨ ∃ stored,
        unmarshalProposal (lss.blockSignBytes.getD []) = .ok stored ∧ timestamp = stored.timestamp) := by
  unfold reuseProposalSignature at h
  split at h
  · rename_i heq
    simp only [bytesEqual_iff, Option.getD_some] at heq
    exact ⟨.inl heq.symm, proposal.timestamp, (Except.ok.inj h).symm, .inl rfl⟩
  · simp only [Except.bind_eq_ok] at h
    obtain ⟨⟨timestamp, onlyTime⟩, hcheck, hrest⟩ := h
    cases onlyTime with
    | true =>
        simp only [if_true, Except.pure_eq_ok] at hrest
        have hstored : ∃ stored, unmarshalProposal (lss.blockSignBytes.getD []) = .ok stored ∧
            timestamp = stored.timestamp := by
          simp only [checkProposalsOnlyDifferByTimestamp, Except.bind_eq_ok, panicking_eq_ok,
            Except.pure_eq_ok, Prod.mk.injEq] at hcheck
          obtain ⟨stored, hs, -, -, ht, -⟩ := hcheck
          exact ⟨stored, hs, ht.symm⟩
        exact ⟨.inr (checkProposalsOnlyDifferByTimestamp_eq_ok unmarshalProposal hcheck),
          timestamp, hrest.symm, .inr hstored⟩
    | false => simp at hrest

theorem signProposalFresh_eq_ok {pv pv' : FilePV PrivKey}
    {quorumHash blockSignId blockSignBytes : Bytes} {proposal proposal' : Proposal}
    (h : signProposalFresh signDigest pv quorumHash blockSignId blockSignBytes proposal =
      .ok (pv', proposal')) :
    ∃ blockSig, signWith signDigest pv quorumHash blockSignId = .ok blockSig ∧
      pv' = { pv with lastSignState := (FilePVLastSignState.saveSigned proposal.height
        proposal.round stepPropose blockSignBytes blockSig none none) } ∧
      proposal' = { proposal with signature := some blockSig } := by
  simp only [signProposalFresh, Except.bind_eq_ok, Except.pure_eq_ok, Prod.mk.injEq] at h
  obtain ⟨blockSig, hsig, hpv, hprop⟩ := h
  exact ⟨blockSig, hsig, hpv.symm, hprop.symm⟩

/-- What a successful `signProposal` did: either it handed back the stored
signature at the last HRS, or it signed at a new HRS and recorded it. -/
theorem signProposal_eq_ok {pv pv' : FilePV PrivKey} {chainID : Bytes} {quorumType : Nat}
    {quorumHash : Bytes} {proposal proposal' : Proposal} {signId : Bytes}
    (h : signProposal c signDigest unmarshalProposal pv chainID quorumType quorumHash proposal =
      .ok (pv', proposal', signId)) :
    ∃ blockSignBytes, proposalBlockSignBytes chainID proposal = .ok blockSignBytes ∧
      proposalBlockSignId c chainID proposal quorumType quorumHash = .ok signId ∧
      ((pv.lastSignState.checkHRS proposal.height proposal.round stepPropose = .ok true ∧
          pv' = pv ∧
          reuseProposalSignature unmarshalProposal pv.lastSignState blockSignBytes proposal =
            .ok proposal') ∨
        (pv.lastSignState.checkHRS proposal.height proposal.round stepPropose = .ok false ∧
          ∃ blockSig, signWith signDigest pv quorumHash signId = .ok blockSig ∧
            pv' = { pv with lastSignState := (FilePVLastSignState.saveSigned proposal.height
              proposal.round stepPropose blockSignBytes blockSig none none) } ∧
            proposal' = { proposal with signature := some blockSig })) := by
  simp only [signProposal, Except.bind_eq_ok] at h
  obtain ⟨sameHRS, hsame, blockSignId, hbid, blockSignBytes, hbsb, hbranch⟩ := h
  rw [panicking_eq_ok] at hbid hbsb
  refine ⟨blockSignBytes, hbsb, ?_⟩
  by_cases hs : sameHRS = true
  · simp only [hs, if_true, Except.bind_eq_ok, Except.pure_eq_ok, Prod.mk.injEq] at hbranch
    obtain ⟨signed, hsigned, hpv, hprop, hid⟩ := hbranch
    exact ⟨hid ▸ hbid, .inl ⟨hs ▸ hsame, hpv.symm, hprop ▸ hsigned⟩⟩
  · simp only [hs, Bool.false_eq_true, if_false, Except.bind_eq_ok, Except.pure_eq_ok,
      Prod.mk.injEq] at hbranch
    obtain ⟨⟨pv₁, signed⟩, hfresh, hpv, hprop, hid⟩ := hbranch
    obtain ⟨blockSig, hsig, hpv₁, hsigned⟩ := signProposalFresh_eq_ok signDigest hfresh
    refine ⟨hid ▸ hbid, .inr ⟨by simpa [hs] using hsame, blockSig, hid ▸ hsig, ?_, ?_⟩⟩
    · rw [← hpv, hpv₁]
    · rw [← hprop, hsigned]

/-! ## Retrying after a crash

Consensus may crash after the signer saved its state and before the signed
message reached the WAL; on restart it asks again at the same HRS.  A vote
gets back the signatures of the first call.  A proposal gets back the stored
sign bytes in its signature field (`proposal.Signature = lss.BlockSignBytes`). -/

theorem reuseVoteSignatures_of_eq_ok {lss : FilePVLastSignState}
    {blockSignBytes stateSignBytes : Bytes} {vote vote₁ : Vote} (vote' : Vote)
    (h : reuseVoteSignatures lss blockSignBytes stateSignBytes vote = .ok vote₁) :
    reuseVoteSignatures lss blockSignBytes stateSignBytes vote' =
      .ok { vote' with blockSignature := vote₁.blockSignature,
                       stateSignature := vote₁.stateSignature } := by
  obtain ⟨-, -, rfl⟩ := reuseVoteSignatures_eq_ok h
  unfold reuseVoteSignatures at h ⊢
  split at h
  · rw [if_pos ‹_›]
  · cases h

/-- A vote retried at the HRS of a successful call, with the same block and state sign
bytes, gets the signatures that call produced, and leaves the signer as it is. -/
theorem signVote_retry {pv pv₁ : FilePV PrivKey} {chainID : Bytes} {quorumType : Nat}
    {quorumHash : Bytes} {vote vote₁ vote' : Vote}
    (h₁ : signVote c signDigest pv chainID quorumType quorumHash vote = .ok (pv₁, vote₁))
    (hheight : vote'.height = vote.height) (hround : vote'.round = vote.round)
    (htype : vote'.type = vote.type) (hnil : checkStateIDOfNilVote vote' = .ok ())
    (hblock : voteBlockSignBytes chainID vote' = voteBlockSignBytes chainID vote)
    (hstate : voteStateSignBytes vote' = voteStateSignBytes vote) :
    signVote c signDigest pv₁ chainID quorumType quorumHash vote' =
      .ok (pv₁, { vote' with blockSignature := vote₁.blockSignature,
                             stateSignature := vote₁.stateSignature }) := by
  obtain ⟨step, blockSignBytes, stateSignBytes, hstep, hb, hs, hcase⟩ :=
    signVote_eq_ok c signDigest h₁
  have hreuse : pv₁.lastSignState.checkHRS vote.height vote.round step = .ok true ∧
      reuseVoteSignatures pv₁.lastSignState blockSignBytes stateSignBytes vote = .ok vote₁ := by
    rcases hcase with ⟨hsame, rfl, hr⟩ | ⟨-, -, sigBlock, sigState, -, -, rfl, rfl⟩
    · exact ⟨hsame, hr⟩
    · refine ⟨FilePVLastSignState.checkHRS_saveSigned .., ?_⟩
      simp [reuseVoteSignatures, FilePVLastSignState.saveSigned]
  have hstep' : voteToStep vote'.type = .ok step := htype ▸ hstep
  have hcheck : pv₁.lastSignState.checkHRS vote'.height vote'.round step = .ok true :=
    hheight ▸ hround ▸ hreuse.1
  have hb' : voteBlockSignBytes chainID vote' = .ok blockSignBytes := hblock.trans hb
  have hs' : voteStateSignBytes vote' = .ok stateSignBytes := hstate.trans hs
  have hbid : voteBlockSignId c chainID vote' quorumType quorumHash =
      .ok (signIdOf c quorumType quorumHash (voteBlockRequestId c vote') blockSignBytes) := by
    rw [voteBlockSignId, hb']
    rfl
  have hsid : voteStateSignId c vote' quorumType quorumHash =
      .ok (signIdOf c quorumType quorumHash (voteStateRequestId c vote') stateSignBytes) := by
    rw [voteStateSignId, hs']
    rfl
  simp only [signVote, hstep', panicking_ok, hnil, hcheck, hbid, hsid, hb', hs', Except.ok_bind,
    if_true, reuseVoteSignatures_of_eq_ok vote' hreuse.2]
  rfl

/-- A signer that signs every digest as `[7]` signs a nil prevote at height 1; the vote
retried with a stale block signature `[9]` gets the signatures of the first call. -/
theorem signVote_retry_at_height_one :
    let c : Crypto := ⟨fun _ => [], fun _ _ _ _ => []⟩
    let pv : FilePV Unit := ⟨fun _ => some (), ⟨0, 0, stepNone, none, none, none, none⟩⟩
    let vote : Vote := ⟨.prevote, 1, 0, ⟨none, ⟨0, []⟩⟩, ⟨none⟩, [], 0, none, none⟩
    ∃ pv₁ vote₁, signVote c (fun _ _ ↦ .ok [7]) pv [] 0 [] vote = .ok (pv₁, vote₁) ∧
      vote₁.blockSignature = some [7] ∧
      signVote c (fun _ _ ↦ .ok [7]) pv₁ [] 0 [] { vote with blockSignature := some [9] } =
        .ok (pv₁, { vote with blockSignature := some [7], stateSignature := vote₁.stateSignature }) := by
  intro c pv vote
  obtain ⟨⟨pv₁, vote₁⟩, h₁, hsig⟩ := Except.exists_eq_ok_of_toOption_map
    (show (signVote c (fun _ _ ↦ .ok [7]) pv [] 0 [] vote).toOption.map (·.2.blockSignature) =
      some (some [7]) by decide)
  have hretry : signVote c (fun _ _ ↦ .ok [7]) pv₁ [] 0 [] { vote with blockSignature := some [9] } =
      _ := signVote_retry c (fun _ _ ↦ .ok [7]) h₁ rfl rfl rfl rfl rfl rfl
  rw [hsig] at hretry
  exact ⟨pv₁, vote₁, h₁, hsig, hretry⟩

/-- A proposal signed afresh and then retried at its HRS gets the stored sign
bytes as its signature, where the first call gave it the signature that was
stored. -/
theorem signProposal_retry_signs_with_signBytes {pv pv₁ : FilePV PrivKey} {chainID : Bytes}
    {quorumType : Nat} {quorumHash : Bytes} {proposal proposal₁ : Proposal} {signId : Bytes}
    (hnew : pv.lastSignState.hrs < mkHRS proposal.height proposal.round stepPropose)
    (h₁ : signProposal c signDigest unmarshalProposal pv chainID quorumType quorumHash proposal =
      .ok (pv₁, proposal₁, signId)) :
    ∃ blockSignBytes blockSig, proposalBlockSignBytes chainID proposal = .ok blockSignBytes ∧
      proposal₁.signature = some blockSig ∧ pv₁.lastSignState.blockSignature = some blockSig ∧
      signProposal c signDigest unmarshalProposal pv₁ chainID quorumType quorumHash proposal =
        .ok (pv₁, { proposal with signature := some blockSignBytes }, signId) := by
  obtain ⟨blockSignBytes, hbsb, hid, hcase⟩ := signProposal_eq_ok c signDigest unmarshalProposal h₁
  rcases hcase with ⟨hsame, -, -⟩ | ⟨-, blockSig, -, rfl, rfl⟩
  · exact absurd (FilePVLastSignState.hrs_eq_of_checkHRS_eq_ok_true hsame) hnew.ne
  · refine ⟨blockSignBytes, blockSig, hbsb, rfl, rfl, ?_⟩
    simp only [signProposal, FilePVLastSignState.checkHRS_saveSigned, hid, hbsb, panicking_ok,
      Except.ok_bind, if_true]
    simp [reuseProposalSignature, FilePVLastSignState.saveSigned]

/-- A signer that signs every digest as `[7]` signs a fresh proposal at height 1
with `[7]`, and on the retry returns the proposal's 27 sign bytes as its signature. -/
theorem signProposal_retry_at_height_one :
    (⟨0, 0, stepNone, none, none, none, none⟩ : FilePVLastSignState).hrs < mkHRS 1 0 stepPropose ∧
    signProposal ⟨fun _ => [], fun _ _ _ _ => []⟩ (fun (_ : Unit) _ => .ok [7]) readCanonicalProposal
        ⟨fun _ => some (), ⟨0, 0, stepNone, none, none, none, none⟩⟩ [] 0 []
        ⟨.proposal, 1, 0, 0, -1, ⟨none, ⟨0, []⟩⟩, ⟨1, 0⟩, none⟩ =
      .ok (⟨fun _ => some (), FilePVLastSignState.saveSigned 1 0 stepPropose
            [26, 8, 32, 17, 1, 0, 0, 0, 0, 0, 0, 0, 32, 255, 255, 255, 255, 255, 255, 255, 255, 255, 1,
              50, 2, 8, 1] [7] none none⟩,
          ⟨.proposal, 1, 0, 0, -1, ⟨none, ⟨0, []⟩⟩, ⟨1, 0⟩, some [7]⟩, []) ∧
    ∃ blockSignBytes blockSig : Bytes,
      proposalBlockSignBytes [] ⟨.proposal, 1, 0, 0, -1, ⟨none, ⟨0, []⟩⟩, ⟨1, 0⟩, none⟩ =
        .ok blockSignBytes ∧
      some [7] = some blockSig ∧ some [7] = some blockSig ∧
      signProposal ⟨fun _ => [], fun _ _ _ _ => []⟩ (fun (_ : Unit) _ => .ok [7]) readCanonicalProposal
          ⟨fun _ => some (), FilePVLastSignState.saveSigned 1 0 stepPropose
            [26, 8, 32, 17, 1, 0, 0, 0, 0, 0, 0, 0, 32, 255, 255, 255, 255, 255, 255, 255, 255, 255, 1,
              50, 2, 8, 1] [7] none none⟩ [] 0 [] ⟨.proposal, 1, 0, 0, -1, ⟨none, ⟨0, []⟩⟩, ⟨1, 0⟩, none⟩ =
        .ok (⟨fun _ => some (), FilePVLastSignState.saveSigned 1 0 stepPropose
            [26, 8, 32, 17, 1, 0, 0, 0, 0, 0, 0, 0, 32, 255, 255, 255, 255, 255, 255, 255, 255, 255, 1,
              50, 2, 8, 1] [7] none none⟩,
          ⟨.proposal, 1, 0, 0, -1, ⟨none, ⟨0, []⟩⟩, ⟨1, 0⟩, some blockSignBytes⟩, []) := by
  have hnew : (⟨0, 0, stepNone, none, none, none, none⟩ : FilePVLastSignState).hrs <
      mkHRS 1 0 stepPropose := by
    rw [FilePVLastSignState.hrs, mkHRS_lt_mkHRS]
    decide
  have h₁ : signProposal ⟨fun _ => [], fun _ _ _ _ => []⟩ (fun (_ : Unit) _ => .ok [7])
      readCanonicalProposal ⟨fun _ => some (), ⟨0, 0, stepNone, none, none, none, none⟩⟩ [] 0 []
        ⟨.proposal, 1, 0, 0, -1, ⟨none, ⟨0, []⟩⟩, ⟨1, 0⟩, none⟩ =
      .ok (⟨fun _ => some (), FilePVLastSignState.saveSigned 1 0 stepPropose
            [26, 8, 32, 17, 1, 0, 0, 0, 0, 0, 0, 0, 32, 255, 255, 255, 255, 255, 255, 255, 255, 255, 1,
              50, 2, 8, 1] [7] none none⟩,
          ⟨.proposal, 1, 0, 0, -1, ⟨none, ⟨0, []⟩⟩, ⟨1, 0⟩, some [7]⟩, []) := rfl
  exact ⟨hnew, h₁, signProposal_retry_signs_with_signBytes ⟨fun _ => [], fun _ _ _ _ => []⟩
    (fun (_ : Unit) _ => .ok [7]) readCanonicalProposal hnew h₁⟩

/-! ## What the stored sign bytes pin down -/

theorem onlyTimestampDiffers_symm {a b : Bytes}
    (h : OnlyTimestampDiffers unmarshalProposal a b) : OnlyTimestampDiffers unmarshalProposal b a := by
  obtain ⟨pa, pb, ha, hb, hsame⟩ := h
  refine ⟨pb, pa, hb, ha, ?_⟩
  simp only [CanonicalProposal.sameButTimestamp, beq_iff_eq] at hsame ⊢
  exact hsame.symm

theorem onlyTimestampDiffers_trans {a b d : Bytes} (hab : OnlyTimestampDiffers unmarshalProposal a b)
    (hbd : OnlyTimestampDiffers unmarshalProposal b d) : OnlyTimestampDiffers unmarshalProposal a d := by
  obtain ⟨pa, pb, ha, hb, hsame⟩ := hab
  obtain ⟨pb', pd, hb', hd, hsame'⟩ := hbd
  have hpb : pb = pb' := Except.ok.inj (hb.symm.trans hb')
  subst hpb
  refine ⟨pa, pd, ha, hd, ?_⟩
  simp only [CanonicalProposal.sameButTimestamp, beq_iff_eq] at hsame hsame' ⊢
  exact hsame.trans hsame'

/-- The request's sign bytes are the ones a last sign state holds (for a
proposal, possibly up to the timestamp): what a re-signing request must show. -/
def MatchesSignState (lss : FilePVLastSignState) : Request → Prop
  | .vote chainID _ _ v => ∃ blockSignBytes stateSignBytes,
      voteBlockSignBytes chainID v = .ok blockSignBytes ∧ voteStateSignBytes v = .ok stateSignBytes ∧
      lss.blockSignBytes.getD [] = blockSignBytes ∧ lss.stateSignBytes.getD [] = stateSignBytes
  | .proposal chainID _ _ p => ∃ blockSignBytes, proposalBlockSignBytes chainID p = .ok blockSignBytes ∧
      (lss.blockSignBytes.getD [] = blockSignBytes ∨
        OnlyTimestampDiffers unmarshalProposal (lss.blockSignBytes.getD []) blockSignBytes)

/-- Two requests were given the same sign bytes: both the block and the state
sign bytes for votes, the block sign bytes up to the timestamp for proposals. -/
def SignBytesAgree : Request → Request → Prop
  | .vote chainID₁ _ _ v₁, .vote chainID₂ _ _ v₂ =>
      voteBlockSignBytes chainID₁ v₁ = voteBlockSignBytes chainID₂ v₂ ∧
        voteStateSignBytes v₁ = voteStateSignBytes v₂
  | .proposal chainID₁ _ _ p₁, .proposal chainID₂ _ _ p₂ =>
      proposalBlockSignBytes chainID₁ p₁ = proposalBlockSignBytes chainID₂ p₂ ∨
        ∃ b₁ b₂, proposalBlockSignBytes chainID₁ p₁ = .ok b₁ ∧
          proposalBlockSignBytes chainID₂ p₂ = .ok b₂ ∧ OnlyTimestampDiffers unmarshalProposal b₁ b₂
  | _, _ => False

/-- What a request at the last HRS is served with: a vote gets the stored block
and state signatures; a proposal gets the stored block sign bytes in its
signature field (sic), and its own timestamp or the stored proposal's. -/
def ServedFromStore (lss : FilePVLastSignState) : Request → Response → Prop
  | .vote _ _ _ v, .vote v' =>
      v' = { v with blockSignature := lss.blockSignature, stateSignature := lss.stateSignature }
  | .proposal _ _ _ p, .proposal p' _ => ∃ timestamp,
      p' = { p with timestamp := timestamp, signature := lss.blockSignBytes } ∧
      (timestamp = p.timestamp ∨ ∃ stored,
        unmarshalProposal (lss.blockSignBytes.getD []) = .ok stored ∧ timestamp = stored.timestamp)
  | _, _ => False

/-- A vote is never signed at the proposal step. -/
theorem Request.step_vote_ne_propose (chainID : Bytes) (quorumType : Nat) (quorumHash : Bytes)
    (v : Vote) : (Request.vote chainID quorumType quorumHash v).step ≠ stepPropose := by
  simp only [Request.step]
  cases h : voteToStep v.type with
  | error => simp [stepNone, stepPropose]
  | ok s => rcases voteToStep_eq_ok h with rfl | rfl <;> simp [stepPrevote, stepPrecommit, stepPropose]

/-- Two requests at one HRS that both match one sign state were given the same
sign bytes. -/
theorem signBytesAgree_of_matches {lss : FilePVLastSignState} {r₁ r₂ : Request}
    (h₁ : MatchesSignState unmarshalProposal lss r₁) (h₂ : MatchesSignState unmarshalProposal lss r₂)
    (hrs : r₁.hrs = r₂.hrs) : SignBytesAgree unmarshalProposal r₁ r₂ := by
  have hstep : r₁.step = r₂.step := (mkHRS_inj.mp hrs).2.2
  cases r₁ with
  | vote chainID₁ _ _ v₁ =>
      cases r₂ with
      | vote chainID₂ _ _ v₂ =>
          obtain ⟨b₁, s₁, hb₁, hs₁, rfl, rfl⟩ := h₁
          obtain ⟨b₂, s₂, hb₂, hs₂, hb, hs⟩ := h₂
          exact ⟨hb₁.trans (hb ▸ hb₂.symm), hs₁.trans (hs ▸ hs₂.symm)⟩
      | proposal =>
          exact absurd hstep (Request.step_vote_ne_propose _ _ _ _)
  | proposal chainID₁ _ _ p₁ =>
      cases r₂ with
      | vote =>
          exact absurd hstep.symm (Request.step_vote_ne_propose _ _ _ _)
      | proposal chainID₂ _ _ p₂ =>
          obtain ⟨b₁, hb₁, e₁⟩ := h₁
          obtain ⟨b₂, hb₂, e₂⟩ := h₂
          rcases e₁ with e₁ | e₁ <;> rcases e₂ with e₂ | e₂
          · exact .inl (hb₁.trans (by rw [← e₁, e₂, hb₂]))
          · exact .inr ⟨b₁, b₂, hb₁, hb₂, e₁ ▸ e₂⟩
          · exact .inr ⟨b₁, b₂, hb₁, hb₂, e₂ ▸ onlyTimestampDiffers_symm unmarshalProposal e₁⟩
          · exact .inr ⟨b₁, b₂, hb₁, hb₂,
              onlyTimestampDiffers_trans unmarshalProposal
                (onlyTimestampDiffers_symm unmarshalProposal e₁) e₂⟩

/-! ## Runs -/

theorem Request.hrs_vote {chainID : Bytes} {quorumType : Nat} {quorumHash : Bytes} {v : Vote}
    {step : Int} (hstep : voteToStep v.type = .ok step) :
    (Request.vote chainID quorumType quorumHash v).hrs = mkHRS v.height v.round step := by
  simp [Request.hrs, Request.height, Request.round, Request.step, hstep, mkHRS]

theorem Request.hrs_proposal {chainID : Bytes} {quorumType : Nat} {quorumHash : Bytes}
    {p : Proposal} :
    (Request.proposal chainID quorumType quorumHash p).hrs = mkHRS p.height p.round stepPropose :=
  rfl

/-- What one successful request did to the signer: at the last HRS it changed
nothing, the request matched the stored sign bytes and was served from the
store; above it, the signer moved to the request's HRS and stored its sign bytes. -/
theorem perform_eq_ok {pv pv' : FilePV PrivKey} {r : Request} {resp : Response}
    (h : perform c signDigest unmarshalProposal pv r = .ok (pv', resp)) :
    (isFresh pv.lastSignState r = false ∧ r.hrs = pv.lastSignState.hrs ∧ pv' = pv ∧
        MatchesSignState unmarshalProposal pv.lastSignState r ∧
        ServedFromStore unmarshalProposal pv.lastSignState r resp) ∨
      (isFresh pv.lastSignState r = true ∧ pv.lastSignState.hrs < r.hrs ∧
        pv'.lastSignState.hrs = r.hrs ∧ MatchesSignState unmarshalProposal pv'.lastSignState r) := by
  cases r with
  | vote chainID quorumType quorumHash v =>
      simp only [perform, Except.map_eq_fmap, Except.map_eq_ok, Prod.mk.injEq] at h
      obtain ⟨⟨pv₁, v₁⟩, hsign, rfl, rfl⟩ := h
      obtain ⟨step, bsb, ssb, hstep, hbsb, hssb, hbranch⟩ := signVote_eq_ok c signDigest hsign
      have hrs : (Request.vote chainID quorumType quorumHash v).hrs =
          mkHRS v.height v.round step := Request.hrs_vote hstep
      have hfresh : isFresh pv.lastSignState (.vote chainID quorumType quorumHash v) =
          match pv.lastSignState.checkHRS v.height v.round step with
          | .ok false => true
          | _ => false := by
        simp [isFresh, Request.height, Request.round, Request.step, hstep]
      rcases hbranch with ⟨hcheck, rfl, hreuse⟩ | ⟨hcheck, _, sigBlock, sigState, _, _, rfl, _⟩
      · obtain ⟨hb, hs, hv⟩ := reuseVoteSignatures_eq_ok hreuse
        refine .inl ⟨by rw [hfresh, hcheck], ?_, rfl, ⟨bsb, ssb, hbsb, hssb, hb, hs⟩, hv⟩
        rw [hrs, FilePVLastSignState.hrs_eq_of_checkHRS_eq_ok_true hcheck]
      · refine .inr ⟨by rw [hfresh, hcheck], ?_, by rw [hrs]; rfl, bsb, ssb, hbsb, hssb, rfl, rfl⟩
        rw [hrs]
        exact (FilePVLastSignState.checkHRS_eq_ok_false_iff _ _ _ _).mp hcheck
  | proposal chainID quorumType quorumHash p =>
      simp only [perform, Except.map_eq_fmap, Except.map_eq_ok, Prod.mk.injEq] at h
      obtain ⟨⟨pv₁, p₁, signId⟩, hsign, rfl, rfl⟩ := h
      obtain ⟨bsb, hbsb, -, hbranch⟩ := signProposal_eq_ok c signDigest unmarshalProposal hsign
      have hfresh : isFresh pv.lastSignState (.proposal chainID quorumType quorumHash p) =
          match pv.lastSignState.checkHRS p.height p.round stepPropose with
          | .ok false => true
          | _ => false := rfl
      rcases hbranch with ⟨hcheck, rfl, hreuse⟩ | ⟨hcheck, blockSig, -, rfl, -⟩
      · obtain ⟨hb, hserved⟩ := reuseProposalSignature_eq_ok unmarshalProposal hreuse
        refine .inl ⟨by rw [hfresh, hcheck], ?_, rfl, ⟨bsb, hbsb, hb⟩, hserved⟩
        rw [Request.hrs_proposal, FilePVLastSignState.hrs_eq_of_checkHRS_eq_ok_true hcheck]
      · refine .inr ⟨by rw [hfresh, hcheck], ?_, rfl, bsb, hbsb, .inl rfl⟩
        exact (FilePVLastSignState.checkHRS_eq_ok_false_iff _ _ _ _).mp hcheck

/-- After a successful request the signer sits at the request's HRS, which is
not below where it was, and holds sign bytes the request matches. -/
theorem perform_eq_ok_after {pv pv' : FilePV PrivKey} {r : Request} {resp : Response}
    (h : perform c signDigest unmarshalProposal pv r = .ok (pv', resp)) :
    pv.lastSignState.hrs ≤ r.hrs ∧ pv'.lastSignState.hrs = r.hrs ∧
      MatchesSignState unmarshalProposal pv'.lastSignState r := by
  rcases perform_eq_ok c signDigest unmarshalProposal h with ⟨-, hrs, rfl, hm, -⟩ | ⟨-, hlt, hrs, hm⟩
  · exact ⟨hrs.ge, hrs.symm, hm⟩
  · exact ⟨hlt.le, hrs, hm⟩

/-- The run lemma: every request a run from `pv` serves is at or above the HRS
`pv` last signed at; one signed afresh is above it; and one at that HRS matches
the sign bytes `pv` holds, since the sign state changes only by moving up. -/
theorem run_entry_spec (pv : FilePV PrivKey) (rs : List Request) :
    ∀ e ∈ (run c signDigest unmarshalProposal pv rs).2,
      pv.lastSignState.hrs ≤ e.request.hrs ∧
      (e.fresh = true → pv.lastSignState.hrs < e.request.hrs) ∧
      (e.request.hrs = pv.lastSignState.hrs →
        MatchesSignState unmarshalProposal pv.lastSignState e.request) := by
  induction rs generalizing pv with
  | nil => simp [run]
  | cons r rs ih =>
      unfold run
      split
      · rename_i pv₁ resp hperf
        intro e he
        rcases List.mem_cons.mp he with rfl | he
        · rcases perform_eq_ok c signDigest unmarshalProposal hperf with
            ⟨hf, hrs, -, hm, -⟩ | ⟨-, hlt, -, -⟩
          · exact ⟨hrs.ge, fun h => absurd h (by simp [hf]), fun _ => hm⟩
          · exact ⟨hlt.le, fun _ => hlt, fun heq => absurd heq hlt.ne'⟩
        · obtain ⟨hle, hfresh, hm⟩ := ih pv₁ e he
          rcases perform_eq_ok c signDigest unmarshalProposal hperf with
            ⟨-, -, rfl, -, -⟩ | ⟨-, hlt, hrs, -⟩
          · exact ⟨hle, hfresh, hm⟩
          · have hup : pv.lastSignState.hrs < pv₁.lastSignState.hrs := hrs ▸ hlt
            exact ⟨hup.le.trans hle, fun h => hup.trans (hfresh h),
              fun heq => absurd (heq ▸ hle) (not_le.mpr hup)⟩
      · exact ih pv

/-- Any two requests of a run, in order: the later one, if signed afresh, is at a
higher HRS; and if both are at one HRS they were given the same sign bytes. -/
theorem run_pairwise (pv : FilePV PrivKey) (rs : List Request) :
    (run c signDigest unmarshalProposal pv rs).2.Pairwise fun a b =>
      (b.fresh = true → a.request.hrs < b.request.hrs) ∧
      (a.request.hrs = b.request.hrs → SignBytesAgree unmarshalProposal a.request b.request) := by
  induction rs generalizing pv with
  | nil => simp [run]
  | cons r rs ih =>
      unfold run
      split
      · rename_i pv₁ resp hperf
        refine List.pairwise_cons.mpr ⟨fun b hb => ?_, ih pv₁⟩
        obtain ⟨-, hrs, hm⟩ := perform_eq_ok_after c signDigest unmarshalProposal hperf
        obtain ⟨-, hfresh, hmb⟩ := run_entry_spec c signDigest unmarshalProposal pv₁ rs b hb
        refine ⟨fun h => hrs ▸ hfresh h, fun heq => ?_⟩
        exact signBytesAgree_of_matches unmarshalProposal hm (hmb (hrs.trans heq).symm) heq
      · exact ih pv

/-- Double-sign protection over any run of requests from any signer: the HRSs
signed afresh strictly increase; two requests served at one HRS were given the
same sign bytes (a proposal's possibly up to its timestamp); a request at or
below the last HRS whose sign bytes are not the stored ones fails; and one that
succeeds at the last HRS leaves the signer as it is and is served from the
store. -/
theorem filePV_no_double_sign (pv : FilePV PrivKey) (rs : List Request) :
    (((run c signDigest unmarshalProposal pv rs).2.filter (·.fresh)).map
        (·.request.hrs)).Pairwise (· < ·) ∧
      (run c signDigest unmarshalProposal pv rs).2.Pairwise
        (fun a b => a.request.hrs = b.request.hrs →
          SignBytesAgree unmarshalProposal a.request b.request) ∧
      (∀ (pv' : FilePV PrivKey) (r : Request), r.hrs ≤ pv'.lastSignState.hrs →
        ¬ MatchesSignState unmarshalProposal pv'.lastSignState r →
        ∃ f, perform c signDigest unmarshalProposal pv' r = .error f) ∧
      ∀ (pv' pv'' : FilePV PrivKey) (r : Request) (resp : Response),
        perform c signDigest unmarshalProposal pv' r = .ok (pv'', resp) →
        isFresh pv'.lastSignState r = false →
        pv'' = pv' ∧ ServedFromStore unmarshalProposal pv'.lastSignState r resp := by
  have hrun := run_pairwise c signDigest unmarshalProposal pv rs
  refine ⟨?_, hrun.imp fun h => h.2, ?_, ?_⟩
  · rw [List.pairwise_map]
    refine (hrun.filter _).imp_of_mem fun {_ b} _ hb h => h.1 ?_
    simpa using (List.mem_filter.mp hb).2
  · intro pv' r hle hnm
    cases hperf : perform c signDigest unmarshalProposal pv' r with
    | error f => exact ⟨f, rfl⟩
    | ok res =>
        rcases perform_eq_ok c signDigest unmarshalProposal hperf with
          ⟨-, -, -, hm, -⟩ | ⟨-, hlt, -, -⟩
        · exact absurd hm hnm
        · exact absurd hle (not_le.mpr hlt)
  · intro pv' pv'' r resp hperf hnew
    rcases perform_eq_ok c signDigest unmarshalProposal hperf with
      ⟨-, -, hpv, -, hserved⟩ | ⟨hfresh, -, -, -⟩
    · exact ⟨hpv, hserved⟩
    · rw [hnew] at hfresh
      cases hfresh

/-! ## Requests above the last HRS -/

/-- A request is fresh exactly when its HRS is above the last one. -/
theorem isFresh_iff_lt {lss : FilePVLastSignState} {r : Request} :
    isFresh lss r = true ↔ lss.hrs < r.hrs := by
  rw [show r.hrs = mkHRS r.height r.round r.step from rfl,
    ← FilePVLastSignState.checkHRS_eq_ok_false_iff, isFresh]
  split <;> simp_all

theorem panicking_ne_error {α : Type} (x : Except String α) (e : SignError) :
    panicking x ≠ .error (.error e) := by
  cases x <;> simp [panicking]

theorem signWith_eq_error {pv : FilePV PrivKey} {quorumHash digest : Bytes} {e : SignError}
    (h : signWith signDigest pv quorumHash digest = .error (.error e)) : ¬ e.GuardsHRS := by
  unfold signWith at h
  split at h
  · cases h
    exact id
  · split at h
    · cases h
    · cases h
      exact id

/-- A request above the last HRS never fails in the double-sign guard: it fails,
if at all, for a missing key, a failed signature, a vote for nil with a state ID,
or with a panic. -/
theorem perform_error_of_isFresh {pv : FilePV PrivKey} {r : Request} {e : SignError}
    (hfresh : isFresh pv.lastSignState r = true)
    (h : perform c signDigest unmarshalProposal pv r = .error (.error e)) : ¬ e.GuardsHRS := by
  have hnew := isFresh_iff_lt.mp hfresh
  cases r with
  | vote chainID quorumType quorumHash v =>
      have hv : signVote c signDigest pv chainID quorumType quorumHash v = .error (.error e) := by
        cases hs : signVote c signDigest pv chainID quorumType quorumHash v <;>
          simp_all [perform, Except.map]
      unfold signVote at hv
      obtain hs | ⟨step, hstep, hv⟩ := Except.bind_eq_error.mp hv
      · exact absurd hs (panicking_ne_error _ _)
      rw [panicking_eq_ok] at hstep
      obtain hs | ⟨_, -, hv⟩ := Except.bind_eq_error.mp hv
      · unfold checkStateIDOfNilVote at hs
        split at hs
        · cases hs
          exact id
        · cases hs
      have hcheck : pv.lastSignState.checkHRS v.height v.round step = .ok false := by
        rw [FilePVLastSignState.checkHRS_eq_ok_false_iff, ← Request.hrs_vote hstep]
        exact hnew
      rw [hcheck] at hv
      obtain hs | ⟨same, hsame, hv⟩ := Except.bind_eq_error.mp hv
      · cases hs
      cases hsame
      obtain hs | ⟨_, -, hv⟩ := Except.bind_eq_error.mp hv
      · exact absurd hs (panicking_ne_error _ _)
      obtain hs | ⟨_, -, hv⟩ := Except.bind_eq_error.mp hv
      · exact absurd hs (panicking_ne_error _ _)
      obtain hs | ⟨_, -, hv⟩ := Except.bind_eq_error.mp hv
      · exact absurd hs (panicking_ne_error _ _)
      obtain hs | ⟨_, -, hv⟩ := Except.bind_eq_error.mp hv
      · exact absurd hs (panicking_ne_error _ _)
      simp only [Bool.false_eq_true, if_false, signVoteFresh] at hv
      obtain hs | ⟨_, -, hv⟩ := Except.bind_eq_error.mp hv
      · exact signWith_eq_error signDigest hs
      obtain hs | ⟨_, -, hv⟩ := Except.bind_eq_error.mp hv
      · unfold signStateOfVote at hs
        split at hs
        · exact signWith_eq_error signDigest (Except.map_eq_error.mp hs)
        · cases hs
      · cases hv
  | proposal chainID quorumType quorumHash p =>
      have hp : signProposal c signDigest unmarshalProposal pv chainID quorumType quorumHash p =
          .error (.error e) := by
        cases hs : signProposal c signDigest unmarshalProposal pv chainID quorumType quorumHash p <;>
          simp_all [perform, Except.map]
      have hcheck : pv.lastSignState.checkHRS p.height p.round stepPropose = .ok false := by
        rw [FilePVLastSignState.checkHRS_eq_ok_false_iff, ← Request.hrs_proposal]
        exact hnew
      unfold signProposal at hp
      rw [hcheck] at hp
      obtain hs | ⟨same, hsame, hp⟩ := Except.bind_eq_error.mp hp
      · cases hs
      cases hsame
      obtain hs | ⟨_, -, hp⟩ := Except.bind_eq_error.mp hp
      · exact absurd hs (panicking_ne_error _ _)
      obtain hs | ⟨_, -, hp⟩ := Except.bind_eq_error.mp hp
      · exact absurd hs (panicking_ne_error _ _)
      simp only [Bool.false_eq_true, if_false] at hp
      obtain hs | ⟨_, -, hp⟩ := Except.bind_eq_error.mp hp
      · unfold signProposalFresh at hs
        obtain hw | ⟨_, -, hw⟩ := Except.bind_eq_error.mp hs
        · exact signWith_eq_error signDigest hw
        · cases hw
      · cases hp

/-- A fresh prevote to a signer without a key fails for the key, not in the guard. -/
theorem perform_error_of_isFresh_without_key :
    let lss : FilePVLastSignState := ⟨0, 0, stepNone, none, none, none, none⟩
    let r : Request := .vote [] 0 [] ⟨.prevote, 1, 0, ⟨none, ⟨0, []⟩⟩, ⟨none⟩, [], 0, none, none⟩
    isFresh lss r = true ∧
      perform ⟨fun _ => [], fun _ _ _ _ => []⟩ (fun (_ : Unit) _ => .ok [7]) readCanonicalProposal
        ⟨fun _ => none, lss⟩ r = .error (.error (.noPrivateKey [])) ∧
      ¬ (SignError.noPrivateKey []).GuardsHRS := by
  intro lss r
  have hfresh : isFresh lss r = true := by decide
  have h : perform ⟨fun _ => [], fun _ _ _ _ => []⟩ (fun (_ : Unit) _ => .ok [7])
      readCanonicalProposal ⟨fun _ => none, lss⟩ r = .error (.error (.noPrivateKey [])) := rfl
  exact ⟨hfresh, h, perform_error_of_isFresh _ _ _ hfresh h⟩

end Signing

/-- Two places where the signer departs from "identical sign bytes, or an
error": a start state holding block sign bytes without their signature makes a
prevote at its HRS panic; and a proposal re-sent with another timestamp is
served at the HRS of the first, with other sign bytes. -/
theorem filePV_no_double_sign_counterexample :
    perform ⟨id, fun _ a b d => a ++ b ++ d⟩ (fun (_ : Unit) d => .ok d) readCanonicalProposal
        ⟨fun _ => some (), ⟨1, 0, stepPrevote, none, some [1], none, none⟩⟩
        (.vote [] 0 [] ⟨.prevote, 1, 0, ⟨none, ⟨0, []⟩⟩, ⟨none⟩, [], 0, none, none⟩) =
      .error (.panic "pv: BlockID Signature is nil but BlockSignBytes is not!") ∧
    ((run ⟨id, fun _ a b d => a ++ b ++ d⟩ (fun (_ : Unit) d => .ok d) readCanonicalProposal
        ⟨fun _ => some (), ⟨0, 0, stepNone, none, none, none, none⟩⟩
        [.proposal [] 0 [] ⟨.proposal, 1, 0, 0, -1, ⟨none, ⟨0, []⟩⟩, ⟨1, 0⟩, none⟩,
          .proposal [] 0 [] ⟨.proposal, 1, 0, 0, -1, ⟨none, ⟨0, []⟩⟩, ⟨2, 0⟩, none⟩]).2.map
        (·.fresh)) = [true, false] ∧
    proposalBlockSignBytes [] ⟨.proposal, 1, 0, 0, -1, ⟨none, ⟨0, []⟩⟩, ⟨1, 0⟩, none⟩ ≠
      proposalBlockSignBytes [] ⟨.proposal, 1, 0, 0, -1, ⟨none, ⟨0, []⟩⟩, ⟨2, 0⟩, none⟩ :=
  ⟨rfl, by decide +kernel, by decide +kernel⟩

end Tenderdash.Privval
