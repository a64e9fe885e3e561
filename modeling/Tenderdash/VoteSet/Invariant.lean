import Tenderdash.VoteSet.Basic

/-!
# The representation invariant of vote sets

The five parallel structures of a vote set agree with one another in every
vote set that `NewVoteSet` and any sequence of `AddVote` and `SetPeerMaj23`
calls build:

* `votesBitArray` marks exactly the validators with a vote in `votes`, and
  `sum` is their voting power;
* each block entry's bit array marks exactly its votes, its sum is their power,
  and each of its votes sits at its validator's index under its block's key;
* a validator with a vote in some block entry has a vote in `votes`, and if
  that vote is for the same block key it is the same vote;
* a majority block has an entry of at least the quorum's power.

Signature checking and threshold recovery are arbitrary here: the invariant
does not depend on what they accept.

The Go documentation also says that every vote of `votes` has its entry in
`votesByBlock`.  A conflicting vote for the majority block breaks that: it
replaces the validator's vote in `votes`, to give the majority priority, without
entering the block's entry (`recordVote` followed by a `trackedBlockVotes` that
refuses it).  `Held` states what does hold: every vote of `votes` is in its
block's entry, or is for the majority block.
-/

namespace Tenderdash.VoteSet

open Slots

/-! ## Runs -/

/-- A call on a vote set. -/
inductive Action where
  | addVote (vote : Vote)
  | setPeerMaj23 (peerID : P2PID) (blockID : BlockID)

section Run

variable (recover : List Bytes → List Bytes → Except String Bytes)
  (verify : Bytes → ℕ → Bytes → Bytes → Bytes → Vote → Except String Unit)

/-- One call.  A refused `SetPeerMaj23` leaves the set as it was; a panic ends
the run. -/
def apply (vs : VoteSet) : Action → Except String VoteSet
  | .addVote vote => (vs.addVote recover verify vote).map (·.1)
  | .setPeerMaj23 peerID blockID =>
      match vs.setPeerMaj23 peerID blockID with
      | .ok vs' => .ok vs'
      | .error _ => .ok vs

/-- A sequence of calls; the first panic ends it. -/
def run (vs : VoteSet) : List Action → Except String VoteSet
  | [] => .ok vs
  | a :: as => do
      let vs' ← apply recover verify vs a
      run vs' as

/-- The vote sets that `NewVoteSet` and a sequence of calls build. -/
inductive Reachable : VoteSet → Prop
  | init {chainID : Bytes} {height round : ℤ} {type : SignedMsgType} {valSet : ValidatorSet}
      {vs : VoteSet} : newVoteSet chainID height round type valSet = .ok vs → Reachable vs
  | step {vs vs' : VoteSet} {a : Action} :
      Reachable vs → apply recover verify vs a = .ok vs' → Reachable vs'

end Run

/-! ## The invariant -/

/-- What one block entry keeps: its bit array marks its votes, its sum is their
power, and each vote sits at its validator's index under the entry's key. -/
structure BlockInv (vals : ValidatorSet) (key : Bytes) (bv : BlockVotes) : Prop where
  bits : ∀ i, bv.bitArray i = (bv.votes i).isSome
  sum_eq : bv.sum = ∑ i ∈ occupied vals.size bv.votes, vals.powerAt i
  vote : ∀ i v, bv.votes i = some v → v.blockID.key = key ∧ v.validatorIndex = i ∧ i < vals.size

/-- The representation invariant of a vote set. -/
structure Inv (vs : VoteSet) : Prop where
  bits : ∀ i, vs.votesBitArray i = (vs.votes i).isSome
  vote : ∀ i v, vs.votes i = some v → v.validatorIndex = i ∧ i < vs.valSet.size
  sum_eq : vs.sum = ∑ i ∈ occupied vs.valSet.size vs.votes, vs.valSet.powerAt i
  block : ∀ k bv, vs.votesByBlock k = some bv → BlockInv vs.valSet k bv
  block_voted : ∀ k bv i, vs.votesByBlock k = some bv → (bv.votes i).isSome → (vs.votes i).isSome
  unique : ∀ k bv i v w, vs.votesByBlock k = some bv → bv.votes i = some v → vs.votes i = some w →
    w.blockID.key = k → w = v
  maj23_quorum : ∀ b, vs.maj23 = some b →
    ∃ bv, vs.votesByBlock b.key = some bv ∧ vs.quorum ≤ bv.sum
  maj23_state : vs.maj23.isSome = vs.stateMaj23.isSome

namespace BlockInv

variable {vals : ValidatorSet} {key : Bytes} {bv : BlockVotes}

theorem new (vals : ValidatorSet) (key : Bytes) (peerMaj23 : Bool) :
    BlockInv vals key (BlockVotes.new peerMaj23) where
  bits _ := rfl
  sum_eq := by simp [BlockVotes.new]
  vote _ _ h := by cases h

theorem setPeerMaj23 (h : BlockInv vals key bv) : BlockInv vals key { bv with peerMaj23 := true } where
  bits := h.bits
  sum_eq := h.sum_eq
  vote := h.vote

/-- Adding a validator's first vote for the entry's block, at its index. -/
theorem addVerifiedVote (h : BlockInv vals key bv) {vote : Vote}
    (hnone : bv.votes vote.validatorIndex.toNat = none)
    (hidx : vote.validatorIndex = vote.validatorIndex.toNat)
    (hlt : vote.validatorIndex.toNat < vals.size) (hkey : vote.blockID.key = key) :
    BlockInv vals key (bv.addVerifiedVote vote (vals.powerAt vote.validatorIndex.toNat)) := by
  rw [BlockVotes.addVerifiedVote_of_none _ hnone]
  refine ⟨fun i ↦ ?_, ?_, fun i v hv ↦ ?_⟩
  · by_cases hi : i = vote.validatorIndex.toNat
    · subst hi; simp
    · simp [hi, h.bits i]
  · simp only
    rw [sum_occupied_update_of_none _ hlt hnone, h.sum_eq]
  · by_cases hi : i = vote.validatorIndex.toNat
    · subst hi
      simp only [Function.update_self, Option.some.injEq] at hv
      subst hv
      exact ⟨hkey, hidx, hlt⟩
    · simp only [ne_eq, hi, not_false_eq_true, Function.update_of_ne] at hv
      exact h.vote i v hv

end BlockInv

theorem inv_newVoteSet {chainID : Bytes} {height round : ℤ} {type : SignedMsgType}
    {valSet : ValidatorSet} {vs : VoteSet} (h : newVoteSet chainID height round type valSet = .ok vs) :
    Inv vs := by
  unfold newVoteSet at h
  split_ifs at h
  cases h
  refine ⟨fun _ ↦ rfl, fun _ _ hv ↦ ?_, ?_, fun _ _ hb ↦ ?_, fun _ _ _ hb ↦ ?_,
    fun _ _ _ _ _ hb ↦ ?_, fun _ hb ↦ ?_, rfl⟩ <;> simp_all

/-! ## What each stage of `addVerifiedVote` preserves -/

/-- A vote at a validator index of the set, as `validateVote` admits it. -/
structure Admitted (vals : ValidatorSet) (vote : Vote) : Prop where
  index_eq : vote.validatorIndex = vote.validatorIndex.toNat
  index_lt : vote.validatorIndex.toNat < vals.size

theorem admitted_of_validateVote {vs : VoteSet} {vote : Vote} {val : Validator}
    (h : vs.validateVote vote = .ok val) :
    Admitted vs.valSet vote ∧ val.votingPower = vs.valSet.powerAt vote.validatorIndex.toNat := by
  have hval := (validateVote_eq_ok h).1
  obtain ⟨hnonneg, hlt, -⟩ := ValidatorSet.getByIndex_eq_some hval
  exact ⟨⟨by omega, hlt⟩, (ValidatorSet.powerAt_of_getByIndex hval).symm⟩

section Preservation

variable {vs vs₁ vs' : VoteSet} {vote : Vote} {bv : BlockVotes}

/-- The first stage of `addVerifiedVote` changes only `votes`, its bit array and
`sum`. -/
theorem recordVote_frame {k : Bytes} {p : ℕ} {c : Option Vote}
    (h : vs.recordVote vote k p = .ok (vs₁, c)) :
    vs₁.valSet = vs.valSet ∧ vs₁.votesByBlock = vs.votesByBlock ∧ vs₁.maj23 = vs.maj23 ∧
      vs₁.stateMaj23 = vs.stateMaj23 := by
  rcases recordVote_eq_ok h with ⟨-, -, rfl⟩ | ⟨_, -, -, -, rfl⟩ | ⟨_, -, -, rfl⟩ <;>
    exact ⟨rfl, rfl, rfl, rfl⟩

/-- Writing an admitted vote into `votes` at its index, when its block's entry
holds no vote of the validator, keeps the invariant once `sum` is the power of
the validators with a vote. -/
theorem inv_writeVote (hinv : Inv vs) (hadm : Admitted vs.valSet vote)
    (hblock : BlockVotes.getByIndex (vs.votesByBlock vote.blockID.key) vote.validatorIndex.toNat =
      none)
    {s : ℕ} (hs : s = ∑ i ∈ occupied vs.valSet.size
      (Function.update vs.votes vote.validatorIndex.toNat (some vote)), vs.valSet.powerAt i) :
    Inv { vs with
      votes := Function.update vs.votes vote.validatorIndex.toNat (some vote)
      votesBitArray := Function.update vs.votesBitArray vote.validatorIndex.toNat true
      sum := s } := by
  set i := vote.validatorIndex.toNat with hi
  refine ⟨fun j ↦ ?_, fun j v hv ↦ ?_, hs, hinv.block, fun k bv j hbv hj ↦ ?_,
    fun k bv j v w hbv hv hw hkey ↦ ?_, hinv.maj23_quorum, hinv.maj23_state⟩
  · by_cases hj : j = i
    · subst hj; simp
    · simp [hj, hinv.bits j]
  · by_cases hj : j = i
    · subst hj
      simp only [Function.update_self, Option.some.injEq] at hv
      subst hv
      exact ⟨hadm.index_eq, hadm.index_lt⟩
    · simp only [ne_eq, hj, not_false_eq_true, Function.update_of_ne] at hv
      exact hinv.vote j v hv
  · by_cases hji : j = i
    · subst hji; simp
    · simpa [hji] using hinv.block_voted k bv j hbv hj
  · by_cases hj : j = i
    · subst hj
      simp only [Function.update_self, Option.some.injEq] at hw
      subst hw
      have hbv' : vs.votesByBlock k = some bv := hbv
      rw [hkey, hbv'] at hblock
      simp [BlockVotes.getByIndex, hv] at hblock
    · simp only [ne_eq, hj, not_false_eq_true, Function.update_of_ne] at hw
      exact hinv.unique k bv j v w hbv hv hw hkey

/-- The first stage of `addVerifiedVote` keeps the invariant, and leaves the
validator with a vote in `votes` that, if for the vote's block, is the vote. -/
theorem inv_recordVote (hinv : Inv vs) (hadm : Admitted vs.valSet vote)
    (hget : vs.getVote vote.validatorIndex.toNat vote.blockID.key = none) {c : Option Vote}
    (h : vs.recordVote vote vote.blockID.key (vs.valSet.powerAt vote.validatorIndex.toNat) =
      .ok (vs₁, c)) :
    Inv vs₁ ∧ (vs₁.votes vote.validatorIndex.toNat).isSome ∧
      ∀ w, vs₁.votes vote.validatorIndex.toNat = some w → w.blockID.key = vote.blockID.key →
        w = vote := by
  obtain ⟨hother, hblock⟩ := getVote_eq_none hget
  rcases recordVote_eq_ok h with ⟨hnone, -, rfl⟩ | ⟨e, he, -, -, rfl⟩ | ⟨e, he, -, rfl⟩
  · refine ⟨inv_writeVote hinv hadm hblock ?_, by simp, fun w hw _ ↦ by simpa using hw.symm⟩
    rw [sum_occupied_update_of_none _ hadm.index_lt hnone, hinv.sum_eq]
  · refine ⟨inv_writeVote hinv hadm hblock ?_, by simp, fun w hw _ ↦ by simpa using hw.symm⟩
    rw [occupied_update_of_isSome (by simp [he]), hinv.sum_eq]
  · refine ⟨hinv, by simp [he], fun w hw hkey ↦ ?_⟩
    rw [he] at hw
    cases hw
    exact absurd hkey (hother e he)

/-- The second stage: adding the vote to its block's entry keeps the invariant. -/
theorem inv_addToBlock (hinv : Inv vs) (hadm : Admitted vs.valSet vote)
    (hvoted : (vs.votes vote.validatorIndex.toNat).isSome)
    (hsame : ∀ w, vs.votes vote.validatorIndex.toNat = some w → w.blockID.key = vote.blockID.key →
      w = vote)
    (hbv : vs.votesByBlock vote.blockID.key = some bv ∨
      (vs.votesByBlock vote.blockID.key = none ∧ bv = BlockVotes.new false))
    (hnone : bv.votes vote.validatorIndex.toNat = none) {p : ℕ}
    (hp : p = vs.valSet.powerAt vote.validatorIndex.toNat) :
    Inv { vs with
      votesByBlock := Function.update vs.votesByBlock vote.blockID.key
        (some (bv.addVerifiedVote vote p)) } := by
  subst hp
  have hadd := BlockVotes.addVerifiedVote_of_none (vs.valSet.powerAt vote.validatorIndex.toNat) hnone
  set i := vote.validatorIndex.toNat with hi
  set key := vote.blockID.key with hkey
  have hold : BlockInv vs.valSet key bv ∧
      ∀ j, (bv.votes j).isSome → vs.votesByBlock key = some bv := by
    rcases hbv with hbv | ⟨-, rfl⟩
    · exact ⟨hinv.block key bv hbv, fun _ _ ↦ hbv⟩
    · exact ⟨BlockInv.new _ _ _, fun j hj ↦ by simp at hj⟩
  refine ⟨hinv.bits, hinv.vote, hinv.sum_eq, fun k bv' hbv' ↦ ?_, fun k bv' j hbv' hj ↦ ?_,
    fun k bv' j v w hbv' hv hw hwk ↦ ?_, fun b hb ↦ ?_, hinv.maj23_state⟩
  · by_cases hk : k = key
    · subst hk
      simp only [Function.update_self, Option.some.injEq] at hbv'
      subst hbv'
      exact hold.1.addVerifiedVote hnone hadm.index_eq hadm.index_lt rfl
    · simp only [ne_eq, hk, not_false_eq_true, Function.update_of_ne] at hbv'
      exact hinv.block k bv' hbv'
  · by_cases hk : k = key
    · subst hk
      simp only [Function.update_self, Option.some.injEq] at hbv'
      subst hbv'
      by_cases hj' : j = i
      · subst hj'; exact hvoted
      · rw [hadd] at hj
        simp only [ne_eq, hj', not_false_eq_true, Function.update_of_ne] at hj
        exact hinv.block_voted key bv j (hold.2 j hj) hj
    · simp only [ne_eq, hk, not_false_eq_true, Function.update_of_ne] at hbv'
      exact hinv.block_voted k bv' j hbv' hj
  · by_cases hk : k = key
    · subst hk
      simp only [Function.update_self, Option.some.injEq] at hbv'
      subst hbv'
      rw [hadd] at hv
      by_cases hj' : j = i
      · subst hj'
        simp only [Function.update_self, Option.some.injEq] at hv
        subst hv
        exact hsame w hw hwk
      · simp only [ne_eq, hj', not_false_eq_true, Function.update_of_ne] at hv
        exact hinv.unique key bv j v w (hold.2 j (by simp [hv])) hv hw hwk
    · simp only [ne_eq, hk, not_false_eq_true, Function.update_of_ne] at hbv'
      exact hinv.unique k bv' j v w hbv' hv hw hwk
  · obtain ⟨bv₀, hbv₀, hq⟩ := hinv.maj23_quorum b hb
    by_cases hk : b.key = key
    · rw [hk] at hbv₀
      have hbv₀' : bv₀ = bv := by
        rcases hbv with hbv | ⟨hnil, -⟩
        · exact Option.some.inj (hbv₀.symm.trans hbv)
        · simp [hnil] at hbv₀
      subst hbv₀'
      refine ⟨bv₀.addVerifiedVote vote (vs.valSet.powerAt i), by simp [hk], ?_⟩
      rw [hadd]
      exact hq.trans (Nat.le_add_right _ _)
    · exact ⟨bv₀, by simp [hk, hbv₀], hq⟩

/-- The third stage: making the block the majority and copying its votes into
`votes` keeps the invariant, since the copied votes are of validators that have
a vote already. -/
theorem inv_reachQuorum {recover : List Bytes → List Bytes → Except String Bytes} (hinv : Inv vs)
    (hbv : vs.votesByBlock vote.blockID.key = some bv) (hq : vs.quorum ≤ bv.sum)
    (h : reachQuorum recover vs vote bv = .ok vs') : Inv vs' := by
  obtain ⟨blockSig, stateSig, rfl⟩ := reachQuorum_eq_ok h
  have hblk := hinv.block _ bv hbv
  have hcopy : ∀ i, ((bv.votes i).or (vs.votes i)).isSome = (vs.votes i).isSome := by
    intro i
    cases hi : bv.votes i with
    | none => simp
    | some v => simp [hinv.block_voted _ bv i hbv (by simp [hi])]
  have hoccupied : occupied vs.valSet.size (fun i ↦ (bv.votes i).or (vs.votes i)) =
      occupied vs.valSet.size vs.votes := by
    ext i
    simp [hcopy]
  refine ⟨fun i ↦ ?_, fun i v hv ↦ ?_, ?_, hinv.block, fun k bv' i hbv' hi ↦ ?_,
    fun k bv' i v w hbv' hv hw hkey ↦ ?_, fun b hb ↦ ?_, rfl⟩
  · simp only
    rw [hcopy]
    exact hinv.bits i
  · simp only at hv
    cases hi : bv.votes i with
    | none =>
        simp only [hi, Option.none_or] at hv
        exact hinv.vote i v hv
    | some u =>
        simp only [hi, Option.some_or, Option.some.injEq] at hv
        subst hv
        exact (hblk.vote i u hi).2
  · simp only
    rw [hoccupied]
    exact hinv.sum_eq
  · simp only
    rw [hcopy]
    exact hinv.block_voted k bv' i hbv' hi
  · simp only at hw
    cases hi : bv.votes i with
    | none =>
        simp only [hi, Option.none_or] at hw
        exact hinv.unique k bv' i v w hbv' hv hw hkey
    | some u =>
        simp only [hi, Option.some_or, Option.some.injEq] at hw
        subst hw
        have hk : k = vote.blockID.key := hkey.symm.trans (hblk.vote i u hi).1
        subst hk
        rw [hbv, Option.some.injEq] at hbv'
        subst hbv'
        exact Option.some.inj (hi.symm.trans hv)
  · simp only [Option.some.injEq] at hb
    subst hb
    exact ⟨bv, hbv, hq⟩

/-- The first two stages: the entry `trackedBlockVotes` returns holds no vote of
the validator, and adding the vote to it keeps the invariant. -/
theorem inv_tracked (hinv : Inv vs) (hadm : Admitted vs.valSet vote)
    (hget : vs.getVote vote.validatorIndex.toNat vote.blockID.key = none) {c : Option Vote}
    (hrec : vs.recordVote vote vote.blockID.key (vs.valSet.powerAt vote.validatorIndex.toNat) =
      .ok (vs₁, c))
    (hbv : vs₁.trackedBlockVotes vote.blockID.key c = some bv) :
    bv.votes vote.validatorIndex.toNat = none ∧
      Inv { vs₁ with
        votesByBlock := Function.update vs₁.votesByBlock vote.blockID.key
          (some (bv.addVerifiedVote vote (vs.valSet.powerAt vote.validatorIndex.toNat))) } := by
  obtain ⟨hinv₁, hvoted, hsame⟩ := inv_recordVote hinv hadm hget hrec
  obtain ⟨hval, hblocks, -, -⟩ := recordVote_frame hrec
  have htracked := trackedBlockVotes_eq_some hbv
  have hnone : bv.votes vote.validatorIndex.toNat = none := by
    have hblock := (getVote_eq_none hget).2
    rcases htracked with hbv₁ | ⟨-, -, rfl⟩
    · rw [← hblocks, hbv₁] at hblock
      exact hblock
    · rfl
  exact ⟨hnone, inv_addToBlock hinv₁ (hval ▸ hadm) hvoted hsame
    (htracked.imp_right fun h ↦ ⟨h.1, h.2.2⟩) hnone (by rw [hval])⟩

section Calls

variable {recover : List Bytes → List Bytes → Except String Bytes}
  {verify : Bytes → ℕ → Bytes → Bytes → Bytes → Vote → Except String Unit}

theorem inv_addVerifiedVote (hinv : Inv vs) (hadm : Admitted vs.valSet vote)
    (hget : vs.getVote vote.validatorIndex.toNat vote.blockID.key = none) {added : Bool}
    {c : Option Vote}
    (h : vs.addVerifiedVote recover vote vote.blockID.key
      (vs.valSet.powerAt vote.validatorIndex.toNat) = .ok (vs', added, c)) :
    Inv vs' := by
  obtain ⟨vs₁, hrec, hrest⟩ := addVerifiedVote_eq_ok h
  rcases hrest with ⟨-, rfl, -⟩ | ⟨bv, hbv, -, hreach⟩
  · exact (inv_recordVote hinv hadm hget hrec).1
  · have hinv₂ := (inv_tracked hinv hadm hget hrec hbv).2
    rcases hreach with ⟨-, hq, -, hrq⟩ | ⟨-, rfl⟩
    · exact inv_reachQuorum hinv₂ (by simp) hq hrq
    · exact hinv₂

theorem inv_addVote (hinv : Inv vs) {added : Bool} {err : Option VoteError}
    (h : vs.addVote recover verify vote = .ok (vs', added, err)) : Inv vs' := by
  rcases addVote_eq_ok h with rfl | ⟨val, c, hval, hget, hadd⟩
  · exact hinv
  · obtain ⟨hadm, hp⟩ := admitted_of_validateVote hval
    rw [hp] at hadd
    exact inv_addVerifiedVote hinv hadm hget hadd

end Calls

theorem inv_setPeerMaj23 (hinv : Inv vs) {peerID : P2PID} {blockID : BlockID}
    (h : vs.setPeerMaj23 peerID blockID = .ok vs') : Inv vs' := by
  obtain ⟨hval, hvotes, hbits, hsum, hmaj, hstate, hk⟩ := setPeerMaj23_eq_ok h
  refine ⟨fun i ↦ ?_, fun i v hv ↦ ?_, ?_, fun k bv' hbv' ↦ ?_, fun k bv' i hbv' hi ↦ ?_,
    fun k bv' i v w hbv' hv hw hkey ↦ ?_, fun b hb ↦ ?_, ?_⟩
  · rw [hbits, hvotes]; exact hinv.bits i
  · rw [hvotes] at hv; rw [hval]; exact hinv.vote i v hv
  · rw [hsum, hvotes, hval]; exact hinv.sum_eq
  · rw [hval]
    rcases hk k with hsame | ⟨-, hnew⟩ | ⟨bv, hold, hflag⟩
    · exact hinv.block k bv' (hsame ▸ hbv')
    · rw [hnew, Option.some.injEq] at hbv'
      subst hbv'
      exact BlockInv.new _ _ _
    · rw [hflag, Option.some.injEq] at hbv'
      subst hbv'
      exact (hinv.block k bv hold).setPeerMaj23
  · rw [hvotes]
    rcases hk k with hsame | ⟨-, hnew⟩ | ⟨bv, hold, hflag⟩
    · exact hinv.block_voted k bv' i (hsame ▸ hbv') hi
    · rw [hnew, Option.some.injEq] at hbv'
      subst hbv'
      simp at hi
    · rw [hflag, Option.some.injEq] at hbv'
      subst hbv'
      exact hinv.block_voted k bv i hold hi
  · rw [hvotes] at hw
    rcases hk k with hsame | ⟨-, hnew⟩ | ⟨bv, hold, hflag⟩
    · exact hinv.unique k bv' i v w (hsame ▸ hbv') hv hw hkey
    · rw [hnew, Option.some.injEq] at hbv'
      subst hbv'
      simp at hv
    · rw [hflag, Option.some.injEq] at hbv'
      subst hbv'
      exact hinv.unique k bv i v w hold hv hw hkey
  · rw [hmaj] at hb
    obtain ⟨bv, hbv, hq⟩ := hinv.maj23_quorum b hb
    have hquorum : vs'.quorum = vs.quorum := by rw [quorum, quorum, hval]
    rcases hk b.key with hsame | ⟨hnil, -⟩ | ⟨bv₀, hold, hflag⟩
    · exact ⟨bv, hsame.trans hbv, hquorum ▸ hq⟩
    · simp [hnil] at hbv
    · rw [hbv, Option.some.injEq] at hold
      subst hold
      exact ⟨_, hflag, hquorum ▸ hq⟩
  · rw [hmaj, hstate]; exact hinv.maj23_state

end Preservation

/-! ## Every reachable vote set keeps the invariant -/

section Reach

variable {recover : List Bytes → List Bytes → Except String Bytes}
  {verify : Bytes → ℕ → Bytes → Bytes → Bytes → Vote → Except String Unit}

/-- What a call did: an `AddVote`, a `SetPeerMaj23` that succeeded, or nothing. -/
theorem apply_eq_ok {vs vs' : VoteSet} {a : Action} (h : apply recover verify vs a = .ok vs') :
    (∃ vote added err, a = .addVote vote ∧ vs.addVote recover verify vote = .ok (vs', added, err)) ∨
      (∃ peerID blockID, a = .setPeerMaj23 peerID blockID ∧
        vs.setPeerMaj23 peerID blockID = .ok vs') ∨
      vs' = vs := by
  cases a with
  | addVote vote =>
      simp only [apply, Except.map_eq_fmap, Except.map_eq_ok] at h
      obtain ⟨⟨vs₁, added, err⟩, hadd, rfl⟩ := h
      exact .inl ⟨vote, added, err, rfl, hadd⟩
  | setPeerMaj23 peerID blockID =>
      simp only [apply] at h
      split at h
      · rename_i hset
        cases h
        exact .inr (.inl ⟨peerID, blockID, rfl, hset⟩)
      · cases h
        exact .inr (.inr rfl)

theorem inv_apply {vs vs' : VoteSet} {a : Action} (hinv : Inv vs)
    (h : apply recover verify vs a = .ok vs') : Inv vs' := by
  rcases apply_eq_ok h with ⟨_, _, _, -, hadd⟩ | ⟨_, _, -, hset⟩ | rfl
  · exact inv_addVote hinv hadd
  · exact inv_setPeerMaj23 hinv hset
  · exact hinv

/-- The run lemma: every vote set `NewVoteSet` and a sequence of calls build
keeps the invariant. -/
theorem Reachable.inv {vs : VoteSet} (h : Reachable recover verify vs) : Inv vs := by
  induction h with
  | init hnew => exact inv_newVoteSet hnew
  | step _ hstep ih => exact inv_apply ih hstep

/-- What a run builds from a reachable vote set is reachable. -/
theorem Reachable.run {vs vs' : VoteSet} {as : List Action} (h : Reachable recover verify vs)
    (hrun : run recover verify vs as = .ok vs') : Reachable recover verify vs' := by
  induction as generalizing vs with
  | nil =>
      cases hrun
      exact h
  | cons a as ih =>
      simp only [VoteSet.run, Except.bind_eq_ok] at hrun
      obtain ⟨vs₁, hstep, hrest⟩ := hrun
      exact ih (h.step hstep) hrest

end Reach

/-! ## Where the votes of `votes` are held -/

/-- Every vote of `votes` is held in its block's entry at its validator's
index, or is for the majority block. -/
def Held (vs : VoteSet) : Prop :=
  ∀ i v, vs.votes i = some v →
    (∃ bv, vs.votesByBlock v.blockID.key = some bv ∧ bv.votes i = some v) ∨
      ∃ b, vs.maj23 = some b ∧ b.key = v.blockID.key

section Held

variable {vs vs₁ vs' : VoteSet} {vote : Vote} {bv : BlockVotes}

theorem held_newVoteSet {chainID : Bytes} {height round : ℤ} {type : SignedMsgType}
    {valSet : ValidatorSet} (h : newVoteSet chainID height round type valSet = .ok vs) :
    Held vs := by
  unfold newVoteSet at h
  split_ifs at h
  cases h
  intro i v hv
  cases hv

/-- A step that keeps `votes`, the majority and every vote of every entry keeps
`Held`. -/
theorem Held.of_entries (hheld : Held vs) (hvotes : vs'.votes = vs.votes)
    (hmaj : vs'.maj23 = vs.maj23)
    (hentries : ∀ k bv i v, vs.votesByBlock k = some bv → bv.votes i = some v →
      ∃ bv', vs'.votesByBlock k = some bv' ∧ bv'.votes i = some v) :
    Held vs' := by
  intro i v hv
  rw [hvotes] at hv
  rcases hheld i v hv with ⟨bv, hbv, hi⟩ | hmaj23
  · exact .inl (hentries _ bv i v hbv hi)
  · exact .inr (hmaj ▸ hmaj23)

/-- After the first stage of `addVerifiedVote` the votes of `votes` are held as
before, but for a validator's first vote, which its entry is yet to take. -/
theorem held_recordVote (hheld : Held vs) {p : ℕ} {c : Option Vote}
    (h : vs.recordVote vote vote.blockID.key p = .ok (vs₁, c)) :
    ∀ i v, vs₁.votes i = some v →
      (∃ bv, vs₁.votesByBlock v.blockID.key = some bv ∧ bv.votes i = some v) ∨
        (∃ b, vs₁.maj23 = some b ∧ b.key = v.blockID.key) ∨
        (i = vote.validatorIndex.toNat ∧ v = vote ∧ c = none) := by
  intro i v hv
  rcases recordVote_eq_ok h with ⟨-, rfl, rfl⟩ | ⟨e, -, rfl, hmaj, rfl⟩ | ⟨e, -, rfl, rfl⟩
  · by_cases hi : i = vote.validatorIndex.toNat
    · subst hi
      simp only [Function.update_self, Option.some.injEq] at hv
      exact .inr (.inr ⟨rfl, hv.symm, rfl⟩)
    · simp only [ne_eq, hi, not_false_eq_true, Function.update_of_ne] at hv
      exact (hheld i v hv).imp_right .inl
  · by_cases hi : i = vote.validatorIndex.toNat
    · subst hi
      simp only [Function.update_self, Option.some.injEq] at hv
      subst hv
      exact .inr (.inl (isMaj23Key_iff.mp hmaj))
    · simp only [ne_eq, hi, not_false_eq_true, Function.update_of_ne] at hv
      exact (hheld i v hv).imp_right .inl
  · exact (hheld i v hv).imp_right .inl

/-- The second stage: the vote's block entry takes the vote, so every vote of
`votes` is held again. -/
theorem held_addToBlock {c : Option Vote}
    (hheld₁ : ∀ i v, vs₁.votes i = some v →
      (∃ bv, vs₁.votesByBlock v.blockID.key = some bv ∧ bv.votes i = some v) ∨
        (∃ b, vs₁.maj23 = some b ∧ b.key = v.blockID.key) ∨
        (i = vote.validatorIndex.toNat ∧ v = vote ∧ c = none))
    (hbv : vs₁.trackedBlockVotes vote.blockID.key c = some bv)
    (hnone : bv.votes vote.validatorIndex.toNat = none) (p : ℕ) :
    Held { vs₁ with
      votesByBlock := Function.update vs₁.votesByBlock vote.blockID.key
        (some (bv.addVerifiedVote vote p)) } := by
  rw [BlockVotes.addVerifiedVote_of_none p hnone]
  intro i v hv
  rcases hheld₁ i v hv with ⟨bv', hbv', hi⟩ | hmaj | ⟨rfl, rfl, -⟩
  · refine .inl ?_
    by_cases hk : v.blockID.key = vote.blockID.key
    · rw [hk] at hbv' ⊢
      obtain rfl : bv' = bv := by
        rcases trackedBlockVotes_eq_some hbv with h | ⟨h, -, -⟩
        · exact Option.some.inj (hbv'.symm.trans h)
        · simp [h] at hbv'
      have hne : i ≠ vote.validatorIndex.toNat := by
        rintro rfl
        simp [hnone] at hi
      exact ⟨_, Function.update_self .., by simp [hne, hi]⟩
    · exact ⟨bv', by simp [hk, hbv'], hi⟩
  · exact .inr hmaj
  · exact .inl ⟨_, Function.update_self .., by simp⟩

/-- The third stage: the votes copied into `votes` are their entry's own. -/
theorem held_reachQuorum {recover : List Bytes → List Bytes → Except String Bytes}
    (hinv : Inv vs) (hheld : Held vs) (hmaj : vs.maj23 = none)
    (hbv : vs.votesByBlock vote.blockID.key = some bv)
    (h : reachQuorum recover vs vote bv = .ok vs') : Held vs' := by
  obtain ⟨blockSig, stateSig, rfl⟩ := reachQuorum_eq_ok h
  intro i v hv
  cases hi : bv.votes i with
  | none =>
      simp only [hi, Option.none_or] at hv
      rcases hheld i v hv with hheld | ⟨b, hb, -⟩
      · exact .inl hheld
      · simp [hmaj] at hb
  | some u =>
      simp only [hi, Option.some_or, Option.some.injEq] at hv
      subst hv
      have hk : u.blockID.key = vote.blockID.key := ((hinv.block _ bv hbv).vote i u hi).1
      exact .inl ⟨bv, by rw [hk]; exact hbv, hi⟩

theorem held_setPeerMaj23 (hheld : Held vs) {peerID : P2PID} {blockID : BlockID}
    (h : vs.setPeerMaj23 peerID blockID = .ok vs') : Held vs' := by
  obtain ⟨-, hvotes, -, -, hmaj, -, hk⟩ := setPeerMaj23_eq_ok h
  refine hheld.of_entries hvotes hmaj fun k bv i v hbv hi ↦ ?_
  rcases hk k with hsame | ⟨hnil, -⟩ | ⟨bv₀, hold, hflag⟩
  · exact ⟨bv, hsame.trans hbv, hi⟩
  · simp [hnil] at hbv
  · rw [hbv, Option.some.injEq] at hold
    subst hold
    exact ⟨_, hflag, hi⟩

variable {recover : List Bytes → List Bytes → Except String Bytes}
  {verify : Bytes → ℕ → Bytes → Bytes → Bytes → Vote → Except String Unit}

theorem held_addVerifiedVote (hinv : Inv vs) (hheld : Held vs) (hadm : Admitted vs.valSet vote)
    (hget : vs.getVote vote.validatorIndex.toNat vote.blockID.key = none) {added : Bool}
    {c : Option Vote}
    (h : vs.addVerifiedVote recover vote vote.blockID.key
      (vs.valSet.powerAt vote.validatorIndex.toNat) = .ok (vs', added, c)) :
    Held vs' := by
  obtain ⟨vs₁, hrec, hrest⟩ := addVerifiedVote_eq_ok h
  have hheld₁ := held_recordVote hheld hrec
  rcases hrest with ⟨hnone, rfl, -⟩ | ⟨bv, hbv, -, hreach⟩
  · have hc := trackedBlockVotes_eq_none hnone
    intro i v hv
    rcases hheld₁ i v hv with h | h | ⟨-, -, rfl⟩
    · exact .inl h
    · exact .inr h
    · simp at hc
  · obtain ⟨hnone, hinv₂⟩ := inv_tracked hinv hadm hget hrec hbv
    have hheld₂ := held_addToBlock hheld₁ hbv hnone (vs.valSet.powerAt vote.validatorIndex.toNat)
    rcases hreach with ⟨-, -, hmaj, hrq⟩ | ⟨-, rfl⟩
    · exact held_reachQuorum hinv₂ hheld₂ hmaj (by simp) hrq
    · exact hheld₂

theorem held_apply {a : Action} (hinv : Inv vs) (hheld : Held vs)
    (h : apply recover verify vs a = .ok vs') : Held vs' := by
  rcases apply_eq_ok h with ⟨_, _, _, -, hadd⟩ | ⟨_, _, -, hset⟩ | rfl
  · rcases addVote_eq_ok hadd with rfl | ⟨val, c, hval, hget, hver⟩
    · exact hheld
    · obtain ⟨hadm, hp⟩ := admitted_of_validateVote hval
      rw [hp] at hver
      exact held_addVerifiedVote hinv hheld hadm hget hver
  · exact held_setPeerMaj23 hheld hset
  · exact hheld

/-- Every vote set `NewVoteSet` and a sequence of calls build keeps the
representation invariant, and holds each vote of `votes` in its block's entry
unless the vote is for the majority block. -/
theorem voteSet_representation_invariant (h : Reachable recover verify vs) :
    Inv vs ∧ Held vs := by
  induction h with
  | init hnew => exact ⟨inv_newVoteSet hnew, held_newVoteSet hnew⟩
  | step _ hstep ih => exact ⟨inv_apply ih.1 hstep, held_apply ih.1 ih.2 hstep⟩

end Held

/-- The run below, whose last vote is held in `votes` only: the vote set it
builds keeps the invariant and `Held`. -/
theorem voteSet_representation_invariant_majority :
    let vals : ValidatorSet :=
      ⟨[⟨List.replicate 32 1, [1], 1⟩, ⟨List.replicate 32 2, [2], 1⟩,
        ⟨List.replicate 32 3, [3], 1⟩, ⟨List.replicate 32 4, [4], 1⟩], [], 100, [7], true⟩
    let blockA : BlockID := ⟨some (List.replicate 32 1), ⟨1, List.replicate 32 1⟩⟩
    let blockB : BlockID := ⟨some (List.replicate 32 2), ⟨1, List.replicate 32 2⟩⟩
    let prevote (i : ℕ) (b : BlockID) : Vote :=
      ⟨.prevote, 1, 0, b, ⟨none⟩, List.replicate 32 (i + 1).toUInt8, i, some [1], some [2]⟩
    ∃ vs, ((newVoteSet [] 1 0 .prevote vals).bind fun vs ↦
        run (fun _ _ ↦ .ok []) (fun _ _ _ _ _ _ ↦ .ok ()) vs
          [.addVote (prevote 0 blockA), .addVote (prevote 1 blockB), .addVote (prevote 2 blockB),
            .addVote (prevote 3 blockB), .addVote (prevote 0 blockB)]) = .ok vs ∧
      Inv vs ∧ Held vs := by
  intro vals blockA blockB prevote
  obtain ⟨vs, hvs⟩ : ∃ vs, ((newVoteSet [] 1 0 .prevote vals).bind fun vs ↦
      run (fun _ _ ↦ .ok []) (fun _ _ _ _ _ _ ↦ .ok ()) vs
        [.addVote (prevote 0 blockA), .addVote (prevote 1 blockB), .addVote (prevote 2 blockB),
          .addVote (prevote 3 blockB), .addVote (prevote 0 blockB)]) = .ok vs :=
    Except.exists_eq_ok_of_toBool (by decide)
  obtain ⟨vs₀, h₀, hrun⟩ := Except.bind_eq_ok.mp hvs
  exact ⟨vs, hvs, voteSet_representation_invariant (Reachable.run (.init h₀) hrun)⟩

/-- Four validators of power one: validator 0 prevotes for block A, validators
1 to 3 for block B, which becomes the majority, and then validator 0 prevotes
for B as well.  Its vote for B replaces its vote for A in `votes`, but B's
entry never receives it: the canonical vote of validator 0 is held in no block
entry. -/
theorem voteSet_votes_outside_votesByBlock :
    let vals : ValidatorSet :=
      ⟨[⟨List.replicate 32 1, [1], 1⟩, ⟨List.replicate 32 2, [2], 1⟩,
        ⟨List.replicate 32 3, [3], 1⟩, ⟨List.replicate 32 4, [4], 1⟩], [], 100, [7], true⟩
    let blockA : BlockID := ⟨some (List.replicate 32 1), ⟨1, List.replicate 32 1⟩⟩
    let blockB : BlockID := ⟨some (List.replicate 32 2), ⟨1, List.replicate 32 2⟩⟩
    let prevote (i : ℕ) (b : BlockID) : Vote :=
      ⟨.prevote, 1, 0, b, ⟨none⟩, List.replicate 32 (i + 1).toUInt8, i, some [1], some [2]⟩
    ((newVoteSet [] 1 0 .prevote vals).bind fun vs ↦
        run (fun _ _ ↦ .ok []) (fun _ _ _ _ _ _ ↦ .ok ()) vs
          [.addVote (prevote 0 blockA), .addVote (prevote 1 blockB), .addVote (prevote 2 blockB),
            .addVote (prevote 3 blockB), .addVote (prevote 0 blockB)]).map
        (fun vs ↦ (vs.maj23, vs.votes 0, BlockVotes.getByIndex (vs.votesByBlock blockB.key) 0)) =
      .ok (some blockB, some (prevote 0 blockB), none) := by
  decide

/-- The same run: the last `AddVote` answers that the vote was not added, and
has changed `votes[0]` from the vote for A to the vote for B. -/
theorem addVote_not_added_changes_votes :
    let vals : ValidatorSet :=
      ⟨[⟨List.replicate 32 1, [1], 1⟩, ⟨List.replicate 32 2, [2], 1⟩,
        ⟨List.replicate 32 3, [3], 1⟩, ⟨List.replicate 32 4, [4], 1⟩], [], 100, [7], true⟩
    let blockA : BlockID := ⟨some (List.replicate 32 1), ⟨1, List.replicate 32 1⟩⟩
    let blockB : BlockID := ⟨some (List.replicate 32 2), ⟨1, List.replicate 32 2⟩⟩
    let prevote (i : ℕ) (b : BlockID) : Vote :=
      ⟨.prevote, 1, 0, b, ⟨none⟩, List.replicate 32 (i + 1).toUInt8, i, some [1], some [2]⟩
    ((newVoteSet [] 1 0 .prevote vals).bind fun vs ↦
        run (fun _ _ ↦ .ok []) (fun _ _ _ _ _ _ ↦ .ok ()) vs
          [.addVote (prevote 0 blockA), .addVote (prevote 1 blockB), .addVote (prevote 2 blockB),
            .addVote (prevote 3 blockB)]).bind
        (fun vs ↦ (vs.addVote (fun _ _ ↦ .ok []) (fun _ _ _ _ _ _ ↦ .ok ()) (prevote 0 blockB)).map
          fun r ↦ (r.2.1, vs.votes 0, r.1.votes 0)) =
      .ok (false, some (prevote 0 blockA), some (prevote 0 blockB)) := by
  decide

end Tenderdash.VoteSet
