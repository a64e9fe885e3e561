import Tenderdash.VoteSet.Invariant

/-!
# Majorities of vote sets

What the representation invariant gives consensus: the first block to reach
the quorum stays the majority, with the state of the vote that took it across;
the majority block's entry holds at least the quorum; two block entries that
both reach the quorum share validators of more than a third of the power, so
that without that much equivocating power no two blocks reach it; and
`HasTwoThirdsAny` is the same threshold as the quorum `addVerifiedVote` counts
against.
-/

namespace Tenderdash.VoteSet

open Slots

/-! ## The thresholds -/

/-- `HasTwoThirdsAny` is more than two thirds of the total, without division. -/
theorem hasTwoThirdsAny_iff (vs : VoteSet) :
    vs.hasTwoThirdsAny = true ↔ vs.valSet.totalVotingPower * 2 < vs.sum * 3 := by
  rw [← Quorum.twoThirds_le_iff, Quorum.twoThirds_le_iff_div_lt]
  simp [hasTwoThirdsAny]

/-- `HasTwoThirdsAny` is reaching the quorum of `addVerifiedVote`. -/
theorem hasTwoThirdsAny_iff_quorum_le (vs : VoteSet) :
    vs.hasTwoThirdsAny = true ↔ vs.quorum ≤ vs.sum := by
  rw [quorum, Quorum.twoThirds_le_iff_div_lt]
  simp [hasTwoThirdsAny]

/-- Two entries of an invariant vote set that both reach the quorum share
validators of more than a third of the total power. -/
theorem Inv.third_lt_inter {vs : VoteSet} (hinv : Inv vs) {k₁ k₂ : Bytes} {bv₁ bv₂ : BlockVotes}
    (h₁ : vs.votesByBlock k₁ = some bv₁) (h₂ : vs.votesByBlock k₂ = some bv₂)
    (hq₁ : vs.quorum ≤ bv₁.sum) (hq₂ : vs.quorum ≤ bv₂.sum) :
    vs.valSet.totalVotingPower / 3 <
      ∑ i ∈ occupied vs.valSet.size bv₁.votes ∩ occupied vs.valSet.size bv₂.votes,
        vs.valSet.powerAt i := by
  rw [quorum, (hinv.block k₁ bv₁ h₁).sum_eq] at hq₁
  rw [quorum, (hinv.block k₂ bv₂ h₂).sum_eq] at hq₂
  rw [← vs.valSet.sum_powerAt] at hq₁ hq₂ ⊢
  exact Quorum.third_lt_inter_of_subset _ hq₁ hq₂ (occupied_subset_range _ _)
    (occupied_subset_range _ _)

/-! ## How a call moves the majority -/

section Calls

variable {recover : List Bytes → List Bytes → Except String Bytes}
  {verify : Bytes → ℕ → Bytes → Bytes → Bytes → Vote → Except String Unit}
  {vs vs' : VoteSet}

/-- `addVerifiedVote` leaves the majority as it was, or sets a missing one to
the vote's block and state, when the vote takes its block's entry from below the
quorum to it. -/
theorem addVerifiedVote_maj23 {vote : Vote} {k : Bytes} {p : ℕ} {added : Bool} {c : Option Vote}
    (h : vs.addVerifiedVote recover vote k p = .ok (vs', added, c)) :
    (vs'.maj23 = vs.maj23 ∧ vs'.stateMaj23 = vs.stateMaj23) ∨
      (vs.maj23 = none ∧ vs'.maj23 = some vote.blockID ∧ vs'.stateMaj23 = some vote.stateID ∧
        (∀ bv, vs.votesByBlock k = some bv → bv.sum < vs.quorum) ∧
        ∃ bv, vs'.votesByBlock k = some bv ∧ vs'.quorum ≤ bv.sum) := by
  obtain ⟨vs₁, hrec, hrest⟩ := addVerifiedVote_eq_ok h
  obtain ⟨hval, hblocks, hmaj, hstate⟩ := recordVote_frame hrec
  rcases hrest with ⟨-, rfl, -⟩ | ⟨bv, hbv, -, ⟨hlow, hq, hnone, hrq⟩ | ⟨-, rfl⟩⟩
  · exact .inl ⟨hmaj, hstate⟩
  · obtain ⟨blockSig, stateSig, rfl⟩ := reachQuorum_eq_ok hrq
    have hquorum : vs₁.quorum = vs.quorum := by rw [quorum, quorum, hval]
    refine .inr ⟨hmaj ▸ hnone, rfl, rfl, fun bv₀ hbv₀ ↦ ?_, _, by simp, hq⟩
    rcases trackedBlockVotes_eq_some hbv with hbv₁ | ⟨hnil, -, -⟩
    · rw [hblocks, hbv₀, Option.some.injEq] at hbv₁
      subst hbv₁
      exact hquorum ▸ hlow
    · rw [hblocks, hbv₀] at hnil
      cases hnil
  · exact .inl ⟨hmaj, hstate⟩

/-- One call leaves the majority as it was, or adds the vote that sets it. -/
theorem apply_maj23 {a : Action} (h : apply recover verify vs a = .ok vs') :
    (vs'.maj23 = vs.maj23 ∧ vs'.stateMaj23 = vs.stateMaj23) ∨
      ∃ vote, a = .addVote vote ∧ vs.maj23 = none ∧ vs'.maj23 = some vote.blockID ∧
        vs'.stateMaj23 = some vote.stateID ∧
        (∀ bv, vs.votesByBlock vote.blockID.key = some bv → bv.sum < vs.quorum) ∧
        ∃ bv, vs'.votesByBlock vote.blockID.key = some bv ∧ vs'.quorum ≤ bv.sum := by
  rcases apply_eq_ok h with ⟨vote, _, _, rfl, hadd⟩ | ⟨_, _, -, hset⟩ | rfl
  · rcases addVote_eq_ok hadd with rfl | ⟨val, c, -, -, hver⟩
    · exact .inl ⟨rfl, rfl⟩
    · exact (addVerifiedVote_maj23 hver).imp_right fun h ↦ ⟨vote, rfl, h⟩
  · obtain ⟨-, -, -, -, hmaj, hstate, -⟩ := setPeerMaj23_eq_ok hset
    exact .inl ⟨hmaj, hstate⟩
  · exact .inl ⟨rfl, rfl⟩

end Calls

/-! ## Quorum agreement -/

section Agreement

variable (recover : List Bytes → List Bytes → Except String Bytes)
  (verify : Bytes → ℕ → Bytes → Bytes → Bytes → Vote → Except String Unit)

/-- What consensus relies on in a vote set. -/
structure QuorumAgreement (vs : VoteSet) : Prop where
  /-- A majority, once set, stays, and so does its state. -/
  maj23_stable : ∀ a vs' b, apply recover verify vs a = .ok vs' → vs.maj23 = some b →
    vs'.maj23 = some b ∧ vs'.stateMaj23 = vs.stateMaj23
  /-- The call that sets the majority adds a vote that takes its block's entry
  from below the quorum to it; the majority is that vote's block and state. -/
  maj23_set : ∀ a vs' b, apply recover verify vs a = .ok vs' → vs.maj23 = none →
    vs'.maj23 = some b →
    ∃ vote, a = .addVote vote ∧ b = vote.blockID ∧ vs'.stateMaj23 = some vote.stateID ∧
      (∀ bv, vs.votesByBlock b.key = some bv → bv.sum < vs.quorum) ∧
      ∃ bv, vs'.votesByBlock b.key = some bv ∧ vs'.quorum ≤ bv.sum
  /-- The majority block's entry holds at least the quorum. -/
  maj23_quorum : ∀ b, vs.maj23 = some b →
    ∃ bv, vs.votesByBlock b.key = some bv ∧ vs.quorum ≤ bv.sum
  /-- Two block entries that reach the quorum share validators of more than a
  third of the power. -/
  quorum_inter : ∀ k₁ k₂ bv₁ bv₂, vs.votesByBlock k₁ = some bv₁ → vs.votesByBlock k₂ = some bv₂ →
    k₁ ≠ k₂ → vs.quorum ≤ bv₁.sum → vs.quorum ≤ bv₂.sum →
    vs.valSet.totalVotingPower / 3 <
      ∑ i ∈ occupied vs.valSet.size bv₁.votes ∩ occupied vs.valSet.size bv₂.votes,
        vs.valSet.powerAt i
  /-- `HasTwoThirdsAny` is `sum * 3 > total * 2`, which is reaching the quorum. -/
  twoThirdsAny : (vs.hasTwoThirdsAny = true ↔ vs.valSet.totalVotingPower * 2 < vs.sum * 3) ∧
    (vs.hasTwoThirdsAny = true ↔ vs.quorum ≤ vs.sum)

/-- Every vote set `NewVoteSet` and a sequence of `AddVote` and `SetPeerMaj23`
calls build keeps its majority and agrees on quorums. -/
theorem voteSet_quorumAgreement {vs : VoteSet} (h : Reachable recover verify vs) :
    QuorumAgreement recover verify vs where
  maj23_stable a vs' b hstep hb := by
    rcases apply_maj23 hstep with ⟨hmaj, hstate⟩ | ⟨_, -, hnone, -⟩
    · exact ⟨hmaj ▸ hb, hstate⟩
    · rw [hnone] at hb
      cases hb
  maj23_set a vs' b hstep hnone hb := by
    rcases apply_maj23 hstep with ⟨hmaj, -⟩ | ⟨vote, ha, -, hmaj, hstate, hlow, hhigh⟩
    · rw [hmaj, hnone] at hb
      cases hb
    · rw [hmaj, Option.some.injEq] at hb
      subst hb
      exact ⟨vote, ha, rfl, hstate, hlow, hhigh⟩
  maj23_quorum := h.inv.maj23_quorum
  quorum_inter _ _ _ _ h₁ h₂ _ hq₁ hq₂ := h.inv.third_lt_inter h₁ h₂ hq₁ hq₂
  twoThirdsAny := ⟨hasTwoThirdsAny_iff vs, hasTwoThirdsAny_iff_quorum_le vs⟩

end Agreement

/-- Three of four validators of power one prevote for a block, which becomes
the majority of a reachable vote set. -/
theorem voteSet_quorumAgreement_three_of_four :
    ∃ vs, Reachable (fun _ _ ↦ .ok []) (fun _ _ _ _ _ _ ↦ .ok ()) vs ∧
      vs.maj23 = some ⟨some (List.replicate 32 2), ⟨1, List.replicate 32 2⟩⟩ ∧
      QuorumAgreement (fun _ _ ↦ .ok []) (fun _ _ _ _ _ _ ↦ .ok ()) vs := by
  let vals : ValidatorSet :=
    ⟨[⟨List.replicate 32 1, [1], 1⟩, ⟨List.replicate 32 2, [2], 1⟩,
      ⟨List.replicate 32 3, [3], 1⟩, ⟨List.replicate 32 4, [4], 1⟩], [], 100, [7], true⟩
  let prevote (i : ℕ) : Vote :=
    ⟨.prevote, 1, 0, ⟨some (List.replicate 32 2), ⟨1, List.replicate 32 2⟩⟩, ⟨none⟩,
      List.replicate 32 (i + 1).toUInt8, i, some [1], some [2]⟩
  let votes : List Action := [.addVote (prevote 0), .addVote (prevote 1), .addVote (prevote 2)]
  obtain ⟨vs₀, hnew⟩ : ∃ vs₀, newVoteSet [] 1 0 .prevote vals = .ok vs₀ := ⟨_, rfl⟩
  have hrun : (run (fun _ _ ↦ .ok []) (fun _ _ _ _ _ _ ↦ .ok ()) vs₀ votes).map (·.maj23) =
      .ok (some ⟨some (List.replicate 32 2), ⟨1, List.replicate 32 2⟩⟩) := by
    cases hnew
    decide
  cases hvs : run (fun _ _ ↦ .ok []) (fun _ _ _ _ _ _ ↦ .ok ()) vs₀ votes with
  | error e =>
      rw [hvs] at hrun
      cases hrun
  | ok vs =>
      rw [hvs] at hrun
      have hreach := (Reachable.init hnew).run hvs
      exact ⟨vs, hreach, Except.ok.inj hrun, voteSet_quorumAgreement _ _ hreach⟩

end Tenderdash.VoteSet
