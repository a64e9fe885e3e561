import Tenderdash.Consensus.Types
import Mathlib.Order.Interval.Finset.Basic
import Mathlib.Algebra.Order.BigOperators.Group.Finset
import Mathlib.Data.Int.Interval

/-!
# The rounds a height tracks

`HeightVoteSet` keeps the vote sets of the rounds up to `round`, and lets each peer open up
to two catch-up rounds beyond it.  `Tracked` is what holds of it along every run of
`SetRound` calls with non-decreasing rounds and `AddVote` calls with votes of non-negative
rounds: every round from 0 to `round` is tracked; a round above `round` is some peer's
catch-up round, and no peer has more than two; and no tracked round is below -1.  Round -1
is there: `SetRound` starts its loop at `round - 1`, and the first call, from round 0,
adds it.  So a height tracks at most `round + 2` rounds besides the catch-up rounds
(`Tracked.card_le`).

`SetRound` from a tracked state never panics (`Tracked.setRound`), the catch-up step of
`AddVote`, which calls `addRound`, never panics (`Tracked.catchupVoteSet`), and a vote of a
round up to `round` goes to that round's vote set of its type (`Tracked.addVote_of_le`).
-/

namespace Tenderdash

namespace HeightVoteSet

/-- A call on the vote sets of a height. -/
inductive Call where
  | setRound (round : ℤ)
  | addVote (vote : Vote) (peerID : P2PID)

/-- The rounds of the `SetRound` calls, in order. -/
def setRounds : List Call → List ℤ
  | [] => []
  | .setRound r :: calls => r :: setRounds calls
  | .addVote _ _ :: calls => setRounds calls

/-- The peers of the `AddVote` calls. -/
def callPeers : List Call → Finset P2PID
  | [] => ∅
  | .setRound _ :: calls => callPeers calls
  | .addVote _ peerID :: calls => insert peerID (callPeers calls)

section Run

variable (recover : List Bytes → List Bytes → Except String Bytes)
  (verify : Bytes → ℕ → Bytes → Bytes → Bytes → Vote → Except String Unit)

/-- A run of calls; a panic stops it. -/
def run (hvs : HeightVoteSet) : List Call → Except String HeightVoteSet
  | [] => .ok hvs
  | .setRound r :: calls => do
    let hvs ← hvs.setRound r
    run hvs calls
  | .addVote vote peerID :: calls => do
    let (hvs, _, _) ← hvs.addVote recover verify vote peerID
    run hvs calls

end Run

/-! ## Adding rounds -/

/-- Both vote sets of every tracked round are there, when the validators have public keys. -/
def VoteSetsPresent (hvs : HeightVoteSet) : Prop :=
  hvs.valSet.hasPublicKeys → ∀ r rvs, hvs.roundVoteSets r = some rvs →
    rvs.prevotes.isSome ∧ rvs.precommits.isSome

variable {hvs : HeightVoteSet}

theorem newVoteSet_exists {chainID : Bytes} {height round : ℤ} {type : SignedMsgType}
    {valSet : ValidatorSet} (h0 : height ≠ 0) (hpk : valSet.hasPublicKeys) :
    ∃ vs, newVoteSet chainID height round type valSet = .ok vs := by
  simp [newVoteSet, h0, hpk]

/-- `addRound` of a round not tracked yet tracks it, and changes nothing else; it panics
only through `NewVoteSet` at height 0. -/
theorem addRound_eq_ok {r : ℤ} (hnone : hvs.roundVoteSets r = none)
    (hh : hvs.valSet.hasPublicKeys → hvs.height ≠ 0) :
    ∃ rvs, hvs.addRound r = .ok { hvs with
        roundVoteSets := Function.update hvs.roundVoteSets r (some rvs) } ∧
      (hvs.valSet.hasPublicKeys → rvs.prevotes.isSome ∧ rvs.precommits.isSome) := by
  unfold addRound
  rw [hnone]
  cases hpk : hvs.valSet.hasPublicKeys
  · exact ⟨⟨none, none⟩, by simp, by simp⟩
  · obtain ⟨pv, hpv⟩ : ∃ vs, newVoteSet hvs.chainID hvs.height r .prevote hvs.valSet = .ok vs :=
      newVoteSet_exists (hh hpk) hpk
    obtain ⟨pc, hpc⟩ : ∃ vs, newVoteSet hvs.chainID hvs.height r .precommit hvs.valSet = .ok vs :=
      newVoteSet_exists (hh hpk) hpk
    exact ⟨⟨some pv, some pc⟩, by simp [hpv, hpc], fun _ ↦ ⟨rfl, rfl⟩⟩

theorem VoteSetsPresent.update {f : ℤ → Option RoundVoteSet} {r : ℤ} {rvs : RoundVoteSet}
    (h : VoteSetsPresent { hvs with roundVoteSets := f })
    (hrvs : hvs.valSet.hasPublicKeys → rvs.prevotes.isSome ∧ rvs.precommits.isSome) :
    VoteSetsPresent { hvs with roundVoteSets := Function.update f r (some rvs) } := by
  intro hpk r' rvs' hr'
  change Function.update f r (some rvs) r' = some rvs' at hr'
  by_cases hrr : r' = r
  · subst hrr
    simp only [Function.update_self, Option.some.injEq] at hr'
    exact hr' ▸ hrvs hpk
  · rw [Function.update_of_ne hrr] at hr'
    exact h hpk r' rvs' hr'

/-- The loop of `SetRound` adds the `n` rounds from `s` on that are not tracked yet, and
changes nothing else. -/
theorem addRounds_eq_ok (hh : hvs.valSet.hasPublicKeys → hvs.height ≠ 0) :
    ∀ (n : ℕ) (s : ℤ) (f : ℤ → Option RoundVoteSet),
      VoteSetsPresent { hvs with roundVoteSets := f } →
      ∃ f', ({ hvs with roundVoteSets := f } : HeightVoteSet).addRounds s n =
          .ok { hvs with roundVoteSets := f' } ∧
        VoteSetsPresent { hvs with roundVoteSets := f' } ∧
        ∀ r, (f' r).isSome ↔ (f r).isSome ∨ (s ≤ r ∧ r < s + n)
  | 0, s, f, hf => ⟨f, rfl, hf, fun r ↦ by simp⟩
  | n + 1, s, f, hf => by
    obtain ⟨f₁, hf₁, hmem₁, hstep⟩ : ∃ f₁, VoteSetsPresent { hvs with roundVoteSets := f₁ } ∧
        (∀ r, (f₁ r).isSome ↔ (f r).isSome ∨ r = s) ∧
        ({ hvs with roundVoteSets := f } : HeightVoteSet).addRounds s (n + 1) =
          ({ hvs with roundVoteSets := f₁ } : HeightVoteSet).addRounds (s + 1) n := by
      cases hs : f s with
      | some rvs =>
        refine ⟨f, hf, fun r ↦ ?_, by simp [addRounds, hs]⟩
        constructor
        · exact .inl
        · rintro (h | rfl)
          · exact h
          · simp [hs]
      | none =>
        obtain ⟨rvs, hadd, hrvs⟩ := @addRound_eq_ok { hvs with roundVoteSets := f } s hs hh
        refine ⟨Function.update f s (some rvs), hf.update hrvs, fun r ↦ ?_,
          by simp [addRounds, hs, hadd]⟩
        by_cases hrs : r = s
        · simp [hrs]
        · simp [hrs]
    obtain ⟨f', hrest, hf', hmem'⟩ := addRounds_eq_ok hh n (s + 1) f₁ hf₁
    refine ⟨f', hstep.trans hrest, hf', fun r ↦ ?_⟩
    rw [hmem', hmem₁]
    by_cases hfr : (f r).isSome
    · simp [hfr]
    · simp only [hfr, Bool.false_eq_true, false_or]
      push_cast
      omega

/-! ## What holds along a run -/

/-- What holds of the vote sets of a height along every run: every round from 0 to `round`
is tracked, a tracked round above `round` is a peer's catch-up round, no peer has more than
two, and no tracked round is below -1. -/
structure Tracked (hvs : HeightVoteSet) : Prop where
  height_ne : hvs.valSet.hasPublicKeys → hvs.height ≠ 0
  round_nonneg : 0 ≤ hvs.round
  voteSets : VoteSetsPresent hvs
  upto_round : ∀ r, 0 ≤ r → r ≤ hvs.round → (hvs.roundVoteSets r).isSome
  above_round : ∀ r, hvs.round < r → (hvs.roundVoteSets r).isSome →
    ∃ p, r ∈ hvs.peerCatchupRounds p
  ge_neg_one : ∀ r, (hvs.roundVoteSets r).isSome → -1 ≤ r
  catchups_le : ∀ p, (hvs.peerCatchupRounds p).length ≤ 2

/-- `NewHeightVoteSet` tracks round 0, with no catch-up rounds. -/
theorem tracked_new {chainID : Bytes} {height : ℤ} {valSet : ValidatorSet}
    (h : new chainID height valSet = .ok hvs) :
    Tracked hvs ∧ hvs.round = 0 ∧ ∀ p, hvs.peerCatchupRounds p = [] := by
  have hh : valSet.hasPublicKeys → height ≠ 0 := by
    intro hpk h0
    simp [new, addRound, newVoteSet, h0, hpk] at h
  obtain ⟨rvs, hadd, hrvs⟩ :=
    @addRound_eq_ok ⟨chainID, height, valSet, 0, fun _ ↦ none, fun _ ↦ []⟩ 0 rfl hh
  simp only [new, hadd] at h
  obtain rfl := (Except.ok.inj h).symm
  dsimp only
  have hrvs' : VoteSetsPresent
      { (⟨chainID, height, valSet, 0, fun _ ↦ none, fun _ ↦ []⟩ : HeightVoteSet) with
        roundVoteSets := Function.update (fun _ ↦ none) 0 (some rvs) } :=
    VoteSetsPresent.update (fun _ _ _ h ↦ by cases h) hrvs
  refine ⟨⟨hh, le_rfl, hrvs', fun r h0 hr ↦ ?_, fun r hr hs ↦ ?_, fun r hs ↦ ?_, fun p ↦ by simp⟩,
    rfl, fun p ↦ rfl⟩
  · dsimp only at hr
    have : r = 0 := by omega
    simp [this]
  · dsimp only at hr
    have hr0 : r ≠ 0 := by omega
    simp [Function.update_of_ne hr0] at hs
  · by_cases hr0 : r = 0
    · omega
    · simp [Function.update_of_ne hr0] at hs

/-- `SetRound` to a round not below the current one never panics; it tracks every round
from the one before the current up to the new one. -/
theorem Tracked.setRound (h : Tracked hvs) {r : ℤ} (hr : hvs.round ≤ r) :
    ∃ hvs', hvs.setRound r = .ok hvs' ∧ Tracked hvs' ∧ hvs'.round = r ∧
      hvs'.peerCatchupRounds = hvs.peerCatchupRounds := by
  have hnonneg := h.round_nonneg
  obtain ⟨f', hloop, hf', hmem⟩ :=
    addRounds_eq_ok h.height_ne ((r - (hvs.round - 1) + 1).toNat) (hvs.round - 1)
      hvs.roundVoteSets h.voteSets
  have hcount : (((r - (hvs.round - 1) + 1).toNat : ℕ) : ℤ) = r - hvs.round + 2 := by omega
  have hmem' : ∀ r', (f' r').isSome ↔ (hvs.roundVoteSets r').isSome ∨
      (hvs.round - 1 ≤ r' ∧ r' ≤ r) := fun r' ↦ by
    rw [hmem r', hcount]
    constructor
    · rintro (h | ⟨h₁, h₂⟩)
      · exact .inl h
      · exact .inr ⟨h₁, by omega⟩
    · rintro (h | ⟨h₁, h₂⟩)
      · exact .inl h
      · exact .inr ⟨h₁, by omega⟩
  refine ⟨{ hvs with roundVoteSets := f', round := r }, ?_, ⟨h.height_ne, show 0 ≤ r by omega, hf',
    fun r' h0 hr' ↦ ?_, fun r' hr' hs ↦ ?_, fun r' hs ↦ ?_, h.catchups_le⟩, rfl, rfl⟩
  · have hcheck : ¬ (hvs.round ≠ 0 ∧ r < hvs.round - 1) := by omega
    rw [HeightVoteSet.setRound, if_neg hcheck]
    simp only [hloop, Except.ok_bind]
    rfl
  · show (f' r').isSome
    rw [hmem']
    by_cases hle : r' ≤ hvs.round
    · exact .inl (h.upto_round r' h0 hle)
    · exact .inr ⟨by omega, hr'⟩
  · change (f' r').isSome at hs
    rcases (hmem' r').mp hs with hs | ⟨-, hle⟩
    · exact h.above_round r' (by change r < r' at hr'; omega) hs
    · change r < r' at hr'
      omega
  · change (f' r').isSome at hs
    rcases (hmem' r').mp hs with hs | ⟨hge, -⟩
    · exact h.ge_neg_one r' hs
    · omega

/-! ## Finding the vote set of a vote -/

theorem getVoteSet_of_none {r : ℤ} {type : SignedMsgType} (hr : hvs.roundVoteSets r = none)
    (htype : type.isVoteTypeValid) : hvs.getVoteSet r type = .ok none := by
  cases type <;> simp_all [getVoteSet, prevotes, precommits, SignedMsgType.isVoteTypeValid]

theorem getVoteSet_of_some {r : ℤ} {type : SignedMsgType} {rvs : RoundVoteSet}
    (hpres : VoteSetsPresent hvs) (hpk : hvs.valSet.hasPublicKeys)
    (hr : hvs.roundVoteSets r = some rvs) (htype : type.isVoteTypeValid) :
    ∃ vs, hvs.getVoteSet r type = .ok (some vs) := by
  obtain ⟨hpv, hpc⟩ := hpres hpk r rvs hr
  obtain ⟨pv, hpv⟩ := Option.isSome_iff_exists.mp hpv
  obtain ⟨pc, hpc⟩ := Option.isSome_iff_exists.mp hpc
  cases type
  · simp [SignedMsgType.isVoteTypeValid] at htype
  · exact ⟨pv, by simp [getVoteSet, prevotes, hr, hpv]⟩
  · exact ⟨pc, by simp [getVoteSet, precommits, hr, hpc]⟩
  · simp [SignedMsgType.isVoteTypeValid] at htype

variable {vote : Vote} {peerID : P2PID}

theorem catchupVoteSet_of_some {vs : VoteSet}
    (h : hvs.getVoteSet vote.round vote.type = .ok (some vs)) :
    hvs.catchupVoteSet vote peerID = .ok (some (hvs, vs)) := by
  simp [catchupVoteSet, h]

/-- The state after a peer opens a catch-up round. -/
theorem Tracked.catchup (h : Tracked hvs) (hround : 0 ≤ vote.round)
    (hroom : (hvs.peerCatchupRounds peerID).length < 2)
    {rvs : RoundVoteSet} (hrvs : hvs.valSet.hasPublicKeys → rvs.prevotes.isSome ∧ rvs.precommits.isSome) :
    Tracked { hvs with
      roundVoteSets := Function.update hvs.roundVoteSets vote.round (some rvs)
      peerCatchupRounds := Function.update hvs.peerCatchupRounds peerID
        (hvs.peerCatchupRounds peerID ++ [vote.round]) } := by
  have hgrow : ∀ p, hvs.peerCatchupRounds p ⊆ Function.update hvs.peerCatchupRounds peerID
      (hvs.peerCatchupRounds peerID ++ [vote.round]) p := by
    intro p
    by_cases hp : p = peerID
    · subst hp
      simp
    · simp [Function.update_of_ne hp]
  have hmem : ∀ r, (Function.update hvs.roundVoteSets vote.round (some rvs) r).isSome →
      (hvs.roundVoteSets r).isSome ∨ r = vote.round := by
    intro r hr
    by_cases hrv : r = vote.round
    · exact .inr hrv
    · rw [Function.update_of_ne hrv] at hr
      exact .inl hr
  refine ⟨h.height_ne, h.round_nonneg, ?_, fun r h0 hr ↦ ?_, fun r hr hs ↦ ?_, fun r hs ↦ ?_,
    fun p ↦ ?_⟩
  · exact @VoteSetsPresent.update hvs _ _ _ h.voteSets hrvs
  · by_cases hrv : r = vote.round
    · simp [hrv]
    · simpa [Function.update_of_ne hrv] using h.upto_round r h0 hr
  · rcases hmem r hs with hs | rfl
    · obtain ⟨p, hp⟩ := h.above_round r hr hs
      exact ⟨p, hgrow p hp⟩
    · exact ⟨peerID, by simp⟩
  · rcases hmem r hs with hs | rfl
    · exact h.ge_neg_one r hs
    · omega
  · by_cases hp : p = peerID
    · subst hp
      simp only [Function.update_self, List.length_append, List.length_singleton]
      omega
    · simpa [Function.update_of_ne hp] using h.catchups_le p

/-- The catch-up step of `AddVote`, which calls `addRound`, never panics: it finds the vote
set of a tracked round, opens a catch-up round for a peer with fewer than two, or finds
none. -/
theorem Tracked.catchupVoteSet_cases (h : Tracked hvs) (hpk : hvs.valSet.hasPublicKeys)
    (htype : vote.type.isVoteTypeValid) (hround : 0 ≤ vote.round) :
    hvs.catchupVoteSet vote peerID = .ok none ∨
      ∃ hvs' vs, hvs.catchupVoteSet vote peerID = .ok (some (hvs', vs)) ∧ Tracked hvs' ∧
        hvs'.round = hvs.round ∧ hvs'.valSet = hvs.valSet ∧
        ∀ p, hvs'.peerCatchupRounds p ≠ [] → hvs.peerCatchupRounds p ≠ [] ∨ p = peerID := by
  cases hr : hvs.roundVoteSets vote.round with
  | some rvs =>
    obtain ⟨vs, hvs_⟩ := getVoteSet_of_some h.voteSets hpk hr htype
    exact .inr ⟨hvs, vs, catchupVoteSet_of_some hvs_, h, rfl, rfl, fun p hp ↦ .inl hp⟩
  | none =>
    have hget := getVoteSet_of_none hr htype
    by_cases hroom : (hvs.peerCatchupRounds peerID).length < 2
    · obtain ⟨rvs, hadd, hrvs⟩ := addRound_eq_ok hr h.height_ne
      have hnew : (Function.update hvs.roundVoteSets vote.round (some rvs) vote.round) = some rvs :=
        Function.update_self ..
      obtain ⟨vs, hvs_⟩ := @getVoteSet_of_some { hvs with
          roundVoteSets := Function.update hvs.roundVoteSets vote.round (some rvs) } _ _ _
        (@VoteSetsPresent.update hvs _ _ _ h.voteSets hrvs) hpk hnew htype
      refine .inr ⟨_, vs, ?_, h.catchup hround hroom hrvs, rfl, rfl, fun p hp ↦ ?_⟩
      · simp [catchupVoteSet, hget, hroom, hadd, hvs_]
      · by_cases hpp : p = peerID
        · exact .inr hpp
        · exact .inl (by simpa [Function.update_of_ne hpp] using hp)
    · left
      simp [catchupVoteSet, hget, hroom]

/-! ## Adding the vote -/

@[simp] theorem isSome_setVoteSet {r r' : ℤ} {type : SignedMsgType} {vs : VoteSet} :
    ((hvs.setVoteSet r type vs).roundVoteSets r').isSome = (hvs.roundVoteSets r').isSome := by
  by_cases hr : r' = r
  · subst hr
    simp [setVoteSet]
  · simp [setVoteSet, Function.update_of_ne hr]

theorem VoteSetsPresent.setVoteSet (h : VoteSetsPresent hvs) {r : ℤ} {type : SignedMsgType}
    {vs : VoteSet} : VoteSetsPresent (hvs.setVoteSet r type vs) := by
  intro hpk r' rvs' hr'
  by_cases hrr : r' = r
  · subst hrr
    simp only [HeightVoteSet.setVoteSet, Function.update_self, Option.map_eq_some_iff] at hr'
    obtain ⟨rvs, hrvs, rfl⟩ := hr'
    have hold := h hpk r' rvs hrvs
    split <;> simp [hold]
  · exact h hpk r' rvs' (by simpa [HeightVoteSet.setVoteSet, Function.update_of_ne hrr] using hr')

/-- Writing back the vote set a vote went into changes no tracked round. -/
theorem Tracked.setVoteSet (h : Tracked hvs) {r : ℤ} {type : SignedMsgType} {vs : VoteSet} :
    Tracked (hvs.setVoteSet r type vs) where
  height_ne := h.height_ne
  round_nonneg := h.round_nonneg
  voteSets := h.voteSets.setVoteSet
  upto_round r' h0 hr' := by simpa using h.upto_round r' h0 hr'
  above_round r' hr' hs := h.above_round r' hr' (by simpa using hs)
  ge_neg_one r' hs := h.ge_neg_one r' (by simpa using hs)
  catchups_le := h.catchups_le

section AddVote

variable {recover : List Bytes → List Bytes → Except String Bytes}
  {verify : Bytes → ℕ → Bytes → Bytes → Bytes → Vote → Except String Unit}

/-- The step lemma of `AddVote`: a vote of a non-negative round keeps `Tracked`, leaves the
round as it is, and opens a catch-up round, if any, for its own peer only. -/
theorem Tracked.addVote (h : Tracked hvs) (hround : 0 ≤ vote.round)
    {res : HeightVoteSet × Bool × Option HeightVoteError}
    (hadd : hvs.addVote recover verify vote peerID = .ok res) :
    Tracked res.1 ∧ res.1.round = hvs.round ∧
      ∀ p, res.1.peerCatchupRounds p ≠ [] → hvs.peerCatchupRounds p ≠ [] ∨ p = peerID := by
  unfold HeightVoteSet.addVote at hadd
  by_cases hpk : hvs.valSet.hasPublicKeys
  · by_cases htype : vote.type.isVoteTypeValid
    · simp only [hpk, htype, Bool.not_true, Bool.false_eq_true, if_false] at hadd
      rcases @Tracked.catchupVoteSet_cases _ _ peerID h hpk htype hround with
        hc | ⟨hvs', vs, hc, h', hround', -, hpeers⟩
      · simp only [hc, Except.ok_bind] at hadd
        obtain rfl := (Except.ok.inj hadd).symm
        exact ⟨h, rfl, fun p hp ↦ .inl hp⟩
      · simp only [hc, Except.ok_bind] at hadd
        obtain ⟨⟨vs', added, err⟩, -, hres⟩ := Except.bind_eq_ok.mp hadd
        obtain rfl := (Except.ok.inj hres).symm
        exact ⟨h'.setVoteSet, hround', hpeers⟩
    · simp only [hpk, htype, Bool.not_true, Bool.not_false, Bool.false_eq_true, if_false,
        if_true] at hadd
      obtain rfl := (Except.ok.inj hadd).symm
      exact ⟨h, rfl, fun p hp ↦ .inl hp⟩
  · simp only [hpk, Bool.not_false, if_true] at hadd
    obtain rfl := (Except.ok.inj hadd).symm
    exact ⟨h, rfl, fun p hp ↦ .inl hp⟩

/-- `AddVote` panics only where the vote set it hands the vote to does: its catch-up step,
and `addRound` in it, never panic. -/
theorem Tracked.addVote_error (h : Tracked hvs) (hround : 0 ≤ vote.round) {e : String}
    (hadd : hvs.addVote recover verify vote peerID = .error e) :
    ∃ vs : VoteSet, vs.addVote recover verify vote = .error e := by
  unfold HeightVoteSet.addVote at hadd
  by_cases hpk : hvs.valSet.hasPublicKeys
  · by_cases htype : vote.type.isVoteTypeValid
    · simp only [hpk, htype, Bool.not_true, Bool.false_eq_true, if_false] at hadd
      rcases @Tracked.catchupVoteSet_cases _ _ peerID h hpk htype hround with
        hc | ⟨hvs', vs, hc, -⟩
      · simp [hc, pure, Except.pure] at hadd
      · simp only [hc, Except.ok_bind] at hadd
        cases hx : vs.addVote recover verify vote with
        | error e' =>
          rw [hx, Except.error_bind] at hadd
          cases hadd
          exact ⟨vs, hx⟩
        | ok r =>
          rw [hx] at hadd
          cases hadd
    · simp [hpk, htype] at hadd
  · simp [hpk] at hadd

/-- A vote of a round from 0 to `round` goes to that round's vote set of its type. -/
theorem Tracked.addVote_of_le (h : Tracked hvs) (hpk : hvs.valSet.hasPublicKeys)
    (htype : vote.type.isVoteTypeValid) (h0 : 0 ≤ vote.round) (hle : vote.round ≤ hvs.round) :
    ∃ vs, hvs.getVoteSet vote.round vote.type = .ok (some vs) ∧
      hvs.addVote recover verify vote peerID =
        (fun r ↦ (hvs.setVoteSet vote.round vote.type r.1, r.2.1, r.2.2.map .vote)) <$>
          vs.addVote recover verify vote := by
  obtain ⟨rvs, hr⟩ := Option.isSome_iff_exists.mp (h.upto_round _ h0 hle)
  obtain ⟨vs, hget⟩ := getVoteSet_of_some h.voteSets hpk hr htype
  refine ⟨vs, hget, ?_⟩
  unfold HeightVoteSet.addVote
  simp only [hpk, htype, Bool.not_true, Bool.false_eq_true, if_false,
    catchupVoteSet_of_some hget, Except.ok_bind]
  cases vs.addVote recover verify vote <;> rfl

end AddVote

/-! ## How many rounds a height tracks -/

/-- A height tracks at most `round + 2` rounds, -1 to `round`, and two catch-up rounds for
each peer that has opened some. -/
theorem Tracked.card_le (h : Tracked hvs) {P : Finset P2PID}
    (hP : ∀ p, hvs.peerCatchupRounds p ≠ [] → p ∈ P) {R : Finset ℤ}
    (hR : ∀ r ∈ R, (hvs.roundVoteSets r).isSome) :
    (R.card : ℤ) ≤ hvs.round + 2 + 2 * P.card := by
  have hsub : R ⊆ Finset.Icc (-1) hvs.round ∪
      P.biUnion fun p ↦ (hvs.peerCatchupRounds p).toFinset := by
    intro r hr
    rw [Finset.mem_union]
    by_cases hle : r ≤ hvs.round
    · exact .inl (Finset.mem_Icc.mpr ⟨h.ge_neg_one r (hR r hr), hle⟩)
    · obtain ⟨p, hp⟩ := h.above_round r (by omega) (hR r hr)
      exact .inr (Finset.mem_biUnion.mpr
        ⟨p, hP p (List.ne_nil_of_mem hp), List.mem_toFinset.mpr hp⟩)
  have hcatch : (P.biUnion fun p ↦ (hvs.peerCatchupRounds p).toFinset).card ≤ 2 * P.card :=
    calc (P.biUnion fun p ↦ (hvs.peerCatchupRounds p).toFinset).card
        ≤ ∑ p ∈ P, (hvs.peerCatchupRounds p).toFinset.card := Finset.card_biUnion_le
      _ ≤ ∑ _p ∈ P, 2 :=
        Finset.sum_le_sum fun p _ ↦ (List.toFinset_card_le _).trans (h.catchups_le p)
      _ = 2 * P.card := by rw [Finset.sum_const, smul_eq_mul, mul_comm]
  have hicc : ((Finset.Icc (-1) hvs.round).card : ℤ) = hvs.round + 2 := by
    have := h.round_nonneg
    rw [Int.card_Icc]
    omega
  have hcard := (Finset.card_le_card hsub).trans (Finset.card_union_le _ _)
  omega

/-! ## Runs -/

section Run

variable {recover : List Bytes → List Bytes → Except String Bytes}
  {verify : Bytes → ℕ → Bytes → Bytes → Bytes → Vote → Except String Unit}

/-- The run lemma: a run of `SetRound` calls with non-decreasing rounds and `AddVote` calls
with votes of non-negative rounds keeps `Tracked`, and only the peers of its votes open
catch-up rounds. -/
theorem Tracked.run : ∀ (calls : List Call) {hvs hvs' : HeightVoteSet}, Tracked hvs →
    (hvs.round :: setRounds calls).Pairwise (· ≤ ·) →
    (∀ vote p, Call.addVote vote p ∈ calls → 0 ≤ vote.round) →
    hvs.run recover verify calls = .ok hvs' →
    Tracked hvs' ∧
      ∀ p, hvs'.peerCatchupRounds p ≠ [] → hvs.peerCatchupRounds p ≠ [] ∨ p ∈ callPeers calls
  | [], _, _, h, _, _, hrun => by
    cases hrun
    exact ⟨h, fun p hp ↦ .inl hp⟩
  | .setRound r :: calls, hvs, hvs', h, hsorted, hvotes, hrun => by
    rw [setRounds, List.pairwise_cons] at hsorted
    obtain ⟨hle, hrest⟩ := hsorted
    obtain ⟨hvs₁, hset, h₁, hround₁, hpeers₁⟩ := h.setRound (hle r List.mem_cons_self)
    rw [HeightVoteSet.run, hset, Except.ok_bind] at hrun
    obtain ⟨h', hp'⟩ := Tracked.run calls h₁ (hround₁ ▸ hrest)
      (fun v p hm ↦ hvotes v p (List.mem_cons_of_mem _ hm)) hrun
    refine ⟨h', fun p hp ↦ ?_⟩
    rcases hp' p hp with hp | hp
    · exact .inl (hpeers₁ ▸ hp)
    · exact .inr (by simpa [callPeers] using hp)
  | .addVote vote peerID :: calls, hvs, hvs', h, hsorted, hvotes, hrun => by
    rw [HeightVoteSet.run] at hrun
    obtain ⟨⟨hvs₁, added, err⟩, hadd, hrest⟩ := Except.bind_eq_ok.mp hrun
    obtain ⟨h₁, hround₁, hpeers₁⟩ := h.addVote (hvotes vote peerID List.mem_cons_self) hadd
    have hround₁' : hvs₁.round = hvs.round := hround₁
    obtain ⟨h', hp'⟩ := Tracked.run calls h₁ (by rw [hround₁']; simpa [setRounds] using hsorted)
      (fun v p hm ↦ hvotes v p (List.mem_cons_of_mem _ hm)) hrest
    refine ⟨h', fun p hp ↦ ?_⟩
    rcases hp' p hp with hp | hp
    · rcases hpeers₁ p hp with hp | rfl
      · exact .inl hp
      · exact .inr (by simp [callPeers])
    · exact .inr (by simp [callPeers, hp])

/-- Along every run from `NewHeightVoteSet` of `SetRound` calls with non-decreasing rounds
and `AddVote` calls with votes of non-negative rounds: every round from 0 to `round` is
tracked; each peer has at most two catch-up rounds, and every tracked round above `round` is
one of them; the height tracks at most `round + 2 + 2 * peers` rounds, where round -1 is the
one beyond `round + 1`; `SetRound` to a later round never panics, nor does `AddVote` but
where the vote set it hands the vote to does; and a vote of a round from 0 to `round` goes to
that round's vote set of its type. -/
theorem heightVoteSet_tracks_rounds {chainID : Bytes} {height : ℤ} {valSet : ValidatorSet}
    {hvs₀ hvs : HeightVoteSet} (hnew : new chainID height valSet = .ok hvs₀) (calls : List Call)
    (hrounds : (0 :: setRounds calls).Pairwise (· ≤ ·))
    (hvotes : ∀ vote p, Call.addVote vote p ∈ calls → 0 ≤ vote.round)
    (hrun : hvs₀.run recover verify calls = .ok hvs) :
    (∀ r, 0 ≤ r → r ≤ hvs.round → (hvs.roundVoteSets r).isSome) ∧
    (∀ p, (hvs.peerCatchupRounds p).length ≤ 2) ∧
    (∀ r, hvs.round < r → (hvs.roundVoteSets r).isSome → ∃ p, r ∈ hvs.peerCatchupRounds p) ∧
    (∀ R : Finset ℤ, (∀ r ∈ R, (hvs.roundVoteSets r).isSome) →
      (R.card : ℤ) ≤ hvs.round + 2 + 2 * (callPeers calls).card) ∧
    (∀ r, hvs.round ≤ r → ∃ hvs', hvs.setRound r = .ok hvs') ∧
    (∀ vote peerID e, 0 ≤ vote.round → hvs.addVote recover verify vote peerID = .error e →
      ∃ vs : VoteSet, vs.addVote recover verify vote = .error e) ∧
    (∀ vote peerID, 0 ≤ vote.round → vote.round ≤ hvs.round → hvs.valSet.hasPublicKeys →
      vote.type.isVoteTypeValid →
      ∃ vs, hvs.getVoteSet vote.round vote.type = .ok (some vs) ∧
        hvs.addVote recover verify vote peerID =
          (fun r ↦ (hvs.setVoteSet vote.round vote.type r.1, r.2.1, r.2.2.map .vote)) <$>
            vs.addVote recover verify vote) := by
  obtain ⟨h₀, hround₀, hpeers₀⟩ := tracked_new hnew
  obtain ⟨h, hpeers⟩ := Tracked.run calls h₀ (hround₀ ▸ hrounds) hvotes hrun
  have hP : ∀ p, hvs.peerCatchupRounds p ≠ [] → p ∈ callPeers calls := fun p hp ↦
    (hpeers p hp).resolve_left (by simp [hpeers₀ p])
  refine ⟨h.upto_round, h.catchups_le, h.above_round, fun R hR ↦ h.card_le hP hR,
    fun r hr ↦ ?_, fun vote p e h0 hadd ↦ h.addVote_error h0 hadd,
    fun vote p h0 hle hpk htype ↦ h.addVote_of_le hpk htype h0 hle⟩
  obtain ⟨hvs', hset, -⟩ := h.setRound hr
  exact ⟨hvs', hset⟩

/-- After `NewHeightVoteSet` at height 1 and `SetRound(1)`, as `enterNewRound` calls it in
round 0, rounds -1, 0 and 1 are tracked: three rounds at round 1 with no peer, one more
than the rounds 0 to `round` the documentation names. -/
theorem heightVoteSet_tracks_round_minus_one :
    ∃ hvs₀ hvs, new [] 1 ⟨[], [], 0, [], true⟩ = .ok hvs₀ ∧
      (0 :: setRounds [.setRound 1]).Pairwise (· ≤ ·) ∧
      hvs₀.run (fun _ _ ↦ .ok []) (fun _ _ _ _ _ _ ↦ .ok ()) [.setRound 1] = .ok hvs ∧
      hvs.round = 1 ∧ (hvs.roundVoteSets (-1)).isSome ∧
      (({-1, 0, 1} : Finset ℤ).card : ℤ) ≤ hvs.round + 2 + 2 * (callPeers [.setRound 1]).card ∧
      ¬ (({-1, 0, 1} : Finset ℤ).card : ℤ) ≤ hvs.round + 1 + 2 * (callPeers [.setRound 1]).card := by
  refine ⟨_, _, rfl, by decide, rfl, rfl, rfl, ?_, by decide⟩
  have hsorted : (0 :: setRounds [.setRound 1]).Pairwise (· ≤ ·) := by decide
  have hvotes : ∀ vote p, Call.addVote vote p ∈ [Call.setRound 1] → 0 ≤ vote.round := by simp
  obtain ⟨-, -, -, hcard, -⟩ := @heightVoteSet_tracks_rounds (fun _ _ ↦ .ok [])
    (fun _ _ _ _ _ _ ↦ .ok ()) [] 1 ⟨[], [], 0, [], true⟩ _ _ rfl [.setRound 1] hsorted hvotes rfl
  exact hcard _ (by decide)

end Run

end HeightVoteSet

end Tenderdash
