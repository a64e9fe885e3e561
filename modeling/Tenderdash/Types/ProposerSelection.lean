import Tenderdash.Types.PriorityUpdate

/-!
# Proposer selection over the sets a node holds

A node's validator set is built by `NewValidatorSet` and then changed only by successful
`IncrementProposerPriority` and `UpdateWithChangeSet` calls (`Reachable`).  Every such set
is `Balanced` or has no validators at all (`Reachable.settled`), so what `PriorityRounds`
and `PriorityUpdate` prove of balanced sets holds of all of them: the priorities stay
within the window and centered, no clipping operation ever clips, and the proposers follow
the round robin of `RoundRobin`.
-/

namespace Tenderdash

open RoundRobin PriorityValidator

namespace PrioritySet

/-- What the operations keep: a balanced set, or one with no validators and a zero total,
as `NewValidatorSet` of no validators returns. -/
def Settled (vals : PrioritySet) : Prop :=
  vals.Balanced ∨ vals.validators = [] ∧ vals.totalVotingPower = 0

theorem updatable_of_nil {vals : PrioritySet} (hnil : vals.validators = [])
    (hc : vals.totalVotingPower = 0) : vals.Updatable where
  votingPower _ hv := by simp [hnil] at hv
  nodup := by simp [hnil]
  totalVotingPower_eq := by simp [hnil, hc]
  total_le := by rw [hc]; exact Int.natCast_nonneg _
  priority_mem _ hv := by simp [hnil] at hv

theorem Settled.updatable {vals : PrioritySet} (h : vals.Settled) : vals.Updatable := by
  rcases h with h | ⟨hnil, hc⟩
  · exact h.updatable
  · exact updatable_of_nil hnil hc

theorem IncrementProposerPriorityWith_of_nil {vals : PrioritySet} (hnil : vals.validators = [])
    (ar : PriorityArith) (times : ℤ) :
    vals.IncrementProposerPriorityWith ar times = throw "empty validator set" := by
  simp [IncrementProposerPriorityWith, hnil]

/-- On a balanced set, `IncrementProposerPriority(times)` succeeds only for positive `times`,
with `times` exact rounds. -/
theorem Balanced.IncrementProposerPriorityWith_eq_ok {vals v : PrioritySet} (h : vals.Balanced)
    {ar : PriorityArith} (har : ar.ExactInRange) {times : ℤ}
    (hv : vals.IncrementProposerPriorityWith ar times = .ok v) :
    0 < times ∧ v = vals.afterRounds times.toNat := by
  have ht : 0 < times := by
    by_contra hle
    unfold PrioritySet.IncrementProposerPriorityWith at hv
    rw [if_neg (by simpa using h.ne_nil), if_pos (by omega)] at hv
    exact Except.throw_ne_ok hv
  rw [h.IncrementProposerPriorityWith har ht] at hv
  exact ⟨ht, (Except.ok.inj hv).symm⟩

theorem Settled.IncrementProposerPriorityWith {vals v : PrioritySet} (h : vals.Settled)
    {ar : PriorityArith} (har : ar.ExactInRange) {times : ℤ}
    (hv : vals.IncrementProposerPriorityWith ar times = .ok v) : v.Settled := by
  rcases h with h | ⟨hnil, -⟩
  · obtain ⟨-, rfl⟩ := h.IncrementProposerPriorityWith_eq_ok har hv
    exact .inl (h.afterRounds _)
  · rw [IncrementProposerPriorityWith_of_nil hnil] at hv
    exact absurd hv Except.throw_ne_ok

theorem updateWithChangeSetWith_nil (vals : PrioritySet) (ar : PriorityArith) (allowDeletes : Bool)
    (key qh : Option Bytes) : vals.updateWithChangeSetWith ar [] allowDeletes key qh = .ok vals :=
  rfl

theorem Settled.updateWithChangeSetWith {vals r : PrioritySet} (h : vals.Settled)
    {ar : PriorityArith} (har : ar.ExactInRange) {changes : List PriorityValidator}
    {allowDeletes : Bool} {key qh : Option Bytes}
    (hr : vals.updateWithChangeSetWith ar changes allowDeletes key qh = .ok r) : r.Settled := by
  cases changes with
  | nil =>
    rw [updateWithChangeSetWith_nil] at hr
    exact Except.ok.inj hr ▸ h
  | cons c cs => exact .inl (h.updatable.updateWithChangeSetWith har (List.cons_ne_nil c cs) hr)

theorem Settled.newValidatorSet {valz : List PriorityValidator} {key qh : Option Bytes}
    {quorumType : ℕ} {hasPublicKeys : Bool} {vals : PrioritySet}
    (h : newValidatorSet valz key quorumType qh hasPublicKeys = .ok vals) : vals.Settled := by
  unfold Tenderdash.newValidatorSet at h
  obtain ⟨u, hu, h'⟩ := Except.bind_eq_ok.mp h
  rw [Except.mapError_eq_ok] at hu
  have hs : u.Settled := Settled.updateWithChangeSetWith (.inr ⟨rfl, rfl⟩)
    PriorityArith.clipping_exactInRange hu
  split at h'
  · exact hs.IncrementProposerPriorityWith PriorityArith.clipping_exactInRange h'
  · exact Except.ok.inj h' ▸ hs

/-! ## The set `NewValidatorSet` builds -/

/-- The set `NewValidatorSet` builds before its first round: the validators sorted by hash,
all of priority zero, with their total. -/
def freshValidatorSet (valz : List PriorityValidator) (key : Option Bytes) (quorumType : ℕ)
    (qh : Option Bytes) (hasPublicKeys : Bool) : PrioritySet :=
  { validators := (valz.mergeSort fun a b ↦ decide (a.proTxHash ≤ b.proTxHash)).map
      (·.withPriority 0),
    proposer := none, thresholdPublicKey := key, quorumHash := qh, quorumType := quorumType,
    hasPublicKeys := hasPublicKeys, totalVotingPower := valz.length * defaultDashVotingPower }

section fresh

variable {valz : List PriorityValidator} (key qh : Option Bytes) (quorumType : ℕ)
  (hasPublicKeys : Bool)

theorem validators_freshValidatorSet :
    (freshValidatorSet valz key quorumType qh hasPublicKeys).validators =
      (valz.mergeSort fun a b ↦ decide (a.proTxHash ≤ b.proTxHash)).map (·.withPriority 0) :=
  rfl

theorem totalVotingPower_freshValidatorSet :
    (freshValidatorSet valz key quorumType qh hasPublicKeys).totalVotingPower =
      valz.length * defaultDashVotingPower :=
  rfl

/-- Distinct validators of power `DefaultDashVotingPower`, of total within
`MaxTotalVotingPower`, all of priority zero, are balanced. -/
theorem balanced_freshValidatorSet (hne : valz ≠ []) (hnd : (valz.map (·.proTxHash)).Nodup)
    (h100 : ∀ v ∈ valz, v.votingPower = defaultDashVotingPower)
    (hT : valz.length * defaultDashVotingPower ≤ maxTotalVotingPower) :
    (freshValidatorSet valz key quorumType qh hasPublicKeys).Balanced := by
  set sorted := valz.mergeSort fun a b ↦ decide (a.proTxHash ≤ b.proTxHash)
  have hperm : sorted.Perm valz := List.mergeSort_perm _ _
  have hlen : sorted.length = valz.length := hperm.length_eq
  have hpow : ∀ v ∈ sorted.map (·.withPriority 0), v.votingPower = defaultDashVotingPower := by
    intro v hv
    obtain ⟨w, hw, rfl⟩ := List.mem_map.mp hv
    rw [votingPower_withPriority]
    exact h100 w (hperm.subset hw)
  have hzero : ∀ v ∈ sorted.map (·.withPriority 0), v.proposerPriority = 0 := by
    intro v hv
    obtain ⟨w, -, rfl⟩ := List.mem_map.mp hv
    rw [proposerPriority_withPriority]
  have hn : 0 < valz.length := List.length_pos_iff.mpr hne
  apply balanced_of
  · rw [validators_freshValidatorSet]
    exact hpow
  · rw [validators_freshValidatorSet, List.map_map]
    exact (hperm.map _).nodup_iff.mpr hnd
  · rw [validators_freshValidatorSet]
    exact mt List.map_eq_nil_iff.mp fun h ↦ hne (List.Perm.eq_nil (h ▸ hperm.symm))
  · intro a ha b hb
    rw [validators_freshValidatorSet] at ha hb
    rw [hzero a ha, hzero b hb, totalVotingPower_freshValidatorSet, defaultDashVotingPower]
    omega
  · rw [validators_freshValidatorSet, List.map_congr_left hzero, List.map_const',
      List.sum_replicate, nsmul_eq_mul, mul_zero, List.length_map, hlen]
    exact ⟨le_rfl, by exact_mod_cast hn⟩
  · rw [validators_freshValidatorSet, totalVotingPower_freshValidatorSet, List.map_congr_left hpow,
      List.map_const', List.sum_replicate, nsmul_eq_mul, List.length_map, hlen]
  · exact hT

/-- `NewValidatorSet` of distinct validators of power `DefaultDashVotingPower`, none of an
empty hash, of total within `MaxTotalVotingPower`, with a threshold key and a quorum hash:
the fresh set after one round. -/
theorem newValidatorSet_eq_ok (hne : valz ≠ []) (hnd : (valz.map (·.proTxHash)).Nodup)
    (hhash : ∀ v ∈ valz, v.proTxHash ≠ [])
    (h100 : ∀ v ∈ valz, v.votingPower = defaultDashVotingPower)
    (hT : valz.length * defaultDashVotingPower ≤ maxTotalVotingPower) (key qh : Bytes) :
    newValidatorSet valz (some key) quorumType (some qh) hasPublicKeys =
      .ok ((freshValidatorSet valz (some key) quorumType (some qh) hasPublicKeys).afterRounds 1) := by
  have hu := updateWithChangeSetWith_of_nil
    (e := { validators := [], proposer := none, thresholdPublicKey := none,
            quorumHash := some qh, quorumType := quorumType, hasPublicKeys := hasPublicKeys,
            totalVotingPower := 0 })
    rfl rfl rfl PriorityArith.clipping_exactInRange hne hnd hhash h100 hT false key qh
  have hb := balanced_freshValidatorSet (some key) (some qh) quorumType hasPublicKeys hne hnd h100 hT
  unfold Tenderdash.newValidatorSet PrioritySet.updateWithChangeSet
  dsimp only
  rw [hu]
  have hlen : valz.length > 0 := List.length_pos_iff.mpr hne
  simp only [Except.mapError_ok, Except.ok_bind, hlen, if_true]
  exact hb.IncrementProposerPriorityWith PriorityArith.clipping_exactInRange Int.one_pos

/-- The changes a set with no validators accepts without deletions are valid: distinct,
none of an empty hash, all of power `DefaultDashVotingPower`, of total within
`MaxTotalVotingPower`; and a threshold key and a quorum hash came with them. -/
theorem valid_of_updateWithChangeSetWith_nil {e r : PrioritySet} (hnil : e.validators = [])
    (hc : e.totalVotingPower = 0) {ar : PriorityArith} (hne : valz ≠ []) {key' qh' : Option Bytes}
    (h : e.updateWithChangeSetWith ar valz false key' qh' = .ok r) :
    (valz.map (·.proTxHash)).Nodup ∧ (∀ v ∈ valz, v.proTxHash ≠ []) ∧
      (∀ v ∈ valz, v.votingPower = defaultDashVotingPower) ∧
      valz.length * defaultDashVotingPower ≤ maxTotalVotingPower ∧
      (∃ k, key' = some k) ∧ ∃ q, qh' = some q := by
  unfold PrioritySet.updateWithChangeSetWith at h
  rw [if_neg (by simpa using hne)] at h
  rcases key' with _ | key' <;> rcases qh' with _ | qh'
  · exact absurd h Except.throw_ne_ok
  · exact absurd h Except.throw_ne_ok
  · exact absurd h Except.throw_ne_ok
  obtain ⟨⟨us, ds⟩, hpc, h₁⟩ := Except.bind_eq_ok.mp h
  simp only [Except.ite_throw_bind_eq_ok, Bool.and_eq_true, decide_eq_true_eq] at h₁
  obtain ⟨hdel, -, h₂⟩ := h₁
  obtain ⟨r₀, hvr, h₃⟩ := Except.bind_eq_ok.mp h₂
  obtain ⟨⟨vals₁, T'⟩, hvu, -⟩ := Except.bind_eq_ok.mp h₃
  have hds : ds = [] := by simpa using hdel
  subst hds
  have hv := updatable_of_nil hnil hc
  obtain ⟨-, -, hr₀⟩ := verifyRemovals_eq_ok hv hvr
  simp only [List.length_nil, Nat.cast_zero, zero_mul] at hr₀
  subst hr₀
  obtain ⟨hsort, hhead, hnonneg, hus, hzero⟩ :=
    processChangesLoop_eq_ok (pairwise_mergeSort_hash valz) hpc
  set sorted := valz.mergeSort fun a b ↦ decide (a.proTxHash ≤ b.proTxHash) with hsorted
  have hperm : sorted.Perm valz := List.mergeSort_perm _ _
  have hpos : ∀ c ∈ sorted, 0 < c.votingPower := fun c hc ↦ by
    have h0 : ¬ c.votingPower = 0 := fun h0 ↦ by
      have : c ∈ ([] : List PriorityValidator) := hzero ▸ List.mem_filter.mpr ⟨hc, by simpa⟩
      simp at this
    have := hnonneg c hc
    omega
  have hus' : us = sorted := by
    rw [hus]
    exact List.filter_eq_self.mpr fun c hc ↦ by simpa using (hpos c hc).ne'
  subst hus'
  obtain ⟨h100, -, -, -, hT, hT'⟩ := verifyUpdates_eq_ok hv hpos le_rfl (by rw [hc]) hvu
  have hdelta : (sorted.map e.delta).sum = sorted.length * defaultDashVotingPower := by
    have hd : ∀ u ∈ sorted, e.delta u = defaultDashVotingPower := fun u hu ↦ by
      simp [delta, getByProTxHash, hnil, h100 u hu]
    rw [List.map_congr_left hd, List.map_const', List.sum_replicate, nsmul_eq_mul]
  refine ⟨(hperm.map _).nodup_iff.mp hsort.nodup, fun v hv ↦ ?_, fun v hv ↦ h100 v (hperm.mem_iff.mpr hv),
    ?_, ⟨_, rfl⟩, ⟨_, rfl⟩⟩
  · have hvs := hperm.mem_iff.mpr hv
    cases hl : sorted with
    | nil => rw [hl] at hvs; simp at hvs
    | cons c cs =>
      rw [hl] at hvs hhead hsort
      rcases List.mem_cons.mp hvs with rfl | hvcs
      · exact hhead v (by simp)
      · intro hnil'
        have hlt := List.rel_of_pairwise_cons hsort hvcs
        rw [id_toEntry, id_toEntry, hnil', List.map_nil] at hlt
        exact List.not_lt_nil _ hlt
  · rw [hT', hc, hdelta, zero_add, hperm.length_eq] at hT
    simpa using hT

/-- What `NewValidatorSet` of validators returns: it accepts only valid validators, with a
threshold key and a quorum hash, and returns the fresh set after one round. -/
theorem newValidatorSet_valid (hne : valz ≠ []) {vals : PrioritySet}
    (h : newValidatorSet valz key quorumType qh hasPublicKeys = .ok vals) :
    (valz.map (·.proTxHash)).Nodup ∧ (∀ v ∈ valz, v.proTxHash ≠ []) ∧
      (∀ v ∈ valz, v.votingPower = defaultDashVotingPower) ∧
      valz.length * defaultDashVotingPower ≤ maxTotalVotingPower ∧
      vals = (freshValidatorSet valz key quorumType qh hasPublicKeys).afterRounds 1 := by
  have h' := h
  unfold Tenderdash.newValidatorSet PrioritySet.updateWithChangeSet at h'
  obtain ⟨u, hu, -⟩ := Except.bind_eq_ok.mp h'
  rw [Except.mapError_eq_ok] at hu
  obtain ⟨hnd, hhash, h100, hT, ⟨k, rfl⟩, ⟨q, rfl⟩⟩ :=
    valid_of_updateWithChangeSetWith_nil rfl rfl hne hu
  rw [newValidatorSet_eq_ok quorumType hasPublicKeys hne hnd hhash h100 hT k q] at h
  exact ⟨hnd, hhash, h100, hT, (Except.ok.inj h).symm⟩

end fresh

end PrioritySet

open PrioritySet

/-- The validator sets a node holds: built by `NewValidatorSet`, then changed by successful
`IncrementProposerPriority` and `UpdateWithChangeSet` calls. -/
inductive Reachable : PrioritySet → Prop
  | new {valz : List PriorityValidator} {key qh : Option Bytes} {quorumType : ℕ}
      {hasPublicKeys : Bool} {vals : PrioritySet} :
      newValidatorSet valz key quorumType qh hasPublicKeys = .ok vals → Reachable vals
  | increment {vals vals' : PrioritySet} {times : ℤ} :
      Reachable vals → vals.IncrementProposerPriority times = .ok vals' → Reachable vals'
  | update {vals vals' : PrioritySet} {changes : List PriorityValidator} {key qh : Option Bytes} :
      Reachable vals → vals.UpdateWithChangeSet changes key qh = .ok vals' → Reachable vals'

theorem Reachable.settled {vals : PrioritySet} (h : Reachable vals) : vals.Settled := by
  induction h with
  | new h => exact .newValidatorSet h
  | increment _ h ih => exact ih.IncrementProposerPriorityWith PriorityArith.clipping_exactInRange h
  | update _ h ih => exact ih.updateWithChangeSetWith PriorityArith.clipping_exactInRange h

theorem Reachable.balanced {vals : PrioritySet} (h : Reachable vals) (hne : vals.validators ≠ []) :
    vals.Balanced :=
  h.settled.resolve_right fun ⟨hnil, _⟩ ↦ hne hnil

/-- The set `NewValidatorSet` returns for valid validators, a threshold key and a quorum hash. -/
theorem Reachable.fresh {valz : List PriorityValidator} (hne : valz ≠ [])
    (hnd : (valz.map (·.proTxHash)).Nodup) (hhash : ∀ v ∈ valz, v.proTxHash ≠ [])
    (h100 : ∀ v ∈ valz, v.votingPower = defaultDashVotingPower)
    (hT : valz.length * defaultDashVotingPower ≤ maxTotalVotingPower) (key qh : Bytes)
    (quorumType : ℕ) (hasPublicKeys : Bool) :
    Reachable ((freshValidatorSet valz (some key) quorumType (some qh) hasPublicKeys).afterRounds 1) :=
  .new (newValidatorSet_eq_ok quorumType hasPublicKeys hne hnd hhash h100 hT key qh)

/-! ## The priorities stay in the window -/

namespace PrioritySet

section balanced

variable {vals : PrioritySet} (h : vals.Balanced)
include h

/-- No two priorities of a balanced set are further apart than the window, twice the total
power. -/
theorem Balanced.priority_sub_le {a b : PriorityValidator} (ha : a ∈ vals.validators)
    (hb : b ∈ vals.validators) :
    a.proposerPriority - b.proposerPriority ≤
      priorityWindowSizeFactor * (vals.validators.map (·.votingPower)).sum := by
  have hs := h.roundRobin.spread a.toEntry (List.mem_map_of_mem ha) b.toEntry
    (List.mem_map_of_mem hb)
  rw [← h.totalVotingPower_eq, h.updatable.totalVotingPower_eq] at hs
  exact hs

/-- The priorities of a balanced set sum to a value in `[0, n)`. -/
theorem Balanced.sum_priorities_mem :
    0 ≤ (vals.validators.map (·.proposerPriority)).sum ∧
      (vals.validators.map (·.proposerPriority)).sum < vals.validators.length := by
  have hc := h.roundRobin.centered
  rw [Centered, credits_entries] at hc
  simpa [entries] using hc

end balanced

end PrioritySet

/-- On every set a node holds that has validators, no two priorities are further apart than
`PriorityWindowSizeFactor` times the total power, the priorities sum to a value in `[0, n)`,
and neither `IncrementProposerPriority` nor `UpdateWithChangeSet` clips: both compute what
exact arithmetic computes. -/
theorem reachable_priorities_in_window {vals : PrioritySet} (h : Reachable vals)
    (hne : vals.validators ≠ []) :
    (∀ a ∈ vals.validators, ∀ b ∈ vals.validators, a.proposerPriority - b.proposerPriority ≤
      priorityWindowSizeFactor * (vals.validators.map (·.votingPower)).sum) ∧
    (0 ≤ (vals.validators.map (·.proposerPriority)).sum ∧
      (vals.validators.map (·.proposerPriority)).sum < vals.validators.length) ∧
    (∀ times, vals.IncrementProposerPriority times =
      vals.IncrementProposerPriorityWith .exact times) ∧
    ∀ changes key qh, vals.UpdateWithChangeSet changes key qh =
      vals.updateWithChangeSetWith .exact changes true key qh := by
  have hb := h.balanced hne
  refine ⟨fun a ha b hb' ↦ hb.priority_sub_le ha hb', hb.sum_priorities_mem,
    hb.IncrementProposerPriority_eq_exact, fun changes key qh ↦ ?_⟩
  exact hb.updatable.updateWithChangeSetWith_eq_exact PriorityArith.clipping_exactInRange
    changes true key qh

/-- Three validators fresh from `NewValidatorSet`. -/
theorem reachable_priorities_in_window_fresh :
    let vals := (freshValidatorSet [⟨[1], none, 100, 0⟩, ⟨[2], none, 100, 0⟩, ⟨[3], none, 100, 0⟩]
      (some []) 0 (some []) false).afterRounds 1
    Reachable vals ∧ vals.validators ≠ [] ∧
    ((∀ a ∈ vals.validators, ∀ b ∈ vals.validators, a.proposerPriority - b.proposerPriority ≤
      priorityWindowSizeFactor * (vals.validators.map (·.votingPower)).sum) ∧
    (0 ≤ (vals.validators.map (·.proposerPriority)).sum ∧
      (vals.validators.map (·.proposerPriority)).sum < vals.validators.length) ∧
    (∀ times, vals.IncrementProposerPriority times =
      vals.IncrementProposerPriorityWith .exact times) ∧
    ∀ changes key qh, vals.UpdateWithChangeSet changes key qh =
      vals.updateWithChangeSetWith .exact changes true key qh) := by
  intro vals
  have hr : Reachable vals := .fresh (by decide) (by decide) (by decide) (by decide) (by decide)
    [] [] 0 false
  have hne : vals.validators ≠ [] := (balanced_freshValidatorSet (some []) (some []) 0 false
    (by decide) (by decide) (by decide) (by decide)).afterRounds 1 |>.ne_nil
  exact ⟨hr, hne, reachable_priorities_in_window hr hne⟩

/-- Three validators of powers 1, 2 and 2, priorities -6, 4 and 4 and total 5: their
priorities are 10 apart, within the window of twice the total, and sum to 2; one round moves
them 11 apart. -/
theorem priorities_in_window_counterexample :
    let vals : PrioritySet :=
      { validators := [⟨[1], none, 1, -6⟩, ⟨[2], none, 2, 4⟩, ⟨[3], none, 2, 4⟩], proposer := none,
        thresholdPublicKey := none, quorumHash := none, quorumType := 0, hasPublicKeys := false,
        totalVotingPower := 5 }
    vals.totalVotingPower = (vals.validators.map (·.votingPower)).sum ∧
    vals.totalVotingPower ≤ maxTotalVotingPower ∧
    (vals.IncrementProposerPriority 1).map (·.validators.map (·.proposerPriority)) =
      .ok [-5, 1, 6] ∧
    priorityWindowSizeFactor * vals.totalVotingPower < 6 - (-5) :=
  ⟨rfl, by decide, rfl, by decide⟩

/-! ## Splitting increments -/

namespace PrioritySet

theorem exactRound_withProposer (vals : PrioritySet) (p : Option PriorityValidator) :
    exactRound { vals with proposer := p } = { exactRound vals with proposer := p } :=
  rfl

theorem iterate_exactRound_withProposer (vals : PrioritySet) (p : Option PriorityValidator)
    (t : ℕ) : exactRound^[t] { vals with proposer := p } = { exactRound^[t] vals with proposer := p } := by
  induction t generalizing vals with
  | zero => rfl
  | succ t ih =>
    rw [Function.iterate_succ_apply, exactRound_withProposer, ih, Function.iterate_succ_apply]

theorem roundProposer_withProposer (vals : PrioritySet) (p : Option PriorityValidator) :
    roundProposer { vals with proposer := p } = vals.roundProposer :=
  rfl

/-- `s` rounds and then `t` rounds are `s + t` rounds: the rounds do not read the proposer
the first ones leave. -/
theorem afterRounds_afterRounds (vals : PrioritySet) (s t : ℕ) :
    (vals.afterRounds s).afterRounds t = vals.afterRounds (s + t) := by
  cases s with
  | zero => rw [Nat.zero_add]; rfl
  | succ s =>
    cases t with
    | zero => rfl
    | succ t =>
      simp only [afterRounds, iterate_exactRound_withProposer, roundProposer_withProposer,
        Nat.add_eq]
      rw [← Function.iterate_add_apply, ← Function.iterate_add_apply,
        show t + 1 + (s + 1) = s + 1 + t + 1 by omega, show t + (s + 1) = s + 1 + t by omega]

end PrioritySet

/-- On every set a node holds, `IncrementProposerPriority(a)` and then
`IncrementProposerPriority(b)`, for positive `a` and `b`, return what
`IncrementProposerPriority(a + b)` returns: the same priorities and the same proposer, or
the same panic. -/
theorem reachable_increment_split {vals : PrioritySet} (h : Reachable vals) {a b : ℤ}
    (ha : 0 < a) (hb : 0 < b) :
    (vals.IncrementProposerPriority a >>= fun v ↦ v.IncrementProposerPriority b) =
      vals.IncrementProposerPriority (a + b) := by
  have hc := PriorityArith.clipping_exactInRange
  rcases h.settled with hv | ⟨hnil, -⟩
  · rw [IncrementProposerPriority, hv.IncrementProposerPriorityWith hc ha, Except.ok_bind,
      IncrementProposerPriority, (hv.afterRounds _).IncrementProposerPriorityWith hc hb,
      IncrementProposerPriority, hv.IncrementProposerPriorityWith hc (by omega),
      afterRounds_afterRounds, Int.toNat_add ha.le hb.le]
  · simp only [IncrementProposerPriority, IncrementProposerPriorityWith_of_nil hnil]
    rfl

/-- Two increments of a fresh set of three validators. -/
theorem reachable_increment_split_fresh :
    let vals := (freshValidatorSet [⟨[1], none, 100, 0⟩, ⟨[2], none, 100, 0⟩, ⟨[3], none, 100, 0⟩]
      (some []) 0 (some []) false).afterRounds 1
    Reachable vals ∧ (0 : ℤ) < 1 ∧ (0 : ℤ) < 2 ∧
      (vals.IncrementProposerPriority 1 >>= fun v ↦ v.IncrementProposerPriority 2) =
        vals.IncrementProposerPriority (1 + 2) := by
  intro vals
  have hr : Reachable vals := .fresh (by decide) (by decide) (by decide) (by decide) (by decide)
    [] [] 0 false
  exact ⟨hr, by decide, by decide, reachable_increment_split hr (by decide) (by decide)⟩

/-! ## Fair proposer selection -/

/-- `m` calls of `IncrementProposerPriority(1)`, each followed by `GetProposer`, as
`TestProposerSelection3` makes them: the set after them and the hashes of the proposers
read. -/
def proposerRun : ℕ → PrioritySet → Except String (PrioritySet × List (Option Bytes))
  | 0, vals => pure (vals, [])
  | m + 1, vals => do
    let vals ← vals.IncrementProposerPriority 1
    let (vals, p) ← vals.getProposer
    let (vals, ps) ← proposerRun m vals
    pure (vals, p.map (·.proTxHash) :: ps)

namespace PrioritySet

theorem getProposer_of_proposer {vals : PrioritySet} (hne : vals.validators ≠ [])
    {p : PriorityValidator} (hp : vals.proposer = some p) :
    vals.getProposer = .ok (vals, some p) := by
  simp [getProposer, hne, hp]

/-- A round of a balanced set selects a validator: the one the round robin names. -/
theorem Balanced.roundProposer_spec {vals : PrioritySet} (h : vals.Balanced) :
    ∃ p, vals.roundProposer = some p ∧ chosen vals.entries = some p.toEntry.id := by
  obtain ⟨p, hp, -⟩ := h.incrementProposerPriorityWith PriorityArith.exact_exactInRange
  refine ⟨p, hp, ?_⟩
  unfold roundProposer at hp
  have hsel := List.find?_some hp
  exact of_decide_eq_true hsel

/-- On a balanced set, the run reads the proposers the round robin selects. -/
theorem Balanced.proposerRun {vals : PrioritySet} (h : vals.Balanced) (m : ℕ) :
    ∃ vals' ps, Tenderdash.proposerRun m vals = .ok (vals', ps) ∧
      ps.map (·.map (List.map UInt8.toNat)) = (schedule m vals.entries).map some := by
  induction m generalizing vals with
  | zero => exact ⟨vals, [], rfl, rfl⟩
  | succ m ih =>
    obtain ⟨p, hp, hc⟩ := h.roundProposer_spec
    have h₁ := h.afterRounds 1
    obtain ⟨vals', ps, hrun, hps⟩ := ih h₁
    have hget : (vals.afterRounds 1).getProposer = .ok (vals.afterRounds 1, some p) :=
      getProposer_of_proposer h₁.ne_nil hp
    refine ⟨vals', some p.proTxHash :: ps, ?_, ?_⟩
    · rw [Tenderdash.proposerRun, IncrementProposerPriority,
        h.IncrementProposerPriorityWith PriorityArith.clipping_exactInRange Int.one_pos]
      simp only [Int.toNat_one, Except.ok_bind, hget, hrun]
      rfl
    · rw [List.map_cons, hps, entries_afterRounds h 1, schedule, hc]
      rfl

/-- Over `m` rounds of a balanced set of `n` validators, each is read as proposer `m / n`
times up to `4`. -/
theorem Balanced.proposerRun_fair {vals : PrioritySet} (h : vals.Balanced) (m : ℕ) :
    ∃ vals' ps, Tenderdash.proposerRun m vals = .ok (vals', ps) ∧ ∀ v ∈ vals.validators,
      |(vals.validators.length : ℤ) * ps.count (some v.proTxHash) - m| ≤
        4 * vals.validators.length := by
  obtain ⟨vals', ps, hrun, hps⟩ := h.proposerRun m
  refine ⟨vals', ps, hrun, fun v hv ↦ ?_⟩
  have hf : Function.Injective (Option.map (List.map UInt8.toNat)) :=
    Option.map_injective map_toNat_injective
  have hcount : ps.count (some v.proTxHash) = (schedule m vals.entries).count v.toEntry.id := by
    rw [← List.count_map_of_injective ps _ hf, hps, Option.map_some, ← id_toEntry,
      List.count_map_of_injective _ _ (Option.some_injective _)]
  have hnear := count_schedule_near h.roundRobin (by decide) m (List.mem_map_of_mem hv)
  have hlen : vals.entries.length = vals.validators.length := List.length_map _
  rw [hlen] at hnear
  rw [hcount]
  convert hnear

/-- On a set fresh from `NewValidatorSet`, the proposer `GetProposer` reads, and then the
proposers of the rounds, run through the validators in increasing order of `ProTxHash`,
cyclically. -/
theorem newValidatorSet_proposers_cycle {valz : List PriorityValidator} (hne : valz ≠ [])
    {key qh : Option Bytes} {quorumType : ℕ} {hasPublicKeys : Bool} {vals : PrioritySet}
    (h : newValidatorSet valz key quorumType qh hasPublicKeys = .ok vals) :
    let order := (valz.mergeSort fun a b ↦ decide (a.proTxHash ≤ b.proTxHash)).map (·.proTxHash)
    order.Perm (valz.map (·.proTxHash)) ∧ order.Nodup ∧
      ∃ p, vals.getProposer = .ok (vals, some p) ∧ ∀ m, ∃ vals' ps,
        Tenderdash.proposerRun m vals = .ok (vals', ps) ∧
          some p.proTxHash :: ps = (List.range (m + 1)).map fun j ↦ order[j % order.length]? := by
  intro order
  obtain ⟨hnd, -, h100, hT, rfl⟩ := newValidatorSet_valid key qh quorumType hasPublicKeys hne h
  have hperm : order.Perm (valz.map (·.proTxHash)) := (List.mergeSort_perm _ _).map _
  have hF := balanced_freshValidatorSet key qh quorumType hasPublicKeys hne hnd h100 hT
  set F := freshValidatorSet valz key quorumType qh hasPublicKeys
  obtain ⟨p, hp, hc⟩ := hF.roundProposer_spec
  refine ⟨hperm, hperm.nodup_iff.mpr hnd, p, getProposer_of_proposer (hF.afterRounds 1).ne_nil hp,
    fun m ↦ ?_⟩
  obtain ⟨vals', ps, hrun, hps⟩ := (hF.afterRounds 1).proposerRun m
  refine ⟨vals', ps, hrun, ?_⟩
  have hids : F.entries.map Entry.id = order.map (List.map UInt8.toNat) := by
    rw [entries, validators_freshValidatorSet, List.map_map, List.map_map, List.map_map]
    rfl
  have hsort : (F.entries.map Entry.id).Pairwise (· < ·) := by
    have hs := SortedByHash.map_withPriority (sortedByHash_mergeSort hnd) fun _ ↦ 0
    rw [entries, validators_freshValidatorSet, List.map_map, List.pairwise_map]
    exact hs
  have hzero : ∀ e ∈ F.entries, e.credit = 0 := by
    intro e he
    obtain ⟨v, hv, rfl⟩ := List.mem_map.mp he
    rw [validators_freshValidatorSet] at hv
    obtain ⟨w, -, rfl⟩ := List.mem_map.mp hv
    rfl
  have hlen : F.entries.length = order.length := by
    simpa using congrArg List.length hids
  have hlhs : (some p.proTxHash :: ps).map (Option.map (List.map UInt8.toNat)) =
      (schedule (m + 1) F.entries).map some := by
    rw [List.map_cons, hps, entries_afterRounds hF 1, schedule, hc]
    rfl
  apply List.map_injective_iff.mpr (Option.map_injective map_toNat_injective)
  rw [hlhs, schedule_cycle hF.roundRobin.uniform (by decide) hsort hzero hF.roundRobin.ne_nil,
    List.map_map]
  refine List.map_congr_left fun j _ ↦ ?_
  rw [Function.comp_apply, hids, hlen, List.getElem?_map]

end PrioritySet

/-- Proposer selection is fair: on every set a node holds with `n` validators, over `m`
consecutive `IncrementProposerPriority(1)` calls each validator is read as proposer `m / n`
times up to `4`, whatever `m` and the priorities; and on a set fresh from `NewValidatorSet`
the proposers run through the validators in increasing order of `ProTxHash`, each once in
every `n` consecutive rounds. -/
theorem proposer_selection_fair :
    (∀ vals, Reachable vals → vals.validators ≠ [] → ∀ m, ∃ vals' ps,
      proposerRun m vals = .ok (vals', ps) ∧ ∀ v ∈ vals.validators,
        |(vals.validators.length : ℤ) * ps.count (some v.proTxHash) - m| ≤
          4 * vals.validators.length) ∧
    ∀ valz key quorumType qh hasPublicKeys vals, valz ≠ [] →
      newValidatorSet valz key quorumType qh hasPublicKeys = .ok vals →
      let order := (valz.mergeSort fun a b ↦ decide (a.proTxHash ≤ b.proTxHash)).map (·.proTxHash)
      order.Perm (valz.map (·.proTxHash)) ∧ order.Nodup ∧
        ∃ p, vals.getProposer = .ok (vals, some p) ∧ ∀ m, ∃ vals' ps,
          proposerRun m vals = .ok (vals', ps) ∧
            some p.proTxHash :: ps = (List.range (m + 1)).map fun j ↦ order[j % order.length]? :=
  ⟨fun _ h hne m ↦ (h.balanced hne).proposerRun_fair m,
    fun _ _ _ _ _ _ hne h ↦ newValidatorSet_proposers_cycle hne h⟩

/-- Three validators fresh from `NewValidatorSet`, over six rounds. -/
theorem proposer_selection_fair_three :
    let valz : List PriorityValidator :=
      [⟨[1], none, 100, 0⟩, ⟨[2], none, 100, 0⟩, ⟨[3], none, 100, 0⟩]
    let vals := (freshValidatorSet valz (some []) 0 (some []) false).afterRounds 1
    (Reachable vals ∧ vals.validators ≠ [] ∧ ∃ vals' ps,
      proposerRun 6 vals = .ok (vals', ps) ∧ ∀ v ∈ vals.validators,
        |(vals.validators.length : ℤ) * ps.count (some v.proTxHash) - ((6 : ℕ) : ℤ)| ≤
          4 * vals.validators.length) ∧
    (valz ≠ [] ∧ newValidatorSet valz (some []) 0 (some []) false = .ok vals ∧
      let order := (valz.mergeSort fun a b ↦ decide (a.proTxHash ≤ b.proTxHash)).map (·.proTxHash)
      order.Perm (valz.map (·.proTxHash)) ∧ order.Nodup ∧
        ∃ p, vals.getProposer = .ok (vals, some p) ∧ ∀ m, ∃ vals' ps,
          proposerRun m vals = .ok (vals', ps) ∧
            some p.proTxHash :: ps = (List.range (m + 1)).map fun j ↦ order[j % order.length]?) := by
  intro valz vals
  have hnew : newValidatorSet valz (some []) 0 (some []) false = .ok vals :=
    newValidatorSet_eq_ok 0 false (by decide) (by decide) (by decide) (by decide) (by decide) [] []
  have hr : Reachable vals := .new hnew
  have hne : vals.validators ≠ [] := (balanced_freshValidatorSet (some []) (some []) 0 false
    (by decide) (by decide) (by decide) (by decide)).afterRounds 1 |>.ne_nil
  exact ⟨⟨hr, hne, proposer_selection_fair.1 vals hr hne 6⟩,
    ⟨by decide, hnew, proposer_selection_fair.2 valz (some []) 0 (some []) false vals (by decide) hnew⟩⟩

end Tenderdash
