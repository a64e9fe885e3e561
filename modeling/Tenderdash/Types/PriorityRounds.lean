import Tenderdash.Types.Priority
import Tenderdash.Lib.RoundRobin

/-!
# Proposer selection is a smooth weighted round robin

The priorities of a validator set are the credits of `RoundRobin` over the validators'
`ProTxHash`es (as byte strings, ordered as `bytes.Compare` orders them), with the voting
powers as weights.  On a `Balanced` set — the invariant every set the code builds keeps:
powers all `DefaultDashVotingPower`, distinct hashes, the cached total correct and within
`MaxTotalVotingPower`, priorities within twice the total and centered —
`IncrementProposerPriority(t)` rescales and centers nothing, never clips, and runs `t`
exact rounds of the round robin (`IncrementProposerPriorityWith_eq`).  Everything about
proposer selection on such sets is then a fact of `RoundRobin`.
-/

namespace Tenderdash

open RoundRobin PriorityValidator

theorem maxTotalVotingPower_eq : (maxTotalVotingPower : ℤ) = 1152921504606846975 := by
  norm_num [maxTotalVotingPower]

/-! ## Hashes as names -/

/-- `bytes.Compare` orders byte strings as their byte values compare, lexicographically. -/
theorem bytes_lt_iff {a b : Bytes} : a < b ↔ a.map UInt8.toNat < b.map UInt8.toNat := by
  induction a generalizing b with
  | nil => cases b <;> simp
  | cons x xs ih =>
    cases b with
    | nil => simp
    | cons y ys =>
      simp only [List.cons_lt_cons_iff, List.map_cons, ih, UInt8.lt_iff_toNat_lt]
      constructor
      · rintro (h | ⟨rfl, h⟩)
        · exact .inl h
        · exact .inr ⟨rfl, h⟩
      · rintro (h | ⟨h, h'⟩)
        · exact .inl h
        · exact .inr ⟨UInt8.toNat_inj.mp h, h'⟩

theorem map_toNat_injective : Function.Injective (List.map UInt8.toNat) :=
  List.map_injective_iff.mpr fun _ _ h ↦ UInt8.toNat_inj.mp h

namespace PriorityValidator

/-- The validator as a participant of the round robin. -/
def toEntry (v : PriorityValidator) : Entry (List ℕ) :=
  ⟨v.proTxHash.map UInt8.toNat, v.votingPower, v.proposerPriority⟩

@[simp] theorem id_toEntry (v : PriorityValidator) : v.toEntry.id = v.proTxHash.map UInt8.toNat :=
  rfl
@[simp] theorem weight_toEntry (v : PriorityValidator) : v.toEntry.weight = v.votingPower := rfl
@[simp] theorem credit_toEntry (v : PriorityValidator) : v.toEntry.credit = v.proposerPriority :=
  rfl

theorem toEntry_withPriority (v : PriorityValidator) (p : ℤ) :
    (v.withPriority p).toEntry = { v.toEntry with credit := p } := rfl

theorem toEntry_id_inj {v w : PriorityValidator} (h : v.toEntry.id = w.toEntry.id) :
    v.proTxHash = w.proTxHash :=
  map_toNat_injective h

/-- The validator's priority after an exact round that selects the name `c` and charges `t`. -/
def afterRound (v : PriorityValidator) (c : Option (List ℕ)) (t : ℤ) : PriorityValidator :=
  v.withPriority (v.proposerPriority + v.votingPower - if c = some v.toEntry.id then t else 0)

end PriorityValidator

namespace PrioritySet

/-- The set's validators as participants of the round robin. -/
def entries (vals : PrioritySet) : List (Entry (List ℕ)) := vals.validators.map toEntry

theorem nodup_entries_iff {vals : PrioritySet} :
    (vals.entries.map Entry.id).Nodup ↔ (vals.validators.map (·.proTxHash)).Nodup := by
  have hmap : vals.entries.map Entry.id = (vals.validators.map (·.proTxHash)).map
      (List.map UInt8.toNat) := by simp [entries, Function.comp_def]
  rw [hmap]
  exact ⟨List.Nodup.of_map _, List.Nodup.map map_toNat_injective⟩

theorem credits_entries (vals : PrioritySet) :
    credits vals.entries = (vals.validators.map (·.proposerPriority)).sum := by
  simp [credits, entries, Function.comp_def]

@[simp] theorem entries_mapPriorities (vals : PrioritySet) (f : ℤ → ℤ) :
    (vals.mapPriorities f).entries = vals.entries.map fun e ↦ { e with credit := f e.credit } := by
  simp [entries, mapPriorities, Function.comp_def, toEntry_withPriority]

theorem mapPriorities_eq_self {vals : PrioritySet} {f : ℤ → ℤ}
    (h : ∀ v ∈ vals.validators, f v.proposerPriority = v.proposerPriority) :
    vals.mapPriorities f = vals := by
  unfold mapPriorities
  congr 1
  conv_rhs => rw [← List.map_id vals.validators]
  refine List.map_congr_left fun v hv ↦ ?_
  simp [withPriority, h v hv]

/-! ## The invariant -/

/-- The invariant of the sets the code builds: the round robin of its entries is balanced
with weight `DefaultDashVotingPower`, and the cached total is the total, within
`MaxTotalVotingPower`. -/
structure Balanced (vals : PrioritySet) : Prop where
  roundRobin : RoundRobin.Balanced defaultDashVotingPower vals.entries
  totalVotingPower_eq : vals.totalVotingPower = total vals.entries
  total_le : vals.totalVotingPower ≤ maxTotalVotingPower

section balanced

variable {vals : PrioritySet} (h : vals.Balanced)
include h

theorem Balanced.ne_nil : vals.validators ≠ [] := by
  have := h.roundRobin.ne_nil
  simpa [entries] using this

theorem Balanced.nodup : (vals.validators.map (·.proTxHash)).Nodup :=
  nodup_entries_iff.mp h.roundRobin.nodup

theorem Balanced.votingPower {v : PriorityValidator} (hv : v ∈ vals.validators) :
    v.votingPower = defaultDashVotingPower :=
  h.roundRobin.uniform v.toEntry (List.mem_map_of_mem hv)

theorem Balanced.totalVotingPower_eq_mul :
    vals.totalVotingPower = vals.validators.length * defaultDashVotingPower := by
  rw [h.totalVotingPower_eq, total_of_uniform h.roundRobin.uniform]
  simp [entries]

theorem Balanced.totalVotingPower_pos : 100 ≤ vals.totalVotingPower := by
  have hlen : 1 ≤ vals.validators.length := List.length_pos_iff.mpr h.ne_nil
  rw [h.totalVotingPower_eq_mul, defaultDashVotingPower]
  omega

/-- Every priority of a balanced set lies within twice the total. -/
theorem Balanced.priority_mem {v : PriorityValidator} (hv : v ∈ vals.validators) :
    -(2 * vals.totalVotingPower) ≤ v.proposerPriority ∧
      v.proposerPriority ≤ 2 * vals.totalVotingPower := by
  have := h.roundRobin.credit_mem (List.mem_map_of_mem (f := toEntry) hv)
  rw [← h.totalVotingPower_eq] at this
  exact this

/-- The priorities of a balanced set, and what a round adds to them, are far inside
`int64`. -/
theorem Balanced.priority_bound {v : PriorityValidator} (hv : v ∈ vals.validators) :
    -2305843009213693950 ≤ v.proposerPriority ∧ v.proposerPriority ≤ 2305843009213693950 := by
  have hp := h.priority_mem hv
  have ht := h.total_le
  rw [maxTotalVotingPower_eq] at ht
  omega

end balanced

/-! ## Totals, rescaling and centering on a balanced set -/

theorem TotalVotingPower_of_ne_zero {vals : PrioritySet} (h : vals.totalVotingPower ≠ 0) :
    vals.TotalVotingPower = .ok (vals, vals.totalVotingPower) := by
  simp [TotalVotingPower, h]

theorem maxMinStep_spec (acc : ℤ × ℤ) (v : PriorityValidator) :
    ((maxMinStep acc v).1 = acc.1 ∨ (maxMinStep acc v).1 = v.proposerPriority) ∧
      acc.1 ≤ (maxMinStep acc v).1 ∧ v.proposerPriority ≤ (maxMinStep acc v).1 ∧
      ((maxMinStep acc v).2 = acc.2 ∨ (maxMinStep acc v).2 = v.proposerPriority) ∧
      (maxMinStep acc v).2 ≤ acc.2 ∧ (maxMinStep acc v).2 ≤ v.proposerPriority := by
  unfold maxMinStep
  refine ⟨?_, ?_, ?_, ?_, ?_, ?_⟩ <;> split <;> simp <;> omega

/-- The scan for the largest and the smallest priority ends on values it has seen, or on
its start, and bounds every value seen. -/
theorem foldl_maxMinStep_spec (vs : List PriorityValidator) (acc : ℤ × ℤ) :
    let r := vs.foldl maxMinStep acc
    (r.1 = acc.1 ∨ ∃ a ∈ vs, r.1 = a.proposerPriority) ∧ acc.1 ≤ r.1 ∧
      (∀ a ∈ vs, a.proposerPriority ≤ r.1) ∧
      (r.2 = acc.2 ∨ ∃ b ∈ vs, r.2 = b.proposerPriority) ∧ r.2 ≤ acc.2 ∧
      (∀ b ∈ vs, r.2 ≤ b.proposerPriority) := by
  induction vs generalizing acc with
  | nil => simp
  | cons v vs ih =>
    obtain ⟨h₁, h₂, h₃, h₄, h₅, h₆⟩ := ih (maxMinStep acc v)
    obtain ⟨s₁, s₂, s₃, s₄, s₅, s₆⟩ := maxMinStep_spec acc v
    simp only [List.foldl_cons, List.mem_cons, forall_eq_or_imp, exists_eq_or_imp]
    refine ⟨?_, by omega, ⟨by omega, h₃⟩, ?_, by omega, ⟨by omega, h₆⟩⟩
    · rcases h₁ with h₁ | h₁
      · rcases s₁ with s₁ | s₁
        · exact .inl (h₁.trans s₁)
        · exact .inr (.inl (h₁.trans s₁))
      · exact .inr (.inr h₁)
    · rcases h₄ with h₄ | h₄
      · rcases s₄ with s₄ | s₄
        · exact .inl (h₄.trans s₄)
        · exact .inr (.inl (h₄.trans s₄))
      · exact .inr (.inr h₄)

/-- On priorities of magnitude at most `B`, with `2 * B` an `int64`, the spread the code
computes is exact: the distance between the largest and the smallest priority. -/
theorem computeMaxMinPriorityDiff_eq {vals : PrioritySet} (hne : vals.validators ≠ []) {B : ℤ}
    (hB : 2 * B ≤ I64.maxValue)
    (hb : ∀ v ∈ vals.validators, -B ≤ v.proposerPriority ∧ v.proposerPriority ≤ B) :
    ∃ a ∈ vals.validators, ∃ b ∈ vals.validators,
      vals.computeMaxMinPriorityDiff = .ok (a.proposerPriority - b.proposerPriority) ∧
      ∀ x ∈ vals.validators, b.proposerPriority ≤ x.proposerPriority ∧
        x.proposerPriority ≤ a.proposerPriority := by
  obtain ⟨v₀, hv₀⟩ := List.exists_mem_of_ne_nil _ hne
  have hbv₀ := hb v₀ hv₀
  unfold I64.maxValue at hB
  obtain ⟨h₁, h₂, h₃, h₄, h₅, h₆⟩ :=
    foldl_maxMinStep_spec vals.validators (I64.minValue, I64.maxValue)
  set r := vals.validators.foldl maxMinStep (I64.minValue, I64.maxValue)
  obtain ⟨a, ha, hra⟩ : ∃ a ∈ vals.validators, r.1 = a.proposerPriority := by
    rcases h₁ with h₁ | h₁
    · refine ⟨v₀, hv₀, ?_⟩
      have := h₃ v₀ hv₀
      unfold I64.minValue at h₁
      omega
    · exact h₁
  obtain ⟨b, hb', hrb⟩ : ∃ b ∈ vals.validators, r.2 = b.proposerPriority := by
    rcases h₄ with h₄ | h₄
    · refine ⟨v₀, hv₀, ?_⟩
      have := h₆ v₀ hv₀
      unfold I64.maxValue at h₄
      omega
    · exact h₄
  have hba := hb a ha
  have hbb := hb b hb'
  have hrange : I64.InRange (a.proposerPriority - b.proposerPriority) := by
    unfold I64.InRange I64.minValue I64.maxValue
    omega
  have hnonneg : 0 ≤ a.proposerPriority - b.proposerPriority := by
    have := h₃ b hb'
    omega
  refine ⟨a, ha, b, hb', ?_, fun x hx ↦ ⟨hrb ▸ h₆ x hx, hra ▸ h₃ x hx⟩⟩
  have hnot : ¬ I64.wrap (a.proposerPriority - b.proposerPriority) < 0 := by
    rw [I64.wrap_of_inRange hrange]
    omega
  simp only [computeMaxMinPriorityDiff, List.isEmpty_iff, hne, if_false]
  rw [hra, hrb, if_neg hnot, I64.wrap_of_inRange hrange]
  rfl

section balanced

variable {vals : PrioritySet} (h : vals.Balanced)
include h

/-- Twice the total of a balanced set is an `int64`. -/
theorem Balanced.wrap_diffMax :
    I64.wrap (priorityWindowSizeFactor * vals.totalVotingPower) = 2 * vals.totalVotingPower := by
  have ht := h.total_le
  have hp := h.totalVotingPower_pos
  rw [maxTotalVotingPower_eq] at ht
  rw [priorityWindowSizeFactor, I64.wrap_of_inRange]
  unfold I64.InRange I64.minValue I64.maxValue
  omega

/-- A balanced set is within the window already: rescaling changes nothing. -/
theorem Balanced.rescalePriorities :
    vals.rescalePriorities (2 * vals.totalVotingPower) = .ok vals := by
  have hp := h.totalVotingPower_pos
  have ht := h.total_le
  rw [maxTotalVotingPower_eq] at ht
  obtain ⟨a, ha, b, hb, hdiff, -⟩ := computeMaxMinPriorityDiff_eq h.ne_nil
    (B := 2305843009213693950) (by unfold I64.maxValue; omega) fun v hv ↦ h.priority_bound hv
  have hspread : a.proposerPriority - b.proposerPriority ≤ 2 * vals.totalVotingPower := by
    have := h.roundRobin.spread a.toEntry (List.mem_map_of_mem ha) b.toEntry (List.mem_map_of_mem hb)
    rw [← h.totalVotingPower_eq] at this
    exact this
  have hnot : ¬ (a.proposerPriority - b.proposerPriority > 2 * vals.totalVotingPower ∧
      (I64.wrap (I64.wrap (a.proposerPriority - b.proposerPriority + 2 * vals.totalVotingPower) -
        1)).tdiv (2 * vals.totalVotingPower) ≠ 0) := fun hc ↦ by omega
  have hnpos : ¬ 2 * vals.totalVotingPower ≤ 0 := by omega
  simp only [PrioritySet.rescalePriorities, List.isEmpty_iff, h.ne_nil, if_false, hnpos, hdiff,
    Except.ok_bind]
  rw [if_neg hnot]
  rfl

/-- The priorities of a balanced set average to zero, rounded down. -/
theorem Balanced.computeAvgProposerPriority : vals.computeAvgProposerPriority = .ok 0 := by
  have hc := h.roundRobin.centered
  unfold Centered at hc
  rw [credits_entries] at hc
  have hlen : (vals.entries.length : ℤ) = vals.validators.length := by simp [entries]
  rw [hlen] at hc
  have havg : (vals.validators.map (·.proposerPriority)).sum / (vals.validators.length : ℤ) = 0 :=
    Int.ediv_eq_zero_of_lt hc.1 hc.2
  simp only [PrioritySet.computeAvgProposerPriority, havg]
  rfl

/-- A balanced set is centered already: the shift changes nothing, and never clips. -/
theorem Balanced.shiftByAvgProposerPriorityWith {ar : PriorityArith} (har : ar.ExactInRange) :
    vals.shiftByAvgProposerPriorityWith ar = .ok vals := by
  simp only [PrioritySet.shiftByAvgProposerPriorityWith, List.isEmpty_iff, h.ne_nil, if_false,
    h.computeAvgProposerPriority, Except.ok_bind]
  rw [mapPriorities_eq_self]
  · rfl
  · intro v hv
    have hb := h.priority_bound hv
    rw [har.sub _ _ (by unfold I64.InRange I64.minValue I64.maxValue; omega)]
    omega

end balanced

/-! ## Selection -/

/-- `CompareProposerPriority` between validators of distinct hashes keeps the preferred one,
as the round robin prefers. -/
theorem compareProposerPriority_some {v x : PriorityValidator × ℕ}
    (hne : v.1.proTxHash ≠ x.1.proTxHash) :
    compareProposerPriority (some v) x =
      .ok (if x.1.toEntry.Beats v.1.toEntry then x else v) := by
  have hid : v.1.proTxHash.map UInt8.toNat ≠ x.1.proTxHash.map UInt8.toNat :=
    fun h ↦ hne (map_toNat_injective h)
  have hbeats : x.1.toEntry.Beats v.1.toEntry ↔ v.1.proposerPriority < x.1.proposerPriority ∨
      (x.1.proposerPriority = v.1.proposerPriority ∧
        x.1.proTxHash.map UInt8.toNat < v.1.proTxHash.map UInt8.toNat) := by
    simp [Entry.Beats]
  unfold compareProposerPriority
  simp only [gt_iff_lt]
  rcases lt_trichotomy v.1.proposerPriority x.1.proposerPriority with hp | hp | hp
  · rw [if_neg (Int.not_lt.mpr (Int.le_of_lt hp)), if_pos hp, if_pos (hbeats.mpr (.inl hp))]
    rfl
  · rw [if_neg (by omega), if_neg (by omega)]
    rcases lt_trichotomy (v.1.proTxHash.map UInt8.toNat) (x.1.proTxHash.map UInt8.toNat) with
      hh | hh | hh
    · have hnb : ¬ x.1.toEntry.Beats v.1.toEntry := by
        rw [hbeats]
        rintro (h | ⟨-, h⟩)
        · omega
        · exact not_lt_of_gt hh h
      rw [if_pos (bytes_lt_iff.mpr hh), if_neg hnb]
      rfl
    · exact absurd hh hid
    · rw [if_neg (fun h ↦ not_lt_of_gt hh (bytes_lt_iff.mp h)), if_pos (bytes_lt_iff.mpr hh),
        if_pos (hbeats.mpr (.inr ⟨hp.symm, hh⟩))]
      rfl
  · have hnb : ¬ x.1.toEntry.Beats v.1.toEntry := by
      rw [hbeats]
      rintro (h | ⟨h, -⟩) <;> omega
    rw [if_pos hp, if_neg hnb]
    rfl

/-- The scan of `getValWithMostPriority` over distinct hashes keeps a pointer into the set,
to the validator the round robin's scan keeps. -/
theorem mostPriorityFrom_eq (full : List PriorityValidator) :
    ∀ (rest : List PriorityValidator) (i : ℕ) (r : PriorityValidator × ℕ),
      rest = full.drop i → full[r.2]? = some r.1 → ((r.1 :: rest).map (·.proTxHash)).Nodup →
      ∃ q : PriorityValidator × ℕ, mostPriorityFrom i (some r) rest = .ok (some q) ∧
        full[q.2]? = some q.1 ∧ q.1.toEntry = (rest.map toEntry).foldl better r.1.toEntry := by
  intro rest
  induction rest with
  | nil => intro i r _ hr _; exact ⟨r, rfl, hr, rfl⟩
  | cons y ys ih =>
    intro i r hrest hr hnd
    simp only [List.map_cons, List.nodup_cons, List.mem_cons, not_or] at hnd
    obtain ⟨⟨hry, hrys⟩, hy, hys⟩ := hnd
    have hfull : full[i]? = some y := by
      have := congrArg (·[0]?) hrest
      simpa [List.getElem?_drop] using this.symm
    have hdrop : ys = full.drop (i + 1) := by
      rw [← List.drop_drop, ← hrest]
      rfl
    set r' := if y.toEntry.Beats r.1.toEntry then (y, i) else r with hr'
    have hcmp : compareProposerPriority (some r) (y, i) = .ok r' := compareProposerPriority_some hry
    have hr'full : full[r'.2]? = some r'.1 := by
      rw [hr']
      split
      · exact hfull
      · exact hr
    have hr'nd : ((r'.1 :: ys).map (·.proTxHash)).Nodup := by
      simp only [List.map_cons, List.nodup_cons]
      refine ⟨?_, hys⟩
      rw [hr']
      split
      · exact hy
      · exact hrys
    obtain ⟨q, hq, hqfull, hqentry⟩ := ih (i + 1) r' hdrop hr'full hr'nd
    refine ⟨q, ?_, hqfull, ?_⟩
    · simp only [mostPriorityFrom, hcmp, Except.ok_bind]
      exact hq
    · rw [hqentry, List.map_cons, List.foldl_cons]
      congr 1
      rw [hr', better]
      split <;> rfl

/-- On distinct hashes, `getValWithMostPriority` points at the validator the round robin
selects. -/
theorem getValWithMostPriority_eq {vals : PrioritySet} (hne : vals.validators ≠ [])
    (hnd : (vals.validators.map (·.proTxHash)).Nodup) :
    ∃ m i, vals.getValWithMostPriority = .ok (some (m, i)) ∧ vals.validators[i]? = some m ∧
      select vals.entries = some m.toEntry := by
  obtain ⟨v, vs, hvs⟩ := List.exists_cons_of_ne_nil hne
  obtain ⟨q, hq, hqfull, hqentry⟩ := mostPriorityFrom_eq vals.validators vs 1 (v, 0)
    (by simp [hvs]) (by simp [hvs]) (by rw [← hvs]; exact hnd)
  refine ⟨q.1, q.2, ?_, hqfull, ?_⟩
  · simp only [getValWithMostPriority, hvs, mostPriorityFrom, compareProposerPriority]
    exact hq
  · simp [entries, hvs, select, hqentry]

/-! ## Rounds -/

@[simp] theorem withPriority_withPriority (v : PriorityValidator) (p q : ℤ) :
    (v.withPriority p).withPriority q = v.withPriority q := rfl

@[simp] theorem withPriority_self (v : PriorityValidator) : v.withPriority v.proposerPriority = v :=
  rfl

/-- One exact round of the round robin on the set: every priority gains its power, and the
validator it selects pays the cached total. -/
def exactRound (vals : PrioritySet) : PrioritySet :=
  { vals with
    validators := vals.validators.map fun v ↦ v.afterRound (chosen vals.entries) vals.totalVotingPower }

/-- The validator the round selects, as it is after the round. -/
def roundProposer (vals : PrioritySet) : Option PriorityValidator :=
  vals.exactRound.validators.find? fun v ↦ chosen vals.entries = some v.toEntry.id

/-- The set after `t` exact rounds, with the last round's proposer. -/
def afterRounds (vals : PrioritySet) : ℕ → PrioritySet
  | 0 => vals
  | t + 1 => { exactRound^[t + 1] vals with proposer := (exactRound^[t] vals).roundProposer }

@[simp] theorem totalVotingPower_exactRound (vals : PrioritySet) :
    vals.exactRound.totalVotingPower = vals.totalVotingPower := rfl

@[simp] theorem length_exactRound (vals : PrioritySet) :
    vals.exactRound.validators.length = vals.validators.length := by simp [exactRound]

theorem entries_exactRound {vals : PrioritySet} (h : vals.totalVotingPower = total vals.entries) :
    vals.exactRound.entries = step vals.entries := by
  rw [step_eq_map, entries, exactRound, entries, List.map_map, List.map_map, h]
  refine List.map_congr_left fun v _ ↦ ?_
  by_cases hc : chosen (vals.validators.map toEntry) = some (v.proTxHash.map UInt8.toNat) <;>
    simp [afterRound, toEntry_withPriority, hc, PrioritySet.entries]

theorem map_proTxHash_exactRound (vals : PrioritySet) :
    vals.exactRound.validators.map (·.proTxHash) = vals.validators.map (·.proTxHash) := by
  simp [exactRound, afterRound, Function.comp_def]

/-- A round keeps a set balanced. -/
theorem Balanced.exactRound {vals : PrioritySet} (h : vals.Balanced) : vals.exactRound.Balanced where
  roundRobin := by
    rw [entries_exactRound h.totalVotingPower_eq]
    exact h.roundRobin.step
  totalVotingPower_eq := by
    rw [totalVotingPower_exactRound, entries_exactRound h.totalVotingPower_eq, total_step]
    exact h.totalVotingPower_eq
  total_le := h.total_le

theorem Balanced.iterate_exactRound {vals : PrioritySet} (h : vals.Balanced) (t : ℕ) :
    (PrioritySet.exactRound^[t] vals).Balanced := by
  induction t with
  | zero => exact h
  | succ t ih =>
    rw [Function.iterate_succ_apply']
    exact ih.exactRound

theorem entries_iterate_exactRound {vals : PrioritySet} (h : vals.Balanced) (t : ℕ) :
    (exactRound^[t] vals).entries = step^[t] vals.entries := by
  induction t with
  | zero => rfl
  | succ t ih =>
    rw [Function.iterate_succ_apply', Function.iterate_succ_apply',
      entries_exactRound (h.iterate_exactRound t).totalVotingPower_eq, ih]

/-- The first element that satisfies a predicate no other element satisfies. -/
theorem find?_eq_some_of_unique {l : List PriorityValidator} {p : PriorityValidator → Bool}
    {x : PriorityValidator} (hx : x ∈ l) (hp : p x) (huniq : ∀ y ∈ l, p y → y = x) :
    l.find? p = some x := by
  obtain ⟨y, hy⟩ := Option.isSome_iff_exists.mp (List.find?_isSome.mpr ⟨x, hx, hp⟩)
  rw [hy, huniq y (List.mem_of_find?_eq_some hy) (List.find?_some hy)]

section balanced

variable {vals : PrioritySet} (h : vals.Balanced)
include h

/-- Validators of a balanced set with one hash are one validator. -/
theorem Balanced.getElem_inj {i j : ℕ} (hi : i < vals.validators.length)
    (hj : j < vals.validators.length)
    (heq : vals.validators[i].proTxHash = vals.validators[j].proTxHash) : i = j := by
  have hv : vals.validators[i] = vals.validators[j] :=
    List.inj_on_of_nodup_map h.nodup (List.getElem_mem hi) (List.getElem_mem hj) heq
  exact (List.Nodup.getElem_inj_iff (List.Nodup.of_map _ h.nodup)).mp hv

/-- A validator of the selected name, after the round, is the round's proposer. -/
theorem Balanced.roundProposer_eq {m : PriorityValidator} (hm : m ∈ vals.exactRound.validators)
    (hc : chosen vals.entries = some m.toEntry.id) : vals.roundProposer = some m := by
  refine find?_eq_some_of_unique hm (by simp [hc]) fun y hy hpy ↦ ?_
  have hnd : (vals.exactRound.validators.map (·.proTxHash)).Nodup := by
    rw [map_proTxHash_exactRound]
    exact h.nodup
  have hid : y.toEntry.id = m.toEntry.id := by
    have := of_decide_eq_true hpy
    exact Option.some.inj (this.symm.trans hc)
  exact List.inj_on_of_nodup_map hnd hy hm (toEntry_id_inj hid)

/-- One round of `incrementProposerPriority` on a balanced set, over arithmetic exact on
`int64` results, is one exact round of the round robin, and returns its proposer. -/
theorem Balanced.incrementProposerPriorityWith {ar : PriorityArith} (har : ar.ExactInRange) :
    ∃ m, vals.roundProposer = some m ∧
      vals.incrementProposerPriorityWith ar = .ok (vals.exactRound, m) := by
  have htle := h.total_le
  rw [maxTotalVotingPower_eq] at htle
  have hTpos := h.totalVotingPower_pos
  have hT0 : vals.totalVotingPower ≠ 0 := by omega
  set bumped : PrioritySet := { vals with
    validators := vals.validators.map fun v ↦
      v.withPriority (v.proposerPriority + v.votingPower) } with hbumped
  have hadd : ({ vals with
      validators := vals.validators.map fun (val : PriorityValidator) ↦
        val.withPriority (ar.add val.proposerPriority val.votingPower) } : PrioritySet) =
      bumped := by
    rw [hbumped]
    congr 1
    refine List.map_congr_left fun v hv ↦ ?_
    have hb := h.priority_bound hv
    have hp := h.votingPower hv
    rw [defaultDashVotingPower] at hp
    rw [har.add _ _ (by unfold I64.InRange I64.minValue I64.maxValue; omega)]
  have hbent : bumped.entries = vals.entries.map Entry.bump := by
    simp [entries, hbumped, Function.comp_def, toEntry_withPriority, Entry.bump]
  have hbne : bumped.validators ≠ [] := by simpa [hbumped] using h.ne_nil
  have hbnd : (bumped.validators.map (·.proTxHash)).Nodup := by
    simpa [hbumped, Function.comp_def] using h.nodup
  obtain ⟨m, i, hget, hi, hsel⟩ := getValWithMostPriority_eq hbne hbnd
  have hchosen : chosen vals.entries = some m.toEntry.id := by
    rw [chosen, ← hbent, hsel]
    rfl
  obtain ⟨hilt, hmi⟩ := List.getElem?_eq_some_iff.mp hi
  have hilt' : i < vals.validators.length := by simpa [hbumped] using hilt
  have hm : m = vals.validators[i].withPriority
      (vals.validators[i].proposerPriority + vals.validators[i].votingPower) := by
    rw [← hmi]
    simp [hbumped]
  have hsub : ar.sub m.proposerPriority vals.totalVotingPower =
      m.proposerPriority - vals.totalVotingPower := by
    have hb := h.priority_bound (List.getElem_mem hilt')
    have hp := h.votingPower (List.getElem_mem hilt')
    rw [defaultDashVotingPower] at hp
    apply har.sub
    rw [hm, proposerPriority_withPriority]
    unfold I64.InRange I64.minValue I64.maxValue
    omega
  set m' := m.withPriority (m.proposerPriority - vals.totalVotingPower) with hm'
  have hset : bumped.validators.set i m' = vals.exactRound.validators := by
    refine List.ext_getElem (by simp [hbumped]) fun j h₁ h₂ ↦ ?_
    rw [List.getElem_set]
    simp only [PrioritySet.exactRound, List.getElem_map, afterRound]
    split
    · rename_i hij
      subst hij
      have hcond : chosen vals.entries = some vals.validators[i].toEntry.id := by
        rw [hchosen, hm]
        rfl
      rw [if_pos hcond, hm', hm]
      simp only [withPriority_withPriority, proposerPriority_withPriority]
    · rename_i hij
      have hj : j < vals.validators.length := by simpa using h₂
      have hcond : ¬ chosen vals.entries = some vals.validators[j].toEntry.id := by
        rw [hchosen]
        intro heq
        have := toEntry_id_inj (Option.some.inj heq)
        rw [hm, proTxHash_withPriority] at this
        exact hij (h.getElem_inj hilt' hj this)
      rw [if_neg hcond]
      simp [hbumped]
  have hmem : m' ∈ vals.exactRound.validators := by
    rw [← hset]
    exact List.mem_set hilt m'
  refine ⟨m', h.roundProposer_eq hmem (by rw [hchosen]; rfl), ?_⟩
  unfold PrioritySet.incrementProposerPriorityWith
  simp only [hadd, hget, Except.ok_bind]
  rw [TotalVotingPower_of_ne_zero (show bumped.totalVotingPower ≠ 0 from hT0)]
  simp only [Except.ok_bind]
  rw [show bumped.totalVotingPower = vals.totalVotingPower from rfl, hsub, ← hm', hset]
  rfl

end balanced

/-- `t + 1` rounds of the loop of `IncrementProposerPriority` on a balanced set are `t + 1`
exact rounds, ending on the last one's proposer. -/
theorem Balanced.incrementLoop {ar : PriorityArith} (har : ar.ExactInRange) (t : ℕ) :
    ∀ {vals : PrioritySet}, vals.Balanced → ∀ p, PrioritySet.incrementLoop ar (t + 1) vals p =
      .ok (PrioritySet.exactRound^[t + 1] vals, (PrioritySet.exactRound^[t] vals).roundProposer) := by
  induction t with
  | zero =>
    intro vals h p
    obtain ⟨m, hm, hround⟩ := h.incrementProposerPriorityWith har
    simp [PrioritySet.incrementLoop, hround, hm]
  | succ t ih =>
    intro vals h p
    obtain ⟨m, -, hround⟩ := h.incrementProposerPriorityWith har
    rw [PrioritySet.incrementLoop]
    simp only [hround, Except.ok_bind]
    rw [ih h.exactRound, Function.iterate_succ_apply PrioritySet.exactRound (t + 1) vals,
      Function.iterate_succ_apply PrioritySet.exactRound t vals]

/-- `IncrementProposerPriority(times)` on a balanced set, over arithmetic exact on `int64`
results, rescales and centers nothing and runs `times` exact rounds. -/
theorem Balanced.IncrementProposerPriorityWith {vals : PrioritySet} (h : vals.Balanced)
    {ar : PriorityArith} (har : ar.ExactInRange) {times : ℤ} (ht : 0 < times) :
    vals.IncrementProposerPriorityWith ar times = .ok (vals.afterRounds times.toNat) := by
  obtain ⟨t, htn⟩ : ∃ t : ℕ, times.toNat = t + 1 := ⟨times.toNat - 1, by omega⟩
  have hT0 : vals.totalVotingPower ≠ 0 := by
    have := h.totalVotingPower_pos
    omega
  have hnot : ¬ times ≤ 0 := Int.not_le.mpr ht
  unfold PrioritySet.IncrementProposerPriorityWith
  simp only [List.isEmpty_iff, h.ne_nil, if_false, hnot, TotalVotingPower_of_ne_zero hT0,
    Except.ok_bind, h.wrap_diffMax, h.rescalePriorities, h.shiftByAvgProposerPriorityWith har, htn,
    h.incrementLoop har t]
  rfl

theorem Balanced.afterRounds {vals : PrioritySet} (h : vals.Balanced) (t : ℕ) :
    (vals.afterRounds t).Balanced := by
  cases t with
  | zero => exact h
  | succ t =>
    have h' := h.iterate_exactRound (t + 1)
    exact ⟨h'.roundRobin, h'.totalVotingPower_eq, h'.total_le⟩

theorem entries_afterRounds {vals : PrioritySet} (h : vals.Balanced) (t : ℕ) :
    (vals.afterRounds t).entries = step^[t] vals.entries := by
  cases t with
  | zero => rfl
  | succ t => exact entries_iterate_exactRound h (t + 1)

/-- On a balanced set, `IncrementProposerPriority` computes what exact arithmetic computes:
none of its `safeAddClip` and `safeSubClip` clips. -/
theorem Balanced.IncrementProposerPriority_eq_exact {vals : PrioritySet} (h : vals.Balanced)
    (times : ℤ) :
    vals.IncrementProposerPriority times = vals.IncrementProposerPriorityWith .exact times := by
  by_cases ht : 0 < times
  · rw [IncrementProposerPriority,
      h.IncrementProposerPriorityWith PriorityArith.clipping_exactInRange ht,
      h.IncrementProposerPriorityWith PriorityArith.exact_exactInRange ht]
  · have hle : times ≤ 0 := by omega
    unfold IncrementProposerPriority PrioritySet.IncrementProposerPriorityWith
    simp only [hle, if_true]

end PrioritySet

end Tenderdash
