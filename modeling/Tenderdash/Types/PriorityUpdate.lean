import Tenderdash.Types.PriorityRounds

/-!
# Change sets keep the invariant

`updateWithChangeSet` on a set of distinct validators of power `DefaultDashVotingPower`,
with the cached total correct, checks a change set, merges it in and re-centers the
priorities.  Every set it returns is `Balanced` (`Updatable.updateWithChangeSetWith`),
and the one subtraction of it that could clip, in the centering, never does: the code
computes what exact arithmetic computes (`Updatable.updateWithChangeSetWith_eq_exact`).

The proof follows the code stage by stage.  `processChanges` splits the changes into
updates and removals sorted by `ProTxHash` (`ChangeSplit`); `verifyRemovals` and
`verifyUpdates` bound the totals, so that a new validator's priority, `-1.125` times the
total after the updates, is far inside `int64`; the merge of `applyUpdates` and the scan
of `applyRemovals` keep the validators sorted by hash; and rescaling and centering a set
of bounded priorities put it within the window and center it.
-/

namespace Tenderdash

open RoundRobin PriorityValidator

/-- `bytes.Compare` as `≤`. -/
theorem bytes_le_iff {a b : Bytes} : a ≤ b ↔ a.map UInt8.toNat ≤ b.map UInt8.toNat := by
  rw [← List.not_lt, bytes_lt_iff, not_lt]

/-! ## Sorting by hash -/

/-- Validators in strictly increasing order of `ProTxHash`. -/
def SortedByHash (l : List PriorityValidator) : Prop :=
  l.Pairwise fun a b ↦ a.toEntry.id < b.toEntry.id

namespace SortedByHash

theorem nodup {l : List PriorityValidator} (h : SortedByHash l) : (l.map (·.proTxHash)).Nodup := by
  have : ((l.map (·.proTxHash)).map (List.map UInt8.toNat)).Nodup := by
    rw [List.map_map, List.Nodup, List.pairwise_map]
    exact h.imp ne_of_lt
  exact this.of_map _

/-- Setting priorities keeps the order by hash. -/
theorem map_withPriority {l : List PriorityValidator} (h : SortedByHash l)
    (f : PriorityValidator → ℤ) : SortedByHash (l.map fun v ↦ v.withPriority (f v)) := by
  unfold SortedByHash at h ⊢
  simpa only [List.pairwise_map, id_toEntry, proTxHash_withPriority] using h

/-- A validator below every one of a sorted list, and not of the first one's hash, starts a
sorted list. -/
theorem cons {c : PriorityValidator} {cs : List PriorityValidator} (hs : SortedByHash cs)
    (hle : ∀ b ∈ cs, c.toEntry.id ≤ b.toEntry.id) (hne : ∀ b ∈ cs.head?, b.proTxHash ≠ c.proTxHash) :
    SortedByHash (c :: cs) := by
  cases cs with
  | nil => exact List.pairwise_singleton _ _
  | cons d cs =>
    have hcd : c.toEntry.id < d.toEntry.id :=
      lt_of_le_of_ne (hle d List.mem_cons_self) fun h ↦ hne d rfl (toEntry_id_inj h).symm
    refine List.pairwise_cons.mpr ⟨fun b hb ↦ ?_, hs⟩
    rcases List.mem_cons.mp hb with rfl | hb
    · exact hcd
    · exact hcd.trans (List.rel_of_pairwise_cons hs hb)

end SortedByHash

/-- `sort.Sort(ValidatorsByProTxHashes)` orders validators by hash. -/
theorem pairwise_mergeSort_hash (l : List PriorityValidator) :
    (l.mergeSort fun a b ↦ decide (a.proTxHash ≤ b.proTxHash)).Pairwise
      fun a b ↦ a.toEntry.id ≤ b.toEntry.id := by
  have h : (l.mergeSort fun a b ↦ decide (a.proTxHash ≤ b.proTxHash)).Pairwise
      fun a b ↦ decide (a.proTxHash ≤ b.proTxHash) = true := List.pairwise_mergeSort
    (fun a b c hab hbc ↦ by
      simp only [decide_eq_true_eq, bytes_le_iff] at *
      exact le_trans hab hbc)
    (fun a b ↦ by
      simp only [Bool.or_eq_true, decide_eq_true_eq, bytes_le_iff]
      exact le_total _ _) l
  exact h.imp fun hab ↦ by simpa [bytes_le_iff] using hab

/-- Sorting validators of distinct hashes by hash orders them strictly. -/
theorem sortedByHash_mergeSort {l : List PriorityValidator} (h : (l.map (·.proTxHash)).Nodup) :
    SortedByHash (l.mergeSort fun a b ↦ decide (a.proTxHash ≤ b.proTxHash)) := by
  have hnd := ((List.mergeSort_perm l fun a b ↦ decide (a.proTxHash ≤ b.proTxHash)).map
    (·.proTxHash)).nodup_iff.mpr h
  rw [List.Nodup, List.pairwise_map] at hnd
  refine ((pairwise_mergeSort_hash l).and hnd).imp fun ⟨hab, hne⟩ ↦ ?_
  exact lt_of_le_of_ne hab fun heq ↦ hne (toEntry_id_inj heq)

namespace PrioritySet

/-! ## Lookups by hash -/

section lookup

variable {vals : PrioritySet} {p : Bytes}

theorem getByProTxHash_eq_some {v : PriorityValidator} (hv : vals.getByProTxHash p = some v) :
    v ∈ vals.validators ∧ v.proTxHash = p :=
  ⟨List.mem_of_find?_eq_some hv, by simpa using List.find?_some hv⟩

end lookup

/-! ## Splitting the changes -/

/-- The scan of `processChanges` over changes sorted by hash returned: they are strictly
sorted, the first is not of the hash `prev`, the powers are non-negative, and the updates and
the removals are the changes of non-zero and of zero power. -/
theorem processChangesLoop_eq_ok {prev : Bytes} {cs us ds : List PriorityValidator}
    (hs : cs.Pairwise fun a b ↦ a.toEntry.id ≤ b.toEntry.id)
    (h : processChangesLoop prev cs = .ok (us, ds)) :
    SortedByHash cs ∧ (∀ c ∈ cs.head?, c.proTxHash ≠ prev) ∧ (∀ c ∈ cs, 0 ≤ c.votingPower) ∧
      us = cs.filter (fun c ↦ c.votingPower ≠ 0) ∧ ds = cs.filter (fun c ↦ c.votingPower = 0) := by
  induction cs generalizing prev us ds with
  | nil =>
    have h' : ([], []) = (us, ds) := Except.ok.inj h
    simp only [Prod.mk.injEq] at h'
    obtain ⟨rfl, rfl⟩ := h'
    exact ⟨List.Pairwise.nil, by simp, by simp, rfl, rfl⟩
  | cons c cs ih =>
    rw [processChangesLoop] at h
    have hdup : c.proTxHash ≠ prev := fun hc ↦ Except.throw_ne_ok (by rwa [if_pos hc] at h)
    rw [if_neg hdup] at h
    have hneg : ¬ c.votingPower < 0 := fun hc ↦ Except.throw_ne_ok (by rwa [if_pos hc] at h)
    rw [if_neg hneg] at h
    have hbig : ¬ c.votingPower > maxTotalVotingPower := fun hc ↦
      Except.throw_ne_ok (by rwa [if_pos hc] at h)
    rw [if_neg hbig] at h
    obtain ⟨⟨u, r⟩, hrec, hfin⟩ := Except.bind_eq_ok.mp h
    obtain ⟨hsort, hhead, hnonneg, rfl, rfl⟩ := ih hs.of_cons hrec
    refine ⟨hsort.cons (fun b hb ↦ List.rel_of_pairwise_cons hs hb) hhead, by simpa using hdup,
      List.forall_mem_cons.mpr ⟨by omega, hnonneg⟩, ?_⟩
    by_cases hz : c.votingPower = 0
    · simp only [hz, if_true, Except.pure_eq_ok, Prod.mk.injEq] at hfin
      obtain ⟨rfl, rfl⟩ := hfin
      simp [hz]
    · simp only [hz, if_false, Except.pure_eq_ok, Prod.mk.injEq] at hfin
      obtain ⟨rfl, rfl⟩ := hfin
      simp [hz]

/-- What `processChanges` returns: the updates and the removals, each sorted by hash, no
hash in both, and every update of positive power. -/
structure ChangeSplit (updates deletes : List PriorityValidator) : Prop where
  updates_sorted : SortedByHash updates
  deletes_sorted : SortedByHash deletes
  disjoint : ∀ u ∈ updates, ∀ d ∈ deletes, u.proTxHash ≠ d.proTxHash
  updates_pos : ∀ u ∈ updates, 0 < u.votingPower

/-- `processChanges` returned a split of the changes. -/
theorem processChanges_eq_ok {cs us ds : List PriorityValidator}
    (h : processChanges cs = .ok (us, ds)) :
    ChangeSplit us ds ∧ (∀ u ∈ us, u ∈ cs) ∧ ∀ d ∈ ds, d ∈ cs := by
  unfold processChanges at h
  obtain ⟨hsort, -, hnonneg, rfl, rfl⟩ := processChangesLoop_eq_ok (pairwise_mergeSort_hash cs) h
  have hmem : ∀ x ∈ cs.mergeSort fun a b ↦ decide (a.proTxHash ≤ b.proTxHash), x ∈ cs :=
    fun x hx ↦ (List.mergeSort_perm cs _).subset hx
  refine ⟨⟨hsort.filter _, hsort.filter _, ?_, ?_⟩, fun u hu ↦ hmem u (List.mem_filter.mp hu).1,
    fun d hd ↦ hmem d (List.mem_filter.mp hd).1⟩
  · intro u hu d hd heq
    have hu' := List.mem_filter.mp hu
    have hd' := List.mem_filter.mp hd
    obtain rfl := List.inj_on_of_nodup_map hsort.nodup hu'.1 hd'.1 heq
    simp_all
  · intro u hu
    have hu' := List.mem_filter.mp hu
    have := hnonneg u hu'.1
    simp only [ne_eq, decide_not, Bool.not_eq_eq_eq_not, Bool.not_true, decide_eq_false_iff_not] at hu'
    omega

/-! ## The sets a change set applies to -/

/-- What `updateWithChangeSet` needs of a set to return a balanced one: distinct validators of
power `DefaultDashVotingPower`, the cached total correct and within `MaxTotalVotingPower`,
and priorities within three times `MaxTotalVotingPower`.  Balanced sets have it, and so has
the empty set `NewValidatorSet` starts from; so has the set the update builds before it
rescales and centers. -/
structure Updatable (vals : PrioritySet) : Prop where
  votingPower : ∀ v ∈ vals.validators, v.votingPower = defaultDashVotingPower
  nodup : (vals.validators.map (·.proTxHash)).Nodup
  totalVotingPower_eq : vals.totalVotingPower = (vals.validators.map (·.votingPower)).sum
  total_le : vals.totalVotingPower ≤ maxTotalVotingPower
  priority_mem : ∀ v ∈ vals.validators,
    -(3 * (maxTotalVotingPower : ℤ)) ≤ v.proposerPriority ∧
      v.proposerPriority ≤ 3 * maxTotalVotingPower

theorem Balanced.updatable {vals : PrioritySet} (h : vals.Balanced) : vals.Updatable where
  votingPower _ hv := h.votingPower hv
  nodup := h.nodup
  totalVotingPower_eq := by
    rw [h.totalVotingPower_eq]
    simp [total, entries, Function.comp_def]
  total_le := h.total_le
  priority_mem v hv := by
    have hp := h.priority_mem hv
    have ht := h.total_le
    omega

/-- A fold adding `f` of each element is the sum of `f`, from `init`. -/
theorem foldl_add_eq_sum {α : Type} (l : List α) (f : α → ℤ) (init : ℤ) :
    l.foldl (fun b x ↦ b + f x) init = init + (l.map f).sum := by
  induction l generalizing init with
  | nil => simp
  | cons x l ih =>
    rw [List.foldl_cons, ih, List.map_cons, List.sum_cons]
    ring

section totals

variable {vals : PrioritySet}

theorem Updatable.totalVotingPower_eq_mul (h : vals.Updatable) :
    vals.totalVotingPower = vals.validators.length * defaultDashVotingPower := by
  rw [h.totalVotingPower_eq, List.map_congr_left h.votingPower]
  simp

/-- The saturating sum of `updateTotalVotingPower` over powers in `[0, MaxTotalVotingPower]`
is exact: it returned the sum, which is within the maximum. -/
theorem updateTotalVotingPower_eq_ok {vals' : PrioritySet}
    (hp : ∀ v ∈ vals.validators, 0 ≤ v.votingPower ∧ v.votingPower ≤ maxTotalVotingPower)
    (h : vals.updateTotalVotingPower = .ok vals') :
    vals' = { vals with totalVotingPower := (vals.validators.map (·.votingPower)).sum } ∧
      (vals.validators.map (·.votingPower)).sum ≤ maxTotalVotingPower := by
  unfold updateTotalVotingPower at h
  obtain ⟨s, hs, hfin⟩ := Except.bind_eq_ok.mp h
  have hfold := Except.foldlM_eq_ok_foldl (fun (b : ℤ) (v : PriorityValidator) ↦ b + v.votingPower)
    (fun b : ℤ ↦ 0 ≤ b ∧ b ≤ maxTotalVotingPower) hs ⟨le_refl 0, by omega⟩ fun b v b' hv hb hstep ↦ by
      have hpv := hp v hv
      have hexact : safeAddClip b v.votingPower = b + v.votingPower := by
        apply safeAddClip_of_inRange
        rw [maxTotalVotingPower_eq] at hb hpv
        unfold I64.InRange I64.minValue I64.maxValue
        omega
      simp only [hexact, gt_iff_lt, Except.ite_throw_eq_ok, not_lt, Except.pure_eq_ok] at hstep
      obtain ⟨hle, rfl⟩ := hstep
      exact ⟨⟨by omega, hle⟩, rfl⟩
  rw [foldl_add_eq_sum, zero_add] at hfold
  obtain ⟨⟨-, hle⟩, rfl⟩ := hfold
  exact ⟨(Except.ok.inj hfin).symm, hle⟩

/-- On a set whose cache holds its total, `TotalVotingPower()` returned the set and the
cache. -/
theorem TotalVotingPower_eq_ok {w : PrioritySet} {t : ℤ}
    (hc : vals.totalVotingPower = (vals.validators.map (·.votingPower)).sum)
    (hp : ∀ v ∈ vals.validators, 0 ≤ v.votingPower ∧ v.votingPower ≤ maxTotalVotingPower)
    (h : vals.TotalVotingPower = .ok (w, t)) : w = vals ∧ t = vals.totalVotingPower := by
  unfold TotalVotingPower at h
  by_cases h0 : vals.totalVotingPower = 0
  · rw [if_pos h0] at h
    obtain ⟨u, hu, hfin⟩ := Except.bind_eq_ok.mp h
    obtain ⟨rfl, -⟩ := updateTotalVotingPower_eq_ok hp hu
    rw [← hc] at hfin
    simp only [Except.pure_eq_ok, Prod.mk.injEq] at hfin
    obtain ⟨rfl, rfl⟩ := hfin
    exact ⟨rfl, rfl⟩
  · rw [if_neg h0] at h
    simp only [Except.pure_eq_ok, Prod.mk.injEq] at h
    exact ⟨h.1.symm, h.2.symm⟩

theorem Updatable.power_mem (h : vals.Updatable) :
    ∀ v ∈ vals.validators, 0 ≤ v.votingPower ∧ v.votingPower ≤ maxTotalVotingPower := by
  intro v hv
  rw [h.votingPower v hv, defaultDashVotingPower, maxTotalVotingPower_eq]
  omega

theorem Updatable.TotalVotingPower_eq_ok (h : vals.Updatable) {w : PrioritySet} {t : ℤ}
    (ht : vals.TotalVotingPower = .ok (w, t)) : w = vals ∧ t = vals.totalVotingPower :=
  PrioritySet.TotalVotingPower_eq_ok h.totalVotingPower_eq h.power_mem ht

end totals

/-! ## Checking the removals and the updates -/

/-- Adding `c` `n` times in `int64` arithmetic, far from overflow, adds `n * c`. -/
theorem foldl_wrap_add {α : Type} (c : ℤ) (hc : 0 ≤ c) (l : List α) (init : ℤ) (h₀ : 0 ≤ init)
    (h₁ : init + c * l.length ≤ I64.maxValue) :
    l.foldl (fun b _ ↦ I64.wrap (b + c)) init = init + c * l.length := by
  induction l generalizing init with
  | nil => simp
  | cons a l ih =>
    simp only [List.length_cons, Nat.cast_add, Nat.cast_one] at h₁
    have hr : I64.InRange (init + c) := by
      unfold I64.InRange I64.minValue
      unfold I64.maxValue at h₁ ⊢
      constructor <;> nlinarith
    rw [List.foldl_cons, I64.wrap_of_inRange hr, ih _ (by omega) (by linarith)]
    simp only [List.length_cons, Nat.cast_add, Nat.cast_one]
    ring

/-- `verifyRemovals` returned: every removal names a validator of the set, there are no more
removals than validators, and on a set of power `DefaultDashVotingPower` each removes that
much. -/
theorem verifyRemovals_eq_ok {ds : List PriorityValidator} {vals : PrioritySet} {r : ℤ}
    (hv : vals.Updatable) (h : verifyRemovals ds vals = .ok r) :
    (∀ d ∈ ds, ∃ v ∈ vals.validators, v.proTxHash = d.proTxHash) ∧
      ds.length ≤ vals.validators.length ∧ r = ds.length * defaultDashVotingPower := by
  unfold verifyRemovals at h
  obtain ⟨r', hfold, hrest⟩ := Except.bind_eq_ok.mp h
  simp only [gt_iff_lt, Except.ite_throw_bind_eq_ok, not_lt, Except.pure_eq_ok] at hrest
  obtain ⟨hlen, rfl⟩ := hrest
  have hfound := Except.forall_of_foldlM_eq_ok
    (fun d ↦ ∃ v ∈ vals.validators, v.proTxHash = d.proTxHash) hfold fun b d b' hstep ↦ by
      simp only at hstep
      split at hstep
      · exact absurd hstep Except.throw_ne_ok
      · exact ⟨_, getByProTxHash_eq_some (by assumption)⟩
  have hsum := Except.foldlM_eq_ok_foldl
    (fun (b : ℤ) (_ : PriorityValidator) ↦ I64.wrap (b + defaultDashVotingPower))
    (fun _ ↦ True) hfold trivial fun b d b' _ _ hstep ↦ by
      simp only at hstep
      split at hstep
      · exact absurd hstep Except.throw_ne_ok
      · rename_i val hval
        rw [hv.votingPower val (getByProTxHash_eq_some hval).1] at hstep
        exact ⟨trivial, (Except.ok.inj hstep).symm⟩
  refine ⟨hfound, hlen, ?_⟩
  rw [hsum.2, foldl_wrap_add _ (by decide) _ _ (le_refl 0)]
  · ring
  · have ht := hv.total_le
    rw [hv.totalVotingPower_eq_mul, maxTotalVotingPower_eq] at ht
    rw [defaultDashVotingPower] at ht ⊢
    unfold I64.maxValue
    omega

/-- An update of power `DefaultDashVotingPower` changes the total of a set of that power by
nothing, for a validator of the set, or by all its power, for a new one. -/
theorem Updatable.delta_mem {vals : PrioritySet} (hv : vals.Updatable) {u : PriorityValidator}
    (hu : u.votingPower = defaultDashVotingPower) :
    0 ≤ vals.delta u ∧ vals.delta u ≤ defaultDashVotingPower := by
  unfold delta
  split
  · rename_i val hval
    rw [hu, hv.votingPower val (getByProTxHash_eq_some hval).1, sub_self]
    exact ⟨le_of_eq rfl, by decide⟩
  · rw [hu]
    exact ⟨by decide, le_refl _⟩

/-- `verifyUpdates` on an updatable set returned, given removals of at most its total: every
update has power `DefaultDashVotingPower`, the set comes back as it was, and the total after
the updates is within twice `MaxTotalVotingPower`. -/
theorem verifyUpdates_eq_ok {us : List PriorityValidator} {vals vals' : PrioritySet} {r T' : ℤ}
    (hv : vals.Updatable) (hpos : ∀ u ∈ us, 0 < u.votingPower) (hr₀ : 0 ≤ r)
    (hr : r ≤ vals.totalVotingPower) (h : verifyUpdates us vals r = .ok (vals', T')) :
    (∀ u ∈ us, u.votingPower = defaultDashVotingPower) ∧ vals' = vals ∧ 0 ≤ T' ∧
      T' ≤ 2 * maxTotalVotingPower ∧ T' - r ≤ maxTotalVotingPower ∧
      T' = vals.totalVotingPower + (us.map vals.delta).sum := by
  unfold verifyUpdates at h
  simp only [Except.ite_throw_bind_eq_ok, List.any_eq_true, decide_eq_true_eq, not_exists,
    not_and] at h
  obtain ⟨hany, h⟩ := h
  have h100 : ∀ u ∈ us, u.votingPower = defaultDashVotingPower := by
    intro u hu
    have h₁ := hany u hu
    have h₂ := hpos u hu
    rw [defaultDashVotingPower]
    omega
  obtain ⟨⟨w, t⟩, htvp, hrest⟩ := Except.bind_eq_ok.mp h
  obtain ⟨rfl, rfl⟩ := hv.TotalVotingPower_eq_ok htvp
  obtain ⟨last, hfold, hfin⟩ := Except.bind_eq_ok.mp hrest
  simp only [Except.pure_eq_ok, Prod.mk.injEq] at hfin
  obtain ⟨rfl, rfl⟩ := hfin
  have ht := hv.total_le
  rw [maxTotalVotingPower_eq] at ht
  have hinit : I64.wrap (w.totalVotingPower - r) = w.totalVotingPower - r := by
    apply I64.wrap_of_inRange
    unfold I64.InRange I64.minValue I64.maxValue
    omega
  obtain ⟨hI, hlast⟩ := Except.foldlM_eq_ok_foldl (fun (b : ℤ) (u : PriorityValidator) ↦ b + w.delta u)
    (fun b : ℤ ↦ 0 ≤ b ∧ b ≤ maxTotalVotingPower) hfold
    (by rw [hinit, maxTotalVotingPower_eq]; omega) fun b u b' hu hb hstep ↦ by
      have hu' : u ∈ us := (List.mergeSort_perm us _).subset hu
      obtain ⟨hd₀, hd₁⟩ := hv.delta_mem (h100 u hu')
      rw [maxTotalVotingPower_eq] at hb
      rw [defaultDashVotingPower] at hd₁
      have hexact : I64.wrap (b + w.delta u) = b + w.delta u := by
        apply I64.wrap_of_inRange
        unfold I64.InRange I64.minValue I64.maxValue
        omega
      simp only [hexact, gt_iff_lt, Except.ite_throw_eq_ok, not_lt, Except.pure_eq_ok] at hstep
      obtain ⟨hle, rfl⟩ := hstep
      exact ⟨⟨by omega, hle⟩, rfl⟩
  rw [foldl_add_eq_sum, hinit, ((List.mergeSort_perm us _).map w.delta).sum_eq] at hlast
  rw [maxTotalVotingPower_eq] at hI ⊢
  have hexact : I64.wrap (last + r) = last + r := by
    apply I64.wrap_of_inRange
    unfold I64.InRange I64.minValue I64.maxValue
    omega
  refine ⟨h100, rfl, ?_⟩
  rw [hexact]
  omega

/-! ## New priorities -/

/-- `computeNewPriorities` keeps the updates but their priorities: an update of a validator of
the set takes its priority, a new one `-1.125` times the total after the updates. -/
theorem mem_computeNewPriorities {us : List PriorityValidator} {vals : PrioritySet} {T' : ℤ}
    {x : PriorityValidator} (hx : x ∈ computeNewPriorities us vals T') :
    ∃ u ∈ us, x.proTxHash = u.proTxHash ∧ x.votingPower = u.votingPower ∧
      (x.proposerPriority = I64.wrap (-I64.wrap (T' + (T' >>> (3 : ℕ)))) ∨
        ∃ v ∈ vals.validators, x.proposerPriority = v.proposerPriority) := by
  obtain ⟨u, hu, rfl⟩ := List.mem_map.mp hx
  refine ⟨u, hu, ?_⟩
  split
  · exact ⟨rfl, rfl, .inl rfl⟩
  · rename_i val hval
    exact ⟨rfl, rfl, .inr ⟨val, (getByProTxHash_eq_some hval).1, rfl⟩⟩

theorem map_id_computeNewPriorities (us : List PriorityValidator) (vals : PrioritySet) (T' : ℤ) :
    (computeNewPriorities us vals T').map (·.toEntry.id) = us.map (·.toEntry.id) := by
  unfold computeNewPriorities
  rw [List.map_map]
  refine List.map_congr_left fun u _ ↦ ?_
  simp only [Function.comp_apply]
  split <;> rfl

theorem SortedByHash.computeNewPriorities {us : List PriorityValidator} (h : SortedByHash us)
    (vals : PrioritySet) (T' : ℤ) : SortedByHash (computeNewPriorities us vals T') := by
  unfold SortedByHash at h ⊢
  rw [← List.pairwise_map, map_id_computeNewPriorities, List.pairwise_map]
  exact h

/-- A new validator's priority, from a total after the updates in `[0, 2 * MaxTotalVotingPower]`,
is within three times `MaxTotalVotingPower`. -/
theorem newPriority_mem {T' : ℤ} (h₀ : 0 ≤ T') (h₁ : T' ≤ 2 * maxTotalVotingPower) :
    -(3 * (maxTotalVotingPower : ℤ)) ≤ I64.wrap (-I64.wrap (T' + (T' >>> (3 : ℕ)))) ∧
      I64.wrap (-I64.wrap (T' + (T' >>> (3 : ℕ)))) ≤ 0 := by
  rw [Int.shiftRight_eq_div_pow] at *
  rw [maxTotalVotingPower_eq] at *
  norm_num only at *
  have hin : I64.InRange (T' + T' / 8) := by
    unfold I64.InRange I64.minValue I64.maxValue
    omega
  rw [I64.wrap_of_inRange hin]
  have hneg : I64.InRange (-(T' + T' / 8)) := by
    unfold I64.InRange I64.minValue I64.maxValue
    omega
  rw [I64.wrap_of_inRange hneg]
  omega

/-! ## Merging in the updates and dropping the removals -/

theorem hash_ne_of_id_lt {a b : PriorityValidator} (h : a.toEntry.id < b.toEntry.id) :
    a.proTxHash ≠ b.proTxHash :=
  fun heq ↦ h.ne (by simp [heq])

theorem id_lt_of_hash_lt {a b : PriorityValidator} (h : a.proTxHash < b.proTxHash) :
    a.toEntry.id < b.toEntry.id := by
  simpa [bytes_lt_iff] using h

theorem SortedByHash.le_of_mem {e x : PriorityValidator} {xs : List PriorityValidator}
    (h : SortedByHash (e :: xs)) (hx : x ∈ e :: xs) : e.toEntry.id ≤ x.toEntry.id := by
  rcases List.mem_cons.mp hx with rfl | hx
  · exact le_refl _
  · exact le_of_lt (List.rel_of_pairwise_cons h hx)

/-- The merge of `applyUpdates` of two lists sorted by hash is sorted by hash; it holds the
updates, and the validators of the set that no update replaces. -/
theorem applyUpdatesMerge_spec {xs ys : List PriorityValidator} (hx : SortedByHash xs)
    (hy : SortedByHash ys) :
    SortedByHash (applyUpdatesMerge xs ys) ∧ ∀ v, v ∈ applyUpdatesMerge xs ys ↔
      v ∈ ys ∨ v ∈ xs ∧ ∀ y ∈ ys, y.proTxHash ≠ v.proTxHash := by
  induction xs, ys using applyUpdatesMerge.induct with
  | case1 ys => simp [applyUpdatesMerge, hy]
  | case2 xs hne =>
    cases xs with
    | nil => exact absurd rfl hne
    | cons x xs => simp [applyUpdatesMerge, hx]
  | case3 e xs u ys hlt ih =>
    obtain ⟨hs, hmem⟩ := ih hx.of_cons hy
    have hbelow : ∀ y ∈ u :: ys, e.toEntry.id < y.toEntry.id :=
      fun y hy' ↦ lt_of_lt_of_le (id_lt_of_hash_lt hlt) (SortedByHash.le_of_mem hy hy')
    rw [applyUpdatesMerge, if_pos hlt]
    refine ⟨List.pairwise_cons.mpr ⟨fun w hw ↦ ?_, hs⟩, fun v ↦ ?_⟩
    · rcases (hmem w).mp hw with hw | ⟨hw, -⟩
      · exact hbelow w hw
      · exact List.rel_of_pairwise_cons hx hw
    · rw [List.mem_cons, hmem]
      constructor
      · rintro (rfl | hv | ⟨hv, hne⟩)
        · exact .inr ⟨List.mem_cons_self, fun y hy' ↦ (hash_ne_of_id_lt (hbelow y hy')).symm⟩
        · exact .inl hv
        · exact .inr ⟨List.mem_cons_of_mem _ hv, hne⟩
      · rintro (hv | ⟨hv, hne⟩)
        · exact .inr (.inl hv)
        · rcases List.mem_cons.mp hv with rfl | hv
          · exact .inl rfl
          · exact .inr (.inr ⟨hv, hne⟩)
  | case4 e xs u ys hnlt heq ih =>
    obtain ⟨hs, hmem⟩ := ih hx.of_cons hy.of_cons
    have hid : e.toEntry.id = u.toEntry.id := by simp [heq]
    rw [applyUpdatesMerge, if_neg hnlt, if_pos heq]
    refine ⟨List.pairwise_cons.mpr ⟨fun w hw ↦ ?_, hs⟩, fun v ↦ ?_⟩
    · rcases (hmem w).mp hw with hw | ⟨hw, -⟩
      · exact List.rel_of_pairwise_cons hy hw
      · exact hid ▸ List.rel_of_pairwise_cons hx hw
    · rw [List.mem_cons, hmem]
      constructor
      · rintro (rfl | hv | ⟨hv, hne⟩)
        · exact .inl List.mem_cons_self
        · exact .inl (List.mem_cons_of_mem _ hv)
        · refine .inr ⟨List.mem_cons_of_mem _ hv, List.forall_mem_cons.mpr ⟨?_, hne⟩⟩
          exact hash_ne_of_id_lt (hid ▸ List.rel_of_pairwise_cons hx hv)
      · rintro (hv | ⟨hv, hne⟩)
        · rcases List.mem_cons.mp hv with rfl | hv
          · exact .inl rfl
          · exact .inr (.inl hv)
        · rcases List.mem_cons.mp hv with rfl | hv
          · exact absurd heq.symm (hne u List.mem_cons_self)
          · exact .inr (.inr ⟨hv, fun y hy' ↦ hne y (List.mem_cons_of_mem _ hy')⟩)
  | case5 e xs u ys hnlt hneq ih =>
    obtain ⟨hs, hmem⟩ := ih hx hy.of_cons
    have hue : u.toEntry.id < e.toEntry.id := by
      have h₁ : ¬ e.toEntry.id < u.toEntry.id := fun h ↦ hnlt (by simpa [bytes_lt_iff] using h)
      have h₂ : e.toEntry.id ≠ u.toEntry.id := fun h ↦ hneq (toEntry_id_inj h)
      exact lt_of_le_of_ne (not_lt.mp h₁) (Ne.symm h₂)
    rw [applyUpdatesMerge, if_neg hnlt, if_neg hneq]
    refine ⟨List.pairwise_cons.mpr ⟨fun w hw ↦ ?_, hs⟩, fun v ↦ ?_⟩
    · rcases (hmem w).mp hw with hw | ⟨hw, -⟩
      · exact List.rel_of_pairwise_cons hy hw
      · exact lt_of_lt_of_le hue (SortedByHash.le_of_mem hx hw)
    · rw [List.mem_cons, hmem]
      constructor
      · rintro (rfl | hv | ⟨hv, hne⟩)
        · exact .inl List.mem_cons_self
        · exact .inl (List.mem_cons_of_mem _ hv)
        · refine .inr ⟨hv, List.forall_mem_cons.mpr ⟨?_, hne⟩⟩
          exact hash_ne_of_id_lt (lt_of_lt_of_le hue (SortedByHash.le_of_mem hx hv))
      · rintro (hv | ⟨hv, hne⟩)
        · rcases List.mem_cons.mp hv with rfl | hv
          · exact .inl rfl
          · exact .inr (.inl hv)
        · exact .inr (.inr ⟨hv, fun y hy' ↦ hne y (List.mem_cons_of_mem _ hy')⟩)

/-- Removals that name validators of `e :: xs`, none of them `e`, name validators of `xs`. -/
theorem found_of_found_cons {e : PriorityValidator} {xs ds : List PriorityValidator}
    (hf : ∀ d ∈ ds, ∃ x ∈ e :: xs, x.proTxHash = d.proTxHash)
    (hne : ∀ d ∈ ds, e.proTxHash ≠ d.proTxHash) : ∀ d ∈ ds, ∃ x ∈ xs, x.proTxHash = d.proTxHash := by
  intro d hd
  obtain ⟨x, hx, hxd⟩ := hf d hd
  rcases List.mem_cons.mp hx with rfl | hx
  · exact absurd hxd (hne d hd)
  · exact ⟨x, hx, hxd⟩

/-- Removals of distinct hashes, each naming a validator of `xs`, are no more than `xs`. -/
theorem length_le_of_found {xs ds : List PriorityValidator} (hd : (ds.map (·.proTxHash)).Nodup)
    (hf : ∀ d ∈ ds, ∃ x ∈ xs, x.proTxHash = d.proTxHash) : ds.length ≤ xs.length := by
  have hsub : ds.map (·.proTxHash) ⊆ xs.map (·.proTxHash) := fun p hp ↦ by
    obtain ⟨d, hd', rfl⟩ := List.mem_map.mp hp
    obtain ⟨x, hx, hxd⟩ := hf d hd'
    exact List.mem_map.mpr ⟨x, hx, hxd⟩
  simpa using hd.length_le_of_subset hsub

/-- When the first validator of a sorted list is not the first removal, every removal is above
it, so they all name later validators. -/
theorem found_tail_of_ne {e d : PriorityValidator} {xs ds : List PriorityValidator}
    (hx : SortedByHash (e :: xs)) (hd : SortedByHash (d :: ds))
    (hf : ∀ d' ∈ d :: ds, ∃ x ∈ e :: xs, x.proTxHash = d'.proTxHash)
    (hne : e.proTxHash ≠ d.proTxHash) :
    (∀ d' ∈ d :: ds, e.toEntry.id < d'.toEntry.id) ∧
      ∀ d' ∈ d :: ds, ∃ x ∈ xs, x.proTxHash = d'.proTxHash := by
  have hed : e.toEntry.id < d.toEntry.id := by
    obtain ⟨x, hx', hxd⟩ := hf d List.mem_cons_self
    rcases List.mem_cons.mp hx' with rfl | hx'
    · exact absurd hxd hne
    · have hxd' : x.toEntry.id = d.toEntry.id := by simp [hxd]
      exact hxd' ▸ List.rel_of_pairwise_cons hx hx'
  have hbelow : ∀ d' ∈ d :: ds, e.toEntry.id < d'.toEntry.id :=
    fun d' hd' ↦ lt_of_lt_of_le hed (SortedByHash.le_of_mem hd hd')
  exact ⟨hbelow, found_of_found_cons hf fun d' hd' ↦ hash_ne_of_id_lt (hbelow d' hd')⟩

/-- The scan of `applyRemovals`, over a list sorted by hash naming every removal, with room in
the slice for what it keeps, keeps exactly the validators no removal names. -/
theorem applyRemovalsLoop_eq {cap i : ℕ} {xs ds : List PriorityValidator} (hx : SortedByHash xs)
    (hd : SortedByHash ds) (hf : ∀ d ∈ ds, ∃ x ∈ xs, x.proTxHash = d.proTxHash)
    (hcap : i + (xs.length - ds.length) ≤ cap) :
    applyRemovalsLoop cap i xs ds =
      .ok (xs.filter fun x ↦ ds.all fun d ↦ d.proTxHash != x.proTxHash) := by
  induction i, xs, ds using applyRemovalsLoop.induct cap with
  | case1 i xs hle => simp [applyRemovalsLoop, hle]
  | case2 i xs hnle => exact absurd (by simpa using hcap) hnle
  | case3 i d ds =>
    obtain ⟨x, hx', -⟩ := hf d List.mem_cons_self
    simp at hx'
  | case4 i e xs d ds heq ih =>
    have hne : ∀ d' ∈ ds, e.proTxHash ≠ d'.proTxHash := fun d' hd' ↦ by
      rw [heq]
      exact hash_ne_of_id_lt (List.rel_of_pairwise_cons hd hd')
    have hf' := found_of_found_cons (fun d' hd' ↦ hf d' (List.mem_cons_of_mem _ hd')) hne
    rw [applyRemovalsLoop, if_pos heq, ih hx.of_cons hd.of_cons hf' (by simpa using hcap),
      List.filter_cons_of_neg (by simp [heq])]
    congr 1
    refine List.filter_congr fun x hx' ↦ ?_
    have hdx : d.proTxHash ≠ x.proTxHash := heq ▸ hash_ne_of_id_lt (List.rel_of_pairwise_cons hx hx')
    simp [hdx]
  | case5 i e xs d ds hne hlt ih =>
    obtain ⟨hbelow, hf'⟩ := found_tail_of_ne hx hd hf hne
    have hlen := length_le_of_found hd.nodup hf'
    simp only [List.length_cons] at hcap hlen
    rw [applyRemovalsLoop, if_neg hne, if_pos hlt, ih hx.of_cons hd hf' (by simp; omega),
      List.filter_cons_of_pos]
    · rfl
    · exact List.all_eq_true.mpr fun d' hd' ↦ by
        simpa using (hash_ne_of_id_lt (hbelow d' hd')).symm
  | case6 i e xs d ds hne hnlt =>
    obtain ⟨-, hf'⟩ := found_tail_of_ne hx hd hf hne
    have hlen := length_le_of_found hd.nodup hf'
    simp only [List.length_cons] at hcap hlen
    exact absurd (by omega) hnlt

/-- `applyRemovals` of removals sorted by hash, each naming a validator of a set sorted by
hash, keeps exactly the validators no removal names. -/
theorem applyRemovals_eq {vals : PrioritySet} {ds : List PriorityValidator}
    (hx : SortedByHash vals.validators) (hd : SortedByHash ds)
    (hf : ∀ d ∈ ds, ∃ x ∈ vals.validators, x.proTxHash = d.proTxHash) :
    vals.applyRemovals ds = .ok { vals with
      validators := vals.validators.filter (fun x ↦ ds.all fun d ↦ d.proTxHash != x.proTxHash) } := by
  have hlen := length_le_of_found hd.nodup hf
  unfold applyRemovals
  rw [Slice.make_of_nonneg () (by omega)]
  simp only [Except.ok_bind, List.length_replicate]
  rw [applyRemovalsLoop_eq hx hd hf (by omega)]
  rfl

theorem mem_filter_removals {xs ds : List PriorityValidator} {v : PriorityValidator} :
    v ∈ xs.filter (fun x ↦ ds.all fun d ↦ d.proTxHash != x.proTxHash) ↔
      v ∈ xs ∧ ∀ d ∈ ds, d.proTxHash ≠ v.proTxHash := by
  simp

/-- `applyUpdates` of updates sorted by hash, on a set of distinct hashes, is sorted by hash and
holds the updates and the validators of the set that no update replaces. -/
theorem applyUpdates_spec {vals : PrioritySet} {us : List PriorityValidator}
    (hnd : (vals.validators.map (·.proTxHash)).Nodup) (hu : SortedByHash us) :
    SortedByHash (vals.applyUpdates us).validators ∧ ∀ v, v ∈ (vals.applyUpdates us).validators ↔
      v ∈ us ∨ v ∈ vals.validators ∧ ∀ u ∈ us, u.proTxHash ≠ v.proTxHash := by
  obtain ⟨hs, hmem⟩ := applyUpdatesMerge_spec (sortedByHash_mergeSort hnd) hu
  refine ⟨hs, fun v ↦ ?_⟩
  rw [show (vals.applyUpdates us).validators = applyUpdatesMerge _ us from rfl, hmem,
    List.mem_mergeSort]

/-- The two merges of a change set: `applyUpdates`, on a set of distinct hashes, merges updates
sorted by hash into the set, sorted by hash, each update taking the place of the validator of
its hash; and `applyRemovals`, on a set sorted by hash, of removals sorted by hash that each
name a validator of the set, stays inside its slice and keeps, in order, exactly the validators
no removal names. -/
theorem applyUpdates_applyRemovals_correct :
    (∀ (vals : PrioritySet) (us : List PriorityValidator),
      (vals.validators.map (·.proTxHash)).Nodup → SortedByHash us →
        SortedByHash (vals.applyUpdates us).validators ∧
        ∀ v, v ∈ (vals.applyUpdates us).validators ↔
          v ∈ us ∨ v ∈ vals.validators ∧ ∀ u ∈ us, u.proTxHash ≠ v.proTxHash) ∧
    ∀ (vals : PrioritySet) (ds : List PriorityValidator), SortedByHash vals.validators →
      SortedByHash ds → (∀ d ∈ ds, ∃ x ∈ vals.validators, x.proTxHash = d.proTxHash) →
        vals.applyRemovals ds = .ok { vals with
          validators := vals.validators.filter (fun x ↦ ds.all fun d ↦ d.proTxHash != x.proTxHash) } :=
  ⟨fun _ _ hnd hu ↦ applyUpdates_spec hnd hu, fun _ _ hx hd hf ↦ applyRemovals_eq hx hd hf⟩

/-- A validator of hash `[1]`. -/
def oneVal (power : ℤ) : PriorityValidator := ⟨[1], none, power, 0⟩

/-- A validator of hash `[2]`. -/
def twoVal (power : ℤ) : PriorityValidator := ⟨[2], none, power, 0⟩

/-- A set of the two, out of order. -/
def twoVals : PrioritySet := ⟨[twoVal 1, oneVal 1], none, none, none, 0, false, 2⟩

theorem applyUpdates_applyRemovals_correct_two :
    (([twoVal 1, oneVal 1].map (·.proTxHash)).Nodup ∧ SortedByHash [oneVal 2] ∧
      SortedByHash (twoVals.applyUpdates [oneVal 2]).validators) ∧
    (SortedByHash [oneVal 2, twoVal 1] ∧ SortedByHash [twoVal 0] ∧
      { twoVals with validators := [oneVal 2, twoVal 1] }.applyRemovals [twoVal 0] =
        .ok { twoVals with validators := [oneVal 2] }) := by
  have h₁ : ([twoVal 1, oneVal 1].map (·.proTxHash)).Nodup := by decide
  have h₂ : SortedByHash [oneVal 2] := by unfold SortedByHash; decide
  have h₃ : SortedByHash [oneVal 2, twoVal 1] := by unfold SortedByHash; decide
  have h₄ : SortedByHash [twoVal 0] := by unfold SortedByHash; decide
  have h₅ : ∀ d ∈ [twoVal 0], ∃ x ∈ [oneVal 2, twoVal 1], x.proTxHash = d.proTxHash := by
    decide
  refine ⟨⟨h₁, h₂, (applyUpdates_applyRemovals_correct.1 twoVals [oneVal 2] h₁ h₂).1⟩,
    ⟨h₃, h₄, ?_⟩⟩
  rw [applyUpdates_applyRemovals_correct.2 { twoVals with validators := [oneVal 2, twoVal 1] }
    [twoVal 0] h₃ h₄ h₅]
  decide

/-- A list sorted by hash that holds one hash twice keeps one copy through `applyRemovals` of
that hash. -/
theorem applyRemovals_keeps_duplicate_hash :
    [oneVal 1, oneVal 1].Pairwise (fun a b ↦ a.proTxHash ≤ b.proTxHash) ∧
      { twoVals with validators := [oneVal 1, oneVal 1] }.applyRemovals [oneVal 0] =
        .ok { twoVals with validators := [oneVal 1] } ∧
      [oneVal 1, oneVal 1].filter (fun x ↦ [oneVal 0].all fun d ↦ d.proTxHash != x.proTxHash) =
        [] := by
  decide

/-! ## Rescaling and centering bounded priorities -/

theorem mapPriorities_congr {vals : PrioritySet} {f g : ℤ → ℤ}
    (h : ∀ v ∈ vals.validators, f v.proposerPriority = g v.proposerPriority) :
    vals.mapPriorities f = vals.mapPriorities g := by
  unfold mapPriorities
  congr 1
  exact List.map_congr_left fun v hv ↦ by rw [h v hv]

@[simp] theorem validators_mapPriorities (vals : PrioritySet) (f : ℤ → ℤ) :
    (vals.mapPriorities f).validators =
      vals.validators.map fun v ↦ v.withPriority (f v.proposerPriority) := rfl

@[simp] theorem totalVotingPower_mapPriorities (vals : PrioritySet) (f : ℤ → ℤ) :
    (vals.mapPriorities f).totalVotingPower = vals.totalVotingPower := rfl

theorem mapPriorities_mapPriorities (vals : PrioritySet) (f g : ℤ → ℤ) :
    (vals.mapPriorities f).mapPriorities g = vals.mapPriorities (g ∘ f) := by
  simp only [mapPriorities, List.map_map, Function.comp_def, withPriority_withPriority,
    proposerPriority_withPriority]

/-- Rescaling priorities of magnitude at most `B` to a window `d > 0`, with `2 * B + d` an
`int64`, divides them all by one positive ratio (`1` if they are within the window already),
after which they are within it. -/
theorem rescalePriorities_eq_ok {vals : PrioritySet} (hne : vals.validators ≠ []) {B d : ℤ}
    (hB : 2 * B + d ≤ I64.maxValue)
    (hb : ∀ v ∈ vals.validators, -B ≤ v.proposerPriority ∧ v.proposerPriority ≤ B) (hd : 0 < d) :
    ∃ ratio, 0 < ratio ∧ vals.rescalePriorities d = .ok (vals.mapPriorities (·.tdiv ratio)) ∧
      ∀ a ∈ vals.validators, ∀ b ∈ vals.validators,
        a.proposerPriority.tdiv ratio - b.proposerPriority.tdiv ratio ≤ d := by
  obtain ⟨a, ha, b, hb', hdiff, hext⟩ := computeMaxMinPriorityDiff_eq hne (B := B) (by omega) hb
  have hba := hb a ha
  have hbb := hb b hb'
  have hnpos : ¬ d ≤ 0 := by omega
  have hw₁ : I64.wrap (a.proposerPriority - b.proposerPriority + d) =
      a.proposerPriority - b.proposerPriority + d := by
    apply I64.wrap_of_inRange
    unfold I64.InRange I64.minValue
    unfold I64.maxValue at hB ⊢
    omega
  have hw₂ : I64.wrap (a.proposerPriority - b.proposerPriority + d - 1) =
      a.proposerPriority - b.proposerPriority + d - 1 := by
    apply I64.wrap_of_inRange
    unfold I64.InRange I64.minValue
    unfold I64.maxValue at hB ⊢
    omega
  simp only [rescalePriorities, List.isEmpty_iff, hne, if_false, hnpos, hdiff, Except.ok_bind, hw₁,
    hw₂]
  by_cases hbig : a.proposerPriority - b.proposerPriority > d
  · have hlt := I64.sub_lt_tdiv_mul hd (a.proposerPriority - b.proposerPriority + d - 1)
    set ratio := (a.proposerPriority - b.proposerPriority + d - 1).tdiv d
    have hceil : a.proposerPriority - b.proposerPriority ≤ d * ratio := by
      rw [mul_comm]
      omega
    have hpos : 0 < ratio := by
      by_contra hr
      have : d * ratio ≤ 0 := Int.mul_nonpos_of_nonneg_of_nonpos hd.le (by omega)
      omega
    rw [if_pos ⟨hbig, hpos.ne'⟩]
    refine ⟨ratio, hpos, congrArg _ (mapPriorities_congr fun v hv ↦ ?_), fun x hx y hy ↦ ?_⟩
    · have := I64.tdiv_mem_of_mem hpos (hb v hv).1 (hb v hv).2
      apply I64.wrap_of_inRange
      unfold I64.InRange I64.minValue
      unfold I64.maxValue at hB ⊢
      omega
    · have hx' := hext x hx
      have hy' := hext y hy
      exact I64.tdiv_sub_tdiv_le hpos hd.le (by omega)
  · rw [if_neg fun h ↦ hbig h.1]
    refine ⟨1, one_pos, ?_, fun x hx y hy ↦ ?_⟩
    · rw [mapPriorities_eq_self fun v _ ↦ Int.tdiv_one _]
      rfl
    · have hx' := hext x hx
      have hy' := hext y hy
      simp only [Int.tdiv_one]
      omega

/-- The mean of values in `[lo, hi]`, rounded down, is in `[lo, hi]`. -/
theorem ediv_length_mem {l : List ℤ} (hne : l ≠ []) {lo hi : ℤ}
    (h : ∀ x ∈ l, lo ≤ x ∧ x ≤ hi) : lo ≤ l.sum / l.length ∧ l.sum / l.length ≤ hi := by
  have hn : (0 : ℤ) < l.length := by exact_mod_cast List.length_pos_iff.mpr hne
  have hhi := List.sum_le_card_nsmul l hi fun x hx ↦ (h x hx).2
  have hlo := List.card_nsmul_le_sum l lo fun x hx ↦ (h x hx).1
  rw [nsmul_eq_mul] at hhi hlo
  exact ⟨Int.le_ediv_of_mul_le hn (by linarith), Int.ediv_le_of_le_mul hn (by linarith)⟩

/-- Centering priorities of magnitude at most `B`, with `2 * B` an `int64`, subtracts their
mean rounded down, and no subtraction clips. -/
theorem shiftByAvgProposerPriorityWith_eq_ok {vals : PrioritySet} (hne : vals.validators ≠ [])
    {B : ℤ} (hB : 2 * B ≤ I64.maxValue)
    (hb : ∀ v ∈ vals.validators, -B ≤ v.proposerPriority ∧ v.proposerPriority ≤ B)
    {ar : PriorityArith} (har : ar.ExactInRange) :
    vals.shiftByAvgProposerPriorityWith ar = .ok (vals.mapPriorities
      (· - (vals.validators.map (·.proposerPriority)).sum / (vals.validators.length : ℤ))) := by
  have hb' : ∀ x ∈ vals.validators.map (·.proposerPriority), -B ≤ x ∧ x ≤ B := by simpa using hb
  have hmean := ediv_length_mem (by simpa using hne) hb'
  rw [List.length_map] at hmean
  have hrange : I64.InRange
      ((vals.validators.map (·.proposerPriority)).sum / (vals.validators.length : ℤ)) := by
    unfold I64.InRange I64.minValue
    unfold I64.maxValue at hB ⊢
    omega
  have havg : vals.computeAvgProposerPriority =
      .ok ((vals.validators.map (·.proposerPriority)).sum / (vals.validators.length : ℤ)) := by
    simp only [computeAvgProposerPriority, if_pos hrange]
    rfl
  simp only [shiftByAvgProposerPriorityWith, List.isEmpty_iff, hne, if_false, havg, Except.ok_bind]
  refine congrArg _ (mapPriorities_congr fun v hv ↦ ?_)
  have := hb v hv
  apply har.sub
  unfold I64.InRange I64.minValue
  unfold I64.maxValue at hB ⊢
  omega

theorem sum_map_sub_const {α : Type} (l : List α) (f : α → ℤ) (c : ℤ) :
    (l.map fun x ↦ f x - c).sum = (l.map f).sum - l.length * c := by
  induction l with
  | nil => simp
  | cons x l ih =>
    simp only [List.map_cons, List.sum_cons, ih, List.length_cons, Nat.cast_add, Nat.cast_one]
    ring

/-- Centering leaves the priorities summing to the remainder of their sum by their number. -/
theorem sum_sub_mean (l : List PriorityValidator) :
    (l.map fun v ↦ v.proposerPriority - (l.map (·.proposerPriority)).sum / (l.length : ℤ)).sum =
      (l.map (·.proposerPriority)).sum % (l.length : ℤ) := by
  rw [sum_map_sub_const l (·.proposerPriority), Int.emod_def]

/-! ## Balancing after the changes -/

/-- A set is balanced when its validators are distinct, of power `DefaultDashVotingPower`,
there are some, their priorities are within twice the total of each other and sum to a value
in `[0, n)`, and the cache holds the total, within `MaxTotalVotingPower`. -/
theorem balanced_of {vals : PrioritySet}
    (hpow : ∀ v ∈ vals.validators, v.votingPower = defaultDashVotingPower)
    (hnd : (vals.validators.map (·.proTxHash)).Nodup) (hne : vals.validators ≠ [])
    (hspread : ∀ a ∈ vals.validators, ∀ b ∈ vals.validators,
      a.proposerPriority - b.proposerPriority ≤ 2 * vals.totalVotingPower)
    (hcen : 0 ≤ (vals.validators.map (·.proposerPriority)).sum ∧
      (vals.validators.map (·.proposerPriority)).sum < vals.validators.length)
    (htot : vals.totalVotingPower = (vals.validators.map (·.votingPower)).sum)
    (hle : vals.totalVotingPower ≤ maxTotalVotingPower) : vals.Balanced := by
  have htotal : total vals.entries = vals.totalVotingPower := by
    rw [htot]
    simp [total, entries, Function.comp_def]
  refine ⟨⟨fun e he ↦ ?_, by decide, nodup_entries_iff.mpr hnd, by simpa [entries] using hne,
    fun a ha b hb ↦ ?_, ?_⟩, htotal.symm, hle⟩
  · obtain ⟨v, hv, rfl⟩ := List.mem_map.mp he
    exact hpow v hv
  · obtain ⟨x, hx, rfl⟩ := List.mem_map.mp ha
    obtain ⟨y, hy, rfl⟩ := List.mem_map.mp hb
    rw [htotal]
    exact hspread x hx y hy
  · unfold Centered
    rw [credits_entries]
    simpa [entries] using hcen

/-- Rescaling an updatable set with validators to twice its total divides every priority by
one positive ratio, after which they are within twice the total of each other and still
within three times `MaxTotalVotingPower`. -/
theorem Updatable.rescale {u v : PrioritySet} (hu : u.Updatable) (hne : u.validators ≠ [])
    (hr : u.rescalePriorities (I64.wrap (priorityWindowSizeFactor * u.totalVotingPower)) = .ok v) :
    ∃ ratio, 0 < ratio ∧ v = u.mapPriorities (·.tdiv ratio) ∧
      (∀ a ∈ u.validators, ∀ b ∈ u.validators,
        a.proposerPriority.tdiv ratio - b.proposerPriority.tdiv ratio ≤ 2 * u.totalVotingPower) ∧
      ∀ x ∈ v.validators, -(3 * (maxTotalVotingPower : ℤ)) ≤ x.proposerPriority ∧
        x.proposerPriority ≤ 3 * maxTotalVotingPower := by
  have ht := hu.total_le
  have hpos : 100 ≤ u.totalVotingPower := by
    have hlen : 1 ≤ u.validators.length := List.length_pos_iff.mpr hne
    rw [hu.totalVotingPower_eq_mul, defaultDashVotingPower]
    omega
  rw [maxTotalVotingPower_eq] at ht
  have hd : I64.wrap (priorityWindowSizeFactor * u.totalVotingPower) = 2 * u.totalVotingPower := by
    rw [priorityWindowSizeFactor, I64.wrap_of_inRange]
    unfold I64.InRange I64.minValue I64.maxValue
    omega
  have hb := hu.priority_mem
  obtain ⟨ratio, hratio, hr', hwin⟩ := rescalePriorities_eq_ok hne
    (B := 3 * (maxTotalVotingPower : ℤ)) (by rw [maxTotalVotingPower_eq]; unfold I64.maxValue; omega)
    hb (d := 2 * u.totalVotingPower) (by omega)
  rw [hd, hr'] at hr
  obtain rfl := Except.ok.inj hr
  refine ⟨ratio, hratio, rfl, hwin, fun x hx ↦ ?_⟩
  obtain ⟨y, hy, rfl⟩ := List.mem_map.mp hx
  exact I64.tdiv_mem_of_mem hratio (hb y hy).1 (hb y hy).2

theorem three_maxTotalVotingPower_le : 2 * (3 * (maxTotalVotingPower : ℤ)) ≤ I64.maxValue := by
  rw [maxTotalVotingPower_eq]
  unfold I64.maxValue
  omega

/-- Rescaling an updatable set of validators to twice its total and centering it balances
it. -/
theorem Updatable.recenter {u v w : PrioritySet} (hu : u.Updatable) (hne : u.validators ≠ [])
    {ar : PriorityArith} (har : ar.ExactInRange)
    (hr : u.rescalePriorities (I64.wrap (priorityWindowSizeFactor * u.totalVotingPower)) = .ok v)
    (hs : v.shiftByAvgProposerPriorityWith ar = .ok w) : w.Balanced := by
  obtain ⟨ratio, -, rfl, hwin, hvb⟩ := hu.rescale hne hr
  have hvne : (u.mapPriorities (·.tdiv ratio)).validators ≠ [] := by simpa using hne
  rw [shiftByAvgProposerPriorityWith_eq_ok hvne three_maxTotalVotingPower_le hvb har] at hs
  obtain rfl := Except.ok.inj hs
  apply balanced_of
  · intro x hx
    simp only [validators_mapPriorities, List.map_map, List.mem_map, Function.comp_apply] at hx
    obtain ⟨y, hy, rfl⟩ := hx
    exact hu.votingPower y hy
  · simpa [Function.comp_def] using hu.nodup
  · simpa using hne
  · intro x hx y hy
    simp only [validators_mapPriorities, List.map_map, List.mem_map, Function.comp_apply] at hx hy
    obtain ⟨x', hx', rfl⟩ := hx
    obtain ⟨y', hy', rfl⟩ := hy
    have := hwin x' hx' y' hy'
    simp only [proposerPriority_withPriority, totalVotingPower_mapPriorities]
    omega
  · have hn : (0 : ℤ) < (u.mapPriorities (·.tdiv ratio)).validators.length := by
      exact_mod_cast List.length_pos_iff.mpr hvne
    have hsum := sum_sub_mean (u.mapPriorities (·.tdiv ratio)).validators
    simp only [validators_mapPriorities, List.map_map, Function.comp_def,
      proposerPriority_withPriority, List.length_map] at hsum hn ⊢
    rw [hsum]
    exact ⟨Int.emod_nonneg _ hn.ne', Int.emod_lt_of_pos _ hn⟩
  · simp only [totalVotingPower_mapPriorities, validators_mapPriorities, List.map_map,
      Function.comp_def, votingPower_withPriority]
    exact hu.totalVotingPower_eq
  · exact hu.total_le

/-- The set `updateWithChangeSet` builds from an updatable set and a checked change set,
before it rescales and centers, is updatable and not empty. -/
theorem Updatable.applyChanges {vals u u' : PrioritySet} (hv : vals.Updatable)
    {us ds : List PriorityValidator} (hsplit : ChangeSplit us ds)
    (h100 : ∀ x ∈ us, x.votingPower = defaultDashVotingPower)
    (hfound : ∀ d ∈ ds, ∃ v ∈ vals.validators, v.proTxHash = d.proTxHash)
    (hlen : ds.length ≤ vals.validators.length) {T' : ℤ} (hT₀ : 0 ≤ T')
    (hT₁ : T' ≤ 2 * maxTotalVotingPower)
    (hsome : ¬ (numNewValidators us vals = 0 ∧ vals.validators.length = ds.length))
    (hrem : (vals.applyUpdates (computeNewPriorities us vals T')).applyRemovals ds = .ok u)
    (htot : u.updateTotalVotingPower = .ok u') : u'.Updatable ∧ u'.validators ≠ [] := by
  set ys := computeNewPriorities us vals T'
  set xs := vals.validators.mergeSort fun a b ↦ decide (a.proTxHash ≤ b.proTxHash)
  have hxs : SortedByHash xs := sortedByHash_mergeSort hv.nodup
  have hxmem : ∀ x, x ∈ xs ↔ x ∈ vals.validators := fun x ↦ (List.mergeSort_perm _ _).mem_iff
  have hys : SortedByHash ys := SortedByHash.computeNewPriorities hsplit.updates_sorted vals T'
  obtain ⟨hmsort, hmmem⟩ := applyUpdatesMerge_spec hxs hys
  have hfound' : ∀ d ∈ ds, ∃ x ∈ applyUpdatesMerge xs ys, x.proTxHash = d.proTxHash := by
    intro d hd
    obtain ⟨v, hv', hvd⟩ := hfound d hd
    refine ⟨v, (hmmem v).mpr (.inr ⟨(hxmem v).mpr hv', fun y hy heq ↦ ?_⟩), hvd⟩
    obtain ⟨x, hx, hyx, -⟩ := mem_computeNewPriorities hy
    exact hsplit.disjoint x hx d hd (hyx ▸ heq ▸ hvd)
  have happly : vals.applyUpdates ys = { vals with validators := applyUpdatesMerge xs ys } := rfl
  rw [happly, applyRemovals_eq hmsort hsplit.deletes_sorted hfound'] at hrem
  obtain rfl := Except.ok.inj hrem
  set L := (applyUpdatesMerge xs ys).filter fun x ↦ ds.all fun d ↦ d.proTxHash != x.proTxHash
  have hL : ∀ x ∈ L, x.votingPower = defaultDashVotingPower ∧
      -(3 * (maxTotalVotingPower : ℤ)) ≤ x.proposerPriority ∧
        x.proposerPriority ≤ 3 * maxTotalVotingPower := by
    intro x hx
    obtain ⟨hx, -⟩ := mem_filter_removals.mp hx
    rcases (hmmem x).mp hx with hx | ⟨hx, -⟩
    · obtain ⟨y, hy, -, hpow, hprio⟩ := mem_computeNewPriorities hx
      refine ⟨hpow.trans (h100 y hy), ?_⟩
      rcases hprio with hp | ⟨v, hv', hp⟩
      · have := newPriority_mem hT₀ hT₁
        rw [hp]
        omega
      · rw [hp]
        exact hv.priority_mem v hv'
    · have hx' := (hxmem x).mp hx
      exact ⟨hv.votingPower x hx', hv.priority_mem x hx'⟩
  have hLne : L ≠ [] := by
    by_cases hus : us = []
    · have hlt : ds.length < vals.validators.length := by
        have hnew : numNewValidators us vals = 0 := by simp [numNewValidators, hus]
        have := fun h ↦ hsome ⟨hnew, h⟩
        omega
      obtain ⟨v, hv', hkeep⟩ : ∃ v ∈ vals.validators, ∀ d ∈ ds, d.proTxHash ≠ v.proTxHash := by
        by_contra hall
        push Not at hall
        have := length_le_of_found hv.nodup fun v hv' ↦ by
          obtain ⟨d, hd, hdv⟩ := hall v hv'
          exact ⟨d, hd, hdv⟩
        omega
      have hys_nil : ys = [] := by simp [ys, computeNewPriorities, hus]
      refine List.ne_nil_of_mem (a := v) (mem_filter_removals.mpr ⟨(hmmem v).mpr
        (.inr ⟨(hxmem v).mpr hv', by simp [hys_nil]⟩), hkeep⟩)
    · have hys_ne : ys ≠ [] := by simpa [ys, computeNewPriorities] using hus
      obtain ⟨y, hy⟩ := List.exists_mem_of_ne_nil ys hys_ne
      obtain ⟨x, hx, hyx, -⟩ := mem_computeNewPriorities hy
      refine List.ne_nil_of_mem (a := y) (mem_filter_removals.mpr ⟨(hmmem y).mpr (.inl hy),
        fun d hd heq ↦ hsplit.disjoint x hx d hd (hyx ▸ heq.symm)⟩)
  obtain ⟨rfl, hle⟩ := updateTotalVotingPower_eq_ok (fun x hx ↦ by
    have := (hL x hx).1
    rw [this, defaultDashVotingPower, maxTotalVotingPower_eq]
    omega) htot
  exact ⟨⟨fun x hx ↦ (hL x hx).1, SortedByHash.nodup (hmsort.filter _), rfl, hle,
    fun x hx ↦ (hL x hx).2⟩,
    hLne⟩

/-- The checks and the changes of `updateWithChangeSet` that an updatable set passes leave an
updatable set with validators, to be rescaled and centered. -/
theorem Updatable.changes {vals : PrioritySet} (hv : vals.Updatable)
    {changes us ds : List PriorityValidator} {r₀ T' : ℤ} {vals₁ u u' : PrioritySet}
    (hpc : processChanges changes = .ok (us, ds))
    (hsome : ¬ (numNewValidators us vals = 0 ∧ vals.validators.length = ds.length))
    (hvr : verifyRemovals ds vals = .ok r₀) (hvu : verifyUpdates us vals r₀ = .ok (vals₁, T'))
    (hrem : (vals₁.applyUpdates (computeNewPriorities us vals₁ T')).applyRemovals ds = .ok u)
    (htot : u.updateTotalVotingPower = .ok u') : u'.Updatable ∧ u'.validators ≠ [] := by
  obtain ⟨hsplit, -, -⟩ := processChanges_eq_ok hpc
  obtain ⟨hfound, hlen, rfl⟩ := verifyRemovals_eq_ok hv hvr
  have hr₀ : (ds.length : ℤ) * defaultDashVotingPower ≤ vals.totalVotingPower := by
    rw [hv.totalVotingPower_eq_mul, defaultDashVotingPower]
    omega
  obtain ⟨h100, rfl, hT₀, hT₁, -, -⟩ := verifyUpdates_eq_ok hv hsplit.updates_pos
    (by rw [defaultDashVotingPower]; omega) hr₀ hvu
  exact hv.applyChanges hsplit h100 hfound hlen hT₀ hT₁ hsome hrem htot

theorem Balanced.of_perm {vals w : PrioritySet} (h : vals.Balanced)
    (hp : vals.validators.Perm w.validators) (hc : w.totalVotingPower = vals.totalVotingPower) :
    w.Balanced where
  roundRobin := h.roundRobin.perm (hp.map toEntry)
  totalVotingPower_eq := by
    rw [hc, h.totalVotingPower_eq]
    exact ((hp.map toEntry).map Entry.weight).sum_eq
  total_le := hc ▸ h.total_le

/-- A change set on an updatable set: the set `updateWithChangeSet` returns is balanced. -/
theorem Updatable.updateWithChangeSetWith {vals r : PrioritySet} (hv : vals.Updatable)
    {ar : PriorityArith} (har : ar.ExactInRange) {changes : List PriorityValidator}
    {allowDeletes : Bool} {key qh : Option Bytes} (hne : changes ≠ [])
    (h : vals.updateWithChangeSetWith ar changes allowDeletes key qh = .ok r) : r.Balanced := by
  unfold PrioritySet.updateWithChangeSetWith at h
  rw [if_neg (by simpa using hne)] at h
  rcases key with _ | key <;> rcases qh with _ | qh
  · exact absurd h Except.throw_ne_ok
  · exact absurd h Except.throw_ne_ok
  · exact absurd h Except.throw_ne_ok
  obtain ⟨⟨us, ds⟩, hpc, h₁⟩ := Except.bind_eq_ok.mp h
  simp only [Except.ite_throw_bind_eq_ok, Bool.and_eq_true, decide_eq_true_eq] at h₁
  obtain ⟨-, hsome, h₂⟩ := h₁
  obtain ⟨r₀, hvr, h₃⟩ := Except.bind_eq_ok.mp h₂
  obtain ⟨⟨vals₁, T'⟩, hvu, h₄⟩ := Except.bind_eq_ok.mp h₃
  obtain ⟨u, hrem, h₅⟩ := Except.bind_eq_ok.mp h₄
  obtain ⟨u', htot, h₆⟩ := Except.bind_eq_ok.mp h₅
  obtain ⟨⟨u'', t⟩, htvp, h₇⟩ := Except.bind_eq_ok.mp h₆
  obtain ⟨v, hr, h₈⟩ := Except.bind_eq_ok.mp h₇
  obtain ⟨w, hs, h₉⟩ := Except.bind_eq_ok.mp h₈
  obtain ⟨hu', hne'⟩ := hv.changes hpc hsome hvr hvu hrem htot
  obtain ⟨rfl, rfl⟩ := hu'.TotalVotingPower_eq_ok htvp
  have hw := hu'.recenter hne' har hr hs
  simp only [Except.pure_eq_ok] at h₉
  subst h₉
  exact hw.of_perm (List.mergeSort_perm _ _).symm rfl

/-- On an updatable set, `updateWithChangeSet` over any arithmetic exact on `int64` results
computes what exact arithmetic computes: its centering never clips.  The two computations
are the same up to the centering; there the set is rescaled, within `int64` of its mean. -/
theorem Updatable.updateWithChangeSetWith_eq_exact {vals : PrioritySet} (hv : vals.Updatable)
    {ar : PriorityArith} (har : ar.ExactInRange) (changes : List PriorityValidator)
    (allowDeletes : Bool) (key qh : Option Bytes) :
    vals.updateWithChangeSetWith ar changes allowDeletes key qh =
      vals.updateWithChangeSetWith .exact changes allowDeletes key qh := by
  unfold PrioritySet.updateWithChangeSetWith
  by_cases hempty : changes.isEmpty = true
  · simp only [hempty, if_true]
  rw [if_neg hempty, if_neg hempty]
  rcases key with _ | key <;> rcases qh with _ | qh
  · dsimp only
  · dsimp only
  · dsimp only
  refine Except.bind_congr_ok fun ⟨us, ds⟩ hpc ↦ ?_
  simp only
  by_cases g₁ : (!allowDeletes && !ds.isEmpty) = true
  · rw [if_pos g₁, if_pos g₁, Except.throw_bind, Except.throw_bind]
  rw [if_neg g₁, if_neg g₁]
  by_cases g₂ : (decide (numNewValidators us vals = 0) &&
      decide (vals.validators.length = ds.length)) = true
  · rw [if_pos g₂, if_pos g₂, Except.throw_bind, Except.throw_bind]
  rw [if_neg g₂, if_neg g₂]
  have hsome : ¬ (numNewValidators us vals = 0 ∧ vals.validators.length = ds.length) := by
    simpa using g₂
  refine Except.bind_congr_ok fun r₀ hvr ↦ ?_
  refine Except.bind_congr_ok fun ⟨vals₁, T'⟩ hvu ↦ ?_
  refine Except.bind_congr_ok fun u hrem ↦ ?_
  refine Except.bind_congr_ok fun u' htot ↦ ?_
  refine Except.bind_congr_ok fun ⟨u'', t⟩ htvp ↦ ?_
  refine Except.bind_congr_ok fun v hr ↦ ?_
  obtain ⟨hu', hne'⟩ := hv.changes hpc hsome hvr hvu hrem htot
  obtain ⟨rfl, rfl⟩ := hu'.TotalVotingPower_eq_ok htvp
  obtain ⟨ratio, -, rfl, -, hvb⟩ := hu'.rescale hne' hr
  rw [shiftByAvgProposerPriorityWith_eq_ok (by simpa using hne') three_maxTotalVotingPower_le hvb
      har, shiftByAvgProposerPriorityWith_eq_ok (by simpa using hne') three_maxTotalVotingPower_le
      hvb PriorityArith.exact_exactInRange]

/-! ## A change set on no validators

`NewValidatorSet` is a change set on a set with no validators.  Such a change set, of
distinct validators of power `DefaultDashVotingPower`, passes every check, and the set it
makes holds them sorted by hash, all of priority zero. -/

/-- On changes strictly sorted by hash, the first not of the hash `prev`, with powers in
`[0, MaxTotalVotingPower]`, the scan of `processChanges` splits them by power. -/
theorem processChangesLoop_of_sorted {prev : Bytes} {cs : List PriorityValidator}
    (hs : SortedByHash cs) (hhead : ∀ c ∈ cs.head?, c.proTxHash ≠ prev)
    (hp : ∀ c ∈ cs, 0 ≤ c.votingPower ∧ c.votingPower ≤ maxTotalVotingPower) :
    processChangesLoop prev cs =
      .ok (cs.filter (fun c ↦ c.votingPower ≠ 0), cs.filter (fun c ↦ c.votingPower = 0)) := by
  induction cs generalizing prev with
  | nil => rfl
  | cons c cs ih =>
    have hc := hp c List.mem_cons_self
    have hnext : ∀ d ∈ cs.head?, d.proTxHash ≠ c.proTxHash := by
      intro d hd
      exact (hash_ne_of_id_lt (List.rel_of_pairwise_cons hs (List.mem_of_mem_head? hd))).symm
    rw [processChangesLoop, if_neg (hhead c rfl), if_neg (by omega), if_neg (by omega),
      ih (List.Pairwise.of_cons hs) hnext fun d hd ↦ hp d (List.mem_cons_of_mem _ hd)]
    by_cases hz : c.votingPower = 0 <;> simp [hz]

/-- `processChanges` of changes of distinct, non-empty hashes with powers in
`[0, MaxTotalVotingPower]` splits them by power, sorted by hash. -/
theorem processChanges_of_nodup {cs : List PriorityValidator} (hnd : (cs.map (·.proTxHash)).Nodup)
    (hne : ∀ c ∈ cs, c.proTxHash ≠ [])
    (hp : ∀ c ∈ cs, 0 ≤ c.votingPower ∧ c.votingPower ≤ maxTotalVotingPower) :
    processChanges cs =
      .ok ((cs.mergeSort fun a b ↦ decide (a.proTxHash ≤ b.proTxHash)).filter
          (fun c ↦ c.votingPower ≠ 0),
        (cs.mergeSort fun a b ↦ decide (a.proTxHash ≤ b.proTxHash)).filter
          (fun c ↦ c.votingPower = 0)) := by
  have hmem : ∀ x ∈ cs.mergeSort fun a b ↦ decide (a.proTxHash ≤ b.proTxHash), x ∈ cs :=
    fun x hx ↦ (List.mergeSort_perm cs _).subset hx
  exact processChangesLoop_of_sorted (sortedByHash_mergeSort hnd)
    (fun c hc ↦ hne c (hmem c (List.mem_of_mem_head? hc))) fun c hc ↦ hp c (hmem c hc)

/-- Changes of distinct, nonempty hashes, all of power `DefaultDashVotingPower`, are all
updates: sorted by hash, with nothing to delete. -/
theorem processChanges_of_uniform {cs : List PriorityValidator}
    (hnd : (cs.map (·.proTxHash)).Nodup) (hhash : ∀ c ∈ cs, c.proTxHash ≠ [])
    (h100 : ∀ c ∈ cs, c.votingPower = defaultDashVotingPower) :
    processChanges cs = .ok (cs.mergeSort fun a b ↦ decide (a.proTxHash ≤ b.proTxHash), []) := by
  have hmem : ∀ v ∈ cs.mergeSort (fun a b ↦ decide (a.proTxHash ≤ b.proTxHash)),
      v.votingPower = defaultDashVotingPower :=
    fun v hv ↦ h100 v ((List.mergeSort_perm _ _).subset hv)
  rw [processChanges_of_nodup hnd hhash fun c hc ↦ by
      rw [h100 c hc, defaultDashVotingPower, maxTotalVotingPower_eq]; omega,
    List.filter_eq_self.mpr fun v hv ↦ by simp [hmem v hv, defaultDashVotingPower],
    List.filter_eq_nil_iff.mpr fun v hv ↦ by simp [hmem v hv, defaultDashVotingPower]]

/-- `updateTotalVotingPower` on validators of power `DefaultDashVotingPower`, of total within
`MaxTotalVotingPower`, caches their total. -/
theorem updateTotalVotingPower_of_uniform {vals : PrioritySet}
    (h100 : ∀ v ∈ vals.validators, v.votingPower = defaultDashVotingPower)
    (hT : vals.validators.length * defaultDashVotingPower ≤ maxTotalVotingPower) :
    vals.updateTotalVotingPower = .ok { vals with
      totalVotingPower := vals.validators.length * defaultDashVotingPower } := by
  rw [defaultDashVotingPower, maxTotalVotingPower_eq] at hT
  unfold updateTotalVotingPower
  rw [Except.bind_eq_ok]
  refine ⟨vals.validators.length * defaultDashVotingPower, Except.foldlM_eq_ok_of_indexed
    (fun i (b : ℤ) ↦ b = i * defaultDashVotingPower) (by simp) (fun i hi b hb ↦ ?_)
    (fun b hb ↦ hb), rfl⟩
  have hv := h100 _ (List.get_mem vals.validators ⟨i, hi⟩)
  rw [hv, hb, defaultDashVotingPower]
  have hexact : safeAddClip (i * 100) 100 = i * 100 + 100 := by
    apply safeAddClip_of_inRange
    unfold I64.InRange I64.minValue I64.maxValue
    omega
  refine ⟨i * 100 + 100, ?_, by push_cast; ring⟩
  simp only [hexact, gt_iff_lt, maxTotalVotingPower_eq]
  rw [if_neg (by omega)]
  rfl

/-- `verifyUpdates` of updates of power `DefaultDashVotingPower` on a set with no validators,
of total within `MaxTotalVotingPower`, returns the set and their total. -/
theorem verifyUpdates_of_nil {us : List PriorityValidator} {vals : PrioritySet}
    (hnil : vals.validators = []) (hc : vals.totalVotingPower = 0)
    (h100 : ∀ u ∈ us, u.votingPower = defaultDashVotingPower)
    (hT : us.length * defaultDashVotingPower ≤ maxTotalVotingPower) :
    verifyUpdates us vals 0 = .ok (vals, us.length * defaultDashVotingPower) := by
  have hany : ¬ (us.any fun val ↦ decide (val.votingPower ≠ 0 ∧ val.votingPower ≠ 100)) = true := by
    simp only [List.any_eq_true, decide_eq_true_eq, not_exists, not_and, not_not]
    intro u hu _
    rw [h100 u hu, defaultDashVotingPower]
  have htvp : vals.TotalVotingPower = .ok (vals, 0) := by
    obtain ⟨validators, proposer, key, qh, qt, hpk, tvp⟩ := vals
    simp only at hnil hc
    subst hnil hc
    rfl
  have hdelta : ∀ u ∈ us, vals.delta u = defaultDashVotingPower := fun u hu ↦ by
    simp [delta, getByProTxHash, hnil, h100 u hu]
  have hcopy : ∀ u ∈ us.mergeSort (fun a b ↦ decide (vals.delta a ≤ vals.delta b)), u ∈ us :=
    fun u hu ↦ (List.mergeSort_perm us _).subset hu
  rw [defaultDashVotingPower, maxTotalVotingPower_eq] at hT
  have hexact : I64.wrap (us.length * defaultDashVotingPower + 0) =
      us.length * defaultDashVotingPower := by
    rw [add_zero, defaultDashVotingPower]
    apply I64.wrap_of_inRange
    unfold I64.InRange I64.minValue I64.maxValue
    omega
  unfold verifyUpdates
  simp only [hany, Bool.false_eq_true, if_false, htvp, Except.ok_bind]
  rw [Except.bind_eq_ok]
  refine ⟨us.length * defaultDashVotingPower, Except.foldlM_eq_ok_of_indexed
    (fun i (b : ℤ) ↦ b = i * defaultDashVotingPower) rfl (fun i hi b hb ↦ ?_)
    (fun b hb ↦ by rw [hb, List.length_mergeSort]), by rw [hexact]; rfl⟩
  rw [hdelta _ (hcopy _ (List.get_mem _ ⟨i, hi⟩)), hb, defaultDashVotingPower]
  have hstep : I64.wrap (i * 100 + 100) = i * 100 + 100 := by
    apply I64.wrap_of_inRange
    have : (us.mergeSort fun a b ↦ decide (vals.delta a ≤ vals.delta b)).length = us.length :=
      List.length_mergeSort _
    unfold I64.InRange I64.minValue I64.maxValue
    omega
  refine ⟨i * 100 + 100, ?_, by push_cast; ring⟩
  simp only [hstep, gt_iff_lt, maxTotalVotingPower_eq]
  have : (us.mergeSort fun a b ↦ decide (vals.delta a ≤ vals.delta b)).length = us.length :=
    List.length_mergeSort _
  rw [if_neg (by omega)]
  rfl

/-- Validators sorted by hash, all of one power, are sorted by `ValidatorsByVotingPower`
already. -/
theorem mergeSort_byVotingPower_of_sorted {l : List PriorityValidator} (hs : SortedByHash l)
    {p : ℤ} (hp : ∀ v ∈ l, v.votingPower = p) :
    l.mergeSort (fun a b ↦ !lessByVotingPower b a) = l := by
  apply List.mergeSort_of_pairwise
  refine List.Pairwise.imp_of_mem (fun {a b} ha hb hab ↦ ?_) hs
  have hba : ¬ b.proTxHash < a.proTxHash := fun h ↦ lt_asymm hab (id_lt_of_hash_lt h)
  simp [lessByVotingPower, hp a ha, hp b hb, hba]

/-- Priorities all equal are rescaled to equal ones: the spread is zero. -/
theorem mapPriorities_of_const {vals : PrioritySet} {c : ℤ}
    (hc : ∀ v ∈ vals.validators, v.proposerPriority = c) (f : ℤ → ℤ) :
    vals.mapPriorities f = vals.mapPriorities fun _ ↦ f c :=
  mapPriorities_congr fun v hv ↦ by rw [hc v hv]

/-- The mean of `n` priorities all `c` is `c`. -/
theorem mean_of_const {l : List PriorityValidator} (hne : l ≠ []) {c : ℤ}
    (hc : ∀ v ∈ l, v.proposerPriority = c) :
    (l.map (·.proposerPriority)).sum / (l.length : ℤ) = c := by
  have hn : (0 : ℤ) < l.length := by exact_mod_cast List.length_pos_iff.mpr hne
  rw [List.map_congr_left hc, List.map_const', List.sum_replicate, nsmul_eq_mul,
    Int.mul_ediv_cancel_left _ hn.ne']

/-- Priorities all one value `c` within three times `MaxTotalVotingPower`, rescaled to a
positive window that fits an `int64` beside them and then centred, are all zero. -/
theorem rescale_shift_of_const {u : PrioritySet} (hne : u.validators ≠ []) {c : ℤ}
    (hc : ∀ v ∈ u.validators, v.proposerPriority = c)
    (hcb : -(3 * (maxTotalVotingPower : ℤ)) ≤ c ∧ c ≤ 3 * maxTotalVotingPower) {d : ℤ}
    (hd : 0 < d) (hB : 2 * (3 * (maxTotalVotingPower : ℤ)) + d ≤ I64.maxValue)
    {ar : PriorityArith} (har : ar.ExactInRange) :
    ∃ v, u.rescalePriorities d = .ok v ∧
      v.shiftByAvgProposerPriorityWith ar = .ok (u.mapPriorities fun _ ↦ 0) := by
  obtain ⟨ratio, hratio, hr, -⟩ :=
    rescalePriorities_eq_ok hne hB (fun v hv ↦ by rw [hc v hv]; exact hcb) hd
  rw [mapPriorities_of_const hc] at hr
  refine ⟨_, hr, ?_⟩
  have hvne : (u.mapPriorities fun _ ↦ c.tdiv ratio).validators ≠ [] :=
    fun h ↦ hne (List.map_eq_nil_iff.mp h)
  have hcv : ∀ x ∈ (u.mapPriorities fun _ ↦ c.tdiv ratio).validators,
      x.proposerPriority = c.tdiv ratio := fun x hx ↦ by
    obtain ⟨w, -, rfl⟩ := List.mem_map.mp hx
    rfl
  have hc3 := I64.tdiv_mem_of_mem hratio hcb.1 hcb.2
  rw [shiftByAvgProposerPriorityWith_eq_ok hvne three_maxTotalVotingPower_le
    (fun x hx ↦ by rw [hcv x hx]; exact hc3) har, mean_of_const hvne hcv,
    mapPriorities_of_const hcv, sub_self, mapPriorities_mapPriorities]
  rfl

/-- A change set of distinct validators of power `DefaultDashVotingPower`, none of an empty
hash, of total within `MaxTotalVotingPower`, on a set with no validators nor proposer: the set returned
holds them sorted by hash, all of priority zero, with their total. -/
theorem updateWithChangeSetWith_of_nil {e : PrioritySet} (hnil : e.validators = [])
    (hc : e.totalVotingPower = 0) (hp : e.proposer = none) {ar : PriorityArith} (har : ar.ExactInRange)
    {valz : List PriorityValidator} (hne : valz ≠ []) (hnd : (valz.map (·.proTxHash)).Nodup)
    (hhash : ∀ v ∈ valz, v.proTxHash ≠ [])
    (h100 : ∀ v ∈ valz, v.votingPower = defaultDashVotingPower)
    (hT : valz.length * defaultDashVotingPower ≤ maxTotalVotingPower) (allowDeletes : Bool)
    (key qh : Bytes) :
    e.updateWithChangeSetWith ar valz allowDeletes (some key) (some qh) = .ok { e with
      validators := (valz.mergeSort fun a b ↦ decide (a.proTxHash ≤ b.proTxHash)).map
        (·.withPriority 0),
      thresholdPublicKey := some key, quorumHash := some qh,
      totalVotingPower := valz.length * defaultDashVotingPower } := by
  set sorted := valz.mergeSort fun a b ↦ decide (a.proTxHash ≤ b.proTxHash) with hsorted
  have hperm : sorted.Perm valz := List.mergeSort_perm _ _
  have hs : SortedByHash sorted := sortedByHash_mergeSort hnd
  have hlen : sorted.length = valz.length := List.length_mergeSort _
  have hs100 : ∀ v ∈ sorted, v.votingPower = defaultDashVotingPower :=
    fun v hv ↦ h100 v (hperm.subset hv)
  have hsne : sorted ≠ [] := fun h ↦ hne (List.Perm.eq_nil (h ▸ hperm.symm))
  have hpc : processChanges valz = .ok (sorted, []) := processChanges_of_uniform hnd hhash h100
  have hnew : numNewValidators sorted e ≠ 0 := by
    simpa [numNewValidators, hasProTxHash, hnil] using hsne
  have hvr : verifyRemovals [] e = .ok 0 := by simp [verifyRemovals]
  have hvu := verifyUpdates_of_nil hnil hc hs100 (by rw [hlen]; exact hT)
  set T' : ℤ := sorted.length * defaultDashVotingPower with hT'
  have hn : 1 ≤ sorted.length := List.length_pos_iff.mpr hsne
  have hT'T : T' ≤ maxTotalVotingPower := by rw [hT', hlen]; exact hT
  have hcb := @newPriority_mem T' (by rw [hT', defaultDashVotingPower]; omega)
    (by omega)
  set c := I64.wrap (-I64.wrap (T' + (T' >>> (3 : ℕ))))
  have hcnp : computeNewPriorities sorted e T' = sorted.map (·.withPriority c) := by
    simp only [computeNewPriorities, getByProTxHash, hnil, List.find?_nil]
    rfl
  set ys := sorted.map (·.withPriority c) with hys_def
  have hys : SortedByHash ys := hcnp ▸ SortedByHash.computeNewPriorities hs e T'
  have happ : e.applyUpdates ys = { e with validators := ys } := by
    simp only [applyUpdates, hnil, List.mergeSort_nil, applyUpdatesMerge.eq_1]
  have hrem : ({ e with validators := ys } : PrioritySet).applyRemovals [] =
      .ok { e with validators := ys } := by
    rw [applyRemovals_eq hys List.Pairwise.nil (by simp)]
    simp
  have hys100 : ∀ v ∈ ys, v.votingPower = defaultDashVotingPower := fun v hv ↦ by
    obtain ⟨w, hw, rfl⟩ := List.mem_map.mp hv
    rw [votingPower_withPriority]
    exact hs100 w hw
  have hylen : ys.length = sorted.length := List.length_map _
  set u : PrioritySet :=
    { e with validators := ys, totalVotingPower := ys.length * defaultDashVotingPower } with hu
  have htot : ({ e with validators := ys } : PrioritySet).updateTotalVotingPower = .ok u :=
    updateTotalVotingPower_of_uniform hys100 (by rw [hylen, hlen]; exact hT)
  have hutot : u.totalVotingPower = T' := by
    show (ys.length : ℤ) * defaultDashVotingPower = T'
    rw [hylen, hT']
  have hune : u.validators ≠ [] := fun h ↦ hsne (List.map_eq_nil_iff.mp h)
  have hcu : ∀ v ∈ u.validators, v.proposerPriority = c := fun v hv ↦ by
    obtain ⟨w, -, rfl⟩ := List.mem_map.mp hv
    rfl
  have hT'pos : 100 ≤ T' := by rw [hT', defaultDashVotingPower]; omega
  have hwin : I64.wrap (priorityWindowSizeFactor * u.totalVotingPower) = 2 * T' := by
    rw [hutot, priorityWindowSizeFactor]
    apply I64.wrap_of_inRange
    rw [maxTotalVotingPower_eq] at hT'T
    unfold I64.InRange I64.minValue I64.maxValue
    omega
  have hTM : T' ≤ 1152921504606846975 := by rw [← maxTotalVotingPower_eq]; exact hT'T
  obtain ⟨v, hr, hsh⟩ := rescale_shift_of_const hune hcu ⟨by omega, by omega⟩
    (d := I64.wrap (priorityWindowSizeFactor * u.totalVotingPower))
    (by rw [hwin]; omega)
    (by rw [hwin, maxTotalVotingPower_eq]; unfold I64.maxValue; omega) har
  have hw : (u.mapPriorities fun _ ↦ 0).validators = sorted.map (·.withPriority 0) := by
    have hyu : u.validators = ys := rfl
    rw [validators_mapPriorities, hyu, hys_def, List.map_map]
    refine List.map_congr_left fun x _ ↦ ?_
    rw [Function.comp_apply, withPriority_withPriority]
  have hsort : (sorted.map (·.withPriority 0)).mergeSort (fun a b ↦ !lessByVotingPower b a) =
      sorted.map (·.withPriority 0) :=
    mergeSort_byVotingPower_of_sorted (hs.map_withPriority fun _ ↦ 0) (by simpa using hs100)
  have hT0 : u.totalVotingPower ≠ 0 := by omega
  have hprop : (u.mapPriorities fun _ ↦ 0).proposer = e.proposer := rfl
  rw [← hlen, ← hylen]
  unfold PrioritySet.updateWithChangeSetWith
  rw [if_neg (by simpa using hne)]
  simp only [hpc, Except.ok_bind, List.isEmpty_nil, Bool.not_true, Bool.and_false,
    Bool.false_eq_true, ↓reduceIte, hnew, decide_false, Bool.false_and, hvr, hvu, hcnp, happ,
    hrem, htot, TotalVotingPower_of_ne_zero hT0, hr, hsh, hw, hsort]
  rw [hprop, hp]
  rfl

end PrioritySet

end Tenderdash
