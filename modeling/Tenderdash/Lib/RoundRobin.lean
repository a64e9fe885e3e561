import Mathlib.Algebra.Order.BigOperators.Group.List
import Mathlib.Algebra.Order.Group.Abs
import Mathlib.Data.List.Nodup
import Mathlib.Logic.Function.Iterate
import Mathlib.Tactic.Linarith
import Mathlib.Tactic.Ring

/-!
# Smooth weighted round robin

Rotation of a leader among participants in proportion to their weights.  Every
participant carries a weight and a credit.  A round adds each participant's weight to
its credit, selects the participant with the most credit (a tie goes to the smaller
name), and charges it the total weight.

What is proved here:
* a round leaves the sum of the credits unchanged (`credits_step`), and `m` rounds
  charge every participant the total weight once per selection (`iterate_step`);
* with equal weights, a bound on the spread of the credits that is at least the total
  weight survives every round (`SpreadLE.step`), and spread and sum together bound
  every credit (`credit_mem_of_centered`);
* hence, with equal weights, each participant is selected `m / n` times in `m` rounds
  up to a constant (`count_schedule_near`);
* with equal weights and equal credits, `n` rounds select every participant once, in
  the order of their names, and bring the credits back (`schedule_length_of_uniform`).
-/

namespace RoundRobin

variable {ι : Type}

/-- A participant: its name, its weight and its current credit. -/
@[ext]
structure Entry (ι : Type) where
  id : ι
  weight : ℤ
  credit : ℤ
deriving DecidableEq, Repr

namespace Entry

/-- The entry after a round's weight. -/
def bump (e : Entry ι) : Entry ι := { e with credit := e.credit + e.weight }

/-- The entry after paying `t`. -/
def charge (t : ℤ) (e : Entry ι) : Entry ι := { e with credit := e.credit - t }

@[simp] theorem id_bump (e : Entry ι) : e.bump.id = e.id := rfl
@[simp] theorem weight_bump (e : Entry ι) : e.bump.weight = e.weight := rfl
@[simp] theorem credit_bump (e : Entry ι) : e.bump.credit = e.credit + e.weight := rfl
@[simp] theorem id_charge (t : ℤ) (e : Entry ι) : (e.charge t).id = e.id := rfl
@[simp] theorem weight_charge (t : ℤ) (e : Entry ι) : (e.charge t).weight = e.weight := rfl
@[simp] theorem credit_charge (t : ℤ) (e : Entry ι) : (e.charge t).credit = e.credit - t := rfl

variable [LinearOrder ι]

/-- `a` is preferred to `b`: it has more credit, or as much and a smaller name. -/
def Beats (a b : Entry ι) : Prop := b.credit < a.credit ∨ (a.credit = b.credit ∧ a.id < b.id)

instance : DecidableRel (Beats (ι := ι)) := fun a b ↦
  inferInstanceAs (Decidable (b.credit < a.credit ∨ (a.credit = b.credit ∧ a.id < b.id)))

theorem Beats.irrefl (a : Entry ι) : ¬ a.Beats a := by
  rintro (h | ⟨-, h⟩)
  · exact Int.lt_irrefl _ h
  · exact lt_irrefl _ h

theorem Beats.trans {a b c : Entry ι} (hab : a.Beats b) (hbc : b.Beats c) : a.Beats c := by
  unfold Beats at *
  rcases hab with hab | ⟨hab, hab'⟩ <;> rcases hbc with hbc | ⟨hbc, hbc'⟩
  · exact .inl (Int.lt_trans hbc hab)
  · exact .inl (by omega)
  · exact .inl (by omega)
  · exact .inr ⟨hab.trans hbc, lt_trans hab' hbc'⟩

/-- Not being preferred is transitive: it is "at most as good as". -/
theorem not_beats_trans {a b c : Entry ι} (hab : ¬ a.Beats b) (hbc : ¬ b.Beats c) :
    ¬ a.Beats c := by
  unfold Beats at *
  push Not at *
  refine ⟨le_trans hab.1 hbc.1, fun hac ↦ ?_⟩
  have hab' : a.credit = b.credit := le_antisymm hab.1 (hac ▸ hbc.1)
  exact le_trans (hbc.2 (hab' ▸ hac)) (hab.2 hab')

/-- Two entries neither of which is preferred have the same credit and name. -/
theorem eq_of_not_beats {a b : Entry ι} (h₁ : ¬ a.Beats b) (h₂ : ¬ b.Beats a) :
    a.credit = b.credit ∧ a.id = b.id := by
  unfold Beats at h₁ h₂
  push Not at h₁ h₂
  have hc : a.credit = b.credit := le_antisymm h₁.1 h₂.1
  exact ⟨hc, le_antisymm (h₂.2 hc.symm) (h₁.2 hc)⟩

end Entry

open Entry

variable [LinearOrder ι]

/-! ## Selection -/

/-- The preferred of the entry kept so far and the next one. -/
def better (m x : Entry ι) : Entry ι := if x.Beats m then x else m

/-- The selected entry: a left-to-right scan that keeps the preferred one. -/
def select : List (Entry ι) → Option (Entry ι)
  | [] => none
  | e :: es => some (es.foldl better e)

/-- The scan ends on an entry it has seen, and no entry it has seen is preferred to it. -/
theorem foldl_better_spec (es : List (Entry ι)) (e : Entry ι) :
    es.foldl better e ∈ e :: es ∧ ∀ x ∈ e :: es, ¬ x.Beats (es.foldl better e) := by
  induction es generalizing e with
  | nil => simpa using Beats.irrefl e
  | cons y es ih =>
    obtain ⟨hmem, hbest⟩ := ih (better e y)
    have hkeep : better e y = e ∨ better e y = y := by
      unfold better
      split
      · exact .inr rfl
      · exact .inl rfl
    have hseen : ¬ e.Beats (better e y) ∧ ¬ y.Beats (better e y) := by
      unfold better
      split
      · rename_i hy
        exact ⟨fun he ↦ Beats.irrefl e (he.trans hy), Beats.irrefl y⟩
      · rename_i hy
        exact ⟨Beats.irrefl e, hy⟩
    have hlast : ¬ (better e y).Beats (es.foldl better (better e y)) :=
      hbest _ List.mem_cons_self
    simp only [List.foldl_cons, List.mem_cons, forall_eq_or_imp] at hmem hbest ⊢
    refine ⟨?_, not_beats_trans hseen.1 hlast, not_beats_trans hseen.2 hlast, hbest.2⟩
    rcases hmem with h | h
    · rcases hkeep with hk | hk
      · exact .inl (h.trans hk)
      · exact .inr (.inl (h.trans hk))
    · exact .inr (.inr h)

section select

variable {es : List (Entry ι)} {m x : Entry ι}

theorem select_mem (h : select es = some m) : m ∈ es := by
  cases es with
  | nil => cases h
  | cons e es =>
    simp only [select, Option.some.injEq] at h
    exact h ▸ (foldl_better_spec es e).1

theorem not_beats_select (h : select es = some m) (hx : x ∈ es) : ¬ x.Beats m := by
  cases es with
  | nil => cases h
  | cons e es =>
    simp only [select, Option.some.injEq] at h
    exact h ▸ (foldl_better_spec es e).2 x hx

theorem select_isSome (h : es ≠ []) : ∃ m, select es = some m := by
  cases es with
  | nil => exact absurd rfl h
  | cons e es => exact ⟨_, rfl⟩

/-- The selected entry has the most credit. -/
theorem credit_le_select (h : select es = some m) (hx : x ∈ es) : x.credit ≤ m.credit := by
  have h' := not_beats_select h hx
  unfold Beats at h'
  push Not at h'
  exact h'.1

/-- Among entries of distinct names, an entry that no other is preferred to is the one
selected. -/
theorem select_eq_of_not_beats (hnd : (es.map Entry.id).Nodup) (hm : m ∈ es)
    (h : ∀ x ∈ es, ¬ x.Beats m) : select es = some m := by
  obtain ⟨m', hsel⟩ := select_isSome (List.ne_nil_of_mem hm)
  have hm' := select_mem hsel
  have hid := (eq_of_not_beats (not_beats_select hsel hm) (h m' hm')).2
  rw [hsel, List.inj_on_of_nodup_map hnd hm hm' hid]

end select

/-! ## Rounds -/

/-- The sum of the weights. -/
def total (es : List (Entry ι)) : ℤ := (es.map Entry.weight).sum

/-- The sum of the credits. -/
def credits (es : List (Entry ι)) : ℤ := (es.map Entry.credit).sum

/-- The name a round selects: the entry with the most credit once the weights are added. -/
def chosen (es : List (Entry ι)) : Option ι := (select (es.map Entry.bump)).map Entry.id

/-- One round: every entry gains its weight, and the selected one pays the total. -/
def step (es : List (Entry ι)) : List (Entry ι) :=
  es.map fun e ↦ if chosen es = some e.id then e.bump.charge (total es) else e.bump

/-- The names selected by `m` rounds. -/
def schedule : ℕ → List (Entry ι) → List ι
  | 0, _ => []
  | m + 1, es => (chosen es).toList ++ schedule m (step es)

section step

variable (es : List (Entry ι))

@[simp] theorem length_step : (step es).length = es.length := by simp [step]

@[simp] theorem map_id_step : (step es).map Entry.id = es.map Entry.id := by
  simp only [step, List.map_map]
  refine List.map_congr_left fun e _ ↦ ?_
  simp only [Function.comp_apply]
  split <;> rfl

@[simp] theorem map_weight_step : (step es).map Entry.weight = es.map Entry.weight := by
  simp only [step, List.map_map]
  refine List.map_congr_left fun e _ ↦ ?_
  simp only [Function.comp_apply]
  split <;> rfl

@[simp] theorem total_step : total (step es) = total es := by
  rw [total, map_weight_step, total]

@[simp] theorem total_iterate (m : ℕ) : total (step^[m] es) = total es := by
  induction m generalizing es with
  | zero => rfl
  | succ m ih => rw [Function.iterate_succ_apply, ih, total_step]

/-- A round on one entry: its weight, less the total if it is the one selected. -/
theorem step_eq_map : step es = es.map fun e ↦
    { e with credit := e.credit + e.weight - if chosen es = some e.id then total es else 0 } := by
  refine List.map_congr_left fun e _ ↦ ?_
  split <;> ext <;> simp

end step

/-- The names of a nonempty list give a selected one, whose entry has the most credit
once the weights are added. -/
theorem chosen_spec {es : List (Entry ι)} (h : es ≠ []) :
    ∃ e ∈ es, chosen es = some e.id ∧ ∀ a ∈ es, a.credit + a.weight ≤ e.credit + e.weight := by
  have hne : es.map Entry.bump ≠ [] := mt List.map_eq_nil_iff.mp h
  obtain ⟨m, hsel⟩ := select_isSome hne
  obtain ⟨e, he, rfl⟩ := List.mem_map.mp (select_mem hsel)
  refine ⟨e, he, by simp [chosen, hsel], fun a ha ↦ ?_⟩
  simpa using credit_le_select hsel (List.mem_map_of_mem (f := Entry.bump) ha)

/-- The entry named by the round has the most credit once the weights are added. -/
theorem credit_le_of_chosen {es : List (Entry ι)} (hnd : (es.map Entry.id).Nodup)
    {a e : Entry ι} (he : e ∈ es) (hc : chosen es = some e.id) (ha : a ∈ es) :
    a.credit + a.weight ≤ e.credit + e.weight := by
  obtain ⟨e', he', hc', hmax⟩ := chosen_spec (List.ne_nil_of_mem he)
  have : e' = e := List.inj_on_of_nodup_map hnd he' he (Option.some.inj (hc'.symm.trans hc))
  exact this ▸ hmax a ha

/-- Summing an amount over the entries with one name of a list of distinct names counts
it once. -/
theorem sum_ite_of_nodup {es : List (Entry ι)} (hnd : (es.map Entry.id).Nodup) {i : ι}
    (hi : i ∈ es.map Entry.id) (t : ℤ) :
    (es.map fun e ↦ if some i = some e.id then t else 0).sum = t := by
  induction es with
  | nil => cases hi
  | cons e es ih =>
    simp only [List.map_cons, List.nodup_cons, List.mem_cons] at hnd hi
    simp only [List.map_cons, List.sum_cons, Option.some.injEq]
    rcases hi with rfl | hi
    · have hrest : (es.map fun e' ↦ if e.id = e'.id then t else 0).sum = 0 := by
        refine List.sum_eq_zero fun x hx ↦ ?_
        obtain ⟨e', he', rfl⟩ := List.mem_map.mp hx
        have : e.id ≠ e'.id := fun h ↦ hnd.1 (h ▸ List.mem_map_of_mem he')
        simp [this]
      simp [hrest]
    · have hne : i ≠ e.id := fun h ↦ hnd.1 (h ▸ hi)
      simpa [hne] using ih hnd.2 hi

/-- A round moves credit but creates none: the total is added once and charged once. -/
theorem credits_step {es : List (Entry ι)} (hnd : (es.map Entry.id).Nodup) (hne : es ≠ []) :
    credits (step es) = credits es := by
  obtain ⟨e, he, hc, -⟩ := chosen_spec hne
  have hsum := sum_ite_of_nodup hnd (List.mem_map_of_mem he) (total es)
  rw [← hc] at hsum
  have hsplit : credits (step es) = credits es + total es -
      (es.map fun e ↦ if chosen es = some e.id then total es else 0).sum := by
    rw [step_eq_map, credits, List.map_map, credits, total, eq_sub_iff_add_eq, ← List.sum_map_add,
      ← List.sum_map_add]
    congr 1
    refine List.map_congr_left fun x _ ↦ ?_
    simp
  omega

theorem count_toList (c : Option ι) (i : ι) :
    c.toList.count i = if c = some i then 1 else 0 := by
  cases c with
  | none => simp
  | some j => by_cases h : j = i <;> simp [h]

/-- `m` rounds add `m` weights to every credit and charge the total once per selection:
the credit an entry ends with says how often it was selected. -/
theorem iterate_step (m : ℕ) (es : List (Entry ι)) :
    step^[m] es = es.map fun e ↦
      { e with credit := e.credit + m * e.weight - total es * (schedule m es).count e.id } := by
  induction m generalizing es with
  | zero => simp [schedule]
  | succ m ih =>
    rw [Function.iterate_succ_apply, ih, total_step]
    conv_lhs => arg 2; rw [step_eq_map]
    rw [List.map_map]
    refine List.map_congr_left fun e _ ↦ ?_
    simp only [Function.comp_apply, schedule, List.count_append, count_toList]
    ext
    · rfl
    · rfl
    · split <;> push_cast <;> ring

theorem schedule_succ (m : ℕ) (es : List (Entry ι)) :
    schedule (m + 1) es = schedule m es ++ (chosen (step^[m] es)).toList := by
  induction m generalizing es with
  | zero => simp [schedule]
  | succ m ih => rw [schedule, ih, schedule, List.append_assoc, Function.iterate_succ_apply]

/-! ## Equal weights -/

/-- Every entry has weight `w`. -/
def Uniform (w : ℤ) (es : List (Entry ι)) : Prop := ∀ e ∈ es, e.weight = w

/-- No two credits are more than `d` apart. -/
def SpreadLE (d : ℤ) (es : List (Entry ι)) : Prop := ∀ a ∈ es, ∀ b ∈ es, a.credit - b.credit ≤ d

/-- The credits sum to a value in `[0, n)`, as centering on the floor of their mean leaves
them. -/
def Centered (es : List (Entry ι)) : Prop := 0 ≤ credits es ∧ credits es < es.length

section uniform

variable {w d : ℤ} {es : List (Entry ι)}

omit [LinearOrder ι] in
theorem total_of_uniform (hu : Uniform w es) : total es = es.length * w := by
  induction es with
  | nil => simp [total]
  | cons e es ih =>
    have he := hu e List.mem_cons_self
    have hrest := ih fun x hx ↦ hu x (List.mem_cons_of_mem _ hx)
    simp only [total, List.map_cons, List.sum_cons] at hrest ⊢
    rw [hrest, he, List.length_cons]
    push_cast
    ring

theorem mem_step {e' : Entry ι} (h : e' ∈ step es) : ∃ e ∈ es, e'.id = e.id ∧
    e'.weight = e.weight ∧
    e'.credit = e.credit + e.weight - if chosen es = some e.id then total es else 0 := by
  rw [step_eq_map] at h
  obtain ⟨e, he, rfl⟩ := List.mem_map.mp h
  exact ⟨e, he, rfl, rfl, rfl⟩

theorem Uniform.step (hu : Uniform w es) : Uniform w (step es) := by
  intro e' he'
  obtain ⟨e, he, -, hw, -⟩ := mem_step he'
  exact hw.trans (hu e he)

/-- With equal weights, a round keeps the credits within a spread that is at least the
total weight: the selected entry had the most credit, and drops by the total. -/
theorem SpreadLE.step (hu : Uniform w es) (hnd : (es.map Entry.id).Nodup) (ht : 0 ≤ total es)
    (hd : total es ≤ d) (hs : SpreadLE d es) : SpreadLE d (step es) := by
  intro a' ha' b' hb'
  obtain ⟨a, ha, -, -, hca⟩ := mem_step ha'
  obtain ⟨b, hb, -, -, hcb⟩ := mem_step hb'
  have hab := hs a ha b hb
  rw [hca, hcb, hu a ha, hu b hb]
  by_cases hbc : chosen es = some b.id
  · by_cases hac : chosen es = some a.id
    · have : a = b := List.inj_on_of_nodup_map hnd ha hb (Option.some.inj (hac.symm.trans hbc))
      subst this
      simp only [hac, if_true]
      have := hs a ha a ha
      omega
    · have hle := credit_le_of_chosen hnd hb hbc ha
      rw [hu a ha, hu b hb] at hle
      simp only [hbc, if_true]
      omega
  · by_cases hac : chosen es = some a.id
    · simp only [hac, if_true]
      omega
    · simp only [if_neg hac, if_neg hbc]
      omega

theorem Centered.step (hnd : (es.map Entry.id).Nodup) (hne : es ≠ []) (hc : Centered es) :
    Centered (step es) := by
  rw [Centered, credits_step hnd hne, length_step]
  exact hc

omit [LinearOrder ι] in
/-- Within a spread `d`, credits summing to a value in `[0, n)` all lie in `[-d, d]`: one
of them is at least zero, and one at most zero. -/
theorem credit_mem_of_centered (hs : SpreadLE d es) (hc : Centered es) {e : Entry ι}
    (he : e ∈ es) : -d ≤ e.credit ∧ e.credit ≤ d := by
  have hlen : (es.map Entry.credit).length = es.length := by simp
  obtain ⟨a, ha, ha0⟩ : ∃ a ∈ es, 0 ≤ a.credit := by
    by_contra hneg
    push Not at hneg
    have := List.sum_le_card_nsmul (es.map Entry.credit) (-1) (by
      intro x hx
      obtain ⟨a, ha, rfl⟩ := List.mem_map.mp hx
      have := hneg a ha
      omega)
    have hpos : 0 < es.length := List.length_pos_of_mem he
    simp only [nsmul_eq_mul, hlen] at this
    unfold Centered credits at hc
    omega
  obtain ⟨b, hb, hb0⟩ : ∃ b ∈ es, b.credit ≤ 0 := by
    by_contra hpos
    push Not at hpos
    have := List.card_nsmul_le_sum (es.map Entry.credit) 1 (by
      intro x hx
      obtain ⟨b, hb, rfl⟩ := List.mem_map.mp hx
      have := hpos b hb
      omega)
    simp only [nsmul_eq_mul, hlen, mul_one] at this
    unfold Centered credits at hc
    omega
  have h₁ := hs e he b hb
  have h₂ := hs a ha e he
  omega

/-- The invariant of a run with equal weights: names distinct, spread at most twice the
total weight, credits centered. -/
structure Balanced (w : ℤ) (es : List (Entry ι)) : Prop where
  uniform : Uniform w es
  weight_nonneg : 0 ≤ w
  nodup : (es.map Entry.id).Nodup
  ne_nil : es ≠ []
  spread : SpreadLE (2 * total es) es
  centered : Centered es

theorem Balanced.step (h : Balanced w es) : Balanced w (step es) where
  uniform := h.uniform.step
  weight_nonneg := h.weight_nonneg
  nodup := by rw [map_id_step]; exact h.nodup
  ne_nil := by
    rw [← List.length_pos_iff, length_step]
    exact List.length_pos_iff.mpr h.ne_nil
  spread := by
    have ht : 0 ≤ total es := by
      rw [total_of_uniform h.uniform]
      exact Int.mul_nonneg (Int.natCast_nonneg _) h.weight_nonneg
    rw [total_step]
    exact h.spread.step h.uniform h.nodup ht (by omega)
  centered := h.centered.step h.nodup h.ne_nil

theorem Balanced.iterate (h : Balanced w es) (m : ℕ) : Balanced w (RoundRobin.step^[m] es) := by
  induction m with
  | zero => exact h
  | succ m ih =>
    rw [Function.iterate_succ_apply']
    exact ih.step

omit [LinearOrder ι] in
/-- The invariant does not depend on the order of the participants. -/
theorem Balanced.perm (h : Balanced w es) {es' : List (Entry ι)} (hp : es.Perm es') :
    Balanced w es' where
  uniform e he := h.uniform e (hp.symm.subset he)
  weight_nonneg := h.weight_nonneg
  nodup := (hp.map Entry.id).nodup_iff.mp h.nodup
  ne_nil hnil := h.ne_nil (List.Perm.eq_nil (hnil ▸ hp))
  spread := by
    have ht : total es' = total es := (hp.map Entry.weight).sum_eq.symm
    rw [ht]
    exact fun a ha b hb ↦ h.spread a (hp.symm.subset ha) b (hp.symm.subset hb)
  centered := by
    have hc : credits es' = credits es := (hp.map Entry.credit).sum_eq.symm
    unfold Centered
    rw [hc, ← hp.length_eq]
    exact h.centered

omit [LinearOrder ι] in
/-- Every credit of a balanced run lies within twice the total weight. -/
theorem Balanced.credit_mem (h : Balanced w es) {e : Entry ι} (he : e ∈ es) :
    -(2 * total es) ≤ e.credit ∧ e.credit ≤ 2 * total es :=
  credit_mem_of_centered h.spread h.centered he

/-- Fairness: with equal positive weights, over any `m` rounds from a balanced state each
participant is selected `m / n` times, up to `4` selections either way. -/
theorem count_schedule_near (h : Balanced w es) (hw : 0 < w) (m : ℕ) {e : Entry ι}
    (he : e ∈ es) :
    |(es.length : ℤ) * (schedule m es).count e.id - m| ≤ 4 * es.length := by
  set n : ℤ := (es.length : ℤ)
  set c : ℤ := ((schedule m es).count e.id : ℤ)
  have htotal : total es = n * w := total_of_uniform h.uniform
  have he' : { e with credit := e.credit + m * e.weight - total es * c } ∈ step^[m] es := by
    rw [iterate_step]
    exact List.mem_map_of_mem he
  have hbefore := h.credit_mem he
  have hafter := (h.iterate m).credit_mem he'
  rw [total_iterate] at hafter
  simp only [h.uniform e he, htotal] at hbefore hafter
  have hlo : w * (-(4 * n)) ≤ w * (n * c - m) := by nlinarith
  have hhi : w * (n * c - m) ≤ w * (4 * n) := by nlinarith
  exact abs_le.mpr ⟨le_of_mul_le_mul_left hlo hw, le_of_mul_le_mul_left hhi hw⟩

end uniform

/-! ## Equal weights and equal credits: the cycle -/

section cycle

variable {w c : ℤ} {es : List (Entry ι)}

/-- In a list of names in increasing order, a name outside the first `k` is at least the
`k`-th. -/
theorem getElem_le_of_not_mem_take {L : List ι} (hsort : L.Pairwise (· < ·)) {k : ℕ}
    (hk : k < L.length) {x : ι} (hx : x ∈ L) (hnot : x ∉ L.take k) : L[k] ≤ x := by
  rw [← List.take_append_drop k L, List.mem_append] at hx
  have hdrop := hx.resolve_left hnot
  rw [List.drop_eq_getElem_cons hk, List.mem_cons] at hdrop
  rcases hdrop with rfl | hlater
  · exact le_rfl
  · have hp : (L.drop k).Pairwise (· < ·) := hsort.sublist (List.drop_sublist k L)
    rw [List.drop_eq_getElem_cons hk, List.pairwise_cons] at hp
    exact le_of_lt (hp.1 x hlater)

omit [LinearOrder ι] in
/-- In a list of distinct names, the `k`-th is not among the first `k`. -/
theorem getElem_not_mem_take {L : List ι} (hnd : L.Nodup) {k : ℕ} (hk : k < L.length) :
    L[k] ∉ L.take k := by
  intro hmem
  have hsplit := hnd
  rw [← List.take_append_drop k L, List.nodup_append] at hsplit
  exact hsplit.2.2 _ hmem _ (by rw [List.drop_eq_getElem_cons hk]; exact List.mem_cons_self) rfl

/-- With equal weights, equal credits and names in increasing order, once the first `k`
names have been selected in order, the next round selects the `k`-th: it is the first of
those not yet charged. -/
theorem chosen_iterate_of_uniform (hu : Uniform w es) (hw : 0 < w)
    (hsort : (es.map Entry.id).Pairwise (· < ·)) (hc : ∀ e ∈ es, e.credit = c) {k : ℕ}
    (hk : k < es.length) (hs : schedule k es = (es.map Entry.id).take k) :
    chosen (step^[k] es) = some es[k].id := by
  set L := es.map Entry.id with hL
  have hnd : L.Nodup := hsort.nodup
  have hkL : k < L.length := by simpa [hL] using hk
  have htotal : total es = es.length * w := total_of_uniform hu
  have hpos : (0 : ℤ) < es.length * w := Int.mul_pos (by omega) hw
  rw [iterate_step, hs]
  set F : Entry ι → Entry ι := fun e ↦
    { e with credit := e.credit + k * e.weight - total es * (L.take k).count e.id } with hF
  have hcount (e : Entry ι) (he : e ∈ es) :
      (L.take k).count e.id = if e.id ∈ L.take k then 1 else 0 := by
    split
    · exact List.count_eq_one_of_mem (hnd.sublist (List.take_sublist k L)) ‹_›
    · exact List.count_eq_zero_of_not_mem ‹_›
  have hkth : es[k].id ∉ L.take k := by
    have := getElem_not_mem_take hnd hkL
    simpa [hL] using this
  have hsel : select ((es.map F).map Entry.bump) = some (F es[k]).bump := by
    refine select_eq_of_not_beats (by simpa [List.map_map, Function.comp_def, hF] using hnd)
      (List.mem_map_of_mem (List.mem_map_of_mem (List.getElem_mem hk))) fun x hx ↦ ?_
    obtain ⟨y, hy, rfl⟩ := List.mem_map.mp hx
    obtain ⟨e, he, rfl⟩ := List.mem_map.mp hy
    have hek := hcount es[k] (List.getElem_mem hk)
    have hee := hcount e he
    rw [if_neg hkth] at hek
    unfold Beats
    push Not
    by_cases hin : e.id ∈ L.take k
    · rw [if_pos hin] at hee
      simp only [hF, credit_bump, hek, hee, hu e he, hu _ (List.getElem_mem hk), hc e he,
        hc _ (List.getElem_mem hk), htotal]
      push_cast
      constructor
      · linarith
      · intro h
        linarith
    · rw [if_neg hin] at hee
      have hle := getElem_le_of_not_mem_take hsort hkL (List.mem_map_of_mem he) hin
      simp only [hF, credit_bump, id_bump, hek, hee, hu e he, hu _ (List.getElem_mem hk),
        hc e he, hc _ (List.getElem_mem hk)]
      refine ⟨le_refl _, fun _ ↦ ?_⟩
      simpa [hL] using hle
  rw [chosen, hsel]
  rfl

/-- The first `k ≤ n` rounds select the first `k` names in order. -/
theorem schedule_take_of_uniform (hu : Uniform w es) (hw : 0 < w)
    (hsort : (es.map Entry.id).Pairwise (· < ·)) (hc : ∀ e ∈ es, e.credit = c) :
    ∀ k ≤ es.length, schedule k es = (es.map Entry.id).take k := by
  intro k
  induction k with
  | zero => intro _; rfl
  | succ k ih =>
    intro hk
    have hs := ih (by omega)
    rw [schedule_succ, hs, chosen_iterate_of_uniform hu hw hsort hc (by omega) hs,
      List.take_add_one]
    simp [List.getElem?_eq_getElem (show k < es.length by omega)]

/-- With equal weights and equal credits, `n` rounds select every name once, in increasing
order, and bring every credit back: the schedule is a cycle of period `n`. -/
theorem schedule_length_of_uniform (hu : Uniform w es) (hw : 0 < w)
    (hsort : (es.map Entry.id).Pairwise (· < ·)) (hc : ∀ e ∈ es, e.credit = c) :
    schedule es.length es = es.map Entry.id ∧ step^[es.length] es = es := by
  have hs := schedule_take_of_uniform hu hw hsort hc es.length le_rfl
  rw [List.take_of_length_le (by simp)] at hs
  refine ⟨hs, ?_⟩
  rw [iterate_step, hs, total_of_uniform hu]
  conv_rhs => rw [← List.map_id es]
  refine List.map_congr_left fun e he ↦ ?_
  have hone : (es.map Entry.id).count e.id = 1 :=
    List.count_eq_one_of_mem hsort.nodup (List.mem_map_of_mem he)
  ext
  · rfl
  · rfl
  · simp only [hone, hu e he, id_eq]
    push_cast
    ring

/-- The round after `m` rounds from equal credits selects the name at position `m mod n`. -/
theorem chosen_iterate_cycle (hu : Uniform w es) (hw : 0 < w)
    (hsort : (es.map Entry.id).Pairwise (· < ·)) (hc : ∀ e ∈ es, e.credit = c) (hne : es ≠ [])
    (m : ℕ) :
    chosen (step^[m] es) =
      some (es.get ⟨m % es.length, Nat.mod_lt _ (List.length_pos_iff.mpr hne)⟩).id := by
  have hpos : 0 < es.length := List.length_pos_iff.mpr hne
  have hperiod := (schedule_length_of_uniform hu hw hsort hc).2
  have hcycles : ∀ q, step^[es.length * q] es = es := by
    intro q
    induction q with
    | zero => rfl
    | succ q ih => rw [Nat.mul_succ, Function.iterate_add_apply, hperiod, ih]
  have hm : step^[m] es = step^[m % es.length] es := by
    conv_lhs => rw [← Nat.div_add_mod m es.length, Nat.add_comm, Function.iterate_add_apply,
      hcycles]
  have hr := Nat.mod_lt m hpos
  rw [hm, chosen_iterate_of_uniform hu hw hsort hc hr
    (schedule_take_of_uniform hu hw hsort hc _ (Nat.le_of_lt hr))]
  rfl

/-- From equal credits, the names `m` rounds select run through the names in order,
cyclically. -/
theorem schedule_cycle (hu : Uniform w es) (hw : 0 < w)
    (hsort : (es.map Entry.id).Pairwise (· < ·)) (hc : ∀ e ∈ es, e.credit = c) (hne : es ≠ [])
    (m : ℕ) :
    (schedule m es).map some = (List.range m).map fun j ↦ (es.map Entry.id)[j % es.length]? := by
  have hpos : 0 < es.length := List.length_pos_iff.mpr hne
  induction m with
  | zero => rfl
  | succ m ih =>
    rw [schedule_succ, List.map_append, ih, List.range_succ, List.map_append,
      chosen_iterate_cycle hu hw hsort hc hne m]
    simp [List.getElem?_eq_getElem (Nat.mod_lt m hpos)]

end cycle

end RoundRobin
