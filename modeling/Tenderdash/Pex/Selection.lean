import Tenderdash.Lib.Binary64
import Tenderdash.Lib.Distinct
import Tenderdash.Lib.Shuffle
import Tenderdash.Pex.Capacity

/-!
# Handing out a selection of the book

`GetSelection`, which the peer exchange calls to answer a request for addresses, copies the
address of each entry of `addrLookup` into a slice of `size()` places, shuffles the first
`numAddresses` places with Fisher–Yates, and returns them.  The slice has one place per
address because `size()` counts the addresses (`Indexed.size_eq_length`): with fewer places
the copy would run past the end of the slice and panic, with more the selection could hold
the nil addresses the comment of `GetSelection` rules out.  On every book a run reaches, and
for every draw of the random numbers, the selection is `numAddresses` addresses of the book
with distinct IDs (`getSelection_distinct`).

`GetSelectionWithBias` picks its `numAddresses` from the new buckets first, asking
`randomPickAddresses` for `numRequiredNewAdd` of them, then asks the old buckets for the
rest.  `randomPickAddresses` collects the pointers of every bucket of the type, shuffles
them with `rand.Shuffle`, and keeps the first of each `String()` until it has `num`, which
it tests only after an append: asked for none, it still returns one address.  So when the
new addresses already fill the selection and the book has an old one, the call for the
rest adds one address more.  On every book a run reaches, and when `String()` tells IDs
apart, the selection has distinct IDs, the new addresses first and the old ones after, and
`numAddresses + 1` addresses in that case and `numAddresses` otherwise
(`getSelectionWithBias_length`).
-/

namespace Tenderdash.Pex

/-- Percentage of total addresses known returned by `GetSelection`. -/
def getSelectionPercent : ℤ := 23

/-- Min addresses that must be returned by `GetSelection`. -/
def minGetSelection : ℤ := 32

/-- Max addresses returned by `GetSelection`. -/
def maxGetSelection : ℤ := 250

namespace AddrBook

variable {A I K : Type} [DecidableEq I] [DecidableEq K]

/-- `numAddresses` of `GetSelection`, for a book of `bookSize` addresses; Go's `/` rounds
towards zero. -/
def numAddresses (bookSize : ℤ) : ℤ :=
  min maxGetSelection (max (min minGetSelection bookSize)
    ((bookSize * getSelectionPercent).tdiv 100))

/-- The loop of `GetSelection` that copies the address of each entry of `addrLookup` into
`allAddr`, from place `i` on. -/
def fillAddrs (s : AddrBook A I K) : List (Σ _ : I, Ptr) → List (Option A) → ℤ →
    Except String (List (Option A))
  | [], allAddr, _ => pure allAddr
  | e :: es, allAddr, i =>
    Slice.set allAddr i (some (s.heap e.2).addr) >>= fun allAddr ↦ s.fillAddrs es allAddr (i + 1)

/-- `GetSelection`, with `draw i` the `i`-th value of `tmrand.Intn`; an empty book gives
nil, here the empty list. -/
def getSelection (s : AddrBook A I K) (draw : ℕ → ℕ) : Except String (List (Option A)) :=
  s.checkSize >>= fun nonEmpty ↦
    if ¬ nonEmpty then pure []
    else
      let bookSize := s.size
      let numAddresses := numAddresses bookSize
      Slice.make none bookSize >>= fun allAddr ↦
        s.fillAddrs s.addrLookup.entries allAddr 0 >>= fun allAddr ↦
          Slice.shuffle draw numAddresses.toNat allAddr >>= fun allAddr ↦
            Slice.sliceTo allAddr numAddresses

variable {env : AddrEnv A I K} {s : AddrBook A I K}

omit [DecidableEq I] [DecidableEq K] in
/-- A book of `bookSize` addresses hands out at most all of them, and none of an empty
book. -/
theorem numAddresses_le_max (bookSize : ℤ) : numAddresses bookSize ≤ maxGetSelection :=
  min_le_left _ _

theorem numAddresses_mem {bookSize : ℤ} (h : 0 ≤ bookSize) :
    0 ≤ numAddresses bookSize ∧ numAddresses bookSize ≤ bookSize := by
  have hdiv : (bookSize * getSelectionPercent).tdiv 100 = bookSize * getSelectionPercent / 100 :=
    Int.tdiv_eq_ediv_of_nonneg (Int.mul_nonneg h (by decide))
  unfold numAddresses
  rw [hdiv]
  simp only [maxGetSelection, minGetSelection, getSelectionPercent]
  omega

omit [DecidableEq I] [DecidableEq K] in
/-- The copy into a slice of nil addresses past a prefix fills the places after the prefix
in order. -/
theorem fillAddrs_eq :
    ∀ (es : List (Σ _ : I, Ptr)) (pre : List (Option A)) (m : ℕ), es.length ≤ m →
      s.fillAddrs es (pre ++ List.replicate m none) pre.length =
        .ok (pre ++ es.map (fun e ↦ some (s.heap e.2).addr) ++ List.replicate (m - es.length) none)
  | [], pre, m, _ => by simp [fillAddrs]
  | e :: es, pre, m, hm => by
    obtain ⟨m, rfl⟩ : ∃ m', m = m' + 1 := ⟨m - 1, by rw [List.length_cons] at hm; omega⟩
    have hin : Slice.InRange (pre ++ List.replicate (m + 1) none) pre.length :=
      ⟨Int.natCast_nonneg _, by simp only [List.length_append, List.length_replicate]; omega⟩
    have hset : (pre ++ List.replicate (m + 1) none).set pre.length (some (s.heap e.2).addr) =
        (pre ++ [some (s.heap e.2).addr]) ++ List.replicate m none := by
      rw [List.replicate_succ, List.set_append_right _ _ le_rfl, Nat.sub_self, List.set_cons_zero,
        List.append_assoc, List.singleton_append]
    have hlen : ((pre.length : ℤ) + 1) = ((pre ++ [some (s.heap e.2).addr]).length : ℤ) := by
      simp
    rw [fillAddrs, Slice.set_ok_of_inRange hin, Except.ok_bind, Int.toNat_natCast, hset, hlen,
      fillAddrs_eq es _ m (by rw [List.length_cons] at hm; omega)]
    simp

/-- `GetSelection` of an `Indexed` book does not panic, and hands out `numAddresses` of its
addresses, none of them nil, with distinct IDs. -/
theorem Indexed.getSelection (h : Indexed env s) (draw : ℕ → ℕ) :
    ∃ sel : List A, s.getSelection draw = .ok (sel.map some) ∧
      (sel.length : ℤ) = numAddresses s.size ∧ (sel.map env.id).Nodup ∧
      ∀ a ∈ sel, ∃ p, s.addrLookup.lookup (env.id a) = some p ∧ (s.heap p).addr = a := by
  set addrs := s.addrLookup.entries.map fun e ↦ (s.heap e.2).addr with haddrs
  have hsize : s.size = addrs.length := by
    rw [h.size_eq_length, haddrs, List.length_map, AList.keys, List.keys, List.length_map]
  have hids : addrs.map env.id = s.addrLookup.keys := by
    rw [haddrs, List.map_map, AList.keys, List.keys]
    refine List.map_congr_left fun e he ↦ ?_
    exact h.lookup_id e.1 e.2 (AList.mem_lookup_iff.mpr he)
  have hmem : ∀ a ∈ addrs, ∃ p, s.addrLookup.lookup (env.id a) = some p ∧ (s.heap p).addr = a :=
    fun a ha ↦ by
      obtain ⟨e, he, rfl⟩ := List.mem_map.mp ha
      have hl : s.addrLookup.lookup e.1 = some e.2 := AList.mem_lookup_iff.mpr he
      rw [h.lookup_id e.1 e.2 hl]
      exact ⟨e.2, hl, rfl⟩
  have hnum := numAddresses_mem (hsize ▸ Int.natCast_nonneg addrs.length)
  unfold AddrBook.getSelection checkSize
  rw [if_neg (by unfold size at hsize; omega), Except.pure_eq_ok.mpr rfl, Except.ok_bind]
  by_cases hempty : addrs = []
  · have h0 : s.size = 0 := by rw [hsize, hempty, List.length_nil, Int.natCast_zero]
    refine ⟨[], ?_, ?_, List.nodup_nil, fun a ha ↦ absurd ha List.not_mem_nil⟩
    · rw [if_pos (by unfold size at h0; simp [h0])]
      rfl
    · rw [h0]
      rfl
  have hpos : 0 < addrs.length := List.length_pos_iff.mpr hempty
  rw [if_neg (by unfold size at hsize; simp only [decide_eq_true_eq, not_not]; omega)]
  dsimp only
  have hfill : s.fillAddrs s.addrLookup.entries (List.replicate addrs.length none) 0 =
      .ok (addrs.map some) := by
    have := fillAddrs_eq (s := s) s.addrLookup.entries [] s.addrLookup.entries.length le_rfl
    simp only [List.nil_append, List.length_nil, Int.natCast_zero, Nat.sub_self,
      List.replicate_zero, List.append_nil] at this
    rw [haddrs, List.length_map, this, List.map_map]
    rfl
  obtain ⟨ys, hys, hperm⟩ :=
    Slice.shuffle_perm draw (show (numAddresses s.size).toNat ≤ addrs.length by omega)
  have hshuffle : Slice.shuffle draw (numAddresses s.size).toNat (addrs.map some) =
      .ok (ys.map some) := by
    rw [Slice.shuffle_map, hys]
    rfl
  have hslice : Slice.sliceTo (ys.map some) (numAddresses s.size) =
      .ok ((ys.take (numAddresses s.size).toNat).map some) := by
    have hle : (numAddresses s.size).toNat ≤ (ys.map some).length := by
      rw [List.length_map, hperm.length_eq]
      omega
    rw [← Int.toNat_of_nonneg hnum.1, Slice.sliceTo_of_le hle, List.map_take]
    rw [Int.toNat_of_nonneg hnum.1]
  rw [hsize, Slice.make_of_nonneg none (Int.natCast_nonneg _), Int.toNat_natCast, Except.ok_bind,
    hfill, Except.ok_bind, ← hsize, hshuffle, Except.ok_bind, hslice]
  have hnodup : (ys.map env.id).Nodup := by
    rw [(hperm.map env.id).nodup_iff, hids]
    exact s.addrLookup.keys_nodup
  refine ⟨ys.take (numAddresses s.size).toNat, rfl, ?_, ?_, fun a ha ↦ ?_⟩
  · rw [List.length_take, hperm.length_eq]
    omega
  · rw [List.map_take]
    exact hnodup.sublist (List.take_sublist _ _)
  · exact hmem a (hperm.subset (List.mem_of_mem_take ha))

/-- On every book a run from `NewAddrBook` reaches, and for every value of the random
numbers, `GetSelection` does not panic and hands out `numAddresses (size())` addresses of
the book, none of them nil, with distinct IDs. -/
theorem getSelection_distinct (env : AddrEnv A I K) (ka0 : KnownAddress A)
    (calls : List (Time × Call A I)) (draw : ℕ → ℕ) :
    ∃ (s : AddrBook A I K) (sel : List A), (newAddrBook ka0).run env calls = .ok s ∧
      s.getSelection draw = .ok (sel.map some) ∧
      (sel.length : ℤ) = numAddresses s.size ∧ (sel.map env.id).Nodup ∧
      ∀ a ∈ sel, ∃ p, s.addrLookup.lookup (env.id a) = some p ∧ (s.heap p).addr = a := by
  have h₀ : Consistent env (newAddrBook ka0 : AddrBook A I K) := consistent_newAddrBook ka0
  obtain ⟨s, hrun, h⟩ := h₀.run calls
  obtain ⟨sel, hsel, hlen, hnodup, hmem⟩ := h.toIndexed.getSelection draw
  exact ⟨s, sel, hrun, hsel, hlen, hnodup, hmem⟩

/-! ## `GetSelectionWithBias` -/

/-- `percentageOfNum`, `int(math.Round((float64(p) / float64(100)) * float64(n)))`: the
conversions, the quotient and the product each round to `float64`. -/
def percentageOfNum (p n : ℤ) : ℤ :=
  Binary64.goRound
    (Binary64.nearest (Binary64.nearest (Binary64.nearest p / 100) * Binary64.nearest n))

/-- In `float64` 29% of 50 is `14.499999999999998`, which rounds to 14; the exact product
would round to 15. -/
example : percentageOfNum 29 50 = 14 := by decide +kernel

/-- `randomPickAddresses`, with `draw i` the value `rand.Shuffle` draws at place `i`. -/
def randomPickAddresses (s : AddrBook A I K) (env : AddrEnv A I K) (draw : ℕ → ℕ)
    (bucketType : BucketType) (num : ℤ) : Except String (List A) :=
  let buckets := (List.range (bucketCount bucketType)).map (s.buckets bucketType)
  let total := (buckets.map fun bucket ↦ bucket.entries.length).sum
  let addresses := buckets.flatMap fun bucket ↦ bucket.entries.map Sigma.snd
  if num < 0 then throw "runtime error: makeslice: cap out of range"
  else
    Slice.randShuffle draw total addresses >>= fun addresses ↦
      pure ((Distinct.pick (fun p ↦ env.str (s.heap p).addr) num addresses).map
        fun p ↦ (s.heap p).addr)

/-- `GetSelectionWithBias`, with `drawNew` and `drawOld` the draws of the shuffles of the new
and of the old buckets. -/
def getSelectionWithBias (s : AddrBook A I K) (env : AddrEnv A I K) (drawNew drawOld : ℕ → ℕ)
    (biasTowardsNewAddrs : ℤ) : Except String (List A) :=
  s.checkSize >>= fun nonEmpty ↦
    if ¬ nonEmpty then pure []
    else
      let biasTowardsNewAddrs := if biasTowardsNewAddrs > 100 then 100 else biasTowardsNewAddrs
      let biasTowardsNewAddrs := if biasTowardsNewAddrs < 0 then 0 else biasTowardsNewAddrs
      let numAddresses := numAddresses s.size
      let numRequiredNewAdd :=
        max (percentageOfNum biasTowardsNewAddrs numAddresses) (numAddresses - s.n .old)
      s.randomPickAddresses env drawNew .new numRequiredNewAdd >>= fun selection ↦
        s.randomPickAddresses env drawOld .old (numAddresses - selection.length) >>= fun more ↦
          pure (selection ++ more)

/-- The pointers `randomPickAddresses` collects from the buckets of type `t`. -/
def bucketPtrs (s : AddrBook A I K) (t : BucketType) : List Ptr :=
  ((List.range (bucketCount t)).map (s.buckets t)).flatMap fun bucket ↦
    bucket.entries.map Sigma.snd

omit [DecidableEq I] [DecidableEq K] in
/-- A bias in `[0, 100]` asks for at least none and at most all of `n`, for `n` a `float64`
integer: the quotient rounds to at most one, so the product to at most `n`. -/
theorem percentageOfNum_mem {p n : ℤ} (hp : 0 ≤ p) (hp' : p ≤ 100) (hn : 0 ≤ n)
    (hn' : n < 2 ^ 53) : 0 ≤ percentageOfNum p n ∧ percentageOfNum p n ≤ n := by
  have hpf : Binary64.nearest p = p := Binary64.nearest_intCast hp (by omega)
  have hnf : Binary64.nearest n = n := Binary64.nearest_intCast hn hn'
  have hone : Binary64.nearest 1 = 1 := by
    simpa using Binary64.nearest_intCast (show (0 : ℤ) ≤ 1 by norm_num) (by norm_num)
  have hnq : (0 : ℚ) ≤ n := by exact_mod_cast hn
  have hq₀ : (0 : ℚ) ≤ p / 100 := by positivity
  have hq₁ : (p : ℚ) / 100 ≤ 1 := by
    rw [div_le_one (by norm_num)]
    exact_mod_cast hp'
  have hfq₁ : Binary64.nearest (p / 100) ≤ 1 := hone ▸ Binary64.nearest_mono hq₀ hq₁
  have hprod₀ : 0 ≤ Binary64.nearest (p / 100) * n :=
    mul_nonneg (Binary64.nearest_nonneg hq₀) hnq
  have hprod₁ : Binary64.nearest (p / 100) * n ≤ n := mul_le_of_le_one_left hnq hfq₁
  have hr₀ := Binary64.nearest_nonneg hprod₀
  have hr₁ : Binary64.nearest (Binary64.nearest (p / 100) * n) ≤ n := by
    have hmono := Binary64.nearest_mono hprod₀ hprod₁
    rwa [hnf] at hmono
  unfold percentageOfNum
  rw [hpf, hnf]
  exact ⟨Binary64.goRound_nonneg hr₀, Binary64.goRound_le_intCast hr₀ hr₁⟩

omit [DecidableEq I] [DecidableEq K] in
/-- A book of `bookSize` addresses hands out at least `minGetSelection` of them, or all. -/
theorem min_le_numAddresses {bookSize : ℤ} (h : 0 ≤ bookSize) :
    min minGetSelection bookSize ≤ numAddresses bookSize := by
  unfold numAddresses
  simp only [maxGetSelection, minGetSelection]
  omega

omit [DecidableEq I] [DecidableEq K] in
/-- The count of `GetSelectionWithBias`: `L` new addresses of `N` for a request of
`max pct (M - O)`, then the rest of `M` from `O` old ones, each call giving at least one
address when it has one. -/
theorem biased_length {M N O pct : ℤ} (hN : 0 ≤ N) (hO : 0 ≤ O) (hM : min 2 (N + O) ≤ M)
    (hM' : M ≤ N + O) (hp : 0 ≤ pct) (hp' : pct ≤ M) :
    min (max (max pct (M - O)) 1) N + min (max (M - min (max (max pct (M - O)) 1) N) 1) O =
      M + if M ≤ pct ∧ M ≤ N ∧ 0 < O then 1 else 0 := by
  split_ifs <;> omega

omit [DecidableEq I] in
theorem mem_bucketPtrs {t : BucketType} {p : Ptr} :
    p ∈ s.bucketPtrs t ↔
      ∃ idx < bucketCount t, ∃ k, (s.buckets t idx).lookup k = some p := by
  simp only [bucketPtrs, List.mem_flatMap, List.mem_map, List.mem_range]
  constructor
  · rintro ⟨_, ⟨idx, hidx, rfl⟩, e, he, rfl⟩
    exact ⟨idx, hidx, e.1, AList.mem_lookup_iff.mpr he⟩
  · rintro ⟨idx, hidx, k, hk⟩
    exact ⟨_, ⟨idx, hidx, rfl⟩, ⟨k, p⟩, AList.mem_lookup_iff.mp hk, rfl⟩

/-- The buckets of type `t` of a bounded book hold the known addresses of type `t`: the
buckets past the end of the slice are empty. -/
theorem Indexed.mem_bucketPtrs_iff (h : Indexed env s) (hb : Bounded s) {t : BucketType}
    {p : Ptr} : p ∈ s.bucketPtrs t ↔ Known env s p ∧ (s.heap p).bucketType = t := by
  rw [mem_bucketPtrs]
  constructor
  · rintro ⟨idx, -, k, hk⟩
    obtain ⟨hp, ht, -, -⟩ := h.listed_of_lookup hk
    exact ⟨hp, ht⟩
  · rintro ⟨hp, ht⟩
    obtain ⟨idx, hidx⟩ := List.exists_mem_of_ne_nil _ (h.buckets_ne_nil hp)
    have hk : (s.buckets t idx).lookup (env.str (s.heap p).addr) = some p :=
      (h.bucket_iff t idx _ p).mpr ⟨hp, ht, hidx, rfl⟩
    refine ⟨idx, ?_, _, hk⟩
    by_contra hout
    have hlen := hb t idx
    rw [capacity, if_neg hout, Nat.le_zero, List.length_eq_zero_iff] at hlen
    have hmem := AList.mem_lookup_iff.mp hk
    rw [hlen] at hmem
    exact List.not_mem_nil hmem

/-- When `String()` tells IDs apart, the buckets of type `t` hold `n[t]` distinct keys. -/
theorem Indexed.card_bucketPtrs (h : Indexed env s) (hb : Bounded s)
    (hstr : ∀ a b, env.str a = env.str b → env.id a = env.id b) (t : BucketType) :
    ((((s.bucketPtrs t).map fun p ↦ env.str (s.heap p).addr).toFinset.card : ℕ) : ℤ) =
      s.n t := by
  set E := s.addrLookup.entries.filter fun e ↦ (s.heap e.2).bucketType = t
  have hentry : ∀ e ∈ s.addrLookup.entries, s.addrLookup.lookup e.1 = some e.2 :=
    fun e he ↦ AList.mem_lookup_iff.mpr he
  have hset : ((s.bucketPtrs t).map fun p ↦ env.str (s.heap p).addr).toFinset =
      (E.map fun e ↦ env.str (s.heap e.2).addr).toFinset := by
    ext k
    simp only [List.mem_toFinset, List.mem_map, h.mem_bucketPtrs_iff hb, E, List.mem_filter,
      decide_eq_true_eq]
    constructor
    · rintro ⟨p, ⟨hp, ht⟩, rfl⟩
      exact ⟨⟨_, p⟩, ⟨AList.mem_lookup_iff.mp hp, ht⟩, rfl⟩
    · rintro ⟨e, ⟨he, ht⟩, rfl⟩
      refine ⟨e.2, ⟨?_, ht⟩, rfl⟩
      unfold Known
      rw [h.lookup_id e.1 e.2 (hentry e he)]
      exact hentry e he
  have hnodup : (E.map fun e ↦ env.str (s.heap e.2).addr).Nodup := by
    refine List.Nodup.map_on (fun e he e' he' hk ↦ ?_)
      (s.addrLookup.nodupKeys.nodup.filter _)
    have he := hentry e (List.mem_of_mem_filter he)
    have he' := hentry e' (List.mem_of_mem_filter he')
    have hid : e.1 = e'.1 := by
      rw [← h.lookup_id e.1 e.2 he, ← h.lookup_id e'.1 e'.2 he', hstr _ _ hk]
    rw [hid, he'] at he
    exact Sigma.ext hid (heq_of_eq (Option.some.inj he).symm)
  have hcount : E.length = s.typeCount t := by
    rw [typeCount, AList.keys, List.keys, List.countP_map, ← List.countP_eq_length_filter]
    refine List.countP_congr fun e he ↦ ?_
    simp [typeOf, hentry e he]
  rw [hset, List.toFinset_card_of_nodup hnodup, List.length_map, hcount, h.count_eq]

/-- `randomPickAddresses` of a bounded book, asked for a `num` that is not negative, does not
panic and returns `max num 1` addresses of type `t`, or all `n[t]` if there are fewer, with
distinct IDs. -/
theorem Indexed.randomPickAddresses (h : Indexed env s) (hb : Bounded s)
    (hstr : ∀ a b, env.str a = env.str b → env.id a = env.id b) (draw : ℕ → ℕ)
    (t : BucketType) {num : ℤ} (hnum : 0 ≤ num) :
    ∃ sel, s.randomPickAddresses env draw t num = .ok sel ∧
      (sel.length : ℤ) = min (max num 1) (s.n t) ∧ (sel.map env.id).Nodup ∧
      ∀ a ∈ sel, ∃ p, s.addrLookup.lookup (env.id a) = some p ∧ (s.heap p).addr = a ∧
        (s.heap p).bucketType = t := by
  obtain ⟨ys, hys, hperm⟩ := Slice.randShuffle_perm draw (s.bucketPtrs t)
  set key := fun p ↦ env.str (s.heap p).addr
  set ps := Distinct.pick key num ys
  have htotal : ∀ l : List (AList fun _ : K ↦ Ptr),
      (l.map fun bucket ↦ (bucket.entries.length : ℤ)).sum =
        ((l.flatMap fun bucket ↦ bucket.entries.map Sigma.snd).length : ℤ) := by
    intro l
    induction l with
    | nil => rfl
    | cons b l ih =>
      rw [List.map_cons, List.sum_cons, ih, List.flatMap_cons, List.length_append, List.length_map]
      omega
  have hrun : s.randomPickAddresses env draw t num = .ok (ps.map fun p ↦ (s.heap p).addr) := by
    unfold AddrBook.randomPickAddresses
    rw [if_neg (Int.not_lt.mpr hnum), htotal]
    change Slice.randShuffle draw (s.bucketPtrs t).length (s.bucketPtrs t) >>= _ = _
    rw [hys]
    rfl
  have hmem : ∀ p ∈ ps, Known env s p ∧ (s.heap p).bucketType = t := fun p hp ↦
    (h.mem_bucketPtrs_iff hb).mp (hperm.subset ((Distinct.pick_sublist num ys).subset hp))
  have hinj :
      ∀ p ∈ ps, ∀ q ∈ ps, env.id (s.heap p).addr = env.id (s.heap q).addr → p = q :=
    fun p hp q hq hid ↦ by
      have hp' := (hmem p hp).1
      have hq' := (hmem q hq).1
      unfold Known at hp' hq'
      rw [hid, hq'] at hp'
      exact (Option.some.inj hp').symm
  refine ⟨ps.map fun p ↦ (s.heap p).addr, hrun, ?_, ?_, ?_⟩
  · have hcard := h.card_bucketPtrs hb hstr t
    rw [List.length_map, Distinct.length_pick, List.toFinset_eq_of_perm _ _ (hperm.map key)]
    rw [← hcard, Nat.cast_min, Int.toNat_of_nonneg (by omega)]
  · rw [List.map_map]
    exact List.Nodup.map_on hinj (Distinct.nodup_map_pick num ys).of_map
  · intro a ha
    obtain ⟨p, hp, rfl⟩ := List.mem_map.mp ha
    exact ⟨p, (hmem p hp).1, rfl, (hmem p hp).2⟩

/-- `GetSelectionWithBias` of a bounded book, when `String()` tells IDs apart, does not panic
and hands out new addresses, then old ones, with distinct IDs: `numAddresses` of them, and
one more when the bias asks for `numAddresses` new ones, the book has them and it has an
old address. -/
theorem Indexed.getSelectionWithBias (h : Indexed env s) (hb : Bounded s)
    (hstr : ∀ a b, env.str a = env.str b → env.id a = env.id b) (drawNew drawOld : ℕ → ℕ)
    (biasTowardsNewAddrs : ℤ) :
    ∃ selNew selOld : List A,
      s.getSelectionWithBias env drawNew drawOld biasTowardsNewAddrs = .ok (selNew ++ selOld) ∧
      ((selNew ++ selOld).map env.id).Nodup ∧
      (∀ a ∈ selNew, ∃ p, s.addrLookup.lookup (env.id a) = some p ∧ (s.heap p).addr = a ∧
        (s.heap p).bucketType = .new) ∧
      (∀ a ∈ selOld, ∃ p, s.addrLookup.lookup (env.id a) = some p ∧ (s.heap p).addr = a ∧
        (s.heap p).bucketType = .old) ∧
      ((selNew ++ selOld).length : ℤ) = numAddresses s.size +
        if numAddresses s.size ≤
            percentageOfNum (max 0 (min biasTowardsNewAddrs 100)) (numAddresses s.size) ∧
          numAddresses s.size ≤ s.n .new ∧ 0 < s.n .old then 1 else 0 := by
  have hN : 0 ≤ s.n .new := by
    rw [h.count_eq]
    exact Int.natCast_nonneg _
  have hO : 0 ≤ s.n .old := by
    rw [h.count_eq]
    exact Int.natCast_nonneg _
  have hsize : s.size = s.n .new + s.n .old := rfl
  have hM := numAddresses_mem (show 0 ≤ s.size by omega)
  have hM2 := min_le_numAddresses (show 0 ≤ s.size by omega)
  simp only [minGetSelection] at hM2
  have hbias : (if (if biasTowardsNewAddrs > 100 then 100 else biasTowardsNewAddrs) < 0 then 0
      else if biasTowardsNewAddrs > 100 then 100 else biasTowardsNewAddrs) =
        max 0 (min biasTowardsNewAddrs 100) := by
    split_ifs <;> omega
  unfold AddrBook.getSelectionWithBias checkSize
  rw [if_neg (by omega), Except.pure_eq_ok.mpr rfl, Except.ok_bind]
  by_cases hempty : s.size = 0
  · refine ⟨[], [], ?_, List.nodup_nil, fun a ha ↦ absurd ha List.not_mem_nil,
      fun a ha ↦ absurd ha List.not_mem_nil, ?_⟩
    · rw [if_pos (by simp only [decide_eq_true_eq, not_lt]; omega)]
      rfl
    · rw [if_neg (by omega)]
      simp only [List.append_nil, List.length_nil, Nat.cast_zero]
      omega
  rw [if_neg (by simp only [decide_eq_true_eq, not_not]; omega)]
  dsimp only
  rw [hbias]
  set M := numAddresses s.size
  set bias := max 0 (min biasTowardsNewAddrs 100)
  have hpct := percentageOfNum_mem (show 0 ≤ bias by omega) (show bias ≤ 100 by omega) hM.1
    ((numAddresses_le_max s.size).trans_lt (by decide))
  obtain ⟨selNew, hnew, hlenNew, hnodupNew, hmemNew⟩ :=
    h.randomPickAddresses hb hstr drawNew .new
      (show 0 ≤ max (percentageOfNum bias M) (M - s.n .old) by omega)
  have hle : (selNew.length : ℤ) ≤ M := by omega
  obtain ⟨selOld, hold, hlenOld, hnodupOld, hmemOld⟩ :=
    h.randomPickAddresses hb hstr drawOld .old (show 0 ≤ M - selNew.length by omega)
  rw [hnew, Except.ok_bind, hold, Except.ok_bind]
  refine ⟨selNew, selOld, rfl, ?_, hmemNew, hmemOld, ?_⟩
  · rw [List.map_append, List.nodup_append]
    refine ⟨hnodupNew, hnodupOld, fun i hi j hj hij ↦ ?_⟩
    obtain ⟨a, ha, rfl⟩ := List.mem_map.mp hi
    obtain ⟨b, hb', rfl⟩ := List.mem_map.mp hj
    obtain ⟨p, hp, -, hpt⟩ := hmemNew a ha
    obtain ⟨q, hq, -, hqt⟩ := hmemOld b hb'
    rw [hij, hq, Option.some.injEq] at hp
    rw [hp] at hqt
    exact absurd (hpt.symm.trans hqt) (by decide)
  · rw [List.length_append, Nat.cast_add, hlenOld, hlenNew]
    exact biased_length hN hO (by omega) (by omega) hpct.1 hpct.2

/-- On every book a run from `NewAddrBook` reaches, when `String()` tells IDs apart, and for
every bias and every value of the random numbers, `GetSelectionWithBias` does not panic and
hands out new addresses of the book, then old ones, with distinct IDs: `numAddresses` of
them, and `numAddresses + 1` when the bias asks for `numAddresses` new ones, the book has
them and it has an old address. -/
theorem getSelectionWithBias_length (env : AddrEnv A I K) (ka0 : KnownAddress A)
    (calls : List (Time × Call A I))
    (hstr : ∀ a b, env.str a = env.str b → env.id a = env.id b) (drawNew drawOld : ℕ → ℕ)
    (biasTowardsNewAddrs : ℤ) :
    ∃ (s : AddrBook A I K) (selNew selOld : List A), (newAddrBook ka0).run env calls = .ok s ∧
      s.getSelectionWithBias env drawNew drawOld biasTowardsNewAddrs = .ok (selNew ++ selOld) ∧
      ((selNew ++ selOld).map env.id).Nodup ∧
      (∀ a ∈ selNew, ∃ p, s.addrLookup.lookup (env.id a) = some p ∧ (s.heap p).addr = a ∧
        (s.heap p).bucketType = .new) ∧
      (∀ a ∈ selOld, ∃ p, s.addrLookup.lookup (env.id a) = some p ∧ (s.heap p).addr = a ∧
        (s.heap p).bucketType = .old) ∧
      ((selNew ++ selOld).length : ℤ) = numAddresses s.size +
        if numAddresses s.size ≤
            percentageOfNum (max 0 (min biasTowardsNewAddrs 100)) (numAddresses s.size) ∧
          numAddresses s.size ≤ s.n .new ∧ 0 < s.n .old then 1 else 0 := by
  have h₀ : Consistent env (newAddrBook ka0 : AddrBook A I K) := consistent_newAddrBook ka0
  obtain ⟨s, hrun, h, hb⟩ := Bounded.run h₀ (bounded_newAddrBook ka0) calls
  obtain ⟨selNew, selOld, hsel, hnodup, hnew, hold, hlen⟩ :=
    h.toIndexed.getSelectionWithBias hb hstr drawNew drawOld biasTowardsNewAddrs
  exact ⟨s, selNew, selOld, hrun, hsel, hnodup, hnew, hold, hlen⟩

/-- `getSelectionWithBias_length` where addresses are their own IDs and keys. -/
theorem getSelectionWithBias_length_oneBucketEnv :
    (∀ a b, oneBucketEnv.str a = oneBucketEnv.str b → oneBucketEnv.id a = oneBucketEnv.id b) ∧
    ∃ (s : AddrBook ℕ ℕ ℕ) (selNew selOld : List ℕ),
      (newAddrBook (KnownAddress.newKnownAddress 0 0 0)).run oneBucketEnv
        [(0, .addAddress (some 1) (some 1000) 0), (1, .markGood 1)] = .ok s ∧
      s.getSelectionWithBias oneBucketEnv (fun _ ↦ 0) (fun _ ↦ 0) 100 =
        .ok (selNew ++ selOld) ∧
      ((selNew ++ selOld).map oneBucketEnv.id).Nodup ∧
      (∀ a ∈ selNew, ∃ p, s.addrLookup.lookup (oneBucketEnv.id a) = some p ∧
        (s.heap p).addr = a ∧ (s.heap p).bucketType = .new) ∧
      (∀ a ∈ selOld, ∃ p, s.addrLookup.lookup (oneBucketEnv.id a) = some p ∧
        (s.heap p).addr = a ∧ (s.heap p).bucketType = .old) ∧
      ((selNew ++ selOld).length : ℤ) = numAddresses s.size +
        if numAddresses s.size ≤ percentageOfNum (max 0 (min 100 100)) (numAddresses s.size) ∧
          numAddresses s.size ≤ s.n .new ∧ 0 < s.n .old then 1 else 0 :=
  ⟨fun _ _ h ↦ h, getSelectionWithBias_length oneBucketEnv (KnownAddress.newKnownAddress 0 0 0)
    [(0, .addAddress (some 1) (some 1000) 0), (1, .markGood 1)] (fun _ _ h ↦ h) (fun _ ↦ 0)
    (fun _ ↦ 0) 100⟩

/-- Addresses 1 to 34 added from address 1000, and address 34 marked good: with 33 new
addresses and one old, `GetSelectionWithBias(100)` hands out 33 addresses where
`numAddresses` is 32. -/
example :
    (match (newAddrBook (KnownAddress.newKnownAddress 0 0 0)).run oneBucketEnv
        ((List.range 34).map
          (fun k : ℕ ↦ ((k : ℤ), Call.addAddress (some (k + 1)) (some 1000) 0)) ++
          [(34, .markGood 34)]) with
      | .ok s => decide (numAddresses s.size = 32 ∧
          ((s.getSelectionWithBias oneBucketEnv (fun _ ↦ 0) (fun _ ↦ 0) 100).toOption.map
            List.length) = some 33)
      | .error _ => false) = true := by
  decide +kernel

end AddrBook

end Tenderdash.Pex
