import Tenderdash.Lib.FoldUpdate
import Tenderdash.Pex.Capacity

/-!
# Saving the book and loading it back

`p2p/pex/file.go`.  `saveToFile` writes the book's key and the record of each address in
`addrLookup`; `OnStart` has `loadFromFile` read them back into the book `NewAddrBook` made:
each record at a fresh pointer, under its key in each bucket it lists, under its ID in
`addrLookup`, and in the count of its type.  The JSON in between is left out: a record here
is what `json.Marshal` writes of a `knownAddress`, every field of it, and what
`json.Decoder` reads back, and the key is the one the placements of `AddrEnv` are keyed by.
A file that does not exist, does not open or does not decode is handled before the loop and
is not modelled; a bucket index past the end of its slice makes `getBucket` panic.

The book is read through two views: the record under each ID of `addrLookup`, and the record
under each key of each bucket.  For the book at the end of any run, loading what it saves
gives a book with the same views and the same counters, which is again `Consistent`, so the
runs after a restart keep every guarantee of `Run`; what the file does not hold is
`badPeers`, so a restart lifts every ban (`loadFromFile_saveToFile`).
-/

namespace Tenderdash.Pex

namespace AddrBook

open KnownAddress FoldUpdate

variable {A I K : Type} [DecidableEq I] [DecidableEq K] (env : AddrEnv A I K)

/-- `saveToFile`: the record of each address of `addrLookup`, in its iteration order. -/
def saveToFile (s : AddrBook A I K) : List (KnownAddress A) :=
  s.addrLookup.entries.map fun e ↦ s.heap e.2

/-- The loop over `ka.Buckets` in `loadFromFile`: the record `p` goes under key `k` into
each listed bucket of type `t`, found with `getBucket`. -/
def insertIntoBuckets (s : AddrBook A I K) (t : BucketType) (k : K) (p : Ptr)
    (idxs : List ℕ) : Except String (AddrBook A I K) :=
  idxs.foldlM (fun s idx ↦ s.getBucket t idx >>= fun bucket ↦
    pure (s.setBucket t idx (bucket.insert k p))) s

/-- One round of the loop of `loadFromFile`: the decoded record `ka`, at a fresh pointer. -/
def loadRecord (s : AddrBook A I K) (ka : KnownAddress A) : Except String (AddrBook A I K) :=
  let p := s.next
  let s := { s.heapSet p ka with next := p + 1 }
  s.insertIntoBuckets ka.bucketType (env.str ka.addr) p ka.buckets >>= fun s ↦
    let s := { s with addrLookup := s.addrLookup.insert (env.id ka.addr) p }
    pure (if ka.bucketType = .new then s.incr .new else s.incr .old)

/-- `loadFromFile`, of a file that decodes to the records `addrs`. -/
def loadFromFile (s : AddrBook A I K) (addrs : List (KnownAddress A)) :
    Except String (AddrBook A I K) :=
  addrs.foldlM (fun s ka ↦ s.loadRecord env ka) s

variable {env} {s : AddrBook A I K}

/-! ## The views of a book -/

/-- The book seen through `addrLookup`: the record under each ID. -/
def lookupView (s : AddrBook A I K) (i : I) : Option (KnownAddress A) :=
  (s.addrLookup.lookup i).map s.heap

/-- The book seen through its buckets: the record under each key of each bucket. -/
def bucketView (s : AddrBook A I K) (t : BucketType) (idx : ℕ) (k : K) :
    Option (KnownAddress A) :=
  ((s.buckets t idx).lookup k).map s.heap

/-- Every pointer the maps hold is allocated. -/
def Allocated (s : AddrBook A I K) : Prop :=
  (∀ i p, s.addrLookup.lookup i = some p → p < s.next) ∧
    ∀ t idx k p, (s.buckets t idx).lookup k = some p → p < s.next

/-- The write `loadRecord` makes into `lookupView`. -/
abbrev writeLookup (env : AddrEnv A I K) :=
  writeIf (fun _ : KnownAddress A ↦ True) (fun ka ↦ env.id ka.addr) some

/-- The write `loadRecord` makes into `bucketView` of bucket `idx` of type `t`. -/
abbrev writeBucket (env : AddrEnv A I K) (t : BucketType) (idx : ℕ) :=
  writeIf (fun ka : KnownAddress A ↦ ka.bucketType = t ∧ idx ∈ ka.buckets)
    (fun ka ↦ env.str ka.addr) some

/-! ## One record -/

omit [DecidableEq I] in
/-- The loop over the buckets of a record, each in its slice, puts it in each. -/
theorem insertIntoBuckets_eq (t : BucketType) (k : K) (p : Ptr) :
    ∀ (idxs : List ℕ) (s : AddrBook A I K), (∀ idx ∈ idxs, idx < bucketCount t) →
      s.insertIntoBuckets t k p idxs = .ok { s with
        buckets := fun t' idx' ↦ if t' = t ∧ idx' ∈ idxs then (s.buckets t' idx').insert k p
          else s.buckets t' idx' }
  | [], s, _ => by simp [insertIntoBuckets]
  | j :: js, s, hidx => by
    have hj : s.getBucket t j = .ok (s.buckets t j) := if_pos (hidx j List.mem_cons_self)
    have hcons : s.insertIntoBuckets t k p (j :: js) =
        (s.setBucket t j ((s.buckets t j).insert k p)).insertIntoBuckets t k p js := by
      unfold insertIntoBuckets
      rw [List.foldlM_cons, hj]
      rfl
    rw [hcons, insertIntoBuckets_eq t k p js _ fun idx h ↦ hidx idx (List.mem_cons_of_mem _ h)]
    congr 2
    funext t' idx'
    by_cases hj' : t' = t ∧ idx' = j
    · obtain ⟨rfl, rfl⟩ := hj'
      by_cases hjs : idx' ∈ js <;> simp [hjs, AList.insert_insert]
    · by_cases hjs : t' = t ∧ idx' ∈ js
      · obtain ⟨rfl, hmem⟩ := hjs
        have hne : idx' ≠ j := fun h ↦ hj' ⟨rfl, h⟩
        simp [hne, hmem]
      · simp only [buckets_setBucket, hj', if_false, hjs, List.mem_cons]
        split
        · rename_i h
          exact absurd ⟨h.1, h.2.resolve_left (fun h' ↦ hj' ⟨h.1, h'⟩)⟩ hjs
        · rfl

/-- `loadRecord` of a record whose buckets are in their slices, in closed form. -/
theorem loadRecord_eq {ka : KnownAddress A}
    (hidx : ∀ idx ∈ ka.buckets, idx < bucketCount ka.bucketType) :
    s.loadRecord env ka = .ok { s with
      heap := Function.update s.heap s.next ka
      next := s.next + 1
      buckets := fun t' idx' ↦ if t' = ka.bucketType ∧ idx' ∈ ka.buckets then
        (s.buckets t' idx').insert (env.str ka.addr) s.next else s.buckets t' idx'
      addrLookup := s.addrLookup.insert (env.id ka.addr) s.next
      n := Function.update s.n ka.bucketType (s.n ka.bucketType + 1) } := by
  unfold loadRecord
  dsimp only
  rw [insertIntoBuckets_eq _ _ _ _ _ hidx, Except.ok_bind]
  cases ka.bucketType <;> rfl

variable (env) in
/-- What `loadRecord` does to the views: one write of the record into each. -/
theorem loadRecord_views (hA : Allocated s) {ka : KnownAddress A}
    (hidx : ∀ idx ∈ ka.buckets, idx < bucketCount ka.bucketType) :
    ∃ l, s.loadRecord env ka = .ok l ∧ Allocated l ∧
      lookupView l = writeLookup env (lookupView s) ka ∧
      (∀ t idx, bucketView l t idx = writeBucket env t idx (bucketView s t idx) ka) ∧
      (∀ t, l.n t = s.n t + if ka.bucketType = t then 1 else 0) ∧
      l.badPeers = s.badPeers ∧ l.next = s.next + 1 ∧ l.heap s.next = ka ∧
      ∀ q, q < s.next → l.heap q = s.heap q := by
  refine ⟨_, loadRecord_eq hidx, ⟨fun i p hp ↦ ?_, fun t idx k p hp ↦ ?_⟩, ?_, fun t idx ↦ ?_,
    fun t ↦ ?_, rfl, rfl, Function.update_self _ _ _, fun q hq ↦ Function.update_of_ne (Nat.ne_of_lt hq) _ _⟩
  · dsimp only at hp ⊢
    rw [lookup_insert_eq_ite] at hp
    split at hp
    · cases hp
      exact Nat.lt_succ_self _
    · exact Nat.lt_succ_of_lt (hA.1 i p hp)
  · dsimp only at hp ⊢
    split at hp
    · rw [lookup_insert_eq_ite] at hp
      split at hp
      · cases hp
        exact Nat.lt_succ_self _
      · exact Nat.lt_succ_of_lt (hA.2 _ _ k p hp)
    · exact Nat.lt_succ_of_lt (hA.2 t idx k p hp)
  · funext i
    unfold lookupView writeLookup writeIf
    rw [if_pos trivial]
    dsimp only
    rw [lookup_insert_eq_ite]
    by_cases hi : i = env.id ka.addr
    · rw [if_pos hi, hi, Function.update_self]
      simp
    · rw [if_neg hi, Function.update_of_ne hi]
      cases hl : s.addrLookup.lookup i with
      | none => rfl
      | some p => simp [Function.update_of_ne (Nat.ne_of_lt (hA.1 i p hl))]
  · funext k
    unfold bucketView writeBucket writeIf
    dsimp only
    by_cases hb : ka.bucketType = t ∧ idx ∈ ka.buckets
    · obtain ⟨rfl, hmem⟩ := hb
      rw [if_pos ⟨rfl, hmem⟩, if_pos ⟨rfl, hmem⟩, lookup_insert_eq_ite]
      by_cases hk : k = env.str ka.addr
      · rw [if_pos hk, hk, Function.update_self]
        simp
      · rw [if_neg hk, Function.update_of_ne hk]
        cases hl : (s.buckets ka.bucketType idx).lookup k with
        | none => rfl
        | some p => simp [Function.update_of_ne (Nat.ne_of_lt (hA.2 _ _ k p hl))]
    · rw [if_neg hb, if_neg fun h ↦ hb ⟨h.1.symm, h.2⟩]
      cases hl : (s.buckets t idx).lookup k with
      | none => rfl
      | some p => simp [Function.update_of_ne (Nat.ne_of_lt (hA.2 t idx k p hl))]
  · dsimp only
    by_cases ht : ka.bucketType = t
    · subst ht
      simp
    · rw [Function.update_of_ne (Ne.symm ht), if_neg ht, Int.add_zero]

variable (env) in
/-- The loop of `loadFromFile`: the records written into the views in their order, and
counted, each at the next fresh pointer. -/
theorem loadFromFile_views (addrs : List (KnownAddress A)) :
    ∀ s : AddrBook A I K, Allocated s →
      (∀ ka ∈ addrs, ∀ idx ∈ ka.buckets, idx < bucketCount ka.bucketType) →
      ∃ l, s.loadFromFile env addrs = .ok l ∧ Allocated l ∧
        lookupView l = addrs.foldl (writeLookup env) (lookupView s) ∧
        (∀ t idx, bucketView l t idx = addrs.foldl (writeBucket env t idx) (bucketView s t idx)) ∧
        (∀ t, l.n t = s.n t + (addrs.countP fun ka ↦ ka.bucketType = t : ℕ)) ∧
        l.badPeers = s.badPeers ∧ l.next = s.next + addrs.length ∧
        (∀ j (hj : j < addrs.length), l.heap (s.next + j) = addrs[j]) ∧
        ∀ q, q < s.next → l.heap q = s.heap q := by
  induction addrs with
  | nil =>
    intro s hA _
    refine ⟨s, rfl, hA, rfl, fun _ _ ↦ rfl, fun _ ↦ ?_, rfl, rfl, fun j hj ↦ absurd hj (by simp),
      fun _ _ ↦ rfl⟩
    simp
  | cons ka addrs ih =>
    intro s hA hidx
    obtain ⟨l₁, he₁, hA₁, hL₁, hB₁, hn₁, hbad₁, hnext₁, hheap₁, hold₁⟩ :=
      loadRecord_views env hA (hidx ka List.mem_cons_self)
    obtain ⟨l, he, hA', hL, hB, hn, hbad, hnext, hheap, hold⟩ :=
      ih l₁ hA₁ fun ka' h ↦ hidx ka' (List.mem_cons_of_mem _ h)
    refine ⟨l, ?_, hA', ?_, fun t idx ↦ ?_, fun t ↦ ?_, hbad.trans hbad₁, ?_, fun j hj ↦ ?_,
      fun q hq ↦ ?_⟩
    · unfold loadFromFile
      rw [List.foldlM_cons, he₁, Except.ok_bind]
      exact he
    · rw [hL, hL₁, List.foldl_cons]
    · rw [hB, hB₁, List.foldl_cons]
    · rw [hn, hn₁, List.countP_cons]
      by_cases ht : ka.bucketType = t <;> simp [ht]
      rw [Int.add_assoc, Int.add_comm 1]
    · rw [hnext, hnext₁, List.length_cons, Nat.add_assoc, Nat.add_comm 1]
    · cases j with
      | zero =>
        rw [Nat.add_zero, hold s.next (hnext₁ ▸ Nat.lt_succ_self _), hheap₁, List.getElem_cons_zero]
      | succ j =>
        have := hheap j (by simpa using hj)
        rw [hnext₁, Nat.add_assoc, Nat.add_comm 1 j] at this
        rw [this, List.getElem_cons_succ]
    · rw [hold q (hnext₁ ▸ Nat.lt_succ_of_lt hq), hold₁ q hq]

/-! ## What a consistent book saves -/

omit [DecidableEq K] in
theorem mem_saveToFile {ka : KnownAddress A} :
    ka ∈ s.saveToFile ↔ ∃ i p, s.addrLookup.lookup i = some p ∧ ka = s.heap p := by
  unfold saveToFile
  rw [List.mem_map]
  constructor
  · rintro ⟨e, he, rfl⟩
    exact ⟨e.1, e.2, AList.mem_lookup_iff.mpr he, rfl⟩
  · rintro ⟨i, p, hp, rfl⟩
    exact ⟨⟨i, p⟩, AList.mem_lookup_iff.mp hp, rfl⟩

/-- Under each ID, the records a book saves write exactly the record it has there. -/
theorem Indexed.foldl_saveToFile_lookup (h : Indexed env s) :
    s.saveToFile.foldl (writeLookup env) (fun _ ↦ none) = lookupView s := by
  funext i
  have hid : ∀ ka ∈ s.saveToFile, env.id ka.addr = i →
      ∃ p, s.addrLookup.lookup i = some p ∧ ka = s.heap p := fun ka hka hi ↦ by
    obtain ⟨j, p, hp, rfl⟩ := mem_saveToFile.mp hka
    rw [← hi, h.lookup_id j p hp]
    exact ⟨p, hp, rfl⟩
  cases hl : s.addrLookup.lookup i with
  | none =>
    have hne : ∀ ka ∈ s.saveToFile, True → env.id ka.addr ≠ i := fun ka hka _ hi ↦ by
      obtain ⟨p, hp, -⟩ := hid ka hka hi
      rw [hl] at hp
      cases hp
    rw [foldl_writeIf_of_forall hne]
    simp [lookupView, hl]
  | some p =>
    have hex : ∃ ka ∈ s.saveToFile, True ∧ env.id ka.addr = i :=
      ⟨s.heap p, mem_saveToFile.mpr ⟨i, p, hl, rfl⟩, trivial, h.lookup_id i p hl⟩
    have hv : ∀ ka ∈ s.saveToFile, True → env.id ka.addr = i → some ka = some (s.heap p) :=
      fun ka hka _ hi ↦ by
        obtain ⟨q, hq, rfl⟩ := hid ka hka hi
        rw [hl] at hq
        cases hq
        rfl
    rw [foldl_writeIf_of_exists hex hv]
    simp [lookupView, hl]

/-- Under each key of each bucket, the records a book saves write exactly the record the
bucket has there. -/
theorem Indexed.foldl_saveToFile_bucket (h : Indexed env s) (t : BucketType) (idx : ℕ) :
    s.saveToFile.foldl (writeBucket env t idx) (fun _ ↦ none) = bucketView s t idx := by
  funext k
  have hlisted : ∀ ka ∈ s.saveToFile, (ka.bucketType = t ∧ idx ∈ ka.buckets) →
      env.str ka.addr = k → ∃ p, (s.buckets t idx).lookup k = some p ∧ ka = s.heap p :=
    fun ka hka hP hk ↦ by
      obtain ⟨i, p, hp, rfl⟩ := mem_saveToFile.mp hka
      exact ⟨p, (h.bucket_iff t idx k p).mpr ⟨h.known_of_lookup hp, hP.1, hP.2, hk⟩, rfl⟩
  cases hl : (s.buckets t idx).lookup k with
  | none =>
    have hne : ∀ ka ∈ s.saveToFile, (ka.bucketType = t ∧ idx ∈ ka.buckets) →
        env.str ka.addr ≠ k := fun ka hka hP hk ↦ by
      obtain ⟨p, hp, -⟩ := hlisted ka hka hP hk
      rw [hl] at hp
      cases hp
    rw [foldl_writeIf_of_forall hne]
    simp [bucketView, hl]
  | some p =>
    obtain ⟨hk, ht, hmem, hstr⟩ := (h.bucket_iff t idx k p).mp hl
    have hex : ∃ ka ∈ s.saveToFile, (ka.bucketType = t ∧ idx ∈ ka.buckets) ∧
        env.str ka.addr = k := ⟨s.heap p, mem_saveToFile.mpr ⟨_, p, hk, rfl⟩, ⟨ht, hmem⟩, hstr⟩
    have hv : ∀ ka ∈ s.saveToFile, (ka.bucketType = t ∧ idx ∈ ka.buckets) →
        env.str ka.addr = k → some ka = some (s.heap p) := fun ka hka hP hk' ↦ by
      obtain ⟨q, hq, rfl⟩ := hlisted ka hka hP hk'
      rw [hl] at hq
      cases hq
      rfl
    rw [foldl_writeIf_of_exists hex hv]
    simp [bucketView, hl]

omit [DecidableEq K] in
/-- The saved records of each type are as many as `addrLookup` has. -/
theorem countP_saveToFile (t : BucketType) :
    (s.saveToFile.countP fun ka ↦ ka.bucketType = t) = s.typeCount t := by
  unfold saveToFile typeCount
  rw [List.countP_map, AList.keys, List.keys, List.countP_map]
  refine List.countP_congr fun e he ↦ ?_
  have hl : s.addrLookup.lookup e.1 = some e.2 := AList.mem_lookup_iff.mpr he
  simp [typeOf, hl]

/-- A saved record lists only buckets inside the slices, so loading it does not panic. -/
theorem Bounded.saveToFile_inRange (hb : Bounded s) (h : Indexed env s) :
    ∀ ka ∈ s.saveToFile, ∀ idx ∈ ka.buckets, idx < bucketCount ka.bucketType := by
  intro ka hka idx hidx
  obtain ⟨i, p, hp, rfl⟩ := mem_saveToFile.mp hka
  have hl := (h.bucket_iff _ idx _ p).mpr ⟨h.known_of_lookup hp, rfl, hidx, rfl⟩
  have hpos := List.length_pos_of_mem (AList.mem_lookup_iff.mp hl)
  have hcap := hb (s.heap p).bucketType idx
  unfold capacity at hcap
  split at hcap
  · assumption
  · omega

/-- A book saves no record twice: the records carry the distinct IDs of `addrLookup`. -/
theorem Indexed.nodup_saveToFile (h : Indexed env s) : s.saveToFile.Nodup := by
  unfold saveToFile
  refine List.Nodup.map_on (fun e he e' he' heq ↦ ?_) s.addrLookup.nodupKeys.nodup
  have hl : s.addrLookup.lookup e.1 = some e.2 := AList.mem_lookup_iff.mpr he
  have hl' : s.addrLookup.lookup e'.1 = some e'.2 := AList.mem_lookup_iff.mpr he'
  have hid : e.1 = e'.1 := by
    rw [← h.lookup_id _ _ hl, ← h.lookup_id _ _ hl', heq]
  have hp : e.2 = e'.2 := by
    rw [hid, hl'] at hl
    exact (Option.some.inj hl).symm
  exact Sigma.ext hid (heq_of_eq hp)

/-! ## A book that looks like a consistent one -/

section Views

variable {l : AddrBook A I K}

omit [DecidableEq K] in
theorem exists_of_lookupView_eq (hL : lookupView l = lookupView s) {i : I} {p : Ptr}
    (hp : l.addrLookup.lookup i = some p) :
    ∃ q, s.addrLookup.lookup i = some q ∧ s.heap q = l.heap p := by
  have := congrFun hL i
  unfold lookupView at this
  rw [hp, Option.map_some] at this
  exact Option.map_eq_some_iff.mp this.symm

omit [DecidableEq I] in
theorem exists_of_bucketView_eq (hB : ∀ t idx, bucketView l t idx = bucketView s t idx)
    {t : BucketType} {idx : ℕ} {k : K} {p : Ptr} (hp : (l.buckets t idx).lookup k = some p) :
    ∃ q, (s.buckets t idx).lookup k = some q ∧ s.heap q = l.heap p := by
  have := congrFun (hB t idx) k
  unfold bucketView at this
  rw [hp, Option.map_some] at this
  exact Option.map_eq_some_iff.mp this.symm

/-- With a different record at each allocated pointer, an address is in a book that looks
like `s` iff its record is one `s` knows. -/
theorem known_iff_of_lookupView_eq (hL : lookupView l = lookupView s)
    (hA : Allocated l) (hinj : ∀ p q, p < l.next → q < l.next → l.heap p = l.heap q → p = q)
    {p : Ptr} (hp : p < l.next) : Known env l p ↔ ∃ q, Known env s q ∧ l.heap p = s.heap q := by
  constructor
  · intro hk
    obtain ⟨q, hq, hheap⟩ := exists_of_lookupView_eq hL hk
    refine ⟨q, ?_, hheap.symm⟩
    unfold Known
    rw [hheap]
    exact hq
  · rintro ⟨q, hq, hheap⟩
    have := congrFun hL (env.id (s.heap q).addr)
    unfold lookupView at this
    rw [show s.addrLookup.lookup (env.id (s.heap q).addr) = some q from hq, Option.map_some]
      at this
    obtain ⟨p', hp', hheap'⟩ := Option.map_eq_some_iff.mp this
    have hpp : p' = p := hinj p' p (hA.1 _ p' hp') hp (hheap'.trans hheap.symm)
    unfold Known
    rw [hheap, ← hpp]
    exact hp'

/-- A book that looks through its views like an `Indexed` one, with its counters, its maps'
pointers allocated and a different record at each allocated pointer, is `Indexed`. -/
theorem Indexed.of_views (h : Indexed env s) (hL : lookupView l = lookupView s)
    (hB : ∀ t idx, bucketView l t idx = bucketView s t idx) (hn : l.n = s.n) (hA : Allocated l)
    (hinj : ∀ p q, p < l.next → q < l.next → l.heap p = l.heap q → p = q) :
    Indexed env l := by
  have hknown : ∀ p, Known env l p → ∃ q, Known env s q ∧ l.heap p = s.heap q := fun p hk ↦
    (known_iff_of_lookupView_eq hL hA hinj (hA.1 _ p hk)).mp hk
  refine ⟨fun i p hp ↦ ?_, fun t idx k p ↦ ⟨fun hp ↦ ?_, fun hp ↦ ?_⟩, fun p hp ↦ ?_,
    fun p hp hold ↦ ?_, fun p hp hnew ↦ ?_, fun t ↦ ?_⟩
  · obtain ⟨q, hq, hheap⟩ := exists_of_lookupView_eq hL hp
    rw [← hheap]
    exact h.lookup_id i q hq
  · obtain ⟨q, hq, hheap⟩ := exists_of_bucketView_eq hB hp
    obtain ⟨hk, ht, hmem, hstr⟩ := h.listed_of_lookup hq
    refine ⟨(known_iff_of_lookupView_eq hL hA hinj (hA.2 _ _ _ p hp)).mpr
      ⟨q, hk, hheap.symm⟩, ?_, ?_, ?_⟩ <;> rw [← hheap] <;> assumption
  · obtain ⟨hk, ht, hmem, hstr⟩ := hp
    obtain ⟨q, hq, hheap⟩ := hknown p hk
    rw [hheap] at ht hmem hstr
    have := congrFun (hB t idx) k
    unfold bucketView at this
    rw [(h.bucket_iff t idx k q).mpr ⟨hq, ht, hmem, hstr⟩, Option.map_some] at this
    obtain ⟨p', hp', hheap'⟩ := Option.map_eq_some_iff.mp this
    rw [hp', hinj p' p (hA.2 _ _ _ p' hp') (hA.1 _ p hk) (hheap'.trans hheap.symm)]
  · obtain ⟨q, hq, hheap⟩ := hknown p hp
    rw [hheap]
    exact h.nodup q hq
  · obtain ⟨q, hq, hheap⟩ := hknown p hp
    rw [hheap] at hold ⊢
    exact h.old_one q hq hold
  · obtain ⟨q, hq, hheap⟩ := hknown p hp
    rw [hheap] at hnew ⊢
    exact h.new_range q hq hnew
  · have htype : ∀ i, l.typeOf i = s.typeOf i := fun i ↦ by
      have := congrArg (Option.map KnownAddress.bucketType) (congrFun hL i)
      simpa [lookupView, typeOf, Option.map_map, Function.comp_def] using this
    have hperm : l.addrLookup.keys.Perm s.addrLookup.keys := by
      refine (List.perm_ext_iff_of_nodup l.addrLookup.keys_nodup s.addrLookup.keys_nodup).mpr
        fun i ↦ ?_
      have := congrArg Option.isSome (congrFun hL i)
      simp only [lookupView, Option.isSome_map] at this
      rw [← AList.mem_keys, ← AList.mem_keys, ← AList.lookup_isSome, ← AList.lookup_isSome, this]
    rw [hn, h.count_eq t]
    unfold typeCount
    rw [(hperm.countP_eq _).symm]
    simp only [htype]

end Views

theorem allocated_newAddrBook (ka0 : KnownAddress A) :
    Allocated (newAddrBook ka0 : AddrBook A I K) :=
  ⟨fun _ _ hp ↦ by simp [newAddrBook] at hp, fun _ _ _ _ hp ↦ by simp [newAddrBook] at hp⟩

/-- For the book at the end of any run from `NewAddrBook`, `loadFromFile` into a new book
of what `saveToFile` writes does not panic, and gives a book with the same record under each
ID of `addrLookup` and under each key of each bucket, and the same counters; it is again
`Consistent`.  Its `badPeers` is empty: the bans are not saved. -/
theorem loadFromFile_saveToFile (env : AddrEnv A I K) (ka0 ka1 : KnownAddress A)
    (calls : List (Time × Call A I)) :
    ∃ s l, (newAddrBook ka0).run env calls = .ok s ∧
      (newAddrBook ka1).loadFromFile env s.saveToFile = .ok l ∧
      (∀ i, (l.addrLookup.lookup i).map l.heap = (s.addrLookup.lookup i).map s.heap) ∧
      (∀ t idx k, ((l.buckets t idx).lookup k).map l.heap =
        ((s.buckets t idx).lookup k).map s.heap) ∧
      l.n = s.n ∧ l.badPeers = ∅ ∧ Consistent env l := by
  have h₀ : Consistent env (newAddrBook ka0 : AddrBook A I K) := consistent_newAddrBook ka0
  obtain ⟨s, hrun, h, hb⟩ := Bounded.run h₀ (bounded_newAddrBook ka0) calls
  obtain ⟨l, hload, hA, hL, hB, hn, hbad, hnext, hheap, -⟩ :=
    loadFromFile_views env s.saveToFile (newAddrBook ka1) (allocated_newAddrBook ka1)
      (hb.saveToFile_inRange h.toIndexed)
  have hL' : lookupView l = lookupView s := by
    rw [hL, ← h.foldl_saveToFile_lookup]
    congr 1
  have hB' : ∀ t idx, bucketView l t idx = bucketView s t idx := fun t idx ↦ by
    rw [hB, ← h.foldl_saveToFile_bucket t idx]
    congr 1
  have hn' : l.n = s.n := by
    funext t
    rw [hn, countP_saveToFile, ← h.count_eq t]
    simp [newAddrBook]
  have hbad' : l.badPeers = ∅ := hbad
  have hinj : ∀ p q, p < l.next → q < l.next → l.heap p = l.heap q → p = q := fun p q hp hq hpq ↦ by
    have hnext' : l.next = s.saveToFile.length := hnext.trans (Nat.zero_add _)
    rw [hnext'] at hp hq
    have hp' := hheap p hp
    have hq' := hheap q hq
    rw [show (newAddrBook ka1 : AddrBook A I K).next + p = p from Nat.zero_add p] at hp'
    rw [show (newAddrBook ka1 : AddrBook A I K).next + q = q from Nat.zero_add q] at hq'
    rw [hp', hq'] at hpq
    exact (h.toIndexed.nodup_saveToFile.getElem_inj_iff).mp hpq
  refine ⟨s, l, hrun, hload, fun i ↦ congrFun hL' i, fun t idx k ↦ congrFun (hB' t idx) k, hn',
    hbad', h.toIndexed.of_views hL' hB' hn' hA hinj, ?_, ?_, ?_, hA.1, ?_⟩
  · intro i p hp
    rw [hbad'] at hp
    simp at hp
  · intro i p hp
    rw [hbad'] at hp
    simp at hp
  · intro i hi
    rw [hbad'] at hi
    simp at hi
  · intro i p hp
    rw [hbad'] at hp
    simp at hp

end AddrBook

end Tenderdash.Pex
