import Tenderdash.Pex.AddrBook

/-!
# The buckets along every run

The book records each address three times: in `addrLookup`, in the buckets its record
lists, and in the counters.  `Indexed` says the three agree: an address is in a bucket
under its `String()` exactly when it is in `addrLookup` and its record lists that bucket
with its own type (`bucket_iff`), an old address is in one bucket and a new one in one to
four, and `nNew` and `nOld` count the addresses of `addrLookup` of each type.  `Consistent`
adds what `badPeers` and the allocator need.

Each function that edits the maps is first given in closed form (`addToBucket_eq`,
`removeFromBucket_eq`, `removeFromAllBuckets_eq`), and `Indexed` is proved of each closed
form once; the calls of the interface are then compositions of these.
-/

namespace Tenderdash.Pex

open KnownAddress

/-! ## Maps -/

section Maps

variable {α β : Type} [DecidableEq α]

theorem lookup_insert_eq_ite (s : AList (fun _ : α ↦ β)) (a a' : α) (b : β) :
    (s.insert a b).lookup a' = if a' = a then some b else s.lookup a' := by
  split
  · rename_i h
    rw [h]
    exact AList.lookup_insert s
  · exact AList.lookup_insert_ne ‹_›

theorem lookup_erase_eq_ite (s : AList (fun _ : α ↦ β)) (a a' : α) :
    (s.erase a).lookup a' = if a' = a then none else s.lookup a' := by
  split
  · rename_i h
    rw [h]
    exact AList.lookup_erase a s
  · exact AList.lookup_erase_ne ‹_›

theorem mem_of_lookup_eq_some {s : AList (fun _ : α ↦ β)} {a : α} {b : β}
    (h : s.lookup a = some b) : a ∈ s :=
  AList.lookup_isSome.mp (by rw [h]; rfl)

theorem exists_lookup_of_mem {s : AList (fun _ : α ↦ β)} {a : α} (h : a ∈ s) :
    ∃ b, s.lookup a = some b :=
  Option.isSome_iff_exists.mp (AList.lookup_isSome.mpr h)

theorem countP_keys_insert (s : AList (fun _ : α ↦ β)) (a : α) (b : β) (f : α → Bool) :
    (s.insert a b).keys.countP f = (if f a then 1 else 0) + (s.keys.erase a).countP f := by
  rw [AList.keys_insert, List.countP_cons]
  omega

theorem countP_keys_of_mem {s : AList (fun _ : α ↦ β)} {a : α} (h : a ∈ s) (f : α → Bool) :
    s.keys.countP f = (if f a then 1 else 0) + (s.keys.erase a).countP f := by
  rw [(List.perm_cons_erase (AList.mem_keys.mp h)).countP_eq, List.countP_cons]
  omega

theorem mem_keys_erase_iff {s : AList (fun _ : α ↦ β)} {a i : α} :
    i ∈ s.keys.erase a ↔ i ≠ a ∧ i ∈ s.keys :=
  s.keys_nodup.mem_erase_iff

theorem keys_erase_of_not_mem {s : AList (fun _ : α ↦ β)} {a : α} (h : a ∉ s) :
    s.keys.erase a = s.keys :=
  List.erase_of_not_mem (fun h' ↦ h (AList.mem_keys.mpr h'))

theorem erase_erase_self (s : AList (fun _ : α ↦ β)) (a : α) : (s.erase a).erase a = s.erase a :=
  AList.ext (List.kerase_of_notMem_keys (List.notMem_keys_kerase a s.nodupKeys))

/-- Without a repeated element, dropping one that is there shortens a list by one. -/
theorem length_filter_ne_of_mem {l : List α} (hnd : l.Nodup) {a : α} (ha : a ∈ l) :
    ((l.filter (· ≠ a)).length : ℤ) = l.length - 1 := by
  have hfilter : l.filter (· ≠ a) = l.filter (· != a) :=
    List.filter_congr (fun x _ ↦ by by_cases h : x = a <;> simp [h])
  have hlen := List.length_erase_of_mem ha
  have hpos := List.length_pos_of_mem ha
  rw [hfilter, ← hnd.erase_eq_filter a, hlen]
  omega

end Maps

namespace AddrBook

variable {A I K : Type} {s : AddrBook A I K}

/-! ## Updates of the state -/

@[simp] theorem heap_heapSet (p : Ptr) (ka : KnownAddress A) :
    (s.heapSet p ka).heap = Function.update s.heap p ka := rfl
@[simp] theorem addrLookup_heapSet (p : Ptr) (ka : KnownAddress A) :
    (s.heapSet p ka).addrLookup = s.addrLookup := rfl
@[simp] theorem badPeers_heapSet (p : Ptr) (ka : KnownAddress A) :
    (s.heapSet p ka).badPeers = s.badPeers := rfl
@[simp] theorem buckets_heapSet (p : Ptr) (ka : KnownAddress A) :
    (s.heapSet p ka).buckets = s.buckets := rfl
@[simp] theorem n_heapSet (p : Ptr) (ka : KnownAddress A) : (s.heapSet p ka).n = s.n := rfl
@[simp] theorem next_heapSet (p : Ptr) (ka : KnownAddress A) : (s.heapSet p ka).next = s.next :=
  rfl

@[simp] theorem buckets_setBucket (t : BucketType) (idx : ℕ) (b : AList (fun _ : K ↦ Ptr)) :
    (s.setBucket t idx b).buckets =
      fun t' idx' ↦ if t' = t ∧ idx' = idx then b else s.buckets t' idx' := rfl
@[simp] theorem heap_setBucket (t : BucketType) (idx : ℕ) (b : AList (fun _ : K ↦ Ptr)) :
    (s.setBucket t idx b).heap = s.heap := rfl
@[simp] theorem addrLookup_setBucket (t : BucketType) (idx : ℕ) (b : AList (fun _ : K ↦ Ptr)) :
    (s.setBucket t idx b).addrLookup = s.addrLookup := rfl
@[simp] theorem n_setBucket (t : BucketType) (idx : ℕ) (b : AList (fun _ : K ↦ Ptr)) :
    (s.setBucket t idx b).n = s.n := rfl

@[simp] theorem n_incr (t : BucketType) : (s.incr t).n = Function.update s.n t (s.n t + 1) := rfl
@[simp] theorem n_decr (t : BucketType) : (s.decr t).n = Function.update s.n t (s.n t - 1) := rfl

variable [DecidableEq I] [DecidableEq K] {env : AddrEnv A I K}

/-! ## The invariant -/

/-- The address `p` points to is in the book: `addrLookup` has it under its ID. -/
def Known (env : AddrEnv A I K) (s : AddrBook A I K) (p : Ptr) : Prop :=
  s.addrLookup.lookup (env.id (s.heap p).addr) = some p

/-- What the record of `p` says of bucket `idx` of type `t`: it holds `p` under key `k`. -/
def Listed (env : AddrEnv A I K) (s : AddrBook A I K) (t : BucketType) (idx : ℕ) (k : K)
    (p : Ptr) : Prop :=
  Known env s p ∧ (s.heap p).bucketType = t ∧ idx ∈ (s.heap p).buckets ∧ env.str (s.heap p).addr = k

/-- The type of the address under ID `i`, if the book has one. -/
def typeOf (s : AddrBook A I K) (i : I) : Option BucketType :=
  (s.addrLookup.lookup i).map fun p ↦ (s.heap p).bucketType

/-- The number of addresses of type `t` in `addrLookup`. -/
def typeCount (s : AddrBook A I K) (t : BucketType) : ℕ :=
  s.addrLookup.keys.countP fun i ↦ s.typeOf i = some t

/-- The three records of the book agree. -/
structure Indexed (env : AddrEnv A I K) (s : AddrBook A I K) : Prop where
  lookup_id : ∀ i p, s.addrLookup.lookup i = some p → env.id (s.heap p).addr = i
  bucket_iff : ∀ t idx k p, (s.buckets t idx).lookup k = some p ↔ Listed env s t idx k p
  nodup : ∀ p, Known env s p → (s.heap p).buckets.Nodup
  old_one : ∀ p, Known env s p → (s.heap p).bucketType = .old → (s.heap p).buckets.length = 1
  new_range : ∀ p, Known env s p → (s.heap p).bucketType = .new →
    1 ≤ (s.heap p).buckets.length ∧ (s.heap p).buckets.length ≤ maxNewBucketsPerAddress
  count_eq : ∀ t, s.n t = s.typeCount t

/-- `Indexed`, and a banned address is out of the book and of every bucket; every pointer
the maps hold is allocated. -/
structure Consistent (env : AddrEnv A I K) (s : AddrBook A I K) : Prop extends Indexed env s where
  bad_id : ∀ i p, s.badPeers.lookup i = some p → env.id (s.heap p).addr = i
  bad_buckets : ∀ i p, s.badPeers.lookup i = some p → (s.heap p).buckets = []
  bad_not_mem : ∀ i, i ∈ s.badPeers → i ∉ s.addrLookup
  lookup_lt : ∀ i p, s.addrLookup.lookup i = some p → p < s.next
  bad_lt : ∀ i p, s.badPeers.lookup i = some p → p < s.next

theorem Indexed.known_of_lookup (h : Indexed env s) {i : I} {p : Ptr}
    (hp : s.addrLookup.lookup i = some p) : Known env s p := by
  unfold Known
  rw [h.lookup_id i p hp]
  exact hp

/-- A pointer the book does not know is in no entry of `addrLookup`. -/
theorem Indexed.lookup_ne_of_not_known (h : Indexed env s) {p : Ptr} (hp : ¬ Known env s p)
    (i : I) : s.addrLookup.lookup i ≠ some p :=
  fun hi ↦ hp (h.known_of_lookup hi)

theorem Indexed.listed_of_lookup (h : Indexed env s) {t : BucketType} {idx : ℕ} {k : K}
    {p : Ptr} (hp : (s.buckets t idx).lookup k = some p) : Listed env s t idx k p :=
  (h.bucket_iff t idx k p).mp hp

/-- A known address is in some bucket. -/
theorem Indexed.buckets_ne_nil (h : Indexed env s) {p : Ptr} (hp : Known env s p) :
    (s.heap p).buckets ≠ [] := by
  intro hnil
  cases hb : (s.heap p).bucketType with
  | new =>
    have := (h.new_range p hp hb).1
    simp [hnil] at this
  | old =>
    have := h.old_one p hp hb
    simp [hnil] at this

/-! ## The editing functions in closed form -/

/-- `addToBucket` of a bucket the record does not list: one more bucket, in the map, in
`addrLookup`, and in the count if it is the first. -/
theorem addToBucket_eq {p : Ptr} {t : BucketType} {idx : ℕ}
    (hidx : idx ∉ (s.heap p).buckets) :
    s.addToBucket env p t idx = { s with
      heap := Function.update s.heap p
        { s.heap p with buckets := (s.heap p).buckets ++ [idx] }
      buckets := fun t' idx' ↦ if t' = t ∧ idx' = idx then
        (s.buckets t idx).insert (env.str (s.heap p).addr) p else s.buckets t' idx'
      n := if (s.heap p).buckets = [] then Function.update s.n t (s.n t + 1) else s.n
      addrLookup := s.addrLookup.insert (env.id (s.heap p).addr) p } := by
  unfold addToBucket
  simp only [addBucketRef, if_neg hidx]
  by_cases hnil : (s.heap p).buckets = []
  · simp [hnil, incr, heapSet, setBucket]
  · have hlen : ((s.heap p).buckets.length : ℤ) + 1 ≠ 1 := by
      have := List.length_pos_iff.mpr hnil
      omega
    simp [hnil, hlen, heapSet, setBucket]

theorem removeBucketRef_eq {ka : KnownAddress A} {idx : ℕ} (hidx : idx ∈ ka.buckets)
    (hnd : ka.buckets.Nodup) :
    ka.removeBucketRef idx = ({ ka with buckets := ka.buckets.filter (· ≠ idx) },
      ((ka.buckets.filter (· ≠ idx)).length : ℤ)) := by
  unfold removeBucketRef
  rw [if_neg (not_not.mpr (length_filter_ne_of_mem hnd hidx))]

/-- `removeFromBucket` of a bucket the record lists, with its own type: one bucket less,
and out of `addrLookup` and the count with the last. -/
theorem removeFromBucket_eq {p : Ptr} {t : BucketType} {idx : ℕ}
    (ht : (s.heap p).bucketType = t) (hidx : idx ∈ (s.heap p).buckets)
    (hnd : (s.heap p).buckets.Nodup) :
    s.removeFromBucket env p t idx = { s with
      heap := Function.update s.heap p
        { s.heap p with buckets := (s.heap p).buckets.filter (· ≠ idx) }
      buckets := fun t' idx' ↦ if t' = t ∧ idx' = idx then
        (s.buckets t idx).erase (env.str (s.heap p).addr) else s.buckets t' idx'
      n := if (s.heap p).buckets.filter (· ≠ idx) = [] then
        Function.update s.n t (s.n t - 1) else s.n
      addrLookup := if (s.heap p).buckets.filter (· ≠ idx) = [] then
        s.addrLookup.erase (env.id (s.heap p).addr) else s.addrLookup } := by
  unfold removeFromBucket
  rw [if_neg (not_not.mpr ht)]
  dsimp only
  rw [removeBucketRef_eq hidx hnd]
  dsimp only
  by_cases hnil : (s.heap p).buckets.filter (· ≠ idx) = []
  · rw [if_pos (by rw [hnil]; rfl), if_pos hnil, if_pos hnil]
    rfl
  · have hne : (((s.heap p).buckets.filter (· ≠ idx)).length : ℤ) ≠ 0 := by
      have := List.length_pos_iff.mpr hnil
      omega
    rw [if_neg hne, if_neg hnil, if_neg hnil]
    rfl

omit [DecidableEq I] in
/-- The loop of `removeFromAllBuckets` deletes the key from every listed bucket. -/
theorem eraseFromBuckets_eq (t : BucketType) (k : K) :
    ∀ (idxs : List ℕ) (s : AddrBook A I K), s.eraseFromBuckets t k idxs = { s with
      buckets := fun t' idx' ↦ if t' = t ∧ idx' ∈ idxs then (s.buckets t' idx').erase k
        else s.buckets t' idx' }
  | [], s => by simp [eraseFromBuckets]
  | j :: js, s => by
    rw [eraseFromBuckets, List.foldl_cons, ← eraseFromBuckets, eraseFromBuckets_eq t k js]
    congr 1
    funext t' idx'
    by_cases hj : t' = t ∧ idx' = j
    · obtain ⟨rfl, rfl⟩ := hj
      by_cases hjs : idx' ∈ js <;> simp [hjs, erase_erase_self]
    · by_cases hjs : t' = t ∧ idx' ∈ js
      · obtain ⟨rfl, hmem⟩ := hjs
        have hne : idx' ≠ j := fun h ↦ hj ⟨rfl, h⟩
        simp [hne, hmem]
      · simp only [buckets_setBucket, hj, if_false, hjs, List.mem_cons]
        split
        · rename_i h
          exact absurd ⟨h.1, h.2.resolve_left (fun h' ↦ hj ⟨h.1, h'⟩)⟩ hjs
        · rfl

/-- `removeFromAllBuckets`: out of every listed bucket, of `addrLookup` and of the count. -/
theorem removeFromAllBuckets_eq (p : Ptr) :
    s.removeFromAllBuckets env p = { s with
      heap := Function.update s.heap p { s.heap p with buckets := [] }
      buckets := fun t' idx' ↦ if t' = (s.heap p).bucketType ∧ idx' ∈ (s.heap p).buckets then
        (s.buckets t' idx').erase (env.str (s.heap p).addr) else s.buckets t' idx'
      n := Function.update s.n (s.heap p).bucketType (s.n (s.heap p).bucketType - 1)
      addrLookup := s.addrLookup.erase (env.id (s.heap p).addr) } := by
  unfold removeFromAllBuckets
  dsimp only
  rw [eraseFromBuckets_eq]
  rfl

/-! ## Adding to a bucket -/

section AddToBucket

variable {p : Ptr} {t : BucketType} {idx : ℕ}

theorem addr_addToBucket (hidx : idx ∉ (s.heap p).buckets) (q : Ptr) :
    ((s.addToBucket env p t idx).heap q).addr = (s.heap q).addr := by
  rw [addToBucket_eq hidx]
  by_cases hq : q = p
  · subst hq
    simp
  · simp [hq]

theorem bucketType_addToBucket (hidx : idx ∉ (s.heap p).buckets) (q : Ptr) :
    ((s.addToBucket env p t idx).heap q).bucketType = (s.heap q).bucketType := by
  rw [addToBucket_eq hidx]
  by_cases hq : q = p
  · subst hq
    simp
  · simp [hq]

theorem buckets_heap_addToBucket (hidx : idx ∉ (s.heap p).buckets) (q : Ptr) :
    ((s.addToBucket env p t idx).heap q).buckets =
      if q = p then (s.heap p).buckets ++ [idx] else (s.heap q).buckets := by
  rw [addToBucket_eq hidx]
  by_cases hq : q = p
  · subst hq
    simp
  · simp [hq]

theorem addrLookup_addToBucket (hidx : idx ∉ (s.heap p).buckets) :
    (s.addToBucket env p t idx).addrLookup = s.addrLookup.insert (env.id (s.heap p).addr) p := by
  rw [addToBucket_eq hidx]

/-- After `addToBucket`, the book knows what it knew and the address added. -/
theorem known_addToBucket_iff (hidx : idx ∉ (s.heap p).buckets)
    (hp : Known env s p ∨ env.id (s.heap p).addr ∉ s.addrLookup) {q : Ptr} :
    Known env (s.addToBucket env p t idx) q ↔ Known env s q ∨ q = p := by
  unfold Known
  rw [addr_addToBucket hidx, addrLookup_addToBucket hidx, lookup_insert_eq_ite]
  by_cases hq : env.id (s.heap q).addr = env.id (s.heap p).addr
  · rw [if_pos hq, Option.some.injEq, hq]
    constructor
    · rintro rfl
      exact .inr rfl
    · rintro (hk | rfl)
      · rcases hp with hp | hp
        · exact Option.some.inj (hp.symm.trans hk)
        · exact absurd (mem_of_lookup_eq_some hk) hp
      · rfl
  · rw [if_neg hq]
    constructor
    · exact .inl
    · rintro (hk | rfl)
      · exact hk
      · exact absurd rfl hq

/-- `addToBucket` lists the address in one more bucket and changes no other listing. -/
theorem listed_addToBucket_iff (hidx : idx ∉ (s.heap p).buckets)
    (ht : (s.heap p).bucketType = t)
    (hp : Known env s p ∨ (env.id (s.heap p).addr ∉ s.addrLookup ∧ (s.heap p).buckets = []))
    {t' : BucketType} {idx' : ℕ} {k : K} {q : Ptr} :
    Listed env (s.addToBucket env p t idx) t' idx' k q ↔
      Listed env s t' idx' k q ∨ (q = p ∧ t' = t ∧ idx' = idx ∧ k = env.str (s.heap p).addr) := by
  have hknown : Known env (s.addToBucket env p t idx) q ↔ Known env s q ∨ q = p :=
    known_addToBucket_iff hidx (hp.imp_right And.left)
  unfold Listed
  rw [hknown, bucketType_addToBucket hidx, buckets_heap_addToBucket hidx, addr_addToBucket hidx]
  by_cases hq : q = p
  · subst hq
    simp only [if_true, List.mem_append, List.mem_singleton, or_true, true_and]
    rcases hp with hp | ⟨-, hnil⟩
    · simp only [hp, true_and]
      constructor
      · rintro ⟨rfl, hmem | rfl, rfl⟩
        · exact .inl ⟨rfl, hmem, rfl⟩
        · exact .inr ⟨ht, rfl, rfl⟩
      · rintro (⟨rfl, hmem, rfl⟩ | ⟨rfl, rfl, rfl⟩)
        · exact ⟨rfl, .inl hmem, rfl⟩
        · exact ⟨ht, .inr rfl, rfl⟩
    · simp only [hnil, List.not_mem_nil, false_or, and_false, false_and]
      constructor
      · rintro ⟨rfl, rfl, rfl⟩
        exact ⟨ht, rfl, rfl⟩
      · rintro ⟨rfl, rfl, rfl⟩
        exact ⟨ht, rfl, rfl⟩
  · simp [hq]

theorem typeOf_addToBucket (hidx : idx ∉ (s.heap p).buckets)
    (ht : (s.heap p).bucketType = t) (i : I) :
    (s.addToBucket env p t idx).typeOf i =
      if i = env.id (s.heap p).addr then some t else s.typeOf i := by
  unfold typeOf
  rw [addrLookup_addToBucket hidx, lookup_insert_eq_ite]
  split
  · simp [bucketType_addToBucket hidx, ht]
  · simp only [bucketType_addToBucket hidx]

/-- `addToBucket` counts the address once more exactly when it was in no bucket. -/
theorem typeCount_addToBucket (h : Indexed env s) (hidx : idx ∉ (s.heap p).buckets)
    (ht : (s.heap p).bucketType = t)
    (hp : Known env s p ∨ (env.id (s.heap p).addr ∉ s.addrLookup ∧ (s.heap p).buckets = []))
    (t' : BucketType) :
    ((s.addToBucket env p t idx).typeCount t' : ℤ) =
      s.typeCount t' + if (s.heap p).buckets = [] ∧ t' = t then 1 else 0 := by
  have hrest : ((s.addrLookup.keys.erase (env.id (s.heap p).addr)).countP
      fun i ↦ (s.addToBucket env p t idx).typeOf i = some t') =
      (s.addrLookup.keys.erase (env.id (s.heap p).addr)).countP fun i ↦ s.typeOf i = some t' :=
    List.countP_congr fun i hi ↦ by
      rw [typeOf_addToBucket hidx ht, if_neg (mem_keys_erase_iff.mp hi).1]
  unfold typeCount
  rw [addrLookup_addToBucket hidx, countP_keys_insert, hrest, typeOf_addToBucket hidx ht,
    if_pos rfl]
  rcases hp with hp | ⟨hnot, hnil⟩
  · have hl : s.addrLookup.lookup (env.id (s.heap p).addr) = some p := hp
    have hmem : env.id (s.heap p).addr ∈ s.addrLookup := mem_of_lookup_eq_some hl
    have htype : s.typeOf (env.id (s.heap p).addr) = some t := by
      simp [typeOf, hl, ht]
    have hcond : ¬((s.heap p).buckets = [] ∧ t' = t) := fun hc ↦ h.buckets_ne_nil hp hc.1
    rw [countP_keys_of_mem hmem, htype, if_neg hcond]
    push_cast
    omega
  · rw [keys_erase_of_not_mem hnot]
    by_cases htt : t' = t
    · subst htt
      simp [hnil]
      omega
    · simp [htt, Ne.symm htt]

/-- `addToBucket` keeps `Indexed`, for an address the book knows or one it does not that is
in no bucket, of the bucket's type, not yet in the bucket, and with room for one more. -/
theorem Indexed.addToBucket (h : Indexed env s) (ht : (s.heap p).bucketType = t)
    (hk : env.str (s.heap p).addr ∉ s.buckets t idx)
    (hp : Known env s p ∨ (env.id (s.heap p).addr ∉ s.addrLookup ∧ (s.heap p).buckets = []))
    (hroom : t = .new → (s.heap p).buckets.length < maxNewBucketsPerAddress)
    (hold : t = .old → (s.heap p).buckets = []) :
    Indexed env (s.addToBucket env p t idx) := by
  have hidx : idx ∉ (s.heap p).buckets := by
    intro hmem
    rcases hp with hp | ⟨-, hnil⟩
    · exact hk (mem_of_lookup_eq_some ((h.bucket_iff t idx _ p).mpr ⟨hp, ht, hmem, rfl⟩))
    · simp [hnil] at hmem
  have hknown : ∀ q, Known env (s.addToBucket env p t idx) q ↔ Known env s q ∨ q = p :=
    fun _ ↦ known_addToBucket_iff hidx (hp.imp_right And.left)
  refine ⟨fun i q hq ↦ ?_, fun t' idx' k q ↦ ?_, fun q hq ↦ ?_, fun q hq hqt ↦ ?_,
    fun q hq hqt ↦ ?_, fun t' ↦ ?_⟩
  · rw [addrLookup_addToBucket hidx, lookup_insert_eq_ite] at hq
    rw [addr_addToBucket hidx]
    split at hq
    · rename_i hi
      cases hq
      exact hi.symm
    · exact h.lookup_id i q hq
  · rw [listed_addToBucket_iff hidx ht hp, ← h.bucket_iff, addToBucket_eq hidx]
    dsimp only
    by_cases hb : t' = t ∧ idx' = idx
    · obtain ⟨rfl, rfl⟩ := hb
      rw [if_pos ⟨rfl, rfl⟩, lookup_insert_eq_ite]
      by_cases hkk : k = env.str (s.heap p).addr
      · subst hkk
        rw [if_pos rfl, AList.lookup_eq_none.mpr hk]
        simp [eq_comm]
      · simp [hkk]
    · rw [if_neg hb]
      constructor
      · exact .inl
      · rintro (hl | ⟨-, rfl, rfl, -⟩)
        · exact hl
        · exact absurd ⟨rfl, rfl⟩ hb
  · rw [buckets_heap_addToBucket hidx]
    split
    · rename_i hqp
      subst hqp
      rcases hp with hp | ⟨-, hnil⟩
      · exact (h.nodup _ hp).append (List.nodup_singleton idx)
          (fun a ha hb ↦ hidx (List.mem_singleton.mp hb ▸ ha))
      · simp [hnil]
    · exact h.nodup q (((hknown q).mp hq).resolve_right ‹_›)
  · rw [bucketType_addToBucket hidx] at hqt
    rw [buckets_heap_addToBucket hidx]
    split
    · rename_i hqp
      subst hqp
      simp [hold (ht ▸ hqt)]
    · exact h.old_one q (((hknown q).mp hq).resolve_right ‹_›) hqt
  · rw [bucketType_addToBucket hidx] at hqt
    rw [buckets_heap_addToBucket hidx]
    split
    · rename_i hqp
      subst hqp
      have := hroom (ht ▸ hqt)
      simp only [List.length_append, List.length_singleton]
      omega
    · exact h.new_range q (((hknown q).mp hq).resolve_right ‹_›) hqt
  · rw [typeCount_addToBucket h hidx ht hp, ← h.count_eq, addToBucket_eq hidx]
    dsimp only
    split
    · rename_i hnil
      by_cases htt : t' = t
      · subst htt
        simp [hnil]
      · simp [hnil, htt]
    · rename_i hnil
      simp [hnil]

end AddToBucket

/-! ## Removing from a bucket -/

section RemoveFromBucket

variable {p : Ptr} {t : BucketType} {idx : ℕ}

/-- The facts `removeFromBucket_eq` needs: the record lists the bucket, with its own type. -/
structure RemovesFrom (env : AddrEnv A I K) (s : AddrBook A I K) (p : Ptr) (t : BucketType)
    (idx : ℕ) : Prop where
  known : Known env s p
  type_eq : (s.heap p).bucketType = t
  mem : idx ∈ (s.heap p).buckets
  nodup : (s.heap p).buckets.Nodup

/-- An entry of a bucket is what `removeFromBucket` needs. -/
theorem Indexed.removesFrom (h : Indexed env s) {k : K} (hk : (s.buckets t idx).lookup k = some p) :
    RemovesFrom env s p t idx :=
  have hl := h.listed_of_lookup hk
  ⟨hl.1, hl.2.1, hl.2.2.1, h.nodup p hl.1⟩

theorem addr_removeFromBucket (hr : RemovesFrom env s p t idx) (q : Ptr) :
    ((s.removeFromBucket env p t idx).heap q).addr = (s.heap q).addr := by
  rw [removeFromBucket_eq hr.type_eq hr.mem hr.nodup]
  by_cases hq : q = p
  · subst hq
    simp
  · simp [hq]

theorem bucketType_removeFromBucket (hr : RemovesFrom env s p t idx) (q : Ptr) :
    ((s.removeFromBucket env p t idx).heap q).bucketType = (s.heap q).bucketType := by
  rw [removeFromBucket_eq hr.type_eq hr.mem hr.nodup]
  by_cases hq : q = p
  · subst hq
    simp
  · simp [hq]

theorem buckets_heap_removeFromBucket (hr : RemovesFrom env s p t idx) (q : Ptr) :
    ((s.removeFromBucket env p t idx).heap q).buckets =
      if q = p then (s.heap p).buckets.filter (· ≠ idx) else (s.heap q).buckets := by
  rw [removeFromBucket_eq hr.type_eq hr.mem hr.nodup]
  by_cases hq : q = p
  · subst hq
    simp
  · simp [hq]

theorem addrLookup_removeFromBucket (hr : RemovesFrom env s p t idx) :
    (s.removeFromBucket env p t idx).addrLookup =
      if (s.heap p).buckets.filter (· ≠ idx) = [] then
        s.addrLookup.erase (env.id (s.heap p).addr) else s.addrLookup := by
  rw [removeFromBucket_eq hr.type_eq hr.mem hr.nodup]

/-- After `removeFromBucket` the book knows what it knew, but the address if that was its
last bucket. -/
theorem known_removeFromBucket_iff (hr : RemovesFrom env s p t idx) {q : Ptr} :
    Known env (s.removeFromBucket env p t idx) q ↔
      Known env s q ∧ ¬(q = p ∧ (s.heap p).buckets.filter (· ≠ idx) = []) := by
  unfold Known
  rw [addr_removeFromBucket hr, addrLookup_removeFromBucket hr]
  split
  · rename_i hnil
    rw [lookup_erase_eq_ite]
    by_cases hq : env.id (s.heap q).addr = env.id (s.heap p).addr
    · have hp : s.addrLookup.lookup (env.id (s.heap p).addr) = some p := hr.known
      rw [if_pos hq, hq, hp]
      constructor
      · intro hc
        cases hc
      · rintro ⟨hqp, hne⟩
        exact absurd ⟨(Option.some.inj hqp).symm, hnil⟩ hne
    · have hqp : q ≠ p := fun hqp ↦ hq (by rw [hqp])
      rw [if_neg hq]
      simp [hqp]
  · rename_i hnil
    exact ⟨fun hq ↦ ⟨hq, fun hc ↦ hnil hc.2⟩, And.left⟩

/-- `removeFromBucket` unlists the address from that bucket and changes no other listing. -/
theorem listed_removeFromBucket_iff (hr : RemovesFrom env s p t idx) {t' : BucketType}
    {idx' : ℕ} {k : K} {q : Ptr} :
    Listed env (s.removeFromBucket env p t idx) t' idx' k q ↔
      Listed env s t' idx' k q ∧ ¬(q = p ∧ t' = t ∧ idx' = idx) := by
  unfold Listed
  rw [known_removeFromBucket_iff hr, bucketType_removeFromBucket hr,
    buckets_heap_removeFromBucket hr, addr_removeFromBucket hr]
  by_cases hq : q = p
  · subst hq
    have hknown := hr.known
    have ht := hr.type_eq
    simp only [if_true, List.mem_filter, decide_eq_true_eq, true_and, hknown, ht]
    constructor
    · rintro ⟨hne, rfl, ⟨hmem, hidx⟩, rfl⟩
      exact ⟨⟨rfl, hmem, rfl⟩, fun ⟨_, h⟩ ↦ hidx h⟩
    · rintro ⟨⟨rfl, hmem, rfl⟩, hidx⟩
      have hidx' : idx' ≠ idx := fun h ↦ hidx ⟨rfl, h⟩
      refine ⟨fun hnil ↦ ?_, rfl, ⟨hmem, hidx'⟩, rfl⟩
      have : idx' ∈ (s.heap q).buckets.filter (· ≠ idx) := List.mem_filter.mpr ⟨hmem, by simpa⟩
      rw [hnil] at this
      cases this
  · simp [hq]

theorem typeOf_removeFromBucket (hr : RemovesFrom env s p t idx) (i : I) :
    (s.removeFromBucket env p t idx).typeOf i =
      if (s.heap p).buckets.filter (· ≠ idx) = [] ∧ i = env.id (s.heap p).addr then none
      else s.typeOf i := by
  unfold typeOf
  rw [addrLookup_removeFromBucket hr]
  split
  · rename_i hnil
    rw [lookup_erase_eq_ite]
    by_cases hi : i = env.id (s.heap p).addr
    · rw [if_pos hi, if_pos ⟨hnil, hi⟩]
      rfl
    · rw [if_neg hi, if_neg (fun hc ↦ hi hc.2)]
      simp only [bucketType_removeFromBucket hr]
  · rename_i hnil
    rw [if_neg (fun hc ↦ hnil hc.1)]
    simp only [bucketType_removeFromBucket hr]

/-- `removeFromBucket` counts the address once less exactly when that was its last bucket. -/
theorem typeCount_removeFromBucket (hr : RemovesFrom env s p t idx)
    (t' : BucketType) :
    ((s.removeFromBucket env p t idx).typeCount t' : ℤ) =
      s.typeCount t' - if (s.heap p).buckets.filter (· ≠ idx) = [] ∧ t' = t then 1 else 0 := by
  unfold typeCount
  rw [addrLookup_removeFromBucket hr]
  split
  · rename_i hnil
    have hl : s.addrLookup.lookup (env.id (s.heap p).addr) = some p := hr.known
    have hmem : env.id (s.heap p).addr ∈ s.addrLookup := mem_of_lookup_eq_some hl
    have htype : s.typeOf (env.id (s.heap p).addr) = some t := by
      simp [typeOf, hl, hr.type_eq]
    have hrest : ((s.addrLookup.keys.erase (env.id (s.heap p).addr)).countP
        fun i ↦ (s.removeFromBucket env p t idx).typeOf i = some t') =
        (s.addrLookup.keys.erase (env.id (s.heap p).addr)).countP fun i ↦ s.typeOf i = some t' :=
      List.countP_congr fun i hi ↦ by
        rw [typeOf_removeFromBucket hr, if_neg (fun hc ↦ (mem_keys_erase_iff.mp hi).1 hc.2)]
    rw [AList.keys_erase, hrest, countP_keys_of_mem hmem, htype]
    by_cases htt : t' = t
    · subst htt
      rw [if_pos (⟨hnil, rfl⟩ : (s.heap p).buckets.filter (· ≠ idx) = [] ∧ t' = t')]
      simp only [if_true, decide_true]
      omega
    · rw [if_neg (fun hc : (s.heap p).buckets.filter (· ≠ idx) = [] ∧ t' = t ↦ htt hc.2)]
      simp [Ne.symm htt]
  · rename_i hnil
    have hsame : (s.addrLookup.keys.countP
        fun i ↦ (s.removeFromBucket env p t idx).typeOf i = some t') =
        s.addrLookup.keys.countP fun i ↦ s.typeOf i = some t' :=
      List.countP_congr fun i _ ↦ by rw [typeOf_removeFromBucket hr, if_neg (fun hc ↦ hnil hc.1)]
    rw [hsame, if_neg (fun hc : (s.heap p).buckets.filter (· ≠ idx) = [] ∧ t' = t ↦ hnil hc.1)]
    simp

/-- `removeFromBucket` of a bucket the record lists keeps `Indexed`. -/
theorem Indexed.removeFromBucket (h : Indexed env s) (hr : RemovesFrom env s p t idx) :
    Indexed env (s.removeFromBucket env p t idx) := by
  have hknown := fun q ↦ known_removeFromBucket_iff (q := q) hr
  refine ⟨fun i q hq ↦ ?_, fun t' idx' k q ↦ ?_, fun q hq ↦ ?_, fun q hq hqt ↦ ?_,
    fun q hq hqt ↦ ?_, fun t' ↦ ?_⟩
  · rw [addrLookup_removeFromBucket hr] at hq
    rw [addr_removeFromBucket hr]
    split at hq
    · rw [lookup_erase_eq_ite] at hq
      split at hq
      · cases hq
      · exact h.lookup_id i q hq
    · exact h.lookup_id i q hq
  · rw [listed_removeFromBucket_iff hr, ← h.bucket_iff,
      removeFromBucket_eq hr.type_eq hr.mem hr.nodup]
    dsimp only
    have hp := (h.bucket_iff t idx _ p).mpr ⟨hr.known, hr.type_eq, hr.mem, rfl⟩
    by_cases hb : t' = t ∧ idx' = idx
    · obtain ⟨rfl, rfl⟩ := hb
      rw [if_pos ⟨rfl, rfl⟩, lookup_erase_eq_ite]
      by_cases hkk : k = env.str (s.heap p).addr
      · subst hkk
        rw [if_pos rfl, hp]
        simp only [reduceCtorEq, Option.some.injEq, false_iff]
        rintro ⟨hpq, hne⟩
        exact hne ⟨hpq.symm, trivial, trivial⟩
      · rw [if_neg hkk]
        constructor
        · intro hl
          refine ⟨hl, fun hc ↦ hkk ?_⟩
          rw [hc.1] at hl
          exact ((h.listed_of_lookup hl).2.2.2).symm
        · exact And.left
    · rw [if_neg hb]
      constructor
      · exact fun hl ↦ ⟨hl, fun ⟨_, ht, hi⟩ ↦ hb ⟨ht, hi⟩⟩
      · exact And.left
  · rw [buckets_heap_removeFromBucket hr]
    split
    · rename_i hqp
      subst hqp
      exact hr.nodup.filter _
    · exact h.nodup q ((hknown q).mp hq).1
  · rw [bucketType_removeFromBucket hr] at hqt
    rw [buckets_heap_removeFromBucket hr]
    have hq' := (hknown q).mp hq
    split
    · rename_i hqp
      subst hqp
      have hone := h.old_one q hr.known hqt
      have hlen := length_filter_ne_of_mem hr.nodup hr.mem
      have hnil : (s.heap q).buckets.filter (· ≠ idx) = [] := by
        apply List.eq_nil_of_length_eq_zero
        omega
      exact absurd ⟨rfl, hnil⟩ hq'.2
    · exact h.old_one q hq'.1 hqt
  · rw [bucketType_removeFromBucket hr] at hqt
    rw [buckets_heap_removeFromBucket hr]
    have hq' := (hknown q).mp hq
    split
    · rename_i hqp
      subst hqp
      have hrange := h.new_range q hr.known hqt
      have hlen := length_filter_ne_of_mem hr.nodup hr.mem
      have hne : (s.heap q).buckets.filter (· ≠ idx) ≠ [] := fun hnil ↦ hq'.2 ⟨rfl, hnil⟩
      have hpos := List.length_pos_iff.mpr hne
      omega
    · exact h.new_range q hq'.1 hqt
  · rw [typeCount_removeFromBucket hr, ← h.count_eq,
      removeFromBucket_eq hr.type_eq hr.mem hr.nodup]
    dsimp only
    split
    · rename_i hnil
      by_cases htt : t' = t
      · subst htt
        rw [if_pos (⟨hnil, rfl⟩ : (s.heap p).buckets.filter (· ≠ idx) = [] ∧ t' = t')]
        simp
      · rw [if_neg (fun hc : (s.heap p).buckets.filter (· ≠ idx) = [] ∧ t' = t ↦ htt hc.2),
          Function.update_of_ne htt]
        simp
    · rename_i hnil
      rw [if_neg (fun hc : (s.heap p).buckets.filter (· ≠ idx) = [] ∧ t' = t ↦ hnil hc.1)]
      simp

end RemoveFromBucket

/-! ## Removing from every bucket -/

section RemoveFromAllBuckets

variable {p : Ptr}

theorem addr_removeFromAllBuckets (q : Ptr) :
    ((s.removeFromAllBuckets env p).heap q).addr = (s.heap q).addr := by
  rw [removeFromAllBuckets_eq]
  by_cases hq : q = p
  · subst hq
    simp
  · simp [hq]

theorem bucketType_removeFromAllBuckets (q : Ptr) :
    ((s.removeFromAllBuckets env p).heap q).bucketType = (s.heap q).bucketType := by
  rw [removeFromAllBuckets_eq]
  by_cases hq : q = p
  · subst hq
    simp
  · simp [hq]

theorem buckets_heap_removeFromAllBuckets (q : Ptr) :
    ((s.removeFromAllBuckets env p).heap q).buckets =
      if q = p then [] else (s.heap q).buckets := by
  rw [removeFromAllBuckets_eq]
  by_cases hq : q = p
  · subst hq
    simp
  · simp [hq]

theorem addrLookup_removeFromAllBuckets :
    (s.removeFromAllBuckets env p).addrLookup = s.addrLookup.erase (env.id (s.heap p).addr) := by
  rw [removeFromAllBuckets_eq]

theorem known_removeFromAllBuckets_iff (hp : Known env s p) {q : Ptr} :
    Known env (s.removeFromAllBuckets env p) q ↔ Known env s q ∧ q ≠ p := by
  unfold Known
  rw [addr_removeFromAllBuckets, addrLookup_removeFromAllBuckets, lookup_erase_eq_ite]
  by_cases hq : env.id (s.heap q).addr = env.id (s.heap p).addr
  · have hl : s.addrLookup.lookup (env.id (s.heap p).addr) = some p := hp
    rw [if_pos hq, hq, hl]
    constructor
    · intro hc
      cases hc
    · rintro ⟨hqp, hne⟩
      exact absurd (Option.some.inj hqp).symm hne
  · have hqp : q ≠ p := fun hqp ↦ hq (by rw [hqp])
    rw [if_neg hq]
    exact ⟨fun hk ↦ ⟨hk, hqp⟩, And.left⟩

theorem listed_removeFromAllBuckets_iff (hp : Known env s p) {t' : BucketType} {idx' : ℕ}
    {k : K} {q : Ptr} :
    Listed env (s.removeFromAllBuckets env p) t' idx' k q ↔ Listed env s t' idx' k q ∧ q ≠ p := by
  unfold Listed
  rw [known_removeFromAllBuckets_iff hp, bucketType_removeFromAllBuckets,
    buckets_heap_removeFromAllBuckets, addr_removeFromAllBuckets]
  by_cases hq : q = p
  · simp [hq]
  · simp [hq]

theorem typeOf_removeFromAllBuckets (i : I) :
    (s.removeFromAllBuckets env p).typeOf i =
      if i = env.id (s.heap p).addr then none else s.typeOf i := by
  unfold typeOf
  rw [addrLookup_removeFromAllBuckets, lookup_erase_eq_ite]
  split
  · rfl
  · simp only [bucketType_removeFromAllBuckets]

theorem typeCount_removeFromAllBuckets (hp : Known env s p) (t' : BucketType) :
    ((s.removeFromAllBuckets env p).typeCount t' : ℤ) =
      s.typeCount t' - if (s.heap p).bucketType = t' then 1 else 0 := by
  have hl : s.addrLookup.lookup (env.id (s.heap p).addr) = some p := hp
  have hmem : env.id (s.heap p).addr ∈ s.addrLookup := mem_of_lookup_eq_some hl
  have htype : s.typeOf (env.id (s.heap p).addr) = some (s.heap p).bucketType := by
    simp [typeOf, hl]
  have hrest : ((s.addrLookup.keys.erase (env.id (s.heap p).addr)).countP
      fun i ↦ (s.removeFromAllBuckets env p).typeOf i = some t') =
      (s.addrLookup.keys.erase (env.id (s.heap p).addr)).countP fun i ↦ s.typeOf i = some t' :=
    List.countP_congr fun i hi ↦ by
      rw [typeOf_removeFromAllBuckets, if_neg (mem_keys_erase_iff.mp hi).1]
  unfold typeCount
  rw [addrLookup_removeFromAllBuckets, AList.keys_erase, hrest, countP_keys_of_mem hmem, htype]
  by_cases htt : (s.heap p).bucketType = t'
  · simp only [htt, if_true, decide_true]
    omega
  · simp [htt]

/-- `removeFromAllBuckets` of an address the book knows keeps `Indexed`. -/
theorem Indexed.removeFromAllBuckets (h : Indexed env s) (hp : Known env s p) :
    Indexed env (s.removeFromAllBuckets env p) := by
  have hknown := fun q ↦ known_removeFromAllBuckets_iff (q := q) hp
  refine ⟨fun i q hq ↦ ?_, fun t' idx' k q ↦ ?_, fun q hq ↦ ?_, fun q hq hqt ↦ ?_,
    fun q hq hqt ↦ ?_, fun t' ↦ ?_⟩
  · rw [addrLookup_removeFromAllBuckets, lookup_erase_eq_ite] at hq
    rw [addr_removeFromAllBuckets]
    split at hq
    · cases hq
    · exact h.lookup_id i q hq
  · rw [listed_removeFromAllBuckets_iff hp, ← h.bucket_iff, removeFromAllBuckets_eq]
    dsimp only
    by_cases hb : t' = (s.heap p).bucketType ∧ idx' ∈ (s.heap p).buckets
    · have hpl := (h.bucket_iff t' idx' _ p).mpr ⟨hp, hb.1.symm, hb.2, rfl⟩
      rw [if_pos hb, lookup_erase_eq_ite]
      by_cases hkk : k = env.str (s.heap p).addr
      · subst hkk
        rw [if_pos rfl, hpl]
        simp only [reduceCtorEq, Option.some.injEq, false_iff]
        rintro ⟨hpq, hne⟩
        exact hne hpq.symm
      · rw [if_neg hkk]
        constructor
        · intro hl
          refine ⟨hl, fun hqp ↦ hkk ?_⟩
          rw [hqp] at hl
          exact ((h.listed_of_lookup hl).2.2.2).symm
        · exact And.left
    · rw [if_neg hb]
      constructor
      · intro hl
        refine ⟨hl, fun hqp ↦ hb ?_⟩
        rw [hqp] at hl
        have hlp := h.listed_of_lookup hl
        exact ⟨hlp.2.1.symm, hlp.2.2.1⟩
      · exact And.left
  · rw [buckets_heap_removeFromAllBuckets, if_neg ((hknown q).mp hq).2]
    exact h.nodup q ((hknown q).mp hq).1
  · rw [bucketType_removeFromAllBuckets] at hqt
    rw [buckets_heap_removeFromAllBuckets, if_neg ((hknown q).mp hq).2]
    exact h.old_one q ((hknown q).mp hq).1 hqt
  · rw [bucketType_removeFromAllBuckets] at hqt
    rw [buckets_heap_removeFromAllBuckets, if_neg ((hknown q).mp hq).2]
    exact h.new_range q ((hknown q).mp hq).1 hqt
  · rw [typeCount_removeFromAllBuckets hp, ← h.count_eq, removeFromAllBuckets_eq]
    dsimp only
    by_cases htt : (s.heap p).bucketType = t'
    · subst htt
      simp
    · rw [if_neg htt, Function.update_of_ne (Ne.symm htt)]
      simp

end RemoveFromAllBuckets

/-! ## Records the maps do not see -/

/-- A book with the maps and counters of an `Indexed` one, whose records agree with its
records on address, buckets and type, is `Indexed`. -/
theorem Indexed.of_fields (h : Indexed env s) {s' : AddrBook A I K}
    (hL : s'.addrLookup = s.addrLookup) (hB : s'.buckets = s.buckets) (hn : s'.n = s.n)
    (hf : ∀ q, (s'.heap q).addr = (s.heap q).addr ∧ (s'.heap q).buckets = (s.heap q).buckets ∧
      (s'.heap q).bucketType = (s.heap q).bucketType) :
    Indexed env s' := by
  have hknown : ∀ q, Known env s' q ↔ Known env s q := fun q ↦ by
    unfold Known
    rw [hL, (hf q).1]
  have htypeOf : ∀ i, s'.typeOf i = s.typeOf i := fun i ↦ by
    unfold typeOf
    rw [hL]
    cases s.addrLookup.lookup i with
    | none => rfl
    | some q => simp [(hf q).2.2]
  refine ⟨fun i q hq ↦ ?_, fun t idx k q ↦ ?_, fun q hq ↦ ?_, fun q hq hqt ↦ ?_,
    fun q hq hqt ↦ ?_, fun t ↦ ?_⟩
  · rw [(hf q).1]
    exact h.lookup_id i q (hL ▸ hq)
  · unfold Listed
    rw [hknown, hB, (hf q).1, (hf q).2.1, (hf q).2.2]
    exact h.bucket_iff t idx k q
  · rw [(hf q).2.1]
    exact h.nodup q ((hknown q).mp hq)
  · rw [(hf q).2.1]
    exact h.old_one q ((hknown q).mp hq) ((hf q).2.2 ▸ hqt)
  · rw [(hf q).2.1]
    exact h.new_range q ((hknown q).mp hq) ((hf q).2.2 ▸ hqt)
  · unfold typeCount
    simp only [hn, hL, htypeOf]
    exact h.count_eq t

/-- Changing what a record holds besides its address, buckets and type keeps `Indexed`. -/
theorem Indexed.heapSet_same (h : Indexed env s) {p : Ptr} {ka : KnownAddress A}
    (haddr : ka.addr = (s.heap p).addr) (hbuckets : ka.buckets = (s.heap p).buckets)
    (htype : ka.bucketType = (s.heap p).bucketType) :
    Indexed env (s.heapSet p ka) :=
  h.of_fields rfl rfl rfl fun q ↦ by
    by_cases hq : q = p
    · subst hq
      simp [haddr, hbuckets, htype]
    · simp [hq]

/-- Writing the record of an address the book does not know keeps `Indexed`. -/
theorem Indexed.heapSet_of_not_known (h : Indexed env s) {p : Ptr} (hp : ¬ Known env s p)
    (ka : KnownAddress A) : Indexed env (s.heapSet p ka) := by
  have hne := h.lookup_ne_of_not_known hp
  have hknown : ∀ q, Known env (s.heapSet p ka) q ↔ Known env s q := fun q ↦ by
    unfold Known
    by_cases hq : q = p
    · subst hq
      simp only [heap_heapSet, addrLookup_heapSet]
      exact ⟨fun hk ↦ absurd hk (hne _), fun hk ↦ absurd hk hp⟩
    · rw [heap_heapSet, Function.update_of_ne hq, addrLookup_heapSet]
  have hsame : ∀ q, Known env (s.heapSet p ka) q → (s.heapSet p ka).heap q = s.heap q :=
    fun q hq ↦ by
      have hqp : q ≠ p := fun hqp ↦ hp (hqp ▸ (hknown q).mp hq)
      simp [hqp]
  refine ⟨fun i q hq ↦ ?_, fun t idx k q ↦ ?_, fun q hq ↦ ?_, fun q hq hqt ↦ ?_,
    fun q hq hqt ↦ ?_, fun t ↦ ?_⟩
  · have hqp : q ≠ p := fun hqp ↦ hne i (hqp ▸ hq)
    simp only [heap_heapSet, Function.update_of_ne hqp]
    exact h.lookup_id i q hq
  · rw [buckets_heapSet, h.bucket_iff]
    unfold Listed
    by_cases hq : Known env s q
    · have hqp : q ≠ p := fun hqp ↦ hp (hqp ▸ hq)
      simp [hknown, hq, hqp]
    · simp [hknown, hq]
  · rw [hsame q hq]
    exact h.nodup q ((hknown q).mp hq)
  · rw [hsame q hq] at hqt ⊢
    exact h.old_one q ((hknown q).mp hq) hqt
  · rw [hsame q hq] at hqt ⊢
    exact h.new_range q ((hknown q).mp hq) hqt
  · have htypeOf : ∀ i, (s.heapSet p ka).typeOf i = s.typeOf i := fun i ↦ by
      unfold typeOf
      cases hi : s.addrLookup.lookup i with
      | none => simp [hi]
      | some q =>
        have hqp : q ≠ p := fun hqp ↦ hne i (hqp ▸ hi)
        simp [hi, hqp]
    unfold typeCount
    simp only [n_heapSet, addrLookup_heapSet, htypeOf]
    exact h.count_eq t

/-! ## What an edit leaves alone -/

/-- An edit of the book that keeps every address, changes only the records of known
addresses and of `p`, adds to `addrLookup` at most `p` under its ID, and leaves `badPeers`
and the allocator alone. -/
structure Touches (env : AddrEnv A I K) (s s' : AddrBook A I K) (p : Ptr) : Prop where
  addr_eq : ∀ q, (s'.heap q).addr = (s.heap q).addr
  heap_eq : ∀ q, q ≠ p → ¬ Known env s q → s'.heap q = s.heap q
  lookup_of : ∀ i q, s'.addrLookup.lookup i = some q →
    s.addrLookup.lookup i = some q ∨ (q = p ∧ i = env.id (s.heap p).addr)
  badPeers_eq : s'.badPeers = s.badPeers
  next_eq : s'.next = s.next
  ourAddrs_eq : s'.ourAddrs = s.ourAddrs
  privateIDs_eq : s'.privateIDs = s.privateIDs

omit [DecidableEq K] in
theorem Touches.refl (s : AddrBook A I K) (p : Ptr) : Touches env s s p :=
  ⟨fun _ ↦ rfl, fun _ _ _ ↦ rfl, fun _ _ hq ↦ .inl hq, rfl, rfl, rfl, rfl⟩

omit [DecidableEq K] in
/-- After an edit, an address other than `p` is known only if it was. -/
theorem Touches.known_of (ht : Touches env s s' p) {q : Ptr} (hqp : q ≠ p)
    (hq : Known env s' q) : Known env s q := by
  unfold Known at hq ⊢
  rw [ht.addr_eq] at hq
  rcases ht.lookup_of _ _ hq with hl | ⟨hqp', -⟩
  · exact hl
  · exact absurd hqp' hqp

omit [DecidableEq K] in
theorem Touches.trans {s₁ s₂ : AddrBook A I K} (h₁ : Touches env s s₁ p)
    (h₂ : Touches env s₁ s₂ p) : Touches env s s₂ p where
  addr_eq q := (h₂.addr_eq q).trans (h₁.addr_eq q)
  heap_eq q hqp hq := by
    have hq₁ : ¬ Known env s₁ q := fun hk ↦ hq (h₁.known_of hqp hk)
    rw [h₂.heap_eq q hqp hq₁, h₁.heap_eq q hqp hq]
  lookup_of i q hq := by
    rcases h₂.lookup_of i q hq with hl | ⟨rfl, rfl⟩
    · exact h₁.lookup_of i q hl
    · exact .inr ⟨rfl, by rw [h₁.addr_eq]⟩
  badPeers_eq := h₂.badPeers_eq.trans h₁.badPeers_eq
  next_eq := h₂.next_eq.trans h₁.next_eq
  ourAddrs_eq := h₂.ourAddrs_eq.trans h₁.ourAddrs_eq
  privateIDs_eq := h₂.privateIDs_eq.trans h₁.privateIDs_eq

theorem Touches.addToBucket {t : BucketType} {idx : ℕ} (hidx : idx ∉ (s.heap p).buckets) :
    Touches env s (s.addToBucket env p t idx) p where
  addr_eq := addr_addToBucket hidx
  heap_eq q hqp _ := by
    rw [addToBucket_eq hidx]
    simp [hqp]
  lookup_of i q hq := by
    rw [addrLookup_addToBucket hidx, lookup_insert_eq_ite] at hq
    split at hq
    · rename_i hi
      cases hq
      exact .inr ⟨rfl, hi⟩
    · exact .inl hq
  badPeers_eq := by rw [addToBucket_eq hidx]
  next_eq := by rw [addToBucket_eq hidx]
  ourAddrs_eq := by rw [addToBucket_eq hidx]
  privateIDs_eq := by rw [addToBucket_eq hidx]

theorem Touches.removeFromBucket {q : Ptr} {t : BucketType} {idx : ℕ}
    (hr : RemovesFrom env s q t idx) (p : Ptr) :
    Touches env s (s.removeFromBucket env q t idx) p where
  addr_eq := addr_removeFromBucket hr
  heap_eq r _ hr' := by
    have hrq : r ≠ q := fun hrq ↦ hr' (hrq ▸ hr.known)
    rw [removeFromBucket_eq hr.type_eq hr.mem hr.nodup]
    simp [hrq]
  lookup_of i r hl := by
    rw [addrLookup_removeFromBucket hr] at hl
    split at hl
    · rw [lookup_erase_eq_ite] at hl
      split at hl
      · cases hl
      · exact .inl hl
    · exact .inl hl
  badPeers_eq := by rw [removeFromBucket_eq hr.type_eq hr.mem hr.nodup]
  next_eq := by rw [removeFromBucket_eq hr.type_eq hr.mem hr.nodup]
  ourAddrs_eq := by rw [removeFromBucket_eq hr.type_eq hr.mem hr.nodup]
  privateIDs_eq := by rw [removeFromBucket_eq hr.type_eq hr.mem hr.nodup]

theorem Touches.removeFromAllBuckets {q : Ptr} (hq : Known env s q) (p : Ptr) :
    Touches env s (s.removeFromAllBuckets env q) p where
  addr_eq := addr_removeFromAllBuckets
  heap_eq r _ hr := by
    have hrq : r ≠ q := fun hrq ↦ hr (hrq ▸ hq)
    rw [removeFromAllBuckets_eq]
    simp [hrq]
  lookup_of i r hl := by
    rw [addrLookup_removeFromAllBuckets, lookup_erase_eq_ite] at hl
    split at hl
    · cases hl
    · exact .inl hl
  badPeers_eq := by rw [removeFromAllBuckets_eq]
  next_eq := by rw [removeFromAllBuckets_eq]
  ourAddrs_eq := by rw [removeFromAllBuckets_eq]
  privateIDs_eq := by rw [removeFromAllBuckets_eq]

/-! ## Expiring and adding to a new bucket -/

/-- A key is in a bucket of an `Indexed` book iff some record lists it there. -/
theorem Indexed.mem_bucket_iff (h : Indexed env s) {t : BucketType} {idx : ℕ} {k : K} :
    k ∈ s.buckets t idx ↔ ∃ q, Listed env s t idx k q := by
  rw [← AList.lookup_isSome, Option.isSome_iff_exists]
  exact exists_congr fun q ↦ h.bucket_iff t idx k q

omit [DecidableEq I] [DecidableEq K] in
theorem pickOldestStep_ne_none (o : Option Ptr) (q : Ptr) : s.pickOldestStep o q ≠ none := by
  unfold pickOldestStep
  split
  · exact Option.some_ne_none q
  · split <;> exact Option.some_ne_none _

omit [DecidableEq I] [DecidableEq K] in
/-- One round of `pickOldest` keeps the candidate or takes the pointer it looks at. -/
theorem pickOldestStep_eq_or (o : Option Ptr) (q : Ptr) :
    s.pickOldestStep o q = some q ∨ s.pickOldestStep o q = o := by
  unfold pickOldestStep
  split
  · exact .inl rfl
  · split
    · exact .inl rfl
    · exact .inr rfl

omit [DecidableEq I] [DecidableEq K] in
/-- The loop of `pickOldest` ends at its start or at a pointer of the entries. -/
theorem foldl_pickOldestStep_mem (l : List (Σ _ : K, Ptr)) (o : Option Ptr) {q : Ptr}
    (hq : l.foldl (fun o e ↦ s.pickOldestStep o e.2) o = some q) :
    o = some q ∨ ∃ e ∈ l, e.2 = q := by
  induction l generalizing o with
  | nil => exact .inl hq
  | cons e l ih =>
    rcases ih _ hq with h | ⟨e', he', rfl⟩
    · rcases pickOldestStep_eq_or o e.2 with h' | h'
      · exact .inr ⟨e, List.mem_cons_self, Option.some.inj (h'.symm.trans h)⟩
      · exact .inl (h'.symm.trans h)
    · exact .inr ⟨e', List.mem_cons_of_mem _ he', rfl⟩

omit [DecidableEq I] [DecidableEq K] in
theorem foldl_pickOldestStep_ne_none (l : List (Σ _ : K, Ptr)) {o : Option Ptr}
    (ho : o ≠ none) : l.foldl (fun o e ↦ s.pickOldestStep o e.2) o ≠ none := by
  induction l generalizing o with
  | nil => exact ho
  | cons e l ih => exact ih (pickOldestStep_ne_none o e.2)

omit [DecidableEq I] [DecidableEq K] in
/-- `pickOldest` finds an address in a bucket that is not empty. -/
theorem pickOldest_ne_none {t : BucketType} {idx : ℕ} (hne : (s.buckets t idx).entries ≠ []) :
    s.pickOldest t idx ≠ none := by
  obtain ⟨e, l, he⟩ := List.exists_cons_of_ne_nil hne
  unfold pickOldest
  rw [he, List.foldl_cons]
  exact foldl_pickOldestStep_ne_none l (pickOldestStep_ne_none none e.2)

omit [DecidableEq I] in
/-- What `pickOldest` finds is an entry of the bucket. -/
theorem pickOldest_lookup {t : BucketType} {idx : ℕ} {q : Ptr} (hq : s.pickOldest t idx = some q) :
    ∃ k, (s.buckets t idx).lookup k = some q := by
  rcases foldl_pickOldestStep_mem _ none hq with h | ⟨e, he, rfl⟩
  · cases h
  · exact ⟨e.1, AList.mem_lookup_iff.mpr he⟩

/-- `expireNew` of a bucket that is not empty removes one of its addresses: a bad one, or
else the oldest. -/
theorem Indexed.expireNew_eq (h : Indexed env s) {idx : ℕ}
    (hne : (s.buckets .new idx).entries ≠ []) (now : Time) :
    ∃ q, RemovesFrom env s q .new idx ∧
      s.expireNew env idx now = .ok (s.removeFromBucket env q .new idx) := by
  unfold expireNew
  cases hf : (s.buckets .new idx).entries.find? (fun e ↦ (s.heap e.2).isBad now) with
  | some e =>
    have hmem : e ∈ (s.buckets .new idx).entries := List.mem_of_find?_eq_some hf
    exact ⟨e.2, h.removesFrom (AList.mem_lookup_iff.mpr hmem), rfl⟩
  | none =>
    obtain ⟨q, hq⟩ := Option.ne_none_iff_exists'.mp (pickOldest_ne_none hne)
    obtain ⟨k, hk⟩ := pickOldest_lookup hq
    simp only [hq]
    exact ⟨q, h.removesFrom hk, rfl⟩

/-- The room `addToNewBucket` makes in bucket `idx` for an address `p` not in it: the book
as it was, or less one address of the bucket, which is not `p`. -/
theorem Indexed.makeRoom (h : Indexed env s) {p : Ptr} {idx : ℕ} (now : Time)
    (hk : env.str (s.heap p).addr ∉ s.buckets .new idx) :
    ∃ s₁, (if newBucketSize < (s.buckets .new idx).entries.length then s.expireNew env idx now
        else pure s) = .ok s₁ ∧
      Indexed env s₁ ∧ Touches env s s₁ p ∧ s₁.heap p = s.heap p ∧
      (Known env s₁ p ↔ Known env s p) ∧
      (env.id (s.heap p).addr ∉ s.addrLookup → env.id (s.heap p).addr ∉ s₁.addrLookup) ∧
      env.str (s.heap p).addr ∉ s₁.buckets .new idx := by
  by_cases hfull : newBucketSize < (s.buckets .new idx).entries.length
  · rw [if_pos hfull]
    have hne : (s.buckets .new idx).entries ≠ [] := List.ne_nil_of_length_pos (by omega)
    obtain ⟨q, hq, he⟩ := h.expireNew_eq hne now
    have hqp : p ≠ q := by
      rintro rfl
      exact hk (h.mem_bucket_iff.mpr ⟨p, hq.known, hq.type_eq, hq.mem, rfl⟩)
    have hheap : (s.removeFromBucket env q .new idx).heap p = s.heap p := by
      rw [removeFromBucket_eq hq.type_eq hq.mem hq.nodup]
      simp [hqp]
    refine ⟨_, he, h.removeFromBucket hq, Touches.removeFromBucket hq p, hheap, ?_, ?_, ?_⟩
    · rw [known_removeFromBucket_iff hq]
      exact and_iff_left fun hc ↦ hqp hc.1
    · intro hnot hmem
      rw [addrLookup_removeFromBucket hq] at hmem
      split at hmem
      · exact hnot (AList.mem_erase.mp hmem).2
      · exact hnot hmem
    · rw [(h.removeFromBucket hq).mem_bucket_iff]
      rintro ⟨r, hr⟩
      exact hk (h.mem_bucket_iff.mpr ⟨r, ((listed_removeFromBucket_iff hq).mp hr).1⟩)
  · rw [if_neg hfull]
    exact ⟨s, rfl, h, Touches.refl s p, rfl, Iff.rfl, id, hk⟩

/-- `addToNewBucket` of a new address that has room for one more bucket, or that the book
does not know yet and is in no bucket: no panic, no error, and the book stays `Indexed`. -/
theorem Indexed.addToNewBucket (h : Indexed env s) {p : Ptr} {idx : ℕ} (now : Time)
    (hnew : (s.heap p).bucketType = .new)
    (hp : (Known env s p ∧ (s.heap p).buckets.length < maxNewBucketsPerAddress) ∨
      (env.id (s.heap p).addr ∉ s.addrLookup ∧ (s.heap p).buckets = [])) :
    ∃ s', s.addToNewBucket env p idx now = .ok (s', none) ∧ Indexed env s' ∧
      Touches env s s' p := by
  unfold AddrBook.addToNewBucket
  rw [if_neg (by rw [hnew]; decide)]
  by_cases hk : env.str (s.heap p).addr ∈ s.buckets .new idx
  · rw [if_pos hk]
    exact ⟨s, rfl, h, Touches.refl s p⟩
  rw [if_neg hk]
  obtain ⟨s₁, he, h₁, ht₁, hheap, hknown, hid, hk₁⟩ := h.makeRoom now hk
  rw [he]
  have hp₁ : Known env s₁ p ∨ (env.id (s₁.heap p).addr ∉ s₁.addrLookup ∧ (s₁.heap p).buckets = []) := by
    rw [hheap, hknown]
    exact hp.imp And.left fun hp ↦ ⟨hid hp.1, hp.2⟩
  have hidx : idx ∉ (s₁.heap p).buckets := by
    intro hmem
    rcases hp₁ with hp₁ | ⟨-, hnil⟩
    · exact hk₁ (hheap ▸ h₁.mem_bucket_iff.mpr ⟨p, hp₁, hheap ▸ hnew, hmem, rfl⟩)
    · simp [hnil] at hmem
  refine ⟨_, rfl, h₁.addToBucket (hheap ▸ hnew) (hheap ▸ hk₁) hp₁ (fun _ ↦ ?_) (fun hc ↦ ?_),
    ht₁.trans (Touches.addToBucket hidx)⟩
  · rw [hheap]
    rcases hp with hp | hp
    · exact hp.2
    · simp [hp.2, maxNewBucketsPerAddress]
  · cases hc

/-! ## Moving to an old bucket -/

/-- `addToNewBucket` refuses an old address and leaves the book as it was. -/
theorem addToNewBucket_of_old {p : Ptr} {idx : ℕ} (now : Time)
    (hold : (s.heap p).bucketType = .old) :
    s.addToNewBucket env p idx now = .ok (s, some (.oldAddressNewBucket (s.heap p).addr idx)) := by
  unfold AddrBook.addToNewBucket
  rw [if_pos hold]
  rfl

omit [DecidableEq K] in
theorem Touches.heapSet {p : Ptr} {ka : KnownAddress A} (haddr : ka.addr = (s.heap p).addr) :
    Touches env s (s.heapSet p ka) p where
  addr_eq q := by
    by_cases hq : q = p
    · subst hq
      simp [haddr]
    · simp [hq]
  heap_eq q hqp _ := by simp [hqp]
  lookup_of _ _ hq := .inl hq
  badPeers_eq := rfl
  next_eq := rfl
  ourAddrs_eq := rfl
  privateIDs_eq := rfl

section AddToOldBucket

variable {p : Ptr} {idx : ℕ}

/-- `addToOldBucket` of an old address in no bucket whose key is in the bucket already
counts it as added and changes nothing. -/
theorem addToOldBucket_of_mem (hold : (s.heap p).bucketType = .old)
    (hnil : (s.heap p).buckets = []) (hk : env.str (s.heap p).addr ∈ s.buckets .old idx) :
    s.addToOldBucket env p idx = (s, true) := by
  unfold AddrBook.addToOldBucket
  rw [if_neg (by rw [hold]; decide), if_neg (by rw [hnil]; decide), if_pos hk]

theorem addToOldBucket_of_full (hold : (s.heap p).bucketType = .old)
    (hnil : (s.heap p).buckets = []) (hk : env.str (s.heap p).addr ∉ s.buckets .old idx)
    (hfull : oldBucketSize < (s.buckets .old idx).entries.length) :
    s.addToOldBucket env p idx = (s, false) := by
  unfold AddrBook.addToOldBucket
  rw [if_neg (by rw [hold]; decide), if_neg (by rw [hnil]; decide), if_neg hk, if_pos hfull]

theorem addToOldBucket_of_room (hold : (s.heap p).bucketType = .old)
    (hnil : (s.heap p).buckets = []) (hk : env.str (s.heap p).addr ∉ s.buckets .old idx)
    (hroom : ¬ oldBucketSize < (s.buckets .old idx).entries.length) :
    s.addToOldBucket env p idx = (s.addToBucket env p .old idx, true) := by
  unfold AddrBook.addToOldBucket
  rw [if_neg (by rw [hold]; decide), if_neg (by rw [hnil]; decide), if_neg hk, if_neg hroom]

/-- `addToOldBucket` of an old address the book does not know and that is in no bucket keeps
`Indexed`, and touches that address only. -/
theorem Indexed.addToOldBucket (h : Indexed env s) (hold : (s.heap p).bucketType = .old)
    (hnot : env.id (s.heap p).addr ∉ s.addrLookup) (hnil : (s.heap p).buckets = []) :
    Indexed env (s.addToOldBucket env p idx).1 ∧ Touches env s (s.addToOldBucket env p idx).1 p := by
  by_cases hk : env.str (s.heap p).addr ∈ s.buckets .old idx
  · rw [addToOldBucket_of_mem hold hnil hk]
    exact ⟨h, Touches.refl s p⟩
  by_cases hfull : oldBucketSize < (s.buckets .old idx).entries.length
  · rw [addToOldBucket_of_full hold hnil hk hfull]
    exact ⟨h, Touches.refl s p⟩
  rw [addToOldBucket_of_room hold hnil hk hfull]
  exact ⟨h.addToBucket hold hk (.inr ⟨hnot, hnil⟩) (fun hc ↦ by cases hc) (fun _ ↦ hnil),
    Touches.addToBucket (by simp [hnil])⟩

end AddToOldBucket

/-- An old address removed from its old bucket leaves the book: it was its only bucket. -/
theorem Indexed.not_mem_removeFromBucket_of_old (h : Indexed env s) {o : Ptr} {idx : ℕ}
    (hr : RemovesFrom env s o .old idx) :
    env.id (s.heap o).addr ∉ (s.removeFromBucket env o .old idx).addrLookup := by
  obtain ⟨j, hj⟩ := List.length_eq_one_iff.mp (h.old_one o hr.known hr.type_eq)
  have hji : j = idx := by
    have hmem := hr.mem
    rw [hj, List.mem_singleton] at hmem
    exact hmem.symm
  have hnil : (s.heap o).buckets.filter (· ≠ idx) = [] := by
    rw [hj, hji]
    simp
  rw [addrLookup_removeFromBucket hr, if_pos hnil, AList.mem_erase]
  exact fun hc ↦ hc.1 rfl

/-- The first half of `moveToOld`: out of all its buckets, and retyped old, the address is a
record the book does not know. -/
theorem Indexed.retypeOld (h : Indexed env s) {p : Ptr} (hp : Known env s p)
    (s₂ : AddrBook A I K) (hs₂ : s₂ = (s.removeFromAllBuckets env p).heapSet p
      { (s.removeFromAllBuckets env p).heap p with bucketType := .old }) :
    Indexed env s₂ ∧ Touches env s s₂ p ∧ (s₂.heap p).bucketType = .old ∧
      (s₂.heap p).buckets = [] ∧ env.id (s₂.heap p).addr ∉ s₂.addrLookup ∧
      (s₂.heap p).addr = (s.heap p).addr ∧
      ((s.heap p).bucketType = .new → s₂.buckets .old = s.buckets .old) := by
  have hnot : ¬ Known env (s.removeFromAllBuckets env p) p := fun hk ↦
    ((known_removeFromAllBuckets_iff hp).mp hk).2 rfl
  have haddr : (s₂.heap p).addr = (s.heap p).addr := by
    rw [hs₂, heap_heapSet, Function.update_self, addr_removeFromAllBuckets]
  subst hs₂
  refine ⟨(h.removeFromAllBuckets hp).heapSet_of_not_known hnot _,
    (Touches.removeFromAllBuckets hp p).trans (Touches.heapSet rfl), by simp, ?_, ?_, haddr,
    fun hnew ↦ ?_⟩
  · simp [buckets_heap_removeFromAllBuckets]
  · rw [haddr, addrLookup_heapSet, addrLookup_removeFromAllBuckets, AList.mem_erase]
    exact fun hc ↦ hc.1 rfl
  · funext idx
    rw [buckets_heapSet, removeFromAllBuckets_eq]
    simp [hnew]

/-- `moveToOld` of a known address: no panic, the book stays `Indexed`, and only the
address and those removed change.  When the old bucket of a new address is full, the
oldest address of that bucket leaves the book: `addToNewBucket` refuses it as old. -/
theorem Indexed.moveToOld (h : Indexed env s) {p : Ptr} (hp : Known env s p) (now : Time) :
    ∃ s', s.moveToOld env p now = .ok s' ∧ Indexed env s' ∧ Touches env s s' p ∧
      ((s.heap p).bucketType = .new →
        env.str (s.heap p).addr ∉ s.buckets .old (env.calcOldBucket (s.heap p).addr) →
        oldBucketSize < (s.buckets .old (env.calcOldBucket (s.heap p).addr)).entries.length →
        ∃ o, Known env s o ∧ o ≠ p ∧ env.id (s.heap o).addr ∉ s'.addrLookup) := by
  unfold AddrBook.moveToOld
  by_cases hold : (s.heap p).bucketType = .old
  · rw [if_pos hold]
    exact ⟨s, rfl, h, Touches.refl s p, fun hnew ↦ absurd (hold.symm.trans hnew) (by decide)⟩
  rw [if_neg hold]
  have hne := h.buckets_ne_nil hp
  rw [if_neg (fun hl ↦ hne (List.eq_nil_of_length_eq_zero hl))]
  dsimp only
  set s₂ := (s.removeFromAllBuckets env p).heapSet p
    { (s.removeFromAllBuckets env p).heap p with bucketType := .old } with hs₂
  obtain ⟨h₂, ht₂, hold₂, hnil₂, hnot₂, haddr₂, hold_eq⟩ := h.retypeOld hp s₂ hs₂
  have hnew : (s.heap p).bucketType = .new := by
    cases hb : (s.heap p).bucketType
    · rfl
    · exact absurd hb hold
  have hbucket := hold_eq hnew
  rw [haddr₂]
  by_cases hk : env.str (s₂.heap p).addr ∈ s₂.buckets .old (env.calcOldBucket (s.heap p).addr)
  · rw [addToOldBucket_of_mem hold₂ hnil₂ hk]
    refine ⟨s₂, rfl, h₂, ht₂, fun _ hk' _ ↦ absurd ?_ hk'⟩
    rwa [haddr₂, hbucket] at hk
  by_cases hfull :
      oldBucketSize < (s₂.buckets .old (env.calcOldBucket (s.heap p).addr)).entries.length
  · rw [addToOldBucket_of_full hold₂ hnil₂ hk hfull]
    dsimp only
    have hne₂ : (s₂.buckets .old (env.calcOldBucket (s.heap p).addr)).entries ≠ [] :=
      List.ne_nil_of_length_pos (by omega)
    obtain ⟨o, ho⟩ := Option.ne_none_iff_exists'.mp (pickOldest_ne_none hne₂)
    obtain ⟨k, hko⟩ := pickOldest_lookup ho
    have hr := h₂.removesFrom hko
    have hop : o ≠ p := by
      rintro rfl
      exact hnot₂ (mem_of_lookup_eq_some hr.known)
    rw [ho]
    dsimp only
    rw [addToNewBucket_of_old now (by rw [bucketType_removeFromBucket hr]; exact hr.type_eq)]
    have hheap₃ : (s₂.removeFromBucket env o .old (env.calcOldBucket (s.heap p).addr)).heap p =
        s₂.heap p := by
      rw [removeFromBucket_eq hr.type_eq hr.mem hr.nodup]
      simp [Ne.symm hop]
    have hnot₃ : env.id ((s₂.removeFromBucket env o .old (env.calcOldBucket (s.heap p).addr)).heap p).addr ∉
        (s₂.removeFromBucket env o .old (env.calcOldBucket (s.heap p).addr)).addrLookup := by
      rw [hheap₃, addrLookup_removeFromBucket hr]
      split
      · exact fun hm ↦ hnot₂ (AList.mem_erase.mp hm).2
      · exact hnot₂
    obtain ⟨h₄, ht₄⟩ := (h₂.removeFromBucket hr).addToOldBucket (hheap₃ ▸ hold₂) hnot₃
      (hheap₃ ▸ hnil₂)
    refine ⟨_, rfl, h₄, ht₂.trans ((Touches.removeFromBucket hr p).trans ht₄),
      fun _ _ _ ↦ ⟨o, ht₂.known_of hop hr.known, hop, fun hm ↦ ?_⟩⟩
    obtain ⟨q, hq⟩ := exists_lookup_of_mem hm
    rw [← ht₂.addr_eq o] at hq
    rcases ht₄.lookup_of _ _ hq with hl | ⟨rfl, hid⟩
    · exact h₂.not_mem_removeFromBucket_of_old hr (mem_of_lookup_eq_some hl)
    · rw [hheap₃] at hid
      exact hnot₂ (hid ▸ mem_of_lookup_eq_some hr.known)
  · rw [addToOldBucket_of_room hold₂ hnil₂ hk hfull]
    refine ⟨_, rfl, h₂.addToBucket hold₂ hk (.inr ⟨hnot₂, hnil₂⟩) (fun hc ↦ by cases hc)
      (fun _ ↦ hnil₂), ht₂.trans (Touches.addToBucket (by simp [hnil₂])), fun _ _ hfull' ↦ ?_⟩
    rw [← hbucket] at hfull'
    exact absurd hfull' hfull

end AddrBook

end Tenderdash.Pex
