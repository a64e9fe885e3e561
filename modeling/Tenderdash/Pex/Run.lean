import Tenderdash.Pex.Buckets

/-!
# The address book over whole runs

`Consistent` holds of `NewAddrBook` and after each call of the interface that changes the
book, so no run panics and `size()` is the number of addresses in `addrLookup`.  The
invariant keeps the records of an address in agreement, but it does not keep the address:
when `MarkGood` moves an address to a full old bucket, `moveToOld` takes the oldest address
out of that bucket and hands it to `addToNewBucket`, which refuses it for being old, so the
oldest address leaves the book where the comment of `moveToOld` says it moves to a new
bucket (`markGood_drops_oldest`).
-/

namespace Tenderdash.Pex

namespace AddrBook

open KnownAddress

variable {A I K : Type} [DecidableEq I] [DecidableEq K] {env : AddrEnv A I K}
  {s : AddrBook A I K}

/-! ## Edits that keep the book consistent -/

/-- An address in `badPeers` is one the book does not know. -/
theorem Consistent.not_known_of_bad (h : Consistent env s) {i : I} {q : Ptr}
    (hq : s.badPeers.lookup i = some q) : ¬ Known env s q := fun hk ↦
  h.bad_not_mem i (mem_of_lookup_eq_some hq)
    (h.bad_id i q hq ▸ mem_of_lookup_eq_some hk)

theorem Consistent.lt_of_known (h : Consistent env s) {p : Ptr} (hp : Known env s p) :
    p < s.next :=
  h.lookup_lt _ p hp

theorem Consistent.not_bad_of_known (h : Consistent env s) {p : Ptr} (hp : Known env s p) :
    env.id (s.heap p).addr ∉ s.badPeers := fun hb ↦
  h.bad_not_mem _ hb (mem_of_lookup_eq_some hp)

/-- An edit that `Touches` an allocated address `p` and leaves an `Indexed` book keeps it
`Consistent`, with `badPeers` cut down to entries of the old one other than `p`'s ID. -/
theorem Consistent.of_touches (h : Consistent env s) {s' : AddrBook A I K} {p : Ptr}
    (h' : Indexed env s') (ht : Touches env s s' p) (hlt : p < s.next)
    (B : AList (fun _ : I ↦ Ptr))
    (hB : ∀ i q, B.lookup i = some q →
      s.badPeers.lookup i = some q ∧ i ≠ env.id (s.heap p).addr) :
    Consistent env { s' with badPeers := B } := by
  have hheap : ∀ i q, B.lookup i = some q → s'.heap q = s.heap q := fun i q hq ↦ by
    obtain ⟨hq, hi⟩ := hB i q hq
    have hqp : q ≠ p := fun hqp ↦ hi (by rw [← hqp, h.bad_id i q hq])
    exact ht.heap_eq q hqp (h.not_known_of_bad hq)
  refine ⟨h'.of_fields rfl rfl rfl fun _ ↦ ⟨rfl, rfl, rfl⟩, fun i q hq ↦ ?_, fun i q hq ↦ ?_,
    fun i hi hmem ↦ ?_, fun i q hq ↦ ?_, fun i q hq ↦ ?_⟩
  · show env.id (s'.heap q).addr = i
    rw [hheap i q hq]
    exact h.bad_id i q (hB i q hq).1
  · show (s'.heap q).buckets = []
    rw [hheap i q hq]
    exact h.bad_buckets i q (hB i q hq).1
  · obtain ⟨q, hq⟩ := exists_lookup_of_mem hi
    obtain ⟨hq, hip⟩ := hB i q hq
    obtain ⟨r, hr⟩ := exists_lookup_of_mem hmem
    rcases ht.lookup_of i r hr with hl | ⟨-, rfl⟩
    · exact h.bad_not_mem i (mem_of_lookup_eq_some hq)
        (mem_of_lookup_eq_some hl)
    · exact hip rfl
  · show q < s'.next
    rw [ht.next_eq]
    rcases ht.lookup_of i q hq with hl | ⟨rfl, -⟩
    · exact h.lookup_lt i q hl
    · exact hlt
  · show q < s'.next
    rw [ht.next_eq]
    exact h.bad_lt i q (hB i q hq).1

/-- `of_touches` for an edit that keeps `badPeers`, of a known address. -/
theorem Consistent.of_touches_known (h : Consistent env s) {s' : AddrBook A I K} {p : Ptr}
    (h' : Indexed env s') (ht : Touches env s s' p) (hp : Known env s p) : Consistent env s' :=
  h.of_touches h' ht (h.lt_of_known hp) s'.badPeers fun i q hq ↦ by
    rw [ht.badPeers_eq] at hq
    exact ⟨hq, fun hi ↦ h.not_bad_of_known hp (hi ▸ mem_of_lookup_eq_some hq)⟩

/-- A change of `ourAddrs`, `privateIDs` or the allocator keeps the book consistent. -/
theorem Consistent.of_eq (h : Consistent env s) {s' : AddrBook A I K}
    (hheap : s'.heap = s.heap) (hL : s'.addrLookup = s.addrLookup) (hB : s'.buckets = s.buckets)
    (hn : s'.n = s.n) (hbad : s'.badPeers = s.badPeers) (hnext : s.next ≤ s'.next) :
    Consistent env s' where
  toIndexed := h.toIndexed.of_fields hL hB hn fun q ↦ by simp [hheap]
  bad_id := by rw [hbad, hheap]; exact h.bad_id
  bad_buckets := by rw [hbad, hheap]; exact h.bad_buckets
  bad_not_mem := by rw [hbad, hL]; exact h.bad_not_mem
  lookup_lt i q hq := lt_of_lt_of_le (h.lookup_lt i q (hL ▸ hq)) hnext
  bad_lt i q hq := lt_of_lt_of_le (h.bad_lt i q (hbad ▸ hq)) hnext

/-- Allocating a record at `next` keeps the book consistent: nothing points there yet. -/
theorem Consistent.alloc (h : Consistent env s) (ka : KnownAddress A) :
    Consistent env { s.heapSet s.next ka with next := s.next + 1 } := by
  have hnot : ¬ Known env s s.next := fun hk ↦ lt_irrefl _ (h.lookup_lt _ _ hk)
  have hbad : ∀ i q, s.badPeers.lookup i = some q → q ≠ s.next := fun i q hq ↦
    Nat.ne_of_lt (h.bad_lt i q hq)
  refine ⟨(h.heapSet_of_not_known hnot ka).of_fields rfl rfl rfl fun _ ↦ ⟨rfl, rfl, rfl⟩,
    fun i q hq ↦ ?_, fun i q hq ↦ ?_, h.bad_not_mem, fun i q hq ↦ ?_, fun i q hq ↦ ?_⟩
  · show env.id (Function.update s.heap s.next ka q).addr = i
    rw [Function.update_of_ne (hbad i q hq)]
    exact h.bad_id i q hq
  · show (Function.update s.heap s.next ka q).buckets = []
    rw [Function.update_of_ne (hbad i q hq)]
    exact h.bad_buckets i q hq
  · exact Nat.lt_succ_of_lt (h.lookup_lt i q hq)
  · exact Nat.lt_succ_of_lt (h.bad_lt i q hq)

omit [DecidableEq K] in
theorem known_heapSet_self {p : Ptr} {ka : KnownAddress A} (haddr : ka.addr = (s.heap p).addr)
    (hp : Known env s p) : Known env (s.heapSet p ka) p := by
  unfold Known
  rw [heap_heapSet, Function.update_self, addrLookup_heapSet, haddr]
  exact hp

/-! ## Each call -/

theorem Consistent.removeAddress (h : Consistent env s) (addr : A) :
    Consistent env (s.removeAddress env addr) := by
  unfold AddrBook.removeAddress
  split
  · exact h
  · rename_i p hp
    have hk := h.known_of_lookup hp
    exact h.of_touches_known (h.removeFromAllBuckets hk) (Touches.removeFromAllBuckets hk p) hk

theorem Consistent.markAttempt (h : Consistent env s) (addr : A) (now : Time) :
    Consistent env (s.markAttempt env addr now) := by
  unfold AddrBook.markAttempt
  split
  · exact h
  · rename_i p hp
    have hk := h.known_of_lookup hp
    exact h.of_touches_known (h.heapSet_same rfl rfl rfl) (Touches.heapSet rfl) hk

theorem Consistent.markGood (h : Consistent env s) (i : I) (now : Time) :
    ∃ s', s.markGood env i now = .ok s' ∧ Consistent env s' := by
  unfold AddrBook.markGood
  cases hp : s.addrLookup.lookup i with
  | none => exact ⟨s, rfl, h⟩
  | some p =>
    dsimp only
    have hk := h.known_of_lookup hp
    have h₁ : Indexed env (s.heapSet p ((s.heap p).markGood now)) := h.heapSet_same rfl rfl rfl
    have hk₁ : Known env (s.heapSet p ((s.heap p).markGood now)) p := known_heapSet_self rfl hk
    have ht₁ : Touches env s (s.heapSet p ((s.heap p).markGood now)) p := Touches.heapSet rfl
    split
    · obtain ⟨s', he, h', ht', -⟩ := h₁.moveToOld hk₁ now
      exact ⟨s', he, h.of_touches_known h' (ht₁.trans ht') hk⟩
    · exact ⟨_, rfl, h.of_touches_known h₁ ht₁ hk⟩

/-- `MarkBad` of a known address `p` with a record `ka` that keeps its address, buckets
and type: out of its buckets and `addrLookup`, and into `badPeers` under its ID. -/
theorem Consistent.ban (h : Consistent env s) {i : I} {p : Ptr}
    (hp : s.addrLookup.lookup i = some p) {ka : KnownAddress A}
    (haddr : ka.addr = (s.heap p).addr) (hbuckets : ka.buckets = (s.heap p).buckets)
    (htype : ka.bucketType = (s.heap p).bucketType) :
    Consistent env ({ s.heapSet p ka with badPeers := s.badPeers.insert i p }.removeFromAllBuckets
      env p) := by
  set s₂ : AddrBook A I K := { s.heapSet p ka with badPeers := s.badPeers.insert i p } with hs₂
  have hk := h.known_of_lookup hp
  have hid := h.lookup_id i p hp
  have h₂ : Indexed env s₂ :=
    (h.heapSet_same haddr hbuckets htype).of_fields rfl rfl rfl fun _ ↦ ⟨rfl, rfl, rfl⟩
  have hk₂ : Known env s₂ p := known_heapSet_self haddr hk
  have hheap₂ : s₂.heap p = ka := by simp [hs₂]
  have hother₂ : ∀ q, q ≠ p → s₂.heap q = s.heap q := fun q hq ↦ by simp [hs₂, hq]
  have ht : Touches env s₂ (s₂.removeFromAllBuckets env p) p := Touches.removeFromAllBuckets hk₂ p
  have hold : ∀ j q, j ≠ i → s.badPeers.lookup j = some q →
      (s₂.removeFromAllBuckets env p).heap q = s.heap q := fun j q hj hq ↦ by
    have hqp : q ≠ p := fun hqp ↦ h.not_known_of_bad hq (hqp ▸ hk)
    have hq₂ : ¬ Known env s₂ q := fun hk' ↦ h.not_known_of_bad hq <| by
      unfold Known at hk' ⊢
      rw [hother₂ q hqp] at hk'
      exact hk'
    rw [ht.heap_eq q hqp hq₂, hother₂ q hqp]
  have hbad : (s₂.removeFromAllBuckets env p).badPeers = s.badPeers.insert i p := by
    rw [ht.badPeers_eq]
  refine ⟨h₂.removeFromAllBuckets hk₂, fun j q hq ↦ ?_, fun j q hq ↦ ?_, fun j hj hmem ↦ ?_,
    fun j q hq ↦ ?_, fun j q hq ↦ ?_⟩
  · rw [hbad, lookup_insert_eq_ite] at hq
    split at hq
    · rename_i hj
      cases hq
      rw [addr_removeFromAllBuckets, hheap₂, haddr, hid, hj]
    · rw [hold j q ‹_› hq]
      exact h.bad_id j q hq
  · rw [hbad, lookup_insert_eq_ite] at hq
    split at hq
    · cases hq
      simp [buckets_heap_removeFromAllBuckets]
    · rw [hold j q ‹_› hq]
      exact h.bad_buckets j q hq
  · rw [hbad, AList.mem_insert] at hj
    rw [addrLookup_removeFromAllBuckets, hheap₂, haddr, hid, AList.mem_erase] at hmem
    rcases hj with rfl | hj
    · exact hmem.1 rfl
    · exact h.bad_not_mem j hj hmem.2
  · rw [addrLookup_removeFromAllBuckets, lookup_erase_eq_ite] at hq
    rw [ht.next_eq]
    split at hq
    · cases hq
    · exact h.lookup_lt j q hq
  · rw [hbad, lookup_insert_eq_ite] at hq
    rw [ht.next_eq]
    split at hq
    · cases hq
      exact h.lookup_lt i p hp
    · exact h.bad_lt j q hq

theorem Consistent.markBad (h : Consistent env s) (addr : A) (banTime now : Time) :
    Consistent env (s.markBad env addr banTime now) := by
  unfold AddrBook.markBad AddrBook.addBadPeer
  cases hp : s.addrLookup.lookup (env.id addr) with
  | none => exact h
  | some p =>
    dsimp only
    by_cases hb : env.id addr ∈ s.badPeers
    · rw [if_pos hb]
      exact h.removeAddress addr
    rw [if_neg hb]
    dsimp only
    have hrm : ∀ s' : AddrBook A I K, s'.addrLookup = s.addrLookup →
        s'.removeAddress env addr = s'.removeFromAllBuckets env p := fun s' hL ↦ by
      unfold AddrBook.removeAddress
      rw [hL, hp]
    rw [hrm]
    · exact h.ban hp (by unfold KnownAddress.ban; split <;> rfl)
        (by unfold KnownAddress.ban; split <;> rfl) (by unfold KnownAddress.ban; split <;> rfl)
    · rfl

/-- `AddAddress` never panics on a consistent book, and keeps it consistent. -/
theorem Consistent.addAddress (h : Consistent env s) (addr src : Option A) (draw : ℕ)
    (now : Time) :
    ∃ r, s.addAddress env addr src draw now = .ok r ∧ Consistent env r.1 := by
  unfold AddrBook.addAddress
  rcases addr with _ | addr
  · exact ⟨_, rfl, h⟩
  rcases src with _ | src
  · exact ⟨_, rfl, h⟩
  dsimp only
  cases herr : env.addrErr addr with
  | some err => exact ⟨_, rfl, h⟩
  | none =>
    dsimp only
    by_cases hb : env.id addr ∈ s.badPeers
    · rw [if_pos hb]
      exact ⟨_, rfl, h⟩
    rw [if_neg hb]
    split_ifs
    · exact ⟨_, rfl, h⟩
    · exact ⟨_, rfl, h⟩
    · exact ⟨_, rfl, h⟩
    · exact ⟨_, rfl, h⟩
    cases hl : s.addrLookup.lookup (env.id addr) with
    | some p =>
      dsimp only
      have hk := h.known_of_lookup hl
      have hid := h.lookup_id _ p hl
      by_cases hold : (s.heap p).bucketType = .old
      · rw [if_pos ⟨hold, hid⟩]
        exact ⟨_, rfl, h⟩
      rw [if_neg (fun hc ↦ hold hc.1)]
      have hnew : (s.heap p).bucketType = .new := by
        cases hb : (s.heap p).bucketType
        · rfl
        · exact absurd hb hold
      by_cases h4 : (s.heap p).buckets.length = maxNewBucketsPerAddress
      · rw [if_pos h4]
        exact ⟨_, rfl, h⟩
      rw [if_neg h4]
      have hpos : 0 < (s.heap p).buckets.length := List.length_pos_iff.mpr (h.buckets_ne_nil hk)
      rw [if_neg (by omega)]
      by_cases hd : draw % (2 * (s.heap p).buckets.length) ≠ 0
      · rw [if_pos hd]
        exact ⟨_, rfl, h⟩
      rw [if_neg hd]
      have hlt : (s.heap p).buckets.length < maxNewBucketsPerAddress := by
        have := (h.new_range p hk hnew).2
        omega
      obtain ⟨s', he, h', ht'⟩ := h.addToNewBucket now hnew (.inl ⟨hk, hlt⟩)
      exact ⟨_, he, h.of_touches_known h' ht' hk⟩
    | none =>
      dsimp only
      have h₀ := h.alloc (newKnownAddress addr src now)
      have hheap₀ : ({ s.heapSet s.next (newKnownAddress addr src now) with
          next := s.next + 1 }.heap s.next) = newKnownAddress addr src now := by simp
      obtain ⟨s', he, h', ht'⟩ := h₀.addToNewBucket now (by rw [hheap₀]; rfl)
        (.inr ⟨by rw [hheap₀]; exact AList.lookup_eq_none.mp hl, by rw [hheap₀]; rfl⟩)
      refine ⟨_, he, h₀.of_touches h' ht' (Nat.lt_succ_self _) s'.badPeers fun i q hq ↦ ?_⟩
      rw [ht'.badPeers_eq] at hq
      refine ⟨hq, fun hi ↦ hb ?_⟩
      have hi' : i = env.id addr := by rw [hi, hheap₀]; rfl
      have hq' : s.badPeers.lookup i = some q := hq
      rw [← hi']
      exact mem_of_lookup_eq_some hq'

/-- One round of `ReinstateBadPeers` at an entry of `badPeers` keeps the book consistent and
changes no other entry of `badPeers`. -/
theorem Consistent.reinstateBadPeer (h : Consistent env s) {e : Σ _ : I, Ptr}
    (he : s.badPeers.lookup e.1 = some e.2) (now : Time) :
    ∃ s', s.reinstateBadPeer env e now = .ok s' ∧ Consistent env s' ∧
      ∀ i, i ≠ e.1 → s'.badPeers.lookup i = s.badPeers.lookup i := by
  unfold AddrBook.reinstateBadPeer
  by_cases hban : (s.heap e.2).isBanned now
  · rw [if_pos hban]
    exact ⟨s, rfl, h, fun _ _ ↦ rfl⟩
  rw [if_neg hban]
  have hid := h.bad_id _ _ he
  obtain ⟨s₁, r, h₁, ht₁, he₁⟩ : ∃ s₁ r, Indexed env s₁ ∧ Touches env s s₁ e.2 ∧
      s.addToNewBucket env e.2 (env.calcNewBucket (s.heap e.2).addr (s.heap e.2).src) now =
        .ok (s₁, r) := by
    cases ht : (s.heap e.2).bucketType with
    | old => exact ⟨s, _, h.toIndexed, Touches.refl s _, addToNewBucket_of_old now ht⟩
    | new =>
      have hnot : env.id (s.heap e.2).addr ∉ s.addrLookup := fun hm ↦
        h.bad_not_mem _ (mem_of_lookup_eq_some he) (hid ▸ hm)
      obtain ⟨s₁, he₁, h₁, ht₁⟩ := h.addToNewBucket now ht (.inr ⟨hnot, h.bad_buckets _ _ he⟩)
      exact ⟨s₁, none, h₁, ht₁, he₁⟩
  rw [he₁]
  have hB : ∀ i, (s₁.badPeers.erase (env.id (s.heap e.2).addr)).lookup i =
      if i = e.1 then none else s.badPeers.lookup i := fun i ↦ by
    rw [ht₁.badPeers_eq, hid, lookup_erase_eq_ite]
  refine ⟨_, rfl, h.of_touches h₁ ht₁ (h.bad_lt _ _ he)
    (s₁.badPeers.erase (env.id (s.heap e.2).addr)) fun i q hq ↦ ?_, fun i hi ↦ ?_⟩
  · rw [hB] at hq
    split at hq
    · cases hq
    · exact ⟨hq, by rwa [hid]⟩
  · show (s₁.badPeers.erase (env.id (s.heap e.2).addr)).lookup i = _
    rw [hB, if_neg hi]

/-- The loop of `ReinstateBadPeers`, over entries of `badPeers` with distinct IDs. -/
theorem Consistent.foldlM_reinstateBadPeer (now : Time) (l : List (Σ _ : I, Ptr)) :
    ∀ s : AddrBook A I K, Consistent env s → l.NodupKeys →
      (∀ e ∈ l, s.badPeers.lookup e.1 = some e.2) →
      ∃ s', l.foldlM (fun s e ↦ s.reinstateBadPeer env e now) s = .ok s' ∧
        Consistent env s' := by
  induction l with
  | nil => exact fun s h _ _ ↦ ⟨s, rfl, h⟩
  | cons e l ih =>
    intro s h hnd hl
    obtain ⟨s₁, he₁, h₁, hsame⟩ := h.reinstateBadPeer (hl e List.mem_cons_self) now
    obtain ⟨hnotin, hnd'⟩ := List.nodupKeys_cons.mp hnd
    rw [List.foldlM_cons, he₁]
    refine ih s₁ h₁ hnd' fun e' he' ↦ ?_
    have hne : e'.1 ≠ e.1 := fun heq ↦ hnotin (heq ▸ List.mem_keys_of_mem he')
    rw [hsame _ hne]
    exact hl e' (List.mem_cons_of_mem _ he')

theorem Consistent.reinstateBadPeers (h : Consistent env s) (now : Time) :
    ∃ s', s.reinstateBadPeers env now = .ok s' ∧ Consistent env s' :=
  foldlM_reinstateBadPeer now _ s h s.badPeers.nodupKeys fun _ he ↦ AList.mem_lookup_iff.mpr he

/-! ## Whole runs -/

/-- No call panics on a consistent book, and each keeps it consistent. -/
theorem Consistent.step (h : Consistent env s) (now : Time) (c : Call A I) :
    ∃ r, s.step env now c = .ok r ∧ Consistent env r.1 := by
  cases c with
  | addOurAddress addr => exact ⟨_, rfl, h.of_eq rfl rfl rfl rfl rfl le_rfl⟩
  | addPrivateIDs ids => exact ⟨_, rfl, h.of_eq rfl rfl rfl rfl rfl le_rfl⟩
  | addAddress addr src draw => exact h.addAddress addr src draw now
  | removeAddress addr => exact ⟨_, rfl, h.removeAddress addr⟩
  | markGood i =>
    obtain ⟨s', he, h'⟩ := h.markGood i now
    exact ⟨(s', none), by rw [AddrBook.step, he]; rfl, h'⟩
  | markAttempt addr => exact ⟨_, rfl, h.markAttempt addr now⟩
  | markBad addr banTime => exact ⟨_, rfl, h.markBad addr banTime now⟩
  | reinstateBadPeers =>
    obtain ⟨s', he, h'⟩ := h.reinstateBadPeers now
    exact ⟨(s', none), by rw [AddrBook.step, he]; rfl, h'⟩

/-- A run from a consistent book never panics and ends consistent. -/
theorem Consistent.run (h : Consistent env s) (calls : List (Time × Call A I)) :
    ∃ s', s.run env calls = .ok s' ∧ Consistent env s' := by
  induction calls generalizing s with
  | nil => exact ⟨s, rfl, h⟩
  | cons c cs ih =>
    obtain ⟨r, he, h'⟩ := h.step c.1 c.2
    rw [AddrBook.run, he]
    exact ih h'

theorem consistent_newAddrBook (ka0 : KnownAddress A) :
    Consistent env (newAddrBook ka0 : AddrBook A I K) where
  lookup_id _ _ hp := by simp [newAddrBook] at hp
  bucket_iff _ _ _ _ := by simp [newAddrBook, Listed, Known]
  nodup _ hp := by simp [newAddrBook, Known] at hp
  old_one _ hp := by simp [newAddrBook, Known] at hp
  new_range _ hp := by simp [newAddrBook, Known] at hp
  count_eq _ := by simp [newAddrBook, typeCount]
  bad_id _ _ hp := by simp [newAddrBook] at hp
  bad_buckets _ _ hp := by simp [newAddrBook] at hp
  bad_not_mem _ hi := by simp [newAddrBook] at hi
  lookup_lt _ _ hp := by simp [newAddrBook] at hp
  bad_lt _ _ hp := by simp [newAddrBook] at hp

/-- With the counters right, `size()` is the number of addresses in `addrLookup`. -/
theorem Indexed.size_eq_length (h : Indexed env s) : s.size = s.addrLookup.keys.length := by
  have hold : s.addrLookup.keys.countP
      (fun i ↦ decide ¬ decide (s.typeOf i = some .new) = true) = s.typeCount .old := by
    unfold typeCount
    refine List.countP_congr fun i hi ↦ ?_
    obtain ⟨q, hq⟩ := exists_lookup_of_mem (AList.mem_keys.mpr hi)
    unfold typeOf
    rw [hq]
    cases hb : (s.heap q).bucketType <;> simp [hb]
  have hsplit := List.length_eq_countP_add_countP (fun i ↦ decide (s.typeOf i = some .new))
    (l := s.addrLookup.keys)
  unfold size
  rw [h.count_eq, h.count_eq, ← hold]
  unfold typeCount
  omega

/-! ## What `MarkGood` loses -/

/-- `MarkGood` of a known new address whose old bucket is full and does not hold it removes
another address from the book: the oldest of that bucket, which `moveToOld` takes out and
`addToNewBucket` refuses for being old. -/
theorem Indexed.markGood_drops_oldest (h : Indexed env s) {p : Ptr} (hp : Known env s p)
    (hnew : (s.heap p).bucketType = .new)
    (hk : env.str (s.heap p).addr ∉ s.buckets .old (env.calcOldBucket (s.heap p).addr))
    (hfull : oldBucketSize < (s.buckets .old (env.calcOldBucket (s.heap p).addr)).entries.length)
    (now : Time) :
    ∃ s' o, s.markGood env (env.id (s.heap p).addr) now = .ok s' ∧ Known env s o ∧ o ≠ p ∧
      env.id (s.heap o).addr ∉ s'.addrLookup := by
  unfold AddrBook.markGood
  rw [show s.addrLookup.lookup (env.id (s.heap p).addr) = some p from hp]
  dsimp only
  set s₁ := s.heapSet p ((s.heap p).markGood now) with hs₁
  have hheap₁ : s₁.heap p = (s.heap p).markGood now := by simp [hs₁]
  have h₁ : Indexed env s₁ := h.heapSet_same rfl rfl rfl
  have ht₁ : Touches env s s₁ p := Touches.heapSet rfl
  rw [if_pos (by rw [hheap₁]; exact hnew)]
  obtain ⟨s', he, -, -, hdrop⟩ := h₁.moveToOld (known_heapSet_self rfl hp) now
  rw [hheap₁] at hdrop
  obtain ⟨o, hko, hop, hnot⟩ := hdrop hnew hk hfull
  refine ⟨s', o, he, ht₁.known_of hop hko, hop, ?_⟩
  rwa [hs₁, heap_heapSet, Function.update_of_ne hop] at hnot

/-- Every run of calls from `NewAddrBook` goes through without a panic and ends `Consistent`:
each address in `addrLookup` is in exactly the buckets its record lists, all of its type, an
old one in one bucket and a new one in one to four, the counters count the addresses of
each type, and `size()` is the number of addresses.  Yet `MarkGood` of a new address whose
old bucket is full takes the oldest address of that bucket out of the book. -/
theorem addrBook_consistent_markGood_drops (env : AddrEnv A I K) (ka0 : KnownAddress A)
    (calls : List (Time × Call A I)) :
    ∃ s, (newAddrBook ka0).run env calls = .ok s ∧ Consistent env s ∧
      s.size = s.addrLookup.keys.length ∧
      ∀ p now, Known env s p → (s.heap p).bucketType = .new →
        env.str (s.heap p).addr ∉ s.buckets .old (env.calcOldBucket (s.heap p).addr) →
        oldBucketSize < (s.buckets .old (env.calcOldBucket (s.heap p).addr)).entries.length →
        ∃ s' o, s.markGood env (env.id (s.heap p).addr) now = .ok s' ∧ Known env s o ∧
          o ≠ p ∧ env.id (s.heap o).addr ∉ s'.addrLookup := by
  have h₀ : Consistent env (newAddrBook ka0 : AddrBook A I K) := consistent_newAddrBook ka0
  obtain ⟨s, hrun, h⟩ := h₀.run calls
  exact ⟨s, hrun, h, h.size_eq_length, fun p now hp hnew hk hfull ↦
    h.markGood_drops_oldest hp hnew hk hfull now⟩

/-- Addresses that are their own IDs and keys, valid and routable, all placed in new bucket
0 and old bucket 0. -/
def oneBucketEnv : AddrEnv ℕ ℕ ℕ :=
  ⟨id, id, fun _ ↦ none, fun _ ↦ true, false, fun _ _ ↦ ⟨0, by decide⟩, fun _ ↦ ⟨0, by decide⟩⟩

/-- Addresses 1 to 65, each added from address 1000 and then marked good, which fills old
bucket 0; then address 66 is added. -/
def fillOldBucket : List (Time × Call ℕ ℕ) :=
  (List.range 65).flatMap (fun k : ℕ ↦ ([(2 * k, .addAddress (some (k + 1)) (some 1000) 0),
    (2 * k + 1, .markGood (k + 1))] : List (Time × Call ℕ ℕ))) ++
    [(130, .addAddress (some 66) (some 1000) 0)]

/-- After `fillOldBucket`, `MarkGood` of address 66 drops an address of old bucket 0. -/
theorem markGood_drops_from_full_bucket :
    ∃ s, (newAddrBook (newKnownAddress 0 0 0)).run oneBucketEnv fillOldBucket = .ok s ∧
      ∃ s' o, s.markGood oneBucketEnv (oneBucketEnv.id (s.heap 65).addr) 131 = .ok s' ∧
        Known oneBucketEnv s o ∧ o ≠ 65 ∧ oneBucketEnv.id (s.heap o).addr ∉ s'.addrLookup := by
  obtain ⟨s, hrun, -, -, hdrop⟩ := addrBook_consistent_markGood_drops oneBucketEnv
    (newKnownAddress 0 0 0) fillOldBucket
  have hfacts : (match (newAddrBook (newKnownAddress 0 0 0)).run oneBucketEnv fillOldBucket with
      | .ok s => decide (s.addrLookup.lookup 66 = some 65 ∧ (s.heap 65).addr = 66 ∧
          (s.heap 65).bucketType = .new ∧ 66 ∉ (s.buckets .old 0).keys ∧
          oldBucketSize < (s.buckets .old 0).entries.length)
      | .error _ => false) = true := by decide +kernel
  rw [hrun] at hfacts
  obtain ⟨hl, haddr, hnew, hk, hfull⟩ := of_decide_eq_true hfacts
  refine ⟨s, hrun, hdrop 65 131 ?_ hnew ?_ ?_⟩
  · unfold Known
    rw [haddr]
    exact hl
  · rw [haddr]
    exact fun hm ↦ hk (AList.mem_keys.mpr hm)
  · rw [haddr]
    exact hfull

end AddrBook

end Tenderdash.Pex
