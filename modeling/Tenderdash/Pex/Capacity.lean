import Tenderdash.Lib.Except
import Tenderdash.Pex.Run

/-!
# How full a bucket gets

`addToNewBucket` makes room only in a bucket that holds more than `newBucketSize`
addresses, and `addToOldBucket` refuses a bucket only when it holds more than
`oldBucketSize`: both add to a bucket that holds exactly its size.  So a bucket comes to
hold one address more than its size, and never more, since from then on `addToNewBucket`
expires an address for each it adds and `addToOldBucket` refuses.  On every run from
`NewAddrBook` each bucket holds at most `capacity` addresses, and the buckets past the end
of `bucketsNew` and `bucketsOld`, which the model has but the code does not, hold none
(`addrBook_buckets_bounded`).  The second half is what `loadFromFile` needs of the
bucket indices it reads back from a saved book.
-/

namespace Tenderdash.Pex

section Maps

variable {α β : Type} [DecidableEq α]

omit [DecidableEq α] in
theorem length_keys (m : AList (fun _ : α ↦ β)) : m.keys.length = m.entries.length :=
  List.length_map _

theorem length_insert_le (m : AList (fun _ : α ↦ β)) (a : α) (b : β) :
    (m.insert a b).entries.length ≤ m.entries.length + 1 := by
  rw [AList.entries_insert, List.length_cons]
  have := (List.kerase_sublist a m.entries).length_le
  omega

theorem length_erase_le (m : AList (fun _ : α ↦ β)) (a : α) :
    (m.erase a).entries.length ≤ m.entries.length :=
  (List.kerase_sublist a m.entries).length_le

/-- Erasing a key the map holds takes out exactly one entry. -/
theorem length_erase_of_mem {m : AList (fun _ : α ↦ β)} {a : α} (h : a ∈ m) :
    (m.erase a).entries.length + 1 = m.entries.length := by
  have hmem : a ∈ m.keys := AList.mem_keys.mpr h
  have hpos := List.length_pos_of_mem hmem
  rw [← length_keys, ← length_keys, AList.keys_erase, List.length_erase_of_mem hmem]
  omega

end Maps

namespace AddrBook

open KnownAddress

/-- `newBucketSize` and `oldBucketSize`. -/
def bucketSize : BucketType → ℕ
  | .new => newBucketSize
  | .old => oldBucketSize

/-- The most addresses bucket `idx` of type `t` comes to hold: one more than its size, and
none past the end of the slice. -/
def capacity (t : BucketType) (idx : ℕ) : ℕ :=
  if idx < bucketCount t then bucketSize t + 1 else 0

variable {A I K : Type} {s s' s'' : AddrBook A I K}

/-- Every bucket holds at most its `capacity`. -/
def Bounded (s : AddrBook A I K) : Prop :=
  ∀ t idx, (s.buckets t idx).entries.length ≤ capacity t idx

/-- No bucket of `s'` holds more than the same bucket of `s`. -/
def Shrinks (s s' : AddrBook A I K) : Prop :=
  ∀ t idx, (s'.buckets t idx).entries.length ≤ (s.buckets t idx).entries.length

theorem Shrinks.of_buckets_eq (h : s'.buckets = s.buckets) : Shrinks s s' := fun t idx ↦
  le_of_eq (congrFun (congrFun h t) idx ▸ rfl)

theorem Shrinks.trans (h₁ : Shrinks s s') (h₂ : Shrinks s' s'') : Shrinks s s'' := fun t idx ↦
  le_trans (h₂ t idx) (h₁ t idx)

theorem Bounded.of_shrinks (hb : Bounded s) (h : Shrinks s s') : Bounded s' := fun t idx ↦
  le_trans (h t idx) (hb t idx)

/-- Setting a bucket to one within its capacity keeps the book `Bounded`. -/
theorem Bounded.setBucket [DecidableEq K] (hb : Bounded s) {t : BucketType} {idx : ℕ}
    {m : AList (fun _ : K ↦ Ptr)} (hm : m.entries.length ≤ capacity t idx) :
    Bounded (s.setBucket t idx m) := fun t' idx' ↦ by
  rw [buckets_setBucket]
  dsimp only
  split
  · rename_i h
    obtain ⟨rfl, rfl⟩ := h
    exact hm
  · exact hb t' idx'

theorem bounded_newAddrBook [DecidableEq I] [DecidableEq K] (ka0 : KnownAddress A) :
    Bounded (newAddrBook ka0 : AddrBook A I K) := fun _ _ ↦ by
  simp [newAddrBook]

variable [DecidableEq I] [DecidableEq K] {env : AddrEnv A I K}

/-! ## What each edit does to the buckets -/

/-- `addToBucket` inserts the address's key into the one bucket, whatever it lists. -/
theorem buckets_addToBucket (p : Ptr) (t : BucketType) (idx : ℕ) :
    (s.addToBucket env p t idx).buckets = fun t' idx' ↦ if t' = t ∧ idx' = idx then
      (s.buckets t idx).insert (env.str (s.heap p).addr) p else s.buckets t' idx' := by
  unfold addToBucket
  dsimp only
  split <;> rfl

/-- `removeFromBucket` erases the address's key from the one bucket, or ignores a type
other than the address's. -/
theorem buckets_removeFromBucket (p : Ptr) (t : BucketType) (idx : ℕ) :
    (s.removeFromBucket env p t idx).buckets = if (s.heap p).bucketType = t then
      (fun t' idx' ↦ if t' = t ∧ idx' = idx then
        (s.buckets t idx).erase (env.str (s.heap p).addr) else s.buckets t' idx')
    else s.buckets := by
  unfold removeFromBucket
  by_cases ht : (s.heap p).bucketType = t
  · rw [if_neg (not_not_intro ht), if_pos ht]
    dsimp only
    split <;> rfl
  · rw [if_pos ht, if_neg ht]

theorem Shrinks.removeFromBucket (p : Ptr) (t : BucketType) (idx : ℕ) :
    Shrinks s (s.removeFromBucket env p t idx) := fun t' idx' ↦ by
  rw [buckets_removeFromBucket]
  split
  · dsimp only
    split
    · rename_i h
      obtain ⟨rfl, rfl⟩ := h
      exact length_erase_le _ _
    · exact le_rfl
  · exact le_rfl

theorem Shrinks.removeFromAllBuckets (p : Ptr) : Shrinks s (s.removeFromAllBuckets env p) :=
  fun t idx ↦ by
    rw [removeFromAllBuckets_eq]
    dsimp only
    split
    · exact length_erase_le _ _
    · exact le_rfl

theorem Shrinks.removeAddress (addr : A) : Shrinks s (s.removeAddress env addr) := by
  unfold AddrBook.removeAddress
  split
  · exact Shrinks.of_buckets_eq rfl
  · exact Shrinks.removeFromAllBuckets _

/-- Removing an address from a bucket it is listed in takes exactly one entry out. -/
theorem Indexed.length_removeFromBucket (h : Indexed env s) {q : Ptr} {t : BucketType}
    {idx : ℕ} (hr : RemovesFrom env s q t idx) :
    ((s.removeFromBucket env q t idx).buckets t idx).entries.length + 1 =
      (s.buckets t idx).entries.length := by
  have hmem : env.str (s.heap q).addr ∈ s.buckets t idx :=
    h.mem_bucket_iff.mpr ⟨q, hr.known, hr.type_eq, hr.mem, rfl⟩
  rw [buckets_removeFromBucket, if_pos hr.type_eq]
  simp only [and_self, if_true]
  exact length_erase_of_mem hmem

/-- `addToBucket` of a bucket with room for one more keeps the book `Bounded`. -/
theorem Bounded.addToBucket (hb : Bounded s) {p : Ptr} {t : BucketType} {idx : ℕ}
    (hroom : (s.buckets t idx).entries.length < capacity t idx) :
    Bounded (s.addToBucket env p t idx) := fun t' idx' ↦ by
  rw [buckets_addToBucket]
  dsimp only
  split
  · rename_i h
    obtain ⟨rfl, rfl⟩ := h
    have := length_insert_le (s.buckets t' idx') (env.str (s.heap p).addr) p
    omega
  · exact hb t' idx'

/-! ## Adding to a bucket -/

/-- `addToNewBucket` keeps a new bucket of the slice within its capacity: a full one
first loses the address `expireNew` picks. -/
theorem Bounded.addToNewBucket (h : Indexed env s) (hb : Bounded s) {p : Ptr} {idx : ℕ}
    (hidx : idx < newBucketCount) {now : Time} {r : AddrBook A I K × Option (AddrBookError A)}
    (he : s.addToNewBucket env p idx now = .ok r) : Bounded r.1 := by
  have hcap : capacity .new idx = newBucketSize + 1 := if_pos hidx
  unfold AddrBook.addToNewBucket at he
  by_cases hold : (s.heap p).bucketType = .old
  · rw [if_pos hold, Except.pure_eq_ok] at he
    rw [← he]
    exact hb
  rw [if_neg hold] at he
  by_cases hk : env.str (s.heap p).addr ∈ s.buckets .new idx
  · rw [if_pos hk, Except.pure_eq_ok] at he
    rw [← he]
    exact hb
  rw [if_neg hk, Except.bind_eq_ok] at he
  obtain ⟨s₁, he₁, hr⟩ := he
  rw [Except.pure_eq_ok] at hr
  rw [← hr]
  by_cases hfull : newBucketSize < (s.buckets .new idx).entries.length
  · rw [if_pos hfull] at he₁
    have hne : (s.buckets .new idx).entries ≠ [] := List.ne_nil_of_length_pos (by omega)
    obtain ⟨q, hq, hex⟩ := h.expireNew_eq hne now
    rw [hex] at he₁
    cases he₁
    have hlen := h.length_removeFromBucket hq
    have hle := hb .new idx
    refine (hb.of_shrinks (Shrinks.removeFromBucket q .new idx)).addToBucket ?_
    omega
  · rw [if_neg hfull, Except.pure_eq_ok] at he₁
    subst he₁
    exact hb.addToBucket (by omega)

/-- `addToOldBucket` adds only to a bucket that holds at most its size. -/
theorem Bounded.addToOldBucket (hb : Bounded s) {p : Ptr} {idx : ℕ} (hidx : idx < oldBucketCount) :
    Bounded (s.addToOldBucket env p idx).1 := by
  have hcap : capacity .old idx = oldBucketSize + 1 := if_pos hidx
  unfold AddrBook.addToOldBucket
  dsimp only
  split_ifs with _ _ _ hfull
  · exact hb
  · exact hb
  · exact hb
  · exact hb
  · exact hb.addToBucket (by omega)

/-- `addToOldBucket` that does not add leaves the book as it was. -/
theorem addToOldBucket_fst_of_snd_false {p : Ptr} {idx : ℕ}
    (h : (s.addToOldBucket env p idx).2 = false) : (s.addToOldBucket env p idx).1 = s := by
  unfold AddrBook.addToOldBucket at h ⊢
  dsimp only at h ⊢
  split_ifs at h ⊢ <;> rfl

/-- `moveToOld` keeps the book `Bounded`: the new address goes into its old bucket only
where that bucket has room, which it makes for a full one by taking the oldest out. -/
theorem Bounded.moveToOld (h : Indexed env s) {p : Ptr} (hp : Known env s p) (hb : Bounded s)
    {now : Time} (he : s.moveToOld env p now = .ok s') : Bounded s' := by
  unfold AddrBook.moveToOld at he
  by_cases hold : (s.heap p).bucketType = .old
  · rw [if_pos hold, Except.pure_eq_ok] at he
    rw [← he]
    exact hb
  rw [if_neg hold] at he
  by_cases hnil : (s.heap p).buckets.length = 0
  · rw [if_pos hnil, Except.pure_eq_ok] at he
    rw [← he]
    exact hb
  rw [if_neg hnil] at he
  dsimp only at he
  set s₂ := (s.removeFromAllBuckets env p).heapSet p
    { (s.removeFromAllBuckets env p).heap p with bucketType := .old } with hs₂
  obtain ⟨h₂, -, -, -, -, -, -⟩ := h.retypeOld hp s₂ hs₂
  have hb₂ : Bounded s₂ :=
    hb.of_shrinks ((Shrinks.removeFromAllBuckets p).trans (Shrinks.of_buckets_eq rfl))
  have hidx := (env.calcOldBucket (s₂.heap p).addr).isLt
  generalize hoidx : ((env.calcOldBucket (s₂.heap p).addr : Fin oldBucketCount) : ℕ) = oidx at he
  rw [hoidx] at hidx
  rcases hadd : s₂.addToOldBucket env p oidx with ⟨s₃, _ | _⟩
  · have hs₃ : s₃ = s₂ := by
      have := addToOldBucket_fst_of_snd_false (congrArg Prod.snd hadd)
      rw [hadd] at this
      exact this
    subst hs₃
    rw [hadd] at he
    dsimp only at he
    cases ho : s₂.pickOldest .old oidx with
    | none =>
      rw [ho] at he
      cases he
    | some o =>
      rw [ho] at he
      dsimp only at he
      obtain ⟨k, hko⟩ := pickOldest_lookup ho
      have hr := h₂.removesFrom hko
      rw [addToNewBucket_of_old now (by rw [bucketType_removeFromBucket hr]; exact hr.type_eq),
        Except.ok_bind, Except.pure_eq_ok] at he
      rw [← he]
      exact (hb₂.of_shrinks (Shrinks.removeFromBucket o .old oidx)).addToOldBucket hidx
  · rw [hadd] at he
    cases he
    have hb₃ : Bounded (s₂.addToOldBucket env p oidx).1 := hb₂.addToOldBucket hidx
    rw [hadd] at hb₃
    exact hb₃

/-! ## Each call -/

/-- What `AddAddress` does when it returns: refuse and leave the book as it was, give an
address the book knows, which is not old under the same ID and lists fewer buckets than
`maxNewBucketsPerAddress`, its bucket of `calcNewBucket`, or put a fresh record at `next`
in its bucket. -/
theorem addAddress_cases {addr src : Option A} {draw : ℕ} {now : Time}
    {r : AddrBook A I K × Option (AddrBookError A)}
    (he : s.addAddress env addr src draw now = .ok r) :
    r.1 = s ∨
    (∃ a b p, addr = some a ∧ src = some b ∧ env.id a ∉ s.badPeers ∧
      s.addrLookup.lookup (env.id a) = some p ∧
      ¬ ((s.heap p).bucketType = .old ∧ env.id (s.heap p).addr = env.id a) ∧
      (s.heap p).buckets.length ≠ maxNewBucketsPerAddress ∧
      s.addToNewBucket env p (env.calcNewBucket a b) now = .ok r) ∨
    (∃ a b, addr = some a ∧ src = some b ∧ env.id a ∉ s.badPeers ∧
      s.addrLookup.lookup (env.id a) = none ∧
      { s.heapSet s.next (newKnownAddress a b now) with next := s.next + 1 }.addToNewBucket env
        s.next (env.calcNewBucket a b) now = .ok r) := by
  have hleave : ∀ e, (pure (s, e) : Except String _) = .ok r → r.1 = s := fun e he ↦ by
    rw [← Except.pure_eq_ok.mp he]
  have hif : ∀ (c : Prop) [Decidable c] (e : Option (AddrBookError A)) (x : Except String _),
      (if c then pure (s, e) else x) = .ok r → r.1 = s ∨ ¬ c ∧ x = .ok r := fun c _ e x he ↦ by
    by_cases hc : c
    · rw [if_pos hc] at he
      exact .inl (hleave e he)
    · rw [if_neg hc] at he
      exact .inr ⟨hc, he⟩
  unfold AddrBook.addAddress at he
  rcases addr with _ | a
  · exact .inl (hleave _ he)
  rcases src with _ | b
  · exact .inl (hleave _ he)
  dsimp only at he
  cases herr : env.addrErr a with
  | some err =>
    rw [herr] at he
    exact .inl (hleave _ he)
  | none =>
    rw [herr] at he
    dsimp only at he
    rcases hif _ _ _ he with hr | ⟨hb, he⟩
    · exact .inl hr
    rcases hif _ _ _ he with hr | ⟨-, he⟩
    · exact .inl hr
    rcases hif _ _ _ he with hr | ⟨-, he⟩
    · exact .inl hr
    rcases hif _ _ _ he with hr | ⟨-, he⟩
    · exact .inl hr
    rcases hif _ _ _ he with hr | ⟨-, he⟩
    · exact .inl hr
    cases hl : s.addrLookup.lookup (env.id a) with
    | some p =>
      rw [hl] at he
      dsimp only at he
      rcases hif _ _ _ he with hr | ⟨hold, he⟩
      · exact .inl hr
      rcases hif _ _ _ he with hr | ⟨h4, he⟩
      · exact .inl hr
      by_cases hf : 2 * (s.heap p).buckets.length = 0
      · rw [if_pos hf] at he
        exact absurd he Except.throw_ne_ok
      rw [if_neg hf] at he
      rcases hif _ _ _ he with hr | ⟨-, he⟩
      · exact .inl hr
      exact .inr (.inl ⟨a, b, p, rfl, rfl, hb, hl, hold, h4, he⟩)
    | none =>
      rw [hl] at he
      exact .inr (.inr ⟨a, b, rfl, rfl, hb, hl, he⟩)

theorem Bounded.addAddress (h : Consistent env s) (hb : Bounded s) {addr src : Option A}
    {draw : ℕ} {now : Time} {r : AddrBook A I K × Option (AddrBookError A)}
    (he : s.addAddress env addr src draw now = .ok r) : Bounded r.1 := by
  rcases addAddress_cases he with hr | ⟨a, b, p, -, -, -, -, -, -, he'⟩ | ⟨a, b, -, -, -, -, he'⟩
  · rw [hr]
    exact hb
  · exact hb.addToNewBucket h.toIndexed (env.calcNewBucket a b).isLt he'
  · exact (hb.of_shrinks (Shrinks.of_buckets_eq rfl)).addToNewBucket
      (h.alloc (newKnownAddress a b now)).toIndexed (env.calcNewBucket a b).isLt he'

theorem Bounded.markGood (h : Indexed env s) (hb : Bounded s) {i : I} {now : Time}
    (he : s.markGood env i now = .ok s') : Bounded s' := by
  unfold AddrBook.markGood at he
  cases hp : s.addrLookup.lookup i with
  | none =>
    rw [hp, Except.pure_eq_ok] at he
    rw [← he]
    exact hb
  | some p =>
    rw [hp] at he
    dsimp only at he
    have h₁ : Indexed env (s.heapSet p ((s.heap p).markGood now)) := h.heapSet_same rfl rfl rfl
    have hk₁ : Known env (s.heapSet p ((s.heap p).markGood now)) p :=
      known_heapSet_self rfl (h.known_of_lookup hp)
    have hb₁ : Bounded (s.heapSet p ((s.heap p).markGood now)) :=
      hb.of_shrinks (Shrinks.of_buckets_eq rfl)
    split at he
    · exact hb₁.moveToOld h₁ hk₁ he
    · rw [Except.pure_eq_ok] at he
      rw [← he]
      exact hb₁

omit [DecidableEq K] in
theorem buckets_addBadPeer (addr : A) (banTime now : Time) :
    (s.addBadPeer env addr banTime now).1.buckets = s.buckets := by
  unfold AddrBook.addBadPeer
  split
  · rfl
  · split <;> rfl

theorem Shrinks.markBad (addr : A) (banTime now : Time) :
    Shrinks s (s.markBad env addr banTime now) := by
  have hbuckets : (s.addBadPeer env addr banTime now).1.buckets = s.buckets :=
    buckets_addBadPeer addr banTime now
  unfold AddrBook.markBad
  rcases hab : s.addBadPeer env addr banTime now with ⟨s₁, _ | _⟩
  · rw [hab] at hbuckets
    exact Shrinks.of_buckets_eq hbuckets
  · rw [hab] at hbuckets
    exact (Shrinks.of_buckets_eq hbuckets).trans (Shrinks.removeAddress addr)

theorem Bounded.reinstateBadPeer (h : Indexed env s) (hb : Bounded s) {e : Σ _ : I, Ptr}
    {now : Time} (he : s.reinstateBadPeer env e now = .ok s') : Bounded s' := by
  unfold AddrBook.reinstateBadPeer at he
  dsimp only at he
  split at he
  · rw [Except.pure_eq_ok] at he
    rw [← he]
    exact hb
  · obtain ⟨r, hr, he'⟩ := Except.bind_eq_ok.mp he
    rw [Except.pure_eq_ok] at he'
    rw [← he']
    exact (hb.addToNewBucket h (env.calcNewBucket _ _).isLt hr).of_shrinks
      (Shrinks.of_buckets_eq rfl)

/-- The loop of `ReinstateBadPeers`, over entries of `badPeers` with distinct IDs. -/
theorem Bounded.foldlM_reinstateBadPeer (now : Time) (l : List (Σ _ : I, Ptr)) :
    ∀ s : AddrBook A I K, Consistent env s → Bounded s → l.NodupKeys →
      (∀ e ∈ l, s.badPeers.lookup e.1 = some e.2) →
      ∃ s', l.foldlM (fun s e ↦ s.reinstateBadPeer env e now) s = .ok s' ∧
        Consistent env s' ∧ Bounded s' := by
  induction l with
  | nil => exact fun s h hb _ _ ↦ ⟨s, rfl, h, hb⟩
  | cons e l ih =>
    intro s h hb hnd hl
    obtain ⟨s₁, he₁, h₁, hsame⟩ := h.reinstateBadPeer (hl e List.mem_cons_self) now
    obtain ⟨hnotin, hnd'⟩ := List.nodupKeys_cons.mp hnd
    rw [List.foldlM_cons, he₁]
    refine ih s₁ h₁ (hb.reinstateBadPeer h.toIndexed he₁) hnd' fun e' he' ↦ ?_
    have hne : e'.1 ≠ e.1 := fun heq ↦ hnotin (heq ▸ List.mem_keys_of_mem he')
    rw [hsame _ hne]
    exact hl e' (List.mem_cons_of_mem _ he')

/-- No call takes a bucket of a consistent book past its capacity. -/
theorem Bounded.step (h : Consistent env s) (hb : Bounded s) {now : Time} {c : Call A I}
    {r : AddrBook A I K × Option (AddrBookError A)} (he : s.step env now c = .ok r) :
    Bounded r.1 := by
  cases c with
  | addOurAddress addr =>
    rw [AddrBook.step, Except.pure_eq_ok] at he
    rw [← he]
    exact hb.of_shrinks (Shrinks.of_buckets_eq rfl)
  | addPrivateIDs ids =>
    rw [AddrBook.step, Except.pure_eq_ok] at he
    rw [← he]
    exact hb.of_shrinks (Shrinks.of_buckets_eq rfl)
  | addAddress addr src draw => exact hb.addAddress h he
  | removeAddress addr =>
    rw [AddrBook.step, Except.pure_eq_ok] at he
    rw [← he]
    exact hb.of_shrinks (Shrinks.removeAddress addr)
  | markGood i =>
    obtain ⟨s', he', rfl⟩ := Except.map_eq_ok.mp he
    exact hb.markGood h.toIndexed he'
  | markAttempt addr =>
    rw [AddrBook.step, Except.pure_eq_ok] at he
    rw [← he]
    unfold AddrBook.markAttempt
    split
    · exact hb
    · exact hb.of_shrinks (Shrinks.of_buckets_eq rfl)
  | markBad addr banTime =>
    rw [AddrBook.step, Except.pure_eq_ok] at he
    rw [← he]
    exact hb.of_shrinks (Shrinks.markBad addr banTime now)
  | reinstateBadPeers =>
    obtain ⟨s', he', rfl⟩ := Except.map_eq_ok.mp he
    obtain ⟨s'', he'', -, hb''⟩ := foldlM_reinstateBadPeer now _ s h hb s.badPeers.nodupKeys
      fun _ he ↦ AList.mem_lookup_iff.mpr he
    have : s'' = s' := Except.ok.inj (he''.symm.trans he')
    exact this ▸ hb''

/-- A run from a consistent `Bounded` book never panics and ends consistent and
`Bounded`. -/
theorem Bounded.run (h : Consistent env s) (hb : Bounded s) (calls : List (Time × Call A I)) :
    ∃ s', s.run env calls = .ok s' ∧ Consistent env s' ∧ Bounded s' := by
  induction calls generalizing s with
  | nil => exact ⟨s, rfl, h, hb⟩
  | cons c cs ih =>
    obtain ⟨r, he, h'⟩ := h.step c.1 c.2
    rw [AddrBook.run, he]
    exact ih h' (hb.step h he)

/-- Every run of calls from `NewAddrBook` goes through, and at its end each bucket of
`bucketsNew` holds at most `newBucketSize + 1` addresses and each of `bucketsOld` at most
`oldBucketSize + 1`, one more than the sizes `params.go` gives as the most a bucket
holds; no bucket past the end of the two slices holds any. -/
theorem addrBook_buckets_bounded (env : AddrEnv A I K) (ka0 : KnownAddress A)
    (calls : List (Time × Call A I)) :
    ∃ s, (newAddrBook ka0).run env calls = .ok s ∧
      (∀ idx, (s.buckets .new idx).entries.length ≤
        if idx < newBucketCount then newBucketSize + 1 else 0) ∧
      (∀ idx, (s.buckets .old idx).entries.length ≤
        if idx < oldBucketCount then oldBucketSize + 1 else 0) := by
  have h₀ : Consistent env (newAddrBook ka0 : AddrBook A I K) := consistent_newAddrBook ka0
  obtain ⟨s, hrun, -, hb⟩ := Bounded.run h₀ (bounded_newAddrBook ka0) calls
  exact ⟨s, hrun, fun idx ↦ hb .new idx, fun idx ↦ hb .old idx⟩

end AddrBook

end Tenderdash.Pex
