import Tenderdash.Lib.Except
import Tenderdash.Pex.Capacity

/-!
# What the calls do for their callers

`Run` shows that every call keeps the book consistent; this module says what a call leaves
behind for the peer exchange that makes it.  `ReinstateBadPeers` keeps in `badPeers`
exactly the peers still banned, and a peer whose ban has run out goes back to a new bucket
only if its record is new: a peer that was marked good before it was marked bad keeps an
old record, which `addToNewBucket` refuses, and the loop deletes it from `badPeers` all the
same, so the book forgets it (`reinstateBadPeers_forgets_old`).
-/

namespace Tenderdash.Pex

namespace AddrBook

open KnownAddress

variable {A I K : Type} [DecidableEq I] [DecidableEq K] {env : AddrEnv A I K}
  {s : AddrBook A I K}

/-! ## Reinstating bad peers -/

/-- One round of `ReinstateBadPeers` at an entry of `badPeers`: the entry goes once its
ban has run out, no other record of an address outside the book changes, the only ID that
may enter `addrLookup` is the entry's, and an old record does not enter it. -/
theorem Consistent.reinstateBadPeer_spec (h : Consistent env s) {e : Σ _ : I, Ptr}
    (he : s.badPeers.lookup e.1 = some e.2) (now : Time) :
    ∃ s', s.reinstateBadPeer env e now = .ok s' ∧ Consistent env s' ∧
      (∀ i, s'.badPeers.lookup i =
        if i = e.1 ∧ ¬ (s.heap e.2).isBanned now then none else s.badPeers.lookup i) ∧
      (∀ q, q ≠ e.2 → ¬ Known env s q → s'.heap q = s.heap q) ∧
      (∀ i, i ≠ e.1 → i ∉ s.addrLookup → i ∉ s'.addrLookup) ∧
      (¬ (s.heap e.2).isBanned now → (s.heap e.2).bucketType = .old → e.1 ∉ s'.addrLookup) := by
  obtain ⟨s', he', hc, -⟩ := h.reinstateBadPeer he now
  have hid := h.bad_id _ _ he
  have hnot : e.1 ∉ s.addrLookup := h.bad_not_mem _ (mem_of_lookup_eq_some he)
  refine ⟨s', he', hc, ?_⟩
  unfold AddrBook.reinstateBadPeer at he'
  dsimp only at he'
  by_cases hban : (s.heap e.2).isBanned now
  · rw [if_pos hban, Except.pure_eq_ok] at he'
    subst he'
    exact ⟨fun i ↦ by rw [if_neg fun hi ↦ hi.2 hban], fun _ _ _ ↦ rfl, fun _ _ hi ↦ hi,
      fun hb ↦ absurd hban hb⟩
  rw [if_neg hban] at he'
  obtain ⟨r, hr, he'⟩ := Except.bind_eq_ok.mp he'
  rw [Except.pure_eq_ok] at he'
  subst he'
  have ht : Touches env s r.1 e.2 ∧ ((s.heap e.2).bucketType = .old → r.1 = s) := by
    cases hty : (s.heap e.2).bucketType with
    | old =>
      rw [addToNewBucket_of_old now hty, Except.ok.injEq] at hr
      rw [← hr]
      exact ⟨Touches.refl s _, fun _ ↦ rfl⟩
    | new =>
      obtain ⟨s₁, he₁, -, ht₁⟩ :=
        h.addToNewBucket now hty (.inr ⟨hid ▸ hnot, h.bad_buckets _ _ he⟩)
      rw [he₁, Except.ok.injEq] at hr
      rw [← hr]
      exact ⟨ht₁, fun hc ↦ absurd hc (by decide)⟩
  refine ⟨fun i ↦ ?_, fun q hq hk ↦ ht.1.heap_eq q hq hk, fun i hi hnot' hmem ↦ ?_,
    fun _ hold ↦ ?_⟩
  · show (r.1.badPeers.erase (env.id (s.heap e.2).addr)).lookup i = _
    rw [ht.1.badPeers_eq, hid, lookup_erase_eq_ite]
    by_cases hi : i = e.1
    · rw [if_pos hi, if_pos ⟨hi, hban⟩]
    · rw [if_neg hi, if_neg fun h' ↦ hi h'.1]
  · obtain ⟨q, hq⟩ := exists_lookup_of_mem hmem
    rcases ht.1.lookup_of i q hq with hl | ⟨-, hi'⟩
    · exact hnot' (mem_of_lookup_eq_some hl)
    · exact hi (hi'.trans hid)
  · show e.1 ∉ r.1.addrLookup
    rw [ht.2 hold]
    exact hnot

/-- The loop of `ReinstateBadPeers` over entries of `badPeers` with distinct IDs: it deletes
the entries whose ban has run out, leaves every other entry, lets no other ID outside the
book into `addrLookup`, and leaves the IDs of expired old records out of it. -/
theorem Consistent.foldlM_reinstateBadPeer_spec (now : Time) (l : List (Σ _ : I, Ptr)) :
    ∀ s : AddrBook A I K, Consistent env s → l.NodupKeys →
      (∀ e ∈ l, s.badPeers.lookup e.1 = some e.2) →
      ∃ s', l.foldlM (fun s e ↦ s.reinstateBadPeer env e now) s = .ok s' ∧
        Consistent env s' ∧
        (∀ i, s'.badPeers.lookup i = if i ∈ l.keys then
          (s.badPeers.lookup i).filter fun p ↦ (s.heap p).isBanned now
          else s.badPeers.lookup i) ∧
        (∀ i, i ∉ l.keys → i ∉ s.addrLookup → i ∉ s'.addrLookup) ∧
        ∀ e ∈ l, ¬ (s.heap e.2).isBanned now → (s.heap e.2).bucketType = .old →
          e.1 ∉ s'.addrLookup := by
  induction l with
  | nil =>
    intro s h _ _
    exact ⟨s, rfl, h, fun i ↦ by simp, fun _ _ hi ↦ hi, fun _ he ↦ absurd he List.not_mem_nil⟩
  | cons e l ih =>
    intro s h hnd hl
    have he := hl e List.mem_cons_self
    obtain ⟨s₁, he₁, h₁, hbad₁, hheap₁, hlook₁, hold₁⟩ := h.reinstateBadPeer_spec he now
    obtain ⟨hnotin, hnd'⟩ := List.nodupKeys_cons.mp hnd
    have hne : ∀ e' ∈ l, e'.1 ≠ e.1 := fun e' he' heq ↦ hnotin (heq ▸ List.mem_keys_of_mem he')
    have hsame : ∀ e' ∈ l, s₁.badPeers.lookup e'.1 = some e'.2 ∧ s₁.heap e'.2 = s.heap e'.2 :=
      fun e' he' ↦ by
        have hl' := hl e' (List.mem_cons_of_mem _ he')
        have hqe : e'.2 ≠ e.2 := fun hq ↦ hne e' he' <| by
          rw [← h.bad_id _ _ hl', ← h.bad_id _ _ he, hq]
        refine ⟨?_, hheap₁ _ hqe (h.not_known_of_bad hl')⟩
        rw [hbad₁, if_neg fun hi ↦ hne e' he' hi.1]
        exact hl'
    obtain ⟨s', he', h', hbad', hlook', hold'⟩ :=
      ih s₁ h₁ hnd' fun e' he' ↦ (hsame e' he').1
    refine ⟨s', ?_, h', fun i ↦ ?_, fun i hi hni ↦ ?_, fun e' he'' hban hty ↦ ?_⟩
    · rw [List.foldlM_cons, he₁, Except.ok_bind]
      exact he'
    · rw [hbad']
      by_cases hi : i ∈ l.keys
      · obtain ⟨e', he', rfl⟩ : ∃ e' ∈ l, e'.1 = i := by
          obtain ⟨b, hb⟩ := List.exists_of_mem_keys hi
          exact ⟨⟨i, b⟩, hb, rfl⟩
        rw [if_pos hi, if_pos (List.mem_keys_of_mem (List.mem_cons_of_mem _ he')),
          (hsame e' he').1, hl e' (List.mem_cons_of_mem _ he')]
        simp only [Option.filter_some, (hsame e' he').2]
      · rw [if_neg hi, hbad₁]
        by_cases hie : i = e.1
        · rw [hie, if_pos (List.mem_keys_of_mem List.mem_cons_self), he]
          by_cases hban : (s.heap e.2).isBanned now <;> simp [Option.filter_some, hban]
        · have hik : i ∉ (e :: l).keys := by
            rw [List.keys_cons, List.mem_cons]
            exact fun h' ↦ h'.elim hie hi
          rw [if_neg fun h' ↦ hie h'.1, if_neg hik]
    · have hik : i ∉ l.keys := fun h' ↦ hi (List.keys_cons ▸ List.mem_cons_of_mem _ h')
      have hie : i ≠ e.1 := fun h' ↦ hi (h' ▸ List.keys_cons ▸ List.mem_cons_self)
      exact hlook' i hik (hlook₁ i hie hni)
    · rcases List.mem_cons.mp he'' with rfl | he''
      · exact hlook' _ hnotin (hold₁ hban hty)
      · rw [← (hsame e' he'').2] at hban hty
        exact hold' e' he'' hban hty

/-- On every book a run from `NewAddrBook` reaches, `ReinstateBadPeers` does not panic and
keeps in `badPeers` exactly the entries still banned at `now`.  A bad peer whose ban has
run out and whose record is old, an address marked good before it was marked bad, ends up
in neither `badPeers` nor `addrLookup`: `addToNewBucket` refuses it for being old, and the
loop deletes it from `badPeers` all the same. -/
theorem reinstateBadPeers_forgets_old (env : AddrEnv A I K) (ka0 : KnownAddress A)
    (calls : List (Time × Call A I)) (now : Time) :
    ∃ s s', (newAddrBook ka0).run env calls = .ok s ∧ s.reinstateBadPeers env now = .ok s' ∧
      (∀ i, s'.badPeers.lookup i =
        (s.badPeers.lookup i).filter fun p ↦ (s.heap p).isBanned now) ∧
      ∀ i p, s.badPeers.lookup i = some p → ¬ (s.heap p).isBanned now →
        (s.heap p).bucketType = .old → i ∉ s'.addrLookup ∧ i ∉ s'.badPeers := by
  have h₀ : Consistent env (newAddrBook ka0 : AddrBook A I K) := consistent_newAddrBook ka0
  obtain ⟨s, hrun, h⟩ := h₀.run calls
  obtain ⟨s', he, -, hbad, -, hold⟩ := Consistent.foldlM_reinstateBadPeer_spec now
    s.badPeers.entries s h s.badPeers.nodupKeys fun _ he ↦ AList.mem_lookup_iff.mpr he
  have hbad' : ∀ i, s'.badPeers.lookup i =
      (s.badPeers.lookup i).filter fun p ↦ (s.heap p).isBanned now := fun i ↦ by
    rw [hbad]
    split
    · rfl
    · rename_i hi
      have hnone : s.badPeers.lookup i = none :=
        AList.lookup_eq_none.mpr fun hm ↦ hi (AList.mem_keys.mp hm)
      rw [hnone]
      rfl
  refine ⟨s, s', hrun, he, hbad', fun i p hp hban hty ↦ ⟨?_, fun hm ↦ ?_⟩⟩
  · exact hold ⟨i, p⟩ (AList.mem_lookup_iff.mp hp) hban hty
  · obtain ⟨q, hq⟩ := exists_lookup_of_mem hm
    rw [hbad', hp] at hq
    simp [Option.filter_some, hban] at hq

/-- An address added, marked good and then banned for 5 ns keeps its old record, and the
`ReinstateBadPeers` after its ban leaves it in neither map. -/
example :
    (match (newAddrBook (newKnownAddress 0 0 0)).run
        (⟨id, id, fun _ ↦ none, fun _ ↦ true, false, fun _ _ ↦ ⟨0, by decide⟩,
          fun _ ↦ ⟨0, by decide⟩⟩ : AddrEnv ℕ ℕ ℕ)
        [(0, .addAddress (some 1) (some 1000) 0), (1, .markGood 1), (2, .markBad 1 5),
          (10, .reinstateBadPeers)] with
      | .ok s => decide ((s.heap 0).addr = 1 ∧ (s.heap 0).bucketType = .old ∧
          1 ∉ s.addrLookup.keys ∧ 1 ∉ s.badPeers.keys)
      | .error _ => false) = true := by
  decide +kernel

end AddrBook

end Tenderdash.Pex
