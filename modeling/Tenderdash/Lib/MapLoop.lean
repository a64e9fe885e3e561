import Mathlib.Data.List.AList

/-!
# Loops over a Go map

A Go loop `for k, v := range m { ... }` visits every entry of `m` once, in an order the
language leaves open.  A loop that deletes the entry it visits, or writes other maps, still
visits every entry `m` held when it started, so over an `AList` it is a `List.foldl` over the
entries, and the lemmas below hold for every order of them.

Two kinds of loop recur:

* a loop that writes one value, or deletes, at the key of every entry passing a test
  (`setIf`, `eraseIf`): after it, a key holds that value, or nothing, if and only if some
  entry of that key passed;
* a loop that keeps a running maximum or minimum: its result is bounded by every value it
  compares with, and is its start or one of those values.
-/

namespace MapLoop

variable {α κ β : Type} [DecidableEq κ] (p : α → Prop) [DecidablePred p] (key : α → κ)

/-- One round of a loop that writes `v` at `key x` for the `x` that pass `p`. -/
def setIf (v : β) (m : AList fun _ : κ ↦ β) (x : α) : AList fun _ : κ ↦ β :=
  if p x then m.insert (key x) v else m

/-- One round of a loop that deletes `key x` for the `x` that pass `p`. -/
def eraseIf (m : AList fun _ : κ ↦ β) (x : α) : AList fun _ : κ ↦ β :=
  if p x then m.erase (key x) else m

variable {p key}

theorem lookup_foldl_setIf (v : β) (k : κ) :
    ∀ (l : List α) (m : AList fun _ : κ ↦ β),
      (l.foldl (setIf p key v) m).lookup k =
        if ∃ x ∈ l, p x ∧ key x = k then some v else m.lookup k
  | [], m => by simp
  | x :: l, m => by
    rw [List.foldl_cons, lookup_foldl_setIf v k l]
    by_cases hl : ∃ y ∈ l, p y ∧ key y = k
    · rw [if_pos hl, if_pos (let ⟨y, hy, h⟩ := hl; ⟨y, List.mem_cons_of_mem x hy, h⟩)]
    rw [if_neg hl, setIf]
    by_cases hx : p x ∧ key x = k
    · rw [if_pos hx.1, if_pos ⟨x, List.mem_cons_self, hx⟩, ← hx.2, AList.lookup_insert]
    · have hne : ¬ ∃ y ∈ x :: l, p y ∧ key y = k := by
        rintro ⟨y, hy, h⟩
        rcases List.mem_cons.mp hy with rfl | hy
        · exact hx h
        · exact hl ⟨y, hy, h⟩
      rw [if_neg hne]
      split
      · exact AList.lookup_insert_ne fun h ↦ hx ⟨‹_›, h.symm⟩
      · rfl

theorem lookup_foldl_eraseIf (k : κ) :
    ∀ (l : List α) (m : AList fun _ : κ ↦ β),
      (l.foldl (eraseIf p key) m).lookup k =
        if ∃ x ∈ l, p x ∧ key x = k then none else m.lookup k
  | [], m => by simp
  | x :: l, m => by
    rw [List.foldl_cons, lookup_foldl_eraseIf k l]
    by_cases hl : ∃ y ∈ l, p y ∧ key y = k
    · rw [if_pos hl, if_pos (let ⟨y, hy, h⟩ := hl; ⟨y, List.mem_cons_of_mem x hy, h⟩)]
    rw [if_neg hl, eraseIf]
    by_cases hx : p x ∧ key x = k
    · rw [if_pos hx.1, if_pos ⟨x, List.mem_cons_self, hx⟩, ← hx.2, AList.lookup_erase]
    · have hne : ¬ ∃ y ∈ x :: l, p y ∧ key y = k := by
        rintro ⟨y, hy, h⟩
        rcases List.mem_cons.mp hy with rfl | hy
        · exact hx h
        · exact hl ⟨y, hy, h⟩
      rw [if_neg hne]
      split
      · exact AList.lookup_erase_ne fun h ↦ hx ⟨‹_›, h.symm⟩
      · rfl

/-- A loop that deletes the key of every element it visits. -/
theorem lookup_foldl_erase (l : List α) (m : AList fun _ : κ ↦ β) (k : κ) :
    (l.foldl (fun m x ↦ m.erase (key x)) m).lookup k =
      if ∃ x ∈ l, key x = k then none else m.lookup k := by
  have hloop : (fun m x ↦ m.erase (key x)) = eraseIf (β := β) (fun _ ↦ True) key := by
    funext m x
    exact (if_pos trivial).symm
  rw [hloop, lookup_foldl_eraseIf]
  simp only [true_and]

/-! ## Single writes -/

theorem lookup_insert_ite (m : AList fun _ : κ ↦ β) (k k' : κ) (v : β) :
    (m.insert k v).lookup k' = if k' = k then some v else m.lookup k' := by
  by_cases h : k' = k
  · rw [if_pos h, h, AList.lookup_insert]
  · rw [if_neg h, AList.lookup_insert_ne h]

theorem lookup_erase_ite (m : AList fun _ : κ ↦ β) (k k' : κ) :
    (m.erase k).lookup k' = if k' = k then none else m.lookup k' := by
  by_cases h : k' = k
  · rw [if_pos h, h, AList.lookup_erase]
  · rw [if_neg h, AList.lookup_erase_ne h]

/-! ## Running extrema -/

section Extremum

variable {γ : Type} [Preorder γ] {f : γ → α → γ}

/-- A loop whose rounds never lower the running value ends at or above its start. -/
theorem le_foldl (hf : ∀ m x, m ≤ f m x) : ∀ (l : List α) (m : γ), m ≤ l.foldl f m
  | [], _ => le_rfl
  | x :: l, m => le_trans (hf m x) (le_foldl hf l (f m x))

/-- ... and at or above what any of its rounds raises the value to. -/
theorem le_foldl_of_mem (hf : ∀ m x, m ≤ f m x) {v : γ} {x : α} (hv : ∀ m, v ≤ f m x) :
    ∀ {l : List α}, x ∈ l → ∀ m : γ, v ≤ l.foldl f m
  | y :: l, hx, m => by
    rw [List.foldl_cons]
    rcases List.mem_cons.mp hx with rfl | hx
    · exact le_trans (hv m) (le_foldl hf l _)
    · exact le_foldl_of_mem hf hv hx _

/-- A loop whose rounds never raise the running value ends at or below its start. -/
theorem foldl_le (hf : ∀ m x, f m x ≤ m) : ∀ (l : List α) (m : γ), l.foldl f m ≤ m
  | [], _ => le_rfl
  | x :: l, m => le_trans (foldl_le hf l (f m x)) (hf m x)

/-- ... and at or below what any of its rounds lowers the value to. -/
theorem foldl_le_of_mem (hf : ∀ m x, f m x ≤ m) {v : γ} {x : α} (hv : ∀ m, f m x ≤ v) :
    ∀ {l : List α}, x ∈ l → ∀ m : γ, l.foldl f m ≤ v
  | y :: l, hx, m => by
    rw [List.foldl_cons]
    rcases List.mem_cons.mp hx with rfl | hx
    · exact le_trans (foldl_le hf l _) (hv m)
    · exact foldl_le_of_mem hf hv hx _

end Extremum

/-- A loop whose every round keeps the running value, or replaces it by `g x` for an `x`
that passes `q`, ends at its start or at `g x` for one of the elements that pass. -/
theorem foldl_eq_or_mem {γ : Type} {f : γ → α → γ} {g : α → γ} (q : α → Prop)
    (hf : ∀ m x, f m x = m ∨ q x ∧ f m x = g x) :
    ∀ (l : List α) (m : γ), l.foldl f m = m ∨ ∃ x ∈ l, q x ∧ l.foldl f m = g x
  | [], m => .inl rfl
  | x :: l, m => by
    rw [List.foldl_cons]
    rcases foldl_eq_or_mem q hf l (f m x) with h | ⟨y, hy, hq, h⟩
    · rcases hf m x with h' | ⟨hq, h'⟩
      · exact .inl (h.trans h')
      · exact .inr ⟨x, List.mem_cons_self, hq, h.trans h'⟩
    · exact .inr ⟨y, List.mem_cons_of_mem x hy, hq, h⟩

/-! ## Entries of a map -/

theorem mem_of_lookup_eq_some {m : AList fun _ : κ ↦ β} {k : κ} {v : β}
    (h : m.lookup k = some v) : k ∈ m :=
  AList.lookup_isSome.mp (by rw [h]; rfl)

/-- An entry of `m` at key `k` that passes `r` is the value `m` looks `k` up to. -/
theorem exists_mem_entries_iff (m : AList fun _ : κ ↦ β) (r : κ → β → Prop) (k : κ) :
    (∃ x ∈ m.entries, r x.1 x.2 ∧ x.1 = k) ↔ ∃ v, m.lookup k = some v ∧ r k v := by
  constructor
  · rintro ⟨⟨k', v⟩, hx, hr, rfl⟩
    exact ⟨v, AList.mem_lookup_iff.mpr hx, hr⟩
  · rintro ⟨v, hv, hr⟩
    exact ⟨⟨k, v⟩, AList.mem_lookup_iff.mp hv, hr, rfl⟩

/-- A loop over the entries of `m` that writes `v` at the keys whose value `r` selects. -/
theorem lookup_foldl_setIf_entries {γ : Type} (m : AList fun _ : κ ↦ β) (r : β → Prop)
    [DecidablePred r] (v : γ) (n : AList fun _ : κ ↦ γ) (k : κ) :
    (m.entries.foldl (setIf (fun e ↦ r e.2) Sigma.fst v) n).lookup k =
      if ∃ b, m.lookup k = some b ∧ r b then some v else n.lookup k := by
  rw [lookup_foldl_setIf]
  exact if_congr (exists_mem_entries_iff m (fun _ b ↦ r b) k) rfl rfl

/-- A loop over the entries of `m` that deletes the keys whose value `r` selects. -/
theorem lookup_foldl_eraseIf_entries {γ : Type} (m : AList fun _ : κ ↦ β) (r : β → Prop)
    [DecidablePred r] (n : AList fun _ : κ ↦ γ) (k : κ) :
    (m.entries.foldl (eraseIf (fun e ↦ r e.2) Sigma.fst) n).lookup k =
      if ∃ b, m.lookup k = some b ∧ r b then none else n.lookup k := by
  rw [lookup_foldl_eraseIf]
  exact if_congr (exists_mem_entries_iff m (fun _ b ↦ r b) k) rfl rfl

end MapLoop
