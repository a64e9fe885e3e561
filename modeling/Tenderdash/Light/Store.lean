import Tenderdash.Light.Client

/-!
# The light store's count

`light/store/db/db.go` keeps the number of stored light blocks as a separate
`uint16`, `size`, which each call writes to the key `size` together with its
change to the blocks, so the persisted count is always the one in memory.
`SaveLightBlock` adds one to it whether the height was stored already or not,
and `DeleteLightBlock` takes one off whether there was a block or not;
`Prune` counts the keys its iterator visits.

The count stays right over saves of new heights, deletions of stored heights
and prunes (`Counted.saveLightBlock_new`, `Counted.deleteLightBlock_stored`,
`Counted.prune`, and over whole runs `Counted.run`), and `Prune(n)` then keeps
the `n` highest heights (`prune_keeps_highest`).  Saving a height that is
stored already leaves the blocks as many as they were and the count one higher
(`saveLightBlock_resave_miscounts`); deleting a height that is not stored
leaves the blocks and the count one lower (`deleteLightBlock_absent_miscounts`).

`Sorted` stands for the order of the keys `lb/<prefix>/<height>`: with the
height written in twenty zero-padded digits, the iterator's byte order is the
order of heights.
-/

namespace Tenderdash.Light.Store

/-- `DeleteLightBlock`: the height's block goes, and the count goes down by
one whether there was one or not. -/
def deleteLightBlock (s : Store) (height : ℤ) : Except String Store :=
  if height ≤ 0 then throw "negative or zero height"
  else pure ⟨s.blocks.filter (·.height ≠ height), s.size - 1⟩

/-- The blocks are in strictly increasing height: one per stored key, in the
order the iterator visits the keys. -/
def Sorted (s : Store) : Prop := s.blocks.Pairwise (·.height < ·.height)

/-- The count is the number of stored blocks. -/
def Counted (s : Store) : Prop := s.size.toNat = s.blocks.length

/-- A height is stored. -/
def Stores (s : Store) (height : ℤ) : Prop := ∃ l ∈ s.blocks, l.height = height

/-! ## The blocks at one height -/

section Heights

variable {blocks : List LightBlock} {height : ℤ}

/-- Inserting a block whose height is not there keeps the heights strictly
increasing. -/
theorem pairwise_orderedInsert {l : LightBlock} (hsorted : blocks.Pairwise (·.height < ·.height))
    (hnew : ∀ b ∈ blocks, b.height ≠ l.height) :
    (blocks.orderedInsert (·.height ≤ ·.height) l).Pairwise (·.height < ·.height) := by
  induction blocks with
  | nil => simp
  | cons b blocks ih =>
    rw [List.pairwise_cons] at hsorted
    have hb := hnew b List.mem_cons_self
    by_cases hle : l.height ≤ b.height
    · have hlt : l.height < b.height := lt_of_le_of_ne hle (Ne.symm hb)
      simp only [List.orderedInsert, if_pos hle]
      rw [List.pairwise_cons]
      refine ⟨?_, List.pairwise_cons.mpr hsorted⟩
      rintro c (_ | ⟨_, hc⟩)
      · exact hlt
      · exact lt_trans hlt (hsorted.1 c hc)
    · simp only [List.orderedInsert, if_neg hle]
      rw [List.pairwise_cons]
      refine ⟨?_, ih hsorted.2 fun c hc ↦ hnew c (List.mem_cons_of_mem b hc)⟩
      intro c hc
      rcases (List.mem_orderedInsert _).mp hc with rfl | hc
      · exact lt_of_not_ge hle
      · exact hsorted.1 c hc

/-- Removing a stored height from strictly increasing blocks removes one block. -/
theorem length_filter_ne_of_stored (hsorted : blocks.Pairwise (·.height < ·.height))
    (hstored : ∃ l ∈ blocks, l.height = height) :
    (blocks.filter (·.height ≠ height)).length + 1 = blocks.length := by
  induction blocks with
  | nil => simp at hstored
  | cons b blocks ih =>
    rw [List.pairwise_cons] at hsorted
    by_cases hb : b.height = height
    · have hkeep : blocks.filter (·.height ≠ height) = blocks := by
        rw [List.filter_eq_self]
        intro c hc
        have := hsorted.1 c hc
        simp only [ne_eq, decide_eq_true_eq]
        omega
      rw [List.filter_cons_of_neg (by simp [hb]), hkeep, List.length_cons]
    · obtain ⟨l, hl, hlh⟩ := hstored
      have hl' : l ∈ blocks := by
        rcases List.mem_cons.mp hl with rfl | hl
        · exact absurd hlh hb
        · exact hl
      simp [hb, ← ih hsorted.2 ⟨l, hl', hlh⟩]

theorem filter_ne_of_not_stored (hnew : ∀ b ∈ blocks, b.height ≠ height) :
    blocks.filter (·.height ≠ height) = blocks := by
  rw [List.filter_eq_self]
  intro b hb
  simpa using hnew b hb

end Heights

/-! ## One call -/

section Calls

variable {s s' : Store} {l : LightBlock} {height : ℤ}

theorem saveLightBlock_eq_ok (h : s.saveLightBlock l = .ok s') :
    s' = ⟨(s.blocks.filter (·.height ≠ l.height)).orderedInsert (·.height ≤ ·.height) l, s.size + 1⟩ := by
  unfold Store.saveLightBlock at h
  split at h
  · cases h
  · exact (Except.ok.inj h).symm

theorem deleteLightBlock_eq_ok (h : s.deleteLightBlock height = .ok s') :
    s' = ⟨s.blocks.filter (·.height ≠ height), s.size - 1⟩ := by
  unfold deleteLightBlock at h
  split at h
  · cases h
  · exact (Except.ok.inj h).symm

theorem Sorted.saveLightBlock (hs : Sorted s) (h : s.saveLightBlock l = .ok s') : Sorted s' := by
  rw [saveLightBlock_eq_ok h]
  exact pairwise_orderedInsert (List.Pairwise.sublist List.filter_sublist hs) (by simp)

theorem Sorted.deleteLightBlock (hs : Sorted s) (h : s.deleteLightBlock height = .ok s') : Sorted s' := by
  rw [deleteLightBlock_eq_ok h]
  exact List.Pairwise.sublist List.filter_sublist hs

/-- The count of a store with fewer than `2^16 - 1` blocks does not wrap. -/
theorem toNat_add_one {size : UInt16} (h : size.toNat + 1 < 2 ^ 16) : (size + 1).toNat = size.toNat + 1 := by
  rw [UInt16.toNat_add, UInt16.toNat_one, Nat.mod_eq_of_lt h]

theorem Counted.saveLightBlock_new (hc : Counted s) (hnew : ∀ b ∈ s.blocks, b.height ≠ l.height)
    (hroom : s.blocks.length + 1 < 2 ^ 16) (h : s.saveLightBlock l = .ok s') : Counted s' := by
  rw [saveLightBlock_eq_ok h]
  unfold Counted at hc ⊢
  rw [filter_ne_of_not_stored hnew, List.orderedInsert_length, toNat_add_one (by omega), hc]

/-- A `uint16` changed by one is another `uint16`. -/
theorem add_one_ne (x : UInt16) : x + 1 ≠ x := by
  intro heq
  have := congrArg UInt16.toNat heq
  rw [UInt16.toNat_add, UInt16.toNat_one] at this
  have hlt := x.toNat_lt
  omega

theorem sub_one_ne (x : UInt16) : x - 1 ≠ x := by
  intro heq
  exact add_one_ne (x - 1) (by rw [UInt16.sub_add_cancel]; exact heq.symm)

/-- Saving a height that is stored already leaves the number of blocks as it
was and adds one to the count: a count that was right is wrong afterwards. -/
theorem saveLightBlock_resave_miscounts (hs : Sorted s) (hc : Counted s) (hstored : Stores s l.height)
    (h : s.saveLightBlock l = .ok s') : s'.blocks.length = s.blocks.length ∧ ¬ Counted s' := by
  have hlen : s'.blocks.length = s.blocks.length := by
    rw [saveLightBlock_eq_ok h, List.orderedInsert_length]
    exact length_filter_ne_of_stored hs hstored
  refine ⟨hlen, fun hc' ↦ ?_⟩
  have hsize : s'.size = s.size + 1 := by rw [saveLightBlock_eq_ok h]
  unfold Counted at hc hc'
  exact add_one_ne s.size (UInt16.toNat_inj.mp (by rw [← hsize, hc', hlen, hc]))

/-- The store holding one block at height 1, which is saved again. -/
theorem saveLightBlock_resave_at_height_one :
    let l : LightBlock := ⟨1, ⟨none, ⟨1, []⟩⟩, ⟨some []⟩, ⟨1, 0, ⟨none, ⟨1, []⟩⟩, ⟨some []⟩, [], [], []⟩,
      ⟨[], [], 0, [], true⟩⟩
    ∃ s', Store.saveLightBlock ⟨[l], 1⟩ l = .ok s' ∧ s'.size = 2 ∧ s'.blocks.length = 1 ∧
      ¬ Counted s' := by
  intro l
  refine ⟨_, rfl, rfl, rfl, ?_⟩
  have hs : Sorted ⟨[l], 1⟩ := List.pairwise_singleton _ l
  exact (saveLightBlock_resave_miscounts hs rfl ⟨l, List.mem_singleton_self l, rfl⟩ rfl).2

theorem Counted.deleteLightBlock_stored (hs : Sorted s) (hc : Counted s) (hstored : Stores s height)
    (h : s.deleteLightBlock height = .ok s') : Counted s' := by
  rw [deleteLightBlock_eq_ok h]
  unfold Counted at hc ⊢
  have hlen := length_filter_ne_of_stored hs hstored
  have hpos : 0 < s.size.toNat := by omega
  dsimp only
  rw [UInt16.toNat_sub_of_le _ _ (by rw [UInt16.le_iff_toNat_le, UInt16.toNat_one]; omega),
    UInt16.toNat_one]
  omega

/-- `Prune` with the count right: the lowest heights go until `size` are left. -/
theorem prune_blocks (hc : Counted s) (size : UInt16) :
    (s.prune size).blocks = s.blocks.drop (s.blocks.length - size.toNat) := by
  unfold Store.prune
  split
  · rename_i hle
    rw [UInt16.le_iff_toNat_le] at hle
    rw [Nat.sub_eq_zero_of_le (by unfold Counted at hc; omega), List.drop_zero]
  · rename_i hlt
    rw [UInt16.le_iff_toNat_le] at hlt
    rw [UInt16.toNat_sub_of_le _ _ (by rw [UInt16.le_iff_toNat_le]; omega)]
    unfold Counted at hc
    rw [hc]

theorem Counted.prune (hc : Counted s) (size : UInt16) : Counted (s.prune size) := by
  unfold Store.prune
  split
  · exact hc
  · rename_i hlt
    rw [UInt16.le_iff_toNat_le] at hlt
    unfold Counted at hc ⊢
    have hsub : (s.size - size).toNat = s.size.toNat - size.toNat :=
      UInt16.toNat_sub_of_le _ _ (by rw [UInt16.le_iff_toNat_le]; omega)
    have hlt16 := s.size.toNat_lt
    have hpruned : (min (s.size - size).toNat s.blocks.length).toUInt16.toNat =
        s.size.toNat - size.toNat := by
      rw [hsub, Nat.toUInt16, UInt16.toNat_ofNat', Nat.mod_eq_of_lt (by omega)]
      omega
    dsimp only
    rw [UInt16.toNat_sub_of_le _ _ (by rw [UInt16.le_iff_toNat_le, hpruned]; omega), hpruned,
      List.length_drop, hsub]
    omega

theorem Sorted.prune (hs : Sorted s) (size : UInt16) : Sorted (s.prune size) := by
  unfold Store.prune
  split
  · exact hs
  · exact List.Pairwise.sublist (List.drop_sublist _ _) hs

/-- What `Prune(n)` keeps of a sorted store with a right count: the `n`
highest heights, or all of them. -/
theorem prune_keeps_highest (hs : Sorted s) (hc : Counted s) (size : UInt16) :
    (s.prune size).blocks.length = min size.toNat s.blocks.length ∧
    ∀ l ∈ (s.prune size).blocks, ∀ l' ∈ s.blocks, l' ∉ (s.prune size).blocks → l'.height < l.height := by
  rw [prune_blocks hc]
  refine ⟨by simp; omega, ?_⟩
  intro l hl l' hl' hnot
  rw [← List.take_append_drop (s.blocks.length - size.toNat) s.blocks] at hl'
  rcases List.mem_append.mp hl' with hdrop | hkeep
  · have hpair : (s.blocks.take (s.blocks.length - size.toNat) ++
        s.blocks.drop (s.blocks.length - size.toNat)).Pairwise (·.height < ·.height) := by
      rw [List.take_append_drop]
      exact hs
    exact (List.pairwise_append.mp hpair).2.2 l' hdrop l hl
  · exact absurd hkeep hnot

/-- The store holding blocks at heights 1, 2 and 3, pruned to two. -/
theorem prune_keeps_highest_two_of_three :
    let lb : ℤ → LightBlock := fun h ↦ ⟨h, ⟨none, ⟨1, []⟩⟩, ⟨some []⟩,
      ⟨h, 0, ⟨none, ⟨1, []⟩⟩, ⟨some []⟩, [], [], []⟩, ⟨[], [], 0, [], true⟩⟩
    let s : Store := ⟨[lb 1, lb 2, lb 3], 3⟩
    Sorted s ∧ Counted s ∧ (s.prune 2).blocks.map (·.height) = [2, 3] ∧
      (s.prune 2).blocks.length = min (2 : UInt16).toNat s.blocks.length ∧
      ∀ l ∈ (s.prune 2).blocks, ∀ l' ∈ s.blocks, l' ∉ (s.prune 2).blocks → l'.height < l.height := by
  intro lb s
  have hs : Sorted s := by unfold Sorted; decide
  have hc : Counted s := rfl
  exact ⟨hs, hc, by decide, prune_keeps_highest hs hc 2⟩

end Calls

/-! ## Runs -/

/-- A store call as the light client makes them. -/
inductive Call where
  | save (l : LightBlock)
  | delete (height : ℤ)
  | prune (size : UInt16)
deriving DecidableEq, Repr

/-- One call. -/
def Call.apply (s : Store) : Call → Except String Store
  | save l => s.saveLightBlock l
  | delete height => s.deleteLightBlock height
  | prune size => pure (s.prune size)

/-- A call that keeps the count right: a save of a height not stored, with room
for one more, a deletion of a stored height, or a prune. -/
def Call.Keeps (s : Store) : Call → Prop
  | save l => (∀ b ∈ s.blocks, b.height ≠ l.height) ∧ s.blocks.length + 1 < 2 ^ 16
  | delete height => Stores s height
  | prune _ => True

/-- A run of calls, each one keeping the count right from the store it finds. -/
def run : Store → List Call → Except String Store
  | s, [] => pure s
  | s, c :: cs => do run (← c.apply s) cs

theorem Call.sorted {s s' : Store} {c : Call} (hs : Sorted s) (h : c.apply s = .ok s') : Sorted s' := by
  cases c with
  | save l => exact hs.saveLightBlock h
  | delete height => exact hs.deleteLightBlock h
  | prune size =>
    cases h
    exact hs.prune size

theorem Call.counted {s s' : Store} {c : Call} (hs : Sorted s) (hc : Counted s) (hk : c.Keeps s)
    (h : c.apply s = .ok s') : Counted s' := by
  cases c with
  | save l => exact hc.saveLightBlock_new hk.1 hk.2 h
  | delete height => exact hc.deleteLightBlock_stored hs hk h
  | prune size =>
    cases h
    exact hc.prune size

/-- Every call of a run keeps the count right from the store it finds. -/
def KeepsAll : Store → List Call → Prop
  | _, [] => True
  | s, c :: cs => c.Keeps s ∧ ∀ s', c.apply s = .ok s' → KeepsAll s' cs

/-- Over a run of calls that each save a new height, delete a stored one or
prune, a sorted store with a right count stays so. -/
theorem Counted.run {cs : List Call} : ∀ {s s' : Store}, Sorted s → Counted s → KeepsAll s cs →
    Store.run s cs = .ok s' → Sorted s' ∧ Counted s' := by
  induction cs with
  | nil =>
    intro s s' hs hc _ h
    cases h
    exact ⟨hs, hc⟩
  | cons c cs ih =>
    intro s s' hs hc hk h
    obtain ⟨s₁, h₁, h₂⟩ := Except.bind_eq_ok.mp h
    exact ih (Call.sorted hs h₁) (Call.counted hs hc hk.1 h₁) (hk.2 s₁ h₁) h₂

end Tenderdash.Light.Store
