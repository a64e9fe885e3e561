import Tenderdash.Store.BlockStore

/-!
# The block store over whole runs

A node opens its block store over the database it finds (`NewBlockStore`), and then saves
blocks (`SaveBlock`, from consensus and block sync), saves seen commits (`SaveSeenCommit`,
from state sync) and prunes (`PruneBlocks`, to the retain height of the application), and it
may stop and open the store again over the same database between any two of them.
`Reachable` runs these from the empty database.  It carries as ghost state the block last
saved at each height and not pruned since.  A caller owes what the comment of `SaveBlock`
asks: the parts are the parts of the block, so their bytes decode to it; and a block's height
is positive.  A call that fails is a panic or an error that writes nothing, so the runs are
made of the calls that returned.

`Inv` is what holds after every run: the database holds the state the store holds in memory,
the store holds a block at exactly the heights from `base` to `height`, `LoadBlock` returns
the ghost block at every height, and `LoadBlockCommit` below the top returns the `LastCommit`
of the block above.  From it: `PruneBlocks` within range prunes `retain - base` blocks; the
state it saves at its first flush names as base a height it has just deleted; and, with
hashes that do not collide, `LoadBlockByHash` finds every block it holds and nothing else.
-/

namespace Tenderdash.Store

namespace BlockStore

open MapLoop

variable {B Cm : Type} (blockFromBytes : Bytes → Except String B) (blockHeight : B → ℤ)
  (blockHash : B → Bytes) (lastCommit : B → Cm)

/-- The runs of a node's block store from the empty database, with the block last saved at
each height and not pruned since. -/
inductive Reachable : BlockStore Cm → (ℤ → Option B) → Prop
  /-- `NewBlockStore` over the empty database. -/
  | empty : Reachable (newBlockStore DB.empty) fun _ ↦ none
  /-- A `SaveBlock` that returned, of a block of positive height with its own parts. -/
  | saveBlock {bs bs' G} {block : B} {blockParts : PartSet} {seenCommit : Cm} :
      Reachable bs G → 0 < blockHeight block →
      (∀ buf, PartSet.readParts blockParts.parts blockParts.total = .ok buf →
        blockFromBytes buf = .ok block) →
      bs.saveBlock blockHeight blockHash lastCommit block blockParts seenCommit = .ok bs' →
      Reachable bs' (Function.update G (blockHeight block) (some block))
  /-- `SaveSeenCommit`, at any height. -/
  | saveSeenCommit {bs G} (height : ℤ) (seenCommit : Cm) :
      Reachable bs G → Reachable (bs.saveSeenCommit height seenCommit) G
  /-- A `PruneBlocks` that returned. -/
  | pruneBlocks {bs bs' G} {retain : ℤ} {pruned : ℕ} :
      Reachable bs G → bs.pruneBlocks retain = .ok (bs', pruned) →
      Reachable bs' fun h ↦ if h < retain then none else G h
  /-- The node stops, and opens the store again over the same database. -/
  | restart {bs G} : Reachable bs G → Reachable (newBlockStore bs.db) G

/-- What holds of the store and the ghost blocks after every run. -/
structure Inv (bs : BlockStore Cm) (G : ℤ → Option B) : Prop where
  /-- The database holds the state the store holds. -/
  persisted : loadBlockStoreState bs.db = ⟨bs.base, bs.height⟩
  /-- The store is empty, or holds the heights from a positive `base` to `height`. -/
  range : bs.base = 0 ∧ bs.height = 0 ∨ 0 < bs.base ∧ bs.base ≤ bs.height
  ghost_isSome : ∀ h, (G h).isSome ↔ 0 < bs.base ∧ bs.base ≤ h ∧ h ≤ bs.height
  blockHeight_eq : ∀ h b, G h = some b → blockHeight b = h
  /-- A meta is there exactly where a block is, and names the block's hash. -/
  loadBlockMeta_hash : ∀ h,
    (bs.loadBlockMeta h).map (fun m ↦ m.blockID.hash) = (G h).map fun b ↦ some (blockHash b)
  loadBlock_eq : ∀ h, bs.loadBlock blockFromBytes h = .ok (G h)
  loadBlockCommit_eq : ∀ h b, bs.base ≤ h → G (h + 1) = some b →
    bs.loadBlockCommit h = some (lastCommit b)
  loadSeenCommit_isSome : ∀ h, (G h).isSome → (bs.loadSeenCommit h).isSome

variable {blockFromBytes blockHeight blockHash lastCommit}

namespace Inv

variable {bs : BlockStore Cm} {G : ℤ → Option B}

theorem ghost_eq_none (hI : Inv blockFromBytes blockHeight blockHash lastCommit bs G) {h : ℤ}
    (hh : ¬ (0 < bs.base ∧ bs.base ≤ h ∧ h ≤ bs.height)) : G h = none :=
  Option.not_isSome_iff_eq_none.mp fun hs ↦ hh ((hI.ghost_isSome h).mp hs)

theorem loadBlockMeta_isSome (hI : Inv blockFromBytes blockHeight blockHash lastCommit bs G)
    (h : ℤ) : (bs.loadBlockMeta h).isSome = (G h).isSome := by
  have hm := congrArg Option.isSome (hI.loadBlockMeta_hash h)
  simpa only [Option.isSome_map] using hm

/-- The meta at a height names the hash of the block there. -/
theorem loadBlockMeta_eq_some (hI : Inv blockFromBytes blockHeight blockHash lastCommit bs G)
    {h : ℤ} {m : BlockMeta} (hm : bs.loadBlockMeta h = some m) :
    ∃ b, G h = some b ∧ m.blockID.hash = some (blockHash b) := by
  have hmeta := hI.loadBlockMeta_hash h
  rw [hm] at hmeta
  cases hg : G h with
  | none =>
    rw [hg] at hmeta
    cases hmeta
  | some b =>
    rw [hg] at hmeta
    exact ⟨b, rfl, Option.some.inj hmeta⟩

theorem empty : Inv blockFromBytes blockHeight blockHash lastCommit (newBlockStore DB.empty)
    fun _ ↦ none where
  persisted := rfl
  range := .inl ⟨rfl, rfl⟩
  ghost_isSome := fun _ ↦ by simp [newBlockStore, loadBlockStoreState, DB.empty]
  blockHeight_eq := fun _ _ h ↦ nomatch h
  loadBlockMeta_hash := fun _ ↦ rfl
  loadBlock_eq := fun _ ↦ rfl
  loadBlockCommit_eq := fun _ _ _ h ↦ nomatch h
  loadSeenCommit_isSome := fun _ h ↦ nomatch h

theorem saveSeenCommit (hI : Inv blockFromBytes blockHeight blockHash lastCommit bs G)
    (height : ℤ) (seenCommit : Cm) :
    Inv blockFromBytes blockHeight blockHash lastCommit (bs.saveSeenCommit height seenCommit) G where
  persisted := hI.persisted
  range := hI.range
  ghost_isSome := hI.ghost_isSome
  blockHeight_eq := hI.blockHeight_eq
  loadBlockMeta_hash := hI.loadBlockMeta_hash
  loadBlock_eq := fun h ↦ by
    rw [← hI.loadBlock_eq h]
    exact loadBlock_congr blockFromBytes rfl fun _ ↦ rfl
  loadBlockCommit_eq := hI.loadBlockCommit_eq
  loadSeenCommit_isSome := fun h hg ↦ by
    simp only [BlockStore.saveSeenCommit, loadSeenCommit, lookup_insert_ite]
    split
    · rfl
    · exact hI.loadSeenCommit_isSome h hg

theorem restart (hI : Inv blockFromBytes blockHeight blockHash lastCommit bs G) :
    Inv blockFromBytes blockHeight blockHash lastCommit (newBlockStore bs.db) G := by
  rwa [newBlockStore_eq_self hI.persisted]

section Save

variable {bs' : BlockStore Cm} {block : B} {blockParts : PartSet} {seenCommit : Cm}

/-- The height a `SaveBlock` writes holds no block yet: the store is empty, or the height is
the one above the top. -/
theorem ghost_saveBlock (hI : Inv blockFromBytes blockHeight blockHash lastCommit bs G)
    (hcont : ¬ (bs.base > 0 ∧ blockHeight block ≠ bs.height + 1)) : G (blockHeight block) = none :=
  hI.ghost_eq_none fun ⟨hb, _, hh⟩ ↦ hcont ⟨hb, by omega⟩

theorem saveBlock (hI : Inv blockFromBytes blockHeight blockHash lastCommit bs G)
    (hpos : 0 < blockHeight block)
    (hdec : ∀ buf, PartSet.readParts blockParts.parts blockParts.total = .ok buf →
      blockFromBytes buf = .ok block)
    (hs : bs.saveBlock blockHeight blockHash lastCommit block blockParts seenCommit = .ok bs') :
    Inv blockFromBytes blockHeight blockHash lastCommit bs'
      (Function.update G (blockHeight block) (some block)) := by
  obtain ⟨hcont, hsome, hsv⟩ := saveBlock_eq_ok hs
  have hnone := hI.ghost_saveBlock hcont
  have hrange : 0 < bs'.base ∧ bs'.base ≤ blockHeight block ∧
      ∀ h, bs'.base ≤ h → h ≠ blockHeight block →
        (0 < bs.base ∧ bs.base ≤ h ∧ h ≤ bs.height ↔ h ≤ blockHeight block) := by
    rw [hsv.base_eq]
    rcases hI.range with ⟨hb, -⟩ | ⟨hb, hbh⟩
    · simp only [hb, if_true]
      exact ⟨hpos, le_rfl, fun h h₁ h₂ ↦ by omega⟩
    · rw [if_neg hb.ne']
      exact ⟨hb, by omega, fun h h₁ h₂ ↦ by omega⟩
  obtain ⟨hb', hbh', hiff⟩ := hrange
  refine
    { persisted := loadBlockStoreState_of_pos hsv.blockStore_eq hb'
      range := .inr ⟨hb', hsv.height_eq ▸ hbh'⟩
      ghost_isSome := fun h ↦ ?_
      blockHeight_eq := fun h b hb ↦ ?_
      loadBlockMeta_hash := fun h ↦ ?_
      loadBlock_eq := fun h ↦ ?_
      loadBlockCommit_eq := fun h b hh hb ↦ ?_
      loadSeenCommit_isSome := fun h hg ↦ ?_ }
  · rw [hsv.height_eq]
    by_cases hk : h = blockHeight block
    · subst hk
      simp [hb', hbh']
    · rw [Function.update_of_ne hk, hI.ghost_isSome]
      by_cases hle : bs'.base ≤ h
      · rw [hiff h hle hk]
        simp only [hb', hle, true_and]
      · constructor
        · rintro ⟨hb, hbh, -⟩
          rcases hI.range with ⟨hb0, -⟩ | -
          · omega
          · rw [hsv.base_eq, if_neg hb.ne'] at hle
            omega
        · rintro ⟨-, hle', -⟩
          exact absurd hle' hle
  · by_cases hk : h = blockHeight block
    · subst hk
      rw [Function.update_self] at hb
      obtain rfl := Option.some.inj hb
      rfl
    · rw [Function.update_of_ne hk] at hb
      exact hI.blockHeight_eq h b hb
  · rw [hsv.loadBlockMeta_eq]
    by_cases hk : h = blockHeight block
    · subst hk
      simp
    · rw [if_neg hk, Function.update_of_ne hk, hI.loadBlockMeta_hash]
  · by_cases hk : h = blockHeight block
    · subst hk
      rw [Function.update_self]
      exact loadBlock_eq_some blockFromBytes (hsv.loadBlockMeta_eq _ ▸ if_pos rfl)
        (fun i hi ↦ (hsv.loadBlockPart_eq _ i).trans (if_pos ⟨rfl, hi⟩)) hsome hdec
    · rw [Function.update_of_ne hk, ← hI.loadBlock_eq]
      exact loadBlock_congr blockFromBytes ((hsv.loadBlockMeta_eq h).trans (if_neg hk))
        fun i ↦ (hsv.loadBlockPart_eq h i).trans (if_neg fun hc ↦ hk hc.1)
  · rw [hsv.loadBlockCommit_eq]
    by_cases hk : h + 1 = blockHeight block
    · rw [← hk, Function.update_self] at hb
      rw [if_pos (by omega), ← Option.some.inj hb]
    · rw [Function.update_of_ne hk] at hb
      rw [if_neg (by omega)]
      obtain ⟨hb0, -, -⟩ := (hI.ghost_isSome (h + 1)).mp (by rw [hb]; rfl)
      rw [hsv.base_eq, if_neg hb0.ne'] at hh
      exact hI.loadBlockCommit_eq h b hh hb
  · rw [hsv.loadSeenCommit_eq]
    by_cases hk : h = blockHeight block
    · rw [if_pos hk]
      rfl
    · rw [if_neg hk]
      rw [Function.update_of_ne hk] at hg
      exact hI.loadSeenCommit_isSome h hg

end Save

section Prune

variable {bs' : BlockStore Cm} {retain : ℤ} {pruned : ℕ}

theorem pruneBlocks (hI : Inv blockFromBytes blockHeight blockHash lastCommit bs G)
    (hs : bs.pruneBlocks retain = .ok (bs', pruned)) :
    Inv blockFromBytes blockHeight blockHash lastCommit bs' fun h ↦ if h < retain then none else G h := by
  obtain ⟨hpos, hle, hbase, rfl, -⟩ := pruneBlocks_eq_ok hs
  have hd := (deletes_foldl_pruneStep (pruneHeights bs.base retain) (bs, 0)).flush retain
  set bs' := ((pruneHeights bs.base retain).foldl pruneStep (bs, 0)).1.flush retain
  have hb' : bs'.base = retain := rfl
  have hh' : bs'.height = bs.height := hd.height_eq
  have hb0 : 0 < bs.base := by
    rcases hI.range with ⟨-, hh0⟩ | ⟨hb0, -⟩
    · omega
    · exact hb0
  have hbelow : ∀ h, h < retain → bs'.loadBlockMeta h = none ∨
      h ∉ pruneHeights bs.base retain ∧ G h = none := fun h hh ↦ by
    by_cases hm : h ∈ pruneHeights bs.base retain
    · exact .inl (hd.loadBlockMeta_of_mem hm)
    · exact .inr ⟨hm, hI.ghost_eq_none fun ⟨_, hbh, _⟩ ↦ hm (mem_pruneHeights.mpr ⟨hbh, hh⟩)⟩
  have habove : ∀ {h}, ¬ h < retain → h ∉ pruneHeights bs.base retain := fun hh hm ↦
    hh (mem_pruneHeights.mp hm).2
  refine
    { persisted := loadBlockStoreState_of_pos rfl hpos
      range := .inr ⟨hb' ▸ hpos, hb' ▸ hh' ▸ hle⟩
      ghost_isSome := fun h ↦ ?_
      blockHeight_eq := fun h b hb ↦ ?_
      loadBlockMeta_hash := fun h ↦ ?_
      loadBlock_eq := fun h ↦ ?_
      loadBlockCommit_eq := fun h b hh hb ↦ ?_
      loadSeenCommit_isSome := fun h hg ↦ ?_ }
  · rw [hb', hh']
    split_ifs with hh
    · simp only [Option.isSome_none, Bool.false_eq_true, false_iff]
      omega
    · rw [hI.ghost_isSome]
      omega
  · split_ifs at hb
    exact hI.blockHeight_eq h b hb
  · split_ifs with hh
    · rcases hbelow h hh with hm | ⟨hm, hg⟩
      · rw [hm]
        rfl
      · rw [hd.loadBlockMeta_of_not_mem hm, hI.loadBlockMeta_hash, hg]
    · rw [hd.loadBlockMeta_of_not_mem (habove hh), hI.loadBlockMeta_hash]
  · split_ifs with hh
    · rcases hbelow h hh with hm | ⟨hm, hg⟩
      · exact loadBlock_of_loadBlockMeta_eq_none blockFromBytes hm
      · rw [loadBlock_congr blockFromBytes (hd.loadBlockMeta_of_not_mem hm)
          (hd.loadBlockPart_of_not_mem hm), hI.loadBlock_eq, hg]
    · rw [loadBlock_congr blockFromBytes (hd.loadBlockMeta_of_not_mem (habove hh))
        (hd.loadBlockPart_of_not_mem (habove hh)), hI.loadBlock_eq]
  · rw [hb'] at hh
    rw [if_neg (by omega)] at hb
    rw [hd.loadBlockCommit_of_not_mem (habove (by omega))]
    exact hI.loadBlockCommit_eq h b (by omega) hb
  · split_ifs at hg with hh
    · exact absurd hg (by simp)
    · rw [hd.loadSeenCommit_of_not_mem (habove hh)]
      exact hI.loadSeenCommit_isSome h hg

end Prune

end Inv

theorem Reachable.inv {bs : BlockStore Cm} {G : ℤ → Option B}
    (hr : Reachable blockFromBytes blockHeight blockHash lastCommit bs G) :
    Inv blockFromBytes blockHeight blockHash lastCommit bs G := by
  induction hr with
  | empty => exact Inv.empty
  | saveBlock _ hpos hdec hs ih => exact ih.saveBlock hpos hdec hs
  | saveSeenCommit height seenCommit _ ih => exact ih.saveSeenCommit height seenCommit
  | pruneBlocks _ hs ih => exact ih.pruneBlocks hs
  | restart _ ih => exact ih.restart

/-! ## Runs that save a chain -/

/-- Saving the blocks of heights `1` to `n` in order, each with a complete set of its own
parts, from the empty database, is a run. -/
theorem reachable_saveBlocks (blk : ℤ → B) (blockParts : ℤ → PartSet) (seenCommit : ℤ → Cm)
    (hheight : ∀ h, 0 < h → blockHeight (blk h) = h)
    (hc : ∀ h, 0 < h → (blockParts h).isComplete)
    (hp : ∀ h, 0 < h → ∀ i < (blockParts h).total, ((blockParts h).parts i).isSome)
    (hdec : ∀ h, 0 < h → ∀ buf,
      PartSet.readParts (blockParts h).parts (blockParts h).total = .ok buf →
        blockFromBytes buf = .ok (blk h)) :
    ∀ n : ℕ, ∃ bs, Reachable blockFromBytes blockHeight blockHash lastCommit bs
      (fun h ↦ if 0 < h ∧ h ≤ n then some (blk h) else none) ∧
      bs.base = min 1 (n : ℤ) ∧ bs.height = n
  | 0 => by
    have hG : (fun h : ℤ ↦ if 0 < h ∧ h ≤ ((0 : ℕ) : ℤ) then some (blk h) else none) =
        fun _ ↦ none := by
      funext h
      exact if_neg (by omega)
    exact ⟨_, hG ▸ Reachable.empty, rfl, rfl⟩
  | n + 1 => by
    obtain ⟨bs, hr, hb, hh⟩ := reachable_saveBlocks blk blockParts seenCommit hheight hc hp hdec n
    have hn : (0 : ℤ) < (n + 1 : ℕ) := by omega
    have hcont : bs.base = 0 ∨ blockHeight (blk (n + 1 : ℕ)) = bs.height + 1 := by
      rw [hheight _ hn, hh]
      omega
    obtain ⟨bs', hs⟩ : ∃ bs', bs.saveBlock blockHeight blockHash lastCommit (blk (n + 1 : ℕ))
        (blockParts (n + 1 : ℕ)) (seenCommit (n + 1 : ℕ)) = .ok bs' :=
      exists_saveBlock_eq_ok hcont (hc _ hn) (hp _ hn)
    obtain ⟨-, -, hsv⟩ := saveBlock_eq_ok hs
    have hG : Function.update (fun h ↦ if 0 < h ∧ h ≤ (n : ℤ) then some (blk h) else none)
        (blockHeight (blk (n + 1 : ℕ))) (some (blk (n + 1 : ℕ))) =
        fun h ↦ if 0 < h ∧ h ≤ ((n + 1 : ℕ) : ℤ) then some (blk h) else none := by
      funext h
      rw [hheight _ hn]
      by_cases hk : h = ((n + 1 : ℕ) : ℤ)
      · rw [hk, Function.update_self, if_pos ⟨hn, le_rfl⟩]
      · rw [Function.update_of_ne hk]
        exact if_congr (by omega) rfl rfl
    refine ⟨bs', hG ▸ hr.saveBlock (by rw [hheight _ hn]; exact hn) (hdec _ hn) hs, ?_, ?_⟩
    · rw [hsv.base_eq, hb, hheight _ hn]
      split_ifs <;> omega
    · rw [hsv.height_eq, hheight _ hn]

/-- The chain whose block at height `h` is `h` zero bytes, in one part, decoded as the bytes
themselves. -/
theorem reachable_replicate (n : ℕ) :
    ∃ bs, Reachable (Except.ok : Bytes → Except String Bytes) (fun b ↦ (b.length : ℤ)) id
      (fun _ ↦ ()) bs (fun h ↦ if 0 < h ∧ h ≤ n then some (List.replicate h.toNat 0) else none) ∧
      bs.base = min 1 (n : ℤ) ∧ bs.height = n := by
  refine reachable_saveBlocks (fun h ↦ List.replicate h.toNat 0)
    (fun h ↦ ⟨1, [], fun _ ↦ some ⟨0, List.replicate h.toNat 0, ⟨1, 0, [], []⟩⟩, fun _ ↦ true,
      1, h.toNat⟩)
    (fun _ ↦ ()) (fun h hh ↦ ?_) (fun _ _ ↦ rfl) (fun _ _ _ _ ↦ rfl) (fun h _ buf hbuf ↦ ?_) n
  · simp only [List.length_replicate]
    omega
  · exact hbuf.symm

/-! ## What the store guarantees -/

/-- After any run, reopening the store changes nothing, a meta is there exactly from `base` to
`height`, `LoadBlock` returns at each height the block last saved there and not pruned since,
and `LoadBlockCommit` below the top returns the `LastCommit` of the block above. -/
theorem reachable_loadBlock {bs : BlockStore Cm} {G : ℤ → Option B}
    (hr : Reachable blockFromBytes blockHeight blockHash lastCommit bs G) :
    newBlockStore bs.db = bs ∧
      (∀ h, (bs.loadBlockMeta h).isSome ↔ 0 < bs.base ∧ bs.base ≤ h ∧ h ≤ bs.height) ∧
      (∀ h, bs.loadBlock blockFromBytes h = .ok (G h)) ∧
      ∀ h b, bs.base ≤ h → G (h + 1) = some b → bs.loadBlockCommit h = some (lastCommit b) := by
  have hI := hr.inv
  refine ⟨newBlockStore_eq_self hI.persisted, fun h ↦ ?_, hI.loadBlock_eq, hI.loadBlockCommit_eq⟩
  rw [hI.loadBlockMeta_isSome, hI.ghost_isSome]

theorem reachable_loadBlock_replicate :
    ∃ bs : BlockStore Unit, newBlockStore bs.db = bs ∧ bs.height = 2 ∧
      bs.loadBlock (Except.ok : Bytes → Except String Bytes) 2 = .ok (some [0, 0]) := by
  obtain ⟨bs, hr, -, hh⟩ := reachable_replicate 2
  obtain ⟨hnew, -, hload, -⟩ := reachable_loadBlock hr
  exact ⟨bs, hnew, hh, (hload 2).trans rfl⟩

/-- `PruneBlocks` to a height from `base` to `height` returns, counts `retain - base` blocks,
and leaves the store from `retain` with its blocks there as they were. -/
theorem reachable_pruneBlocks_count {bs : BlockStore Cm} {G : ℤ → Option B}
    (hr : Reachable blockFromBytes blockHeight blockHash lastCommit bs G) {retain : ℤ}
    (hpos : 0 < retain) (hle : retain ≤ bs.height) (hbase : bs.base ≤ retain) :
    ∃ bs', bs.pruneBlocks retain = .ok (bs', (retain - bs.base).toNat) ∧ bs'.base = retain ∧
      bs'.height = bs.height ∧
      ∀ h, bs'.loadBlock blockFromBytes h =
        if h < retain then .ok none else bs.loadBlock blockFromBytes h := by
  have hI := hr.inv
  set r := (pruneHeights bs.base retain).foldl pruneStep (bs, 0)
  have hs : bs.pruneBlocks retain = .ok (r.1.flush retain, r.2) := by
    unfold pruneBlocks
    dsimp only
    rw [if_neg (by omega), if_neg (by omega), if_neg (by omega)]
    rfl
  have hcount : r.2 = (retain - bs.base).toNat := by
    rw [foldl_pruneStep_snd (nodup_pruneHeights _ _), List.filter_eq_self.mpr, pruneHeights,
      List.length_map, List.length_range, Nat.zero_add]
    intro k hk
    obtain ⟨hbk, hkr⟩ := mem_pruneHeights.mp hk
    rw [hI.loadBlockMeta_isSome, hI.ghost_isSome]
    rcases hI.range with ⟨-, hh0⟩ | ⟨hb0, -⟩
    · omega
    · exact ⟨hb0, hbk, by omega⟩
  refine ⟨r.1.flush retain, hcount ▸ hs, rfl,
    (deletes_foldl_pruneStep (pruneHeights bs.base retain) (bs, 0)).height_eq, fun h ↦ ?_⟩
  rw [(Reachable.pruneBlocks hr hs).inv.loadBlock_eq, hI.loadBlock_eq]
  split_ifs <;> rfl

theorem reachable_pruneBlocks_count_replicate :
    ∃ bs bs' : BlockStore Unit, bs.pruneBlocks 2 = .ok (bs', 1) ∧ bs'.base = 2 ∧
      bs'.height = 3 ∧ bs'.loadBlock (Except.ok : Bytes → Except String Bytes) 1 = .ok none := by
  obtain ⟨bs, hr, hb, hh⟩ := reachable_replicate 3
  obtain ⟨bs', hs, hb', hh', hload⟩ := reachable_pruneBlocks_count hr
    (show (0 : ℤ) < 2 by decide) (by rw [hh]; decide) (by rw [hb]; decide)
  have hcount : (2 - bs.base).toNat = 1 := by
    rw [hb]
    rfl
  rw [hcount] at hs
  exact ⟨bs, bs', hs, hb', hh'.trans hh, (hload 1).trans (if_pos (by decide))⟩

/-- The loop of `PruneBlocks` over at least a thousand blocks passes through a state whose
database, reopened, has as base the height of the thousandth block it deleted: the flush saves
`h`, not `h + 1`, and the base meta is gone. -/
theorem pruneBlocks_flush_base_deleted {bs : BlockStore Cm} {G : ℤ → Option B}
    (hr : Reachable blockFromBytes blockHeight blockHash lastCommit bs G) {retain : ℤ}
    (hret : bs.base + 1000 ≤ retain) (hle : retain ≤ bs.height) :
    ∃ mid : BlockStore Cm × ℕ,
      (pruneHeights bs.base retain).foldl pruneStep (bs, 0) =
        (pruneHeights (bs.base + 1000) retain).foldl pruneStep mid ∧
      (newBlockStore mid.1.db).base = bs.base + 999 ∧
      (newBlockStore mid.1.db).height = bs.height ∧
      (newBlockStore mid.1.db).loadBaseMeta = none := by
  have hI := hr.inv
  have hb0 : 0 < bs.base := by
    rcases hI.range with ⟨hb, hh0⟩ | ⟨hb0, -⟩
    · omega
    · exact hb0
  have hmeta : ∀ k, bs.base ≤ k → k < retain → (bs.loadBlockMeta k).isSome := fun k h₁ h₂ ↦ by
    rw [hI.loadBlockMeta_isSome, hI.ghost_isSome]
    exact ⟨hb0, h₁, by omega⟩
  set acc := (pruneHeights bs.base (bs.base + 999)).foldl pruneStep (bs, 0)
  have hd := deletes_foldl_pruneStep (pruneHeights bs.base (bs.base + 999)) (bs, 0)
  have hcount : acc.2 = 999 := by
    rw [foldl_pruneStep_snd (nodup_pruneHeights _ _), List.filter_eq_self.mpr, pruneHeights,
      List.length_map, List.length_range]
    · omega
    · intro k hk
      obtain ⟨h₁, h₂⟩ := mem_pruneHeights.mp hk
      exact hmeta k h₁ (by omega)
  obtain ⟨m, hm⟩ : ∃ m, acc.1.loadBlockMeta (bs.base + 999) = some m := by
    rw [hd.loadBlockMeta_of_not_mem fun hk ↦ by have := (mem_pruneHeights.mp hk).2; omega]
    exact Option.isSome_iff_exists.mp (hmeta _ (by omega) (by omega))
  have hround : pruneStep acc (bs.base + 999) =
      (({ acc.1 with db := deleteBlock acc.1.db (bs.base + 999) m } : BlockStore Cm).flush
        (bs.base + 999), 1000) := by
    simp only [pruneStep, hm, hcount]
    rfl
  refine ⟨pruneStep acc (bs.base + 999), ?_, ?_, ?_, ?_⟩
  · rw [pruneHeights_append (b := bs.base + 1000) (by omega) hret,
      pruneHeights_append (b := bs.base + 999) (by omega) (by omega), List.foldl_append,
      List.foldl_append, show bs.base + 1000 = bs.base + 999 + 1 by omega, pruneHeights_add_one]
    rfl
  · rw [hround, newBlockStore_flush (by omega)]
    rfl
  · rw [hround, newBlockStore_flush (by omega)]
    exact hd.height_eq
  · rw [hround, newBlockStore_flush (by omega), loadBaseMeta, if_neg]
    · exact (Deletes.deleteBlock hm).loadBlockMeta_of_mem (List.mem_singleton_self _)
    · change bs.base + 999 ≠ 0
      omega

theorem pruneBlocks_flush_base_deleted_replicate :
    ∃ bs : BlockStore Unit, bs.base = 1 ∧ bs.height = 1001 ∧ ∃ mid : BlockStore Unit × ℕ,
      (pruneHeights 1 1001).foldl pruneStep (bs, 0) =
        (pruneHeights 1001 1001).foldl pruneStep mid ∧
      (newBlockStore mid.1.db).base = 1000 ∧ (newBlockStore mid.1.db).loadBaseMeta = none := by
  obtain ⟨bs, hr, hb, hh⟩ := reachable_replicate 1001
  have hb1 : bs.base = 1 := by
    rw [hb]
    rfl
  obtain ⟨mid, hfold, hbase, -, hmeta⟩ := pruneBlocks_flush_base_deleted hr
    (show bs.base + 1000 ≤ 1001 by omega) (show (1001 : ℤ) ≤ bs.height by omega)
  rw [hb1] at hfold hbase
  exact ⟨bs, hb1, hh, mid, hfold, hbase, hmeta⟩

section Hash

variable (hinj : Function.Injective blockHash)
include hinj

/-- With hashes that do not collide, the hash keys are exactly those of the blocks held, each
at its block's height. -/
theorem Reachable.blockHash_lookup {bs : BlockStore Cm} {G : ℤ → Option B}
    (hr : Reachable blockFromBytes blockHeight blockHash lastCommit bs G) (x : Bytes) (h : ℤ) :
    bs.db.blockHash.lookup x = some h ↔ ∃ b, G h = some b ∧ blockHash b = x := by
  induction hr generalizing h with
  | empty => simp [newBlockStore, DB.empty]
  | @saveBlock bs bs' G block blockParts seenCommit hr₀ hpos hdec hs ih =>
    have hI := hr₀.inv
    obtain ⟨hcont, -, hsv⟩ := saveBlock_eq_ok hs
    have hnone := hI.ghost_saveBlock hcont
    rw [hsv.blockHash_lookup]
    by_cases hx : x = blockHash block
    · subst hx
      rw [if_pos rfl, Option.some.injEq]
      constructor
      · rintro rfl
        exact ⟨block, Function.update_self _ _ _, rfl⟩
      · rintro ⟨b, hb, hbx⟩
        obtain rfl := hinj hbx
        by_contra hne
        rw [Function.update_of_ne (Ne.symm hne)] at hb
        exact hne (hI.blockHeight_eq h b hb)
    · rw [if_neg hx, ih]
      by_cases hk : h = blockHeight block
      · subst hk
        rw [hnone, Function.update_self]
        simp only [reduceCtorEq, false_and, exists_false, Option.some.injEq, exists_eq_left',
          false_iff]
        exact Ne.symm hx
      · rw [Function.update_of_ne hk]
  | saveSeenCommit height seenCommit _ ih => exact ih h
  | @pruneBlocks bs bs' G retain pruned hr₀ hs ih =>
    have hI := hr₀.inv
    obtain ⟨hpos, hle, hbase, rfl, -⟩ := pruneBlocks_eq_ok hs
    have hd := (deletes_foldl_pruneStep (pruneHeights bs.base retain) (bs, 0)).flush retain
    rw [hd.blockHash_lookup]
    by_cases hP : ∃ k ∈ pruneHeights bs.base retain, ∃ m, bs.loadBlockMeta k = some m ∧
        m.blockID.hash.getD [] = x
    · rw [if_pos hP]
      simp only [reduceCtorEq, false_iff, not_exists, not_and]
      intro b hb hbx
      have hh : ¬ h < retain := fun hh ↦ by
        rw [if_pos hh] at hb
        cases hb
      rw [if_neg hh] at hb
      obtain ⟨k, hk, m, hm, hx⟩ := hP
      obtain ⟨bk, hbk, hmk⟩ := hI.loadBlockMeta_eq_some hm
      rw [hmk, Option.getD_some] at hx
      obtain rfl := hinj (hbx.trans hx.symm)
      have := (hI.blockHeight_eq h b hb).symm.trans (hI.blockHeight_eq k b hbk)
      have := (mem_pruneHeights.mp hk).2
      omega
    rw [if_neg hP, ih]
    dsimp only
    by_cases hh : h < retain
    · rw [if_pos hh]
      simp only [reduceCtorEq, false_and, exists_false, iff_false, not_exists, not_and]
      intro b hb hbx
      obtain ⟨hb0, hbh, -⟩ := (hI.ghost_isSome h).mp (by rw [hb]; rfl)
      obtain ⟨m, hm⟩ := Option.isSome_iff_exists.mp
        ((hI.loadBlockMeta_isSome h).trans (by rw [hb]; rfl))
      obtain ⟨b', hb', hmb⟩ := hI.loadBlockMeta_eq_some hm
      rw [hb] at hb'
      obtain rfl := Option.some.inj hb'
      exact hP ⟨h, mem_pruneHeights.mpr ⟨hbh, hh⟩, m, hm, by rw [hmb, Option.getD_some, hbx]⟩
    · rw [if_neg hh]
  | restart _ ih => exact ih h

/-- With hashes that do not collide, `LoadBlockByHash` returns every block held under its
hash, and nothing for a hash no block held has. -/
theorem reachable_loadBlockByHash {bs : BlockStore Cm} {G : ℤ → Option B}
    (hr : Reachable blockFromBytes blockHeight blockHash lastCommit bs G) :
    (∀ h b, G h = some b → bs.loadBlockByHash blockFromBytes (blockHash b) = .ok (some b)) ∧
      ∀ x, (∀ h b, G h = some b → blockHash b ≠ x) →
        bs.loadBlockByHash blockFromBytes x = .ok none := by
  refine ⟨fun h b hb ↦ ?_, fun x hx ↦ ?_⟩
  · rw [loadBlockByHash, (Reachable.blockHash_lookup hinj hr _ h).mpr ⟨b, hb, rfl⟩]
    exact (hr.inv.loadBlock_eq h).trans (congrArg _ hb)
  · cases hl : bs.db.blockHash.lookup x with
    | none =>
      rw [loadBlockByHash, hl]
      rfl
    | some h =>
      obtain ⟨b, hb, hbx⟩ := (Reachable.blockHash_lookup hinj hr x h).mp hl
      exact absurd hbx (hx h b hb)

end Hash

theorem reachable_loadBlockByHash_replicate :
    ∃ bs : BlockStore Unit, bs.height = 1 ∧
      bs.loadBlockByHash (Except.ok : Bytes → Except String Bytes) [0] = .ok (some [0]) := by
  obtain ⟨bs, hr, -, hh⟩ := reachable_replicate 1
  exact ⟨bs, hh, (reachable_loadBlockByHash Function.injective_id hr).1 1 [0] rfl⟩

end BlockStore

end Tenderdash.Store
