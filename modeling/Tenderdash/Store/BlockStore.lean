import Mathlib.Data.List.AList
import Tenderdash.Types.PartSet
import Tenderdash.Lib.Except
import Tenderdash.Lib.MapLoop

/-!
# The block store

`store/store.go`.  The block store keeps, in a key-value database, each block's meta, its
parts, the commit its successor carries for it, the commit seen for it, and a height under
its hash, and in memory the first and last heights it holds, `base` and `height`, which it
also persists under `blockStore`.  It is meant to hold every block from `base` to `height`.

The keys `calcBlockMetaKey`, `calcBlockPartKey`, `calcBlockCommitKey`, `calcSeenCommitKey`,
`calcBlockHashKey` and `blockStoreKey` format distinct prefixes and read back the values
they format, so the database is one map for each kind of key, `DB`, keyed by those values.
The store reads a block for its height, hash and `LastCommit` (`blockHeight`, `blockHash`,
`lastCommit`) and decodes one from the bytes of its parts with `blockFromBytes`, which
stands for `proto.Unmarshal` followed by `types.BlockFromProto`; commits are an abstract
`Cm`, and a block meta keeps its block ID, the one field the store reads.  The database never
fails, so the branches on its errors are left out; a Go panic is an `Except` error.
`PruneBlocks` writes its deletions through batches, which the loop never reads back; they
are applied as they are made.
-/

namespace Tenderdash.Store

/-- `types.BlockMeta`, with the field the store reads. -/
structure BlockMeta where
  blockID : BlockID
  deriving DecidableEq, Repr

/-- `tmstore.BlockStoreState`. -/
structure BlockStoreState where
  base : ℤ
  height : ℤ
  deriving DecidableEq, Repr

/-- The store's database, one map for each kind of key. -/
structure DB (Cm : Type) where
  /-- `H:<height>` -/
  blockMeta : AList fun _ : ℤ ↦ BlockMeta
  /-- `P:<height>:<index>` -/
  blockPart : AList fun _ : ℤ × ℕ ↦ Part
  /-- `C:<height>` -/
  blockCommit : AList fun _ : ℤ ↦ Cm
  /-- `SC:<height>` -/
  seenCommit : AList fun _ : ℤ ↦ Cm
  /-- `BH:<hash>`, holding the height -/
  blockHash : AList fun _ : Bytes ↦ ℤ
  /-- `blockStore` -/
  blockStore : Option BlockStoreState

/-- The database with no key. -/
def DB.empty {Cm : Type} : DB Cm := ⟨∅, ∅, ∅, ∅, ∅, none⟩

/-- `BlockStore`. -/
structure BlockStore (Cm : Type) where
  db : DB Cm
  base : ℤ
  height : ℤ

/-- `SaveBlockStoreState`. -/
def saveBlockStoreState {Cm : Type} (bsj : BlockStoreState) (db : DB Cm) : DB Cm :=
  { db with blockStore := some bsj }

/-- `LoadBlockStoreState`: the zero state when none was saved, and base `1` for a state saved
before `Base` existed. -/
def loadBlockStoreState {Cm : Type} (db : DB Cm) : BlockStoreState :=
  match db.blockStore with
  | none => ⟨0, 0⟩
  | some bsj => if bsj.height > 0 ∧ bsj.base = 0 then { bsj with base := 1 } else bsj

namespace BlockStore

variable {B Cm : Type}

/-- `NewBlockStore`. -/
def newBlockStore (db : DB Cm) : BlockStore Cm :=
  let bsj := loadBlockStoreState db
  { db, base := bsj.base, height := bsj.height }

/-- `Size`. -/
def size (bs : BlockStore Cm) : ℤ :=
  if bs.height = 0 then 0 else bs.height - bs.base + 1

/-- `LoadBlockMeta`. -/
def loadBlockMeta (bs : BlockStore Cm) (height : ℤ) : Option BlockMeta :=
  bs.db.blockMeta.lookup height

/-- `LoadBaseMeta`. -/
def loadBaseMeta (bs : BlockStore Cm) : Option BlockMeta :=
  if bs.base = 0 then none else bs.loadBlockMeta bs.base

/-- `LoadBlockPart`. -/
def loadBlockPart (bs : BlockStore Cm) (height : ℤ) (index : ℕ) : Option Part :=
  bs.db.blockPart.lookup (height, index)

/-- `LoadBlockCommit`. -/
def loadBlockCommit (bs : BlockStore Cm) (height : ℤ) : Option Cm :=
  bs.db.blockCommit.lookup height

/-- `LoadSeenCommit`. -/
def loadSeenCommit (bs : BlockStore Cm) (height : ℤ) : Option Cm :=
  bs.db.seenCommit.lookup height

/-- The loop of `LoadBlock` over the first `total` parts: their bytes in order, or `none`
when one is missing. -/
def loadBlockParts (bs : BlockStore Cm) (height : ℤ) : ℕ → Option Bytes
  | 0 => some []
  | total + 1 => do
    let buf ← bs.loadBlockParts height total
    let part ← bs.loadBlockPart height total
    pure (buf ++ part.bytes)

variable (blockFromBytes : Bytes → Except String B)

/-- `LoadBlock`: `none` when the meta or a part is missing; a block that does not decode is
a panic. -/
def loadBlock (bs : BlockStore Cm) (height : ℤ) : Except String (Option B) :=
  match bs.loadBlockMeta height with
  | none => pure none
  | some blockMeta =>
    match bs.loadBlockParts height blockMeta.blockID.partSetHeader.total with
    | none => pure none
    | some buf => some <$> blockFromBytes buf

/-- `LoadBlockByHash`. -/
def loadBlockByHash (bs : BlockStore Cm) (hash : Bytes) : Except String (Option B) :=
  match bs.db.blockHash.lookup hash with
  | none => pure none
  | some height => bs.loadBlock blockFromBytes height

/-- `saveState`. -/
def saveState (bs : BlockStore Cm) : BlockStore Cm :=
  { bs with db := saveBlockStoreState ⟨bs.base, bs.height⟩ bs.db }

/-- `saveBlockPart`; a missing part is the panic of `part.ToProto()` on `nil`. -/
def saveBlockPart (height : ℤ) (db : DB Cm) (index : ℕ) (part : Option Part) :
    Except String (DB Cm) :=
  match part with
  | none => throw "unable to make part into proto: nil part"
  | some part => pure { db with blockPart := db.blockPart.insert (height, index) part }

variable (blockHeight : B → ℤ) (blockHash : B → Bytes) (lastCommit : B → Cm)

/-- `SaveBlock`. -/
def saveBlock (bs : BlockStore Cm) (block : B) (blockParts : PartSet) (seenCommit : Cm) :
    Except String (BlockStore Cm) := do
  let height := blockHeight block
  let hash := blockHash block
  if bs.base > 0 ∧ height ≠ bs.height + 1 then
    throw ("BlockStore can only save contiguous blocks. Wanted " ++ toString (bs.height + 1) ++
      ", got " ++ toString height)
  if !blockParts.isComplete then
    throw "BlockStore can only save complete block part sets"
  -- the parts go first: a reader takes a meta to mean that the whole block is there
  let db ← (List.range blockParts.total).foldlM
    (fun db i ↦ saveBlockPart height db i (blockParts.parts i)) bs.db
  let blockMeta : BlockMeta := ⟨⟨some hash, blockParts.header⟩⟩
  let db := { db with
    blockMeta := db.blockMeta.insert height blockMeta
    blockHash := db.blockHash.insert hash height
    blockCommit := db.blockCommit.insert (height - 1) (lastCommit block)
    seenCommit := db.seenCommit.insert height seenCommit }
  let bs := { bs with db, height, base := if bs.base = 0 then height else bs.base }
  pure bs.saveState

/-- `SaveSeenCommit`. -/
def saveSeenCommit (bs : BlockStore Cm) (height : ℤ) (seenCommit : Cm) : BlockStore Cm :=
  { bs with db := { bs.db with seenCommit := bs.db.seenCommit.insert height seenCommit } }

/-- The `flush` of `PruneBlocks`: the base moves first, then the state is saved. -/
def flush (bs : BlockStore Cm) (base : ℤ) : BlockStore Cm :=
  saveState { bs with base }

/-- What one round of `PruneBlocks`'s loop deletes at a height with a meta. -/
def deleteBlock (db : DB Cm) (h : ℤ) (blockMeta : BlockMeta) : DB Cm :=
  { db with
    blockMeta := db.blockMeta.erase h
    blockHash := db.blockHash.erase (blockMeta.blockID.hash.getD [])
    blockCommit := db.blockCommit.erase h
    seenCommit := db.seenCommit.erase h
    blockPart := (List.range blockMeta.blockID.partSetHeader.total).foldl
      (fun parts p ↦ parts.erase (h, p)) db.blockPart }

/-- One round of `PruneBlocks`'s loop, with the count of blocks pruned; every thousandth
block flushes the batch. -/
def pruneStep (acc : BlockStore Cm × ℕ) (h : ℤ) : BlockStore Cm × ℕ :=
  match acc.1.loadBlockMeta h with
  | none => acc
  | some blockMeta =>
    let bs := { acc.1 with db := deleteBlock acc.1.db h blockMeta }
    let pruned := acc.2 + 1
    if pruned % 1000 = 0 ∧ pruned > 0 then (bs.flush h, pruned) else (bs, pruned)

/-- The heights the loop of `PruneBlocks` visits, `for h := base; h < height; h++`. -/
def pruneHeights (base height : ℤ) : List ℤ :=
  (List.range (height - base).toNat).map fun i : ℕ ↦ base + (i : ℤ)

/-- `PruneBlocks`: the store and the number of blocks pruned. -/
def pruneBlocks (bs : BlockStore Cm) (height : ℤ) : Except String (BlockStore Cm × ℕ) :=
  if height ≤ 0 then throw "height must be greater than 0"
  else if height > bs.height then
    throw ("cannot prune beyond the latest height " ++ toString bs.height)
  else
    let base := bs.base
    if height < base then
      throw ("cannot prune to height " ++ toString height ++
        ", it is lower than base height " ++ toString base)
    else
      let (bs, pruned) := (pruneHeights base height).foldl pruneStep (bs, 0)
      pure (bs.flush height, pruned)

end BlockStore

/-! ## What the operations do to the database -/

namespace BlockStore

open MapLoop

variable {B Cm : Type} {bs bs' : BlockStore Cm}

/-- A saved state with a positive base loads back as it was saved. -/
theorem loadBlockStoreState_of_pos {db : DB Cm} {bsj : BlockStoreState}
    (h : db.blockStore = some bsj) (hb : 0 < bsj.base) : loadBlockStoreState db = bsj := by
  simp only [loadBlockStoreState, h]
  exact if_neg fun hc ↦ by omega

/-- Reopening a store over its database gives the store back when the database holds its
state. -/
theorem newBlockStore_eq_self (h : loadBlockStoreState bs.db = ⟨bs.base, bs.height⟩) :
    newBlockStore bs.db = bs := by
  simp only [newBlockStore, h]

/-- Reopening a store over the database a `flush` to a positive base wrote gives the flushed
store. -/
theorem newBlockStore_flush {base : ℤ} (hb : 0 < base) :
    newBlockStore (bs.flush base).db = bs.flush base :=
  newBlockStore_eq_self (loadBlockStoreState_of_pos rfl hb)

/-- `LoadBlock`'s loop reads only the parts at its height: two stores that hold the same
first `n` parts there read the same bytes. -/
theorem loadBlockParts_congr {bs₁ bs₂ : BlockStore Cm} {height : ℤ} {n : ℕ}
    (h : ∀ i < n, bs₁.loadBlockPart height i = bs₂.loadBlockPart height i) :
    bs₁.loadBlockParts height n = bs₂.loadBlockParts height n := by
  induction n with
  | zero => rfl
  | succ n ih => simp only [loadBlockParts, ih fun i hi ↦ h i (by omega), h n (by omega)]

/-- Parts saved from a part set read back as `PartSet.readParts` reads the set. -/
theorem loadBlockParts_eq_readParts {height : ℤ} {parts : ℕ → Option Part} {n : ℕ}
    (h : ∀ i < n, bs.loadBlockPart height i = parts i) :
    bs.loadBlockParts height n = (PartSet.readParts parts n).toOption := by
  induction n with
  | zero => rfl
  | succ n ih =>
    rw [loadBlockParts, ih fun i hi ↦ h i (by omega), h n (by omega), PartSet.readParts]
    cases PartSet.readParts parts n with
    | error e => rfl
    | ok front => cases parts n <;> rfl

/-- The loop of `SaveBlock` over the parts: it fails on a missing part, and otherwise writes
each part at its index and nothing else. -/
theorem foldlM_saveBlockPart {height : ℤ} {parts : ℕ → Option Part} :
    ∀ {l : List ℕ} {db db' : DB Cm},
      l.foldlM (fun db i ↦ saveBlockPart height db i (parts i)) db = .ok db' →
      (∀ i ∈ l, (parts i).isSome) ∧ db' = { db with blockPart := db'.blockPart } ∧
      ∀ h i, db'.blockPart.lookup (h, i) =
        if h = height ∧ i ∈ l then parts i else db.blockPart.lookup (h, i)
  | [], db, db', hs => by
    obtain rfl : db = db' := Except.ok.inj hs
    exact ⟨by simp, rfl, fun _ _ ↦ by simp⟩
  | i :: l, db, db', hs => by
    rw [List.foldlM_cons] at hs
    obtain ⟨db₁, h₁, hrest⟩ := Except.bind_eq_ok.mp hs
    cases hp : parts i with
    | none =>
      simp only [saveBlockPart, hp] at h₁
      exact absurd h₁ Except.throw_ne_ok
    | some part =>
      simp only [saveBlockPart, hp] at h₁
      obtain rfl := Except.pure_eq_ok.mp h₁
      obtain ⟨hsome, hdb, hlookup⟩ := foldlM_saveBlockPart hrest
      refine ⟨List.forall_mem_cons.mpr ⟨by rw [hp]; rfl, hsome⟩, hdb.trans rfl, fun h j ↦ ?_⟩
      rw [hlookup h j]
      by_cases hk : h = height ∧ j = i
      · obtain ⟨rfl, rfl⟩ := hk
        by_cases hl : j ∈ l <;> simp [hl, hp]
      · have hne : (h, j) ≠ (height, i) := fun he ↦ hk (Prod.mk.inj he)
        simp only [AList.lookup_insert_ne hne, List.mem_cons]
        by_cases hh : h = height
        · have hj : j ≠ i := fun hj ↦ hk ⟨hh, hj⟩
          simp [hh, hj]
        · simp [hh]

section Load

variable (blockFromBytes : Bytes → Except String B)

/-- `LoadBlock` reads only the meta and the parts at its height. -/
theorem loadBlock_congr {bs₁ bs₂ : BlockStore Cm} {h : ℤ}
    (hm : bs₁.loadBlockMeta h = bs₂.loadBlockMeta h)
    (hp : ∀ i, bs₁.loadBlockPart h i = bs₂.loadBlockPart h i) :
    bs₁.loadBlock blockFromBytes h = bs₂.loadBlock blockFromBytes h := by
  have hparts : ∀ n, bs₁.loadBlockParts h n = bs₂.loadBlockParts h n :=
    fun _ ↦ loadBlockParts_congr fun i _ ↦ hp i
  simp only [loadBlock, hm, hparts]

theorem loadBlock_of_loadBlockMeta_eq_none {h : ℤ} (hm : bs.loadBlockMeta h = none) :
    bs.loadBlock blockFromBytes h = .ok none := by
  rw [loadBlock, hm]
  rfl

/-- A height with a meta and all the parts it counts, whose bytes decode to `block`, loads
`block`. -/
theorem loadBlock_eq_some {h : ℤ} {blockMeta : BlockMeta} {parts : ℕ → Option Part} {block : B}
    (hm : bs.loadBlockMeta h = some blockMeta)
    (hp : ∀ i < blockMeta.blockID.partSetHeader.total, bs.loadBlockPart h i = parts i)
    (hsome : ∀ i < blockMeta.blockID.partSetHeader.total, (parts i).isSome)
    (hdec : ∀ buf, PartSet.readParts parts blockMeta.blockID.partSetHeader.total = .ok buf →
      blockFromBytes buf = .ok block) :
    bs.loadBlock blockFromBytes h = .ok (some block) := by
  have hread := PartSet.readParts_of_isSome parts _ hsome
  simp only [loadBlock, hm]
  rw [loadBlockParts_eq_readParts hp, hread]
  simp only [Except.toOption, hdec _ hread]
  rfl

end Load

section Save

/-- The loop of `SaveBlock` over parts that are all there returns. -/
theorem foldlM_saveBlockPart_isOk (height : ℤ) {parts : ℕ → Option Part} :
    ∀ {l : List ℕ}, (∀ i ∈ l, (parts i).isSome) → ∀ db : DB Cm,
      ∃ db', l.foldlM (fun db i ↦ saveBlockPart height db i (parts i)) db = .ok db'
  | [], _, db => ⟨db, rfl⟩
  | i :: l, hl, db => by
    obtain ⟨part, hp⟩ := Option.isSome_iff_exists.mp (hl i List.mem_cons_self)
    obtain ⟨db', hdb'⟩ := foldlM_saveBlockPart_isOk height
      (fun j hj ↦ hl j (List.mem_cons_of_mem i hj))
      { db with blockPart := db.blockPart.insert (height, i) part }
    refine ⟨db', ?_⟩
    rw [List.foldlM_cons]
    simp only [saveBlockPart, hp]
    exact hdb'

variable {blockHeight : B → ℤ} {blockHash : B → Bytes} {lastCommit : B → Cm}

/-- `SaveBlock` returns on a block that continues the store, or any block on an empty one,
with a complete set of parts that are all there. -/
theorem exists_saveBlock_eq_ok {block : B} {blockParts : PartSet} {seenCommit : Cm}
    (hcont : bs.base = 0 ∨ blockHeight block = bs.height + 1) (hc : blockParts.isComplete)
    (hp : ∀ i < blockParts.total, (blockParts.parts i).isSome) :
    ∃ bs', bs.saveBlock blockHeight blockHash lastCommit block blockParts seenCommit = .ok bs' := by
  obtain ⟨db, hdb⟩ := foldlM_saveBlockPart_isOk (blockHeight block)
    (fun i hi ↦ hp i (List.mem_range.mp hi)) bs.db
  unfold saveBlock
  rw [if_neg fun ⟨hb, hne⟩ ↦ hcont.elim (fun h0 ↦ by omega) hne, if_neg (by simp [hc])]
  simp only [hdb]
  exact ⟨_, rfl⟩

variable (blockHeight blockHash lastCommit) in
/-- What a `SaveBlock` that returned made of the store: the block's meta, parts, hash key and
commits written at their keys, nothing else changed, and the new base and height saved. -/
structure Saved (bs bs' : BlockStore Cm) (block : B) (blockParts : PartSet) (seenCommit : Cm) :
    Prop where
  base_eq : bs'.base = if bs.base = 0 then blockHeight block else bs.base
  height_eq : bs'.height = blockHeight block
  blockStore_eq : bs'.db.blockStore = some ⟨bs'.base, bs'.height⟩
  loadBlockMeta_eq : ∀ k, bs'.loadBlockMeta k =
    if k = blockHeight block then some ⟨⟨some (blockHash block), blockParts.header⟩⟩
    else bs.loadBlockMeta k
  loadBlockPart_eq : ∀ k i, bs'.loadBlockPart k i =
    if k = blockHeight block ∧ i < blockParts.total then blockParts.parts i
    else bs.loadBlockPart k i
  loadBlockCommit_eq : ∀ k, bs'.loadBlockCommit k =
    if k = blockHeight block - 1 then some (lastCommit block) else bs.loadBlockCommit k
  loadSeenCommit_eq : ∀ k, bs'.loadSeenCommit k =
    if k = blockHeight block then some seenCommit else bs.loadSeenCommit k
  blockHash_lookup : ∀ x, bs'.db.blockHash.lookup x =
    if x = blockHash block then some (blockHeight block) else bs.db.blockHash.lookup x

/-- What `SaveBlock` did when it returned: the block was contiguous or the store empty, every
part of the set was there, and the store is `Saved`. -/
theorem saveBlock_eq_ok {block : B} {blockParts : PartSet} {seenCommit : Cm}
    (hs : bs.saveBlock blockHeight blockHash lastCommit block blockParts seenCommit = .ok bs') :
    ¬ (bs.base > 0 ∧ blockHeight block ≠ bs.height + 1) ∧
      (∀ i < blockParts.total, (blockParts.parts i).isSome) ∧
      Saved blockHeight blockHash lastCommit bs bs' block blockParts seenCommit := by
  unfold saveBlock at hs
  simp only [Except.ite_throw_bind_eq_ok] at hs
  obtain ⟨hcont, -, hs⟩ := hs
  obtain ⟨db, hdb, hbs⟩ := Except.bind_eq_ok.mp hs
  obtain ⟨hsome, hrec, hparts⟩ := foldlM_saveBlockPart hdb
  obtain rfl := Except.pure_eq_ok.mp hbs
  refine ⟨hcont, fun i hi ↦ hsome i (List.mem_range.mpr hi), ?_⟩
  rw [hrec]
  exact
    { base_eq := rfl
      height_eq := rfl
      blockStore_eq := rfl
      loadBlockMeta_eq := fun k ↦ lookup_insert_ite _ _ k _
      loadBlockPart_eq := fun k i ↦ by
        simp only [loadBlockPart, saveState, saveBlockStoreState, hparts, List.mem_range]
      loadBlockCommit_eq := fun k ↦ lookup_insert_ite _ _ k _
      loadSeenCommit_eq := fun k ↦ lookup_insert_ite _ _ k _
      blockHash_lookup := fun x ↦ lookup_insert_ite _ _ x _ }

end Save

section Prune

/-- `bs'` is `bs` with the blocks at the heights of `l` deleted: no meta is left at those
heights, no hash key of a meta that was there, and nothing else has changed. -/
structure Deletes (l : List ℤ) (bs bs' : BlockStore Cm) : Prop where
  height_eq : bs'.height = bs.height
  loadBlockMeta_of_mem : ∀ {k}, k ∈ l → bs'.loadBlockMeta k = none
  loadBlockMeta_of_not_mem : ∀ {k}, k ∉ l → bs'.loadBlockMeta k = bs.loadBlockMeta k
  loadBlockPart_of_not_mem : ∀ {k}, k ∉ l → ∀ i, bs'.loadBlockPart k i = bs.loadBlockPart k i
  loadBlockCommit_of_not_mem : ∀ {k}, k ∉ l → bs'.loadBlockCommit k = bs.loadBlockCommit k
  loadSeenCommit_of_not_mem : ∀ {k}, k ∉ l → bs'.loadSeenCommit k = bs.loadSeenCommit k
  blockHash_lookup : ∀ x, bs'.db.blockHash.lookup x =
    if ∃ k ∈ l, ∃ m, bs.loadBlockMeta k = some m ∧ m.blockID.hash.getD [] = x then none
    else bs.db.blockHash.lookup x

namespace Deletes

theorem nil (bs : BlockStore Cm) : Deletes [] bs bs where
  height_eq := rfl
  loadBlockMeta_of_mem := fun hk ↦ nomatch hk
  loadBlockMeta_of_not_mem := fun _ ↦ rfl
  loadBlockPart_of_not_mem := fun _ _ ↦ rfl
  loadBlockCommit_of_not_mem := fun _ ↦ rfl
  loadSeenCommit_of_not_mem := fun _ ↦ rfl
  blockHash_lookup := fun _ ↦ by simp

/-- A height with no meta is deleted already. -/
theorem of_loadBlockMeta_eq_none {h : ℤ} (hm : bs.loadBlockMeta h = none) : Deletes [h] bs bs where
  height_eq := rfl
  loadBlockMeta_of_mem := fun hk ↦ List.mem_singleton.mp hk ▸ hm
  loadBlockMeta_of_not_mem := fun _ ↦ rfl
  loadBlockPart_of_not_mem := fun _ _ ↦ rfl
  loadBlockCommit_of_not_mem := fun _ ↦ rfl
  loadSeenCommit_of_not_mem := fun _ ↦ rfl
  blockHash_lookup := fun _ ↦ by simp [hm]

/-- One round of the loop at a height with a meta. -/
theorem deleteBlock {h : ℤ} {blockMeta : BlockMeta} (hm : bs.loadBlockMeta h = some blockMeta) :
    Deletes [h] bs { bs with db := BlockStore.deleteBlock bs.db h blockMeta } where
  height_eq := rfl
  loadBlockMeta_of_mem := fun hk ↦ List.mem_singleton.mp hk ▸ AList.lookup_erase _ _
  loadBlockMeta_of_not_mem := fun hk ↦ AList.lookup_erase_ne (List.ne_of_not_mem_cons hk)
  loadBlockPart_of_not_mem := fun hk i ↦ by
    simp only [loadBlockPart, BlockStore.deleteBlock, lookup_foldl_erase]
    exact if_neg fun ⟨_, _, he⟩ ↦ List.ne_of_not_mem_cons hk (Prod.mk.inj he).1.symm
  loadBlockCommit_of_not_mem := fun hk ↦ AList.lookup_erase_ne (List.ne_of_not_mem_cons hk)
  loadSeenCommit_of_not_mem := fun hk ↦ AList.lookup_erase_ne (List.ne_of_not_mem_cons hk)
  blockHash_lookup := fun x ↦ by
    simp only [BlockStore.deleteBlock, lookup_erase_ite]
    exact if_congr (by simp [hm, eq_comm]) rfl rfl

/-- Deleting `l₁` and then `l₂` deletes `l₁ ++ l₂`. -/
theorem append {l₁ l₂ : List ℤ} {bs₁ bs₂ : BlockStore Cm} (h₁ : Deletes l₁ bs bs₁)
    (h₂ : Deletes l₂ bs₁ bs₂) : Deletes (l₁ ++ l₂) bs bs₂ where
  height_eq := h₂.height_eq.trans h₁.height_eq
  loadBlockMeta_of_mem := fun {k} hk ↦ by
    by_cases hk₂ : k ∈ l₂
    · exact h₂.loadBlockMeta_of_mem hk₂
    · rw [h₂.loadBlockMeta_of_not_mem hk₂]
      exact h₁.loadBlockMeta_of_mem ((List.mem_append.mp hk).resolve_right hk₂)
  loadBlockMeta_of_not_mem := fun hk ↦ by
    rw [List.mem_append, not_or] at hk
    rw [h₂.loadBlockMeta_of_not_mem hk.2, h₁.loadBlockMeta_of_not_mem hk.1]
  loadBlockPart_of_not_mem := fun hk i ↦ by
    rw [List.mem_append, not_or] at hk
    rw [h₂.loadBlockPart_of_not_mem hk.2, h₁.loadBlockPart_of_not_mem hk.1]
  loadBlockCommit_of_not_mem := fun hk ↦ by
    rw [List.mem_append, not_or] at hk
    rw [h₂.loadBlockCommit_of_not_mem hk.2, h₁.loadBlockCommit_of_not_mem hk.1]
  loadSeenCommit_of_not_mem := fun hk ↦ by
    rw [List.mem_append, not_or] at hk
    rw [h₂.loadSeenCommit_of_not_mem hk.2, h₁.loadSeenCommit_of_not_mem hk.1]
  blockHash_lookup := fun x ↦ by
    rw [h₂.blockHash_lookup, h₁.blockHash_lookup]
    by_cases hP : ∃ k ∈ l₁ ++ l₂, ∃ m, bs.loadBlockMeta k = some m ∧ m.blockID.hash.getD [] = x
    · rw [if_pos hP]
      obtain ⟨k, hk, m, hm, hx⟩ := hP
      by_cases hk₁ : k ∈ l₁
      · have hP₁ : ∃ k ∈ l₁, ∃ m, bs.loadBlockMeta k = some m ∧ m.blockID.hash.getD [] = x :=
          ⟨k, hk₁, m, hm, hx⟩
        rw [if_pos hP₁, ite_self]
      · have hP₂ : ∃ k ∈ l₂, ∃ m, bs₁.loadBlockMeta k = some m ∧ m.blockID.hash.getD [] = x :=
          ⟨k, (List.mem_append.mp hk).resolve_left hk₁, m,
            (h₁.loadBlockMeta_of_not_mem hk₁).trans hm, hx⟩
        rw [if_pos hP₂]
    · have hP₁ : ¬ ∃ k ∈ l₁, ∃ m, bs.loadBlockMeta k = some m ∧ m.blockID.hash.getD [] = x :=
        fun ⟨k, hk, hm⟩ ↦ hP ⟨k, List.mem_append_left _ hk, hm⟩
      have hP₂ : ¬ ∃ k ∈ l₂, ∃ m, bs₁.loadBlockMeta k = some m ∧ m.blockID.hash.getD [] = x := by
        rintro ⟨k, hk, m, hm, hx⟩
        by_cases hk₁ : k ∈ l₁
        · rw [h₁.loadBlockMeta_of_mem hk₁] at hm
          cases hm
        · rw [h₁.loadBlockMeta_of_not_mem hk₁] at hm
          exact hP ⟨k, List.mem_append_right _ hk, m, hm, hx⟩
      rw [if_neg hP, if_neg hP₂, if_neg hP₁]

/-- `flush` writes only the state. -/
theorem flush {l : List ℤ} (hd : Deletes l bs bs') (base : ℤ) : Deletes l bs (bs'.flush base) :=
  ⟨hd.height_eq, hd.loadBlockMeta_of_mem, hd.loadBlockMeta_of_not_mem,
    hd.loadBlockPart_of_not_mem, hd.loadBlockCommit_of_not_mem, hd.loadSeenCommit_of_not_mem,
    hd.blockHash_lookup⟩

end Deletes

theorem deletes_pruneStep (acc : BlockStore Cm × ℕ) (h : ℤ) :
    Deletes [h] acc.1 (pruneStep acc h).1 := by
  cases hm : acc.1.loadBlockMeta h with
  | none =>
    simp only [pruneStep, hm]
    exact Deletes.of_loadBlockMeta_eq_none hm
  | some blockMeta =>
    simp only [pruneStep, hm]
    split
    · exact (Deletes.deleteBlock hm).flush h
    · exact Deletes.deleteBlock hm

theorem snd_pruneStep (acc : BlockStore Cm × ℕ) (h : ℤ) :
    (pruneStep acc h).2 = acc.2 + if (acc.1.loadBlockMeta h).isSome then 1 else 0 := by
  cases hm : acc.1.loadBlockMeta h with
  | none => simp [pruneStep, hm]
  | some blockMeta =>
    simp only [pruneStep, hm]
    split <;> rfl

/-- The loop of `PruneBlocks` deletes the blocks at the heights it visits. -/
theorem deletes_foldl_pruneStep :
    ∀ (l : List ℤ) (acc : BlockStore Cm × ℕ), Deletes l acc.1 (l.foldl pruneStep acc).1
  | [], acc => Deletes.nil acc.1
  | h :: l, acc => (deletes_pruneStep acc h).append (deletes_foldl_pruneStep l _)

/-- Over heights visited once each, the loop counts the heights that had a meta. -/
theorem foldl_pruneStep_snd : ∀ {l : List ℤ}, l.Nodup → ∀ acc : BlockStore Cm × ℕ,
    (l.foldl pruneStep acc).2 = acc.2 + (l.filter fun k ↦ (acc.1.loadBlockMeta k).isSome).length
  | [], _, acc => rfl
  | h :: l, hl, acc => by
    obtain ⟨hh, hl⟩ := List.nodup_cons.mp hl
    have hstep := deletes_pruneStep acc h
    have hfilter : l.filter (fun k ↦ ((pruneStep acc h).1.loadBlockMeta k).isSome) =
        l.filter fun k ↦ (acc.1.loadBlockMeta k).isSome :=
      List.filter_congr fun k hk ↦ by
        rw [hstep.loadBlockMeta_of_not_mem fun hk' ↦ hh (List.mem_singleton.mp hk' ▸ hk)]
    rw [List.foldl_cons, foldl_pruneStep_snd hl, hfilter, snd_pruneStep, List.filter_cons]
    split
    · rw [List.length_cons]
      omega
    · omega

theorem mem_pruneHeights {base height k : ℤ} :
    k ∈ pruneHeights base height ↔ base ≤ k ∧ k < height := by
  simp only [pruneHeights, List.mem_map, List.mem_range]
  constructor
  · rintro ⟨i, hi, rfl⟩
    omega
  · rintro ⟨hb, hk⟩
    exact ⟨(k - base).toNat, by omega, by omega⟩

/-- The heights from `a` to `c` are those from `a` to `b` and then those from `b`. -/
theorem pruneHeights_append {a b c : ℤ} (hab : a ≤ b) (hbc : b ≤ c) :
    pruneHeights a c = pruneHeights a b ++ pruneHeights b c := by
  have hn : (c - a).toNat = (b - a).toNat + (c - b).toNat := by omega
  rw [pruneHeights, hn, List.range_add, List.map_append, List.map_map]
  congr 1
  refine List.map_congr_left fun i _ ↦ ?_
  simp only [Function.comp_apply, Nat.cast_add]
  omega

theorem pruneHeights_add_one (base : ℤ) : pruneHeights base (base + 1) = [base] := by
  simp [pruneHeights]

theorem nodup_pruneHeights (base height : ℤ) : (pruneHeights base height).Nodup :=
  List.nodup_range.map fun i j h ↦ by simpa using h

/-- What `PruneBlocks` did when it returned: the height was in range, the loop ran over the
heights from the base, and the last flush moved the base to the height. -/
theorem pruneBlocks_eq_ok {retain : ℤ} {pruned : ℕ} (hs : bs.pruneBlocks retain = .ok (bs', pruned)) :
    0 < retain ∧ retain ≤ bs.height ∧ bs.base ≤ retain ∧
      bs' = ((pruneHeights bs.base retain).foldl pruneStep (bs, 0)).1.flush retain ∧
      pruned = ((pruneHeights bs.base retain).foldl pruneStep (bs, 0)).2 := by
  unfold pruneBlocks at hs
  dsimp only at hs
  split_ifs at hs with h₁ h₂ h₃
  obtain ⟨rfl, rfl⟩ := Prod.mk.inj (Except.pure_eq_ok.mp hs)
  exact ⟨by omega, by omega, by omega, rfl, rfl⟩

end Prune

end BlockStore

end Tenderdash.Store
